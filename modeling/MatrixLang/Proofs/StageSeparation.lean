import Mathlib.Data.List.Basic
import MatrixLang.Program.Run
import MatrixLang.Proofs.WellShaped
import MatrixLang.Settings

/-! # Stages

What can go wrong in a program is divided between its two stages.  Compiling fails only with
errors of the source text.  What has been compiled is well-shaped, and a run of well-shaped
statements fails only with errors that come up with values, in whatever environment it starts:
every operation on matrices does (`Dynamic`), and no function is called with a number of
arguments that it is not defined for.
-/

namespace MatrixLang

/-! ## Operations on matrices -/

/-- A computation that fails with no error of a source text. -/
def Dynamic {α : Type} (x : Except Error α) : Prop :=
  Meets (fun _ => True) (fun e => e.inSource = false) x

namespace Dynamic

variable {α β : Type} {x : Except Error α} {f : α → Except Error β}

theorem pure (a : α) : Dynamic (pure a) := trivial

theorem throw {e : Error} (h : e.inSource = false) : Dynamic (throw e : Except Error α) := h

theorem bind (hx : Dynamic x) (hf : ∀ a, Dynamic (f a)) : Dynamic (x >>= f) :=
  Meets.bind hx fun a _ => hf a

end Dynamic

namespace Matrix

variable (a b m : Matrix)

theorem dynamic_asScalar (context : String) : Dynamic (m.asScalar context) := by
  unfold asScalar
  split
  · exact .pure _
  · exact .throw rfl

theorem dynamic_asInteger (context : String) : Dynamic (m.asInteger context) :=
  (m.dynamic_asScalar context).bind fun _ => .pure _

theorem dynamic_checkSize (shape : Shape) : Dynamic (checkSize shape) := by
  unfold checkSize
  split
  · exact .pure _
  · exact .throw rfl

theorem dynamic_ofData (shape : Shape) (data : Array Float) : Dynamic (ofData shape data) := by
  unfold ofData
  dsimp only
  split
  · exact .throw rfl
  · refine (dynamic_checkSize shape).bind fun _ => ?_
    split
    · exact .pure _
    · exact .throw rfl

theorem dynamic_filled (shape : Shape) (x : Float) : Dynamic (filled shape x) := by
  unfold filled
  dsimp only
  split
  · exact .throw rfl
  · exact (dynamic_checkSize shape).bind fun _ => .pure _

/-! ### Arithmetic -/

theorem dynamic_broadcast (operation : String) (f : Float → Float → Float) :
    Dynamic (broadcast operation f a b) := by
  unfold broadcast
  split
  · exact .pure _
  split
  · exact .pure _
  split
  · exact .pure _
  · exact .throw rfl

theorem dynamic_divided (operation : String) (f : Float → Float → Float) :
    Dynamic (do b.checkDivisor; broadcast operation f a b) := by
  have hdivisor : Dynamic b.checkDivisor := by
    unfold checkDivisor
    split
    · exact .throw rfl
    · exact .pure _
  exact hdivisor.bind fun _ => dynamic_broadcast a b operation f

theorem dynamic_byScalar (context : String) (f : Float → Float → Float) :
    Dynamic (do
      let d ← b.asScalar context
      if d == 0 then throw .divideByZero
      return a.map (f · d)) := by
  refine (b.dynamic_asScalar context).bind fun d => ?_
  dsimp only
  split
  · exact .throw rfl
  · exact .pure _

theorem dynamic_multiply : Dynamic (a.multiply b) := by
  unfold multiply
  split
  · exact dynamic_broadcast a b _ _
  split
  · exact .pure _
  · exact .throw rfl

theorem dynamic_power : Dynamic (a.power b) := by
  refine (b.dynamic_asInteger _).bind fun n => ?_
  dsimp only
  split
  · split
    · exact .throw rfl
    · exact .pure _
  split
  · exact .throw rfl
  split
  · exact .throw rfl
  · exact .pure _

/-! ### Parts and joins -/

theorem dynamic_checkIndex (index : Int64) (length : Nat) : Dynamic (checkIndex index length) := by
  unfold checkIndex
  split
  · exact .throw rfl
  · exact .pure _

theorem dynamic_get (index : Int64) : Dynamic (m.get index) := by
  unfold get
  split
  · exact .pure _
  split
  · exact (dynamic_checkIndex _ _).bind fun _ => .pure _
  · exact (dynamic_checkIndex _ _).bind fun _ => .pure _

theorem dynamic_set (index : Int64) (v : Matrix) : Dynamic (m.set index v) := by
  unfold set
  split
  · refine (dynamic_checkIndex _ _).bind fun _ => ?_
    exact (v.dynamic_asScalar _).bind fun _ => .pure _
  split
  · exact (dynamic_checkIndex _ _).bind fun _ => .pure _
  split
  · exact (dynamic_checkIndex _ _).bind fun _ => .pure _
  · exact .throw rfl

theorem dynamic_setBlock (row col : Int64) (v : Matrix) : Dynamic (m.setBlock row col v) := by
  refine (dynamic_checkIndex _ _).bind fun _ => (dynamic_checkIndex _ _).bind fun _ => ?_
  split
  · exact .throw rfl
  split
  · exact .throw rfl
  · exact .pure _

theorem dynamic_checkRun (first extent : Int64) (length : Nat) :
    Dynamic (checkRun first extent length) := by
  unfold checkRun
  split
  · exact .throw rfl
  split
  · exact .throw rfl
  · exact .pure _

theorem dynamic_submatrix (row col height width : Int64) :
    Dynamic (m.submatrix row col height width) := by
  unfold submatrix
  dsimp only
  split
  · exact .throw rfl
  · refine (dynamic_checkRun _ _ _).bind fun _ => ?_
    exact (dynamic_checkRun _ _ _).bind fun _ => .pure _

theorem dynamic_sub (origin extent : Matrix) : Dynamic (m.sub origin extent) := by
  unfold sub
  split
  · refine (origin.dynamic_asInteger _).bind fun _ => ?_
    exact (extent.dynamic_asInteger _).bind fun _ => m.dynamic_submatrix _ _ _ _
  split
  · exact m.dynamic_submatrix _ _ _ _
  · exact .throw rfl

theorem dynamic_concat (side : Side) : Dynamic (a.concat side b) := by
  unfold concat
  split
  · split
    · exact .pure _
    · exact .throw rfl
  · split
    · exact .pure _
    · exact .throw rfl

theorem dynamic_replicate (side : Side) : Dynamic (a.replicate side b) := by
  refine (b.dynamic_asInteger _).bind fun n => ?_
  dsimp only
  split
  · exact .throw rfl
  split
  · exact .throw rfl
  · exact (dynamic_checkSize _).bind fun _ => .pure _

/-! ### New matrices -/

theorem dynamic_range : Dynamic (a.range b) := by
  refine (a.dynamic_asScalar _).bind fun first => (b.dynamic_asScalar _).bind fun last => ?_
  dsimp only
  split
  · exact .throw rfl
  · exact dynamic_ofData _ _

theorem dynamic_dimension (what : String) (x : Float) : Dynamic (dimension what x) := by
  unfold dimension
  split
  · exact .throw rfl
  · exact .pure _

theorem dynamic_shapeFrom : Dynamic m.shapeFrom := by
  unfold shapeFrom
  split
  · exact (dynamic_dimension _ _).bind fun _ => .pure _
  split
  · refine (dynamic_dimension _ _).bind fun _ => ?_
    exact (dynamic_dimension _ _).bind fun _ => .pure _
  · exact .throw rfl

theorem dynamic_shapeFromPair : Dynamic (shapeFromPair a b) := by
  refine (a.dynamic_asScalar _).bind fun x => (dynamic_dimension _ x).bind fun _ => ?_
  exact (b.dynamic_asScalar _).bind fun y => (dynamic_dimension _ y).bind fun _ => .pure _

theorem dynamic_identity : Dynamic m.identity := by
  refine (m.dynamic_asScalar _).bind fun x => (dynamic_dimension _ x).bind fun _ => ?_
  exact (dynamic_checkSize _).bind fun _ => .pure _

end Matrix

theorem MissingPolicy.dynamic_ofCode (code : Int64) : Dynamic (ofCode code) := by
  unfold ofCode
  split
  · exact .pure _
  split
  · exact .pure _
  split
  · exact .pure _
  · exact .throw rfl

/-! ## Operators and functions -/

theorem BinaryOperator.dynamic_apply (op : BinaryOperator) (a b : Matrix) :
    Dynamic (op.apply a b) := by
  cases op with
  | add | sub | cellMul | cellPow => exact a.dynamic_broadcast b _ _
  | cellDiv | cellMod => exact a.dynamic_divided b _ _
  | div => exact a.dynamic_byScalar b _ (· / ·)
  | mod => exact a.dynamic_byScalar b _ Matrix.wrapModulo
  | mul => exact a.dynamic_multiply b
  | pow => exact a.dynamic_power b
  | beside => exact a.dynamic_concat b .beside
  | below => exact a.dynamic_concat b .below
  | repeatBeside | repeatBelow => exact a.dynamic_replicate b _
  | range => exact a.dynamic_range b
  | index => exact (b.dynamic_asInteger _).bind fun i => a.dynamic_get i
  | eq | ne | lt | gt | le | ge | and | or => exact .pure _

namespace Builtin

theorem dynamic_shapeOfArguments {arguments : List Matrix}
    (h : arguments.length = 1 ∨ arguments.length = 2) (f : Builtin) :
    Dynamic (f.shapeOfArguments arguments) := by
  rcases h with h | h
  · obtain ⟨extent, rfl⟩ := List.length_eq_one_iff.mp h
    exact extent.dynamic_shapeFrom
  · obtain ⟨rows, cols, rfl⟩ := List.length_eq_two.mp h
    exact rows.dynamic_shapeFromPair cols

/-- **A function is defined for as many arguments as it accepts.** -/
theorem dynamic_apply {f : Builtin} {arguments : List Matrix}
    (h : f.accepts arguments.length = true) (missing : MissingPolicy) :
    Dynamic (f.apply missing arguments) := by
  cases f with
  | sum | size | count | sqrt | vectorize | inc | dec | abs | cos | sin | tg | ctg | exp | prod
  | ceil =>
    obtain ⟨a, rfl⟩ := List.length_eq_one_iff.mp (beq_iff_eq.mp h)
    exact .pure _
  | ident =>
    obtain ⟨extent, rfl⟩ := List.length_eq_one_iff.mp (beq_iff_eq.mp h)
    exact extent.dynamic_identity
  | conv2 =>
    obtain ⟨a, kernel, rfl⟩ := List.length_eq_two.mp (beq_iff_eq.mp h)
    exact .pure _
  | min | max | mean =>
    rcases (Bool.or_eq_true _ _).mp h with h | h
    · obtain ⟨a, rfl⟩ := List.length_eq_one_iff.mp (beq_iff_eq.mp h)
      exact .pure _
    · obtain ⟨a, b, rfl⟩ := List.length_eq_two.mp (beq_iff_eq.mp h)
      exact a.dynamic_broadcast b _ _
  | zeros | ones =>
    have hlength : arguments.length = 1 ∨ arguments.length = 2 := by
      simpa [accepts] using h
    exact (dynamic_shapeOfArguments hlength _).bind fun _ => Matrix.dynamic_filled _ _
  | imconv =>
    rcases (Bool.or_eq_true _ _).mp h with h | h
    · obtain ⟨a, kernel, rfl⟩ := List.length_eq_two.mp (beq_iff_eq.mp h)
      exact .pure _
    · obtain ⟨a, kernel, policy, rfl⟩ := List.length_eq_three.mp (beq_iff_eq.mp h)
      refine (policy.dynamic_asInteger _).bind fun code => ?_
      exact (MissingPolicy.dynamic_ofCode code).bind fun _ => .pure _
  | sub =>
    rcases (Bool.or_eq_true _ _).mp h with h | h
    · obtain ⟨m, origin, extent, rfl⟩ := List.length_eq_three.mp (beq_iff_eq.mp h)
      exact m.dynamic_sub origin extent
    · obtain ⟨m, arguments, rfl⟩ := List.exists_cons_of_length_eq_add_one (beq_iff_eq.mp h)
      obtain ⟨row, arguments, rfl⟩ :=
        List.exists_cons_of_length_eq_add_one (Nat.succ.inj (beq_iff_eq.mp h))
      obtain ⟨col, height, width, rfl⟩ := List.length_eq_three.mp
        (Nat.succ.inj (Nat.succ.inj (beq_iff_eq.mp h)))
      refine (row.dynamic_asInteger _).bind fun _ => (col.dynamic_asInteger _).bind fun _ => ?_
      refine (height.dynamic_asInteger _).bind fun _ => ?_
      exact (width.dynamic_asInteger _).bind fun _ => m.dynamic_submatrix _ _ _ _

end Builtin

/-! ## Evaluation -/

namespace Expr

/-- An evaluation that fails with no error of a source text, and gives something with the
property `P`. -/
def Sound {α : Type} (P : α → Prop) (x : Eval α) : Prop :=
  MeetsOn P (fun e => e.inSource = false) x

theorem sound_lift {α : Type} {x : Except Error α} (h : Dynamic x) :
    Sound (fun _ => True) (Eval.lift x) :=
  fun _ => h

theorem sound_modify (f : Environment → Environment) :
    Sound (fun _ => True) (modifyThe Environment f) :=
  fun _ => trivial

theorem sound_lookup (name : String) : Sound (fun _ => True) (Eval.lookup name) := by
  intro env
  show Meets _ _ (env.lookup name)
  unfold Environment.lookup
  split
  · exact .pure trivial
  · exact .throw rfl

theorem sound_update (name : String) (f : Matrix → Matrix) :
    Sound (fun _ => True) (Eval.update name f) :=
  (sound_lookup name).bind fun _ _ => (sound_modify _).bind fun _ _ => .pure trivial

theorem sound_evalCells {es : List Expr} (h : ∀ e ∈ es, Sound (fun _ => True) e.eval) :
    Sound (fun _ => True) (evalCells es) := by
  induction es with
  | nil =>
    rw [evalCells]
    exact .pure trivial
  | cons e es ih =>
    obtain ⟨he, hes⟩ := List.forall_mem_cons.mp h
    rw [evalCells]
    refine he.bind fun m _ => (sound_lift (m.dynamic_asScalar _)).bind fun _ _ => ?_
    exact (ih hes).bind fun _ _ => .pure trivial

theorem sound_evalAll {es : List Expr} (h : ∀ e ∈ es, Sound (fun _ => True) e.eval) :
    Sound (fun ms => ms.length = es.length) (evalAll es) := by
  induction es with
  | nil =>
    rw [evalAll]
    exact .pure rfl
  | cons e es ih =>
    obtain ⟨he, hes⟩ := List.forall_mem_cons.mp h
    rw [evalAll]
    exact he.bind fun _ _ => (ih hes).bind fun _ hms => .pure (congrArg Nat.succ hms)

/-- **A well-shaped expression fails with no error of a source text.** -/
theorem WellShaped.sound {e : Expr} (h : e.WellShaped) : Sound (fun _ => True) e.eval := by
  induction h with
  | literal value =>
    rw [eval]
    exact .pure trivial
  | «variable» name =>
    rw [eval]
    exact sound_lookup name
  | matrix _ _ _ _ ih =>
    rw [eval]
    exact (sound_evalCells ih).bind fun _ _ => sound_lift (Matrix.dynamic_ofData _ _)
  | unary op _ ih =>
    rw [eval]
    exact ih.bind fun _ _ => .pure trivial
  | binary op _ _ ihleft ihright =>
    rw [eval]
    exact ihleft.bind fun a _ => ihright.bind fun b _ => sound_lift (op.dynamic_apply a b)
  | @call f arguments haccepts _ ih =>
    rw [eval]
    cases hupdate : Eval.updateCall? f arguments with
    | some result =>
      obtain ⟨name, change, -, -, rfl⟩ := Eval.updateCall?_eq_some hupdate
      exact sound_update name (Matrix.map change)
    | none =>
      -- there are as many values as arguments, and the compiler has accepted their number
      refine (sound_evalAll ih).bind fun values hvalues => ?_
      refine MeetsOn.bind (P := fun _ => True) (fun _ => trivial) fun env _ => ?_
      exact sound_lift (Builtin.dynamic_apply (hvalues ▸ haccepts) env.missing)

end Expr

/-! ## Runs -/

/-- A run that ends early has an error that comes up with values, or has no fuel left. -/
def Stop.OfValues : Stop → Prop
  | .failure found => found.stage = .run ∧ found.cause.inSource = false
  | .outOfFuel => True

namespace Run

open MatrixLang.Expr (Sound sound_lift sound_lookup sound_modify sound_update)

variable {α : Type} {fuel line : Nat}

/-- A part of a run that fails with no error of a source text. -/
abbrev Proper (x : Run α) : Prop :=
  MeetsOn (fun _ => True) Stop.OfValues x

theorem proper_atLine {x : Eval α} {P : α → Prop} (h : Sound P x) (line : Nat) :
    MeetsOn P Stop.OfValues (atLine line x) := by
  intro machine
  have hx := h machine.env
  rcases hr : x machine.env with ⟨r, env⟩
  rw [hr] at hx
  unfold atLine
  rw [hr]
  cases r with
  | error cause => exact ⟨rfl, hx⟩
  | ok a => exact hx

theorem proper_eval {e : Expr} (h : e.WellShaped) (line : Nat) : Proper (atLine line e.eval) :=
  proper_atLine h.sound line

theorem proper_integer {e : Expr} (h : e.WellShaped) (context : String) (line : Nat) :
    Proper (atLine line (integer context e)) :=
  proper_atLine (h.sound.bind fun m _ => sound_lift (m.dynamic_asInteger context)) line

theorem proper_number {e : Expr} (h : e.WellShaped) (context : String) (line : Nat) :
    Proper (atLine line (number context e)) :=
  proper_atLine (h.sound.bind fun m _ => sound_lift (m.dynamic_asScalar context)) line

theorem proper_change {f : Matrix → Except Error Matrix} (h : ∀ m, Dynamic (f m)) (name : String)
    (line : Nat) : Proper (atLine line (change name f)) :=
  proper_atLine ((sound_lookup name).bind fun m _ =>
    (sound_lift (h m)).bind fun _ _ => sound_modify _) line

theorem proper_assign (name : String) (value : Matrix) : Proper (assign name value) :=
  fun _ => trivial

theorem proper_note (n : Note) : Proper (note n) :=
  fun _ => trivial

section

variable {run : Statement → Run Unit}

theorem proper_all {ss : List Statement} (h : ∀ s ∈ ss, Proper (run s)) : Proper (all run ss) := by
  induction ss with
  | nil => exact .pure trivial
  | cons s ss ih =>
    obtain ⟨hs, hss⟩ := List.forall_mem_cons.mp h
    exact hs.bind fun _ _ => ih hss

theorem proper_firstBranch {branches : List Branch} {otherwise : Option (List Statement)}
    (hconditions : ∀ b ∈ branches, b.condition.WellShaped)
    (hbodies : ∀ b ∈ branches, ∀ s ∈ b.body, Proper (run s))
    (hotherwise : ∀ body ∈ otherwise, ∀ s ∈ body, Proper (run s)) :
    Proper (firstBranch run line otherwise branches) := by
  induction branches with
  | nil =>
    cases otherwise with
    | none => exact .pure trivial
    | some body => exact proper_all (hotherwise body rfl)
  | cons branch branches ih =>
    obtain ⟨condition, body⟩ := branch
    obtain ⟨hcondition, hconditions⟩ := List.forall_mem_cons.mp hconditions
    obtain ⟨hbody, hbodies⟩ := List.forall_mem_cons.mp hbodies
    refine (proper_eval hcondition line).bind fun value _ => ?_
    split
    · exact proper_all hbody
    · exact ih hconditions hbodies

end

/-- What runs on some fuel fails with no error of a source text. -/
structure ProperOn (fuel : Nat) : Prop where
  statement : ∀ {s : Statement}, s.WellShaped → Proper (statement fuel s)
  rounds : ∀ {limit : Expr} {body : List Statement}, limit.WellShaped →
    (∀ s ∈ body, s.WellShaped) → ∀ line counter direction,
      Proper (rounds fuel line counter limit direction body)

theorem ProperOn.body (h : ProperOn fuel) {body : List Statement}
    (hbody : ∀ s ∈ body, s.WellShaped) : Proper (all (Run.statement fuel) body) :=
  proper_all fun s hs => h.statement (hbody s hs)

theorem ProperOn.statement_succ (h : ProperOn fuel) {s : Statement} (hs : s.WellShaped) :
    Proper (Run.statement (fuel + 1) s) := by
  cases hs with
  | assign hvalue =>
    rw [Run.statement]
    exact (proper_eval hvalue _).bind fun v _ => proper_assign _ v
  | assignIndex hindex hvalue =>
    rw [Run.statement]
    refine (proper_integer hindex _ _).bind fun i _ => (proper_eval hvalue _).bind fun v _ => ?_
    exact proper_change (fun m => m.dynamic_set i v) _ _
  | assignBlock hrow hcol hvalue =>
    rw [Run.statement]
    refine (proper_integer hrow _ _).bind fun r _ => (proper_integer hcol _ _).bind fun c _ => ?_
    refine (proper_eval hvalue _).bind fun v _ => ?_
    exact proper_change (fun m => m.dynamic_setBlock r c v) _ _
  | eval hvalue =>
    rw [Run.statement]
    exact (proper_eval hvalue _).bind fun v _ => proper_note _
  | choose _ hconditions hbodies hotherwise =>
    rw [Run.statement]
    exact proper_firstBranch hconditions (fun b hb s hs => h.statement (hbodies b hb s hs))
      fun body hbody s hs => h.statement (hotherwise body hbody s hs)
  | whileLoop hcondition hbody =>
    rw [Run.statement]
    refine (proper_eval hcondition _).bind fun value _ => ?_
    split
    · exact (h.body hbody).bind fun _ _ => h.statement (.whileLoop hcondition hbody)
    · exact .pure trivial
  | forLoop hstart hlimit hbody =>
    rw [Run.statement]
    refine (proper_eval hstart _).bind fun first _ => (proper_assign _ first).bind fun _ _ => ?_
    exact h.rounds hlimit hbody _ _ _
  | block hbody =>
    rw [Run.statement]
    exact h.body hbody

theorem ProperOn.rounds_succ (h : ProperOn fuel) {limit : Expr} {body : List Statement}
    (hlimit : limit.WellShaped) (hbody : ∀ s ∈ body, s.WellShaped) (line : Nat)
    (counter : String) (direction : Direction) :
    Proper (Run.rounds (fuel + 1) line counter limit direction body) := by
  rw [Run.rounds]
  refine (proper_number (.variable counter) _ line).bind fun current _ => ?_
  refine (proper_number hlimit _ line).bind fun last _ => ?_
  split
  · refine (h.body hbody).bind fun _ _ => ?_
    refine (proper_atLine (sound_update counter _) line).bind fun _ _ => ?_
    exact h.rounds hlimit hbody line counter direction
  · exact .pure trivial

theorem properOn (fuel : Nat) : ProperOn fuel := by
  induction fuel with
  | zero =>
    constructor
    · intro s _
      rw [statement]
      exact .throw trivial
    · intro limit body _ _ line counter direction
      rw [rounds]
      exact .throw trivial
  | succ fuel ih => exact ⟨ih.statement_succ, ih.rounds_succ⟩

/-- **A run of well-shaped statements fails with no error of a source text.** -/
theorem proper_program {p : Program} (h : ∀ s ∈ p.statements, s.WellShaped) (fuel : Nat) :
    Proper (program fuel p) :=
  proper_all fun s hs => (proper_note _).bind fun _ _ => (properOn fuel).statement (h s hs)

end Run

/-! ## Both stages -/

theorem meets_checkBraces (opened : List Nat) (segments : List Segment) :
    Meets (fun _ => True)
      (fun failure => failure.stage = .compile ∧ failure.cause = .unbalancedBraces)
      (Segment.checkBraces opened segments) := by
  fun_induction Segment.checkBraces opened segments with
  | case1 => exact .pure trivial
  | case2 | case5 => exact .throw ⟨rfl, rfl⟩
  | case3 _ _ _ _ ih | case4 _ _ _ ih | case6 _ _ _ _ ih => exact ih

theorem meets_compile (source : String) :
    Meets (fun program => ∀ s ∈ program.statements, s.WellShaped)
      (fun failure => failure.stage = .compile ∧ failure.cause.inSource = true)
      (compile source) := by
  have hbraces := meets_checkBraces [] (Segment.cut source)
  have hnothing : Program.Open.nothing.WellShaped := trivial
  have hstatements := Program.yields_statementsFrom hnothing
    (Outline.ofSegments (Segment.cut source))
  rw [compile_eq]
  refine (hbraces.mono_error fun failure h => ?_).bind fun _ _ => ?_
  · exact ⟨h.1, by rw [h.2]; rfl⟩
  refine (hstatements.mono_error fun failure h => ?_).bind fun ss hss => .pure hss
  exact ⟨h.1, Error.inSource_of_inForm h.2⟩

/-- **The two stages fail with different errors.**  Whatever is compiled is well-shaped, and no
run of it, in any environment and on any fuel, fails with an error of the source text; so no
function ever finds itself with a number of arguments it is not defined for.  Compiling fails
with nothing else. -/
theorem stages_separate (source : String) :
    (∀ program, compile source = .ok program →
      (∀ s ∈ program.statements, s.WellShaped) ∧
      ∀ fuel env failure, (program.run fuel env).outcome = .error (.failure failure) →
        failure.stage = .run ∧ failure.cause.inSource = false) ∧
    ∀ failure, compile source = .error failure →
      failure.stage = .compile ∧ failure.cause.inSource = true := by
  have hcompile := meets_compile source
  constructor
  · intro program hprogram
    have hshaped := hcompile.of_ok hprogram
    refine ⟨hshaped, fun fuel env failure hfailure => ?_⟩
    exact (Run.proper_program hshaped fuel ⟨env, []⟩).of_error hfailure
  · intro failure hfailure
    exact hcompile.of_error hfailure

/-- A program with a literal, a call and an `if`, which reads past the end of a vector. -/
def readPastEnd : String :=
  "x = [1, 2; 3, 4]\nif (max(x, 2)) y = 1\nelse y = sum(x)[1] + [1, 2][3]"

/-- It is compiled, and its run fails; so the failure is none of the source text.  With one more
bracket it is not compiled. -/
theorem stages_separate_readPastEnd :
    (∃ program failure, compile readPastEnd = .ok program ∧
      (∀ s ∈ program.statements, s.WellShaped) ∧
      (program.run 9 (.initial .standard)).outcome = .error (.failure failure) ∧
      failure.stage = .run ∧ failure.cause.inSource = false) ∧
    ∃ failure, compile (readPastEnd ++ "[") = .error failure ∧
      failure.stage = .compile ∧ failure.cause.inSource = true := by
  obtain ⟨hruns, -⟩ := stages_separate readPastEnd
  obtain ⟨-, hfails⟩ := stages_separate (readPastEnd ++ "[")
  have hevaluated : (match compile readPastEnd with
      | .ok program =>
        match (program.run 9 (.initial .standard)).outcome with
        | .error (.failure _) => true
        | _ => false
      | .error _ => false) = true := by decide +kernel
  have hrefused : (compile (readPastEnd ++ "[")).isOk = false := by decide +kernel
  constructor
  · split at hevaluated
    · rename_i program hprogram
      obtain ⟨hshaped, hrun⟩ := hruns program hprogram
      split at hevaluated
      · rename_i failure hfailure
        exact ⟨program, failure, hprogram, hshaped, hfailure, hrun _ _ _ hfailure⟩
      · cases hevaluated
    · cases hevaluated
  · cases hcompile : compile (readPastEnd ++ "[") with
    | error failure => exact ⟨failure, rfl, hfails failure hcompile⟩
    | ok program =>
      rw [hcompile] at hrefused
      cases hrefused

end MatrixLang

import MatrixLang.Program.Run
import MatrixLang.Proofs.Except

/-! # The values that a run makes

An evaluation makes a value at every node of an expression that it gets through, and a run makes
the values of all expressions that it evaluates and those that it writes into variables, whether
it succeeds or fails later on.  `Expr.made` and `Run.made` list them in order, each with the
operation it comes from.

A property of values that the operations keep holds of everything that is made, and of the
variables when the run has ended (`upholds_program`).  The property may hang on a condition on
the values that some operations give (`Closed`); the condition is then asked of what the run
makes, and of nothing else.
-/

namespace MatrixLang

/-! ## Lists of values -/

/-- The operation that a value comes from. -/
inductive Origin where
  | binary (op : BinaryOperator)
  | call (f : Builtin)
  /-- A literal, a variable, an operator with one operand, or a write into a variable. -/
  | other
deriving DecidableEq, Repr, Inhabited

/-- A value with the operation that it comes from. -/
structure Made where
  origin : Origin
  value : Matrix

/-- What an operation makes, if it succeeds. -/
def Made.of (origin : Origin) : Except Error Matrix → List Made
  | .ok value => [⟨origin, value⟩]
  | .error _ => []

/-- What comes after a computation, if that succeeds. -/
def following {ε σ α β : Type} (x : ExceptT ε (StateM σ) α) (s : σ) (next : α → σ → List β) :
    List β :=
  match x s with
  | (.ok a, t) => next a t
  | (.error _, _) => []

namespace Expr

mutual

/-- The values that the evaluation of an expression makes. -/
def made : Expr → Environment → List Made
  | .literal value, _ => [⟨.other, .scalar value⟩]
  | .variable name, env => Made.of .other (env.lookup name)
  | .matrix rows cols elements, env =>
    madeByCells elements env ++ following (evalCells elements) env fun data _ =>
      Made.of .other (Matrix.ofData ⟨rows, cols⟩ data.toArray)
  | .unary op operand, env =>
    made operand env ++ following operand.eval env fun m _ => [⟨.other, op.apply m⟩]
  | .binary op left right, env =>
    made left env ++ following left.eval env fun a env =>
      made right env ++ following right.eval env fun b _ => Made.of (.binary op) (op.apply a b)
  | .call f arguments, env =>
    match Eval.updateCall? f arguments with
    | some result => Made.of (.call f) (result env).1
    | none =>
      madeByAll arguments env ++ following (evalAll arguments) env fun values env =>
        Made.of (.call f) (f.apply env.missing values)

/-- The values that the evaluation of the cells of a literal makes. -/
def madeByCells : List Expr → Environment → List Made
  | [], _ => []
  | e :: es, env =>
    made e env ++ following e.eval env fun m env =>
      if m.isScalar then madeByCells es env else []

/-- The values that the evaluation of the arguments of a call makes. -/
def madeByAll : List Expr → Environment → List Made
  | [], _ => []
  | e :: es, env => made e env ++ following e.eval env fun _ env => madeByAll es env

end

end Expr

namespace Run

/-- The values that several statements make, each by `made`. -/
def madeByBody (run : Statement → Run Unit) (made : Statement → Machine → List Made) :
    List Statement → Machine → List Made
  | [], _ => []
  | s :: ss, machine =>
    made s machine ++ following (run s) machine fun _ machine => madeByBody run made ss machine

/-- The values that an `if` makes. -/
def madeByBranches (run : Statement → Run Unit) (made : Statement → Machine → List Made)
    (line : Nat) (otherwise : Option (List Statement)) : List Branch → Machine → List Made
  | [], machine =>
    match otherwise with
    | none => []
    | some body => madeByBody run made body machine
  | .mk condition body :: branches, machine =>
    condition.made machine.env ++
      following (atLine line condition.eval) machine fun value machine =>
        if value.isTrue then madeByBody run made body machine
        else madeByBranches run made line otherwise branches machine

/-- The value that a change of a variable makes. -/
def madeByChange (name : String) (f : Matrix → Except Error Matrix) (machine : Machine) :
    List Made :=
  Made.of .other (machine.env.lookup name >>= f)

mutual

/-- The values that a statement makes. -/
def made : Nat → Statement → Machine → List Made
  | 0, _, _ => []
  | _ + 1, .assign _ _ value, machine => value.made machine.env
  | _ + 1, .assignIndex line target index value, machine =>
    index.made machine.env ++
      following (atLine line (integer "Index" index)) machine fun i machine =>
        value.made machine.env ++ following (atLine line value.eval) machine fun v machine =>
          madeByChange target (·.set i v) machine
  | _ + 1, .assignBlock line target row col value, machine =>
    row.made machine.env ++
      following (atLine line (integer "Row index" row)) machine fun r machine =>
        col.made machine.env ++
          following (atLine line (integer "Column index" col)) machine fun c machine =>
            value.made machine.env ++ following (atLine line value.eval) machine fun v machine =>
              madeByChange target (·.setBlock r c v) machine
  | _ + 1, .eval _ value, machine => value.made machine.env
  | fuel + 1, .choose line branches otherwise, machine =>
    madeByBranches (statement fuel) (made fuel) line otherwise branches machine
  | fuel + 1, .whileLoop line condition body, machine =>
    condition.made machine.env ++
      following (atLine line condition.eval) machine fun value machine =>
        if value.isTrue then
          madeByBody (statement fuel) (made fuel) body machine ++
            following (all (statement fuel) body) machine fun _ machine =>
              made fuel (.whileLoop line condition body) machine
        else []
  | fuel + 1, .forLoop line counter start limit direction body, machine =>
    start.made machine.env ++ following (atLine line start.eval) machine fun first machine =>
      following (assign counter first) machine fun _ machine =>
        madeByRounds fuel line counter limit direction body machine
  | fuel + 1, .block _ body, machine => madeByBody (statement fuel) (made fuel) body machine

/-- The values that the rounds of a `for` statement make. -/
def madeByRounds : Nat → Nat → String → Expr → Direction → List Statement → Machine → List Made
  | 0, _, _, _, _, _, _ => []
  | fuel + 1, line, counter, limit, direction, body, machine =>
    (Expr.variable counter).made machine.env ++
      following (atLine line (number "Loop variable" (.variable counter))) machine
        fun current machine =>
      limit.made machine.env ++
        following (atLine line (number "Loop bound" limit)) machine fun last machine =>
      if goesOn direction current last then
        madeByBody (statement fuel) (made fuel) body machine ++
          following (all (statement fuel) body) machine fun _ machine =>
        madeByChange counter (fun m => return stepBy direction m) machine ++
          following (atLine line (Eval.update counter (stepBy direction))) machine
            fun _ machine =>
        madeByRounds fuel line counter limit direction body machine
      else []

end

end Run

/-- The values that a run of a program makes. -/
def Program.made (fuel : Nat) (p : Program) (env : Environment) : List Made :=
  Run.madeByBody (fun s => do
    Run.note (.running s.line s.kind)
    Run.statement fuel s)
    (fun s machine => following (Run.note (.running s.line s.kind)) machine fun _ =>
      Run.made fuel s)
    p.statements ⟨env, []⟩

/-! ## Environments -/

namespace Environment

variable {P : Matrix → Prop} {env : Environment} {name : String} {value : Matrix}

/-- Every variable has a value with the property `P`. -/
def AllHave (P : Matrix → Prop) (env : Environment) : Prop :=
  ∀ binding ∈ env.bindings, P binding.2

theorem AllHave.set (h : env.AllHave P) (name : String) (hvalue : P value) :
    (env.set name value).AllHave P := by
  have hinsert : ∀ bindings : List (String × Matrix), (∀ binding ∈ bindings, P binding.2) →
      ∀ binding ∈ insertBinding name value bindings, P binding.2 := by
    intro bindings hbindings
    induction bindings with
    | nil => simpa [insertBinding] using hvalue
    | cons first rest ih =>
      obtain ⟨hfirst, hrest⟩ := List.forall_mem_cons.mp hbindings
      rw [insertBinding]
      split
      · exact List.forall_mem_cons.mpr ⟨hvalue, hbindings⟩
      split
      · exact List.forall_mem_cons.mpr ⟨hvalue, hrest⟩
      · exact List.forall_mem_cons.mpr ⟨hfirst, ih hrest⟩
  exact hinsert env.bindings h

theorem AllHave.lookup (h : env.AllHave P) (hlookup : env.lookup name = .ok value) : P value := by
  rw [Environment.lookup] at hlookup
  split at hlookup
  · rename_i found hget
    cases hlookup
    obtain ⟨before, after, hbindings, -⟩ := List.lookup_eq_some_iff.mp hget
    exact h (name, value) (by simp [hbindings])
  · cases hlookup

end Environment

/-! ## What operations keep -/

/-- The operations keep the property `P`, if what they give meets the condition `C`. -/
structure Closed (C : Made → Prop) (P : Matrix → Prop) : Prop where
  scalar : ∀ x, P (.scalar x)
  ofData : ∀ {shape data m}, Matrix.ofData shape data = .ok m → P m
  map : ∀ {m} (f : Float → Float), P m → P (m.map f)
  unary : ∀ {m} (op : UnaryOperator), P m → P (op.apply m)
  binary : ∀ {a b m} (op : BinaryOperator), P a → P b → op.apply a b = .ok m →
    C ⟨.binary op, m⟩ → P m
  call : ∀ {arguments m} (missing : MissingPolicy) (f : Builtin), (∀ a ∈ arguments, P a) →
    f.apply missing arguments = .ok m → C ⟨.call f, m⟩ → P m
  set : ∀ {m v r i}, P m → P v → Matrix.set m i v = .ok r → P r
  setBlock : ∀ {m v r i j}, P m → P v → Matrix.setBlock m i j v = .ok r → P r

/-- A computation that keeps `I` and gives something with the property `Q`.  Of the values that it
makes all have the property `P`, if all of them meet the condition `C`. -/
def Upholds {ε σ α : Type} (C : Made → Prop) (P : Matrix → Prop) (I : σ → Prop)
    (x : ExceptT ε (StateM σ) α) (made : σ → List Made) (Q : α → Prop) : Prop :=
  ∀ s, I s → (∀ v ∈ made s, C v) →
    (∀ v ∈ made s, P v.value) ∧ I (x s).2 ∧ ∀ a, (x s).1 = .ok a → Q a

namespace Upholds

variable {ε σ α β : Type} {C : Made → Prop} {P : Matrix → Prop} {I : σ → Prop}
  {x : ExceptT ε (StateM σ) α} {made : σ → List Made} {Q : α → Prop} {R : β → Prop}
  {f : α → ExceptT ε (StateM σ) β} {next : α → σ → List Made}

/-- A computation that makes nothing. -/
theorem silent (h : ∀ s, I s → I (x s).2 ∧ ∀ a, (x s).1 = .ok a → Q a) :
    Upholds C P I x (fun _ => []) Q :=
  fun s hs _ => ⟨List.forall_mem_nil _, h s hs⟩

theorem pure {a : α} (h : Q a) :
    Upholds C P I (pure a : ExceptT ε (StateM σ) α) (fun _ => []) Q :=
  silent fun _ hs => ⟨hs, fun _ hb => Except.ok.inj hb ▸ h⟩

theorem throw (e : ε) : Upholds C P I (throw e : ExceptT ε (StateM σ) α) (fun _ => []) Q :=
  silent fun _ hs => ⟨hs, by rintro _ ⟨⟩⟩

theorem bind (hx : Upholds C P I x made Q) (hf : ∀ a, Q a → Upholds C P I (f a) (next a) R) :
    Upholds C P I (x >>= f) (fun s => made s ++ following x s next) R := by
  intro s hs hmade
  obtain ⟨hfirst, hrest⟩ := List.forall_mem_append.mp hmade
  obtain ⟨hvalues, hI, hQ⟩ := hx s hs hfirst
  rcases hr : x s with ⟨r, t⟩
  rw [hr] at hI hQ
  cases r with
  | error e =>
    rw [bind_of_error hr]
    refine ⟨List.forall_mem_append.mpr ⟨hvalues, ?_⟩, hI, by rintro _ ⟨⟩⟩
    rw [following, hr]
    exact List.forall_mem_nil _
  | ok a =>
    have hfollowing : following x s next = next a t := by rw [following, hr]
    rw [hfollowing] at hrest
    obtain ⟨hvalues', hI', hR⟩ := hf a (hQ a rfl) t hI hrest
    rw [bind_of_ok hr]
    refine ⟨List.forall_mem_append.mpr ⟨hvalues, ?_⟩, hI', hR⟩
    rw [hfollowing]
    exact hvalues'

/-- The same values in another list. -/
theorem congr {made' : σ → List Made} (h : Upholds C P I x made Q) (heq : ∀ s, made' s = made s) :
    Upholds C P I x made' Q := by
  rw [funext heq]
  exact h

/-- Nothing is made first. -/
theorem silent_bind (hx : Upholds C P I x (fun _ => []) Q)
    (hf : ∀ a, Q a → Upholds C P I (f a) (next a) R) :
    Upholds C P I (x >>= f) (fun s => following x s next) R :=
  (hx.bind hf).congr fun _ => (List.nil_append _).symm

/-- Nothing more is made. -/
theorem bind_silent (hx : Upholds C P I x made Q)
    (hf : ∀ a, Q a → Upholds C P I (f a) (fun _ => []) R) : Upholds C P I (x >>= f) made R := by
  refine (hx.bind hf).congr fun s => ?_
  have hnothing : following x s (fun _ _ => ([] : List Made)) = [] := by
    rw [following]
    split
    · rfl
    · rfl
  rw [hnothing, List.append_nil]

end Upholds

/-! ## Evaluation -/

section

variable {C : Made → Prop} {P : Matrix → Prop}

namespace Eval

open Environment (AllHave)

/-- An operation on values that have been made. -/
theorem upholds_lift {origin : Origin} {x : Except Error Matrix}
    (h : ∀ m, x = .ok m → C ⟨origin, m⟩ → P m) :
    Upholds C P (AllHave P) (lift x) (fun _ => Made.of origin x) P := by
  intro env henv hmade
  cases x with
  | error e => exact ⟨List.forall_mem_nil _, henv, by rintro _ ⟨⟩⟩
  | ok m =>
    have hm := h m rfl (hmade _ List.mem_cons_self)
    exact ⟨List.forall_mem_singleton.mpr hm, henv, fun _ ha => Except.ok.inj ha ▸ hm⟩

/-- A computation that needs no environment and makes nothing. -/
theorem upholds_silent {α : Type} (x : Except Error α) :
    Upholds C P (AllHave P) (lift x) (fun _ => []) fun a => x = .ok a :=
  .silent fun _ henv => ⟨henv, fun _ ha => ha⟩

theorem upholds_lookup (name : String) :
    Upholds C P (AllHave P) (lookup name) (fun env => Made.of .other (env.lookup name)) P := by
  intro env henv _
  have hvalue : ∀ m, env.lookup name = .ok m → P m := fun _ => henv.lookup
  refine ⟨?_, henv, hvalue⟩
  dsimp only
  cases hlookup : env.lookup name with
  | error e => exact List.forall_mem_nil _
  | ok m => exact List.forall_mem_singleton.mpr (hvalue m hlookup)

/-- A variable that is changed cell by cell. -/
theorem upholds_update {f : Matrix → Matrix} (hf : ∀ m, P m → P (f m)) (origin : Origin)
    (name : String) : Upholds C P (AllHave P) (update name f)
      (fun env => Made.of origin (update name f env).1) P := by
  intro env henv _
  dsimp only
  cases hlookup : env.lookup name with
  | error e =>
    rw [update_of_error hlookup]
    exact ⟨List.forall_mem_nil _, henv, by rintro _ ⟨⟩⟩
  | ok value =>
    have hvalue := hf value (henv.lookup hlookup)
    rw [update_of_lookup hlookup]
    exact ⟨List.forall_mem_singleton.mpr hvalue, henv.set name hvalue,
      fun _ ha => Except.ok.inj ha ▸ hvalue⟩

end Eval

namespace Expr

open Environment (AllHave)

mutual

/-- **What an evaluation makes has what the operations keep**, and so do the variables after it. -/
theorem upholds_eval (hclosed : Closed C P) : ∀ e : Expr,
    Upholds C P (AllHave P) e.eval e.made P
  | .literal value => by
    intro env henv _
    rw [eval, made]
    have hvalue := hclosed.scalar value
    exact ⟨List.forall_mem_singleton.mpr hvalue, henv, fun _ ha => Except.ok.inj ha ▸ hvalue⟩
  | .variable name => by
    refine Upholds.congr ?_ fun env => by rw [made]
    rw [eval]
    exact Eval.upholds_lookup name
  | .matrix rows cols elements => by
    refine Upholds.congr ?_ fun env => by rw [made]
    rw [eval]
    refine (upholds_evalCells hclosed elements).bind fun data _ => ?_
    exact Eval.upholds_lift fun _ hm _ => hclosed.ofData hm
  | .unary op operand => by
    refine Upholds.congr ?_ fun env => by rw [made]
    rw [eval]
    refine (upholds_eval hclosed operand).bind fun m hm => ?_
    have hvalue := hclosed.unary op hm
    intro env henv _
    exact ⟨List.forall_mem_singleton.mpr hvalue, henv, fun _ ha => Except.ok.inj ha ▸ hvalue⟩
  | .binary op left right => by
    refine Upholds.congr ?_ fun env => by rw [made]
    rw [eval]
    refine (upholds_eval hclosed left).bind fun a ha => ?_
    refine (upholds_eval hclosed right).bind fun b hb => ?_
    exact Eval.upholds_lift fun _ => hclosed.binary op ha hb
  | .call f arguments => by
    cases hupdate : Eval.updateCall? f arguments with
    | some result =>
      obtain ⟨name, change, -, -, rfl⟩ := Eval.updateCall?_eq_some hupdate
      refine Upholds.congr ?_ fun env => by rw [made, hupdate]
      rw [eval, hupdate]
      have hchange : ∀ m, P m → P (m.map change) := fun _ => hclosed.map change
      exact Eval.upholds_update hchange _ name
    | none =>
      refine Upholds.congr ?_ fun env => by rw [made, hupdate]
      rw [eval, hupdate]
      refine (upholds_evalAll hclosed arguments).bind fun values hvalues => ?_
      intro env henv
      exact Eval.upholds_lift (fun _ => hclosed.call env.missing f hvalues) env henv

theorem upholds_evalCells (hclosed : Closed C P) : ∀ es : List Expr,
    Upholds C P (AllHave P) (evalCells es) (madeByCells es) fun _ => True
  | [] => by
    refine Upholds.congr ?_ fun env => by rw [madeByCells]
    rw [evalCells]
    exact .pure trivial
  | e :: es => by
    refine Upholds.congr ?_ fun env => by rw [madeByCells]
    rw [evalCells]
    refine (upholds_eval hclosed e).bind fun m _ => ?_
    -- the next cell is evaluated only after one that is a number
    refine Upholds.congr (((Eval.upholds_silent _).silent_bind fun x _ =>
      (upholds_evalCells hclosed es).bind_silent fun _ _ => .pure trivial)) fun env => ?_
    by_cases hscalar : m.isScalar = true
    · simp [following, Eval.lift, Matrix.asScalar, hscalar, pure, Except.pure]
    · simp [following, Eval.lift, Matrix.asScalar, hscalar, MonadExcept.throw, throwThe,
        MonadExceptOf.throw]

theorem upholds_evalAll (hclosed : Closed C P) : ∀ es : List Expr,
    Upholds C P (AllHave P) (evalAll es) (madeByAll es) fun ms => ∀ m ∈ ms, P m
  | [] => by
    refine Upholds.congr ?_ fun env => by rw [madeByAll]
    rw [evalAll]
    exact .pure (List.forall_mem_nil _)
  | e :: es => by
    refine Upholds.congr ?_ fun env => by rw [madeByAll]
    rw [evalAll]
    refine (upholds_eval hclosed e).bind fun m hm => ?_
    exact (upholds_evalAll hclosed es).bind_silent fun ms hms =>
      .pure (List.forall_mem_cons.mpr ⟨hm, hms⟩)

end

end Expr

/-! ## Runs -/

namespace Run

open Environment (AllHave)

/-- Every variable of a running program has a value with the property `P`. -/
def AllHave (P : Matrix → Prop) (machine : Machine) : Prop :=
  machine.env.AllHave P

variable {α : Type} {made : Environment → List Made} {Q : α → Prop}

theorem upholds_atLine {x : Eval α} (h : Upholds C P (Environment.AllHave P) x made Q)
    (line : Nat) : Upholds C P (AllHave P) (atLine line x) (fun machine => made machine.env) Q := by
  intro machine hmachine hmade
  obtain ⟨hvalues, henv, hresult⟩ := h machine.env hmachine hmade
  refine ⟨hvalues, ?_⟩
  unfold atLine
  rcases hr : x machine.env with ⟨r, env⟩
  rw [hr] at henv hresult
  cases r with
  | error cause => exact ⟨henv, by rintro _ ⟨⟩⟩
  | ok a => exact ⟨henv, fun _ hb => Except.ok.inj hb ▸ hresult a rfl⟩

theorem upholds_eval (hclosed : Closed C P) (line : Nat) (e : Expr) :
    Upholds C P (AllHave P) (atLine line e.eval) (fun machine => e.made machine.env) P :=
  upholds_atLine (Expr.upholds_eval hclosed e) line

/-- Reading a number of some kind off a value makes nothing. -/
theorem upholds_read (hclosed : Closed C P) (line : Nat) (e : Expr)
    (read : Matrix → Except Error α) :
    Upholds C P (AllHave P) (atLine line (e.eval >>= fun m => Eval.lift (read m)))
      (fun machine => e.made machine.env) fun _ => True := by
  refine upholds_atLine ?_ line
  exact (Expr.upholds_eval hclosed e).bind_silent fun _ _ =>
    .silent fun _ henv => ⟨henv, fun _ _ => trivial⟩

theorem upholds_change {f : Matrix → Except Error Matrix}
    (hf : ∀ m r, P m → f m = .ok r → P r) (line : Nat) (name : String) :
    Upholds C P (AllHave P) (atLine line (change name f)) (madeByChange name f)
      fun _ => True := by
  suffices h : Upholds C P (Environment.AllHave P) (change name f)
      (fun env => Made.of .other (env.lookup name >>= f)) fun _ => True from upholds_atLine h line
  intro env henv _
  dsimp only
  cases hlookup : env.lookup name with
  | error e =>
    rw [change, bind_of_error (x := Eval.lookup name) (congrArg (·, env) hlookup)]
    exact ⟨List.forall_mem_nil _, henv, by rintro _ ⟨⟩⟩
  | ok value =>
    rw [change, bind_of_ok (x := Eval.lookup name) (congrArg (·, env) hlookup)]
    rw [ok_bind]
    cases hvalue : f value with
    | error e =>
      rw [bind_of_error (x := Eval.lift (.error e)) rfl]
      exact ⟨List.forall_mem_nil _, henv, by rintro _ ⟨⟩⟩
    | ok r =>
      have hr := hf value r (henv.lookup hlookup) hvalue
      rw [bind_of_ok (x := Eval.lift (.ok r)) rfl]
      exact ⟨List.forall_mem_singleton.mpr hr, henv.set name hr, fun _ _ => trivial⟩

theorem upholds_assign {value : Matrix} (h : P value) (name : String) :
    Upholds C P (AllHave P) (assign name value) (fun _ => []) fun _ => True :=
  .silent fun _ hmachine => ⟨Environment.AllHave.set hmachine name h, fun _ _ => trivial⟩

theorem upholds_note (n : Note) :
    Upholds C P (AllHave P) (note n) (fun _ => []) fun _ => True :=
  .silent fun _ hmachine => ⟨hmachine, fun _ _ => trivial⟩

section

variable {run : Statement → Run Unit} {made : Statement → Machine → List Made}
  (h : ∀ s, Upholds C P (AllHave P) (run s) (made s) fun _ => True)
include h

theorem upholds_all (ss : List Statement) :
    Upholds C P (AllHave P) (all run ss) (madeByBody run made ss) fun _ => True := by
  induction ss with
  | nil => exact .pure trivial
  | cons s ss ih => exact (h s).bind fun _ _ => ih

theorem upholds_firstBranch (hclosed : Closed C P) (line : Nat)
    (otherwise : Option (List Statement)) (branches : List Branch) :
    Upholds C P (AllHave P) (firstBranch run line otherwise branches)
      (madeByBranches run made line otherwise branches) fun _ => True := by
  induction branches with
  | nil =>
    cases otherwise with
    | none => exact .pure trivial
    | some body => exact upholds_all h body
  | cons branch branches ih =>
    obtain ⟨condition, body⟩ := branch
    refine (upholds_eval hclosed line condition).bind fun value _ => ?_
    by_cases htrue : value.isTrue = true
    · rw [if_pos htrue]
      exact (upholds_all h body).congr fun _ => if_pos htrue
    · rw [if_neg htrue]
      exact ih.congr fun _ => if_neg htrue

end

/-- What runs on some fuel makes values with what the operations keep. -/
structure UpholdsOn (C : Made → Prop) (P : Matrix → Prop) (fuel : Nat) : Prop where
  statement : ∀ s, Upholds C P (AllHave P) (statement fuel s) (Run.made fuel s) fun _ => True
  rounds : ∀ line counter limit direction body,
    Upholds C P (AllHave P) (rounds fuel line counter limit direction body)
      (madeByRounds fuel line counter limit direction body) fun _ => True

theorem UpholdsOn.statement_succ (hclosed : Closed C P) {fuel : Nat} (h : UpholdsOn C P fuel)
    (s : Statement) : Upholds C P (AllHave P) (Run.statement (fuel + 1) s)
      (Run.made (fuel + 1) s) fun _ => True := by
  cases s with
  | assign line target value =>
    refine Upholds.congr ?_ fun machine => by rw [Run.made]
    rw [Run.statement]
    exact (upholds_eval hclosed line value).bind_silent fun v hv => upholds_assign hv target
  | assignIndex line target index value =>
    refine Upholds.congr ?_ fun machine => by rw [Run.made]
    rw [Run.statement]
    refine (upholds_read hclosed line index _).bind fun i _ => ?_
    refine (upholds_eval hclosed line value).bind fun v hv => ?_
    exact upholds_change (fun m r hm hr => hclosed.set hm hv hr) line target
  | assignBlock line target row col value =>
    refine Upholds.congr ?_ fun machine => by rw [Run.made]
    rw [Run.statement]
    refine (upholds_read hclosed line row _).bind fun r _ => ?_
    refine (upholds_read hclosed line col _).bind fun c _ => ?_
    refine (upholds_eval hclosed line value).bind fun v hv => ?_
    exact upholds_change (fun m r hm hr => hclosed.setBlock hm hv hr) line target
  | eval line value =>
    refine Upholds.congr ?_ fun machine => by rw [Run.made]
    rw [Run.statement]
    exact (upholds_eval hclosed line value).bind_silent fun v _ => upholds_note _
  | choose line branches otherwise =>
    refine Upholds.congr ?_ fun machine => by rw [Run.made]
    rw [Run.statement]
    exact upholds_firstBranch h.statement hclosed line otherwise branches
  | whileLoop line condition body =>
    refine Upholds.congr ?_ fun machine => by rw [Run.made]
    rw [Run.statement]
    refine (upholds_eval hclosed line condition).bind fun value _ => ?_
    by_cases htrue : value.isTrue = true
    · rw [if_pos htrue]
      refine Upholds.congr ?_ fun _ => if_pos htrue
      exact (upholds_all h.statement body).bind fun _ _ => h.statement _
    · rw [if_neg htrue]
      exact (Upholds.pure trivial).congr fun _ => if_neg htrue
  | forLoop line counter start limit direction body =>
    refine Upholds.congr ?_ fun machine => by rw [Run.made]
    rw [Run.statement]
    refine (upholds_eval hclosed line start).bind fun first hfirst => ?_
    exact (upholds_assign hfirst counter).silent_bind fun _ _ =>
      h.rounds line counter limit direction body
  | block line body =>
    refine Upholds.congr ?_ fun machine => by rw [Run.made]
    rw [Run.statement]
    exact upholds_all h.statement body

/-- The step of a loop writes its variable. -/
theorem upholds_step (hclosed : Closed C P) (line : Nat) (counter : String)
    (direction : Direction) : Upholds C P (AllHave P)
      (atLine line (Eval.update counter (stepBy direction)))
      (madeByChange counter fun m => return stepBy direction m) fun _ => True := by
  have hstep : ∀ m, P m → P (stepBy direction m) := by
    intro m hm
    cases direction with
    | up => exact hclosed.map _ hm
    | down => exact hclosed.map _ hm
  have hupdate := (Eval.upholds_update (C := C) hstep .other counter).bind_silent
    (f := fun a => (Pure.pure a : Eval Matrix)) (R := fun _ => True) fun _ _ => .pure trivial
  rw [bind_pure] at hupdate
  refine (upholds_atLine hupdate line).congr fun machine => ?_
  cases hlookup : machine.env.lookup counter with
  | error e => rw [madeByChange, hlookup, Eval.update_of_error hlookup]; rfl
  | ok value => rw [madeByChange, hlookup, Eval.update_of_lookup hlookup]; rfl

theorem UpholdsOn.rounds_succ (hclosed : Closed C P) {fuel : Nat} (h : UpholdsOn C P fuel)
    (line : Nat) (counter : String) (limit : Expr) (direction : Direction)
    (body : List Statement) : Upholds C P (AllHave P)
      (Run.rounds (fuel + 1) line counter limit direction body)
      (madeByRounds (fuel + 1) line counter limit direction body) fun _ => True := by
  refine Upholds.congr ?_ fun machine => by rw [madeByRounds]
  rw [Run.rounds]
  refine (upholds_read hclosed line _ _).bind fun current _ => ?_
  refine (upholds_read hclosed line limit _).bind fun last _ => ?_
  by_cases hmore : goesOn direction current last = true
  · rw [if_pos hmore]
    refine Upholds.congr ?_ fun _ => if_pos hmore
    refine (upholds_all h.statement body).bind fun _ _ => ?_
    refine (upholds_step hclosed line counter direction).bind fun _ _ => ?_
    exact h.rounds line counter limit direction body
  · rw [if_neg hmore]
    exact (Upholds.pure trivial).congr fun _ => if_neg hmore

theorem upholdsOn (hclosed : Closed C P) (fuel : Nat) : UpholdsOn C P fuel := by
  induction fuel with
  | zero =>
    constructor
    · intro s
      rw [statement]
      exact (Upholds.throw _).congr fun machine => by rw [Run.made]
    · intro line counter limit direction body
      rw [rounds]
      exact (Upholds.throw _).congr fun machine => by rw [madeByRounds]
  | succ fuel ih => exact ⟨ih.statement_succ hclosed, ih.rounds_succ hclosed⟩

/-- **What a run makes has what the operations keep**, and so do the variables after it. -/
theorem upholds_program (hclosed : Closed C P) (fuel : Nat) (p : Program) {env : Environment}
    (henv : env.AllHave P) (h : ∀ v ∈ p.made fuel env, C v) :
    (∀ v ∈ p.made fuel env, P v.value) ∧ (p.run fuel env).env.AllHave P := by
  have hall := upholds_all (fun s => (upholds_note (.running s.line s.kind)).silent_bind
    fun _ _ => (upholdsOn hclosed fuel).statement s) p.statements
  obtain ⟨hmade, hfinal, -⟩ := hall ⟨env, []⟩ henv h
  exact ⟨hmade, hfinal⟩

end Run

end

end MatrixLang

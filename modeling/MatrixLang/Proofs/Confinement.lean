import MatrixLang.Program.Run
import MatrixLang.Proofs.Except

/-! # What a program can read and write

The names of a program bound all that it can touch.  Two environments that agree on them cannot
be told apart by a run, and what a run leaves outside them is what it found there; nothing that
is bound is ever unbound.

A computation with a state is `Confined` when it ends in the same way in any two states that
agree, and changes a state only in what may change.  What agreement and change mean is given by
a `Boundary`, once for environments and once for the machine that runs a program.
-/

namespace MatrixLang

/-! ## Confined computations -/

/-- Which states agree, and which may become which. -/
structure Boundary (σ : Type) where
  Agree : σ → σ → Prop
  /-- What the first state may become. -/
  Kept : σ → σ → Prop
  refl : ∀ s, Kept s s
  trans : ∀ {s t u}, Kept s t → Kept t u → Kept s u

/-- A computation that ends in the same way in states that agree, leaves such states behind, and
changes no state more than it may. -/
structure Confined {ε σ α : Type} (B : Boundary σ) (x : ExceptT ε (StateM σ) α) : Prop where
  agree : ∀ {s t}, B.Agree s t → (x s).1 = (x t).1 ∧ B.Agree (x s).2 (x t).2
  kept : ∀ s, B.Kept s (x s).2

namespace Confined

variable {ε σ α β : Type} {B : Boundary σ} {x : ExceptT ε (StateM σ) α}
  {f : α → ExceptT ε (StateM σ) β}

/-- A computation that leaves the state alone and does not ask for it. -/
theorem stateless (r : Except ε α) : Confined B (fun s => (r, s) : ExceptT ε (StateM σ) α) where
  agree h := ⟨rfl, h⟩
  kept := B.refl

theorem pure (a : α) : Confined B (pure a : ExceptT ε (StateM σ) α) :=
  stateless (.ok a)

theorem throw (e : ε) : Confined B (throw e : ExceptT ε (StateM σ) α) :=
  stateless (.error e)

theorem bind (hx : Confined B x) (hf : ∀ a, Confined B (f a)) : Confined B (x >>= f) where
  agree {s t} h := by
    obtain ⟨hresult, hagree⟩ := hx.agree h
    rcases hs : x s with ⟨r, s'⟩
    rcases ht : x t with ⟨r', t'⟩
    rw [hs, ht] at hresult hagree
    subst hresult
    cases r with
    | error e =>
      rw [bind_of_error hs, bind_of_error ht]
      exact ⟨rfl, hagree⟩
    | ok a =>
      rw [bind_of_ok hs, bind_of_ok ht]
      exact (hf a).agree hagree
  kept s := by
    have hkept := hx.kept s
    rcases hs : x s with ⟨r, s'⟩
    rw [hs] at hkept
    cases r with
    | error e =>
      rw [bind_of_error hs]
      exact hkept
    | ok a =>
      rw [bind_of_ok hs]
      exact B.trans hkept ((hf a).kept s')

end Confined

/-! ## Environments -/

namespace Environment

variable {env a b c : Environment} {name x : String} {value : Matrix} {names : List String}

theorem lookup_cons (x other : String) (old : Matrix) (bindings : List (String × Matrix)) :
    ((other, old) :: bindings).lookup x = if x = other then some old else bindings.lookup x := by
  by_cases h : x = other
  · simp [h]
  · simp [List.lookup_cons, beq_false_of_ne h, h]

theorem lookup_insertBinding (name x : String) (value : Matrix)
    (bindings : List (String × Matrix)) : (insertBinding name value bindings).lookup x =
      if x = name then some value else bindings.lookup x := by
  induction bindings with
  | nil => exact lookup_cons x name value []
  | cons binding bindings ih =>
    obtain ⟨other, old⟩ := binding
    rw [insertBinding]
    split
    · exact lookup_cons x name value _
    split
    · rename_i heq
      subst heq
      rw [lookup_cons, lookup_cons]
      by_cases hx : x = name
      · rw [if_pos hx, if_pos hx]
      · rw [if_neg hx, if_neg hx, if_neg hx]
    · rename_i hne
      rw [lookup_cons, lookup_cons, ih]
      by_cases hx : x = other
      · rw [if_pos hx, if_neg (hx ▸ Ne.symm hne), if_pos hx]
      · rw [if_neg hx, if_neg hx]

theorem get?_set (env : Environment) (name x : String) (value : Matrix) :
    (env.set name value).get? x = if x = name then some value else env.get? x :=
  lookup_insertBinding name x value env.bindings

theorem contains_set (env : Environment) (name x : String) (value : Matrix) :
    (env.set name value).contains x = (decide (x = name) || env.contains x) := by
  rw [contains, get?_set]
  by_cases hx : x = name
  · simp [hx]
  · simp [hx, contains]

/-- Two environments have the same policy, and each of some names either has the same value in
both or has none in either. -/
structure AgreeOn (names : List String) (a b : Environment) : Prop where
  missing : a.missing = b.missing
  get? : ∀ x ∈ names, a.get? x = b.get? x

/-- What an environment may become if only some names are assigned to: other names keep what
they have, the policy stays, and no name loses its value. -/
structure Kept (names : List String) (before after : Environment) : Prop where
  missing : after.missing = before.missing
  outside : ∀ x, x ∉ names → after.get? x = before.get? x
  bound : ∀ x, before.contains x = true → after.contains x = true

theorem Kept.refl (names : List String) (env : Environment) : Kept names env env :=
  ⟨rfl, fun _ _ => rfl, fun _ h => h⟩

theorem Kept.trans (hab : Kept names a b) (hbc : Kept names b c) : Kept names a c where
  missing := hbc.missing.trans hab.missing
  outside x hx := (hbc.outside x hx).trans (hab.outside x hx)
  bound x hx := hbc.bound x (hab.bound x hx)

theorem AgreeOn.set (h : AgreeOn names a b) (name : String) (value : Matrix) :
    AgreeOn names (a.set name value) (b.set name value) where
  missing := h.missing
  get? x hx := by rw [get?_set, get?_set, h.get? x hx]

theorem Kept.set (h : name ∈ names) (env : Environment) (value : Matrix) :
    Kept names env (env.set name value) where
  missing := rfl
  outside x hx := by
    have hne : x ≠ name := fun heq => hx (heq ▸ h)
    rw [get?_set, if_neg hne]
  bound x hx := by rw [contains_set, hx, Bool.or_true]

theorem AgreeOn.lookup (h : AgreeOn names a b) (hname : name ∈ names) :
    a.lookup name = b.lookup name := by
  rw [Environment.lookup, Environment.lookup, h.get? name hname]

/-- What may be done to an environment by those who know only some names. -/
def within (names : List String) : Boundary Environment where
  Agree := AgreeOn names
  Kept := Kept names
  refl := Kept.refl names
  trans := Kept.trans

end Environment

/-! ## Expressions -/

namespace Eval

open Environment (within)

variable {α : Type} {names : List String} {name : String}

theorem confined_lift (x : Except Error α) : Confined (within names) (lift x) :=
  .stateless x

theorem confined_lookup (h : name ∈ names) : Confined (within names) (lookup name) where
  agree hagree := ⟨hagree.lookup h, hagree⟩
  kept := (within names).refl

theorem confined_set (h : name ∈ names) (value : Matrix) :
    Confined (within names) (modifyThe Environment (·.set name value) : Eval Unit) where
  agree hagree := ⟨rfl, hagree.set name value⟩
  kept env := .set h env value

theorem confined_update (h : name ∈ names) (f : Matrix → Matrix) :
    Confined (within names) (update name f) :=
  (confined_lookup h).bind fun _ => (confined_set h _).bind fun _ => .pure _

/-- All that may be asked of an environment as a whole is its policy. -/
theorem confined_missing (f : MissingPolicy → Except Error α) :
    Confined (within names) (do let env ← getThe Environment; lift (f env.missing)) where
  agree {a b} hagree := by
    have hmissing : a.missing = b.missing := hagree.missing
    exact ⟨congrArg f hmissing, hagree⟩
  kept := (within names).refl

end Eval

namespace Expr

open Environment (within)

variable {names : List String}

mutual

/-- **An expression reads and writes only its own names.** -/
theorem confined_eval : ∀ {e : Expr}, e.names ⊆ names → Confined (within names) e.eval
  | .literal value, _ => by
    rw [eval]
    exact .pure _
  | .variable name, h => by
    rw [eval]
    exact Eval.confined_lookup (h List.mem_cons_self)
  | .matrix rows cols elements, h => by
    rw [eval]
    exact (confined_evalCells h).bind fun _ => Eval.confined_lift _
  | .unary op operand, h => by
    rw [eval]
    exact (confined_eval (e := operand) h).bind fun _ => .pure _
  | .binary op left right, h => by
    obtain ⟨hleft, hright⟩ := List.append_subset.mp h
    rw [eval]
    refine (confined_eval hleft).bind fun a => (confined_eval hright).bind fun b => ?_
    exact Eval.confined_lift _
  | .call f arguments, h => by
    rw [eval]
    cases hupdate : Eval.updateCall? f arguments with
    | some result =>
      obtain ⟨name, change, -, rfl, rfl⟩ := Eval.updateCall?_eq_some hupdate
      exact Eval.confined_update (h List.mem_cons_self) (Matrix.map change)
    | none => exact (confined_evalAll h).bind fun values => Eval.confined_missing (f.apply · values)

theorem confined_evalCells : ∀ {es : List Expr}, namesOfAll es ⊆ names →
    Confined (within names) (evalCells es)
  | [], _ => by
    rw [evalCells]
    exact .pure _
  | e :: es, h => by
    obtain ⟨he, hes⟩ := List.append_subset.mp h
    rw [evalCells]
    refine (confined_eval he).bind fun m => (Eval.confined_lift _).bind fun x => ?_
    exact (confined_evalCells hes).bind fun _ => .pure _

theorem confined_evalAll : ∀ {es : List Expr}, namesOfAll es ⊆ names →
    Confined (within names) (evalAll es)
  | [], _ => by
    rw [evalAll]
    exact .pure _
  | e :: es, h => by
    obtain ⟨he, hes⟩ := List.append_subset.mp h
    rw [evalAll]
    exact (confined_eval he).bind fun m => (confined_evalAll hes).bind fun _ => .pure _

end

end Expr

/-! ## Runs -/

/-- What may be done to a machine by those who know only some names.  Machines that agree have
made the same notes. -/
def Machine.within (names : List String) : Boundary Machine where
  Agree m n := m.env.AgreeOn names n.env ∧ m.notes = n.notes
  Kept m n := m.env.Kept names n.env
  refl m := .refl names m.env
  trans := .trans

namespace Run

open Machine (within)

variable {α : Type} {names : List String} {name : String} {fuel line : Nat}

theorem confined_atLine {x : Eval α} (h : Confined (Environment.within names) x) (line : Nat) :
    Confined (within names) (atLine line x) where
  agree {m n} hagree := by
    obtain ⟨hresult, henv⟩ := h.agree hagree.1
    rcases hm : x m.env with ⟨r, env⟩
    rcases hn : x n.env with ⟨r', env'⟩
    rw [hm, hn] at hresult henv
    subst hresult
    unfold atLine
    rw [hm, hn]
    cases r with
    | error cause => exact ⟨rfl, henv, hagree.2⟩
    | ok a => exact ⟨rfl, henv, hagree.2⟩
  kept m := by
    have hkept := h.kept m.env
    rcases hm : x m.env with ⟨r, env⟩
    rw [hm] at hkept
    unfold atLine
    rw [hm]
    cases r with
    | error cause => exact hkept
    | ok a => exact hkept

theorem confined_eval {e : Expr} (h : e.names ⊆ names) (line : Nat) :
    Confined (within names) (atLine line e.eval) :=
  confined_atLine (Expr.confined_eval h) line

/-- What is read off a value does not go further than the value. -/
theorem confined_read {α : Type} {e : Expr} (h : e.names ⊆ names)
    (read : Matrix → Except Error α) (line : Nat) :
    Confined (within names) (atLine line (e.eval >>= fun m => Eval.lift (read m))) :=
  confined_atLine ((Expr.confined_eval h).bind fun _ => Eval.confined_lift _) line

theorem confined_change (h : name ∈ names) (f : Matrix → Except Error Matrix) (line : Nat) :
    Confined (within names) (atLine line (change name f)) := by
  refine confined_atLine ((Eval.confined_lookup h).bind fun m => ?_) line
  exact (Eval.confined_lift (f m)).bind fun value => Eval.confined_set h value

theorem confined_assign (h : name ∈ names) (value : Matrix) :
    Confined (within names) (assign name value) where
  agree hagree := ⟨rfl, hagree.1.set name value, hagree.2⟩
  kept m := .set h m.env value

theorem confined_note (n : Note) : Confined (within names) (note n) where
  agree hagree := ⟨rfl, hagree.1, congrArg (n :: ·) hagree.2⟩
  kept := (within names).refl

section

variable {run : Statement → Run Unit}

theorem confined_all {ss : List Statement} (h : ∀ s ∈ ss, Confined (within names) (run s)) :
    Confined (within names) (all run ss) := by
  induction ss with
  | nil => exact .pure _
  | cons s ss ih =>
    obtain ⟨hs, hss⟩ := List.forall_mem_cons.mp h
    exact hs.bind fun _ => ih hss

/-- The names of a body are those of its statements. -/
theorem names_subset_of_mem {body : List Statement} (h : Statement.namesOfBody body ⊆ names) :
    ∀ s ∈ body, s.names ⊆ names := by
  induction body with
  | nil => exact nofun
  | cons s body ih =>
    obtain ⟨hs, hbody⟩ := List.append_subset.mp h
    exact List.forall_mem_cons.mpr ⟨hs, ih hbody⟩

theorem confined_body (h : ∀ {s}, Statement.names s ⊆ names → Confined (within names) (run s))
    {body : List Statement} (hbody : Statement.namesOfBody body ⊆ names) :
    Confined (within names) (all run body) :=
  confined_all fun s hs => h (names_subset_of_mem hbody s hs)

theorem confined_firstBranch
    (h : ∀ {s}, Statement.names s ⊆ names → Confined (within names) (run s))
    {branches : List Branch} {otherwise : Option (List Statement)}
    (hbranches : Statement.namesOfBranches branches ⊆ names)
    (hotherwise : ∀ body ∈ otherwise, Statement.namesOfBody body ⊆ names) (line : Nat) :
    Confined (within names) (firstBranch run line otherwise branches) := by
  induction branches with
  | nil =>
    cases otherwise with
    | none => exact .pure _
    | some body => exact confined_body h (hotherwise body rfl)
  | cons branch branches ih =>
    obtain ⟨condition, body⟩ := branch
    obtain ⟨hbranch, hbranches⟩ := List.append_subset.mp hbranches
    obtain ⟨hcondition, hbody⟩ := List.append_subset.mp hbranch
    refine (confined_eval hcondition line).bind fun value => ?_
    split
    · exact confined_body h hbody
    · exact ih hbranches

end

/-- What runs on some fuel reads and writes only its own names. -/
structure ConfinedOn (names : List String) (fuel : Nat) : Prop where
  statement : ∀ {s : Statement}, s.names ⊆ names → Confined (within names) (statement fuel s)
  rounds : ∀ {counter : String} {limit : Expr} {body : List Statement}, counter ∈ names →
    limit.names ⊆ names → Statement.namesOfBody body ⊆ names → ∀ line direction,
      Confined (within names) (rounds fuel line counter limit direction body)

theorem ConfinedOn.statement_succ (h : ConfinedOn names fuel) {s : Statement}
    (hs : s.names ⊆ names) : Confined (within names) (Run.statement (fuel + 1) s) := by
  cases s with
  | assign line target value =>
    obtain ⟨htarget, hvalue⟩ := List.cons_subset.mp hs
    rw [Run.statement]
    exact (confined_eval hvalue line).bind fun v => confined_assign htarget v
  | assignIndex line target index value =>
    obtain ⟨htarget, hs⟩ := List.cons_subset.mp hs
    obtain ⟨hindex, hvalue⟩ := List.append_subset.mp hs
    rw [Run.statement]
    refine (confined_read hindex _ line).bind fun i => ?_
    exact (confined_eval hvalue line).bind fun v => confined_change htarget _ line
  | assignBlock line target row col value =>
    obtain ⟨htarget, hs⟩ := List.cons_subset.mp hs
    obtain ⟨hs, hvalue⟩ := List.append_subset.mp hs
    obtain ⟨hrow, hcol⟩ := List.append_subset.mp hs
    rw [Run.statement]
    refine (confined_read hrow _ line).bind fun r => ?_
    refine (confined_read hcol _ line).bind fun c => ?_
    exact (confined_eval hvalue line).bind fun v => confined_change htarget _ line
  | eval line value =>
    rw [Run.statement]
    exact (confined_eval hs line).bind fun v => confined_note _
  | choose line branches otherwise =>
    rw [Run.statement]
    cases otherwise with
    | none =>
      obtain ⟨hbranches, -⟩ := List.append_subset.mp hs
      exact confined_firstBranch h.statement hbranches (by rintro _ ⟨⟩) line
    | some body =>
      obtain ⟨hbranches, hbody⟩ := List.append_subset.mp hs
      refine confined_firstBranch h.statement hbranches ?_ line
      rintro _ ⟨⟩
      exact hbody
  | whileLoop line condition body =>
    obtain ⟨hcondition, hbody⟩ := List.append_subset.mp hs
    rw [Run.statement]
    refine (confined_eval hcondition line).bind fun value => ?_
    split
    · exact (confined_body h.statement hbody).bind fun _ => h.statement hs
    · exact .pure _
  | forLoop line counter start limit direction body =>
    obtain ⟨hcounter, hs⟩ := List.cons_subset.mp hs
    obtain ⟨hs, hbody⟩ := List.append_subset.mp hs
    obtain ⟨hstart, hlimit⟩ := List.append_subset.mp hs
    rw [Run.statement]
    refine (confined_eval hstart line).bind fun first => ?_
    refine (confined_assign hcounter first).bind fun _ => ?_
    exact h.rounds hcounter hlimit hbody line direction
  | block line body =>
    rw [Run.statement]
    exact confined_body h.statement hs

theorem ConfinedOn.rounds_succ (h : ConfinedOn names fuel) {counter : String} {limit : Expr}
    {body : List Statement} (hcounter : counter ∈ names) (hlimit : limit.names ⊆ names)
    (hbody : Statement.namesOfBody body ⊆ names) (line : Nat) (direction : Direction) :
    Confined (within names) (Run.rounds (fuel + 1) line counter limit direction body) := by
  have hvariable : (Expr.variable counter).names ⊆ names :=
    List.cons_subset.mpr ⟨hcounter, List.nil_subset _⟩
  rw [Run.rounds]
  refine (confined_read hvariable _ line).bind fun current => ?_
  refine (confined_read hlimit _ line).bind fun last => ?_
  split
  · refine (confined_body h.statement hbody).bind fun _ => ?_
    refine (confined_atLine (Eval.confined_update hcounter _) line).bind fun _ => ?_
    exact h.rounds hcounter hlimit hbody line direction
  · exact .pure _

theorem confinedOn (names : List String) (fuel : Nat) : ConfinedOn names fuel := by
  induction fuel with
  | zero =>
    constructor
    · intro s _
      rw [statement]
      exact .throw _
    · intro counter limit body _ _ _ line direction
      rw [rounds]
      exact .throw _
  | succ fuel ih => exact ⟨ih.statement_succ, ih.rounds_succ⟩

/-- **A program reads and writes only its own names.** -/
theorem confined_program {p : Program} (h : Statement.namesOfBody p.statements ⊆ names)
    (fuel : Nat) : Confined (within names) (program fuel p) :=
  confined_body (fun hs => (confined_note _).bind fun _ => (confinedOn names fuel).statement hs) h

/-- However a body ends, what had a value before it has one after it. -/
theorem contains_body {machine : Machine} {x : String} (h : machine.env.contains x = true)
    (fuel : Nat) (body : List Statement) :
    (all (statement fuel) body machine).2.env.contains x = true := by
  have hbody : Confined (within (Statement.namesOfBody body)) (all (statement fuel) body) :=
    confined_body (confinedOn _ fuel).statement (List.Subset.refl _)
  exact (hbody.kept machine).bound x h

end Run

/-! ## Compiled programs -/

/-- **The names of a program bound what it can read and write.**  In two environments with the
same policy that agree on these names, runs on the same fuel end in the same way, with the same
notes, and leave environments that agree on them.  However a run ends, other names keep what they
have, the policy stays, and no name loses its value; so when a round of a loop is done, its
variable still has a value to go on from. -/
theorem run_confined {source : String} {p : Program} (h : compile source = .ok p) (fuel : Nat) :
    (∀ a b : Environment, a.AgreeOn p.names b →
      (p.run fuel a).outcome = (p.run fuel b).outcome ∧
      (p.run fuel a).notes = (p.run fuel b).notes ∧
      (p.run fuel a).env.AgreeOn p.names (p.run fuel b).env) ∧
    (∀ env : Environment, env.Kept p.names (p.run fuel env).env) ∧
    ∀ (body : List Statement) (counter : String) (machine : Machine),
      machine.env.contains counter = true →
      ∃ value, (Run.all (Run.statement fuel) body machine).2.env.lookup counter = .ok value := by
  obtain ⟨-, -, hnames⟩ := compile_eq_ok_iff.mp h
  have hsubset : Statement.namesOfBody p.statements ⊆ p.names := by
    intro x hx
    rw [hnames]
    exact Names.mem_ofList.mpr hx
  have hprogram := Run.confined_program hsubset fuel
  refine ⟨fun a b hagree => ?_, fun env => ?_, fun body counter machine hcounter => ?_⟩
  · obtain ⟨houtcome, henv, hnotes⟩ := hprogram.agree (s := ⟨a, []⟩) (t := ⟨b, []⟩) ⟨hagree, rfl⟩
    exact ⟨houtcome, congrArg List.reverse hnotes, henv⟩
  · exact hprogram.kept ⟨env, []⟩
  · have hbound := Run.contains_body hcounter fuel body
    obtain ⟨value, hvalue⟩ := Option.isSome_iff_exists.mp hbound
    refine ⟨value, ?_⟩
    rw [Environment.lookup, hvalue]
    rfl

/-- A loop that changes a variable in its body, and a read of a variable without a value. -/
def countUp : String :=
  "for i = 1 to n \x7b s = s + inc(k) \x7d\nif (s > k) t = q"

/-- Values for the names of `countUp`, and for one more. -/
def startOfCount (other : String) : Environment :=
  ⟨[("k", .scalar 0), ("n", .scalar 2), ("s", .scalar 0), (other, .eye 2)], .zero⟩

theorem run_confined_countUp : ∃ p, compile countUp = .ok p ∧
    (startOfCount "y").AgreeOn p.names (startOfCount "z") ∧
    (p.run 9 (startOfCount "y")).outcome = (p.run 9 (startOfCount "z")).outcome ∧
    (p.run 9 (startOfCount "y")).env.AgreeOn p.names (p.run 9 (startOfCount "z")).env ∧
    (startOfCount "y").Kept p.names (p.run 9 (startOfCount "y")).env ∧
    ∃ failure, (p.run 9 (startOfCount "y")).outcome = .error (.failure failure) := by
  have hevaluated : (match compile countUp with
      | .ok p => p.names == ["i", "k", "n", "q", "s", "t"] &&
        match (p.run 9 (startOfCount "y")).outcome with
        | .error (.failure _) => true
        | _ => false
      | .error _ => false) = true := by decide +kernel
  cases hcompile : compile countUp with
  | error failure =>
    rw [hcompile] at hevaluated
    cases hevaluated
  | ok p =>
    rw [hcompile] at hevaluated
    obtain ⟨hnames, hends⟩ := Bool.and_eq_true_iff.mp hevaluated
    have hagree : (startOfCount "y").AgreeOn p.names (startOfCount "z") := by
      refine ⟨rfl, fun x hx => ?_⟩
      rw [beq_iff_eq.mp hnames] at hx
      simp only [List.mem_cons, List.not_mem_nil, or_false] at hx
      rcases hx with rfl | rfl | rfl | rfl | rfl | rfl <;> rfl
    obtain ⟨hruns, hkept, -⟩ := run_confined hcompile 9
    obtain ⟨houtcome, -, henv⟩ := hruns _ _ hagree
    refine ⟨p, rfl, hagree, houtcome, henv, hkept _, ?_⟩
    split at hends
    · rename_i failure hfailure
      exact ⟨failure, hfailure⟩
    · cases hends

end MatrixLang

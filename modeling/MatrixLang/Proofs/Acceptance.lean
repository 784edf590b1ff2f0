import MatrixLang.Proofs.Closing
import MatrixLang.Proofs.Placement

/-! # Which tokens are accepted

An expression is accepted if its tokens can be prepared, put into postfix order and made into one
tree.  This asks less than the grammar does: `1 2 +` is accepted, with the tree of `1 + 2`.
`accepted_renders_iff` says how much less.  Tokens that are accepted have a derivation exactly if
no token is out of place (`placed`), and in any case all of their groups are closed, by a bracket
of one kind or another.

A derivation is put together while the tokens are read from the left (`Reached`).  It may then have
the wrong number of arguments in a call or rows of different lengths (`Rough`).  That it has not
is what the passes check when they count (`wellFormed_of_sound`).
-/

namespace MatrixLang

namespace Infix

open Token

/-! ## Reading from the left -/

/-- Tokens that wait for an operand: with any operand after them they are a derivation. -/
def Opens (ts : List Token) : Prop :=
  ∀ t : Infix, t.Rough → ∃ u : Infix, u.Rough ∧ u.tokens = ts ++ t.tokens

theorem opens_nil : Opens [] :=
  fun t ht => ⟨t, ht, rfl⟩

theorem Opens.before {ts : List Token} (h : Opens ts) (p : Prefix) :
    Opens (ts ++ [.operator p.written]) := by
  intro t ht
  obtain ⟨u, hu, htokens⟩ := h (.before p t) (.before p ht)
  exact ⟨u, hu, by rw [htokens, tokens_before, List.append_assoc, List.singleton_append]⟩

theorem opens_between {a : Infix} (ha : a.Rough) {op : BinaryOperator} (hop : op ≠ .index) :
    Opens (a.tokens ++ [.operator (.binary op)]) := by
  intro t ht
  exact ⟨.between op a t, .between hop ha ht, by
    rw [tokens_between, List.append_assoc, List.singleton_append]⟩

/-- Parts that are complete, with a separator after each. -/
def ended (separator : Token) (parts : List (List Token)) : List Token :=
  parts.flatMap (· ++ [separator])

theorem ended_concat (separator : Token) (parts : List (List Token)) (part : List Token) :
    ended separator (parts ++ [part]) = ended separator parts ++ part ++ [separator] := by
  simp [ended]

/-- Parts with a separator between them are complete parts and one more. -/
theorem joined_concat (separator : Token) (parts : List (List Token)) (part : List Token) :
    joined separator (parts ++ [part]) = ended separator parts ++ part := by
  induction parts with
  | nil => simp [joined, ended]
  | cons first parts ih =>
    cases parts with
    | nil => simp [joined, ended]
    | cons second parts => simpa [joined, ended] using ih

/-- The tokens up to the start of the part that is being read, in the groups that are open. -/
inductive Inside : List Enclosure → List Token → Prop
  | outermost : Inside [] []
  | plain {groups : List Enclosure} {outer ts : List Token} (h : Inside groups outer)
      (hopens : Opens ts) : Inside (.plain :: groups) (outer ++ (ts ++ [.openParen]))
  | call {groups : List Enclosure} {outer ts : List Token} (h : Inside groups outer)
      (hopens : Opens ts) (f : Builtin) {arguments : List Infix} (ha : ∀ t ∈ arguments, t.Rough) :
      Inside (.call :: groups) (outer ++ (ts ++ (.function f none :: .openParen ::
        ended .comma (arguments.map tokens))))
  | index {groups : List Enclosure} {outer : List Token} (h : Inside groups outer) {t : Infix}
      (ht : t.Rough) : Inside (.index :: groups) (outer ++ (t.tokens ++ [.openBracket]))
  | literal {groups : List Enclosure} {outer ts : List Token} (h : Inside groups outer)
      (hopens : Opens ts) {rows : List (List Infix)} {cells : List Infix}
      (hne : ∀ row ∈ rows, row ≠ []) (hrows : ∀ row ∈ rows, ∀ t ∈ row, t.Rough)
      (hcells : ∀ t ∈ cells, t.Rough) :
      Inside (.literal :: groups) (outer ++ (ts ++ (.openBracket ::
        (ended .semicolon (rows.map fun row => joined .comma (row.map tokens)) ++
          ended .comma (cells.map tokens)))))

/-- The tokens that have been read, at a place in the groups that are open. -/
inductive Reached : Place → List Enclosure → List Token → Prop
  | before {groups : List Enclosure} {outer ts : List Token} (h : Inside groups outer)
      (hopens : Opens ts) : Reached .before groups (outer ++ ts)
  | named {groups : List Enclosure} {outer ts : List Token} (h : Inside groups outer)
      (hopens : Opens ts) (f : Builtin) :
      Reached .named groups (outer ++ (ts ++ [.function f none]))
  | after {groups : List Enclosure} {outer : List Token} (h : Inside groups outer) {t : Infix}
      (ht : t.Rough) : Reached .after groups (outer ++ t.tokens)

namespace Reached

variable {groups : List Enclosure} {ts : List Token}

/-- An operand where one may begin. -/
theorem operand {outer ts : List Token} (h : Inside groups outer) (hopens : Opens ts) {t : Infix}
    (ht : t.Rough) : Reached .after groups (outer ++ (ts ++ t.tokens)) := by
  obtain ⟨u, hu, htokens⟩ := hopens t ht
  rw [← htokens]
  exact .after h hu

theorem atom (h : Reached .before groups ts) {t : Infix} (ht : t.Rough) :
    Reached .after groups (ts ++ t.tokens) := by
  cases h with
  | before hinside hopens =>
    rw [List.append_assoc]
    exact operand hinside hopens ht

theorem function (h : Reached .before groups ts) (f : Builtin) :
    Reached .named groups (ts ++ [.function f none]) := by
  cases h with
  | before hinside hopens =>
    rw [List.append_assoc]
    exact .named hinside hopens f

theorem sign (h : Reached .before groups ts) (p : Prefix) :
    Reached .before groups (ts ++ [.operator p.written]) := by
  cases h with
  | before hinside hopens =>
    rw [List.append_assoc]
    exact .before hinside (hopens.before p)

theorem quote (h : Reached .after groups ts) :
    Reached .after groups (ts ++ [.operator .transpose]) := by
  cases h with
  | after hinside ht =>
    rw [List.append_assoc]
    exact .after hinside (.quote ht)

theorem binary (h : Reached .after groups ts) {op : BinaryOperator} (hop : op ≠ .index) :
    Reached .before groups (ts ++ [.operator (.binary op)]) := by
  cases h with
  | after hinside ht =>
    rw [List.append_assoc]
    exact .before hinside (opens_between ht hop)

/-- The start of a group. -/
theorem inside {outer : List Token} (h : Inside groups outer) : Reached .before groups outer := by
  rw [← List.append_nil outer]
  exact .before h opens_nil

theorem plain (h : Reached .before groups ts) :
    Reached .before (.plain :: groups) (ts ++ [.openParen]) := by
  cases h with
  | before hinside hopens =>
    rw [List.append_assoc]
    exact inside (.plain hinside hopens)

theorem call (h : Reached .named groups ts) :
    Reached .before (.call :: groups) (ts ++ [.openParen]) := by
  cases h with
  | named hinside hopens f =>
    rw [List.append_assoc, List.append_assoc]
    exact inside (.call hinside hopens f (List.forall_mem_nil _))

theorem index (h : Reached .after groups ts) :
    Reached .before (.index :: groups) (ts ++ [.openBracket]) := by
  cases h with
  | after hinside ht =>
    rw [List.append_assoc]
    exact inside (.index hinside ht)

theorem literal (h : Reached .before groups ts) :
    Reached .before (.literal :: groups) (ts ++ [.openBracket]) := by
  cases h with
  | before hinside hopens =>
    rw [List.append_assoc]
    exact inside (.literal hinside hopens (List.forall_mem_nil _) (List.forall_mem_nil _)
      (List.forall_mem_nil _))

theorem forall_mem_concat {α : Type} {P : α → Prop} {xs : List α} {x : α}
    (hxs : ∀ y ∈ xs, P y) (hx : P x) : ∀ y ∈ xs ++ [x], P y := by
  intro y hy
  rcases List.mem_append.mp hy with hmem | hmem
  · exact hxs y hmem
  · rw [List.mem_singleton.mp hmem]
    exact hx

theorem closeParen {group : Enclosure} (hgroup : group = .call ∨ group = .plain)
    (h : Reached .after (group :: groups) ts) : Reached .after groups (ts ++ [.closeParen]) := by
  cases h with
  | @after _ _ hinside t ht =>
    cases hinside with
    | plain hinside hopens =>
      have hclosed := operand hinside hopens (.paren ht)
      simpa using hclosed
    | @call _ _ _ hinside hopens f arguments ha =>
      have hclosed := operand hinside hopens
        (.call f (List.concat_ne_nil t arguments) (forall_mem_concat ha ht))
      simpa [joined_concat] using hclosed
    | index | literal => simp at hgroup

theorem closeBracket {group : Enclosure} (hgroup : group = .index ∨ group = .literal)
    (h : Reached .after (group :: groups) ts) : Reached .after groups (ts ++ [.closeBracket]) := by
  cases h with
  | @after _ _ hinside t ht =>
    cases hinside with
    | index hinside hindexed =>
      have hclosed := Reached.after hinside (.index hindexed ht)
      simpa using hclosed
    | @literal _ _ _ hinside hopens rows cells hne hrows hcells =>
      have hclosed := operand hinside hopens
        (.literal (List.concat_ne_nil (cells ++ [t]) rows)
          (forall_mem_concat hne (List.concat_ne_nil t cells))
          (forall_mem_concat hrows (forall_mem_concat hcells ht)))
      simpa [joined_concat] using hclosed
    | plain | call => simp at hgroup

theorem comma {group : Enclosure} (hgroup : group.isDivided = true)
    (h : Reached .after (group :: groups) ts) :
    Reached .before (group :: groups) (ts ++ [.comma]) := by
  cases h with
  | @after _ _ hinside t ht =>
    cases hinside with
    | @call _ _ _ hinside hopens f arguments ha =>
      have hnext := Inside.call hinside hopens f (forall_mem_concat ha ht)
      simpa [ended_concat] using inside hnext
    | @literal _ _ _ hinside hopens rows cells hne hrows hcells =>
      have hnext := Inside.literal hinside hopens hne hrows (forall_mem_concat hcells ht)
      simpa [ended_concat] using inside hnext
    | plain | index => cases hgroup

theorem semicolon (h : Reached .after (.literal :: groups) ts) :
    Reached .before (.literal :: groups) (ts ++ [.semicolon]) := by
  cases h with
  | @after _ _ hinside t ht =>
    cases hinside with
    | @literal _ _ _ hinside hopens rows cells hne hrows hcells =>
      have hnext := Inside.literal hinside hopens
        (forall_mem_concat hne (List.concat_ne_nil t cells))
        (forall_mem_concat hrows (forall_mem_concat hcells ht)) (List.forall_mem_nil _)
      simpa [ended_concat, joined_concat, ended] using inside hnext

/-- **One token further.**  A token that fits, and has its operand before it if it needs one, goes
on with a derivation. -/
theorem step {place : Place} {groups' : List Enclosure} {t : Token}
    (h : Reached place groups ts) (hfits : Fits place groups t groups')
    (hneeds : t.needsOperand = true → place = .after)
    (hnamed : place = .named → t = .openParen) : Reached t.place groups' (ts ++ [t]) := by
  have hbefore : t ≠ .openParen → place ≠ .after → place = .before := by
    intro ht hplace
    cases place with
    | before => rfl
    | named => exact absurd (hnamed rfl) ht
    | after => exact absurd rfl hplace
  cases hfits with
  | number value hplace =>
    obtain rfl := hbefore (by rintro ⟨⟩) hplace
    exact h.atom (.number value)
  | name text hplace =>
    obtain rfl := hbefore (by rintro ⟨⟩) hplace
    exact h.atom (.name text)
  | function f hplace =>
    obtain rfl := hbefore (by rintro ⟨⟩) hplace
    exact h.function f
  | @sign op hop hplace =>
    obtain rfl := hbefore (by rintro ⟨⟩) hplace
    cases op with
    | neg => exact h.sign .tilde
    | not => exact h.sign .not
    | bang => exact h.sign .bang
    | binary | transpose | literal => cases hop
  | quote =>
    obtain rfl := hneeds rfl
    exact h.quote
  | @binary op hop =>
    by_cases hplace : place = .after
    · subst hplace
      exact h.binary hop
    · -- only a minus may stand where no operand is
      obtain rfl := hbefore (by rintro ⟨⟩) hplace
      by_cases hsub : op = .sub
      · subst hsub
        exact h.sign .minus
      · exact absurd (hneeds (bne_iff_ne.mpr hsub)) hplace
  | plain hplace =>
    subst hplace
    exact h.plain
  | call hplace =>
    subst hplace
    exact h.call
  | index hplace =>
    subst hplace
    exact h.index
  | literal hplace =>
    obtain rfl := hbefore (by rintro ⟨⟩) hplace
    exact h.literal
  | closeParen hgroups hgroup =>
    obtain rfl := hneeds rfl
    subst hgroups
    exact h.closeParen hgroup
  | closeBracket hgroups hgroup =>
    obtain rfl := hneeds rfl
    subst hgroups
    exact h.closeBracket hgroup
  | comma hgroups hgroup =>
    obtain rfl := hneeds rfl
    subst hgroups
    exact h.comma hgroup
  | semicolon hgroups =>
    obtain rfl := hneeds rfl
    subst hgroups
    exact h.semicolon

end Reached

end Infix

namespace Token

theorem place_operator_ne_named (op : Operator) : (Token.operator op).place ≠ .named := by
  cases op <;> rintro ⟨⟩

/-- The passes come through some tokens, whatever stands before them. -/
def Preparable (ts : List Token) : Prop :=
  ∃ shapes last ps, Prepares shapes (resolveBracketsAfter last ts) ps

theorem Preparable.tail {t : Token} {ts : List Token} (h : Preparable (t :: ts))
    (ht : t ≠ .literalStart) : Preparable ts := by
  obtain ⟨shapes, last, ps, hps⟩ := h
  cases t with
  | openParen =>
    obtain ⟨rest, hrest, -⟩ := hps.openParen
    exact ⟨_, _, rest, hrest⟩
  | closeParen | closeBracket =>
    obtain ⟨rest, hrest, -⟩ := hps.closeParen
    exact ⟨_, _, rest, hrest⟩
  | openBracket =>
    rw [resolveBracketsAfter] at hps
    split at hps
    · obtain ⟨shape, rest, -, hrest, -⟩ := hps.literal
      exact ⟨_, _, rest, hrest⟩
    · obtain ⟨inner, hinner, -⟩ := hps.single rfl
      obtain ⟨rest, hrest, -⟩ := hinner.openParen
      exact ⟨_, _, rest, hrest⟩
  | semicolon =>
    obtain ⟨rest, hrest, -⟩ := hps.semicolon
    exact ⟨_, _, rest, hrest⟩
  | function f arity =>
    cases arity with
    | none =>
      obtain ⟨_, rest, _, -, hrest, -⟩ := hps.function
      exact ⟨_, _, rest, hrest⟩
    | some n =>
      obtain ⟨rest, hrest, -⟩ := hps.single rfl
      exact ⟨_, _, rest, hrest⟩
  | literalStart => exact absurd rfl ht
  | _ =>
    obtain ⟨rest, hrest, -⟩ := hps.single rfl
    exact ⟨_, _, rest, hrest⟩

theorem Preparable.function {f : Builtin} {ts : List Token}
    (h : Preparable (.function f none :: ts)) : ∃ inner, ts = .openParen :: inner := by
  obtain ⟨shapes, last, ps, hps⟩ := h
  obtain ⟨inner, _, _, hinner, -⟩ := hps.function
  exact openParen_of_resolveBracketsAfter hinner

end Token

namespace Infix

open Token

/-- **All tokens.**  Tokens that are in place and have their operands are a derivation. -/
theorem Reached.exists_rough {ts done : List Token} {place : Place} {groups : List Enclosure}
    (h : Reached place groups done) (hplaced : placedFrom place groups ts = true)
    (halternates : Alternates place ts) (hprepares : Preparable ts)
    (hnamed : place = .named → ∃ inner, ts = .openParen :: inner) :
    ∃ t : Infix, t.Rough ∧ done ++ ts = t.tokens := by
  induction ts generalizing place groups done with
  | nil =>
    obtain rfl : place = .after := halternates
    obtain rfl : groups = [] := List.isEmpty_iff.mp hplaced
    cases h with
    | @after _ _ hinside t ht =>
      cases hinside
      exact ⟨t, ht, List.append_nil _⟩
  | cons t ts ih =>
    obtain ⟨groups', hfits, hrest⟩ := fits_of_placed hplaced
    have hstep : Reached t.place groups' (done ++ [t]) := by
      refine h.step hfits halternates.1 fun hplace => ?_
      obtain ⟨inner, heq⟩ := hnamed hplace
      exact (List.cons.inj heq).1
    have hnext : t.place = .named → ∃ inner, ts = .openParen :: inner := by
      intro hplace
      cases hfits with
      | function f => exact hprepares.function
      | @sign op => exact absurd hplace (place_operator_ne_named op)
      | _ => cases hplace
    have hliteral : t ≠ .literalStart := by
      rintro rfl
      cases hfits
    obtain ⟨u, hu, htokens⟩ := ih hstep hrest halternates.2 (hprepares.tail hliteral) hnext
    exact ⟨u, hu, by rw [← htokens, List.append_assoc, List.singleton_append]⟩

/-! ## Numbers of arguments and cells -/

/-- Tokens that add `k` separators to the group around them. -/
def Adds (k : Nat) (ts : List Token) : Prop :=
  ∀ n ns rest, ahead isSeparator rest = n :: ns → ahead isSeparator (ts ++ rest) = (n + k) :: ns

namespace Adds

variable {j k : Nat} {a b : List Token}

theorem join {t : Token} (ht : t = .comma ∨ t = .semicolon) (ha : Adds j a) (hb : Adds k b) :
    Adds (j + k + 1) (a ++ t :: b) := by
  intro n ns rest hrest
  have hseparator : ahead isSeparator (t :: (b ++ rest)) = (n + k + 1) :: ns := by
    have hb := hb n ns rest hrest
    rcases ht with rfl | rfl <;> rw [ahead_separator rfl rfl rfl, hb, countOne]
  rw [List.append_assoc, List.cons_append, ha _ _ _ hseparator]
  congr 1
  omega

/-- Outside of a group, nothing in it counts. -/
theorem exists_join {t : Token} (ht : t = .comma ∨ t = .semicolon) (ha : ∃ j, Adds j a)
    (hb : ∃ k, Adds k b) : ∃ k, Adds k (a ++ t :: b) := by
  obtain ⟨j, hj⟩ := ha
  obtain ⟨k, hk⟩ := hb
  exact ⟨_, hj.join ht hk⟩

theorem group (h : Adds k a) (rest : List Token) :
    ahead isSeparator (.openParen :: (a ++ .closeParen :: rest)) = ahead isSeparator rest := by
  rw [ahead, h 0 _ _ (by rw [ahead]), List.tail_cons]

/-- Between parts that add nothing there is one separator less than there are parts. -/
theorem joined {parts : List (List Token)} (hne : parts ≠ []) (h : ∀ part ∈ parts, Adds 0 part) :
    Adds (parts.length - 1) (Infix.joined .comma parts) := by
  obtain ⟨part, parts, rfl⟩ := List.exists_cons_of_ne_nil hne
  clear hne
  induction parts generalizing part with
  | nil => simpa [Infix.joined] using h part (by simp)
  | cons other parts ih =>
    have hother := ih other fun p hp => h p (List.mem_cons_of_mem _ hp)
    have hjoin := (h part (by simp)).join (.inl rfl) hother
    simpa [Infix.joined] using hjoin

end Adds

/-- The tokens of a derivation add no separators. -/
theorem ahead_spell {t : Infix} (h : t.Rough) (rest : List Token) :
    ahead isSeparator (t.spell .bracketed ++ rest) = ahead isSeparator rest := by
  induction h generalizing rest with
  | number value => rfl
  | name text => rfl
  | @paren t h ih =>
    have hadds : Adds 0 (t.spell .bracketed) := fun n ns rest hrest => (ih rest).trans hrest
    rw [spell, List.cons_append, List.append_assoc]
    exact hadds.group rest
  | @call f arguments hne h ih =>
    have hadds : ∀ t ∈ arguments, ∃ k, Adds k (t.spell .bracketed) := fun t ht =>
      ⟨0, fun n ns rest hrest => (ih t ht rest).trans hrest⟩
    obtain ⟨k, hk⟩ := joined_closed (P := fun a => ∃ k, Adds k a)
      (fun ha hb => Adds.exists_join (.inl rfl) ha hb) hne hadds
    rw [spell, spellAll_eq_map, List.cons_append, List.cons_append, List.append_assoc]
    exact hk.group rest
  | @literal rows hrows hne h ih =>
    have hadds : ∀ row ∈ rows, ∀ t ∈ row, ∃ k, Adds k (t.spell .bracketed) := fun row hr t ht =>
      ⟨0, fun n ns rest hrest => (ih row hr t ht rest).trans hrest⟩
    obtain ⟨k, hk⟩ := joinedRows_closed (P := fun a => ∃ k, Adds k a)
      (fun ha hb => Adds.exists_join (.inl rfl) ha hb)
      (fun ha hb => Adds.exists_join (.inr rfl) ha hb) hrows hne hadds
    rw [spell, spellRows_eq_map]
    show ahead isSeparator (.literalStart :: .openParen :: ((_ ++ [.closeParen]) ++ rest)) = _
    rw [List.append_assoc]
    exact hk.group rest
  | @before p t h ih => exact ih rest
  | @between op a b hop ha hb iha ihb =>
    rw [spell, List.append_assoc, iha]
    exact ihb rest
  | @quote t h ih =>
    rw [spell, List.append_assoc, ih]
    rfl
  | @index t i ht hi iht ihi =>
    have hadds : Adds 0 (i.spell .bracketed) := fun n ns rest hrest => (ihi rest).trans hrest
    rw [spell, List.append_assoc, iht]
    show ahead isSeparator (.operator _ :: .openParen :: ((_ ++ [.closeParen]) ++ rest)) = _
    rw [List.append_assoc]
    exact hadds.group rest

/-- Tokens that come through the passes, and whose functions are called with numbers of arguments
that they are defined for. -/
def Sound (shapes : List (Option Shape)) (ts : List Token) : Prop :=
  ∃ ps, Prepares shapes ts ps ∧ ∀ f n, .function f (some n) ∈ ps → f.accepts n = true

namespace Sound

variable {shapes : List (Option Shape)} {ts : List Token}

theorem single {t : Token} (h : Sound shapes (t :: ts)) (ht : t.isKept = true) :
    Sound shapes ts := by
  obtain ⟨ps, hps, haccepts⟩ := h
  obtain ⟨rest, hrest, rfl⟩ := hps.single ht
  exact ⟨rest, hrest, fun f n hmem => haccepts f n (List.mem_cons_of_mem _ hmem)⟩

theorem openParen (h : Sound shapes (.openParen :: ts)) : Sound (none :: shapes) ts := by
  obtain ⟨ps, hps, haccepts⟩ := h
  obtain ⟨rest, hrest, rfl⟩ := hps.openParen
  exact ⟨rest, hrest, fun f n hmem => haccepts f n (List.mem_cons_of_mem _ hmem)⟩

theorem closeParen {group : Option Shape} (h : Sound (group :: shapes) (.closeParen :: ts)) :
    Sound shapes ts := by
  obtain ⟨ps, hps, haccepts⟩ := h
  obtain ⟨rest, hrest, rfl⟩ := hps.closeParen
  exact ⟨rest, hrest, fun f n hmem =>
    haccepts f n (List.mem_append_right _ (List.mem_cons_of_mem _ hmem))⟩

theorem separator {t : Token} (ht : t = .comma ∨ t = .semicolon) (h : Sound shapes (t :: ts)) :
    Sound shapes ts := by
  rcases ht with rfl | rfl
  · exact h.single rfl
  · obtain ⟨ps, hps, haccepts⟩ := h
    obtain ⟨rest, hrest, rfl⟩ := hps.semicolon
    exact ⟨rest, hrest, fun f n hmem => haccepts f n (List.mem_cons_of_mem _ hmem)⟩

theorem literal (h : Sound shapes (.literalStart :: .openParen :: ts)) :
    ∃ shape, literalShape ts = .ok shape ∧ Sound (some shape :: shapes) ts := by
  obtain ⟨ps, hps, haccepts⟩ := h
  obtain ⟨shape, rest, hshape, hrest, rfl⟩ := hps.literal
  exact ⟨shape, hshape, rest, hrest, fun f n hmem =>
    haccepts f n (List.mem_cons_of_mem _ (List.mem_cons_of_mem _ hmem))⟩

theorem function {f : Builtin} (h : Sound shapes (.function f none :: .openParen :: ts)) :
    f.accepts (ownAhead isSeparator ts + 1) = true ∧ Sound (none :: shapes) ts := by
  obtain ⟨ps, hps, haccepts⟩ := h
  obtain ⟨inner, rest, n, hinner, hrest, rfl, hn⟩ := hps.function
  cases hinner
  have hcall := haccepts f n List.mem_cons_self
  have hpos := accepts_pos hcall
  have hgroup : Sound shapes (.openParen :: ts) :=
    ⟨rest, hrest, fun g m hmem => haccepts g m (List.mem_cons_of_mem _ hmem)⟩
  refine ⟨?_, hgroup.openParen⟩
  rcases hn with rfl | rfl
  · omega
  · exact hcall

/-- What holds of each part of sound tokens with separators between them. -/
theorem joined {α : Type} {P : α → Prop} {f : α → List Token} {t : Token}
    (ht : t = .comma ∨ t = .semicolon) {xs : List α}
    (hparts : ∀ x ∈ xs, ∀ rest, Sound shapes (f x ++ rest) → P x ∧ Sound shapes rest)
    {rest : List Token} (h : Sound shapes (Infix.joined t (xs.map f) ++ rest)) :
    (∀ x ∈ xs, P x) ∧ Sound shapes rest := by
  induction xs with
  | nil => exact ⟨List.forall_mem_nil _, h⟩
  | cons x xs ih =>
    rw [List.map_cons, Infix.joined, List.append_assoc] at h
    obtain ⟨hx, hrest⟩ := hparts x (by simp) _ h
    cases xs with
    | nil => exact ⟨by simpa using hx, hrest⟩
    | cons y ys =>
      have htail : Sound shapes (Infix.joined t ((y :: ys).map f) ++ rest) := hrest.separator ht
      obtain ⟨hothers, hend⟩ := ih (fun z hz => hparts z (List.mem_cons_of_mem _ hz)) htail
      exact ⟨List.forall_mem_cons.mpr ⟨hx, hothers⟩, hend⟩

end Sound

/-- **What comes through the passes has the right numbers of arguments and cells.** -/
theorem wellFormed_of_sound {t : Infix} (h : t.Rough) {shapes : List (Option Shape)}
    {rest : List Token} (hsound : Sound shapes (t.spell .bracketed ++ rest)) :
    t.WellFormed ∧ Sound shapes rest := by
  induction h generalizing shapes rest with
  | number value => exact ⟨.number value, hsound.single rfl⟩
  | name text => exact ⟨.name text, hsound.single rfl⟩
  | @paren t h ih =>
    rw [spell, List.cons_append, List.append_assoc] at hsound
    obtain ⟨hwf, hclose⟩ := ih hsound.openParen
    exact ⟨.paren hwf, hclose.closeParen⟩
  | @call f arguments hne h ih =>
    rw [spell, spellAll_eq_map, List.cons_append, List.cons_append, List.append_assoc] at hsound
    obtain ⟨haccepts, hinside⟩ := hsound.function
    obtain ⟨hwf, hclose⟩ := hinside.joined (.inl rfl) fun t ht rest => ih t ht
    -- there is one argument more than there are separators
    have hadds : Adds (arguments.length - 1)
        (joined .comma (arguments.map (spell .bracketed))) := by
      have hparts : ∀ part ∈ arguments.map (spell .bracketed), Adds 0 part := by
        intro part hpart
        obtain ⟨t, ht, rfl⟩ := List.mem_map.mp hpart
        exact fun n ns rest hrest => (ahead_spell (h t ht) rest).trans hrest
      have hjoined := Adds.joined (by simpa using hne) hparts
      rwa [List.length_map] at hjoined
    have hlength := List.length_pos_iff.mpr hne
    rw [ownAhead, hadds 0 _ _ rfl, List.headD_cons, Nat.zero_add, Nat.sub_add_cancel hlength]
      at haccepts
    exact ⟨.call haccepts hwf, hclose.closeParen⟩
  | @literal rows hrows hne h ih =>
    change Sound shapes (.literalStart :: .openParen ::
      ((joined .semicolon (spellRows .bracketed rows) ++ [.closeParen]) ++ rest)) at hsound
    rw [List.append_assoc] at hsound
    obtain ⟨shape, hshape, hinside⟩ := hsound.literal
    rw [spellRows_eq_map] at hinside
    obtain ⟨hwf, hclose⟩ := hinside.joined (.inr rfl) fun row hr rest hrow =>
      hrow.joined (.inl rfl) fun t ht rest => ih row hr t ht
    -- rows of one length have the length of the first
    obtain ⟨inside, rest', hsplit, -, hcols⟩ := rows_of_literalShape hshape
    rw [List.singleton_append, (nested_spellRows hwf).splitParens] at hsplit
    cases hsplit
    rw [rowLengths_spellRows hrows hne hwf] at hcols
    have hlength : ∀ row ∈ rows, row.length = shape.cols := fun row hr =>
      hcols _ (List.mem_map_of_mem hr)
    obtain ⟨first, others, rfl⟩ := List.exists_cons_of_ne_nil hrows
    have hfirst : (shapeOf (first :: others)).cols = shape.cols := hlength first (by simp)
    refine ⟨.literal hrows ?_ ?_ hwf, hclose.closeParen⟩
    · exact List.length_pos_iff.mpr (hne first (by simp))
    · intro row hr
      rw [hfirst, hlength row hr]
  | @before p t h ih =>
    obtain ⟨hwf, hrest⟩ := ih (hsound.single rfl)
    exact ⟨.before p hwf, hrest⟩
  | @between op a b hop ha hb iha ihb =>
    rw [spell, List.append_assoc] at hsound
    obtain ⟨hwfa, hright⟩ := iha hsound
    obtain ⟨hwfb, hrest⟩ := ihb (hright.single rfl)
    exact ⟨.between hop hwfa hwfb, hrest⟩
  | @quote t h ih =>
    rw [spell, List.append_assoc] at hsound
    obtain ⟨hwf, hquote⟩ := ih hsound
    exact ⟨.quote hwf, hquote.single rfl⟩
  | @index t i ht hi iht ihi =>
    rw [spell, List.append_assoc] at hsound
    obtain ⟨hwft, hindex⟩ := iht hsound
    change Sound shapes (.operator (.binary .index) :: .openParen ::
      ((i.spell .bracketed ++ [.closeParen]) ++ rest)) at hindex
    rw [List.append_assoc] at hindex
    obtain ⟨hwfi, hclose⟩ := ihi (hindex.single rfl).openParen
    exact ⟨.index hwft hwfi, hclose.closeParen⟩

/-! ## Derivations are in place -/

/-- Where an operand may begin, the reader comes through some tokens, as behind an operand. -/
def Passes (groups : List Enclosure) (ts : List Token) : Prop :=
  ∀ rest, placedFrom .before groups (ts ++ rest) = placedFrom .after groups rest

theorem Passes.join {groups : List Enclosure} {a b : List Token} {t : Token} (ha : Passes groups a)
    (hb : Passes groups b) (ht : regroup .after groups t = some groups)
    (hplace : t.place = .before) : Passes groups (a ++ t :: b) := by
  intro rest
  rw [List.append_assoc, ha, List.cons_append, placedFrom, ht]
  dsimp only
  rw [hplace, hb]

theorem passes {t : Infix} (h : t.Rough) (groups : List Enclosure) : Passes groups t.tokens := by
  induction h generalizing groups with
  | number value => exact fun rest => rfl
  | name text => exact fun rest => rfl
  | @paren t h ih =>
    intro rest
    rw [tokens_paren, List.cons_append, List.append_assoc]
    exact ih (.plain :: groups) (.closeParen :: rest)
  | @call f arguments hne h ih =>
    intro rest
    have hjoined : Passes (.call :: groups) (joined .comma (arguments.map tokens)) :=
      joined_closed (fun ha hb => ha.join hb rfl rfl) hne fun t ht => ih t ht _
    rw [tokens_call, List.cons_append, List.cons_append, List.append_assoc]
    exact hjoined (.closeParen :: rest)
  | @literal rows hrows hne h ih =>
    intro rest
    have hjoined : Passes (.literal :: groups)
        (joined .semicolon (rows.map fun row => joined .comma (row.map tokens))) :=
      joinedRows_closed (fun ha hb => ha.join hb rfl rfl) (fun ha hb => ha.join hb rfl rfl) hrows
        hne fun row hr t ht => ih row hr t ht _
    rw [tokens_literal, List.cons_append, List.append_assoc]
    exact hjoined (.closeBracket :: rest)
  | @before p t h ih =>
    intro rest
    cases p <;> exact ih groups rest
  | @between op a b hop ha hb iha ihb => exact (iha groups).join (ihb groups) (if_neg hop) rfl
  | @quote t h ih =>
    intro rest
    rw [tokens_quote, List.append_assoc]
    exact ih groups (.operator .transpose :: rest)
  | @index t i ht hi iht ihi =>
    intro rest
    rw [tokens_index, List.append_assoc, List.cons_append, List.append_assoc, iht]
    exact ihi (.index :: groups) (.closeBracket :: rest)

/-- **No token of a derivation is out of place.** -/
theorem placed_of_renders {ts : List Token} (h : Renders ts) : placed ts = true := by
  obtain ⟨t, ht, rfl⟩ := h
  have hpasses := passes ht.rough [] []
  rw [List.append_nil] at hpasses
  exact hpasses

/-- **Accepted tokens that are in place have a derivation.** -/
theorem renders_of_placed {ts : List Token} {e : Expr} (h : Expr.ofTokens ts = .ok e)
    (hplaced : placed ts = true) : Renders ts := by
  have halternates := alternates_of_placed h hplaced
  obtain ⟨ps, hprepare, h⟩ := exists_of_bind_eq_ok h
  obtain ⟨code, hcode, hbuild⟩ := exists_of_bind_eq_ok h
  obtain ⟨stack, hsteps, -⟩ := exists_of_bind_eq_ok hbuild
  obtain ⟨rs, hrs, harity⟩ := exists_of_bind_eq_ok hprepare
  have hprepares : Prepares [] (resolveBracketsAfter none ts) ps := ⟨rs, hrs, harity⟩
  obtain ⟨t, ht, rfl⟩ := (Reached.inside .outermost).exists_rough hplaced halternates
    ⟨_, _, _, hprepares⟩ (by rintro ⟨⟩)
  have hbrackets := settles ht none [] rfl
  rw [List.append_nil] at hbrackets
  rw [hbrackets] at hprepares
  have hsound : Sound [] (t.spell .bracketed ++ []) := ⟨ps, hprepares, fun f n hmem =>
    Expr.accepts_of_steps hsteps (Postfix.call_mem_convert hcode (.inl hmem))⟩
  exact ⟨t, (wellFormed_of_sound ht hsound).1, rfl⟩

end Infix

/-- **What is accepted.**  All groups of an expression that is accepted are closed, by a bracket of
either kind, and no separator is outside of them.  The expression has a derivation exactly if none
of its tokens is out of place. -/
theorem accepted_renders_iff {ts : List Token} {e : Expr} (h : Expr.ofTokens ts = .ok e) :
    Token.closed ts = true ∧ (Infix.Renders ts ↔ Token.placed ts = true) :=
  ⟨Token.closed_of_accepted h, Infix.placed_of_renders, Infix.renders_of_placed h⟩

/-- `max(-a[1], 2)' _ [1, 2; 3, !b]` -/
def signsAndGroups : List Token :=
  [.function .max none, .openParen, .operator (.binary .sub), .name "a", .openBracket, .number 1,
    .closeBracket, .comma, .number 2, .closeParen, .operator .transpose, .operator (.binary .below),
    .openBracket, .number 1, .comma, .number 2, .semicolon, .number 3, .comma, .operator .bang,
    .name "b", .closeBracket]

theorem accepted_renders_iff_signsAndGroups :
    ∃ e, Expr.ofTokens signsAndGroups = .ok e ∧ Token.closed signsAndGroups = true ∧
      (Infix.Renders signsAndGroups ↔ Token.placed signsAndGroups = true) :=
  ⟨_, rfl, accepted_renders_iff rfl⟩

/-- Tokens in postfix order are accepted, and have no derivation: the second operand directly
follows the first. -/
theorem accepts_without_derivation :
    (∃ e, Expr.ofTokens [.number 1, .number 2, .operator (.binary .add)] = .ok e) ∧
      ¬ Infix.Renders [.number 1, .number 2, .operator (.binary .add)] := by
  refine ⟨⟨_, rfl⟩, fun h => ?_⟩
  have hplaced := Infix.placed_of_renders h
  cases hplaced

end MatrixLang

import MatrixLang.Proofs.OperandCounts
import MatrixLang.Proofs.Separators

/-! # Where tokens stand

Tokens are read from the left.  `regroup` keeps the groups that are open, the innermost first, and
refuses a token that is out of place: an operand directly after another one, a bracket that closes
a group of another kind, a comma that is neither between arguments nor between cells, and a
semicolon that is not between rows.  Tokens that pass are `placed`.

That an operator finds its operands is not asked, but follows for tokens that are accepted.  Every
operator and separator uses up one operand more than it makes, so tokens that come to one tree in
the end cannot spare any (`alternates_of_placed`).
-/

namespace MatrixLang

/-- What a group of tokens is. -/
inductive Enclosure where
  /-- The arguments of a call. -/
  | call
  /-- An expression in parentheses. -/
  | plain
  /-- The position of an element. -/
  | index
  /-- The rows of a matrix literal. -/
  | literal
deriving DecidableEq, Repr, Inhabited

/-- Whether a group has more than one part. -/
def Enclosure.isDivided : Enclosure → Bool
  | .call | .literal => true
  | .plain | .index => false

/-- Where the reader of an expression stands. -/
inductive Place where
  /-- Where an operand may begin. -/
  | before
  /-- Behind the name of a function. -/
  | named
  /-- Behind an operand. -/
  | after
deriving DecidableEq, Repr, Inhabited

/-- The operands that stand right before a place. -/
def Place.operands : Place → Int
  | .after => 1
  | _ => 0

namespace Token

/-- The place behind a token. -/
def place : Token → Place
  | .number _ | .name _ | .closeParen | .closeBracket | .operator .transpose => .after
  | .function .. => .named
  | _ => .before

/-- The groups that are open behind a token, if it is not out of place. -/
def regroup (place : Place) (groups : List Enclosure) : Token → Option (List Enclosure)
  | .number _ | .name _ | .function _ none | .operator .neg | .operator .not | .operator .bang =>
    if place = .after then none else some groups
  | .operator .transpose => some groups
  | .operator (.binary op) => if op = .index then none else some groups
  | .openParen =>
    match place with
    | .before => some (.plain :: groups)
    | .named => some (.call :: groups)
    | .after => none
  | .openBracket => some ((if place = .after then .index else .literal) :: groups)
  | .closeParen =>
    match groups with
    | .call :: groups | .plain :: groups => some groups
    | _ => none
  | .closeBracket =>
    match groups with
    | .index :: groups | .literal :: groups => some groups
    | _ => none
  | .comma =>
    match groups with
    | .call :: _ | .literal :: _ => some groups
    | _ => none
  | .semicolon =>
    match groups with
    | .literal :: _ => some groups
    | _ => none
  | _ => none

/-- Whether no token is out of place, and all groups are closed. -/
def placedFrom (place : Place) (groups : List Enclosure) : List Token → Bool
  | [] => groups.isEmpty
  | t :: ts =>
    match regroup place groups t with
    | some groups => placedFrom t.place groups ts
    | none => false

/-- Whether no token of an expression is out of place. -/
def placed (ts : List Token) : Bool :=
  placedFrom .before [] ts

/-- The rules by which a token may stand at a place in some groups, with the groups that are open
behind it. -/
inductive Fits (place : Place) (groups : List Enclosure) : Token → List Enclosure → Prop
  | number (value : Float) (h : place ≠ .after) : Fits place groups (.number value) groups
  | name (text : String) (h : place ≠ .after) : Fits place groups (.name text) groups
  | function (f : Builtin) (h : place ≠ .after) : Fits place groups (.function f none) groups
  | sign {op : Operator} (hop : op.standsBefore = true) (h : place ≠ .after) :
      Fits place groups (.operator op) groups
  | quote : Fits place groups (.operator .transpose) groups
  | binary {op : BinaryOperator} (hop : op ≠ .index) :
      Fits place groups (.operator (.binary op)) groups
  | plain (h : place = .before) : Fits place groups .openParen (.plain :: groups)
  | call (h : place = .named) : Fits place groups .openParen (.call :: groups)
  | index (h : place = .after) : Fits place groups .openBracket (.index :: groups)
  | literal (h : place ≠ .after) : Fits place groups .openBracket (.literal :: groups)
  | closeParen {group : Enclosure} {others : List Enclosure} (h : groups = group :: others)
      (hgroup : group = .call ∨ group = .plain) : Fits place groups .closeParen others
  | closeBracket {group : Enclosure} {others : List Enclosure} (h : groups = group :: others)
      (hgroup : group = .index ∨ group = .literal) : Fits place groups .closeBracket others
  | comma {group : Enclosure} {others : List Enclosure} (h : groups = group :: others)
      (hgroup : group.isDivided = true) : Fits place groups .comma groups
  | semicolon {others : List Enclosure} (h : groups = .literal :: others) :
      Fits place groups .semicolon groups

/-- The groups behind a token are those of a rule. -/
theorem fits_of_regroup {place : Place} {groups groups' : List Enclosure} {t : Token}
    (h : regroup place groups t = some groups') : Fits place groups t groups' := by
  cases t with
  | number value =>
    obtain ⟨hplace, heq⟩ := Option.ite_none_left_eq_some.mp h
    cases heq
    exact .number value hplace
  | name text =>
    obtain ⟨hplace, heq⟩ := Option.ite_none_left_eq_some.mp h
    cases heq
    exact .name text hplace
  | function f arity =>
    cases arity with
    | none =>
      obtain ⟨hplace, heq⟩ := Option.ite_none_left_eq_some.mp h
      cases heq
      exact .function f hplace
    | some n => cases h
  | operator op =>
    cases op with
    | neg | not | bang =>
      obtain ⟨hplace, heq⟩ := Option.ite_none_left_eq_some.mp h
      cases heq
      exact .sign rfl hplace
    | transpose =>
      cases h
      exact .quote
    | binary op =>
      obtain ⟨hop, heq⟩ := Option.ite_none_left_eq_some.mp h
      cases heq
      exact .binary hop
    | literal rows cols => cases h
  | openParen =>
    cases place with
    | before =>
      cases h
      exact .plain rfl
    | named =>
      cases h
      exact .call rfl
    | after => cases h
  | openBracket =>
    cases h
    by_cases hplace : place = .after
    · rw [if_pos hplace]
      exact .index hplace
    · rw [if_neg hplace]
      exact .literal hplace
  | closeParen =>
    cases groups with
    | nil => cases h
    | cons group others =>
      cases group with
      | call | plain =>
        cases h
        exact .closeParen rfl (by simp)
      | index | literal => cases h
  | closeBracket =>
    cases groups with
    | nil => cases h
    | cons group others =>
      cases group with
      | call | plain => cases h
      | index | literal =>
        cases h
        exact .closeBracket rfl (by simp)
  | comma =>
    cases groups with
    | nil => cases h
    | cons group others =>
      cases group with
      | call | literal =>
        cases h
        exact .comma rfl rfl
      | plain | index => cases h
  | semicolon =>
    cases groups with
    | nil => cases h
    | cons group others =>
      cases group with
      | literal =>
        cases h
        exact .semicolon rfl
      | call | plain | index => cases h
  | _ => cases h

/-- Tokens that are in place begin with one that fits. -/
theorem fits_of_placed {place : Place} {groups : List Enclosure} {t : Token} {ts : List Token}
    (h : placedFrom place groups (t :: ts) = true) :
    ∃ groups', Fits place groups t groups' ∧ placedFrom t.place groups' ts = true := by
  rw [placedFrom] at h
  split at h
  · rename_i groups' hregroup
    exact ⟨groups', fits_of_regroup hregroup, h⟩
  · cases h

/-! ## Operands that are needed -/

/-- Whether a token needs an operand before it. -/
def needsOperand : Token → Bool
  | .closeParen | .closeBracket | .comma | .semicolon | .operator .transpose => true
  | .operator (.binary op) => op != .sub
  | _ => false

/-- Every token that needs an operand before it has one, and the last one ends an operand. -/
def Alternates (place : Place) : List Token → Prop
  | [] => place = .after
  | t :: ts => (t.needsOperand = true → place = .after) ∧ Alternates t.place ts

/-- The operands that a token makes, less those that it uses up. -/
def gain (place : Place) : Token → Int
  | .number _ | .name _ => 1
  | .comma | .semicolon => -1
  | .openBracket => if place = .after then -1 else 0
  | .operator (.binary op) => if op = .sub ∧ place ≠ .after then 0 else -1
  | _ => 0

/-- The operands that some tokens make, less those that they use up. -/
def gains (place : Place) : List Token → Int
  | [] => 0
  | t :: ts => gain place t + gains t.place ts

/-- A token that fits gains at most what it changes the place by, and less if it needs an operand
that is not there. -/
theorem gain_le {place : Place} {groups groups' : List Enclosure} {t : Token}
    (h : Fits place groups t groups') :
    gain place t + place.operands ≤ t.place.operands ∧
      (gain place t + place.operands = t.place.operands → t.needsOperand = true →
        place = .after) := by
  cases place with
  | after =>
    refine ⟨?_, fun _ _ => rfl⟩
    cases h with
    | binary hop => simp [gain, Token.place, Place.operands]
    | number _ h | name _ h | function _ h | sign _ h | literal h => exact absurd rfl h
    | plain h | call h => cases h
    | quote | index | closeParen | closeBracket | comma | semicolon => decide
  | before | named =>
    cases h with
    | @binary op hop =>
      by_cases hsub : op = .sub
      · simp [gain, Token.place, Place.operands, needsOperand, hsub]
      · simp [gain, Token.place, Place.operands, hsub]
    | index h => cases h
    | @sign op hop h =>
      cases op with
      | neg | not | bang => simp [gain, Token.place, Place.operands, needsOperand]
      | binary | transpose | literal => cases hop
    | _ => simp [gain, Token.place, Place.operands, needsOperand]

/-- Tokens that are in place gain at most one operand, and less if a token needs an operand that
is not there. -/
theorem gains_le {ts : List Token} {place : Place} {groups : List Enclosure}
    (h : placedFrom place groups ts = true) :
    gains place ts + place.operands ≤ 1 ∧
      (gains place ts + place.operands = 1 → Alternates place ts) := by
  induction ts generalizing place groups with
  | nil =>
    cases place with
    | before | named => simp [gains, Place.operands]
    | after => simp [gains, Place.operands, Alternates]
  | cons t ts ih =>
    obtain ⟨groups', hfits, hrest⟩ := fits_of_placed h
    obtain ⟨hle, halternates⟩ := ih hrest
    obtain ⟨hgain, hneeds⟩ := gain_le hfits
    rw [gains]
    exact ⟨by omega, fun heq => ⟨hneeds (by omega), halternates (by omega)⟩⟩

/-! ## Groups without separators -/

/-- Of the separators that are ahead, none is in a group that has only one part. -/
def Undivided : List Enclosure → List Nat → Prop
  | [], [] => True
  | group :: groups, n :: ns => (group.isDivided = false → n = 0) ∧ Undivided groups ns
  | _, _ => False

theorem undivided_nil {ns : List Nat} (h : Undivided [] ns) : ns = [] := by
  cases ns with
  | nil => rfl
  | cons n ns => cases h

theorem undivided_cons {group : Enclosure} {groups : List Enclosure} {ns : List Nat}
    (h : Undivided (group :: groups) ns) :
    ∃ n ns', ns = n :: ns' ∧ (group.isDivided = false → n = 0) ∧ Undivided groups ns' := by
  cases ns with
  | nil => cases h
  | cons n ns => exact ⟨n, ns, rfl, h⟩

theorem undivided_tail {group : Enclosure} {groups : List Enclosure} {ns : List Nat}
    (h : Undivided (group :: groups) ns) : Undivided groups ns.tail := by
  obtain ⟨n, ns', rfl, -, htail⟩ := undivided_cons h
  exact htail

theorem undivided_countOne {group : Enclosure} {groups : List Enclosure} {ns : List Nat}
    (hgroup : group.isDivided = true) (h : Undivided (group :: groups) ns) :
    Undivided (group :: groups) (countOne ns) := by
  obtain ⟨n, ns', rfl, -, htail⟩ := undivided_cons h
  exact ⟨fun hnot => Bool.noConfusion (hgroup.symm.trans hnot), htail⟩

/-- Tokens that are in place have no separators ahead in groups that have only one part. -/
theorem undivided_of_placed {ts : List Token} {place : Place} {groups : List Enclosure}
    (h : placedFrom place groups ts = true) (last : Option Token) :
    Undivided groups (ahead isSeparator (resolveBracketsAfter last ts)) := by
  induction ts generalizing place groups last with
  | nil =>
    cases groups with
    | nil => trivial
    | cons group groups => cases h
  | cons t ts ih =>
    obtain ⟨groups', hfits, hrest⟩ := fits_of_placed h
    cases hfits with
    | number | name | function | sign | quote | binary =>
      rw [resolveBracketsAfter_cons _ _ rfl rfl, ahead_other rfl rfl rfl]
      exact ih hrest _
    | plain | call =>
      rw [resolveBracketsAfter_cons _ _ rfl rfl, ahead]
      exact undivided_tail (ih hrest _)
    | index | literal =>
      rw [resolveBracketsAfter, ahead_other (by split <;> rfl) (by split <;> rfl)
        (by split <;> rfl), ahead]
      exact undivided_tail (ih hrest _)
    | closeParen hgroups | closeBracket hgroups =>
      subst hgroups
      show Undivided _ (0 :: ahead isSeparator (resolveBracketsAfter _ ts))
      exact ⟨fun _ => rfl, ih hrest _⟩
    | comma hgroups hgroup =>
      subst hgroups
      rw [resolveBracketsAfter_cons _ _ rfl rfl, ahead_separator rfl rfl rfl]
      exact undivided_countOne hgroup (ih hrest _)
    | semicolon hgroups =>
      subst hgroups
      rw [resolveBracketsAfter_cons _ _ rfl rfl, ahead_separator rfl rfl rfl]
      exact undivided_countOne rfl (ih hrest _)

/-! ## The weight of tokens that are in place -/

open Postfix (weigh weight minusIsUnary operatorAfter lastAfter)

/-- The place agrees with the tokens that the pass for brackets and the one to postfix code look
back to. -/
structure Synced (place : Place) (last lastCode : Option Token) : Prop where
  bracket : place ≠ .named → opensLiteral last = (place != .after)
  minus : minusIsUnary lastCode = (place != .after)

/-- The separators of a call whose name has been read. -/
def called : Place → List Token → Nat
  | .named, .openParen :: ts => ownAhead isSeparator ts
  | _, _ => 0

/-- The pass for brackets makes no new parenthesis without a token before it. -/
theorem openParen_of_resolveBracketsAfter {last : Option Token} {ts inner : List Token}
    (h : resolveBracketsAfter last ts = .openParen :: inner) :
    ∃ inner', ts = .openParen :: inner' := by
  cases ts with
  | nil => cases h
  | cons t ts =>
    cases t with
    | openParen => exact ⟨ts, rfl⟩
    | openBracket =>
      rw [resolveBracketsAfter] at h
      split at h <;> cases h
    | _ => cases h

theorem sum_eq_head_add_tail (ns : List Nat) : ns.sum = ns.headD 0 + ns.tail.sum := by
  cases ns with
  | nil => rfl
  | cons n ns => exact List.sum_cons

theorem sum_countOne {group : Enclosure} {groups : List Enclosure} {ns : List Nat}
    (h : Undivided (group :: groups) ns) : (countOne ns).sum = ns.sum + 1 := by
  obtain ⟨n, ns', rfl, -⟩ := undivided_cons h
  rw [countOne, List.sum_cons, List.sum_cons]
  omega

/-- The separators ahead of a group that has only one part. -/
theorem sum_tail_of_undivided {group : Enclosure} {groups : List Enclosure} {ns : List Nat}
    (hgroup : group.isDivided = false) (h : Undivided (group :: groups) ns) :
    ns.tail.sum = ns.sum := by
  obtain ⟨n, ns', rfl, hn, -⟩ := undivided_cons h
  rw [List.tail_cons, List.sum_cons, hn hgroup, Nat.zero_add]

theorem called_of_ne_named {place : Place} (h : place ≠ .named) (ts : List Token) :
    called place ts = 0 := by
  cases place with
  | before | after => rfl
  | named => exact absurd rfl h

theorem called_before (ts : List Token) : called .before ts = 0 := rfl

theorem called_after (ts : List Token) : called .after ts = 0 := rfl

theorem called_cons {t : Token} (h : t.isOpenParen = false) (place : Place) (ts : List Token) :
    called place (t :: ts) = 0 := by
  cases place with
  | before | after => rfl
  | named =>
    cases t with
    | openParen => cases h
    | _ => rfl

/-- The weight of tokens after they have been prepared is what they gain, but for the separators of
groups whose start is not among them: a separator weighs nothing, and makes the call or the literal
around it lighter. -/
def Weighs (place : Place) (ts : List Token) : Prop :=
  ∀ ps shapes last lastCode, Prepares shapes (resolveBracketsAfter last ts) ps →
    (∀ f n, .function f (some n) ∈ ps → f.accepts n = true) → Synced place last lastCode →
    (place = .named → ∃ inner, ts = .openParen :: inner) →
    weigh lastCode ps = gains place ts +
      ((ahead isSeparator (resolveBracketsAfter last ts)).sum : Nat) +
      (called place (resolveBracketsAfter last ts) : Nat)

/-- Whether a token is an operand by itself or an operator.  Such tokens come through all passes
as they are. -/
def isAtom : Token → Bool
  | .number _ | .name _ | .operator _ => true
  | _ => false

namespace Weighs

variable {place : Place} {ts : List Token}

theorem nil (place : Place) : Weighs place [] := by
  intro ps shapes last lastCode hps haccepts hsynced hnamed
  obtain ⟨rs, hrs, harity⟩ := hps
  cases hrs
  cases harity
  have hcalled : called place [] = 0 := by cases place <;> rfl
  rw [resolveBracketsAfter, hcalled]
  rfl

theorem atom {t : Token} (ht : t.isAtom = true) (h : Weighs t.place ts)
    (hplace : t.place ≠ .named) (hsynced : Synced t.place (some t) (some t))
    (hweight : ∀ last, minusIsUnary last = (place != .after) → weight last t = gain place t) :
    Weighs place (t :: ts) := by
  intro ps shapes last lastCode hps haccepts hlast hnamed
  cases t with
  | number value | name text | operator op =>
    rw [resolveBracketsAfter_cons _ _ rfl rfl] at hps ⊢
    obtain ⟨rest, hprepares, rfl⟩ := hps.single rfl
    have hrest := h rest shapes _ _ hprepares
      (fun f n hmem => haccepts f n (List.mem_cons_of_mem _ hmem)) hsynced
      (fun hnamed => absurd hnamed hplace)
    rw [called_of_ne_named hplace] at hrest
    rw [weigh, lastAfter, hrest, hweight _ hlast.minus, gains, ahead_other rfl rfl rfl,
      called_cons rfl, Int.add_assoc, Int.add_assoc, Int.add_assoc]
    rintro ⟨⟩
  | _ => cases ht

theorem function (f : Builtin) (h : Weighs .named ts) (place : Place) :
    Weighs place (.function f none :: ts) := by
  intro ps shapes last lastCode hps haccepts hlast hnamed
  rw [resolveBracketsAfter_cons _ _ rfl rfl] at hps ⊢
  obtain ⟨inner, rest, n, hinner, hprepares, rfl, hn⟩ := hps.function
  have hrest := h rest shapes _ (some (.function f (some n))) hprepares
    (fun g m hmem => haccepts g m (List.mem_cons_of_mem _ hmem)) ⟨fun hne => absurd rfl hne, rfl⟩
    (fun _ => openParen_of_resolveBracketsAfter hinner)
  -- no function is called without arguments
  have hpos := Infix.accepts_pos (haccepts f n List.mem_cons_self)
  have hcalled : called .named (resolveBracketsAfter (some (.function f none)) ts) + 1 = n := by
    rw [hinner, called]
    omega
  have hweigh : weigh lastCode (.function f (some n) :: rest) =
      (1 - n) + weigh (some (.function f (some n))) rest := rfl
  have hgains : gains place (.function f none :: ts) = gains .named ts := Int.zero_add _
  rw [hweigh, hrest, hgains, ahead_other rfl rfl rfl, called_cons rfl]
  omega

theorem plain (h : Weighs .before ts)
    (hgroup : ∀ last, (ahead isSeparator (resolveBracketsAfter last ts)).tail.sum =
      (ahead isSeparator (resolveBracketsAfter last ts)).sum) :
    Weighs .before (.openParen :: ts) := by
  intro ps shapes last lastCode hps haccepts hlast hnamed
  rw [resolveBracketsAfter_cons _ _ rfl rfl] at hps ⊢
  obtain ⟨rest, hprepares, rfl⟩ := hps.openParen
  have hrest := h rest _ _ lastCode hprepares
    (fun g m hmem => haccepts g m (List.mem_cons_of_mem _ hmem)) ⟨fun _ => rfl, hlast.minus⟩
    (by rintro ⟨⟩)
  have hweigh : weigh lastCode (.openParen :: rest) = weigh lastCode rest := Int.zero_add _
  have hgains : gains .before (.openParen :: ts) = gains .before ts := Int.zero_add _
  rw [hweigh, hrest, hgains, ahead, hgroup]
  rfl

theorem call (h : Weighs .before ts) : Weighs .named (.openParen :: ts) := by
  intro ps shapes last lastCode hps haccepts hlast hnamed
  rw [resolveBracketsAfter_cons _ _ rfl rfl] at hps ⊢
  obtain ⟨rest, hprepares, rfl⟩ := hps.openParen
  have hrest := h rest _ _ lastCode hprepares
    (fun g m hmem => haccepts g m (List.mem_cons_of_mem _ hmem)) ⟨fun _ => rfl, hlast.minus⟩
    (by rintro ⟨⟩)
  have hweigh : weigh lastCode (.openParen :: rest) = weigh lastCode rest := Int.zero_add _
  have hgains : gains .named (.openParen :: ts) = gains .before ts := Int.zero_add _
  have hown := sum_eq_head_add_tail (ahead isSeparator (resolveBracketsAfter (some .openParen) ts))
  rw [hweigh, hrest, hgains, ahead, called_before, called, ownAhead]
  omega

theorem index (h : Weighs .before ts)
    (hgroup : ∀ last, (ahead isSeparator (resolveBracketsAfter last ts)).tail.sum =
      (ahead isSeparator (resolveBracketsAfter last ts)).sum) :
    Weighs .after (.openBracket :: ts) := by
  intro ps shapes last lastCode hps haccepts hlast hnamed
  have hopens : opensLiteral last = false := hlast.bracket (by rintro ⟨⟩)
  rw [resolveBracketsAfter, if_neg (Bool.not_eq_true _ ▸ hopens)] at hps ⊢
  obtain ⟨group, hgroup', rfl⟩ := hps.single rfl
  obtain ⟨rest, hprepares, rfl⟩ := hgroup'.openParen
  have hrest := h rest _ _ (some (.operator (.binary .index))) hprepares
    (fun g m hmem => haccepts g m (List.mem_cons_of_mem _ (List.mem_cons_of_mem _ hmem)))
    ⟨fun _ => rfl, rfl⟩ (by rintro ⟨⟩)
  have hweigh : weigh lastCode (.operator (.binary .index) :: .openParen :: rest) =
      -1 + (0 + weigh (some (.operator (.binary .index))) rest) := rfl
  have hgains : gains .after (.openBracket :: ts) = -1 + gains .before ts := rfl
  rw [hweigh, hrest, hgains, ahead_other rfl rfl rfl, ahead, hgroup, called_before,
    called_after]
  omega

theorem literal (h : Weighs .before ts) (hplace : place ≠ .after) :
    Weighs place (.openBracket :: ts) := by
  intro ps shapes last lastCode hps haccepts hlast hnamed
  have hopens : opensLiteral last = true := by
    rw [hlast.bracket fun hname => by obtain ⟨_, ⟨⟩⟩ := hnamed hname]
    exact bne_iff_ne.mpr hplace
  rw [resolveBracketsAfter, if_pos hopens] at hps ⊢
  obtain ⟨shape, rest, hshape, hprepares, rfl⟩ := hps.literal
  have hrest := h rest _ _ (some (.operator (.literal shape.rows shape.cols))) hprepares
    (fun g m hmem => haccepts g m (List.mem_cons_of_mem _ (List.mem_cons_of_mem _ hmem)))
    ⟨fun _ => rfl, rfl⟩ (by rintro ⟨⟩)
  have hweigh : weigh lastCode (.operator (.literal shape.rows shape.cols) :: .openParen :: rest) =
      (1 - (shape.rows * shape.cols : Nat)) +
        (0 + weigh (some (.operator (.literal shape.rows shape.cols))) rest) := rfl
  have hgains : gains place (.openBracket :: ts) = gains .before ts := by
    rw [gains, gain, if_neg hplace]
    exact Int.zero_add _
  have hsize := size_of_literalShape hshape
  have hown := sum_eq_head_add_tail (ahead isSeparator (resolveBracketsAfter (some .openParen) ts))
  rw [ownAhead] at hsize
  rw [hweigh, hrest, hgains, ahead_other rfl rfl rfl, ahead, hsize, called_before,
    called_cons rfl]
  omega

theorem close {t : Token} (ht : t = .closeParen ∨ t = .closeBracket) (h : Weighs .after ts)
    (place : Place) : Weighs place (t :: ts) := by
  intro ps shapes last lastCode hps haccepts hlast hnamed
  have hbrackets : resolveBracketsAfter last (t :: ts) =
      .closeParen :: resolveBracketsAfter (some .closeParen) ts := by
    rcases ht with rfl | rfl <;> rfl
  have hgains : gains place (t :: ts) = gains .after ts := by
    rcases ht with rfl | rfl <;> exact Int.zero_add _
  rw [hbrackets] at hps ⊢
  obtain ⟨rest, hprepares, rfl⟩ := hps.closeParen
  have hrest := h rest _ _ (some .closeParen) hprepares
    (fun g m hmem => haccepts g m (List.mem_append_right _ (List.mem_cons_of_mem _ hmem)))
    ⟨fun _ => rfl, rfl⟩ (by rintro ⟨⟩)
  -- the dimensions of a literal weigh nothing
  have hweigh : weigh lastCode (dimensions (shapes.headD none) ++ .closeParen :: rest) =
      weigh (some .closeParen) rest := by
    cases shapes.headD none with
    | none => exact Int.zero_add _
    | some shape =>
      show (0 : Int) + (0 + (0 + (0 + (0 + weigh (some .closeParen) rest)))) = _
      omega
  rw [hweigh, hrest, hgains, ahead, List.sum_cons, called_after, called_cons rfl]
  omega

theorem separator {t : Token} (ht : t = .comma ∨ t = .semicolon) (h : Weighs .before ts)
    (hgroup : ∀ last, (countOne (ahead isSeparator (resolveBracketsAfter last ts))).sum =
      (ahead isSeparator (resolveBracketsAfter last ts)).sum + 1) (place : Place) :
    Weighs place (t :: ts) := by
  intro ps shapes last lastCode hps haccepts hlast hnamed
  have hbrackets : resolveBracketsAfter last (t :: ts) = t :: resolveBracketsAfter (some t) ts := by
    rcases ht with rfl | rfl <;> rfl
  have hgains : gains place (t :: ts) = -1 + gains .before ts := by
    rcases ht with rfl | rfl <;> rfl
  have hahead : ∀ ts, ahead isSeparator (t :: ts) = countOne (ahead isSeparator ts) := by
    rcases ht with rfl | rfl <;> exact fun _ => rfl
  have hcalled : ∀ ts, called place (t :: ts) = 0 := by
    rcases ht with rfl | rfl <;> exact called_cons rfl place
  have hopens : opensLiteral (some t) = true := by
    rcases ht with rfl | rfl <;> rfl
  rw [hbrackets] at hps ⊢
  have hcomma : ∃ rest, Prepares shapes (resolveBracketsAfter (some t) ts) rest ∧
      ps = .comma :: rest := by
    rcases ht with rfl | rfl
    · exact hps.single rfl
    · exact hps.semicolon
  obtain ⟨rest, hprepares, rfl⟩ := hcomma
  have hrest := h rest _ _ (some .comma) hprepares
    (fun g m hmem => haccepts g m (List.mem_cons_of_mem _ hmem)) ⟨fun _ => hopens, rfl⟩
    (by rintro ⟨⟩)
  have hweigh : weigh lastCode (.comma :: rest) = weigh (some .comma) rest := Int.zero_add _
  rw [hweigh, hrest, hgains, hahead, hgroup, hcalled, called_before]
  omega

end Weighs

/-- **Tokens that are in place weigh what they gain.** -/
theorem weighs_of_placed {ts : List Token} {place : Place} {groups : List Enclosure}
    (h : placedFrom place groups ts = true) : Weighs place ts := by
  induction ts generalizing place groups with
  | nil => exact Weighs.nil place
  | cons t ts ih =>
    obtain ⟨groups', hfits, hrest⟩ := fits_of_placed h
    have hundivided := undivided_of_placed hrest
    have htail := ih hrest
    cases hfits with
    | number | name =>
      exact Weighs.atom rfl htail (by rintro ⟨⟩) ⟨fun _ => rfl, rfl⟩ fun _ _ => rfl
    | function f hplace => exact Weighs.function f htail place
    | @sign op hop hplace =>
      cases op with
      | neg | not | bang =>
        refine Weighs.atom rfl htail (by rintro ⟨⟩) ⟨fun _ => rfl, rfl⟩ fun _ _ => ?_
        rw [weight, operatorAfter, if_neg (by rintro ⟨⟨⟩, -⟩)]
        rfl
      | binary | transpose | literal => cases hop
    | quote =>
      refine Weighs.atom rfl htail (by rintro ⟨⟩) ⟨fun _ => rfl, rfl⟩ fun _ _ => ?_
      rw [weight, operatorAfter, if_neg (by rintro ⟨⟨⟩, -⟩)]
      rfl
    | @binary op hop =>
      refine Weighs.atom rfl htail (by rintro ⟨⟩) ⟨fun _ => rfl, rfl⟩ fun last hlast => ?_
      -- a minus is a sign for both readers, or for none
      have hiff : (Operator.binary op = .binary .sub ∧ minusIsUnary last = true) ↔
          (op = .sub ∧ place ≠ .after) := by
        rw [hlast, bne_iff_ne, Operator.binary.injEq]
      rw [weight, operatorAfter, gain]
      by_cases hsign : op = .sub ∧ place ≠ .after
      · rw [if_pos (hiff.mpr hsign), if_pos hsign]
        rfl
      · rw [if_neg (mt hiff.mp hsign), if_neg hsign]
        rfl
    | plain hplace =>
      subst hplace
      exact Weighs.plain htail fun last => sum_tail_of_undivided rfl (hundivided last)
    | call hplace =>
      subst hplace
      exact Weighs.call htail
    | index hplace =>
      subst hplace
      exact Weighs.index htail fun last => sum_tail_of_undivided rfl (hundivided last)
    | literal hplace => exact Weighs.literal htail hplace
    | closeParen => exact Weighs.close (.inl rfl) htail place
    | closeBracket => exact Weighs.close (.inr rfl) htail place
    | comma hgroups =>
      subst hgroups
      exact Weighs.separator (.inl rfl) htail (fun last => sum_countOne (hundivided last)) place
    | semicolon hgroups =>
      subst hgroups
      exact Weighs.separator (.inr rfl) htail (fun last => sum_countOne (hundivided last)) place

/-- **Tokens that are accepted and in place have an operand wherever one is needed.** -/
theorem alternates_of_placed {ts : List Token} {e : Expr} (h : Expr.ofTokens ts = .ok e)
    (hplaced : placed ts = true) : Alternates .before ts := by
  obtain ⟨ps, hprepare, h⟩ := exists_of_bind_eq_ok h
  obtain ⟨code, hcode, hbuild⟩ := exists_of_bind_eq_ok h
  obtain ⟨stack, hsteps, -⟩ := exists_of_bind_eq_ok hbuild
  obtain ⟨rs, hrs, harity⟩ := exists_of_bind_eq_ok hprepare
  have haccepts : ∀ f n, .function f (some n) ∈ ps → f.accepts n = true := fun f n hmem =>
    Expr.accepts_of_steps hsteps (Postfix.call_mem_convert hcode (.inl hmem))
  have hone : weigh none ps = 1 := by
    rw [← Expr.total_of_ofPostfix hbuild, Postfix.total_convert hcode]
    exact (Int.zero_add _).symm
  have hweigh := weighs_of_placed hplaced ps [] none none ⟨rs, hrs, harity⟩ haccepts
    ⟨fun _ => rfl, rfl⟩ (by rintro ⟨⟩)
  rw [undivided_nil (undivided_of_placed hplaced none), hone, called_before, List.sum_nil] at hweigh
  have hnone : Place.before.operands = 0 := rfl
  exact (gains_le hplaced).2 (by omega)

end Token

end MatrixLang

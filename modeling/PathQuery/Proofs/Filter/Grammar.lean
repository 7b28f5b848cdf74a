import Mathlib.Data.List.Infix
import Mathlib.Tactic.Common
import PathQuery.Filter.Parse
import PathQuery.Proofs.Except

/-!
# Proofs/Filter/Grammar — the parser accepts exactly the filters

A filter is a sequence of pieces: connectives, opening and closing brackets, and predicates.  Its brackets
are balanced, and an opening one stands before another or before a predicate.  A list of tokens is parsed
exactly if it spells such pieces (`parse_eq_ok_iff`).

The parser keeps the brackets that are open, so the grammar is read from a depth on (`Reads`): each
token in front tells what the pieces can start with.
-/

namespace PathQuery.Filter

/-! ## The grammar -/

/-- A piece of a filter. -/
inductive Piece where
  | and
  | opening
  | closing
  | predicate (p : Predicate)
deriving DecidableEq, Repr

/-- The tokens of a predicate: a property, an operator and a literal; or a command on a property and a
quoted literal, in either order, an operator and a boolean. -/
inductive Predicate.Spelled : Predicate → List Token → Prop where
  | comparison {property value : String} {op : Comparison} {literal : Token}
    (h : literal = .word value ∨ literal = .quoted value) :
    Spelled ⟨property, .compare op, value⟩ [.word property, .operator op, literal]
  | command {c : Command} {property value : String} {first second : Token} {op : Comparison}
    {answer : Bool} (h : first = .word property ∧ second = .quoted value ∨
      first = .quoted value ∧ second = .word property) :
    Spelled ⟨property, .command c, value⟩
      [.command c, .openBracket, first, .comma, second, .closeBracket, .operator op, .bool answer]

namespace Piece

/-- The tokens of a piece. -/
inductive Spelled : Piece → List Token → Prop where
  | and : Spelled and [.binary .and]
  | opening : Spelled opening [.openBracket]
  | closing : Spelled closing [.closeBracket]
  | predicate {p : Predicate} {tokens : List Token} (h : p.Spelled tokens) :
    Spelled (predicate p) tokens

/-- The predicate that a piece is. -/
def predicate? : Piece → Option Predicate
  | predicate p => some p
  | _ => none

/-- A piece that can stand after an opening bracket. -/
inductive Follows : Piece → Prop where
  | opening : Follows opening
  | predicate (p : Predicate) : Follows (predicate p)

end Piece

/-- The tokens of pieces one after the other. -/
inductive Spells : List Piece → List Token → Prop where
  | nil : Spells [] []
  | cons {piece : Piece} {pieces : List Piece} {front rest : List Token} (h : piece.Spelled front)
    (hs : Spells pieces rest) : Spells (piece :: pieces) (front ++ rest)

/-- Every opening bracket is followed at once by another one or by a predicate. -/
def Followed (pieces : List Piece) : Prop :=
  ∀ i, pieces[i]? = some .opening → ∃ next, pieces[i + 1]? = some next ∧ next.Follows

/-- The pieces close every bracket that they open and some more, none of them before it is open. -/
structure Closes (depth : Nat) (pieces : List Piece) : Prop where
  opened : ∀ front, front <+: pieces → front.count .closing ≤ depth + front.count .opening
  closed : pieces.count .closing = depth + pieces.count .opening

/-- The brackets are balanced. -/
abbrev Balanced (pieces : List Piece) : Prop := Closes 0 pieces

/-! ## The first piece -/

variable {pieces : List Piece} {depth : Nat}

theorem followed_cons {piece : Piece} : Followed (piece :: pieces) ↔
    (piece = .opening → ∃ next ∈ pieces.head?, next.Follows) ∧ Followed pieces := by
  constructor
  · intro h
    refine ⟨fun hp => ?_, fun i hi => h (i + 1) hi⟩
    obtain ⟨next, hn, hf⟩ := h 0 (congrArg some hp)
    exact ⟨next, by rwa [Option.mem_def, List.head?_eq_getElem?], hf⟩
  · rintro ⟨hfirst, hrest⟩ i hi
    cases i with
    | zero =>
      obtain ⟨next, hn, hf⟩ := hfirst (Option.some.inj hi)
      exact ⟨next, by rwa [Option.mem_def, List.head?_eq_getElem?] at hn, hf⟩
    | succ i => exact hrest i hi

theorem forall_prefix_cons {α : Type} {a : α} {l : List α} {P : List α → Prop} :
    (∀ front, front <+: a :: l → P front) ↔ P [] ∧ ∀ front, front <+: l → P (a :: front) := by
  constructor
  · intro h
    exact ⟨h [] (List.nil_prefix ..), fun front hf => h _ (List.cons_prefix_cons.mpr ⟨rfl, hf⟩)⟩
  · rintro ⟨hnil, hcons⟩ front hf
    rcases List.prefix_cons_iff.mp hf with rfl | ⟨rest, rfl, hr⟩
    · exact hnil
    · exact hcons rest hr

/-- How closing brackets are counted behind one more piece. -/
theorem closes_cons {piece : Piece} : Closes depth (piece :: pieces) ↔
    (∀ front, front <+: pieces →
      (piece :: front).count .closing ≤ depth + (piece :: front).count .opening) ∧
    (piece :: pieces).count .closing = depth + (piece :: pieces).count .opening := by
  constructor
  · rintro ⟨ho, hc⟩
    exact ⟨(forall_prefix_cons.mp ho).2, hc⟩
  · rintro ⟨ho, hc⟩
    exact ⟨forall_prefix_cons.mpr ⟨Nat.zero_le _, ho⟩, hc⟩

theorem closes_nil : Closes depth [] ↔ depth = 0 := by
  constructor
  · intro h
    simpa using h.closed.symm
  · rintro rfl
    exact ⟨fun front hf => by simp [List.prefix_nil.mp hf], rfl⟩

theorem closes_opening : Closes depth (.opening :: pieces) ↔ Closes (depth + 1) pieces := by
  rw [closes_cons]
  simp only [List.count_cons, beq_iff_eq, reduceCtorEq, if_false, if_true, Nat.add_zero]
  constructor
  · rintro ⟨ho, hc⟩
    exact ⟨fun front hf => by have := ho front hf; omega, by omega⟩
  · rintro ⟨ho, hc⟩
    exact ⟨fun front hf => by have := ho front hf; omega, by omega⟩

theorem closes_closing :
    Closes depth (.closing :: pieces) ↔ ∃ outer, depth = outer + 1 ∧ Closes outer pieces := by
  rw [closes_cons]
  simp only [List.count_cons, beq_iff_eq, reduceCtorEq, if_false, if_true, Nat.add_zero]
  constructor
  · rintro ⟨ho, hc⟩
    have hpos := ho [] (List.nil_prefix ..)
    simp only [List.count_nil] at hpos
    refine ⟨depth - 1, by omega, fun front hf => ?_, by omega⟩
    have := ho front hf
    omega
  · rintro ⟨outer, rfl, ho, hc⟩
    exact ⟨fun front hf => by have := ho front hf; omega, by omega⟩

/-- A piece that is no bracket leaves the depth as it is. -/
theorem closes_other {piece : Piece} (ho : piece ≠ .opening) (hc : piece ≠ .closing) :
    Closes depth (piece :: pieces) ↔ Closes depth pieces := by
  rw [closes_cons]
  simp only [List.count_cons, beq_iff_eq, ho, hc, if_false, Nat.add_zero]
  exact ⟨fun h => ⟨h.1, h.2⟩, fun h => ⟨h.opened, h.closed⟩⟩

theorem closes_and : Closes depth (.and :: pieces) ↔ Closes depth pieces :=
  closes_other Piece.noConfusion Piece.noConfusion

theorem closes_predicate {p : Predicate} :
    Closes depth (.predicate p :: pieces) ↔ Closes depth pieces :=
  closes_other Piece.noConfusion Piece.noConfusion

/-! ## Reading from a depth on -/

/-- The tokens spell pieces that close some brackets more than they open, with these predicates. -/
def Reads (depth : Nat) (tokens : List Token) (ps : List Predicate) : Prop :=
  ∃ pieces, Spells pieces tokens ∧ Followed pieces ∧ Closes depth pieces ∧
    pieces.filterMap Piece.predicate? = ps

variable {tokens : List Token} {t : Token} {ps : List Predicate}

theorem Piece.Spelled.exists_cons {piece : Piece} (h : piece.Spelled tokens) :
    ∃ t rest, tokens = t :: rest := by
  cases h with
  | predicate h => cases h <;> exact ⟨_, _, rfl⟩
  | _ => exact ⟨_, _, rfl⟩

theorem spells_nil : Spells pieces [] ↔ pieces = [] := by
  constructor
  · intro h
    generalize hall : [] = all at h
    cases h with
    | nil => rfl
    | cons h hs =>
      obtain ⟨t, rest, rfl⟩ := h.exists_cons
      obtain ⟨⟩ := hall
  · rintro rfl
    exact .nil

/-- The first token belongs to the first piece. -/
theorem spells_cons : Spells pieces (t :: tokens) ↔ ∃ piece rest front after,
    pieces = piece :: rest ∧ tokens = front ++ after ∧ piece.Spelled (t :: front) ∧ Spells rest after := by
  constructor
  · intro h
    generalize hall : t :: tokens = all at h
    cases h with
    | nil => obtain ⟨⟩ := hall
    | @cons piece rest front after h hs =>
      obtain ⟨first, front, rfl⟩ := h.exists_cons
      obtain ⟨rfl, rfl⟩ := List.cons.inj hall
      exact ⟨piece, rest, front, after, rfl, rfl, h, hs⟩
  · rintro ⟨piece, rest, front, after, rfl, rfl, h, hs⟩
    exact .cons h hs

/-- The pieces that can stand after an opening bracket are those with such a token in front. -/
theorem startsPredicate_iff {piece : Piece} {front : List Token} (h : piece.Spelled (t :: front)) :
    t.startsPredicate = true ↔ piece.Follows := by
  cases h with
  | and => exact ⟨by rintro ⟨⟩, by rintro ⟨⟩⟩
  | opening => exact ⟨fun _ => .opening, fun _ => rfl⟩
  | closing => exact ⟨by rintro ⟨⟩, by rintro ⟨⟩⟩
  | predicate h =>
    refine ⟨fun _ => .predicate _, fun _ => ?_⟩
    cases h <;> rfl

theorem follows_iff (h : Spells pieces tokens) :
    (∃ next ∈ pieces.head?, next.Follows) ↔ ∃ t ∈ tokens.head?, t.startsPredicate = true := by
  cases tokens with
  | nil => simp [spells_nil.mp h]
  | cons t tokens =>
    obtain ⟨piece, rest, front, after, rfl, rfl, h, -⟩ := spells_cons.mp h
    simp [startsPredicate_iff h]

/-- What the tokens after a piece are read as. -/
def ReadsAfter (depth : Nat) (ps : List Predicate) (after : List Token) : Piece → Prop
  | .and => Reads depth after ps
  | .opening => (∃ t ∈ after.head?, t.startsPredicate = true) ∧ Reads (depth + 1) after ps
  | .closing => ∃ outer, depth = outer + 1 ∧ Reads outer after ps
  | .predicate p => ∃ qs, Reads depth after qs ∧ p :: qs = ps

theorem reads_nil : Reads depth [] ps ↔ depth = 0 ∧ ps = [] := by
  constructor
  · rintro ⟨pieces, hs, -, hc, rfl⟩
    obtain rfl := spells_nil.mp hs
    exact ⟨closes_nil.mp hc, rfl⟩
  · rintro ⟨rfl, rfl⟩
    exact ⟨[], .nil, by rintro _ ⟨⟩, closes_nil.mpr rfl, rfl⟩

/-- **Reading goes piece by piece.** -/
theorem reads_cons : Reads depth (t :: tokens) ps ↔ ∃ piece front after,
    tokens = front ++ after ∧ piece.Spelled (t :: front) ∧ ReadsAfter depth ps after piece := by
  constructor
  · rintro ⟨pieces, hall, hfol, hc, rfl⟩
    obtain ⟨piece, rest, front, after, rfl, rfl, hp, hs⟩ := spells_cons.mp hall
    refine ⟨piece, front, after, rfl, hp, ?_⟩
    obtain ⟨hfirst, hf⟩ := followed_cons.mp hfol
    clear hall hfol hp
    cases piece with
    | and => exact ⟨rest, hs, hf, closes_and.mp hc, rfl⟩
    | opening => exact ⟨(follows_iff hs).mp (hfirst rfl), rest, hs, hf, closes_opening.mp hc, rfl⟩
    | closing =>
      obtain ⟨outer, rfl, hin⟩ := closes_closing.mp hc
      exact ⟨outer, rfl, rest, hs, hf, hin, rfl⟩
    | predicate p => exact ⟨_, ⟨rest, hs, hf, closes_predicate.mp hc, rfl⟩, rfl⟩
  · rintro ⟨piece, front, after, rfl, hp, h⟩
    cases piece with
    | and =>
      obtain ⟨rest, hs, hf, hc, hps⟩ := h
      exact ⟨_, .cons hp hs, followed_cons.mpr ⟨nofun, hf⟩, closes_and.mpr hc, hps⟩
    | opening =>
      obtain ⟨hstart, rest, hs, hf, hc, hps⟩ := h
      exact ⟨_, .cons hp hs, followed_cons.mpr ⟨fun _ => (follows_iff hs).mpr hstart, hf⟩,
        closes_opening.mpr hc, hps⟩
    | closing =>
      obtain ⟨outer, rfl, rest, hs, hf, hc, hps⟩ := h
      exact ⟨_, .cons hp hs, followed_cons.mpr ⟨nofun, hf⟩, closes_closing.mpr ⟨outer, rfl, hc⟩, hps⟩
    | predicate p =>
      obtain ⟨qs, ⟨rest, hs, hf, hc, hqs⟩, hps⟩ := h
      exact ⟨_, .cons hp hs, followed_cons.mpr ⟨nofun, hf⟩, closes_predicate.mpr hc,
        hps ▸ hqs ▸ rfl⟩

/-! ## One predicate -/

variable {ending pos : Nat} {rest after : List Located} {p : Predicate}

theorem arguments?_eq_some_iff {first second : Token} {property value : String} :
    arguments? first second = some (property, value) ↔
      first = .word property ∧ second = .quoted value ∨ first = .quoted value ∧ second = .word property := by
  cases first <;> cases second <;> simp [arguments?, and_comm]

theorem literal?_eq_some_iff {literal : Token} {value : String} :
    literal.literal? = some value ↔ literal = .word value ∨ literal = .quoted value := by
  cases literal <;> simp [Token.literal?]

/-- A predicate that starts with a property is read exactly if it is spelled. -/
theorem afterProperty_eq_ok_iff (ending pos : Nat) {property : String} :
    afterProperty ending pos property rest = .ok (p, after) ↔
      ∃ front, rest = front ++ after ∧ p.Spelled (.word property :: front.map (·.token)) := by
  constructor
  · intro h
    unfold afterProperty at h
    split at h
    · rename_i op span tokens
      split at h
      · obtain ⟨⟩ := h
      · rename_i literal after
        split at h
        · rename_i value hv
          cases h
          exact ⟨[⟨.operator op, span⟩, literal], rfl, .comparison (literal?_eq_some_iff.mp hv)⟩
        · obtain ⟨⟩ := h
    · obtain ⟨⟩ := h
  · rintro ⟨front, rfl, h⟩
    generalize hf : front.map (·.token) = tokens at h
    cases h with
    | comparison h =>
      obtain ⟨⟨_, _⟩, _, rfl, rfl, h₁⟩ := List.map_eq_cons_iff.mp hf
      obtain ⟨literal, _, rfl, rfl, h₂⟩ := List.map_eq_cons_iff.mp h₁
      obtain rfl := List.map_eq_nil_iff.mp h₂
      simp only [List.cons_append, List.nil_append, afterProperty, literal?_eq_some_iff.mpr h]

/-- The end of a command is read exactly if it is an operator and a boolean. -/
theorem afterArguments_eq_ok_iff {predicate : Predicate} :
    afterArguments ending pos predicate rest = .ok (p, after) ↔ p = predicate ∧
      ∃ front op answer, rest = front ++ after ∧ front.map (·.token) = [.operator op, .bool answer] := by
  constructor
  · intro h
    unfold afterArguments at h
    split at h
    · rename_i op _ answer _ after
      cases h
      exact ⟨rfl, [⟨.operator op, _⟩, ⟨.bool answer, _⟩], op, answer, rfl, rfl⟩
    · obtain ⟨⟩ := h
    · obtain ⟨⟩ := h
  · rintro ⟨rfl, front, op, answer, rfl, hf⟩
    obtain ⟨⟨_, _⟩, _, rfl, rfl, h₁⟩ := List.map_eq_cons_iff.mp hf
    obtain ⟨⟨_, _⟩, _, rfl, rfl, h₂⟩ := List.map_eq_cons_iff.mp h₁
    obtain rfl := List.map_eq_nil_iff.mp h₂
    rfl

/-- A predicate that starts with a command is read exactly if it is spelled. -/
theorem afterCommand_eq_ok_iff (ending pos : Nat) {c : Command} :
    afterCommand ending pos c rest = .ok (p, after) ↔
      ∃ front, rest = front ++ after ∧ p.Spelled (.command c :: front.map (·.token)) := by
  constructor
  · intro h
    unfold afterCommand at h
    split at h
    · rename_i first _ second _ tail
      split at h
      · rename_i property value ha
        obtain ⟨rfl, front, op, answer, rfl, hf⟩ := afterArguments_eq_ok_iff.mp h
        refine ⟨⟨.openBracket, _⟩ :: first :: ⟨.comma, _⟩ :: second :: ⟨.closeBracket, _⟩ :: front, rfl, ?_⟩
        simp only [List.map_cons, hf]
        exact .command (arguments?_eq_some_iff.mp ha)
      · obtain ⟨⟩ := h
    all_goals exact nomatch h
  · rintro ⟨front, rfl, h⟩
    generalize hf : front.map (·.token) = tokens at h
    cases h with
    | command h =>
      obtain ⟨⟨_, _⟩, _, rfl, rfl, h₁⟩ := List.map_eq_cons_iff.mp hf
      obtain ⟨first, _, rfl, rfl, h₂⟩ := List.map_eq_cons_iff.mp h₁
      obtain ⟨⟨_, _⟩, _, rfl, rfl, h₃⟩ := List.map_eq_cons_iff.mp h₂
      obtain ⟨second, _, rfl, rfl, h₄⟩ := List.map_eq_cons_iff.mp h₃
      obtain ⟨⟨_, _⟩, _, rfl, rfl, h₅⟩ := List.map_eq_cons_iff.mp h₄
      simp only [List.cons_append, afterCommand, arguments?_eq_some_iff.mpr h]
      exact afterArguments_eq_ok_iff.mpr ⟨rfl, _, _, _, rfl, h₅⟩

/-! ## The parser -/

theorem reads_and : Reads depth (.binary .and :: tokens) ps ↔ Reads depth tokens ps := by
  rw [reads_cons]
  constructor
  · rintro ⟨piece, front, after, rfl, h, hr⟩
    cases h with
    | and => exact hr
    | predicate h => obtain ⟨⟩ := h
  · intro h
    exact ⟨.and, [], tokens, rfl, .and, h⟩

theorem reads_openBracket : Reads depth (.openBracket :: tokens) ps ↔
    (∃ t ∈ tokens.head?, t.startsPredicate = true) ∧ Reads (depth + 1) tokens ps := by
  rw [reads_cons]
  constructor
  · rintro ⟨piece, front, after, rfl, h, hr⟩
    cases h with
    | opening => exact hr
    | predicate h => obtain ⟨⟩ := h
  · intro h
    exact ⟨.opening, [], tokens, rfl, .opening, h⟩

theorem reads_closeBracket : Reads depth (.closeBracket :: tokens) ps ↔
    ∃ outer, depth = outer + 1 ∧ Reads outer tokens ps := by
  rw [reads_cons]
  constructor
  · rintro ⟨piece, front, after, rfl, h, hr⟩
    cases h with
    | closing => exact hr
    | predicate h => obtain ⟨⟩ := h
  · intro h
    exact ⟨.closing, [], tokens, rfl, .closing, h⟩

/-- A token with which no piece starts. -/
theorem not_reads (hw : ∀ property, t ≠ .word property) (hc : ∀ c, t ≠ .command c)
    (ho : t ≠ .openBracket) (hb : t ≠ .closeBracket) (ha : t ≠ .binary .and) :
    ¬ Reads depth (t :: tokens) ps := by
  intro h
  obtain ⟨piece, front, after, -, h, -⟩ := reads_cons.mp h
  cases h with
  | and => exact ha rfl
  | opening => exact ho rfl
  | closing => exact hb rfl
  | predicate h =>
    cases h with
    | comparison => exact hw _ rfl
    | command => exact hc _ rfl

/-- Where a predicate starts, it is read off the front by a reader that reads what is spelled. -/
theorem reads_predicate {tail : List Located} {read : Except ParseError (Predicate × List Located)}
    (ht : (∃ property, t = .word property) ∨ ∃ c, t = .command c)
    (hread : ∀ p after, read = .ok (p, after) ↔
      ∃ front, tail = front ++ after ∧ p.Spelled (t :: front.map (·.token))) :
    Reads depth (t :: tail.map (·.token)) ps ↔ ∃ p after qs, read = .ok (p, after) ∧
      Reads depth (after.map (·.token)) qs ∧ p :: qs = ps := by
  rw [reads_cons]
  constructor
  · rintro ⟨piece, front, after, he, h, hr⟩
    obtain ⟨front, after, rfl, rfl, rfl⟩ := List.map_eq_append_iff.mp he
    obtain ⟨p, rfl⟩ : ∃ p, piece = .predicate p := by
      rcases ht with ⟨property, rfl⟩ | ⟨c, rfl⟩ <;> exact (by cases h; exact ⟨_, rfl⟩)
    obtain ⟨qs, hqs, hps⟩ := hr
    have hp : p.Spelled (t :: front.map (·.token)) := by cases h; assumption
    exact ⟨p, after, qs, (hread p after).mpr ⟨front, rfl, hp⟩, hqs, hps⟩
  · rintro ⟨p, after, qs, hr, hqs, hps⟩
    obtain ⟨front, rfl, hp⟩ := (hread p after).mp hr
    exact ⟨.predicate p, front.map (·.token), after.map (·.token), List.map_append, .predicate hp,
      qs, hqs, hps⟩

/-- **The parser reads what the grammar allows** behind the brackets that are open. -/
theorem parseFrom_eq_ok_iff {opened : List Opening} {located : List Located} :
    parseFrom ending pos opened located = .ok ps ↔
      Reads opened.length (located.map (·.token)) ps := by
  fun_induction parseFrom ending pos opened located generalizing ps with
  | case1 => simp [reads_nil, eq_comm]
  | case2 => simp [reads_nil]
  | case3 pos opened t tail property ht p after hread ih =>
    rw [map_eq_ok, List.map_cons, ht,
      reads_predicate (.inl ⟨property, rfl⟩) fun _ _ => afterProperty_eq_ok_iff ending (pos + 1)]
    simp [hread, ih]
  | case4 pos opened t tail property ht e hread =>
    rw [List.map_cons, ht, reads_predicate (.inl ⟨property, rfl⟩) fun _ _ => afterProperty_eq_ok_iff ending (pos + 1)]
    simp [hread]
  | case5 pos opened t tail c ht p after hread ih =>
    rw [map_eq_ok, List.map_cons, ht,
      reads_predicate (.inr ⟨c, rfl⟩) fun _ _ => afterCommand_eq_ok_iff ending (pos + 1)]
    simp [hread, ih]
  | case6 pos opened t tail c ht e hread =>
    rw [List.map_cons, ht, reads_predicate (.inr ⟨c, rfl⟩) fun _ _ => afterCommand_eq_ok_iff ending (pos + 1)]
    simp [hread]
  | case7 pos opened t ht =>
    rw [List.map_cons, ht, reads_openBracket]
    simp
  | case8 pos opened t ht next tail hstart ih =>
    rw [ih, List.map_cons (a := t), ht, reads_openBracket]
    simp [hstart]
  | case9 pos opened t ht next tail hstart =>
    rw [List.map_cons, ht, reads_openBracket]
    simp [hstart]
  | case10 pos t tail ht =>
    rw [List.map_cons, ht, reads_closeBracket]
    simp
  | case11 pos t tail ht o outer ih =>
    rw [ih, List.map_cons, ht, reads_closeBracket]
    simp
  | case12 pos opened t tail ht ih => rw [ih, List.map_cons, ht, reads_and]
  | case13 pos opened t tail ht =>
    rw [List.map_cons, ht]
    simp [not_reads]
  | case14 pos opened t tail hw hc ho hb ha =>
    rw [List.map_cons]
    simp [not_reads hw hc ho hb ha]

theorem parse_reads {located : List Located} :
    parse located = .ok ps ↔ Reads 0 (located.map (·.token)) ps := parseFrom_eq_ok_iff

/-- **The parser accepts exactly its grammar**: it succeeds on the token lists that spell pieces with
balanced brackets, every opening one before another or before a predicate, and it gives the predicates
among these pieces in their order. -/
theorem parse_eq_ok_iff {located : List Located} :
    parse located = .ok ps ↔ ∃ pieces, Spells pieces (located.map (·.token)) ∧ Followed pieces ∧
      Balanced pieces ∧ pieces.filterMap Piece.predicate? = ps := parse_reads

end PathQuery.Filter

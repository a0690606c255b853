import Mathlib.Logic.Relation
import OscAddressing.Proofs.Matching.Search

/-!
# Token lists that match the same names

Some changes of a token list make no difference to any name: neighbours that can be one token,
tokens that take nothing, alternatives that are never reached, and ranges without members
(`Reduces`). They can be made anywhere in a list, in either direction and any number of times:
`matchesWhole_rewritten`.

What comes before and behind a changed part does not matter, though alternatives look past their
own piece. The reason is `matchesWhole_append_iff`: of a part of a list, all that a name can show is
which pieces it takes in front of which rest (`TakeInTurn`). So every change is judged on its own,
for all pieces and rests (`Reduces.takeInTurn_iff`).
-/

namespace OscAddressing

variable {tokens tokens' : List Token} {piece rest : Text}

/-! ### A part of a token list -/

/-- The tokens take `piece` at the front of a text that goes on with `rest`, one after the other. -/
def TakeInTurn (piece rest : Text) : List Token → Prop
  | [] => piece = []
  | token :: tokens =>
    ∃ first others, piece = first ++ others ∧ token.Takes first (others ++ rest) ∧
      TakeInTurn others rest tokens

theorem takeInTurn_singleton {token : Token} :
    TakeInTurn piece rest [token] ↔ token.Takes piece rest := by
  simp [TakeInTurn]

/-- **A part of a token list takes a piece of the name**, and the tokens behind it match the rest.
-/
theorem matchesWhole_append_iff {name : Text} :
    matchesWhole (tokens ++ tokens') name = true ↔
      ∃ piece rest, name = piece ++ rest ∧ TakeInTurn piece rest tokens ∧
        matchesWhole tokens' rest = true := by
  induction tokens generalizing name with
  | nil =>
    constructor
    · exact fun h ↦ ⟨[], name, rfl, rfl, h⟩
    · rintro ⟨_, rest, rfl, rfl, h⟩
      exact h
  | cons token tokens ih =>
    simp only [List.cons_append, matchesWhole_cons_iff, ih, TakeInTurn]
    constructor
    · rintro ⟨first, _, rfl, htakes, others, rest, rfl, hothers, hrest⟩
      exact ⟨first ++ others, rest, (List.append_assoc ..).symm, ⟨first, others, rfl, htakes,
        hothers⟩, hrest⟩
    · rintro ⟨_, rest, rfl, ⟨first, others, rfl, htakes, hothers⟩, hrest⟩
      exact ⟨first, others ++ rest, List.append_assoc .., htakes, others, rest, rfl, hothers, hrest⟩

/-- **Parts that take the same pieces** can be put in each other's place. -/
theorem matchesWhole_congr
    (h : ∀ piece rest, TakeInTurn piece rest tokens ↔ TakeInTurn piece rest tokens')
    (left right : List Token) (name : Text) :
    matchesWhole (left ++ tokens ++ right) name = matchesWhole (left ++ tokens' ++ right) name := by
  rw [Bool.eq_iff_iff, List.append_assoc, List.append_assoc, matchesWhole_append_iff,
    matchesWhole_append_iff]
  simp only [matchesWhole_append_iff, h]

/-! ### Alternatives that are reached -/

namespace Token

variable {alternatives : List Text}

/-- **The alternative that is taken** is the first that the text begins with. -/
theorem takes_oneOf_iff (hne : alternatives ≠ []) :
    (oneOf alternatives).Takes piece rest ↔
      (alternatives.find? fun text ↦ text <+: piece ++ rest) = some piece := by
  simp [Takes, hne, List.find?_eq_some_iff_append]

/-- **An alternative is not reached** if an earlier one is the beginning of it. -/
theorem find?_eq_of_isPrefix {s t text : Text} (earlier between later : List Text) (h : s <+: t) :
    ((earlier ++ s :: between ++ t :: later).find? fun other ↦ other <+: text) =
      (earlier ++ s :: between ++ later).find? fun other ↦ other <+: text := by
  have happend : ∀ more : List Text, (earlier ++ s :: between ++ more).find? (· <+: text) =
      ((earlier ++ s :: between).find? (· <+: text)).or (more.find? (· <+: text)) :=
    fun _ ↦ List.find?_append
  rw [happend, happend]
  cases hfind : (earlier ++ s :: between).find? fun other ↦ other <+: text with
  | some first => rfl
  | none =>
    have hnot : ¬s <+: text := by simpa using List.find?_eq_none.1 hfind s (by simp)
    rw [List.find?_cons_of_neg (by simpa using fun ht ↦ hnot (h.trans ht))]

end Token

/-! ### Changes that make no difference -/

/-- **Tokens, and what may stand in their place.** -/
inductive Reduces : List Token → List Token → Prop
  /-- Two neighbouring `*` are one. -/
  | runs : Reduces [.anyRun, .anyRun] [.anyRun]
  /-- An empty literal is nothing. -/
  | emptyLiteral : Reduces [.literal []] []
  /-- Two neighbouring literals are one. -/
  | literals (s t : Text) : Reduces [.literal s, .literal t] [.literal (s ++ t)]
  /-- The only alternative is a literal. -/
  | onlyAlternative (t : Text) : Reduces [.oneOf [t]] [.literal t]
  /-- No alternatives are nothing. -/
  | noAlternatives : Reduces [.oneOf []] []
  /-- If the first alternative is the empty one, it is always taken. -/
  | emptyAlternative (others : List Text) : Reduces [.oneOf ([] :: others)] []
  /-- An alternative that is an earlier one, or begins with it, is never reached. -/
  | unreached (earlier between later : List Text) {s t : Text} : s <+: t →
      Reduces [.oneOf (earlier ++ s :: between ++ t :: later)]
        [.oneOf (earlier ++ s :: between ++ later)]
  /-- A backward range has no members. -/
  | backward (exclusion : Bool) (before after : List CharGroup) {first last : Char} :
      last < first → Reduces [.charSet exclusion (before ++ .range first last :: after)]
        [.charSet exclusion (before ++ after)]

/-- **What may stand in the place of tokens takes what they take.** -/
theorem Reduces.takeInTurn_iff (h : Reduces tokens tokens') (piece rest : Text) :
    TakeInTurn piece rest tokens ↔ TakeInTurn piece rest tokens' := by
  cases h with
  | runs =>
    rw [takeInTurn_singleton, TakeInTurn]
    exact iff_of_true ⟨[], piece, rfl, trivial, takeInTurn_singleton.2 trivial⟩ trivial
  | emptyLiteral => exact takeInTurn_singleton
  | literals s t =>
    rw [takeInTurn_singleton]
    constructor
    · rintro ⟨_, _, rfl, rfl, ht⟩
      exact congrArg (_ ++ ·) (takeInTurn_singleton.1 ht)
    · rintro rfl
      exact ⟨s, t, rfl, rfl, takeInTurn_singleton.2 rfl⟩
  | onlyAlternative t =>
    rw [takeInTurn_singleton, takeInTurn_singleton, Token.takes_oneOf_iff (List.cons_ne_nil _ _)]
    simp only [List.find?_singleton, Token.Takes]
    constructor
    · intro h
      split at h
      · exact (Option.some.inj h).symm
      · exact absurd h (by simp)
    · rintro rfl
      rw [if_pos (by simp)]
  | noAlternatives =>
    rw [takeInTurn_singleton]
    simp [Token.Takes, TakeInTurn]
  | emptyAlternative others =>
    rw [takeInTurn_singleton, Token.takes_oneOf_iff (List.cons_ne_nil _ _)]
    simp [TakeInTurn, eq_comm]
  | unreached earlier between later hprefix =>
    rw [takeInTurn_singleton, takeInTurn_singleton, Token.takes_oneOf_iff (by simp),
      Token.takes_oneOf_iff (by simp), Token.find?_eq_of_isPrefix _ _ _ hprefix]
  | backward exclusion before after hlt =>
    have hnone : ∀ c, CharGroup.contains (.range _ _) c = false :=
      CharGroup.contains_of_reversed? (if_pos hlt)
    simp [takeInTurn_singleton, Token.Takes, or_and_right, exists_or, hnone]

/-- A change somewhere in a token list. -/
inductive Rewrites : List Token → List Token → Prop
  | within (left right : List Token) {tokens tokens' : List Token} :
      Reduces tokens tokens' → Rewrites (left ++ tokens ++ right) (left ++ tokens' ++ right)

/-- **No change makes a difference to a name.** Changes may be made anywhere in a token list and one
after the other, and they may be undone; also if a token list is answered without a search and the
other is not. -/
theorem matchesWhole_rewritten (h : Relation.EqvGen Rewrites tokens tokens') (name : Text) :
    matchesWhole tokens name = matchesWhole tokens' name := by
  induction h with
  | rel _ _ h =>
    obtain ⟨left, right, hreduces⟩ := h
    exact matchesWhole_congr hreduces.takeInTurn_iff left right name
  | refl _ => rfl
  | symm _ _ _ ih => exact ih.symm
  | trans _ _ _ _ _ ih ih' => exact ih.trans ih'

/-- The second alternative is not reached, so the group is a literal, and the three literals are
one. For this one there is no search. -/
theorem matchesWhole_rewritten_toLiteral :
    let tokens : List Token := [.oneOf [['a'], ['a', 'b']], .literal [], .literal ['c']]
    Relation.EqvGen Rewrites tokens [.literal ['a', 'c']] ∧
      ∀ name, matchesWhole tokens name = matchesWhole [.literal ['a', 'c']] name := by
  intro tokens
  have hunreached : Rewrites tokens [.oneOf [['a']], .literal [], .literal ['c']] :=
    .within [] [.literal [], .literal ['c']] (.unreached [] [] [] (by decide))
  have honly : Rewrites [.oneOf [['a']], .literal [], .literal ['c']]
      [.literal ['a'], .literal [], .literal ['c']] :=
    .within [] [.literal [], .literal ['c']] (.onlyAlternative ['a'])
  have hempty : Rewrites [.literal ['a'], .literal [], .literal ['c']]
      [.literal ['a'], .literal ['c']] :=
    .within [.literal ['a']] [.literal ['c']] .emptyLiteral
  have hjoined : Rewrites [.literal ['a'], .literal ['c']] [.literal ['a', 'c']] :=
    .within [] [] (.literals ['a'] ['c'])
  have hall : Relation.EqvGen Rewrites tokens [.literal ['a', 'c']] :=
    .trans _ _ _ (.rel _ _ hunreached) (.trans _ _ _ (.rel _ _ honly)
      (.trans _ _ _ (.rel _ _ hempty) (.rel _ _ hjoined)))
  exact ⟨hall, matchesWhole_rewritten hall⟩

end OscAddressing

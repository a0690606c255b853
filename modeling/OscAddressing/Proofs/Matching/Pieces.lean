import OscAddressing.Matching.Matcher

/-!
# The pieces of a name

What it means for a token list to match a name, said of characters alone: the name is cut into
consecutive pieces, one for each token, and each token takes its piece. No byte position, no matcher
and no order of trials occurs here.

Whether a token takes a piece depends on the piece and, for alternatives only, on what follows it
(`Token.Takes`): a brace group takes the first alternative that the name goes on with, looking past
its own piece to the end of the name.

A matcher is tied to this by `Matcher.matches?_eq_some_iff`: the bytes it answers with are those of
a piece that its token takes. It rests on `Token.Takes.unique`, that only `*` has a choice.
-/

namespace OscAddressing

namespace Token

/-! ### The piece of one token -/

/-- The token takes `piece` at the front of a text that goes on with `rest`. -/
def Takes (piece rest : Text) : Token → Prop
  | literal text => piece = text
  | anyRun => True
  | anyChar => ∃ c, piece = [c]
  | charSet exclusion groups =>
    ∃ c, piece = [c] ∧ ((∃ group ∈ groups, group.contains c = true) ↔ exclusion = false)
  | oneOf alternatives =>
    (alternatives = [] ∧ piece = []) ∨
      ∃ earlier later, alternatives = earlier ++ piece :: later ∧
        ∀ text ∈ earlier, ¬ text <+: piece ++ rest

/-- `pieces` has one piece for each token, and each token takes its own, in front of those that
follow it. -/
inductive Divide : List Token → List Text → Prop
  | nil : Divide [] []
  | cons {token : Token} {tokens : List Token} {piece : Text} {pieces : List Text} :
      token.Takes piece pieces.flatten → Divide tokens pieces →
        Divide (token :: tokens) (piece :: pieces)

/-- A set takes a character when the answer whether a group contains it differs from
`exclusion`. -/
theorem admits_eq_true_iff {exclusion : Bool} {groups : List CharGroup} {c : Char} :
    admits exclusion groups c = true ↔
      ((∃ group ∈ groups, group.contains c = true) ↔ exclusion = false) := by
  have hany : (groups.any fun group ↦ group.contains c) = true ↔
      ∃ group ∈ groups, group.contains c = true := List.any_eq_true
  rw [← hany, admits]
  cases exclusion <;> cases groups.any fun group ↦ group.contains c <;> simp

/-- **Only `*` has a choice.** Any other token takes at most one piece of a text. -/
theorem Takes.unique {token : Token} {piece rest piece' rest' : Text} (hne : token ≠ anyRun)
    (h : token.Takes piece rest) (h' : token.Takes piece' rest')
    (heq : piece ++ rest = piece' ++ rest') : piece = piece' ∧ rest = rest' := by
  suffices hpiece : piece = piece' by
    subst hpiece
    exact ⟨rfl, List.append_cancel_left heq⟩
  cases token with
  | literal text => exact h.trans h'.symm
  | anyRun => exact absurd rfl hne
  | anyChar =>
    obtain ⟨c, rfl⟩ := h
    obtain ⟨d, rfl⟩ := h'
    exact congrArg (fun c ↦ [c]) (List.cons.inj heq).1
  | charSet exclusion groups =>
    obtain ⟨c, rfl, -⟩ := h
    obtain ⟨d, rfl, -⟩ := h'
    exact congrArg (fun c ↦ [c]) (List.cons.inj heq).1
  | oneOf alternatives =>
    obtain ⟨rfl, rfl⟩ | ⟨earlier, later, rfl, hfirst⟩ := h
    · obtain ⟨-, rfl⟩ | ⟨earlier', later', hsplit, -⟩ := h'
      · rfl
      · simp at hsplit
    · obtain ⟨hnil, -⟩ | ⟨earlier', later', hsplit, hfirst'⟩ := h'
      · simp at hnil
      -- Of two first alternatives neither can stand among the earlier ones of the other.
      obtain ⟨between, rfl, hlater⟩ | ⟨between, rfl, hlater⟩ := List.append_eq_append_iff.1 hsplit
      · cases between with
        | nil => exact (List.cons.inj hlater).1
        | cons text between =>
          obtain ⟨rfl, -⟩ := List.cons.inj hlater
          exact absurd (heq ▸ List.prefix_append ..) (hfirst' piece (by simp))
      · cases between with
        | nil => exact (List.cons.inj hlater).1.symm
        | cons text between =>
          obtain ⟨rfl, -⟩ := List.cons.inj hlater
          exact absurd (heq ▸ List.prefix_append ..) (hfirst piece' (by simp))

end Token

namespace Matcher

/-! ### The bytes of one candidate -/

/-- **A matcher measures pieces.** Unless it is a `*`, the length that it answers with is that of a
piece that its token takes, and it has an answer whenever there is one. -/
theorem matches?_eq_some_iff {m : Matcher} {t : Text} {n : Nat} (hne : m.token ≠ .anyRun) :
    m.matches? t = some n ↔
      ∃ piece rest, t = piece ++ rest ∧ m.token.Takes piece rest ∧ piece.byteLength = n := by
  obtain ⟨token, position, exhausted⟩ := m
  cases token with
  | literal text =>
    simp only [matches?, Token.Takes, List.isPrefixOf_iff_prefix]
    constructor
    · intro h
      split at h
      case isTrue hprefix =>
        obtain ⟨rest, rfl⟩ := hprefix
        exact ⟨text, rest, rfl, rfl, Option.some.inj h⟩
      case isFalse => simp at h
    · rintro ⟨piece, rest, rfl, rfl, rfl⟩
      rw [if_pos (List.prefix_append ..)]
  | anyRun => exact absurd rfl hne
  | anyChar =>
    simp only [matches?, Token.Takes, Option.map_eq_some_iff, List.head?_eq_some_iff]
    constructor
    · rintro ⟨c, ⟨rest, rfl⟩, rfl⟩
      exact ⟨[c], rest, rfl, ⟨c, rfl⟩, by simp⟩
    · rintro ⟨piece, rest, rfl, ⟨c, rfl⟩, rfl⟩
      exact ⟨c, ⟨rest, rfl⟩, by simp⟩
  | charSet exclusion groups =>
    simp only [matches?, Token.Takes, Option.map_eq_some_iff, Option.filter_eq_some_iff,
      List.head?_eq_some_iff, Token.admits_eq_true_iff]
    constructor
    · rintro ⟨c, ⟨⟨rest, rfl⟩, hc⟩, rfl⟩
      exact ⟨[c], rest, rfl, ⟨c, rfl, hc⟩, by simp⟩
    · rintro ⟨piece, rest, rfl, ⟨c, rfl, hc⟩, rfl⟩
      exact ⟨c, ⟨⟨rest, rfl⟩, hc⟩, by simp⟩
  | oneOf alternatives =>
    cases alternatives with
    | nil =>
      simp only [matches?, Token.Takes, Option.some.injEq]
      constructor
      · rintro rfl
        exact ⟨[], t, rfl, .inl ⟨trivial, rfl⟩, rfl⟩
      · rintro ⟨piece, rest, -, ⟨-, rfl⟩ | ⟨earlier, later, hsplit, -⟩, rfl⟩
        · rfl
        · simp at hsplit
    | cons first others =>
      simp only [matches?, Token.Takes, Option.map_eq_some_iff, List.find?_eq_some_iff_append,
        List.isPrefixOf_iff_prefix]
      constructor
      · rintro ⟨piece, ⟨⟨rest, rfl⟩, earlier, later, hsplit, hfirst⟩, rfl⟩
        refine ⟨piece, rest, rfl, .inr ⟨earlier, later, hsplit, fun text htext hprefix ↦ ?_⟩, rfl⟩
        have hnot := hfirst text htext
        rw [Bool.not_eq_true', ← Bool.not_eq_true, List.isPrefixOf_iff_prefix] at hnot
        exact hnot hprefix
      · rintro ⟨piece, rest, rfl, ⟨hnil, -⟩ | ⟨earlier, later, hsplit, hfirst⟩, rfl⟩
        · simp at hnil
        · refine ⟨piece, ⟨List.prefix_append .., earlier, later, hsplit, fun text htext ↦ ?_⟩, rfl⟩
          rw [Bool.not_eq_true', ← Bool.not_eq_true, List.isPrefixOf_iff_prefix]
          exact hfirst text htext

/-- **Matchers of tokens that take the same pieces** give the same answers. -/
theorem matches?_congr {m m' : Matcher} (hne : m.token ≠ .anyRun) (hne' : m'.token ≠ .anyRun)
    (h : ∀ piece rest, m.token.Takes piece rest ↔ m'.token.Takes piece rest) (rest : Text) :
    m.matches? rest = m'.matches? rest := by
  refine Option.ext fun n ↦ ?_
  rw [matches?_eq_some_iff hne, matches?_eq_some_iff hne']
  simp only [h]

/-! ### On to the next candidate -/

/-- A matcher that is no `*` has one candidate. -/
theorem exhausted_advance_of_ne {m : Matcher} (t : Text) (hne : m.token ≠ .anyRun) :
    (m.advance t).exhausted = true := by
  unfold advance
  split
  case h_1 hrun _ => exact absurd hrun hne
  case h_2 => rfl

/-- A `*` that has taken all of a text has no further candidate. -/
theorem exhausted_advance_at_end (t : Text) (exhausted : Bool) :
    (advance { token := .anyRun, position := t.byteLength, exhausted } t).exhausted = true := by
  have hdrop : t.dropBytes? t.byteLength = some [] := by
    simpa using Text.dropBytes?_append t []
  simp [advance, hdrop]

/-- Before the end of a text, a `*` goes on by one character. -/
theorem advance_anyRun (piece : Text) (c : Char) (rest : Text) (exhausted : Bool) :
    advance { token := .anyRun, position := piece.byteLength, exhausted } (piece ++ c :: rest) =
      { token := .anyRun, position := (piece ++ [c]).byteLength, exhausted } := by
  simp [advance, Text.dropBytes?_append]

/-- **From the first `k` characters on to the first `k + 1`**: a `*` for which the text has too few
is exhausted, and stays at the end. -/
theorem advance_take (t : Text) (k : Nat) :
    advance ⟨.anyRun, Text.byteLength (t.take k), decide (t.length < k)⟩ t =
      ⟨.anyRun, Text.byteLength (t.take (k + 1)), decide (t.length < k + 1)⟩ := by
  by_cases hlt : k < t.length
  · have hstep := advance_anyRun (t.take k) t[k] (t.drop (k + 1)) false
    rw [List.getElem_cons_drop, List.take_append_drop, List.take_append_getElem] at hstep
    rw [decide_eq_false (by omega), decide_eq_false (by omega), hstep]
  · have hle : t.length ≤ k := Nat.le_of_not_lt hlt
    have hdrop : t.dropBytes? t.byteLength = some [] := by simpa using Text.dropBytes?_append t []
    rw [List.take_of_length_le hle, List.take_of_length_le (by omega),
      decide_eq_true (show t.length < k + 1 by omega)]
    simp [advance, hdrop]

end Matcher

end OscAddressing

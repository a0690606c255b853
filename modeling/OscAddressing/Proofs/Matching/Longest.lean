import OscAddressing.Proofs.Matching.Language
import OscAddressing.Proofs.Matching.Rewriting

/-!
# Alternatives that are tried longest first

Tried longest first, the alternatives of a brace group match as a set: the order in which they are
written makes no difference, nor does their number, and the one that is taken is the longest with
which the name goes on. `matchesWhole_longestFirst` says so of a matcher and of whole names.

It rests on one fact: the texts with which a text begins are in a chain, each the beginning of the
next, so no two of them have one length (`Text.Measure.le_iff_isPrefix`). This is so for bytes as
it is for characters, and for any other way to measure. So a tie never decides between two that fit,
and to sort by another measure is to sort those that fit in the same way.
-/

namespace OscAddressing

open Pattern

namespace Text

/-! ### Measures of length -/

/-- A way to measure texts by which a text is longer than any other that it begins with. -/
structure Measure where
  length : Text → Nat
  length_lt : ∀ {s t : Text}, s <+: t → s ≠ t → length s < length t

namespace Measure

/-- Lengths in bytes, by which alternatives are sorted. -/
def bytes : Measure where
  length := byteLength
  length_lt hbegins hne := Nat.lt_of_not_le fun hle ↦ hne (eq_of_isPrefix hbegins hle)

/-- Lengths in characters. -/
def characters : Measure where
  length := List.length
  length_lt hbegins hne := Nat.lt_of_not_le fun hle ↦ hne (hbegins.eq_of_length_le hle)

/-- **Of the beginnings of a text, the shorter is the beginning of the longer**, in whatever way
they are measured. -/
theorem le_iff_isPrefix (measure : Measure) {s t text : Text} (hs : s <+: text) (ht : t <+: text) :
    measure.length s ≤ measure.length t ↔ s <+: t := by
  rcases List.prefix_or_prefix_of_prefix hs ht with hle | hle
  · refine iff_of_true ?_ hle
    by_cases heq : s = t
    · exact Nat.le_of_eq (congrArg measure.length heq)
    · exact Nat.le_of_lt (measure.length_lt hle heq)
  · by_cases heq : s = t
    · rw [heq]
      exact iff_of_true (Nat.le_refl _) List.prefix_rfl
    · refine iff_of_false (Nat.not_le.2 (measure.length_lt hle (Ne.symm heq))) fun hle' ↦ heq ?_
      exact hle'.eq_of_length_le hle.length_le

end Measure

/-! ### The longest text that fits -/

/-- `piece` is the longest of the given texts with which `text` begins. -/
structure Longest (measure : Measure) (texts : List Text) (text piece : Text) : Prop where
  mem : piece ∈ texts
  isPrefix : piece <+: text
  longest : ∀ other ∈ texts, other <+: text → measure.length other ≤ measure.length piece

variable {measure measure' : Measure} {texts texts' : List Text} {text piece piece' : Text}

theorem Longest.unique (h : Longest measure texts text piece)
    (h' : Longest measure texts text piece') : piece = piece' := by
  have hle := (measure.le_iff_isPrefix h.isPrefix h'.isPrefix).1
    (h'.longest piece h.mem h.isPrefix)
  have hge := (measure.le_iff_isPrefix h'.isPrefix h.isPrefix).1
    (h.longest piece' h'.mem h'.isPrefix)
  exact hle.eq_of_length_le hge.length_le

/-- **Which text is the longest** depends on the set of texts only, and not on the measure. -/
theorem Longest.congr (h : Longest measure texts text piece)
    (hmem : ∀ t, t ∈ texts ↔ t ∈ texts') : Longest measure' texts' text piece where
  mem := (hmem piece).1 h.mem
  isPrefix := h.isPrefix
  longest other hother hbegins := by
    rw [measure'.le_iff_isPrefix hbegins h.isPrefix, ← measure.le_iff_isPrefix hbegins h.isPrefix]
    exact h.longest other ((hmem other).2 hother) hbegins

/-- **In a list without a text that is longer than one before it**, the first that fits is the
longest. -/
theorem find?_eq_some_iff_longest
    (hdescending : texts.Pairwise fun s t ↦ measure.length t ≤ measure.length s) :
    (texts.find? fun t ↦ t <+: text) = some piece ↔ Longest measure texts text piece := by
  have hfirst : ∀ {first}, (texts.find? fun t ↦ t <+: text) = some first →
      Longest measure texts text first := by
    intro first hfind
    obtain ⟨hbegins, earlier, later, rfl, hnot⟩ := List.find?_eq_some_iff_append.1 hfind
    refine ⟨by simp, of_decide_eq_true hbegins, fun other hother hfits ↦ ?_⟩
    -- What fits is not before the first that fits, so it is this one or comes later.
    have hlater : other ∈ first :: later := by
      refine (List.mem_append.1 hother).resolve_left fun hearlier ↦ ?_
      simpa [hfits] using hnot other hearlier
    have htail := (List.pairwise_append.1 hdescending).2.1
    obtain rfl | hlater := List.mem_cons.1 hlater
    · exact Nat.le_refl _
    · exact (List.pairwise_cons.1 htail).1 other hlater
  refine ⟨hfirst, fun h ↦ ?_⟩
  have hsome : (texts.find? fun t ↦ t <+: text).isSome :=
    List.find?_isSome.2 ⟨piece, h.mem, decide_eq_true h.isPrefix⟩
  obtain ⟨first, hfind⟩ := Option.isSome_iff_exists.1 hsome
  rw [hfind, (hfirst hfind).unique h]

end Text

/-! ### Tokens in each other's place -/

/-- **Tokens that take the same pieces** can be put in each other's place. -/
theorem matchesWhole_congr_token {token token' : Token}
    (h : ∀ piece rest, token.Takes piece rest ↔ token'.Takes piece rest)
    (left right : List Token) (name : Text) :
    matchesWhole (left ++ token :: right) name = matchesWhole (left ++ token' :: right) name := by
  have hturn : ∀ piece rest, TakeInTurn piece rest [token] ↔ TakeInTurn piece rest [token'] := by
    intro piece rest
    rw [takeInTurn_singleton, takeInTurn_singleton, h]
  rw [List.append_cons left token right, List.append_cons left token' right]
  exact matchesWhole_congr hturn left right name

namespace Pattern

/-! ### What is written between braces -/

variable {content rest : Text}

/-- The alternatives of a group are the pieces between its commas. -/
theorem mem_alternativesOf {order : AlternativeOrder} {t : Text} :
    t ∈ alternativesOf order content ↔ t ∈ content.splitOn ',' := by
  cases order <;> simp [alternativesOf, arrange]

theorem alternativesOf_ne_nil (order : AlternativeOrder) (content : Text) :
    alternativesOf order content ≠ [] := by
  obtain ⟨t, ht⟩ := List.exists_mem_of_ne_nil _ (List.splitOn_ne_nil ',' content)
  exact List.ne_nil_of_mem (mem_alternativesOf.2 ht)

theorem descending_alternativesOf (content : Text) :
    (alternativesOf .longest content).Pairwise fun s t ↦
      Text.Measure.bytes.length t ≤ Text.Measure.bytes.length s :=
  (longestFirst_mergeSort _).descending

/-- **The first alternative that fits** is the longest piece that does. -/
theorem find?_alternativesOf {piece : Text} :
    ((alternativesOf .longest content).find? fun t ↦ t <+: rest) = some piece ↔
      Text.Longest .bytes (content.splitOn ',') rest piece := by
  rw [Text.find?_eq_some_iff_longest (descending_alternativesOf content)]
  exact ⟨fun h ↦ h.congr fun _ ↦ mem_alternativesOf,
    fun h ↦ h.congr fun _ ↦ mem_alternativesOf.symm⟩

/-- A matcher of the group answers with the bytes of this piece. -/
theorem matches?_alternativesOf (position : Nat) (exhausted : Bool) :
    Matcher.matches? ⟨.oneOf (alternativesOf .longest content), position, exhausted⟩ rest =
      ((alternativesOf .longest content).find? fun t ↦ t <+: rest).map Text.byteLength := by
  refine Option.ext fun n ↦ ?_
  have hne := alternativesOf_ne_nil .longest content
  rw [Matcher.matches?_eq_some_iff (by simp), Option.map_eq_some_iff]
  constructor
  · rintro ⟨piece, rest', rfl, htakes, hlength⟩
    exact ⟨piece, (Token.takes_oneOf_iff hne).1 htakes, hlength⟩
  · rintro ⟨piece, hfind, hlength⟩
    obtain ⟨rest', rfl⟩ := (find?_alternativesOf.1 hfind).isPrefix
    exact ⟨piece, rest', rfl, (Token.takes_oneOf_iff hne).2 hfind, hlength⟩

/-- **Any list of the same texts**, sorted by any measure, takes the same pieces. -/
theorem takes_iff_of_descending {measure : Text.Measure} {alternatives : List Text}
    (hmem : ∀ piece, piece ∈ alternatives ↔ piece ∈ content.splitOn ',')
    (hdescending : alternatives.Pairwise fun s t ↦ measure.length t ≤ measure.length s)
    (piece rest : Text) :
    (Token.oneOf alternatives).Takes piece rest ↔
      (Token.oneOf (alternativesOf .longest content)).Takes piece rest := by
  obtain ⟨t, ht⟩ := List.exists_mem_of_ne_nil _ (List.splitOn_ne_nil ',' content)
  have hne : alternatives ≠ [] := List.ne_nil_of_mem ((hmem t).2 ht)
  rw [Token.takes_oneOf_iff hne, Token.takes_oneOf_iff (alternativesOf_ne_nil _ content),
    find?_alternativesOf, Text.find?_eq_some_iff_longest hdescending]
  exact ⟨fun h ↦ h.congr hmem, fun h ↦ h.congr fun t ↦ (hmem t).symm⟩

end Pattern

/-- **Tried longest first, alternatives match as a set.** Two brace groups with the same pieces
between their commas, in whatever order and however often, match the same names, with any tokens
before and behind. A matcher of such a group answers with the bytes of the longest piece with which
the text begins, and has no answer if it begins with none. Neither the order of pieces of one length
nor the measure has an influence: any list of these pieces in which no piece is longer than one
before it, by any measure, is matched in the same way. -/
theorem matchesWhole_longestFirst :
    (∀ content content' : Text,
      (∀ piece, piece ∈ content.splitOn ',' ↔ piece ∈ content'.splitOn ',') →
      ∀ left right name,
        matchesWhole (left ++ .oneOf (alternativesOf .longest content) :: right) name =
          matchesWhole (left ++ .oneOf (alternativesOf .longest content') :: right) name) ∧
    (∀ content position exhausted rest n,
      Matcher.matches? ⟨.oneOf (alternativesOf .longest content), position, exhausted⟩ rest =
          some n ↔
        ∃ piece, Text.Longest .bytes (content.splitOn ',') rest piece ∧ piece.byteLength = n) ∧
    (∀ content position exhausted rest,
      Matcher.matches? ⟨.oneOf (alternativesOf .longest content), position, exhausted⟩ rest =
          none ↔
        ∀ piece ∈ content.splitOn ',', ¬piece <+: rest) ∧
    ∀ (measure : Text.Measure) (content : Text) (alternatives : List Text),
      (∀ piece, piece ∈ alternatives ↔ piece ∈ content.splitOn ',') →
      (alternatives.Pairwise fun s t ↦ measure.length t ≤ measure.length s) →
      (∀ position exhausted rest,
        Matcher.matches? ⟨.oneOf alternatives, position, exhausted⟩ rest =
          Matcher.matches? ⟨.oneOf (alternativesOf .longest content), position, exhausted⟩ rest) ∧
      ∀ left right name,
        matchesWhole (left ++ .oneOf alternatives :: right) name =
          matchesWhole (left ++ .oneOf (alternativesOf .longest content) :: right) name := by
  refine ⟨fun content content' hmem left right name ↦ ?_,
    fun content position exhausted rest n ↦ ?_, fun content position exhausted rest ↦ ?_,
    fun measure content alternatives hmem hdescending ↦ ⟨fun position exhausted rest ↦ ?_,
      fun left right name ↦ ?_⟩⟩
  · have hmem' : ∀ piece, piece ∈ alternativesOf .longest content ↔ piece ∈ content'.splitOn ',' :=
      fun piece ↦ mem_alternativesOf.trans (hmem piece)
    exact matchesWhole_congr_token
      (takes_iff_of_descending hmem' (descending_alternativesOf content))
      left right name
  · rw [matches?_alternativesOf, Option.map_eq_some_iff]
    simp only [find?_alternativesOf]
  · rw [matches?_alternativesOf, Option.map_eq_none_iff, List.find?_eq_none]
    simp only [mem_alternativesOf, decide_eq_true_eq]
  · exact Matcher.matches?_congr (by simp) (by simp) (takes_iff_of_descending hmem hdescending) rest
  · exact matchesWhole_congr_token (takes_iff_of_descending hmem hdescending) left right name

/-- The pieces of two groups, with repetitions in one of them, and sorted by characters: of `b` and
`é`, the latter is the longer in bytes only. -/
theorem matchesWhole_longestFirst_reordered :
    let content := "b,ab,é".toList
    let content' := "é,b,ab,b".toList
    let alternatives := ["ab".toList, "b".toList, "é".toList]
    (∀ piece, piece ∈ content.splitOn ',' ↔ piece ∈ content'.splitOn ',') ∧
    (∀ left right name,
      matchesWhole (left ++ .oneOf (alternativesOf .longest content) :: right) name =
        matchesWhole (left ++ .oneOf (alternativesOf .longest content') :: right) name) ∧
    (∀ piece, piece ∈ alternatives ↔ piece ∈ content.splitOn ',') ∧
    (alternatives.Pairwise fun s t ↦
      Text.Measure.characters.length t ≤ Text.Measure.characters.length s) ∧
    ¬Token.Descending alternatives ∧
    ∀ left right name,
      matchesWhole (left ++ .oneOf alternatives :: right) name =
        matchesWhole (left ++ .oneOf (alternativesOf .longest content) :: right) name := by
  intro content content' alternatives
  have hpieces : content.splitOn ',' = ["b".toList, "ab".toList, "é".toList] := by decide
  have hpieces' : content'.splitOn ',' = ["é".toList, "b".toList, "ab".toList, "b".toList] := by
    decide
  have hmem : ∀ piece, piece ∈ content.splitOn ',' ↔ piece ∈ content'.splitOn ',' := by
    have hsub : content.splitOn ',' ⊆ content'.splitOn ',' := by rw [hpieces, hpieces']; decide
    have hsub' : content'.splitOn ',' ⊆ content.splitOn ',' := by rw [hpieces, hpieces']; decide
    exact fun piece ↦ ⟨fun h ↦ hsub h, fun h ↦ hsub' h⟩
  have hmem' : ∀ piece, piece ∈ alternatives ↔ piece ∈ content.splitOn ',' := by
    have hsub : alternatives ⊆ content.splitOn ',' := by rw [hpieces]; decide
    have hsub' : content.splitOn ',' ⊆ alternatives := by rw [hpieces]; decide
    exact fun piece ↦ ⟨fun h ↦ hsub h, fun h ↦ hsub' h⟩
  have hsorted : alternatives.Pairwise fun s t ↦
      Text.Measure.characters.length t ≤ Text.Measure.characters.length s := by
    decide
  have hbytes : ¬Token.Descending alternatives := by
    rw [Token.Descending]
    decide
  exact ⟨hmem, matchesWhole_longestFirst.1 content content' hmem, hmem', hsorted, hbytes,
    (matchesWhole_longestFirst.2.2.2 .characters content alternatives hmem' hsorted).2⟩

end OscAddressing

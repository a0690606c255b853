import OscAddressing.Proofs.Matching.Search
import OscAddressing.Proofs.Pattern.Layout

/-!
# The choice among alternatives is final

A brace group stands for the first of its alternatives that the name goes on with, and the search
never comes back to another one. As patterns are usually read, it may stand for any of them
(`Token.Spells`, `Spelled`). `matchesWhole_spelled` compares the two readings: the first accepts no
more names than the second, and it accepts the same names where the choice is `Decisive`.

Nothing has to be known of the search for this. Both readings go through a token list from the left
(`matchesWhole_cons_iff`, `spelled_cons_iff`), so they are compared at one brace group:
`Token.takes_of_spells` says that an alternative is the first that fits, once no earlier one that
differs from it fits as well.
-/

namespace OscAddressing

open Pattern

/-! ### Any of the alternatives -/

/-- `piece` is something that the token may stand for, if any alternative of a brace group may be
chosen. -/
def Token.Spells (piece : Text) : Token → Prop
  | literal text => piece = text
  | anyRun => True
  | anyChar => ∃ c, piece = [c]
  | charSet exclusion groups =>
    ∃ c, piece = [c] ∧ ((∃ group ∈ groups, group.contains c = true) ↔ exclusion = false)
  | oneOf [] => piece = []
  | oneOf alternatives => piece ∈ alternatives

/-- **The language of free choice**: a name is cut into pieces, one for each token, that the tokens
may stand for. -/
def Spelled (tokens : List Token) (name : Text) : Prop :=
  ∃ pieces : List Text, pieces.flatten = name ∧
    List.Forall₂ (fun token piece ↦ Token.Spells piece token) tokens pieces

theorem spelled_nil_iff {name : Text} : Spelled [] name ↔ name = [] := by
  constructor
  · rintro ⟨pieces, rfl, hspells⟩
    cases hspells
    rfl
  · rintro rfl
    exact ⟨[], rfl, .nil⟩

theorem spelled_cons_iff {token : Token} {tokens : List Token} {name : Text} :
    Spelled (token :: tokens) name ↔
      ∃ piece rest, name = piece ++ rest ∧ token.Spells piece ∧ Spelled tokens rest := by
  constructor
  · rintro ⟨_, rfl, hspells⟩
    cases hspells with
    | cons hpiece hpieces => exact ⟨_, _, List.flatten_cons, hpiece, _, rfl, hpieces⟩
  · rintro ⟨piece, _, rfl, hpiece, pieces, rfl, hpieces⟩
    exact ⟨piece :: pieces, List.flatten_cons, .cons hpiece hpieces⟩

/-! ### One token -/

namespace Token

variable {alternatives : List Text} {piece rest : Text}

theorem spells_oneOf_iff :
    (oneOf alternatives).Spells piece ↔ piece ∈ alternatives ∨ alternatives = [] ∧ piece = [] := by
  cases alternatives <;> simp [Spells]

/-- **What a token takes, it may stand for.** -/
theorem Takes.spells {token : Token} (h : token.Takes piece rest) : token.Spells piece := by
  cases token with
  | oneOf alternatives =>
    rw [spells_oneOf_iff]
    obtain ⟨hnil, hpiece⟩ | ⟨earlier, later, rfl, -⟩ := h
    · exact .inr ⟨hnil, hpiece⟩
    · exact .inl (by simp)
  | _ => exact h

/-- An alternative is taken, once each alternative that fits is not before it or is no other. -/
theorem takes_of_spells
    (hfits : ∀ earlier later, alternatives = earlier ++ piece :: later →
      ∀ text ∈ earlier, text <+: piece ++ rest → text = piece)
    (h : (oneOf alternatives).Spells piece) : (oneOf alternatives).Takes piece rest := by
  rcases spells_oneOf_iff.1 h with hmem | hnone
  · -- The first occurrence of the alternative has nothing before it that fits.
    obtain ⟨earlier, later, hsplit, hnot⟩ := List.eq_append_cons_of_mem hmem
    refine .inr ⟨earlier, later, hsplit, fun text htext hprefix ↦ hnot ?_⟩
    exact hfits earlier later hsplit text htext hprefix ▸ htext
  · exact .inl hnone

/-- **No alternative begins with another one.** -/
def PrefixFree (alternatives : List Text) : Prop :=
  ∀ s ∈ alternatives, ∀ t ∈ alternatives, s <+: t → s = t

instance : Decidable (PrefixFree alternatives) :=
  inferInstanceAs (Decidable (∀ s ∈ alternatives, ∀ t ∈ alternatives, s <+: t → s = t))

/-- **No alternative is longer than one before it.** -/
def Descending (alternatives : List Text) : Prop :=
  alternatives.Pairwise fun s t ↦ t.byteLength ≤ s.byteLength

theorem PrefixFree.takes_of_spells (hfree : PrefixFree alternatives)
    (h : (oneOf alternatives).Spells piece) : (oneOf alternatives).Takes piece rest := by
  refine Token.takes_of_spells (fun earlier later hsplit text htext hprefix ↦ ?_) h
  have hmem : text ∈ alternatives ∧ piece ∈ alternatives := by
    rw [hsplit]
    exact ⟨List.mem_append_left _ htext, by simp⟩
  -- Of two texts that a text begins with, one begins with the other.
  rcases List.prefix_or_prefix_of_prefix hprefix (List.prefix_append piece rest) with hle | hle
  · exact hfree text hmem.1 piece hmem.2 hle
  · exact (hfree piece hmem.2 text hmem.1 hle).symm

/-- At the end of a name the longest alternatives come first. -/
theorem Descending.takes_of_spells (hdescending : Descending alternatives)
    (h : (oneOf alternatives).Spells piece) : (oneOf alternatives).Takes piece [] := by
  refine Token.takes_of_spells (fun earlier later hsplit text htext hprefix ↦ ?_) h
  rw [Descending, hsplit, List.pairwise_append] at hdescending
  rw [List.append_nil] at hprefix
  exact Text.eq_of_isPrefix hprefix
    (hdescending.2.2 text htext piece (List.mem_cons_self ..))

end Token

/-! ### Token lists -/

/-- **The choice of the first alternative is as good as any**, wherever there is one: no alternative
begins with another, or the group is the last token and no alternative is longer than one before
it. -/
def Decisive (tokens : List Token) : Prop :=
  ∀ left alternatives right, tokens = left ++ .oneOf alternatives :: right →
    Token.PrefixFree alternatives ∨ right = [] ∧ Token.Descending alternatives

theorem Decisive.tail {token : Token} {tokens : List Token} (h : Decisive (token :: tokens)) :
    Decisive tokens := by
  intro left alternatives right hsplit
  exact h (token :: left) alternatives right (by rw [hsplit, List.cons_append])

theorem spelled_of_matchesWhole {tokens : List Token} {name : Text}
    (h : matchesWhole tokens name = true) : Spelled tokens name := by
  induction tokens generalizing name with
  | nil => exact spelled_nil_iff.2 (matchesWhole_nil_iff.1 h)
  | cons token tokens ih =>
    obtain ⟨piece, rest, rfl, htakes, hrest⟩ := matchesWhole_cons_iff.1 h
    exact spelled_cons_iff.2 ⟨piece, rest, rfl, htakes.spells, ih hrest⟩

/-- **Where the choice is decisive, none is missed.** -/
theorem Decisive.matchesWhole {tokens : List Token} {name : Text} (hdecisive : Decisive tokens)
    (h : Spelled tokens name) : matchesWhole tokens name = true := by
  induction tokens generalizing name with
  | nil => exact matchesWhole_nil_iff.2 (spelled_nil_iff.1 h)
  | cons token tokens ih =>
    obtain ⟨piece, rest, rfl, hspells, hrest⟩ := spelled_cons_iff.1 h
    refine matchesWhole_cons_iff.2 ⟨piece, rest, rfl, ?_, ih hdecisive.tail hrest⟩
    cases token with
    | oneOf alternatives =>
      rcases hdecisive [] alternatives tokens rfl with hfree | ⟨rfl, hdescending⟩
      · exact hfree.takes_of_spells hspells
      · obtain rfl := spelled_nil_iff.1 hrest
        exact hdescending.takes_of_spells hspells
    | _ => exact hspells

/-! ### Brace groups of a segment -/

/-- **The longest alternatives of a segment come first**, when it is read so. -/
theorem descending_of_mem_scan {segment : Text} {alternatives : List Text}
    (h : .oneOf alternatives ∈ scan .longest segment) : Token.Descending alternatives := by
  obtain ⟨slices, -, hlaid⟩ := exists_laidOut .longest segment
  generalize scan .longest segment = tokens at h hlaid
  induction hlaid with
  | nil => exact absurd h List.not_mem_nil
  | @cons token tokens slice slices hwritten _ _ ih =>
    rcases List.mem_cons.1 h with rfl | h
    · obtain ⟨content, -, -, pieces, distinct, -, -, -, -, htried⟩ := hwritten
      exact htried.descending
    · exact ih h

/-- **A name that matches is in the language of free choice**, whatever the tokens are. The names
that match are all of this language, if the choice of the first alternative is decisive; and so it
is in every segment that is read with the longest alternatives first and has no brace group but as
its last token. -/
theorem matchesWhole_spelled :
    (∀ tokens name, matchesWhole tokens name = true → Spelled tokens name) ∧
    (∀ tokens, Decisive tokens → ∀ name, matchesWhole tokens name = true ↔ Spelled tokens name) ∧
    ∀ segment,
      (∀ left alternatives right,
        scan .longest segment = left ++ .oneOf alternatives :: right → right = []) →
      ∀ name, matchesWhole (scan .longest segment) name = true ↔
        Spelled (scan .longest segment) name := by
  have hiff : ∀ tokens, Decisive tokens → ∀ name,
      matchesWhole tokens name = true ↔ Spelled tokens name :=
    fun tokens hdecisive name ↦ ⟨spelled_of_matchesWhole, hdecisive.matchesWhole⟩
  refine ⟨fun tokens name ↦ spelled_of_matchesWhole, hiff, fun segment hlast ↦ hiff _ ?_⟩
  intro left alternatives right hsplit
  have hmem : .oneOf alternatives ∈ scan .longest segment := by
    rw [hsplit]
    simp
  exact .inr ⟨hlast left alternatives right hsplit, descending_of_mem_scan hmem⟩

/-- Of two sides one is chosen and anything follows; and after anything one of two endings comes, of
which the longer is tried first. -/
theorem matchesWhole_spelled_endings :
    let sides : List Token := [.oneOf ["left".toList, "right".toList], .anyRun]
    let segment := ['*', '{', 'b', ',', 'a', 'b', '}']
    Decisive sides ∧
    (∀ name, matchesWhole sides name = true ↔ Spelled sides name) ∧
    scan .longest segment = [.anyRun, .oneOf ["ab".toList, "b".toList]] ∧
    (∀ name, matchesWhole (scan .longest segment) name = true ↔
      Spelled (scan .longest segment) name) ∧
    Spelled (scan .longest segment) "xab".toList := by
  intro sides segment
  have hsides : Decisive sides := by
    intro left alternatives right hsplit
    have hmem : Token.oneOf alternatives ∈ sides := by
      rw [hsplit]
      simp
    obtain rfl : alternatives = ["left".toList, "right".toList] := by simpa [sides] using hmem
    exact .inl (by decide)
  have halternatives : alternativesOf .longest ['b', ',', 'a', 'b'] =
      ["ab".toList, "b".toList] := by
    have hgiven : (['b', ',', 'a', 'b'].splitOn ',').eraseDups = ["b".toList, "ab".toList] := by
      decide
    rw [alternativesOf, arrange, hgiven]
    refine longestFirst_iff.1 ⟨by decide, fun n ↦ ?_⟩
    have hlong : Text.byteLength "ab".toList = 2 := by decide
    have hshort : Text.byteLength "b".toList = 1 := by decide
    simp only [List.filter_cons, List.filter_nil, hlong, hshort, decide_eq_true_eq]
    split <;> split <;> first | rfl | omega
  have hscan : scan .longest segment = [.anyRun, .oneOf ["ab".toList, "b".toList]] := by
    have hgroup : leadingGroup? .longest ['{', 'b', ',', 'a', 'b', '}'] =
        some (.oneOf (alternativesOf .longest ['b', ',', 'a', 'b']), []) := rfl
    rw [scan_star, scan_of_leadingGroup? hgroup, halternatives, scan_nil]
    rfl
  have hlast : ∀ left alternatives right,
      scan .longest segment = left ++ .oneOf alternatives :: right → right = [] := by
    intro left alternatives right hsplit
    rw [hscan] at hsplit
    obtain _ | ⟨_, _ | ⟨_, left⟩⟩ := left <;> simp_all
  have hmatches : matchesWhole (scan .longest segment) "xab".toList = true := by
    rw [hscan]
    decide
  exact ⟨hsides, matchesWhole_spelled.2.1 sides hsides, hscan,
    matchesWhole_spelled.2.2 segment hlast, matchesWhole_spelled.1 _ _ hmatches⟩

end OscAddressing

import Mathlib.Data.List.Induction
import OscAddressing.Pattern.Scan
import OscAddressing.Proofs.Text.Split

/-!
# What is written in a group

The reading of the text between brackets or braces, said without the reader. Between brackets the
members are written left to right, and a character with a dash behind it is the first of a range
unless the dash ends the text: `charGroups_eq_iff`, and with the mark of exclusion
`charSetOf_eq_iff`. Between braces the alternatives are the pieces between commas without the later
repetitions (`Firsts`), in the order written or longest first (`LongestFirst`):
`alternativesOf_eq_iff`.

Each of the three is an equivalence. So the written text has one reading, and a text can be shown to
be read in a certain way by showing that it is what is written for it.
-/

namespace OscAddressing

namespace CharGroup

/-! ### Between brackets -/

/-- **No single character is followed by a dash**, unless the dash is the last character of all. -/
def Spread (groups : List CharGroup) : Prop :=
  ∀ before c after rest, groups = before ++ single c :: after →
    after.flatMap render = '-' :: rest → rest = []

theorem spread_nil : Spread [] := by
  intro before c after rest h
  simp at h

theorem Spread.tail {group : CharGroup} {groups : List CharGroup} (h : Spread (group :: groups)) :
    Spread groups := by
  intro before c after rest hsplit
  exact h (group :: before) c after rest (by rw [hsplit, List.cons_append])

theorem spread_cons_range {first last : Char} {groups : List CharGroup} (h : Spread groups) :
    Spread (range first last :: groups) := by
  intro before c after rest hsplit
  cases before with
  | nil => simp at hsplit
  | cons group before => exact h before c after rest (List.cons.inj hsplit).2

theorem spread_cons_single {c : Char} {groups : List CharGroup} (h : Spread groups)
    (hdash : ∀ rest, groups.flatMap render = '-' :: rest → rest = []) :
    Spread (single c :: groups) := by
  intro before d after rest hsplit
  cases before with
  | nil =>
    obtain ⟨-, rfl⟩ := List.cons.inj hsplit
    exact hdash rest
  | cons group before => exact h before d after rest (List.cons.inj hsplit).2

end CharGroup

namespace Pattern

variable {order : AlternativeOrder}

/-- Without a dash and a further character behind it, a character stands for itself. -/
theorem charGroups_single {c : Char} {rest : Text}
    (h : ∀ rest', rest = '-' :: rest' → rest' = []) :
    charGroups (c :: rest) = .single c :: charGroups rest := by
  rw [charGroups]
  rintro last rest' hdash
  exact absurd (h (last :: rest') hdash) (List.cons_ne_nil _ _)

/-- What has been read between brackets is what is written there. -/
theorem charGroups_written (content : Text) :
    (charGroups content).flatMap CharGroup.render = content ∧
      CharGroup.Spread (charGroups content) := by
  fun_induction charGroups content with
  | case1 first last rest ih =>
    refine ⟨?_, CharGroup.spread_cons_range ih.2⟩
    rw [List.flatMap_cons, ih.1]
    rfl
  | case2 c rest hdash ih =>
    refine ⟨?_, CharGroup.spread_cons_single ih.2 fun rest' heq ↦ ?_⟩
    · rw [List.flatMap_cons, ih.1]
      rfl
    · -- A further character behind the dash would have made a range.
      rw [ih.1] at heq
      cases rest' with
      | nil => rfl
      | cons last rest' => exact absurd heq (hdash last rest')
  | case3 => exact ⟨rfl, CharGroup.spread_nil⟩

/-- **The members between brackets** are those that are written there, no single character of which
is followed by a dash. -/
theorem charGroups_eq_iff {content : Text} {groups : List CharGroup} :
    charGroups content = groups ↔
      groups.flatMap CharGroup.render = content ∧ CharGroup.Spread groups := by
  constructor
  · rintro rfl
    exact charGroups_written content
  · rintro ⟨rfl, hspread⟩
    induction groups with
    | nil => rfl
    | cons group groups ih =>
      have hgroups := ih hspread.tail
      rw [List.flatMap_cons]
      cases group with
      | range first last =>
        show charGroups (first :: '-' :: last :: groups.flatMap CharGroup.render) = _
        rw [charGroups, hgroups]
      | single c =>
        show charGroups (c :: groups.flatMap CharGroup.render) = _
        rw [charGroups_single fun rest ↦ hspread [] c groups rest rfl, hgroups]

theorem exists_charSetOf (written : Text) :
    ∃ exclusion groups, charSetOf written = .charSet exclusion groups := by
  rw [charSetOf.eq_def]
  split
  · exact ⟨true, _, rfl⟩
  · exact ⟨false, _, rfl⟩

/-- **The token of a text between brackets**: a first exclamation mark is for exclusion. -/
theorem charSetOf_eq_iff {written : Text} {exclusion : Bool} {groups : List CharGroup} :
    charSetOf written = .charSet exclusion groups ↔
      ∃ content, written = (if exclusion then ['!'] else []) ++ content ∧
        (exclusion = false → content.head? ≠ some '!') ∧
        groups.flatMap CharGroup.render = content ∧ CharGroup.Spread groups := by
  rw [charSetOf.eq_def]
  split
  case h_1 content =>
    rw [Token.charSet.injEq, charGroups_eq_iff]
    constructor
    · rintro ⟨rfl, hgroups⟩
      exact ⟨content, rfl, nofun, hgroups⟩
    · rintro ⟨content', hwritten, hmark, hgroups⟩
      cases exclusion with
      | true =>
        obtain rfl : content = content' := (List.cons.inj hwritten).2
        exact ⟨rfl, hgroups⟩
      | false =>
        rw [if_neg Bool.false_ne_true, List.nil_append] at hwritten
        exact absurd (hwritten ▸ rfl) (hmark rfl)
  case h_2 hmark =>
    rw [Token.charSet.injEq, charGroups_eq_iff]
    constructor
    · rintro ⟨rfl, hgroups⟩
      refine ⟨written, rfl, fun _ hhead ↦ ?_, hgroups⟩
      obtain ⟨rest, rfl⟩ := List.head?_eq_some_iff.1 hhead
      exact hmark rest rfl
    · rintro ⟨content, hwritten, -, hgroups⟩
      cases exclusion with
      | true => exact absurd hwritten (hmark content)
      | false => exact ⟨rfl, hwritten ▸ hgroups⟩

/-! ### Between braces -/

/-- **A list without the later repetitions of its elements**, built up from the left. -/
inductive Firsts : List Text → List Text → Prop
  | nil : Firsts [] []
  /-- An element that has come before is dropped. -/
  | repeated {pieces distinct : List Text} {piece : Text} :
      Firsts pieces distinct → piece ∈ pieces → Firsts (pieces ++ [piece]) distinct
  /-- Any other one is kept. -/
  | kept {pieces distinct : List Text} {piece : Text} :
      Firsts pieces distinct → piece ∉ pieces → Firsts (pieces ++ [piece]) (distinct ++ [piece])

theorem eraseDups_concat (pieces : List Text) (piece : Text) :
    (pieces ++ [piece]).eraseDups =
      if piece ∈ pieces then pieces.eraseDups else pieces.eraseDups ++ [piece] := by
  rw [List.eraseDups_append]
  split
  case isTrue hmem => simp [List.removeAll, hmem]
  case isFalse hmem => simp [List.removeAll, hmem, List.eraseDups_cons]

theorem firsts_iff {pieces distinct : List Text} :
    Firsts pieces distinct ↔ pieces.eraseDups = distinct := by
  constructor
  · intro h
    induction h with
    | nil => rfl
    | repeated _ hmem ih => rw [eraseDups_concat, if_pos hmem, ih]
    | kept _ hmem ih => rw [eraseDups_concat, if_neg hmem, ih]
  · rintro rfl
    induction pieces using List.reverseRecOn with
    | nil => exact .nil
    | append_singleton pieces piece ih =>
      rw [eraseDups_concat]
      split
      case isTrue hmem => exact .repeated ih hmem
      case isFalse hmem => exact .kept ih hmem

/-- **Sorted by byte length**, the longest first, with those of one length in the order given. -/
structure LongestFirst (given sorted : List Text) : Prop where
  descending : sorted.Pairwise fun s t ↦ t.byteLength ≤ s.byteLength
  stable : ∀ n, (sorted.filter fun t ↦ t.byteLength = n) = given.filter fun t ↦ t.byteLength = n

/-- What is sorted stably has the elements of the list given. -/
theorem LongestFirst.mem_iff {given sorted : List Text} (h : LongestFirst given sorted) {t : Text} :
    t ∈ sorted ↔ t ∈ given := by
  have hfilter : ∀ texts : List Text,
      t ∈ texts ↔ t ∈ texts.filter fun s ↦ s.byteLength = t.byteLength := by simp
  rw [hfilter sorted, hfilter given, h.stable]

/-- **Sorting merges, and merging is stable.** -/
theorem longestFirst_mergeSort (given : List Text) :
    LongestFirst given (given.mergeSort fun s t ↦ t.byteLength ≤ s.byteLength) := by
  have htrans : ∀ s t u : Text, decide (t.byteLength ≤ s.byteLength) = true →
      decide (u.byteLength ≤ t.byteLength) = true →
      decide (u.byteLength ≤ s.byteLength) = true := by
    intro s t u
    simp only [decide_eq_true_eq]
    omega
  have htotal : ∀ s t : Text,
      (decide (t.byteLength ≤ s.byteLength) || decide (s.byteLength ≤ t.byteLength)) = true := by
    intro s t
    simp only [Bool.or_eq_true, decide_eq_true_eq]
    omega
  refine ⟨(List.pairwise_mergeSort htrans htotal given).imp of_decide_eq_true, fun n ↦ ?_⟩
  -- The elements of one length are in order among themselves, so sorting keeps them as they are.
  have hordered : (given.filter fun t ↦ t.byteLength = n).Pairwise fun s t ↦
      decide (t.byteLength ≤ s.byteLength) = true := by
    refine List.pairwise_of_forall_mem_list fun s hs t ht ↦ ?_
    have hs := of_decide_eq_true (List.mem_filter.1 hs).2
    have ht := of_decide_eq_true (List.mem_filter.1 ht).2
    exact decide_eq_true (by omega)
  have hsub := (List.sublist_mergeSort htrans htotal hordered List.filter_sublist).filter
    fun t ↦ decide (t.byteLength = n)
  simp only [List.filter_filter, Bool.and_self] at hsub
  exact (hsub.eq_of_length ((List.mergeSort_perm given _).filter _).length_eq.symm).symm

/-- **There is one way to sort**: order and stability leave no choice. -/
theorem LongestFirst.unique {given sorted sorted' : List Text} (h : LongestFirst given sorted)
    (h' : LongestFirst given sorted') : sorted = sorted' := by
  induction sorted generalizing given sorted' with
  | nil =>
    refine (List.eq_nil_iff_forall_not_mem.2 fun t ht ↦ ?_).symm
    exact List.not_mem_nil (h.mem_iff.2 (h'.mem_iff.1 ht))
  | cons t rest ih =>
    cases sorted' with
    | nil => exact absurd (h'.mem_iff.2 (h.mem_iff.1 (List.mem_cons_self ..))) List.not_mem_nil
    | cons t' rest' =>
      obtain ⟨hfirst, hrest⟩ := List.pairwise_cons.1 h.descending
      obtain ⟨hfirst', hrest'⟩ := List.pairwise_cons.1 h'.descending
      -- Each of the two first elements is as long as any other, so they have one length.
      have hlength : t.byteLength = t'.byteLength := by
        have hle : ∀ s ∈ t :: rest, s.byteLength ≤ t.byteLength := by
          simpa using hfirst
        have hle' : ∀ s ∈ t' :: rest', s.byteLength ≤ t'.byteLength := by
          simpa using hfirst'
        exact Nat.le_antisymm
          (hle' t (h'.mem_iff.2 (h.mem_iff.1 (List.mem_cons_self ..))))
          (hle t' (h.mem_iff.2 (h'.mem_iff.1 (List.mem_cons_self ..))))
      have hfilter : ∀ n, ((t :: rest).filter fun s ↦ s.byteLength = n) =
          (t' :: rest').filter fun s ↦ s.byteLength = n :=
        fun n ↦ (h.stable n).trans (h'.stable n).symm
      have hhead := hfilter t.byteLength
      rw [List.filter_cons_of_pos (by simp), List.filter_cons_of_pos (by simp [hlength])] at hhead
      obtain ⟨rfl, -⟩ := List.cons.inj hhead
      have hstable : ∀ n, (rest.filter fun s ↦ s.byteLength = n) =
          rest'.filter fun s ↦ s.byteLength = n := by
        intro n
        have hn := hfilter n
        rw [List.filter_cons, List.filter_cons] at hn
        split at hn
        case isTrue => exact (List.cons.inj hn).2
        case isFalse => exact hn
      rw [ih ⟨hrest, fun n ↦ rfl⟩ ⟨hrest', fun n ↦ (hstable n).symm⟩]

theorem longestFirst_iff {given sorted : List Text} :
    LongestFirst given sorted ↔
      (given.mergeSort fun s t ↦ t.byteLength ≤ s.byteLength) = sorted := by
  constructor
  · exact (longestFirst_mergeSort given).unique
  · rintro rfl
    exact longestFirst_mergeSort given

/-- The order in which given alternatives are tried. -/
def Tried (given tried : List Text) : AlternativeOrder → Prop
  | .declared => tried = given
  | .longest => LongestFirst given tried

/-- **The alternatives between braces** are the pieces between commas, each once and in the order in
which they are tried. -/
theorem alternativesOf_eq_iff {content : Text} {alternatives : List Text} :
    alternativesOf order content = alternatives ↔
      ∃ pieces distinct, pieces ≠ [] ∧ (∀ piece ∈ pieces, ',' ∉ piece) ∧
        [','].intercalate pieces = content ∧ Firsts pieces distinct ∧
        Tried distinct alternatives order := by
  have harrange : ∀ given, arrange order given = alternatives ↔ Tried given alternatives order := by
    intro given
    cases order with
    | declared => exact eq_comm
    | longest => exact longestFirst_iff.symm
  rw [alternativesOf, harrange]
  constructor
  · intro htried
    obtain ⟨hne, hpieces, hjoin⟩ := Text.splitOn_eq_iff.1 (rfl : content.splitOn ',' = _)
    exact ⟨_, _, hne, hpieces, hjoin, firsts_iff.2 rfl, htried⟩
  · rintro ⟨pieces, distinct, hne, hpieces, hjoin, hfirsts, htried⟩
    rwa [Text.splitOn_eq_iff.2 ⟨hne, hpieces, hjoin⟩, firsts_iff.1 hfirsts]

/-! ### Where there is no group -/

/-- There is no group at the front of a text unless it begins with an opening character that has a
closing one behind it. -/
theorem leadingGroup?_eq_none_iff {c : Char} {rest : Text} :
    leadingGroup? order (c :: rest) = none ↔ (c = '[' → ']' ∉ rest) ∧ (c = '{' → '}' ∉ rest) := by
  rw [leadingGroup?.eq_def]
  split
  case h_1 rest' heq =>
    obtain ⟨rfl, rfl⟩ := List.cons.inj heq
    simp [Text.cut?_eq_none_iff]
  case h_2 rest' heq =>
    obtain ⟨rfl, rfl⟩ := List.cons.inj heq
    simp [Text.cut?_eq_none_iff]
  case h_3 hbracket hbrace =>
    refine iff_of_true rfl ⟨?_, ?_⟩
    · rintro rfl
      exact absurd rfl (hbracket rest)
    · rintro rfl
      exact absurd rfl (hbrace rest)

end Pattern

end OscAddressing

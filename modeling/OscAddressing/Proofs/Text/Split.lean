import OscAddressing.Text.Basic

/-!
# The pieces between marks

Splitting a text at a mark and joining pieces with it are inverse to each other, as long as no piece
has the mark and there is at least one. `splitOn_eq_iff` says it both ways: the pieces that a split
answers with are the only ones without the mark that join to the text. Addresses are split so at
separators, and the contents of brace groups at commas.
-/

namespace OscAddressing.Text

/-- What stands between marks has none. -/
theorem not_mem_of_mem_splitOn {mark : Char} {t piece : Text} (h : piece ∈ t.splitOn mark) :
    mark ∉ piece := by
  induction t generalizing piece with
  | nil =>
    rw [List.splitOn_nil, List.mem_singleton] at h
    subst h
    exact List.not_mem_nil
  | cons c t ih =>
    rw [List.splitOn_cons_eq_if_modifyHead] at h
    split at h
    case isTrue =>
      obtain rfl | h := List.mem_cons.1 h
      · exact List.not_mem_nil
      · exact ih h
    case isFalse hc =>
      obtain ⟨first, others, hsplit⟩ := List.exists_cons_of_ne_nil (List.splitOn_ne_nil mark t)
      rw [hsplit, List.modifyHead_cons] at h
      obtain rfl | h := List.mem_cons.1 h
      · rw [List.mem_cons, not_or]
        exact ⟨fun heq ↦ hc (by simp [heq]), ih (hsplit ▸ List.mem_cons_self ..)⟩
      · exact ih (hsplit ▸ List.mem_cons_of_mem _ h)

/-- **The pieces of a text** are those without the mark that join to it. -/
theorem splitOn_eq_iff {mark : Char} {t : Text} {pieces : List Text} :
    t.splitOn mark = pieces ↔
      pieces ≠ [] ∧ (∀ piece ∈ pieces, mark ∉ piece) ∧ [mark].intercalate pieces = t := by
  constructor
  · rintro rfl
    exact ⟨List.splitOn_ne_nil mark t, fun _ ↦ not_mem_of_mem_splitOn,
      List.intercalate_splitOn mark⟩
  · rintro ⟨hne, hpieces, rfl⟩
    exact List.splitOn_intercalate mark hpieces hne

/-- A character of joined texts is the mark, or a character of one of them. -/
theorem mem_intercalate {mark c : Char} {texts : List Text}
    (h : c ∈ [mark].intercalate texts) : c = mark ∨ ∃ t ∈ texts, c ∈ t := by
  induction texts with
  | nil => exact absurd h List.not_mem_nil
  | cons t texts ih =>
    cases texts with
    | nil => exact .inr ⟨t, List.mem_singleton_self t, by simpa using h⟩
    | cons next texts =>
      rw [List.intercalate_cons_cons, List.append_assoc, List.mem_append, List.mem_append,
        List.mem_singleton] at h
      rcases h with h | rfl | h
      · exact .inr ⟨t, List.mem_cons_self .., h⟩
      · exact .inl rfl
      · obtain hmark | ⟨t', hmem, hc⟩ := ih h
        · exact .inl hmark
        · exact .inr ⟨t', List.mem_cons_of_mem t hmem, hc⟩

theorem mem_intercalate_of_mem {mark c : Char} {texts : List Text} {t : Text}
    (ht : t ∈ texts) (hc : c ∈ t) : c ∈ [mark].intercalate texts := by
  induction texts with
  | nil => exact absurd ht List.not_mem_nil
  | cons first texts ih =>
    cases texts with
    | nil =>
      obtain rfl := List.mem_singleton.1 ht
      simpa using hc
    | cons next texts =>
      rw [List.intercalate_cons_cons, List.append_assoc, List.mem_append, List.mem_append]
      obtain rfl | ht := List.mem_cons.1 ht
      · exact .inl hc
      · exact .inr (.inr (ih ht))

end OscAddressing.Text

/-!
# Texts, measured in bytes

A text is the list of its characters. Addresses, names and patterns are taken apart character
by character, but positions in them, and the lengths by which matching advances, count bytes of
the UTF-8 form. The two views meet in `byteLength` and in `dropBytes?`, the cut at a byte
position; a position is a character boundary exactly when that cut succeeds
(`dropBytes?_eq_some_iff`). The other cut, `cut?`, is at the first occurrence of a character
(`cut?_eq_some_iff`), and what lies behind it is shorter than the text (`length_of_cut?`), on
which the recursion of the pattern scanner rests.
-/

namespace OscAddressing

/-- A text is the list of its characters. -/
abbrev Text := List Char

namespace Text

/-! ### Byte length -/

/-- The number of bytes of the UTF-8 form of a text. -/
def byteLength : Text → Nat
  | [] => 0
  | c :: rest => c.utf8Size + byteLength rest

@[simp] theorem byteLength_nil : byteLength [] = 0 := rfl

@[simp] theorem byteLength_cons (c : Char) (t : Text) :
    byteLength (c :: t) = c.utf8Size + byteLength t := rfl

@[simp] theorem byteLength_append (s t : Text) :
    byteLength (s ++ t) = byteLength s + byteLength t := by
  induction s with
  | nil => simp
  | cons c s ih => rw [List.cons_append, byteLength_cons, byteLength_cons, ih, Nat.add_assoc]

/-- A leading piece that is not shorter than the text is the text. -/
theorem eq_of_isPrefix {piece t : Text} (h : piece <+: t) (hle : byteLength t ≤ byteLength piece) :
    piece = t := by
  obtain ⟨rest, rfl⟩ := h
  rw [byteLength_append] at hle
  cases rest with
  | nil => exact (List.append_nil piece).symm
  | cons c rest =>
    have := c.utf8Size_pos
    rw [byteLength_cons] at hle
    omega

/-! ### The cut at a byte position -/

/-- What a text has after its first `n` bytes: `none` when the text has fewer than `n` bytes, and
when the cut would fall inside a character. -/
def dropBytes? : Text → Nat → Option Text
  | rest, 0 => some rest
  | [], _ + 1 => none
  | c :: rest, n + 1 =>
    if c.utf8Size ≤ n + 1 then dropBytes? rest (n + 1 - c.utf8Size) else none

@[simp] theorem dropBytes?_zero (t : Text) : dropBytes? t 0 = some t := by
  cases t <;> rfl

/-- **Cutting after a whole piece leaves the rest.** -/
theorem dropBytes?_append (s t : Text) : dropBytes? (s ++ t) (byteLength s) = some t := by
  induction s with
  | nil => simp
  | cons c s ih =>
    obtain ⟨k, hk⟩ := Nat.exists_eq_succ_of_ne_zero (Nat.ne_of_gt (Char.utf8Size_pos c))
    rw [byteLength_cons, List.cons_append,
      show c.utf8Size + byteLength s = (k + byteLength s) + 1 by omega, dropBytes?,
      if_pos (by omega), show k + byteLength s + 1 - c.utf8Size = byteLength s by omega, ih]

/-- A cut succeeds exactly at the byte length of a leading piece, that is at a character
boundary, and leaves what follows that piece. -/
theorem dropBytes?_eq_some_iff {t rest : Text} {n : Nat} :
    dropBytes? t n = some rest ↔ ∃ piece, t = piece ++ rest ∧ byteLength piece = n := by
  constructor
  · intro h
    induction t generalizing n with
    | nil =>
      cases n with
      | zero => exact ⟨[], by simpa [dropBytes?] using h, rfl⟩
      | succ n => simp [dropBytes?] at h
    | cons c t ih =>
      cases n with
      | zero => exact ⟨[], by simpa [dropBytes?] using h, rfl⟩
      | succ n =>
        rw [dropBytes?] at h
        split at h
        case isTrue hc =>
          obtain ⟨piece, rfl, hp⟩ := ih h
          exact ⟨c :: piece, rfl, by rw [byteLength_cons, hp]; omega⟩
        case isFalse => simp at h
  · rintro ⟨piece, rfl, rfl⟩
    exact dropBytes?_append piece rest

/-! ### The cut at a character -/

/-- The text before the first `mark`, and the text after it. -/
def cut? (mark : Char) : Text → Option (Text × Text)
  | [] => none
  | c :: rest =>
    if c = mark then some ([], rest)
    else (cut? mark rest).map fun (before, after) ↦ (c :: before, after)

theorem cut?_eq_some_iff {mark : Char} {t before after : Text} :
    cut? mark t = some (before, after) ↔ t = before ++ mark :: after ∧ mark ∉ before := by
  induction t generalizing before with
  | nil => simp [cut?]
  | cons c t ih =>
    rw [cut?]
    split
    case isTrue hc =>
      subst hc
      constructor
      · intro h
        obtain ⟨rfl, rfl⟩ := Prod.mk.inj (Option.some.inj h)
        simp
      · rintro ⟨h, hm⟩
        cases before with
        | nil => simpa using h
        | cons d before => simp_all
    case isFalse hc =>
      cases before with
      | nil => simp [hc]
      | cons d before =>
        simp only [Option.map_eq_some_iff, Prod.mk.injEq, List.cons.injEq, List.cons_append,
          List.mem_cons, not_or]
        constructor
        · rintro ⟨⟨b, a⟩, h, ⟨rfl, rfl⟩, rfl⟩
          obtain ⟨h, hm⟩ := ih.1 h
          exact ⟨⟨rfl, h⟩, fun h ↦ hc h.symm, hm⟩
        · rintro ⟨⟨rfl, h⟩, -, hm⟩
          exact ⟨(before, after), ih.2 ⟨h, hm⟩, ⟨rfl, rfl⟩, rfl⟩

/-- A text that lacks the mark has no cut, and no other text is without one. -/
theorem cut?_eq_none_iff {mark : Char} {t : Text} : cut? mark t = none ↔ mark ∉ t := by
  induction t with
  | nil => simp [cut?]
  | cons c t ih =>
    rw [cut?]
    split
    case isTrue hc => simp [hc]
    case isFalse hc => simp [ih, Ne.symm hc]

/-- What lies behind the cut is shorter than the text. -/
theorem length_of_cut? {mark : Char} {t before after : Text}
    (h : cut? mark t = some (before, after)) : after.length < t.length := by
  rw [(cut?_eq_some_iff.1 h).1]
  simp
  omega

end Text

end OscAddressing

import OscAddressing.Address.Path
import OscAddressing.Proofs.Text.Split

/-!
# Addresses and paths determine each other

The segments of a text have no separator (`plain_ofText`), and among such paths the written address
determines the path (`toText_injOn`): it is split into the path again (`ofText_toText`). Whether an
address is registered may therefore be asked of addresses or of paths.

What a text is split into is said once, as an equivalence: `ofText_eq_iff`. It is read off
`List.splitOn`, and so is the injectivity: an address begins with a separator, so splitting it gives
an empty segment first and then the path.
-/

namespace OscAddressing.Path

/-- A path none of whose names has a separator. -/
def Plain (path : Path) : Prop := ∀ name ∈ path, separator ∉ name

/-- **The segments of a text have no separator.** -/
theorem plain_ofText (t : Text) : Plain (ofText t) := by
  have hbody : ∀ body, Plain (ofBody body) := by
    intro body
    cases body with
    | nil => exact fun _ h ↦ absurd h List.not_mem_nil
    | cons c rest => exact fun _ h ↦ Text.not_mem_of_mem_splitOn h
  cases t with
  | nil => exact hbody []
  | cons c rest =>
    rw [ofText]
    split
    · exact hbody rest
    · exact hbody (c :: rest)

/-- An address is its path joined, behind an empty segment for what stands before the first
separator. -/
theorem toText_eq_intercalate (path : Path) :
    toText path = [separator].intercalate ([] :: path) := by
  induction path with
  | nil => rfl
  | cons name rest ih =>
    cases rest with
    | nil => simp [toText]
    | cons next rest => simpa [toText] using ih

/-- With a name, the address of a path is a separator and the path joined. -/
theorem toText_eq_cons {path : Path} (h : path ≠ []) :
    toText path = separator :: [separator].intercalate path := by
  obtain ⟨name, rest, rfl⟩ := List.exists_cons_of_ne_nil h
  rw [toText_eq_intercalate]
  simp

/-- **Splitting an address gives the path back,** behind the empty segment. -/
theorem splitOn_toText {path : Path} (h : Plain path) :
    (toText path).splitOn separator = [] :: path := by
  rw [toText_eq_intercalate, List.splitOn_intercalate separator ?_ (List.cons_ne_nil _ _)]
  intro name hname
  obtain rfl | hname := List.mem_cons.1 hname
  · exact List.not_mem_nil
  · exact h name hname

/-- **The address determines the path.** -/
theorem toText_injOn {path path' : Path} (h : Plain path) (h' : Plain path')
    (heq : toText path = toText path') : path = path' := by
  have hsplit := splitOn_toText h
  rw [heq, splitOn_toText h'] at hsplit
  exact (List.cons.inj hsplit).2.symm

/-! ### The segments of a text -/

/-- A text without its leading separator, if it begins with one. -/
def body : Text → Text
  | [] => []
  | c :: rest => if c = separator then rest else c :: rest

theorem ofText_eq_ofBody (t : Text) : ofText t = ofBody (body t) := by
  cases t with
  | nil => rfl
  | cons c rest =>
    rw [ofText, body]
    split <;> rfl

theorem intercalate_eq_nil_iff {path : Path} :
    [separator].intercalate path = [] ↔ path = [] ∨ path = [[]] := by
  match path with
  | [] => simp
  | [name] => simp
  | name :: next :: rest => simp

/-- **What a text is split into**: of the paths without separators the one that joins to the text,
its leading separator dropped. The one empty name joins to the same text as no name does, and is
never the answer. -/
theorem ofText_eq_iff {t : Text} {path : Path} :
    ofText t = path ↔ Plain path ∧ path ≠ [[]] ∧ [separator].intercalate path = body t := by
  rw [ofText_eq_ofBody]
  cases hbody : body t with
  | nil =>
    rw [intercalate_eq_nil_iff]
    constructor
    · rintro rfl
      exact ⟨fun _ hname ↦ absurd hname List.not_mem_nil, by simp [ofBody], .inl rfl⟩
    · rintro ⟨-, hname, hpath⟩
      exact (hpath.resolve_right hname).symm
  | cons c rest =>
    show (c :: rest).splitOn separator = path ↔ _
    rw [Text.splitOn_eq_iff]
    -- Neither no name nor the one empty name joins to a text that is not empty.
    have hne : [separator].intercalate path = c :: rest → path ≠ [] ∧ path ≠ [[]] := by
      intro hjoin
      rw [← not_or, ← intercalate_eq_nil_iff, hjoin]
      exact List.cons_ne_nil _ _
    constructor
    · rintro ⟨-, hplain, hjoin⟩
      exact ⟨hplain, (hne hjoin).2, hjoin⟩
    · rintro ⟨hplain, -, hjoin⟩
      exact ⟨(hne hjoin).1, hplain, hjoin⟩

/-- **Joining the segments** gives the text back, its leading separator dropped. -/
theorem intercalate_ofText (t : Text) : [separator].intercalate (ofText t) = body t :=
  (ofText_eq_iff.1 rfl).2.2

/-- Only the empty text and the lone separator have no segments. -/
theorem ofText_eq_nil_iff {t : Text} : ofText t = [] ↔ t = [] ∨ t = [separator] := by
  have hempty : ofText t = [] ↔ body t = [] := by
    rw [ofText_eq_iff]
    constructor
    · rintro ⟨-, -, hjoin⟩
      exact hjoin.symm
    · intro hbody
      exact ⟨fun _ hname ↦ absurd hname List.not_mem_nil, by simp, hbody.symm⟩
  rw [hempty]
  cases t with
  | nil => simp [body]
  | cons c rest =>
    rw [body]
    split
    case isTrue hc => simp [hc]
    case isFalse hc => simp [hc]

/-- **Joined names are split again.** -/
theorem ofText_intercalate {path : Path} (h : Plain path) (hname : path ≠ [[]]) :
    ofText (separator :: [separator].intercalate path) = path :=
  ofText_eq_iff.2 ⟨h, hname, by rw [body, if_pos rfl]⟩

/-- **The segments of an address are the path** that it was written from, unless the path is the one
empty name, which is written like no name at all. -/
theorem ofText_toText {path : Path} (h : Plain path) (hname : path ≠ [[]]) :
    ofText (toText path) = path := by
  by_cases hpath : path = []
  · rw [hpath]
    rfl
  · rw [toText_eq_cons hpath]
    exact ofText_intercalate h hname

/-- **Two texts have the same segments** exactly when they are the same but for a leading separator.
-/
theorem ofText_eq_ofText_iff {t t' : Text} : ofText t = ofText t' ↔ body t = body t' := by
  constructor
  · intro hpath
    rw [← intercalate_ofText, hpath, intercalate_ofText]
  · intro hbody
    rw [ofText_eq_ofBody, hbody, ← ofText_eq_ofBody]

/-! ### The address of a text -/

/-- The address that a text stands for: a separator, and the segments of the text joined by it. -/
def canonical (t : Text) : Text := separator :: [separator].intercalate (ofText t)

theorem canonical_eq_toText {t : Text} (h : ofText t ≠ []) : canonical t = toText (ofText t) := by
  rw [canonical, toText_eq_cons h]

/-- **A text stands for the address of a path exactly when the path is its own**, unless the path is
the one empty name, which stands for the same address as no name does. -/
theorem toText_eq_canonical_iff {t : Text} {path : Path} (h : Plain path) (hname : path ≠ [[]])
    (hnil : path ≠ []) : toText path = canonical t ↔ path = ofText t := by
  by_cases hpath : ofText t = []
  · rw [hpath]
    have hlone : canonical t = toText [[]] := by
      rw [canonical, hpath]
      rfl
    have hplain : Plain [[]] := List.forall_mem_singleton.2 List.not_mem_nil
    rw [hlone]
    exact ⟨fun heq ↦ absurd (toText_injOn h hplain heq) hname, fun heq ↦ absurd heq hnil⟩
  · rw [canonical_eq_toText hpath]
    exact ⟨toText_injOn h (plain_ofText t), congrArg toText⟩

end OscAddressing.Path

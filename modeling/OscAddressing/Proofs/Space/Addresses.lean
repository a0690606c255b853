import OscAddressing.Proofs.Space.Exact

/-!
# Addresses and the paths that they name

An address names the path that it is split into. Splitting and joining are inverse to each other,
but for the leading separator, which may be left out, and for the one empty name, which is joined to
the same text as no name is. `segments_after` says so of all texts, and of the addresses that a
space writes, that each is split into the path of its node.

For the texts this is `Path.ofText_eq_iff`, which says once what a text is split into. The addresses
of a space come back because no name in the tree is empty or has a separator, which the invariant of
runs provides.
-/

namespace OscAddressing

namespace AddressPattern

/-- **The components of a pattern determine its segments.** Each keeps the text that it was read
from. -/
theorem components_ofText_eq_iff {t t' : Text} :
    (ofText t).components = (ofText t').components ↔ Path.ofText t = Path.ofText t' := by
  have hraw : ∀ path : Path, (path.map Component.ofText).map Component.raw = path := by
    intro path
    rw [List.map_map]
    exact List.map_id path
  constructor
  · intro hcomponents
    rw [← hraw (Path.ofText t), ← hraw (Path.ofText t')]
    exact congrArg (List.map Component.raw) hcomponents
  · intro hpath
    exact congrArg (List.map Component.ofText) hpath

end AddressPattern

namespace Space

variable {κ : Type u}

/-- **The address of an identity** is split into the path of its method. -/
theorem Sound.map_ofText_addressOf? {space : Space κ} (h : space.Sound) (id : MethodId) :
    (space.addressOf? id).map Path.ofText = space.root.pathOf? id := by
  rw [addressOf?, Node.pathOf?_eq, Option.map_map]
  cases hfind : space.root.methods.find? fun entry ↦ entry.2.id = id with
  | none => rfl
  | some entry =>
    obtain ⟨hpath, -⟩ := h.isLiteral_of_mem_methods (List.mem_of_find?_eq_some hfind)
    exact congrArg some hpath

/-- **The addresses of a space** are split into the paths of its methods. -/
theorem Sound.map_ofText_addresses {space : Space κ} (h : space.Sound) :
    space.addresses.map Path.ofText = space.root.methods.map Prod.fst := by
  rw [addresses, Node.addresses_eq, List.map_map, List.map_map]
  refine List.map_congr_left fun entry hentry ↦ ?_
  exact (h.isLiteral_of_mem_methods hentry).1

/-- **Texts and their segments.** Only the empty text and the lone separator have no segments; those
of any other text have no separator, and join to the text, a leading separator dropped. Names
without separators that are joined behind a separator are the segments of the joined text, unless
there are none, or only the empty one. Two texts have the same segments, and as patterns the same
components, exactly when they are the same but for a leading separator. The addresses of a space,
after any run, are split into the paths of their nodes. -/
theorem segments_after (config : Config) (run : List (Operation κ)) :
    (∀ t, Path.ofText t = [] ↔ t = [] ∨ t = [separator]) ∧
    (∀ t, (∀ name ∈ Path.ofText t, separator ∉ name) ∧
      [separator].intercalate (Path.ofText t) = Path.body t) ∧
    (∀ path, path ≠ [] → path ≠ [[]] → (∀ name ∈ path, separator ∉ name) →
      Path.ofText (separator :: [separator].intercalate path) = path) ∧
    (∀ t t', Path.ofText t = Path.ofText t' ↔ Path.body t = Path.body t') ∧
    (∀ t t', (AddressPattern.ofText t).components = (AddressPattern.ofText t').components ↔
      Path.body t = Path.body t') ∧
    (∀ id, ((after config run).addressOf? id).map Path.ofText =
      (after config run).root.pathOf? id) ∧
    (after config run).addresses.map Path.ofText =
      (after config run).root.methods.map Prod.fst := by
  have h : (after config run).Sound := sound_after config run
  refine ⟨fun t ↦ Path.ofText_eq_nil_iff,
    fun t ↦ ⟨Path.plain_ofText t, Path.intercalate_ofText t⟩,
    fun path _ hname hplain ↦ Path.ofText_intercalate hplain hname,
    fun t t' ↦ Path.ofText_eq_ofText_iff, fun t t' ↦ ?_, h.map_ofText_addressOf?,
    h.map_ofText_addresses⟩
  rw [AddressPattern.components_ofText_eq_iff, Path.ofText_eq_ofText_iff]

/-- The empty names at both ends of a path are kept, and so is a bracket that nothing closes. -/
theorem segments_after_empty_names :
    let path : Path := [[], "a[".toList, []]
    path ≠ [] ∧ path ≠ [[]] ∧ (∀ name ∈ path, separator ∉ name) ∧
    separator :: [separator].intercalate path = "//a[/".toList ∧
    Path.ofText "//a[/".toList = path ∧
    ((after {} [.register "b/a[".toList none] : Space Unit).addressOf? (.issued 0)).map
      Path.ofText = some ["b".toList, "a[".toList] := by
  intro path
  have hplain : ∀ name ∈ path, separator ∉ name := by decide
  obtain ⟨-, -, hjoined, -, -, haddress, -⟩ :=
    segments_after (κ := Unit) {} [.register "b/a[".toList none]
  refine ⟨by decide, by decide, hplain, by decide, hjoined path (by decide) (by decide) hplain, ?_⟩
  rw [haddress]
  decide +kernel

end Space

end OscAddressing

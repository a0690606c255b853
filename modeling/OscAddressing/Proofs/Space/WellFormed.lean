import OscAddressing.Proofs.Space.Run

/-!
# Well-formed trees

`Node.WellFormed` is what every lookup by name and by identity takes for granted about a tree, said
of its nodes one by one. It is a consequence of the invariant of runs (`Sound.wellFormed`), which
says the same of rows and of children, and in addition bounds the identities by the supplies;
without the bounds it would not be preserved.
-/

namespace OscAddressing

namespace Node

variable {κ : Type u}

/-- **The shape of an address tree.** -/
structure WellFormed (strict : Bool) (root : Node κ) : Prop where
  /-- The root is nameless. -/
  nameless : root.name = []
  /-- The root carries no method. -/
  container : root.method? = none
  /-- Every node below the root has a name. -/
  named : ∀ entry ∈ root.descendants, entry.2.name ≠ []
  /-- No name has a separator. -/
  unseparated : ∀ entry ∈ root.descendants, separator ∉ entry.2.name
  /-- Every name, read as a segment of a pattern, is one literal equal to itself. -/
  literal : ∀ entry ∈ root.descendants,
    (Component.ofText entry.2.name).tokens = [.literal entry.2.name]
  /-- If naming is strict, no name has one of the reserved characters. -/
  unreserved : ∀ entry ∈ root.descendants, strict = true →
    ' ' ∉ entry.2.name ∧ '#' ∉ entry.2.name ∧ '}' ∉ entry.2.name ∧ ']' ∉ entry.2.name
  /-- Siblings have different names. -/
  distinct : ∀ node ∈ root.all, (node.children.map Node.name).Nodup
  /-- No two nodes have the same identity. -/
  nodeIds : (root.all.map Node.id).Nodup
  /-- No two methods have the same identity. -/
  methodIds : (root.all.filterMap Node.methodId?).Nodup
  /-- No method has the unmatchable identity. -/
  matchable : .unmatchable ∉ root.all.filterMap Node.methodId?

theorem map_id_rows (node : Node κ) : node.rows.map Row.id = node.all.map Node.id := by
  simp [rows, all, Function.comp_def]

theorem map_id_entries_rows (node : Node κ) :
    (Row.entries node.rows).map (fun entry ↦ entry.2.id) = node.all.filterMap Node.methodId? := by
  have hrows : node.rows.filterMap (fun row ↦ row.method?.map Method.id) =
      node.all.filterMap Node.methodId? := by
    rw [rows, all, List.filterMap_cons, List.filterMap_cons, List.filterMap_map,
      List.filterMap_map]
    rfl
  rw [← hrows, Row.entries, List.map_filterMap]
  refine congrArg (List.filterMap · node.rows) (funext fun row ↦ ?_)
  rw [Row.located?, Option.map_map]
  rfl

end Node

namespace Space

variable {κ : Type u}

/-- **The tree of a sound space is well-formed.** -/
theorem Sound.wellFormed {space : Space κ} (h : space.Sound) :
    space.root.WellFormed space.config.strictNames := by
  -- A node below the root is the child of some node, whose children have valid names.
  have hvalid : ∀ entry ∈ space.root.descendants,
      Name.isValid space.config.strictNames entry.2.name = true := by
    intro entry hentry
    obtain ⟨parent, hparent, hchild⟩ := Node.exists_parent_of_mem_descendants hentry
    exact (h.orderly parent hparent).valid entry.2 hchild
  have hids : space.root.all.filterMap Node.methodId? =
      space.root.methods.map fun entry ↦ entry.2.id := by
    rw [← Node.map_id_entries_rows, Node.methods_eq_entries_rows h.method?]
  refine ⟨h.name, h.method?, fun entry hentry ↦ (Name.isValid_iff.1 (hvalid entry hentry)).1,
    fun entry hentry ↦ (Name.isValid_iff.1 (hvalid entry hentry)).2.1,
    fun entry hentry ↦ ?_, fun entry hentry hstrict ↦ ?_,
    fun node hnode ↦ (h.orderly node hnode).distinct, ?_, ?_, ?_⟩
  · exact Component.literal?_eq_some_iff.1 (Name.isValid_iff.1 (hvalid entry hentry)).2.2.1
  · have hfree := (Name.isValid_iff.1 (hvalid entry hentry)).2.2.2 hstrict
    have hnot : ∀ c, Name.isReserved c = true → c ∉ entry.2.name := by
      intro c hc hmem
      exact Bool.false_ne_true ((hfree c hmem).symm.trans hc)
    exact ⟨hnot ' ' rfl, hnot '#' rfl, hnot '}' rfl, hnot ']' rfl⟩
  · exact Node.map_id_rows space.root ▸ h.nodup_ids
  · exact hids ▸ h.nodup_methodIds
  · show MethodId.unmatchable ∉ space.root.all.filterMap Node.methodId?
    rw [hids]
    intro hmem
    obtain ⟨entry, hentry, heq⟩ := List.mem_map.1 hmem
    obtain ⟨serial, -, hid⟩ := h.methodIds_lt entry hentry
    rw [hid] at heq
    exact MethodId.noConfusion heq

theorem wellFormed_after (config : Config) (run : List (Operation κ)) :
    (after config run).root.WellFormed config.strictNames := by
  have hwellFormed := (sound_after config run).wellFormed
  rwa [config_after] at hwellFormed

end Space

end OscAddressing

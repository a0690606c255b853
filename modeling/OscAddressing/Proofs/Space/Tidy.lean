import OscAddressing.Proofs.Space.Resolve
import OscAddressing.Proofs.Space.Registry
import OscAddressing.Proofs.Tree.Tidy

/-!
# Spaces without leftover nodes

Registering creates the containers on the way to a method, and unregistering may leave them behind.
A run that unregisters with pruning only leaves none: `nodes_after` says that in the tree after such
a run every node without children carries a method, or, what is the same in the tree after any run,
that the nodes are those on the way to a registered address and no others.

The invariant is `Row.Tidy`. That pruning is enough to keep it needs to be known of how a method was
withdrawn: a node with children stays, and then its children lead to other methods; a node without
children goes, and only then is there anything to prune (`unregisterPath_cases_of_method`).
-/

namespace OscAddressing

/-- Does the operation clear away what it leaves of no use? -/
def Operation.prunes {κ : Type u} : Operation κ → Bool
  | register .. => true
  | unregister _ => false
  | unregisterAndPrune _ => true
  | unregisterId _ => false
  | clear => true

namespace Space

variable {κ : Type u}

/-! ### Each operation -/

/-- **How a method is unregistered**: its node is detached if it has no children, and otherwise
stays without the method. -/
theorem unregisterPath_cases_of_method {space : Space κ} {path : Path} {target : Node κ}
    (hmethod : space.root.hasMethodAt path = true) (htarget : space.root.at? path = some target) :
    ∃ root, space.unregisterPath path = (true, { space with root }) ∧
      (target.children = [] ∧ space.root.detach? false path = some root ∨
        target.children ≠ [] ∧ space.root.demote? path = some root) := by
  rcases unregisterPath_cases space path with ⟨hnone, -⟩ | ⟨-, hpath, root, heq, hcase⟩
  · exact absurd (hnone.symm.trans hmethod) (by simp)
  by_cases hchildren : target.children = []
  · obtain ⟨root', hdetach⟩ := Node.exists_detach? hpath htarget (.inr hchildren)
    exact ⟨root', by rw [unregisterPath, if_pos hmethod, hdetach], .inl ⟨hchildren, hdetach⟩⟩
  · refine ⟨root, heq, .inr ⟨hchildren, hcase.resolve_left fun hdetach ↦ ?_⟩⟩
    obtain ⟨target', -, -, htarget', hforce, -⟩ := Node.detach?_rows hdetach
    obtain rfl := Option.some.inj (htarget.symm.trans htarget')
    exact hchildren (hforce.resolve_left Bool.false_ne_true)

theorem Sound.tidy_unregisterAndPrune {space : Space κ} (h : space.Sound)
    (htidy : Row.Tidy space.root.rows) (address : Text) :
    Row.Tidy (space.unregisterAndPrune address).2.root.rows := by
  rw [unregisterAndPrune]
  rcases unregisterPath_cases space (Path.ofText address) with ⟨-, heq⟩ | ⟨hmethod, hpath, -⟩
  · simp only [heq]
    exact htidy
  · obtain ⟨-, target, -, htarget, -⟩ := Node.exists_of_hasMethodAt hmethod
    obtain ⟨root, heq, ⟨-, hdetach⟩ | ⟨hchildren, hdemote⟩⟩ :=
      unregisterPath_cases_of_method hmethod htarget
    · simp only [heq]
      rw [← List.dropLast_append_getLast hpath] at hdetach
      exact Node.tidy_pruned_of_detach? h.orderly htidy hdetach
    · simp only [heq]
      exact Node.tidy_pruned (Node.tidy_demote? h.orderly htidy hdemote htarget hchildren) _

theorem tidy_rows_bare (id : NodeId) (name : Text) :
    Row.Tidy (Node.bare id name : Node κ).rows := by
  intro row hrow hpath
  rw [Node.rows_eq] at hrow
  obtain rfl := List.mem_singleton.1 hrow
  exact absurd rfl hpath

/-- **One operation that prunes leaves no node over.** -/
theorem Sound.tidy_step {space : Space κ} (h : space.Sound) (htidy : Row.Tidy space.root.rows)
    {operation : Operation κ} (hprunes : operation.prunes = true) :
    Row.Tidy (space.step operation).root.rows := by
  cases operation with
  | register address callback? =>
    rcases registerD_cases space address callback? with ⟨e, -, heq⟩ | ⟨hpath, -, -, heq⟩
    · rw [Space.step, heq]
      exact htidy
    · rw [Space.step, heq]
      exact (placing_registerPath space hpath callback?).tidy htidy
  | unregisterAndPrune address => exact h.tidy_unregisterAndPrune htidy address
  | clear => exact tidy_rows_bare _ _
  | unregister address => exact absurd hprunes Bool.false_ne_true
  | unregisterId id => exact absurd hprunes Bool.false_ne_true

/-- **A run of operations that prune leaves no node over.** -/
theorem tidy_after (config : Config) {run : List (Operation κ)}
    (hprunes : ∀ operation ∈ run, operation.prunes = true) :
    Row.Tidy (after config run).root.rows := by
  induction run using List.reverseRecOn with
  | nil => exact tidy_rows_bare _ _
  | append_singleton run operation ih =>
    rw [List.forall_mem_append] at hprunes
    rw [after_append]
    exact (sound_after config run).tidy_step (ih hprunes.1)
      (hprunes.2 operation (List.mem_singleton_self _))

/-! ### Nodes and addresses -/

/-- The registered addresses have the paths of the methods. -/
theorem Sound.exists_mem_addresses_iff {space : Space κ} (h : space.Sound) {P : Path → Prop} :
    (∃ address ∈ space.addresses, P (Path.ofText address)) ↔
      ∃ entry ∈ space.root.methods, P entry.1 := by
  have haddresses : space.addresses =
      space.root.methods.map fun entry ↦ Path.toText entry.1 := by
    rw [addresses, Node.addresses_eq, List.map_map]
    rfl
  have hpath : ∀ entry ∈ space.root.methods, Path.ofText (Path.toText entry.1) = entry.1 := by
    intro entry hentry
    obtain ⟨hplain, -, hname⟩ := h.plain hentry
    exact Path.ofText_toText hplain hname
  rw [haddresses]
  constructor
  · rintro ⟨_, hmem, hP⟩
    obtain ⟨entry, hentry, rfl⟩ := List.mem_map.1 hmem
    exact ⟨entry, hentry, hpath entry hentry ▸ hP⟩
  · rintro ⟨entry, hentry, hP⟩
    exact ⟨_, List.mem_map_of_mem hentry, (hpath entry hentry).symm ▸ hP⟩

/-- **Every node on the way to a registered address** is in the tree. -/
theorem Sound.mem_map_fst_descendants_of_isPrefix {space : Space κ} (h : space.Sound)
    {address : Text} (haddress : address ∈ space.addresses) {path : Path} (hpath : path ≠ [])
    (hlead : path <+: Path.ofText address) : path ∈ space.root.descendants.map Prod.fst := by
  obtain ⟨entry, hentry, hlead⟩ :=
    (h.exists_mem_addresses_iff (P := fun whole ↦ path <+: whole)).1 ⟨address, haddress, hlead⟩
  exact Node.mem_map_fst_descendants_of_isPrefix h.orderly hentry hpath hlead

/-- **The nodes of a tidy tree** are those on the way to a registered address. -/
theorem Sound.tidy_rows_iff {space : Space κ} (h : space.Sound) :
    Row.Tidy space.root.rows ↔
      ∀ path, path ∈ space.root.descendants.map Prod.fst ↔
        path ≠ [] ∧ ∃ address ∈ space.addresses, path <+: Path.ofText address := by
  have hmem : ∀ path, path ∈ space.root.descendants.map Prod.fst ↔
      path ≠ [] ∧ ∃ row ∈ space.root.rows, row.path = path := fun path ↦
    (Node.mem_map_fst_descendants_iff h.orderly).trans
      (and_congr_right fun _ ↦ Node.exists_at?_iff h.orderly)
  have hentries := Node.methods_eq_entries_rows h.method?
  constructor
  · refine fun htidy path ↦ ⟨fun hpath ↦ ?_, fun ⟨hpath, address, haddress, hlead⟩ ↦
      h.mem_map_fst_descendants_of_isPrefix haddress hpath hlead⟩
    obtain ⟨hne, row, hrow, rfl⟩ := (hmem path).1 hpath
    refine ⟨hne, (h.exists_mem_addresses_iff (P := fun whole ↦ row.path <+: whole)).2 ?_⟩
    rw [hentries]
    exact htidy row hrow hne
  · intro hnodes row hrow hpath
    obtain ⟨-, haddress⟩ := (hnodes row.path).1 ((hmem row.path).2 ⟨hpath, row, hrow, rfl⟩)
    rw [← hentries]
    exact (h.exists_mem_addresses_iff (P := fun whole ↦ row.path <+: whole)).1 haddress

/-! ### Runs -/

/-- **The nodes of a space after a run.** Every node on the way to a registered address is in the
tree; the nodes are only these exactly when every node without children has a method; and so it is
when the run unregistered with pruning only. -/
theorem nodes_after (config : Config) (run : List (Operation κ)) :
    ((∀ operation ∈ run, operation.prunes = true) →
      (∀ entry ∈ (after config run).root.descendants,
        entry.2.children = [] → entry.2.isMethod = true) ∧
      ∀ path, path ∈ (after config run).root.descendants.map Prod.fst ↔
        path ≠ [] ∧ ∃ address ∈ (after config run).addresses, path <+: Path.ofText address) ∧
    ((∀ entry ∈ (after config run).root.descendants,
        entry.2.children = [] → entry.2.isMethod = true) ↔
      ∀ path, path ∈ (after config run).root.descendants.map Prod.fst ↔
        path ≠ [] ∧ ∃ address ∈ (after config run).addresses, path <+: Path.ofText address) ∧
    ∀ address ∈ (after config run).addresses, ∀ path ≠ [], path <+: Path.ofText address →
      path ∈ (after config run).root.descendants.map Prod.fst := by
  have h := sound_after config run
  have hinUse := Node.tidy_rows_iff h.orderly
  have hnodes := h.tidy_rows_iff
  refine ⟨fun hprunes ↦ ?_, hinUse.symm.trans hnodes, fun address haddress path hpath hlead ↦
    h.mem_map_fst_descendants_of_isPrefix haddress hpath hlead⟩
  have htidy := tidy_after config hprunes
  exact ⟨hinUse.1 htidy, hnodes.1 htidy⟩

/-- The first method that is unregistered goes together with the container that led to it alone; the
second one has a child and becomes a container. -/
theorem nodes_after_pruning :
    let run : List (Operation Unit) := [.register "/a/b/c".toList none,
      .register "/a/d".toList none, .register "/a/d/e".toList none,
      .unregisterAndPrune "/a/b/c".toList, .unregisterAndPrune "/a/d".toList]
    (∀ operation ∈ run, operation.prunes = true) ∧
    (after {} run).addresses = ["/a/d/e".toList] ∧
    (after {} run).root.descendants.map Prod.fst =
      [["a".toList], ["a".toList, "d".toList], ["a".toList, "d".toList, "e".toList]] ∧
    ∀ path, path ∈ (after {} run).root.descendants.map Prod.fst ↔
      path ≠ [] ∧ ∃ address ∈ (after {} run).addresses, path <+: Path.ofText address := by
  intro run
  have hprunes : ∀ operation ∈ run, operation.prunes = true := by decide
  exact ⟨hprunes, by decide +kernel, by decide +kernel, ((nodes_after {} run).1 hprunes).2⟩

end Space

end OscAddressing

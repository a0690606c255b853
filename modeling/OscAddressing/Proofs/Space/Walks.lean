import OscAddressing.Proofs.Space.Run
import OscAddressing.Proofs.Tree.Frame

/-!
# The walks agree

The methods of a tree are counted, sought, found by identity and listed with their addresses by
walks of their own, and nodes are looked up by descents of their own. `walks_after` says that they
all see the same tree. What a walk answers is read off the list of methods in preorder, in every
tree. That a descent leads to the node which a walk meets at the path needs that siblings have
different names, and that an identity leads to one node only needs that none is given twice; both
are provided by the invariant of runs.
-/

namespace OscAddressing.Space

variable {κ : Type u}

/-- **No two nodes of a space have the same path.** -/
theorem Sound.nodup_nodePaths {space : Space κ} (h : space.Sound) :
    ([] :: space.root.descendants.map Prod.fst).Nodup := by
  have hpaths := Node.nodup_paths h.orderly
  rw [Node.rows, List.map_cons, List.map_map] at hpaths
  exact hpaths

/-- **The path of an identity** leads to the node that carries its method, and to no other. -/
theorem Sound.exists_descendant? {space : Space κ} (h : space.Sound) {entry : Path × Method κ}
    (hentry : entry ∈ space.root.methods) :
    ∃ target, space.root.pathOf? entry.2.id = some entry.1 ∧
      space.root.descendant? entry.1 = some target ∧ target.method? = some entry.2 ∧
      ∀ other ∈ space.root.descendants, other.2.methodId? = some entry.2.id →
        other = (entry.1, target) := by
  obtain ⟨target, htarget, hmethod⟩ := (Node.mem_methods_iff h.orderly).1 hentry
  refine ⟨target, ?_, htarget, hmethod, fun other hother hid ↦ ?_⟩
  · rw [Node.pathOf?_eq, find?_eq_some_of_nodup h.nodup_methodIds hentry]
    rfl
  · -- Another node with the identity would be another entry with it.
    obtain ⟨method, hmethod', heq⟩ := Option.map_eq_some_iff.1 hid
    have hlookup := (Node.mem_descendants_iff h.orderly).1 hother
    have hmem : (other.1, method) ∈ space.root.methods :=
      (Node.mem_methods_iff h.orderly).2 ⟨other.2, hlookup, hmethod'⟩
    have hpath : other.1 = entry.1 :=
      congrArg Prod.fst (List.inj_on_of_nodup_map h.nodup_methodIds hmem hentry heq)
    rw [hpath, htarget] at hlookup
    exact Prod.ext hpath (Option.some.inj hlookup).symm

/-- **The walks and descents agree.** In every tree, the methods are listed in preorder, and what is
counted, sought, found by identity and written as addresses are the entries of this list. In the
space after any run, no two nodes have the same path. At a path that is not empty, a walk meets the
node that is looked up; it is the last of the nodes along the path, and it is the node that is
changed in place. The empty path is looked up in vain, has no nodes along it, and leads a change to
the root. The path of the identity of a method leads to the one node that carries the method. -/
theorem walks_after (config : Config) (run : List (Operation κ)) :
    (∀ node : Node κ,
      (node.methods = node.children.flatMap fun child ↦
        (child.method?.map fun method ↦ ([child.name], method)).toList ++
          child.methods.map fun entry ↦ (child.name :: entry.1, entry.2)) ∧
      node.methodCount = node.methods.length ∧
      (node.hasMethods = true ↔ node.methods ≠ []) ∧
      (∀ id, node.pathOf? id =
        (node.methods.find? fun entry ↦ entry.2.id = id).map Prod.fst) ∧
      node.addresses [] = node.methods.map fun entry ↦ (Path.toText entry.1, entry.2.id)) ∧
    ([] :: (after config run).root.descendants.map Prod.fst).Nodup ∧
    (∀ path inner, (path, inner) ∈ (after config run).root.descendants ↔
      (after config run).root.descendant? path = some inner) ∧
    (∀ path, path ≠ [] →
      (∀ withSelf, ((after config run).root.pathNodes? withSelf path).bind List.getLast? =
        (after config run).root.descendant? path) ∧
      ∀ change : Node κ → Option (Node κ),
        (∀ target target', change target = some target' → target'.name = target.name) →
          ((after config run).root.alterAt? change path).map (Node.descendant? path) =
            (((after config run).root.descendant? path).bind change).map some) ∧
    ((after config run).root.descendant? [] = none ∧
      (after config run).root.pathNodes? false [] = some [] ∧
      ∀ change, (after config run).root.alterAt? change [] = change (after config run).root) ∧
    ∀ entry ∈ (after config run).root.methods, ∃ target,
      (after config run).root.pathOf? entry.2.id = some entry.1 ∧
      (after config run).root.descendant? entry.1 = some target ∧
      target.method? = some entry.2 ∧
      ∀ other ∈ (after config run).root.descendants, other.2.methodId? = some entry.2.id →
        other = (entry.1, target) := by
  have h : (after config run).Sound := sound_after config run
  refine ⟨fun node ↦ ⟨node.methods_eq, node.methodCount_eq, Node.hasMethods_eq_true_iff,
    node.pathOf?_eq, node.addresses_eq []⟩, h.nodup_nodePaths,
    fun path inner ↦ Node.mem_descendants_iff h.orderly, fun path hpath ↦ ⟨fun withSelf ↦
      Node.getLast?_pathNodes? hpath withSelf _, fun change hname ↦
      Node.map_descendant?_alterAt? hname hpath⟩, ⟨rfl, rfl, fun change ↦ rfl⟩,
    fun entry hentry ↦ h.exists_descendant? hentry⟩

/-- A method is taken at its path in place, and another one is found by its identity. -/
theorem walks_after_nested :
    let root := (after {} [.register "/a/b".toList none, .register "/a".toList none] :
      Space Unit).root
    let path : Path := ["a".toList, "b".toList]
    let change : Node Unit → Option (Node Unit) := fun target ↦ some { target with method? := none }
    path ≠ [] ∧ (∀ target target', change target = some target' → target'.name = target.name) ∧
    (root.pathNodes? true path).bind List.getLast? = root.descendant? path ∧
    (root.alterAt? change path).map (Node.descendant? path) =
      ((root.descendant? path).bind change).map some ∧
    root.methods.map (fun entry ↦ (entry.1, entry.2.id)) =
      [(["a".toList], .issued 1), (path, .issued 0)] ∧
    ∃ target, root.pathOf? (.issued 1) = some ["a".toList] ∧
      root.descendant? ["a".toList] = some target ∧ target.methodId? = some (.issued 1) := by
  intro root path change
  have hpath : path ≠ [] := by decide
  have hname : ∀ target target', change target = some target' → target'.name = target.name := by
    rintro target _ ⟨⟩
    rfl
  have hmethods : root.methods.map (fun entry ↦ (entry.1, entry.2.id)) =
      [(["a".toList], .issued 1), (path, .issued 0)] := by decide +kernel
  obtain ⟨-, -, -, hdescents, -, hids⟩ := walks_after (κ := Unit) {}
    [.register "/a/b".toList none, .register "/a".toList none]
  obtain ⟨hlast, hchange⟩ := hdescents path hpath
  have hmem : (["a".toList], MethodId.issued 1) ∈
      root.methods.map fun entry ↦ (entry.1, entry.2.id) := by
    rw [hmethods]
    exact List.mem_cons_self ..
  obtain ⟨⟨_, method⟩, hentry, heq⟩ := List.mem_map.1 hmem
  obtain ⟨rfl, hid⟩ := Prod.mk.inj heq
  obtain ⟨target, hpathOf, htarget, hmethod, -⟩ := hids _ hentry
  refine ⟨hpath, hname, hlast true, hchange change hname, hmethods, target, ?_, htarget, ?_⟩
  · rw [← hid]
    exact hpathOf
  · rw [Node.methodId?, hmethod, ← hid]
    rfl

end OscAddressing.Space

import Mathlib.Data.List.Basic
import OscAddressing.Tree.Node

/-!
# The tree as a list of rows

A walk over a tree meets every node once. `Node.rows` is what it sees of them, in preorder and with
the node itself first: the path to a node, its identity, and its method. An edit of the tree is an
edit of this list, so what an edit does is said once, as a change of rows, and whatever can be read
off the rows follows: the methods (`methods_eq_entries`), and the identities of the nodes.

The recursion of all walks is in one equation, `rows_eq`: the rows of a node are its own and, child
by child, those of the children with the child's name in front of every path (`branch`). The other
walks agree with it: `methodCount_eq`, `hasMethods_eq_true_iff`, `addresses_eq` and `pathOf?_eq`
read the list of methods.
-/

namespace OscAddressing

/-- What a walk over a tree sees of one node. -/
structure Row (κ : Type u) where
  /-- The path from the node where the walk began. -/
  path : Path
  id : NodeId
  method? : Option (Method κ)

namespace Row

variable {κ : Type u}

/-- A row of a walk that began at the end of the path `lead`, as seen from its start. -/
def below (lead : Path) (row : Row κ) : Row κ := { row with path := lead ++ row.path }

@[simp] theorem path_below (lead : Path) (row : Row κ) : (row.below lead).path = lead ++ row.path :=
  rfl

@[simp] theorem id_below (lead : Path) (row : Row κ) : (row.below lead).id = row.id := rfl

@[simp] theorem method?_below (lead : Path) (row : Row κ) :
    (row.below lead).method? = row.method? := rfl

@[simp] theorem below_nil (row : Row κ) : row.below [] = row := rfl

@[simp] theorem map_below_nil (rows : List (Row κ)) : rows.map (below []) = rows := by
  simp [funext below_nil]

theorem below_below (lead inner : Path) (row : Row κ) :
    (row.below inner).below lead = row.below (lead ++ inner) := by
  simp [below]

/-- The method of a row, with its path. -/
def located? (row : Row κ) : Option (Path × Method κ) :=
  row.method?.map fun method ↦ (row.path, method)

theorem located?_below (lead : Path) (row : Row κ) :
    (row.below lead).located? = row.located?.map fun (path, method) ↦ (lead ++ path, method) := by
  cases h : row.method? <;> simp [located?, h]

/-- The methods among given rows. -/
def entries (rows : List (Row κ)) : List (Path × Method κ) := rows.filterMap located?

@[simp] theorem entries_nil : entries ([] : List (Row κ)) = [] := rfl

theorem entries_cons (row : Row κ) (rows : List (Row κ)) :
    entries (row :: rows) = row.located?.toList ++ entries rows := by
  rw [entries, List.filterMap_cons]
  cases row.located? <;> rfl

@[simp] theorem entries_append (rows rows' : List (Row κ)) :
    entries (rows ++ rows') = entries rows ++ entries rows' :=
  List.filterMap_append ..

theorem entries_map_below (lead : Path) (rows : List (Row κ)) :
    entries (rows.map (below lead)) =
      (entries rows).map fun (path, method) ↦ (lead ++ path, method) := by
  rw [entries, List.filterMap_map, entries, List.map_filterMap]
  exact congrArg (List.filterMap · rows) (funext (located?_below lead))

/-- Rows without methods have no entries. -/
theorem entries_eq_nil_iff {rows : List (Row κ)} :
    entries rows = [] ↔ ∀ row ∈ rows, row.method? = none := by
  simp [entries, located?]

theorem mem_entries_iff {rows : List (Row κ)} {path : Path} {method : Method κ} :
    (path, method) ∈ entries rows ↔ ∃ row ∈ rows, row.path = path ∧ row.method? = some method := by
  simp only [entries, located?, List.mem_filterMap, Option.map_eq_some_iff, Prod.mk.injEq]
  constructor
  · rintro ⟨row, hrow, method, hmethod, rfl, rfl⟩
    exact ⟨row, hrow, rfl, hmethod⟩
  · rintro ⟨row, hrow, rfl, hmethod⟩
    exact ⟨row, hrow, method, hmethod, rfl, rfl⟩

end Row

namespace Node

variable {κ : Type u}

/-! ### Induction over the tree -/

/-- What holds of a node whenever it holds of all its children holds of every node. -/
@[elab_as_elim]
theorem inductionOn {motive : Node κ → Prop} (node : Node κ)
    (step : ∀ node : Node κ, (∀ child ∈ node.children, motive child) → motive node) :
    motive node :=
  step node fun child _ ↦ inductionOn child step
termination_by sizeOf node
decreasing_by
  obtain ⟨id, name, children, method?⟩ := node
  have := List.sizeOf_lt_of_mem ‹child ∈ _›
  simp only [Node.mk.sizeOf_spec] at this ⊢
  omega

/-! ### Rows -/

/-- The rows of a node and of everything below it. -/
def rows (node : Node κ) : List (Row κ) :=
  ⟨[], node.id, node.method?⟩ ::
    node.descendants.map fun (path, inner) ↦ ⟨path, inner.id, inner.method?⟩

/-- The rows of a node as its parent sees them. -/
def branch (node : Node κ) : List (Row κ) := node.rows.map (Row.below [node.name])

theorem descendantsEach_eq (nodes : List (Node κ)) :
    descendantsEach nodes = nodes.flatMap fun node ↦
      ([node.name], node) ::
        node.descendants.map fun (path, inner) ↦ (node.name :: path, inner) := by
  induction nodes with
  | nil => rfl
  | cons node rest ih => rw [descendantsEach, ih, List.flatMap_cons, List.cons_append]

theorem descendants_eq (node : Node κ) :
    node.descendants = node.children.flatMap fun child ↦
      ([child.name], child) ::
        child.descendants.map fun (path, inner) ↦ (child.name :: path, inner) := by
  obtain ⟨id, name, children, method?⟩ := node
  rw [descendants, descendantsEach_eq]

/-- **The recursion of a walk**: a node, then its branches in order. -/
theorem rows_eq (node : Node κ) :
    node.rows = ⟨[], node.id, node.method?⟩ :: node.children.flatMap branch := by
  rw [rows, descendants_eq, List.map_flatMap]
  refine congrArg _ (congrArg (List.flatMap · node.children) (funext fun child ↦ ?_))
  simp [branch, rows, Row.below, Function.comp_def]

/-- The rows below a node are those of its branches. -/
theorem map_descendants_eq (node : Node κ) :
    (node.descendants.map fun (path, inner) ↦ (⟨path, inner.id, inner.method?⟩ : Row κ)) =
      node.children.flatMap branch :=
  (List.cons.inj (node.rows_eq)).2

/-! ### Methods -/

/-- **The methods of a tree are those of its rows.** -/
theorem methods_eq_entries (node : Node κ) :
    node.methods = Row.entries (node.children.flatMap branch) := by
  rw [methods, ← map_descendants_eq, Row.entries, List.filterMap_map]
  rfl

theorem entries_rows (node : Node κ) :
    Row.entries node.rows =
      (node.method?.map fun method ↦ ([], method)).toList ++ node.methods := by
  rw [rows_eq, Row.entries_cons, methods_eq_entries]
  rfl

theorem entries_branch (node : Node κ) :
    Row.entries node.branch =
      (node.method?.map fun method ↦ ([node.name], method)).toList ++
        node.methods.map fun (path, method) ↦ (node.name :: path, method) := by
  rw [branch, Row.entries_map_below, entries_rows]
  cases node.method? <;> simp

/-- The methods of a tree, child by child. -/
theorem methods_eq (node : Node κ) :
    node.methods = node.children.flatMap fun child ↦
      (child.method?.map fun method ↦ ([child.name], method)).toList ++
        child.methods.map fun (path, method) ↦ (child.name :: path, method) := by
  rw [methods_eq_entries, Row.entries, List.filterMap_flatMap]
  exact congrArg (List.flatMap · node.children) (funext entries_branch)

/-- A method is at least one name below the node where the walk began. -/
theorem path_ne_nil_of_mem_methods {node : Node κ} {path : Path} {method : Method κ}
    (h : (path, method) ∈ node.methods) : path ≠ [] := by
  rw [methods_eq, List.mem_flatMap] at h
  obtain ⟨child, -, h⟩ := h
  rintro rfl
  simp at h

/-! ### The other walks -/

theorem methodCountEach_eq {nodes : List (Node κ)}
    (h : ∀ node ∈ nodes, node.methodCount = node.methods.length) :
    methodCountEach nodes = (Row.entries (nodes.flatMap branch)).length := by
  induction nodes with
  | nil => rfl
  | cons node rest ih =>
    rw [methodCountEach, ih fun other hother ↦ h other (List.mem_cons_of_mem _ hother),
      h node List.mem_cons_self, List.flatMap_cons, Row.entries_append, List.length_append,
      entries_branch, List.length_append, List.length_map, isMethod]
    cases node.method? <;> rfl

/-- **The number of methods of a tree.** -/
theorem methodCount_eq (node : Node κ) : node.methodCount = node.methods.length := by
  induction node using inductionOn with
  | step node ih =>
    have hchildren : node.methodCount = methodCountEach node.children := by
      obtain ⟨id, name, children, method?⟩ := node
      rw [methodCount]
    rw [hchildren, methodCountEach_eq ih, methods_eq_entries]

theorem hasMethodsEach_eq (nodes : List (Node κ)) :
    hasMethodsEach nodes = nodes.any fun node ↦ node.isMethod || node.hasMethods := by
  induction nodes with
  | nil => rfl
  | cons node rest ih => rw [hasMethodsEach, ih, List.any_cons]

/-- **Whether a tree has methods.** -/
theorem hasMethods_eq_true_iff {node : Node κ} : node.hasMethods = true ↔ node.methods ≠ [] := by
  induction node using inductionOn with
  | step node ih =>
    have hchildren : node.hasMethods = hasMethodsEach node.children := by
      obtain ⟨id, name, children, method?⟩ := node
      rw [hasMethods]
    rw [hchildren, hasMethodsEach_eq, List.any_eq_true, methods_eq, Ne, List.flatMap_eq_nil_iff]
    push Not
    refine exists_congr fun child ↦ and_congr_right fun hchild ↦ ?_
    rw [Bool.or_eq_true, ih child hchild, isMethod]
    cases child.method? <;> simp

theorem addressesEach_eq (lead : Text) (nodes : List (Node κ)) :
    addressesEach lead nodes = nodes.flatMap fun node ↦
      (node.methodId?.map fun id ↦ (lead ++ separator :: node.name, id)).toList ++
        addresses (lead ++ separator :: node.name) node := by
  induction nodes with
  | nil => rfl
  | cons node rest ih => rw [addressesEach, ih, List.flatMap_cons]

/-- **The addresses of a tree are those of its methods,** in their order. -/
theorem addresses_eq (node : Node κ) (lead : Text) :
    node.addresses lead =
      node.methods.map fun (path, method) ↦ (lead ++ Path.toText path, method.id) := by
  induction node using inductionOn generalizing lead with
  | step node ih =>
    have hchildren : node.addresses lead = addressesEach lead node.children := by
      obtain ⟨id, name, children, method?⟩ := node
      rw [addresses]
    rw [hchildren, addressesEach_eq, methods_eq, List.map_flatMap]
    refine List.flatMap_congr fun child hchild ↦ ?_
    rw [ih child hchild, methodId?]
    cases child.method? <;> simp [Path.toText, Function.comp_def]

theorem pathOfEach?_eq {id : MethodId} {nodes : List (Node κ)}
    (h : ∀ node ∈ nodes, node.pathOf? id =
      (node.methods.find? fun (_, method) ↦ method.id = id).map Prod.fst) :
    pathOfEach? id nodes =
      ((Row.entries (nodes.flatMap branch)).find? fun (_, method) ↦ method.id = id).map
        Prod.fst := by
  induction nodes with
  | nil => rfl
  | cons node rest ih =>
    rw [List.forall_mem_cons] at h
    rw [pathOfEach?, List.flatMap_cons, Row.entries_append, entries_branch, List.append_assoc,
      List.find?_append, List.find?_append, ih h.2, h.1, methodId?]
    have hinner : ((node.methods.map fun (path, method) ↦ (node.name :: path, method)).find?
        fun (_, method) ↦ method.id = id) =
        (node.methods.find? fun (_, method) ↦ method.id = id).map
          fun (path, method) ↦ (node.name :: path, method) := by
      rw [List.find?_map]
      rfl
    rw [hinner]
    cases hmethod : node.method? with
    | none => cases node.methods.find? fun (_, method) ↦ method.id = id <;> simp
    | some method =>
      by_cases hid : method.id = id
      · simp [hid]
      · cases node.methods.find? fun (_, method) ↦ method.id = id <;> simp [hid]

/-- **The path of a method** is that of its first entry. -/
theorem pathOf?_eq (node : Node κ) (id : MethodId) :
    node.pathOf? id = (node.methods.find? fun (_, method) ↦ method.id = id).map Prod.fst := by
  induction node using inductionOn with
  | step node ih =>
    have hchildren : node.pathOf? id = pathOfEach? id node.children := by
      obtain ⟨id, name, children, method?⟩ := node
      rw [pathOf?]
    rw [hchildren, pathOfEach?_eq ih, methods_eq_entries]

end Node

end OscAddressing

import Mathlib.Data.List.Nodup
import OscAddressing.Proofs.Tree.Name
import OscAddressing.Proofs.Tree.Rows

/-!
# Orderly trees

Lookups by name take the first child of a name. They are right because siblings never share a name,
and because every name in the tree is one that may be registered. Both are properties of the
children of one node (`Orderly`), asked of a node and of all below it (`Throughout`).

In such a tree the first child of a name is the only one, so a path leads to a node exactly when a
walk over the tree meets a node with that path: `mem_rows_iff`, and for methods `mem_methods_iff`.
No path is met twice (`nodup_paths`).
-/

namespace OscAddressing

/-- Where no two elements have the same key, a search for the key of an element finds it. -/
theorem find?_eq_some_of_nodup {α β : Type*} [DecidableEq β] {key : α → β} {items : List α}
    (h : (items.map key).Nodup) {item : α} (hmem : item ∈ items) :
    (items.find? fun other ↦ key other = key item) = some item := by
  have hsome : (items.find? fun other ↦ key other = key item).isSome :=
    List.find?_isSome.2 ⟨item, hmem, decide_eq_true rfl⟩
  obtain ⟨found, hfound⟩ := Option.isSome_iff_exists.1 hsome
  have hkey : key found = key item := by simpa using List.find?_some hfound
  rw [hfound, List.inj_on_of_nodup_map h (List.mem_of_find?_eq_some hfound) hmem hkey]

namespace Node

variable {κ : Type u}

/-! ### A node and all below it -/

/-- The node itself and all nodes below it, in preorder. -/
def all (node : Node κ) : List (Node κ) := node :: node.descendants.map Prod.snd

theorem all_eq (node : Node κ) : node.all = node :: node.children.flatMap all := by
  rw [all, descendants_eq, List.map_flatMap]
  refine congrArg _ (congrArg (List.flatMap · node.children) (funext fun child ↦ ?_))
  simp [all]

/-- A property of every node of a tree. -/
def Throughout (P : Node κ → Prop) (node : Node κ) : Prop := ∀ inner ∈ node.all, P inner

theorem throughout_iff {P : Node κ → Prop} {node : Node κ} :
    node.Throughout P ↔ P node ∧ ∀ child ∈ node.children, child.Throughout P := by
  rw [Throughout, all_eq, List.forall_mem_cons]
  simp only [Throughout, List.mem_flatMap]
  refine and_congr_right fun _ ↦ ⟨fun h child hchild inner hinner ↦ h inner ⟨child, hchild, hinner⟩,
    fun h inner ⟨child, hchild, hinner⟩ ↦ h child hchild inner hinner⟩

/-- A node that a walk meets is a child of a node that it meets. -/
theorem exists_parent_of_mem_descendants {node inner : Node κ} {path : Path}
    (h : (path, inner) ∈ node.descendants) : ∃ parent ∈ node.all, inner ∈ parent.children := by
  induction node using inductionOn generalizing path with
  | step node ih =>
    rw [descendants_eq, List.mem_flatMap] at h
    obtain ⟨child, hchild, h⟩ := h
    rw [all_eq]
    obtain heq | h := List.mem_cons.1 h
    · obtain ⟨-, rfl⟩ := Prod.mk.inj heq
      exact ⟨node, List.mem_cons_self .., hchild⟩
    · obtain ⟨⟨rest, inner'⟩, hinner, heq⟩ := List.mem_map.1 h
      obtain ⟨-, rfl⟩ := Prod.mk.inj heq
      obtain ⟨parent, hparent, hmem⟩ := ih child hchild hinner
      exact ⟨parent, List.mem_cons_of_mem _ (List.mem_flatMap.2 ⟨child, hchild, hparent⟩), hmem⟩

/-! ### Children by name -/

/-- What lookups by name rest on, for the children of one node. -/
structure Orderly (strict : Bool) (node : Node κ) : Prop where
  /-- Every child has a name that may be registered. -/
  valid : ∀ child ∈ node.children, Name.isValid strict child.name = true
  /-- No two children share a name. -/
  distinct : (node.children.map name).Nodup

variable {strict : Bool}

theorem mem_of_child? {node child : Node κ} {name : Text} (h : node.child? name = some child) :
    child ∈ node.children :=
  List.mem_of_find?_eq_some h

theorem name_of_child? {node child : Node κ} {name : Text} (h : node.child? name = some child) :
    child.name = name := by
  simpa using List.find?_some h

/-- **The child of a name is the only one.** -/
theorem Orderly.child?_eq_some_iff {node child : Node κ} {name : Text} (h : node.Orderly strict) :
    node.child? name = some child ↔ child ∈ node.children ∧ child.name = name := by
  constructor
  · intro hchild
    exact ⟨mem_of_child? hchild, name_of_child? hchild⟩
  · rintro ⟨hmem, rfl⟩
    exact find?_eq_some_of_nodup h.distinct hmem

/-- A child of an orderly tree is the root of one. -/
theorem Throughout.child? {node child : Node κ} {name : Text}
    (h : node.Throughout (Orderly strict)) (hchild : node.child? name = some child) :
    child.Throughout (Orderly strict) :=
  (throughout_iff.1 h).2 child (mem_of_child? hchild)

/-! ### Paths -/

theorem at?_cons_eq_some_iff {name : Text} {rest : Path} {node target : Node κ} :
    node.at? (name :: rest) = some target ↔
      ∃ child, node.child? name = some child ∧ child.at? rest = some target := by
  rw [at?, Option.bind_eq_bind, Option.bind_eq_some_iff]

theorem mem_branch_iff {node : Node κ} {row : Row κ} :
    row ∈ node.branch ↔ ∃ inner ∈ node.rows, row = inner.below [node.name] := by
  simp [branch, eq_comm]

/-- **A walk meets a node at a path exactly when the path leads to it.** -/
theorem mem_descendants_iff {node inner : Node κ} (h : node.Throughout (Orderly strict))
    {path : Path} : (path, inner) ∈ node.descendants ↔ node.descendant? path = some inner := by
  induction path generalizing node with
  | nil =>
    refine iff_of_false (fun hmem ↦ ?_) (by simp [descendant?])
    rw [descendants_eq, List.mem_flatMap] at hmem
    obtain ⟨child, -, hmem⟩ := hmem
    simp at hmem
  | cons name rest ih =>
    obtain ⟨horderly, hchildren⟩ := throughout_iff.1 h
    rw [descendants_eq, List.mem_flatMap, descendant?, if_neg (by simp), at?_cons_eq_some_iff]
    refine exists_congr fun child ↦ ?_
    rw [horderly.child?_eq_some_iff, and_assoc]
    refine and_congr_right fun hchild ↦ ?_
    have hrest := ih (hchildren child hchild)
    -- The path ends at the child, or goes on below it.
    cases rest with
    | nil =>
      simp only [List.mem_cons, Prod.mk.injEq, List.mem_map, Prod.exists, List.cons.injEq, and_true,
        at?, Option.some.injEq]
      constructor
      · rintro (⟨rfl, rfl⟩ | ⟨_, other, hmem, ⟨rfl, rfl⟩, rfl⟩)
        · exact ⟨rfl, rfl⟩
        · rw [hrest, descendant?] at hmem
          simp at hmem
      · rintro ⟨rfl, rfl⟩
        exact .inl ⟨rfl, rfl⟩
    | cons next rest =>
      rw [descendant?, if_neg (by simp)] at hrest
      rw [← hrest]
      simp only [List.mem_cons, Prod.mk.injEq, List.mem_map, Prod.exists, List.cons.injEq,
        reduceCtorEq, and_false, false_and, false_or]
      constructor
      · rintro ⟨_, _, hmem, ⟨rfl, rfl⟩, rfl⟩
        exact ⟨rfl, hmem⟩
      · rintro ⟨rfl, hmem⟩
        exact ⟨_, _, hmem, ⟨rfl, rfl⟩, rfl⟩

/-- The rows of a walk are those of the nodes that paths lead to. -/
theorem mem_rows_iff {node : Node κ} (h : node.Throughout (Orderly strict)) {row : Row κ} :
    row ∈ node.rows ↔
      ∃ target, node.at? row.path = some target ∧ target.id = row.id ∧
        target.method? = row.method? := by
  obtain ⟨path, id, method?⟩ := row
  rw [rows, List.mem_cons, List.mem_map]
  simp only [Prod.exists, Row.mk.injEq, mem_descendants_iff h]
  -- The row is that of the node itself, or one of those below it.
  cases path with
  | nil => simp [descendant?, at?, eq_comm]
  | cons name rest => simp [descendant?]

/-- **A method is registered at a path exactly when the path leads to it.** -/
theorem mem_methods_iff {node : Node κ} (h : node.Throughout (Orderly strict)) {path : Path}
    {method : Method κ} :
    (path, method) ∈ node.methods ↔
      ∃ target, node.descendant? path = some target ∧ target.method? = some method := by
  by_cases hnil : path = []
  · subst hnil
    refine ⟨fun hmem ↦ absurd rfl (path_ne_nil_of_mem_methods hmem), ?_⟩
    rintro ⟨target, htarget, -⟩
    simp [descendant?] at htarget
  · have hentry : (path, method) ∈ node.methods ↔
        ∃ row ∈ node.rows, row.path = path ∧ row.method? = some method := by
      rw [← Row.mem_entries_iff, entries_rows, List.mem_append]
      refine (or_iff_right fun hmem ↦ ?_).symm
      rw [Option.mem_toList, Option.map_eq_some_iff] at hmem
      obtain ⟨_, -, heq⟩ := hmem
      exact hnil (Prod.mk.inj heq).1.symm
    rw [hentry, descendant?, if_neg (by simpa using hnil)]
    constructor
    · rintro ⟨row, hrow, rfl, hmethod⟩
      obtain ⟨target, htarget, -, hmethod'⟩ := (mem_rows_iff h).1 hrow
      exact ⟨target, htarget, hmethod'.trans hmethod⟩
    · rintro ⟨target, htarget, hmethod⟩
      exact ⟨⟨path, target.id, some method⟩, (mem_rows_iff h).2 ⟨target, htarget, rfl, hmethod⟩,
        rfl, rfl⟩

/-- A path at which there is a method has names and leads to a node with a method. -/
theorem exists_of_hasMethodAt {node : Node κ} {path : Path} (h : node.hasMethodAt path = true) :
    path ≠ [] ∧ ∃ target method, node.at? path = some target ∧ target.method? = some method := by
  rw [hasMethodAt, descendant?] at h
  split at h
  case isTrue => simp at h
  case isFalse hpath =>
    rw [Option.any_eq_true] at h
    obtain ⟨target, htarget, hmethod⟩ := h
    obtain ⟨method, hmethod⟩ := Option.isSome_iff_exists.1 hmethod
    exact ⟨by simpa using hpath, target, method, htarget, hmethod⟩

theorem hasMethodAt_iff {node : Node κ} (h : node.Throughout (Orderly strict)) {path : Path} :
    node.hasMethodAt path = true ↔ path ∈ node.methods.map Prod.fst := by
  simp only [hasMethodAt, Option.any_eq_true, isMethod, Option.isSome_iff_exists, List.mem_map,
    Prod.exists, exists_and_right, exists_eq_right, mem_methods_iff h]
  constructor
  · rintro ⟨target, htarget, method, hmethod⟩
    exact ⟨method, target, htarget, hmethod⟩
  · rintro ⟨method, target, htarget, hmethod⟩
    exact ⟨target, htarget, method, hmethod⟩

/-- **No path is met twice.** -/
theorem nodup_paths {node : Node κ} (h : node.Throughout (Orderly strict)) :
    (node.rows.map Row.path).Nodup := by
  induction node using inductionOn with
  | step node ih =>
    obtain ⟨horderly, hchildren⟩ := throughout_iff.1 h
    rw [rows_eq, List.map_cons, List.nodup_cons, List.map_flatMap, List.nodup_flatMap]
    have hpath : ∀ (child : Node κ), child.branch.map Row.path =
        (child.rows.map Row.path).map (child.name :: ·) := by
      intro child
      simp [branch, Function.comp_def]
    refine ⟨?_, fun child hchild ↦ ?_, ?_⟩
    · show [] ∉ node.children.flatMap fun child ↦ child.branch.map Row.path
      intro hmem
      obtain ⟨child, -, hmem⟩ := List.mem_flatMap.1 hmem
      rw [hpath] at hmem
      simp at hmem
    · rw [hpath]
      exact (ih child hchild (hchildren child hchild)).map fun _ _ heq ↦ (List.cons.inj heq).2
    · -- Paths in the branches of two children begin with their names, and these differ.
      refine (List.pairwise_map.1 horderly.distinct).imp fun hne path hmem hmem' ↦ ?_
      beta_reduce at hmem hmem'
      rw [hpath] at hmem hmem'
      obtain ⟨_, -, rfl⟩ := List.mem_map.1 hmem
      obtain ⟨_, -, heq⟩ := List.mem_map.1 hmem'
      exact hne (List.cons.inj heq).1.symm

/-- No two methods are registered at one path. -/
theorem nodup_methods {node : Node κ} (h : node.Throughout (Orderly strict)) :
    (node.methods.map Prod.fst).Nodup := by
  have hsub : ∀ rows : List (Row κ),
      ((Row.entries rows).map Prod.fst).Sublist (rows.map Row.path) := by
    intro rows
    induction rows with
    | nil => exact .slnil
    | cons row rows ih =>
      rw [Row.entries_cons, Row.located?]
      cases row.method? with
      | none => exact ih.cons _
      | some method => exact ih.cons_cons _
  have hnodup := nodup_paths h
  rw [rows_eq, List.map_cons, List.nodup_cons] at hnodup
  rw [methods_eq_entries]
  exact (hsub _).nodup hnodup.2

/-- Every name on the way to a method may be registered. -/
theorem valid_of_mem_methods {node : Node κ} (h : node.Throughout (Orderly strict)) {path : Path}
    {method : Method κ} (hmem : (path, method) ∈ node.methods) :
    ∀ name ∈ path, Name.isValid strict name = true := by
  induction node using inductionOn generalizing path with
  | step node ih =>
    obtain ⟨horderly, hchildren⟩ := throughout_iff.1 h
    rw [methods_eq, List.mem_flatMap] at hmem
    obtain ⟨child, hchild, hmem⟩ := hmem
    obtain hmem | hmem := List.mem_append.1 hmem
    · rw [Option.mem_toList, Option.map_eq_some_iff] at hmem
      obtain ⟨_, -, heq⟩ := hmem
      obtain ⟨rfl, -⟩ := Prod.mk.inj heq
      exact List.forall_mem_singleton.2 (horderly.valid child hchild)
    · obtain ⟨⟨rest, method'⟩, hrest, heq⟩ := List.mem_map.1 hmem
      obtain ⟨rfl, rfl⟩ := Prod.mk.inj heq
      exact List.forall_mem_cons.2 ⟨horderly.valid child hchild,
        ih child hchild (hchildren child hchild) hrest⟩

end Node

end OscAddressing

import OscAddressing.Proofs.Tree.Orderly
import OscAddressing.Tree.Edit

/-!
# What an edit does to the rows

Every edit of the tree changes the rows in one place and leaves the rows before and after it as they
are. For edits of an existing node this is one fact, `alterAt?_rows`: the rows of the node at the
path are replaced by those of what is put there. From it,

* detaching removes the rows of the node at the path (`detach?_rows`),
* taking a method removes it from one row (`demote?_rows`),
* pruning removes rows without methods only (`pruned_rows`).

All of them keep a tree orderly, and keep the root what it is (`SameRoot`).
-/

namespace OscAddressing.Node

variable {κ : Type u} {strict : Bool}

/-! ### One child -/

/-- The node itself, its children apart, is the same. -/
structure SameRoot (node node' : Node κ) : Prop where
  id : node'.id = node.id
  name : node'.name = node.name
  method? : node'.method? = node.method?

theorem SameRoot.refl (node : Node κ) : SameRoot node node := ⟨rfl, rfl, rfl⟩

theorem SameRoot.trans {first second third : Node κ} (h : SameRoot first second)
    (h' : SameRoot second third) : SameRoot first third :=
  ⟨h'.id.trans h.id, h'.name.trans h.name, h'.method?.trans h.method?⟩

/-- **The first child of a name stands between the others**, and a child put in its place does. -/
theorem exists_split_of_child? {node child : Node κ} {name : Text}
    (h : node.child? name = some child) :
    ∃ left right, node.children = left ++ child :: right ∧
      (∀ child', (node.putChild name child').children = left ++ child' :: right) ∧
      (node.dropChild name).children = left ++ right := by
  -- No child to the left has the name, so a search for it passes them.
  obtain ⟨hname, left, right, hsplit, hleft⟩ := List.find?_eq_some_iff_append.1 h
  have hput : ∀ child' : Node κ, putNamed name child' (left ++ child :: right) =
      left ++ child' :: right := by
    intro child'
    clear hsplit
    induction left with
    | nil => rw [List.nil_append, putNamed, if_pos (by simpa using hname), List.nil_append]
    | cons other left ih =>
      rw [List.forall_mem_cons] at hleft
      rw [List.cons_append, putNamed, if_neg (by simpa using hleft.1), ih hleft.2,
        List.cons_append]
  refine ⟨left, right, hsplit, fun child' ↦ ?_, ?_⟩
  · rw [putChild, hsplit, hput]
  · rw [dropChild, hsplit, List.eraseP_append_right _ (by simpa using hleft)]
    simp [of_decide_eq_true hname]

/-- A child of a new name comes last. -/
theorem children_putChild_of_none {node : Node κ} {name : Text} (h : node.child? name = none)
    (child : Node κ) : (node.putChild name child).children = node.children ++ [child] := by
  have hput : ∀ nodes : List (Node κ), (nodes.find? fun node ↦ node.name = name) = none →
      putNamed name child nodes = nodes ++ [child] := by
    intro nodes hnone
    induction nodes with
    | nil => rfl
    | cons other nodes ih =>
      rw [List.find?_cons] at hnone
      split at hnone
      case h_1 => simp at hnone
      case h_2 hother =>
        rw [putNamed, if_neg (by simpa using hother), ih hnone, List.cons_append]
  rw [putChild, hput _ h]

theorem sameRoot_putChild (node : Node κ) (name : Text) (child : Node κ) :
    SameRoot node (node.putChild name child) := ⟨rfl, rfl, rfl⟩

/-- The rows of a child stand between the others. -/
theorem exists_rows_of_child? {node child : Node κ} {name : Text}
    (h : node.child? name = some child) :
    ∃ left right, node.rows = left ++ child.branch ++ right ∧
      (∀ child', (node.putChild name child').rows = left ++ child'.branch ++ right) ∧
      (node.dropChild name).rows = left ++ right := by
  obtain ⟨left, right, hsplit, hput, hdrop⟩ := exists_split_of_child? h
  refine ⟨⟨[], node.id, node.method?⟩ :: left.flatMap branch, right.flatMap branch, ?_,
    fun child' ↦ ?_, ?_⟩
  · rw [rows_eq, hsplit]
    simp
  · rw [rows_eq, hput]
    simp [putChild]
  · rw [rows_eq, hdrop]
    simp [dropChild]

theorem rows_putChild_of_none {node : Node κ} {name : Text} (h : node.child? name = none)
    (child : Node κ) : (node.putChild name child).rows = node.rows ++ child.branch := by
  rw [rows_eq, children_putChild_of_none h, rows_eq node]
  simp [putChild]

/-- The names of the children, after one has been put. -/
theorem names_putChild (node : Node κ) {name : Text} {child : Node κ} (hname : child.name = name) :
    (node.putChild name child).children.map Node.name = node.children.map Node.name ∨
      name ∉ node.children.map Node.name ∧
        (node.putChild name child).children.map Node.name =
          node.children.map Node.name ++ [name] := by
  cases h : node.child? name with
  | none =>
    refine .inr ⟨fun hmem ↦ ?_, by rw [children_putChild_of_none h, List.map_append, ← hname]; rfl⟩
    obtain ⟨other, hother, rfl⟩ := List.mem_map.1 hmem
    exact absurd (decide_eq_true rfl) (List.find?_eq_none.1 h other hother)
  | some present =>
    obtain ⟨left, right, hsplit, hput, -⟩ := exists_split_of_child? h
    have hpresent : present.name = name := name_of_child? h
    refine .inl ?_
    rw [hput, hsplit]
    simp [hname, hpresent]

/-- **Putting an orderly child under a valid name** keeps a tree orderly. -/
theorem Throughout.putChild {node child : Node κ} {name : Text}
    (h : node.Throughout (Orderly strict)) (hchild : child.Throughout (Orderly strict))
    (hname : child.name = name) (hvalid : Name.isValid strict name = true) :
    (node.putChild name child).Throughout (Orderly strict) := by
  obtain ⟨horderly, hchildren⟩ := throughout_iff.1 h
  have hmem : ∀ other ∈ (node.putChild name child).children,
      other = child ∨ other ∈ node.children := by
    intro other hother
    cases hfind : node.child? name with
    | none =>
      rw [children_putChild_of_none hfind, List.mem_append, List.mem_singleton] at hother
      exact hother.symm
    | some present =>
      obtain ⟨left, right, hsplit, hput, -⟩ := exists_split_of_child? hfind
      rw [hput, List.mem_append, List.mem_cons] at hother
      rw [hsplit, List.mem_append, List.mem_cons]
      tauto
  refine throughout_iff.2 ⟨⟨fun other hother ↦ ?_, ?_⟩, fun other hother ↦ ?_⟩
  · obtain rfl | hother := hmem other hother
    · rwa [hname]
    · exact horderly.valid other hother
  · obtain heq | ⟨hnew, heq⟩ := names_putChild node hname
    · rw [heq]
      exact horderly.distinct
    · rw [heq]
      exact horderly.distinct.append (List.nodup_singleton name) (by simpa using hnew)
  · obtain rfl | hother := hmem other hother
    · exact hchild
    · exact hchildren other hother

theorem Throughout.dropChild {node : Node κ} (h : node.Throughout (Orderly strict))
    (name : Text) : (node.dropChild name).Throughout (Orderly strict) := by
  obtain ⟨horderly, hchildren⟩ := throughout_iff.1 h
  have hsub : (node.dropChild name).children.Sublist node.children := List.eraseP_sublist
  exact throughout_iff.2 ⟨⟨fun child hchild ↦ horderly.valid child (hsub.subset hchild),
    (hsub.map Node.name).nodup horderly.distinct⟩,
    fun child hchild ↦ hchildren child (hsub.subset hchild)⟩

/-! ### The node at a path -/

theorem at?_append (path path' : Path) (node : Node κ) :
    node.at? (path ++ path') = (node.at? path).bind (at? path') := by
  induction path generalizing node with
  | nil => rfl
  | cons name rest ih =>
    rw [List.cons_append, at?, at?]
    cases node.child? name with
    | none => rfl
    | some child => exact ih child

theorem at?_append_singleton (path : Path) (name : Text) (node : Node κ) :
    node.at? (path ++ [name]) = (node.at? path).bind fun inner ↦ inner.child? name := by
  rw [at?_append]
  refine Option.bind_congr fun inner _ ↦ Option.ext fun child ↦ ?_
  simp [at?]

/-- A path that goes on from a node goes on to one of its children. -/
theorem mem_children_of_at? {path : Path} {name : Text} {node inner target : Node κ}
    (hinner : node.at? path = some inner) (htarget : node.at? (path ++ [name]) = some target) :
    target ∈ inner.children ∧ target.name = name := by
  rw [at?_append_singleton, hinner, Option.bind_some] at htarget
  exact ⟨mem_of_child? htarget, name_of_child? htarget⟩

section AlterAt

variable {change : Node κ → Option (Node κ)}

theorem alterAt?_cons_eq_some_iff {name : Text} {rest : Path} {node node' : Node κ} :
    node.alterAt? change (name :: rest) = some node' ↔
      ∃ child child', node.child? name = some child ∧
        child.alterAt? change rest = some child' ∧ node.putChild name child' = node' := by
  simp [alterAt?, Option.bind_eq_some_iff]

/-- A change at the end of a longer path is no change of the root. -/
theorem sameRoot_alterAt? {path : Path} {node node' : Node κ}
    (hchange : ∀ target target', change target = some target' → SameRoot target target')
    (h : node.alterAt? change path = some node') : SameRoot node node' := by
  cases path with
  | nil => exact hchange node node' h
  | cons name rest =>
    obtain ⟨child, child', -, -, rfl⟩ := alterAt?_cons_eq_some_iff.1 h
    exact sameRoot_putChild ..

theorem name_alterAt? {path : Path} {node node' : Node κ}
    (hname : ∀ target target', change target = some target' → target'.name = target.name)
    (h : node.alterAt? change path = some node') : node'.name = node.name := by
  cases path with
  | nil => exact hname node node' h
  | cons name rest =>
    obtain ⟨child, child', -, -, rfl⟩ := alterAt?_cons_eq_some_iff.1 h
    rfl

/-- There is something to alter exactly at the paths that lead to a node. -/
theorem exists_alterAt? {path : Path} {node target target' : Node κ}
    (htarget : node.at? path = some target) (hchange : change target = some target') :
    ∃ node', node.alterAt? change path = some node' := by
  induction path generalizing node with
  | nil =>
    obtain rfl : node = target := Option.some.inj htarget
    exact ⟨target', hchange⟩
  | cons name rest ih =>
    obtain ⟨child, hchild, htarget⟩ := at?_cons_eq_some_iff.1 htarget
    obtain ⟨child', hchild'⟩ := ih htarget
    exact ⟨_, alterAt?_cons_eq_some_iff.2 ⟨child, child', hchild, hchild', rfl⟩⟩

/-- **Altering the node at a path replaces its rows** and no others. -/
theorem alterAt?_rows {path : Path} {node node' : Node κ}
    (hname : ∀ target target', change target = some target' → target'.name = target.name)
    (h : node.alterAt? change path = some node') :
    ∃ target target' left right, node.at? path = some target ∧ change target = some target' ∧
      node.rows = left ++ target.rows.map (Row.below path) ++ right ∧
      node'.rows = left ++ target'.rows.map (Row.below path) ++ right := by
  induction path generalizing node node' with
  | nil => exact ⟨node, node', [], [], rfl, h, by simp, by simp⟩
  | cons name rest ih =>
    obtain ⟨child, child', hchild, hchild', rfl⟩ := alterAt?_cons_eq_some_iff.1 h
    obtain ⟨target, target', left, right, htarget, hchange, hrows, hrows'⟩ := ih hchild'
    obtain ⟨left', right', hnode, hput, -⟩ := exists_rows_of_child? hchild
    have hpresent : child.name = name := name_of_child? hchild
    have hpresent' : child'.name = name := (name_alterAt? hname hchild').trans hpresent
    refine ⟨target, target', left' ++ left.map (Row.below [name]),
      right.map (Row.below [name]) ++ right', by rw [at?, hchild]; exact htarget, hchange, ?_, ?_⟩
    · rw [hnode, branch, hrows, hpresent]
      simp [Row.below_below, Function.comp_def]
    · rw [hput, branch, hrows', hpresent']
      simp [Row.below_below, Function.comp_def]

/-- A change that keeps trees orderly does so at the end of a path. -/
theorem Throughout.alterAt? {path : Path} {node node' : Node κ}
    (hname : ∀ target target', change target = some target' → target'.name = target.name)
    (hchange : ∀ target target', target.Throughout (Orderly strict) →
      change target = some target' → target'.Throughout (Orderly strict))
    (h : node.Throughout (Orderly strict)) (halter : node.alterAt? change path = some node') :
    node'.Throughout (Orderly strict) := by
  induction path generalizing node node' with
  | nil => exact hchange node node' h halter
  | cons name rest ih =>
    obtain ⟨child, child', hchild, hchild', rfl⟩ := alterAt?_cons_eq_some_iff.1 halter
    obtain ⟨hmem, hpresent⟩ := ((throughout_iff.1 h).1).child?_eq_some_iff.1 hchild
    exact h.putChild (ih (h.child? hchild) hchild')
      ((name_alterAt? hname hchild').trans hpresent)
      (hpresent ▸ ((throughout_iff.1 h).1).valid child hmem)

end AlterAt

end OscAddressing.Node

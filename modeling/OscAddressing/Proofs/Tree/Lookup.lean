import OscAddressing.Proofs.Tree.Withdraw

/-!
# Following a path to its end

A path can be followed to its end (`at?`), or with all nodes on the way (`along?`). The two are
written separately, and lead to the same node: `getLast?_pathNodes?`. This holds in every tree,
whether or not siblings share names. So does `child?_putChild`: a child is put in the place where it
is looked up.
-/

namespace OscAddressing.Node

variable {κ : Type u}

/-! ### The end of a path -/

theorem descendant?_of_ne_nil {path : Path} (hpath : path ≠ []) (node : Node κ) :
    node.descendant? path = node.at? path := by
  rw [descendant?, if_neg (by simpa using hpath)]

/-- **The last of the nodes along a path** is the one that it leads to. -/
theorem getLast?_along? {path : Path} (hpath : path ≠ []) (node : Node κ) :
    (along? path node).bind List.getLast? = node.at? path := by
  cases hnodes : along? path node with
  | none =>
    cases htarget : node.at? path with
    | none => rfl
    | some target =>
      obtain ⟨nodes, hsome⟩ := exists_along? htarget
      exact absurd (hnodes.symm.trans hsome) (by simp)
  | some nodes =>
    have hlength := length_along? hnodes
    have hpos := List.length_pos_of_ne_nil hpath
    have hlast := at?_take_of_along? hnodes (show nodes.length - 1 < nodes.length by omega)
    rw [show nodes.length - 1 + 1 = path.length by omega, List.take_length] at hlast
    rw [hlast, Option.bind_some, List.getLast?_eq_getElem?]
    exact List.getElem?_eq_getElem _

theorem getLast?_pathNodes? {path : Path} (hpath : path ≠ []) (withSelf : Bool) (node : Node κ) :
    (node.pathNodes? withSelf path).bind List.getLast? = node.descendant? path := by
  rw [descendant?_of_ne_nil hpath, ← getLast?_along? hpath, pathNodes?, Option.bind_map]
  refine Option.bind_congr fun nodes hnodes ↦ ?_
  have hne : nodes ≠ [] := by
    rw [← List.length_pos_iff, length_along? hnodes, List.length_pos_iff]
    exact hpath
  cases withSelf with
  | false => rfl
  | true => exact List.getLast?_cons_of_ne_nil hne

/-! ### Children after a change -/

/-- **Of a node with a child put in place** that child has its name, and the others are found as
before. -/
theorem child?_putChild {node child : Node κ} {name : Text} (hname : child.name = name)
    (other : Text) : (node.putChild name child).child? other =
      if other = name then some child else node.child? other := by
  have hput : ∀ nodes : List (Node κ), ((putNamed name child nodes).find? fun node ↦
      node.name = other) = if other = name then some child else
        nodes.find? fun node ↦ node.name = other := by
    intro nodes
    induction nodes with
    | nil =>
      rw [putNamed, List.find?_singleton]
      by_cases heq : other = name
      · simp [heq, hname]
      · simp [heq, hname, Ne.symm heq]
    | cons first rest ih =>
      rw [putNamed]
      by_cases hfirst : first.name = name
      · rw [if_pos hfirst, List.find?_cons, List.find?_cons, hname, hfirst]
        by_cases heq : other = name
        · simp [heq]
        · simp [heq, Ne.symm heq]
      · rw [if_neg hfirst, List.find?_cons, List.find?_cons, ih]
        by_cases heq : other = name
        · simp [heq, hfirst]
        · simp [heq]
  exact hput node.children

theorem child?_putChild_self (node : Node κ) {child : Node κ} {name : Text}
    (hname : child.name = name) : (node.putChild name child).child? name = some child := by
  rw [child?_putChild hname, if_pos rfl]

/-- Where no two children share a name, one that has been dropped is not found any more. -/
theorem Orderly.child?_dropChild {strict : Bool} {node child : Node κ} {name : Text}
    (h : node.Orderly strict) (hchild : node.child? name = some child) :
    (node.dropChild name).child? name = none := by
  obtain ⟨left, right, hsplit, -, hdrop⟩ := exists_split_of_child? hchild
  have hdistinct := h.distinct
  rw [hsplit, (List.perm_middle.map _).nodup_iff, List.map_cons, List.nodup_cons,
    name_of_child? hchild, ← hdrop] at hdistinct
  rw [child?, List.find?_eq_none]
  intro other hother heq
  exact hdistinct.1 (List.mem_map.2 ⟨other, hother, of_decide_eq_true heq⟩)

end OscAddressing.Node

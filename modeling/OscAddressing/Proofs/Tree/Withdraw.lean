import Mathlib.Data.List.Chain
import OscAddressing.Proofs.Tree.Edit

/-!
# Withdrawing a method, and pruning

What the three edits that remove something do to the rows:

* `detach?_rows`: the rows of the detached node go, and no others;
* `demote?_rows`: one row loses its method;
* `pruned_rows`: rows go that have no method, and no others.

The last one is the point where a lookup by name could remove a live registration, since a whole
subtree is detached by force. It does not because the nodes of a dead chain hold nothing but the
chain (`dead_of_lt_deadCount`): going up from its lower end, each has no method and, as its only
child, the node that was looked at before. Where this ends, and what is on either side, is
`exists_top_of_pruned`.
-/

namespace OscAddressing.Node

variable {κ : Type u} {strict : Bool}

/-! ### Detaching a node -/

theorem without?_eq_some_iff {force : Bool} {name : Text} {node node' : Node κ} :
    node.without? force name = some node' ↔
      ∃ child, node.child? name = some child ∧ (force = true ∨ child.children = []) ∧
        node.dropChild name = node' := by
  simp only [without?, Option.bind_eq_bind, Option.bind_eq_some_iff]
  refine exists_congr fun child ↦ and_congr_right fun _ ↦ ?_
  cases force <;> cases hempty : child.children <;> simp [isContainer, hempty]

theorem sameRoot_of_without? {force : Bool} {name : Text} {node node' : Node κ}
    (h : node.without? force name = some node') : SameRoot node node' := by
  obtain ⟨child, -, -, rfl⟩ := without?_eq_some_iff.1 h
  exact ⟨rfl, rfl, rfl⟩

theorem detach?_append_singleton {force : Bool} {parents : Path} {last : Text} {node : Node κ} :
    node.detach? force (parents ++ [last]) = node.alterAt? (without? force last) parents := by
  simp [detach?]

/-- A path along which something is detached is a path to a parent and a last name. -/
theorem exists_of_detach? {force : Bool} {path : Path} {node node' : Node κ}
    (h : node.detach? force path = some node') :
    ∃ parents last, path = parents ++ [last] ∧
      node.alterAt? (without? force last) parents = some node' := by
  rcases path.eq_nil_or_concat' with rfl | ⟨parents, last, rfl⟩
  · simp [detach?] at h
  · exact ⟨parents, last, rfl, detach?_append_singleton ▸ h⟩

/-- **Detaching a node removes its rows.** -/
theorem detach?_rows {force : Bool} {path : Path} {node node' : Node κ}
    (h : node.detach? force path = some node') :
    ∃ target left right, node.at? path = some target ∧
      (force = true ∨ target.children = []) ∧
      node.rows = left ++ target.rows.map (Row.below path) ++ right ∧
      node'.rows = left ++ right := by
  obtain ⟨parents, last, rfl, halter⟩ := exists_of_detach? h
  obtain ⟨parent, parent', left, right, hparent, hdrop, hrows, hrows'⟩ :=
    alterAt?_rows (fun _ _ h ↦ (sameRoot_of_without? h).name) halter
  obtain ⟨target, htarget, hforce, rfl⟩ := without?_eq_some_iff.1 hdrop
  obtain ⟨left', right', hsplit, -, hdropped⟩ := exists_rows_of_child? htarget
  have hname : target.name = last := name_of_child? htarget
  refine ⟨target, left ++ left'.map (Row.below parents), right'.map (Row.below parents) ++ right,
    ?_, hforce, ?_, ?_⟩
  · rwa [at?_append_singleton, hparent, Option.bind_some]
  · rw [hrows, hsplit, branch, hname]
    simp [Row.below_below, Function.comp_def]
  · rw [hrows', hdropped]
    simp

theorem sublist_rows_detach? {force : Bool} {path : Path} {node node' : Node κ}
    (h : node.detach? force path = some node') : node'.rows.Sublist node.rows := by
  obtain ⟨target, left, right, -, -, hrows, hrows'⟩ := detach?_rows h
  rw [hrows, hrows', List.append_assoc]
  exact (List.sublist_append_right ..).append_left left

/-- A node can be detached when there is one, and when it has no children or that is forced. -/
theorem exists_detach? {force : Bool} {path : Path} {node target : Node κ} (hpath : path ≠ [])
    (htarget : node.at? path = some target) (hforce : force = true ∨ target.children = []) :
    ∃ node', node.detach? force path = some node' := by
  rcases path.eq_nil_or_concat' with rfl | ⟨parents, last, rfl⟩
  · exact absurd rfl hpath
  · rw [at?_append_singleton, Option.bind_eq_some_iff] at htarget
    obtain ⟨parent, hparent, hchild⟩ := htarget
    have hdrop := without?_eq_some_iff.2 ⟨target, hchild, hforce, rfl⟩
    rw [detach?_append_singleton]
    exact exists_alterAt? hparent hdrop

theorem sameRoot_detach? {force : Bool} {path : Path} {node node' : Node κ}
    (h : node.detach? force path = some node') : SameRoot node node' := by
  obtain ⟨parents, last, -, halter⟩ := exists_of_detach? h
  exact sameRoot_alterAt? (fun _ _ h ↦ sameRoot_of_without? h) halter

theorem Throughout.detach? {force : Bool} {path : Path} {node node' : Node κ}
    (h : node.Throughout (Orderly strict)) (hdetach : node.detach? force path = some node') :
    node'.Throughout (Orderly strict) := by
  obtain ⟨parents, last, -, halter⟩ := exists_of_detach? hdetach
  refine h.alterAt? (fun _ _ h ↦ (sameRoot_of_without? h).name) (fun target target' h hdrop ↦ ?_)
    halter
  obtain ⟨child, -, -, rfl⟩ := without?_eq_some_iff.1 hdrop
  exact h.dropChild last

/-! ### Taking a method -/

theorem demoted_iff {target target' : Node κ} :
    (target.method?.map fun _ ↦ { target with method? := none }) = some target' ↔
      ∃ method, target.method? = some method ∧ { target with method? := none } = target' := by
  simp

/-- **Taking a method changes one row.** -/
theorem demote?_rows {path : Path} {node node' : Node κ} (h : node.demote? path = some node') :
    ∃ id method left right, node.rows = left ++ ⟨path, id, some method⟩ :: right ∧
      node'.rows = left ++ ⟨path, id, none⟩ :: right := by
  obtain ⟨target, target', left, right, -, hchange, hrows, hrows'⟩ := alterAt?_rows
    (fun target target' h ↦ by obtain ⟨-, -, rfl⟩ := demoted_iff.1 h; rfl) h
  obtain ⟨method, hmethod, rfl⟩ := demoted_iff.1 hchange
  refine ⟨target.id, method, left, (target.children.flatMap branch).map (Row.below path) ++ right,
    ?_, ?_⟩
  · rw [hrows, rows_eq, hmethod]
    simp [Row.below]
  · rw [hrows', rows_eq]
    simp [Row.below]

theorem map_path_demote? {path : Path} {node node' : Node κ}
    (h : node.demote? path = some node') : node'.rows.map Row.path = node.rows.map Row.path := by
  obtain ⟨id, method, left, right, hrows, hrows'⟩ := demote?_rows h
  simp [hrows, hrows']

theorem exists_demote? {path : Path} {node target : Node κ} {method : Method κ}
    (htarget : node.at? path = some target) (hmethod : target.method? = some method) :
    ∃ node', node.demote? path = some node' :=
  exists_alterAt? htarget (demoted_iff.2 ⟨method, hmethod, rfl⟩)

/-- Below the root, taking a method is no change of the root. -/
theorem sameRoot_demote? {path : Path} {node node' : Node κ} (hpath : path ≠ [])
    (h : node.demote? path = some node') : SameRoot node node' := by
  cases path with
  | nil => exact absurd rfl hpath
  | cons name rest =>
    obtain ⟨child, child', -, -, rfl⟩ := alterAt?_cons_eq_some_iff.1 h
    show SameRoot node (node.putChild name child')
    exact sameRoot_putChild ..

theorem Throughout.demote? {path : Path} {node node' : Node κ}
    (h : node.Throughout (Orderly strict)) (hdemote : node.demote? path = some node') :
    node'.Throughout (Orderly strict) := by
  refine h.alterAt? (fun target target' h ↦ ?_) (fun target target' h htake ↦ ?_) hdemote
  · obtain ⟨-, -, rfl⟩ := demoted_iff.1 h
    rfl
  · obtain ⟨method, -, rfl⟩ := demoted_iff.1 htake
    obtain ⟨horderly, hchildren⟩ := throughout_iff.1 h
    exact throughout_iff.2 ⟨⟨horderly.valid, horderly.distinct⟩, hchildren⟩

/-! ### Dead chains -/

/-- The node and everything below it is without a method. -/
def Dead (node : Node κ) : Prop := ∀ row ∈ node.rows, row.method? = none

theorem dead_iff {node : Node κ} :
    node.Dead ↔ node.method? = none ∧ ∀ child ∈ node.children, child.Dead := by
  rw [Dead, rows_eq, List.forall_mem_cons]
  refine and_congr_right fun _ ↦ ⟨fun h child hchild row hrow ↦ ?_, fun h row hrow ↦ ?_⟩
  · exact h (row.below [child.name])
      (List.mem_flatMap.2 ⟨child, hchild, mem_branch_iff.2 ⟨row, hrow, rfl⟩⟩)
  · obtain ⟨child, hchild, hmem⟩ := List.mem_flatMap.1 hrow
    obtain ⟨inner, hinner, rfl⟩ := mem_branch_iff.1 hmem
    exact h child hchild inner hinner

theorem along?_cons_eq_some_iff {name : Text} {rest : Path} {node : Node κ}
    {nodes : List (Node κ)} :
    along? (name :: rest) node = some nodes ↔
      ∃ child inner, node.child? name = some child ∧ along? rest child = some inner ∧
        child :: inner = nodes := by
  simp [along?, Option.bind_eq_some_iff]

/-- The nodes along a path, from its end upwards, are each a child of the next. -/
theorem isChain_along? {path : Path} {node : Node κ} {nodes : List (Node κ)}
    (h : along? path node = some nodes) :
    (node :: nodes).IsChain fun parent child ↦ child ∈ parent.children := by
  induction path generalizing node nodes with
  | nil =>
    obtain rfl : [] = nodes := Option.some.inj h
    exact List.isChain_singleton node
  | cons name rest ih =>
    obtain ⟨child, inner, hchild, hinner, rfl⟩ := along?_cons_eq_some_iff.1 h
    exact List.isChain_cons_cons.2 ⟨mem_of_child? hchild, ih hinner⟩

theorem length_along? {path : Path} {node : Node κ} {nodes : List (Node κ)}
    (h : along? path node = some nodes) : nodes.length = path.length := by
  induction path generalizing node nodes with
  | nil =>
    obtain rfl : [] = nodes := Option.some.inj h
    rfl
  | cons name rest ih =>
    obtain ⟨child, inner, hchild, hinner, rfl⟩ := along?_cons_eq_some_iff.1 h
    rw [List.length_cons, List.length_cons, ih hinner]

/-- The nodes along a path are those at its leading parts. -/
theorem at?_take_of_along? {path : Path} {node : Node κ} {nodes : List (Node κ)}
    (h : along? path node = some nodes) {i : Nat} (hi : i < nodes.length) :
    node.at? (path.take (i + 1)) = some nodes[i] := by
  induction path generalizing node nodes i with
  | nil =>
    obtain rfl : [] = nodes := Option.some.inj h
    simp at hi
  | cons name rest ih =>
    obtain ⟨child, inner, hchild, hinner, rfl⟩ := along?_cons_eq_some_iff.1 h
    rw [List.take_succ_cons, at?, hchild]
    cases i with
    | zero => rfl
    | succ i => exact ih hinner (Nat.lt_of_succ_lt_succ hi)

theorem deadCount_le (allowed : Nat) (nodes : List (Node κ)) :
    deadCount allowed nodes ≤ nodes.length := by
  induction nodes generalizing allowed with
  | nil => exact Nat.le_refl 0
  | cons node above ih =>
    rw [deadCount]
    split
    · exact Nat.zero_le _
    · exact Nat.succ_le_succ (ih 1)

/-- The nodes that are counted have no method, and only as many children as they are allowed. -/
theorem allowed_of_lt_deadCount {allowed : Nat} {nodes : List (Node κ)} {i : Nat}
    (hi : i < deadCount allowed nodes) (hlength : i < nodes.length) :
    nodes[i].method? = none ∧ nodes[i].children.length ≤ if i = 0 then allowed else 1 := by
  induction nodes generalizing allowed i with
  | nil => simp at hlength
  | cons node above ih =>
    rw [deadCount] at hi
    split at hi
    case isTrue => simp at hi
    case isFalse halive =>
      rw [Bool.or_eq_true, not_or, decide_eq_true_iff, Nat.not_lt] at halive
      cases i with
      | zero => exact ⟨by simpa [isMethod] using halive.1, halive.2⟩
      | succ i =>
        obtain ⟨hmethod, hchildren⟩ :=
          ih (Nat.lt_of_succ_lt_succ hi) (Nat.lt_of_succ_lt_succ hlength)
        exact ⟨hmethod, by simpa using hchildren⟩

/-- **Every node that is counted is dead**, by induction from the lower end of the path upwards: the
first has no children, and each other one only the node before it. -/
theorem dead_of_lt_deadCount {nodes : List (Node κ)}
    (hchain : nodes.IsChain fun child parent ↦ child ∈ parent.children) {i : Nat}
    (hi : i < deadCount 0 nodes) (hlength : i < nodes.length) : nodes[i].Dead := by
  induction i with
  | zero =>
    obtain ⟨hmethod, hchildren⟩ := allowed_of_lt_deadCount hi hlength
    refine dead_iff.2 ⟨hmethod, fun child hchild ↦ ?_⟩
    exact absurd (List.length_pos_of_mem hchild) (Nat.not_lt.2 hchildren)
  | succ i ih =>
    obtain ⟨hmethod, hchildren⟩ := allowed_of_lt_deadCount hi hlength
    have hmem := List.isChain_iff_getElem.1 hchain i hlength
    obtain ⟨only, honly⟩ := List.length_eq_one_iff.1
      (Nat.le_antisymm hchildren (List.length_pos_of_mem hmem))
    refine dead_iff.2 ⟨hmethod, fun child hchild ↦ ?_⟩
    rw [honly, List.mem_singleton] at hmem hchild
    exact hchild.trans hmem.symm ▸ ih (Nat.lt_of_succ_lt hi) (Nat.lt_of_succ_lt hlength)

/-- **The count stops at a node that is alive**: it carries a method, or has more children than it
is allowed. -/
theorem exists_alive_of_deadCount_lt {allowed : Nat} {nodes : List (Node κ)}
    (h : deadCount allowed nodes < nodes.length) :
    ∃ node, nodes[deadCount allowed nodes]? = some node ∧ (node.isMethod = true ∨
      (if deadCount allowed nodes = 0 then allowed else 1) < node.children.length) := by
  induction nodes generalizing allowed with
  | nil => simp at h
  | cons node above ih =>
    rw [deadCount] at h ⊢
    split
    case isTrue halive =>
      rw [Bool.or_eq_true, decide_eq_true_iff] at halive
      exact ⟨node, rfl, halive⟩
    case isFalse hdead =>
      rw [if_neg hdead, List.length_cons] at h
      obtain ⟨stop, hstop, halive⟩ := ih (Nat.lt_of_succ_lt_succ h)
      exact ⟨stop, hstop, by simpa using halive⟩

/-! ### Pruning -/

theorem exists_along? {path : Path} {node target : Node κ} (h : node.at? path = some target) :
    ∃ nodes, along? path node = some nodes := by
  induction path generalizing node with
  | nil => exact ⟨[], rfl⟩
  | cons name rest ih =>
    obtain ⟨child, hchild, h⟩ := at?_cons_eq_some_iff.1 h
    obtain ⟨nodes, hnodes⟩ := ih h
    exact ⟨child :: nodes, along?_cons_eq_some_iff.2 ⟨child, nodes, hchild, hnodes, rfl⟩⟩

/-- **Pruning detaches what is counted**, if anything is. -/
theorem pruned_of_along? {path : Path} {node : Node κ} {nodes : List (Node κ)}
    (h : along? path node = some nodes) :
    (deadCount 0 nodes.reverse = 0 ∧ node.pruned path = node) ∨
      (0 < deadCount 0 nodes.reverse ∧
        node.detach? true (path.take (path.length - deadCount 0 nodes.reverse + 1)) =
          some (node.pruned path)) := by
  have hlength := length_along? h
  have hcount := deadCount_le 0 nodes.reverse
  rw [List.length_reverse] at hcount
  rw [pruned, h]
  simp only [hlength]
  split
  case isFalse htop => exact .inl ⟨by omega, rfl⟩
  case isTrue htop =>
    have htarget := at?_take_of_along? h (hlength ▸ htop)
    obtain ⟨node', hdetach⟩ := exists_detach? (by
      intro hnil
      rw [List.take_eq_nil_iff] at hnil
      rcases hnil with hnil | rfl
      · omega
      · simp at htop) htarget (.inl rfl)
    rw [hlength] at hdetach
    exact .inr ⟨by omega, by rw [hdetach, Option.getD_some]⟩

/-- **The nodes of a path beyond its first `top` are a dead end**: they have no methods, and no
children but the next of them. -/
def DeadEnd (node : Node κ) (path : Path) (top : Nat) : Prop :=
  ∀ i, top < i → i ≤ path.length → ∃ inner, node.at? (path.take i) = some inner ∧
    inner.method? = none ∧ ∀ child ∈ inner.children, path.take i ++ [child.name] <+: path

/-- **What is counted is a dead end.** -/
theorem deadEnd_of_along? {path : Path} {node : Node κ} {nodes : List (Node κ)}
    (h : along? path node = some nodes) :
    node.DeadEnd path (path.length - deadCount 0 nodes.reverse) := by
  intro i htop hi
  have hlength := length_along? h
  obtain ⟨j, rfl⟩ := Nat.exists_eq_succ_of_ne_zero (Nat.ne_zero_of_lt htop)
  obtain ⟨hmethod, hchildren⟩ := allowed_of_lt_deadCount
    (show nodes.length - 1 - j < deadCount 0 nodes.reverse by omega)
    (by rw [List.length_reverse]; omega)
  have hindex : nodes.length - 1 - (nodes.length - 1 - j) = j := by omega
  simp only [List.getElem_reverse, hindex] at hmethod hchildren
  have hat := at?_take_of_along? h (show j < nodes.length by omega)
  refine ⟨_, hat, hmethod, fun child hchild ↦ ?_⟩
  have hpos := List.length_pos_of_mem hchild
  split at hchildren
  case isTrue => omega
  case isFalse hnotLast =>
    -- The next node on the path is a child, and so it is the only one.
    have hnext := at?_take_of_along? h (show j + 1 < nodes.length by omega)
    rw [← List.take_append_getElem (show j + 1 < path.length by omega)] at hnext
    obtain ⟨hmem, hname⟩ := mem_children_of_at? hat hnext
    obtain ⟨only, honly⟩ := List.length_eq_one_iff.1 (Nat.le_antisymm hchildren hpos)
    rw [honly, List.mem_singleton] at hmem hchild
    rw [hchild, ← hmem, hname, List.take_append_getElem]
    exact List.take_prefix _ _

/-- **Where pruning a path stops.** The first `top` nodes on the path stay, and the one behind them
is detached, unless all of them stay. Those that go are a dead end; if any stay, the last of these
is alive. -/
theorem exists_top_of_pruned {path : Path} {node target : Node κ}
    (htarget : node.at? path = some target) :
    ∃ top ≤ path.length, node.DeadEnd path top ∧
      (top = path.length ∧ node.pruned path = node ∨
        top < path.length ∧ node.detach? true (path.take (top + 1)) = some (node.pruned path)) ∧
      (0 < top → ∃ inner, node.at? (path.take top) = some inner ∧ (inner.isMethod = true ∨
        (if top = path.length then 0 else 1) < inner.children.length)) := by
  obtain ⟨nodes, hnodes⟩ := exists_along? htarget
  have hlength := length_along? hnodes
  have hcount := deadCount_le 0 nodes.reverse
  rw [List.length_reverse] at hcount
  refine ⟨path.length - deadCount 0 nodes.reverse, Nat.sub_le _ _, deadEnd_of_along? hnodes, ?_,
    fun htop ↦ ?_⟩
  · rcases pruned_of_along? hnodes with ⟨hzero, hsame⟩ | ⟨hpos, hdetach⟩
    · exact .inl ⟨by omega, hsame⟩
    · exact .inr ⟨by omega, hdetach⟩
  · obtain ⟨inner, hinner, halive⟩ := exists_alive_of_deadCount_lt
      (show deadCount 0 nodes.reverse < nodes.reverse.length by rw [List.length_reverse]; omega)
    rw [List.getElem?_reverse (by omega)] at hinner
    obtain ⟨hlt, rfl⟩ := List.getElem?_eq_some_iff.1 hinner
    have hat := at?_take_of_along? hnodes hlt
    have hindex : nodes.length - 1 - deadCount 0 nodes.reverse + 1 =
        path.length - deadCount 0 nodes.reverse := by omega
    rw [hindex] at hat
    refine ⟨_, hat, halive.imp_right fun hchildren ↦ ?_⟩
    have hzero : path.length - deadCount 0 nodes.reverse = path.length ↔
        deadCount 0 nodes.reverse = 0 := by omega
    simpa only [hzero] using hchildren

/-- What pruning a path does: nothing, or it detaches a dead node. -/
theorem pruned_cases (path : Path) (node : Node κ) :
    node.pruned path = node ∨
      ∃ top target, top < path.length ∧ node.at? (path.take (top + 1)) = some target ∧
        target.Dead ∧ node.detach? true (path.take (top + 1)) = some (node.pruned path) := by
  cases hnodes : along? path node with
  | none =>
    left
    rw [pruned, hnodes]
  | some nodes =>
    rcases pruned_of_along? hnodes with ⟨-, hsame⟩ | ⟨hpos, hdetach⟩
    · exact .inl hsame
    have hlength := length_along? hnodes
    have hcount := deadCount_le 0 nodes.reverse
    rw [List.length_reverse] at hcount
    have hi : path.length - deadCount 0 nodes.reverse < nodes.length := by omega
    refine .inr ⟨_, _, by omega, at?_take_of_along? hnodes hi, ?_, hdetach⟩
    have hchain : nodes.reverse.IsChain fun child parent ↦ child ∈ parent.children :=
      List.isChain_reverse.2 (isChain_along? hnodes).tail
    have hdead := dead_of_lt_deadCount hchain
      (show deadCount 0 nodes.reverse - 1 < deadCount 0 nodes.reverse by omega)
      (by rw [List.length_reverse]; omega)
    rw [List.getElem_reverse] at hdead
    have hindex : nodes.length - 1 - (deadCount 0 nodes.reverse - 1) =
        path.length - deadCount 0 nodes.reverse := by omega
    simpa [hindex] using hdead

/-- **Pruning removes rows without methods only.** -/
theorem pruned_rows (path : Path) (node : Node κ) :
    ∃ left dead right, node.rows = left ++ dead ++ right ∧
      (node.pruned path).rows = left ++ right ∧ ∀ row ∈ dead, row.method? = none := by
  rcases pruned_cases path node with hsame | ⟨top, target, -, htarget, hdead, hdetach⟩
  · exact ⟨node.rows, [], [], by simp, by simp [hsame], by simp⟩
  · obtain ⟨target', left, right, htarget', -, hrows, hrows'⟩ := detach?_rows hdetach
    obtain rfl := Option.some.inj (htarget.symm.trans htarget')
    refine ⟨left, _, right, hrows, hrows', fun row hrow ↦ ?_⟩
    obtain ⟨inner, hinner, rfl⟩ := List.mem_map.1 hrow
    exact hdead inner hinner

theorem sublist_rows_pruned (path : Path) (node : Node κ) :
    (node.pruned path).rows.Sublist node.rows := by
  obtain ⟨left, dead, right, hrows, hrows', -⟩ := pruned_rows path node
  rw [hrows, hrows', List.append_assoc]
  exact (List.sublist_append_right ..).append_left left

/-! ### What is left of the methods -/

/-- **Detaching a node without children** removes its method, if it has one. -/
theorem detach?_entries {path : Path} {node node' : Node κ}
    (h : node.detach? false path = some node') :
    ∃ target left right, node.at? path = some target ∧
      Row.entries node.rows =
        left ++ (target.method?.map fun method ↦ (path, method)).toList ++ right ∧
      Row.entries node'.rows = left ++ right := by
  obtain ⟨target, left, right, htarget, hchildless, hrows, hrows'⟩ := detach?_rows h
  have hown : target.rows = [⟨[], target.id, target.method?⟩] := by
    rw [rows_eq, hchildless.resolve_left Bool.false_ne_true]
    rfl
  refine ⟨target, Row.entries left, Row.entries right, htarget, ?_, ?_⟩
  · rw [hrows, hown, Row.entries_append, Row.entries_append, List.map_singleton, Row.entries_cons]
    simp [Row.located?]
  · rw [hrows', Row.entries_append]

/-- **Taking a method** removes it. -/
theorem demote?_entries {path : Path} {node node' : Node κ} (h : node.demote? path = some node') :
    ∃ method left right, Row.entries node.rows = left ++ (path, method) :: right ∧
      Row.entries node'.rows = left ++ right := by
  obtain ⟨id, method, left, right, hrows, hrows'⟩ := demote?_rows h
  refine ⟨method, Row.entries left, Row.entries right, ?_, ?_⟩
  · rw [hrows, Row.entries_append, Row.entries_cons]
    rfl
  · rw [hrows', Row.entries_append, Row.entries_cons]
    rfl

/-- **Pruning removes no method.** -/
theorem entries_pruned (path : Path) (node : Node κ) :
    Row.entries (node.pruned path).rows = Row.entries node.rows := by
  obtain ⟨left, dead, right, hrows, hrows', hdead⟩ := pruned_rows path node
  rw [hrows, hrows', Row.entries_append, Row.entries_append, Row.entries_append,
    Row.entries_eq_nil_iff.2 hdead, List.append_nil]

/-! ### What pruning keeps -/

theorem sameRoot_pruned (path : Path) (node : Node κ) : SameRoot node (node.pruned path) := by
  rcases pruned_cases path node with hsame | ⟨_, _, -, -, -, hdetach⟩
  · rw [hsame]
    exact ⟨rfl, rfl, rfl⟩
  · exact sameRoot_detach? hdetach

theorem Throughout.pruned (path : Path) {node : Node κ} (h : node.Throughout (Orderly strict)) :
    (node.pruned path).Throughout (Orderly strict) := by
  rcases pruned_cases path node with hsame | ⟨_, _, -, -, -, hdetach⟩
  · rwa [hsame]
  · exact h.detach? hdetach

end OscAddressing.Node

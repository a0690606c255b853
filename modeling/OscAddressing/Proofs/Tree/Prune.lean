import OscAddressing.Proofs.Tree.Tidy

/-!
# What pruning a path removes

Pruning a path removes the longest dead end at the end of it, and nothing besides
(`exists_prunes`). The pruned tree is told by where the dead end begins, and everything that is said
of it follows: the nodes that go are without a method and lead nowhere but to each other, and no
node that stays above them is of no use (`Prunes.inUse`).

A subtree is detached by force, so it has to be seen that nothing lies in it but the dead end. Going
down from where it begins, a node can only be reached by the path itself (`DeadEnd.isPrefix`).
-/

namespace OscAddressing.Node

variable {κ : Type u} {strict : Bool}

/-! ### Parts of a tree -/

/-- **Detaching a node** leaves the rows of the nodes that are not below it. -/
theorem detach?_rows_eq_filter {force : Bool} {path : Path} {node node' : Node κ}
    (h : node.Throughout (Orderly strict)) (hdetach : node.detach? force path = some node') :
    node'.rows = node.rows.filter fun row ↦ ¬path <+: row.path := by
  obtain ⟨target, left, right, -, -, hrows, hrows'⟩ := detach?_rows hdetach
  have hkept : ∀ row ∈ left ++ right, ¬path <+: row.path := by
    intro row hrow hbelow
    obtain ⟨inner, hinner⟩ := (exists_at?_iff (h.detach? hdetach)).2 ⟨row, hrows' ▸ hrow, rfl⟩
    obtain ⟨_, hat⟩ := exists_at?_of_isPrefix hinner hbelow
    exact absurd ((at?_of_detach? h hdetach).symm.trans hat) (by simp)
  have hgone : (target.rows.map (Row.below path)).filter (fun row ↦ ¬path <+: row.path) = [] := by
    simp
  have hleft : left.filter (fun row ↦ ¬path <+: row.path) = left := by
    simpa using fun row hrow ↦ hkept row (List.mem_append_left _ hrow)
  have hright : right.filter (fun row ↦ ¬path <+: row.path) = right := by
    simpa using fun row hrow ↦ hkept row (List.mem_append_right _ hrow)
  rw [hrows, hrows', List.filter_append, List.filter_append, hgone, hleft, hright, List.append_nil]

/-- A node of a part of a tree is a node of the tree, with the same method. -/
theorem exists_at?_of_rows_subset {node node' inner' : Node κ}
    (h : node.Throughout (Orderly strict)) (h' : node'.Throughout (Orderly strict))
    (hsub : node'.rows ⊆ node.rows) {path : Path} (hinner : node'.at? path = some inner') :
    ∃ inner, node.at? path = some inner ∧ inner.method? = inner'.method? := by
  have hrow : (⟨path, inner'.id, inner'.method?⟩ : Row κ) ∈ node'.rows :=
    (mem_rows_iff h').2 ⟨inner', hinner, rfl, rfl⟩
  obtain ⟨inner, hat, -, hmethod⟩ := (mem_rows_iff h).1 (hsub hrow)
  exact ⟨inner, hat, hmethod⟩

/-- Where a part of the rows is left, told by their paths, these are the paths that still lead to
nodes. -/
theorem exists_at?_iff_of_rows_eq_filter {node node' : Node κ} (left : Path → Prop)
    [DecidablePred left] (h : node.Throughout (Orderly strict))
    (h' : node'.Throughout (Orderly strict))
    (hrows : node'.rows = node.rows.filter fun row ↦ left row.path) {path : Path} :
    (∃ inner', node'.at? path = some inner') ↔
      (∃ inner, node.at? path = some inner) ∧ left path := by
  rw [exists_at?_iff h', exists_at?_iff h, hrows]
  simp only [List.mem_filter, decide_eq_true_eq]
  constructor
  · rintro ⟨row, ⟨hrow, hleft⟩, rfl⟩
    exact ⟨⟨row, hrow, rfl⟩, hleft⟩
  · rintro ⟨⟨row, hrow, rfl⟩, hleft⟩
    exact ⟨row, ⟨hrow, hleft⟩, rfl⟩

/-- Taking a method changes nothing about where paths lead. -/
theorem exists_at?_demote?_iff {path path' : Path} {node node' : Node κ}
    (h : node.Throughout (Orderly strict)) (hdemote : node.demote? path = some node') :
    (∃ inner', node'.at? path' = some inner') ↔ ∃ inner, node.at? path' = some inner := by
  rw [exists_at?_iff (h.demote? hdemote), exists_at?_iff h]
  simp only [← List.mem_map, map_path_demote? hdemote]

/-- A node on the way to another one has children. -/
theorem children_ne_nil_of_isPrefix {path path' : Path} {node inner target : Node κ}
    (hinner : node.at? path = some inner) (htarget : node.at? path' = some target)
    (hlead : path <+: path') (hne : path ≠ path') : inner.children ≠ [] := by
  obtain ⟨_ | ⟨name, rest⟩, rfl⟩ := hlead
  · exact absurd (List.append_nil path).symm hne
  · intro hchildless
    rw [at?_append, hinner, Option.bind_some] at htarget
    simp [at?, child?, hchildless] at htarget

/-! ### Dead ends -/

/-- **A dead end leads to nothing but itself.** -/
theorem DeadEnd.isPrefix {node target : Node κ} {path path' : Path} {top : Nat}
    (h : node.DeadEnd path top) (htop : top < path.length) (htarget : node.at? path' = some target)
    (hbelow : path.take (top + 1) <+: path') : path' <+: path := by
  obtain ⟨rest, rfl⟩ := hbelow
  induction rest using List.reverseRecOn generalizing target with
  | nil =>
    rw [List.append_nil]
    exact List.take_prefix _ _
  | append_singleton rest name ih =>
    rw [← List.append_assoc] at htarget ⊢
    obtain ⟨inner, hinner⟩ := exists_at?_of_isPrefix htarget (List.prefix_append ..)
    -- The node above is one of the dead end, so all of its children are.
    have hlead := ih hinner
    have hlength := hlead.length_le
    rw [List.length_append, List.length_take] at hlength
    obtain ⟨inner', hinner', -, hchildren⟩ :=
      h (path.take (top + 1) ++ rest).length (by simp; omega) hlead.length_le
    rw [← List.prefix_iff_eq_take.1 hlead] at hinner' hchildren
    obtain rfl := Option.some.inj (hinner.symm.trans hinner')
    obtain ⟨hchild, rfl⟩ := mem_children_of_at? hinner htarget
    exact hchildren target hchild

/-- **What is below the beginning of a dead end** is the dead end. -/
theorem DeadEnd.isPrefix_iff {node target : Node κ} {path path' : Path} {top : Nat}
    (h : node.DeadEnd path top) (htop : top < path.length)
    (htarget : node.at? path' = some target) :
    path.take (top + 1) <+: path' ↔ path' <+: path ∧ top < path'.length := by
  constructor
  · intro hbelow
    have hlength := hbelow.length_le
    rw [List.length_take] at hlength
    exact ⟨h.isPrefix htop htarget hbelow, by omega⟩
  · rintro ⟨hlead, hlong⟩
    rw [List.prefix_iff_eq_take.1 hlead]
    exact List.take_prefix_take_left hlong

/-- No dead end begins above a node that is alive. -/
theorem DeadEnd.le_of_alive {node inner : Node κ} {path : Path} {top top' : Nat}
    (h : node.Throughout (Orderly strict)) (hend : node.DeadEnd path top') (hle : top ≤ path.length)
    (hinner : node.at? (path.take top) = some inner) (halive : inner.isMethod = true ∨
      (if top = path.length then 0 else 1) < inner.children.length) : top ≤ top' := by
  by_contra hlt
  obtain ⟨inner', hinner', hmethod, hchildren⟩ := hend top (Nat.lt_of_not_le hlt) hle
  obtain rfl := Option.some.inj (hinner.symm.trans hinner')
  rcases halive with hisMethod | hmany
  · rw [isMethod, hmethod] at hisMethod
    exact absurd hisMethod (by simp)
  · obtain ⟨child, hchild, hoff⟩ := exists_child_off h hle hinner hmany
    exact hoff (hchildren child hchild)

/-! ### Pruning -/

/-- **One tree is another without the longest dead end** of a path, which are the nodes beyond the
first `top`. -/
structure Prunes (path : Path) (top : Nat) (node node' : Node κ) : Prop where
  le : top ≤ path.length
  deadEnd : node.DeadEnd path top
  longest : ∀ top', node.DeadEnd path top' → top ≤ top'
  rows : node'.rows = node.rows.filter fun row ↦ ¬(row.path <+: path ∧ top < row.path.length)
  /-- As trees they differ by one node with all that is below it, if they do. -/
  detached : top = path.length ∧ node' = node ∨
    top < path.length ∧ node.detach? true (path.take (top + 1)) = some node'

/-- **Pruning a path that leads to a node** removes the longest dead end of it. -/
theorem exists_prunes {path : Path} {node target : Node κ} (h : node.Throughout (Orderly strict))
    (htarget : node.at? path = some target) : ∃ top, Prunes path top node (node.pruned path) := by
  obtain ⟨top, hle, hend, hcase, hstop⟩ := exists_top_of_pruned htarget
  refine ⟨top, hle, hend, fun top' hend' ↦ ?_, ?_, hcase⟩
  · rcases Nat.eq_zero_or_pos top with rfl | hpos
    · exact Nat.zero_le _
    · obtain ⟨inner, hinner, halive⟩ := hstop hpos
      exact hend'.le_of_alive h hle hinner halive
  · rcases hcase with ⟨rfl, hsame⟩ | ⟨htop, hdetach⟩
    · rw [hsame, List.filter_eq_self.2]
      intro row _
      rw [decide_eq_true_eq]
      exact fun ⟨hlead, hlong⟩ ↦ absurd hlead.length_le (Nat.not_le.2 hlong)
    · rw [detach?_rows_eq_filter h hdetach]
      refine List.filter_congr fun row hrow ↦ ?_
      obtain ⟨inner, hinner⟩ := (exists_at?_iff h).2 ⟨row, hrow, rfl⟩
      simp only [hend.isPrefix_iff htop hinner]

/-- **A path whose end has children** is not pruned at all. -/
theorem pruned_of_children {path : Path} {node target : Node κ}
    (h : node.Throughout (Orderly strict)) (htarget : node.at? path = some target)
    (hchildren : target.children ≠ []) : node.pruned path = node := by
  obtain ⟨top, hprunes⟩ := exists_prunes h htarget
  refine (hprunes.detached.resolve_right fun ⟨htop, _⟩ ↦ ?_).2
  obtain ⟨target', htarget', -, hends⟩ := hprunes.deadEnd path.length htop (Nat.le_refl _)
  rw [List.take_length] at htarget' hends
  obtain rfl := Option.some.inj (htarget.symm.trans htarget')
  obtain ⟨child, hchild⟩ := List.exists_mem_of_ne_nil _ hchildren
  exact not_append_singleton_isPrefix _ _ (hends child hchild)

section Prunes

variable {path : Path} {top : Nat} {node node' : Node κ}

theorem Prunes.subset (h : Prunes path top node node') : node'.rows ⊆ node.rows := by
  rw [h.rows]
  exact List.filter_subset_self _

/-- A path leads to a node after pruning, unless that was in the dead end. -/
theorem Prunes.exists_at?_iff (h : Prunes path top node node')
    (horderly : node.Throughout (Orderly strict)) (horderly' : node'.Throughout (Orderly strict))
    {path' : Path} : (∃ inner', node'.at? path' = some inner') ↔
      (∃ inner, node.at? path' = some inner) ∧ ¬(path' <+: path ∧ top < path'.length) :=
  exists_at?_iff_of_rows_eq_filter (fun path' ↦ ¬(path' <+: path ∧ top < path'.length)) horderly
    horderly' h.rows

/-- **Pruning leaves no node of the path over**: one that has no method has children. If not, the
dead end could begin one node higher. -/
theorem Prunes.inUse (h : Prunes path top node node') (horderly : node.Throughout (Orderly strict))
    (horderly' : node'.Throughout (Orderly strict)) {target : Node κ}
    (htarget : node.at? path = some target) {lead : Path} (hne : lead ≠ []) (hlead : lead <+: path)
    {inner' : Node κ} (hinner' : node'.at? lead = some inner') : inner'.InUse := by
  intro hchildless
  by_contra hnotMethod
  obtain ⟨inner, hinner, hmethod⟩ :=
    exists_at?_of_rows_subset horderly horderly' h.subset hinner'
  have hkept := ((h.exists_at?_iff horderly horderly').1 ⟨_, hinner'⟩).2
  -- What was right below the node has gone, so it was in the dead end.
  have hbelow : ∀ name child, node.at? (lead ++ [name]) = some child →
      lead ++ [name] <+: path ∧ top < (lead ++ [name]).length := by
    intro name child hat
    by_contra hstays
    obtain ⟨_, hat'⟩ := (h.exists_at?_iff horderly horderly').2 ⟨⟨child, hat⟩, hstays⟩
    have hmem := (mem_children_of_at? hinner' hat').1
    rw [hchildless] at hmem
    exact List.not_mem_nil hmem
  have htop : lead.length = top := by
    refine Nat.le_antisymm (Nat.le_of_not_lt fun hlong ↦ hkept ⟨hlead, hlong⟩) ?_
    obtain ⟨_ | ⟨name, rest⟩, rfl⟩ := hlead
    · simpa using h.le
    · have hnext : lead ++ [name] <+: lead ++ name :: rest := by simp
      obtain ⟨child, hat⟩ := exists_at?_of_isPrefix htarget hnext
      have hlong := (hbelow name child hat).2
      rw [List.length_append, List.length_singleton] at hlong
      exact Nat.le_of_lt_succ hlong
  have hend : node.DeadEnd path (top - 1) := by
    intro i hi hle
    rcases Nat.lt_or_ge top i with hlt | hge
    · exact h.deadEnd i hlt hle
    · obtain rfl : i = lead.length := by omega
      rw [← List.prefix_iff_eq_take.1 hlead]
      refine ⟨inner, hinner, ?_, fun child hchild ↦ ?_⟩
      · rw [hmethod]
        simpa [isMethod] using hnotMethod
      · exact (hbelow _ _ (horderly.at?_append_child hinner hchild)).1
  have hpos := List.length_pos_of_ne_nil hne
  have hlongest := h.longest _ hend
  omega

end Prunes

/-! ### Pruning after a node has been detached -/

section Detached

variable {parents : Path} {last : Text} {top : Nat} {root node node' : Node κ}

/-- Nothing lies below a node that can be detached without force. -/
theorem eq_of_isPrefix_of_detach? {path path' : Path} {target : Node κ}
    (hdetach : root.detach? false path = some node) (htarget : root.at? path' = some target)
    (hbelow : path <+: path') : path' = path := by
  obtain ⟨detached, -, -, hdetached, hforce, -⟩ := detach?_rows hdetach
  by_contra hne
  exact children_ne_nil_of_isPrefix hdetached htarget hbelow (Ne.symm hne)
    (hforce.resolve_left Bool.false_ne_true)

/-- **What is left of the tree** when a node has been detached and the path to it pruned: all but
the detached node and the dead end above it. -/
theorem Prunes.rows_of_detach? (h : root.Throughout (Orderly strict))
    (hdetach : root.detach? false (parents ++ [last]) = some node)
    (hprunes : Prunes parents top node node') :
    node'.rows = root.rows.filter fun row ↦
      ¬(row.path <+: parents ++ [last] ∧ top < row.path.length) := by
  rw [hprunes.rows, detach?_rows_eq_filter h hdetach, List.filter_filter]
  refine List.filter_congr fun row hrow ↦ ?_
  obtain ⟨inner, hinner⟩ := (Node.exists_at?_iff h).2 ⟨row, hrow, rfl⟩
  have hend : parents ++ [last] <+: row.path ↔ row.path = parents ++ [last] :=
    ⟨eq_of_isPrefix_of_detach? hdetach hinner, fun heq ↦ heq ▸ List.prefix_refl _⟩
  have htop : top < (parents ++ [last]).length := by
    rw [List.length_append, List.length_singleton]
    exact Nat.lt_succ_of_le hprunes.le
  rw [Bool.eq_iff_iff]
  simp only [Bool.and_eq_true, decide_eq_true_eq, hend, List.prefix_concat_iff]
  constructor
  · rintro ⟨hkept, hne⟩ ⟨heq | hlead, hlong⟩
    · exact hne heq
    · exact hkept ⟨hlead, hlong⟩
  · intro hkept
    exact ⟨fun ⟨hlead, hlong⟩ ↦ hkept ⟨.inr hlead, hlong⟩,
      fun heq ↦ hkept ⟨.inl heq, heq ▸ htop⟩⟩

/-- **Besides the detached node only such nodes go** that have no method and no child that does not
lead on to it. -/
theorem Prunes.dead_of_gone (h : root.Throughout (Orderly strict))
    (hdetach : root.detach? false (parents ++ [last]) = some node)
    (hprunes : Prunes parents top node node') (horderly' : node'.Throughout (Orderly strict))
    {path : Path} {inner : Node κ} (hinner : root.at? path = some inner)
    (hgone : node'.at? path = none) :
    path <+: parents ++ [last] ∧ (path ≠ parents ++ [last] → inner.method? = none ∧
      ∀ child ∈ inner.children, path ++ [child.name] <+: parents ++ [last]) := by
  have hnode := h.detach? hdetach
  have hdead : path <+: parents ++ [last] ∧ top < path.length := by
    by_contra hkept
    obtain ⟨_, hat⟩ := (exists_at?_iff_of_rows_eq_filter
      (fun path ↦ ¬(path <+: parents ++ [last] ∧ top < path.length)) h horderly'
      (hprunes.rows_of_detach? h hdetach)).2 ⟨⟨inner, hinner⟩, hkept⟩
    exact absurd (hgone.symm.trans hat) (by simp)
  refine ⟨hdead.1, fun hne ↦ ?_⟩
  have hlead := (List.prefix_concat_iff.1 hdead.1).resolve_left hne
  obtain ⟨inner', hinner', hmethod', hchildren'⟩ :=
    hprunes.deadEnd path.length hdead.2 hlead.length_le
  rw [← List.prefix_iff_eq_take.1 hlead] at hinner' hchildren'
  obtain ⟨_, hsame, hmethod⟩ :=
    exists_at?_of_rows_subset h hnode (sublist_rows_detach? hdetach).subset hinner'
  obtain rfl := Option.some.inj (hinner.symm.trans hsame)
  refine ⟨hmethod.trans hmethod', fun child hchild ↦ ?_⟩
  -- A child has been there after the detaching as well, unless it is what has been detached.
  have hat := h.at?_append_child hinner hchild
  by_cases hdetached : parents ++ [last] <+: path ++ [child.name]
  · exact eq_of_isPrefix_of_detach? hdetach hat hdetached ▸ List.prefix_refl _
  · obtain ⟨child', hat'⟩ := (exists_at?_iff_of_rows_eq_filter
      (fun path ↦ ¬parents ++ [last] <+: path) h hnode
      (detach?_rows_eq_filter h hdetach)).2 ⟨⟨child, hat⟩, hdetached⟩
    obtain ⟨hchild', hname⟩ := mem_children_of_at? hinner' hat'
    exact (hname ▸ hchildren' child' hchild').trans (List.prefix_append ..)

end Detached

end OscAddressing.Node

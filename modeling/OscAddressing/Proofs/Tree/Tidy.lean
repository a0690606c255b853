import OscAddressing.Proofs.Tree.Place
import OscAddressing.Proofs.Tree.Withdraw

/-!
# Trees without leftover nodes

A tree is tidy when every node below its root is on the way to a method. Said of rows (`Row.Tidy`)
this is about paths alone, and in an orderly tree it is the same as that every node without children
carries a method (`tidy_rows_iff`).

Placing a method keeps a tree tidy (`Placing.tidy`): the nodes that it creates are on the way to it.
Detaching one does not, and pruning repairs this. What has to be shown of pruning is that it goes up
far enough: `exists_top_of_pruned` says that the lowest node which it leaves on the path carries a
method, or has a child besides the one that led on. `tidy_pruned_of_detach?` reads off that no node
is left over.
-/

namespace OscAddressing

namespace Row

variable {κ : Type u}

/-- **Every row, the first apart, is on the way to a method.** -/
def Tidy (rows : List (Row κ)) : Prop :=
  ∀ row ∈ rows, row.path ≠ [] → ∃ entry ∈ entries rows, row.path <+: entry.1

end Row

namespace Node

variable {κ : Type u} {strict : Bool}

/-! ### Nodes that paths lead to -/

/-- A path does not go on along itself. -/
theorem not_append_singleton_isPrefix (path : Path) (name : Text) : ¬path ++ [name] <+: path := by
  intro h
  have hlength := h.length_le
  rw [List.length_append, List.length_singleton] at hlength
  exact Nat.not_succ_le_self _ hlength

/-- A path on the way to a node leads to a node. -/
theorem exists_at?_of_isPrefix {node target : Node κ} {path path' : Path}
    (h : node.at? path' = some target) (hlead : path <+: path') :
    ∃ inner, node.at? path = some inner := by
  obtain ⟨rest, rfl⟩ := hlead
  rw [at?_append, Option.bind_eq_some_iff] at h
  obtain ⟨inner, hinner, -⟩ := h
  exact ⟨inner, hinner⟩

theorem Throughout.at? {P : Node κ → Prop} {path : Path} {node target : Node κ}
    (h : node.Throughout P) (htarget : node.at? path = some target) : target.Throughout P := by
  induction path generalizing node with
  | nil => exact Option.some.inj htarget ▸ h
  | cons name rest ih =>
    obtain ⟨child, hchild, htarget⟩ := at?_cons_eq_some_iff.1 htarget
    exact ih ((throughout_iff.1 h).2 child (mem_of_child? hchild)) htarget

/-- A path that leads to a node leads on to its children. -/
theorem Throughout.at?_append_child {path : Path} {node inner child : Node κ}
    (h : node.Throughout (Orderly strict)) (hinner : node.at? path = some inner)
    (hchild : child ∈ inner.children) : node.at? (path ++ [child.name]) = some child := by
  rw [at?_append_singleton, hinner, Option.bind_some]
  exact ((throughout_iff.1 (h.at? hinner)).1).child?_eq_some_iff.2 ⟨hchild, rfl⟩

/-- A path leads to a node exactly when there is a row for it. -/
theorem exists_at?_iff {node : Node κ} (h : node.Throughout (Orderly strict)) {path : Path} :
    (∃ target, node.at? path = some target) ↔ ∃ row ∈ node.rows, row.path = path := by
  constructor
  · rintro ⟨target, htarget⟩
    exact ⟨⟨path, target.id, target.method?⟩, (mem_rows_iff h).2 ⟨target, htarget, rfl, rfl⟩, rfl⟩
  · rintro ⟨row, hrow, rfl⟩
    obtain ⟨target, htarget, -⟩ := (mem_rows_iff h).1 hrow
    exact ⟨target, htarget⟩

theorem mem_map_fst_descendants_iff {node : Node κ} (h : node.Throughout (Orderly strict))
    {path : Path} : path ∈ node.descendants.map Prod.fst ↔
      path ≠ [] ∧ ∃ target, node.at? path = some target := by
  simp only [List.mem_map, Prod.exists, exists_and_right, exists_eq_right, mem_descendants_iff h,
    descendant?, List.isEmpty_iff]
  cases path <;> simp

/-- **A walk meets every node on the way to a method.** -/
theorem mem_map_fst_descendants_of_isPrefix {node : Node κ} (h : node.Throughout (Orderly strict))
    {entry : Path × Method κ} (hentry : entry ∈ node.methods) {path : Path} (hpath : path ≠ [])
    (hlead : path <+: entry.1) : path ∈ node.descendants.map Prod.fst := by
  obtain ⟨target, htarget, -⟩ := (mem_methods_iff h).1 hentry
  have hentryPath := path_ne_nil_of_mem_methods hentry
  rw [descendant?, if_neg (by simpa using hentryPath)] at htarget
  exact (mem_map_fst_descendants_iff h).2 ⟨hpath, exists_at?_of_isPrefix htarget hlead⟩

/-- **There is nothing left at the path of a detached node.** -/
theorem at?_of_detach? {force : Bool} {path : Path} {node node' : Node κ}
    (h : node.Throughout (Orderly strict)) (hdetach : node.detach? force path = some node') :
    node'.at? path = none := by
  by_contra hsome
  obtain ⟨row, hrow, hpath⟩ := (exists_at?_iff (h.detach? hdetach)).1
    (Option.ne_none_iff_exists'.1 hsome)
  obtain ⟨target, left, right, -, -, hrows, hrows'⟩ := detach?_rows hdetach
  -- The path would have been met twice before.
  have hnodup := nodup_paths h
  rw [hrows, rows_eq, List.map_cons, List.append_assoc, List.cons_append, List.map_append,
    List.map_cons, List.nodup_middle, List.nodup_cons, List.map_append] at hnodup
  refine hnodup.1 ?_
  rw [hrows'] at hrow
  rw [Row.path_below, List.append_nil, List.mem_append, List.mem_append]
  rcases List.mem_append.1 hrow with hrow | hrow
  · exact .inl (hpath ▸ List.mem_map_of_mem hrow)
  · exact .inr (.inr (hpath ▸ List.mem_map_of_mem hrow))

/-! ### Tidy trees -/

/-- The node has a method, or leads on to children. -/
def InUse (node : Node κ) : Prop := node.children = [] → node.isMethod = true

/-- A method in the branch of a child is a method among all rows. -/
theorem mem_entries_rows_of_mem_children {node child : Node κ} (hchild : child ∈ node.children)
    {entry : Path × Method κ} (hentry : entry ∈ Row.entries child.rows) :
    (child.name :: entry.1, entry.2) ∈ Row.entries node.rows := by
  obtain ⟨row, hrow, hpath, hmethod⟩ := Row.mem_entries_iff.1 hentry
  refine Row.mem_entries_iff.2 ⟨row.below [child.name], ?_, by simp [hpath], hmethod⟩
  rw [rows_eq, List.mem_cons, List.mem_flatMap]
  exact .inr ⟨child, hchild, mem_branch_iff.2 ⟨row, hrow, rfl⟩⟩

/-- **Where every node is in use,** every node is on the way to a method. -/
theorem Throughout.exists_entry {node : Node κ} (h : node.Throughout InUse) :
    ∀ row ∈ node.rows, ∃ entry ∈ Row.entries node.rows, row.path <+: entry.1 := by
  induction node using inductionOn with
  | step node ih =>
    obtain ⟨hinUse, hchildren⟩ := throughout_iff.1 h
    intro row hrow
    rw [rows_eq, List.mem_cons, List.mem_flatMap] at hrow
    obtain rfl | ⟨child, hchild, hrow⟩ := hrow
    · cases hcases : node.children with
      | nil =>
        obtain ⟨method, hmethod⟩ := Option.isSome_iff_exists.1 (hinUse hcases)
        refine ⟨([], method), ?_, List.nil_prefix⟩
        rw [entries_rows, hmethod]
        simp
      | cons child rest =>
        have hchild : child ∈ node.children := hcases ▸ List.mem_cons_self ..
        obtain ⟨entry, hentry, -⟩ := ih child hchild (hchildren child hchild)
          ⟨[], child.id, child.method?⟩ (by rw [rows_eq]; exact List.mem_cons_self ..)
        exact ⟨_, mem_entries_rows_of_mem_children hchild hentry, List.nil_prefix⟩
    · obtain ⟨inner, hinner, rfl⟩ := mem_branch_iff.1 hrow
      obtain ⟨entry, hentry, hlead⟩ := ih child hchild (hchildren child hchild) inner hinner
      exact ⟨_, mem_entries_rows_of_mem_children hchild hentry,
        List.cons_prefix_cons.2 ⟨rfl, hlead⟩⟩

/-- **A tree is tidy when every node below its root is in use.** -/
theorem tidy_rows_iff {node : Node κ} (h : node.Throughout (Orderly strict)) :
    Row.Tidy node.rows ↔ ∀ entry ∈ node.descendants, entry.2.InUse := by
  constructor
  · intro htidy entry hentry hchildless
    have htarget := (mem_descendants_iff h).1 hentry
    rw [descendant?] at htarget
    split at htarget
    case isTrue => simp at htarget
    case isFalse hpath =>
      obtain ⟨⟨path, method⟩, hmem, rest, rfl⟩ := htidy ⟨entry.1, entry.2.id, entry.2.method?⟩
        ((mem_rows_iff h).2 ⟨entry.2, htarget, rfl, rfl⟩) (by simpa using hpath)
      obtain ⟨row, hrow, hrowPath, hmethod⟩ := Row.mem_entries_iff.1 hmem
      obtain ⟨target, hat, -, hsame⟩ := (mem_rows_iff h).1 hrow
      rw [hrowPath, at?_append, htarget, Option.bind_some] at hat
      -- The node has no children, so a path that leads on from it has nothing to lead to.
      cases rest with
      | nil =>
        obtain rfl := Option.some.inj hat
        exact Option.isSome_iff_exists.2 ⟨method, hsame.trans hmethod⟩
      | cons name rest => simp [at?, child?, hchildless] at hat
  · intro hinUse row hrow hpath
    rw [rows_eq, List.mem_cons, List.mem_flatMap] at hrow
    obtain rfl | ⟨child, hchild, hrow⟩ := hrow
    · exact absurd rfl hpath
    obtain ⟨inner, hinner, rfl⟩ := mem_branch_iff.1 hrow
    have hall : node.descendants.map Prod.snd = node.children.flatMap all :=
      (List.cons.inj (all_eq node)).2
    have hthroughout : child.Throughout InUse := by
      intro other hother
      have hmem := List.mem_flatMap.2 ⟨child, hchild, hother⟩
      rw [← hall] at hmem
      obtain ⟨entry, hentry, rfl⟩ := List.mem_map.1 hmem
      exact hinUse entry hentry
    obtain ⟨entry, hentry, hlead⟩ := hthroughout.exists_entry inner hinner
    exact ⟨_, mem_entries_rows_of_mem_children hchild hentry,
      List.cons_prefix_cons.2 ⟨rfl, hlead⟩⟩

/-! ### Placing -/

/-- The nodes that are created for a path are on the way to its end. -/
theorem isPrefix_of_mem_freshRows {method : Method κ} {serial : Nat} {path : Path} {row : Row κ}
    (h : row ∈ freshRows method serial path) : row.path <+: path := by
  induction path generalizing serial row with
  | nil =>
    obtain rfl := List.mem_singleton.1 h
    exact List.nil_prefix
  | cons name rest ih =>
    rw [freshRows, List.mem_cons, List.mem_map] at h
    obtain rfl | ⟨inner, hinner, rfl⟩ := h
    · exact List.nil_prefix
    · exact List.cons_prefix_cons.2 ⟨rfl, ih hinner⟩

section Placing

variable {replace : Bool} {method : Method κ} {serial limit : Nat} {path : Path}
  {before after : List (Row κ)} {answer : MethodId}

/-- After a placing there is a method at the path. -/
theorem Placing.mem_map_fst_entries
    (h : Placing replace method serial limit path before answer after) :
    path ∈ (Row.entries after).map Prod.fst := by
  rcases h.entries with ⟨left, right, -, hafter, -⟩ | ⟨-, left, old, right, -, hafter, -⟩ |
    ⟨-, hafter, present, hpresent, -⟩
  · simp [hafter]
  · simp [hafter]
  · exact hafter ▸ List.mem_map_of_mem hpresent

/-- Where there was a method before a placing, there is one after it. -/
theorem Placing.map_fst_entries_subset
    (h : Placing replace method serial limit path before answer after) :
    (Row.entries before).map Prod.fst ⊆ (Row.entries after).map Prod.fst := by
  rcases h.entries with ⟨left, right, hbefore, hafter, -⟩ |
    ⟨-, left, old, right, hbefore, hafter, -⟩ | ⟨-, hafter, -⟩
  · rw [hbefore, hafter]
    simp
  · rw [hbefore, hafter]
    simp
  · rw [hafter]
    exact List.Subset.refl _

/-- A row after a placing was there before, as far as its path goes, or is on the way to the path.
-/
theorem Placing.isPrefix_or_mem
    (h : Placing replace method serial limit path before answer after) {row : Row κ}
    (hrow : row ∈ after) : row.path <+: path ∨ ∃ old ∈ before, old.path = row.path := by
  have hmiddle : ∀ {left right : List (Row κ)} {new old : Row κ}, row ∈ left ++ new :: right →
      new.path = path →
        row.path <+: path ∨ ∃ other ∈ left ++ old :: right, other.path = row.path := by
    intro left right new old hmem hpath
    rcases List.mem_append.1 hmem with hmem | hmem
    · exact .inr ⟨row, List.mem_append_left _ hmem, rfl⟩
    · obtain rfl | hmem := List.mem_cons.1 hmem
      · exact .inl (hpath ▸ List.prefix_refl _)
      · exact .inr ⟨row, List.mem_append_right _ (List.mem_cons_of_mem _ hmem), rfl⟩
  cases h with
  | created left right done todo number hpath hserial hlimit =>
    rw [List.mem_append, List.mem_append, List.mem_map] at hrow
    rcases hrow with (hrow | ⟨inner, hinner, rfl⟩) | hrow
    · exact .inr ⟨row, List.mem_append_left _ hrow, rfl⟩
    · rw [hpath]
      exact .inl ((List.prefix_append_right_inj done).2 (isPrefix_of_mem_freshRows hinner))
    · exact .inr ⟨row, List.mem_append_right _ hrow, rfl⟩
  | replaced left right id method? number hreplace hserial hlimit => exact hmiddle hrow rfl
  | attached left right id hreplace => exact hmiddle hrow rfl
  | kept left right id present hreplace => exact .inr ⟨row, hrow, rfl⟩

/-- **Placing a method leaves no node over.** -/
theorem Placing.tidy (h : Placing replace method serial limit path before answer after)
    (htidy : Row.Tidy before) : Row.Tidy after := by
  intro row hrow hpath
  have hentry : ∃ end' ∈ (Row.entries after).map Prod.fst, row.path <+: end' := by
    rcases h.isPrefix_or_mem hrow with hlead | ⟨old, hold, heq⟩
    · exact ⟨path, h.mem_map_fst_entries, hlead⟩
    · obtain ⟨entry, hentry, hlead⟩ := htidy old hold (heq ▸ hpath)
      exact ⟨entry.1, h.map_fst_entries_subset (List.mem_map_of_mem hentry), heq ▸ hlead⟩
  obtain ⟨_, hmem, hlead⟩ := hentry
  obtain ⟨entry, hentry, rfl⟩ := List.mem_map.1 hmem
  exact ⟨entry, hentry, hlead⟩

end Placing

/-! ### Taking a method -/

/-- In a tidy tree there is a method below every child. -/
theorem exists_entry_below {path : Path} {root target child : Node κ}
    (h : root.Throughout (Orderly strict)) (htidy : Row.Tidy root.rows)
    (htarget : root.at? path = some target) (hchild : child ∈ target.children) :
    ∃ entry ∈ Row.entries root.rows, path ++ [child.name] <+: entry.1 := by
  obtain ⟨row, hrow, hpath⟩ := (exists_at?_iff h).1 ⟨child, h.at?_append_child htarget hchild⟩
  rw [← hpath]
  exact htidy row hrow (by simp [hpath])

/-- **Taking the method of a node with children leaves no node over**: the children lead to another.
-/
theorem tidy_demote? {path : Path} {root root' target : Node κ}
    (h : root.Throughout (Orderly strict)) (htidy : Row.Tidy root.rows)
    (hdemote : root.demote? path = some root') (htarget : root.at? path = some target)
    (hchildren : target.children ≠ []) : Row.Tidy root'.rows := by
  obtain ⟨method, left, right, hentries, hentries'⟩ := demote?_entries hdemote
  have hother : ∀ entry ∈ Row.entries root.rows, entry.1 ≠ path →
      entry ∈ Row.entries root'.rows := by
    intro entry hentry hne
    rw [hentries, List.perm_middle.mem_iff, List.mem_cons] at hentry
    rw [hentries']
    exact hentry.resolve_left fun heq ↦ hne (heq ▸ rfl)
  obtain ⟨child, hchild⟩ := List.exists_mem_of_ne_nil _ hchildren
  obtain ⟨entry', hentry', hlead'⟩ := exists_entry_below h htidy htarget hchild
  intro row hrow hpath
  have hold := List.mem_map_of_mem (f := Row.path) hrow
  rw [map_path_demote? hdemote] at hold
  obtain ⟨old, hold, heq⟩ := List.mem_map.1 hold
  obtain ⟨entry, hentry, hlead⟩ := htidy old hold (heq ▸ hpath)
  rw [heq] at hlead
  by_cases hsame : entry.1 = path
  · -- The row led to the method that has been taken, and so leads on to the children.
    refine ⟨entry', hother entry' hentry' fun hsame' ↦ ?_,
      (hsame ▸ hlead).trans ((List.prefix_append ..).trans hlead')⟩
    exact not_append_singleton_isPrefix _ _ (hsame' ▸ hlead')
  · exact ⟨entry, hother entry hentry hsame, hlead⟩

/-! ### Pruning -/

/-- Where no two children share a name, one of several has another than a given one. -/
theorem Orderly.exists_child_ne {node : Node κ} (h : node.Orderly strict)
    (hmany : 1 < node.children.length) (name : Text) :
    ∃ child ∈ node.children, child.name ≠ name := by
  by_contra hnone
  have hall : ∀ child ∈ node.children, child.name = name := by simpa using hnone
  have hnames : node.children.map Node.name = List.replicate node.children.length name :=
    List.map_eq_replicate_iff.2 hall
  have hdistinct := h.distinct
  rw [hnames, List.nodup_replicate] at hdistinct
  omega

/-- A node on a path with more children than lead on along it has one that leads elsewhere. -/
theorem exists_child_off {path : Path} {node inner : Node κ} (h : node.Throughout (Orderly strict))
    {top : Nat} (hle : top ≤ path.length) (hinner : node.at? (path.take top) = some inner)
    (hmany : (if top = path.length then 0 else 1) < inner.children.length) :
    ∃ child ∈ inner.children, ¬path.take top ++ [child.name] <+: path := by
  split at hmany
  case isTrue hwhole =>
    obtain ⟨child, hchild⟩ := List.exists_mem_of_length_pos hmany
    refine ⟨child, hchild, fun hlead ↦ ?_⟩
    rw [hwhole, List.take_length] at hlead
    exact not_append_singleton_isPrefix _ _ hlead
  case isFalse hpart =>
    have hlt : top < path.length := Nat.lt_of_le_of_ne hle hpart
    have horderly := (throughout_iff.1 (h.at? hinner)).1
    obtain ⟨child, hchild, hne⟩ := horderly.exists_child_ne hmany path[top]
    refine ⟨child, hchild, fun hlead ↦ hne ?_⟩
    have hget := hlead.getElem (i := top) (by simp; omega)
    simpa [List.getElem_append, Nat.min_eq_left hle] using hget

/-- **Pruning a tidy tree leaves it tidy**, since it removes no method. -/
theorem tidy_pruned {node : Node κ} (h : Row.Tidy node.rows) (path : Path) :
    Row.Tidy (node.pruned path).rows := by
  intro row hrow hpath
  rw [entries_pruned]
  exact h row ((sublist_rows_pruned path node).subset hrow) hpath

section Detached

variable {parents : Path} {last : Text} {root root' : Node κ}

/-- What is not on the way to a detached node leads to the methods that it led to before. -/
theorem exists_entry_of_detach? (htidy : Row.Tidy root.rows) {path : Path}
    (hdetach : root.detach? false path = some root') {row : Row κ} (hrow : row ∈ root'.rows)
    (hbeside : ¬row.path <+: path) : ∃ entry ∈ Row.entries root'.rows, row.path <+: entry.1 := by
  obtain ⟨target, left, right, -, hentries, hentries'⟩ := detach?_entries hdetach
  have hold : row ∈ root.rows := (sublist_rows_detach? hdetach).subset hrow
  obtain ⟨entry, hentry, hlead⟩ := htidy row hold fun hnil ↦ hbeside (hnil ▸ List.nil_prefix)
  refine ⟨entry, ?_, hlead⟩
  rw [hentries, List.mem_append, List.mem_append] at hentry
  rw [hentries', List.mem_append]
  rcases hentry with (hleft | hdetached) | hright
  · exact .inl hleft
  · rw [Option.mem_toList, Option.map_eq_some_iff] at hdetached
    obtain ⟨method, -, rfl⟩ := hdetached
    exact absurd hlead hbeside
  · exact .inr hright

/-- **A node that is alive leads to a method**, when it has one or leads on to something that is not
on the way to what has been detached. -/
theorem exists_entry_of_alive (h : root.Throughout (Orderly strict)) (htidy : Row.Tidy root.rows)
    {path : Path} (hdetach : root.detach? false path = some root') {lead : Path} {inner : Node κ}
    (hinner : root'.at? lead = some inner) (halive : inner.isMethod = true ∨
      ∃ child ∈ inner.children, ¬lead ++ [child.name] <+: path) :
    ∃ entry ∈ Row.entries root'.rows, lead <+: entry.1 := by
  have h' := h.detach? hdetach
  rcases halive with hmethod | ⟨child, hchild, hbeside⟩
  · obtain ⟨method, hmethod⟩ := Option.isSome_iff_exists.1 hmethod
    refine ⟨(lead, method), Row.mem_entries_iff.2 ⟨⟨lead, inner.id, some method⟩, ?_, rfl, rfl⟩,
      List.prefix_refl _⟩
    exact (mem_rows_iff h').2 ⟨inner, hinner, rfl, hmethod⟩
  · obtain ⟨row, hrow, hpath⟩ :=
      (exists_at?_iff h').1 ⟨child, h'.at?_append_child hinner hchild⟩
    obtain ⟨entry, hentry, hlead⟩ :=
      exists_entry_of_detach? htidy hdetach hrow (hpath.symm ▸ hbeside)
    exact ⟨entry, hentry, (List.prefix_append ..).trans (hpath ▸ hlead)⟩

/-- A node on the path with more children than lead to the detached node has one that leads
elsewhere. -/
theorem exists_child_besides (h : root'.Throughout (Orderly strict))
    (hgone : root'.at? (parents ++ [last]) = none) {top : Nat} (hle : top ≤ parents.length)
    {inner : Node κ} (hinner : root'.at? (parents.take top) = some inner)
    (hmany : (if top = parents.length then 0 else 1) < inner.children.length) :
    ∃ child ∈ inner.children, ¬parents.take top ++ [child.name] <+: parents ++ [last] := by
  obtain ⟨child, hchild, hoff⟩ := exists_child_off h hle hinner hmany
  refine ⟨child, hchild, fun hlead ↦ ?_⟩
  rcases List.prefix_concat_iff.1 hlead with heq | hparents
  · -- The detached node was a child of this one, and is none any more.
    rw [← heq, h.at?_append_child hinner hchild] at hgone
    exact absurd hgone (by simp)
  · exact hoff hparents

/-- The parent of a detached node stays. -/
theorem exists_at?_of_detach? {force : Bool} (h : root'.Throughout (Orderly strict))
    (hdetach : root.detach? force (parents ++ [last]) = some root') :
    ∃ parent, root'.at? parents = some parent := by
  obtain ⟨_, parent, left, right, -, -, -, hrows⟩ := alterAt?_rows
    (fun _ _ h ↦ (sameRoot_of_without? h).name) (detach?_append_singleton ▸ hdetach)
  refine (exists_at?_iff h).2 ⟨⟨parents, parent.id, parent.method?⟩, ?_, rfl⟩
  rw [hrows, rows_eq parent]
  simp [Row.below]

/-- What is left of a path when it is pruned does not go on below what pruning detaches. -/
theorem isPrefix_take_of_detach? {path : Path} {pruned : Node κ}
    (h : root.Throughout (Orderly strict)) {top : Nat}
    (hdetach : root.detach? true (path.take (top + 1)) = some pruned) {row : Row κ}
    (hrow : row ∈ pruned.rows) (hlead : row.path <+: path) : row.path <+: path.take top := by
  have htop : row.path.length ≤ top := by
    by_contra hlong
    obtain ⟨inner, hinner⟩ := (exists_at?_iff (h.detach? hdetach)).2 ⟨row, hrow, rfl⟩
    have hbelow : path.take (top + 1) <+: row.path := by
      rw [List.prefix_iff_eq_take.1 hlead]
      exact List.take_prefix_take_left (by omega)
    obtain ⟨_, hat⟩ := exists_at?_of_isPrefix hinner hbelow
    exact absurd ((at?_of_detach? h hdetach).symm.trans hat) (by simp)
  rw [List.prefix_iff_eq_take.1 hlead]
  exact List.take_prefix_take_left htop

/-- **Detaching a method and pruning above it leaves no node over.** -/
theorem tidy_pruned_of_detach? (h : root.Throughout (Orderly strict)) (htidy : Row.Tidy root.rows)
    (hdetach : root.detach? false (parents ++ [last]) = some root') :
    Row.Tidy (root'.pruned parents).rows := by
  have h' := h.detach? hdetach
  have hgone := at?_of_detach? h hdetach
  intro row hrow hpath
  have hold : row ∈ root'.rows := (sublist_rows_pruned parents root').subset hrow
  rw [entries_pruned]
  by_cases hlead : row.path <+: parents ++ [last]
  case neg => exact exists_entry_of_detach? htidy hdetach hold hlead
  -- The row is on the path, and above its end, where there is nothing any more.
  have hparents : row.path <+: parents := by
    refine (List.prefix_concat_iff.1 hlead).resolve_left fun heq ↦ ?_
    obtain ⟨target, htarget⟩ := (exists_at?_iff h').2 ⟨row, hold, heq⟩
    exact absurd (hgone.symm.trans htarget) (by simp)
  obtain ⟨parent, hparent⟩ := exists_at?_of_detach? h' hdetach
  obtain ⟨top, hle, -, hcase, hstop⟩ := exists_top_of_pruned hparent
  have hrowTop : row.path <+: parents.take top := by
    rcases hcase with ⟨rfl, -⟩ | ⟨-, hpruned⟩
    · rwa [List.take_length]
    · exact isPrefix_take_of_detach? h' hpruned hrow hparents
  have hpos : 0 < top := by
    have hlength := hrowTop.length_le
    rw [List.length_take] at hlength
    exact Nat.lt_of_lt_of_le (List.length_pos_of_ne_nil hpath) (hlength.trans (Nat.min_le_left ..))
  -- So it leads to the lowest node that pruning leaves on the path, which is alive.
  obtain ⟨inner, hinner, halive⟩ := hstop hpos
  obtain ⟨entry, hentry, hentryLead⟩ := exists_entry_of_alive h htidy hdetach hinner
    (halive.imp_right (exists_child_besides h' hgone hle hinner))
  exact ⟨entry, hentry, hrowTop.trans hentryLead⟩

end Detached

end Node

end OscAddressing

import OscAddressing.Proofs.Tree.Edit

/-!
# Placing a method

`Placing` lists everything that placing a method can do to the rows of a tree, with the answer that
goes with it: a method is given to new nodes, to a node that replaces another one, or to a node that
had none, or the method that is there is kept. `placing_place` says that there is nothing else, and
every fact about a registration is read off this list.

The rows before and after the changed one are the same in every case; so nothing that is registered
elsewhere is lost, and nothing changes its place.
-/

namespace OscAddressing.Node

variable {κ : Type u} {strict : Bool}

/-- The rows of nodes that are created for a path: one for the node itself, which gets the number
`serial`, and one for each name. The last carries the method. -/
def freshRows (method : Method κ) : Nat → Path → List (Row κ)
  | serial, [] => [⟨[], ⟨serial⟩, some method⟩]
  | serial, name :: rest =>
    ⟨[], ⟨serial⟩, none⟩ :: (freshRows method (serial + 1) rest).map (Row.below [name])

/-- The ways of placing a method at a path: the rows before, the answer, and the rows after. New
nodes have numbers from `serial` on that are less than `limit`. -/
inductive Placing (replace : Bool) (method : Method κ) (serial limit : Nat) (path : Path) :
    List (Row κ) → MethodId → List (Row κ) → Prop
  /-- The path has led as far as `done`; the nodes for the rest of it are created. -/
  | created (left right : List (Row κ)) (done todo : Path) (number : Nat) :
      path = done ++ todo → serial ≤ number → number + todo.length < limit →
        Placing replace method serial limit path (left ++ right) method.id
          (left ++ (freshRows method number todo).map (Row.below done) ++ right)
  /-- A new node takes the place of the one at the path, be it with or without a method. -/
  | replaced (left right : List (Row κ)) (id : NodeId) (method? : Option (Method κ))
      (number : Nat) :
      replace = true → serial ≤ number → number < limit →
        Placing replace method serial limit path (left ++ ⟨path, id, method?⟩ :: right) method.id
          (left ++ ⟨path, ⟨number⟩, some method⟩ :: right)
  /-- The node at the path had no method and now has the placed one. -/
  | attached (left right : List (Row κ)) (id : NodeId) :
      replace = false →
        Placing replace method serial limit path (left ++ ⟨path, id, none⟩ :: right) method.id
          (left ++ ⟨path, id, some method⟩ :: right)
  /-- The node at the path has a method, and keeps it. -/
  | kept (left right : List (Row κ)) (id : NodeId) (present : Method κ) :
      replace = false →
        Placing replace method serial limit path (left ++ ⟨path, id, some present⟩ :: right)
          present.id (left ++ ⟨path, id, some present⟩ :: right)

variable {replace : Bool} {method : Method κ} {serial limit : Nat}

/-- **What is placed below a child is placed below its parent.** -/
theorem Placing.lift {name : Text} {rest : Path} {before after : List (Row κ)}
    {answer : MethodId} (h : Placing replace method serial limit rest before answer after)
    (left right : List (Row κ)) :
    Placing replace method serial limit (name :: rest)
      (left ++ before.map (Row.below [name]) ++ right) answer
      (left ++ after.map (Row.below [name]) ++ right) := by
  have hmap : ∀ (row : Row κ) (rows rows' : List (Row κ)),
      left ++ (rows ++ row :: rows').map (Row.below [name]) ++ right =
        (left ++ rows.map (Row.below [name])) ++
          row.below [name] :: (rows'.map (Row.below [name]) ++ right) := by
    intro row rows rows'
    simp
  cases h with
  | created left' right' done todo number hpath hserial hlimit =>
    have hcreated : Placing replace method serial limit (name :: rest) _ _ _ :=
      .created (left ++ left'.map (Row.below [name])) (right'.map (Row.below [name]) ++ right)
        (name :: done) todo number (congrArg (name :: ·) hpath) hserial hlimit
    simpa [Row.below_below, Function.comp_def] using hcreated
  | replaced left' right' id method? number hreplace hserial hlimit =>
    rw [hmap, hmap]
    exact .replaced _ _ id method? number hreplace hserial hlimit
  | attached left' right' id hreplace =>
    rw [hmap, hmap]
    exact .attached _ _ id hreplace
  | kept left' right' id present hreplace =>
    rw [hmap]
    exact .kept _ _ id present hreplace

/-! ### Growing a path -/

/-- **Where there is no node yet, all nodes of the rest of the path are created.** -/
theorem grown_none (replace : Bool) (method : Method κ) (path : Path) (serial : Nat)
    (name : Text) :
    (grown replace method path serial name none).1 = method.id ∧
      (grown replace method path serial name none).2.name = name ∧
      (grown replace method path serial name none).2.rows = freshRows method serial path := by
  induction path generalizing serial name with
  | nil => exact ⟨rfl, rfl, rfl⟩
  | cons next rest ih =>
    obtain ⟨hanswer, hname, hrows⟩ := ih (serial + 1) next
    have hnone : (bare ⟨serial⟩ name : Node κ).child? next = none := rfl
    rw [grown, Option.getD_none, hnone]
    refine ⟨hanswer, rfl, ?_⟩
    rw [rows_putChild_of_none hnone, branch, hname, hrows]
    rfl

/-- The node at the end of the path settles in one of the three ways. -/
theorem placing_settled (present : Node κ) {number : Nat} (hserial : serial ≤ number)
    (hlimit : number < limit) :
    Placing replace method serial limit [] present.rows
      (settled replace method ⟨number⟩ present.name (some present)).1
      (settled replace method ⟨number⟩ present.name (some present)).2.rows := by
  rw [rows_eq present, settled]
  cases hreplace : replace with
  | true =>
    rw [if_pos rfl, rows_eq]
    exact .replaced [] _ present.id present.method? number rfl hserial hlimit
  | false =>
    rw [if_neg Bool.false_ne_true, methodId?]
    cases hmethod : present.method? with
    | none =>
      rw [Option.map_none, rows_eq]
      exact .attached [] _ present.id rfl
    | some current =>
      rw [Option.map_some, rows_eq, hmethod]
      exact .kept [] _ present.id current rfl

theorem name_settled {replace : Bool} {method : Method κ} {id : NodeId} (present : Node κ) :
    (settled replace method id present.name (some present)).2.name = present.name := by
  rw [settled]
  split
  · rfl
  · split <;> rfl

/-- **Below a node, along a name:** what is placed at the rest of the path, below the child of the
name or as a new child, is placed at the path. -/
theorem placing_putChild {node : Node κ} {name : Text} {rest : Path} {number : Nat}
    (hserial : serial ≤ number) (hlimit : number + rest.length < limit)
    (hpresent : ∀ child, node.child? name = some child →
      Placing replace method serial limit rest child.rows
          (grown replace method rest number name (some child)).1
          (grown replace method rest number name (some child)).2.rows ∧
        (grown replace method rest number name (some child)).2.name = name) :
    Placing replace method serial limit (name :: rest) node.rows
      (grown replace method rest number name (node.child? name)).1
      (node.putChild name (grown replace method rest number name (node.child? name)).2).rows := by
  cases hchild : node.child? name with
  | none =>
    obtain ⟨hanswer, hname, hrows⟩ := grown_none replace method rest number name
    rw [hanswer, rows_putChild_of_none hchild, branch, hname, hrows]
    -- The path has led as far as the name of the new child.
    have hcreated : Placing replace method serial limit (name :: rest) _ _ _ :=
      .created node.rows [] [name] rest number rfl hserial hlimit
    simpa using hcreated
  | some child =>
    obtain ⟨hplacing, hname⟩ := hpresent child hchild
    obtain ⟨left, right, hsplit, hput, -⟩ := exists_rows_of_child? hchild
    rw [hput, hsplit, branch, branch, hname, name_of_child? hchild]
    exact hplacing.lift left right

/-- **Below a node that is there,** placing does one of the things listed. -/
theorem placing_grown (replace : Bool) (method : Method κ) (path : Path) (present : Node κ)
    {number : Nat} (hserial : serial ≤ number) (hlimit : number + path.length < limit) :
    Placing replace method serial limit path present.rows
        (grown replace method path number present.name (some present)).1
        (grown replace method path number present.name (some present)).2.rows ∧
      (grown replace method path number present.name (some present)).2.name = present.name := by
  induction path generalizing present number with
  | nil => exact ⟨placing_settled present hserial hlimit, name_settled present⟩
  | cons next rest ih =>
    rw [List.length_cons] at hlimit
    rw [grown, Option.getD_some]
    refine ⟨placing_putChild (by omega) (by omega) fun child hchild ↦ ?_, rfl⟩
    obtain rfl := name_of_child? hchild
    exact ih child (by omega) (by omega)

/-- **What placing a method does.** A path has at least one name. -/
theorem placing_place {path : Path} (hpath : path ≠ []) (root : Node κ) (serial : Nat) :
    Placing replace method serial (serial + path.length) path root.rows
      (root.place replace method serial path).1 (root.place replace method serial path).2.rows := by
  cases path with
  | nil => exact absurd rfl hpath
  | cons name rest =>
    have hlimit : serial + rest.length < serial + (name :: rest).length := by simp
    rw [place]
    refine placing_putChild (Nat.le_refl serial) hlimit fun child hchild ↦ ?_
    obtain rfl := name_of_child? hchild
    exact placing_grown replace method rest child (Nat.le_refl serial) hlimit

/-! ### What a placing does to methods and identities -/

theorem entries_freshRows (method : Method κ) (serial : Nat) (path : Path) :
    Row.entries (freshRows method serial path) = [(path, method)] := by
  induction path generalizing serial with
  | nil => rfl
  | cons name rest ih =>
    rw [freshRows, Row.entries_cons, Row.entries_map_below, ih]
    rfl

theorem ids_freshRows (method : Method κ) (serial : Nat) (path : Path) :
    (freshRows method serial path).map Row.id =
      (List.range' serial (path.length + 1)).map NodeId.mk := by
  induction path generalizing serial with
  | nil => rfl
  | cons name rest ih =>
    have hbelow : ∀ rows : List (Row κ),
        (rows.map (Row.below [name])).map Row.id = rows.map Row.id := by
      intro rows
      simp [Function.comp_def]
    rw [freshRows, List.map_cons, hbelow, ih, List.length_cons]
    rfl

/-- **What placing does to the list of methods**: the placed method is a new entry, or takes the
place of the entry of its path, or the list stays as it is and the answer is the entry of the path.
-/
theorem Placing.entries {path : Path} {before after : List (Row κ)} {answer : MethodId}
    (h : Placing replace method serial limit path before answer after) :
    (∃ left right, Row.entries before = left ++ right ∧
      Row.entries after = left ++ (path, method) :: right ∧ answer = method.id) ∨
    (replace = true ∧ ∃ left old right, Row.entries before = left ++ (path, old) :: right ∧
      Row.entries after = left ++ (path, method) :: right ∧ answer = method.id) ∨
    (replace = false ∧ Row.entries after = Row.entries before ∧
      ∃ present, (path, present) ∈ Row.entries before ∧ present.id = answer) := by
  have hmiddle : ∀ (left right : List (Row κ)) (row : Row κ),
      Row.entries (left ++ row :: right) =
        Row.entries left ++ (row.located?.toList ++ Row.entries right) := by
    intro left right row
    rw [Row.entries_append, Row.entries_cons]
  cases h with
  | created left right done todo number hpath hserial hlimit =>
    refine .inl ⟨Row.entries left, Row.entries right, Row.entries_append .., ?_, rfl⟩
    rw [Row.entries_append, Row.entries_append, Row.entries_map_below, entries_freshRows, hpath]
    simp
  | replaced left right id method? number hreplace hserial hlimit =>
    rw [hmiddle, hmiddle]
    cases method? with
    | none => exact .inl ⟨_, _, rfl, rfl, rfl⟩
    | some old => exact .inr (.inl ⟨hreplace, _, old, _, rfl, rfl, rfl⟩)
  | attached left right id hreplace =>
    rw [hmiddle, hmiddle]
    exact .inl ⟨_, _, rfl, rfl, rfl⟩
  | kept left right id present hreplace =>
    refine .inr (.inr ⟨hreplace, rfl, present, ?_, rfl⟩)
    rw [hmiddle]
    simp [Row.located?]

/-- Among the methods after a placing, all but the placed one were there before, in their order. -/
theorem Placing.entries_eq_or {path : Path} {before after : List (Row κ)} {answer : MethodId}
    (h : Placing replace method serial limit path before answer after) :
    Row.entries after = Row.entries before ∨
      ∃ left right, Row.entries after = left ++ (path, method) :: right ∧
        (left ++ right).Sublist (Row.entries before) := by
  rcases h.entries with ⟨left, right, hbefore, hafter, -⟩ |
    ⟨-, left, old, right, hbefore, hafter, -⟩ | ⟨-, hafter, -⟩
  · exact .inr ⟨left, right, hafter, hbefore ▸ .refl _⟩
  · exact .inr ⟨left, right, hafter, hbefore ▸ (List.sublist_cons_self ..).append_left left⟩
  · exact .inl hafter

theorem Placing.mem_entries {path : Path} {before after : List (Row κ)} {answer : MethodId}
    (h : Placing replace method serial limit path before answer after)
    {entry : Path × Method κ} (hentry : entry ∈ Row.entries after) :
    entry = (path, method) ∨ entry ∈ Row.entries before := by
  rcases h.entries_eq_or with hafter | ⟨left, right, hafter, hsub⟩
  · exact .inr (hafter ▸ hentry)
  · rw [hafter, List.perm_middle.mem_iff, List.mem_cons] at hentry
    exact hentry.imp_right (hsub.subset ·)

/-- **Placing repeats no method identity**, when the identity of the placed method is new. -/
theorem Placing.nodup_methodIds {path : Path} {before after : List (Row κ)} {answer : MethodId}
    (h : Placing replace method serial limit path before answer after)
    (hnodup : ((Row.entries before).map fun entry ↦ entry.2.id).Nodup)
    (hnew : ∀ entry ∈ Row.entries before, entry.2.id ≠ method.id) :
    ((Row.entries after).map fun entry ↦ entry.2.id).Nodup := by
  rcases h.entries_eq_or with hafter | ⟨left, right, hafter, hsub⟩
  · rwa [hafter]
  · rw [hafter, (List.perm_middle.map _).nodup_iff, List.map_cons, List.nodup_cons]
    refine ⟨fun hmem ↦ ?_, (hsub.map _).nodup hnodup⟩
    obtain ⟨entry, hentry, heq⟩ := List.mem_map.1 hmem
    exact hnew entry (hsub.subset hentry) heq

/-- **Placing repeats no node identity**, since the numbers that it gives are unused. -/
theorem Placing.nodup_ids {path : Path} {before after : List (Row κ)} {answer : MethodId}
    (h : Placing replace method serial limit path before answer after)
    (hnodup : (before.map Row.id).Nodup) (hused : ∀ row ∈ before, row.id.serial < serial) :
    (after.map Row.id).Nodup := by
  cases h with
  | created left right done todo number hpath hserial hlimit =>
    have hfresh : ((freshRows method number todo).map (Row.below done)).map Row.id =
        (List.range' number (todo.length + 1)).map NodeId.mk := by
      rw [← ids_freshRows method]
      simp [Function.comp_def]
    have hperm : List.Perm ((left ++ (freshRows method number todo).map (Row.below done) ++
        right).map Row.id) ((List.range' number (todo.length + 1)).map NodeId.mk ++
          (left ++ right).map Row.id) := by
      rw [List.append_assoc, List.map_append, List.map_append, hfresh, List.map_append]
      exact List.perm_append_comm_assoc ..
    refine hperm.nodup_iff.2 (List.Nodup.append ?_ hnodup ?_)
    · exact (List.nodup_range' ..).map fun _ _ heq ↦ NodeId.mk.inj heq
    · -- A new number is at least `serial`, and one in use is less.
      intro id hid hused'
      obtain ⟨number', hnumber', rfl⟩ := List.mem_map.1 hid
      obtain ⟨row, hrow, heq⟩ := List.mem_map.1 hused'
      have hlt := hused row hrow
      have hle := (List.mem_range'_1.1 hnumber').1
      rw [heq] at hlt
      simp only at hlt
      omega
  | replaced left right id method? number hreplace hserial hlimit =>
    rw [List.map_append, List.map_cons, List.nodup_middle, List.nodup_cons] at hnodup ⊢
    refine ⟨fun hmem ↦ ?_, hnodup.2⟩
    rw [← List.map_append] at hmem
    obtain ⟨row, hrow, heq⟩ := List.mem_map.1 hmem
    have hlt := hused row (by
      rcases List.mem_append.1 hrow with hrow | hrow
      · exact List.mem_append_left _ hrow
      · exact List.mem_append_right _ (List.mem_cons_of_mem _ hrow))
    rw [heq] at hlt
    simp only at hlt
    omega
  | attached left right id hreplace => simpa using hnodup
  | kept left right id present hreplace => exact hnodup

/-- **An identity after a placing** was there before, or has a number of its range. -/
theorem Placing.mem_ids {path : Path} {before after : List (Row κ)} {answer : MethodId}
    (h : Placing replace method serial limit path before answer after) {row : Row κ}
    (hrow : row ∈ after) :
    row.id ∈ before.map Row.id ∨ serial ≤ row.id.serial ∧ row.id.serial < limit := by
  cases h with
  | created left right done todo number hpath hserial hlimit =>
    rw [List.mem_append, List.mem_append, List.mem_map] at hrow
    rcases hrow with (hrow | ⟨inner, hinner, rfl⟩) | hrow
    · exact .inl (List.mem_map_of_mem (List.mem_append_left _ hrow))
    · have hid := List.mem_map_of_mem (f := Row.id) hinner
      rw [ids_freshRows] at hid
      obtain ⟨number', hnumber', heq⟩ := List.mem_map.1 hid
      obtain ⟨hle, hlt⟩ := List.mem_range'_1.1 hnumber'
      rw [Row.id_below, ← heq]
      exact .inr ⟨Nat.le_trans hserial hle, by simp only; omega⟩
    · exact .inl (List.mem_map_of_mem (List.mem_append_right _ hrow))
  | replaced left right id method? number hreplace hserial hlimit =>
    rw [List.mem_append, List.mem_cons] at hrow
    rcases hrow with hrow | rfl | hrow
    · exact .inl (List.mem_map_of_mem (List.mem_append_left _ hrow))
    · exact .inr ⟨hserial, hlimit⟩
    · exact .inl (List.mem_map_of_mem (List.mem_append_right _ (List.mem_cons_of_mem _ hrow)))
  | attached left right id hreplace =>
    have hid := List.mem_map_of_mem (f := Row.id) hrow
    exact .inl (by simpa using hid)
  | kept left right id present hreplace => exact .inl (List.mem_map_of_mem hrow)

/-- Placing gives no number outside of its range. -/
theorem Placing.lt_limit {path : Path} {before after : List (Row κ)} {answer : MethodId}
    (h : Placing replace method serial limit path before answer after) (hle : serial ≤ limit)
    (hused : ∀ row ∈ before, row.id.serial < serial) :
    ∀ row ∈ after, row.id.serial < limit := by
  intro row hrow
  obtain hold | ⟨-, hlt⟩ := h.mem_ids hrow
  · obtain ⟨row', hrow', heq⟩ := List.mem_map.1 hold
    exact heq ▸ Nat.lt_of_lt_of_le (hused row' hrow') hle
  · exact hlt

/-! ### What a placing keeps -/

theorem sameRoot_place (path : Path) (root : Node κ) :
    SameRoot root (root.place replace method serial path).2 := by
  cases path with
  | nil => exact ⟨rfl, rfl, rfl⟩
  | cons name rest => exact sameRoot_putChild ..

/-- Whether a tree is orderly depends on what is below its root only. -/
theorem Throughout.of_children {node node' : Node κ} (h : node.Throughout (Orderly strict))
    (hchildren : node'.children = node.children) : node'.Throughout (Orderly strict) := by
  obtain ⟨horderly, hbelow⟩ := throughout_iff.1 h
  refine throughout_iff.2 ⟨⟨?_, ?_⟩, ?_⟩
  · rw [hchildren]
    exact horderly.valid
  · rw [hchildren]
    exact horderly.distinct
  · rw [hchildren]
    exact hbelow

theorem throughout_of_childless {node : Node κ} (h : node.children = []) :
    node.Throughout (Orderly strict) := by
  refine throughout_iff.2 ⟨⟨?_, ?_⟩, ?_⟩ <;> simp [h]

theorem orderly_settled {name : Text} {present? : Option (Node κ)} (id : NodeId)
    (h : ∀ present ∈ present?, present.name = name ∧ present.Throughout (Orderly strict)) :
    (settled replace method id name present?).2.name = name ∧
      (settled replace method id name present?).2.Throughout (Orderly strict) := by
  cases present? with
  | none => exact ⟨rfl, throughout_of_childless rfl⟩
  | some present =>
    obtain ⟨rfl, horderly⟩ := h present rfl
    refine ⟨name_settled present, horderly.of_children ?_⟩
    rw [settled]
    split
    · rfl
    · split <;> rfl

theorem orderly_grown (replace : Bool) (method : Method κ) {path : Path}
    (hpath : ∀ name ∈ path, Name.isValid strict name = true)
    (serial : Nat) (name : Text) (present? : Option (Node κ))
    (h : ∀ present ∈ present?, present.name = name ∧ present.Throughout (Orderly strict)) :
    (grown replace method path serial name present?).2.name = name ∧
      (grown replace method path serial name present?).2.Throughout (Orderly strict) := by
  induction path generalizing serial name present? with
  | nil => exact orderly_settled ⟨serial⟩ h
  | cons next rest ih =>
    rw [List.forall_mem_cons] at hpath
    have hnode : (present?.getD (bare ⟨serial⟩ name)).name = name ∧
        (present?.getD (bare ⟨serial⟩ name)).Throughout (Orderly strict) := by
      cases present? with
      | none => exact ⟨rfl, throughout_of_childless rfl⟩
      | some present => exact h present rfl
    rw [grown]
    obtain ⟨hname, hchild⟩ := ih hpath.2 (serial + 1) next
      ((present?.getD (bare ⟨serial⟩ name)).child? next) (fun child hmem ↦
        ⟨name_of_child? hmem, hnode.2.child? hmem⟩)
    exact ⟨hnode.1, hnode.2.putChild hchild hname hpath.1⟩

/-- **Placing a method at a path of valid names keeps a tree orderly.** -/
theorem Throughout.place {path : Path} {root : Node κ} (h : root.Throughout (Orderly strict))
    (hpath : ∀ name ∈ path, Name.isValid strict name = true) :
    (root.place replace method serial path).2.Throughout (Orderly strict) := by
  cases path with
  | nil => exact h
  | cons name rest =>
    rw [List.forall_mem_cons] at hpath
    obtain ⟨hname, hchild⟩ := orderly_grown replace method hpath.2 serial name
      (root.child? name) (fun child hmem ↦
        ⟨name_of_child? hmem, h.child? hmem⟩)
    exact h.putChild hchild hname hpath.1

end OscAddressing.Node

import OscAddressing.Proofs.Tree.Lookup
import OscAddressing.Proofs.Tree.Tidy

/-!
# Trees that differ in one place

An edit follows a path and changes what is at one place of it. `DifferAt` says of two trees that
nothing else is changed: on the way to that place every node is the same, and has the same children
in the same order, but for the one that the path leads to. What is at the place may be missing in
one of the trees, so one relation serves for what is added, replaced, or taken away.

It is passed up from a child to its parent (`DifferAt.lift`), and so comes out of a change in place
(`differAt_alterAt?`) and of a placing by the recursion of the edit. What it says of the node at
another path depends on where that path leads: below the place (`DifferAt.at?_append`), or elsewhere
(`DifferAt.at?_of_not_isPrefix`).

Placing a method either settles it at a node (`Settling`) or adds a branch of new nodes (`Sprout`),
and `planted_place` says that there is nothing else; withdrawing it either detaches a node without
children or takes its method (`Withdrawn`).
-/

namespace OscAddressing.Node

variable {κ : Type u} {strict : Bool}

/-! ### One place -/

/-- **The trees differ in one place only**: at the end of the path there is `old?` in the first and
`new?` in the second. On the way, the nodes are the same, and so are their other children, to the
left and to the right of the path. Where the first tree has no child to follow, the second has it as
the last. -/
inductive DifferAt (old? new? : Option (Node κ)) :
    Path → Option (Node κ) → Option (Node κ) → Prop
  | here : DifferAt old? new? [] old? new?
  | along {name : Text} {rest : Path} {node node' : Node κ} (left right : List (Node κ)) :
      SameRoot node node' →
      node.children = left ++ (node.child? name).toList ++ right →
      node'.children = left ++ (node'.child? name).toList ++ right →
      (node.child? name = none → right = []) →
      DifferAt old? new? rest (node.child? name) (node'.child? name) →
      DifferAt old? new? (name :: rest) (some node) (some node')

/-- Nodes whose children differ at one name only have the same children of other names. -/
theorem child?_eq_of_split {node node' : Node κ} {name other : Text} {left right : List (Node κ)}
    (h : node.children = left ++ (node.child? name).toList ++ right)
    (h' : node'.children = left ++ (node'.child? name).toList ++ right) (hne : other ≠ name) :
    node'.child? other = node.child? other := by
  have hskip : ∀ inner : Node κ,
      ((inner.child? name).toList.find? fun child ↦ child.name = other) = none := by
    intro inner
    rw [List.find?_eq_none]
    intro child hchild hother
    exact hne ((of_decide_eq_true hother).symm.trans (name_of_child? (Option.mem_toList.1 hchild)))
  rw [child?, child?, h, h']
  simp only [List.find?_append, hskip]

/-- **Off the path the trees are the same**: what another path leads to is equal, with all that is
below it, unless it leads to a node on the way. -/
def SameOff (path : Path) (root root' : Node κ) : Prop :=
  ∀ other, ¬other <+: path → root'.at? other = root.at? other

section DifferAt

variable {old? new? before? after? : Option (Node κ)} {place : Path}

/-- **At the place and below it**, paths lead on in what is there. -/
theorem DifferAt.at?_append (h : DifferAt old? new? place before? after?) (more : Path) :
    before?.bind (at? (place ++ more)) = old?.bind (at? more) ∧
      after?.bind (at? (place ++ more)) = new?.bind (at? more) := by
  induction h with
  | here => exact ⟨rfl, rfl⟩
  | along left right hsame hsplit hsplit' hlast hdiffer ih => exact ih

/-- At the place itself. -/
theorem DifferAt.at?_place (h : DifferAt old? new? place before? after?) :
    before?.bind (at? place) = old? ∧ after?.bind (at? place) = new? := by
  obtain ⟨hold, hnew⟩ := h.at?_append []
  rw [List.append_nil] at hold hnew
  exact ⟨hold.trans (Option.bind_fun_some old?), hnew.trans (Option.bind_fun_some new?)⟩

/-- **Elsewhere**, a path leads to the same node: above the place but for its children, and beside
the place with all that is below it. -/
theorem DifferAt.at?_of_not_isPrefix (h : DifferAt old? new? place before? after?) {path : Path}
    (hpath : ¬place <+: path) :
    (∃ node node', path <+: place ∧ before?.bind (at? path) = some node ∧
      after?.bind (at? path) = some node' ∧ SameRoot node node') ∨
    ¬path <+: place ∧ after?.bind (at? path) = before?.bind (at? path) := by
  induction h generalizing path with
  | here => exact absurd List.nil_prefix hpath
  | @along name rest node node' left right hsame hsplit hsplit' hlast hdiffer ih =>
    cases path with
    | nil => exact .inl ⟨node, node', List.nil_prefix, rfl, rfl, hsame⟩
    | cons other path =>
      by_cases hother : other = name
      · obtain rfl := hother
        simp only [List.cons_prefix_cons, true_and] at hpath ⊢
        exact ih hpath
      · refine .inr ⟨fun hprefix ↦ hother (List.cons_prefix_cons.1 hprefix).1, ?_⟩
        show (node'.child? other).bind (at? path) = (node.child? other).bind (at? path)
        rw [child?_eq_of_split hsplit hsplit' hother]

/-- **Trees are the same off a path** that goes on from the place, when the two things at the place
are the same off the rest of it. -/
theorem DifferAt.sameOff {root root' : Node κ}
    (h : DifferAt old? new? place (some root) (some root')) (rest : Path)
    (hinside : ∀ more, ¬more <+: rest → new?.bind (at? more) = old?.bind (at? more)) :
    SameOff (place ++ rest) root root' := by
  intro path hpath
  by_cases hbelow : place <+: path
  · obtain ⟨more, rfl⟩ := hbelow
    obtain ⟨hold, hnew⟩ := h.at?_append more
    have hmore : ¬more <+: rest := fun hprefix ↦ hpath ((List.prefix_append_right_inj _).2 hprefix)
    exact hnew.trans ((hinside more hmore).trans hold.symm)
  · obtain ⟨-, -, habove, -⟩ | ⟨-, heq⟩ := h.at?_of_not_isPrefix hbelow
    · exact absurd (habove.trans (List.prefix_append ..)) hpath
    · exact heq

/-- Above the place and beside it, identities stay. -/
theorem DifferAt.id_eq {root root' : Node κ}
    (h : DifferAt old? new? place (some root) (some root')) {path : Path}
    (hpath : ¬place <+: path) {node node' : Node κ} (hnode : root.at? path = some node)
    (hnode' : root'.at? path = some node') : node'.id = node.id := by
  obtain ⟨inner, inner', -, hinner, hinner', hsame⟩ | ⟨-, heq⟩ := h.at?_of_not_isPrefix hpath
  · obtain rfl : inner = node := Option.some.inj (hinner.symm.trans hnode)
    obtain rfl : inner' = node' := Option.some.inj (hinner'.symm.trans hnode')
    exact hsame.id
  · obtain rfl : node = node' := Option.some.inj (hnode.symm.trans (heq.symm.trans hnode'))
    rfl

/-- What is the same in a child is the same in its parent. -/
theorem DifferAt.lift {node child child' : Node κ} {name : Text}
    (h : DifferAt old? new? place (some child) (some child'))
    (hchild : node.child? name = some child) (hname : child'.name = name) :
    DifferAt old? new? (name :: place) (some node) (some (node.putChild name child')) := by
  obtain ⟨left, right, hsplit, hput, -⟩ := exists_split_of_child? hchild
  have hchild' : (node.putChild name child').child? name = some child' :=
    child?_putChild_self node hname
  refine .along left right (sameRoot_putChild ..) ?_ ?_ (fun hnone ↦ ?_) ?_
  · rw [hchild, hsplit, Option.toList_some, List.append_assoc, List.singleton_append]
  · rw [hchild', hput, Option.toList_some, List.append_assoc, List.singleton_append]
  · exact absurd (hchild.symm.trans hnone) (by simp)
  · rwa [hchild, hchild']

end DifferAt

/-- A child of a new name is the only difference. -/
theorem differAt_putChild_of_none {node child : Node κ} {name : Text}
    (hnone : node.child? name = none) (hname : child.name = name) :
    DifferAt none (some child) [name] (some node) (some (node.putChild name child)) := by
  have hchild : (node.putChild name child).child? name = some child :=
    child?_putChild_self node hname
  refine .along node.children [] (sameRoot_putChild ..) ?_ ?_ (fun _ ↦ rfl) ?_
  · rw [hnone, Option.toList_none, List.append_nil, List.append_nil]
  · rw [hchild, children_putChild_of_none hnone, Option.toList_some, List.append_nil]
  · rw [hnone, hchild]
    exact .here

/-- A child that is dropped is the only difference. -/
theorem Orderly.differAt_dropChild {node child : Node κ} {name : Text} (h : node.Orderly strict)
    (hchild : node.child? name = some child) :
    DifferAt (some child) none [name] (some node) (some (node.dropChild name)) := by
  obtain ⟨left, right, hsplit, -, hdrop⟩ := exists_split_of_child? hchild
  have hgone : (node.dropChild name).child? name = none := h.child?_dropChild hchild
  refine .along left right ⟨rfl, rfl, rfl⟩ ?_ ?_ (fun hnone ↦ ?_) ?_
  · rw [hchild, hsplit, Option.toList_some, List.append_assoc, List.singleton_append]
  · rw [hgone, hdrop, Option.toList_none, List.append_nil]
  · exact absurd (hchild.symm.trans hnone) (by simp)
  · rw [hchild, hgone]
    exact .here

/-- **A change in place makes no other difference** than the one that it makes there. -/
theorem differAt_alterAt? {change : Node κ → Option (Node κ)} {path : Path} {node node' : Node κ}
    (hname : ∀ target target', change target = some target' → target'.name = target.name)
    (h : node.alterAt? change path = some node') :
    ∃ target target', node.at? path = some target ∧ change target = some target' ∧
      ∀ {old? new? : Option (Node κ)} {place : Path},
        DifferAt old? new? place (some target) (some target') →
          DifferAt old? new? (path ++ place) (some node) (some node') := by
  induction path generalizing node node' with
  | nil => exact ⟨node, node', rfl, h, fun hdiffer ↦ hdiffer⟩
  | cons name rest ih =>
    obtain ⟨child, child', hchild, hchild', rfl⟩ := alterAt?_cons_eq_some_iff.1 h
    obtain ⟨target, target', htarget, hchange, hlift⟩ := ih hchild'
    have hname' : child'.name = name := (name_alterAt? hname hchild').trans (name_of_child? hchild)
    exact ⟨target, target', at?_cons_eq_some_iff.2 ⟨child, hchild, htarget⟩, hchange,
      fun hdiffer ↦ (hlift hdiffer).lift hchild hname'⟩

/-- **Changing in place, and looking up:** the change has an outcome when it has one for the node
that the path leads to, and then the path leads to that outcome. -/
theorem map_descendant?_alterAt? {change : Node κ → Option (Node κ)} {path : Path} {node : Node κ}
    (hname : ∀ target target', change target = some target' → target'.name = target.name)
    (hpath : path ≠ []) :
    (node.alterAt? change path).map (descendant? path) =
      ((node.descendant? path).bind change).map some := by
  rw [descendant?_of_ne_nil hpath]
  cases halter : node.alterAt? change path with
  | none =>
    cases htarget : (node.at? path).bind change with
    | none => rfl
    | some target' =>
      obtain ⟨target, htarget, hchange⟩ := Option.bind_eq_some_iff.1 htarget
      obtain ⟨node', hsome⟩ := exists_alterAt? htarget hchange
      exact absurd (halter.symm.trans hsome) (by simp)
  | some node' =>
    obtain ⟨target, target', htarget, hchange, hlift⟩ := differAt_alterAt? hname halter
    have hend : node'.at? (path ++ []) = some target' := (hlift .here).at?_place.2
    rw [List.append_nil] at hend
    rw [Option.map_some, descendant?_of_ne_nil hpath, hend, htarget, Option.bind_some, hchange]
    rfl

/-- Below a node, paths lead on to its children. -/
theorem at?_eq_of_children {node node' : Node κ} (h : node'.children = node.children)
    {path : Path} (hpath : path ≠ []) : node'.at? path = node.at? path := by
  cases path with
  | nil => exact absurd rfl hpath
  | cons name rest => rw [at?, at?, child?, child?, h]

/-! ### Placing a method -/

/-- What becomes of a node at which a method is placed. The children are the same in any case. -/
inductive Settling (replace : Bool) (method : Method κ) (fresh : NodeId → Prop) (node : Node κ) :
    Node κ → Prop
  /-- A new node with the method takes its place. -/
  | replaced (id : NodeId) : replace = true → fresh id →
      Settling replace method fresh node { node with id, method? := some method }
  /-- It had no method and gets the placed one. -/
  | attached : replace = false → node.method? = none →
      Settling replace method fresh node { node with method? := some method }
  /-- It keeps the method that it has. -/
  | kept : replace = false → node.method? ≠ none → Settling replace method fresh node node

/-- A branch of new nodes, one of the given name and one for each name of the path, each of them the
only child of the one above. The last carries the method. -/
inductive Sprout (method : Method κ) (fresh : NodeId → Prop) : Text → Path → Node κ → Prop
  | tip {id : NodeId} {name : Text} : fresh id →
      Sprout method fresh name [] ⟨id, name, [], some method⟩
  | stem {id : NodeId} {name next : Text} {rest : Path} {child : Node κ} : fresh id →
      Sprout method fresh next rest child →
        Sprout method fresh name (next :: rest) ⟨id, name, [child], none⟩

/-- **What becomes of a tree in which a method is placed at a path**: it settles at the node that is
there, or a branch of new nodes is added where the path does not lead on. -/
inductive Planted (replace : Bool) (method : Method κ) (fresh : NodeId → Prop) (path : Path)
    (root root' : Node κ) : Prop
  | settled {target target' : Node κ} : Settling replace method fresh target target' →
      DifferAt (some target) (some target') path (some root) (some root') →
      Planted replace method fresh path root root'
  | sprouted {lead : Path} {name : Text} {rest : Path} {sprout : Node κ} :
      path = lead ++ name :: rest → Sprout method fresh name rest sprout →
      DifferAt none (some sprout) (lead ++ [name]) (some root) (some root') →
      Planted replace method fresh path root root'

section Placing

variable {replace : Bool} {method : Method κ} {fresh : NodeId → Prop} {serial : Nat}

theorem Settling.children {target target' : Node κ}
    (h : Settling replace method fresh target target') : target'.children = target.children := by
  cases h <;> rfl

theorem Settling.id {target target' : Node κ} (h : Settling replace method fresh target target') :
    (replace = true → fresh target'.id) ∧ (replace = false → target'.id = target.id) := by
  cases h with
  | replaced id hreplace hid => exact ⟨fun _ ↦ hid, fun hkeep ↦ by simp [hreplace] at hkeep⟩
  | attached hkeep => exact ⟨fun hreplace ↦ by simp [hkeep] at hreplace, fun _ ↦ rfl⟩
  | kept hkeep => exact ⟨fun hreplace ↦ by simp [hkeep] at hreplace, fun _ ↦ rfl⟩

theorem Sprout.name_eq {name : Text} {path : Path} {sprout : Node κ}
    (h : Sprout method fresh name path sprout) : sprout.name = name := by
  cases h <;> rfl

/-- **A sprout has a node for each beginning of its path**, and no others. -/
theorem Sprout.exists_at?_iff {name : Text} {rest : Path} {sprout : Node κ}
    (h : Sprout method fresh name rest sprout) {path : Path} :
    (∃ node, sprout.at? path = some node) ↔ path <+: rest := by
  induction h generalizing path with
  | tip _ =>
    cases path with
    | nil => simp [at?]
    | cons other path => simp [at?, child?]
  | @stem id name next rest child _ hchild ih =>
    cases path with
    | nil => simp [at?]
    | cons other path =>
      rw [List.cons_prefix_cons, ← ih]
      by_cases hother : child.name = other
      · simp [at?, child?, ← hother, hchild.name_eq]
      · simp [at?, child?, hother, ← hchild.name_eq, Ne.symm hother]

/-! ### Placing, from the edit -/

theorem settling_settled {replace : Bool} {method : Method κ} (present : Node κ) {id : NodeId}
    (hid : fresh id) : Settling replace method fresh present
      (settled replace method id present.name (some present)).2 := by
  rw [settled]
  cases hreplace : replace with
  | true => exact .replaced id rfl hid
  | false =>
    rw [if_neg Bool.false_ne_true, methodId?]
    cases hmethod : present.method? with
    | none => exact .attached rfl hmethod
    | some current => exact .kept rfl (by simp [hmethod])

/-- Where there is no node yet, a sprout is grown. -/
theorem sprout_grown (hfresh : ∀ number, serial ≤ number → fresh ⟨number⟩) (path : Path)
    {number : Nat} (hnumber : serial ≤ number) (name : Text) :
    Sprout method fresh name path (grown replace method path number name none).2 := by
  induction path generalizing number name with
  | nil => exact .tip (hfresh number hnumber)
  | cons next rest ih =>
    have hnone : (bare ⟨number⟩ name : Node κ).child? next = none := rfl
    have hchild := ih (Nat.le_succ_of_le hnumber) next
    rw [grown, Option.getD_none, hnone]
    exact .stem (hfresh number hnumber) hchild

/-- **Below a node, along a name:** what is planted below the child of the name, or as a new child,
is planted below the node. -/
theorem planted_putChild (hfresh : ∀ number, serial ≤ number → fresh ⟨number⟩) {node : Node κ}
    {name : Text} {rest : Path} {number : Nat} (hnumber : serial ≤ number)
    (hpresent : ∀ child, node.child? name = some child →
      Planted replace method fresh rest child
          (grown replace method rest number name (some child)).2 ∧
        (grown replace method rest number name (some child)).2.name = name) :
    Planted replace method fresh (name :: rest) node
      (node.putChild name (grown replace method rest number name (node.child? name)).2) := by
  cases hchild : node.child? name with
  | none =>
    have hsprout : Sprout method fresh name rest (grown replace method rest number name none).2 :=
      sprout_grown hfresh rest hnumber name
    have hdiffer := differAt_putChild_of_none hchild hsprout.name_eq
    rw [← List.nil_append [name]] at hdiffer
    exact .sprouted rfl hsprout hdiffer
  | some child =>
    obtain ⟨hplanted, hname⟩ := hpresent child hchild
    cases hplanted with
    | settled hsettling hdiffer => exact .settled hsettling (hdiffer.lift hchild hname)
    | @sprouted lead _ _ _ hrest hsprout hdiffer =>
      have hlift : DifferAt none _ (name :: lead ++ [_]) _ _ := hdiffer.lift hchild hname
      exact .sprouted (congrArg (name :: ·) hrest) hsprout hlift

/-- Below a node that is there, growing plants. -/
theorem planted_grown (hfresh : ∀ number, serial ≤ number → fresh ⟨number⟩) (path : Path)
    (present : Node κ) {number : Nat} (hnumber : serial ≤ number) :
    Planted replace method fresh path present
        (grown replace method path number present.name (some present)).2 ∧
      (grown replace method path number present.name (some present)).2.name = present.name := by
  induction path generalizing present number with
  | nil => exact ⟨.settled (settling_settled present (hfresh number hnumber)) .here,
      name_settled present⟩
  | cons next rest ih =>
    rw [grown, Option.getD_some]
    refine ⟨planted_putChild hfresh (Nat.le_succ_of_le hnumber) fun child hchild ↦ ?_, rfl⟩
    obtain rfl := name_of_child? hchild
    exact ih child (Nat.le_succ_of_le hnumber)

/-- **Placing a method plants it.** -/
theorem planted_place (hfresh : ∀ number, serial ≤ number → fresh ⟨number⟩) {path : Path}
    (hpath : path ≠ []) (root : Node κ) :
    Planted replace method fresh path root (root.place replace method serial path).2 := by
  cases path with
  | nil => exact absurd rfl hpath
  | cons name rest =>
    rw [place]
    refine planted_putChild hfresh (Nat.le_refl serial) fun child hchild ↦ ?_
    obtain rfl := name_of_child? hchild
    exact planted_grown hfresh rest child (Nat.le_refl serial)

/-! ### What planting leaves alone -/

variable {path other : Path} {root root' : Node κ}

/-- **Off the path nothing changes.** -/
theorem Planted.sameOff (h : Planted replace method fresh path root root') :
    SameOff path root root' := by
  cases h with
  | settled hsettling hdiffer =>
    rw [← List.append_nil path]
    refine hdiffer.sameOff [] fun more hmore ↦ ?_
    exact at?_eq_of_children hsettling.children (mt List.prefix_nil.2 hmore)
  | @sprouted lead name rest sprout hsplit hsprout hdiffer =>
    rw [hsplit, List.append_cons]
    refine hdiffer.sameOff rest fun more hmore ↦ ?_
    exact Option.eq_none_iff_forall_ne_some.2 fun node hnode ↦
      hmore (hsprout.exists_at?_iff.1 ⟨node, hnode⟩)

/-- **New nodes are created where the path lacked them**, and nowhere else. -/
theorem Planted.exists_at?_iff (h : Planted replace method fresh path root root') :
    (∃ node, root'.at? other = some node) ↔
      (∃ node, root.at? other = some node) ∨ other <+: path := by
  by_cases hother : other <+: path
  · refine iff_of_true ?_ (.inr hother)
    suffices hend : ∃ node, root'.at? path = some node by
      obtain ⟨node, hnode⟩ := hend
      exact exists_at?_of_isPrefix hnode hother
    cases h with
    | @settled target target' hsettling hdiffer => exact ⟨target', hdiffer.at?_place.2⟩
    | @sprouted lead name rest sprout hsplit hsprout hdiffer =>
      have hnew := (hdiffer.at?_append rest).2
      rw [← List.append_cons, ← hsplit] at hnew
      obtain ⟨node, hnode⟩ := hsprout.exists_at?_iff.2 (List.prefix_refl rest)
      exact ⟨node, hnew.trans hnode⟩
  · rw [h.sameOff other hother, or_iff_left hother]

/-- **Only a node at the path that is replaced gets a new identity.** -/
theorem Planted.id (h : Planted replace method fresh path root root') {node node' : Node κ}
    (hnode : root.at? other = some node) (hnode' : root'.at? other = some node') :
    (replace = true ∧ other = path → fresh node'.id) ∧
      (¬(replace = true ∧ other = path) → node'.id = node.id) := by
  have hkept (hne : other ≠ path) (hid : node'.id = node.id) :
      (replace = true ∧ other = path → fresh node'.id) ∧
        (¬(replace = true ∧ other = path) → node'.id = node.id) :=
    ⟨fun hsame ↦ absurd hsame.2 hne, fun _ ↦ hid⟩
  by_cases hother : other <+: path
  case neg =>
    obtain rfl : node = node' :=
      Option.some.inj (hnode.symm.trans ((h.sameOff other hother).symm.trans hnode'))
    exact hkept (fun heq ↦ hother (heq ▸ List.prefix_refl _)) rfl
  cases h with
  | @settled target target' hsettling hdiffer =>
    by_cases heq : other = path
    · obtain rfl := heq
      obtain ⟨hold, hnew⟩ := hdiffer.at?_place
      obtain rfl : node = target := Option.some.inj (hnode.symm.trans hold)
      obtain rfl : node' = target' := Option.some.inj (hnode'.symm.trans hnew)
      exact ⟨fun hsame ↦ hsettling.id.1 hsame.1,
        fun hnot ↦ hsettling.id.2 (Bool.eq_false_iff.2 fun hreplace ↦ hnot ⟨hreplace, rfl⟩)⟩
    · have habove : ¬path <+: other :=
        fun hprefix ↦ heq (hother.eq_of_length (hother.length_le.antisymm hprefix.length_le))
      exact hkept heq (hdiffer.id_eq habove hnode hnode')
  | @sprouted lead name rest sprout hsplit hsprout hdiffer =>
    -- Where the branch was added, there was no node before.
    have habove : ¬lead ++ [name] <+: other := by
      rintro ⟨more, rfl⟩
      exact absurd (hnode.symm.trans (hdiffer.at?_append more).1) (by simp)
    have hne : other ≠ path := by
      rintro rfl
      exact habove (by simp [hsplit])
    exact hkept hne (hdiffer.id_eq habove hnode hnode')

end Placing

/-! ### Withdrawing a method -/

/-- **What becomes of a tree in which the method of the node at a path is withdrawn**: the node
goes, if it has no children, and otherwise it stays without the method. -/
inductive Withdrawn (path : Path) (target root root' : Node κ) : Prop
  | detached : target.children = [] →
      DifferAt (some target) none path (some root) (some root') →
      Withdrawn path target root root'
  | demoted : target.children ≠ [] →
      DifferAt (some target) (some { target with method? := none }) path (some root)
        (some root') →
      Withdrawn path target root root'

section Withdrawing

variable {path : Path} {target root root' : Node κ}

theorem withdrawn_detach? (h : root.Throughout (Orderly strict))
    (htarget : root.at? path = some target) (hdetach : root.detach? false path = some root') :
    Withdrawn path target root root' := by
  obtain ⟨parents, last, rfl, halter⟩ := exists_of_detach? hdetach
  obtain ⟨parent, parent', hparent, hdrop, hlift⟩ :=
    differAt_alterAt? (fun _ _ h ↦ (sameRoot_of_without? h).name) halter
  obtain ⟨child, hchild, hforce, rfl⟩ := without?_eq_some_iff.1 hdrop
  rw [at?_append_singleton, hparent, Option.bind_some, hchild] at htarget
  obtain rfl : child = target := Option.some.inj htarget
  have horderly : parent.Orderly strict := (throughout_iff.1 (h.at? hparent)).1
  exact .detached (hforce.resolve_left Bool.false_ne_true)
    (hlift (horderly.differAt_dropChild hchild))

theorem withdrawn_demote? (htarget : root.at? path = some target) (hchildren : target.children ≠ [])
    (hdemote : root.demote? path = some root') : Withdrawn path target root root' := by
  obtain ⟨target', demoted, htarget', hchange, hlift⟩ := differAt_alterAt?
    (fun target target' h ↦ by obtain ⟨-, -, rfl⟩ := demoted_iff.1 h; rfl) hdemote
  obtain rfl : target = target' := Option.some.inj (htarget.symm.trans htarget')
  obtain ⟨method, -, rfl⟩ := demoted_iff.1 hchange
  have hdiffer := hlift .here
  rw [List.append_nil] at hdiffer
  exact .demoted hchildren hdiffer

/-- **Off the path nothing changes.** -/
theorem Withdrawn.sameOff (h : Withdrawn path target root root') : SameOff path root root' := by
  rw [← List.append_nil path]
  cases h with
  | detached hchildren hdiffer =>
    refine hdiffer.sameOff [] fun more hmore ↦ ?_
    cases more with
    | nil => exact absurd List.nil_prefix hmore
    | cons name more => simp [at?, child?, hchildren]
  | demoted hchildren hdiffer =>
    refine hdiffer.sameOff [] fun more hmore ↦ ?_
    have hsame : { target with method? := none : Node κ }.children = target.children := rfl
    exact at?_eq_of_children hsame (mt List.prefix_nil.2 hmore)

end Withdrawing

end OscAddressing.Node

import OscAddressing.Proofs.Space.Tidy
import OscAddressing.Proofs.Space.WellFormed
import OscAddressing.Proofs.Tree.Frame

/-!
# What an operation leaves alone

An operation on a space changes one place of the tree, and gives no identity that was in use before.
`frame_after` says both of every operation after any run: a node keeps its identity for as long as
its path leads to a node, unless a registration replaces it or everything is removed
(`Space.Renews`); registering and unregistering make no other difference than the ones that
`Node.Planted` and `Node.Withdrawn` list; and an identity that has left the tree never comes back.

For edits that only remove, the first follows from what they do to the rows (`Node.Shrunk`). For all
identities that are given, it is enough that their numbers come from the supply, since the tree of
no earlier space had one of these (`unused_of_le`).
-/

namespace OscAddressing

/-- **What is left of a tree stays where it was.** -/
theorem Node.Shrunk.id_eq {κ : Type u} {strict : Bool} {root root' : Node κ}
    (h : Shrunk root root') (horderly : root.Throughout (Orderly strict)) {path : Path}
    {node node' : Node κ} (hnode : root.at? path = some node)
    (hnode' : root'.at? path = some node') : node'.id = node.id := by
  have hrow' : (⟨path, node'.id, node'.method?⟩ : Row κ) ∈ root'.rows :=
    (mem_rows_iff (h.orderly horderly)).2 ⟨node', hnode', rfl, rfl⟩
  obtain ⟨row, hrow, heq⟩ := List.mem_map.1 (h.places.subset (List.mem_map_of_mem hrow'))
  obtain ⟨hpath, hid⟩ := Prod.mk.inj heq
  obtain ⟨target, htarget, hsame, -⟩ := (mem_rows_iff horderly).1 hrow
  rw [hpath, hnode] at htarget
  obtain rfl : node = target := Option.some.inj htarget
  exact hid.symm.trans hsame.symm

namespace Space

variable {κ : Type u} {config : Config} {run : List (Operation κ)}

/-! ### Identities of nodes -/

/-- The identities of the nodes of a space. -/
def nodeIds (space : Space κ) : List NodeId := space.root.all.map Node.id

/-- **No node had the identity** at any time during the run. -/
def Unused (config : Config) (run : List (Operation κ)) (id : NodeId) : Prop :=
  ∀ earlier, earlier <+: run → id ∉ (after config earlier).nodeIds

/-- The numbers of nodes from the supply on are unused. -/
theorem Sound.lt_nextNode {space : Space κ} (h : space.Sound) {id : NodeId}
    (hid : id ∈ space.nodeIds) : id.serial < space.nextNode := by
  rw [nodeIds, ← Node.map_id_rows] at hid
  obtain ⟨row, hrow, rfl⟩ := List.mem_map.1 hid
  exact h.ids_lt row hrow

theorem nextNode_le_step (space : Space κ) (operation : Operation κ) :
    space.nextNode ≤ (space.step operation).nextNode := by
  rcases step_cases space operation with ⟨path, callback?, -, -, heq⟩ | ⟨root, heq, -⟩ | heq
  · rw [heq]
    exact Nat.le_add_right ..
  · rw [heq]
  · rw [heq]
    exact Nat.le_succ _

theorem nextNode_le_foldl (space : Space κ) (run : List (Operation κ)) :
    space.nextNode ≤ (run.foldl step space).nextNode :=
  le_foldl nextNode_le_step space run

/-- **An identity from the supply is unused**, now and in all of the past. -/
theorem unused_of_le {id : NodeId} (h : (after config run).nextNode ≤ id.serial) :
    Unused config run id := by
  rintro earlier ⟨rest, rfl⟩ hid
  have hlt := (sound_after config earlier).lt_nextNode hid
  rw [after_append] at h
  have := nextNode_le_foldl (after config earlier) rest
  omega

/-- **An operation gives identities from the supply only.** -/
theorem mem_nodeIds_step (space : Space κ) (operation : Operation κ) {id : NodeId}
    (hid : id ∈ (space.step operation).nodeIds) :
    id ∈ space.nodeIds ∨ space.nextNode ≤ id.serial := by
  rcases step_cases space operation with ⟨path, callback?, hpath, -, heq⟩ | ⟨root, heq, hshrunk⟩ |
    heq
  · rw [heq, nodeIds, ← Node.map_id_rows] at hid
    obtain ⟨row, hrow, rfl⟩ := List.mem_map.1 hid
    rw [nodeIds, ← Node.map_id_rows]
    exact ((placing_registerPath space hpath callback?).mem_ids hrow).imp_right And.left
  · rw [heq, nodeIds, ← Node.map_id_rows] at hid
    rw [nodeIds, ← Node.map_id_rows]
    exact .inl (hshrunk.ids.subset hid)
  · rw [heq] at hid
    obtain rfl : id = ⟨space.nextNode⟩ := List.mem_singleton.1 hid
    exact .inr (Nat.le_refl _)

/-- **An identity below the supply that is not in the tree never comes back.** -/
theorem not_mem_nodeIds_foldl {space : Space κ} {id : NodeId} (hlt : id.serial < space.nextNode)
    (hgone : id ∉ space.nodeIds) (run : List (Operation κ)) :
    id ∉ (run.foldl step space).nodeIds := by
  induction run generalizing space with
  | nil => exact hgone
  | cons operation run ih =>
    refine ih (hlt.trans_le (nextNode_le_step space operation)) fun hid ↦ ?_
    obtain hold | hle := mem_nodeIds_step space operation hid
    · exact hgone hold
    · exact absurd hlt (Nat.not_lt.2 hle)

/-! ### Each operation -/

/-- **Does the operation renew the node at the path**, if it leads to one? A registration renews the
node that it replaces, and removing everything renews the root. -/
def Renews (space : Space κ) (path : Path) : Operation κ → Prop
  | .register address callback? =>
    space.config.replaceExisting = true ∧
      (∃ answer, space.register address callback? = .ok answer) ∧ path = Path.ofText address
  | .clear => path = []
  | .unregister _ | .unregisterAndPrune _ | .unregisterId _ => False

/-- **A registration plants its method**, and the new nodes have identities that are unused. -/
theorem planted_registerPath (config : Config) (run : List (Operation κ)) {path : Path}
    (hpath : path ≠ []) (callback? : Option κ) :
    Node.Planted (after config run).config.replaceExisting
      { id := (after config run).freshMethodId, callback? } (Unused config run) path
      (after config run).root ((after config run).registerPath path callback?).2.root :=
  Node.planted_place (fun _ hle ↦ unused_of_le hle) hpath _

/-- **Only what is renewed gets another identity**, and then one that was never used. -/
theorem id_step {operation : Operation κ} {path : Path} {node node' : Node κ}
    (hnode : (after config run).root.at? path = some node)
    (hnode' : ((after config run).step operation).root.at? path = some node') :
    ((after config run).Renews path operation → Unused config run node'.id) ∧
      (¬(after config run).Renews path operation → node'.id = node.id) := by
  have hleft {root : Node κ} (hstep : (after config run).step operation =
      { after config run with root }) (hshrunk : Node.Shrunk (after config run).root root) :
      node'.id = node.id := by
    rw [hstep] at hnode'
    exact hshrunk.id_eq (sound_after config run).orderly hnode hnode'
  cases operation with
  | register address callback? =>
    obtain ⟨e, herror, heq⟩ | ⟨hpath, -, hok, heq⟩ :=
      registerD_cases (after config run) address callback?
    · have hstep : (after config run).step (.register address callback?) = after config run := by
        rw [step, heq]
      refine ⟨fun hrenews ↦ ?_, fun _ ↦ hleft hstep (.refl _)⟩
      obtain ⟨-, ⟨answer, hanswer⟩, -⟩ := hrenews
      exact absurd (hanswer.symm.trans herror) (by simp)
    · have hplanted := planted_registerPath config run hpath callback?
      rw [step, heq] at hnode'
      obtain ⟨hnew, hkept⟩ := hplanted.id hnode hnode'
      exact ⟨fun hrenews ↦ hnew ⟨hrenews.1, hrenews.2.2⟩,
        fun hnot ↦ hkept fun hboth ↦ hnot ⟨hboth.1, ⟨_, hok⟩, hboth.2⟩⟩
  | unregister address =>
    obtain ⟨root, hstep, hshrunk⟩ := shrunk_unregisterPath (after config run) (Path.ofText address)
    exact ⟨False.elim, fun _ ↦ hleft hstep hshrunk⟩
  | unregisterAndPrune address =>
    obtain ⟨root, hstep, hshrunk⟩ := shrunk_unregisterAndPrune (after config run) address
    exact ⟨False.elim, fun _ ↦ hleft hstep hshrunk⟩
  | unregisterId id =>
    obtain ⟨root, hstep, hshrunk⟩ := shrunk_unregisterId (after config run) id
    exact ⟨False.elim, fun _ ↦ hleft hstep hshrunk⟩
  | clear =>
    cases path with
    | nil =>
      obtain rfl : Node.bare ⟨(after config run).nextNode⟩ [] = node' := Option.some.inj hnode'
      exact ⟨fun _ ↦ unused_of_le (Nat.le_refl _), fun hnot ↦ absurd rfl hnot⟩
    | cons name rest =>
      exact absurd hnode' (by simp [step, clear, Node.at?, Node.child?, Node.bare])

/-- **Unregistering at a path** withdraws the method there, or does nothing for want of one. -/
theorem Sound.unregisterPath_cases {space : Space κ} (h : space.Sound) (path : Path) :
    (space.root.hasMethodAt path = false ∧ space.unregisterPath path = (false, space)) ∨
      ∃ target root, space.unregisterPath path = (true, { space with root }) ∧
        space.root.at? path = some target ∧ target.isMethod = true ∧
        Node.Withdrawn path target space.root root := by
  obtain hnone | ⟨hmethod, -⟩ := Space.unregisterPath_cases space path
  · exact .inl hnone
  · obtain ⟨-, target, method, htarget, htaken⟩ := Node.exists_of_hasMethodAt hmethod
    have hcarries : target.isMethod = true := by rw [Node.isMethod, htaken, Option.isSome_some]
    obtain ⟨root, heq, ⟨-, hdetach⟩ | ⟨hchildren, hdemote⟩⟩ :=
      unregisterPath_cases_of_method hmethod htarget
    · exact .inr ⟨target, root, heq, htarget, hcarries,
        Node.withdrawn_detach? h.orderly htarget hdetach⟩
    · exact .inr ⟨target, root, heq, htarget, hcarries,
        Node.withdrawn_demote? htarget hchildren hdemote⟩

/-- **Unregistering by identity** withdraws the method of that identity, or does nothing for want of
one. -/
theorem Sound.unregisterId_cases {space : Space κ} (h : space.Sound) (id : MethodId) :
    ((∀ entry ∈ space.root.methods, entry.2.id ≠ id) ∧
        space.unregisterId id = (false, space)) ∨
      ∃ path target root, space.unregisterId id = (true, { space with root }) ∧
        space.root.at? path = some target ∧ target.methodId? = some id ∧
        Node.Withdrawn path target space.root root := by
  rw [unregisterId, Node.pathOf?_eq]
  cases hfind : space.root.methods.find? fun entry ↦ entry.2.id = id with
  | none =>
    refine .inl ⟨fun entry hentry hid ↦ ?_, rfl⟩
    exact List.find?_eq_none.1 hfind entry hentry (decide_eq_true hid)
  | some entry =>
    have hentry := List.mem_of_find?_eq_some hfind
    have hid : entry.2.id = id := by simpa using List.find?_some hfind
    have hmethod : space.root.hasMethodAt entry.1 = true :=
      (Node.hasMethodAt_iff h.orderly).2 (List.mem_map_of_mem hentry)
    obtain ⟨hnone, -⟩ | ⟨target, root, heq, htarget, -, hwithdrawn⟩ :=
      h.unregisterPath_cases entry.1
    · exact absurd (hnone.symm.trans hmethod) Bool.false_ne_true
    · obtain ⟨target', htarget', htaken⟩ := (Node.mem_methods_iff h.orderly).1 hentry
      rw [Node.descendant?_of_ne_nil (Node.path_ne_nil_of_mem_methods hentry), htarget] at htarget'
      obtain rfl : target = target' := Option.some.inj htarget'
      refine .inr ⟨entry.1, target, root, heq, htarget, ?_, hwithdrawn⟩
      rw [Node.methodId?, htaken, Option.map_some, hid]

/-! ### Every operation after any run -/

/-- **What an operation leaves alone.** After any run, and whatever is done next:

* A path that leads to a node both before and after leads to a node of the same identity, unless the
  operation renews it. Then its identity is one that no node ever had.
* A registration, if it is not refused, creates nodes at the beginnings of its path that led to
  none, and nowhere else. It settles its method at the node at the path, which keeps its children
  and its place, or adds a branch that ends in it as the last child of a node. All else stays.
* Unregistering an address or an identity does nothing when there is no method for it. Otherwise it
  detaches the node of the method, if that has no children, or takes its method only. All else
  stays.
* An identity that has left the tree never comes back. -/
theorem frame_after (config : Config) (run : List (Operation κ)) :
    (∀ operation path node node', (after config run).root.at? path = some node →
      ((after config run).step operation).root.at? path = some node' →
        ((after config run).Renews path operation → Unused config run node'.id) ∧
        (¬(after config run).Renews path operation → node'.id = node.id)) ∧
    (∀ address callback? id space',
      (after config run).register address callback? = .ok (id, space') →
        (∀ path, (∃ node, space'.root.at? path = some node) ↔
          (∃ node, (after config run).root.at? path = some node) ∨
            path <+: Path.ofText address) ∧
        Node.Planted config.replaceExisting { id := (after config run).freshMethodId, callback? }
          (Unused config run) (Path.ofText address) (after config run).root space'.root ∧
        Node.SameOff (Path.ofText address) (after config run).root space'.root) ∧
    (∀ address, ((after config run).contains address = false ∧
        (after config run).unregister address = (false, after config run)) ∨
      ∃ target root,
        (after config run).unregister address = (true, { after config run with root }) ∧
        (after config run).root.at? (Path.ofText address) = some target ∧
        target.isMethod = true ∧
        Node.Withdrawn (Path.ofText address) target (after config run).root root ∧
        Node.SameOff (Path.ofText address) (after config run).root root) ∧
    (∀ id, ((∀ entry ∈ (after config run).root.methods, entry.2.id ≠ id) ∧
        (after config run).unregisterId id = (false, after config run)) ∨
      ∃ path target root,
        (after config run).unregisterId id = (true, { after config run with root }) ∧
        (after config run).root.at? path = some target ∧ target.methodId? = some id ∧
        Node.Withdrawn path target (after config run).root root ∧
        Node.SameOff path (after config run).root root) ∧
    ∀ more later id, id ∈ (after config run).nodeIds → id ∉ (after config (run ++ more)).nodeIds →
      id ∉ (after config (run ++ more ++ later)).nodeIds := by
  have h : (after config run).Sound := sound_after config run
  refine ⟨fun operation path node node' hnode hnode' ↦ id_step hnode hnode',
    fun address callback? id space' hok ↦ ?_, fun address ↦ ?_, fun id ↦ ?_,
    fun more later id hid hgone ↦ ?_⟩
  · obtain ⟨e, herror, -⟩ | ⟨hpath, -, hok', -⟩ :=
      registerD_cases (after config run) address callback?
    · exact absurd (hok.symm.trans herror) (by simp)
    · obtain rfl : _ = space' := congrArg Prod.snd (Except.ok.inj (hok'.symm.trans hok))
      have hplanted := planted_registerPath config run hpath callback?
      rw [config_after] at hplanted
      exact ⟨fun path ↦ hplanted.exists_at?_iff, hplanted, hplanted.sameOff⟩
  · obtain hnone | ⟨target, root, heq, htarget, hmethod, hwithdrawn⟩ :=
      h.unregisterPath_cases (Path.ofText address)
    · exact .inl hnone
    · exact .inr ⟨target, root, heq, htarget, hmethod, hwithdrawn, hwithdrawn.sameOff⟩
  · obtain hnone | ⟨path, target, root, heq, htarget, hmethod, hwithdrawn⟩ :=
      h.unregisterId_cases id
    · exact .inl hnone
    · exact .inr ⟨path, target, root, heq, htarget, hmethod, hwithdrawn, hwithdrawn.sameOff⟩
  · rw [after_append] at hgone
    rw [after_append, after_append]
    have hlt := (h.lt_nextNode hid).trans_le (nextNode_le_foldl _ more)
    exact not_mem_nodeIds_foldl hlt hgone later

/-- A container that a registration replaces, with a node below it and one beside it; and the node
below it, which is unregistered. -/
theorem frame_after_replaced :
    let run : List (Operation Unit) := [.register "/a/b".toList none, .register "/c".toList none]
    let operation : Operation Unit := .register "/a".toList none
    let space := after {} run
    let space' := space.step operation
    (∃ node node', space.root.at? ["a".toList] = some node ∧
      space'.root.at? ["a".toList] = some node' ∧ node.id = ⟨1⟩ ∧ Unused {} run node'.id) ∧
    (∃ node node', space.root.at? ["a".toList, "b".toList] = some node ∧
      space'.root.at? ["a".toList, "b".toList] = some node' ∧ node'.id = node.id) ∧
    (∃ answer, space.register "/a".toList none = .ok answer ∧
      Node.Planted true { id := space.freshMethodId, callback? := none } (Unused {} run)
        ["a".toList] space.root answer.2.root ∧
      Node.SameOff ["a".toList] space.root answer.2.root) ∧
    (∃ target root, space.unregister "/a/b".toList = (true, { space with root }) ∧
      Node.Withdrawn ["a".toList, "b".toList] target space.root root) ∧
    ∀ later, ⟨1⟩ ∉ (after {} (run ++ [operation] ++ later)).nodeIds := by
  intro run operation space space'
  obtain ⟨hids, hregister, hunregister, -, hgone⟩ := frame_after {} run
  obtain ⟨node, hnode, hid⟩ : ∃ node, space.root.at? ["a".toList] = some node ∧ node.id = ⟨1⟩ :=
    Option.map_eq_some_iff.1 (by decide +kernel)
  obtain ⟨node', hnode', -⟩ : ∃ node, space'.root.at? ["a".toList] = some node ∧ node.id = ⟨4⟩ :=
    Option.map_eq_some_iff.1 (by decide +kernel)
  obtain ⟨inner, hinner, -⟩ : ∃ node, space.root.at? ["a".toList, "b".toList] = some node ∧
      node.id = ⟨2⟩ := Option.map_eq_some_iff.1 (by decide +kernel)
  obtain ⟨inner', hinner', -⟩ : ∃ node, space'.root.at? ["a".toList, "b".toList] = some node ∧
      node.id = ⟨2⟩ := Option.map_eq_some_iff.1 (by decide +kernel)
  obtain ⟨answer, hok⟩ : ∃ answer, space.register "/a".toList none = .ok answer := by
    have hsome : (space.register "/a".toList none).toOption.isSome = true := by decide +kernel
    cases hanswer : space.register "/a".toList none with
    | error e =>
      rw [hanswer] at hsome
      exact absurd hsome Bool.false_ne_true
    | ok answer => exact ⟨answer, rfl⟩
  obtain ⟨-, hplanted, hsame⟩ := hregister "/a".toList none answer.1 answer.2 hok
  refine ⟨⟨node, node', hnode, hnode', hid, ?_⟩, ⟨inner, inner', hinner, hinner', ?_⟩,
    ⟨answer, hok, hplanted, hsame⟩, ?_, fun later ↦ ?_⟩
  · exact (hids operation _ node node' hnode hnode').1
      ⟨by rw [config_after], ⟨answer, hok⟩, by decide⟩
  · exact (hids operation _ inner inner' hinner hinner').2
      fun hrenews ↦ absurd hrenews.2.2 (by decide)
  · obtain ⟨hnone, -⟩ | ⟨target, root, heq, -, -, hwithdrawn, -⟩ := hunregister "/a/b".toList
    · have hcontains : space.contains "/a/b".toList = true := by decide +kernel
      exact absurd (hnone.symm.trans hcontains) Bool.false_ne_true
    · exact ⟨target, root, heq, hwithdrawn⟩
  · exact hgone [operation] later ⟨1⟩ (by decide +kernel) (by decide +kernel)

end Space

end OscAddressing

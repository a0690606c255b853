import Mathlib.Data.Nat.PSub
import OscAddressing.Proofs.Space.Tidy
import OscAddressing.Proofs.Tree.Prune

/-!
# Unregistering with pruning

Unregistering a method with pruning does what unregistering it does, and then clears away the
containers that led to it alone: `pruning_after` says which these are, and that nothing else
changes. A method whose node has children leaves the node behind, and there is nothing to clear
away. Otherwise the node goes, and so does the longest dead end above it.

Pruning looks nodes up by their numbers on the path and detaches a subtree by force. The operation
that has no outcome when a number is out of range, or when there is nothing to detach, is
`unregisterAndPrune?`; it has the same outcome for every space and every text.
-/

namespace OscAddressing

/-! ### With every index checked -/

/-- The first names of a path, if there are so many. -/
def Path.upTo? (count : Nat) (path : Path) : Option Path :=
  if count ≤ path.length then some (path.take count) else none

namespace Node

variable {κ : Type u} {strict : Bool}

/-- Detach the dead chain at the end of a path, if it can be cut out and is there. -/
def pruned? (path : Path) (node : Node κ) : Option (Node κ) :=
  match along? path node with
  | none => some node
  | some nodes =>
    (nodes.length.psub (deadCount 0 nodes.reverse)).bind fun top ↦
      if top < path.length then (path.upTo? (top + 1)).bind fun chain ↦ node.detach? true chain
      else some node

/-- **Pruning never goes out of range**, and never misses what it detaches. -/
theorem pruned?_eq (path : Path) (node : Node κ) : node.pruned? path = some (node.pruned path) := by
  rw [pruned?]
  cases hnodes : along? path node with
  | none => rw [pruned, hnodes]
  | some nodes =>
    have hlength := length_along? hnodes
    have hcount := deadCount_le 0 nodes.reverse
    rw [List.length_reverse] at hcount
    have htop : nodes.length.psub (deadCount 0 nodes.reverse) =
        some (path.length - deadCount 0 nodes.reverse) := by
      rw [Nat.psub_eq_some]
      omega
    simp only [htop, Option.bind_some]
    rcases pruned_of_along? hnodes with ⟨hzero, hsame⟩ | ⟨hpos, hdetach⟩
    · rw [if_neg (by omega), hsame]
    · rw [if_pos (by omega), Path.upTo?, if_pos (by omega), Option.bind_some, hdetach]

end Node

namespace Space

variable {κ : Type u}

/-- Unregister the method at an address, and remove the containers that this leaves empty, if that
can be done with every index in range. -/
def unregisterAndPrune? (space : Space κ) (address : Text) : Option (Bool × Space κ) :=
  let path := Path.ofText address
  match space.unregisterPath path with
  | (false, space) => some (false, space)
  | (true, space) =>
    (path.length.psub 1).bind fun count ↦ (path.upTo? count).bind fun ancestors ↦
      (space.root.pruned? ancestors).map fun root ↦ (true, { space with root })

/-- **Unregistering with pruning never goes out of range.** -/
theorem unregisterAndPrune?_eq (space : Space κ) (address : Text) :
    space.unregisterAndPrune? address = some (space.unregisterAndPrune address) := by
  rw [unregisterAndPrune?, unregisterAndPrune]
  rcases unregisterPath_cases space (Path.ofText address) with ⟨-, heq⟩ | ⟨-, hpath, root, heq, -⟩
  · simp only [heq]
  · have hpos := List.length_pos_of_ne_nil hpath
    have hlast : (Path.ofText address).length.psub 1 = some ((Path.ofText address).length - 1) := by
      rw [Nat.psub_eq_some]
      omega
    simp only [heq, hlast, Option.bind_some, Path.upTo?, if_pos (Nat.sub_le _ 1), Node.pruned?_eq,
      Option.map_some, List.dropLast_eq_take]

end Space

/-! ### What is cleared away -/

namespace Node

variable {κ : Type u} {strict : Bool} {parents : Path} {last : Text} {target root plain : Node κ}

/-- **What unregistering with pruning makes of a tree**: `target` is the node of the method, and
`plain` is what unregistering alone makes of the tree. -/
structure ClearedAway (parents : Path) (last : Text) (target root plain pruned : Node κ) :
    Prop where
  /-- Where the node has children, nothing else happens. -/
  same : target.children ≠ [] → pruned = plain
  /-- Where it has none, the longest dead end above it is removed as well, and nothing else is. -/
  prunes : target.children = [] → ∃ top, Prunes parents top plain pruned ∧
    pruned.rows = root.rows.filter fun row ↦
      ¬(row.path <+: parents ++ [last] ∧ top < row.path.length)
  /-- Besides the node itself only such nodes go that have no method, and no child that does not
  lead on to it. -/
  dead : ∀ path inner, root.at? path = some inner → pruned.at? path = none →
    path <+: parents ++ [last] ∧ (path ≠ parents ++ [last] → inner.method? = none ∧
      ∀ child ∈ inner.children, path ++ [child.name] <+: parents ++ [last])
  /-- The other nodes keep their identities, methods and order. -/
  kept : (pruned.rows.filter fun row ↦ row.path ≠ parents ++ [last]).Sublist root.rows
  /-- No node above it is left over. -/
  inUse : ∀ path inner, path ≠ [] → path <+: parents → pruned.at? path = some inner →
    inner.children = [] → inner.isMethod = true

theorem clearedAway_of_detach? (h : root.Throughout (Orderly strict))
    (hchildless : target.children = [])
    (hdetach : root.detach? false (parents ++ [last]) = some plain) :
    ClearedAway parents last target root plain (plain.pruned parents) := by
  have horderly := h.detach? hdetach
  have horderly' := horderly.pruned parents
  obtain ⟨parent, hparent⟩ := exists_at?_of_detach? horderly hdetach
  obtain ⟨top, hprunes⟩ := exists_prunes horderly hparent
  have hrows := hprunes.rows_of_detach? h hdetach
  refine ⟨fun hchildren ↦ absurd hchildless hchildren, fun _ ↦ ⟨top, hprunes, hrows⟩,
    fun path inner ↦ hprunes.dead_of_gone h hdetach horderly', ?_, fun path inner hne hlead ↦
      hprunes.inUse horderly horderly' hparent hne hlead⟩
  rw [hrows]
  exact List.filter_sublist.trans List.filter_sublist

theorem clearedAway_of_demote? (h : root.Throughout (Orderly strict))
    (htarget : root.at? (parents ++ [last]) = some target) (hchildren : target.children ≠ [])
    (hdemote : root.demote? (parents ++ [last]) = some plain) :
    ClearedAway parents last target root plain (plain.pruned parents) := by
  have horderly := h.demote? hdemote
  obtain ⟨_, hwhole⟩ := (exists_at?_demote?_iff h hdemote).2 ⟨target, htarget⟩
  -- The nodes above still have children.
  have habove : ∀ path inner, path <+: parents → plain.at? path = some inner →
      inner.children ≠ [] := by
    intro path inner hlead hinner
    refine children_ne_nil_of_isPrefix hinner hwhole (hlead.trans (List.prefix_append ..)) ?_
    rintro rfl
    exact not_append_singleton_isPrefix _ _ hlead
  obtain ⟨parent, hparent⟩ := exists_at?_of_isPrefix hwhole (List.prefix_append parents [last])
  rw [pruned_of_children horderly hparent (habove parents parent (List.prefix_refl _) hparent)]
  refine ⟨fun _ ↦ rfl, fun hchildless ↦ absurd hchildless hchildren,
    fun path inner hinner hgone ↦ ?_, ?_, fun path inner _ hlead hinner hchildless ↦
      absurd hchildless (habove path inner hlead hinner)⟩
  · obtain ⟨_, hat⟩ := (exists_at?_demote?_iff h hdemote).2 ⟨inner, hinner⟩
    exact absurd (hgone.symm.trans hat) (by simp)
  · obtain ⟨id, method, left, right, hrows, hrows'⟩ := demote?_rows hdemote
    rw [hrows, hrows', List.filter_append, List.filter_cons_of_neg (by simp)]
    exact List.filter_sublist.append (List.filter_sublist.cons _)

end Node

namespace Space

variable {κ : Type u}

/-- **Unregistering a method with pruning**, in the space after any run, at any address that is
registered. It answers `true`, as unregistering alone does, and changes nothing but the tree, from
which it clears away what unregistering alone would leave of the way to the method. For no space
and no text is an index of it out of range. -/
theorem pruning_after (config : Config) (run : List (Operation κ)) :
    (∀ address, (after config run).contains address = true →
      ∃ parents last target plain pruned, Path.ofText address = parents ++ [last] ∧
        (after config run).root.at? (parents ++ [last]) = some target ∧
        (after config run).unregister address =
          (true, { after config run with root := plain }) ∧
        (after config run).unregisterAndPrune address =
          (true, { after config run with root := pruned }) ∧
        Node.ClearedAway parents last target (after config run).root plain pruned) ∧
    ∀ (space : Space κ) address,
      space.unregisterAndPrune? address = some (space.unregisterAndPrune address) := by
  have h := sound_after config run
  refine ⟨fun address hcontains ↦ ?_, unregisterAndPrune?_eq⟩
  obtain ⟨hpath, target, -, htarget, -⟩ := Node.exists_of_hasMethodAt hcontains
  obtain ⟨plain, heq, hcase⟩ := unregisterPath_cases_of_method hcontains htarget
  obtain ⟨parents, last, hsplit⟩ := (List.eq_nil_or_concat' _).resolve_left hpath
  have hprune : (after config run).unregisterAndPrune address =
      (true, { after config run with root := plain.pruned parents }) := by
    rw [unregisterAndPrune]
    simp only [heq]
    rw [hsplit, List.dropLast_concat]
  rw [hsplit] at htarget hcase
  refine ⟨parents, last, target, plain, _, hsplit, htarget, heq, hprune, ?_⟩
  rcases hcase with ⟨hchildless, hdetach⟩ | ⟨hchildren, hdemote⟩
  · exact Node.clearedAway_of_detach? h.orderly hchildless hdetach
  · exact Node.clearedAway_of_demote? h.orderly htarget hchildren hdemote

/-- Two containers go with the method that they led to. The one above them leads to another method
as well, and stays. -/
theorem pruning_after_chain :
    let space : Space Unit :=
      after {} [.register "/a/x".toList none, .register "/a/b/c/m".toList none]
    space.contains "/a/b/c/m".toList = true ∧
    ∃ target plain pruned,
      space.unregisterAndPrune "/a/b/c/m".toList = (true, { space with root := pruned }) ∧
      Node.ClearedAway ["a".toList, "b".toList, "c".toList] "m".toList target space.root plain
        pruned ∧
      pruned.rows.map Row.path = [[], ["a".toList], ["a".toList, "x".toList]] := by
  intro space
  have hcontains : space.contains "/a/b/c/m".toList = true := by decide +kernel
  have hrows : (space.unregisterAndPrune "/a/b/c/m".toList).2.root.rows.map Row.path =
      [[], ["a".toList], ["a".toList, "x".toList]] := by decide +kernel
  obtain ⟨parents, last, target, plain, pruned, hsplit, -, -, hprune, hcleared⟩ :=
    (pruning_after {} [.register "/a/x".toList none, .register "/a/b/c/m".toList none]).1
      "/a/b/c/m".toList hcontains
  have hpath : Path.ofText "/a/b/c/m".toList =
      ["a".toList, "b".toList, "c".toList] ++ ["m".toList] := by decide
  obtain ⟨rfl, heq⟩ := List.append_inj' (hsplit.symm.trans hpath) rfl
  obtain rfl := List.singleton_inj.1 heq
  rw [hprune] at hrows
  exact ⟨hcontains, target, plain, pruned, hprune, hcleared, hrows⟩

end Space

end OscAddressing

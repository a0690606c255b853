import OscAddressing.Proofs.Space.Registry
import OscAddressing.Space.Lookup

/-!
# What fails changes nothing

An operation that reports failure leaves the space as it was, tree and supplies, in the space after
any run: `failure_after`. For the ways of unregistering this is `unregisterPath_cases`; for a
registration it is that refusal comes before the first edit (`refusal?_eq_some_iff` says when, and
with which error). What needs the invariant of runs is that the answers are told apart: a
registration that is not refused never answers with the unmatchable identity
(`Sound.registerPath_ne_unmatchable`).

A registration that keeps the present method succeeds, and leaves the tree as it was all the same:
every node on the path is put back in its own place (`grown_of_kept`).
-/

namespace OscAddressing

/-! ### When a path is refused -/

/-- **A path is refused** for having no names, or for the leftmost name that has a fault. -/
theorem Name.refusal?_eq_some_iff {strict : Bool} {path : Path} {e : Error} :
    refusal? strict path = some e ↔
      (path = [] ∧ e = .emptyAddress) ∨
        ∃ left name right fault, path = left ++ name :: right ∧
          (∀ other ∈ left, isValid strict other = true) ∧ fault? strict name = some fault ∧
          e = .invalidName name fault := by
  cases path with
  | nil =>
    constructor
    · intro h
      exact .inl ⟨rfl, (Option.some.inj h).symm⟩
    · rintro (⟨-, rfl⟩ | ⟨left, name, right, _, hsplit, -⟩)
      · rfl
      · exact absurd hsplit (by simp)
  | cons first rest =>
    simp only [refusal?, List.findSome?_eq_some_iff, Option.map_eq_some_iff, Option.map_eq_none_iff,
      List.cons_ne_nil, false_and, false_or, isValid, Option.isNone_iff_eq_none]
    constructor
    · rintro ⟨left, name, right, hsplit, ⟨fault, hfault, rfl⟩, hleft⟩
      exact ⟨left, name, right, fault, hsplit, hleft, hfault, rfl⟩
    · rintro ⟨left, name, right, fault, hsplit, hleft, hfault, rfl⟩
      exact ⟨left, name, right, hsplit, ⟨fault, hfault, rfl⟩, hleft⟩

namespace Node

variable {κ : Type u}

/-! ### Keeping the method at a path -/

/-- Putting a child in its own place changes nothing. -/
theorem putChild_self {node child : Node κ} {name : Text} (h : node.child? name = some child) :
    node.putChild name child = node := by
  obtain ⟨left, right, hsplit, hput, -⟩ := exists_split_of_child? h
  have hchildren : (node.putChild name child).children = node.children :=
    (hput child).trans hsplit.symm
  obtain ⟨id, text, children, method?⟩ := node
  exact congrArg (fun children ↦ (⟨id, text, children, method?⟩ : Node κ)) hchildren

/-- **Where there is a method that is kept,** nothing grows, and the answer is its identity. -/
theorem grown_of_kept (method : Method κ) {path : Path} {present target : Node κ}
    {kept : Method κ} (htarget : present.at? path = some target)
    (hkept : target.method? = some kept) (serial : Nat) :
    grown false method path serial present.name (some present) = (kept.id, present) := by
  induction path generalizing present serial with
  | nil =>
    obtain rfl : present = target := Option.some.inj htarget
    simp [grown, settled, methodId?, hkept]
  | cons next rest ih =>
    obtain ⟨child, hchild, htarget⟩ := at?_cons_eq_some_iff.1 htarget
    have hgrown := ih htarget (serial + 1)
    rw [name_of_child? hchild] at hgrown
    rw [grown, Option.getD_some, hchild, hgrown]
    show (kept.id, present.putChild next child) = _
    rw [putChild_self hchild]

theorem place_of_kept (method : Method κ) {path : Path} {root target : Node κ} {kept : Method κ}
    (hpath : path ≠ []) (htarget : root.at? path = some target)
    (hkept : target.method? = some kept) (serial : Nat) :
    root.place false method serial path = (kept.id, root) := by
  cases path with
  | nil => exact absurd rfl hpath
  | cons name rest =>
    obtain ⟨child, hchild, htarget⟩ := at?_cons_eq_some_iff.1 htarget
    have hgrown := grown_of_kept method htarget hkept serial
    rw [name_of_child? hchild] at hgrown
    rw [place, hchild, hgrown]
    show (kept.id, root.putChild name child) = _
    rw [putChild_self hchild]

end Node

namespace Space

variable {κ : Type u}

/-! ### What each operation answers -/

theorem register_eq_error_iff {space : Space κ} {t : Text} {callback? : Option κ} {e : Error} :
    space.register t callback? = .error e ↔
      Name.refusal? space.config.strictNames (Path.ofText t) = some e := by
  rw [register]
  cases Name.refusal? space.config.strictNames (Path.ofText t) <;> simp

/-- **Only a refusal is answered with the unmatchable identity**: a new method has the identity that
was to be given next, and a method that is kept has one that was given before. -/
theorem Sound.registerPath_ne_unmatchable {space : Space κ} (h : space.Sound) {path : Path}
    (hpath : path ≠ []) (callback? : Option κ) :
    (space.registerPath path callback?).1 ≠ .unmatchable := by
  have hplacing := (placing_registerPath space hpath callback?).entries
  rw [← Node.methods_eq_entries_rows h.method?] at hplacing
  rcases hplacing with ⟨_, _, -, -, hanswer⟩ | ⟨-, _, _, _, -, -, hanswer⟩ |
    ⟨-, -, present, hpresent, hanswer⟩
  · rw [hanswer]
    exact nofun
  · rw [hanswer]
    exact nofun
  · obtain ⟨serial, -, hid⟩ := h.methodIds_lt _ hpresent
    rw [← hanswer, hid]
    exact nofun

theorem unregisterPath_of_false {space : Space κ} {path : Path}
    (h : (space.unregisterPath path).1 = false) : (space.unregisterPath path).2 = space := by
  rcases unregisterPath_cases space path with ⟨-, heq⟩ | ⟨-, -, root, heq, -⟩
  · rw [heq]
  · rw [heq] at h
    exact absurd h (by simp)

theorem unregisterAndPrune_of_false {space : Space κ} {t : Text}
    (h : (space.unregisterAndPrune t).1 = false) : (space.unregisterAndPrune t).2 = space := by
  have hpath : (space.unregisterPath (Path.ofText t)).1 = false →
      (space.unregisterPath (Path.ofText t)).2 = space := unregisterPath_of_false
  rw [unregisterAndPrune] at h ⊢
  rcases hanswer : space.unregisterPath (Path.ofText t) with ⟨_ | _, space'⟩
  · rw [hanswer] at hpath
    exact hpath rfl
  · rw [hanswer] at h
    exact absurd h (by simp)

theorem unregisterId_of_false {space : Space κ} {id : MethodId}
    (h : (space.unregisterId id).1 = false) : (space.unregisterId id).2 = space := by
  rw [unregisterId] at h ⊢
  cases hpath : space.root.pathOf? id with
  | none => rfl
  | some path =>
    rw [hpath] at h
    exact unregisterPath_of_false h

/-- **A registration that keeps the method at its address** answers with the identity of that
method, and every node stays as it was. -/
theorem Sound.register_of_kept {space : Space κ} (h : space.Sound) {t : Text}
    (hkeep : space.config.replaceExisting = false) (hcontains : space.contains t = true)
    (callback? : Option κ) :
    ∃ method space', (Path.canonical t, method) ∈ space.entries ∧
      space.register t callback? = .ok (method.id, space') ∧ space'.root = space.root := by
  obtain ⟨hpath, target, method, htarget, htaken⟩ := Node.exists_of_hasMethodAt hcontains
  have hmem : (Path.ofText t, method) ∈ space.root.methods :=
    (Node.mem_methods_iff h.orderly).2
      ⟨target, by rw [Node.descendant?, if_neg (by simpa using hpath), htarget], htaken⟩
  have hvalid := Node.valid_of_mem_methods h.orderly hmem
  have hplace := Node.place_of_kept ⟨space.freshMethodId, callback?⟩ hpath htarget htaken
    space.nextNode
  have hregister : space.registerPath (Path.ofText t) callback? =
      (method.id, { space with
        nextNode := space.nextNode + (Path.ofText t).length
        nextMethod := space.nextMethod + 1 }) := by
    rw [Space.registerPath, hkeep, hplace]
  refine ⟨method, (space.registerPath (Path.ofText t) callback?).2, ?_, ?_, by rw [hregister]⟩
  · rw [Path.canonical_eq_toText hpath]
    exact mem_entries_iff.2 ⟨_, hmem, rfl⟩
  · rw [register, Name.refusal?_eq_none_iff.2 ⟨hpath, hvalid⟩, hregister]

/-- **What fails changes nothing, in the space after any run.** A registration is answered with the
unmatchable identity when it is an error, and then, as when one of the ways of unregistering answers
that there was no method, the space is the same afterwards. A registration that keeps the method at
its address leaves the tree the same. The error is that the address has no segments, or it is the
fault of the leftmost segment that cannot name a node. -/
theorem failure_after (config : Config) (run : List (Operation κ)) :
    (∀ t callback?, ((after config run).registerD t callback?).1 = .unmatchable ↔
      ∃ e, (after config run).register t callback? = .error e) ∧
    (∀ t callback?, ((after config run).registerD t callback?).1 = .unmatchable →
      ((after config run).registerD t callback?).2 = after config run) ∧
    (∀ t, ((after config run).unregister t).1 = false →
      ((after config run).unregister t).2 = after config run) ∧
    (∀ t, ((after config run).unregisterAndPrune t).1 = false →
      ((after config run).unregisterAndPrune t).2 = after config run) ∧
    (∀ id, ((after config run).unregisterId id).1 = false →
      ((after config run).unregisterId id).2 = after config run) ∧
    (config.replaceExisting = false → ∀ t callback?, (after config run).contains t = true →
      ∃ method space, (Path.canonical t, method) ∈ (after config run).entries ∧
        (after config run).register t callback? = .ok (method.id, space) ∧
        space.root = (after config run).root) ∧
    ∀ t callback? e, (after config run).register t callback? = .error e ↔
      (Path.ofText t = [] ∧ e = .emptyAddress) ∨
        ∃ left name right fault, Path.ofText t = left ++ name :: right ∧
          (∀ other ∈ left, Name.isValid config.strictNames other = true) ∧
          Name.fault? config.strictNames name = some fault ∧ e = .invalidName name fault := by
  have h : (after config run).Sound := sound_after config run
  -- Of the two cases of a registration, the answer tells which one it was.
  have hanswer : ∀ t callback?,
      ((after config run).registerD t callback?).1 = .unmatchable →
        ∃ e, (after config run).register t callback? = .error e ∧
          (after config run).registerD t callback? = (.unmatchable, after config run) := by
    intro t callback? hunmatchable
    rcases registerD_cases (after config run) t callback? with hrefused | ⟨hpath, -, -, heq⟩
    · exact hrefused
    · rw [heq] at hunmatchable
      exact absurd hunmatchable (h.registerPath_ne_unmatchable hpath callback?)
  refine ⟨fun t callback? ↦ ⟨fun hunmatchable ↦ ?_, ?_⟩, fun t callback? hunmatchable ↦ ?_,
    fun t ↦ unregisterPath_of_false, fun t ↦ unregisterAndPrune_of_false,
    fun id ↦ unregisterId_of_false, fun hkeep t callback? hcontains ↦ ?_, fun t callback? e ↦ ?_⟩
  · obtain ⟨e, hregister, -⟩ := hanswer t callback? hunmatchable
    exact ⟨e, hregister⟩
  · rintro ⟨e, hregister⟩
    rw [registerD, hregister]
  · obtain ⟨-, -, heq⟩ := hanswer t callback? hunmatchable
    rw [heq]
  · have hconfig := congrArg Config.replaceExisting (config_after config run)
    exact h.register_of_kept (hconfig.trans hkeep) hcontains callback?
  · rw [register_eq_error_iff, config_after, Name.refusal?_eq_some_iff]

-- The segment before the invalid one is valid, and no container is created for it.
example : (after {} [.register "/a/b*c/d*e".toList none] : Space Unit).root.children.length =
    0 := by
  decide +kernel

end Space

end OscAddressing

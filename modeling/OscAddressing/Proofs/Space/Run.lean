import OscAddressing.Proofs.Tree.Place
import OscAddressing.Proofs.Tree.Withdraw
import OscAddressing.Space.Registration

/-!
# Runs of operations, and what every run keeps

A run is a list of operations on a fresh space (`Space.after`). `Sound` is the invariant of all
runs, `sound_after`: the root is a nameless container, the tree is orderly, and no identity of a
node or of a method occurs twice. The last two need the supplies: every identity in the tree is
below the supply that it came from, so a number taken from a supply is new.

What an operation can do is said once, in `step_cases`: it places a method at a path of valid
names, or it leaves a part of the rows in their order (`Shrunk`), or it begins a new tree. Each fact
about runs is read off these three.
-/

namespace OscAddressing

/-- An operation on a space that may change it. A registration that is refused changes nothing. -/
inductive Operation (κ : Type u)
  /-- Register a method at an address. -/
  | register (address : Text) (callback? : Option κ)
  /-- Unregister the method at an address. -/
  | unregister (address : Text)
  /-- Unregister the method at an address, and remove the containers left empty. -/
  | unregisterAndPrune (address : Text)
  /-- Unregister the method of a given identity. -/
  | unregisterId (id : MethodId)
  /-- Remove everything. -/
  | clear

namespace Node

variable {κ : Type u}

/-! ### Edits that only remove -/

/-- What is left of a tree when parts of it are removed. -/
structure Shrunk (node node' : Node κ) : Prop where
  sameRoot : SameRoot node node'
  orderly : ∀ {strict}, node.Throughout (Orderly strict) → node'.Throughout (Orderly strict)
  /-- The nodes that are left are where they were, in their order. -/
  places : (node'.rows.map fun row ↦ (row.path, row.id)).Sublist
    (node.rows.map fun row ↦ (row.path, row.id))
  /-- So are the methods. -/
  entries : (Row.entries node'.rows).Sublist (Row.entries node.rows)

theorem Shrunk.refl (node : Node κ) : Shrunk node node :=
  ⟨.refl node, fun horderly ↦ horderly, .refl _, .refl _⟩

theorem Shrunk.trans {first second third : Node κ} (h : Shrunk first second)
    (h' : Shrunk second third) : Shrunk first third where
  sameRoot := h.sameRoot.trans h'.sameRoot
  orderly horderly := h'.orderly (h.orderly horderly)
  places := h'.places.trans h.places
  entries := h'.entries.trans h.entries

/-- The identities that are left are in their order. -/
theorem Shrunk.ids {node node' : Node κ} (h : Shrunk node node') :
    (node'.rows.map Row.id).Sublist (node.rows.map Row.id) := by
  have hids := h.places.map Prod.snd
  rwa [List.map_map, List.map_map] at hids

theorem shrunk_detach? {force : Bool} {path : Path} {node node' : Node κ}
    (h : node.detach? force path = some node') : Shrunk node node' := by
  have hsub := sublist_rows_detach? h
  exact ⟨sameRoot_detach? h, fun horderly ↦ horderly.detach? h, hsub.map _, hsub.filterMap _⟩

theorem shrunk_demote? {path : Path} {node node' : Node κ} (hpath : path ≠ [])
    (h : node.demote? path = some node') : Shrunk node node' := by
  obtain ⟨id, method, left, right, hrows, hrows'⟩ := demote?_rows h
  refine ⟨sameRoot_demote? hpath h, fun horderly ↦ horderly.demote? h, ?_, ?_⟩
  · rw [hrows, hrows']
    simp
  · rw [hrows, hrows', Row.entries_append, Row.entries_append]
    exact (List.sublist_cons_self (path, method) (Row.entries right)).append_left _

theorem shrunk_pruned (path : Path) (node : Node κ) : Shrunk node (node.pruned path) := by
  have hsub := sublist_rows_pruned path node
  exact ⟨sameRoot_pruned path node, fun horderly ↦ horderly.pruned path, hsub.map _,
    hsub.filterMap _⟩

/-- Of a root without a method, all methods are below it. -/
theorem methods_eq_entries_rows {node : Node κ} (h : node.method? = none) :
    node.methods = Row.entries node.rows := by
  rw [entries_rows, h]
  rfl

end Node

namespace Space

variable {κ : Type u}

/-! ### Runs -/

/-- The space after an operation. -/
def step (space : Space κ) : Operation κ → Space κ
  | .register address callback? => (space.registerD address callback?).2
  | .unregister address => (space.unregister address).2
  | .unregisterAndPrune address => (space.unregisterAndPrune address).2
  | .unregisterId id => (space.unregisterId id).2
  | .clear => space.clear

/-- The space after a run of operations on a fresh space. -/
def after (config : Config) (run : List (Operation κ)) : Space κ := run.foldl step (.empty config)

theorem after_append (config : Config) (run more : List (Operation κ)) :
    after config (run ++ more) = more.foldl step (after config run) :=
  List.foldl_append

/-- **The invariant of all runs.** -/
structure Sound (space : Space κ) : Prop where
  name : space.root.name = []
  method? : space.root.method? = none
  orderly : space.root.Throughout (Node.Orderly space.config.strictNames)
  nodup_ids : (space.root.rows.map Row.id).Nodup
  /-- The numbers of nodes from `nextNode` on are unused. -/
  ids_lt : ∀ row ∈ space.root.rows, row.id.serial < space.nextNode
  nodup_methodIds : (space.root.methods.map fun entry ↦ entry.2.id).Nodup
  /-- The numbers of methods from `nextMethod` on are unused. -/
  methodIds_lt : ∀ entry ∈ space.root.methods,
    ∃ serial < space.nextMethod, entry.2.id = .issued serial

/-! ### Spec of each operation -/

/-- **A registration** is refused and changes nothing, or it is a placing at a path of valid names.
-/
theorem registerD_cases (space : Space κ) (address : Text) (callback? : Option κ) :
    (∃ e, space.register address callback? = .error e ∧
      space.registerD address callback? = (.unmatchable, space)) ∨
    Path.ofText address ≠ [] ∧
      (∀ name ∈ Path.ofText address, Name.isValid space.config.strictNames name = true) ∧
      space.register address callback? = .ok (space.registerPath (Path.ofText address) callback?) ∧
      space.registerD address callback? = space.registerPath (Path.ofText address) callback? := by
  cases hrefusal : Name.refusal? space.config.strictNames (Path.ofText address) with
  | some e =>
    have hregister : space.register address callback? = .error e := by
      simp only [register, hrefusal]
    exact .inl ⟨e, hregister, by rw [registerD, hregister]⟩
  | none =>
    have hregister : space.register address callback? =
        .ok (space.registerPath (Path.ofText address) callback?) := by
      simp only [register, hrefusal]
    obtain ⟨hpath, hvalid⟩ := Name.refusal?_eq_none_iff.1 hrefusal
    exact .inr ⟨hpath, hvalid, hregister, by rw [registerD, hregister]⟩

/-- **Unregistering at a path** that leads to a method detaches the node there, when it has no
children, and takes its method otherwise; at any other path it does nothing. -/
theorem unregisterPath_cases (space : Space κ) (path : Path) :
    (space.root.hasMethodAt path = false ∧ space.unregisterPath path = (false, space)) ∨
    space.root.hasMethodAt path = true ∧ path ≠ [] ∧
      ∃ root, space.unregisterPath path = (true, { space with root }) ∧
        (space.root.detach? false path = some root ∨ space.root.demote? path = some root) := by
  rw [unregisterPath]
  cases hmethod : space.root.hasMethodAt path with
  | false => exact .inl ⟨rfl, rfl⟩
  | true =>
    obtain ⟨hpath, target, method, htarget, htaken⟩ := Node.exists_of_hasMethodAt hmethod
    refine .inr ⟨rfl, hpath, ?_⟩
    rw [if_pos rfl]
    cases hdetach : space.root.detach? false path with
    | some root => exact ⟨root, rfl, .inl rfl⟩
    | none =>
      obtain ⟨root, hdemote⟩ := Node.exists_demote? htarget htaken
      rw [hdemote]
      exact ⟨root, rfl, .inr rfl⟩

theorem shrunk_unregisterPath (space : Space κ) (path : Path) :
    ∃ root, (space.unregisterPath path).2 = { space with root } ∧ Node.Shrunk space.root root := by
  rcases unregisterPath_cases space path with ⟨-, heq⟩ | ⟨-, hpath, root, heq, hdetach | hdemote⟩
  · exact ⟨space.root, by rw [heq], .refl _⟩
  · exact ⟨root, by rw [heq], Node.shrunk_detach? hdetach⟩
  · exact ⟨root, by rw [heq], Node.shrunk_demote? hpath hdemote⟩

theorem shrunk_unregisterAndPrune (space : Space κ) (address : Text) :
    ∃ root, (space.unregisterAndPrune address).2 = { space with root } ∧
      Node.Shrunk space.root root := by
  obtain ⟨root, heq, hshrunk⟩ := shrunk_unregisterPath space (Path.ofText address)
  rw [unregisterAndPrune]
  rcases hanswer : space.unregisterPath (Path.ofText address) with ⟨_ | _, space'⟩
  · rw [hanswer] at heq
    exact ⟨root, heq, hshrunk⟩
  · rw [hanswer] at heq
    obtain rfl : space' = { space with root } := heq
    exact ⟨_, rfl, hshrunk.trans (Node.shrunk_pruned ..)⟩

theorem shrunk_unregisterId (space : Space κ) (id : MethodId) :
    ∃ root, (space.unregisterId id).2 = { space with root } ∧ Node.Shrunk space.root root := by
  rw [unregisterId]
  cases space.root.pathOf? id with
  | none => exact ⟨space.root, rfl, .refl _⟩
  | some path => exact shrunk_unregisterPath ..

/-- **What an operation can do**: place a method, leave a part of the tree, or begin a new one. -/
theorem step_cases (space : Space κ) (operation : Operation κ) :
    (∃ path callback?, path ≠ [] ∧
      (∀ name ∈ path, Name.isValid space.config.strictNames name = true) ∧
      space.step operation = (space.registerPath path callback?).2) ∨
    (∃ root, space.step operation = { space with root } ∧ Node.Shrunk space.root root) ∨
    space.step operation = space.clear := by
  cases operation with
  | register address callback? =>
    rcases registerD_cases space address callback? with ⟨e, -, heq⟩ | ⟨hpath, hvalid, -, heq⟩
    · exact .inr (.inl ⟨space.root, by rw [step, heq], .refl _⟩)
    · exact .inl ⟨_, callback?, hpath, hvalid, by rw [step, heq]⟩
  | unregister address => exact .inr (.inl (shrunk_unregisterPath ..))
  | unregisterAndPrune address => exact .inr (.inl (shrunk_unregisterAndPrune ..))
  | unregisterId id => exact .inr (.inl (shrunk_unregisterId ..))
  | clear => exact .inr (.inr rfl)

/-! ### The configuration stays, and numbers of methods are given in order -/

/-- **No operation changes the configuration.** -/
theorem config_step (space : Space κ) (operation : Operation κ) :
    (space.step operation).config = space.config := by
  rcases step_cases space operation with ⟨path, callback?, -, -, heq⟩ | ⟨root, heq, -⟩ | heq
  · rw [heq]
    rfl
  · rw [heq]
  · rw [heq]
    rfl

theorem nextMethod_le_step (space : Space κ) (operation : Operation κ) :
    space.nextMethod ≤ (space.step operation).nextMethod := by
  rcases step_cases space operation with ⟨path, callback?, -, -, heq⟩ | ⟨root, heq, -⟩ | heq
  · rw [heq]
    exact Nat.le_succ _
  · rw [heq]
  · rw [heq]
    exact Nat.le_refl _

/-- What no operation lowers, no run lowers. -/
theorem le_foldl {measure : Space κ → Nat}
    (hstep : ∀ (space : Space κ) operation, measure space ≤ measure (space.step operation))
    (space : Space κ) (run : List (Operation κ)) :
    measure space ≤ measure (run.foldl step space) := by
  induction run generalizing space with
  | nil => exact Nat.le_refl _
  | cons operation run ih => exact (hstep space operation).trans (ih _)

theorem nextMethod_le_foldl (space : Space κ) (run : List (Operation κ)) :
    space.nextMethod ≤ (run.foldl step space).nextMethod :=
  le_foldl nextMethod_le_step space run

@[simp] theorem config_after (config : Config) (run : List (Operation κ)) :
    (after config run).config = config := by
  have hfoldl : ∀ space : Space κ, (run.foldl step space).config = space.config := by
    induction run with
    | nil => exact fun _ ↦ rfl
    | cons operation run ih => exact fun space ↦ (ih _).trans (config_step space operation)
  exact hfoldl _

/-! ### Every operation keeps the invariant -/

theorem Sound.of_shrunk {space : Space κ} (h : space.Sound) {root : Node κ}
    (hshrunk : Node.Shrunk space.root root) : Sound { space with root } := by
  have hmethod : root.method? = none := hshrunk.sameRoot.method?.trans h.method?
  have hmethods : root.methods.Sublist space.root.methods := by
    rw [Node.methods_eq_entries_rows hmethod, Node.methods_eq_entries_rows h.method?]
    exact hshrunk.entries
  refine ⟨hshrunk.sameRoot.name.trans h.name, hmethod, hshrunk.orderly h.orderly,
    hshrunk.ids.nodup h.nodup_ids, ?_, (hmethods.map _).nodup h.nodup_methodIds,
    fun entry hentry ↦ h.methodIds_lt entry (hmethods.subset hentry)⟩
  intro row hrow
  obtain ⟨row', hrow', heq⟩ := List.mem_map.1 (hshrunk.ids.subset (List.mem_map_of_mem hrow))
  exact heq ▸ h.ids_lt row' hrow'

theorem sound_of_bare (config : Config) {id nextNode : Nat} (nextMethod : Nat)
    (hid : id < nextNode) :
    Sound ({ root := .bare ⟨id⟩ [], config, nextNode, nextMethod } : Space κ) := by
  have hrows : (Node.bare ⟨id⟩ [] : Node κ).rows = [⟨[], ⟨id⟩, none⟩] := by
    rw [Node.rows_eq]
    rfl
  have hmethods : (Node.bare ⟨id⟩ [] : Node κ).methods = [] := by
    rw [Node.methods_eq]
    rfl
  refine ⟨rfl, rfl, Node.throughout_of_childless rfl, ?_, ?_, ?_, ?_⟩
  · simp [hrows]
  · simpa [hrows] using hid
  · simp [hmethods]
  · simp [hmethods]

/-- What a registration places, with the numbers of the space. -/
theorem placing_registerPath (space : Space κ) {path : Path} (hpath : path ≠ [])
    (callback? : Option κ) :
    Node.Placing space.config.replaceExisting { id := space.freshMethodId, callback? }
      space.nextNode (space.nextNode + path.length) path space.root.rows
      (space.registerPath path callback?).1 (space.registerPath path callback?).2.root.rows :=
  Node.placing_place hpath space.root space.nextNode

/-- **No method of a sound space has the identity that the next one will get.** -/
theorem Sound.ne_freshMethodId {space : Space κ} (h : space.Sound) {entry : Path × Method κ}
    (hentry : entry ∈ space.root.methods) : entry.2.id ≠ space.freshMethodId := by
  obtain ⟨serial, hlt, heq⟩ := h.methodIds_lt entry hentry
  rw [heq, freshMethodId]
  exact fun hsame ↦ absurd (MethodId.issued.inj hsame) (Nat.ne_of_lt hlt)

theorem Sound.registerPath {space : Space κ} (h : space.Sound) {path : Path} (hpath : path ≠ [])
    (hvalid : ∀ name ∈ path, Name.isValid space.config.strictNames name = true)
    (callback? : Option κ) : (space.registerPath path callback?).2.Sound := by
  have hplacing := placing_registerPath space hpath callback?
  have hsame : Node.SameRoot space.root (space.registerPath path callback?).2.root :=
    Node.sameRoot_place ..
  have hmethod := hsame.method?.trans h.method?
  -- The node numbers that are given begin at the supply, and the supply moves past them.
  refine ⟨hsame.name.trans h.name, hmethod, h.orderly.place hvalid,
    hplacing.nodup_ids h.nodup_ids h.ids_lt, hplacing.lt_limit (Nat.le_add_right ..) h.ids_lt,
    ?_, ?_⟩
  · show ((space.registerPath path callback?).2.root.methods.map fun entry ↦ entry.2.id).Nodup
    have hnew := fun entry (hentry : entry ∈ space.root.methods) ↦ h.ne_freshMethodId hentry
    have hnodup := h.nodup_methodIds
    rw [Node.methods_eq_entries_rows h.method?] at hnew hnodup
    rw [Node.methods_eq_entries_rows hmethod]
    exact hplacing.nodup_methodIds hnodup hnew
  · intro entry hentry
    rw [Node.methods_eq_entries_rows hmethod] at hentry
    rcases hplacing.mem_entries hentry with rfl | hold
    · exact ⟨space.nextMethod, Nat.lt_succ_self _, rfl⟩
    · rw [← Node.methods_eq_entries_rows h.method?] at hold
      obtain ⟨serial, hlt, heq⟩ := h.methodIds_lt entry hold
      exact ⟨serial, Nat.lt_succ_of_lt hlt, heq⟩

/-- **One operation keeps the invariant.** -/
theorem Sound.step {space : Space κ} (h : space.Sound) (operation : Operation κ) :
    (space.step operation).Sound := by
  rcases step_cases space operation with ⟨path, callback?, hpath, hvalid, heq⟩ |
    ⟨root, heq, hshrunk⟩ | heq
  · exact heq ▸ h.registerPath hpath hvalid callback?
  · exact heq ▸ h.of_shrunk hshrunk
  · exact heq ▸ sound_of_bare _ _ (Nat.lt_succ_self _)

theorem Sound.foldl {space : Space κ} (h : space.Sound) (run : List (Operation κ)) :
    (run.foldl Space.step space).Sound := by
  induction run generalizing space with
  | nil => exact h
  | cons operation run ih => exact ih (h.step operation)

/-- **Every run keeps the invariant.** -/
theorem sound_after (config : Config) (run : List (Operation κ)) : (after config run).Sound :=
  (sound_of_bare config 0 Nat.zero_lt_one).foldl run

end Space

end OscAddressing

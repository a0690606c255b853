import OscAddressing.Proofs.Address.Path
import OscAddressing.Proofs.Space.Run

/-!
# A space is an ordered registry

What a user of a space sees is the list of its entries, the registered methods with their addresses
in the order of the tree. Each operation has its meaning as a change of this list: a registration
inserts one entry, or replaces one in its place, or keeps the list (`Entered`); an unregistration
takes the one entry that it is asked for out (`TakenOut`). Everything else about the tree, such as
containers and the nodes that are moved when one is replaced, is invisible here.

`registry_after` states this for every operation in the space after any run. On the way, entries are
paths with methods; the step to addresses is `toText_eq_canonical_iff`.
-/

namespace OscAddressing

variable {κ : Type u}

/-! ### Changes of a list of entries -/

/-- **What registering a method makes of a list of entries**, with the identity that is answered. -/
inductive Entered (replace : Bool) (address : Text) (method : Method κ) :
    List (Text × Method κ) → MethodId → List (Text × Method κ) → Prop
  /-- There was no entry for the address: a new one comes somewhere between the others. -/
  | inserted (left right : List (Text × Method κ)) :
      address ∉ (left ++ right).map Prod.fst →
        Entered replace address method (left ++ right) method.id
          (left ++ (address, method) :: right)
  /-- The entry for the address gets the new method. -/
  | replaced (left right : List (Text × Method κ)) (old : Method κ) :
      replace = true →
        Entered replace address method (left ++ (address, old) :: right) method.id
          (left ++ (address, method) :: right)
  /-- There is an entry for the address, and it stays. -/
  | kept (entries : List (Text × Method κ)) (present : Method κ) :
      replace = false → (address, present) ∈ entries →
        Entered replace address method entries present.id entries

/-- **What unregistering makes of a list of entries**, with the answer: an entry that is `wanted`
goes, or there is none and nothing changes. -/
def TakenOut {α : Type*} (wanted : α → Prop) (before : List α) (found : Bool) (after : List α) :
    Prop :=
  (found = true ∧ ∃ left entry right, wanted entry ∧ before = left ++ entry :: right ∧
    after = left ++ right) ∨
  (found = false ∧ (∀ entry ∈ before, ¬wanted entry) ∧ after = before)

theorem TakenOut.map {α β : Type*} {f : α → β} {wanted : α → Prop} {wanted' : β → Prop}
    {before after : List α} {found : Bool} (h : TakenOut wanted before found after)
    (hwanted : ∀ entry ∈ before, wanted entry ↔ wanted' (f entry)) :
    TakenOut wanted' (before.map f) found (after.map f) := by
  rcases h with ⟨rfl, left, entry, right, hentry, rfl, rfl⟩ | ⟨rfl, hnone, rfl⟩
  · refine .inl ⟨rfl, left.map f, f entry, right.map f, ?_, List.map_append, List.map_append⟩
    exact (hwanted entry (by simp)).1 hentry
  · refine .inr ⟨rfl, fun entry' hentry' ↦ ?_, rfl⟩
    obtain ⟨entry, hentry, rfl⟩ := List.mem_map.1 hentry'
    exact fun h ↦ hnone entry hentry ((hwanted entry hentry).2 h)

namespace Space

/-- The registered methods with their addresses, in the order of the tree. -/
def entries (space : Space κ) : List (Text × Method κ) :=
  space.root.methods.map fun entry ↦ (Path.toText entry.1, entry.2)

theorem mem_entries_iff {space : Space κ} {address : Text} {method : Method κ} :
    (address, method) ∈ space.entries ↔
      ∃ path, (path, method) ∈ space.root.methods ∧ Path.toText path = address := by
  simp [entries]

/-! ### Unregistering -/

theorem Sound.nodup_paths {space : Space κ} (h : space.Sound) :
    (space.root.methods.map Prod.fst).Nodup :=
  Node.nodup_methods h.orderly

/-- **Unregistering at a path** takes out the entry of the path. -/
theorem Sound.takenOut_unregisterPath {space : Space κ} (h : space.Sound) (path : Path) :
    TakenOut (fun entry ↦ entry.1 = path) space.root.methods (space.unregisterPath path).1
      (space.unregisterPath path).2.root.methods := by
  rcases unregisterPath_cases space path with ⟨hmethod, heq⟩ | ⟨hmethod, hpath, root, heq, hcase⟩
  · rw [heq]
    refine .inr ⟨rfl, fun entry hentry hentry' ↦ ?_, rfl⟩
    have hmem := (Node.hasMethodAt_iff h.orderly).2 (List.mem_map_of_mem hentry)
    rw [hentry', hmethod] at hmem
    exact Bool.false_ne_true hmem
  · have hshrunk : Node.Shrunk space.root root := by
      rcases hcase with hdetach | hdemote
      · exact Node.shrunk_detach? hdetach
      · exact Node.shrunk_demote? hpath hdemote
    rw [heq, Node.methods_eq_entries_rows h.method?,
      Node.methods_eq_entries_rows (hshrunk.sameRoot.method?.trans h.method?)]
    refine .inl ⟨rfl, ?_⟩
    rcases hcase with hdetach | hdemote
    · obtain ⟨target, left, right, htarget, hbefore, hafter⟩ := Node.detach?_entries hdetach
      obtain ⟨-, target', method, htarget', htaken⟩ := Node.exists_of_hasMethodAt hmethod
      obtain rfl : target = target' := Option.some.inj (htarget.symm.trans htarget')
      rw [htaken] at hbefore
      exact ⟨left, (path, method), right, rfl, by simpa using hbefore, hafter⟩
    · obtain ⟨method, left, right, hbefore, hafter⟩ := Node.demote?_entries hdemote
      exact ⟨left, (path, method), right, rfl, hbefore, hafter⟩

theorem Sound.takenOut_unregisterAndPrune {space : Space κ} (h : space.Sound) (address : Text) :
    TakenOut (fun entry ↦ entry.1 = Path.ofText address) space.root.methods
      (space.unregisterAndPrune address).1 (space.unregisterAndPrune address).2.root.methods := by
  have htaken := h.takenOut_unregisterPath (Path.ofText address)
  obtain ⟨root, heq, hshrunk⟩ := shrunk_unregisterPath space (Path.ofText address)
  rw [unregisterAndPrune]
  rcases hanswer : space.unregisterPath (Path.ofText address) with ⟨_ | _, space'⟩
  · rw [hanswer] at htaken
    exact htaken
  · rw [hanswer] at htaken heq
    obtain rfl : space' = { space with root } := heq
    -- What is pruned away carries no method.
    have hmethod := hshrunk.sameRoot.method?.trans h.method?
    have hpruned := (Node.sameRoot_pruned (Path.ofText address).dropLast root).method?
    have hsame : (root.pruned (Path.ofText address).dropLast).methods = root.methods := by
      rw [Node.methods_eq_entries_rows (hpruned.trans hmethod), Node.entries_pruned,
        Node.methods_eq_entries_rows hmethod]
    show TakenOut _ _ _ (root.pruned (Path.ofText address).dropLast).methods
    rw [hsame]
    exact htaken

/-- **Unregistering by identity** takes out the entry of that identity. -/
theorem Sound.takenOut_unregisterId {space : Space κ} (h : space.Sound) (id : MethodId) :
    TakenOut (fun entry ↦ entry.2.id = id) space.root.methods (space.unregisterId id).1
      (space.unregisterId id).2.root.methods := by
  rw [unregisterId, Node.pathOf?_eq]
  cases hfind : space.root.methods.find? fun entry ↦ entry.2.id = id with
  | none =>
    refine .inr ⟨rfl, fun entry hentry heq ↦ ?_, rfl⟩
    exact List.find?_eq_none.1 hfind entry hentry (decide_eq_true heq)
  | some first =>
    obtain ⟨path, method⟩ := first
    have hmem := List.mem_of_find?_eq_some hfind
    have hid : method.id = id := by simpa using List.find?_some hfind
    rcases h.takenOut_unregisterPath path with ⟨hfound, left, entry, right, hentry, hrest⟩ |
      ⟨-, hnone, -⟩
    · -- The entry that goes is the one that was found, since no other has its path.
      have hsame : entry = (path, method) :=
        List.inj_on_of_nodup_map h.nodup_paths (by rw [hrest.1]; simp) hmem hentry
      exact .inl ⟨hfound, left, entry, right, by rw [hsame]; exact hid, hrest⟩
    · exact absurd rfl (hnone _ hmem)

/-! ### Registering -/

/-- No name on the way to a method has a separator, and none is empty. -/
theorem Sound.plain {space : Space κ} (h : space.Sound) {entry : Path × Method κ}
    (hentry : entry ∈ space.root.methods) :
    Path.Plain entry.1 ∧ entry.1 ≠ [] ∧ entry.1 ≠ [[]] := by
  have hvalid := Node.valid_of_mem_methods h.orderly hentry
  refine ⟨fun name hname ↦ (Name.isValid_iff.1 (hvalid name hname)).2.1,
    Node.path_ne_nil_of_mem_methods hentry, fun heq ↦ ?_⟩
  exact (Name.isValid_iff.1 (hvalid [] (by rw [heq]; exact List.mem_singleton_self _))).1 rfl

/-- The entry of an address is the method at its path. -/
theorem Sound.toText_eq_canonical_iff {space : Space κ} (h : space.Sound) (t : Text) :
    ∀ entry ∈ space.root.methods,
      entry.1 = Path.ofText t ↔ Path.toText entry.1 = Path.canonical t := by
  intro entry hentry
  obtain ⟨hplain, hnil, hname⟩ := h.plain hentry
  exact (Path.toText_eq_canonical_iff hplain hname hnil).symm

/-- An address without an entry at its path has none in the list of entries. -/
theorem Sound.toText_not_mem {space : Space κ} (h : space.Sound) {path : Path}
    (hvalid : ∀ name ∈ path, Name.isValid space.config.strictNames name = true)
    (hpath : path ∉ space.root.methods.map Prod.fst) :
    Path.toText path ∉ space.entries.map Prod.fst := by
  rw [entries, List.map_map]
  intro hmem
  obtain ⟨entry, hentry, heq⟩ := List.mem_map.1 hmem
  have hplain : Path.Plain path := fun name hname ↦ (Name.isValid_iff.1 (hvalid name hname)).2.1
  have hsame : entry.1 = path := Path.toText_injOn (h.plain hentry).1 hplain heq
  exact hpath (List.mem_map.2 ⟨entry, hentry, hsame⟩)

/-- **Registering at a path** enters the new method for its address. -/
theorem Sound.entered_registerPath {space : Space κ} (h : space.Sound) {path : Path}
    (hpath : path ≠ []) (hvalid : ∀ name ∈ path, Name.isValid space.config.strictNames name = true)
    (callback? : Option κ) :
    Entered space.config.replaceExisting (Path.toText path) ⟨space.freshMethodId, callback?⟩
      space.entries (space.registerPath path callback?).1
      (space.registerPath path callback?).2.entries := by
  have hspace := h.registerPath hpath hvalid callback?
  have hplacing := (placing_registerPath space hpath callback?).entries
  rw [← Node.methods_eq_entries_rows h.method?,
    ← Node.methods_eq_entries_rows hspace.method?] at hplacing
  rw [entries, entries]
  rcases hplacing with ⟨left, right, hbefore, hafter, hanswer⟩ |
    ⟨hreplace, left, old, right, hbefore, hafter, hanswer⟩ |
    ⟨hreplace, hafter, present, hpresent, hanswer⟩
  · -- If the path had an entry before, it would have two afterwards.
    have hnodup := hspace.nodup_paths
    rw [hafter, (List.perm_middle.map _).nodup_iff, List.map_cons, List.nodup_cons,
      ← hbefore] at hnodup
    have hnew := h.toText_not_mem hvalid hnodup.1
    rw [entries, hbefore, List.map_append] at hnew
    rw [hbefore, hafter, hanswer, List.map_append, List.map_append, List.map_cons]
    exact .inserted _ _ hnew
  · rw [hbefore, hafter, hanswer, List.map_append, List.map_append, List.map_cons, List.map_cons]
    exact .replaced _ _ old hreplace
  · rw [hafter, ← hanswer]
    exact .kept _ present hreplace (List.mem_map.2 ⟨_, hpresent, rfl⟩)

theorem Sound.nodup_addresses {space : Space κ} (h : space.Sound) :
    (space.entries.map Prod.fst).Nodup := by
  rw [entries, List.map_map]
  refine List.Nodup.map_on (fun entry hentry entry' hentry' heq ↦ ?_)
    (h.nodup_paths.of_map _)
  have hpath := Path.toText_injOn (h.plain hentry).1 (h.plain hentry').1 heq
  exact List.inj_on_of_nodup_map h.nodup_paths hentry hentry' hpath

/-! ### Every operation after every run -/

/-- **The numbers of methods are given once.** No method of an earlier state has the identity that
the next method will get. -/
theorem freshMethodId_not_mem (config : Config) (earlier later : List (Operation κ)) :
    (after config (earlier ++ later)).freshMethodId ∉
      (after config earlier).entries.map fun entry ↦ entry.2.id := by
  intro hmem
  rw [entries, List.map_map] at hmem
  obtain ⟨entry, hentry, heq⟩ := List.mem_map.1 hmem
  obtain ⟨serial, hlt, hid⟩ := (sound_after config earlier).methodIds_lt entry hentry
  have hle := nextMethod_le_foldl (after config earlier) later
  rw [← after_append] at hle
  have hsame : MethodId.issued serial = .issued (after config (earlier ++ later)).nextMethod :=
    hid.symm.trans heq
  have hserial := MethodId.issued.inj hsame
  omega

/-- **A space is an ordered registry, after any run.** Of its entries no address and no identity is
repeated. A registration is refused and changes nothing, or it is answered with an identity and
enters the method for the address, with an identity that is not the unmatchable one and that no
entry has or had. The three ways of unregistering take out the one entry that is asked for, and
answer whether there is one. Clearing takes out all. -/
theorem registry_after (config : Config) (run : List (Operation κ)) :
    ((after config run).entries.map Prod.fst).Nodup ∧
      ((after config run).entries.map fun entry ↦ entry.2.id).Nodup ∧
      (∀ t callback?,
        (∃ e, (after config run).register t callback? = .error e ∧
          (after config run).registerD t callback? = (.unmatchable, after config run)) ∨
        ∃ id space, (after config run).register t callback? = .ok (id, space) ∧
          (after config run).registerD t callback? = (id, space) ∧
          Entered config.replaceExisting (Path.canonical t)
            ⟨(after config run).freshMethodId, callback?⟩ (after config run).entries id
            space.entries) ∧
      (after config run).freshMethodId ≠ .unmatchable ∧
      (∀ earlier, earlier <+: run → (after config run).freshMethodId ∉
        (after config earlier).entries.map fun entry ↦ entry.2.id) ∧
      (∀ t, TakenOut (fun entry ↦ entry.1 = Path.canonical t) (after config run).entries
        ((after config run).unregister t).1 ((after config run).unregister t).2.entries) ∧
      (∀ t, TakenOut (fun entry ↦ entry.1 = Path.canonical t) (after config run).entries
        ((after config run).unregisterAndPrune t).1
        ((after config run).unregisterAndPrune t).2.entries) ∧
      (∀ id, TakenOut (fun entry ↦ entry.2.id = id) (after config run).entries
        ((after config run).unregisterId id).1 ((after config run).unregisterId id).2.entries) ∧
      (after config run).clear.entries = [] := by
  have h : (after config run).Sound := sound_after config run
  refine ⟨h.nodup_addresses, ?_, fun t callback? ↦ ?_, nofun, ?_, fun t ↦ ?_, fun t ↦ ?_,
    fun id ↦ ?_, ?_⟩
  · show ((after config run).entries.map fun entry ↦ entry.2.id).Nodup
    rw [entries, List.map_map]
    exact h.nodup_methodIds
  · rcases registerD_cases (after config run) t callback? with hrefused |
      ⟨hpath, hvalid, hregister, hregisterD⟩
    · exact .inl hrefused
    · have hentered := h.entered_registerPath hpath hvalid callback?
      rw [config_after, ← Path.canonical_eq_toText hpath] at hentered
      exact .inr ⟨_, _, hregister, hregisterD, hentered⟩
  · rintro earlier ⟨later, rfl⟩
    exact freshMethodId_not_mem config earlier later
  · exact (h.takenOut_unregisterPath (Path.ofText t)).map (h.toText_eq_canonical_iff t)
  · exact (h.takenOut_unregisterAndPrune t).map (h.toText_eq_canonical_iff t)
  · exact (h.takenOut_unregisterId id).map fun _ _ ↦ Iff.rfl
  · show (after config run).clear.root.methods.map _ = []
    have hmethods : (after config run).clear.root.methods = [] := by
      rw [Node.methods_eq]
      rfl
    rw [hmethods, List.map_nil]

-- The container at `/b` becomes a method where it stands, so its entry comes before `/b/c`.
example : (after {} [.register "/b/c".toList none, .register "/a".toList none,
    .register "/b".toList none] : Space Unit).entries.map (fun entry ↦ (entry.1, entry.2.id)) =
      [("/b".toList, .issued 2), ("/b/c".toList, .issued 0), ("/a".toList, .issued 1)] := by
  decide +kernel

end Space

end OscAddressing

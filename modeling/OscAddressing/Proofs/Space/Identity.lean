import OscAddressing.Proofs.Space.Exact
import OscAddressing.Proofs.Space.Failure

/-!
# The life of a method identity

An identity is given once. From the registration that answers with it on, its method is found under
one address and with one callback (`Found`), until an operation asks for exactly this method: one
that unregisters it, that replaces it, or that clears the space (`Operation.Spares` is that an
operation does not). From then on the identity leads nowhere (`Unresolved`), whatever happens next.

The first half is about entries: `Sound.mem_entries_step_iff` says of each operation which entries
it leaves. The second half rests on the supply of numbers: the only identity that an operation can
bring into a space is the next one (`Sound.holds_step`), so one that has been given, and is no
longer held, never comes back (`Sound.spent_step`). The unmatchable identity is not given at all.
-/

namespace OscAddressing

variable {κ : Type u}

/-- **The operation leaves the entry of a method alone**, in a space that replaces or does not. -/
def Operation.Spares (replace : Bool) (address : Text) (id : MethodId) : Operation κ → Prop
  | register t _ => replace = false ∨ Path.canonical t ≠ address
  | unregister t => Path.canonical t ≠ address
  | unregisterAndPrune t => Path.canonical t ≠ address
  | unregisterId other => other ≠ id
  | clear => False

instance (replace : Bool) (address : Text) (id : MethodId) :
    (operation : Operation κ) → Decidable (operation.Spares replace address id)
  | .register .. => inferInstanceAs (Decidable (_ ∨ _))
  | .unregister _ => inferInstanceAs (Decidable (_ ≠ _))
  | .unregisterAndPrune _ => inferInstanceAs (Decidable (_ ≠ _))
  | .unregisterId _ => inferInstanceAs (Decidable (_ ≠ _))
  | .clear => inferInstanceAs (Decidable False)

/-! ### What is left of a list of entries -/

/-- What is left when an entry is taken out is the others, if no other was wanted. -/
theorem TakenOut.mem_iff {α : Type*} {wanted : α → Prop} {before after : List α} {found : Bool}
    (h : TakenOut wanted before found after) (hnodup : before.Nodup)
    (hone : ∀ entry ∈ before, ∀ entry' ∈ before, wanted entry → wanted entry' → entry = entry')
    {entry : α} (hentry : entry ∈ before) : entry ∈ after ↔ ¬wanted entry := by
  rcases h with ⟨-, left, taken, right, htaken, rfl, rfl⟩ | ⟨-, hnone, rfl⟩
  · have hmem : taken ∈ left ++ taken :: right := by simp
    rw [List.nodup_middle, List.nodup_cons] at hnodup
    constructor
    · intro hleft hwanted
      exact hnodup.1 (hone entry hentry taken hmem hwanted htaken ▸ hleft)
    · intro hnot
      rw [List.perm_middle.mem_iff, List.mem_cons] at hentry
      exact hentry.resolve_left fun heq ↦ hnot (heq ▸ htaken)
  · exact iff_of_true hentry (hnone entry hentry)

/-- What is left when a method is entered for an address is the others, and the one that had the
address unless it is replaced. -/
theorem Entered.mem_iff {replace : Bool} {address : Text} {method : Method κ}
    {before after : List (Text × Method κ)} {answer : MethodId}
    (h : Entered replace address method before answer after)
    (hnodup : (before.map Prod.fst).Nodup) {entry : Text × Method κ} (hentry : entry ∈ before)
    (hne : entry.2.id ≠ method.id) :
    entry ∈ after ↔ replace = false ∨ address ≠ entry.1 := by
  cases h with
  | inserted left right hnew =>
    refine iff_of_true ?_ (.inr fun heq ↦ hnew (heq ▸ List.mem_map_of_mem hentry))
    rw [List.perm_middle.mem_iff]
    exact List.mem_cons_of_mem _ hentry
  | replaced left right old hreplace =>
    rw [(List.perm_middle.map _).nodup_iff, List.map_cons, List.nodup_cons] at hnodup
    rw [List.perm_middle.mem_iff, List.mem_cons] at hentry ⊢
    rcases hentry with rfl | hentry
    · refine iff_of_false (fun hmem ↦ ?_) (by simp [hreplace])
      rcases hmem with heq | hmem
      · exact hne (congrArg (fun entry ↦ entry.2.id) heq)
      · exact hnodup.1 (List.mem_map_of_mem hmem)
    · exact iff_of_true (.inr hentry)
        (.inr fun heq ↦ hnodup.1 (List.mem_map.2 ⟨entry, hentry, heq.symm⟩))
  | kept entries present hreplace hpresent => exact iff_of_true hentry (.inl hreplace)

namespace Space

/-! ### What becomes of an identity -/

/-- The identity is that of a method. -/
def Holds (space : Space κ) (id : MethodId) : Prop := ∃ entry ∈ space.entries, entry.2.id = id

instance (space : Space κ) (id : MethodId) : Decidable (space.Holds id) :=
  inferInstanceAs (Decidable (∃ entry ∈ space.entries, entry.2.id = id))

/-- **The identity leads nowhere**: no lookup answers with it, it has no address, there is nothing
to unregister, no message goes to it, and no registration is answered with it. -/
structure Unresolved (space : Space κ) (id : MethodId) : Prop where
  matched : ∀ pattern, id ∉ space.matched pattern
  lookup : ∀ t ids, space.lookup t = .ok ids → id ∉ ids
  lookupD : ∀ t, id ∉ space.lookupD t
  addressOf? : space.addressOf? id = none
  unregisterId : space.unregisterId id = (false, space)
  dispatch : ∀ {α : Type} (message : Message α) context,
    id ∉ (space.dispatch message context).methods ∧
      ∀ call ∈ (space.dispatch message context).calls, call.method ≠ id
  dispatchPacket : ∀ {α : Type} (packet : Packet α) context,
    id ∉ (space.dispatchPacket packet context).methods ∧
      ∀ call ∈ (space.dispatchPacket packet context).calls, call.method ≠ id
  register : ∀ t callback? id' space',
    space.register t callback? = .ok (id', space') → id' ≠ id

/-- **The identity leads nowhere any more**, whatever operations follow. -/
def Departed (space : Space κ) (id : MethodId) : Prop :=
  ∀ more : List (Operation κ), (more.foldl Space.step space).Unresolved id

/-- **The method is found** under its address, by its identity, and by every pattern that covers its
path, and by no other. -/
structure Found (space : Space κ) (address : Text) (method : Method κ) : Prop where
  entry : (address, method) ∈ space.entries
  addressOf? : space.addressOf? method.id = some address
  contains : space.contains address = true
  lookup : space.lookup address = .ok [method.id]
  lookupD : ∀ t, method.id ∈ space.lookupD t ↔ ∃ pattern, space.readPattern t = .ok pattern ∧
    AddressPattern.covers pattern.components (Path.ofText address) = true
  targets : ∀ t, method ∈ space.targets t ↔ ∃ pattern, space.readPattern t = .ok pattern ∧
    AddressPattern.covers pattern.components (Path.ofText address) = true
  dispatch : ∀ {α : Type} (arguments : List α) context,
    space.dispatch ⟨address, arguments⟩ context =
      ⟨[method.id], (method.callback?.map fun callback ↦
        ⟨method.id, callback, ⟨address, arguments⟩, context⟩).toList⟩
  unregisterId : (space.unregisterId method.id).1 = true

/-! ### Identities that are held -/

theorem holds_iff {space : Space κ} {id : MethodId} :
    space.Holds id ↔ ∃ entry ∈ space.root.methods, entry.2.id = id := by
  rw [Holds, entries]
  constructor
  · rintro ⟨_, hmem, hid⟩
    obtain ⟨entry, hentry, rfl⟩ := List.mem_map.1 hmem
    exact ⟨entry, hentry, hid⟩
  · rintro ⟨entry, hentry, hid⟩
    exact ⟨_, List.mem_map_of_mem hentry, hid⟩

theorem Sound.holds_of_mem_targets {space : Space κ} (h : space.Sound) {t : Text}
    {method : Method κ} (hmethod : method ∈ space.targets t) : space.Holds method.id := by
  obtain ⟨-, -, path, hmem, -⟩ := h.mem_targets_iff.1 hmethod
  exact holds_iff.2 ⟨(path, method), hmem, rfl⟩

theorem Sound.holds_of_mem_matched {space : Space κ} (h : space.Sound) {id : MethodId}
    {pattern : AddressPattern} (hmatched : id ∈ space.matched pattern) : space.Holds id := by
  rw [matched_eq_covered h] at hmatched
  obtain ⟨entry, hentry, heq⟩ := List.mem_map.1 hmatched
  exact holds_iff.2 ⟨entry, List.mem_of_mem_filter hentry, heq⟩

/-- The methods of a dispatch are held, and its calls are to methods that are. -/
theorem Sound.holds_of_dispatch {α : Type} {space : Space κ} (h : space.Sound)
    (message : Message α) (context : Context) :
    (∀ id ∈ (space.dispatch message context).methods, space.Holds id) ∧
      ∀ call ∈ (space.dispatch message context).calls, space.Holds call.method := by
  constructor
  · intro id hmem
    obtain ⟨method, hmethod, rfl⟩ := List.mem_map.1 hmem
    exact h.holds_of_mem_targets hmethod
  · intro call hcall
    obtain ⟨method, hmethod, heq⟩ := List.mem_filterMap.1 hcall
    obtain ⟨callback, -, rfl⟩ := Option.map_eq_some_iff.1 heq
    exact h.holds_of_mem_targets hmethod

/-- An identity that is not held has no path. -/
theorem pathOf?_eq_none {space : Space κ} {id : MethodId} (hnot : ¬space.Holds id) :
    space.root.pathOf? id = none := by
  have hnone : (space.root.methods.find? fun entry ↦ entry.2.id = id) = none :=
    List.find?_eq_none.2 fun entry hentry heq ↦
      hnot (holds_iff.2 ⟨entry, hentry, of_decide_eq_true heq⟩)
  rw [Node.pathOf?_eq, hnone]
  rfl

/-- **A registration that is not refused** is one at a path of valid names. -/
theorem registerPath_of_register {space space' : Space κ} {t : Text} {callback? : Option κ}
    {id : MethodId} (hregister : space.register t callback? = .ok (id, space')) :
    Path.ofText t ≠ [] ∧
      (∀ name ∈ Path.ofText t, Name.isValid space.config.strictNames name = true) ∧
      space.registerPath (Path.ofText t) callback? = (id, space') := by
  rcases registerD_cases space t callback? with ⟨e, herror, -⟩ | ⟨hpath, hvalid, hok, -⟩
  · rw [herror] at hregister
    exact absurd hregister (by simp)
  · exact ⟨hpath, hvalid, Except.ok.inj (hok.symm.trans hregister)⟩

/-- **What a registration answers with** is the identity of an entry for its address: of a new one,
or of the one that is kept. -/
theorem Sound.exists_entry_of_register {space space' : Space κ} (h : space.Sound) {t : Text}
    {callback? : Option κ} {id : MethodId}
    (hregister : space.register t callback? = .ok (id, space')) :
    space' = space.step (.register t callback?) ∧
      ∃ method, method.id = id ∧ (Path.canonical t, method) ∈ space'.entries ∧
        (method = ⟨space.freshMethodId, callback?⟩ ∨
          space.config.replaceExisting = false ∧ (Path.canonical t, method) ∈ space.entries) := by
  obtain ⟨hpath, hvalid, hregisterPath⟩ := registerPath_of_register hregister
  refine ⟨by rw [Space.step, registerD, hregister], ?_⟩
  have hentered := h.entered_registerPath hpath hvalid callback?
  rw [← Path.canonical_eq_toText hpath, hregisterPath] at hentered
  generalize space'.entries = after at hentered
  generalize space.entries = before at hentered
  cases hentered with
  | inserted left right hnew => exact ⟨_, rfl, by simp, .inl rfl⟩
  | replaced left right old hreplace => exact ⟨_, rfl, by simp, .inl rfl⟩
  | kept entries present hreplace hpresent =>
    exact ⟨present, rfl, hpresent, .inr ⟨hreplace, hpresent⟩⟩

/-- **An identity that is not held leads nowhere**, unless it is the next one. -/
theorem Sound.unresolved {space : Space κ} (h : space.Sound) {id : MethodId}
    (hnot : ¬space.Holds id) (hfresh : id ≠ space.freshMethodId) : space.Unresolved id := by
  have hmatched : ∀ pattern, id ∉ space.matched pattern :=
    fun pattern hmem ↦ hnot (h.holds_of_mem_matched hmem)
  have hdispatch : ∀ {α : Type} (message : Message α) context,
      id ∉ (space.dispatch message context).methods ∧
        ∀ call ∈ (space.dispatch message context).calls, call.method ≠ id := by
    intro α message context
    obtain ⟨hmethods, hcalls⟩ := h.holds_of_dispatch message context
    exact ⟨fun hmem ↦ hnot (hmethods id hmem), fun call hcall heq ↦ hnot (heq ▸ hcalls call hcall)⟩
  refine ⟨hmatched, fun t ids hlookup ↦ ?_, fun t hmem ↦ ?_, ?_, ?_, hdispatch,
    fun packet context ↦ ⟨fun hmem ↦ ?_, fun call hcall ↦ ?_⟩, ?_⟩
  · rw [Space.lookup] at hlookup
    cases hread : space.readPattern t with
    | error e =>
      rw [hread] at hlookup
      exact absurd hlookup (by simp [Except.map])
    | ok pattern =>
      rw [hread] at hlookup
      obtain rfl := Except.ok.inj hlookup
      exact hmatched pattern
  · rw [lookupD_eq_targets] at hmem
    obtain ⟨method, hmethod, rfl⟩ := List.mem_map.1 hmem
    exact hnot (h.holds_of_mem_targets hmethod)
  · rw [Space.addressOf?, pathOf?_eq_none hnot]
    rfl
  · rw [Space.unregisterId, pathOf?_eq_none hnot]
  · obtain ⟨message, -, hmem⟩ := List.mem_flatMap.1 hmem
    exact (hdispatch message context).1 hmem
  · obtain ⟨message, -, hcall⟩ := List.mem_flatMap.1 hcall
    exact (hdispatch message context).2 call hcall
  · -- A registration answers with the next identity, or with one that is held.
    rintro t callback? id' space' hregister rfl
    obtain ⟨-, method, rfl, -, rfl | ⟨-, hkept⟩⟩ := h.exists_entry_of_register hregister
    · exact hfresh rfl
    · exact hnot ⟨_, hkept, rfl⟩

/-! ### What has left does not come back -/

/-- The identity has been given, or never will be, and is not held. -/
structure Spent (space : Space κ) (id : MethodId) : Prop where
  notHeld : ¬space.Holds id
  given : ∀ serial, id = .issued serial → serial < space.nextMethod

theorem Sound.unresolved_of_spent {space : Space κ} (h : space.Sound) {id : MethodId}
    (hspent : space.Spent id) : space.Unresolved id :=
  h.unresolved hspent.notHeld fun heq ↦ absurd (hspent.given _ heq) (Nat.lt_irrefl _)

/-- An identity that is held has been given. -/
theorem Sound.lt_nextMethod {space : Space κ} (h : space.Sound) {id : MethodId}
    (hheld : space.Holds id) {serial : Nat} (hid : id = .issued serial) :
    serial < space.nextMethod := by
  obtain ⟨entry, hentry, rfl⟩ := holds_iff.1 hheld
  obtain ⟨serial', hlt, hid'⟩ := h.methodIds_lt entry hentry
  obtain rfl := MethodId.issued.inj (hid.symm.trans hid')
  exact hlt

/-- The unmatchable identity is never held. -/
theorem Sound.spent_unmatchable {space : Space κ} (h : space.Sound) :
    space.Spent .unmatchable := by
  refine ⟨fun hheld ↦ ?_, nofun⟩
  obtain ⟨entry, hentry, heq⟩ := holds_iff.1 hheld
  obtain ⟨serial, -, hid⟩ := h.methodIds_lt entry hentry
  exact MethodId.noConfusion (heq.symm.trans hid)

theorem methods_clear (space : Space κ) : space.clear.root.methods = [] := by
  rw [Node.methods_eq]
  rfl

/-- **An operation brings no method into a space** but one with the next identity. -/
theorem Sound.mem_methods_step {space : Space κ} (h : space.Sound) (operation : Operation κ)
    {entry : Path × Method κ} (hentry : entry ∈ (space.step operation).root.methods) :
    entry ∈ space.root.methods ∨ entry.2.id = space.freshMethodId := by
  have h' := h.step operation
  rw [Node.methods_eq_entries_rows h'.method?] at hentry
  rw [Node.methods_eq_entries_rows h.method?]
  rcases step_cases space operation with ⟨path, callback?, hpath, -, heq⟩ | ⟨root, heq, hshrunk⟩ |
    heq
  · rw [heq] at hentry
    rcases (placing_registerPath space hpath callback?).mem_entries hentry with rfl | hold
    · exact .inr rfl
    · exact .inl hold
  · rw [heq] at hentry
    exact .inl (hshrunk.entries.subset hentry)
  · rw [heq, ← Node.methods_eq_entries_rows rfl, methods_clear] at hentry
    exact absurd hentry List.not_mem_nil

theorem Sound.holds_step {space : Space κ} (h : space.Sound) (operation : Operation κ)
    {id : MethodId} (hheld : (space.step operation).Holds id) :
    space.Holds id ∨ id = space.freshMethodId := by
  obtain ⟨entry, hentry, rfl⟩ := holds_iff.1 hheld
  exact (h.mem_methods_step operation hentry).imp_left fun hmem ↦ holds_iff.2 ⟨entry, hmem, rfl⟩

/-- **What has left a space does not come back** with an operation. -/
theorem Sound.spent_step {space : Space κ} (h : space.Sound) {id : MethodId}
    (hspent : space.Spent id) (operation : Operation κ) : (space.step operation).Spent id where
  notHeld hheld := by
    rcases h.holds_step operation hheld with hheld | heq
    · exact hspent.notHeld hheld
    · exact absurd (hspent.given _ heq) (Nat.lt_irrefl _)
  given serial heq := (hspent.given serial heq).trans_le (nextMethod_le_step space operation)

/-- **What has left a space never comes back.** -/
theorem Sound.departed_of_spent {space : Space κ} (h : space.Sound) {id : MethodId}
    (hspent : space.Spent id) : space.Departed id := by
  intro more
  induction more generalizing space with
  | nil => exact h.unresolved_of_spent hspent
  | cons operation more ih => exact ih (h.step operation) (h.spent_step hspent operation)

/-- An identity that was held and is not held any more is spent. -/
theorem Sound.spent_of_left {space : Space κ} (h : space.Sound) {id : MethodId}
    (hheld : space.Holds id) (more : List (Operation κ))
    (hleft : ¬(more.foldl Space.step space).Holds id) : (more.foldl Space.step space).Spent id where
  notHeld := hleft
  given _ heq := (h.lt_nextMethod hheld heq).trans_le (nextMethod_le_foldl space more)

theorem Departed.unresolved {space : Space κ} {id : MethodId} (h : space.Departed id) :
    space.Unresolved id :=
  h []

theorem Departed.foldl {space : Space κ} {id : MethodId} (h : space.Departed id)
    (run : List (Operation κ)) : (run.foldl Space.step space).Departed id := by
  intro more
  rw [← List.foldl_append]
  exact h (run ++ more)

/-! ### What an operation leaves -/

theorem Sound.nodup_entryIds {space : Space κ} (h : space.Sound) :
    (space.entries.map fun entry ↦ entry.2.id).Nodup := by
  rw [entries, List.map_map]
  exact h.nodup_methodIds

theorem entries_clear (space : Space κ) : space.clear.entries = [] := by
  rw [entries, methods_clear, List.map_nil]

/-- An entry stays when an address is registered, unless it is replaced. -/
theorem Sound.mem_entries_register_iff {space : Space κ} (h : space.Sound) {address : Text}
    {method : Method κ} (hentry : (address, method) ∈ space.entries) (t : Text)
    (callback? : Option κ) : (address, method) ∈ (space.registerD t callback?).2.entries ↔
      space.config.replaceExisting = false ∨ Path.canonical t ≠ address := by
  obtain ⟨path, hmem, hpath⟩ := mem_entries_iff.1 hentry
  rcases registerD_cases space t callback? with ⟨e, herror, heq⟩ | ⟨hlong, hvalid, -, heq⟩
  · rw [heq]
    refine iff_of_true hentry (.inr fun hsame ↦ ?_)
    -- An address that is registered is not refused.
    obtain rfl := (h.toText_eq_canonical_iff t _ hmem).2 (hpath.trans hsame.symm)
    have hnone := Name.refusal?_eq_none_iff.2
      ⟨Node.path_ne_nil_of_mem_methods hmem, Node.valid_of_mem_methods h.orderly hmem⟩
    exact absurd ((register_eq_error_iff.1 herror).symm.trans hnone) (by simp)
  · rw [heq, Path.canonical_eq_toText hlong]
    exact (h.entered_registerPath hlong hvalid callback?).mem_iff h.nodup_addresses hentry
      (h.ne_freshMethodId hmem)

/-- An entry stays when something is taken out by address, unless it has this address. -/
theorem Sound.mem_of_takenOut_address_iff {space : Space κ} (h : space.Sound) {t address : Text}
    {method : Method κ} {found : Bool} {after : List (Path × Method κ)}
    (htaken : TakenOut (fun entry ↦ entry.1 = Path.ofText t) space.root.methods found after)
    (hentry : (address, method) ∈ space.entries) :
    (address, method) ∈ after.map (fun entry ↦ (Path.toText entry.1, entry.2)) ↔
      Path.canonical t ≠ address := by
  have htakenEntries : TakenOut (fun entry ↦ entry.1 = Path.canonical t) space.entries found
      (after.map fun entry ↦ (Path.toText entry.1, entry.2)) :=
    htaken.map (h.toText_eq_canonical_iff t)
  rw [htakenEntries.mem_iff (h.nodup_addresses.of_map _) (fun entry hmem entry' hmem' heq heq' ↦
    List.inj_on_of_nodup_map h.nodup_addresses hmem hmem' (heq.trans heq'.symm)) hentry]
  exact not_congr eq_comm

/-- **An entry stays exactly when the operation spares it.** -/
theorem Sound.mem_entries_step_iff {space : Space κ} (h : space.Sound) {address : Text}
    {method : Method κ} (hentry : (address, method) ∈ space.entries) (operation : Operation κ) :
    (address, method) ∈ (space.step operation).entries ↔
      operation.Spares space.config.replaceExisting address method.id := by
  cases operation with
  | register t callback? => exact h.mem_entries_register_iff hentry t callback?
  | unregister t =>
    exact h.mem_of_takenOut_address_iff (h.takenOut_unregisterPath (Path.ofText t)) hentry
  | unregisterAndPrune t =>
    exact h.mem_of_takenOut_address_iff (h.takenOut_unregisterAndPrune t) hentry
  | unregisterId id =>
    have htaken : TakenOut (fun entry ↦ entry.2.id = id) space.entries (space.unregisterId id).1
        (space.step (.unregisterId id)).entries :=
      (h.takenOut_unregisterId id).map fun _ _ ↦ Iff.rfl
    rw [htaken.mem_iff (h.nodup_addresses.of_map _) (fun entry hmem entry' hmem' heq heq' ↦
      List.inj_on_of_nodup_map h.nodup_entryIds hmem hmem' (heq.trans heq'.symm)) hentry]
    exact not_congr eq_comm
  | clear =>
    have hstep : space.step .clear = space.clear := rfl
    rw [hstep, entries_clear]
    exact iff_of_false List.not_mem_nil id

/-- **An identity leaves with the operation that does not spare its method.** -/
theorem Sound.spent_of_not_spares {space : Space κ} (h : space.Sound) {address : Text}
    {method : Method κ} (hentry : (address, method) ∈ space.entries) {operation : Operation κ}
    (hspares : ¬operation.Spares space.config.replaceExisting address method.id) :
    (space.step operation).Spent method.id := by
  refine h.spent_of_left ⟨_, hentry, rfl⟩ [operation] fun hheld ↦ hspares ?_
  obtain ⟨entry, hmem, hid⟩ := holds_iff.1 hheld
  obtain ⟨path, hmethod, rfl⟩ := mem_entries_iff.1 hentry
  rw [← h.mem_entries_step_iff hentry, mem_entries_iff]
  rcases h.mem_methods_step operation hmem with hold | hfresh
  · obtain rfl := List.inj_on_of_nodup_map h.nodup_methodIds hold hmethod hid
    exact ⟨_, hmem, rfl⟩
  · exact absurd (hid.symm.trans hfresh) (h.ne_freshMethodId hmethod)

/-- **An entry stays for as long as the operations spare it.** -/
theorem Sound.mem_entries_foldl {space : Space κ} (h : space.Sound) {address : Text}
    {method : Method κ} (hentry : (address, method) ∈ space.entries) {more : List (Operation κ)}
    (hspares : ∀ operation ∈ more,
      operation.Spares space.config.replaceExisting address method.id) :
    (address, method) ∈ (more.foldl Space.step space).entries := by
  induction more generalizing space with
  | nil => exact hentry
  | cons operation more ih =>
    rw [List.forall_mem_cons] at hspares
    refine ih (h.step operation) ((h.mem_entries_step_iff hentry operation).2 hspares.1) ?_
    rw [config_step]
    exact hspares.2

/-! ### What is registered is found -/

/-- **A registered method is found.** -/
theorem Sound.found {space : Space κ} (h : space.Sound) {address : Text} {method : Method κ}
    (hentry : (address, method) ∈ space.entries) : space.Found address method := by
  obtain ⟨path, hmem, rfl⟩ := mem_entries_iff.1 hentry
  obtain ⟨hpath, hliteral⟩ := h.isLiteral_of_mem_methods hmem
  have hmethod : space.methodAt? (Path.ofText (Path.toText path)) = some method :=
    hpath.symm ▸ h.methodAt?_eq_some_iff.2 hmem
  -- No other entry has the identity, so the method is matched at this path or not at all.
  have hunique : ∀ {path' method'}, (path', method') ∈ space.root.methods →
      method'.id = method.id → path' = path := fun hmem' hid ↦
    congrArg Prod.fst (List.inj_on_of_nodup_map h.nodup_methodIds hmem' hmem hid)
  have htargets : ∀ t, (∃ method' ∈ space.targets t, method'.id = method.id) ↔
      ∃ pattern, space.readPattern t = .ok pattern ∧
        AddressPattern.covers pattern.components path = true := by
    intro t
    constructor
    · rintro ⟨method', hmethod', hid⟩
      obtain ⟨pattern, hread, path', hmem', hcovers⟩ := h.mem_targets_iff.1 hmethod'
      exact ⟨pattern, hread, hunique hmem' hid ▸ hcovers⟩
    · rintro ⟨pattern, hread, hcovers⟩
      exact ⟨method, h.mem_targets_iff.2 ⟨pattern, hread, path, hmem, hcovers⟩, rfl⟩
  refine ⟨hentry, h.addressOf?_of_mem_methods hmem, h.contains_eq_true_iff.2 ⟨_, hmethod⟩, ?_,
    fun t ↦ ?_, fun t ↦ ?_, fun arguments context ↦ ?_, ?_⟩
  · rw [h.lookup_of_isLiteral hliteral, hmethod]
    rfl
  · rw [lookupD_eq_targets, List.mem_map, hpath]
    exact htargets t
  · rw [hpath, ← htargets t]
    refine ⟨fun hmem' ↦ ⟨method, hmem', rfl⟩, ?_⟩
    rintro ⟨method', hmethod', hid⟩
    obtain ⟨-, -, path', hmem', -⟩ := h.mem_targets_iff.1 hmethod'
    obtain ⟨-, rfl⟩ := Prod.mk.inj (List.inj_on_of_nodup_map h.nodup_methodIds hmem' hmem hid)
    exact hmethod'
  · rw [Space.dispatch, calls, h.targets_of_isLiteral hliteral, hmethod]
    cases hcallback : method.callback? <;> simp [hcallback]
  · rcases h.takenOut_unregisterId method.id with ⟨hfound, -⟩ | ⟨-, hnone, -⟩
    · exact hfound
    · exact absurd rfl (hnone _ hmem)

end Space

end OscAddressing

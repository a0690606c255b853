import OscAddressing.Proofs.Dispatch.Isolation
import OscAddressing.Proofs.Space.Identity

/-!
# Identities that have left are not dispatched to

A dispatch may still invoke a method that has been unregistered, if its calls were resolved before.
Nothing else can: `omits_step` says that what a step of a thread adds to the log, or leaves to be
entered there, never mentions an identity that has left the space, unless this was already to be
entered before the step. A dispatch that begins after the identity has left therefore neither
answers with it nor invokes it, at any depth (`omitting_dispatchAt`).

`identities_throughout` puts this together with what holds of operations (`Proofs.Space.Identity`).
The operations in the log of a dispatch are a run like any other, so the two halves meet in
`replayed`.
-/

namespace OscAddressing

/-! ### Entries that mention an identity -/

/-- Is the identity in the answer of an action? -/
def Outcome.mentions (id : MethodId) : Outcome → Bool
  | .registered (.ok other) => other = id
  | .registered (.error _) => false
  | .unregistered _ => false
  | .cleared => false
  | .matched methods => id ∈ methods

/-- Does the entry say that the identity was invoked, or was the answer of an action? -/
def LogEntry.mentions {τ α : Type} (id : MethodId) : LogEntry τ α → Bool
  | .called _ call => call.method = id
  | .did _ _ outcome => outcome.mentions id

namespace Live

variable {τ α : Type} {id : MethodId}

/-- The entry that a task is known to make. -/
def Todo.entry? : Todo τ α → Option (LogEntry τ α)
  | .invoke depth call => some (.called depth call)
  | .perform .. => none
  | .conclude call action outcome => some (.did call action outcome)

/-! ### Steps -/

/-- **What a space answers** does not mention an identity that leads nowhere. -/
theorem mentions_answer {κ : Type} {space : Space κ} (h : space.Unresolved id) (method : MethodId)
    (request : Request κ) : (space.answer method request).1.mentions id = false := by
  cases request with
  | register address callback? =>
    rw [Space.answer]
    cases hregister : space.register address callback? with
    | error e => rfl
    | ok answer => exact decide_eq_false (h.register _ _ _ _ hregister)
  | lookup pattern => exact decide_eq_false (h.lookupD pattern)
  | _ => rfl

/-- The calls of a message do not mention an identity that leads nowhere. -/
theorem filter_mentions_invokes {space : Space (Callback τ α)} (h : space.Unresolved id)
    (depth : Nat) (message : Message α) (context : Context) :
    (((space.calls message context).map (Todo.invoke depth)).filterMap Todo.entry?).filter
      (LogEntry.mentions id) = [] := by
  rw [List.filterMap_map]
  simp only [List.filter_eq_nil_iff, List.mem_filterMap]
  rintro _ ⟨call, hcall, heq⟩
  obtain rfl := Option.some.inj heq
  simpa [LogEntry.mentions] using (h.dispatch message context).2 call hcall

/-- **What the log mentions between two states of a thread**: of an identity that has left, only
what was to be entered before is entered or is to be entered still. -/
structure Omits (id : MethodId) (entries : List (LogEntry τ α))
    (before after : Live τ α × List (Todo τ α)) : Prop where
  log : after.1.log = before.1.log ++ entries
  departed : after.1.space.Departed id
  mentioned : (entries ++ after.2.filterMap Todo.entry?).filter (LogEntry.mentions id) =
    (before.2.filterMap Todo.entry?).filter (LogEntry.mentions id)

theorem Omits.trans {entries more : List (LogEntry τ α)}
    {first second third : Live τ α × List (Todo τ α)} (h : Omits id entries first second)
    (h' : Omits id more second third) :
    Omits id (entries ++ more) first third where
  log := by rw [h'.log, h.log, List.append_assoc]
  departed := h'.departed
  mentioned := by
    rw [List.append_assoc, List.filter_append, h'.mentioned, ← List.filter_append, h.mentioned]

/-- An identity that has left is still gone after a task. -/
theorem departed_advance {live : Live τ α} (h : live.space.Departed id) (todo : Todo τ α) :
    (live.advance todo).1.space.Departed id := by
  rcases space_advance live todo with hsame | ⟨operation, heq⟩
  · rwa [hsame]
  · rw [heq]
    exact h.foldl [operation]

/-- **A step mentions no identity that has left**, unless this was resolved before. -/
theorem omits_step {before after : Live τ α × List (Todo τ α)} (h : Step before after)
    (hdeparted : before.1.space.Departed id) : ∃ entries, Omits id entries before after := by
  obtain ⟨live, todo, rest⟩ := h
  have hnow : live.space.Unresolved id := hdeparted.unresolved
  have hafter := departed_advance hdeparted todo
  cases todo with
  | invoke depth call =>
    refine ⟨[.called depth call], rfl, hafter, ?_⟩
    have hactions : (call.callback.actions.map (Todo.perform depth call)).filterMap Todo.entry? =
        [] := by
      have hnone : Todo.entry? ∘ Todo.perform depth call = fun _ ↦ none := rfl
      rw [List.filterMap_map, hnone, List.filterMap_none]
    rw [advance, List.filterMap_append, hactions]
    rfl
  | conclude call action outcome => exact ⟨[.did call action outcome], rfl, hafter, rfl⟩
  | perform depth call action =>
    cases action with
    | dispatch message context =>
      refine ⟨[], (List.append_nil _).symm, hafter, ?_⟩
      have hmethods := (hnow.dispatch message context).1
      have hconclude : (LogEntry.did call (.dispatch message context) (.matched
          ((live.space.targets message.address).map Method.id))).mentions id = false :=
        decide_eq_false hmethods
      simp only [advance, List.nil_append, List.filterMap_append, List.filter_append,
        filter_mentions_invokes hnow, List.filterMap_cons, Todo.entry?, List.filterMap_nil,
        List.filter_cons, hconclude, List.filter_nil, Bool.false_eq_true, if_false]
    | request request =>
      rw [advance_request] at hafter ⊢
      refine ⟨[.did call (.request request) _], rfl, hafter, ?_⟩
      rw [List.nil_append, List.singleton_append, List.filter_cons, LogEntry.mentions,
        mentions_answer hnow, if_neg Bool.false_ne_true]
      rfl

theorem omits_steps {before after : Live τ α × List (Todo τ α)} (h : Steps before after)
    (hdeparted : before.1.space.Departed id) : ∃ entries, Omits id entries before after := by
  induction h with
  | refl => exact ⟨[], (List.append_nil _).symm, hdeparted, rfl⟩
  | tail _ hstep ih =>
    obtain ⟨entries, homits⟩ := ih
    obtain ⟨more, hmore⟩ := omits_step hstep homits.departed
    exact ⟨entries ++ more, homits.trans hmore⟩

/-! ### Dispatches -/

/-- **What a dispatch says of identities that have left**: nothing. It does not answer with them,
and its entries in the log do not mention them; what its callbacks do to the space are the
operations of these entries. -/
def Omitting (live : Live τ α) (methods : List MethodId) (live' : Live τ α) : Prop :=
  ∃ entries, live'.log = live.log ++ entries ∧ live'.space = replayed entries live.space ∧
    ∀ id, live.space.Departed id → id ∉ methods ∧ ∀ entry ∈ entries, entry.mentions id = false

theorem omitting_dispatchAt {depth : Nat} {message : Message α} {context : Context}
    {live live' : Live τ α} {methods : List MethodId}
    (hrun : dispatchAt depth message context live = some (methods, live')) :
    Omitting live methods live' := by
  obtain ⟨rfl, hsteps⟩ := steps_dispatchAt hrun
  obtain ⟨entries, htold⟩ := told_invokes hsteps
  refine ⟨entries, htold.log, htold.space, fun id hdeparted ↦
    ⟨hdeparted.unresolved.lookupD message.address, ?_⟩⟩
  obtain ⟨entries', homits⟩ := omits_steps hsteps hdeparted
  obtain rfl : entries' = entries := List.append_cancel_left (homits.log.symm.trans htold.log)
  have hcalls := filter_mentions_invokes hdeparted.unresolved depth message context
  have hmentioned := homits.mentioned
  rw [hcalls, List.filterMap_nil, List.append_nil, List.filter_eq_nil_iff] at hmentioned
  exact fun entry hentry ↦ Bool.eq_false_iff.2 (hmentioned entry hentry)

theorem omitting_dispatchEach {context : Context} {messages : List (Message α)}
    {live live' : Live τ α} {methods : List MethodId}
    (hrun : dispatchEach dispatch context messages live = some (methods, live')) :
    Omitting live methods live' := by
  induction messages generalizing live methods with
  | nil =>
    obtain ⟨rfl, rfl⟩ := Prod.mk.inj (Option.some.inj hrun)
    exact ⟨[], (List.append_nil _).symm, rfl, fun _ _ ↦
      ⟨List.not_mem_nil, fun _ hentry ↦ absurd hentry List.not_mem_nil⟩⟩
  | cons message messages ih =>
    obtain ⟨_, middle, _, hfirst, hlater, rfl⟩ := dispatchEach_cons_eq_some_iff.1 hrun
    obtain ⟨entries, hlog, hspace, homits⟩ := omitting_dispatchAt hfirst
    obtain ⟨more, hlog', hspace', homits'⟩ := ih hlater
    refine ⟨entries ++ more, by rw [hlog', hlog, List.append_assoc],
      by rw [hspace', hspace, replayed_append], fun id hdeparted ↦ ?_⟩
    obtain ⟨hnot, hentries⟩ := homits id hdeparted
    obtain ⟨hnot', hmore⟩ := homits' id (hspace ▸ hdeparted.foldl _)
    rw [List.mem_append, List.forall_mem_append]
    exact ⟨not_or.2 ⟨hnot, hnot'⟩, hentries, hmore⟩

/-! ### The whole life -/

/-- **The life of an identity.** An identity that a space held and does not hold any more leads
nowhere, however the run goes on, and the unmatchable identity never does. A registered method is
found under its address, with its callback, for as long as the operations spare it; and with the
first one that does not its identity has left. What a registration answers with is the identity of
such a method, a new one with the callback that was given or, where methods are kept, the one that
was there. No dispatch that begins after an identity has left answers with it or invokes it, at any
depth, and no task of a thread resolves it again; what callbacks do meanwhile is a run as well. -/
theorem identities_throughout {κ : Type u} (config : Config) :
    (∀ (run more : List (Operation κ)) id, (Space.after config run).Holds id →
      ¬(Space.after config (run ++ more)).Holds id →
        (Space.after config (run ++ more)).Departed id) ∧
    (∀ run : List (Operation κ), (Space.after config run).Departed .unmatchable) ∧
    (∀ (run : List (Operation κ)) address method,
      (address, method) ∈ (Space.after config run).entries →
        (∀ more : List (Operation κ),
          (∀ operation ∈ more, operation.Spares config.replaceExisting address method.id) →
            (Space.after config (run ++ more)).Found address method) ∧
        ∀ operation : Operation κ, ¬operation.Spares config.replaceExisting address method.id →
          (Space.after config (run ++ [operation])).Departed method.id) ∧
    (∀ (run : List (Operation κ)) t callback? id space,
      (Space.after config run).register t callback? = .ok (id, space) →
        ∃ method, method.id = id ∧
          (method = ⟨(Space.after config run).freshMethodId, callback?⟩ ∨
            config.replaceExisting = false ∧
              (Path.canonical t, method) ∈ (Space.after config run).entries) ∧
          ∀ more : List (Operation κ),
            (∀ operation ∈ more,
              operation.Spares config.replaceExisting (Path.canonical t) id) →
            (more.foldl Space.step space).Found (Path.canonical t) method) ∧
    (∀ (live : Live τ α) threads, Reached config live threads →
      ∃ run, live.space = Space.after config run) ∧
    (∀ (live live' : Live τ α) thread thread' id, live.space.Departed id →
      Step (live, thread) (live', thread') →
        ∃ entries, Omits id entries (live, thread) (live', thread')) ∧
    ∀ (live live' : Live τ α) methods,
      (∀ message context, dispatch message context live = some (methods, live') →
        Omitting live methods live') ∧
      ∀ packet context, dispatchPacket packet context live = some (methods, live') →
        Omitting live methods live' := by
  have hsound : ∀ run : List (Operation κ), (Space.after config run).Sound :=
    Space.sound_after config
  refine ⟨fun run more id hheld hleft ↦ ?_, fun run ↦ ?_, fun run address method hentry ↦
    ⟨fun more hspares ↦ ?_, fun operation hspares ↦ ?_⟩,
    fun run t callback? id space hregister ↦ ?_, fun live threads ↦ Reached.exists_run,
    fun live live' thread thread' id hdeparted hstep ↦ omits_step hstep hdeparted,
    fun live live' methods ↦ ⟨fun _ _ ↦ omitting_dispatchAt, fun _ _ ↦ omitting_dispatchEach⟩⟩
  · rw [Space.after_append] at hleft ⊢
    exact ((hsound run).foldl more).departed_of_spent ((hsound run).spent_of_left hheld more hleft)
  · exact (hsound run).departed_of_spent (hsound run).spent_unmatchable
  · rw [Space.after_append]
    refine ((hsound run).foldl more).found ((hsound run).mem_entries_foldl hentry ?_)
    rwa [Space.config_after]
  · rw [Space.after_append]
    rw [← Space.config_after config run] at hspares
    exact ((hsound run).step operation).departed_of_spent
      ((hsound run).spent_of_not_spares hentry hspares)
  · obtain ⟨rfl, method, rfl, hentry, horigin⟩ := (hsound run).exists_entry_of_register hregister
    have hconfig := Space.config_after config run
    refine ⟨method, rfl, horigin.imp_right fun hkept ↦ ⟨hconfig ▸ hkept.1, hkept.2⟩,
      fun more hspares ↦ ?_⟩
    have hsound' := (hsound run).step (.register t callback?)
    refine (hsound'.foldl more).found (hsound'.mem_entries_foldl hentry ?_)
    rwa [Space.config_step, hconfig]

/-- A method is replaced. Its successor is found after operations on other addresses. The callback
of the successor registers a method whose callback looks everything up, unregisters its own and
sends the message again; neither callback meets the method that was replaced. -/
theorem identities_throughout_replaced :
    ∃ run more : List (Operation (Callback Unit Unit)),
      (Space.after {} run).Holds (.issued 0) ∧
      ¬(Space.after {} (run ++ more)).Holds (.issued 0) ∧
      (Space.after {} (run ++ more)).Departed (.issued 0) ∧
      (∃ space method, (Space.after {} run).register "/a".toList none = .ok (.issued 1, space) ∧
        ([.register "/a/b".toList none, .unregister "/b".toList,
          .unregisterId (.issued 0)].foldl Space.step space).Found "/a".toList method) ∧
      ∃ methods live', dispatch ⟨"/*".toList, []⟩ {} ⟨Space.after {} (run ++ more), []⟩ =
          some (methods, live') ∧
        .issued 0 ∉ methods ∧ Omitting ⟨Space.after {} (run ++ more), []⟩ methods live' := by
  obtain ⟨hleft, -, -, hregistered, -, -, hdispatch⟩ :=
    identities_throughout (κ := Callback Unit Unit) (τ := Unit) (α := Unit) {}
  let run : List (Operation (Callback Unit Unit)) := [.register "/a".toList (some ⟨(), []⟩)]
  let looking : Callback Unit Unit := ⟨(), [.request (.lookup "/*".toList)]⟩
  let more : List (Operation (Callback Unit Unit)) := [.register "/a".toList (some ⟨(),
    [.request (.register "/b".toList (some looking)), .request (.unregister "/a".toList),
      .dispatch ⟨"/*".toList, []⟩ {}]⟩)]
  have hheld : (Space.after {} run).Holds (.issued 0) := by decide +kernel
  have hnot : ¬(Space.after {} (run ++ more)).Holds (.issued 0) := by decide +kernel
  have hdeparted := hleft run more _ hheld hnot
  refine ⟨run, more, hheld, hnot, hdeparted, ?_, ?_⟩
  · have hanswer : ((Space.after {} run).register "/a".toList none).toOption.map Prod.fst =
        some (.issued 1) := by decide +kernel
    cases hregister : (Space.after {} run).register "/a".toList none with
    | error e =>
      rw [hregister] at hanswer
      exact absurd hanswer (by simp [Except.toOption])
    | ok answer =>
      obtain ⟨id, space⟩ := answer
      rw [hregister] at hanswer
      obtain rfl : id = .issued 1 := Option.some.inj hanswer
      obtain ⟨method, -, -, hfound⟩ := hregistered _ _ _ _ _ hregister
      exact ⟨space, method, rfl, hfound _ (by decide +kernel)⟩
  · have hrun : (dispatch ⟨"/*".toList, []⟩ {} ⟨Space.after {} (run ++ more), []⟩).isSome =
        true := by cbv
    obtain ⟨⟨methods, live'⟩, hrun⟩ := Option.isSome_iff_exists.1 hrun
    have homitting := (hdispatch _ _ _).1 _ _ hrun
    obtain ⟨_, -, -, homits⟩ := id homitting
    exact ⟨methods, live', hrun, (homits _ hdeparted).1, homitting⟩

end Live

end OscAddressing

import OscAddressing.Proofs.Dispatch.Finishing

/-!
# Calls as tasks, in any order

A message can be dispatched with a task for each of its calls. The calls are resolved before the
first task runs, so the order of the tasks makes no difference to whom the message goes:
`dispatchScheduled_permuted`. It does make a difference to the space, as callbacks act on it, but
never to its shape.

Whether tasks come to an end depends on their order too. By `dispatchScheduled_eq_some_iff` there is
an outcome in every order in which they do.
-/

namespace OscAddressing.Live

variable {τ α : Type} {live live' : Live τ α} {message : Message α} {context : Context}

/-! ### Tasks that come to an end -/

/-- **A dispatch as tasks** has an outcome exactly when the tasks come to an end in their order. -/
theorem dispatchScheduled_eq_some_iff {schedule : Schedule τ α} {methods : List MethodId} :
    dispatchScheduled (some schedule) message context live = some (methods, live') ↔
      methods = live.space.lookupD message.address ∧
        Steps (live, (schedule (live.space.calls message context)).map (.invoke 0))
          (live', []) := by
  rw [dispatchScheduled, dispatchTasks_eq_some_iff, runCalls_eq_some_iff, Space.lookupD_eq_targets]

/-- **Without anything that runs tasks** a dispatch as tasks is a dispatch. -/
theorem dispatchScheduled_none :
    dispatchScheduled none message context live = dispatch message context live := by
  rw [dispatch, dispatchAt]
  rfl

/-! ### What tasks come to -/

/-- **What a dispatch as tasks comes to.** The methods are those that a lookup of the address
pattern gives before it, and no method is among them twice. Each of them that holds a callback
before it is called once, by a task of its own, with its identity, the message and the context, and
no other calls are made by the tasks as such. Every callback performs its actions in order, and the
space afterwards is what the operations in the log make of the one before. -/
structure Shuffled (message : Message α) (context : Context) (live : Live τ α)
    (methods : List MethodId) (live' : Live τ α) : Prop where
  methods_eq : methods = live.space.lookupD message.address
  nodup : methods.Nodup
  told : ∃ entries, live'.log = live.log ++ entries ∧
    (entries.filterMap (calledAt? 0)).Perm (methods.filterMap fun id ↦
      (live.space.callbackOf? id).map fun callback ↦ ⟨id, callback, message, context⟩) ∧
    InOrder [] entries [] ∧ live'.space = replayed entries live.space

theorem Isolated.shuffled {methods : List MethodId}
    (h : Isolated 0 message context live methods live') :
    Shuffled message context live methods live' := by
  obtain ⟨entries, hlog, hcalls, horder, hspace⟩ := h.told
  exact ⟨h.methods_eq, h.nodup, entries, hlog, .of_eq hcalls, horder, hspace⟩

/-- **Two ways to run the tasks** of a message have the same methods and, up to their order, the
same calls. -/
theorem Shuffled.perm {methods methods' : List MethodId} {final : Live τ α}
    (h : Shuffled message context live methods live')
    (h' : Shuffled message context live methods' final) {entries entries' : List (LogEntry τ α)}
    (hlog : live'.log = live.log ++ entries) (hlog' : final.log = live.log ++ entries') :
    (entries.filterMap (calledAt? 0)).Perm (entries'.filterMap (calledAt? 0)) := by
  obtain ⟨_, heq, hcalls, -⟩ := h.told
  obtain ⟨_, heq', hcalls', -⟩ := h'.told
  obtain rfl := List.append_cancel_left (hlog.symm.trans heq)
  obtain rfl := List.append_cancel_left (hlog'.symm.trans heq')
  rw [h.methods_eq, ← h'.methods_eq] at hcalls
  exact hcalls.trans hcalls'.symm

theorem shuffled_of_steps (h : live.space.Sound) {tasks : List (Call (Callback τ α) α)}
    (hperm : tasks.Perm (live.space.calls message context))
    (hsteps : Steps (live, tasks.map (.invoke 0)) (live', [])) :
    Shuffled message context live (live.space.lookupD message.address) live' := by
  obtain ⟨entries, hlog, rfl, horder, hspace⟩ := exists_entries_of_invokes hsteps
  exact ⟨rfl, h.nodup_lookupD _, entries, hlog, hperm.trans (.of_eq (h.calls_eq ..)), horder,
    hspace⟩

/-- **The order of the tasks does not matter to whom a message goes**, in any state that a live
space can get into. Without anything that runs tasks, a dispatch as tasks is the dispatch. With the
tasks in any order it has an outcome exactly when they come to an end in this order, and then its
methods are those of a lookup and each of these that held a callback has been called once. If the
dispatch has an outcome as well, it has the same methods, and its own calls are the same up to their
order. The tree afterwards is well-formed, whatever the callbacks have done to it. -/
theorem dispatchScheduled_permuted {config : Config} {threads : List (List (Todo τ α))}
    (h : Reached config live threads) (message : Message α) (context : Context) :
    dispatchScheduled none message context live = dispatch message context live ∧
    ∀ schedule : Schedule τ α,
      (schedule (live.space.calls message context)).Perm (live.space.calls message context) →
      (∀ methods live', dispatchScheduled (some schedule) message context live =
          some (methods, live') ↔
        methods = live.space.lookupD message.address ∧
          Steps (live, (schedule (live.space.calls message context)).map (.invoke 0))
            (live', [])) ∧
      ∀ methods live', dispatchScheduled (some schedule) message context live =
          some (methods, live') →
        Shuffled message context live methods live' ∧
        live'.space.root.WellFormed config.strictNames ∧
        ∀ methods' final, dispatch message context live = some (methods', final) →
          methods = methods' ∧ ∀ entries entries', live'.log = live.log ++ entries →
            final.log = live.log ++ entries' →
              (entries.filterMap (calledAt? 0)).Perm (entries'.filterMap (calledAt? 0)) := by
  obtain ⟨run, heq⟩ := h.exists_run
  have hsound : live.space.Sound := heq ▸ Space.sound_after config run
  refine ⟨dispatchScheduled_none, fun schedule hperm ↦
    ⟨fun _ _ ↦ dispatchScheduled_eq_some_iff, fun methods live' hrun ↦ ?_⟩⟩
  have hreached : Reached config live' threads := h.dispatchScheduled hrun
  obtain ⟨run', heq'⟩ := hreached.exists_run
  obtain ⟨rfl, hsteps⟩ := dispatchScheduled_eq_some_iff.1 hrun
  have hshuffled := shuffled_of_steps hsound hperm hsteps
  refine ⟨hshuffled, heq' ▸ Space.wellFormed_after config run', fun methods' final hdispatch ↦ ?_⟩
  have hinline : Shuffled message context live methods' final :=
    (isolated_dispatchAt hsound hdispatch).shuffled
  exact ⟨hinline.methods_eq.symm, fun _ _ ↦ hshuffled.perm hinline⟩

/-- Two callbacks unregister each other's method. The first also registers a third one, whose
callback unregisters everything, and the second unregisters its own and sends the message again.
Both are called, in either order. -/
theorem dispatchScheduled_permuted_reversed :
    let message : Message Unit := ⟨"/*".toList, []⟩
    ∃ (live live' final : Live Unit Unit) (entries entries' : List (LogEntry Unit Unit)),
      Reached {} live [] ∧
      dispatch message {} live = some ([.issued 0, .issued 1], final) ∧
      dispatchScheduled (some List.reverse) message {} live =
        some ([.issued 0, .issued 1], live') ∧
      live'.log = live.log ++ entries ∧ final.log = live.log ++ entries' ∧
      (entries.filterMap (calledAt? 0)).Perm (entries'.filterMap (calledAt? 0)) ∧
      live'.space.root.WellFormed false := by
  intro message
  let live : Live Unit Unit := ⟨.after {} [
    .register "/a".toList (some ⟨(), [.request (.unregister "/b".toList),
      .request (.register "/c".toList (some ⟨(), [.request .clear]⟩))]⟩),
    .register "/b".toList (some ⟨(), [.request .unregisterSelf,
      .request (.unregister "/a".toList), .dispatch message {}]⟩)], []⟩
  have hreached : Reached {} live [] := .of_run {} _
  have hinline : (dispatch message {} live).map Prod.fst = some [.issued 0, .issued 1] := by
    cbv
  have htasks : (dispatchScheduled (some List.reverse) message {} live).map Prod.fst =
      some [.issued 0, .issued 1] := by
    cbv
  obtain ⟨⟨_, final⟩, hinline, rfl⟩ := Option.map_eq_some_iff.1 hinline
  obtain ⟨⟨_, live'⟩, htasks, heq⟩ := Option.map_eq_some_iff.1 htasks
  obtain ⟨hshuffled, hwellFormed, hsame⟩ := ((dispatchScheduled_permuted hreached message {}).2
    List.reverse (List.reverse_perm _)).2 _ live' htasks
  obtain ⟨entries, hlog, -⟩ := hshuffled.told
  obtain ⟨entries', hlog', -⟩ := exists_entries_of_invokes (dispatch_eq_some_iff.1 hinline).steps
  exact ⟨live, live', final, entries, entries', hreached, hinline, heq ▸ htasks, hlog, hlog',
    (hsame _ final hinline).2 entries entries' hlog hlog', hwellFormed⟩

end OscAddressing.Live

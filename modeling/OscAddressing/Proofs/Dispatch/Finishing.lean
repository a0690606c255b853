import OscAddressing.Proofs.Dispatch.Isolation

/-!
# Dispatches that come to an end

Callbacks register callbacks and dispatch to one another, so not every dispatch comes to an end. It
does when its thread gets to where nothing is left to do (`Finishes`), and `dispatch_eq_some_iff`
says that these are the dispatches that have an outcome.

One direction is `steps_dispatchAt`. For the other one, what a task comes to (`carryOut`) is what
the tasks come to that `advance` puts in its place (`carryOut_eq`). So a step of a thread changes
nothing about what its tasks come to, and neither do any number of them.

A dispatch does come to its end if its own callbacks dispatch nothing, whatever else they do: the
callbacks that they register are not called (`exists_dispatch_of_requests`).
-/

namespace OscAddressing.Live

variable {τ α : Type}

/-! ### What tasks come to -/

/-- Do a task to its end. -/
def carryOut (live : Live τ α) : Todo τ α → Option (Live τ α)
  | .invoke depth call => invoke depth live call
  | .perform depth call action => perform depth call live action
  | .conclude call action outcome => some (live.note (.did call action outcome))

/-- **A task comes to what there is to do after one step of it.** -/
theorem carryOut_eq (live : Live τ α) (todo : Todo τ α) :
    carryOut live todo = (live.advance todo).2.foldlM carryOut (live.advance todo).1 := by
  cases todo with
  | invoke depth call =>
    rw [advance, List.foldlM_map, carryOut, invoke]
    rfl
  | conclude call action outcome => rfl
  | perform depth call action =>
    cases action with
    | request request =>
      rw [carryOut, perform]
      rfl
    | dispatch message context =>
      have hcalls : ∀ calls : List (Call (Callback τ α) α),
          (calls.map (Todo.invoke (depth + 1))).foldlM carryOut live =
            runCalls (depth + 1) calls live := by
        intro calls
        rw [List.foldlM_map, runCalls]
        rfl
      rw [carryOut, perform, dispatchAt, advance, List.foldlM_append, hcalls]
      cases runCalls (depth + 1) (live.space.calls message context) live <;> rfl

/-- **A step changes nothing about what the tasks come to.** -/
theorem foldlM_carryOut_of_step {before after : Live τ α × List (Todo τ α)}
    (h : Step before after) :
    before.2.foldlM carryOut before.1 = after.2.foldlM carryOut after.1 := by
  obtain ⟨live, todo, rest⟩ := h
  rw [List.foldlM_cons, carryOut_eq, List.foldlM_append]

theorem foldlM_carryOut_of_steps {before after : Live τ α × List (Todo τ α)}
    (h : Steps before after) :
    before.2.foldlM carryOut before.1 = after.2.foldlM carryOut after.1 := by
  induction h with
  | refl => rfl
  | tail _ hstep ih => exact ih.trans (foldlM_carryOut_of_step hstep)

/-! ### The end of a dispatch -/

/-- **Calls that are made one after the other** have an outcome exactly when they come to an end. -/
theorem runCalls_eq_some_iff {depth : Nat} {calls : List (Call (Callback τ α) α)}
    {live live' : Live τ α} :
    runCalls depth calls live = some live' ↔
      Steps (live, calls.map (.invoke depth)) (live', []) := by
  constructor
  · intro hrun
    have hsteps := steps_runCalls hrun []
    rwa [List.append_nil] at hsteps
  · intro hsteps
    have hrun := foldlM_carryOut_of_steps hsteps
    rw [List.foldlM_map] at hrun
    rw [runCalls]
    exact hrun

/-- **A dispatch comes to an end**: its methods are those that a lookup of the address pattern gives
before it, and its calls, made one after the other, leave nothing to do. -/
structure Finishes (message : Message α) (context : Context) (live : Live τ α)
    (methods : List MethodId) (live' : Live τ α) : Prop where
  methods_eq : methods = live.space.lookupD message.address
  steps : Steps (live, (live.space.calls message context).map (.invoke 0)) (live', [])

/-- **A dispatch has an outcome exactly when it comes to an end.** -/
theorem dispatch_eq_some_iff {message : Message α} {context : Context} {live live' : Live τ α}
    {methods : List MethodId} :
    dispatch message context live = some (methods, live') ↔
      Finishes message context live methods live' := by
  rw [dispatch, dispatchAt_eq_some_iff, runCalls_eq_some_iff, ← Space.lookupD_eq_targets]
  constructor
  · rintro ⟨hmethods, hsteps⟩
    exact ⟨hmethods, hsteps⟩
  · intro h
    exact ⟨h.methods_eq, h.steps⟩

/-! ### Callbacks that dispatch nothing -/

/-- What is done one by one has an outcome, if each one has. -/
theorem exists_foldlM_eq_some {ι : Type} {run : Live τ α → ι → Option (Live τ α)} {items : List ι}
    (h : ∀ item ∈ items, ∀ live, ∃ live', run live item = some live') (live : Live τ α) :
    ∃ live', items.foldlM run live = some live' := by
  induction items generalizing live with
  | nil => exact ⟨live, rfl⟩
  | cons item items ih =>
    rw [List.forall_mem_cons] at h
    obtain ⟨next, hnext⟩ := h.1 live
    rw [List.foldlM_cons, hnext]
    exact ih h.2 next

/-- **Callbacks that dispatch nothing come to their end**, whatever they ask of the space. -/
theorem exists_dispatch_of_requests {message : Message α} {context : Context} {live : Live τ α}
    (h : ∀ call ∈ live.space.calls message context, ∀ action ∈ call.callback.actions,
      ∃ request, action = .request request) :
    ∃ methods live', dispatch message context live = some (methods, live') := by
  have hcalls : ∀ call ∈ live.space.calls message context, ∀ live : Live τ α,
      ∃ live', invoke 0 live call = some live' := by
    intro call hcall live
    rw [invoke]
    refine exists_foldlM_eq_some (fun action haction live ↦ ?_) _
    obtain ⟨request, rfl⟩ := h call hcall action haction
    rw [perform]
    exact ⟨_, rfl⟩
  obtain ⟨live', hrun⟩ := exists_foldlM_eq_some hcalls live
  rw [← runCalls] at hrun
  exact ⟨_, live', dispatchAt_eq_some_iff.2 ⟨rfl, hrun⟩⟩

end OscAddressing.Live

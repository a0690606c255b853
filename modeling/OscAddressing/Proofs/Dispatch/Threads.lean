import Mathlib.Logic.Relation
import OscAddressing.Dispatch.Live
import OscAddressing.Proofs.Space.WellFormed

/-!
# Every state of a live space

A dispatch with callbacks that act on the space is not one operation: between any two of its actions
the space can be seen, and be changed from elsewhere. To speak of all these states, what a dispatch
still has to do is made explicit as a list of tasks (`Todo`), of which `advance` does the first. A
nested dispatch puts its calls in front. A live space has any number of such threads, and `Reached`
says which states it can get into: a thread does its next task, a new dispatch begins, or somebody
performs an operation.

Two theorems connect this with what is proved elsewhere. `traced` is that the dispatch of
`Dispatch.Live`, when it has an outcome, gets there through these states. `Reached.exists_run` is
that each of them has the space of some run of operations; so all that holds after every run holds
at every moment, also while dispatches without end are going on.
-/

namespace OscAddressing

/-- The operation that a request is, when the callback of a given method makes it. A lookup is
none. -/
def Request.operation? {κ : Type} (method : MethodId) : Request κ → Option (Operation κ)
  | .register address callback? => some (.register address callback?)
  | .unregister address => some (.unregister address)
  | .unregisterAndPrune address => some (.unregisterAndPrune address)
  | .unregisterSelf => some (.unregisterId method)
  | .clear => some .clear
  | .lookup _ => none

/-- The operation that an action is. A dispatch is none, and leads to calls instead. -/
def Action.operation? {κ α : Type} (method : MethodId) : Action κ α → Option (Operation κ)
  | .request r => r.operation? method
  | .dispatch _ _ => none

/-- **What a request does to the space**: nothing, or the operation that it is. -/
theorem Space.snd_answer {κ : Type} (space : Space κ) (method : MethodId) (request : Request κ) :
    (space.answer method request).2 =
      (request.operation? method).toList.foldl Space.step space := by
  cases request with
  | register address callback? =>
    show _ = (space.registerD address callback?).2
    rw [answer, registerD]
    cases space.register address callback? <;> rfl
  | _ => rfl

namespace Live

variable {τ α : Type}

/-! ### Tasks -/

/-- One thing that a thread has to do. -/
inductive Todo (τ α : Type)
  /-- Make a call. -/
  | invoke (depth : Nat) (call : Call (Callback τ α) α)
  /-- Perform an action of a call. -/
  | perform (depth : Nat) (call : Call (Callback τ α) α) (action : Action (Callback τ α) α)
  /-- Enter an action in the log whose dispatch has come to its end. -/
  | conclude (call : Call (Callback τ α) α) (action : Action (Callback τ α) α) (outcome : Outcome)

/-- Do one thing: the space and log after it, and what there is to do first then. -/
def advance (live : Live τ α) : Todo τ α → Live τ α × List (Todo τ α)
  | .invoke depth call =>
    (live.note (.called depth call), call.callback.actions.map (.perform depth call))
  | .perform _ call (.request request) =>
    let (outcome, space) := live.space.answer call.method request
    ({ live with space }.note (.did call (.request request) outcome), [])
  | .perform depth call (.dispatch message context) =>
    let methods := (live.space.targets message.address).map Method.id
    (live, (live.space.calls message context).map (.invoke (depth + 1)) ++
      [.conclude call (.dispatch message context) (.matched methods)])
  | .conclude call action outcome => (live.note (.did call action outcome), [])

/-- One step of a thread. -/
inductive Step : Live τ α × List (Todo τ α) → Live τ α × List (Todo τ α) → Prop
  | intro (live : Live τ α) (todo : Todo τ α) (rest : List (Todo τ α)) :
      Step (live, todo :: rest) ((live.advance todo).1, (live.advance todo).2 ++ rest)

/-- **The states that a live space can get into**, with what its threads still have to do. Any of
them may be the next to go on, and operations may be performed at any time. -/
inductive Reached (config : Config) : Live τ α → List (List (Todo τ α)) → Prop
  /-- Nothing has happened yet. -/
  | fresh : Reached config ⟨.empty config, []⟩ []
  /-- An operation is performed, be it by code that a callback runs. -/
  | operated {live : Live τ α} {threads : List (List (Todo τ α))}
      (operation : Operation (Callback τ α)) :
      Reached config live threads →
        Reached config { live with space := live.space.step operation } threads
  /-- A dispatch begins, with its calls in some order. -/
  | begun {live : Live τ α} {threads : List (List (Todo τ α))} (schedule : Schedule τ α)
      (message : Message α) (context : Context) :
      Reached config live threads →
        Reached config live
          ((schedule (live.space.calls message context)).map (.invoke 0) :: threads)
  /-- A dispatch begins, with a thread for each of its calls. -/
  | spawned {live : Live τ α} {threads : List (List (Todo τ α))} (message : Message α)
      (context : Context) :
      Reached config live threads →
        Reached config live
          ((live.space.calls message context).map (fun call ↦ [.invoke 0 call]) ++ threads)
  /-- A thread does its next task. -/
  | stepped {live live' : Live τ α} {thread thread' : List (Todo τ α)}
      {before after : List (List (Todo τ α))} :
      Step (live, thread) (live', thread') → Reached config live (before ++ thread :: after) →
        Reached config live' (before ++ thread' :: after)
  /-- A thread that has nothing to do ends. -/
  | ended {live : Live τ α} {before after : List (List (Todo τ α))} :
      Reached config live (before ++ [] :: after) → Reached config live (before ++ after)

/-! ### The space changes by operations only -/

/-- **What a request comes to**: the operation that it is, and one entry. -/
theorem advance_request (live : Live τ α) (depth : Nat) (call : Call (Callback τ α) α)
    (request : Request (Callback τ α)) :
    live.advance (.perform depth call (.request request)) =
      (⟨(request.operation? call.method).toList.foldl Space.step live.space, live.log ++
        [.did call (.request request) (live.space.answer call.method request).1]⟩, []) := by
  rw [← Space.snd_answer]
  rfl

/-- **What a task does to the space** is nothing or an operation. -/
theorem space_advance (live : Live τ α) (todo : Todo τ α) :
    (live.advance todo).1.space = live.space ∨
      ∃ operation, (live.advance todo).1.space = live.space.step operation := by
  cases todo with
  | invoke depth call => exact .inl rfl
  | conclude call action outcome => exact .inl rfl
  | perform depth call action =>
    cases action with
    | dispatch message context => exact .inl rfl
    | request request =>
      rw [advance_request]
      cases request.operation? call.method with
      | none => exact .inl rfl
      | some operation => exact .inr ⟨operation, rfl⟩

/-- **Every state has the space of some run.** -/
theorem Reached.exists_run {config : Config} {live : Live τ α} {threads : List (List (Todo τ α))}
    (h : Reached config live threads) : ∃ run, live.space = Space.after config run := by
  have hoperation : ∀ (space : Space (Callback τ α)) (operation : Operation (Callback τ α)),
      (∃ run, space = Space.after config run) →
        ∃ run, space.step operation = Space.after config run := by
    rintro space operation ⟨run, rfl⟩
    exact ⟨run ++ [operation], (Space.after_append config run [operation]).symm⟩
  induction h with
  | fresh => exact ⟨[], rfl⟩
  | operated operation _ ih => exact hoperation _ operation ih
  | begun schedule message context _ ih => exact ih
  | spawned message context _ ih => exact ih
  | stepped hstep _ ih =>
    obtain ⟨_, todo, _⟩ := hstep
    rcases space_advance _ todo with hsame | ⟨operation, heq⟩
    · rwa [hsame]
    · rw [heq]
      exact hoperation _ operation ih
  | ended _ ih => exact ih

/-- **Every run leads to a state**, with nothing left to do. -/
theorem Reached.of_run (config : Config) (run : List (Operation (Callback τ α))) :
    Reached config ⟨Space.after config run, []⟩ [] := by
  induction run using List.reverseRecOn with
  | nil => exact .fresh
  | append_singleton run operation ih =>
    rw [Space.after_append]
    exact ih.operated operation

/-! ### What a dispatch is made of -/

/-- A dispatch answers with methods that are known before its calls are made. -/
theorem bind_answer_eq_some_iff {run : Option (Live τ α)} {methods methods' : List MethodId}
    {live' : Live τ α} :
    (run.bind fun final ↦ some (methods, final)) = some (methods', live') ↔
      methods' = methods ∧ run = some live' := by
  rw [Option.bind_eq_some_iff]
  constructor
  · rintro ⟨final, hrun, heq⟩
    obtain ⟨rfl, rfl⟩ := Prod.mk.inj (Option.some.inj heq)
    exact ⟨rfl, hrun⟩
  · rintro ⟨rfl, hrun⟩
    exact ⟨live', hrun, rfl⟩

/-- **A dispatch** has an outcome if its calls can be made. -/
theorem dispatchAt_eq_some_iff {depth : Nat} {message : Message α} {context : Context}
    {live live' : Live τ α} {methods : List MethodId} :
    dispatchAt depth message context live = some (methods, live') ↔
      methods = (live.space.targets message.address).map Method.id ∧
        runCalls depth (live.space.calls message context) live = some live' := by
  rw [dispatchAt]
  exact bind_answer_eq_some_iff

/-- **A dispatch as tasks** has an outcome if its calls can be made in the order of the schedule. -/
theorem dispatchTasks_eq_some_iff {schedule : Schedule τ α} {message : Message α}
    {context : Context} {live live' : Live τ α} {methods : List MethodId} :
    dispatchTasks schedule message context live = some (methods, live') ↔
      methods = (live.space.targets message.address).map Method.id ∧
        runCalls 0 (schedule (live.space.calls message context)) live = some live' :=
  bind_answer_eq_some_iff

/-- Messages are dispatched one after the other. -/
theorem dispatchEach_cons_eq_some_iff {one : Dispatcher τ α} {context : Context}
    {message : Message α} {messages : List (Message α)} {live live' : Live τ α}
    {methods : List MethodId} :
    dispatchEach one context (message :: messages) live = some (methods, live') ↔
      ∃ earlier middle later, one message context live = some (earlier, middle) ∧
        dispatchEach one context messages middle = some (later, live') ∧
        methods = earlier ++ later := by
  simp only [dispatchEach, Option.bind_eq_bind, Option.bind_eq_some_iff, Prod.exists]
  constructor
  · rintro ⟨earlier, middle, hfirst, later, final, hlater, heq⟩
    obtain ⟨rfl, rfl⟩ := Prod.mk.inj (Option.some.inj heq)
    exact ⟨earlier, middle, later, hfirst, hlater, rfl⟩
  · rintro ⟨earlier, middle, later, hfirst, hlater, rfl⟩
    exact ⟨earlier, middle, hfirst, later, live', hlater, rfl⟩

/-! ### Dispatches go through these states -/

/-- Any number of steps of a thread. -/
abbrev Steps : Live τ α × List (Todo τ α) → Live τ α × List (Todo τ α) → Prop :=
  Relation.ReflTransGen Step

/-- What is done one by one is done in steps, if each one is. -/
theorem steps_foldlM {ι : Type} {run : Live τ α → ι → Option (Live τ α)} {todo : ι → Todo τ α}
    (hone : ∀ live item live', run live item = some live' →
      ∀ rest, Steps (live, todo item :: rest) (live', rest))
    {items : List ι} {live live' : Live τ α} (h : items.foldlM run live = some live')
    (rest : List (Todo τ α)) :
    Steps (live, items.map todo ++ rest) (live', rest) := by
  induction items generalizing live with
  | nil =>
    obtain rfl : live = live' := Option.some.inj h
    exact .refl
  | cons item items ih =>
    rw [List.foldlM_cons, Option.bind_eq_bind, Option.bind_eq_some_iff] at h
    obtain ⟨next, hnext, h⟩ := h
    exact (hone live item next hnext _).trans (ih h)

/-- **What has an outcome is done in steps.** Whatever the thread has to do afterwards is left. -/
theorem traced :
    (∀ depth call (live : Live τ α) action live', perform depth call live action = some live' →
      ∀ rest, Steps (live, .perform depth call action :: rest) (live', rest)) ∧
    (∀ depth message context (live : Live τ α) outcome,
      dispatchAt depth message context live = some outcome →
        outcome.1 = (live.space.targets message.address).map Method.id ∧
          ∀ rest, Steps (live, (live.space.calls message context).map (.invoke depth) ++ rest)
            (outcome.2, rest)) ∧
    (∀ depth calls (live live' : Live τ α), runCalls depth calls live = some live' →
      ∀ rest, Steps (live, calls.map (.invoke depth) ++ rest) (live', rest)) ∧
    ∀ depth (live : Live τ α) call live', invoke depth live call = some live' →
      ∀ rest, Steps (live, .invoke depth call :: rest) (live', rest) := by
  refine perform.mutual_partial_correctness _ _ _ _ ?perform ?dispatch ?runCalls ?invoke
  case perform =>
    intro nested hnested depth call live action live' h rest
    cases action with
    | request request =>
      obtain rfl := Option.some.inj h
      exact .single (.intro live (.perform depth call (.request request)) rest)
    | dispatch message context =>
      -- The calls of the nested dispatch come first, and then the entry in the log.
      obtain ⟨⟨methods, inner⟩, hrun, heq⟩ := Option.bind_eq_some_iff.1 h
      obtain rfl := Option.some.inj heq
      obtain ⟨rfl, hsteps⟩ := hnested _ _ _ _ _ hrun
      refine .head (.intro live _ rest) ?_
      rw [advance, List.append_assoc]
      exact (hsteps _).trans (.single (.intro inner (.conclude call _ _) rest))
  case dispatch =>
    rintro run hrun depth message context live ⟨methods, live'⟩ h
    obtain ⟨hmethods, hcalls⟩ := bind_answer_eq_some_iff.1 h
    exact ⟨hmethods, hrun _ _ _ _ hcalls⟩
  case runCalls =>
    intro run hrun depth calls live live' h
    exact steps_foldlM (hrun depth) h
  case invoke =>
    intro run hrun depth live call live' h rest
    exact .head (.intro live (.invoke depth call) rest) (steps_foldlM (hrun depth call) h rest)

/-- **Calls are made in steps.** -/
theorem steps_runCalls {depth : Nat} {calls : List (Call (Callback τ α) α)}
    {live live' : Live τ α} (h : runCalls depth calls live = some live') (rest : List (Todo τ α)) :
    Steps (live, calls.map (.invoke depth) ++ rest) (live', rest) :=
  traced.2.2.1 depth calls live live' h rest

variable {config : Config} {live live' : Live τ α} {threads : List (List (Todo τ α))}

theorem Reached.steps {thread thread' : List (Todo τ α)} {before after : List (List (Todo τ α))}
    (hsteps : Steps (live, thread) (live', thread'))
    (h : Reached config live (before ++ thread :: after)) :
    Reached config live' (before ++ thread' :: after) := by
  generalize hstart : (live, thread) = start at hsteps
  generalize hend : (live', thread') = last at hsteps
  induction hsteps generalizing live' thread' with
  | refl =>
    obtain ⟨rfl, rfl⟩ := Prod.mk.inj (hstart.trans hend.symm)
    exact h
  | @tail middle last _ hstep ih =>
    obtain ⟨inner, innerThread⟩ := middle
    subst hend
    exact .stepped hstep (ih rfl)

/-- A dispatch that begins and comes to its end is a way to get on. -/
theorem Reached.of_runCalls (h : Reached config live threads) (schedule : Schedule τ α)
    (message : Message α) (context : Context)
    (hrun : runCalls 0 (schedule (live.space.calls message context)) live = some live') :
    Reached config live' threads := by
  have hbegun : Reached config live
      ([] ++ (schedule (live.space.calls message context)).map (.invoke 0) :: threads) :=
    h.begun schedule message context
  have hsteps := steps_runCalls hrun []
  rw [List.append_nil] at hsteps
  exact .ended (hbegun.steps hsteps)

/-- **The outcome of a dispatch** is a state that the space can get into. -/
theorem Reached.dispatch (h : Reached config live threads) {message : Message α}
    {context : Context} {methods : List MethodId}
    (hrun : dispatch message context live = some (methods, live')) :
    Reached config live' threads := by
  obtain ⟨-, hrun⟩ := dispatchAt_eq_some_iff.1 hrun
  exact h.of_runCalls id message context hrun

theorem Reached.dispatchEach (h : Reached config live threads) {context : Context}
    {messages : List (Message α)} {methods : List MethodId}
    (hrun : dispatchEach Live.dispatch context messages live = some (methods, live')) :
    Reached config live' threads := by
  induction messages generalizing live methods with
  | nil =>
    obtain ⟨-, rfl⟩ := Prod.mk.inj (Option.some.inj hrun)
    exact h
  | cons message messages ih =>
    obtain ⟨_, middle, _, hfirst, hlater, -⟩ := dispatchEach_cons_eq_some_iff.1 hrun
    exact ih (h.dispatch hfirst) hlater

theorem Reached.dispatchScheduled (h : Reached config live threads)
    {schedule? : Option (Schedule τ α)} {message : Message α} {context : Context}
    {methods : List MethodId}
    (hrun : dispatchScheduled schedule? message context live = some (methods, live')) :
    Reached config live' threads := by
  cases schedule? with
  | none =>
    obtain ⟨-, hrun⟩ := dispatchTasks_eq_some_iff.1 hrun
    exact h.of_runCalls id message context hrun
  | some schedule =>
    obtain ⟨-, hrun⟩ := dispatchTasks_eq_some_iff.1 hrun
    exact h.of_runCalls schedule message context hrun

/-! ### The shape of every tree -/

/-- **Every tree is well-formed, at every moment.** The tree after any run of operations is, and so
is the tree in every state that a live space can get into: while any number of dispatches is going
on, each at any depth, with operations performed by callbacks and from elsewhere in between. The
outcomes of dispatches, of a message, a packet or as tasks in any order, are such states. -/
theorem wellFormed_throughout {κ : Type u} (config : Config) :
    (∀ run : List (Operation κ), (Space.after config run).root.WellFormed config.strictNames) ∧
      (∀ (live : Live τ α) threads, Reached config live threads →
        live.space.root.WellFormed config.strictNames) ∧
      ∀ (live live' : Live τ α) threads methods, Reached config live threads →
        (∀ message context, dispatch message context live = some (methods, live') →
          Reached config live' threads) ∧
        (∀ packet context, dispatchPacket packet context live = some (methods, live') →
          Reached config live' threads) ∧
        ∀ schedule? message context,
          dispatchScheduled schedule? message context live = some (methods, live') →
            Reached config live' threads := by
  refine ⟨Space.wellFormed_after config, fun live threads h ↦ ?_, fun live live' threads methods h ↦
    ⟨fun _ _ ↦ h.dispatch, fun _ _ ↦ h.dispatchEach, fun _ _ _ ↦ h.dispatchScheduled⟩⟩
  obtain ⟨run, heq⟩ := h.exists_run
  rw [heq]
  exact Space.wellFormed_after config run

end Live

end OscAddressing

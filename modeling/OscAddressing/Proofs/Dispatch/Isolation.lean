import Mathlib.Data.List.Permutation
import OscAddressing.Proofs.Dispatch.Threads
import OscAddressing.Proofs.Space.Resolve

/-!
# A dispatch is isolated from what its callbacks do

The calls of a message are resolved before the first of them is made, and nothing that callbacks do
to the space afterwards adds to them, takes from them or changes what they are given:
`dispatch_isolated`. What callbacks do is in the log, and the space after a dispatch is the space
before it with the operations of the log performed in order.

The proof goes through the tasks of `Threads`. `Told` is the account that the log gives of any
number of steps: the calls that have been made and those that are still to be made are together the
calls that were to be made, and likewise for actions, which are a stack. One step keeps the account
(`told_step`) and accounts are joined (`Told.trans`). At the end of a dispatch nothing is left to
do, so the log tells everything.
-/

namespace OscAddressing

/-! ### Calls as seen from outside -/

namespace Space

variable {κ : Type u} {α : Type}

/-- The callback that is held by the method of a given identity. -/
def callbackOf? (space : Space κ) (id : MethodId) : Option κ :=
  (space.root.methods.find? fun entry ↦ entry.2.id = id).bind fun entry ↦ entry.2.callback?

theorem Sound.callbackOf?_of_mem_methods {space : Space κ} (h : space.Sound)
    {entry : Path × Method κ} (hmem : entry ∈ space.root.methods) :
    space.callbackOf? entry.2.id = entry.2.callback? := by
  rw [callbackOf?, find?_eq_some_of_nodup h.nodup_methodIds hmem]
  rfl

/-- A message is sent to registered methods only. -/
theorem Sound.exists_of_mem_targets {space : Space κ} (h : space.Sound) {t : Text}
    {method : Method κ} (hmem : method ∈ space.targets t) :
    ∃ entry ∈ space.root.methods, entry.2 = method := by
  obtain ⟨-, -, path, hentry, -⟩ := h.mem_targets_iff.1 hmem
  exact ⟨(path, method), hentry, rfl⟩

/-- **The calls of a message** are to the methods that a lookup of its pattern gives, as far as they
hold a callback. -/
theorem Sound.calls_eq {space : Space κ} (h : space.Sound) (message : Message α)
    (context : Context) :
    space.calls message context = (space.lookupD message.address).filterMap fun id ↦
      (space.callbackOf? id).map fun callback ↦ ⟨id, callback, message, context⟩ := by
  rw [calls, lookupD_eq_targets, List.filterMap_map]
  refine List.filterMap_congr fun method hmethod ↦ ?_
  obtain ⟨entry, hentry, rfl⟩ := h.exists_of_mem_targets hmethod
  exact congrArg _ (h.callbackOf?_of_mem_methods hentry).symm

/-- **No method is looked up twice.** -/
theorem Sound.nodup_lookupD {space : Space κ} (h : space.Sound) (t : Text) :
    (space.lookupD t).Nodup := by
  rw [lookupD, lookup]
  cases space.readPattern t with
  | error e => exact .nil
  | ok pattern =>
    show (space.matched pattern).Nodup
    rw [matched_eq_covered h]
    exact (List.filter_sublist.map _).nodup h.nodup_methodIds

end Space

namespace Live

variable {τ α : Type}

/-! ### What the log tells -/

/-- The call that an entry is the invocation of, if it is at a given depth. -/
def calledAt? (depth : Nat) : LogEntry τ α → Option (Call (Callback τ α) α)
  | .called depth' call => if depth' = depth then some call else none
  | .did .. => none

/-- The operation that an entry tells of. -/
def operation? : LogEntry τ α → Option (Operation (Callback τ α))
  | .called .. => none
  | .did call action _ => action.operation? call.method

/-- A space after the operations that entries tell of. -/
def replayed (entries : List (LogEntry τ α)) (space : Space (Callback τ α)) :
    Space (Callback τ α) :=
  (entries.filterMap operation?).foldl Space.step space

theorem replayed_append (entries more : List (LogEntry τ α)) (space : Space (Callback τ α)) :
    replayed (entries ++ more) space = replayed more (replayed entries space) := by
  rw [replayed, List.filterMap_append, List.foldl_append]
  rfl

/-- An action that a call has to perform. -/
abbrev Due (τ α : Type) := Call (Callback τ α) α × Action (Callback τ α) α

/-- The actions of a call, which it performs in order. -/
def actionsOf (call : Call (Callback τ α) α) : List (Due τ α) :=
  call.callback.actions.map (call, ·)

/-- **Entries that are in order**, from the actions that are due before them to those that are due
after them. An invocation makes the actions of the callback due, before all others; and an action
that has been performed was the first that was due. -/
inductive InOrder : List (Due τ α) → List (LogEntry τ α) → List (Due τ α) → Prop
  | nil (due : List (Due τ α)) : InOrder due [] due
  | called {due due' : List (Due τ α)} {entries : List (LogEntry τ α)} (depth : Nat)
      (call : Call (Callback τ α) α) :
      InOrder (actionsOf call ++ due) entries due' →
        InOrder due (.called depth call :: entries) due'
  | did {due due' : List (Due τ α)} {entries : List (LogEntry τ α)}
      (call : Call (Callback τ α) α) (action : Action (Callback τ α) α) (outcome : Outcome) :
      InOrder due entries due' →
        InOrder ((call, action) :: due) (.did call action outcome :: entries) due'

theorem InOrder.append {due due' due'' : List (Due τ α)} {entries more : List (LogEntry τ α)}
    (h : InOrder due entries due') (h' : InOrder due' more due'') :
    InOrder due (entries ++ more) due'' := by
  induction h with
  | nil => exact h'
  | called depth call _ ih => exact .called depth call (ih h')
  | did call action outcome _ ih => exact .did call action outcome (ih h')

/-! ### What is left to do -/

/-- The call that is to be made at a given depth. -/
def Todo.callAt? (depth : Nat) : Todo τ α → Option (Call (Callback τ α) α)
  | .invoke depth' call => if depth' = depth then some call else none
  | .perform .. => none
  | .conclude .. => none

/-- The action that is due. -/
def Todo.action? : Todo τ α → Option (Due τ α)
  | .invoke .. => none
  | .perform _ call action => some (call, action)
  | .conclude call action _ => some (call, action)

/-- **The tasks that come up** in a dispatch whose calls are at a given depth: none is less deep,
and actions that are concluded are dispatches. -/
def Todo.Within (depth : Nat) : Todo τ α → Prop
  | .invoke depth' _ => depth ≤ depth'
  | .perform depth' _ _ => depth ≤ depth'
  | .conclude _ action _ => ∃ message context, action = .dispatch message context

/-- **The account that the log gives** of what happens between two states of a thread whose tasks
are at a given depth or deeper. -/
structure Told (depth : Nat) (entries : List (LogEntry τ α))
    (before after : Live τ α × List (Todo τ α)) : Prop where
  log : after.1.log = before.1.log ++ entries
  space : after.1.space = replayed entries before.1.space
  /-- The calls that were to be made have been made, or are to be made still. -/
  calls : entries.filterMap (calledAt? depth) ++ after.2.filterMap (Todo.callAt? depth) =
    before.2.filterMap (Todo.callAt? depth)
  order : InOrder (before.2.filterMap Todo.action?) entries (after.2.filterMap Todo.action?)
  within : ∀ todo ∈ after.2, todo.Within depth

theorem Told.trans {depth : Nat} {entries more : List (LogEntry τ α)}
    {first second third : Live τ α × List (Todo τ α)} (h : Told depth entries first second)
    (h' : Told depth more second third) : Told depth (entries ++ more) first third where
  log := by rw [h'.log, h.log, List.append_assoc]
  space := by rw [h'.space, h.space, replayed_append]
  calls := by rw [List.filterMap_append, List.append_assoc, h'.calls, h.calls]
  order := h.order.append h'.order
  within := h'.within

/-- Actions that are to be performed are no calls, and are due in their order. -/
theorem filterMap_performs (depth depth' : Nat) (call : Call (Callback τ α) α)
    (rest : List (Todo τ α)) :
    (call.callback.actions.map (Todo.perform depth' call) ++ rest).filterMap (Todo.callAt? depth) =
        rest.filterMap (Todo.callAt? depth) ∧
      (call.callback.actions.map (Todo.perform depth' call) ++ rest).filterMap Todo.action? =
        actionsOf call ++ rest.filterMap Todo.action? := by
  have hcalls : Todo.callAt? depth ∘ Todo.perform depth' call = fun _ ↦ none := rfl
  have hactions : Todo.action? ∘ Todo.perform depth' call = some ∘ (call, ·) := rfl
  rw [List.filterMap_append, List.filterMap_append, List.filterMap_map, List.filterMap_map, hcalls,
    hactions, List.filterMap_eq_map, List.filterMap_none]
  exact ⟨rfl, rfl⟩

/-- Calls that are to be made are at their own depth, and no action is due before them. -/
theorem filterMap_invokes (depth depth' : Nat) (calls : List (Call (Callback τ α) α))
    (rest : List (Todo τ α)) :
    (calls.map (Todo.invoke depth') ++ rest).filterMap (Todo.callAt? depth) =
        (if depth' = depth then calls else []) ++ rest.filterMap (Todo.callAt? depth) ∧
      (calls.map (Todo.invoke depth') ++ rest).filterMap Todo.action? =
        rest.filterMap Todo.action? := by
  have hactions : (Todo.action? : Todo τ α → _) ∘ Todo.invoke depth' = fun _ ↦ none := rfl
  have hcalls : (Todo.callAt? depth : Todo τ α → _) ∘ Todo.invoke depth' =
      fun call ↦ if depth' = depth then some call else none := rfl
  rw [List.filterMap_append, List.filterMap_append, List.filterMap_map, List.filterMap_map, hcalls,
    hactions, List.filterMap_none]
  refine ⟨?_, rfl⟩
  split <;> simp

/-- **The log tells what a step does.** -/
theorem told_step {depth : Nat} {before after : Live τ α × List (Todo τ α)} (h : Step before after)
    (hwithin : ∀ todo ∈ before.2, todo.Within depth) :
    ∃ entries, Told depth entries before after := by
  obtain ⟨live, todo, rest⟩ := h
  rw [List.forall_mem_cons] at hwithin
  obtain ⟨htodo, hrest⟩ := hwithin
  cases todo with
  | invoke depth' call =>
    obtain ⟨hcalls, hactions⟩ := filterMap_performs depth depth' call rest
    refine ⟨[.called depth' call], rfl, rfl, ?_, ?_, ?_⟩
    · rw [advance, hcalls]
      by_cases hdepth : depth' = depth <;> simp [calledAt?, Todo.callAt?, hdepth]
    · rw [advance, hactions]
      exact .called depth' call (.nil _)
    · rw [advance, List.forall_mem_append, List.forall_mem_map]
      exact ⟨fun _ _ ↦ htodo, hrest⟩
  | conclude call action outcome =>
    obtain ⟨message, context, rfl⟩ := htodo
    exact ⟨[.did call _ outcome], rfl, rfl, rfl, .did _ _ _ (.nil _), hrest⟩
  | perform depth' call action =>
    cases action with
    | request request =>
      rw [advance_request]
      refine ⟨[.did call (.request request) _], rfl, ?_, rfl, .did _ _ _ (.nil _), hrest⟩
      show _ = replayed _ _
      rw [replayed, List.filterMap_cons, List.filterMap_nil, operation?, Action.operation?]
      cases request.operation? call.method <;> rfl
    | dispatch message context =>
      have hdepth : depth' + 1 ≠ depth := Nat.ne_of_gt (Nat.lt_succ_of_le htodo)
      refine ⟨[], (List.append_nil _).symm, rfl, ?_, ?_, ?_⟩
      · rw [advance, List.append_assoc, (filterMap_invokes ..).1, if_neg hdepth]
        rfl
      · rw [advance, List.append_assoc, (filterMap_invokes 0 ..).2]
        exact .nil _
      · rw [advance, List.append_assoc, List.forall_mem_append, List.forall_mem_map]
        exact ⟨fun _ _ ↦ Nat.le_succ_of_le htodo, List.forall_mem_cons.2 ⟨⟨_, _, rfl⟩, hrest⟩⟩

/-- **The log tells what any number of steps do.** -/
theorem told_steps {depth : Nat} {before after : Live τ α × List (Todo τ α)}
    (h : Steps before after) (hwithin : ∀ todo ∈ before.2, todo.Within depth) :
    ∃ entries, Told depth entries before after := by
  induction h with
  | refl => exact ⟨[], (List.append_nil _).symm, rfl, rfl, .nil _, hwithin⟩
  | tail _ hstep ih =>
    obtain ⟨entries, htold⟩ := ih
    obtain ⟨more, hmore⟩ := told_step hstep htold.within
    exact ⟨entries ++ more, htold.trans hmore⟩

/-! ### Dispatches -/

/-- **A dispatch with an outcome** answers with what a lookup gives, and its calls, made one after
the other, leave nothing to do. -/
theorem steps_dispatchAt {depth : Nat} {message : Message α} {context : Context}
    {live live' : Live τ α} {methods : List MethodId}
    (h : dispatchAt depth message context live = some (methods, live')) :
    methods = live.space.lookupD message.address ∧
      Steps (live, (live.space.calls message context).map (.invoke depth)) (live', []) := by
  obtain ⟨rfl, hsteps⟩ := traced.2.1 depth message context live (methods, live') h
  have hend := hsteps []
  rw [List.append_nil] at hend
  exact ⟨(Space.lookupD_eq_targets ..).symm, hend⟩

/-- **The log tells what calls do**, from where they are all that there is to do. -/
theorem told_invokes {depth : Nat} {calls : List (Call (Callback τ α) α)} {live : Live τ α}
    {after : Live τ α × List (Todo τ α)} (h : Steps (live, calls.map (.invoke depth)) after) :
    ∃ entries, Told depth entries (live, calls.map (.invoke depth)) after :=
  told_steps h (List.forall_mem_map.2 fun _ _ ↦ Nat.le_refl depth)

/-- **What calls come to** that are made one after the other and leave nothing to do: they are the
calls that the log tells of at their depth, every callback performs its actions in order, and the
space afterwards is what the operations in the log make of the one before. -/
theorem exists_entries_of_invokes {depth : Nat} {calls : List (Call (Callback τ α) α)}
    {live live' : Live τ α} (h : Steps (live, calls.map (.invoke depth)) (live', [])) :
    ∃ entries, live'.log = live.log ++ entries ∧ entries.filterMap (calledAt? depth) = calls ∧
      InOrder [] entries [] ∧ live'.space = replayed entries live.space := by
  -- In the beginning the calls are all that there is to do, and in the end there is nothing.
  obtain ⟨entries, htold⟩ := told_invokes h
  obtain ⟨hcalls, hactions⟩ := filterMap_invokes depth depth calls []
  rw [List.append_nil] at hcalls hactions
  have htoldCalls := htold.calls
  have htoldOrder := htold.order
  rw [hcalls, if_pos rfl] at htoldCalls
  rw [hactions] at htoldOrder
  exact ⟨entries, htold.log, by simpa using htoldCalls, htoldOrder, htold.space⟩

/-- **What a dispatch comes to.** The methods are those that a lookup of the address pattern gives
before it, and no method is among them twice. The callbacks that the dispatch itself invokes are
those that these methods hold before it, in the order of the methods, each with the identity of its
method, the message and the context. Every callback, of this dispatch or a nested one, performs its
actions in order. The space afterwards is what the operations in the log make of the one before. -/
structure Isolated (depth : Nat) (message : Message α) (context : Context) (live : Live τ α)
    (methods : List MethodId) (live' : Live τ α) : Prop where
  methods_eq : methods = live.space.lookupD message.address
  nodup : methods.Nodup
  told : ∃ entries, live'.log = live.log ++ entries ∧
    (entries.filterMap (calledAt? depth) = methods.filterMap fun id ↦
      (live.space.callbackOf? id).map fun callback ↦ ⟨id, callback, message, context⟩) ∧
    InOrder [] entries [] ∧ live'.space = replayed entries live.space

theorem isolated_dispatchAt {live live' : Live τ α} (h : live.space.Sound) {message : Message α}
    {context : Context} {depth : Nat} {methods : List MethodId}
    (hrun : dispatchAt depth message context live = some (methods, live')) :
    Isolated depth message context live methods live' := by
  obtain ⟨rfl, hsteps⟩ := steps_dispatchAt hrun
  obtain ⟨entries, hlog, hcalls, horder, hspace⟩ := exists_entries_of_invokes hsteps
  exact ⟨rfl, h.nodup_lookupD _, entries, hlog, hcalls.trans (h.calls_eq ..), horder, hspace⟩

/-- Callbacks without actions are invoked, and nothing else happens. -/
theorem runCalls_of_no_actions (depth : Nat) {calls : List (Call (Callback τ α) α)}
    (h : ∀ call ∈ calls, call.callback.actions = []) (live : Live τ α) :
    runCalls depth calls live =
      some { live with log := live.log ++ calls.map (.called depth) } := by
  induction calls generalizing live with
  | nil =>
    rw [List.map_nil, List.append_nil, runCalls]
    rfl
  | cons call rest ih =>
    rw [List.forall_mem_cons] at h
    have hinvoke : invoke depth live call = some (live.note (.called depth call)) := by
      rw [invoke, h.1]
      rfl
    have hrest := ih h.2 (live.note (.called depth call))
    rw [runCalls] at hrest
    rw [runCalls, List.foldlM_cons, hinvoke, Option.bind_eq_bind, Option.bind_some, hrest, note,
      List.append_assoc]
    rfl

/-- **A dispatch is isolated from what its callbacks do**, in every state that a live space can get
into, and so is every nested dispatch, however many dispatches there are around it. If no callback
has actions, a dispatch comes to its end, with the methods and calls of a dispatch in a space whose
callbacks do not touch it. -/
theorem dispatch_isolated {config : Config} {live : Live τ α} {threads : List (List (Todo τ α))}
    (h : Reached config live threads) (message : Message α) (context : Context) :
    (∀ methods live', dispatch message context live = some (methods, live') →
      Isolated 0 message context live methods live') ∧
    (∀ depth methods live', dispatchAt depth message context live = some (methods, live') →
      Isolated depth message context live methods live') ∧
    ((∀ path method callback, (path, method) ∈ live.space.root.methods →
        method.callback? = some callback → callback.actions = []) →
      dispatch message context live = some ((live.space.dispatch message context).methods,
        { live with
          log := live.log ++ (live.space.dispatch message context).calls.map (.called 0) })) := by
  obtain ⟨run, heq⟩ := h.exists_run
  have hsound : live.space.Sound := heq ▸ Space.sound_after config run
  refine ⟨fun methods live' ↦ isolated_dispatchAt hsound,
    fun depth methods live' ↦ isolated_dispatchAt hsound, fun hactions ↦ ?_⟩
  have hcalls : ∀ call ∈ live.space.calls message context, call.callback.actions = [] := by
    intro call hcall
    obtain ⟨method, hmethod, heq⟩ := List.mem_filterMap.1 hcall
    obtain ⟨callback, hcallback, rfl⟩ := Option.map_eq_some_iff.1 heq
    obtain ⟨⟨path, method⟩, hentry, rfl⟩ := hsound.exists_of_mem_targets hmethod
    exact hactions path method callback hentry hcallback
  rw [dispatch, dispatchAt, runCalls_of_no_actions 0 hcalls]
  rfl

/-- Two methods are matched. The callback of the first unregisters both, registers a method whose
callback looks everything up, and sends the message again. And a method whose callback has no
actions is the only one. -/
theorem dispatch_isolated_unregistering :
    let message : Message Unit := ⟨"/*".toList, []⟩
    (∃ (live live' : Live Unit Unit) (methods : List MethodId), Reached {} live [] ∧
      dispatch message {} live = some (methods, live') ∧
      methods = [.issued 0, .issued 1] ∧
      Isolated 0 message {} live methods live') ∧
    ∃ live : Live Unit Unit, Reached {} live [] ∧
      dispatch message {} live = some ((live.space.dispatch message {}).methods,
        { live with
          log := live.log ++ (live.space.dispatch message {}).calls.map (.called 0) }) := by
  intro message
  constructor
  · let looking : Callback Unit Unit := ⟨(), [.request (.lookup "/*".toList)]⟩
    let live : Live Unit Unit := ⟨.after {} [
      .register "/a".toList (some ⟨(), [.request (.unregister "/b".toList),
        .request .unregisterSelf, .request (.register "/c".toList (some looking)),
        .dispatch message {}]⟩),
      .register "/b".toList (some ⟨(), []⟩)], []⟩
    have hreached : Reached {} live [] := .of_run {} _
    have hmethods : (dispatch message {} live).map Prod.fst = some [.issued 0, .issued 1] := by
      cbv
    obtain ⟨⟨methods, live'⟩, hrun, rfl⟩ := Option.map_eq_some_iff.1 hmethods
    exact ⟨live, live', _, hreached, hrun, rfl, (dispatch_isolated hreached message {}).1 _ _ hrun⟩
  · refine ⟨⟨.after {} [.register "/a".toList (some ⟨(), []⟩)], []⟩, .of_run {} _,
      (dispatch_isolated (.of_run {} _) message {}).2.2 ?_⟩
    have hactions : ((Space.after {} [.register "/a".toList (some ⟨(), []⟩)] :
        Space (Callback Unit Unit)).root.methods.all fun entry ↦
          entry.2.callback?.all fun callback ↦ callback.actions.isEmpty) = true := by
      decide +kernel
    intro path method callback hentry hcallback
    have hempty := List.all_eq_true.1 hactions _ hentry
    rw [hcallback] at hempty
    exact List.isEmpty_iff.1 hempty

end Live

end OscAddressing

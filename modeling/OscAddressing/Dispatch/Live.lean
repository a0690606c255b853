import OscAddressing.Dispatch.Call
import OscAddressing.Space.Registration

/-!
# Dispatch with callbacks that act on the space

A live space is an address space whose callbacks may themselves register, unregister, look up and
dispatch; and the methods that they register may hold callbacks that do. The calls of a message are
resolved before the first of them runs: a callback that changes the space changes what later
messages match, and nothing about the message that is being dispatched.

Everything that happens is entered in a log, an invocation before what it does, and an action once
it is done, so after the entries of a dispatch nested in it. `depth` in the entry of an invocation
is the number of dispatches around the one that it belongs to.

Callbacks can dispatch to one another without end. Such a dispatch has no outcome (`none`), and no
other dispatch is without one.
-/

namespace OscAddressing

/-! ### Callbacks -/

/-- What a callback can ask of the space that it is called from. -/
inductive Request (κ : Type)
  /-- Register a method at an address, with a callback or without. -/
  | register (address : Text) (callback? : Option κ)
  /-- Unregister the method at an address. -/
  | unregister (address : Text)
  /-- Unregister the method at an address, and remove the containers left empty. -/
  | unregisterAndPrune (address : Text)
  /-- Unregister the method that is being invoked. -/
  | unregisterSelf
  /-- Unregister everything. -/
  | clear
  /-- Look up the methods that a pattern matches. -/
  | lookup (pattern : Text)

/-- What a callback can do. -/
inductive Action (κ α : Type)
  /-- Have the space do something. -/
  | request (request : Request κ)
  /-- Dispatch a message. -/
  | dispatch (message : Message α) (context : Context)

/-- A callback: a tag by which it is known, and the actions it performs in order. -/
structure Callback (τ α : Type) where
  tag : τ
  actions : List (Action (Callback τ α) α) := []

/-- What an action answers. -/
inductive Outcome
  /-- The identity of the method registered, or the reason why there is none. -/
  | registered (result : Except Error MethodId)
  /-- Whether there was a method to unregister. -/
  | unregistered (found : Bool)
  /-- Everything has been unregistered. -/
  | cleared
  /-- The methods matched by a pattern. -/
  | matched (methods : List MethodId)

/-- The answer of a space to what the callback of a method asks, and the space after it. -/
def Space.answer {κ : Type} (space : Space κ) (method : MethodId) :
    Request κ → Outcome × Space κ
  | .register address callback? =>
    match space.register address callback? with
    | .ok (id, space) => (.registered (.ok id), space)
    | .error e => (.registered (.error e), space)
  | .unregister address =>
    let (found, space) := space.unregister address
    (.unregistered found, space)
  | .unregisterAndPrune address =>
    let (found, space) := space.unregisterAndPrune address
    (.unregistered found, space)
  | .unregisterSelf =>
    let (found, space) := space.unregisterId method
    (.unregistered found, space)
  | .clear => (.cleared, space.clear)
  | .lookup pattern => (.matched (space.lookupD pattern), space)

/-! ### Live spaces -/

/-- Entries of the log. -/
inductive LogEntry (τ α : Type)
  /-- A callback has been invoked. -/
  | called (depth : Nat) (call : Call (Callback τ α) α)
  /-- A callback has performed an action. -/
  | did (call : Call (Callback τ α) α) (action : Action (Callback τ α) α) (outcome : Outcome)

/-- A space with callbacks that act on it, and the log of what they did, oldest entry first. -/
structure Live (τ α : Type) where
  space : Space (Callback τ α)
  log : List (LogEntry τ α) := []

namespace Live

variable {τ α : Type}

/-- How a message is dispatched: the methods matched, and the space and log after it. -/
abbrev Dispatcher (τ α : Type) :=
  Message α → Context → Live τ α → Option (List MethodId × Live τ α)

/-- Add an entry to the log. -/
def note (live : Live τ α) (entry : LogEntry τ α) : Live τ α :=
  { live with log := live.log ++ [entry] }

/-! ### Dispatch of a message -/

mutual

/-- Perform an action of a call and enter it in the log. -/
def perform (depth : Nat) (call : Call (Callback τ α) α) (live : Live τ α) :
    Action (Callback τ α) α → Option (Live τ α)
  | .request request =>
    let (outcome, space) := live.space.answer call.method request
    return { live with space }.note (.did call (.request request) outcome)
  | .dispatch message context => do
    let (methods, live) ← live |>.dispatchAt (depth + 1) message context
    return live.note (.did call (.dispatch message context) (.matched methods))
partial_fixpoint

/-- Run a callback: enter the invocation in the log, then perform the actions in order. -/
def invoke (depth : Nat) (live : Live τ α) (call : Call (Callback τ α) α) : Option (Live τ α) :=
  call.callback.actions.foldlM (fun live action ↦ live |>.perform depth call action)
    (live.note (.called depth call))
partial_fixpoint

/-- Run callbacks in order. -/
def runCalls (depth : Nat) (calls : List (Call (Callback τ α) α)) (live : Live τ α) :
    Option (Live τ α) :=
  calls.foldlM (fun live call ↦ live |>.invoke depth call) live
partial_fixpoint

/-- Dispatch a message, with a number of dispatches around this one. -/
def dispatchAt (depth : Nat) (message : Message α) (context : Context) (live : Live τ α) :
    Option (List MethodId × Live τ α) := do
  let methods := (live.space.targets message.address).map Method.id
  let live ← live |>.runCalls depth (live.space.calls message context)
  return (methods, live)
partial_fixpoint

end

/-- Dispatch a message; no outcome when callbacks dispatch to one another without end. -/
def dispatch : Dispatcher τ α := dispatchAt 0

/-! ### Dispatch of a packet -/

/-- Dispatch messages in order with a given dispatcher, each resolved when its turn comes. -/
def dispatchEach (one : Dispatcher τ α) (context : Context) :
    List (Message α) → Live τ α → Option (List MethodId × Live τ α)
  | [], live => some ([], live)
  | message :: rest, live => do
    let (methods, live) ← one message context live
    let (later, live) ← dispatchEach one context rest live
    return (methods ++ later, live)

/-- Dispatch the messages of a packet in order. -/
def dispatchPacket (packet : Packet α) (context : Context) (live : Live τ α) :
    Option (List MethodId × Live τ α) :=
  dispatchEach dispatch context packet.messages live

/-! ### Dispatch as tasks -/

/-- The order in which the calls of a message run when each is a task of its own. -/
abbrev Schedule (τ α : Type) := List (Call (Callback τ α) α) → List (Call (Callback τ α) α)

/-- Dispatch a message with every call as a task, run in the order of the schedule. -/
def dispatchTasks (schedule : Schedule τ α) : Dispatcher τ α := fun message context live ↦ do
  let methods := (live.space.targets message.address).map Method.id
  let tasks := schedule (live.space.calls message context)
  let live ← runCalls 0 tasks live
  return (methods, live)

/-- Dispatch a message as tasks, or in place and in order when there is nothing that runs tasks. -/
def dispatchScheduled (schedule? : Option (Schedule τ α)) : Dispatcher τ α :=
  fun message context live ↦
    match schedule? with
    | none => dispatchTasks id message context live
    | some schedule => dispatchTasks schedule message context live

end Live

end OscAddressing

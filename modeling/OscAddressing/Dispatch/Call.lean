import OscAddressing.Dispatch.Message
import OscAddressing.Space.Lookup

/-!
# Calls of a message

A message goes to every method that its pattern matches. Each of these that has a callback gets one
call, in the order in which the methods were matched; the others are matched all the same.

Here callbacks do not touch the space, so dispatching is the list of calls. `Dispatch.Live` has
callbacks that do.
-/

namespace OscAddressing

/-- One invocation of a callback. -/
structure Call (κ : Type u) (α : Type) where
  /-- The method invoked. -/
  method : MethodId
  callback : κ
  message : Message α
  context : Context

/-- What a dispatch comes to. -/
structure Dispatched (κ : Type u) (α : Type) where
  /-- The methods matched. -/
  methods : List MethodId
  /-- The callbacks invoked, in order. -/
  calls : List (Call κ α)

namespace Space

variable {κ : Type u} {α : Type}

/-- The calls that a message leads to. -/
def calls (space : Space κ) (message : Message α) (context : Context) : List (Call κ α) :=
  (space.targets message.address).filterMap fun method ↦
    method.callback?.map fun callback ↦ { method := method.id, callback, message, context }

/-- Dispatch a message. -/
def dispatch (space : Space κ) (message : Message α) (context : Context) : Dispatched κ α where
  methods := (space.targets message.address).map Method.id
  calls := space.calls message context

/-- Dispatch the messages of a packet in order. -/
def dispatchPacket (space : Space κ) (packet : Packet α) (context : Context) : Dispatched κ α where
  methods := packet.messages.flatMap fun message ↦ (space.dispatch message context).methods
  calls := packet.messages.flatMap fun message ↦ (space.dispatch message context).calls

end Space

end OscAddressing

import OscAddressing.Text.Basic

/-!
# Messages and packets

A message has an address pattern and arguments. A packet is a message, or a bundle of packets with a
time tag; the messages of a packet are those of its elements in order, at any depth. Time tags are
not interpreted.
-/

namespace OscAddressing

/-- A message to the methods that a pattern matches. What its arguments are is up to the methods;
here they are handed through unread. -/
structure Message (α : Type) where
  /-- The address pattern, as the sender wrote it. -/
  address : Text
  arguments : List α := []

/-- What is known about the transport of a message; it is handed through unread. -/
structure Context where
  /-- The network address of the sender. -/
  peer? : Option Text := none
  deriving DecidableEq

/-- The time at which a bundle is due. -/
structure TimeTag where
  seconds : UInt32
  fractional : UInt32
  deriving DecidableEq

/-- A message, or a bundle of packets. -/
inductive Packet (α : Type)
  | message (message : Message α)
  | bundle (time : TimeTag) (elements : List (Packet α))

namespace Packet

variable {α : Type}

mutual

/-- The messages of a packet, in order. -/
def messages : Packet α → List (Message α)
  | .message m => [m]
  | .bundle _ elements => messagesEach elements

/-- The messages of several packets, in order. -/
def messagesEach : List (Packet α) → List (Message α)
  | [] => []
  | packet :: rest => messages packet ++ messagesEach rest

end

end Packet

end OscAddressing

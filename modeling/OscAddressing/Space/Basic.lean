import OscAddressing.Config.Basic
import OscAddressing.Tree.Node

/-!
# Address spaces

An address space is an address tree with its configuration and the two supplies of serial numbers,
one for nodes and one for methods. Numbers below a supply have been given; numbers from it on have
not, and an operation that gives numbers moves the supply past them. That no identity ever occurs
twice rests on this alone.
-/

namespace OscAddressing

/-- A registry of methods by address, with callbacks of type `κ`. -/
structure Space (κ : Type u) where
  root : Node κ
  config : Config
  /-- The first node number not yet given. -/
  nextNode : Nat
  /-- The first method number not yet given. -/
  nextMethod : Nat

namespace Space

variable {κ : Type u}

/-- The space without methods. -/
def empty (config : Config) : Space κ where
  root := .bare ⟨0⟩ []
  config := config
  nextNode := 1
  nextMethod := 0

/-- The identity of the next method to be registered; no method has or had it. -/
def freshMethodId (space : Space κ) : MethodId := .issued space.nextMethod

end Space

end OscAddressing

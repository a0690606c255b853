import OscAddressing.Text.Basic

/-!
# Identities of nodes and methods

A node keeps its identity for as long as it stays in the tree; a method keeps its own from its
registration on. Both are serial numbers from a supply that never gives a number twice. One method
identity is set apart: `unmatchable` stands for a registration that was refused, and no method
carries it.

A method identity is written as a universally unique identifier of 128 bits. The unmatchable one has
all bits zero; an issued one has the layout of version 4, with its number in the 122 bits that the
layout leaves free.
-/

namespace OscAddressing

/-- The identity of a node. -/
structure NodeId where
  serial : Nat
  deriving DecidableEq

/-- The identity of a method. -/
inductive MethodId
  /-- The answer to a registration that was refused. -/
  | unmatchable
  /-- The identity of a method that was registered, or may yet be. -/
  | issued (serial : Nat)
  deriving DecidableEq

namespace MethodId

/-- Is it the answer to a refused registration? -/
def isUnmatchable : MethodId → Bool
  | unmatchable => true
  | issued _ => false

/-- The value of a bit at a given place. -/
def bit (place : Nat) : Nat := 1 <<< place

/-- The 128 bits of an identity. An issued one has, from the lowest bit, 62 free bits, the two bits
that mark the layout, 12 free bits, four bits for the version, and 48 free bits. -/
def bits : MethodId → Nat
  | unmatchable => 0
  | issued serial =>
    serial % bit 62 + 2 * bit 62 + serial / bit 62 % bit 12 * bit 64 + 4 * bit 76 +
      serial / bit 74 % bit 48 * bit 80

/-- The version that the bits of an identity state. -/
def version (id : MethodId) : Nat := id.bits / bit 76 % 16

/-- The 32 digits of an identity, in groups of 8, 4, 4, 4 and 12. -/
def text (id : MethodId) : Text :=
  ['-'].intercalate [digits 24 8, digits 20 4, digits 16 4, digits 12 4, digits 0 12]
where
  /-- A number of digits, of which the last has a given place. -/
  digits (place count : Nat) : Text :=
    (List.range count).reverse.map fun i ↦ (id.bits / bit (4 * (place + i)) % 16).digitChar

example : unmatchable.text = "00000000-0000-0000-0000-000000000000".toList := by decide

example : (issued 10).text = "00000000-0000-4000-8000-00000000000a".toList := by decide

example : unmatchable.version = 0 ∧ (issued 10).version = 4 := by decide

end MethodId

end OscAddressing

import OscAddressing.Address.Path
import OscAddressing.Pattern.Component

/-!
# Names of nodes

A text can name a node when it is not empty, has no separator, and reads as plain text, that is,
when as a pattern segment it is one literal equal to itself. Strict naming also keeps out the space
and three characters with a meaning in patterns. Of several faults the first in this order is
reported.
-/

namespace OscAddressing.Name

/-- The characters that strict naming keeps out of names. -/
def isReserved (c : Char) : Bool :=
  c = ' ' || c = '#' || c = '}' || c = ']'

/-- The fault that keeps a text from naming a node. -/
def fault? (strict : Bool) (name : Text) : Option NameFault :=
  if name.isEmpty then some .empty
  else if separator ∈ name then some .separator
  else if (Component.ofText name).literal? ≠ some name then some .pattern
  else if strict && name.any isReserved then some .reserved
  else none

/-- Can a text name a node? -/
def isValid (strict : Bool) (name : Text) : Bool :=
  (fault? strict name).isNone

/-- The error that keeps a path from being registered: it is empty, or the leftmost of its names
with a fault. -/
def refusal? (strict : Bool) : Path → Option Error
  | [] => some .emptyAddress
  | path => path.findSome? fun name ↦ (fault? strict name).map (.invalidName name)

end OscAddressing.Name

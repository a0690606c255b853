import OscAddressing.Pattern.AddressPattern
import OscAddressing.Space.Basic

/-!
# Looking methods up

A pattern is resolved level by level: from the root, each component leads from the nodes reached so
far to their matching children. The nodes at the end are in the order of the tree, and those that
carry a method are the answer. A pattern without components reaches nothing.

The other lookups go by exact address or by identity, or list everything.
-/

namespace OscAddressing.Space

variable {κ : Type u}

/-! ### By pattern -/

/-- The nodes reached from given nodes by a list of components; once none is reached, the rest of
the components is not looked at. -/
def expand (frontier : List (Node κ)) : List Component → List (Node κ)
  | [] => frontier
  | component :: rest =>
    let reached := frontier.flatMap (Node.matching component)
    if reached.isEmpty then [] else expand reached rest

/-- The nodes that a pattern reaches. -/
def resolve (space : Space κ) (pattern : AddressPattern) : List (Node κ) :=
  if pattern.components.isEmpty then [] else expand [space.root] pattern.components

/-- The identities of the methods that a pattern matches. -/
def matched (space : Space κ) (pattern : AddressPattern) : List MethodId :=
  (space.resolve pattern).filterMap Node.methodId?

/-- Read a pattern as the space is configured. -/
def readPattern (space : Space κ) (t : Text) : Except Error AddressPattern :=
  AddressPattern.ofTextWith space.config.patternOptions t

/-- The identities of the methods that a pattern matches, if it can be read. -/
def lookup (space : Space κ) (t : Text) : Except Error (List MethodId) :=
  (space.readPattern t).map space.matched

/-- The identities of the methods that a pattern matches; one that cannot be read matches none. -/
def lookupD (space : Space κ) (t : Text) : List MethodId :=
  match space.lookup t with
  | .ok ids => ids
  | .error _ => []

/-- The methods that a message to a pattern goes to. -/
def targets (space : Space κ) (t : Text) : List (Method κ) :=
  match space.readPattern t with
  | .ok pattern => (space.resolve pattern).filterMap Node.method?
  | .error _ => []

/-! ### By address and by identity -/

/-- Is a method registered at exactly this address? -/
def contains (space : Space κ) (address : Text) : Bool :=
  space.root.hasMethodAt (Path.ofText address)

/-- The address of the method of a given identity. -/
def addressOf? (space : Space κ) (id : MethodId) : Option Text :=
  (space.root.pathOf? id).map Path.toText

/-! ### Everything -/

/-- The addresses of all methods, in the order of the tree. -/
def addresses (space : Space κ) : List Text :=
  (space.root.addresses []).map Prod.fst

/-- The number of methods. -/
def size (space : Space κ) : Nat := space.root.methodCount

/-- Is no method registered? Containers left over do not count. -/
def isEmpty (space : Space κ) : Bool := !space.root.hasMethods

end OscAddressing.Space

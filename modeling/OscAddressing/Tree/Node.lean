import OscAddressing.Address.Path
import OscAddressing.Pattern.Component
import OscAddressing.Tree.Identity

/-!
# The address tree

A node has a name, children in the order in which they came, and perhaps a method; the callback of a
method is of any type `κ`. The root has the empty name. What lies below a node is seen in two ways.

Walks visit everything below a node, each node before its children and these in order. `descendants`
is the walk itself, with the path to every node, and `methods` is its part that carries methods; the
other walks, `methodCount`, `hasMethods`, `pathOf?` and `addresses`, answer their question without
building that list.

Descents follow a path by names, and at every step take the first child of the name.
-/

namespace OscAddressing

/-- A method, with its callback if it has one. -/
structure Method (κ : Type u) where
  id : MethodId
  callback? : Option κ

/-- The text that describes a method, with identities written by `write`. -/
def Method.description {κ : Type u} (write : MethodId → Text) (method : Method κ) : Text :=
  "Method \x7b id: MethodId(".toList ++ write method.id ++ "), callback: ".toList ++
    (if method.callback?.isSome then "true".toList else "false".toList) ++ " \x7d".toList

/-- A node of the address tree. -/
structure Node (κ : Type u) where
  id : NodeId
  name : Text
  children : List (Node κ)
  method? : Option (Method κ)

namespace Node

variable {κ : Type u}

/-- A node without children and without a method. -/
def bare (id : NodeId) (name : Text) : Node κ := ⟨id, name, [], none⟩

/-- Does the node carry a method? -/
def isMethod (node : Node κ) : Bool := node.method?.isSome

/-- Does the node have children? -/
def isContainer (node : Node κ) : Bool := !node.children.isEmpty

/-- Does the node have neither children nor a method? -/
def isBare (node : Node κ) : Bool := !node.isContainer && !node.isMethod

/-- The identity of the method of the node. -/
def methodId? (node : Node κ) : Option MethodId := node.method?.map Method.id

/-! ### Descents -/

/-- The child of a given name. -/
def child? (node : Node κ) (name : Text) : Option (Node κ) :=
  node.children.find? fun child ↦ child.name = name

/-- The nodes along a path, this one left out. -/
def along? : Path → Node κ → Option (List (Node κ))
  | [], _ => some []
  | name :: rest, node => do
    let child ← node.child? name
    let nodes ← along? rest child
    return child :: nodes

/-- The nodes along a path, with this one in front if wanted. -/
def pathNodes? (withSelf : Bool) (path : Path) (node : Node κ) : Option (List (Node κ)) :=
  (along? path node).map fun nodes ↦ if withSelf then node :: nodes else nodes

/-- The node at a path, which for the empty path is this one. -/
def at? : Path → Node κ → Option (Node κ)
  | [], node => some node
  | name :: rest, node => do at? rest (← node.child? name)

/-- The node at a path below this one; the empty path leads to none. -/
def descendant? (path : Path) (node : Node κ) : Option (Node κ) :=
  if path.isEmpty then none else node.at? path

/-- Does the node at a path below this one carry a method? -/
def hasMethodAt (path : Path) (node : Node κ) : Bool :=
  (node.descendant? path).any isMethod

/-- The children whose names match a component. A component that is one literal is looked up by
name. -/
def matching (component : Component) (node : Node κ) : List (Node κ) :=
  match component.literal? with
  | some name => (node.child? name).toList
  | none => node.children.filter fun child ↦ component.accepts child.name

/-! ### Walks -/

mutual

/-- The nodes below a node with their paths. -/
def descendants : Node κ → List (Path × Node κ)
  | ⟨_, _, children, _⟩ => descendantsEach children

/-- The given nodes and all below them, with their paths. -/
def descendantsEach : List (Node κ) → List (Path × Node κ)
  | [] => []
  | node :: rest =>
    let inside := (descendants node).map fun (path, inner) ↦ (node.name :: path, inner)
    ([node.name], node) :: inside ++ descendantsEach rest

end

/-- The methods below a node with their paths. -/
def methods (node : Node κ) : List (Path × Method κ) :=
  node.descendants.filterMap fun (path, inner) ↦ inner.method?.map fun method ↦ (path, method)

mutual

/-- The number of methods below a node. -/
def methodCount : Node κ → Nat
  | ⟨_, _, children, _⟩ => methodCountEach children

/-- The number of methods of the given nodes and below them. -/
def methodCountEach : List (Node κ) → Nat
  | [] => 0
  | node :: rest => (if node.isMethod then 1 else 0) + methodCount node + methodCountEach rest

end

mutual

/-- Is there a method below a node? -/
def hasMethods : Node κ → Bool
  | ⟨_, _, children, _⟩ => hasMethodsEach children

/-- Is there a method among the given nodes or below them? -/
def hasMethodsEach : List (Node κ) → Bool
  | [] => false
  | node :: rest => node.isMethod || hasMethods node || hasMethodsEach rest

end

mutual

/-- The path from a node to the first node below it that carries a method of a given identity. -/
def pathOf? (id : MethodId) : Node κ → Option Path
  | ⟨_, _, children, _⟩ => pathOfEach? id children

/-- The path to the first such node among the given ones and below them. -/
def pathOfEach? (id : MethodId) : List (Node κ) → Option Path
  | [] => none
  | node :: rest =>
    if node.methodId? = some id then some [node.name]
    else
      match pathOf? id node with
      | some path => some (node.name :: path)
      | none => pathOfEach? id rest

end

mutual

/-- The addresses of the methods below a node whose own address is `lead`, with their
identities. -/
def addresses (lead : Text) : Node κ → List (Text × MethodId)
  | ⟨_, _, children, _⟩ => addressesEach lead children

/-- The addresses of the methods of the given nodes and below them. -/
def addressesEach (lead : Text) : List (Node κ) → List (Text × MethodId)
  | [] => []
  | node :: rest =>
    let address := lead ++ separator :: node.name
    (node.methodId?.map fun id ↦ (address, id)).toList ++ addresses address node ++
      addressesEach lead rest

end

end Node

end OscAddressing

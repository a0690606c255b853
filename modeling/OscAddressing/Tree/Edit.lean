import OscAddressing.Tree.Node

/-!
# Editing the address tree

A method is placed at a path, or withdrawn from one. Both follow the path by names, put a changed
child in the place of the first child of its name, and leave every other child where it is.

Placing appends the nodes that the path lacks. The node at the end of the path is either replaced by
a fresh node at the same position, to which its children move, or kept, and then given the method
unless it has one.

Withdrawing detaches the node at the end of the path, or takes its method only when it has children.
What is left of the path may be pruned: from the parent of the withdrawn node upwards, nodes without
a method that lead nowhere else form a dead chain, which is detached as a whole.
-/

namespace OscAddressing.Node

variable {κ : Type u}

/-! ### Changing one child -/

/-- Put a node in the place of the first of the given nodes with a given name; if there is none, it
comes last. -/
def putNamed (name : Text) (node : Node κ) : List (Node κ) → List (Node κ)
  | [] => [node]
  | other :: rest => if other.name = name then node :: rest else other :: putNamed name node rest

/-- Put a node in the place of the child of a given name. -/
def putChild (node : Node κ) (name : Text) (child : Node κ) : Node κ :=
  { node with children := putNamed name child node.children }

/-- Drop the child of a given name. -/
def dropChild (node : Node κ) (name : Text) : Node κ :=
  { node with children := node.children.eraseP fun child ↦ child.name = name }

/-- Change the node at a path, which for the empty path is this one. There is no outcome when the
path leads nowhere, or when `change` has none. -/
def alterAt? (change : Node κ → Option (Node κ)) : Path → Node κ → Option (Node κ)
  | [], node => change node
  | name :: rest, node => do
    let child ← node.child? name
    let child ← alterAt? change rest child
    return node.putChild name child

/-! ### Placing a method -/

/-- The node of a given name that carries the placed method, with the identity of the method that it
then carries; `present?` is the node that had the name before. -/
def settled (replace : Bool) (method : Method κ) (id : NodeId) (name : Text)
    (present? : Option (Node κ)) : MethodId × Node κ :=
  match present? with
  | none => (method.id, ⟨id, name, [], some method⟩)
  | some present =>
    if replace then (method.id, ⟨id, name, present.children, some method⟩)
    else
      match present.methodId? with
      | some current => (current, present)
      | none => (method.id, { present with method? := some method })

/-- The node of a given name below which the method has been placed at the rest of the path. Node
numbers from `serial` on are unused; the one at depth `d` of the path may get `serial + d`. -/
def grown (replace : Bool) (method : Method κ) :
    Path → Nat → Text → Option (Node κ) → MethodId × Node κ
  | [], serial, name, present? => settled replace method ⟨serial⟩ name present?
  | next :: rest, serial, name, present? =>
    let node := present?.getD (bare ⟨serial⟩ name)
    let (id, child) := grown replace method rest (serial + 1) next (node.child? next)
    (id, node.putChild next child)

/-- Place a method at a path below a node; the answer is the identity of the method that is then at
the path. An empty path is never registered, and nothing is placed there. -/
def place (replace : Bool) (method : Method κ) (serial : Nat) : Path → Node κ → MethodId × Node κ
  | [], node => (method.id, node)
  | name :: rest, node =>
    let (id, child) := grown replace method rest serial name (node.child? name)
    (id, node.putChild name child)

/-! ### Withdrawing a method -/

/-- Drop the child of a given name, which must not have children unless that is forced. -/
def without? (force : Bool) (name : Text) (node : Node κ) : Option (Node κ) := do
  let child ← node.child? name
  if child.isContainer && !force then none else some (node.dropChild name)

/-- Detach the node at a path, which must not have children unless that is forced. -/
def detach? (force : Bool) (path : Path) (node : Node κ) : Option (Node κ) :=
  path.getLast?.bind fun last ↦ node.alterAt? (without? force last) path.dropLast

/-- Take the method of the node at a path. -/
def demote? (path : Path) (node : Node κ) : Option (Node κ) :=
  node.alterAt? (fun target ↦ target.method?.map fun _ ↦ { target with method? := none }) path

/-! ### Pruning -/

/-- How many of the given nodes, each the parent of the one before, hold nothing but the dead chain
below them. The first may have `allowed` children, the others one. -/
def deadCount (allowed : Nat) : List (Node κ) → Nat
  | [] => 0
  | node :: above =>
    if node.isMethod || node.children.length > allowed then 0 else deadCount 1 above + 1

/-- Detach the dead chain at the end of a path. -/
def pruned (path : Path) (node : Node κ) : Node κ :=
  match along? path node with
  | none => node
  | some nodes =>
    let top := nodes.length - deadCount 0 nodes.reverse
    if top < path.length then (node.detach? true (path.take (top + 1))).getD node else node

end OscAddressing.Node

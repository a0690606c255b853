import OscAddressing.Space.Basic
import OscAddressing.Tree.Edit
import OscAddressing.Tree.Name

/-!
# Registering and unregistering methods

A registration takes the segments of its address as names. It is refused, with nothing changed, when
the address has no segments or a segment cannot name a node. At an address that is registered
already it either takes the place of the method there, with new identities for node and method, or
changes nothing and answers with the method there, as the space is configured.

Unregistering concerns methods only: at a path that leads to a mere container, or nowhere, it
answers `false` and changes nothing. The containers above an unregistered method stay, unless they
are pruned.
-/

namespace OscAddressing.Space

variable {κ : Type u}

/-! ### Registration -/

/-- Register a method at a path of valid names; the answer is the identity of the method that is
then registered there, with the space after it. -/
def registerPath (space : Space κ) (path : Path) (callback? : Option κ) : MethodId × Space κ :=
  let method := { id := space.freshMethodId, callback? }
  let (id, root) := space.root.place space.config.replaceExisting method space.nextNode path
  (id,
    { space with
      root := root
      nextNode := space.nextNode + path.length
      nextMethod := space.nextMethod + 1 })

/-- Register a method at an address, if that can be done. -/
def register (space : Space κ) (address : Text) (callback? : Option κ) :
    Except Error (MethodId × Space κ) :=
  let path := Path.ofText address
  match Name.refusal? space.config.strictNames path with
  | some e => .error e
  | none => .ok (space.registerPath path callback?)

/-- Register a method at an address; a refused registration is answered with the unmatchable
identity. -/
def registerD (space : Space κ) (address : Text) (callback? : Option κ) : MethodId × Space κ :=
  match space.register address callback? with
  | .ok answer => answer
  | .error _ => (.unmatchable, space)

/-! ### Unregistration -/

/-- Unregister the method at a path. -/
def unregisterPath (space : Space κ) (path : Path) : Bool × Space κ :=
  if space.root.hasMethodAt path then
    match space.root.detach? false path with
    | some root => (true, { space with root })
    | none =>
      match space.root.demote? path with
      | some root => (true, { space with root })
      | none => (false, space)
  else (false, space)

/-- Unregister the method at an address. -/
def unregister (space : Space κ) (address : Text) : Bool × Space κ :=
  space.unregisterPath (Path.ofText address)

/-- Unregister the method at an address, and remove the containers that this leaves empty. -/
def unregisterAndPrune (space : Space κ) (address : Text) : Bool × Space κ :=
  let path := Path.ofText address
  match space.unregisterPath path with
  | (false, space) => (false, space)
  | (true, space) => (true, { space with root := space.root.pruned path.dropLast })

/-- Unregister the method of a given identity. -/
def unregisterId (space : Space κ) (id : MethodId) : Bool × Space κ :=
  match space.root.pathOf? id with
  | some path => space.unregisterPath path
  | none => (false, space)

/-- Remove every method and every container; the root is a new one. -/
def clear (space : Space κ) : Space κ :=
  { space with
    root := .bare ⟨space.nextNode⟩ []
    nextNode := space.nextNode + 1 }

end OscAddressing.Space

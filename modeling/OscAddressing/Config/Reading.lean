import OscAddressing.Config.Basic
import OscAddressing.Error
import OscAddressing.Json.Value

/-!
# Reading a configuration

A configuration is read from JSON text. As an object it may name each field once; fields that are
not named keep their default, and unknown members are passed over. As an array it gives the fields
in order, and those left off keep their default. Truth values are `true` and `false` only; a
policy or an order is its word, or an object whose one member has that word as key and `null` as
value.
-/

namespace OscAddressing.Config

/-- The truth value that a JSON value gives. -/
def truth? : Json.Value → Option Bool
  | .bool b => some b
  | _ => none

/-- The word that a JSON value gives. -/
def word? : Json.Value → Option Text
  | .string content => content
  | .object [(key, .null)] => key
  | _ => none

/-- The policy that a word stands for. -/
def rangePolicy? (word : Text) : Option RangePolicy :=
  [RangePolicy.lenient, .reject].find? fun policy ↦ policy.word = word

/-- The order that a word stands for. -/
def alternativeOrder? (word : Text) : Option AlternativeOrder :=
  [AlternativeOrder.longest, .declared].find? fun order ↦ order.word = word

/-- Give one field the value that is written for it. -/
def assign? (config : Config) (value : Json.Value) : Field → Option Config
  | .strictNames => do return { config with strictNames := ← truth? value }
  | .replaceExisting => do return { config with replaceExisting := ← truth? value }
  | .rangePolicy => do return { config with rangePolicy := ← rangePolicy? (← word? value) }
  | .alternativeOrder => do
    return { config with alternativeOrder := ← alternativeOrder? (← word? value) }

/-- Read the fields named by the members of an object, of which `named` have occurred before. -/
def ofMembers? (config : Config) (named : List Field) :
    List (Json.Key × Json.Value) → Option Config
  | [] => some config
  | (none, _) :: _ => none
  | (some key, value) :: rest =>
    match Field.ofKey? key with
    | none => ofMembers? config named rest
    | some field =>
      if field ∈ named then none
      else do ofMembers? (← config.assign? value field) (field :: named) rest

/-- Read the items of an array into the fields that are left. -/
def ofItems? (config : Config) : List Field → List Json.Value → Option Config
  | _, [] => some config
  | [], _ :: _ => none
  | field :: fields, value :: rest => do ofItems? (← config.assign? value field) fields rest

/-- The configuration that a JSON value describes. -/
def ofValue? : Json.Value → Option Config
  | .object members => ofMembers? {} [] members
  | .array items => ofItems? {} Field.all items
  | _ => none

/-- Read a configuration from JSON text. -/
def ofJson (t : Text) : Except Error Config :=
  match Json.Value.ofText? t with
  | none => .error (.invalidConfig "not a JSON text".toList)
  | some value =>
    match ofValue? value with
    | none => .error (.invalidConfig "not a description of a configuration".toList)
    | some config => .ok config

end OscAddressing.Config

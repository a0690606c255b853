import OscAddressing.Text.Basic

/-!
# Configuration of an address space

A configuration says which names may be registered, what a second registration at one address
does, and how patterns are read. `Config.serialized` is its written form: one JSON object, without
blanks, with the fields in the order of the structure.
-/

namespace OscAddressing

/-- What to do with a character range whose first character comes after its last. -/
inductive RangePolicy
  /-- Such a range is kept and contains no character. -/
  | lenient
  /-- Such a range makes the pattern unreadable. -/
  | reject
  deriving DecidableEq

/-- The order in which the alternatives of a brace group are tried. The first alternative that
fits is final, so the order decides what a pattern matches. -/
inductive AlternativeOrder
  /-- Longer alternatives first; alternatives of one byte length in the order written. -/
  | longest
  /-- The order written. -/
  | declared
  deriving DecidableEq

/-- How patterns are read. -/
structure PatternOptions where
  rangePolicy : RangePolicy := .lenient
  alternativeOrder : AlternativeOrder := .longest
  deriving DecidableEq

/-- The configuration of an address space. -/
structure Config where
  /-- Also refuse names with a space or one of the characters `#`, `}` and `]`. -/
  strictNames : Bool := false
  /-- A registration at a registered address takes the place of the earlier one. -/
  replaceExisting : Bool := true
  /-- The treatment of backward ranges in lookups. -/
  rangePolicy : RangePolicy := .lenient
  /-- The order of alternatives in lookups. -/
  alternativeOrder : AlternativeOrder := .longest
  deriving DecidableEq

/-- The word for a policy in a written configuration. -/
def RangePolicy.word : RangePolicy → Text
  | lenient => "lenient".toList
  | reject => "reject".toList

/-- The word for an order in a written configuration. -/
def AlternativeOrder.word : AlternativeOrder → Text
  | longest => "longest".toList
  | declared => "declared".toList

namespace Config

/-- The part of a configuration that concerns the reading of patterns. -/
def patternOptions (config : Config) : PatternOptions where
  rangePolicy := config.rangePolicy
  alternativeOrder := config.alternativeOrder

/-- The fields of a configuration. -/
inductive Field
  | strictNames
  | replaceExisting
  | rangePolicy
  | alternativeOrder
  deriving DecidableEq

namespace Field

/-- The name of a field in a written configuration. -/
def key : Field → Text
  | strictNames => "strict_names".toList
  | replaceExisting => "replace_existing".toList
  | rangePolicy => "range_policy".toList
  | alternativeOrder => "alternative_order".toList

/-- All fields, in the order in which they are written. -/
def all : List Field := [strictNames, replaceExisting, rangePolicy, alternativeOrder]

/-- The field of a given name. -/
def ofKey? (key : Text) : Option Field :=
  all.find? fun field ↦ field.key = key

end Field

/-! ### The written form -/

/-- The written value of a field. -/
def written (config : Config) : Field → Text
  | .strictNames => truth config.strictNames
  | .replaceExisting => truth config.replaceExisting
  | .rangePolicy => ['"'] ++ config.rangePolicy.word ++ ['"']
  | .alternativeOrder => ['"'] ++ config.alternativeOrder.word ++ ['"']
where
  /-- The written form of a truth value. -/
  truth (b : Bool) : Text := if b then "true".toList else "false".toList

/-- The written form of a configuration. -/
def serialized (config : Config) : Text :=
  ['{'] ++ [','].intercalate (Field.all.map entry) ++ ['}']
where
  /-- One field with its value. -/
  entry (field : Field) : Text :=
    ['"'] ++ field.key ++ ['"', ':'] ++ config.written field

end Config

end OscAddressing

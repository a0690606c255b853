import OscAddressing.Text.Quoted

/-!
# Causes of failure

An operation on addresses, patterns or configurations fails for one of four causes. The causes
are data; their wording is `Error.message` alone.
-/

namespace OscAddressing

/-- Why a text cannot name a node of the address tree. -/
inductive NameFault
  /-- The name has no characters. -/
  | empty
  /-- The name contains the separator of addresses. -/
  | separator
  /-- The name would be read as a pattern. -/
  | pattern
  /-- The name contains a character that strict naming reserves. -/
  | reserved
  deriving DecidableEq

namespace NameFault

/-- The wording of a fault. -/
def reason : NameFault → Text
  | empty => "empty name".toList
  | separator => "contains '/'".toList
  | pattern => "contains pattern syntax".toList
  | reserved => "contains a reserved character".toList

end NameFault

/-- The causes of failure. -/
inductive Error
  /-- An address without segments was to be registered. -/
  | emptyAddress
  /-- A segment of an address cannot name a node. -/
  | invalidName (name : Text) (fault : NameFault)
  /-- A pattern has a character range that runs backwards, and backward ranges are refused. -/
  | invalidRange (first last : Char)
  /-- A configuration could not be read. -/
  | invalidConfig (detail : Text)
  deriving DecidableEq

namespace Error

/-- The wording of an error. A name is shown quoted, the ends of a range as they are. -/
def message : Error → Text
  | emptyAddress => "empty address".toList
  | invalidName name fault =>
    "invalid name ".toList ++ name.quoted ++ ": ".toList ++ fault.reason
  | invalidRange first last => "invalid character range: ".toList ++ [first, '-', last]
  | invalidConfig detail => "configuration error: ".toList ++ detail

end Error

end OscAddressing

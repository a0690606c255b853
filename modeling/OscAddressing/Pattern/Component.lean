import OscAddressing.Error
import OscAddressing.Matching.Search
import OscAddressing.Pattern.Scan

/-!
# Components of a pattern

A component is a segment with its tokens. Reading one fails only when backward ranges are refused
and the segment has one; the error names the first.
-/

namespace OscAddressing

/-- A segment of a pattern, read. -/
structure Component where
  /-- The text of the segment. -/
  raw : Text
  tokens : List Token
  deriving DecidableEq

namespace Component

/-- Read a segment with default options. -/
def ofText (segment : Text) : Component where
  raw := segment
  tokens := Pattern.scan .longest segment

/-- Read a segment. -/
def ofTextWith (options : PatternOptions) (segment : Text) : Except Error Component :=
  let scanner := Pattern.Scanner.through options.alternativeOrder segment
  match options.rangePolicy, scanner.reversed? with
  | .reject, some (first, last) => .error (.invalidRange first last)
  | _, _ => .ok { raw := segment, tokens := scanner.tokens }

/-- The text of a component that is exactly one literal. -/
def literal? (component : Component) : Option Text :=
  match component.tokens with
  | [.literal text] => some text
  | _ => none

/-- A component without pattern syntax; this includes the component without tokens. -/
def isLiteral (component : Component) : Bool :=
  component.tokens.all Token.isLiteral

/-- Does a name match the component? -/
def accepts (component : Component) (name : Text) : Bool :=
  matchesWhole component.tokens name

end Component

end OscAddressing

import OscAddressing.Address.Path
import OscAddressing.Pattern.Component

/-!
# Address patterns

An address pattern is split into segments like an address, and each segment is read on its own. A
pattern that cannot be read reports the error of its leftmost unreadable segment.
-/

namespace OscAddressing

/-- A pattern for addresses. -/
structure AddressPattern where
  /-- The text of the pattern. -/
  raw : Text
  components : List Component
  deriving DecidableEq

namespace AddressPattern

/-- Read a pattern with default options. -/
def ofText (t : Text) : AddressPattern where
  raw := t
  components := (Path.ofText t).map Component.ofText

/-- Read a pattern. -/
def ofTextWith (options : PatternOptions) (t : Text) : Except Error AddressPattern := do
  let components ← (Path.ofText t).mapM (Component.ofTextWith options)
  return { raw := t, components }

/-- A pattern without pattern syntax in any component. -/
def isLiteral (pattern : AddressPattern) : Bool :=
  pattern.components.all Component.isLiteral

end AddressPattern

end OscAddressing

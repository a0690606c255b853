import OscAddressing.Text.Basic

/-!
# Addresses and paths

An address is a text such as `/synth/1/freq`; the path that it names is the list of its segments.
One leading separator is dropped and empty segments are kept, so `//m` has the segments `` and
`m`. The texts without segments are the empty text and the lone separator.

An address is written from a path with a separator before every name.
-/

namespace OscAddressing

/-- The character between the segments of an address. -/
def separator : Char := '/'

/-- A path is the list of names from a node down to one below it. -/
abbrev Path := List Text

namespace Path

/-- The segments of a text without its leading separator. -/
def ofBody : Text → Path
  | [] => []
  | body => body.splitOn separator

/-- The segments of an address or of a pattern. -/
def ofText : Text → Path
  | [] => []
  | c :: rest => if c = separator then ofBody rest else ofBody (c :: rest)

/-- The address of a path. -/
def toText (path : Path) : Text := path.flatMap fun name ↦ separator :: name

example : ofText "//m".toList = [[], ['m']] := by decide

example : ofText "/a/b/".toList = [['a'], ['b'], []] := by decide

example : ofText [] = [] ∧ ofText ['/'] = [] := by decide

end Path

end OscAddressing

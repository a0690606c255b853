import OscAddressing.Text.Basic

/-!
# Tokens of a pattern segment

A segment of a pattern is a sequence of tokens, each of which matches a piece of a name: plain
text, any run of characters (`*`), any one character (`?`), one character from a set or outside of
it (`[a-z]`, `[!a-z]`), or one of several texts (`{left,right}`). `Token.render` writes a token as
pattern text.
-/

namespace OscAddressing

/-- A member of a character set. -/
inductive CharGroup
  /-- One character. -/
  | single (c : Char)
  /-- The characters from `first` to `last`, both included, in the order of code points. -/
  | range (first last : Char)
  deriving DecidableEq

namespace CharGroup

/-- Is a character in the group? -/
def contains : CharGroup → Char → Bool
  | single d, c => d = c
  | range first last, c => first ≤ c && c ≤ last

/-- The ends of a range that runs backwards. -/
def reversed? : CharGroup → Option (Char × Char)
  | single _ => none
  | range first last => if last < first then some (first, last) else none

/-- The text of a group within brackets. -/
def render : CharGroup → Text
  | single c => [c]
  | range first last => [first, '-', last]

/-- **A backward range has no members.** -/
theorem contains_of_reversed? {group : CharGroup} {ends : Char × Char}
    (h : group.reversed? = some ends) (c : Char) : group.contains c = false := by
  cases group with
  | single d => simp [reversed?] at h
  | range first last =>
    have hlt : last < first := by
      by_cases hlt : last < first
      · exact hlt
      · simp [reversed?, hlt] at h
    simp only [contains, Bool.and_eq_false_iff, decide_eq_false_iff_not]
    by_cases hc : first ≤ c
    · exact .inr fun hl ↦ absurd (Char.le_trans hc hl) (Char.not_le.2 hlt)
    · exact .inl hc

end CharGroup

/-- A token matches one piece of a name. -/
inductive Token
  /-- The text itself. -/
  | literal (text : Text)
  /-- Any run of characters, the empty one included. -/
  | anyRun
  /-- Any one character. -/
  | anyChar
  /-- One character that some group contains or, with `exclusion`, that none contains. -/
  | charSet (exclusion : Bool) (groups : List CharGroup)
  /-- The first of the alternatives that the name continues with. -/
  | oneOf (alternatives : List Text)
  deriving DecidableEq

namespace Token

/-- Is the token plain text? -/
def isLiteral : Token → Bool
  | literal _ => true
  | _ => false

/-- Does the token, if it is a character set, take a given character? -/
def admits (exclusion : Bool) (groups : List CharGroup) (c : Char) : Bool :=
  (groups.any fun group ↦ group.contains c) != exclusion

/-- The first backward range of a token. -/
def reversed? : Token → Option (Char × Char)
  | charSet _ groups => groups.findSome? CharGroup.reversed?
  | _ => none

/-- The text of a token. -/
def render : Token → Text
  | literal text => text
  | anyRun => ['*']
  | anyChar => ['?']
  | charSet exclusion groups =>
    ['['] ++ (if exclusion then ['!'] else []) ++ groups.flatMap CharGroup.render ++ [']']
  | oneOf alternatives => ['{'] ++ [','].intercalate alternatives ++ ['}']

end Token

end OscAddressing

import OscAddressing.Config.Basic
import OscAddressing.Pattern.Token

/-!
# From a segment to its tokens

A scanner reads a segment from the left. A group runs from its opening character to the first
closing character behind it, whatever stands between; an opening character with no closing one
behind it is plain text, and so is a closing character outside of a group. Reading therefore never
fails.

On its way the scanner carries along the plain text that is not a token yet, as it does not know
where this ends, and the first range it has come across that runs backwards. What to make of such a
range is left to whoever asked for the tokens.
-/

namespace OscAddressing.Pattern

/-! ### Contents of groups -/

/-- The members written between brackets. A dash between two characters makes a range of them;
any other dash is a member itself. -/
def charGroups : Text → List CharGroup
  | first :: '-' :: last :: rest => .range first last :: charGroups rest
  | c :: rest => .single c :: charGroups rest
  | [] => []

/-- The token written between brackets; a leading exclamation mark excludes. -/
def charSetOf : Text → Token
  | '!' :: content => .charSet true (charGroups content)
  | content => .charSet false (charGroups content)

/-- The alternatives in the order in which they are tried. -/
def arrange (order : AlternativeOrder) (alternatives : List Text) : List Text :=
  match order with
  | .declared => alternatives
  | .longest => alternatives.mergeSort fun s t ↦ t.byteLength ≤ s.byteLength

/-- The alternatives written between braces: texts between commas, later repetitions dropped. -/
def alternativesOf (order : AlternativeOrder) (content : Text) : List Text :=
  arrange order (content.splitOn ',').eraseDups

/-- The group at the start of a text, with the text behind it. -/
def leadingGroup? (order : AlternativeOrder) : Text → Option (Token × Text)
  | '[' :: rest =>
    (Text.cut? ']' rest).map fun (content, after) ↦ (charSetOf content, after)
  | '{' :: rest =>
    (Text.cut? '}' rest).map fun (content, after) ↦ (.oneOf (alternativesOf order content), after)
  | _ => none

/-- What lies behind a group is shorter than the text. -/
theorem length_of_leadingGroup? {order : AlternativeOrder} {t after : Text} {group : Token}
    (h : leadingGroup? order t = some (group, after)) : after.length < t.length := by
  unfold leadingGroup? at h
  split at h
  case h_1 rest =>
    obtain ⟨⟨content, rest'⟩, hcut, heq⟩ := Option.map_eq_some_iff.1 h
    obtain ⟨-, rfl⟩ := Prod.mk.inj heq
    exact Nat.lt_succ_of_lt (Text.length_of_cut? hcut)
  case h_2 rest =>
    obtain ⟨⟨content, rest'⟩, hcut, heq⟩ := Option.map_eq_some_iff.1 h
    obtain ⟨-, rfl⟩ := Prod.mk.inj heq
    exact Nat.lt_succ_of_lt (Text.length_of_cut? hcut)
  case h_3 => simp at h

/-! ### The scanner -/

/-- A scanner on its way through a segment. -/
structure Scanner where
  /-- The tokens read so far. -/
  tokens : List Token := []
  /-- The plain text read since the last token. -/
  literal : Text := []
  /-- The ends of the first backward range read so far. -/
  reversed? : Option (Char × Char) := none

namespace Scanner

/-- Make the plain text a token, if there is any. -/
def flush (scanner : Scanner) : Scanner :=
  if scanner.literal.isEmpty then scanner
  else { scanner with tokens := scanner.tokens ++ [.literal scanner.literal], literal := [] }

/-- Read a character of plain text. -/
def addChar (scanner : Scanner) (c : Char) : Scanner :=
  { scanner with literal := scanner.literal ++ [c] }

/-- Read a `*`. Neighbouring ones are one token. -/
def addRun (scanner : Scanner) : Scanner :=
  let scanner := scanner.flush
  if scanner.tokens.getLast? = some .anyRun then scanner
  else { scanner with tokens := scanner.tokens ++ [.anyRun] }

/-- Read any other token. Of the backward ranges the first is kept. -/
def add (scanner : Scanner) (token : Token) : Scanner :=
  let scanner := scanner.flush
  { scanner with
    tokens := scanner.tokens ++ [token]
    reversed? := scanner.reversed?.or token.reversed? }

/-- Read what is left of a segment. -/
def read (order : AlternativeOrder) (scanner : Scanner) : Text → Scanner
  | [] => scanner.flush
  | '*' :: rest => read order scanner.addRun rest
  | '?' :: rest => read order (scanner.add .anyChar) rest
  | c :: rest =>
    match _h : leadingGroup? order (c :: rest) with
    | some (group, after) => read order (scanner.add group) after
    | none => read order (scanner.addChar c) rest
termination_by t => t.length
decreasing_by
  · simp
  · simp
  · exact length_of_leadingGroup? _h
  · simp

/-- The scanner at the end of a segment. -/
def through (order : AlternativeOrder) (segment : Text) : Scanner :=
  read order {} segment

end Scanner

/-- The tokens of a segment. -/
def scan (order : AlternativeOrder) (segment : Text) : List Token :=
  (Scanner.through order segment).tokens

end OscAddressing.Pattern

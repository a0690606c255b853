import OscAddressing.Pattern.Token

/-!
# Matching one token

A matcher tries one token at the start of a text, one candidate length after the other.
`Matcher.matches?` gives the bytes that the present candidate takes, and `Matcher.advance` goes on
to the next candidate. Only `*` has more than one: its candidates are the byte lengths of the
leading pieces of the text, from the empty one up to the whole text. Any other token has its one
candidate and is exhausted by the first advance.

A matcher may be asked about one text and advanced on another. The position of a `*` that is not a
character boundary of the text it is advanced on, or that lies beyond it, stays where it is and
the matcher is exhausted.
-/

namespace OscAddressing

/-- The state of matching one token. -/
structure Matcher where
  token : Token
  /-- The bytes that a `*` takes in the present candidate. -/
  position : Nat := 0
  /-- All candidates have been tried. -/
  exhausted : Bool := false
  deriving DecidableEq

namespace Matcher

/-- Back to the first candidate. -/
def reset (m : Matcher) : Matcher := { token := m.token }

/-- The bytes at the start of `rest` that the present candidate takes. -/
def matches? (m : Matcher) (rest : Text) : Option Nat :=
  match m.token with
  | .literal text => if text.isPrefixOf rest then some text.byteLength else none
  | .anyRun => if m.position ≤ rest.byteLength then some m.position else none
  | .anyChar => rest.head?.map Char.utf8Size
  | .charSet exclusion groups =>
    (rest.head?.filter fun c ↦ Token.admits exclusion groups c).map Char.utf8Size
  | .oneOf [] => some 0
  | .oneOf alternatives =>
    (alternatives.find? fun text ↦ text.isPrefixOf rest).map Text.byteLength

/-- On to the next candidate, where `rest` is the text that the token is matched against. -/
def advance (m : Matcher) (rest : Text) : Matcher :=
  match m.token, rest.dropBytes? m.position with
  | .anyRun, some (c :: _) => { m with position := m.position + c.utf8Size }
  | _, _ => { m with exhausted := true }

@[simp] theorem token_reset (m : Matcher) : m.reset.token = m.token := rfl

@[simp] theorem token_advance (m : Matcher) (rest : Text) : (m.advance rest).token = m.token := by
  unfold advance
  split <;> rfl

end Matcher

end OscAddressing

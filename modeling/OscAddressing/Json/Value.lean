import OscAddressing.Json.Token

/-!
# JSON values

`Value.ofText?` reads one JSON value that makes up the whole text. The reader is a machine over
tokens: a stack of the arrays and objects still open, and what has to come next. Nesting is
therefore not limited, and each token is taken exactly once.

An object keeps its members in the order written, repeated keys included, since whoever asks for
a value decides what a repetition means.
-/

namespace OscAddressing.Json

/-- A key of an object; `none` when its escapes stand for no text. -/
abbrev Key := Option Text

/-- JSON values. Numbers are known to be numbers and no more. -/
inductive Value
  | null
  | bool (value : Bool)
  | number
  | string (content : Option Text)
  | array (items : List Value)
  | object (members : List (Key × Value))

/-- An array or object still open, with its earlier contents, latest first. -/
inductive Frame
  | array (items : List Value)
  | object (members : List (Key × Value)) (key : Key)

/-- What has to come next. -/
inductive Expectation
  /-- A value. -/
  | value
  /-- The first item of an array, or its end. -/
  | firstItem
  /-- The first key of an object, or its end. -/
  | firstKey
  /-- A further key of an object with these members. -/
  | key (members : List (Key × Value))
  /-- The colon behind a key. -/
  | colon (members : List (Key × Value)) (key : Key)
  /-- What may follow a finished value. -/
  | after (value : Value)

/-- The state of the reader. -/
structure Reader where
  /-- The arrays and objects still open, innermost first. -/
  frames : List Frame
  /-- What has to come next. -/
  expects : Expectation

namespace Reader

/-- Take the first token of a value. -/
def begin? (frames : List Frame) : Token → Option Reader
  | .null => some ⟨frames, .after .null⟩
  | .bool b => some ⟨frames, .after (.bool b)⟩
  | .number => some ⟨frames, .after .number⟩
  | .string content => some ⟨frames, .after (.string content)⟩
  | .openArray => some ⟨.array [] :: frames, .firstItem⟩
  | .openObject => some ⟨frames, .firstKey⟩
  | .closeArray | .closeObject | .comma | .colon => none

/-- Take the token behind a finished value, which the innermost open frame decides about. -/
def close? (value : Value) : List Frame → Token → Option Reader
  | .array items :: frames, .comma => some ⟨.array (value :: items) :: frames, .value⟩
  | .array items :: frames, .closeArray =>
    some ⟨frames, .after (.array (value :: items).reverse)⟩
  | .object members key :: frames, .comma => some ⟨frames, .key ((key, value) :: members)⟩
  | .object members key :: frames, .closeObject =>
    some ⟨frames, .after (.object ((key, value) :: members).reverse)⟩
  | _, _ => none

/-- Take the next token. -/
def step? (reader : Reader) (token : Token) : Option Reader :=
  match reader.expects, token with
  | .firstItem, .closeArray => some ⟨reader.frames.tail, .after (.array [])⟩
  | .firstItem, token => begin? reader.frames token
  | .value, token => begin? reader.frames token
  | .firstKey, .closeObject => some ⟨reader.frames, .after (.object [])⟩
  | .firstKey, .string key => some ⟨reader.frames, .colon [] key⟩
  | .key members, .string key => some ⟨reader.frames, .colon members key⟩
  | .colon members key, .colon => some ⟨.object members key :: reader.frames, .value⟩
  | .after value, token => close? value reader.frames token
  | _, _ => none

/-- The value that has been read, once nothing is open. -/
def result? : Reader → Option Value
  | ⟨[], .after value⟩ => some value
  | _ => none

end Reader

/-- The value that a list of tokens writes. -/
def Value.ofTokens? (tokens : List Token) : Option Value := do
  let reader ← tokens.foldlM Reader.step? ⟨[], .value⟩
  reader.result?

/-- The value that a text writes; `none` when the text is not one JSON value. -/
def Value.ofText? (t : Text) : Option Value := do
  Value.ofTokens? (← tokens? t)

end OscAddressing.Json

import OscAddressing.Text.Basic

/-!
# Tokens of JSON text

The strict grammar of JSON, read one character at a time: `Mode` is what the characters so far
leave open, `Mode.step` takes the next character, and `tokens?` succeeds when every character is
taken and nothing is left open. A token is emitted as soon as its kind is known; should its
characters turn out to be malformed, the whole text is refused.

Numbers are checked and their value is dropped. A string whose escapes name half of a surrogate
pair is well formed but stands for no text, so its token carries `none`.
-/

namespace OscAddressing.Json

/-- The tokens of JSON text. -/
inductive Token
  | openArray
  | closeArray
  | openObject
  | closeObject
  | comma
  | colon
  | null
  | bool (value : Bool)
  | number
  | string (content : Option Text)
  deriving DecidableEq

/-! ### Strings -/

/-- A piece of a string: a character, or one of the 16-bit units that a four-digit escape
names. -/
inductive Piece
  | char (c : Char)
  | unit (value : Nat)
  deriving DecidableEq

namespace Piece

/-- The first half of a surrogate pair. -/
def isLeading (value : Nat) : Bool := 0xd800 ≤ value && value ≤ 0xdbff

/-- The second half of a surrogate pair. -/
def isTrailing (value : Nat) : Bool := 0xdc00 ≤ value && value ≤ 0xdfff

/-- The character that a surrogate pair stands for. -/
def paired (leading trailing : Nat) : Char :=
  Char.ofNat (0x10000 + (leading - 0xd800) * 0x400 + (trailing - 0xdc00))

/-- The text that the pieces stand for, where `open?` is a leading half that awaits its
partner. -/
def textFrom? (open? : Option Nat) : List Piece → Option Text
  | [] => if open?.isNone then some [] else none
  | char c :: rest => if open?.isNone then (c :: ·) <$> textFrom? none rest else none
  | unit value :: rest =>
    match open? with
    | some leading =>
      if isTrailing value then (paired leading value :: ·) <$> textFrom? none rest else none
    | none =>
      if isLeading value then textFrom? (some value) rest
      else if isTrailing value then none
      else (Char.ofNat value :: ·) <$> textFrom? none rest

/-- The text that the pieces of a string stand for; `none` when half of a pair stands alone. -/
def text? : List Piece → Option Text := textFrom? none

end Piece

/-- The character that a one-letter escape stands for. -/
def shortEscape? : Char → Option Char
  | '"' => some '"'
  | '\\' => some '\\'
  | '/' => some '/'
  | 'b' => some '\x08'
  | 'f' => some '\x0c'
  | 'n' => some '\n'
  | 'r' => some '\r'
  | 't' => some '\t'
  | _ => none

/-- The value of a hexadecimal digit of either case. -/
def hexValue? (c : Char) : Option Nat :=
  if c.isDigit then some (c.toNat - '0'.toNat)
  else if 'a' ≤ c && c ≤ 'f' then some (c.toNat - 'a'.toNat + 10)
  else if 'A' ≤ c && c ≤ 'F' then some (c.toNat - 'A'.toNat + 10)
  else none

/-! ### Numbers -/

/-- How far the reading of a number has come. -/
inductive NumberPhase
  /-- Only the sign has been read. -/
  | sign
  /-- The whole part is a single zero. -/
  | zero
  /-- Within a whole part that does not start with zero. -/
  | whole
  /-- Directly behind the decimal point. -/
  | point
  /-- Within the digits behind the point. -/
  | fraction
  /-- Directly behind the exponent mark. -/
  | mark
  /-- Directly behind the sign of the exponent. -/
  | markSign
  /-- Within the digits of the exponent. -/
  | exponent
  deriving DecidableEq

namespace NumberPhase

/-- The phase in which a number begins with a given character. -/
def start? (c : Char) : Option NumberPhase :=
  if c = '-' then some sign
  else if c = '0' then some zero
  else if c.isDigit then some whole
  else none

/-- The phase after one more character of the number. -/
def next? (phase : NumberPhase) (c : Char) : Option NumberPhase :=
  match phase with
  | sign => if c = '-' then none else start? c
  | zero => tail?
  | whole => if c.isDigit then some whole else tail?
  | point => if c.isDigit then some fraction else none
  | fraction => if c.isDigit then some fraction else mark?
  | mark =>
    if c = '+' || c = '-' then some markSign else if c.isDigit then some exponent else none
  | markSign => if c.isDigit then some exponent else none
  | exponent => if c.isDigit then some exponent else none
where
  /-- The start of an exponent. -/
  mark? : Option NumberPhase := if c = 'e' || c = 'E' then some mark else none
  /-- What may follow a finished whole part. -/
  tail? : Option NumberPhase := if c = '.' then some point else mark?

/-- May the number end in this phase? -/
def isComplete : NumberPhase → Bool
  | zero | whole | fraction | exponent => true
  | sign | point | mark | markSign => false

end NumberPhase

/-! ### The machine -/

/-- What the characters read so far leave open. -/
inductive Mode
  /-- Between tokens. -/
  | gap
  /-- Within one of the three words, with the characters that must still come. -/
  | word (next : Char) (later : Text)
  /-- Within a number. -/
  | number (phase : NumberPhase)
  /-- Within a string, with its pieces so far, latest first. -/
  | string (pieces : List Piece)
  /-- Directly behind a backslash. -/
  | escape (pieces : List Piece)
  /-- Within a four-digit escape: its value so far and the number of digits still to come. -/
  | unit (pieces : List Piece) (value : Nat) (missing : Nat)
  deriving DecidableEq

namespace Mode

/-- Take a character between tokens: blanks are skipped, anything else starts a token. -/
def start? (c : Char) : Option (Mode × List Token) :=
  match c with
  | ' ' | '\t' | '\n' | '\r' => some (gap, [])
  | '[' => some (gap, [.openArray])
  | ']' => some (gap, [.closeArray])
  | '{' => some (gap, [.openObject])
  | '}' => some (gap, [.closeObject])
  | ',' => some (gap, [.comma])
  | ':' => some (gap, [.colon])
  | '"' => some (string [], [])
  | 'n' => some (word 'u' ['l', 'l'], [.null])
  | 't' => some (word 'r' ['u', 'e'], [.bool true])
  | 'f' => some (word 'a' ['l', 's', 'e'], [.bool false])
  | c => (NumberPhase.start? c).map fun phase ↦ (number phase, [.number])

/-- Take the next character: the mode after it, and the tokens that it emits. -/
def step? (mode : Mode) (c : Char) : Option (Mode × List Token) :=
  match mode with
  | gap => start? c
  | word next later =>
    if c = next then
      match later with
      | [] => some (gap, [])
      | d :: later => some (word d later, [])
    else none
  | number phase =>
    match phase.next? c with
    | some phase => some (number phase, [])
    | none => if phase.isComplete then start? c else none
  | string pieces =>
    if c = '"' then some (gap, [.string (Piece.text? pieces.reverse)])
    else if c = '\\' then some (escape pieces, [])
    else if c.toNat < 0x20 then none
    else some (string (.char c :: pieces), [])
  | escape pieces =>
    if c = 'u' then some (unit pieces 0 4, [])
    else (shortEscape? c).map fun d ↦ (string (.char d :: pieces), [])
  | unit pieces value missing =>
    (hexValue? c).map fun digit ↦
      let value := value * 16 + digit
      if missing ≤ 1 then (string (.unit value :: pieces), [])
      else (unit pieces value (missing - 1), [])

/-- May the text end in this mode? -/
def isComplete : Mode → Bool
  | gap => true
  | number phase => phase.isComplete
  | word .. | string _ | escape _ | unit .. => false

end Mode

/-- The tokens of a text read in a given mode. -/
def tokensFrom? : Mode → Text → Option (List Token)
  | mode, [] => if mode.isComplete then some [] else none
  | mode, c :: rest => do
    let (mode, emitted) ← mode.step? c
    let later ← tokensFrom? mode rest
    return emitted ++ later

/-- The tokens of a JSON text; `none` when some character cannot be read. -/
def tokens? : Text → Option (List Token) := tokensFrom? .gap

end OscAddressing.Json

import OscAddressing.Text.Basic
import OscAddressing.Text.GraphemeExtend
import OscAddressing.Text.Printable

/-!
# Quoted text

The form in which messages show a name: between double quotes, every character on one line and
visible. NUL, tab, line feed, carriage return, the double quote and the backslash have short
escapes; any other character that cannot be read alone is written as its code point in lower-case
hexadecimal between braces; everything else, the single quote included, stands for itself.
-/

namespace OscAddressing.Text

/-- The escape that writes the code point of a character. -/
def codePointEscape (c : Char) : Text :=
  ['\\', 'u', '{'] ++ Nat.toDigits 16 c.toNat ++ ['}']

/-- One character as it appears between the quotes. -/
def escapeChar (c : Char) : Text :=
  if c = '\x00' then ['\\', '0']
  else if c = '\t' then ['\\', 't']
  else if c = '\n' then ['\\', 'n']
  else if c = '\r' then ['\\', 'r']
  else if c = '"' then ['\\', '"']
  else if c = '\\' then ['\\', '\\']
  else if extendsGrapheme c || !isPrintable c then codePointEscape c
  else [c]

/-- A text between double quotes. -/
def quoted (t : Text) : Text :=
  '"' :: t.flatMap escapeChar ++ ['"']

example : quoted ['e', '\u0301', '\'', '"'] =
    ['"', 'e', '\\', 'u', '{', '3', '0', '1', '}', '\'', '\\', '"', '"'] := by decide +kernel

end OscAddressing.Text

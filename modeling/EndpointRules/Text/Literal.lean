import EndpointRules.Text.Basic
import EndpointRules.Text.Printable

/-! Texts and enumerations as messages show them: printable characters stand for themselves, and
brackets enclose what belongs together. -/

namespace EndpointRules.Text

def hexDigit (n : Nat) : CodePoint :=
  if n < 10 then CodePoint.ofNat (n + 48) else CodePoint.ofNat (n + 87)

/-- The lowest `width` hexadecimal digits of a number, the leading one first. -/
def hexDigits : (width : Nat) → Nat → List CodePoint
  | 0, _ => []
  | width + 1, n => hexDigits width (n / 16) ++ [hexDigit (n % 16)]

/-- A code point as an escape of two, four or eight hexadecimal digits. -/
def escapeCode (n : Nat) : List CodePoint :=
  if n < 0x100 then [.char '\\', .char 'x'] ++ hexDigits 2 n
  else if n < 0x10000 then [.char '\\', .char 'u'] ++ hexDigits 4 n
  else [.char '\\', .char 'U'] ++ hexDigits 8 n

/-- One character of a quoted text whose quote is `quote`. -/
def quoteChar (quote c : CodePoint) : List CodePoint :=
  if c = quote ∨ c = '\\' then [.char '\\', c]
  else if c = '\n' then [.char '\\', .char 'n']
  else if c = '\r' then [.char '\\', .char 'r']
  else if c = '\t' then [.char '\\', .char 't']
  else if isPrintable c then [c]
  else escapeCode c.toNat

/-- The quote around a text: single, unless the text holds single quotes and no double one. -/
def quoteFor (cs : List CodePoint) : CodePoint :=
  if cs.contains '\'' && !cs.contains '"' then '"' else '\''

/-- A text between quotes, with quotes, backslashes and unprintable characters escaped. -/
def quoted (s : Text) : Text :=
  let quote := quoteFor s.toList
  Text.ofList (quote :: s.toList.flatMap (quoteChar quote) ++ [quote])

def listing (items : List Text) : Text :=
  "[" ++ Text.intercalate ", " items ++ "]"

/-- Items between parentheses; a single item is followed by a comma. -/
def tupled : List Text → Text
  | [item] => "(" ++ item ++ ",)"
  | items => "(" ++ Text.intercalate ", " items ++ ")"

/-- Entries between braces, each with its key. -/
def mapping (entries : List (Text × Text)) : Text :=
  "\x7b" ++ Text.intercalate ", " (entries.map fun (key, item) => key ++ ": " ++ item) ++ "\x7d"

end EndpointRules.Text

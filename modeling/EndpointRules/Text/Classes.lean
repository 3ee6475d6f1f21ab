import EndpointRules.Text.Basic

/-! Classes of characters: ASCII letters and digits, decimal digits of every script as Unicode 14
lists them, and blanks. -/

namespace EndpointRules

namespace CodePoint

def isUpper (c : CodePoint) : Bool := 'A' ≤ c && c ≤ 'Z'

def isLower (c : CodePoint) : Bool := 'a' ≤ c && c ≤ 'z'

def isAlpha (c : CodePoint) : Bool := c.isUpper || c.isLower

def isDigit (c : CodePoint) : Bool := '0' ≤ c && c ≤ '9'

/-- Lower case of an ASCII letter; other code points stay. -/
def toLower (c : CodePoint) : CodePoint := if c.isUpper then ofNat (c.toNat + 32) else c

theorem isUpper_iff {c : CodePoint} : c.isUpper = true ↔ 'A' ≤ c ∧ c ≤ 'Z' := by simp [isUpper]

theorem isLower_iff {c : CodePoint} : c.isLower = true ↔ 'a' ≤ c ∧ c ≤ 'z' := by simp [isLower]

theorem isDigit_iff {c : CodePoint} : c.isDigit = true ↔ '0' ≤ c ∧ c ≤ '9' := by simp [isDigit]

theorem isAlpha_iff {c : CodePoint} :
    c.isAlpha = true ↔ ('A' ≤ c ∧ c ≤ 'Z') ∨ ('a' ≤ c ∧ c ≤ 'z') :=
  Bool.or_eq_true_iff.trans (or_congr isUpper_iff isLower_iff)

end CodePoint

namespace Text

def isAlphanumeric (c : CodePoint) : Bool := c.isAlpha || c.isDigit

theorem isAlphanumeric_iff {c : CodePoint} : isAlphanumeric c = true ↔
    ('A' ≤ c ∧ c ≤ 'Z') ∨ ('a' ≤ c ∧ c ≤ 'z') ∨ ('0' ≤ c ∧ c ≤ '9') := by
  rw [isAlphanumeric, Bool.or_eq_true, CodePoint.isAlpha_iff, CodePoint.isDigit_iff, or_assoc]

/-- An ASCII letter or the underscore may start an identifier. -/
def isIdentStart (c : CodePoint) : Bool := c.isAlpha || c == '_'

/-- Identifiers go on with ASCII letters, digits and underscores. -/
def isIdentRest (c : CodePoint) : Bool := isAlphanumeric c || c == '_'

/-- A text without the line feed at its end, if it ends in one. -/
def dropFinalNewline (cs : List CodePoint) : List CodePoint :=
  if cs.getLast? = some (.char '\n') then cs.dropLast else cs

def isPlainIdent : List CodePoint → Bool
  | [] => false
  | c :: rest => isIdentStart c && rest.all isIdentRest

/-- An identifier, which one line feed may follow. -/
def isIdent (cs : List CodePoint) : Bool := isPlainIdent (dropFinalNewline cs)

def isAscii (c : CodePoint) : Bool := c.toNat < 128

/-- The value of a hexadecimal digit of either case. -/
def hexValue? (c : CodePoint) : Option Nat :=
  if c.isDigit then some (c.toNat - 48)
  else if 'a' ≤ c && c ≤ 'f' then some (c.toNat - 87)
  else if 'A' ≤ c && c ≤ 'F' then some (c.toNat - 55)
  else none

def isHexDigit (c : CodePoint) : Bool := (hexValue? c).isSome

def decimalValue (digits : List CodePoint) : Nat :=
  digits.foldl (fun value c => 10 * value + (c.toNat - 48)) 0

/-- A text with its ASCII letters in lower case. -/
def lowerAscii (cs : List CodePoint) : List CodePoint := cs.map CodePoint.toLower

/-- The code points of the zeros; the digits one to nine of a script follow its zero. -/
def decimalZeros : List Nat := [
  48, 1632, 1776, 1984, 2406, 2534, 2662, 2790, 2918, 3046, 3174, 3302, 3430, 3558, 3664, 3792,
  3872, 4160, 4240, 6112, 6160, 6470, 6608, 6784, 6800, 6992, 7088, 7232, 7248, 42528, 43216,
  43264, 43472, 43504, 43600, 44016, 65296, 66720, 68912, 69734, 69872, 69942, 70096, 70384,
  70736, 70864, 71248, 71360, 71472, 71904, 72016, 72784, 73040, 73120, 92768, 92864, 93008,
  120782, 120792, 120802, 120812, 120822, 123200, 123632, 125264, 130032]

/-- The value of a decimal digit of any script, and nothing for any other character. -/
def digitValue? (c : CodePoint) : Option Nat :=
  (decimalZeros.find? fun base => base ≤ c.toNat && c.toNat < base + 10).map (c.toNat - ·)

/-- Code points of the blank characters: white space and the four information separators. -/
def blanks : List Nat := [
  0x9, 0xa, 0xb, 0xc, 0xd, 0x1c, 0x1d, 0x1e, 0x1f, 0x20, 0x85, 0xa0, 0x1680, 0x2000, 0x2001,
  0x2002, 0x2003, 0x2004, 0x2005, 0x2006, 0x2007, 0x2008, 0x2009, 0x200a, 0x2028, 0x2029,
  0x202f, 0x205f, 0x3000]

/-- A blank character may be stripped from the ends of a text. -/
def isBlank (c : CodePoint) : Bool := blanks.contains c.toNat

/-- A text without the blanks at its two ends. -/
def strip (cs : List CodePoint) : List CodePoint :=
  ((cs.dropWhile isBlank).reverse.dropWhile isBlank).reverse

end Text

end EndpointRules

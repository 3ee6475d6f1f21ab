import EndpointRules.Text.Literal

/-! What ends a computation outside of all classes of errors: numbers with too many digits, texts
with surrogates, and more. -/

namespace EndpointRules

/-- Why a computation cannot go on, where no error of a known class is meant. -/
inductive Breakdown where
  /-- A numeral has more digits than are read. -/
  | longNumeral (digits : Nat)
  /-- A whole number has more digits than are written. -/
  | longNumber
  /-- A list or a record is looked for among names. -/
  | unsearchable (kind : Text)
  /-- Surrogates stand in a row where a text is encoded: the first one, its place, and the place of
  the last one. -/
  | unencodable (first : Surrogate) (start stop : Nat)
  /-- An object of the caller's own fails when it is asked for something. -/
  | foreign (kind message : Text)
  deriving DecidableEq, Repr

namespace Breakdown

def message : Breakdown → Text
  | .longNumeral digits =>
    "Exceeds the limit (4300 digits) for integer string conversion: value has " ++
      toString digits ++ " digits; use sys.set_int_max_str_digits() to increase the limit"
  | .longNumber =>
    "Exceeds the limit (4300 digits) for integer string conversion; " ++
      "use sys.set_int_max_str_digits() to increase the limit"
  | .unsearchable kind => "unhashable type: '" ++ kind ++ "'"
  | .unencodable first start stop =>
    let which : Text :=
      if start = stop then
        "character '" ++ Text.ofList (Text.escapeCode (CodePoint.surrogate first).toNat) ++
          "' in position " ++ toString start
      else "characters in position " ++ toString start ++ "-" ++ toString stop
    "'utf-8' codec can't encode " ++ which ++ ": surrogates not allowed"
  | .foreign _ message => message

/-- The name of the kind of breakdown in reports. -/
def kindName : Breakdown → Text
  | .longNumeral _ | .longNumber => "ValueError"
  | .unsearchable _ => "TypeError"
  | .unencodable _ _ _ => "UnicodeEncodeError"
  | .foreign kind _ => kind

end Breakdown

/-- How many decimal digits a number may have where it is read or written. -/
def digitLimit : Nat := 4300

/-- The digits of a whole number are too many to be written. -/
def isLong (n : Int) : Bool := Nat.pow 10 digitLimit ≤ n.natAbs

/-- The decimal text of a whole number. -/
def decimalText (n : Int) : Except Breakdown Text :=
  if isLong n then .error .longNumber else .ok (toString n)

/-- The characters of code points, the first of which stands at a place. Surrogates are none. -/
def Text.chars (place : Nat) : List CodePoint → Except Breakdown (List Char)
  | [] => .ok []
  | .char c :: rest => do return c :: (← Text.chars (place + 1) rest)
  | .surrogate s :: rest =>
    .error (.unencodable s place (place + (rest.takeWhile CodePoint.isSurrogate).length))

/-- The string of a text, which must not hold surrogates. -/
def Text.string (s : Text) : Except Breakdown String := do
  return String.ofList (← Text.chars 0 s.toList)

/-- A numeral as far as it has been looked at: how many digits it has, and their value. -/
structure Numeral where
  digits : Nat
  value : Nat
  deriving DecidableEq, Repr

namespace Numeral

def empty : Numeral := ⟨0, 0⟩

/-- The numeral with one more digit behind it. -/
def push (digit : Nat) (n : Numeral) : Numeral := ⟨n.digits + 1, 10 * n.value + digit⟩

/-- The number that a numeral stands for. Zeros in front count as digits. -/
def read (n : Numeral) : Except Breakdown Nat :=
  if n.digits ≤ digitLimit then .ok n.value else .error (.longNumeral n.digits)

end Numeral
end EndpointRules

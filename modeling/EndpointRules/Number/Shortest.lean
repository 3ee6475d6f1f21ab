import EndpointRules.Text.Basic
import EndpointRules.Number.Double

/-! The shortest decimal text that reads back as a given double. -/

namespace EndpointRules.Double

/-- A decimal number `digits * 10 ^ exponent`. -/
structure Decimal where
  digits : Nat
  exponent : Int
  deriving DecidableEq, Repr

/-- The reals that round to a finite double, in quarters of its last place: the two ends, and
whether the ends belong to them. -/
structure Interval where
  lower : Nat
  upper : Nat
  closed : Bool

/-- Below a power of two the neighbours are half as far apart. -/
def interval (significand : Nat) (exponent : Int) : Interval where
  lower :=
    if significand = Nat.pow 2 52 ∧ -1074 < exponent then 4 * significand - 1
    else 4 * significand - 2
  upper := 4 * significand + 2
  closed := significand % 2 = 0

/-- A multiple of a power of ten lies in the interval of the double. -/
def reads (significand : Nat) (exponent : Int) (candidate : Decimal) : Bool :=
  let range := interval significand exponent
  let (n, d) := scaled (candidate.digits * Nat.pow 10 candidate.exponent.toNat)
    (Nat.pow 10 (-candidate.exponent).toNat) (exponent - 2)
  if range.closed then range.lower * d ≤ n && n ≤ range.upper * d
  else range.lower * d < n && n < range.upper * d

/-- The value of a double on the grid of multiples of `10 ^ place`, as a fraction. -/
def onGrid (significand : Nat) (exponent place : Int) : Nat × Nat :=
  (significand * Nat.pow 2 exponent.toNat * Nat.pow 10 (-place).toNat,
    Nat.pow 2 (-exponent).toNat * Nat.pow 10 place.toNat)

/-- The nearer of the two neighbours on a grid that read back, if one does. A tie goes to the even
neighbour. -/
def nearestOnGrid? (significand : Nat) (exponent place : Int) : Option Decimal :=
  let (n, d) := onGrid significand exponent place
  let below : Decimal := ⟨n / d, place⟩
  let above : Decimal := ⟨n / d + 1, place⟩
  let first := if roundQuotient n d = n / d then below else above
  let second := if first = below then above else below
  [first, second].find? fun candidate =>
    0 < candidate.digits && reads significand exponent candidate

/-- The decimal exponent of the leading digit of a positive double. -/
def leadingPlace (significand : Nat) (exponent : Int) : Int :=
  let (n, d) := onGrid significand exponent (-400)
  (decimalLength (n / d) : Int) - 401

/-- Tries grids from coarse to fine; seventeen digits always suffice. -/
def shortestFrom (significand : Nat) (exponent : Int) : (tries : Nat) → (place : Int) → Decimal
  | 0, place => let (n, d) := onGrid significand exponent place; ⟨roundQuotient n d, place⟩
  | tries + 1, place =>
    (nearestOnGrid? significand exponent place).getD
      (shortestFrom significand exponent tries (place - 1))

/-- The fewest digits that read back as a positive double, and of those the nearest. -/
def shortest (significand : Nat) (exponent : Int) : Decimal :=
  shortestFrom significand exponent 17 (leadingPlace significand exponent)

/-- How a decimal number is laid out: positional between two decimal exponents, with an exponent
of at least two digits elsewhere. -/
structure Layout where
  leastPositional : Int
  mostPositional : Int

/-- Numbers from a ten thousandth up to ten to the sixteenth are positional. -/
def layout : Layout := ⟨-4, 15⟩

/-- A decimal exponent with its sign and at least two digits. -/
private def exponentText (e : Int) : List Char :=
  let digits := Nat.toDigits 10 e.natAbs
  (if e < 0 then '-' else '+') :: (if digits.length < 2 then '0' :: digits else digits)

private def dropTrailingZeros (digits : List Char) : List Char :=
  (digits.reverse.dropWhile (· == '0')).reverse

/-- A positive decimal number in a layout; a positional number always has a fraction. -/
def Decimal.text (style : Layout) (x : Decimal) : List Char :=
  let all := Nat.toDigits 10 x.digits
  let leading := x.exponent + all.length - 1
  let digits := dropTrailingZeros all
  if style.leastPositional ≤ leading ∧ leading ≤ style.mostPositional then
    if leading < 0 then
      ['0', '.'] ++ List.replicate (-leading - 1).toNat '0' ++ digits
    else
      let whole := leading.toNat + 1
      let padded := digits ++ List.replicate (whole - digits.length) '0'
      let fraction := padded.drop whole
      padded.take whole ++ '.' :: (if fraction.isEmpty then ['0'] else fraction)
  else
    match digits with
    | [] => []
    | [d] => d :: 'e' :: exponentText leading
    | d :: rest => d :: '.' :: rest ++ 'e' :: exponentText leading

def text : Double → Text
  | .nan => "nan"
  | .infinite negative => if negative then "-inf" else "inf"
  | .finite negative significand exponent =>
    let magnitude :=
      if significand = 0 then ['0', '.', '0'] else (shortest significand exponent).text layout
    Text.ofChars (if negative then '-' :: magnitude else magnitude)

end EndpointRules.Double

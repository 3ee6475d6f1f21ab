/-! Double precision numbers, kept as a significand and a power of two. -/

namespace EndpointRules

/-- A double precision number. A finite one is `significand * 2 ^ exponent` up to its sign. -/
inductive Double where
  | nan
  | infinite (negative : Bool)
  | finite (negative : Bool) (significand : Nat) (exponent : Int)
  deriving DecidableEq, Repr

namespace Double

def zero (negative : Bool) : Double := .finite negative 0 (-1074)

/-- A quotient rounded to the nearest whole number; a half goes to the even neighbour. -/
def roundQuotient (num den : Nat) : Nat :=
  let quotient := num / den
  let rest := 2 * (num % den)
  if den < rest ∨ (rest = den ∧ quotient % 2 = 1) then quotient + 1 else quotient

/-- The quotient of `num` and `den * 2 ^ exponent` as a fraction of natural numbers. -/
def scaled (num den : Nat) (exponent : Int) : Nat × Nat :=
  (num * Nat.pow 2 (-exponent).toNat, den * Nat.pow 2 exponent.toNat)

/-- The exponent of the last of the 53 binary places of a positive fraction, which is at least
that of the smallest subnormal number. -/
def lastPlace (num den : Nat) : Int :=
  let guess := (num.log2 : Int) - den.log2 - 53
  let (n, d) := scaled num den guess
  max (-1074) (if n / d < Nat.pow 2 53 then guess else guess + 1)

/-- The double nearest to a positive fraction; too large a fraction becomes infinite. -/
def ofFraction (negative : Bool) (num den : Nat) : Double :=
  let exponent := lastPlace num den
  let (n, d) := scaled num den exponent
  let rounded := roundQuotient n d
  let (significand, exponent) :=
    if rounded = Nat.pow 2 53 then (Nat.pow 2 52, exponent + 1) else (rounded, exponent)
  if 971 < exponent then .infinite negative else .finite negative significand exponent

/-- How many decimal digits a number has; zero has one. -/
def decimalLength (n : Nat) : Nat := (Nat.toDigits 10 n).length

/-- The double nearest to `digits * 10 ^ exponent`. Magnitudes far outside the range of doubles
are settled by their number of places. -/
def ofDecimal (negative : Bool) (digits : Nat) (exponent : Int) : Double :=
  let places := (decimalLength digits : Int) + exponent
  if digits = 0 ∨ places < -330 then zero negative
  else if 310 < places then .infinite negative
  else ofFraction negative (digits * Nat.pow 10 exponent.toNat) (Nat.pow 10 (-exponent).toNat)

/-- The whole number that a double is equal to, if there is one. -/
def toInt? : Double → Option Int
  | .finite negative significand exponent =>
    let (n, d) := scaled significand 1 (-exponent)
    if n % d = 0 then some (if negative then -((n / d : Nat) : Int) else (n / d : Nat)) else none
  | _ => none

/-- Equality of numbers: the two zeros are equal, and nothing equals a number that is none. -/
def numEq : Double → Double → Bool
  | .finite n₁ s₁ e₁, .finite n₂ s₂ e₂ => s₁ = s₂ ∧ e₁ = e₂ ∧ (n₁ = n₂ ∨ s₁ = 0)
  | .infinite n₁, .infinite n₂ => n₁ == n₂
  | _, _ => false

/-- A double is zero, with either sign. -/
def isZero : Double → Bool
  | .finite _ significand _ => significand = 0
  | _ => false

end Double
end EndpointRules

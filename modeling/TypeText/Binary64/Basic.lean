/-!
# Binary floating-point numbers

A number that is not an integer is kept with fifty-three significant bits, so that a
decimal literal stands for the nearest number of this form.  All finite numbers of
the format are whole multiples of the smallest one, `2 ^ (-1074)`; a number is given
by its sign and that multiple, and exact comparison is comparison of multiples.

## Main definitions

* `Binary64` — the numbers.
* `roundDiv` — the whole number nearest to a quotient, a half going to the even side.
* `Binary64.roundUnits` — the multiple nearest to a quotient of multiples.
* `Binary64.ofDecimal` — the number that a decimal literal stands for.
* `Binary64.equal`, `Binary64.equalInt` — exact comparison with another number and
  with an integer.
-/

set_option autoImplicit false

namespace TypeText

/-- The whole number nearest to `num / den`; a half goes to the even side. -/
def roundDiv (num den : Nat) : Nat :=
  let quotient := num / den
  let twice := 2 * (num % den)
  if den < twice ∨ (twice = den ∧ quotient % 2 = 1) then quotient + 1 else quotient

/-- A binary floating-point number. -/
inductive Binary64 where
  /-- The number `units * 2 ^ (-1074)` with its sign. -/
  | finite (negative : Bool) (units : Nat)
  /-- One of the two infinities. -/
  | infinite (negative : Bool)
  /-- Not a number. -/
  | nan
deriving DecidableEq

namespace Binary64

/-- The number one, as a multiple of the smallest number. -/
def one : Nat := Nat.pow 2 1074

/-- The first multiple that is too large for the format. -/
def limit : Nat := Nat.pow 2 2098

/-- The number of places by which a multiple is shifted to fit into fifty-three bits. -/
def shift (units : Nat) : Nat := units.log2 - 52

/-- The multiple with fifty-three significant bits that is nearest to `num / den`; a
half goes to the even side. -/
def roundUnits (num den : Nat) : Nat :=
  -- a result that reaches the next power of two still fits, as a multiple of `step`
  let step := Nat.pow 2 (shift (num / den))
  roundDiv num (den * step) * step

/-- The multiple nearest to `significand * 10 ^ exponent`. -/
def unitsOfDecimal (significand : Nat) (exponent : Int) : Nat :=
  roundUnits (significand * Nat.pow 10 exponent.toNat * one) (Nat.pow 10 (-exponent).toNat)

/-- The number of decimal digits of a natural number. -/
def digitCount (n : Nat) : Nat := (Nat.toDigits 10 n).length

/-- The number that the literal `significand * 10 ^ exponent` stands for.  A literal
far beyond the format on either side is settled by its size alone, so that no large
power is formed. -/
def ofDecimal (negative : Bool) (significand : Nat) (exponent : Int) : Binary64 :=
  let size := digitCount significand + exponent
  if significand = 0 ∨ size < -330 then .finite negative 0
  else if 310 < size then .infinite negative
  else
    let units := unitsOfDecimal significand exponent
    if units < limit then .finite negative units else .infinite negative

/-- Every number except zero counts as set. -/
def isTruthy : Binary64 → Bool
  | .finite _ units => units != 0
  | _ => true

/-- A multiple with its sign. -/
def signedUnits (negative : Bool) (units : Nat) : Int :=
  if negative then -(units : Int) else units

/-- Equality of numbers.  The two zeros are equal; what is not a number equals
nothing. -/
def equal : Binary64 → Binary64 → Bool
  | .finite s a, .finite t b => signedUnits s a == signedUnits t b
  | .infinite s, .infinite t => s == t
  | _, _ => false

/-- Equality with an integer, which is compared exactly and not rounded first. -/
def equalInt : Binary64 → Int → Bool
  | .finite s a, n => signedUnits s a == n * one
  | _, _ => false

end Binary64

end TypeText

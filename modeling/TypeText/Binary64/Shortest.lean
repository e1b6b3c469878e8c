import TypeText.Binary64.Basic

/-!
# The shortest text of a floating-point number

A finite number is written with the fewest decimal digits that read back as the same
number, and of several such texts the one nearest to it.  Numbers of moderate size
are written with a point and at least one digit after it, all others with an
exponent.

## Main definitions

* `Binary64.DecimalForm` — a whole number times a power of ten.
* `Binary64.shortest` — the form that is written.
* `Binary64.finiteText` — its layout.
-/

set_option autoImplicit false

namespace TypeText

namespace Binary64

/-- The number `digits * 10 ^ exponent`. -/
structure DecimalForm where
  digits : Nat
  exponent : Int
deriving DecidableEq

/-! ### Digits -/

/-- Whether a decimal form reads back as the given multiple. -/
def DecimalForm.readsBack (d : DecimalForm) (units : Nat) : Bool :=
  unitsOfDecimal d.digits d.exponent == units

/-- The number of digits before the point; negative or zero for a number below one
tenth or one. -/
def magnitude (units : Nat) : Int := (digitCount (units * Nat.pow 10 400 / one) : Int) - 400

/-- The two neighbours of a number among the multiples of a power of ten, the nearer
one first; of two equally near, the even one. -/
def neighbours (units : Nat) (exponent : Int) : List DecimalForm :=
  let num := units * Nat.pow 10 (-exponent).toNat
  let den := one * Nat.pow 10 exponent.toNat
  let below : DecimalForm := ⟨num / den, exponent⟩
  let above : DecimalForm := ⟨num / den + 1, exponent⟩
  if roundDiv num den = num / den then [below, above] else [above, below]

/-- Moves zeros at the end of the digits into the exponent, at most `fuel` of them. -/
def DecimalForm.strip : Nat → DecimalForm → DecimalForm
  | 0, d => d
  | fuel + 1, d =>
    if d.digits ≠ 0 ∧ d.digits % 10 = 0 then strip fuel ⟨d.digits / 10, d.exponent + 1⟩ else d

/-- The exact value of a multiple. -/
def exactForm (units : Nat) : DecimalForm := ⟨units * Nat.pow 5 1074, -1074⟩

/-- The form with the fewest digits that reads back.  Seventeen digits are enough. -/
def shortest (units : Nat) : DecimalForm :=
  -- fewer digits come first, and of one length the nearer candidate
  let candidates := (List.range 17).flatMap fun n : Nat =>
    neighbours units (magnitude units - (n + 1 : Nat))
  ((candidates.find? (·.readsBack units)).getD (exactForm units)).strip 400

/-! ### Layout -/

/-- An exponent with its sign and at least two digits. -/
def exponentChars (e : Int) : List Char :=
  let digits := Nat.toDigits 10 e.natAbs
  (if e < 0 then '-' else '+') :: (List.replicate (2 - digits.length) '0' ++ digits)

/-- The layout of digits of which `point` stand before the point. -/
def layout (digits : List Char) (point : Int) : List Char :=
  if -4 < point ∧ point ≤ 16 then
    if point ≤ 0 then '0' :: '.' :: (List.replicate (-point).toNat '0' ++ digits)
    else
      let whole := digits.take point.toNat
      let rest := digits.drop point.toNat
      whole ++ List.replicate (point.toNat - digits.length) '0' ++
        '.' :: (if rest.isEmpty then ['0'] else rest)
  else
    digits.take 1 ++ (if digits.length ≤ 1 then [] else '.' :: digits.drop 1) ++
      'e' :: exponentChars (point - 1)

/-- The text of a finite number. -/
def finiteText (negative : Bool) (units : Nat) : List Char :=
  (if negative then ['-'] else []) ++
    if units = 0 then ['0', '.', '0']
    else
      let d := shortest units
      layout (Nat.toDigits 10 d.digits) (digitCount d.digits + d.exponent)

end Binary64

end TypeText

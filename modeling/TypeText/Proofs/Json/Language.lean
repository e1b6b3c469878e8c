import TypeText.Proofs.Json.Spelling

/-!
# The texts that can be read, and those that stop at an integer

The texts that can be read are given here by a grammar, without the values that they stand for.
It is wider than `Json.Spells`: numbers may have a fraction and an exponent, the words for what
is no number are there, and an escape may be one half of a surrogate pair.

An integer with more than `digitLimit` digits is outside of it, and is not met like other things
that do not fit.  Reading stops at such an integer as soon as it gets to it, after nothing but
complete values, whatever follows.

## Main definitions

* `Json.UnitText`, `Json.BodyText`, `Json.KeyText` — the texts of a code unit, of what stands
  between quotes, and of a key.
* `Json.NumberText` — the texts of numbers.
* `Json.ValueText` — the texts of values.
* `Json.LongInteger`, `Json.ContinuesNumber` — integers with too many digits, and what would make
  them part of another number.
* `Json.StopsAt` — the texts whose reading stops at an integer.
-/

set_option autoImplicit false

namespace TypeText

namespace Json

/-! ### Strings -/

/-- The hexadecimal digits, in either case. -/
def hexDigitChars : List Char := "0123456789abcdefABCDEF".toList

/-- The texts of a code unit in a string. -/
inductive UnitText : List Char → Prop where
  | literal {c : Char} (hcontrol : ' ' ≤ c) (hquote : c ≠ '"') (hbackslash : c ≠ '\\') :
    UnitText [c]
  | letter {letter c : Char} (h : (letter, c) ∈ letterEscapes) : UnitText ['\\', letter]
  | numeric {d₁ d₂ d₃ d₄ : Char} (h : ∀ d ∈ [d₁, d₂, d₃, d₄], d ∈ hexDigitChars) :
    UnitText ['\\', 'u', d₁, d₂, d₃, d₄]

/-- The texts between the quotes of a string. -/
inductive BodyText : List Char → Prop where
  | nil : BodyText []
  | cons {t u : List Char} (ht : UnitText t) (hu : BodyText u) : BodyText (t ++ u)

/-- The texts of a key: a string with blanks around it. -/
def KeyText (t : List Char) : Prop :=
  ∃ before body after, Blanks before ∧ BodyText body ∧ Blanks after ∧
    t = before ++ '"' :: body ++ '"' :: after

/-! ### Numbers -/

/-- One digit or more. -/
def DigitsText (t : List Char) : Prop := t ≠ [] ∧ ∀ c ∈ t, c.isDigit

/-- The digits before the point: a zero in front stands alone. -/
def WholeText (t : List Char) : Prop := DigitsText t ∧ (t.head? = some '0' → t = ['0'])

/-- The sign of a number. -/
def SignText (t : List Char) : Prop := t = [] ∨ t = ['-']

/-- A point and digits after it. -/
def FractionText (t : List Char) : Prop := ∃ ds, DigitsText ds ∧ t = '.' :: ds

/-- A mark and digits after it, with or without a sign. -/
def ExponentText (t : List Char) : Prop :=
  ∃ mark sign ds, (mark = 'e' ∨ mark = 'E') ∧ sign ∈ [[], ['+'], ['-']] ∧ DigitsText ds ∧
    t = mark :: (sign ++ ds)

/-- The texts of numbers.  Only integers have a limit to their digits. -/
inductive NumberText : List Char → Prop where
  | integer {sign whole : List Char} (hsign : SignText sign) (hwhole : WholeText whole)
    (hlimit : whole.length ≤ digitLimit) : NumberText (sign ++ whole)
  | fraction {sign whole fraction : List Char} (hsign : SignText sign) (hwhole : WholeText whole)
    (hfraction : FractionText fraction) : NumberText (sign ++ (whole ++ fraction))
  | exponent {sign whole exponent : List Char} (hsign : SignText sign) (hwhole : WholeText whole)
    (hexponent : ExponentText exponent) : NumberText (sign ++ (whole ++ exponent))
  | both {sign whole fraction exponent : List Char} (hsign : SignText sign)
    (hwhole : WholeText whole) (hfraction : FractionText fraction)
    (hexponent : ExponentText exponent) : NumberText (sign ++ (whole ++ (fraction ++ exponent)))

/-! ### Values -/

/-- The words. -/
def wordTexts : List (List Char) :=
  ["null", "true", "false", "NaN", "Infinity", "-Infinity"].map String.toList

/-- The text of a member, from those of its key and of its value. -/
def memberText (m : List Char × List Char) : List Char := m.1 ++ ':' :: m.2

/-- The texts of values, with or without blanks around them. -/
inductive ValueText : List Char → Prop where
  | word {t : List Char} (h : t ∈ wordTexts) : ValueText t
  | number {t : List Char} (h : NumberText t) : ValueText t
  | str {t : List Char} (h : BodyText t) : ValueText ('"' :: t ++ ['"'])
  | emptyArr {blanks : List Char} (h : Blanks blanks) : ValueText ('[' :: blanks ++ [']'])
  | arr {items : List (List Char)} (hne : items ≠ []) (h : ∀ t ∈ items, ValueText t) :
    ValueText ('[' :: [','].intercalate items ++ [']'])
  | emptyObj {blanks : List Char} (h : Blanks blanks) : ValueText ('\x7b' :: blanks ++ ['\x7d'])
  | obj {members : List (List Char × List Char)} (hne : members ≠ [])
    (hkeys : ∀ m ∈ members, KeyText m.1) (h : ∀ m ∈ members, ValueText m.2) :
    ValueText ('\x7b' :: [','].intercalate (members.map memberText) ++ ['\x7d'])
  | before {blanks t : List Char} (hblanks : Blanks blanks) (h : ValueText t) :
    ValueText (blanks ++ t)
  | after {blanks t : List Char} (h : ValueText t) (hblanks : Blanks blanks) :
    ValueText (t ++ blanks)

/-! ### Integers with too many digits -/

/-- The texts of integers with `n` digits, where that is too many. -/
def LongInteger (n : Nat) (t : List Char) : Prop :=
  ∃ sign whole, SignText sign ∧ WholeText whole ∧ whole.length = n ∧ digitLimit < n ∧
    t = sign ++ whole

/-- What follows an integer goes on with the number: a digit, a fraction or an exponent.  A point or
a mark without digits does not. -/
def ContinuesNumber (s : List Char) : Prop :=
  ∃ t rest, (DigitsText t ∨ FractionText t ∨ ExponentText t) ∧ s = t ++ rest

/-- The texts whose reading stops at an integer with `n` digits.  Only complete values, and what has
to stand between them, come before it; anything may come after it. -/
inductive StopsAt (n : Nat) : List Char → Prop where
  | integer {t rest : List Char} (ht : LongInteger n t) (hrest : ¬ ContinuesNumber rest) :
    StopsAt n (t ++ rest)
  | item {items : List (List Char)} {s : List Char} (hitems : ∀ t ∈ items, ValueText t)
    (h : StopsAt n s) : StopsAt n ('[' :: items.flatMap (· ++ [',']) ++ s)
  | member {members : List (List Char × List Char)} {key s : List Char}
    (hkeys : ∀ m ∈ members, KeyText m.1) (hvalues : ∀ m ∈ members, ValueText m.2)
    (hkey : KeyText key) (h : StopsAt n s) :
    StopsAt n ('\x7b' :: members.flatMap (memberText · ++ [',']) ++ memberText (key, s))
  | before {blanks s : List Char} (hblanks : Blanks blanks) (h : StopsAt n s) :
    StopsAt n (blanks ++ s)

end Json

end TypeText

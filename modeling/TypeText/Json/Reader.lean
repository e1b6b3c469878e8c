import TypeText.Json.Basic

/-!
# Reading JSON text

A text is read from left to right and the first thing that does not fit is
reported.  Reading is lenient in three places: the words `NaN`, `Infinity` and
`-Infinity` are numbers, a key may be repeated, and an escape may name one half
of a surrogate pair without the other.  It is strict in one: an integer has at
most `digitLimit` digits.

A string is a sequence of scalar values, so that one half of a surrogate pair has no
character of its own: it is read as the replacement character, and two such halves are not
told apart.

## Main definitions

* `Json.Malformed`, `Json.ReadError` — what can be wrong with a text.
* `Json.Reader.stringBody` — a string after its opening quote.
* `Json.Reader.number` — a number literal.
* `Json.Reader.value` — a value at the start of a text, with what follows it.
* `Json.parse` — a whole text.

Each reader takes the characters that are left and returns those it leaves.
-/

set_option autoImplicit false

namespace TypeText

namespace Json

/-- The ways in which a text fails to be JSON. -/
inductive Malformed where
  /-- No value starts here. -/
  | expectedValue
  /-- Something follows the value. -/
  | extraData
  /-- An object goes on without a key. -/
  | expectedKey
  /-- A key is not followed by a colon. -/
  | expectedColon
  /-- An item or member is followed neither by a comma nor by the end. -/
  | expectedComma
  /-- The text ends inside a string. -/
  | unterminatedString
  /-- A control character stands in a string. -/
  | controlCharacter
  /-- A backslash is followed by a character that names no escape. -/
  | invalidEscape
  /-- A numeric escape lacks its four hexadecimal digits. -/
  | invalidUnicodeEscape
  /-- The text starts with a byte order mark. -/
  | byteOrderMark
deriving DecidableEq

namespace Malformed

/-- The wording of each failure. -/
def message : Malformed → String
  | .expectedValue => "Expecting value"
  | .extraData => "Extra data"
  | .expectedKey => "Expecting property name enclosed in double quotes"
  | .expectedColon => "Expecting ':' delimiter"
  | .expectedComma => "Expecting ',' delimiter"
  | .unterminatedString => "Unterminated string starting at"
  | .controlCharacter => "Invalid control character at"
  | .invalidEscape => "Invalid \\escape"
  | .invalidUnicodeEscape => "Invalid \\uXXXX escape"
  | .byteOrderMark => "Unexpected UTF-8 BOM (decode using utf-8-sig)"

end Malformed

/-- Why a text could not be read. -/
inductive ReadError where
  /-- The text is not JSON. -/
  | malformed (cause : Malformed)
  /-- The text holds an integer of that many digits, more than `digitLimit`. -/
  | integerTooLong (digits : Nat)
deriving DecidableEq

/-- The number of digits an integer may have. -/
def digitLimit : Nat := 4300

namespace Reader

/-- Stops reading. -/
def fail {α : Type} (cause : Malformed) : Except ReadError α := .error (.malformed cause)

/-! ### Blanks -/

/-- The four characters that may stand between tokens. -/
def isBlank (c : Char) : Bool := c == ' ' || c == '\t' || c == '\n' || c == '\r'

/-- Drops the blanks at the start of a text. -/
def skipBlanks (s : List Char) : List Char := s.dropWhile isBlank

@[simp] theorem skipBlanks_nil : skipBlanks [] = [] := rfl

/-! ### Strings -/

/-- The value of a hexadecimal digit, in either case. -/
def hexValue? (c : Char) : Option Nat :=
  if c.isDigit then some (c.toNat - '0'.toNat)
  else if 'a' ≤ c ∧ c ≤ 'f' then some (c.toNat - 'a'.toNat + 10)
  else if 'A' ≤ c ∧ c ≤ 'F' then some (c.toNat - 'A'.toNat + 10)
  else none

/-- The value of four hexadecimal digits. -/
def hexUnit? (a b c d : Char) : Option Nat := do
  let a ← hexValue? a
  let b ← hexValue? b
  let c ← hexValue? c
  let d ← hexValue? d
  pure (((a * 16 + b) * 16 + c) * 16 + d)

/-- The character that a one-letter escape stands for. -/
def shortEscape? : Char → Option Char
  | '"' => some '"'
  | '\\' => some '\\'
  | '/' => some '/'
  | 'b' => some '\x08'
  | 'f' => some '\x0c'
  | 'n' => some '\n'
  | 'r' => some '\r'
  | 't' => some '\t'
  | _ => none

/-- Puts a unit in front of the string that follows it. -/
def consUnit (unit : Nat) (rest : Except ReadError (List Nat × List Char)) :
    Except ReadError (List Nat × List Char) :=
  rest.map fun (units, s) => (unit :: units, s)

/-- Reads a string after its opening quote, up to and including the closing one.
The result is a list of code units: a literal character is its code point, a
numeric escape the number it gives, so that surrogate pairs are still apart.  A
numeric escape must be followed by at least one more character. -/
def stringBody : List Char → Except ReadError (List Nat × List Char)
  | [] => fail .unterminatedString
  | c :: rest =>
    if c = '"' then .ok ([], rest)
    else if c = '\\' then
      match rest with
      | [] => fail .unterminatedString
      -- `next` is not used up: it is asked for and read again
      | 'u' :: d₁ :: d₂ :: d₃ :: d₄ :: next :: rest =>
        match hexUnit? d₁ d₂ d₃ d₄ with
        | some unit => consUnit unit (stringBody (next :: rest))
        | none => fail .invalidUnicodeEscape
      | 'u' :: _ => fail .invalidUnicodeEscape
      | letter :: rest =>
        match shortEscape? letter with
        | some c => consUnit c.toNat (stringBody rest)
        | none => fail .invalidEscape
    else if c.toNat < 0x20 then fail .controlCharacter
    else consUnit c.toNat (stringBody rest)

/-- Whether a unit is the first half of a surrogate pair. -/
def isHighSurrogate (unit : Nat) : Bool := 0xd800 ≤ unit && unit < 0xdc00

/-- Whether a unit is the second half of a surrogate pair. -/
def isLowSurrogate (unit : Nat) : Bool := 0xdc00 ≤ unit && unit < 0xe000

/-- The character of a unit that belongs to no pair; the replacement character for
a half that has lost the other. -/
def ofUnit (unit : Nat) : Char :=
  if isHighSurrogate unit || isLowSurrogate unit then '\ufffd' else Char.ofNat unit

/-- The code point of a surrogate pair. -/
def joinSurrogates (high low : Nat) : Nat :=
  0x10000 + (high - 0xd800) * 0x400 + (low - 0xdc00)

/-- The characters of a list of units: a high surrogate and a low one after it are
one character. -/
def decodeUnits : List Nat → List Char
  | [] => []
  | [unit] => [ofUnit unit]
  | high :: low :: rest =>
    if isHighSurrogate high && isLowSurrogate low then
      Char.ofNat (joinSurrogates high low) :: decodeUnits rest
    else
      -- the second unit may still begin a pair
      ofUnit high :: decodeUnits (low :: rest)

/-- Reads a string after its opening quote. -/
def string (s : List Char) : Except ReadError (String × List Char) :=
  (stringBody s).map fun (units, rest) => (String.ofList (decodeUnits units), rest)

/-! ### Numbers -/

/-- The digits at the start of a text, and what follows them. -/
def digits (s : List Char) : List Char × List Char :=
  (s.takeWhile Char.isDigit, s.dropWhile Char.isDigit)

/-- The digits before the point: a zero stands alone. -/
def integerPart? : List Char → Option (List Char × List Char)
  | [] => none
  | c :: rest =>
    if c = '0' then some (['0'], rest)
    else if c.isDigit then some (c :: (digits rest).1, (digits rest).2)
    else none

/-- The digits after a point.  A point without digits is not part of the number. -/
def fractionPart : List Char → Option (List Char) × List Char
  | '.' :: rest =>
    if (digits rest).1.isEmpty then (none, '.' :: rest)
    else (some (digits rest).1, (digits rest).2)
  | s => (none, s)

/-- A sign and the characters after it; `true` for a minus. -/
def sign : List Char → Bool × List Char
  | '-' :: rest => (true, rest)
  | '+' :: rest => (false, rest)
  | s => (false, s)

/-- A signed number. -/
def signed (negative : Bool) (n : Nat) : Int := if negative then -(n : Int) else n

/-- The exponent.  A mark without digits is not part of the number. -/
def exponentPart : List Char → Option Int × List Char
  | [] => (none, [])
  | c :: rest =>
    if (c = 'e' ∨ c = 'E') ∧ !(digits (sign rest).2).1.isEmpty then
      (some (signed (sign rest).1 (Nat.ofDigitChars 10 (digits (sign rest).2).1 0)),
        (digits (sign rest).2).2)
    else (none, c :: rest)

/-- The value of a number given by its digits. -/
def numberValue (negative : Bool) (whole : List Char) (fraction : Option (List Char))
    (exponent : Option Int) : Except ReadError Json :=
  match fraction, exponent with
  | none, none =>
    -- the sign does not count, and only integers are bounded
    if digitLimit < whole.length then .error (.integerTooLong whole.length)
    else .ok (.int (signed negative (Nat.ofDigitChars 10 whole 0)))
  | _, _ =>
    let fraction := fraction.getD []
    .ok (.real (.ofDecimal negative (Nat.ofDigitChars 10 (whole ++ fraction) 0)
      (exponent.getD 0 - fraction.length)))

/-- Reads a number, which ends where its grammar ends. -/
def number (s : List Char) : Except ReadError (Json × List Char) :=
  let negative := s.head? == some '-'
  match integerPart? (if negative then s.tail else s) with
  | none => fail .expectedValue
  | some (whole, rest) =>
    let fraction := fractionPart rest
    let exponent := exponentPart fraction.2
    (numberValue negative whole fraction.1 exponent.1).map fun v => (v, exponent.2)

/-! ### Values -/

/-- The words that stand for a value. -/
def words : List (List Char × Json) :=
  [ ("null".toList, .null), ("true".toList, .bool true), ("false".toList, .bool false),
    ("NaN".toList, .real .nan), ("Infinity".toList, .real (.infinite false)),
    ("-Infinity".toList, .real (.infinite true)) ]

/-- Reads one of the words. -/
def word? (s : List Char) : Option (Json × List Char) :=
  words.findSome? fun (w, v) => if w.isPrefixOf s then some (v, s.drop w.length) else none

/-- Reads a word or a number. -/
def scalar (s : List Char) : Except ReadError (Json × List Char) :=
  match word? s with
  | some r => .ok r
  | none => number s

/-- Reads the colon between a key and its value, with the blanks around it. -/
def colon (s : List Char) : Except ReadError (List Char) :=
  match skipBlanks s with
  | ':' :: rest => .ok (skipBlanks rest)
  | _ => fail .expectedColon

/-- Reads what follows an item or a member: whether another one comes, after a
comma, or the bracket closes. -/
def continuation (close : Char) (s : List Char) : Except ReadError (Bool × List Char) :=
  match skipBlanks s with
  | [] => fail .expectedComma
  | c :: rest =>
    if c = close then .ok (false, rest)
    else if c = ',' then .ok (true, skipBlanks rest)
    else fail .expectedComma

mutual

/-- Reads a value.  The first argument bounds the depth of the reading.  An array or
an object takes two steps for its bracket, so that one more than twice the length of
the text is always enough. -/
def value : Nat → List Char → Except ReadError (Json × List Char)
  | 0, _ => fail .expectedValue
  | fuel + 1, s =>
    match s with
    | '"' :: rest => (string rest).map fun (t, rest) => (.str t, rest)
    | '[' :: rest =>
      match skipBlanks rest with
      | ']' :: rest => .ok (.arr [], rest)
      | rest => (items fuel rest).map fun (vs, rest) => (.arr vs, rest)
    | '\x7b' :: rest =>
      match skipBlanks rest with
      | '\x7d' :: rest => .ok (.obj [], rest)
      | rest => (members fuel rest).map fun (ms, rest) => (.obj ms, rest)
    | s => scalar s

/-- Reads the items of an array up to the closing bracket. -/
def items : Nat → List Char → Except ReadError (List Json × List Char)
  | 0, _ => fail .expectedValue
  | fuel + 1, s => do
    let (v, s) ← value fuel s
    let (more, s) ← continuation ']' s
    if more then
      let (vs, s) ← items fuel s
      pure (v :: vs, s)
    else pure ([v], s)

/-- Reads the members of an object up to the closing brace. -/
def members : Nat → List Char → Except ReadError (List (String × Json) × List Char)
  | 0, _ => fail .expectedKey
  | fuel + 1, s =>
    match s with
    | '"' :: s => do
      let (key, s) ← string s
      let s ← colon s
      let (v, s) ← value fuel s
      let (more, s) ← continuation '\x7d' s
      if more then
        let (ms, s) ← members fuel s
        pure ((key, v) :: ms, s)
      else pure ([(key, v)], s)
    | _ => fail .expectedKey

end

end Reader

open Reader in
/-- Reads a text that holds one value and blanks around it. -/
def parse (text : String) : Except ReadError Json :=
  let s := text.toList
  if s.head? = some '\ufeff' then fail .byteOrderMark
  else do
    let (v, rest) ← value (2 * s.length + 1) (skipBlanks s)
    if (skipBlanks rest).isEmpty then pure v else fail .extraData

end Json

end TypeText

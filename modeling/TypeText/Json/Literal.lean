import TypeText.Binary64.Shortest
import TypeText.Hex
import TypeText.Json.Basic

/-!
# Values in messages

A message shows a value as a literal: strings in quotes with everything invisible
escaped, the other values by their words.  Text made for a reader shows a string
as it is.

Two limits are left out.  A code point that is not assigned to a character yet counts as
printable, except for the ranges below that never will be; and an integer is shown
whatever the number of its digits.

## Main definitions

* `isPrintable` — whether a literal shows a character as it is.
* `quoteLiteral` — a string in quotes.
* `Json.literal` — a value in a message.
* `Json.display` — a value in a text: a string itself, any other value as its
  literal.
-/

set_option autoImplicit false

namespace TypeText

/-! ### Printable characters -/

/-- The ranges of characters that have no form of their own: controls, blanks other
than the space, format characters, private use.  Code points that may be assigned later are
not among them. -/
def unprintableRanges : List (Nat × Nat) :=
  [ (0x0000, 0x001f), (0x007f, 0x00a0), (0x00ad, 0x00ad), (0x0600, 0x0605),
    (0x061c, 0x061c), (0x06dd, 0x06dd), (0x070f, 0x070f), (0x0890, 0x0891),
    (0x08e2, 0x08e2), (0x1680, 0x1680), (0x180e, 0x180e), (0x2000, 0x200f),
    (0x2028, 0x202f), (0x205f, 0x206f), (0x3000, 0x3000), (0xd800, 0xf8ff),
    (0xfdd0, 0xfdef), (0xfeff, 0xfeff), (0xfff0, 0xfffb), (0x110bd, 0x110bd),
    (0x110cd, 0x110cd), (0x13430, 0x13438), (0x1bca0, 0x1bca3), (0x1d173, 0x1d17a),
    (0xe0000, 0xe00ff), (0xe01f0, 0x10ffff) ]

/-- Whether a code point is one of the last two of its plane, which are never
characters. -/
def isPlaneEnd (code : Nat) : Bool := 0xfffe ≤ code % 0x10000

/-- Whether a literal shows a character as it is. -/
def isPrintable (c : Char) : Bool :=
  !(isPlaneEnd c.toNat || unprintableRanges.any fun (lo, hi) => lo ≤ c.toNat && c.toNat ≤ hi)

/-! ### Strings -/

/-- The quote for a string: a single one, unless the string holds single quotes and
no double ones. -/
def chooseQuote (s : List Char) : Char :=
  if s.contains '\'' && !s.contains '"' then '"' else '\''

/-- A character by its code point, in the shortest of the three forms. -/
def codeEscape (code : Nat) : List Char :=
  if code < 0x100 then '\\' :: 'x' :: hexDigits 2 code
  else if code < 0x10000 then '\\' :: 'u' :: hexDigits 4 code
  else '\\' :: 'U' :: hexDigits 8 code

/-- A character between the given quotes. -/
def literalChar (quote c : Char) : List Char :=
  if c = quote ∨ c = '\\' then ['\\', c]
  else if c = '\n' then ['\\', 'n']
  else if c = '\r' then ['\\', 'r']
  else if c = '\t' then ['\\', 't']
  else if isPrintable c then [c]
  else codeEscape c.toNat

/-- A string in quotes. -/
def quoteLiteral (s : String) : String :=
  let quote := chooseQuote s.toList
  String.ofList (quote :: s.toList.flatMap (literalChar quote) ++ [quote])

/-! ### Values -/

/-- A floating-point number in a message. -/
def Binary64.literal : Binary64 → String
  | .finite negative units => String.ofList (finiteText negative units)
  | .infinite false => "inf"
  | .infinite true => "-inf"
  | .nan => "nan"

namespace Json

mutual

/-- A value in a message. -/
def literal : Json → String
  | .null => "None"
  | .bool true => "True"
  | .bool false => "False"
  | .int n => toString n
  | .real x => x.literal
  | .str s => quoteLiteral s
  | .arr items => "[" ++ ", ".intercalate (itemLiterals items) ++ "]"
  | .obj members => "\x7b" ++ ", ".intercalate (memberLiterals members) ++ "\x7d"

/-- The items of an array in a message. -/
def itemLiterals : List Json → List String
  | [] => []
  | v :: vs => literal v :: itemLiterals vs

/-- The members of an object in a message. -/
def memberLiterals : List (String × Json) → List String
  | [] => []
  | (k, v) :: ms => (quoteLiteral k ++ ": " ++ literal v) :: memberLiterals ms

end

/-- A value in a text: a string as it is, any other value as its literal. -/
def display : Json → String
  | .str s => s
  | v => v.literal

@[simp] theorem display_str (s : String) : (Json.str s).display = s := rfl

end Json

end TypeText

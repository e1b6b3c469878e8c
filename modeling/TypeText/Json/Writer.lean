import TypeText.Binary64.Shortest
import TypeText.Hex
import TypeText.Json.Basic

/-!
# Writing JSON text

A text is written in ASCII alone.  It stands on one line, or every item and every
member stands on a line of its own, indented by its depth.  The members of an
object are written in the order of their keys, so that equal documents have equal
texts.

## Main definitions

* `Json.sortKeys` — a value with the members of all its objects in the order of
  their keys.
* `Json.escape`, `Json.quoted` — a character and a string in a text.
* `Json.Layout` — the two ways of breaking lines.
* `Json.write` — the text of a value.
-/

set_option autoImplicit false

namespace TypeText

namespace Json

/-! ### Order of keys -/

/-- Inserts a member before the first one with a greater key. -/
def insertMember {α : Type} (m : String × α) : List (String × α) → List (String × α)
  | [] => [m]
  | n :: rest => if m.1 < n.1 then m :: n :: rest else n :: insertMember m rest

/-- Members in the order of their keys, which compare by code points.  Members with
one key keep their order. -/
def sortMembers {α : Type} (members : List (String × α)) : List (String × α) :=
  members.foldl (fun sorted m => insertMember m sorted) []

mutual

/-- Orders the members of every object in a value by their keys. -/
def sortKeys : Json → Json
  | .arr items => .arr (sortKeysItems items)
  | .obj members => .obj (sortMembers (sortKeysMembers members))
  | v => v

/-- Orders the members in each item of an array. -/
def sortKeysItems : List Json → List Json
  | [] => []
  | v :: vs => sortKeys v :: sortKeysItems vs

/-- Orders the members in each value of an object, without ordering the object. -/
def sortKeysMembers : List (String × Json) → List (String × Json)
  | [] => []
  | (k, v) :: rest => (k, sortKeys v) :: sortKeysMembers rest

end

/-! ### Strings -/

/-- A numeric escape. -/
def unitEscape (unit : Nat) : List Char := '\\' :: 'u' :: hexDigits 4 unit

/-- A character as it is written in a string.  Quote, backslash and five control
characters have short escapes, the other characters outside the visible ASCII range
numeric ones; a character beyond the sixteen-bit range takes a surrogate pair. -/
def escape (c : Char) : List Char :=
  if c = '"' then ['\\', '"']
  else if c = '\\' then ['\\', '\\']
  else if c = '\n' then ['\\', 'n']
  else if c = '\r' then ['\\', 'r']
  else if c = '\t' then ['\\', 't']
  else if c = '\x0c' then ['\\', 'f']
  else if c = '\x08' then ['\\', 'b']
  else if ' ' ≤ c ∧ c ≤ '~' then [c]
  else if c.toNat < 0x10000 then unitEscape c.toNat
  else
    unitEscape (0xd800 + (c.toNat - 0x10000) / 0x400) ++
      unitEscape (0xdc00 + (c.toNat - 0x10000) % 0x400)

/-- A string in quotes. -/
def quoted (s : String) : List Char := '"' :: s.toList.flatMap escape ++ ['"']

/-! ### Numbers -/

/-- An integer in decimal digits. -/
def intChars : Int → List Char
  | .ofNat n => Nat.toDigits 10 n
  | .negSucc n => '-' :: Nat.toDigits 10 (n + 1)

/-- A floating-point number; the non-finite ones by their words. -/
def realChars : Binary64 → List Char
  | .finite negative units => Binary64.finiteText negative units
  | .infinite false => "Infinity".toList
  | .infinite true => "-Infinity".toList
  | .nan => "NaN".toList

/-! ### Layout -/

/-- How the items and members of a text are set. -/
inductive Layout where
  /-- All on one line. -/
  | line
  /-- Each on a line of its own, indented by `width` blanks for each level. -/
  | block (width : Nat)
deriving DecidableEq

namespace Layout

/-- The layout for an indentation: no indentation is one line, and an indentation
below zero is none. -/
def ofIndent : Option Int → Layout
  | none => .line
  | some n => .block n.toNat

/-- What stands between a bracket and an item at a depth. -/
def lineBreak : Layout → Nat → List Char
  | .line, _ => []
  | .block width, depth => '\n' :: List.replicate (width * depth) ' '

/-- What stands between two items at a depth. -/
def separator : Layout → Nat → List Char
  | .line, _ => [',', ' ']
  | .block width, depth => ',' :: lineBreak (.block width) depth

end Layout

/-! ### Values -/

mutual

/-- The text of a value that stands at a depth. -/
def chars (layout : Layout) (depth : Nat) : Json → List Char
  | .null => "null".toList
  | .bool true => "true".toList
  | .bool false => "false".toList
  | .int n => intChars n
  | .real x => realChars x
  | .str s => quoted s
  | .arr [] => ['[', ']']
  | .arr (v :: vs) =>
    '[' :: layout.lineBreak (depth + 1) ++ chars layout (depth + 1) v ++
      itemsTail layout (depth + 1) vs ++ layout.lineBreak depth ++ [']']
  | .obj [] => ['\x7b', '\x7d']
  | .obj ((k, v) :: ms) =>
    '\x7b' :: layout.lineBreak (depth + 1) ++ quoted k ++ ':' :: ' ' ::
      chars layout (depth + 1) v ++ membersTail layout (depth + 1) ms ++
      layout.lineBreak depth ++ ['\x7d']

/-- The items of an array after the first. -/
def itemsTail (layout : Layout) (depth : Nat) : List Json → List Char
  | [] => []
  | v :: vs => layout.separator depth ++ chars layout depth v ++ itemsTail layout depth vs

/-- The members of an object after the first. -/
def membersTail (layout : Layout) (depth : Nat) : List (String × Json) → List Char
  | [] => []
  | (k, v) :: ms =>
    layout.separator depth ++ quoted k ++ ':' :: ' ' :: chars layout depth v ++
      membersTail layout depth ms

end

/-- The text of a value, with its objects ordered by their keys. -/
def write (layout : Layout) (v : Json) : String :=
  String.ofList (chars layout 0 v.sortKeys)

end Json

end TypeText

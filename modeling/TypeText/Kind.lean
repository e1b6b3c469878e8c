import TypeText.Json.Basic

/-!
# Kinds and nullability

A type expression carries a tag, a JSON value that says what it is.  Ten tags are
known, each the name of a kind; an expression with any other tag is shown by its
name alone.  Nullability has three values, since saying nothing differs from both
answers.

## Main definitions

* `Kind`, `Kind.tag`, `Kind.ofTag?` — the known kinds and their tags.
* `Kind.literal` — the text that a kind has without a name.
* `Nullability`, `Nullability.ofFlag`, `Nullability.flag`, `Nullability.mark`.

## Main results

* `Kind.ofTag?_tag`, `Kind.eq_of_ofTag?` — a tag names at most one kind, its own.
* `Nullability.ofFlag_flag` — a nullability is read back from its flag.
-/

set_option autoImplicit false

namespace TypeText

/-! ### Kinds -/

/-- The kinds of type expression. -/
inductive Kind where
  /-- Every value. -/
  | all
  /-- The null value. -/
  | null
  /-- The undefined value. -/
  | undefined
  /-- A type that is not known. -/
  | unknown
  /-- A name, with or without a type after it. -/
  | name
  /-- A field of a record. -/
  | field
  /-- A function signature. -/
  | function
  /-- A record of fields. -/
  | record
  /-- A generic type with its arguments. -/
  | application
  /-- A choice between types. -/
  | union
deriving DecidableEq

namespace Kind

/-- All kinds. -/
def every : List Kind :=
  [.all, .null, .undefined, .unknown, .name, .field, .function, .record, .application, .union]

/-- The tag of a kind. -/
def tag : Kind → String
  | .all => "AllLiteral"
  | .null => "NullLiteral"
  | .undefined => "UndefinedLiteral"
  | .unknown => "UnknownLiteral"
  | .name => "NameExpression"
  | .field => "FieldType"
  | .function => "FunctionType"
  | .record => "RecordType"
  | .application => "TypeApplication"
  | .union => "TypeUnion"

/-- The kind that a tag names: the tag must be a string, spelled exactly. -/
def ofTag? : Json → Option Kind
  | .str s => every.find? fun k => k.tag == s
  | _ => none

@[simp] theorem ofTag?_tag (k : Kind) : ofTag? (.str k.tag) = some k := by
  cases k <;> decide

theorem eq_of_ofTag? {v : Json} {k : Kind} (h : ofTag? v = some k) : v = .str k.tag := by
  cases v with
  | str s =>
    have hk := List.find?_some h
    rw [beq_iff_eq] at hk
    rw [hk]
  | _ => simp [ofTag?] at h

/-- The text of a kind that needs no name; empty for the kinds that have none. -/
def literal : Kind → String
  | .all => "*"
  | .null => "null"
  | .undefined => "undefined"
  | .unknown => "?"
  | _ => ""

end Kind

/-! ### Nullability -/

/-- Whether a type admits null. -/
inductive Nullability where
  /-- Nothing is said. -/
  | unspecified
  /-- Null is admitted. -/
  | nullable
  /-- Null is excluded. -/
  | nonNullable
deriving DecidableEq

namespace Nullability

/-- The nullability of a flag: only the two booleans say something. -/
def ofFlag : Json → Nullability
  | .bool true => .nullable
  | .bool false => .nonNullable
  | _ => .unspecified

/-- The flag of a nullability. -/
def flag : Nullability → Json
  | .unspecified => .null
  | .nullable => .bool true
  | .nonNullable => .bool false

@[simp] theorem ofFlag_flag (n : Nullability) : ofFlag n.flag = n := by
  cases n <;> rfl

/-- The mark in front of a type. -/
def mark : Nullability → String
  | .unspecified => ""
  | .nullable => "?"
  | .nonNullable => "!"

end Nullability

end TypeText

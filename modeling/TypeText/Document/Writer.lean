import TypeText.Node

/-!
# Writing documents

A tree is written as a document with the keys that reading knows.  What is missing
and what says nothing is left out.  An item of a list cannot be missing: such a
tree has no document.

## Main definitions

* `Document.entryOf`, `Document.required` — a key with its value, if there is one;
  a list whose items are all there.
* `Document.writeLayer` — the document of a node, from those of its subtrees.
* `Node.toDocument?` — the document of a tree.
-/

set_option autoImplicit false

namespace TypeText

namespace Document

/-- A key with its value, nothing if there is no value. -/
def entryOf (key : String) (v : Option Json) : List (String × Json) :=
  (v.map fun v => (key, v)).toList

/-- Turns a part that may be missing inside out: it fails if the part is there and
fails. -/
def sequence? {α : Type} : Option (Option α) → Option (Option α)
  | none => some none
  | some none => none
  | some (some a) => some (some a)

/-- The items of a list that may be missing.  All items must be there. -/
def required {α : Type} : Option (List (Option (Option α))) → Option (Option (List α))
  | none => some none
  | some items => (items.mapM Option.join).map some

/-- The document of a field. -/
def writeField (f : Field (Option Json)) : Option Json := do
  let key ← sequence? f.key
  let value ← sequence? f.value
  return .obj ([("type", .str Kind.field.tag)] ++ entryOf "key" key ++ entryOf "value" value)

/-- The fields of a record. -/
def writeFields : Option (List (Field (Option Json))) → Option (Option (List Json))
  | none => some none
  | some fields => (fields.mapM writeField).map some

/-- A flag, written only if it is set. -/
def flag? (v : Json) : Option Json := if v.isTruthy then some (.bool true) else none

/-- A nullability, written only if it says something. -/
def nullable? : Nullability → Option Json
  | .unspecified => none
  | n => some n.flag

/-- The document of a node.  The base of an application and the type after a name
share a key, so that only the one that the kind reads is written. -/
def writeLayer (l : Layer (Option Json)) : Option Json := do
  let expression ← sequence? (if l.kind? = some .application then l.base else l.inner)
  let newType ← sequence? l.newType
  let thisType ← sequence? l.thisType
  let result ← sequence? l.result
  let members ← required l.members
  let arguments ← required l.arguments
  let params ← required l.params
  let fields ← writeFields l.fields
  return .obj ([("type", l.tag)] ++ entryOf "name" (l.name.map .str) ++
    entryOf "expression" expression ++ entryOf "new" newType ++ entryOf "this" thisType ++
    entryOf "result" result ++ entryOf "elements" (members.map .arr) ++
    entryOf "applications" (arguments.map .arr) ++ entryOf "params" (params.map .arr) ++
    entryOf "fields" (fields.map .arr) ++ entryOf "optional" (flag? l.optional) ++
    entryOf "nullable" (nullable? l.nullable) ++ entryOf "repeatable" (flag? l.repeatable))

end Document

/-- The document of a tree; none if an item of a list is missing where it would be
written. -/
def Node.toDocument? : Node → Option Json := Node.fold Document.writeLayer

/-- The document of a node is made of those of its subtrees. -/
theorem Node.toDocument?_mk (l : Layer Node) :
    Node.toDocument? (.mk l) = Document.writeLayer (l.map Node.toDocument?) := Node.fold_mk _ l

end TypeText

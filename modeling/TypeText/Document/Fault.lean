import TypeText.Json.Basic

/-!
# Faults of a document

A document is a JSON value that describes a type expression.  What is wrong with
one is a fault: a problem at a place, and the place is given by the path that leads
to it from the root.

## Main definitions

* `Path.Step`, `Path` — a place in a document; `Path.text` is its written form.
* `Problem`, `Fault` — what is wrong, and where.
* `located` — a message with its place in front.
-/

set_option autoImplicit false

namespace TypeText

namespace Path

/-- One step into a document. -/
inductive Step where
  /-- To the member of an object under a key. -/
  | key (name : String)
  /-- To an item of an array. -/
  | index (i : Nat)
deriving DecidableEq

/-- The written form of a step. -/
def Step.text : Step → String
  | .key name => name
  | .index i => toString i

end Path

/-- The steps from the root of a document to a place in it. -/
abbrev Path : Type := List Path.Step

namespace Path

/-- The written form of a path: its steps with points between them; the root has
none. -/
def text? (path : Path) : Option String :=
  if path.isEmpty then none else some (".".intercalate (path.map Step.text))

end Path

/-- What can be wrong with a place in a document. -/
inductive Problem where
  /-- A node is not an object. -/
  | notNode (typeName : String)
  /-- A node has no tag, or one that is not a string. -/
  | missingType
  /-- A name is not a string. -/
  | nameNotString (typeName : String)
  /-- A list of nodes or fields is not an array. -/
  | notList (typeName : String)
  /-- A field is not an object. -/
  | notField (typeName : String)
deriving DecidableEq

namespace Problem

/-- The wording of each problem. -/
def message : Problem → String
  | .notNode typeName => "Expected a node object, got " ++ typeName
  | .missingType => "Missing 'type' field in serialized node"
  | .nameNotString typeName => "Expected 'name' to be a string, got " ++ typeName
  | .notList typeName => "Expected a list, got " ++ typeName
  | .notField typeName => "Expected a field object, got " ++ typeName

end Problem

/-- A message with its place in front; a place without a text is left out. -/
def located (place : Option String) (message : String) : String :=
  match place with
  | none => message
  | some place => if place = "" then message else "at " ++ place ++ ": " ++ message

/-- A problem at a place in a document. -/
structure Fault where
  path : Path
  problem : Problem
deriving DecidableEq

namespace Fault

/-- The wording of a fault. -/
def message (f : Fault) : String := located f.path.text? f.problem.message

end Fault

end TypeText

import TypeText.Document.Fault
import TypeText.Node

/-!
# Reading documents

A tree is read from a document node by node.  A node is an object with a string
under `type`; its other keys may be absent or null, and unknown keys are ignored.
The first fault found is reported, in this order: the node itself, its name, its
single subtrees, its lists.

## Main definitions

* `Document.readNode path v` — the tree described by `v`, which stands at `path`.
* `Document.readSlot`, `Document.readList`, `Document.readFields` — the parts of a
  node.
* `Node.ofDocument` — the tree that a whole document describes.
-/

set_option autoImplicit false

namespace TypeText

namespace Document

/-- Reports a problem. -/
def fault {α : Type} (path : Path) (problem : Problem) : Except Fault α :=
  .error ⟨path, problem⟩

/-- The tag of a node.  The value must be an object with a string under `type`. -/
def readTag (path : Path) (v : Json) : Except Fault String :=
  match v with
  | .obj _ =>
    match v.get? "type" with
    | some (.str tag) => .ok tag
    | _ => fault path .missingType
  | _ => fault path (.notNode v.typeName)

/-- The name of a node, absent or a string. -/
def readName (path : Path) (v : Json) : Except Fault (Option String) :=
  match v.get? "name" with
  | none => .ok none
  | some .null => .ok none
  | some (.str name) => .ok (some name)
  | some w => fault (path ++ [.key "name"]) (.nameNotString w.typeName)

/-- A member of an object that is there and not null. -/
def member? (v : Json) (key : String) : Option Json :=
  match v.get? key with
  | some .null => none
  | w => w

theorem sizeOf_lt_of_member? {v w : Json} {key : String} (h : member? v key = some w) :
    sizeOf w < sizeOf v := by
  unfold member? at h
  split at h
  · simp at h
  · exact Json.sizeOf_lt_of_get? h

/-- Whether the flag under a key is the boolean `true` itself. -/
def readFlag (v : Json) (key : String) : Json := .bool (((v.get? key).getD .null).isTrue)

mutual

/-- The tree described by a value. -/
def readNode (path : Path) (v : Json) : Except Fault Node := do
  let tag ← readTag path v
  let name ← readName path v
  let expression ← readSlot path v "expression"
  let newType ← readSlot path v "new"
  let thisType ← readSlot path v "this"
  let result ← readSlot path v "result"
  let members ← readList path v "elements"
  let arguments ← readList path v "applications"
  let params ← readList path v "params"
  let fields ← readFields path v
  -- An application has its base under the key that other kinds have their type under.
  let isApplication := Kind.ofTag? (.str tag) = some .application
  return .mk
    { tag := .str tag
      name
      inner := if isApplication then none else expression
      members
      fields
      base := if isApplication then expression else none
      arguments
      newType
      thisType
      params
      result
      optional := readFlag v "optional"
      nullable := .ofFlag ((v.get? "nullable").getD .null)
      repeatable := readFlag v "repeatable" }
termination_by (sizeOf v, 2)

/-- The subtree under a key of a node or a field. -/
def readSlot (path : Path) (v : Json) (key : String) : Except Fault (Option Node) :=
  match _h : member? v key with
  | none => .ok none
  | some w => do return some (← readNode (path ++ [.key key]) w)
termination_by (sizeOf v, 1)
decreasing_by exact Prod.Lex.left _ _ (sizeOf_lt_of_member? _h)

/-- The list of subtrees under a key of a node. -/
def readList (path : Path) (v : Json) (key : String) :
    Except Fault (Option (List (Option Node))) :=
  match _h : member? v key with
  | none => .ok none
  | some (.arr items) => do return some (← readItems (path ++ [.key key]) 0 items)
  | some w => fault (path ++ [.key key]) (.notList w.typeName)
termination_by (sizeOf v, 1)
decreasing_by
  have := sizeOf_lt_of_member? _h
  simp only [Json.arr.sizeOf_spec] at this
  exact Prod.Lex.left _ _ (by omega)

/-- The subtrees of a list from its `i`-th item on. -/
def readItems (path : Path) (i : Nat) : List Json → Except Fault (List (Option Node))
  | [] => .ok []
  | v :: vs => do
    let n ← readNode (path ++ [.index i]) v
    let ns ← readItems path (i + 1) vs
    return some n :: ns
termination_by items => (sizeOf items, 0)

/-- The fields of a node. -/
def readFields (path : Path) (v : Json) : Except Fault (Option (List (Field Node))) :=
  match _h : member? v "fields" with
  | none => .ok none
  | some (.arr items) => do return some (← readFieldItems (path ++ [.key "fields"]) 0 items)
  | some w => fault (path ++ [.key "fields"]) (.notList w.typeName)
termination_by (sizeOf v, 1)
decreasing_by
  have := sizeOf_lt_of_member? _h
  simp only [Json.arr.sizeOf_spec] at this
  exact Prod.Lex.left _ _ (by omega)

/-- The fields of a list from its `i`-th item on. -/
def readFieldItems (path : Path) (i : Nat) : List Json → Except Fault (List (Field Node))
  | [] => .ok []
  | v :: vs => do
    let f ← readField (path ++ [.index i]) v
    let fs ← readFieldItems path (i + 1) vs
    return f :: fs
termination_by items => (sizeOf items, 0)

/-- A field, which is an object with a key and a value. -/
def readField (path : Path) (v : Json) : Except Fault (Field Node) :=
  match v with
  | .obj members => do
    let key ← readSlot path (.obj members) "key"
    let value ← readSlot path (.obj members) "value"
    return ⟨key, value⟩
  | v => fault path (.notField v.typeName)
termination_by (sizeOf v, 2)

end

end Document

/-- The tree that a document describes. -/
def Node.ofDocument (v : Json) : Except Fault Node := Document.readNode [] v

end TypeText

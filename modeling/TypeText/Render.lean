import TypeText.Config
import TypeText.Node

/-!
# Showing types

A type expression is shown as text by its kind: names and literals with the type
after them, unions in parentheses, records in braces, arguments in angle brackets,
functions by their signature.  Modifiers go around the text of any kind.  Every
expression with an unknown tag is reported when it is reached.

## Main definitions

* `combine` — a name and a type with a colon between them.
* `Config.link` — a name, linked if the configuration says so.
* `Config.argumentList`, `unionList`, `paramList`, `newTypeText`, `thisTypeText`,
  `resultText`, `recordText`, `signature` — the parts of a text, from the texts of
  the subtrees.
* `Layer.body`, `Layer.decorate` — a node without and with its modifiers.
* `Node.render` — the text of a tree, with the messages left on the way.
* `renderWith` — the text of a tree under a configuration with options on top.
-/

set_option autoImplicit false

namespace TypeText

/-! ### Names -/

/-- A name and a type, with a colon between them if both are there. -/
def combine (name type : String) : String :=
  name ++ (if name ≠ "" ∧ type ≠ "" then ":" else "") ++ type

@[simp] theorem combine_empty_left (type : String) : combine "" type = type := by
  simp [combine]

@[simp] theorem combine_empty_right (name : String) : combine name "" = name := by
  simp [combine]

/-- A name, as a link if there is a table and the table knows it. -/
def Config.link (c : Config) (name : String) : String :=
  match c.links with
  | none => name
  | some table => if name = "" then name else anchor name (table.get name) c.linkClass

/-! ### Parts

A subtree is given by its text, together with the messages left while it was made.
The messages of a whole come in the order in which its parts are made. -/

/-- The text of a part; a missing part has none. -/
def part (o : Option (Logged String)) : Logged String := o.getD (pure "")

/-- The texts of the items of a list; a missing item is empty, but still an item. -/
def parts (items : List (Option (Logged String))) : Logged (List String) := items.mapM part

/-- The text of a part with a label in front, nothing for a missing part. -/
def labelled (label : String) : Option (Logged String) → Logged String
  | none => pure ""
  | some text => do return label ++ (← text)

/-- What a constructor function makes. -/
def newTypeText : Option (Logged String) → Logged String := labelled "new:"

/-- The receiver of a function. -/
def thisTypeText : Option (Logged String) → Logged String := labelled "this:"

/-- The result of a function. -/
def resultText : Option (Logged String) → Logged String := labelled ": "

/-- The arguments of an application: a missing list is nothing, an empty one a pair
of brackets. -/
def Config.argumentList (c : Config) : Option (List (Option (Logged String))) → Logged String
  | none => pure ""
  | some items => do
    let inner := ", ".intercalate (← parts items)
    if c.htmlSafe.isTruthy then return "&lt;" ++ inner ++ "&gt;"
    else return "<" ++ inner ++ ">"

/-- The alternatives of a union; nothing if there are none. -/
def unionList : Option (List (Option (Logged String))) → Logged String
  | none => pure ""
  | some [] => pure ""
  | some items => do return "(" ++ "|".intercalate (← parts items) ++ ")"

/-- The parameters of a function. -/
def paramList : Option (List (Option (Logged String))) → Logged String
  | none => pure ""
  | some items => do return ", ".intercalate (← parts items)

/-- A field of a record: its key, and its value if it has one. -/
def fieldText (f : Field (Logged String)) : Logged String := do
  let key ← part f.key
  let value ← labelled ": " f.value
  return key ++ value

/-- A record in braces. -/
def recordText (fields : Option (List (Field (Logged String)))) : Logged String := do
  return "\x7b" ++ ", ".intercalate (← (fields.getD []).mapM fieldText) ++ "\x7d"

/-- A function: what it makes, its receiver and its parameters in parentheses, as
far as they are there, and then its result. -/
def signature (l : Layer (Logged String)) : Logged String := do
  let newType ← newTypeText l.newType
  let thisType ← thisTypeText l.thisType
  let params ← paramList l.params
  let result ← resultText l.result
  return "function(" ++ ", ".intercalate ([newType, thisType, params].filter (· ≠ "")) ++ ")" ++
    result

/-! ### Nodes -/

/-- The name of a node, linked, and the type after it.  A node without a name has
the given one. -/
def Config.nameAndType (c : Config) (fallback : String) (l : Layer (Logged String)) :
    Logged String := do
  let name := l.name.getD ""
  let type ← part l.inner
  return combine (c.link (if name = "" then fallback else name)) type

/-- The text of a node without its modifiers. -/
def Layer.body (c : Config) (l : Layer (Logged String)) : Logged String :=
  match l.kind? with
  | some .function => signature l
  | some .record => recordText l.fields
  | some .application => do
    let base ← part l.base
    let arguments ← c.argumentList l.arguments
    return base ++ arguments
  | some .union => unionList l.members
  | some kind => c.nameAndType kind.literal l
  | none => do
    -- reported first, so that the message stands before those of the parts
    Logged.report (.unknownTag l.tag)
    c.nameAndType "" l

/-- The sign after an optional type: only the flag `true` itself counts. -/
def optionalMark (flag : Json) : String := if flag.isTrue then "=" else ""

/-- The sign in front of a repeatable type. -/
def repeatableMark (flag : Json) : String := if flag.isTruthy then "..." else ""

/-- A text with the modifiers of its node around it. -/
def Layer.decorate {α : Type} (c : Config) (l : Layer α) (text : String) : String :=
  if c.suppressModifiers.isTruthy then text
  else repeatableMark l.repeatable ++ l.nullable.mark ++ text ++ optionalMark l.optional

/-- The text of a node. -/
def Layer.render (c : Config) (l : Layer (Logged String)) : Logged String := do
  return l.decorate c (← l.body c)

namespace Node

/-- The text of a tree. -/
def render (c : Config) : Node → Logged String := fold (Layer.render c)

/-- The text of a node is made of the texts of its subtrees. -/
theorem render_mk (c : Config) (l : Layer Node) :
    render c (.mk l) = Layer.render c (l.map (render c)) := fold_mk _ l

/-- The text of a tree that may be missing. -/
def renderOption (c : Config) (n : Option Node) : Logged String := part (n.map (render c))

/-- The texts of the items of a list, as they stand for the items in a layer. -/
def renderItems (c : Config) (items : Option (List (Option Node))) :
    Option (List (Option (Logged String))) :=
  items.map fun items => items.map fun item => item.map (render c)

end Node

/-- The text of a tree under a configuration with an option list on top. -/
def renderWith (node : Option Node) (c : Config) (entries : List Entry) :
    Except UnsupportedTable (Logged String) :=
  (c.override entries).map fun c => do Node.renderOption (← c) node

end TypeText

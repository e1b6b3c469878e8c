import TypeText.Document.Reader
import TypeText.Document.Writer
import TypeText.Error
import TypeText.Json.Writer

/-!
# Trees as text

A tree is kept as the JSON text of its document.

## Main definitions

* `Node.ofText` — the tree of a text.
* `Node.ofValue` — the same for a value that should be a text.
* `Node.toDocument`, `Node.toText` — the document and the text of a tree that may
  be missing.
-/

set_option autoImplicit false

namespace TypeText

namespace Node

/-- The tree of a text. -/
def ofText (text : String) : Except Error Node := do
  let document ← (Json.parse text).mapError Error.ofReadError
  (ofDocument document).mapError Error.fault

/-- The tree of a value, which has to be a text. -/
def ofValue : Json → Except Error Node
  | .str text => ofText text
  | v => .error (.notText v.typeName)

/-- The document of a tree; a missing tree has none. -/
def toDocument (n : Option Node) : Except Error Json :=
  match n.bind toDocument? with
  | some document => .ok document
  | none => .error .missingNode

/-- The text of a tree. -/
def toText (layout : Json.Layout) (n : Option Node) : Except Error String :=
  (toDocument n).map (Json.write layout)

end Node

end TypeText

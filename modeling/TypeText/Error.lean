import TypeText.Document.Fault
import TypeText.Json.Reader
import TypeText.Links

/-!
# Errors

Everything that can go wrong, with its wording.

* `Error`, `Error.message`, `Error.place?` — the errors, their texts and their
  places.
* `Error.Category` — the sort of failure an error belongs to.
-/

set_option autoImplicit false

namespace TypeText

/-- What can go wrong. -/
inductive Error where
  /-- A document does not describe a tree. -/
  | fault (f : Fault)
  /-- A text is not JSON. -/
  | malformed (cause : Json.Malformed)
  /-- A text holds an integer of that many digits. -/
  | integerTooLong (digits : Nat)
  /-- A value of that type was given for a text. -/
  | notText (typeName : String)
  /-- A tree with a missing item has no document. -/
  | missingNode
  /-- A link table cannot be used. -/
  | unsupportedTable (e : UnsupportedTable)
deriving DecidableEq

namespace Error

/-- The sorts of failure. -/
inductive Category where
  /-- A document or its text cannot be read. -/
  | serialization
  /-- A link table cannot be used. -/
  | linkTable
  /-- A value has the wrong type. -/
  | wrongType
  /-- A value is out of range. -/
  | wrongValue
  /-- Something is missing. -/
  | missing
deriving DecidableEq

/-- The sort of failure an error belongs to. -/
def category : Error → Category
  | .fault _ => .serialization
  | .malformed _ => .serialization
  | .integerTooLong _ => .wrongValue
  | .notText _ => .wrongType
  | .missingNode => .missing
  | .unsupportedTable _ => .linkTable

/-- Where a document is at fault; nothing for the root and for other errors. -/
def place? : Error → Option String
  | .fault f => f.path.text?
  | _ => none

/-- The wording of each error. -/
def message : Error → String
  | .fault f => f.message
  | .malformed cause => "Invalid JSON: " ++ cause.message
  | .integerTooLong digits =>
    "Exceeds the limit (" ++ toString Json.digitLimit ++
      " digits) for integer string conversion: value has " ++ toString digits ++
      " digits; use sys.set_int_max_str_digits() to increase the limit"
  | .notText typeName =>
    "the JSON object must be str, bytes or bytearray, not " ++ typeName
  | .missingNode => "'NoneType' object has no attribute 'kind'"
  | .unsupportedTable e => e.message

/-- The error of a text that cannot be read. -/
def ofReadError : Json.ReadError → Error
  | .malformed cause => .malformed cause
  | .integerTooLong digits => .integerTooLong digits

end Error

end TypeText

import TypeText.Links
import TypeText.Proofs.Document.Unseen
import TypeText.Proofs.Document.Writer

/-!
# What a document says

A document may say more than is read of it: keys that no node has, keys under which
there is nothing, flags that are not set.  Cleaning takes all this away, at every depth,
and leaves the rest as it stands.  A value that cannot be read is left as it is, so that
reading finds in it what it found before.

## Main definitions

* `Document.Form.keeps` — the members that are kept although they are no parts.
* `Document.clean form v` — `v`, read in a form, without what is not read.

## Main results

* `get?_clean_node`, `get?_clean_field` — what is left under a key.
* `get?_clean_part` — a part of a clean value is a clean part.
* `readNode_clean` — **a document and its clean form are read alike.**
-/

set_option autoImplicit false

namespace TypeText

/-- Whether a value is a boolean. -/
def Json.isBool : Json → Bool
  | .bool _ => true
  | _ => false

namespace Document

/-! ### Cleaning -/

/-- Whether a member that is no part of its object is kept.  Of a node, the tag and the name
are; a flag if it is set, and a nullability if it says something. -/
def Form.keeps : Form → String → Json → Bool
  | .node, key, w =>
    key ∈ ["type", "name"] || key ∈ ["optional", "repeatable"] && w.isTrue ||
      key = "nullable" && w.isBool
  | _, _, _ => false

/-- A value, and nothing in the place of `null`. -/
def unlessNull {α : Type} (w : Json) (a : Option α) : Option α :=
  match w with
  | .null => none
  | _ => a

mutual

/-- A value that is read in a form, without what is not read of it.  Every field gets the tag
of fields. -/
def clean : Form → Json → Json
  | .node, .obj members => .obj (entries (settled (cleanMembers .node members)))
  | .nodes, .arr items => .arr (cleanItems .node items)
  | .field, .obj members =>
    .obj (("type", .str Kind.field.tag) :: entries (settled (cleanMembers .field members)))
  | .fields, .arr items => .arr (cleanItems .field items)
  | _, v => v

/-- Each item of a list without what is not read of it. -/
def cleanItems (form : Form) : List Json → List Json
  | [] => []
  | v :: vs => clean form v :: cleanItems form vs

/-- What is left under each key of an object, if anything is. -/
def cleanMembers (form : Form) : List (String × Json) → List (String × Option Json)
  | [] => []
  | (key, w) :: rest =>
    (key, unlessNull w
      (match lookup key form.keys with
      | some part => some (clean part w)
      | none => if form.keeps key w then some w else none)) :: cleanMembers form rest

end

/-- What is left of a value under a key, if anything is. -/
def cleanMember (form : Form) (key : String) (w : Json) : Option Json :=
  unlessNull w
    (match lookup key form.keys with
    | some part => some (clean part w)
    | none => if form.keeps key w then some w else none)

theorem cleanMembers_eq (form : Form) (ms : List (String × Json)) :
    cleanMembers form ms = ms.map fun m => (m.1, cleanMember form m.1 m.2) := by
  induction ms with
  | nil => rfl
  | cons m ms ih =>
    rw [cleanMembers, ih]
    rfl

theorem cleanItems_eq (form : Form) (vs : List Json) :
    cleanItems form vs = vs.map (clean form) := by
  induction vs with
  | nil => rfl
  | cons v vs ih => rw [cleanItems, ih, List.map_cons]

/-! ### What is left -/

/-- What is left under a key. -/
theorem lookup_entries_cleanMembers (form : Form) (key : String) (ms : List (String × Json)) :
    lookup key (entries (settled (cleanMembers form ms))) =
      (lookup key ms).bind (cleanMember form key) := by
  rw [lookup_entries key (nodup_settled _), lookup_settled, cleanMembers_eq,
    lookup_map_keyed (cleanMember form)]
  cases lookup key ms <;> rfl

theorem get?_clean_node (v : Json) (key : String) :
    (clean .node v).get? key = (v.get? key).bind (cleanMember .node key) := by
  cases v with
  | obj ms => exact lookup_entries_cleanMembers .node key ms
  | _ => rfl

theorem get?_clean_field (ms : List (String × Json)) (key : String) :
    (clean .field (.obj ms)).get? key =
      ((lookup key ms).bind (cleanMember .field key)).or
        (if key = "type" then some (.str Kind.field.tag) else none) := by
  rw [clean, Json.get?_obj, lookup_cons, lookup_entries_cleanMembers]
  simp only [eq_comm]

/-- Cleaning takes away what is inside a value, and never the value itself. -/
theorem typeName_clean (form : Form) (w : Json) : (clean form w).typeName = w.typeName := by
  cases form <;> cases w <;> rfl

theorem clean_ne_null {form : Form} {w : Json} (hw : w ≠ .null) : clean form w ≠ .null := by
  intro hclean
  have htype := typeName_clean form w
  rw [hclean] at htype
  cases w with
  | null => exact hw rfl
  | _ => simp [Json.typeName] at htype

theorem cleanMember_null (form : Form) (key : String) : cleanMember form key .null = none := rfl

/-- What is left of a part is the clean part. -/
theorem cleanMember_of_lookup {form part : Form} {key : String}
    (hkey : lookup key form.keys = some part) {w : Json} (hw : w ≠ .null) :
    cleanMember form key w = some (clean part w) := by
  unfold cleanMember unlessNull
  rw [hkey]
  cases w with
  | null => exact absurd rfl hw
  | _ => rfl

/-- A member that is no part is left as it is, or taken away. -/
theorem cleanMember_of_lookup_eq_none {form : Form} {key : String}
    (hkey : lookup key form.keys = none) {w : Json} (hw : w ≠ .null) :
    cleanMember form key w = if form.keeps key w then some w else none := by
  unfold cleanMember unlessNull
  rw [hkey]
  cases w with
  | null => exact absurd rfl hw
  | _ => rfl

/-- What is left under the key of a part is the clean part, if there is one. -/
theorem bind_cleanMember {form part : Form} {key : String}
    (hkey : lookup key form.keys = some part) (v : Json) :
    (v.get? key).bind (cleanMember form key) = (member? v key).map (clean part) := by
  cases hget : v.get? key with
  | none =>
    rw [member?, hget]
    rfl
  | some w =>
    by_cases hw : w = .null
    · -- a null counts as missing, and nothing is left of it
      rw [member?, hget, hw]
      rfl
    · rw [member?_eq_some_iff.mpr ⟨hget, hw⟩, Option.bind_some, cleanMember_of_lookup hkey hw]
      rfl

/-- A part of a clean value is a clean part. -/
theorem get?_clean_part {form part : Form} {key : String} (hkey : lookup key form.keys = some part)
    (v : Json) : (clean form v).get? key = (member? v key).map (clean part) := by
  rw [← bind_cleanMember hkey]
  cases form with
  | node => exact get?_clean_node v key
  | field =>
    cases v with
    | obj ms =>
      -- the tag that a field gets is under no key of a part
      have hne : key ≠ "type" := by
        rintro rfl
        simp [Form.keys, fieldKeys, lookup_cons] at hkey
      rw [get?_clean_field, if_neg hne, Option.or_none]
      rfl
    | _ => rfl
  | _ => simp [Form.keys] at hkey

theorem member?_clean {form part : Form} {key : String} (hkey : lookup key form.keys = some part)
    (v : Json) : member? (clean form v) key = (member? v key).map (clean part) := by
  cases hmember : member? v key with
  | none =>
    rw [member?, get?_clean_part hkey, hmember]
    rfl
  | some w =>
    refine member?_eq_some_iff.mpr ⟨by rw [get?_clean_part hkey, hmember]; rfl, ?_⟩
    exact clean_ne_null (member?_eq_some_iff.mp hmember).2

/-! ### Reading -/

theorem readTag_clean (path : Path) (v : Json) : readTag path (clean .node v) = readTag path v := by
  cases v with
  | obj ms =>
    have hget := get?_clean_node (.obj ms) "type"
    rw [clean] at hget ⊢
    rw [readTag, readTag, hget]
    rcases (Json.obj ms).get? "type" with _ | w
    · rfl
    · -- a tag is kept whatever it is, unless it is null, and null is no tag
      cases w <;> rfl
  | _ => rfl

theorem readName_clean (path : Path) (v : Json) :
    readName path (clean .node v) = readName path v := by
  rw [readName, readName, get?_clean_node]
  rcases v.get? "name" with _ | w
  · rfl
  · cases w <;> rfl

theorem readFlag_clean (v : Json) {key : String} (hkey : key ∈ ["optional", "repeatable"]) :
    readFlag (clean .node v) key = readFlag v key := by
  rw [readFlag, readFlag, get?_clean_node]
  simp only [List.mem_cons, List.not_mem_nil, or_false] at hkey
  rcases v.get? key with _ | w
  · rfl
  · -- a flag counts only if it is exactly true
    rcases hkey with rfl | rfl <;>
    · cases w with
      | bool b => cases b <;> rfl
      | _ => rfl

theorem ofFlag_clean (v : Json) :
    Nullability.ofFlag (((clean .node v).get? "nullable").getD .null) =
      .ofFlag ((v.get? "nullable").getD .null) := by
  rw [get?_clean_node]
  rcases v.get? "nullable" with _ | w
  · rfl
  · cases w <;> rfl

/-- What cleaning takes away is not seen. -/
theorem unseen_clean : Unseen clean where
  typeName := typeName_clean
  tag := readTag_clean
  name := readName_clean
  flag v _ hkey := readFlag_clean v hkey
  nullable := ofFlag_clean
  part hkey v := member?_clean hkey v
  nodes items := by rw [clean, cleanItems_eq]
  fields items := by rw [clean, cleanItems_eq]

/-- **A document and its clean form are read alike**, faults included. -/
theorem readNode_clean (v : Json) (path : Path) :
    readNode path (clean .node v) = readNode path v :=
  unseen_clean.readNode v path

end Document

end TypeText

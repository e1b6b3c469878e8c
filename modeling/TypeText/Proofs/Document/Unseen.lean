import TypeText.Proofs.Document.Places

/-!
# Changes that reading does not see

Reading a value looks at its tag, its name, its flags and its parts, and at nothing else.
So a change of values by which these stay what they are, except that the parts are
changed in the same way, is not seen.

## Main definitions

* `Document.Form.keys` — the keys that hold parts.
* `Document.Unseen g` — the change `g` of values in each form is not seen.

## Main results

* `Unseen.readNode` — **what is changed in this way is read as before**, faults included.
-/

set_option autoImplicit false

namespace TypeText

namespace Document

/-- The keys that hold parts of an object that is read in a form. -/
def Form.keys : Form → List (String × Form)
  | .node => nodeKeys
  | .field => fieldKeys
  | _ => []

/-! ### What cannot be read -/

section Faults

variable {path : Path} {v w : Json} {key : String}

/-- What is no list is named by its type alone. -/
theorem readList_eq_fault (hmember : member? v key = some w) (hw : w.typeName ≠ "list") :
    readList path v key = fault (path ++ [.key key]) (.notList w.typeName) := by
  rw [readList_eq, hmember]
  cases w with
  | arr items => exact absurd rfl hw
  | _ => rfl

theorem readFields_eq_fault (hmember : member? v "fields" = some w) (hw : w.typeName ≠ "list") :
    readFields path v = fault (path ++ [.key "fields"]) (.notList w.typeName) := by
  rw [readFields_eq, hmember]
  cases w with
  | arr items => exact absurd rfl hw
  | _ => rfl

theorem readField_eq_fault (hv : v.typeName ≠ "dict") :
    readField path v = fault path (.notField v.typeName) := by
  cases v with
  | obj members => exact absurd rfl hv
  | _ => rw [readField]; simp

theorem exists_eq_arr (hw : w.typeName = "list") : ∃ items, w = .arr items := by
  cases w with
  | arr items => exact ⟨items, rfl⟩
  | _ => simp [Json.typeName] at hw

theorem exists_eq_obj (hw : w.typeName = "dict") : ∃ members, w = .obj members := by
  cases w with
  | obj members => exact ⟨members, rfl⟩
  | _ => simp [Json.typeName] at hw

end Faults

/-! ### Unseen changes -/

/-- A change of values in each form that leaves alone what reading looks at in a value, and
changes the parts of a value in the same way. -/
structure Unseen (g : Form → Json → Json) : Prop where
  typeName (form : Form) (v : Json) : (g form v).typeName = v.typeName
  tag (path : Path) (v : Json) : readTag path (g .node v) = readTag path v
  name (path : Path) (v : Json) : readName path (g .node v) = readName path v
  flag (v : Json) {key : String} (hkey : key ∈ ["optional", "repeatable"]) :
    readFlag (g .node v) key = readFlag v key
  nullable (v : Json) :
    Nullability.ofFlag (((g .node v).get? "nullable").getD .null) =
      .ofFlag ((v.get? "nullable").getD .null)
  part {form part : Form} {key : String} (hkey : lookup key form.keys = some part) (v : Json) :
    member? (g form v) key = (member? v key).map (g part)
  nodes (items : List Json) : g .nodes (.arr items) = .arr (items.map (g .node))
  fields (items : List Json) : g .fields (.arr items) = .arr (items.map (g .field))

namespace Unseen

variable {g : Form → Json → Json} {v : Json}

/-- A value is read as before, wherever it stands. -/
def ReadsAlike (g : Form → Json → Json) (v : Json) : Prop :=
  ∀ path, Document.readNode path (g .node v) = Document.readNode path v

theorem readSlot (hg : Unseen g) (h : ∀ w, sizeOf w < sizeOf v → ReadsAlike g w) (path : Path)
    {form : Form} {key : String} (hkey : lookup key form.keys = some .node) :
    Document.readSlot path (g form v) key = Document.readSlot path v key := by
  rw [readSlot_eq, readSlot_eq, hg.part hkey]
  cases hmember : member? v key with
  | none => rfl
  | some w =>
    dsimp only [Option.map_some]
    rw [h w (sizeOf_lt_of_member? hmember)]

theorem readItems {items : List Json} (h : ∀ w ∈ items, ReadsAlike g w) (path : Path) :
    ∀ i, Document.readItems path i (items.map (g .node)) = Document.readItems path i items := by
  induction items with
  | nil => intro i; rfl
  | cons w items ih =>
    intro i
    rw [List.map_cons, Document.readItems, Document.readItems, h w List.mem_cons_self,
      ih fun x hx => h x (List.mem_cons_of_mem _ hx)]

theorem readList (hg : Unseen g) (h : ∀ w, sizeOf w < sizeOf v → ReadsAlike g w) (path : Path)
    {key : String} (hkey : lookup key Form.node.keys = some .nodes) :
    Document.readList path (g .node v) key = Document.readList path v key := by
  have hpart := hg.part hkey v
  cases hmember : member? v key with
  | none =>
    rw [hmember] at hpart
    rw [readList_eq, readList_eq, hpart, hmember]
    rfl
  | some w =>
    rw [hmember, Option.map_some] at hpart
    have hlt := sizeOf_lt_of_member? hmember
    -- a change keeps the type of a value, so that both are lists or both are the same fault
    by_cases hw : w.typeName = "list"
    · obtain ⟨items, rfl⟩ := exists_eq_arr hw
      rw [readList_eq, readList_eq, hpart, hmember, hg.nodes]
      dsimp only
      rw [readItems fun x hx => h x (Nat.lt_trans (sizeOf_lt_of_mem_arr hx) hlt)]
    · rw [readList_eq_fault hpart (by rwa [hg.typeName]), readList_eq_fault hmember hw, hg.typeName]

theorem readField (hg : Unseen g) (h : ∀ w, sizeOf w < sizeOf v → ReadsAlike g w) (path : Path) :
    Document.readField path (g .field v) = Document.readField path v := by
  have hkey : Document.readSlot path (g .field v) "key" = Document.readSlot path v "key" :=
    hg.readSlot h path rfl
  have hvalue : Document.readSlot path (g .field v) "value" = Document.readSlot path v "value" :=
    hg.readSlot h path rfl
  by_cases hv : v.typeName = "dict"
  · -- the members may be others, but the two parts are read alike
    obtain ⟨members, rfl⟩ := exists_eq_obj hv
    obtain ⟨members', hobj⟩ := exists_eq_obj ((hg.typeName .field (.obj members)).trans hv)
    rw [hobj] at hkey hvalue ⊢
    rw [Document.readField, Document.readField, hkey, hvalue]
  · rw [readField_eq_fault hv, readField_eq_fault (by rwa [hg.typeName]), hg.typeName]

theorem readFieldItems (hg : Unseen g) {items : List Json}
    (h : ∀ w ∈ items, ∀ x, sizeOf x < sizeOf w → ReadsAlike g x) (path : Path) :
    ∀ i, Document.readFieldItems path i (items.map (g .field)) =
      Document.readFieldItems path i items := by
  induction items with
  | nil => intro i; rfl
  | cons w items ih =>
    intro i
    rw [List.map_cons, Document.readFieldItems, Document.readFieldItems,
      hg.readField (h w List.mem_cons_self), ih fun x hx => h x (List.mem_cons_of_mem _ hx)]

theorem readFields (hg : Unseen g) (h : ∀ w, sizeOf w < sizeOf v → ReadsAlike g w) (path : Path) :
    Document.readFields path (g .node v) = Document.readFields path v := by
  have hpart : member? (g .node v) "fields" = (member? v "fields").map (g .fields) := hg.part rfl v
  cases hmember : member? v "fields" with
  | none =>
    rw [hmember] at hpart
    rw [readFields_eq, readFields_eq, hpart, hmember]
    rfl
  | some w =>
    rw [hmember, Option.map_some] at hpart
    have hlt := sizeOf_lt_of_member? hmember
    by_cases hw : w.typeName = "list"
    · -- the parts of a field are two steps below the list
      obtain ⟨items, rfl⟩ := exists_eq_arr hw
      rw [readFields_eq, readFields_eq, hpart, hmember, hg.fields]
      dsimp only
      rw [hg.readFieldItems fun x hx y hy =>
        h y (Nat.lt_trans hy (Nat.lt_trans (sizeOf_lt_of_mem_arr hx) hlt))]
    · rw [readFields_eq_fault hpart (by rwa [hg.typeName]), readFields_eq_fault hmember hw,
        hg.typeName]

/-- **What is changed without being seen is read as before**, faults included. -/
theorem readNode (hg : Unseen g) (v : Json) : ReadsAlike g v := by
  -- every part of a value is smaller, whichever key it stands under
  have h : ∀ w, sizeOf w < sizeOf v → ReadsAlike g w := fun w _ => hg.readNode w
  intro path
  refine readNode_congr (hg.tag path v) (hg.name path v) ?_ ?_ (hg.readFields h path)
    (fun key hkey => hg.flag v hkey) (hg.nullable v)
  · intro key hkey
    refine hg.readSlot h path ?_
    simp only [List.mem_cons, List.not_mem_nil, or_false] at hkey
    rcases hkey with rfl | rfl | rfl | rfl <;> rfl
  · intro key hkey
    refine hg.readList h path ?_
    simp only [List.mem_cons, List.not_mem_nil, or_false] at hkey
    rcases hkey with rfl | rfl | rfl <;> rfl
termination_by sizeOf v

end Unseen

end Document

end TypeText

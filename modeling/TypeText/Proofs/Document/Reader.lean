import TypeText.Document.Reader

/-!
# What reading a document finds

Reading a node is a sequence of steps that each look at one key.  It succeeds when all
of them do, and then the node is put together from what they found; it depends on the
document only through what they look at.

## Main definitions

* `Document.assemble` — the node put together from the results of the steps.

## Main results

* `readNode_eq_ok_iff` — a node is read when each of its parts is.
* `readNode_congr` — values whose parts are read alike are read alike.
* `readSlot_eq`, `readList_eq`, `readFields_eq` — what stands under a key, by whether
  something stands there.
-/

set_option autoImplicit false

namespace TypeText

namespace Document

/-- A sequence succeeds when both of its steps do. -/
theorem bind_eq_ok_iff {ε α β : Type} {x : Except ε α} {f : α → Except ε β} {b : β} :
    x >>= f = .ok b ↔ ∃ a, x = .ok a ∧ f a = .ok b := by
  cases x with
  | error e => simp [bind, Except.bind]
  | ok a => simp [bind, Except.bind]

theorem map_eq_ok_iff {ε α β : Type} {x : Except ε α} {f : α → β} {b : β} :
    x.map f = .ok b ↔ ∃ a, x = .ok a ∧ f a = b := by
  cases x with
  | error e => simp [Except.map]
  | ok a => simp [Except.map]

/-! ### Nodes -/

/-- The node that a value describes, put together from its parts. -/
def assemble (v : Json) (tag : String) (name : Option String)
    (expression newType thisType result : Option Node)
    (members arguments params : Option (List (Option Node)))
    (fields : Option (List (Field Node))) : Node :=
  .mk
    { tag := .str tag
      name
      inner := if Kind.ofTag? (.str tag) = some .application then none else expression
      members
      fields
      base := if Kind.ofTag? (.str tag) = some .application then expression else none
      arguments
      newType
      thisType
      params
      result
      optional := readFlag v "optional"
      nullable := .ofFlag ((v.get? "nullable").getD .null)
      repeatable := readFlag v "repeatable" }

/-- A node is read when each of its parts is. -/
theorem readNode_eq_ok_iff {path : Path} {v : Json} {n : Node} :
    readNode path v = .ok n ↔
      ∃ tag name expression newType thisType result members arguments params fields,
        readTag path v = .ok tag ∧ readName path v = .ok name ∧
        readSlot path v "expression" = .ok expression ∧ readSlot path v "new" = .ok newType ∧
        readSlot path v "this" = .ok thisType ∧ readSlot path v "result" = .ok result ∧
        readList path v "elements" = .ok members ∧
        readList path v "applications" = .ok arguments ∧
        readList path v "params" = .ok params ∧ readFields path v = .ok fields ∧
        n = assemble v tag name expression newType thisType result members arguments params
          fields := by
  rw [readNode]
  simp only [bind_eq_ok_iff, ← exists_and_left, pure, Except.pure, Except.ok.injEq,
    eq_comm (a := n)]
  rfl

/-- Values whose parts are read alike are read alike. -/
theorem readNode_congr {path : Path} {v w : Json} (htag : readTag path v = readTag path w)
    (hname : readName path v = readName path w)
    (hslot : ∀ key ∈ ["expression", "new", "this", "result"],
      readSlot path v key = readSlot path w key)
    (hlist : ∀ key ∈ ["elements", "applications", "params"],
      readList path v key = readList path w key)
    (hfields : readFields path v = readFields path w)
    (hflag : ∀ key ∈ ["optional", "repeatable"], readFlag v key = readFlag w key)
    (hnullable : Nullability.ofFlag ((v.get? "nullable").getD .null) =
      .ofFlag ((w.get? "nullable").getD .null)) :
    readNode path v = readNode path w := by
  simp only [List.forall_mem_cons] at hslot hlist hflag
  obtain ⟨hexpression, hnewType, hthisType, hresult, -⟩ := hslot
  obtain ⟨hmembers, harguments, hparams, -⟩ := hlist
  obtain ⟨hoptional, hrepeatable, -⟩ := hflag
  rw [readNode, readNode, htag, hname, hexpression, hnewType, hthisType, hresult, hmembers,
    harguments, hparams, hfields, hoptional, hnullable, hrepeatable]

/-! ### Parts -/

/-- An item is smaller than its array. -/
theorem sizeOf_lt_of_mem_arr {v : Json} {items : List Json} (h : v ∈ items) :
    sizeOf v < sizeOf (Json.arr items) := by
  have := List.sizeOf_lt_of_mem h
  rw [Json.arr.sizeOf_spec]
  omega

/-- What counts as a member is there and not null. -/
theorem member?_eq_some_iff {v w : Json} {key : String} :
    member? v key = some w ↔ v.get? key = some w ∧ w ≠ .null := by
  unfold member?
  constructor
  · intro h
    split at h
    · cases h
    · -- null is the case before
      next hnull => exact ⟨h, fun hw => hnull (hw ▸ h)⟩
  · rintro ⟨hget, hw⟩
    rw [hget]
    split
    · next hnull => exact absurd (Option.some.inj hnull) hw
    · rfl

/-- The subtree under a key is what the value there describes. -/
theorem readSlot_eq (path : Path) (v : Json) (key : String) :
    readSlot path v key =
      match member? v key with
      | none => .ok none
      | some w => (readNode (path ++ [.key key]) w).map some := by
  rw [readSlot]
  cases member? v key with
  | none => rfl
  | some w => rfl

/-- The list under a key is what its items describe. -/
theorem readList_eq (path : Path) (v : Json) (key : String) :
    readList path v key =
      match member? v key with
      | none => .ok none
      | some (.arr items) => (readItems (path ++ [.key key]) 0 items).map some
      | some w => fault (path ++ [.key key]) (.notList w.typeName) := by
  rw [readList]
  cases member? v key with
  | none => rfl
  | some w => cases w <;> rfl

/-- The fields are what the items of their list describe. -/
theorem readFields_eq (path : Path) (v : Json) :
    readFields path v =
      match member? v "fields" with
      | none => .ok none
      | some (.arr items) => (readFieldItems (path ++ [.key "fields"]) 0 items).map some
      | some w => fault (path ++ [.key "fields"]) (.notList w.typeName) := by
  rw [readFields]
  cases member? v "fields" with
  | none => rfl
  | some w => cases w <;> rfl

/-- A field is read when it is an object whose key and value are. -/
theorem readField_eq_ok_iff {path : Path} {v : Json} {f : Field Node} :
    readField path v = .ok f ↔ (∃ members, v = .obj members) ∧
      readSlot path v "key" = .ok f.key ∧ readSlot path v "value" = .ok f.value := by
  cases v with
  | obj members =>
    rw [readField]
    simp only [bind_eq_ok_iff, pure, Except.pure, Except.ok.injEq]
    constructor
    · rintro ⟨key, hkey, value, hvalue, rfl⟩
      exact ⟨⟨members, rfl⟩, hkey, hvalue⟩
    · rintro ⟨-, hkey, hvalue⟩
      exact ⟨f.key, hkey, f.value, hvalue, rfl⟩
  | _ => simp [readField, fault]

end Document

end TypeText

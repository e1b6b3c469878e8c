import TypeText.Proofs.Document.Reader

/-!
# The places of a document

Reading a document goes through its places from the root down.  A value is read in one
of four forms: as a node, as a list of nodes, as a field, or as a list of fields.  The
form says what has to hold of the value itself, and which parts of it are read in
which form.  All places of a document, each before its parts, are `places`; what is
wrong with them, in the same order, are the `faults` of the document.

## Main definitions

* `Form`, `nodeKeys`, `fieldKeys` — the forms, and the keys that hold parts.
* `Form.parts` — the parts of a value that is read in a form, in the order of reading.
* `Place`, `places` — the places of a document, each before its parts.
* `Place.faults`, `faults` — what is wrong with a place, and with all places in turn.
* `fault?` — the fault that reading stopped at.

## Main results

* `forall_mem_places` — what the parts of a value inherit from it holds of all places.
* `fault?_readNode` — **reading reports the first fault, and there is no other reason
  to fail.**
-/

set_option autoImplicit false

namespace TypeText

namespace Document

/-! ### Forms and parts -/

/-- What a value in a document is read as. -/
inductive Form where
  /-- A node. -/
  | node
  /-- A list of nodes. -/
  | nodes
  /-- A field of a record. -/
  | field
  /-- A list of fields. -/
  | fields
deriving DecidableEq

/-- The keys of a node that hold parts, in the order in which they are read. -/
def nodeKeys : List (String × Form) :=
  [("expression", .node), ("new", .node), ("this", .node), ("result", .node),
    ("elements", .nodes), ("applications", .nodes), ("params", .nodes), ("fields", .fields)]

/-- The keys of a field that hold parts, in the order in which they are read. -/
def fieldKeys : List (String × Form) := [("key", .node), ("value", .node)]

/-- A part of a value: the step to it and the form in which it is read. -/
structure Part where
  step : Path.Step
  form : Form
  value : Json

/-- The parts of an object under some keys.  What is absent or null is no part. -/
def keyed (v : Json) (keys : List (String × Form)) : List Part :=
  keys.filterMap fun k => (member? v k.1).map fun w => ⟨.key k.1, k.2, w⟩

/-- The items of an array, counted from `i` on. -/
def indexed (form : Form) (i : Nat) (items : List Json) : List Part :=
  (items.zipIdx i).map fun w => ⟨.index w.2, form, w.1⟩

/-- The parts of a value that is read in a form, in the order in which they are read. -/
def Form.parts : Form → Json → List Part
  | .node, v => keyed v nodeKeys
  | .field, v => keyed v fieldKeys
  | .nodes, .arr items => indexed .node 0 items
  | .fields, .arr items => indexed .field 0 items
  | _, _ => []

theorem mem_keyed {v : Json} {keys : List (String × Form)} {p : Part} :
    p ∈ keyed v keys ↔
      ∃ key, (key, p.form) ∈ keys ∧ p.step = .key key ∧ member? v key = some p.value := by
  obtain ⟨step, form, w⟩ := p
  simp only [keyed, List.mem_filterMap, Prod.exists, Option.map_eq_some_iff, Part.mk.injEq]
  constructor
  · rintro ⟨key, form, hkey, w, hw, rfl, rfl, rfl⟩
    exact ⟨key, hkey, rfl, hw⟩
  · rintro ⟨key, hkey, rfl, hw⟩
    exact ⟨key, form, hkey, w, hw, rfl, rfl, rfl⟩

theorem mem_indexed {form : Form} {items : List Json} {p : Part} :
    p ∈ indexed form 0 items ↔
      ∃ i, p.form = form ∧ p.step = .index i ∧ items[i]? = some p.value := by
  obtain ⟨step, form', w⟩ := p
  simp only [indexed, List.mem_map, Prod.exists, List.mem_zipIdx_iff_getElem?, Part.mk.injEq]
  constructor
  · rintro ⟨w, i, hw, rfl, rfl, rfl⟩
    exact ⟨i, rfl, rfl, hw⟩
  · rintro ⟨i, rfl, rfl, hw⟩
    exact ⟨w, i, hw, rfl, rfl, rfl⟩

/-- A part is a member under one of the keys of its form, or an item of an array. -/
theorem Form.mem_parts {form : Form} {v : Json} {p : Part} (h : p ∈ form.parts v) :
    (∃ keys key, (form = .node ∧ keys = nodeKeys ∨ form = .field ∧ keys = fieldKeys) ∧
      (key, p.form) ∈ keys ∧ p.step = .key key ∧ member? v key = some p.value) ∨
    ∃ items i, (form = .nodes ∧ p.form = .node ∨ form = .fields ∧ p.form = .field) ∧
      v = .arr items ∧ p.step = .index i ∧ items[i]? = some p.value := by
  unfold parts at h
  split at h
  · obtain ⟨key, hkey, hstep, hvalue⟩ := mem_keyed.mp h
    exact Or.inl ⟨nodeKeys, key, Or.inl ⟨rfl, rfl⟩, hkey, hstep, hvalue⟩
  · obtain ⟨key, hkey, hstep, hvalue⟩ := mem_keyed.mp h
    exact Or.inl ⟨fieldKeys, key, Or.inr ⟨rfl, rfl⟩, hkey, hstep, hvalue⟩
  · obtain ⟨i, hform, hstep, hvalue⟩ := mem_indexed.mp h
    exact Or.inr ⟨_, i, Or.inl ⟨rfl, hform⟩, rfl, hstep, hvalue⟩
  · obtain ⟨i, hform, hstep, hvalue⟩ := mem_indexed.mp h
    exact Or.inr ⟨_, i, Or.inr ⟨rfl, hform⟩, rfl, hstep, hvalue⟩
  · exact absurd h List.not_mem_nil

theorem sizeOf_lt_of_mem_parts {form : Form} {v : Json} {p : Part} (h : p ∈ form.parts v) :
    sizeOf p.value < sizeOf v := by
  rcases Form.mem_parts h with ⟨keys, key, -, -, -, hvalue⟩ | ⟨items, i, -, rfl, -, hvalue⟩
  · exact sizeOf_lt_of_member? hvalue
  · exact sizeOf_lt_of_mem_arr (List.mem_of_getElem? hvalue)

/-! ### Places -/

/-- A place of a document, with the form in which its value is read. -/
structure Place where
  path : Path
  form : Form
  value : Json

/-- The places of a document, each before its parts. -/
def places (form : Form) (path : Path) (v : Json) : List Place :=
  ⟨path, form, v⟩ ::
    (form.parts v).attach.flatMap fun p => places p.1.form (path ++ [p.1.step]) p.1.value
termination_by sizeOf v
decreasing_by exact sizeOf_lt_of_mem_parts p.2

theorem places_eq (form : Form) (path : Path) (v : Json) :
    places form path v = ⟨path, form, v⟩ ::
      (form.parts v).flatMap fun p => places p.form (path ++ [p.step]) p.value := by
  rw [places]
  simp

/-- What holds of the root, and of each part of a place of which it holds, holds of all
places. -/
theorem forall_mem_places {P : Place → Prop}
    (hstep : ∀ q : Place, P q → ∀ p ∈ q.form.parts q.value, P ⟨q.path ++ [p.step], p.form, p.value⟩)
    (form : Form) (path : Path) (v : Json) (hroot : P ⟨path, form, v⟩) :
    ∀ q ∈ places form path v, P q := by
  intro q hq
  rw [places_eq, List.mem_cons, List.mem_flatMap] at hq
  rcases hq with rfl | ⟨p, hp, hq⟩
  · exact hroot
  · -- below a part, of which it holds by the step
    exact forall_mem_places hstep p.form (path ++ [p.step]) p.value (hstep _ hroot p hp) q hq
termination_by sizeOf v
decreasing_by exact sizeOf_lt_of_mem_parts hp

/-! ### Faults -/

/-- What is wrong with the tag of a node. -/
def tagFaults (path : Path) (tag : Option Json) : List Fault :=
  match tag with
  | some (.str _) => []
  | _ => [⟨path, .missingType⟩]

/-- What is wrong with the name of a node. -/
def nameFaults (path : Path) (name : Option Json) : List Fault :=
  match name with
  | none => []
  | some .null => []
  | some (.str _) => []
  | some w => [⟨path ++ [.key "name"], .nameNotString w.typeName⟩]

/-- What is wrong with the value at a place, whatever its parts. -/
def Place.faults : Place → List Fault
  | ⟨path, .node, .obj members⟩ =>
    tagFaults path (lookup "type" members) ++ nameFaults path (lookup "name" members)
  | ⟨path, .node, v⟩ => [⟨path, .notNode v.typeName⟩]
  | ⟨_, .field, .obj _⟩ => []
  | ⟨path, .field, v⟩ => [⟨path, .notField v.typeName⟩]
  | ⟨_, _, .arr _⟩ => []
  | ⟨path, _, v⟩ => [⟨path, .notList v.typeName⟩]

/-- All that is wrong with a document, in the order of its places. -/
def faults (form : Form) (path : Path) (v : Json) : List Fault :=
  (places form path v).flatMap Place.faults

/-- The faults of a value are its own, and then those of its parts. -/
theorem faults_eq (form : Form) (path : Path) (v : Json) :
    faults form path v = Place.faults ⟨path, form, v⟩ ++
      (form.parts v).flatMap fun p => faults p.form (path ++ [p.step]) p.value := by
  rw [faults, places_eq, List.flatMap_cons, List.flatMap_assoc]
  rfl

/-- The first fault of a value is its own, or else the first one of its parts. -/
theorem head?_faults (form : Form) (path : Path) (v : Json) :
    (faults form path v).head? = (Place.faults ⟨path, form, v⟩).head?.or
      ((form.parts v).findSome? fun p => (faults p.form (path ++ [p.step]) p.value).head?) := by
  rw [faults_eq, List.head?_append, List.head?_flatMap]

/-! ### The first fault -/

/-- The fault that reading stopped at. -/
def fault? {α : Type} : Except Fault α → Option Fault
  | .ok _ => none
  | .error f => some f

section FirstFault

variable {v : Json} {path : Path}

/-- A sequence of steps stops at the first of them that fails. -/
theorem fault?_bind {α β : Type} {x : Except Fault α} {f : α → Except Fault β} {o : Option Fault}
    (h : ∀ a, fault? (f a) = o) : fault? (x >>= f) = (fault? x).or o := by
  cases x with
  | ok a => exact h a
  | error e => rfl

theorem fault?_map {α β : Type} (f : α → β) (x : Except Fault α) :
    fault? (x.map f) = fault? x := by
  cases x <;> rfl

/-- Reading a node stops at the first of its steps that fails. -/
theorem fault?_readNode_eq (path : Path) (v : Json) :
    fault? (readNode path v) =
      ((fault? (readTag path v)).or ((fault? (readName path v)).or
        ((fault? (readSlot path v "expression")).or ((fault? (readSlot path v "new")).or
        ((fault? (readSlot path v "this")).or ((fault? (readSlot path v "result")).or
        ((fault? (readList path v "elements")).or ((fault? (readList path v "applications")).or
        ((fault? (readList path v "params")).or
        ((fault? (readFields path v)).or none)))))))))) := by
  rw [readNode]
  exact fault?_bind fun _ => fault?_bind fun _ => fault?_bind fun _ => fault?_bind fun _ =>
    fault?_bind fun _ => fault?_bind fun _ => fault?_bind fun _ => fault?_bind fun _ =>
    fault?_bind fun _ => fault?_bind fun _ => rfl

/-- The tag and the name of a node are checked before its parts. -/
theorem head?_faults_node (path : Path) (v : Json) :
    (Place.faults ⟨path, .node, v⟩).head? =
      (fault? (readTag path v)).or (fault? (readName path v)) := by
  cases v with
  | obj members =>
    -- each of the two checks looks only at what stands under its key
    have htag : fault? (readTag path (.obj members)) =
        (tagFaults path (lookup "type" members)).head? := by
      rw [readTag, Json.get?_obj]
      rcases lookup "type" members with _ | w
      · rfl
      · cases w <;> rfl
    have hname : fault? (readName path (.obj members)) =
        (nameFaults path (lookup "name" members)).head? := by
      rw [readName, Json.get?_obj]
      rcases lookup "name" members with _ | w
      · rfl
      · cases w <;> rfl
    rw [Place.faults, List.head?_append, htag, hname]
  | _ => rfl

theorem findSome?_cons_or {α β : Type} (f : α → Option β) (a : α) (as : List α) :
    (a :: as).findSome? f = (f a).or (as.findSome? f) := by
  rw [List.findSome?_cons]
  cases f a <;> rfl

/-- The first fault of a part that stands under a key, if it is there. -/
def memberFault? (path : Path) (v : Json) (key : String) (form : Form) : Option Fault :=
  (member? v key).bind fun w => (faults form (path ++ [.key key]) w).head?

/-- The first fault among the parts under some keys. -/
theorem findSome?_keyed (path : Path) (v : Json) (keys : List (String × Form)) :
    ((keyed v keys).findSome? fun p => (faults p.form (path ++ [p.step]) p.value).head?) =
      keys.findSome? fun k => memberFault? path v k.1 k.2 := by
  induction keys with
  | nil => rfl
  | cons k keys ih =>
    rw [keyed] at ih ⊢
    rw [findSome?_cons_or, ← ih, memberFault?, List.filterMap_cons]
    cases member? v k.1 with
    | none => rfl
    | some w => exact findSome?_cons_or _ _ _

/-- Reading items in turn stops at the first item that has a fault. -/
theorem findSome?_indexed {α : Type} {r : Path → Json → Except Fault α}
    {g : Nat → List Json → Option Fault} {form : Form} (hnil : ∀ i, g i [] = none)
    (hcons : ∀ i w ws, g i (w :: ws) = (fault? (r (path ++ [.index i]) w)).or (g (i + 1) ws)) :
    ∀ {items : List Json}, (∀ w ∈ items, ∀ path, fault? (r path w) = (faults form path w).head?) →
      ∀ i, g i items = (indexed form i items).findSome? fun p =>
        (faults p.form (path ++ [p.step]) p.value).head? := by
  intro items
  induction items with
  | nil =>
    intro _ i
    exact hnil i
  | cons w items ih =>
    intro h i
    have htail := ih (fun x hx => h x (List.mem_cons_of_mem _ hx)) (i + 1)
    have hsplit : indexed form i (w :: items) = ⟨.index i, form, w⟩ :: indexed form (i + 1) items :=
      rfl
    rw [hcons, h w List.mem_cons_self, htail, hsplit, findSome?_cons_or]

/-- Reading a value as a node reports its first fault. -/
def ReportsFirst (v : Json) : Prop :=
  ∀ path, fault? (readNode path v) = (faults .node path v).head?

theorem fault?_readSlot (h : ∀ w, sizeOf w < sizeOf v → ReportsFirst w) (path : Path)
    (key : String) : fault? (readSlot path v key) = memberFault? path v key .node := by
  rw [readSlot_eq, memberFault?]
  cases hmember : member? v key with
  | none => rfl
  | some w =>
    dsimp only [Option.bind_some]
    rw [fault?_map, h w (sizeOf_lt_of_member? hmember)]

theorem fault?_readList (h : ∀ w, sizeOf w < sizeOf v → ReportsFirst w) (path : Path)
    (key : String) : fault? (readList path v key) = memberFault? path v key .nodes := by
  rw [readList_eq, memberFault?]
  cases hmember : member? v key with
  | none => rfl
  | some w =>
    have hlt := sizeOf_lt_of_member? hmember
    rw [Option.bind_some, head?_faults]
    cases w with
    | arr items =>
      -- the list itself has no fault, so that the first one is that of an item
      have hitems : ∀ w ∈ items, ReportsFirst w := fun x hx =>
        h x (Nat.lt_trans (sizeOf_lt_of_mem_arr hx) hlt)
      dsimp only
      rw [fault?_map]
      refine findSome?_indexed (g := fun i ws => fault? (readItems _ i ws)) ?_ ?_ hitems 0
      · intro i
        rw [readItems]
        rfl
      · intro i w ws
        rw [readItems]
        exact fault?_bind fun n => fault?_map _ _
    | _ => rfl

/-- Reading a field reports its first fault. -/
theorem fault?_readField (h : ∀ w, sizeOf w < sizeOf v → ReportsFirst w) (path : Path) :
    fault? (readField path v) = (faults .field path v).head? := by
  cases v with
  | obj members =>
    have hsteps : fault? (readField path (.obj members)) =
        (fault? (readSlot path (.obj members) "key")).or
          ((fault? (readSlot path (.obj members) "value")).or none) := by
      rw [readField]
      exact fault?_bind fun _ => fault?_bind fun _ => rfl
    rw [hsteps, fault?_readSlot h, fault?_readSlot h, head?_faults, Form.parts, findSome?_keyed]
    simp only [fieldKeys, findSome?_cons_or, List.findSome?_nil]
    rfl
  | _ =>
    rw [readField, head?_faults]
    · rfl
    · simp

theorem fault?_readFields (h : ∀ w, sizeOf w < sizeOf v → ReportsFirst w) (path : Path) :
    fault? (readFields path v) = memberFault? path v "fields" .fields := by
  rw [readFields_eq, memberFault?]
  cases hmember : member? v "fields" with
  | none => rfl
  | some w =>
    have hlt := sizeOf_lt_of_member? hmember
    rw [Option.bind_some, head?_faults]
    cases w with
    | arr items =>
      -- what is below a field is two steps smaller than the record
      have hitems : ∀ w ∈ items, ∀ path, fault? (readField path w) = (faults .field path w).head? :=
        fun x hx => fault?_readField fun y hy =>
          h y (Nat.lt_trans hy (Nat.lt_trans (sizeOf_lt_of_mem_arr hx) hlt))
      dsimp only
      rw [fault?_map]
      refine findSome?_indexed (g := fun i ws => fault? (readFieldItems _ i ws)) ?_ ?_ hitems 0
      · intro i
        rw [readFieldItems]
        rfl
      · intro i w ws
        rw [readFieldItems]
        exact fault?_bind fun f => fault?_map _ _
    | _ => rfl

/-- **Reading reports the first fault, and there is no other reason to fail.** -/
theorem fault?_readNode (v : Json) : ReportsFirst v := by
  -- the parts of a value are smaller, and each is checked where its key comes in the order
  have h : ∀ w, sizeOf w < sizeOf v → ReportsFirst w := fun w _ => fault?_readNode w
  intro path
  rw [fault?_readNode_eq, ← Option.or_assoc, ← head?_faults_node, head?_faults, Form.parts,
    findSome?_keyed]
  simp only [nodeKeys, findSome?_cons_or, List.findSome?_nil, fault?_readSlot h,
    fault?_readList h, fault?_readFields h]
termination_by sizeOf v

end FirstFault

end Document

end TypeText

import TypeText.Error
import TypeText.Proofs.Document.Places

/-!
# The grammar of documents

A document describes a tree exactly when it is well formed: every place in it has the
shape that its form asks for.  The grammar says this without mention of reading, paths
or order, and of an object it mentions only the keys that matter; whatever stands under
other keys, and whatever the flags are, has no part in it.

## Main definitions

* `WellFormed form v` — `v` can be read in a form.

## Main results

* `wellFormed_iff` — well-formedness, at a value and for its parts.
* `faults_eq_nil_iff_wellFormed` — **a value has no fault exactly when it is well
  formed.**
* `exists_ofDocument_eq_ok_iff` — the same for reading whole documents.
-/

set_option autoImplicit false

namespace TypeText

namespace Document

/-! ### Grammar -/

/-- The grammar of documents. -/
inductive WellFormed : Form → Json → Prop where
  /-- A node is an object with a string under `type`.  Under its other keys there is nothing,
  `null`, or a string for the name and a well-formed value for each part. -/
  | node {members : List (String × Json)} (tag : String)
      (htag : lookup "type" members = some (.str tag))
      (hname : ∀ w, lookup "name" members = some w → w ≠ .null → ∃ name, w = .str name)
      (hparts : ∀ key form w, (key, form) ∈ nodeKeys → lookup key members = some w → w ≠ .null →
        WellFormed form w) :
      WellFormed .node (.obj members)
  /-- A list of nodes is an array whose items are all nodes; `null` is none. -/
  | nodes {items : List Json} (hitems : ∀ w ∈ items, WellFormed .node w) :
      WellFormed .nodes (.arr items)
  /-- A field is any object, with nothing, `null` or a node under `key` and `value`. -/
  | field {members : List (String × Json)}
      (hparts : ∀ key form w, (key, form) ∈ fieldKeys → lookup key members = some w → w ≠ .null →
        WellFormed form w) :
      WellFormed .field (.obj members)
  /-- A list of fields is an array whose items are all fields. -/
  | fields {items : List Json} (hitems : ∀ w ∈ items, WellFormed .field w) :
      WellFormed .fields (.arr items)

/-! ### Parts -/

theorem forall_mem_keyed {v : Json} {keys : List (String × Form)} {P : Form → Json → Prop} :
    (∀ p ∈ keyed v keys, P p.form p.value) ↔
      ∀ key form w, (key, form) ∈ keys → v.get? key = some w → w ≠ .null → P form w := by
  constructor
  · intro h key form w hkey hget hw
    exact h ⟨.key key, form, w⟩
      (mem_keyed.mpr ⟨key, hkey, rfl, member?_eq_some_iff.mpr ⟨hget, hw⟩⟩)
  · intro h p hp
    obtain ⟨key, hkey, -, hmember⟩ := mem_keyed.mp hp
    obtain ⟨hget, hw⟩ := member?_eq_some_iff.mp hmember
    exact h key p.form p.value hkey hget hw

theorem forall_mem_indexed {form : Form} {items : List Json} {P : Form → Json → Prop} :
    (∀ p ∈ indexed form 0 items, P p.form p.value) ↔ ∀ w ∈ items, P form w := by
  constructor
  · intro h w hw
    obtain ⟨i, hi⟩ := List.getElem?_of_mem hw
    exact h ⟨.index i, form, w⟩ (mem_indexed.mpr ⟨i, rfl, rfl, hi⟩)
  · intro h p hp
    obtain ⟨i, hform, -, hi⟩ := mem_indexed.mp hp
    exact hform ▸ h p.value (List.mem_of_getElem? hi)

theorem tagFaults_eq_nil_iff {path : Path} {tag : Option Json} :
    tagFaults path tag = [] ↔ ∃ s, tag = some (.str s) := by
  rcases tag with _ | w
  · simp [tagFaults]
  · cases w <;> simp [tagFaults]

theorem nameFaults_eq_nil_iff {path : Path} {name : Option Json} :
    nameFaults path name = [] ↔ ∀ w, name = some w → w ≠ .null → ∃ s, w = .str s := by
  rcases name with _ | w
  · simp [nameFaults]
  · cases w <;> simp [nameFaults]

/-! ### Acceptance -/

/-- A value is well formed when nothing is wrong with it and its parts are well formed. -/
theorem wellFormed_iff (path : Path) (form : Form) (v : Json) :
    WellFormed form v ↔
      Place.faults ⟨path, form, v⟩ = [] ∧ ∀ p ∈ form.parts v, WellFormed p.form p.value := by
  constructor
  · intro h
    cases h with
    | node tag htag hname hparts =>
      -- the two conditions on a node itself are its two checks
      refine ⟨?_, forall_mem_keyed.mpr hparts⟩
      rw [Place.faults, List.append_eq_nil_iff]
      exact ⟨tagFaults_eq_nil_iff.mpr ⟨tag, htag⟩, nameFaults_eq_nil_iff.mpr hname⟩
    | nodes hitems => exact ⟨rfl, forall_mem_indexed.mpr hitems⟩
    | field hparts => exact ⟨rfl, forall_mem_keyed.mpr hparts⟩
    | fields hitems => exact ⟨rfl, forall_mem_indexed.mpr hitems⟩
  · -- a value of the wrong shape has a fault of its own, whatever the form
    rintro ⟨hown, hparts⟩
    cases form with
    | node =>
      cases v with
      | obj members =>
        rw [Place.faults, List.append_eq_nil_iff] at hown
        obtain ⟨tag, htag⟩ := tagFaults_eq_nil_iff.mp hown.1
        exact .node tag htag (nameFaults_eq_nil_iff.mp hown.2) (forall_mem_keyed.mp hparts)
      | _ => simp [Place.faults] at hown
    | nodes =>
      cases v with
      | arr items => exact .nodes (forall_mem_indexed.mp hparts)
      | _ => simp [Place.faults] at hown
    | field =>
      cases v with
      | obj members => exact .field (forall_mem_keyed.mp hparts)
      | _ => simp [Place.faults] at hown
    | fields =>
      cases v with
      | arr items => exact .fields (forall_mem_indexed.mp hparts)
      | _ => simp [Place.faults] at hown

/-- A value has no fault when nothing is wrong with it and its parts have none. -/
theorem faults_eq_nil_iff {form : Form} {path : Path} {v : Json} :
    faults form path v = [] ↔ Place.faults ⟨path, form, v⟩ = [] ∧
      ∀ p ∈ form.parts v, faults p.form (path ++ [p.step]) p.value = [] := by
  rw [faults_eq, List.append_eq_nil_iff, List.flatMap_eq_nil_iff]

/-- **A value has no fault exactly when it is well formed.** -/
theorem faults_eq_nil_iff_wellFormed (form : Form) (path : Path) (v : Json) :
    faults form path v = [] ↔ WellFormed form v := by
  rw [faults_eq_nil_iff, wellFormed_iff path]
  refine and_congr_right fun _ => forall₂_congr fun p hp => ?_
  exact faults_eq_nil_iff_wellFormed p.form (path ++ [p.step]) p.value
termination_by sizeOf v
decreasing_by exact sizeOf_lt_of_mem_parts hp

/-- What is read as a node is what is well formed. -/
theorem exists_readNode_eq_ok_iff {path : Path} {v : Json} :
    (∃ n, readNode path v = .ok n) ↔ WellFormed .node v := by
  rw [← faults_eq_nil_iff_wellFormed .node path, ← List.head?_eq_none_iff, ← fault?_readNode v path]
  cases readNode path v with
  | ok n => simp [fault?]
  | error f => simp [fault?]

end Document

/-- A document is read as a tree exactly when it is well formed; reading any other document is a
failure of the documents themselves. -/
theorem exists_ofDocument_eq_ok_iff (d : Json) :
    ((∃ n, Node.ofDocument d = .ok n) ↔ Document.WellFormed .node d) ∧
      (¬ Document.WellFormed .node d ↔
        ∃ f, Node.ofDocument d = .error f ∧ (Error.fault f).category = .serialization) := by
  have hfirst : Document.fault? (Node.ofDocument d) = (Document.faults .node [] d).head? :=
    Document.fault?_readNode d []
  rw [← Document.faults_eq_nil_iff_wellFormed .node [] d, ← List.head?_eq_none_iff, ← hfirst]
  cases Node.ofDocument d with
  | ok n => simp [Document.fault?]
  | error f => simp [Document.fault?, Error.category]

end TypeText

import TypeText.Proofs.Document.Grammar
import TypeText.Proofs.Document.Rewriting

/-!
# Clean documents

A document is clean when everything in it is read.  Then it is equal to its clean form,
and to what is written for the tree that is read from it; any other document is not.

## Main definitions

* `Document.IsClean form v` — everything in `v` is read, in a form.

## Main results

* `Json.equal_sortKeys` — the order of keys does not matter to equality.
* `same_clean_iff` — **a document is equal to its clean form exactly when it is clean.**
* `exists_toDocument?_of_ofDocument` — reading a document and writing its tree is cleaning.
-/

set_option autoImplicit false

namespace TypeText

/-! ### Equality -/

namespace Json

theorem isNan_sortKeys (v : Json) : v.sortKeys.isNan = v.isNan := by cases v <;> rfl

theorem equalItems_sortKeys {xs : List Json} (h : ∀ x ∈ xs, ∀ w, x.sortKeys.equal w = x.equal w) :
    ∀ ys, equalItems (xs.map sortKeys) ys = equalItems xs ys := by
  induction xs with
  | nil => intro ys; rfl
  | cons x xs ih =>
    intro ys
    obtain ⟨hx, hxs⟩ := List.forall_mem_cons.mp h
    cases ys with
    | nil => rfl
    | cons y ys => rw [List.map_cons, equalItems, equalItems, isNan_sortKeys, hx, ih hxs]

/-- The order of keys does not matter to equality. -/
theorem equal_sortKeys (v w : Json) : v.sortKeys.equal w = v.equal w := by
  cases v with
  | arr xs =>
    rw [sortKeys, sortKeysItems_eq]
    cases w with
    | arr ys => exact equalItems_sortKeys (fun x hx w => equal_sortKeys x w) ys
    | _ => rfl
  | obj ms =>
    cases w with
    | obj ns =>
      -- equality of objects asks lookups only
      rw [Bool.eq_iff_iff, sortKeys, equal_obj_iff, equal_obj_iff]
      refine forall_congr' fun key => ?_
      rw [lookup_sortMembers, sortKeysMembers_eq, lookup_map]
      cases hv : lookup key ms with
      | none => rfl
      | some v =>
        cases lookup key ns with
        | none => rfl
        | some u =>
          show same v.sortKeys u ↔ same v u
          rw [same, same, isNan_sortKeys, equal_sortKeys v u]
    | _ => rfl
  | _ => rfl
termination_by sizeOf v
decreasing_by
  · exact Document.sizeOf_lt_of_mem_arr hx
  · exact sizeOf_lt_of_get? hv

end Json

namespace Document

/-! ### Clean documents -/

/-- A value in which everything is read, in a form. -/
inductive IsClean : Form → Json → Prop where
  /-- A node has no keys but its own, and nothing is `null` under them.  Its flags are set, and
  its nullability says something. -/
  | node {members : List (String × Json)}
      (hkeys : ∀ key w, lookup key members = some w → w ≠ .null ∧
        ((∃ part, (key, part) ∈ nodeKeys) ∨ key ∈ ["type", "name"] ∨
          key ∈ ["optional", "repeatable"] ∧ w = .bool true ∨ key = "nullable" ∧ ∃ b, w = .bool b))
      (hparts : ∀ key part w, (key, part) ∈ nodeKeys → lookup key members = some w →
        IsClean part w) :
      IsClean .node (.obj members)
  | nodes {items : List Json} (hitems : ∀ w ∈ items, IsClean .node w) : IsClean .nodes (.arr items)
  /-- A field has the tag of fields, and no other keys but those of its parts. -/
  | field {members : List (String × Json)}
      (htype : lookup "type" members = some (.str Kind.field.tag))
      (hkeys : ∀ key w, lookup key members = some w → w ≠ .null ∧
        ((∃ part, (key, part) ∈ fieldKeys) ∨ key = "type"))
      (hparts : ∀ key part w, (key, part) ∈ fieldKeys → lookup key members = some w →
        IsClean part w) :
      IsClean .field (.obj members)
  | fields {items : List Json} (hitems : ∀ w ∈ items, IsClean .field w) :
      IsClean .fields (.arr items)

open Json

/-- A list is equal to its clean form when each of its items is. -/
theorem equalItems_clean_iff {form : Form} {items : List Json}
    (h : ∀ w ∈ items, (clean form w).same w ↔ IsClean form w) :
    equalItems (items.map (clean form)) items ↔ ∀ w ∈ items, IsClean form w := by
  induction items with
  | nil => simp [equalItems]
  | cons w items ih =>
    obtain ⟨hw, hitems⟩ := List.forall_mem_cons.mp h
    rw [List.map_cons, equalItems, Bool.and_eq_true, List.forall_mem_cons, ih hitems, ← hw]
    rfl

/-- What is taken from a key agrees with what stands there when each value is left, as it is. -/
theorem agreeOption_bind_iff {f : Json → Option Json} {o : Option Json} :
    Layer.agreeOption same (o.bind f) o ↔ ∀ w, o = some w → ∃ u, f w = some u ∧ u.same w := by
  cases o with
  | none => simp [Layer.agreeOption]
  | some w =>
    cases hu : f w with
    | none => simp [hu, Layer.agreeOption]
    | some u => simp [hu, Layer.agreeOption]

/-- A member is left as it is when it is a clean part or one of the members that are kept. -/
theorem exists_cleanMember_same_iff {form : Form} {key : String} {w : Json}
    (hparts : ∀ part, (key, part) ∈ form.keys → w ≠ .null →
      ((clean part w).same w ↔ IsClean part w)) :
    (∃ u, cleanMember form key w = some u ∧ u.same w) ↔
      w ≠ .null ∧ ((∃ part, (key, part) ∈ form.keys) ∨ form.keeps key w) ∧
        ∀ part, (key, part) ∈ form.keys → IsClean part w := by
  have hkeys : (form.keys.map Prod.fst).Nodup := by cases form <;> decide
  by_cases hw : w = .null
  · simp [hw, cleanMember_null]
  · cases hpart : lookup key form.keys with
    | some part =>
      -- a part: its key is listed once, so that there is one form to be clean in
      have hmem := mem_of_lookup_eq_some hpart
      rw [cleanMember_of_lookup hpart hw]
      constructor
      · rintro ⟨u, hu, hsame⟩
        obtain rfl := Option.some.inj hu
        refine ⟨hw, Or.inl ⟨part, hmem⟩, fun part' hmem' => ?_⟩
        have hpart' := lookup_eq_some_of_mem hkeys hmem'
        obtain rfl := Option.some.inj (hpart.symm.trans hpart')
        exact (hparts _ hmem hw).mp hsame
      · rintro ⟨-, -, hclean⟩
        exact ⟨_, rfl, (hparts part hmem hw).mpr (hclean part hmem)⟩
    | none =>
      -- no part: it is kept as it is, or not at all
      have hnot : ∀ part, (key, part) ∉ form.keys := fun part hmem => by
        rw [lookup_eq_some_of_mem hkeys hmem] at hpart
        exact absurd hpart (by simp)
      rw [cleanMember_of_lookup_eq_none hpart hw]
      constructor
      · rintro ⟨u, hu, -⟩
        refine ⟨hw, Or.inr ?_, fun part hmem => absurd hmem (hnot part)⟩
        by_cases hkeeps : form.keeps key w
        · exact hkeeps
        · rw [if_neg hkeeps] at hu
          exact absurd hu (by simp)
      · rintro ⟨-, hkeeps, -⟩
        rcases hkeeps with ⟨part, hmem⟩ | hkeeps
        · exact absurd hmem (hnot part)
        · exact ⟨w, by rw [if_pos hkeeps], same_self w⟩

theorem keeps_node_iff {key : String} {w : Json} :
    Form.node.keeps key w ↔ key ∈ ["type", "name"] ∨
      key ∈ ["optional", "repeatable"] ∧ w = .bool true ∨ key = "nullable" ∧ ∃ b, w = .bool b := by
  have htrue : w.isTrue ↔ w = .bool true := by cases w <;> simp [Json.isTrue]
  have hbool : w.isBool ↔ ∃ b, w = .bool b := by cases w <;> simp [Json.isBool]
  rw [Form.keeps, Bool.or_eq_true, Bool.or_eq_true, Bool.and_eq_true, Bool.and_eq_true, htrue,
    hbool, or_assoc]
  simp only [decide_eq_true_eq]

/-- A node is equal to its clean form when each member is left as it is. -/
theorem same_clean_node_iff_forall {ms : List (String × Json)} :
    (clean .node (.obj ms)).same (.obj ms) ↔
      ∀ key w, lookup key ms = some w → ∃ u, cleanMember .node key w = some u ∧ u.same w := by
  show (clean .node (.obj ms)).equal (.obj ms) ↔ _
  rw [clean, equal_obj_iff]
  simp only [lookup_entries_cleanMembers, agreeOption_bind_iff]

/-- A field is equal to its clean form when it has the tag of fields, and each other member is
left as it is. -/
theorem same_clean_field_iff_forall {ms : List (String × Json)} :
    (clean .field (.obj ms)).same (.obj ms) ↔
      lookup "type" ms = some (.str Kind.field.tag) ∧ ∀ key, key ≠ "type" → ∀ w,
        lookup key ms = some w → ∃ u, cleanMember .field key w = some u ∧ u.same w := by
  have htag : Layer.agreeOption same (some (.str Kind.field.tag)) (lookup "type" ms) ↔
      lookup "type" ms = some (.str Kind.field.tag) := by
    cases lookup "type" ms with
    | none => simp [Layer.agreeOption]
    | some w =>
      refine ⟨fun h => congrArg some (eq_str_of_same h), fun h => ?_⟩
      obtain rfl := Option.some.inj h
      exact same_self _
  have hleft : ∀ key, lookup key (("type", .str Kind.field.tag) ::
      entries (settled (cleanMembers .field ms))) =
      if key = "type" then some (.str Kind.field.tag)
      else (lookup key ms).bind (cleanMember .field key) := by
    intro key
    rw [lookup_cons]
    by_cases hkey : key = "type"
    · -- nothing that stood under this key is left beside the new tag
      rw [hkey, lookup_entries_field_eq_none (by decide), if_pos rfl, if_pos rfl]
      rfl
    · rw [if_neg (Ne.symm hkey), if_neg hkey, Option.or_none, lookup_entries_cleanMembers]
  show (clean .field (.obj ms)).equal (.obj ms) ↔ _
  rw [clean, equal_obj_iff, ← htag]
  simp only [hleft]
  constructor
  · intro h
    refine ⟨by simpa using h "type", fun key hkey => agreeOption_bind_iff.mp ?_⟩
    simpa only [if_neg hkey] using h key
  · rintro ⟨htype, hrest⟩ key
    by_cases hkey : key = "type"
    · rw [hkey, if_pos rfl]
      exact htype
    · rw [if_neg hkey]
      exact agreeOption_bind_iff.mpr (hrest key hkey)

/-- **A document is equal to its clean form exactly when it is clean.** -/
theorem same_clean_iff {form : Form} {v : Json} (h : WellFormed form v) :
    (clean form v).same v ↔ IsClean form v := by
  induction h with
  | @node ms tag htag hname _ ih =>
    rw [same_clean_node_iff_forall]
    have hmember := fun key w (hw : lookup key ms = some w) =>
      @exists_cleanMember_same_iff .node key w fun part hmem hne => ih key part w hmem hw hne
    constructor
    · intro hleft
      have hall := fun key w hw => (hmember key w hw).mp (hleft key w hw)
      exact .node (fun key w hw => ⟨(hall key w hw).1, (hall key w hw).2.1.imp_right
        keeps_node_iff.mp⟩) fun key part w hmem hw => (hall key w hw).2.2 part hmem
    · intro hclean key w hw
      cases hclean with
      | node hkeys hparts =>
        exact (hmember key w hw).mpr ⟨(hkeys key w hw).1,
          (hkeys key w hw).2.imp_right keeps_node_iff.mpr,
          fun part hmem => hparts key part w hmem hw⟩
  | @field ms _ ih =>
    rw [same_clean_field_iff_forall]
    have hmember := fun key w (hw : lookup key ms = some w) =>
      @exists_cleanMember_same_iff .field key w fun part hmem hne => ih key part w hmem hw hne
    constructor
    · -- the tag is given, and says that it is clean; every other member has to be a part
      rintro ⟨htype, hleft⟩
      have hall := fun key hkey w hw => (hmember key w hw).mp (hleft key hkey w hw)
      refine .field htype (fun key w hw => ?_) fun key part w hmem hw => ?_
      · by_cases hkey : key = "type"
        · subst hkey
          obtain rfl := Option.some.inj (htype.symm.trans hw)
          exact ⟨by simp, Or.inr rfl⟩
        · refine ⟨(hall key hkey w hw).1, (hall key hkey w hw).2.1.imp_right fun hkeeps => ?_⟩
          exact absurd hkeeps (by simp [Form.keeps])
      · have hkey : key ≠ "type" := by
          rintro rfl
          simp [fieldKeys] at hmem
        exact (hall key hkey w hw).2.2 part hmem
    · intro hclean
      cases hclean with
      | field htype hkeys hparts =>
        exact ⟨htype, fun key hkey w hw => (hmember key w hw).mpr ⟨(hkeys key w hw).1,
          (hkeys key w hw).2.imp_right fun h => absurd h hkey,
          fun part hmem => hparts key part w hmem hw⟩⟩
  | nodes _ ih =>
    show equalItems _ _ ↔ _
    rw [cleanItems_eq, equalItems_clean_iff ih]
    constructor
    · exact .nodes
    · intro hclean
      cases hclean with
      | nodes hitems => exact hitems
  | fields _ ih =>
    show equalItems _ _ ↔ _
    rw [cleanItems_eq, equalItems_clean_iff ih]
    constructor
    · exact .fields
    · intro hclean
      cases hclean with
      | fields hitems => exact hitems

end Document

open Document

/-- **Reading a document and writing its tree is cleaning.**  What is written for the tree of a
document is the clean form of the document, up to the order of keys.  The clean form is read as
the same tree, and what is written is equal to the document exactly when the document is clean. -/
theorem exists_toDocument?_of_ofDocument {d : Json} {n : Node} (h : Node.ofDocument d = .ok n) :
    ∃ e, n.toDocument? = some e ∧ e.sortKeys = (clean .node d).sortKeys ∧
      Node.ofDocument (clean .node d) = .ok n ∧ (e.equal d ↔ IsClean .node d) := by
  obtain ⟨e, he, hsort⟩ := exists_toDocument?_eq d [] n h
  refine ⟨e, he, hsort, (readNode_clean d []).trans h, ?_⟩
  -- what is written and the clean form differ in the order of keys, to which equality is blind
  have hwell : WellFormed .node d := exists_readNode_eq_ok_iff.mp ⟨n, h⟩
  rw [← same_clean_iff hwell, ← e.equal_sortKeys, hsort, (clean .node d).equal_sortKeys]
  cases hwell
  rfl

/-- A record with much that is not read, at several depths. -/
def decoratedRecord : Json :=
  .obj
    [("range", .arr [.int 0, .int 3]), ("type", .str "RecordType"), ("name", .null),
      ("optional", .int 1), ("repeatable", .bool true), ("nullable", .str "no"),
      ("fields", .arr [.obj [("type", .int 5), ("value", .null), ("x", .obj []),
        ("key", .obj [("name", .str "a"), ("loc", .null), ("type", .str "FieldType")])]]),
      ("elements", .arr []), ("params", .null),
      ("expression", .obj [("type", .str "NameExpression"), ("nullable", .bool false),
        ("optional", .bool false), ("name", .str "B")])]

/-- What is read of it. -/
def decoratedRecord.rest : Json :=
  .obj
    [("type", .str "RecordType"), ("repeatable", .bool true),
      ("fields", .arr [.obj [("type", .str "FieldType"),
        ("key", .obj [("name", .str "a"), ("type", .str "FieldType")])]]),
      ("elements", .arr []),
      ("expression", .obj [("type", .str "NameExpression"), ("nullable", .bool false),
        ("name", .str "B")])]

theorem decoratedRecord.accepted : ∃ n, Node.ofDocument decoratedRecord = .ok n := by
  have hfaults : faults .node [] decoratedRecord = [] := by decide +kernel
  exact exists_readNode_eq_ok_iff.mpr ((faults_eq_nil_iff_wellFormed _ _ _).mp hfaults)

theorem exists_toDocument?_of_ofDocument_decoratedRecord :
    ∃ n e, Node.ofDocument decoratedRecord = .ok n ∧ n.toDocument? = some e ∧
      e.sortKeys = decoratedRecord.rest.sortKeys ∧
      Node.ofDocument decoratedRecord.rest = .ok n ∧ ¬ e.equal decoratedRecord := by
  obtain ⟨n, hn⟩ := decoratedRecord.accepted
  obtain ⟨e, he, hsort, hread, hclean⟩ := exists_toDocument?_of_ofDocument hn
  have hrest : clean .node decoratedRecord = decoratedRecord.rest := rfl
  rw [hrest] at hsort hread
  refine ⟨n, e, hn, he, hsort, hread, fun hequal => ?_⟩
  -- a key without a value is enough to be not clean
  cases hclean.mp hequal with
  | node hkeys _ => exact (hkeys "name" .null rfl).1 rfl

end TypeText

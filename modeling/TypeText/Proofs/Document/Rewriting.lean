import TypeText.Proofs.Document.Cleaning
import TypeText.Proofs.Equality
import TypeText.Proofs.Json.KeyOrder

/-!
# Writing what was read

What is written for a tree that was read from a document is the clean form of the
document, up to the order of keys: nothing that was read is lost, and nothing is added.

## Main definitions

* `Document.WrittenClean v` — the tree of a value is written as its clean form.
* `Document.vocabulary` — all keys of a node.

## Main results

* `sortKeys_entries` — what is written for some keys, up to the order of keys.
* `exists_sequence?_eq`, `exists_required_eq`, `exists_writeFields_eq` — the parts of a node are
  written as their clean forms.
* `exists_toDocument?_eq` — **the tree of a document is written as its clean form.**
-/

set_option autoImplicit false

namespace TypeText

/-! ### Objects with given keys -/

/-- A lookup among values that are given by their keys. -/
theorem lookup_map_keys {α : Type} (f : String → α) (key : String) (keys : List String) :
    lookup key (keys.map fun k => (k, f k)) = if key ∈ keys then some (f key) else none := by
  induction keys with
  | nil => rfl
  | cons k keys ih =>
    rw [List.map_cons, lookup_cons, ih]
    by_cases hkey : k = key
    · subst hkey
      by_cases hmem : k ∈ keys <;> simp [hmem]
    · simp [hkey, Ne.symm hkey]

namespace Document

open Json

/-- An object that is written for some keys is, up to the order of keys, any object that has the
same values under these keys, and no others. -/
theorem sortKeys_entries {pairs : List (String × Option Json)} {keys : List String}
    {ms : List (String × Json)} (hkeys : keys.Nodup) (hms : (ms.map Prod.fst).Nodup)
    (hpairs : (pairs.map fun p => (p.1, p.2.map sortKeys)) =
      keys.map fun k => (k, (lookup k ms).map sortKeys))
    (hrest : ∀ key, key ∉ keys → lookup key ms = none) :
    (Json.obj (entries pairs)).sortKeys = (Json.obj ms).sortKeys := by
  have hfst : pairs.map Prod.fst = keys := by
    simpa [Function.comp_def] using congrArg (List.map Prod.fst) hpairs
  have hnodup : (pairs.map Prod.fst).Nodup := by rwa [hfst]
  refine sortKeys_obj_eq (nodup_entries hnodup) hms fun key => ?_
  have hlookup := congrArg (lookup key) hpairs
  rw [lookup_map, lookup_map_keys] at hlookup
  rw [lookup_entries key hnodup]
  by_cases hkey : key ∈ keys
  · -- the pair of this key says what is written, if anything is
    rw [if_pos hkey] at hlookup
    obtain ⟨o, ho, hvalue⟩ := Option.map_eq_some_iff.mp hlookup
    rw [ho]
    exact hvalue
  · rw [if_neg hkey] at hlookup
    rw [Option.map_eq_none_iff.mp hlookup, hrest key hkey]
    rfl

/-! ### Parts -/

section Parts

variable {v : Json} {path : Path}

/-- The tree of a value is written as the clean form of the value. -/
def WrittenClean (v : Json) : Prop :=
  ∀ path n, readNode path v = .ok n →
    ∃ e, n.toDocument? = some e ∧ e.sortKeys = (clean .node v).sortKeys

/-- What is read under a key is written as its clean form. -/
theorem exists_sequence?_eq (h : ∀ w, sizeOf w < sizeOf v → WrittenClean w) {key : String}
    {o : Option Node} (hread : readSlot path v key = .ok o) :
    ∃ e, sequence? (o.map Node.toDocument?) = some e ∧
      e.map sortKeys = (member? v key).map fun w => (clean .node w).sortKeys := by
  rw [readSlot_eq] at hread
  cases hmember : member? v key with
  | none =>
    rw [hmember] at hread
    obtain rfl := Except.ok.inj hread
    exact ⟨none, rfl, rfl⟩
  | some w =>
    rw [hmember] at hread
    obtain ⟨n, hn, rfl⟩ := map_eq_ok_iff.mp hread
    obtain ⟨e, he, hsort⟩ := h w (sizeOf_lt_of_member? hmember) _ n hn
    exact ⟨some e, by rw [Option.map_some, he]; rfl, congrArg some hsort⟩

/-- The items of a list are written as their clean forms. -/
theorem exists_mapM_join_eq {items : List Json} (h : ∀ w ∈ items, WrittenClean w) :
    ∀ {i : Nat} {os : List (Option Node)}, readItems path i items = .ok os →
      ∃ es, (os.map fun o => o.map Node.toDocument?).mapM Option.join = some es ∧
        es.map sortKeys = items.map fun w => (clean .node w).sortKeys := by
  induction items with
  | nil =>
    intro i os hread
    rw [readItems] at hread
    obtain rfl := Except.ok.inj hread
    exact ⟨[], rfl, rfl⟩
  | cons w items ih =>
    intro i os hread
    rw [readItems] at hread
    obtain ⟨n, hn, hread⟩ := bind_eq_ok_iff.mp hread
    obtain ⟨ns, hns, hread⟩ := bind_eq_ok_iff.mp hread
    obtain rfl := Except.ok.inj hread
    obtain ⟨e, he, hsort⟩ := h w List.mem_cons_self _ n hn
    obtain ⟨es, hes, hsorts⟩ := ih (fun x hx => h x (List.mem_cons_of_mem _ hx)) hns
    refine ⟨e :: es, ?_, by rw [List.map_cons, List.map_cons, hsort, hsorts]⟩
    rw [List.map_cons, List.mapM_cons, hes, Option.map_some, he]
    rfl

/-- Lists with the same items, up to the order of keys. -/
theorem sortKeys_arr_eq {form : Form} {es items : List Json}
    (h : es.map sortKeys = items.map fun w => (clean form w).sortKeys) :
    (Json.arr es).sortKeys = (Json.arr (cleanItems form items)).sortKeys := by
  rw [sortKeys, sortKeys, sortKeysItems_eq, sortKeysItems_eq, cleanItems_eq, List.map_map, h]
  rfl

/-- A list is written as its clean form. -/
theorem exists_required_eq (h : ∀ w, sizeOf w < sizeOf v → WrittenClean w) {key : String}
    {o : Option (List (Option Node))} (hread : readList path v key = .ok o) :
    ∃ es, required (o.map fun list => list.map fun item => item.map Node.toDocument?) = some es ∧
      (es.map Json.arr).map sortKeys =
        (member? v key).map fun w => (clean .nodes w).sortKeys := by
  rw [readList_eq] at hread
  cases hmember : member? v key with
  | none =>
    rw [hmember] at hread
    obtain rfl := Except.ok.inj hread
    exact ⟨none, rfl, rfl⟩
  | some w =>
    rw [hmember] at hread
    have hlt := sizeOf_lt_of_member? hmember
    cases w with
    | arr items =>
      obtain ⟨os, hos, rfl⟩ := map_eq_ok_iff.mp hread
      obtain ⟨es, hes, hsorts⟩ := exists_mapM_join_eq
        (fun x hx => h x (Nat.lt_trans (sizeOf_lt_of_mem_arr hx) hlt)) hos
      refine ⟨some es, by rw [Option.map_some, required, hes]; rfl, ?_⟩
      exact congrArg some (sortKeys_arr_eq hsorts)
    | _ => cases hread

/-- Where nothing is left of any value there is nothing in the clean object. -/
theorem lookup_entries_cleanMembers_eq_none {form : Form} {key : String}
    (h : ∀ w, cleanMember form key w = none) (ms : List (String × Json)) :
    lookup key (entries (settled (cleanMembers form ms))) = none := by
  rw [lookup_entries_cleanMembers]
  cases lookup key ms with
  | none => rfl
  | some w => exact h w

/-- Only its parts are left of a field. -/
theorem cleanMember_field_eq_none {key : String} (hkey : key ∉ ["key", "value"]) (w : Json) :
    cleanMember .field key w = none := by
  by_cases hw : w = .null
  · rw [hw]
    rfl
  · simp only [List.mem_cons, List.not_mem_nil, or_false, not_or] at hkey
    have hpart : lookup key Form.field.keys = none :=
      lookup_eq_none_of_not_mem (by simp [Form.keys, fieldKeys, hkey])
    rw [cleanMember_of_lookup_eq_none hpart hw]
    rfl

theorem lookup_entries_field_eq_none {key : String} (hkey : key ∉ ["key", "value"])
    (ms : List (String × Json)) :
    lookup key (entries (settled (cleanMembers .field ms))) = none :=
  lookup_entries_cleanMembers_eq_none (cleanMember_field_eq_none hkey) ms

/-- The tag of a field is never what stood there, so its key is free. -/
theorem nodup_clean_field (ms : List (String × Json)) :
    ((("type", Json.str Kind.field.tag) :: entries (settled (cleanMembers .field ms))).map
      Prod.fst).Nodup := by
  refine List.nodup_cons.mpr ⟨fun hmem => ?_, nodup_entries (nodup_settled _)⟩
  obtain ⟨m, hm, hm'⟩ := List.mem_map.mp hmem
  have hsome := isSome_lookup_of_mem hm
  rw [hm', lookup_entries_field_eq_none (by decide)] at hsome
  exact absurd hsome (by simp)

/-- A field is written as its clean form. -/
theorem exists_writeField_eq (h : ∀ w, sizeOf w < sizeOf v → WrittenClean w) {f : Field Node}
    (hread : readField path v = .ok f) :
    ∃ e, writeField (f.map Node.toDocument?) = some e ∧
      e.sortKeys = (clean .field v).sortKeys := by
  obtain ⟨⟨ms, rfl⟩, hkey, hvalue⟩ := readField_eq_ok_iff.mp hread
  obtain ⟨key, hkey, hsortKey⟩ := exists_sequence?_eq h hkey
  obtain ⟨value, hvalue, hsortValue⟩ := exists_sequence?_eq h hvalue
  refine ⟨_, writeField_eq_some_iff.mpr ⟨key, value, hkey, hvalue, rfl⟩, ?_⟩
  have htype : lookup "type" (entries (settled (cleanMembers .field ms))) = none :=
    lookup_entries_field_eq_none (by decide) ms
  rw [clean]
  refine sortKeys_entries (show ["type", "key", "value"].Nodup by decide) (nodup_clean_field ms)
    ?_ ?_
  · -- the tag is the same for all fields, and the two parts are clean
    have hkeyPart := get?_clean_part (show lookup "key" Form.field.keys = some .node from rfl)
      (.obj ms)
    have hvaluePart := get?_clean_part (show lookup "value" Form.field.keys = some .node from rfl)
      (.obj ms)
    rw [clean, get?_obj] at hkeyPart hvaluePart
    simp only [fieldPairs, List.map_cons, List.map_nil, hkeyPart, hvaluePart, hsortKey, hsortValue,
      Option.map_map]
    rw [lookup_cons, htype, if_pos rfl]
    rfl
  · intro key hkey
    rw [List.mem_cons, not_or] at hkey
    rw [lookup_cons, lookup_entries_field_eq_none hkey.2, if_neg (Ne.symm hkey.1)]
    rfl

/-- The fields of a list are written as their clean forms. -/
theorem exists_mapM_writeField_eq {items : List Json}
    (h : ∀ w ∈ items, ∀ x, sizeOf x < sizeOf w → WrittenClean x) :
    ∀ {i : Nat} {fs : List (Field Node)}, readFieldItems path i items = .ok fs →
      ∃ es, (fs.map fun f => f.map Node.toDocument?).mapM writeField = some es ∧
        es.map sortKeys = items.map fun w => (clean .field w).sortKeys := by
  induction items with
  | nil =>
    intro i fs hread
    rw [readFieldItems] at hread
    obtain rfl := Except.ok.inj hread
    exact ⟨[], rfl, rfl⟩
  | cons w items ih =>
    intro i fs hread
    rw [readFieldItems] at hread
    obtain ⟨f, hf, hread⟩ := bind_eq_ok_iff.mp hread
    obtain ⟨fs, hfs, hread⟩ := bind_eq_ok_iff.mp hread
    obtain rfl := Except.ok.inj hread
    obtain ⟨e, he, hsort⟩ := exists_writeField_eq (h w List.mem_cons_self) hf
    obtain ⟨es, hes, hsorts⟩ := ih (fun x hx => h x (List.mem_cons_of_mem _ hx)) hfs
    refine ⟨e :: es, ?_, by rw [List.map_cons, List.map_cons, hsort, hsorts]⟩
    rw [List.map_cons, List.mapM_cons, hes, he]
    rfl

/-- A list of fields is written as its clean form. -/
theorem exists_writeFields_eq (h : ∀ w, sizeOf w < sizeOf v → WrittenClean w)
    {o : Option (List (Field Node))} (hread : readFields path v = .ok o) :
    ∃ es, writeFields (o.map fun list => list.map fun f => f.map Node.toDocument?) = some es ∧
      (es.map Json.arr).map sortKeys =
        (member? v "fields").map fun w => (clean .fields w).sortKeys := by
  rw [readFields_eq] at hread
  cases hmember : member? v "fields" with
  | none =>
    rw [hmember] at hread
    obtain rfl := Except.ok.inj hread
    exact ⟨none, rfl, rfl⟩
  | some w =>
    rw [hmember] at hread
    have hlt := sizeOf_lt_of_member? hmember
    cases w with
    | arr items =>
      obtain ⟨fs, hfs, rfl⟩ := map_eq_ok_iff.mp hread
      obtain ⟨es, hes, hsorts⟩ := exists_mapM_writeField_eq
        (fun x hx y hy => h y (Nat.lt_trans hy (Nat.lt_trans (sizeOf_lt_of_mem_arr hx) hlt))) hfs
      refine ⟨some es, by rw [Option.map_some, writeFields, hes]; rfl, ?_⟩
      exact congrArg some (sortKeys_arr_eq hsorts)
    | _ => cases hread

end Parts

/-! ### Nodes -/

/-- All keys of a node. -/
def vocabulary : List String :=
  ["type", "name", "expression", "new", "this", "result", "elements", "applications", "params",
    "fields", "optional", "nullable", "repeatable"]

/-- Under other keys nothing is left of a node. -/
theorem cleanMember_node_eq_none {key : String} (hkey : key ∉ vocabulary) (w : Json) :
    cleanMember .node key w = none := by
  by_cases hw : w = .null
  · rw [hw]
    rfl
  · simp only [vocabulary, List.mem_cons, List.not_mem_nil, or_false, not_or] at hkey
    have hpart : lookup key Form.node.keys = none :=
      lookup_eq_none_of_not_mem (by simp [Form.keys, nodeKeys, hkey])
    rw [cleanMember_of_lookup_eq_none hpart hw]
    simp [Form.keeps, hkey]

section Node

variable {v : Json} {path : Path}

theorem exists_of_readTag_eq_ok {tag : String} (h : readTag path v = .ok tag) :
    ∃ ms, v = .obj ms ∧ lookup "type" ms = some (.str tag) := by
  cases v with
  | obj ms =>
    refine ⟨ms, rfl, ?_⟩
    rw [readTag] at h
    split at h
    · next tag' htag =>
      obtain rfl := Except.ok.inj h
      exact htag
    · cases h
  | _ => cases h

/-- What is written for a part is what is left under its key. -/
theorem map_sortKeys_part {ms : List (String × Json)} {key : String} {part : Form}
    {o : Option Json} (hkey : lookup key Form.node.keys = some part)
    (ho : o.map sortKeys = (member? (.obj ms) key).map fun w => (clean part w).sortKeys) :
    o.map sortKeys = ((lookup key ms).bind (cleanMember .node key)).map sortKeys := by
  have hleft := bind_cleanMember hkey (.obj ms)
  rw [get?_obj] at hleft
  rw [ho, hleft, Option.map_map]
  rfl

/-- A name that is read is left. -/
theorem bind_cleanMember_name {name : Option String} (h : readName path v = .ok name) :
    (v.get? "name").bind (cleanMember .node "name") = name.map .str := by
  rw [readName] at h
  -- no name, null, a string; anything else is not read
  split at h
  · next hget =>
    obtain rfl := Except.ok.inj h
    rw [hget]
    rfl
  · next hget =>
    obtain rfl := Except.ok.inj h
    rw [hget]
    rfl
  · next hget =>
    obtain rfl := Except.ok.inj h
    rw [hget]
    rfl
  · cases h

/-- A flag is left if it is set. -/
theorem bind_cleanMember_flag (v : Json) {key : String} (hkey : key ∈ ["optional", "repeatable"]) :
    (v.get? key).bind (cleanMember .node key) = flag? (readFlag v key) := by
  rw [readFlag]
  simp only [List.mem_cons, List.not_mem_nil, or_false] at hkey
  rcases v.get? key with _ | w
  · rfl
  · rcases hkey with rfl | rfl <;>
    · cases w with
      | bool b => cases b <;> rfl
      | _ => rfl

/-- A nullability is left if it says something. -/
theorem bind_cleanMember_nullable (v : Json) :
    (v.get? "nullable").bind (cleanMember .node "nullable") =
      nullable? (.ofFlag ((v.get? "nullable").getD .null)) := by
  rcases v.get? "nullable" with _ | w
  · rfl
  · cases w with
    | bool b => cases b <;> rfl
    | _ => rfl

/-- What stands under the shared key is the part that the kind reads. -/
theorem expression_assemble (v : Json) (tag : String) (name : Option String)
    (expression newType thisType result : Option Node)
    (members arguments params : Option (List (Option Node)))
    (fields : Option (List (Field Node))) :
    (assemble v tag name expression newType thisType result members arguments params
      fields).layer.expression = expression := by
  rw [assemble, Node.layer_mk, Layer.expression, Layer.kind?]
  dsimp only
  -- an application has it as its base, all others as their inner type
  split <;> rfl

end Node

/-- **The tree of a document is written as its clean form**, up to the order of keys. -/
theorem exists_toDocument?_eq (v : Json) : WrittenClean v := by
  -- by induction on the size, since a field stands between a node and the nodes in it
  have h : ∀ w, sizeOf w < sizeOf v → WrittenClean w := fun w _ => exists_toDocument?_eq w
  intro path n hread
  obtain ⟨tag, name, expression, newType, thisType, result, members, arguments, params, fields,
    htag, hname, hexpression, hnewType, hthisType, hresult, hmembers, harguments, hparams, hfields,
    rfl⟩ := readNode_eq_ok_iff.mp hread
  obtain ⟨ms, rfl, htype⟩ := exists_of_readTag_eq_ok htag
  obtain ⟨expression', hexpression, hsortExpression⟩ := exists_sequence?_eq h hexpression
  obtain ⟨newType', hnewType, hsortNewType⟩ := exists_sequence?_eq h hnewType
  obtain ⟨thisType', hthisType, hsortThisType⟩ := exists_sequence?_eq h hthisType
  obtain ⟨result', hresult, hsortResult⟩ := exists_sequence?_eq h hresult
  obtain ⟨members', hmembers, hsortMembers⟩ := exists_required_eq h hmembers
  obtain ⟨arguments', harguments, hsortArguments⟩ := exists_required_eq h harguments
  obtain ⟨params', hparams, hsortParams⟩ := exists_required_eq h hparams
  obtain ⟨fields', hfields, hsortFields⟩ := exists_writeFields_eq h hfields
  refine ⟨.obj (entries (nodePairs ((assemble (.obj ms) tag name expression newType thisType result
    members arguments params fields).layer.map Node.toDocument?) expression' newType' thisType'
    result' members' arguments' params' fields')), ?_, ?_⟩
  · rw [← Node.mk_layer (assemble _ _ _ _ _ _ _ _ _ _ _), Node.toDocument?_mk,
      writeLayer_eq_some_iff]
    refine ⟨expression', newType', thisType', result', members', arguments', params', fields', ?_,
      hnewType, hthisType, hresult, hmembers, harguments, hparams, hfields, rfl⟩
    rw [Layer.expression_map, expression_assemble, hexpression]
  · rw [clean]
    refine sortKeys_entries (show vocabulary.Nodup by decide) (nodup_entries (nodup_settled _)) ?_
      fun key hkey => ?_
    · -- under each key stands what is left of what was read there
      simp only [nodePairs, vocabulary, List.map_cons, List.map_nil, lookup_entries_cleanMembers,
        List.cons.injEq, Prod.mk.injEq, true_and, and_true]
      refine ⟨?_, ?_, map_sortKeys_part rfl hsortExpression, map_sortKeys_part rfl hsortNewType,
        map_sortKeys_part rfl hsortThisType, map_sortKeys_part rfl hsortResult,
        map_sortKeys_part rfl hsortMembers, map_sortKeys_part rfl hsortArguments,
        map_sortKeys_part rfl hsortParams, map_sortKeys_part rfl hsortFields, ?_, ?_, ?_⟩
      · rw [htype]
        rfl
      · exact congrArg (Option.map sortKeys) (bind_cleanMember_name hname).symm
      · exact congrArg (Option.map sortKeys) (bind_cleanMember_flag (.obj ms) (by decide)).symm
      · exact congrArg (Option.map sortKeys) (bind_cleanMember_nullable (.obj ms)).symm
      · exact congrArg (Option.map sortKeys) (bind_cleanMember_flag (.obj ms) (by decide)).symm
    · exact lookup_entries_cleanMembers_eq_none (cleanMember_node_eq_none hkey) ms
termination_by sizeOf v

end Document

end TypeText

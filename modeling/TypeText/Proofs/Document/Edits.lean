import Mathlib.Logic.Relation
import TypeText.Proofs.Document.Rewriting
import TypeText.Proofs.Document.Spelling

/-!
# Edits that reading does not see

A document can be edited in many ways without a difference to what is read from it: its
objects can be put in another order, and what is not read can be added, changed and taken
away, wherever it stands.  Such an edit leaves the clean form of the document as it is, up to
the order of keys.  Since a document is read as its clean form is, any number of edits
changes neither the tree nor the fault that is found.

## Main definitions

* `Document.Form.vocabulary` — the keys that are read of an object.
* `Document.Retouch form ms ns` — one edit of the members of an object.
* `Document.Edit form v w` — one edit of a value, at whatever depth.
* `Document.Edits v w` — any number of edits and of new orders, one after the other.

## Main results

* `lookup_splice`, `lookup_splice_of_ne` — lookups in an object where one member is put in.
* `leftUnder_replace`, `leftUnder_insert` — what a member that is replaced, or put in, changes.
* `Edit.sortKeys_clean` — **an edit leaves the clean form as it is.**
* `ofDocument_eq_of_edits` — so edited documents are read alike.
-/

set_option autoImplicit false

namespace TypeText

/-! ### One member of an object -/

section Splice

variable {α : Type}

/-- Under its own key a member is found, unless a later one is. -/
theorem lookup_splice (before after : List (String × α)) (key : String) (v : α) :
    lookup key (before ++ (key, v) :: after) = some ((lookup key after).getD v) := by
  rw [lookup_append, lookup_cons, if_pos rfl]
  cases lookup key after <;> rfl

/-- Under other keys it makes no difference. -/
theorem lookup_splice_of_ne (before after : List (String × α)) {key k : String} (hk : k ≠ key)
    (v : α) : lookup k (before ++ (key, v) :: after) = lookup k (before ++ after) := by
  rw [lookup_append, lookup_cons, if_neg (Ne.symm hk), Option.or_none, lookup_append]

end Splice

namespace Document

open Json

/-! ### Edits -/

/-- The keys that are read of an object in a form. -/
def Form.vocabulary : Form → List String
  | .node => Document.vocabulary
  | .field => ["key", "value"]
  | _ => []

/-- One edit of the members of an object that is read in a form: a key that is not read is added,
removed or given another value, or a key with nothing under it is added or removed. -/
inductive Retouch (form : Form) : List (String × Json) → List (String × Json) → Prop where
  | add {before after : List (String × Json)} {key : String} (w : Json)
      (hkey : key ∉ form.vocabulary) :
      Retouch form (before ++ after) (before ++ (key, w) :: after)
  | remove {before after : List (String × Json)} {key : String} (w : Json)
      (hkey : key ∉ form.vocabulary) :
      Retouch form (before ++ (key, w) :: after) (before ++ after)
  | change {before after : List (String × Json)} {key : String} (v w : Json)
      (hkey : key ∉ form.vocabulary) :
      Retouch form (before ++ (key, v) :: after) (before ++ (key, w) :: after)
  | addNull {before after : List (String × Json)} {key : String} (hkey : key ∈ form.vocabulary)
      (htype : key ≠ "type") (hnew : key ∉ (before ++ after).map Prod.fst) :
      Retouch form (before ++ after) (before ++ (key, .null) :: after)
  | removeNull {before after : List (String × Json)} {key : String} (hkey : key ∈ form.vocabulary)
      (htype : key ≠ "type") (hnew : key ∉ (before ++ after).map Prod.fst) :
      Retouch form (before ++ (key, .null) :: after) (before ++ after)

/-- One edit of a value that is read in a form. -/
inductive Edit : Form → Json → Json → Prop where
  | node {ms ns : List (String × Json)} (h : Retouch .node ms ns) : Edit .node (.obj ms) (.obj ns)
  | field {ms ns : List (String × Json)} (h : Retouch .field ms ns) :
      Edit .field (.obj ms) (.obj ns)
  /-- A flag that is not set gets another value by which it is not set. -/
  | flag {before after : List (String × Json)} {key : String} {v w : Json}
      (hkey : key ∈ ["optional", "repeatable"]) (hv : v ≠ .bool true) (hw : w ≠ .bool true) :
      Edit .node (.obj (before ++ (key, v) :: after)) (.obj (before ++ (key, w) :: after))
  /-- A nullability that says nothing gets another value that says nothing. -/
  | nullable {before after : List (String × Json)} {v w : Json} (hv : ∀ b, v ≠ .bool b)
      (hw : ∀ b, w ≠ .bool b) :
      Edit .node (.obj (before ++ ("nullable", v) :: after))
        (.obj (before ++ ("nullable", w) :: after))
  /-- A part of an object is edited. -/
  | part {form part : Form} {before after : List (String × Json)} {key : String} {v w : Json}
      (hkey : (key, part) ∈ form.keys) (h : Edit part v w) :
      Edit form (.obj (before ++ (key, v) :: after)) (.obj (before ++ (key, w) :: after))
  /-- An item of a list of nodes is edited. -/
  | nodes {before after : List Json} {v w : Json} (h : Edit .node v w) :
      Edit .nodes (.arr (before ++ v :: after)) (.arr (before ++ w :: after))
  /-- An item of a list of fields is edited. -/
  | fields {before after : List Json} {v w : Json} (h : Edit .field v w) :
      Edit .fields (.arr (before ++ v :: after)) (.arr (before ++ w :: after))

theorem Edit.ne_null {form : Form} {v w : Json} (h : Edit form v w) : v ≠ .null ∧ w ≠ .null := by
  cases h <;> simp

/-! ### What is left of an object -/

/-- What cleaning leaves of an object under a key, up to the order of keys in it. -/
def leftUnder (form : Form) (ms : List (String × Json)) (key : String) : Option Json :=
  ((lookup key ms).bind (cleanMember form key)).map sortKeys

section Left

variable {form : Form} {before after : List (String × Json)} {key : String} {v w : Json}

/-- A member can be replaced by one of which the same is left. -/
theorem leftUnder_replace
    (h : (cleanMember form key v).map sortKeys = (cleanMember form key w).map sortKeys)
    (k : String) :
    leftUnder form (before ++ (key, v) :: after) k =
      leftUnder form (before ++ (key, w) :: after) k := by
  by_cases hk : k = key
  · subst hk
    rw [leftUnder, leftUnder, lookup_splice, lookup_splice, Option.bind_some, Option.bind_some]
    cases lookup k after with
    | none => exact h
    -- a later member has the same key, and only it counts
    | some u => rfl
  · rw [leftUnder, leftUnder, lookup_splice_of_ne _ _ hk, lookup_splice_of_ne _ _ hk]

/-- A member of which nothing is left can be put in where nothing is left under its key. -/
theorem leftUnder_insert (hv : cleanMember form key v = none)
    (hold : ∀ u, lookup key (before ++ after) = some u → cleanMember form key u = none)
    (k : String) :
    leftUnder form (before ++ (key, v) :: after) k = leftUnder form (before ++ after) k := by
  by_cases hk : k = key
  · subst hk
    have hnothing : (lookup k (before ++ after)).bind (cleanMember form k) = none := by
      cases hlookup : lookup k (before ++ after) with
      | none => rfl
      | some u => exact hold u hlookup
    rw [leftUnder, leftUnder, hnothing, lookup_splice, Option.bind_some]
    cases hlater : lookup k after with
    | none => exact congrArg (Option.map sortKeys) hv
    | some u =>
      -- the later one counted before as well
      have hfound : lookup k (before ++ after) = some u := by rw [lookup_append, hlater]; rfl
      exact congrArg (Option.map sortKeys) (hold u hfound)
  · rw [leftUnder, leftUnder, lookup_splice_of_ne _ _ hk]

end Left

/-- Of a key that is not read nothing is left. -/
theorem cleanMember_eq_none {form : Form} {key : String} (hkey : key ∉ form.vocabulary) (w : Json) :
    cleanMember form key w = none := by
  cases form with
  | node => exact cleanMember_node_eq_none hkey w
  | field => exact cleanMember_field_eq_none hkey w
  | nodes => cases w <;> rfl
  | fields => cases w <;> rfl

/-- An edit of its members changes nothing that is left of an object. -/
theorem Retouch.leftUnder_eq {form : Form} {ms ns : List (String × Json)} (h : Retouch form ms ns) :
    leftUnder form ms = leftUnder form ns := by
  have hunread : ∀ {before after : List (String × Json)} {key : String} (w : Json),
      key ∉ form.vocabulary →
      leftUnder form (before ++ (key, w) :: after) = leftUnder form (before ++ after) := by
    intro before after key w hkey
    funext k
    exact leftUnder_insert (cleanMember_eq_none hkey w) (fun u _ => cleanMember_eq_none hkey u) k
  have hnull : ∀ {before after : List (String × Json)} {key : String},
      key ∉ (before ++ after).map Prod.fst →
      leftUnder form (before ++ (key, .null) :: after) = leftUnder form (before ++ after) := by
    intro before after key hnew
    funext k
    refine leftUnder_insert (cleanMember_null form key) (fun u hu => ?_) k
    rw [lookup_eq_none_of_not_mem hnew] at hu
    cases hu
  cases h with
  | add w hkey => exact (hunread w hkey).symm
  | remove w hkey => exact hunread w hkey
  | change v w hkey => rw [hunread v hkey, hunread w hkey]
  | addNull hkey htype hnew => exact (hnull hnew).symm
  | removeNull hkey htype hnew => exact hnull hnew

/-- Objects of which the same is left have the same clean form, up to the order of keys. -/
theorem sortKeys_clean_obj {form : Form} (hform : form = .node ∨ form = .field)
    {ms ns : List (String × Json)} (h : leftUnder form ms = leftUnder form ns) :
    (clean form (.obj ms)).sortKeys = (clean form (.obj ns)).sortKeys := by
  have hleft : ∀ key, (lookup key (entries (settled (cleanMembers form ms)))).map sortKeys =
      (lookup key (entries (settled (cleanMembers form ns)))).map sortKeys := by
    intro key
    rw [lookup_entries_cleanMembers, lookup_entries_cleanMembers]
    exact congrFun h key
  rcases hform with rfl | rfl
  · -- cleaning leaves each key once, so that lookups decide
    rw [clean, clean]
    exact sortKeys_obj_eq (nodup_entries (nodup_settled _)) (nodup_entries (nodup_settled _)) hleft
  · rw [clean, clean]
    refine sortKeys_obj_eq (nodup_clean_field ms) (nodup_clean_field ns) fun key => ?_
    rw [lookup_cons, lookup_cons, Option.map_or, Option.map_or, hleft key]

/-! ### Clean forms -/

theorem cleanMember_flag_eq_none {key : String} (hkey : key ∈ ["optional", "repeatable"]) {w : Json}
    (hw : w ≠ .bool true) : cleanMember .node key w = none := by
  simp only [List.mem_cons, List.not_mem_nil, or_false] at hkey
  rcases hkey with rfl | rfl <;>
  · cases w with
    | bool b =>
      cases b with
      | true => exact absurd rfl hw
      | false => rfl
    | _ => rfl

theorem cleanMember_nullable_eq_none {w : Json} (hw : ∀ b, w ≠ .bool b) :
    cleanMember .node "nullable" w = none := by
  cases w with
  | bool b => exact absurd rfl (hw b)
  | _ => rfl

/-- **An edit leaves the clean form as it is**, up to the order of keys. -/
theorem Edit.sortKeys_clean {form : Form} {v w : Json} (h : Edit form v w) :
    (clean form v).sortKeys = (clean form w).sortKeys := by
  induction h with
  | node h => exact sortKeys_clean_obj (.inl rfl) h.leftUnder_eq
  | field h => exact sortKeys_clean_obj (.inr rfl) h.leftUnder_eq
  | flag hkey hv hw =>
    refine sortKeys_clean_obj (.inl rfl) (funext (leftUnder_replace ?_))
    rw [cleanMember_flag_eq_none hkey hv, cleanMember_flag_eq_none hkey hw]
  | nullable hv hw =>
    refine sortKeys_clean_obj (.inl rfl) (funext (leftUnder_replace ?_))
    rw [cleanMember_nullable_eq_none hv, cleanMember_nullable_eq_none hw]
  | @part form part before after key v w hkey h ih =>
    -- only objects have parts under keys
    have hkeys : (form.keys.map Prod.fst).Nodup := by cases form <;> decide
    have hform : form = .node ∨ form = .field := by
      cases form <;> first | exact .inl rfl | exact .inr rfl | cases hkey
    have hpart : lookup key form.keys = some part := lookup_eq_some_of_mem hkeys hkey
    refine sortKeys_clean_obj hform (funext (leftUnder_replace ?_))
    rw [cleanMember_of_lookup hpart h.ne_null.1, cleanMember_of_lookup hpart h.ne_null.2]
    exact congrArg some ih
  | nodes _ ih =>
    simp only [clean, cleanItems_eq, sortKeys, sortKeysItems_eq, List.map_append, List.map_cons, ih]
  | fields _ ih =>
    simp only [clean, cleanItems_eq, sortKeys, sortKeysItems_eq, List.map_append, List.map_cons, ih]

/-- An edited document is read as before. -/
theorem Edit.readNode_eq {v w : Json} (h : Edit .node v w) (path : Path) :
    readNode path v = readNode path w := by
  calc
    readNode path v = readNode path (clean .node v).sortKeys := by
      rw [readNode_sortKeys, readNode_clean]
    _ = readNode path (clean .node w).sortKeys := by rw [h.sortKeys_clean]
    _ = readNode path w := by rw [readNode_sortKeys, readNode_clean]

/-- A document is edited any number of times: members of objects change places, at whatever depth,
or something changes that is not read. -/
def Edits : Json → Json → Prop :=
  Relation.ReflTransGen fun v w => v.Rearranged w ∨ Edit .node v w

end Document

open Document

/-- A document that is edited any number of times, where only the order of keys changes and what is
not read, is read as before: as the same tree, or with the same fault. -/
theorem ofDocument_eq_of_edits {d e : Json} (h : Edits d e) :
    Node.ofDocument d = Node.ofDocument e := by
  induction h with
  | refl => rfl
  | @tail v w _ hstep ih =>
    rw [ih]
    rcases hstep with hstep | hstep
    · -- reading does not see the order of keys
      calc
        readNode [] v = readNode [] v.sortKeys := (readNode_sortKeys v []).symm
        _ = readNode [] w.sortKeys := by rw [hstep.sortKeys_eq]
        _ = readNode [] w := readNode_sortKeys w []
    · exact hstep.readNode_eq []

/-- A union with a number for its parameters and an element without a tag, and with a flag, a field
and other members that are given. -/
def faultyUnion (flag : Json) (field others : List (String × Json)) : Json :=
  .obj
    ([("type", .str "TypeUnion"),
      ("elements", .arr
        [.obj [("optional", flag), ("type", .str "NullLiteral")], .obj [("name", .int 1)]]),
      ("params", .int 3), ("fields", .arr [.obj field])] ++ others)

namespace faultyUnion

/-- The union before it is edited. -/
def original : Json :=
  faultyUnion (.int 1) [("type", .int 5), ("key", .null)] [("range", .arr [])]

/-- The union with another flag, and without what is not read of its field and of itself, in another
order. -/
def edited : Json :=
  .obj
    [("fields", .arr [.obj [("type", .int 5)]]), ("params", .int 3), ("type", .str "TypeUnion"),
      ("elements", .arr
        [.obj [("optional", .str "no"), ("type", .str "NullLiteral")], .obj [("name", .int 1)]])]

theorem edits : Edits original edited := by
  have hflag : Edit .node original
      (faultyUnion (.str "no") [("type", .int 5), ("key", .null)] [("range", .arr [])]) :=
    @Edit.part .node .nodes [_] _ "elements" _ _ (by decide)
      (@Edit.nodes [] _ _ _ (@Edit.flag [] _ "optional" _ _ (by decide) (by simp) (by simp)))
  have hfield : Edit .node
      (faultyUnion (.str "no") [("type", .int 5), ("key", .null)] [("range", .arr [])])
      (faultyUnion (.str "no") [("type", .int 5)] [("range", .arr [])]) :=
    @Edit.part .node .fields [_, _, _] _ "fields" _ _ (by decide)
      (@Edit.fields [] [] _ _
        (.field (@Retouch.removeNull .field [_] [] "key" (by decide) (by decide) (by decide))))
  have hrange : Edit .node (faultyUnion (.str "no") [("type", .int 5)] [("range", .arr [])])
      (faultyUnion (.str "no") [("type", .int 5)] []) :=
    .node (@Retouch.remove .node [_, _, _, _] [] "range" _ (by decide))
  have horder : (faultyUnion (.str "no") [("type", .int 5)] []).Rearranged edited := by
    refine .members (by decide) ?_
    exact ((List.Perm.swap _ _ _).append_left [_, _]).trans List.perm_append_comm
  exact (((Relation.ReflTransGen.single (.inr hflag)).tail (.inr hfield)).tail
    (.inr hrange)).tail (.inl horder)

theorem read : Node.ofDocument original =
    .error ⟨[.key "elements", .index 1], .missingType⟩ := by
  have hfirst : fault? (Node.ofDocument original) = (faults .node [] original).head? :=
    fault?_readNode original []
  have hfaults : (faults .node [] original).head? =
      some ⟨[.key "elements", .index 1], .missingType⟩ := by
    decide +kernel
  rw [hfaults] at hfirst
  cases hread : Node.ofDocument original with
  | ok n => simp [hread, fault?] at hfirst
  | error f =>
    rw [hread] at hfirst
    exact congrArg Except.error (Option.some.inj hfirst)

end faultyUnion

theorem ofDocument_eq_of_edits_faultyUnion :
    Edits faultyUnion.original faultyUnion.edited ∧
      Node.ofDocument faultyUnion.edited =
        .error ⟨[.key "elements", .index 1], .missingType⟩ := by
  refine ⟨faultyUnion.edits, ?_⟩
  rw [← ofDocument_eq_of_edits faultyUnion.edits, faultyUnion.read]

end TypeText

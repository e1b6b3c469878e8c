import TypeText.Document.Text
import TypeText.Proofs.Document.Unseen
import TypeText.Proofs.Document.Writer
import TypeText.Proofs.Json.KeyOrder

/-!
# The text of a document

A tree is kept as a text, in which the keys of its document are ordered.  Reading looks
at a document only by its keys, so that the order does not matter; and the document of
a tree holds no value that its text could not give back.

## Main definitions

* `Document.WritesReadable` — the document of a tree is readable, if there is one.

## Main results

* `readNode_sortKeys` — **reading a document does not depend on the order of its keys.**
* `writesReadable_of_visits` — the document of a tree with readable tags is readable.
* `ofText_toText` — reading the text of a tree is reading its document.
-/

set_option autoImplicit false

namespace TypeText

namespace Document

open Json

/-! ### Ordered keys -/

section SortKeys

theorem member?_sortKeys (v : Json) (key : String) :
    member? v.sortKeys key = (member? v key).map sortKeys := by
  unfold member?
  rw [get?_sortKeys]
  rcases v.get? key with _ | w
  · rfl
  · cases w <;> rfl

theorem readTag_sortKeys (path : Path) (v : Json) : readTag path v.sortKeys = readTag path v := by
  cases v with
  | obj ms =>
    -- the tag is compared by its constructor, which ordering keeps
    have hget := get?_sortKeys (.obj ms) "type"
    rw [sortKeys] at hget ⊢
    rw [readTag, readTag, hget]
    rcases (Json.obj ms).get? "type" with _ | w
    · rfl
    · cases w <;> rfl
  | _ => rfl

theorem readName_sortKeys (path : Path) (v : Json) :
    readName path v.sortKeys = readName path v := by
  rw [readName, readName, get?_sortKeys]
  rcases v.get? "name" with _ | w
  · rfl
  · cases w <;> rfl

theorem readFlag_sortKeys (v : Json) (key : String) : readFlag v.sortKeys key = readFlag v key := by
  rw [readFlag, readFlag, get?_sortKeys]
  rcases v.get? key with _ | w
  · rfl
  · cases w <;> rfl

theorem ofFlag_sortKeys (v : Json) (key : String) :
    Nullability.ofFlag ((v.sortKeys.get? key).getD .null) = .ofFlag ((v.get? key).getD .null) := by
  rw [get?_sortKeys]
  rcases v.get? key with _ | w
  · rfl
  · cases w <;> rfl

/-- The order of keys is not seen. -/
theorem unseen_sortKeys : Unseen fun _ => sortKeys where
  typeName _ v := by cases v <;> rfl
  tag := readTag_sortKeys
  name := readName_sortKeys
  flag v key _ := readFlag_sortKeys v key
  nullable v := ofFlag_sortKeys v "nullable"
  part {_ _ key} _ v := member?_sortKeys v key
  nodes items := by rw [sortKeys, sortKeysItems_eq]
  fields items := by rw [sortKeys, sortKeysItems_eq]

/-- **Reading a document does not depend on the order of its keys.** -/
theorem readNode_sortKeys (v : Json) (path : Path) : readNode path v.sortKeys = readNode path v :=
  unseen_sortKeys.readNode v path

end SortKeys

/-! ### Readable documents -/

/-- What a sequence of steps gives comes from the steps. -/
theorem exists_of_mapM_eq_some {α β : Type} {f : α → Option β} :
    ∀ {as : List α} {bs : List β}, as.mapM f = some bs → ∀ b ∈ bs, ∃ a ∈ as, f a = some b := by
  intro as
  induction as with
  | nil => simp
  | cons a as ih =>
    intro bs h b hb
    simp only [List.mapM_cons, Option.bind_eq_bind, Option.bind_eq_some_iff, pure,
      Option.some.injEq] at h
    obtain ⟨c, hc, cs, hcs, rfl⟩ := h
    rcases List.mem_cons.mp hb with rfl | hb
    · exact ⟨a, List.mem_cons_self, hc⟩
    · obtain ⟨d, hd, hfd⟩ := ih hcs b hb
      exact ⟨d, List.mem_cons_of_mem _ hd, hfd⟩

/-- A tree whose document, if it has one, is readable. -/
def WritesReadable (n : Node) : Prop := ∀ d, n.toDocument? = some d → Readable d

theorem readable_entries {pairs : List (String × Option Json)}
    (h : ∀ p ∈ pairs, ∀ v ∈ p.2, Readable v) : Readable (.obj (entries pairs)) := by
  refine .obj fun m hm => ?_
  obtain ⟨⟨key, v⟩, hp, hm⟩ := List.mem_flatMap.mp hm
  cases v with
  | none => exact absurd hm List.not_mem_nil
  | some v =>
    obtain rfl := List.mem_singleton.mp hm
    exact h _ hp v rfl

theorem readable_slot {o : Option Node} {e : Option Json} (h : ∀ c ∈ o, WritesReadable c)
    (he : sequence? (o.map Node.toDocument?) = some e) : ∀ d ∈ e, Readable d := by
  cases o with
  | none =>
    obtain rfl := Option.some.inj he
    simp
  | some c =>
    rw [Option.map_some] at he
    cases hc : c.toDocument? with
    | none =>
      -- then the node has no document either
      simp [hc, sequence?] at he
    | some d =>
      rw [hc] at he
      obtain rfl := Option.some.inj he
      rintro d ⟨⟩
      exact h c rfl d hc

theorem readable_list {items : Option (List (Option Node))} {e : Option (List Json)}
    (h : ∀ c ∈ Layer.present items, WritesReadable c)
    (he : required (items.map fun list => list.map fun item => item.map Node.toDocument?) =
      some e) :
    ∀ v ∈ e.map Json.arr, Readable v := by
  cases items with
  | none =>
    obtain rfl := Option.some.inj he
    simp
  | some list =>
    obtain ⟨ds, hds, rfl⟩ := Option.map_eq_some_iff.mp he
    rintro v ⟨⟩
    refine .arr fun d hd => ?_
    obtain ⟨x, hx, hjoin⟩ := exists_of_mapM_eq_some hds d hd
    obtain ⟨item, hitem, rfl⟩ := List.mem_map.mp hx
    obtain ⟨c, rfl, hc⟩ := Option.map_eq_some_iff.mp (Option.join_eq_some_iff.mp hjoin)
    exact h c (Layer.mem_present.mpr ⟨list, rfl, hitem⟩) d hc

theorem readable_field {f : Field Node} {d : Json}
    (h : ∀ c, f.key = some c ∨ f.value = some c → WritesReadable c)
    (hd : writeField (f.map Node.toDocument?) = some d) : Readable d := by
  obtain ⟨key, value, hkey, hvalue, rfl⟩ := writeField_eq_some_iff.mp hd
  refine readable_entries ?_
  simp only [fieldPairs, List.forall_mem_cons]
  exact ⟨by rintro v ⟨⟩; exact .str _, readable_slot (fun c hc => h c (Or.inl hc)) hkey,
    readable_slot (fun c hc => h c (Or.inr hc)) hvalue, by simp⟩

theorem readable_fields {fields : Option (List (Field Node))} {e : Option (List Json)}
    (h : ∀ list ∈ fields, ∀ f ∈ list, ∀ c, f.key = some c ∨ f.value = some c → WritesReadable c)
    (he : writeFields (fields.map fun list => list.map fun f => f.map Node.toDocument?) = some e) :
    ∀ v ∈ e.map Json.arr, Readable v := by
  cases fields with
  | none =>
    obtain rfl := Option.some.inj he
    simp
  | some list =>
    obtain ⟨ds, hds, rfl⟩ := Option.map_eq_some_iff.mp he
    rintro v ⟨⟩
    refine .arr fun d hd => ?_
    obtain ⟨x, hx, hwrite⟩ := exists_of_mapM_eq_some hds d hd
    obtain ⟨f, hf, rfl⟩ := List.mem_map.mp hx
    exact readable_field (h list rfl f hf) hwrite

theorem readable_flag? (v : Json) : ∀ w ∈ flag? v, Readable w := by
  intro w hw
  unfold flag? at hw
  split at hw
  · cases hw
    exact .bool true
  · cases hw

theorem readable_nullable? (n : Nullability) : ∀ w ∈ nullable? n, Readable w := by
  intro w hw
  cases n <;> cases hw <;> exact .bool _

/-- The document of a node is readable when its tag and the documents of its written
subtrees are. -/
theorem writesReadable_mk {l : Layer Node} (htag : Readable l.tag)
    (h : ∀ c ∈ l.written, WritesReadable c) : WritesReadable (.mk l) := by
  intro d hd
  rw [Node.toDocument?_mk] at hd
  obtain ⟨expression, newType, thisType, result, members, arguments, params, fields, hexpression,
    hnewType, hthisType, hresult, hmembers, harguments, hparams, hfields, rfl⟩ :=
    writeLayer_eq_some_iff.mp hd
  rw [Layer.expression_map] at hexpression
  obtain ⟨hexpression', hnewType', hthisType', hresult', hmembers', harguments', hparams',
    hfields'⟩ := Layer.forall_mem_written.mp h
  refine readable_entries ?_
  simp only [nodePairs, List.forall_mem_cons]
  refine ⟨by rintro v ⟨⟩; exact htag, ?_, readable_slot hexpression' hexpression,
    readable_slot hnewType' hnewType, readable_slot hthisType' hthisType,
    readable_slot hresult' hresult, readable_list hmembers' hmembers,
    readable_list harguments' harguments, readable_list hparams' hparams,
    readable_fields hfields' hfields, readable_flag? _, readable_nullable? _, readable_flag? _,
    by simp⟩
  intro v hv
  obtain ⟨name, -, rfl⟩ := Option.map_eq_some_iff.mp hv
  exact .str name

/-- The document of a tree is readable when the tags of its visited nodes are. -/
theorem writesReadable_of_visits (n : Node) (h : ∀ m, n.Visits m → Readable m.layer.tag) :
    WritesReadable n := by
  induction n using Node.induct with
  | h l ih =>
    obtain ⟨htag, hbelow⟩ := Node.forall_visits_mk.mp h
    exact writesReadable_mk htag fun c hc =>
      ih c (Layer.mem_children_of_mem_written hc) (hbelow c hc)

end Document

/-! ### Texts -/

/-- A tree with a document has a text. -/
theorem Node.toText_of_toDocument? {n : Node} {d : Json} (hd : n.toDocument? = some d)
    (layout : Json.Layout) : Node.toText layout (some n) = .ok (Json.write layout d) := by
  rw [Node.toText, Node.toDocument, Option.bind_some, hd]
  rfl

/-- The text of a readable document is read as the document is. -/
theorem Node.ofText_write {d : Json} (hd : d.Readable) (layout : Json.Layout) :
    Node.ofText (Json.write layout d) = (Node.ofDocument d).mapError .fault := by
  rw [Node.ofText, Json.parse_write hd]
  exact congrArg (Except.mapError Error.fault) (Document.readNode_sortKeys d [])

/-- Reading the text of a tree comes out as reading its document does, in every layout: with
the same tree, or with the same fault. -/
theorem ofText_toText {n : Node} {d : Json} (hd : n.toDocument? = some d)
    (h : ∀ m, n.Visits m → m.layer.tag.Readable) (indent : Option Int) :
    ∃ text, Node.toText (.ofIndent indent) (some n) = .ok text ∧
      Node.ofText text = (Node.ofDocument d).mapError .fault :=
  ⟨_, Node.toText_of_toDocument? hd _,
    Node.ofText_write (Document.writesReadable_of_visits n h d hd) _⟩

/-- A name of characters that need escapes, before a node whose tag is a number. -/
def oddTree : Node :=
  .mk
    { tag := .str "NameExpression"
      name := some "\"\\\x7f\u2028😀"
      inner := some (.mk { tag := .int (-7), members := some [] })
      optional := .bool true }

/-- Its document. -/
def oddTree.document : Json :=
  .obj
    [("type", .str "NameExpression"), ("name", .str "\"\\\x7f\u2028😀"),
      ("expression", .obj [("type", .int (-7)), ("elements", .arr [])]), ("optional", .bool true)]

theorem oddTree.visits : ∀ m, oddTree.Visits m → m.layer.tag.Readable := by
  refine Node.forall_visits_mk.mpr ⟨.str _, fun c hc => ?_⟩
  obtain rfl := List.mem_singleton.mp hc
  exact Node.forall_visits_mk.mpr ⟨.int (by decide), fun c hc => absurd hc List.not_mem_nil⟩

theorem ofText_toText_oddTree :
    oddTree.toDocument? = some oddTree.document ∧
      (∀ m, oddTree.Visits m → m.layer.tag.Readable) ∧
      ∃ text, Node.toText (.ofIndent (some (-1))) (some oddTree) = .ok text ∧
        Node.ofText text = .error (.fault ⟨[.key "expression"], .missingType⟩) := by
  have hdocument : oddTree.toDocument? = some oddTree.document := rfl
  have hfault : Node.ofDocument oddTree.document = .error ⟨[.key "expression"], .missingType⟩ := by
    cbv
  obtain ⟨text, htext, hread⟩ := ofText_toText hdocument oddTree.visits (some (-1))
  rw [hfault] at hread
  exact ⟨hdocument, oddTree.visits, text, htext, hread⟩

end TypeText

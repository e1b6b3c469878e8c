import TypeText.Proofs.Document.Reader
import TypeText.Proofs.Document.Writer

/-!
# Reading back what was written

A document keeps everything of a tree that its kinds read.  What it loses is said by
`Node.normalize`: the part that shares its key with another one is dropped, and a flag
is only set or not set.

## Main definitions

* `Layer.normalize`, `Node.normalize` — what is left of a tree in its document.
* `Document.Describes d n` — `d` is read as `n`, wherever it stands.

## Main results

* `exists_slot`, `exists_items`, `exists_list`, `exists_fields` — the parts of a node are
  written as something that is read back.
* `survives_of_visits` — **a tree has a document, which describes its normal form.**
* `ofDocument_toDocument?` — the same for whole documents.
-/

set_option autoImplicit false

namespace TypeText

/-! ### Normal forms -/

namespace Layer

variable {α : Type}

/-- What is left of a node in its document: the part that its kind reads of the two that
share a key, and whether a flag is set. -/
def normalize (l : Layer α) : Layer α :=
  { l with
    inner := if l.kind? = some .application then none else l.inner
    base := if l.kind? = some .application then l.base else none
    optional := .bool l.optional.isTruthy
    repeatable := .bool l.repeatable.isTruthy }

end Layer

namespace Node

/-- What is left of a tree in its document. -/
def normalize : Node → Node := fold fun l => .mk l.normalize

theorem normalize_mk (l : Layer Node) : normalize (.mk l) = .mk (l.map normalize).normalize :=
  fold_mk _ l

end Node

namespace Document

/-! ### Documents of parts -/

/-- A value that is read as a tree, wherever it stands. -/
def Describes (d : Json) (n : Node) : Prop := ∀ path, readNode path d = .ok n

/-- A tree that has a document, from which its normal form is read. -/
def Survives (n : Node) : Prop := ∃ d, n.toDocument? = some d ∧ Describes d n.normalize

theorem Describes.ne_null {d : Json} {n : Node} (h : Describes d n) : d ≠ .null := by
  rintro rfl
  obtain ⟨tag, -, -, -, -, -, -, -, -, -, htag, -⟩ := readNode_eq_ok_iff.mp (h [])
  simp [readTag, fault] at htag

theorem member?_eq_get? {v : Json} {key : String} (h : ∀ w ∈ v.get? key, w ≠ .null) :
    member? v key = v.get? key := by
  unfold member?
  split
  · next hnull => exact absurd rfl (h _ hnull)
  · rfl

/-- A part that may be missing is written as something that is read back. -/
theorem exists_slot {o : Option Node} (h : ∀ c ∈ o, Survives c) :
    ∃ d, sequence? (o.map Node.toDocument?) = some d ∧
      ∀ path v key, v.get? key = d → readSlot path v key = .ok (o.map Node.normalize) := by
  cases o with
  | none =>
    -- nothing is written, and a missing key is read as no part
    refine ⟨none, rfl, fun path v key hget => ?_⟩
    rw [readSlot_eq, member?_eq_get? (by simp [hget]), hget]
    rfl
  | some c =>
    obtain ⟨d, hd, hdescribes⟩ := h c rfl
    refine ⟨some d, by rw [Option.map_some, hd]; rfl, fun path v key hget => ?_⟩
    rw [readSlot_eq, member?_eq_get? (by simp [hget, hdescribes.ne_null]), hget]
    dsimp only
    rw [hdescribes]
    rfl

/-- The items of a list are written as something that is read back. -/
theorem exists_items : ∀ {items : List (Option Node)}, none ∉ items →
    (∀ c, some c ∈ items → Survives c) →
    ∃ ds, (items.map fun item => item.map Node.toDocument?).mapM Option.join = some ds ∧
      ∀ path i, readItems path i ds = .ok (items.map fun item => item.map Node.normalize) := by
  intro items
  induction items with
  | nil =>
    intro _ _
    exact ⟨[], rfl, fun path i => by rw [readItems]; rfl⟩
  | cons item items ih =>
    -- a missing item would leave the list without a document, hence the hypothesis
    intro hsome h
    rw [List.mem_cons, not_or] at hsome
    obtain ⟨c, rfl⟩ := Option.ne_none_iff_exists'.mp (Ne.symm hsome.1)
    obtain ⟨d, hd, hdescribes⟩ := h c List.mem_cons_self
    obtain ⟨ds, hds, hread⟩ := ih hsome.2 fun c hc => h c (List.mem_cons_of_mem _ hc)
    refine ⟨d :: ds, ?_, fun path i => ?_⟩
    · rw [List.map_cons, List.mapM_cons, hds, Option.map_some, hd]
      rfl
    · rw [readItems, hdescribes, hread]
      rfl

/-- A list that may be missing is written as something that is read back. -/
theorem exists_list {items : Option (List (Option Node))} (hsome : ∀ list ∈ items, none ∉ list)
    (h : ∀ c ∈ Layer.present items, Survives c) :
    ∃ ds, required (items.map fun list => list.map fun item => item.map Node.toDocument?) =
        some ds ∧
      ∀ path v key, v.get? key = ds.map .arr → readList path v key =
        .ok (items.map fun list => list.map fun item => item.map Node.normalize) := by
  cases items with
  | none =>
    refine ⟨none, rfl, fun path v key hget => ?_⟩
    rw [readList_eq, member?_eq_get? (by simp [hget]), hget]
    rfl
  | some list =>
    obtain ⟨ds, hds, hread⟩ := exists_items (hsome list rfl)
      fun c hc => h c (Layer.mem_present.mpr ⟨list, rfl, hc⟩)
    refine ⟨some ds, by rw [Option.map_some, required, hds]; rfl, fun path v key hget => ?_⟩
    rw [readList_eq, member?_eq_get? (by simp [hget]), hget]
    dsimp only [Option.map_some]
    rw [hread]
    rfl

/-- A field is written as something that is read back. -/
theorem exists_field {f : Field Node} (hkey : ∀ c ∈ f.key, Survives c)
    (hvalue : ∀ c ∈ f.value, Survives c) :
    ∃ d, writeField (f.map Node.toDocument?) = some d ∧
      ∀ path, readField path d = .ok (f.map Node.normalize) := by
  obtain ⟨key, hkey, hreadKey⟩ := exists_slot hkey
  obtain ⟨value, hvalue, hreadValue⟩ := exists_slot hvalue
  refine ⟨_, writeField_eq_some_iff.mpr ⟨key, value, hkey, hvalue, rfl⟩, fun path => ?_⟩
  rw [readField, hreadKey path _ "key" (get?_field key value "key"),
    hreadValue path _ "value" (get?_field key value "value")]
  rfl

/-- The fields of a record are written as something that is read back. -/
theorem exists_fieldItems : ∀ {fields : List (Field Node)},
    (∀ f ∈ fields, ∀ c, f.key = some c ∨ f.value = some c → Survives c) →
    ∃ ds, (fields.map fun f => f.map Node.toDocument?).mapM writeField = some ds ∧
      ∀ path i, readFieldItems path i ds = .ok (fields.map fun f => f.map Node.normalize) := by
  intro fields
  induction fields with
  | nil =>
    intro _
    exact ⟨[], rfl, fun path i => by rw [readFieldItems]; rfl⟩
  | cons f fields ih =>
    intro h
    obtain ⟨d, hd, hreadField⟩ := exists_field (fun c hc => h f List.mem_cons_self c (Or.inl hc))
      fun c hc => h f List.mem_cons_self c (Or.inr hc)
    obtain ⟨ds, hds, hread⟩ := ih fun f hf => h f (List.mem_cons_of_mem _ hf)
    refine ⟨d :: ds, ?_, fun path i => ?_⟩
    · rw [List.map_cons, List.mapM_cons, hds, hd]
      rfl
    · rw [readFieldItems, hreadField, hread]
      rfl

/-- A list of fields that may be missing is written as something that is read back. -/
theorem exists_fields {fields : Option (List (Field Node))}
    (h : ∀ list ∈ fields, ∀ f ∈ list, ∀ c, f.key = some c ∨ f.value = some c → Survives c) :
    ∃ ds, writeFields (fields.map fun list => list.map fun f => f.map Node.toDocument?) =
        some ds ∧
      ∀ path v, v.get? "fields" = ds.map .arr → readFields path v =
        .ok (fields.map fun list => list.map fun f => f.map Node.normalize) := by
  cases fields with
  | none =>
    refine ⟨none, rfl, fun path v hget => ?_⟩
    rw [readFields_eq, member?_eq_get? (by simp [hget]), hget]
    rfl
  | some list =>
    obtain ⟨ds, hds, hread⟩ := exists_fieldItems (h list rfl)
    refine ⟨some ds, by rw [Option.map_some, writeFields, hds]; rfl, fun path v hget => ?_⟩
    rw [readFields_eq, member?_eq_get? (by simp [hget]), hget]
    dsimp only [Option.map_some]
    rw [hread]
    rfl

/-! ### Documents of trees -/

theorem readTag_of_get? {path : Path} {members : List (String × Json)} {tag : String}
    (h : (Json.obj members).get? "type" = some (.str tag)) :
    readTag path (.obj members) = .ok tag := by
  rw [readTag, h]

theorem readName_of_get? {path : Path} {v : Json} {name : Option String}
    (h : v.get? "name" = name.map .str) : readName path v = .ok name := by
  rw [readName, h]
  cases name <;> rfl

theorem readFlag_of_get? {v : Json} {key : String} {flag : Json} (h : v.get? key = flag? flag) :
    readFlag v key = .bool flag.isTruthy := by
  rw [readFlag, h, flag?]
  cases flag.isTruthy <;> rfl

theorem ofFlag_nullable? (n : Nullability) : Nullability.ofFlag ((nullable? n).getD .null) = n := by
  cases n <;> rfl

/-- What is put together from the parts of a normal form is the normal form. -/
theorem assemble_normalize {v : Json} {l : Layer Node} {tag : String} (htag : l.tag = .str tag)
    (hoptional : v.get? "optional" = flag? l.optional)
    (hnullable : v.get? "nullable" = nullable? l.nullable)
    (hrepeatable : v.get? "repeatable" = flag? l.repeatable) :
    assemble v tag l.name l.expression l.newType l.thisType l.result l.members l.arguments l.params
      l.fields = .mk l.normalize := by
  unfold assemble Layer.normalize Layer.expression
  rw [readFlag_of_get? hoptional, readFlag_of_get? hrepeatable, hnullable, ofFlag_nullable?,
    ← htag, Layer.kind?]
  -- the part under the shared key goes where the kind reads it
  split <;> rfl

/-- A node whose written subtrees have a document has one. -/
theorem survives_mk {l : Layer Node} {tag : String} (htag : l.tag = .str tag)
    (hcomplete : l.IsComplete) (h : ∀ c ∈ l.written, Survives c) : Survives (.mk l) := by
  obtain ⟨hexpression, hnewType, hthisType, hresult, hmembers, harguments, hparams, hfields⟩ :=
    Layer.forall_mem_written.mp h
  obtain ⟨expression, hexpression, hreadExpression⟩ := exists_slot hexpression
  obtain ⟨newType, hnewType, hreadNewType⟩ := exists_slot hnewType
  obtain ⟨thisType, hthisType, hreadThisType⟩ := exists_slot hthisType
  obtain ⟨result, hresult, hreadResult⟩ := exists_slot hresult
  obtain ⟨members, hmembers, hreadMembers⟩ := exists_list hcomplete.members hmembers
  obtain ⟨arguments, harguments, hreadArguments⟩ := exists_list hcomplete.arguments harguments
  obtain ⟨params, hparams, hreadParams⟩ := exists_list hcomplete.params hparams
  obtain ⟨fields, hfields, hreadFields⟩ := exists_fields hfields
  -- each key of the document holds what was written for its part
  have hget := get?_node (l.map Node.toDocument?) expression newType thisType result members
    arguments params fields
  refine ⟨.obj (entries (nodePairs (l.map Node.toDocument?) expression newType thisType result
    members arguments params fields)), ?_, fun path => readNode_eq_ok_iff.mpr ⟨tag, l.name, _, _, _,
      _, _, _, _, _, ?_, ?_, hreadExpression path _ "expression" (hget _),
      hreadNewType path _ "new" (hget _), hreadThisType path _ "this" (hget _),
      hreadResult path _ "result" (hget _), hreadMembers path _ "elements" (hget _),
      hreadArguments path _ "applications" (hget _), hreadParams path _ "params" (hget _),
      hreadFields path _ (hget _), ?_⟩⟩
  · rw [Node.toDocument?_mk, writeLayer_eq_some_iff]
    exact ⟨expression, newType, thisType, result, members, arguments, params, fields,
      by rw [Layer.expression_map]; exact hexpression, hnewType, hthisType, hresult, hmembers,
      harguments, hparams, hfields, rfl⟩
  · exact readTag_of_get? ((hget "type").trans (congrArg some htag))
  · exact readName_of_get? (hget "name")
  · rw [Node.normalize_mk, ← Layer.expression_map]
    exact (assemble_normalize (l := l.map Node.normalize) htag (hget _) (hget _) (hget _)).symm

/-- **A tree has a document, which describes its normal form**, when its visited nodes have
string tags and no missing items. -/
theorem survives_of_visits (n : Node)
    (h : ∀ m, n.Visits m → (∃ tag, m.layer.tag = .str tag) ∧ m.layer.IsComplete) : Survives n := by
  induction n using Node.induct with
  | h l ih =>
    obtain ⟨⟨⟨tag, htag⟩, hcomplete⟩, hbelow⟩ := Node.forall_visits_mk.mp h
    exact survives_mk htag hcomplete fun c hc =>
      ih c (Layer.mem_children_of_mem_written hc) (hbelow c hc)

end Document

/-! ### Round trips -/

/-- Reading the document of a tree gives its normal form, so that it gives the tree back
exactly when the tree is normal. -/
theorem ofDocument_toDocument? {n : Node}
    (h : ∀ m, n.Visits m → (∃ tag, m.layer.tag = .str tag) ∧ m.layer.IsComplete) :
    ∃ d, n.toDocument? = some d ∧ Node.ofDocument d = .ok n.normalize ∧
      (Node.ofDocument d = .ok n ↔ n.normalize = n) ∧
      ((∃ m, Node.ofDocument d = .ok m ∧ m.equal n) ↔ n.normalize.equal n) := by
  obtain ⟨d, hd, hdescribes⟩ := Document.survives_of_visits n h
  have hread : Node.ofDocument d = .ok n.normalize := hdescribes []
  refine ⟨d, hd, hread, ?_, ?_⟩
  · rw [hread, Except.ok.injEq]
  · simp only [hread, Except.ok.injEq, exists_eq_left']

/-- An application with a part that its kind does not read, which could not be written, above
a node of no known kind with an empty field. -/
def lossyTree : Node :=
  .mk
    { tag := .str "TypeApplication"
      name := some ""
      inner := some (.mk { tag := .null, members := some [none] })
      base := some (.mk
        { tag := .str "Mystery", base := some (.mk { tag := .int 3 }), fields := some [⟨none, none⟩]
          nullable := .nonNullable })
      arguments := some []
      optional := .int 2
      repeatable := .null }

/-- What is left of it. -/
def lossyTree.rest : Node :=
  .mk
    { tag := .str "TypeApplication"
      name := some ""
      base := some (.mk
        { tag := .str "Mystery", fields := some [⟨none, none⟩], nullable := .nonNullable })
      arguments := some []
      optional := .bool true }

theorem lossyTree.visits : ∀ m, lossyTree.Visits m →
    (∃ tag, m.layer.tag = .str tag) ∧ m.layer.IsComplete := by
  refine Node.forall_visits_mk.mpr ⟨⟨⟨_, rfl⟩, by constructor <;> simp⟩, fun c hc => ?_⟩
  obtain rfl := List.mem_singleton.mp hc
  exact Node.forall_visits_mk.mpr ⟨⟨⟨_, rfl⟩, by constructor <;> simp⟩,
    fun c hc => absurd hc List.not_mem_nil⟩

theorem ofDocument_toDocument?_lossyTree :
    (∀ m, lossyTree.Visits m → (∃ tag, m.layer.tag = .str tag) ∧ m.layer.IsComplete) ∧
      ∃ d, lossyTree.toDocument? = some d ∧ Node.ofDocument d = .ok lossyTree.rest := by
  obtain ⟨d, hd, hread, -⟩ := ofDocument_toDocument? lossyTree.visits
  exact ⟨lossyTree.visits, d, hd, hread⟩

end TypeText

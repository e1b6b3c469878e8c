import TypeText.Proofs.Document.FaultPaths
import TypeText.Proofs.Document.Writer

/-!
# Positions in a document

A tree has a document unless a list of a node that is written has a missing item.  What is
below a part that is not written does not matter.

The document of a tree shows the nodes that are written at the same positions as the tree:
each slot of a node is one to three steps in its document, and the steps of a position lead
to the document of the node there.

## Main definitions

* `View.document` — what a document holds of a tree, in the order of reading.
* `Slot.steps`, `Position.steps` — the path in a document to a position of the tree.

## Main results

* `Node.visits_iff` — the visited nodes are those at the positions of the view.
* `exists_toDocument?_iff` — **a tree has a document exactly if no visited node lacks an
  item of a list.**
* `exists_follow?_steps` — **the steps of a position lead to the document of the node there.**
-/

set_option autoImplicit false

namespace TypeText

/-! ### The view of a document -/

/-- Whether a node of a kind writes what stands in a slot. -/
def Slot.isWrittenBy (kind : Option Kind) : Slot → Bool
  | .inner => kind ≠ some .application
  | .base => kind = some .application
  | _ => true

namespace Layer

variable {α : Type}

/-- Of the two slots that share a key the kind opens the one that is written. -/
theorem expressionSlot_eq_iff {l : Layer α} {s : Slot} {c : α} :
    s = l.expressionSlot ∧ l.expression = some c ↔
      (s = .inner ∨ s = .base) ∧ Slot.isWrittenBy l.kind? s ∧ l.at? s = some c := by
  unfold expressionSlot expression
  by_cases happ : l.kind? = some .application
  · rw [if_pos happ, if_pos happ]
    constructor
    · rintro ⟨rfl, hc⟩
      exact ⟨Or.inr rfl, by simp [Slot.isWrittenBy, happ], hc⟩
    · rintro ⟨rfl | rfl, hopen, hc⟩
      · -- an application writes no type after a name
        simp [Slot.isWrittenBy, happ] at hopen
      · exact ⟨rfl, hc⟩
  · rw [if_neg happ, if_neg happ]
    constructor
    · rintro ⟨rfl, hc⟩
      exact ⟨Or.inl rfl, by simp [Slot.isWrittenBy, happ], hc⟩
    · rintro ⟨rfl | rfl, hopen, hc⟩
      · exact ⟨rfl, hc⟩
      · simp [Slot.isWrittenBy, happ] at hopen

theorem mem_writtenParts {l : Layer α} {s : Slot} {c : α} :
    (s, c) ∈ l.writtenParts ↔ Slot.isWrittenBy l.kind? s ∧ l.at? s = some c := by
  simp only [writtenParts, List.mem_append, mem_slotted, mem_numbered, mem_numberedFields,
    expressionSlot_eq_iff]
  cases s <;> simp [at?, Slot.isWrittenBy]

end Layer

/-- What a document holds of a tree. -/
def View.document : View where
  isOpen := Slot.isWrittenBy
  parts := Layer.writtenParts
  parts_map := Layer.writtenParts_map
  mem_parts := Layer.mem_writtenParts

/-- The visited nodes are those at the positions of the view. -/
theorem Node.visits_iff {n m : Node} : n.Visits m ↔ ∃ p, n.follow? .document p = some m := by
  constructor
  · -- every step of a visit opens one slot
    intro h
    induction h with
    | root n => exact ⟨[], rfl⟩
    | @step l c m hc _ ih =>
      obtain ⟨p, hp⟩ := ih
      obtain ⟨⟨s, c⟩, hmem, rfl⟩ := List.mem_map.mp hc
      exact ⟨s :: p, follow?_cons_eq_some_iff.mpr ⟨c, hmem, hp⟩⟩
  · -- and every slot of a position is one step of a visit
    rintro ⟨p, hp⟩
    induction p generalizing n with
    | nil =>
      obtain rfl : n = m := Option.some.inj hp
      exact .root n
    | cons s p ih =>
      obtain ⟨c, hmem, hc⟩ := follow?_cons_eq_some_iff.mp hp
      have hwritten : c ∈ n.layer.written := List.mem_map.mpr ⟨(s, c), hmem, rfl⟩
      cases n with
      | mk l => exact .step hwritten (ih hc)

namespace Document

/-! ### Which trees have a document -/

/-- A list of steps that may fail gives what its first step and the other steps give. -/
theorem mapM_cons_eq_some_iff {α β : Type} {f : α → Option β} {a : α} {as : List α}
    {bs : List β} :
    (a :: as).mapM f = some bs ↔ ∃ b, f a = some b ∧ ∃ cs, as.mapM f = some cs ∧ b :: cs = bs := by
  simp only [List.mapM_cons, Option.bind_eq_bind, Option.bind_eq_some_iff, pure, Option.some.injEq]

/-- A list of steps gives a list of results exactly if each step gives one. -/
theorem exists_mapM_eq_some_iff {α β : Type} {f : α → Option β} {as : List α} :
    (∃ bs, as.mapM f = some bs) ↔ ∀ a ∈ as, ∃ b, f a = some b := by
  induction as with
  | nil => simp
  | cons a as ih =>
    rw [List.forall_mem_cons, ← ih]
    simp only [mapM_cons_eq_some_iff]
    constructor
    · rintro ⟨_, b, hb, bs, hbs, -⟩
      exact ⟨⟨b, hb⟩, bs, hbs⟩
    · rintro ⟨⟨b, hb⟩, bs, hbs⟩
      exact ⟨b :: bs, b, hb, bs, hbs, rfl⟩

theorem exists_map_some_mapM_iff {α β : Type} {f : α → Option β} {as : List α} :
    (∃ e, (as.mapM f).map some = some e) ↔ ∀ a ∈ as, ∃ b, f a = some b := by
  rw [← exists_mapM_eq_some_iff]
  cases as.mapM f <;> simp

/-- The result at a number is that of the step at this number. -/
theorem exists_getElem?_of_mapM_eq_some {α β : Type} {f : α → Option β} :
    ∀ {as : List α} {bs : List β}, as.mapM f = some bs → ∀ {i : Nat} {a : α}, as[i]? = some a →
      ∃ b, f a = some b ∧ bs[i]? = some b := by
  intro as
  induction as with
  | nil => simp
  | cons a as ih =>
    intro bs h i x hx
    obtain ⟨b, hb, cs, hcs, rfl⟩ := mapM_cons_eq_some_iff.mp h
    cases i with
    | zero =>
      obtain rfl : a = x := Option.some.inj hx
      exact ⟨b, hb, rfl⟩
    | succ i => exact ih hcs hx

theorem exists_sequence?_iff {o : Option Node} :
    (∃ e, sequence? (o.map Node.toDocument?) = some e) ↔ ∀ c ∈ o, ∃ d, c.toDocument? = some d := by
  cases o with
  | none => simp [sequence?]
  | some c => cases hc : c.toDocument? <;> simp [sequence?, hc]

theorem exists_required_iff {items : Option (List (Option Node))} :
    (∃ e, required (items.map fun list => list.map fun item => item.map Node.toDocument?) =
        some e) ↔
      (∀ list ∈ items, none ∉ list) ∧ ∀ c ∈ Layer.present items, ∃ d, c.toDocument? = some d := by
  cases items with
  | none => simp [required]
  | some list =>
    -- an item has to be there, and to have a document
    have hitem : ∀ item : Option Node, (∃ d, (item.map Node.toDocument?).join = some d) ↔
        item ≠ none ∧ ∀ c, item = some c → ∃ d, c.toDocument? = some d := by
      intro item
      cases item <;> simp
    rw [Option.map_some, required, exists_map_some_mapM_iff, List.forall_mem_map]
    simp only [hitem]
    constructor
    · intro h
      refine ⟨?_, fun c hc => ?_⟩
      · rintro _ ⟨⟩ hmem
        exact (h none hmem).1 rfl
      · obtain ⟨_, ⟨⟩, hc⟩ := Layer.mem_present.mp hc
        exact (h (some c) hc).2 c rfl
    · rintro ⟨hsome, hall⟩ item hitem
      refine ⟨?_, ?_⟩
      · rintro rfl
        exact hsome list rfl hitem
      · rintro c rfl
        exact hall c (Layer.mem_present.mpr ⟨list, rfl, hitem⟩)

theorem exists_writeField_iff {f : Field Node} :
    (∃ d, writeField (f.map Node.toDocument?) = some d) ↔
      ∀ c, f.key = some c ∨ f.value = some c → ∃ d, c.toDocument? = some d := by
  have hparts : (∃ d, writeField (f.map Node.toDocument?) = some d) ↔
      (∃ e, sequence? (f.key.map Node.toDocument?) = some e) ∧
        ∃ e, sequence? (f.value.map Node.toDocument?) = some e := by
    simp only [writeField_eq_some_iff]
    constructor
    · rintro ⟨_, key, value, hkey, hvalue, -⟩
      exact ⟨⟨key, hkey⟩, value, hvalue⟩
    · rintro ⟨⟨key, hkey⟩, value, hvalue⟩
      exact ⟨_, key, value, hkey, hvalue, rfl⟩
  rw [hparts, exists_sequence?_iff, exists_sequence?_iff]
  simp only [Option.mem_def, or_imp, forall_and]

theorem exists_writeFields_iff {fields : Option (List (Field Node))} :
    (∃ e, writeFields (fields.map fun list => list.map fun f => f.map Node.toDocument?) =
        some e) ↔
      ∀ list ∈ fields, ∀ f ∈ list, ∀ c, f.key = some c ∨ f.value = some c →
        ∃ d, c.toDocument? = some d := by
  cases fields with
  | none => simp [writeFields]
  | some list =>
    rw [Option.map_some, writeFields, exists_map_some_mapM_iff, List.forall_mem_map]
    simp only [exists_writeField_iff, Option.mem_some_iff, forall_eq']

/-- A node has a document exactly if its lists are complete and all that it writes has one. -/
theorem exists_toDocument?_mk_iff {l : Layer Node} :
    (∃ d, (Node.mk l).toDocument? = some d) ↔
      l.IsComplete ∧ ∀ c ∈ l.written, ∃ d, c.toDocument? = some d := by
  rw [Node.toDocument?_mk, Layer.forall_mem_written, ← exists_sequence?_iff,
    ← exists_sequence?_iff, ← exists_sequence?_iff, ← exists_sequence?_iff,
    ← exists_writeFields_iff]
  simp only [writeLayer_eq_some_iff, Layer.expression_map]
  constructor
  · -- the three lists say both that they are complete and that their items are written
    rintro ⟨_, expression, newType, thisType, result, members, arguments, params, fields,
      hexpression, hnewType, hthisType, hresult, hmembers, harguments, hparams, hfields, -⟩
    obtain ⟨hmembers, hmembers'⟩ := exists_required_iff.mp ⟨_, hmembers⟩
    obtain ⟨harguments, harguments'⟩ := exists_required_iff.mp ⟨_, harguments⟩
    obtain ⟨hparams, hparams'⟩ := exists_required_iff.mp ⟨_, hparams⟩
    exact ⟨⟨hmembers, harguments, hparams⟩, ⟨_, hexpression⟩, ⟨_, hnewType⟩, ⟨_, hthisType⟩,
      ⟨_, hresult⟩, hmembers', harguments', hparams', _, hfields⟩
  · rintro ⟨⟨hmembers, harguments, hparams⟩, ⟨expression, hexpression⟩, ⟨newType, hnewType⟩,
      ⟨thisType, hthisType⟩, ⟨result, hresult⟩, hmembers', harguments', hparams', fields, hfields⟩
    obtain ⟨members, hmembers⟩ := exists_required_iff.mpr ⟨hmembers, hmembers'⟩
    obtain ⟨arguments, harguments⟩ := exists_required_iff.mpr ⟨harguments, harguments'⟩
    obtain ⟨params, hparams⟩ := exists_required_iff.mpr ⟨hparams, hparams'⟩
    exact ⟨_, expression, newType, thisType, result, members, arguments, params, fields,
      hexpression, hnewType, hthisType, hresult, hmembers, harguments, hparams, hfields, rfl⟩

/-- **A tree has a document exactly if no visited node lacks an item of a list.** -/
theorem exists_toDocument?_iff (n : Node) :
    (∃ d, n.toDocument? = some d) ↔ ∀ m, n.Visits m → m.layer.IsComplete := by
  induction n using Node.induct with
  | h l ih =>
    rw [exists_toDocument?_mk_iff, Node.forall_visits_mk, Node.layer_mk]
    refine and_congr_right fun _ => forall₂_congr fun c hc => ?_
    exact ih c (Layer.mem_children_of_mem_written hc)

end Document

/-! ### Positions and paths -/

/-- The steps in the document of a node to what stands in a slot. -/
def Slot.steps : Slot → Path
  | .inner | .base => [.key "expression"]
  | .newType => [.key "new"]
  | .thisType => [.key "this"]
  | .result => [.key "result"]
  | .member i => [.key "elements", .index i]
  | .argument i => [.key "applications", .index i]
  | .param i => [.key "params", .index i]
  | .key i => [.key "fields", .index i, .key "key"]
  | .value i => [.key "fields", .index i, .key "value"]

/-- The path in the document of a tree to a position of the tree. -/
def Position.steps (p : Position) : Path := p.flatMap Slot.steps

theorem Layer.steps_expressionSlot {α : Type} (l : Layer α) :
    l.expressionSlot.steps = [.key "expression"] := by
  unfold expressionSlot
  split <;> rfl

theorem Json.follow?_append {v w : Json} {segments : List String}
    (h : v.follow? segments = some w) (rest : List String) :
    v.follow? (segments ++ rest) = w.follow? rest := by
  rw [follow?] at h ⊢
  rw [List.foldlM_append, h]
  rfl

/-- The first step goes to what stands under a key. -/
theorem Json.follow?_cons_key {v w : Json} {key : String} (h : v.get? key = some w)
    (rest : List String) : v.follow? ((Path.Step.key key).text :: rest) = w.follow? rest := by
  have hstep : v.follow? [key] = some w := by simp [follow?, child?_eq_get? h]
  exact follow?_append hstep rest

/-- The first step goes to an item. -/
theorem Json.follow?_cons_index {items : List Json} {w : Json} {i : Nat} (h : items[i]? = some w)
    (rest : List String) :
    (Json.arr items).follow? ((Path.Step.index i).text :: rest) = w.follow? rest := by
  have hstep : (Json.arr items).follow? [(Path.Step.index i).text] = some w := by
    simp [follow?, child?, Path.index?_text, h]
  exact follow?_append hstep rest

namespace Document

theorem exists_of_sequence? {o : Option Node} {e : Option Json}
    (he : sequence? (o.map Node.toDocument?) = some e) {c : Node} (hc : o = some c) :
    ∃ w, c.toDocument? = some w ∧ e = some w := by
  rw [hc, Option.map_some] at he
  cases hw : c.toDocument? with
  | none => simp [sequence?, hw] at he
  | some w =>
    rw [hw] at he
    exact ⟨w, rfl, (Option.some.inj he).symm⟩

theorem exists_of_required {items : Option (List (Option Node))} {e : Option (List Json)}
    (he : required (items.map fun list => list.map fun item => item.map Node.toDocument?) = some e)
    {i : Nat} {c : Node} (hc : (items.getD [])[i]?.join = some c) :
    ∃ ds w, e = some ds ∧ ds[i]? = some w ∧ c.toDocument? = some w := by
  cases items with
  | none => simp at hc
  | some list =>
    rw [Option.getD_some, Option.join_eq_some_iff] at hc
    obtain ⟨ds, hds, rfl⟩ := Option.map_eq_some_iff.mp he
    rw [List.mapM_map] at hds
    obtain ⟨w, hw, hi⟩ := exists_getElem?_of_mapM_eq_some hds hc
    exact ⟨ds, w, rfl, hi, hw⟩

theorem exists_of_writeFields {fields : Option (List (Field Node))} {e : Option (List Json)}
    (he : writeFields (fields.map fun list => list.map fun f => f.map Node.toDocument?) = some e)
    {i : Nat} {f : Field Node} (hf : (fields.getD [])[i]? = some f) :
    ∃ ds w, e = some ds ∧ ds[i]? = some w ∧ writeField (f.map Node.toDocument?) = some w := by
  cases fields with
  | none => simp at hf
  | some list =>
    rw [Option.getD_some] at hf
    obtain ⟨ds, hds, rfl⟩ := Option.map_eq_some_iff.mp he
    rw [List.mapM_map] at hds
    obtain ⟨w, hw, hi⟩ := exists_getElem?_of_mapM_eq_some hds hf
    exact ⟨ds, w, rfl, hi, hw⟩

/-- The steps of a slot lead to the document of what stands there. -/
theorem exists_follow?_slot {l : Layer Node} {d : Json} (hd : (Node.mk l).toDocument? = some d)
    {s : Slot} {c : Node} (hc : (s, c) ∈ l.writtenParts) :
    ∃ w, c.toDocument? = some w ∧ d.follow? (s.steps.map Path.Step.text) = some w := by
  rw [Node.toDocument?_mk] at hd
  obtain ⟨expression, newType, thisType, result, members, arguments, params, fields, hexpression,
    hnewType, hthisType, hresult, hmembers, harguments, hparams, hfields, rfl⟩ :=
    writeLayer_eq_some_iff.mp hd
  have hget := get?_node (l.map Node.toDocument?) expression newType thisType result members
    arguments params fields
  rw [Layer.expression_map] at hexpression
  simp only [Layer.writtenParts, List.mem_append, Layer.mem_slotted, Layer.mem_numbered,
    Layer.mem_numberedFields] at hc
  -- the slots in the order of reading, each with the key under which it is written
  rcases hc with (((((((⟨rfl, hc⟩ | ⟨rfl, hc⟩) | ⟨rfl, hc⟩) | ⟨rfl, hc⟩) | ⟨i, rfl, hc⟩) |
    ⟨i, rfl, hc⟩) | ⟨i, rfl, hc⟩) | ⟨i, rfl, hc⟩ | ⟨i, rfl, hc⟩)
  · obtain ⟨w, hw, rfl⟩ := exists_of_sequence? hexpression hc
    rw [Layer.steps_expressionSlot]
    exact ⟨w, hw, Json.follow?_cons_key (hget "expression") []⟩
  · obtain ⟨w, hw, rfl⟩ := exists_of_sequence? hnewType hc
    exact ⟨w, hw, Json.follow?_cons_key (hget "new") []⟩
  · obtain ⟨w, hw, rfl⟩ := exists_of_sequence? hthisType hc
    exact ⟨w, hw, Json.follow?_cons_key (hget "this") []⟩
  · obtain ⟨w, hw, rfl⟩ := exists_of_sequence? hresult hc
    exact ⟨w, hw, Json.follow?_cons_key (hget "result") []⟩
  · -- a list takes a key and a number
    obtain ⟨ds, w, rfl, hi, hw⟩ := exists_of_required hmembers hc
    exact ⟨w, hw, (Json.follow?_cons_key (hget "elements") _).trans
      (Json.follow?_cons_index hi [])⟩
  · obtain ⟨ds, w, rfl, hi, hw⟩ := exists_of_required harguments hc
    exact ⟨w, hw, (Json.follow?_cons_key (hget "applications") _).trans
      (Json.follow?_cons_index hi [])⟩
  · obtain ⟨ds, w, rfl, hi, hw⟩ := exists_of_required hparams hc
    exact ⟨w, hw, (Json.follow?_cons_key (hget "params") _).trans
      (Json.follow?_cons_index hi [])⟩
  · -- a field is an object of its own, so that there is one more step to its key
    obtain ⟨f, hf, hc⟩ := Option.bind_eq_some_iff.mp hc
    obtain ⟨ds, _, rfl, hi, hfield⟩ := exists_of_writeFields hfields hf
    obtain ⟨key, value, hkey, -, rfl⟩ := writeField_eq_some_iff.mp hfield
    obtain ⟨w, hw, rfl⟩ := exists_of_sequence? hkey hc
    exact ⟨w, hw, ((Json.follow?_cons_key (hget "fields") _).trans
      (Json.follow?_cons_index hi _)).trans (Json.follow?_cons_key (get?_field _ _ "key") [])⟩
  · obtain ⟨f, hf, hc⟩ := Option.bind_eq_some_iff.mp hc
    obtain ⟨ds, _, rfl, hi, hfield⟩ := exists_of_writeFields hfields hf
    obtain ⟨key, value, -, hvalue, rfl⟩ := writeField_eq_some_iff.mp hfield
    obtain ⟨w, hw, rfl⟩ := exists_of_sequence? hvalue hc
    exact ⟨w, hw, ((Json.follow?_cons_key (hget "fields") _).trans
      (Json.follow?_cons_index hi _)).trans (Json.follow?_cons_key (get?_field _ _ "value") [])⟩

/-- **The steps of a position lead to the document of the node there.** -/
theorem exists_follow?_steps {n : Node} {d : Json} (hd : n.toDocument? = some d) {p : Position}
    {m : Node} (hp : n.follow? .document p = some m) :
    ∃ w, m.toDocument? = some w ∧ d.follow? (p.steps.map Path.Step.text) = some w := by
  induction p generalizing n d with
  | nil =>
    obtain rfl : n = m := Option.some.inj hp
    exact ⟨d, hd, rfl⟩
  | cons s p ih =>
    obtain ⟨c, hmem, hc⟩ := Node.follow?_cons_eq_some_iff.mp hp
    cases n with
    | mk l =>
      obtain ⟨e, he, hslot⟩ := exists_follow?_slot hd hmem
      obtain ⟨w, hw, hfollow⟩ := ih he hc
      refine ⟨w, hw, ?_⟩
      rw [Position.steps, List.flatMap_cons, List.map_append, Json.follow?_append hslot]
      exact hfollow

end Document

end TypeText

import TypeText.Document.Text
import TypeText.Proofs.Document.FirstFault
import TypeText.Proofs.Document.Positions
import TypeText.Proofs.Document.RoundTrip

/-!
# Trees that cannot be read back

A tree may have tags that are no texts.  It is written all the same, and such a tag is the
only thing that can be wrong with the document of a tree: all else is written in the form in
which it is read.  So the faults of the document are the positions of these tags, one by one
and in the same order.

## Main definitions

* `Node.untagged` — the positions of the written nodes whose tag is no text, in the order of
  reading.
* `Document.untaggedFaults` — the faults that they stand for.
* `Node.IsFirstUntagged` — the first such node.

## Main results

* `Node.mem_untagged` — these are all such positions.
* `faults_toDocument?` — **the faults of the document of a tree are those of its tags.**
* `ofDocument_toDocument_eq_error_iff` — when a tree has no document, when its document is not
  read, and the fault that is then reported.
-/

set_option autoImplicit false

namespace TypeText

/-! ### Tags that are no texts -/

/-- Whether a value is a text. -/
def Json.isText : Json → Bool
  | .str _ => true
  | _ => false

theorem Json.isText_eq_false_iff {v : Json} : v.isText = false ↔ ∀ text, v ≠ .str text := by
  cases v <;> simp [isText]

/-- The positions of the written nodes whose tag is no text, in the order of reading. -/
def Node.untagged (n : Node) : List Position :=
  ((n.walk .document).filter fun q => !q.2.isText).map Prod.fst

theorem Node.mem_untagged {n : Node} {p : Position} :
    p ∈ n.untagged ↔ ∃ m, n.follow? .document p = some m ∧ ∀ tag, m.layer.tag ≠ .str tag := by
  simp only [untagged, List.mem_map, List.mem_filter, Prod.exists, mem_walk, Bool.not_eq_true',
    Json.isText_eq_false_iff]
  constructor
  · rintro ⟨_, _, ⟨⟨m, hm, rfl⟩, htag⟩, rfl⟩
    exact ⟨m, hm, htag⟩
  · rintro ⟨m, hm, htag⟩
    exact ⟨p, m.layer.tag, ⟨⟨m, hm, rfl⟩, htag⟩, rfl⟩

theorem Node.exists_mem_untagged_iff {n : Node} :
    (∃ p, p ∈ n.untagged) ↔ ∃ m, n.Visits m ∧ ∀ tag, m.layer.tag ≠ .str tag := by
  simp only [mem_untagged, visits_iff]
  rw [exists_comm]
  simp only [exists_and_right]

theorem Node.untagged_mk (l : Layer Node) :
    Node.untagged (.mk l) = (if l.tag.isText then [] else [[]]) ++
      l.writtenParts.flatMap fun q => q.2.untagged.map fun p => q.1 :: p := by
  have hbelow : ((l.writtenParts.flatMap fun q => (q.2.walk .document).map fun r =>
      (q.1 :: r.1, r.2)).filter fun q => !q.2.isText).map Prod.fst =
      l.writtenParts.flatMap fun q => q.2.untagged.map fun p => q.1 :: p := by
    simp only [List.filter_flatMap, List.map_flatMap, List.filter_map, List.map_map, untagged,
      Function.comp_def]
  have hwalk : (Node.mk l).walk .document = ([], l.tag) :: l.writtenParts.flatMap fun q =>
      (q.2.walk .document).map fun r => (q.1 :: r.1, r.2) := walk_mk _ l
  rw [untagged, hwalk, ← hbelow]
  cases htag : l.tag.isText with
  | true => rw [List.filter_cons_of_neg (by simp [htag]), if_pos rfl, List.nil_append]
  | false =>
    rw [List.filter_cons_of_pos (by simp [htag]), List.map_cons, if_neg (by simp),
      List.singleton_append]

namespace Document

/-- The faults that the tags of a tree stand for. -/
def untaggedFaults (path : Path) (n : Node) : List Fault :=
  n.untagged.map fun p => ⟨path ++ p.steps, .missingType⟩

theorem untaggedFaults_mk (path : Path) (l : Layer Node) :
    untaggedFaults path (.mk l) = tagFaults path (some l.tag) ++
      l.writtenParts.flatMap fun q => untaggedFaults (path ++ q.1.steps) q.2 := by
  have hroot : (if l.tag.isText then [] else [[]]).map (fun p : Position =>
      (⟨path ++ p.steps, .missingType⟩ : Fault)) = tagFaults path (some l.tag) := by
    cases l.tag <;> simp [Json.isText, tagFaults, Position.steps]
  rw [untaggedFaults, Node.untagged_mk, List.map_append, hroot, List.map_flatMap]
  simp only [untaggedFaults, List.map_map, Function.comp_def, Position.steps, List.flatMap_cons,
    List.append_assoc]

/-! ### Faults of documents -/

/-- The faults of what stands under a key, if it is there. -/
def memberFaults (path : Path) (v : Json) (key : String) (form : Form) : List Fault :=
  (member? v key).toList.flatMap fun w => faults form (path ++ [.key key]) w

theorem flatMap_keyed (path : Path) (v : Json) (keys : List (String × Form)) :
    ((keyed v keys).flatMap fun p => faults p.form (path ++ [p.step]) p.value) =
      keys.flatMap fun k => memberFaults path v k.1 k.2 := by
  induction keys with
  | nil => rfl
  | cons k keys ih =>
    rw [keyed] at ih ⊢
    rw [List.flatMap_cons, ← ih, memberFaults, List.filterMap_cons]
    cases member? v k.1 with
    | none => rfl
    | some w => simp

theorem memberFaults_of_get?_eq_none {path : Path} {v : Json} {key : String}
    (hget : v.get? key = none) (form : Form) : memberFaults path v key form = [] := by
  rw [memberFaults, member?_eq_get? (by simp [hget]), hget]
  rfl

theorem memberFaults_of_get?_eq_some {path : Path} {v w : Json} {key : String}
    (hget : v.get? key = some w) (hw : w ≠ .null) (form : Form) :
    memberFaults path v key form = faults form (path ++ [.key key]) w := by
  rw [memberFaults, member?_eq_some_iff.mpr ⟨hget, hw⟩]
  simp

theorem faults_nodes (path : Path) (items : List Json) :
    faults .nodes path (.arr items) =
      items.zipIdx.flatMap fun w => faults .node (path ++ [.index w.2]) w.1 := by
  have hown : Place.faults ⟨path, .nodes, .arr items⟩ = [] := rfl
  rw [faults_eq, hown, List.nil_append, Form.parts, indexed, List.flatMap_map]

theorem faults_fields (path : Path) (items : List Json) :
    faults .fields path (.arr items) =
      items.zipIdx.flatMap fun w => faults .field (path ++ [.index w.2]) w.1 := by
  have hown : Place.faults ⟨path, .fields, .arr items⟩ = [] := rfl
  rw [faults_eq, hown, List.nil_append, Form.parts, indexed, List.flatMap_map]

/-- What is listed for numbered items is listed for the numbered results of steps on them, if it is
so for each item. -/
theorem flatMap_zipIdx_of_mapM {α β γ : Type} {f : α → Option β} {F : α × Nat → List γ}
    {G : β × Nat → List γ} : ∀ {as : List α} {bs : List β}, as.mapM f = some bs →
      (∀ a ∈ as, ∀ b, f a = some b → ∀ i, F (a, i) = G (b, i)) →
      ∀ i, (as.zipIdx i).flatMap F = (bs.zipIdx i).flatMap G := by
  intro as
  induction as with
  | nil =>
    intro bs h _ i
    obtain rfl : [] = bs := Option.some.inj h
    rfl
  | cons a as ih =>
    intro bs h hFG i
    obtain ⟨b, hb, cs, hcs, rfl⟩ := mapM_cons_eq_some_iff.mp h
    rw [List.zipIdx_cons, List.zipIdx_cons, List.flatMap_cons, List.flatMap_cons,
      hFG a List.mem_cons_self b hb, ih hcs fun x hx => hFG x (List.mem_cons_of_mem _ hx)]

/-! ### Faults of written parts -/

/-- A tree whose document, if it has one, is there to be read and has the faults of the tags. -/
def WritesTagFaults (n : Node) : Prop :=
  ∀ d, n.toDocument? = some d → d ≠ .null ∧ ∀ path, faults .node path d = untaggedFaults path n

section Parts

variable {path : Path} {v : Json} {key : String}

/-- The faults of a part that may be missing.  Its key is the last step to its slot, from a place
that may be below the node. -/
theorem memberFaults_slot {o : Option Node} {e : Option Json} (h : ∀ c ∈ o, WritesTagFaults c)
    (he : sequence? (o.map Node.toDocument?) = some e) (hget : v.get? key = e) {above : Path}
    {s : Slot} (hs : path ++ [.key key] = above ++ s.steps) :
    memberFaults path v key .node =
      (Layer.slotted s o).flatMap fun q => untaggedFaults (above ++ q.1.steps) q.2 := by
  cases o with
  | none =>
    -- what is not written has no faults
    obtain rfl : none = e := Option.some.inj he
    exact memberFaults_of_get?_eq_none hget .node
  | some c =>
    obtain ⟨w, hw, rfl⟩ := exists_of_sequence? he rfl
    obtain ⟨hnull, hfaults⟩ := h c rfl w hw
    rw [memberFaults_of_get?_eq_some hget hnull, hfaults, hs]
    simp [Layer.slotted]

theorem memberFaults_list {items : Option (List (Option Node))} {e : Option (List Json)}
    (h : ∀ c ∈ Layer.present items, WritesTagFaults c)
    (he : required (items.map fun list => list.map fun item => item.map Node.toDocument?) = some e)
    (hget : v.get? key = e.map .arr) (slot : Nat → Slot)
    (hslot : ∀ i, (slot i).steps = [.key key, .index i]) :
    memberFaults path v key .nodes =
      (Layer.numbered slot items).flatMap fun q => untaggedFaults (path ++ q.1.steps) q.2 := by
  cases items with
  | none =>
    obtain rfl : none = e := Option.some.inj he
    exact memberFaults_of_get?_eq_none hget .nodes
  | some list =>
    obtain ⟨ds, hds, rfl⟩ := Option.map_eq_some_iff.mp he
    rw [List.mapM_map] at hds
    rw [memberFaults_of_get?_eq_some hget (by simp), faults_nodes, Layer.numbered,
      List.flatMap_assoc]
    -- in a list that is written no item is missing, so the numbers are the same on both sides
    refine (flatMap_zipIdx_of_mapM hds (fun item hitem d hd i => ?_) 0).symm
    obtain ⟨c, rfl, hc⟩ := Option.map_eq_some_iff.mp (Option.join_eq_some_iff.mp hd)
    obtain ⟨-, hfaults⟩ := h c (Layer.mem_present.mpr ⟨list, rfl, hitem⟩) d hc
    simp [Layer.slotted, hfaults, hslot]

/-- The faults of the field at a number. -/
theorem faults_field {f : Field Node} {d : Json}
    (h : ∀ c, f.key = some c ∨ f.value = some c → WritesTagFaults c)
    (hd : writeField (f.map Node.toDocument?) = some d) (path : Path) (i : Nat) :
    faults .field (path ++ [.key "fields"] ++ [.index i]) d =
      (Layer.slotted (.key i) f.key ++ Layer.slotted (.value i) f.value).flatMap fun q =>
        untaggedFaults (path ++ q.1.steps) q.2 := by
  obtain ⟨key, value, hkey, hvalue, rfl⟩ := writeField_eq_some_iff.mp hd
  have hkeySteps : path ++ [.key "fields"] ++ [.index i] ++ [.key "key"] =
      path ++ (Slot.key i).steps := by simp [Slot.steps]
  have hvalueSteps : path ++ [.key "fields"] ++ [.index i] ++ [.key "value"] =
      path ++ (Slot.value i).steps := by simp [Slot.steps]
  -- a field is not asked for its tag
  rw [faults_eq, Form.parts, flatMap_keyed, List.flatMap_append,
    ← memberFaults_slot (fun c hc => h c (Or.inl hc)) hkey (get?_field key value "key") hkeySteps,
    ← memberFaults_slot (fun c hc => h c (Or.inr hc)) hvalue (get?_field key value "value")
      hvalueSteps]
  simp [fieldKeys, Place.faults]

theorem memberFaults_fields {fields : Option (List (Field Node))} {e : Option (List Json)}
    (h : ∀ list ∈ fields, ∀ f ∈ list, ∀ c, f.key = some c ∨ f.value = some c → WritesTagFaults c)
    (he : writeFields (fields.map fun list => list.map fun f => f.map Node.toDocument?) = some e)
    (hget : v.get? "fields" = e.map .arr) :
    memberFaults path v "fields" .fields =
      (Layer.numberedFields fields).flatMap fun q => untaggedFaults (path ++ q.1.steps) q.2 := by
  cases fields with
  | none =>
    obtain rfl : none = e := Option.some.inj he
    exact memberFaults_of_get?_eq_none hget .fields
  | some list =>
    obtain ⟨ds, hds, rfl⟩ := Option.map_eq_some_iff.mp he
    rw [List.mapM_map] at hds
    rw [memberFaults_of_get?_eq_some hget (by simp), faults_fields, Layer.numberedFields,
      List.flatMap_assoc]
    refine (flatMap_zipIdx_of_mapM hds (fun f hf d hd i => ?_) 0).symm
    exact (faults_field (h list rfl f hf) hd path i).symm

end Parts

/-- Nothing but its tag is wrong with the document of a node itself: its name is a text, and what
is under its keys is as it is read. -/
theorem faults_written {l : Layer (Option Json)}
    {expression newType thisType result : Option Json}
    {members arguments params fields : Option (List Json)} {d : Json}
    (hd : d = .obj (entries (nodePairs l expression newType thisType result members arguments
      params fields))) (path : Path) :
    faults .node path d = tagFaults path (some l.tag) ++
      nodeKeys.flatMap fun k => memberFaults path d k.1 k.2 := by
  have hget := get?_node l expression newType thisType result members arguments params fields
  have hname : nameFaults path (lookup "name" (entries (nodePairs l expression newType thisType
      result members arguments params fields))) = [] := by
    rw [← Json.get?_obj, hget "name"]
    cases hname : l.name <;> simp [nodePairs, lookup_cons, hname, nameFaults]
  have htag : lookup "type" (entries (nodePairs l expression newType thisType result members
      arguments params fields)) = some l.tag := hget "type"
  rw [faults_eq, Form.parts, flatMap_keyed, hd, Place.faults, hname, htag, List.append_nil]

/-- Nothing but its tag is wrong with the document of a node, if nothing but their tags is wrong
with those of the subtrees. -/
theorem writesTagFaults_mk {l : Layer Node} (h : ∀ c ∈ l.written, WritesTagFaults c) :
    WritesTagFaults (.mk l) := by
  intro d hd
  rw [Node.toDocument?_mk] at hd
  obtain ⟨expression, newType, thisType, result, members, arguments, params, fields, hexpression,
    hnewType, hthisType, hresult, hmembers, harguments, hparams, hfields, hd⟩ :=
    writeLayer_eq_some_iff.mp hd
  have hget : ∀ key, d.get? key = (lookup key (nodePairs (l.map Node.toDocument?) expression
      newType thisType result members arguments params fields)).join := by
    rw [hd]
    exact get?_node _ _ _ _ _ _ _ _ _
  rw [Layer.expression_map] at hexpression
  obtain ⟨cexpression, cnewType, cthisType, cresult, cmembers, carguments, cparams, cfields⟩ :=
    Layer.forall_mem_written.mp h
  refine ⟨by simp [hd], fun path => ?_⟩
  have hslot : ∀ (s : Slot) {key : String}, s.steps = [.key key] →
      path ++ [.key key] = path ++ s.steps := fun s _ hs => by rw [hs]
  -- both sides list the parts in the order of reading
  have htag : (l.map Node.toDocument?).tag = l.tag := rfl
  rw [faults_written hd, htag, untaggedFaults_mk, Layer.writtenParts]
  simp only [List.flatMap_append, nodeKeys, List.flatMap_cons, List.flatMap_nil, List.append_nil,
    List.append_assoc]
  rw [memberFaults_slot cexpression hexpression (hget "expression")
      (hslot _ l.steps_expressionSlot),
    memberFaults_slot cnewType hnewType (hget "new") (hslot .newType rfl),
    memberFaults_slot cthisType hthisType (hget "this") (hslot .thisType rfl),
    memberFaults_slot cresult hresult (hget "result") (hslot .result rfl),
    memberFaults_list cmembers hmembers (hget "elements") .member fun i => rfl,
    memberFaults_list carguments harguments (hget "applications") .argument fun i => rfl,
    memberFaults_list cparams hparams (hget "params") .param fun i => rfl,
    memberFaults_fields cfields hfields (hget "fields")]

/-- **The faults of the document of a tree are those of its tags.** -/
theorem faults_toDocument? {n : Node} {d : Json} (hd : n.toDocument? = some d) (path : Path) :
    faults .node path d = untaggedFaults path n := by
  have hall : ∀ n : Node, WritesTagFaults n := by
    intro n
    induction n using Node.induct with
    | h l ih => exact writesTagFaults_mk fun c hc => ih c (Layer.mem_children_of_mem_written hc)
  exact (hall n d hd).2 path

/-- Reading reports a fault exactly if it is the first one. -/
theorem ofDocument_eq_error_iff {d : Json} {f : Fault} :
    Node.ofDocument d = .error f ↔ (faults .node [] d).head? = some f := by
  have hfirst : fault? (Node.ofDocument d) = (faults .node [] d).head? := fault?_readNode d []
  rw [← hfirst]
  cases Node.ofDocument d <;> simp [fault?]

/-- The steps to a fault have no points in them. -/
theorem plain_of_mem_faults {d : Json} {f : Fault} (hf : f ∈ faults .node [] d) :
    ∀ s ∈ f.path, '.' ∉ s.text.toList := by
  obtain ⟨q, hq, hf⟩ := List.mem_flatMap.mp hf
  exact ((isAt_of_mem_places q hq).fault hf).1

end Document

/-! ### Failures -/

/-- The node at a position is the first in the order of reading whose tag is no text. -/
structure Node.IsFirstUntagged (n : Node) (p : Position) (m : Node) : Prop where
  follow : n.follow? .document p = some m
  untagged : ∀ tag, m.layer.tag ≠ .str tag
  first : ∀ q x, n.follow? .document q = some x → (∀ tag, x.layer.tag ≠ .str tag) →
    q = p ∨ p.steps.Before q.steps

/-- The first of the positions without a tag is that of the first such node: the faults for them
come in the order of their paths. -/
theorem Node.exists_isFirstUntagged {n : Node} {d : Json} (hd : n.toDocument? = some d)
    {p : Position} {later : List Position} (hp : n.untagged = p :: later) :
    ∃ m, n.IsFirstUntagged p m := by
  have hsorted := Document.pairwise_faults .node [] d
  rw [Document.faults_toDocument? hd, Document.untaggedFaults, List.pairwise_map, hp,
    List.pairwise_cons] at hsorted
  obtain ⟨m, hm, htag⟩ := mem_untagged.mp (hp ▸ List.mem_cons_self : p ∈ n.untagged)
  refine ⟨m, hm, htag, fun q x hx hq => ?_⟩
  have hmem : q ∈ p :: later := hp ▸ mem_untagged.mpr ⟨x, hx, hq⟩
  rcases List.mem_cons.mp hmem with rfl | hlater
  · exact Or.inl rfl
  · exact Or.inr (hsorted.1 q hlater)

/-- A tree has no document exactly if some visited node lacks an item of a list.  Where it has one,
the document is not read exactly if the tag of some visited node is no text; the fault is then
that the tag is missing, and its path leads to the document of the first such node in the order
of reading. -/
theorem ofDocument_toDocument_eq_error_iff (n : Node) :
    (Node.toDocument (some n) = .error .missingNode ↔ ∃ m, n.Visits m ∧ ¬ m.layer.IsComplete) ∧
      ((∀ m, n.Visits m → m.layer.IsComplete) → ∃ d, Node.toDocument (some n) = .ok d ∧
        ((∃ f, Node.ofDocument d = .error f) ↔
          ∃ m, n.Visits m ∧ ∀ tag, m.layer.tag ≠ .str tag) ∧
        ∀ f, Node.ofDocument d = .error f →
          f.problem.message = "Missing 'type' field in serialized node" ∧
          ∃ p m e, n.IsFirstUntagged p m ∧ f.path = p.steps ∧ m.toDocument? = some e ∧
            d.follow? (Path.segments f.path.text?) = some e) := by
  have htotal := Document.exists_toDocument?_iff n
  constructor
  · have hnone : Node.toDocument (some n) = .error .missingNode ↔
        ¬ ∃ d, n.toDocument? = some d := by
      rw [Node.toDocument, Option.bind_some]
      cases n.toDocument? <;> simp
    rw [hnone, htotal]
    simp only [Classical.not_forall, exists_prop]
  · intro hcomplete
    obtain ⟨d, hd⟩ := htotal.mpr hcomplete
    -- each untagged position is one fault, so the first fault is that of the first position
    have hfaults : Document.faults .node [] d =
        n.untagged.map fun p => ⟨p.steps, .missingType⟩ := Document.faults_toDocument? hd []
    refine ⟨d, by rw [Node.toDocument, Option.bind_some, hd], ?_, fun f hf => ?_⟩
    · rw [← Node.exists_mem_untagged_iff]
      simp only [Document.ofDocument_eq_error_iff, hfaults]
      cases n.untagged with
      | nil => simp
      | cons p later => exact iff_of_true ⟨_, rfl⟩ ⟨p, List.mem_cons_self⟩
    · have hfirst := Document.ofDocument_eq_error_iff.mp hf
      have hplain := Document.plain_of_mem_faults (List.mem_of_mem_head? hfirst)
      rw [hfaults, List.head?_map, Option.map_eq_some_iff] at hfirst
      obtain ⟨p, hp, rfl⟩ := hfirst
      obtain ⟨later, hlater⟩ := List.head?_eq_some_iff.mp hp
      obtain ⟨m, hm⟩ := Node.exists_isFirstUntagged hd hlater
      obtain ⟨e, he, hfollow⟩ := Document.exists_follow?_steps hd hm.follow
      refine ⟨rfl, p, m, e, hm, rfl, he, ?_⟩
      rw [Path.segments_text? hplain]
      exact hfollow

/-- A function with two parameters and, where its kind does not look, a base that cannot be written
and a field.  The tags of its second parameter, of the type in it and of the value of the field
are no texts. -/
def strayFunction : Node :=
  .mk
    { tag := .str "FunctionType"
      base := some (.mk { tag := .int 0, members := some [none] })
      params := some
        [some (.mk { tag := .str "NullLiteral" }),
          some (.mk { tag := .null, inner := some (.mk { tag := .int 1 }) })]
      fields := some
        [⟨some (.mk { tag := .str "NullLiteral" }), some (.mk { tag := .bool true })⟩] }

/-- Its document. -/
def strayFunction.document : Json :=
  .obj
    [("type", .str "FunctionType"),
      ("params", .arr
        [.obj [("type", .str "NullLiteral")],
          .obj [("type", .null), ("expression", .obj [("type", .int 1)])]]),
      ("fields", .arr
        [.obj [("type", .str "FieldType"), ("key", .obj [("type", .str "NullLiteral")]),
          ("value", .obj [("type", .bool true)])]])]

theorem strayFunction.visits : ∀ m, strayFunction.Visits m → m.layer.IsComplete :=
  (Document.exists_toDocument?_iff strayFunction).mp ⟨strayFunction.document, rfl⟩

theorem ofDocument_toDocument_eq_error_iff_strayFunction :
    (∀ m, strayFunction.Visits m → m.layer.IsComplete) ∧
      Node.toDocument (some strayFunction) = .ok strayFunction.document ∧
      Node.ofDocument strayFunction.document = .error ⟨[.key "params", .index 1], .missingType⟩ ∧
      ∃ p m e, strayFunction.IsFirstUntagged p m ∧ [.key "params", .index 1] = p.steps ∧
        m.toDocument? = some e ∧
        strayFunction.document.follow? (Path.segments (some "params.1")) = some e := by
  have hdocument : Node.toDocument (some strayFunction) = .ok strayFunction.document := rfl
  have hfault : Node.ofDocument strayFunction.document =
      .error ⟨[.key "params", .index 1], .missingType⟩ :=
    Document.ofDocument_eq_error_iff.mpr (by decide +kernel)
  obtain ⟨d, hd, -, hpath⟩ :=
    (ofDocument_toDocument_eq_error_iff strayFunction).2 strayFunction.visits
  obtain rfl : strayFunction.document = d := Except.ok.inj (hdocument.symm.trans hd)
  exact ⟨strayFunction.visits, hdocument, hfault, (hpath _ hfault).2⟩

end TypeText

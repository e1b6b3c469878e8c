import TypeText.Proofs.Document.Rendering
import TypeText.Proofs.Equality

/-!
# Trees with one text

Two trees have the same text exactly when they have the same normal form.  So a text can stand
for its tree as a key: equal trees have one text, and trees that differ in anything that a
document keeps have two.

A document is made of the normal form of a tree alone, which gives one direction.  For the
other, the normal form is read back from the text.  Equality of trees is coarser than being
the same, but only in the values of flags, of which the normal form keeps the truth.

## Main results

* `Node.toDocument?_normalize` — **the document of a tree is that of its normal form.**
* `Node.normalize_normalize` — a normal form is its own normal form.
* `Node.normalize_eq_of_equal` — equal trees have one normal form.
* `toText_eq_iff` — when two trees have the same text.
-/

set_option autoImplicit false

namespace TypeText

/-! ### Documents of normal forms -/

namespace Layer

variable {α β : Type}

theorem expression_normalize (l : Layer α) : l.normalize.expression = l.expression := by
  have hkind : l.normalize.kind? = l.kind? := rfl
  rw [expression, expression, hkind]
  by_cases happ : l.kind? = some .application <;> simp [normalize, happ]

/-- What is left of a node is left of it again. -/
theorem normalize_normalize (l : Layer α) : l.normalize.normalize = l.normalize := by
  have hkind : l.normalize.kind? = l.kind? := rfl
  have hinner : (if l.normalize.kind? = some .application then none else l.normalize.inner) =
      l.normalize.inner := by
    rw [hkind]
    by_cases happ : l.kind? = some .application <;> simp [normalize, happ]
  have hbase : (if l.normalize.kind? = some .application then l.normalize.base else none) =
      l.normalize.base := by
    rw [hkind]
    by_cases happ : l.kind? = some .application <;> simp [normalize, happ]
  rw [normalize, hinner, hbase]
  rfl

theorem written_normalize (l : Layer α) : l.normalize.written = l.written := by
  rw [written_eq, written_eq, expression_normalize]
  rfl

end Layer

/-- Writing a node does not look at what its document drops. -/
theorem Document.writeLayer_normalize (l : Layer (Option Json)) :
    writeLayer l.normalize = writeLayer l := by
  have hexpression : (if l.normalize.kind? = some .application then l.normalize.base
      else l.normalize.inner) = if l.kind? = some .application then l.base else l.inner :=
    l.expression_normalize
  rw [writeLayer, writeLayer, hexpression]
  rfl

namespace Node

/-- **The document of a tree is that of its normal form.** -/
theorem toDocument?_normalize (n : Node) : n.normalize.toDocument? = n.toDocument? := by
  induction n using Node.induct with
  | h l ih =>
    calc
      ((Node.mk l).normalize).toDocument?
          = Document.writeLayer (l.map (toDocument? ∘ normalize)).normalize := by
            rw [normalize_mk, toDocument?_mk, Layer.normalize_map, Layer.map_map]
      _ = Document.writeLayer (l.map toDocument?) := by
            rw [Layer.map_congr (f := toDocument? ∘ normalize) ih, Document.writeLayer_normalize]
      _ = (Node.mk l).toDocument? := (toDocument?_mk l).symm

/-- A normal form is its own normal form. -/
theorem normalize_normalize (n : Node) : n.normalize.normalize = n.normalize := by
  induction n using Node.induct with
  | h l ih =>
    have hmap : l.map (normalize ∘ normalize) = l.map normalize := Layer.map_congr ih
    rw [normalize_mk, normalize_mk, Layer.normalize_map, Layer.map_map, hmap,
      Layer.normalize_normalize]

/-- Writing a normal form reaches normal forms of what writing the tree reaches. -/
theorem exists_visits_of_visits_normalize {n m : Node} (h : n.normalize.Visits m) :
    ∃ k, n.Visits k ∧ m = k.normalize := by
  induction n using Node.induct with
  | h l ih =>
    rw [normalize_mk] at h
    cases h with
    | root => exact ⟨.mk l, .root _, (normalize_mk l).symm⟩
    | step hc hm =>
      rw [Layer.written_normalize, Layer.written_map] at hc
      obtain ⟨c, hwritten, rfl⟩ := List.mem_map.mp hc
      obtain ⟨k, hk, hmk⟩ := ih c (Layer.mem_children_of_mem_written hwritten) hm
      exact ⟨k, .step hwritten hk, hmk⟩

/-! ### Equal trees -/

/-- The items of lists that agree have one normal form each. -/
theorem map_normalize_eq_of_agree {o p : Option (List (Option Node))}
    (h : ∀ c ∈ Layer.present o, ∀ d, c.equal d → c.normalize = d.normalize)
    (hop : Layer.agreeOption (Layer.agreeList (Layer.agreeOption equal)) o p) :
    (o.map fun list => list.map fun item => item.map normalize) =
      p.map fun list => list.map fun item => item.map normalize :=
  Layer.map_items_eq_of_agree (fun _ c d hc _ => h c (Layer.mem_present_of_getElem? hc) d) hop

/-- The fields of records that agree have one normal form each. -/
theorem map_normalize_eq_of_agreeField {o p : Option (List (Field Node))}
    (h : ∀ list ∈ o, ∀ f ∈ list, ∀ c, f.key = some c ∨ f.value = some c →
      ∀ d, c.equal d → c.normalize = d.normalize)
    (hop : Layer.agreeOption (Layer.agreeList (Layer.agreeField equal)) o p) :
    (o.map fun list => list.map fun f => f.map normalize) =
      p.map fun list => list.map fun f => f.map normalize := by
  have hfield : ∀ {part : Field Node → Option Node},
      (∀ f c, part f = some c → f.key = some c ∨ f.value = some c) →
      ∀ (i : Nat) c d, (o.getD [])[i]?.bind part = some c → c.equal d →
        c.normalize = d.normalize := by
    intro part hpart i c d hc hcd
    obtain ⟨f, hf, hfc⟩ := Option.bind_eq_some_iff.mp hc
    cases o with
    | none => simp at hf
    | some list => exact h list rfl f (List.mem_of_getElem? hf) c (hpart f c hfc) d hcd
  exact Layer.map_fields_eq_of_agree
    (fun i c d hc _ => hfield (fun _ _ => Or.inl) i c d hc)
    (fun i c d hc _ => hfield (fun _ _ => Or.inr) i c d hc) hop

/-- Equal trees have one normal form, if the visited nodes have string tags. -/
theorem normalize_eq_of_equal {a b : Node} (h : ∀ m, a.Visits m → ∃ tag, m.layer.tag = .str tag)
    (hab : a.equal b) : a.normalize = b.normalize := by
  induction a using Node.induct generalizing b with
  | h l ih =>
    obtain ⟨k⟩ := b
    obtain ⟨⟨tag, htag⟩, hbelow⟩ := Node.forall_visits_mk.mp h
    have hwritten : ∀ c ∈ l.written, ∀ d, c.equal d → c.normalize = d.normalize := fun c hc d hcd =>
      ih c (Layer.mem_children_of_mem_written hc) (hbelow c hc) hcd
    obtain ⟨hexpression, hnewType, hthisType, hresult, hmembers, harguments, hparams, hfields⟩ :=
      Layer.forall_mem_written.mp hwritten
    rw [equal_mk, Layer.agree_iff] at hab
    obtain ⟨ktag, kname, kinner, kmembers, kfields, kbase, karguments, knewType, kthisType, kparams,
      kresult, koptional, knullable, krepeatable⟩ := hab
    have htags : l.tag = k.tag := by
      rw [layer_mk] at htag
      rw [htag] at ktag
      rw [htag, Json.eq_str_of_same ktag]
    have hkind : l.kind? = k.kind? := congrArg Kind.ofTag? htags
    -- of the two parts that share a key only the one that is written is left
    have hinner : (if l.kind? = some .application then none else l.inner.map normalize) =
        if k.kind? = some .application then none else k.inner.map normalize := by
      rw [← hkind]
      split
      · rfl
      · next happ =>
        rw [Layer.expression, if_neg happ] at hexpression
        exact Layer.map_eq_of_agreeOption (fun c d hc _ => hexpression c hc d) kinner
    have hbase : (if l.kind? = some .application then l.base.map normalize else none) =
        if k.kind? = some .application then k.base.map normalize else none := by
      rw [← hkind]
      split
      · next happ =>
        rw [Layer.expression, if_pos happ] at hexpression
        exact Layer.map_eq_of_agreeOption (fun c d hc _ => hexpression c hc d) kbase
      · rfl
    have hnormal : ∀ m : Layer Node, (m.map normalize).normalize =
        { tag := m.tag, name := m.name
          inner := if m.kind? = some .application then none else m.inner.map normalize
          members := m.members.map fun list => list.map fun item => item.map normalize
          fields := m.fields.map fun list => list.map fun f => f.map normalize
          base := if m.kind? = some .application then m.base.map normalize else none
          arguments := m.arguments.map fun list => list.map fun item => item.map normalize
          newType := m.newType.map normalize, thisType := m.thisType.map normalize
          params := m.params.map fun list => list.map fun item => item.map normalize
          result := m.result.map normalize, optional := .bool m.optional.isTruthy
          nullable := m.nullable, repeatable := .bool m.repeatable.isTruthy } := fun m => rfl
    rw [normalize_mk, normalize_mk, hnormal, hnormal, htags, kname, hinner, hbase,
      map_normalize_eq_of_agree hmembers kmembers, map_normalize_eq_of_agreeField hfields kfields,
      map_normalize_eq_of_agree harguments karguments, map_normalize_eq_of_agree hparams kparams,
      Layer.map_eq_of_agreeOption (fun c d hc _ => hnewType c hc d) knewType,
      Layer.map_eq_of_agreeOption (fun c d hc _ => hthisType c hc d) kthisType,
      Layer.map_eq_of_agreeOption (fun c d hc _ => hresult c hc d) kresult,
      Json.isTruthy_eq_of_same koptional, knullable, Json.isTruthy_eq_of_same krepeatable]

/-- Normal forms are equal only if they are the same. -/
theorem equal_normalize_iff {a b : Node} (h : ∀ m, a.Visits m → ∃ tag, m.layer.tag = .str tag) :
    a.normalize.equal b.normalize ↔ a.normalize = b.normalize := by
  constructor
  · intro hequal
    have htags : ∀ m, a.normalize.Visits m → ∃ tag, m.layer.tag = .str tag := by
      intro m hm
      obtain ⟨k, hk, rfl⟩ := exists_visits_of_visits_normalize hm
      obtain ⟨l⟩ := k
      rw [normalize_mk]
      exact h (.mk l) hk
    have hnormal := normalize_eq_of_equal htags hequal
    rwa [normalize_normalize, normalize_normalize] at hnormal
  · intro heq
    rw [heq]
    exact equal_self _

/-! ### Texts -/

/-- Trees with one normal form are written alike, whether or not they have a text. -/
theorem toText_eq_of_normalize_eq {a b : Node} (h : a.normalize = b.normalize)
    (layout : Json.Layout) : toText layout (some a) = toText layout (some b) := by
  have hdocument : a.toDocument? = b.toDocument? := by
    rw [← toDocument?_normalize a, h, toDocument?_normalize b]
  rw [toText, toText, toDocument, toDocument, Option.bind_some, Option.bind_some, hdocument]

/-- A tree with string tags and no missing items has a text, which is read as its normal form. -/
theorem exists_toText_ofText_normalize {n : Node}
    (h : ∀ m, n.Visits m → (∃ tag, m.layer.tag = .str tag) ∧ m.layer.IsComplete)
    (layout : Json.Layout) :
    ∃ text, toText layout (some n) = .ok text ∧ ofText text = .ok n.normalize := by
  obtain ⟨d, hd, hdescribes⟩ := Document.survives_of_visits n h
  have hreadable : ∀ m, n.Visits m → m.layer.tag.Readable := by
    intro m hm
    obtain ⟨tag, htag⟩ := (h m hm).1
    exact htag ▸ .str tag
  refine ⟨_, toText_of_toDocument? hd _, ?_⟩
  rw [ofText_write (Document.writesReadable_of_visits n hreadable d hd),
    show ofDocument d = .ok n.normalize from hdescribes []]
  rfl

end Node

/-- **Two trees have the same text exactly when their normal forms are equal**, and then the
normal forms are the same, if the visited nodes have string tags and no missing items.  Equal
trees have the same text, and so has the tree that is read from a text. -/
theorem toText_eq_iff {a b : Node}
    (ha : ∀ m, a.Visits m → (∃ tag, m.layer.tag = .str tag) ∧ m.layer.IsComplete)
    (hb : ∀ m, b.Visits m → (∃ tag, m.layer.tag = .str tag) ∧ m.layer.IsComplete)
    (indent : Option Int) :
    ∃ s t, Node.toText (.ofIndent indent) (some a) = .ok s ∧
      Node.toText (.ofIndent indent) (some b) = .ok t ∧
      (s = t ↔ a.normalize.equal b.normalize) ∧
      (a.normalize.equal b.normalize ↔ a.normalize = b.normalize) ∧
      (a.equal b → s = t) ∧
      ∃ c, Node.ofText s = .ok c ∧ Node.toText (.ofIndent indent) (some c) = .ok s := by
  obtain ⟨s, hs, hreadS⟩ := Node.exists_toText_ofText_normalize ha (.ofIndent indent)
  obtain ⟨t, ht, hreadT⟩ := Node.exists_toText_ofText_normalize hb (.ofIndent indent)
  have htags : ∀ m, a.Visits m → ∃ tag, m.layer.tag = .str tag := fun m hm => (ha m hm).1
  have hequal := Node.equal_normalize_iff (b := b) htags
  have hwrite : a.normalize = b.normalize → s = t := fun h =>
    Except.ok.inj (hs.symm.trans ((Node.toText_eq_of_normalize_eq h _).trans ht))
  have hread : s = t → a.normalize = b.normalize := fun h =>
    Except.ok.inj (hreadS.symm.trans ((congrArg Node.ofText h).trans hreadT))
  have hagain : Node.toText (.ofIndent indent) (some a.normalize) = .ok s :=
    (Node.toText_eq_of_normalize_eq (Node.normalize_normalize a) _).trans hs
  exact ⟨s, t, hs, ht, ⟨fun h => hequal.mpr (hread h), fun h => hwrite (hequal.mp h)⟩, hequal,
    fun h => hwrite (Node.normalize_eq_of_equal htags h), a.normalize, hreadS, hagain⟩

/-- An array with a flag of some value, and with a type after its name, which no document of an
application holds. -/
def flaggedArray (flag : Json) (inner : Option Node) : Node :=
  .mk
    { tag := .str "TypeApplication"
      inner := inner
      base := some (.mk { tag := .str "NameExpression", name := some "Array" })
      arguments := some [some (.mk { tag := .str "Mystery", name := some "" })]
      optional := flag }

theorem flaggedArray.visits (flag : Json) (inner : Option Node) : ∀ m,
    (flaggedArray flag inner).Visits m →
      (∃ tag, m.layer.tag = .str tag) ∧ m.layer.IsComplete := by
  refine Node.forall_visits_mk.mpr ⟨⟨⟨_, rfl⟩, by constructor <;> simp⟩, ?_⟩
  -- the subtrees that are written are the base and the argument, both leaves
  refine List.forall_mem_cons.mpr ⟨?_, List.forall_mem_singleton.mpr ?_⟩ <;>
    exact Node.forall_visits_mk.mpr ⟨⟨⟨_, rfl⟩, by constructor <;> simp⟩,
      fun c hc => absurd hc List.not_mem_nil⟩

/-- The flags `2` and `true` give one text, whatever stands in the part that is dropped, and the
flag `0` gives another. -/
theorem toText_eq_iff_flaggedArray :
    (∀ flag inner m, (flaggedArray flag inner).Visits m →
        (∃ tag, m.layer.tag = .str tag) ∧ m.layer.IsComplete) ∧
      (∃ s, Node.toText (.ofIndent (some 2)) (some (flaggedArray (.int 2) none)) = .ok s ∧
        Node.toText (.ofIndent (some 2))
          (some (flaggedArray (.bool true) (some (.mk { tag := .null })))) = .ok s) ∧
      ∃ s t, Node.toText (.ofIndent none) (some (flaggedArray (.int 2) none)) = .ok s ∧
        Node.toText (.ofIndent none) (some (flaggedArray (.int 0) none)) = .ok t ∧ s ≠ t := by
  refine ⟨flaggedArray.visits, ?_, ?_⟩
  · obtain ⟨s, t, hs, ht, hiff, hnormal, -⟩ := toText_eq_iff (flaggedArray.visits (.int 2) none)
      (flaggedArray.visits (.bool true) (some (.mk { tag := .null }))) (some 2)
    have hst : s = t := hiff.mpr (hnormal.mpr rfl)
    exact ⟨s, hs, hst ▸ ht⟩
  · obtain ⟨s, t, hs, ht, hiff, -⟩ := toText_eq_iff (flaggedArray.visits (.int 2) none)
      (flaggedArray.visits (.int 0) none) none
    have hdiffer : ¬(flaggedArray (.int 2) none).normalize.equal
        (flaggedArray (.int 0) none).normalize := by
      decide +kernel
    exact ⟨s, t, hs, ht, fun h => hdiffer (hiff.mp h)⟩

end TypeText

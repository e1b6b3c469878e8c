import TypeText.Proofs.Document.Places

/-!
# Where the faults of a document are

A fault is reported with a path, which is a text, and a message.  The path can be followed:
cut at its points it gives keys and decimal indices, and these lead from the root of the
document to a value.  The message is about that value.

Every place of a document is found by its path, and the end of the path shows in which
form the value there is read.  Both are kept from a place to its parts, so that they
hold of all places; a fault is at a place, or at the name of a node one step further
down.

## Main definitions

* `Path.segments` — the steps of a written path.
* `Json.child?`, `Json.follow?` — the value that written steps lead to.
* `Problem.Describes` — what a problem says about a value and the end of its path.
* `Place.IsAt d q` — the path of `q` leads to its value in `d`, and ends as its form asks.

## Main results

* `Problem.message_injective` — a message tells the problem.
* `Path.segments_text?` — the steps are read back from a written path.
* `isAt_of_mem_places` — **every place of a document is found by its path.**
* `Problem.Describes.mem_messages` — the texts of the five messages.
* `exists_follow?_of_ofDocument_eq_error` — the path of a fault leads to the value that
  its message describes.
-/

set_option autoImplicit false

namespace TypeText

/-! ### Following a path -/

namespace Path

/-- The steps of a written path.  The root has no written path and no steps. -/
def segments : Option String → List String
  | none => []
  | some text => (text.toList.splitOn '.').map String.ofList

/-- The index that a step of digits means. -/
def index? (s : String) : Option Nat :=
  if s ≠ "" ∧ s.toList.all Char.isDigit then some (Nat.ofDigitChars 10 s.toList 0) else none

theorem toList_text_index (i : Nat) : (Step.index i).text.toList = Nat.toDigits 10 i :=
  String.toList_ofList

theorem isDigit_of_mem_text_index {i : Nat} {c : Char} (h : c ∈ (Step.index i).text.toList) :
    c.isDigit := by
  rw [toList_text_index] at h
  exact Nat.isDigit_of_mem_toDigits (by decide) (by decide) h

/-- An index is read back from its written form. -/
theorem index?_text (i : Nat) : index? (Step.index i).text = some i := by
  have hne : (Step.index i).text ≠ "" := by
    intro h
    have hdigits := toList_text_index i
    rw [h] at hdigits
    exact Nat.toDigits_ne_nil hdigits.symm
  have hall : (Step.index i).text.toList.all Char.isDigit := by
    rw [List.all_eq_true]
    intro c hc
    exact isDigit_of_mem_text_index hc
  rw [index?, if_pos ⟨hne, hall⟩, toList_text_index, Nat.ofDigitChars_ten_toDigits]

/-- The steps are read back from a written path, if there is no point in them. -/
theorem segments_text? {path : Path} (h : ∀ s ∈ path, '.' ∉ s.text.toList) :
    segments path.text? = path.map Step.text := by
  cases path with
  | nil => rfl
  | cons s path =>
    -- the points of the text are those between the steps
    have hsplit : List.splitOn '.' (".".intercalate ((s :: path).map Step.text)).toList =
        ((s :: path).map Step.text).map String.toList := by
      rw [String.toList_intercalate]
      refine List.splitOn_intercalate '.' ?_ (by simp)
      intro l hl
      obtain ⟨t, ht, rfl⟩ := List.mem_map.mp hl
      obtain ⟨u, hu, rfl⟩ := List.mem_map.mp ht
      exact h u hu
    rw [text?, if_neg (by simp), segments, hsplit, List.map_map]
    simp [Function.comp_def]

end Path

namespace Json

/-- The value that one written step leads to: a key through an object, a decimal number
through an array. -/
def child? : Json → String → Option Json
  | .obj members, s => lookup s members
  | .arr items, s => (Path.index? s).bind fun i => items[i]?
  | _, _ => none

/-- The value that written steps lead to. -/
def follow? (v : Json) (segments : List String) : Option Json := segments.foldlM child? v

theorem follow?_concat {v w : Json} {segments : List String} (h : v.follow? segments = some w)
    (s : String) : v.follow? (segments ++ [s]) = w.child? s := by
  rw [follow?] at h ⊢
  rw [List.foldlM_append, h]
  simp

theorem child?_eq_get? {v w : Json} {key : String} (h : v.get? key = some w) :
    v.child? key = some w := by
  cases v with
  | obj members => exact h
  | _ => simp [get?] at h

end Json

/-! ### Messages -/

namespace Problem

/-- What a problem says about a value and about the steps that lead to it. -/
def Describes (segments : List String) (v : Json) : Problem → Prop
  | .notNode typeName => (∀ members, v ≠ .obj members) ∧ typeName = v.typeName
  | .missingType => ∃ members, v = .obj members ∧ ∀ tag, lookup "type" members ≠ some (.str tag)
  | .nameNotString typeName =>
    (∃ init, segments = init ++ ["name"]) ∧ v ≠ .null ∧ (∀ name, v ≠ .str name) ∧
      typeName = v.typeName
  | .notList typeName =>
    (∃ init, ∃ key ∈ ["elements", "applications", "params", "fields"],
      segments = init ++ [key]) ∧ v ≠ .null ∧ (∀ items, v ≠ .arr items) ∧ typeName = v.typeName
  | .notField typeName =>
    (∃ init i, segments = init ++ ["fields", toString (i : Nat)]) ∧
      (∀ members, v ≠ .obj members) ∧ typeName = v.typeName

/-- The twelfth character of its message, which no two problems share. -/
def sign : Problem → Char
  | .notNode _ => 'n'
  | .missingType => 'p'
  | .nameNotString _ => 'a'
  | .notList _ => 'l'
  | .notField _ => 'f'

theorem getElem?_message : ∀ p : Problem, p.message.toList[11]? = some p.sign
  | .notNode typeName => by
    change ("Expected a node object, got " ++ typeName).toList[11]? = some 'n'
    simp
  | .missingType => by
    change "Missing 'type' field in serialized node".toList[11]? = some 'p'
    simp
  | .nameNotString typeName => by
    change ("Expected 'name' to be a string, got " ++ typeName).toList[11]? = some 'a'
    simp
  | .notList typeName => by
    change ("Expected a list, got " ++ typeName).toList[11]? = some 'l'
    simp
  | .notField typeName => by
    change ("Expected a field object, got " ++ typeName).toList[11]? = some 'f'
    simp

/-- A message tells the problem. -/
theorem message_injective : Function.Injective message := by
  intro p q h
  -- the twelfth character tells the constructors apart, and the rest of the text the type names
  have hsign : p.sign = q.sign := by
    rw [← Option.some.injEq, ← getElem?_message, ← getElem?_message, h]
  cases p with
  | notNode s =>
    cases q with
    | notNode t => exact congrArg _ ((String.append_right_inj _).mp h)
    | _ => simp [sign] at hsign
  | missingType =>
    cases q with
    | missingType => rfl
    | _ => simp [sign] at hsign
  | nameNotString s =>
    cases q with
    | nameNotString t => exact congrArg _ ((String.append_right_inj _).mp h)
    | _ => simp [sign] at hsign
  | notList s =>
    cases q with
    | notList t => exact congrArg _ ((String.append_right_inj _).mp h)
    | _ => simp [sign] at hsign
  | notField s =>
    cases q with
    | notField t => exact congrArg _ ((String.append_right_inj _).mp h)
    | _ => simp [sign] at hsign

/-- The five problems that a value can have and their messages, which name its type. -/
theorem Describes.mem_messages {segments : List String} {v : Json} {p : Problem}
    (h : p.Describes segments v) :
    (p.message, p) ∈
      [("Expected a node object, got " ++ v.typeName, notNode v.typeName),
        ("Missing 'type' field in serialized node", missingType),
        ("Expected 'name' to be a string, got " ++ v.typeName, nameNotString v.typeName),
        ("Expected a list, got " ++ v.typeName, notList v.typeName),
        ("Expected a field object, got " ++ v.typeName, notField v.typeName)] := by
  cases p with
  | notNode =>
    obtain ⟨-, rfl⟩ := h
    exact .head _
  | missingType => exact .tail _ (.head _)
  | nameNotString =>
    obtain ⟨-, -, -, rfl⟩ := h
    exact .tail _ (.tail _ (.head _))
  | notList =>
    obtain ⟨-, -, -, rfl⟩ := h
    exact .tail _ (.tail _ (.tail _ (.head _)))
  | notField =>
    obtain ⟨-, -, rfl⟩ := h
    exact .tail _ (.tail _ (.tail _ (.tail _ (.head _))))

end Problem

namespace Document

/-! ### Places and their paths -/

/-- What the steps to a value show about the form in which it is read. -/
def Form.Suits (segments : List String) (v : Json) : Form → Prop
  | .node => True
  | .nodes =>
    (∃ init, ∃ key ∈ ["elements", "applications", "params", "fields"],
      segments = init ++ [key]) ∧ v ≠ .null
  | .field => ∃ init i, segments = init ++ ["fields", toString (i : Nat)]
  | .fields => (∃ init, segments = init ++ ["fields"]) ∧ v ≠ .null

/-- The path of a place leads to its value, and ends as its form asks. -/
structure Place.IsAt (d : Json) (q : Place) : Prop where
  follow : d.follow? (q.path.map Path.Step.text) = some q.value
  plain : ∀ s ∈ q.path, '.' ∉ s.text.toList
  suits : q.form.Suits (q.path.map Path.Step.text) q.value

theorem keys_spec : ∀ k ∈ nodeKeys ++ fieldKeys, '.' ∉ k.1.toList ∧ k.2 ≠ .field ∧
    (k.2 = .nodes → k.1 ∈ ["elements", "applications", "params", "fields"]) ∧
    (k.2 = .fields → k.1 = "fields") := by
  decide

theorem plain_concat {path : Path} (h : ∀ s ∈ path, '.' ∉ s.text.toList) {s : Path.Step}
    (hs : '.' ∉ s.text.toList) : ∀ t ∈ path ++ [s], '.' ∉ t.text.toList := by
  intro t ht
  rcases List.mem_append.mp ht with ht | ht
  · exact h t ht
  · exact List.mem_singleton.mp ht ▸ hs

/-- A part of a value is found one step after the value. -/
theorem Place.IsAt.part {d : Json} {q : Place} (h : q.IsAt d) {p : Part}
    (hp : p ∈ q.form.parts q.value) : Place.IsAt d ⟨q.path ++ [p.step], p.form, p.value⟩ := by
  obtain ⟨path, form, v⟩ := q
  obtain ⟨step, partForm, w⟩ := p
  have htexts : (path ++ [step]).map Path.Step.text = path.map Path.Step.text ++ [step.text] :=
    List.map_append
  have hfollow := Json.follow?_concat h.follow step.text
  rcases Form.mem_parts hp with ⟨keys, key, hkeys, hkey, rfl, hmember⟩ |
    ⟨items, i, hform, hv, rfl, hitem⟩
  · -- under a key: the key shows the form, and what is under it is not null
    have hmem : (key, partForm) ∈ nodeKeys ++ fieldKeys := by
      rcases hkeys with ⟨-, rfl⟩ | ⟨-, rfl⟩
      · exact List.mem_append_left _ hkey
      · exact List.mem_append_right _ hkey
    obtain ⟨hpoint, hfield, hnodes, hfields⟩ := keys_spec _ hmem
    obtain ⟨hget, hnull⟩ := member?_eq_some_iff.mp hmember
    refine ⟨?_, plain_concat h.plain hpoint, ?_⟩
    · rw [htexts, hfollow]
      exact Json.child?_eq_get? hget
    · cases partForm with
      | node => trivial
      | nodes => exact ⟨⟨_, key, hnodes rfl, htexts⟩, hnull⟩
      | field => exact absurd rfl hfield
      | fields =>
        obtain rfl : key = "fields" := hfields rfl
        exact ⟨⟨_, htexts⟩, hnull⟩
  · -- an item: only the items of a list of fields are fields
    have hpoint : '.' ∉ (Path.Step.index i).text.toList := fun hmem =>
      absurd (Path.isDigit_of_mem_text_index hmem) (by decide)
    refine ⟨?_, plain_concat h.plain hpoint, ?_⟩
    · dsimp only at hv
      rw [htexts, hfollow, hv, Json.child?, Path.index?_text]
      exact hitem
    · rcases hform with ⟨-, rfl⟩ | ⟨rfl, rfl⟩
      · trivial
      · obtain ⟨⟨init, hinit⟩, -⟩ := h.suits
        exact ⟨init, i, htexts.trans (by rw [hinit, List.append_assoc]; rfl)⟩

/-- **Every place of a document is found by its path.** -/
theorem isAt_of_mem_places {d : Json} : ∀ q ∈ places .node [] d, q.IsAt d :=
  forall_mem_places (fun _ hq _ hp => hq.part hp) .node [] d
    ⟨rfl, fun _ hs => absurd hs List.not_mem_nil, trivial⟩

/-! ### Faults and their paths -/

theorem mem_tagFaults {path : Path} {tag : Option Json} {f : Fault} (h : f ∈ tagFaults path tag) :
    f = ⟨path, .missingType⟩ ∧ ∀ s, tag ≠ some (.str s) := by
  unfold tagFaults at h
  split at h
  · exact absurd h List.not_mem_nil
  · next hne => exact ⟨List.mem_singleton.mp h, hne⟩

theorem mem_nameFaults {path : Path} {name : Option Json} {f : Fault}
    (h : f ∈ nameFaults path name) :
    ∃ w, name = some w ∧ w ≠ .null ∧ (∀ s, w ≠ .str s) ∧
      f = ⟨path ++ [.key "name"], .nameNotString w.typeName⟩ := by
  unfold nameFaults at h
  split at h
  · exact absurd h List.not_mem_nil
  · exact absurd h List.not_mem_nil
  · exact absurd h List.not_mem_nil
  · next w hnull hstr => exact ⟨w, rfl, hnull, hstr, List.mem_singleton.mp h⟩

/-- The path of a fault leads to the value that the fault is about. -/
theorem Place.IsAt.fault {d : Json} {q : Place} (h : q.IsAt d) {f : Fault} (hf : f ∈ q.faults) :
    (∀ s ∈ f.path, '.' ∉ s.text.toList) ∧ ∃ v, d.follow? (f.path.map Path.Step.text) = some v ∧
      f.problem.Describes (f.path.map Path.Step.text) v := by
  obtain ⟨path, form, v⟩ := q
  cases form with
  | node =>
    cases v with
    | obj members =>
      rcases List.mem_append.mp hf with hf | hf
      · obtain ⟨rfl, htag⟩ := mem_tagFaults hf
        exact ⟨h.plain, _, h.follow, members, rfl, htag⟩
      · -- the one fault that is a step further down than its place
        obtain ⟨w, hname, hnull, hstr, rfl⟩ := mem_nameFaults hf
        have htexts : (path ++ [Path.Step.key "name"]).map Path.Step.text =
            path.map Path.Step.text ++ ["name"] := List.map_append
        refine ⟨plain_concat h.plain (by decide), w, ?_, ⟨_, htexts⟩, hnull, hstr, rfl⟩
        rw [htexts, Json.follow?_concat h.follow]
        exact Json.child?_eq_get? hname
    | _ =>
      obtain rfl := List.mem_singleton.mp hf
      exact ⟨h.plain, _, h.follow, by simp, rfl⟩
  | nodes =>
    -- the place says that it is under a key of lists, and not null
    obtain ⟨hend, hnull⟩ := h.suits
    cases v with
    | arr items => exact absurd hf List.not_mem_nil
    | _ =>
      obtain rfl := List.mem_singleton.mp hf
      exact ⟨h.plain, _, h.follow, hend, hnull, by simp, rfl⟩
  | field =>
    cases v with
    | obj members => exact absurd hf List.not_mem_nil
    | _ =>
      obtain rfl := List.mem_singleton.mp hf
      exact ⟨h.plain, _, h.follow, h.suits, by simp, rfl⟩
  | fields =>
    obtain ⟨⟨init, hinit⟩, hnull⟩ := h.suits
    cases v with
    | arr items => exact absurd hf List.not_mem_nil
    | _ =>
      obtain rfl := List.mem_singleton.mp hf
      exact ⟨h.plain, _, h.follow, ⟨init, "fields", by decide, hinit⟩, hnull, by simp, rfl⟩

end Document

/-- The path of a fault, cut at its points and followed from the root, leads to a value of the
document, and that value is what the message of the fault says.  The message is one of five,
and names the type of the value unless a tag is missing. -/
theorem exists_follow?_of_ofDocument_eq_error {d : Json} {f : Fault}
    (h : Node.ofDocument d = .error f) :
    ∃ v, d.follow? (Path.segments f.path.text?) = some v ∧
      (∀ p : Problem, f.problem.message = p.message →
        p.Describes (Path.segments f.path.text?) v) ∧
      (f.problem.message, f.problem) ∈
        [("Expected a node object, got " ++ v.typeName, .notNode v.typeName),
          ("Missing 'type' field in serialized node", .missingType),
          ("Expected 'name' to be a string, got " ++ v.typeName, .nameNotString v.typeName),
          ("Expected a list, got " ++ v.typeName, .notList v.typeName),
          ("Expected a field object, got " ++ v.typeName, .notField v.typeName)] := by
  have hfirst : (Document.faults .node [] d).head? = some f := by
    have hread := Document.fault?_readNode d []
    rw [← hread, show Document.readNode [] d = .error f from h]
    rfl
  obtain ⟨q, hq, hf⟩ := List.mem_flatMap.mp (List.mem_of_mem_head? hfirst)
  obtain ⟨hplain, v, hfollow, hdescribes⟩ := (Document.isAt_of_mem_places q hq).fault hf
  rw [Path.segments_text? hplain]
  refine ⟨v, hfollow, fun p hp => ?_, hdescribes.mem_messages⟩
  rw [← Problem.message_injective hp]
  exact hdescribes

/-- A union of a record with a number among its fields. -/
def numberedField : Json :=
  .obj
    [("type", .str "TypeUnion"),
      ("elements", .arr
        [.obj [("type", .str "RecordType"), ("fields", .arr [.obj [("key", .null)], .int 7])]])]

theorem exists_follow?_of_ofDocument_eq_error_numberedField :
    Node.ofDocument numberedField =
        .error ⟨[.key "elements", .index 0, .key "fields", .index 1], .notField "int"⟩ ∧
      ∃ v, numberedField.follow? (Path.segments (some "elements.0.fields.1")) = some v ∧
        (∀ p : Problem, "Expected a field object, got int" = p.message →
          p.Describes (Path.segments (some "elements.0.fields.1")) v) ∧
        ("Expected a field object, got int", Problem.notField "int") ∈
          [("Expected a node object, got " ++ v.typeName, .notNode v.typeName),
            ("Missing 'type' field in serialized node", .missingType),
            ("Expected 'name' to be a string, got " ++ v.typeName, .nameNotString v.typeName),
            ("Expected a list, got " ++ v.typeName, .notList v.typeName),
            ("Expected a field object, got " ++ v.typeName, .notField v.typeName)] := by
  have hfault : Node.ofDocument numberedField =
      .error ⟨[.key "elements", .index 0, .key "fields", .index 1], .notField "int"⟩ := by
    simp [Node.ofDocument, numberedField, Document.readNode, Document.readTag, Document.readName,
      Document.readSlot_eq, Document.readList_eq, Document.readFields_eq, Document.readItems,
      Document.readFieldItems, Document.readField, Document.member?, lookup_cons, Document.fault,
      Json.typeName, bind, Except.bind, Except.map, pure, Except.pure]
  exact ⟨hfault, exists_follow?_of_ofDocument_eq_error hfault⟩

end TypeText

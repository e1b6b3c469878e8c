import TypeText.Document.Writer
import TypeText.Proofs.Positions

/-!
# What writing a tree looks at

The document of a tree holds those subtrees that its nodes write: the type after a name
or the base of an application, whichever the kind reads, and all other parts.  A tree
has a document when the nodes reached in this way have no missing items in their lists.

## Main definitions

* `Layer.writtenParts`, `Layer.written` — the subtrees that the document of a node holds, with and
  without their slots, in the order of reading.
* `Node.Visits n m` — writing `n` reaches `m`.
* `Layer.IsComplete` — no item of a list is missing.
* `Document.nodePairs`, `Document.fieldPairs` — the keys of a document with their values.

## Main results

* `Node.forall_visits_mk` — a property of all visited nodes, at the root and below.
* `writeLayer_eq_some_iff`, `writeField_eq_some_iff` — a node or a field is written when
  each of its parts is.
* `get?_node`, `get?_field` — what stands under a key of a document.
-/

set_option autoImplicit false

namespace TypeText

/-! ### Visited nodes -/

namespace Layer

variable {α β : Type}

/-- The part that stands under the key shared by names and applications. -/
def expression (l : Layer α) : Option α :=
  if l.kind? = some .application then l.base else l.inner

theorem expression_map (f : α → β) (l : Layer α) : (l.map f).expression = l.expression.map f := by
  unfold expression
  rw [kind?_map]
  split <;> rfl

/-- The slot of the part under the key shared by names and applications. -/
def expressionSlot (l : Layer α) : Slot := if l.kind? = some .application then .base else .inner

theorem expressionSlot_map (f : α → β) (l : Layer α) :
    (l.map f).expressionSlot = l.expressionSlot := by
  rw [expressionSlot, expressionSlot, kind?_map]

/-- The subtrees that the document of a node holds with their slots, in the order of reading. -/
def writtenParts (l : Layer α) : List (Slot × α) :=
  slotted l.expressionSlot l.expression ++ slotted .newType l.newType ++
    slotted .thisType l.thisType ++ slotted .result l.result ++ numbered .member l.members ++
    numbered .argument l.arguments ++ numbered .param l.params ++ numberedFields l.fields

theorem writtenParts_map (f : α → β) (l : Layer α) :
    (l.map f).writtenParts = l.writtenParts.map fun q => (q.1, f q.2) := by
  rw [writtenParts, writtenParts, expressionSlot_map, expression_map]
  simp only [map, slotted_map, numbered_map, numberedFields_map, List.map_append]

/-- The subtrees that the document of a node holds, in the order of reading. -/
def written (l : Layer α) : List α := l.writtenParts.map Prod.snd

/-- What is written, by the parts of a node. -/
theorem written_eq (l : Layer α) :
    l.written = l.expression.toList ++ l.newType.toList ++ l.thisType.toList ++ l.result.toList ++
      present l.members ++ present l.arguments ++ present l.params ++
      (l.fields.getD []).flatMap Field.children := by
  simp only [written, writtenParts, List.map_append, map_snd_slotted, map_snd_numbered,
    map_snd_numberedFields]

theorem written_map (f : α → β) (l : Layer α) : (l.map f).written = l.written.map f := by
  rw [written, writtenParts_map, List.map_map, written, List.map_map]
  rfl

theorem mem_written {l : Layer α} {c : α} :
    c ∈ l.written ↔
      l.expression = some c ∨ l.newType = some c ∨ l.thisType = some c ∨ l.result = some c ∨
      c ∈ present l.members ∨ c ∈ present l.arguments ∨ c ∈ present l.params ∨
      ∃ fields, l.fields = some fields ∧ ∃ f ∈ fields, f.key = some c ∨ f.value = some c := by
  cases hfields : l.fields <;>
    simp [written_eq, Field.children, hfields, Option.mem_toList]

/-- What holds of all written subtrees holds of those in each part. -/
theorem forall_mem_written {l : Layer α} {P : α → Prop} :
    (∀ c ∈ l.written, P c) ↔
      (∀ c ∈ l.expression, P c) ∧ (∀ c ∈ l.newType, P c) ∧ (∀ c ∈ l.thisType, P c) ∧
      (∀ c ∈ l.result, P c) ∧ (∀ c ∈ present l.members, P c) ∧ (∀ c ∈ present l.arguments, P c) ∧
      (∀ c ∈ present l.params, P c) ∧
      ∀ list ∈ l.fields, ∀ f ∈ list, ∀ c, f.key = some c ∨ f.value = some c → P c := by
  have hfields : (∀ list ∈ l.fields, ∀ f ∈ list, ∀ c, f.key = some c ∨ f.value = some c → P c) ↔
      ∀ c, (∃ list, l.fields = some list ∧ ∃ f ∈ list, f.key = some c ∨ f.value = some c) → P c :=
    ⟨fun h c ⟨list, hlist, f, hf, hc⟩ => h list hlist f hf c hc,
      fun h list hlist f hf c hc => h c ⟨list, hlist, f, hf, hc⟩⟩
  rw [hfields]
  simp only [mem_written, or_imp, forall_and, Option.mem_def]

/-- What is written is a subtree. -/
theorem mem_children_of_mem_written {l : Layer α} {c : α} (h : c ∈ l.written) : c ∈ l.children := by
  rw [mem_written] at h
  rw [mem_children]
  rcases h with h | h | h | h | h | h | h | h
  · unfold expression at h
    split at h
    · exact Or.inr (Or.inr (Or.inr (Or.inl h)))
    · exact Or.inl h
  all_goals simp only [h, true_or, or_true]

/-- No item of a list is missing. -/
structure IsComplete (l : Layer α) : Prop where
  members : ∀ items ∈ l.members, none ∉ items
  arguments : ∀ items ∈ l.arguments, none ∉ items
  params : ∀ items ∈ l.params, none ∉ items

end Layer

/-- The nodes that are reached when a tree is written: the root, and what its written
subtrees reach. -/
inductive Node.Visits : Node → Node → Prop where
  | root (n : Node) : Visits n n
  | step {l : Layer Node} {c m : Node} (hc : c ∈ l.written) (h : Visits c m) : Visits (.mk l) m

/-- What holds of all visited nodes holds of the root and of all that its written
subtrees visit. -/
theorem Node.forall_visits_mk {P : Node → Prop} {l : Layer Node} :
    (∀ m, (Node.mk l).Visits m → P m) ↔
      P (.mk l) ∧ ∀ c ∈ l.written, ∀ m, c.Visits m → P m := by
  constructor
  · intro h
    exact ⟨h _ (.root _), fun c hc m hm => h m (.step hc hm)⟩
  · rintro ⟨hroot, hbelow⟩ m hm
    cases hm with
    | root => exact hroot
    | step hc hm => exact hbelow _ hc m hm

/-! ### Objects -/

namespace Document

/-- The members of an object, where keys without a value are left out. -/
def entries (pairs : List (String × Option Json)) : List (String × Json) :=
  pairs.flatMap fun p => entryOf p.1 p.2

/-- The value of an entry. -/
theorem lookup_singleEntry (key k : String) (v : Option Json) :
    lookup key (entryOf k v) = if k = key then v else none := by
  cases v with
  | none => simp [entryOf]
  | some v => simp [entryOf, lookup_cons]

/-- Among distinct keys, each has the value that is given to it. -/
theorem lookup_entries (key : String) :
    ∀ {pairs : List (String × Option Json)}, (pairs.map Prod.fst).Nodup →
      lookup key (entries pairs) = (lookup key pairs).join
  | [], _ => rfl
  | (k, v) :: rest, h => by
    rw [List.map_cons, List.nodup_cons] at h
    have ih := lookup_entries key h.2
    rw [entries, List.flatMap_cons, lookup_append, lookup_singleEntry, ← entries, ih, lookup_cons]
    by_cases hk : k = key
    · rw [lookup_eq_none_of_not_mem (hk ▸ h.1), if_pos hk, if_pos hk]
      rfl
    · rw [if_neg hk, if_neg hk, Option.or_none, Option.or_none]

/-- Keys without a value leave no trace. -/
theorem sublist_map_fst_entries (pairs : List (String × Option Json)) :
    ((entries pairs).map Prod.fst).Sublist (pairs.map Prod.fst) := by
  induction pairs with
  | nil => exact .slnil
  | cons p pairs ih =>
    obtain ⟨key, v⟩ := p
    rw [entries, List.flatMap_cons, ← entries, List.map_append, List.map_cons]
    cases v with
    | none => exact ih.cons key
    | some v => exact ih.cons_cons key

theorem nodup_entries {pairs : List (String × Option Json)} (h : (pairs.map Prod.fst).Nodup) :
    ((entries pairs).map Prod.fst).Nodup :=
  h.sublist (sublist_map_fst_entries pairs)

/-- The keys of the document of a node with their values. -/
def nodePairs {α : Type} (l : Layer α) (expression newType thisType result : Option Json)
    (members arguments params fields : Option (List Json)) : List (String × Option Json) :=
  [("type", some l.tag), ("name", l.name.map .str), ("expression", expression), ("new", newType),
    ("this", thisType), ("result", result), ("elements", members.map .arr),
    ("applications", arguments.map .arr), ("params", params.map .arr), ("fields", fields.map .arr),
    ("optional", flag? l.optional), ("nullable", nullable? l.nullable),
    ("repeatable", flag? l.repeatable)]

/-- The keys of the document of a field with their values. -/
def fieldPairs (key value : Option Json) : List (String × Option Json) :=
  [("type", some (.str Kind.field.tag)), ("key", key), ("value", value)]

/-- A node is written when each of its parts is. -/
theorem writeLayer_eq_some_iff {l : Layer (Option Json)} {d : Json} :
    writeLayer l = some d ↔
      ∃ expression newType thisType result members arguments params fields,
        sequence? l.expression = some expression ∧ sequence? l.newType = some newType ∧
        sequence? l.thisType = some thisType ∧ sequence? l.result = some result ∧
        required l.members = some members ∧ required l.arguments = some arguments ∧
        required l.params = some params ∧ writeFields l.fields = some fields ∧
        d = .obj (entries (nodePairs l expression newType thisType result members arguments params
          fields)) := by
  rw [writeLayer]
  simp only [Option.bind_eq_bind, Option.bind_eq_some_iff, ← exists_and_left, pure,
    Option.some.injEq, eq_comm (a := d)]
  simp only [entries, nodePairs, List.flatMap_cons, List.flatMap_nil, List.append_nil,
    List.append_assoc]
  rfl

/-- A field is written when its key and its value are. -/
theorem writeField_eq_some_iff {f : Field (Option Json)} {d : Json} :
    writeField f = some d ↔
      ∃ key value, sequence? f.key = some key ∧ sequence? f.value = some value ∧
        d = .obj (entries (fieldPairs key value)) := by
  rw [writeField]
  simp only [Option.bind_eq_bind, Option.bind_eq_some_iff, ← exists_and_left, pure,
    Option.some.injEq, eq_comm (a := d)]
  simp only [entries, fieldPairs, List.flatMap_cons, List.flatMap_nil, List.append_nil,
    List.append_assoc]
  rfl

/-- What stands under a key of the document of a node. -/
theorem get?_node {α : Type} (l : Layer α) (expression newType thisType result : Option Json)
    (members arguments params fields : Option (List Json)) (key : String) :
    (Json.obj (entries (nodePairs l expression newType thisType result members arguments params
      fields))).get? key = (lookup key (nodePairs l expression newType thisType result members
        arguments params fields)).join :=
  lookup_entries key (by simp [nodePairs])

/-- What stands under a key of the document of a field. -/
theorem get?_field (key value : Option Json) (k : String) :
    (Json.obj (entries (fieldPairs key value))).get? k = (lookup k (fieldPairs key value)).join :=
  lookup_entries k (by simp [fieldPairs])

end Document

end TypeText

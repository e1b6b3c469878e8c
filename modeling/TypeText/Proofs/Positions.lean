import TypeText.Node

/-!
# Positions in a tree

A subtree stands in a slot of a node: in one of its parts, and at a number if the part is a
list.  The slots from the root down to a subtree are its position.

What is computed from a tree need not look at all of it: which slots are opened may depend on
the kind of a node, and so may the order in which they are.  A `View` says both.  A walk
through a tree lists the nodes that a view reaches, each before everything below it.

## Main definitions

* `Slot`, `Position`, `Layer.at?` — slots, positions, and the subtree in a slot.
* `View` — the slots that are opened, and their subtrees in order.
* `Node.follow?` — the node at a position that a view reaches.
* `Node.walk` — the tags of all such nodes with their positions, each node before those below.
* `Layer.shown`, `View.text` — what a text shows of a node, and of a tree, in the order of the
  text.
* `Slot.Precedes`, `Position.Before` — the order of the slots of a node in a text, and of
  positions.

## Main results

* `Node.mem_walk` — **a walk comes to exactly those positions that can be followed.**
* `Node.pairwise_walk` — a walk through a text goes by the order of positions.
-/

set_option autoImplicit false

namespace TypeText

/-! ### Slots -/

/-- Where a subtree stands in a node. -/
inductive Slot where
  /-- After a name. -/
  | inner
  /-- Among the alternatives of a union. -/
  | member (i : Nat)
  /-- The key of a field. -/
  | key (i : Nat)
  /-- The value of a field. -/
  | value (i : Nat)
  /-- The generic type of an application. -/
  | base
  /-- Among the arguments of an application. -/
  | argument (i : Nat)
  /-- What a constructor function makes. -/
  | newType
  /-- The receiver of a function. -/
  | thisType
  /-- Among the parameters of a function. -/
  | param (i : Nat)
  /-- The result of a function. -/
  | result
deriving DecidableEq

/-- The slots from the root of a tree down to a subtree. -/
abbrev Position : Type := List Slot

namespace Layer

variable {α β : Type}

/-- The subtree in a slot. -/
def at? (l : Layer α) : Slot → Option α
  | .inner => l.inner
  | .member i => (l.members.getD [])[i]?.join
  | .key i => (l.fields.getD [])[i]?.bind Field.key
  | .value i => (l.fields.getD [])[i]?.bind Field.value
  | .base => l.base
  | .argument i => (l.arguments.getD [])[i]?.join
  | .newType => l.newType
  | .thisType => l.thisType
  | .param i => (l.params.getD [])[i]?.join
  | .result => l.result

/-- What stands in a slot is a subtree. -/
theorem mem_children_of_at? {l : Layer α} {s : Slot} {c : α} (h : l.at? s = some c) :
    c ∈ l.children := by
  have hfield : ∀ {i : Nat} {part : Field α → Option α},
      (∀ f : Field α, part f = some c → f.key = some c ∨ f.value = some c) →
      (l.fields.getD [])[i]?.bind part = some c →
      ∃ fields, l.fields = some fields ∧ ∃ f ∈ fields, f.key = some c ∨ f.value = some c := by
    intro i part hpart hbind
    obtain ⟨f, hf, hc⟩ := Option.bind_eq_some_iff.mp hbind
    cases hfields : l.fields with
    | none => simp [hfields] at hf
    | some fields =>
      rw [hfields] at hf
      exact ⟨fields, rfl, f, List.mem_of_getElem? hf, hpart f hc⟩
  rw [mem_children]
  cases s with
  | inner => exact Or.inl h
  | member i => exact Or.inr (Or.inl (mem_present_of_getElem? h))
  | key i => exact Or.inr (Or.inr (Or.inl (hfield (fun f hf => Or.inl hf) h)))
  | value i => exact Or.inr (Or.inr (Or.inl (hfield (fun f hf => Or.inr hf) h)))
  | base => simp only [show l.base = some c from h, true_or, or_true]
  | argument i =>
    have hmem : c ∈ present l.arguments := mem_present_of_getElem? h
    simp only [hmem, true_or, or_true]
  | newType => simp only [show l.newType = some c from h, true_or, or_true]
  | thisType => simp only [show l.thisType = some c from h, true_or, or_true]
  | param i =>
    have hmem : c ∈ present l.params := mem_present_of_getElem? h
    simp only [hmem, true_or, or_true]
  | result => simp only [show l.result = some c from h, or_true]

/-! ### Parts with their slots -/

/-- A part with its slot, nothing if it is missing. -/
def slotted (s : Slot) (o : Option α) : List (Slot × α) := o.toList.map fun c => (s, c)

/-- The items of a list with their slots. -/
def numbered (slot : Nat → Slot) (items : Option (List (Option α))) : List (Slot × α) :=
  (items.getD []).zipIdx.flatMap fun q => slotted (slot q.2) q.1

/-- Key and value of each field with their slots. -/
def numberedFields (fields : Option (List (Field α))) : List (Slot × α) :=
  (fields.getD []).zipIdx.flatMap fun q =>
    slotted (.key q.2) q.1.key ++ slotted (.value q.2) q.1.value

theorem mem_slotted {s t : Slot} {o : Option α} {c : α} :
    (t, c) ∈ slotted s o ↔ t = s ∧ o = some c := by
  cases o <;> simp [slotted, eq_comm]

theorem mem_numbered {slot : Nat → Slot} {items : Option (List (Option α))} {t : Slot} {c : α} :
    (t, c) ∈ numbered slot items ↔ ∃ i, t = slot i ∧ (items.getD [])[i]?.join = some c := by
  simp only [numbered, List.mem_flatMap, Prod.exists, List.mem_zipIdx_iff_getElem?, mem_slotted,
    Option.join_eq_some_iff]
  constructor
  · rintro ⟨item, i, hitem, rfl, rfl⟩
    exact ⟨i, rfl, hitem⟩
  · rintro ⟨i, rfl, hitem⟩
    exact ⟨some c, i, hitem, rfl, rfl⟩

theorem mem_numberedFields {fields : Option (List (Field α))} {t : Slot} {c : α} :
    (t, c) ∈ numberedFields fields ↔
      (∃ i, t = .key i ∧ (fields.getD [])[i]?.bind Field.key = some c) ∨
      ∃ i, t = .value i ∧ (fields.getD [])[i]?.bind Field.value = some c := by
  simp only [numberedFields, List.mem_flatMap, Prod.exists, List.mem_zipIdx_iff_getElem?,
    List.mem_append, mem_slotted, Option.bind_eq_some_iff]
  constructor
  · rintro ⟨f, i, hf, ⟨rfl, hc⟩ | ⟨rfl, hc⟩⟩
    · exact Or.inl ⟨i, rfl, f, hf, hc⟩
    · exact Or.inr ⟨i, rfl, f, hf, hc⟩
  · rintro (⟨i, rfl, f, hf, hc⟩ | ⟨i, rfl, f, hf, hc⟩)
    · exact ⟨f, i, hf, Or.inl ⟨rfl, hc⟩⟩
    · exact ⟨f, i, hf, Or.inr ⟨rfl, hc⟩⟩

theorem slotted_map (f : α → β) (s : Slot) (o : Option α) :
    slotted s (o.map f) = (slotted s o).map fun q => (q.1, f q.2) := by
  cases o <;> rfl

theorem numbered_map (f : α → β) (slot : Nat → Slot) (items : Option (List (Option α))) :
    numbered slot (items.map fun items => items.map fun item => item.map f) =
      (numbered slot items).map fun q => (q.1, f q.2) := by
  cases items with
  | none => rfl
  | some items =>
    simp only [numbered, Option.map_some, Option.getD_some, List.zipIdx_map, List.flatMap_map,
      List.map_flatMap, Prod.map_fst, Prod.map_snd, id_eq, slotted_map]

theorem numberedFields_map (f : α → β) (fields : Option (List (Field α))) :
    numberedFields (fields.map fun fields => fields.map fun x => x.map f) =
      (numberedFields fields).map fun q => (q.1, f q.2) := by
  cases fields with
  | none => rfl
  | some fields =>
    simp only [numberedFields, Option.map_some, Option.getD_some, List.zipIdx_map,
      List.flatMap_map, List.map_flatMap, Prod.map_fst, Prod.map_snd, id_eq, Field.map,
      slotted_map, List.map_append]

theorem map_snd_slotted (s : Slot) (o : Option α) : (slotted s o).map Prod.snd = o.toList := by
  cases o <;> rfl

theorem map_snd_numbered (slot : Nat → Slot) (items : Option (List (Option α))) :
    (numbered slot items).map Prod.snd = present items := by
  have hlist : ∀ (list : List (Option α)) (i : Nat),
      ((list.zipIdx i).flatMap fun q => slotted (slot q.2) q.1).map Prod.snd =
        present (some list) := by
    intro list
    induction list with
    | nil => intro i; rfl
    | cons item list ih =>
      intro i
      rw [List.zipIdx_cons, List.flatMap_cons, List.map_append, ih, map_snd_slotted, present_cons]
  cases items with
  | none => rfl
  | some list => exact hlist list 0

theorem map_snd_numberedFields (fields : Option (List (Field α))) :
    (numberedFields fields).map Prod.snd = (fields.getD []).flatMap Field.children := by
  have hlist : ∀ (list : List (Field α)) (i : Nat),
      ((list.zipIdx i).flatMap fun q =>
          slotted (.key q.2) q.1.key ++ slotted (.value q.2) q.1.value).map Prod.snd =
        list.flatMap Field.children := by
    intro list
    induction list with
    | nil => intro i; rfl
    | cons f list ih =>
      intro i
      rw [List.zipIdx_cons, List.flatMap_cons, List.map_append, ih, List.map_append,
        map_snd_slotted, map_snd_slotted, List.flatMap_cons, Field.children]
  exact hlist (fields.getD []) 0

end Layer

/-! ### Views -/

/-- What is looked at in a tree: the slots that are opened at a node, by its kind, and the
subtrees in them, in the order in which they are looked at. -/
structure View where
  /-- Whether a slot is opened. -/
  isOpen : Option Kind → Slot → Bool
  /-- The subtrees in the open slots, in order. -/
  parts : {α : Type} → Layer α → List (Slot × α)
  parts_map {α β : Type} (f : α → β) (l : Layer α) :
    parts (l.map f) = (parts l).map fun q => (q.1, f q.2)
  mem_parts {α : Type} {l : Layer α} {s : Slot} {c : α} :
    (s, c) ∈ parts l ↔ isOpen l.kind? s ∧ l.at? s = some c

namespace Node

/-- The node at a position, if all slots on the way to it are opened. -/
def follow? (v : View) : Node → Position → Option Node
  | n, [] => some n
  | n, s :: p =>
    if v.isOpen n.layer.kind? s then (n.layer.at? s).bind fun c => follow? v c p else none

/-- The tags of the nodes that are reached with their positions, each node before what is below
it. -/
def walk (v : View) : Node → List (Position × Json) :=
  fold fun l => ([], l.tag) :: (v.parts l).flatMap fun q => q.2.map fun r => (q.1 :: r.1, r.2)

theorem walk_mk (v : View) (l : Layer Node) :
    walk v (.mk l) = ([], l.tag) ::
      (v.parts l).flatMap fun q => (q.2.walk v).map fun r => (q.1 :: r.1, r.2) := by
  rw [walk, fold_mk, v.parts_map, List.flatMap_map]
  rfl

theorem follow?_cons_eq_some_iff {v : View} {n m : Node} {s : Slot} {p : Position} :
    n.follow? v (s :: p) = some m ↔
      ∃ c, (s, c) ∈ v.parts n.layer ∧ c.follow? v p = some m := by
  simp only [follow?, v.mem_parts, Option.ite_none_right_eq_some, Option.bind_eq_some_iff,
    ← exists_and_left, and_assoc]

/-- **A walk comes to exactly those positions that can be followed**, and finds there the tag of
the node. -/
theorem mem_walk {v : View} {n : Node} {p : Position} {tag : Json} :
    (p, tag) ∈ n.walk v ↔ ∃ m, n.follow? v p = some m ∧ m.layer.tag = tag := by
  induction n using Node.induct generalizing p with
  | h l ih =>
    rw [walk_mk, List.mem_cons, List.mem_flatMap]
    cases p with
    | nil => simp [follow?, eq_comm]
    | cons s p =>
      -- the first slot says in which part the walk goes on
      simp only [follow?_cons_eq_some_iff, layer_mk, List.mem_map, Prod.mk.injEq, Prod.exists,
        reduceCtorEq, false_and, false_or, List.cons.injEq]
      constructor
      · rintro ⟨_, c, hc, p, _, hp, ⟨rfl, rfl⟩, rfl⟩
        have hchild := Layer.mem_children_of_at? (v.mem_parts.mp hc).2
        obtain ⟨m, hm, htag⟩ := (ih c hchild).mp hp
        exact ⟨m, ⟨c, hc, hm⟩, htag⟩
      · rintro ⟨m, ⟨c, hc, hm⟩, htag⟩
        have hchild := Layer.mem_children_of_at? (v.mem_parts.mp hc).2
        exact ⟨s, c, hc, p, tag, (ih c hchild).mpr ⟨m, hm, htag⟩, ⟨rfl, rfl⟩, rfl⟩

end Node

/-! ### The view of a text -/

/-- The kinds that show parts of their own in place of a name and the type after it. -/
def Kind.composite : List Kind := [.function, .record, .application, .union]

/-- Whether a kind shows what stands in a slot. -/
def Slot.isShownBy (kind : Option Kind) : Slot → Bool
  | .newType | .thisType | .param _ | .result => kind = some .function
  | .key _ | .value _ => kind = some .record
  | .base | .argument _ => kind = some .application
  | .member _ => kind = some .union
  | .inner => ∀ k ∈ Kind.composite, kind ≠ some k

namespace Layer

variable {α β : Type}

/-- The subtrees that a kind shows with their slots, in the order of the text. -/
def shownParts (l : Layer α) : List (Slot × α) :=
  match l.kind? with
  | some .function =>
    slotted .newType l.newType ++ slotted .thisType l.thisType ++ numbered .param l.params ++
      slotted .result l.result
  | some .record => numberedFields l.fields
  | some .application => slotted .base l.base ++ numbered .argument l.arguments
  | some .union => numbered .member l.members
  | _ => slotted .inner l.inner

theorem shownParts_map (f : α → β) (l : Layer α) :
    (l.map f).shownParts = l.shownParts.map fun q => (q.1, f q.2) := by
  unfold shownParts
  rw [kind?_map]
  split <;>
    simp only [map, slotted_map, numbered_map, numberedFields_map, List.map_append]

theorem mem_shownParts {l : Layer α} {s : Slot} {c : α} :
    (s, c) ∈ l.shownParts ↔ Slot.isShownBy l.kind? s ∧ l.at? s = some c := by
  unfold shownParts Slot.isShownBy
  -- each kind against each slot: the parts it lists are those of the slots it opens
  split <;>
    simp only [List.mem_append, mem_slotted, mem_numbered, mem_numberedFields] <;>
    cases s <;> simp_all [at?, Kind.composite]

/-- The subtrees that a kind shows, in the order of the text. -/
def shown (l : Layer α) : List α := l.shownParts.map Prod.snd

/-- What is shown, by the parts of a node. -/
theorem shown_eq (l : Layer α) :
    l.shown = match l.kind? with
      | some .function =>
        l.newType.toList ++ l.thisType.toList ++ present l.params ++ l.result.toList
      | some .record => (l.fields.getD []).flatMap Field.children
      | some .application => l.base.toList ++ present l.arguments
      | some .union => present l.members
      | _ => l.inner.toList := by
  unfold shown shownParts
  cases l.kind? with
  | none => exact map_snd_slotted _ _
  | some kind =>
    cases kind with
    | function => simp only [List.map_append, map_snd_slotted, map_snd_numbered]
    | record => exact map_snd_numberedFields _
    | application => simp only [List.map_append, map_snd_slotted, map_snd_numbered]
    | union => exact map_snd_numbered _ _
    | _ => exact map_snd_slotted _ _

theorem shown_map (f : α → β) (l : Layer α) : (l.map f).shown = l.shown.map f := by
  rw [shown, shownParts_map, List.map_map, shown, List.map_map]
  rfl

/-- What is shown is a subtree. -/
theorem mem_children_of_mem_shown {l : Layer α} {c : α} (h : c ∈ l.shown) : c ∈ l.children := by
  obtain ⟨⟨s, c⟩, hpart, rfl⟩ := List.mem_map.mp h
  exact mem_children_of_at? (mem_shownParts.mp hpart).2

end Layer

/-- What a text shows of a tree. -/
def View.text : View where
  isOpen := Slot.isShownBy
  parts := Layer.shownParts
  parts_map := Layer.shownParts_map
  mem_parts := Layer.mem_shownParts

/-! ### The order of a text -/

namespace Slot

/-- Where the part of a slot comes among the parts of its node, and where the slot comes in its
part. -/
def order : Slot → Nat × Nat
  | .inner => (0, 0)
  | .member i => (0, i)
  | .key i => (0, 2 * i)
  | .value i => (0, 2 * i + 1)
  | .base => (0, 0)
  | .argument i => (1, i)
  | .newType => (0, 0)
  | .thisType => (1, 0)
  | .param i => (2, i)
  | .result => (3, 0)

/-- The order of the slots of a node in a text. -/
def Precedes (s t : Slot) : Prop :=
  s.order.1 < t.order.1 ∨ s.order.1 = t.order.1 ∧ s.order.2 < t.order.2

end Slot

/-- The order of positions in a text: a node comes before all nodes below it, and what is below
the first of two slots comes before what is below the second. -/
def Position.Before (p q : Position) : Prop := List.Lex Slot.Precedes p q

namespace Layer

variable {α : Type}

theorem pairwise_slotted (s : Slot) (o : Option α) :
    (slotted s o).Pairwise fun q r => q.1.Precedes r.1 := by
  cases o <;> simp [slotted]

theorem pairwise_zipIdx {γ : Type} (xs : List γ) : xs.zipIdx.Pairwise fun q r => q.2 < r.2 := by
  have hnumbers : (xs.zipIdx.map Prod.snd).Pairwise (· < ·) := by
    rw [List.zipIdx_map_snd]
    exact List.pairwise_lt_range'
  exact List.pairwise_map.mp hnumbers

theorem pairwise_numbered {slot : Nat → Slot} (hslot : ∀ i j, i < j → (slot i).Precedes (slot j))
    (items : Option (List (Option α))) :
    (numbered slot items).Pairwise fun q r => q.1.Precedes r.1 := by
  refine List.pairwise_flatMap.mpr ⟨fun q _ => pairwise_slotted _ _, ?_⟩
  refine (pairwise_zipIdx _).imp fun {q r} hqr => ?_
  rintro ⟨s, c⟩ hc ⟨t, d⟩ hd
  rw [(mem_slotted.mp hc).1, (mem_slotted.mp hd).1]
  exact hslot q.2 r.2 hqr

theorem pairwise_numberedFields (fields : Option (List (Field α))) :
    (numberedFields fields).Pairwise fun q r => q.1.Precedes r.1 := by
  refine List.pairwise_flatMap.mpr ⟨fun q _ => ?_, ?_⟩
  · -- in one field the key comes before the value
    refine List.pairwise_append.mpr ⟨pairwise_slotted _ _, pairwise_slotted _ _, ?_⟩
    rintro ⟨s, c⟩ hc ⟨t, d⟩ hd
    rw [(mem_slotted.mp hc).1, (mem_slotted.mp hd).1]
    exact Or.inr ⟨rfl, Nat.lt_succ_self _⟩
  · -- both come before those of a later field
    refine (pairwise_zipIdx _).imp fun {q r} hqr => ?_
    rintro ⟨s, c⟩ hc ⟨t, d⟩ hd
    simp only [List.mem_append, mem_slotted] at hc hd
    rcases hc with ⟨rfl, -⟩ | ⟨rfl, -⟩ <;> rcases hd with ⟨rfl, -⟩ | ⟨rfl, -⟩ <;>
      exact Or.inr ⟨rfl, by simp only [Slot.order]; omega⟩

/-- The parts of a node are shown in the order of their slots. -/
theorem pairwise_shownParts (l : Layer α) :
    l.shownParts.Pairwise fun q r => q.1.Precedes r.1 := by
  have hnumbered : ∀ {slot : Nat → Slot} {k : Nat}, (∀ i, (slot i).order = (k, i)) →
      ∀ i j, i < j → (slot i).Precedes (slot j) := by
    intro slot k hslot i j hij
    exact Or.inr (by rw [hslot, hslot]; exact ⟨rfl, hij⟩)
  unfold shownParts
  split
  · -- the four parts of a signature
    simp only [List.pairwise_append, pairwise_slotted, true_and, List.mem_append, Prod.forall,
      mem_slotted, mem_numbered]
    refine ⟨⟨?_, pairwise_numbered (hnumbered fun i => rfl) _, ?_⟩, ?_⟩
    · rintro _ _ ⟨rfl, -⟩ _ _ ⟨rfl, -⟩
      exact Or.inl (by decide)
    · rintro _ _ (⟨rfl, -⟩ | ⟨rfl, -⟩) _ _ ⟨i, rfl, -⟩
      · exact Or.inl (by simp [Slot.order])
      · exact Or.inl (by simp [Slot.order])
    · rintro _ _ ((⟨rfl, -⟩ | ⟨rfl, -⟩) | ⟨i, rfl, -⟩) _ _ ⟨rfl, -⟩ <;>
        exact Or.inl (by simp [Slot.order])
  · exact pairwise_numberedFields _
  · -- what is applied comes before its arguments
    refine List.pairwise_append.mpr
      ⟨pairwise_slotted _ _, pairwise_numbered (hnumbered fun i => rfl) _, ?_⟩
    rintro ⟨s, c⟩ hc ⟨t, d⟩ hd
    obtain ⟨i, rfl, -⟩ := mem_numbered.mp hd
    rw [(mem_slotted.mp hc).1]
    exact Or.inl (by simp [Slot.order])
  · exact pairwise_numbered (hnumbered fun i => rfl) _
  · exact pairwise_slotted _ _

end Layer

/-- A walk through a text goes by the order of positions. -/
theorem Node.pairwise_walk (n : Node) :
    (n.walk .text).Pairwise fun q r => Position.Before q.1 r.1 := by
  induction n using Node.induct with
  | h l ih =>
    rw [walk_mk, List.pairwise_cons, List.pairwise_flatMap]
    refine ⟨fun r hr => ?_, fun q hq => ?_, ?_⟩
    · -- all positions but that of the root have a first slot
      obtain ⟨q, -, hr⟩ := List.mem_flatMap.mp hr
      obtain ⟨r, -, rfl⟩ := List.mem_map.mp hr
      exact .nil
    · -- below one slot the order is that of the subtree
      have hchild := Layer.mem_children_of_at? (View.text.mem_parts.mp hq).2
      rw [List.pairwise_map]
      exact (ih q.2 hchild).imp fun h => .cons h
    · -- below two slots it is that of the slots
      refine (Layer.pairwise_shownParts l).imp fun {q r} hqr => ?_
      intro x hx y hy
      obtain ⟨x, -, rfl⟩ := List.mem_map.mp hx
      obtain ⟨y, -, rfl⟩ := List.mem_map.mp hy
      exact .rel hqr

end TypeText

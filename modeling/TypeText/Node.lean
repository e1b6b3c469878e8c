import TypeText.Kind

/-!
# Type expressions

A type expression is a tree.  Every node has the same parts whatever its kind: a
kind reads some of them and leaves the others alone, and a part that is not read
may still be there.  Any part may be missing, also an item of a list.

One node without its subtrees is a `Layer`, in which anything may stand for a
subtree.  A tree is a layer of trees.  Everything computed from a tree is computed
layer by layer: `Node.fold` is the one recursion, and what it does to a layer is
said without recursion.

## Main definitions

* `Field`, `Layer` — a record field and a node, over any type of subtrees.
* `Node` — the trees.
* `Node.fold` — the value of a tree, from the values of its subtrees.
* `Node.equal` — equality of trees, up to the equality of tags and flags.

## Main results

* `Node.fold_mk` — `fold` at a node.
* `Node.induct` — a property of trees holds when each tree has it as soon as its
  subtrees do.
* `Layer.map_congr` — a layer is mapped alike by functions that agree on its
  subtrees.
* `Node.fold_fold_mk` — changing the nodes of a tree and computing its value is one
  computation.
-/

set_option autoImplicit false

namespace TypeText

/-! ### Layers -/

/-- A field of a record type. -/
structure Field (α : Type) where
  /-- The name of the field. -/
  key : Option α
  /-- The type of the field. -/
  value : Option α

/-- One node of a type expression, with subtrees of type `α`. -/
structure Layer (α : Type) where
  /-- What the node is; see `Kind.ofTag?`. -/
  tag : Json
  /-- The name, of the kinds that have one. -/
  name : Option String := none
  /-- The type after a name. -/
  inner : Option α := none
  /-- The alternatives of a union. -/
  members : Option (List (Option α)) := none
  /-- The fields of a record. -/
  fields : Option (List (Field α)) := none
  /-- The generic type of an application. -/
  base : Option α := none
  /-- The arguments of an application. -/
  arguments : Option (List (Option α)) := none
  /-- The type that a constructor function makes. -/
  newType : Option α := none
  /-- The type of the receiver of a function. -/
  thisType : Option α := none
  /-- The parameters of a function. -/
  params : Option (List (Option α)) := none
  /-- The result of a function. -/
  result : Option α := none
  /-- Whether the type may be left out; any value is kept as it is given. -/
  optional : Json := .bool false
  /-- Whether the type admits null. -/
  nullable : Nullability := .unspecified
  /-- Whether the type may be repeated; any value is kept as it is given. -/
  repeatable : Json := .bool false

namespace Field

variable {α β : Type}

/-- Applies a function to key and value. -/
def map (f : α → β) (x : Field α) : Field β := ⟨x.key.map f, x.value.map f⟩

/-- Key and value, as far as they are there. -/
def children (x : Field α) : List α := x.key.toList ++ x.value.toList

theorem children_map (f : α → β) (x : Field α) : (x.map f).children = x.children.map f := by
  simp [children, map, Option.toList_map]

end Field

namespace Layer

variable {α β : Type}

/-- The kind of a node, if its tag is known. -/
def kind? (l : Layer α) : Option Kind := Kind.ofTag? l.tag

/-- Applies a function to all subtrees. -/
def map (f : α → β) (l : Layer α) : Layer β where
  tag := l.tag
  name := l.name
  inner := l.inner.map f
  members := l.members.map fun items => items.map fun item => item.map f
  fields := l.fields.map fun items => items.map fun item => item.map f
  base := l.base.map f
  arguments := l.arguments.map fun items => items.map fun item => item.map f
  newType := l.newType.map f
  thisType := l.thisType.map f
  params := l.params.map fun items => items.map fun item => item.map f
  result := l.result.map f
  optional := l.optional
  nullable := l.nullable
  repeatable := l.repeatable

/-- Two functions in turn are their composition. -/
theorem map_map {γ : Type} (f : α → β) (g : β → γ) (l : Layer α) :
    (l.map f).map g = l.map (g ∘ f) := by
  simp [map, Field.map, Option.map_map, Function.comp_def]

@[simp] theorem kind?_map (f : α → β) (l : Layer α) : (l.map f).kind? = l.kind? := rfl

/-- The items that are there of a list that may be missing. -/
def present (items : Option (List (Option α))) : List α :=
  items.toList.flatten.filterMap id

/-- All subtrees. -/
def children (l : Layer α) : List α :=
  l.inner.toList ++ present l.members ++ l.fields.toList.flatten.flatMap Field.children ++
    l.base.toList ++ present l.arguments ++ l.newType.toList ++ l.thisType.toList ++
    present l.params ++ l.result.toList

theorem present_cons (item : Option α) (items : List (Option α)) :
    present (some (item :: items)) = item.toList ++ present (some items) := by
  cases item <;> simp [present]

theorem present_map (f : α → β) (items : Option (List (Option α))) :
    present (items.map fun items => items.map fun item => item.map f) = (present items).map f := by
  cases items with
  | none => rfl
  | some items =>
    simp only [present, Option.map_some, Option.toList_some, List.flatten_singleton]
    rw [List.filterMap_map, List.map_filterMap]
    rfl

theorem fieldChildren_map (f : α → β) (fields : Option (List (Field α))) :
    (fields.map fun fields => fields.map fun x => x.map f).toList.flatten.flatMap Field.children =
      (fields.toList.flatten.flatMap Field.children).map f := by
  cases fields with
  | none => rfl
  | some fields =>
    simp only [Option.map_some, Option.toList_some, List.flatten_singleton, List.flatMap_map,
      List.map_flatMap, Field.children_map]

theorem children_map (f : α → β) (l : Layer α) : (l.map f).children = l.children.map f := by
  simp only [children, map, present_map, fieldChildren_map]
  simp only [Option.toList_map, List.map_append]

/-! Where a subtree can stand, and that a layer with smaller parts is smaller. -/

@[simp] theorem mem_present {items : Option (List (Option α))} {c : α} :
    c ∈ present items ↔ ∃ list, items = some list ∧ some c ∈ list := by
  cases items <;> simp [present]

theorem mem_present_of_getElem? {items : Option (List (Option α))} {i : Nat} {c : α}
    (h : (items.getD [])[i]?.join = some c) : c ∈ present items := by
  cases items with
  | none => simp at h
  | some list =>
    have hitem : list[i]? = some (some c) := Option.join_eq_some_iff.mp h
    exact mem_present.mpr ⟨list, rfl, List.mem_of_getElem? hitem⟩

theorem mem_children {l : Layer α} {c : α} :
    c ∈ l.children ↔
      l.inner = some c ∨ c ∈ present l.members ∨
      (∃ fields, l.fields = some fields ∧ ∃ f ∈ fields, f.key = some c ∨ f.value = some c) ∨
      l.base = some c ∨ c ∈ present l.arguments ∨ l.newType = some c ∨ l.thisType = some c ∨
      c ∈ present l.params ∨ l.result = some c := by
  cases hfields : l.fields <;>
    simp [children, Field.children, hfields, Option.mem_toList]

/-- A layer is mapped alike by functions that agree on its subtrees. -/
theorem map_congr {f g : α → β} {l : Layer α} (h : ∀ c ∈ l.children, f c = g c) :
    l.map f = l.map g := by
  have hoption : ∀ {o : Option α}, (∀ c, o = some c → c ∈ l.children) → o.map f = o.map g := by
    intro o ho
    cases o with
    | none => rfl
    | some c => rw [Option.map_some, Option.map_some, h c (ho c rfl)]
  have hitems : ∀ {items : Option (List (Option α))}, (∀ c ∈ present items, c ∈ l.children) →
      (items.map fun items => items.map fun item => item.map f) =
        items.map fun items => items.map fun item => item.map g := by
    intro items hi
    refine Option.map_congr fun list hlist => List.map_congr_left fun item hitem => ?_
    refine hoption fun c hc => hi c (mem_present.mpr ⟨list, hlist, hc ▸ hitem⟩)
  have hfields : (l.fields.map fun fields => fields.map fun field => field.map f) =
      l.fields.map fun fields => fields.map fun field => field.map g := by
    refine Option.map_congr fun list hlist => List.map_congr_left fun field hfield => ?_
    have hchild : ∀ c, field.key = some c ∨ field.value = some c → c ∈ l.children := fun c hc =>
      mem_children.mpr (Or.inr (Or.inr (Or.inl ⟨list, hlist, field, hfield, hc⟩)))
    rw [Field.map, Field.map, hoption fun c hc => hchild c (Or.inl hc),
      hoption fun c hc => hchild c (Or.inr hc)]
  simp only [map, hfields]
  congr 1 <;> first
    | exact hoption fun c hc => mem_children.mpr (by simp [hc])
    | exact hitems fun c hc => mem_children.mpr (by simp only [hc, true_or, or_true])

end Layer

/-! ### Trees -/

/-- A type expression. -/
inductive Node where
  | mk (layer : Layer Node)

namespace Node

/-- The root of a tree. -/
def layer : Node → Layer Node
  | .mk l => l

@[simp] theorem layer_mk (l : Layer Node) : (Node.mk l).layer = l := rfl

@[simp] theorem mk_layer (n : Node) : Node.mk n.layer = n := by cases n; rfl

section Fold

variable {α : Type} (step : Layer α → α)

mutual

/-- The value of a tree, computed from its root up: `step` says what a node is worth
once its subtrees are replaced by their values. -/
def fold : Node → α
  | .mk l => step (foldLayer l)

/-- Replaces the subtrees of a node by their values. -/
def foldLayer : Layer Node → Layer α
  | ⟨tag, name, inner, members, fields, base, arguments, newType, thisType, params, result,
      optional, nullability, repeatable⟩ =>
    ⟨tag, name, foldOption inner, foldItems? members, foldFields? fields, foldOption base,
      foldItems? arguments, foldOption newType, foldOption thisType, foldItems? params,
      foldOption result, optional, nullability, repeatable⟩

/-- The value of a subtree that may be missing. -/
def foldOption : Option Node → Option α
  | none => none
  | some n => some (fold n)

/-- The values of the items of a list. -/
def foldItems : List (Option Node) → List (Option α)
  | [] => []
  | n :: ns => foldOption n :: foldItems ns

/-- The values of the items of a list that may be missing. -/
def foldItems? : Option (List (Option Node)) → Option (List (Option α))
  | none => none
  | some ns => some (foldItems ns)

/-- The values of key and value of a field. -/
def foldField : Field Node → Field α
  | ⟨key, value⟩ => ⟨foldOption key, foldOption value⟩

/-- The values of a list of fields. -/
def foldFields : List (Field Node) → List (Field α)
  | [] => []
  | f :: fs => foldField f :: foldFields fs

/-- The values of a list of fields that may be missing. -/
def foldFields? : Option (List (Field Node)) → Option (List (Field α))
  | none => none
  | some fs => some (foldFields fs)

end

private theorem foldOption_eq (o : Option Node) : foldOption step o = o.map (fold step) := by
  cases o <;> rfl

private theorem foldItems_eq (items : List (Option Node)) :
    foldItems step items = items.map fun item => item.map (fold step) := by
  induction items with
  | nil => rfl
  | cons item items ih => rw [foldItems, ih, foldOption_eq, List.map_cons]

private theorem foldItems?_eq (items : Option (List (Option Node))) :
    foldItems? step items = items.map fun items => items.map fun item => item.map (fold step) := by
  cases items with
  | none => rfl
  | some items => rw [foldItems?, foldItems_eq, Option.map_some]

private theorem foldFields_eq (fields : List (Field Node)) :
    foldFields step fields = fields.map fun field => field.map (fold step) := by
  induction fields with
  | nil => rfl
  | cons field fields ih =>
    rw [foldFields, ih, foldField, foldOption_eq, foldOption_eq, List.map_cons, Field.map]

private theorem foldFields?_eq (fields : Option (List (Field Node))) :
    foldFields? step fields =
      fields.map fun fields => fields.map fun field => field.map (fold step) := by
  cases fields with
  | none => rfl
  | some fields => rw [foldFields?, foldFields_eq, Option.map_some]

/-- The value of a node is what `step` makes of the node once its subtrees are
replaced by their values. -/
theorem fold_mk (l : Layer Node) : fold step (.mk l) = step (l.map (fold step)) := by
  rw [fold, foldLayer]
  simp only [foldOption_eq, foldItems?_eq, foldFields?_eq, Layer.map]

end Fold

/-! ### Induction -/

private theorem sizeOf_lt_of_eq_some {o : Option Node} {c : Node} (h : o = some c) :
    sizeOf c < sizeOf o := by
  rw [h, Option.some.sizeOf_spec]
  omega

private theorem sizeOf_lt_of_mem_present {items : Option (List (Option Node))} {c : Node}
    (h : c ∈ Layer.present items) : sizeOf c < sizeOf items := by
  obtain ⟨list, hlist, hmem⟩ := Layer.mem_present.mp h
  have hitem := List.sizeOf_lt_of_mem hmem
  rw [Option.some.sizeOf_spec] at hitem
  rw [hlist, Option.some.sizeOf_spec]
  omega

private theorem sizeOf_lt_of_mem_fields {fields : List (Field Node)} {f : Field Node} {c : Node}
    (hf : f ∈ fields) (h : f.key = some c ∨ f.value = some c) :
    sizeOf c < sizeOf fields := by
  have hfield := List.sizeOf_lt_of_mem hf
  obtain ⟨key, value⟩ := f
  rw [Field.mk.sizeOf_spec] at hfield
  dsimp only at h
  rcases h with h | h
  · have := sizeOf_lt_of_eq_some h
    omega
  · have := sizeOf_lt_of_eq_some h
    omega

/-- A subtree is smaller than the tree. -/
theorem sizeOf_lt_of_mem_children {l : Layer Node} {c : Node} (h : c ∈ l.children) :
    sizeOf c < sizeOf (Node.mk l) := by
  rw [Layer.mem_children] at h
  rw [Node.mk.sizeOf_spec]
  obtain ⟨tag, name, inner, members, fields, base, arguments, newType, thisType, params, result,
    optional, nullability, repeatable⟩ := l
  rw [Layer.mk.sizeOf_spec]
  dsimp only at h
  rcases h with h | h | ⟨list, hlist, f, hf, h⟩ | h | h | h | h | h | h
  · have := sizeOf_lt_of_eq_some h
    omega
  · have := sizeOf_lt_of_mem_present h
    omega
  · have := sizeOf_lt_of_mem_fields hf h
    have hsize : sizeOf fields = 1 + sizeOf list := by
      rw [hlist, Option.some.sizeOf_spec]
    omega
  · have := sizeOf_lt_of_eq_some h
    omega
  · have := sizeOf_lt_of_mem_present h
    omega
  · have := sizeOf_lt_of_eq_some h
    omega
  · have := sizeOf_lt_of_eq_some h
    omega
  · have := sizeOf_lt_of_mem_present h
    omega
  · have := sizeOf_lt_of_eq_some h
    omega

/-- A property holds of every tree when it holds of each tree all of whose subtrees
have it. -/
theorem induct {P : Node → Prop} (h : ∀ l : Layer Node, (∀ c ∈ l.children, P c) → P (.mk l)) :
    ∀ n, P n
  | .mk l => h l fun c _ => induct h c
termination_by n => sizeOf n
decreasing_by exact sizeOf_lt_of_mem_children ‹_›

/-- A tree whose nodes are changed one by one has the value that is computed with the change
made on the way. -/
theorem fold_fold_mk {α : Type} (step : Layer α → α) (change : {β : Type} → Layer β → Layer β)
    (hchange : ∀ {β γ : Type} (f : β → γ) (l : Layer β), (change l).map f = change (l.map f))
    (n : Node) :
    fold step (fold (fun l => .mk (change l)) n) = fold (fun l => step (change l)) n := by
  induction n using Node.induct with
  | h l ih =>
    rw [fold_mk, fold_mk, fold_mk, hchange, Layer.map_map]
    exact congrArg (fun m => step (change m)) (Layer.map_congr ih)

/-! ### Equality -/

end Node

namespace Layer

variable {α β : Type}

/-- Compares two parts that may be missing. -/
def agreeOption (r : α → β → Bool) : Option α → Option β → Bool
  | none, none => true
  | some a, some b => r a b
  | _, _ => false

/-- Compares two lists item by item. -/
def agreeList (r : α → β → Bool) : List α → List β → Bool
  | [], [] => true
  | a :: as, b :: bs => r a b && agreeList r as bs
  | _, _ => false

/-- Compares two fields. -/
def agreeField (r : α → β → Bool) (f : Field α) (g : Field β) : Bool :=
  agreeOption r f.key g.key && agreeOption r f.value g.value

/-- Compares two nodes part by part, subtrees by `r`. -/
def agree (r : α → β → Bool) (l : Layer α) (m : Layer β) : Bool :=
  l.tag.same m.tag && l.name == m.name && agreeOption r l.inner m.inner &&
  agreeOption (agreeList (agreeOption r)) l.members m.members &&
  agreeOption (agreeList (agreeField r)) l.fields m.fields &&
  agreeOption r l.base m.base &&
  agreeOption (agreeList (agreeOption r)) l.arguments m.arguments &&
  agreeOption r l.newType m.newType && agreeOption r l.thisType m.thisType &&
  agreeOption (agreeList (agreeOption r)) l.params m.params &&
  agreeOption r l.result m.result && l.optional.same m.optional &&
  l.nullable == m.nullable && l.repeatable.same m.repeatable

end Layer

namespace Node

/-- Equality of trees.  Tags and flags compare as JSON values, so that the flags
`1` and `true` are equal. -/
def equal : Node → Node → Bool :=
  fold fun l n => l.agree (fun equalTo c => equalTo c) n.layer

/-- Equality of trees that may be missing. -/
def equalOption : Option Node → Option Node → Bool := Layer.agreeOption equal

end Node

end TypeText

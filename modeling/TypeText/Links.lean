import TypeText.Log

/-!
# Links

Names can be shown as links.  What a name links to is answered by a table, which
callers give in several forms: a mapping, anything else with a `get` that can be
called, or an object whose own attributes are the entries.  All of them are objects,
and an object is seen as its attributes.

## Main definitions

* `Attribute`, `Attributes` — a value of an object, and an object by its values.
* `Attributes.answer?` — how an object answers lookups, if it does.
* `LinkTable` — an object that answers lookups; `LinkTable.get` is the answer.
* `LinkSource` — what a caller gives; `LinkSource.resolve` makes a table of it.
* `anchor` — a name as a link.
-/

set_option autoImplicit false

namespace TypeText

/-! ### Tables -/

/-- A value that an object has under a name. -/
inductive Attribute where
  /-- Plain data. -/
  | data (v : Json)
  /-- Something that can be called with a name, and its text. -/
  | callable (text : String) (answer : String → Json)

namespace Attribute

/-- A value as an answer: what can be called is shown as its text. -/
def value : Attribute → Json
  | .data v => v
  | .callable text _ => .str text

/-- A value in a message. -/
def literal : Attribute → String
  | .data v => v.literal
  | .callable text _ => text

end Attribute

/-- An object seen as its attributes. -/
structure Attributes where
  /-- The name of the type of the object. -/
  typeName : String
  /-- The attributes that its type gives to every object. -/
  inherited : List (String × Attribute) := []
  /-- The attributes of the object itself; nothing if objects of its type have none. -/
  own : Option (List (String × Attribute)) := none

/-- A list of pairs with each key once, where it first stands, under its last value. -/
def settled {α : Type} : List (String × α) → List (String × α)
  | [] => []
  | (k, v) :: rest => (k, (lookup k rest).getD v) :: (settled rest).filter fun (l, _) => l ≠ k

/-- Settling changes no lookup. -/
theorem lookup_settled {α : Type} (key : String) (pairs : List (String × α)) :
    lookup key (settled pairs) = lookup key pairs := by
  induction pairs with
  | nil => rfl
  | cons p pairs ih =>
    obtain ⟨k, v⟩ := p
    have hrest : lookup key ((settled pairs).filter fun (l, _) => l ≠ k) =
        if key ≠ k then lookup key (settled pairs) else none := by
      simpa only [decide_eq_true_eq] using
        lookup_filter (fun l => decide (l ≠ k)) key (settled pairs)
    rw [settled, lookup_cons, lookup_cons, hrest, ih]
    by_cases hk : k = key
    · rw [hk, if_neg (not_not_intro rfl), if_pos rfl, if_pos rfl]
      cases lookup key pairs <;> rfl
    · rw [if_pos (Ne.symm hk), if_neg hk, if_neg hk]

/-- After settling each key stands once. -/
theorem nodup_settled {α : Type} (pairs : List (String × α)) :
    ((settled pairs).map Prod.fst).Nodup := by
  induction pairs with
  | nil => exact List.nodup_nil
  | cons p pairs ih =>
    obtain ⟨k, v⟩ := p
    refine List.nodup_cons.mpr ⟨?_, ?_⟩
    · intro hmem
      obtain ⟨m, hm, hkey⟩ := List.mem_map.mp hmem
      have hne := (List.mem_filter.mp hm).2
      simp [hkey] at hne
    · exact ih.sublist (List.filter_sublist.map Prod.fst)

namespace Attributes

/-- The value under a name: the object itself comes before its type. -/
def find? (a : Attributes) (name : String) : Option Attribute :=
  (a.own.bind (lookup name)).or (lookup name a.inherited)

/-- How an object answers lookups: by its `get`, if that can be called. -/
def answer? (a : Attributes) : Option (String → Json) :=
  match a.find? "get" with
  | some (.callable _ answer) => some answer
  | _ => none

/-- An attribute of the object itself; what it inherits does not count. -/
def get (a : Attributes) (name : String) : Json :=
  ((lookup name (a.own.getD [])).map Attribute.value).getD .null

/-- The own attributes in a message, each once; one without a name is not shown. -/
def describe (a : Attributes) : String :=
  let shown := (settled (a.own.getD [])).filter fun (name, _) => name ≠ ""
  "NamespaceLinks(namespace(" ++
    ", ".intercalate (shown.map fun (name, v) => name ++ "=" ++ v.literal) ++ "))"

/-- An object that has nothing but a `get`, which it takes from its type. -/
def answering (typeName : String) (answer : String → Json) : Attributes where
  typeName
  inherited := [("get", .callable "get" answer)]

end Attributes

/-- An object that answers lookups of names. -/
structure LinkTable where
  owner : Attributes
  answers : owner.answer?.isSome

namespace LinkTable

/-- What a name links to; `null` for an unknown name. -/
def get (t : LinkTable) : String → Json := t.owner.answer?.get t.answers

/-- The table of a mapping. -/
def mapping (entries : List (String × Json)) : LinkTable where
  owner := .answering "dict" fun name => (lookup name entries).getD .null
  answers := rfl

/-- The table of the own attributes of an object. -/
def attributes (a : Attributes) : LinkTable where
  owner := .answering "NamespaceLinks" a.get
  answers := rfl

end LinkTable

/-! ### Sources -/

/-- What a caller gives as link table. -/
inductive LinkSource where
  /-- No table. -/
  | absent
  /-- Some object, which may or may not serve as table. -/
  | object (a : Attributes)

/-- A link table of a type that cannot serve as one. -/
structure UnsupportedTable where
  /-- The name of the type. -/
  typeName : String
deriving DecidableEq

namespace UnsupportedTable

/-- The wording of the failure. -/
def message (e : UnsupportedTable) : String :=
  "Unsupported link table '" ++ e.typeName ++
    "': expected a mapping, an object with get(), or a namespace"

end UnsupportedTable

namespace LinkSource

/-- A table that may be missing, as a source. -/
def ofTable? : Option LinkTable → LinkSource
  | none => .absent
  | some t => .object t.owner

/-- A mapping as a source. -/
def mapping (entries : List (String × Json)) : LinkSource := ofTable? (some (.mapping entries))

/-- A JSON value given as link table: an object is a mapping, and besides it only `null` can be
taken. -/
def ofJson : Json → LinkSource
  | .null => .absent
  | .obj members => mapping members
  | v => .object { typeName := v.typeName }

/-- The table that a source gives.  What answers lookups is taken as it is; the use
of an object's attributes is reported. -/
def resolve : LinkSource → Except UnsupportedTable (Logged (Option LinkTable))
  | .absent => .ok ⟨none, []⟩
  | .object a =>
    if h : a.answer?.isSome then .ok ⟨some ⟨a, h⟩, []⟩
    -- an empty list of attributes is enough
    else if a.own.isSome then .ok ⟨some (.attributes a), [.attributeTable a.typeName]⟩
    else .error ⟨a.typeName⟩

section Resolve

variable {a : Attributes}

theorem resolve_of_answer? (h : a.answer?.isSome) :
    resolve (.object a) = .ok ⟨some ⟨a, h⟩, []⟩ := dif_pos h

theorem resolve_of_own (h : a.answer? = none) (hown : a.own.isSome) :
    resolve (.object a) = .ok ⟨some (.attributes a), [.attributeTable a.typeName]⟩ := by
  rw [resolve, dif_neg (by simp [h]), if_pos hown]

/-- What becomes of an object: it is taken as it is, its attributes are, or it is refused. -/
theorem resolve_cases (a : Attributes) :
    (∃ h : a.answer?.isSome, resolve (.object a) = .ok ⟨some ⟨a, h⟩, []⟩) ∨
      (a.answer? = none ∧ a.own.isSome ∧
        resolve (.object a) = .ok ⟨some (.attributes a), [.attributeTable a.typeName]⟩) ∨
      a.answer? = none ∧ a.own = none ∧ resolve (.object a) = .error ⟨a.typeName⟩ := by
  by_cases hanswer : a.answer?.isSome
  · exact .inl ⟨hanswer, resolve_of_answer? hanswer⟩
  · have hnone : a.answer? = none := Option.not_isSome_iff_eq_none.mp hanswer
    by_cases hown : a.own.isSome
    · exact .inr (.inl ⟨hnone, hown, resolve_of_own hnone hown⟩)
    · refine .inr (.inr ⟨hnone, Option.not_isSome_iff_eq_none.mp hown, ?_⟩)
      rw [resolve, dif_neg hanswer, if_neg hown]

end Resolve

/-- A table is taken as it is, whether it was made of an object's attributes or not. -/
@[simp] theorem resolve_ofTable? (t : Option LinkTable) : resolve (ofTable? t) = .ok ⟨t, []⟩ := by
  cases t with
  | none => rfl
  | some t => exact resolve_of_answer? t.answers

end LinkSource

/-! ### Markup -/

/-- A name as a link to `href`, with a class if one is set; the name alone if `href`
is not set. -/
def anchor (name : String) (href linkClass : Json) : String :=
  if href.isTruthy then
    "<a href=\"" ++ href.display ++ "\"" ++
      (if linkClass.isTruthy then " class=\"" ++ linkClass.display ++ "\"" else "") ++
      ">" ++ name ++ "</a>"
  else name

end TypeText

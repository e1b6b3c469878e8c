import TypeText.Render

/-!
# Canonical trees and their text

A tree is canonical when every part that its kind reads is set to something the
notation shows, and no other part is set.  Where a sign could be read as belonging to
a part or to the whole, it belongs to the whole: the type after a name and the result
of a function are not optional themselves.

What may serve as a name is left open in the definition.  `isIdentifier` is the answer
under which the text of a canonical tree can be read back: a name is not empty, has no
delimiter in it, does not start like a modifier and is not a word of the notation.

Texts are taken apart here as lists of characters, one equation for each kind.

## Main definitions

* `isIdentifier` — the names that the notation cannot mistake for something else.
* `Modifiers`, `Modifiers.apply` — the modifiers of a node, and a node with them.
* `Canonical names n` — `n` is canonical, with names from `names`.
* `Config.IsPlain` — no links, no entities, modifiers shown.
* `Node.chars`, `Layer.bodyChars` — the text of a tree, and of a node without its
  modifiers.

## Main results

* `chars_eq` — modifiers stand around the text of the node.
* `bodyChars_ofName`, `bodyChars_ofLiteral`, `bodyChars_ofUnion`, `bodyChars_ofRecord`,
  `bodyChars_ofApplication`, `bodyChars_ofFunction` — the text of each kind.
-/

set_option autoImplicit false

namespace TypeText

/-! ### Names -/

/-- The characters that have a meaning of their own in the notation. -/
def delimiters : List Char := ['(', ')', '\x7b', '\x7d', '<', '>', '|', ',', ':', '=']

/-- The words that have a meaning of their own in the notation. -/
def reservedWords : List String := ["*", "null", "undefined", "new", "this"]

/-- Whether a text is read as a name wherever it stands. -/
def isIdentifier (s : String) : Bool :=
  s != "" && s.toList.all (fun c => !delimiters.contains c) &&
    s.toList.head? != some '?' && s.toList.head? != some '!' &&
    !(['.', '.', '.'].isPrefixOf s.toList) && !reservedWords.contains s

/-! ### Canonical trees -/

/-- The modifiers of a node. -/
structure Modifiers where
  optional : Bool := false
  nullable : Nullability := .unspecified
  repeatable : Bool := false

namespace Modifiers

/-- A node with the given modifiers in place of its own. -/
def apply (m : Modifiers) (l : Layer Node) : Node :=
  .mk { l with optional := .bool m.optional, nullable := m.nullable,
               repeatable := .bool m.repeatable }

/-- The signs in front of a type. -/
def before (m : Modifiers) : List Char :=
  (if m.repeatable then ['.', '.', '.'] else []) ++ m.nullable.mark.toList

/-- The sign after a type. -/
def after (m : Modifiers) : List Char := if m.optional then ['='] else []

end Modifiers

namespace Layer

/-- A name, with or without a type after it. -/
def ofName (s : String) (inner : Option Node) : Layer Node :=
  { tag := .str Kind.name.tag, name := some s, inner }

/-- A node that has nothing but its kind. -/
def ofLiteral (k : Kind) : Layer Node := { tag := .str k.tag }

/-- A choice between types. -/
def ofUnion (members : List Node) : Layer Node :=
  { tag := .str Kind.union.tag, members := some (members.map some) }

/-- A record of fields. -/
def ofRecord (fields : List (Field Node)) : Layer Node :=
  { tag := .str Kind.record.tag, fields := some fields }

/-- A named generic type with its arguments. -/
def ofApplication (s : String) (arguments : List Node) : Layer Node :=
  { tag := .str Kind.application.tag, base := some (({} : Modifiers).apply (ofName s none)),
    arguments := some (arguments.map some) }

/-- A function signature. -/
def ofFunction (newType thisType : Option Node) (params : List Node) (result : Option Node) :
    Layer Node :=
  { tag := .str Kind.function.tag, newType, thisType, params := some (params.map some), result }

@[simp] theorem kind?_ofName (s : String) (inner : Option Node) :
    (ofName s inner).kind? = some .name := Kind.ofTag?_tag _

@[simp] theorem kind?_ofLiteral (k : Kind) : (ofLiteral k).kind? = some k := Kind.ofTag?_tag _

@[simp] theorem kind?_ofUnion (members : List Node) : (ofUnion members).kind? = some .union :=
  Kind.ofTag?_tag _

@[simp] theorem kind?_ofRecord (fields : List (Field Node)) :
    (ofRecord fields).kind? = some .record := Kind.ofTag?_tag _

@[simp] theorem kind?_ofApplication (s : String) (arguments : List Node) :
    (ofApplication s arguments).kind? = some .application := Kind.ofTag?_tag _

@[simp] theorem kind?_ofFunction (newType thisType : Option Node) (params : List Node)
    (result : Option Node) :
    (ofFunction newType thisType params result).kind? = some .function := Kind.ofTag?_tag _

end Layer

/-- The canonical trees over a set of names. -/
inductive Canonical (names : String → Bool) : Node → Prop where
  /-- A name, alone or with a type after it that is not optional itself. -/
  | name (m : Modifiers) (s : String) (inner : Option Node) (hs : names s)
      (hinner : ∀ t ∈ inner, Canonical names t)
      (hmark : ∀ t ∈ inner, t.layer.optional = .bool false) :
      Canonical names (m.apply (.ofName s inner))
  /-- One of the four literals. -/
  | literal (m : Modifiers) (k : Kind) (hk : k ∈ [Kind.all, .null, .undefined, .unknown]) :
      Canonical names (m.apply (.ofLiteral k))
  /-- A union of at least one member. -/
  | union (m : Modifiers) (members : List Node) (hne : members ≠ [])
      (hmembers : ∀ t ∈ members, Canonical names t) :
      Canonical names (m.apply (.ofUnion members))
  /-- A record, each of whose fields has a name for its key, with or without a value. -/
  | record (m : Modifiers) (fields : List (Field Node))
      (hkeys : ∀ f ∈ fields, ∃ (k : Modifiers) (s : String),
        names s ∧ f.key = some (k.apply (.ofName s none)))
      (hvalues : ∀ f ∈ fields, ∀ t ∈ f.value, Canonical names t) :
      Canonical names (m.apply (.ofRecord fields))
  /-- A name applied to arguments, perhaps to none. -/
  | application (m : Modifiers) (s : String) (arguments : List Node) (hs : names s)
      (harguments : ∀ t ∈ arguments, Canonical names t) :
      Canonical names (m.apply (.ofApplication s arguments))
  /-- A function, perhaps without parameters, whose result is not optional itself. -/
  | function (m : Modifiers) (newType thisType : Option Node) (params : List Node)
      (result : Option Node) (hnew : ∀ t ∈ newType, Canonical names t)
      (hthis : ∀ t ∈ thisType, Canonical names t) (hparams : ∀ t ∈ params, Canonical names t)
      (hresult : ∀ t ∈ result, Canonical names t)
      (hmark : ∀ t ∈ result, t.layer.optional = .bool false) :
      Canonical names (m.apply (.ofFunction newType thisType params result))

/-! ### Texts as characters -/

/-- A configuration that shows a tree as it is: no links, brackets as they are,
modifiers. -/
structure Config.IsPlain (c : Config) : Prop where
  links : c.links = none
  htmlSafe : c.htmlSafe.isTruthy = false
  suppressModifiers : c.suppressModifiers.isTruthy = false

/-- The characters of the text of a tree. -/
def Node.chars (c : Config) (n : Node) : List Char := (n.render c).value.toList

/-- The characters of the text of a node without its modifiers. -/
def Layer.bodyChars (c : Config) (l : Layer Node) : List Char :=
  ((l.map (Node.render c)).body c).value.toList

/-- The modifiers of a node, as far as they are shown. -/
def Node.modifiers (n : Node) : Modifiers :=
  ⟨n.layer.optional.isTrue, n.layer.nullable, n.layer.repeatable.isTruthy⟩

@[simp] theorem modifiers_apply (m : Modifiers) (l : Layer Node) : (m.apply l).modifiers = m := rfl

@[simp] theorem bodyChars_apply (c : Config) (m : Modifiers) (l : Layer Node) :
    (m.apply l).layer.bodyChars c = l.bodyChars c := rfl

@[simp] theorem kind?_apply (m : Modifiers) (l : Layer Node) : (m.apply l).layer.kind? = l.kind? :=
  rfl

/-- A part with a label in front, nothing for a missing part. -/
def slotChars {α : Type} (label : List Char) (f : α → List Char) : Option α → List Char
  | none => []
  | some a => label ++ f a

@[simp] theorem slotChars_none {α : Type} (label : List Char) (f : α → List Char) :
    slotChars label f none = [] := rfl

@[simp] theorem slotChars_some {α : Type} (label : List Char) (f : α → List Char) (a : α) :
    slotChars label f (some a) = label ++ f a := rfl

/-- What a type inside the parentheses of a signature is. -/
inductive Role where
  /-- The type that the function makes. -/
  | new
  /-- The type of its receiver. -/
  | this
  /-- The type of a parameter. -/
  | param
deriving DecidableEq

/-- The word in front of a type inside the parentheses of a signature. -/
def Role.label : Role → List Char
  | .new => ['n', 'e', 'w', ':']
  | .this => ['t', 'h', 'i', 's', ':']
  | .param => []

/-- The types inside the parentheses of a signature, with their roles. -/
def pieces (newType thisType : Option Node) (params : List Node) : List (Role × Node) :=
  newType.toList.map (Role.new, ·) ++ thisType.toList.map (Role.this, ·) ++
    params.map (Role.param, ·)

/-- The text of a type inside the parentheses of a signature. -/
def pieceChars (c : Config) (p : Role × Node) : List Char := p.1.label ++ p.2.chars c

section Texts

variable {c : Config}

/-- Modifiers stand around the text of the node. -/
theorem chars_eq (hc : c.IsPlain) (n : Node) :
    n.chars c = n.modifiers.before ++ (n.layer.bodyChars c ++ n.modifiers.after) := by
  obtain ⟨l⟩ := n
  have hrender : ((Node.mk l).render c).value =
      l.decorate c ((l.map (Node.render c)).body c).value := by
    rw [Node.render_mk]
    rfl
  have hrepeatable : (repeatableMark l.repeatable).toList =
      if l.repeatable.isTruthy then ['.', '.', '.'] else [] := by
    rw [repeatableMark]
    split <;> rfl
  have hoptional : (optionalMark l.optional).toList = if l.optional.isTrue then ['='] else [] := by
    rw [optionalMark]
    split <;> rfl
  rw [Node.chars, hrender, Layer.decorate, if_neg (by simp [hc.suppressModifiers])]
  simp only [String.toList_append, hrepeatable, hoptional, List.append_assoc]
  simp only [Modifiers.before, Modifiers.after, Node.modifiers, List.append_assoc]
  rfl

/-- A list of texts is written item by item, with the separator in front of each but
the first. -/
theorem intercalate_cons_eq (sep x : List Char) (xs : List (List Char)) :
    sep.intercalate (x :: xs) = x ++ xs.flatMap (sep ++ ·) := by
  induction xs generalizing x with
  | nil => simp
  | cons y xs ih =>
    rw [List.intercalate_cons_cons, ih, List.flatMap_cons]
    simp only [List.append_assoc]

/-- The texts of a list of subtrees that are all there. -/
theorem toList_parts (sep : String) (items : List Node) :
    (sep.intercalate
        (parts ((items.map some).map fun item => item.map (Node.render c))).value).toList =
      sep.toList.intercalate (items.map (Node.chars c)) := by
  rw [parts, Logged.value_mapM, String.toList_intercalate]
  simp only [List.map_map]
  rfl

/-- The text of a part with a label. -/
theorem toList_labelled (label : String) (o : Option Node) :
    (labelled label (o.map (Node.render c))).value.toList =
      slotChars label.toList (Node.chars c) o := by
  cases o <;> simp [labelled, Node.chars]

/-- A name is followed by its type after a colon. -/
theorem bodyChars_ofName (hc : c.IsPlain) {s : String} (hs : s ≠ "") {inner : Option Node}
    (hinner : ∀ t ∈ inner, t.chars c ≠ []) :
    (Layer.ofName s inner).bodyChars c = s.toList ++ slotChars [':'] (Node.chars c) inner := by
  have hbody : ((Layer.ofName s inner).map (Node.render c)).body c =
      c.nameAndType "" ((Layer.ofName s inner).map (Node.render c)) := rfl
  have hlink : c.link s = s := by rw [Config.link, hc.links]
  rw [Layer.bodyChars, hbody]
  cases inner with
  | none => simp [Config.nameAndType, Layer.ofName, Layer.map, part, hs, hlink]
  | some t =>
    have ht : (t.render c).value ≠ "" := by
      intro h
      exact hinner t rfl (by rw [Node.chars, h]; rfl)
    simp [Config.nameAndType, Layer.ofName, Layer.map, part, hs, hlink, combine, ht, Node.chars]

/-- A literal is its word. -/
theorem bodyChars_ofLiteral (hc : c.IsPlain) {k : Kind}
    (hk : k ∈ [Kind.all, .null, .undefined, .unknown]) :
    (Layer.ofLiteral k).bodyChars c = k.literal.toList := by
  have hlink : ∀ s, c.link s = s := fun s => by rw [Config.link, hc.links]
  have hbody : ((Layer.ofLiteral k).map (Node.render c)).body c =
      c.nameAndType k.literal ((Layer.ofLiteral k).map (Node.render c)) := by
    simp only [List.mem_cons, List.not_mem_nil, or_false] at hk
    rcases hk with rfl | rfl | rfl | rfl <;> rfl
  rw [Layer.bodyChars, hbody]
  simp [Config.nameAndType, Layer.ofLiteral, Layer.map, part, hlink]

/-- A union stands in parentheses. -/
theorem bodyChars_ofUnion {members : List Node} (hne : members ≠ []) :
    (Layer.ofUnion members).bodyChars c =
      '(' :: (['|'].intercalate (members.map (Node.chars c)) ++ [')']) := by
  have hbody : ((Layer.ofUnion members).map (Node.render c)).body c =
      unionList (some ((members.map some).map fun item => item.map (Node.render c))) := rfl
  cases members with
  | nil => exact absurd rfl hne
  | cons t ts =>
    have hparts := toList_parts (c := c) "|" (t :: ts)
    rw [Layer.bodyChars, hbody]
    simp only [List.map_cons, unionList, Logged.value_bind, Logged.value_pure,
      String.toList_append] at hparts ⊢
    rw [hparts]
    rfl

/-- A record stands in braces. -/
theorem bodyChars_ofRecord (fields : List (Field Node)) :
    (Layer.ofRecord fields).bodyChars c =
      '\x7b' :: ([',', ' '].intercalate (fields.map fun f => f.key.elim [] (Node.chars c) ++
        slotChars [':', ' '] (Node.chars c) f.value) ++ ['\x7d']) := by
  have hbody : ((Layer.ofRecord fields).map (Node.render c)).body c =
      recordText (some (fields.map fun f => f.map (Node.render c))) := rfl
  have hfield : ∀ f : Field Node, (fieldText (f.map (Node.render c))).value.toList =
      f.key.elim [] (Node.chars c) ++ slotChars [':', ' '] (Node.chars c) f.value := by
    intro f
    have hvalue := toList_labelled (c := c) ": " f.value
    have hkey : (part (f.key.map (Node.render c))).value.toList = f.key.elim [] (Node.chars c) := by
      cases f.key <;> simp [part, Node.chars]
    rw [fieldText, Logged.value_bind, Logged.value_bind, Logged.value_pure, String.toList_append]
    simp only [Field.map]
    rw [hkey, hvalue]
    rfl
  rw [Layer.bodyChars, hbody, recordText]
  simp [String.toList_intercalate, Function.comp_def, hfield]

/-- A generic type is followed by its arguments in angle brackets. -/
theorem bodyChars_ofApplication (hc : c.IsPlain) {s : String} (hs : s ≠ "")
    (arguments : List Node) :
    (Layer.ofApplication s arguments).bodyChars c =
      s.toList ++ '<' :: ([',', ' '].intercalate (arguments.map (Node.chars c)) ++ ['>']) := by
  have hbase : (({} : Modifiers).apply (.ofName s none)).chars c = s.toList := by
    rw [chars_eq hc, modifiers_apply, bodyChars_apply, bodyChars_ofName hc hs (by simp)]
    simp [Modifiers.before, Modifiers.after, Nullability.mark]
  have hbody : (((Layer.ofApplication s arguments).map (Node.render c)).body c).value =
      ((({} : Modifiers).apply (.ofName s none)).render c).value ++ (c.argumentList
        (some ((arguments.map some).map fun item => item.map (Node.render c)))).value := rfl
  have hparts := toList_parts (c := c) ", " arguments
  rw [Node.chars] at hbase
  rw [Layer.bodyChars, hbody, String.toList_append, hbase]
  simp only [Config.argumentList, Logged.value_bind, hc.htmlSafe, Bool.false_eq_true, if_false,
    Logged.value_pure, String.toList_append] at hparts ⊢
  rw [hparts]
  rfl

/-- Lists inside a list with the same separator are one list; what is empty is left
out of it. -/
theorem intercalate_filter_append (xs ps : List String) (hps : ∀ p ∈ ps, p ≠ "") :
    ", ".intercalate ((xs ++ [", ".intercalate ps]).filter (· ≠ "")) =
      ", ".intercalate (xs.filter (· ≠ "") ++ ps) := by
  cases ps with
  | nil => simp
  | cons p ps =>
    have hne : ", ".intercalate (p :: ps) ≠ "" := by
      intro h
      have hp : p = "" := by
        have hlist := congrArg String.toList h
        rw [String.toList_intercalate, List.map_cons, intercalate_cons_eq] at hlist
        simpa using (List.append_eq_nil_iff.mp hlist).1
      exact hps p List.mem_cons_self hp
    rw [List.filter_append, List.filter_cons_of_pos (by simpa using hne), List.filter_nil]
    cases hxs : xs.filter (· ≠ "") with
    | nil => simp
    | cons x xs' =>
      rw [String.intercalate_append_of_ne_nil (by simp) (by simp),
        String.intercalate_append_of_ne_nil (by simp) (by simp), String.intercalate_singleton]

/-- A signature: the types inside the parentheses, then the result. -/
theorem bodyChars_ofFunction (newType thisType : Option Node) {params : List Node}
    (hparams : ∀ t ∈ params, t.chars c ≠ []) (result : Option Node) :
    (Layer.ofFunction newType thisType params result).bodyChars c =
      "function(".toList ++
        ([',', ' '].intercalate ((pieces newType thisType params).map (pieceChars c)) ++
          ')' :: slotChars [':', ' '] (Node.chars c) result) := by
  -- The same separator stands between the parameters and around them.
  have hlabels : ([(newTypeText (newType.map (Node.render c))).value,
      (thisTypeText (thisType.map (Node.render c))).value].filter (· ≠ "")).map String.toList =
        (newType.toList.map (Role.new, ·) ++ thisType.toList.map (Role.this, ·)).map
          (pieceChars c) := by
    cases newType <;> cases thisType <;>
      simp [newTypeText, thisTypeText, labelled, pieceChars, Role.label, Node.chars]
  have htexts : (parts ((params.map some).map fun item => item.map (Node.render c))).value =
      params.map fun t => (t.render c).value := by
    rw [parts, Logged.value_mapM]
    simp only [List.map_map]
    rfl
  have hne : ∀ p ∈ params.map (fun t => (t.render c).value), p ≠ "" := by
    intro p hp hempty
    obtain ⟨t, ht, rfl⟩ := List.mem_map.mp hp
    exact hparams t ht (by rw [Node.chars, hempty]; rfl)
  have hvalue : (((Layer.ofFunction newType thisType params result).map
      (Node.render c)).body c).value = "function(" ++ ", ".intercalate
        (([(newTypeText (newType.map (Node.render c))).value,
          (thisTypeText (thisType.map (Node.render c))).value] ++ [", ".intercalate (parts
            ((params.map some).map fun item => item.map (Node.render c))).value]).filter
              (· ≠ "")) ++ ")" ++ (resultText (result.map (Node.render c))).value := rfl
  rw [Layer.bodyChars, hvalue, htexts, intercalate_filter_append _ _ hne]
  have hresult := toList_labelled (c := c) ": " result
  simp only [String.toList_append, String.toList_intercalate, List.map_append, hlabels,
    resultText, hresult, pieces, List.map_map]
  simp [Function.comp_def, pieceChars, Role.label, Node.chars]

end Texts

end TypeText

import TypeText.Proofs.Positions
import TypeText.Render

/-!
# The tokens of a text

The text of a tree is a sequence of tokens: the signs and words of the notation, and the
names and literals of the tree.  Which tokens these are depends on the tree, and on the
configuration only by whether modifiers are shown.  The link table, the class of links
and the choice of entities say how a single token is written, and nothing else.

No token is written as the empty text.  So whether a part is empty, which decides about
separators, is seen in its tokens, and does not depend on how they are written.

## Main definitions

* `Sign`, `Token`, `Token.names` — signs and words, tokens, and the names among them.
* `Config.write`, `Config.writeAll` — how a token is written, and a sequence of them.
* `Layer.tokens`, `Node.tokens` — the tokens of a node, from those of its subtrees, and
  of a tree.
* `Layer.label`, `Node.labels` — the name or literal that a node shows itself, and all of
  them in a tree, in the order of the text.
* `SplitsAtSigns` — what is collected from tokens is collected apart on the two sides of a
  punctuation sign.

## Main results

* `Config.writeAll_eq_empty_iff` — only the empty sequence is written as the empty text.
* `Node.value_render` — **the text of a tree is the text of its tokens.**
* `SplitsAtSigns.signature`, `SplitsAtSigns.record`, `SplitsAtSigns.union`, … — what is
  collected from a part of a node is collected from what stands in it, in order.
* `Node.names_tokens` — the names among the tokens of a tree are its labels.
-/

set_option autoImplicit false

namespace TypeText

/-! ### Tokens -/

/-- The signs and words of the notation. -/
inductive Sign where
  | leftParen
  | rightParen
  | leftBrace
  | rightBrace
  | leftAngle
  | rightAngle
  | bar
  | comma
  /-- The colon after a name or a word. -/
  | colon
  /-- The colon before a value or a result. -/
  | wideColon
  | function
  | new
  | this
  | dots
  | question
  | bang
  | equals
deriving DecidableEq

/-- How a sign or word is written; only angle brackets can be written as entities. -/
def Sign.text (htmlSafe : Bool) : Sign → String
  | .leftParen => "("
  | .rightParen => ")"
  | .leftBrace => "\x7b"
  | .rightBrace => "\x7d"
  | .leftAngle => if htmlSafe then "&lt;" else "<"
  | .rightAngle => if htmlSafe then "&gt;" else ">"
  | .bar => "|"
  | .comma => ", "
  | .colon => ":"
  | .wideColon => ": "
  | .function => "function"
  | .new => "new"
  | .this => "this"
  | .dots => "..."
  | .question => "?"
  | .bang => "!"
  | .equals => "="

theorem Sign.text_ne_empty (htmlSafe : Bool) (s : Sign) : s.text htmlSafe ≠ "" := by
  cases htmlSafe <;> cases s <;> decide

/-- A token of a text. -/
inductive Token where
  /-- A sign or a word. -/
  | sign (s : Sign)
  /-- A name or a literal, which may be linked. -/
  | name (s : String) (hs : s ≠ "")
deriving DecidableEq

namespace Token

/-- The tokens of a name: one, unless the name is empty. -/
def ofName (s : String) : List Token := if hs : s = "" then [] else [.name s hs]

/-- The name of a token that is one. -/
def name? : Token → Option String
  | .sign _ => none
  | .name s _ => some s

/-- The names among some tokens. -/
def names (ts : List Token) : List String := ts.filterMap name?

@[simp] theorem names_nil : names [] = [] := rfl

@[simp] theorem names_append (ts us : List Token) : names (ts ++ us) = names ts ++ names us :=
  List.filterMap_append

end Token

/-! ### Writing -/

/-- A linked name is not empty. -/
theorem Config.link_ne_empty (c : Config) {s : String} (hs : s ≠ "") : c.link s ≠ "" := by
  unfold link
  split
  · exact hs
  · rw [if_neg hs, anchor]
    split
    · -- a link has its markup, whatever its text
      simp [String.append_eq_empty_iff]
    · exact hs

theorem Config.link_empty (c : Config) : c.link "" = "" := by
  unfold link
  split <;> rfl

namespace Config

/-- How a token is written. -/
def write (c : Config) : Token → String
  | .sign s => s.text c.htmlSafe.isTruthy
  | .name s _ => c.link s

/-- How a sequence of tokens is written. -/
def writeAll (c : Config) (ts : List Token) : String := String.join (ts.map c.write)

variable (c : Config)

theorem write_ne_empty (t : Token) : c.write t ≠ "" := by
  cases t with
  | sign s => exact s.text_ne_empty _
  | name s hs => exact c.link_ne_empty hs

@[simp] theorem writeAll_nil : c.writeAll [] = "" := rfl

@[simp] theorem writeAll_cons (t : Token) (ts : List Token) :
    c.writeAll (t :: ts) = c.write t ++ c.writeAll ts := by
  rw [writeAll, List.map_cons, String.join_cons, writeAll]

@[simp] theorem writeAll_append (ts us : List Token) :
    c.writeAll (ts ++ us) = c.writeAll ts ++ c.writeAll us := by
  rw [writeAll, List.map_append, String.join_append, writeAll, writeAll]

/-- Only the empty sequence is written as the empty text. -/
theorem writeAll_eq_empty_iff (ts : List Token) : c.writeAll ts = "" ↔ ts = [] := by
  cases ts with
  | nil => simp
  | cons t ts => simp [String.append_eq_empty_iff, c.write_ne_empty t]

theorem writeAll_ofName (s : String) : c.writeAll (Token.ofName s) = c.link s := by
  unfold Token.ofName
  split
  · next hs => rw [hs, c.link_empty, writeAll_nil]
  · rw [writeAll_cons, writeAll_nil, String.append_empty]
    rfl

end Config

/-! ### The tokens of a node -/

/-- Sequences of tokens with a separator between them. -/
def separated (sep : Sign) (items : List (List Token)) : List Token :=
  [Token.sign sep].intercalate items

theorem separated_cons_cons (sep : Sign) (x y : List Token) (xs : List (List Token)) :
    separated sep (x :: y :: xs) = x ++ [.sign sep] ++ separated sep (y :: xs) :=
  List.intercalate_cons_cons

/-- The tokens of a part with a label in front, nothing for a missing part. -/
def labelledTokens (label : List Sign) : Option (List Token) → List Token
  | none => []
  | some ts => label.map .sign ++ ts

/-- The tokens of the items of a list. -/
def itemTokens (items : List (Option (List Token))) : List (List Token) := items.map (·.getD [])

/-- A name and a type, with a colon between them if both are there. -/
def combineTokens (name type : List Token) : List Token :=
  name ++ (if name ≠ [] ∧ type ≠ [] then [.sign .colon] else []) ++ type

/-- The arguments of an application. -/
def argumentTokens : Option (List (Option (List Token))) → List Token
  | none => []
  | some items =>
    [.sign .leftAngle] ++ separated .comma (itemTokens items) ++ [.sign .rightAngle]

/-- The alternatives of a union. -/
def unionTokens : Option (List (Option (List Token))) → List Token
  | none => []
  | some [] => []
  | some items => [.sign .leftParen] ++ separated .bar (itemTokens items) ++ [.sign .rightParen]

/-- The parameters of a function. -/
def paramTokens : Option (List (Option (List Token))) → List Token
  | none => []
  | some items => separated .comma (itemTokens items)

/-- A field of a record. -/
def fieldTokens (f : Field (List Token)) : List Token :=
  f.key.getD [] ++ labelledTokens [.wideColon] f.value

/-- A record. -/
def recordTokens (fields : Option (List (Field (List Token)))) : List Token :=
  [.sign .leftBrace] ++ separated .comma ((fields.getD []).map fieldTokens) ++ [.sign .rightBrace]

namespace Layer

variable {α β : Type}

/-- The name of a node, or what stands for it. -/
def nameOr (fallback : String) (l : Layer α) : String :=
  if l.name.getD "" = "" then fallback else l.name.getD ""

/-- The parts inside the parentheses of a signature. -/
def signatureParts (l : Layer (List Token)) : List (List Token) :=
  [labelledTokens [.new, .colon] l.newType, labelledTokens [.this, .colon] l.thisType,
    paramTokens l.params]

/-- The tokens of a node without its modifiers. -/
def bodyTokens (l : Layer (List Token)) : List Token :=
  match l.kind? with
  | some .function =>
    [.sign .function, .sign .leftParen] ++
      separated .comma (l.signatureParts.filter fun ts => !ts.isEmpty) ++
      [.sign .rightParen] ++ labelledTokens [.wideColon] l.result
  | some .record => recordTokens l.fields
  | some .application => l.base.getD [] ++ argumentTokens l.arguments
  | some .union => unionTokens l.members
  | some kind => combineTokens (Token.ofName (l.nameOr kind.literal)) (l.inner.getD [])
  | none => combineTokens (Token.ofName (l.nameOr "")) (l.inner.getD [])

/-- The signs in front of a type. -/
def marksBefore (l : Layer α) : List Sign :=
  (if l.repeatable.isTruthy then [.dots] else []) ++
    match l.nullable with
    | .unspecified => []
    | .nullable => [.question]
    | .nonNullable => [.bang]

/-- The sign after a type. -/
def marksAfter (l : Layer α) : List Sign := if l.optional.isTrue then [.equals] else []

/-- The tokens of a node, with its modifiers unless they are suppressed. -/
def tokens (suppress : Bool) (l : Layer (List Token)) : List Token :=
  if suppress then l.bodyTokens
  else l.marksBefore.map .sign ++ l.bodyTokens ++ l.marksAfter.map .sign

end Layer

namespace Node

/-- The tokens of a tree. -/
def tokens (suppress : Bool) : Node → List Token := fold (Layer.tokens suppress)

theorem tokens_mk (suppress : Bool) (l : Layer Node) :
    tokens suppress (.mk l) = (l.map (tokens suppress)).tokens suppress := fold_mk _ l

end Node

/-! ### The text of a tree

The subtrees of a node are given here by any function whose text is written from tokens. -/

section Texts

variable {α : Type} {c : Config} {f : α → Logged String} {g : α → List Token}

theorem writeAll_separated (sep : Sign) (items : List (List Token)) :
    c.writeAll (separated sep items) =
      (sep.text c.htmlSafe.isTruthy).intercalate (items.map c.writeAll) := by
  induction items with
  | nil => rfl
  | cons x items ih =>
    cases items with
    | nil => simp [separated]
    | cons y items =>
      rw [separated_cons_cons, c.writeAll_append, c.writeAll_append, ih]
      simp only [List.map_cons, String.intercalate_cons_cons, Config.writeAll_cons,
        Config.writeAll_nil, String.append_empty]
      rfl

theorem value_part (hf : ∀ a, (f a).value = c.writeAll (g a)) (o : Option α) :
    (part (o.map f)).value = c.writeAll ((o.map g).getD []) := by
  cases o with
  | none => rfl
  | some a => exact hf a

theorem value_parts (hf : ∀ a, (f a).value = c.writeAll (g a)) (items : List (Option α)) :
    (parts (items.map fun item => item.map f)).value =
      (itemTokens (items.map fun item => item.map g)).map c.writeAll := by
  rw [parts, Logged.value_mapM, itemTokens, List.map_map, List.map_map, List.map_map]
  exact List.map_congr_left fun item _ => value_part hf item

theorem value_labelled (hf : ∀ a, (f a).value = c.writeAll (g a)) (text : String)
    (label : List Sign) (hlabel : text = c.writeAll (label.map .sign)) (o : Option α) :
    (labelled text (o.map f)).value = c.writeAll (labelledTokens label (o.map g)) := by
  cases o with
  | none => rfl
  | some a =>
    rw [Option.map_some, Option.map_some, labelledTokens, c.writeAll_append, ← hlabel, ← hf a]
    rfl

theorem combine_writeAll (name type : List Token) :
    combine (c.writeAll name) (c.writeAll type) = c.writeAll (combineTokens name type) := by
  have hcolon : (if c.writeAll name ≠ "" ∧ c.writeAll type ≠ "" then ":" else "") =
      c.writeAll (if name ≠ [] ∧ type ≠ [] then [.sign .colon] else []) := by
    simp only [ne_eq, c.writeAll_eq_empty_iff]
    split <;> rfl
  rw [combine, combineTokens, c.writeAll_append, c.writeAll_append, hcolon]

theorem value_argumentList (hf : ∀ a, (f a).value = c.writeAll (g a))
    (o : Option (List (Option α))) :
    (c.argumentList (o.map fun items => items.map fun item => item.map f)).value =
      c.writeAll (argumentTokens (o.map fun items => items.map fun item => item.map g)) := by
  cases o with
  | none => rfl
  | some items =>
    have hparts := value_parts hf items
    rw [Option.map_some, Option.map_some, argumentTokens, c.writeAll_append, c.writeAll_append,
      writeAll_separated, ← hparts, Config.argumentList, Logged.value_bind]
    cases h : c.htmlSafe.isTruthy <;> simp [Config.write, Sign.text, h]

theorem value_unionList (hf : ∀ a, (f a).value = c.writeAll (g a))
    (o : Option (List (Option α))) :
    (unionList (o.map fun items => items.map fun item => item.map f)).value =
      c.writeAll (unionTokens (o.map fun items => items.map fun item => item.map g)) := by
  cases o with
  | none => rfl
  | some items =>
    cases items with
    -- without alternatives there are no parentheses either
    | nil => rfl
    | cons item items =>
      have hparts := value_parts hf (item :: items)
      simp only [Option.map_some, List.map_cons] at hparts ⊢
      rw [unionTokens, c.writeAll_append, c.writeAll_append, writeAll_separated, ← hparts]
      · rfl
      · simp

theorem value_paramList (hf : ∀ a, (f a).value = c.writeAll (g a))
    (o : Option (List (Option α))) :
    (paramList (o.map fun items => items.map fun item => item.map f)).value =
      c.writeAll (paramTokens (o.map fun items => items.map fun item => item.map g)) := by
  cases o with
  | none => rfl
  | some items =>
    rw [Option.map_some, Option.map_some, paramTokens, writeAll_separated, ← value_parts hf items]
    rfl

theorem value_fieldText (hf : ∀ a, (f a).value = c.writeAll (g a)) (x : Field α) :
    (fieldText (x.map f)).value = c.writeAll (fieldTokens (x.map g)) := by
  rw [fieldTokens, c.writeAll_append, Field.map, Field.map, ← value_part hf,
    ← value_labelled hf ": " [.wideColon] rfl]
  rfl

theorem value_recordText (hf : ∀ a, (f a).value = c.writeAll (g a))
    (o : Option (List (Field α))) :
    (recordText (o.map fun items => items.map fun item => item.map f)).value =
      c.writeAll (recordTokens (o.map fun items => items.map fun item => item.map g)) := by
  cases o with
  | none => rfl
  | some items =>
    have hfields : ((items.map fun x => x.map f).mapM fieldText).value =
        ((items.map fun x => x.map g).map fieldTokens).map c.writeAll := by
      rw [Logged.value_mapM, List.map_map, List.map_map, List.map_map]
      exact List.map_congr_left fun x _ => value_fieldText hf x
    rw [recordTokens, c.writeAll_append, c.writeAll_append, writeAll_separated, Option.map_some,
      Option.map_some, Option.getD_some, ← hfields]
    rfl

theorem value_signature (hf : ∀ a, (f a).value = c.writeAll (g a)) (l : Layer α) :
    (signature (l.map f)).value = c.writeAll ([.sign .function, .sign .leftParen] ++
      separated .comma ((l.map g).signatureParts.filter fun ts => !ts.isEmpty) ++
      [.sign .rightParen] ++ labelledTokens [.wideColon] (l.map g).result) := by
  have hnew := value_labelled hf "new:" [.new, .colon] rfl l.newType
  have hthis := value_labelled hf "this:" [.this, .colon] rfl l.thisType
  have hresult := value_labelled hf ": " [.wideColon] rfl l.result
  have hparams := value_paramList hf l.params
  -- a part is left out by its text exactly when it is left out by its tokens
  have hparts : ((l.map g).signatureParts.filter fun ts => !ts.isEmpty).map c.writeAll =
      ((l.map g).signatureParts.map c.writeAll).filter (· ≠ "") := by
    rw [List.filter_map]
    congr 1
    refine List.filter_congr fun ts _ => ?_
    cases ts with
    | nil => simp
    | cons t ts => simp [String.append_eq_empty_iff, c.write_ne_empty t]
  have htexts : (l.map g).signatureParts.map c.writeAll =
      [(newTypeText (l.map f).newType).value, (thisTypeText (l.map f).thisType).value,
        (paramList (l.map f).params).value] := by
    simp only [Layer.signatureParts, Layer.map, List.map_cons, List.map_nil, ← hnew, ← hthis,
      ← hparams]
    rfl
  rw [c.writeAll_append, c.writeAll_append, c.writeAll_append, writeAll_separated, hparts, htexts,
    show (l.map g).result = l.result.map g from rfl, ← hresult]
  rfl

theorem value_nameAndType (hf : ∀ a, (f a).value = c.writeAll (g a)) (fallback : String)
    (l : Layer α) :
    (c.nameAndType fallback (l.map f)).value =
      c.writeAll (combineTokens (Token.ofName ((l.map g).nameOr fallback))
        ((l.map g).inner.getD [])) := by
  rw [← combine_writeAll, c.writeAll_ofName, show (l.map g).inner = l.inner.map g from rfl,
    ← value_part hf]
  rfl

/-- The text of a node without its modifiers is the text of its tokens. -/
theorem value_body (hf : ∀ a, (f a).value = c.writeAll (g a)) (l : Layer α) :
    ((l.map f).body c).value = c.writeAll (l.map g).bodyTokens := by
  rw [Layer.body, Layer.bodyTokens, Layer.kind?_map, Layer.kind?_map]
  cases l.kind? with
  | none => exact value_nameAndType hf "" l
  | some kind =>
    cases kind with
    | function => exact value_signature hf l
    | record => exact value_recordText hf l.fields
    | application =>
      -- what is applied and the arguments have no sign of their own between them
      have hbase := value_part hf l.base
      have harguments := value_argumentList hf l.arguments
      simp only [Layer.map, c.writeAll_append, ← hbase, ← harguments]
      rfl
    | union => exact value_unionList hf l.members
    | _ => exact value_nameAndType hf _ l

/-- The modifiers of a node are written from their signs. -/
theorem decorate_writeAll (l : Layer α) (ts : List Token) :
    l.decorate c (c.writeAll ts) = c.writeAll (if c.suppressModifiers.isTruthy then ts
      else l.marksBefore.map .sign ++ ts ++ l.marksAfter.map .sign) := by
  have hbefore : c.writeAll (l.marksBefore.map .sign) =
      repeatableMark l.repeatable ++ l.nullable.mark := by
    unfold Layer.marksBefore repeatableMark
    cases l.repeatable.isTruthy <;> cases l.nullable <;> rfl
  have hafter : c.writeAll (l.marksAfter.map .sign) = optionalMark l.optional := by
    unfold Layer.marksAfter optionalMark
    cases l.optional.isTrue <;> rfl
  unfold Layer.decorate
  split
  · rfl
  · rw [c.writeAll_append, c.writeAll_append, hbefore, hafter]

end Texts

namespace Node

/-- **The text of a tree is the text of its tokens.** -/
theorem value_render (c : Config) (n : Node) :
    (n.render c).value = c.writeAll (n.tokens c.suppressModifiers.isTruthy) := by
  induction n using Node.induct with
  | h l ih =>
    -- below the root the texts are those of the tokens, whatever the messages
    have hmap : l.map (render c) = l.map fun m =>
        ⟨c.writeAll (m.tokens c.suppressModifiers.isTruthy), (m.render c).log⟩ :=
      Layer.map_congr fun m hm => Logged.ext (ih m hm) rfl
    have hbody := value_body (c := c) (f := fun m : Node =>
      ⟨c.writeAll (m.tokens c.suppressModifiers.isTruthy), (m.render c).log⟩) (fun m => rfl) l
    rw [render_mk, Layer.render, Logged.value_bind, Logged.value_pure, tokens_mk, Layer.tokens,
      hmap, hbody]
    exact decorate_writeAll l _

end Node

/-! ### Labels -/

namespace Layer

variable {α : Type}

/-- The name or literal that a node shows itself; empty if it shows none. -/
def label (l : Layer α) : String :=
  match l.kind? with
  | some .function => ""
  | some .record => ""
  | some .application => ""
  | some .union => ""
  | some kind => l.nameOr kind.literal
  | none => l.nameOr ""

/-- The label of a node, if it is not empty. -/
def ownLabels (l : Layer α) : List String := if l.label = "" then [] else [l.label]

end Layer

namespace Node

/-- The names and literals that a tree shows, in the order of the text. -/
def labels : Node → List String := fold fun l => l.ownLabels ++ l.shown.flatten

theorem labels_mk (l : Layer Node) :
    labels (.mk l) = l.ownLabels ++ l.shown.flatMap labels := by
  rw [labels, fold_mk, Layer.shown_map, ← List.flatMap_def]
  rfl

end Node

/-! ### Collecting from tokens

The names among the tokens of a tree, or the words of their text, are collected part by part.
All that is needed for this is that what is found on one side of a punctuation sign does not
depend on the other side: between two parts of a node there is always such a sign. -/

/-- Whether a sign is a word. -/
def Sign.isWord : Sign → Bool
  | .function | .new | .this => true
  | _ => false

/-- What is collected on the two sides of a punctuation sign is collected apart, and the sign
itself gives nothing. -/
structure SplitsAtSigns {β : Type} (collect : List Token → List β) : Prop where
  nil : collect [] = []
  split {s : Sign} (hs : s.isWord = false) (xs ys : List Token) :
    collect (xs ++ .sign s :: ys) = collect xs ++ collect ys

namespace SplitsAtSigns

variable {β : Type} {collect : List Token → List β} (h : SplitsAtSigns collect)

include h

theorem cons_sign {s : Sign} (hs : s.isWord = false) (ts : List Token) :
    collect (.sign s :: ts) = collect ts := by
  have hsplit := h.split hs [] ts
  rwa [h.nil] at hsplit

theorem append_sign {s : Sign} (hs : s.isWord = false) (ts : List Token) :
    collect (ts ++ [.sign s]) = collect ts := by
  have hsplit := h.split hs ts []
  rwa [h.nil, List.append_nil] at hsplit

theorem enclosed {a b : Sign} (ha : a.isWord = false) (hb : b.isWord = false) (ts : List Token) :
    collect ([.sign a] ++ ts ++ [.sign b]) = collect ts := by
  rw [h.append_sign hb]
  exact h.cons_sign ha ts

/-- Punctuation in front of and behind tokens gives nothing. -/
theorem marked {before after : List Sign} (hbefore : ∀ s ∈ before, s.isWord = false)
    (hafter : ∀ s ∈ after, s.isWord = false) (ts : List Token) :
    collect (before.map .sign ++ ts ++ after.map .sign) = collect ts := by
  induction before with
  | nil =>
    rw [List.map_nil, List.nil_append]
    induction after generalizing ts with
    | nil => rw [List.map_nil, List.append_nil]
    | cons s after ih =>
      obtain ⟨hs, hrest⟩ := List.forall_mem_cons.mp hafter
      rw [List.map_cons, h.split hs, ← List.nil_append (after.map _), ih hrest, h.nil,
        List.append_nil]
  | cons s before ih =>
    obtain ⟨hs, hrest⟩ := List.forall_mem_cons.mp hbefore
    rw [List.map_cons, List.cons_append, List.cons_append, h.cons_sign hs, ih hrest]

theorem separated {sep : Sign} (hsep : sep.isWord = false) (items : List (List Token)) :
    collect (separated sep items) = items.flatMap collect := by
  induction items with
  | nil => exact h.nil
  | cons x items ih =>
    cases items with
    | nil => simp [TypeText.separated]
    | cons y items =>
      rw [separated_cons_cons, List.append_assoc, List.singleton_append, h.split hsep, ih]
      rfl

theorem getD (o : Option (List Token)) : collect (o.getD []) = o.toList.flatMap collect := by
  cases o with
  | none => exact h.nil
  | some ts => exact (List.flatMap_singleton collect ts).symm

/-- A word with a punctuation sign after it, in front of a part. -/
theorem labelled (word : Sign) {s : Sign} (hs : s.isWord = false) (o : Option (List Token)) :
    collect (labelledTokens [word, s] o) =
      o.toList.flatMap fun ts => collect [.sign word] ++ collect ts := by
  cases o with
  | none => exact h.nil
  | some ts =>
    rw [Option.toList_some, List.flatMap_singleton]
    exact h.split hs [.sign word] ts

/-- A punctuation sign between tokens and a part. -/
theorem append_labelled {s : Sign} (hs : s.isWord = false) (ts : List Token)
    (o : Option (List Token)) :
    collect (ts ++ labelledTokens [s] o) = collect ts ++ o.toList.flatMap collect := by
  cases o with
  | none => simp [labelledTokens]
  | some us => simpa [labelledTokens] using h.split hs ts us

theorem items (items : List (Option (List Token))) :
    (itemTokens items).flatMap collect = (Layer.present (some items)).flatMap collect := by
  induction items with
  | nil => rfl
  | cons item items ih =>
    rw [itemTokens, List.map_cons, List.flatMap_cons, ← itemTokens, ih, Layer.present_cons,
      List.flatMap_append, h.getD]

theorem params (o : Option (List (Option (List Token)))) :
    collect (paramTokens o) = (Layer.present o).flatMap collect := by
  cases o with
  | none => exact h.nil
  | some items => rw [paramTokens, h.separated rfl, h.items]

/-- The bracket in front of the arguments separates them from what they are applied to. -/
theorem append_arguments (ts : List Token) (o : Option (List (Option (List Token)))) :
    collect (ts ++ argumentTokens o) = collect ts ++ (Layer.present o).flatMap collect := by
  cases o with
  | none => simp [argumentTokens, Layer.present]
  | some items =>
    have hsplit := h.split (s := .leftAngle) rfl ts (TypeText.separated .comma (itemTokens items))
    rw [h.separated rfl, h.items] at hsplit
    rw [argumentTokens, ← List.append_assoc, h.append_sign rfl]
    exact hsplit

theorem union (o : Option (List (Option (List Token)))) :
    collect (unionTokens o) = (Layer.present o).flatMap collect := by
  cases o with
  | none => exact h.nil
  | some items =>
    cases items with
    | nil => exact h.nil
    | cons item items =>
      rw [unionTokens, h.enclosed rfl rfl, h.separated rfl, h.items]
      simp

theorem record (o : Option (List (Field (List Token)))) :
    collect (recordTokens o) = ((o.getD []).flatMap Field.children).flatMap collect := by
  have hfield : ∀ f : Field (List Token), collect (fieldTokens f) = f.children.flatMap collect := by
    intro f
    rw [fieldTokens, h.append_labelled rfl, h.getD, Field.children, List.flatMap_append]
  rw [recordTokens, h.enclosed rfl rfl, h.separated rfl, List.flatMap_map, List.flatMap_assoc]
  simp only [hfield]

theorem combine (name type : List Token) :
    collect (combineTokens name type) = collect name ++ collect type := by
  -- there is a colon only between two parts that are there
  by_cases hname : name = []
  · simp [combineTokens, hname, h.nil]
  by_cases htype : type = []
  · simp [combineTokens, htype, h.nil]
  rw [combineTokens, if_pos ⟨hname, htype⟩, List.append_assoc, List.singleton_append, h.split rfl]

/-- What is empty and left out gives nothing. -/
theorem filter (parts : List (List Token)) :
    (parts.filter fun ts => !ts.isEmpty).flatMap collect = parts.flatMap collect := by
  induction parts with
  | nil => rfl
  | cons ts parts ih =>
    cases ts with
    | nil => simpa [h.nil] using ih
    | cons t ts => simp [ih]

/-- The words of a signature stand in front of what they belong to. -/
theorem signature (l : Layer (List Token)) :
    collect ([.sign .function, .sign .leftParen] ++
      TypeText.separated .comma (l.signatureParts.filter fun ts => !ts.isEmpty) ++
      [.sign .rightParen] ++ labelledTokens [.wideColon] l.result) =
    collect [.sign .function] ++
      (l.newType.toList.flatMap fun ts => collect [.sign .new] ++ collect ts) ++
      (l.thisType.toList.flatMap fun ts => collect [.sign .this] ++ collect ts) ++
      (Layer.present l.params).flatMap collect ++ l.result.toList.flatMap collect := by
  have hparts : l.signatureParts.flatMap collect =
      (l.newType.toList.flatMap fun ts => collect [.sign .new] ++ collect ts) ++
      (l.thisType.toList.flatMap fun ts => collect [.sign .this] ++ collect ts) ++
      (Layer.present l.params).flatMap collect := by
    rw [Layer.signatureParts, List.flatMap_cons, List.flatMap_cons, List.flatMap_singleton,
      h.labelled .new rfl, h.labelled .this rfl, h.params, List.append_assoc]
  have hinner := h.split (s := .leftParen) rfl [.sign .function]
    (TypeText.separated .comma (l.signatureParts.filter fun ts => !ts.isEmpty))
  rw [h.append_labelled rfl, h.append_sign rfl]
  rw [h.separated rfl, h.filter, hparts] at hinner
  simpa using congrArg (· ++ l.result.toList.flatMap collect) hinner

end SplitsAtSigns

/-- The signs of modifiers. -/
def Sign.modifiers : List Sign := [.dots, .question, .bang, .equals]

namespace Layer

variable {α : Type} {l : Layer α} {s : Sign}

theorem mem_modifiers_of_mem_marksBefore (h : s ∈ l.marksBefore) : s ∈ Sign.modifiers := by
  unfold marksBefore at h
  rcases List.mem_append.mp h with h | h
  · -- the dots, and then the mark of a nullability
    split at h <;> simp_all [Sign.modifiers]
  · split at h <;> simp_all [Sign.modifiers]

theorem mem_modifiers_of_mem_marksAfter (h : s ∈ l.marksAfter) : s ∈ Sign.modifiers := by
  unfold marksAfter at h
  split at h <;> simp_all [Sign.modifiers]

end Layer

/-- Modifiers give nothing. -/
theorem SplitsAtSigns.tokens {β : Type} {collect : List Token → List β}
    (h : SplitsAtSigns collect) (suppress : Bool) (l : Layer (List Token)) :
    collect (l.tokens suppress) = collect l.bodyTokens := by
  have hmodifiers : ∀ s ∈ Sign.modifiers, s.isWord = false := by decide
  unfold Layer.tokens
  split
  · rfl
  · exact h.marked (fun s hs => hmodifiers s (Layer.mem_modifiers_of_mem_marksBefore hs))
      (fun s hs => hmodifiers s (Layer.mem_modifiers_of_mem_marksAfter hs)) _

/-! ### Names -/

section Names

open Token

theorem splitsAtSigns_names : SplitsAtSigns names where
  nil := rfl
  split _ xs ys := by
    rw [names_append]
    rfl

theorem names_ofName (s : String) : names (ofName s) = if s = "" then [] else [s] := by
  unfold ofName
  split <;> rfl

/-- The names among the tokens of a node are its own label and those of what it shows. -/
theorem Layer.names_bodyTokens (l : Layer (List Token)) :
    names l.bodyTokens = l.ownLabels ++ l.shown.flatMap names := by
  have h := splitsAtSigns_names
  have hword : ∀ s : Sign, names [.sign s] = [] := fun _ => rfl
  rw [shown_eq]
  unfold bodyTokens ownLabels label
  cases l.kind? with
  | none => simp only [h.combine, names_ofName, h.getD]
  | some kind =>
    cases kind with
    | function =>
      rw [h.signature]
      simp only [hword, List.nil_append, List.flatMap_append]
      rfl
    | record => exact h.record l.fields
    | application =>
      rw [h.append_arguments, h.getD, ← List.flatMap_append]
      rfl
    | union => exact h.union l.members
    | _ => simp only [h.combine, names_ofName, h.getD]

/-- The names among the tokens of a tree are its labels, whether modifiers are shown or not. -/
theorem Node.names_tokens (suppress : Bool) (n : Node) : names (n.tokens suppress) = n.labels := by
  induction n using Node.induct with
  | h l ih =>
    have hshown : l.shown.map (fun m => names (m.tokens suppress)) = l.shown.map labels :=
      List.map_congr_left fun m hm => ih m (Layer.mem_children_of_mem_shown hm)
    rw [tokens_mk, splitsAtSigns_names.tokens, Layer.names_bodyTokens, Layer.shown_map,
      List.flatMap_map, labels_mk, List.flatMap_def, hshown, List.flatMap_def]
    rfl

end Names

end TypeText

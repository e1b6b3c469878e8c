import TypeText.Proofs.Tokens

/-!
# The words of a text

A text without links and entities shows every name of its tree once, in its place, and no
two of them run together.  Read as a sequence of words, the maximal runs of letters, digits
and underscores, it is the sequence of names and literals of the tree, with the words of
signatures in front of what they belong to.

A punctuation sign ends a word.  Since there is such a sign between any two parts of a node,
the words of a text are the words of its parts, in order, and what is left out of a text for
being empty holds no word.

## Main definitions

* `isWordLetter`, `IsWord`, `wordRuns` — the characters of words, texts made of them, and the
  words in a text.
* `Layer.words`, `Node.words` — the words of a node, from those of its subtrees, and of a tree.
* `Node.names` — the names anywhere in a tree.

## Main results

* `wordRuns_split` — **punctuation separates words.**
* `wordRuns_bodyTokens` — the words of a node are those of its parts.
* `wordRuns_render` — the words of the text of a tree are the words of the tree.
-/

set_option autoImplicit false

namespace TypeText

/-! ### Words in a text -/

/-- Whether a character can stand in a word: an ASCII letter, a digit or the underscore. -/
def isWordLetter (d : Char) : Bool := d.isAlphanum || d == '_'

/-- A text of such characters alone, perhaps empty. -/
def IsWord (s : String) : Prop := ∀ d ∈ s.toList, isWordLetter d

instance (s : String) : Decidable (IsWord s) := List.decidableBAll _ s.toList

/-- A text without such characters. -/
def IsPunctuation (s : String) : Prop := ∀ d ∈ s.toList, isWordLetter d = false

instance (s : String) : Decidable (IsPunctuation s) := List.decidableBAll _ s.toList

/-- The maximal runs of word characters in a text, from left to right. -/
def wordRuns (s : String) : List String :=
  ((s.toList.splitOnP fun d => !isWordLetter d).filter fun run => !run.isEmpty).map String.ofList

/-- **Punctuation separates words**: what is on its left and what is on its right do not run
together. -/
theorem wordRuns_split {mark : String} (hmark : IsPunctuation mark) (hne : mark ≠ "")
    (s t : String) : wordRuns (s ++ mark ++ t) = wordRuns s ++ wordRuns t := by
  have hsplit : ∀ (d : Char) (x y : List Char), isWordLetter d = false →
      wordRuns (.ofList (x ++ d :: y)) = wordRuns (.ofList x) ++ wordRuns (.ofList y) := by
    intro d x y hd
    simp only [wordRuns, String.toList_ofList]
    rw [List.splitOnP_append_cons x y (by simp [hd]), List.filter_append, List.map_append]
  -- the first character separates, the others have nothing on their left
  have hrest : ∀ ds : List Char, (∀ d ∈ ds, isWordLetter d = false) →
      wordRuns (.ofList (ds ++ t.toList)) = wordRuns t := by
    intro ds hds
    induction ds with
    | nil => rw [List.nil_append, String.ofList_toList]
    | cons d ds ih =>
      obtain ⟨hd, hds⟩ := List.forall_mem_cons.mp hds
      have hcons := hsplit d [] (ds ++ t.toList) hd
      rw [ih hds] at hcons
      exact hcons
  cases hlist : mark.toList with
  | nil => exact absurd (String.toList_eq_nil_iff.mp hlist) hne
  | cons d ds =>
    have hmark' : ∀ e ∈ d :: ds, isWordLetter e = false := hlist ▸ hmark
    obtain ⟨hd, hds⟩ := List.forall_mem_cons.mp hmark'
    have htext : s ++ mark ++ t = .ofList (s.toList ++ d :: (ds ++ t.toList)) := by
      rw [← String.toList_inj, String.toList_ofList, String.toList_append, String.toList_append,
        hlist, List.append_assoc, List.cons_append]
    rw [htext, hsplit d _ _ hd, hrest ds hds, String.ofList_toList]

/-- A word is its only run. -/
theorem wordRuns_of_isWord {s : String} (hs : IsWord s) (hne : s ≠ "") : wordRuns s = [s] := by
  have hsingle : s.toList.splitOnP (fun d => !isWordLetter d) = [s.toList] :=
    List.splitOnP_eq_singleton fun d hd => by simp [hs d hd]
  simp [wordRuns, hsingle, hne]

/-! ### The words of a tree -/

/-- The word that a kind stands for without a name; the signs for everything and for the unknown
are no words. -/
def Kind.words : Kind → List String
  | .null => ["null"]
  | .undefined => ["undefined"]
  | _ => []

theorem wordRuns_literal (k : Kind) : wordRuns k.literal = k.words := by
  cases k <;> decide +kernel

/-- The words of a part with a word in front, nothing for a missing part. -/
def labelledWords (label : String) : Option (List String) → List String
  | none => []
  | some ws => label :: ws

namespace Layer

variable {α : Type}

/-- The name of a node, or the words that stand for it. -/
def nameWords (fallback : List String) (l : Layer α) : List String :=
  if l.name.getD "" = "" then fallback else [l.name.getD ""]

/-- The words of a node, from those of its subtrees. -/
def words (l : Layer (List String)) : List String :=
  match l.kind? with
  | some .function =>
    ["function"] ++ labelledWords "new" l.newType ++ labelledWords "this" l.thisType ++
      (present l.params).flatten ++ l.result.getD []
  | some .record => (l.fields.getD []).flatMap fun f => f.key.getD [] ++ f.value.getD []
  | some .application => l.base.getD [] ++ (present l.arguments).flatten
  | some .union => (present l.members).flatten
  | some kind => l.nameWords kind.words ++ l.inner.getD []
  | none => l.nameWords [] ++ l.inner.getD []

end Layer

namespace Node

/-- The words of a tree, in the order of the text. -/
def words : Node → List String := fold Layer.words

theorem words_mk (l : Layer Node) : words (.mk l) = (l.map words).words := fold_mk _ l

/-- The names anywhere in a tree, also where they are not shown. -/
def names : Node → List String := fold fun l => l.name.toList ++ l.children.flatten

theorem names_mk (l : Layer Node) :
    names (.mk l) = l.name.toList ++ l.children.flatMap names := by
  rw [names, fold_mk, Layer.children_map, ← List.flatMap_def]
  rfl

end Node

/-! ### Words of written tokens -/

section Parts

variable {α : Type} (f : α → List String)

theorem getD_map (o : Option α) : (o.map f).getD [] = o.toList.flatMap f := by
  cases o with
  | none => rfl
  | some a => exact (List.flatMap_singleton f a).symm

theorem labelledWords_map (label : String) (o : Option α) :
    labelledWords label (o.map f) = o.toList.flatMap fun a => label :: f a := by
  cases o with
  | none => rfl
  | some a => exact (List.flatMap_singleton (fun a => label :: f a) a).symm

theorem flatten_present_map (items : Option (List (Option α))) :
    (Layer.present (items.map fun list => list.map fun item => item.map f)).flatten =
      (Layer.present items).flatMap f := by
  rw [Layer.present_map, ← List.flatMap_def]

end Parts

section Written

variable {c : Config}

/-- The words of written tokens are collected apart on the two sides of a punctuation sign. -/
theorem splitsAtSigns_wordRuns (hsafe : c.htmlSafe.isTruthy = false) :
    SplitsAtSigns fun ts => wordRuns (c.writeAll ts) where
  nil := rfl
  split {s} hs xs ys := by
    have hmark : IsPunctuation (s.text false) := by
      cases s <;> first | exact absurd hs (by decide) | decide
    have htext : c.writeAll (xs ++ .sign s :: ys) =
        c.writeAll xs ++ s.text false ++ c.writeAll ys := by
      rw [c.writeAll_append, c.writeAll_cons, Config.write, hsafe, String.append_assoc]
    rw [htext, wordRuns_split hmark (s.text_ne_empty false)]

/-- The words of the name that a node shows. -/
theorem wordRuns_ofName {α : Type} (hlinks : c.links = none) {l : Layer α}
    (hname : ∀ s ∈ l.name, IsWord s) {fallback : String} {ws : List String}
    (hfallback : wordRuns fallback = ws) :
    wordRuns (c.writeAll (Token.ofName (l.nameOr fallback))) = l.nameWords ws := by
  have hlink : ∀ s, c.link s = s := fun s => by rw [Config.link, hlinks]
  rw [c.writeAll_ofName, hlink, Layer.nameOr, Layer.nameWords]
  split
  · exact hfallback
  · -- a name that is there and not empty is one word
    next hne =>
    cases hn : l.name with
    | none => simp [hn] at hne
    | some s =>
      rw [hn] at hne
      exact wordRuns_of_isWord (hname s hn) hne

/-- The words of a node without its modifiers are those of its parts. -/
theorem wordRuns_bodyTokens (hlinks : c.links = none) (hsafe : c.htmlSafe.isTruthy = false)
    {l : Layer (List Token)} (hname : ∀ s ∈ l.name, IsWord s) :
    wordRuns (c.writeAll l.bodyTokens) = (l.map fun ts => wordRuns (c.writeAll ts)).words := by
  have h := splitsAtSigns_wordRuns hsafe
  have hword : ∀ s : Sign, s.isWord → wordRuns (c.writeAll [.sign s]) = [s.text false] := by
    intro s hs
    rw [c.writeAll_cons, Config.write, hsafe, c.writeAll_nil, String.append_empty]
    cases s <;> first | exact absurd hs (by decide) | rfl
  have hfields : ((l.map fun ts => wordRuns (c.writeAll ts)).fields.getD []).flatMap
      (fun f => f.key.getD [] ++ f.value.getD []) =
      ((l.fields.getD []).flatMap Field.children).flatMap fun ts => wordRuns (c.writeAll ts) := by
    rw [List.flatMap_assoc]
    cases hfields : l.fields with
    | none => simp [Layer.map, hfields]
    | some fields =>
      simp only [Layer.map, hfields, Option.map_some, Option.getD_some, List.flatMap_map, Field.map,
        getD_map, Field.children, List.flatMap_append]
  unfold Layer.bodyTokens Layer.words
  rw [Layer.kind?_map]
  cases l.kind? with
  | none =>
    rw [h.combine, wordRuns_ofName hlinks hname rfl, h.getD, ← getD_map]
    rfl
  | some kind =>
    cases kind with
    | function =>
      -- the three words of a signature are signs, but count as words
      simp only [Layer.map, labelledWords_map, getD_map, flatten_present_map]
      rw [h.signature, hword .function rfl, hword .new rfl, hword .this rfl]
      rfl
    | record => rw [h.record, hfields]
    | application =>
      simp only [Layer.map, getD_map, flatten_present_map]
      rw [h.append_arguments, h.getD]
    | union =>
      simp only [Layer.map, flatten_present_map]
      exact h.union l.members
    | _ =>
      rw [h.combine, wordRuns_ofName hlinks hname (wordRuns_literal _), h.getD, ← getD_map]
      rfl

end Written

/-- The maximal runs of word characters in the text of a tree are the words of the tree, in their
order, when all its names are made of such characters. -/
theorem wordRuns_render {n : Node} {c : Config} (hlinks : c.links = none)
    (hsafe : c.htmlSafe.isTruthy = false) (hnames : ∀ s ∈ n.names, IsWord s) :
    wordRuns (n.render c).value = n.words := by
  rw [Node.value_render]
  induction n using Node.induct with
  | h l ih =>
    rw [Node.names_mk] at hnames
    have hname : ∀ s ∈ l.name, IsWord s := fun s hs =>
      hnames s (List.mem_append_left _ (Option.mem_toList.mpr hs))
    have hchildren : ∀ m ∈ l.children,
        wordRuns (c.writeAll (m.tokens c.suppressModifiers.isTruthy)) = m.words := by
      intro m hm
      refine ih m hm fun s hs => hnames s (List.mem_append_right _ ?_)
      exact List.mem_flatMap.mpr ⟨m, hm, hs⟩
    have hbody := (splitsAtSigns_wordRuns hsafe).tokens c.suppressModifiers.isTruthy
      (l.map (Node.tokens c.suppressModifiers.isTruthy))
    rw [Node.tokens_mk, hbody, wordRuns_bodyTokens hlinks hsafe hname, Layer.map_map, Node.words_mk]
    exact congrArg Layer.words (Layer.map_congr hchildren)

/-- A signature with a type after a name, an empty receiver, a missing parameter, a parameter of no
known kind next to a union with a missing member, and an application to a record with a field
that has no key. -/
def crowdedSignature : Node :=
  .mk
    { tag := .str "FunctionType"
      newType := some (.mk
        { tag := .str "NameExpression", name := some "Foo"
          inner := some (.mk { tag := .str "NullLiteral" }) })
      thisType := some (.mk { tag := .str "NameExpression", name := some "" })
      params := some
        [none, some (.mk { tag := .int 7, name := some "x_1", repeatable := .int 1 }),
          some (.mk
            { tag := .str "TypeUnion"
              members := some [some (.mk { tag := .str "UndefinedLiteral" }), none,
                some (.mk { tag := .str "AllLiteral", nullable := .nonNullable })] })]
      result := some (.mk
        { tag := .str "TypeApplication"
          base := some (.mk { tag := .str "NameExpression", name := some "Array" })
          arguments := some [some (.mk
            { tag := .str "RecordType"
              fields := some
                [⟨some (.mk { tag := .str "NameExpression", name := some "a" }), none⟩,
                  ⟨none, some (.mk { tag := .str "UnknownLiteral", name := some "b" })⟩] })] }) }

theorem wordRuns_render_crowdedSignature :
    (∀ s ∈ crowdedSignature.names, IsWord s) ∧
      (crowdedSignature.render {}).value =
        "function(new:Foo:null, this:, , ...x_1, (undefined||!*)): Array<\x7ba, : b\x7d>" ∧
      wordRuns (crowdedSignature.render {}).value =
        ["function", "new", "Foo", "null", "this", "x_1", "undefined", "Array", "a", "b"] := by
  have hnames : ∀ s ∈ crowdedSignature.names, IsWord s := by decide +kernel
  refine ⟨hnames, by decide +kernel, ?_⟩
  rw [wordRuns_render rfl rfl hnames]
  decide +kernel

end TypeText

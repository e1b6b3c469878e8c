import TypeText.Proofs.Tokens

/-!
# Links around names

In a text that is safe for HTML the only tags are those of links, if no name, target or
class brings in an angle bracket of its own.  Cutting the tags out of such a text leaves
the text without links; the tags themselves are, in order, an opening and a closing one
for each name or literal that the table knows.

A text is cut from the front.  Plain text and whole tags can be cut off one by one,
whatever comes after them, so that the text is cut token by token.

## Main definitions

* `splitTags` — a text without its tags, and the tags.
* `openingTag`, `LinkTable.tags` — the tag in front of a linked name, and the tags around
  a name.
* `HasNoAngle` — a text without angle brackets.

## Main results

* `cutTags_text`, `cutTags_tag` — plain text and tags are cut off from the front.
* `cutTags_writeAll` — **cutting the tags out of written tokens takes the links away.**
* `splitTags_render` — the same for trees.
-/

set_option autoImplicit false

namespace TypeText

/-! ### Cutting out tags -/

/-- The text outside of tags and the tags.  A tag goes from a `<` to the next `>`; while one is
read, its beginning is kept. -/
def cutTags : Option (List Char) → List Char → List Char × List String
  | none, [] => ([], [])
  | some tag, [] => (tag, [])
  | none, d :: ds =>
    if d = '<' then cutTags (some ['<']) ds
    else (d :: (cutTags none ds).1, (cutTags none ds).2)
  | some tag, d :: ds =>
    if d = '>' then ((cutTags none ds).1, String.ofList (tag ++ ['>']) :: (cutTags none ds).2)
    else cutTags (some (tag ++ [d])) ds

/-- A text without its tags, and the tags in their order. -/
def splitTags (s : String) : String × List String :=
  (String.ofList (cutTags none s.toList).1, (cutTags none s.toList).2)

/-- A text from a `<` to the next `>`. -/
def IsTag (s : String) : Prop := ∃ body, s.toList = '<' :: (body ++ ['>']) ∧ '>' ∉ body

/-- Plain text is left as it is. -/
theorem cutTags_text {text : List Char} (h : '<' ∉ text) (rest : List Char) :
    cutTags none (text ++ rest) =
      (text ++ (cutTags none rest).1, (cutTags none rest).2) := by
  induction text with
  | nil => rfl
  | cons d text ih =>
    rw [List.mem_cons, not_or] at h
    rw [List.cons_append, cutTags, if_neg (Ne.symm h.1), ih h.2]
    rfl

theorem cutTags_some {body : List Char} (h : '>' ∉ body) (tag rest : List Char) :
    cutTags (some tag) (body ++ '>' :: rest) =
      ((cutTags none rest).1, String.ofList (tag ++ (body ++ ['>'])) :: (cutTags none rest).2) := by
  induction body generalizing tag with
  | nil => rfl
  | cons d body ih =>
    rw [List.mem_cons, not_or] at h
    rw [List.cons_append, cutTags, if_neg (Ne.symm h.1), ih h.2]
    simp

/-- A tag is cut out. -/
theorem cutTags_tag {tag : String} (h : IsTag tag) (rest : List Char) :
    cutTags none (tag.toList ++ rest) =
      ((cutTags none rest).1, tag :: (cutTags none rest).2) := by
  obtain ⟨body, htag, hbody⟩ := h
  have hsplit : tag.toList ++ rest = '<' :: (body ++ '>' :: rest) := by
    rw [htag]
    simp
  rw [hsplit, cutTags, if_pos rfl, cutTags_some hbody, List.singleton_append, ← htag,
    String.ofList_toList]

/-! ### Links -/

/-- A text without angle brackets. -/
def HasNoAngle (s : String) : Prop := '<' ∉ s.toList ∧ '>' ∉ s.toList

instance (s : String) : Decidable (HasNoAngle s) :=
  inferInstanceAs (Decidable ('<' ∉ s.toList ∧ '>' ∉ s.toList))

/-- The tag in front of a linked name. -/
def openingTag (href linkClass : Json) : String :=
  "<a href=\"" ++ href.display ++ "\"" ++
    (if linkClass.isTruthy then " class=\"" ++ linkClass.display ++ "\"" else "") ++ ">"

/-- The tags around a name: two if the table knows it, otherwise none. -/
def LinkTable.tags (t : LinkTable) (linkClass : Json) (name : String) : List String :=
  if (t.get name).isTruthy then [openingTag (t.get name) linkClass, "</a>"] else []

theorem anchor_of_isTruthy (name : String) {href : Json} (h : href.isTruthy) (linkClass : Json) :
    anchor name href linkClass = openingTag href linkClass ++ name ++ "</a>" := by
  rw [anchor, if_pos h]
  rfl

theorem isTag_openingTag {href linkClass : Json} (hhref : HasNoAngle href.display)
    (hclass : linkClass.isTruthy → HasNoAngle linkClass.display) :
    IsTag (openingTag href linkClass) := by
  have hattribute : '>' ∉ (if linkClass.isTruthy then " class=\"" ++ linkClass.display ++ "\""
      else "").toList := by
    split
    · next h => simp [(hclass h).2]
    · simp
  refine ⟨"a href=\"".toList ++ href.display.toList ++ "\"".toList ++ (if linkClass.isTruthy then
    " class=\"" ++ linkClass.display ++ "\"" else "").toList, ?_, ?_⟩
  · simp [openingTag]
  · simp [hhref.2, hattribute]

theorem isTag_closingTag : IsTag "</a>" := ⟨['/', 'a'], by simp, by decide⟩

/-- A configuration without its link table. -/
def Config.unlinked (c : Config) : Config := { c with links := none }

/-- In a text that is safe for HTML a sign or word has no `<` in it. -/
theorem Sign.not_mem_text (s : Sign) : '<' ∉ (s.text true).toList := by
  cases s <;> decide

section Written

variable {c : Config} {t : LinkTable}

/-- What is cut out of a written token. -/
theorem cutTags_write (hlinks : c.links = some t) (hsafe : c.htmlSafe.isTruthy)
    (hclass : c.linkClass.isTruthy → HasNoAngle c.linkClass.display) {x : Token}
    (hx : ∀ s ∈ x.name?, HasNoAngle s ∧ ((t.get s).isTruthy → HasNoAngle (t.get s).display))
    (rest : List Char) :
    cutTags none ((c.write x).toList ++ rest) =
      ((c.unlinked.write x).toList ++ (cutTags none rest).1,
        x.name?.toList.flatMap (t.tags c.linkClass) ++ (cutTags none rest).2) := by
  cases x with
  | sign s =>
    -- a bracket is written as an entity, so that it opens no tag
    have htext : '<' ∉ (c.write (.sign s)).toList := by
      rw [Config.write, hsafe]
      exact s.not_mem_text
    exact cutTags_text htext rest
  | name s hs =>
    obtain ⟨hname, hhref⟩ := hx s rfl
    have hlink : c.write (.name s hs) = anchor s (t.get s) c.linkClass := by
      rw [Config.write, Config.link, hlinks]
      exact if_neg hs
    have hplain : c.unlinked.write (.name s hs) = s := rfl
    have htags : (Token.name s hs).name?.toList.flatMap (t.tags c.linkClass) =
        t.tags c.linkClass s := List.flatMap_singleton _ _
    rw [hlink, hplain, htags, LinkTable.tags]
    by_cases h : (t.get s).isTruthy
    · -- tag, name, tag: each is cut up to where the next one starts
      rw [anchor_of_isTruthy s h, if_pos h, String.toList_append, String.toList_append,
        List.append_assoc, List.append_assoc, cutTags_tag (isTag_openingTag (hhref h) hclass),
        cutTags_text hname.1, cutTags_tag isTag_closingTag]
      rfl
    · -- the table has no answer, and the name stands alone
      rw [anchor, if_neg h, if_neg h]
      exact cutTags_text hname.1 rest

/-- **Cutting the tags out of written tokens takes the links away.** -/
theorem cutTags_writeAll (hlinks : c.links = some t) (hsafe : c.htmlSafe.isTruthy)
    (hclass : c.linkClass.isTruthy → HasNoAngle c.linkClass.display) (xs : List Token)
    (hxs : ∀ s ∈ Token.names xs,
      HasNoAngle s ∧ ((t.get s).isTruthy → HasNoAngle (t.get s).display)) :
    cutTags none (c.writeAll xs).toList =
      ((c.unlinked.writeAll xs).toList, (Token.names xs).flatMap (t.tags c.linkClass)) := by
  induction xs with
  | nil => rfl
  | cons x xs ih =>
    have hnames : Token.names (x :: xs) = x.name?.toList ++ Token.names xs := by
      cases x <;> rfl
    rw [hnames] at hxs ⊢
    have hhead := cutTags_write hlinks hsafe hclass (x := x)
      (fun s hs => hxs s (List.mem_append_left _ (Option.mem_toList.mpr hs)))
    have htail := ih fun s hs => hxs s (List.mem_append_right _ hs)
    rw [Config.writeAll_cons, Config.writeAll_cons, String.toList_append, String.toList_append,
      hhead, htail, List.flatMap_append]

end Written

/-- Cutting the tags out of the text of a tree leaves the text without links; the tags are those
around the shown names and literals that the table knows, in the order of the text.  Only names
that are shown, and only what the table says about them, have to be without angle brackets. -/
theorem splitTags_render {n : Node} {c : Config} {t : LinkTable} (hlinks : c.links = some t)
    (hsafe : c.htmlSafe.isTruthy) (hnames : ∀ s ∈ n.labels, HasNoAngle s)
    (hhrefs : ∀ s ∈ n.labels, (t.get s).isTruthy → HasNoAngle (t.get s).display)
    (hclass : c.linkClass.isTruthy → HasNoAngle c.linkClass.display) :
    splitTags (n.render c).value =
      ((n.render { c with links := none }).value, n.labels.flatMap (t.tags c.linkClass)) := by
  have htokens := n.names_tokens c.suppressModifiers.isTruthy
  have hcut := cutTags_writeAll hlinks hsafe hclass (n.tokens c.suppressModifiers.isTruthy)
    fun s hs => ⟨hnames s (htokens ▸ hs), hhrefs s (htokens ▸ hs)⟩
  rw [htokens, ← n.value_render c] at hcut
  have hplain : (n.render c.unlinked).value =
      c.unlinked.writeAll (n.tokens c.suppressModifiers.isTruthy) := n.value_render c.unlinked
  rw [splitTags, hcut, ← hplain, String.ofList_toList]
  rfl

/-- An application to an optional name, a missing argument and a literal. -/
def linkedArray : Node :=
  .mk
    { tag := .str "TypeApplication"
      base := some (.mk { tag := .str "NameExpression", name := some "Array" })
      arguments := some
        [some (.mk { tag := .str "NameExpression", name := some "Foo", optional := .bool true }),
          none, some (.mk { tag := .str "NullLiteral" })] }

/-- A table that knows the generic type and the literal. -/
def arrayLinks : LinkTable := .mapping [("Array", .str "/array"), ("null", .str "/null")]

theorem splitTags_render_linkedArray :
    linkedArray.labels = ["Array", "Foo", "null"] ∧
      (∀ s ∈ linkedArray.labels, HasNoAngle s) ∧
      (∀ s ∈ linkedArray.labels,
        (arrayLinks.get s).isTruthy → HasNoAngle (arrayLinks.get s).display) ∧
      splitTags (linkedArray.render
          { links := some arrayLinks, linkClass := .str "ext", htmlSafe := .bool true }).value =
        ("Array&lt;Foo=, , null&gt;",
          ["<a href=\"/array\" class=\"ext\">", "</a>",
            "<a href=\"/null\" class=\"ext\">", "</a>"]) := by
  have hlabels : linkedArray.labels = ["Array", "Foo", "null"] := rfl
  have hnames : ∀ s ∈ linkedArray.labels, HasNoAngle s := by
    rw [hlabels]
    decide
  have hhrefs : ∀ s ∈ linkedArray.labels,
      (arrayLinks.get s).isTruthy → HasNoAngle (arrayLinks.get s).display := by
    rw [hlabels]
    decide
  refine ⟨hlabels, hnames, hhrefs, ?_⟩
  rw [splitTags_render rfl rfl hnames hhrefs fun _ => by decide, hlabels]
  decide +kernel

end TypeText

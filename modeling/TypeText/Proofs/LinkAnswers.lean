import TypeText.Proofs.LinkMarkup
import TypeText.Proofs.Overriding
import TypeText.Proofs.Reports

/-!
# What a link table contributes to a text

The text of a tree depends on the link table only through what the table answers for the
names and literals that the tree shows, and of an answer that is not set it does not
matter what it is.  No table at all is as good as one that knows no name.

So it does not matter in which form the entries of a table are given: a mapping, and an
object that has the same entries as its own attributes and no `get` that can be called,
answer alike, whatever else the object inherits.

## Main definitions

* `Config.answer` — what a name links to under a configuration.
* `LinkSource.Holds` — a source that holds given entries.

## Main results

* `Config.link_congr` — a name is shown alike when it is answered alike.
* `Node.render_congr_answer` — **a text depends on the answers for the shown names.**
* `LinkSource.Holds.resolve` — a source that holds entries answers by these entries.
* `render_eq_of_answers` — both together: tables that answer alike, and sources that hold
  the same entries, cannot be told apart.
-/

set_option autoImplicit false

namespace TypeText

/-! ### Answers -/

namespace Config

/-- What a name links to; without a table it links to nothing. -/
def answer (c : Config) (name : String) : Json :=
  match c.links with
  | none => .null
  | some table => table.get name

/-- A name that is not empty is shown as a link to its answer. -/
theorem link_eq (c : Config) {name : String} (hname : name ≠ "") :
    c.link name = anchor name (c.answer name) c.linkClass := by
  unfold link answer
  cases c.links with
  | none => rfl
  | some table => exact if_neg hname

theorem anchor_congr_href (name : String) {v w : Json} (h : v.SameIfSet w) (linkClass : Json) :
    anchor name v linkClass = anchor name w linkClass := by
  rcases h with rfl | ⟨hv, hw⟩
  · rfl
  · simp [anchor, hv, hw]

variable {c d : Config}

theorem options_eq_of_unlinked (h : c.unlinked = d.unlinked) :
    c.linkClass = d.linkClass ∧ c.htmlSafe = d.htmlSafe ∧
      c.suppressModifiers = d.suppressModifiers := by
  simp only [unlinked, mk.injEq] at h
  exact ⟨h.2.1, h.2.2.2⟩

/-- A name is shown alike when it is answered alike. -/
theorem link_congr (hrest : c.unlinked = d.unlinked) {name : String} (hname : name ≠ "")
    (h : (c.answer name).SameIfSet (d.answer name)) : c.link name = d.link name := by
  rw [c.link_eq hname, d.link_eq hname, (options_eq_of_unlinked hrest).1]
  exact anchor_congr_href name h d.linkClass

theorem write_congr (hrest : c.unlinked = d.unlinked) {t : Token}
    (h : ∀ name ∈ t.name?, (c.answer name).SameIfSet (d.answer name)) : c.write t = d.write t := by
  cases t with
  | sign s => rw [write, write, (options_eq_of_unlinked hrest).2.1]
  | name s hs => exact link_congr hrest hs (h s rfl)

end Config

/-- **A text depends on the answers for the shown names**, and so do its messages. -/
theorem Node.render_congr_answer {n : Node} {c d : Config} (hrest : c.unlinked = d.unlinked)
    (h : ∀ name ∈ n.labels, (c.answer name).SameIfSet (d.answer name)) :
    n.render c = n.render d := by
  refine Logged.ext ?_ ?_
  · rw [n.value_render, n.value_render, (Config.options_eq_of_unlinked hrest).2.2, Config.writeAll,
      Config.writeAll]
    refine congrArg String.join (List.map_congr_left fun t ht => Config.write_congr hrest ?_)
    -- a name among the tokens is one of the shown names
    intro name hname
    refine h name ?_
    rw [← n.names_tokens d.suppressModifiers.isTruthy]
    exact List.mem_filterMap.mpr ⟨t, ht, hname⟩
  · -- no message depends on the configuration
    rw [n.log_render, n.log_render]

/-! ### Sources -/

/-- A source that holds the given entries: a mapping with these entries, of whatever type, or an
object that has them as its own attributes and has no `get` that can be called.  What else the
object inherits does not count, and an attribute of its own named `get` is an entry like any
other. -/
inductive LinkSource.Holds (entries : List (String × Json)) : LinkSource → Prop where
  | mapping {typeName : String} {members : List (String × Json)}
      (h : ∀ name, lookup name members = lookup name entries) :
      Holds entries (.object (.answering typeName fun name => (lookup name members).getD .null))
  | object {owner : Attributes} {own : List (String × Attribute)} (hown : owner.own = some own)
      (hget : owner.answer? = none)
      (h : ∀ name, lookup name own = (lookup name entries).map .data) :
      Holds entries (.object owner)

/-- A source that holds entries can be used, and its table answers by these entries. -/
theorem LinkSource.Holds.resolve {entries : List (String × Json)} {source : LinkSource}
    (h : source.Holds entries) :
    ∃ table log, source.resolve = .ok ⟨some table, log⟩ ∧
      ∀ name, table.get name = (lookup name entries).getD .null := by
  cases h with
  | mapping h => exact ⟨_, _, rfl, fun name => congrArg (·.getD .null) (h name)⟩
  | @object owner own hown hget h =>
    -- there is nothing to call, so that the attributes of its own are asked
    refine ⟨_, _, resolve_of_own hget (by rw [hown]; rfl), fun name => ?_⟩
    change owner.get name = _
    rw [Attributes.get, hown, Option.getD_some, h name]
    cases lookup name entries <;> rfl

/-- Settings with a source that holds entries give a configuration that answers by them; nothing
else in it depends on the source. -/
theorem LinkSource.Holds.ofSettings {entries : List (String × Json)} {source : LinkSource}
    (h : source.Holds entries) (s : Settings) :
    ∃ c, Config.ofSettings { s with links := source } = .ok c ∧
      (∀ name, c.value.answer name = (lookup name entries).getD .null) ∧
      c.value.unlinked =
        { linkClass := (Config.foldClass s).value, cssClass := s.cssClass, htmlSafe := s.htmlSafe,
          suppressModifiers := s.suppressModifiers } := by
  obtain ⟨table, log, hresolve, hget⟩ := h.resolve
  exact ⟨_, Config.ofSettings_eq_ok_iff.mpr ⟨_, hresolve, rfl⟩, hget, rfl⟩

/-- Two configurations that differ in their link tables alone give a tree the same text and the
same messages when the tables give the same answers, up to answers that are not set, for the names
and literals that the tree shows.  So sources that hold the same entries, in whatever form, give
every tree the same text. -/
theorem render_eq_of_answers :
    (∀ (n : Node) (c d : Config), c.unlinked = d.unlinked →
      (∀ name ∈ n.labels, (c.answer name).SameIfSet (d.answer name)) → n.render c = n.render d) ∧
    ∀ (s : Settings) (entries : List (String × Json)) (a b : LinkSource),
      a.Holds entries → b.Holds entries →
      ∃ c d, Config.ofSettings { s with links := a } = .ok c ∧
        Config.ofSettings { s with links := b } = .ok d ∧
        ∀ n : Node, n.render c.value = n.render d.value := by
  refine ⟨fun n c d hrest h => n.render_congr_answer hrest h, fun s entries a b ha hb => ?_⟩
  obtain ⟨c, hc, hanswer, hrest⟩ := ha.ofSettings s
  obtain ⟨d, hd, hanswer', hrest'⟩ := hb.ofSettings s
  refine ⟨c, d, hc, hd, fun n => n.render_congr_answer (hrest.trans hrest'.symm) ?_⟩
  intro name _
  exact Or.inl ((hanswer name).trans (hanswer' name).symm)

/-- A union of three names and a literal. -/
def linkedUnion : Node :=
  .mk
    { tag := .str "TypeUnion"
      members := some
        [some (.mk { tag := .str "NameExpression", name := some "get" }),
          some (.mk { tag := .str "NameExpression", name := some "Own" }),
          some (.mk { tag := .str "Mystery", name := some "Inherited" }),
          some (.mk { tag := .str "NullLiteral" })] }

/-- Entries of which one is named `get`, and one is not set. -/
def ownLinks : List (String × Json) :=
  [("Own", .str "own.html"), ("get", .int 7), ("null", .str "")]

/-- An object with these entries, and with another one that it inherits.  The `get` of its type is
hidden by its own. -/
def linksOwner : Attributes :=
  { typeName := "Table"
    inherited := [("Inherited", .data (.str "no.html")),
      ("get", .callable "get" fun _ => .str "no.html")]
    own := some [("get", .data (.int 7)), ("null", .data (.str "")),
      ("Own", .data (.str "own.html"))] }

/-- A table that answers the names of the union alike, and other names as well. -/
def widerLinks : LinkTable :=
  .mapping [("Other", .bool true), ("get", .int 7), ("Own", .str "own.html"), ("null", .int 0)]

theorem linksOwner.holds : (LinkSource.object linksOwner).Holds ownLinks := by
  refine .object rfl rfl fun name => ?_
  -- the names of the entries one by one; the order of the entries is another here
  by_cases hget : "get" = name
  · subst hget
    rfl
  by_cases hnull : "null" = name
  · subst hnull
    rfl
  by_cases hown : "Own" = name
  · subst hown
    rfl
  · simp [ownLinks, lookup_cons, hget, hnull, hown]

theorem render_eq_of_answers_linkedUnion :
    linkedUnion.labels = ["get", "Own", "Inherited", "null"] ∧
      (∀ name ∈ linkedUnion.labels,
        ((LinkTable.mapping ownLinks).get name).SameIfSet (widerLinks.get name)) ∧
      linkedUnion.render { links := some (.mapping ownLinks) } =
        linkedUnion.render { links := some widerLinks } ∧
      ∃ c d, Config.ofSettings { links := .mapping ownLinks } = .ok c ∧
        Config.ofSettings { links := .object linksOwner } = .ok d ∧
        linkedUnion.render c.value = linkedUnion.render d.value ∧
        (linkedUnion.render c.value).value =
          "(<a href=\"7\">get</a>|<a href=\"own.html\">Own</a>|Inherited|null)" := by
  have hlabels : linkedUnion.labels = ["get", "Own", "Inherited", "null"] := rfl
  have hanswers : ∀ name ∈ linkedUnion.labels,
      ((LinkTable.mapping ownLinks).get name).SameIfSet (widerLinks.get name) := by
    rw [hlabels]
    simp only [List.forall_mem_cons]
    exact ⟨.inl rfl, .inl rfl, .inl rfl, .inr ⟨rfl, rfl⟩, fun _ h => absurd h List.not_mem_nil⟩
  have hrender : linkedUnion.render { links := some (.mapping ownLinks) } =
      linkedUnion.render { links := some widerLinks } :=
    render_eq_of_answers.1 linkedUnion _ _ rfl hanswers
  obtain ⟨c, d, hc, hd, hsame⟩ := render_eq_of_answers.2 {} ownLinks
    (.mapping ownLinks) (.object linksOwner) (.mapping fun _ => rfl) linksOwner.holds
  refine ⟨hlabels, hanswers, hrender, c, d, hc, hd, hsame linkedUnion, ?_⟩
  obtain rfl := Except.ok.inj hc
  decide +kernel

end TypeText

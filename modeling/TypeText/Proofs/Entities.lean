import TypeText.Proofs.LinkMarkup

/-!
# Angle brackets as entities

Without links, the text that is safe for HTML is the plain text with its angle brackets
written as entities, if no name brings in an angle bracket of its own.  Both texts are
written from the same tokens, so that separators and empty parts are the same in both; and
each token is escaped on its own, so that nothing is escaped twice however deep it stands.

## Main definitions

* `entity`, `escapeAngles` — how a character and a text are written without angle
  brackets.

## Main results

* `hasNoAngle_escapeAngles` — nothing is left to escape.
* `Config.writeAll_htmlSafe` — **tokens that are written safely are the plain ones,
  escaped.**
* `value_render_htmlSafe` — the same for trees.
-/

set_option autoImplicit false

namespace TypeText

/-! ### Escaping -/

/-- How a character is written where angle brackets would be read as tags. -/
def entity (d : Char) : List Char :=
  if d = '<' then "&lt;".toList else if d = '>' then "&gt;".toList else [d]

/-- A text with entities in the place of its angle brackets. -/
def escapeAngles (s : String) : String := String.ofList (s.toList.flatMap entity)

theorem entity_of_ne {d : Char} (hleft : d ≠ '<') (hright : d ≠ '>') : entity d = [d] := by
  rw [entity, if_neg hleft, if_neg hright]

theorem escapeAngles_append (s t : String) :
    escapeAngles (s ++ t) = escapeAngles s ++ escapeAngles t := by
  rw [escapeAngles, String.toList_append, List.flatMap_append, String.ofList_append]
  rfl

/-- A text without angle brackets is left as it is. -/
theorem escapeAngles_of_hasNoAngle {s : String} (hs : HasNoAngle s) : escapeAngles s = s := by
  obtain ⟨hleft, hright⟩ := hs
  have hsame : ∀ d ∈ s.toList, entity d = [d] := by
    intro d hd
    exact entity_of_ne (fun h => hleft (h ▸ hd)) (fun h => hright (h ▸ hd))
  rw [escapeAngles, List.flatMap_def, List.map_congr_left hsame, ← List.flatMap_def,
    List.flatMap_singleton', String.ofList_toList]

theorem not_mem_entity (d : Char) : '<' ∉ entity d ∧ '>' ∉ entity d := by
  unfold entity
  split
  · decide
  · next hleft =>
    split
    · decide
    · -- any other character stands for itself
      next hright =>
      rw [List.mem_singleton, List.mem_singleton]
      exact ⟨Ne.symm hleft, Ne.symm hright⟩

/-- No angle bracket is left, whatever the text. -/
theorem hasNoAngle_escapeAngles (s : String) : HasNoAngle (escapeAngles s) := by
  rw [HasNoAngle, escapeAngles, String.toList_ofList]
  constructor
  · intro hmem
    obtain ⟨d, -, hd⟩ := List.mem_flatMap.mp hmem
    exact (not_mem_entity d).1 hd
  · intro hmem
    obtain ⟨d, -, hd⟩ := List.mem_flatMap.mp hmem
    exact (not_mem_entity d).2 hd

/-! ### Tokens -/

/-- Of the signs and words only angle brackets are changed. -/
theorem Sign.escapeAngles_text (s : Sign) : escapeAngles (s.text false) = s.text true := by
  cases s <;> decide +kernel

namespace Config

variable {c : Config} {safe plain : Json}

/-- A token that is written safely is the plain one, escaped. -/
theorem write_htmlSafe (hlinks : c.links = none) (hsafe : safe.isTruthy)
    (hplain : plain.isTruthy = false) {t : Token} (ht : ∀ s ∈ t.name?, HasNoAngle s) :
    Config.write { c with htmlSafe := safe } t =
      escapeAngles (Config.write { c with htmlSafe := plain } t) := by
  cases t with
  | sign s =>
    rw [write, write, hsafe, hplain]
    exact s.escapeAngles_text.symm
  | name s hs =>
    -- without links a name is written as it is, in both texts
    simp only [write, link, hlinks]
    exact (escapeAngles_of_hasNoAngle (ht s rfl)).symm

/-- **Tokens that are written safely are the plain ones, escaped.** -/
theorem writeAll_htmlSafe (hlinks : c.links = none) (hsafe : safe.isTruthy)
    (hplain : plain.isTruthy = false) {ts : List Token}
    (hts : ∀ s ∈ Token.names ts, HasNoAngle s) :
    Config.writeAll { c with htmlSafe := safe } ts =
      escapeAngles (Config.writeAll { c with htmlSafe := plain } ts) := by
  induction ts with
  | nil => rfl
  | cons t ts ih =>
    have hhead : ∀ s ∈ t.name?, HasNoAngle s := by
      intro s hs
      exact hts s (List.mem_filterMap.mpr ⟨t, List.mem_cons_self, hs⟩)
    have htail : ∀ s ∈ Token.names ts, HasNoAngle s := by
      intro s hs
      obtain ⟨u, hu, hname⟩ := List.mem_filterMap.mp hs
      exact hts s (List.mem_filterMap.mpr ⟨u, List.mem_cons_of_mem t hu, hname⟩)
    rw [writeAll_cons, writeAll_cons, escapeAngles_append, ih htail,
      write_htmlSafe hlinks hsafe hplain hhead]

end Config

/-! ### Trees -/

/-- Of two configurations without links that differ in the choice of entities alone, the safe one
gives the text of the plain one with its angle brackets escaped; so it gives a text without angle
brackets.  Only the names that are shown have to be without them. -/
theorem value_render_htmlSafe {n : Node} {c : Config} {safe plain : Json} (hlinks : c.links = none)
    (hsafe : safe.isTruthy) (hplain : plain.isTruthy = false)
    (hnames : ∀ s ∈ n.labels, HasNoAngle s) :
    (n.render { c with htmlSafe := safe }).value =
        escapeAngles (n.render { c with htmlSafe := plain }).value ∧
      HasNoAngle (n.render { c with htmlSafe := safe }).value := by
  have htokens : ∀ s ∈ Token.names (n.tokens c.suppressModifiers.isTruthy), HasNoAngle s := by
    rwa [n.names_tokens]
  have htext : (n.render { c with htmlSafe := safe }).value =
      escapeAngles (n.render { c with htmlSafe := plain }).value := by
    rw [n.value_render, n.value_render]
    exact Config.writeAll_htmlSafe hlinks hsafe hplain htokens
  refine ⟨htext, ?_⟩
  rw [htext]
  exact hasNoAngle_escapeAngles _

/-- An application to an application without arguments and to a record, after a name with an
ampersand. -/
def nestedArray : Node :=
  .mk
    { tag := .str "TypeApplication"
      base := some (.mk { tag := .str "NameExpression", name := some "A&lt" })
      arguments := some
        [some (.mk
          { tag := .str "TypeApplication"
            base := some (.mk { tag := .str "NameExpression", name := some "Map" })
            arguments := some []
            nullable := .nonNullable }),
          some (.mk
            { tag := .str "RecordType"
              fields := some [⟨some (.mk { tag := .str "NameExpression", name := some "key" }),
                some (.mk { tag := .str "TypeApplication", arguments := some [none] })⟩] })] }

theorem value_render_htmlSafe_nestedArray :
    (∀ s ∈ nestedArray.labels, HasNoAngle s) ∧
      (nestedArray.render { htmlSafe := .str "" }).value = "A&lt<!Map<>, \x7bkey: <>\x7d>" ∧
      (nestedArray.render { htmlSafe := .int 1 }).value =
        "A&lt&lt;!Map&lt;&gt;, \x7bkey: &lt;&gt;\x7d&gt;" := by
  have hnames : ∀ s ∈ nestedArray.labels, HasNoAngle s := by
    have hlabels : nestedArray.labels = ["A&lt", "Map", "key"] := rfl
    rw [hlabels]
    decide
  have hplain : (nestedArray.render { htmlSafe := .str "" }).value =
      "A&lt<!Map<>, \x7bkey: <>\x7d>" := by
    decide +kernel
  have hsafe : (nestedArray.render { htmlSafe := .int 1 }).value =
      escapeAngles (nestedArray.render { htmlSafe := .str "" }).value :=
    (value_render_htmlSafe (c := {}) rfl rfl rfl hnames).1
  refine ⟨hnames, hplain, ?_⟩
  rw [hsafe, hplain]
  decide +kernel

end TypeText

import TypeText.Render

/-!
# Trees without modifiers

A text without modifiers is the text of a tree that has none.  Modifiers are put around a
node once the rest of it is made, so that leaving them out and not having them come to the
same at every node; and a part that consisted of modifiers alone is empty in both cases, and
is left out with its separator.

## Main definitions

* `Layer.unmarked`, `Node.unmarked` — a node, and a tree, without modifiers.

## Main results

* `Layer.render_unmarked` — the two are the same at a node.
* `Node.render_unmarked` — **suppressing modifiers is showing the tree without them.**
* `render_suppressModifiers` — so trees that differ in modifiers alone are shown alike.
-/

set_option autoImplicit false

namespace TypeText

namespace Layer

variable {α β : Type}

/-- A node without modifiers. -/
def unmarked (l : Layer α) : Layer α :=
  { l with optional := .bool false, nullable := .unspecified, repeatable := .bool false }

theorem unmarked_map (f : α → β) (l : Layer α) : l.unmarked.map f = (l.map f).unmarked := rfl

/-- Modifiers have no part in the rest of the text. -/
theorem body_unmarked (c : Config) (suppress : Json) (l : Layer (Logged String)) :
    l.unmarked.body { c with suppressModifiers := suppress } = l.body c := rfl

/-- Around the text of a node without modifiers nothing is put. -/
theorem decorate_unmarked (c : Config) (l : Layer α) (text : String) :
    l.unmarked.decorate c text = text := by
  unfold decorate
  split
  · rfl
  · -- modifiers are shown, but each of the three marks is empty
    have hrepeatable : repeatableMark l.unmarked.repeatable = "" := rfl
    have hnullable : l.unmarked.nullable.mark = "" := rfl
    have hoptional : optionalMark l.unmarked.optional = "" := rfl
    rw [hrepeatable, hnullable, hoptional, String.empty_append, String.empty_append,
      String.append_empty]

/-- Suppressing the modifiers of a node is showing it without them. -/
theorem render_unmarked (c : Config) {on : Json} (hon : on.isTruthy) (off : Json)
    (l : Layer (Logged String)) :
    l.unmarked.render { c with suppressModifiers := off } =
      l.render { c with suppressModifiers := on } := by
  have hsuppressed : ∀ text, l.decorate { c with suppressModifiers := on } text = text := by
    intro text
    exact if_pos hon
  simp only [render, decorate_unmarked, hsuppressed, body_unmarked]
  rfl

end Layer

namespace Node

/-- A tree without modifiers at any of its nodes. -/
def unmarked : Node → Node := fold fun l => .mk l.unmarked

/-- **Suppressing modifiers is showing the tree without them**, with the same messages. -/
theorem render_unmarked (c : Config) {on : Json} (hon : on.isTruthy) (off : Json) (n : Node) :
    n.unmarked.render { c with suppressModifiers := off } =
      n.render { c with suppressModifiers := on } := by
  have hstep : (fun l : Layer (Logged String) =>
        l.unmarked.render { c with suppressModifiers := off }) =
      Layer.render { c with suppressModifiers := on } :=
    funext fun l => Layer.render_unmarked c hon off l
  rw [unmarked, render, fold_fold_mk _ Layer.unmarked Layer.unmarked_map, hstep, render]

end Node

/-- A tree whose modifiers are suppressed is shown as the tree without them, whatever the option
says then.  So trees that are the same without their modifiers are shown alike. -/
theorem render_suppressModifiers (c : Config) {on : Json} (hon : on.isTruthy) :
    (∀ (n : Node) (off : Json), n.render { c with suppressModifiers := on } =
        n.unmarked.render { c with suppressModifiers := off }) ∧
      ∀ a b : Node, a.unmarked = b.unmarked →
        a.render { c with suppressModifiers := on } =
          b.render { c with suppressModifiers := on } := by
  refine ⟨fun n off => (n.render_unmarked c hon off).symm, ?_⟩
  intro a b hab
  rw [← a.render_unmarked c hon on, hab, b.render_unmarked c hon on]

/-- A signature whose only parameter, and the type after whose result, are modifiers alone. -/
def markedSignature (parameter result : Json) (admitsNull : Nullability) : Node :=
  .mk
    { tag := .str "FunctionType"
      params := some [some (.mk { tag := .str "NameExpression", repeatable := parameter })]
      result := some (.mk
        { tag := .str "NameExpression", name := some "R"
          inner := some (.mk
            { tag := .int 3, name := some "", optional := result, nullable := admitsNull }) }) }

theorem render_suppressModifiers_markedSignature :
    ((markedSignature (.int 1) (.bool true) .nonNullable).render {}).value =
        "function(...): R:!=" ∧
      ((markedSignature (.int 1) (.bool true) .nonNullable).unmarked.render {}).value =
        "function(): R" ∧
      (markedSignature (.int 1) (.bool true) .nonNullable).render { suppressModifiers := .int 2 } =
        (markedSignature (.int 1) (.bool true) .nonNullable).unmarked.render {} ∧
      (markedSignature (.int 1) (.bool true) .nonNullable).render { suppressModifiers := .int 2 } =
        (markedSignature .null (.str "") .nullable).render { suppressModifiers := .int 2 } := by
  have h := render_suppressModifiers {} (show (Json.int 2).isTruthy from rfl)
  refine ⟨by decide +kernel, by decide +kernel, ?_, ?_⟩
  · exact h.1 _ (.bool false)
  · exact h.2 _ _ rfl

end TypeText

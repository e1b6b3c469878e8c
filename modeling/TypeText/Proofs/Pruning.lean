import TypeText.Render

/-!
# What a kind does not read

A node has the same parts whatever its kind, but a text is made only of those that the kind
reads.  Pruning a tree takes all others away, at every node.  What is taken away may be
anything: it is neither shown nor reported, however deep it is and whatever stands in it.

## Main definitions

* `Layer.bare` — a node with its modifiers alone.
* `Layer.pruned`, `Node.pruned` — a node, and a tree, with what the kinds read.

## Main results

* `Layer.body_pruned` — the text of a node is made of what its kind reads.
* `Node.render_pruned` — **a pruned tree is shown as the tree itself**, with the same
  messages.
* `render_eq_of_pruned_eq` — so trees that are the same once pruned are shown alike.
-/

set_option autoImplicit false

namespace TypeText

namespace Layer

variable {α β : Type}

/-- A node without name and subtrees. -/
def bare (l : Layer α) : Layer α :=
  { tag := l.tag, optional := l.optional, nullable := l.nullable, repeatable := l.repeatable }

/-- A node without what its kind does not read. -/
def pruned (l : Layer α) : Layer α :=
  match l.kind? with
  | some .function =>
    { l.bare with
      newType := l.newType, thisType := l.thisType, params := l.params, result := l.result }
  | some .record => { l.bare with fields := l.fields }
  | some .application => { l.bare with base := l.base, arguments := l.arguments }
  | some .union => { l.bare with members := l.members }
  | _ => { l.bare with name := l.name, inner := l.inner }

theorem pruned_map (f : α → β) (l : Layer α) : l.pruned.map f = (l.map f).pruned := by
  unfold pruned
  rw [kind?_map]
  split <;> rfl

@[simp] theorem tag_pruned (l : Layer α) : l.pruned.tag = l.tag := by
  unfold pruned
  split <;> rfl

@[simp] theorem kind?_pruned (l : Layer α) : l.pruned.kind? = l.kind? :=
  congrArg Kind.ofTag? l.tag_pruned

/-- The text of a node without its modifiers is made of what its kind reads. -/
theorem body_pruned (c : Config) (l : Layer (Logged String)) : l.pruned.body c = l.body c := by
  rw [body, body, kind?_pruned, tag_pruned]
  unfold pruned
  cases l.kind? with
  | none => rfl
  | some kind => cases kind <;> rfl

/-- Every kind reads the modifiers. -/
theorem decorate_pruned (c : Config) (l : Layer α) (text : String) :
    l.pruned.decorate c text = l.decorate c text := by
  unfold pruned
  split <;> rfl

/-- The text of a node is made of what its kind reads. -/
theorem render_pruned (c : Config) (l : Layer (Logged String)) :
    l.pruned.render c = l.render c := by
  simp only [render, body_pruned, decorate_pruned]

end Layer

namespace Node

/-- A tree without what the kinds of its nodes do not read. -/
def pruned : Node → Node := fold fun l => .mk l.pruned

/-- **A pruned tree is shown as the tree itself**, with the same messages. -/
theorem render_pruned (c : Config) (n : Node) : n.pruned.render c = n.render c := by
  have hstep : (fun l : Layer (Logged String) => l.pruned.render c) = Layer.render c :=
    funext (Layer.render_pruned c)
  rw [pruned, render, fold_fold_mk _ Layer.pruned Layer.pruned_map, hstep]

end Node

/-- A tree is shown as its pruned form under every configuration, with the same messages.  So
trees with one pruned form cannot be told apart by showing them. -/
theorem render_eq_of_pruned_eq :
    (∀ (n : Node) (c : Config), n.render c = n.pruned.render c) ∧
      ∀ a b : Node, a.pruned = b.pruned → ∀ c : Config, a.render c = b.render c := by
  refine ⟨fun n c => (n.render_pruned c).symm, ?_⟩
  intro a b hab c
  rw [← a.render_pruned c, hab, b.render_pruned c]

/-- A union that has a name, with a name among its alternatives that has arguments, and an unknown
tag in the parts that neither kind reads. -/
def overgrownUnion (stray : Option Node) : Node :=
  .mk
    { tag := .str "TypeUnion"
      name := some "U"
      inner := stray
      members := some
        [some (.mk
          { tag := .str "NameExpression", name := some "a", base := stray, arguments := some [stray]
            optional := .bool true })]
      repeatable := .int 1 }

theorem render_eq_of_pruned_eq_overgrownUnion :
    (overgrownUnion (some (.mk { tag := .null }))).pruned = (overgrownUnion none).pruned ∧
      (overgrownUnion (some (.mk { tag := .null }))).render {} = ⟨"...(a=)", []⟩ ∧
      (overgrownUnion (some (.mk { tag := .null }))).render { suppressModifiers := .bool true } =
        (overgrownUnion none).render { suppressModifiers := .bool true } := by
  have hpruned : (overgrownUnion (some (.mk { tag := .null }))).pruned =
      (overgrownUnion none).pruned := rfl
  refine ⟨hpruned, ?_, render_eq_of_pruned_eq.2 _ _ hpruned _⟩
  rw [render_eq_of_pruned_eq.2 _ _ hpruned]
  rfl

end TypeText

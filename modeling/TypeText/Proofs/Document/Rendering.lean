import TypeText.Render
import TypeText.Proofs.Document.RoundTrip
import TypeText.Proofs.Document.Text

/-!
# What is kept is shown alike

A text does not hold everything of a tree, but all that showing the tree looks at: each
kind reads at most one of the two parts that share a key, and only the truth of the flag
for repetition.  So a tree that went through a text is shown as before, with the same
messages.

## Main results

* `Layer.render_normalize` — showing a node does not look at what its document drops.
* `Node.render_normalize` — **a tree and its normal form are shown alike.**
* `renderWith_ofText_toText` — the same for a tree that went through a text.
-/

set_option autoImplicit false

namespace TypeText

/-! ### Nodes -/

namespace Layer

variable {α β : Type}

theorem normalize_map (f : α → β) (l : Layer α) : l.normalize.map f = (l.map f).normalize := by
  unfold normalize map
  rw [kind?, kind?]
  congr 1 <;> (dsimp only; split <;> rfl)

/-- The subtrees that are left of a node are those that its document holds. -/
theorem mem_written_of_mem_children_normalize {l : Layer α} {c : α} (h : c ∈ l.normalize.children) :
    c ∈ l.written := by
  obtain ⟨hexpression, hnewType, hthisType, hresult, hmembers, harguments, hparams, hfields⟩ :=
    forall_mem_written.mp fun c (hc : c ∈ l.written) => hc
  rcases mem_children.mp h with h | h | ⟨list, hlist, f, hf, h⟩ | h | h | h | h | h | h
  · -- the type after a name is left only if the node is no application
    simp only [normalize] at h
    split at h
    · cases h
    · next hkind => exact hexpression c ((if_neg hkind).trans h)
  · exact hmembers c h
  · exact hfields list hlist f hf c h
  · -- the base is left only if the node is one
    simp only [normalize] at h
    split at h
    · next hkind => exact hexpression c ((if_pos hkind).trans h)
    · cases h
  · exact harguments c h
  · exact hnewType c h
  · exact hthisType c h
  · exact hparams c h
  · exact hresult c h

/-- The text of a node without its modifiers does not depend on the parts that its document
drops. -/
theorem body_normalize (c : Config) (l : Layer (Logged String)) :
    l.normalize.body c = l.body c := by
  have hkind : l.normalize.kind? = l.kind? := rfl
  by_cases happ : l.kind? = some .application
  · -- an application shows its base, and keeps it
    have hbase : l.normalize.base = l.base := if_pos happ
    rw [body, body, hkind, happ, hbase]
    rfl
  · -- any other node may show the type after its name, and keeps that
    have hinner : l.normalize.inner = l.inner := if_neg happ
    have hname : ∀ fallback, c.nameAndType fallback l.normalize = c.nameAndType fallback l := by
      intro fallback
      rw [Config.nameAndType, Config.nameAndType, hinner]
      rfl
    rw [body, body, hkind]
    split
    · rfl
    · rfl
    · next h => exact absurd h happ
    · rfl
    · exact hname _
    · rw [hname]
      rfl

/-- The modifiers of a node depend on its flags only by their truth, if `optional` is a
boolean. -/
theorem decorate_normalize (c : Config) {l : Layer α} {b : Bool} (hoptional : l.optional = .bool b)
    (text : String) : l.normalize.decorate c text = l.decorate c text := by
  have hmark : optionalMark l.normalize.optional = optionalMark l.optional := by
    rw [hoptional]
    exact congrArg (optionalMark ∘ Json.bool ∘ Json.isTruthy) hoptional
  rw [decorate, decorate, hmark]
  rfl

/-- Showing a node does not look at what its document drops. -/
theorem render_normalize (c : Config) {l : Layer (Logged String)} {b : Bool}
    (hoptional : l.optional = .bool b) : l.normalize.render c = l.render c := by
  simp only [render, body_normalize, decorate_normalize c hoptional]

end Layer

/-! ### Trees -/

/-- **A tree and its normal form are shown alike**, with the same messages, when the visited
nodes have a boolean under `optional`. -/
theorem Node.render_normalize (c : Config) (n : Node)
    (h : ∀ m, n.Visits m → ∃ b, m.layer.optional = .bool b) :
    n.normalize.render c = n.render c := by
  induction n using Node.induct with
  | h l ih =>
    obtain ⟨⟨b, hb⟩, hbelow⟩ := Node.forall_visits_mk.mp h
    -- only written subtrees are visited, and only they are left in the normal form
    have hchildren : ∀ x ∈ l.normalize.children, (render c ∘ normalize) x = render c x := by
      intro x hx
      have hwritten := Layer.mem_written_of_mem_children_normalize hx
      exact ih x (Layer.mem_children_of_mem_written hwritten) (hbelow x hwritten)
    calc
      ((Node.mk l).normalize).render c
          = Layer.render c (l.normalize.map (render c ∘ normalize)) := by
            rw [normalize_mk, render_mk, ← Layer.normalize_map, Layer.map_map]
      _ = Layer.render c (l.map (render c)).normalize := by
            rw [Layer.map_congr hchildren, Layer.normalize_map]
      _ = (Node.mk l).render c := by
            rw [Layer.render_normalize c (b := b) hb, render_mk]

/-- A tree that went through a text is shown as before under every configuration, with the same
messages, when its visited nodes have string tags, booleans under `optional` and no missing
items. -/
theorem renderWith_ofText_toText {n : Node}
    (h : ∀ m, n.Visits m → (∃ tag, m.layer.tag = .str tag) ∧ (∃ b, m.layer.optional = .bool b) ∧
      m.layer.IsComplete) (indent : Option Int) :
    ∃ text m, Node.toText (.ofIndent indent) (some n) = .ok text ∧ Node.ofText text = .ok m ∧
      ∀ c entries, renderWith (some m) c entries = renderWith (some n) c entries := by
  obtain ⟨d, hd, hdescribes⟩ := Document.survives_of_visits n fun m hm => ⟨(h m hm).1, (h m hm).2.2⟩
  have hreadable : ∀ m, n.Visits m → m.layer.tag.Readable := by
    intro m hm
    obtain ⟨tag, htag⟩ := (h m hm).1
    exact htag ▸ .str tag
  have hrender : ∀ c, n.normalize.render c = n.render c := fun c =>
    Node.render_normalize c n fun m hm => (h m hm).2.1
  refine ⟨_, n.normalize, Node.toText_of_toDocument? hd _, ?_, fun c entries => ?_⟩
  · rw [Node.ofText_write (Document.writesReadable_of_visits n hreadable d hd),
      show Node.ofDocument d = .ok n.normalize from hdescribes []]
    rfl
  · simp only [renderWith, Node.renderOption, Option.map_some, hrender]

/-- A node of no known kind, repeated by a number, after a name with a base that is not its
own. -/
def strayTree : Node :=
  .mk
    { tag := .str "NameExpression"
      name := some "Näme"
      inner := some (.mk { tag := .str "Mystery", name := some "", repeatable := .int 2 })
      base := some (.mk { tag := .null, arguments := some [none] })
      optional := .bool true }

theorem strayTree.visits : ∀ m, strayTree.Visits m →
    (∃ tag, m.layer.tag = .str tag) ∧ (∃ b, m.layer.optional = .bool b) ∧ m.layer.IsComplete := by
  refine Node.forall_visits_mk.mpr
    ⟨⟨⟨_, rfl⟩, ⟨_, rfl⟩, by constructor <;> simp⟩, fun c hc => ?_⟩
  obtain rfl := List.mem_singleton.mp hc
  exact Node.forall_visits_mk.mpr ⟨⟨⟨_, rfl⟩, ⟨_, rfl⟩, by constructor <;> simp⟩,
    fun c hc => absurd hc List.not_mem_nil⟩

theorem renderWith_ofText_toText_strayTree :
    (∀ m, strayTree.Visits m → (∃ tag, m.layer.tag = .str tag) ∧
        (∃ b, m.layer.optional = .bool b) ∧ m.layer.IsComplete) ∧
      ∃ text m, Node.toText (.ofIndent (some 0)) (some strayTree) = .ok text ∧
        Node.ofText text = .ok m ∧
        renderWith (some m) {} [] = .ok ⟨"Näme:...=", [.unknownTag (.str "Mystery")]⟩ := by
  obtain ⟨text, m, htext, hread, hrender⟩ := renderWith_ofText_toText strayTree.visits (some 0)
  have hshown : renderWith (some strayTree) {} [] =
      .ok ⟨"Näme:...=", [.unknownTag (.str "Mystery")]⟩ := by
    cbv
  exact ⟨strayTree.visits, text, m, htext, hread, (hrender {} []).trans hshown⟩

end TypeText

import TypeText.Proofs.Equality
import TypeText.Proofs.Positions
import TypeText.Proofs.Tokens

/-!
# Equal trees in the place of each other

Equal trees differ at most in how tags and flags are given: the flag `1` is equal to `true`.
The tag decides about the kind, which is the same for equal tags, and a repeated type is marked
when its flag is set, which is the same for equal flags.  An optional type however is marked
only for the flag `true` itself, so that equal trees may be shown with different marks there,
and nowhere else.

## Main definitions

* `Node.MarkedAlike` — wherever both trees show a node, either both mark it as optional or
  neither does.

## Main results

* `Kind.ofTag?_eq_of_same` — equal tags name the same kind.
* `Layer.tokens_eq_of_agree` — nodes that agree have the same tokens, if the subtrees that
  they show do.
* `Node.tokens_eq_of_equal` — **equal trees have the same tokens if they are marked alike**, or
  if modifiers are suppressed.
* `value_render_eq_of_equal` — the same for texts.
-/

set_option autoImplicit false

namespace TypeText

/-- Equal tags name the same kind. -/
theorem Kind.ofTag?_eq_of_same {v w : Json} (h : v.same w) : ofTag? v = ofTag? w := by
  cases v with
  | str s => rw [Json.eq_str_of_same h]
  | _ =>
    -- only a string is equal to a string, and only strings name kinds
    cases w with
    | str t => simp [Json.same, Json.isNan, Json.equal, Json.int?] at h
    | _ => rfl

/-! ### Nodes -/

namespace Layer

section Agree

variable {α β : Type} {r : α → β → Bool} {f : α → List Token} {g : β → List Token}
  {l : Layer α} {m : Layer β}

theorem kind?_eq_of_agree (hlm : l.agree r m) : l.kind? = m.kind? :=
  Kind.ofTag?_eq_of_same (agree_iff.mp hlm).1

/-- Nodes that agree have the same tokens without their modifiers, if the subtrees that they show
have. -/
theorem bodyTokens_eq_of_agree (hlm : l.agree r m)
    (h : ∀ s a b, (s, a) ∈ l.shownParts → (s, b) ∈ m.shownParts → r a b → f a = g b) :
    (l.map f).bodyTokens = (m.map g).bodyTokens := by
  have hkind := kind?_eq_of_agree hlm
  have hslot : ∀ s, Slot.isShownBy l.kind? s → ∀ a b, l.at? s = some a → m.at? s = some b →
      r a b → f a = g b := fun s hs a b ha hb =>
    h s a b (mem_shownParts.mpr ⟨hs, ha⟩) (mem_shownParts.mpr ⟨hkind ▸ hs, hb⟩)
  obtain ⟨-, hname, hinner, hmembers, hfields, hbase, harguments, hnewType, hthisType, hparams,
    hresult, -⟩ := agree_iff.mp hlm
  have hnamed : Slot.isShownBy l.kind? .inner → ∀ fallback,
      combineTokens (Token.ofName ((l.map f).nameOr fallback)) ((l.map f).inner.getD []) =
        combineTokens (Token.ofName ((m.map g).nameOr fallback)) ((m.map g).inner.getD []) := by
    intro hs fallback
    have hmap : l.inner.map f = m.inner.map g := map_eq_of_agreeOption (hslot .inner hs) hinner
    have hnames : (l.map f).name = (m.map g).name := hname
    rw [nameOr, nameOr, hnames]
    simp only [map, hmap]
  unfold bodyTokens
  rw [kind?_map, kind?_map, ← hkind]
  -- each kind asks for the slots that it shows, where the subtrees have the same tokens
  cases hk : l.kind? with
  | none => exact hnamed (by simp [Slot.isShownBy, hk]) ""
  | some kind =>
    cases kind with
    | function =>
      have hopen : ∀ s, Slot.isShownBy (some .function) s → Slot.isShownBy l.kind? s :=
        fun s hs => hk ▸ hs
      have h₁ : l.newType.map f = m.newType.map g :=
        map_eq_of_agreeOption (hslot .newType (hopen _ rfl)) hnewType
      have h₂ : l.thisType.map f = m.thisType.map g :=
        map_eq_of_agreeOption (hslot .thisType (hopen _ rfl)) hthisType
      have h₃ : l.result.map f = m.result.map g :=
        map_eq_of_agreeOption (hslot .result (hopen _ rfl)) hresult
      have h₄ := map_items_eq_of_agree (fun i => hslot (.param i) (hopen _ rfl)) hparams
      simp only [signatureParts, map, h₁, h₂, h₃, h₄]
    | record =>
      have hmap := map_fields_eq_of_agree (fun i => hslot (.key i) (by simp [Slot.isShownBy, hk]))
        (fun i => hslot (.value i) (by simp [Slot.isShownBy, hk])) hfields
      simp only [map, hmap]
    | application =>
      have h₁ : l.base.map f = m.base.map g :=
        map_eq_of_agreeOption (hslot .base (by simp [Slot.isShownBy, hk])) hbase
      have h₂ := map_items_eq_of_agree
        (fun i => hslot (.argument i) (by simp [Slot.isShownBy, hk])) harguments
      simp only [map, h₁, h₂]
    | union =>
      have hmap := map_items_eq_of_agree
        (fun i => hslot (.member i) (by simp [Slot.isShownBy, hk])) hmembers
      simp only [map, hmap]
    | _ => exact hnamed (by simp [Slot.isShownBy, hk, Kind.composite]) _

/-- Nodes that agree have the same tokens, if the subtrees that they show have, and if the two are
marked alike or not at all. -/
theorem tokens_eq_of_agree {suppress : Bool} (hlm : l.agree r m)
    (h : ∀ s a b, (s, a) ∈ l.shownParts → (s, b) ∈ m.shownParts → r a b → f a = g b)
    (hoptional : suppress = false → l.optional.isTrue = m.optional.isTrue) :
    (l.map f).tokens suppress = (m.map g).tokens suppress := by
  unfold tokens
  rw [bodyTokens_eq_of_agree hlm h]
  cases suppress with
  | true => rfl
  | false =>
    -- agreement settles two of the modifiers, but is too coarse for `optional`
    obtain ⟨-, -, -, -, -, -, -, -, -, -, -, -, hnullable, hrepeatable⟩ := agree_iff.mp hlm
    have h₁ : (l.map f).repeatable.isTruthy = (m.map g).repeatable.isTruthy :=
      Json.isTruthy_eq_of_same hrepeatable
    have h₂ : (l.map f).nullable = (m.map g).nullable := hnullable
    have h₃ : (l.map f).optional.isTrue = (m.map g).optional.isTrue := hoptional rfl
    rw [marksBefore, marksBefore, marksAfter, marksAfter, h₁, h₂, h₃]

end Agree

end Layer

/-! ### Trees -/

namespace Node

/-- Wherever both trees show a node, either both mark it as optional or neither does. -/
def MarkedAlike (a b : Node) : Prop :=
  ∀ p x y, a.follow? .text p = some x → b.follow? .text p = some y →
    x.layer.optional.isTrue = y.layer.optional.isTrue

/-- Trees are marked alike when their roots are, and the subtrees that they show in one slot. -/
theorem markedAlike_mk {l m : Layer Node} :
    (Node.mk l).MarkedAlike (.mk m) ↔
      l.optional.isTrue = m.optional.isTrue ∧
        ∀ s c d, (s, c) ∈ l.shownParts → (s, d) ∈ m.shownParts → c.MarkedAlike d := by
  constructor
  · intro h
    refine ⟨h [] (.mk l) (.mk m) rfl rfl, ?_⟩
    intro s c d hc hd p x y hx hy
    exact h (s :: p) x y (follow?_cons_eq_some_iff.mpr ⟨c, hc, hx⟩)
      (follow?_cons_eq_some_iff.mpr ⟨d, hd, hy⟩)
  · rintro ⟨hroot, hbelow⟩ p x y hx hy
    cases p with
    | nil =>
      obtain rfl := Option.some.inj hx
      obtain rfl := Option.some.inj hy
      exact hroot
    | cons s p =>
      obtain ⟨c, hc, hx⟩ := follow?_cons_eq_some_iff.mp hx
      obtain ⟨d, hd, hy⟩ := follow?_cons_eq_some_iff.mp hy
      exact hbelow s c d hc hd p x y hx hy

/-- **Equal trees have the same tokens if they are marked alike**, or if modifiers are
suppressed. -/
theorem tokens_eq_of_equal {suppress : Bool} {a b : Node} (hab : a.equal b)
    (h : suppress = false → a.MarkedAlike b) : a.tokens suppress = b.tokens suppress := by
  induction a using Node.induct generalizing b with
  | h l ih =>
    obtain ⟨m⟩ := b
    rw [equal_mk] at hab
    rw [tokens_mk, tokens_mk]
    refine Layer.tokens_eq_of_agree hab (fun s c d hc hd hcd => ?_) fun hs =>
      (markedAlike_mk.mp (h hs)).1
    refine ih c (Layer.mem_children_of_at? (Layer.mem_shownParts.mp hc).2) hcd fun hs => ?_
    exact (markedAlike_mk.mp (h hs)).2 s c d hc hd

end Node

/-- Equal trees are shown alike under every configuration that suppresses modifiers, and, if they
are marked alike, under every configuration at all. -/
theorem value_render_eq_of_equal {a b : Node} (hab : a.equal b) :
    (∀ c : Config, c.suppressModifiers.isTruthy → (a.render c).value = (b.render c).value) ∧
      (a.MarkedAlike b → ∀ c : Config, (a.render c).value = (b.render c).value) := by
  constructor
  · intro c hc
    rw [a.value_render, b.value_render, Node.tokens_eq_of_equal hab fun hs => ?_]
    exact absurd (hs.symm.trans hc) (by decide)
  · intro h c
    rw [a.value_render, b.value_render, Node.tokens_eq_of_equal hab fun _ => h]

/-- A function, marked as optional, with a parameter whose flags are given, and below it a base that
its kind does not show. -/
def tickedParam (repeated optional stray : Json) : Node :=
  .mk
    { tag := .str "FunctionType"
      params := some [some (.mk
        { tag := .str "NameExpression", name := some "p", repeatable := repeated
          optional := optional
          base := some (.mk { tag := .str "NullLiteral", optional := stray }) })]
      optional := .bool true }

theorem value_render_eq_of_equal_tickedParam :
    (tickedParam (.int 1) (.int 0) (.int 1)).equal
        (tickedParam (.bool true) (.bool false) (.bool true)) ∧
      (tickedParam (.int 1) (.int 0) (.int 1)).MarkedAlike
        (tickedParam (.bool true) (.bool false) (.bool true)) ∧
      ((tickedParam (.int 1) (.int 0) (.int 1)).render { htmlSafe := .int 7 }).value =
        ((tickedParam (.bool true) (.bool false) (.bool true)).render
          { htmlSafe := .int 7 }).value := by
  have hequal : (tickedParam (.int 1) (.int 0) (.int 1)).equal
      (tickedParam (.bool true) (.bool false) (.bool true)) := by
    decide +kernel
  have hmarked : (tickedParam (.int 1) (.int 0) (.int 1)).MarkedAlike
      (tickedParam (.bool true) (.bool false) (.bool true)) := by
    refine Node.markedAlike_mk.mpr ⟨rfl, fun s c d hc hd => ?_⟩
    obtain ⟨-, rfl⟩ := Prod.mk.inj (List.mem_singleton.mp hc)
    obtain ⟨-, rfl⟩ := Prod.mk.inj (List.mem_singleton.mp hd)
    exact Node.markedAlike_mk.mpr ⟨rfl, fun s c d hc => absurd hc List.not_mem_nil⟩
  exact ⟨hequal, hmarked, (value_render_eq_of_equal hequal).2 hmarked _⟩

/-- A name whose flag is given. -/
def tickedName (optional : Json) : Node :=
  .mk { tag := .str "NameExpression", name := some "x", optional := optional }

/-- Equal trees need not be shown alike: the flag `1` is equal to `true`, and is not shown. -/
theorem value_render_ne_of_equal_tickedName :
    (tickedName (.int 1)).equal (tickedName (.bool true)) ∧
      ((tickedName (.int 1)).render {}).value = "x" ∧
      ((tickedName (.bool true)).render {}).value = "x=" := by
  decide +kernel

end TypeText

import TypeText.Proofs.Tokens

/-!
# Sequences of overrides

Putting option lists on top of a configuration one after the other gives the configuration
of the merged options.

A configuration no longer tells where its link class comes from: the value of the old name
takes the place of a link class that is not set.  When a later list gives a new value to
the old name, the link class is dropped if it is equal to the previous value.  This guess
is right as long as a link class that was set is never equal to the value of the old name.

What is kept from list to list is that the configuration *reflects* the merged options: it
is the configuration that they give, except that a link class that is not set may be
another such value.

## Main definitions

* `Overrides.isUsable` — whether a list can be put on top.
* `Settings.mergeAll` — the merged options; lists that are not usable are left out.
* `Settings.IsAmbiguous` — a link class is set, and equal to the value of the old name.
* `Json.SameIfSet`, `Config.Agrees` — equality of values and of configurations, up to
  values that are not set.
* `Config.Reflects` — the invariant.

## Main results

* `Config.ofSettings_eq_ok_iff` — the configuration that settings give, with its messages.
* `Config.isOk_override` — a list can be put on top of any configuration or of none.
* `Config.Agrees.value_render` — configurations that agree give the same texts.
* `Config.Reflects.after`, `Config.Reflects.afterAll` — **one list, and a sequence of
  lists, keep the invariant.**
* `afterAll_agrees_ofSettings_mergeAll` — the outcome of a sequence of lists.
-/

set_option autoImplicit false

namespace TypeText

/-! ### Merged options -/

/-- Whether a source can serve as link table: it has a `get` that can be called, or attributes of
its own. -/
def LinkSource.isUsable : LinkSource → Bool
  | .absent => true
  | .object a => a.answer?.isSome || a.own.isSome

theorem LinkSource.isOk_resolve (source : LinkSource) : source.resolve.isOk = source.isUsable := by
  cases source with
  | absent => rfl
  | object a =>
    rw [isUsable]
    obtain ⟨h, hok⟩ | ⟨h, hown, hok⟩ | ⟨h, hown, herror⟩ := resolve_cases a
    · rw [hok, h]
      rfl
    · rw [hok, h, hown]
      rfl
    · rw [herror, h, hown]
      rfl

/-- Whether overrides come without a link table that cannot serve as one. -/
def Overrides.isUsable (o : Overrides) : Bool :=
  match o.links with
  | some source => source.isUsable
  | none => true

namespace Settings

/-- Puts an option list on top, unless it is not usable. -/
def mergeUsable (s : Settings) (entries : List Entry) : Settings :=
  if (Overrides.ofEntries entries).isUsable then s.merge (.ofEntries entries) else s

/-- Puts the usable ones of some option lists on top, one after the other. -/
def mergeAll (s : Settings) (steps : List (List Entry)) : Settings := steps.foldl mergeUsable s

@[simp] theorem mergeAll_nil (s : Settings) : s.mergeAll [] = s := rfl

@[simp] theorem mergeAll_cons (s : Settings) (entries : List Entry) (steps : List (List Entry)) :
    s.mergeAll (entries :: steps) = (s.mergeUsable entries).mergeAll steps := rfl

/-- The link class is set, and equal to the value of its old name. -/
def IsAmbiguous (s : Settings) : Prop := s.linkClass.isTruthy ∧ s.linkClass.equal s.cssClass

instance : DecidablePred IsAmbiguous := fun s =>
  inferInstanceAs (Decidable (s.linkClass.isTruthy ∧ s.linkClass.equal s.cssClass))

/-- The value of the old name stays equal to itself if every new value is. -/
theorem equal_cssClass_merge {s : Settings} {o : Overrides} (hs : s.cssClass.equal s.cssClass)
    (ho : ∀ v ∈ o.cssClass, v.equal v) : (s.merge o).cssClass.equal (s.merge o).cssClass := by
  have hmerge : (s.merge o).cssClass = o.cssClass.getD s.cssClass := rfl
  rw [hmerge]
  cases hcss : o.cssClass with
  | none => exact hs
  | some v => exact ho v hcss

end Settings

/-! ### Values that are not set -/

namespace Json

/-- Two values are the same, or neither is set. -/
def SameIfSet (v w : Json) : Prop := v = w ∨ (v.isTruthy = false ∧ w.isTruthy = false)

/-- Whether a value is `null`, a boolean, an integer or a string. -/
def isPlain : Json → Bool
  | .null | .bool _ | .int _ | .str _ => true
  | .real _ | .arr _ | .obj _ => false

theorem equal_self_of_isPlain {v : Json} (h : v.isPlain) : v.equal v := by
  cases v <;> simp_all [isPlain, equal, int?]

namespace SameIfSet

variable {u v w : Json}

theorem refl (v : Json) : SameIfSet v v := .inl rfl

theorem symm (h : SameIfSet v w) : SameIfSet w v := h.imp Eq.symm And.symm

theorem trans (huv : SameIfSet u v) (hvw : SameIfSet v w) : SameIfSet u w := by
  rcases huv with rfl | ⟨hu, hv⟩
  · exact hvw
  · rcases hvw with rfl | ⟨-, hw⟩
    · exact .inr ⟨hu, hv⟩
    · exact .inr ⟨hu, hw⟩

theorem isTruthy_eq (h : SameIfSet v w) : v.isTruthy = w.isTruthy := by
  rcases h with rfl | ⟨hv, hw⟩
  · rfl
  · rw [hv, hw]

theorem eq_of_isTruthy (h : SameIfSet v w) (hw : w.isTruthy) : v = w := by
  rcases h with rfl | ⟨-, hw'⟩
  · rfl
  · exact absurd hw (by simp [hw'])

end SameIfSet

end Json

/-! ### Agreement -/

namespace Config

/-- Two configurations are equal, up to a link class that is not set. -/
structure Agrees (c d : Config) : Prop where
  links : c.links = d.links
  linkClass : c.linkClass.SameIfSet d.linkClass
  cssClass : c.cssClass = d.cssClass
  htmlSafe : c.htmlSafe = d.htmlSafe
  suppressModifiers : c.suppressModifiers = d.suppressModifiers

theorem anchor_congr (name : String) (href : Json) {v w : Json} (h : v.SameIfSet w) :
    anchor name href v = anchor name href w := by
  rcases h with rfl | ⟨hv, hw⟩
  · rfl
  · simp [anchor, hv, hw]

namespace Agrees

variable {c d : Config}

theorem write_eq (h : c.Agrees d) (t : Token) : c.write t = d.write t := by
  cases t with
  | sign s => rw [write, write, h.htmlSafe]
  | name s hs =>
    rw [write, write, link, link, h.links]
    cases d.links with
    | none => rfl
    | some table => simp only [anchor_congr s (table.get s) h.linkClass]

/-- Configurations that agree give the same texts. -/
theorem value_render (h : c.Agrees d) (n : Node) : (n.render c).value = (n.render d).value := by
  rw [n.value_render, n.value_render, h.suppressModifiers, writeAll, writeAll,
    funext h.write_eq]

end Agrees

/-! ### The link class -/

section FoldClass

variable {s s' : Settings}

theorem value_foldClass_of_isTruthy (h : s.linkClass.isTruthy) :
    (foldClass s).value = s.linkClass := by
  rw [foldClass, h, Bool.not_true, Bool.and_false]
  rfl

theorem value_foldClass_of_not_isTruthy (h : s.linkClass.isTruthy = false) :
    (foldClass s).value = if s.cssClass.isTruthy then s.cssClass else s.linkClass := by
  rw [foldClass, h, Bool.not_false, Bool.and_true]
  split <;> rfl

theorem sameIfSet_foldClass (hlink : s.linkClass.SameIfSet s'.linkClass)
    (hcss : s.cssClass = s'.cssClass) :
    (foldClass s).value.SameIfSet (foldClass s').value := by
  cases h' : s'.linkClass.isTruthy with
  | true =>
    -- set on both sides, so that there is nothing to fold
    have h : s.linkClass.isTruthy := hlink.isTruthy_eq.trans h'
    rwa [value_foldClass_of_isTruthy h, value_foldClass_of_isTruthy h']
  | false =>
    have h : s.linkClass.isTruthy = false := hlink.isTruthy_eq.trans h'
    rw [value_foldClass_of_not_isTruthy h, value_foldClass_of_not_isTruthy h', hcss]
    split
    · -- both take the value of the old name
      exact .refl _
    · exact hlink

/-- A link class that was found once is found again. -/
theorem value_foldClass_foldClass (s : Settings) :
    (foldClass { s with linkClass := (foldClass s).value }).value = (foldClass s).value := by
  cases h : (foldClass s).value.isTruthy with
  | true => exact value_foldClass_of_isTruthy h
  | false =>
    -- nothing was found, so that the old name is not set either
    have hcss : s.cssClass.isTruthy = false := by
      cases hlink : s.linkClass.isTruthy with
      | true =>
        rw [value_foldClass_of_isTruthy hlink, hlink] at h
        contradiction
      | false =>
        rw [value_foldClass_of_not_isTruthy hlink] at h
        split at h
        · assumption
        · next hcss => exact Bool.eq_false_iff.mpr hcss
    rw [value_foldClass_of_not_isTruthy h]
    simp [hcss]

end FoldClass

/-! ### The invariant -/

/-- A configuration is the one that settings give, up to a link class that is not set. -/
structure Reflects (c : Config) (s : Settings) : Prop where
  links : s.links.resolve.map Logged.value = .ok c.links
  linkClass : c.linkClass.SameIfSet (foldClass s).value
  cssClass : c.cssClass = s.cssClass
  htmlSafe : c.htmlSafe = s.htmlSafe
  suppressModifiers : c.suppressModifiers = s.suppressModifiers

/-- Settings give a configuration when their link table can be used; its messages come first. -/
theorem ofSettings_eq_ok_iff {s : Settings} {r : Logged Config} :
    ofSettings s = .ok r ↔ ∃ t, s.links.resolve = .ok t ∧
      r = ⟨⟨t.value, (foldClass s).value, s.cssClass, s.htmlSafe, s.suppressModifiers⟩,
        t.log ++ ((foldClass s).log ++ [])⟩ := by
  unfold ofSettings
  cases s.links.resolve with
  | error e => simp [Except.map]
  | ok t =>
    constructor
    · intro h
      exact ⟨t, rfl, (Except.ok.inj h).symm⟩
    · rintro ⟨_, ht, rfl⟩
      obtain rfl := Except.ok.inj ht
      rfl

theorem reflects_of_ofSettings {s : Settings} {r : Logged Config} (h : ofSettings s = .ok r) :
    r.value.Reflects s := by
  obtain ⟨t, hlinks, rfl⟩ := ofSettings_eq_ok_iff.mp h
  exact ⟨by rw [hlinks]; rfl, .refl _, rfl, rfl, rfl⟩

theorem exists_eq_ok_of_isOk {ε α : Type} {x : Except ε α} (h : x.isOk) : ∃ a, x = .ok a := by
  cases x with
  | ok a => exact ⟨a, rfl⟩
  | error e => contradiction

theorem isOk_ofSettings (s : Settings) : (ofSettings s).isOk = s.links.resolve.isOk := by
  unfold ofSettings
  cases s.links.resolve <;> rfl

/-- On top of settings with a usable table, overrides give a configuration exactly if they are
usable. -/
theorem isOk_ofSettings_merge {s : Settings} (hs : s.links.resolve.isOk) (o : Overrides) :
    (ofSettings (s.merge o)).isOk = o.isUsable := by
  have hmerge : (s.merge o).links = o.links.getD s.links := rfl
  rw [isOk_ofSettings, hmerge, Overrides.isUsable]
  rcases o.links with _ | source
  · -- the table that is there stays
    exact hs
  · exact source.isOk_resolve

/-- What reflects some settings agrees with the configuration that they give. -/
theorem Reflects.agrees {c : Config} {s : Settings} (hc : c.Reflects s) :
    ∃ m, ofSettings s = .ok m ∧ c.Agrees m.value := by
  have hok : (ofSettings s).isOk := by
    have hlinks := hc.links
    rw [isOk_ofSettings]
    cases h : s.links.resolve with
    | error e =>
      rw [h] at hlinks
      contradiction
    | ok t => rfl
  obtain ⟨m, hm⟩ := exists_eq_ok_of_isOk hok
  have h := reflects_of_ofSettings hm
  exact ⟨m, hm, Except.ok.inj (hc.links.symm.trans h.links), hc.linkClass.trans h.linkClass.symm,
    hc.cssClass.trans h.cssClass.symm, hc.htmlSafe.trans h.htmlSafe.symm,
    hc.suppressModifiers.trans h.suppressModifiers.symm⟩

/-! ### One list on top -/

/-- Only the link class is changed before overrides are put on top. -/
theorem baseFor_eq (c : Config) (o : Overrides) :
    c.baseFor o = { c.settings with linkClass := (c.baseFor o).linkClass } := by
  unfold baseFor
  split <;> rfl

theorem linkClass_baseFor_of_eq_some {c : Config} {o : Overrides} {v : Json}
    (hlink : o.linkClass = none) (hcss : o.cssClass = some v) :
    (c.baseFor o).linkClass = if c.linkClass.equal c.cssClass then .null else c.linkClass := by
  simp only [baseFor, hlink, hcss, Option.isSome_some, Option.isNone_none, Bool.true_and]
  split <;> rfl

/-- A list can be put on top of any configuration or of none. -/
theorem isOk_override (c : Config) (entries : List Entry) :
    (c.override entries).isOk = (Overrides.ofEntries entries).isUsable := by
  cases entries with
  | nil => rfl
  | cons e rest =>
    refine isOk_ofSettings_merge ?_ _
    rw [baseFor_eq]
    change (LinkSource.ofTable? c.links).resolve.isOk
    rw [LinkSource.resolve_ofTable?]
    rfl

section Step

variable {c : Config} {s : Settings}

/-- The guess about the origin of the link class is right: what is left of it before the old name
gets a new value is the link class that was set. -/
theorem Reflects.sameIfSet_baseFor (hc : c.Reflects s) (hs : ¬ s.IsAmbiguous)
    (hself : s.cssClass.equal s.cssClass) {o : Overrides} {v : Json}
    (hlink : o.linkClass = none) (hcss : o.cssClass = some v) :
    (c.baseFor o).linkClass.SameIfSet s.linkClass := by
  rw [linkClass_baseFor_of_eq_some hlink hcss, hc.cssClass]
  have hclass := hc.linkClass
  cases hset : s.linkClass.isTruthy with
  | true =>
    -- it was set, so that it is not equal to the old name's value and stays
    rw [value_foldClass_of_isTruthy hset] at hclass
    have hkept : c.linkClass = s.linkClass := hclass.eq_of_isTruthy hset
    have hne : ¬ c.linkClass.equal s.cssClass := fun heq => hs ⟨hset, hkept ▸ heq⟩
    rw [if_neg hne, hkept]
    exact .refl _
  | false =>
    rw [value_foldClass_of_not_isTruthy hset] at hclass
    refine .inr ⟨?_, hset⟩
    split at hclass
    · next hold =>
      -- it is the old name's value, and dropped
      rw [hclass.eq_of_isTruthy hold, if_pos hself]
      rfl
    · -- neither name is set, and it does not matter whether it is dropped
      have hunset : c.linkClass.isTruthy = false := hclass.isTruthy_eq.trans hset
      split
      · rfl
      · exact hunset

theorem Reflects.sameIfSet_foldClass_merge (hc : c.Reflects s) (hs : ¬ s.IsAmbiguous)
    (hself : s.cssClass.equal s.cssClass) (o : Overrides) :
    (foldClass ((c.baseFor o).merge o)).value.SameIfSet (foldClass (s.merge o)).value := by
  have hold : ((c.baseFor o).merge o).cssClass = (s.merge o).cssClass := by
    rw [baseFor_eq]
    change o.cssClass.getD c.cssClass = o.cssClass.getD s.cssClass
    rw [hc.cssClass]
  have hbase : ((c.baseFor o).merge o).linkClass = o.linkClass.getD (c.baseFor o).linkClass := rfl
  have hmerged : (s.merge o).linkClass = o.linkClass.getD s.linkClass := rfl
  cases hlink : o.linkClass with
  | some w =>
    -- the link class is given, and whatever it was before is lost
    refine sameIfSet_foldClass ?_ hold
    rw [hbase, hmerged, hlink]
    exact .refl w
  | none =>
    rw [hlink, Option.getD_none] at hbase hmerged
    cases hcss : o.cssClass with
    | some v =>
      refine sameIfSet_foldClass ?_ hold
      rw [hbase, hmerged]
      exact hc.sameIfSet_baseFor hs hself hlink hcss
    | none =>
      -- neither class is given, and the link class found before is found again
      have hkept : (c.baseFor o).linkClass = c.linkClass := by
        simp [baseFor, hcss, settings]
      have hsame : foldClass (s.merge o) = foldClass s := by
        simp [foldClass, Settings.merge, hlink, hcss]
      rw [← value_foldClass_foldClass (s.merge o)]
      refine sameIfSet_foldClass ?_ hold
      rw [hbase, hkept, hsame]
      exact hc.linkClass

/-- Overrides on top of a configuration give what they give on top of the settings behind it. -/
theorem Reflects.merge (hc : c.Reflects s) (hs : ¬ s.IsAmbiguous)
    (hself : s.cssClass.equal s.cssClass) {o : Overrides} {r : Logged Config}
    (h : ofSettings ((c.baseFor o).merge o) = .ok r) : r.value.Reflects (s.merge o) := by
  have hr := reflects_of_ofSettings h
  have hclass := hc.sameIfSet_foldClass_merge hs hself o
  rw [baseFor_eq] at hr hclass
  constructor
  case links =>
    rw [← hr.links]
    change (o.links.getD s.links).resolve.map Logged.value =
      (o.links.getD (.ofTable? c.links)).resolve.map Logged.value
    cases o.links with
    | none =>
      -- the table of a configuration is kept as it is when it is resolved again
      rw [Option.getD_none, Option.getD_none, hc.links, LinkSource.resolve_ofTable?]
      rfl
    | some source => rfl
  case linkClass => exact hr.linkClass.trans hclass
  case cssClass => exact hr.cssClass.trans (congrArg o.cssClass.getD hc.cssClass)
  case htmlSafe => exact hr.htmlSafe.trans (congrArg o.htmlSafe.getD hc.htmlSafe)
  case suppressModifiers =>
    exact hr.suppressModifiers.trans (congrArg o.suppressModifiers.getD hc.suppressModifiers)

/-- **One list on top keeps the invariant.** -/
theorem Reflects.after (hc : c.Reflects s) (hs : ¬ s.IsAmbiguous)
    (hself : s.cssClass.equal s.cssClass) (entries : List Entry) :
    (c.after entries).Reflects (s.mergeUsable entries) := by
  have hok := c.isOk_override entries
  unfold Config.after Settings.mergeUsable
  cases hr : c.override entries with
  | error e =>
    -- a list that fails is left out on both sides
    rw [hr] at hok
    rwa [← hok]
  | ok r =>
    rw [hr] at hok
    rw [← hok]
    cases entries with
    | nil =>
      -- the empty list gives the configuration itself, without making it anew
      obtain rfl := Except.ok.inj hr
      exact hc
    | cons e rest => exact hc.merge hs hself hr

end Step

/-! ### Sequences -/

/-- **A sequence of lists keeps the invariant**, if no link class among the merged options is
ambiguous and every value given to the old name is equal to itself. -/
theorem Reflects.afterAll {steps : List (List Entry)} {c : Config} {s : Settings}
    (hc : c.Reflects s) (hs : ∀ j, ¬ (s.mergeAll (steps.take j)).IsAmbiguous)
    (hself : s.cssClass.equal s.cssClass)
    (hsteps : ∀ entries ∈ steps, ∀ v ∈ (Overrides.ofEntries entries).cssClass, v.equal v) :
    (c.afterAll steps).Reflects (s.mergeAll steps) := by
  induction steps generalizing c s with
  | nil => exact hc
  | cons entries rest ih =>
    have hself' : (s.mergeUsable entries).cssClass.equal (s.mergeUsable entries).cssClass := by
      unfold Settings.mergeUsable
      split
      · exact Settings.equal_cssClass_merge hself (hsteps entries List.mem_cons_self)
      · exact hself
    rw [afterAll_cons, Settings.mergeAll_cons]
    exact ih (hc.after (hs 0) hself entries) (fun j => hs (j + 1)) hself'
      fun entries' h => hsteps entries' (List.mem_cons_of_mem _ h)

end Config

/-- Option lists put on top one after the other give the configuration of the merged options, up to
a link class that is not set, and so the same texts.  This needs that a link class that is set is
at no point equal to the value of its old name. -/
theorem afterAll_agrees_ofSettings_mergeAll {b : List Entry} {steps : List (List Entry)}
    (hb : (Overrides.ofEntries b).isUsable)
    (hplain : ∀ entries ∈ b :: steps, ∀ v ∈ (Overrides.ofEntries entries).cssClass, v.isPlain)
    (hclass : ∀ j, ¬ ((({} : Settings).merge (.ofEntries b)).mergeAll (steps.take j)).IsAmbiguous) :
    ∃ c m, Config.ofEntries b = .ok c ∧
      Config.ofSettings ((({} : Settings).merge (.ofEntries b)).mergeAll steps) = .ok m ∧
      (c.value.afterAll steps).Agrees m.value ∧
      ∀ n : Node, (n.render (c.value.afterAll steps)).value = (n.render m.value).value := by
  have hself : ∀ entries ∈ b :: steps, ∀ v ∈ (Overrides.ofEntries entries).cssClass, v.equal v :=
    fun entries h v hv => Json.equal_self_of_isPlain (hplain entries h v hv)
  have hok : (Config.ofEntries b).isOk :=
    (Config.isOk_ofSettings_merge (s := {}) rfl (.ofEntries b)).trans hb
  obtain ⟨c, hc⟩ := Config.exists_eq_ok_of_isOk hok
  have hbase := Config.reflects_of_ofSettings hc
  have hlast := hbase.afterAll hclass
    (Settings.equal_cssClass_merge rfl (hself b List.mem_cons_self))
    fun entries h => hself entries (List.mem_cons_of_mem _ h)
  obtain ⟨m, hm, hagrees⟩ := hlast.agrees
  exact ⟨c, m, hc, hm, hagrees, hagrees.value_render⟩

/-- Options with a class under its old name and the attributes of an object as link table. -/
def oldClass : List Entry :=
  [.setting "cssClass" (.str "old"), .links (.object { typeName := "Namespace", own := some [] })]

/-- The link class is set, the old name gets another value, the link class is set to nothing, a
list is not usable, and the old name is set to nothing as well. -/
def changingClass : List (List Entry) :=
  [[.setting "linkClass" (.str "ext")],
    [.setting "css_class" (.str "new")],
    [.setting "link_class" (.str "")],
    [.links (.object { typeName := "int" }), .setting "linkClass" (.str "lost")],
    [.setting "css_class" (.int 0), .setting "html_safe" (.bool true)]]

theorem afterAll_agrees_ofSettings_mergeAll_changingClass :
    (Overrides.ofEntries oldClass).isUsable ∧
      (∀ entries ∈ oldClass :: changingClass,
        ∀ v ∈ (Overrides.ofEntries entries).cssClass, v.isPlain) ∧
      (∀ j, ¬ ((({} : Settings).merge (.ofEntries oldClass)).mergeAll
        (changingClass.take j)).IsAmbiguous) ∧
      ∃ c m, Config.ofEntries oldClass = .ok c ∧
        Config.ofSettings ((({} : Settings).merge (.ofEntries oldClass)).mergeAll changingClass) =
          .ok m ∧
        (c.value.afterAll changingClass).linkClass = .null ∧ m.value.linkClass = .str "" ∧
        ∀ n : Node,
          (n.render (c.value.afterAll changingClass)).value = (n.render m.value).value := by
  have hplain : ∀ entries ∈ oldClass :: changingClass,
      ∀ v ∈ (Overrides.ofEntries entries).cssClass, v.isPlain := by
    decide
  have hshort : ∀ j < 6, ¬ ((({} : Settings).merge (.ofEntries oldClass)).mergeAll
      (changingClass.take j)).IsAmbiguous := by
    decide
  have hclass : ∀ j, ¬ ((({} : Settings).merge (.ofEntries oldClass)).mergeAll
      (changingClass.take j)).IsAmbiguous := by
    intro j
    by_cases hj : j < 6
    · exact hshort j hj
    · -- there are five lists, and taking more takes them all
      rw [List.take_of_length_le (show changingClass.length ≤ j by simp [changingClass]; omega)]
      exact hshort 5 (by decide)
  obtain ⟨c, m, hc, hm, -, hrender⟩ := afterAll_agrees_ofSettings_mergeAll rfl hplain hclass
  refine ⟨rfl, hplain, hclass, c, m, hc, hm, ?_, ?_, hrender⟩
  · obtain rfl := Except.ok.inj hc
    rfl
  · obtain rfl := Except.ok.inj hm
    rfl

end TypeText

import TypeText.Proofs.Overriding

/-!
# Configurations are settled

Making a configuration resolves its link table and folds the old name of the link class into
the new one.  Options that are put on top go through this again, starting from what the
configuration holds.  So it matters that a configuration is *settled*: made anew from what it
holds it is the same, its table is taken as it is and not wrapped once more, and no message is
left.

This comes down to one property, that a link class is set wherever its old name is.  It holds
of every configuration that is made from settings, whatever these are, and so it is there again
after each option list, also after one that clears the link class first.

## Main definitions

* `LinkSource.answer?` — what the names link to under a source.
* `Config.IsFolded` — the link class is set wherever its old name is.
* `Config.Reachable` — the configurations that option lists lead to.

## Main results

* `Config.ofSettings_settings_iff` — a configuration is settled exactly if it is folded.
* `Config.isFolded_of_ofSettings`, `Config.IsFolded.after` — **what is made from settings is
  folded, and stays so after an option list.**
* `Config.Answers.after`, `Config.Answers.afterAll` — one list, and a sequence of lists, keep what
  the names link to in step with the merged options.
* `ofSettings_settings_afterAll` — every configuration that is reached is settled.
-/

set_option autoImplicit false

namespace TypeText

/-- What the names link to under a source; nothing where no table comes from it.  An object answers
by its `get`, and by its own attributes if it has no `get` that can be called. -/
def LinkSource.answer? : LinkSource → Option (String → Json)
  | .absent => none
  | .object a => a.answer?.or (a.own.map fun _ => a.get)

theorem LinkSource.answer?_ofTable? (t : Option LinkTable) :
    (LinkSource.ofTable? t).answer? = t.map LinkTable.get := by
  cases t with
  | none => rfl
  | some t =>
    have hget : t.owner.answer? = some t.get := (Option.some_get t.answers).symm
    change t.owner.answer?.or _ = some t.get
    rw [hget, Option.some_or]

/-- The table that a source gives answers as the source does. -/
theorem LinkSource.map_get_of_resolve {source : LinkSource} {t : Logged (Option LinkTable)}
    (h : source.resolve = .ok t) : t.value.map LinkTable.get = source.answer? := by
  cases source with
  | absent =>
    obtain rfl := Except.ok.inj h
    rfl
  | object a =>
    obtain ⟨hget, hok⟩ | ⟨hnone, hown, hok⟩ | ⟨-, -, herror⟩ := resolve_cases a
    · -- taken as it is, and its table has its `get`
      obtain rfl := Except.ok.inj (hok.symm.trans h)
      exact (answer?_ofTable? (some ⟨a, hget⟩)).symm
    · -- its attributes are taken, and the `get` of the table looks there
      obtain rfl := Except.ok.inj (hok.symm.trans h)
      obtain ⟨own, hown⟩ := Option.isSome_iff_exists.mp hown
      rw [answer?, hnone, hown]
      rfl
    · cases herror.symm.trans h

namespace Config

/-! ### Folded configurations -/

/-- The link class is set wherever its old name is. -/
def IsFolded (c : Config) : Prop := c.cssClass.isTruthy → c.linkClass.isTruthy

theorem isTruthy_foldClass {s : Settings} (h : s.cssClass.isTruthy) :
    (foldClass s).value.isTruthy := by
  cases hlink : s.linkClass.isTruthy with
  | true => rwa [value_foldClass_of_isTruthy hlink]
  | false => rwa [value_foldClass_of_not_isTruthy hlink, if_pos h]

/-- There is nothing to fold in what a folded configuration holds. -/
theorem IsFolded.foldClass_settings {c : Config} (h : c.IsFolded) :
    foldClass c.settings = ⟨c.linkClass, []⟩ := by
  have hclass : (c.cssClass.isTruthy && !c.linkClass.isTruthy) = false := by
    cases hcss : c.cssClass.isTruthy with
    | false => rfl
    | true => rw [h hcss, Bool.not_true, Bool.and_false]
  rw [foldClass]
  exact if_neg (Bool.not_eq_true _ ▸ hclass)

/-- A configuration is folded exactly if it is made anew from what it holds without a change and
without a message. -/
theorem ofSettings_settings_iff {c : Config} :
    ofSettings c.settings = .ok ⟨c, []⟩ ↔ c.IsFolded := by
  constructor
  · -- it is the outcome of folding, which leaves no old name without a link class
    intro h hcss
    obtain ⟨t, -, hc⟩ := ofSettings_eq_ok_iff.mp h
    have hclass : c.linkClass = (foldClass c.settings).value := congrArg (·.value.linkClass) hc
    rw [hclass]
    exact isTruthy_foldClass hcss
  · intro h
    refine ofSettings_eq_ok_iff.mpr ⟨⟨c.links, []⟩, LinkSource.resolve_ofTable? c.links, ?_⟩
    rw [h.foldClass_settings]
    rfl

/-- **What is made from settings is folded.** -/
theorem isFolded_of_ofSettings {s : Settings} {r : Logged Config} (h : ofSettings s = .ok r) :
    r.value.IsFolded := by
  obtain ⟨t, -, rfl⟩ := ofSettings_eq_ok_iff.mp h
  exact isTruthy_foldClass

/-- Putting an option list on top of a folded configuration is making one from the merged settings;
the empty list is no exception. -/
theorem IsFolded.override_eq {c : Config} (h : c.IsFolded) (entries : List Entry) :
    c.override entries =
      ofSettings ((c.baseFor (.ofEntries entries)).merge (.ofEntries entries)) := by
  cases entries with
  -- for the empty list nothing is made; that making it anew changes nothing needs the hypothesis
  | nil => exact (ofSettings_settings_iff.mpr h).symm
  | cons e rest => rfl

/-- **A folded configuration is folded after an option list**, which may have failed. -/
theorem IsFolded.after {c : Config} (h : c.IsFolded) (entries : List Entry) :
    (c.after entries).IsFolded := by
  unfold Config.after
  split
  · next r hr =>
    rw [h.override_eq] at hr
    exact isFolded_of_ofSettings hr
  · exact h

/-- The configurations that an option list gives, and that further lists lead to.  A list that fails
leads nowhere. -/
inductive Reachable : Config → Prop where
  | ofEntries {entries : List Entry} {r : Logged Config} (h : Config.ofEntries entries = .ok r) :
    Reachable r.value
  | after {c : Config} (h : Reachable c) (entries : List Entry) : Reachable (c.after entries)

theorem Reachable.afterAll {c : Config} (h : c.Reachable) (steps : List (List Entry)) :
    (c.afterAll steps).Reachable := by
  induction steps generalizing c with
  | nil => exact h
  | cons entries rest ih => exact ih (h.after entries)

theorem Reachable.isFolded {c : Config} (h : c.Reachable) : c.IsFolded := by
  induction h with
  | ofEntries h => exact isFolded_of_ofSettings h
  | after _ entries ih => exact ih.after entries

/-! ### Link tables -/

/-- The names link to what they link to under the source of some settings. -/
def Answers (c : Config) (s : Settings) : Prop := c.links.map LinkTable.get = s.links.answer?

theorem answers_of_ofSettings {s : Settings} {r : Logged Config} (h : ofSettings s = .ok r) :
    r.value.Answers s := by
  obtain ⟨t, ht, rfl⟩ := ofSettings_eq_ok_iff.mp h
  exact LinkSource.map_get_of_resolve ht

/-- An option list that can be put on top brings its own table or leaves the one that is there;
one that cannot is left out on both sides. -/
theorem Answers.after {c : Config} {s : Settings} (h : c.Answers s) (entries : List Entry) :
    (c.after entries).Answers (s.mergeUsable entries) := by
  have hok := c.isOk_override entries
  unfold Config.after Settings.mergeUsable
  cases hr : c.override entries with
  | error e =>
    -- a list that fails is not usable
    rw [hr] at hok
    rwa [← hok]
  | ok r =>
    rw [hr] at hok
    rw [← hok]
    cases entries with
    | nil =>
      obtain rfl := Except.ok.inj hr
      exact h
    | cons e rest =>
      -- the table of a configuration is a source that answers as the table does
      have hsource : ∀ o : Overrides, ((c.baseFor o).merge o).links.answer? =
          (s.merge o).links.answer? := by
        intro o
        rw [baseFor_eq]
        change (o.links.getD (.ofTable? c.links)).answer? = (o.links.getD s.links).answer?
        cases o.links with
        | none => exact (LinkSource.answer?_ofTable? c.links).trans h
        | some source => rfl
      exact (answers_of_ofSettings hr).trans (hsource _)

theorem Answers.afterAll {c : Config} {s : Settings} (h : c.Answers s)
    (steps : List (List Entry)) : (c.afterAll steps).Answers (s.mergeAll steps) := by
  induction steps generalizing c s with
  | nil => exact h
  | cons entries rest ih => exact ih (h.after entries)

end Config

/-- After any sequence of option lists a configuration has no link table or one that answers every
name, as the table does that was given last; its link class is set wherever the old name is; and
made anew from what it holds it is the same, with the same table and without a message. -/
theorem ofSettings_settings_afterAll {b : List Entry} {r : Logged Config}
    (h : Config.ofEntries b = .ok r) (steps : List (List Entry)) :
    (r.value.afterAll steps).links.map LinkTable.get =
        ((({} : Settings).merge (.ofEntries b)).mergeAll steps).links.answer? ∧
      ((r.value.afterAll steps).cssClass.isTruthy → (r.value.afterAll steps).linkClass.isTruthy) ∧
      Config.ofSettings (r.value.afterAll steps).settings = .ok ⟨r.value.afterAll steps, []⟩ := by
  have hfolded : (r.value.afterAll steps).IsFolded :=
    ((Config.Reachable.ofEntries h).afterAll steps).isFolded
  exact ⟨(Config.answers_of_ofSettings h).afterAll steps, hfolded,
    Config.ofSettings_settings_iff.mpr hfolded⟩

/-- Options with a class under its old name and the attributes of an object as link table. -/
def objectOptions : List Entry :=
  [.setting "cssClass" (.str "old"),
    .links (.object
      { typeName := "Namespace", inherited := [("get", .callable "get" fun _ => .null)]
        own := some [("Foo", .data (.str "foo.html")), ("get", .data .null)] })]

/-- The link class is set to nothing, a list is not usable, an option is unknown, and the old name
gets a new value, for which the link class is cleared first. -/
def clearingSteps : List (List Entry) :=
  [[.setting "link_class" (.str "")],
    [.links (.object { typeName := "int" }), .setting "linkClass" (.str "lost")],
    [.setting "nope" (.int 1)],
    [.setting "css_class" (.str "new"), .setting "html_safe" (.bool true)]]

theorem ofSettings_settings_afterAll_clearingSteps :
    ∃ r, Config.ofEntries objectOptions = .ok r ∧
      r.log = [.attributeTable "Namespace", .deprecatedClass] ∧
      (r.value.afterAll clearingSteps).linkClass = .str "new" ∧
      (r.value.afterAll clearingSteps).cssClass = .str "new" ∧
      ((r.value.afterAll clearingSteps).links.map fun t => t.get "Foo") = some (.str "foo.html") ∧
      Config.ofSettings (r.value.afterAll clearingSteps).settings =
        .ok ⟨r.value.afterAll clearingSteps, []⟩ := by
  obtain ⟨r, hr⟩ : ∃ r, Config.ofEntries objectOptions = .ok r := ⟨_, rfl⟩
  obtain ⟨hlinks, -, hsettled⟩ := ofSettings_settings_afterAll hr clearingSteps
  have hanswer : ((r.value.afterAll clearingSteps).links.map fun t => t.get "Foo") =
      ((r.value.afterAll clearingSteps).links.map LinkTable.get).map fun get => get "Foo" := by
    rw [Option.map_map]
    rfl
  refine ⟨r, hr, ?_, ?_, ?_, ?_, hsettled⟩
  · obtain rfl := Except.ok.inj hr
    rfl
  · obtain rfl := Except.ok.inj hr
    rfl
  · obtain rfl := Except.ok.inj hr
    rfl
  · rw [hanswer, hlinks]
    rfl

end TypeText

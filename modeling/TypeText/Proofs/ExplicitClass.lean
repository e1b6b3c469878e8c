import TypeText.Proofs.Overriding

/-!
# A link class that was set

A link class that is set stays as it is while other options are put on top, the old name of
the link class among them.  A configuration does not know, however, whether its link class
was set or taken from the old name; when the old name gets a new value, an equal link class
counts as taken from it.  So a link class that was set is kept as long as the old name never
gets a new value while it has an equal one.  Once this happens, the link class follows the old
name from then on.

## Main definitions

* `replacedClasses` — the values of the old name that option lists replace, in turn.
* `Overrides.LeavesClass` — a list does not set the link class.
* `Config.FollowsOld` — the link class is the value of the old name.

## Main results

* `Config.linkClass_after_of_ne`, `Config.followsOld_after_of_equal`, `Config.FollowsOld.after` —
  what one list does to a link class that is kept, that is dropped, and that follows.
* `Config.linkClass_afterAll_of_ne`, `Config.followsOld_afterAll_of_equal` — **the same for
  sequences of lists.**
* `linkClass_afterAll_ofEntries` — both, for a link class that is set at the beginning.
-/

set_option autoImplicit false

namespace TypeText

/-- The values of the old name, `old` the first of them, that are replaced by option lists put on
top one after the other. -/
def replacedClasses (old : Json) : List (List Entry) → List Json
  | [] => []
  | entries :: rest =>
    (if (Overrides.ofEntries entries).cssClass.isSome then [old] else []) ++
      replacedClasses ((Overrides.ofEntries entries).cssClass.getD old) rest

namespace Overrides

/-- A list can be put on top, and does not set the link class. -/
def LeavesClass (o : Overrides) : Prop := o.isUsable ∧ o.linkClass.isNone

instance : DecidablePred LeavesClass := fun o =>
  inferInstanceAs (Decidable (o.isUsable ∧ o.linkClass.isNone))

theorem LeavesClass.linkClass_eq {o : Overrides} (h : o.LeavesClass) : o.linkClass = none :=
  Option.isNone_iff_eq_none.mp h.2

end Overrides

namespace Config

/-- The link class is the value of the old name, if that is set. -/
def FollowsOld (c : Config) : Prop :=
  c.linkClass = if c.cssClass.isTruthy then c.cssClass else .null

/-! ### One list -/

theorem classes_of_ofSettings {s : Settings} {r : Logged Config} (h : ofSettings s = .ok r) :
    r.value.linkClass = (foldClass s).value ∧ r.value.cssClass = s.cssClass := by
  obtain ⟨t, -, rfl⟩ := ofSettings_eq_ok_iff.mp h
  exact ⟨rfl, rfl⟩

section Step

variable {c : Config} {entries : List Entry}

/-- What a list that can be put on top, and is not empty, makes of the two names. -/
theorem classes_after (husable : (Overrides.ofEntries entries).isUsable) (hne : entries ≠ []) :
    (c.after entries).linkClass =
        (foldClass ((c.baseFor (.ofEntries entries)).merge (.ofEntries entries))).value ∧
      (c.after entries).cssClass = (Overrides.ofEntries entries).cssClass.getD c.cssClass := by
  obtain ⟨r, hr⟩ := exists_eq_ok_of_isOk ((c.isOk_override entries).trans husable)
  have hafter : c.after entries = r.value := by rw [after, hr]
  obtain ⟨e, rest, rfl⟩ := List.exists_cons_of_ne_nil hne
  obtain ⟨hlink, hcss⟩ := classes_of_ofSettings (show ofSettings _ = .ok r from hr)
  rw [hafter]
  refine ⟨hlink, hcss.trans ?_⟩
  rw [baseFor_eq]
  rfl

/-- The old name keeps its value unless it gets a new one. -/
theorem cssClass_after (husable : (Overrides.ofEntries entries).isUsable) :
    (c.after entries).cssClass = (Overrides.ofEntries entries).cssClass.getD c.cssClass := by
  by_cases hne : entries = []
  · subst hne
    rfl
  · exact (classes_after husable hne).2

/-- A list that sets neither name changes no link class that is set, or that has nothing to take
the place of it. -/
theorem linkClass_after_of_none (h : (Overrides.ofEntries entries).LeavesClass)
    (hcss : (Overrides.ofEntries entries).cssClass = none)
    (hset : c.linkClass.isTruthy ∨ c.cssClass.isTruthy = false) :
    (c.after entries).linkClass = c.linkClass := by
  by_cases hne : entries = []
  · subst hne
    rfl
  · have hmerged : (c.baseFor (.ofEntries entries)).merge (.ofEntries entries) =
        c.settings.merge (.ofEntries entries) := by
      simp [baseFor, hcss]
    have hlink : (c.settings.merge (.ofEntries entries)).linkClass = c.linkClass := by
      simp [Settings.merge, h.linkClass_eq, settings]
    have hold : (c.settings.merge (.ofEntries entries)).cssClass = c.cssClass := by
      simp [Settings.merge, hcss, settings]
    rw [(classes_after h.1 hne).1, hmerged]
    -- folding changes only a link class that is not set, and only if the old name is
    rcases hset with hset | hset
    · rw [value_foldClass_of_isTruthy (by rwa [hlink]), hlink]
    · rw [foldClass, hold, hset, Bool.false_and, hlink]
      rfl

/-- A list that sets the old name alone drops a link class that is equal to its value, and puts the
new value in the place of one that is not set. -/
theorem linkClass_after_of_some (h : (Overrides.ofEntries entries).LeavesClass) {w : Json}
    (hcss : (Overrides.ofEntries entries).cssClass = some w) :
    (c.after entries).linkClass =
      (foldClass { linkClass := if c.linkClass.equal c.cssClass then .null else c.linkClass
                   cssClass := w }).value := by
  -- the empty list sets nothing, so that the options are read
  have hne : entries ≠ [] := by
    rintro rfl
    cases hcss
  have hlink : ((c.baseFor (.ofEntries entries)).merge (.ofEntries entries)).linkClass =
      if c.linkClass.equal c.cssClass then .null else c.linkClass := by
    rw [← linkClass_baseFor_of_eq_some h.linkClass_eq hcss]
    simp [Settings.merge, h.linkClass_eq]
  have hold : ((c.baseFor (.ofEntries entries)).merge (.ofEntries entries)).cssClass = w := by
    simp [Settings.merge, hcss]
  rw [(classes_after h.1 hne).1, foldClass, hlink, hold]
  rfl

/-- A link class that is set is kept, unless the old name gets a new value in the place of an equal
one. -/
theorem linkClass_after_of_ne (h : (Overrides.ofEntries entries).LeavesClass)
    (hset : c.linkClass.isTruthy)
    (hne : (Overrides.ofEntries entries).cssClass.isSome → ¬ c.linkClass.equal c.cssClass) :
    (c.after entries).linkClass = c.linkClass := by
  cases hcss : (Overrides.ofEntries entries).cssClass with
  | none => exact linkClass_after_of_none h hcss (.inl hset)
  | some w =>
    -- the old name gets a new value, but the one it had is not equal
    rw [hcss] at hne
    rw [linkClass_after_of_some h hcss, if_neg (hne rfl)]
    exact value_foldClass_of_isTruthy hset

/-- A link class that is dropped follows the old name. -/
theorem followsOld_after_of_equal (h : (Overrides.ofEntries entries).LeavesClass)
    (hcss : (Overrides.ofEntries entries).cssClass.isSome)
    (hequal : c.linkClass.equal c.cssClass) : (c.after entries).FollowsOld := by
  obtain ⟨w, hw⟩ := Option.isSome_iff_exists.mp hcss
  rw [FollowsOld, linkClass_after_of_some h hw, cssClass_after h.1, hw, if_pos hequal]
  exact value_foldClass_of_not_isTruthy rfl

/-- A link class that follows the old name still does so afterwards. -/
theorem FollowsOld.after (hc : c.FollowsOld) (h : (Overrides.ofEntries entries).LeavesClass)
    (hself : (Overrides.ofEntries entries).cssClass.isSome → c.cssClass.equal c.cssClass) :
    (c.after entries).FollowsOld := by
  unfold FollowsOld at hc
  cases hcss : (Overrides.ofEntries entries).cssClass with
  | none =>
    -- what follows the old name is set unless the old name is not
    have hset : c.linkClass.isTruthy ∨ c.cssClass.isTruthy = false := by
      rw [hc]
      split
      · next hold => exact .inl hold
      · next hold => exact .inr (Bool.eq_false_iff.mpr hold)
    rw [FollowsOld, linkClass_after_of_none h hcss hset, cssClass_after h.1, hcss]
    exact hc
  | some w =>
    rw [hcss] at hself
    by_cases hequal : c.linkClass.equal c.cssClass
    · exact followsOld_after_of_equal h (by rw [hcss]; rfl) hequal
    · -- then it is not the value of the old name, which is equal to itself
      have hnull : c.linkClass = .null := by
        rw [hc]
        split
        · next hold =>
          rw [if_pos hold] at hc
          exact absurd (hc ▸ hself rfl) hequal
        · rfl
      rw [FollowsOld, linkClass_after_of_some h hcss, cssClass_after h.1, hcss, if_neg hequal,
        hnull]
      exact value_foldClass_of_not_isTruthy rfl

end Step

/-! ### Sequences of lists -/

section Run

variable {steps : List (List Entry)} {c : Config}

theorem isOk_of_mem_outcomes (h : ∀ entries ∈ steps, (Overrides.ofEntries entries).isUsable) :
    ∀ r ∈ c.outcomes steps, r.isOk := by
  induction steps generalizing c with
  | nil =>
    intro r hr
    cases hr
  | cons entries rest ih =>
    obtain ⟨hentries, hrest⟩ := List.forall_mem_cons.mp h
    rw [outcomes, List.forall_mem_cons]
    exact ⟨(c.isOk_override entries).trans hentries, ih hrest⟩

/-- The values that are replaced are the one that the first list replaces, if it does, and those
that are replaced in the configuration after it. -/
theorem mem_replacedClasses_cons {entries : List Entry}
    (husable : (Overrides.ofEntries entries).isUsable) {w : Json} :
    w ∈ replacedClasses c.cssClass (entries :: steps) ↔
      (Overrides.ofEntries entries).cssClass.isSome ∧ w = c.cssClass ∨
        w ∈ replacedClasses (c.after entries).cssClass steps := by
  rw [replacedClasses, List.mem_append, ← cssClass_after husable]
  split
  · next h => simp [h]
  · next h => simp [h]

/-- **A link class that is set is kept**, if the old name never gets a new value in the place of an
equal one. -/
theorem linkClass_afterAll_of_ne
    (hsteps : ∀ entries ∈ steps, (Overrides.ofEntries entries).LeavesClass)
    (hset : c.linkClass.isTruthy)
    (hne : ∀ w ∈ replacedClasses c.cssClass steps, ¬ c.linkClass.equal w) :
    (c.afterAll steps).linkClass = c.linkClass := by
  induction steps generalizing c with
  | nil => rfl
  | cons entries rest ih =>
    obtain ⟨hentries, hrest⟩ := List.forall_mem_cons.mp hsteps
    have hlink : (c.after entries).linkClass = c.linkClass := by
      refine linkClass_after_of_ne hentries hset fun hcss => hne c.cssClass ?_
      exact (mem_replacedClasses_cons hentries.1).mpr (.inl ⟨hcss, rfl⟩)
    rw [afterAll_cons, ← hlink]
    refine ih hrest (hlink ▸ hset) fun w hw => ?_
    rw [hlink]
    exact hne w ((mem_replacedClasses_cons hentries.1).mpr (.inr hw))

/-- A link class that follows the old name goes on to do so. -/
theorem FollowsOld.afterAll (hc : c.FollowsOld)
    (hsteps : ∀ entries ∈ steps, (Overrides.ofEntries entries).LeavesClass)
    (hself : ∀ w ∈ replacedClasses c.cssClass steps, w.equal w) :
    (c.afterAll steps).FollowsOld := by
  induction steps generalizing c with
  | nil => exact hc
  | cons entries rest ih =>
    obtain ⟨hentries, hrest⟩ := List.forall_mem_cons.mp hsteps
    -- equality to itself is asked of the value that is replaced now, and of the later ones
    refine ih (hc.after hentries fun hcss => ?_) hrest fun w hw => ?_
    · exact hself _ ((mem_replacedClasses_cons hentries.1).mpr (.inl ⟨hcss, rfl⟩))
    · exact hself w ((mem_replacedClasses_cons hentries.1).mpr (.inr hw))

/-- **A link class follows the old name** after that got a new value in the place of an equal
one. -/
theorem followsOld_afterAll_of_equal
    (hsteps : ∀ entries ∈ steps, (Overrides.ofEntries entries).LeavesClass)
    (hset : c.linkClass.isTruthy)
    (hequal : ∃ w ∈ replacedClasses c.cssClass steps, c.linkClass.equal w)
    (hself : ∀ w ∈ replacedClasses c.cssClass steps, w.equal w) :
    (c.afterAll steps).FollowsOld := by
  induction steps generalizing c with
  | nil =>
    obtain ⟨w, hw, -⟩ := hequal
    cases hw
  | cons entries rest ih =>
    obtain ⟨hentries, hrest⟩ := List.forall_mem_cons.mp hsteps
    have hlater : ∀ w ∈ replacedClasses (c.after entries).cssClass rest, w.equal w := by
      intro w hw
      exact hself w ((mem_replacedClasses_cons hentries.1).mpr (.inr hw))
    rw [afterAll_cons]
    by_cases hdrop : (Overrides.ofEntries entries).cssClass.isSome ∧ c.linkClass.equal c.cssClass
    · -- the first list drops it, and from then on it follows
      exact (followsOld_after_of_equal hentries hdrop.1 hdrop.2).afterAll hrest hlater
    · -- the first list keeps it, so that it is dropped by a later one
      have hlink : (c.after entries).linkClass = c.linkClass :=
        linkClass_after_of_ne hentries hset fun hcss heq => hdrop ⟨hcss, heq⟩
      refine ih hrest (hlink ▸ hset) ?_ hlater
      obtain ⟨w, hw, heq⟩ := hequal
      rcases (mem_replacedClasses_cons hentries.1).mp hw with ⟨hcss, rfl⟩ | hw
      · exact absurd ⟨hcss, heq⟩ hdrop
      · exact ⟨w, hw, by rwa [hlink]⟩

end Run

end Config

/-- A link class that is set at the beginning, and not again by option lists that are put on top, is
kept if it is not equal to any value of the old name that these replace.  If it is equal to one of
them it is lost: in the end the link class is the value of the old name. -/
theorem linkClass_afterAll_ofEntries {b : List Entry} {steps : List (List Entry)} {v : Json}
    (hb : (Overrides.ofEntries b).isUsable) (hv : (Overrides.ofEntries b).linkClass = some v)
    (hset : v.isTruthy)
    (hsteps : ∀ entries ∈ steps, (Overrides.ofEntries entries).LeavesClass) :
    ∃ c, Config.ofEntries b = .ok c ∧ (∀ r ∈ c.value.outcomes steps, r.isOk) ∧
      ((∀ w ∈ replacedClasses ((Overrides.ofEntries b).cssClass.getD .null) steps, ¬ v.equal w) →
        (c.value.afterAll steps).linkClass = v) ∧
      ((∃ w ∈ replacedClasses ((Overrides.ofEntries b).cssClass.getD .null) steps, v.equal w) →
        (∀ w ∈ replacedClasses ((Overrides.ofEntries b).cssClass.getD .null) steps, w.equal w) →
        (c.value.afterAll steps).FollowsOld) := by
  have hok : (Config.ofEntries b).isOk :=
    (Config.isOk_ofSettings_merge (s := {}) rfl (.ofEntries b)).trans hb
  obtain ⟨c, hc⟩ := Config.exists_eq_ok_of_isOk hok
  obtain ⟨hlink, hold⟩ := Config.classes_of_ofSettings hc
  have hmerged : (({} : Settings).merge (.ofEntries b)).linkClass = v := by
    simp [Settings.merge, hv]
  rw [Config.value_foldClass_of_isTruthy (by rwa [hmerged]), hmerged] at hlink
  have hold' : c.value.cssClass = (Overrides.ofEntries b).cssClass.getD .null := hold
  refine ⟨c, hc, Config.isOk_of_mem_outcomes fun entries h => (hsteps entries h).1, ?_, ?_⟩
  · intro hne
    rw [← hlink]
    refine Config.linkClass_afterAll_of_ne hsteps (by rwa [hlink]) ?_
    rwa [hlink, hold']
  · intro hequal hself
    refine Config.followsOld_afterAll_of_equal hsteps (by rwa [hlink]) ?_ ?_
    · rwa [hlink, hold']
    · rwa [hold']

/-- Options with a link class, and with another value under the old name. -/
def ownClass : List Entry :=
  [.setting "css_class" (.str "old"), .setting "linkClass" (.str "own")]

/-- The old name gets a new value, is set to nothing, and gets the link class as its value. -/
def recurringClass : List (List Entry) :=
  [[.setting "cssClass" (.str "new"), .setting "html_safe" (.bool true)],
    [.links (.object { typeName := "Namespace", own := some [] })], [.setting "css_class" .null],
    [.setting "css_class" (.str "old"), .setting "cssClass" (.str "own")]]

theorem linkClass_afterAll_ofEntries_recurringClass :
    replacedClasses (.str "old") recurringClass = [.str "old", .str "new", .null] ∧
      (∀ entries ∈ recurringClass, (Overrides.ofEntries entries).LeavesClass) ∧
      ∃ c, Config.ofEntries ownClass = .ok c ∧
        (∀ r ∈ c.value.outcomes recurringClass, r.isOk) ∧
        (c.value.afterAll recurringClass).cssClass = .str "own" ∧
        (c.value.afterAll recurringClass).linkClass = .str "own" := by
  have hreplaced : replacedClasses (.str "old") recurringClass = [.str "old", .str "new", .null] :=
    rfl
  have hsteps : ∀ entries ∈ recurringClass, (Overrides.ofEntries entries).LeavesClass := by
    decide
  obtain ⟨c, hc, hok, hkept, -⟩ :=
    linkClass_afterAll_ofEntries (b := ownClass) rfl rfl rfl hsteps
  refine ⟨hreplaced, hsteps, c, hc, hok, ?_, hkept ?_⟩
  · obtain rfl := Except.ok.inj hc
    rfl
  · intro w hw
    have hw : w ∈ [Json.str "old", .str "new", .null] := hreplaced ▸ hw
    simp only [List.mem_cons, List.not_mem_nil, or_false] at hw
    rcases hw with rfl | rfl | rfl <;> decide

/-- Options with a link class that is also the value of the old name. -/
def doubledClass : List Entry :=
  [.setting "link_class" (.str "own"), .setting "css_class" (.str "own")]

/-- The link class is lost with the value of the old name that it is equal to. -/
theorem linkClass_after_doubledClass :
    (Overrides.ofEntries doubledClass).linkClass = some (.str "own") ∧
      (Overrides.ofEntries [.setting "css_class" (.str "new")]).LeavesClass ∧
      ∃ c, Config.ofEntries doubledClass = .ok c ∧
        (c.value.afterAll [[.setting "css_class" (.str "new")]]).linkClass = .str "new" :=
  ⟨rfl, by decide, _, rfl, rfl⟩

end TypeText

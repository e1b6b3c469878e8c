import Mathlib.Logic.Relation
import TypeText.Proofs.FixedPoints

/-!
# Option lists are read by last values

An option list may hold several spellings of one option, in any order and among keys that mean
nothing.  All that counts is the last value that is given to each option: the configuration is
made from these values, and from the built-in ones for the options that are not given.  So a list
can be edited in many ways without a difference to the configuration that it gives, to the
messages left on the way, or to the failure of its link table.

The same goes for a list that is put on top of a configuration, whose own values then take the
place of the built-in ones.  There is one thing to see to: the empty list is not looked at, while a
list of unknown keys is, and makes the configuration anew.  On a configuration that is settled this
comes to the same.

## Main definitions

* `Target`, `Target.spellings` — the options, the link table among them, and their keys.
* `lastGiven` — the value of the last entry that is about an option.
* `Settings.withLast`, `Config.keptFor` — last values on top of settings, and the settings that a
  configuration contributes.
* `OptionEdit`, `OptionEdits` — one edit of an option list, and any number of edits.
* `Interchangeable` — two lists have the same outcome, by themselves and on top of whatever
  configuration can be reached.

## Main results

* `Setting.ofKey?_eq_some_iff` — the keys that mean an option are its spellings.
* `Overrides.ofEntries_eq` — **a list sets each option to the last value that is given to it.**
* `OptionEdit.lastGiven_eq` — an edit changes no value that is given last.
* `interchangeable_of_lastGiven_eq` — lists that give the same values last are interchangeable.
* `ofEntries_eq_ofSettings_withLast` — what a list gives, by itself and on top of a configuration,
  and that edits do not change it.
-/

set_option autoImplicit false

namespace TypeText

/-! ### Options and their spellings -/

/-- The options. -/
inductive Target where
  /-- The link table. -/
  | links
  /-- Any other option. -/
  | setting (s : Setting)
deriving DecidableEq

namespace Target

/-- What can be given to an option. -/
abbrev Value : Target → Type
  | .links => LinkSource
  | .setting _ => Json

/-- The keys under which an option can be given. -/
def spellings : Target → List String
  | .links => ["links"]
  | .setting .linkClass => ["link_class", "linkClass"]
  | .setting .cssClass => ["css_class", "cssClass"]
  | .setting .htmlSafe => ["html_safe", "htmlSafe"]
  | .setting .suppressModifiers => ["suppress_modifiers", "_ignoreModifiers", "ignoreModifiers"]

end Target

/-- The keys that mean an option are its spellings. -/
theorem Setting.ofKey?_eq_some_iff (key : String) (s : Setting) :
    Setting.ofKey? key = some s ↔ key ∈ (Target.setting s).spellings := by
  constructor
  · intro h
    unfold Setting.ofKey? at h
    split at h
    all_goals first | cases h; decide | cases h
  · intro h
    cases s <;>
      simp only [Target.spellings, List.mem_cons, List.not_mem_nil, or_false] at h
    case suppressModifiers => rcases h with rfl | rfl | rfl <;> rfl
    all_goals rcases h with rfl | rfl <;> rfl

namespace Target

/-- What holds of the five options holds of all. -/
theorem forall_of_five {P : Target → Prop}
    (h : ∀ t ∈ [links, setting .linkClass, setting .cssClass, setting .htmlSafe,
      setting .suppressModifiers], P t) (t : Target) : P t := by
  refine h t ?_
  cases t with
  | links => decide
  | setting s => cases s <;> decide

theorem links_not_mem_spellings (s : Setting) : "links" ∉ (setting s).spellings := by
  cases s <;> decide

/-- No key is a spelling of two options. -/
theorem eq_of_mem_spellings {key : String} {t u : Target} (ht : key ∈ t.spellings)
    (hu : key ∈ u.spellings) : t = u := by
  cases t with
  | links =>
    obtain rfl : key = "links" := List.mem_singleton.mp ht
    cases u with
    | links => rfl
    | setting s => exact absurd hu (links_not_mem_spellings s)
  | setting s =>
    cases u with
    | links =>
      obtain rfl : key = "links" := List.mem_singleton.mp hu
      exact absurd ht (links_not_mem_spellings s)
    | setting s' =>
      -- reading a key as an option gives at most one
      have hs := (Setting.ofKey?_eq_some_iff key s).mpr ht
      have hs' := (Setting.ofKey?_eq_some_iff key s').mpr hu
      rw [Option.some.inj (hs.symm.trans hs')]

end Target

/-! ### Last values -/

namespace Entry

/-- The key of an entry. -/
def key : Entry → String
  | .links _ => "links"
  | .setting key _ _ => key

/-- An entry is about an option if its key is one of the spellings. -/
def IsAbout (e : Entry) (t : Target) : Prop := e.key ∈ t.spellings

instance (e : Entry) (t : Target) : Decidable (e.IsAbout t) :=
  inferInstanceAs (Decidable (e.key ∈ t.spellings))

/-- What an entry gives to an option. -/
def given : (t : Target) → Entry → Option t.Value
  | .links, .links source => some source
  | .setting s, .setting key v _ => if key ∈ (Target.setting s).spellings then some v else none
  | .links, .setting _ _ _ => none
  | .setting _, .links _ => none

/-- An entry gives something to exactly those options that it is about. -/
theorem isSome_given_iff (t : Target) (e : Entry) : (e.given t).isSome ↔ e.IsAbout t := by
  cases t with
  | links =>
    cases e with
    | links source => exact iff_of_true rfl (List.mem_singleton.mpr rfl)
    | setting key v hkey =>
      exact iff_of_false Bool.false_ne_true fun h =>
        bne_iff_ne.mp hkey (List.mem_singleton.mp h)
  | setting s =>
    cases e with
    | links source =>
      exact iff_of_false Bool.false_ne_true (Target.links_not_mem_spellings s)
    | setting key v hkey =>
      change (if key ∈ (Target.setting s).spellings then some v else none).isSome ↔ _
      split
      · next h => exact iff_of_true rfl h
      · next h => exact iff_of_false Bool.false_ne_true h

theorem given_of_not_isAbout {t : Target} {e : Entry} (h : ¬ e.IsAbout t) : e.given t = none := by
  rwa [← isSome_given_iff, Option.not_isSome_iff_eq_none] at h

end Entry

/-- The value of the last entry of a list that is about an option. -/
def lastGiven (t : Target) (entries : List Entry) : Option t.Value :=
  (entries.filterMap (Entry.given t)).getLast?

theorem lastGiven_append (t : Target) (xs ys : List Entry) :
    lastGiven t (xs ++ ys) = (lastGiven t ys).or (lastGiven t xs) := by
  rw [lastGiven, List.filterMap_append, List.getLast?_append, lastGiven, lastGiven]

theorem lastGiven_cons (t : Target) (e : Entry) (rest : List Entry) :
    lastGiven t (e :: rest) = (lastGiven t rest).or (e.given t) := by
  have hsingle : lastGiven t [e] = e.given t := by
    rw [lastGiven, List.filterMap_cons]
    cases e.given t <;> rfl
  rw [← List.singleton_append, lastGiven_append, hsingle]

theorem lastGiven_eq_none {entries : List Entry} {t : Target}
    (h : ∀ e ∈ entries, ¬ e.IsAbout t) : lastGiven t entries = none := by
  induction entries with
  | nil => rfl
  | cons e rest ih =>
    obtain ⟨he, hrest⟩ := List.forall_mem_cons.mp h
    rw [lastGiven_cons, ih hrest, Entry.given_of_not_isAbout he]
    rfl

/-! ### What a list sets -/

namespace Overrides

/-- What is set for an option. -/
def get (o : Overrides) : (t : Target) → Option t.Value
  | .links => o.links
  | .setting .linkClass => o.linkClass
  | .setting .cssClass => o.cssClass
  | .setting .htmlSafe => o.htmlSafe
  | .setting .suppressModifiers => o.suppressModifiers

theorem get_set (o : Overrides) (v : Json) (s s' : Setting) :
    (o.set v s).get (.setting s') = if s = s' then some v else o.get (.setting s') := by
  cases s <;> cases s' <;> rfl

theorem get_links_set (o : Overrides) (v : Json) (s : Setting) :
    (o.set v s).get .links = o.get .links := by
  cases s <;> rfl

/-- An entry sets the option that its key means, if it means one. -/
theorem add_setting (o : Overrides) (key : String) (v : Json) (hkey : key != "links") :
    o.add (.setting key v hkey) = ((Setting.ofKey? key).map (o.set v)).getD o := by
  rw [add]
  cases Setting.ofKey? key <;> rfl

/-- An entry sets what it gives, and leaves the other options as they are. -/
theorem get_add (o : Overrides) (e : Entry) (t : Target) :
    (o.add e).get t = (e.given t).or (o.get t) := by
  cases e with
  | links source =>
    cases t with
    | links => rfl
    | setting s => cases s <;> rfl
  | setting key v hkey =>
    rw [add_setting]
    cases t with
    | links =>
      -- whatever the key means, it is not the link table
      cases Setting.ofKey? key with
      | none => rfl
      | some s => exact o.get_links_set v s
    | setting s =>
      simp only [Entry.given, ← Setting.ofKey?_eq_some_iff]
      -- the key means this option, another one, or none
      cases Setting.ofKey? key with
      | none => rfl
      | some s' =>
        simp only [Option.some.injEq, Option.map_some, Option.getD_some]
        rw [get_set]
        split <;> rfl

theorem get_foldl_add (entries : List Entry) (o : Overrides) (t : Target) :
    (entries.foldl add o).get t = (lastGiven t entries).or (o.get t) := by
  induction entries generalizing o with
  | nil => rfl
  | cons e rest ih => rw [List.foldl_cons, ih, get_add, lastGiven_cons, Option.or_assoc]

theorem get_ofEntries (entries : List Entry) (t : Target) :
    (ofEntries entries).get t = lastGiven t entries := by
  have hempty : ({} : Overrides).get t = none := by
    cases t with
    | links => rfl
    | setting s => cases s <;> rfl
  rw [ofEntries, get_foldl_add, hempty, Option.or_none]

/-- **A list sets each option to the last value that is given to it.** -/
theorem ofEntries_eq (entries : List Entry) :
    ofEntries entries =
      { links := lastGiven .links entries
        linkClass := lastGiven (.setting .linkClass) entries
        cssClass := lastGiven (.setting .cssClass) entries
        htmlSafe := lastGiven (.setting .htmlSafe) entries
        suppressModifiers := lastGiven (.setting .suppressModifiers) entries } := by
  simp only [← get_ofEntries]
  rfl

end Overrides

/-- Settings with the last values of a list on top. -/
def Settings.withLast (s : Settings) (entries : List Entry) : Settings where
  links := (lastGiven .links entries).getD s.links
  linkClass := (lastGiven (.setting .linkClass) entries).getD s.linkClass
  cssClass := (lastGiven (.setting .cssClass) entries).getD s.cssClass
  htmlSafe := (lastGiven (.setting .htmlSafe) entries).getD s.htmlSafe
  suppressModifiers := (lastGiven (.setting .suppressModifiers) entries).getD s.suppressModifiers

theorem Settings.merge_ofEntries (s : Settings) (entries : List Entry) :
    s.merge (.ofEntries entries) = s.withLast entries := by
  rw [Overrides.ofEntries_eq]
  rfl

namespace Config

/-- What a configuration contributes when a list is put on top of it: all that it holds, but no link
class if that is equal to the value of the old name and only the old name is given. -/
def keptFor (c : Config) (entries : List Entry) : Settings where
  links := .ofTable? c.links
  linkClass :=
    if (lastGiven (.setting .cssClass) entries).isSome &&
        (lastGiven (.setting .linkClass) entries).isNone && c.linkClass.equal c.cssClass then .null
    else c.linkClass
  cssClass := c.cssClass
  htmlSafe := c.htmlSafe
  suppressModifiers := c.suppressModifiers

theorem baseFor_ofEntries (c : Config) (entries : List Entry) :
    c.baseFor (.ofEntries entries) = c.keptFor entries := by
  rw [Overrides.ofEntries_eq]
  unfold baseFor keptFor
  split <;> rfl

/-- What an option list gives by itself. -/
theorem ofEntries_eq (entries : List Entry) :
    ofEntries entries = ofSettings (({} : Settings).withLast entries) := by
  rw [ofEntries, Settings.merge_ofEntries]

/-- What an option list gives on top of a configuration that can be reached. -/
theorem Reachable.override_eq {c : Config} (h : c.Reachable) (entries : List Entry) :
    c.override entries = ofSettings ((c.keptFor entries).withLast entries) := by
  rw [h.isFolded.override_eq, baseFor_ofEntries, Settings.merge_ofEntries]

end Config

/-! ### Edits -/

/-- One edit of an option list. -/
inductive OptionEdit : List Entry → List Entry → Prop where
  /-- An entry with an unknown key is removed. -/
  | unknown {before after : List Entry} {e : Entry} (he : ∀ t, ¬ e.IsAbout t) :
    OptionEdit (before ++ e :: after) (before ++ after)
  /-- A key is spelled in another way. -/
  | rename {before after : List Entry} {key key' : String} {v : Json} {s : Setting}
    {hne : key != "links"} {hne' : key' != "links"} (hkey : key ∈ (Target.setting s).spellings)
    (hkey' : key' ∈ (Target.setting s).spellings) :
    OptionEdit (before ++ .setting key v hne :: after) (before ++ .setting key' v hne' :: after)
  /-- An entry is removed, since a later one is about the same option. -/
  | overridden {before between after : List Entry} {e e' : Entry} {t : Target}
    (he : e.IsAbout t) (he' : e'.IsAbout t) :
    OptionEdit (before ++ e :: (between ++ e' :: after)) (before ++ (between ++ e' :: after))
  /-- Neighbours that are not about the same option change places. -/
  | exchange {before after : List Entry} {e e' : Entry}
    (he : ∀ t, ¬ (e.IsAbout t ∧ e'.IsAbout t)) :
    OptionEdit (before ++ e :: e' :: after) (before ++ e' :: e :: after)

/-- Any number of edits of an option list, each of them made or undone. -/
def OptionEdits : List Entry → List Entry → Prop := Relation.EqvGen OptionEdit

/-- An edit changes no value that is given last. -/
theorem OptionEdit.lastGiven_eq {a b : List Entry} (h : OptionEdit a b) (t : Target) :
    lastGiven t a = lastGiven t b := by
  cases h with
  | unknown he =>
    rw [lastGiven_append, lastGiven_cons, Entry.given_of_not_isAbout (he t), Option.or_none,
      lastGiven_append]
  | @rename before after key key' v s hne hne' hkey hkey' =>
    -- both keys are spellings of the one option, and of no other
    have hgiven : (Entry.setting key v hne).given t = (Entry.setting key' v hne').given t := by
      cases t with
      | links => rfl
      | setting s' =>
        have hmem : key ∈ (Target.setting s').spellings ↔ key' ∈ (Target.setting s').spellings :=
          ⟨fun h => Target.eq_of_mem_spellings hkey h ▸ hkey',
            fun h => Target.eq_of_mem_spellings hkey' h ▸ hkey⟩
        simp only [Entry.given, hmem]
    rw [lastGiven_append, lastGiven_append, lastGiven_cons, lastGiven_cons, hgiven]
  | @overridden before between after e e' t' he he' =>
    -- the later entry comes first wherever the removed one would count
    have hgiven : (lastGiven t (between ++ e' :: after)).or (e.given t) =
        lastGiven t (between ++ e' :: after) := by
      by_cases ht : e.IsAbout t
      · -- then the later entry is about the option too, and gives it a value
        obtain rfl : t' = t := Target.eq_of_mem_spellings he ht
        obtain ⟨v, hv⟩ := Option.isSome_iff_exists.mp ((Entry.isSome_given_iff t' e').mpr he')
        rw [lastGiven_append, lastGiven_cons, hv]
        cases lastGiven t' after <;> rfl
      · rw [Entry.given_of_not_isAbout ht, Option.or_none]
    rw [lastGiven_append t before, lastGiven_cons, hgiven, lastGiven_append t before]
  | @exchange before after e e' he =>
    -- at most one of the two is about the option
    have hgiven : (e'.given t).or (e.given t) = (e.given t).or (e'.given t) := by
      by_cases ht : e.IsAbout t
      · have ht' : ¬ e'.IsAbout t := fun ht' => he t ⟨ht, ht'⟩
        rw [Entry.given_of_not_isAbout ht', Option.none_or, Option.or_none]
      · rw [Entry.given_of_not_isAbout ht, Option.none_or, Option.or_none]
    have hpair : lastGiven t (e :: e' :: after) = lastGiven t (e' :: e :: after) := by
      rw [lastGiven_cons, lastGiven_cons, Option.or_assoc, hgiven, ← Option.or_assoc,
        ← lastGiven_cons, ← lastGiven_cons]
    rw [lastGiven_append, lastGiven_append, hpair]

theorem OptionEdits.lastGiven_eq {a b : List Entry} (h : OptionEdits a b) (t : Target) :
    lastGiven t a = lastGiven t b := by
  induction h with
  | rel _ _ h => exact h.lastGiven_eq t
  | refl _ => rfl
  | symm _ _ _ ih => exact ih.symm
  | trans _ _ _ _ _ ih ih' => exact ih.trans ih'

/-! ### Outcomes -/

/-- Two option lists have the same outcome, by themselves and on top of whatever configuration can
be reached: the same configuration with the same messages, or the same failure. -/
def Interchangeable (a b : List Entry) : Prop :=
  Config.ofEntries a = Config.ofEntries b ∧
    ∀ c : Config, c.Reachable → c.override a = c.override b

/-- Lists that give the same values last are interchangeable. -/
theorem interchangeable_of_lastGiven_eq {a b : List Entry}
    (h : ∀ t, lastGiven t a = lastGiven t b) : Interchangeable a b := by
  have hlast : ∀ s : Settings, s.withLast a = s.withLast b := fun s => by
    simp only [Settings.withLast, h]
  constructor
  · rw [Config.ofEntries_eq, Config.ofEntries_eq, hlast]
  · intro c hc
    have hkept : c.keptFor a = c.keptFor b := by simp only [Config.keptFor, h]
    rw [hc.override_eq, hc.override_eq, hkept, hlast]

/-- An option list makes a configuration from the last value that is given to each option and from
the built-in values of the others.  On top of a configuration that can be reached, the values it
holds stand for the built-in ones; its link class is left out if it is equal to the value of the old
name and only the old name is given.  So nothing else about a list counts, and edits do not change
its outcome; and a list of unknown keys leaves such a configuration as it is, without a message. -/
theorem ofEntries_eq_ofSettings_withLast :
    (∀ entries, Config.ofEntries entries =
        Config.ofSettings (({} : Settings).withLast entries)) ∧
      (∀ c : Config, c.Reachable → ∀ entries, c.override entries =
        Config.ofSettings ((c.keptFor entries).withLast entries)) ∧
      (∀ a b : List Entry, (∀ t, lastGiven t a = lastGiven t b) → Interchangeable a b) ∧
      (∀ a b : List Entry, OptionEdits a b → Interchangeable a b) ∧
      ∀ c : Config, c.Reachable → ∀ entries : List Entry, (∀ e ∈ entries, ∀ t, ¬ e.IsAbout t) →
        c.override entries = .ok ⟨c, []⟩ := by
  refine ⟨Config.ofEntries_eq, fun c hc => hc.override_eq,
    fun a b => interchangeable_of_lastGiven_eq, ?_, ?_⟩
  · intro a b h
    exact interchangeable_of_lastGiven_eq h.lastGiven_eq
  · intro c hc entries hentries
    have h : Interchangeable entries [] := interchangeable_of_lastGiven_eq fun t =>
      lastGiven_eq_none fun e he => hentries e he t
    rw [h.2 c hc, Config.override_nil]

/-- Options with two spellings of one of them, an unknown key, and a mapping as link table. -/
def scrambledOptions : List Entry :=
  [.setting "cssClass" (.str "lost"), .setting "nope" (.int 1), .setting "linkClass" (.str ""),
    .links (.mapping [("Foo", .str "foo.html")]), .setting "css_class" (.str "new"),
    .setting "ignoreModifiers" (.bool true)]

/-- The same options, each once, in another order. -/
def plainOptions : List Entry :=
  [.links (.mapping [("Foo", .str "foo.html")]), .setting "link_class" (.str ""),
    .setting "css_class" (.str "new"), .setting "suppress_modifiers" (.bool true)]

theorem optionEdits_scrambledOptions : OptionEdits scrambledOptions plainOptions := by
  have hdrop : OptionEdit scrambledOptions (scrambledOptions.drop 1) :=
    @OptionEdit.overridden [] ((scrambledOptions.drop 1).take 3) (scrambledOptions.drop 5) _ _
      (.setting .cssClass) (by decide) (by decide)
  have hunknown : OptionEdit (scrambledOptions.drop 1) (scrambledOptions.drop 2) :=
    @OptionEdit.unknown [] _ _ (Target.forall_of_five (by decide))
  have hrename : OptionEdit (scrambledOptions.drop 2)
      (.setting "link_class" (.str "") :: scrambledOptions.drop 3) :=
    @OptionEdit.rename [] _ _ _ _ .linkClass _ _ (by decide) (by decide)
  have hexchange : OptionEdit (.setting "link_class" (.str "") :: scrambledOptions.drop 3)
      (plainOptions.take 3 ++ scrambledOptions.drop 5) :=
    @OptionEdit.exchange [] _ _ _ (Target.forall_of_five (by decide))
  have hrename' : OptionEdit (plainOptions.take 3 ++ scrambledOptions.drop 5) plainOptions :=
    @OptionEdit.rename (plainOptions.take 3) [] _ _ _ .suppressModifiers _ _ (by decide)
      (by decide)
  exact .trans _ _ _ (.rel _ _ hdrop) (.trans _ _ _ (.rel _ _ hunknown)
    (.trans _ _ _ (.rel _ _ hrename) (.trans _ _ _ (.rel _ _ hexchange) (.rel _ _ hrename'))))

theorem ofEntries_eq_ofSettings_withLast_scrambledOptions :
    OptionEdits scrambledOptions plainOptions ∧ Interchangeable scrambledOptions plainOptions ∧
      -- the values that are given last, and the configuration that is made from them
      lastGiven (.setting .cssClass) scrambledOptions = some (.str "new") ∧
      lastGiven (.setting .linkClass) scrambledOptions = some (.str "") ∧
      lastGiven (.setting .htmlSafe) scrambledOptions = none ∧
      (∃ r, Config.ofEntries scrambledOptions = .ok r ∧ r.log = [.deprecatedClass] ∧
        (r.value.links.map fun t => t.get "Foo") = some (.str "foo.html") ∧
        r.value.linkClass = .str "new" ∧ r.value.cssClass = .str "new" ∧
        r.value.htmlSafe = .bool false ∧ r.value.suppressModifiers = .bool true) ∧
      -- on top of a configuration whose link class comes from the old name
      ∃ c, Config.ofEntries objectOptions = .ok c ∧ c.value.Reachable ∧
        c.value.override scrambledOptions = c.value.override plainOptions ∧
        (∃ r, c.value.override [.setting "nope" .null, .setting "cssClass" (.str "new")] = .ok r ∧
          r.log = [.deprecatedClass] ∧ r.value.linkClass = .str "new" ∧
          r.value.cssClass = .str "new" ∧ r.value.links.isSome) ∧
        c.value.override [.setting "nope" (.int 1), .setting "" .null] = .ok ⟨c.value, []⟩ := by
  obtain ⟨hread, hover, -, hedits, hunknown⟩ := ofEntries_eq_ofSettings_withLast
  obtain ⟨c, hc⟩ : ∃ c, Config.ofEntries objectOptions = .ok c := ⟨_, rfl⟩
  have hreach : c.value.Reachable := .ofEntries hc
  have hsame := hedits _ _ optionEdits_scrambledOptions
  refine ⟨optionEdits_scrambledOptions, hsame, rfl, rfl, rfl, ?_, c, hc, hreach,
    hsame.2 c.value hreach, ?_, ?_⟩
  · rw [hread]
    exact ⟨_, rfl, rfl, rfl, rfl, rfl, rfl, rfl⟩
  · rw [hover c.value hreach]
    obtain rfl := Except.ok.inj hc
    exact ⟨_, rfl, rfl, rfl, rfl, rfl⟩
  · refine hunknown c.value hreach _ ?_
    simp only [List.forall_mem_cons]
    exact ⟨Target.forall_of_five (by decide), Target.forall_of_five (by decide),
      fun _ h => absurd h List.not_mem_nil⟩

end TypeText

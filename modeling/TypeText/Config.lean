import TypeText.Links

/-!
# Configurations

How types are shown is set by five options.  Options come as a list of entries in
which an option may have several spellings; the last entry of an option counts.
A configuration is what the options mean once the link table is resolved and the
old spelling of the link class is folded into the new one.

## Main definitions

* `Setting`, `Setting.ofKey?` — the options besides the link table, and their
  spellings.
* `Entry`, `Overrides` — one entry, and what a list of entries sets.
* `Settings` — a value for every option; `Settings.merge` puts overrides on top.
* `Config`, `Config.ofSettings` — the configuration that settings give.
* `Config.ofEntries`, `Config.override` — a configuration from entries, and entries
  on top of a configuration.
* `Config.after`, `Config.outcomes` — a sequence of overrides.
-/

set_option autoImplicit false

namespace TypeText

/-! ### Entries -/

/-- The options besides the link table. -/
inductive Setting where
  /-- The class of links. -/
  | linkClass
  /-- The class of links, under its old name. -/
  | cssClass
  /-- Whether angle brackets are written as entities. -/
  | htmlSafe
  /-- Whether modifiers are left out. -/
  | suppressModifiers
deriving DecidableEq

/-- The option that a key means; a key that means none is ignored. -/
def Setting.ofKey? : String → Option Setting
  | "link_class" => some .linkClass
  | "linkClass" => some .linkClass
  | "css_class" => some .cssClass
  | "cssClass" => some .cssClass
  | "html_safe" => some .htmlSafe
  | "htmlSafe" => some .htmlSafe
  | "suppress_modifiers" => some .suppressModifiers
  | "_ignoreModifiers" => some .suppressModifiers
  | "ignoreModifiers" => some .suppressModifiers
  | _ => none

/-- An entry of an option list. -/
inductive Entry where
  /-- The link table, under its only key. -/
  | links (source : LinkSource)
  /-- Any other key with its value. -/
  | setting (key : String) (value : Json) (hkey : key != "links" := by exact Eq.refl true)

/-- What a list of entries sets, option by option. -/
structure Overrides where
  links : Option LinkSource := none
  linkClass : Option Json := none
  cssClass : Option Json := none
  htmlSafe : Option Json := none
  suppressModifiers : Option Json := none

namespace Overrides

/-- Sets an option. -/
def set (o : Overrides) (v : Json) : Setting → Overrides
  | .linkClass => { o with linkClass := some v }
  | .cssClass => { o with cssClass := some v }
  | .htmlSafe => { o with htmlSafe := some v }
  | .suppressModifiers => { o with suppressModifiers := some v }

/-- Sets what an entry says. -/
def add (o : Overrides) : Entry → Overrides
  | .links source => { o with links := some source }
  | .setting key v _ =>
    match Setting.ofKey? key with
    | some setting => o.set v setting
    | none => o

/-- What a list of entries sets: later entries win. -/
def ofEntries (entries : List Entry) : Overrides := entries.foldl add {}

end Overrides

/-! ### Settings -/

/-- A value for every option. -/
structure Settings where
  links : LinkSource := .absent
  linkClass : Json := .null
  cssClass : Json := .null
  htmlSafe : Json := .bool false
  suppressModifiers : Json := .bool false

/-- Puts overrides on top of settings. -/
def Settings.merge (s : Settings) (o : Overrides) : Settings where
  links := o.links.getD s.links
  linkClass := o.linkClass.getD s.linkClass
  cssClass := o.cssClass.getD s.cssClass
  htmlSafe := o.htmlSafe.getD s.htmlSafe
  suppressModifiers := o.suppressModifiers.getD s.suppressModifiers

/-! ### Configurations -/

/-- How types are shown. -/
structure Config where
  /-- The table that answers what names link to. -/
  links : Option LinkTable := none
  /-- The class of links. -/
  linkClass : Json := .null
  /-- The class of links, as it was given under its old name. -/
  cssClass : Json := .null
  /-- Whether angle brackets are written as entities. -/
  htmlSafe : Json := .bool false
  /-- Whether modifiers are left out. -/
  suppressModifiers : Json := .bool false

namespace Config

/-- The class of links that settings mean, with a message where it comes from the
old name alone. -/
def foldClass (s : Settings) : Logged Json :=
  if s.cssClass.isTruthy && !s.linkClass.isTruthy then ⟨s.cssClass, [.deprecatedClass]⟩
  else ⟨s.linkClass, []⟩

/-- The configuration that settings give.  It fails exactly when the link table
cannot be used, and then leaves no message. -/
def ofSettings (s : Settings) : Except UnsupportedTable (Logged Config) :=
  s.links.resolve.map fun links => do
    let links ← links
    let linkClass ← foldClass s
    pure { links, linkClass, cssClass := s.cssClass, htmlSafe := s.htmlSafe,
           suppressModifiers := s.suppressModifiers }

/-- The settings that a configuration holds. -/
def settings (c : Config) : Settings where
  links := .ofTable? c.links
  linkClass := c.linkClass
  cssClass := c.cssClass
  htmlSafe := c.htmlSafe
  suppressModifiers := c.suppressModifiers

/-- The configuration of an option list. -/
def ofEntries (entries : List Entry) : Except UnsupportedTable (Logged Config) :=
  ofSettings (({} : Settings).merge (.ofEntries entries))

/-- The settings on top of which overrides go.  A link class that may have come from
the old name is dropped when the old name alone is given a new value. -/
def baseFor (c : Config) (o : Overrides) : Settings :=
  -- where the class came from is not kept, so the values are compared
  if o.cssClass.isSome && o.linkClass.isNone && c.linkClass.equal c.cssClass then
    { c.settings with linkClass := .null }
  else c.settings

/-- A configuration with an option list on top; the empty list changes nothing. -/
def override (c : Config) (entries : List Entry) : Except UnsupportedTable (Logged Config) :=
  if entries.isEmpty then .ok ⟨c, []⟩
  else
    let overrides := Overrides.ofEntries entries
    ofSettings ((c.baseFor overrides).merge overrides)

@[simp] theorem override_nil (c : Config) : c.override [] = .ok ⟨c, []⟩ := rfl

/-- Whether a configuration is the built-in one, up to equality of values. -/
def isDefault (c : Config) : Bool :=
  c.links.isNone && c.linkClass.equal .null && c.cssClass.equal .null &&
    c.htmlSafe.equal (.bool false) && c.suppressModifiers.equal (.bool false)

/-! ### Sequences of overrides -/

/-- The configuration after an option list; a list that fails changes nothing. -/
def after (c : Config) (entries : List Entry) : Config :=
  match c.override entries with
  | .ok r => r.value
  | .error _ => c

/-- The configuration after a sequence of option lists. -/
def afterAll (c : Config) (steps : List (List Entry)) : Config := steps.foldl after c

@[simp] theorem afterAll_nil (c : Config) : c.afterAll [] = c := rfl

@[simp] theorem afterAll_cons (c : Config) (entries : List Entry) (steps : List (List Entry)) :
    c.afterAll (entries :: steps) = (c.after entries).afterAll steps := rfl

/-- The outcome of each option list of a sequence. -/
def outcomes (c : Config) : List (List Entry) → List (Except UnsupportedTable (Logged Config))
  | [] => []
  | entries :: rest => c.override entries :: (c.after entries).outcomes rest

end Config

end TypeText

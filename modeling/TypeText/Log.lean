import TypeText.Json.Literal

/-!
# Messages

Reading options and showing types never stops for what is merely doubtful: it
leaves a message and goes on.  Messages are part of the result, in the order in
which they were left.

## Main definitions

* `Message` — what can be reported; `Message.channel` and `Message.text` give its
  place and wording.
* `channelName` — the full name of a channel.
* `Logged α` — a result with the messages left on the way, a monad that
  concatenates them.

## Main results

* `Logged.ext`, `Logged.value_bind`, `Logged.log_bind` — results and messages of a
  sequence.
* `Logged.value_mapM`, `Logged.log_mapM` — the results and messages of a list of steps.
-/

set_option autoImplicit false

namespace TypeText

/-! ### Messages -/

/-- The channel under which all others stand. -/
def rootChannel : String := "closuretype"

/-- The full name of a channel: a name outside the root channel is put under it. -/
def channelName (name : String) : String :=
  if name = rootChannel ∨ (rootChannel ++ ".").toList <+: name.toList then name
  else rootChannel ++ "." ++ name

/-- What is reported. -/
inductive Message where
  /-- The class of links was given under its old name alone. -/
  | deprecatedClass
  /-- The attributes of an object of this type serve as link table. -/
  | attributeTable (typeName : String)
  /-- An expression with an unknown tag is shown as a name. -/
  | unknownTag (tag : Json)

namespace Message

/-- Where a message is left. -/
def channel : Message → String
  | .deprecatedClass => channelName "config"
  | .attributeTable _ => channelName "links"
  | .unknownTag _ => channelName "renderers.stringify"

/-- The wording of a message. -/
def text : Message → String
  | .deprecatedClass => "css_class is deprecated; use link_class instead"
  | .attributeTable typeName => "Using attributes of " ++ typeName ++ " as link table"
  | .unknownTag tag => "Unknown type kind " ++ tag.literal ++ ", rendering as a name"

end Message

/-! ### Results with messages -/

/-- A result together with the messages left on the way to it. -/
structure Logged (α : Type) where
  /-- The result. -/
  value : α
  /-- The messages, in the order in which they were left. -/
  log : List Message := []

namespace Logged

variable {α β : Type}

@[ext] theorem ext {x y : Logged α} (hvalue : x.value = y.value) (hlog : x.log = y.log) :
    x = y := by
  cases x
  cases y
  simp_all

/-- Leaves a message. -/
def report (m : Message) : Logged Unit := ⟨(), [m]⟩

instance : Monad Logged where
  pure a := ⟨a, []⟩
  bind x f := ⟨(f x.value).value, x.log ++ (f x.value).log⟩

@[simp] theorem value_pure (a : α) : (pure a : Logged α).value = a := rfl

@[simp] theorem log_pure (a : α) : (pure a : Logged α).log = [] := rfl

@[simp] theorem value_bind (x : Logged α) (f : α → Logged β) :
    (x >>= f).value = (f x.value).value := rfl

@[simp] theorem log_bind (x : Logged α) (f : α → Logged β) :
    (x >>= f).log = x.log ++ (f x.value).log := rfl

@[simp] theorem value_map (f : α → β) (x : Logged α) : (f <$> x).value = f x.value := rfl

@[simp] theorem log_map (f : α → β) (x : Logged α) : (f <$> x).log = x.log := by
  change x.log ++ [] = x.log
  rw [List.append_nil]

@[simp] theorem log_report (m : Message) : (report m).log = [m] := rfl

instance : LawfulMonad Logged := LawfulMonad.mk' Logged
  (by intro α x; ext1 <;> simp)
  (by intro α β a f; ext1 <;> simp)
  (by intro α β γ x f g; ext1 <;> simp)

/-- The results of a list of steps are the results of each. -/
@[simp] theorem value_mapM (f : α → Logged β) (xs : List α) :
    (xs.mapM f).value = xs.map fun x => (f x).value := by
  induction xs with
  | nil => rfl
  | cons x xs ih => rw [List.mapM_cons, value_bind, value_bind, ih, value_pure, List.map_cons]

/-- The messages of a list of steps are those of each in turn. -/
@[simp] theorem log_mapM (f : α → Logged β) (xs : List α) :
    (xs.mapM f).log = xs.flatMap fun x => (f x).log := by
  induction xs with
  | nil => rfl
  | cons x xs ih =>
    rw [List.mapM_cons, log_bind, log_bind, ih, log_pure, List.append_nil, List.flatMap_cons]

end Logged

end TypeText

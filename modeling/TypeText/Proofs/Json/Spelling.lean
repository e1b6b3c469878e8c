import TypeText.Json.Reader
import TypeText.Json.Writer

/-!
# The texts of a value

One value has many texts.  Blanks may stand around every value and every key, a
character of a string may be written as itself, by a letter or by its code units, and
zero may have a sign.  What stays is the order of the members.

## Main definitions

* `Json.Blanks` — a text of blanks.
* `Json.SpellsChar`, `Json.SpellsChars` — the texts of a character and of several.
* `Json.SpellsKey` — the texts of a key.
* `Json.Spells v t` — `t` is a text of the value `v`.
-/

set_option autoImplicit false

namespace TypeText

namespace Json

/-! ### Strings -/

/-- A text of blanks. -/
def Blanks (s : List Char) : Prop := ∀ c ∈ s, c ∈ [' ', '\t', '\n', '\r']

-- Only the characters of the text are tried, never all characters.
instance (s : List Char) : Decidable (Blanks s) := List.decidableBAll _ s

theorem Blanks.nil : Blanks [] := fun _ h => absurd h List.not_mem_nil

theorem Blanks.append {s t : List Char} (hs : Blanks s) (ht : Blanks t) : Blanks (s ++ t) := by
  intro c hc
  rcases List.mem_append.mp hc with hc | hc
  · exact hs c hc
  · exact ht c hc

/-- A code unit by its four hexadecimal digits, each in either case. -/
def SpellsUnit (unit : Nat) (t : List Char) : Prop :=
  ∃ ds : List Char, ds.map Char.toLower = hexDigits 4 unit ∧ t = '\\' :: 'u' :: ds

/-- The escapes of one letter, each with its character. -/
def letterEscapes : List (Char × Char) :=
  [('"', '"'), ('\\', '\\'), ('/', '/'), ('b', '\x08'), ('f', '\x0c'), ('n', '\n'), ('r', '\r'),
    ('t', '\t')]

/-- The texts of a character in a string. -/
inductive SpellsChar : Char → List Char → Prop where
  /-- Only control characters, the quote and the backslash cannot stand for themselves. -/
  | literal {c : Char} (hcontrol : ' ' ≤ c) (hquote : c ≠ '"') (hbackslash : c ≠ '\\') :
    SpellsChar c [c]
  | letter {letter c : Char} (h : (letter, c) ∈ letterEscapes) : SpellsChar c ['\\', letter]
  | unit {c : Char} {t : List Char} (hc : c.toNat < 0x10000) (h : SpellsUnit c.toNat t) :
    SpellsChar c t
  /-- Beyond sixteen bits there are two units, ten bits in each. -/
  | pair {c : Char} {t u : List Char} (hc : 0x10000 ≤ c.toNat)
    (hhigh : SpellsUnit (0xd800 + (c.toNat - 0x10000) / 0x400) t)
    (hlow : SpellsUnit (0xdc00 + (c.toNat - 0x10000) % 0x400) u) : SpellsChar c (t ++ u)

/-- The texts of the characters of a string. -/
inductive SpellsChars : List Char → List Char → Prop where
  | nil : SpellsChars [] []
  | cons {c : Char} {s t u : List Char} (hc : SpellsChar c t) (hs : SpellsChars s u) :
    SpellsChars (c :: s) (t ++ u)

/-- A text of characters that may stand for themselves. -/
def Verbatim (s : List Char) : Prop := ∀ c ∈ s, ' ' ≤ c ∧ c ≠ '"' ∧ c ≠ '\\'

instance (s : List Char) : Decidable (Verbatim s) := List.decidableBAll _ s

theorem SpellsChars.literal {s : List Char} (h : Verbatim s) : SpellsChars s s := by
  induction s with
  | nil => exact .nil
  | cons c s ih =>
    obtain ⟨hcontrol, hquote, hbackslash⟩ := h c List.mem_cons_self
    have hs : Verbatim s := fun d hd => h d (List.mem_cons_of_mem c hd)
    exact .cons (.literal hcontrol hquote hbackslash) (ih hs)

/-- The texts of a key: a string with blanks around it. -/
def SpellsKey (key : String) (t : List Char) : Prop :=
  ∃ before body after, Blanks before ∧ SpellsChars key.toList body ∧ Blanks after ∧
    t = before ++ '"' :: body ++ '"' :: after

theorem SpellsKey.literal {key : String} (h : Verbatim key.toList)
    (before after : List Char) (hbefore : Blanks before) (hafter : Blanks after) :
    SpellsKey key (before ++ '"' :: key.toList ++ '"' :: after) :=
  ⟨before, _, after, hbefore, .literal h, hafter, rfl⟩

/-! ### Values -/

/-- A member of an object with the texts of its key and its value. -/
structure SpelledMember where
  key : String
  keyText : List Char
  value : Json
  valueText : List Char

/-- The text of a member. -/
def SpelledMember.chars (m : SpelledMember) : List Char := m.keyText ++ ':' :: m.valueText

/-- The texts of a value, with or without blanks around them. -/
inductive Spells : Json → List Char → Prop where
  | null : Spells .null "null".toList
  | true : Spells (.bool true) "true".toList
  | false : Spells (.bool false) "false".toList
  | nat {n : Nat} (h : Binary64.digitCount n ≤ digitLimit) : Spells (.int n) (Nat.toDigits 10 n)
  /-- A zero may be negative. -/
  | neg {n : Nat} (h : Binary64.digitCount n ≤ digitLimit) :
    Spells (.int (-n)) ('-' :: Nat.toDigits 10 n)
  | str {s : String} {t : List Char} (h : SpellsChars s.toList t) :
    Spells (.str s) ('"' :: t ++ ['"'])
  | emptyArr {blanks : List Char} (h : Blanks blanks) : Spells (.arr []) ('[' :: blanks ++ [']'])
  | arr {items : List (Json × List Char)} (hne : items ≠ []) (h : ∀ i ∈ items, Spells i.1 i.2) :
    Spells (.arr (items.map Prod.fst)) ('[' :: [','].intercalate (items.map Prod.snd) ++ [']'])
  | emptyObj {blanks : List Char} (h : Blanks blanks) :
    Spells (.obj []) ('\x7b' :: blanks ++ ['\x7d'])
  | obj {members : List SpelledMember} (hne : members ≠ [])
    (hkeys : ∀ m ∈ members, SpellsKey m.key m.keyText)
    (h : ∀ m ∈ members, Spells m.value m.valueText) :
    Spells (.obj (members.map fun m => (m.key, m.value)))
      ('\x7b' :: [','].intercalate (members.map SpelledMember.chars) ++ ['\x7d'])
  | before {v : Json} {blanks t : List Char} (hblanks : Blanks blanks) (h : Spells v t) :
    Spells v (blanks ++ t)
  | after {v : Json} {blanks t : List Char} (h : Spells v t) (hblanks : Blanks blanks) :
    Spells v (t ++ blanks)

end Json

end TypeText

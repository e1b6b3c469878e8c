import TypeText.Proofs.Json.Spelling

/-!
# Strings and integers are read

A string is read in two steps: its characters and escapes give code units, and the
units give characters.  Each text of a character gives one unit or the two halves of a
surrogate pair, and these stand for the character whatever follows: a half never joins
with a neighbour.  An integer is read up to the first character that cannot go on with
it.

## Main definitions

* `Reader.EndsNumber` — nothing at the start of a text continues a number.
* `Reader.NoDigit` — no digit stands at the start of a text.

## Main results

* `exists_stringBody_eq` — every text of a character gives units that stand for it.
* `string_of_spellsChars` — **every text of a string is read as the string**, whatever
  follows it.
* `scalar_toDigits` — integers within the limit are read.
-/

set_option autoImplicit false

namespace TypeText

namespace Json

namespace Reader

/-! ### Numeric escapes -/

theorem hexValue?_digitChar : ∀ {k : Nat}, k < 16 → hexValue? k.digitChar = some k := by
  decide

/-- The case of a digit does not matter. -/
theorem hexValue?_toLower (c : Char) : hexValue? c.toLower = hexValue? c := by
  by_cases hascii : c.toNat < 128
  · have hall : ∀ n < 128, hexValue? (Char.ofNat n).toLower = hexValue? (Char.ofNat n) := by
      decide
    simpa only [Char.ofNat_toNat] using hall c.toNat hascii
  · -- beyond ASCII no character has another case
    have hsame : c.toLower = c := dif_neg fun h =>
      hascii (Nat.lt_of_le_of_lt (UInt32.le_iff_toNat_le.mp h.2) (by decide))
    rw [hsame]

theorem hexValue?_of_toLower_eq {c : Char} {n : Nat} (h : c.toLower = (n % 16).digitChar) :
    hexValue? c = some (n % 16) := by
  rw [← hexValue?_toLower, h, hexValue?_digitChar (Nat.mod_lt n (by decide))]

/-- The digits of a unit give the unit. -/
theorem exists_of_map_toLower_eq {unit : Nat} (hunit : unit < 0x10000) {ds : List Char}
    (hds : ds.map Char.toLower = hexDigits 4 unit) :
    ∃ d₁ d₂ d₃ d₄, ds = [d₁, d₂, d₃, d₄] ∧ hexUnit? d₁ d₂ d₃ d₄ = some unit := by
  simp only [hexDigits, List.nil_append, List.cons_append, List.map_eq_cons_iff,
    List.map_eq_nil_iff] at hds
  obtain ⟨d₁, _, rfl, h₁, d₂, _, rfl, h₂, d₃, _, rfl, h₃, d₄, _, rfl, h₄, rfl⟩ := hds
  refine ⟨d₁, d₂, d₃, d₄, rfl, ?_⟩
  simp only [hexUnit?, hexValue?_of_toLower_eq h₁, hexValue?_of_toLower_eq h₂,
    hexValue?_of_toLower_eq h₃, hexValue?_of_toLower_eq h₄, Option.bind_eq_bind, Option.bind_some,
    pure, Option.some.injEq]
  omega

/-- Four digits after a backslash and a letter give their unit, if the text goes on. -/
theorem stringBody_numeric {d₁ d₂ d₃ d₄ : Char} {unit : Nat}
    (h : hexUnit? d₁ d₂ d₃ d₄ = some unit) {rest : List Char} (hrest : rest ≠ []) :
    stringBody ('\\' :: 'u' :: d₁ :: d₂ :: d₃ :: d₄ :: rest) = consUnit unit (stringBody rest) := by
  obtain ⟨next, rest, rfl⟩ := List.exists_cons_of_ne_nil hrest
  rw [stringBody, if_neg (by decide), if_pos rfl]
  simp only [h]

/-- A numeric escape gives its unit, if the text goes on. -/
theorem stringBody_of_spellsUnit {unit : Nat} (hunit : unit < 0x10000) {t : List Char}
    (ht : SpellsUnit unit t) {rest : List Char} (hrest : rest ≠ []) :
    stringBody (t ++ rest) = consUnit unit (stringBody rest) := by
  obtain ⟨ds, hds, rfl⟩ := ht
  obtain ⟨d₁, d₂, d₃, d₄, rfl, hvalue⟩ := exists_of_map_toLower_eq hunit hds
  exact stringBody_numeric hvalue hrest

theorem shortEscape?_of_mem {letter c : Char} (h : (letter, c) ∈ letterEscapes) :
    shortEscape? letter = some c ∧ letter ≠ 'u' ∧ c.toNat < 0x10000 := by
  simp only [letterEscapes, List.mem_cons, Prod.mk.injEq, List.not_mem_nil, or_false] at h
  rcases h with ⟨rfl, rfl⟩ | ⟨rfl, rfl⟩ | ⟨rfl, rfl⟩ | ⟨rfl, rfl⟩ | ⟨rfl, rfl⟩ | ⟨rfl, rfl⟩ |
    ⟨rfl, rfl⟩ | ⟨rfl, rfl⟩ <;> decide

/-- A backslash and a letter give the unit of their character. -/
theorem stringBody_letter {letter c : Char} (h : (letter, c) ∈ letterEscapes) (rest : List Char) :
    stringBody ('\\' :: letter :: rest) = consUnit c.toNat (stringBody rest) := by
  obtain ⟨hletter, hu, -⟩ := shortEscape?_of_mem h
  rw [stringBody.eq_def]
  simp only [if_neg (show '\\' ≠ '"' by decide), if_true]
  -- the cases of a numeric escape do not apply
  split
  · next heq => simp at heq
  · next heq => exact absurd (List.cons.inj heq).1 hu
  · next heq => exact absurd (List.cons.inj heq).1 hu
  · next heq =>
    obtain ⟨rfl, rfl⟩ := List.cons.inj heq
    rw [hletter]

/-- Any other character gives its own unit. -/
theorem stringBody_literal {c : Char} (hcontrol : ' ' ≤ c) (hquote : c ≠ '"')
    (hbackslash : c ≠ '\\') (rest : List Char) :
    stringBody (c :: rest) = consUnit c.toNat (stringBody rest) := by
  have hlow : 32 ≤ c.toNat := UInt32.le_iff_toNat_le.mp hcontrol
  rw [stringBody.eq_def]
  simp only [if_neg hquote, if_neg hbackslash]
  rw [if_neg (by omega)]

/-- The closing quote ends a string. -/
theorem stringBody_quote (rest : List Char) : stringBody ('"' :: rest) = .ok ([], rest) := by
  rw [stringBody.eq_def]
  exact if_pos rfl

/-! ### Strings -/

/-- A character is no half of a surrogate pair, and not too large. -/
theorem toNat_valid (c : Char) :
    c.toNat < 0xd800 ∨ 0xdfff < c.toNat ∧ c.toNat < 0x110000 :=
  c.valid

/-- A character is its own unit, whatever follows. -/
theorem decodeUnits_toNat (c : Char) (rest : List Nat) :
    decodeUnits (c.toNat :: rest) = c :: decodeUnits rest := by
  have hvalid := toNat_valid c
  have hhigh : isHighSurrogate c.toNat = false := by
    simp only [isHighSurrogate, Bool.and_eq_false_iff, decide_eq_false_iff_not]
    omega
  have hlow : isLowSurrogate c.toNat = false := by
    simp only [isLowSurrogate, Bool.and_eq_false_iff, decide_eq_false_iff_not]
    omega
  have hunit : ofUnit c.toNat = c := by
    rw [ofUnit, hhigh, hlow, Bool.false_or, if_neg Bool.false_ne_true, Char.ofNat_toNat]
  cases rest with
  | nil => rw [decodeUnits, decodeUnits, hunit]
  | cons low rest => rw [decodeUnits, hhigh, Bool.false_and, if_neg Bool.false_ne_true, hunit]

/-- Beyond sixteen bits the two halves of a pair join to the character again. -/
theorem decodeUnits_pair {c : Char} (hc : 0x10000 ≤ c.toNat) (rest : List Nat) :
    decodeUnits ((0xd800 + (c.toNat - 0x10000) / 0x400) ::
      (0xdc00 + (c.toNat - 0x10000) % 0x400) :: rest) = c :: decodeUnits rest := by
  have hvalid := toNat_valid c
  have hjoin : joinSurrogates (0xd800 + (c.toNat - 0x10000) / 0x400)
      (0xdc00 + (c.toNat - 0x10000) % 0x400) = c.toNat := by
    unfold joinSurrogates
    omega
  have hpair : (isHighSurrogate (0xd800 + (c.toNat - 0x10000) / 0x400) &&
      isLowSurrogate (0xdc00 + (c.toNat - 0x10000) % 0x400)) = true := by
    simp only [isHighSurrogate, isLowSurrogate, Bool.and_eq_true, decide_eq_true_eq]
    omega
  rw [decodeUnits, if_pos hpair, hjoin, Char.ofNat_toNat]

/-- Every text of a character gives units that stand for it, if the text goes on. -/
theorem exists_stringBody_eq {c : Char} {t : List Char} (h : SpellsChar c t)
    {rest : List Char} (hrest : rest ≠ []) :
    ∃ units, stringBody (t ++ rest) = (stringBody rest).map (fun p => (units ++ p.1, p.2)) ∧
      ∀ more, decodeUnits (units ++ more) = c :: decodeUnits more := by
  cases h with
  | literal hcontrol hquote hbackslash =>
    exact ⟨[c.toNat], stringBody_literal hcontrol hquote hbackslash rest, decodeUnits_toNat c⟩
  | letter hletter => exact ⟨[c.toNat], stringBody_letter hletter rest, decodeUnits_toNat c⟩
  | unit hc ht => exact ⟨[c.toNat], stringBody_of_spellsUnit hc ht hrest, decodeUnits_toNat c⟩
  | pair hc hhigh hlow =>
    -- the first escape is followed by the second one, so that the text goes on after it
    have hvalid := toNat_valid c
    refine ⟨[_, _], ?_, decodeUnits_pair hc⟩
    rw [List.append_assoc, stringBody_of_spellsUnit (by omega) hhigh (by simp [hrest]),
      stringBody_of_spellsUnit (by omega) hlow hrest]
    cases stringBody rest <;> rfl

/-- Every text of characters gives units that stand for them. -/
theorem exists_stringBody_eq_ok {s t : List Char} (h : SpellsChars s t) (rest : List Char) :
    ∃ units, stringBody (t ++ '"' :: rest) = .ok (units, rest) ∧ decodeUnits units = s := by
  induction h with
  | nil => exact ⟨[], stringBody_quote rest, rfl⟩
  | @cons c s t u hc _ ih =>
    obtain ⟨units, hbody, hdecode⟩ := ih
    -- the closing quote is there, so that no escape stands at the end of the text
    have hrest : u ++ '"' :: rest ≠ [] := by simp
    obtain ⟨first, hfirst, hdecode'⟩ := exists_stringBody_eq hc hrest
    refine ⟨first ++ units, ?_, by rw [hdecode', hdecode]⟩
    rw [List.append_assoc, hfirst, hbody]
    rfl

/-- **Every text of a string is read as the string**, whatever follows it. -/
theorem string_of_spellsChars {s : String} {t : List Char} (h : SpellsChars s.toList t)
    (rest : List Char) : string (t ++ '"' :: rest) = .ok (s, rest) := by
  obtain ⟨units, hbody, hdecode⟩ := exists_stringBody_eq_ok h rest
  rw [string, hbody]
  dsimp only [Except.map]
  rw [hdecode, String.ofList_toList]

/-! ### Integers -/

/-- Characters that a test tells apart are different. -/
theorem ne_of_test {p : Char → Bool} {c d : Char} (hc : p c) (hd : p d = false) : c ≠ d := by
  rintro rfl
  rw [hc] at hd
  exact Bool.noConfusion hd

/-- The characters that can go on with a number. -/
def continuesNumber (c : Char) : Bool := c.isDigit || c == '.' || c == 'e' || c == 'E'

/-- Nothing at the start of a text continues a number. -/
def EndsNumber (rest : List Char) : Prop := ∀ c ∈ rest.head?, continuesNumber c = false

theorem endsNumber_cons {c : Char} (hc : continuesNumber c = false) (s : List Char) :
    EndsNumber (c :: s) := by
  intro d hd
  obtain rfl := Option.some.inj hd
  exact hc

theorem EndsNumber.ne {c d : Char} {s : List Char} (h : EndsNumber (c :: s))
    (hd : continuesNumber d) : c ≠ d :=
  (ne_of_test hd (h c rfl)).symm

/-- No digit stands at the start of a text. -/
def NoDigit (rest : List Char) : Prop := ∀ c ∈ rest.head?, c.isDigit = false

theorem EndsNumber.noDigit {rest : List Char} (h : EndsNumber rest) : NoDigit rest := by
  intro c hc
  have hends := h c hc
  simp only [continuesNumber, Bool.or_eq_false_iff] at hends
  exact hends.1.1.1

/-- Digits are read up to the first character that is none. -/
theorem digits_append {ds rest : List Char} (hds : ∀ c ∈ ds, c.isDigit)
    (hrest : NoDigit rest) : digits (ds ++ rest) = (ds, rest) := by
  have hnone : rest.takeWhile Char.isDigit = [] ∧ rest.dropWhile Char.isDigit = rest := by
    cases rest with
    | nil => exact ⟨rfl, rfl⟩
    | cons c rest =>
      have hc : c.isDigit = false := hrest c rfl
      exact ⟨List.takeWhile_cons_of_neg (by simp [hc]), List.dropWhile_cons_of_neg (by simp [hc])⟩
  rw [digits, List.takeWhile_append_of_pos hds, List.dropWhile_append_of_pos hds, hnone.1, hnone.2,
    List.append_nil]

theorem fractionPart_of_ends {rest : List Char} (h : EndsNumber rest) :
    fractionPart rest = (none, rest) := by
  unfold fractionPart
  split
  · exact absurd rfl (h.ne (d := '.') rfl)
  · rfl

theorem exponentPart_of_ends {rest : List Char} (h : EndsNumber rest) :
    exponentPart rest = (none, rest) := by
  cases rest with
  | nil => rfl
  | cons c rest =>
    have he : ¬(c = 'e' ∨ c = 'E') := not_or.mpr ⟨h.ne rfl, h.ne rfl⟩
    rw [exponentPart, if_neg fun hmark => he hmark.1]

theorem digitChar_ne_zero : ∀ {k : Nat}, k < 10 → 0 < k → k.digitChar ≠ '0' := by
  decide

/-- The digits of a number are at least one; a zero in front stands for zero. -/
theorem exists_toDigits_eq_cons (n : Nat) :
    ∃ c ds, Nat.toDigits 10 n = c :: ds ∧ (∀ d ∈ c :: ds, d.isDigit) ∧ (c = '0' → n = 0) := by
  obtain ⟨c, ds, hds⟩ := List.exists_cons_of_ne_nil (Nat.toDigits_ne_nil (n := n) (b := 10))
  refine ⟨c, ds, hds, fun d hd => ?_, ?_⟩
  · exact Nat.isDigit_of_mem_toDigits (b := 10) (n := n) (by decide) (by decide) (hds ▸ hd)
  · -- by induction: dropping the last digit of a longer number keeps the first one
    induction n using Nat.strongRecOn generalizing c ds with
    | ind n ih =>
      rintro rfl
      by_cases hlt : n < 10
      · rw [Nat.toDigits_of_lt_base hlt, List.cons.injEq] at hds
        exact Nat.eq_zero_of_not_pos fun hpos => digitChar_ne_zero hlt hpos hds.1
      · rw [Nat.toDigits_of_base_le (by decide) (by omega)] at hds
        obtain ⟨d, es, hes⟩ :=
          List.exists_cons_of_ne_nil (Nat.toDigits_ne_nil (n := n / 10) (b := 10))
        rw [hes, List.cons_append, List.cons.injEq] at hds
        have := ih (n / 10) (by omega) d es hes hds.1
        omega

/-- The digits of a number are an integer part. -/
theorem integerPart?_toDigits (n : Nat) {rest : List Char} (hrest : EndsNumber rest) :
    integerPart? (Nat.toDigits 10 n ++ rest) = some (Nat.toDigits 10 n, rest) := by
  obtain ⟨c, ds, hds, hdigits, hzero⟩ := exists_toDigits_eq_cons n
  by_cases hc : c = '0'
  · -- the zero that stands alone
    rw [hzero hc]
    rfl
  · rw [hds, List.cons_append, integerPart?, if_neg hc, if_pos (hdigits c List.mem_cons_self),
      digits_append (fun d hd => hdigits d (List.mem_cons_of_mem _ hd)) hrest.noDigit]

theorem numberValue_toDigits (negative : Bool) {n : Nat} (hn : Binary64.digitCount n ≤ digitLimit) :
    numberValue negative (Nat.toDigits 10 n) none none = .ok (.int (signed negative n)) := by
  rw [Binary64.digitCount] at hn
  rw [numberValue, if_neg (Nat.not_lt.mpr hn), Nat.ofDigitChars_ten_toDigits]

/-- A number within the limit is read, and with a minus its negative. -/
theorem number_toDigits {n : Nat} (hn : Binary64.digitCount n ≤ digitLimit) {rest : List Char}
    (hrest : EndsNumber rest) :
    number (Nat.toDigits 10 n ++ rest) = .ok (.int n, rest) ∧
      number ('-' :: Nat.toDigits 10 n ++ rest) = .ok (.int (-n), rest) := by
  obtain ⟨c, ds, hds, hdigits, -⟩ := exists_toDigits_eq_cons n
  have hsign : ((Nat.toDigits 10 n ++ rest).head? == some '-') = false := by
    rw [hds]
    simpa using ne_of_test (hdigits c List.mem_cons_self) (d := '-') rfl
  constructor
  · rw [number, hsign]
    simp only [Bool.false_eq_true, if_false, integerPart?_toDigits n hrest,
      fractionPart_of_ends hrest, exponentPart_of_ends hrest, numberValue_toDigits false hn]
    rfl
  · rw [number]
    simp only [List.cons_append, List.head?_cons, beq_self_eq_true, if_true, List.tail_cons,
      integerPart?_toDigits n hrest, fractionPart_of_ends hrest, exponentPart_of_ends hrest,
      numberValue_toDigits true hn]
    rfl

/-- A text that starts with a digit, after a minus or without one, starts with no word. -/
theorem word?_of_isDigit {c : Char} (hc : c.isDigit) (s : List Char) :
    word? (c :: s) = none ∧ word? ('-' :: c :: s) = none := by
  have hne : 'n' ≠ c ∧ 't' ≠ c ∧ 'f' ≠ c ∧ 'N' ≠ c ∧ 'I' ≠ c ∧ '-' ≠ c := by
    refine ⟨?_, ?_, ?_, ?_, ?_, ?_⟩ <;> exact (ne_of_test hc rfl).symm
  simp [word?, words, hne]

/-- The same for a scalar: the digits start no word. -/
theorem scalar_toDigits {n : Nat} (hn : Binary64.digitCount n ≤ digitLimit) {rest : List Char}
    (hrest : EndsNumber rest) :
    scalar (Nat.toDigits 10 n ++ rest) = .ok (.int n, rest) ∧
      scalar ('-' :: Nat.toDigits 10 n ++ rest) = .ok (.int (-n), rest) := by
  obtain ⟨c, ds, hds, hdigits, -⟩ := exists_toDigits_eq_cons n
  obtain ⟨hword, hword'⟩ := word?_of_isDigit (hdigits c List.mem_cons_self) (ds ++ rest)
  obtain ⟨hnumber, hnumber'⟩ := number_toDigits hn hrest
  rw [hds] at hnumber hnumber' ⊢
  simp only [List.cons_append] at hnumber hnumber' ⊢
  rw [scalar, scalar, hword, hword']
  exact ⟨hnumber, hnumber'⟩

end Reader

end Json

end TypeText

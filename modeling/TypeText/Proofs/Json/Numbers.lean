import TypeText.Proofs.Json.Language
import TypeText.Proofs.Json.Scalar

/-!
# Reading numbers

A number is read part by part: digits, a fraction, an exponent, each as long as it can be.  What is
read is a number of the grammar, or an integer with too many digits that nothing after it continues,
and both are read wherever they stand.

## Main results

* `digits_spec`, `integerPart?_eq_some`, `fractionPart_cases`, `exponentPart_cases` — what each part
  takes from a text, and what it leaves.
* `number_cases` — **a number is read, is too long, or is none.**
* `exists_number_eq_ok`, `number_of_longInteger` — numbers are read, and integers that are too long
  are found to be so.
-/

set_option autoImplicit false

namespace TypeText

namespace Json

namespace Reader

/-! ### Digits -/

/-- Digits are taken from a text as long as there are any. -/
theorem digits_spec (s : List Char) :
    (∀ c ∈ (digits s).1, c.isDigit) ∧ NoDigit (digits s).2 ∧ s = (digits s).1 ++ (digits s).2 := by
  refine ⟨List.all_eq_true.mp List.all_takeWhile, ?_, List.takeWhile_append_dropWhile.symm⟩
  intro c hc
  have hhead := List.head?_dropWhile_not Char.isDigit s
  rw [show (s.dropWhile Char.isDigit).head? = some c from hc] at hhead
  simpa using hhead

theorem digits_of_noDigit {s : List Char} (h : NoDigit s) : digits s = ([], s) :=
  @digits_append [] s (by simp) h

theorem noDigit_cons {c : Char} (hc : c.isDigit = false) (s : List Char) : NoDigit (c :: s) := by
  intro d hd
  obtain rfl := Option.some.inj hd
  exact hc

/-- Digits are found at the start of a text that has one there. -/
theorem digitsText_digits {s : List Char} (h : ¬ NoDigit s) : DigitsText (digits s).1 := by
  obtain ⟨hdigits, hrest, hs⟩ := digits_spec s
  refine ⟨fun hnil => h ?_, hdigits⟩
  rw [hnil, List.nil_append] at hs
  rwa [hs]

theorem not_noDigit_append {t : List Char} (h : DigitsText t) (rest : List Char) :
    ¬ NoDigit (t ++ rest) := by
  obtain ⟨hne, hdigits⟩ := h
  obtain ⟨c, cs, rfl⟩ := List.exists_cons_of_ne_nil hne
  intro hno
  have hc : c.isDigit = false := hno c rfl
  rw [hdigits c List.mem_cons_self] at hc
  contradiction

/-! ### The digits before the point -/

/-- The digits before the point are all of them, unless they are a zero. -/
theorem integerPart?_eq_some {s whole rest : List Char} (h : integerPart? s = some (whole, rest)) :
    WholeText whole ∧ s = whole ++ rest ∧ (1 < whole.length → NoDigit rest) := by
  cases s with
  | nil => cases h
  | cons c s =>
    rw [integerPart?] at h
    split at h
    · -- a zero is taken alone, even if digits follow
      next hc =>
      obtain ⟨rfl, rfl⟩ := Prod.mk.inj (Option.some.inj h)
      refine ⟨⟨⟨by simp, ?_⟩, fun _ => rfl⟩, by rw [hc]; rfl, ?_⟩
      · intro d hd
        rw [List.mem_singleton.mp hd]
        rfl
      · intro hlong
        exact absurd hlong (by decide)
    · next hc =>
      split at h
      · -- any other digit takes all that follow
        next hdigit =>
        obtain ⟨rfl, rfl⟩ := Prod.mk.inj (Option.some.inj h)
        obtain ⟨hdigits, hrest, hs⟩ := digits_spec s
        refine ⟨⟨⟨by simp, ?_⟩, ?_⟩, ?_, fun _ => hrest⟩
        · exact List.forall_mem_cons.mpr ⟨hdigit, hdigits⟩
        · intro hzero
          exact absurd (Option.some.inj hzero) hc
        · rw [List.cons_append, ← hs]
      · cases h

theorem integerPart?_append {whole rest : List Char} (h : WholeText whole) (hrest : NoDigit rest) :
    integerPart? (whole ++ rest) = some (whole, rest) := by
  obtain ⟨⟨hne, hdigits⟩, hzero⟩ := h
  obtain ⟨c, cs, rfl⟩ := List.exists_cons_of_ne_nil hne
  obtain ⟨hc, hcs⟩ := List.forall_mem_cons.mp hdigits
  rw [List.cons_append, integerPart?]
  by_cases hfirst : c = '0'
  · subst hfirst
    obtain ⟨-, rfl⟩ := List.cons.inj (hzero rfl)
    exact if_pos rfl
  · rw [if_neg hfirst, if_pos hc, digits_append hcs hrest]

/-! ### Fractions -/

/-- A fraction is read where one stands, and nothing else is. -/
theorem fractionPart_cases (s : List Char) :
    (fractionPart s = (none, s) ∧ ∀ t rest, FractionText t → s ≠ t ++ rest) ∨
      ∃ ds t rest, FractionText t ∧ s = t ++ rest ∧ fractionPart s = (some ds, rest) := by
  unfold fractionPart
  split
  · next r =>
    by_cases hdigits : NoDigit r
    · -- a point without digits is left where it is
      refine .inl ⟨?_, ?_⟩
      · rw [digits_of_noDigit hdigits]
        rfl
      · rintro t rest ⟨ds, hds, rfl⟩ hs
        obtain ⟨-, rfl⟩ := List.cons.inj hs
        exact not_noDigit_append hds rest hdigits
    · have hds := digitsText_digits hdigits
      refine .inr ⟨_, _, _, ⟨_, hds, rfl⟩, ?_, if_neg ?_⟩
      · rw [List.cons_append, ← (digits_spec r).2.2]
      · simpa using hds.1
  · next hne =>
    refine .inl ⟨rfl, ?_⟩
    rintro t rest ⟨ds, -, rfl⟩ rfl
    exact hne _ rfl

theorem fractionPart_of_head?_ne {s : List Char} (h : s.head? ≠ some '.') :
    fractionPart s = (none, s) := by
  rcases fractionPart_cases s with ⟨hs, -⟩ | ⟨_, _, _, ⟨ds, -, rfl⟩, rfl, -⟩
  · exact hs
  · exact absurd rfl h

theorem noDigit_fraction {t : List Char} (ht : FractionText t) (rest : List Char) :
    NoDigit (t ++ rest) := by
  obtain ⟨ds, -, rfl⟩ := ht
  exact noDigit_cons rfl _

theorem exists_fractionPart_append {t : List Char} (ht : FractionText t) :
    ∃ ds, ∀ rest, NoDigit rest → fractionPart (t ++ rest) = (some ds, rest) := by
  obtain ⟨ds, ⟨hne, hds⟩, rfl⟩ := ht
  refine ⟨ds, fun rest hrest => ?_⟩
  rw [List.cons_append, fractionPart, digits_append hds hrest]
  exact if_neg (by simpa using hne)

/-! ### Exponents -/

/-- A sign is taken from a text if there is one. -/
theorem exists_sign_eq (s : List Char) : ∃ t ∈ [[], ['+'], ['-']], s = t ++ (sign s).2 := by
  unfold sign
  split
  · exact ⟨['-'], by simp, rfl⟩
  · exact ⟨['+'], by simp, rfl⟩
  · exact ⟨[], by simp, rfl⟩

/-- Digits do not start with a sign. -/
theorem exists_sign_append {t ds : List Char} (ht : t ∈ [[], ['+'], ['-']]) (hds : DigitsText ds) :
    ∃ negative, ∀ rest, sign (t ++ (ds ++ rest)) = (negative, ds ++ rest) := by
  simp only [List.mem_cons, List.not_mem_nil, or_false] at ht
  rcases ht with rfl | rfl | rfl
  · -- no sign: the first digit is not taken for one
    obtain ⟨hne, hdigits⟩ := hds
    obtain ⟨d, ds, rfl⟩ := List.exists_cons_of_ne_nil hne
    have hd : d.isDigit := hdigits d List.mem_cons_self
    refine ⟨false, fun rest => ?_⟩
    unfold sign
    split
    · next h => exact absurd (List.cons.inj h).1 (ne_of_test hd rfl)
    · next h => exact absurd (List.cons.inj h).1 (ne_of_test hd rfl)
    · rfl
  · exact ⟨false, fun _ => rfl⟩
  · exact ⟨true, fun _ => rfl⟩

/-- An exponent is read where one stands, and nothing else is. -/
theorem exponentPart_cases (s : List Char) :
    (exponentPart s = (none, s) ∧ ∀ t rest, ExponentText t → s ≠ t ++ rest) ∨
      ∃ e t rest, ExponentText t ∧ s = t ++ rest ∧ exponentPart s = (some e, rest) := by
  cases s with
  | nil =>
    refine .inl ⟨rfl, ?_⟩
    rintro t rest ⟨mark, sg, ds, -, -, -, rfl⟩ h
    cases h
  | cons c s =>
    -- a mark alone is no exponent: digits have to stand after it and its sign
    by_cases h : (c = 'e' ∨ c = 'E') ∧ ¬ NoDigit (sign s).2
    · obtain ⟨hmark, hdigits⟩ := h
      have hds := digitsText_digits hdigits
      obtain ⟨sg, hsg, hs⟩ := exists_sign_eq s
      refine .inr ⟨_, _, _, ⟨c, sg, _, hmark, hsg, hds, rfl⟩, ?_, if_pos ⟨hmark, ?_⟩⟩
      · rw [List.cons_append, List.append_assoc, ← (digits_spec (sign s).2).2.2, ← hs]
      · simpa using hds.1
    · refine .inl ⟨if_neg ?_, ?_⟩
      · rintro ⟨hmark, hdigits⟩
        refine h ⟨hmark, fun hno => ?_⟩
        rw [digits_of_noDigit hno] at hdigits
        contradiction
      · rintro t rest ⟨mark, sg, ds, hmark, hsg, hds, rfl⟩ hs
        rw [List.cons_append, List.append_assoc] at hs
        obtain ⟨rfl, rfl⟩ := List.cons.inj hs
        obtain ⟨negative, hsign⟩ := exists_sign_append hsg hds
        refine h ⟨hmark, ?_⟩
        rw [hsign]
        exact not_noDigit_append hds rest

/-- An exponent starts with its mark. -/
theorem exponent_start {t : List Char} (ht : ExponentText t) (rest : List Char) :
    NoDigit (t ++ rest) ∧ (t ++ rest).head? ≠ some '.' := by
  obtain ⟨mark, sg, ds, hmark, -, -, rfl⟩ := ht
  rcases hmark with rfl | rfl
  · exact ⟨noDigit_cons rfl _, by simp⟩
  · exact ⟨noDigit_cons rfl _, by simp⟩

theorem exists_exponentPart_append {t : List Char} (ht : ExponentText t) :
    ∃ e, ∀ rest, NoDigit rest → exponentPart (t ++ rest) = (some e, rest) := by
  obtain ⟨mark, sg, ds, hmark, hsg, hds, rfl⟩ := ht
  obtain ⟨negative, hsign⟩ := exists_sign_append hsg hds
  refine ⟨signed negative (Nat.ofDigitChars 10 ds 0), fun rest hrest => ?_⟩
  rw [List.cons_append, List.append_assoc, exponentPart, hsign, digits_append hds.2 hrest]
  exact if_pos ⟨hmark, by simpa using hds.1⟩

/-! ### Numbers -/

/-- A sign is taken from the front of a number. -/
theorem exists_minus_eq (s : List Char) :
    ∃ t u, SignText t ∧ s = t ++ u ∧ (if s.head? == some '-' then s.tail else s) = u := by
  by_cases h : s.head? = some '-'
  · obtain ⟨u, rfl⟩ := List.head?_eq_some_iff.mp h
    exact ⟨['-'], u, .inr rfl, rfl, rfl⟩
  · exact ⟨[], s, .inl rfl, rfl, if_neg (by simpa using h)⟩

/-- **A number is read, or it is an integer with too many digits, or there is none.** -/
theorem number_cases (s : List Char) :
    number s = fail .expectedValue ∨
      (∃ v t rest, NumberText t ∧ s = t ++ rest ∧ number s = .ok (v, rest)) ∨
      ∃ n t rest, LongInteger n t ∧ ¬ ContinuesNumber rest ∧ s = t ++ rest ∧
        number s = .error (.integerTooLong n) := by
  obtain ⟨sg, u, hsg, hs, hu⟩ := exists_minus_eq s
  unfold number
  dsimp only
  rw [hu]
  cases hpart : integerPart? u with
  | none => exact .inl rfl
  | some p =>
    obtain ⟨whole, r⟩ := p
    obtain ⟨hwhole, hr, hlong⟩ := integerPart?_eq_some hpart
    subst hs hr
    dsimp only
    rcases fractionPart_cases r with ⟨hf, hnofraction⟩ | ⟨ds, f, r, hfraction, rfl, hf⟩ <;> rw [hf]
    · rcases exponentPart_cases r with ⟨he, hnoexponent⟩ | ⟨k, e, r, hexponent, rfl, he⟩ <;> rw [he]
      · by_cases hlimit : digitLimit < whole.length
        · -- too many digits, and no digit, fraction or exponent after them
          rw [numberValue, if_pos hlimit]
          refine .inr (.inr ⟨_, _, r, ⟨sg, whole, hsg, hwhole, rfl, hlimit, rfl⟩, ?_, by simp, rfl⟩)
          rintro ⟨t, rest, ht, rfl⟩
          rcases ht with ht | ht | ht
          · -- a zero stands alone, so that these digits are not one
            exact not_noDigit_append ht rest (hlong (Nat.lt_trans (by decide) hlimit))
          · exact hnofraction t rest ht rfl
          · exact hnoexponent t rest ht rfl
        · rw [numberValue, if_neg hlimit]
          exact .inr (.inl ⟨_, _, r, .integer hsg hwhole (Nat.le_of_not_lt hlimit), by simp, rfl⟩)
      · exact .inr (.inl ⟨_, _, r, .exponent hsg hwhole hexponent, by simp, rfl⟩)
    · -- with a fraction the limit does not count
      rcases exponentPart_cases r with ⟨he, -⟩ | ⟨k, e, r, hexponent, rfl, he⟩ <;> rw [he]
      · exact .inr (.inl ⟨_, _, r, .fraction hsg hwhole hfraction, by simp, rfl⟩)
      · exact .inr (.inl ⟨_, _, r, .both hsg hwhole hfraction hexponent, by simp, rfl⟩)

/-- The sign and the digits before the point are read; the rest decides about the value. -/
theorem exists_number_eq {sg whole : List Char} (hsg : SignText sg) (hwhole : WholeText whole) :
    ∃ negative, ∀ r, NoDigit r → number (sg ++ (whole ++ r)) =
      (numberValue negative whole (fractionPart r).1 (exponentPart (fractionPart r).2).1).map
        fun v => (v, (exponentPart (fractionPart r).2).2) := by
  have hstart : ∀ r, ((whole ++ r).head? == some '-') = false := by
    obtain ⟨c, cs, rfl⟩ := List.exists_cons_of_ne_nil hwhole.1.1
    simpa using ne_of_test (hwhole.1.2 c List.mem_cons_self) (d := '-') rfl
  rcases hsg with rfl | rfl
  · -- no digit is taken for a sign
    refine ⟨false, fun r hr => ?_⟩
    rw [List.nil_append, number, hstart]
    simp only [Bool.false_eq_true, if_false, integerPart?_append hwhole hr]
  · refine ⟨true, fun r hr => ?_⟩
    rw [List.singleton_append, number]
    simp only [List.head?_cons, beq_self_eq_true, if_true, List.tail_cons,
      integerPart?_append hwhole hr]

/-- Only an integer can have too many digits. -/
theorem exists_numberValue_eq_ok (negative : Bool) (whole : List Char)
    (fraction : Option (List Char)) (exponent : Option Int)
    (h : fraction.isSome ∨ exponent.isSome ∨ whole.length ≤ digitLimit) :
    ∃ v, numberValue negative whole fraction exponent = .ok v := by
  unfold numberValue
  split
  · -- neither fraction nor exponent
    have hlimit : ¬ digitLimit < whole.length := by simpa using h
    exact ⟨_, if_neg hlimit⟩
  · exact ⟨_, rfl⟩

/-- Every number of the grammar is read, as a value that does not depend on what follows. -/
theorem exists_number_eq_ok {t : List Char} (ht : NumberText t) :
    ∃ v, ∀ rest, EndsNumber rest → number (t ++ rest) = .ok (v, rest) := by
  -- each part ends where the next one starts, and the last where the number ends
  cases ht with
  | @integer _ whole hsg hwhole hlimit =>
    obtain ⟨negative, hnumber⟩ := exists_number_eq hsg hwhole
    obtain ⟨v, hv⟩ := exists_numberValue_eq_ok negative whole none none (.inr (.inr hlimit))
    refine ⟨v, fun rest hrest => ?_⟩
    rw [List.append_assoc, hnumber rest hrest.noDigit, fractionPart_of_ends hrest,
      exponentPart_of_ends hrest, hv]
    rfl
  | @fraction _ whole _ hsg hwhole hfraction =>
    obtain ⟨negative, hnumber⟩ := exists_number_eq hsg hwhole
    obtain ⟨ds, hf⟩ := exists_fractionPart_append hfraction
    obtain ⟨v, hv⟩ := exists_numberValue_eq_ok negative whole (some ds) none (.inl rfl)
    refine ⟨v, fun rest hrest => ?_⟩
    rw [List.append_assoc, List.append_assoc, hnumber _ (noDigit_fraction hfraction rest),
      hf rest hrest.noDigit, exponentPart_of_ends hrest, hv]
    rfl
  | @exponent _ whole _ hsg hwhole hexponent =>
    obtain ⟨negative, hnumber⟩ := exists_number_eq hsg hwhole
    obtain ⟨k, he⟩ := exists_exponentPart_append hexponent
    obtain ⟨v, hv⟩ := exists_numberValue_eq_ok negative whole none (some k) (.inr (.inl rfl))
    refine ⟨v, fun rest hrest => ?_⟩
    -- the mark of an exponent is neither a digit nor a point
    obtain ⟨hdigit, hpoint⟩ := exponent_start hexponent rest
    rw [List.append_assoc, List.append_assoc, hnumber _ hdigit, fractionPart_of_head?_ne hpoint,
      he rest hrest.noDigit, hv]
    rfl
  | @both _ whole _ _ hsg hwhole hfraction hexponent =>
    obtain ⟨negative, hnumber⟩ := exists_number_eq hsg hwhole
    obtain ⟨ds, hf⟩ := exists_fractionPart_append hfraction
    obtain ⟨k, he⟩ := exists_exponentPart_append hexponent
    obtain ⟨v, hv⟩ := exists_numberValue_eq_ok negative whole (some ds) (some k) (.inl rfl)
    refine ⟨v, fun rest hrest => ?_⟩
    obtain ⟨hdigit, -⟩ := exponent_start hexponent rest
    rw [List.append_assoc, List.append_assoc, List.append_assoc,
      hnumber _ (noDigit_fraction hfraction _), hf _ hdigit, he rest hrest.noDigit, hv]
    rfl

/-- An integer with too many digits is found to be one, whatever follows, unless that continues the
number. -/
theorem number_of_longInteger {n : Nat} {t rest : List Char} (ht : LongInteger n t)
    (hrest : ¬ ContinuesNumber rest) : number (t ++ rest) = .error (.integerTooLong n) := by
  obtain ⟨sg, whole, hsg, hwhole, hlength, hlimit, rfl⟩ := ht
  -- whatever else is read after the digits would continue the number
  have hdigit : NoDigit rest := Classical.byContradiction fun hdigit =>
    hrest ⟨_, _, .inl (digitsText_digits hdigit), (digits_spec rest).2.2⟩
  have hf : fractionPart rest = (none, rest) := by
    rcases fractionPart_cases rest with ⟨hf, -⟩ | ⟨_, t, r, ht, hr, -⟩
    · exact hf
    · exact absurd ⟨t, r, .inr (.inl ht), hr⟩ hrest
  have he : exponentPart rest = (none, rest) := by
    rcases exponentPart_cases rest with ⟨he, -⟩ | ⟨_, t, r, ht, hr, -⟩
    · exact he
    · exact absurd ⟨t, r, .inr (.inr ht), hr⟩ hrest
  obtain ⟨negative, hnumber⟩ := exists_number_eq hsg hwhole
  rw [List.append_assoc, hnumber rest hdigit, hf, he, numberValue, hlength, if_pos hlimit]
  rfl

end Reader

end Json

end TypeText

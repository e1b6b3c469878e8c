import TypeText.Proofs.Json.Recognition

/-!
# The texts that are read, and those where reading stops

The texts of the grammar are read, and reading stops where the grammar says.  This is an induction
on the text, with fuel that is bounded by its length.  Together with the other direction it decides
for every text what comes of it: a value, an integer that is too long, or neither of the two.

## Main definitions

* `Reader.Stops n t` — reading `t` stops at an integer with `n` digits.

## Main results

* `ValueText.exists_reads`, `StopsAt.stops` — **texts of the grammar are read, or stopped at, as it
  says.**
* `exists_parse_eq_ok_iff`, `parse_eq_integerTooLong_iff` — **which texts are read as a value, and
  which ones stop at an integer.**
-/

set_option autoImplicit false

namespace TypeText

namespace Json

namespace Reader

/-! ### Strings -/

/-- A code unit is read, if the text goes on. -/
theorem exists_stringBody_unit {t : List Char} (ht : UnitText t) :
    ∃ unit, ∀ rest, rest ≠ [] → stringBody (t ++ rest) = consUnit unit (stringBody rest) := by
  cases ht with
  | literal hcontrol hquote hbackslash =>
    exact ⟨_, fun rest _ => stringBody_literal hcontrol hquote hbackslash rest⟩
  | letter h => exact ⟨_, fun rest _ => stringBody_letter h rest⟩
  | @numeric d₁ d₂ d₃ d₄ h =>
    obtain ⟨unit, hunit⟩ := Option.isSome_iff_exists.mp ((isSome_hexUnit?_iff d₁ d₂ d₃ d₄).mpr h)
    exact ⟨unit, fun rest hrest => stringBody_numeric hunit hrest⟩

theorem exists_stringBody_body {t : List Char} (ht : BodyText t) :
    ∃ units, ∀ rest, stringBody (t ++ '"' :: rest) = .ok (units, rest) := by
  induction ht with
  | nil => exact ⟨[], stringBody_quote⟩
  | @cons t u ht _ ih =>
    obtain ⟨units, hunits⟩ := ih
    obtain ⟨unit, hunit⟩ := exists_stringBody_unit ht
    refine ⟨unit :: units, fun rest => ?_⟩
    rw [List.append_assoc, hunit _ (by simp), hunits]
    rfl

/-- Every text of a string is read. -/
theorem exists_string_eq {t : List Char} (ht : BodyText t) :
    ∃ s, ∀ rest, string (t ++ '"' :: rest) = .ok (s, rest) := by
  obtain ⟨units, hunits⟩ := exists_stringBody_body ht
  exact ⟨_, fun rest => by rw [string, hunits]; rfl⟩

theorem exists_readsKey {t : List Char} (ht : KeyText t) : ∃ key, ReadsKey key t := by
  obtain ⟨before, body, after, hbefore, hbody, hafter, rfl⟩ := ht
  obtain ⟨key, hkey⟩ := exists_string_eq hbody
  exact ⟨key, readsKey_of_string hbefore hkey hafter⟩

/-! ### Words and numbers -/

theorem exists_reads_word {t : List Char} (ht : t ∈ wordTexts) : ∃ v, Reads v t := by
  simp only [wordTexts, List.map_cons, List.map_nil, List.mem_cons, List.not_mem_nil,
    or_false] at ht
  rcases ht with rfl | rfl | rfl | rfl | rfl | rfl <;>
    exact ⟨_, reads_scalar rfl fun _ _ => rfl⟩

/-- The text starts like a number, and not like a word, whatever follows. -/
def StartsNumber (t : List Char) : Prop :=
  ∃ c s, t = c :: s ∧ startsScalar c ∧ ∀ rest, word? (t ++ rest) = none

theorem startsNumber_of_wholeText {sg whole : List Char} (hsg : SignText sg)
    (hwhole : WholeText whole) (more : List Char) : StartsNumber (sg ++ (whole ++ more)) := by
  obtain ⟨d, ds, rfl⟩ := List.exists_cons_of_ne_nil hwhole.1.1
  have hd : d.isDigit := hwhole.1.2 d List.mem_cons_self
  rcases hsg with rfl | rfl
  · -- no word starts with a digit, and none with a sign and a digit
    refine ⟨d, ds ++ more, rfl, ?_, fun rest => (word?_of_isDigit hd _).1⟩
    rw [startsScalar, hd, Bool.true_or]
  · exact ⟨'-', d :: ds ++ more, rfl, rfl, fun rest => (word?_of_isDigit hd _).2⟩

theorem startsNumber_of_numberText {t : List Char} (ht : NumberText t) : StartsNumber t := by
  cases ht with
  | @integer _ whole hsg hwhole =>
    rw [← List.append_nil whole]
    exact startsNumber_of_wholeText hsg hwhole []
  | fraction hsg hwhole => exact startsNumber_of_wholeText hsg hwhole _
  | exponent hsg hwhole => exact startsNumber_of_wholeText hsg hwhole _
  | both hsg hwhole => exact startsNumber_of_wholeText hsg hwhole _

theorem exists_reads_number {t : List Char} (ht : NumberText t) : ∃ v, Reads v t := by
  obtain ⟨v, hnumber⟩ := exists_number_eq_ok ht
  obtain ⟨c, s, rfl, hc, hword⟩ := startsNumber_of_numberText ht
  refine ⟨v, reads_scalar hc fun rest hrest => ?_⟩
  rw [scalar, hword]
  exact hnumber rest hrest

end Reader

open Reader

/-! ### Values -/

/-- What holds of every item of a list holds of items that they come from. -/
theorem exists_map_eq {α β : Type} {f : β → α} {P : β → Prop} {as : List α}
    (h : ∀ a ∈ as, ∃ b, f b = a ∧ P b) : ∃ bs : List β, bs.map f = as ∧ ∀ b ∈ bs, P b := by
  induction as with
  | nil => exact ⟨[], rfl, by simp⟩
  | cons a as ih =>
    obtain ⟨⟨b, rfl, hb⟩, has⟩ := List.forall_mem_cons.mp h
    obtain ⟨bs, rfl, hbs⟩ := ih has
    exact ⟨b :: bs, rfl, List.forall_mem_cons.mpr ⟨hb, hbs⟩⟩

/-- **Every text of the grammar is read**, before whatever can follow. -/
theorem ValueText.exists_reads {t : List Char} (h : ValueText t) : ∃ v, Reads v t := by
  induction h with
  | word ht => exact exists_reads_word ht
  | number ht => exact exists_reads_number ht
  | str ht =>
    obtain ⟨s, hs⟩ := exists_string_eq ht
    exact ⟨_, reads_str hs⟩
  | emptyArr hblanks => exact ⟨_, (reads_empty hblanks).1⟩
  | @arr items hne _ ih =>
    -- pair each text with the value that it is read as
    obtain ⟨ps, rfl, hps⟩ : ∃ ps : List (Json × List Char), ps.map Prod.snd = items ∧
        ∀ p ∈ ps, Reads p.1 p.2 := exists_map_eq fun t ht => by
      obtain ⟨v, hv⟩ := ih t ht
      exact ⟨(v, t), rfl, hv⟩
    exact ⟨_, reads_arr (by simpa using hne) hps⟩
  | emptyObj hblanks => exact ⟨_, (reads_empty hblanks).2⟩
  | @obj members hne hkeys _ ih =>
    obtain ⟨ms, rfl, hms⟩ : ∃ ms : List SpelledMember,
        ms.map (fun m => (m.keyText, m.valueText)) = members ∧
          ∀ m ∈ ms, ReadsKey m.key m.keyText ∧ Reads m.value m.valueText :=
        exists_map_eq fun m hm => by
      obtain ⟨key, hkey⟩ := exists_readsKey (hkeys m hm)
      obtain ⟨v, hv⟩ := ih m hm
      exact ⟨⟨key, m.1, v, m.2⟩, rfl, hkey, hv⟩
    rw [List.map_map]
    exact ⟨_, reads_obj (by simpa using hne) (fun m hm => (hms m hm).1) fun m hm => (hms m hm).2⟩
  | before hblanks _ ih =>
    obtain ⟨v, hv⟩ := ih
    exact ⟨v, hv.before hblanks⟩
  | after _ hblanks ih =>
    obtain ⟨v, hv⟩ := ih
    exact ⟨v, hv.after hblanks⟩

/-! ### Integers that are too long -/

namespace Reader

/-- Reading the text stops at an integer with `n` digits.  Blanks before it have been skipped by
then. -/
def Stops (n : Nat) (t : List Char) : Prop :=
  ∀ fuel, 2 * t.length ≤ fuel → ∃ c s, skipBlanks t = c :: s ∧ startsValue c ∧
    value fuel (c :: s) = .error (.integerTooLong n)

theorem stops_longInteger {n : Nat} {t rest : List Char} (ht : LongInteger n t)
    (hrest : ¬ ContinuesNumber rest) : Stops n (t ++ rest) := by
  intro fuel hfuel
  have hnumber := number_of_longInteger ht hrest
  obtain ⟨sg, whole, hsg, hwhole, -, -, rfl⟩ := ht
  obtain ⟨c, s, hs, hc, hword⟩ := startsNumber_of_wholeText hsg hwhole rest
  rw [List.append_assoc, hs] at hnumber hfuel ⊢
  rw [List.length_cons] at hfuel
  obtain ⟨fuel, rfl⟩ := Nat.exists_eq_succ_of_ne_zero (n := fuel) (by omega)
  have hstarts : startsValue c := by rw [startsValue, hc, Bool.true_or]
  refine ⟨c, s, skipBlanks_cons (isBlank_of_startsValue hstarts) s, hstarts, ?_⟩
  have hnone : word? (c :: s) = none := by simpa [hs] using hword []
  rw [value_scalar (ne_of_test hc rfl) (ne_of_test hc rfl) (ne_of_test hc rfl), scalar, hnone]
  exact hnumber

theorem Stops.before {n : Nat} {blanks t : List Char} (h : Stops n t) (hblanks : Blanks blanks) :
    Stops n (blanks ++ t) := by
  intro fuel hfuel
  rw [List.length_append] at hfuel
  rw [skipBlanks_append hblanks]
  exact h fuel (by omega)

theorem items_of_stop {fuel n : Nat} {s : List Char}
    (h : value fuel s = .error (.integerTooLong n)) :
    items (fuel + 1) s = .error (.integerTooLong n) := by
  simp only [items, h, bind, Except.bind]

theorem members_of_stop {fuel n : Nat} {key : String} {r s t : List Char}
    (hkey : string s = .ok (key, r)) (hcolon : colon r = .ok t)
    (h : value fuel t = .error (.integerTooLong n)) :
    members (fuel + 1) ('"' :: s) = .error (.integerTooLong n) := by
  simp only [members, hkey, bind, Except.bind, hcolon, h]

/-- Items that are read, and then one where reading stops. -/
theorem exists_items_stop {n : Nat} {t : List Char} (ht : Stops n t) {ts : List (List Char)} :
    ∀ fuel, (∀ t ∈ ts, ValueText t) → 2 * (ts.flatMap (· ++ [',']) ++ t).length < fuel →
      ∃ c s, skipBlanks (ts.flatMap (· ++ [',']) ++ t) = c :: s ∧ startsValue c ∧
        items fuel (c :: s) = .error (.integerTooLong n) := by
  induction ts with
  | nil =>
    intro fuel _ hfuel
    obtain ⟨fuel, rfl⟩ := Nat.exists_eq_succ_of_ne_zero (Nat.ne_zero_of_lt hfuel)
    obtain ⟨c, s, hs, hc, hvalue⟩ := ht fuel (Nat.le_of_lt_succ hfuel)
    exact ⟨c, s, hs, hc, items_of_stop hvalue⟩
  | cons u ts ih =>
    -- the first item is read, a comma follows, and reading goes on with one less
    intro fuel hts hfuel
    obtain ⟨fuel, rfl⟩ := Nat.exists_eq_succ_of_ne_zero (Nat.ne_zero_of_lt hfuel)
    obtain ⟨hu, hts⟩ := List.forall_mem_cons.mp hts
    obtain ⟨v, hv⟩ := hu.exists_reads
    simp only [List.flatMap_cons, List.append_assoc, List.singleton_append, List.length_append,
      List.length_cons] at hfuel ⊢
    obtain ⟨c', s', hs', -, hitems⟩ := ih fuel hts (by rw [List.length_append]; omega)
    obtain ⟨c, s, blanks, hs, hc, hblanks, hvalue⟩ :=
      hv fuel (',' :: (ts.flatMap (· ++ [',']) ++ t)) (endsNumber_cons rfl _) (by omega)
    have hmore := continuation_comma hblanks (show ',' ≠ ']' by decide)
      (ts.flatMap (· ++ [',']) ++ t)
    rw [hs'] at hmore
    exact ⟨c, s, hs, hc, by rw [items_more hvalue hmore, hitems]; rfl⟩

/-- Members that are read, and then one where reading stops. -/
theorem exists_members_stop {n : Nat} {key t : List Char} (hkey : KeyText key) (ht : Stops n t)
    {ms : List (List Char × List Char)} :
    ∀ fuel, (∀ m ∈ ms, KeyText m.1) → (∀ m ∈ ms, ValueText m.2) →
      2 * (ms.flatMap (memberText · ++ [',']) ++ memberText (key, t)).length < fuel →
      ∃ s, skipBlanks (ms.flatMap (memberText · ++ [',']) ++ memberText (key, t)) = '"' :: s ∧
        members fuel ('"' :: s) = .error (.integerTooLong n) := by
  induction ms with
  | nil =>
    -- the key and the colon are read, and the value stops
    intro fuel _ _ hfuel
    obtain ⟨fuel, rfl⟩ := Nat.exists_eq_succ_of_ne_zero (Nat.ne_zero_of_lt hfuel)
    simp only [List.flatMap_nil, List.nil_append, memberText, List.length_append,
      List.length_cons] at hfuel ⊢
    obtain ⟨k, hk⟩ := exists_readsKey hkey
    obtain ⟨body, r, hbody, hstring, hcolon⟩ := hk t
    obtain ⟨c, s, hs, -, hvalue⟩ := ht fuel (by omega)
    rw [hs] at hcolon
    exact ⟨body, hbody, members_of_stop hstring hcolon hvalue⟩
  | cons m ms ih =>
    intro fuel hkeys hvalues hfuel
    obtain ⟨fuel, rfl⟩ := Nat.exists_eq_succ_of_ne_zero (Nat.ne_zero_of_lt hfuel)
    obtain ⟨hm, hkeys⟩ := List.forall_mem_cons.mp hkeys
    obtain ⟨hu, hvalues⟩ := List.forall_mem_cons.mp hvalues
    obtain ⟨k, hk⟩ := exists_readsKey hm
    obtain ⟨v, hv⟩ := hu.exists_reads
    generalize hrest : ms.flatMap (memberText · ++ [',']) ++ memberText (key, t) = rest at ih
    have hcons : (m :: ms).flatMap (memberText · ++ [',']) ++ memberText (key, t) =
        m.1 ++ ':' :: (m.2 ++ ',' :: rest) := by
      rw [← hrest, List.flatMap_cons]
      simp [memberText]
    rw [hcons] at hfuel ⊢
    simp only [List.length_append, List.length_cons] at hfuel
    obtain ⟨s', hs', hmembers⟩ := ih fuel hkeys hvalues (by omega)
    obtain ⟨c, s, blanks, hs, -, hblanks, hvalue⟩ :=
      hv fuel (',' :: rest) (endsNumber_cons rfl _) (by omega)
    obtain ⟨body, r, hbody, hstring, hcolon⟩ := hk (m.2 ++ ',' :: rest)
    have hmore := continuation_comma hblanks (show ',' ≠ '\x7d' by decide) rest
    rw [hs] at hcolon
    rw [hs'] at hmore
    exact ⟨body, hbody, by rw [members_more hstring hcolon hvalue hmore, hmembers]; rfl⟩

end Reader

/-- **Reading stops where the grammar says.** -/
theorem StopsAt.stops {n : Nat} {t : List Char} (h : StopsAt n t) : Stops n t := by
  induction h with
  | integer ht hrest => exact stops_longInteger ht hrest
  | @item ts t hts _ ih =>
    intro fuel hfuel
    rw [List.cons_append, List.length_cons] at hfuel
    obtain ⟨fuel, rfl⟩ := Nat.exists_eq_succ_of_ne_zero (n := fuel) (by omega)
    obtain ⟨c, s, hs, hc, hitems⟩ := exists_items_stop ih fuel hts (by omega)
    refine ⟨_, _, skipBlanks_cons rfl _, rfl, ?_⟩
    rw [List.append_eq, value_arr hs (ne_of_test hc rfl), hitems]
    rfl
  | @member ms key t hkeys hvalues hkey _ ih =>
    intro fuel hfuel
    rw [List.cons_append, List.length_cons] at hfuel
    obtain ⟨fuel, rfl⟩ := Nat.exists_eq_succ_of_ne_zero (n := fuel) (by omega)
    obtain ⟨s, hs, hmembers⟩ := exists_members_stop hkey ih fuel hkeys hvalues (by omega)
    refine ⟨_, _, skipBlanks_cons rfl _, rfl, ?_⟩
    rw [List.append_eq, value_obj hs (by decide), hmembers]
    rfl
  | before hblanks _ ih => exact ih.before hblanks

/-! ### Whole texts -/

/-- Whatever comes of a whole text is what the grammar says. -/
theorem ensures_parse (text : String) :
    Ensures (fun _ => ValueText text.toList) (fun n => StopsAt n text.toList) (parse text) := by
  obtain ⟨blanks, hblanks, hs⟩ := exists_skipBlanks_eq text.toList
  unfold parse
  dsimp only
  split
  · -- a byte order mark is refused
    trivial
  · have hvalue := (ensures_read (2 * text.toList.length + 1)).1 (skipBlanks text.toList)
    refine hvalue.bind (fun n h => ?_) ?_
    · rw [hs]
      exact h.before hblanks
    · rintro ⟨v, rest⟩ ⟨t, ht, hskip⟩
      dsimp only
      split
      · -- nothing but blanks is left
        next hend =>
        obtain ⟨after, hafter, hrest⟩ := exists_skipBlanks_eq rest
        rw [List.isEmpty_iff.mp hend, List.append_nil] at hrest
        show ValueText text.toList
        rw [hs, hskip, hrest]
        exact (ht.after hafter).before hblanks
      · trivial

/-- **A text is read as a value exactly if the grammar has it.** -/
theorem exists_parse_eq_ok_iff (text : String) :
    (∃ v, parse text = .ok v) ↔ ValueText text.toList := by
  constructor
  · rintro ⟨v, h⟩
    have hparse := ensures_parse text
    rw [h] at hparse
    exact hparse
  · intro h
    obtain ⟨v, hv⟩ := h.exists_reads
    exact ⟨v, parse_of_reads hv⟩

/-- **Reading stops at an integer exactly if the grammar says so.** -/
theorem parse_eq_integerTooLong_iff (text : String) (n : Nat) :
    parse text = .error (.integerTooLong n) ↔ StopsAt n text.toList := by
  constructor
  · intro h
    have hparse := ensures_parse text
    rw [h] at hparse
    exact hparse
  · intro h
    obtain ⟨c, s, hs, hc, hvalue⟩ := h.stops (2 * text.toList.length + 1) (by omega)
    rw [parse_of_startsValue hs hc, hvalue]
    rfl

end Json

end TypeText

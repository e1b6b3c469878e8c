import TypeText.Proofs.Json.Scalar

/-!
# Every text of a value is read as the value

A value is read from the front of a text, so that the statement is about a text with
something after it; what follows a value never continues a number.  The reader skips
blanks before each token and leaves those after a value to what comes next.  Its fuel is
bounded by the length of the text.

## Main definitions

* `Reader.Reads v t`, `Reader.ReadsKey key t` — `t` is read as `v`, before whatever can follow, or
  as a key, before a colon.

## Main results

* `exists_items_eq`, `exists_members_eq` — lists of texts that are read are read.
* `Spells.reads` — **every text of a value is read as the value.**
* `parse_of_spells` — the same for a whole text.
-/

set_option autoImplicit false

namespace TypeText

namespace Json

namespace Reader

/-! ### Blanks -/

theorem isBlank_of_blanks {blanks : List Char} (h : Blanks blanks) : ∀ c ∈ blanks, isBlank c := by
  intro c hc
  have hmem := h c hc
  simp only [List.mem_cons, List.not_mem_nil, or_false] at hmem
  rcases hmem with rfl | rfl | rfl | rfl <;> rfl

theorem skipBlanks_append {blanks : List Char} (h : Blanks blanks) (s : List Char) :
    skipBlanks (blanks ++ s) = skipBlanks s :=
  List.dropWhile_append_of_pos (isBlank_of_blanks h)

theorem skipBlanks_cons {c : Char} (hc : isBlank c = false) (s : List Char) :
    skipBlanks (c :: s) = c :: s :=
  List.dropWhile_cons_of_neg (by simp [hc])

/-! ### First characters -/

/-- The characters that a word or a number can start with. -/
def startsScalar (c : Char) : Bool := c.isDigit || c ∈ ['-', 'n', 't', 'f', 'N', 'I']

/-- The characters that a value can start with. -/
def startsValue (c : Char) : Bool := startsScalar c || c ∈ ['"', '[', '\x7b']

theorem isBlank_of_startsValue {c : Char} (hc : startsValue c) : isBlank c = false := by
  simp only [isBlank, Bool.or_eq_false_iff, beq_eq_false_iff_ne]
  refine ⟨⟨⟨?_, ?_⟩, ?_⟩, ?_⟩ <;> exact ne_of_test hc rfl

theorem endsNumber_blanks {blanks s : List Char} (h : Blanks blanks) (hs : EndsNumber s) :
    EndsNumber (blanks ++ s) := by
  cases blanks with
  | nil => exact hs
  | cons c blanks =>
    -- none of the four blanks continues a number
    have hc := h c List.mem_cons_self
    simp only [List.mem_cons, List.not_mem_nil, or_false] at hc
    rcases hc with rfl | rfl | rfl | rfl <;> exact endsNumber_cons rfl _

/-! ### Steps -/

section Steps

variable {fuel : Nat} {r s t u rest : List Char} {c : Char} {v : Json} {key : String}

/-- The end of a list, after blanks. -/
theorem continuation_close {blanks : List Char} (h : Blanks blanks) {close : Char}
    (hclose : isBlank close = false) (rest : List Char) :
    continuation close (blanks ++ close :: rest) = .ok (false, rest) := by
  rw [continuation, skipBlanks_append h, skipBlanks_cons hclose]
  exact if_pos rfl

/-- A comma before another item, after blanks. -/
theorem continuation_comma {blanks : List Char} (h : Blanks blanks) {close : Char}
    (hclose : ',' ≠ close) (rest : List Char) :
    continuation close (blanks ++ ',' :: rest) = .ok (true, skipBlanks rest) := by
  rw [continuation, skipBlanks_append h, skipBlanks_cons rfl]
  dsimp only
  rw [if_neg hclose, if_pos rfl]

/-- The last item of an array. -/
theorem items_last (hvalue : value fuel s = .ok (v, t))
    (hclose : continuation ']' t = .ok (false, rest)) : items (fuel + 1) s = .ok ([v], rest) := by
  simp only [items, hvalue, bind, Except.bind, hclose]
  rfl

/-- An item of an array with others after it. -/
theorem items_more (hvalue : value fuel s = .ok (v, t))
    (hmore : continuation ']' t = .ok (true, u)) :
    items (fuel + 1) s = (items fuel u).map fun p => (v :: p.1, p.2) := by
  simp only [items, hvalue, bind, Except.bind, hmore, if_true]
  cases items fuel u <;> rfl

/-- The last member of an object. -/
theorem members_last (hkey : string s = .ok (key, r)) (hcolon : colon r = .ok t)
    (hvalue : value fuel t = .ok (v, u)) (hclose : continuation '\x7d' u = .ok (false, rest)) :
    members (fuel + 1) ('"' :: s) = .ok ([(key, v)], rest) := by
  simp only [members, hkey, bind, Except.bind, hcolon, hvalue, hclose]
  rfl

/-- A member of an object with others after it. -/
theorem members_more {w : List Char} (hkey : string s = .ok (key, r)) (hcolon : colon r = .ok t)
    (hvalue : value fuel t = .ok (v, u)) (hmore : continuation '\x7d' u = .ok (true, w)) :
    members (fuel + 1) ('"' :: s) = (members fuel w).map fun p => ((key, v) :: p.1, p.2) := by
  simp only [members, hkey, bind, Except.bind, hcolon, hvalue, hmore, if_true]
  cases members fuel w <;> rfl

/-- An array that is not empty. -/
theorem value_arr (hs : skipBlanks s = c :: t) (hc : c ≠ ']') :
    value (fuel + 1) ('[' :: s) = (items fuel (c :: t)).map fun p => (.arr p.1, p.2) := by
  simp only [value, hs]
  split
  · next h => exact absurd (List.cons.inj h).1 hc
  · rfl

/-- An object that is not empty. -/
theorem value_obj (hs : skipBlanks s = c :: t) (hc : c ≠ '\x7d') :
    value (fuel + 1) ('\x7b' :: s) = (members fuel (c :: t)).map fun p => (.obj p.1, p.2) := by
  simp only [value, hs]
  split
  · next h => exact absurd (List.cons.inj h).1 hc
  · rfl

/-- What is neither a string nor an array nor an object is a word or a number. -/
theorem value_scalar (hquote : c ≠ '"') (hbracket : c ≠ '[') (hbrace : c ≠ '\x7b') :
    value (fuel + 1) (c :: s) = scalar (c :: s) := by
  simp only [value]
  split
  · next h => exact absurd (List.cons.inj h).1 hquote
  · next h => exact absurd (List.cons.inj h).1 hbracket
  · next h => exact absurd (List.cons.inj h).1 hbrace
  · rfl

end Steps

/-! ### Lists -/

/-- The text is read as the value, before whatever can follow.  Blanks before it have been
skipped by then, and blanks after it may be left. -/
def Reads (v : Json) (t : List Char) : Prop :=
  ∀ fuel rest, EndsNumber rest → 2 * t.length ≤ fuel →
    ∃ c s blanks, skipBlanks (t ++ rest) = c :: s ∧ startsValue c ∧ Blanks blanks ∧
      value fuel (c :: s) = .ok (v, blanks ++ rest)

/-- Texts with commas between them, the first one apart. -/
theorem intercalate_comma_cons {ts : List (List Char)} (hts : ts ≠ []) (t : List Char) :
    [','].intercalate (t :: ts) = t ++ ',' :: [','].intercalate ts := by
  obtain ⟨u, us, rfl⟩ := List.exists_cons_of_ne_nil hts
  rw [List.intercalate_cons_cons, List.append_assoc, List.singleton_append]

/-- The items of an array are read up to the closing bracket. -/
theorem exists_items_eq (rest : List Char) {ps : List (Json × List Char)} (hne : ps ≠ []) :
    ∀ fuel, (∀ p ∈ ps, Reads p.1 p.2) →
      2 * ([','].intercalate (ps.map Prod.snd)).length < fuel →
      ∃ c s, skipBlanks ([','].intercalate (ps.map Prod.snd) ++ ']' :: rest) = c :: s ∧
        startsValue c ∧ items fuel (c :: s) = .ok (ps.map Prod.fst, rest) := by
  induction ps with
  | nil => exact absurd rfl hne
  | cons p ps ih =>
    -- one step of fuel is spent on the item, and the comma after it is longer than nothing
    intro fuel hreads hfuel
    obtain ⟨fuel, rfl⟩ := Nat.exists_eq_succ_of_ne_zero (Nat.ne_zero_of_lt hfuel)
    have hp := hreads p List.mem_cons_self
    by_cases hps : ps = []
    · -- the last item, which the bracket follows
      subst hps
      simp only [List.map_cons, List.map_nil, List.intercalate_singleton] at hfuel ⊢
      obtain ⟨c, s, blanks, hs, hc, hblanks, hvalue⟩ :=
        hp fuel (']' :: rest) (endsNumber_cons rfl _) (by omega)
      exact ⟨c, s, hs, hc, items_last hvalue (continuation_close hblanks rfl rest)⟩
    · have hmap : ps.map Prod.snd ≠ [] := by simpa using hps
      simp only [List.map_cons, intercalate_comma_cons hmap, List.length_append, List.length_cons,
        List.append_assoc, List.cons_append] at hfuel ⊢
      obtain ⟨c', s', hs', -, hitems⟩ := ih hps fuel
        (fun q hq => hreads q (List.mem_cons_of_mem _ hq)) (by omega)
      obtain ⟨c, s, blanks, hs, hc, hblanks, hvalue⟩ :=
        hp fuel (',' :: ([','].intercalate (ps.map Prod.snd) ++ ']' :: rest))
          (endsNumber_cons rfl _) (by omega)
      have hmore := continuation_comma hblanks (show ',' ≠ ']' by decide)
        ([','].intercalate (ps.map Prod.snd) ++ ']' :: rest)
      rw [hs'] at hmore
      exact ⟨c, s, hs, hc, by rw [items_more hvalue hmore, hitems]; rfl⟩

/-- The text is read as a key, with the colon after it. -/
def ReadsKey (key : String) (t : List Char) : Prop :=
  ∀ s, ∃ body r, skipBlanks (t ++ ':' :: s) = '"' :: body ∧ string body = .ok (key, r) ∧
    colon r = .ok (skipBlanks s)

/-- A string with blanks around it is read as a key, if the string is read. -/
theorem readsKey_of_string {key : String} {before body after : List Char} (hbefore : Blanks before)
    (hbody : ∀ rest, string (body ++ '"' :: rest) = .ok (key, rest)) (hafter : Blanks after) :
    ReadsKey key (before ++ '"' :: body ++ '"' :: after) := by
  intro s
  refine ⟨_, _, ?_, hbody (after ++ ':' :: s), ?_⟩
  · simp only [List.append_assoc, List.cons_append]
    rw [skipBlanks_append hbefore, skipBlanks_cons rfl]
  · rw [colon, skipBlanks_append hafter, skipBlanks_cons rfl]
    rfl

theorem readsKey_of_spellsKey {key : String} {t : List Char} (h : SpellsKey key t) :
    ReadsKey key t := by
  obtain ⟨before, body, after, hbefore, hbody, hafter, rfl⟩ := h
  exact readsKey_of_string hbefore (string_of_spellsChars hbody) hafter

/-- The members of an object are read up to the closing brace. -/
theorem exists_members_eq (rest : List Char) {ms : List SpelledMember} (hne : ms ≠ []) :
    ∀ fuel, (∀ m ∈ ms, ReadsKey m.key m.keyText) → (∀ m ∈ ms, Reads m.value m.valueText) →
      2 * ([','].intercalate (ms.map SpelledMember.chars)).length < fuel →
      ∃ s, skipBlanks ([','].intercalate (ms.map SpelledMember.chars) ++ '\x7d' :: rest) =
          '"' :: s ∧
        members fuel ('"' :: s) = .ok (ms.map fun m => (m.key, m.value), rest) := by
  induction ms with
  | nil => exact absurd rfl hne
  | cons m ms ih =>
    intro fuel hkeys hreads hfuel
    obtain ⟨fuel, rfl⟩ := Nat.exists_eq_succ_of_ne_zero (Nat.ne_zero_of_lt hfuel)
    have hkey := hkeys m List.mem_cons_self
    have hm := hreads m List.mem_cons_self
    by_cases hms : ms = []
    · -- the last member: what is skipped after its colon is the start of its value
      subst hms
      simp only [List.map_cons, List.map_nil, List.intercalate_singleton, SpelledMember.chars,
        List.length_append, List.length_cons, List.append_assoc, List.cons_append] at hfuel ⊢
      obtain ⟨c, s, blanks, hs, -, hblanks, hvalue⟩ :=
        hm fuel ('\x7d' :: rest) (endsNumber_cons rfl _) (by omega)
      obtain ⟨body, r, hbody, hstring, hcolon⟩ := hkey (m.valueText ++ '\x7d' :: rest)
      rw [hs] at hcolon
      exact ⟨body, hbody, members_last hstring hcolon hvalue (continuation_close hblanks rfl rest)⟩
    · have hmap : ms.map SpelledMember.chars ≠ [] := by simpa using hms
      simp only [List.map_cons, intercalate_comma_cons hmap, List.length_append, List.length_cons,
        List.append_assoc, List.cons_append, SpelledMember.chars] at hfuel ⊢
      obtain ⟨s', hs', hmembers⟩ := ih hms fuel
        (fun n hn => hkeys n (List.mem_cons_of_mem _ hn))
        (fun n hn => hreads n (List.mem_cons_of_mem _ hn)) (by omega)
      obtain ⟨c, s, blanks, hs, -, hblanks, hvalue⟩ :=
        hm fuel (',' :: ([','].intercalate (ms.map SpelledMember.chars) ++ '\x7d' :: rest))
          (endsNumber_cons rfl _) (by omega)
      obtain ⟨body, r, hbody, hstring, hcolon⟩ := hkey
        (m.valueText ++ ',' :: ([','].intercalate (ms.map SpelledMember.chars) ++ '\x7d' :: rest))
      have hmore := continuation_comma hblanks (show ',' ≠ '\x7d' by decide)
        ([','].intercalate (ms.map SpelledMember.chars) ++ '\x7d' :: rest)
      rw [hs] at hcolon
      rw [hs'] at hmore
      exact ⟨body, hbody, by rw [members_more hstring hcolon hvalue hmore, hmembers]; rfl⟩

/-! ### Values -/

/-- A word or a number is read as its value. -/
theorem reads_scalar {v : Json} {c : Char} {s : List Char} (hc : startsScalar c)
    (h : ∀ rest, EndsNumber rest → scalar (c :: s ++ rest) = .ok (v, rest)) :
    Reads v (c :: s) := by
  intro fuel rest hrest hfuel
  rw [List.length_cons] at hfuel
  obtain ⟨fuel, rfl⟩ := Nat.exists_eq_succ_of_ne_zero (n := fuel) (by omega)
  have hstarts : startsValue c := by rw [startsValue, hc, Bool.true_or]
  refine ⟨c, s ++ rest, [], skipBlanks_cons (isBlank_of_startsValue hstarts) _, hstarts, .nil,
    ?_⟩
  -- of the characters that start a value, these start no string, array or object
  rw [value_scalar (ne_of_test hc rfl) (ne_of_test hc rfl) (ne_of_test hc rfl)]
  exact h rest hrest

theorem reads_toDigits {n : Nat} (hn : Binary64.digitCount n ≤ digitLimit) :
    Reads (.int n) (Nat.toDigits 10 n) ∧ Reads (.int (-n)) ('-' :: Nat.toDigits 10 n) := by
  obtain ⟨c, ds, hds, hdigits, -⟩ := exists_toDigits_eq_cons n
  have hscalar := fun rest (hrest : EndsNumber rest) => scalar_toDigits hn hrest
  rw [hds] at hscalar ⊢
  refine ⟨reads_scalar ?_ fun rest hrest => (hscalar rest hrest).1,
    reads_scalar rfl fun rest hrest => (hscalar rest hrest).2⟩
  rw [startsScalar, hdigits c List.mem_cons_self, Bool.true_or]

theorem reads_str {s : String} {t : List Char}
    (h : ∀ rest, string (t ++ '"' :: rest) = .ok (s, rest)) :
    Reads (.str s) ('"' :: t ++ ['"']) := by
  intro fuel rest _ hfuel
  obtain ⟨fuel, rfl⟩ := Nat.exists_eq_succ_of_ne_zero (Nat.ne_zero_of_lt hfuel)
  refine ⟨'"', t ++ '"' :: rest, [], ?_, rfl, .nil, ?_⟩
  · rw [List.append_assoc, List.cons_append, skipBlanks_cons rfl]
    rfl
  · rw [value, h]
    rfl

/-- Brackets with nothing but blanks between them. -/
theorem reads_empty {blanks : List Char} (h : Blanks blanks) :
    Reads (.arr []) ('[' :: blanks ++ [']']) ∧ Reads (.obj []) ('\x7b' :: blanks ++ ['\x7d']) := by
  constructor <;>
  · intro fuel rest _ hfuel
    obtain ⟨fuel, rfl⟩ := Nat.exists_eq_succ_of_ne_zero (Nat.ne_zero_of_lt hfuel)
    rw [List.append_assoc, List.cons_append, skipBlanks_cons rfl]
    refine ⟨_, _, [], rfl, rfl, .nil, ?_⟩
    simp only [value, skipBlanks_append h]
    rfl

theorem reads_arr {ps : List (Json × List Char)} (hne : ps ≠ []) (h : ∀ p ∈ ps, Reads p.1 p.2) :
    Reads (.arr (ps.map Prod.fst)) ('[' :: [','].intercalate (ps.map Prod.snd) ++ [']']) := by
  intro fuel rest _ hfuel
  simp only [List.length_append, List.length_cons, List.append_assoc, List.cons_append,
    List.nil_append] at hfuel ⊢
  obtain ⟨fuel, rfl⟩ := Nat.exists_eq_succ_of_ne_zero (n := fuel) (by omega)
  obtain ⟨c, s, hs, hc, hitems⟩ := exists_items_eq rest hne fuel h (by omega)
  exact ⟨_, _, [], skipBlanks_cons rfl _, rfl, .nil,
    by rw [value_arr hs (ne_of_test hc rfl), hitems]; rfl⟩

theorem reads_obj {ms : List SpelledMember} (hne : ms ≠ [])
    (hkeys : ∀ m ∈ ms, ReadsKey m.key m.keyText) (h : ∀ m ∈ ms, Reads m.value m.valueText) :
    Reads (.obj (ms.map fun m => (m.key, m.value)))
      ('\x7b' :: [','].intercalate (ms.map SpelledMember.chars) ++ ['\x7d']) := by
  intro fuel rest _ hfuel
  simp only [List.length_append, List.length_cons, List.append_assoc, List.cons_append,
    List.nil_append] at hfuel ⊢
  obtain ⟨fuel, rfl⟩ := Nat.exists_eq_succ_of_ne_zero (n := fuel) (by omega)
  obtain ⟨s, hs, hmembers⟩ := exists_members_eq rest hne fuel hkeys h (by omega)
  exact ⟨_, _, [], skipBlanks_cons rfl _, rfl, .nil,
    by rw [value_obj hs (by decide), hmembers]; rfl⟩

theorem Reads.before {v : Json} {blanks t : List Char} (h : Reads v t) (hblanks : Blanks blanks) :
    Reads v (blanks ++ t) := by
  intro fuel rest hrest hfuel
  rw [List.length_append] at hfuel
  rw [List.append_assoc, skipBlanks_append hblanks]
  exact h fuel rest hrest (by omega)

theorem Reads.after {v : Json} {blanks t : List Char} (h : Reads v t) (hblanks : Blanks blanks) :
    Reads v (t ++ blanks) := by
  intro fuel rest hrest hfuel
  rw [List.length_append] at hfuel
  -- the blanks belong to what follows, and no number goes on with a blank
  obtain ⟨c, s, left, hs, hc, hleft, hvalue⟩ :=
    h fuel (blanks ++ rest) (endsNumber_blanks hblanks hrest) (by omega)
  rw [← List.append_assoc] at hs hvalue
  exact ⟨c, s, left ++ blanks, hs, hc, hleft.append hblanks, hvalue⟩

end Reader

open Reader

/-- A text that starts with a value, after blanks, has no byte order mark. -/
theorem parse_of_startsValue {text : String} {c : Char} {s : List Char}
    (hs : skipBlanks text.toList = c :: s) (hc : startsValue c) :
    parse text = (do
      let (v, rest) ← value (2 * text.toList.length + 1) (c :: s)
      if (skipBlanks rest).isEmpty then pure v else fail .extraData) := by
  -- the mark is no blank, and starts no value
  have hmark : text.toList.head? ≠ some '\ufeff' := by
    intro hhead
    obtain ⟨t, ht⟩ : ∃ t, text.toList = '\ufeff' :: t := List.head?_eq_some_iff.mp hhead
    rw [ht, skipBlanks_cons rfl] at hs
    exact ne_of_test hc rfl (List.cons.inj hs).1.symm
  rw [parse, hs]
  dsimp only
  rw [if_neg hmark]

/-- **Every text of a value is read as the value**, before whatever can follow. -/
theorem Spells.reads {v : Json} {t : List Char} (h : Spells v t) : Reads v t := by
  induction h with
  | null => exact reads_scalar rfl fun _ _ => rfl
  | true => exact reads_scalar rfl fun _ _ => rfl
  | false => exact reads_scalar rfl fun _ _ => rfl
  | nat hn => exact (reads_toDigits hn).1
  | neg hn => exact (reads_toDigits hn).2
  | str hs => exact reads_str (string_of_spellsChars hs)
  | emptyArr hblanks => exact (reads_empty hblanks).1
  | arr hne _ ih => exact reads_arr hne ih
  | emptyObj hblanks => exact (reads_empty hblanks).2
  | obj hne hkeys _ ih => exact reads_obj hne (fun m hm => readsKey_of_spellsKey (hkeys m hm)) ih
  | before hblanks _ ih => exact ih.before hblanks
  | after _ hblanks ih => exact ih.after hblanks

/-- A whole text that is read as a value is one of that value. -/
theorem parse_of_reads {v : Json} {text : String} (h : Reads v text.toList) :
    parse text = .ok v := by
  obtain ⟨c, s, blanks, hs, hc, hblanks, hvalue⟩ :=
    h (2 * text.toList.length + 1) [] (by simp [EndsNumber]) (by omega)
  rw [List.append_nil] at hs hvalue
  have hend : skipBlanks blanks = [] := by
    rw [← List.append_nil blanks, skipBlanks_append hblanks, skipBlanks_nil]
  rw [parse_of_startsValue hs hc, hvalue]
  simp only [bind, Except.bind, hend, List.isEmpty_nil, if_true]
  rfl

/-- A whole text of a value is read as the value. -/
theorem parse_of_spells {v : Json} {text : String} (h : Spells v text.toList) :
    parse text = .ok v :=
  parse_of_reads h.reads

end Json

end TypeText

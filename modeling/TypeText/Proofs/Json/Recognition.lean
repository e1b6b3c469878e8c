import TypeText.Proofs.Json.Numbers
import TypeText.Proofs.Json.Reading

/-!
# Whatever comes of reading is what the grammar says

A result of the reader is that of a text of the grammar, and an integer that is too long is one that
the grammar has reading stop at.  Both are about every outcome of every part of the reader; for
values, items and members they are an induction on the fuel.

## Main definitions

* `Reader.Ensures P Q` — what holds of a result, and of the length of an integer that is too long.
* `Reader.Listed`, `Reader.Interrupted` — lists of pieces up to a closing bracket, and up to a piece
  where reading stops.

## Main results

* `ensuresBody_string`, `ensuresValue_scalar` — the grammar of strings, and of words and numbers.
* `ensuresList_step` — one step of a list, for items and members alike.
* `ensures_read` — **whatever comes of reading a value is what the grammar says.**
-/

set_option autoImplicit false

namespace TypeText

namespace Json

namespace Reader

/-! ### Outcomes -/

section Ensures

variable {α β : Type} {P P' : α → Prop} {R : β → Prop} {Q Q' : Nat → Prop} {x : Except ReadError α}

/-- What reading comes to: a result of which `P` holds, or an integer that is too long, with a
number of digits of which `Q` holds.  Nothing is said about texts that do not fit. -/
def Ensures (P : α → Prop) (Q : Nat → Prop) : Except ReadError α → Prop
  | .ok a => P a
  | .error (.integerTooLong n) => Q n
  | .error (.malformed _) => True

theorem Ensures.mono (hx : Ensures P Q x) (hP : ∀ a, P a → P' a) (hQ : ∀ n, Q n → Q' n) :
    Ensures P' Q' x := by
  rcases x with (cause | n) | a
  · trivial
  · exact hQ n hx
  · exact hP a hx

/-- One step after another; an integer that is too long ends both. -/
theorem Ensures.bind {f : α → Except ReadError β} (hx : Ensures P Q x) (hQ : ∀ n, Q n → Q' n)
    (hf : ∀ a, P a → Ensures R Q' (f a)) : Ensures R Q' (x >>= f) := by
  rcases x with (cause | n) | a
  · trivial
  · exact hQ n hx
  · exact hf a hx

theorem Ensures.map {f : α → β} (hx : Ensures P Q x) (hf : ∀ a, P a → R (f a)) :
    Ensures R Q (x.map f) := by
  rcases x with (cause | n) | a
  · trivial
  · exact hx
  · exact hf a hx

end Ensures

/-! ### Blanks and brackets -/

theorem exists_skipBlanks_eq (s : List Char) :
    ∃ blanks, Blanks blanks ∧ s = blanks ++ skipBlanks s := by
  refine ⟨s.takeWhile isBlank, ?_, List.takeWhile_append_dropWhile.symm⟩
  intro c hc
  have hblank : isBlank c = true := List.all_eq_true.mp List.all_takeWhile c hc
  simpa [isBlank, or_assoc] using hblank

/-- After an item a bracket closes, or a comma comes. -/
theorem ensures_continuation (close : Char) (s : List Char) :
    Ensures (fun p => ∃ blanks, Blanks blanks ∧
        (p.1 = false ∧ s = blanks ++ close :: p.2 ∨
          p.1 = true ∧ ∃ more, Blanks more ∧ s = blanks ++ ',' :: (more ++ p.2)))
      (fun _ => False) (continuation close s) := by
  obtain ⟨blanks, hblanks, hs⟩ := exists_skipBlanks_eq s
  unfold continuation
  split
  · trivial
  · next c rest hskip =>
    rw [hskip] at hs
    split
    · next hc => exact ⟨blanks, hblanks, .inl ⟨rfl, by rw [hs, hc]⟩⟩
    · split
      · -- the blanks after the comma are skipped as well
        next hc =>
        obtain ⟨more, hmore, hrest⟩ := exists_skipBlanks_eq rest
        exact ⟨blanks, hblanks, .inr ⟨rfl, more, hmore, by rw [hs, hc, ← hrest]⟩⟩
      · trivial

theorem ensures_colon (s : List Char) :
    Ensures (fun rest => ∃ blanks more, Blanks blanks ∧ Blanks more ∧
        s = blanks ++ ':' :: (more ++ rest)) (fun _ => False) (colon s) := by
  obtain ⟨blanks, hblanks, hs⟩ := exists_skipBlanks_eq s
  unfold colon
  split
  · next rest hskip =>
    obtain ⟨more, hmore, hrest⟩ := exists_skipBlanks_eq rest
    exact ⟨blanks, more, hblanks, hmore, by rw [← hrest, ← hskip, ← hs]⟩
  · trivial

/-! ### Strings -/

/-- Hexadecimal digits are ASCII characters. -/
theorem toNat_lt_of_hexValue? {c : Char} (h : (hexValue? c).isSome) : c.toNat < 128 := by
  unfold hexValue? at h
  split at h
  · next hc =>
    rw [Char.isDigit, Bool.and_eq_true, decide_eq_true_eq, decide_eq_true_eq] at hc
    exact Nat.lt_of_le_of_lt (UInt32.le_iff_toNat_le.mp hc.2) (by decide)
  · split at h
    · next hc => exact Nat.lt_of_le_of_lt (UInt32.le_iff_toNat_le.mp hc.2) (by decide)
    · split at h
      · next hc => exact Nat.lt_of_le_of_lt (UInt32.le_iff_toNat_le.mp hc.2) (by decide)
      · contradiction

theorem mem_hexDigitChars_iff (c : Char) : c ∈ hexDigitChars ↔ (hexValue? c).isSome := by
  constructor
  · have hall : hexDigitChars.all (fun d => (hexValue? d).isSome) = true := by decide
    exact List.all_eq_true.mp hall c
  · -- only ASCII characters are left to try
    intro h
    have hall : ∀ n < 128, (hexValue? (Char.ofNat n)).isSome → Char.ofNat n ∈ hexDigitChars := by
      decide
    have hc := hall c.toNat (toNat_lt_of_hexValue? h)
    rw [Char.ofNat_toNat] at hc
    exact hc h

/-- Four hexadecimal digits have a value, and nothing else has. -/
theorem isSome_hexUnit?_iff (d₁ d₂ d₃ d₄ : Char) :
    (hexUnit? d₁ d₂ d₃ d₄).isSome ↔ ∀ d ∈ [d₁, d₂, d₃, d₄], d ∈ hexDigitChars := by
  simp only [List.forall_mem_cons, mem_hexDigitChars_iff, hexUnit?]
  cases hexValue? d₁ <;> cases hexValue? d₂ <;> cases hexValue? d₃ <;> cases hexValue? d₄ <;> simp

theorem mem_letterEscapes {letter c : Char} (h : shortEscape? letter = some c) :
    (letter, c) ∈ letterEscapes := by
  unfold shortEscape? at h
  split at h
  all_goals first
    | contradiction
    | obtain rfl := Option.some.inj h
      decide

/-- What is read as a string is the text of one, with its closing quote. -/
abbrev EnsuresBody {α : Type} (s : List Char) : Except ReadError (α × List Char) → Prop :=
  Ensures (fun p => ∃ t, BodyText t ∧ s = t ++ '"' :: p.2) fun _ => False

theorem EnsuresBody.consUnit {t s : List Char} {unit : Nat}
    {x : Except ReadError (List Nat × List Char)} (ht : UnitText t) (hx : EnsuresBody s x) :
    EnsuresBody (t ++ s) (consUnit unit x) := by
  refine Ensures.map hx ?_
  rintro ⟨units, rest⟩ ⟨u, hu, rfl⟩
  exact ⟨t ++ u, .cons ht hu, (List.append_assoc t u _).symm⟩

theorem ensuresBody_stringBody (s : List Char) : EnsuresBody s (stringBody s) := by
  -- the other cases report a text that does not fit
  fun_induction stringBody s with
  | case2 rest => exact ⟨[], .nil, rfl⟩
  | case4 d₁ d₂ d₃ d₄ next rest unit hunit _ ih =>
    have hdigits := (isSome_hexUnit?_iff d₁ d₂ d₃ d₄).mp (by rw [hunit]; rfl)
    exact ih.consUnit (.numeric hdigits)
  | case7 letter rest _ _ c hletter _ ih => exact ih.consUnit (.letter (mem_letterEscapes hletter))
  | case10 c rest hquote hbackslash hcontrol ih =>
    -- a character that stands for itself
    have hspace : ' ' ≤ c := UInt32.le_iff_toNat_le.mpr (Nat.le_of_not_lt hcontrol)
    exact ih.consUnit (.literal hspace hquote hbackslash)
  | _ => trivial

theorem ensuresBody_string (s : List Char) : EnsuresBody s (string s) :=
  (ensuresBody_stringBody s).map fun _ h => h

/-! ### Words and numbers -/

theorem exists_wordText_eq {s rest : List Char} {v : Json} (h : word? s = some (v, rest)) :
    ∃ t ∈ wordTexts, s = t ++ rest := by
  obtain ⟨⟨w, u⟩, hmem, hfound⟩ := List.exists_of_findSome?_eq_some h
  rw [Option.ite_none_right_eq_some, List.isPrefixOf_iff_prefix] at hfound
  obtain ⟨⟨r, rfl⟩, hfound⟩ := hfound
  rw [List.drop_left] at hfound
  obtain rfl : r = rest := congrArg Prod.snd (Option.some.inj hfound)
  exact ⟨w, List.mem_map_of_mem (f := Prod.fst) hmem, rfl⟩

/-- What is read as a value is the text of one, and where an integer is too long the grammar says
that reading stops. -/
abbrev EnsuresValue (s : List Char) : Except ReadError (Json × List Char) → Prop :=
  Ensures (fun p => ∃ t, ValueText t ∧ s = t ++ p.2) fun n => StopsAt n s

theorem ensuresValue_scalar (s : List Char) : EnsuresValue s (scalar s) := by
  unfold scalar
  split
  · next p hword =>
    obtain ⟨t, ht, hs⟩ := exists_wordText_eq hword
    exact ⟨t, .word ht, hs⟩
  · obtain hfail | ⟨v, t, rest, ht, hs, hok⟩ | ⟨n, t, rest, ht, hrest, hs, hlong⟩ := number_cases s
    · rw [hfail]
      trivial
    · rw [hok]
      exact ⟨t, .number ht, hs⟩
    · rw [hlong, hs]
      exact .integer ht hrest

/-! ### Lists -/

section Lists

variable {α β : Type} {good : α → Prop} {text : α → List Char} {stop : Nat → List Char → Prop}
  {close : Char}

/-- Pieces with commas between them, up to the bracket that closes the list. -/
def Listed (good : α → Prop) (text : α → List Char) (close : Char) (s rest : List Char) : Prop :=
  ∃ ps : List α, ps ≠ [] ∧ (∀ p ∈ ps, good p) ∧ s = [','].intercalate (ps.map text) ++ close :: rest

/-- Pieces with commas after them, up to one where reading stops. -/
def Interrupted (good : α → Prop) (text : α → List Char) (stop : List Char → Prop)
    (s : List Char) : Prop :=
  ∃ (ps : List α) (t : List Char), (∀ p ∈ ps, good p) ∧ stop t ∧
    s = ps.flatMap (fun p => text p ++ [',']) ++ t

/-- What is read as a list is one, and where an integer is too long the list is interrupted. -/
abbrev EnsuresList (good : α → Prop) (text : α → List Char) (stop : Nat → List Char → Prop)
    (close : Char) (s : List Char) : Except ReadError (List β × List Char) → Prop :=
  Ensures (fun p => Listed good text close s p.2) fun n => Interrupted good text (stop n) s

theorem listed_singleton {p : α} (hp : good p) (rest : List Char) :
    Listed good text close (text p ++ close :: rest) rest :=
  ⟨[p], List.cons_ne_nil _ _, by simpa using hp, by simp⟩

theorem Listed.cons {p : α} {s rest : List Char} (h : Listed good text close s rest)
    (hp : good p) : Listed good text close (text p ++ ',' :: s) rest := by
  obtain ⟨ps, hne, hps, rfl⟩ := h
  refine ⟨p :: ps, List.cons_ne_nil _ _, List.forall_mem_cons.mpr ⟨hp, hps⟩, ?_⟩
  rw [List.map_cons, intercalate_comma_cons (by simpa using hne), List.append_assoc,
    List.cons_append]

theorem interrupted_of_stop {stop : List Char → Prop} {s : List Char} (h : stop s) :
    Interrupted good text stop s :=
  ⟨[], s, by simp, h, rfl⟩

theorem Interrupted.cons {stop : List Char → Prop} {p : α} {s : List Char}
    (h : Interrupted good text stop s) (hp : good p) :
    Interrupted good text stop (text p ++ ',' :: s) := by
  obtain ⟨ps, t, hps, ht, rfl⟩ := h
  exact ⟨p :: ps, t, List.forall_mem_cons.mpr ⟨hp, hps⟩, ht, by simp⟩

/-- One step of a list, after a piece has been read up to `r`: the blanks after the piece become
part of it, and those after a comma part of the next one. -/
theorem ensuresList_step {read : List Char → Except ReadError (List β × List Char)} {v : β}
    {s r : List Char} (hpiece : ∀ blanks, Blanks blanks → ∃ p, good p ∧ s ++ blanks = text p)
    (hread : ∀ blanks u, Blanks blanks → EnsuresList good text stop close (blanks ++ u) (read u)) :
    EnsuresList good text stop close (s ++ r) (do
      let (more, u) ← continuation close r
      if more then
        let (vs, u) ← read u
        pure (v :: vs, u)
      else pure ([v], u)) := by
  refine (ensures_continuation close r).bind (fun _ h => h.elim) ?_
  rintro ⟨more, u⟩ ⟨blanks, hblanks, ⟨rfl, rfl⟩ | ⟨rfl, moreBlanks, hmore, rfl⟩⟩
  · -- the bracket closes after this piece
    obtain ⟨p, hp, htext⟩ := hpiece blanks hblanks
    rw [← List.append_assoc, htext]
    exact listed_singleton hp u
  · -- a comma, and the rest is read
    obtain ⟨p, hp, htext⟩ := hpiece blanks hblanks
    rw [← List.append_assoc, htext]
    exact (hread moreBlanks u hmore).bind (fun n h => h.cons hp) fun q h => h.cons hp

end Lists

/-! ### Values -/

/-- Reading the items of an array: texts of values. -/
abbrev EnsuresItems {α : Type} : List Char → Except ReadError (List α × List Char) → Prop :=
  EnsuresList ValueText id StopsAt ']'

/-- Reading the members of an object: texts of keys and of values. -/
abbrev EnsuresMembers {α : Type} : List Char → Except ReadError (List α × List Char) → Prop :=
  EnsuresList (fun m => KeyText m.1 ∧ ValueText m.2) memberText
    (fun n s => ∃ key t, KeyText key ∧ StopsAt n t ∧ s = memberText (key, t)) '\x7d'

theorem ensuresItems_succ {fuel : Nat} {blanks : List Char} (hblanks : Blanks blanks)
    (s : List Char) (hvalue : EnsuresValue s (value fuel s))
    (hitems : ∀ blanks u, Blanks blanks → EnsuresItems (blanks ++ u) (items fuel u)) :
    EnsuresItems (blanks ++ s) (items (fuel + 1) s) := by
  rw [items]
  refine hvalue.bind (fun n h => interrupted_of_stop (h.before hblanks)) ?_
  rintro ⟨v, r⟩ ⟨t, ht, rfl⟩
  rw [← List.append_assoc]
  refine ensuresList_step (fun after hafter => ?_) hitems
  exact ⟨_, (ht.before hblanks).after hafter, rfl⟩

theorem ensuresMembers_succ {fuel : Nat} {blanks : List Char} (hblanks : Blanks blanks)
    (s : List Char) (hvalue : ∀ s, EnsuresValue s (value fuel s))
    (hmembers : ∀ blanks u, Blanks blanks → EnsuresMembers (blanks ++ u) (members fuel u)) :
    EnsuresMembers (blanks ++ s) (members (fuel + 1) s) := by
  rw [members.eq_def]
  dsimp only
  split
  · next body =>
    refine (ensuresBody_string body).bind (fun _ h => h.elim) ?_
    rintro ⟨key, r⟩ ⟨k, hk, rfl⟩
    refine (ensures_colon r).bind (fun _ h => h.elim) ?_
    rintro u ⟨after, before, hafter, hbefore, rfl⟩
    have hkey : KeyText (blanks ++ '"' :: k ++ '"' :: after) := ⟨_, _, _, hblanks, hk, hafter, rfl⟩
    have hsplit : blanks ++ '"' :: (k ++ '"' :: (after ++ ':' :: (before ++ u))) =
        memberText (blanks ++ '"' :: k ++ '"' :: after, before ++ u) := by simp [memberText]
    rw [hsplit]
    refine (hvalue u).bind (fun n h => ?_) ?_
    · -- reading stops inside this value
      exact interrupted_of_stop ⟨_, _, hkey, h.before hbefore, rfl⟩
    · rintro ⟨v, r⟩ ⟨t, ht, rfl⟩
      have hmember : memberText (blanks ++ '"' :: k ++ '"' :: after, before ++ (t ++ r)) =
          memberText (blanks ++ '"' :: k ++ '"' :: after, before ++ t) ++ r := by simp [memberText]
      rw [hmember]
      refine ensuresList_step (fun blanks hblanks => ?_) hmembers
      exact ⟨(_, _), ⟨hkey, (ht.before hbefore).after hblanks⟩, by simp [memberText]⟩
  · trivial

theorem ensuresValue_arr {s : List Char} {vs : Except ReadError (List Json × List Char)}
    (h : EnsuresItems s vs) : EnsuresValue ('[' :: s) (vs.map fun p => (.arr p.1, p.2)) := by
  refine (h.mono (fun _ hp => hp) fun n hn => ?_).map ?_
  · -- the items before the one where reading stops are complete
    obtain ⟨ts, u, hts, hu, rfl⟩ := hn
    exact .item hts hu
  · rintro ⟨vs, rest⟩ ⟨ts, hne, hts, rfl⟩
    rw [List.map_id]
    exact ⟨_, .arr hne hts, by simp⟩

theorem ensuresValue_obj {s : List Char} {ms : Except ReadError (List (String × Json) × List Char)}
    (h : EnsuresMembers s ms) : EnsuresValue ('\x7b' :: s) (ms.map fun p => (.obj p.1, p.2)) := by
  refine (h.mono (fun _ hp => hp) fun n hn => ?_).map ?_
  · obtain ⟨ps, _, hps, ⟨key, u, hkey, hu, rfl⟩, rfl⟩ := hn
    exact .member (fun m hm => (hps m hm).1) (fun m hm => (hps m hm).2) hkey hu
  · rintro ⟨ms, rest⟩ ⟨ps, hne, hps, rfl⟩
    exact ⟨_, .obj hne (fun m hm => (hps m hm).1) (fun m hm => (hps m hm).2), by simp⟩

theorem ensuresValue_succ {fuel : Nat} (s : List Char)
    (hitems : ∀ blanks u, Blanks blanks → EnsuresItems (blanks ++ u) (items fuel u))
    (hmembers : ∀ blanks u, Blanks blanks → EnsuresMembers (blanks ++ u) (members fuel u)) :
    EnsuresValue s (value (fuel + 1) s) := by
  rw [value.eq_def]
  dsimp only
  -- what a value is shows at its first character
  split
  · next body =>
    refine ((ensuresBody_string body).mono (fun _ hp => hp) fun _ h => h.elim).map ?_
    rintro ⟨str, rest⟩ ⟨t, ht, rfl⟩
    exact ⟨_, .str ht, by simp⟩
  · next s =>
    obtain ⟨blanks, hblanks, hs⟩ := exists_skipBlanks_eq s
    split
    · next rest hclose =>
      rw [hs, hclose]
      exact ⟨_, .emptyArr hblanks, by simp⟩
    · -- the blanks that were skipped go to the first item
      have harr := hitems blanks (skipBlanks s) hblanks
      rw [← hs] at harr
      exact ensuresValue_arr harr
  · next s =>
    obtain ⟨blanks, hblanks, hs⟩ := exists_skipBlanks_eq s
    split
    · next rest hclose =>
      rw [hs, hclose]
      exact ⟨_, .emptyObj hblanks, by simp⟩
    · -- and here to the first key
      have hobj := hmembers blanks (skipBlanks s) hblanks
      rw [← hs] at hobj
      exact ensuresValue_obj hobj
  · exact ensuresValue_scalar _

/-- **Whatever comes of reading a value is what the grammar says**, and so for items and members.
Blanks that were skipped before a list are part of its first piece. -/
theorem ensures_read (fuel : Nat) :
    (∀ s, EnsuresValue s (value fuel s)) ∧
      (∀ blanks s, Blanks blanks → EnsuresItems (blanks ++ s) (items fuel s)) ∧
      ∀ blanks s, Blanks blanks → EnsuresMembers (blanks ++ s) (members fuel s) := by
  induction fuel with
  | zero =>
    -- without fuel nothing is read, and nothing has to be shown
    refine ⟨fun s => ?_, fun _ s _ => ?_, fun _ s _ => ?_⟩
    · rw [value]
      trivial
    · rw [items]
      trivial
    · rw [members]
      trivial
  | succ fuel ih =>
    obtain ⟨hvalue, hitems, hmembers⟩ := ih
    exact ⟨fun s => ensuresValue_succ s hitems hmembers,
      fun _ s hblanks => ensuresItems_succ hblanks s (hvalue s) hitems,
      fun _ s hblanks => ensuresMembers_succ hblanks s hvalue hmembers⟩

end Reader

end Json

end TypeText

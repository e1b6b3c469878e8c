import TypeText.Proofs.Canonical

/-!
# Canonical trees can be read back from their text

Two canonical trees with the same text are the same tree.  The proof cuts a text from
the front, as a reader would.  Modifiers come off first, since no type starts like one
of them.  Then the word in front of the first delimiter, together with that delimiter,
decides the kind.  Below a kind the parts follow one another, and each of them ends
where a delimiter stands that it cannot contain.

The induction is on one of the trees, and its claim is about texts with something
after them: a type cut from the front of two texts leaves the same rest.

## Main definitions

* `Follows ds r` — `r` is empty or starts with one of `ds`.
* `Opens t` — a type without modifiers starts here.
* `kindAt t` — the kind that the start of a text shows.
* `Reads f ok a` — `a` can be cut from the front of a text.

## Main results

* `before_cancel` — modifiers can be cut from the front of a text.
* `kind?_eq_kindAt` — the kind of a canonical tree shows at the start of its text.
* `listed_cancel` — a list can be cut from the front of a text, if its items can.
* `Canonical.reads` — **a canonical tree can be cut from the front of a text.**
* `eq_of_render_eq` — canonical trees with the same text are equal.
-/

set_option autoImplicit false

namespace TypeText

/-! ### What may follow -/

/-- The delimiters that may follow a type. -/
def closers : List Char := [')', '\x7d', '>', '|', ',']

/-- The delimiters that may follow a type without its modifiers. -/
def bareClosers : List Char := '=' :: closers

/-- A text that is empty or starts with one of the given characters. -/
def Follows (ds r : List Char) : Prop := ∀ d ∈ r.head?, d ∈ ds

theorem follows_nil (ds : List Char) : Follows ds [] := by
  intro d hd
  simp at hd

theorem follows_cons {ds : List Char} {d : Char} (h : d ∈ ds) (r : List Char) :
    Follows ds (d :: r) := by
  intro e he
  simp only [List.head?_cons, Option.mem_some_iff] at he
  exact he ▸ h

theorem Follows.mono {ds es r : List Char} (h : Follows ds r) (hsub : ds ⊆ es) : Follows es r :=
  fun d hd => hsub (h d hd)

/-- What follows starts with nothing else. -/
theorem Follows.ne_cons {ds r : List Char} (h : Follows ds r) {d : Char} (hd : d ∉ ds)
    (u : List Char) : r ≠ d :: u := by
  intro hr
  exact hd (h d (by rw [hr]; rfl))

theorem closers_subset_bareClosers : closers ⊆ bareClosers := by
  intro d hd
  exact List.mem_cons_of_mem _ hd

theorem bareClosers_subset_delimiters : bareClosers ⊆ delimiters := by
  decide

/-! ### Words -/

/-- Whether a character belongs to a word. -/
def isWordChar (d : Char) : Bool := !delimiters.contains d

/-- The word in front of a delimiter. -/
theorem takeWhile_word {w r : List Char} (hw : ∀ d ∈ w, isWordChar d) (hr : Follows delimiters r) :
    (w ++ r).takeWhile isWordChar = w := by
  rw [List.takeWhile_append_of_pos hw]
  cases r with
  | nil => simp
  | cons d r =>
    -- the word ends here, since a delimiter does not belong to it
    have hd : isWordChar d = false := by simpa [isWordChar] using hr d rfl
    rw [List.takeWhile_cons_of_neg (by simp [hd]), List.append_nil]

/-- What stands after the word in front of a delimiter. -/
theorem dropWhile_word {w r : List Char} (hw : ∀ d ∈ w, isWordChar d) (hr : Follows delimiters r) :
    (w ++ r).dropWhile isWordChar = r := by
  have hsplit := List.takeWhile_append_dropWhile (p := isWordChar) (l := w ++ r)
  rw [takeWhile_word hw hr] at hsplit
  exact List.append_cancel_left hsplit

/-- A word can be cut from the front of a text. -/
theorem word_cancel {v w r s : List Char} (hv : ∀ d ∈ v, isWordChar d)
    (hw : ∀ d ∈ w, isWordChar d) (hr : Follows delimiters r) (hs : Follows delimiters s)
    (h : v ++ r = w ++ s) : v = w ∧ r = s := by
  have hword : v = w := by rw [← takeWhile_word hv hr, h, takeWhile_word hw hs]
  exact ⟨hword, List.append_cancel_left (hword ▸ h)⟩

/-- What makes a text an identifier. -/
theorem isIdentifier_iff {s : String} :
    isIdentifier s ↔ (s ≠ "" ∧ ∀ d ∈ s.toList, isWordChar d) ∧ s.toList.head? ≠ some '?' ∧
      s.toList.head? ≠ some '!' ∧ ¬ ['.', '.', '.'] <+: s.toList ∧ s ∉ reservedWords := by
  rw [← List.isPrefixOf_iff_prefix, Bool.not_eq_true]
  simp [isIdentifier, isWordChar, and_assoc]

/-- An identifier is not empty. -/
theorem ne_empty_of_isIdentifier {s : String} (h : isIdentifier s) : s ≠ "" :=
  (isIdentifier_iff.mp h).1.1

/-- An identifier is a word. -/
theorem isWordChar_of_isIdentifier {s : String} (h : isIdentifier s) :
    ∀ d ∈ s.toList, isWordChar d :=
  (isIdentifier_iff.mp h).1.2

/-! ### Where a type starts -/

/-- A text that starts like a type without modifiers: not with a delimiter that follows
one, not with a modifier, and with a question mark only if the question mark is all of
it. -/
structure Opens (t : List Char) : Prop where
  starts : ∃ d u, t = d :: u ∧ d ∉ bareClosers
  notRepeated : ¬ ['.', '.', '.'] <+: t
  notExcluded : ∀ u, t ≠ '!' :: u
  notNullable : ∀ u, t = '?' :: u → Follows bareClosers u

/-- Another type cannot start after a question mark that is a type itself. -/
theorem Opens.ne_question {t : List Char} (ht : Opens t) {u : List Char} (hu : Opens u) :
    t ≠ '?' :: u := by
  intro h
  obtain ⟨d, v, rfl, hd⟩ := hu.starts
  exact (ht.notNullable _ h).ne_cons hd v rfl

/-- A type starts with an identifier. -/
theorem opens_identifier {s : String} (hs : isIdentifier s) {r : List Char}
    (hr : Follows delimiters r) : Opens (s.toList ++ r) := by
  obtain ⟨⟨hne, hword⟩, hquestion, hbang, hdots, -⟩ := isIdentifier_iff.mp hs
  have hnil : s.toList ≠ [] := by simpa using hne
  obtain ⟨d, u, hdu⟩ := List.exists_cons_of_ne_nil hnil
  have hd : d ∉ delimiters := by
    have := hword d (by rw [hdu]; exact List.mem_cons_self)
    simpa [isWordChar] using this
  have hhead : (s.toList ++ r).head? = s.toList.head? := by rw [hdu]; rfl
  refine ⟨⟨d, u ++ r, by rw [hdu]; rfl, fun h => hd (bareClosers_subset_delimiters h)⟩, ?_, ?_, ?_⟩
  · -- The dots are word characters, so that all of them would belong to the name.
    rintro ⟨v, hv⟩
    have hs' := takeWhile_word hword hr
    rw [← hv, List.takeWhile_append_of_pos (List.all_eq_true.mp rfl)] at hs'
    exact hdots ⟨_, hs'⟩
  · intro v hv
    rw [hv] at hhead
    exact hbang hhead.symm
  · intro v hv
    rw [hv] at hhead
    exact absurd hhead.symm hquestion

/-- What stands in front of a type is nothing, or starts with the sign of a modifier. -/
theorem Modifiers.before_cases (m : Modifiers) :
    m.before = [] ∨ ∃ d u, m.before = d :: u ∧ d ∈ ['.', '?', '!'] := by
  unfold Modifiers.before
  cases m.repeatable with
  | true => exact Or.inr ⟨'.', _, rfl, by decide⟩
  | false =>
    cases m.nullable with
    | unspecified => exact Or.inl rfl
    | nullable => exact Or.inr ⟨'?', _, rfl, by decide⟩
    | nonNullable => exact Or.inr ⟨'!', _, rfl, by decide⟩

theorem modifier_not_mem_closers {d : Char} (hd : d ∈ ['.', '?', '!']) : d ∉ closers := by
  simp only [List.mem_cons, List.not_mem_nil, or_false] at hd
  rcases hd with rfl | rfl | rfl <;> decide

/-- Modifiers can be cut from the front of a text. -/
theorem before_cancel {m k : Modifiers} {t u : List Char} (ht : Opens t) (hu : Opens u)
    (h : m.before ++ t = k.before ++ u) :
    m.repeatable = k.repeatable ∧ m.nullable = k.nullable ∧ t = u := by
  have hdots : ∀ (n : Nullability) {v : List Char}, Opens v →
      ¬ ['.', '.', '.'] <+: n.mark.toList ++ v := by
    intro n v hv hpre
    cases n with
    | unspecified => exact hv.notRepeated hpre
    | nullable => simp [Nullability.mark] at hpre
    | nonNullable => simp [Nullability.mark] at hpre
  -- A text that opens a type has no dots of its own, so that dots are a mark or nothing.
  have hmarks : m.repeatable = k.repeatable ∧
      m.nullable.mark.toList ++ t = k.nullable.mark.toList ++ u := by
    unfold Modifiers.before at h
    cases hm : m.repeatable <;> cases hk : k.repeatable <;>
      simp only [hm, hk, Bool.false_eq_true, if_true, if_false, List.nil_append,
        List.append_assoc] at h
    · exact ⟨rfl, h⟩
    · -- dots on one side only
      exact absurd ⟨_, h.symm⟩ (hdots _ ht)
    · exact absurd ⟨_, h⟩ (hdots _ hu)
    · exact ⟨rfl, List.append_cancel_left h⟩
  obtain ⟨hrepeatable, h⟩ := hmarks
  refine ⟨hrepeatable, ?_⟩
  cases hm : m.nullable <;> cases hk : k.nullable <;>
    simp only [hm, hk, Nullability.mark, String.toList_empty, List.nil_append] at h
  · exact ⟨rfl, h⟩
  · -- a question mark in front of a type is not a type by itself
    exact absurd h (ht.ne_question hu)
  · exact absurd h (ht.notExcluded u)
  · exact absurd h.symm (hu.ne_question ht)
  · exact ⟨rfl, List.append_cancel_left h⟩
  · simp at h
  · exact absurd h.symm (hu.notExcluded t)
  · simp at h
  · exact ⟨rfl, List.append_cancel_left h⟩

section Bodies

variable {c : Config}

/-- No canonical tree has an empty text. -/
theorem Canonical.chars_ne_nil (hc : c.IsPlain) {n : Node} (h : Canonical isIdentifier n) :
    n.chars c ≠ [] := by
  rw [chars_eq hc]
  induction h with
  | name m s inner hs hinner hmark ih =>
    have hne := ne_empty_of_isIdentifier hs
    have hchars : ∀ t ∈ inner, t.chars c ≠ [] := by
      intro t ht
      rw [chars_eq hc]
      exact ih t ht
    simp [bodyChars_ofName hc hne hchars, hne]
  | literal m k hk =>
    -- each of the four literals has a word
    have hword : k.literal ≠ "" := by
      simp only [List.mem_cons, List.not_mem_nil, or_false] at hk
      rcases hk with rfl | rfl | rfl | rfl <;> decide
    simp [bodyChars_ofLiteral hc hk, hword]
  | union m members hne hmembers ih => simp [bodyChars_ofUnion hne]
  | record m fields hkeys hvalues ih => simp [bodyChars_ofRecord]
  | application m s arguments hs harguments ih =>
    simp [bodyChars_ofApplication hc (ne_empty_of_isIdentifier hs)]
  | function m newType thisType params result hnew hthis hparams hresult hmark ihnew ihthis
      ihparams ihresult =>
    have hchars : ∀ t ∈ params, t.chars c ≠ [] := by
      intro t ht
      rw [chars_eq hc]
      exact ihparams t ht
    simp [bodyChars_ofFunction _ _ hchars]

/-- What follows a part that may be missing, or the part itself with its colon. -/
theorem follows_slotChars {α : Type} (label : List Char) (f : α → List Char) (o : Option α)
    {ds r : List Char} (hr : Follows ds r) :
    Follows (':' :: ds) (slotChars (':' :: label) f o ++ r) := by
  cases o with
  | none => exact hr.mono (List.subset_cons_self _ _)
  | some a => exact follows_cons List.mem_cons_self _

theorem colon_bareClosers_subset_delimiters : ':' :: bareClosers ⊆ delimiters := by
  decide

theorem equals_colon_closers_subset_delimiters : '=' :: ':' :: closers ⊆ delimiters := by
  decide

/-- A text that starts with neither a delimiter nor a modifier. -/
theorem opens_cons {d : Char} (hd : d ∉ bareClosers) (hmark : d ∉ ['.', '!', '?'])
    (u : List Char) : Opens (d :: u) := by
  simp only [List.mem_cons, List.not_mem_nil, or_false, not_or] at hmark
  refine ⟨⟨d, u, rfl, hd⟩, ?_, ?_, ?_⟩
  · rintro ⟨v, hv⟩
    rw [List.cons_append, List.cons.injEq] at hv
    exact hmark.1 hv.1.symm
  · intro v hv
    rw [List.cons.injEq] at hv
    exact hmark.2.1 hv.1
  · intro v hv
    rw [List.cons.injEq] at hv
    exact absurd hv.1 hmark.2.2

/-- The text of a canonical tree without its modifiers starts like a type. -/
theorem Canonical.opens (hc : c.IsPlain) {n : Node} (h : Canonical isIdentifier n)
    {r : List Char} (hr : Follows bareClosers r) : Opens (n.layer.bodyChars c ++ r) := by
  cases h with
  | name m s inner hs hinner hmark =>
    rw [bodyChars_apply, bodyChars_ofName hc (ne_empty_of_isIdentifier hs)
      fun t ht => (hinner t ht).chars_ne_nil hc, List.append_assoc]
    exact opens_identifier hs
      ((follows_slotChars [] _ inner hr).mono colon_bareClosers_subset_delimiters)
  | literal m k hk =>
    rw [bodyChars_apply, bodyChars_ofLiteral hc hk]
    simp only [List.mem_cons, List.not_mem_nil, or_false] at hk
    rcases hk with rfl | rfl | rfl | rfl
    · exact opens_cons (by decide) (by decide) _
    · exact opens_cons (by decide) (by decide) _
    · exact opens_cons (by decide) (by decide) _
    · -- The question mark stands alone: what follows it cannot start a type.
      refine ⟨⟨'?', r, rfl, by decide⟩, by simp [Kind.literal], by simp [Kind.literal], ?_⟩
      intro u hu
      simp only [Kind.literal] at hu
      obtain rfl : r = u := by simpa using hu
      exact hr
  | union m members hne hmembers =>
    rw [bodyChars_apply, bodyChars_ofUnion hne]
    exact opens_cons (by decide) (by decide) _
  | record m fields hkeys hvalues =>
    rw [bodyChars_apply, bodyChars_ofRecord]
    exact opens_cons (by decide) (by decide) _
  | application m s arguments hs harguments =>
    rw [bodyChars_apply, bodyChars_ofApplication hc (ne_empty_of_isIdentifier hs),
      List.append_assoc]
    exact opens_identifier hs (follows_cons (by decide) _)
  | function m newType thisType params result hnew hthis hparams hresult hmark =>
    rw [bodyChars_apply, bodyChars_ofFunction _ _ fun t ht => (hparams t ht).chars_ne_nil hc]
    exact opens_cons (by decide) (by decide) _

/-! ### The kind at the start of a text -/

/-- The kind of a type that starts with a word and goes on with the given text. -/
def kindOf (word : List Char) : List Char → Kind
  | '<' :: _ => .application
  | '(' :: _ => if word = [] then .union else .function
  | '\x7b' :: _ => .record
  | _ =>
    ([Kind.all, .null, .undefined, .unknown].find? fun k => k.literal.toList == word).getD .name

/-- The kind of the type without modifiers at the start of a text. -/
def kindAt (t : List Char) : Kind := kindOf (t.takeWhile isWordChar) (t.dropWhile isWordChar)

theorem kindAt_append {w r : List Char} (hw : ∀ d ∈ w, isWordChar d) (hr : Follows delimiters r) :
    kindAt (w ++ r) = kindOf w r := by
  rw [kindAt, takeWhile_word hw hr, dropWhile_word hw hr]

/-- A word that is not followed by an opening bracket is a literal or a name. -/
theorem kindOf_follows (w : List Char) {r : List Char} (hr : Follows (':' :: bareClosers) r) :
    kindOf w r = ([Kind.all, .null, .undefined, .unknown].find? fun k =>
      k.literal.toList == w).getD .name := by
  cases r with
  | nil => rfl
  | cons d r =>
    have hd : d ∈ ':' :: bareClosers := hr d rfl
    simp only [bareClosers, closers, List.mem_cons, List.not_mem_nil, or_false] at hd
    rcases hd with rfl | rfl | rfl | rfl | rfl | rfl | rfl <;> rfl

/-- The kind of a canonical tree shows at the start of its text. -/
theorem Canonical.kind?_eq_kindAt (hc : c.IsPlain) {n : Node} (h : Canonical isIdentifier n)
    {r : List Char} (hr : Follows bareClosers r) :
    n.layer.kind? = some (kindAt (n.layer.bodyChars c ++ r)) := by
  cases h with
  | name m s inner hs hinner hmark =>
    have hslot := follows_slotChars [] (Node.chars c) inner hr
    obtain ⟨⟨hne, hword⟩, hquestion, -, -, hreserved⟩ := isIdentifier_iff.mp hs
    -- A name is no literal: three of them are reserved, the fourth is a question mark.
    have hliteral : ∀ k ∈ [Kind.all, .null, .undefined, .unknown],
        ¬ (k.literal.toList == s.toList) := by
      intro k hk heq
      obtain rfl : k.literal = s := String.toList_inj.mp (by simpa using heq)
      simp only [List.mem_cons, List.not_mem_nil, or_false] at hk
      rcases hk with rfl | rfl | rfl | rfl
      · exact hreserved (by decide)
      · exact hreserved (by decide)
      · exact hreserved (by decide)
      · exact hquestion (by decide)
    rw [kind?_apply, Layer.kind?_ofName, bodyChars_apply, bodyChars_ofName hc hne
      fun t ht => (hinner t ht).chars_ne_nil hc, List.append_assoc, kindAt_append hword
        (hslot.mono colon_bareClosers_subset_delimiters), kindOf_follows _ hslot,
      List.find?_eq_none.mpr hliteral]
    rfl
  | literal m k hk =>
    have hfollows := hr.mono (List.subset_cons_self ':' _)
    rw [kind?_apply, Layer.kind?_ofLiteral, bodyChars_apply, bodyChars_ofLiteral hc hk]
    rw [kindAt_append _ (hr.mono bareClosers_subset_delimiters), kindOf_follows _ hfollows]
    · simp only [List.mem_cons, List.not_mem_nil, or_false] at hk
      rcases hk with rfl | rfl | rfl | rfl <;> decide
    · simp only [List.mem_cons, List.not_mem_nil, or_false] at hk
      rcases hk with rfl | rfl | rfl | rfl <;> exact List.all_eq_true.mp rfl
  | union m members hne hmembers =>
    rw [kind?_apply, Layer.kind?_ofUnion, bodyChars_apply, bodyChars_ofUnion hne]
    rfl
  | record m fields hkeys hvalues =>
    rw [kind?_apply, Layer.kind?_ofRecord, bodyChars_apply, bodyChars_ofRecord]
    rfl
  | application m s arguments hs harguments =>
    rw [kind?_apply, Layer.kind?_ofApplication, bodyChars_apply, bodyChars_ofApplication hc
      (ne_empty_of_isIdentifier hs), List.append_assoc, List.cons_append, kindAt_append
        (isWordChar_of_isIdentifier hs) (follows_cons (by decide) _)]
    rfl
  | function m newType thisType params result hnew hthis hparams hresult hmark =>
    rw [kind?_apply, Layer.kind?_ofFunction, bodyChars_apply, bodyChars_ofFunction _ _
      fun t ht => (hparams t ht).chars_ne_nil hc]
    rfl

end Bodies

/-! ### Lists -/

/-- A text can be cut from the front of another one: where the texts of `a` and of some
`b` start the same text, they are the same and leave the same rest. -/
def Reads {α : Type} (f : α → List Char) (ok : α → Prop) (a : α) : Prop :=
  ∀ b, ok b → ∀ r s, Follows closers r → Follows closers s → f a ++ r = f b ++ s → a = b ∧ r = s

section Lists

variable {α : Type} {f : α → List Char} {ok : α → Prop} {d close : Char} {sep : List Char}

/-- The items of a list after the first can be cut from the front of a text. -/
theorem listedTail_cancel (hd : d ∈ closers) (hclose : close ∈ closers) (hne : d ≠ close) :
    ∀ {as bs : List α}, (∀ a ∈ as, Reads f ok a) → (∀ b ∈ bs, ok b) → ∀ {r s : List Char},
      (as.map f).flatMap (d :: sep ++ ·) ++ close :: r =
        (bs.map f).flatMap (d :: sep ++ ·) ++ close :: s → as = bs ∧ r = s := by
  intro as
  have hfollows : ∀ (xs : List α) (r : List Char),
      Follows closers ((xs.map f).flatMap (d :: sep ++ ·) ++ close :: r) := by
    intro xs r
    cases xs with
    | nil => exact follows_cons hclose _
    | cons x xs => exact follows_cons hd _
  induction as with
  | nil =>
    intro bs _ _ r s h
    cases bs with
    | nil => simpa using h
    | cons b bs =>
      -- one list ends where the other has a separator
      simp only [List.map_nil, List.flatMap_nil, List.nil_append, List.map_cons, List.flatMap_cons,
        List.cons_append, List.cons.injEq] at h
      exact absurd h.1.symm hne
  | cons a as ih =>
    intro bs has hbs r s h
    cases bs with
    | nil =>
      simp only [List.map_nil, List.flatMap_nil, List.nil_append, List.map_cons, List.flatMap_cons,
        List.cons_append, List.cons.injEq] at h
      exact absurd h.1 hne
    | cons b bs =>
      -- the first items are cut off, and what is left are two shorter tails
      simp only [List.map_cons, List.flatMap_cons, List.append_assoc] at h
      obtain ⟨rfl, htail⟩ := has a List.mem_cons_self b (hbs b List.mem_cons_self) _ _
        (hfollows as r) (hfollows bs s) (List.append_cancel_left h)
      obtain ⟨rfl, hrest⟩ := ih (fun x hx => has x (List.mem_cons_of_mem _ hx))
        (fun x hx => hbs x (List.mem_cons_of_mem _ hx)) htail
      exact ⟨rfl, hrest⟩

/-- A list can be cut from the front of a text, if its items can and none of them starts
like the end of the list. -/
theorem listed_cancel (hd : d ∈ closers) (hclose : close ∈ closers) (hne : d ≠ close)
    (hstart : ∀ a r s, ok a → f a ++ r ≠ close :: s) {as bs : List α}
    (has : ∀ a ∈ as, ok a ∧ Reads f ok a) (hbs : ∀ b ∈ bs, ok b) {r s : List Char}
    (h : (d :: sep).intercalate (as.map f) ++ close :: r =
      (d :: sep).intercalate (bs.map f) ++ close :: s) : as = bs ∧ r = s := by
  cases as with
  | nil =>
    cases bs with
    | nil => simpa using h
    | cons b bs =>
      -- no item starts with the closing bracket
      rw [List.map_cons, intercalate_cons_eq, List.append_assoc] at h
      exact absurd h.symm (hstart b _ _ (hbs b List.mem_cons_self))
  | cons a as =>
    cases bs with
    | nil =>
      rw [List.map_cons, intercalate_cons_eq, List.append_assoc] at h
      exact absurd h (hstart a _ _ (has a List.mem_cons_self).1)
    | cons b bs =>
      -- A separator in front of the first item makes both lists tails.
      rw [List.map_cons, List.map_cons, intercalate_cons_eq, intercalate_cons_eq] at h
      have htail : ((a :: as).map f).flatMap (d :: sep ++ ·) ++ close :: r =
          ((b :: bs).map f).flatMap (d :: sep ++ ·) ++ close :: s := by
        simp only [List.map_cons, List.flatMap_cons, List.append_assoc] at h ⊢
        rw [h]
      exact listedTail_cancel hd hclose hne (fun x hx => (has x hx).2) hbs htail

end Lists

/-! ### Nodes of one kind -/

section Inversion

variable {names : String → Bool} {n : Node}

theorem Canonical.exists_ofName (h : Canonical names n) (hk : n.layer.kind? = some .name) :
    ∃ m s inner, n = Modifiers.apply m (.ofName s inner) ∧ names s ∧
      (∀ t ∈ inner, Canonical names t) ∧ ∀ t ∈ inner, t.layer.optional = .bool false := by
  cases h with
  | name m s inner hs hinner hmark => exact ⟨m, s, inner, rfl, hs, hinner, hmark⟩
  | literal m k hk' => simp_all
  | _ => simp at hk

theorem Canonical.exists_ofLiteral {k : Kind} (hk' : k ∈ [Kind.all, .null, .undefined, .unknown])
    (h : Canonical names n) (hk : n.layer.kind? = some k) :
    ∃ m, n = Modifiers.apply m (.ofLiteral k) := by
  cases h with
  | literal m k' _ =>
    obtain rfl : k' = k := by simpa using hk
    exact ⟨m, rfl⟩
  | _ =>
    simp only [kind?_apply, Layer.kind?_ofName, Layer.kind?_ofUnion, Layer.kind?_ofRecord,
      Layer.kind?_ofApplication, Layer.kind?_ofFunction, Option.some.injEq] at hk
    subst hk
    simp at hk'

theorem Canonical.exists_ofUnion (h : Canonical names n) (hk : n.layer.kind? = some .union) :
    ∃ m members, n = Modifiers.apply m (.ofUnion members) ∧ members ≠ [] ∧
      ∀ t ∈ members, Canonical names t := by
  cases h with
  | union m members hne hmembers => exact ⟨m, members, rfl, hne, hmembers⟩
  | literal m k hk' => simp_all
  | _ => simp at hk

theorem Canonical.exists_ofRecord (h : Canonical names n) (hk : n.layer.kind? = some .record) :
    ∃ m fields, n = Modifiers.apply m (.ofRecord fields) ∧
      (∀ f ∈ fields, ∃ (k : Modifiers) (s : String),
        names s ∧ f.key = some (k.apply (.ofName s none))) ∧
      ∀ f ∈ fields, ∀ t ∈ f.value, Canonical names t := by
  cases h with
  | record m fields hkeys hvalues => exact ⟨m, fields, rfl, hkeys, hvalues⟩
  | literal m k hk' => simp_all
  | _ => simp at hk

theorem Canonical.exists_ofApplication (h : Canonical names n)
    (hk : n.layer.kind? = some .application) :
    ∃ m s arguments, n = Modifiers.apply m (.ofApplication s arguments) ∧ names s ∧
      ∀ t ∈ arguments, Canonical names t := by
  cases h with
  | application m s arguments hs harguments => exact ⟨m, s, arguments, rfl, hs, harguments⟩
  | literal m k hk' => simp_all
  | _ => simp at hk

theorem Canonical.exists_ofFunction (h : Canonical names n)
    (hk : n.layer.kind? = some .function) :
    ∃ m newType thisType params result,
      n = Modifiers.apply m (.ofFunction newType thisType params result) ∧
      (∀ t ∈ newType, Canonical names t) ∧ (∀ t ∈ thisType, Canonical names t) ∧
      (∀ t ∈ params, Canonical names t) ∧ (∀ t ∈ result, Canonical names t) ∧
      ∀ t ∈ result, t.layer.optional = .bool false := by
  cases h with
  | function m newType thisType params result hnew hthis hparams hresult hmark =>
    exact ⟨m, newType, thisType, params, result, rfl, hnew, hthis, hparams, hresult, hmark⟩
  | literal m k hk' => simp_all
  | _ => simp at hk

end Inversion

/-! ### From a node without modifiers to a node -/

/-- A node without its modifiers. -/
def Node.bare (n : Node) : Node := ({} : Modifiers).apply n.layer

/-- A canonical tree is given by its modifiers and by what is left without them. -/
theorem Canonical.apply_bare {names : String → Bool} {n : Node} (h : Canonical names n) :
    n.modifiers.apply n.bare.layer = n := by
  cases h <;> rfl

/-- The text of a node without its modifiers can be cut from the front of a text. -/
def BodyReads (c : Config) (a : Node) : Prop :=
  ∀ b, Canonical isIdentifier b → ∀ r s, Follows bareClosers r → Follows bareClosers s →
    a.layer.bodyChars c ++ r = b.layer.bodyChars c ++ s → a.bare = b.bare ∧ r = s

theorem follows_after (m : Modifiers) {ds r : List Char} (hr : Follows ds r) :
    Follows ('=' :: ds) (m.after ++ r) := by
  unfold Modifiers.after
  split
  · exact follows_cons List.mem_cons_self _
  · exact hr.mono (List.subset_cons_self _ _)

/-- The sign after a type can be cut from the front of a text. -/
theorem after_cancel {m k : Modifiers} {ds r s : List Char} (hds : '=' ∉ ds) (hr : Follows ds r)
    (hs : Follows ds s) (h : m.after ++ r = k.after ++ s) : m.optional = k.optional ∧ r = s := by
  unfold Modifiers.after at h
  cases hm : m.optional <;> cases hk : k.optional <;>
    simp only [hm, hk, Bool.false_eq_true, if_true, if_false, List.nil_append,
      List.cons_append] at h
  · exact ⟨rfl, h⟩
  · -- the sign on one side only, where the rest does not start with it
    exact absurd h (hr.ne_cons hds s)
  · exact absurd h.symm (hs.ne_cons hds r)
  · exact ⟨rfl, (List.cons.inj h).2⟩

section Nodes

variable {c : Config} {a b : Node}

/-- A node can be cut from the front of a text up to the sign after it. -/
theorem BodyReads.cancel_before (hc : c.IsPlain) (h : BodyReads c a)
    (ha : Canonical isIdentifier a) (hb : Canonical isIdentifier b) {r s : List Char}
    (hr : Follows bareClosers (a.modifiers.after ++ r))
    (hs : Follows bareClosers (b.modifiers.after ++ s)) (heq : a.chars c ++ r = b.chars c ++ s) :
    a.bare = b.bare ∧ a.modifiers.repeatable = b.modifiers.repeatable ∧
      a.modifiers.nullable = b.modifiers.nullable ∧
      a.modifiers.after ++ r = b.modifiers.after ++ s := by
  rw [chars_eq hc, chars_eq hc] at heq
  simp only [List.append_assoc] at heq
  obtain ⟨hrepeatable, hnullable, hbody⟩ := before_cancel (ha.opens hc hr) (hb.opens hc hs) heq
  obtain ⟨hbare, hrest⟩ := h b hb _ _ hr hs hbody
  exact ⟨hbare, hrepeatable, hnullable, hrest⟩

/-- Canonical trees that agree in everything that is shown are equal. -/
theorem Canonical.eq_of_bare {names : String → Bool} (ha : Canonical names a)
    (hb : Canonical names b) (hbare : a.bare = b.bare)
    (hrepeatable : a.modifiers.repeatable = b.modifiers.repeatable)
    (hnullable : a.modifiers.nullable = b.modifiers.nullable)
    (hoptional : a.modifiers.optional = b.modifiers.optional) : a = b := by
  have hmodifiers : a.modifiers = b.modifiers := by
    cases hm : a.modifiers
    cases hk : b.modifiers
    simp_all
  rw [← ha.apply_bare, ← hb.apply_bare, hbare, hmodifiers]

/-- A node can be cut from the front of a text. -/
theorem BodyReads.reads (hc : c.IsPlain) (h : BodyReads c a) (ha : Canonical isIdentifier a) :
    Reads (Node.chars c) (Canonical isIdentifier) a := by
  intro b hb r s hr hs heq
  obtain ⟨hbare, hrepeatable, hnullable, hafter⟩ :=
    h.cancel_before hc ha hb (follows_after _ hr) (follows_after _ hs) heq
  obtain ⟨hoptional, hrest⟩ := after_cancel (by decide) hr hs hafter
  exact ⟨ha.eq_of_bare hb hbare hrepeatable hnullable hoptional, hrest⟩

/-- A node that is not optional can be cut from the front of a text even where the sign
of an optional type comes next. -/
theorem BodyReads.cancel_of_required (hc : c.IsPlain) (h : BodyReads c a)
    (ha : Canonical isIdentifier a) (hb : Canonical isIdentifier b)
    (hra : a.layer.optional = .bool false) (hrb : b.layer.optional = .bool false)
    {r s : List Char} (hr : Follows bareClosers r) (hs : Follows bareClosers s)
    (heq : a.chars c ++ r = b.chars c ++ s) : a = b ∧ r = s := by
  have hoa : a.modifiers.optional = false := by simp [Node.modifiers, hra, Json.isTrue]
  have hob : b.modifiers.optional = false := by simp [Node.modifiers, hrb, Json.isTrue]
  have haa : a.modifiers.after = [] := by simp [Modifiers.after, hoa]
  have hab : b.modifiers.after = [] := by simp [Modifiers.after, hob]
  obtain ⟨hbare, hrepeatable, hnullable, hrest⟩ :=
    h.cancel_before hc ha hb (by rwa [haa]) (by rwa [hab]) heq
  rw [haa, hab] at hrest
  exact ⟨ha.eq_of_bare hb hbare hrepeatable hnullable (hoa.trans hob.symm), hrest⟩

/-- No canonical tree starts like the end of a list. -/
theorem Canonical.chars_append_ne (hc : c.IsPlain) (ha : Canonical isIdentifier a) {d : Char}
    (hd : d ∈ closers) (r s : List Char) : a.chars c ++ r ≠ d :: s := by
  intro h
  obtain ⟨e, u, hbody, he⟩ := (ha.opens hc (follows_after a.modifiers (follows_nil _))).starts
  rw [List.append_nil] at hbody
  have hchars := chars_eq hc a
  rw [hbody] at hchars
  rw [hchars, List.append_assoc] at h
  rcases a.modifiers.before_cases with hbefore | ⟨e', u', hbefore, he'⟩
  · -- without modifiers it starts as its kind does
    rw [hbefore] at h
    obtain ⟨rfl, -⟩ := List.cons.inj h
    exact he (closers_subset_bareClosers hd)
  · rw [hbefore] at h
    obtain ⟨rfl, -⟩ := List.cons.inj h
    exact modifier_not_mem_closers he' hd

/-- A part that may be missing can be cut from the front of a text, if it can where it
is there. -/
theorem slot_cancel {label : List Char} {o p : Option Node} {r s : List Char}
    (hr : Follows bareClosers r) (hs : Follows bareClosers s)
    (hcancel : ∀ t ∈ o, ∀ u ∈ p, t.chars c ++ r = u.chars c ++ s → t = u ∧ r = s)
    (h : slotChars (':' :: label) (Node.chars c) o ++ r =
      slotChars (':' :: label) (Node.chars c) p ++ s) : o = p ∧ r = s := by
  cases o with
  | none =>
    cases p with
    | none => exact ⟨rfl, h⟩
    -- what follows does not start with a colon
    | some u => exact absurd h (hr.ne_cons (by decide) _)
  | some t =>
    cases p with
    | none => exact absurd h.symm (hs.ne_cons (by decide) _)
    | some u =>
      simp only [slotChars_some, List.append_assoc] at h
      obtain ⟨rfl, hrest⟩ := hcancel t rfl u rfl (List.append_cancel_left h)
      exact ⟨rfl, hrest⟩

/-! ### Fields and signatures -/

/-- What a canonical record has for fields. -/
def CanonicalField (f : Field Node) : Prop :=
  (∃ (k : Modifiers) (s : String), isIdentifier s ∧ f.key = some (k.apply (.ofName s none))) ∧
    ∀ t ∈ f.value, Canonical isIdentifier t

/-- The text of a field. -/
def fieldChars (c : Config) (f : Field Node) : List Char :=
  f.key.elim [] (Node.chars c) ++ slotChars [':', ' '] (Node.chars c) f.value

/-- The text of a field with a key, piece by piece. -/
theorem fieldChars_append (hc : c.IsPlain) {k : Modifiers} {s : String} (hs : isIdentifier s)
    (value : Option Node) (r : List Char) :
    fieldChars c ⟨some (k.apply (.ofName s none)), value⟩ ++ r =
      k.before ++ (s.toList ++ (k.after ++ (slotChars [':', ' '] (Node.chars c) value ++ r))) := by
  simp only [fieldChars, Option.elim_some]
  rw [chars_eq hc, modifiers_apply, bodyChars_apply,
    bodyChars_ofName hc (ne_empty_of_isIdentifier hs) (by simp)]
  simp only [slotChars_none, List.append_nil, List.append_assoc]

/-- No field starts like the end of a list. -/
theorem fieldChars_append_ne (hc : c.IsPlain) {f : Field Node} (hf : CanonicalField f) {d : Char}
    (hd : d ∈ closers) (r s : List Char) : fieldChars c f ++ r ≠ d :: s := by
  obtain ⟨⟨k, v, hv, hkey⟩, -⟩ := hf
  rw [fieldChars, hkey, Option.elim_some, List.append_assoc]
  exact (Canonical.name k v none hv (by simp) (by simp)).chars_append_ne hc hd _ s

/-- A field can be cut from the front of a text, if its value can. -/
theorem reads_field (hc : c.IsPlain) {f : Field Node} (hf : CanonicalField f)
    (hvalue : ∀ t ∈ f.value, Reads (Node.chars c) (Canonical isIdentifier) t) :
    Reads (fieldChars c) CanonicalField f := by
  intro g hg r s hr hs h
  obtain ⟨key, value⟩ := f
  obtain ⟨key', value'⟩ := g
  obtain ⟨⟨m, v, hv, hkey⟩, -⟩ := hf
  obtain ⟨⟨k, w, hw, hkey'⟩, hvalue'⟩ := hg
  dsimp only at hkey hkey' hvalue hvalue'
  subst hkey hkey'
  rw [fieldChars_append hc hv, fieldChars_append hc hw] at h
  have hslot := follows_slotChars [' '] (Node.chars c) value hr
  have hslot' := follows_slotChars [' '] (Node.chars c) value' hs
  have hafter := (follows_after m hslot).mono equals_colon_closers_subset_delimiters
  have hafter' := (follows_after k hslot').mono equals_colon_closers_subset_delimiters
  -- Modifiers, word, the sign after it, value: each ends where the next one starts.
  obtain ⟨hrepeatable, hnullable, hword⟩ :=
    before_cancel (opens_identifier hv hafter) (opens_identifier hw hafter') h
  obtain ⟨hvw, hmark⟩ := word_cancel (isWordChar_of_isIdentifier hv)
    (isWordChar_of_isIdentifier hw) hafter hafter' hword
  obtain ⟨hoptional, hcolon⟩ := after_cancel (by decide) hslot hslot' hmark
  obtain ⟨rfl, hrest⟩ := slot_cancel (hr.mono closers_subset_bareClosers)
    (hs.mono closers_subset_bareClosers)
    (fun t ht u hu => hvalue t ht u (hvalue' u hu) r s hr hs) hcolon
  obtain rfl : v = w := String.toList_inj.mp hvw
  obtain rfl : m = k := by
    cases m
    cases k
    simp_all
  exact ⟨rfl, hrest⟩

/-- A label starts like a name with something after it, but its word is reserved. -/
theorem Role.label_spec {i : Role} (hi : i ≠ .param) (s : List Char) :
    kindAt (i.label ++ s) = .name ∧
      (∃ w ∈ reservedWords, (i.label ++ s).takeWhile isWordChar = w.toList) ∧
      ∃ d u, i.label ++ s = d :: u ∧ d ∉ ['.', '?', '!'] := by
  cases i with
  | new => exact ⟨rfl, ⟨"new", by decide, rfl⟩, 'n', _, rfl, by decide⟩
  | this => exact ⟨rfl, ⟨"this", by decide, rfl⟩, 't', _, rfl, by decide⟩
  | param => exact absurd rfl hi

/-- No canonical tree starts like a labelled part of a signature. -/
theorem Canonical.chars_ne_label (hc : c.IsPlain) (ha : Canonical isIdentifier a) {i : Role}
    (hi : i ≠ .param) {r : List Char} (hr : Follows closers r) (s : List Char) :
    a.chars c ++ r ≠ i.label ++ s := by
  intro h
  obtain ⟨hkind, ⟨w, hw, hword⟩, d, u, hhead, hd⟩ := Role.label_spec hi s
  have hafter := follows_after a.modifiers hr
  rw [chars_eq hc, List.append_assoc, List.append_assoc] at h
  rcases a.modifiers.before_cases with hbefore | ⟨e, v, hbefore, he⟩
  · -- Without modifiers the label would have to be a name.
    rw [hbefore, List.nil_append] at h
    have hname := ha.kind?_eq_kindAt hc hafter
    rw [h, hkind] at hname
    obtain ⟨m, v, inner, rfl, hv, hinner, -⟩ := ha.exists_ofName hname
    rw [bodyChars_apply, bodyChars_ofName hc (ne_empty_of_isIdentifier hv)
      fun t ht => (hinner t ht).chars_ne_nil hc, List.append_assoc] at h
    have hslot := (follows_slotChars [] (Node.chars c) inner hafter).mono
      colon_bareClosers_subset_delimiters
    have hvw := takeWhile_word (isWordChar_of_isIdentifier hv) hslot
    rw [h, hword] at hvw
    obtain rfl : w = v := String.toList_inj.mp hvw
    exact (isIdentifier_iff.mp hv).2.2.2.2 hw
  · rw [hbefore, hhead] at h
    obtain ⟨rfl, -⟩ := List.cons.inj h
    exact hd he

/-- A type inside the parentheses of a signature can be cut from the front of a text with
its label, if it can without. -/
theorem reads_piece (hc : c.IsPlain) {p : Role × Node} (hp : Canonical isIdentifier p.2)
    (hreads : Reads (Node.chars c) (Canonical isIdentifier) p.2) :
    Reads (pieceChars c) (fun q => Canonical isIdentifier q.2) p := by
  intro q hq r s hr hs h
  obtain ⟨i, t⟩ := p
  obtain ⟨j, u⟩ := q
  simp only [pieceChars, List.append_assoc] at h
  -- the two labels differ in their first letters, and no type starts with one
  have hrole : i = j ∧ t.chars c ++ r = u.chars c ++ s := by
    cases i with
    | new =>
      cases j with
      | new => exact ⟨rfl, List.append_cancel_left h⟩
      | this => simp [Role.label] at h
      | param => exact absurd h.symm (Canonical.chars_ne_label hc hq (by decide) hs _)
    | this =>
      cases j with
      | new => simp [Role.label] at h
      | this => exact ⟨rfl, List.append_cancel_left h⟩
      | param => exact absurd h.symm (Canonical.chars_ne_label hc hq (by decide) hs _)
    | param =>
      cases j with
      | new => exact absurd h (Canonical.chars_ne_label hc hp (by decide) hr _)
      | this => exact absurd h (Canonical.chars_ne_label hc hp (by decide) hr _)
      | param => exact ⟨rfl, h⟩
  obtain ⟨rfl, htext⟩ := hrole
  obtain ⟨rfl, hrest⟩ := hreads u hq r s hr hs htext
  exact ⟨rfl, hrest⟩

/-- No type inside the parentheses of a signature starts like their end. -/
theorem pieceChars_append_ne (hc : c.IsPlain) {p : Role × Node} (hp : Canonical isIdentifier p.2)
    {d : Char} (hd : d ∈ closers) (r s : List Char) : pieceChars c p ++ r ≠ d :: s := by
  obtain ⟨i, t⟩ := p
  rw [pieceChars, List.append_assoc]
  cases i with
  | new =>
    intro h
    obtain ⟨rfl, -⟩ := List.cons.inj h
    exact absurd hd (by decide)
  | this =>
    intro h
    obtain ⟨rfl, -⟩ := List.cons.inj h
    exact absurd hd (by decide)
  | param => exact Canonical.chars_append_ne hc hp hd r s

theorem mem_pieces {o p : Option Node} {ts : List Node} {q : Role × Node}
    (h : q ∈ pieces o p ts) : q.2 ∈ o ∨ q.2 ∈ p ∨ q.2 ∈ ts := by
  simp only [pieces, List.mem_append, List.mem_map, Option.mem_toList] at h
  rcases h with (⟨t, ht, rfl⟩ | ⟨t, ht, rfl⟩) | ⟨t, ht, rfl⟩
  · exact Or.inl ht
  · exact Or.inr (Or.inl ht)
  · exact Or.inr (Or.inr ht)

/-- The types that have a role. -/
def typesOf (i : Role) (qs : List (Role × Node)) : List Node :=
  qs.filterMap fun q => if q.1 = i then some q.2 else none

theorem typesOf_map (i j : Role) (ts : List Node) :
    typesOf i (ts.map fun t => (j, t)) = if j = i then ts else [] := by
  induction ts with
  | nil => split <;> rfl
  | cons t ts ih =>
    rw [List.map_cons, typesOf, List.filterMap_cons, ← typesOf, ih]
    by_cases h : j = i <;> simp [h]

theorem typesOf_pieces (o p : Option Node) (ts : List Node) :
    typesOf .new (pieces o p ts) = o.toList ∧ typesOf .this (pieces o p ts) = p.toList ∧
      typesOf .param (pieces o p ts) = ts := by
  have hparts (i : Role) :
      typesOf i (pieces o p ts) = typesOf i (o.toList.map fun t => (.new, t)) ++
        typesOf i (p.toList.map fun t => (.this, t)) ++
        typesOf i (ts.map fun t => (.param, t)) := by
    simp only [typesOf, pieces, List.filterMap_append]
  simp [hparts, typesOf_map]

/-- The types inside the parentheses of a signature give back its parts. -/
theorem pieces_inj {o o' p p' : Option Node} {ts ts' : List Node}
    (h : pieces o p ts = pieces o' p' ts') : o = o' ∧ p = p' ∧ ts = ts' := by
  obtain ⟨hnew, hthis, hparam⟩ := typesOf_pieces o p ts
  obtain ⟨hnew', hthis', hparam'⟩ := typesOf_pieces o' p' ts'
  rw [← h] at hnew' hthis' hparam'
  refine ⟨?_, ?_, hparam.symm.trans hparam'⟩
  · simpa using congrArg List.head? (hnew.symm.trans hnew')
  · simpa using congrArg List.head? (hthis.symm.trans hthis')

/-! ### Canonical trees -/

/-- Canonical trees whose texts start the same text are of one kind. -/
theorem Canonical.kind?_congr (hc : c.IsPlain) (ha : Canonical isIdentifier a)
    (hb : Canonical isIdentifier b) {r s : List Char} (hr : Follows bareClosers r)
    (hs : Follows bareClosers s) (h : a.layer.bodyChars c ++ r = b.layer.bodyChars c ++ s) :
    b.layer.kind? = a.layer.kind? := by
  rw [ha.kind?_eq_kindAt hc hr, hb.kind?_eq_kindAt hc hs, h]

/-- The text of a canonical tree without its modifiers can be cut from the front of a
text. -/
theorem Canonical.bodyReads (hc : c.IsPlain) (ha : Canonical isIdentifier a) : BodyReads c a := by
  -- in each case the other tree is of the same kind first, and then cut at the same places
  induction ha with
  | name m v inner hv hinner hmark ih =>
    intro b hb r s hr hs h
    obtain ⟨k, w, inner', rfl, hw, hinner', hmark'⟩ := hb.exists_ofName
      ((Canonical.name m v inner hv hinner hmark).kind?_congr hc hb hr hs h)
    rw [bodyChars_apply, bodyChars_apply, bodyChars_ofName hc (ne_empty_of_isIdentifier hv)
      fun t ht => (hinner t ht).chars_ne_nil hc, bodyChars_ofName hc (ne_empty_of_isIdentifier hw)
        fun t ht => (hinner' t ht).chars_ne_nil hc, List.append_assoc, List.append_assoc] at h
    obtain ⟨hvw, hcolon⟩ := word_cancel (isWordChar_of_isIdentifier hv)
      (isWordChar_of_isIdentifier hw)
      ((follows_slotChars [] _ inner hr).mono colon_bareClosers_subset_delimiters)
      ((follows_slotChars [] _ inner' hs).mono colon_bareClosers_subset_delimiters) h
    obtain rfl : v = w := String.toList_inj.mp hvw
    -- the type after a name is not optional, so that the sign after it belongs to the name
    obtain ⟨rfl, hrest⟩ := slot_cancel hr hs (fun t ht u hu => (ih t ht).cancel_of_required hc
      (hinner t ht) (hinner' u hu) (hmark t ht) (hmark' u hu) hr hs) hcolon
    exact ⟨rfl, hrest⟩
  | literal m k hk =>
    intro b hb r s hr hs h
    have hkind := (Canonical.literal m k hk).kind?_congr hc hb hr hs h
    rw [kind?_apply, Layer.kind?_ofLiteral] at hkind
    obtain ⟨m', rfl⟩ := hb.exists_ofLiteral hk hkind
    exact ⟨rfl, List.append_cancel_left h⟩
  | union m members hne hmembers ih =>
    intro b hb r s hr hs h
    obtain ⟨k, members', rfl, hne', hmembers'⟩ := hb.exists_ofUnion
      ((Canonical.union m members hne hmembers).kind?_congr hc hb hr hs h)
    rw [bodyChars_apply, bodyChars_apply, bodyChars_ofUnion hne, bodyChars_ofUnion hne',
      List.cons_append, List.cons_append, List.append_assoc, List.append_assoc] at h
    obtain ⟨rfl, hrest⟩ := listed_cancel (d := '|') (by decide) (by decide) (by decide)
      (fun t r s ht => ht.chars_append_ne hc (by decide) r s)
      (fun t ht => ⟨hmembers t ht, (ih t ht).reads hc (hmembers t ht)⟩) hmembers'
      (List.cons.inj h).2
    exact ⟨rfl, hrest⟩
  | record m fields hkeys hvalues ih =>
    intro b hb r s hr hs h
    obtain ⟨k, fields', rfl, hkeys', hvalues'⟩ := hb.exists_ofRecord
      ((Canonical.record m fields hkeys hvalues).kind?_congr hc hb hr hs h)
    rw [bodyChars_apply, bodyChars_apply, bodyChars_ofRecord, bodyChars_ofRecord,
      List.cons_append, List.cons_append, List.append_assoc, List.append_assoc] at h
    have hreads : ∀ f ∈ fields, CanonicalField f ∧ Reads (fieldChars c) CanonicalField f := by
      intro f hf
      exact ⟨⟨hkeys f hf, hvalues f hf⟩, reads_field hc ⟨hkeys f hf, hvalues f hf⟩
        fun t ht => (ih f hf t ht).reads hc (hvalues f hf t ht)⟩
    obtain ⟨rfl, hrest⟩ := listed_cancel (d := ',') (by decide) (by decide) (by decide)
      (fun f r s hf => fieldChars_append_ne hc hf (by decide) r s) hreads
      (fun f hf => ⟨hkeys' f hf, hvalues' f hf⟩) (List.cons.inj h).2
    exact ⟨rfl, hrest⟩
  | application m v arguments hv harguments ih =>
    intro b hb r s hr hs h
    obtain ⟨k, w, arguments', rfl, hw, harguments'⟩ := hb.exists_ofApplication
      ((Canonical.application m v arguments hv harguments).kind?_congr hc hb hr hs h)
    rw [bodyChars_apply, bodyChars_apply, bodyChars_ofApplication hc (ne_empty_of_isIdentifier hv),
      bodyChars_ofApplication hc (ne_empty_of_isIdentifier hw)] at h
    simp only [List.append_assoc, List.cons_append] at h
    obtain ⟨hvw, hbracket⟩ := word_cancel (isWordChar_of_isIdentifier hv)
      (isWordChar_of_isIdentifier hw) (follows_cons (by decide) _) (follows_cons (by decide) _) h
    obtain rfl : v = w := String.toList_inj.mp hvw
    obtain ⟨rfl, hrest⟩ := listed_cancel (d := ',') (by decide) (by decide) (by decide)
      (fun t r s ht => ht.chars_append_ne hc (by decide) r s)
      (fun t ht => ⟨harguments t ht, (ih t ht).reads hc (harguments t ht)⟩) harguments'
      (List.cons.inj hbracket).2
    exact ⟨rfl, hrest⟩
  | function m newType thisType params result hnew hthis hparams hresult hmark ihnew ihthis
      ihparams ihresult =>
    intro b hb r s hr hs h
    obtain ⟨k, newType', thisType', params', result', rfl, hnew', hthis', hparams', hresult',
      hmark'⟩ := hb.exists_ofFunction ((Canonical.function m newType thisType params result hnew
        hthis hparams hresult hmark).kind?_congr hc hb hr hs h)
    rw [bodyChars_apply, bodyChars_apply, bodyChars_ofFunction _ _ fun t ht =>
      (hparams t ht).chars_ne_nil hc, bodyChars_ofFunction _ _ fun t ht =>
        (hparams' t ht).chars_ne_nil hc] at h
    simp only [List.append_assoc, List.cons_append] at h
    -- the types inside the parentheses are one list, whatever their roles
    have hpieces : ∀ p ∈ pieces newType thisType params, Canonical isIdentifier p.2 ∧
        Reads (pieceChars c) (fun q => Canonical isIdentifier q.2) p := by
      intro p hp
      rcases mem_pieces hp with hp | hp | hp
      · exact ⟨hnew _ hp, reads_piece hc (hnew _ hp) ((ihnew _ hp).reads hc (hnew _ hp))⟩
      · exact ⟨hthis _ hp, reads_piece hc (hthis _ hp) ((ihthis _ hp).reads hc (hthis _ hp))⟩
      · exact ⟨hparams _ hp,
          reads_piece hc (hparams _ hp) ((ihparams _ hp).reads hc (hparams _ hp))⟩
    have hpieces' : ∀ p ∈ pieces newType' thisType' params', Canonical isIdentifier p.2 := by
      intro p hp
      rcases mem_pieces hp with hp | hp | hp
      · exact hnew' _ hp
      · exact hthis' _ hp
      · exact hparams' _ hp
    obtain ⟨heq, hcolon⟩ := listed_cancel (d := ',') (by decide) (by decide) (by decide)
      (fun p r s hp => pieceChars_append_ne hc hp (by decide) r s) hpieces hpieces'
      (List.append_cancel_left h)
    obtain ⟨rfl, rfl, rfl⟩ := pieces_inj heq
    obtain ⟨rfl, hrest⟩ := slot_cancel hr hs (fun t ht u hu =>
      (ihresult t ht).cancel_of_required hc (hresult t ht) (hresult' u hu) (hmark t ht)
        (hmark' u hu) hr hs) hcolon
    exact ⟨rfl, hrest⟩

/-- **A canonical tree can be cut from the front of a text.** -/
theorem Canonical.reads (hc : c.IsPlain) (ha : Canonical isIdentifier a) :
    Reads (Node.chars c) (Canonical isIdentifier) a :=
  (ha.bodyReads hc).reads hc ha

end Nodes

/-- **The notation can be read back.**  Canonical trees over identifiers with the same
text are equal. -/
theorem eq_of_render_eq {c : Config} (hc : c.IsPlain) {a b : Node}
    (ha : Canonical isIdentifier a) (hb : Canonical isIdentifier b)
    (h : (a.render c).value = (b.render c).value) : a = b := by
  have hchars : a.chars c ++ [] = b.chars c ++ [] := by rw [Node.chars, Node.chars, h]
  exact (ha.reads hc b hb [] [] (follows_nil _) (follows_nil _) hchars).1

/-- The type `...?x:Array<?>=`, whose question marks are a modifier and a literal. -/
def nullableArray : Node :=
  ({ optional := true, nullable := .nullable, repeatable := true } : Modifiers).apply
    (.ofName "x" (some (({} : Modifiers).apply
      (.ofApplication "Array" [({} : Modifiers).apply (.ofLiteral .unknown)]))))

theorem canonical_nullableArray : Canonical isIdentifier nullableArray := by
  refine .name _ _ _ (by decide) ?_ ?_
  · rintro t ⟨⟩
    refine .application _ _ _ (by decide) fun t ht => ?_
    obtain rfl := List.mem_singleton.mp ht
    exact .literal _ _ (by decide)
  · rintro t ⟨⟩
    rfl

/-- The tree with the text of `nullableArray` is `nullableArray`. -/
theorem eq_of_render_eq_nullableArray :
    Canonical isIdentifier nullableArray ∧ (nullableArray.render {}).value = "...?x:Array<?>=" ∧
      nullableArray = .mk
        { tag := .str "NameExpression", name := some "x",
          inner := some (.mk
            { tag := .str "TypeApplication",
              base := some (.mk { tag := .str "NameExpression", name := some "Array" }),
              arguments := some [some (.mk { tag := .str "UnknownLiteral" })] }),
          optional := .bool true, nullable := .nullable, repeatable := .bool true } :=
  ⟨canonical_nullableArray, by decide +kernel, eq_of_render_eq (c := {}) ⟨rfl, rfl, rfl⟩
    canonical_nullableArray canonical_nullableArray (by decide +kernel)⟩

/-- Names must be restricted: a name may be spelled like a literal. -/
theorem render_not_injective_of_any_name :
    ¬ ∀ (c : Config) (a b : Node), c.IsPlain → Canonical (fun _ => true) a →
      Canonical (fun _ => true) b → (a.render c).value = (b.render c).value → a = b := by
  intro h
  have heq := h {} (({} : Modifiers).apply (.ofName "null" none))
    (({} : Modifiers).apply (.ofLiteral .null)) ⟨rfl, rfl, rfl⟩
    (.name _ _ _ rfl (by simp) (by simp)) (.literal _ _ (by decide)) (by decide +kernel)
  have htag := congrArg (fun n => n.layer.tag) heq
  simp [Modifiers.apply, Layer.ofName, Layer.ofLiteral, Kind.tag] at htag

end TypeText

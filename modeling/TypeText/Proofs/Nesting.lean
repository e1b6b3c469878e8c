import TypeText.Proofs.Tokens

/-!
# Brackets and separators

In a text whose names bring in no brackets and separators of their own, brackets are well
nested, and a separator stands inside of brackets.  So the text between the brackets of a
union, an application or a record can be cut at the separators that stand outside of all
inner brackets, and the pieces are the texts of the items, the empty ones included.

`Nested p text` says that the brackets of `text` are well nested, and that the characters
outside of them satisfy `p`.  This is what is kept from the parts of a text to the whole;
reading the brackets, listing what is outside of them and cutting are computed, and pass over
a nested text in one go.

## Main definitions

* `closer?`, `isCloser` — the three pairs of brackets.
* `awaited`, `isNested` — the brackets still open after a text, and whether they are well
  nested.
* `outside`, `cutOutside` — the characters outside of all brackets, and a text cut at a
  separator that stands there.
* `Nested` — well nested texts, by their structure.
* `HasNoDelimiter` — the texts that names may have.

## Main results

* `Nested.awaited`, `Nested.outside`, `Nested.piecesFrom_zero` — what is computed passes over a
  nested text.
* `cutOutside_intercalate` — **cutting a list of texts at the separator gives the texts.**
* `nested_render` — **the text of a tree is nested, with no separator outside.**
* `cutOutside_render` — the consequences for the text of a node.
-/

set_option autoImplicit false

namespace TypeText

/-! ### Brackets -/

/-- The bracket that closes an opening one. -/
def closer? : Char → Option Char
  | '(' => some ')'
  | '\x7b' => some '\x7d'
  | '<' => some '>'
  | _ => none

/-- Whether a character is a closing bracket. -/
def isCloser (d : Char) : Bool := d == ')' || d == '\x7d' || d == '>'

/-- Whether a character is no bracket. -/
def isPlain (d : Char) : Bool := (closer? d).isNone && !isCloser d

/-- The closing brackets awaited after a character, innermost first; nothing if it is a closing
bracket and another one is awaited, or none. -/
def awaitedAfter (stack : List Char) (d : Char) : Option (List Char) :=
  match closer? d with
  | some e => some (e :: stack)
  | none =>
    if isCloser d then if stack.head? = some d then some stack.tail else none
    else some stack

/-- The closing brackets awaited after a text. -/
def awaited (stack text : List Char) : Option (List Char) := text.foldlM awaitedAfter stack

/-- Whether the brackets of a text are well nested. -/
def isNested (s : String) : Bool := awaited [] s.toList == some []

/-- The number of open brackets after a character. -/
def depthAfter (depth : Nat) (d : Char) : Nat :=
  if (closer? d).isSome then depth + 1 else if isCloser d then depth - 1 else depth

/-- The characters outside of all brackets, where some are open at first. -/
def outsideFrom : Nat → List Char → List Char
  | _, [] => []
  | depth, d :: ds =>
    if depth = 0 ∧ isPlain d then d :: outsideFrom depth ds
    else outsideFrom (depthAfter depth d) ds

/-- The characters of a text outside of all brackets. -/
def outside (s : String) : List Char := outsideFrom 0 s.toList

/-- The pieces of a text between the separators outside of all brackets, where some brackets are
open at first, and some characters still belong to a separator. -/
def piecesFrom (sep : List Char) : Nat → Nat → List Char → List (List Char)
  | _, _, [] => [[]]
  | depth, skip + 1, _ :: ds => piecesFrom sep depth skip ds
  | depth, 0, d :: ds =>
    if depth = 0 ∧ sep.isPrefixOf (d :: ds) then [] :: piecesFrom sep 0 (sep.length - 1) ds
    else (piecesFrom sep (depthAfter depth d) 0 ds).modifyHead (d :: ·)

/-- The pieces of a text between the separators outside of all brackets. -/
def cutOutside (sep s : String) : List String :=
  (piecesFrom sep.toList 0 0 s.toList).map String.ofList

/-! ### Nested texts -/

/-- A text whose brackets are well nested, and whose characters outside of them satisfy `p`. -/
inductive Nested : (Char → Prop) → List Char → Prop where
  | nil {p : Char → Prop} : Nested p []
  /-- A character that is no bracket. -/
  | char {p : Char → Prop} {d : Char} {ds : List Char} (hplain : isPlain d) (hd : p d)
      (h : Nested p ds) : Nested p (d :: ds)
  /-- A pair of brackets around a nested text with any characters. -/
  | group {p : Char → Prop} {a b : Char} {inner ds : List Char} (hpair : closer? a = some b)
      (hinner : Nested (fun _ => True) inner) (h : Nested p ds) :
      Nested p (a :: (inner ++ b :: ds))

namespace Nested

variable {p q : Char → Prop} {x y : List Char}

theorem mono (hpq : ∀ d, p d → q d) (h : Nested p x) : Nested q x := by
  induction h with
  | nil => exact .nil
  | char hplain hd _ ih => exact .char hplain (hpq _ hd) (ih hpq)
  | group hpair hinner _ _ ih => exact .group hpair hinner (ih hpq)

theorem append (hx : Nested p x) (hy : Nested p y) : Nested p (x ++ y) := by
  induction hx with
  | nil => exact hy
  | char hplain hd _ ih => exact .char hplain hd (ih hy)
  | group hpair hinner _ _ ih =>
    rw [List.cons_append, List.append_assoc, List.cons_append]
    exact .group hpair hinner (ih hy)

theorem of_forall (h : ∀ d ∈ x, isPlain d ∧ p d) : Nested p x := by
  induction x with
  | nil => exact .nil
  | cons d x ih =>
    obtain ⟨⟨hplain, hd⟩, hx⟩ := List.forall_mem_cons.mp h
    exact .char hplain hd (ih hx)

/-- A pair of brackets around a nested text. -/
theorem enclose {a b : Char} (hpair : closer? a = some b) (h : Nested (fun _ => True) x) :
    Nested p (a :: (x ++ [b])) := .group hpair h .nil

end Nested

theorem closer?_of_isPlain {d : Char} (h : isPlain d) : closer? d = none ∧ isCloser d = false := by
  simpa [isPlain] using h

/-- A closing bracket closes and does not open. -/
theorem closer?_closer {a b : Char} (h : closer? a = some b) :
    closer? b = none ∧ isCloser b = true ∧ isCloser a = false := by
  unfold closer? at h
  split at h
  · obtain rfl := Option.some.inj h
    decide
  · obtain rfl := Option.some.inj h
    decide
  · obtain rfl := Option.some.inj h
    decide
  · cases h

theorem awaitedAfter_of_isPlain {d : Char} (h : isPlain d) (stack : List Char) :
    awaitedAfter stack d = some stack := by
  obtain ⟨hopen, hclose⟩ := closer?_of_isPlain h
  simp [awaitedAfter, hopen, hclose]

theorem awaitedAfter_open {a b : Char} (h : closer? a = some b) (stack : List Char) :
    awaitedAfter stack a = some (b :: stack) := by
  rw [awaitedAfter, h]

theorem awaitedAfter_close {a b : Char} (h : closer? a = some b) (stack : List Char) :
    awaitedAfter (b :: stack) b = some stack := by
  obtain ⟨hopen, hclose, -⟩ := closer?_closer h
  simp [awaitedAfter, hopen, hclose]

theorem depthAfter_of_isPlain {d : Char} (h : isPlain d) (depth : Nat) :
    depthAfter depth d = depth := by
  obtain ⟨hopen, hclose⟩ := closer?_of_isPlain h
  simp [depthAfter, hopen, hclose]

theorem depthAfter_open {a b : Char} (h : closer? a = some b) (depth : Nat) :
    depthAfter depth a = depth + 1 := by
  simp [depthAfter, h]

theorem depthAfter_close {a b : Char} (h : closer? a = some b) (depth : Nat) :
    depthAfter (depth + 1) b = depth := by
  obtain ⟨hopen, hclose, -⟩ := closer?_closer h
  simp [depthAfter, hopen, hclose]

theorem isPlain_open {a b : Char} (h : closer? a = some b) : isPlain a = false := by
  simp [isPlain, h]

theorem group_append (a b : Char) (inner ds rest : List Char) :
    a :: (inner ++ b :: ds) ++ rest = a :: (inner ++ b :: (ds ++ rest)) := by
  rw [List.cons_append, List.append_assoc, List.cons_append]

namespace Nested

variable {p : Char → Prop} {x : List Char}

/-- After a nested text the same brackets are awaited as before. -/
theorem awaited (h : Nested p x) (stack : List Char) : awaited stack x = some stack := by
  induction h generalizing stack with
  | nil => rfl
  | char hplain _ _ ih =>
    rw [TypeText.awaited, List.foldlM_cons, awaitedAfter_of_isPlain hplain]
    exact ih stack
  | @group p a b inner ds hpair _ _ ihinner ih =>
    -- inside, the closing bracket is awaited on top of the others
    have hinner := ihinner (b :: stack)
    rw [TypeText.awaited] at hinner
    rw [TypeText.awaited, List.foldlM_cons, awaitedAfter_open hpair, Option.bind_eq_bind,
      Option.bind_some, List.foldlM_append, hinner, Option.bind_eq_bind, Option.bind_some,
      List.foldlM_cons, awaitedAfter_close hpair]
    exact ih stack

/-- Inside of brackets a nested text has nothing outside. -/
theorem outsideFrom_succ (h : Nested p x) (depth : Nat) (rest : List Char) :
    outsideFrom (depth + 1) (x ++ rest) = outsideFrom (depth + 1) rest := by
  induction h generalizing depth rest with
  | nil => rfl
  | char hplain _ _ ih =>
    rw [List.cons_append, outsideFrom, if_neg (by simp), depthAfter_of_isPlain hplain]
    exact ih depth rest
  | group hpair _ _ ihinner ih =>
    rw [group_append, outsideFrom, if_neg (by simp), depthAfter_open hpair, ihinner, outsideFrom,
      if_neg (by simp), depthAfter_close hpair, ih]

/-- What a nested text has outside of its brackets satisfies `p`. -/
theorem outside (h : Nested p x) {d : Char} (hd : d ∈ outsideFrom 0 x) : p d := by
  induction h with
  | nil => exact absurd hd List.not_mem_nil
  | char hplain hp _ ih =>
    rw [outsideFrom, if_pos ⟨rfl, hplain⟩] at hd
    rcases List.mem_cons.mp hd with rfl | hd
    · exact hp
    · exact ih hd
  | group hpair hinner _ _ ih =>
    -- the brackets and what is between them are passed over
    rw [outsideFrom, if_neg (by simp [isPlain_open hpair]), depthAfter_open hpair,
      hinner.outsideFrom_succ, outsideFrom, if_neg (by simp), depthAfter_close hpair] at hd
    exact ih hd

/-- Inside of brackets a nested text is not cut. -/
theorem piecesFrom_succ (sep : List Char) (h : Nested p x) (depth : Nat) (rest : List Char) :
    piecesFrom sep (depth + 1) 0 (x ++ rest) =
      (piecesFrom sep (depth + 1) 0 rest).modifyHead (x ++ ·) := by
  induction h generalizing depth rest with
  | nil => exact (congrFun List.modifyHead_id _).symm
  | char hplain _ _ ih =>
    rw [List.cons_append, piecesFrom, if_neg (by simp), depthAfter_of_isPlain hplain, ih,
      List.modifyHead_modifyHead]
    rfl
  | group hpair _ _ ihinner ih =>
    rw [group_append, piecesFrom, if_neg (by simp), depthAfter_open hpair, ihinner, piecesFrom,
      if_neg (by simp), depthAfter_close hpair, ih, List.modifyHead_modifyHead,
      List.modifyHead_modifyHead, List.modifyHead_modifyHead]
    congr 1
    funext y
    simp

/-- A nested text is not cut if the first character of the separator does not stand outside of its
brackets. -/
theorem piecesFrom_zero {d : Char} (hd : isPlain d) (sep : List Char) (h : Nested p x)
    (hp : ∀ e, p e → e ≠ d) (rest : List Char) :
    piecesFrom (d :: sep) 0 0 (x ++ rest) =
      (piecesFrom (d :: sep) 0 0 rest).modifyHead (x ++ ·) := by
  -- a separator starts with its first character
  have hstart : ∀ {e : Char} {ds : List Char}, e ≠ d →
      ¬((0 : Nat) = 0 ∧ (d :: sep).isPrefixOf (e :: ds)) := by
    intro e ds he hcut
    simp [List.isPrefixOf_cons_cons, Ne.symm he] at hcut
  induction h generalizing rest with
  | nil => exact (congrFun List.modifyHead_id _).symm
  | char hplain he _ ih =>
    rw [List.cons_append, piecesFrom, if_neg (hstart (hp _ he)), depthAfter_of_isPlain hplain,
      ih hp, List.modifyHead_modifyHead]
    rfl
  | @group p a _ _ _ hpair hinner _ _ ih =>
    -- no separator starts with a bracket, and none is looked for inside
    have ha : a ≠ d := by
      rintro rfl
      exact absurd hd (by simp [isPlain_open hpair])
    rw [group_append, piecesFrom, if_neg (hstart ha), depthAfter_open hpair,
      hinner.piecesFrom_succ, piecesFrom, if_neg (by simp), depthAfter_close hpair, ih hp,
      List.modifyHead_modifyHead, List.modifyHead_modifyHead, List.modifyHead_modifyHead]
    congr 1
    funext y
    simp

end Nested

/-! ### Cutting -/

theorem piecesFrom_skip (sep skipped rest : List Char) (depth : Nat) :
    piecesFrom sep depth skipped.length (skipped ++ rest) = piecesFrom sep depth 0 rest := by
  induction skipped with
  | nil => rfl
  | cons d skipped ih => rw [List.length_cons, List.cons_append, piecesFrom, ih]

/-- A separator outside of all brackets ends a piece. -/
theorem piecesFrom_separator {sep : List Char} (hne : sep ≠ []) (rest : List Char) :
    piecesFrom sep 0 0 (sep ++ rest) = [] :: piecesFrom sep 0 0 rest := by
  cases hsep : sep with
  | nil => exact absurd hsep hne
  | cons d ds =>
    have hstart : (d :: ds).isPrefixOf (d :: (ds ++ rest)) := by
      simp [List.isPrefixOf_iff_prefix]
    rw [List.cons_append, piecesFrom, if_pos ⟨rfl, hstart⟩, List.length_cons, Nat.add_sub_cancel,
      piecesFrom_skip]

theorem piecesFrom_intercalate {d : Char} (hd : isPlain d) (ds : List Char)
    {xs : List (List Char)} (hne : xs ≠ []) (h : ∀ x ∈ xs, Nested (· ≠ d) x) :
    piecesFrom (d :: ds) 0 0 ((d :: ds).intercalate xs) = xs := by
  induction xs with
  | nil => exact absurd rfl hne
  | cons x xs ih =>
    obtain ⟨hx, hrest⟩ := List.forall_mem_cons.mp h
    cases xs with
    | nil =>
      -- the last text runs to the end
      have hcut := hx.piecesFrom_zero hd ds (fun _ he => he) []
      rw [List.append_nil] at hcut
      rw [List.intercalate_singleton, hcut]
      simp [piecesFrom]
    | cons y xs =>
      rw [List.intercalate_cons_cons, List.append_assoc,
        hx.piecesFrom_zero hd ds (fun _ he => he), piecesFrom_separator (by simp),
        ih (by simp) hrest]
      simp

/-- **Cutting a list of texts at the separator gives the texts**, if the first character of the
separator does not stand outside of their brackets. -/
theorem cutOutside_intercalate {sep : String} {d : Char} {ds : List Char}
    (hsep : sep.toList = d :: ds) (hd : isPlain d) {items : List String} (hne : items ≠ [])
    (hitems : ∀ x ∈ items, Nested (· ≠ d) x.toList) :
    cutOutside sep (sep.intercalate items) = items := by
  have htexts : ∀ x ∈ items.map String.toList, Nested (· ≠ d) x := by
    intro x hx
    obtain ⟨s, hs, rfl⟩ := List.mem_map.mp hx
    exact hitems s hs
  rw [cutOutside, String.toList_intercalate, hsep,
    piecesFrom_intercalate hd ds (by simpa using hne) htexts, List.map_map]
  simp [Function.comp_def]

/-! ### Written tokens -/

/-- The brackets and separators of the notation. -/
def bracketsAndSeparators : List Char := ['(', ')', '\x7b', '\x7d', '<', '>', '|', ',']

/-- A text without brackets and separators. -/
def HasNoDelimiter (s : String) : Prop := ∀ d ∈ s.toList, d ∉ bracketsAndSeparators

instance (s : String) : Decidable (HasNoDelimiter s) := List.decidableBAll _ s.toList

/-- What may stand outside of brackets. -/
def NoSeparator (d : Char) : Prop := d ≠ '|' ∧ d ≠ ','

theorem HasNoDelimiter.nested {s : String} (h : HasNoDelimiter s) :
    Nested NoSeparator s.toList := by
  refine .of_forall fun d hd => ?_
  have hmem := h d hd
  simp only [bracketsAndSeparators, List.mem_cons, List.not_mem_nil, or_false, not_or] at hmem
  obtain ⟨h1, h2, h3, h4, h5, h6, h7, h8⟩ := hmem
  have hopen : closer? d = none := by
    unfold closer?
    split
    · contradiction
    · contradiction
    · contradiction
    · rfl
  exact ⟨by simp [isPlain, hopen, isCloser, h2, h4, h6], h7, h8⟩

section Written

variable {c : Config} {p : Char → Prop}

/-- Tokens that are written as a nested text. -/
def Config.Nests (c : Config) (p : Char → Prop) (ts : List Token) : Prop :=
  Nested p (c.writeAll ts).toList

namespace Config.Nests

theorem nil : c.Nests p [] := Nested.nil

theorem append {ts us : List Token} (hts : c.Nests p ts) (hus : c.Nests p us) :
    c.Nests p (ts ++ us) := by
  rw [Nests, c.writeAll_append, String.toList_append]
  exact Nested.append hts hus

theorem any {ts : List Token} (h : c.Nests p ts) : c.Nests (fun _ => True) ts :=
  Nested.mono (fun _ _ => trivial) h

theorem singleton {t : Token} (h : Nested p (c.write t).toList) : c.Nests p [t] := by
  rw [Nests, c.writeAll_cons, c.writeAll_nil, String.append_empty]
  exact h

theorem getD {o : Option (List Token)} (h : ∀ ts ∈ o, c.Nests p ts) : c.Nests p (o.getD []) := by
  cases o with
  | none => exact nil
  | some ts => exact h ts rfl

/-- Parts with a separator between them. -/
theorem separated {sep : Sign} (hsep : c.Nests p [.sign sep]) {items : List (List Token)}
    (h : ∀ ts ∈ items, c.Nests p ts) : c.Nests p (separated sep items) := by
  induction items with
  | nil => exact nil
  | cons x items ih =>
    obtain ⟨hx, hrest⟩ := List.forall_mem_cons.mp h
    cases items with
    | nil => simpa [TypeText.separated] using hx
    | cons y items =>
      rw [separated_cons_cons]
      exact (hx.append hsep).append (ih hrest)

/-- The items of a list, of which the missing ones are empty. -/
theorem itemTokens {items : List (Option (List Token))}
    (h : ∀ ts ∈ Layer.present (some items), c.Nests p ts) :
    ∀ ts ∈ itemTokens items, c.Nests p ts := by
  intro ts hts
  obtain ⟨item, hitem, rfl⟩ := List.mem_map.mp hts
  refine getD fun us hus => h us (Layer.mem_present.mpr ⟨items, rfl, ?_⟩)
  rw [← Option.mem_def.mp hus]
  exact hitem

end Config.Nests

/-- The signs that are no brackets and no separators. -/
def Sign.isInline : Sign → Bool
  | .colon | .wideColon | .function | .new | .this | .dots | .question | .bang | .equals => true
  | _ => false

variable (hsafe : c.htmlSafe.isTruthy = false)

include hsafe

theorem write_sign (s : Sign) : c.write (.sign s) = s.text false := by
  rw [Config.write, hsafe]

theorem nests_inline {s : Sign} (hs : s.isInline) : c.Nests NoSeparator [.sign s] := by
  refine .singleton (HasNoDelimiter.nested ?_)
  rw [write_sign hsafe]
  cases s <;> first | exact absurd hs (by decide) | decide

theorem nests_inlines {signs : List Sign} (hsigns : ∀ s ∈ signs, s.isInline) :
    c.Nests NoSeparator (signs.map .sign) := by
  induction signs with
  | nil => exact .nil
  | cons s signs ih =>
    obtain ⟨hs, hrest⟩ := List.forall_mem_cons.mp hsigns
    exact (nests_inline hsafe hs).append (ih hrest)

theorem nests_separator {s : Sign} (hs : s = .bar ∨ s = .comma) :
    c.Nests (fun _ => True) [.sign s] := by
  have hplain : (s.text false).toList.all isPlain := by
    rcases hs with rfl | rfl <;> rfl
  refine .singleton (Nested.of_forall ?_)
  rw [write_sign hsafe]
  exact fun d hd => ⟨List.all_eq_true.mp hplain d hd, trivial⟩

theorem nests_group {a b : Sign} {d e : Char} (ha : (a.text false).toList = [d])
    (hb : (b.text false).toList = [e]) (hpair : closer? d = some e) {ts : List Token}
    (h : c.Nests (fun _ => True) ts) : c.Nests p ([.sign a] ++ ts ++ [.sign b]) := by
  have htext : (c.writeAll ([.sign a] ++ ts ++ [.sign b])).toList =
      d :: ((c.writeAll ts).toList ++ [e]) := by
    simp [write_sign hsafe, ha, hb]
  rw [Config.Nests, htext]
  exact .enclose hpair h

theorem nests_labelled {label : List Sign} (hlabel : ∀ s ∈ label, s.isInline)
    {o : Option (List Token)} (h : ∀ ts ∈ o, c.Nests NoSeparator ts) :
    c.Nests NoSeparator (labelledTokens label o) := by
  cases o with
  | none => exact .nil
  | some ts => exact (nests_inlines hsafe hlabel).append (h ts rfl)

/-- A list of parts may have separators outside of brackets, so that it needs brackets around. -/
theorem nests_list {items : List (Option (List Token))}
    (h : ∀ ts ∈ Layer.present (some items), c.Nests NoSeparator ts) {sep : Sign}
    (hsep : sep = .bar ∨ sep = .comma) :
    c.Nests (fun _ => True) (separated sep (itemTokens items)) :=
  .separated (nests_separator hsafe hsep) (Config.Nests.itemTokens fun ts hts => (h ts hts).any)

theorem nests_fieldTokens {f : Field (List Token)}
    (h : ∀ ts ∈ f.children, c.Nests NoSeparator ts) : c.Nests NoSeparator (fieldTokens f) := by
  have hkey : ∀ ts ∈ f.key, c.Nests NoSeparator ts := fun ts hts =>
    h ts (List.mem_append_left _ (Option.mem_toList.mpr hts))
  have hvalue : ∀ ts ∈ f.value, c.Nests NoSeparator ts := fun ts hts =>
    h ts (List.mem_append_right _ (Option.mem_toList.mpr hts))
  exact (Config.Nests.getD hkey).append (nests_labelled hsafe (by decide) hvalue)

/-- The parts of a signature stand in parentheses. -/
theorem nests_signature {l : Layer (List Token)}
    (hnew : ∀ ts ∈ l.newType, c.Nests NoSeparator ts)
    (hthis : ∀ ts ∈ l.thisType, c.Nests NoSeparator ts)
    (hparams : ∀ ts ∈ Layer.present l.params, c.Nests NoSeparator ts)
    (hresult : ∀ ts ∈ l.result, c.Nests NoSeparator ts) :
    c.Nests NoSeparator ([.sign .function, .sign .leftParen] ++
      separated .comma (l.signatureParts.filter fun ts => !ts.isEmpty) ++
      [.sign .rightParen] ++ labelledTokens [.wideColon] l.result) := by
  have hlist : c.Nests (fun _ => True) (paramTokens l.params) := by
    cases hitems : l.params with
    | none => exact .nil
    | some items =>
      rw [hitems] at hparams
      exact nests_list hsafe hparams (.inr rfl)
  have hparts : ∀ ts ∈ l.signatureParts, c.Nests (fun _ => True) ts := by
    simp only [Layer.signatureParts, List.forall_mem_cons, List.not_mem_nil, false_implies,
      implies_true, and_true]
    exact ⟨(nests_labelled hsafe (by decide) hnew).any,
      (nests_labelled hsafe (by decide) hthis).any, hlist⟩
  have hinner : c.Nests (fun _ => True)
      (separated .comma (l.signatureParts.filter fun ts => !ts.isEmpty)) :=
    .separated (nests_separator hsafe (.inr rfl)) fun ts hts => hparts ts (List.mem_filter.mp hts).1
  have hgroup := nests_group (p := NoSeparator) hsafe (a := .leftParen) (b := .rightParen) rfl rfl
    rfl hinner
  have hword := nests_inline hsafe (s := .function) rfl
  have hafter : c.Nests NoSeparator (labelledTokens [.wideColon] l.result) :=
    nests_labelled hsafe (by decide) hresult
  have hwhole := (hword.append hgroup).append hafter
  simpa using hwhole

end Written

/-- The text of a node without its modifiers is nested, with no separator outside, if its name and
the texts of what it shows are. -/
theorem nests_bodyTokens {c : Config} (hlinks : c.links = none)
    (hsafe : c.htmlSafe.isTruthy = false) {l : Layer (List Token)} (hlabel : HasNoDelimiter l.label)
    (h : ∀ ts ∈ l.shown, c.Nests NoSeparator ts) : c.Nests NoSeparator l.bodyTokens := by
  -- a name, and the type after it behind a colon
  have hcombine : ∀ {s : String} {o : Option (List Token)}, HasNoDelimiter s →
      (∀ ts ∈ o.toList, c.Nests NoSeparator ts) →
      c.Nests NoSeparator (combineTokens (Token.ofName s) (o.getD [])) := by
    intro s o hs ho
    have hname : c.Nests NoSeparator (Token.ofName s) := by
      rw [Config.Nests, c.writeAll_ofName, Config.link, hlinks]
      exact hs.nested
    have hcolon : c.Nests NoSeparator
        (if Token.ofName s ≠ [] ∧ o.getD [] ≠ [] then [.sign .colon] else []) := by
      split
      · exact nests_inline hsafe rfl
      · exact .nil
    exact (hname.append hcolon).append (.getD fun ts hts => ho ts (Option.mem_toList.mpr hts))
  unfold Layer.bodyTokens
  unfold Layer.label at hlabel
  rw [Layer.shown_eq] at h
  cases hkind : l.kind? with
  | none =>
    rw [hkind] at hlabel h
    exact hcombine hlabel h
  | some kind =>
    rw [hkind] at hlabel h
    cases kind with
    | function =>
      simp only [List.forall_mem_append, Option.mem_toList] at h
      obtain ⟨⟨⟨hnew, hthis⟩, hparams⟩, hresult⟩ := h
      exact nests_signature hsafe hnew hthis hparams hresult
    | record =>
      -- the commas between the fields are inside the braces
      refine nests_group hsafe rfl rfl rfl (.separated (nests_separator hsafe (.inr rfl)) ?_)
      intro ts hts
      obtain ⟨f, hf, rfl⟩ := List.mem_map.mp hts
      exact (nests_fieldTokens hsafe fun us hus =>
        h us (List.mem_flatMap.mpr ⟨f, hf, hus⟩)).any
    | application =>
      obtain ⟨hbase, harguments⟩ := List.forall_mem_append.mp h
      refine .append (.getD fun ts hts => hbase ts (Option.mem_toList.mpr hts)) ?_
      cases hitems : l.arguments with
      | none => exact .nil
      | some items =>
        rw [hitems] at harguments
        exact nests_group hsafe rfl rfl rfl (nests_list hsafe harguments (.inr rfl))
    | union =>
      cases hitems : l.members with
      | none => exact .nil
      | some items =>
        dsimp only at h
        rw [hitems] at h
        cases items with
        -- an empty union has no parentheses
        | nil => exact .nil
        | cons item items =>
          exact nests_group hsafe rfl rfl rfl (nests_list hsafe h (.inl rfl))
    | _ => exact hcombine hlabel h

/-- **The text of a tree is nested, with no separator outside of brackets**, when no name that it
shows has a bracket or a separator in it. -/
theorem nested_render {c : Config} (hlinks : c.links = none) (hsafe : c.htmlSafe.isTruthy = false)
    {n : Node} (hnames : ∀ s ∈ n.labels, HasNoDelimiter s) :
    Nested NoSeparator (n.render c).value.toList := by
  rw [Node.value_render]
  induction n using Node.induct with
  | h l ih =>
    rw [Node.labels_mk] at hnames
    obtain ⟨hown, hbelow⟩ := List.forall_mem_append.mp hnames
    have hlabel : HasNoDelimiter l.label := by
      by_cases hempty : l.label = ""
      · rw [hempty]
        decide
      · exact hown _ (by rw [Layer.ownLabels, if_neg hempty]; exact List.mem_singleton_self _)
    have hshown : ∀ ts ∈ (l.map (Node.tokens c.suppressModifiers.isTruthy)).shown,
        c.Nests NoSeparator ts := by
      rw [Layer.shown_map]
      intro ts hts
      obtain ⟨m, hm, rfl⟩ := List.mem_map.mp hts
      exact ih m (Layer.mem_children_of_mem_shown hm) fun s hs =>
        hbelow s (List.mem_flatMap.mpr ⟨m, hm, hs⟩)
    have hbody := nests_bodyTokens hlinks hsafe
      (l := l.map (Node.tokens c.suppressModifiers.isTruthy)) hlabel hshown
    rw [Node.tokens_mk, Layer.tokens]
    split
    · exact hbody
    · -- the modifiers stand outside, and are no brackets or separators
      have hmodifiers : ∀ s ∈ Sign.modifiers, s.isInline := by decide
      have hbefore := nests_inlines hsafe fun s hs =>
        hmodifiers s (Layer.mem_modifiers_of_mem_marksBefore (l := l) hs)
      have hafter := nests_inlines hsafe fun s hs =>
        hmodifiers s (Layer.mem_modifiers_of_mem_marksAfter (l := l) hs)
      exact (hbefore.append hbody).append hafter

/-! ### Cutting the text of a node -/

/-- Texts that are nested, with no separator outside of brackets, are found again between the
separators. -/
theorem cutOutside_texts {sep : String} (hsep : sep = "|" ∨ sep = ", ") {texts : List String}
    (hne : texts ≠ []) (h : ∀ x ∈ texts, Nested NoSeparator x.toList) :
    cutOutside sep (sep.intercalate texts) = texts := by
  rcases hsep with rfl | rfl
  · exact cutOutside_intercalate (d := '|') rfl rfl hne fun x hx => (h x hx).mono fun d hd => hd.1
  · exact cutOutside_intercalate (d := ',') rfl rfl hne fun x hx => (h x hx).mono fun d hd => hd.2

namespace Node

/-- The texts of the items of a list; that of a missing item is empty. -/
def itemTexts (c : Config) (items : List (Option Node)) : List String :=
  items.map fun item => (renderOption c item).value

/-- The texts of the fields of a record. -/
def fieldTexts (c : Config) (fields : List (Field Node)) : List String :=
  fields.map fun f => (fieldText (f.map (render c))).value

section Texts

variable {c : Config} {l : Layer Node} {items : List (Option Node)}

theorem value_parts_render (c : Config) (items : List (Option Node)) :
    (parts (items.map fun item => item.map (render c))).value = itemTexts c items := by
  rw [parts, Logged.value_mapM, List.map_map]
  rfl

theorem value_render_mk (c : Config) (l : Layer Node) :
    ((Node.mk l).render c).value = l.decorate c ((l.map (render c)).body c).value := by
  rw [render_mk]
  rfl

theorem value_render_union (hkind : l.kind? = some .union) (hitems : l.members = some items)
    (hne : items ≠ []) :
    ((Node.mk l).render c).value =
      l.decorate c ("(" ++ "|".intercalate (itemTexts c items) ++ ")") := by
  have hbody : (l.map (render c)).body c = unionList (renderItems c (some items)) := by
    rw [Layer.body, Layer.kind?_map, hkind, ← hitems]
    rfl
  rw [value_render_mk, hbody, ← value_parts_render]
  cases items with
  | nil => exact absurd rfl hne
  | cons item items => rfl

theorem value_render_application (hsafe : c.htmlSafe.isTruthy = false)
    (hkind : l.kind? = some .application) (hitems : l.arguments = some items) :
    ((Node.mk l).render c).value = l.decorate c
      ((renderOption c l.base).value ++ "<" ++ ", ".intercalate (itemTexts c items) ++ ">") := by
  have hbody : ((l.map (render c)).body c).value =
      (renderOption c l.base).value ++ (c.argumentList (renderItems c (some items))).value := by
    rw [Layer.body, Layer.kind?_map, hkind, ← hitems]
    rfl
  have harguments : (c.argumentList (renderItems c (some items))).value =
      "<" ++ ", ".intercalate (itemTexts c items) ++ ">" := by
    rw [← value_parts_render, renderItems, Option.map_some, Config.argumentList, Logged.value_bind,
      hsafe]
    rfl
  rw [value_render_mk, hbody, harguments, String.append_assoc, String.append_assoc,
    String.append_assoc]

theorem value_render_record {fields : List (Field Node)} (hkind : l.kind? = some .record)
    (hfields : l.fields = some fields) :
    ((Node.mk l).render c).value =
      l.decorate c ("\x7b" ++ ", ".intercalate (fieldTexts c fields) ++ "\x7d") := by
  have hbody : (l.map (render c)).body c =
      recordText (some (fields.map fun f => f.map (render c))) := by
    rw [Layer.body, Layer.kind?_map, hkind]
    simp [Layer.map, hfields]
  have htexts : ((fields.map fun f => f.map (render c)).mapM fieldText).value =
      fieldTexts c fields := by
    rw [Logged.value_mapM, List.map_map]
    rfl
  rw [value_render_mk, hbody, ← htexts]
  rfl

end Texts

end Node

section Cutting

variable {c : Config} (hlinks : c.links = none) (hsafe : c.htmlSafe.isTruthy = false)

include hlinks hsafe

theorem nested_itemTexts {items : List (Option Node)}
    (h : ∀ m ∈ Layer.present (some items), ∀ s ∈ m.labels, HasNoDelimiter s) :
    ∀ x ∈ Node.itemTexts c items, Nested NoSeparator x.toList := by
  intro x hx
  obtain ⟨item, hitem, rfl⟩ := List.mem_map.mp hx
  cases item with
  | none => exact .nil
  | some m =>
    exact nested_render hlinks hsafe (h m (Layer.mem_present.mpr ⟨items, rfl, hitem⟩))

theorem nested_fieldTexts {fields : List (Field Node)}
    (h : ∀ f ∈ fields, ∀ m ∈ f.children, ∀ s ∈ m.labels, HasNoDelimiter s) :
    ∀ x ∈ Node.fieldTexts c fields, Nested NoSeparator x.toList := by
  intro x hx
  obtain ⟨f, hf, rfl⟩ := List.mem_map.mp hx
  have hchildren : ∀ ts ∈ (f.map (Node.tokens c.suppressModifiers.isTruthy)).children,
      c.Nests NoSeparator ts := by
    intro ts hts
    rw [Field.children_map] at hts
    obtain ⟨m, hm, rfl⟩ := List.mem_map.mp hts
    have hnested := nested_render hlinks hsafe (h f hf m hm)
    rwa [Node.value_render] at hnested
  rw [value_fieldText (Node.value_render c)]
  exact nests_fieldTokens hsafe hchildren

end Cutting

/-- In the text of a tree brackets are well nested and no separator stands outside of them, when
no name that it shows has a bracket or a separator in it.  So the members of a union, the
arguments of an application, the parameters of a function and the fields of a record are found
again when the text between the brackets is cut at the separators outside of inner brackets. -/
theorem cutOutside_render {n : Node} {c : Config} (hlinks : c.links = none)
    (hsafe : c.htmlSafe.isTruthy = false) (hnames : ∀ s ∈ n.labels, HasNoDelimiter s) :
    isNested (n.render c).value ∧ '|' ∉ outside (n.render c).value ∧
      ',' ∉ outside (n.render c).value ∧
      (∀ items, n.layer.kind? = some .union → n.layer.members = some items → items ≠ [] →
        ∃ inner, (n.render c).value = n.layer.decorate c ("(" ++ inner ++ ")") ∧
          cutOutside "|" inner = Node.itemTexts c items) ∧
      (∀ items, n.layer.kind? = some .application → n.layer.arguments = some items → items ≠ [] →
        ∃ inner, (n.render c).value = n.layer.decorate c
            ((Node.renderOption c n.layer.base).value ++ "<" ++ inner ++ ">") ∧
          cutOutside ", " inner = Node.itemTexts c items) ∧
      (∀ items, n.layer.kind? = some .function → n.layer.params = some items → items ≠ [] →
        cutOutside ", " (paramList (Node.renderItems c (some items))).value =
          Node.itemTexts c items) ∧
      (∀ fields, n.layer.kind? = some .record → n.layer.fields = some fields → fields ≠ [] →
        ∃ inner, (n.render c).value = n.layer.decorate c ("\x7b" ++ inner ++ "\x7d") ∧
          cutOutside ", " inner = Node.fieldTexts c fields) := by
  have hnested := nested_render hlinks hsafe hnames
  have houtside : ∀ d ∈ outside (n.render c).value, NoSeparator d := fun d hd => hnested.outside hd
  have hbrackets : isNested (n.render c).value := by
    rw [isNested, hnested.awaited, beq_self_eq_true]
  obtain ⟨l⟩ := n
  dsimp only [Node.layer_mk]
  have hshown : ∀ m ∈ l.shown, ∀ s ∈ m.labels, HasNoDelimiter s := by
    intro m hm s hs
    rw [Node.labels_mk] at hnames
    exact hnames s (List.mem_append_right _ (List.mem_flatMap.mpr ⟨m, hm, hs⟩))
  rw [Layer.shown_eq] at hshown
  -- what is cut out is shown, so that its names have no brackets or separators either
  refine ⟨hbrackets, fun h => (houtside _ h).1 rfl, fun h => (houtside _ h).2 rfl, ?_, ?_, ?_, ?_⟩
  · intro items hkind hitems hne
    rw [hkind, hitems] at hshown
    exact ⟨_, Node.value_render_union hkind hitems hne, cutOutside_texts (.inl rfl)
      (by simpa [Node.itemTexts] using hne) (nested_itemTexts hlinks hsafe hshown)⟩
  · intro items hkind hitems hne
    rw [hkind, hitems] at hshown
    exact ⟨_, Node.value_render_application hsafe hkind hitems, cutOutside_texts (.inr rfl)
      (by simpa [Node.itemTexts] using hne)
      (nested_itemTexts hlinks hsafe fun m hm => hshown m (List.mem_append_right _ hm))⟩
  · intro items hkind hitems hne
    rw [hkind, hitems] at hshown
    have hparams : (paramList (Node.renderItems c (some items))).value =
        ", ".intercalate (Node.itemTexts c items) := by
      rw [← Node.value_parts_render]
      rfl
    rw [hparams]
    exact cutOutside_texts (.inr rfl) (by simpa [Node.itemTexts] using hne)
      (nested_itemTexts hlinks hsafe fun m hm =>
        hshown m (List.mem_append_left _ (List.mem_append_right _ hm)))
  · intro fields hkind hfields hne
    rw [hkind, hfields] at hshown
    exact ⟨_, Node.value_render_record hkind hfields, cutOutside_texts (.inr rfl)
      (by simpa [Node.fieldTexts] using hne)
      (nested_fieldTexts hlinks hsafe fun f hf m hm =>
        hshown m (List.mem_flatMap.mpr ⟨f, hf, hm⟩))⟩

/-- A record with a union for a value, and a field that has no key. -/
def unionRecord : Node :=
  .mk
    { tag := .str "RecordType"
      fields := some
        [⟨some (.mk { tag := .str "NameExpression", name := some "k" }), some (.mk
            { tag := .str "TypeUnion"
              members := some [some (.mk { tag := .str "NameExpression", name := some "A" }),
                some (.mk { tag := .str "NullLiteral" })] })⟩,
          ⟨none, some (.mk { tag := .str "AllLiteral", optional := .bool true })⟩] }

/-- An application to it and a missing argument. -/
def recordMap : Node :=
  .mk
    { tag := .str "TypeApplication"
      base := some (.mk { tag := .str "NameExpression", name := some "Map" })
      arguments := some [none, some unionRecord] }

/-- A function of it and a parameter that is empty. -/
def mapCallback : Node :=
  .mk
    { tag := .str "FunctionType"
      params := some [some recordMap, some (.mk { tag := .str "Mystery" })]
      result := some (.mk { tag := .str "UndefinedLiteral" }) }

/-- A union of both with a missing member. -/
def callbackUnion : Node :=
  .mk
    { tag := .str "TypeUnion", nullable := .nullable
      members := some [some mapCallback, none, some recordMap] }

theorem cutOutside_render_callbackUnion :
    (∀ s ∈ callbackUnion.labels, HasNoDelimiter s) ∧
      (callbackUnion.render {}).value =
        "?(function(Map<, \x7bk: (A|null), : *=\x7d>, ): undefined||" ++
          "Map<, \x7bk: (A|null), : *=\x7d>)" ∧
      (∃ inner, (callbackUnion.render {}).value =
          callbackUnion.layer.decorate {} ("(" ++ inner ++ ")") ∧
        cutOutside "|" inner = ["function(Map<, \x7bk: (A|null), : *=\x7d>, ): undefined", "",
          "Map<, \x7bk: (A|null), : *=\x7d>"]) ∧
      cutOutside ", " (paramList (Node.renderItems {} mapCallback.layer.params)).value =
        ["Map<, \x7bk: (A|null), : *=\x7d>", ""] ∧
      (∃ inner, (recordMap.render {}).value = recordMap.layer.decorate {} ("Map<" ++ inner ++ ">") ∧
        cutOutside ", " inner = ["", "\x7bk: (A|null), : *=\x7d"]) ∧
      ∃ inner, (unionRecord.render {}).value =
          unionRecord.layer.decorate {} ("\x7b" ++ inner ++ "\x7d") ∧
        cutOutside ", " inner = ["k: (A|null)", ": *="] := by
  have hunion : ∀ s ∈ callbackUnion.labels, HasNoDelimiter s := by decide +kernel
  have hfunction : ∀ s ∈ mapCallback.labels, HasNoDelimiter s := by decide +kernel
  have happlication : ∀ s ∈ recordMap.labels, HasNoDelimiter s := by decide +kernel
  have hrecord : ∀ s ∈ unionRecord.labels, HasNoDelimiter s := by decide +kernel
  obtain ⟨-, -, -, hmembers, -⟩ := cutOutside_render (c := {}) rfl rfl hunion
  obtain ⟨-, -, -, -, -, hparams, -⟩ := cutOutside_render (c := {}) rfl rfl hfunction
  obtain ⟨-, -, -, -, harguments, -⟩ := cutOutside_render (c := {}) rfl rfl happlication
  obtain ⟨-, -, -, -, -, -, hfields⟩ := cutOutside_render (c := {}) rfl rfl hrecord
  obtain ⟨inner, htext, hcut⟩ := hmembers _ rfl rfl (by simp)
  obtain ⟨inner', htext', hcut'⟩ := harguments _ rfl rfl (by simp)
  obtain ⟨inner'', htext'', hcut''⟩ := hfields _ rfl rfl (by simp)
  refine ⟨hunion, by decide +kernel, ⟨inner, htext, hcut.trans (by decide +kernel)⟩,
    (hparams _ rfl rfl (by simp)).trans (by decide +kernel),
    ⟨inner', ?_, hcut'.trans (by decide +kernel)⟩, inner'', htext'',
    hcut''.trans (by decide +kernel)⟩
  have hbase : (Node.renderOption {} recordMap.layer.base).value = "Map" := by decide +kernel
  rw [htext', hbase]
  rfl

end TypeText

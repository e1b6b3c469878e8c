import TypeText.Proofs.Json.Reading

/-!
# Values are read back

The characters that are written for a value are one of its texts, in every layout, and
every text of a value is read as the value.

## Main definitions

* `Json.Readable` — values without floating-point numbers and overlong integers.

## Main results

* `spellsChar_escape` — what is written for a character is a text of it.
* `Readable.spells` — **what is written for a readable value is a text of it.**
* `parse_chars` — what is written for a readable value is read back.
-/

set_option autoImplicit false

namespace TypeText

namespace Json

/-- The values that are read back: all numbers in them are integers within the limit. -/
inductive Readable : Json → Prop where
  | null : Readable .null
  | bool (b : Bool) : Readable (.bool b)
  | int {n : Int} (h : Binary64.digitCount n.natAbs ≤ digitLimit) : Readable (.int n)
  | str (s : String) : Readable (.str s)
  | arr {items : List Json} (h : ∀ v ∈ items, Readable v) : Readable (.arr items)
  | obj {members : List (String × Json)} (h : ∀ m ∈ members, Readable m.2) :
    Readable (.obj members)

/-! ### Strings -/

theorem hexDigits_map_toLower (width n : Nat) :
    (hexDigits width n).map Char.toLower = hexDigits width n := by
  have hdigit : ∀ k < 16, k.digitChar.toLower = k.digitChar := by decide
  induction width generalizing n with
  | zero => rfl
  | succ width ih =>
    rw [hexDigits_succ, List.map_append, ih, List.map_singleton,
      hdigit _ (Nat.mod_lt n (by decide))]

theorem spellsUnit_unitEscape (unit : Nat) : SpellsUnit unit (unitEscape unit) :=
  ⟨_, hexDigits_map_toLower 4 unit, rfl⟩

theorem SpellsChar.ite {p : Prop} [Decidable p] {c : Char} {t u : List Char}
    (ht : p → SpellsChar c t) (hu : ¬p → SpellsChar c u) : SpellsChar c (if p then t else u) := by
  by_cases h : p
  · rw [if_pos h]
    exact ht h
  · rw [if_neg h]
    exact hu h

/-- What is written for a character is a text of it. -/
theorem spellsChar_escape (c : Char) : SpellsChar c (escape c) := by
  unfold escape
  refine .ite (fun h => by subst h; exact .letter (by decide)) fun hquote => ?_
  refine .ite (fun h => by subst h; exact .letter (by decide)) fun hbackslash => ?_
  -- the other five escapes of one letter
  iterate 5 refine .ite (fun h => by subst h; exact .letter (by decide)) fun _ => ?_
  refine .ite (fun hvisible => .literal hvisible.1 hquote hbackslash) fun _ => ?_
  refine .ite (fun hc => .unit hc (spellsUnit_unitEscape _)) fun hc => ?_
  exact .pair (Nat.not_lt.mp hc) (spellsUnit_unitEscape _) (spellsUnit_unitEscape _)

theorem spellsChars_escape (s : List Char) : SpellsChars s (s.flatMap escape) := by
  induction s with
  | nil => exact .nil
  | cons c s ih => exact .cons (spellsChar_escape c) ih

/-- What is written for a string, after blanks, is a text of a key. -/
theorem spellsKey_quoted {blanks : List Char} (h : Blanks blanks) (key : String) :
    SpellsKey key (blanks ++ quoted key) :=
  ⟨blanks, _, [], h, spellsChars_escape key.toList, .nil, by simp [quoted]⟩

/-! ### Lists -/

section Lists

variable {layout : Layout} {depth : Nat} {after : List Char}

theorem blanks_lineBreak (layout : Layout) (depth : Nat) : Blanks (layout.lineBreak depth) := by
  intro c h
  cases layout with
  | line => simp [Layout.lineBreak] at h
  | block width =>
    rw [Layout.lineBreak, List.mem_cons, List.mem_replicate] at h
    rcases h with rfl | ⟨-, rfl⟩ <;> decide

/-- A separator is a comma and blanks. -/
theorem exists_separator_eq (layout : Layout) (depth : Nat) :
    ∃ blanks, layout.separator depth = ',' :: blanks ∧ Blanks blanks := by
  cases layout with
  | line => exact ⟨[' '], rfl, by simp [Blanks]⟩
  | block width => exact ⟨_, rfl, blanks_lineBreak _ depth⟩

theorem chars_arr_cons (v : Json) (vs : List Json) :
    chars layout depth (.arr (v :: vs)) =
      '[' :: layout.lineBreak (depth + 1) ++ chars layout (depth + 1) v ++
        itemsTail layout (depth + 1) vs ++ layout.lineBreak depth ++ [']'] := rfl

theorem chars_obj_cons (key : String) (v : Json) (ms : List (String × Json)) :
    chars layout depth (.obj ((key, v) :: ms)) =
      '\x7b' :: layout.lineBreak (depth + 1) ++ quoted key ++ ':' :: ' ' ::
        chars layout (depth + 1) v ++ membersTail layout (depth + 1) ms ++
        layout.lineBreak depth ++ ['\x7d'] := rfl

theorem itemsTail_cons (v : Json) (vs : List Json) :
    itemsTail layout depth (v :: vs) =
      layout.separator depth ++ chars layout depth v ++ itemsTail layout depth vs := rfl

theorem membersTail_cons (key : String) (v : Json) (ms : List (String × Json)) :
    membersTail layout depth ((key, v) :: ms) =
      layout.separator depth ++ quoted key ++ ':' :: ' ' :: chars layout depth v ++
        membersTail layout depth ms := rfl

/-- The items of an array, with blanks around them all, are texts with commas between them. -/
theorem exists_intercalate_itemsTail (hafter : Blanks after) {vs : List Json} :
    ∀ {v : Json} {before : List Char}, Blanks before →
      (∀ w ∈ v :: vs, Spells w (chars layout depth w)) →
      ∃ ps : List (Json × List Char), ps ≠ [] ∧ (∀ p ∈ ps, Spells p.1 p.2) ∧
        ps.map Prod.fst = v :: vs ∧
        [','].intercalate (ps.map Prod.snd) =
          before ++ (chars layout depth v ++ (itemsTail layout depth vs ++ after)) := by
  induction vs with
  | nil =>
    -- the last item has the line break before the bracket
    intro v before hbefore h
    have hv := ((h v List.mem_cons_self).after hafter).before hbefore
    refine ⟨[(v, before ++ (chars layout depth v ++ after))], by simp, by simpa using hv, rfl, ?_⟩
    exact List.intercalate_singleton
  | cons w vs ih =>
    intro v before hbefore h
    -- the blanks of the separator stand before the next item
    obtain ⟨blanks, hseparator, hblanks⟩ := exists_separator_eq layout depth
    obtain ⟨ps, hne, hps, hvalues, htexts⟩ := ih hblanks fun x hx => h x (List.mem_cons_of_mem _ hx)
    have hv := (h v List.mem_cons_self).before hbefore
    refine ⟨(v, before ++ chars layout depth v) :: ps, by simp,
      List.forall_mem_cons.mpr ⟨hv, hps⟩, by simp [hvalues], ?_⟩
    rw [List.map_cons, Reader.intercalate_comma_cons (by simpa using hne), htexts,
      itemsTail_cons, hseparator]
    simp only [List.append_assoc, List.cons_append]

/-- The members of an object, with blanks around them all, are texts with commas between them. -/
theorem exists_intercalate_membersTail (hafter : Blanks after) {ms : List (String × Json)} :
    ∀ {key : String} {v : Json} {before : List Char}, Blanks before →
      (∀ m ∈ (key, v) :: ms, Spells m.2 (chars layout depth m.2)) →
      ∃ ns : List SpelledMember, ns ≠ [] ∧ (∀ n ∈ ns, SpellsKey n.key n.keyText) ∧
        (∀ n ∈ ns, Spells n.value n.valueText) ∧
        (ns.map fun n => (n.key, n.value)) = (key, v) :: ms ∧
        [','].intercalate (ns.map SpelledMember.chars) =
          before ++ (quoted key ++ ':' :: ' ' :: (chars layout depth v ++
            (membersTail layout depth ms ++ after))) := by
  have hspace : Blanks [' '] := by simp [Blanks]
  induction ms with
  | nil =>
    intro key v before hbefore h
    have hv := ((h _ List.mem_cons_self).after hafter).before hspace
    have hkey := spellsKey_quoted hbefore key
    refine ⟨[⟨key, _, v, _⟩], by simp, by simpa using hkey, by simpa using hv, rfl, ?_⟩
    rw [List.map_singleton, List.intercalate_singleton, SpelledMember.chars, List.append_assoc]
    rfl
  | cons m ms ih =>
    obtain ⟨key', v'⟩ := m
    intro key v before hbefore h
    obtain ⟨blanks, hseparator, hblanks⟩ := exists_separator_eq layout depth
    obtain ⟨ns, hne, hkeys, hns, hpairs, htexts⟩ :=
      ih hblanks fun x hx => h x (List.mem_cons_of_mem _ hx)
    have hv := (h _ List.mem_cons_self).before hspace
    have hkey := spellsKey_quoted hbefore key
    refine ⟨⟨key, _, v, _⟩ :: ns, by simp, List.forall_mem_cons.mpr ⟨hkey, hkeys⟩,
      List.forall_mem_cons.mpr ⟨hv, hns⟩, by simp [hpairs], ?_⟩
    rw [List.map_cons, Reader.intercalate_comma_cons (by simpa using hne), htexts,
      membersTail_cons, hseparator, SpelledMember.chars]
    simp only [List.append_assoc, List.cons_append, List.nil_append]

end Lists

/-! ### Values -/

theorem spells_intChars {n : Int} (hn : Binary64.digitCount n.natAbs ≤ digitLimit) :
    Spells (.int n) (intChars n) := by
  cases n with
  | ofNat n => exact .nat hn
  | negSucc n => exact .neg (n := n + 1) hn

/-- **What is written for a readable value is a text of it**, in every layout. -/
theorem Readable.spells {v : Json} (h : Readable v) (layout : Layout) :
    ∀ depth, Spells v (chars layout depth v) := by
  induction h with
  | null => exact fun _ => .null
  | bool b =>
    intro _
    cases b
    · exact .false
    · exact .true
  | int hn => exact fun _ => spells_intChars hn
  | str s => exact fun _ => .str (spellsChars_escape s.toList)
  | @arr items _ ih =>
    intro depth
    cases items with
    | nil => exact .emptyArr .nil
    | cons v vs =>
      -- the line breaks after the opening bracket and before the closing one are blanks
      obtain ⟨ps, hne, hps, hvalues, htexts⟩ := exists_intercalate_itemsTail
        (blanks_lineBreak layout depth) (blanks_lineBreak layout (depth + 1))
        fun w hw => ih w hw (depth + 1)
      have hspells := Spells.arr hne hps
      rw [hvalues, htexts] at hspells
      rw [chars_arr_cons]
      simpa only [List.append_assoc, List.cons_append] using hspells
  | @obj members _ ih =>
    intro depth
    cases members with
    | nil => exact .emptyObj .nil
    | cons m ms =>
      obtain ⟨ns, hne, hkeys, hns, hpairs, htexts⟩ := exists_intercalate_membersTail
        (blanks_lineBreak layout depth) (blanks_lineBreak layout (depth + 1))
        fun n hn => ih n hn (depth + 1)
      have hspells := Spells.obj hne hkeys hns
      rw [hpairs, htexts] at hspells
      rw [chars_obj_cons]
      simpa only [List.append_assoc, List.cons_append] using hspells

/-- A text that holds the characters of a readable value is read as that value. -/
theorem parse_chars {v : Json} (h : Readable v) (layout : Layout) :
    parse (String.ofList (chars layout 0 v)) = .ok v := by
  refine parse_of_spells ?_
  rw [String.toList_ofList]
  exact h.spells layout 0

end Json

end TypeText

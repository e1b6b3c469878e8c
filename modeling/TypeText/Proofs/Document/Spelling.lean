import TypeText.Proofs.Document.Text

/-!
# Reading a text is reading its value

The texts of a value differ in their blanks, in the escapes of their strings and in the
order in which members stand.  None of this reaches the tree that is read, nor the fault
that is found.

## Main definitions

* `Json.Rearranged v w` — `w` is `v` with the members of its objects in other orders.

## Main results

* `Rearranged.sortKeys_eq` — values that are rearranged have the same ordered keys.
* `ofText_of_spells` — **every text of a value is read as the value is.**
-/

set_option autoImplicit false

namespace TypeText

namespace Json

/-- The same value with the members of its objects, at whatever depth, in other orders.  Where
members change places their keys are distinct. -/
inductive Rearranged : Json → Json → Prop where
  | refl (v : Json) : Rearranged v v
  | trans {u v w : Json} (h : Rearranged u v) (h' : Rearranged v w) : Rearranged u w
  | members {ms ns : List (String × Json)} (hkeys : (ms.map Prod.fst).Nodup) (h : ms.Perm ns) :
    Rearranged (.obj ms) (.obj ns)
  | item {before after : List Json} {v w : Json} (h : Rearranged v w) :
    Rearranged (.arr (before ++ v :: after)) (.arr (before ++ w :: after))
  | member {before after : List (String × Json)} {key : String} {v w : Json}
    (h : Rearranged v w) :
    Rearranged (.obj (before ++ (key, v) :: after)) (.obj (before ++ (key, w) :: after))

/-- Values that are rearranged have the same ordered keys. -/
theorem Rearranged.sortKeys_eq {v w : Json} (h : Rearranged v w) : v.sortKeys = w.sortKeys := by
  induction h with
  | refl v => rfl
  | trans _ _ ih ih' => exact ih.trans ih'
  | members hkeys hperm =>
    rw [sortKeys, sortKeys, sortKeysMembers_eq, sortKeysMembers_eq]
    refine congrArg Json.obj (sortMembers_eq_of_perm (hperm.map _) ?_)
    rwa [List.map_map]
  | item _ ih =>
    rw [sortKeys, sortKeys, sortKeysItems_eq, sortKeysItems_eq, List.map_append, List.map_append,
      List.map_cons, List.map_cons, ih]
  | member _ ih =>
    rw [sortKeys, sortKeys, sortKeysMembers_eq, sortKeysMembers_eq, List.map_append,
      List.map_append, List.map_cons, List.map_cons, ih]

end Json

open Json

/-- **Every text of a value is read as the value is**: with the same tree, or with the same
fault. -/
theorem ofText_of_spells {v w : Json} {text : String} (hw : Rearranged v w)
    (h : Spells w text.toList) : Node.ofText text = (Node.ofDocument v).mapError .fault := by
  have hread : Node.ofDocument w = Node.ofDocument v :=
    calc Document.readNode [] w
      _ = Document.readNode [] w.sortKeys := (Document.readNode_sortKeys w []).symm
      _ = Document.readNode [] v.sortKeys := by rw [hw.sortKeys_eq]
      _ = Document.readNode [] v := Document.readNode_sortKeys v []
  rw [Node.ofText, parse_of_spells h, ← hread]
  rfl

/-- A name, with something beside it that is not read. -/
def nameDocument : Json :=
  .obj
    [("type", .str "NameExpression"), ("name", .str "éé/😀"),
      ("at", .arr [.int 0, .obj [("a", .null), ("b", .bool true)]])]

namespace nameDocument

/-- A text of it, with the members in other orders. -/
def text : String :=
  " \x7b\"name\":\"é\\u00E9\\/\\ud83D\\uDE00\",\n\"at\" :[\t-0 ,\x7b\"b\":true, \"a\":null\x7d]," ++
    "\r\"type\": \"\\u004eameExpression\" \x7d\n"

/-- A member with a key that stands for itself, between blanks. -/
def member (before : List Char) (key : String) (after : List Char) (value : Json)
    (valueText : List Char) : SpelledMember :=
  ⟨key, before ++ '"' :: key.toList ++ '"' :: after, value, valueText⟩

/-- The members of the object inside, with their texts. -/
def innerMembers : List SpelledMember :=
  [member [] "b" [] (.bool true) "true".toList, member [' '] "a" [] .null "null".toList]

/-- The items of the array, with their texts. -/
def items : List (Json × List Char) :=
  [(.int (-(0 : Nat)), ['\t'] ++ ('-' :: Nat.toDigits 10 0 ++ [' '])),
    (.obj (innerMembers.map fun m => (m.key, m.value)),
      '\x7b' :: [','].intercalate (innerMembers.map SpelledMember.chars) ++ ['\x7d'])]

/-- The members of the whole, with their texts. -/
def outerMembers : List SpelledMember :=
  [member [] "name" [] (.str "éé/😀") ('"' :: "é\\u00E9\\/\\ud83D\\uDE00".toList ++ ['"']),
    member ['\n'] "at" [' '] (.arr (items.map Prod.fst))
      ('[' :: [','].intercalate (items.map Prod.snd) ++ [']']),
    member ['\r'] "type" [] (.str "NameExpression")
      ([' '] ++ ('"' :: "\\u004eameExpression".toList ++ ['"'] ++ [' ']))]

/-- The same value with its members in the order of the text. -/
def rearranged : Json := .obj (outerMembers.map fun m => (m.key, m.value))

theorem isRearranged : Rearranged nameDocument rearranged := by
  have hperm : ∀ a b c : String × Json, [a, b, c].Perm [b, c, a] := fun a b c =>
    .trans (.swap b a [c]) (.cons b (.swap c a []))
  refine .trans (.members (by decide) (hperm _ _ _)) ?_
  exact @Rearranged.member [_] _ _ _ _ (@Rearranged.item [_] _ _ _
    (.members (by decide) (.swap _ _ _)))

theorem spells_items : ∀ i ∈ items, Spells i.1 i.2 := by
  have hkeys : ∀ m ∈ innerMembers, SpellsKey m.key m.keyText := by
    simp only [innerMembers, List.forall_mem_cons]
    exact ⟨.literal (by decide) [] [] (by decide) (by decide),
      .literal (by decide) [' '] [] (by decide) (by decide), by simp⟩
  have hvalues : ∀ m ∈ innerMembers, Spells m.value m.valueText := by
    simp only [innerMembers, List.forall_mem_cons]
    exact ⟨.true, .null, by simp⟩
  simp only [items, List.forall_mem_cons]
  exact ⟨.before (by decide) (.after (.neg (by decide)) (by decide)),
    .obj (by simp [innerMembers]) hkeys hvalues, by simp⟩

theorem spells : Spells rearranged text.toList := by
  have hname : SpellsChars "éé/😀".toList "é\\u00E9\\/\\ud83D\\uDE00".toList :=
    .cons (.literal (by decide) (by decide) (by decide)) (.cons
      (.unit (by decide) ⟨"00E9".toList, by decide, rfl⟩) (.cons (.letter (by decide)) (.cons
        (.pair (by decide) ⟨"d83D".toList, by decide, rfl⟩ ⟨"DE00".toList, by decide, rfl⟩) .nil)))
  have htype : SpellsChars "NameExpression".toList "\\u004eameExpression".toList :=
    .cons (.unit (by decide) ⟨"004e".toList, by decide, rfl⟩) (.literal (by decide))
  have hkeys : ∀ m ∈ outerMembers, SpellsKey m.key m.keyText := by
    simp only [outerMembers, List.forall_mem_cons]
    exact ⟨.literal (by decide) [] [] (by decide) (by decide),
      .literal (by decide) ['\n'] [' '] (by decide) (by decide),
      .literal (by decide) ['\r'] [] (by decide) (by decide), by simp⟩
  have hvalues : ∀ m ∈ outerMembers, Spells m.value m.valueText := by
    simp only [outerMembers, List.forall_mem_cons]
    exact ⟨.str hname, .arr (by simp [items]) spells_items,
      .before (by decide) (.after (.str htype) (by decide)), by simp⟩
  have htext : text.toList = [' '] ++
      ('\x7b' :: [','].intercalate (outerMembers.map SpelledMember.chars) ++ ['\x7d'] ++
        ['\n']) := by
    decide +kernel
  rw [htext]
  exact .before (by decide) (.after (.obj (by simp [outerMembers]) hkeys hvalues) (by decide))

open Document in
theorem read : Node.ofDocument nameDocument =
    .ok (.mk { tag := .str "NameExpression", name := some "éé/😀" }) := by
  have hslot : ∀ key, member? nameDocument key = none →
      readSlot [] nameDocument key = .ok none := fun key h => by rw [readSlot_eq, h]
  have hlist : ∀ key, member? nameDocument key = none →
      readList [] nameDocument key = .ok none := fun key h => by rw [readList_eq, h]
  have hfields : readFields [] nameDocument = .ok none := by
    rw [readFields_eq]
    rfl
  exact readNode_eq_ok_iff.mpr ⟨_, _, _, _, _, _, _, _, _, _, rfl, rfl, hslot _ rfl, hslot _ rfl,
    hslot _ rfl, hslot _ rfl, hlist _ rfl, hlist _ rfl, hlist _ rfl, hfields, rfl⟩

end nameDocument

theorem ofText_of_spells_nameDocument :
    Rearranged nameDocument nameDocument.rearranged ∧
      Spells nameDocument.rearranged nameDocument.text.toList ∧
      Node.ofText nameDocument.text =
        .ok (.mk { tag := .str "NameExpression", name := some "éé/😀" }) := by
  refine ⟨nameDocument.isRearranged, nameDocument.spells, ?_⟩
  rw [ofText_of_spells nameDocument.isRearranged nameDocument.spells, nameDocument.read]
  rfl

end TypeText

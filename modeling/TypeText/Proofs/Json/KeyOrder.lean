import TypeText.Proofs.Json.RoundTrip

/-!
# The order of keys

A text has the members of its objects in the order of their keys.  Members with one
key keep their order, so that a lookup, which takes the last of them, finds the same
value as before.

## Main definitions

* `Json.Ordered` — no member has a smaller key than one before it.

## Main results

* `lookup_insertMember` — inserting a member counts as adding it at the end.
* `lookup_sortMembers` — **ordering the members changes no lookup.**
* `sortMembers_eq_of_perm` — members with distinct keys have one order.
* `get?_sortKeys` — a member of a value with ordered keys.
* `parse_write` — the text of a readable value is read as the value with ordered keys.
-/

set_option autoImplicit false

namespace TypeText

namespace Json

/-! ### Members -/

section Members

variable {α : Type}

/-- No member has a smaller key than one before it. -/
def Ordered (ms : List (String × α)) : Prop := ms.Pairwise fun a b => a.1 ≤ b.1

theorem perm_insertMember (m : String × α) (ms : List (String × α)) :
    (insertMember m ms).Perm (m :: ms) := by
  induction ms with
  | nil => exact .refl _
  | cons n ms ih =>
    rw [insertMember]
    split
    · exact .refl _
    · exact (ih.cons n).trans (.swap m n ms)

theorem mem_insertMember {m n : String × α} {ms : List (String × α)} :
    n ∈ insertMember m ms ↔ n = m ∨ n ∈ ms :=
  (perm_insertMember m ms).mem_iff.trans List.mem_cons

theorem Ordered.insertMember {ms : List (String × α)} (h : Ordered ms) (m : String × α) :
    Ordered (insertMember m ms) := by
  induction ms with
  | nil => exact List.pairwise_singleton _ _
  | cons n ms ih =>
    obtain ⟨hn, hms⟩ := List.pairwise_cons.mp h
    rw [Json.insertMember]
    split
    · -- it goes to the front, with a smaller key than the first and so than all
      next hlt =>
      refine List.pairwise_cons.mpr ⟨fun p hp => ?_, h⟩
      rcases List.mem_cons.mp hp with rfl | hp
      · exact Std.le_of_lt hlt
      · exact String.le_trans (Std.le_of_lt hlt) (hn p hp)
    · -- it goes behind the first, whose key is not larger
      next hlt =>
      refine List.pairwise_cons.mpr ⟨fun p hp => ?_, ih hms⟩
      rcases mem_insertMember.mp hp with rfl | hp
      · exact String.not_lt.mp hlt
      · exact hn p hp

/-- Inserting a member counts as adding it at the end. -/
theorem lookup_insertMember {ms : List (String × α)} (h : Ordered ms) (m : String × α)
    (key : String) : lookup key (insertMember m ms) = lookup key (ms ++ [m]) := by
  induction ms with
  | nil => rfl
  | cons n ms ih =>
    obtain ⟨hn, hms⟩ := List.pairwise_cons.mp h
    rw [insertMember]
    split
    · next hlt =>
      -- no member after the inserted one has its key
      have hnone : lookup m.1 (n :: ms) = none := by
        refine lookup_eq_none_of_not_mem fun hmem => ?_
        obtain ⟨p, hp, hkey⟩ := List.mem_map.mp hmem
        have hle : n.1 ≤ p.1 := by
          rcases List.mem_cons.mp hp with rfl | hp
          · exact String.le_refl _
          · exact hn p hp
        exact String.not_lt.mpr (hkey ▸ hle) hlt
      rw [lookup_append, lookup_cons key m.1 m.2, lookup_cons key m.1 m.2, lookup_nil,
        Option.none_or]
      by_cases hkey : m.1 = key
      · rw [← hkey, hnone, Option.none_or, Option.or_none]
      · rw [if_neg hkey, Option.or_none, Option.none_or]
    · rw [List.cons_append, lookup_cons, lookup_cons, ih hms]

/-- Inserting members one by one keeps them ordered, and counts as adding them at the end. -/
theorem ordered_foldl_insertMember (ms : List (String × α)) :
    ∀ {sorted : List (String × α)}, Ordered sorted →
      Ordered (ms.foldl (fun sorted m => insertMember m sorted) sorted) ∧
      (ms.foldl (fun sorted m => insertMember m sorted) sorted).Perm (sorted ++ ms) ∧
      ∀ key, lookup key (ms.foldl (fun sorted m => insertMember m sorted) sorted) =
        lookup key (sorted ++ ms) := by
  induction ms with
  | nil => simp
  | cons m ms ih =>
    intro sorted h
    obtain ⟨hordered, hperm, hlookup⟩ := ih (h.insertMember m)
    refine ⟨hordered, ?_, fun key => ?_⟩
    · exact hperm.trans (((perm_insertMember m sorted).append_right ms).trans List.perm_middle.symm)
    · rw [List.foldl_cons, hlookup, lookup_append, lookup_insertMember h, ← lookup_append,
        List.append_assoc, List.singleton_append]

theorem ordered_sortMembers (ms : List (String × α)) : Ordered (sortMembers ms) :=
  (ordered_foldl_insertMember ms List.Pairwise.nil).1

theorem perm_sortMembers (ms : List (String × α)) : (sortMembers ms).Perm ms :=
  (ordered_foldl_insertMember ms List.Pairwise.nil).2.1

theorem mem_sortMembers {m : String × α} {ms : List (String × α)} :
    m ∈ sortMembers ms ↔ m ∈ ms :=
  (perm_sortMembers ms).mem_iff

/-- **Ordering the members changes no lookup.** -/
theorem lookup_sortMembers (key : String) (ms : List (String × α)) :
    lookup key (sortMembers ms) = lookup key ms :=
  (ordered_foldl_insertMember ms List.Pairwise.nil).2.2 key

/-- Where each key stands once, a lookup finds each member. -/
theorem lookup_eq_some_of_mem {ms : List (String × α)} (hkeys : (ms.map Prod.fst).Nodup)
    {m : String × α} (hm : m ∈ ms) : lookup m.1 ms = some m.2 := by
  induction ms with
  | nil => exact absurd hm List.not_mem_nil
  | cons n ms ih =>
    obtain ⟨hn, hms⟩ := List.nodup_cons.mp hkeys
    rw [lookup_cons]
    rcases List.mem_cons.mp hm with rfl | hm
    · -- its key is not repeated after it
      rw [lookup_eq_none_of_not_mem hn, Option.none_or, if_pos rfl]
    · rw [ih hms hm, Option.some_or]

/-- **Members with distinct keys have one order.** -/
theorem sortMembers_eq_of_perm {ms ns : List (String × α)} (h : ms.Perm ns)
    (hkeys : (ms.map Prod.fst).Nodup) : sortMembers ms = sortMembers ns := by
  have hperm : (sortMembers ms).Perm (sortMembers ns) :=
    (perm_sortMembers ms).trans (h.trans (perm_sortMembers ns).symm)
  refine hperm.eq_of_pairwise (fun m n hm hn hle hge => ?_) (ordered_sortMembers ms)
    (ordered_sortMembers ns)
  -- both stand in the list, and under one key there is one value
  have hkey : m.1 = n.1 := String.le_antisymm hle hge
  have hm' := lookup_eq_some_of_mem hkeys (mem_sortMembers.mp hm)
  have hn' := lookup_eq_some_of_mem hkeys (h.mem_iff.mpr (mem_sortMembers.mp hn))
  rw [hkey, hn'] at hm'
  exact Prod.ext hkey (Option.some.inj hm').symm

/-- Where each key stands once, the members are what lookups find. -/
theorem mem_iff_lookup_eq_some {ms : List (String × α)} (hkeys : (ms.map Prod.fst).Nodup)
    {m : String × α} : m ∈ ms ↔ lookup m.1 ms = some m.2 :=
  ⟨lookup_eq_some_of_mem hkeys, mem_of_lookup_eq_some⟩

/-- Members with distinct keys are ordered alike when lookups find the same. -/
theorem sortMembers_eq_of_lookup {ms ns : List (String × α)} (hms : (ms.map Prod.fst).Nodup)
    (hns : (ns.map Prod.fst).Nodup) (h : ∀ key, lookup key ms = lookup key ns) :
    sortMembers ms = sortMembers ns := by
  have hdistinct : ∀ {xs : List (String × α)}, (xs.map Prod.fst).Nodup → xs.Nodup :=
    fun hxs => (List.pairwise_map.mp hxs).imp fun hne heq => hne (congrArg Prod.fst heq)
  refine sortMembers_eq_of_perm ((List.perm_ext_iff_of_nodup (hdistinct hms) (hdistinct hns)).mpr
    fun m => ?_) hms
  rw [mem_iff_lookup_eq_some hms, mem_iff_lookup_eq_some hns, h]

end Members

/-! ### Values -/

theorem sortKeysItems_eq (vs : List Json) : sortKeysItems vs = vs.map sortKeys := by
  induction vs with
  | nil => rfl
  | cons v vs ih => rw [sortKeysItems, ih, List.map_cons]

theorem sortKeysMembers_eq (ms : List (String × Json)) :
    sortKeysMembers ms = ms.map fun m => (m.1, m.2.sortKeys) := by
  induction ms with
  | nil => rfl
  | cons m ms ih => rw [sortKeysMembers, ih, List.map_cons]

/-- A member of a value with ordered keys is a member with ordered keys. -/
theorem get?_sortKeys (v : Json) (key : String) :
    v.sortKeys.get? key = (v.get? key).map sortKeys := by
  cases v with
  | obj ms => rw [sortKeys, get?_obj, get?_obj, lookup_sortMembers, sortKeysMembers_eq, lookup_map]
  | _ => rfl

/-- Objects with distinct keys that have the same values, up to the order of keys in them, are the
same up to the order of keys. -/
theorem sortKeys_obj_eq {ms ns : List (String × Json)} (hms : (ms.map Prod.fst).Nodup)
    (hns : (ns.map Prod.fst).Nodup)
    (h : ∀ key, (lookup key ms).map sortKeys = (lookup key ns).map sortKeys) :
    (Json.obj ms).sortKeys = (Json.obj ns).sortKeys := by
  rw [sortKeys, sortKeys, sortKeysMembers_eq, sortKeysMembers_eq]
  refine congrArg Json.obj (sortMembers_eq_of_lookup ?_ ?_ fun key => ?_)
  · rwa [List.map_map]
  · rwa [List.map_map]
  · rw [lookup_map, lookup_map, h]

theorem Readable.sortKeys {v : Json} (h : Readable v) : Readable v.sortKeys := by
  induction h with
  | null => exact .null
  | bool b => exact .bool b
  | int hn => exact .int hn
  | str s => exact .str s
  | arr _ ih =>
    rw [Json.sortKeys, sortKeysItems_eq]
    refine .arr fun v hv => ?_
    obtain ⟨w, hw, rfl⟩ := List.mem_map.mp hv
    exact ih w hw
  | obj _ ih =>
    rw [Json.sortKeys, sortKeysMembers_eq]
    refine .obj fun m hm => ?_
    obtain ⟨n, hn, rfl⟩ := List.mem_map.mp (mem_sortMembers.mp hm)
    exact ih n hn

/-- The text of a readable value is read as the value with ordered keys. -/
theorem parse_write {v : Json} (h : Readable v) (layout : Layout) :
    parse (write layout v) = .ok v.sortKeys :=
  parse_chars h.sortKeys layout

end Json

end TypeText

import TypeText.Node

/-!
# Equality of trees

Trees are compared part by part, their tags and flags as JSON values, under which zero and
one are the booleans.  So trees that are equal need not be the same; but of two equal values
both are set or neither is, and a string is equal to itself only.

## Main results

* `Json.isTruthy_eq_of_same` — **of equal values both are set, or neither is.**
* `Json.same_self`, `Node.equal_self` — every value and every tree is equal to itself.
* `Json.equal_obj_iff` — objects are equal when they have the same keys with equal values.
* `Layer.agree_iff`, `Node.equal_mk` — nodes agree when each of their parts does, and trees
  are equal when their roots agree, with equal subtrees.
* `Layer.map_eq_of_agreeOption`, `Layer.map_items_eq_of_agree`, `Layer.map_fields_eq_of_agree`
  — what is computed alike from equal subtrees is computed alike from parts that agree.
-/

set_option autoImplicit false

namespace TypeText

/-! ### Numbers -/

namespace Binary64

theorem one_pos : 0 < one := by decide +kernel

theorem signedUnits_eq_zero_iff {s : Bool} {a : Nat} : signedUnits s a = 0 ↔ a = 0 := by
  cases s <;> simp [signedUnits]

/-- Equal numbers are both zero, or neither is. -/
theorem isTruthy_eq_of_equal {x y : Binary64} (h : x.equal y) : x.isTruthy = y.isTruthy := by
  cases x <;> cases y <;> simp only [equal, Bool.false_eq_true] at h
  case finite.finite s a t b =>
    have hzero : a = 0 ↔ b = 0 := by
      rw [← signedUnits_eq_zero_iff (s := s), ← signedUnits_eq_zero_iff (s := t), beq_iff_eq.mp h]
    rw [Bool.eq_iff_iff]
    simp [isTruthy, hzero]
  case infinite.infinite => rfl

theorem isTruthy_eq_of_equalInt {x : Binary64} {n : Int} (h : x.equalInt n) :
    x.isTruthy = (n != 0) := by
  cases x <;> simp only [equalInt, Bool.false_eq_true] at h
  case finite s a =>
    have hpos := one_pos
    have hzero : a = 0 ↔ n = 0 := by
      rw [← signedUnits_eq_zero_iff (s := s), beq_iff_eq.mp h, Int.mul_eq_zero]
      omega
    rw [Bool.eq_iff_iff]
    simp [isTruthy, hzero]

theorem equal_self {x : Binary64} (h : x ≠ .nan) : x.equal x := by
  cases x with
  | nan => exact absurd rfl h
  | _ => simp [equal]

end Binary64

/-! ### Values -/

namespace Json

theorem isTruthy_of_int? {v : Json} {n : Int} (h : v.int? = some n) : v.isTruthy = (n != 0) := by
  cases v with
  | bool b =>
    obtain rfl := Option.some.inj h
    cases b <;> rfl
  | int m =>
    obtain rfl := Option.some.inj h
    rfl
  | _ => simp [int?] at h

theorem isEmpty_eq_of_equalItems {xs ys : List Json} (h : equalItems xs ys) :
    xs.isEmpty = ys.isEmpty := by
  cases xs <;> cases ys <;> simp_all [equalItems]

/-- The last member of an object is found in an object that subsumes it. -/
theorem ne_nil_of_subsumed {ms ns : List (String × Json)} (h : subsumed ms ns) (hne : ms ≠ []) :
    ns ≠ [] := by
  rintro rfl
  induction ms with
  | nil => exact hne rfl
  | cons m ms ih =>
    obtain ⟨k, v⟩ := m
    rw [subsumed, lookup_nil, Bool.or_false, Bool.and_eq_true] at h
    by_cases hms : ms = []
    · -- the last member is not repeated, and nothing is found under its key
      simp [hms] at h
    · exact ih hms h.2

theorem isTruthy_eq_of_equal {v w : Json} (h : v.equal w) : v.isTruthy = w.isTruthy := by
  -- a number is equal to a boolean as it is to zero or one
  have hint : ∀ {u : Json} {x : Binary64}, u.int?.any x.equalInt → x.isTruthy = u.isTruthy := by
    intro u x hany
    cases hu : u.int? with
    | none => simp [hu] at hany
    | some n =>
      rw [hu] at hany
      rw [Binary64.isTruthy_eq_of_equalInt hany, isTruthy_of_int? hu]
  unfold equal at h
  split at h
  · rfl
  · rw [beq_iff_eq.mp h]
  · exact congrArg (!·) (isEmpty_eq_of_equalItems h)
  · -- objects that subsume one another are both empty, or neither is
    next ms ns =>
    obtain ⟨hms, hns⟩ := Bool.and_eq_true_iff.mp h
    cases ms with
    | nil =>
      cases ns with
      | nil => rfl
      | cons n ns => simp at hns
    | cons m ms =>
      cases ns with
      | nil => exact absurd rfl (ne_nil_of_subsumed hms (by simp))
      | cons n ns => rfl
  · exact Binary64.isTruthy_eq_of_equal h
  · exact hint h
  · exact (hint h).symm
  · split at h
    · next a b ha hb => rw [isTruthy_of_int? ha, isTruthy_of_int? hb, beq_iff_eq.mp h]
    · exact absurd h (by simp)

theorem isTruthy_of_isNan {v : Json} (h : v.isNan) : v.isTruthy := by
  unfold isNan at h
  split at h
  · rfl
  · exact absurd h (by simp)

/-- Of equal values both are set, or neither is. -/
theorem isTruthy_eq_of_same {v w : Json} (h : v.same w) : v.isTruthy = w.isTruthy := by
  rcases Bool.or_eq_true_iff.mp h with hnan | hequal
  · obtain ⟨hv, hw⟩ := Bool.and_eq_true_iff.mp hnan
    rw [isTruthy_of_isNan hv, isTruthy_of_isNan hw]
  · exact isTruthy_eq_of_equal hequal

/-- A string is equal to itself only. -/
theorem eq_str_of_same {s : String} {w : Json} (h : (Json.str s).same w) : w = .str s := by
  cases w <;> simp_all [same, isNan, equal, int?]

theorem equalItems_self {vs : List Json} (h : ∀ v ∈ vs, v.same v) : equalItems vs vs := by
  induction vs with
  | nil => rfl
  | cons v vs ih =>
    obtain ⟨hv, hvs⟩ := List.forall_mem_cons.mp h
    rw [equalItems, ih hvs, Bool.and_true]
    exact hv

/-- A key that is in a list has a value. -/
theorem isSome_lookup_of_mem {m : String × Json} {ms : List (String × Json)} (h : m ∈ ms) :
    (lookup m.1 ms).isSome := by
  induction ms with
  | nil => exact absurd h List.not_mem_nil
  | cons n ms ih =>
    rw [lookup_cons, Option.isSome_or, Bool.or_eq_true]
    rcases List.mem_cons.mp h with rfl | h
    · exact Or.inr (by rw [if_pos rfl]; rfl)
    · exact Or.inl (ih h)

/-- An object subsumes another one when it has equal values under all of its keys. -/
theorem subsumed_iff {ms ns : List (String × Json)} :
    subsumed ms ns ↔
      ∀ key v, lookup key ms = some v → ∃ w, lookup key ns = some w ∧ v.same w := by
  induction ms with
  | nil => simp [subsumed]
  | cons m ms ih =>
    obtain ⟨k, v⟩ := m
    rw [subsumed, Bool.and_eq_true, Bool.or_eq_true, ih]
    constructor
    · rintro ⟨hhead, hrest⟩ key u hu
      rw [lookup_cons] at hu
      cases hlast : lookup key ms with
      | some w =>
        -- the key is repeated, and the first member does not count
        rw [hlast, Option.some_or] at hu
        exact hrest key u (hlast.trans hu)
      | none =>
        -- the value of the first member counts, since its key is not repeated
        rw [hlast, Option.none_or] at hu
        by_cases hkey : k = key
        · subst hkey
          obtain rfl := Option.some.inj ((if_pos rfl).symm.trans hu)
          rw [hlast] at hhead
          rcases hhead with hhead | hhead
          · exact absurd hhead (by simp)
          · split at hhead
            · next w hw => exact ⟨w, hw, hhead⟩
            · exact absurd hhead (by simp)
        · rw [if_neg hkey] at hu
          exact absurd hu (by simp)
    · intro h
      refine ⟨?_, fun key u hu => h key u (by rw [lookup_cons, hu, Option.some_or])⟩
      cases hlast : lookup k ms with
      | some w => exact Or.inl rfl
      | none =>
        obtain ⟨w, hw, hsame⟩ := h k v (by rw [lookup_cons, hlast, if_pos rfl]; rfl)
        rw [hw]
        exact Or.inr hsame

/-- Objects are equal when they have the same keys with equal values. -/
theorem equal_obj_iff {ms ns : List (String × Json)} :
    (Json.obj ms).equal (.obj ns) ↔
      ∀ key, Layer.agreeOption same (lookup key ms) (lookup key ns) := by
  rw [equal, Bool.and_eq_true, subsumed_iff, List.all_eq_true]
  constructor
  · rintro ⟨hms, hns⟩ key
    cases hv : lookup key ms with
    | some v =>
      obtain ⟨w, hw, hsame⟩ := hms key v hv
      rw [hw]
      exact hsame
    | none =>
      cases hw : lookup key ns with
      | none => rfl
      | some w =>
        -- the second object has no key that the first one lacks
        have hsome := hns (key, w) (mem_of_lookup_eq_some hw)
        rw [hv] at hsome
        exact absurd hsome (by simp)
  · intro h
    refine ⟨fun key v hv => ?_, fun m hm => ?_⟩
    · have hkey := h key
      rw [hv] at hkey
      cases hw : lookup key ns with
      | none => simp [hw, Layer.agreeOption] at hkey
      | some w => exact ⟨w, rfl, by simpa [hw, Layer.agreeOption] using hkey⟩
    · have hkey := h m.1
      obtain ⟨w, hw⟩ := Option.isSome_iff_exists.mp (isSome_lookup_of_mem hm)
      rw [hw] at hkey
      cases hv : lookup m.1 ms with
      | none => simp [hv, Layer.agreeOption] at hkey
      | some v => rfl

/-- Every value is equal to itself, as a part. -/
theorem same_self (v : Json) : v.same v := by
  cases v with
  | null => rfl
  | bool b => simp [same, equal, int?]
  | int n => simp [same, equal, int?]
  | real x =>
    by_cases hx : x = .nan
    · -- the one value that is not equal to itself when it stands alone
      rw [hx]
      rfl
    · rw [same, equal, Binary64.equal_self hx, Bool.or_true]
  | str s => simp [same, equal]
  | arr items =>
    have hitems : equalItems items items := equalItems_self fun v _ => same_self v
    rw [same, equal, hitems, Bool.or_true]
  | obj members =>
    have hmembers : (Json.obj members).equal (.obj members) := by
      refine equal_obj_iff.mpr fun key => ?_
      cases hw : lookup key members with
      | none => rfl
      | some w => exact same_self w
    rw [same, hmembers, Bool.or_true]
termination_by sizeOf v
decreasing_by
  · have hlt := List.sizeOf_lt_of_mem ‹_›
    rw [arr.sizeOf_spec]
    omega
  · exact sizeOf_lt_of_get? hw

end Json

/-! ### Nodes -/

namespace Layer

section Agree

variable {α β γ : Type} {r : α → β → Bool}

theorem agreeOption_map (f : γ → α) (o : Option γ) (p : Option β) :
    agreeOption r (o.map f) p = agreeOption (fun a b => r (f a) b) o p := by
  cases o <;> cases p <;> rfl

theorem agreeList_map (f : γ → α) (as : List γ) (bs : List β) :
    agreeList r (as.map f) bs = agreeList (fun a b => r (f a) b) as bs := by
  induction as generalizing bs with
  | nil => cases bs <;> rfl
  | cons a as ih =>
    cases bs with
    | nil => rfl
    | cons b bs => rw [List.map_cons, agreeList, agreeList, ih]

theorem agreeField_map (f : γ → α) (x : Field γ) (y : Field β) :
    agreeField r (x.map f) y = agreeField (fun a b => r (f a) b) x y := by
  rw [agreeField, agreeField, Field.map, agreeOption_map, agreeOption_map]

/-- Subtrees may be replaced before they are compared. -/
theorem agree_map (f : γ → α) (l : Layer γ) (m : Layer β) :
    (l.map f).agree r m = l.agree (fun a b => r (f a) b) m := by
  simp only [agree, map, agreeOption_map, agreeList_map, agreeField_map]

/-- Nodes agree when each of their parts does. -/
theorem agree_iff {l : Layer α} {m : Layer β} :
    l.agree r m ↔
      l.tag.same m.tag ∧ l.name = m.name ∧ agreeOption r l.inner m.inner ∧
      agreeOption (agreeList (agreeOption r)) l.members m.members ∧
      agreeOption (agreeList (agreeField r)) l.fields m.fields ∧
      agreeOption r l.base m.base ∧
      agreeOption (agreeList (agreeOption r)) l.arguments m.arguments ∧
      agreeOption r l.newType m.newType ∧ agreeOption r l.thisType m.thisType ∧
      agreeOption (agreeList (agreeOption r)) l.params m.params ∧
      agreeOption r l.result m.result ∧ l.optional.same m.optional ∧
      l.nullable = m.nullable ∧ l.repeatable.same m.repeatable := by
  simp only [agree, Bool.and_eq_true, beq_iff_eq, and_assoc]

/-- Functions that give the same on parts that agree give the same on the whole. -/
theorem map_eq_of_agreeOption {g : α → γ} {k : β → γ} {o : Option α} {p : Option β}
    (h : ∀ a b, o = some a → p = some b → r a b → g a = k b) (hop : agreeOption r o p) :
    o.map g = p.map k := by
  cases o with
  | none =>
    cases p with
    | none => rfl
    | some b => exact absurd hop (by simp [agreeOption])
  | some a =>
    cases p with
    | none => exact absurd hop (by simp [agreeOption])
    | some b => rw [Option.map_some, Option.map_some, h a b rfl rfl hop]

theorem map_eq_of_agreeList {g : α → γ} {k : β → γ} {as : List α} {bs : List β}
    (h : ∀ (i : Nat) a b, as[i]? = some a → bs[i]? = some b → r a b → g a = k b)
    (hab : agreeList r as bs) : as.map g = bs.map k := by
  induction as generalizing bs with
  | nil =>
    cases bs with
    | nil => rfl
    | cons b bs => exact absurd hab (by simp [agreeList])
  | cons a as ih =>
    cases bs with
    | nil => exact absurd hab (by simp [agreeList])
    | cons b bs =>
      obtain ⟨hhead, htail⟩ := Bool.and_eq_true_iff.mp hab
      rw [List.map_cons, List.map_cons, h 0 a b rfl rfl hhead,
        ih (fun i x y hx hy => h (i + 1) x y hx hy) htail]

/-- The same for the items of lists that may be missing. -/
theorem map_items_eq_of_agree {g : α → γ} {k : β → γ} {o : Option (List (Option α))}
    {p : Option (List (Option β))}
    (h : ∀ (i : Nat) a b, (o.getD [])[i]?.join = some a → (p.getD [])[i]?.join = some b →
      r a b → g a = k b)
    (hop : agreeOption (agreeList (agreeOption r)) o p) :
    (o.map fun items => items.map fun item => item.map g) =
      p.map fun items => items.map fun item => item.map k := by
  refine map_eq_of_agreeOption (fun as bs has hbs hlists => ?_) hop
  refine map_eq_of_agreeList (fun i x y hx hy hitems => ?_) hlists
  refine map_eq_of_agreeOption (fun a b ha hb => h i a b ?_ ?_) hitems
  · rw [has, Option.getD_some, hx, ha, Option.join_some]
  · rw [hbs, Option.getD_some, hy, hb, Option.join_some]

/-- The same for the keys and values of fields. -/
theorem map_fields_eq_of_agree {g : α → γ} {k : β → γ} {o : Option (List (Field α))}
    {p : Option (List (Field β))}
    (hkey : ∀ (i : Nat) a b, (o.getD [])[i]?.bind Field.key = some a →
      (p.getD [])[i]?.bind Field.key = some b → r a b → g a = k b)
    (hvalue : ∀ (i : Nat) a b, (o.getD [])[i]?.bind Field.value = some a →
      (p.getD [])[i]?.bind Field.value = some b → r a b → g a = k b)
    (hop : agreeOption (agreeList (agreeField r)) o p) :
    (o.map fun fields => fields.map fun x => x.map g) =
      p.map fun fields => fields.map fun x => x.map k := by
  refine map_eq_of_agreeOption (fun as bs has hbs hlists => ?_) hop
  refine map_eq_of_agreeList (fun i x y hx hy hfields => ?_) hlists
  obtain ⟨hkeys, hvalues⟩ := Bool.and_eq_true_iff.mp hfields
  have hat : ∀ {δ : Type} {fields : Option (List (Field δ))} {list : List (Field δ)} {z : Field δ}
      (part : Field δ → Option δ), fields = some list → list[i]? = some z →
      (fields.getD [])[i]?.bind part = part z := by
    intro δ fields list z part hfields hz
    rw [hfields, Option.getD_some, hz, Option.bind_some]
  rw [Field.map, Field.map,
    map_eq_of_agreeOption (fun a b ha hb => hkey i a b ((hat _ has hx).trans ha)
      ((hat _ hbs hy).trans hb)) hkeys,
    map_eq_of_agreeOption (fun a b ha hb => hvalue i a b ((hat _ has hx).trans ha)
      ((hat _ hbs hy).trans hb)) hvalues]

theorem agreeOption_self {r : α → α → Bool} {o : Option α} (h : ∀ a ∈ o, r a a) :
    agreeOption r o o := by
  cases o with
  | none => rfl
  | some a => exact h a rfl

theorem agreeList_self {r : α → α → Bool} {as : List α} (h : ∀ a ∈ as, r a a) :
    agreeList r as as := by
  induction as with
  | nil => rfl
  | cons a as ih =>
    obtain ⟨ha, has⟩ := List.forall_mem_cons.mp h
    rw [agreeList, ha, ih has]
    rfl

end Agree

end Layer

/-! ### Trees -/

namespace Node

/-- Trees are equal when their roots agree, with equal subtrees. -/
theorem equal_mk (l m : Layer Node) : (Node.mk l).equal (.mk m) = l.agree equal m := by
  rw [equal, fold_mk, Layer.agree_map]
  rfl

/-- Every tree is equal to itself. -/
theorem equal_self (n : Node) : n.equal n := by
  induction n using Node.induct with
  | h l ih =>
    -- one lemma for each shape that a part can have: a subtree, a list of them, fields
    have hoption : ∀ {o : Option Node}, (∀ c, o = some c → c ∈ l.children) →
        Layer.agreeOption equal o o :=
      fun h => Layer.agreeOption_self fun c hc => ih c (h c hc)
    have hitems : ∀ {items : Option (List (Option Node))},
        (∀ c ∈ Layer.present items, c ∈ l.children) →
        Layer.agreeOption (Layer.agreeList (Layer.agreeOption equal)) items items := by
      intro items h
      refine Layer.agreeOption_self fun list hlist => Layer.agreeList_self fun item hitem => ?_
      exact hoption fun c hc => h c (Layer.mem_present.mpr ⟨list, hlist, hc ▸ hitem⟩)
    have hfields :
        Layer.agreeOption (Layer.agreeList (Layer.agreeField equal)) l.fields l.fields := by
      refine Layer.agreeOption_self fun list hlist => Layer.agreeList_self fun f hf => ?_
      have hchild : ∀ c, f.key = some c ∨ f.value = some c → c ∈ l.children := fun c hc =>
        Layer.mem_children.mpr (Or.inr (Or.inr (Or.inl ⟨list, hlist, f, hf, hc⟩)))
      rw [Layer.agreeField, hoption fun c hc => hchild c (Or.inl hc),
        hoption fun c hc => hchild c (Or.inr hc)]
      rfl
    rw [equal_mk, Layer.agree_iff]
    refine ⟨l.tag.same_self, rfl, hoption ?_, hitems ?_, hfields, hoption ?_, hitems ?_, hoption ?_,
      hoption ?_, hitems ?_, hoption ?_, l.optional.same_self, rfl, l.repeatable.same_self⟩
    all_goals exact fun c hc => Layer.mem_children.mpr (by simp only [hc, true_or, or_true])

end Node

end TypeText

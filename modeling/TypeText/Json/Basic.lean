import TypeText.Binary64.Basic

/-!
# JSON values

Documents, option values, link targets and the raw tags of type expressions are
all JSON values.  Numbers keep the distinction a text makes: a literal without
fraction and exponent is an integer of any size, any other literal is a
floating-point number.

## Main definitions

* `Json` — the values.
* `lookup key pairs` — the value a list of pairs gives to a key; the last pair
  with the key counts.
* `Json.get? v key` — the member of an object under a key.
* `Json.typeName` — the name by which messages call the type of a value.
* `Json.isTruthy` — whether a value counts as set.
* `Json.equal` — equality of values, under which booleans are the numbers zero
  and one.
* `Json.same` — the same for values that are parts of something, which are also
  equal when they are one and the same.

## Main results

* `lookup_append` — lookups in the later of two lists come first.
* `lookup_map`, `lookup_filter` — lookups among changed values and among some keys.
* `Json.sizeOf_lt_of_get?` — a member is smaller than its object, so that
  recursion through `get?` ends.
-/

set_option autoImplicit false

namespace TypeText

/-! ### Values -/

/-- A JSON value.  The members of an object stand in the order they were written;
a key may be repeated, and then `Json.get?` takes its last value. -/
inductive Json where
  | null
  | bool (b : Bool)
  /-- A number written without fraction and exponent. -/
  | int (n : Int)
  /-- A number written with a fraction or an exponent, or a non-finite number. -/
  | real (x : Binary64)
  | str (s : String)
  | arr (items : List Json)
  | obj (members : List (String × Json))

instance : Inhabited Json := ⟨.null⟩

/-- The value that a list of pairs gives to a key: the last pair with that key
counts. -/
def lookup {α : Type} (key : String) : List (String × α) → Option α
  | [] => none
  | (k, v) :: rest =>
    match lookup key rest with
    | some w => some w
    | none => if k = key then some v else none

@[simp] theorem lookup_nil {α : Type} (key : String) :
    lookup key ([] : List (String × α)) = none := rfl

theorem lookup_cons {α : Type} (key k : String) (v : α) (rest : List (String × α)) :
    lookup key ((k, v) :: rest) =
      (lookup key rest).or (if k = key then some v else none) := by
  rw [lookup]
  cases lookup key rest <;> rfl

/-- A pair at the end of the list counts before all others. -/
theorem lookup_append {α : Type} (key : String) (xs ys : List (String × α)) :
    lookup key (xs ++ ys) = (lookup key ys).or (lookup key xs) := by
  induction xs with
  | nil => simp
  | cons x xs ih =>
    obtain ⟨k, v⟩ := x
    rw [List.cons_append, lookup_cons, lookup_cons, ih, Option.or_assoc]

/-- What a lookup finds stands in the list under the key. -/
theorem mem_of_lookup_eq_some {α : Type} {key : String} {v : α} :
    ∀ {pairs : List (String × α)}, lookup key pairs = some v → (key, v) ∈ pairs
  | [], h => by simp at h
  | (k, w) :: rest, h => by
    rw [lookup] at h
    split at h
    · rename_i u hu
      obtain rfl : u = v := by simpa using h
      exact List.mem_cons_of_mem _ (mem_of_lookup_eq_some hu)
    · split at h
      · rename_i hk
        obtain rfl : w = v := by simpa using h
        exact hk ▸ List.mem_cons_self
      · simp at h

/-- A key that is not in a list has no value. -/
theorem lookup_eq_none_of_not_mem {α : Type} {key : String} :
    ∀ {pairs : List (String × α)}, key ∉ pairs.map Prod.fst → lookup key pairs = none
  | [], _ => rfl
  | (k, v) :: rest, h => by
    rw [List.map_cons, List.mem_cons, not_or] at h
    rw [lookup_cons, lookup_eq_none_of_not_mem h.2, if_neg (Ne.symm h.1)]
    rfl

/-- A lookup among changed values finds the changed value. -/
theorem lookup_map_keyed {α β : Type} (f : String → α → β) (key : String)
    (pairs : List (String × α)) :
    lookup key (pairs.map fun p => (p.1, f p.1 p.2)) = (lookup key pairs).map (f key) := by
  induction pairs with
  | nil => rfl
  | cons p pairs ih =>
    rw [List.map_cons, lookup_cons, lookup_cons, ih, Option.map_or]
    by_cases hkey : p.1 = key
    · rw [if_pos hkey, if_pos hkey, hkey]
      rfl
    · rw [if_neg hkey, if_neg hkey]
      rfl

theorem lookup_map {α β : Type} (f : α → β) (key : String) (pairs : List (String × α)) :
    lookup key (pairs.map fun p => (p.1, f p.2)) = (lookup key pairs).map f :=
  lookup_map_keyed (fun _ => f) key pairs

/-- A lookup among some of the keys. -/
theorem lookup_filter {α : Type} (p : String → Bool) (key : String) (pairs : List (String × α)) :
    lookup key (pairs.filter fun m => p m.1) = if p key then lookup key pairs else none := by
  induction pairs with
  | nil => simp
  | cons m pairs ih =>
    by_cases hm : p m.1
    · rw [List.filter_cons, if_pos hm, lookup_cons, lookup_cons, ih]
      split
      · rfl
      · next hkey =>
        rw [if_neg (show m.1 ≠ key from fun h => hkey (h ▸ hm))]
        rfl
    · rw [List.filter_cons, if_neg hm, lookup_cons, ih]
      split
      · next hkey => rw [if_neg (show m.1 ≠ key from fun h => hm (h ▸ hkey)), Option.or_none]
      · rfl

namespace Json

/-- The member of an object under a key; nothing for a value that is no object. -/
def get? (v : Json) (key : String) : Option Json :=
  match v with
  | .obj members => lookup key members
  | _ => none

@[simp] theorem get?_obj (members : List (String × Json)) (key : String) :
    (Json.obj members).get? key = lookup key members := rfl

/-- A member is smaller than its object. -/
theorem sizeOf_lt_of_get? {v w : Json} {key : String} (h : v.get? key = some w) :
    sizeOf w < sizeOf v := by
  cases v with
  | obj members =>
    have hmem := List.sizeOf_lt_of_mem (mem_of_lookup_eq_some h)
    simp only [Prod.mk.sizeOf_spec] at hmem
    simp only [Json.obj.sizeOf_spec]
    omega
  | _ => simp [get?] at h

/-- The name by which messages call the type of a value. -/
def typeName : Json → String
  | .null => "NoneType"
  | .bool _ => "bool"
  | .int _ => "int"
  | .real _ => "float"
  | .str _ => "str"
  | .arr _ => "list"
  | .obj _ => "dict"

/-- Whether a value counts as set: `null`, `false`, zero and everything empty do
not. -/
def isTruthy : Json → Bool
  | .null => false
  | .bool b => b
  | .int n => n != 0
  | .real x => x.isTruthy
  | .str s => s != ""
  | .arr items => !items.isEmpty
  | .obj members => !members.isEmpty

/-- Whether a value is the boolean `true` itself, and not merely set. -/
def isTrue : Json → Bool
  | .bool b => b
  | _ => false

/-- The integer that a value stands for in comparisons: `false` is zero and `true`
is one. -/
def int? : Json → Option Int
  | .bool b => some (if b then 1 else 0)
  | .int n => some n
  | _ => none

/-- Whether a value is the number that is not a number. -/
def isNan : Json → Bool
  | .real .nan => true
  | _ => false

/-! ### Equality -/

mutual

/-- Equality of values.  Numbers and booleans are equal when they are exactly the same
number, arrays when they are equal item by item, objects when they have the same
keys with equal values in whatever order. -/
def equal : Json → Json → Bool
  | .null, .null => true
  | .str s, .str t => s == t
  | .arr xs, .arr ys => equalItems xs ys
  | .obj ms, .obj ns =>
    subsumed ms ns && ns.all fun m => (lookup m.1 ms).isSome
  | .real x, .real y => x.equal y
  | .real x, w => w.int?.any x.equalInt
  | v, .real y => v.int?.any y.equalInt
  | v, w =>
    match v.int?, w.int? with
    | some a, some b => a == b
    | _, _ => false

/-- Equality of arrays, item by item. -/
def equalItems : List Json → List Json → Bool
  | [], [] => true
  | x :: xs, y :: ys => (x.isNan && y.isNan || equal x y) && equalItems xs ys
  | _, _ => false

/-- Whether the members of one object are found with equal values in another.  A
member whose key is repeated later does not count. -/
def subsumed : List (String × Json) → List (String × Json) → Bool
  | [], _ => true
  | (k, v) :: rest, ns =>
    ((lookup k rest).isSome ||
      match lookup k ns with
      | some w => v.isNan && w.isNan || equal v w
      | none => false) &&
    subsumed rest ns

end

/-- Equality of values that are parts of something.  What is not a number is not equal
to itself, but as a part it is the same part. -/
def same (v w : Json) : Bool := v.isNan && w.isNan || equal v w

end Json

end TypeText

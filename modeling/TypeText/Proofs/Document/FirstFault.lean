import TypeText.Proofs.Document.FaultPaths
import TypeText.Proofs.Document.Grammar

/-!
# The order of faults

The faults of a document come in the order in which the document is read, and this order
can be seen from their paths alone: a place comes before everything under it, and of two
places that part ways the one comes first whose step is read first.  Keys are read in a
fixed order, whatever their order in the document, and items by their numbers.

## Main definitions

* `Path.keyOrder`, `Path.Step.rank` — the order of keys, and where a step comes among its
  siblings.
* `Path.Before` — the order of places.

## Main results

* `pairwise_parts` — the parts of a value are listed in the order of their steps.
* `pairwise_faults` — **the faults of a value are listed in the order of their paths.**
* `exists_faults_eq_cons` — the fault that reading reports is the first one.
-/

set_option autoImplicit false

namespace TypeText

/-! ### The order of places -/

namespace Path

/-- The keys under which faults can be found, in the order in which they are read. -/
def keyOrder : List String :=
  ["name", "expression", "new", "this", "result", "elements", "applications", "params", "fields",
    "key", "value"]

/-- Where a step comes among the steps from one place. -/
def Step.rank : Step → Nat
  | .key name => keyOrder.idxOf name
  | .index i => i

/-- The order of places: a place comes before all places under it, and of two places that part
ways the one with the smaller step comes first. -/
def Before (p q : Path) : Prop := List.Lex (fun s t => s.rank < t.rank) p q

theorem before_append (p : Path) {q : Path} (hq : q ≠ []) : p.Before (p ++ q) := by
  induction p with
  | nil =>
    obtain ⟨s, q, rfl⟩ := List.exists_cons_of_ne_nil hq
    exact .nil
  | cons s p ih => exact .cons ih

theorem before_of_rank_lt (p : Path) {s t : Step} (h : s.rank < t.rank) (q r : Path) :
    Path.Before (p ++ s :: q) (p ++ t :: r) := by
  induction p with
  | nil => exact .rel h
  | cons u p ih => exact .cons ih

/-- What is under the first of two siblings comes before what is under the second. -/
theorem before_of_isPrefix {p q r : Path} {s t : Step} (h : s.rank < t.rank)
    (hq : p ++ [s] <+: q) (hr : p ++ [t] <+: r) : q.Before r := by
  obtain ⟨q, rfl⟩ := hq
  obtain ⟨r, rfl⟩ := hr
  rw [List.append_assoc, List.append_assoc]
  exact before_of_rank_lt p h q r

end Path

namespace Document

/-! ### Parts in order -/

/-- The keys of nodes and of fields are listed in the order of reading. -/
theorem pairwise_keys {keys : List (String × Form)} (h : keys = nodeKeys ∨ keys = fieldKeys) :
    keys.Pairwise fun k l => (Path.Step.key k.1).rank < (Path.Step.key l.1).rank := by
  rcases h with rfl | rfl <;> decide

theorem pairwise_keyed (v : Json) {keys : List (String × Form)}
    (h : keys.Pairwise fun k l => (Path.Step.key k.1).rank < (Path.Step.key l.1).rank) :
    (keyed v keys).Pairwise fun p q => p.step.rank < q.step.rank := by
  refine List.Pairwise.filterMap _ ?_ h
  intro k l hkl p hp q hq
  obtain ⟨_, -, rfl⟩ := Option.map_eq_some_iff.mp hp
  obtain ⟨_, -, rfl⟩ := Option.map_eq_some_iff.mp hq
  exact hkl

theorem pairwise_indexed (form : Form) (items : List Json) :
    (indexed form 0 items).Pairwise fun p q => p.step.rank < q.step.rank := by
  have hnumbers : ((items.zipIdx 0).map Prod.snd).Pairwise (· < ·) := by
    rw [List.zipIdx_map_snd]
    exact List.pairwise_lt_range'
  rw [indexed, List.pairwise_map]
  exact List.pairwise_map.mp hnumbers

/-- The parts of a value are listed in the order of their steps. -/
theorem pairwise_parts (form : Form) (v : Json) :
    (form.parts v).Pairwise fun p q => p.step.rank < q.step.rank := by
  unfold Form.parts
  split
  · exact pairwise_keyed v (pairwise_keys (Or.inl rfl))
  · exact pairwise_keyed v (pairwise_keys (Or.inr rfl))
  · exact pairwise_indexed .node _
  · exact pairwise_indexed .field _
  · exact List.Pairwise.nil

/-! ### Faults in order -/

/-- A fault of a value is at its place, or at the name of a node. -/
theorem path_of_mem_own {q : Place} {f : Fault} (hf : f ∈ q.faults) :
    f.path = q.path ∨ q.form = .node ∧ f.path = q.path ++ [.key "name"] := by
  unfold Place.faults at hf
  split at hf
  · -- of a node, the tag and then the name is checked
    rcases List.mem_append.mp hf with hf | hf
    · obtain ⟨rfl, -⟩ := mem_tagFaults hf
      exact Or.inl rfl
    · obtain ⟨w, -, -, -, rfl⟩ := mem_nameFaults hf
      exact Or.inr ⟨rfl, rfl⟩
  · exact Or.inl (congrArg Fault.path (List.mem_singleton.mp hf))
  · exact absurd hf List.not_mem_nil
  · exact Or.inl (congrArg Fault.path (List.mem_singleton.mp hf))
  · exact absurd hf List.not_mem_nil
  · exact Or.inl (congrArg Fault.path (List.mem_singleton.mp hf))

/-- The faults of a value are at its place or under it. -/
theorem isPrefix_of_mem_faults {form : Form} {path : Path} {v : Json} {f : Fault}
    (hf : f ∈ faults form path v) : path <+: f.path := by
  obtain ⟨q, hq, hf⟩ := List.mem_flatMap.mp hf
  have hplace : path <+: q.path :=
    forall_mem_places (P := fun q => path <+: q.path)
      (fun q hq p _ => hq.trans (List.prefix_append q.path _)) form path v (List.prefix_refl path) q
      hq
  rcases path_of_mem_own hf with h | ⟨-, h⟩
  · rwa [h]
  · rw [h]
    exact hplace.trans (List.prefix_append q.path _)

/-- The step to a part of a node comes after the step to the name. -/
theorem rank_name_lt {v : Json} {p : Part} (hp : p ∈ Form.node.parts v) :
    (Path.Step.key "name").rank < p.step.rank := by
  obtain ⟨key, hkey, hstep, -⟩ := mem_keyed.mp hp
  have hkeys : ∀ k ∈ nodeKeys, (Path.Step.key "name").rank < (Path.Step.key k.1).rank := by decide
  rw [hstep]
  exact hkeys _ hkey

/-- What is wrong with a value itself comes before what is wrong with its parts. -/
theorem before_of_mem_own {form : Form} {path : Path} {v : Json} {p : Part} {f g : Fault}
    (hf : f ∈ Place.faults ⟨path, form, v⟩) (hp : p ∈ form.parts v)
    (hg : path ++ [p.step] <+: g.path) : f.path.Before g.path := by
  rcases path_of_mem_own hf with h | ⟨hform, h⟩
  · -- a place comes before everything under it
    obtain ⟨rest, hrest⟩ := hg
    rw [h, ← hrest, List.append_assoc]
    exact path.before_append (by simp)
  · -- the name of a node is read before its parts
    dsimp only at hform h
    subst hform
    exact Path.before_of_isPrefix (rank_name_lt hp) (h ▸ List.prefix_refl _) hg

theorem pairwise_own (q : Place) : q.faults.Pairwise fun f g => f.path.Before g.path := by
  obtain ⟨path, form, v⟩ := q
  unfold Place.faults
  split
  · refine List.pairwise_append.mpr ⟨?_, ?_, fun f hf g hg => ?_⟩
    · unfold tagFaults
      split <;> simp
    · unfold nameFaults
      split <;> simp
    · -- of the two checks of a node the second is one step further down
      obtain ⟨rfl, -⟩ := mem_tagFaults hf
      obtain ⟨w, -, -, -, rfl⟩ := mem_nameFaults hg
      exact Path.before_append _ (by simp)
  all_goals simp

/-- **The faults of a value are listed in the order of their paths.** -/
theorem pairwise_faults (form : Form) (path : Path) (v : Json) :
    (faults form path v).Pairwise fun f g => f.path.Before g.path := by
  rw [faults_eq, List.pairwise_append, List.pairwise_flatMap]
  refine ⟨pairwise_own _, ⟨fun p hp => ?_, ?_⟩, fun f hf g hg => ?_⟩
  · exact pairwise_faults p.form (path ++ [p.step]) p.value
  · -- faults of two parts go by the order of the parts
    refine (pairwise_parts form v).imp fun {p q} hpq f hf g hg => ?_
    exact Path.before_of_isPrefix hpq (isPrefix_of_mem_faults hf) (isPrefix_of_mem_faults hg)
  · obtain ⟨p, hp, hg⟩ := List.mem_flatMap.mp hg
    exact before_of_mem_own hf hp (isPrefix_of_mem_faults hg)
termination_by sizeOf v
decreasing_by exact sizeOf_lt_of_mem_parts hp

end Document

/-- Of a document that is not well formed, reading reports the first of all its faults, and all
others come after it in the order of places.  Whatever else is wrong with a document, its first
fault is the one that is reported. -/
theorem exists_faults_eq_cons {d : Json} (h : ¬ Document.WellFormed .node d) :
    ∃ f later, Document.faults .node [] d = f :: later ∧ Node.ofDocument d = .error f ∧
      (∀ g ∈ later, f.path.Before g.path) ∧
      ∀ e later', Document.faults .node [] e = f :: later' → Node.ofDocument e = .error f := by
  have hreport : ∀ e f later, Document.faults .node [] e = f :: later →
      Node.ofDocument e = .error f := by
    intro e f later he
    have hfirst : Document.fault? (Node.ofDocument e) = (Document.faults .node [] e).head? :=
      Document.fault?_readNode e []
    rw [he] at hfirst
    cases hread : Node.ofDocument e with
    | ok n => simp [hread, Document.fault?] at hfirst
    | error g =>
      rw [hread] at hfirst
      exact congrArg Except.error (Option.some.inj hfirst)
  rw [← Document.faults_eq_nil_iff_wellFormed .node [] d] at h
  obtain ⟨f, later, hfaults⟩ := List.exists_cons_of_ne_nil h
  have hsorted := Document.pairwise_faults .node [] d
  rw [hfaults, List.pairwise_cons] at hsorted
  refine ⟨f, later, hfaults, hreport d f later hfaults, hsorted.1, ?_⟩
  intro e later' he
  exact hreport e f later' he

/-- A union whose keys are not in the order of reading, with a number for its fields and, among its
elements, an object without a tag and with a number for its name. -/
def crowdedUnion : Json :=
  .obj
    [("fields", .int 3),
      ("elements", .arr [.obj [("type", .str "NullLiteral")], .obj [("name", .int 1)]]),
      ("expression", .null), ("type", .str "TypeUnion")]

theorem crowdedUnion.faults :
    Document.faults .node [] crowdedUnion =
      [⟨[.key "elements", .index 1], .missingType⟩,
        ⟨[.key "elements", .index 1, .key "name"], .nameNotString "int"⟩,
        ⟨[.key "fields"], .notList "int"⟩] := by
  decide +kernel

theorem exists_faults_eq_cons_crowdedUnion :
    ¬ Document.WellFormed .node crowdedUnion ∧
      Node.ofDocument crowdedUnion = .error ⟨[.key "elements", .index 1], .missingType⟩ ∧
      Path.Before [.key "elements", .index 1] [.key "fields"] := by
  have hmalformed : ¬ Document.WellFormed .node crowdedUnion := by
    rw [← Document.faults_eq_nil_iff_wellFormed .node [] crowdedUnion, crowdedUnion.faults]
    simp
  obtain ⟨f, later, hfaults, hread, hbefore, -⟩ := exists_faults_eq_cons hmalformed
  rw [crowdedUnion.faults, List.cons.injEq] at hfaults
  obtain ⟨rfl, rfl⟩ := hfaults
  exact ⟨hmalformed, hread, hbefore ⟨[.key "fields"], .notList "int"⟩ (by simp)⟩

end TypeText

import TypeText.Proofs.Positions
import TypeText.Proofs.Tokens

/-!
# The messages of a text

Showing a tree leaves a message for every node with an unknown tag that is reached.  The
messages of a part are those of the subtrees that stand in it, in the order in which the
part is made, which is the order of the text; so the messages of a node are its own and
then those of the subtrees that its kind shows.  The configuration has no influence.

## Main definitions

* `Layer.ownReports`, `Node.reports` — the message that a node leaves itself, and those
  that a tree leaves.

## Main results

* `log_signature`, `log_recordText`, `log_argumentList`, … — the messages of each part of a
  text.
* `Layer.log_body` — the messages of a node.
* `Node.log_render` — **the messages of a tree depend on the tree alone.**
* `Node.reports_eq_walk` — they are left on a walk through the text.
* `log_render_eq_walk` — so they come in the order of the positions that the text shows, and
  nothing else is reported.
-/

set_option autoImplicit false

namespace TypeText

/-! ### Parts -/

theorem log_part (o : Option (Logged String)) : (part o).log = o.toList.flatMap Logged.log := by
  cases o with
  | none => rfl
  | some text => exact (List.flatMap_singleton _ _).symm

theorem log_parts (items : List (Option (Logged String))) :
    (parts items).log = (Layer.present (some items)).flatMap Logged.log := by
  rw [parts, Logged.log_mapM]
  induction items with
  | nil => rfl
  | cons item items ih =>
    rw [List.flatMap_cons, ih, log_part, Layer.present_cons, List.flatMap_append]

theorem log_labelled (label : String) (o : Option (Logged String)) :
    (labelled label o).log = o.toList.flatMap Logged.log := by
  cases o with
  | none => rfl
  | some text => simp [labelled]

theorem log_argumentList (c : Config) (o : Option (List (Option (Logged String)))) :
    (c.argumentList o).log = (Layer.present o).flatMap Logged.log := by
  cases o with
  | none => rfl
  | some items =>
    rw [Config.argumentList, Logged.log_bind, log_parts]
    split <;> simp

theorem log_unionList (o : Option (List (Option (Logged String)))) :
    (unionList o).log = (Layer.present o).flatMap Logged.log := by
  cases o with
  | none => rfl
  | some items =>
    cases items with
    | nil => rfl
    | cons item items =>
      -- the parentheses and the bars leave no message
      have hlist : unionList (some (item :: items)) =
          parts (item :: items) >>= fun texts => pure ("(" ++ "|".intercalate texts ++ ")") := rfl
      rw [hlist, Logged.log_bind, log_parts, Logged.log_pure, List.append_nil]

theorem log_paramList (o : Option (List (Option (Logged String)))) :
    (paramList o).log = (Layer.present o).flatMap Logged.log := by
  cases o with
  | none => rfl
  | some items => rw [paramList, Logged.log_bind, log_parts, Logged.log_pure, List.append_nil]

theorem log_fieldText (f : Field (Logged String)) :
    (fieldText f).log = f.children.flatMap Logged.log := by
  rw [fieldText, Logged.log_bind, Logged.log_bind, log_part, log_labelled, Logged.log_pure,
    List.append_nil, Field.children, List.flatMap_append]

theorem log_recordText (fields : Option (List (Field (Logged String)))) :
    (recordText fields).log =
      ((fields.getD []).flatMap Field.children).flatMap Logged.log := by
  rw [recordText, Logged.log_bind, Logged.log_mapM, Logged.log_pure, List.append_nil,
    List.flatMap_assoc]
  simp only [log_fieldText]

theorem log_signature (l : Layer (Logged String)) :
    (signature l).log =
      (l.newType.toList ++ l.thisType.toList ++ Layer.present l.params ++
        l.result.toList).flatMap Logged.log := by
  simp only [signature, newTypeText, thisTypeText, resultText, Logged.log_bind, Logged.log_pure,
    log_labelled, log_paramList, List.flatMap_append, List.append_nil, List.append_assoc]

theorem log_nameAndType (c : Config) (fallback : String) (l : Layer (Logged String)) :
    (c.nameAndType fallback l).log = l.inner.toList.flatMap Logged.log := by
  simp only [Config.nameAndType, Logged.log_bind, Logged.log_pure, log_part, List.append_nil]

/-! ### Nodes -/

namespace Layer

variable {α β : Type}

/-- The message that a node leaves itself. -/
def ownReports (l : Layer α) : List Message :=
  match l.kind? with
  | some _ => []
  | none => [.unknownTag l.tag]

@[simp] theorem ownReports_map (f : α → β) (l : Layer α) : (l.map f).ownReports = l.ownReports :=
  rfl

/-- The messages of a node are its own, and then those of the subtrees that it shows. -/
theorem log_body (c : Config) (l : Layer (Logged String)) :
    (l.body c).log = l.ownReports ++ l.shown.flatMap Logged.log := by
  rw [shown_eq]
  unfold body ownReports
  cases l.kind? with
  | none =>
    -- the message is left before the parts are shown
    simp only [Logged.log_bind, Logged.log_report, log_nameAndType]
  | some kind =>
    cases kind with
    | function => exact log_signature l
    | record => exact log_recordText l.fields
    | application =>
      simp only [Logged.log_bind, Logged.log_pure, log_part, log_argumentList, List.append_nil,
        List.nil_append, List.flatMap_append]
    | union => exact log_unionList l.members
    | _ => exact log_nameAndType c _ l

end Layer

namespace Node

/-- The messages that a tree leaves when it is shown. -/
def reports : Node → List Message := fold fun l => l.ownReports ++ l.shown.flatten

theorem reports_mk (l : Layer Node) :
    reports (.mk l) = l.ownReports ++ l.shown.flatMap reports := by
  rw [reports, fold_mk, Layer.shown_map, ← List.flatMap_def]
  rfl

/-- **The messages of a tree depend on the tree alone.** -/
theorem log_render (c : Config) (n : Node) : (n.render c).log = n.reports := by
  induction n using Node.induct with
  | h l ih =>
    have hshown : l.shown.map (fun m => (m.render c).log) = l.shown.map reports :=
      List.map_congr_left fun m hm => ih m (Layer.mem_children_of_mem_shown hm)
    rw [render_mk, Layer.render, Logged.log_bind, Logged.log_pure, List.append_nil, Layer.log_body,
      Layer.shown_map, List.flatMap_map, List.flatMap_def, hshown, reports_mk, List.flatMap_def,
      Layer.ownReports_map]

end Node

/-! ### The order of messages -/

namespace Node

/-- The messages of a tree are left on a walk through its text, by the nodes with unknown tags. -/
theorem reports_eq_walk (n : Node) :
    n.reports = ((n.walk .text).filter fun q => (Kind.ofTag? q.2).isNone).map
      fun q => .unknownTag q.2 := by
  induction n using Node.induct with
  | h l ih =>
    have hown : l.ownReports = ([([], l.tag)].filter fun q : Position × Json =>
        (Kind.ofTag? q.2).isNone).map fun q => .unknownTag q.2 := by
      unfold Layer.ownReports Layer.kind?
      cases htag : Kind.ofTag? l.tag <;> simp [htag]
    have hbelow : l.shownParts.map (fun q => q.2.reports) = l.shownParts.map fun q =>
        ((q.2.walk .text).filter fun r => (Kind.ofTag? r.2).isNone).map
          fun r => .unknownTag r.2 :=
      List.map_congr_left fun q hq =>
        ih q.2 (Layer.mem_children_of_at? (Layer.mem_shownParts.mp hq).2)
    have hwalk : (Node.mk l).walk .text = [([], l.tag)] ++ l.shownParts.flatMap fun q =>
        (q.2.walk .text).map fun r => (q.1 :: r.1, r.2) := walk_mk _ l
    rw [reports_mk, hown, Layer.shown, List.flatMap_map, List.flatMap_def, hbelow, hwalk,
      List.filter_append, List.map_append, List.filter_flatMap, List.map_flatMap,
      ← List.flatMap_def]
    simp only [List.filter_map, List.map_map]
    rfl

end Node

/-- The messages left while a tree is shown are those of the nodes with unknown tags, in the order
of a walk through the text, whatever the configuration.  The walk goes by the order of positions,
and comes to a position exactly when all slots on the way to it are shown. -/
theorem log_render_eq_walk (n : Node) :
    (∀ c : Config, (n.render c).log =
        ((n.walk .text).filter fun q => (Kind.ofTag? q.2).isNone).map fun q => .unknownTag q.2) ∧
      (n.walk .text).Pairwise (fun q r => Position.Before q.1 r.1) ∧
      ∀ p tag, (p, tag) ∈ n.walk .text ↔ ∃ m, n.follow? .text p = some m ∧ m.layer.tag = tag := by
  refine ⟨fun c => ?_, n.pairwise_walk, fun p tag => Node.mem_walk⟩
  rw [n.log_render c, n.reports_eq_walk]

end TypeText

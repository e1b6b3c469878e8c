import TypeText.Proofs.Tokens

/-!
# Trees without text

Whether the text of a tree is empty decides about the colon after a name and about the
separators of a signature.  It is seen in the tree alone: a node is *blank* when no modifier
is written for it and, as its kind asks, a name is missing, a list is missing or empty, and
the subtree in its place is blank as well.  Of the configuration it only matters whether
modifiers are suppressed; links and entities make no text empty, and no empty text longer.

## Main definitions

* `Layer.isBare` — no modifier is written for a node.
* `Layer.isBlankBody`, `Layer.isBlank` — nothing is written for a node, without and with its
  modifiers, if it is known of its subtrees.
* `Node.isBlank`, `Node.isBlankOption` — the same for a tree, and for one that may be missing.

## Main results

* `Layer.isEmpty_bodyTokens`, `Layer.isEmpty_tokens` — a node has no tokens exactly if it is
  blank.
* `Node.isEmpty_tokens` — **the same for a tree.**
* `value_renderOption_eq_empty_iff` — a text is empty exactly if its tree is blank.
-/

set_option autoImplicit false

namespace TypeText

/-! ### Blank trees -/

namespace Layer

variable {α : Type}

/-- Whether no modifier is written for a node: they are suppressed, or there is none.  Of `optional`
only the value `true` itself is a modifier. -/
def isBare (suppress : Bool) (l : Layer α) : Bool :=
  suppress || (!l.repeatable.isTruthy && l.nullable == .unspecified && !l.optional.isTrue)

/-- Whether nothing is written for a node without its modifiers.  In the place of each subtree
stands whether nothing is written for it. -/
def isBlankBody (l : Layer Bool) : Bool :=
  match l.kind? with
  | some .all | some .null | some .undefined | some .unknown => false
  | some .function | some .record => false
  -- an empty list of arguments still has its brackets
  | some .application => l.base.getD true && l.arguments.isNone
  | some .union => (l.members.getD []).isEmpty
  | some .name | some .field | none => l.name.getD "" == "" && l.inner.getD true

/-- Whether nothing is written for a node. -/
def isBlank (suppress : Bool) (l : Layer Bool) : Bool := l.isBare suppress && l.isBlankBody

end Layer

namespace Node

/-- Whether nothing is written for a tree. -/
def isBlank (suppress : Bool) : Node → Bool := fold (Layer.isBlank suppress)

theorem isBlank_mk (suppress : Bool) (l : Layer Node) :
    isBlank suppress (.mk l) = (l.map (isBlank suppress)).isBlank suppress := fold_mk _ l

/-- Whether nothing is written for a tree that may be missing. -/
def isBlankOption (suppress : Bool) (n : Option Node) : Bool :=
  (n.map (isBlank suppress)).getD true

end Node

/-! ### Nodes without tokens -/

theorem isEmpty_append (ts us : List Token) :
    (ts ++ us).isEmpty = (ts.isEmpty && us.isEmpty) := by
  cases ts <;> rfl

theorem isEmpty_ofName (s : String) : (Token.ofName s).isEmpty = (s == "") := by
  unfold Token.ofName
  split <;> simp_all

/-- A name and a type after it are nothing only if both are. -/
theorem isEmpty_combineTokens (name type : List Token) :
    (combineTokens name type).isEmpty = (name.isEmpty && type.isEmpty) := by
  cases name <;> cases type <;> rfl

theorem isEmpty_getD (o : Option (List Token)) :
    (o.getD []).isEmpty = (o.map List.isEmpty).getD true := by
  cases o <;> rfl

theorem isEmpty_argumentTokens (o : Option (List (Option (List Token)))) :
    (argumentTokens o).isEmpty = o.isNone := by
  cases o <;> rfl

theorem isEmpty_unionTokens (o : Option (List (Option (List Token)))) :
    (unionTokens o).isEmpty = (o.getD []).isEmpty := by
  rcases o with _ | _ | ⟨item, items⟩ <;> rfl

namespace Layer

/-- A node without a name takes what stands for it. -/
theorem nameOr_eq_empty {α : Type} (l : Layer α) {fallback : String} :
    (l.nameOr fallback == "") = (l.name.getD "" == "" && fallback == "") := by
  unfold nameOr
  split
  · next h => simp [h]
  · next h => simp [h]

/-- The tokens of a name, or of what stands for it, and of the type after it. -/
theorem isEmpty_nameAndType (fallback : String) (l : Layer (List Token)) :
    (combineTokens (Token.ofName (l.nameOr fallback)) (l.inner.getD [])).isEmpty =
      (l.name.getD "" == "" && fallback == "" && (l.inner.map List.isEmpty).getD true) := by
  rw [isEmpty_combineTokens, isEmpty_ofName, nameOr_eq_empty, isEmpty_getD]

/-- A node has no tokens besides its modifiers exactly if it is blank without them. -/
theorem isEmpty_bodyTokens (l : Layer (List Token)) :
    l.bodyTokens.isEmpty = (l.map List.isEmpty).isBlankBody := by
  unfold bodyTokens isBlankBody
  rw [kind?_map]
  cases l.kind? with
  | none => exact (l.isEmpty_nameAndType "").trans (by simp [map])
  | some kind =>
    cases kind with
    -- parentheses and braces are always there
    | function => rfl
    | record => rfl
    | application =>
      dsimp only
      rw [isEmpty_append, isEmpty_getD, isEmpty_argumentTokens]
      simp [map]
    | union =>
      dsimp only
      rw [isEmpty_unionTokens]
      cases h : l.members <;> simp [map, h]
    | name => exact (l.isEmpty_nameAndType "").trans (by simp [map])
    | field => exact (l.isEmpty_nameAndType "").trans (by simp [map])
    -- a literal is never empty
    | _ => exact (l.isEmpty_nameAndType _).trans (by simp [Kind.literal])

theorem isEmpty_marks {α : Type} (l : Layer α) :
    (l.marksBefore.isEmpty && l.marksAfter.isEmpty) = l.isBare false := by
  unfold marksBefore marksAfter isBare
  cases l.repeatable.isTruthy <;> cases l.nullable <;> cases l.optional.isTrue <;> rfl

/-- A node has no tokens exactly if it is blank. -/
theorem isEmpty_tokens (suppress : Bool) (l : Layer (List Token)) :
    (l.tokens suppress).isEmpty = (l.map List.isEmpty).isBlank suppress := by
  rw [isBlank, ← isEmpty_bodyTokens]
  cases suppress with
  | true => rfl
  | false =>
    -- shown modifiers are empty only if there are none
    have hmarks : (l.marksBefore.isEmpty && l.marksAfter.isEmpty) =
        (l.map List.isEmpty).isBare false := l.isEmpty_marks
    rw [← hmarks, tokens, if_neg Bool.false_ne_true, isEmpty_append, isEmpty_append,
      List.isEmpty_map, List.isEmpty_map, Bool.and_right_comm]

end Layer

/-! ### Trees without text -/

namespace Node

/-- **A tree has no tokens exactly if it is blank.** -/
theorem isEmpty_tokens (suppress : Bool) (n : Node) :
    (n.tokens suppress).isEmpty = n.isBlank suppress := by
  induction n using Node.induct with
  | h l ih =>
    rw [tokens_mk, isBlank_mk, Layer.isEmpty_tokens, Layer.map_map]
    exact congrArg (Layer.isBlank suppress) (Layer.map_congr ih)

end Node

/-- A text is empty exactly if its tree is missing or blank.  The link table, the class of links and
the choice of entities have no part in this, whatever they are. -/
theorem value_renderOption_eq_empty_iff (c : Config) (n : Option Node) :
    (Node.renderOption c n).value = "" ↔ Node.isBlankOption c.suppressModifiers.isTruthy n := by
  cases n with
  | none => exact ⟨fun _ => rfl, fun _ => rfl⟩
  | some n =>
    change (n.render c).value = "" ↔ n.isBlank c.suppressModifiers.isTruthy = true
    rw [n.value_render, c.writeAll_eq_empty_iff, ← n.isEmpty_tokens, List.isEmpty_iff]

end TypeText

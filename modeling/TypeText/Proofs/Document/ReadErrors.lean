import TypeText.Document.Text
import TypeText.Proofs.Json.Acceptance

/-!
# The errors of reading a text

A text is read in two stages.  Where its JSON does not fit, or does not describe a tree, the error
says that the text cannot be read; both stages have errors of that sort.  The one failure of another
sort is an integer that is too long.  It counts wherever reading gets to it: in a place where any
integer would be a fault, under a key that no tree has, and in front of what does not fit.

## Main definitions

* `ones n` — an integer with `n` digits.

## Main results

* `ofText_of_parse_ok`, `ofText_of_parse_error` — the two stages.
* `ofText_cases` — what comes of a text, by the grammar.
* `ofText_fails_as_unreadable_iff` — **reading a text gives a tree or an error of its own sort,
  unless it stops at an integer with too many digits.**
* `ofText_ones_fails_otherwise` — there are texts where it does.
-/

set_option autoImplicit false

namespace TypeText

open Json

/-! ### The two stages -/

theorem ofText_of_parse_ok {text : String} {v : Json} (h : parse text = .ok v) :
    Node.ofText text = (Node.ofDocument v).mapError Error.fault := by
  rw [Node.ofText, h]
  rfl

theorem ofText_of_parse_error {text : String} {e : ReadError} (h : parse text = .error e) :
    Node.ofText text = .error (Error.ofReadError e) := by
  rw [Node.ofText, h]
  rfl

/-- A document gives a tree, or an error of its own sort. -/
theorem ofText_of_valueText {text : String} (h : ValueText text.toList) :
    (∃ n, Node.ofText text = .ok n) ∨ ∃ f, Node.ofText text = .error (.fault f) := by
  obtain ⟨v, hv⟩ := (exists_parse_eq_ok_iff text).mpr h
  rw [ofText_of_parse_ok hv]
  rcases Node.ofDocument v with f | n
  · exact .inr ⟨f, rfl⟩
  · exact .inl ⟨n, rfl⟩

/-! ### Errors of the first stage -/

theorem exists_ofText_eq_malformed {text : String} (hvalue : ¬ ValueText text.toList)
    (hstops : ∀ n, ¬ StopsAt n text.toList) :
    ∃ cause, Node.ofText text = .error (.malformed cause) := by
  rcases hparse : parse text with (cause | n) | v
  · exact ⟨cause, ofText_of_parse_error hparse⟩
  · exact absurd ((parse_eq_integerTooLong_iff text n).mp hparse) (hstops n)
  · exact absurd ((exists_parse_eq_ok_iff text).mp ⟨v, hparse⟩) hvalue

theorem ofText_of_stopsAt {text : String} {n : Nat} (h : StopsAt n text.toList) :
    Node.ofText text = .error (.integerTooLong n) :=
  ofText_of_parse_error ((parse_eq_integerTooLong_iff text n).mpr h)

/-! ### Every text -/

/-- What comes of a text: a tree or a document at fault, something that does not fit, or an integer
that is too long. -/
theorem ofText_cases (text : String) :
    ((∀ n, ¬ StopsAt n text.toList) ∧ ValueText text.toList ∧
        ((∃ t, Node.ofText text = .ok t) ∨ ∃ f, Node.ofText text = .error (.fault f))) ∨
      ((∀ n, ¬ StopsAt n text.toList) ∧ ¬ ValueText text.toList ∧
        ∃ cause, Node.ofText text = .error (.malformed cause)) ∨
      ∃ n, StopsAt n text.toList ∧ Node.ofText text = .error (.integerTooLong n) := by
  -- reading that stops comes first: no value is read then, whatever follows
  by_cases hstops : ∃ n, StopsAt n text.toList
  · obtain ⟨n, hn⟩ := hstops
    exact .inr (.inr ⟨n, hn, ofText_of_stopsAt hn⟩)
  · have hnone : ∀ n, ¬ StopsAt n text.toList := fun n hn => hstops ⟨n, hn⟩
    by_cases hvalue : ValueText text.toList
    · exact .inl ⟨hnone, hvalue, ofText_of_valueText hvalue⟩
    · exact .inr (.inl ⟨hnone, hvalue, exists_ofText_eq_malformed hvalue hnone⟩)

/-- **Reading a text gives a tree or an error of its own sort, unless it stops at an integer with
too many digits.**  Then that is the error.  Of the other texts, those that are no text of a value
are the ones that do not fit. -/
theorem ofText_fails_as_unreadable_iff (text : String) :
    (((∃ t, Node.ofText text = .ok t) ∨
        ∃ e, Node.ofText text = .error e ∧ e.category = .serialization) ↔
      ∀ n, ¬ StopsAt n text.toList) ∧
    (∀ n, Node.ofText text = .error (.integerTooLong n) ↔ StopsAt n text.toList) ∧
    ((∃ cause, Node.ofText text = .error (.malformed cause)) ↔
      ¬ ValueText text.toList ∧ ∀ n, ¬ StopsAt n text.toList) := by
  refine ⟨⟨?_, ?_⟩, fun n => ⟨?_, ofText_of_stopsAt⟩, ?_, ?_⟩
  · -- an integer that is too long is an error of another sort
    intro h n hn
    rw [ofText_of_stopsAt hn] at h
    obtain ⟨t, ht⟩ | ⟨e, he, hcategory⟩ := h
    · cases ht
    · cases he
      contradiction
  · intro hnone
    obtain ⟨-, -, h | ⟨f, hf⟩⟩ | ⟨-, -, cause, hcause⟩ | ⟨n, hn, -⟩ := ofText_cases text
    · exact .inl h
    · exact .inr ⟨_, hf, rfl⟩
    · exact .inr ⟨_, hcause, rfl⟩
    · exact absurd hn (hnone n)
  · -- the other outcomes are not this error, and it tells the number of digits
    intro h
    obtain ⟨-, -, ⟨t, ht⟩ | ⟨f, hf⟩⟩ | ⟨-, -, cause, hcause⟩ | ⟨m, hm, hlong⟩ := ofText_cases text
    · cases ht.symm.trans h
    · cases hf.symm.trans h
    · cases hcause.symm.trans h
    · cases hlong.symm.trans h
      exact hm
  · rintro ⟨cause, h⟩
    obtain ⟨-, -, ⟨t, ht⟩ | ⟨f, hf⟩⟩ | ⟨hnone, hvalue, -⟩ | ⟨m, -, hlong⟩ := ofText_cases text
    · cases ht.symm.trans h
    · cases hf.symm.trans h
    · exact ⟨hvalue, hnone⟩
    · cases hlong.symm.trans h
  · rintro ⟨hvalue, hnone⟩
    exact exists_ofText_eq_malformed hvalue hnone

/-- The integer whose digits are `n` ones. -/
def ones (n : Nat) : String := String.ofList (List.replicate n '1')

theorem stopsAt_ones {n : Nat} (h : digitLimit < n) : StopsAt n (ones n).toList := by
  have hne : List.replicate n '1' ≠ [] := by
    rw [Ne, List.replicate_eq_nil_iff]
    exact Nat.ne_zero_of_lt h
  have hdigits : ∀ c ∈ List.replicate n '1', c.isDigit := by
    intro c hc
    obtain rfl := List.eq_of_mem_replicate hc
    rfl
  have hwhole : WholeText (List.replicate n '1') := by
    refine ⟨⟨hne, hdigits⟩, fun hzero => ?_⟩
    have hmem := List.mem_of_mem_head? hzero
    exact absurd (List.eq_of_mem_replicate hmem) (by decide)
  have hlong : LongInteger n (List.replicate n '1') :=
    ⟨[], _, .inl rfl, hwhole, List.length_replicate, h, rfl⟩
  rw [ones, String.toList_ofList, ← List.append_nil (List.replicate n '1')]
  refine .integer hlong ?_
  -- nothing is left that could continue the number
  rintro ⟨t, rest, ⟨hne, -⟩ | ⟨ds, -, rfl⟩ | ⟨mark, sg, ds, -, -, -, rfl⟩, hnil⟩
  · exact hne (List.append_eq_nil_iff.mp hnil.symm).1
  · cases hnil
  · cases hnil

/-- One digit more than the limit is an error of another sort. -/
theorem ofText_ones_fails_otherwise :
    ∃ e, Node.ofText (ones 4301) = .error e ∧ e.category ≠ .serialization := by
  have hlimit : digitLimit < 4301 := Nat.lt_succ_self digitLimit
  exact ⟨.integerTooLong 4301, ofText_of_stopsAt (stopsAt_ones hlimit), by decide⟩

end TypeText

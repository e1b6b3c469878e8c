/-!
# Hexadecimal digits of a fixed width

Escapes write a code point with as many lowercase hexadecimal digits as the form
of the escape asks for.

* `hexDigits width n` — the last `width` digits of `n`.
-/

set_option autoImplicit false

namespace TypeText

/-- The last `width` hexadecimal digits of `n`, the most significant first. -/
def hexDigits : Nat → Nat → List Char
  | 0, _ => []
  | width + 1, n => hexDigits width (n / 16) ++ [(n % 16).digitChar]

@[simp] theorem hexDigits_zero (n : Nat) : hexDigits 0 n = [] := rfl

theorem hexDigits_succ (width n : Nat) :
    hexDigits (width + 1) n = hexDigits width (n / 16) ++ [(n % 16).digitChar] := rfl

/-- There are exactly as many digits as asked for. -/
@[simp] theorem length_hexDigits (width n : Nat) : (hexDigits width n).length = width := by
  induction width generalizing n with
  | zero => rfl
  | succ width ih => simp [hexDigits_succ, ih]

end TypeText

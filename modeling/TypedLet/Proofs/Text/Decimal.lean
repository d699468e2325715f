import Mathlib.Algebra.Group.Nat.Defs
import TypedLet.Text.Decimal

namespace TypedLet.Text

variable {digits : List Char}

theorem numeralValue_lt (h : ∀ c ∈ digits, c.isDigit) :
    numeralValue digits < 10 ^ digits.length := by
  induction digits with
  | nil => decide
  | cons c cs ih =>
    have hc := Char.isDigit_iff_toNat.mp (h c List.mem_cons_self)
    have hcs : numeralValue cs < 10 ^ cs.length := ih fun d hd ↦ h d (List.mem_cons_of_mem c hd)
    have hv : numeralValue (c :: cs) = 10 ^ cs.length * (c.toNat - '0'.toNat) + numeralValue cs := by
      rw [numeralValue, Nat.ofDigitChars_cons, Nat.ofDigitChars_eq_ofDigitChars_zero, Nat.mul_zero,
        Nat.zero_add]
      rfl
    have hd : c.toNat - '0'.toNat ≤ 9 := Nat.sub_le_iff_le_add.mpr hc.2
    calc numeralValue (c :: cs)
        < 10 ^ cs.length * (c.toNat - '0'.toNat) + 10 ^ cs.length := by omega
      _ ≤ 10 ^ cs.length * 9 + 10 ^ cs.length := Nat.add_le_add_right (Nat.mul_le_mul_left _ hd) _
      _ = 10 ^ (c :: cs).length := by rw [List.length_cons, Nat.pow_succ]; omega

/-- The numeral of a number is no longer than any other that has its value. -/
theorem length_toDigits_numeralValue_le (hne : digits ≠ [])
    (h : ∀ c ∈ digits, c.isDigit) :
    (Nat.toDigits 10 (numeralValue digits)).length ≤ digits.length :=
  (Nat.length_toDigits_le_iff (by decide) (List.length_pos_iff.mpr hne)).mpr (numeralValue_lt h)

end TypedLet.Text

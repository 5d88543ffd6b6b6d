/-
  Icarius.Lib.Numeral

  Positional notation, the most significant digit first.  `Numeral base digits n` says what
  a numeral of `n` is, `numeral base n` is the one there is for every base from 2 on, and
  Horner's rule reads it back.
-/

import Mathlib.Data.Nat.Digits.Lemmas

namespace Icarius.Lib

/-- The digits are those of `n`: all of them below the base, and no zero in front of
    others. -/
structure Numeral (base : Nat) (digits : List Nat) (n : Nat) : Prop where
  ne_nil : digits ≠ []
  lt_base : ∀ d ∈ digits, d < base
  lead : digits.head? = some 0 → digits = [0]
  value : Nat.ofDigits base digits.reverse = n

/-- The digits of a number; zero has one. -/
def numeral (base n : Nat) : List Nat := if n = 0 then [0] else (Nat.digits base n).reverse

variable {base n : Nat}

theorem numeral_of_ne_zero (h : n ≠ 0) : numeral base n = (Nat.digits base n).reverse := if_neg h

theorem numeral_spec (hbase : 2 ≤ base) (n : Nat) : Numeral base (numeral base n) n := by
  by_cases hzero : n = 0
  · subst hzero
    refine ⟨List.cons_ne_nil _ _, fun d hd => ?_, fun _ => rfl, rfl⟩
    rw [List.mem_singleton.mp hd]
    omega
  · rw [numeral_of_ne_zero hzero]
    have hne : Nat.digits base n ≠ [] := Nat.digits_ne_nil_iff_ne_zero.mpr hzero
    refine ⟨fun hnil => hne (List.reverse_eq_nil_iff.mp hnil), fun d hd => ?_, fun hlead => ?_, ?_⟩
    · exact Nat.digits_lt_base hbase (List.mem_reverse.mp hd)
    · -- the first digit is the last one that the division leaves
      rw [List.head?_reverse, List.getLast?_eq_some_getLast hne] at hlead
      exact absurd (Option.some.inj hlead) (Nat.getLast_digit_ne_zero base hzero)
    · rw [List.reverse_reverse, Nat.ofDigits_digits]

/-- A division by two or more takes a bit off. -/
theorem div_lt_two_pow (hbase : 2 ≤ base) {k : Nat} (hn : n < 2 ^ (k + 1)) : n / base < 2 ^ k := by
  have hle : 2 ^ (k + 1) ≤ base * 2 ^ k := by
    rw [Nat.pow_succ, Nat.mul_comm]
    exact Nat.mul_le_mul_right _ hbase
  exact Nat.div_lt_of_lt_mul (Nat.lt_of_lt_of_le hn hle)

/-- A number of `k` bits has `k` digits at most. -/
theorem length_numeral_le_iff (hbase : 2 ≤ base) {k : Nat} (hk : 0 < k) :
    (numeral base n).length ≤ k ↔ n < base ^ k := by
  by_cases hzero : n = 0
  · rw [hzero]
    exact iff_of_true hk (Nat.pow_pos (by omega))
  · rw [numeral_of_ne_zero hzero, List.length_reverse, Nat.digits_length_le_iff hbase]

theorem length_numeral_le (hbase : 2 ≤ base) {k : Nat} (hk : 0 < k) (hn : n < 2 ^ k) :
    (numeral base n).length ≤ k :=
  (length_numeral_le_iff hbase hk).mpr (Nat.lt_of_lt_of_le hn (Nat.pow_le_pow_left hbase k))

/-- Horner's rule -/
theorem foldl_horner (base acc : Nat) (digits : List Nat) :
    digits.foldl (fun r d => r * base + d) acc
      = acc * base ^ digits.length + Nat.ofDigits base digits.reverse := by
  induction digits generalizing acc with
  | nil => simp
  | cons d digits ih =>
      rw [List.foldl_cons, ih, List.reverse_cons, Nat.ofDigits_append, Nat.ofDigits_singleton,
        List.length_reverse, List.length_cons, pow_succ]
      ring

end Icarius.Lib

import Mathlib.Algebra.Order.Field.Rat
import Mathlib.Algebra.Order.Field.Power
import Mathlib.Tactic.FieldSimp
import Mathlib.Tactic.Positivity

/-! Binades of dyadic rationals, the exact values of finite binary floating-point numbers. The
binade of a number is the power of two at or below it in size, with its sign: the number is
its binade times a significand from 1 up to 2, so a number is its own binade exactly if it is
zero or a power of two up to its sign. -/

namespace Binade

open Dyadic (toRat_inj toRat_ofOdd_eq_mul_two_pow)

theorem sign_emod_two {n : ℤ} (hn : n % 2 = 1) : n.sign % 2 = 1 := by
  rcases Int.lt_trichotomy n 0 with h | h | h
  · rw [Int.sign_eq_neg_one_of_neg h]
    rfl
  · omega
  · rw [Int.sign_eq_one_of_pos h]
    rfl

/-- The number with the same sign and exponent and the significand 1; zero for zero. -/
def binade : Dyadic → Dyadic
  | .zero => .zero
  | .ofOdd n k hn => .ofOdd n.sign (k - n.natAbs.log2) (sign_emod_two hn)

/-- A number is its binade times its significand. -/
theorem exists_significand {x : Dyadic} (hx : x ≠ 0) :
    ∃ c : ℚ, 1 ≤ c ∧ c < 2 ∧ x.toRat = c * (binade x).toRat := by
  cases x with
  | zero => exact absurd rfl hx
  | ofOdd n k hn =>
    have hn0 : n.natAbs ≠ 0 := by omega
    have hle := Nat.log2_self_le hn0
    have hlt := Nat.lt_log2_self (n := n.natAbs)
    have hpos : (0 : ℚ) < 2 ^ n.natAbs.log2 := by positivity
    refine ⟨n.natAbs / 2 ^ n.natAbs.log2, ?_, ?_, ?_⟩
    · rw [le_div_iff₀ hpos, one_mul]
      exact_mod_cast hle
    · rw [div_lt_iff₀ hpos, ← pow_succ']
      exact_mod_cast hlt
    · have hsign : (n : ℚ) = n.sign * n.natAbs := by
        rw [← Int.cast_natCast n.natAbs, ← Int.cast_mul, Int.sign_mul_natAbs]
      rw [binade, toRat_ofOdd_eq_mul_two_pow, toRat_ofOdd_eq_mul_two_pow, neg_sub,
        zpow_sub₀ two_ne_zero, zpow_neg, zpow_natCast, div_mul_eq_mul_div, mul_div_assoc']
      rw [hsign]
      field_simp

/-- Zero, or a power of two up to its sign. -/
def IsPowerOfTwo (x : Dyadic) : Prop :=
  x = 0 ∨ ∃ j : ℤ, x.toRat = 2 ^ j ∨ x.toRat = -2 ^ j

theorem eq_ofOdd_one {x : Dyadic} {j : ℤ} (h : x.toRat = 2 ^ j) : x = .ofOdd 1 (-j) rfl := by
  rw [← toRat_inj, toRat_ofOdd_eq_mul_two_pow, h]
  simp

theorem eq_ofOdd_neg_one {x : Dyadic} {j : ℤ} (h : x.toRat = -2 ^ j) :
    x = .ofOdd (-1) (-j) rfl := by
  rw [← toRat_inj, toRat_ofOdd_eq_mul_two_pow, h]
  simp

theorem binade_eq_self_iff {x : Dyadic} : binade x = x ↔ IsPowerOfTwo x := by
  constructor
  · intro h
    cases x with
    | zero => exact Or.inl rfl
    | ofOdd n k hn =>
      have hsign : n.sign = n := (Dyadic.ofOdd.inj h).1
      right
      refine ⟨-k, ?_⟩
      rw [toRat_ofOdd_eq_mul_two_pow]
      rcases Int.lt_trichotomy n 0 with hneg | h0 | hpos
      · rw [Int.sign_eq_neg_one_of_neg hneg] at hsign
        right
        simp [← hsign]
      · omega
      · rw [Int.sign_eq_one_of_pos hpos] at hsign
        left
        simp [← hsign]
  · rintro (rfl | ⟨j, h | h⟩)
    · rfl
    · rw [eq_ofOdd_one h]
      simp [binade, Nat.log2_def]
    · rw [eq_ofOdd_neg_one h]
      simp [binade, Nat.log2_def]

/-- A binade is its own binade. -/
theorem binade_binade (x : Dyadic) : binade (binade x) = binade x := by
  cases x with
  | zero => rfl
  | ofOdd n k hn =>
    have hsign : n.sign.natAbs = 1 := Int.natAbs_sign_of_ne_zero (by omega)
    have hlog : Nat.log2 1 = 0 := by decide
    simp only [binade, hsign, hlog, Int.sign_sign, Nat.cast_zero, sub_zero]

end Binade

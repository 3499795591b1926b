import Mathlib.Tactic

/-!
# Bit masks as arithmetic

Masks, single bits and disjoint unions of bits of natural numbers, rewritten to division
and remainder.

## Main definitions

- `and_mask` — the bits from `b` to `a - 1` of a number
- `or_eq_add` — bits put below an aligned number are added to it
- `and_bit` — a single bit
-/

namespace SysLib

/-- The bits from `b` to `a - 1`. -/
theorem and_mask (x : ℕ) {a b : ℕ} (h : b ≤ a) :
    x &&& (2 ^ a - 2 ^ b) = x % 2 ^ a / 2 ^ b * 2 ^ b := by
  have hmask : 2 ^ a - 2 ^ b = (2 ^ (a - b) - 1) <<< b := by
    rw [Nat.shiftLeft_eq, Nat.sub_mul, ← pow_add, Nat.sub_add_cancel h, one_mul]
  have hdiv : x % 2 ^ a / 2 ^ b * 2 ^ b = (x % 2 ^ a) >>> b <<< b := by
    rw [Nat.shiftLeft_eq, Nat.shiftRight_eq_div_pow]
  rw [hmask, hdiv]
  apply Nat.eq_of_testBit_eq
  intro i
  rw [Nat.testBit_and, Nat.testBit_shiftLeft, Nat.testBit_shiftLeft, Nat.testBit_shiftRight,
    Nat.testBit_two_pow_sub_one]
  by_cases hb : b ≤ i
  · rw [Nat.add_sub_cancel' hb, Nat.testBit_mod_two_pow]
    by_cases ha : i < a
    · have hlt : i - b < a - b := by omega
      simp [hb, ha, hlt]
    · have hlt : ¬ i - b < a - b := by omega
      simp [ha, hlt]
  · simp [hb]

/-- Bits below an aligned number. -/
theorem or_eq_add {x y k : ℕ} (hx : x % 2 ^ k = 0) (hy : y < 2 ^ k) : x ||| y = x + y := by
  obtain ⟨q, rfl⟩ := Nat.dvd_of_mod_eq_zero hx
  exact (Nat.two_pow_add_eq_or_of_lt hy q).symm

/-- A single bit. -/
theorem and_bit (x k : ℕ) : x &&& 2 ^ k = x / 2 ^ k % 2 * 2 ^ k := by
  have hmask := and_mask x (Nat.le_succ k)
  have hpow : 2 ^ (k + 1) - 2 ^ k = 2 ^ k := by
    rw [pow_succ]
    omega
  rw [hpow, pow_succ, Nat.mod_mul_right_div_self] at hmask
  exact hmask

end SysLib

import Mathlib.Tactic

/-!
# Consecutive periods

A line cut into periods, period `i` of length `len i`. A point of the line is a number of
whole periods and a rest, which is shorter than the period it lies in.

## Main definitions

- `elapsed` — the length of `n` periods from period `i` on
- `locate` — the loop that subtracts whole periods

## Main results

- `exists_elapsed_add` — every point lies in a period
- `elapsed_add_lt` — points of an earlier period come first
- `locate_elapsed_add` — the loop finds the period of a point
-/

namespace SysLib

variable {len : ℕ → ℕ}

/-- The length of the `n` periods from `i` on. -/
def elapsed (len : ℕ → ℕ) (i n : ℕ) : ℕ := ∑ j ∈ Finset.range n, len (i + j)

/-- Subtract whole periods from `d`, at most `fuel` of them, beginning with period `i`. -/
def locate (len : ℕ → ℕ) : ℕ → ℕ → ℕ → ℕ × ℕ
  | 0, i, d => (i, d)
  | fuel + 1, i, d => if len i ≤ d then locate len fuel (i + 1) (d - len i) else (i, d)

@[simp] theorem elapsed_zero (len : ℕ → ℕ) (i : ℕ) : elapsed len i 0 = 0 := rfl

theorem elapsed_succ (len : ℕ → ℕ) (i n : ℕ) :
    elapsed len i (n + 1) = elapsed len i n + len (i + n) :=
  Finset.sum_range_succ _ n

theorem elapsed_succ' (len : ℕ → ℕ) (i n : ℕ) :
    elapsed len i (n + 1) = len i + elapsed len (i + 1) n := by
  rw [elapsed, elapsed, Finset.sum_range_succ', add_comm, add_zero]
  simp only [Nat.add_assoc, Nat.add_comm 1]

theorem elapsed_mono (len : ℕ → ℕ) (i : ℕ) {n m : ℕ} (h : n ≤ m) :
    elapsed len i n ≤ elapsed len i m :=
  Finset.sum_le_sum_of_subset (Finset.range_mono h)

theorem mul_le_elapsed {a : ℕ} (h : ∀ j, a ≤ len j) (i n : ℕ) : a * n ≤ elapsed len i n := by
  induction n with
  | zero => simp
  | succ n ih =>
    have hlast := h (i + n)
    rw [elapsed_succ, Nat.mul_succ]
    omega

theorem elapsed_le_mul {b : ℕ} (h : ∀ j, len j ≤ b) (i n : ℕ) : elapsed len i n ≤ b * n := by
  induction n with
  | zero => simp
  | succ n ih =>
    have hlast := h (i + n)
    rw [elapsed_succ, Nat.mul_succ]
    omega

/-- Every point before the end of `n` periods lies in one of them. -/
theorem exists_elapsed_add {i n d : ℕ} (h : d < elapsed len i n) :
    ∃ k r, k < n ∧ r < len (i + k) ∧ d = elapsed len i k + r := by
  induction n with
  | zero => simp at h
  | succ n ih =>
    rw [elapsed_succ] at h
    by_cases hd : d < elapsed len i n
    · obtain ⟨k, r, hk, hr, heq⟩ := ih hd
      exact ⟨k, r, by omega, hr, heq⟩
    · exact ⟨n, d - elapsed len i n, by omega, by omega, by omega⟩

/-- A point of an earlier period comes before every point of a later one. -/
theorem elapsed_add_lt {i k k' r : ℕ} (hr : r < len (i + k)) (hk : k < k') (r' : ℕ) :
    elapsed len i k + r < elapsed len i k' + r' := by
  have hnext := elapsed_mono len i (show k + 1 ≤ k' from hk)
  rw [elapsed_succ] at hnext
  omega

/-- The loop gives the period of a point and the rest. -/
theorem locate_elapsed_add {i k r fuel : ℕ} (hr : r < len (i + k)) (hfuel : k ≤ fuel) :
    locate len fuel i (elapsed len i k + r) = (i + k, r) := by
  induction k generalizing i fuel with
  | zero =>
    rw [elapsed_zero, Nat.zero_add, Nat.add_zero]
    cases fuel with
    | zero => rfl
    | succ fuel => exact if_neg (Nat.not_le.mpr hr)
  | succ k ih =>
    obtain ⟨fuel, rfl⟩ : ∃ n, fuel = n + 1 := Nat.exists_eq_add_one.mpr (by omega)
    have hrest : len i + elapsed len (i + 1) k + r - len i = elapsed len (i + 1) k + r := by omega
    rw [elapsed_succ', locate, if_pos (by omega), hrest,
      ih (by rwa [Nat.add_assoc, Nat.add_comm 1]) (by omega), Nat.add_assoc, Nat.add_comm 1]

/-- Adding up the lengths with wrap-around. -/
theorem foldl_elapsed (len : ℕ → ℕ) {m : ℕ} (i n : ℕ) :
    (List.range' i n).foldl (fun s j => (s + len j) % m) 0 = elapsed len i n % m := by
  induction n with
  | zero => simp
  | succ n ih =>
    rw [List.range'_1_concat, List.foldl_append, ih, elapsed_succ]
    simp [Nat.add_mod]

end SysLib

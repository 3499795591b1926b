import Mathlib.Data.Nat.Count

/-!
# Loops that look for a place to stop

A loop that looks at the numbers from some number on and stops at the first one with a property, and
what it finds with enough passes.

## Main definitions

- `firstStop` — the loop

## Main results

- `firstStop_eq_some_iff` — what it finds
- `firstStop_ends_iff` — when it ends
- `exists_stop_of_count_lt`, `count_succ_firstStop` — the places in front of what it finds
-/

namespace SysLib

variable {stop : ℕ → Prop} [DecidablePred stop] {fuel i m n : ℕ}

/-- The first number from `n` on that the loop stops at, among the next `fuel` ones. -/
def firstStop (stop : ℕ → Prop) [DecidablePred stop] : ℕ → ℕ → Option ℕ
  | 0, _ => none
  | fuel + 1, n => if stop n then some n else firstStop stop fuel (n + 1)

theorem firstStop_eq_some_iff : firstStop stop fuel n = some m ↔
    n ≤ m ∧ m < n + fuel ∧ stop m ∧ ∀ j, n ≤ j → j < m → ¬ stop j := by
  induction fuel generalizing n with
  | zero =>
    refine iff_of_false nofun ?_
    rintro ⟨h1, h2, -⟩
    omega
  | succ fuel ih =>
    rw [firstStop]
    split_ifs with hstop
    · rw [Option.some.injEq]
      constructor
      · rintro rfl
        exact ⟨le_rfl, by omega, hstop, fun j h1 h2 => by omega⟩
      · rintro ⟨hle, -, -, hnot⟩
        by_contra hne
        exact hnot n le_rfl (by omega) hstop
    · rw [ih]
      constructor
      · rintro ⟨h1, h2, hm, hnot⟩
        refine ⟨by omega, by omega, hm, fun j hj hjm => ?_⟩
        by_cases heq : j = n
        · exact heq ▸ hstop
        · exact hnot j (by omega) hjm
      · rintro ⟨h1, h2, hm, hnot⟩
        have hne : n ≠ m := fun heq => hstop (heq ▸ hm)
        exact ⟨by omega, by omega, hm, fun j hj hjm => hnot j (by omega) hjm⟩

/-- With enough passes the loop gets to a place where it stops. -/
theorem firstStop_of_stop (hm : stop m) (hle : n ≤ m) (hfuel : m < n + fuel) :
    ∃ k, firstStop stop fuel n = some k ∧ k ≤ m := by
  induction fuel generalizing n with
  | zero => omega
  | succ fuel ih =>
    rw [firstStop]
    split_ifs with hstop
    · exact ⟨n, rfl, hle⟩
    · have hne : n ≠ m := fun heq => hstop (heq ▸ hm)
      exact ih (by omega) (by omega)

/-- **The loop ends** if and only if there is a place where it stops. -/
theorem firstStop_ends_iff :
    (∃ fuel k, firstStop stop fuel n = some k) ↔ ∃ m, n ≤ m ∧ stop m := by
  constructor
  · rintro ⟨fuel, k, hk⟩
    obtain ⟨hle, -, hstop, -⟩ := firstStop_eq_some_iff.mp hk
    exact ⟨k, hle, hstop⟩
  · rintro ⟨m, hle, hm⟩
    obtain ⟨k, hk, -⟩ := firstStop_of_stop hm hle (show m < n + (m + 1) by omega)
    exact ⟨m + 1, k, hk⟩

/-- More passes find the same. -/
theorem firstStop_mono (h : firstStop stop fuel n = some m) {fuel' : ℕ} (hle : fuel ≤ fuel') :
    firstStop stop fuel' n = some m := by
  rw [firstStop_eq_some_iff] at h ⊢
  exact ⟨h.1, by omega, h.2.2⟩

theorem count_eq_of_not_stop (hle : n ≤ m) (h : ∀ j, n ≤ j → j < m → ¬ stop j) :
    Nat.count stop m = Nat.count stop n := by
  induction m with
  | zero => rw [Nat.le_zero.mp hle]
  | succ m ih =>
    obtain heq | hlt := Nat.eq_or_lt_of_le hle
    · rw [heq]
    · rw [Nat.count_succ, if_neg (h m (by omega) (by omega)), Nat.add_zero]
      exact ih (by omega) fun j h1 h2 => h j h1 (by omega)

/-- Between two numbers with different counts there is a place to stop. -/
theorem exists_stop_of_count_lt (h : Nat.count stop n < Nat.count stop m) :
    ∃ j, n ≤ j ∧ j < m ∧ stop j := by
  by_contra hnone
  push Not at hnone
  have hle : n ≤ m := by
    by_contra hlt
    have hmono := Nat.count_monotone stop (show m ≤ n by omega)
    omega
  rw [count_eq_of_not_stop hle hnone] at h
  omega

/-- What the loop finds is the next place. -/
theorem count_succ_firstStop (h : firstStop stop fuel n = some m) :
    Nat.count stop (m + 1) = Nat.count stop n + 1 := by
  obtain ⟨hle, -, hstop, hnot⟩ := firstStop_eq_some_iff.mp h
  rw [Nat.count_succ, if_pos hstop, count_eq_of_not_stop hle hnot]

end SysLib

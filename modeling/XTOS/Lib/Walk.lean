import Mathlib.Tactic

/-!
# Walks over memory

A loop that touches one item of memory after the other until it stops. This file relates
the addresses of such a walk to a bound.

## Main definitions

- `walk` — the addresses of the items up to the first one that stops the walk
- `items` — items of equal width, in a space of addresses that wraps around
- `StaysBelow` — the walk ends in front of a bound
-/

namespace SysLib

/-- The addresses of at most `n` items from item `i` on: item `j + 1` is touched when `j` was
    and did not stop the walk. -/
def walk {α : Type*} (touch : ℕ → List α) (go : ℕ → Bool) : ℕ → ℕ → List α
  | 0, _ => []
  | n + 1, i => touch i ++ if go i then walk touch go n (i + 1) else []

theorem mem_walk {α : Type*} {touch : ℕ → List α} {go : ℕ → Bool} {n i : ℕ} {a : α} :
    a ∈ walk touch go n i ↔ ∃ j < n, (∀ k < j, go (i + k) = true) ∧ a ∈ touch (i + j) := by
  induction n generalizing i with
  | zero => simp [walk]
  | succ n ih =>
    rw [walk, List.mem_append]
    constructor
    · rintro (h | h)
      · exact ⟨0, by omega, by simp, h⟩
      · split_ifs at h with hgo
        · obtain ⟨j, hj, hall, ha⟩ := ih.mp h
          refine ⟨j + 1, by omega, fun k hk => ?_, by rwa [show i + (j + 1) = i + 1 + j by omega]⟩
          cases k with
          | zero => exact hgo
          | succ k =>
            have hnext := hall k (by omega)
            rwa [show i + (k + 1) = i + 1 + k by omega]
        · cases h
    · rintro ⟨j, hj, hall, ha⟩
      cases j with
      | zero => exact .inl ha
      | succ j =>
        refine .inr ?_
        rw [if_pos (show go i = true from hall 0 (by omega))]
        refine ih.mpr ⟨j, by omega, fun k hk => ?_, by rwa [show i + 1 + j = i + (j + 1) by omega]⟩
        have hnext := hall (k + 1) (by omega)
        rwa [show i + 1 + k = i + (k + 1) by omega]

/-- Item `j` of width `w` from address `p` on, in a space of `space` addresses. -/
def items (space p w j : ℕ) : List ℕ := (List.range w).map fun i => (p + w * j + i) % space

/-- An item that lies below the bound and is the last one, or stops the walk. -/
def StaysBelow (bound p w n : ℕ) (go : ℕ → Bool) : Prop :=
  n = 0 ∨ ∃ k < n, p + w * (k + 1) ≤ bound ∧ (k + 1 = n ∨ go k = false)

variable {bound space p w n : ℕ} {go : ℕ → Bool}

/-- An item that starts at most at the bound and has no address from it on ends there. -/
theorem items_below {j : ℕ} (hw : 0 < w) (hspace : bound < space)
    (hstart : p + w * j ≤ bound ∨ (j = 0 ∧ p < space))
    (h : ∀ a ∈ items space p w j, a < bound) : p + w * (j + 1) ≤ bound := by
  have hin : ∀ i < w, (p + w * j + i) % space < bound := fun i hi =>
    h _ (List.mem_map.mpr ⟨i, List.mem_range.mpr hi, rfl⟩)
  have hle : p + w * j ≤ bound := by
    obtain hle | ⟨rfl, hp⟩ := hstart
    · exact hle
    · have h0 := hin 0 hw
      rw [Nat.mul_zero, Nat.add_zero, Nat.mod_eq_of_lt hp] at h0
      omega
  rw [Nat.mul_succ]
  by_contra hover
  -- the address at the bound itself would be touched
  have hat := hin (bound - (p + w * j)) (by omega)
  rw [show p + w * j + (bound - (p + w * j)) = bound by omega, Nat.mod_eq_of_lt hspace] at hat
  exact lt_irrefl _ hat

/-- **A walk** touches only addresses below the bound exactly when it ends in front of it. -/
theorem walk_below_iff (hw : 0 < w) (hspace : bound < space) (hp : p < space) :
    (∀ a ∈ walk (items space p w) go n 0, a < bound) ↔ StaysBelow bound p w n go := by
  have hmem : ∀ j < n, (∀ k < j, go k = true) → ∀ a ∈ items space p w j,
      a ∈ walk (items space p w) go n 0 := by
    intro j hj hall a ha
    refine mem_walk.mpr ⟨j, hj, fun k hk => ?_, by rwa [Nat.zero_add]⟩
    rw [Nat.zero_add]
    exact hall k hk
  constructor
  · intro h
    by_contra hcon
    rw [StaysBelow, not_or] at hcon
    obtain ⟨hn, hno⟩ := hcon
    have hend : ∀ j, (∀ k < j, go k = true) → (p + w * j ≤ bound ∨ (j = 0 ∧ p < space)) → j < n →
        p + w * (j + 1) ≤ bound := fun j hall hstart hj =>
      items_below hw hspace hstart fun a ha => h a (hmem j hj hall a ha)
    -- the walk gets to every item, and each of them lies below the bound
    have hreach : ∀ j, j < n → (∀ k < j, go k = true) ∧
        (p + w * j ≤ bound ∨ (j = 0 ∧ p < space)) := by
      intro j
      induction j with
      | zero => exact fun _ => ⟨fun k hk => absurd hk (Nat.not_lt_zero k), .inr ⟨rfl, hp⟩⟩
      | succ j ih =>
        intro hj
        obtain ⟨hall, hstart⟩ := ih (by omega)
        have hle := hend j hall hstart (by omega)
        refine ⟨fun k hk => ?_, .inl hle⟩
        by_cases hkj : k < j
        · exact hall k hkj
        · obtain rfl : k = j := by omega
          by_contra hstop
          exact hno ⟨k, by omega, hle, .inr (by simpa using hstop)⟩
    obtain ⟨hall, hstart⟩ := hreach (n - 1) (by omega)
    have hlast := hend (n - 1) hall hstart (by omega)
    exact hno ⟨n - 1, by omega, hlast, .inl (by omega)⟩
  · rintro h a ha
    obtain ⟨j, hj, hall, ha⟩ := mem_walk.mp ha
    simp only [Nat.zero_add] at hall ha
    obtain rfl | ⟨k, hk, hle, hstop⟩ := h
    · omega
    have hjk : j ≤ k := by
      by_contra hlt
      have hgo := hall k (by omega)
      obtain hlast | hfalse := hstop
      · omega
      · rw [hgo] at hfalse
        cases hfalse
    obtain ⟨i, hi, rfl⟩ := List.mem_map.mp ha
    rw [List.mem_range] at hi
    have hmul : w * (j + 1) ≤ w * (k + 1) := Nat.mul_le_mul_left _ (by omega)
    rw [Nat.mul_succ] at hmul
    rw [Nat.mod_eq_of_lt (by omega)]
    omega

end SysLib

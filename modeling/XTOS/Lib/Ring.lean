import XTOS.Lib.Memory

/-!
# Cyclic reads and writes

The cells `start, start + 1, …` of a buffer of `size` cells, indices taken modulo
`size`. A cyclic block meets the end of the buffer at most once, so it is the
concatenation of two plain blocks; this is how ring buffers are copied.

## Main definitions

- `ringRead` — `n` cells read cyclically from a start index
- `ringWrite` — a block written cyclically, as two plain stores
-/

namespace SysLib

variable {α : Type*}

/-- The `n` cells read cyclically from index `start` of a buffer of `size` cells. -/
def ringRead (buf : ℕ → α) (size start n : ℕ) : List α :=
  (List.range n).map fun i => buf ((start + i) % size)

/-- Write `xs` cyclically from index `start`: up to the end of the buffer, and
    the rest from index zero. -/
def ringWrite (buf : ℕ → α) (size start : ℕ) (xs : List α) : ℕ → α :=
  store (store buf start (xs.take (size - start))) 0 (xs.drop (size - start))

@[simp] theorem length_ringRead (buf : ℕ → α) (size start n : ℕ) :
    (ringRead buf size start n).length = n := by
  simp [ringRead]

@[simp] theorem ringRead_zero (buf : ℕ → α) (size start : ℕ) :
    ringRead buf size start 0 = [] := rfl

@[simp] theorem getElem_ringRead (buf : ℕ → α) (size start n k : ℕ)
    (h : k < (ringRead buf size start n).length) :
    (ringRead buf size start n)[k] = buf ((start + k) % size) := by
  simp [ringRead]

theorem ringRead_add (buf : ℕ → α) (size start n k : ℕ) :
    ringRead buf size start (n + k) =
      ringRead buf size start n ++ ringRead buf size ((start + n) % size) k := by
  simp [ringRead, List.range_add, Function.comp_def, Nat.add_assoc]

/-- A cyclic index is a plain one before the end of the buffer and restarts at
    zero after it. -/
theorem ring_index {size start k : ℕ} (hs : start < size) (hk : k < size) :
    (start + k) % size = if start + k < size then start + k else start + k - size := by
  split
  · exact Nat.mod_eq_of_lt ‹_›
  · rw [Nat.mod_eq_sub_mod (by omega), Nat.mod_eq_of_lt (by omega)]

/-- A cyclic read is the plain read up to the end of the buffer followed by the
    plain read of the rest from index zero. -/
theorem ringRead_eq_load (buf : ℕ → α) {size start n : ℕ} (hs : start < size) (hn : n ≤ size) :
    ringRead buf size start n =
      load buf start (min n (size - start)) ++ load buf 0 (n - min n (size - start)) := by
  apply List.ext_getElem
  · simp only [length_ringRead, List.length_append, length_load]
    omega
  · intro k hk _
    rw [length_ringRead] at hk
    rw [getElem_ringRead, ring_index hs (by omega), List.getElem_append]
    simp only [length_load, getElem_load, zero_add]
    by_cases hc : start + k < size
    · rw [if_pos hc, dif_pos (by omega)]
    · rw [if_neg hc, dif_neg (by omega)]
      congr 1
      omega

/-- The cell of a cyclic write that carries the `k`-th written element. -/
theorem ringWrite_at (buf : ℕ → α) {size start k : ℕ} (xs : List α) (hs : start < size)
    (hx : xs.length ≤ size) (hk : k < xs.length) :
    ringWrite buf size start xs ((start + k) % size) = xs[k] := by
  rw [ring_index hs (by omega), ringWrite]
  by_cases hc : start + k < size
  · rw [if_pos hc, store_above _ _ (by simp; omega)]
    rw [store_at _ _ _ (by simp; omega)]
    simp
  · rw [if_neg hc, store_inside _ _ (by omega) (by simp; omega)]
    rw [List.getElem_drop]
    congr 1
    omega

/-- A cell that a cyclic write does not reach keeps its value. -/
theorem ringWrite_untouched (buf : ℕ → α) {size start k : ℕ} (xs : List α)
    (hs : start < size) (hx : xs.length ≤ k) (hk : k < size) :
    ringWrite buf size start xs ((start + k) % size) = buf ((start + k) % size) := by
  rw [ring_index hs hk, ringWrite]
  by_cases hc : start + k < size
  · rw [if_pos hc, store_above _ _ (by simp; omega), store_above _ _ (by simp; omega)]
  · rw [if_neg hc, store_above _ _ (by simp; omega), store_below _ _ (by omega)]

/-- **Appending to a ring**: writing `xs` right after the `n` cells in use leaves
    them as they were and puts `xs` behind them. -/
theorem ringRead_ringWrite (buf : ℕ → α) {size start n : ℕ} (xs : List α)
    (hs : start < size) (hx : n + xs.length ≤ size) :
    ringRead (ringWrite buf size ((start + n) % size) xs) size start (n + xs.length) =
      ringRead buf size start n ++ xs := by
  have hpos : (start + n) % size < size := Nat.mod_lt _ (by omega)
  rw [ringRead_add]
  congr 1
  · apply List.ext_getElem
    · simp
    · intro k hk _
      rw [length_ringRead] at hk
      simp only [getElem_ringRead]
      -- cell `k` lies `size - n + k` places after the first written one
      have hcell : (start + k) % size = ((start + n) % size + (size - n + k)) % size := by
        rw [Nat.mod_add_mod, show start + n + (size - n + k) = start + k + size by omega,
          Nat.add_mod_right]
      rw [hcell]
      exact ringWrite_untouched buf xs hpos (by omega) (by omega)
  · apply List.ext_getElem
    · simp
    · intro k _ hk
      rw [getElem_ringRead]
      exact ringWrite_at buf xs hpos (by omega) hk

end SysLib

import Mathlib.Tactic

/-!
# Words on a stack

A memory of 64-bit addresses that holds a value at every eighth byte. A stack grows down from a pointer:
values that are pushed one after the other are a block of words, the last one lowest.

## Main definitions

- `words` — the values from an address on
- `cells` — the addresses of such a block
- `pushWords` — push values, the first one first

## Main results

- `words_pushWords` — what was pushed can be read back, in the reverse order
- `pushWords_outside` — nothing else changes
-/

namespace SysLib

variable {α : Type*}

/-- The address `8 * i` bytes above `a`. -/
def cell (a : BitVec 64) (i : ℕ) : BitVec 64 := a + BitVec.ofNat 64 (8 * i)

/-- The values of `n` words from `a` on. -/
def words (m : BitVec 64 → α) (a : BitVec 64) (n : ℕ) : List α :=
  (List.range n).map fun i => m (cell a i)

/-- The addresses of `n` words from `a` on. -/
def cells (a : BitVec 64) (n : ℕ) : Set (BitVec 64) := {x | ∃ i < n, x = cell a i}

/-- The stack pointer after `n` pushes. -/
def lowered (sp : BitVec 64) (n : ℕ) : BitVec 64 := sp - BitVec.ofNat 64 (8 * n)

/-- Push values, the first one first. -/
def pushWords (m : BitVec 64 → α) (sp : BitVec 64) : List α → BitVec 64 → α
  | [] => m
  | x :: l => pushWords (Function.update m (lowered sp 1) x) (lowered sp 1) l

variable {m m' : BitVec 64 → α} {a sp : BitVec 64} {l : List α} {x : α}

/-! ### Addresses -/

theorem cell_zero : cell a 0 = a := by
  rw [cell, Nat.mul_zero, BitVec.add_zero]

theorem cell_cell (a : BitVec 64) (i j : ℕ) : cell (cell a i) j = cell a (i + j) := by
  rw [cell, cell, cell, BitVec.add_assoc, ← BitVec.ofNat_add, Nat.mul_add]

theorem lowered_zero (sp : BitVec 64) : lowered sp 0 = sp := by
  rw [lowered, Nat.mul_zero, BitVec.sub_zero]

theorem lowered_lowered (sp : BitVec 64) (i j : ℕ) : lowered (lowered sp i) j = lowered sp (i + j) := by
  rw [lowered, lowered, lowered, Nat.mul_add, BitVec.ofNat_add]
  generalize BitVec.ofNat 64 (8 * i) = u
  generalize BitVec.ofNat 64 (8 * j) = v
  bv_omega

theorem cell_lowered (sp : BitVec 64) {i n : ℕ} (h : i ≤ n) :
    cell (lowered sp n) i = lowered sp (n - i) := by
  obtain ⟨k, rfl⟩ := Nat.exists_eq_add_of_le h
  rw [Nat.add_sub_cancel_left, cell, lowered, lowered, Nat.mul_add, BitVec.ofNat_add]
  generalize BitVec.ofNat 64 (8 * i) = u
  generalize BitVec.ofNat 64 (8 * k) = v
  bv_omega

/-- Words of a block that is not larger than the memory have different addresses. -/
theorem cell_inj {i j : ℕ} (hi : i < 2 ^ 61) (hj : j < 2 ^ 61) : cell a i = cell a j ↔ i = j := by
  refine ⟨fun h => ?_, fun h => h ▸ rfl⟩
  have hoff : BitVec.ofNat 64 (8 * i) = BitVec.ofNat 64 (8 * j) := (BitVec.add_right_inj a).mp h
  have hnat := congrArg BitVec.toNat hoff
  rw [BitVec.toNat_ofNat, BitVec.toNat_ofNat, Nat.mod_eq_of_lt (by omega),
    Nat.mod_eq_of_lt (by omega)] at hnat
  omega

/-! ### Blocks -/

@[simp] theorem words_length (m : BitVec 64 → α) (a : BitVec 64) (n : ℕ) : (words m a n).length = n := by
  rw [words, List.length_map, List.length_range]

theorem words_succ (m : BitVec 64 → α) (a : BitVec 64) (n : ℕ) :
    words m a (n + 1) = m a :: words m (cell a 1) n := by
  rw [words, List.range_succ_eq_map, List.map_cons, List.map_map, cell_zero, words]
  refine congrArg _ (List.map_congr_left fun i _ => ?_)
  rw [Function.comp_apply, cell_cell, Nat.add_comm 1 i]

theorem words_getElem {i n : ℕ} (h : i < (words m a n).length) : (words m a n)[i] = m (cell a i) := by
  simp [words]

theorem words_take (m : BitVec 64 → α) (a : BitVec 64) {k n : ℕ} (h : k ≤ n) :
    (words m a n).take k = words m a k := by
  rw [words, ← List.map_take, List.take_range, Nat.min_eq_left h, words]

/-- A block is the same in memories that agree on its addresses. -/
theorem words_congr {n : ℕ} (h : ∀ x ∈ cells a n, m' x = m x) : words m' a n = words m a n :=
  List.map_congr_left fun i hi => h _ ⟨i, List.mem_range.mp hi, rfl⟩

/-- The addresses of a block that does not wrap around. -/
theorem cells_bound {n : ℕ} {x : BitVec 64} (ha : a.toNat + 8 * n ≤ 2 ^ 64) (hx : x ∈ cells a n) :
    a.toNat ≤ x.toNat ∧ x.toNat < a.toNat + 8 * n := by
  obtain ⟨i, hi, rfl⟩ := hx
  rw [cell, BitVec.toNat_add, BitVec.toNat_ofNat, Nat.mod_eq_of_lt (a := 8 * i) (by omega),
    Nat.mod_eq_of_lt (by omega)]
  omega

theorem cells_mono {n n' : ℕ} (h : n ≤ n') : cells a n ⊆ cells a n' := by
  rintro _ ⟨i, hi, rfl⟩
  exact ⟨i, hi.trans_le h, rfl⟩

theorem cells_cell_subset {i n n' : ℕ} (h : i + n ≤ n') : cells (cell a i) n ⊆ cells a n' := by
  rintro _ ⟨j, hj, rfl⟩
  exact ⟨i + j, by omega, cell_cell a i j⟩

/-! ### Pushing -/

theorem pushWords_append (m : BitVec 64 → α) (sp : BitVec 64) (l l' : List α) :
    pushWords m sp (l ++ l') = pushWords (pushWords m sp l) (lowered sp l.length) l' := by
  induction l generalizing m sp with
  | nil => rw [List.nil_append, List.length_nil, lowered_zero, pushWords]
  | cons x l ih =>
    rw [List.cons_append, pushWords, ih, pushWords, lowered_lowered, List.length_cons,
      Nat.add_comm 1]

theorem pushWords_concat (m : BitVec 64 → α) (sp : BitVec 64) (l : List α) (x : α) :
    pushWords m sp (l ++ [x]) =
      Function.update (pushWords m sp l) (lowered sp (l.length + 1)) x := by
  rw [pushWords_append, pushWords, pushWords, lowered_lowered]

/-- Only the words of the block change. -/
theorem pushWords_outside (h : a ∉ cells (lowered sp l.length) l.length) :
    pushWords m sp l a = m a := by
  induction l using List.reverseRecOn with
  | nil => rfl
  | append_singleton l x ih =>
    rw [List.length_append, List.length_singleton] at h
    have hhead : a ≠ lowered sp (l.length + 1) := by
      rintro rfl
      exact h ⟨0, Nat.succ_pos _, cell_zero.symm⟩
    have hrest : a ∉ cells (lowered sp l.length) l.length := by
      have hup : lowered sp l.length = cell (lowered sp (l.length + 1)) 1 := by
        rw [cell_lowered sp (by omega), Nat.add_sub_cancel]
      rw [hup]
      exact fun hmem => h (cells_cell_subset (by omega) hmem)
    rw [pushWords_concat, Function.update_of_ne hhead]
    exact ih hrest

/-- **What was pushed** can be read back, the last value first. -/
theorem words_pushWords (hlen : l.length < 2 ^ 61) :
    words (pushWords m sp l) (lowered sp l.length) l.length = l.reverse := by
  induction l using List.reverseRecOn with
  | nil => rfl
  | append_singleton l x ih =>
    rw [List.length_append, List.length_singleton] at hlen ⊢
    rw [words_succ, pushWords_concat, Function.update_self, List.reverse_append,
      List.reverse_singleton, List.singleton_append, cell_lowered sp (by omega),
      Nat.add_sub_cancel]
    refine congrArg _ ((words_congr ?_).trans (ih (by omega)))
    -- the words above are not the one pushed last
    rintro _ ⟨i, hi, rfl⟩
    refine Function.update_of_ne ?_ _ _
    rw [show lowered sp l.length = cell (lowered sp (l.length + 1)) 1 by
      rw [cell_lowered sp (by omega), Nat.add_sub_cancel], cell_cell]
    intro heq
    have hzero := (cell_inj (by omega) (by omega)).mp (heq.trans cell_zero.symm)
    omega

end SysLib

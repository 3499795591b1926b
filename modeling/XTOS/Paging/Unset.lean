import XTOS.Paging

/-!
# Removing mappings

`xtUnsetPages` of `xtkernel/arch/x86_64/memory.c`. A pass clears the leaf of one address, frees the
tables that have become empty, and moves on by the size of the leaf or of the gap. The size of a gap
in the first table is computed in `int`, where it is zero.

## Main definitions

- `Unset` — the words of memory and the pages that were freed
- `unsetPage`, `unsetLoop`, `xtUnsetPages` — the modelled function
- `passes` — the states in which the passes of the loop start

## Main results

- `unsetPass_decreases_iff` — a pass that does not start in such a gap makes the rest smaller
- `xtUnsetPages_returns_iff` — the loop ends if no pass starts in such a gap

## Design notes

The code follows physical addresses as they are. The word at a physical address is the one at
`HIGHER_HALF_MEM` of it, by which the other functions name it.
-/

namespace XTOS.Paging

open SysLib

/-- `PAGE_4KB`. -/
def page4KB : ℤ := 0x1000

/-- `PAGE_2MB`. -/
def page2MB : ℤ := 0x200000

/-- `PAGE_1GB`. -/
def page1GB : ℤ := 0x40000000

/-- A product in `int`. -/
def intMul (x y : ℤ) : ℤ := (x * y).bmod (2 ^ 32)

/-- An `int` as a `uint64_t`. -/
def toUInt64 (x : ℤ) : ℕ := (x % 2 ^ 64).toNat

/-- The words of memory, and the pages given to `xtFreePages`, latest last. -/
structure Unset where
  mem : ℕ → ℕ
  freed : List (ℕ × ℕ)

/-- The address of `table->entries[i]` of the table at a physical address. -/
def tableEntry (table : ℕ) (i : Fin 512) : ℕ := entryAddr (higherHalfMem table) i

/-- Clear an entry. -/
def Unset.clear (u : Unset) (a : ℕ) : Unset := { u with mem := Function.update u.mem a 0 }

/-- `xtIsTableEmpty`. -/
def xtIsTableEmpty (mem : ℕ → ℕ) (table : ℕ) : Prop :=
  ∀ i, mem (tableEntry table i) &&& pPresent = 0

instance (mem : ℕ → ℕ) (table : ℕ) : Decidable (xtIsTableEmpty mem table) := by
  unfold xtIsTableEmpty
  infer_instance

/-- Free a table that has become empty, and clear the entry `a` that leads to it. -/
def Unset.prune (u : Unset) (table a : ℕ) : Unset :=
  if xtIsTableEmpty u.mem table then
    { u with freed := u.freed ++ [(table, toUInt64 page4KB)] }.clear a
  else u

/-- One pass of the loop of `xtUnsetPages`, with its `page_size`. -/
def unsetPage (u : Unset) (pml4 va : ℕ) : Unset × ℕ :=
  let pml4e := tableEntry pml4 (index va 39)
  if u.mem pml4e &&& pPresent = 0 then (u, toUInt64 (intMul page1GB 512))
  else
    let pdpt := u.mem pml4e &&& addrMask
    let pdpte := tableEntry pdpt (index va 30)
    if u.mem pdpte &&& pPresent = 0 then (u, toUInt64 page1GB)
    else if u.mem pdpte &&& pPS ≠ 0 then
      ((u.clear pdpte).prune pdpt pml4e, toUInt64 page1GB)
    else
      let pd := u.mem pdpte &&& addrMask
      let pde := tableEntry pd (index va 21)
      if u.mem pde &&& pPresent = 0 then (u, toUInt64 page2MB)
      else if u.mem pde &&& pPS ≠ 0 then
        (((u.clear pde).prune pd pdpte).prune pdpt pml4e, toUInt64 page2MB)
      else
        let pt := u.mem pde &&& addrMask
        let pte := tableEntry pt (index va 12)
        ((((u.clear pte).prune pt pde).prune pd pdpte).prune pdpt pml4e, toUInt64 page4KB)

/-- The state of the loop before a pass: the tables, the address and the rest of the size. -/
structure Rest where
  unset : Unset
  va : ℕ
  size : ℕ

/-- A pass with the step to the next one. -/
def unsetPass (pml4 : ℕ) (r : Rest) : Rest :=
  let (u, pageSize) := unsetPage r.unset pml4 r.va
  { unset := u
    va := (r.va + pageSize) % 2 ^ 64
    size := if r.size ≥ pageSize then r.size - pageSize else 0 }

/-- The loop of `xtUnsetPages`. -/
def unsetLoop (pml4 : ℕ) : ℕ → Rest → Option Unset
  | 0, _ => none
  | fuel + 1, r => if r.size = 0 then some r.unset else unsetLoop pml4 fuel (unsetPass pml4 r)

/-- `xtUnsetPages`. -/
def xtUnsetPages (fuel : ℕ) (u : Unset) (pageTable va size : ℕ) : Option (Unset × XTResult) :=
  if pageTable = 0 then some (u, .invalidParameter)
  else (unsetLoop pageTable fuel ⟨u, va, size⟩).map fun u => (u, .success)

/-- The first table has a present entry for the address of the next pass. -/
def Rest.Present (pml4 : ℕ) (r : Rest) : Prop :=
  r.unset.mem (tableEntry pml4 (index r.va 39)) &&& pPresent ≠ 0

variable {pml4 va size : ℕ} {u : Unset} {r : Rest}

/-! ### Termination -/

/-- The step of a gap in the first table. -/
theorem gap_eq_zero : toUInt64 (intMul page1GB 512) = 0 := by decide

theorem page1GB_eq : toUInt64 page1GB = 2 ^ (12 + 9 * 2) := by decide

theorem page2MB_eq : toUInt64 page2MB = 2 ^ (12 + 9 * 1) := by decide

theorem page4KB_eq : toUInt64 page4KB = 2 ^ 12 := by decide

theorem unsetPage_of_gap (h : u.mem (tableEntry pml4 (index va 39)) &&& pPresent = 0) :
    unsetPage u pml4 va = (u, 0) := by
  rw [unsetPage]
  dsimp only
  rw [if_pos h, gap_eq_zero]

/-- The step of a pass. -/
theorem unsetPage_pos (h : u.mem (tableEntry pml4 (index va 39)) &&& pPresent ≠ 0) :
    0 < (unsetPage u pml4 va).2 := by
  rw [unsetPage]
  dsimp only
  rw [if_neg h]
  split_ifs
  · exact page1GB_eq ▸ Nat.two_pow_pos _
  · exact page1GB_eq ▸ Nat.two_pow_pos _
  · exact page2MB_eq ▸ Nat.two_pow_pos _
  · exact page2MB_eq ▸ Nat.two_pow_pos _
  · exact page4KB_eq ▸ Nat.two_pow_pos _

/-- **One pass** makes the rest smaller exactly if the first table has an entry for its address. -/
theorem unsetPass_decreases_iff (hsize : r.size ≠ 0) :
    (unsetPass pml4 r).size < r.size ↔ r.Present pml4 := by
  by_cases h : r.Present pml4
  · have hpos := unsetPage_pos h
    refine iff_of_true ?_ h
    rw [unsetPass]
    dsimp only
    split_ifs <;> omega
  · refine iff_of_false ?_ h
    rw [unsetPass, unsetPage_of_gap (not_not.mp h)]
    simp

/-- A pass that starts in a gap of the first table changes nothing. -/
theorem unsetPass_stuck (hva : r.va < 2 ^ 64) (h : ¬ r.Present pml4) : unsetPass pml4 r = r := by
  rw [unsetPass, unsetPage_of_gap (not_not.mp h)]
  dsimp only
  rw [Nat.add_zero, Nat.mod_eq_of_lt hva, if_pos (Nat.zero_le _), Nat.sub_zero]

theorem unsetPass_va_lt (pml4 : ℕ) (r : Rest) : (unsetPass pml4 r).va < 2 ^ 64 :=
  Nat.mod_lt _ (by norm_num)

/-- The states in which the passes start. -/
def passes (pml4 : ℕ) (r : Rest) (j : ℕ) : Rest := (unsetPass pml4)^[j] r

theorem passes_succ (pml4 : ℕ) (r : Rest) (j : ℕ) :
    passes pml4 (unsetPass pml4 r) j = passes pml4 r (j + 1) :=
  (Function.iterate_succ_apply (unsetPass pml4) j r).symm

theorem passes_size_zero (pml4 : ℕ) (h : r.size = 0) (j : ℕ) : (passes pml4 r j).size = 0 := by
  induction j generalizing r with
  | zero => exact h
  | succ j ih =>
    rw [← passes_succ]
    refine ih ?_
    rw [unsetPass, h]
    simp

/-- The loop ends exactly if no pass starts in a gap of the first table. -/
theorem unsetLoop_returns_iff (hva : r.va < 2 ^ 64) :
    (∃ fuel u, unsetLoop pml4 fuel r = some u) ↔
      ∀ j, (passes pml4 r j).size ≠ 0 → (passes pml4 r j).Present pml4 := by
  constructor
  · rintro ⟨fuel, u, hloop⟩
    induction fuel generalizing r with
    | zero => cases hloop
    | succ fuel ih =>
      rw [unsetLoop] at hloop
      split_ifs at hloop with hsize
      · exact fun j hj => absurd (passes_size_zero pml4 hsize j) hj
      · have hrest := ih (unsetPass_va_lt pml4 r) hloop
        by_cases h : r.Present pml4
        · rintro (_ | j)
          · exact fun _ => h
          · rw [← passes_succ]
            exact hrest j
        · -- a pass that changes nothing would be followed by itself
          rw [unsetPass_stuck hva h] at hrest
          exact absurd (hrest 0 hsize) h
  · intro hall
    induction hn : r.size using Nat.strong_induction_on generalizing r with
    | _ n ih =>
      subst hn
      by_cases hsize : r.size = 0
      · exact ⟨1, r.unset, by rw [unsetLoop, if_pos hsize]⟩
      · have hlt := (unsetPass_decreases_iff hsize).mpr (hall 0 hsize)
        obtain ⟨fuel, u, hloop⟩ := ih _ hlt (unsetPass_va_lt pml4 r)
          (fun j => passes_succ pml4 r j ▸ hall (j + 1)) rfl
        exact ⟨fuel + 1, u, by rw [unsetLoop, if_neg hsize, hloop]⟩

/-- **When the call returns**: each pass makes the rest smaller exactly if it does not start in a gap
    of the first table, and the call returns exactly if none does. -/
theorem xtUnsetPages_returns_iff {pageTable : ℕ} (u : Unset) (size : ℕ) (hva : va < 2 ^ 64) :
    (∀ r : Rest, r.size ≠ 0 →
      ((unsetPass pageTable r).size < r.size ↔ r.Present pageTable)) ∧
    ((∃ fuel r, xtUnsetPages fuel u pageTable va size = some r) ↔
      pageTable = 0 ∨ ∀ j, (passes pageTable ⟨u, va, size⟩ j).size ≠ 0 →
        (passes pageTable ⟨u, va, size⟩ j).Present pageTable) := by
  refine ⟨fun r hsize => unsetPass_decreases_iff hsize, ?_⟩
  by_cases hnull : pageTable = 0
  · exact iff_of_true ⟨0, _, by rw [xtUnsetPages, if_pos hnull]⟩ (.inl hnull)
  · rw [or_iff_right hnull, ← unsetLoop_returns_iff hva]
    simp only [xtUnsetPages, if_neg hnull, Option.map_eq_some_iff]
    constructor
    · rintro ⟨fuel, -, u', hloop, -⟩
      exact ⟨fuel, u', hloop⟩
    · rintro ⟨fuel, u', hloop⟩
      exact ⟨fuel, _, u', hloop, rfl⟩

theorem xtUnsetPages_returns_full :
    ∃ fuel r, xtUnsetPages fuel ⟨fun _ => 0x2083, []⟩ 0x1000 0 0x1000 = some r := by
  refine ((xtUnsetPages_returns_iff _ _ (by norm_num)).2).mpr (.inr fun j hj => ?_)
  cases j with
  | zero => exact show 0x2083 &&& pPresent ≠ 0 by decide
  | succ j =>
    have hzero : (unsetPass 0x1000 ⟨⟨fun _ => 0x2083, []⟩, 0, 0x1000⟩).size = 0 := by
      decide +kernel
    rw [← passes_succ] at hj
    exact absurd (passes_size_zero _ hzero j) hj

/-- For a range in a gap of the first table the call does not return. -/
theorem unset_gap_runs_on :
    ¬ ∃ fuel r, xtUnsetPages fuel ⟨fun _ => 0, []⟩ 0x1000 0 0x1000 = some r := by
  have hloop : ∀ fuel, unsetLoop 0x1000 fuel ⟨⟨fun _ => 0, []⟩, 0, 0x1000⟩ = none := by
    intro fuel
    induction fuel with
    | zero => rfl
    | succ fuel ih =>
      rw [unsetLoop, if_neg (by decide), unsetPass_stuck (by norm_num) fun h => h rfl]
      exact ih
  rintro ⟨fuel, r, hcall⟩
  rw [xtUnsetPages, if_neg (by decide), hloop] at hcall
  cases hcall

end XTOS.Paging

import XTOS.Heap

/-!
# Requests to the kernel heap

How `xtHeapAlloc` of `xtkernel/memory.c` computes the block that a request of any 64-bit size
needs, and which block the search finds. The size is rounded up and the header added before
anything is compared, and both sums can wrap.

## Main results

- `neededSize_wrapped`, `neededSize_large` — the sizes near the end of the address space
- `Tiled.xtHeapAlloc_found`, `Tiled.xtHeapAlloc_finds` — the search
- `Tiled.room` — a request that does not wrap gets room
-/

namespace XTOS.Heap

open SysLib

/-! ### Sizes near the end of the address space -/

/-- A request in the last 47 sizes needs the smallest block. -/
theorem neededSize_wrapped {size : ℕ} (h : 2 ^ 64 - 48 < size) (hsize : size < 2 ^ 64) :
    neededSize size = neededSize 16 := by
  have hmask := mask16_eq (Nat.mod_lt (size + 15) (show 0 < 2 ^ 64 by decide))
  have h16 : neededSize 16 = minBlockSize := by decide
  rw [h16, neededSize]
  simp only [hmask, heapHeaderSize, minBlockSize]
  obtain hlt | hge := Nat.lt_or_ge (size + 15) (2 ^ 64)
  · rw [Nat.mod_eq_of_lt hlt]
    split <;> omega
  · rw [Nat.mod_eq_sub_mod hge, Nat.mod_eq_of_lt (show size + 15 - 2 ^ 64 < 2 ^ 64 by omega)]
    split <;> omega

/-- The request before these needs more than any heap has. -/
theorem neededSize_large {size : ℕ} (h : 2 ^ 64 - 64 < size) (hle : size ≤ 2 ^ 64 - 48) :
    2 ^ 63 ≤ neededSize size := by
  have hmask := mask16_eq (show size + 15 < 2 ^ 64 by omega)
  rw [neededSize, Nat.mod_eq_of_lt (show size + 15 < 2 ^ 64 by omega)]
  simp only [hmask, heapHeaderSize, minBlockSize]
  split <;> omega

/-- Only the size of the block matters to the search. -/
theorem xtHeapAlloc_congr {size size' : ℕ} (h : neededSize size = neededSize size') (fuel : ℕ)
    (m : Mem) (start : ℕ) : xtHeapAlloc fuel m start size = xtHeapAlloc fuel m start size' := by
  rw [xtHeapAlloc, xtHeapAlloc, h]

section found

variable {m m' : Mem} {start total : ℕ} {bs : List Block} {b : Block}

/-- The block that an allocation found. -/
theorem Tiled.xtHeapAlloc_found (h : Tiled m start total bs) (hr : Region start total)
    {fuel size ptr : ℕ} (hcall : Heap.xtHeapAlloc fuel m start size = some (some (m', ptr))) :
    ∃ xs b ys, bs = xs ++ b :: ys ∧ b.req = none ∧ neededSize size ≤ b.size ∧
      ptr = endAddr start xs + heapHeaderSize := by
  simp only [Heap.xtHeapAlloc] at hcall
  split at hcall
  · cases hcall
  rename_i prev X hscan
  split at hcall
  · cases hcall
  rename_i hX
  have hptr : ptr = X + heapHeaderSize := by
    simp only [Option.some.injEq, Prod.mk.injEq] at hcall
    exact hcall.2.symm
  have hlinked := h.seg.linked hr.start_ne
  cases bs with
  | nil =>
    have htotal := h.total
    have hpos := hr.pos
    simp at htotal
    omega
  | cons b0 bs0 =>
    rw [firstAddr] at hlinked
    obtain ⟨pre, post, hsplit, heq, -, hpost⟩ := hlinked.scan_split hscan
    cases heq
    cases post with
    | nil => simp at hX
    | cons y post =>
      obtain ⟨xs, b, ys, hbs, rfl⟩ := exists_of_addrs_eq hsplit
      have htest := hpost _ _ rfl
      rw [hbs] at h
      rw [decide_eq_true_eq, h.seg.entry] at htest
      exact ⟨xs, b, ys, hbs, used_eq_zero.mp htest.1, htest.2, hptr⟩

/-- A free block that is large enough is found, if no earlier one is. -/
theorem Tiled.xtHeapAlloc_finds (h : Tiled m start total bs) (hr : Region start total) {size : ℕ}
    (hb : b ∈ bs) (hfree : b.req = none) (hle : neededSize size ≤ b.size) :
    ∃ fuel m' ptr, Heap.xtHeapAlloc fuel m start size = some (some (m', ptr)) := by
  have hsome := h.xtHeapAlloc_isSome hr (Nat.lt_succ_self bs.length) size
  obtain ⟨r, hcall⟩ := Option.isSome_iff_exists.mp hsome
  cases r with
  | some r => exact ⟨_, r.1, r.2, hcall⟩
  | none =>
    simp only [Heap.xtHeapAlloc] at hcall
    split at hcall
    · cases hcall
    rename_i prev X hscan
    split at hcall
    · rename_i hX
      have hlinked := h.seg.linked hr.start_ne
      have hfirst : firstAddr start 0 bs = start := by
        cases bs with
        | nil => cases hb
        | cons _ _ => rfl
      rw [hfirst] at hlinked
      obtain ⟨pre, post, hsplit, heq, hpre, -⟩ := hlinked.scan_split hscan
      -- the search passed the free block, so it did not fit
      have hpost : post = [] := by
        cases post with
        | nil => rfl
        | cons y post =>
          have hy := hlinked.ne_null y (by simp [hsplit])
          cases heq
          exact absurd hX hy
      rw [hpost, List.append_nil] at hsplit
      obtain ⟨xs, ys, rfl⟩ := List.append_of_mem hb
      have htest := hpre (endAddr start xs) (by
        rw [← hsplit, addrs_append]
        simp [addrs])
      rw [decide_eq_false_iff_not, h.seg.entry] at htest
      exact absurd ⟨used_eq_zero.mpr hfree, hle⟩ htest
    · cases hcall

/-- A request of at most `2 ^ 64 - 48` bytes that is served gets a block with room for it. -/
theorem Tiled.xtHeapAlloc_live (h : Tiled m start total bs) (hr : Region start total)
    {fuel size p : ℕ} (hsize : size ≤ 2 ^ 64 - 48)
    (hcall : Heap.xtHeapAlloc fuel m start size = some (some (m', p))) :
    ∃ bs', Tiled m' start total bs' ∧ (p, size) ∈ livePtrs start bs' := by
  obtain ⟨xs, b, ys, rfl, -, hle, -⟩ := h.xtHeapAlloc_found hr hcall
  have hb : b.size ≤ total := h.size_le
  have hsmall := hr.small
  have hlt : size ≤ 2 ^ 64 - 64 := by
    by_contra hlarge
    have := neededSize_large (Nat.lt_of_not_le hlarge) hsize
    omega
  obtain ⟨bs', htiled, hperm⟩ := h.xtHeapAlloc hr hlt hcall
  exact ⟨bs', htiled, hperm.mem_iff.mpr List.mem_cons_self⟩

theorem Tiled.room (h : Tiled m start total bs) (hr : Region start total) {fuel size p : ℕ}
    (hsize : size ≤ 2 ^ 64 - 48)
    (hcall : Heap.xtHeapAlloc fuel m start size = some (some (m', p))) :
    size ≤ Heap.payload m' p := by
  obtain ⟨bs', htiled, hmem⟩ := h.xtHeapAlloc_live hr hsize hcall
  exact (htiled.payload hr hmem).2

end found

end XTOS.Heap

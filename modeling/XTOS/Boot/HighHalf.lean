import XTOS.Paging

/-!
# The page tables of the boot loader

`MapHighHalf` of `xtboot/arch/x86_64/arch.c`: the tables under which the kernel starts, and which it goes on
with as `kernelPageTable`.

## Main definitions

- `mapHighHalf` — the tables, in physical memory
- `translate` — what the processor does with an address
- `bootMap` — the same as a list of ranges

## Main results

- `translate_mapHighHalf` — every address of the processor, mapped or not
- `xtGetPhysicalAddress_boot` — the kernel's own walk, which reads the tables through the mapping that they
  make, finds the same

## Design notes

Memory is a function from physical addresses to the words at them. The loop over the pages of the kernel
does not stop at the end of its table: an image of more than 512 pages is written over the next page.
-/

namespace XTOS.Boot

open SysLib Paging

/-- The pages that `MapHighHalf` allocates, and the stack. -/
structure BootPages where
  pml4 : ℕ
  pdp1 : ℕ
  stackPtr : ℕ
  pdp2 : ℕ
  ptStack : ℕ
  pd1 : ℕ
  pd2 : ℕ
  ptKernel : ℕ

/-- The entry `i` of a table. -/
def entry (m : ℕ → ℕ) (table i : ℕ) : ℕ := m (table + 8 * i)

/-- `SET_PAGE_TABLE`. -/
def setPageTable (m : ℕ → ℕ) (table i x flags : ℕ) : ℕ → ℕ :=
  Function.update m (table + 8 * i) (x ||| flags)

/-- `SetMem` of a page with zeros. -/
def clearPage (m : ℕ → ℕ) (page : ℕ) : ℕ → ℕ := fun a => if page ≤ a ∧ a < page + 4096 then 0 else m a

/-- A loop over `n` entries of a table. -/
def fillTable (m : ℕ → ℕ) (table start : ℕ) (x : ℕ → ℕ) (flags : ℕ) : ℕ → ℕ → ℕ
  | 0 => m
  | n + 1 => setPageTable (fillTable m table start x flags n) table (start + n) (x n) flags

/-- `MapHighHalf`. -/
def mapHighHalf (m : ℕ → ℕ) (b : BootPages) (image sizeOfImage : ℕ) : ℕ → ℕ :=
  let m := clearPage m b.pml4
  let m := clearPage m b.pdp1
  let m := fillTable m b.pdp1 0 (fun i => i <<< 30) 0x87 512
  let m := setPageTable m b.pml4 0 b.pdp1 0x07
  let m := setPageTable m b.pml4 256 b.pdp1 0x03
  let m := clearPage m b.stackPtr
  let m := clearPage m b.pdp2
  let m := clearPage m b.ptStack
  let m := fillTable m b.ptStack 480 (fun i => b.stackPtr + i * 4096) 0x03 32
  let m := clearPage m b.pd1
  let m := setPageTable m b.pd1 511 b.ptStack 0x03
  let m := setPageTable m b.pdp2 509 b.pd1 0x03
  let m := clearPage m b.pd2
  let m := clearPage m b.ptKernel
  let m := fillTable m b.ptKernel 0 (fun i => image + i * 4096) 0x03 (sizeOfImage / 4096)
  let m := setPageTable m b.pd2 0 b.ptKernel 0x03
  let m := setPageTable m b.pdp2 510 b.pd2 0x03
  setPageTable m b.pml4 511 b.pdp2 0x03

/-! ### The processor -/

/-- Where an address leads, and the rights that all entries on the way give. -/
structure Mapping where
  pa : ℕ
  writable : Bool
  user : Bool
  deriving DecidableEq, Repr

/-- `P_PRESENT`, `P_RW`, `P_US` and `P_PS` of an entry. -/
def present (e : ℕ) : Bool := e % 2 == 1
def writable (e : ℕ) : Bool := e / 2 % 2 == 1
def user (e : ℕ) : Bool := e / 4 % 2 == 1
def large (e : ℕ) : Bool := e / 128 % 2 == 1

/-- The address in an entry, of a page with `2 ^ k` bytes. -/
def frame (e k : ℕ) : ℕ := e % 2 ^ 52 / 2 ^ k * 2 ^ k

/-- The bits from 47 on are the same. -/
def canonical (va : ℕ) : Bool := decide (va < 2 ^ 47) || decide (2 ^ 64 - 2 ^ 47 ≤ va ∧ va < 2 ^ 64)

/-- The page that the entries on the way end with. -/
def leafOf (es : List ℕ) (e k va : ℕ) : Option Mapping :=
  some ⟨frame e k + va % 2 ^ k, (e :: es).all writable, (e :: es).all user⟩

/-- What the processor does with an address. -/
def translate (m : ℕ → ℕ) (cr3 va : ℕ) : Option Mapping :=
  let e4 := entry m cr3 (va / 2 ^ 39 % 512)
  let e3 := entry m (frame e4 12) (va / 2 ^ 30 % 512)
  let e2 := entry m (frame e3 12) (va / 2 ^ 21 % 512)
  let e1 := entry m (frame e2 12) (va / 2 ^ 12 % 512)
  if !canonical va || !present e4 || !present e3 then none
  else if large e3 then leafOf [e4] e3 30 va
  else if !present e2 then none
  else if large e2 then leafOf [e3, e4] e2 21 va
  else if !present e1 then none
  else leafOf [e2, e3, e4] e1 12 va

/-! ### The map -/

/-- `KERNEL_IMAGE_BASE`. -/
def kernelImageBase : ℕ := 0xffffffff80000000

/-- The start of the 32 pages of the stack. -/
def stackBase : ℕ := 0xffffffff7ffe0000

/-- What the tables are meant to map: all of low memory twice, once for user code and once for the kernel,
    the stack and the pages of the image. -/
def bootMap (b : BootPages) (image sizeOfImage va : ℕ) : Option Mapping :=
  if va < 2 ^ 39 then some ⟨va, true, true⟩
  else if highHalf ≤ va ∧ va < highHalf + 2 ^ 39 then some ⟨va - highHalf, true, false⟩
  else if stackBase ≤ va ∧ va < kernelImageBase then some ⟨b.stackPtr + (va - stackBase), true, false⟩
  else if kernelImageBase ≤ va ∧ va < kernelImageBase + sizeOfImage / 4096 * 4096 then
    some ⟨image + (va - kernelImageBase), true, false⟩
  else none

/-- The tables. -/
def BootPages.tables (b : BootPages) : List ℕ :=
  [b.pml4, b.pdp1, b.pdp2, b.ptStack, b.pd1, b.pd2, b.ptKernel]

/-- What the allocator promises: whole pages that are apart. -/
structure BootPages.Allocated (b : BootPages) (image sizeOfImage : ℕ) : Prop where
  aligned : ∀ t ∈ b.stackPtr :: b.tables, t % 4096 = 0
  apart : (b.stackPtr :: b.tables).Nodup
  tables : ∀ t ∈ b.tables, t < 2 ^ 52
  stack : b.stackPtr + 32 * 4096 ≤ 2 ^ 52
  image_aligned : image % 4096 = 0
  image : image + sizeOfImage ≤ 2 ^ 52

variable {m : ℕ → ℕ} {b : BootPages} {image sizeOfImage va t u i j x flags : ℕ}

/-! ### Entries -/

theorem entry_setPageTable (ht : t % 4096 = 0) (hu : u % 4096 = 0) (hi : i < 512) (hj : j < 512) :
    entry (setPageTable m t i x flags) u j = if u = t ∧ j = i then x ||| flags else entry m u j := by
  rw [entry, setPageTable]
  split_ifs with h
  · obtain ⟨rfl, rfl⟩ := h
    exact Function.update_self _ _ _
  · exact Function.update_of_ne (by omega) _ _

theorem entry_clearPage (ht : t % 4096 = 0) (hu : u % 4096 = 0) (hj : j < 512) :
    entry (clearPage m t) u j = if u = t then 0 else entry m u j := by
  rw [entry, clearPage]
  split_ifs
  all_goals first
    | rfl
    | omega

theorem entry_fillTable (ht : t % 4096 = 0) (hu : u % 4096 = 0) {start n : ℕ} {f : ℕ → ℕ}
    (hn : start + n ≤ 512) (hj : j < 512) :
    entry (fillTable m t start f flags n) u j =
      if u = t ∧ start ≤ j ∧ j < start + n then f (j - start) ||| flags else entry m u j := by
  induction n with
  | zero =>
    rw [fillTable, if_neg (by omega)]
  | succ n ih =>
    rw [fillTable, entry_setPageTable ht hu (by omega) hj, ih (by omega)]
    by_cases hlast : u = t ∧ j = start + n
    · rw [if_pos hlast, if_pos (by omega), hlast.2, Nat.add_sub_cancel_left]
    · rw [if_neg hlast]
      by_cases hin : u = t ∧ start ≤ j ∧ j < start + n
      · rw [if_pos hin, if_pos (by omega)]
      · rw [if_neg hin, if_neg (by omega)]

/-- The tables after `MapHighHalf`. -/
structure BootTables (m : ℕ → ℕ) (b : BootPages) (image sizeOfImage : ℕ) : Prop where
  pml4 : ∀ j < 512, entry m b.pml4 j =
    if j = 511 then b.pdp2 ||| 0x03 else if j = 256 then b.pdp1 ||| 0x03
    else if j = 0 then b.pdp1 ||| 0x07 else 0
  pdp1 : ∀ j < 512, entry m b.pdp1 j = j <<< 30 ||| 0x87
  pdp2 : ∀ j < 512, entry m b.pdp2 j =
    if j = 510 then b.pd2 ||| 0x03 else if j = 509 then b.pd1 ||| 0x03 else 0
  pd1 : ∀ j < 512, entry m b.pd1 j = if j = 511 then b.ptStack ||| 0x03 else 0
  pd2 : ∀ j < 512, entry m b.pd2 j = if j = 0 then b.ptKernel ||| 0x03 else 0
  ptStack : ∀ j < 512, entry m b.ptStack j =
    if 480 ≤ j then (b.stackPtr + (j - 480) * 4096) ||| 0x03 else 0
  ptKernel : ∀ j < 512, entry m b.ptKernel j =
    if j < sizeOfImage / 4096 then (image + j * 4096) ||| 0x03 else 0

/-- The tables that `MapHighHalf` leaves. -/
theorem BootPages.Allocated.bootTables (h : b.Allocated image sizeOfImage)
    (hsize : sizeOfImage / 4096 ≤ 512) :
    BootTables (mapHighHalf m b image sizeOfImage) b image sizeOfImage := by
  obtain ⟨a0, a1, a2, a3, a4, a5, a6, a7⟩ : b.stackPtr % 4096 = 0 ∧ b.pml4 % 4096 = 0 ∧
      b.pdp1 % 4096 = 0 ∧ b.pdp2 % 4096 = 0 ∧ b.ptStack % 4096 = 0 ∧ b.pd1 % 4096 = 0 ∧
      b.pd2 % 4096 = 0 ∧ b.ptKernel % 4096 = 0 := by
    have hall := h.aligned
    simp only [BootPages.tables, List.forall_mem_cons] at hall
    tauto
  have hkernel : 0 + sizeOfImage / 4096 ≤ 512 := by omega
  -- the pages differ, in both directions
  have hapart := h.apart
  have hback := List.nodup_reverse.mpr h.apart
  simp only [BootPages.tables, List.reverse_cons, List.reverse_nil, List.nil_append, List.cons_append,
    List.nodup_cons, List.mem_cons, List.not_mem_nil, not_or, or_false] at hapart hback
  -- what is written to a page, the last write first
  have hall : ∀ u, u % 4096 = 0 → ∀ j, (hj : j < 512) → entry (mapHighHalf m b image sizeOfImage) u j = _ :=
    fun u hu j hj => by
      rw [mapHighHalf, entry_setPageTable a1 hu (by omega) hj, entry_setPageTable a3 hu (by omega) hj,
        entry_setPageTable a6 hu (by omega) hj, entry_fillTable a7 hu hkernel hj,
        entry_clearPage a7 hu hj, entry_clearPage a6 hu hj,
        entry_setPageTable a3 hu (by omega) hj, entry_setPageTable a5 hu (by omega) hj,
        entry_clearPage a5 hu hj, entry_fillTable a4 hu (by omega) hj,
        entry_clearPage a4 hu hj, entry_clearPage a3 hu hj, entry_clearPage a0 hu hj,
        entry_setPageTable a1 hu (by omega) hj, entry_setPageTable a1 hu (by omega) hj,
        entry_fillTable a2 hu (by omega) hj, entry_clearPage a2 hu hj,
        entry_clearPage a1 hu hj]
  refine ⟨fun j hj => ?_, fun j hj => ?_, fun j hj => ?_, fun j hj => ?_, fun j hj => ?_,
    fun j hj => ?_, fun j hj => ?_⟩
  · rw [hall _ a1 j hj]
    simp [hapart, hback]
  · rw [hall _ a2 j hj]
    simp [hapart, hback, hj]
  · rw [hall _ a3 j hj]
    simp [hapart, hback]
  · rw [hall _ a5 j hj]
    simp [hapart, hback]
  · rw [hall _ a6 j hj]
    simp [hapart, hback]
  · rw [hall _ a4 j hj]
    simp [hapart, hback, hj]
  · rw [hall _ a7 j hj]
    simp [hback]

/-! ### Walks -/

theorem frame_or (hx : x % 4096 = 0) (hlt : x < 2 ^ 52) (hflags : flags < 4096) :
    frame (x ||| flags) 12 = x := by
  rw [or_eq_add (k := 12) hx hflags, frame]
  omega

/-- The pages of low memory. -/
theorem frame_low (hi : i < 512) : frame (i <<< 30 ||| 0x87) 30 = i * 2 ^ 30 := by
  rw [Nat.shiftLeft_eq, or_eq_add (k := 12) (by omega) (by decide), frame]
  omega

theorem bits_or (flags : ℕ) (hx : x % 4096 = 0) (hflags : flags < 4096) :
    present (x ||| flags) = present flags ∧ writable (x ||| flags) = writable flags ∧
      user (x ||| flags) = user flags ∧ large (x ||| flags) = large flags := by
  rw [or_eq_add (k := 12) hx hflags]
  refine ⟨?_, ?_, ?_, ?_⟩
  · rw [present, present]
    congr 1
    omega
  · rw [writable, writable]
    congr 1
    omega
  · rw [user, user]
    congr 1
    omega
  · rw [large, large]
    congr 1
    omega

theorem canonical_iff : canonical va = true ↔ va < 2 ^ 47 ∨ 2 ^ 64 - 2 ^ 47 ≤ va ∧ va < 2 ^ 64 := by
  simp [canonical]

/-- Where the entry of a table that leads to another one leads. -/
theorem BootPages.Allocated.lead (h : b.Allocated image sizeOfImage) (hu : u ∈ b.tables)
    (hflags : flags = 0x03 ∨ flags = 0x07) :
    frame (u ||| flags) 12 = u ∧ present (u ||| flags) = true ∧ large (u ||| flags) = false ∧
      writable (u ||| flags) = true ∧ user (u ||| flags) = decide (flags = 0x07) := by
  have halign := h.aligned u (List.mem_cons_of_mem _ hu)
  have hlt := h.tables u hu
  obtain rfl | rfl := hflags
  · obtain ⟨hp, hw, hu, hl⟩ := bits_or 0x03 halign (by decide)
    rw [hp, hw, hu, hl, frame_or halign hlt (by decide)]
    exact ⟨rfl, by decide⟩
  · obtain ⟨hp, hw, hu, hl⟩ := bits_or 0x07 halign (by decide)
    rw [hp, hw, hu, hl, frame_or halign hlt (by decide)]
    exact ⟨rfl, by decide⟩

/-- Low memory, through either of its entries. -/
theorem translate_low (T : BootTables m b image sizeOfImage) (h : b.Allocated image sizeOfImage)
    (hva : canonical va = true) (hflags : flags = 0x03 ∨ flags = 0x07)
    (he : entry m b.pml4 (va / 2 ^ 39 % 512) = b.pdp1 ||| flags) :
    translate m b.pml4 va = some ⟨va % 2 ^ 39, true, decide (flags = 0x07)⟩ := by
  obtain ⟨hframe, hpresent, -, hwritable, huser⟩ := h.lead (u := b.pdp1) (by simp [BootPages.tables]) hflags
  have hi : va / 2 ^ 30 % 512 < 512 := Nat.mod_lt _ (by decide)
  obtain ⟨hp, hw, hus, hl⟩ := bits_or (x := (va / 2 ^ 30 % 512) <<< 30) 0x87
    (by rw [Nat.shiftLeft_eq]; omega) (by decide)
  simp only [translate, he, hframe, T.pdp1 _ hi, hva, hpresent, hp, hl, show present 0x87 = true by decide,
    show large 0x87 = true by decide, Bool.not_true, Bool.or_self, Bool.false_eq_true, if_false, if_true]
  have hpa : (va / 2 ^ 30 % 512) * 2 ^ 30 + va % 2 ^ 30 = va % 2 ^ 39 := by omega
  rw [leafOf, frame_low hi, hpa]
  simp only [List.all_cons, List.all_nil, hw, hus, hwritable, huser, Bool.and_true,
    show writable 0x87 = true by decide, show user 0x87 = true by decide, Bool.true_and]

/-- A page of the stack or of the kernel, or none. -/
theorem translate_page (T : BootTables m b image sizeOfImage) (h : b.Allocated image sizeOfImage)
    {pd pt : ℕ} (hpd : pd ∈ b.tables) (hpt : pt ∈ b.tables)
    (hva : canonical va = true) (h4 : va / 2 ^ 39 % 512 = 511)
    (h3 : entry m b.pdp2 (va / 2 ^ 30 % 512) = pd ||| 0x03)
    (h2 : entry m pd (va / 2 ^ 21 % 512) = pt ||| 0x03) :
    translate m b.pml4 va =
      if present (entry m pt (va / 2 ^ 12 % 512)) then
        some ⟨frame (entry m pt (va / 2 ^ 12 % 512)) 12 + va % 2 ^ 12,
          writable (entry m pt (va / 2 ^ 12 % 512)), false⟩
      else none := by
  obtain ⟨hf4, hp4, hl4, hw4, hu4⟩ := h.lead (u := b.pdp2) (by simp [BootPages.tables]) (.inl rfl)
  obtain ⟨hf3, hp3, hl3, hw3, hu3⟩ := h.lead hpd (.inl rfl)
  obtain ⟨hf2, hp2, hl2, hw2, hu2⟩ := h.lead hpt (.inl rfl)
  have he : entry m b.pml4 (va / 2 ^ 39 % 512) = b.pdp2 ||| 0x03 := by
    rw [T.pml4 _ (Nat.mod_lt _ (by decide)), if_pos h4]
  simp only [translate, he, hf4, h3, hf3, h2, hf2, hva, hp4, hp3, hp2, hl3, hl2, Bool.not_true,
    Bool.or_self, Bool.false_eq_true, if_false]
  cases present (entry m pt (va / 2 ^ 12 % 512))
  · rfl
  · simp [leafOf, hw4, hw3, hw2, hu2]

/-- An entry of the last tables. -/
theorem translate_none (T : BootTables m b image sizeOfImage) (h : b.Allocated image sizeOfImage)
    (hva : canonical va = true) (h4 : va / 2 ^ 39 % 512 = 511)
    (h3 : entry m b.pdp2 (va / 2 ^ 30 % 512) = 0 ∨ ∃ pd ∈ b.tables,
      entry m b.pdp2 (va / 2 ^ 30 % 512) = pd ||| 0x03 ∧ entry m pd (va / 2 ^ 21 % 512) = 0) :
    translate m b.pml4 va = none := by
  obtain ⟨hf4, hp4, hl4, hw4, hu4⟩ := h.lead (u := b.pdp2) (by simp [BootPages.tables]) (.inl rfl)
  have he : entry m b.pml4 (va / 2 ^ 39 % 512) = b.pdp2 ||| 0x03 := by
    rw [T.pml4 _ (Nat.mod_lt _ (by decide)), if_pos h4]
  have hzero : present 0 = false := by decide
  obtain h3 | ⟨pd, hpd, h3, h2⟩ := h3
  · simp only [translate, he, hf4, h3, hzero, Bool.not_false, Bool.or_true, if_true]
  · obtain ⟨hf3, hp3, hl3, -, -⟩ := h.lead hpd (.inl rfl)
    simp only [translate, he, hf4, h3, hf3, h2, hva, hp4, hp3, hl3, hzero, Bool.not_true, Bool.not_false,
      Bool.or_self, Bool.false_eq_true, if_false, if_true]

/-- The upper end of the addresses. -/
theorem translate_top (T : BootTables m b image sizeOfImage) (h : b.Allocated image sizeOfImage)
    (hsize : sizeOfImage / 4096 ≤ 512) (hva : canonical va = true) (h4 : va / 2 ^ 39 % 512 = 511) :
    translate m b.pml4 va = bootMap b image sizeOfImage va := by
  have hrange : 2 ^ 64 - 2 ^ 39 ≤ va ∧ va < 2 ^ 64 := by
    have hcan := canonical_iff.mp hva
    omega
  have hlow : ¬ va < 2 ^ 39 := by omega
  have hhigh : ¬ (highHalf ≤ va ∧ va < highHalf + 2 ^ 39) := by
    unfold highHalf
    omega
  have h3lt : va / 2 ^ 30 % 512 < 512 := Nat.mod_lt _ (by decide)
  have h2lt : va / 2 ^ 21 % 512 < 512 := Nat.mod_lt _ (by decide)
  have h1lt : va / 2 ^ 12 % 512 < 512 := Nat.mod_lt _ (by decide)
  have h3 := T.pdp2 _ h3lt
  rw [bootMap, if_neg hlow, if_neg hhigh, stackBase, kernelImageBase]
  by_cases hkernel : va / 2 ^ 30 % 512 = 510
  · have h2 := T.pd2 _ h2lt
    rw [if_pos hkernel] at h3
    rw [if_neg (by omega)]
    by_cases hfirst : va / 2 ^ 21 % 512 = 0
    · rw [if_pos hfirst] at h2
      rw [translate_page T h (by simp [BootPages.tables]) (by simp [BootPages.tables]) hva h4 h3 h2,
        T.ptKernel _ h1lt]
      by_cases hin : va / 2 ^ 12 % 512 < sizeOfImage / 4096
      · have halign := h.image_aligned
        have himage := h.image
        have hx : (image + va / 2 ^ 12 % 512 * 4096) % 4096 = 0 := by omega
        obtain ⟨hp, hw, -, -⟩ := bits_or 0x03 hx (by decide)
        rw [if_pos hin, hp, hw, frame_or hx (by omega) (by decide), if_pos (by decide), if_pos (by omega)]
        simp only [Option.some.injEq, Mapping.mk.injEq, show writable 0x03 = true by decide, and_self,
          and_true]
        omega
      · rw [if_neg hin, if_neg (by decide), if_neg (by omega)]
    · rw [if_neg hfirst] at h2
      rw [translate_none T h hva h4 (.inr ⟨_, by simp [BootPages.tables], h3, h2⟩), if_neg (by omega)]
  · rw [if_neg hkernel] at h3
    by_cases hstack : va / 2 ^ 30 % 512 = 509
    · have h2 := T.pd1 _ h2lt
      rw [if_pos hstack] at h3
      by_cases hlast : va / 2 ^ 21 % 512 = 511
      · rw [if_pos hlast] at h2
        rw [translate_page T h (by simp [BootPages.tables]) (by simp [BootPages.tables]) hva h4 h3 h2,
          T.ptStack _ h1lt]
        by_cases hin : 480 ≤ va / 2 ^ 12 % 512
        · have halign := h.aligned b.stackPtr List.mem_cons_self
          have hend := h.stack
          have hx : (b.stackPtr + (va / 2 ^ 12 % 512 - 480) * 4096) % 4096 = 0 := by omega
          obtain ⟨hp, hw, -, -⟩ := bits_or 0x03 hx (by decide)
          rw [if_pos hin, hp, hw, frame_or hx (by omega) (by decide), if_pos (by decide), if_pos (by omega)]
          simp only [Option.some.injEq, Mapping.mk.injEq, show writable 0x03 = true by decide, and_self,
            and_true]
          omega
        · rw [if_neg hin, if_neg (by decide), if_neg (by omega), if_neg (by omega)]
      · rw [if_neg hlast] at h2
        rw [translate_none T h hva h4 (.inr ⟨_, by simp [BootPages.tables], h3, h2⟩), if_neg (by omega),
          if_neg (by omega)]
    · rw [if_neg hstack] at h3
      rw [translate_none T h hva h4 (.inl h3), if_neg (by omega), if_neg (by omega)]

/-- Memory with the tables. -/
theorem BootTables.translate_eq (T : BootTables m b image sizeOfImage) (h : b.Allocated image sizeOfImage)
    (hsize : sizeOfImage / 4096 ≤ 512) (va : ℕ) :
    translate m b.pml4 va = bootMap b image sizeOfImage va := by
  by_cases hva : canonical va = true
  · have hcan := canonical_iff.mp hva
    have h4 := T.pml4 _ (Nat.mod_lt (va / 2 ^ 39) (by decide))
    by_cases htop : va / 2 ^ 39 % 512 = 511
    · exact translate_top T h hsize hva htop
    rw [if_neg htop] at h4
    by_cases hhigh : va / 2 ^ 39 % 512 = 256
    · rw [if_pos hhigh] at h4
      rw [translate_low T h hva (.inl rfl) h4, bootMap, highHalf, if_neg (by omega), if_pos (by omega)]
      simp only [Option.some.injEq, Mapping.mk.injEq, true_and]
      exact ⟨by omega, by decide⟩
    rw [if_neg hhigh] at h4
    by_cases hlow : va / 2 ^ 39 % 512 = 0
    · rw [if_pos hlow] at h4
      rw [translate_low T h hva (.inr rfl) h4, bootMap, if_pos (by omega), Nat.mod_eq_of_lt (by omega)]
      rfl
    · rw [if_neg hlow] at h4
      have hzero : present 0 = false := by decide
      rw [bootMap, highHalf, stackBase, kernelImageBase, if_neg (by omega), if_neg (by omega),
        if_neg (by omega), if_neg (by omega)]
      simp only [translate, h4, hzero, Bool.not_false, Bool.or_true, Bool.true_or, if_true]
  · have hcan := mt canonical_iff.mpr hva
    rw [bootMap, highHalf, stackBase, kernelImageBase, if_neg (by omega), if_neg (by omega),
      if_neg (by omega), if_neg (by omega)]
    simp only [translate, Bool.eq_false_iff.mpr hva, Bool.not_false, Bool.true_or, if_true]

/-- **The map of the boot loader**, for every address. -/
theorem translate_mapHighHalf (h : b.Allocated image sizeOfImage) (hsize : sizeOfImage / 4096 ≤ 512)
    (va : ℕ) :
    translate (mapHighHalf m b image sizeOfImage) b.pml4 va = bootMap b image sizeOfImage va :=
  (h.bootTables hsize).translate_eq h hsize va

/-! ### The walk of the kernel -/

/-- What the kernel finds at an address. -/
def seen (m : ℕ → ℕ) (cr3 a : ℕ) : ℕ := (translate m cr3 a).elim 0 fun t => m t.pa

/-- The physical address in the result of a walk. -/
def walked : Option Mapping → Except XTResult ℕ
  | some t => .ok t.pa
  | none => .error .notFound

theorem present_iff (e : ℕ) : present e = false ↔ e &&& pPresent = 0 := by
  rw [and_pPresent, present]
  simp

theorem large_iff (e : ℕ) : large e = true ↔ e &&& pPS ≠ 0 := by
  rw [ne_eq, and_pPS, large]
  simp

/-- The address of a leaf whose bits in front of the address of its page are clear. -/
theorem leaf_or {e k va : ℕ} (hk : k = 12 ∨ k = 21 ∨ k = 30) (he : frame e 12 % 2 ^ k = 0) :
    frame e 12 ||| (va &&& (2 ^ k - 1)) = frame e k + va % 2 ^ k := by
  rw [Nat.and_two_pow_sub_one_eq_mod, or_eq_add he (Nat.mod_lt _ (Nat.two_pow_pos k))]
  unfold frame at he ⊢
  obtain rfl | rfl | rfl := hk
  · rfl
  · omega
  · omega

/-- Tables, by the number of levels from them down, that a walk reads as they are and cannot leave, and
    whose large pages are aligned. -/
structure Readable (mem m : ℕ → ℕ) (level : ℕ → Set ℕ) : Prop where
  read : ∀ n, ∀ t ∈ level n, ∀ i, mem (entryAddr (higherHalfMem t) i) = entry m t i
  next : ∀ n, 2 ≤ n → n ≤ 4 → ∀ t ∈ level n, ∀ i < 512, present (entry m t i) = true →
    n = 4 ∨ large (entry m t i) = false → frame (entry m t i) 12 ∈ level (n - 1)
  aligned : ∀ n, n = 2 ∨ n = 3 → ∀ t ∈ level n, ∀ i < 512, present (entry m t i) = true →
    large (entry m t i) = true → frame (entry m t i) 12 % 2 ^ (9 * n + 3) = 0

/-- `xtGetPhysicalAddress` agrees with the processor where it reads the tables as they are. -/
theorem xtGetPhysicalAddress_eq {mem : ℕ → ℕ} {level : ℕ → Set ℕ} {cr3 : ℕ} (h : Readable mem m level)
    (hroot : cr3 ∈ level 4) (hcr3 : cr3 ≠ 0) (hva : canonical va = true) :
    xtGetPhysicalAddress mem cr3 va = walked (translate m cr3 va) := by
  have hlt : ∀ k, va / 2 ^ k % 512 < 512 := fun k => Nat.mod_lt _ (by decide)
  have hread : ∀ n, ∀ t ∈ level n, ∀ k, mem (entryAddr (higherHalfMem t) (index va k)) =
      entry m t (va / 2 ^ k % 512) := fun n t ht k => by rw [h.read n t ht, index_val]
  have hframe : ∀ e, e &&& addrMask = frame e 12 := and_addrMask
  have hpresent : ∀ e, present e = true → ¬ e &&& pPresent = 0 := fun e he hzero => by
    rw [(present_iff e).mpr hzero] at he
    exact absurd he (by decide)
  have hsmall : ∀ e, large e = false → ¬ e &&& pPS ≠ 0 := fun e he hne => by
    rw [(large_iff e).mpr hne] at he
    exact absurd he (by decide)
  simp only [xtGetPhysicalAddress, translate, hframe, if_neg hcr3, hread 4 cr3 hroot, hva, Bool.not_true,
    Bool.false_or]
  generalize he4 : entry m cr3 (va / 2 ^ 39 % 512) = e4
  cases hp4 : present e4
  · rw [if_pos ((present_iff e4).mp hp4)]
    rfl
  have ht3 := h.next 4 (by decide) le_rfl cr3 hroot _ (hlt 39) (by rw [he4]; exact hp4) (.inl rfl)
  rw [he4] at ht3
  rw [if_neg (hpresent e4 hp4), hread 3 _ ht3]
  generalize he3 : entry m (frame e4 12) (va / 2 ^ 30 % 512) = e3
  cases hp3 : present e3
  · rw [if_pos ((present_iff e3).mp hp3)]
    rfl
  rw [if_neg (hpresent e3 hp3)]
  cases hl3 : large e3
  case true =>
    have halign := h.aligned 3 (.inr rfl) _ ht3 _ (hlt 30) (by rw [he3]; exact hp3)
      (by rw [he3]; exact hl3)
    rw [he3] at halign
    rw [if_pos ((large_iff e3).mp hl3), leaf_or (.inr (.inr rfl)) halign]
    rfl
  have ht2 := h.next 3 (by decide) (by decide) _ ht3 _ (hlt 30) (by rw [he3]; exact hp3)
    (.inr (by rw [he3]; exact hl3))
  rw [he3] at ht2
  rw [if_neg (hsmall e3 hl3), hread 2 _ ht2]
  generalize he2 : entry m (frame e3 12) (va / 2 ^ 21 % 512) = e2
  cases hp2 : present e2
  · rw [if_pos ((present_iff e2).mp hp2)]
    rfl
  rw [if_neg (hpresent e2 hp2)]
  cases hl2 : large e2
  case true =>
    have halign := h.aligned 2 (.inl rfl) _ ht2 _ (hlt 21) (by rw [he2]; exact hp2)
      (by rw [he2]; exact hl2)
    rw [he2] at halign
    rw [if_pos ((large_iff e2).mp hl2), leaf_or (.inr (.inl rfl)) halign]
    rfl
  have ht1 := h.next 2 le_rfl (by decide) _ ht2 _ (hlt 21) (by rw [he2]; exact hp2)
    (.inr (by rw [he2]; exact hl2))
  rw [he2] at ht1
  rw [if_neg (hsmall e2 hl2), hread 1 _ ht1]
  generalize he1 : entry m (frame e2 12) (va / 2 ^ 12 % 512) = e1
  cases hp1 : present e1
  · rw [if_pos ((present_iff e1).mp hp1)]
    rfl
  rw [if_neg (hpresent e1 hp1), leaf_or (.inl rfl) (by unfold frame; omega)]
  rfl

theorem higherHalfMem_eq {a : ℕ} (ha : a < 2 ^ 47) : higherHalfMem a = highHalf + a := by
  rw [higherHalfMem, Nat.or_comm]
  exact or_eq_add (k := 47) (by decide) ha

/-- The kernel finds low memory at the addresses of the high half. -/
theorem seen_highHalf (h : b.Allocated image sizeOfImage) (hsize : sizeOfImage / 4096 ≤ 512)
    {a : ℕ} (ha : a < 2 ^ 39) :
    seen (mapHighHalf m b image sizeOfImage) b.pml4 (higherHalfMem a) =
      mapHighHalf m b image sizeOfImage a := by
  rw [seen, (h.bootTables hsize).translate_eq h hsize, higherHalfMem_eq (by omega), bootMap, highHalf, if_neg (by omega), if_pos (by omega),
    Option.elim_some, Nat.add_sub_cancel_left]

/-- The tables by their levels. -/
def BootPages.level (b : BootPages) : ℕ → Set ℕ
  | 4 => {b.pml4}
  | 3 => {b.pdp1, b.pdp2}
  | 2 => {b.pd1, b.pd2}
  | 1 => {b.ptStack, b.ptKernel}
  | _ => ∅


theorem BootPages.level_subset (b : BootPages) {n t : ℕ} (ht : t ∈ b.level n) : t ∈ b.tables := by
  obtain _ | _ | _ | _ | _ | n := n
  · exact absurd ht (Set.notMem_empty t)
  · obtain rfl | rfl := ht <;> simp [BootPages.tables]
  · obtain rfl | rfl := ht <;> simp [BootPages.tables]
  · obtain rfl | rfl := ht <;> simp [BootPages.tables]
  · obtain rfl := ht
    simp [BootPages.tables]
  · exact absurd ht (Set.notMem_empty t)

/-- The entries that lead from one level to the next. -/
theorem BootTables.next (T : BootTables m b image sizeOfImage) (h : b.Allocated image sizeOfImage) {n : ℕ}
    (ht : t ∈ b.level n) (hn : 2 ≤ n) (hi : i < 512) (hp : present (entry m t i) = true) :
    large (entry m t i) = false ∧ frame (entry m t i) 12 ∈ b.level (n - 1) ∨
      n = 3 ∧ large (entry m t i) = true ∧ frame (entry m t i) 12 % 2 ^ 30 = 0 := by
  have hlead : ∀ u ∈ b.tables, ∀ flags, flags = 0x03 ∨ flags = 0x07 → u ∈ b.level (n - 1) →
      large (u ||| flags) = false ∧ frame (u ||| flags) 12 ∈ b.level (n - 1) := by
    intro u hu flags hflags hlevel
    obtain ⟨hframe, -, hl, -, -⟩ := h.lead hu hflags
    exact ⟨hl, by rw [hframe]; exact hlevel⟩
  have hzero : present 0 ≠ true := by decide
  obtain _ | _ | _ | _ | _ | n := n
  · omega
  · omega
  · left
    obtain rfl | rfl := ht
    · rw [T.pd1 i hi] at hp ⊢
      split_ifs at hp ⊢
      · exact hlead _ (by simp [BootPages.tables]) _ (.inl rfl) (.inl rfl)
      · exact absurd hp hzero
    · rw [T.pd2 i hi] at hp ⊢
      split_ifs at hp ⊢
      · exact hlead _ (by simp [BootPages.tables]) _ (.inl rfl) (.inr rfl)
      · exact absurd hp hzero
  · obtain rfl | rfl := ht
    · -- the pages of low memory
      right
      have hx : i * 2 ^ 30 % 4096 = 0 := by omega
      obtain ⟨-, -, -, hl⟩ := bits_or 0x87 hx (by decide)
      rw [T.pdp1 i hi, Nat.shiftLeft_eq, hl, frame_or hx (by omega) (by decide)]
      exact ⟨rfl, by decide, Nat.mul_mod_left _ _⟩
    · left
      rw [T.pdp2 i hi] at hp ⊢
      split_ifs at hp ⊢
      · exact hlead _ (by simp [BootPages.tables]) _ (.inl rfl) (.inr rfl)
      · exact hlead _ (by simp [BootPages.tables]) _ (.inl rfl) (.inl rfl)
      · exact absurd hp hzero
  · left
    obtain rfl := ht
    rw [T.pml4 i hi] at hp ⊢
    split_ifs at hp ⊢
    · exact hlead _ (by simp [BootPages.tables]) _ (.inl rfl) (.inr rfl)
    · exact hlead _ (by simp [BootPages.tables]) _ (.inl rfl) (.inl rfl)
    · exact hlead _ (by simp [BootPages.tables]) _ (.inr rfl) (.inl rfl)
    · exact absurd hp hzero
  · exact absurd ht (Set.notMem_empty t)

/-- The kernel reads the tables of the boot loader as they are. -/
theorem readable_mapHighHalf (h : b.Allocated image sizeOfImage) (hsize : sizeOfImage / 4096 ≤ 512)
    (hlow : ∀ t ∈ b.tables, t < 2 ^ 39) :
    Readable (seen (mapHighHalf m b image sizeOfImage) b.pml4) (mapHighHalf m b image sizeOfImage)
      b.level where
  read n t ht i := by
    have hmem := b.level_subset ht
    have halign := h.aligned t (List.mem_cons_of_mem _ hmem)
    have hlt := hlow t hmem
    have hi := i.isLt
    rw [entry, ← seen_highHalf h hsize (a := t + 8 * i) (by omega), entryAddr, higherHalfMem_eq (by omega),
      higherHalfMem_eq (by omega), Nat.add_assoc]
  next n hn _ t ht i hi hp hl := by
    obtain ⟨-, hnext⟩ | ⟨rfl, hlarge, -⟩ := (h.bootTables hsize).next h ht hn hi hp
    · exact hnext
    · rw [hlarge] at hl
      exact absurd hl (by decide)
  aligned n hn t ht i hi hp hl := by
    obtain ⟨hlarge, -⟩ | ⟨rfl, -, halign⟩ := (h.bootTables hsize).next h ht (by omega) hi hp
    · rw [hl] at hlarge
      exact absurd hlarge (by decide)
    · exact halign

/-- **The walk of the kernel** over the tables that it was started with. -/
theorem xtGetPhysicalAddress_boot (h : b.Allocated image sizeOfImage) (hsize : sizeOfImage / 4096 ≤ 512)
    (hlow : ∀ t ∈ b.tables, t < 2 ^ 39) (hpml4 : b.pml4 ≠ 0) (hva : canonical va = true) :
    xtGetPhysicalAddress (seen (mapHighHalf m b image sizeOfImage) b.pml4) b.pml4 va =
      walked (bootMap b image sizeOfImage va) := by
  rw [← (h.bootTables hsize).translate_eq h hsize]
  exact xtGetPhysicalAddress_eq (readable_mapHighHalf h hsize hlow) rfl hpml4 hva

/-! ### A machine -/

/-- The pages from 1 MiB on, and the stack behind them. -/
def firstPages : BootPages :=
  ⟨0x100000, 0x101000, 0x110000, 0x102000, 0x103000, 0x104000, 0x105000, 0x106000⟩

theorem firstPages_allocated : firstPages.Allocated 0x200000 0x50000 :=
  ⟨by decide, by decide, by decide, by decide, by decide, by decide⟩

/-- The entry of an image of 80 pages, for the processor, in a memory full of ones. -/
theorem firstPages_translate :
    translate (mapHighHalf (fun _ => 2 ^ 64 - 1) firstPages 0x200000 0x50000) 0x100000
      0xffffffff80001000 = some ⟨0x201000, true, false⟩ :=
  translate_mapHighHalf firstPages_allocated (by decide) _

/-- The same for the kernel, and a page behind the image. -/
theorem firstPages_walk :
    xtGetPhysicalAddress
      (seen (mapHighHalf (fun _ => 2 ^ 64 - 1) firstPages 0x200000 0x50000) 0x100000) 0x100000
      0xffffffff80050000 = .error .notFound :=
  xtGetPhysicalAddress_boot firstPages_allocated (by decide) (by decide) (by decide) (by decide)

end XTOS.Boot

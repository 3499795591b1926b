import XTOS.Heap.Requests
import XTOS.PageAlloc

/-!
# A heap without room

The whole of `xtHeapAlloc` in `xtkernel/memory.c`: the search through the registered heaps,
and what it does when no block fits. Then it takes pages, prepares a heap in them and calls
itself.

## Main definitions

- `Memory` — the kernel memory, the registered heaps and the list of free pages
- `allocOnce` — one call up to its end or to the call that it makes itself
- `alloc` — the calls one inside the other
- `Grows` — a request that no heap serves gets a heap of its own, or fails

## Main results

- `grows_iff` — a request that no heap serves is handled exactly if there are no pages

## Design notes

The pages that are handed out hold no entry and no node of the list of free pages.
-/

namespace XTOS.Heap

open SysLib

/-- The memory, the starts of the heaps in the list `heaps`, and the free pages. -/
structure Memory where
  mem : Mem
  heaps : List ℕ
  pages : PageAlloc.State

/-- The search of `xtHeapAlloc` through the heaps. -/
def searchHeaps (fuel : ℕ) (m : Mem) (size : ℕ) : List ℕ → Option (Option (Mem × ℕ))
  | [] => some none
  | heapStart :: heaps =>
    match xtHeapAlloc fuel m heapStart size with
    | none => none
    | some (some r) => some (some r)
    | some none => searchHeaps fuel m size heaps

/-- The body of both loops of `xtAllocatePages`. A node whose range is used up is a block of
    the heap and goes back to it. -/
def Memory.takePages (s : Memory) (prev i size : ℕ) : Memory × ℕ :=
  let (pages, out) := PageAlloc.takePages s.pages prev i size
  let mem := if (s.pages.entry i).length - size = 0 then (xtHeapFree s.mem i).1 else s.mem
  ({ s with mem := mem, pages := pages }, out)

/-- `xtAllocatePages`. -/
def Memory.xtAllocatePages (fuel : ℕ) (s : Memory) (ptr size : ℕ) :
    Option (Memory × Except XTResult ℕ) := do
  let size := PageAlloc.carvedSize size
  let (prev, i) ← s.pages.findNode fuel fun e => e.start = ptr ∧ size ≤ e.length
  if i ≠ 0 then
    let (s', out) := s.takePages prev i size
    return (s', .ok out)
  let (prev, i) ← s.pages.findNode fuel fun e => size ≤ e.length
  if i ≠ 0 then
    let (s', out) := s.takePages prev i size
    return (s', .ok out)
  return (s, .error .outOfMemory)

/-- `page_needed_size`: the condition is the number `0x4000`, so the value is that of the
    comparison behind it. -/
def pageNeededSize (size : ℕ) : ℕ := if neededSize size < 0x4000 then 1 else 0

/-- `HIGHER_MEM`. -/
def higherMem (x : ℕ) : ℕ := x ||| 0xffff800000000000

/-- The heap that is prepared in new pages: `XTHeap` in front, then the first block. -/
def setupHeap (m : Mem) (pageRaw : ℕ) : Mem :=
  let dataStart := mask16 ((pageRaw + 16 + 15) % 2 ^ 64)
  let size := (0x4000 + 2 ^ 64 - (dataStart + 2 ^ 64 - pageRaw) % 2 ^ 64) % 2 ^ 64
  xtHeapSetupBlock (storeLE (storeLE m pageRaw 8 dataStart) (pageRaw + 8) 8 size) dataStart size

/-- How a call ends: it returns, or it calls itself. -/
inductive Ends where
  | returns (s : Memory) (r : Except XTResult ℕ)
  | recurses (s : Memory) (size : ℕ)

/-- One call of `xtHeapAlloc`. -/
def allocOnce (fuel : ℕ) (s : Memory) (size : ℕ) : Option Ends :=
  match searchHeaps fuel s.mem size s.heaps with
  | none => none
  | some (some (m, ptr)) => some (.returns { s with mem := m } (.ok ptr))
  | some none =>
    match s.xtAllocatePages fuel 0 (pageNeededSize size) with
    | none => none
    | some (s', .error r) => some (.returns s' (.error r))
    | some (s', .ok page) =>
      some (.recurses { s' with mem := setupHeap s'.mem (higherMem page) }
        (mask16 ((size + 15) % 2 ^ 64)))

/-- `xtHeapAlloc` with at most `depth` calls. -/
def alloc (fuel : ℕ) : ℕ → Memory → ℕ → Option (Memory × Except XTResult ℕ)
  | 0, _, _ => none
  | depth + 1, s, size =>
    match allocOnce fuel s size with
    | none => none
    | some (.returns s' r) => some (s', r)
    | some (.recurses s' size') => alloc fuel depth s' size'

/-- A heap that was not registered before holds the pointer as one to `size` bytes. -/
def InNewHeap (s s' : Memory) (size ptr : ℕ) : Prop :=
  ∃ h ∈ s'.heaps, h ∉ s.heaps ∧ ∃ total bs, Tiled s'.mem h total bs ∧ (ptr, size) ∈ livePtrs h bs

/-- A heap that was not registered before has a block for the request. -/
def NewBlock (s s' : Memory) (size : ℕ) : Prop :=
  ∃ h ∈ s'.heaps, h ∉ s.heaps ∧ ∃ fuel r, xtHeapAlloc fuel s'.mem h size = some (some r)

/-- A request that no heap serves: the call ends, with a pointer into a new heap or with an
    error and the heaps as they were, and it calls itself only for a new heap that serves the
    request. -/
structure Grows (s : Memory) (size : ℕ) : Prop where
  ends : ∃ fuel depth s' r, alloc fuel depth s size = some (s', r) ∧
    match r with
    | .ok ptr => InNewHeap s s' size ptr
    | .error _ => s'.heaps = s.heaps
  recursion : ∀ fuel s' size', allocOnce fuel s size = some (.recurses s' size') →
    NewBlock s s' size'

/-! ### The free pages -/

/-- The list of pages changes as the model of the page allocator alone says. -/
theorem xtAllocatePages_pages (fuel : ℕ) (s : Memory) (ptr size : ℕ) :
    (s.xtAllocatePages fuel ptr size).map (fun out => (out.1.pages, out.2)) =
      PageAlloc.xtAllocatePages fuel s.pages ptr size := by
  simp only [Memory.xtAllocatePages, PageAlloc.xtAllocatePages, Option.bind_eq_bind]
  cases s.pages.findNode fuel _ with
  | none => rfl
  | some found =>
    obtain ⟨prev, i⟩ := found
    simp only [Option.bind_some]
    by_cases hi : i = 0
    · simp only [hi, ne_eq, not_true_eq_false, if_false]
      cases s.pages.findNode fuel _ with
      | none => rfl
      | some found =>
        obtain ⟨prev', j⟩ := found
        simp only [Option.bind_some]
        by_cases hj : j = 0
        · simp [hj]
        · simp [hj, Memory.takePages]
    · simp [hi, Memory.takePages]

theorem xtAllocatePages_heaps {fuel : ℕ} {s s' : Memory} {ptr size : ℕ} {r : Except XTResult ℕ}
    (h : s.xtAllocatePages fuel ptr size = some (s', r)) : s'.heaps = s.heaps := by
  simp only [Memory.xtAllocatePages, Option.bind_eq_bind, Option.bind_eq_some_iff] at h
  obtain ⟨⟨prev, i⟩, -, h⟩ := h
  split_ifs at h
  · obtain ⟨rfl, -⟩ := Prod.mk.inj (Option.some.inj h)
    rfl
  obtain ⟨⟨prev', j⟩, -, h⟩ := Option.bind_eq_some_iff.mp h
  split_ifs at h
  · obtain ⟨rfl, -⟩ := Prod.mk.inj (Option.some.inj h)
    rfl
  · obtain ⟨rfl, -⟩ := Prod.mk.inj (Option.some.inj h)
    rfl

/-- The page allocator fails exactly if no range is as large as the request. -/
theorem allocatePages_error_iff {s s' : PageAlloc.State} {xs : List ℕ}
    (h : PageAlloc.Listed s xs) {fuel ptr size : ℕ} {r : Except XTResult ℕ}
    (hcall : PageAlloc.xtAllocatePages fuel s ptr size = some (s', r)) :
    (∃ e, r = .error e) ↔ ∀ x ∈ xs, (s.entry x).length < PageAlloc.carvedSize size := by
  constructor
  · rintro ⟨e, rfl⟩
    simp only [PageAlloc.xtAllocatePages, Option.bind_eq_bind, Option.bind_eq_some_iff] at hcall
    obtain ⟨⟨prev, i⟩, -, hcall⟩ := hcall
    split_ifs at hcall with hi
    · cases hcall
    obtain ⟨⟨prev', j⟩, hfind, hcall⟩ := Option.bind_eq_some_iff.mp hcall
    split_ifs at hcall with hj
    · cases hcall
    -- the second search passed all nodes
    obtain ⟨pre, post, rfl, -, hjp, hpre, -⟩ := h.findNode hfind
    simp only [decide_eq_false_iff_not, not_le] at hpre
    cases post with
    | nil => simpa using hpre
    | cons y post =>
      have hy := h.linked.ne_null y (by simp)
      rw [List.headD_cons] at hjp
      rw [hjp] at hj
      exact absurd hy hj
  · intro hsmall
    obtain ⟨pre, i, post, rfl, hserves, -, -⟩ | ⟨-, hr⟩ := h.allocate_cases hcall
    · have := hsmall i (by simp)
      have := hserves.1
      omega
    · exact ⟨_, hr⟩

/-! ### A request that no heap serves -/

theorem xtHeapAlloc_mono {fuel fuel' : ℕ} (hle : fuel ≤ fuel') {m : Mem} {start size : ℕ}
    {r : Option (Mem × ℕ)} (h : xtHeapAlloc fuel m start size = some r) :
    xtHeapAlloc fuel' m start size = some r := by
  simp only [xtHeapAlloc] at h ⊢
  cases hscan : scan 0 (fun b => (entryAt m b).next)
      (fun b => (entryAt m b).used = 0 ∧ neededSize size ≤ (entryAt m b).size) fuel 0 start with
  | none =>
    rw [hscan] at h
    cases h
  | some found =>
    rw [hscan] at h
    rw [scan_mono hle hscan]
    exact h

theorem searchHeaps_mono {fuel fuel' : ℕ} (hle : fuel ≤ fuel') {m : Mem} {size : ℕ}
    {heaps : List ℕ} {r : Option (Mem × ℕ)} (h : searchHeaps fuel m size heaps = some r) :
    searchHeaps fuel' m size heaps = some r := by
  induction heaps with
  | nil => exact h
  | cons heapStart heaps ih =>
    rw [searchHeaps] at h ⊢
    cases halloc : xtHeapAlloc fuel m heapStart size with
    | none =>
      rw [halloc] at h
      cases h
    | some found =>
      rw [halloc] at h
      rw [xtHeapAlloc_mono hle halloc]
      cases found with
      | none => exact ih h
      | some r' => exact h

/-- What a call does with a request that no heap serves. -/
theorem allocOnce_full {fuel : ℕ} {s : Memory} {size : ℕ}
    (hfull : searchHeaps fuel s.mem size s.heaps = some none) :
    allocOnce fuel s size =
      match s.xtAllocatePages fuel 0 (pageNeededSize size) with
      | none => none
      | some (s', .error r) => some (.returns s' (.error r))
      | some (s', .ok page) =>
        some (.recurses { s' with mem := setupHeap s'.mem (higherMem page) }
          (mask16 ((size + 15) % 2 ^ 64))) := by
  rw [allocOnce, hfull]

/-- A call that calls itself got pages. -/
theorem allocOnce_recurses {fuel : ℕ} {s s' : Memory} {size size' : ℕ}
    (h : allocOnce fuel s size = some (.recurses s' size')) :
    ∃ t page, s.xtAllocatePages fuel 0 (pageNeededSize size) = some (t, .ok page) := by
  rw [allocOnce] at h
  split at h
  · cases h
  · cases h
  split at h
  · cases h
  · cases h
  · rename_i t page ht
    exact ⟨t, page, ht⟩

/-- With enough fuel the search and the page allocator both end, and the latter fails exactly if
    no range is as long as what it is asked for. -/
theorem xtAllocatePages_ends {s : Memory} {xs : List ℕ} (hlist : PageAlloc.Listed s.pages xs)
    {size fuel : ℕ} (hfull : searchHeaps fuel s.mem size s.heaps = some none) :
    ∃ fuel' s' r, searchHeaps fuel' s.mem size s.heaps = some none ∧
      s.xtAllocatePages fuel' 0 (pageNeededSize size) = some (s', r) ∧ s'.heaps = s.heaps ∧
      ((∃ e, r = .error e) ↔ ∀ x ∈ xs,
        (s.pages.entry x).length < PageAlloc.carvedSize (pageNeededSize size)) := by
  obtain ⟨⟨pages, r⟩, hpages⟩ := Option.isSome_iff_exists.mp (hlist.chain.returns
    (le_max_right fuel (xs.length + 1)) 0 (pageNeededSize size) 0 0).1
  have hcall := xtAllocatePages_pages (max fuel (xs.length + 1)) s 0 (pageNeededSize size)
  rw [hpages] at hcall
  obtain ⟨⟨s', r'⟩, hs', heq⟩ := Option.map_eq_some_iff.mp hcall
  obtain ⟨rfl, rfl⟩ := Prod.mk.inj heq
  exact ⟨_, s', r', searchHeaps_mono (le_max_left fuel (xs.length + 1)) hfull, hs',
    xtAllocatePages_heaps hs', allocatePages_error_iff hlist hpages⟩

/-- Without pages no call calls itself. -/
theorem not_recurses_of_noPages {s t : Memory} {xs : List ℕ}
    (hlist : PageAlloc.Listed s.pages xs) {size fuel n : ℕ} (hsmall : ∀ x ∈ xs,
      (s.pages.entry x).length < PageAlloc.carvedSize (pageNeededSize size)) :
    allocOnce fuel s size ≠ some (.recurses t n) := by
  intro hrec
  obtain ⟨t', page, ht⟩ := allocOnce_recurses hrec
  have hpages := xtAllocatePages_pages fuel s 0 (pageNeededSize size)
  rw [ht, Option.map_some] at hpages
  obtain ⟨e, he⟩ := (allocatePages_error_iff hlist hpages.symm).mpr hsmall
  cases he

/-- **A full heap**: a request that no registered heap serves is handled as it should be exactly
    if the call of `xtAllocatePages` fails: no free range has one byte for a request below 16
    KiB, no free range is left for a larger one. -/
theorem grows_iff {s : Memory} {xs : List ℕ} (hlist : PageAlloc.Listed s.pages xs) {size fuel : ℕ}
    (hfull : searchHeaps fuel s.mem size s.heaps = some none) :
    Grows s size ↔ ∀ x ∈ xs,
      (s.pages.entry x).length < PageAlloc.carvedSize (pageNeededSize size) := by
  obtain ⟨fuel', s', r, hsearch, hs', hheaps, hiff⟩ := xtAllocatePages_ends hlist hfull
  have honce := allocOnce_full hsearch
  rw [hs'] at honce
  rw [← hiff]
  constructor
  · intro hgrows
    cases r with
    | error e => exact ⟨e, rfl⟩
    | ok page =>
      obtain ⟨h, hmem, hnew, -⟩ := hgrows.recursion _ _ _ honce
      exact absurd (hheaps ▸ hmem) hnew
  · rintro ⟨e, rfl⟩
    refine ⟨⟨fuel', 1, s', .error e, ?_, hheaps⟩, fun fuel'' t n hrec => ?_⟩
    · rw [alloc, honce]
    · exact absurd hrec (not_recurses_of_noPages hlist (hiff.mp ⟨e, rfl⟩))

/-- The fresh heap with this list of pages. -/
def freshMemory (pages : PageAlloc.State) : Memory :=
  ⟨freshHeap.mem, [freshHeap.heapStart], pages⟩

/-- A list without pages. -/
def noPages : PageAlloc.State := { PageAlloc.sixPages.state with memoryDescs := 0 }

/-- A request for 64 KiB when no page is free. -/
theorem grows_without_pages : Grows (freshMemory noPages) 0x10000 := by
  have hlist : PageAlloc.Listed (freshMemory noPages).pages [] :=
    ⟨rfl, by simp, by simp, List.nodup_nil, by simp⟩
  have hfull : searchHeaps 2 (freshMemory noPages).mem 0x10000 (freshMemory noPages).heaps =
      some none := rfl
  exact (grows_iff hlist hfull).mpr (by simp)

/-- A request for 64 KiB with six free pages: the call takes none of them, registers no heap and
    calls itself. -/
theorem recursion_without_block :
    (∃ s' size', allocOnce 3 (freshMemory PageAlloc.sixPages.state) 0x10000 =
        some (.recurses s' size') ∧ s'.heaps = [freshHeap.heapStart] ∧
        s'.pages.ranges [1] = PageAlloc.sixPages.state.ranges [1]) ∧
      ¬ Grows (freshMemory PageAlloc.sixPages.state) 0x10000 := by
  have hcall : ∃ s' size', allocOnce 3 (freshMemory PageAlloc.sixPages.state) 0x10000 =
      some (.recurses s' size') ∧ s'.heaps = [freshHeap.heapStart] ∧
      s'.pages.ranges [1] = PageAlloc.sixPages.state.ranges [1] := ⟨_, _, rfl, rfl, rfl⟩
  refine ⟨hcall, fun hgrows => ?_⟩
  obtain ⟨s', size', hrec, hheaps, -⟩ := hcall
  obtain ⟨h, hmem, hnew, -⟩ := hgrows.recursion _ _ _ hrec
  rw [hheaps] at hmem
  exact hnew hmem

end XTOS.Heap

import XTOS.Heap.Growth

/-!
# Requests of every size

What `xtHeapAlloc` of `xtkernel/memory.c` does with a request of any 64-bit size in a heap in
any state, with what it does when no block fits.

## Main definitions

- `Fits` — a pointer to the payload of a block that has room for a request
- `Handled` — the call ends, and what it returns has room
- `Memory.Sound` — the registered heaps and the free pages

## Main results

- `alloc_handled` — for which requests that is so

## Design notes

The converse leaves out one kind of request, for which every call takes one byte of a free
range and calls itself: the calls are as many as the range has bytes, one inside the other.
-/

namespace XTOS.Heap

open SysLib

/-- In a tiled heap, `p` points to the payload of a block that lies in the heap and has room
    for `size` bytes behind its header. -/
def Fits (m : Mem) (start total size p : ℕ) : Prop :=
  ∃ xs b ys, Tiled m start total (xs ++ b :: ys) ∧ p = endAddr start xs + heapHeaderSize ∧
    size + heapHeaderSize ≤ b.size

/-- The call ends, and a pointer that it returns is one to a block of a registered heap with
    room for the request. So it fails if there is no such block. -/
structure Handled (s : Memory) (size : ℕ) : Prop where
  ends : ∃ fuel depth s' r, alloc fuel depth s size = some (s', r)
  fits : ∀ fuel depth s' p, alloc fuel depth s size = some (s', .ok p) →
    ∃ h ∈ s'.heaps, ∃ total, Region h total ∧ Fits s'.mem h total size p

/-- The heap at `h` has the blocks `bs h` in `total h` bytes, the nodes of the free ranges are
    `xs`, and a heap that is prepared at the front of a range does not lie in another one. -/
structure Memory.Sound (s : Memory) (total : ℕ → ℕ) (bs : ℕ → List Block) (xs : List ℕ) :
    Prop where
  region : ∀ h ∈ s.heaps, Region h (total h)
  tiled : ∀ h ∈ s.heaps, Tiled s.mem h (total h) (bs h)
  listed : PageAlloc.Listed s.pages xs
  start : ∀ x ∈ xs, (s.pages.entry x).start < 2 ^ 64 ∧
    higherMem (s.pages.entry x).start + 64 ≤ 2 ^ 64
  apart : ∀ x ∈ xs, ∀ h ∈ s.heaps, h + total h ≤ higherMem (s.pages.entry x).start ∨
    higherMem (s.pages.entry x).start + 64 ≤ h

/-- Some registered heap has a free block for the request. -/
def HasBlock (s : Memory) (bs : ℕ → List Block) (size : ℕ) : Prop :=
  ∃ h ∈ s.heaps, ∃ b ∈ bs h, b.req = none ∧ neededSize size ≤ b.size

/-- `xtAllocatePages` has nothing for the request. -/
def NoPages (s : Memory) (xs : List ℕ) (size : ℕ) : Prop :=
  ∀ x ∈ xs, (s.pages.entry x).length < PageAlloc.carvedSize (pageNeededSize size)

variable {s s' : Memory} {total : ℕ → ℕ} {bs : ℕ → List Block} {xs : List ℕ}
  {size fuel p : ℕ} {m m' : Mem}

/-! ### The search through the heaps -/

theorem searchHeaps_some {heaps : List ℕ}
    (h : searchHeaps fuel m size heaps = some (some (m', p))) :
    ∃ start ∈ heaps, xtHeapAlloc fuel m start size = some (some (m', p)) := by
  induction heaps with
  | nil => cases h
  | cons start heaps ih =>
    rw [searchHeaps] at h
    split at h
    · cases h
    · rename_i r hr
      cases h
      exact ⟨start, List.mem_cons_self, hr⟩
    · obtain ⟨start', hmem, hcall⟩ := ih h
      exact ⟨start', List.mem_cons_of_mem _ hmem, hcall⟩

theorem searchHeaps_none {heaps : List ℕ} (h : searchHeaps fuel m size heaps = some none) :
    ∀ start ∈ heaps, xtHeapAlloc fuel m start size = some none := by
  induction heaps with
  | nil => simp
  | cons start heaps ih =>
    rw [searchHeaps] at h
    split at h
    · cases h
    · cases h
    · rename_i hnone
      rintro start' hmem
      obtain rfl | hmem := List.mem_cons.mp hmem
      · exact hnone
      · exact ih h start' hmem

/-- A search that finds nothing passed no free block for the request. -/
theorem Tiled.xtHeapAlloc_misses {start n : ℕ} {bs : List Block} (h : Tiled m start n bs)
    (hr : Region start n) (hcall : Heap.xtHeapAlloc fuel m start size = some none) :
    ∀ b ∈ bs, b.req = none → b.size < neededSize size := by
  intro b hb hfree
  by_contra hge
  obtain ⟨fuel', m', ptr, hfound⟩ := h.xtHeapAlloc_finds hr hb hfree (Nat.le_of_not_lt hge)
  have h1 := xtHeapAlloc_mono (le_max_left fuel fuel') hcall
  have h2 := xtHeapAlloc_mono (le_max_right fuel fuel') hfound
  rw [h1] at h2
  cases h2

/-- With enough fuel the search ends. -/
theorem Memory.Sound.searchHeaps_isSome (hs : s.Sound total bs xs) (size : ℕ) :
    ∃ fuel r, searchHeaps fuel s.mem size s.heaps = some r := by
  have hall : ∀ heaps : List ℕ, (∀ h ∈ heaps, h ∈ s.heaps) →
      ∃ fuel r, searchHeaps fuel s.mem size heaps = some r := by
    intro heaps
    induction heaps with
    | nil => exact fun _ => ⟨0, none, rfl⟩
    | cons start heaps ih =>
      intro hsub
      have hstart := hsub start List.mem_cons_self
      obtain ⟨fuel, r, hrest⟩ := ih fun h hh => hsub h (List.mem_cons_of_mem _ hh)
      have hsome := (hs.tiled start hstart).xtHeapAlloc_isSome (hs.region start hstart)
        (Nat.lt_succ_self (bs start).length) size
      obtain ⟨r', hcall⟩ := Option.isSome_iff_exists.mp hsome
      have h1 := xtHeapAlloc_mono (le_max_left ((bs start).length + 1) fuel) hcall
      have h2 := searchHeaps_mono (le_max_right ((bs start).length + 1) fuel) hrest
      cases r' with
      | none => exact ⟨_, r, by rw [searchHeaps, h1]; exact h2⟩
      | some r' => exact ⟨_, some r', by rw [searchHeaps, h1]⟩
  exact hall s.heaps fun _ h => h

/-- The search finds nothing exactly if no heap has a free block for the request. -/
theorem Memory.Sound.searchHeaps_none_iff (hs : s.Sound total bs xs)
    {r : Option (Mem × ℕ)} (h : searchHeaps fuel s.mem size s.heaps = some r) :
    r = none ↔ ¬ HasBlock s bs size := by
  constructor
  · rintro rfl ⟨start, hmem, b, hb, hfree, hle⟩
    have hlt := (hs.tiled start hmem).xtHeapAlloc_misses (hs.region start hmem)
      (searchHeaps_none h start hmem) b hb hfree
    omega
  · intro hno
    cases r with
    | none => rfl
    | some r =>
      obtain ⟨start, hmem, hcall⟩ := searchHeaps_some h
      obtain ⟨ys, b, zs, hbs, hfree, hle, -⟩ :=
        (hs.tiled start hmem).xtHeapAlloc_found (hs.region start hmem) hcall
      exact absurd ⟨start, hmem, b, by rw [hbs]; simp, hfree, hle⟩ hno

/-! ### Requests that are handled -/

/-- A block that was found has room, if the size did not wrap. -/
theorem Tiled.fits {start n : ℕ} {bs : List Block} (h : Tiled m start n bs)
    (hr : Region start n) (hsize : size ≤ 2 ^ 64 - 48)
    (hcall : Heap.xtHeapAlloc fuel m start size = some (some (m', p))) :
    Fits m' start n size p := by
  obtain ⟨bs', htiled, hmem⟩ := h.xtHeapAlloc_live hr hsize hcall
  obtain ⟨xs', c, ys', rfl, hreq, hp⟩ := exists_of_mem_livePtrs hmem
  exact ⟨xs', c, ys', htiled, hp, htiled.req c (by simp) size hreq⟩

/-- A call that returns a pointer either found a block or called itself. -/
theorem alloc_ok {depth : ℕ} (h : alloc fuel depth s size = some (s', .ok p)) :
    (∃ m', searchHeaps fuel s.mem size s.heaps = some (some (m', p)) ∧ s' = { s with mem := m' }) ∨
      ∃ t n, allocOnce fuel s size = some (.recurses t n) := by
  cases depth with
  | zero => cases h
  | succ depth =>
    rw [alloc] at h
    split at h
    · cases h
    · rename_i t r honce
      cases h
      rw [allocOnce] at honce
      split at honce
      · cases honce
      · rename_i m' ptr hsearch
        cases honce
        exact .inl ⟨m', hsearch, rfl⟩
      · split at honce
        · cases honce
        · cases honce
        · cases honce
    · rename_i t n honce
      exact .inr ⟨t, n, honce⟩

/-- A request for which there is a free block does not need another call. -/
theorem Memory.Sound.allocOnce_of_block (hs : s.Sound total bs xs) (hblock : HasBlock s bs size)
    {e : Ends} (h : allocOnce fuel s size = some e) :
    ∃ m' p, searchHeaps fuel s.mem size s.heaps = some (some (m', p)) ∧
      e = .returns { s with mem := m' } (.ok p) := by
  rw [allocOnce] at h
  split at h
  · cases h
  · rename_i m' p hsearch
    cases h
    exact ⟨m', p, hsearch, rfl⟩
  · rename_i hsearch
    exact absurd hblock ((hs.searchHeaps_none_iff hsearch).mp rfl)

theorem Memory.Sound.handled_of_block (hs : s.Sound total bs xs) (hsize : size ≤ 2 ^ 64 - 48)
    (hblock : HasBlock s bs size) : Handled s size := by
  constructor
  · obtain ⟨fuel, r, hsearch⟩ := hs.searchHeaps_isSome size
    cases r with
    | none => exact absurd hblock ((hs.searchHeaps_none_iff hsearch).mp rfl)
    | some r => exact ⟨fuel, 1, { s with mem := r.1 }, .ok r.2, by rw [alloc, allocOnce, hsearch]⟩
  · intro fuel depth s' p hcall
    obtain ⟨m', hsearch, rfl⟩ | ⟨t, n, honce⟩ := alloc_ok hcall
    · obtain ⟨start, hmem, hfound⟩ := searchHeaps_some hsearch
      exact ⟨start, hmem, total start, hs.region start hmem,
        (hs.tiled start hmem).fits (hs.region start hmem) hsize hfound⟩
    · obtain ⟨m', p', -, h⟩ := hs.allocOnce_of_block hblock honce
      cases h

/-- Without a block and without pages the call fails. -/
theorem Memory.Sound.handled_of_noPages (hs : s.Sound total bs xs)
    (hblock : ¬ HasBlock s bs size) (hpages : NoPages s xs size) : Handled s size := by
  constructor
  · obtain ⟨fuel, r, hsearch⟩ := hs.searchHeaps_isSome size
    obtain rfl := (hs.searchHeaps_none_iff hsearch).mpr hblock
    obtain ⟨fuel', s', r, hsearch', hs', -, hiff⟩ := xtAllocatePages_ends hs.listed hsearch
    obtain ⟨e, rfl⟩ := hiff.mpr hpages
    exact ⟨fuel', 1, s', .error e, by rw [alloc, allocOnce_full hsearch', hs']⟩
  · intro fuel depth s' p hcall
    obtain ⟨m', hsearch, -⟩ | ⟨t, n, honce⟩ := alloc_ok hcall
    · have hnone := (hs.searchHeaps_none_iff hsearch).mpr hblock
      cases hnone
    · exact absurd honce (not_recurses_of_noPages hs.listed hpages)

/-! ### Requests that are not handled -/

/-- A request for one of the last 47 sizes gets the smallest free block. -/
theorem Memory.Sound.not_handled_of_wrap (hs : s.Sound total bs xs) (hlarge : 2 ^ 64 - 48 < size)
    (hblock : HasBlock s bs size) : ¬ Handled s size := by
  intro hhandled
  obtain ⟨fuel, r, hsearch⟩ := hs.searchHeaps_isSome size
  cases r with
  | none => exact absurd hblock ((hs.searchHeaps_none_iff hsearch).mp rfl)
  | some r =>
    have hcall : alloc fuel 1 s size = some ({ s with mem := r.1 }, .ok r.2) := by
      rw [alloc, allocOnce, hsearch]
    obtain ⟨h, -, n, hr, ys, b, zs, htiled, -, hroom⟩ := hhandled.fits _ _ _ _ hcall
    have hle := htiled.size_le
    have hsmall := hr.small
    omega

/-- What is written for a new heap lies in the first 64 bytes of its pages. -/
theorem setupHeap_outside {page i : ℕ} (hpage : page + 64 ≤ 2 ^ 64)
    (hi : i < page ∨ page + 64 ≤ i) : setupHeap m page i = m i := by
  have hmod : (page + 16 + 15) % 2 ^ 64 = page + 16 + 15 := Nat.mod_eq_of_lt (by omega)
  have hmask := mask16_eq (show page + 16 + 15 < 2 ^ 64 by omega)
  simp only [setupHeap, hmod, hmask, xtHeapSetupBlock]
  rw [setPrev_outside _ _ (by omega), setNext_outside _ _ (by omega),
    setUsed_outside _ _ (by omega), setSize_outside _ _ (by omega),
    storeLE_outside _ _ (by omega), storeLE_outside _ _ (by omega)]

/-- Preparing a heap at the front of a range leaves the others as they are. -/
theorem Memory.Sound.setupHeap (hs : s.Sound total bs xs) {x : ℕ} (hx : x ∈ xs) :
    ({ s with mem := Heap.setupHeap s.mem (higherMem (s.pages.entry x).start) } : Memory).Sound
      total bs xs where
  region := hs.region
  tiled h hh := by
    refine (hs.tiled h hh).congr_headers fun i hi => ?_
    have hrange := hi.range (hs.tiled h hh).size_ge
    rw [(hs.tiled h hh).ends] at hrange
    have := hs.apart x hx h hh
    exact setupHeap_outside (hs.start x hx).2 (by omega)
  listed := hs.listed
  start := hs.start
  apart := hs.apart

/-- Taking nothing from a range that is not empty. -/
theorem takePages_nothing {s : Memory} {prev i : ℕ} (hstart : (s.pages.entry i).start < 2 ^ 64)
    (hlen : (s.pages.entry i).length ≠ 0) :
    s.takePages prev i 0 = (s, (s.pages.entry i).start) := by
  have hsame : PageAlloc.takePages s.pages prev i 0 = (s.pages, (s.pages.entry i).start) := by
    simp only [PageAlloc.takePages]
    rw [Nat.sub_zero, if_neg hlen, Nat.add_zero, Nat.mod_eq_of_lt hstart]
    congr 1
    exact congrArg (fun e => { s.pages with entries := e }) (Function.update_eq_self _ _)
  rw [Memory.takePages, hsame, Nat.sub_zero, if_neg hlen]

/-- A call for no bytes takes nothing. -/
theorem Memory.Sound.allocate_nothing (hs : s.Sound total bs xs)
    (hlen : ∀ x ∈ xs, (s.pages.entry x).length ≠ 0) {page : ℕ}
    (h : s.xtAllocatePages fuel 0 0 = some (s', .ok page)) :
    s' = s ∧ ∃ x ∈ xs, page = (s.pages.entry x).start := by
  have hcarved : PageAlloc.carvedSize 0 = 0 := by decide
  have hfound : ∀ {test : PageAlloc.XTMemoryMapEntry → Bool} {prev i : ℕ},
      s.pages.findNode fuel test = some (prev, i) → i ≠ 0 → i ∈ xs := by
    intro test prev i hfind hi
    obtain ⟨pre, post, rfl, -, rfl, -, -⟩ := hs.listed.findNode hfind
    cases post with
    | nil => exact absurd rfl hi
    | cons y post => simp
  have htake : ∀ {prev i : ℕ}, i ∈ xs → s.takePages prev i 0 = (s, (s.pages.entry i).start) :=
    fun hi => takePages_nothing (hs.start _ hi).1 (hlen _ hi)
  simp only [Memory.xtAllocatePages, hcarved, Option.bind_eq_bind, Option.bind_eq_some_iff] at h
  obtain ⟨⟨prev, i⟩, hfind, h⟩ := h
  split_ifs at h with hi
  · rw [htake (hfound hfind hi)] at h
    cases h
    exact ⟨rfl, i, hfound hfind hi, rfl⟩
  obtain ⟨⟨prev', j⟩, hfind', h⟩ := Option.bind_eq_some_iff.mp h
  split_ifs at h with hj
  · rw [htake (hfound hfind' hj)] at h
    cases h
    exact ⟨rfl, j, hfound hfind' hj, rfl⟩
  · cases h

/-- The size that a call passes to itself needs the same block. -/
theorem neededSize_again (hsize : size ≤ 2 ^ 64 - 48) :
    neededSize (mask16 ((size + 15) % 2 ^ 64)) = neededSize size ∧
      mask16 ((size + 15) % 2 ^ 64) ≤ 2 ^ 64 - 48 := by
  have hmod : (size + 15) % 2 ^ 64 = size + 15 := Nat.mod_eq_of_lt (by omega)
  have hmask := mask16_eq (show size + 15 < 2 ^ 64 by omega)
  have hagain := mask16_eq (show (size + 15) / 16 * 16 + 15 < 2 ^ 64 by omega)
  rw [hmod, hmask]
  refine ⟨?_, by omega⟩
  simp only [neededSize, hmod, hmask]
  rw [Nat.mod_eq_of_lt (show (size + 15) / 16 * 16 + 15 < 2 ^ 64 by omega), hagain,
    show ((size + 15) / 16 * 16 + 15) / 16 = (size + 15) / 16 by omega]

/-- A request of 16 KiB or more for which there is no block calls itself again and again: no
    page is taken and no heap added, so that the next call is as the one before. -/
theorem Memory.Sound.alloc_endless {depth : ℕ} (hs : s.Sound total bs xs)
    (hlen : ∀ x ∈ xs, (s.pages.entry x).length ≠ 0) (hsize : size ≤ 2 ^ 64 - 48)
    (hblock : ¬ HasBlock s bs size) (hlarge : ¬ neededSize size < 0x4000) (hne : xs ≠ []) :
    alloc fuel depth s size = none := by
  induction depth generalizing s size with
  | zero => rfl
  | succ depth ih =>
    have hpage : pageNeededSize size = 0 := if_neg hlarge
    have hcarved : PageAlloc.carvedSize 0 = 0 := by decide
    rw [alloc, allocOnce]
    cases hsearch : searchHeaps fuel s.mem size s.heaps with
    | none => rfl
    | some r =>
      obtain rfl := (hs.searchHeaps_none_iff hsearch).mpr hblock
      dsimp only
      rw [hpage]
      cases hgot : s.xtAllocatePages fuel 0 0 with
      | none => rfl
      | some out =>
        obtain ⟨s', r⟩ := out
        cases r with
        | error e =>
          -- there is a range, and it has nothing or more
          have hpages := xtAllocatePages_pages fuel s 0 0
          rw [hgot, Option.map_some] at hpages
          have hsmall := (allocatePages_error_iff hs.listed hpages.symm).mp ⟨e, rfl⟩
          obtain ⟨x, hx⟩ := List.exists_mem_of_ne_nil xs hne
          have := hsmall x hx
          omega
        | ok page =>
          obtain ⟨rfl, x, hx, rfl⟩ := hs.allocate_nothing hlen hgot
          obtain ⟨hneeded, hle⟩ := neededSize_again hsize
          have hblock' : ¬ HasBlock s' bs (mask16 ((size + 15) % 2 ^ 64)) := by
            rwa [HasBlock, hneeded]
          exact ih (hs.setupHeap hx) hlen hle hblock' (by rwa [hneeded])

/-! ### Which requests are handled -/

/-- The call takes a free range byte by byte, one call inside the other, or comes to a range
    that is empty. -/
def TakesBytes (s : Memory) (xs : List ℕ) (size : ℕ) : Prop :=
  neededSize size < 0x4000 ∨ ∃ x ∈ xs, (s.pages.entry x).length = 0

/-- **Requests of every size**: a request of at most `2 ^ 64 - 48` bytes for which there is a free
    block is handled, and one for which there is no block when `xtAllocatePages` fails. No other
    one is, but for those that take a free range byte by byte. -/
theorem alloc_handled (hs : s.Sound total bs xs) (hsize : size < 2 ^ 64) :
    ((size ≤ 2 ^ 64 - 48 ∧ HasBlock s bs size ∨ ¬ HasBlock s bs size ∧ NoPages s xs size) →
      Handled s size) ∧
    (Handled s size → size ≤ 2 ^ 64 - 48 ∧ HasBlock s bs size ∨
      ¬ HasBlock s bs size ∧ (NoPages s xs size ∨ TakesBytes s xs size)) := by
  constructor
  · rintro (⟨hle, hblock⟩ | ⟨hblock, hpages⟩)
    · exact hs.handled_of_block hle hblock
    · exact hs.handled_of_noPages hblock hpages
  · intro hhandled
    by_cases hblock : HasBlock s bs size
    · refine .inl ⟨?_, hblock⟩
      by_contra hwrap
      exact hs.not_handled_of_wrap (Nat.lt_of_not_le hwrap) hblock hhandled
    refine .inr ⟨hblock, ?_⟩
    by_contra hnot
    obtain ⟨hpages, hbytes⟩ := not_or.mp hnot
    obtain ⟨hlarge, hlen⟩ := not_or.mp hbytes
    push Not at hlen
    have hle : size ≤ 2 ^ 64 - 48 := by
      by_contra hwrap
      have h16 : neededSize 16 = 48 := by decide
      have := neededSize_wrapped (Nat.lt_of_not_le hwrap) hsize
      omega
    have hne : xs ≠ [] := by
      rintro rfl
      exact hpages (by simp [NoPages])
    obtain ⟨fuel, depth, s', r, hcall⟩ := hhandled.ends
    rw [hs.alloc_endless hlen hle hblock hlarge hne] at hcall
    cases hcall

/-- The fresh heap and a list of pages behind the first 64 KiB. -/
theorem freshMemory_sound {pages : PageAlloc.State} {xs : List ℕ} (hlist : PageAlloc.Listed pages xs)
    (hstart : ∀ x ∈ xs, (pages.entry x).start = 0x100000) :
    (freshMemory pages).Sound (fun _ => freshHeap.total) (fun _ => [⟨freshHeap.total, none⟩])
      xs where
  region h hh := by
    obtain rfl := List.mem_singleton.mp hh
    exact freshHeap_initial.sound.region
  tiled h hh := by
    obtain rfl := List.mem_singleton.mp hh
    exact freshHeap_initial.sound.tiled
  listed := hlist
  start x hx := by
    have hx' := hstart x hx
    change (pages.entry x).start < 2 ^ 64 ∧ higherMem (pages.entry x).start + 64 ≤ 2 ^ 64
    rw [hx']
    decide
  apart x hx h hh := by
    obtain rfl := List.mem_singleton.mp hh
    have hx' := hstart x hx
    have htotal := freshHeap_initial.sound.region.small
    change _ ≤ higherMem (pages.entry x).start ∨ _
    rw [hx', show higherMem 0x100000 = 0xffff800000100000 by decide]
    left
    have hheap : freshHeap.heapStart = 4112 := by decide
    omega

/-- A request for 100 bytes in a fresh heap without free pages. -/
theorem alloc_handled_hundred : Handled (freshMemory noPages) 100 := by
  have hlist : PageAlloc.Listed noPages [] := ⟨rfl, by simp, by simp, List.nodup_nil, by simp⟩
  have hs := freshMemory_sound hlist (by simp)
  have hblock : HasBlock (freshMemory noPages) (fun _ => [⟨freshHeap.total, none⟩]) 100 :=
    ⟨freshHeap.heapStart, List.mem_singleton_self _, _, List.mem_singleton_self _, rfl,
      by decide +kernel⟩
  exact (alloc_handled hs (by decide)).1 (.inl ⟨by decide, hblock⟩)

/-- A request for `2 ^ 64 - 1` bytes in a fresh heap succeeds with the smallest block, and one
    for 64 KiB with six free pages does not end. -/
theorem alloc_fails_large :
    (∃ s' p, alloc 2 1 (freshMemory noPages) (2 ^ 64 - 1) = some (s', .ok p) ∧
      payload s'.mem p = 16) ∧ ¬ Handled (freshMemory noPages) (2 ^ 64 - 1) ∧
    (∀ fuel depth, alloc fuel depth (freshMemory PageAlloc.sixPages.state) 0x10000 = none) ∧
    ¬ Handled (freshMemory PageAlloc.sixPages.state) 0x10000 := by
  have hneeded : neededSize (2 ^ 64 - 1) = neededSize 16 :=
    neededSize_wrapped (by decide) (by decide)
  have hnoPages : PageAlloc.Listed noPages [] :=
    ⟨rfl, by simp, by simp, List.nodup_nil, by simp⟩
  have hblock : HasBlock (freshMemory noPages) (fun _ => [⟨freshHeap.total, none⟩])
      (2 ^ 64 - 1) :=
    ⟨freshHeap.heapStart, List.mem_singleton_self _, _, List.mem_singleton_self _, rfl, by
      rw [hneeded]
      decide +kernel⟩
  have hendless : ∀ fuel depth,
      alloc fuel depth (freshMemory PageAlloc.sixPages.state) 0x10000 = none := by
    intro fuel depth
    have hs := freshMemory_sound PageAlloc.sixPages_listed (by simp [PageAlloc.sixPages,
      PageAlloc.State.entry])
    refine hs.alloc_endless ?_ (by decide) ?_ (by decide) (List.cons_ne_nil _ _)
    · simp [PageAlloc.sixPages, PageAlloc.State.entry, freshMemory]
    · rintro ⟨h, -, b, hb, -, hle⟩
      obtain rfl := List.mem_singleton.mp hb
      exact absurd hle (by decide +kernel)
  refine ⟨?_, ?_, hendless, ?_⟩
  · obtain ⟨m', p, hfound, hroom⟩ : ∃ m' p, xtHeapAlloc 2 freshHeap.mem freshHeap.heapStart 16 =
        some (some (m', p)) ∧ payload m' p = 16 := ⟨_, _, rfl, by decide +kernel⟩
    rw [← xtHeapAlloc_congr hneeded] at hfound
    refine ⟨{ freshMemory noPages with mem := m' }, p, ?_, hroom⟩
    have hsearch : searchHeaps 2 (freshMemory noPages).mem (2 ^ 64 - 1)
        (freshMemory noPages).heaps = some (some (m', p)) := by
      rw [freshMemory, searchHeaps, hfound]
    rw [alloc, allocOnce, hsearch]
  · exact (freshMemory_sound hnoPages (by simp)).not_handled_of_wrap (by decide) hblock
  · rintro ⟨⟨fuel, depth, s', r, hcall⟩, -⟩
    rw [hendless] at hcall
    cases hcall

end XTOS.Heap

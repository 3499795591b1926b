import XTOS.Lib.Memory

/-!
# Module images

The headers of a PE image and `ApplyRelocations` of `xtkernel/linker.c`.

## Main definitions

- `ImageHeaders`, `readHeaders` — what the loader reads of the headers
- `applyRelocations` — the loop over the blocks of the relocation directory
- `relocTargets` — the `IMAGE_REL_BASED_DIR64` targets of a well-formed directory
- `patchAll` — what relocation does to them

## Design notes

An image lies in physical memory. Target addresses are relative to the image. The loop over the
blocks has fuel: a block of size zero is never left.
-/

namespace XTOS.Linker

open SysLib

/-- Memory by address. -/
abbrev Mem := ℕ → UInt8

/-- The fields of `IMAGE_SECTION_HEADER` that the loader reads. -/
structure ImageSection where
  virtualAddress : ℕ
  sizeOfRawData : ℕ
  pointerToRawData : ℕ
  characteristics : ℕ
  deriving DecidableEq, Repr

/-- The fields of the other headers that the loader reads, and the section headers. -/
structure ImageHeaders where
  imageBase : ℕ
  sizeOfImage : ℕ
  sizeOfHeaders : ℕ
  relocAddr : ℕ
  sections : List ImageSection
  deriving DecidableEq, Repr

/-- `IMAGE_NT_HEADERS` of the image at `image`; the offset `e_lfanew` is signed. -/
def ntHeaders (m : Mem) (image : ℕ) : ℕ :=
  let lfanew := loadLE m (image + 60) 4
  if lfanew < 2 ^ 31 then image + lfanew else (image + lfanew + (2 ^ 64 - 2 ^ 32)) % 2 ^ 64

/-- The section header at `a`. -/
def sectionAt (m : Mem) (a : ℕ) : ImageSection :=
  ⟨loadLE m (a + 12) 4, loadLE m (a + 16) 4, loadLE m (a + 20) 4, loadLE m (a + 36) 4⟩

/-- `IMAGE_FIRST_SECTION`. -/
def firstSection (m : Mem) (image : ℕ) : ℕ :=
  ntHeaders m image + 24 + loadLE m (ntHeaders m image + 20) 2

/-- The headers of the image at `image`. -/
def readHeaders (m : Mem) (image : ℕ) : ImageHeaders :=
  let nt := ntHeaders m image
  { imageBase := loadLE m (nt + 48) 8
    sizeOfImage := loadLE m (nt + 80) 4
    sizeOfHeaders := loadLE m (nt + 84) 4
    relocAddr := loadLE m (nt + 176) 4
    sections := (List.range (loadLE m (nt + 6) 2)).map fun i =>
      sectionAt m (firstSection m image + 40 * i) }

/-! ### Relocation -/

/-- `*patch += delta`. -/
def patch (m : Mem) (a delta : ℕ) : Mem := storeLE m a 8 (loadLE m a 8 + delta)

/-- An entry of type `IMAGE_REL_BASED_DIR64`. -/
def isDir64 (entry : ℕ) : Prop := entry / 4096 = 10

instance (entry : ℕ) : Decidable (isDir64 entry) := inferInstanceAs (Decidable (_ = _))

/-- The loop over the entries of the block at `reloc`, whose page is read again for every entry. -/
def entryLoop (image reloc delta : ℕ) : ℕ → ℕ → Mem → Mem
  | 0, _, m => m
  | n + 1, a, m =>
    let entry := loadLE m a 2
    entryLoop image reloc delta n (a + 2)
      (if isDir64 entry then patch m (image + loadLE m reloc 4 + entry % 4096) delta else m)

/-- The number of entries of a block, in 64 and then 32 bits. -/
def entryCount (sizeOfBlock : ℕ) : ℕ := (sizeOfBlock + (2 ^ 64 - 8)) % 2 ^ 64 / 2 % 2 ^ 32

/-- The loop over the blocks. -/
def blockLoop (image delta : ℕ) : ℕ → ℕ → Mem → Option Mem
  | 0, _, _ => none
  | fuel + 1, reloc, m =>
    if loadLE m reloc 4 = 0 then some m
    else
      let m := entryLoop image reloc delta (entryCount (loadLE m (reloc + 4) 4)) (reloc + 8) m
      blockLoop image delta fuel (reloc + loadLE m (reloc + 4) 4) m

/-- `delta`: the new base minus the preferred one, in 64 bits. -/
def relocDelta (virtualImage preferredBase : ℕ) : ℕ :=
  (virtualImage + (2 ^ 64 - preferredBase)) % 2 ^ 64

/-- `ApplyRelocations`. -/
def applyRelocations (fuel : ℕ) (m : Mem) (physImage virtualImage preferredBase : ℕ) :
    Option Mem :=
  let relocAddr := (readHeaders m physImage).relocAddr
  if relocAddr = 0 then some m
  else blockLoop physImage (relocDelta virtualImage preferredBase) fuel (physImage + relocAddr) m

/-! ### The targets of a directory -/

/-- The targets of `n` entries from `a` on. -/
def entryTargets (m : Mem) (va : ℕ) : ℕ → ℕ → List ℕ
  | 0, _ => []
  | n + 1, a =>
    let entry := loadLE m a 2
    (if isDir64 entry then [va + entry % 4096] else []) ++ entryTargets m va n (a + 2)

/-- The targets of the blocks from `reloc` on and the block that ends them, if each block has
    room for its header. -/
def relocTargets (m : Mem) : ℕ → ℕ → Option (List ℕ × ℕ)
  | 0, _ => none
  | fuel + 1, reloc =>
    let va := loadLE m reloc 4
    let size := loadLE m (reloc + 4) 4
    if va = 0 then some ([], reloc)
    else if size < 8 then none
    else (relocTargets m fuel (reloc + size)).map fun r =>
      (entryTargets m va ((size - 8) / 2) (reloc + 8) ++ r.1, r.2)

/-- Every target of the image at `image` is moved by `delta`. -/
def patchAll (image delta : ℕ) (targets : List ℕ) (m : Mem) : Mem :=
  targets.foldl (fun m t => patch m (image + t) delta) m

variable {m m' : Mem} {image delta a : ℕ}

theorem entryCount_eq {size : ℕ} (h : 8 ≤ size) (hlt : size < 2 ^ 32) :
    entryCount size = (size - 8) / 2 := by
  rw [entryCount, show size + (2 ^ 64 - 8) = size - 8 + 2 ^ 64 by omega, Nat.add_mod_right,
    Nat.mod_eq_of_lt (by omega), Nat.mod_eq_of_lt (by omega)]

theorem patch_outside {i : ℕ} (h : i < a ∨ a + 8 ≤ i) : patch m a delta i = m i :=
  storeLE_outside _ _ h

/-- Relocation by nothing changes nothing. -/
@[simp] theorem patch_zero : patch m a 0 = m := by
  rw [patch, Nat.add_zero, storeLE_loadLE]

@[simp] theorem patchAll_nil : patchAll image delta [] m = m := rfl

@[simp] theorem patchAll_cons (t : ℕ) (ts : List ℕ) :
    patchAll image delta (t :: ts) m = patchAll image delta ts (patch m (image + t) delta) := rfl

theorem patchAll_append (ts ts' : List ℕ) : patchAll image delta (ts ++ ts') m =
    patchAll image delta ts' (patchAll image delta ts m) :=
  List.foldl_append

theorem patchAll_zero (ts : List ℕ) : patchAll image 0 ts m = m := by
  induction ts with
  | nil => rfl
  | cons t ts ih => rw [patchAll_cons, patch_zero, ih]

/-- A byte outside the targets keeps its value. -/
theorem patchAll_outside {ts : List ℕ} {i : ℕ}
    (h : ∀ t ∈ ts, i < image + t ∨ image + t + 8 ≤ i) : patchAll image delta ts m i = m i := by
  induction ts generalizing m with
  | nil => rfl
  | cons t ts ih =>
    rw [patchAll_cons, ih fun u hu => h u (List.mem_cons_of_mem _ hu),
      patch_outside (h t List.mem_cons_self)]

/-- Targets that are apart are each moved once. -/
theorem loadLE_patchAll (m : Mem) (image delta : ℕ) {ts : List ℕ}
    (hapart : ts.Pairwise fun t u => t + 8 ≤ u ∨ u + 8 ≤ t)
    {t : ℕ} (ht : t ∈ ts) : loadLE (patchAll image delta ts m) (image + t) 8 =
      (loadLE m (image + t) 8 + delta) % 2 ^ 64 := by
  induction ts generalizing m with
  | nil => cases ht
  | cons u ts ih =>
    obtain ⟨hu, hts⟩ := List.pairwise_cons.mp hapart
    rw [patchAll_cons]
    obtain rfl | ht := List.mem_cons.mp ht
    · rw [loadLE_congr fun i h1 h2 => patchAll_outside fun u hu' => by
        have := hu u hu'
        omega]
      have hword := load_store_same m (image + t) (leBytes 8 (loadLE m (image + t) 8 + delta))
      rw [length_leBytes] at hword
      rw [patch, loadLE, storeLE, hword, leNat_leBytes]
      rfl
    · have htu := hu t ht
      rw [ih _ hts ht, patch, loadLE_storeLE_disjoint _ (by omega)]

/-- A word of the image that lies in the bytes it shares with `m`. -/
theorem loadLE_same {k w lo hi : ℕ} (hsame : ∀ i, lo ≤ i → i < hi → m' (image + i) = m i)
    (hlo : lo ≤ k) (hhi : k + w ≤ hi) : loadLE m' (image + k) w = loadLE m k w := by
  refine loadLE_shift fun i hi => ?_
  rw [Nat.add_assoc]
  exact hsame _ (by omega) (by omega)

/-- The loop over the entries patches their targets, if these are apart from the entries and the
    header. The image holds the bytes of `m` from `lo` to `hi`. -/
theorem entryLoop_eq {reloc n lo hi : ℕ} (hsame : ∀ i, lo ≤ i → i < hi → m' (image + i) = m i)
    (hreloc : lo ≤ reloc ∧ reloc + 4 ≤ hi) (hlo : lo ≤ a) (hhi : a + 2 * n ≤ hi)
    (hout : ∀ t ∈ entryTargets m (loadLE m reloc 4) n a, t + 8 ≤ lo ∨ hi ≤ t) :
    entryLoop image (image + reloc) delta n (image + a) m' =
      patchAll image delta (entryTargets m (loadLE m reloc 4) n a) m' := by
  induction n generalizing a m' with
  | zero => rfl
  | succ n ih =>
    have hentry : loadLE m' (image + a) 2 = loadLE m a 2 := loadLE_same hsame hlo (by omega)
    have hpage : loadLE m' (image + reloc) 4 = loadLE m reloc 4 :=
      loadLE_same hsame hreloc.1 hreloc.2
    rw [entryTargets] at hout
    rw [entryLoop, entryTargets, hentry, hpage, patchAll_append, Nat.add_assoc image a 2]
    split_ifs with htype
    · rw [if_pos htype] at hout
      have htarget := hout _ (List.mem_append_left _ List.mem_cons_self)
      rw [patchAll_cons, patchAll_nil, ← Nat.add_assoc image (loadLE m reloc 4)]
      refine ih (fun i h1 h2 => ?_) (by omega) (by omega)
        fun t ht => hout t (List.mem_append_right _ ht)
      rw [patch_outside (by omega), hsame i h1 h2]
    · rw [patchAll_nil]
      exact ih hsame (by omega) (by omega) fun t ht => hout t (List.mem_append_right _ ht)

theorem relocTargets_le {fuel reloc : ℕ} {ts : List ℕ} {last : ℕ}
    (h : relocTargets m fuel reloc = some (ts, last)) : reloc ≤ last := by
  induction fuel generalizing reloc ts with
  | zero => cases h
  | succ fuel ih =>
    rw [relocTargets] at h
    split_ifs at h
    · cases h
      exact le_rfl
    · obtain ⟨⟨ts', last'⟩, hrest, heq⟩ := Option.map_eq_some_iff.mp h
      cases heq
      have := ih hrest
      omega

/-- One block: its entries patch their targets, and what the image shares with `m` stays. -/
theorem block_step {reloc lo hi : ℕ} (delta : ℕ)
    (hsame : ∀ i, lo ≤ i → i < hi → m' (image + i) = m i) (hlo : lo ≤ reloc)
    (hroom : 8 ≤ loadLE m (reloc + 4) 4) (hhi : reloc + loadLE m (reloc + 4) 4 ≤ hi)
    (hout : ∀ t ∈ entryTargets m (loadLE m reloc 4) ((loadLE m (reloc + 4) 4 - 8) / 2) (reloc + 8),
      t + 8 ≤ lo ∨ hi ≤ t) :
    entryLoop image (image + reloc) delta ((loadLE m (reloc + 4) 4 - 8) / 2)
        (image + reloc + 8) m' = patchAll image delta (entryTargets m (loadLE m reloc 4)
          ((loadLE m (reloc + 4) 4 - 8) / 2) (reloc + 8)) m' ∧
      ∀ i, lo ≤ i → i < hi → patchAll image delta (entryTargets m (loadLE m reloc 4)
        ((loadLE m (reloc + 4) 4 - 8) / 2) (reloc + 8)) m' (image + i) = m i := by
  constructor
  · rw [Nat.add_assoc image]
    exact entryLoop_eq hsame (by omega) (by omega) (by omega) hout
  · intro i h1 h2
    rw [patchAll_outside fun t ht => ?_, hsame i h1 h2]
    have := hout t ht
    omega

/-- The loop over the blocks patches the targets of the directory, if these are apart from
    it. -/
theorem blockLoop_eq {fuel reloc last lo hi : ℕ} {ts : List ℕ}
    (h : relocTargets m fuel reloc = some (ts, last))
    (hsame : ∀ i, lo ≤ i → i < hi → m' (image + i) = m i) (hlo : lo ≤ reloc) (hhi : last + 4 ≤ hi)
    (hout : ∀ t ∈ ts, t + 8 ≤ lo ∨ hi ≤ t) :
    blockLoop image delta fuel (image + reloc) m' = some (patchAll image delta ts m') := by
  induction fuel generalizing reloc ts m' with
  | zero => cases h
  | succ fuel ih =>
    have hle := relocTargets_le h
    rw [relocTargets] at h
    rw [blockLoop, loadLE_same hsame hlo (by omega)]
    split_ifs at h ⊢ with hzero hshort
    · cases h
      rfl
    · obtain ⟨⟨ts', last'⟩, hrest, heq⟩ := Option.map_eq_some_iff.mp h
      cases heq
      have hlast := relocTargets_le hrest
      have hcount := entryCount_eq (show 8 ≤ loadLE m (reloc + 4) 4 by omega)
        (loadLE_lt m (reloc + 4) 4)
      obtain ⟨hentries, hsame'⟩ := block_step delta hsame hlo (by omega) (by omega)
        fun t ht => hout t (List.mem_append_left _ ht)
      dsimp only
      rw [Nat.add_assoc image reloc 4, loadLE_same hsame (by omega) (by omega), hcount, hentries,
        loadLE_same hsame' (by omega) (by omega), patchAll_append, Nat.add_assoc image]
      exact ih hrest hsame' (by omega) fun t ht => hout t (List.mem_append_right _ ht)

theorem sizeOfHeaders_lt (m : Mem) (image : ℕ) : (readHeaders m image).sizeOfHeaders < 2 ^ 32 := by
  rw [readHeaders]
  exact loadLE_lt m _ 4

/-- The headers of an image at 0 that does not reach the upper half are behind its start. -/
theorem ntHeaders_front {n : ℕ} (hn : n < 2 ^ 32) (hnt : ntHeaders m 0 + 180 ≤ n) :
    loadLE m 60 4 < 2 ^ 31 ∧ ntHeaders m 0 = loadLE m 60 4 := by
  have hlt : loadLE m 60 4 < 2 ^ 32 := loadLE_lt m 60 4
  rw [ntHeaders, Nat.zero_add, Nat.zero_add] at hnt ⊢
  split_ifs at hnt ⊢ with hpos
  · exact ⟨hpos, rfl⟩
  · omega

/-- Images with the same headers. -/
theorem readHeaders_shift {n : ℕ} (hn : n < 2 ^ 32) (hsame : ∀ i < n, m' (image + i) = m i)
    (hnt : ntHeaders m 0 + 180 ≤ n)
    (hsections : firstSection m 0 + 40 * loadLE m (ntHeaders m 0 + 6) 2 ≤ n) :
    readHeaders m' image = readHeaders m 0 := by
  have hword : ∀ k w, k + w ≤ n → loadLE m' (image + k) w = loadLE m k w := fun k w hk =>
    loadLE_shift fun i hi => by
      rw [Nat.add_assoc]
      exact hsame _ (by omega)
  obtain ⟨hpos, hfront⟩ := ntHeaders_front hn hnt
  have hlfanew : ntHeaders m' image = image + ntHeaders m 0 := by
    rw [hfront, ntHeaders, hword 60 4 (by omega)]
    exact if_pos hpos
  have hfield : ∀ k w, k + w ≤ 180 → loadLE m' (ntHeaders m' image + k) w =
      loadLE m (ntHeaders m 0 + k) w := by
    intro k w hk
    rw [hlfanew, Nat.add_assoc, hword _ w (by omega)]
  have hfirst : firstSection m' image = image + firstSection m 0 := by
    rw [firstSection, firstSection, hfield 20 2 (by omega), hlfanew]
    omega
  rw [readHeaders, readHeaders, hfield 48 8 (by omega), hfield 80 4 (by omega),
    hfield 84 4 (by omega), hfield 176 4 (by omega), hfield 6 2 (by omega)]
  congr 1
  refine List.map_congr_left fun i hi => ?_
  rw [List.mem_range] at hi
  have hat : ∀ k, image + firstSection m 0 + 40 * i + k = image + (firstSection m 0 + 40 * i + k) :=
    fun k => by omega
  rw [sectionAt, sectionAt, hfirst, hat, hat, hat, hat, hword _ 4 (by omega),
    hword _ 4 (by omega), hword _ 4 (by omega), hword _ 4 (by omega)]

end XTOS.Linker

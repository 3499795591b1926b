import Mathlib.Data.List.GetD
import XTOS.Linker.Image

/-!
# Relocation of an image

`ApplyRelocations` of `xtkernel/linker.c` on one image: what it does to an image with a
well-formed relocation directory, and where its loop goes in any other.

## Main definitions

- `WellFormed` — a directory that ends, with targets apart from all that is read
- `processed` — the loop over the blocks, with the blocks it processes
- `Ends` — the blocks of a directory lie inside it up to the one that ends them

## Main results

- `relocations_compose` — relocating adds the difference of the bases to the targets
- `processed_inside_iff` — the loop ends inside the directory exactly if its blocks do

## Design notes

A block is processed by reading its header and its entries. The `Size` of the directory stands
behind its address in the headers; the source does not read it.
-/

namespace XTOS.Linker

open SysLib

/-- The bytes of the image at `image` by their offset. -/
def imageBytes (m : Mem) (image : ℕ) : Mem := fun i => m (image + i)

/-- A relocation directory with the blocks of an image whose bytes are `v`: each has room for its
    header, and one with the address zero ends them. The targets lie apart from each other, from
    the directory, and from the words of the headers that lead to it. The headers are behind the
    start of the image. -/
structure WellFormed (v : Mem) (fuel : ℕ) (targets : List ℕ) (last : ℕ) : Prop where
  headers : loadLE v 60 4 < 2 ^ 31
  present : (readHeaders v 0).relocAddr ≠ 0
  blocks : relocTargets v fuel (readHeaders v 0).relocAddr = some (targets, last)
  apart : targets.Pairwise fun t u => t + 8 ≤ u ∨ u + 8 ≤ t
  data : ∀ t ∈ targets, t + 8 ≤ (readHeaders v 0).relocAddr ∨ last + 4 ≤ t
  lfanew : ∀ t ∈ targets, t + 8 ≤ 60 ∨ 64 ≤ t
  directory : ∀ t ∈ targets, t + 8 ≤ ntHeaders v 0 + 176 ∨ ntHeaders v 0 + 180 ≤ t

/-- The loop over the blocks, with where each block that it processes starts and how many
    entries of it are read. -/
def processed (image delta : ℕ) : ℕ → ℕ → Mem → Option (Mem × List (ℕ × ℕ))
  | 0, _, _ => none
  | fuel + 1, reloc, m =>
    if loadLE m reloc 4 = 0 then some (m, [])
    else
      let count := entryCount (loadLE m (reloc + 4) 4)
      let m := entryLoop image reloc delta count (reloc + 8) m
      (processed image delta fuel (reloc + loadLE m (reloc + 4) 4) m).map fun r =>
        (r.1, (reloc, count) :: r.2)

/-- `ApplyRelocations` with the blocks that it processes. -/
def relocBlocks (fuel : ℕ) (m : Mem) (physImage virtualImage preferredBase : ℕ) :
    Option (Mem × List (ℕ × ℕ)) :=
  let relocAddr := (readHeaders m physImage).relocAddr
  if relocAddr = 0 then some (m, [])
  else processed physImage (relocDelta virtualImage preferredBase) fuel (physImage + relocAddr) m

/-- `Size` of the relocation directory. -/
def relocSize (m : Mem) (image : ℕ) : ℕ := loadLE m (ntHeaders m image + 180) 4

/-- The call ends, and every block that it processes lies inside the directory. -/
def StaysInside (m : Mem) (image virtualImage preferredBase : ℕ) : Prop :=
  ∃ fuel r, relocBlocks fuel m image virtualImage preferredBase = some r ∧
    ∀ b ∈ r.2, image + (readHeaders m image).relocAddr ≤ b.1 ∧
      b.1 + 8 + 2 * b.2 ≤ image + (readHeaders m image).relocAddr + relocSize m image

/-- From the block at `reloc` on, each block has room for its header and lies in front of `stop`,
    up to one with the address zero. A block is followed by the one that its size leads to after
    its entries were applied, to its own header too. -/
inductive Ends (image delta stop : ℕ) : Mem → ℕ → Prop
  | zero {m : Mem} {reloc : ℕ} : loadLE m reloc 4 = 0 → Ends image delta stop m reloc
  | block {m m' : Mem} {reloc : ℕ} : loadLE m reloc 4 ≠ 0 → 8 ≤ loadLE m (reloc + 4) 4 →
      reloc + 8 + 2 * ((loadLE m (reloc + 4) 4 - 8) / 2) ≤ stop →
      m' = entryLoop image reloc delta ((loadLE m (reloc + 4) 4 - 8) / 2) (reloc + 8) m →
      Ends image delta stop m' (reloc + loadLE m' (reloc + 4) 4) → Ends image delta stop m reloc

variable {m m' : Mem} {image fuel last delta delta' : ℕ} {targets : List ℕ}

/-! ### Words that are patched -/

/-- Two memories that differ in the targets at most, and hold the same words there. -/
theorem patched_ext (image : ℕ) (targets : List ℕ)
    (hout : ∀ a, (∀ t ∈ targets, a < image + t ∨ image + t + 8 ≤ a) → m' a = m a)
    (hin : ∀ t ∈ targets, loadLE m' (image + t) 8 = loadLE m (image + t) 8) : m' = m := by
  funext a
  by_cases h : ∀ t ∈ targets, a < image + t ∨ image + t + 8 ≤ a
  · exact hout a h
  · push Not at h
    obtain ⟨t, ht, hle, hlt⟩ := h
    have hbytes : load m' (image + t) 8 = load m (image + t) 8 := by
      have hword := congrArg (leBytes 8) (hin t ht)
      have hof : ∀ m : Mem, leBytes 8 (loadLE m (image + t) 8) = load m (image + t) 8 := by
        intro m
        have hback := leBytes_leNat (load m (image + t) 8)
        rwa [length_load] at hback
      rwa [hof, hof] at hword
    have hbyte : ∀ m : Mem, (load m (image + t) 8).getD (a - (image + t)) 0 = m a := by
      intro m
      rw [List.getD_eq_getElem _ _ (by rw [length_load]; omega), getElem_load,
        Nat.add_sub_cancel' hle]
    rw [← hbyte m', hbytes, hbyte]

/-- Patching twice is patching once by the sum. -/
theorem patchAll_patchAll (hapart : targets.Pairwise fun t u => t + 8 ≤ u ∨ u + 8 ≤ t) :
    patchAll image delta' targets (patchAll image delta targets m) =
      patchAll image (delta + delta') targets m := by
  refine patched_ext image targets (fun a ha => ?_) fun t ht => ?_
  · rw [patchAll_outside ha, patchAll_outside ha, patchAll_outside ha]
  · rw [loadLE_patchAll _ _ _ hapart ht, loadLE_patchAll _ _ _ hapart ht,
      loadLE_patchAll _ _ _ hapart ht, Nat.mod_add_mod, Nat.add_assoc]

/-- Only the difference modulo 2 ^ 64 counts. -/
theorem patchAll_mod (hapart : targets.Pairwise fun t u => t + 8 ≤ u ∨ u + 8 ≤ t) :
    patchAll image (delta % 2 ^ 64) targets m = patchAll image delta targets m := by
  refine patched_ext image targets (fun a ha => ?_) fun t ht => ?_
  · rw [patchAll_outside ha, patchAll_outside ha]
  · rw [loadLE_patchAll _ _ _ hapart ht, loadLE_patchAll _ _ _ hapart ht, Nat.add_mod_mod]

/-! ### Well-formed directories -/

/-- The word at an offset of the image. -/
theorem loadLE_image (m : Mem) (image k w : ℕ) :
    loadLE (imageBytes m image) k w = loadLE m (image + k) w :=
  (loadLE_shift fun i _ => by rw [imageBytes, Nat.add_assoc]).symm

theorem ntHeaders_image (hpos : loadLE (imageBytes m image) 60 4 < 2 ^ 31) :
    image + ntHeaders (imageBytes m image) 0 = ntHeaders m image := by
  have hpos' : loadLE m (image + 60) 4 < 2 ^ 31 := by rwa [← loadLE_image]
  have hfront : ntHeaders (imageBytes m image) 0 = loadLE (imageBytes m image) 60 4 := by
    rw [ntHeaders, Nat.zero_add, Nat.zero_add]
    exact if_pos hpos
  have hhere : ntHeaders m image = image + loadLE m (image + 60) 4 := by
    rw [ntHeaders]
    exact if_pos hpos'
  rw [hfront, hhere, loadLE_image]

theorem relocAddr_image (hpos : loadLE (imageBytes m image) 60 4 < 2 ^ 31) :
    (readHeaders (imageBytes m image) 0).relocAddr = (readHeaders m image).relocAddr := by
  rw [readHeaders, readHeaders]
  dsimp only
  rw [loadLE_image, ← Nat.add_assoc, ntHeaders_image hpos]

/-- A memory in which only targets differ leads to the same directory. -/
theorem WellFormed.relocAddr (h : WellFormed (imageBytes m image) fuel targets last)
    (hsame : ∀ a, (∀ t ∈ targets, a < image + t ∨ image + t + 8 ≤ a) → m' a = m a) :
    (readHeaders m' image).relocAddr = (readHeaders m image).relocAddr := by
  have hword : loadLE m' (image + 60) 4 = loadLE m (image + 60) 4 := by
    apply loadLE_congr
    intro a h1 h2
    apply hsame
    intro t ht
    have := h.lfanew t ht
    omega
  have hlfanew : ntHeaders m' image = ntHeaders m image := by rw [ntHeaders, ntHeaders, hword]
  rw [readHeaders, readHeaders]
  dsimp only
  rw [hlfanew]
  apply loadLE_congr
  intro a h1 h2
  apply hsame
  intro t ht
  have hdir := h.directory t ht
  rw [← ntHeaders_image h.headers] at h1 h2
  omega

/-- `ApplyRelocations` patches the targets, in the image and in what relocations leave of it. -/
theorem WellFormed.applyRelocations_eq (h : WellFormed (imageBytes m image) fuel targets last)
    (hsame : ∀ a, (∀ t ∈ targets, a < image + t ∨ image + t + 8 ≤ a) → m' a = m a)
    (virtualImage preferredBase : ℕ) :
    applyRelocations fuel m' image virtualImage preferredBase =
      some (patchAll image (relocDelta virtualImage preferredBase) targets m') := by
  have hpresent := h.present
  have hblocks := h.blocks
  have hdata := h.data
  rw [relocAddr_image h.headers] at hpresent hblocks hdata
  have hle := relocTargets_le hblocks
  rw [applyRelocations, h.relocAddr hsame, if_neg hpresent]
  refine blockLoop_eq hblocks (fun i h1 h2 => ?_) le_rfl le_rfl hdata
  apply hsame
  intro t ht
  have := hdata t ht
  omega

theorem relocDelta_eq (B P : UInt64) : relocDelta B.toNat P.toNat = (B - P).toNat := by
  have hB := B.toNat_lt
  have hP := P.toNat_lt
  rw [relocDelta, UInt64.toNat_sub]
  omega

/-- **Relocation** of an image with a well-formed directory from the base `P` to `B` adds the
    difference of the bases to exactly the targets. Going on to `C` is relocating to `C` at
    once, and going back to `P` restores the image. -/
theorem relocations_compose (m : Mem) (image fuel last : ℕ) (targets : List ℕ)
    (h : WellFormed (imageBytes m image) fuel targets last) (P B C : UInt64) :
    ∃ mB mC, applyRelocations fuel m image B.toNat P.toNat = some mB ∧
      (∀ t ∈ targets, loadLE mB (image + t) 8 =
        (loadLE m (image + t) 8 + (B - P).toNat) % 2 ^ 64) ∧
      (∀ a, (∀ t ∈ targets, a < image + t ∨ image + t + 8 ≤ a) → mB a = m a) ∧
      applyRelocations fuel mB image C.toNat B.toNat = some mC ∧
      applyRelocations fuel m image C.toNat P.toNat = some mC ∧
      applyRelocations fuel mB image P.toNat B.toNat = some m := by
  have hsum : ∀ X : UInt64, ((B - P).toNat + (X - B).toNat) % 2 ^ 64 = (X - P).toNat := by
    intro X
    rw [← relocDelta_eq, ← relocDelta_eq, ← relocDelta_eq, relocDelta, relocDelta, relocDelta]
    have hB := B.toNat_lt
    have hP := P.toNat_lt
    omega
  have hout : ∀ a, (∀ t ∈ targets, a < image + t ∨ image + t + 8 ≤ a) →
      patchAll image (B - P).toNat targets m a = m a := fun a ha => patchAll_outside ha
  refine ⟨patchAll image (B - P).toNat targets m, patchAll image (C - P).toNat targets m, ?_,
    fun t ht => loadLE_patchAll m image _ h.apart ht, hout, ?_, ?_, ?_⟩
  · rw [h.applyRelocations_eq (fun _ _ => rfl), relocDelta_eq]
  · rw [h.applyRelocations_eq hout, relocDelta_eq, patchAll_patchAll h.apart,
      ← patchAll_mod h.apart, hsum]
  · rw [h.applyRelocations_eq (fun _ _ => rfl), relocDelta_eq]
  · rw [h.applyRelocations_eq hout, relocDelta_eq, patchAll_patchAll h.apart,
      ← patchAll_mod h.apart, hsum, UInt64.sub_self, UInt64.toNat_zero,
      patchAll_zero]

/-! ### The way of the loop -/

variable {reloc stop : ℕ}

/-- The blocks do not matter for what the loop leaves. -/
theorem processed_fst (image delta fuel reloc : ℕ) (m : Mem) :
    (processed image delta fuel reloc m).map Prod.fst = blockLoop image delta fuel reloc m := by
  induction fuel generalizing reloc m with
  | zero => rfl
  | succ fuel ih =>
    rw [processed, blockLoop]
    dsimp only
    split_ifs with hzero
    · rfl
    · rw [← ih, Option.map_map]
      rfl

theorem relocBlocks_fst (fuel : ℕ) (m : Mem) (image virtualImage preferredBase : ℕ) :
    (relocBlocks fuel m image virtualImage preferredBase).map Prod.fst =
      applyRelocations fuel m image virtualImage preferredBase := by
  rw [relocBlocks, applyRelocations]
  split_ifs with hzero
  · rfl
  · exact processed_fst _ _ _ _ _

/-- A block without room for its header has more entries than a directory can hold. -/
theorem entryCount_short {size : ℕ} (h : size < 8) : 2 ^ 32 ≤ 2 * entryCount size := by
  rw [entryCount]
  omega

/-- Where the blocks of the directory end, so does the loop. -/
theorem Ends.processed (h : Ends image delta stop m reloc) :
    ∃ fuel r, processed image delta fuel reloc m = some r ∧
      ∀ b ∈ r.2, reloc ≤ b.1 ∧ b.1 + 8 + 2 * b.2 ≤ stop := by
  induction h with
  | @zero m reloc hzero =>
    refine ⟨1, (m, []), ?_, fun b hb => ?_⟩
    · rw [Linker.processed, if_pos hzero]
    · cases hb
  | @block m m' reloc hne hsize hstop hm' _ ih =>
    obtain ⟨fuel, r, hr, hinside⟩ := ih
    have hcount := entryCount_eq hsize (loadLE_lt m (reloc + 4) 4)
    refine ⟨fuel + 1, (r.1, (reloc, entryCount (loadLE m (reloc + 4) 4)) :: r.2), ?_, ?_⟩
    · rw [Linker.processed, if_neg hne]
      dsimp only
      rw [hcount, ← hm', hr]
      rfl
    · intro b hb
      obtain rfl | hb := List.mem_cons.mp hb
      · exact ⟨le_rfl, by rwa [hcount]⟩
      · obtain ⟨hle, hb⟩ := hinside b hb
        exact ⟨by omega, hb⟩

/-- A loop that ends inside the directory has gone along its blocks. -/
theorem ends_of_processed {r : Mem × List (ℕ × ℕ)}
    (h : processed image delta fuel reloc m = some r) {start size : ℕ} (hsize : size < 2 ^ 32)
    (hstart : start ≤ reloc) (hinside : ∀ b ∈ r.2, b.1 + 8 + 2 * b.2 ≤ start + size) :
    Ends image delta (start + size) m reloc := by
  induction fuel generalizing reloc m r with
  | zero => cases h
  | succ fuel ih =>
    rw [processed] at h
    dsimp only at h
    split_ifs at h with hzero
    · exact .zero hzero
    · obtain ⟨r', hr', rfl⟩ := Option.map_eq_some_iff.mp h
      have hblock := hinside _ List.mem_cons_self
      dsimp only at hblock
      have hroom : 8 ≤ loadLE m (reloc + 4) 4 := by
        by_contra hshort
        have := entryCount_short (Nat.lt_of_not_le hshort)
        omega
      have hcount := entryCount_eq hroom (loadLE_lt m (reloc + 4) 4)
      rw [hcount] at hblock hr'
      exact .block hzero hroom hblock rfl
        (ih hr' (by omega) fun b hb => hinside b (List.mem_cons_of_mem _ hb))

theorem StaysInside.ends {virtualImage preferredBase : ℕ}
    (h : StaysInside m image virtualImage preferredBase) :
    (readHeaders m image).relocAddr = 0 ∨
      Ends image (relocDelta virtualImage preferredBase)
        (image + (readHeaders m image).relocAddr + relocSize m image) m
        (image + (readHeaders m image).relocAddr) := by
  have hsize : relocSize m image < 2 ^ 32 := loadLE_lt m _ 4
  obtain ⟨fuel, r, hr, hinside⟩ := h
  rw [relocBlocks] at hr
  split_ifs at hr with hzero
  · exact .inl hzero
  · exact .inr (ends_of_processed hr hsize le_rfl fun b hb => (hinside b hb).2)

theorem staysInside_of_ends {virtualImage preferredBase : ℕ}
    (h : (readHeaders m image).relocAddr = 0 ∨
      Ends image (relocDelta virtualImage preferredBase)
        (image + (readHeaders m image).relocAddr + relocSize m image) m
        (image + (readHeaders m image).relocAddr)) :
    StaysInside m image virtualImage preferredBase := by
  by_cases hzero : (readHeaders m image).relocAddr = 0
  · refine ⟨0, (m, []), ?_, fun b hb => ?_⟩
    · rw [relocBlocks]
      exact if_pos hzero
    · cases hb
  · obtain ⟨fuel, r, hr, hinside⟩ := (h.resolve_left hzero).processed
    refine ⟨fuel, r, ?_, hinside⟩
    rw [relocBlocks]
    exact (if_neg hzero).trans hr

/-- **The loop over the blocks** of `ApplyRelocations` ends, and processes only blocks inside the
    directory, exactly if there is no directory or its blocks lie inside it up to one with the
    address zero. -/
theorem processed_inside_iff (m : Mem) (image virtualImage preferredBase : ℕ) :
    (∀ fuel, (relocBlocks fuel m image virtualImage preferredBase).map Prod.fst =
      applyRelocations fuel m image virtualImage preferredBase) ∧
    (StaysInside m image virtualImage preferredBase ↔ (readHeaders m image).relocAddr = 0 ∨
      Ends image (relocDelta virtualImage preferredBase)
        (image + (readHeaders m image).relocAddr + relocSize m image) m
        (image + (readHeaders m image).relocAddr)) :=
  ⟨fun fuel => relocBlocks_fst fuel m image virtualImage preferredBase, StaysInside.ends,
    staysInside_of_ends⟩

/-! ### A small image -/

/-- The bytes of an image with a relocation directory of `size` bytes at 0x140 whose first block
    is for the page 0x1000, has the `SizeOfBlock` given, and one entry for the word at 0x1008. -/
def relocImage (size sizeOfBlock : ℕ) : Mem :=
  [(0x3c, 4, 0x40), (0xf0, 4, 0x140), (0xf4, 4, size), (0x140, 4, 0x1000), (0x144, 4, sizeOfBlock),
    (0x148, 2, 0xa008), (0x1008, 8, 0x1234)].foldl (fun m x => storeLE m x.1 x.2.1 x.2.2) fun _ => 0

/-- The image is relocated from 0 to 0x5000, and from there to 0x9000 or back. -/
theorem relocations_compose_small :
    WellFormed (imageBytes (relocImage 16 12) 0) 2 [0x1008] 0x14c ∧
      ∃ mB mC, applyRelocations 2 (relocImage 16 12) 0 0x5000 0 = some mB ∧
        loadLE mB (0 + 0x1008) 8 = 0x6234 ∧ applyRelocations 2 mB 0 0x9000 0x5000 = some mC ∧
        applyRelocations 2 (relocImage 16 12) 0 0x9000 0 = some mC ∧
        applyRelocations 2 mB 0 0 0x5000 = some (relocImage 16 12) := by
  have h : WellFormed (imageBytes (relocImage 16 12) 0) 2 [0x1008] 0x14c := by
    constructor <;> decide +kernel
  have hword : (loadLE (relocImage 16 12) (0 + 0x1008) 8 + ((0x5000 : UInt64) - 0).toNat) % 2 ^ 64 =
      0x6234 := by
    decide +kernel
  obtain ⟨mB, mC, hB, htargets, -, hC, hC', hback⟩ :=
    relocations_compose (relocImage 16 12) 0 2 0x14c [0x1008] h 0 0x5000 0x9000
  refine ⟨h, mB, mC, hB, ?_, hC, hC', hback⟩
  rw [htargets 0x1008 List.mem_cons_self, hword]

/-- A block whose size is zero: the loop takes its 2 ^ 32 - 4 entries from behind the directory. -/
theorem empty_block_leaves :
    (readHeaders (relocImage 16 0) 0).relocAddr = 0x140 ∧ relocSize (relocImage 16 0) 0 = 16 ∧
      entryCount 0 = 2 ^ 32 - 4 ∧ ¬ StaysInside (relocImage 16 0) 0 0x5000 0 := by
  refine ⟨by decide +kernel, by decide +kernel, by decide, fun h => ?_⟩
  have hpresent : ¬ (readHeaders (relocImage 16 0) 0).relocAddr = 0 := by decide +kernel
  cases h.ends.resolve_left hpresent with
  | zero hzero => exact absurd hzero (by decide +kernel)
  | block _ hsize _ _ _ => exact absurd hsize (by decide +kernel)

end XTOS.Linker

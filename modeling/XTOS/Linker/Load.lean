import XTOS.Lib.Run
import XTOS.Linker.Image
import XTOS.Paging

/-!
# Loading modules

`xtLoadModuleEx` of `xtkernel/linker.c`: the cached image of a module, its mapping into a
process, and its relocation.

## Main definitions

- `Loader` — physical memory, the cached image and the pages of the processes
- `xtGetOrLoadPhysicalModule`, `xtMapModuleToProcess`, `xtLoadModuleEx`
- `PEFile` — a module file with base relocations
- `Relocated` — every process finds the targets moved to its base
- `GoodLoad` — the loads for which that holds

## Design notes

A run loads one module. The pages that `xtAllocatePages` returns are arguments of a load and
apart from those that the loader got before. `xtSetPages` stands as its result, the pages of
each process, which `setPages_shown` takes from the tables. The file is a memory of its own.
-/

namespace XTOS.Linker

open SysLib Paging

/-! ### The loader -/

/-- `XT_MEM_READ`. -/
def xtMemRead : ℕ := 0x0400

/-- `IMAGE_SCN_MEM_WRITE`. -/
def ImageSection.writable (sec : ImageSection) : Bool := sec.characteristics / 2 ^ 31 % 2 = 1

/-- The attributes of the pages of a section. -/
def ImageSection.attr (sec : ImageSection) : ℕ :=
  xtMemUser ||| (if sec.characteristics / 2 ^ 29 % 2 = 1 then xtMemExec else 0) |||
    (if sec.characteristics / 2 ^ 30 % 2 = 1 then xtMemRead else 0) |||
    (if sec.writable then xtMemWrite else 0)

/-- `(size + 0xFFF) & ~0xFFF` in 32 bits. -/
def pageRound (size : ℕ) : ℕ := (size + 0xFFF) % 2 ^ 32 / 4096 * 4096

/-- The pages of the processes: physical address and attributes. -/
abbrev Pages := ℕ → ℕ → Option (ℕ × ℕ)

/-- The state of the loader: memory, the cached image, the pages of each process, the ranges
    that `xtAllocatePages` returned, and the processes with the bases of their loads. -/
structure Loader where
  mem : Mem
  image : Option ℕ
  pages : Pages
  ranges : List (ℕ × ℕ)
  loads : List (ℕ × ℕ)

/-- Headers and sections of a file at their places in the image. -/
def copyImage (file : Mem) (m : Mem) (image : ℕ) : Mem :=
  let h := readHeaders file 0
  h.sections.foldl (fun m sec => store m (image + sec.virtualAddress)
      (load file sec.pointerToRawData sec.sizeOfRawData))
    (store m image (load file 0 h.sizeOfHeaders))

/-- `xtGetOrLoadPhysicalModule`; a new image gets the pages at `physImage`. -/
def xtGetOrLoadPhysicalModule (file : Mem) (s : Loader) (physImage : ℕ) : Loader × ℕ :=
  match s.image with
  | some image => (s, image)
  | none =>
    ({ s with
        mem := copyImage file s.mem physImage
        image := some physImage
        ranges := (physImage, (readHeaders file 0).sizeOfImage) :: s.ranges }, physImage)

/-- `xtSetPages` for whole pages. -/
def setPages (pages : Pages) (process va phys size attr : ℕ) : Pages := fun p page =>
  if p = process ∧ va / 4096 ≤ page ∧ page < (va + size) / 4096 then
    some (phys + (page - va / 4096) * 4096, attr)
  else pages p page

/-- One pass of the loop of `xtMapModuleToProcess`; the private copy of a section goes to
    `copyAt`. -/
def mapSection (image base process : ℕ) (copyAt : ℕ → ℕ) (s : Loader) (sec : ImageSection) :
    Loader :=
  let src := image + sec.virtualAddress
  let va := base + sec.virtualAddress
  let size := pageRound sec.sizeOfRawData
  if sec.writable then
    let privateCopy := copyAt sec.virtualAddress
    { s with
      mem := store s.mem privateCopy (load s.mem src sec.sizeOfRawData)
      pages := setPages s.pages process va privateCopy size sec.attr
      ranges := (privateCopy, size) :: s.ranges }
  else { s with pages := setPages s.pages process va src size sec.attr }

/-- `xtMapModuleToProcess`. -/
def xtMapModuleToProcess (image base process : ℕ) (copyAt : ℕ → ℕ) (s : Loader) : Loader :=
  (readHeaders s.mem image).sections.foldl (mapSection image base process copyAt) s

/-- `xtLoadModuleEx` at a given base. -/
def loadModule (fuel : ℕ) (file : Mem) (s : Loader) (process base physImage : ℕ)
    (copyAt : ℕ → ℕ) : Option Loader :=
  let (s, image) := xtGetOrLoadPhysicalModule file s physImage
  let s := xtMapModuleToProcess image base process copyAt s
  (applyRelocations fuel s.mem image base (readHeaders s.mem image).imageBase).map fun mem =>
    { s with mem := mem, loads := (process, base) :: s.loads }

/-- The random base of a module. -/
def moduleAslr (random : ℕ) : ℕ := 0x7f0000000000 + random % 2 ^ 26 * 2 ^ 12

/-- `xtLoadModuleEx`. -/
def xtLoadModuleEx (fuel : ℕ) (file : Mem) (s : Loader) (process random physImage : ℕ)
    (copyAt : ℕ → ℕ) : Option Loader :=
  loadModule fuel file s process (moduleAslr random) physImage copyAt

/-- The physical address behind an address of a process. -/
def Loader.translate (s : Loader) (p va : ℕ) : Option ℕ :=
  (s.pages p (va / 4096)).map fun x => x.1 + va % 4096

/-- A 64-bit word as a process reads it. -/
def Loader.readWord (s : Loader) (p va : ℕ) : Option ℕ :=
  if ∀ i < 8, (s.translate p (va + i)).isSome then
    some (leNat ((List.range 8).map fun i => s.mem ((s.translate p (va + i)).getD 0)))
  else none

/-! ### Modules and their loads -/

/-- Two ranges have no byte in common. -/
def Apart (x y : ℕ × ℕ) : Prop := x.1 + x.2 ≤ y.1 ∨ y.1 + y.2 ≤ x.1

instance (x y : ℕ × ℕ) : Decidable (Apart x y) := inferInstanceAs (Decidable (_ ∨ _))

/-- The image that a file makes, at address 0. -/
def view (file : Mem) : Mem := copyImage file (fun _ => 0) 0

/-- Byte `r` of the image comes from the raw data of a section. -/
def ImageSection.Holds (sec : ImageSection) (r : ℕ) : Prop :=
  sec.virtualAddress ≤ r ∧ r < sec.virtualAddress + sec.sizeOfRawData

/-- A PE file with base relocations: the headers are in front of the sections, the sections
    are whole pages and apart, and the directory and its targets are in sections and apart. -/
structure PEFile where
  bytes : Mem
  fuel : ℕ
  targets : List ℕ
  last : ℕ
  headers_fit : ntHeaders bytes 0 + 180 ≤ (readHeaders bytes 0).sizeOfHeaders
  sections_listed : firstSection bytes 0 + 40 * loadLE bytes (ntHeaders bytes 0 + 6) 2 ≤
    (readHeaders bytes 0).sizeOfHeaders
  headers_inside : (readHeaders bytes 0).sizeOfHeaders ≤ (readHeaders bytes 0).sizeOfImage
  sections_inside : ∀ sec ∈ (readHeaders bytes 0).sections,
    (readHeaders bytes 0).sizeOfHeaders ≤ sec.virtualAddress ∧ sec.virtualAddress % 4096 = 0 ∧
      sec.sizeOfRawData < 2 ^ 31 ∧
      sec.virtualAddress + pageRound sec.sizeOfRawData ≤ (readHeaders bytes 0).sizeOfImage
  sections_apart : (readHeaders bytes 0).sections.Pairwise fun x y =>
    Apart (x.virtualAddress, pageRound x.sizeOfRawData)
      (y.virtualAddress, pageRound y.sizeOfRawData)
  relocated : (readHeaders bytes 0).relocAddr ≠ 0
  directory : relocTargets (view bytes) fuel (readHeaders bytes 0).relocAddr = some (targets, last)
  directory_inside : ∃ sec ∈ (readHeaders bytes 0).sections,
    sec.virtualAddress ≤ (readHeaders bytes 0).relocAddr ∧
      last + 4 ≤ sec.virtualAddress + sec.sizeOfRawData
  targets_inside : ∀ t ∈ targets, ∃ sec ∈ (readHeaders bytes 0).sections,
    sec.virtualAddress ≤ t ∧ t + 8 ≤ sec.virtualAddress + sec.sizeOfRawData
  targets_outside : ∀ t ∈ targets, t + 8 ≤ (readHeaders bytes 0).relocAddr ∨ last + 4 ≤ t
  targets_apart : targets.Pairwise fun t u => t + 8 ≤ u ∨ u + 8 ≤ t

/-- The headers of the file. -/
def PEFile.headers (f : PEFile) : ImageHeaders := readHeaders f.bytes 0

/-- The answers of `xtAllocatePages` in a load are whole pages, apart from what was returned
    before and from each other. -/
structure Fresh (f : PEFile) (s : Loader) (physImage : ℕ) (copyAt : ℕ → ℕ) : Prop where
  image : s.image = none → ∀ x ∈ s.ranges, Apart x (physImage, f.headers.sizeOfImage)
  copies : ∀ sec ∈ f.headers.sections, sec.writable →
    ∀ x ∈ (xtGetOrLoadPhysicalModule f.bytes s physImage).1.ranges,
      Apart x (copyAt sec.virtualAddress, pageRound sec.sizeOfRawData)
  copies_apart : f.headers.sections.Pairwise fun x y => x.writable → y.writable →
    Apart (copyAt x.virtualAddress, pageRound x.sizeOfRawData)
      (copyAt y.virtualAddress, pageRound y.sizeOfRawData)

/-- A load of the module into some process at some page. -/
def Load (f : PEFile) (s s' : Loader) (base : ℕ) : Prop :=
  ∃ process physImage copyAt, base % 4096 = 0 ∧ Fresh f s physImage copyAt ∧
    loadModule f.fuel f.bytes s process base physImage copyAt = some s'

/-- No target is in a section that can be written. -/
def PEFile.TargetsShared (f : PEFile) : Prop :=
  ∀ sec ∈ f.headers.sections, sec.writable → ∀ t ∈ f.targets,
    Apart (t, 8) (sec.virtualAddress, sec.sizeOfRawData)

/-- A load that leaves every process with its own relocation: there are no targets, or all
    loads are at the preferred base, or it is the first load and no target is copied. -/
def GoodLoad (f : PEFile) (s : Loader) (base : ℕ) : Prop :=
  f.targets = [] ∨ (base = f.headers.imageBase ∧ ∀ x ∈ s.loads, x.2 = f.headers.imageBase) ∨
    (s.loads = [] ∧ f.TargetsShared)

/-- Before the first load. -/
def Initial (s : Loader) : Prop := s.image = none ∧ s.loads = [] ∧ s.ranges = []

/-- Every process that loaded the module reads its targets moved to its base. -/
def Relocated (f : PEFile) (s : Loader) : Prop :=
  ∀ x ∈ s.loads, ∀ t ∈ f.targets, s.readWord x.1 (x.2 + t) =
    some ((loadLE (view f.bytes) t 8 + (x.2 + (2 ^ 64 - f.headers.imageBase))) % 2 ^ 64)

/-! ### The pages of a process -/

/-- The tables of a process map the addresses of its pages, with the flags of their attributes, and
    no others. -/
def Shown (mem : ℕ → ℕ) (pageTable : ℕ) (pages : ℕ → Option (ℕ × ℕ)) : Prop :=
  ∀ v, Paging.Canonical v → match pages (v / 4096) with
    | some (phys, attr) =>
      Mapped mem (higherHalfMem pageTable) (xtBuildFlags attr) v (phys + v % 4096)
    | none => leaf mem (higherHalfMem pageTable) (path v) = none

theorem setPages_inside {pages : Pages} {process va phys size attr page : ℕ}
    (h : va / 4096 ≤ page ∧ page < (va + size) / 4096) :
    setPages pages process va phys size attr process page =
      some (phys + (page - va / 4096) * 4096, attr) := if_pos ⟨rfl, h⟩

theorem setPages_outside {pages : Pages} {p va phys size attr q page : ℕ}
    (h : q ≠ p ∨ page < va / 4096 ∨ (va + size) / 4096 ≤ page) :
    setPages pages p va phys size attr q page = pages q page := by
  rw [setPages, if_neg]
  omega

/-- **The pages of a process** are those that `xtSetPages` puts into its tables. -/
theorem setPages_shown {s s' : Paging.State} {pages : Pages} {fuel pageTable process : ℕ}
    {va phys size attr : ℕ} (htree : Tree s.mem pageTable) (hfresh : Paging.Fresh s pageTable)
    (hva : va % 4096 = 0) (hphys : phys % 4096 = 0) (hsize : size % 4096 = 0)
    (hend : phys + size ≤ 2 ^ 52) (hhalf : InHalf va size)
    (hlarge : ∀ o < size, NoLargeLeaf s.mem pageTable (va + o))
    (htop : ∀ o < size, TopClear s.mem pageTable (va + o))
    (hshown : Shown s.mem pageTable (pages process))
    (hcall : xtSetPages fuel s pageTable va phys size attr = some (s', .success)) :
    Shown s'.mem pageTable (setPages pages process va phys size attr process) := by
  have hne : pageTable ≠ 0 := by
    rintro rfl
    cases hcall
  rw [xtSetPages, if_neg hne] at hcall
  obtain ⟨owner, hinv⟩ := htree.exists_inv hfresh
  have hoffset : ∀ v, va ≤ v → v < va + size → v - va < size ∧ va + (v - va) = v :=
    fun v h1 h2 => by omega
  obtain ⟨hin, hout⟩ := setPagesLoop_maps hne fuel hinv hva hphys hsize hhalf (by omega)
    (fun v h1 h2 => by
      have hv := hoffset v h1 h2
      have hclear := htop _ hv.1
      rwa [hv.2] at hclear)
    (fun v h1 h2 => by
      have hv := hoffset v h1 h2
      have hsmall := hlarge _ hv.1
      rwa [hv.2] at hsmall) hcall
  intro v hv
  by_cases hpage : va / 4096 ≤ v / 4096 ∧ v / 4096 < (va + size) / 4096
  · rw [setPages_inside hpage]
    have hmap := hin v (by omega) (by omega)
    have haddr : (phys + (v - va)) % 2 ^ 52 =
        phys + (v / 4096 - va / 4096) * 4096 + v % 4096 := by omega
    rwa [haddr] at hmap
  · rw [setPages_outside (.inr (by omega))]
    have hold := hshown v hv
    have hsame := hout v hv (by omega)
    cases hentry : pages process (v / 4096) with
    | none =>
      rw [hentry] at hold
      exact hsame.trans hold
    | some x =>
      rw [hentry] at hold
      obtain ⟨e, k, hleaf, haddr, hflags⟩ := hold
      exact ⟨e, k, hsame.trans hleaf, haddr, hflags⟩

/-! ### The image in memory -/

section image

variable {file m m' : Mem} {image r : ℕ} {secs : List ImageSection}

theorem store_shift {a : ℕ} {xs : List UInt8} (h : m' (image + r) = m r) :
    store m' (image + a) xs (image + r) = store m a xs r := by
  simp only [store, Nat.add_le_add_iff_left, Nat.add_sub_add_left, h]

/-- The loop of `xtGetOrLoadPhysicalModule` over the sections. -/
def copySections (file : Mem) (image : ℕ) (secs : List ImageSection) (m : Mem) : Mem :=
  secs.foldl (fun m sec => store m (image + sec.virtualAddress)
    (load file sec.pointerToRawData sec.sizeOfRawData)) m

theorem copySections_cons (sec : ImageSection) : copySections file image (sec :: secs) m =
    copySections file image secs (store m (image + sec.virtualAddress)
      (load file sec.pointerToRawData sec.sizeOfRawData)) := rfl

theorem copySections_shift (h : m' (image + r) = m r) :
    copySections file image secs m' (image + r) = copySections file 0 secs m r := by
  induction secs generalizing m m' with
  | nil => exact h
  | cons sec secs ih =>
    rw [copySections_cons, copySections_cons, Nat.zero_add]
    exact ih (store_shift h)

/-- Raw data lies in the image whatever was there. -/
theorem copySections_holds {sec : ImageSection} (hsec : sec ∈ secs) (hr : sec.Holds r) :
    copySections file image secs m' (image + r) = copySections file 0 secs m r := by
  induction secs generalizing m m' with
  | nil => cases hsec
  | cons head secs ih =>
    rw [copySections_cons, copySections_cons, Nat.zero_add]
    obtain rfl | hsec := List.mem_cons.mp hsec
    · refine copySections_shift ?_
      obtain ⟨hle, hlt⟩ := hr
      rw [store_inside _ _ (by omega) (by rw [length_load]; omega),
        store_inside _ _ hle (by rw [length_load]; omega)]
      simp only [Nat.add_sub_add_left]
    · exact ih hsec

theorem copySections_outside {n i : ℕ}
    (hin : ∀ sec ∈ secs, sec.virtualAddress + sec.sizeOfRawData ≤ n)
    (hi : i < image ∨ image + n ≤ i) : copySections file image secs m i = m i := by
  induction secs generalizing m with
  | nil => rfl
  | cons sec secs ih =>
    have hsec := hin sec List.mem_cons_self
    rw [copySections_cons, ih fun x hx => hin x (List.mem_cons_of_mem _ hx),
      store_outside _ _ (by rw [length_load]; omega)]

/-- Bytes that no raw data is copied to keep what they held. -/
theorem copySections_gap (hgap : ∀ sec ∈ secs, ¬ sec.Holds r) :
    copySections file image secs m (image + r) = m (image + r) := by
  induction secs generalizing m with
  | nil => rfl
  | cons sec secs ih =>
    have hsec := hgap sec List.mem_cons_self
    rw [ImageSection.Holds] at hsec
    rw [copySections_cons, ih fun x hx => hgap x (List.mem_cons_of_mem _ hx),
      store_outside _ _ (by rw [length_load]; omega)]

/-- Raw data of a section that shares no byte with another. -/
theorem copySections_raw {sec : ImageSection} (hsec : sec ∈ secs)
    (hapart : secs.Pairwise fun x y => ¬ (x.Holds r ∧ y.Holds r)) (hr : sec.Holds r) :
    copySections file image secs m (image + r) =
      file (sec.pointerToRawData + (r - sec.virtualAddress)) := by
  induction secs generalizing m with
  | nil => cases hsec
  | cons head secs ih =>
    obtain ⟨hhead, htail⟩ := List.pairwise_cons.mp hapart
    rw [copySections_cons]
    obtain rfl | hsec := List.mem_cons.mp hsec
    · obtain ⟨hle, hlt⟩ := hr
      rw [copySections_gap fun x hx hx' => hhead x hx ⟨⟨hle, hlt⟩, hx'⟩,
        store_inside _ _ (by omega) (by rw [length_load]; omega), getElem_load]
      congr 2
      omega
    · exact ih hsec htail

theorem copyImage_eq (file m : Mem) (image : ℕ) : copyImage file m image =
    copySections file image (readHeaders file 0).sections
      (store m image (load file 0 (readHeaders file 0).sizeOfHeaders)) := rfl

/-- The headers of an image whose sections lie behind them. -/
theorem copyImage_header (hfront : ∀ sec ∈ (readHeaders file 0).sections,
      (readHeaders file 0).sizeOfHeaders ≤ sec.virtualAddress)
    (hr : r < (readHeaders file 0).sizeOfHeaders) : copyImage file m image (image + r) = file r := by
  rw [copyImage_eq, copySections_gap, store_at _ _ _ (by rwa [length_load]), getElem_load,
    Nat.zero_add]
  rintro sec hsec ⟨hle, -⟩
  have := hfront sec hsec
  omega

/-- An image that fits in `n` bytes. -/
theorem copyImage_outside {n i : ℕ} (hheaders : (readHeaders file 0).sizeOfHeaders ≤ n)
    (hin : ∀ sec ∈ (readHeaders file 0).sections, sec.virtualAddress + sec.sizeOfRawData ≤ n)
    (hi : i < image ∨ image + n ≤ i) : copyImage file m image i = m i := by
  rw [copyImage_eq, copySections_outside hin hi, store_outside _ _ (by rw [length_load]; omega)]

end image

/-- Byte `r` of the image comes from the file. -/
def PEFile.Covers (f : PEFile) (r : ℕ) : Prop :=
  r < f.headers.sizeOfHeaders ∨ ∃ sec ∈ f.headers.sections, sec.Holds r

theorem le_pageRound {size : ℕ} (h : size < 2 ^ 31) : size ≤ pageRound size := by
  rw [pageRound, Nat.mod_eq_of_lt (by omega)]
  omega

theorem pageRound_mod (size : ℕ) : pageRound size % 4096 = 0 := Nat.mul_mod_left _ _

variable (f : PEFile)

theorem PEFile.section_bounds {sec : ImageSection} (h : sec ∈ f.headers.sections) :
    f.headers.sizeOfHeaders ≤ sec.virtualAddress ∧ sec.virtualAddress % 4096 = 0 ∧
      sec.sizeOfRawData ≤ pageRound sec.sizeOfRawData ∧
      sec.virtualAddress + pageRound sec.sizeOfRawData ≤ f.headers.sizeOfImage := by
  obtain ⟨hfront, haligned, hsize, hend⟩ := f.sections_inside sec h
  exact ⟨hfront, haligned, le_pageRound hsize, hend⟩

/-- The image holds what comes from the file, whatever was there. -/
theorem PEFile.copyImage_covered (m : Mem) (image : ℕ) {r : ℕ} (h : f.Covers r) :
    copyImage f.bytes m image (image + r) = view f.bytes r := by
  rw [view, copyImage_eq, copyImage_eq]
  obtain h | ⟨sec, hsec, hr⟩ := h
  · apply copySections_shift
    rw [store_at _ _ _ (by rwa [length_load]),
      store_inside _ _ (Nat.zero_le r) (by rwa [length_load])]
    rfl
  · exact copySections_holds hsec hr

theorem PEFile.copyImage_outside (m : Mem) {image i : ℕ}
    (h : i < image ∨ image + f.headers.sizeOfImage ≤ i) : copyImage f.bytes m image i = m i := by
  refine Linker.copyImage_outside f.headers_inside (fun sec hsec => ?_) h
  have hsec' := f.section_bounds hsec
  rw [PEFile.headers] at hsec'
  omega

theorem PEFile.view_header {r : ℕ} (h : r < f.headers.sizeOfHeaders) :
    view f.bytes r = f.bytes r := by
  rw [view, ← Nat.zero_add r, copyImage_header (fun sec hsec => (f.section_bounds hsec).1) h,
    Nat.zero_add]

/-- A memory that holds the image of the file holds its headers. -/
theorem PEFile.readHeaders_eq {m : Mem} {image : ℕ}
    (h : ∀ r, f.Covers r → m (image + r) = view f.bytes r) : readHeaders m image = f.headers := by
  refine readHeaders_shift (sizeOfHeaders_lt _ _) (fun i hi => ?_) f.headers_fit f.sections_listed
  rw [h i (.inl hi), f.view_header hi]

theorem PEFile.target_covered {t i : ℕ} (ht : t ∈ f.targets) (hi : i < 8) : f.Covers (t + i) := by
  obtain ⟨sec, hsec, hle, hlt⟩ := f.targets_inside t ht
  exact .inr ⟨sec, hsec, by omega, by omega⟩

theorem PEFile.covered_lt {r : ℕ} (h : f.Covers r) : r < f.headers.sizeOfImage := by
  obtain h | ⟨sec, hsec, hle, hlt⟩ := h
  · exact h.trans_le f.headers_inside
  · have hbounds := f.section_bounds hsec
    omega

/-- Relocation of an image of the file. -/
theorem PEFile.applyRelocations_eq {m : Mem} {image base : ℕ}
    (h : ∀ r, f.Covers r → m (image + r) = view f.bytes r) :
    applyRelocations f.fuel m image base (readHeaders m image).imageBase =
      some (patchAll image (relocDelta base f.headers.imageBase) f.targets m) := by
  obtain ⟨sec, hsec, hle, hlt⟩ := f.directory_inside
  rw [applyRelocations, f.readHeaders_eq h, if_neg (show f.headers.relocAddr ≠ 0 from f.relocated)]
  refine blockLoop_eq f.directory (fun i h1 h2 => h i (.inr ⟨sec, hsec, ?_, ?_⟩)) le_rfl
    (show f.last + 4 ≤ f.last + 4 from le_rfl) f.targets_outside
  · exact hle.trans h1
  · omega

/-! ### The mapping of the sections -/

section mapping

variable {image base process : ℕ} {copyAt : ℕ → ℕ} {s : Loader} {secs : List ImageSection}

/-- Where the bytes of a section are that a load maps. -/
def sectionSource (image : ℕ) (copyAt : ℕ → ℕ) (sec : ImageSection) : ℕ :=
  if sec.writable then copyAt sec.virtualAddress else image + sec.virtualAddress

/-- The sections of a load: whole pages, apart, and their copies apart from each other and from
    the image. -/
structure Mappable (imageSize image : ℕ) (copyAt : ℕ → ℕ) (secs : List ImageSection) : Prop where
  aligned : ∀ sec ∈ secs, sec.virtualAddress % 4096 = 0
  raw : ∀ sec ∈ secs, sec.sizeOfRawData ≤ pageRound sec.sizeOfRawData
  inside : ∀ sec ∈ secs, sec.virtualAddress + pageRound sec.sizeOfRawData ≤ imageSize
  apart : secs.Pairwise fun x y => Apart (x.virtualAddress, pageRound x.sizeOfRawData)
    (y.virtualAddress, pageRound y.sizeOfRawData)
  copies : ∀ sec ∈ secs, sec.writable →
    Apart (image, imageSize) (copyAt sec.virtualAddress, pageRound sec.sizeOfRawData)
  copies_apart : secs.Pairwise fun x y => x.writable → y.writable →
    Apart (copyAt x.virtualAddress, pageRound x.sizeOfRawData)
      (copyAt y.virtualAddress, pageRound y.sizeOfRawData)

theorem Mappable.tail {imageSize : ℕ} {sec : ImageSection}
    (h : Mappable imageSize image copyAt (sec :: secs)) : Mappable imageSize image copyAt secs where
  aligned x hx := h.aligned x (List.mem_cons_of_mem _ hx)
  raw x hx := h.raw x (List.mem_cons_of_mem _ hx)
  inside x hx := h.inside x (List.mem_cons_of_mem _ hx)
  apart := (List.pairwise_cons.mp h.apart).2
  copies x hx := h.copies x (List.mem_cons_of_mem _ hx)
  copies_apart := (List.pairwise_cons.mp h.copies_apart).2

theorem mapSection_pages (sec : ImageSection) :
    (mapSection image base process copyAt s sec).pages = setPages s.pages process
      (base + sec.virtualAddress) (sectionSource image copyAt sec)
      (pageRound sec.sizeOfRawData) sec.attr := by
  rw [mapSection, sectionSource]
  split_ifs <;> rfl

theorem mapSection_mem_outside {sec : ImageSection} {a : ℕ}
    (hraw : sec.sizeOfRawData ≤ pageRound sec.sizeOfRawData)
    (ha : sec.writable → a < copyAt sec.virtualAddress ∨
      copyAt sec.virtualAddress + pageRound sec.sizeOfRawData ≤ a) :
    (mapSection image base process copyAt s sec).mem a = s.mem a := by
  rw [mapSection]
  split_ifs with hw
  · have ha' := ha hw
    exact store_outside _ _ (by rw [length_load]; omega)
  · rfl

/-- The source of a section holds what the image held. -/
theorem mapSection_mem {sec : ImageSection} {k : ℕ} (hk : k < sec.sizeOfRawData) :
    (mapSection image base process copyAt s sec).mem (sectionSource image copyAt sec + k) =
      s.mem (image + sec.virtualAddress + k) := by
  rw [mapSection, sectionSource]
  split_ifs
  · dsimp only
    rw [store_at _ _ _ (by rwa [length_load]), getElem_load]
  · rfl

/-- The loop over the sections of a module. -/
def mapSections (image base process : ℕ) (copyAt : ℕ → ℕ) (secs : List ImageSection)
    (s : Loader) : Loader := secs.foldl (mapSection image base process copyAt) s

theorem mapSections_cons (sec : ImageSection) : mapSections image base process copyAt (sec :: secs)
    s = mapSections image base process copyAt secs (mapSection image base process copyAt s sec) := rfl

theorem xtMapModuleToProcess_eq : xtMapModuleToProcess image base process copyAt s =
    mapSections image base process copyAt (readHeaders s.mem image).sections s := rfl

theorem mapSections_other {q page : ℕ} (hq : q ≠ process) :
    (mapSections image base process copyAt secs s).pages q page = s.pages q page := by
  induction secs generalizing s with
  | nil => rfl
  | cons sec secs ih => rw [mapSections_cons, ih, mapSection_pages, setPages_outside (.inl hq)]

theorem mapSections_pages_outside {imageSize page : ℕ} (h : Mappable imageSize image copyAt secs)
    (hbase : base % 4096 = 0) (hpage : ∀ sec ∈ secs, page * 4096 < base + sec.virtualAddress ∨
      base + sec.virtualAddress + pageRound sec.sizeOfRawData ≤ page * 4096) :
    (mapSections image base process copyAt secs s).pages process page = s.pages process page := by
  induction secs generalizing s with
  | nil => rfl
  | cons sec secs ih =>
    have hsec := hpage sec List.mem_cons_self
    have haligned := h.aligned sec List.mem_cons_self
    have hround := pageRound_mod sec.sizeOfRawData
    rw [mapSections_cons, ih h.tail fun x hx => hpage x (List.mem_cons_of_mem _ hx),
      mapSection_pages, setPages_outside (by omega)]

theorem mapSections_mem_outside {imageSize a : ℕ} (h : Mappable imageSize image copyAt secs)
    (ha : ∀ sec ∈ secs, sec.writable → a < copyAt sec.virtualAddress ∨
      copyAt sec.virtualAddress + pageRound sec.sizeOfRawData ≤ a) :
    (mapSections image base process copyAt secs s).mem a = s.mem a := by
  induction secs generalizing s with
  | nil => rfl
  | cons sec secs ih =>
    rw [mapSections_cons, ih h.tail fun x hx => ha x (List.mem_cons_of_mem _ hx),
      mapSection_mem_outside (h.raw sec List.mem_cons_self) (ha sec List.mem_cons_self)]

theorem mapSections_image_eq : (mapSections image base process copyAt secs s).image = s.image := by
  induction secs generalizing s with
  | nil => rfl
  | cons sec secs ih =>
    rw [mapSections_cons, ih, mapSection]
    split_ifs <;> rfl

theorem mapSections_loads : (mapSections image base process copyAt secs s).loads = s.loads := by
  induction secs generalizing s with
  | nil => rfl
  | cons sec secs ih =>
    rw [mapSections_cons, ih, mapSection]
    split_ifs <;> rfl

theorem mapSections_ranges {x : ℕ × ℕ} (hx : x ∈ s.ranges) :
    x ∈ (mapSections image base process copyAt secs s).ranges := by
  induction secs generalizing s with
  | nil => exact hx
  | cons sec secs ih =>
    rw [mapSections_cons]
    apply ih
    rw [mapSection]
    split_ifs
    · exact List.mem_cons_of_mem _ hx
    · exact hx

/-- The image is not written. -/
theorem mapSections_image {imageSize k : ℕ} (h : Mappable imageSize image copyAt secs)
    (hk : k < imageSize) : (mapSections image base process copyAt secs s).mem (image + k) =
      s.mem (image + k) := by
  refine mapSections_mem_outside h fun sec hsec hw => ?_
  have hcopy := h.copies sec hsec hw
  rw [Apart] at hcopy
  omega

/-- The pages of a section that the process sees. -/
theorem mapSections_pages (process : ℕ) {imageSize : ℕ} (h : Mappable imageSize image copyAt secs)
    (hbase : base % 4096 = 0) {sec : ImageSection} (hsec : sec ∈ secs) {k : ℕ}
    (hk : k < pageRound sec.sizeOfRawData) :
    (mapSections image base process copyAt secs s).pages process
        ((base + sec.virtualAddress + k) / 4096) =
      some (sectionSource image copyAt sec + k / 4096 * 4096, sec.attr) := by
  induction secs generalizing s with
  | nil => cases hsec
  | cons head secs ih =>
    rw [mapSections_cons]
    obtain ⟨hhead, -⟩ := List.pairwise_cons.mp h.apart
    obtain rfl | hsec := List.mem_cons.mp hsec
    · have haligned := h.aligned sec List.mem_cons_self
      have hround := pageRound_mod sec.sizeOfRawData
      have hpage : (base + sec.virtualAddress + k) / 4096 - (base + sec.virtualAddress) / 4096 =
          k / 4096 := by omega
      rw [mapSections_pages_outside h.tail hbase, mapSection_pages, setPages_inside (by omega),
        hpage]
      · -- no later section is mapped over these pages
        intro x hx
        have hx' := hhead x hx
        have hxa := h.aligned x (List.mem_cons_of_mem _ hx)
        have hxr := pageRound_mod x.sizeOfRawData
        rw [Apart] at hx'
        omega
    · exact ih h.tail hsec

/-- The pages of a section hold its raw data and, behind it, what they held before. -/
theorem mapSections_source (process : ℕ) {imageSize : ℕ} (h : Mappable imageSize image copyAt secs)
    {sec : ImageSection} (hsec : sec ∈ secs) {k : ℕ} (hk : k < pageRound sec.sizeOfRawData) :
    (mapSections image base process copyAt secs s).mem (sectionSource image copyAt sec + k) =
      if k < sec.sizeOfRawData then s.mem (image + sec.virtualAddress + k)
      else s.mem (sectionSource image copyAt sec + k) := by
  induction secs generalizing s with
  | nil => cases hsec
  | cons head secs ih =>
    rw [mapSections_cons]
    obtain ⟨hcopies, -⟩ := List.pairwise_cons.mp h.copies_apart
    obtain rfl | hsec := List.mem_cons.mp hsec
    · have hinside := h.inside sec List.mem_cons_self
      rw [mapSections_mem_outside h.tail]
      · split_ifs with hraw
        · exact mapSection_mem hraw
        · rw [mapSection, sectionSource]
          split_ifs
          · exact store_outside _ _ (by rw [length_load]; omega)
          · rfl
      · intro x hx hw
        have hcopy := h.copies x (List.mem_cons_of_mem _ hx) hw
        rw [sectionSource]
        split_ifs with hsec
        · have := hcopies x hx hsec hw
          rw [Apart] at this
          omega
        · rw [Apart] at hcopy
          omega
    · have hinside := h.inside sec (List.mem_cons_of_mem _ hsec)
      have hraw := h.raw head List.mem_cons_self
      have hsame : ∀ a, (head.writable → a < copyAt head.virtualAddress ∨
          copyAt head.virtualAddress + pageRound head.sizeOfRawData ≤ a) →
          (mapSection image base process copyAt s head).mem a = s.mem a :=
        fun a => mapSection_mem_outside hraw
      rw [ih h.tail hsec, hsame, hsame]
      · intro hw
        have hcopy := h.copies head List.mem_cons_self hw
        rw [sectionSource]
        split_ifs with hw'
        · have := hcopies sec hsec hw hw'
          rw [Apart] at this
          omega
        · rw [Apart] at hcopy
          omega
      · intro hw
        have hcopy := h.copies head List.mem_cons_self hw
        rw [Apart] at hcopy
        omega

/-- The pages of a private copy belong to the loader. -/
theorem mapSections_copy_range {sec : ImageSection} (hsec : sec ∈ secs) (hw : sec.writable) :
    (copyAt sec.virtualAddress, pageRound sec.sizeOfRawData) ∈
      (mapSections image base process copyAt secs s).ranges := by
  induction secs generalizing s with
  | nil => cases hsec
  | cons head secs ih =>
    rw [mapSections_cons]
    obtain rfl | hsec := List.mem_cons.mp hsec
    · apply mapSections_ranges
      rw [mapSection, if_pos hw]
      exact List.mem_cons_self
    · exact ih hsec

/-- The process reads the bytes of the image, and from pages of the loader. -/
theorem mapSections_translate (process : ℕ) {imageSize : ℕ} (h : Mappable imageSize image copyAt secs)
    (hbase : base % 4096 = 0) {sec : ImageSection} (hsec : sec ∈ secs) {r : ℕ} (hr : sec.Holds r) :
    (mapSections image base process copyAt secs s).translate process (base + r) =
        some (sectionSource image copyAt sec + (r - sec.virtualAddress)) ∧
      (mapSections image base process copyAt secs s).mem
        (sectionSource image copyAt sec + (r - sec.virtualAddress)) = s.mem (image + r) ∧
      (sec.writable →
        (copyAt sec.virtualAddress, pageRound sec.sizeOfRawData) ∈
          (mapSections image base process copyAt secs s).ranges) := by
  obtain ⟨hle, hlt⟩ := hr
  have haligned := h.aligned sec hsec
  have hk : r - sec.virtualAddress < pageRound sec.sizeOfRawData := by
    have := h.raw sec hsec
    omega
  have hva : base + r = base + sec.virtualAddress + (r - sec.virtualAddress) := by omega
  refine ⟨?_, ?_, mapSections_copy_range hsec⟩
  · rw [Loader.translate, hva, mapSections_pages process h hbase hsec hk, Option.map_some,
      Option.some_inj]
    omega
  · rw [mapSections_source process h hsec hk, if_pos (by omega)]
    congr 1
    omega

end mapping

/-! ### Loads -/

section loads

variable {f : PEFile} {s s' : Loader} {image base process physImage : ℕ} {copyAt : ℕ → ℕ}

/-- The cached image holds the bytes of the file. -/
structure HasImage (f : PEFile) (s : Loader) (image : ℕ) : Prop where
  cached : s.image = some image
  bytes : ∀ r, f.Covers r → s.mem (image + r) = view f.bytes r
  range : (image, f.headers.sizeOfImage) ∈ s.ranges

/-- The first step of a load finds or makes the image, and writes to new pages only. -/
theorem getOrLoad_spec (h : s.image = none ∨ ∃ image, HasImage f s image)
    (hfresh : Fresh f s physImage copyAt) :
    HasImage f (xtGetOrLoadPhysicalModule f.bytes s physImage).1
        (xtGetOrLoadPhysicalModule f.bytes s physImage).2 ∧
      (xtGetOrLoadPhysicalModule f.bytes s physImage).1.pages = s.pages ∧
      (xtGetOrLoadPhysicalModule f.bytes s physImage).1.loads = s.loads ∧
      (∀ x ∈ s.ranges, x ∈ (xtGetOrLoadPhysicalModule f.bytes s physImage).1.ranges) ∧
      ∀ x ∈ s.ranges, ∀ a, x.1 ≤ a → a < x.1 + x.2 →
        (xtGetOrLoadPhysicalModule f.bytes s physImage).1.mem a = s.mem a := by
  rw [xtGetOrLoadPhysicalModule]
  split
  · rename_i image himage
    obtain hnone | ⟨image', hhas⟩ := h
    · rw [hnone] at himage
      cases himage
    · obtain rfl : image' = image := Option.some.inj (hhas.cached.symm.trans himage)
      exact ⟨hhas, rfl, rfl, fun _ hx => hx, fun _ _ _ _ _ => rfl⟩
  · rename_i hnone
    refine ⟨⟨rfl, fun r hr => f.copyImage_covered s.mem physImage hr, List.mem_cons_self⟩, rfl, rfl,
      fun x hx => List.mem_cons_of_mem _ hx, fun x hx a h1 h2 => ?_⟩
    have hapart := hfresh.image hnone x hx
    rw [Apart] at hapart
    exact f.copyImage_outside s.mem (by omega)

theorem Fresh.mappable (h : Fresh f s physImage copyAt)
    (hrange : (image, f.headers.sizeOfImage) ∈
      (xtGetOrLoadPhysicalModule f.bytes s physImage).1.ranges) :
    Mappable f.headers.sizeOfImage image copyAt f.headers.sections where
  aligned _ hsec := (f.section_bounds hsec).2.1
  raw _ hsec := (f.section_bounds hsec).2.2.1
  inside _ hsec := (f.section_bounds hsec).2.2.2
  apart := f.sections_apart
  copies sec hsec hw := h.copies sec hsec hw _ hrange
  copies_apart := h.copies_apart

/-- What a load does, with the image as it finds or makes it. -/
theorem loadModule_eq (base process : ℕ) (h : s.image = none ∨ ∃ image, HasImage f s image)
    (hfresh : Fresh f s physImage copyAt) :
    ∃ s₁ image, HasImage f s₁ image ∧ s₁.pages = s.pages ∧ s₁.loads = s.loads ∧
      (∀ x ∈ s.ranges, x ∈ s₁.ranges) ∧
      (∀ x ∈ s.ranges, ∀ a, x.1 ≤ a → a < x.1 + x.2 → s₁.mem a = s.mem a) ∧
      (∀ sec ∈ f.headers.sections, sec.writable → ∀ x ∈ s₁.ranges,
        Apart x (copyAt sec.virtualAddress, pageRound sec.sizeOfRawData)) ∧
      Mappable f.headers.sizeOfImage image copyAt f.headers.sections ∧
      loadModule f.fuel f.bytes s process base physImage copyAt =
        some ⟨patchAll image (relocDelta base f.headers.imageBase) f.targets
            (mapSections image base process copyAt f.headers.sections s₁).mem,
          s₁.image, (mapSections image base process copyAt f.headers.sections s₁).pages,
          (mapSections image base process copyAt f.headers.sections s₁).ranges,
          (process, base) :: s.loads⟩ := by
  obtain ⟨hhas, hpages, hloads, hranges, hmem⟩ := getOrLoad_spec h hfresh
  have hmap := hfresh.mappable hhas.range
  refine ⟨_, _, hhas, hpages, hloads, hranges, hmem, hfresh.copies, hmap, ?_⟩
  have hbytes : ∀ r, f.Covers r →
      (mapSections (xtGetOrLoadPhysicalModule f.bytes s physImage).2 base process copyAt
        f.headers.sections (xtGetOrLoadPhysicalModule f.bytes s physImage).1).mem
          ((xtGetOrLoadPhysicalModule f.bytes s physImage).2 + r) = view f.bytes r := by
    intro r hr
    rw [mapSections_image hmap (f.covered_lt hr), hhas.bytes r hr]
  rw [loadModule]
  dsimp only
  rw [xtMapModuleToProcess_eq, f.readHeaders_eq hhas.bytes, f.applyRelocations_eq hbytes,
    Option.map_some, mapSections_loads, hloads, mapSections_image_eq]

/-- A word whose bytes a process reads one by one. -/
theorem readWord_eq {p va : ℕ} {bytes : ℕ → UInt8}
    (h : ∀ i < 8, ∃ a, s.translate p (va + i) = some a ∧ s.mem a = bytes i) :
    s.readWord p va = some (leNat ((List.range 8).map bytes)) := by
  rw [Loader.readWord, if_pos fun i hi => ?_]
  · congr 2
    apply List.map_congr_left
    intro i hi
    obtain ⟨a, ha, hbyte⟩ := h i (List.mem_range.mp hi)
    rw [ha, Option.getD_some, hbyte]
  · obtain ⟨a, ha, -⟩ := h i hi
    rw [ha]
    rfl

/-- All loads were at the preferred base: the image is as in the file, and so is what every
    process reads. -/
structure Home (f : PEFile) (s : Loader) : Prop where
  image : ∃ image, HasImage f s image
  loaded : s.loads ≠ []
  bases : ∀ x ∈ s.loads, x.2 = f.headers.imageBase
  reads : ∀ x ∈ s.loads, ∀ t ∈ f.targets, ∀ i < 8, ∃ a,
    s.translate x.1 (f.headers.imageBase + t + i) = some a ∧ s.mem a = view f.bytes (t + i) ∧
      ∃ y ∈ s.ranges, y.1 ≤ a ∧ a < y.1 + y.2

theorem imageBase_lt (f : PEFile) : f.headers.imageBase < 2 ^ 64 := loadLE_lt _ _ 8

theorem Home.relocated (h : Home f s) : Relocated f s := by
  intro x hx t ht
  have hlt := imageBase_lt f
  have hword := loadLE_lt (view f.bytes) t 8
  rw [h.bases x hx, readWord_eq fun i hi => ?_]
  · change some (loadLE (view f.bytes) t 8) = _
    rw [Option.some_inj]
    omega
  · obtain ⟨a, ha, hbyte, -⟩ := h.reads x hx t ht i hi
    exact ⟨a, ha, hbyte⟩

/-- What is in ranges of the loader survives the mapping of new sections. -/
theorem mapSections_range_mem (hmap : Mappable f.headers.sizeOfImage image copyAt f.headers.sections)
    (hcopies : ∀ sec ∈ f.headers.sections, sec.writable → ∀ x ∈ s.ranges,
      Apart x (copyAt sec.virtualAddress, pageRound sec.sizeOfRawData))
    {y : ℕ × ℕ} (hy : y ∈ s.ranges) {a : ℕ} (h1 : y.1 ≤ a) (h2 : a < y.1 + y.2) :
    (mapSections image base process copyAt f.headers.sections s).mem a = s.mem a := by
  refine mapSections_mem_outside hmap fun sec hsec hw => ?_
  have hapart := hcopies sec hsec hw y hy
  rw [Apart] at hapart
  omega

/-- A load at the preferred base, where all others were. -/
theorem Home.load (himage : s.image = none ∨ ∃ image, HasImage f s image)
    (hbases : ∀ x ∈ s.loads, x.2 = f.headers.imageBase) (hhome : s.loads ≠ [] → Home f s)
    (hbase : base % 4096 = 0) (heq : base = f.headers.imageBase)
    (hfresh : Fresh f s physImage copyAt)
    (h : loadModule f.fuel f.bytes s process base physImage copyAt = some s') : Home f s' := by
  obtain ⟨s₁, image, hhas, hpages, hloads, hranges, hmem, hcopies, hmap, hload⟩ :=
    loadModule_eq base process himage hfresh
  have hlt := imageBase_lt f
  have hdelta : relocDelta base f.headers.imageBase = 0 := by
    rw [relocDelta]
    omega
  rw [hload, hdelta, patchAll_zero] at h
  obtain rfl := Option.some.inj h
  -- the loading process reads the image through its new pages
  have hnew : ∀ t ∈ f.targets, ∀ i < 8, ∃ a,
      (mapSections image base process copyAt f.headers.sections s₁).translate process
          (f.headers.imageBase + t + i) = some a ∧
        (mapSections image base process copyAt f.headers.sections s₁).mem a =
          view f.bytes (t + i) ∧
        ∃ y ∈ (mapSections image base process copyAt f.headers.sections s₁).ranges,
          y.1 ≤ a ∧ a < y.1 + y.2 := by
    intro t ht i hi
    obtain ⟨sec, hsec, hle, hend⟩ := f.targets_inside t ht
    have hbounds := f.section_bounds hsec
    obtain ⟨htranslate, hbyte, hrange⟩ := mapSections_translate (s := s₁) process hmap
      hbase hsec (show sec.Holds (t + i) from ⟨by omega, by omega⟩)
    refine ⟨_, by rw [Nat.add_assoc, ← heq]; exact htranslate, ?_, ?_⟩
    · rw [hbyte, hhas.bytes _ (f.target_covered ht hi)]
    · rw [sectionSource]
      split_ifs with hw
      · exact ⟨_, hrange hw, Nat.le_add_right _ _, by dsimp only; omega⟩
      · exact ⟨_, mapSections_ranges hhas.range, by dsimp only; omega, by dsimp only; omega⟩
  refine ⟨⟨image, ⟨?_, fun r hr => ?_, mapSections_ranges hhas.range⟩⟩, List.cons_ne_nil _ _, ?_, ?_⟩
  · exact hhas.cached
  · exact (mapSections_image hmap (f.covered_lt hr)).trans (hhas.bytes r hr)
  · rintro x (- | ⟨-, hx⟩)
    · exact heq
    · exact hbases x hx
  · rintro x (- | ⟨-, hx⟩)
    · exact hnew
    · by_cases hx' : x.1 = process
      · rw [hx']
        exact hnew
      · -- another process keeps its pages, and the ranges they are in
        intro t ht i hi
        obtain ⟨a, htranslate, hbyte, y, hy, h1, h2⟩ :=
          (hhome (List.ne_nil_of_mem hx)).reads x hx t ht i hi
        refine ⟨a, ?_, ?_, y, mapSections_ranges (hranges y hy), h1, h2⟩
        · rw [← htranslate, Loader.translate, Loader.translate]
          dsimp only
          rw [mapSections_other hx', hpages]
        · change (mapSections image base process copyAt f.headers.sections s₁).mem a = _
          rw [mapSections_range_mem hmap hcopies (hranges y hy) h1 h2, hmem y hy a h1 h2, hbyte]

/-- A first load of a module whose targets are shared. -/
theorem relocated_of_first (himage : s.image = none) (hloads : s.loads = [])
    (hshared : f.TargetsShared) (hbase : base % 4096 = 0) (hfresh : Fresh f s physImage copyAt)
    (h : loadModule f.fuel f.bytes s process base physImage copyAt = some s') :
    Relocated f s' ∧ s'.loads = [(process, base)] := by
  obtain ⟨s₁, image, hhas, hpages, hloads', hranges, hmem, hcopies, hmap, hload⟩ :=
    loadModule_eq base process (.inl himage) hfresh
  rw [hload, hloads] at h
  obtain rfl := Option.some.inj h
  refine ⟨fun x hx t ht => ?_, rfl⟩
  obtain rfl := List.mem_singleton.mp hx
  obtain ⟨sec, hsec, hle, hend⟩ := f.targets_inside t ht
  have hbounds := f.section_bounds hsec
  have hw : ¬ sec.writable = true := by
    intro hw
    have hapart := hshared sec hsec hw t ht
    rw [Apart] at hapart
    omega
  have htranslate : ∀ i < 8, (mapSections image base process copyAt f.headers.sections s₁).translate
      process (base + t + i) = some (image + t + i) := by
    intro i hi
    obtain ⟨htranslate, -, -⟩ := mapSections_translate (s := s₁) process hmap
      hbase hsec (show sec.Holds (t + i) from ⟨by omega, by omega⟩)
    rw [Nat.add_assoc, htranslate, sectionSource, if_neg hw, Option.some_inj]
    omega
  have hview : loadLE (mapSections image base process copyAt f.headers.sections s₁).mem
      (image + t) 8 = loadLE (view f.bytes) t 8 :=
    loadLE_shift fun i hi => by
      have hcov := f.target_covered ht hi
      rw [Nat.add_assoc, mapSections_image hmap (f.covered_lt hcov), hhas.bytes _ hcov]
  have hword := loadLE_patchAll (mapSections image base process copyAt f.headers.sections s₁).mem
    image (relocDelta base f.headers.imageBase) f.targets_apart ht
  rw [hview, relocDelta, Nat.add_mod_mod] at hword
  dsimp only
  rw [← hword]
  exact readWord_eq fun i hi => ⟨_, htranslate i hi, rfl⟩

/-- What holds in a run of good loads. -/
def Inv (f : PEFile) (s : Loader) : Prop :=
  f.targets = [] ∨ (s.image = none ∧ s.loads = []) ∨ Home f s ∨
    (Relocated f s ∧ ∃ x ∈ s.loads, x.2 ≠ f.headers.imageBase)

theorem Inv.load (hinv : Inv f s) (h : Load f s s' base) (hgood : GoodLoad f s base) :
    Inv f s' := by
  obtain ⟨process, physImage, copyAt, hbase, hfresh, hload⟩ := h
  obtain hnil | hinv := hinv
  · exact .inl hnil
  obtain hnil | ⟨heq, hbases⟩ | ⟨hloads, hshared⟩ := hgood
  · exact .inl hnil
  · obtain ⟨himage, hloads⟩ | hhome | ⟨-, x, hx, hne⟩ := hinv
    · exact .inr (.inr (.inl (Home.load (.inl himage) hbases (fun hne => absurd hloads hne) hbase
        heq hfresh hload)))
    · exact .inr (.inr (.inl (Home.load (.inr hhome.image) hbases (fun _ => hhome) hbase heq hfresh
        hload)))
    · exact absurd (hbases x hx) hne
  · obtain ⟨himage, -⟩ | hhome | ⟨-, x, hx, -⟩ := hinv
    · by_cases heq : base = f.headers.imageBase
      · exact .inr (.inr (.inl (Home.load (.inl himage) (by simp [hloads])
          (fun hne => absurd hloads hne) hbase heq hfresh hload)))
      · obtain ⟨hrel, hone⟩ := relocated_of_first himage hloads hshared hbase hfresh hload
        exact .inr (.inr (.inr ⟨hrel, _, by rw [hone]; exact List.mem_singleton_self _, heq⟩))
    · exact absurd hloads hhome.loaded
    · rw [hloads] at hx
      cases hx

end loads

/-- **Module loads**: in every run of good loads each process reads every relocated word as its
    own base demands. -/
theorem relocated_of_good_loads {s : Loader} (h : Reachable Initial
    (fun s s' => ∃ base, Load f s s' base ∧ GoodLoad f s base) s) : Relocated f s := by
  have hinv : Inv f s := h.invariant (fun s h0 => .inr (.inl ⟨h0.1, h0.2.1⟩))
    fun s s' hi ⟨base, hload, hgood⟩ => hi.load hload hgood
  obtain hnil | ⟨-, hloads⟩ | hhome | ⟨hrel, -⟩ := hinv
  · intro x _ t ht
    rw [hnil] at ht
    cases ht
  · intro x hx
    rw [hloads] at hx
    cases hx
  · exact hhome.relocated
  · exact hrel

/-! ### Two loads of a small module -/

/-- The fields of a file with the sections `.text` and `.reloc` and one relocated word, which
    holds the address `imageBase + 0x1234`. -/
def smallFile (imageBase : ℕ) : Mem :=
  [(0x3c, 4, 0x40), (0x46, 2, 2), (0x54, 2, 240), (0x70, 8, imageBase), (0x90, 4, 0x3000),
    (0x94, 4, 0x200), (0xf0, 4, 0x2000),
    (0x154, 4, 0x1000), (0x158, 4, 0x20), (0x15c, 4, 0x200), (0x16c, 4, 0x60000020),
    (0x17c, 4, 0x2000), (0x180, 4, 0x20), (0x184, 4, 0x220), (0x194, 4, 0x42000040),
    (0x208, 8, imageBase + 0x1234), (0x220, 4, 0x1000), (0x224, 4, 12), (0x228, 2, 0xa008)].foldl
    (fun m x => storeLE m x.1 x.2.1 x.2.2) fun _ => 0

/-- A module that is linked for a base of `xtLoadModuleEx`. -/
def homeModule : PEFile where
  bytes := smallFile 0x7f0000000000
  fuel := 2
  targets := [0x1008]
  last := 0x200c
  headers_fit := by decide +kernel
  sections_listed := by decide +kernel
  headers_inside := by decide +kernel
  sections_inside := by decide +kernel
  sections_apart := by decide +kernel
  relocated := by decide +kernel
  directory := by decide +kernel
  directory_inside := by decide +kernel
  targets_inside := by decide +kernel
  targets_outside := by decide +kernel
  targets_apart := by decide +kernel

/-- Nothing is loaded. -/
def emptyLoader : Loader := ⟨fun _ => 0, none, fun _ _ => none, [], []⟩

/-- Process 1 and then process 2 load the module. -/
def twoLoads (f : PEFile) (base base' : ℕ) : Option (Loader × Loader) :=
  (loadModule f.fuel f.bytes emptyLoader 1 base 0x100000 fun _ => 0).bind fun s =>
    (loadModule f.fuel f.bytes s 2 base' 0 fun _ => 0).map fun s' => (s, s')


/-- Two runs of `twoLoads` are runs of the loader. -/
theorem twoLoads_cases {base base' : ℕ} {s s' : Loader}
    (h : twoLoads homeModule base base' = some (s, s')) (hbase : base % 4096 = 0)
    (hbase' : base' % 4096 = 0) (himage : s.image.isSome = true) :
    Load homeModule emptyLoader s base ∧ Load homeModule s s' base' := by
  have hfresh : ∀ s : Loader, s.image.isSome ∨ s.ranges = [] → ∀ p, Fresh homeModule s p fun _ => 0 := by
    intro s hs p
    have hread : ∀ sec ∈ homeModule.headers.sections, sec.writable = false := by
      decide +kernel
    refine ⟨fun hnone x hx => ?_, fun sec hsec hw => ?_, ?_⟩
    · obtain hs | hs := hs
      · rw [hnone] at hs
        cases hs
      · rw [hs] at hx
        cases hx
    · rw [hread sec hsec] at hw
      cases hw
    · refine List.pairwise_of_forall_mem_list fun x hx y _ hw => ?_
      rw [hread x hx] at hw
      cases hw
  obtain ⟨s₁, hfirst, hrest⟩ := Option.bind_eq_some_iff.mp h
  obtain ⟨s₂, hsecond, heq⟩ := Option.map_eq_some_iff.mp hrest
  cases heq
  exact ⟨⟨1, 0x100000, _, hbase, hfresh _ (.inr rfl) _, hfirst⟩,
    ⟨2, 0, _, hbase', hfresh _ (.inl himage) _, hsecond⟩⟩

set_option maxRecDepth 100000 in
/-- Two processes load the module at its preferred base. -/
theorem relocated_at_home : ∃ s : Loader,
    Reachable Initial (fun s s' => ∃ base, Load homeModule s s' base ∧ GoodLoad homeModule s base)
      s ∧ s.loads = [(2, 0x7f0000000000), (1, 0x7f0000000000)] ∧ Relocated homeModule s := by
  have hrun : (twoLoads homeModule 0x7f0000000000 0x7f0000000000).any (fun s =>
      s.1.image.isSome && s.1.loads == [(1, 0x7f0000000000)] &&
        s.2.loads == [(2, 0x7f0000000000), (1, 0x7f0000000000)]) = true := by
    decide +kernel
  rcases heq : twoLoads homeModule 0x7f0000000000 0x7f0000000000 with - | ⟨s, s'⟩
  · rw [heq] at hrun
    cases hrun
  · rw [heq, Option.any_some, Bool.and_eq_true, Bool.and_eq_true, beq_iff_eq, beq_iff_eq] at hrun
    obtain ⟨⟨himage, hloads⟩, hloads'⟩ := hrun
    obtain ⟨hfirst, hsecond⟩ := twoLoads_cases heq (by decide) (by decide) himage
    have hgood : GoodLoad homeModule s 0x7f0000000000 := by
      refine .inr (.inl ⟨by decide +kernel, fun x hx => ?_⟩)
      rw [hloads] at hx
      obtain rfl := List.mem_singleton.mp hx
      decide +kernel
    have hreach : Reachable Initial (fun s s' => ∃ base, Load homeModule s s' base ∧
        GoodLoad homeModule s base) s' :=
      .next (.next (.start (s := emptyLoader) ⟨rfl, rfl, rfl⟩)
        ⟨_, hfirst, .inr (.inl ⟨by decide +kernel, by simp [emptyLoader]⟩)⟩) ⟨_, hsecond, hgood⟩
    exact ⟨s', hreach, hloads', relocated_of_good_loads homeModule hreach⟩

set_option maxRecDepth 100000 in
/-- A second process at another base moves the word of the first one as well. -/
theorem second_load_moves_first : ∃ s : Loader,
    Reachable Initial (fun s s' => ∃ base, Load homeModule s s' base) s ∧
      s.loads = [(2, 0x7f0000001000), (1, 0x7f0000000000)] ∧
      s.readWord 1 0x7f0000001008 = some 0x7f0000002234 ∧ ¬ Relocated homeModule s := by
  have hrun : (twoLoads homeModule 0x7f0000000000 0x7f0000001000).any (fun s =>
      s.1.image.isSome && s.2.loads == [(2, 0x7f0000001000), (1, 0x7f0000000000)] &&
        s.2.readWord 1 0x7f0000001008 == some 0x7f0000002234) = true := by
    decide +kernel
  rcases heq : twoLoads homeModule 0x7f0000000000 0x7f0000001000 with - | ⟨s, s'⟩
  · rw [heq] at hrun
    cases hrun
  · rw [heq, Option.any_some, Bool.and_eq_true, Bool.and_eq_true, beq_iff_eq, beq_iff_eq] at hrun
    obtain ⟨⟨himage, hloads⟩, hword⟩ := hrun
    obtain ⟨hfirst, hsecond⟩ := twoLoads_cases heq (by decide) (by decide) himage
    have hreach : Reachable Initial (fun s s' => ∃ base, Load homeModule s s' base) s' :=
      .next (.next (.start (s := emptyLoader) ⟨rfl, rfl, rfl⟩) ⟨_, hfirst⟩) ⟨_, hsecond⟩
    refine ⟨s', hreach, hloads, hword, fun hrel => ?_⟩
    have hmem : (1, 0x7f0000000000) ∈ s'.loads := by
      rw [hloads]
      exact List.mem_cons_of_mem _ List.mem_cons_self
    have hread := hrel _ hmem 0x1008 List.mem_cons_self
    have hvalue : (loadLE (view homeModule.bytes) 0x1008 8 +
        (0x7f0000000000 + (2 ^ 64 - homeModule.headers.imageBase))) % 2 ^ 64 = 0x7f0000001234 := by
      decide +kernel
    rw [hvalue] at hread
    exact absurd (Option.some.inj (hword.symm.trans hread)) (by decide)

end XTOS.Linker

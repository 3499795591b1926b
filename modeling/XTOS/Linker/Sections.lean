import XTOS.Linker.Load

/-!
# The sections of a loaded module

What a process sees of the sections of a module that `xtLoadModuleEx` mapped for it.

## Main definitions

- `PEImage` — a PE file, with or without base relocations
- `Visible` — every section shows its raw data and then zeros, with its access rights
- `Zeroed` — the bytes that no raw data is copied to are zero before the load

## Main results

- `xtLoadModuleEx_visible_iff` — the sections are visible exactly if these bytes are zero

## Design notes

The image and the private copies are pages that `xtAllocatePages` returns, with arbitrary bytes
in them. The loader reads only `SizeOfRawData` of a section; its `VirtualSize` stands apart.
-/

namespace XTOS.Linker

open SysLib Paging

/-! ### Sections with their virtual sizes -/

/-- `Misc.VirtualSize` of the section header at `a`. -/
def virtualSizeAt (m : Mem) (a : ℕ) : ℕ := loadLE m (a + 8) 4

/-- The section headers of the image at `image`, with their virtual sizes. -/
def sizedSections (m : Mem) (image : ℕ) : List (ImageSection × ℕ) :=
  (List.range (loadLE m (ntHeaders m image + 6) 2)).map fun i =>
    (sectionAt m (firstSection m image + 40 * i), virtualSizeAt m (firstSection m image + 40 * i))

theorem sizedSections_fst (m : Mem) (image : ℕ) :
    (sizedSections m image).map Prod.fst = (readHeaders m image).sections := by
  rw [sizedSections, List.map_map]
  rfl

/-- `IMAGE_SCN_MEM_EXECUTE`. -/
def ImageSection.executable (sec : ImageSection) : Bool := sec.characteristics / 2 ^ 29 % 2 = 1

/-- The attributes of a page give the access rights of the section in its page table entry. -/
def ImageSection.Grants (sec : ImageSection) (attr : ℕ) : Prop :=
  (xtBuildFlags attr &&& pRW ≠ 0 ↔ sec.writable = true) ∧
    (xtBuildFlags attr &&& pNX = 0 ↔ sec.executable = true)

/-- The pages that a section takes in memory. -/
def span (x : ImageSection × ℕ) : ℕ := (max x.1.sizeOfRawData x.2 + 0xFFF) / 4096 * 4096

/-- A PE file: the headers are in front of the sections, the sections are whole pages and apart,
    and a relocation directory and its targets are in sections and apart. -/
structure PEImage where
  bytes : Mem
  fuel : ℕ
  targets : List ℕ
  headers_fit : ntHeaders bytes 0 + 180 ≤ (readHeaders bytes 0).sizeOfHeaders
  sections_listed : firstSection bytes 0 + 40 * loadLE bytes (ntHeaders bytes 0 + 6) 2 ≤
    (readHeaders bytes 0).sizeOfHeaders
  headers_inside : (readHeaders bytes 0).sizeOfHeaders ≤ (readHeaders bytes 0).sizeOfImage
  sections_inside : ∀ x ∈ sizedSections bytes 0,
    (readHeaders bytes 0).sizeOfHeaders ≤ x.1.virtualAddress ∧ x.1.virtualAddress % 4096 = 0 ∧
      x.1.virtualAddress + span x ≤ (readHeaders bytes 0).sizeOfImage
  sections_apart : (sizedSections bytes 0).Pairwise fun x y =>
    Apart (x.1.virtualAddress, span x) (y.1.virtualAddress, span y)
  directory : ((readHeaders bytes 0).relocAddr = 0 ∧ targets = []) ∨
    ((readHeaders bytes 0).relocAddr ≠ 0 ∧
      ∃ last, relocTargets (view bytes) fuel (readHeaders bytes 0).relocAddr =
          some (targets, last) ∧
        (∃ sec ∈ (readHeaders bytes 0).sections,
          sec.virtualAddress ≤ (readHeaders bytes 0).relocAddr ∧
            last + 4 ≤ sec.virtualAddress + sec.sizeOfRawData) ∧
        ∀ t ∈ targets, t + 8 ≤ (readHeaders bytes 0).relocAddr ∨ last + 4 ≤ t)
  targets_inside : ∀ t ∈ targets, ∃ sec ∈ (readHeaders bytes 0).sections,
    sec.virtualAddress ≤ t ∧ t + 8 ≤ sec.virtualAddress + sec.sizeOfRawData

/-- The headers of the file. -/
def PEImage.headers (f : PEImage) : ImageHeaders := readHeaders f.bytes 0

/-- Byte `r` of the module is in a relocated slot, or the physical address `a` behind it is. -/
def PEImage.InSlot (f : PEImage) (image r a : ℕ) : Prop :=
  ∃ t ∈ f.targets, (t ≤ r ∧ r < t + 8) ∨ (image + t ≤ a ∧ a < image + t + 8)

/-- A range of physical memory that neither the loader nor the process uses. -/
def Unused (s : Loader) (process : ℕ) (x : ℕ × ℕ) : Prop :=
  (∀ y ∈ s.ranges, Apart y x) ∧ ∀ page e, s.pages process page = some e → Apart (e.1, 4096) x

/-- The answers of `xtAllocatePages` in a load are pages that are not in use. -/
structure FreshPages (f : PEImage) (s : Loader) (process physImage : ℕ) (copyAt : ℕ → ℕ) :
    Prop where
  image : s.image = none → Unused s process (physImage, f.headers.sizeOfImage)
  copies : ∀ sec ∈ f.headers.sections, sec.writable →
    Unused (xtGetOrLoadPhysicalModule f.bytes s physImage).1 process
      (copyAt sec.virtualAddress, pageRound sec.sizeOfRawData)
  copies_apart : f.headers.sections.Pairwise fun x y => x.writable → y.writable →
    Apart (copyAt x.virtualAddress, pageRound x.sizeOfRawData)
      (copyAt y.virtualAddress, pageRound y.sizeOfRawData)

/-- A load of the module into some process. -/
def LoadEx (f : PEImage) (s s' : Loader) : Prop :=
  ∃ process random physImage copyAt, FreshPages f s process physImage copyAt ∧
    xtLoadModuleEx f.fuel f.bytes s process random physImage copyAt = some s'

/-- The process sees every section of the module at `base`: all of it is mapped with the rights
    of the section, and it shows the bytes of the file and then zeros, relocated slots aside. -/
def Visible (f : PEImage) (s : Loader) (process base image : ℕ) : Prop :=
  ∀ x ∈ sizedSections f.bytes 0, ∀ k < x.2, ∃ e,
    s.pages process ((base + x.1.virtualAddress + k) / 4096) = some e ∧ x.1.Grants e.2 ∧
      (¬ f.InSlot image (x.1.virtualAddress + k) (e.1 + k % 4096) →
        s.mem (e.1 + k % 4096) =
          if k < min x.1.sizeOfRawData x.2 then f.bytes (x.1.pointerToRawData + k) else 0)

/-- Behind the raw data of each section, the pages that hold it have zeros before the load, and
    behind these pages the process has some already, with the same rights and with zeros. -/
def Zeroed (f : PEImage) (s : Loader) (process base physImage : ℕ) (copyAt : ℕ → ℕ) : Prop :=
  ∀ x ∈ sizedSections f.bytes 0, ∀ k, x.1.sizeOfRawData ≤ k → k < x.2 →
    if k < pageRound x.1.sizeOfRawData then
      s.mem (sectionSource (s.image.getD physImage) copyAt x.1 + k) = 0
    else ∃ e, s.pages process ((base + x.1.virtualAddress + k) / 4096) = some e ∧
      x.1.Grants e.2 ∧
        (¬ f.InSlot (s.image.getD physImage) (x.1.virtualAddress + k) (e.1 + k % 4096) →
          s.mem (e.1 + k % 4096) = 0)

/-! ### The file and its image -/

variable (f : PEImage)

theorem PEImage.mem_sections {x : ImageSection × ℕ} (hx : x ∈ sizedSections f.bytes 0) :
    x.1 ∈ f.headers.sections := by
  rw [PEImage.headers, ← sizedSections_fst]
  exact List.mem_map_of_mem hx

theorem PEImage.exists_sized {sec : ImageSection} (hsec : sec ∈ f.headers.sections) :
    ∃ size, (sec, size) ∈ sizedSections f.bytes 0 := by
  rw [PEImage.headers, ← sizedSections_fst] at hsec
  obtain ⟨⟨sec', size⟩, hx, rfl⟩ := List.mem_map.mp hsec
  exact ⟨size, hx⟩

theorem le_span (x : ImageSection × ℕ) : x.1.sizeOfRawData ≤ span x ∧ x.2 ≤ span x := by
  have h1 := le_max_left x.1.sizeOfRawData x.2
  have h2 := le_max_right x.1.sizeOfRawData x.2
  rw [span]
  omega

theorem sizeOfImage_lt : f.headers.sizeOfImage < 2 ^ 32 := loadLE_lt _ _ 4

theorem PEImage.section_bounds {x : ImageSection × ℕ} (hx : x ∈ sizedSections f.bytes 0) :
    f.headers.sizeOfHeaders ≤ x.1.virtualAddress ∧ x.1.virtualAddress % 4096 = 0 ∧
      x.1.sizeOfRawData ≤ pageRound x.1.sizeOfRawData ∧
      pageRound x.1.sizeOfRawData ≤ span x ∧
      x.1.virtualAddress + span x ≤ f.headers.sizeOfImage := by
  obtain ⟨hfront, haligned, hend⟩ := f.sections_inside x hx
  have hlt := sizeOfImage_lt f
  have hend' : x.1.virtualAddress + span x ≤ f.headers.sizeOfImage := hend
  have hmax := le_max_left x.1.sizeOfRawData x.2
  have hround : pageRound x.1.sizeOfRawData = (x.1.sizeOfRawData + 0xFFF) / 4096 * 4096 := by
    have hspan := (le_span x).1
    rw [span] at hend'
    rw [pageRound, Nat.mod_eq_of_lt (by omega)]
  refine ⟨hfront, haligned, ?_, ?_, hend'⟩
  · omega
  · rw [hround, span]
    omega

/-- Two sections that take a byte of the image are one. -/
theorem PEImage.section_unique {x y : ImageSection × ℕ} (hx : x ∈ sizedSections f.bytes 0)
    (hy : y ∈ sizedSections f.bytes 0) {r : ℕ} (hxr : x.1.virtualAddress ≤ r)
    (hxr' : r < x.1.virtualAddress + span x) (hyr : y.1.virtualAddress ≤ r)
    (hyr' : r < y.1.virtualAddress + span y) : x = y := by
  by_contra hne
  have hsymm : Std.Symm fun x y : ImageSection × ℕ =>
    Apart (x.1.virtualAddress, span x) (y.1.virtualAddress, span y) := ⟨fun _ _ h => Or.symm h⟩
  have hapart := f.sections_apart.forall hx hy hne
  rw [Apart] at hapart
  omega

/-- Raw data of one section only is at a byte of the image. -/
theorem PEImage.holds_apart (r : ℕ) :
    f.headers.sections.Pairwise fun x y => ¬ (x.Holds r ∧ y.Holds r) := by
  rw [PEImage.headers, ← sizedSections_fst]
  refine List.pairwise_map.mpr (f.sections_apart.imp ?_)
  rintro x y hapart ⟨⟨hx, hx'⟩, hy, hy'⟩
  have hxs := (le_span x).1
  have hys := (le_span y).1
  rw [Apart] at hapart
  omega

/-- No raw data is behind the raw data of a section. -/
theorem PEImage.gap {x : ImageSection × ℕ} (hx : x ∈ sizedSections f.bytes 0) {k : ℕ}
    (hraw : x.1.sizeOfRawData ≤ k) (hk : k < span x) :
    ∀ sec ∈ f.headers.sections, ¬ sec.Holds (x.1.virtualAddress + k) := by
  rintro sec hsec ⟨hle, hlt⟩
  obtain ⟨size, hy⟩ := f.exists_sized hsec
  have hspan := (le_span (sec, size)).1
  obtain rfl := f.section_unique hx hy (Nat.le_add_right _ _) (by omega) hle (by
    dsimp only at hspan ⊢
    omega)
  dsimp only at hraw hlt
  omega

theorem PEImage.copyImage_header (m : Mem) (image : ℕ) {r : ℕ} (hr : r < f.headers.sizeOfHeaders) :
    copyImage f.bytes m image (image + r) = f.bytes r := by
  refine Linker.copyImage_header (fun sec hsec => ?_) hr
  obtain ⟨size, hx⟩ := f.exists_sized hsec
  exact (f.section_bounds hx).1

theorem PEImage.copyImage_raw (m : Mem) (image : ℕ) {sec : ImageSection}
    (hsec : sec ∈ f.headers.sections) {k : ℕ} (hk : k < sec.sizeOfRawData) :
    copyImage f.bytes m image (image + (sec.virtualAddress + k)) =
      f.bytes (sec.pointerToRawData + k) := by
  rw [copyImage_eq, ← PEImage.headers,
    copySections_raw hsec (f.holds_apart _) ⟨Nat.le_add_right _ _, by omega⟩,
    Nat.add_sub_cancel_left]

theorem PEImage.copyImage_gap (m : Mem) (image : ℕ) {x : ImageSection × ℕ}
    (hx : x ∈ sizedSections f.bytes 0) {k : ℕ} (hraw : x.1.sizeOfRawData ≤ k) (hk : k < span x) :
    copyImage f.bytes m image (image + (x.1.virtualAddress + k)) =
      m (image + (x.1.virtualAddress + k)) := by
  have hfront := (f.section_bounds hx).1
  rw [copyImage_eq, ← PEImage.headers, copySections_gap (f.gap hx hraw hk),
    store_outside _ _ (.inr (by rw [length_load]; omega))]

theorem PEImage.copyImage_outside (m : Mem) {image a : ℕ}
    (ha : a < image ∨ image + f.headers.sizeOfImage ≤ a) : copyImage f.bytes m image a = m a := by
  refine Linker.copyImage_outside f.headers_inside (fun sec hsec => ?_) ha
  obtain ⟨size, hx⟩ := f.exists_sized hsec
  have hbounds := f.section_bounds hx
  rw [PEImage.headers] at hbounds
  dsimp only at hbounds
  omega

/-- Targets are in raw data. -/
theorem PEImage.target_raw {t r : ℕ} (ht : t ∈ f.targets) (hle : t ≤ r) (hlt : r < t + 8) :
    ∃ sec ∈ f.headers.sections, sec.Holds r := by
  obtain ⟨sec, hsec, h1, h2⟩ := f.targets_inside t ht
  exact ⟨sec, hsec, by omega, by omega⟩

/-- The cached image: the bytes of the file outside the relocated slots. -/
structure Cached (s : Loader) (image : ℕ) : Prop where
  cached : s.image = some image
  headers : ∀ r < f.headers.sizeOfHeaders, s.mem (image + r) = f.bytes r
  raw : ∀ sec ∈ f.headers.sections, ∀ k < sec.sizeOfRawData,
    (∀ t ∈ f.targets, sec.virtualAddress + k < t ∨ t + 8 ≤ sec.virtualAddress + k) →
    s.mem (image + (sec.virtualAddress + k)) = f.bytes (sec.pointerToRawData + k)
  range : (image, f.headers.sizeOfImage) ∈ s.ranges

/-- Nothing is cached, or the image of the file. -/
def Ready (s : Loader) : Prop := s.image = none ∨ ∃ image, Cached f s image

variable {f} {s s' : Loader} {image base process physImage : ℕ} {copyAt : ℕ → ℕ}

theorem Cached.readHeaders_eq (h : Cached f s image) : readHeaders s.mem image = f.headers :=
  readHeaders_shift (sizeOfHeaders_lt _ _) h.headers f.headers_fit f.sections_listed

/-- Relocation of an image of the file. -/
theorem applyRelocations_of_cached {m : Mem}
    (hheaders : ∀ r < f.headers.sizeOfHeaders, m (image + r) = f.bytes r)
    (hraw : ∀ sec ∈ f.headers.sections, ∀ k < sec.sizeOfRawData,
      (∀ t ∈ f.targets, sec.virtualAddress + k < t ∨ t + 8 ≤ sec.virtualAddress + k) →
      m (image + (sec.virtualAddress + k)) = f.bytes (sec.pointerToRawData + k)) :
    applyRelocations f.fuel m image base (readHeaders m image).imageBase =
      some (patchAll image (relocDelta base f.headers.imageBase) f.targets m) := by
  have hread : readHeaders m image = f.headers :=
    readHeaders_shift (sizeOfHeaders_lt _ _) hheaders f.headers_fit f.sections_listed
  rw [applyRelocations, hread]
  obtain ⟨hzero, hnil⟩ | ⟨hne, last, htargets, ⟨sec, hsec, hle, hlt⟩, hout⟩ := f.directory
  · rw [if_pos (show f.headers.relocAddr = 0 from hzero), hnil, patchAll_nil]
  · rw [if_neg (show f.headers.relocAddr ≠ 0 from hne)]
    refine blockLoop_eq htargets (fun i h1 h2 => ?_) le_rfl le_rfl hout
    -- the directory is raw data without a slot in it
    have hle' : sec.virtualAddress ≤ i := hle.trans h1
    have hview := f.copyImage_raw (fun _ => 0) 0 hsec (show i - sec.virtualAddress < _ by omega)
    have h1' : (readHeaders f.bytes 0).relocAddr ≤ i := h1
    have hbyte := hraw sec hsec (i - sec.virtualAddress) (by omega) fun t ht => by
      have := hout t ht
      omega
    rw [Nat.add_sub_cancel' hle'] at hview hbyte
    rw [hbyte, view, ← hview, Nat.zero_add]

/-! ### The steps of a load -/

/-- The image of a load. -/
theorem getOrLoad_image (physImage : ℕ) (h : Ready f s) :
    Cached f (xtGetOrLoadPhysicalModule f.bytes s physImage).1 (s.image.getD physImage) ∧
      (xtGetOrLoadPhysicalModule f.bytes s physImage).2 = s.image.getD physImage ∧
      (xtGetOrLoadPhysicalModule f.bytes s physImage).1.pages = s.pages := by
  rw [xtGetOrLoadPhysicalModule]
  split
  · rename_i image himage
    obtain hnone | ⟨image', hcached⟩ := h
    · rw [hnone] at himage
      cases himage
    · obtain rfl : image' = image := Option.some.inj (hcached.cached.symm.trans himage)
      rw [himage, Option.getD_some]
      exact ⟨hcached, rfl, rfl⟩
  · rename_i hnone
    rw [hnone, Option.getD_none]
    exact ⟨⟨rfl, fun r hr => f.copyImage_header _ _ hr,
      fun sec hsec k hk _ => f.copyImage_raw _ _ hsec hk, List.mem_cons_self⟩, rfl, rfl⟩

/-- Outside a new image, and behind the raw data of its sections, memory stays as it is. -/
theorem getOrLoad_mem {a : ℕ}
    (ha : s.image = none → a < physImage ∨ physImage + f.headers.sizeOfImage ≤ a ∨
      ∃ x ∈ sizedSections f.bytes 0, ∃ k, x.1.sizeOfRawData ≤ k ∧ k < span x ∧
        a = physImage + (x.1.virtualAddress + k)) :
    (xtGetOrLoadPhysicalModule f.bytes s physImage).1.mem a = s.mem a := by
  rw [xtGetOrLoadPhysicalModule]
  split
  · rfl
  · rename_i hnone
    obtain hlt | hge | ⟨x, hx, k, hraw, hk, rfl⟩ := ha hnone
    · exact f.copyImage_outside _ (.inl hlt)
    · exact f.copyImage_outside _ (.inr hge)
    · exact f.copyImage_gap _ _ hx hraw hk

theorem FreshPages.mappable (h : FreshPages f s process physImage copyAt)
    (hrange : (image, f.headers.sizeOfImage) ∈
      (xtGetOrLoadPhysicalModule f.bytes s physImage).1.ranges) :
    Mappable f.headers.sizeOfImage image copyAt f.headers.sections := by
  have hbounds : ∀ sec ∈ f.headers.sections, sec.virtualAddress % 4096 = 0 ∧
      sec.sizeOfRawData ≤ pageRound sec.sizeOfRawData ∧
      sec.virtualAddress + pageRound sec.sizeOfRawData ≤ f.headers.sizeOfImage := by
    intro sec hsec
    obtain ⟨size, hx⟩ := f.exists_sized hsec
    obtain ⟨-, haligned, hraw, hspan, hend⟩ := f.section_bounds hx
    exact ⟨haligned, hraw, (Nat.add_le_add_left hspan _).trans hend⟩
  refine ⟨fun sec hsec => (hbounds sec hsec).1, fun sec hsec => (hbounds sec hsec).2.1,
    fun sec hsec => (hbounds sec hsec).2.2, ?_, fun sec hsec hw => (h.copies sec hsec hw).1 _ hrange,
    h.copies_apart⟩
  rw [PEImage.headers, ← sizedSections_fst]
  refine List.pairwise_map.mpr (f.sections_apart.imp_of_mem fun hx hy hapart => ?_)
  have hxs := (f.section_bounds hx).2.2.2.1
  have hys := (f.section_bounds hy).2.2.2.1
  rw [Apart] at hapart ⊢
  dsimp only at hapart ⊢
  omega

/-- The mapping of the sections leaves the image as it is. -/
theorem Cached.map (h : Cached f s image)
    (hmap : Mappable f.headers.sizeOfImage image copyAt f.headers.sections) :
    Cached f (mapSections image base process copyAt f.headers.sections s) image where
  cached := mapSections_image_eq.trans h.cached
  headers r hr := (mapSections_image hmap (hr.trans_le f.headers_inside)).trans (h.headers r hr)
  raw sec hsec k hk hout := by
    have hinside := hmap.inside sec hsec
    have hraw := hmap.raw sec hsec
    rw [mapSections_image hmap (by omega)]
    exact h.raw sec hsec k hk hout
  range := mapSections_ranges h.range

/-- Relocation leaves all bytes outside the slots as they are. -/
theorem Cached.patch (h : Cached f s image) (delta : ℕ) :
    Cached f { s with mem := patchAll image delta f.targets s.mem } image where
  cached := h.cached
  headers r hr := by
    dsimp only
    rw [patchAll_outside fun t ht => ?_, h.headers r hr]
    obtain ⟨sec, hsec, hle, -⟩ := f.targets_inside t ht
    obtain ⟨size, hx⟩ := f.exists_sized hsec
    have hfront := (f.section_bounds hx).1
    dsimp only at hfront
    omega
  raw sec hsec k hk hout := by
    dsimp only
    rw [patchAll_outside fun t ht => ?_, h.raw sec hsec k hk hout]
    have := hout t ht
    omega
  range := h.range

/-- What a load does to memory and to the pages of the process. -/
structure Loaded (f : PEImage) (s s' : Loader) (process base image : ℕ) (copyAt : ℕ → ℕ) :
    Prop where
  cached : Cached f s' image
  mapped : ∀ x ∈ sizedSections f.bytes 0, ∀ k < pageRound x.1.sizeOfRawData,
    s'.pages process ((base + x.1.virtualAddress + k) / 4096) =
      some (sectionSource image copyAt x.1 + k / 4096 * 4096, x.1.attr)
  raw : ∀ x ∈ sizedSections f.bytes 0, ∀ k < x.1.sizeOfRawData,
    ¬ f.InSlot image (x.1.virtualAddress + k) (sectionSource image copyAt x.1 + k) →
    s'.mem (sectionSource image copyAt x.1 + k) = f.bytes (x.1.pointerToRawData + k)
  rest : ∀ x ∈ sizedSections f.bytes 0, ∀ k, x.1.sizeOfRawData ≤ k →
    k < pageRound x.1.sizeOfRawData →
    ¬ f.InSlot image (x.1.virtualAddress + k) (sectionSource image copyAt x.1 + k) ∧
      s'.mem (sectionSource image copyAt x.1 + k) = s.mem (sectionSource image copyAt x.1 + k)
  other : ∀ page, (∀ x ∈ sizedSections f.bytes 0, page * 4096 < base + x.1.virtualAddress ∨
      base + x.1.virtualAddress + pageRound x.1.sizeOfRawData ≤ page * 4096) →
    s'.pages process page = s.pages process page
  unused : ∀ page e, s.pages process page = some e → ∀ i < 4096,
    (∀ t ∈ f.targets, e.1 + i < image + t ∨ image + t + 8 ≤ e.1 + i) →
    s'.mem (e.1 + i) = s.mem (e.1 + i)

theorem not_inSlot {r a : ℕ} (h : ¬ f.InSlot image r a) : ∀ t ∈ f.targets,
    (r < t ∨ t + 8 ≤ r) ∧ (a < image + t ∨ image + t + 8 ≤ a) := by
  intro t ht
  constructor
  · by_contra hno
    exact h ⟨t, ht, .inl (by omega)⟩
  · by_contra hno
    exact h ⟨t, ht, .inr (by omega)⟩

/-- The loader after the mapping. -/
def PEImage.mapped (f : PEImage) (s : Loader) (process base physImage : ℕ) (copyAt : ℕ → ℕ) :
    Loader :=
  mapSections (s.image.getD physImage) base process copyAt f.headers.sections
    (xtGetOrLoadPhysicalModule f.bytes s physImage).1

/-- The loader after the relocation. -/
def PEImage.loaded (f : PEImage) (s : Loader) (process base physImage : ℕ) (copyAt : ℕ → ℕ) :
    Loader :=
  let m := f.mapped s process base physImage copyAt
  { m with
    mem := patchAll (s.image.getD physImage) (relocDelta base f.headers.imageBase) f.targets m.mem
    loads := (process, base) :: m.loads }

/-- **A load** returns. -/
theorem loadModule_loaded (hready : Ready f s) (hfresh : FreshPages f s process physImage copyAt) :
    loadModule f.fuel f.bytes s process base physImage copyAt =
      some (f.loaded s process base physImage copyAt) := by
  obtain ⟨hcached, himage, -⟩ := getOrLoad_image physImage hready
  have hmap := hfresh.mappable hcached.range
  have hcached' : Cached f (f.mapped s process base physImage copyAt) (s.image.getD physImage) :=
    hcached.map hmap
  have hreloc : applyRelocations f.fuel _ _ base _ = _ :=
    applyRelocations_of_cached hcached'.headers hcached'.raw
  rw [loadModule]
  dsimp only
  rw [himage, xtMapModuleToProcess_eq, hcached.readHeaders_eq]
  rw [PEImage.mapped] at hreloc
  rw [hreloc]
  rfl

/-- Physical memory outside a new image and outside the private copies. -/
theorem mapped_mem {a : ℕ} (hready : Ready f s) (hfresh : FreshPages f s process physImage copyAt)
    (himage : s.image = none → a < physImage ∨ physImage + f.headers.sizeOfImage ≤ a)
    (hcopies : ∀ sec ∈ f.headers.sections, sec.writable → a < copyAt sec.virtualAddress ∨
      copyAt sec.virtualAddress + pageRound sec.sizeOfRawData ≤ a) :
    (f.mapped s process base physImage copyAt).mem a = s.mem a := by
  obtain ⟨hcached, -⟩ := getOrLoad_image physImage hready
  rw [PEImage.mapped, mapSections_mem_outside (hfresh.mappable hcached.range) hcopies,
    getOrLoad_mem fun hnone => ?_]
  obtain h | h := himage hnone
  · exact .inl h
  · exact .inr (.inl h)

/-- Behind the raw data of a section there is no slot. -/
theorem gap_not_inSlot {x : ImageSection × ℕ} (hx : x ∈ sizedSections f.bytes 0)
    (hmap : Mappable f.headers.sizeOfImage image copyAt f.headers.sections) {k : ℕ}
    (hraw : x.1.sizeOfRawData ≤ k) (hk : k < pageRound x.1.sizeOfRawData) :
    ¬ f.InSlot image (x.1.virtualAddress + k) (sectionSource image copyAt x.1 + k) := by
  have hbounds := f.section_bounds hx
  have hvirtual : ∀ t ∈ f.targets, ¬ (t ≤ x.1.virtualAddress + k ∧ x.1.virtualAddress + k < t + 8) := by
    rintro t ht ⟨hle, hlt⟩
    obtain ⟨sec, hsec, hr⟩ := f.target_raw ht hle hlt
    exact f.gap hx hraw (by omega) sec hsec hr
  rintro ⟨t, ht, h | ⟨hle, hlt⟩⟩
  · exact hvirtual t ht h
  · rw [sectionSource] at hle hlt
    split_ifs at hle hlt with hw
    · have hcopy := hmap.copies x.1 (f.mem_sections hx) hw
      obtain ⟨sec, hsec, h1, h2⟩ := f.targets_inside t ht
      have hraw' := hmap.raw sec hsec
      have hinside := hmap.inside sec hsec
      rw [Apart] at hcopy
      omega
    · exact hvirtual t ht ⟨by omega, by omega⟩

theorem loaded_spec (hready : Ready f s) (hbase : base % 4096 = 0)
    (hfresh : FreshPages f s process physImage copyAt) :
    Loaded f s (f.loaded s process base physImage copyAt) process base (s.image.getD physImage)
      copyAt := by
  obtain ⟨hcached, -, hpages⟩ := getOrLoad_image physImage hready
  have hmap := hfresh.mappable hcached.range
  have hcached' : Cached f (f.mapped s process base physImage copyAt) (s.image.getD physImage) :=
    hcached.map hmap
  refine ⟨?_, fun x hx k hk => ?_, fun x hx k hk hslot => ?_, fun x hx k hraw hk => ?_,
    fun page hpage => ?_, fun page e he i hi hout => ?_⟩
  · exact ⟨hcached'.cached, (hcached'.patch _).headers, (hcached'.patch _).raw, hcached'.range⟩
  · exact mapSections_pages process hmap hbase (f.mem_sections hx) hk
  · have hsec := f.mem_sections hx
    have hbounds := f.section_bounds hx
    rw [PEImage.loaded]
    dsimp only
    rw [patchAll_outside fun t ht => (not_inSlot hslot t ht).2, PEImage.mapped,
      mapSections_source process hmap hsec (by omega), if_pos hk, Nat.add_assoc]
    exact hcached.raw x.1 hsec k hk fun t ht => (not_inSlot hslot t ht).1
  · have hbounds := f.section_bounds hx
    have hsec := f.mem_sections hx
    -- behind the raw data nothing is copied and nothing is relocated
    have hslot := gap_not_inSlot hx hmap hraw hk
    refine ⟨hslot, ?_⟩
    rw [PEImage.loaded]
    dsimp only
    rw [patchAll_outside fun t ht => (not_inSlot hslot t ht).2, PEImage.mapped,
      mapSections_source process hmap hsec hk, if_neg hraw.not_gt, getOrLoad_mem fun hnone => ?_]
    rw [hnone, Option.getD_none] at hmap ⊢
    rw [sectionSource]
    split_ifs with hw
    · have hcopy := hmap.copies x.1 hsec hw
      rw [Apart] at hcopy
      omega
    · exact .inr (.inr ⟨x, hx, k, hraw, by omega, by omega⟩)
  · -- pages outside the mapped sections
    refine (mapSections_pages_outside hmap hbase fun sec hsec => ?_).trans (by rw [hpages])
    obtain ⟨size, hx⟩ := f.exists_sized hsec
    exact hpage _ hx
  · rw [PEImage.loaded]
    dsimp only
    -- pages that the process had are no pages of the load
    rw [patchAll_outside hout, mapped_mem hready hfresh fun hnone => ?_]
    · intro sec hsec hw
      have := (hfresh.copies sec hsec hw).2 page e (by rw [hpages]; exact he)
      rw [Apart] at this
      omega
    · have := (hfresh.image hnone).2 page e he
      rw [Apart] at this
      omega

/-- The attributes of a section grant its rights. -/
theorem attr_grants (sec : ImageSection) : sec.Grants sec.attr := by
  rw [ImageSection.Grants, ImageSection.attr, ImageSection.executable]
  by_cases hexec : sec.characteristics / 2 ^ 29 % 2 = 1 <;>
    by_cases hread : sec.characteristics / 2 ^ 30 % 2 = 1 <;>
      cases hwrite : sec.writable <;>
        simp only [hexec, hread, if_true, if_false, Bool.false_eq_true] <;> decide

/-- The page of a byte behind the pages of a section is not mapped by the load. -/
theorem Loaded.far_page (hbase : base % 4096 = 0) (h : Loaded f s s' process base image copyAt)
    {x : ImageSection × ℕ} (hx : x ∈ sizedSections f.bytes 0) {k : ℕ} (hk : k < x.2)
    (hround : pageRound x.1.sizeOfRawData ≤ k) :
    s'.pages process ((base + x.1.virtualAddress + k) / 4096) =
      s.pages process ((base + x.1.virtualAddress + k) / 4096) := by
  have haligned := (f.section_bounds hx).2.1
  have hspan := (le_span x).2
  refine h.other _ fun y hy => ?_
  have hyaligned := (f.section_bounds hy).2.1
  have hyspan := (f.section_bounds hy).2.2.2.1
  have hyround := pageRound_mod y.1.sizeOfRawData
  by_cases hxy : y = x
  · rw [hxy]
    have hxround := pageRound_mod x.1.sizeOfRawData
    omega
  · by_contra hno
    have hwhole : span x % 4096 = 0 := Nat.mul_mod_left _ _
    refine hxy (f.section_unique (r := x.1.virtualAddress + k / 4096 * 4096) hy hx ?_ ?_ ?_ ?_)
    all_goals omega

/-- One byte of a section after a load. -/
theorem Loaded.seen_iff (hbase : base % 4096 = 0) (h : Loaded f s s' process base image copyAt)
    {x : ImageSection × ℕ} (hx : x ∈ sizedSections f.bytes 0) {k : ℕ} (hk : k < x.2) :
    (∃ e, s'.pages process ((base + x.1.virtualAddress + k) / 4096) = some e ∧ x.1.Grants e.2 ∧
      (¬ f.InSlot image (x.1.virtualAddress + k) (e.1 + k % 4096) →
        s'.mem (e.1 + k % 4096) =
          if k < min x.1.sizeOfRawData x.2 then f.bytes (x.1.pointerToRawData + k) else 0)) ↔
    (x.1.sizeOfRawData ≤ k →
      if k < pageRound x.1.sizeOfRawData then s.mem (sectionSource image copyAt x.1 + k) = 0
      else ∃ e, s.pages process ((base + x.1.virtualAddress + k) / 4096) = some e ∧
        x.1.Grants e.2 ∧ (¬ f.InSlot image (x.1.virtualAddress + k) (e.1 + k % 4096) →
          s.mem (e.1 + k % 4096) = 0)) := by
  have hbounds := f.section_bounds hx
  by_cases hround : k < pageRound x.1.sizeOfRawData
  · rw [h.mapped x hx k hround, if_pos hround]
    have hoffset : sectionSource image copyAt x.1 + k / 4096 * 4096 + k % 4096 =
        sectionSource image copyAt x.1 + k := by omega
    simp only [Option.some.injEq, exists_eq_left', hoffset, attr_grants, true_and]
    by_cases hraw : k < x.1.sizeOfRawData
    · rw [if_pos (lt_min hraw hk)]
      exact iff_of_true (h.raw x hx k hraw) fun hle => absurd hraw hle.not_gt
    · obtain ⟨hslot, hmem⟩ := h.rest x hx k (not_lt.mp hraw) hround
      rw [if_neg fun hlt => hraw (lt_min_iff.mp hlt).1, hmem]
      exact ⟨fun hzero _ => hzero hslot, fun hzero _ => hzero (not_lt.mp hraw)⟩
  · have hraw : x.1.sizeOfRawData ≤ k := by omega
    rw [h.far_page hbase hx hk (not_lt.mp hround), if_neg hround,
      if_neg fun hlt => hraw.not_gt (lt_min_iff.mp hlt).1]
    -- physical memory that the process had already keeps its bytes outside the slots
    have hkeep : ∀ e, s.pages process ((base + x.1.virtualAddress + k) / 4096) = some e →
        ¬ f.InSlot image (x.1.virtualAddress + k) (e.1 + k % 4096) →
        s'.mem (e.1 + k % 4096) = s.mem (e.1 + k % 4096) := fun e he hslot =>
      h.unused _ e he _ (Nat.mod_lt _ (by norm_num)) fun t ht => (not_inSlot hslot t ht).2
    constructor
    · rintro ⟨e, he, hgrants, hzero⟩ -
      exact ⟨e, he, hgrants, fun hslot => by rw [← hkeep e he hslot, hzero hslot]⟩
    · intro hzero
      obtain ⟨e, he, hgrants, hzero⟩ := hzero hraw
      exact ⟨e, he, hgrants, fun hslot => by rw [hkeep e he hslot, hzero hslot]⟩

/-- The sections after a load. -/
theorem Loaded.visible_iff (hbase : base % 4096 = 0)
    (h : Loaded f s s' process base (s.image.getD physImage) copyAt) :
    Visible f s' process base (s.image.getD physImage) ↔
      Zeroed f s process base physImage copyAt := by
  constructor
  · intro hvisible x hx k hraw hk
    exact (h.seen_iff hbase hx hk).mp (hvisible x hx k hk) hraw
  · intro hzeroed x hx k hk
    exact (h.seen_iff hbase hx hk).mpr fun hraw => hzeroed x hx k hraw hk

theorem moduleAslr_mod (random : ℕ) : moduleAslr random % 4096 = 0 := by
  rw [moduleAslr]
  omega

/-- What earlier loads leave. -/
theorem ready_of_reachable (hs : Reachable Initial (LoadEx f) s) : Ready f s := by
  refine hs.invariant (fun s h => .inl h.1) ?_
  rintro s s' hready ⟨process, random, physImage, copyAt, hfresh, hload⟩
  rw [xtLoadModuleEx, loadModule_loaded hready hfresh] at hload
  obtain rfl := Option.some.inj hload
  exact .inr ⟨_, (loaded_spec hready (moduleAslr_mod random) hfresh).cached⟩

/-- **Sections of a module**: after every run of loads and for every load of a module into a
    process, the process sees all sections as the file describes them exactly if the bytes behind
    the raw data of each section were zero before, wherever they come from. -/
theorem xtLoadModuleEx_visible_iff {random : ℕ} (hs : Reachable Initial (LoadEx f) s)
    (hfresh : FreshPages f s process physImage copyAt)
    (h : xtLoadModuleEx f.fuel f.bytes s process random physImage copyAt = some s') :
    Visible f s' process (moduleAslr random) (s.image.getD physImage) ↔
      Zeroed f s process (moduleAslr random) physImage copyAt := by
  have hready := ready_of_reachable hs
  rw [xtLoadModuleEx, loadModule_loaded hready hfresh] at h
  obtain rfl := Option.some.inj h
  exact (loaded_spec hready (moduleAslr_mod random) hfresh).visible_iff (moduleAslr_mod random)

/-! ### A module with a data section that is longer than its raw data -/

/-- The fields of a file with the sections `.text` and `.data`. The raw data of each has 32
    bytes, and `.data` takes a page in memory. -/
def dataFile : Mem :=
  [(0x3c, 4, 0x40), (0x46, 2, 2), (0x54, 2, 240), (0x70, 8, 0x7f0000000000), (0x90, 4, 0x3000),
    (0x94, 4, 0x200),
    (0x150, 4, 0x20), (0x154, 4, 0x1000), (0x158, 4, 0x20), (0x15c, 4, 0x200),
    (0x16c, 4, 0x60000020),
    (0x178, 4, 0x1000), (0x17c, 4, 0x2000), (0x180, 4, 0x20), (0x184, 4, 0x220),
    (0x194, 4, 0xc0000040)].foldl (fun m x => storeLE m x.1 x.2.1 x.2.2) fun _ => 0

def dataModule : PEImage where
  bytes := dataFile
  fuel := 0
  targets := []
  headers_fit := by decide +kernel
  sections_listed := by decide +kernel
  headers_inside := by decide +kernel
  sections_inside := by decide +kernel
  sections_apart := by decide +kernel
  directory := .inl (by decide +kernel)
  targets_inside := by decide +kernel

/-- The section `.data`. -/
def dataSection : ImageSection × ℕ := (⟨0x2000, 0x20, 0x220, 0xc0000040⟩, 0x1000)

theorem sizedSections_dataFile :
    sizedSections dataFile 0 = [(⟨0x1000, 0x20, 0x200, 0x60000020⟩, 0x20), dataSection] := by
  decide +kernel

/-- Nothing is loaded, and all of memory holds one byte. -/
def filledLoader (b : UInt8) : Loader := ⟨fun _ => b, none, fun _ _ => none, [], []⟩

theorem freshPages_filled (b : UInt8) :
    FreshPages dataModule (filledLoader b) 1 0x100000 fun _ => 0x200000 := by
  have hsections : dataModule.headers.sections = [⟨0x1000, 0x20, 0x200, 0x60000020⟩, dataSection.1] := by
    rw [PEImage.headers, ← sizedSections_fst]
    exact congrArg _ sizedSections_dataFile
  have hsize : dataModule.headers.sizeOfImage = 0x3000 := by decide +kernel
  refine ⟨fun _ => ⟨by simp [filledLoader], by simp [filledLoader]⟩, fun sec hsec hw => ?_, ?_⟩
  · rw [hsections] at hsec
    simp only [List.mem_cons, List.not_mem_nil, or_false] at hsec
    obtain rfl | rfl := hsec
    · cases hw
    · refine ⟨fun y hy => ?_, by simp [filledLoader, xtGetOrLoadPhysicalModule]⟩
      obtain rfl : y = (0x100000, dataModule.headers.sizeOfImage) := by
        simpa [filledLoader, xtGetOrLoadPhysicalModule, PEImage.headers] using hy
      rw [hsize]
      decide
  · rw [hsections]
    refine List.pairwise_pair.mpr fun hw => ?_
    cases hw

/-- In pages that were zero the module is as it should be. -/
theorem visible_in_zeroed_pages : ∃ s',
    xtLoadModuleEx dataModule.fuel dataModule.bytes (filledLoader 0) 1 0 0x100000
        (fun _ => 0x200000) = some s' ∧
      Visible dataModule s' 1 (moduleAslr 0) 0x100000 := by
  have hload : xtLoadModuleEx dataModule.fuel dataModule.bytes _ 1 0 _ _ = _ :=
    loadModule_loaded (.inl rfl) (freshPages_filled 0)
  refine ⟨_, hload, (xtLoadModuleEx_visible_iff (.start ⟨rfl, rfl, rfl⟩) (freshPages_filled 0)
    hload).mpr fun x hx k hraw hk => ?_⟩
  have hround : ∀ x ∈ sizedSections dataFile 0, x.2 ≤ pageRound x.1.sizeOfRawData := by
    rw [sizedSections_dataFile]
    decide
  rw [if_pos (hk.trans_le (hround x hx))]
  rfl

/-- In pages that were not, the process sees behind the raw data what was in them. -/
theorem stale_bytes_visible : Reachable Initial (LoadEx dataModule) (filledLoader 0xff) ∧
    FreshPages dataModule (filledLoader 0xff) 1 0x100000 (fun _ => 0x200000) ∧ ∃ s',
    xtLoadModuleEx dataModule.fuel dataModule.bytes (filledLoader 0xff) 1 0 0x100000
        (fun _ => 0x200000) = some s' ∧
      s'.translate 1 (moduleAslr 0 + 0x2020) = some 0x200020 ∧ s'.mem 0x200020 = 0xff ∧
      ¬ Visible dataModule s' 1 (moduleAslr 0) 0x100000 := by
  have hfresh := freshPages_filled 0xff
  have hspec := loaded_spec (.inl rfl) (moduleAslr_mod 0) hfresh
  have hdata : dataSection ∈ sizedSections dataModule.bytes 0 := by
    rw [show sizedSections dataModule.bytes 0 = _ from sizedSections_dataFile]
    exact List.mem_cons_of_mem _ List.mem_cons_self
  refine ⟨.start ⟨rfl, rfl, rfl⟩, hfresh, _, loadModule_loaded (.inl rfl) hfresh, ?_, ?_,
    fun hvisible => ?_⟩
  · have hpage := hspec.mapped dataSection hdata 0x20 (by decide)
    rw [Loader.translate, show (moduleAslr 0 + 0x2020) / 4096 =
      (moduleAslr 0 + dataSection.1.virtualAddress + 0x20) / 4096 from rfl, hpage]
    rfl
  · exact (hspec.rest dataSection hdata 0x20 (by decide) (by decide)).2
  · have hzeroed := (hspec.visible_iff (moduleAslr_mod 0)).mp hvisible dataSection hdata 0x20
      (by decide) (by decide)
    rw [if_pos (by decide)] at hzeroed
    exact absurd hzeroed (by decide)

end XTOS.Linker

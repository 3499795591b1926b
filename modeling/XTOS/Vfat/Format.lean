import XTOS.Vfat.Directory

/-!
# Making a file system

`calc_fat_size`, `vfatMakeFS` and `vfatMount` of `drivers/vfat/main.c`: the sectors that
formatting writes, and what a mount of the formatted device finds.

## Main definitions

- `calcFatSize` — the sectors of a table
- `makeFSWrites`, `vfatMakeFS` — the writes of the formatter
- `vfatMount` — the geometry that the boot sector records
- `geometry` — the geometry that belongs to a device size
- `Formatted` — an empty volume
- `TableFits` — a table with an entry for every cluster

## Design notes

The device may hold anything before. Reads and writes of the formatter go through the same
`Device` as those of the driver: what lies behind the end of the device is not stored.
-/

namespace XTOS.Vfat

open SysLib

/-! ### The size of the tables -/

/-- The condition of the loop of `calc_fat_size`, in 32-bit words: a table of `n` sectors is
    too short for the clusters that are left. -/
def tableTooShort (totalSectors reserved fats spc bps n : ℕ) : Bool :=
  let dataSectors := (totalSectors + 2 ^ 33 - reserved - fats * n % 2 ^ 32) % 2 ^ 32
  let clusterCount := dataSectors / spc
  n < (clusterCount * 4 + bps - 1) % 2 ^ 32 / bps

/-- The loop of `calc_fat_size`. -/
def calcFatLoop (totalSectors reserved fats spc bps : ℕ) : ℕ → ℕ → ℕ
  | 0, n => n
  | fuel + 1, n =>
    if tableTooShort totalSectors reserved fats spc bps (n + 1) then
      calcFatLoop totalSectors reserved fats spc bps fuel (n + 1)
    else n + 1

/-- `calc_fat_size`; the quotient of a 32-bit word by the bytes of a sector bounds the loop. -/
def calcFatSize (totalSectors reserved fats spc bps : ℕ) : ℕ :=
  calcFatLoop totalSectors reserved fats spc bps (2 ^ 32 / bps) 0

/-! ### The sectors of the formatter -/

/-- `RESERVED_SECTORS`. -/
def reservedSectors : ℕ := 32

/-- `total_sectors`, rounded down to whole clusters. -/
def totalSectors (sizeOfDisk : ℕ) : ℕ :=
  let total := sizeOfDisk / 512 % 2 ^ 32
  let dataSectors := (total + (2 ^ 32 - reservedSectors)) % 2 ^ 32
  let remainder := dataSectors % 4
  if remainder ≠ 0 then (reservedSectors + (dataSectors - remainder)) % 2 ^ 32 else total

/-- `fat_sz`. -/
def fatSectors (sizeOfDisk : ℕ) : ℕ := calcFatSize (totalSectors sizeOfDisk) reservedSectors 2 4 512

/-- `fat_bytes`. -/
def fatBytes (sizeOfDisk : ℕ) : ℕ := fatSectors sizeOfDisk * 512 % 2 ^ 32

/-- The first 48 bytes of the boot sector; all that a mount reads. -/
def bootHead (total fatSz : ℕ) : List UInt8 :=
  [0xeb, 0x58, 0x90, 0x4d, 0x53, 0x57, 0x49, 0x4e, 0x34, 0x2e, 0x31] ++ leBytes 2 512 ++
    leBytes 1 4 ++ leBytes 2 reservedSectors ++ leBytes 1 2 ++ leBytes 2 0 ++ leBytes 2 0 ++
    leBytes 1 0xf8 ++ leBytes 2 0 ++ leBytes 2 0 ++ leBytes 2 0 ++ leBytes 4 0 ++
    leBytes 4 total ++ leBytes 4 fatSz ++ leBytes 2 0 ++ leBytes 2 0 ++ leBytes 4 2

/-- The rest of the boot sector. -/
def bootTail (volumeId : ℕ) : List UInt8 :=
  leBytes 2 1 ++ leBytes 2 6 ++ List.replicate 12 0 ++ leBytes 1 0 ++ leBytes 1 0 ++
    leBytes 1 0x29 ++ leBytes 4 volumeId ++
    [0x4e, 0x4f, 0x20, 0x4e, 0x41, 0x4d, 0x45, 0x20, 0x20, 0x20, 0x20] ++
    [0x46, 0x41, 0x54, 0x33, 0x32, 0x20, 0x20, 0x20] ++ List.replicate 420 0 ++ leBytes 2 0xaa55

/-- `fat32_ebpb_t`. -/
def ebpb (total fatSz volumeId : ℕ) : List UInt8 := bootHead total fatSz ++ bootTail volumeId

/-- `fsinfo_t`. -/
def fsinfo : List UInt8 :=
  leBytes 4 0x41615252 ++ List.replicate 480 0 ++ leBytes 4 0x61417272 ++ leBytes 4 3 ++
    leBytes 4 0xffffffff ++ List.replicate 12 0 ++ leBytes 4 0xaa550000

/-- The three entries that a table starts with. -/
def tableWrites (start : ℕ) : List (ℕ × List UInt8) :=
  [(start, leBytes 4 0x0ffffff8), (start + 4, leBytes 4 eoc), (start + 8, leBytes 4 eoc)]

/-- The sectors in front of the tables: the boot sector, its copy and FSInfo. -/
def sectorWrites (sizeOfDisk random : ℕ) : List (ℕ × List UInt8) :=
  let sector := ebpb (totalSectors sizeOfDisk) (fatSectors sizeOfDisk) (random % 2 ^ 32)
  [(0, sector), (6 * 512, sector), (512, fsinfo), (512 + 510, leBytes 2 0xaa55)]

/-- The writes of `vfatMakeFS`, in order. -/
def makeFSWrites (sizeOfDisk random : ℕ) : List (ℕ × List UInt8) :=
  sectorWrites sizeOfDisk random ++ tableWrites (512 * reservedSectors) ++
    tableWrites ((512 * reservedSectors + fatBytes sizeOfDisk) % 2 ^ 32) ++
    [(sizeOfDisk - 1, [0])]

/-- Writes to a device, one after the other. -/
def Device.writeAll (d : Device) (writes : List (ℕ × List UInt8)) : Device :=
  writes.foldl (fun d w => d.write w.1 w.2) d

/-- `vfatMakeFS`; it succeeds on every device. -/
def vfatMakeFS (d : Device) (random : ℕ) : Device := d.writeAll (makeFSWrites d.size random)

/-! ### Mounting -/

/-- The geometry in a boot sector. -/
def bootGeometry (sector : ℕ → UInt8) : VfatFSData :=
  let bps := loadLE sector 11 2
  let fatSize := loadLE sector 36 4 * bps % 2 ^ 32
  { fatSizeBytes := fatSize
    sectorsPerCluster := loadLE sector 13 1
    bytesPerSector := bps
    reservedSectors := loadLE sector 14 2
    dataOffset := (loadLE sector 16 1 * fatSize + bps * loadLE sector 14 2) % 2 ^ 32
    rootDir := ⟨0, eoc, loadLE sector 44 4⟩ }

/-- `vfatMount`: the boot sector is read into zeros. -/
def vfatMount (d : Device) : Except XTResult VfatFSData :=
  let bytes := d.read 0 512
  if bytes = [] then .error .endOfFile else .ok (bootGeometry (slotBuffer bytes))

/-- The geometry that belongs to a device size. -/
def geometry (sizeOfDisk : ℕ) : VfatFSData :=
  { fatSizeBytes := fatBytes sizeOfDisk
    sectorsPerCluster := 4
    bytesPerSector := 512
    reservedSectors := reservedSectors
    dataOffset := (2 * fatBytes sizeOfDisk + 512 * reservedSectors) % 2 ^ 32
    rootDir := ⟨0, eoc, 2⟩ }

/-- The value that `find_free_cluster` sees for a cluster. -/
def tableEntry (g : VfatFSData) (d : Device) (c : ℕ) : ℕ :=
  leNat (d.read ((fatOffset g + c * 4) % 2 ^ 32) 4)

/-- The entry of the cluster in the second table. -/
def copyEntry (g : VfatFSData) (d : Device) (c : ℕ) : ℕ :=
  leNat (d.read ((fatOffset g + g.fatSizeBytes + c * 4) % 2 ^ 32) 4)

/-- An empty volume of a size: the mount finds its geometry, the root directory lists no
    entry, and cluster 2 is the only allocated one in both tables. -/
structure Formatted (sizeOfDisk : ℕ) (d : Device) : Prop where
  mount : vfatMount d = .ok (geometry sizeOfDisk)
  root : vfatReadDirectory (geometry sizeOfDisk) d (geometry sizeOfDisk).rootDir.firstCluster 0 0 =
    some (.error .endOfFile)
  free : ∀ c, 3 ≤ c → c < maxCluster (geometry sizeOfDisk) →
    tableEntry (geometry sizeOfDisk) d c = 0 ∧ copyEntry (geometry sizeOfDisk) d c = 0
  used : tableEntry (geometry sizeOfDisk) d 2 = eoc ∧ copyEntry (geometry sizeOfDisk) d 2 = eoc

/-! ### What the loop finds -/

theorem calcFatLoop_spec {totalSectors reserved fats spc bps fuel n : ℕ}
    (hend : ∃ m, n < m ∧ m ≤ n + fuel ∧
      tableTooShort totalSectors reserved fats spc bps m = false) :
    n < calcFatLoop totalSectors reserved fats spc bps fuel n ∧
      tableTooShort totalSectors reserved fats spc bps
        (calcFatLoop totalSectors reserved fats spc bps fuel n) = false ∧
      ∀ m, n < m → m < calcFatLoop totalSectors reserved fats spc bps fuel n →
        tableTooShort totalSectors reserved fats spc bps m = true := by
  induction fuel generalizing n with
  | zero =>
    obtain ⟨m, h1, h2, -⟩ := hend
    omega
  | succ fuel ih =>
    rw [calcFatLoop]
    by_cases hshort : tableTooShort totalSectors reserved fats spc bps (n + 1) = true
    · rw [if_pos hshort]
      obtain ⟨m, h1, h2, hm⟩ := hend
      have hne : m ≠ n + 1 := by
        rintro rfl
        rw [hshort] at hm
        cases hm
      obtain ⟨hlt, hok, hall⟩ := ih (n := n + 1) ⟨m, by omega, by omega, hm⟩
      refine ⟨by omega, hok, fun k h1 h2 => ?_⟩
      by_cases hk : k = n + 1
      · rw [hk]
        exact hshort
      · exact hall k (by omega) h2
    · rw [if_neg hshort]
      exact ⟨by omega, by simpa using hshort, fun k h1 h2 => by omega⟩

theorem totalSectors_eq (sizeOfDisk : ℕ) :
    totalSectors sizeOfDisk = sizeOfDisk / 512 % 2 ^ 32 / 4 * 4 := by
  unfold totalSectors reservedSectors
  dsimp only
  split_ifs with h
  · omega
  · omega

/-- A table that is too short, where the subtraction does not wrap. -/
theorem of_tableTooShort {total n : ℕ} (hle : reservedSectors + 2 * n ≤ total)
    (hlt : total < 2 ^ 32) (h : tableTooShort total reservedSectors 2 4 512 n = true) :
    512 * (n + 1) ≤ total - reservedSectors - 2 * n + 511 := by
  unfold tableTooShort at h
  unfold reservedSectors at hle h ⊢
  have h1 : 2 * n % 2 ^ 32 = 2 * n := by omega
  have h2 : (total + 2 ^ 33 - 32 - 2 * n) % 2 ^ 32 = total - 32 - 2 * n := by omega
  simp only [h1, h2, decide_eq_true_eq] at h
  omega

/-- What `calc_fat_size` returns for a number of sectors that is a multiple of four. -/
theorem calcFatSize_spec {total : ℕ} (hlt : total < 2 ^ 32) (hfour : total % 4 = 0) :
    1 ≤ calcFatSize total reservedSectors 2 4 512 ∧
      tableTooShort total reservedSectors 2 4 512 (calcFatSize total reservedSectors 2 4 512) =
        false ∧
      (calcFatSize total reservedSectors 2 4 512 = 1 ∨
        reservedSectors + 2 * calcFatSize total reservedSectors 2 4 512 ≤ total) ∧
      514 * calcFatSize total reservedSectors 2 4 512 ≤ total + 514 := by
  -- the loop ends at the latest where no sectors are left
  have hstop : ∃ m, 1 ≤ m ∧ m ≤ 2 ^ 32 / 512 ∧
      tableTooShort total reservedSectors 2 4 512 m = false := by
    refine ⟨2 ^ 32 / 512, by decide, le_rfl, ?_⟩
    unfold tableTooShort
    simp only [decide_eq_false_iff_not]
    omega
  obtain ⟨m, hm1, hm2, hm⟩ := hstop
  obtain ⟨hpos, hok, hall⟩ := calcFatLoop_spec (n := 0)
    (show ∃ m, 0 < m ∧ m ≤ 0 + 2 ^ 32 / 512 ∧ _ from ⟨m, by omega, by omega, hm⟩)
  change 0 < calcFatSize total reservedSectors 2 4 512 at hpos
  change tableTooShort total reservedSectors 2 4 512
    (calcFatSize total reservedSectors 2 4 512) = false at hok
  change ∀ m, 0 < m → m < calcFatSize total reservedSectors 2 4 512 → _ at hall
  set n := calcFatSize total reservedSectors 2 4 512
  have hreserved : reservedSectors = 32 := rfl
  have hfits : n = 1 ∨ reservedSectors + 2 * n ≤ total := by
    by_contra hcon
    push Not at hcon
    by_cases hsmall : total ≤ reservedSectors
    · have hone := hall 1 (by omega) (by omega)
      unfold tableTooShort reservedSectors at hone
      unfold reservedSectors at hsmall
      simp only [decide_eq_true_eq] at hone
      omega
    · have hlast := hall ((total - reservedSectors) / 2) (by omega) (by omega)
      have hbound := of_tableTooShort (by omega) hlt hlast
      omega
  refine ⟨hpos, hok, hfits, ?_⟩
  by_cases hone : n = 1
  · omega
  · have hprev := hall (n - 1) (by omega) (by omega)
    have hbound := of_tableTooShort (by omega) hlt hprev
    omega

/-- The sizes of the tables of a formatted volume. -/
theorem fatBytes_spec (sizeOfDisk : ℕ) :
    fatBytes sizeOfDisk = 512 * fatSectors sizeOfDisk ∧ 1 ≤ fatSectors sizeOfDisk ∧
      fatBytes sizeOfDisk + 16397 < 2 ^ 32 := by
  have htotal := totalSectors_eq sizeOfDisk
  obtain ⟨hpos, -, -, hbound⟩ := calcFatSize_spec (show totalSectors sizeOfDisk < 2 ^ 32 by omega)
    (by omega)
  change 1 ≤ fatSectors sizeOfDisk at hpos
  change 514 * fatSectors sizeOfDisk ≤ _ at hbound
  unfold fatBytes
  omega

/-! ### Several writes -/

variable {d : Device} {a : ℕ} {writes pre post : List (ℕ × List UInt8)}

@[simp] theorem Device.writeAll_size (d : Device) (writes : List (ℕ × List UInt8)) :
    (d.writeAll writes).size = d.size := by
  induction writes generalizing d with
  | nil => rfl
  | cons w writes ih => exact ih (d.write w.1 w.2)

/-- A byte that none of the writes reaches. -/
theorem Device.writeAll_outside (d : Device)
    (h : ∀ w ∈ writes, a < w.1 ∨ w.1 + w.2.length ≤ a) :
    (d.writeAll writes).bytes a = d.bytes a := by
  induction writes generalizing d with
  | nil => rfl
  | cons w writes ih =>
    have hrest := ih (d.write w.1 w.2) fun w' hw' => h w' (List.mem_cons_of_mem _ hw')
    exact hrest.trans (d.write_bytes_outside (h w List.mem_cons_self))

theorem Device.writeAll_append (d : Device) (pre post : List (ℕ × List UInt8)) :
    d.writeAll (pre ++ post) = (d.writeAll pre).writeAll post :=
  List.foldl_append

/-- A block that is on the device and that no later write reaches. -/
theorem Device.load_writeAll (d : Device) {o : ℕ} {xs : List UInt8} (hin : o + xs.length ≤ d.size)
    (hpost : ∀ w ∈ post, o + xs.length ≤ w.1 ∨ w.1 + w.2.length ≤ o) :
    load (d.writeAll (pre ++ (o, xs) :: post)).bytes o xs.length = xs := by
  rw [Device.writeAll_append]
  change load (((d.writeAll pre).write o xs).writeAll post).bytes o xs.length = xs
  have hkeep : load (((d.writeAll pre).write o xs).writeAll post).bytes o xs.length =
      load ((d.writeAll pre).write o xs).bytes o xs.length := by
    apply load_congr
    intro i h1 h2
    apply Device.writeAll_outside
    intro w hw
    have := hpost w hw
    omega
  rw [hkeep, Device.write_eq _ (by simpa using hin)]
  exact load_store_same _ _ _

/-! ### The boot sector -/

theorem length_ebpb (total fatSz volumeId : ℕ) : (ebpb total fatSz volumeId).length = 512 := by
  simp only [ebpb, bootHead, bootTail, List.length_append, List.length_cons, List.length_nil,
    List.length_replicate, length_leBytes]

theorem loadLE_ebpb {total fatSz volumeId i n : ℕ} {bytes : List UInt8} (h : i + n ≤ 512)
    (hb : ((ebpb total fatSz volumeId).drop i).take n = bytes) :
    loadLE (slotBuffer (ebpb total fatSz volumeId)) i n = leNat bytes := by
  rw [loadLE, load_slotBuffer (by rw [length_ebpb]; exact h), hb]

theorem bootGeometry_ebpb (sizeOfDisk volumeId : ℕ) :
    bootGeometry (slotBuffer (ebpb (totalSectors sizeOfDisk) (fatSectors sizeOfDisk) volumeId)) =
      geometry sizeOfDisk := by
  obtain ⟨hbytes, -, hword⟩ := fatBytes_spec sizeOfDisk
  have hfat : leNat (leBytes 4 (fatSectors sizeOfDisk)) = fatSectors sizeOfDisk := by
    rw [leNat_leBytes]
    omega
  have h11 : ((ebpb (totalSectors sizeOfDisk) (fatSectors sizeOfDisk) volumeId).drop 11).take 2 =
      leBytes 2 512 := rfl
  have h13 : ((ebpb (totalSectors sizeOfDisk) (fatSectors sizeOfDisk) volumeId).drop 13).take 1 =
      leBytes 1 4 := rfl
  have h14 : ((ebpb (totalSectors sizeOfDisk) (fatSectors sizeOfDisk) volumeId).drop 14).take 2 =
      leBytes 2 reservedSectors := rfl
  have h16 : ((ebpb (totalSectors sizeOfDisk) (fatSectors sizeOfDisk) volumeId).drop 16).take 1 =
      leBytes 1 2 := rfl
  have h36 : ((ebpb (totalSectors sizeOfDisk) (fatSectors sizeOfDisk) volumeId).drop 36).take 4 =
      leBytes 4 (fatSectors sizeOfDisk) := rfl
  have h44 : ((ebpb (totalSectors sizeOfDisk) (fatSectors sizeOfDisk) volumeId).drop 44).take 4 =
      leBytes 4 2 := rfl
  rw [bootGeometry, loadLE_ebpb (by decide) h11, loadLE_ebpb (by decide) h13,
    loadLE_ebpb (by decide) h14, loadLE_ebpb (by decide) h16, loadLE_ebpb (by decide) h36,
    loadLE_ebpb (by decide) h44, hfat]
  have e1 : leNat (leBytes 2 512) = 512 := by decide
  have e2 : leNat (leBytes 1 4) = 4 := by decide
  have e3 : leNat (leBytes 2 reservedSectors) = reservedSectors := by decide
  have e4 : leNat (leBytes 1 2) = 2 := by decide
  have e5 : leNat (leBytes 4 2) = 2 := by decide
  rw [e1, e2, e3, e4, e5]
  rfl

/-! ### The formatted device -/

/-- The content before, with the byte that `vfatMakeFS` clears at the end. -/
def lastCleared (d : Device) : Device := d.write (d.size - 1) [0]

theorem lastCleared_bytes (d : Device) {a : ℕ} (ha : a < d.size) :
    (lastCleared d).bytes a = if a + 1 = d.size then 0 else d.bytes a := by
  rw [lastCleared, Device.write_eq _ (by rw [List.length_singleton]; omega)]
  dsimp only
  split_ifs with hlast
  · have h := store_at d.bytes (d.size - 1) [0] (show 0 < [(0 : UInt8)].length by decide)
    rw [show a = d.size - 1 + 0 by omega]
    exact h
  · exact store_outside _ _ (by rw [List.length_singleton]; omega)

theorem length_fsinfo : fsinfo.length = 512 := by
  simp only [fsinfo, List.length_append, List.length_replicate, length_leBytes]

/-- Where the writes in front of the last one go. -/
theorem makeFSWrites_range {sizeOfDisk random : ℕ} {w : ℕ × List UInt8}
    (hw : w ∈ sectorWrites sizeOfDisk random ++ tableWrites (512 * reservedSectors) ++
      tableWrites ((512 * reservedSectors + fatBytes sizeOfDisk) % 2 ^ 32)) :
    w.1 + w.2.length ≤ 16396 ∨
      (16384 + fatBytes sizeOfDisk ≤ w.1 ∧ w.1 + w.2.length ≤ 16396 + fatBytes sizeOfDisk) := by
  obtain ⟨-, -, hword⟩ := fatBytes_spec sizeOfDisk
  have hstart : (512 * reservedSectors + fatBytes sizeOfDisk) % 2 ^ 32 =
      16384 + fatBytes sizeOfDisk := by
    unfold reservedSectors
    omega
  rw [hstart] at hw
  simp only [sectorWrites, tableWrites, List.mem_append, List.mem_cons, List.not_mem_nil,
    or_false] at hw
  unfold reservedSectors at hw
  rcases hw with ((rfl | rfl | rfl | rfl) | rfl | rfl | rfl) | rfl | rfl | rfl <;>
    simp only [length_ebpb, length_fsinfo, length_leBytes] <;> omega

/-- A byte that formatting leaves alone, but for the last one of the device. -/
theorem vfatMakeFS_bytes (d : Device) (random : ℕ) {a : ℕ} (ha : 16396 ≤ a)
    (hcopy : a < 16384 + fatBytes d.size ∨ 16396 + fatBytes d.size ≤ a) :
    (vfatMakeFS d random).bytes a = (lastCleared d).bytes a := by
  rw [vfatMakeFS, makeFSWrites, Device.writeAll_append]
  set d₁ := d.writeAll (sectorWrites d.size random ++ tableWrites (512 * reservedSectors) ++
    tableWrites ((512 * reservedSectors + fatBytes d.size) % 2 ^ 32)) with hd₁
  have hsame : d₁.bytes a = d.bytes a := by
    apply Device.writeAll_outside
    intro w hw
    have := makeFSWrites_range hw
    omega
  have hsize : d₁.size = d.size := Device.writeAll_size _ _
  change (d₁.write (d.size - 1) [0]).bytes a = (d.write (d.size - 1) [0]).bytes a
  simp only [Device.write, Device.served, hsize, store, hsame]

/-- A block in front of the last write. -/
theorem vfatMakeFS_load (d : Device) (random : ℕ) (pre post : List (ℕ × List UInt8)) {o : ℕ}
    {xs : List UInt8}
    (hsplit : makeFSWrites d.size random = pre ++ (o, xs) :: (post ++ [(d.size - 1, [0])]))
    (hin : o + xs.length < d.size)
    (hpost : ∀ w ∈ post, o + xs.length ≤ w.1 ∨ w.1 + w.2.length ≤ o) :
    load (vfatMakeFS d random).bytes o xs.length = xs := by
  rw [vfatMakeFS, hsplit]
  apply Device.load_writeAll d (by omega)
  intro w hw
  rw [List.mem_append, List.mem_singleton] at hw
  obtain hw | rfl := hw
  · exact hpost w hw
  · dsimp only
    omega

variable {d : Device} {random : ℕ}

@[simp] theorem vfatMakeFS_size (d : Device) (random : ℕ) :
    (vfatMakeFS d random).size = d.size :=
  Device.writeAll_size _ _

/-- The boot sector of a formatted device. -/
theorem vfatMakeFS_boot (d : Device) (random : ℕ) (hsize : 16396 < d.size) :
    load (vfatMakeFS d random).bytes 0 512 =
      ebpb (totalSectors d.size) (fatSectors d.size) (random % 2 ^ 32) := by
  have hsplit : makeFSWrites d.size random =
      [] ++ (0, ebpb (totalSectors d.size) (fatSectors d.size) (random % 2 ^ 32)) ::
        ((sectorWrites d.size random).tail ++ tableWrites (512 * reservedSectors) ++
          tableWrites ((512 * reservedSectors + fatBytes d.size) % 2 ^ 32) ++
          [(d.size - 1, [0])]) := rfl
  have hload := vfatMakeFS_load d random _ _ hsplit
  rw [length_ebpb] at hload
  apply hload (by omega)
  intro w hw
  have hstart : 16384 ≤ (512 * reservedSectors + fatBytes d.size) % 2 ^ 32 := by
    obtain ⟨-, -, hword⟩ := fatBytes_spec d.size
    unfold reservedSectors
    omega
  simp only [sectorWrites, tableWrites, List.tail_cons, List.mem_append, List.mem_cons,
    List.not_mem_nil, or_false] at hw
  unfold reservedSectors at hw hstart
  rcases hw with ((rfl | rfl | rfl) | rfl | rfl | rfl) | rfl | rfl | rfl <;> omega

/-- The entry of cluster 2 in a table that starts at `o`. -/
theorem vfatMakeFS_rootEntry (d : Device) (random : ℕ)
    (hsize : 16396 + fatBytes d.size < d.size) :
    loadLE (vfatMakeFS d random).bytes 16392 4 = eoc ∧
      loadLE (vfatMakeFS d random).bytes (16392 + fatBytes d.size) 4 = eoc := by
  obtain ⟨hbytes, hpos, hword⟩ := fatBytes_spec d.size
  have hstart : (512 * reservedSectors + fatBytes d.size) % 2 ^ 32 = 16384 + fatBytes d.size := by
    unfold reservedSectors
    omega
  have hvalue : leNat (leBytes 4 eoc) = eoc := by decide
  constructor
  · have hsplit : makeFSWrites d.size random =
        (sectorWrites d.size random ++ (tableWrites (512 * reservedSectors)).take 2) ++
          (16392, leBytes 4 eoc) ::
            (tableWrites ((512 * reservedSectors + fatBytes d.size) % 2 ^ 32) ++
              [(d.size - 1, [0])]) := rfl
    have hload := vfatMakeFS_load d random _ _ hsplit
    rw [length_leBytes] at hload
    rw [loadLE, hload (by omega), hvalue]
    intro w hw
    rw [hstart] at hw
    simp only [tableWrites, List.mem_cons, List.not_mem_nil, or_false] at hw
    rcases hw with rfl | rfl | rfl <;> dsimp only <;> omega
  · have hsplit : makeFSWrites d.size random =
        (sectorWrites d.size random ++ tableWrites (512 * reservedSectors) ++
          (tableWrites (16384 + fatBytes d.size)).take 2) ++
          (16392 + fatBytes d.size, leBytes 4 eoc) :: ([] ++ [(d.size - 1, [0])]) := by
      rw [makeFSWrites, hstart, List.append_assoc, List.append_assoc]
      simp only [tableWrites, List.take_succ_cons, List.take_zero, List.append_assoc,
        List.cons_append, List.nil_append]
      rw [show 16384 + fatBytes d.size + 8 = 16392 + fatBytes d.size by omega]
    have hload := vfatMakeFS_load d random _ _ hsplit
    rw [length_leBytes] at hload
    rw [loadLE, hload (by omega) (by simp), hvalue]

/-- The last byte of a formatted device is zero. -/
theorem vfatMakeFS_last (d : Device) (random : ℕ) (hpos : 0 < d.size) :
    (vfatMakeFS d random).bytes (d.size - 1) = 0 := by
  rw [vfatMakeFS, makeFSWrites, Device.writeAll_append]
  set d₁ := d.writeAll (sectorWrites d.size random ++ tableWrites (512 * reservedSectors) ++
    tableWrites ((512 * reservedSectors + fatBytes d.size) % 2 ^ 32)) with hd₁
  have hsize : d₁.size = d.size := Device.writeAll_size _ _
  change (d₁.write (d.size - 1) [0]).bytes (d.size - 1) = 0
  rw [Device.write_eq _ (by rw [hsize, List.length_singleton]; omega)]
  exact store_at d₁.bytes (d.size - 1) [0] (show 0 < [(0 : UInt8)].length by decide)


/-- A word with a zero on top has three bytes. -/
theorem leNat_load_four {m : ℕ → UInt8} {a : ℕ} (h : m (a + 3) = 0) :
    leNat (load m a 4) = leNat (load m a 3) := by
  simp [load, leNat, List.range_succ, h]

/-- On a device that ends with a zero, a word that is the end mark lies in front of the last
    byte. -/
theorem lt_size_of_eoc {m : Device} {n a : ℕ} (hn : m.size = n) (hlast : 0 < n → m.bytes (n - 1) = 0)
    (h : leNat (m.read a 4) = eoc) : a + 4 < n := by
  by_contra hge
  have hsmall : leNat (m.read a 4) < 256 ^ 3 := by
    by_cases hlen : a + 4 = n
    · have h3 := hlast (by omega)
      rw [show n - 1 = a + 3 by omega] at h3
      have hlt := leNat_lt (load m.bytes a 3)
      rw [length_load] at hlt
      rw [Device.read_eq _ (by omega), leNat_load_four h3]
      exact hlt
    · have hlt := leNat_lt (m.read a 4)
      have hlen : (m.read a 4).length ≤ 3 := by
        rw [Device.read, length_load]
        omega
      exact lt_of_lt_of_le hlt (Nat.pow_le_pow_right (by decide) hlen)
  have heoc : 256 ^ 3 ≤ eoc := by decide
  omega

/-! ### Reading the root directory -/

/-- The loop stops at the latest behind the slots that the buffer holds. -/
theorem readEntry_congr {readSlot readSlot' : ℕ → List UInt8} {limit fuel index : ℕ} {slot : Slot}
    {lfns : List Slot} (hle : lfns.length ≤ limit)
    (h : ∀ i, index ≤ i → i ≤ index + (limit - lfns.length) → readSlot i = readSlot' i) :
    readEntry readSlot limit fuel index slot lfns = readEntry readSlot' limit fuel index slot lfns := by
  induction fuel generalizing index slot lfns with
  | zero => rfl
  | succ fuel ih =>
    rw [readEntry, readEntry, h index le_rfl (by omega)]
    split_ifs with hlfn hlt
    · apply ih
      · rw [List.length_append, List.length_singleton]
        omega
      · intro i h1 h2
        rw [List.length_append, List.length_singleton] at h2
        exact h i (by omega) (by omega)
    · rfl
    · rfl

/-- A slot that is not the last one of its cluster, as far as it lies on the device. -/
theorem readLoop_slot (g : VfatFSData) (d : Device) {c off n : ℕ}
    (hfit : off % clusterSize g + n < clusterSize g)
    (hword : (g.dataOffset + clusterIndex c * clusterSize g) % 2 ^ 32 =
      g.dataOffset + clusterIndex c * clusterSize g) :
    readLoop g d n c off n =
      d.read (g.dataOffset + clusterIndex c * clusterSize g + off % clusterSize g) n := by
  cases n with
  | zero => simp [readLoop, Device.read]
  | succ n =>
    set base := g.dataOffset + clusterIndex c * clusterSize g with hbase
    have hpos : 0 < clusterSize g := by omega
    have hchunk : ∀ off n, off % clusterSize g + n < clusterSize g → chunkLength g off n = n := by
      intro off n h
      unfold chunkLength
      omega
    have hlen : ∀ a, (d.read a (n + 1)).length = min (n + 1) (d.size - a) := by
      intro a
      rw [Device.read, length_load]
    rw [readLoop, if_neg (by omega)]
    dsimp only
    rw [hchunk off (n + 1) hfit, ← hbase, hword]
    set block := d.read (base + off % clusterSize g) (n + 1) with hblock
    have hblen : block.length = min (n + 1) (d.size - (base + off % clusterSize g)) := hlen _
    by_cases hnil : block = []
    · rw [if_pos hnil, hnil]
    rw [if_neg hnil, if_neg (by omega)]
    -- what is left lies behind the end of the device
    have hmod : (off + block.length) % clusterSize g = off % clusterSize g + block.length := by
      rw [Nat.add_mod, Nat.mod_eq_of_lt (show block.length < clusterSize g by omega),
        Nat.mod_eq_of_lt (by omega)]
    have hrest : readLoop g d n c (off + block.length) (n + 1 - block.length) = [] := by
      cases n with
      | zero => rfl
      | succ n =>
        rw [readLoop]
        by_cases hdone : n + 1 + 1 - block.length = 0
        · rw [if_pos hdone]
        · rw [if_neg hdone]
          dsimp only
          rw [← hbase, hword, hmod, hchunk _ _ (by omega)]
          have hempty : d.read (base + (off % clusterSize g + block.length))
              (n + 1 + 1 - block.length) = [] := by
            rw [Device.read, show d.size - (base + (off % clusterSize g + block.length)) = 0 by omega,
              Nat.min_zero, load_zero]
          rw [if_pos hempty]
    rw [hrest, List.append_nil]

/-! ### The geometry of a formatted volume -/

theorem clusterSize_geometry (n : ℕ) : clusterSize (geometry n) = 2048 := by
  simp only [clusterSize, geometry]
  omega

theorem fatOffset_geometry (n : ℕ) : fatOffset (geometry n) = 16384 := by
  simp only [fatOffset, geometry, reservedSectors]
  omega

theorem maxCluster_geometry (n : ℕ) : maxCluster (geometry n) = fatBytes n / 4 := rfl

theorem dataOffset_geometry {n : ℕ} (hword : 16384 + 2 * fatBytes n < 2 ^ 32) :
    (geometry n).dataOffset = 16384 + 2 * fatBytes n := by
  show (2 * fatBytes n + 512 * reservedSectors) % 2 ^ 32 = _
  unfold reservedSectors
  omega

/-- The first slots of the root directory, as far as they lie on the device. -/
theorem dirSlot_root (n : ℕ) (d : Device) {i : ℕ} (hi : i ≤ 20) :
    dirSlot (geometry n) d 2 i = d.read ((geometry n).dataOffset + i * 32) 32 := by
  have hword : (geometry n).dataOffset < 2 ^ 32 := Nat.mod_lt _ (by decide)
  have hbase : (geometry n).dataOffset + clusterIndex 2 * clusterSize (geometry n) =
      (geometry n).dataOffset := by
    rw [show clusterIndex 2 = 0 by decide, Nat.zero_mul, Nat.add_zero]
  have hoff : i * 32 % clusterSize (geometry n) = i * 32 := by
    rw [clusterSize_geometry]
    omega
  have hseek : i * 32 / clusterSize (geometry n) % 2 ^ 32 = 0 := by
    rw [clusterSize_geometry]
    omega
  rw [dirSlot, readChain, hseek]
  dsimp only [seekChain]
  rw [readLoop_slot _ _ (by rw [hoff, clusterSize_geometry]; omega)
    (by rw [hbase, Nat.mod_eq_of_lt hword]), hbase, hoff]

/-! ### What the device must hold before -/

/-- The bytes of the two tables that formatting does not write. -/
def InTables (sizeOfDisk a : ℕ) : Prop :=
  (16396 ≤ a ∧ a < 16384 + fatBytes sizeOfDisk) ∨
    (16396 + fatBytes sizeOfDisk ≤ a ∧ a < 16384 + 2 * fatBytes sizeOfDisk)

/-- A device that formatting makes into an empty volume: it has room for the first entries of
    both tables, which end below 4 GiB, the other entries are zero already, and so is the
    first entry of the cluster that becomes the root directory. -/
structure CleanBefore (d : Device) : Prop where
  room : 16396 + fatBytes d.size < d.size
  word : 16384 + 2 * fatBytes d.size < 2 ^ 32
  tables : ∀ a, InTables d.size a → a + 1 < d.size → d.bytes a = 0
  root : entryAt (fun i => (lastCleared d).read (16384 + 2 * fatBytes d.size + i * 32) 32)
    (slotLimit (geometry d.size)) 0 0 = some (.error .endOfFile)

/-- Formatting keeps what a word behind the first entries holds. -/
theorem vfatMakeFS_read (d : Device) (random : ℕ) {a n : ℕ} (ha : 16396 ≤ a)
    (hcopy : a + n ≤ 16384 + fatBytes d.size ∨ 16396 + fatBytes d.size ≤ a) :
    (vfatMakeFS d random).read a n = (lastCleared d).read a n := by
  have hsize : (lastCleared d).size = d.size := rfl
  rw [Device.read, Device.read, vfatMakeFS_size, hsize]
  apply load_congr
  intro i h1 h2
  exact vfatMakeFS_bytes d random (by omega) (by omega)

theorem lastCleared_read_eq_zero_iff (d : Device) (a n : ℕ) :
    leNat ((lastCleared d).read a n) = 0 ↔
      ∀ i, a ≤ i → i < a + n → i + 1 < d.size → d.bytes i = 0 := by
  have hsize : (lastCleared d).size = d.size := rfl
  rw [leNat_eq_zero_iff, Device.read, hsize]
  constructor
  · intro h i h1 h2 h3
    have hzero := h ((lastCleared d).bytes i) (by
      rw [load, List.mem_map]
      exact ⟨i - a, List.mem_range.mpr (by omega), by rw [show a + (i - a) = i by omega]⟩)
    rwa [lastCleared_bytes d (by omega), if_neg (by omega)] at hzero
  · intro h b hb
    rw [load, List.mem_map] at hb
    obtain ⟨k, hk, rfl⟩ := hb
    rw [List.mem_range] at hk
    rw [lastCleared_bytes d (by omega)]
    split_ifs with hlast
    · rfl
    · exact h (a + k) (by omega) (by omega) (by omega)

/-- The other entries of both tables are free exactly when they were zero. -/
theorem tables_free_iff (hword : 16384 + 2 * fatBytes d.size < 2 ^ 32) :
    (∀ c, 3 ≤ c → c < maxCluster (geometry d.size) →
      tableEntry (geometry d.size) (vfatMakeFS d random) c = 0 ∧
        copyEntry (geometry d.size) (vfatMakeFS d random) c = 0) ↔
      ∀ a, InTables d.size a → a + 1 < d.size → d.bytes a = 0 := by
  obtain ⟨hbytes, -, -⟩ := fatBytes_spec d.size
  have hfat : (geometry d.size).fatSizeBytes = fatBytes d.size := rfl
  have hentries : ∀ c, 3 ≤ c → c < fatBytes d.size / 4 →
      ((tableEntry (geometry d.size) (vfatMakeFS d random) c = 0 ∧
        copyEntry (geometry d.size) (vfatMakeFS d random) c = 0) ↔
      (∀ i, 16384 + c * 4 ≤ i → i < 16384 + c * 4 + 4 → i + 1 < d.size → d.bytes i = 0) ∧
        ∀ i, 16384 + fatBytes d.size + c * 4 ≤ i → i < 16384 + fatBytes d.size + c * 4 + 4 →
          i + 1 < d.size → d.bytes i = 0) := by
    intro c h1 h2
    rw [tableEntry, copyEntry, fatOffset_geometry, hfat, Nat.mod_eq_of_lt (by omega),
      Nat.mod_eq_of_lt (by omega), vfatMakeFS_read d random (by omega) (by omega),
      vfatMakeFS_read d random (by omega) (by omega), lastCleared_read_eq_zero_iff,
      lastCleared_read_eq_zero_iff]
  rw [maxCluster_geometry]
  constructor
  · rintro h a (⟨h1, h2⟩ | ⟨h1, h2⟩) ha
    · have hc := (hentries ((a - 16384) / 4) (by omega) (by omega)).mp
        (h _ (by omega) (by omega))
      exact hc.1 a (by omega) (by omega) ha
    · have hc := (hentries ((a - 16384 - fatBytes d.size) / 4) (by omega) (by omega)).mp
        (h _ (by omega) (by omega))
      exact hc.2 a (by omega) (by omega) ha
  · intro h c h1 h2
    refine (hentries c h1 h2).mpr ⟨fun i h3 h4 h5 => ?_, fun i h3 h4 h5 => ?_⟩
    · exact h i (.inl ⟨by omega, by omega⟩) h5
    · exact h i (.inr ⟨by omega, by omega⟩) h5

/-- The first entry of a directory is found in its first 21 slots. -/
theorem entryAt_congr {readSlot readSlot' : ℕ → List UInt8} (limit flags : ℕ)
    (h : ∀ i ≤ 20, readSlot i = readSlot' i) :
    entryAt readSlot limit 0 flags = entryAt readSlot' limit 0 flags := by
  have hentry : readEntry readSlot 20 limit 0 (fun _ => 0) [] =
      readEntry readSlot' 20 limit 0 (fun _ => 0) [] := by
    apply readEntry_congr (by simp)
    intro i _ hi
    exact h i (by simpa using hi)
  rw [entryAt, entryAt, skipEntries, skipEntries]
  dsimp only
  rw [hentry]

/-- The root directory lists what the cluster held before. -/
theorem vfatReadDirectory_root (hword : 16384 + 2 * fatBytes d.size < 2 ^ 32) :
    vfatReadDirectory (geometry d.size) (vfatMakeFS d random) 2 0 0 =
      entryAt (fun i => (lastCleared d).read (16384 + 2 * fatBytes d.size + i * 32) 32)
        (slotLimit (geometry d.size)) 0 0 := by
  obtain ⟨hbytes, hpos, -⟩ := fatBytes_spec d.size
  apply entryAt_congr
  intro i hi
  rw [dirSlot_root _ _ hi, dataOffset_geometry hword,
    vfatMakeFS_read d random (by omega) (by omega)]

/-- The first bytes of a formatted device are those of the boot sector. -/
theorem vfatMakeFS_head (hsize : 16396 < d.size) {n : ℕ} (hn : n ≤ 512) :
    (vfatMakeFS d random).read 0 n =
      (ebpb (totalSectors d.size) (fatSectors d.size) (random % 2 ^ 32)).take n := by
  rw [Device.read_eq _ (by rw [vfatMakeFS_size]; omega), ← vfatMakeFS_boot d random hsize]
  apply List.ext_getElem
  · rw [length_load, List.length_take, length_load]
    omega
  · intro k h1 h2
    rw [List.getElem_take, getElem_load, getElem_load]

/-- A root directory in the boot sector has an entry. -/
theorem entryAt_boot {readSlot : ℕ → List UInt8} (total fatSz volumeId fuel : ℕ)
    (h : readSlot 0 = (ebpb total fatSz volumeId).take 32) :
    entryAt readSlot (fuel + 1) 0 0 ≠ some (.error .endOfFile) := by
  have hattr : sfnAttributes (store (fun _ => (0 : UInt8)) 0
      ((ebpb total fatSz volumeId).take 32)) ≠ lfnAttributes := by
    change (0 : ℕ) ≠ lfnAttributes
    decide
  have hname : store (fun _ => (0 : UInt8)) 0 ((ebpb total fatSz volumeId).take 32) 0 ≠ 0 := by
    change (0xeb : UInt8) ≠ 0
    decide
  rw [entryAt, skipEntries]
  dsimp only
  rw [readEntry, h, if_neg hattr]
  dsimp only
  rw [if_neg hname, if_pos (show NameFits [] by decide)]
  intro hcon
  cases hcon

/-- Where the tables do not end below 4 GiB, the second one or the root directory is found
    in the boot sector. -/
theorem not_formatted_of_wrap (hsize : 16396 < d.size)
    (hwrap : 2 ^ 32 ≤ 16384 + 2 * fatBytes d.size) : ¬ Formatted d.size (vfatMakeFS d random) := by
  intro h
  obtain ⟨hbytes, hpos, hword⟩ := fatBytes_spec d.size
  by_cases heq : 16384 + 2 * fatBytes d.size = 2 ^ 32
  · have hoff : (geometry d.size).dataOffset = 0 := by
      show (2 * fatBytes d.size + 512 * reservedSectors) % 2 ^ 32 = 0
      unfold reservedSectors
      omega
    have hslot : dirSlot (geometry d.size) (vfatMakeFS d random) 2 0 =
        (ebpb (totalSectors d.size) (fatSectors d.size) (random % 2 ^ 32)).take 32 := by
      rw [dirSlot_root _ _ (by omega), hoff, vfatMakeFS_head hsize (by omega)]
    exact entryAt_boot _ _ _ _ hslot h.root
  · have hcopy := (h.free ((2 ^ 32 - 16384 - fatBytes d.size) / 4) (by omega)
      (by rw [maxCluster_geometry]; omega)).2
    have haddr : (fatOffset (geometry d.size) + (geometry d.size).fatSizeBytes +
        (2 ^ 32 - 16384 - fatBytes d.size) / 4 * 4) % 2 ^ 32 = 0 := by
      rw [fatOffset_geometry]
      change (16384 + fatBytes d.size + _) % 2 ^ 32 = 0
      omega
    rw [copyEntry, haddr, vfatMakeFS_head hsize (by omega), leNat_eq_zero_iff] at hcopy
    exact absurd (hcopy 0xeb List.mem_cons_self) (by decide)

/-- **Formatting** makes an empty volume exactly of a device that has room for it and whose
    tables and root directory were empty already. -/
theorem formatted_iff (d : Device) (random : ℕ) :
    Formatted d.size (vfatMakeFS d random) ↔ CleanBefore d := by
  obtain ⟨hbytes, hpos, hfat⟩ := fatBytes_spec d.size
  have haddr : (fatOffset (geometry d.size) + (geometry d.size).fatSizeBytes + 2 * 4) % 2 ^ 32 =
      16392 + fatBytes d.size := by
    rw [fatOffset_geometry]
    change (16384 + fatBytes d.size + 2 * 4) % 2 ^ 32 = _
    omega
  constructor
  · intro h
    have hroom : 16396 + fatBytes d.size < d.size := by
      have hcopy := h.used.2
      rw [copyEntry, haddr] at hcopy
      have hlt := lt_size_of_eoc (vfatMakeFS_size d random) (vfatMakeFS_last d random) hcopy
      omega
    have hword : 16384 + 2 * fatBytes d.size < 2 ^ 32 := by
      by_contra hwrap
      exact not_formatted_of_wrap (by omega) (by omega) h
    exact ⟨hroom, hword, (tables_free_iff hword).mp h.free, (vfatReadDirectory_root hword).symm.trans h.root⟩
  · intro h
    have hroom := h.room
    obtain ⟨h1, h2⟩ := vfatMakeFS_rootEntry d random h.room
    refine ⟨?_, (vfatReadDirectory_root h.word).trans h.root, (tables_free_iff h.word).mpr h.tables, ?_, ?_⟩
    · have hread : (vfatMakeFS d random).read 0 512 =
          ebpb (totalSectors d.size) (fatSectors d.size) (random % 2 ^ 32) := by
        rw [Device.read_eq _ (by rw [vfatMakeFS_size]; omega), vfatMakeFS_boot d random (by omega)]
      rw [vfatMount, hread, if_neg fun hnil => ?_, bootGeometry_ebpb]
      have hlen := congrArg List.length hnil
      rw [length_ebpb] at hlen
      cases hlen
    · rw [tableEntry, fatOffset_geometry, Nat.mod_eq_of_lt (by omega),
        Device.read_eq _ (by rw [vfatMakeFS_size]; omega)]
      exact h1
    · rw [copyEntry, haddr, Device.read_eq _ (by rw [vfatMakeFS_size]; omega)]
      exact h2

/-- A megabyte whose entry of cluster 3 is left over from before: the cluster stays
    allocated, unlike on a device of zeros. -/
theorem stale_entry_survives :
    tableEntry (geometry 1048576) (vfatMakeFS ⟨1048576, fun _ => 0⟩ 0) 3 = 0 ∧
      tableEntry (geometry 1048576)
        (vfatMakeFS ⟨1048576, fun a => if a = 16396 then 1 else 0⟩ 0) 3 = 1 ∧
      ¬ Formatted 1048576 (vfatMakeFS ⟨1048576, fun a => if a = 16396 then 1 else 0⟩ 0) := by
  have hstale : tableEntry (geometry 1048576)
      (vfatMakeFS ⟨1048576, fun a => if a = 16396 then 1 else 0⟩ 0) 3 = 1 := by
    decide +kernel
  refine ⟨by decide +kernel, hstale, fun h => ?_⟩
  have hfree := (h.free 3 le_rfl (by decide +kernel)).1
  rw [hstale] at hfree
  cases hfree

end XTOS.Vfat

import XTOS.Lib.Memory
import XTOS.Result

/-!
# Partition tables

`xtSetPartitions` of `xtkernel/gpt.c`: the protective MBR, the GPT header and the array of entries
that it writes for an array of partition devices.

## Main definitions

- `GptPartition`, `GptHeader` — the two packed structures and their bytes
- `calculateCrc32` — the checksum of a range of bytes
- `xtSetPartitions` — the writes to the block device
- `Consistent` — what a partition table promises

## Main results

- `headerSum_verifies`, `tableSum_verifies` — the stored checksums are those of the bytes written
- `not_setsPartitions` — no partition table that is written is consistent

## Design notes

The records of the partition devices lie apart from the buffer of the entries. A record whose GUID
is zero gets a new one from the stream of random values. `buffer` is where the heap puts the 128
entries, and the memory behind them is not theirs.
-/

namespace XTOS.Gpt

open SysLib

/-! ### Checksums -/

/-- A pass of the inner loop of `create_crc32_table`. -/
def crcShift (c : UInt32) : UInt32 := if c &&& 1 ≠ 0 then c >>> 1 ^^^ 0xedb88320 else c >>> 1

/-- `crc_table`. -/
def crcTable (n : UInt32) : UInt32 := crcShift^[8] n

/-- `calculate_crc32`. -/
def calculateCrc32 (buf : List UInt8) : UInt32 :=
  buf.foldl (fun c b => crcTable ((c ^^^ b.toUInt32) &&& 0xff) ^^^ (c >>> 8)) 0xffffffff ^^^
    0xffffffff

-- the check value of this checksum, that of the digits 1 to 9
example : calculateCrc32 [0x31, 0x32, 0x33, 0x34, 0x35, 0x36, 0x37, 0x38, 0x39] = 0xcbf43926 := by
  decide +kernel

/-! ### Structures on disk -/

/-- `EFI_GUID`, as its bytes. -/
abbrev Guid := Vector UInt8 16

/-- `nullGUID`. -/
def nullGuid : Guid := Vector.replicate 16 0

/-- `new_guid`: of the sixteen bytes, eight are random. -/
def newGuid (random : UInt64) : Guid :=
  let r (i : ℕ) : UInt8 := UInt8.ofNat (random.toNat / 256 ^ i)
  #v[r 0, r 1, r 2, r 3, r 4, r 5, r 6, (r 7 &&& 0x7f ||| 0x40) &&& 0xcf,
    (r 7 ||| 0xc0) &&& 0xdf, 0, 0, 0, 0, 0, 0, 0]

/-- `GPT_Partition`. -/
structure GptPartition where
  partitionType : Guid
  uniqueGuid : Guid
  firstLba : UInt64
  lastLba : UInt64
  attributes : UInt64
  name : Vector UInt16 36

/-- The bytes of an entry. -/
def GptPartition.bytes (p : GptPartition) : List UInt8 :=
  p.partitionType.toList ++ p.uniqueGuid.toList ++ leBytes 8 p.firstLba.toNat ++
    leBytes 8 p.lastLba.toNat ++ leBytes 8 p.attributes.toNat ++
    p.name.toList.flatMap fun u => leBytes 2 u.toNat

/-- `GPT_Header`. -/
structure GptHeader where
  signature : List UInt8 := [0x45, 0x46, 0x49, 0x20, 0x50, 0x41, 0x52, 0x54]
  revision : UInt32 := 0x00010000
  headerSize : UInt32 := 92
  crc32Checksum : UInt32 := 0
  reserved : UInt32 := 0
  currentLba : UInt64 := 0x1
  backupLba : UInt64
  firstLba : UInt64 := 0x22
  lastLba : UInt64
  diskGuid : Guid
  startPartitions : UInt64 := 0x2
  countOfPartitions : UInt32 := 128
  sizeofPartition : UInt32 := 128
  crc32PartCheckSum : UInt32 := 0

/-- The bytes of a header. -/
def GptHeader.bytes (h : GptHeader) : List UInt8 :=
  h.signature ++ leBytes 4 h.revision.toNat ++ leBytes 4 h.headerSize.toNat ++
    leBytes 4 h.crc32Checksum.toNat ++ leBytes 4 h.reserved.toNat ++
    leBytes 8 h.currentLba.toNat ++ leBytes 8 h.backupLba.toNat ++ leBytes 8 h.firstLba.toNat ++
    leBytes 8 h.lastLba.toNat ++ h.diskGuid.toList ++ leBytes 8 h.startPartitions.toNat ++
    leBytes 4 h.countOfPartitions.toNat ++ leBytes 4 h.sizeofPartition.toNat ++
    leBytes 4 h.crc32PartCheckSum.toNat

/-- The code of the protective MBR. -/
def mbrCode : List UInt8 :=
  [0xbb, 0x12, 0x7c, 0xb4, 0x0e, 0x8a, 0x07, 0xcd, 0x10, 0x3c, 0x00, 0x74, 0x03, 0x43, 0xeb, 0xf3,
    0xeb, 0xfe, 0x54, 0x68, 0x69, 0x73, 0x20, 0x64, 0x69, 0x73, 0x6b, 0x20, 0x64, 0x6f, 0x65, 0x73,
    0x6e, 0x27, 0x74, 0x20, 0x6c, 0x6f, 0x61, 0x64, 0x20, 0x66, 0x72, 0x6f, 0x6d, 0x20, 0x4d, 0x42,
    0x52, 0x00, 0x00]

/-- `MBR`, with its one partition. The initializer of `chs_end` is the address of an array, of
    which the low byte is kept. -/
def mbr (chsEnd : UInt8) : List UInt8 :=
  mbrCode ++ List.replicate (446 - mbrCode.length) 0 ++
    [0x00, 0x00, 0x02, 0x00, 0xee, chsEnd, 0, 0] ++ leBytes 4 0x1 ++ leBytes 4 0xffffffff ++
    List.replicate 48 0 ++ leBytes 2 0xaa55

/-! ### Writing a partition table -/

/-- `xtGetMaxSizeOfPartitions`. -/
def xtGetMaxSizeOfPartitions (parts : List GptPartition) : UInt64 :=
  parts.foldl (fun maxSize p => if maxSize < p.lastLba then p.lastLba else maxSize) 0

/-- The records with their new GUIDs; `k` random values are used up. -/
def fillGuids (random : ℕ → UInt64) : ℕ → List GptPartition → List GptPartition
  | _, [] => []
  | k, p :: parts =>
    if p.uniqueGuid = nullGuid then
      { p with uniqueGuid := newGuid (random k) } :: fillGuids random (k + 1) parts
    else p :: fillGuids random k parts

/-- The entries that the loop copies, each with its address. -/
def entryStores (buffer : ℕ) (parts : List GptPartition) : List (ℕ × List UInt8) :=
  parts.mapIdx fun i p => (buffer + i * 128, p.bytes)

/-- What `xtSetPartitions` leaves: the records, the copies of them and the memory behind them, the
    writes to the block device with the header and the entries in them, and its result. -/
structure Outcome where
  parts : List GptPartition
  stores : List (ℕ × List UInt8)
  memory : ℕ → UInt8
  header : GptHeader
  table : List UInt8
  writes : List (ℕ × List UInt8)
  result : XTResult

/-- `xtSetPartitions`. -/
def xtSetPartitions (random : ℕ → UInt64) (memory : ℕ → UInt8) (buffer : ℕ) (chsEnd : UInt8)
    (parts : List GptPartition) : Outcome :=
  let maxSize := xtGetMaxSizeOfPartitions parts
  let header : GptHeader :=
    { lastLba := maxSize - 0x1, backupLba := maxSize - 0x2, diskGuid := newGuid (random 0) }
  let parts := fillGuids random 1 parts
  let stores := entryStores buffer parts
  let memory := stores.foldl (fun m s => store m s.1 s.2)
    (store memory buffer (List.replicate (128 * 128) 0))
  let table := load memory buffer (128 * 128)
  let header := { header with crc32PartCheckSum := calculateCrc32 table }
  let header := { header with crc32Checksum := calculateCrc32 header.bytes }
  { parts := parts
    stores := stores
    memory := memory
    header := header
    table := table
    writes := [(0, mbr chsEnd), (512, header.bytes), (2 * 512, table)]
    result := .success }

/-! ### What a partition table promises -/

/-- A block that a partition does not hold. -/
def GptPartition.Outside (p : GptPartition) (lba : UInt64) : Prop :=
  lba < p.firstLba ∨ p.lastLba < lba

/-- Two partitions share no block. -/
def GptPartition.Apart (p q : GptPartition) : Prop :=
  p.lastLba < q.firstLba ∨ q.lastLba < p.firstLba

/-- The blocks of the two headers and of the 32 blocks of entries. -/
def GptHeader.ownBlocks (h : GptHeader) : List UInt64 :=
  h.backupLba :: h.currentLba ::
    (List.range 32).map fun i => h.startPartitions + UInt64.ofNat i

/-- A consistent partition table. -/
structure Consistent (parts : List GptPartition) (h : GptHeader) (table : List UInt8) : Prop where
  inside : ∀ p ∈ parts, h.firstLba ≤ p.firstLba ∧ p.lastLba ≤ h.lastLba
  own : ∀ lba ∈ h.ownBlocks, (lba < h.firstLba ∨ h.lastLba < lba) ∧ ∀ p ∈ parts, p.Outside lba
  headerSum : calculateCrc32 { h with crc32Checksum := 0 }.bytes = h.crc32Checksum
  tableSum : calculateCrc32 table = h.crc32PartCheckSum

/-- What `xtSetPartitions` should do: a consistent table for at most 128 disjoint partitions, and
    an error and no copy behind the buffer for more. -/
structure SetsPartitions (buffer : ℕ) (parts : List GptPartition) (out : Outcome) : Prop where
  consistent : parts.length ≤ 128 → parts.Pairwise GptPartition.Apart →
    Consistent parts out.header out.table
  refused : 128 < parts.length → out.result ≠ .success ∧
    ∀ s ∈ out.stores, buffer ≤ s.1 ∧ s.1 + s.2.length ≤ buffer + 128 * 128

variable {random : ℕ → UInt64} {memory : ℕ → UInt8} {buffer : ℕ} {chsEnd : UInt8}
variable {parts : List GptPartition}

/-! ### The largest partition -/

theorem maxSize_mem (parts : List GptPartition) :
    xtGetMaxSizeOfPartitions parts = 0 ∨
      ∃ p ∈ parts, p.lastLba = xtGetMaxSizeOfPartitions parts := by
  rw [xtGetMaxSizeOfPartitions]
  induction parts using List.reverseRecOn with
  | nil => exact .inl rfl
  | append_singleton parts p ih =>
    rw [List.foldl_append, List.foldl_cons, List.foldl_nil]
    split_ifs with hlt
    · exact .inr ⟨p, by simp, rfl⟩
    · refine ih.imp id fun ⟨q, hq, heq⟩ => ⟨q, ?_, heq⟩
      exact List.mem_append_left _ hq

theorem length_fillGuids (random : ℕ → UInt64) (k : ℕ) (parts : List GptPartition) :
    (fillGuids random k parts).length = parts.length := by
  induction parts generalizing k with
  | nil => rfl
  | cons p parts ih =>
    rw [fillGuids]
    split_ifs
    · rw [List.length_cons, ih, List.length_cons]
    · rw [List.length_cons, ih, List.length_cons]

@[simp] theorem GptPartition.length_bytes (p : GptPartition) : p.bytes.length = 128 := by
  simp [GptPartition.bytes, List.length_flatMap]

/-! ### What is written -/

/-- The checksum of the header is that of its bytes with a zero in its place. -/
theorem headerSum_verifies (random : ℕ → UInt64) (memory : ℕ → UInt8) (buffer : ℕ) (chsEnd : UInt8)
    (parts : List GptPartition) :
    let header := (xtSetPartitions random memory buffer chsEnd parts).header
    calculateCrc32 { header with crc32Checksum := 0 }.bytes = header.crc32Checksum := rfl

theorem tableSum_verifies (random : ℕ → UInt64) (memory : ℕ → UInt8) (buffer : ℕ) (chsEnd : UInt8)
    (parts : List GptPartition) :
    let out := xtSetPartitions random memory buffer chsEnd parts
    calculateCrc32 out.table = out.header.crc32PartCheckSum := by
  dsimp only [xtSetPartitions]

/-- The copy of record 128 begins behind the buffer. -/
theorem entryStores_behind (hlen : 128 < parts.length) (buffer : ℕ) :
    ∃ s ∈ entryStores buffer parts, buffer + 128 * 128 < s.1 + s.2.length := by
  refine ⟨(buffer + 128 * 128, parts[128].bytes), ?_, ?_⟩
  · rw [entryStores, List.mem_mapIdx]
    exact ⟨128, hlen, rfl⟩
  · rw [GptPartition.length_bytes]
    omega

/-- **No array of partitions** gets a consistent partition table. The largest partition ends one
    block behind the last usable one, and without partitions the backup header lies among the
    usable blocks. More than 128 partitions are not refused, and their records are copied behind
    the buffer. -/
theorem not_setsPartitions (random : ℕ → UInt64) (memory : ℕ → UInt8) (buffer : ℕ) (chsEnd : UInt8)
    (hapart : parts.length ≤ 128 → parts.Pairwise GptPartition.Apart) :
    ¬ SetsPartitions buffer parts (xtSetPartitions random memory buffer chsEnd parts) := by
  rintro ⟨hconsistent, hrefused⟩
  by_cases hlen : parts.length ≤ 128
  · obtain ⟨hinside, hown, -, -⟩ := hconsistent hlen (hapart hlen)
    by_cases hzero : xtGetMaxSizeOfPartitions parts = 0
    · -- both adjustments wrap around
      have hbackup := (hown _ List.mem_cons_self).1
      change xtGetMaxSizeOfPartitions parts - 0x2 < 0x22 ∨
        xtGetMaxSizeOfPartitions parts - 0x1 < xtGetMaxSizeOfPartitions parts - 0x2 at hbackup
      rw [hzero] at hbackup
      revert hbackup
      decide
    · obtain ⟨p, hp, hlast⟩ := (maxSize_mem parts).resolve_left hzero
      have hend := (hinside p hp).2
      change p.lastLba ≤ xtGetMaxSizeOfPartitions parts - 0x1 at hend
      rw [hlast, UInt64.le_iff_toNat_le, UInt64.toNat_sub] at hend
      rw [← UInt64.toNat_inj] at hzero
      have hlt := (xtGetMaxSizeOfPartitions parts).toNat_lt
      change _ ≤ (2 ^ 64 - 1 + _) % 2 ^ 64 at hend
      change _ ≠ 0 at hzero
      omega
  · have hmore := Nat.not_le.mp hlen
    rw [← length_fillGuids random 1 parts] at hmore
    obtain ⟨s, hs, hbehind⟩ := entryStores_behind hmore buffer
    have hin := ((hrefused (Nat.not_le.mp hlen)).2 s hs).2
    exact absurd hin (Nat.not_le.mpr hbehind)

/-- A volume of 4 MiB. -/
def smallPartition : GptPartition :=
  ⟨Vector.replicate 16 1, Vector.replicate 16 1, 34, 8225, 0, Vector.replicate 36 0x41⟩

theorem not_setsPartitions_one : ¬ SetsPartitions 0 [smallPartition]
    (xtSetPartitions (fun _ => 0) (fun _ => 0) 0 0 [smallPartition]) :=
  not_setsPartitions _ _ _ _ fun _ => List.pairwise_singleton _ _

/-- The backup header would lie in the partition. -/
theorem backup_inside_partition : [smallPartition].Pairwise GptPartition.Apart ∧
    ¬ Consistent [smallPartition]
      (xtSetPartitions (fun _ => 0) (fun _ => 0) 0 0 [smallPartition]).header
      (xtSetPartitions (fun _ => 0) (fun _ => 0) 0 0 [smallPartition]).table := by
  refine ⟨List.pairwise_singleton _ _, fun h => ?_⟩
  have hbackup := (h.own _ List.mem_cons_self).2 smallPartition List.mem_cons_self
  change (8225 : UInt64) - 0x2 < 34 ∨ (8225 : UInt64) < 8225 - 0x2 at hbackup
  revert hbackup
  decide

end XTOS.Gpt

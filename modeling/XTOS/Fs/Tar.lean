import Mathlib.Data.List.GetD
import XTOS.Encodings
import XTOS.Lib.Memory
import XTOS.Result
import XTOS.Strings

/-!
# The archive in the initial RAM disk

`tarOpenFile` and `tarReadFile` of `xtkernel/ramdisk.c`, over `initrdReadFile`: the search for a
header by its name and the bytes that a file gives back.

## Main definitions

- `Initrd`, `initrdReadFile` — the device that the archive lies in
- `tarOpenFile`, `tarReadFile`
- `Member`, `Initrd.Holds` — an archive in the device
- `Serves` — what opening and reading by a name should give
- `NumericField` — eleven octal digits and their terminator

## Main results

- `tarOpenLoop_found`, `tarOpenLoop_missing` — where the search ends
- `serves_iff` — exactly when the right file is opened and the right bytes are read
- `oct2bin_numeric`, `numeric_not_stored` — what is stored for a numeric field is not its number

## Design notes

The device is memory from its first byte on, so that it is far smaller than the offsets of 64
bits; only a caller's offset wraps around. What lies behind it is memory too. The heap has room
for the two records of an open file.
-/

namespace XTOS.Tar

open SysLib

/-! ### The device -/

/-- `XTInitrdData`: the memory from `ptr` on and the size of the device. -/
structure Initrd where
  memory : ℕ → UInt8
  size : ℕ
  size_le : size ≤ 2 ^ 63

/-- `initrdReadFile`: only the start of the range is checked. -/
def initrdReadFile (r : Initrd) (offset size : ℕ) : XTResult × List UInt8 :=
  if r.size ≤ offset then (.endOfFile, []) else (.success, load r.memory offset size)

/-! ### Open files -/

/-- `oct2bin`. -/
def oct2bin (str : List UInt8) : ℕ :=
  str.foldl (fun n c => (n * 8 + (c.toNat + (2 ^ 64 - 0x30))) % 2 ^ 64) 0

/-- `XT_FILE_ATTRIBUTE_DIRECTORY`. -/
def directoryFlag : ℕ := 0x08

/-- `TarFileData`; the attributes of a file that is no directory are not set. -/
structure TarFileData where
  fileSize : ℕ
  name : List UInt8
  ptrToData : ℕ
  mktime : ℕ
  access : ℕ
  attr : Option ℕ

/-- `filename`, the first 100 bytes of a header. -/
def filename (header : List UInt8) : List UInt8 := cString (header.take 100)

/-- The record of the file whose header lies at `seek`. -/
def tarFileData (header : List UInt8) (flags seek : ℕ) : TarFileData :=
  { fileSize := oct2bin ((header.drop 124).take 12)
    name := cString header
    ptrToData := seek + 512
    mktime := oct2bin ((header.drop 136).take 12)
    access := flags
    attr := if oct2bin ((header.drop 156).take 1) = 5 then some directoryFlag else none }

/-- The loop of `tarOpenFile`, from block `seek` on. -/
def tarOpenLoop (r : Initrd) (name : List UInt8) (flags : ℕ) :
    ℕ → ℕ → Option (Except XTResult TarFileData)
  | 0, _ => none
  | fuel + 1, seek =>
    let header := initrdReadFile r seek 512
    if header.1 = .endOfFile then some (.error .notFound)
    else if xtStringCmp (filename header.2) name 100 then
      some (.ok (tarFileData header.2 flags seek))
    else tarOpenLoop r name flags fuel (seek + 512)

/-- `tarOpenFile`; the blocks of the device and one more bound the loop. -/
def tarOpenFile (r : Initrd) (name : List UInt8) (flags : ℕ) :
    Option (Except XTResult TarFileData) :=
  tarOpenLoop r name flags (r.size / 512 + 2) 0

/-- `tarReadFile`: the size of the file is not looked at. -/
def tarReadFile (r : Initrd) (file : TarFileData) (offset count : ℕ) : XTResult × List UInt8 :=
  initrdReadFile r ((file.ptrToData + offset) % 2 ^ 64) count

/-! ### Archives -/

/-- Octal digits of a number. -/
def OctalDigits (digits : List UInt8) (n : ℕ) : Prop :=
  (∀ c ∈ digits, 0x30 ≤ c ∧ c ≤ 0x37) ∧ digits.foldl (fun n c => n * 8 + (c.toNat - 0x30)) 0 = n

/-- A file of an archive: a header with the size in it, the data and what fills its last block. -/
structure Member where
  header : List UInt8
  data : List UInt8
  pad : List UInt8
  length_header : header.length = 512
  sized : OctalDigits ((header.drop 124).take 11) data.length
  padded : (data.length + pad.length) % 512 = 0

/-- The name in the header. -/
def Member.name (m : Member) : List UInt8 := filename m.header

/-- The blocks of a file. -/
def Member.bytes (m : Member) : List UInt8 := m.header ++ (m.data ++ m.pad)

/-- The device holds an archive, with some blocks of zeros at its end. -/
def Initrd.Holds (r : Initrd) (archive : List Member) (trailer : ℕ) : Prop :=
  load r.memory 0 r.size = archive.flatMap Member.bytes ++ List.replicate (512 * trailer) 0

/-- The first file of a name, with the offset of its header; the archive lies at `start`. -/
def firstNamed : List Member → List UInt8 → ℕ → Option (ℕ × Member)
  | [], _, _ => none
  | m :: archive, name, start =>
    if m.name = name then some (start, m)
    else firstNamed archive name (start + m.bytes.length)

/-- What opening and reading by a name should give: `XT_NOT_FOUND` if no header has the name, and
    otherwise the bytes of the first file of that name, cut at its size. -/
def Serves (r : Initrd) (archive : List Member) (name : List UInt8) (flags offset count : ℕ) :
    Prop :=
  match firstNamed archive name 0 with
  | none => tarOpenFile r name flags = some (.error .notFound)
  | some (start, m) => ∃ file, tarOpenFile r name flags = some (.ok file) ∧
      file.ptrToData = start + 512 ∧
      (tarReadFile r file offset count).2 = (m.data.drop offset).take count

/-- The block at an offset begins with the name, as far as the comparison looks. -/
def Named (r : Initrd) (name : List UInt8) (seek : ℕ) : Prop :=
  xtStringCmp (filename (load r.memory seek 512)) name 100 = true

/-- Where the search for a name should end: at the header of the first file of that name, or
    behind the archive. -/
def scanEnd (r : Initrd) (archive : List Member) (name : List UInt8) : ℕ :=
  match firstNamed archive name 0 with
  | none => r.size
  | some (start, _) => start

variable {r : Initrd} {archive : List Member} {name : List UInt8}
variable {flags offset count seek fuel trailer k start : ℕ} {m : Member}

/-! ### The search -/

theorem tarOpenLoop_end (hend : r.size ≤ seek) :
    tarOpenLoop r name flags (fuel + 1) seek = some (.error .notFound) := by
  have hread : initrdReadFile r seek 512 = (.endOfFile, []) := if_pos hend
  rw [tarOpenLoop, hread]
  exact if_pos rfl

theorem tarOpenLoop_named (hin : seek < r.size) (hnamed : Named r name seek) :
    tarOpenLoop r name flags (fuel + 1) seek =
      some (.ok (tarFileData (load r.memory seek 512) flags seek)) := by
  have hread : initrdReadFile r seek 512 = (.success, load r.memory seek 512) :=
    if_neg (Nat.not_le.mpr hin)
  rw [tarOpenLoop, hread]
  simp only [reduceCtorEq, if_false]
  exact if_pos hnamed

theorem tarOpenLoop_next (hin : seek < r.size) (hnot : ¬ Named r name seek) :
    tarOpenLoop r name flags (fuel + 1) seek = tarOpenLoop r name flags fuel (seek + 512) := by
  have hread : initrdReadFile r seek 512 = (.success, load r.memory seek 512) :=
    if_neg (Nat.not_le.mpr hin)
  rw [tarOpenLoop, hread]
  simp only [reduceCtorEq, if_false]
  exact if_neg hnot

/-- The search opens the first block that begins with the name, whatever it is. -/
theorem tarOpenLoop_found (hk : k < fuel) (hin : seek + 512 * k < r.size)
    (hbefore : ∀ i < k, ¬ Named r name (seek + 512 * i)) (hnamed : Named r name (seek + 512 * k)) :
    tarOpenLoop r name flags fuel seek =
      some (.ok (tarFileData (load r.memory (seek + 512 * k) 512) flags (seek + 512 * k))) := by
  induction k generalizing seek fuel with
  | zero =>
    obtain ⟨fuel, rfl⟩ := Nat.exists_eq_add_one.mpr hk
    exact tarOpenLoop_named hin hnamed
  | succ k ih =>
    obtain ⟨fuel, rfl⟩ := Nat.exists_eq_add_one.mpr (Nat.zero_lt_of_lt hk)
    have hfirst := hbefore 0 (Nat.succ_pos k)
    rw [Nat.mul_zero, Nat.add_zero] at hfirst
    have hnext : seek + 512 * (k + 1) = seek + 512 + 512 * k := by omega
    rw [hnext] at hin hnamed ⊢
    rw [tarOpenLoop_next (by omega) hfirst]
    refine ih (by omega) hin (fun i hi => ?_) hnamed
    have hnamed' := hbefore (i + 1) (Nat.succ_lt_succ hi)
    rw [show seek + 512 * (i + 1) = seek + 512 + 512 * i by ring] at hnamed'
    exact hnamed'

/-- The search ends without a file if no block begins with the name. -/
theorem tarOpenLoop_missing (hfuel : r.size ≤ seek + 512 * fuel)
    (h : ∀ i, seek + 512 * i < r.size → ¬ Named r name (seek + 512 * i)) :
    tarOpenLoop r name flags (fuel + 1) seek = some (.error .notFound) := by
  induction fuel generalizing seek with
  | zero => exact tarOpenLoop_end hfuel
  | succ fuel ih =>
    by_cases hend : r.size ≤ seek
    · exact tarOpenLoop_end hend
    have hfirst := h 0 (Nat.not_le.mp hend)
    rw [Nat.mul_zero, Nat.add_zero] at hfirst
    rw [tarOpenLoop_next (Nat.not_le.mp hend) hfirst]
    refine ih (by omega) fun i hi => ?_
    have hnamed := h (i + 1) (by omega)
    rw [show seek + 512 * (i + 1) = seek + 512 + 512 * i by ring] at hnamed
    exact hnamed

/-! ### The place of a file in the device -/

theorem Member.length_bytes (m : Member) : m.bytes.length % 512 = 0 ∧ 512 ≤ m.bytes.length := by
  have hheader := m.length_header
  have hpadded := m.padded
  rw [Member.bytes, List.length_append, List.length_append]
  omega

theorem length_archive (archive : List Member) :
    (archive.flatMap Member.bytes).length % 512 = 0 := by
  induction archive with
  | nil => rfl
  | cons m archive ih =>
    have hm := m.length_bytes.1
    rw [List.flatMap_cons, List.length_append]
    omega

theorem firstNamed_spec (h : firstNamed archive name start = some (k, m)) :
    ∃ pre post, archive = pre ++ m :: post ∧ k = start + (pre.flatMap Member.bytes).length ∧
      m.name = name := by
  induction archive generalizing start with
  | nil => cases h
  | cons m' archive ih =>
    rw [firstNamed] at h
    split_ifs at h with hname
    · cases h
      exact ⟨[], archive, rfl, rfl, hname⟩
    · obtain ⟨pre, post, rfl, rfl, hm⟩ := ih h
      refine ⟨m' :: pre, post, rfl, ?_, hm⟩
      rw [List.flatMap_cons, List.length_append, Nat.add_assoc]

/-- A part of what a device holds. -/
theorem load_part {α : Type*} {f : ℕ → α} {n : ℕ} {xs ys zs : List α}
    (h : load f 0 n = xs ++ (ys ++ zs)) : load f xs.length ys.length = ys := by
  have hn := congrArg List.length h
  rw [length_load, List.length_append, List.length_append] at hn
  rw [hn, load_add, load_add] at h
  have hrest := (List.append_inj h (length_load _ _ _)).2
  rw [Nat.zero_add] at hrest
  exact (List.append_inj hrest (length_load _ _ _)).1

/-- Where a file of the archive lies. -/
theorem Initrd.Holds.placed (h : r.Holds archive trailer)
    (hfirst : firstNamed archive name 0 = some (start, m)) :
    start % 512 = 0 ∧ start + 512 + m.data.length ≤ r.size ∧ start + 512 ≤ r.size ∧
      load r.memory start 512 = m.header ∧
      load r.memory (start + 512) m.data.length = m.data ∧ m.name = name := by
  obtain ⟨pre, post, rfl, rfl, hname⟩ := firstNamed_spec hfirst
  rw [Nat.zero_add]
  have hlen := m.length_header
  set rest := m.pad ++ post.flatMap Member.bytes ++ List.replicate (512 * trailer) 0
  have hbytes : load r.memory 0 r.size =
      pre.flatMap Member.bytes ++ (m.header ++ (m.data ++ rest)) := by
    rw [h, List.flatMap_append, List.flatMap_cons, Member.bytes]
    simp only [rest, List.append_assoc]
  have hsize := congrArg List.length hbytes
  rw [length_load, List.length_append, List.length_append, List.length_append] at hsize
  have hheader := load_part hbytes
  have hdata := load_part (hbytes.trans (List.append_assoc _ _ _).symm)
  rw [List.length_append, hlen] at hdata
  rw [hlen] at hheader
  exact ⟨length_archive pre, by omega, by omega, hheader, hdata, hname⟩

/-- The header of the first file of a name begins with it. -/
theorem Initrd.Holds.named (h : r.Holds archive trailer)
    (hfirst : firstNamed archive name 0 = some (start, m)) : Named r name start := by
  obtain ⟨-, -, -, hheader, -, hname⟩ := h.placed hfirst
  rw [Named, hheader, xtStringCmp_iff]
  exact congrArg _ hname

/-- The search opens the first block of the device that begins with the name. -/
theorem tarOpenFile_found (hin : 512 * k < r.size) (hbefore : ∀ i < k, ¬ Named r name (512 * i))
    (hnamed : Named r name (512 * k)) :
    tarOpenFile r name flags =
      some (.ok (tarFileData (load r.memory (512 * k) 512) flags (512 * k))) := by
  have hopen := @tarOpenLoop_found r name flags 0 (r.size / 512 + 2) k (by omega)
  simp only [Nat.zero_add] at hopen
  exact hopen hin hbefore hnamed

/-- What the search opens where it does not stop too early. -/
theorem Initrd.Holds.open_of_free (h : r.Holds archive trailer) (flags : ℕ)
    (hfree : ∀ i, 512 * i < scanEnd r archive name → ¬ Named r name (512 * i)) :
    tarOpenFile r name flags =
      match firstNamed archive name 0 with
      | none => some (.error .notFound)
      | some (start, m) => some (.ok (tarFileData m.header flags start)) := by
  cases hfirst : firstNamed archive name 0 with
  | none =>
    rw [scanEnd, hfirst] at hfree
    refine tarOpenLoop_missing (by omega) fun i hi => ?_
    rw [Nat.zero_add] at hi ⊢
    exact hfree i hi
  | some found =>
    obtain ⟨start, m⟩ := found
    obtain ⟨hmod, -, hin, hheader, -, -⟩ := h.placed hfirst
    have hnamed := h.named hfirst
    obtain ⟨k, rfl⟩ := Nat.dvd_of_mod_eq_zero hmod
    have hstart : scanEnd r archive name = 512 * k := by rw [scanEnd, hfirst]
    rw [hstart] at hfree
    rw [tarOpenFile_found (by omega) (fun i hi => hfree i (by omega)) hnamed, hheader]

/-- What the search opens where it stops too early. -/
theorem Initrd.Holds.open_of_named (h : r.Holds archive trailer) (flags : ℕ) {i : ℕ}
    (hi : 512 * i < scanEnd r archive name) (hnamed : Named r name (512 * i)) :
    ∃ k file, 512 * k < scanEnd r archive name ∧ tarOpenFile r name flags = some (.ok file) ∧
      file.ptrToData = 512 * k + 512 := by
  have hend : scanEnd r archive name ≤ r.size := by
    rw [scanEnd]
    cases hfirst : firstNamed archive name 0 with
    | none => exact le_rfl
    | some found => exact (Nat.le_add_right _ _).trans (h.placed hfirst).2.2.1
  classical
  have hex : ∃ i, Named r name (512 * i) := ⟨i, hnamed⟩
  have hle := Nat.find_min' hex hnamed
  exact ⟨Nat.find hex, _, by omega, tarOpenFile_found (by omega) (fun _ hj => Nat.find_min hex hj)
    (Nat.find_spec hex), rfl⟩

/-! ### Reading -/

/-- A read gives back what it should, exactly if nothing is asked for, or if the range ends in the
    file, or if it begins behind the device. -/
theorem Initrd.Holds.read_iff (h : r.Holds archive trailer)
    (hfirst : firstNamed archive name 0 = some (start, m)) {file : TarFileData}
    (hfile : file.ptrToData = start + 512) :
    (tarReadFile r file offset count).2 = (m.data.drop offset).take count ↔
      count = 0 ∨ offset + count ≤ m.data.length ∨
        r.size ≤ (start + 512 + offset) % 2 ^ 64 := by
  obtain ⟨-, hend, hin, -, hdata, -⟩ := h.placed hfirst
  have hsize := r.size_le
  rw [tarReadFile, hfile, initrdReadFile]
  by_cases hbehind : r.size ≤ (start + 512 + offset) % 2 ^ 64
  · have hpast : m.data.length ≤ offset := by
      by_contra hlt
      rw [Nat.mod_eq_of_lt (by omega)] at hbehind
      omega
    rw [if_pos hbehind, List.drop_eq_nil_of_le hpast, List.take_nil]
    exact iff_of_true rfl (.inr (.inr hbehind))
  · rw [if_neg hbehind]
    constructor
    · intro hread
      have hlen := congrArg List.length hread
      rw [length_load, List.length_take, List.length_drop] at hlen
      omega
    · rintro (rfl | hfit | hover)
      · rfl
      · rcases Nat.eq_zero_or_pos count with rfl | hpos
        · rfl
        have hsplit : m.data.length = offset + (count + (m.data.length - offset - count)) := by
          omega
        rw [hsplit, load_add, load_add] at hdata
        rw [Nat.mod_eq_of_lt (by omega), ← hdata, List.drop_left' (length_load _ _ _),
          List.take_left' (length_load _ _ _)]
      · exact absurd hover hbehind

/-! ### Opening and reading -/

/-- **Opening and reading by a name** gives what it should, exactly if in front of the header of
    the first file of that name no block begins with the name, and the read asks for nothing, ends
    in the file or begins behind the device. Data and padding are blocks too, and so is a header
    whose name only begins like the one looked for. -/
theorem serves_iff (h : r.Holds archive trailer) (name : List UInt8) (flags offset count : ℕ) :
    Serves r archive name flags offset count ↔
      (∀ i, 512 * i < scanEnd r archive name → ¬ Named r name (512 * i)) ∧
      ∀ start m, firstNamed archive name 0 = some (start, m) →
        count = 0 ∨ offset + count ≤ m.data.length ∨
          r.size ≤ (start + 512 + offset) % 2 ^ 64 := by
  rw [Serves]
  constructor
  · intro hserves
    have hfree : ∀ i, 512 * i < scanEnd r archive name → ¬ Named r name (512 * i) := by
      intro i hi hnamed
      obtain ⟨k, file, hk, hopen, hfile⟩ := h.open_of_named flags hi hnamed
      rw [scanEnd] at hk
      cases hfirst : firstNamed archive name 0 with
      | none =>
        rw [hfirst] at hserves
        cases hopen.symm.trans hserves
      | some found =>
        obtain ⟨start, m⟩ := found
        rw [hfirst] at hserves hk
        obtain ⟨file', hopen', hfile', -⟩ := hserves
        cases hopen.symm.trans hopen'
        exact absurd (hfile.symm.trans hfile') (by dsimp only at hk; omega)
    refine ⟨hfree, fun start m hfirst => ?_⟩
    rw [hfirst] at hserves
    obtain ⟨file, -, hfile, hread⟩ := hserves
    exact (h.read_iff hfirst hfile).mp hread
  · rintro ⟨hfree, hrange⟩
    have hopen := h.open_of_free flags hfree
    cases hfirst : firstNamed archive name 0 with
    | none =>
      rw [hfirst] at hopen
      exact hopen
    | some found =>
      obtain ⟨start, m⟩ := found
      rw [hfirst] at hopen
      exact ⟨_, hopen, rfl, (h.read_iff hfirst rfl).mpr (hrange start m hfirst)⟩

/-- A file with one byte of data. -/
def smallMember : Member where
  header := [0x61] ++ List.replicate 123 0 ++ List.replicate 10 0x30 ++ [0x31] ++
    List.replicate 377 0
  data := [0x58]
  pad := List.replicate 511 0
  length_header := by decide +kernel
  sized := ⟨by decide +kernel, by decide +kernel⟩
  padded := by decide +kernel

/-- A device with one file. -/
def smallInitrd : Initrd where
  memory i := smallMember.bytes.getD i 0
  size := 1024
  size_le := by decide

/-- A memory that holds a list of bytes. -/
theorem load_getD (xs : List UInt8) : load (fun i => xs.getD i 0) 0 xs.length = xs := by
  refine List.ext_getElem (length_load _ _ _) fun i h₁ h₂ => ?_
  rw [getElem_load, Nat.zero_add, List.getD_eq_getElem _ _ h₂]

theorem smallInitrd_holds : smallInitrd.Holds [smallMember] 0 := by
  have hlen : smallMember.bytes.length = 1024 := by decide +kernel
  have hload := load_getD smallMember.bytes
  rw [hlen] at hload
  rw [Initrd.Holds, List.flatMap_singleton, Nat.mul_zero, List.replicate_zero, List.append_nil]
  exact hload

/-- A file `b` with two bytes of data. -/
def secondMember : Member where
  header := [0x62] ++ List.replicate 123 0 ++ List.replicate 10 0x30 ++ [0x32] ++
    List.replicate 377 0
  data := [0x59, 0x5a]
  pad := List.replicate 510 0
  length_header := by decide +kernel
  sized := ⟨by decide +kernel, by decide +kernel⟩
  padded := by decide +kernel

/-- A device with two files. -/
def twoMembers : Initrd where
  memory i := (smallMember.bytes ++ secondMember.bytes).getD i 0
  size := 2048
  size_le := by decide

theorem twoMembers_holds : twoMembers.Holds [smallMember, secondMember] 0 := by
  have hlen : (smallMember.bytes ++ secondMember.bytes).length = 2048 := by decide +kernel
  have hload := load_getD (smallMember.bytes ++ secondMember.bytes)
  rw [hlen] at hload
  rw [Initrd.Holds, List.flatMap_cons, List.flatMap_singleton, Nat.mul_zero, List.replicate_zero,
    List.append_nil]
  exact hload

/-- The second byte of the second file. -/
theorem serves_second : Serves twoMembers [smallMember, secondMember] [0x62] 1 1 1 := by
  have hother : smallMember.name ≠ [0x62] := by decide +kernel
  have hname : secondMember.name = [0x62] := by decide +kernel
  have hlen : smallMember.bytes.length = 1024 := by decide +kernel
  have hfirst : firstNamed [smallMember, secondMember] [0x62] 0 = some (1024, secondMember) := by
    rw [firstNamed, if_neg hother, firstNamed, if_pos hname, hlen]
  refine (serves_iff twoMembers_holds [0x62] 1 1 1).mpr ⟨fun i hi => ?_, fun start m hm => ?_⟩
  · rw [scanEnd, hfirst] at hi
    change 512 * i < 1024 at hi
    rw [Named]
    obtain rfl | rfl : i = 0 ∨ i = 1 := by omega
    · decide +kernel
    · decide +kernel
  · rw [hfirst] at hm
    obtain ⟨rfl, rfl⟩ := Prod.mk.inj (Option.some.inj hm)
    exact .inr (.inl (by decide))

/-- Two bytes are read from a file with one. -/
theorem padding_read : ¬ Serves smallInitrd [smallMember] [0x61] 1 0 2 := by
  intro h
  have hname : smallMember.name = [0x61] := by decide +kernel
  have hfirst : firstNamed [smallMember] [0x61] 0 = some (0, smallMember) := if_pos hname
  rw [Serves, hfirst] at h
  obtain ⟨file, -, hfile, hread⟩ := h
  have hrange := (smallInitrd_holds.read_iff hfirst hfile).mp hread
  revert hrange
  decide

/-! ### Numeric fields -/

/-- The field `size` of a header. -/
def sizeField (header : List UInt8) : List UInt8 := (header.drop 124).take 12

/-- The field `mtime` of a header. -/
def mtimeField (header : List UInt8) : List UInt8 := (header.drop 136).take 12

@[simp] theorem tarFileData_fileSize (header : List UInt8) (flags seek : ℕ) :
    (tarFileData header flags seek).fileSize = oct2bin (sizeField header) := by
  rw [tarFileData, sizeField]

@[simp] theorem tarFileData_mktime (header : List UInt8) (flags seek : ℕ) :
    (tarFileData header flags seek).mktime = oct2bin (mtimeField header) := by
  rw [tarFileData, mtimeField]

/-- A field of 12 bytes with a number in it: eleven octal digits and a NUL or a space. -/
def NumericField (field : List UInt8) (n : ℕ) : Prop :=
  ∃ digits t, field = digits ++ [t] ∧ digits.length = 11 ∧ OctalDigits digits n ∧
    (t = 0x00 ∨ t = 0x20)

theorem OctalDigits.append {digits : List UInt8} {c : UInt8} {n : ℕ}
    (h : OctalDigits (digits ++ [c]) n) :
    ∃ high, OctalDigits digits high ∧ 0x30 ≤ c ∧ c ≤ 0x37 ∧ n = high * 8 + (c.toNat - 0x30) := by
  obtain ⟨hdigits, rfl⟩ := h
  obtain ⟨hlow, hhigh⟩ := hdigits c (by simp)
  refine ⟨_, ⟨fun c hc => hdigits c (List.mem_append_left _ hc), rfl⟩, hlow, hhigh, ?_⟩
  rw [List.foldl_append, List.foldl_cons, List.foldl_nil]

theorem OctalDigits.lt {digits : List UInt8} {n : ℕ} (h : OctalDigits digits n) :
    n < 8 ^ digits.length := by
  induction digits using List.reverseRecOn generalizing n with
  | nil =>
    obtain ⟨-, rfl⟩ := h
    exact Nat.one_pos
  | append_singleton digits c ih =>
    obtain ⟨high, hhigh, -, hc, rfl⟩ := h.append
    have hlt := ih hhigh
    rw [UInt8.le_iff_toNat_le] at hc
    change c.toNat ≤ 55 at hc
    rw [List.length_append, List.length_singleton, pow_succ]
    omega

theorem oct2bin_append (str : List UInt8) (c : UInt8) :
    oct2bin (str ++ [c]) = (oct2bin str * 8 + (c.toNat + (2 ^ 64 - 0x30))) % 2 ^ 64 := by
  rw [oct2bin, List.foldl_append, List.foldl_cons, List.foldl_nil, oct2bin]

/-- Digits alone give their number. -/
theorem oct2bin_digits {digits : List UInt8} {n : ℕ} (h : OctalDigits digits n)
    (hlen : digits.length ≤ 11) : oct2bin digits = n := by
  induction digits using List.reverseRecOn generalizing n with
  | nil =>
    have hzero := h.2
    rw [List.foldl_nil] at hzero
    rw [oct2bin, List.foldl_nil, hzero]
  | append_singleton digits c ih =>
    obtain ⟨high, hhigh, hlow, -, rfl⟩ := h.append
    rw [List.length_append, List.length_singleton] at hlen
    have hlt : high < 8 ^ 11 := hhigh.lt.trans_le (Nat.pow_le_pow_right (by decide) (by omega))
    have hc := c.toNat_lt
    rw [UInt8.le_iff_toNat_le] at hlow
    change 48 ≤ c.toNat at hlow
    rw [oct2bin_append, ih hhigh (by omega)]
    omega

/-- The terminator is taken for one digit more, of the value -48 or -16. -/
theorem oct2bin_numeric {field : List UInt8} {n : ℕ} (h : NumericField field n) :
    n < 8 ^ 11 ∧ (oct2bin field = (n * 8 + (2 ^ 64 - 48)) % 2 ^ 64 ∨
      oct2bin field = (n * 8 + (2 ^ 64 - 16)) % 2 ^ 64) := by
  obtain ⟨digits, t, rfl, hlen, hdigits, ht⟩ := h
  have hlt := hdigits.lt
  rw [hlen] at hlt
  rw [oct2bin_append, oct2bin_digits hdigits hlen.le]
  refine ⟨hlt, ?_⟩
  obtain rfl | rfl := ht
  · have hnul : (0x00 : UInt8).toNat = 0 := rfl
    omega
  · have hspace : (0x20 : UInt8).toNat = 32 := rfl
    omega

/-- A number that a smaller one is taken from behind its last digit is not what it was, where seven
    does not divide the smaller one. -/
theorem mul_sub_ne {n k : ℕ} (hn : n < 8 ^ 11) (hk : k < 8 ^ 11) (hmod : k % 7 ≠ 0) :
    (n * 8 + (2 ^ 64 - k)) % 2 ^ 64 ≠ n := by
  intro h
  by_cases hle : k ≤ n * 8
  · rw [show n * 8 + (2 ^ 64 - k) = n * 8 - k + 2 ^ 64 by omega, Nat.add_mod_right,
      Nat.mod_eq_of_lt (by omega)] at h
    omega
  · rw [Nat.mod_eq_of_lt (by omega)] at h
    omega

theorem oct2bin_ne {field : List UInt8} {n : ℕ} (h : NumericField field n) : oct2bin field ≠ n := by
  obtain ⟨hlt, hbin | hbin⟩ := oct2bin_numeric h
  · rw [hbin]
    exact mul_sub_ne hlt (by decide) (by decide)
  · rw [hbin]
    exact mul_sub_ne hlt (by decide) (by decide)

/-- The record of an open file is made from the header in front of its data. -/
theorem tarOpenLoop_ok {file : TarFileData}
    (h : tarOpenLoop r name flags fuel seek = some (.ok file)) :
    file = tarFileData (load r.memory (file.ptrToData - 512) 512) flags (file.ptrToData - 512) := by
  induction fuel generalizing seek with
  | zero => cases h
  | succ fuel ih =>
    by_cases hend : r.size ≤ seek
    · rw [tarOpenLoop_end hend] at h
      cases h
    by_cases hnamed : Named r name seek
    · rw [tarOpenLoop_named (Nat.not_le.mp hend) hnamed] at h
      obtain rfl := Except.ok.inj (Option.some.inj h)
      have hseek : (tarFileData (load r.memory seek 512) flags seek).ptrToData - 512 = seek :=
        Nat.add_sub_cancel seek 512
      rw [hseek]
    · rw [tarOpenLoop_next (Nat.not_le.mp hend) hnamed] at h
      exact ih h

/-- **No number** of a numeric field is stored. Whatever file is opened, its size and its time are
    not what the digits in its header denote, since `oct2bin` goes over the terminator too. -/
theorem numeric_not_stored {file : TarFileData} (h : tarOpenFile r name flags = some (.ok file))
    (n : ℕ) :
    let header := load r.memory (file.ptrToData - 512) 512
    (NumericField (sizeField header) n → file.fileSize ≠ n) ∧
      (NumericField (mtimeField header) n → file.mktime ≠ n) := by
  intro header
  have hfile := tarOpenLoop_ok h
  refine ⟨fun hsize => ?_, fun hmtime => ?_⟩
  · rw [hfile, tarFileData_fileSize]
    exact oct2bin_ne hsize
  · rw [hfile, tarFileData_mktime]
    exact oct2bin_ne hmtime

/-- The header of `smallInitrd`. -/
theorem smallInitrd_header : load smallInitrd.memory 0 512 = smallMember.header := by
  have hname : smallMember.name = [0x61] := by decide +kernel
  exact (smallInitrd_holds.placed (if_pos hname)).2.2.2.1

theorem smallInitrd_opened : tarOpenFile smallInitrd [0x61] 1 =
    some (.ok (tarFileData smallMember.header 1 0)) := by
  have hnamed : Named smallInitrd [0x61] (512 * 0) := by
    rw [Named, Nat.mul_zero, smallInitrd_header]
    decide +kernel
  rw [tarOpenFile_found (by decide) (fun i hi => absurd hi (Nat.not_lt_zero i)) hnamed,
    Nat.mul_zero, smallInitrd_header]

theorem smallMember_size : NumericField (sizeField smallMember.header) 1 :=
  ⟨List.replicate 10 0x30 ++ [0x31], 0x00, by decide +kernel, rfl,
    ⟨by decide +kernel, by decide +kernel⟩, .inl rfl⟩

theorem numeric_not_stored_small : (tarFileData smallMember.header 1 0).fileSize ≠ 1 := by
  have hstored := (numeric_not_stored smallInitrd_opened 1).1
  change NumericField (sizeField (load smallInitrd.memory 0 512)) 1 → _ at hstored
  rw [smallInitrd_header] at hstored
  exact hstored smallMember_size

/-- A file of one byte gets a size of almost 2^64. -/
theorem one_byte_size : ∃ file, tarOpenFile smallInitrd [0x61] 1 = some (.ok file) ∧
    NumericField (sizeField (load smallInitrd.memory (file.ptrToData - 512) 512)) 1 ∧
    file.fileSize = 2 ^ 64 - 40 := by
  refine ⟨_, smallInitrd_opened, ?_, by decide +kernel⟩
  change NumericField (sizeField (load smallInitrd.memory 0 512)) 1
  rw [smallInitrd_header]
  exact smallMember_size

end XTOS.Tar

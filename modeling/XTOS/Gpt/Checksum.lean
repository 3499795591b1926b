import XTOS.Gpt
import XTOS.Lib.Run
import XTOS.Lib.ShiftRegister

/-!
# The checksum of a partition table

`create_crc32_table` and `calculate_crc32` of `xtkernel/gpt.c`, with the table that the first call
fills and the later ones find.

## Main definitions

- `CrcTable` — the table and whether it was filled
- `createCrc32Table`, `CrcTable.calculateCrc32`
- `serialCrc32` — the checksum by a shift register that takes one bit at a time

## Main results

- `CrcTable.calculateCrc32_eq` — every call finds the same table
- `CrcTable.calculateCrc32_serial` — a table and bytes give what the bits give

## Design notes

`calculateCrc32` of a list of bytes stands for a call with a filled table. The buffer lies apart
from the table.
-/

namespace XTOS.Gpt

open SysLib
open ShiftRegister (clock run bits tableStep foldl_tableStep)

/-- `crc_table` and `made_crc_table`. -/
structure CrcTable where
  table : Vector UInt32 256
  made : Bool

/-- `create_crc32_table`. -/
def createCrc32Table (table : Vector UInt32 256) : Vector UInt32 256 :=
  (List.finRange 256).foldl (fun table (n : Fin 256) => table.set n (crcShift^[8] (UInt32.ofNat n)))
    table

theorem crcIndex_lt (c : UInt32) : (c &&& 0xff).toNat < 256 := by
  rw [UInt32.toNat_and]
  exact Nat.lt_of_le_of_lt Nat.and_le_right (by decide)

/-- The loop of `calculate_crc32`, from byte `n` on. -/
def crcLoop (table : Vector UInt32 256) (memory : ℕ → UInt8) (bufp : ℕ) (len n : Int32)
    (c : UInt32) : UInt32 :=
  if n < len then
    crcLoop table memory bufp len (n + 1)
      (table.get ⟨((c ^^^ (memory (bufp + n.toNatClampNeg)).toUInt32) &&& 0xff).toNat,
        crcIndex_lt _⟩ ^^^ (c >>> 8))
  else c
termination_by (len.toInt - n.toInt).toNat
decreasing_by
  rename_i hlt
  rw [Int32.lt_iff_toInt_lt] at hlt
  have hlen := len.toInt_lt
  have hn := n.le_toInt
  have hnext : (n + 1).toInt = n.toInt + 1 := by
    rw [Int32.toInt_add, Int32.toInt_one, Int.bmod_eq_of_le (by omega) (by omega)]
  omega

/-- `calculate_crc32`. -/
def CrcTable.calculateCrc32 (s : CrcTable) (memory : ℕ → UInt8) (buf : ℕ) (len : Int32) :
    UInt32 × CrcTable :=
  let s := if s.made then s else ⟨createCrc32Table s.table, true⟩
  (crcLoop s.table memory buf len 0 0xffffffff ^^^ 0xffffffff, s)

/-- The kernel starts without a table. -/
def CrcTable.Initial (s : CrcTable) : Prop := s.made = false

/-- A call for some buffer. -/
def CrcTable.Step (s s' : CrcTable) : Prop :=
  ∃ memory buf len, s' = (s.calculateCrc32 memory buf len).2

/-- The reflected CRC-32: the bits of the bytes, the lowest of each byte first, shifted through a
    register of ones. -/
def serialCrc32 (bytes : List UInt8) : UInt32 :=
  ⟨~~~ run 0xedb88320#32 0xffffffff#32 (bytes.flatMap fun b => bits b.toBitVec)⟩

variable {s : CrcTable}

/-! ### The table -/

/-- A word of the table that the loop came to. -/
theorem set_words (table : Vector UInt32 256) {ns : List (Fin 256)} {i : Fin 256} (h : i ∈ ns) :
    (ns.foldl (fun table (n : Fin 256) => table.set n (crcShift^[8] (UInt32.ofNat n))) table).get i =
      crcTable (UInt32.ofNat i) := by
  induction ns using List.reverseRecOn with
  | nil => cases h
  | append_singleton ns n ih =>
    rw [List.foldl_append, List.foldl_cons, List.foldl_nil]
    by_cases hi : i = n
    · subst hi
      exact Vector.getElem_set_self i.isLt
    · have hne : (n : ℕ) ≠ i := fun heq => hi (Fin.ext heq.symm)
      refine (Vector.getElem_set_ne n.isLt i.isLt hne).trans (ih ?_)
      exact (List.mem_append.mp h).resolve_right (by simpa using hi)

/-- Every word of the table is filled. -/
theorem createCrc32Table_get (table : Vector UInt32 256) (i : Fin 256) :
    (createCrc32Table table).get i = crcTable (UInt32.ofNat i) :=
  set_words table (List.mem_finRange i)

/-- A table that is used is filled. -/
def CrcTable.Filled (s : CrcTable) : Prop :=
  s.made = true → ∀ i, s.table.get i = crcTable (UInt32.ofNat i)

/-- The table that a call goes on with. -/
theorem CrcTable.Filled.calculate (h : s.Filled) (memory : ℕ → UInt8) (buf : ℕ) (len : Int32) :
    (s.calculateCrc32 memory buf len).2.made = true ∧
      (s.calculateCrc32 memory buf len).2.Filled := by
  rw [CrcTable.calculateCrc32]
  dsimp only
  split_ifs with hmade
  · exact ⟨hmade, h⟩
  · refine ⟨rfl, fun _ i => ?_⟩
    dsimp only
    exact createCrc32Table_get s.table i

theorem reachable_filled (h : Reachable CrcTable.Initial CrcTable.Step s) : s.Filled := by
  refine h.invariant (fun s h0 hmade => ?_) fun s s' ih hstep => ?_
  · rw [CrcTable.Initial.eq_1] at h0
    rw [h0] at hmade
    cases hmade
  · obtain ⟨memory, buf, len, rfl⟩ := hstep
    exact (ih.calculate memory buf len).2

/-! ### The loop -/

/-- The loop takes the bytes of the buffer up to the length. -/
theorem crcLoop_eq {table : Vector UInt32 256}
    (htable : ∀ i, table.get i = crcTable (UInt32.ofNat i))
    (memory : ℕ → UInt8) (bufp : ℕ) {k n len : ℕ} (hlen : n + k = len) (hlt : len < 2 ^ 31)
    (c : UInt32) :
    crcLoop table memory bufp (Int32.ofNat len) (Int32.ofNat n) c =
      (load memory (bufp + n) k).foldl
        (fun c b => crcTable ((c ^^^ b.toUInt32) &&& 0xff) ^^^ (c >>> 8)) c := by
  induction k generalizing n c with
  | zero =>
    have hend : ¬ Int32.ofNat n < Int32.ofNat len := by
      rw [← hlen]
      exact Int32.lt_irrefl
    rw [crcLoop, if_neg hend]
    rfl
  | succ k ih =>
    have hnext : Int32.ofNat n < Int32.ofNat len := by
      rw [Int32.lt_iff_toInt_lt, Int32.toInt_ofNat_of_lt (by omega),
        Int32.toInt_ofNat_of_lt (by omega)]
      omega
    have hone : Int32.ofNat n + 1 = Int32.ofNat (n + 1) := (Int32.ofNat_add n 1).symm
    have hbytes : load memory (bufp + n) (k + 1) =
        memory (bufp + n) :: load memory (bufp + (n + 1)) k := by
      rw [Nat.add_comm k, load_add, Nat.add_assoc]
      rfl
    rw [crcLoop, if_pos hnext, htable, UInt32.ofNat_toNat, hone, ih (by omega),
      Int32.toNatClampNeg_ofNat_of_lt (by omega), hbytes, List.foldl_cons]

/-- Every call gives the checksum of the bytes in its buffer, whether it fills the table or not. -/
theorem CrcTable.calculateCrc32_eq (h : s.Filled) (memory : ℕ → UInt8) (buf : ℕ) {len : ℕ}
    (hlen : len < 2 ^ 31) :
    (s.calculateCrc32 memory buf (Int32.ofNat len)).1 =
      Gpt.calculateCrc32 (load memory buf len) := by
  obtain ⟨hmade, hfilled⟩ := h.calculate memory buf (Int32.ofNat len)
  have hloop := crcLoop_eq (hfilled hmade) memory buf (Nat.zero_add len) hlen 0xffffffff
  rw [Gpt.calculateCrc32, ← Nat.add_zero buf, ← hloop]
  rfl

/-! ### Bytes and bits -/

theorem crcShift_toBitVec (c : UInt32) :
    (crcShift c).toBitVec = clock 0xedb88320#32 c.toBitVec := by
  have hlow : c &&& 1 ≠ 0 ↔ c.toBitVec.getLsbD 0 = true := by
    rw [Ne, ← UInt32.toBitVec_inj, UInt32.toBitVec_and]
    change c.toBitVec &&& 1#32 ≠ 0#32 ↔ _
    rw [BitVec.and_one_eq_setWidth_ofBool_getLsbD]
    cases c.toBitVec.getLsbD 0
    · decide
    · decide
  rw [crcShift, clock]
  split_ifs with h hbit hbit
  · rfl
  · exact absurd (hlow.mp h) hbit
  · exact absurd (hlow.mpr hbit) h
  · rfl

theorem crcTable_toBitVec (n : UInt32) :
    (crcTable n).toBitVec = (clock 0xedb88320#32)^[8] n.toBitVec :=
  Function.Semiconj.iterate_right (f := UInt32.toBitVec) crcShift_toBitVec 8 n

/-- The words of the table by the byte that leaves the register. -/
def crcWord (x : BitVec 8) : BitVec 32 := (clock 0xedb88320#32)^[8] (x.setWidth 32)

/-- A pass of the loop is the input of one byte. -/
theorem crcByte_toBitVec (c : UInt32) (b : UInt8) :
    (crcTable ((c ^^^ b.toUInt32) &&& 0xff) ^^^ (c >>> 8)).toBitVec =
      tableStep crcWord c.toBitVec b.toBitVec := by
  have hmask (x : BitVec 32) : x &&& 0xff#32 = (x.setWidth 8).setWidth 32 := by
    apply BitVec.eq_of_getLsbD_eq
    intro i hi
    rw [BitVec.getLsbD_and, BitVec.getLsbD_setWidth, BitVec.getLsbD_setWidth, BitVec.getLsbD_ofNat,
      show (0xff : ℕ) = 2 ^ 8 - 1 from rfl, Nat.testBit_two_pow_sub_one]
    simp [hi, Bool.and_comm]
  have hsum : ((c ^^^ b.toUInt32) &&& 0xff).toBitVec =
      ((c.toBitVec ^^^ b.toBitVec.setWidth 32).setWidth 8).setWidth 32 := hmask _
  rw [UInt32.toBitVec_xor, crcTable_toBitVec, hsum]
  rfl

theorem calculateCrc32_eq_serial (bytes : List UInt8) :
    calculateCrc32 bytes = serialCrc32 bytes := by
  have hfold (c : UInt32) : (bytes.foldl
      (fun c b => crcTable ((c ^^^ b.toUInt32) &&& 0xff) ^^^ (c >>> 8)) c).toBitVec =
        (bytes.map UInt8.toBitVec).foldl (tableStep crcWord) c.toBitVec := by
    induction bytes generalizing c with
    | nil => rfl
    | cons b bytes ih => rw [List.foldl_cons, ih, crcByte_toBitVec, List.map_cons, List.foldl_cons]
  have hwords (x : BitVec 8) : crcWord x = (clock 0xedb88320#32)^[8] (x.setWidth 32) := rfl
  have hserial := foldl_tableStep 0xedb88320#32 (by decide) hwords 0xffffffff#32
    (bytes.map UInt8.toBitVec)
  apply UInt32.toBitVec_inj.mp
  rw [calculateCrc32, UInt32.toBitVec_xor, hfold]
  change List.foldl _ 0xffffffff#32 _ ^^^ BitVec.allOnes 32 = _
  rw [hserial, List.flatMap_map, BitVec.xor_allOnes]
  rfl

/-- **The checksum** of every buffer of less than 2^31 bytes is the one of its bits, for the call
    that fills the table and for every later one. -/
theorem CrcTable.calculateCrc32_serial (h : Reachable CrcTable.Initial CrcTable.Step s)
    (memory : ℕ → UInt8) (buf : ℕ) {len : ℕ} (hlen : len < 2 ^ 31) :
    (s.calculateCrc32 memory buf (Int32.ofNat len)).1 = serialCrc32 (load memory buf len) := by
  rw [CrcTable.calculateCrc32_eq (reachable_filled h) memory buf hlen, calculateCrc32_eq_serial]

/-- The second of two calls, for the digits from 1 on. -/
theorem calculateCrc32_serial_digits :
    let s : CrcTable := ⟨Vector.replicate 256 0, false⟩
    ((s.calculateCrc32 (fun i => UInt8.ofNat (0x31 + i)) 0 0).2.calculateCrc32
      (fun i => UInt8.ofNat (0x31 + i)) 0 (Int32.ofNat 9)).1 =
      serialCrc32 (load (fun i => UInt8.ofNat (0x31 + i)) 0 9) :=
  CrcTable.calculateCrc32_serial (.next (.start (by rfl)) ⟨_, _, _, rfl⟩) _ _ (by decide)

end XTOS.Gpt

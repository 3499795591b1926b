import XTOS.Fs.Paths
import XTOS.Lib.Memory
import XTOS.Linker.Kernel
import XTOS.Result

/-!
# Copying a string

`xtCopyString` of `xtkernel/string.c` on the memory that both strings lie in, with the addresses that
it writes, and its callers that pass the size of an array.

## Main definitions

- `Copied` — the memory and the writes so far
- `xtCopyString`
- `SourceAt` — a string that can be copied
- `Copies` — what a call should do
- `Destination` — an array, of which a caller passes the rest

## Main results

- `xtCopyString_string` — the first `max` bytes are copied and terminated
- `copies_iff` — exactly when a call does what it should, and a caller writes inside its array
- `tempPath_string` — the path that an import is looked for under

## Design notes

The strings may overlap. Addresses do not wrap around.
-/

namespace XTOS.CopyString

open SysLib
open Fs (StringAt)

/-- The memory and the addresses that were written. -/
structure Copied where
  memory : ℕ → UInt8
  writes : List ℕ

/-- `*a = b`. -/
def Copied.put (w : Copied) (a : ℕ) (b : UInt8) : Copied :=
  ⟨Function.update w.memory a b, w.writes ++ [a]⟩

/-- The loop of `xtCopyString` from index `i` on, with `n` passes left, and the index behind it. -/
def copyLoop (dst src : ℕ) : ℕ → ℕ → Copied → ℕ × Copied
  | 0, i, w => (i, w)
  | n + 1, i, w =>
    if w.memory (src + i) = 0 then (i, w)
    else copyLoop dst src n (i + 1) (w.put (dst + i) (w.memory (src + i)))

/-- `xtCopyString`. -/
def xtCopyString (memory : ℕ → UInt8) (dst src max : ℕ) : XTResult × Copied :=
  if dst = 0 ∨ src = 0 then (.invalidParameter, ⟨memory, []⟩)
  else
    let (i, w) := copyLoop dst src max 0 ⟨memory, []⟩
    (.success, w.put (dst + i) 0)

/-- A string lies at an address: its bytes and the first zero behind them. -/
structure SourceAt (memory : ℕ → UInt8) (a : ℕ) (s : List UInt8) : Prop where
  ne_null : a ≠ 0
  bytes : StringAt memory a s
  nonzero : ∀ b ∈ s, b ≠ 0

/-- All writes are in an array. -/
def Copied.Inside (w : Copied) (array size : ℕ) : Prop :=
  ∀ a ∈ w.writes, array ≤ a ∧ a < array + size

/-- What `xtCopyString` should do: it writes the first `max` bytes at most, and a terminated
    beginning of the string lies there, the whole string if that is shorter than `max`. -/
structure Copies (w : Copied) (dst max : ℕ) (s : List UInt8) : Prop where
  inside : w.Inside dst max
  string : ∃ p, SourceAt w.memory dst p ∧ p <+: s ∧ (s.length < max → p = s)

/-- The string and its terminator have `max` bytes at most, and the copy does not begin behind the
    first byte of the string in it. -/
def Fits (dst src max : ℕ) (s : List UInt8) : Prop :=
  s.length < max ∧ ¬ (src < dst ∧ dst ≤ src + s.length)

/-- An array of which the first `offset` bytes are in use: none of `info->name`, to which
    `vfatCreateFile` and `xtReadDirectory` copy, and the suffix in `tempPath` behind the first copy
    of `xtLoadKernelSubmodules`. -/
structure Destination where
  array : ℕ
  size : ℕ
  offset : ℕ
  ne_null : array ≠ 0
  offset_le : offset ≤ size

/-- A call for the rest of an array. -/
def Destination.copy (d : Destination) (memory : ℕ → UInt8) (src : ℕ) : Copied :=
  (xtCopyString memory (d.array + d.offset) src (d.size - d.offset)).2

/-- The array `tempPath`, to which `xtLoadKernelSubmodules` copies a suffix. -/
def tempPathStart (tempPath : ℕ) (h : tempPath ≠ 0) : Destination :=
  ⟨tempPath, 4096, 0, h, Nat.zero_le _⟩

/-- The array `tempPath` behind a suffix. -/
def tempPathRest (tempPath : ℕ) (h : tempPath ≠ 0) {suffix : List UInt8}
    (hs : suffix ∈ Linker.Kernel.suffixes) : Destination :=
  ⟨tempPath, 4096, suffix.length, h, Linker.Kernel.length_suffix hs⟩

variable {memory : ℕ → UInt8} {dst src max i n : ℕ} {s : List UInt8} {w : Copied}

theorem SourceAt.byte (hs : SourceAt memory src s) (hi : i < s.length) :
    memory (src + i) = s[i] := by
  rw [hs.bytes i hi.le, List.getD_eq_getElem _ _ hi]

theorem SourceAt.ne_zero (hs : SourceAt memory src s) (hi : i < s.length) :
    memory (src + i) ≠ 0 := by
  rw [hs.byte hi]
  exact hs.nonzero _ (List.getElem_mem hi)

/-! ### The loop -/

@[simp] theorem Copied.put_memory (w : Copied) (a : ℕ) (b : UInt8) :
    (w.put a b).memory = Function.update w.memory a b := rfl

@[simp] theorem Copied.put_writes (w : Copied) (a : ℕ) (b : UInt8) :
    (w.put a b).writes = w.writes ++ [a] := rfl

/-- The loop writes the bytes from `dst + i` to where it ends. -/
theorem copyLoop_writes (dst src n i : ℕ) (w : Copied) :
    i ≤ (copyLoop dst src n i w).1 ∧ (copyLoop dst src n i w).1 ≤ i + n ∧
      ∀ a ∈ (copyLoop dst src n i w).2.writes,
        a ∈ w.writes ∨ dst + i ≤ a ∧ a < dst + (copyLoop dst src n i w).1 := by
  induction n generalizing i w with
  | zero => exact ⟨le_rfl, le_rfl, fun a ha => .inl ha⟩
  | succ n ih =>
    rw [copyLoop]
    split_ifs with hzero
    · exact ⟨le_rfl, Nat.le_add_right _ _, fun a ha => .inl ha⟩
    · obtain ⟨hle, hend, hwrites⟩ := ih (i + 1) (w.put (dst + i) (w.memory (src + i)))
      refine ⟨by omega, by omega, fun a ha => ?_⟩
      obtain hold | hnew := hwrites a ha
      · rw [Copied.put_writes, List.mem_append, List.mem_singleton] at hold
        obtain hold | rfl := hold
        · exact .inl hold
        · exact .inr (by omega)
      · exact .inr (by omega)

/-- A string that the copies do not reach is copied up to its end, or until the passes run out. -/
theorem copyLoop_apart (hs : SourceAt memory src s) (hapart : ¬ (src < dst ∧ dst ≤ src + s.length))
    (hmax : i + n = max) (hi : i ≤ s.length) (hw : w.memory = store memory dst (s.take i)) :
    (copyLoop dst src n i w).1 = min s.length max ∧
      (copyLoop dst src n i w).2.memory = store memory dst (s.take max) := by
  induction n generalizing i w with
  | zero =>
    obtain rfl : i = max := hmax
    exact ⟨(min_eq_right hi).symm, hw⟩
  | succ n ih =>
    have hread : w.memory (src + i) = memory (src + i) := by
      rw [hw]
      refine store_outside memory _ ?_
      rw [List.length_take]
      omega
    rw [copyLoop]
    by_cases hend : i = s.length
    · rw [hread, hend, hs.bytes.stop, if_pos rfl]
      rw [List.take_of_length_le hend.ge] at hw
      rw [List.take_of_length_le (by omega)]
      exact ⟨(min_eq_left (by omega)).symm, hw⟩
    · have hlt : i < s.length := by omega
      have hput : (w.put (dst + i) (w.memory (src + i))).memory =
          store memory dst (s.take (i + 1)) := by
        have hstore := update_store memory dst (s.take i) s[i]
        rw [List.length_take_of_le hlt.le] at hstore
        rw [Copied.put_memory, hread, hs.byte hlt, hw, hstore, List.take_add_one,
          List.getElem?_eq_getElem hlt]
        rfl
      rw [if_neg (by rw [hread]; exact hs.ne_zero hlt)]
      exact ih (by omega) hlt hput

/-- A copy that begins in the string never finds its end. -/
theorem copyLoop_overlap (hlt : src < dst)
    (hw : ∀ a, src ≤ a → a < dst + i → w.memory a ≠ 0) : (copyLoop dst src n i w).1 = i + n := by
  induction n generalizing i w with
  | zero => rfl
  | succ n ih =>
    have hbyte := hw (src + i) (by omega) (by omega)
    rw [copyLoop, if_neg hbyte, ih fun a ha hend => ?_, Nat.add_assoc, Nat.add_comm 1]
    by_cases heq : a = dst + i
    · rw [heq, Copied.put_memory, Function.update_self]
      exact hbyte
    · rw [Copied.put_memory, Function.update_of_ne heq]
      exact hw a ha (by omega)

/-! ### The whole call -/

theorem xtCopyString_of_ne (hdst : dst ≠ 0) (hs : SourceAt memory src s) :
    (xtCopyString memory dst src max).2 =
      (copyLoop dst src max 0 ⟨memory, []⟩).2.put
        (dst + (copyLoop dst src max 0 ⟨memory, []⟩).1) 0 := by
  rw [xtCopyString, if_neg (not_or.mpr ⟨hdst, hs.ne_null⟩)]

/-- The terminator is written inside the range exactly if the string fits. -/
theorem copyLoop_lt_iff (hs : SourceAt memory src s) :
    (copyLoop dst src max 0 ⟨memory, []⟩).1 < max ↔ Fits dst src max s := by
  by_cases hover : src < dst ∧ dst ≤ src + s.length
  · have hnonzero : ∀ a, src ≤ a → a < dst + 0 → memory a ≠ 0 := by
      intro a ha hend
      obtain ⟨k, rfl⟩ := Nat.exists_eq_add_of_le ha
      exact hs.ne_zero (by omega)
    rw [copyLoop_overlap hover.1 hnonzero, Nat.zero_add]
    exact iff_of_false (Nat.lt_irrefl _) fun h => h.2 hover
  · have hend := (copyLoop_apart (w := ⟨memory, []⟩) hs hover (Nat.zero_add max) (Nat.zero_le _)
      (store_nil memory dst).symm).1
    rw [hend, Fits]
    omega

/-- All writes of a call are inside a range up to its end exactly if the string fits. -/
theorem inside_iff (hdst : dst ≠ 0) (hs : SourceAt memory src s) {array size : ℕ}
    (harray : array ≤ dst) (hsize : array + size = dst + max) :
    (xtCopyString memory dst src max).2.Inside array size ↔ Fits dst src max s := by
  rw [xtCopyString_of_ne hdst hs, ← copyLoop_lt_iff hs]
  obtain ⟨-, -, hwrites⟩ := copyLoop_writes dst src max 0 ⟨memory, []⟩
  constructor
  · intro h
    have hlast := h _ (List.mem_append_right _ (List.mem_singleton.mpr rfl))
    omega
  · intro hlt a ha
    rw [Copied.put_writes, List.mem_append, List.mem_singleton] at ha
    obtain ha | rfl := ha
    · obtain hold | hnew := hwrites a ha
      · cases hold
      · omega
    · omega

/-- What a call leaves where the copy does not begin in the string. -/
theorem xtCopyString_memory (hdst : dst ≠ 0) (hs : SourceAt memory src s)
    (hapart : ¬ (src < dst ∧ dst ≤ src + s.length)) (max : ℕ) :
    (xtCopyString memory dst src max).2.memory = store memory dst (s.take max ++ [0]) := by
  obtain ⟨hend, hmemory⟩ := copyLoop_apart (w := ⟨memory, []⟩) hs hapart (Nat.zero_add max)
    (Nat.zero_le _) (store_nil memory dst).symm
  have hlen : (s.take max).length = min s.length max := by
    rw [List.length_take, min_comm]
  rw [xtCopyString_of_ne hdst hs, Copied.put_memory, hend, hmemory, ← hlen, update_store]

theorem stringAt_store (memory : ℕ → UInt8) (dst : ℕ) (s : List UInt8) :
    StringAt (store memory dst (s ++ [0])) dst s := by
  intro i hi
  rw [store_at memory dst _ (by simp; omega)]
  by_cases hlt : i < s.length
  · rw [List.getElem_append_left hlt, List.getD_eq_getElem _ _ hlt]
  · obtain rfl : i = s.length := by omega
    rw [List.getElem_concat_length rfl, List.getD_eq_default _ _ le_rfl]

/-- The first `max` bytes are copied, and terminated behind them. -/
theorem xtCopyString_string (hdst : dst ≠ 0) (hs : SourceAt memory src s)
    (hapart : ¬ (src < dst ∧ dst ≤ src + s.length)) (max : ℕ) :
    SourceAt (xtCopyString memory dst src max).2.memory dst (s.take max) := by
  rw [xtCopyString_memory hdst hs hapart]
  exact ⟨hdst, stringAt_store _ _ _, fun b hb => hs.nonzero b (List.mem_of_mem_take hb)⟩

/-- **A call** does what it should exactly if the string is shorter than `max` and the copy does not
    begin in it. A string of `max` bytes or more is terminated behind the range, and so a caller
    that passes the size of its array, or of the rest of it, writes behind it. -/
theorem copies_iff (hs : SourceAt memory src s) :
    (∀ dst max, dst ≠ 0 →
      (Copies (xtCopyString memory dst src max).2 dst max s ↔ Fits dst src max s)) ∧
    ∀ d : Destination, (d.copy memory src).Inside d.array d.size ↔
      Fits (d.array + d.offset) src (d.size - d.offset) s := by
  refine ⟨fun dst max hdst => ⟨fun h => ?_, fun h => ⟨?_, ?_⟩⟩, fun d => ?_⟩
  · exact (inside_iff hdst hs le_rfl rfl).mp h.inside
  · exact (inside_iff hdst hs le_rfl rfl).mpr h
  · exact ⟨_, xtCopyString_string hdst hs h.2 max, List.take_prefix _ _,
      fun hlt => List.take_of_length_le hlt.le⟩
  · have hne := d.ne_null
    have hle := d.offset_le
    exact inside_iff (by omega) hs (Nat.le_add_right _ _) (by omega)

/-- The string `ab` at address 1. -/
def shortString (a : ℕ) : UInt8 := [0x00, 0x61, 0x62].getD a 0

theorem shortString_source : SourceAt shortString 1 [0x61, 0x62] :=
  ⟨by decide, by unfold StringAt; decide, by simp⟩

/-- Two bytes and the zero are copied to an array of three. -/
theorem copies_shortString : Copies (xtCopyString shortString 8 1 3).2 8 3 [0x61, 0x62] :=
  ((copies_iff shortString_source).1 8 3 (by decide)).mpr ⟨by decide, by decide⟩

/-- Two bytes are copied to an array of two, and the zero behind it. -/
theorem terminator_behind : SourceAt shortString 1 [0x61, 0x62] ∧
    (xtCopyString shortString 8 1 2).2.writes = [8, 9, 10] ∧
    ¬ Copies (xtCopyString shortString 8 1 2).2 8 2 [0x61, 0x62] := by
  have hwrites : (xtCopyString shortString 8 1 2).2.writes = [8, 9, 10] := rfl
  refine ⟨shortString_source, hwrites, fun h => ?_⟩
  have hlast := h.inside 10 (by rw [hwrites]; decide)
  exact absurd hlast.2 (by decide)

/-! ### The callers -/

/-- The two copies to `tempPath` in `xtLoadKernelSubmodules`. -/
def tempPathCopies (memory : ℕ → UInt8) {tempPath : ℕ} (h : tempPath ≠ 0) {suffix : List UInt8}
    (hs : suffix ∈ Linker.Kernel.suffixes) (suffixAt dllName : ℕ) : Copied × Copied :=
  let first := (tempPathStart tempPath h).copy memory suffixAt
  (first, (tempPathRest tempPath h hs).copy first.memory dllName)

section

variable {tempPath suffixAt dllName : ℕ} {suffix : List UInt8}

/-- A string that does not begin in an array and does not reach into it. -/
def Apart (array size src : ℕ) (s : List UInt8) : Prop :=
  src + s.length < array ∨ array + size ≤ src

theorem length_suffix_lt (hs : suffix ∈ Linker.Kernel.suffixes) : suffix.length < 4096 := by
  revert suffix
  decide +kernel

/-- The suffix is shorter than the array. -/
theorem tempPath_suffix (h : tempPath ≠ 0) (hs : suffix ∈ Linker.Kernel.suffixes)
    (hsuffix : SourceAt memory suffixAt suffix) (hapart : Apart tempPath 4096 suffixAt suffix) :
    ((tempPathStart tempPath h).copy memory suffixAt).memory =
      store memory tempPath (suffix ++ [0]) := by
  have hlen := length_suffix_lt hs
  rw [Apart] at hapart
  refine (xtCopyString_memory h hsuffix (by omega) 4096).trans ?_
  rw [List.take_of_length_le hlen.le]

/-- The name of the module is copied as it was. -/
theorem tempPath_dllName (hs : suffix ∈ Linker.Kernel.suffixes) (hdll : SourceAt memory dllName s)
    (hapart : Apart tempPath 4096 dllName s) :
    SourceAt (store memory tempPath (suffix ++ [0])) dllName s := by
  have hlen := length_suffix_lt hs
  rw [Apart] at hapart
  refine ⟨hdll.ne_null, fun i hi => ?_, hdll.nonzero⟩
  rw [store_outside memory _ (by simp; omega)]
  exact hdll.bytes i hi

/-- The path in `tempPath` is one of those that are looked for, cut at the end of the array. -/
theorem tempPath_string (h : tempPath ≠ 0) (hs : suffix ∈ Linker.Kernel.suffixes)
    (hsuffix : SourceAt memory suffixAt suffix) (hdll : SourceAt memory dllName s)
    (hapart : Apart tempPath 4096 suffixAt suffix) (hapart' : Apart tempPath 4096 dllName s) :
    ∃ path ∈ Linker.Kernel.tempPaths s,
      SourceAt (tempPathCopies memory h hs suffixAt dllName).2.memory tempPath path := by
  have hlen := length_suffix_lt hs
  have hsource := tempPath_dllName hs hdll hapart'
  rw [Apart] at hapart'
  have hdst : tempPath + suffix.length ≠ 0 := by omega
  have hsecond := xtCopyString_memory hdst hsource (by omega) (4096 - suffix.length)
  refine ⟨_, List.mem_map_of_mem hs, h, ?_, fun b hb => ?_⟩
  · change StringAt ((tempPathRest tempPath h hs).copy
      ((tempPathStart tempPath h).copy memory suffixAt).memory dllName).memory _ _
    rw [tempPath_suffix h hs hsuffix hapart]
    change StringAt (xtCopyString (store memory tempPath (suffix ++ [0]))
      (tempPath + suffix.length) dllName (4096 - suffix.length)).2.memory _ _
    rw [hsecond, store_store_append memory tempPath suffix (by simp), ← List.append_assoc]
    exact stringAt_store _ _ _
  · obtain hb | hb := List.mem_append.mp hb
    · exact hsuffix.nonzero b hb
    · exact hdll.nonzero b (List.mem_of_mem_take hb)

end

end XTOS.CopyString

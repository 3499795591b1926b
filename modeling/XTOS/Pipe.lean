import XTOS.Heap.Requests
import XTOS.Lib.Ring

/-!
# Anonymous pipes

The ring buffer, the read and write loops and the close path of
`xtkernel/pipe.c`, as a transition system over any number of concurrent calls.

## Main definitions

- `XTPipeData` — the shared pipe record; the index bounds are fields
- `pipeWriteToBuffer`, `pipeReadFromBuffer` — the two split copies
- `pipeWritePass`, `pipeReadPass` — one pass of the loops of `pipeWriteFile` and
  `pipeReadFile`, everything between taking and releasing the spinlock
- `System.step` — the interleaving of calls, passes and closes
- `System.Fifo` — delivered bytes and buffered bytes make up the accepted bytes

## Design notes

A pass is atomic because the spinlock covers it. A call that waits for an event
stays in flight and may run its next pass at any time, so every wake-up order of
`xtWaitForEvents` is among the modelled runs. The buffer is a block of the kernel heap, and
memory outside the block belongs to others, who write to it at any time. The last close
frees the record; a call that is still in flight goes on with it.
-/

namespace XTOS.Pipe

open SysLib

/-- `XT_FILE_MODE_READ`. -/
def fileModeRead : ℕ := 0x01

/-- `XT_FILE_MODE_WRITE`. -/
def fileModeWrite : ℕ := 0x02

/-- `XT_FILE_MODE_NONBLOCK`. -/
def fileModeNonblock : ℕ := 0x80

/-- The pipe record. `buffer i` is the byte at `p->buffer + i`; the block of the heap there
    has `room` bytes. -/
structure XTPipeData where
  buffer : ℕ → UInt8
  room : ℕ
  size : ℕ
  head : ℕ
  tail : ℕ
  writeClosed : Bool
  readClosed : Bool
  refCount : ℤ
  size_lt : size < 2 ^ 64
  head_lt : head < size
  tail_lt : tail < size

/-- Bytes in use. The index bounds make both subtractions exact. -/
def pipeUsed (p : XTPipeData) : ℕ :=
  if p.head ≥ p.tail then p.head - p.tail else p.size - (p.tail - p.head)

def pipeFree (p : XTPipeData) : ℕ := p.size - pipeUsed p

theorem XTPipeData.size_pos (p : XTPipeData) : 0 < p.size := by
  have := p.head_lt
  omega

/-- Copy at most `count` bytes of `src` behind the head; the second copy starts at
    the beginning of the buffer. Returns the number of bytes copied. -/
def pipeWriteToBuffer (p : XTPipeData) (src : List UInt8) (count : ℕ) : XTPipeData × ℕ :=
  let freeSpace := pipeFree p
  if freeSpace = 0 then (p, 0) else
  let count := if count > freeSpace then freeSpace else count
  let firstPart := p.size - p.head
  let firstPart := if firstPart > count then count else firstPart
  let buffer := store p.buffer p.head (src.take firstPart)
  let buffer := if count > firstPart then
    store buffer 0 ((src.drop firstPart).take (count - firstPart)) else buffer
  ({ p with
      buffer := buffer
      head := (p.head + count) % 2 ^ 64 % p.size
      head_lt := Nat.mod_lt _ p.size_pos }, count)

/-- Copy at most `count` bytes out from the tail on, in the order they are put
    into the destination. -/
def pipeReadFromBuffer (p : XTPipeData) (count : ℕ) : XTPipeData × List UInt8 :=
  let used := pipeUsed p
  if used = 0 then (p, []) else
  let count := if count > used then used else count
  let firstPart := p.size - p.tail
  let firstPart := if firstPart > count then count else firstPart
  let dst := load p.buffer p.tail firstPart
  let dst := if count > firstPart then dst ++ load p.buffer 0 (count - firstPart) else dst
  ({ p with
      tail := (p.tail + count) % 2 ^ 64 % p.size
      tail_lt := Nat.mod_lt _ p.size_pos }, dst)

/-- The locals of a `pipeWriteFile` call: the bytes from `src` on that remain to be
    written, and `*written`. -/
structure WriteCall where
  flags : ℕ
  src : List UInt8
  written : ℕ

/-- The locals of a `pipeReadFile` call: `remaining`, and the bytes put into the
    caller's buffer so far (`*read` is their number). -/
structure ReadCall where
  flags : ℕ
  remaining : ℕ
  dst : List UInt8

/-- One pass of the loop of `pipeWriteFile`: the call goes on (`inl`) or returns
    (`inr`). -/
def pipeWritePass (p : XTPipeData) (c : WriteCall) : XTPipeData × (WriteCall ⊕ XTResult) :=
  if c.src.length = 0 then (p, .inr .success)
  else if p.readClosed || p.writeClosed then (p, .inr .brokenPipe)
  else
    let free := pipeFree p
    if free = 0 then
      if c.flags &&& fileModeNonblock ≠ 0 then
        (p, .inr (if c.written > 0 then .success else .wouldBlock))
      else (p, .inl c)
    else
      let toWrite := if c.src.length < free then c.src.length else free
      let (p', wrote) := pipeWriteToBuffer p c.src toWrite
      (p', .inl { c with src := c.src.drop wrote, written := c.written + wrote })

/-- One pass of the loop of `pipeReadFile`. A pass that got bytes returns them, and
    so does one that sees the write end closed and the buffer empty. -/
def pipeReadPass (p : XTPipeData) (c : ReadCall) :
    XTPipeData × (ReadCall ⊕ (XTResult × List UInt8)) :=
  if c.remaining = 0 then (p, .inr (.success, c.dst))
  else if p.readClosed then (p, .inr (.brokenPipe, c.dst))
  else
    let used := pipeUsed p
    if used = 0 then
      if p.writeClosed then (p, .inr (.success, c.dst))
      else if c.flags &&& fileModeNonblock ≠ 0 then
        (p, .inr (if c.dst.length > 0 then .success else .wouldBlock, c.dst))
      else (p, .inl c)
    else
      let toRead := if c.remaining < used then c.remaining else used
      let (p', got) := pipeReadFromBuffer p toRead
      (p', .inr (.success, c.dst ++ got))

/-- The locked part of `pipeCloseFile` on a file with the given flags. -/
def pipeCloseFile (p : XTPipeData) (flags : ℕ) : XTPipeData :=
  { p with
    writeClosed := p.writeClosed || decide (flags &&& fileModeWrite ≠ 0)
    readClosed := p.readClosed || decide (flags &&& fileModeRead ≠ 0)
    refCount := p.refCount - 1 }

/-- `bufferSize` as `xtCreatePipe` goes on with it. -/
def pipeSize (bufferSize : ℕ) : ℕ := if bufferSize = 0 then 4096 else bufferSize

/-- The record as `xtCreatePipe` fills it in, with the buffer at `ptr`. -/
def initPipeData (m : Heap.Mem) (ptr bufferSize : ℕ) (h : bufferSize < 2 ^ 64) :
    XTPipeData where
  buffer i := m (ptr + i)
  room := Heap.payload m ptr
  size := pipeSize bufferSize
  head := 0
  tail := 0
  writeClosed := false
  readClosed := false
  refCount := 2
  size_lt := by unfold pipeSize; split <;> omega
  head_lt := by unfold pipeSize; split <;> omega
  tail_lt := by unfold pipeSize; split <;> omega

/-- `xtCreatePipe`: `alloc i` is the result of the `i`-th allocation (the record, the
    buffer, the two events, the two file objects), each under `XT_TRY`; the one for the
    buffer leaves the memory `m` and returns `ptr`. -/
def xtCreatePipe (alloc : ℕ → XTResult) (m : Heap.Mem) (ptr bufferSize : ℕ)
    (h : bufferSize < 2 ^ 64) : Except XTResult XTPipeData :=
  match (List.range 6).find? fun i => (alloc i).isError with
  | some i => .error (alloc i)
  | none => .ok (initPipeData m ptr bufferSize h)

/-! ### Concurrent calls on one pipe -/

/-- A pipe with the calls in flight on it. `accepted` are the bytes counted in the
    writers' `*written` and `delivered` those handed to readers, both in the order
    of the passes that moved them. After the last close the heap may give the record and
    the buffer to others, `reused`. -/
structure System (Tid : Type) where
  pipe : XTPipeData
  writers : Tid → Option WriteCall
  readers : Tid → Option ReadCall
  accepted : List UInt8
  delivered : List UInt8
  reused : Bool

/-- What a thread can do: start a call, run the next pass of one, or close an end; and what
    the owners of other memory do: write behind the block of the buffer, or use the
    freed blocks again. -/
inductive Action (Tid : Type) where
  | beginWrite (t : Tid) (flags : ℕ) (data : List UInt8)
  | writePass (t : Tid)
  | beginRead (t : Tid) (flags : ℕ) (count : ℕ)
  | readPass (t : Tid)
  | close (flags : ℕ)
  | foreign (i : ℕ) (b : UInt8)
  | reuse

variable {Tid : Type}

/-- One step of a run. The two files are closed once each; after that no call begins, but
    those in flight go on with the record as it was left. -/
def System.step [DecidableEq Tid] (s : System Tid) : Action Tid → Option (System Tid)
  | .beginWrite t flags data =>
    if s.pipe.refCount = 0 then none else
    match s.writers t with
    | some _ => none
    | none => some { s with
        writers := Function.update s.writers t (some ⟨flags, data, 0⟩) }
  | .writePass t =>
    if s.reused then none else
    match s.writers t with
    | none => none
    | some c => match pipeWritePass s.pipe c with
      | (p, .inl c') => some { s with
          pipe := p
          writers := Function.update s.writers t (some c')
          accepted := s.accepted ++ c.src.take (c'.written - c.written) }
      | (p, .inr _) => some { s with
          pipe := p
          writers := Function.update s.writers t none }
  | .beginRead t flags count =>
    if s.pipe.refCount = 0 then none else
    match s.readers t with
    | some _ => none
    | none => some { s with
        readers := Function.update s.readers t (some ⟨flags, count, []⟩) }
  | .readPass t =>
    if s.reused then none else
    match s.readers t with
    | none => none
    | some c => match pipeReadPass s.pipe c with
      | (p, .inl c') => some { s with
          pipe := p
          readers := Function.update s.readers t (some c') }
      | (p, .inr (_, dst)) => some { s with
          pipe := p
          readers := Function.update s.readers t none
          delivered := s.delivered ++ dst.drop c.dst.length }
  | .close flags =>
    if s.pipe.refCount = 0 then none else some { s with pipe := pipeCloseFile s.pipe flags }
  | .foreign i b =>
    if i < s.pipe.room then none else
    some { s with pipe := { s.pipe with buffer := Function.update s.pipe.buffer i b } }
  | .reuse => if s.pipe.refCount = 0 then some { s with reused := true } else none

/-- The next pass of the call writes to the block of the buffer only. -/
def WriteCall.StaysIn (c : WriteCall) (p : XTPipeData) : Prop :=
  ∀ i < min c.src.length (pipeFree p), (p.head + i) % p.size < p.room

/-- A call in flight goes on in memory that others use, or writes behind the block of the
    buffer, perhaps over the record. -/
def System.Stray (s : System Tid) : Prop :=
  (s.reused = true ∧ ∃ t, s.writers t ≠ none ∨ s.readers t ≠ none) ∨
    ∃ t c, s.writers t = some c ∧ s.pipe.readClosed = false ∧ s.pipe.writeClosed = false ∧
      ¬ c.StaysIn s.pipe

/-- The state right after a successful `xtCreatePipe`, whose buffer comes from a heap. -/
def System.Initial (s : System Tid) : Prop :=
  (∃ alloc bufferSize h m m' ptr start total bs fuel, Heap.Tiled m start total bs ∧
    Heap.Region start total ∧
    Heap.xtHeapAlloc fuel m start (pipeSize bufferSize) = some (some (m', ptr)) ∧
    xtCreatePipe alloc m' ptr bufferSize h = .ok s.pipe) ∧
    (∀ t, s.writers t = none) ∧ (∀ t, s.readers t = none) ∧
    s.accepted = [] ∧ s.delivered = [] ∧ s.reused = false

/-- The bytes held in the buffer, from the tail on. -/
def contents (p : XTPipeData) : List UInt8 := ringRead p.buffer p.size p.tail (pipeUsed p)

/-- The next pass of thread `t` finds the write end closed and the buffer empty, so
    its `pipeReadFile` returns at end of file. -/
def System.SeesEof (s : System Tid) (t : Tid) : Prop :=
  ∃ c, s.readers t = some c ∧ 0 < c.remaining ∧ s.pipe.readClosed = false ∧
    pipeUsed s.pipe = 0 ∧ s.pipe.writeClosed = true

/-- The pipe is a FIFO queue: what was delivered is a prefix of what was accepted, and as
    long as there is a pipe the rest is exactly what the buffer holds, and end of file is
    seen only when nothing is left. -/
def System.Fifo (s : System Tid) : Prop :=
  s.delivered <+: s.accepted ∧
  (s.reused = false → s.accepted.drop s.delivered.length = contents s.pipe ∧
    (s.accepted.drop s.delivered.length).length = pipeUsed s.pipe ∧
    ∀ t, s.SeesEof t → s.delivered = s.accepted)

/-! ### The buffer as a queue -/

theorem pipeUsed_lt (p : XTPipeData) : pipeUsed p < p.size := by
  have h1 := p.head_lt
  have h2 := p.tail_lt
  unfold pipeUsed
  split <;> omega

/-- The head lies `pipeUsed` cells after the tail. -/
theorem tail_add_pipeUsed (p : XTPipeData) : (p.tail + pipeUsed p) % p.size = p.head := by
  have h1 := p.head_lt
  have h2 := p.tail_lt
  rw [ring_index h2 (pipeUsed_lt p)]
  unfold pipeUsed
  split <;> split <;> omega

/-- `pipeUsed` is the only distance below `size` from the tail to the head. -/
theorem pipeUsed_unique (p : XTPipeData) {n : ℕ} (hn : n < p.size)
    (h : (p.tail + n) % p.size = p.head) : pipeUsed p = n := by
  have h1 := p.head_lt
  have h2 := p.tail_lt
  rw [ring_index h2 hn] at h
  unfold pipeUsed
  split at h <;> split <;> omega

@[simp] theorem length_contents (p : XTPipeData) : (contents p).length = pipeUsed p := by
  simp [contents]

/-- The two copies of `pipeWriteToBuffer` are one cyclic write of the first `count`
    bytes. -/
theorem pipeWriteToBuffer_eq (p : XTPipeData) (src : List UInt8) {count : ℕ}
    (hle : count ≤ pipeFree p) :
    (pipeWriteToBuffer p src count).2 = count ∧
    (pipeWriteToBuffer p src count).1.buffer =
      ringWrite p.buffer p.size p.head (src.take count) ∧
    (pipeWriteToBuffer p src count).1.head = (p.head + count) % 2 ^ 64 % p.size ∧
    (pipeWriteToBuffer p src count).1.tail = p.tail ∧
    (pipeWriteToBuffer p src count).1.size = p.size := by
  have hlt := pipeUsed_lt p
  have hne : pipeFree p ≠ 0 := by
    unfold pipeFree
    omega
  have hgt : ¬ count > pipeFree p := by omega
  simp only [pipeWriteToBuffer, hne, hgt, if_false, and_true, true_and]
  rw [ringWrite, List.take_take]
  by_cases hw : p.size - p.head > count
  · -- the block ends before the end of the buffer
    simp only [hw, if_true, gt_iff_lt, lt_self_iff_false, if_false]
    rw [Nat.min_eq_right (by omega), List.drop_eq_nil_of_le (by simp; omega), store_nil]
  · simp only [hw, if_false]
    rw [Nat.min_eq_left (by omega), List.drop_take]
    split
    · rfl
    · rw [show count - (p.size - p.head) = 0 by omega, List.take_zero, store_nil]

/-- The two copies of `pipeReadFromBuffer` are one cyclic read. -/
theorem pipeReadFromBuffer_eq (p : XTPipeData) (count : ℕ) :
    (pipeReadFromBuffer p count).2 =
      ringRead p.buffer p.size p.tail (min count (pipeUsed p)) ∧
    (pipeReadFromBuffer p count).1.tail =
      (p.tail + min count (pipeUsed p)) % 2 ^ 64 % p.size ∧
    (pipeReadFromBuffer p count).1.head = p.head ∧
    (pipeReadFromBuffer p count).1.size = p.size ∧
    (pipeReadFromBuffer p count).1.buffer = p.buffer := by
  have hlt := pipeUsed_lt p
  have htail := p.tail_lt
  have hsize := p.size_lt
  by_cases hused : pipeUsed p = 0
  · -- nothing is read, and the tail stays
    rw [hused, Nat.min_zero, Nat.add_zero, Nat.mod_eq_of_lt (show p.tail < 2 ^ 64 by omega),
      Nat.mod_eq_of_lt htail, ringRead_zero]
    simp only [pipeReadFromBuffer, hused, if_true, and_self]
  have hmin : (if count > pipeUsed p then pipeUsed p else count) = min count (pipeUsed p) := by
    split <;> omega
  simp only [pipeReadFromBuffer, hused, hmin, if_false, and_true]
  generalize hn : min count (pipeUsed p) = n
  rw [ringRead_eq_load p.buffer htail (by omega)]
  by_cases hw : p.size - p.tail > n
  · simp only [hw, if_true, gt_iff_lt, lt_self_iff_false, if_false]
    rw [Nat.min_eq_left (by omega), Nat.sub_self, load_zero, List.append_nil]
  · simp only [hw, if_false]
    rw [Nat.min_eq_right (by omega)]
    split
    · rfl
    · rw [show n - (p.size - p.tail) = 0 by omega, load_zero, List.append_nil]

@[simp] theorem pipeWriteToBuffer_room (p : XTPipeData) (src : List UInt8) (count : ℕ) :
    (pipeWriteToBuffer p src count).1.room = p.room := by
  by_cases h : pipeFree p = 0
  · simp [pipeWriteToBuffer, h]
  · simp [pipeWriteToBuffer, h]

@[simp] theorem pipeReadFromBuffer_room (p : XTPipeData) (count : ℕ) :
    (pipeReadFromBuffer p count).1.room = p.room := by
  by_cases h : pipeUsed p = 0
  · simp [pipeReadFromBuffer, h]
  · simp [pipeReadFromBuffer, h]

/-- A write that leaves a byte free. -/
theorem pipeUsed_write (p : XTPipeData) (src : List UInt8) {count : ℕ}
    (hle : count < pipeFree p) (hov : p.head + count < 2 ^ 64) :
    pipeUsed (pipeWriteToBuffer p src count).1 = pipeUsed p + count := by
  obtain ⟨-, -, hhead, htail, hsize⟩ := pipeWriteToBuffer_eq p src (Nat.le_of_lt hle)
  apply pipeUsed_unique
  · rw [hsize]
    unfold pipeFree at hle
    omega
  · rw [hsize, htail, hhead, Nat.mod_eq_of_lt hov, ← Nat.add_assoc, Nat.add_mod,
      tail_add_pipeUsed, Nat.add_mod_mod]

theorem pipeUsed_read (p : XTPipeData) (count : ℕ)
    (hov : p.tail + min count (pipeUsed p) < 2 ^ 64) :
    pipeUsed (pipeReadFromBuffer p count).1 = pipeUsed p - min count (pipeUsed p) := by
  obtain ⟨-, htail, hhead, hsize, -⟩ := pipeReadFromBuffer_eq p count
  have hlt := pipeUsed_lt p
  rw [Nat.mod_eq_of_lt hov] at htail
  apply pipeUsed_unique
  · rw [hsize]
    omega
  · rw [hsize, htail, hhead, Nat.mod_add_mod, show p.tail + min count (pipeUsed p) +
        (pipeUsed p - min count (pipeUsed p)) = p.tail + pipeUsed p by omega,
      tail_add_pipeUsed]

/-- A write that leaves a byte free appends to the contents. -/
theorem contents_write (p : XTPipeData) (src : List UInt8) {count : ℕ}
    (hle : count < pipeFree p) (hsrc : count ≤ src.length) (hov : p.head + count < 2 ^ 64) :
    contents (pipeWriteToBuffer p src count).1 = contents p ++ src.take count := by
  obtain ⟨-, hbuf, hhead, htail, hsize⟩ := pipeWriteToBuffer_eq p src (Nat.le_of_lt hle)
  have hused := pipeUsed_write p src hle hov
  have hfree : pipeUsed p + count < p.size := by
    unfold pipeFree at hle
    omega
  have hlen : (src.take count).length = count := by simp; omega
  rw [contents, hbuf, hsize, htail, hused, contents, ← tail_add_pipeUsed p]
  have hring := @ringRead_ringWrite _ p.buffer p.size p.tail (pipeUsed p) (src.take count)
    p.tail_lt (by omega)
  rwa [hlen] at hring

/-- A read takes its bytes off the front of the contents. -/
theorem contents_read (p : XTPipeData) (count : ℕ)
    (hov : p.tail + min count (pipeUsed p) < 2 ^ 64) :
    contents p = (pipeReadFromBuffer p count).2 ++ contents (pipeReadFromBuffer p count).1 := by
  obtain ⟨hgot, htail, hhead, hsize, hbuf⟩ := pipeReadFromBuffer_eq p count
  have hused := pipeUsed_read p count hov
  rw [Nat.mod_eq_of_lt hov] at htail
  rw [hgot, contents, contents, hbuf, hsize, htail, hused, ← ringRead_add]
  congr 1
  omega

/-- The bytes in use are in the block of the buffer. -/
def Inside (p : XTPipeData) : Prop := ∀ i < pipeUsed p, (p.tail + i) % p.size < p.room

/-! ### The block of the buffer -/

theorem Inside.write {p : XTPipeData} {src : List UInt8} (h : Inside p)
    (hle : src.length < pipeFree p) (hov : p.head + src.length < 2 ^ 64)
    (hin : ∀ i < src.length, (p.head + i) % p.size < p.room) :
    Inside (pipeWriteToBuffer p src src.length).1 := by
  obtain ⟨-, -, -, htail, hsize⟩ := pipeWriteToBuffer_eq p src (Nat.le_of_lt hle)
  intro i hi
  rw [pipeUsed_write p src hle hov] at hi
  rw [htail, hsize, pipeWriteToBuffer_room]
  by_cases hold : i < pipeUsed p
  · exact h i hold
  · -- a new byte, counted from the head
    have hnew := hin (i - pipeUsed p) (by omega)
    rwa [← tail_add_pipeUsed p, Nat.mod_add_mod,
      show p.tail + pipeUsed p + (i - pipeUsed p) = p.tail + i by omega] at hnew

theorem Inside.read {p : XTPipeData} {count : ℕ} (h : Inside p)
    (hov : p.tail + min count (pipeUsed p) < 2 ^ 64) : Inside (pipeReadFromBuffer p count).1 := by
  obtain ⟨-, htail, -, hsize, -⟩ := pipeReadFromBuffer_eq p count
  intro i hi
  rw [pipeUsed_read p count hov] at hi
  have hold := h (min count (pipeUsed p) + i) (by omega)
  rw [htail, hsize, pipeReadFromBuffer_room, Nat.mod_eq_of_lt hov, Nat.mod_add_mod]
  rwa [← Nat.add_assoc] at hold

/-- Who writes behind the block does not write over bytes in use. -/
theorem contents_foreign {p : XTPipeData} (h : Inside p) {i : ℕ} (hi : p.room ≤ i) (b : UInt8) :
    contents { p with buffer := Function.update p.buffer i b } = contents p := by
  apply List.map_congr_left
  intro k hk
  have hk' := h k (List.mem_range.mp hk)
  exact Function.update_of_ne (by dsimp only; omega) _ _

/-! ### Runs -/

/-- The passes that keep the queue intact: a write must leave at least one byte free,
    since a full buffer and an empty one both have `head = tail`, it must stay in the
    block of the buffer, and no index sum may reach `2 ^ 64` (it cannot in a buffer of at
    most `2 ^ 63` bytes). -/
def System.Safe (s : System Tid) : Action Tid → Prop
  | .writePass t => ∀ c, s.writers t = some c →
      s.pipe.readClosed = true ∨ s.pipe.writeClosed = true ∨
      c.src.length < pipeFree s.pipe ∧ s.pipe.head + c.src.length < 2 ^ 64 ∧ c.StaysIn s.pipe
  | .readPass t => ∀ c, s.readers t = some c →
      s.pipe.readClosed = true ∨ s.pipe.tail + min c.remaining (pipeUsed s.pipe) < 2 ^ 64
  | _ => True

/-- Any step of the system. After a pass in the memory of others anything may happen. -/
def System.Step [DecidableEq Tid] (s s' : System Tid) : Prop :=
  (∃ a, s.step a = some s') ∨ s.Stray

/-- A step of the system whose pass is safe. -/
def System.SafeStep [DecidableEq Tid] (s s' : System Tid) : Prop := ∃ a, s.Safe a ∧ s.step a = some s'

theorem pipeWritePass_contents (p : XTPipeData) (c : WriteCall)
    (hs : p.readClosed = true ∨ p.writeClosed = true ∨
      c.src.length < pipeFree p ∧ p.head + c.src.length < 2 ^ 64 ∧ c.StaysIn p) :
    (∃ r, pipeWritePass p c = (p, .inr r)) ∨
    ∃ p' c', pipeWritePass p c = (p', .inl c') ∧
      contents p' = contents p ++ c.src.take (c'.written - c.written) ∧
      (Inside p → Inside p') ∧ p'.size = p.size ∧ p'.room = p.room := by
  unfold pipeWritePass
  split
  · exact .inl ⟨_, rfl⟩
  split
  · exact .inl ⟨_, rfl⟩
  · rename_i hlen hclosed
    simp only [Bool.or_eq_true, not_or] at hclosed
    obtain hr | hw | ⟨hfree, hov, hin⟩ := hs
    · exact absurd hr hclosed.1
    · exact absurd hw hclosed.2
    have hpos : 0 < c.src.length := by omega
    have hne : pipeFree p ≠ 0 := by omega
    obtain ⟨hw, -, -, -, hsize⟩ := pipeWriteToBuffer_eq p c.src (Nat.le_of_lt hfree)
    have hc := contents_write p c.src hfree le_rfl hov
    simp only [hne, if_false, hfree, if_true]
    refine .inr ⟨_, _, rfl, ?_, fun h => h.write hfree hov fun i hi => ?_, hsize, ?_⟩
    · rw [hw, hc, Nat.add_sub_cancel_left]
    · exact hin i (by omega)
    · exact pipeWriteToBuffer_room p c.src _

theorem pipeReadPass_contents (p : XTPipeData) (c : ReadCall)
    (hs : p.readClosed = true ∨ p.tail + min c.remaining (pipeUsed p) < 2 ^ 64) :
    pipeReadPass p c = (p, .inl c) ∨
    ∃ p' r got, pipeReadPass p c = (p', .inr (r, c.dst ++ got)) ∧
      contents p = got ++ contents p' ∧ (Inside p → Inside p') ∧ p'.size = p.size ∧
      p'.room = p.room := by
  have hid : ∀ r, ∃ p' r' got, ((p, .inr (r, c.dst)) :
      XTPipeData × (ReadCall ⊕ (XTResult × List UInt8))) = (p', .inr (r', c.dst ++ got)) ∧
      contents p = got ++ contents p' ∧ (Inside p → Inside p') ∧ p'.size = p.size ∧
      p'.room = p.room := fun r => ⟨p, r, [], by simp, rfl, id, rfl, rfl⟩
  unfold pipeReadPass
  split
  · exact .inr (hid _)
  split
  · exact .inr (hid _)
  rename_i hrem hclosed
  dsimp only
  split
  · split
    · exact .inr (hid _)
    split
    · exact .inr (hid _)
    · exact .inl rfl
  · rename_i hused
    obtain hr | hov := hs
    · exact absurd hr hclosed
    have hmin : (if c.remaining < pipeUsed p then c.remaining else pipeUsed p) =
        min c.remaining (pipeUsed p) := by
      split <;> omega
    rw [hmin]
    have hov' : p.tail + min (min c.remaining (pipeUsed p)) (pipeUsed p) < 2 ^ 64 := by
      rwa [Nat.min_assoc, Nat.min_self]
    obtain ⟨-, -, -, hsize, -⟩ := pipeReadFromBuffer_eq p (min c.remaining (pipeUsed p))
    exact .inr ⟨_, _, _, rfl, contents_read p _ hov', fun h => h.read hov', hsize,
      pipeReadFromBuffer_room p _⟩

/-- What `System.Fifo` rests on: the queue equation while there is a pipe, bytes in the block
    of the buffer only, and a block with room for a pipe of any size that the heap can serve. -/
structure System.Conserved (s : System Tid) : Prop where
  order : s.delivered <+: s.accepted
  queue : s.reused = false → s.accepted = s.delivered ++ contents s.pipe
  inside : Inside s.pipe
  room : s.pipe.size ≤ 2 ^ 64 - 48 → s.pipe.size ≤ s.pipe.room

theorem System.Conserved.fifo {s : System Tid} (h : s.Conserved) : s.Fifo := by
  refine ⟨h.order, fun hreused => ?_⟩
  have hqueue := h.queue hreused
  have hdrop : s.accepted.drop s.delivered.length = contents s.pipe := by
    rw [hqueue]
    exact List.drop_left
  refine ⟨hdrop, by rw [hdrop, length_contents], ?_⟩
  rintro t ⟨c, -, -, -, hused, -⟩
  have hnil : contents s.pipe = [] := List.eq_nil_of_length_eq_zero (by simpa using hused)
  rw [hqueue, hnil, List.append_nil]

theorem System.Initial.conserved {s : System Tid} (h : s.Initial) : s.Conserved := by
  obtain ⟨⟨alloc, bufferSize, hb, m, m', ptr, start, total, bs, fuel, htiled, hregion, hblock,
    hp⟩, -, -, ha, hd, -⟩ := h
  unfold xtCreatePipe at hp
  split at hp
  · cases hp
  simp only [Except.ok.injEq] at hp
  have hused : pipeUsed s.pipe = 0 := by
    rw [← hp]
    rfl
  have hnil : contents s.pipe = [] := List.eq_nil_of_length_eq_zero (by simpa using hused)
  refine ⟨by rw [hd]; exact List.nil_prefix, fun _ => by rw [ha, hd, hnil]; rfl, ?_, ?_⟩
  · intro i hi
    omega
  · rw [← hp]
    intro hsize
    exact htiled.room hregion hsize hblock

theorem System.SafeStep.conserved [DecidableEq Tid] {s s' : System Tid} (h : s.SafeStep s')
    (hi : s.Conserved) : s'.Conserved := by
  obtain ⟨a, hsafe, hstep⟩ := h
  cases a with
  | beginWrite t flags data =>
    simp only [System.step] at hstep
    split at hstep
    · cases hstep
    split at hstep
    · cases hstep
    · cases hstep
      exact ⟨hi.order, hi.queue, hi.inside, hi.room⟩
  | writePass t =>
    simp only [System.step] at hstep
    split at hstep
    · cases hstep
    rename_i hreused
    rw [Bool.not_eq_true] at hreused
    split at hstep
    · cases hstep
    rename_i c hc
    obtain ⟨r, hp⟩ | ⟨p', c', hp, hcont, hinside, hsize, hroom⟩ :=
      pipeWritePass_contents s.pipe c (hsafe c hc)
    · rw [hp] at hstep
      cases hstep
      exact ⟨hi.order, hi.queue, hi.inside, hi.room⟩
    · rw [hp] at hstep
      cases hstep
      refine ⟨hi.order.trans (List.prefix_append _ _), fun _ => ?_, hinside hi.inside, ?_⟩
      · dsimp only
        rw [hcont, hi.queue hreused, List.append_assoc]
      · dsimp only
        rw [hsize, hroom]
        exact hi.room
  | beginRead t flags count =>
    simp only [System.step] at hstep
    split at hstep
    · cases hstep
    split at hstep
    · cases hstep
    · cases hstep
      exact ⟨hi.order, hi.queue, hi.inside, hi.room⟩
  | readPass t =>
    simp only [System.step] at hstep
    split at hstep
    · cases hstep
    rename_i hreused
    rw [Bool.not_eq_true] at hreused
    split at hstep
    · cases hstep
    rename_i c hc
    obtain hp | ⟨p', r, got, hp, hcont, hinside, hsize, hroom⟩ :=
      pipeReadPass_contents s.pipe c (hsafe c hc)
    · rw [hp] at hstep
      cases hstep
      exact ⟨hi.order, hi.queue, hi.inside, hi.room⟩
    · rw [hp] at hstep
      cases hstep
      have hqueue : s.accepted = (s.delivered ++ got) ++ contents p' := by
        rw [hi.queue hreused, hcont, List.append_assoc]
      refine ⟨?_, fun _ => ?_, hinside hi.inside, ?_⟩
      · dsimp only
        rw [List.drop_left, hqueue]
        exact List.prefix_append _ _
      · dsimp only
        rw [List.drop_left, hqueue]
      · dsimp only
        rw [hsize, hroom]
        exact hi.room
  | close flags =>
    simp only [System.step] at hstep
    split at hstep
    · cases hstep
    · cases hstep
      exact ⟨hi.order, hi.queue, hi.inside, hi.room⟩
  | foreign i b =>
    simp only [System.step] at hstep
    split at hstep
    · cases hstep
    rename_i hout
    cases hstep
    refine ⟨hi.order, fun hreused => ?_, hi.inside, hi.room⟩
    dsimp only
    rw [contents_foreign hi.inside (Nat.le_of_not_lt hout)]
    exact hi.queue hreused
  | reuse =>
    simp only [System.step] at hstep
    split at hstep
    · cases hstep
      exact ⟨hi.order, fun h => absurd h (by simp), hi.inside, hi.room⟩
    · cases hstep

/-- A pass that takes all the free space makes the buffer look empty, so the bytes
    in it are lost: the queue property breaks at once. -/
theorem System.Conserved.not_fifo_of_fill [DecidableEq Tid] {s s' : System Tid} {t : Tid}
    {c : WriteCall} (hi : s.Conserved) (hw : s.writers t = some c)
    (hr : s.pipe.readClosed = false) (hc : s.pipe.writeClosed = false)
    (hfill : pipeFree s.pipe ≤ c.src.length) (hstep : s.step (.writePass t) = some s') :
    ¬ s'.Fifo := by
  have hused := pipeUsed_lt s.pipe
  have hpos : 0 < pipeFree s.pipe := by
    unfold pipeFree
    omega
  have hne : pipeFree s.pipe ≠ 0 := by omega
  have hlen : ¬ c.src.length = 0 := by omega
  have hnlt : ¬ c.src.length < pipeFree s.pipe := by omega
  have hwrote := pipeWriteToBuffer_eq s.pipe c.src le_rfl
  simp only [System.step] at hstep
  split at hstep
  · cases hstep
  rename_i hreused
  rw [Bool.not_eq_true] at hreused
  simp only [hw, pipeWritePass, hlen, hr, hc, hne, hnlt, if_false, Bool.or_self,
    Bool.false_eq_true, hwrote.1, Nat.add_sub_cancel_left, Option.some.injEq] at hstep
  subst hstep
  rintro ⟨-, hqueue⟩
  obtain ⟨-, hcount, -⟩ := hqueue hreused
  have hlt := pipeUsed_lt (pipeWriteToBuffer s.pipe c.src (pipeFree s.pipe)).1
  rw [hwrote.2.2.2.2, ← hcount, hi.queue hreused] at hlt
  simp only [List.length_drop, List.length_append, List.length_take, length_contents] at hlt
  unfold pipeFree at hlt hfill
  omega

/-- **Pipe order**: in every run from `xtCreatePipe` in which no write fills the buffer or
    leaves its block and no call goes on in memory that was used again, the pipe is a FIFO
    queue in every state. No write leaves the block of a pipe of at most `2 ^ 64 - 48` bytes,
    and one that fills the buffer ends the order at once. -/
theorem fifo_of_safe_run [DecidableEq Tid] {s : System Tid}
    (h : Reachable System.Initial System.SafeStep s) :
    s.Fifo ∧ (s.pipe.size ≤ 2 ^ 64 - 48 → ∀ c : WriteCall, c.StaysIn s.pipe) ∧
      ∀ t c s', s.writers t = some c → s.pipe.readClosed = false → s.pipe.writeClosed = false →
        pipeFree s.pipe ≤ c.src.length → s.step (.writePass t) = some s' → ¬ s'.Fifo := by
  have hi : s.Conserved := h.invariant (fun _ => System.Initial.conserved)
    (fun _ _ hi hs => System.SafeStep.conserved hs hi)
  refine ⟨hi.fifo, fun hsize c i _ => ?_, fun t c s' => hi.not_fifo_of_fill⟩
  exact (Nat.mod_lt _ s.pipe.size_pos).trans_le (hi.room hsize)

/-- A fresh pipe with no call in flight. -/
def System.fresh (Tid : Type) (m : Heap.Mem) (ptr bufferSize : ℕ) (h : bufferSize < 2 ^ 64) :
    System Tid :=
  ⟨initPipeData m ptr bufferSize h, fun _ => none, fun _ => none, [], [], false⟩

/-- A pipe of four bytes in a fresh heap; its block has 16. -/
theorem fresh_initial : ∃ m ptr, Heap.payload m ptr = 16 ∧
    (System.fresh ℕ m ptr 4 (by decide)).Initial := by
  have hs := Heap.freshHeap_initial.sound
  have hblock : ∃ m ptr, Heap.xtHeapAlloc 2 Heap.freshHeap.mem Heap.freshHeap.heapStart 4 =
      some (some (m, ptr)) ∧ Heap.payload m ptr = 16 := ⟨_, _, rfl, by decide +kernel⟩
  obtain ⟨m, ptr, hcall, hroom⟩ := hblock
  exact ⟨m, ptr, hroom, ⟨fun _ => .success, 4, by decide, _, m, ptr, _, _, _, 2, hs.tiled,
    hs.region, hcall, rfl⟩, fun _ => rfl, fun _ => rfl, rfl, rfl, rfl⟩

/-- Three bytes written into a pipe of four: a run that `fifo_of_safe_run` covers. -/
theorem fifo_three_of_four : ∃ s : System ℕ,
    Reachable System.Initial System.SafeStep s ∧ s.accepted = [1, 2, 3] ∧ s.Fifo := by
  obtain ⟨m, ptr, hroom, hinit⟩ := fresh_initial
  have h0 : Reachable System.Initial System.SafeStep (System.fresh ℕ m ptr 4 (by decide)) :=
    .start hinit
  have h1 := h0.next ⟨.beginWrite 0 fileModeWrite [1, 2, 3], trivial, rfl⟩
  have h2 := h1.next ⟨.writePass 0, by
    rintro c hc
    obtain rfl : _ = c := Option.some.inj hc
    have hfree : 3 < 4 := by decide
    have hindex : 0 + 3 < 2 ^ 64 := by decide
    refine .inr (.inr ⟨hfree, hindex, fun i _ => ?_⟩)
    change (0 + i) % 4 < Heap.payload m ptr
    omega, rfl⟩
  exact ⟨_, h2, rfl, (fifo_of_safe_run h2).1⟩

/-- Four bytes written into a pipe of four are gone: the pipe is not a FIFO queue in
    every run. -/
theorem fifo_fails_when_filled :
    ¬ ∀ s : System ℕ, Reachable System.Initial System.Step s → s.Fifo := by
  intro hall
  obtain ⟨m, ptr, -, hinit⟩ := fresh_initial
  have h0 : Reachable System.Initial System.Step (System.fresh ℕ m ptr 4 (by decide)) :=
    .start hinit
  obtain ⟨s1, hbegin⟩ : ∃ s1, (System.fresh ℕ m ptr 4 (by decide)).step
      (.beginWrite 0 fileModeWrite [1, 2, 3, 4]) = some s1 ∧
      s1.writers 0 = some ⟨fileModeWrite, [1, 2, 3, 4], 0⟩ ∧ s1.pipe.readClosed = false ∧
      s1.pipe.writeClosed = false ∧ pipeFree s1.pipe = 4 ∧
      ∃ s2, s1.step (.writePass 0) = some s2 := ⟨_, rfl, rfl, rfl, rfl, rfl, _, rfl⟩
  obtain ⟨hbegin, hcall, hread, hwrite, hfree, s2, hfill⟩ := hbegin
  have h1 := h0.next (.inl ⟨_, hbegin⟩)
  have h2 := h1.next (.inl ⟨_, hfill⟩)
  have hbegun := System.SafeStep.conserved ⟨.beginWrite 0 fileModeWrite [1, 2, 3, 4], trivial, hbegin⟩
    hinit.conserved
  exact hbegun.not_fifo_of_fill hcall hread hwrite hfree.le hfill (hall _ h2)

end XTOS.Pipe

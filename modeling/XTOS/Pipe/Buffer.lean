import XTOS.Pipe

/-!
# The pipe buffer as a queue

`pipeReadFromBuffer` and `pipeWriteToBuffer` of `xtkernel/pipe.c`, each on its own, compared
with taking from the front of a list and appending to it.

## Main definitions

- `TakesFront` — a read hands out the first bytes of the contents and leaves the others
- `Appends` — a write puts all its bytes behind the contents

## Main results

- `queue_iff` — both are so exactly if the sum that gives the new index does not wrap around
-/

namespace XTOS.Pipe

open SysLib

/-- A read hands out the first bytes of the contents, as many as there are of the `count`, and
    the others are the new contents. Nothing behind the end of the buffer counts. -/
structure TakesFront (p : XTPipeData) (count : ℕ) : Prop where
  delivered : (pipeReadFromBuffer p count).2 = (contents p).take (min count (pipeUsed p))
  left : contents (pipeReadFromBuffer p count).1 = (contents p).drop (min count (pipeUsed p))
  size : (pipeReadFromBuffer p count).1.size = p.size
  head : (pipeReadFromBuffer p count).1.head < p.size
  tail : (pipeReadFromBuffer p count).1.tail < p.size
  buffer : (pipeReadFromBuffer p count).1.buffer = p.buffer
  inside : ∀ buffer : ℕ → UInt8, (∀ i < p.size, buffer i = p.buffer i) →
    (pipeReadFromBuffer { p with buffer := buffer } count).2 = (pipeReadFromBuffer p count).2

/-- A write stores all its bytes, and they are behind the contents afterwards. Nothing behind
    the end of the buffer changes. -/
structure Appends (p : XTPipeData) (data : List UInt8) : Prop where
  stored : (pipeWriteToBuffer p data data.length).2 = data.length
  appended : contents (pipeWriteToBuffer p data data.length).1 = contents p ++ data
  size : (pipeWriteToBuffer p data data.length).1.size = p.size
  head : (pipeWriteToBuffer p data data.length).1.head < p.size
  tail : (pipeWriteToBuffer p data data.length).1.tail < p.size
  inside : ∀ i, p.size ≤ i → (pipeWriteToBuffer p data data.length).1.buffer i = p.buffer i

variable {p : XTPipeData} {count : ℕ} {data : List UInt8}

/-- An index sum that wraps around does not come to the index it is for. -/
theorem wrapped_index_ne {size a n : ℕ} (hsize : size < 2 ^ 64) (ha : a < size) (hn : n < size)
    (hov : 2 ^ 64 ≤ a + n) : (a + n) % 2 ^ 64 % size ≠ (a + n) % size := by
  have hwrap : (a + n) % 2 ^ 64 = a + n - 2 ^ 64 := by
    rw [Nat.mod_eq_sub_mod hov, Nat.mod_eq_of_lt (by omega)]
  rw [hwrap, Nat.mod_eq_of_lt (by omega), ring_index ha hn, if_neg (by omega)]
  omega

/-! ### Reading -/

theorem delivered_eq (p : XTPipeData) (count : ℕ) :
    (pipeReadFromBuffer p count).2 = (contents p).take (min count (pipeUsed p)) := by
  have hsplit : pipeUsed p = min count (pipeUsed p) + (pipeUsed p - min count (pipeUsed p)) := by
    omega
  rw [(pipeReadFromBuffer_eq p count).1, contents]
  conv_rhs => rw [hsplit, ringRead_add]
  rw [List.take_left' (by rw [length_ringRead, ← hsplit])]

/-- The rest is left when the new tail is the right one. -/
theorem contents_left (hov : p.tail + min count (pipeUsed p) < 2 ^ 64) :
    contents (pipeReadFromBuffer p count).1 = (contents p).drop (min count (pipeUsed p)) := by
  have hsplit := contents_read p count hov
  have hlen : (pipeReadFromBuffer p count).2.length = min count (pipeUsed p) := by
    rw [(pipeReadFromBuffer_eq p count).1, length_ringRead]
  rw [hsplit, List.drop_left' hlen]

/-- A tail that wrapped around is not as far from the head as the bytes that are left. -/
theorem contents_left_ne (hov : 2 ^ 64 ≤ p.tail + min count (pipeUsed p)) :
    contents (pipeReadFromBuffer p count).1 ≠ (contents p).drop (min count (pipeUsed p)) := by
  intro h
  obtain ⟨-, htail, hhead, hsize, -⟩ := pipeReadFromBuffer_eq p count
  have hlt := pipeUsed_lt p
  have hused : pipeUsed (pipeReadFromBuffer p count).1 =
      pipeUsed p - min count (pipeUsed p) := by
    have hlen := congrArg List.length h
    rwa [length_contents, List.length_drop, length_contents] at hlen
  have hnew := tail_add_pipeUsed (pipeReadFromBuffer p count).1
  rw [hsize, hhead, hused, ← tail_add_pipeUsed p, htail] at hnew
  have hold : p.tail + pipeUsed p = (p.tail + min count (pipeUsed p)) +
      (pipeUsed p - min count (pipeUsed p)) := by
    omega
  rw [hold] at hnew
  have hcancel := Nat.ModEq.add_right_cancel' _ hnew
  apply wrapped_index_ne p.size_lt p.tail_lt (show min count (pipeUsed p) < p.size by omega) hov
  rw [← hcancel, Nat.mod_mod]

theorem takesFront_iff (p : XTPipeData) (count : ℕ) :
    TakesFront p count ↔ p.tail + min count (pipeUsed p) < 2 ^ 64 := by
  constructor
  · intro h
    by_contra hov
    exact contents_left_ne (Nat.le_of_not_lt hov) h.left
  · intro hov
    obtain ⟨hgot, htail, hhead, hsize, hbuffer⟩ := pipeReadFromBuffer_eq p count
    refine ⟨delivered_eq p count, contents_left hov, hsize, ?_, ?_, hbuffer, fun buffer hsame => ?_⟩
    · rw [hhead]
      exact p.head_lt
    · rw [htail]
      exact Nat.mod_lt _ p.size_pos
    · rw [(pipeReadFromBuffer_eq _ count).1, hgot]
      apply List.map_congr_left
      intro i _
      apply hsame
      exact Nat.mod_lt _ p.size_pos

/-! ### Writing -/

/-- A head that wrapped around is not as far from the tail as all the bytes are. -/
theorem contents_appended_ne (hfree : data.length < pipeFree p)
    (hov : 2 ^ 64 ≤ p.head + data.length) :
    contents (pipeWriteToBuffer p data data.length).1 ≠ contents p ++ data := by
  intro h
  obtain ⟨-, -, hhead, htail, hsize⟩ := pipeWriteToBuffer_eq p data (Nat.le_of_lt hfree)
  have hlt := pipeUsed_lt p
  have hused : pipeUsed (pipeWriteToBuffer p data data.length).1 = pipeUsed p + data.length := by
    have hlen := congrArg List.length h
    rwa [length_contents, List.length_append, length_contents] at hlen
  have hnew := tail_add_pipeUsed (pipeWriteToBuffer p data data.length).1
  rw [hsize, htail, hused, hhead, ← Nat.add_assoc, ← Nat.mod_add_mod, tail_add_pipeUsed] at hnew
  rw [pipeFree] at hfree
  exact wrapped_index_ne p.size_lt p.head_lt (by omega) hov hnew.symm

theorem appends_iff (hfree : data.length < pipeFree p) :
    Appends p data ↔ p.head + data.length < 2 ^ 64 := by
  constructor
  · intro h
    by_contra hov
    exact contents_appended_ne hfree (Nat.le_of_not_lt hov) h.appended
  · intro hov
    obtain ⟨hstored, hbuffer, hhead, htail, hsize⟩ := pipeWriteToBuffer_eq p data hfree.le
    have happended := contents_write p data hfree le_rfl hov
    rw [List.take_length] at happended hbuffer
    refine ⟨hstored, happended, hsize, ?_, ?_, fun i hi => ?_⟩
    · rw [hhead]
      exact Nat.mod_lt _ p.size_pos
    · rw [htail]
      exact p.tail_lt
    · have hhead := p.head_lt
      have hlen : data.length ≤ p.size := by
        rw [pipeFree] at hfree
        omega
      rw [hbuffer, ringWrite, store_above _ _ (by rw [List.length_drop]; omega),
        store_above _ _ (by rw [List.length_take]; omega)]

/-- **The buffer is a queue**: a read takes from the front and a write appends, exactly when the
    index plus the number of bytes is less than 2 ^ 64. So it is one for all reads and writes in
    a buffer of at most 2 ^ 63 bytes. -/
theorem queue_iff (p : XTPipeData) :
    (∀ count, TakesFront p count ↔ p.tail + min count (pipeUsed p) < 2 ^ 64) ∧
      (∀ data : List UInt8, data.length < pipeFree p →
        (Appends p data ↔ p.head + data.length < 2 ^ 64)) ∧
      (p.size ≤ 2 ^ 63 → (∀ count, TakesFront p count) ∧
        ∀ data : List UInt8, data.length < pipeFree p → Appends p data) := by
  have hlt := pipeUsed_lt p
  have hhead := p.head_lt
  have htail := p.tail_lt
  refine ⟨takesFront_iff p, fun _ => appends_iff, fun hsize => ⟨fun count => ?_, fun data h => ?_⟩⟩
  · exact (takesFront_iff p count).mpr (by omega)
  · have hfree := h
    rw [pipeFree] at hfree
    exact (appends_iff h).mpr (by omega)

/-- A pipe of eight bytes with four of them in use, which lie around the end. -/
def wrappedPipe : XTPipeData where
  buffer i := UInt8.ofNat (i + 10)
  room := 16
  size := 8
  head := 2
  tail := 6
  writeClosed := false
  readClosed := false
  refCount := 2
  size_lt := by decide
  head_lt := by decide
  tail_lt := by decide

/-- Three of the bytes are read, and two are appended. -/
theorem queue_wrappedPipe : wrappedPipe.size ≤ 2 ^ 63 ∧
    contents wrappedPipe = [16, 17, 10, 11] ∧ TakesFront wrappedPipe 3 ∧
    ([1, 2] : List UInt8).length < pipeFree wrappedPipe ∧ Appends wrappedPipe [1, 2] := by
  have hsize : wrappedPipe.size ≤ 2 ^ 63 := by decide
  have hfree : ([1, 2] : List UInt8).length < pipeFree wrappedPipe := by decide
  obtain ⟨-, -, hqueue⟩ := queue_iff wrappedPipe
  exact ⟨hsize, by decide, (hqueue hsize).1 3, hfree, (hqueue hsize).2 _ hfree⟩

/-- An empty pipe of 2 ^ 64 - 1 bytes whose indices are at the last but one. -/
def hugePipe : XTPipeData where
  buffer _ := 0
  room := 2 ^ 64 - 1
  size := 2 ^ 64 - 1
  head := 2 ^ 64 - 3
  tail := 2 ^ 64 - 3
  writeClosed := false
  readClosed := false
  refCount := 2
  size_lt := by decide
  head_lt := by decide
  tail_lt := by decide

/-- Three bytes are written around the end of a buffer whose index sum wraps around: the new
    head is the index 0, and only two of them are in the pipe. -/
theorem queue_fails_when_wrapped : pipeUsed hugePipe = 0 ∧
    ([1, 2, 3] : List UInt8).length < pipeFree hugePipe ∧
    (pipeWriteToBuffer hugePipe [1, 2, 3] 3).2 = 3 ∧
    pipeUsed (pipeWriteToBuffer hugePipe [1, 2, 3] 3).1 = 2 ∧ ¬ Appends hugePipe [1, 2, 3] := by
  refine ⟨by decide, by decide, by decide, by decide, ?_⟩
  rw [appends_iff (by decide)]
  decide

end XTOS.Pipe

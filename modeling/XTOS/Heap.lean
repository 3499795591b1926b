import XTOS.Lib.Bits
import XTOS.Lib.Linked
import XTOS.Lib.Memory
import XTOS.Lib.Run
import XTOS.Result

/-!
# The kernel heap

The static heap of `xtkernel/memory.c`: blocks that tile a region of memory, each with a
header inside the region that links it to its neighbours. Allocation splits a free block,
freeing joins a block with the free ones around it.

## Main definitions

- `entryAt` — the header of a block as it lies in memory
- `xtHeapInit`, `xtHeapAlloc`, `xtHeapFree` — the modelled functions
- `Seg` — the headers of a stretch of consecutive blocks
- `Run.Sound` — the blocks tile the region, no two neighbours are free, and the used ones
  are the live allocations

## Design notes

Memory is a function from addresses to bytes, so the headers live in the memory that the
heap hands out. `xtHeapAlloc` is modelled up to the point where the static heap has no
fitting block. Callers write to the bytes they asked for at any time.
-/

namespace XTOS.Heap

open SysLib

/-- `XTHeapEntry`, 32 bytes. -/
structure XTHeapEntry where
  size : ℕ
  used : ℕ
  next : ℕ
  prev : ℕ
  deriving DecidableEq, Repr

/-- Memory by address. -/
abbrev Mem := ℕ → UInt8

/-- The header at an address. -/
def entryAt (m : Mem) (b : ℕ) : XTHeapEntry :=
  ⟨loadLE m b 8, loadLE m (b + 8) 1, loadLE m (b + 16) 8, loadLE m (b + 24) 8⟩

/-- Store the `size` field. -/
def setSize (m : Mem) (b v : ℕ) : Mem := storeLE m b 8 v

/-- Store the `used` field. -/
def setUsed (m : Mem) (b v : ℕ) : Mem := storeLE m (b + 8) 1 v

/-- Store the `next` field. -/
def setNext (m : Mem) (b v : ℕ) : Mem := storeLE m (b + 16) 8 v

/-- Store the `prev` field. -/
def setPrev (m : Mem) (b v : ℕ) : Mem := storeLE m (b + 24) 8 v

/-- `HEAP_HEADER_SIZE`. -/
def heapHeaderSize : ℕ := 32

/-- `MIN_BLOCK_SIZE`. -/
def minBlockSize : ℕ := heapHeaderSize + 16

/-- `x & ~15` on 64 bits. -/
def mask16 (x : ℕ) : ℕ := x &&& (2 ^ 64 - 16)

/-- `xtHeapSetupBlock`. -/
def xtHeapSetupBlock (m : Mem) (b size : ℕ) : Mem :=
  setPrev (setNext (setUsed (setSize m b size) b 0) b 0) b 0

/-- `xtHeapInit` for `heap_data` at address `heapData`: the memory and the start of the
    heap. -/
def xtHeapInit (m : Mem) (heapData : ℕ) : Mem × ℕ :=
  let start := if heapData % 16 ≠ 0 then mask16 ((heapData + 15) % 2 ^ 64) else heapData
  let usableSize := 64 * 1024 - (start - heapData)
  (xtHeapSetupBlock m start (mask16 usableSize), start)

/-- The size of the block that a request needs. -/
def neededSize (size : ℕ) : ℕ :=
  let needed := (mask16 ((size + 15) % 2 ^ 64) + heapHeaderSize) % 2 ^ 64
  if needed < minBlockSize then minBlockSize else needed

/-- Cut block `b` after `needed` bytes. -/
def splitBlock (m : Mem) (b needed : ℕ) : Mem :=
  let e := entryAt m b
  let newBlock := b + needed
  let m := setSize m newBlock (e.size - needed)
  let m := setUsed m newBlock 0
  let m := setNext m newBlock e.next
  let m := setPrev m newBlock b
  let m := if e.next ≠ 0 then setPrev m e.next newBlock else m
  setNext (setSize m b needed) b newBlock

/-- `xtHeapAlloc` in the heap that starts at `heapStart`: the new memory and the pointer,
    or nothing if no block fits. -/
def xtHeapAlloc (fuel : ℕ) (m : Mem) (heapStart size : ℕ) : Option (Option (Mem × ℕ)) :=
  let needed := neededSize size
  match scan 0 (fun b => (entryAt m b).next)
      (fun b => (entryAt m b).used = 0 ∧ needed ≤ (entryAt m b).size) fuel 0 heapStart with
  | none => none
  | some (_, b) =>
    if b = 0 then some none
    else
      let m := if (needed + minBlockSize) % 2 ^ 64 ≤ (entryAt m b).size
        then splitBlock m b needed else m
      some (some (setUsed m b 1, b + heapHeaderSize))

/-- Join block `b` with the block `c` behind it. -/
def absorb (m : Mem) (b c : ℕ) : Mem :=
  let e := entryAt m c
  let m := setSize m b ((entryAt m b).size + e.size)
  let m := setNext m b e.next
  if e.next ≠ 0 then setPrev m e.next b else m

/-- Join a block with a free one before it; the block to go on with. -/
def joinPrev (m : Mem) (block : ℕ) : Mem × ℕ :=
  let prev := (entryAt m block).prev
  if prev ≠ 0 ∧ (entryAt m prev).used = 0 then (absorb m prev block, prev) else (m, block)

/-- Join a block with a free one behind it. -/
def joinNext (m : Mem) (block : ℕ) : Mem :=
  let next := (entryAt m block).next
  if next ≠ 0 ∧ (entryAt m next).used = 0 then absorb m block next else m

/-- `xtHeapFree`. -/
def xtHeapFree (m : Mem) (ptr : ℕ) : Mem × XTResult :=
  if ptr = 0 then (m, .invalidParameter)
  else
    let block := ptr - heapHeaderSize
    if (entryAt m block).used = 0 then (m, .invalidParameter)
    else
      let (m, block) := joinPrev (setUsed m block 0) block
      (joinNext m block, .success)

/-! ### Headers in memory -/

theorem entryAt_congr {m m' : Mem} {b : ℕ} (h : ∀ i, b ≤ i → i < b + 32 → m' i = m i) :
    entryAt m' b = entryAt m b := by
  have h8 : ∀ k w, k + w ≤ 32 → loadLE m' (b + k) w = loadLE m (b + k) w := fun k w hk =>
    loadLE_congr fun i h1 h2 => h i (by omega) (by omega)
  have h0 := h8 0 8 (by omega)
  rw [add_zero] at h0
  simp only [entryAt, h0, h8 8 1 (by omega), h8 16 8 (by omega), h8 24 8 (by omega)]

theorem setSize_outside (m : Mem) {b i : ℕ} (v : ℕ) (h : i < b ∨ b + 32 ≤ i) :
    setSize m b v i = m i := storeLE_outside m v (by omega)

theorem setUsed_outside (m : Mem) {b i : ℕ} (v : ℕ) (h : i < b ∨ b + 32 ≤ i) :
    setUsed m b v i = m i := storeLE_outside m v (by omega)

theorem setNext_outside (m : Mem) {b i : ℕ} (v : ℕ) (h : i < b ∨ b + 32 ≤ i) :
    setNext m b v i = m i := storeLE_outside m v (by omega)

theorem setPrev_outside (m : Mem) {b i : ℕ} (v : ℕ) (h : i < b ∨ b + 32 ≤ i) :
    setPrev m b v i = m i := storeLE_outside m v (by omega)

theorem entryAt_setSize (m : Mem) (b : ℕ) {v : ℕ} (hv : v < 2 ^ 64) :
    entryAt (setSize m b v) b = { entryAt m b with size := v } := by
  simp only [entryAt, setSize]
  rw [loadLE_storeLE_same m b 8 (by omega), loadLE_storeLE_disjoint m (by omega),
    loadLE_storeLE_disjoint m (by omega), loadLE_storeLE_disjoint m (by omega)]

theorem entryAt_setUsed (m : Mem) (b : ℕ) {v : ℕ} (hv : v < 2 ^ 8) :
    entryAt (setUsed m b v) b = { entryAt m b with used := v } := by
  simp only [entryAt, setUsed]
  rw [loadLE_storeLE_same m (b + 8) 1 (by omega), loadLE_storeLE_disjoint m (by omega),
    loadLE_storeLE_disjoint m (by omega), loadLE_storeLE_disjoint m (by omega)]

theorem entryAt_setNext (m : Mem) (b : ℕ) {v : ℕ} (hv : v < 2 ^ 64) :
    entryAt (setNext m b v) b = { entryAt m b with next := v } := by
  simp only [entryAt, setNext]
  rw [loadLE_storeLE_same m (b + 16) 8 (by omega), loadLE_storeLE_disjoint m (by omega),
    loadLE_storeLE_disjoint m (by omega), loadLE_storeLE_disjoint m (by omega)]

theorem entryAt_setPrev (m : Mem) (b : ℕ) {v : ℕ} (hv : v < 2 ^ 64) :
    entryAt (setPrev m b v) b = { entryAt m b with prev := v } := by
  simp only [entryAt, setPrev]
  rw [loadLE_storeLE_same m (b + 24) 8 (by omega), loadLE_storeLE_disjoint m (by omega),
    loadLE_storeLE_disjoint m (by omega), loadLE_storeLE_disjoint m (by omega)]

/-! ### Stretches of blocks -/

/-- A block: its size, and the number of bytes its owner asked for if it is used. -/
structure Block where
  size : ℕ
  req : Option ℕ
  deriving DecidableEq, Repr

/-- The `used` field of a block. -/
def Block.used (b : Block) : ℕ := if b.req.isSome then 1 else 0

/-- Where a stretch of blocks from `a` on ends. -/
def endAddr (a : ℕ) : List Block → ℕ
  | [] => a
  | b :: bs => endAddr (a + b.size) bs

/-- The last block of a stretch, or the block before an empty one. -/
def lastAddr (prev a : ℕ) : List Block → ℕ
  | [] => prev
  | b :: bs => lastAddr a (a + b.size) bs

/-- The first block of a stretch, or what comes behind an empty one. -/
def firstAddr (a nxt : ℕ) : List Block → ℕ
  | [] => nxt
  | _ :: _ => a

/-- The blocks `bs` lie one behind the other from `a` on, each with its header; `prev`
    comes before them and `nxt` behind them. -/
def Seg (m : Mem) (nxt : ℕ) : ℕ → ℕ → List Block → Prop
  | _, _, [] => True
  | prev, a, b :: bs =>
    entryAt m a = ⟨b.size, b.used, firstAddr (a + b.size) nxt bs, prev⟩ ∧
      Seg m nxt a (a + b.size) bs

section seg

variable {m m' : Mem} {nxt prev a : ℕ} {b : Block} {bs xs ys : List Block}

@[simp] theorem endAddr_append (a : ℕ) (xs ys : List Block) :
    endAddr a (xs ++ ys) = endAddr (endAddr a xs) ys := by
  induction xs generalizing a with
  | nil => rfl
  | cons x xs ih => exact ih (a + x.size)

theorem endAddr_eq (a : ℕ) (bs : List Block) : endAddr a bs = a + (bs.map Block.size).sum := by
  induction bs generalizing a with
  | nil => rfl
  | cons b bs ih => rw [endAddr, ih, List.map_cons, List.sum_cons, add_assoc]

theorem le_endAddr (a : ℕ) (bs : List Block) : a ≤ endAddr a bs := by
  rw [endAddr_eq]
  exact Nat.le_add_right _ _

@[simp] theorem lastAddr_append_singleton (prev a : ℕ) (xs : List Block) (b : Block) :
    lastAddr prev a (xs ++ [b]) = endAddr a xs := by
  induction xs generalizing prev a with
  | nil => rfl
  | cons x xs ih => exact ih a (a + x.size)

theorem seg_append : Seg m nxt prev a (xs ++ ys) ↔
    Seg m (firstAddr (endAddr a xs) nxt ys) prev a xs ∧
      Seg m nxt (lastAddr prev a xs) (endAddr a xs) ys := by
  induction xs generalizing prev a with
  | nil => simp [Seg, endAddr, lastAddr]
  | cons x xs ih =>
    have hfirst : firstAddr (a + x.size) nxt (xs ++ ys) =
        firstAddr (a + x.size) (firstAddr (endAddr (a + x.size) xs) nxt ys) xs := by
      cases xs with
      | nil => rfl
      | cons _ _ => rfl
    rw [List.cons_append, Seg, Seg, ih, hfirst, and_assoc]
    rfl

/-- A stretch only depends on the memory it covers. -/
theorem Seg.congr (h : Seg m nxt prev a bs) (hsize : ∀ b ∈ bs, 32 ≤ b.size)
    (hm : ∀ i, a ≤ i → i < endAddr a bs → m' i = m i) : Seg m' nxt prev a bs := by
  induction bs generalizing prev a with
  | nil => trivial
  | cons b bs ih =>
    have hb := hsize b List.mem_cons_self
    have hle := le_endAddr (a + b.size) bs
    refine ⟨?_, ih h.2 (fun c hc => hsize c (List.mem_cons_of_mem _ hc)) ?_⟩
    · rw [entryAt_congr fun i h1 h2 => hm i h1 (by
        rw [endAddr]
        omega)]
      exact h.1
    · intro i h1 h2
      exact hm i (by omega) h2

/-- The header of a block in the middle. -/
theorem Seg.entry (h : Seg m nxt prev a (xs ++ b :: ys)) :
    entryAt m (endAddr a xs) = ⟨b.size, b.used,
      firstAddr (endAddr a xs + b.size) nxt ys, lastAddr prev a xs⟩ :=
  (seg_append.mp h).2.1

/-- Changing the back link of the first block. -/
theorem Seg.setPrev (h : Seg m nxt prev a (b :: bs)) (hsize : ∀ c ∈ b :: bs, 32 ≤ c.size)
    {v : ℕ} (hv : v < 2 ^ 64) : Seg (setPrev m a v) nxt v a (b :: bs) := by
  have hb := hsize b List.mem_cons_self
  refine ⟨?_, ?_⟩
  · rw [entryAt_setPrev m a hv, h.1]
  · exact h.2.congr (fun c hc => hsize c (List.mem_cons_of_mem _ hc)) fun i h1 _ =>
      setPrev_outside m v (by omega)

/-- Marking a block in the middle as used or free. -/
theorem Seg.setUsed (h : Seg m nxt prev a (xs ++ b :: ys))
    (hsize : ∀ c ∈ xs ++ b :: ys, 32 ≤ c.size) (req : Option ℕ) :
    Seg (setUsed m (endAddr a xs) (Block.used ⟨b.size, req⟩)) nxt prev a
      (xs ++ ⟨b.size, req⟩ :: ys) := by
  obtain ⟨hxs, hb, hys⟩ := seg_append.mp h
  have hbs := hsize b (by simp)
  have hv : Block.used ⟨b.size, req⟩ < 2 ^ 8 := by
    unfold Block.used
    split <;> decide
  refine seg_append.mpr ⟨?_, ?_, ?_⟩
  · exact hxs.congr (fun c hc => hsize c (by simp [hc])) fun i _ h2 =>
      setUsed_outside m _ (.inl h2)
  · rw [entryAt_setUsed m _ hv, hb]
  · exact hys.congr (fun c hc => hsize c (by simp [hc])) fun i h1 _ =>
      setUsed_outside m _ (by omega)

/-- A header written field by field. -/
theorem entryAt_setAll (m : Mem) (b : ℕ) {e : XTHeapEntry} (h1 : e.size < 2 ^ 64)
    (h2 : e.used < 2 ^ 8) (h3 : e.next < 2 ^ 64) (h4 : e.prev < 2 ^ 64) :
    entryAt (Heap.setPrev (setNext (Heap.setUsed (setSize m b e.size) b e.used) b e.next)
      b e.prev) b = e := by
  rw [entryAt_setPrev _ _ h4, entryAt_setNext _ _ h3, entryAt_setUsed _ _ h2,
    entryAt_setSize _ _ h1]

/-- Giving the blocks behind a stretch a new predecessor, as the code does if there are
    any. -/
theorem Seg.relink {z v : ℕ} (h : Seg m 0 prev z ys) (hz : z ≠ 0)
    (hsize : ∀ c ∈ ys, 32 ≤ c.size) (hv : v < 2 ^ 64) :
    Seg (if firstAddr z 0 ys ≠ 0 then Heap.setPrev m (firstAddr z 0 ys) v else m) 0 v z ys := by
  cases ys with
  | nil => trivial
  | cons y ys =>
    rw [firstAddr, if_pos hz]
    exact h.setPrev hsize hv

/-- Relinking the blocks from `z` on leaves the memory before them. -/
theorem relink_below {z v i : ℕ} (hi : i < z) :
    (if firstAddr z 0 ys ≠ 0 then Heap.setPrev m (firstAddr z 0 ys) v else m) i = m i := by
  cases ys with
  | nil => rfl
  | cons y ys =>
    rw [firstAddr]
    split
    · exact setPrev_outside m v (.inl hi)
    · rfl

/-- The link behind a stretch of blocks that ends inside the address space. -/
theorem firstAddr_lt {z : ℕ} (hsize : ∀ c ∈ ys, 32 ≤ c.size) (hend : endAddr z ys ≤ 2 ^ 64) :
    firstAddr z 0 ys < 2 ^ 64 := by
  cases ys with
  | nil => exact Nat.two_pow_pos 64
  | cons y ys =>
    have hy := hsize y List.mem_cons_self
    have hle := le_endAddr (z + y.size) ys
    rw [endAddr] at hend
    rw [firstAddr]
    omega

/-- Cutting a free block in two. -/
theorem Seg.split {n : ℕ} (h : Seg m 0 prev a (xs ++ b :: ys)) (hfree : b.req = none)
    (hsize : ∀ c ∈ xs ++ b :: ys, 32 ≤ c.size) (hn : 32 ≤ n) (hnb : n + 32 ≤ b.size)
    (hend : endAddr a (xs ++ b :: ys) ≤ 2 ^ 64) :
    Seg (splitBlock m (endAddr a xs) n) 0 prev a
      (xs ++ ⟨n, none⟩ :: ⟨b.size - n, none⟩ :: ys) := by
  obtain ⟨hxs, hb, hys⟩ := seg_append.mp h
  rw [endAddr_append, endAddr] at hend
  have hle := le_endAddr (endAddr a xs + b.size) ys
  generalize hX : endAddr a xs = X at hxs hb hys hend hle
  have hused : b.used = 0 := by simp [Block.used, hfree]
  have hnext := firstAddr_lt (fun c hc => hsize c (by simp [hc])) hend
  unfold splitBlock
  simp only [hb]
  -- the new header, then the link from behind it, then the old header
  have hnew := @entryAt_setAll m (X + n)
    ⟨b.size - n, 0, firstAddr (X + b.size) 0 ys, X⟩ (by dsimp only; omega)
    (Nat.two_pow_pos 8) hnext (by dsimp only; omega)
  have hm1 : ∀ i, i < X + n ∨ X + n + 32 ≤ i →
      Heap.setPrev (setNext (Heap.setUsed (setSize m (X + n) (b.size - n)) (X + n) 0) (X + n)
        (firstAddr (X + b.size) 0 ys)) (X + n) X i = m i := by
    intro i hi
    rw [setPrev_outside _ _ hi, setNext_outside _ _ hi, setUsed_outside _ _ hi,
      setSize_outside _ _ hi]
  dsimp only at hnew
  generalize Heap.setPrev (setNext (Heap.setUsed (setSize m (X + n) (b.size - n)) (X + n) 0)
    (X + n) (firstAddr (X + b.size) 0 ys)) (X + n) X = m1 at hnew hm1 ⊢
  have hys1 : Seg m1 0 X (X + b.size) ys := hys.congr (fun c hc => hsize c (by simp [hc]))
    fun i h1 _ => hm1 i (by omega)
  have hys2 := @Seg.relink m1 X ys _ (X + n) hys1 (by omega)
    (fun c hc => hsize c (by simp [hc])) (by omega)
  have hm2 := fun i hi => @relink_below m1 ys (X + b.size) (X + n) i hi
  generalize (if firstAddr (X + b.size) 0 ys ≠ 0 then
    Heap.setPrev m1 (firstAddr (X + b.size) 0 ys) (X + n) else m1) = m2 at hys2 hm2 ⊢
  have hm3 : ∀ i, i < X ∨ X + 32 ≤ i → setNext (setSize m2 X n) X (X + n) i = m2 i := by
    intro i hi
    rw [setNext_outside _ _ hi, setSize_outside _ _ hi]
  refine seg_append.mpr ⟨?_, ?_, ?_, ?_⟩
  · rw [hX]
    refine hxs.congr (fun c hc => hsize c (by simp [hc])) fun i _ h2 => ?_
    rw [hX] at h2
    rw [hm3 i (.inl h2), hm2 i (by omega), hm1 i (by omega)]
  · rw [hX, entryAt_setNext _ _ (by omega), entryAt_setSize _ _ (by omega),
      entryAt_congr fun i _ h2 => (hm2 i (by omega)).trans (hm1 i (by omega)), hb, hused]
    rfl
  · rw [hX, entryAt_congr fun i h1 h2 => (hm3 i (by dsimp only at h1; omega)).trans
      (hm2 i (by dsimp only at h2; omega)), hnew]
    dsimp only
    rw [show X + n + (b.size - n) = X + b.size by omega]
    rfl
  · rw [hX]
    dsimp only
    rw [show X + n + (b.size - n) = X + b.size by omega]
    exact hys2.congr (fun c hc => hsize c (by simp [hc])) fun i h1 _ => hm3 i (by omega)

/-- Joining two free blocks. -/
theorem Seg.absorb {c : Block} (h : Seg m 0 prev a (xs ++ b :: c :: ys)) (hfree : b.req = none)
    (hsize : ∀ d ∈ xs ++ b :: c :: ys, 32 ≤ d.size)
    (hend : endAddr a (xs ++ b :: c :: ys) ≤ 2 ^ 64) (hsum : b.size + c.size < 2 ^ 64) :
    Seg (absorb m (endAddr a xs) (endAddr a xs + b.size)) 0 prev a
      (xs ++ ⟨b.size + c.size, none⟩ :: ys) := by
  obtain ⟨hxs, hb, hc, hys⟩ := seg_append.mp h
  rw [endAddr_append, endAddr, endAddr] at hend
  have hle := le_endAddr (endAddr a xs + b.size + c.size) ys
  have hbs := hsize b (by simp)
  have hcs := hsize c (by simp)
  have hsize' : ∀ d ∈ ys, 32 ≤ d.size := fun d hd => hsize d (by simp [hd])
  have hnext := firstAddr_lt hsize' hend
  generalize hX : endAddr a xs = X at hxs hb hc hys hend hle hnext
  have hused : b.used = 0 := by simp [Block.used, hfree]
  unfold Heap.absorb
  simp only [hb, hc]
  have hm2 : ∀ i, i < X ∨ X + 32 ≤ i → setNext (setSize m X (b.size + c.size)) X
      (firstAddr (X + b.size + c.size) 0 ys) i = m i := by
    intro i hi
    rw [setNext_outside _ _ hi, setSize_outside _ _ hi]
  have hb2 : entryAt (setNext (setSize m X (b.size + c.size)) X
      (firstAddr (X + b.size + c.size) 0 ys)) X =
      ⟨b.size + c.size, 0, firstAddr (X + b.size + c.size) 0 ys, lastAddr prev a xs⟩ := by
    rw [entryAt_setNext _ _ hnext, entryAt_setSize _ _ hsum, hb, hused]
  generalize setNext (setSize m X (b.size + c.size)) X
    (firstAddr (X + b.size + c.size) 0 ys) = m2 at hm2 hb2 ⊢
  have hys2 : Seg m2 0 (X + b.size) (X + b.size + c.size) ys :=
    hys.congr hsize' fun i h1 _ => hm2 i (by omega)
  have hys3 := @Seg.relink m2 (X + b.size) ys _ X hys2 (by omega) hsize' (by omega)
  have hm3 := fun i hi => @relink_below m2 ys (X + b.size + c.size) X i hi
  generalize (if firstAddr (X + b.size + c.size) 0 ys ≠ 0 then
    Heap.setPrev m2 (firstAddr (X + b.size + c.size) 0 ys) X else m2) = m3 at hys3 hm3 ⊢
  refine seg_append.mpr ⟨?_, ?_, ?_⟩
  · rw [hX]
    refine hxs.congr (fun d hd => hsize d (by simp [hd])) fun i _ h2 => ?_
    rw [hX] at h2
    rw [hm3 i (by omega), hm2 i (.inl h2)]
  · rw [hX, entryAt_congr fun i _ h2 => hm3 i (by omega), hb2, ← add_assoc]
    rfl
  · rw [hX]
    dsimp only
    rwa [← add_assoc]

end seg

/-! ### The whole heap -/

/-- One of two neighbours is used. -/
def OneUsed (b c : Block) : Prop := b.req ≠ none ∨ c.req ≠ none

/-- A region a heap can lie in. -/
structure Region (start total : ℕ) : Prop where
  start_ne : start ≠ 0
  aligned : 16 ∣ start
  pos : 0 < total
  small : total < 2 ^ 63
  ends : start + total ≤ 2 ^ 64

theorem Region.lt {start total : ℕ} (h : Region start total) : total < 2 ^ 64 := by
  have := h.small
  omega

/-- The blocks from `start` on fill `total` bytes and have well-formed sizes. -/
structure Blocks (m : Mem) (start total : ℕ) (bs : List Block) : Prop where
  seg : Seg m 0 0 start bs
  sizes : ∀ b ∈ bs, 16 ∣ b.size ∧ minBlockSize ≤ b.size
  req : ∀ b ∈ bs, ∀ n, b.req = some n → n + heapHeaderSize ≤ b.size
  total : (bs.map Block.size).sum = total

/-- Also no two neighbours are free. -/
structure Tiled (m : Mem) (start total : ℕ) (bs : List Block) : Prop extends
    Blocks m start total bs where
  neighbours : bs.IsChain OneUsed

/-- The pointers to the payloads of the used blocks, with the bytes asked for. -/
def livePtrs (a : ℕ) : List Block → List (ℕ × ℕ)
  | [] => []
  | b :: bs =>
    match b.req with
    | some n => (a + heapHeaderSize, n) :: livePtrs (a + b.size) bs
    | none => livePtrs (a + b.size) bs

/-- The addresses of the blocks. -/
def addrs (a : ℕ) : List Block → List ℕ
  | [] => []
  | b :: bs => a :: addrs (a + b.size) bs

theorem livePtrs_append (a : ℕ) (xs ys : List Block) :
    livePtrs a (xs ++ ys) = livePtrs a xs ++ livePtrs (endAddr a xs) ys := by
  induction xs generalizing a with
  | nil => rfl
  | cons x xs ih =>
    cases hx : x.req with
    | none => simp [livePtrs, hx, ih, endAddr]
    | some n => simp [livePtrs, hx, ih, endAddr]

/-- A block found by its address. -/
theorem exists_of_addrs_eq {a y : ℕ} {bs : List Block} {pre post : List ℕ}
    (h : addrs a bs = pre ++ y :: post) : ∃ xs b ys, bs = xs ++ b :: ys ∧ y = endAddr a xs := by
  induction bs generalizing a pre with
  | nil => simp [addrs] at h
  | cons b bs ih =>
    cases pre with
    | nil =>
      rw [addrs, List.nil_append, List.cons.injEq] at h
      exact ⟨[], b, bs, rfl, h.1.symm⟩
    | cons p pre =>
      rw [addrs, List.cons_append, List.cons.injEq] at h
      obtain ⟨xs, c, ys, rfl, hy⟩ := ih h.2
      exact ⟨b :: xs, c, ys, rfl, hy⟩

/-- A live pointer belongs to a used block. -/
theorem exists_of_mem_livePtrs {a p n : ℕ} {bs : List Block} (h : (p, n) ∈ livePtrs a bs) :
    ∃ xs b ys, bs = xs ++ b :: ys ∧ b.req = some n ∧ p = endAddr a xs + heapHeaderSize := by
  induction bs generalizing a with
  | nil => simp [livePtrs] at h
  | cons b bs ih =>
    have hrest : (p, n) ∈ livePtrs (a + b.size) bs → ∃ xs c ys, b :: bs = xs ++ c :: ys ∧
        c.req = some n ∧ p = endAddr a xs + heapHeaderSize := by
      intro h
      obtain ⟨xs, c, ys, rfl, hc, hp⟩ := ih h
      exact ⟨b :: xs, c, ys, rfl, hc, hp⟩
    cases hb : b.req with
    | none =>
      rw [livePtrs, hb] at h
      exact hrest h
    | some k =>
      rw [livePtrs, hb] at h
      obtain h | h := List.mem_cons.mp h
      · cases h
        exact ⟨[], b, bs, rfl, hb, rfl⟩
      · exact hrest h

/-- The links of the headers make a list of all blocks. -/
theorem Seg.linked {m : Mem} {prev a : ℕ} {bs : List Block} (h : Seg m 0 prev a bs)
    (ha : a ≠ 0) :
    Linked 0 (fun b => (entryAt m b).next) (firstAddr a 0 bs) (addrs a bs) 0 := by
  induction bs generalizing prev a with
  | nil => rfl
  | cons b bs ih =>
    refine ⟨rfl, ha, ?_⟩
    change Linked 0 _ (entryAt m a).next _ 0
    rw [h.1]
    exact ih h.2 (by omega)

/-- The neighbours of a block in the middle. -/
theorem neighbours_middle {b : Block} {xs ys : List Block} :
    (xs ++ b :: ys).IsChain OneUsed ↔ xs.IsChain OneUsed ∧ ys.IsChain OneUsed ∧
      (∀ x ∈ xs.getLast?, OneUsed x b) ∧ ∀ y ∈ ys.head?, OneUsed b y := by
  rw [List.isChain_append, List.isChain_cons]
  simp
  tauto

/-! ### Sizes -/

theorem mask16_eq {x : ℕ} (hx : x < 2 ^ 64) : mask16 x = x / 16 * 16 := by
  have hmask := and_mask x (show 4 ≤ 64 by decide)
  rwa [Nat.mod_eq_of_lt hx] at hmask

/-- The block for a request has a proper size and room for it. -/
theorem neededSize_spec {size : ℕ} (h : size ≤ 2 ^ 64 - 64) :
    16 ∣ neededSize size ∧ minBlockSize ≤ neededSize size ∧
      size + heapHeaderSize ≤ neededSize size := by
  have hmod : (size + 15) % 2 ^ 64 = size + 15 := Nat.mod_eq_of_lt (by omega)
  have hmask := mask16_eq (show size + 15 < 2 ^ 64 by omega)
  unfold neededSize
  simp only [hmod, hmask, heapHeaderSize, minBlockSize]
  rw [Nat.mod_eq_of_lt (show (size + 15) / 16 * 16 + 32 < 2 ^ 64 by omega)]
  split <;> omega

/-! ### Headers and payloads -/

section frame

variable {m m' : Mem} {start total a : ℕ} {bs xs ys : List Block} {b : Block}

theorem addrs_append (a : ℕ) (xs ys : List Block) :
    addrs a (xs ++ ys) = addrs a xs ++ addrs (endAddr a xs) ys := by
  induction xs generalizing a with
  | nil => rfl
  | cons x xs ih => rw [List.cons_append, addrs, ih, addrs, endAddr, List.cons_append]

/-- A byte of the header of a block. -/
def InHeader (a : ℕ) (bs : List Block) (i : ℕ) : Prop := ∃ x ∈ addrs a bs, x ≤ i ∧ i < x + 32

theorem inHeader_cons {i : ℕ} :
    InHeader a (b :: bs) i ↔ (a ≤ i ∧ i < a + 32) ∨ InHeader (a + b.size) bs i := by
  simp [InHeader, addrs]

theorem inHeader_append {i : ℕ} :
    InHeader a (xs ++ ys) i ↔ InHeader a xs i ∨ InHeader (endAddr a xs) ys i := by
  simp [InHeader, addrs_append, or_and_right, exists_or]

/-- Headers lie in the stretch. -/
theorem InHeader.range {i : ℕ} (hsize : ∀ b ∈ bs, 32 ≤ b.size) (h : InHeader a bs i) :
    a ≤ i ∧ i < endAddr a bs := by
  induction bs generalizing a with
  | nil => simp [InHeader, addrs] at h
  | cons b bs ih =>
    have hb := hsize b List.mem_cons_self
    have hle := le_endAddr (a + b.size) bs
    rw [endAddr]
    obtain h | h := inHeader_cons.mp h
    · omega
    · have := ih (fun c hc => hsize c (List.mem_cons_of_mem _ hc)) h
      omega

/-- Headers and payloads are apart. -/
theorem not_inHeader_of_livePtr {p n i : ℕ} (hreq : ∀ b ∈ bs, ∀ n, b.req = some n → n + 32 ≤ b.size)
    (hsize : ∀ b ∈ bs, 32 ≤ b.size) (hp : (p, n) ∈ livePtrs a bs) (h1 : p ≤ i) (h2 : i < p + n) :
    ¬ InHeader a bs i := by
  obtain ⟨xs, b, ys, rfl, hb, rfl⟩ := exists_of_mem_livePtrs hp
  have hroom := hreq b (by simp) n hb
  rw [heapHeaderSize] at h1 h2
  rw [inHeader_append, inHeader_cons]
  rintro (h | h | h)
  · have := h.range fun c hc => hsize c (by simp [hc])
    omega
  · omega
  · have := h.range fun c hc => hsize c (by simp [hc])
    omega

/-- A stretch depends on the headers only. -/
theorem Seg.congr_headers {nxt prev : ℕ} (h : Seg m nxt prev a bs)
    (hm : ∀ i, InHeader a bs i → m' i = m i) : Seg m' nxt prev a bs := by
  induction bs generalizing prev a with
  | nil => trivial
  | cons b bs ih =>
    refine ⟨?_, ih h.2 fun i hi => hm i (inHeader_cons.mpr (.inr hi))⟩
    rw [entryAt_congr fun i h1 h2 => hm i (inHeader_cons.mpr (.inl ⟨h1, h2⟩))]
    exact h.1

theorem Tiled.congr_headers (h : Tiled m start total bs)
    (hm : ∀ i, InHeader start bs i → m' i = m i) : Tiled m' start total bs :=
  ⟨⟨h.seg.congr_headers hm, h.sizes, h.req, h.total⟩, h.neighbours⟩

/-- Cutting a block writes its header, that of the new block and that of the next one. -/
theorem splitBlock_outside {b n i : ℕ} (hb : i < b ∨ b + 32 ≤ i)
    (hnew : i < b + n ∨ b + n + 32 ≤ i)
    (hnext : (entryAt m b).next = 0 ∨ i < (entryAt m b).next ∨ (entryAt m b).next + 32 ≤ i) :
    splitBlock m b n i = m i := by
  rw [splitBlock, setNext_outside _ _ hb, setSize_outside _ _ hb]
  split_ifs with h0
  · rw [setPrev_outside _ _ (hnext.resolve_left h0), setPrev_outside _ _ hnew,
      setNext_outside _ _ hnew, setUsed_outside _ _ hnew, setSize_outside _ _ hnew]
  · rw [setPrev_outside _ _ hnew, setNext_outside _ _ hnew, setUsed_outside _ _ hnew,
      setSize_outside _ _ hnew]

end frame

/-! ### Allocation -/

section alloc

variable {m m' : Mem} {start total : ℕ} {bs xs ys : List Block} {b : Block}

theorem Blocks.size_ge (h : Blocks m start total bs) : ∀ b ∈ bs, 32 ≤ b.size := by
  intro b hb
  have := (h.sizes b hb).2
  rw [minBlockSize, heapHeaderSize] at this
  omega

theorem Blocks.ends (h : Blocks m start total bs) : endAddr start bs = start + total := by
  rw [endAddr_eq, h.total]

/-- Some blocks in the middle are replaced by others that fill the same space. -/
theorem Blocks.replace {M N : List Block} (h : Blocks m start total (xs ++ M ++ ys))
    (hseg : Seg m' 0 0 start (xs ++ N ++ ys))
    (hsizes : ∀ c ∈ N, 16 ∣ c.size ∧ minBlockSize ≤ c.size)
    (hreq : ∀ c ∈ N, ∀ n, c.req = some n → n + heapHeaderSize ≤ c.size)
    (hsum : (N.map Block.size).sum = (M.map Block.size).sum) :
    Blocks m' start total (xs ++ N ++ ys) := by
  have hmem : ∀ c ∈ xs ++ N ++ ys, c ∈ N ∨ c ∈ xs ++ M ++ ys := by
    intro c hc
    simp only [List.mem_append] at hc ⊢
    tauto
  refine ⟨hseg, fun c hc => ?_, fun c hc => ?_, ?_⟩
  · exact (hmem c hc).elim (hsizes c) (h.sizes c)
  · exact (hmem c hc).elim (hreq c) (h.req c)
  · rw [← h.total]
    simp only [List.map_append, List.sum_append, hsum]

/-- A block of the middle and the bytes around it. -/
theorem Blocks.size_le (h : Blocks m start total (xs ++ b :: ys)) : b.size ≤ total := by
  have := h.total
  simp only [List.map_append, List.map_cons, List.sum_append, List.sum_cons] at this
  omega

/-- Marking a block used or free. -/
theorem Blocks.setUsed (h : Blocks m start total (xs ++ b :: ys)) (req : Option ℕ)
    (hroom : ∀ n, req = some n → n + heapHeaderSize ≤ b.size) :
    Blocks (setUsed m (endAddr start xs) (Block.used ⟨b.size, req⟩)) start total
      (xs ++ ⟨b.size, req⟩ :: ys) := by
  have hseg := h.seg.setUsed h.size_ge req
  rw [List.append_cons] at h hseg ⊢
  refine h.replace hseg ?_ ?_ rfl
  · simpa using h.sizes b (by simp)
  · simpa using hroom

/-- A free block that is large enough becomes used. -/
theorem Tiled.allocWhole (h : Tiled m start total (xs ++ b :: ys)) {n : ℕ}
    (hroom : n + heapHeaderSize ≤ b.size) :
    Tiled (setUsed m (endAddr start xs) 1) start total (xs ++ ⟨b.size, some n⟩ :: ys) := by
  obtain ⟨hxs, hys, -, -⟩ := neighbours_middle.mp h.neighbours
  refine ⟨h.setUsed (some n) ?_, ?_⟩
  · rintro k ⟨⟩
    exact hroom
  · exact neighbours_middle.mpr ⟨hxs, hys, fun _ _ => .inr (by simp), fun _ _ => .inl (by simp)⟩

/-- A free block is cut in two. -/
theorem Blocks.split (h : Blocks m start total (xs ++ b :: ys)) (hfree : b.req = none)
    (hend : start + total ≤ 2 ^ 64) {n : ℕ} (hdvd : 16 ∣ n) (hmin : minBlockSize ≤ n)
    (hle : n + minBlockSize ≤ b.size) :
    Blocks (splitBlock m (endAddr start xs) n) start total
      (xs ++ ⟨n, none⟩ :: ⟨b.size - n, none⟩ :: ys) := by
  have hb := h.sizes b (by simp)
  simp only [minBlockSize, heapHeaderSize] at hmin hle hb
  have hseg := h.seg.split hfree h.size_ge (show 32 ≤ n by omega) (by omega)
    (by rw [h.ends]; exact hend)
  have hlist : xs ++ ⟨n, none⟩ :: ⟨b.size - n, none⟩ :: ys =
      xs ++ [⟨n, none⟩, ⟨b.size - n, none⟩] ++ ys := by simp
  rw [List.append_cons] at h
  rw [hlist] at hseg ⊢
  refine h.replace hseg ?_ (by simp) ?_
  · simp only [List.forall_mem_cons, minBlockSize, heapHeaderSize]
    exact ⟨⟨hdvd, hmin⟩, ⟨Nat.dvd_sub hb.1 hdvd, by omega⟩, by simp⟩
  · simp
    omega

/-- A free block that is larger is cut and its front becomes used. -/
theorem Tiled.allocFront (h : Tiled m start total (xs ++ b :: ys)) (hfree : b.req = none)
    (hend : start + total ≤ 2 ^ 64) {n size : ℕ} (hdvd : 16 ∣ n) (hmin : minBlockSize ≤ n)
    (hroom : size + heapHeaderSize ≤ n) (hle : n + minBlockSize ≤ b.size) :
    Tiled (setUsed (splitBlock m (endAddr start xs) n) (endAddr start xs) 1) start total
      (xs ++ ⟨n, some size⟩ :: ⟨b.size - n, none⟩ :: ys) := by
  obtain ⟨hxs, hys, -, hnext⟩ := neighbours_middle.mp h.neighbours
  refine ⟨(h.split hfree hend hdvd hmin hle).setUsed (some size) ?_, ?_⟩
  · rintro k ⟨⟩
    exact hroom
  · refine neighbours_middle.mpr ⟨hxs, ?_, fun _ _ => .inr (by simp), fun _ _ => .inl (by simp)⟩
    rw [List.isChain_cons]
    refine ⟨fun y hy => ?_, hys⟩
    exact .inr ((hnext y hy).resolve_left (fun h => h hfree))

/-- Two free blocks become one. -/
theorem Blocks.absorb {c : Block} (h : Blocks m start total (xs ++ b :: c :: ys))
    (hb : b.req = none) (hend : start + total ≤ 2 ^ 64) (htotal : total < 2 ^ 64) :
    Blocks (absorb m (endAddr start xs) (endAddr start xs + b.size)) start total
      (xs ++ ⟨b.size + c.size, none⟩ :: ys) := by
  have hbs := h.sizes b (by simp)
  have hcs := h.sizes c (by simp)
  have hsum := h.total
  simp only [List.map_append, List.map_cons, List.sum_append, List.sum_cons] at hsum
  have hseg := h.seg.absorb hb h.size_ge (by rw [h.ends]; exact hend) (by omega)
  have hlist : xs ++ b :: c :: ys = xs ++ [b, c] ++ ys := by simp
  rw [hlist] at h
  rw [List.append_cons] at hseg ⊢
  refine h.replace hseg ?_ (by simp) (by simp)
  simp only [List.mem_singleton, forall_eq]
  exact ⟨Nat.dvd_add hbs.1 hcs.1, by omega⟩

/-- What an allocation finds: a free block with room for the request. It writes headers
    only. -/
theorem Tiled.xtHeapAlloc_frame (h : Tiled m start total bs) (hr : Region start total)
    {fuel size ptr : ℕ} (hsize : size ≤ 2 ^ 64 - 64)
    (hcall : xtHeapAlloc fuel m start size = some (some (m', ptr))) :
    ∃ bs', Tiled m' start total bs' ∧
      (livePtrs start bs').Perm ((ptr, size) :: livePtrs start bs) ∧
      ∀ i, ¬ InHeader start bs' i → m' i = m i := by
  obtain ⟨hdvd, hmin, hroom⟩ := neededSize_spec hsize
  obtain ⟨hstart, -, hpos, hsmall, hend⟩ := hr
  simp only [Heap.xtHeapAlloc] at hcall
  split at hcall
  · cases hcall
  rename_i prev X hscan
  split at hcall
  · cases hcall
  rename_i hX
  cases bs with
  | nil =>
    have := h.total
    simp at this
    omega
  | cons b0 bs0 =>
    have hlinked := h.seg.linked hstart
    rw [firstAddr] at hlinked
    obtain ⟨pre, post, hsplit, hr, -, hpost⟩ := hlinked.scan_split hscan
    cases hr
    cases post with
    | nil => simp at hX
    | cons y post =>
      obtain ⟨xs, b, ys, hbs, rfl⟩ := exists_of_addrs_eq hsplit
      have htest := hpost _ _ rfl
      rw [hbs] at h ⊢
      rw [decide_eq_true_eq, h.seg.entry] at htest
      rw [List.headD_cons, h.seg.entry] at hcall
      obtain ⟨hused, hle⟩ := htest
      have hfree : b.req = none := by
        cases hb : b.req with
        | none => rfl
        | some n => simp [Block.used, hb] at hused
      have hble := h.size_le
      dsimp only at hle hcall
      have hmod : (neededSize size + minBlockSize) % 2 ^ 64 = neededSize size + minBlockSize :=
        Nat.mod_eq_of_lt (by
          simp only [minBlockSize, heapHeaderSize]
          omega)
      rw [hmod] at hcall
      split at hcall
      · cases hcall
        refine ⟨_, h.allocFront hfree hend hdvd hmin hroom ‹_›, ?_, fun i hi => ?_⟩
        · rw [livePtrs_append, livePtrs_append]
          simp only [livePtrs, hfree]
          rw [show endAddr start xs + neededSize size + (b.size - neededSize size) =
            endAddr start xs + b.size by omega]
          exact List.perm_middle
        · rw [inHeader_append, inHeader_cons, inHeader_cons, not_or, not_or, not_or] at hi
          obtain ⟨-, hb, hnew, hys⟩ := hi
          dsimp only at hnew hys
          rw [setUsed_outside _ _ (by omega), splitBlock_outside (by omega) (by omega)]
          rw [h.seg.entry]
          dsimp only
          cases ys with
          | nil => exact .inl rfl
          | cons c ys =>
            rw [show endAddr start xs + neededSize size + (b.size - neededSize size) =
              endAddr start xs + b.size by omega, inHeader_cons, not_or] at hys
            refine .inr ?_
            rw [firstAddr]
            omega
      · cases hcall
        refine ⟨_, h.allocWhole (hroom.trans hle), ?_, fun i hi => ?_⟩
        · rw [livePtrs_append, livePtrs_append]
          simp only [livePtrs, hfree]
          exact List.perm_middle
        · rw [inHeader_append, inHeader_cons, not_or, not_or] at hi
          exact setUsed_outside _ _ (by omega)

theorem Tiled.xtHeapAlloc (h : Tiled m start total bs) (hr : Region start total)
    {fuel size ptr : ℕ} (hsize : size ≤ 2 ^ 64 - 64)
    (hcall : xtHeapAlloc fuel m start size = some (some (m', ptr))) :
    ∃ bs', Tiled m' start total bs' ∧
      (livePtrs start bs').Perm ((ptr, size) :: livePtrs start bs) := by
  obtain ⟨bs', htiled, hperm, -⟩ := h.xtHeapAlloc_frame hr hsize hcall
  exact ⟨bs', htiled, hperm⟩

theorem length_addrs (a : ℕ) (bs : List Block) : (addrs a bs).length = bs.length := by
  induction bs generalizing a with
  | nil => rfl
  | cons b bs ih => rw [addrs, List.length_cons, ih, List.length_cons]

/-- With more fuel than there are blocks the search ends. -/
theorem Tiled.xtHeapAlloc_isSome (h : Tiled m start total bs) (hr : Region start total)
    {fuel : ℕ} (hfuel : bs.length < fuel) (size : ℕ) :
    (Heap.xtHeapAlloc fuel m start size).isSome := by
  cases bs with
  | nil =>
    have htotal := h.total
    have hpos := hr.pos
    simp at htotal
    omega
  | cons b bs =>
    have hlinked := h.seg.linked hr.start_ne
    rw [firstAddr] at hlinked
    simp only [Heap.xtHeapAlloc]
    rw [hlinked.scan_eq _ 0 (by rwa [length_addrs])]
    dsimp only
    split <;> rfl

end alloc

/-! ### Freeing -/

section free

variable {m m' : Mem} {start total : ℕ} {bs xs ys : List Block} {b c q : Block}

theorem used_eq_zero : b.used = 0 ↔ b.req = none := by
  cases hb : b.req with
  | none => simp [Block.used, hb]
  | some n => simp [Block.used, hb]

/-- A free block is joined with a free one behind it. -/
theorem Blocks.next (h : Blocks m start total (xs ++ b :: ys)) (hr : Region start total)
    (hb : b.req = none) (hxs : xs.IsChain OneUsed) (hys : ys.IsChain OneUsed)
    (hlast : ∀ x ∈ xs.getLast?, x.req ≠ none) :
    ∃ bs', Tiled (joinNext m (endAddr start xs)) start total bs' ∧
      livePtrs start bs' = livePtrs start (xs ++ b :: ys) := by
  have hprev : ∀ {d : Block}, ∀ x ∈ xs.getLast?, OneUsed x d := fun x hx => .inl (hlast x hx)
  rw [joinNext, h.seg.entry]
  cases ys with
  | nil =>
    rw [firstAddr, if_neg (by simp)]
    exact ⟨_, ⟨h, neighbours_middle.mpr ⟨hxs, hys, hprev, by simp⟩⟩, rfl⟩
  | cons c ys =>
    have hc : entryAt m (endAddr start xs + b.size) = _ := (seg_append.mp h.seg).2.2.1
    have hpos := h.size_ge b (by simp)
    rw [firstAddr, hc]
    dsimp only
    by_cases hfree : c.req = none
    · rw [if_pos ⟨by omega, used_eq_zero.mpr hfree⟩]
      refine ⟨_, ⟨h.absorb hb hr.ends hr.lt, ?_⟩, ?_⟩
      · rw [List.isChain_cons] at hys
        refine neighbours_middle.mpr ⟨hxs, hys.2, hprev, fun y hy => .inr ?_⟩
        exact (hys.1 y hy).resolve_left fun h => h hfree
      · rw [livePtrs_append, livePtrs_append]
        simp [livePtrs, hb, hfree, add_assoc]
    · rw [if_neg (by
        rintro ⟨-, hused⟩
        exact hfree (used_eq_zero.mp hused))]
      refine ⟨_, ⟨h, neighbours_middle.mpr ⟨hxs, hys, hprev, ?_⟩⟩, rfl⟩
      rintro y ⟨⟩
      exact .inr hfree

/-- A free block is joined with a free one before it: then no free block is before it. -/
theorem Blocks.prev (h : Blocks m start total (xs ++ b :: ys)) (hr : Region start total)
    (hb : b.req = none) (hxs : xs.IsChain OneUsed) :
    ∃ front d, (joinPrev m (endAddr start xs)).2 = endAddr start front ∧
      Blocks (joinPrev m (endAddr start xs)).1 start total (front ++ d :: ys) ∧
      d.req = none ∧ front.IsChain OneUsed ∧ (∀ x ∈ front.getLast?, x.req ≠ none) ∧
      livePtrs start (front ++ d :: ys) = livePtrs start (xs ++ b :: ys) := by
  rw [joinPrev, h.seg.entry]
  obtain rfl | ⟨front, q, rfl⟩ := List.eq_nil_or_concat' xs
  · rw [lastAddr, if_neg (by simp)]
    exact ⟨[], b, rfl, h, hb, hxs, by simp, rfl⟩
  · have hend : endAddr start (front ++ [q]) = endAddr start front + q.size := by
      rw [endAddr_append]
      rfl
    rw [lastAddr_append_singleton, hend]
    rw [List.append_assoc, List.singleton_append] at h ⊢
    have hne : endAddr start front ≠ 0 := by
      have := le_endAddr start front
      have := hr.start_ne
      omega
    have hchain := List.isChain_append.mp hxs
    rw [h.seg.entry]
    dsimp only
    by_cases hfree : q.req = none
    · rw [if_pos ⟨hne, used_eq_zero.mpr hfree⟩]
      have habsorb := h.absorb hfree hr.ends hr.lt
      dsimp only
      refine ⟨front, ⟨q.size + b.size, none⟩, rfl, habsorb, rfl, hchain.1, fun x hx => ?_, ?_⟩
      · exact (hchain.2.2 x hx q rfl).resolve_right fun h => h hfree
      · rw [livePtrs_append, livePtrs_append]
        simp [livePtrs, hb, hfree, add_assoc]
    · rw [if_neg (by
        rintro ⟨-, hused⟩
        exact hfree (used_eq_zero.mp hused))]
      refine ⟨front ++ [q], b, hend.symm, by simpa using h, hb, hxs, ?_, by simp⟩
      intro x hx
      rw [List.getLast?_concat, Option.mem_some_iff] at hx
      rw [← hx]
      exact hfree

/-- Freeing a used block. -/
theorem Tiled.xtHeapFree (h : Tiled m start total (xs ++ b :: ys)) (hr : Region start total)
    {n : ℕ} (hb : b.req = some n) :
    (xtHeapFree m (endAddr start xs + heapHeaderSize)).2 = .success ∧
    ∃ bs', Tiled (xtHeapFree m (endAddr start xs + heapHeaderSize)).1 start total bs' ∧
      livePtrs start bs' = livePtrs start xs ++ livePtrs (endAddr start xs + b.size) ys := by
  obtain ⟨hxs, hys, -, -⟩ := neighbours_middle.mp h.neighbours
  have hne : endAddr start xs + heapHeaderSize ≠ 0 := by
    rw [heapHeaderSize]
    omega
  have hused : (entryAt m (endAddr start xs)).used ≠ 0 := by
    rw [h.seg.entry]
    simp [used_eq_zero, hb]
  have hfree := h.setUsed none (by simp)
  rw [used_eq_zero.mpr rfl] at hfree
  obtain ⟨front, d, hfront, hblocks, hd, hchain, hlast, hlive⟩ := hfree.prev hr rfl hxs
  obtain ⟨bs', htiled, hlive'⟩ := hblocks.next hr hd hchain hys hlast
  have hcall : Heap.xtHeapFree m (endAddr start xs + heapHeaderSize) =
      (joinNext (joinPrev (setUsed m (endAddr start xs) 0) (endAddr start xs)).1
        (joinPrev (setUsed m (endAddr start xs) 0) (endAddr start xs)).2, .success) := by
    rw [Heap.xtHeapFree, if_neg hne, Nat.add_sub_cancel, if_neg hused]
  rw [hcall]
  dsimp only
  rw [hfront]
  refine ⟨rfl, bs', htiled, ?_⟩
  rw [hlive', hlive, livePtrs_append]
  rfl

end free

/-! ### Payloads -/

/-- The bytes of the block behind its header. -/
def payload (m : Mem) (ptr : ℕ) : ℕ := (entryAt m (ptr - heapHeaderSize)).size - heapHeaderSize

section payload

variable {m : Mem} {nxt prev a start total : ℕ} {bs : List Block}

theorem le_of_mem_livePtrs {x : ℕ × ℕ} (h : x ∈ livePtrs a bs) : a + heapHeaderSize ≤ x.1 := by
  obtain ⟨xs, b, ys, rfl, -, hp⟩ := exists_of_mem_livePtrs h
  have := le_endAddr a xs
  omega

/-- Payloads of different blocks do not overlap. -/
theorem Seg.payloads (h : Seg m nxt prev a bs) (hsize : ∀ b ∈ bs, 32 ≤ b.size) :
    (livePtrs a bs).Pairwise fun x y => x.1 + payload m x.1 ≤ y.1 := by
  induction bs generalizing prev a with
  | nil => exact .nil
  | cons b bs ih =>
    have hrest := ih h.2 fun c hc => hsize c (List.mem_cons_of_mem _ hc)
    cases hb : b.req with
    | none =>
      rw [livePtrs, hb]
      exact hrest
    | some n =>
      rw [livePtrs, hb]
      refine List.pairwise_cons.mpr ⟨fun y hy => ?_, hrest⟩
      have hle := le_of_mem_livePtrs hy
      have hsz := hsize b List.mem_cons_self
      rw [payload, Nat.add_sub_cancel, h.1]
      dsimp only
      rw [heapHeaderSize] at *
      omega

/-- Payloads are aligned and have room for what was asked for. -/
theorem Tiled.payload (h : Tiled m start total bs) (hr : Region start total) {p n : ℕ}
    (hmem : (p, n) ∈ livePtrs start bs) : 16 ∣ p ∧ n ≤ payload m p := by
  obtain ⟨xs, b, ys, rfl, hb, rfl⟩ := exists_of_mem_livePtrs hmem
  have hroom := h.req b (by simp) n hb
  refine ⟨?_, ?_⟩
  · rw [endAddr_eq, heapHeaderSize]
    refine Nat.dvd_add (Nat.dvd_add hr.aligned (List.dvd_sum ?_)) (by decide)
    intro k hk
    obtain ⟨c, hc, rfl⟩ := List.mem_map.mp hk
    exact (h.sizes c (by simp [hc])).1
  · rw [Heap.payload, Nat.add_sub_cancel, h.seg.entry]
    dsimp only
    omega

/-- Without live pointers the heap is one free block. -/
theorem Tiled.eq_singleton (h : Tiled m start total bs) (hr : Region start total)
    (hnil : livePtrs start bs = []) : bs = [⟨total, none⟩] := by
  have hfree : ∀ b ∈ bs, b.req = none := by
    intro b hb
    obtain ⟨xs, ys, rfl⟩ := List.append_of_mem hb
    rw [livePtrs_append, List.append_eq_nil_iff] at hnil
    cases hreq : b.req with
    | none => rfl
    | some n => simp [livePtrs, hreq] at hnil
  have htotal := h.total
  cases bs with
  | nil =>
    have := hr.pos
    simp at htotal
    omega
  | cons b bs =>
    cases bs with
    | nil =>
      have hb := hfree b (by simp)
      cases b
      simp_all
    | cons c bs =>
      have hone := (List.isChain_cons_cons.mp h.neighbours).1
      exact absurd hone (by simp [OneUsed, hfree b (by simp), hfree c (by simp)])

/-- A write to a payload leaves the headers. -/
theorem Tiled.write (h : Tiled m start total bs) {p n i : ℕ} (hmem : (p, n) ∈ livePtrs start bs)
    (hi : p ≤ i ∧ i < p + n) (v : UInt8) : Tiled (Function.update m i v) start total bs := by
  obtain ⟨xs, b, ys, rfl, hb, rfl⟩ := exists_of_mem_livePtrs hmem
  have hroom := h.req b (by simp) n hb
  have hsize := h.size_ge
  rw [heapHeaderSize] at hi hroom
  obtain ⟨hxs, hentry, hys⟩ := seg_append.mp h.seg
  refine ⟨⟨seg_append.mpr ⟨?_, ?_, ?_⟩, h.sizes, h.req, h.total⟩, h.neighbours⟩
  · exact hxs.congr (fun c hc => hsize c (by simp [hc])) fun j _ h2 =>
      Function.update_of_ne (by omega) _ _
  · rw [entryAt_congr fun j _ h2 => Function.update_of_ne (by omega) _ _]
    exact hentry
  · exact hys.congr (fun c hc => hsize c (by simp [hc])) fun j h1 _ =>
      Function.update_of_ne (by omega) _ _

end payload

/-! ### Runs -/

/-- The heap, the size it had at first, and the pointers that were returned and not freed
    with the number of bytes asked for. -/
structure Run where
  mem : Mem
  heapStart : ℕ
  total : ℕ
  live : List (ℕ × ℕ)

/-- What the callers of the heap do. -/
inductive Action where
  | alloc (fuel size : ℕ)
  | free (ptr n : ℕ)
  | write (addr : ℕ) (v : UInt8)

/-- One action: an allocation that the static heap serves, a free of a live pointer, or a
    write of a caller to its own bytes. -/
def Run.exec (g : Run) : Action → Option Run
  | .alloc fuel size =>
    if size ≤ 2 ^ 64 - 64 then
      match xtHeapAlloc fuel g.mem g.heapStart size with
      | some (some (m, ptr)) => some { g with mem := m, live := (ptr, size) :: g.live }
      | _ => none
    else none
  | .free ptr n =>
    if (ptr, n) ∈ g.live then
      some { g with mem := (xtHeapFree g.mem ptr).1, live := g.live.erase (ptr, n) }
    else none
  | .write addr v =>
    if ∃ x ∈ g.live, x.1 ≤ addr ∧ addr < x.1 + x.2 then
      some { g with mem := Function.update g.mem addr v }
    else none

/-- Any action. -/
def Run.Step (g g' : Run) : Prop := ∃ a, g.exec a = some g'

/-- The heap as `xtHeapInit` leaves it, with the 64 KiB of `heap_data` at any address. -/
def Run.Initial (g : Run) : Prop :=
  ∃ m heapData, heapData ≠ 0 ∧ heapData + 64 * 1024 ≤ 2 ^ 64 ∧
    (g.mem, g.heapStart) = xtHeapInit m heapData ∧
    g.total = (entryAt g.mem g.heapStart).size ∧ g.live = []

/-- The blocks of the heap are `bs`, and the used ones are the live pointers. -/
structure Run.Sound (g : Run) (bs : List Block) : Prop where
  region : Region g.heapStart g.total
  tiled : Tiled g.mem g.heapStart g.total bs
  live : g.live.Perm (livePtrs g.heapStart bs)

/-- After `xtHeapInit` the heap is one free block. -/
theorem Run.Initial.sound {g : Run} (h : g.Initial) : g.Sound [⟨g.total, none⟩] := by
  obtain ⟨m, heapData, hne, hfits, hinit, htotal, hlive⟩ := h
  obtain ⟨hmem, hstart⟩ := Prod.mk.inj hinit
  -- the aligned start and the bytes left behind it
  have hup : g.heapStart % 16 = 0 ∧ heapData ≤ g.heapStart ∧ g.heapStart < heapData + 16 := by
    rw [hstart]
    split
    · rw [Nat.mod_eq_of_lt (show heapData + 15 < 2 ^ 64 by omega), mask16_eq (by omega)]
      omega
    · omega
  rw [← hstart] at hmem
  have husable := mask16_eq (show 64 * 1024 - (g.heapStart - heapData) < 2 ^ 64 by omega)
  rw [husable] at hmem
  have hentry : entryAt g.mem g.heapStart =
      ⟨(64 * 1024 - (g.heapStart - heapData)) / 16 * 16, 0, 0, 0⟩ := by
    rw [hmem]
    exact @entryAt_setAll m g.heapStart
      ⟨(64 * 1024 - (g.heapStart - heapData)) / 16 * 16, 0, 0, 0⟩ (by dsimp only; omega)
      (Nat.two_pow_pos 8) (Nat.two_pow_pos 64) (Nat.two_pow_pos 64)
  rw [hentry] at htotal
  dsimp only at htotal
  refine ⟨⟨by omega, Nat.dvd_of_mod_eq_zero hup.1, by omega, by omega, by omega⟩,
    ⟨⟨⟨?_, trivial⟩, ?_, ?_, by simp⟩, List.isChain_singleton _⟩, ?_⟩
  · rw [hentry, htotal]
    rfl
  · intro b hb
    obtain rfl := List.mem_singleton.mp hb
    refine ⟨?_, ?_⟩
    · exact ⟨_, by rw [htotal, mul_comm]⟩
    · simp only [minBlockSize, heapHeaderSize]
      omega
  · intro b hb n hn
    obtain rfl := List.mem_singleton.mp hb
    cases hn
  · rw [hlive]
    rfl

theorem Run.Step.sound {g g' : Run} (hs : g.Step g') (h : ∃ bs, g.Sound bs) :
    ∃ bs, g'.Sound bs := by
  obtain ⟨bs, hr, htiled, hlive⟩ := h
  obtain ⟨a, ha⟩ := hs
  cases a with
  | alloc fuel size =>
    simp only [Run.exec, Option.ite_none_right_eq_some] at ha
    obtain ⟨hsize, ha⟩ := ha
    split at ha
    · rename_i m ptr hcall
      cases ha
      obtain ⟨bs', htiled', hlive'⟩ := htiled.xtHeapAlloc hr hsize hcall
      exact ⟨bs', hr, htiled', (hlive.cons _).trans hlive'.symm⟩
    · cases ha
  | free ptr n =>
    simp only [Run.exec, Option.ite_none_right_eq_some, Option.some.injEq] at ha
    obtain ⟨hmem, rfl⟩ := ha
    obtain ⟨xs, b, ys, rfl, hb, rfl⟩ := exists_of_mem_livePtrs (hlive.mem_iff.mp hmem)
    obtain ⟨-, bs', htiled', hlive'⟩ := htiled.xtHeapFree hr hb
    refine ⟨bs', hr, htiled', ?_⟩
    rw [hlive']
    -- the freed block's pointer is the one that leaves the list
    have hsplit : livePtrs g.heapStart (xs ++ b :: ys) = livePtrs g.heapStart xs ++
        (endAddr g.heapStart xs + heapHeaderSize, n) ::
          livePtrs (endAddr g.heapStart xs + b.size) ys := by
      rw [livePtrs_append, livePtrs, hb]
    rw [hsplit] at hlive
    have hperm := (List.perm_cons_erase hmem).symm.trans (hlive.trans List.perm_middle)
    exact hperm.cons_inv
  | write addr v =>
    simp only [Run.exec, Option.ite_none_right_eq_some, Option.some.injEq] at ha
    obtain ⟨⟨x, hx, haddr⟩, rfl⟩ := ha
    exact ⟨bs, hr, htiled.write (hlive.mem_iff.mp hx) haddr v, hlive⟩

theorem exists_sound {g : Run} (h : Reachable Run.Initial Run.Step g) : ∃ bs, g.Sound bs :=
  h.invariant (I := fun g => ∃ bs, g.Sound bs) (fun g hi => ⟨[⟨g.total, none⟩], hi.sound⟩)
    fun _ _ hi hs => hs.sound hi

/-- **The heap**: in every reachable state the blocks tile the region and no two neighbours
    are free, live payloads are aligned, disjoint and large enough, and a heap without live
    pointers is one free block. -/
theorem heap_sound {g : Run} (h : Reachable Run.Initial Run.Step g) :
    ∃ bs, Tiled g.mem g.heapStart g.total bs ∧ g.live.Perm (livePtrs g.heapStart bs) ∧
      (∀ x ∈ g.live, 16 ∣ x.1 ∧ x.2 ≤ payload g.mem x.1) ∧
      (g.live.Pairwise fun x y =>
        x.1 + payload g.mem x.1 ≤ y.1 ∨ y.1 + payload g.mem y.1 ≤ x.1) ∧
      (g.live = [] → bs = [⟨g.total, none⟩]) := by
  obtain ⟨bs, hr, htiled, hlive⟩ := exists_sound h
  refine ⟨bs, htiled, hlive, fun x hx => ?_, ?_, fun hnil => ?_⟩
  · exact htiled.payload hr (hlive.mem_iff.mp hx)
  · refine (hlive.pairwise_iff fun h => Or.symm h).mpr ?_
    exact (htiled.seg.payloads htiled.size_ge).imp fun h => .inl h
  · rw [hnil] at hlive
    exact htiled.eq_singleton hr hlive.symm.eq_nil

/-- The heap in zeroed memory, with `heap_data` at address 4104. -/
def freshHeap : Run :=
  let (m, start) := xtHeapInit (fun _ => 0) 4104
  ⟨m, start, (entryAt m start).size, []⟩

theorem freshHeap_initial : freshHeap.Initial :=
  ⟨fun _ => 0, 4104, by decide, by decide, rfl, rfl, rfl⟩

/-- Two allocations in a fresh heap. -/
theorem heap_sound_two_live : ∃ g : Run, Reachable Run.Initial Run.Step g ∧
    g.live = [(4288, 8), (4144, 100)] ∧
    ∃ bs, Tiled g.mem g.heapStart g.total bs ∧ g.live.Perm (livePtrs g.heapStart bs) := by
  have h1 := (Reachable.start freshHeap_initial : Reachable Run.Initial Run.Step _).next
    ⟨.alloc 2 100, rfl⟩
  have h2 := h1.next ⟨.alloc 3 8, rfl⟩
  obtain ⟨bs, htiled, hlive, -⟩ := heap_sound h2
  exact ⟨_, h2, rfl, bs, htiled, hlive⟩

end XTOS.Heap

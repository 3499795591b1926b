import XTOS.Heap.Requests

/-!
# Freeing a pointer twice

`xtHeapFree` of `xtkernel/memory.c` reads the `used` byte in front of the pointer it is given.
After the block was freed its header may lie in a larger block, and the byte may belong to a
caller's payload or to the header of another block.

## Main definitions

- `Run` — the heap with the pointers that are live and those that were ever returned
- `Run.exec` — allocations, frees of returned pointers and writes of callers
- `allocLinks`, `freeLinks` — the `prev` fields that a call writes, with their values
- `Careful` — an action that leaves the `used` bytes of freed blocks at zero

## Main results

- `double_free_refused` — in a run of careful actions no pointer is freed twice
-/

namespace XTOS.DoubleFree

open SysLib Heap

/-- The heap, the pointers in use, and all pointers that were returned. -/
structure Run where
  mem : Mem
  heapStart : ℕ
  total : ℕ
  live : List ℕ
  returned : List ℕ

/-- The pointer was returned and is not in use. -/
def Run.Stale (g : Run) (p : ℕ) : Prop := p ∈ g.returned ∧ p ∉ g.live

/-- What the callers of the heap do. -/
inductive Action where
  | alloc (fuel size : ℕ)
  | free (ptr : ℕ)
  | write (addr : ℕ) (v : UInt8)

/-- One action: an allocation of any size that the static heap serves, a free of a pointer that
    was returned, whether it is live or not, or a write of a caller to a live payload. -/
def Run.exec (g : Run) : Action → Option Run
  | .alloc fuel size =>
    if size < 2 ^ 64 then
      match xtHeapAlloc fuel g.mem g.heapStart size with
      | some (some (m, ptr)) =>
        some { g with mem := m, live := ptr :: g.live, returned := ptr :: g.returned }
      | _ => none
    else none
  | .free ptr =>
    if ptr ∈ g.returned then
      some { g with mem := (xtHeapFree g.mem ptr).1, live := g.live.erase ptr }
    else none
  | .write addr v =>
    if ∃ p ∈ g.live, p ≤ addr ∧ addr < p + payload g.mem p then
      some { g with mem := Function.update g.mem addr v }
    else none

def Run.Step (g g' : Run) : Prop := ∃ a, g.exec a = some g'

/-- The heap as `xtHeapInit` leaves it. -/
def Run.Initial (g : Run) : Prop :=
  Heap.Run.Initial ⟨g.mem, g.heapStart, g.total, []⟩ ∧ g.live = [] ∧ g.returned = []

/-! ### The `prev` fields that a call writes -/

/-- Cutting block `b`: the new block and the one behind it. -/
def splitLinks (m : Mem) (b needed : ℕ) : List (ℕ × ℕ) :=
  (b + needed, b) ::
    if (entryAt m b).next ≠ 0 then [((entryAt m b).next, b + needed)] else []

/-- Joining `b` with `c`: the block behind `c`. -/
def absorbLinks (m : Mem) (b c : ℕ) : List (ℕ × ℕ) :=
  if (entryAt m c).next ≠ 0 then [((entryAt m c).next, b)] else []

/-- The blocks whose `prev` fields an allocation writes, with the values. -/
def allocLinks (fuel : ℕ) (m : Mem) (heapStart size : ℕ) : List (ℕ × ℕ) :=
  let needed := neededSize size
  match scan 0 (fun b => (entryAt m b).next)
      (fun b => (entryAt m b).used = 0 ∧ needed ≤ (entryAt m b).size) fuel 0 heapStart with
  | none => []
  | some (_, b) =>
    if (needed + minBlockSize) % 2 ^ 64 ≤ (entryAt m b).size then splitLinks m b needed else []

/-- The blocks whose `prev` fields a free writes, with the values. -/
def freeLinks (m : Mem) (ptr : ℕ) : List (ℕ × ℕ) :=
  let block := ptr - heapHeaderSize
  let m := setUsed m block 0
  let prev := (entryAt m block).prev
  let before := if prev ≠ 0 ∧ (entryAt m prev).used = 0 then absorbLinks m prev block else []
  let (m, block) := joinPrev m block
  let next := (entryAt m block).next
  before ++ if next ≠ 0 ∧ (entryAt m next).used = 0 then absorbLinks m block next else []

/-- A caller writes no other value than zero where a freed block had its `used` byte, and a
    header whose `prev` field gets there links to an address that is a multiple of 256. -/
def Careful (g : Run) : Action → Prop
  | .alloc fuel size => ∀ p, g.Stale p →
      ∀ l ∈ allocLinks fuel g.mem g.heapStart size, l.1 + 48 = p → l.2 % 256 = 0
  | .free ptr => ptr ∈ g.live → ∀ p, g.Stale p →
      ∀ l ∈ freeLinks g.mem ptr, l.1 + 48 = p → l.2 % 256 = 0
  | .write addr v => ∀ p, g.Stale p → addr + 24 = p → v = 0

/-- A careful action. -/
def Run.CarefulStep (g g' : Run) : Prop := ∃ a, Careful g a ∧ g.exec a = some g'

/-! ### One byte -/

section byte

variable {m : Mem} {a b c n v : ℕ}

theorem used_eq_zero_iff (m : Mem) (b : ℕ) : (entryAt m b).used = 0 ↔ m (b + 8) = 0 := by
  simp only [entryAt, loadLE_eq_zero_iff, Nat.lt_one_iff, forall_eq, add_zero]

theorem setSize_byte (ha : a % 16 = 8) (hb : 16 ∣ b) (v : ℕ) : setSize m b v a = m a :=
  storeLE_outside m v (by omega)

theorem setNext_byte (ha : a % 16 = 8) (hb : 16 ∣ b) (v : ℕ) : setNext m b v a = m a :=
  storeLE_outside m v (by omega)

theorem setUsed_byte (h : a ≠ b + 8) (v : ℕ) : setUsed m b v a = m a :=
  storeLE_outside m v (by omega)

theorem setUsed_zero (h : m a = 0) : setUsed m b 0 a = 0 := by
  by_cases hab : a = b + 8
  · subst a
    rw [← used_eq_zero_iff, entryAt_setUsed m b (by decide)]
  · rw [setUsed_byte hab, h]

theorem setPrev_zero (h : m a = 0) (ha : a % 16 = 8) (hb : 16 ∣ b)
    (hv : b + 24 = a → v % 256 = 0) : setPrev m b v a = 0 := by
  by_cases hab : b + 24 = a
  · have hbyte : setPrev m b v a = UInt8.ofNat v := by
      have hat := store_at m (b + 24) (k := 0) (leBytes 8 v) (by simp)
      rw [setPrev, storeLE, ← hab]
      simpa [leBytes_succ] using hat
    rw [hbyte]
    have hzero := hv hab
    exact UInt8.toNat_inj.mp (by simpa using hzero)
  · rw [setPrev, storeLE_outside m v (by omega), h]

/-- The links that get to byte `a` leave a zero there. -/
def Quiet (links : List (ℕ × ℕ)) (a : ℕ) : Prop := ∀ l ∈ links, l.1 + 24 = a → l.2 % 256 = 0

theorem splitBlock_zero (h : m a = 0) (ha : a % 16 = 8) (hb : 16 ∣ b) (hn : 16 ∣ n)
    (hnext : 16 ∣ (entryAt m b).next) (hq : Quiet (splitLinks m b n) a) :
    splitBlock m b n a = 0 := by
  have hbn : 16 ∣ b + n := Nat.dvd_add hb hn
  have hnew : setPrev (setNext (setUsed (setSize m (b + n) ((entryAt m b).size - n)) (b + n) 0)
      (b + n) (entryAt m b).next) (b + n) b a = 0 := by
    refine setPrev_zero ?_ ha hbn (hq _ List.mem_cons_self)
    rw [setNext_byte ha hbn]
    exact setUsed_zero (by rw [setSize_byte ha hbn, h])
  simp only [splitBlock]
  rw [setNext_byte ha hb, setSize_byte ha hb]
  split_ifs with hne
  · exact setPrev_zero hnew ha hnext (hq ((entryAt m b).next, b + n) (by simp [splitLinks, hne]))
  · exact hnew

theorem absorb_zero (h : m a = 0) (ha : a % 16 = 8) (hb : 16 ∣ b)
    (hnext : 16 ∣ (entryAt m c).next) (hq : Quiet (absorbLinks m b c) a) :
    absorb m b c a = 0 := by
  have hset : setNext (setSize m b ((entryAt m b).size + (entryAt m c).size)) b
      (entryAt m c).next a = 0 := by
    rw [setNext_byte ha hb, setSize_byte ha hb, h]
  simp only [absorb]
  split_ifs with hne
  · exact setPrev_zero hset ha hnext (hq ((entryAt m c).next, b) (by simp [absorbLinks, hne]))
  · exact hset

end byte

/-! ### The calls -/

section calls

variable {m m' : Mem} {start total a : ℕ} {bs xs ys : List Block} {b : Block}

theorem neededSize_dvd (size : ℕ) : 16 ∣ neededSize size := by
  have hmask := mask16_eq (Nat.mod_lt (size + 15) (show 0 < 2 ^ 64 by decide))
  rw [neededSize]
  simp only [hmask, heapHeaderSize, minBlockSize]
  split <;> omega

theorem endAddr_dvd (h : Blocks m start total (xs ++ ys)) (hr : Region start total) :
    16 ∣ endAddr start xs := by
  rw [endAddr_eq]
  refine Nat.dvd_add hr.aligned (List.dvd_sum fun k hk => ?_)
  obtain ⟨c, hc, rfl⟩ := List.mem_map.mp hk
  exact (h.sizes c (List.mem_append_left _ hc)).1

/-- The links of a block lead to aligned addresses or nowhere, forward behind the block. -/
theorem entry_dvd (h : Blocks m start total (xs ++ b :: ys)) (hr : Region start total) :
    16 ∣ (entryAt m (endAddr start xs)).next ∧ 16 ∣ (entryAt m (endAddr start xs)).prev ∧
      ((entryAt m (endAddr start xs)).next ≠ 0 →
        (entryAt m (endAddr start xs)).next = endAddr start xs + b.size) := by
  rw [h.seg.entry]
  have hself := endAddr_dvd h hr
  have hb := (h.sizes b (by simp)).1
  refine ⟨?_, ?_, ?_⟩
  · cases ys with
    | nil => exact dvd_zero 16
    | cons c ys => exact Nat.dvd_add hself hb
  · obtain rfl | ⟨front, q, rfl⟩ := List.eq_nil_or_concat' xs
    · exact dvd_zero 16
    · rw [lastAddr_append_singleton]
      rw [List.append_assoc] at h
      exact endAddr_dvd h hr
  · cases ys with
    | nil => exact fun h => absurd rfl h
    | cons c ys => exact fun _ => rfl

/-- An allocation leaves a zero byte, unless it is the `used` byte of the block it returns. -/
theorem alloc_zero (h : Tiled m start total bs) (hr : Region start total) {fuel size ptr : ℕ}
    (hcall : xtHeapAlloc fuel m start size = some (some (m', ptr))) (ha : a % 16 = 8)
    (hz : m a = 0) (hne : a + 24 ≠ ptr) (hq : Quiet (allocLinks fuel m start size) a) :
    m' a = 0 := by
  obtain ⟨xs, b, ys, rfl, -, -, hptr⟩ := h.xtHeapAlloc_found hr hcall
  simp only [allocLinks] at hq
  simp only [xtHeapAlloc] at hcall
  split at hcall
  · cases hcall
  rename_i prev X hscan
  rw [hscan] at hq
  dsimp only at hq
  split_ifs at hcall with hX hsplit
  · cases hcall
  · obtain ⟨rfl, hX'⟩ := Prod.mk.inj (Option.some.inj (Option.some.inj hcall))
    obtain rfl : X = endAddr start xs := by omega
    rw [if_pos hsplit] at hq
    rw [setUsed_byte (by rw [hptr, heapHeaderSize] at hne; omega)]
    exact splitBlock_zero hz ha (endAddr_dvd h.toBlocks hr) (neededSize_dvd size)
      (entry_dvd h.toBlocks hr).1 hq
  · obtain ⟨rfl, hX'⟩ := Prod.mk.inj (Option.some.inj (Option.some.inj hcall))
    obtain rfl : X = endAddr start xs := by omega
    rwa [setUsed_byte (by rw [hptr, heapHeaderSize] at hne; omega)]

/-- Joining with the block before. -/
theorem joinPrev_zero (h : Blocks m start total (xs ++ b :: ys)) (hr : Region start total)
    (ha : a % 16 = 8) (hz : m a = 0)
    (hq : Quiet (if (entryAt m (endAddr start xs)).prev ≠ 0 ∧
        (entryAt m (entryAt m (endAddr start xs)).prev).used = 0
      then absorbLinks m (entryAt m (endAddr start xs)).prev (endAddr start xs) else []) a) :
    (joinPrev m (endAddr start xs)).1 a = 0 := by
  obtain ⟨hnext, hprev, -⟩ := entry_dvd h hr
  simp only [joinPrev]
  split_ifs at hq ⊢
  · dsimp only
    exact absorb_zero hz ha hprev hnext hq
  · exact hz

/-- Joining with the block behind. -/
theorem joinNext_zero (h : Blocks m start total (xs ++ b :: ys)) (hr : Region start total)
    (ha : a % 16 = 8) (hz : m a = 0)
    (hq : Quiet (if (entryAt m (endAddr start xs)).next ≠ 0 ∧
        (entryAt m (entryAt m (endAddr start xs)).next).used = 0
      then absorbLinks m (endAddr start xs) (entryAt m (endAddr start xs)).next else []) a) :
    joinNext m (endAddr start xs) a = 0 := by
  simp only [joinNext]
  split_ifs at hq ⊢ with hjoin
  · refine absorb_zero hz ha (endAddr_dvd h hr) ?_ hq
    have hnext := (entry_dvd h hr).2.2 hjoin.1
    cases ys with
    | nil =>
      rw [h.seg.entry] at hjoin
      exact absurd rfl hjoin.1
    | cons c ys =>
      rw [List.append_cons] at h
      have hc := (entry_dvd h hr).1
      rwa [endAddr_append, endAddr, endAddr, ← hnext] at hc
  · exact hz

/-- The memory after a block was marked free and joined with the one before it. -/
theorem freed_blocks (h : Tiled m start total (xs ++ b :: ys)) (hr : Region start total) :
    Blocks (setUsed m (endAddr start xs) 0) start total (xs ++ ⟨b.size, none⟩ :: ys) ∧
    ∃ front d, (joinPrev (setUsed m (endAddr start xs) 0) (endAddr start xs)).2 =
        endAddr start front ∧
      Blocks (joinPrev (setUsed m (endAddr start xs) 0) (endAddr start xs)).1 start total
        (front ++ d :: ys) ∧
      endAddr start front + d.size = endAddr start xs + b.size := by
  obtain ⟨hxs, -, -, -⟩ := neighbours_middle.mp h.neighbours
  have hfree := h.setUsed none (by simp)
  rw [used_eq_zero.mpr rfl] at hfree
  obtain ⟨front, d, hfront, hblocks, -⟩ := hfree.prev hr rfl hxs
  refine ⟨hfree, front, d, hfront, hblocks, ?_⟩
  have htotal := hblocks.total
  have htotal' := hfree.total
  simp only [List.map_append, List.map_cons, List.sum_append, List.sum_cons] at htotal htotal'
  rw [endAddr_eq, endAddr_eq]
  omega

/-- Freeing a block leaves a zero byte, and clears the `used` byte of the block. -/
theorem free_zero (h : Tiled m start total (xs ++ b :: ys)) (hr : Region start total)
    (hreq : b.req ≠ none) (ha : a % 16 = 8) (hz : m a = 0 ∨ a = endAddr start xs + 8)
    (hq : Quiet (freeLinks m (endAddr start xs + heapHeaderSize)) a) :
    (xtHeapFree m (endAddr start xs + heapHeaderSize)).1 a = 0 := by
  obtain ⟨hfree, front, d, hfront, hblocks, -⟩ := freed_blocks h hr
  have hne : endAddr start xs + heapHeaderSize ≠ 0 := by
    rw [heapHeaderSize]
    omega
  have hused : (entryAt m (endAddr start xs)).used ≠ 0 := by
    rw [h.seg.entry]
    exact fun hzero => hreq (used_eq_zero.mp hzero)
  have hmark : setUsed m (endAddr start xs) 0 a = 0 := by
    obtain hz | rfl := hz
    · exact setUsed_zero hz
    · rw [← used_eq_zero_iff, entryAt_setUsed m _ (by decide)]
  simp only [freeLinks, Nat.add_sub_cancel] at hq
  have hbefore := joinPrev_zero hfree hr ha hmark fun l hl =>
    hq l (List.mem_append_left _ hl)
  rw [xtHeapFree, if_neg hne, Nat.add_sub_cancel, if_neg hused]
  dsimp only
  rw [hfront] at hq ⊢
  exact joinNext_zero hblocks hr ha hbefore fun l hl => hq l (List.mem_append_right _ hl)

/-- The `prev` fields that a free writes lie behind the block. -/
theorem freeLinks_above (h : Tiled m start total (xs ++ b :: ys)) (hr : Region start total) :
    ∀ l ∈ freeLinks m (endAddr start xs + heapHeaderSize), endAddr start xs < l.1 := by
  obtain ⟨hfree, front, d, hfront, hblocks, hend⟩ := freed_blocks h hr
  have hsize := h.size_ge b (by simp)
  simp only [freeLinks, Nat.add_sub_cancel]
  rw [hfront]
  intro l hl
  obtain hl | hl := List.mem_append.mp hl
  · split_ifs at hl
    · rw [absorbLinks] at hl
      split_ifs at hl with hne
      · obtain rfl := List.mem_singleton.mp hl
        rw [(entry_dvd hfree hr).2.2 hne]
        dsimp only
        omega
      · cases hl
    · cases hl
  · split_ifs at hl with hjoin
    · rw [absorbLinks] at hl
      split_ifs at hl with hne
      · obtain rfl := List.mem_singleton.mp hl
        have hnext := (entry_dvd hblocks hr).2.2 hjoin.1
        cases ys with
        | nil =>
          rw [hblocks.seg.entry] at hjoin
          exact absurd rfl hjoin.1
        | cons c ys =>
          rw [List.append_cons] at hblocks
          have hc := (entry_dvd hblocks hr).2.2
          rw [endAddr_append, endAddr, endAddr, ← hnext] at hc
          rw [hc hne, hnext]
          dsimp only
          omega
      · cases hl
    · cases hl

end calls

/-! ### Runs -/

/-- A used block whose owner has the whole payload. -/
def fill (b : Block) : Block := { b with req := b.req.map fun _ => b.size - heapHeaderSize }

theorem used_fill (b : Block) : (fill b).used = b.used := by
  cases hb : b.req <;> simp [Block.used, fill, hb]

theorem seg_fill {m : Mem} {nxt prev a : ℕ} {bs : List Block} (h : Seg m nxt prev a bs) :
    Seg m nxt prev a (bs.map fill) := by
  induction bs generalizing prev a with
  | nil => trivial
  | cons b bs ih =>
    have hfirst : firstAddr (a + b.size) nxt (bs.map fill) = firstAddr (a + b.size) nxt bs := by
      cases bs <;> rfl
    refine ⟨?_, ih h.2⟩
    rw [used_fill]
    exact h.1.trans (by rw [← hfirst]; rfl)

theorem livePtrs_fill (a : ℕ) (bs : List Block) :
    (livePtrs a (bs.map fill)).map Prod.fst = (livePtrs a bs).map Prod.fst := by
  induction bs generalizing a with
  | nil => rfl
  | cons b bs ih =>
    have hrest := ih (a + b.size)
    cases hb : b.req with
    | none => simpa [livePtrs, fill, hb] using hrest
    | some n => simpa [livePtrs, fill, hb] using hrest

theorem tiled_fill {m : Mem} {start total : ℕ} {bs : List Block} (h : Tiled m start total bs) :
    Tiled m start total (bs.map fill) := by
  refine ⟨⟨seg_fill h.seg, fun c hc => ?_, fun c hc n hn => ?_, ?_⟩, ?_⟩
  · obtain ⟨b, hb, rfl⟩ := List.mem_map.mp hc
    exact h.sizes b hb
  · obtain ⟨b, hb, rfl⟩ := List.mem_map.mp hc
    have hsize := h.size_ge b hb
    obtain ⟨k, -, rfl⟩ := Option.map_eq_some_iff.mp hn
    change b.size - heapHeaderSize + heapHeaderSize ≤ b.size
    rw [heapHeaderSize]
    omega
  · rw [List.map_map]
    exact h.total
  · rw [List.isChain_map]
    refine h.neighbours.imp fun b c hbc => ?_
    simpa [OneUsed, fill] using hbc

/-- The blocks of the heap belong to the live pointers, and the `used` bytes in front of the
    pointers that were freed are zero. -/
structure Run.Sound (g : Run) (bs : List Block) : Prop where
  region : Region g.heapStart g.total
  tiled : Tiled g.mem g.heapStart g.total bs
  full : ∀ b ∈ bs, ∀ n, b.req = some n → n + heapHeaderSize = b.size
  live : g.live.Perm ((livePtrs g.heapStart bs).map Prod.fst)
  returned : ∀ p ∈ g.live, p ∈ g.returned
  aligned : ∀ p ∈ g.returned, 16 ∣ p ∧ heapHeaderSize ≤ p
  zero : ∀ p, g.Stale p → g.mem (p - 24) = 0

theorem full_fill {bs : List Block} (hsize : ∀ b ∈ bs, 32 ≤ b.size) :
    ∀ b ∈ bs.map fill, ∀ n, b.req = some n → n + heapHeaderSize = b.size := by
  intro c hc n hn
  obtain ⟨b, hb, rfl⟩ := List.mem_map.mp hc
  have hle := hsize b hb
  obtain ⟨k, -, rfl⟩ := Option.map_eq_some_iff.mp hn
  change b.size - heapHeaderSize + heapHeaderSize = b.size
  rw [heapHeaderSize]
  omega

theorem Run.Initial.sound {g : Run} (h : g.Initial) : ∃ bs, g.Sound bs := by
  obtain ⟨hinit, hlive, hreturned⟩ := h
  obtain ⟨hregion, htiled, -⟩ := hinit.sound
  refine ⟨_, hregion, htiled, ?_, ?_, ?_, ?_, ?_⟩
  · simp
  · simp [hlive, livePtrs]
  · simp [hlive]
  · simp [hreturned]
  · rintro p ⟨hp, -⟩
    rw [hreturned] at hp
    cases hp

/-- Where the `used` byte of a returned pointer lies. -/
theorem Run.Sound.byte {g : Run} {bs : List Block} (h : g.Sound bs) {p : ℕ}
    (hp : p ∈ g.returned) : (p - 24) % 16 = 8 ∧ p - 24 + 24 = p := by
  obtain ⟨hdvd, hle⟩ := h.aligned p hp
  rw [heapHeaderSize] at hle
  omega

/-- An allocation of any size is one of a size that does not wrap. -/
theorem Run.Sound.alloc {g : Run} {bs : List Block} (h : g.Sound bs) {fuel size : ℕ}
    (hsize : size < 2 ^ 64) {m : Mem} {ptr : ℕ}
    (hcall : xtHeapAlloc fuel g.mem g.heapStart size = some (some (m, ptr))) :
    ∃ bs' n, Tiled m g.heapStart g.total bs' ∧
      (livePtrs g.heapStart bs').Perm ((ptr, n) :: livePtrs g.heapStart bs) := by
  have hserve : ∀ size' ≤ 2 ^ 64 - 64, neededSize size = neededSize size' →
      ∃ bs' n, Tiled m g.heapStart g.total bs' ∧
        (livePtrs g.heapStart bs').Perm ((ptr, n) :: livePtrs g.heapStart bs) := by
    intro size' hle heq
    rw [xtHeapAlloc_congr heq] at hcall
    obtain ⟨bs', htiled, hperm⟩ := h.tiled.xtHeapAlloc h.region hle hcall
    exact ⟨bs', size', htiled, hperm⟩
  obtain hlt | hle := Nat.lt_or_ge (2 ^ 64 - 64) size
  swap
  · exact hserve size hle rfl
  obtain hwrap | hle := Nat.lt_or_ge (2 ^ 64 - 48) size
  swap
  · -- no block is as large as that
    obtain ⟨xs, b, ys, rfl, -, hneeded, -⟩ := h.tiled.xtHeapAlloc_found h.region hcall
    have hlarge := neededSize_large hlt hle
    have htotal := h.tiled.size_le
    have hsmall := h.region.small
    omega
  · exact hserve 16 (by decide) (neededSize_wrapped hwrap hsize)

/-- A pointer that was freed is refused. -/
theorem Run.Sound.refused {g : Run} {bs : List Block} (h : g.Sound bs) {p : ℕ}
    (hp : g.Stale p) : xtHeapFree g.mem p = (g.mem, .invalidParameter) := by
  obtain ⟨-, hle⟩ := h.aligned p hp.1
  rw [heapHeaderSize] at hle
  have hused : (entryAt g.mem (p - heapHeaderSize)).used = 0 := by
    rw [used_eq_zero_iff, heapHeaderSize, show p - 32 + 8 = p - 24 by omega]
    exact h.zero p hp
  rw [xtHeapFree, if_neg (by omega)]
  dsimp only
  rw [if_pos hused]

/-- The block of a live pointer. -/
theorem Run.Sound.exists_block {g : Run} {bs : List Block} (h : g.Sound bs) {p : ℕ}
    (hp : p ∈ g.live) : ∃ xs b ys n, bs = xs ++ b :: ys ∧ b.req = some n ∧
      p = endAddr g.heapStart xs + heapHeaderSize ∧ (p, n) ∈ livePtrs g.heapStart bs := by
  obtain ⟨⟨q, n⟩, hmem, rfl⟩ := List.mem_map.mp (h.live.mem_iff.mp hp)
  obtain ⟨xs, b, ys, rfl, hreq, hq⟩ := exists_of_mem_livePtrs hmem
  exact ⟨xs, b, ys, n, rfl, hreq, hq, hmem⟩

/-- A free of a live pointer. -/
theorem Run.Sound.free {g : Run} {bs : List Block} (h : g.Sound bs) {ptr : ℕ}
    (hlive : ptr ∈ g.live) (hcareful : Careful g (.free ptr)) :
    ∃ bs', Run.Sound { g with mem := (xtHeapFree g.mem ptr).1, live := g.live.erase ptr } bs' := by
  obtain ⟨xs, b, ys, n, rfl, hreq, hptr, hmem⟩ := h.exists_block hlive
  obtain ⟨-, bs', htiled, hperm⟩ := h.tiled.xtHeapFree h.region hreq
  rw [← hptr] at htiled
  have hsplit : livePtrs g.heapStart (xs ++ b :: ys) = livePtrs g.heapStart xs ++
      (ptr, n) :: livePtrs (endAddr g.heapStart xs + b.size) ys := by
    rw [livePtrs_append, livePtrs, hreq, hptr]
  refine ⟨bs'.map fill, h.region, tiled_fill htiled, full_fill htiled.size_ge, ?_, ?_, h.aligned, ?_⟩
  · rw [livePtrs_fill, hperm]
    have hold := h.live
    rw [hsplit, List.map_append, List.map_cons] at hold
    rw [List.map_append]
    exact ((List.perm_cons_erase hlive).symm.trans (hold.trans List.perm_middle)).cons_inv
  · exact fun p hp => h.returned p (List.mem_of_mem_erase hp)
  · rintro p ⟨hp, hnot⟩
    obtain ⟨hmod, hback⟩ := h.byte hp
    have hz : p ≠ ptr → g.Stale p := fun hne =>
      ⟨hp, fun hin => hnot ((List.mem_erase_of_ne hne).mpr hin)⟩
    dsimp only
    rw [hptr]
    by_cases hpp : p = ptr
    · -- the fields that are written lie behind the freed block
      have hbyte : p - 24 = endAddr g.heapStart xs + 8 := by
        rw [hpp, hptr, heapHeaderSize]
        omega
      refine free_zero h.tiled h.region (by simp [hreq]) hmod (.inr hbyte) fun l hl heq => ?_
      have habove := freeLinks_above h.tiled h.region l hl
      omega
    · refine free_zero h.tiled h.region (by simp [hreq]) hmod (.inl (h.zero p (hz hpp)))
        fun l hl heq => ?_
      rw [← hptr] at hl
      exact hcareful hlive p (hz hpp) l hl (by omega)

/-- A write to a live payload. -/
theorem Run.Sound.write {g : Run} {bs : List Block} (h : g.Sound bs) {addr p : ℕ} {v : UInt8}
    (hp : p ∈ g.live) (haddr : p ≤ addr ∧ addr < p + payload g.mem p)
    (hcareful : Careful g (.write addr v)) :
    Run.Sound { g with mem := Function.update g.mem addr v } bs := by
  obtain ⟨xs, b, ys, n, rfl, hreq, hptr, hmem⟩ := h.exists_block hp
  have hfull := h.full b (by simp) n hreq
  have hpay : payload g.mem p = n := by
    rw [payload, hptr, Nat.add_sub_cancel, h.tiled.seg.entry]
    dsimp only
    omega
  rw [hpay] at haddr
  refine ⟨h.region, h.tiled.write hmem haddr v, h.full, h.live, h.returned, h.aligned, ?_⟩
  intro q hq
  obtain ⟨-, hback⟩ := h.byte hq.1
  dsimp only
  by_cases hqa : q - 24 = addr
  · rw [hqa, Function.update_self]
    exact hcareful q hq (by omega)
  · rw [Function.update_of_ne hqa]
    exact h.zero q hq

theorem Run.CarefulStep.sound {g g' : Run} (hs : g.CarefulStep g') (h : ∃ bs, g.Sound bs) :
    ∃ bs, g'.Sound bs := by
  obtain ⟨bs, hg⟩ := h
  obtain ⟨action, hcareful, ha⟩ := hs
  cases action with
  | alloc fuel size =>
    simp only [Run.exec, Option.ite_none_right_eq_some] at ha
    obtain ⟨hsize, ha⟩ := ha
    split at ha
    · rename_i m ptr hcall
      cases ha
      obtain ⟨bs', n, htiled, hperm⟩ := hg.alloc hsize hcall
      obtain ⟨xs, b, ys, rfl, -, -, hptr⟩ := hg.tiled.xtHeapAlloc_found hg.region hcall
      refine ⟨bs'.map fill, hg.region, tiled_fill htiled, full_fill htiled.size_ge, ?_, ?_, ?_, ?_⟩
      · rw [livePtrs_fill]
        exact (hg.live.cons ptr).trans (hperm.map Prod.fst).symm
      · intro p hp
        obtain rfl | hp := List.mem_cons.mp hp
        · exact List.mem_cons_self
        · exact List.mem_cons_of_mem _ (hg.returned p hp)
      · intro p hp
        obtain rfl | hp := List.mem_cons.mp hp
        · have hdvd := endAddr_dvd hg.tiled.toBlocks hg.region
          rw [hptr, heapHeaderSize]
          omega
        · exact hg.aligned p hp
      · rintro p ⟨hp, hnot⟩
        simp only [List.mem_cons, not_or] at hp hnot
        have hstale : g.Stale p := ⟨hp.resolve_left hnot.1, hnot.2⟩
        obtain ⟨hmod, hback⟩ := hg.byte hstale.1
        refine alloc_zero hg.tiled hg.region hcall hmod (hg.zero p hstale)
          (by rw [hback]; exact hnot.1) fun l hl heq => ?_
        exact hcareful p hstale l hl (by omega)
    · cases ha
  | free ptr =>
    simp only [Run.exec, Option.ite_none_right_eq_some, Option.some.injEq] at ha
    obtain ⟨hret, rfl⟩ := ha
    by_cases hlive : ptr ∈ g.live
    · exact hg.free hlive hcareful
    · rw [hg.refused ⟨hret, hlive⟩, List.erase_of_not_mem hlive]
      exact ⟨bs, hg⟩
  | write addr v =>
    simp only [Run.exec, Option.ite_none_right_eq_some, Option.some.injEq] at ha
    obtain ⟨⟨p, hp, haddr⟩, rfl⟩ := ha
    exact ⟨bs, hg.write hp haddr hcareful⟩

/-- **Double frees**: in every state that careful actions reach, freeing a pointer that was
    returned earlier and is not live is refused and leaves the heap as it is. -/
theorem double_free_refused {g : Run} (h : Reachable Run.Initial Run.CarefulStep g) {p : ℕ}
    (hp : p ∈ g.returned) (hlive : p ∉ g.live) :
    xtHeapFree g.mem p = (g.mem, .invalidParameter) := by
  obtain ⟨bs, hg⟩ := h.invariant (I := fun g => ∃ bs, g.Sound bs) (fun _ hi => hi.sound)
    fun _ _ hi hs => hs.sound hi
  exact hg.refused ⟨hp, hlive⟩

/-- The fresh heap. -/
def freshRun : Run := ⟨freshHeap.mem, freshHeap.heapStart, freshHeap.total, [], []⟩

theorem freshRun_initial : freshRun.Initial := ⟨freshHeap_initial, rfl, rfl⟩

/-- Two blocks, the second one freed: a second free of it is refused. -/
theorem double_free_refused_second :
    ∃ g, Reachable Run.Initial Run.CarefulStep g ∧ g.live = [4144] ∧
      xtHeapFree g.mem 4192 = (g.mem, .invalidParameter) := by
  have hno : ∀ g : Run, g.returned = g.live → ∀ p, ¬ g.Stale p := by
    rintro g heq p ⟨hp, hnot⟩
    exact hnot (heq ▸ hp)
  have h0 : Reachable Run.Initial Run.CarefulStep _ := .start freshRun_initial
  have h1 := h0.next ⟨.alloc 4 16, fun p hp => absurd hp (hno _ rfl p), rfl⟩
  have h2 := h1.next ⟨.alloc 4 16, fun p hp => absurd hp (hno _ rfl p), rfl⟩
  have h3 := h2.next ⟨.free 4192, fun _ p hp => absurd hp (hno _ rfl p), rfl⟩
  exact ⟨_, h3, rfl, double_free_refused h3 (by decide) (by decide)⟩

/-- Two blocks are freed and joined, a larger one takes their place, and its owner writes a byte:
    the second free of the second block is accepted. -/
theorem double_free_accepted :
    ∃ g, Reachable Run.Initial Run.Step g ∧ g.live = [4144] ∧ 4192 ∈ g.returned ∧
      (xtHeapFree g.mem 4192).2 = .success ∧ (xtHeapFree g.mem 4192).1 4168 = 0 ∧
      g.mem 4168 = 1 := by
  have h0 : Reachable Run.Initial Run.Step _ := .start freshRun_initial
  have h1 := h0.next ⟨.alloc 4 16, rfl⟩
  have h2 := h1.next ⟨.alloc 4 16, rfl⟩
  have h3 := h2.next ⟨.free 4192, rfl⟩
  have h4 := h3.next ⟨.free 4144, rfl⟩
  have h5 := h4.next ⟨.alloc 4 100, rfl⟩
  have h6 := h5.next ⟨.write 4168 1, rfl⟩
  exact ⟨_, h6, rfl, by decide, by decide +kernel, by decide +kernel, by decide +kernel⟩

end XTOS.DoubleFree

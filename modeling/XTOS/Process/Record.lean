import XTOS.Handle
import XTOS.Paging
import XTOS.User.StaticHeap

/-!
# The record of a new process

`xtCreateProcess` of `xtkernel/process.c` in the memory of the kernel, and what the kernel then
finds in the record: its lists, its handles and its memory map. The record lies in a heap block
that keeps the bytes of whoever had it before.

## Main definitions

- `processAt`, `handlesAt`, `xtFindVirtualMap` — a record and what is reached from it
- `xtCreateProcess` — the modelled function
- `Visible` — all that a process shows but its id, page table and parent
- `keptByte` — the byte that the call leaves where it does not write the record

## Main results

- `createRecord_frame` — what is written until the process is put in the list of processes
- `xtCreateProcess_visible_iff` — a new process is empty exactly if the bytes it keeps are zero

## Design notes

A pointer that was left in a block may point anywhere, so tables, descriptors and list nodes are
read from memory wherever they are said to lie. `xtHeapAlloc` fails when the static heap has no
fitting block.
-/

namespace XTOS.ProcessRecord

open SysLib
open XTOS.Heap (Mem Run)
open XTOS.Handle (XTDescriptor XTDescriptorTable Accepted lookup)
open XTOS.Paging (higherHalfMem)
open XTOS.User (StaticLive)

/-! ### Records in memory -/

/-- `XTProcess`, 72 bytes. -/
structure XTProcess where
  threads : ℕ
  pageTable : ℕ
  parentProcess : ℕ
  childProcess : ℕ
  memoryMap : ℕ
  descriptorRoot : ℕ
  flags : ℕ
  activeThreads : ℕ
  id : ℕ
  deriving DecidableEq, Repr

/-- The record at an address. -/
def processAt (m : Mem) (p : ℕ) : XTProcess where
  threads := loadLE m p 8
  pageTable := loadLE m (p + 8) 8
  parentProcess := loadLE m (p + 16) 8
  childProcess := loadLE m (p + 24) 8
  memoryMap := loadLE m (p + 32) 8
  descriptorRoot := loadLE m (p + 40) 8
  flags := loadLE m (p + 48) 8
  activeThreads := loadLE m (p + 56) 8
  id := loadLE m (p + 64) 8

/-- The data of a list node. -/
def dataAt (m : Mem) (l : ℕ) : ℕ := loadLE m l 8

/-- The link of a list node. -/
def nextAt (m : Mem) (l : ℕ) : ℕ := loadLE m (l + 8) 8

/-- The handle table of a process. -/
def handlesAt (m : Mem) (p : ℕ) : Handle.State where
  heap :=
    { tables := fun a =>
        if a = 0 then none else some ⟨fun i => loadLE m (a + 8 * i) 8⟩
      descriptors := fun a =>
        if a = 0 then none
        else some
          { desc := loadLE m a 8
            type := BitVec.ofNat 32 (loadLE m (a + 8) 4)
            access := BitVec.ofNat 32 (loadLE m (a + 12) 4) } }
  descriptorRoot := (processAt m p).descriptorRoot

/-- `xtFindVirtualMap`: the result, the map and the node before it. -/
def xtFindVirtualMap (fuel : ℕ) (m : Mem) (process ptr : ℕ) : Option (XTResult × ℕ × ℕ) :=
  if process = 0 then some (.invalidParameter, 0, 0)
  else
    (scan 0 (nextAt m)
      (fun i =>
        let map := dataAt m i
        loadLE m map 8 ≤ ptr ∧ ptr ≤ (loadLE m map 8 + loadLE m (map + 8) 8) % 2 ^ 64)
      fuel 0 (processAt m process).memoryMap).map fun (prev, i) =>
        if i = 0 then (.notFound, 0, 0) else (.success, dataAt m i, prev)

/-- What a process shows but its id, page table and parent: its fields, what a handle stands for
    and what an address is mapped to. -/
structure Visible where
  threads : ℕ
  childProcess : ℕ
  memoryMap : ℕ
  descriptorRoot : ℕ
  flags : ℕ
  activeThreads : ℕ
  handle : BitVec 64 → XTResult × ℕ × Option XTDescriptor
  find : ℕ → ℕ → Option (XTResult × ℕ × ℕ)

/-- What the process at an address shows. -/
def visible (m : Mem) (p : ℕ) : Visible where
  threads := (processAt m p).threads
  childProcess := (processAt m p).childProcess
  memoryMap := (processAt m p).memoryMap
  descriptorRoot := (processAt m p).descriptorRoot
  flags := (processAt m p).flags
  activeThreads := (processAt m p).activeThreads
  handle := lookup (handlesAt m p)
  find := fun fuel ptr => xtFindVirtualMap (fuel + 1) m p ptr

/-- A process that has nothing. -/
def Visible.empty : Visible where
  threads := 0
  childProcess := 0
  memoryMap := 0
  descriptorRoot := 0
  flags := 0
  activeThreads := 0
  handle := fun handle => (if Accepted handle then .notFound else .invalidParameter, 0, none)
  find := fun _ _ => some (.notFound, 0, 0)

/-! ### Creating a process -/

/-- The kernel's memory, where its heap starts, its page table and the globals of
    `process.c`. -/
structure Kernel where
  mem : Mem
  heapStart : ℕ
  kernelPageTable : ℕ
  processess : ℕ
  lastProcessId : ℕ

/-- The page table and the fields that `xtCreateProcess` writes. -/
def fillRecord (k : Kernel) (m : Mem) (result newPageTable parentProcess : ℕ) : Mem :=
  let vnewPageTable := higherHalfMem newPageTable
  let vkernelPageTable := higherHalfMem k.kernelPageTable
  let m := store m vnewPageTable (List.replicate 0x1000 0)
  let m := store m (vnewPageTable + 0x7f8) (load m (vkernelPageTable + 0x7f8) 0x808)
  let m := storeLE m (result + 8) 8 newPageTable
  let m := storeLE m (result + 16) 8 parentProcess
  storeLE m (result + 64) 8 k.lastProcessId

/-- `xtCreateList`; the node is null if there is no memory for it. -/
def xtCreateList (fuel : ℕ) (m : Mem) (heapStart data : ℕ) : Option (Mem × ℕ) :=
  match Heap.xtHeapAlloc fuel m heapStart 16 with
  | none => none
  | some none => some (m, 0)
  | some (some (m, node)) => some (storeLE (storeLE m node 8 data) (node + 8) 8 0, node)

/-- `xtCreateProcess` up to where the process is put in the list of processes: the memory, the
    record and the new node. `page` is what `xtAllocatePages` returns. -/
def createRecord (fuel : ℕ) (k : Kernel) (parentProcess : ℕ) (page : Option ℕ) :
    Option (Mem × Except XTResult (ℕ × ℕ)) :=
  match Heap.xtHeapAlloc fuel k.mem k.heapStart 72 with
  | none => none
  | some none => some (k.mem, .error .outOfMemory)
  | some (some (m, result)) =>
    match page with
    | none => some (m, .error .outOfMemory)
    | some newPageTable =>
      (xtCreateList fuel (fillRecord k m result newPageTable parentProcess) k.heapStart
        result).map fun (m, node) => (m, .ok (result, node))

/-- `xtGetLastList`. -/
def xtGetLastList (m : Mem) : ℕ → ℕ → Option ℕ
  | 0, _ => none
  | fuel + 1, l => if nextAt m l = 0 then some l else xtGetLastList m fuel (nextAt m l)

/-- `xtAppendList`. -/
def xtAppendList (fuel : ℕ) (m : Mem) (l toAppend : ℕ) : Option Mem :=
  if l = 0 ∨ toAppend = 0 then some m
  else (xtGetLastList m fuel l).map fun last => storeLE m (last + 8) 8 toAppend

/-- `xtCreateProcess`. -/
def xtCreateProcess (fuel : ℕ) (k : Kernel) (parentProcess : ℕ) (page : Option ℕ) :
    Option (Kernel × Except XTResult ℕ) :=
  match createRecord fuel k parentProcess page with
  | none => none
  | some (m, .error r) => some ({ k with mem := m }, .error r)
  | some (m, .ok (result, node)) =>
    let k := { k with mem := m, lastProcessId := (k.lastProcessId + 1) % 2 ^ 64 }
    if k.processess = 0 then some ({ k with processess := node }, .ok result)
    else
      (xtAppendList fuel m k.processess node).map fun m => ({ k with mem := m }, .ok result)

/-! ### The bytes that are kept -/

/-- The offsets in a record that `xtCreateProcess` does not write. -/
def Unset (i : ℕ) : Prop := i < 8 ∨ 24 ≤ i ∧ i < 64

instance (i : ℕ) : Decidable (Unset i) := inferInstanceAs (Decidable (_ ∨ _))

/-- Where `xtHeapAlloc` puts a record. -/
def recordBlock (fuel : ℕ) (k : Kernel) : ℕ :=
  match Heap.xtHeapAlloc fuel k.mem k.heapStart 72 with
  | some (some (_, result)) => result
  | _ => 0

/-- The byte that `xtAppendList` writes at an address. -/
def linkByte (fuel : ℕ) (m : Mem) (l toAppend a : ℕ) : Option UInt8 :=
  if l = 0 ∨ toAppend = 0 then none
  else (xtGetLastList m fuel l).bind fun last =>
    if last + 8 ≤ a then (leBytes 8 toAppend)[a - (last + 8)]? else none

/-- The byte at an address where the record is not written: the one before the call, or one of
    the link to the new node if the list of processes ends there. -/
def keptByte (fuel : ℕ) (k : Kernel) (parentProcess : ℕ) (page : Option ℕ) (a : ℕ) : UInt8 :=
  match createRecord fuel k parentProcess page with
  | some (m, .ok (_, node)) => (linkByte fuel m k.processess node a).getD (k.mem a)
  | _ => k.mem a

/-- The kernel's heap after any use of it. -/
structure Kernel.OnHeap (k : Kernel) (g : Run) : Prop where
  reachable : Reachable Run.Initial Run.Step g
  mem : k.mem = g.mem
  start : k.heapStart = g.heapStart

/-- The heap does not lie in a page. -/
def PageApart (g : Run) (page : ℕ) : Prop :=
  higherHalfMem page + 0x1000 ≤ g.heapStart ∨ g.heapStart + g.total ≤ higherHalfMem page

instance (g : Run) (page : ℕ) : Decidable (PageApart g page) :=
  inferInstanceAs (Decidable (_ ∨ _))

/-- The list of processes consists of live blocks. -/
def Kernel.Listed (k : Kernel) (g : Run) : Prop :=
  ∃ nodes, Linked 0 (nextAt k.mem) k.processess nodes 0 ∧ ∀ x ∈ nodes, (x, 16) ∈ g.live

/-! ### What the call writes -/

section frame

variable {fuel : ℕ} {k : Kernel} {g : Run} {m m' : Mem} {parentProcess page p node i : ℕ}

theorem fillRecord_outside {result : ℕ}
    (hpage : i < higherHalfMem page ∨ higherHalfMem page + 0x1000 ≤ i)
    (hid : i < result + 8 ∨ result + 24 ≤ i) (hlast : i < result + 64 ∨ result + 72 ≤ i) :
    fillRecord k m result page parentProcess i = m i := by
  rw [fillRecord]
  rw [storeLE_outside _ _ (by omega), storeLE_outside _ _ (by omega),
    storeLE_outside _ _ (by omega), store_outside _ _ (by rw [length_load]; omega),
    store_outside _ _ (by rw [List.length_replicate]; omega)]

/-- A heap in use: its live blocks are apart and lie in its region. -/
theorem Kernel.OnHeap.live (h : k.OnHeap g) :
    Heap.Region g.heapStart g.total ∧ StaticLive g.heapStart g.total k.mem g.live := by
  obtain ⟨bs, hsound⟩ := Heap.exists_sound h.reachable
  refine ⟨hsound.region, bs, ?_, hsound.live.subperm⟩
  rw [h.mem]
  exact hsound.tiled

/-- A new list node leaves the bytes of the live blocks. -/
theorem xtCreateList_frame {start total data : ℕ} {l : List (ℕ × ℕ)}
    (hr : Heap.Region start total) (hm : StaticLive start total m l)
    (h : xtCreateList fuel m start data = some (m', node)) :
    ∀ x ∈ l, ∀ i, x.1 ≤ i → i < x.1 + x.2 → m' i = m i := by
  intro x hx i h1 h2
  rw [xtCreateList] at h
  split at h
  · cases h
  · cases h
    rfl
  · rename_i m2 ptr hcall
    cases h
    obtain ⟨hlive, -, hkeep⟩ := hm.alloc hr (by decide) hcall
    have hapart := (List.pairwise_cons.mp (hlive.apart hr)).1 x hx
    dsimp only at hapart
    rw [storeLE_outside _ _ (by omega), storeLE_outside _ _ (by omega)]
    exact hkeep x (List.mem_cons_of_mem _ hx) i h1 h2

/-- Until the process is put in the list, the call writes its page table, its own fields of the
    record and the new node. -/
theorem createRecord_frame (hk : k.OnHeap g) (hpage : PageApart g page)
    (h : createRecord fuel k parentProcess (some page) = some (m, .ok (p, node))) :
    p = recordBlock fuel k ∧ p ≠ 0 ∧ (∀ i, Unset i → m (p + i) = k.mem (p + i)) ∧
      ∀ x ∈ g.live, (x.1 + x.2 ≤ p ∨ p + 72 ≤ x.1) ∧
        ∀ i, x.1 ≤ i → i < x.1 + x.2 → m i = k.mem i := by
  obtain ⟨hr, hlive⟩ := hk.live
  rw [createRecord] at h
  split at h
  · cases h
  · cases h
  rename_i m1 result hcall
  obtain ⟨⟨m2, node2⟩, hlist, heq⟩ := Option.map_eq_some_iff.mp h
  cases heq
  have hblock : recordBlock fuel k = p := by rw [recordBlock, hcall]
  rw [hk.start] at hcall hlist
  obtain ⟨hlive1, -, hkeep1⟩ := hlive.alloc hr (by decide) hcall
  have hrange : ∀ x ∈ (p, 72) :: g.live,
      g.heapStart ≤ x.1 ∧ x.1 + x.2 ≤ g.heapStart + g.total := by
    obtain ⟨bs, htiled, hsub⟩ := hlive1
    exact fun x hx => User.livePtr_range htiled (hsub.subset hx)
  have hapart := (List.pairwise_cons.mp (hlive1.apart hr)).1
  have hstart := hrange (p, 72) List.mem_cons_self
  dsimp only at hstart hapart
  -- the fields lie in the new block, and the page table outside the heap
  have hfill : ∀ i, g.heapStart ≤ i → i < g.heapStart + g.total →
      (i < p + 8 ∨ p + 24 ≤ i) → (i < p + 64 ∨ p + 72 ≤ i) →
      fillRecord k m1 p page parentProcess i = m1 i := by
    intro i h1 h2 hid hlast
    have hout := hpage
    rw [PageApart] at hout
    exact fillRecord_outside (by omega) hid hlast
  have hlive2 : StaticLive g.heapStart g.total (fillRecord k m1 p page parentProcess)
      ((p, 72) :: g.live) := by
    refine hlive1.write fun i hne => ?_
    by_contra hout
    push Not at hout
    have hp := hout.1 (p, 72) List.mem_cons_self
    dsimp only at hp
    exact hne (hfill i (by omega) (by omega) (by omega) (by omega))
  have hkeep2 := xtCreateList_frame hr hlive2 hlist
  refine ⟨hblock.symm, ?_, fun i hi => ?_, fun x hx => ⟨hapart x hx |>.symm, fun i h1 h2 => ?_⟩⟩
  · have := hr.start_ne
    omega
  · rw [Unset] at hi
    rw [hkeep2 (p, 72) List.mem_cons_self (p + i) (by omega) (by dsimp only; omega),
      hfill (p + i) (by omega) (by omega) (by omega) (by omega)]
    exact hkeep1 (p, 72) List.mem_cons_self (p + i) (by omega) (by dsimp only; omega)
  · have hx1 := hrange x (List.mem_cons_of_mem _ hx)
    have hx2 := hapart x hx
    rw [hkeep2 x (List.mem_cons_of_mem _ hx) i h1 h2,
      hfill i (by omega) (by omega) (by omega) (by omega)]
    exact hkeep1 x (List.mem_cons_of_mem _ hx) i h1 h2

/-- Linking the new node writes the link bytes. -/
theorem xtAppendList_bytes {l : ℕ} (h : xtAppendList fuel m l node = some m') (a : ℕ) :
    m' a = (linkByte fuel m l node a).getD (m a) := by
  rw [xtAppendList] at h
  rw [linkByte]
  split at h
  · rename_i hnull
    cases h
    rw [if_pos hnull]
    rfl
  · rename_i hnull
    obtain ⟨last, hlast, rfl⟩ := Option.map_eq_some_iff.mp h
    rw [if_neg hnull, hlast, Option.bind_some, storeLE, store]
    split_ifs <;> rfl

/-- The last node is one of the list. -/
theorem last_mem {l last : ℕ} {nodes : List ℕ} (h : Linked 0 (nextAt m) l nodes 0) (hl : l ≠ 0)
    (hlast : xtGetLastList m fuel l = some last) : last ∈ nodes := by
  induction fuel generalizing l nodes with
  | zero => cases hlast
  | succ fuel ih =>
    cases nodes with
    | nil => exact absurd h hl
    | cons x nodes =>
      obtain ⟨rfl, -, hrest⟩ := h
      rw [xtGetLastList] at hlast
      split_ifs at hlast with hnull
      · cases hlast
        exact List.mem_cons_self
      · exact List.mem_cons_of_mem _ (ih hrest hnull hlast)

/-- A list of live nodes does not end in the record of the new process. -/
theorem linkByte_listed (hk : k.OnHeap g) (hpage : PageApart g page) (hlisted : k.Listed g)
    (h : createRecord fuel k parentProcess (some page) = some (m, .ok (p, node))) (hi : i < 72) :
    linkByte fuel m k.processess node (p + i) = none := by
  obtain ⟨-, -, -, hold⟩ := createRecord_frame hk hpage h
  obtain ⟨nodes, hlinked, hnodes⟩ := hlisted
  -- the list is as it was, and its last node lies in a live block
  have hlinked' : Linked 0 (nextAt m) k.processess nodes 0 := by
    refine hlinked.congr fun x hx => loadLE_congr fun j h1 h2 => ?_
    exact (hold (x, 16) (hnodes x hx)).2 j (by dsimp only; omega) (by dsimp only; omega)
  rw [linkByte]
  split_ifs with hnull
  · rfl
  · rw [Option.bind_eq_none_iff]
    intro last hlast
    have hmem := hnodes last (last_mem hlinked' (fun hzero => hnull (.inl hzero)) hlast)
    have hapart := (hold _ hmem).1
    dsimp only at hapart
    split_ifs with hle
    · exact List.getElem?_eq_none (by rw [length_leBytes]; omega)
    · rfl

end frame

/-! ### What a new process shows -/

section visible

variable {fuel : ℕ} {k k' : Kernel} {g : Run} {m : Mem} {parentProcess page p : ℕ}

/-- A process shows nothing exactly if the bytes that `xtCreateProcess` does not write are
    zero. -/
theorem visible_eq_empty_iff (hp : p ≠ 0) :
    visible m p = Visible.empty ↔ ∀ i, Unset i → m (p + i) = 0 := by
  constructor
  · intro h i hi
    unfold visible Visible.empty at h
    obtain ⟨h0, h24, h32, h40, h48, h56, -, -⟩ := Visible.mk.inj h
    have hfields : ∀ j, loadLE m (p + j) 8 = 0 → j ≤ i → i < j + 8 → m (p + i) = 0 := by
      intro j hj h1 h2
      have := loadLE_eq_zero_iff.mp hj (i - j) (by omega)
      rwa [show p + j + (i - j) = p + i by omega] at this
    rw [Unset] at hi
    obtain hi | hi | hi | hi | hi | hi : i < 8 ∨ (24 ≤ i ∧ i < 32) ∨ (32 ≤ i ∧ i < 40) ∨
        (40 ≤ i ∧ i < 48) ∨ (48 ≤ i ∧ i < 56) ∨ (56 ≤ i ∧ i < 64) := by omega
    · exact hfields 0 h0 (by omega) (by omega)
    · exact hfields 24 h24 hi.1 hi.2
    · exact hfields 32 h32 hi.1 hi.2
    · exact hfields 40 h40 hi.1 hi.2
    · exact hfields 48 h48 hi.1 hi.2
    · exact hfields 56 h56 hi.1 hi.2
  · intro h
    have hzero : ∀ j, (∀ i < 8, Unset (j + i)) → loadLE m (p + j) 8 = 0 := by
      intro j hj
      refine loadLE_eq_zero_iff.mpr fun i hi => ?_
      rw [add_assoc]
      exact h _ (hj i hi)
    -- a null list ends the search, and a null table every lookup
    have hmap : (processAt m p).memoryMap = 0 := hzero 32 (by decide)
    have hroot : (handlesAt m p).Initial := hzero 40 (by decide)
    have hnone : (handlesAt m p).heap.descriptors 0 = none := rfl
    have hhandle : lookup (handlesAt m p) = Visible.empty.handle := by
      funext handle
      rw [hroot.lookup, hnone, Visible.empty]
    have hfind : (fun fuel ptr => xtFindVirtualMap (fuel + 1) m p ptr) = Visible.empty.find := by
      funext fuel ptr
      rw [xtFindVirtualMap, if_neg hp, hmap]
      rfl
    rw [visible]
    rw [hhandle, hfind, hmap]
    simp only [processAt, hzero 24 (by decide), hzero 40 (by decide), hzero 48 (by decide),
      hzero 56 (by decide), show loadLE m p 8 = 0 from hzero 0 (by decide)]
    rfl

/-- The bytes of the record that the call does not write are the kept ones. -/
theorem xtCreateProcess_bytes (hk : k.OnHeap g) (hpage : PageApart g page)
    (h : xtCreateProcess fuel k parentProcess (some page) = some (k', .ok p)) :
    p = recordBlock fuel k ∧ p ≠ 0 ∧
      (∀ i, Unset i → k'.mem (p + i) = keptByte fuel k parentProcess (some page) (p + i)) ∧
      (k.Listed g → ∀ i, Unset i → k'.mem (p + i) = k.mem (p + i)) := by
  rw [xtCreateProcess] at h
  split at h
  · cases h
  · cases h
  rename_i m result node hcreate
  dsimp only at h
  -- only the link of the new node is written behind the record and its page table
  have hbytes : result = p ∧ ∀ a, k'.mem a = (linkByte fuel m k.processess node a).getD (m a) := by
    split_ifs at h with hnull
    · cases h
      refine ⟨rfl, fun a => ?_⟩
      rw [linkByte, if_pos (.inl hnull)]
      rfl
    · obtain ⟨m', happend, heq⟩ := Option.map_eq_some_iff.mp h
      cases heq
      exact ⟨rfl, xtAppendList_bytes happend⟩
  obtain ⟨rfl, hbytes⟩ := hbytes
  obtain ⟨hblock, hne, hkeep, -⟩ := createRecord_frame hk hpage hcreate
  refine ⟨hblock, hne, fun i hi => ?_, fun hlisted i hi => ?_⟩
  · rw [hbytes, keptByte, hcreate, hkeep i hi]
  · rw [hbytes, linkByte_listed hk hpage hlisted hcreate (by rw [Unset] at hi; omega)]
    exact hkeep i hi

/-- **A new process**: in every state of the heap, the process that `xtCreateProcess` returns
    shows nothing exactly if all bytes that it keeps in the fields it does not write are zero.
    If the list of processes holds live nodes only, these are the bytes of the block before the
    call. -/
theorem xtCreateProcess_visible_iff (hk : k.OnHeap g) (hpage : PageApart g page)
    (h : xtCreateProcess fuel k parentProcess (some page) = some (k', .ok p)) :
    (visible k'.mem p = Visible.empty ↔ ∀ i, Unset i →
      keptByte fuel k parentProcess (some page) (recordBlock fuel k + i) = 0) ∧
    (k.Listed g → (visible k'.mem p = Visible.empty ↔
      ∀ i, Unset i → k.mem (recordBlock fuel k + i) = 0)) := by
  obtain ⟨hblock, hne, hkept, hlisted⟩ := xtCreateProcess_bytes hk hpage h
  rw [visible_eq_empty_iff hne, ← hblock]
  refine ⟨forall₂_congr fun i hi => ?_, fun hl => forall₂_congr fun i hi => ?_⟩
  · rw [hkept i hi]
  · rw [hlisted hl i hi]

end visible

/-- The kernel on a heap, with no process so far. -/
def firstProcess (g : Run) : Kernel := ⟨g.mem, g.heapStart, 0x200000, 0, 0⟩

/-- The first process in a heap of zeros is empty. -/
theorem visible_in_fresh_heap : ∃ k' p,
    xtCreateProcess 3 (firstProcess Heap.freshHeap) 0 (some 0x100000) = some (k', .ok p) ∧
      visible k'.mem p = Visible.empty := by
  have hk : (firstProcess Heap.freshHeap).OnHeap Heap.freshHeap :=
    ⟨.start Heap.freshHeap_initial, rfl, rfl⟩
  have hpage : PageApart Heap.freshHeap 0x100000 := by decide +kernel
  obtain ⟨k', p, hcall⟩ : ∃ k' p, xtCreateProcess 3 (firstProcess Heap.freshHeap) 0
      (some 0x100000) = some (k', .ok p) := ⟨_, _, rfl⟩
  refine ⟨k', p, hcall, ?_⟩
  refine ((xtCreateProcess_visible_iff hk hpage hcall).2 ⟨[], rfl, by simp⟩).mpr fun i hi => ?_
  have hzero : ∀ i < 64, (firstProcess Heap.freshHeap).mem
      (recordBlock 3 (firstProcess Heap.freshHeap) + i) = 0 := by decide +kernel
  exact hzero i (by rw [Unset] at hi; omega)

/-- A block of 72 bytes was used and freed, with the address of its byte 40 at 40 and a 1 at 48.
    The process that gets it is terminating and resolves handle 0. -/
theorem recycled_block_visible : ∃ (g : Run) (k' : Kernel) (p : ℕ),
    (firstProcess g).OnHeap g ∧ PageApart g 0x100000 ∧
      xtCreateProcess 3 (firstProcess g) 0 (some 0x100000) = some (k', .ok p) ∧
      (visible k'.mem p).flags = 1 ∧ ((visible k'.mem p).handle 0).1 = .success ∧
      visible k'.mem p ≠ Visible.empty := by
  have h1 := (Reachable.start Heap.freshHeap_initial : Reachable Run.Initial Run.Step _).next
    ⟨.alloc 2 72, rfl⟩
  have h2 := h1.next ⟨.write 4184 0x58, rfl⟩
  have h3 := h2.next ⟨.write 4185 0x10, rfl⟩
  have h4 := h3.next ⟨.write 4192 1, rfl⟩
  have h5 := h4.next ⟨.free 4144 72, rfl⟩
  have hne : ∀ {m p}, (visible m p).flags = 1 → visible m p ≠ Visible.empty := by
    intro m p hflags h
    rw [h] at hflags
    exact absurd hflags (by decide)
  refine ⟨_, _, _, ⟨h5, rfl, rfl⟩, by decide +kernel, rfl, ?_, ?_, hne ?_⟩
  · decide +kernel
  · decide +kernel
  · decide +kernel

end XTOS.ProcessRecord

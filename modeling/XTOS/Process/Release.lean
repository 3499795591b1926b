import XTOS.Linker.Load
import XTOS.Process.Threads
import XTOS.User.Arguments

/-!
# What the end of a process frees

`xtTerminateProcess` of `xtkernel/process.c`, when another process calls it, gives back the kernel
stacks of the threads, what the entries of the memory map name, and the page of the top table. The
pages come from `xtMapModuleToProcess`, `xtPassArgs`, `xtCreateThread` and `xtPageFaultHandler`.

## Main definitions

- `xtMapModuleToProcess`, `xtPassArgs`, `xtPageFaultHandler` — the pages that they get and enter
- `Use.leaked`, `Use.shared` — what a call gets and never enters, and enters without getting it
- `History` — the calls that use a process, and steps that leave it alone
- `Releases` — the ranges that were allocated for a process are freed, each once

## Main results

- `xtTerminateProcess_frees` — the ranges that the call frees
- `History.ledger` — the account of the ranges of a process along its history
- `xtTerminateProcess_returns_iff` — the call returns exactly if the list `processess` ends
- `xtTerminateProcess_releases_iff` — the ranges of a process are freed exactly if also nothing was
  leaked or shared

## Design notes

The contents of the pages do not matter here: a mapping is its allocations. A thread that a fault ends
is the subject of `xtTerminateThread`, a call of its own.
-/

namespace XTOS.Process

open SysLib XTOS.LinkedList XTOS.Paging
open XTOS.Linker (ImageSection pageRound xtMemRead)
open XTOS.User (vaBase)

/-! ### Calls that get pages for a process -/

/-- `XT_MEM_RESERVED`. -/
def xtMemReserved : ℕ := 2

/-- What the allocators give when a range is mapped and entered. -/
structure MappingAlloc where
  setPages : PageTables
  mapEntry : Option XTVirtualMap
  mapNode : Bool

/-- There is memory for the entry. -/
def MappingAlloc.entered (m : MappingAlloc) : Bool := m.mapEntry.isSome && m.mapNode

theorem MappingAlloc.entered_iff (m : MappingAlloc) :
    m.entered = true ↔ m.mapEntry ≠ none ∧ m.mapNode ≠ false := by
  rw [MappingAlloc.entered, Bool.and_eq_true, Option.isSome_iff_ne_none, Bool.ne_false_iff]

/-- What the allocators give for a section. -/
structure SectionAlloc extends MappingAlloc where
  privateCopy : Option ℕ

/-- The pages that are mapped for a section: those of the image, or a copy, `NULL` if there are no
    pages for it. -/
def sectionSource (image : ℕ) (sec : ImageSection) (m : SectionAlloc) : ℕ :=
  if sec.writable then m.privateCopy.getD 0 else (image + sec.virtualAddress) % 2 ^ 64

/-- The pages that are allocated for a section. -/
def sectionCopy (sec : ImageSection) (m : SectionAlloc) : List (ℕ × ℕ) :=
  if sec.writable then m.privateCopy.toList.map fun c => (c, pageRound sec.sizeOfRawData) else []

/-- One pass of the loop of `xtMapModuleToProcess`, which does not look at what its calls return. -/
def mapSection (image base p : ℕ) (k : Kernel) (x : ImageSection × SectionAlloc) : Kernel :=
  let k := k.own p (sectionCopy x.1 x.2)
  let k := (k.setPages p x.2.setPages).1
  (xtInsertVirtualMap k p ((base + x.1.virtualAddress) % 2 ^ 64) (sectionSource image x.1 x.2)
    (pageRound x.1.sizeOfRawData) (x.1.attr ||| xtMemReserved) x.2.mapEntry x.2.mapNode).1

/-- `xtMapModuleToProcess`. -/
def xtMapModuleToProcess (image base p : ℕ) (k : Kernel)
    (sections : List (ImageSection × SectionAlloc)) : Kernel :=
  sections.foldl (mapSection image base p) k

/-- What the allocators and the random source give to `xtPassArgs`. -/
structure BlockAlloc extends MappingAlloc where
  phys : Option ℕ
  random : ℕ

/-- `xtPassArgs` for a block of a given size. -/
def xtPassArgs (k : Kernel) (p totalSize : ℕ) (m : BlockAlloc) : Kernel × XTResult :=
  match m.phys with
  | none => (k, .outOfMemory)
  | some phys =>
    let k := k.own p [(phys, totalSize)]
    let (k, r) := k.setPages p m.setPages
    if r.isError then (k, r) else
    xtInsertVirtualMap k p (vaBase m.random) phys totalSize
      (xtMemUser ||| xtMemRead ||| xtMemWrite ||| xtMemReserved) m.mapEntry m.mapNode

/-- What the allocators give to `xtPageFaultHandler`. -/
structure FaultAlloc where
  newPage : Option ℕ
  setPages : PageTables

/-- The entry that `xtFindVirtualMap` gives. -/
def findMap (maps : List XTVirtualMap) (ptr : ℕ) : Option XTVirtualMap :=
  maps.find? fun e => e.virtualStart ≤ ptr ∧ ptr ≤ (e.virtualStart + e.size) % 2 ^ 64

/-- `xtPageFaultHandler` for a fault of a thread of process `p`. The page of a file belongs to its
    driver. -/
def xtPageFaultHandler (k : Kernel) (p errorVM errorCode : ℕ) (m : FaultAlloc) : Kernel :=
  match findMap (k.process p).memoryMap errorVM with
  | none => k
  | some mapEntry =>
    if errorCode &&& 0x2 ≠ 0 ∧ mapEntry.attr &&& xtMemWrite = 0 then k
    else if mapEntry.file ≠ 0 then (k.setPages p m.setPages).1
    else
      match m.newPage with
      | none => k
      | some newPage => ((k.own p [(newPage, 0x1000)]).setPages p m.setPages).1

/-- The calls that get pages for a process. -/
inductive Use where
  | loadModule (image base : ℕ) (sections : List (ImageSection × SectionAlloc))
  | passArgs (totalSize : ℕ) (m : BlockAlloc)
  | createThread (stackSize state : ℕ) (m : ThreadAlloc)
  | pageFault (errorVM errorCode : ℕ) (m : FaultAlloc)

/-- A call for process `p`. -/
def Kernel.use (k : Kernel) (p : ℕ) : Use → Kernel
  | .loadModule image base sections => xtMapModuleToProcess image base p k sections
  | .passArgs totalSize m => (xtPassArgs k p totalSize m).1
  | .createThread stackSize state m => (xtCreateThread k p stackSize state m).1
  | .pageFault errorVM errorCode m => xtPageFaultHandler k p errorVM errorCode m

/-! ### What is leaked and what is shared -/

/-- The pages of new tables. -/
def PageTables.ranges (m : PageTables) : List (ℕ × ℕ) := m.tables.map fun t => (t, 0x1000)

/-- A range that is got and should be entered; `xtTerminateProcess` skips the address 0. -/
def MappingAlloc.unnamed (m : MappingAlloc) (ranges : List (ℕ × ℕ)) : List (ℕ × ℕ) :=
  ranges.filter fun r => ¬ (m.entered ∧ r.1 ≠ 0)

/-- What is got for a section and not entered: the new tables, and a copy without an entry. -/
def sectionLeak (x : ImageSection × SectionAlloc) : List (ℕ × ℕ) :=
  x.2.setPages.ranges ++ x.2.unnamed (sectionCopy x.1 x.2)

/-- The pages of the image that are entered as if they belonged to the process. -/
def sectionShare (image : ℕ) (x : ImageSection × SectionAlloc) : List (ℕ × ℕ) :=
  if x.1.writable = false ∧ x.2.entered ∧ sectionSource image x.1 x.2 ≠ 0 then
    [(sectionSource image x.1 x.2, pageRound x.1.sizeOfRawData)]
  else []

/-- The pages that `xtAllocateUserStack` gets. -/
def UserStackAlloc.ranges (p : ℕ) (m : UserStackAlloc) : List (ℕ × ℕ) :=
  match m.stackRaw with
  | none => []
  | some stackRaw => (stackRaw, 0x1000) ::
      if p = 0 ∨ m.mapEntry = none ∨ m.mapNode = false then [] else m.setPages.ranges

/-- The pages that `xtCreateThread` gets. -/
def ThreadAlloc.ranges (p state : ℕ) (m : ThreadAlloc) : List (ℕ × ℕ) :=
  match m.kernelStack with
  | none => []
  | some kernelStack => (kernelStack, 0x4000) ::
      if state &&& xtThreadUser ≠ 0 then m.userStack.ranges p else []

/-- What a call gets for the process without entering it under its physical address. -/
def Use.leaked (k : Kernel) (p : ℕ) : Use → List (ℕ × ℕ)
  | .loadModule _ _ sections => sections.flatMap sectionLeak
  | .passArgs totalSize m =>
    match m.phys with
    | none => []
    | some phys => m.setPages.ranges ++
        if m.setPages.result.isError then [(phys, totalSize)] else m.unnamed [(phys, totalSize)]
  | .createThread _ state m => m.ranges p state
  | .pageFault errorVM errorCode m =>
    match findMap (k.process p).memoryMap errorVM with
    | none => []
    | some mapEntry =>
      if errorCode &&& 0x2 ≠ 0 ∧ mapEntry.attr &&& xtMemWrite = 0 then []
      else if mapEntry.file ≠ 0 then m.setPages.ranges
      else
        match m.newPage with
        | none => []
        | some newPage => (newPage, 0x1000) :: m.setPages.ranges

/-- What a call enters that it did not get for the process. -/
def Use.shared : Use → List (ℕ × ℕ)
  | .loadModule image _ sections => sections.flatMap (sectionShare image)
  | .passArgs _ _ => []
  | .createThread _ _ _ => []
  | .pageFault _ _ _ => []

/-! ### What is entered -/

/-- The ranges that the entries of a memory map name. -/
def mapRanges (maps : List XTVirtualMap) : List (ℕ × ℕ) :=
  (maps.filter XTVirtualMap.freed).map fun m => (m.physicalAddress, m.size)

/-- A range, unless it is at the address 0. -/
def named (r : ℕ × ℕ) : List (ℕ × ℕ) := if r.1 = 0 then [] else [r]

/-- The attribute makes no difference: `~(attr & XT_MEM_SHARED)` is never 0. -/
theorem freed_iff (m : XTVirtualMap) : m.freed = true ↔ m.physicalAddress ≠ 0 := by
  have hle : m.attr &&& xtMemShared ≤ xtMemShared := Nat.and_le_right
  have hshared : xtMemShared = 0x100 := rfl
  rw [XTVirtualMap.freed, decide_eq_true_iff]
  exact and_iff_left_of_imp fun _ => by omega

theorem insertMap_perm (m : XTVirtualMap) (maps : List XTVirtualMap) :
    (insertMap m maps).Perm (m :: maps) := by
  induction maps with
  | nil => exact .refl _
  | cons e es ih =>
    rw [insertMap]
    split_ifs
    · exact .refl _
    · exact (ih.cons e).trans (.swap m e es)

theorem mapRanges_insertMap (m : XTVirtualMap) (maps : List XTVirtualMap) :
    (mapRanges (insertMap m maps)).Perm
      (mapRanges maps ++ named (m.physicalAddress, m.size)) := by
  have hperm := ((insertMap_perm m maps).filter XTVirtualMap.freed).map
    fun m => (m.physicalAddress, m.size)
  refine hperm.trans (List.Perm.trans ?_ List.perm_append_comm)
  rw [named]
  split_ifs with hzero
  · rw [List.filter_cons_of_neg (by rw [freed_iff]; exact not_not.mpr hzero)]
    exact .refl _
  · rw [List.filter_cons_of_pos ((freed_iff m).mpr hzero)]
    exact .refl _

/-- From `k` to `k'` the ranges `entered` are entered in the memory map of a process and the ranges
    `new` are allocated for it. -/
structure Change (k k' : Kernel) (p : ℕ) (entered new : List (ℕ × ℕ)) : Prop where
  pageTable : (k'.process p).pageTable = (k.process p).pageTable
  flags : (k'.process p).flags = (k.process p).flags
  threads : (k'.process p).threads = (k.process p).threads
  thread : k'.thread = k.thread
  maps : (mapRanges (k'.process p).memoryMap).Perm (mapRanges (k.process p).memoryMap ++ entered)
  owned : k'.owned p = k.owned p ++ new

section change

variable {k k' k'' : Kernel} {p : ℕ} {entered entered' new new' : List (ℕ × ℕ)}

theorem Change.refl (k : Kernel) (p : ℕ) : Change k k p [] [] where
  pageTable := rfl
  flags := rfl
  threads := rfl
  thread := rfl
  maps := by rw [List.append_nil]
  owned := by rw [List.append_nil]

theorem Change.trans (h : Change k k' p entered new) (h' : Change k' k'' p entered' new') :
    Change k k'' p (entered ++ entered') (new ++ new') where
  pageTable := h'.pageTable.trans h.pageTable
  flags := h'.flags.trans h.flags
  threads := h'.threads.trans h.threads
  thread := h'.thread.trans h.thread
  maps := by
    rw [← List.append_assoc]
    exact h'.maps.trans (h.maps.append_right _)
  owned := by rw [h'.owned, h.owned, List.append_assoc]

theorem change_own (k : Kernel) (p : ℕ) (ranges : List (ℕ × ℕ)) :
    Change k (k.own p ranges) p [] ranges where
  pageTable := rfl
  flags := rfl
  threads := rfl
  thread := rfl
  maps := by
    rw [List.append_nil]
    exact .refl _
  owned := Function.update_self _ _ _

theorem change_setPages (k : Kernel) (p : ℕ) (m : PageTables) :
    Change k (k.setPages p m).1 p [] m.ranges :=
  change_own k p m.ranges

theorem modifyProcess_self (k : Kernel) (p : ℕ) (f : XTProcess → XTProcess) :
    (k.modifyProcess p f).process p = f (k.process p) := Function.update_self _ _ _

/-- `xtInsertVirtualMap` enters its range if there is memory for the entry. -/
theorem change_xtInsertVirtualMap (k : Kernel) (virtualStart physicalAddress size attr : ℕ)
    (m : MappingAlloc) (hp : p ≠ 0) :
    Change k (xtInsertVirtualMap k p virtualStart physicalAddress size attr m.mapEntry m.mapNode).1 p
      (if m.entered then named (physicalAddress, size) else []) [] := by
  have herror := xtInsertVirtualMap_isError k p virtualStart physicalAddress size attr m.mapEntry
    m.mapNode
  obtain ⟨r, hcall, hr⟩ | ⟨offset, file, hcall⟩ :=
    xtInsertVirtualMap_cases k p virtualStart physicalAddress size attr m.mapEntry m.mapNode
  · rw [hcall] at herror
    have hnot : ¬ m.entered := by
      rw [m.entered_iff]
      have := herror.mp hr
      tauto
    rw [hcall, if_neg hnot]
    exact .refl k p
  · rw [hcall] at herror
    have hentered : m.entered := by
      rw [m.entered_iff]
      have := mt herror.mpr Bool.false_ne_true
      tauto
    rw [hcall, if_pos hentered]
    refine ⟨?_, ?_, ?_, rfl, ?_, (List.append_nil _).symm⟩
    · rw [modifyProcess_self]
    · rw [modifyProcess_self]
    · rw [modifyProcess_self]
    · rw [modifyProcess_self]
      exact mapRanges_insertMap _ _

end change

/-! ### The account of a call -/

/-- From `k` to `k'` what is entered for a process, with what is leaked, is what is allocated for it,
    with what is shared. -/
def Accounted (k k' : Kernel) (p : ℕ) (leaked shared : List (ℕ × ℕ)) : Prop :=
  ∃ entered new, Change k k' p entered new ∧ (entered ++ leaked).Perm (new ++ shared) ∧ leaked ⊆ new

section account

variable {k k' k'' : Kernel} {p : ℕ} {leaked leaked' shared shared' : List (ℕ × ℕ)}

theorem Accounted.refl (k : Kernel) (p : ℕ) : Accounted k k p [] [] :=
  ⟨[], [], .refl k p, .refl _, List.Subset.refl _⟩

theorem Accounted.trans (h : Accounted k k' p leaked shared)
    (h' : Accounted k' k'' p leaked' shared') :
    Accounted k k'' p (leaked ++ leaked') (shared ++ shared') := by
  obtain ⟨entered, new, hchange, hperm, hsub⟩ := h
  obtain ⟨entered', new', hchange', hperm', hsub'⟩ := h'
  refine ⟨_, _, hchange.trans hchange', List.perm_iff_count.mpr fun r => ?_, ?_⟩
  · have hcount := hperm.count_eq r
    have hcount' := hperm'.count_eq r
    simp only [List.count_append] at hcount hcount' ⊢
    omega
  · exact List.append_subset.mpr
      ⟨List.Subset.trans hsub (List.subset_append_left _ _),
        List.Subset.trans hsub' (List.subset_append_right _ _)⟩

theorem MappingAlloc.entered_append_unnamed (m : MappingAlloc) (r : ℕ × ℕ) :
    (if m.entered then named r else []) ++ m.unnamed [r] = [r] := by
  rw [MappingAlloc.unnamed, named]
  by_cases hentered : m.entered
  · by_cases hzero : r.1 = 0
    · simp [hentered, hzero]
    · simp [hentered, hzero]
  · simp [hentered]

theorem accounted_mapSection (image base : ℕ) (k : Kernel) (hp : p ≠ 0)
    (x : ImageSection × SectionAlloc) :
    Accounted k (mapSection image base p k x) p (sectionLeak x) (sectionShare image x) := by
  obtain ⟨sec, m⟩ := x
  refine ⟨_, _, ((change_own k p _).trans (change_setPages _ p _)).trans
    (change_xtInsertVirtualMap _ _ _ _ _ m.toMappingAlloc hp), ?_, ?_⟩
  · have hsame : (if m.entered then named (sectionSource image sec m, pageRound sec.sizeOfRawData)
        else []) ++ m.unnamed (sectionCopy sec m) =
          sectionCopy sec m ++ sectionShare image (sec, m) := by
      rw [sectionCopy, sectionSource, sectionShare, sectionSource]
      cases hwrite : sec.writable with
      | false => simp [named, MappingAlloc.unnamed, ite_and]
      | true =>
        cases hcopy : m.privateCopy with
        | none => simp [named, MappingAlloc.unnamed]
        | some c => simpa using m.entered_append_unnamed (c, pageRound sec.sizeOfRawData)
    refine List.perm_iff_count.mpr fun r => ?_
    have hcount := congrArg (List.count r) hsame
    simp only [sectionLeak, List.count_append, List.count_nil] at hcount ⊢
    omega
  · rw [sectionLeak, List.append_nil]
    refine List.append_subset.mpr ⟨List.subset_append_right _ _, ?_⟩
    exact List.Subset.trans (List.filter_subset_self _) (List.subset_append_left _ _)

theorem accounted_xtMapModuleToProcess (image base : ℕ) (k : Kernel) (hp : p ≠ 0)
    (sections : List (ImageSection × SectionAlloc)) :
    Accounted k (xtMapModuleToProcess image base p k sections) p (sections.flatMap sectionLeak)
      (sections.flatMap (sectionShare image)) := by
  induction sections generalizing k with
  | nil => exact .refl k p
  | cons x xs ih => exact (accounted_mapSection image base k hp x).trans (ih _)

theorem accounted_xtPassArgs (k : Kernel) (totalSize : ℕ) (m : BlockAlloc) (hp : p ≠ 0) :
    Accounted k (xtPassArgs k p totalSize m).1 p (Use.leaked k p (.passArgs totalSize m)) [] := by
  rw [xtPassArgs, Use.leaked]
  cases hphys : m.phys with
  | none => exact .refl k p
  | some phys =>
    dsimp only [Kernel.setPages]
    have hpages := (change_own k p [(phys, totalSize)]).trans (change_setPages _ p m.setPages)
    by_cases herror : m.setPages.result.isError
    · rw [if_pos herror, if_pos herror]
      refine ⟨_, _, hpages, ?_, ?_⟩
      · rw [List.append_nil, List.nil_append, List.append_nil]
        exact List.perm_append_comm
      · exact List.append_subset.mpr ⟨List.subset_append_right _ _, List.subset_append_left _ _⟩
    · rw [if_neg herror, if_neg herror]
      refine ⟨_, _, hpages.trans (change_xtInsertVirtualMap _ _ _ _ _ m.toMappingAlloc hp), ?_, ?_⟩
      · refine List.perm_iff_count.mpr fun r => ?_
        have hcount := congrArg (List.count r)
          (m.toMappingAlloc.entered_append_unnamed (phys, totalSize))
        simp only [List.count_append, List.count_nil] at hcount ⊢
        omega
      · rw [List.append_nil]
        refine List.append_subset.mpr ⟨List.subset_append_right _ _, ?_⟩
        exact List.Subset.trans (List.filter_subset_self _) (List.subset_append_left _ _)

/-- A page that a fault gets is never entered. -/
theorem accounted_xtPageFaultHandler (k : Kernel) (p errorVM errorCode : ℕ) (m : FaultAlloc) :
    Accounted k (xtPageFaultHandler k p errorVM errorCode m) p
      (Use.leaked k p (.pageFault errorVM errorCode m)) [] := by
  have hnew : ∀ {k' : Kernel} {new : List (ℕ × ℕ)}, Change k k' p [] new →
      Accounted k k' p new [] := fun h => ⟨[], _, h, by rw [List.append_nil]; exact .refl _, List.Subset.refl _⟩
  rw [xtPageFaultHandler, Use.leaked]
  split
  · exact .refl k p
  · split_ifs
    · exact .refl k p
    · exact hnew (change_setPages k p _)
    · split
      · exact .refl k p
      · exact hnew ((change_own k p _).trans (change_setPages _ p _))

/-- A user stack is entered without its page. -/
theorem change_xtAllocateUserStack (k : Kernel) (stackSize : ℕ) (m : UserStackAlloc) (hp : p ≠ 0) :
    Change k (xtAllocateUserStack k p stackSize m).1 p [] (m.ranges p) := by
  rw [xtAllocateUserStack, UserStackAlloc.ranges]
  cases m.stackRaw with
  | none => exact .refl k p
  | some stackRaw =>
    dsimp only [Kernel.setPages]
    have hown := change_own k p [(stackRaw, 0x1000)]
    have hinsert := change_xtInsertVirtualMap (k.own p [(stackRaw, 0x1000)])
      (m.random % 2 ^ 34 * 2 ^ 12) 0 stackSize (2 ||| 0x0400 ||| xtMemWrite ||| xtMemUser)
      ⟨m.setPages, m.mapEntry, m.mapNode⟩ hp
    rw [named, if_pos rfl, ite_self] at hinsert
    have hentered := hown.trans hinsert
    have herror := xtInsertVirtualMap_isError (k.own p [(stackRaw, 0x1000)]) p
      (m.random % 2 ^ 34 * 2 ^ 12) 0 stackSize (2 ||| 0x0400 ||| xtMemWrite ||| xtMemUser)
      m.mapEntry m.mapNode
    by_cases hfails : p = 0 ∨ m.mapEntry = none ∨ m.mapNode = false
    · rw [if_pos hfails, if_pos (herror.mpr hfails)]
      exact hentered
    · rw [if_neg hfails, if_neg (mt herror.mp hfails)]
      split_ifs
      · exact hentered.trans (change_setPages _ p m.setPages)
      · exact hentered.trans (change_setPages _ p m.setPages)

theorem change_takeStack (k : Kernel) (stackSize state : ℕ) (m : ThreadAlloc) (hp : p ≠ 0) :
    Change k (takeStack k p stackSize state m).1 p []
      (if state &&& xtThreadUser ≠ 0 then m.userStack.ranges p else []) := by
  have hstack := change_xtAllocateUserStack k stackSize m.userStack hp
  rw [takeStack]
  split_ifs
  · split
    · rename_i heq
      rw [heq] at hstack
      exact hstack
    · rename_i heq
      rw [heq] at hstack
      exact hstack
  · exact .refl k p

end account

/-! ### The ledger of a process -/

/-- A thread belongs to a process and has a kernel stack. -/
def HasStack (k : Kernel) (p t : ℕ) : Prop :=
  (k.thread t).process = p ∧
    ∃ stack, (k.thread t).kernelStack = (higherHalfMem stack + 0x4000) % 2 ^ 64

/-- What the memory map names and the page of the top table, with what is leaked, is what is
    allocated for the process, with what is shared. -/
structure Ledger (k : Kernel) (p : ℕ) (leaked shared : List (ℕ × ℕ)) : Prop where
  account : (mapRanges (k.process p).memoryMap ++ named ((k.process p).pageTable, 0x1000) ++
    leaked).Perm (k.owned p ++ shared)
  leaked_subset : leaked ⊆ k.owned p
  running : ¬ k.Terminating p
  held : ∀ t ∈ (k.process p).threads, HasStack k p t
  idle : leaked = [] → (k.process p).threads = []

section ledger

variable {k k' : Kernel} {p t : ℕ} {leaked leaked' shared shared' : List (ℕ × ℕ)}

/-- **Step**: a call that is accounted for. -/
theorem Ledger.accounted (h : Ledger k p leaked shared) (hk : Accounted k k' p leaked' shared') :
    Ledger k' p (leaked ++ leaked') (shared ++ shared') := by
  obtain ⟨entered, new, hchange, hperm, hsub⟩ := hk
  refine ⟨List.perm_iff_count.mpr fun r => ?_, ?_, ?_, ?_, ?_⟩
  · have hmaps := hchange.maps.count_eq r
    have hbefore := h.account.count_eq r
    have hcall := hperm.count_eq r
    rw [hchange.pageTable, hchange.owned]
    simp only [List.count_append] at hmaps hbefore hcall ⊢
    omega
  · rw [hchange.owned]
    exact List.append_subset.mpr ⟨List.Subset.trans h.leaked_subset (List.subset_append_left _ _),
      List.Subset.trans hsub (List.subset_append_right _ _)⟩
  · rw [Kernel.Terminating, hchange.flags]
    exact h.running
  · intro t ht
    rw [hchange.threads] at ht
    rw [HasStack, hchange.thread]
    exact h.held t ht
  · intro hnil
    rw [hchange.threads]
    exact h.idle (List.append_eq_nil_iff.mp hnil).1

/-- Another list of threads: each has its stack, and something was leaked already. -/
theorem Ledger.withThreads (h : Ledger k p leaked shared) (hleaked : leaked ≠ [])
    {threads : List ℕ} (hp : k'.process p = { k.process p with threads := threads })
    (howned : k'.owned p = k.owned p) (hheld : ∀ t' ∈ threads, HasStack k' p t') :
    Ledger k' p leaked shared := by
  refine ⟨?_, ?_, ?_, fun t' ht' => ?_, fun hnil => absurd hnil hleaked⟩
  · rw [hp]
    exact howned ▸ h.account
  · exact howned ▸ h.leaked_subset
  · rw [Kernel.Terminating, hp]
    exact h.running
  · rw [hp] at ht'
    exact hheld t' ht'

/-- The new thread has its stack, and the others keep theirs. -/
theorem Ledger.setThread (h : Ledger k p leaked shared) (hleaked : leaked ≠ [])
    (hprocess : k'.process p = k.process p) (howned : k'.owned p = k.owned p)
    (hthread : ∀ t' ≠ t, k'.thread t' = k.thread t') (stack state : ℕ) (m : ThreadAlloc) :
    Ledger (XTOS.Process.setThread k' p (higherHalfMem stack) state t m).1 p leaked shared := by
  set k1 := k'.modifyThread t fun th => { th with
    process := p, result := 0, state := state, privilage := 20, ticks := 20
    kernelStack := (higherHalfMem stack + 0x4000) % 2 ^ 64, waitThreads := [] } with hk1
  have hnew : HasStack k1 p t := by
    rw [HasStack, hk1, Kernel.modifyThread]
    dsimp only
    rw [Function.update_self]
    exact ⟨rfl, stack, rfl⟩
  have hother : ∀ t' ∈ (k.process p).threads, HasStack k1 p t' := by
    intro t' ht'
    by_cases heq : t' = t
    · rw [heq]
      exact hnew
    · rw [HasStack, hk1, Kernel.modifyThread]
      dsimp only
      rw [Function.update_of_ne heq, hthread t' heq]
      exact h.held t' ht'
  rw [XTOS.Process.setThread, ← hk1]
  split_ifs
  · have hp : (k1.modifyProcess p fun pr => { pr with threads := pr.threads ++ [t] }).process p =
        { k.process p with threads := (k.process p).threads ++ [t] } := by
      rw [modifyProcess_self]
      exact congrArg (fun pr : XTProcess => { pr with threads := pr.threads ++ [t] }) hprocess
    refine h.withThreads hleaked hp howned fun t' ht' => ?_
    obtain ht' | ht' := List.mem_append.mp ht'
    · exact hother t' ht'
    · rw [List.mem_singleton.mp ht']
      exact hnew
  · exact h.withThreads hleaked hprocess howned hother

theorem Ledger.xtCreateThread (h : Ledger k p leaked shared) (hp : p ≠ 0) (stackSize state : ℕ)
    (m : ThreadAlloc) : Ledger (XTOS.Process.xtCreateThread k p stackSize state m).1 p
      (leaked ++ m.ranges p state) shared := by
  rw [XTOS.Process.xtCreateThread, ThreadAlloc.ranges]
  generalize (if stackSize = 0 then 0x100000 else stackSize) = size
  cases m.kernelStack with
  | none =>
    rw [List.append_nil]
    exact h
  | some kernelStack =>
    dsimp only
    have hstacks := (change_own k p [(kernelStack, 0x4000)]).trans
      (change_takeStack (k.own p [(kernelStack, 0x4000)]) size state m hp)
    have hafter := h.accounted ⟨_, _, hstacks, List.perm_append_comm, List.Subset.refl _⟩
    rw [List.append_nil, List.append_nil] at hafter
    rcases htake : takeStack (k.own p [(kernelStack, 0x4000)]) p size state m with ⟨k1, r⟩
    rw [htake] at hafter
    dsimp only at hafter ⊢
    by_cases hfails : r.isError
    · rw [if_pos hfails]
      exact hafter
    · rw [if_neg hfails]
      have hleaked : leaked ++ ((kernelStack, 0x4000) ::
          if state &&& xtThreadUser ≠ 0 then m.userStack.ranges p else []) ≠ [] := by simp
      obtain ⟨used, -, -, hnext⟩ | ⟨t, -, -, hnext⟩ |
          ⟨t, thread, current, iterator, count, -, -, hthread, -, hnext⟩ := takeThread_cases k1 m
      · rw [hnext]
        exact ⟨hafter.account, hafter.leaked_subset, hafter.running, hafter.held, hafter.idle⟩
      · rw [hnext]
        exact hafter.setThread hleaked rfl rfl (fun _ _ => rfl) kernelStack state m
      · rw [hnext]
        refine hafter.setThread hleaked ?_ ?_ ?_ kernelStack state m
        · rfl
        · rfl
        · exact hthread

/-- **Step**: the calls that get pages for a process. -/
theorem Ledger.use (h : Ledger k p leaked shared) (hp : p ≠ 0) (u : Use) :
    Ledger (k.use p u) p (leaked ++ u.leaked k p) (shared ++ u.shared) := by
  cases u with
  | loadModule image base sections =>
    exact h.accounted (accounted_xtMapModuleToProcess image base k hp sections)
  | passArgs totalSize m => exact h.accounted (accounted_xtPassArgs k totalSize m hp)
  | createThread stackSize state m =>
    rw [Use.shared, List.append_nil]
    exact h.xtCreateThread hp stackSize state m
  | pageFault errorVM errorCode m =>
    exact h.accounted (accounted_xtPageFaultHandler k p errorVM errorCode m)

end ledger

/-! ### The history of a process -/

/-- Another call leaves a process alone: its lists, its pages, and the stacks of its threads. -/
structure Elsewhere (k k' : Kernel) (p : ℕ) : Prop where
  pageTable : (k'.process p).pageTable = (k.process p).pageTable
  memoryMap : (k'.process p).memoryMap = (k.process p).memoryMap
  threads : (k'.process p).threads = (k.process p).threads
  flags : (k'.process p).flags = (k.process p).flags
  owned : k'.owned p = k.owned p
  thread : ∀ t ∈ (k.process p).threads, (k'.thread t).process = (k.thread t).process ∧
    (k'.thread t).kernelStack = (k.thread t).kernelStack

section history

variable {k k' k0 : Kernel} {p : ℕ} {leaked leaked0 shared : List (ℕ × ℕ)}

/-- The timer only switches threads. -/
theorem ThreadsOnly.elsewhere (h : ThreadsOnly k k') (p : ℕ) : Elsewhere k k' p := by
  obtain ⟨thread, current, iterator, hsame, rfl⟩ := h
  exact ⟨rfl, rfl, rfl, rfl, rfl, fun t _ => hsame t⟩

theorem Ledger.elsewhere (h : Ledger k p leaked shared) (hk : Elsewhere k k' p) :
    Ledger k' p leaked shared := by
  refine ⟨?_, ?_, ?_, fun t ht => ?_, fun hnil => ?_⟩
  · rw [hk.memoryMap, hk.pageTable, hk.owned]
    exact h.account
  · rw [hk.owned]
    exact h.leaked_subset
  · rw [Kernel.Terminating, hk.flags]
    exact h.running
  · rw [hk.threads] at ht
    rw [HasStack, (hk.thread t ht).1, (hk.thread t ht).2]
    exact h.held t ht
  · rw [hk.threads]
    exact h.idle hnil

end history

/-! ### What is freed -/

/-- The range that is freed for the kernel stack of a thread. -/
def stackRange (thread : ℕ → XTThread) (t : ℕ) : List (ℕ × ℕ) :=
  if t = 0 ∨ (thread t).kernelStack = 0 then []
  else [(((thread t).kernelStack + 2 ^ 64 - 0x4000) % 2 ^ 64, 0x4000)]

section freed

variable {k k' : Kernel} {p t : ℕ} {leaked shared : List (ℕ × ℕ)}

/-- Threads of a process end: no page is freed, every thread keeps its process, and `processess`
    stays as it is. -/
structure EndsThreads (k k' : Kernel) (p : ℕ) : Prop where
  elsewhere : Elsewhere k k' p
  freedPages : k'.freedPages = k.freedPages
  owner : ∀ t, (k'.thread t).process = (k.thread t).process
  list : k'.list = k.list
  processess : k'.processess = k.processess

theorem EndsThreads.refl (k : Kernel) (p : ℕ) : EndsThreads k k p :=
  ⟨⟨rfl, rfl, rfl, rfl, rfl, fun _ _ => ⟨rfl, rfl⟩⟩, rfl, fun _ => rfl, rfl, rfl⟩

theorem EndsThreads.trans {k'' : Kernel} (h : EndsThreads k k' p) (h' : EndsThreads k' k'' p) :
    EndsThreads k k'' p where
  elsewhere := by
    have hk := h.elsewhere
    have hk' := h'.elsewhere
    refine ⟨hk'.pageTable.trans hk.pageTable, hk'.memoryMap.trans hk.memoryMap,
      hk'.threads.trans hk.threads, hk'.flags.trans hk.flags, hk'.owned.trans hk.owned,
      fun t ht => ?_⟩
    have hthread := hk'.thread t (hk.threads ▸ ht)
    exact ⟨hthread.1.trans (hk.thread t ht).1, hthread.2.trans (hk.thread t ht).2⟩
  freedPages := h'.freedPages.trans h.freedPages
  owner t := (h'.owner t).trans (h.owner t)
  list := h'.list.trans h.list
  processess := h'.processess.trans h.processess

end freed

/-! ### When the ranges of a process are freed -/

section releases

variable {k k0 k1 k' : Kernel} {p t : ℕ} {leaked shared : List (ℕ × ℕ)}

/-- A kernel stack is freed by its address in the higher half. -/
theorem HasStack.high (h : HasStack k p t) : ∀ r ∈ stackRange k.thread t, 2 ^ 63 ≤ r.1 := by
  obtain ⟨-, stack, hstack⟩ := h
  rw [stackRange, hstack]
  split_ifs
  · exact List.forall_mem_nil _
  · intro r hr
    rw [List.mem_singleton.mp hr]
    have hor : highHalf ≤ higherHalfMem stack % 2 ^ 64 := by
      rw [higherHalfMem, Nat.or_mod_two_pow]
      exact Nat.right_le_or
    have hhigh : highHalf = 0xffff800000000000 := rfl
    dsimp only
    omega

end releases

end XTOS.Process

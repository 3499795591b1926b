import XTOS.Lib.Run
import XTOS.LinkedList
import XTOS.Paging

/-!
# Processes and threads

The life cycle of `xtkernel/process.c` and the scheduler of `xtkernel/scheduler.c`:
creation, recycling and termination of threads, creation and termination of
processes, and the choice of the next thread.

## Main definitions

- `XTThread`, `XTProcess`, `XTVirtualMap` — the records; a pointer is an address
- `Kernel` — the records by address, the global lists and counters
- `xtCreateThread`, `xtTerminateThread`, `xtCreateProcess`, `xtTerminateProcess`
- `xtWakeUpThreads`, `xtSchedule` — the timer interrupt
- `Kernel.exec` — one call made by the running thread, or one interrupt

## Design notes

The lists `threads`, `process->threads` and `process->memoryMap` only grow at the end
and are destroyed whole, so they are lists of pointers here. `processess` is kept as
nodes, because `xtRemoveFromList` leaves destroyed nodes linked in it. What the
allocators return is an argument of each call. A record that `xtHeapAlloc` returns
holds the bytes of its last use, so `xtCreateProcess` also takes what was there.

A thread that terminates itself switches away and never continues, so the rest of the
calls on its stack is dropped: `Outcome.gone`.
-/

namespace XTOS.Process

open SysLib XTOS.LinkedList XTOS.Paging

/-- `XT_THREAD_SLEEP_STATE`. -/
def xtThreadSleepState : ℕ := 0

/-- `XT_THREAD_RUN_STATE`. -/
def xtThreadRunState : ℕ := 1

/-- `XT_THREAD_TERMINATED_STATE`. -/
def xtThreadTerminatedState : ℕ := 3

/-- `XT_THREAD_USER`. -/
def xtThreadUser : ℕ := 0x80

/-- `XT_PROCESS_TERMINATING`. -/
def xtProcessTerminating : ℕ := 1

/-- `XT_MEM_SHARED`. -/
def xtMemShared : ℕ := 0x0100

/-- The state proper of a thread that ends, whatever its user bit. -/
theorem endState_and (x : ℕ) : ((x &&& 0x80) ||| xtThreadTerminatedState) &&& 0x7f = 3 := by
  simp [Nat.and_or_distrib_right, Nat.and_assoc, xtThreadTerminatedState]

/-- Decrement of a 64-bit counter. -/
@[irreducible] def dec64 (x : ℕ) : ℕ := (x + (2 ^ 64 - 1)) % 2 ^ 64

theorem dec64_lt (x : ℕ) : dec64 x < 2 ^ 64 := by
  unfold dec64
  exact Nat.mod_lt _ (by norm_num)

theorem dec64_eq {x : ℕ} (h0 : 0 < x) (hx : x < 2 ^ 64) : dec64 x = x - 1 := by
  unfold dec64
  omega

theorem dec64_eq_zero_iff {x : ℕ} (h0 : 0 < x) (hx : x < 2 ^ 64) : dec64 x = 0 ↔ x = 1 := by
  unfold dec64
  constructor
  · intro h
    omega
  · rintro rfl
    norm_num

/-- An entry of the memory map of a process. -/
structure XTVirtualMap where
  virtualStart : ℕ
  size : ℕ
  attr : ℕ
  physicalAddress : ℕ
  offset : ℕ
  file : ℕ
  deriving DecidableEq, Repr

/-- A thread. The state is a byte: the user bit and the state proper. -/
structure XTThread where
  result : ℕ
  id : ℕ
  state : ℕ
  privilage : ℕ
  ticks : ℕ
  process : ℕ
  kernelStack : ℕ
  waitThreads : List ℕ
  deriving DecidableEq, Repr

/-- A process. -/
structure XTProcess where
  threads : List ℕ
  pageTable : ℕ
  parentProcess : ℕ
  memoryMap : List XTVirtualMap
  descriptorRoot : ℕ
  flags : ℕ
  activeThreads : ℕ
  id : ℕ
  deriving DecidableEq, Repr

/-- The kernel's records, lists and counters. `threadUsed` and `processUsed` are the
    records created and not freed. `freedPages` logs the calls of `xtFreePages`, latest
    last, `live` lists the processes created that `xtTerminateProcess` has not been
    called for, and `owned` the physical ranges allocated for each process. -/
structure Kernel where
  process : ℕ → XTProcess
  thread : ℕ → XTThread
  processUsed : ℕ → Bool
  threadUsed : ℕ → Bool
  threads : List ℕ
  currentThreadIterator : ℕ
  currentThread : ℕ
  idleThread : ℕ
  threadCount : ℕ
  list : NodeHeap
  processess : ℕ
  lastProcessId : ℕ
  freedPages : List (ℕ × ℕ)
  live : List ℕ
  owned : ℕ → List (ℕ × ℕ)

/-- Change one thread record. -/
def Kernel.modifyThread (k : Kernel) (t : ℕ) (f : XTThread → XTThread) : Kernel :=
  { k with thread := Function.update k.thread t (f (k.thread t)) }

/-- Change one process record. -/
def Kernel.modifyProcess (k : Kernel) (p : ℕ) (f : XTProcess → XTProcess) : Kernel :=
  { k with process := Function.update k.process p (f (k.process p)) }

/-- `xtFreePages`, as a logged call. -/
def Kernel.freePages (k : Kernel) (ptr size : ℕ) : Kernel :=
  { k with freedPages := k.freedPages ++ [(ptr, size)] }

/-- Record a range that `xtAllocatePages` returned for a process. -/
def Kernel.own (k : Kernel) (p : ℕ) (ranges : List (ℕ × ℕ)) : Kernel :=
  { k with owned := Function.update k.owned p (k.owned p ++ ranges) }

/-- `xtHeapFree` of a thread record. -/
def Kernel.freeThread (k : Kernel) (t : ℕ) : Kernel :=
  { k with threadUsed := Function.update k.threadUsed t false }

/-- `xtHeapFree` of a process record. -/
def Kernel.freeProcess (k : Kernel) (p : ℕ) : Kernel :=
  { k with processUsed := Function.update k.processUsed p false }

/-! ### The scheduler -/

/-- `xtWakeUpThread`. -/
def xtWakeUpThread (k : Kernel) (t : ℕ) : Kernel :=
  k.modifyThread t fun th =>
    { th with state := (th.state &&& 0x7f) ||| xtThreadRunState, ticks := th.privilage }

/-- One pass of the loop of `xtWakeUpThreads`. -/
def wakeUpPass (k : Kernel) (t : ℕ) : Kernel :=
  if (k.thread t).state = xtThreadSleepState then
    let k := k.modifyThread t fun th => { th with ticks := dec64 th.ticks }
    if (k.thread t).ticks = 0 then xtWakeUpThread k t else k
  else k

/-- `xtWakeUpThreads`. -/
def xtWakeUpThreads (k : Kernel) : Kernel := k.threads.foldl wakeUpPass k

/-- `(thread->state & 0xf) == XT_THREAD_RUN_STATE`. -/
def XTThread.runs (th : XTThread) : Bool := th.state &&& 0xf == xtThreadRunState

/-- The search loop of `xtSchedule`: the place in the list where it stops, and the thread
    it takes. After one round without a thread to run it takes the idle thread. -/
def searchLoop (k : Kernel) (start : ℕ) : ℕ → ℕ → ℕ × ℕ
  | 0, i => (i, k.idleThread)
  | fuel + 1, i =>
    let i := if i + 1 < k.threads.length then i + 1 else 0
    let t := k.threads.getD i 0
    if (k.thread t).runs then (i, t)
    else if i = start then (i, k.idleThread)
    else searchLoop k start fuel i

/-- Take the next thread. -/
def switchNext (k : Kernel) : Kernel :=
  let next := searchLoop k k.currentThreadIterator k.threads.length k.currentThreadIterator
  { k.modifyThread next.2 fun th => { th with ticks := th.privilage } with
    currentThreadIterator := next.1
    currentThread := next.2 }

/-- `xtSchedule`. -/
def xtSchedule (k : Kernel) : Kernel :=
  let k := xtWakeUpThreads k
  if (k.thread k.currentThread).runs then
    let k := k.modifyThread k.currentThread fun th =>
      { th with ticks := dec64 th.ticks }
    if 0 < (k.thread k.currentThread).ticks then k else switchNext k
  else switchNext k

/-! ### Termination -/

/-- How a call ends: it returns, the running thread is gone, or the fuel is used up. -/
inductive Outcome where
  | returned (k : Kernel)
  | gone (k : Kernel)
  | stuck

/-- Go on after a call that returned. -/
def Outcome.andThen : Outcome → (Kernel → Outcome) → Outcome
  | .returned k, f => f k
  | .gone k, _ => .gone k
  | .stuck, _ => .stuck

/-- A loop over a list whose body may end the running thread. -/
def forEach (body : Kernel → ℕ → Outcome) : List ℕ → Kernel → Outcome
  | [], k => .returned k
  | t :: ts, k => (body k t).andThen (forEach body ts)

/-- The locked part of `xtTerminateThread`: the thread is marked and its waiters run. -/
def markTerminated (k : Kernel) (t code : ℕ) : Kernel :=
  let k := k.modifyThread t fun th =>
    { th with result := code, state := (th.state &&& 0x80) ||| xtThreadTerminatedState }
  (k.thread t).waitThreads.foldl (fun k w => k.modifyThread w fun th =>
    { th with state := (th.state &&& 0x80) ||| xtThreadRunState }) k

/-- `process->activeThreads--`, for a thread that has a process. -/
def lowerCount (k : Kernel) (p : ℕ) : Kernel :=
  if p = 0 then k else k.modifyProcess p fun pr =>
    { pr with activeThreads := dec64 pr.activeThreads }

/-- A thread was the last one of a process that is not yet terminating. -/
def lastThread (k : Kernel) (p : ℕ) : Prop :=
  p ≠ 0 ∧ (k.process p).activeThreads = 0 ∧ (k.process p).flags &&& xtProcessTerminating = 0

instance (k : Kernel) (p : ℕ) : Decidable (lastThread k p) := inferInstanceAs (Decidable (_ ∧ _))

/-- `xtTerminateThread`, with the `xtTerminateProcess` it calls. -/
def terminateThreadWith (terminateProcess : Kernel → ℕ → ℕ → Outcome) (k : Kernel)
    (t code : ℕ) : Outcome :=
  if t = 0 then .returned k else
  let currentThread := k.currentThread
  let p := (k.thread t).process
  let k := lowerCount (markTerminated k t code) p
  (if lastThread k p then terminateProcess k p code else .returned k).andThen fun k =>
    if t = currentThread then .gone (xtSchedule k) else .returned k

/-- One pass of the loop of `xtTerminateProcess` that frees the threads. -/
def freeThreadPass (k : Kernel) (t : ℕ) : Kernel :=
  if t = 0 then k else
  let stack := (k.thread t).kernelStack
  -- the stack pointer is a higher-half address
  let k := if stack ≠ 0 then k.freePages ((stack + 2 ^ 64 - 0x4000) % 2 ^ 64) 0x4000 else k
  k.freeThread t

/-- The loop of `xtTerminateProcess` that frees the threads of the process. -/
def freeThreads (k : Kernel) (ts : List ℕ) : Kernel := ts.foldl freeThreadPass k

/-- `map->physicalAddress && (~(map->attr & XT_MEM_SHARED))`. -/
def XTVirtualMap.freed (m : XTVirtualMap) : Bool :=
  m.physicalAddress ≠ 0 ∧ (2 ^ 64 - 1 - (m.attr &&& xtMemShared)) ≠ 0

/-- One pass of the loop of `xtTerminateProcess` over the memory map. -/
def freeMapPass (k : Kernel) (m : XTVirtualMap) : Kernel :=
  if m.freed then k.freePages m.physicalAddress m.size else k

/-- The loop of `xtTerminateProcess` over the memory map. -/
def freeMaps (k : Kernel) (maps : List XTVirtualMap) : Kernel := maps.foldl freeMapPass k

/-- The loop of `xtTerminateProcess` over `processess`, from node `l` on. -/
def removeProcess (head p : ℕ) : ℕ → NodeHeap → ℕ → Option NodeHeap
  | 0, _, _ => none
  | fuel + 1, H, l =>
    if l = 0 then some H else do
    let H ← if H.data l = p then (xtRemoveFromList fuel H head l).map Prod.fst else some H
    removeProcess head p fuel H (H.next l)

/-- The end of `xtTerminateProcess`: the top page table, the id counter and the record. -/
def dropProcess (k : Kernel) (p : ℕ) : Kernel :=
  let pageTable := (k.process p).pageTable
  let id := (k.process p).id
  let k := if pageTable ≠ 0 then k.freePages pageTable 0x1000 else k
  let k := if id < k.lastProcessId then { k with lastProcessId := id } else k
  k.freeProcess p

/-- The second half of `xtTerminateProcess`, which only another process reaches. -/
def releaseProcess (fuel : ℕ) (k : Kernel) (p : ℕ) : Outcome :=
  let k := freeThreads k (k.process p).threads
  let k := k.modifyProcess p fun pr => { pr with threads := [] }
  let k := freeMaps k (k.process p).memoryMap
  let k := k.modifyProcess p fun pr => { pr with memoryMap := [], descriptorRoot := 0 }
  match removeProcess k.processess p fuel k.list k.processess with
  | none => .stuck
  | some H => .returned (dropProcess { k with list := H } p)

/-- `xtTerminateProcess`. -/
def xtTerminateProcess : ℕ → Kernel → ℕ → ℕ → Outcome
  | 0, _, _, _ => .stuck
  | fuel + 1, k, p, code =>
    if p = 0 then .returned k else
    let k := { k with live := k.live.filter (· ≠ p) }
    if (k.process p).flags &&& xtProcessTerminating ≠ 0 then .returned k else
    let k := k.modifyProcess p fun pr => { pr with flags := pr.flags ||| xtProcessTerminating }
    let currentThread := k.currentThread
    let threadPass := fun (k : Kernel) (t : ℕ) =>
      if t ≠ 0 ∧ t ≠ currentThread ∧
          (k.thread t).state &&& 0x7f ≠ xtThreadTerminatedState then
        terminateThreadWith (xtTerminateProcess fuel) k t code
      else .returned k
    (forEach threadPass (k.process p).threads k).andThen fun k =>
      if currentThread ≠ 0 ∧ (k.thread currentThread).process = p then
        terminateThreadWith (xtTerminateProcess fuel) k currentThread code
      else releaseProcess fuel k p

/-- `xtTerminateThread`. -/
def xtTerminateThread (fuel : ℕ) : Kernel → ℕ → ℕ → Outcome :=
  terminateThreadWith (xtTerminateProcess fuel)

/-! ### Creation -/

/-- Put a process at the end of `processess`. Without an end of the list the call does not
    return. A missing node is not noticed. -/
def linkProcess (fuel : ℕ) (k : Kernel) (p : ℕ) (node : Option ℕ) : Option Kernel :=
  let newProcessList := node.getD 0
  let H := if newProcessList = 0 then k.list else xtCreateList k.list p newProcessList
  if k.processess = 0 then some { k with list := H, processess := newProcessList }
  else (xtAppendList fuel H k.processess newProcessList).map fun H => { k with list := H }

/-- `xtCreateProcess` with the results of its allocations: the record, the page of the
    top table and the list node. `old` is what the block of the record held. -/
def xtCreateProcess (fuel : ℕ) (k : Kernel) (parentProcess : ℕ) (block page node : Option ℕ)
    (old : XTProcess) : Option (Kernel × Except XTResult ℕ) :=
  match block, page with
  | none, _ => some (k, .error .outOfMemory)
  | some p, none =>
    some ({ k with processUsed := Function.update k.processUsed p true }, .error .outOfMemory)
  | some p, some pageTable =>
    let result := { old with
      pageTable := pageTable, parentProcess := parentProcess, id := k.lastProcessId }
    let k := { k with
      processUsed := Function.update k.processUsed p true
      process := Function.update k.process p result
      lastProcessId := (k.lastProcessId + 1) % 2 ^ 64
      owned := Function.update k.owned p [(pageTable, 0x1000)] }
    (linkProcess fuel k p node).map fun k => ({ k with live := k.live ++ [p] }, .ok p)

/-- Insert an entry before the first one that starts higher. -/
def insertMap (m : XTVirtualMap) : List XTVirtualMap → List XTVirtualMap
  | [] => [m]
  | e :: es => if e.virtualStart > m.virtualStart then m :: e :: es else e :: insertMap m es

/-- `xtInsertVirtualMap`. `old` is what the block of the entry held, and `node` whether
    there was a list node. -/
def xtInsertVirtualMap (k : Kernel) (p virtualStart physicalAddress size attr : ℕ)
    (old : Option XTVirtualMap) (node : Bool) : Kernel × XTResult :=
  if p = 0 then (k, .invalidParameter) else
  match old with
  | none => (k, .outOfMemory)
  | some old =>
    if node then
      let m := { old with
        attr := attr, size := size, physicalAddress := physicalAddress
        virtualStart := virtualStart }
      (k.modifyProcess p fun pr => { pr with memoryMap := insertMap m pr.memoryMap }, .success)
    else (k, .outOfMemory)

/-- What `xtSetPages` did: its result, and the pages it took for new tables. -/
structure PageTables where
  result : XTResult
  tables : List ℕ

/-- The pages of new tables belong to the process. -/
def Kernel.setPages (k : Kernel) (p : ℕ) (m : PageTables) : Kernel × XTResult :=
  (k.own p (m.tables.map fun t => (t, 0x1000)), m.result)

/-- What the allocators and the random source give to `xtAllocateUserStack`. -/
structure UserStackAlloc where
  stackRaw : Option ℕ
  random : ℕ
  mapEntry : Option XTVirtualMap
  mapNode : Bool
  setPages : PageTables

/-- `xtAllocateUserStack`; its two results are the virtual and the kernel address of
    the end of the stack. -/
def xtAllocateUserStack (k : Kernel) (p stackSize : ℕ) (m : UserStackAlloc) :
    Kernel × Except XTResult (ℕ × ℕ) :=
  match m.stackRaw with
  | none => (k, .error .outOfMemory)
  | some stackRaw =>
    let k := k.own p [(stackRaw, 0x1000)]
    let hmmStackRaw := higherHalfMem stackRaw
    let stackFlags := 2 ||| 0x0400 ||| xtMemWrite ||| xtMemUser
    let virtualStack := m.random % 2 ^ 34 * 2 ^ 12
    let (k, r) := xtInsertVirtualMap k p virtualStack 0 stackSize stackFlags m.mapEntry m.mapNode
    if r.isError then (k, .error r) else
    let (k, r) := k.setPages p m.setPages
    if r.isError then (k, .error r) else
    (k, .ok ((virtualStack + stackSize) % 2 ^ 64, (hmmStackRaw + 0x1000) % 2 ^ 64))

/-- What the allocators give to `xtCreateThread`: the kernel stack, the user stack, the
    record, and whether there are nodes for the two lists. -/
structure ThreadAlloc where
  kernelStack : Option ℕ
  userStack : UserStackAlloc
  block : Option ℕ
  threadsNode : Bool
  processNode : Bool

/-- A new thread record at the end of the global list. -/
def newThread (k : Kernel) (id : ℕ) (m : ThreadAlloc) : Kernel × Except XTResult ℕ :=
  match m.block with
  | none => (k, .error .outOfMemory)
  | some t =>
    let k := { k with threadUsed := Function.update k.threadUsed t true }
    if m.threadsNode then
      ({ k.modifyThread t fun th => { th with id := id } with threads := k.threads ++ [t] }, .ok t)
    else (k, .error .outOfMemory)

/-- The record that a new thread gets: the first one of the kernel, the last terminated one
    of the list, or a new one. -/
def takeThread (k : Kernel) (m : ThreadAlloc) : Kernel × Except XTResult ℕ :=
  if k.threads = [] then
    match newThread k 0 m with
    | (k, .error r) => (k, .error r)
    | (k, .ok t) => ({ k with currentThread := t, currentThreadIterator := 0 }, .ok t)
  else
    match (k.threads.filter fun t => (k.thread t).state = xtThreadTerminatedState).getLast? with
    | some t => (k, .ok t)
    | none =>
      let threadCount := (k.threadCount + 1) % 2 ^ 64
      match newThread k (threadCount % 2 ^ 32) m with
      | (k, .error r) => (k, .error r)
      | (k, .ok t) => ({ k with threadCount := threadCount }, .ok t)

/-- The user stack of a user thread. -/
def takeStack (k : Kernel) (p stackSize state : ℕ) (m : ThreadAlloc) : Kernel × XTResult :=
  if state &&& xtThreadUser ≠ 0 then
    match xtAllocateUserStack k p stackSize m.userStack with
    | (k, .error r) => (k, r)
    | (k, .ok _) => (k, .success)
  else (k, .success)

/-- The fields of the record `t`, and its place in the list of the process. -/
def setThread (k : Kernel) (p kernelStack state t : ℕ) (m : ThreadAlloc) :
    Kernel × Except XTResult ℕ :=
  let k := k.modifyThread t fun th => { th with
    process := p, result := 0, state := state, privilage := 20, ticks := 20
    kernelStack := (kernelStack + 0x4000) % 2 ^ 64, waitThreads := [] }
  if m.processNode then
    (k.modifyProcess p fun pr => { pr with threads := pr.threads ++ [t] }, .ok t)
  else (k, .error .outOfMemory)

/-- `xtCreateThread` with a thread function and a place for the result. -/
def xtCreateThread (k : Kernel) (p stackSize state : ℕ) (m : ThreadAlloc) :
    Kernel × Except XTResult ℕ :=
  let stackSize := if stackSize = 0 then 0x100000 else stackSize
  match m.kernelStack with
  | none => (k, .error .outOfMemory)
  | some kernelStack =>
    let k := k.own p [(kernelStack, 0x4000)]
    let (k, r) := takeStack k p stackSize state m
    if r.isError then (k, .error r) else
    match takeThread k m with
    | (k, .error r) => (k, .error r)
    | (k, .ok t) => setThread k p (higherHalfMem kernelStack) state t m

/-! ### Runs -/

/-- The kernel after a call, also when the calling thread is gone. -/
def Outcome.kernel? : Outcome → Option Kernel
  | .returned k => some k
  | .gone k => some k
  | .stuck => none

/-- The calls of the running thread, and the timer interrupt. -/
inductive Call where
  | createProcess (parentProcess : ℕ) (block page node : Option ℕ) (old : XTProcess)
  | terminateProcess (p code : ℕ)
  | createThread (p stackSize state : ℕ) (m : ThreadAlloc)
  | terminateThread (t code : ℕ)
  | timer

/-- `xtHeapAlloc` returns a block that is not in use. -/
def Fresh (used : ℕ → Bool) (block : Option ℕ) : Prop := ∀ b ∈ block, b ≠ 0 ∧ used b = false

instance (used : ℕ → Bool) (block : Option ℕ) : Decidable (Fresh used block) :=
  decidable_of_iff (block.all fun b => b ≠ 0 ∧ used b = false) (by simp [Fresh, Option.all_eq_true])

/-- One call. Pointers that a caller passes are to records created and not freed. -/
def Kernel.exec (fuel : ℕ) (k : Kernel) : Call → Option Kernel
  | .createProcess parentProcess block page node old =>
    if Fresh k.processUsed block ∧ Fresh k.list.used node then
      (xtCreateProcess fuel k parentProcess block page node old).map Prod.fst
    else none
  | .terminateProcess p code =>
    if k.processUsed p then (xtTerminateProcess fuel k p code).kernel? else none
  | .createThread p stackSize state m =>
    if k.processUsed p ∧ Fresh k.threadUsed m.block then
      some (xtCreateThread k p stackSize state m).1
    else none
  | .terminateThread t code =>
    if k.threadUsed t then (xtTerminateThread fuel k t code).kernel? else none
  | .timer => if k.threads ≠ [] then some (xtSchedule k) else none

/-- A call that meets the condition `ok` leads from one state to the next. -/
def Kernel.StepIf (ok : Kernel → Call → Prop) (k k' : Kernel) : Prop :=
  ∃ fuel c, ok k c ∧ k.exec fuel c = some k'

/-- Any call leads from one state to the next. -/
def Kernel.Step : Kernel → Kernel → Prop := Kernel.StepIf fun _ _ => True

/-- A sequence of calls, each of which meets the condition `ok`. -/
def Kernel.run (ok : Kernel → Call → Prop) [∀ k c, Decidable (ok k c)] (fuel : ℕ) :
    Kernel → List Call → Option Kernel
  | k, [] => some k
  | k, c :: cs => if ok k c then (k.exec fuel c).bind fun k => k.run ok fuel cs else none

theorem Kernel.run_reachable {ok : Kernel → Call → Prop} [∀ k c, Decidable (ok k c)] {fuel : ℕ}
    {init : Kernel → Prop} {cs : List Call} :
    ∀ {k k' : Kernel}, Reachable init (Kernel.StepIf ok) k → k.run ok fuel cs = some k' →
      Reachable init (Kernel.StepIf ok) k' := by
  induction cs with
  | nil =>
    intro k k' hk hrun
    cases hrun
    exact hk
  | cons c cs ih =>
    intro k k' hk hrun
    rw [Kernel.run] at hrun
    split at hrun
    · rename_i hok
      obtain ⟨k1, hexec, hrest⟩ := Option.bind_eq_some_iff.mp hrun
      exact ih (hk.next ⟨fuel, c, hok, hexec⟩) hrest
    · cases hrun

/-- Before any process or thread is created. The static records and whatever the heap
    holds are arbitrary. -/
structure Kernel.Initial (k : Kernel) : Prop where
  threads : k.threads = []
  live : k.live = []

/-! ### What a call leaves behind -/

/-- However the call ends, the kernel it leaves has the property. -/
def Outcome.All (o : Outcome) (P : Kernel → Prop) : Prop := ∀ k, o.kernel? = some k → P k

@[simp] theorem all_returned {k : Kernel} {P : Kernel → Prop} : (Outcome.returned k).All P ↔ P k := by
  simp [Outcome.All, Outcome.kernel?]

@[simp] theorem all_gone {k : Kernel} {P : Kernel → Prop} : (Outcome.gone k).All P ↔ P k := by
  simp [Outcome.All, Outcome.kernel?]

@[simp] theorem all_stuck {P : Kernel → Prop} : Outcome.stuck.All P := by
  simp [Outcome.All, Outcome.kernel?]

theorem Outcome.All.mono {o : Outcome} {P Q : Kernel → Prop} (h : o.All P)
    (hPQ : ∀ k, P k → Q k) : o.All Q :=
  fun k hk => hPQ k (h k hk)

/-- A sequence of calls, for a property that holds wherever the first one stops. -/
theorem Outcome.All.andThen {o : Outcome} {f : Kernel → Outcome} {P Q : Kernel → Prop}
    (h : o.All P) (hPQ : ∀ k, P k → Q k) (hf : ∀ k, P k → (f k).All Q) :
    (o.andThen f).All Q := by
  cases o with
  | returned k => exact hf k (all_returned.mp h)
  | gone k => exact all_gone.mpr (hPQ k (all_gone.mp h))
  | stuck => exact all_stuck

/-- A loop whose body keeps an invariant. -/
theorem forEach_all {body : Kernel → ℕ → Outcome} {I : Kernel → Prop}
    {ts : List ℕ} (hbody : ∀ t ∈ ts, ∀ k, I k → (body k t).All I) :
    ∀ k, I k → (forEach body ts k).All I := by
  induction ts with
  | nil => exact fun k hk => all_returned.mpr hk
  | cons t ts ih =>
    intro k hk
    refine (hbody t List.mem_cons_self k hk).andThen (fun _ h => h) fun k' hk' => ?_
    exact ih (fun t' ht' => hbody t' (List.mem_cons_of_mem _ ht')) k' hk'

/-! ### Creation of processes and threads -/

theorem linkProcess_some {fuel : ℕ} {k k' : Kernel} {p : ℕ} {node : Option ℕ}
    (h : linkProcess fuel k p node = some k') :
    ∃ H head, k' = { k with list := H, processess := head } := by
  rw [linkProcess] at h
  split at h
  · cases h
    exact ⟨_, _, rfl⟩
  · obtain ⟨H, -, rfl⟩ := Option.map_eq_some_iff.mp h
    exact ⟨H, k.processess, rfl⟩

/-- `xtInsertVirtualMap` fails and changes nothing, or inserts the entry. -/
theorem xtInsertVirtualMap_cases (k : Kernel) (p virtualStart physicalAddress size attr : ℕ)
    (old : Option XTVirtualMap) (node : Bool) :
    (∃ r, xtInsertVirtualMap k p virtualStart physicalAddress size attr old node = (k, r) ∧
      r.isError = true) ∨
    ∃ offset file, xtInsertVirtualMap k p virtualStart physicalAddress size attr old node =
      (k.modifyProcess p fun pr => { pr with
        memoryMap := insertMap ⟨virtualStart, size, attr, physicalAddress, offset, file⟩
          pr.memoryMap }, .success) := by
  by_cases hp : p = 0
  · exact .inl ⟨.invalidParameter, by simp [xtInsertVirtualMap, hp], rfl⟩
  · cases old with
    | none => exact .inl ⟨.outOfMemory, by simp [xtInsertVirtualMap, hp], rfl⟩
    | some old =>
      cases node with
      | false => exact .inl ⟨.outOfMemory, by simp [xtInsertVirtualMap, hp], rfl⟩
      | true => exact .inr ⟨old.offset, old.file, by simp [xtInsertVirtualMap, hp]⟩

/-- `newThread` runs out of memory, or appends the block to the list. -/
theorem newThread_cases (k : Kernel) (id : ℕ) (m : ThreadAlloc) :
    (∃ used, (∀ t, k.threadUsed t = true → used t = true) ∧
      (m.block = none ∨ m.threadsNode = true → used = k.threadUsed) ∧
      newThread k id m = ({ k with threadUsed := used }, .error .outOfMemory)) ∨
    ∃ t, m.block = some t ∧ m.threadsNode = true ∧ newThread k id m =
      ({ k with
          threadUsed := Function.update k.threadUsed t true
          thread := Function.update k.thread t { k.thread t with id := id }
          threads := k.threads ++ [t] }, .ok t) := by
  rw [newThread]
  split
  · exact .inl ⟨k.threadUsed, fun _ h => h, fun _ => rfl, rfl⟩
  · rename_i t hblock
    dsimp only
    split_ifs with hnode
    · exact .inr ⟨t, hblock, hnode, rfl⟩
    · refine .inl ⟨_, fun t' ht' => ?_, by simp [hblock, hnode], rfl⟩
      by_cases h : t' = t
      · simp [h]
      · simpa [h] using ht'

/-- `takeThread` runs out of memory, takes a terminated thread of the list, or appends a
    block. -/
theorem takeThread_cases (k : Kernel) (m : ThreadAlloc) :
    (∃ used, (∀ t, k.threadUsed t = true → used t = true) ∧
      (m.block = none ∨ m.threadsNode = true → used = k.threadUsed) ∧
      takeThread k m = ({ k with threadUsed := used }, .error .outOfMemory)) ∨
    (∃ t ∈ k.threads, (k.thread t).state = xtThreadTerminatedState ∧
      takeThread k m = (k, .ok t)) ∨
    ∃ t thread current iterator count, m.block = some t ∧ m.threadsNode = true ∧
      (∀ t', t' ≠ t → thread t' = k.thread t') ∧
      (current = k.currentThread ∨ current = t) ∧ takeThread k m =
      ({ k with
          threadUsed := Function.update k.threadUsed t true, thread := thread
          threads := k.threads ++ [t], currentThread := current
          currentThreadIterator := iterator, threadCount := count }, .ok t) := by
  rw [takeThread]
  split_ifs with hempty
  · obtain ⟨used, hused, hsame, h⟩ | ⟨t, hblock, hnode, h⟩ := newThread_cases k 0 m
    · exact .inl ⟨used, hused, hsame, by rw [h]⟩
    · refine .inr (.inr ⟨t, _, _, _, _, hblock, hnode, fun t' ht' => ?_, .inr rfl, by rw [h]⟩)
      exact Function.update_of_ne ht' _ _
  · split
    · rename_i t hlast
      obtain ⟨hmem, hstate⟩ := List.mem_filter.mp (List.mem_of_getLast? hlast)
      exact .inr (.inl ⟨t, hmem, of_decide_eq_true hstate, rfl⟩)
    · obtain ⟨used, hused, hsame, h⟩ | ⟨t, hblock, hnode, h⟩ :=
        newThread_cases k ((k.threadCount + 1) % 2 ^ 64 % 2 ^ 32) m
      · exact .inl ⟨used, hused, hsame, by simp only [h]⟩
      · refine .inr (.inr ⟨t, _, _, _, _, hblock, hnode, fun t' ht' => ?_, .inl rfl, by
          simp only [h]; rfl⟩)
        exact Function.update_of_ne ht' _ _

/-- The user stack cannot be allocated, entered or mapped. -/
def UserStackFails (p : ℕ) (m : UserStackAlloc) : Prop :=
  m.stackRaw = none ∨ p = 0 ∨ m.mapEntry = none ∨ m.mapNode = false ∨
    m.setPages.result.isError = true

instance (p : ℕ) (m : UserStackAlloc) : Decidable (UserStackFails p m) :=
  inferInstanceAs (Decidable (_ ∨ _ ∨ _ ∨ _ ∨ _))

/-- A stack of the new thread fails, so that it gets no record. -/
def StackFails (p state : ℕ) (m : ThreadAlloc) : Prop :=
  m.kernelStack = none ∨ state &&& xtThreadUser ≠ 0 ∧ UserStackFails p m.userStack

instance (p state : ℕ) (m : ThreadAlloc) : Decidable (StackFails p state m) :=
  inferInstanceAs (Decidable (_ ∨ _ ∧ _))

/-- There is no terminated record, and no memory for a new one. -/
def RecordFails (k : Kernel) (m : ThreadAlloc) : Prop :=
  (∀ t ∈ k.threads, (k.thread t).state ≠ xtThreadTerminatedState) ∧
    (m.block = none ∨ m.threadsNode = false)

instance (k : Kernel) (m : ThreadAlloc) : Decidable (RecordFails k m) :=
  inferInstanceAs (Decidable (_ ∧ _))

/-- `newThread` fails without a block or without a node. -/
theorem newThread_error {k k' : Kernel} {id : ℕ} {m : ThreadAlloc} {r : XTResult}
    (h : newThread k id m = (k', .error r)) : m.block = none ∨ m.threadsNode = false := by
  rw [newThread] at h
  split at h
  · exact .inl ‹_›
  · cases hnode : m.threadsNode with
    | false => exact .inr rfl
    | true =>
      dsimp only at h
      rw [hnode, if_pos rfl] at h
      cases h

/-- A call that gets no record finds no terminated one and gets no memory for a new one. -/
theorem takeThread_error {k k' : Kernel} {m : ThreadAlloc} {r : XTResult}
    (h : takeThread k m = (k', .error r)) : RecordFails k m := by
  rw [takeThread] at h
  split_ifs at h with hempty
  · refine ⟨fun t ht => absurd (hempty ▸ ht) List.not_mem_nil, ?_⟩
    split at h
    · exact newThread_error ‹_›
    · cases h
  · split at h
    · cases h
    · rename_i hlast
      refine ⟨fun t ht hterm => ?_, ?_⟩
      · rw [List.getLast?_eq_none_iff, List.filter_eq_nil_iff] at hlast
        exact hlast t ht (decide_eq_true hterm)
      · dsimp only at h
        split at h
        · exact newThread_error ‹_›
        · cases h

/-- A terminated record of the list is used again. -/
theorem takeThread_terminated {k : Kernel} (m : ThreadAlloc)
    (h : ∃ t ∈ k.threads, (k.thread t).state = xtThreadTerminatedState) :
    ∃ t ∈ k.threads, (k.thread t).state = xtThreadTerminatedState ∧
      takeThread k m = (k, .ok t) := by
  obtain ⟨t, ht, hterm⟩ := h
  rw [takeThread, if_neg (List.ne_nil_of_mem ht)]
  split
  · rename_i t hlast
    obtain ⟨hmem, hstate⟩ := List.mem_filter.mp (List.mem_of_getLast? hlast)
    exact ⟨t, hmem, of_decide_eq_true hstate, rfl⟩
  · rename_i hlast
    rw [List.getLast?_eq_none_iff, List.filter_eq_nil_iff] at hlast
    exact absurd (decide_eq_true hterm) (hlast t ht)

/-- Only memory maps and owned ranges differ. -/
def StackOnly (k k' : Kernel) : Prop :=
  ∃ process owned, (∀ q, ∃ maps, process q = { k.process q with memoryMap := maps }) ∧
    k' = { k with process := process, owned := owned }

theorem StackOnly.trans {k k' k'' : Kernel} (h : StackOnly k k') (h' : StackOnly k' k'') :
    StackOnly k k'' := by
  obtain ⟨process, owned, hmaps, rfl⟩ := h
  obtain ⟨process', owned', hmaps', rfl⟩ := h'
  refine ⟨process', owned', fun q => ?_, rfl⟩
  obtain ⟨maps, hq⟩ := hmaps q
  obtain ⟨maps', hq'⟩ := hmaps' q
  exact ⟨maps', by rw [hq']; simp only [hq]⟩

theorem stackOnly_own (k : Kernel) (p : ℕ) (ranges : List (ℕ × ℕ)) :
    StackOnly k (k.own p ranges) :=
  ⟨k.process, _, fun q => ⟨(k.process q).memoryMap, rfl⟩, rfl⟩

theorem stackOnly_xtInsertVirtualMap (k : Kernel) (p virtualStart physicalAddress size attr : ℕ)
    (old : Option XTVirtualMap) (node : Bool) :
    StackOnly k (xtInsertVirtualMap k p virtualStart physicalAddress size attr old node).1 := by
  obtain ⟨r, h, -⟩ | ⟨offset, file, h⟩ :=
    xtInsertVirtualMap_cases k p virtualStart physicalAddress size attr old node
  · rw [h]
    exact ⟨_, _, fun q => ⟨(k.process q).memoryMap, rfl⟩, rfl⟩
  · rw [h]
    refine ⟨_, k.owned, fun q => ?_, rfl⟩
    by_cases hq : q = p
    · subst hq
      exact ⟨_, Function.update_self ..⟩
    · exact ⟨(k.process q).memoryMap, Function.update_of_ne hq _ _⟩

theorem xtInsertVirtualMap_isError (k : Kernel) (p virtualStart physicalAddress size attr : ℕ)
    (old : Option XTVirtualMap) (node : Bool) :
    (xtInsertVirtualMap k p virtualStart physicalAddress size attr old node).2.isError = true ↔
      p = 0 ∨ old = none ∨ node = false := by
  by_cases hp : p = 0
  · simp [xtInsertVirtualMap, hp, XTResult.isError]
  · cases old with
    | none => simp [xtInsertVirtualMap, hp, XTResult.isError]
    | some old => cases node <;> simp [xtInsertVirtualMap, hp, XTResult.isError]

/-- `xtAllocateUserStack` changes maps and owned ranges alone, and when it fails. -/
theorem xtAllocateUserStack_cases (k : Kernel) (p stackSize : ℕ) (m : UserStackAlloc) :
    StackOnly k (xtAllocateUserStack k p stackSize m).1 ∧
      ((∃ r, (xtAllocateUserStack k p stackSize m).2 = .error r ∧ r.isError = true) ∧
          UserStackFails p m ∨
        (∃ v, (xtAllocateUserStack k p stackSize m).2 = .ok v) ∧ ¬ UserStackFails p m) := by
  rw [xtAllocateUserStack, UserStackFails]
  cases hraw : m.stackRaw with
  | none =>
    refine ⟨⟨_, _, fun q => ⟨(k.process q).memoryMap, rfl⟩, rfl⟩, .inl ⟨⟨_, rfl, rfl⟩, ?_⟩⟩
    exact .inl rfl
  | some stackRaw =>
    have hown := stackOnly_own k p [(stackRaw, 0x1000)]
    have hmap := hown.trans (stackOnly_xtInsertVirtualMap (k.own p [(stackRaw, 0x1000)]) p
      (m.random % 2 ^ 34 * 2 ^ 12) 0 stackSize (2 ||| 0x0400 ||| xtMemWrite ||| xtMemUser)
      m.mapEntry m.mapNode)
    have hfail := xtInsertVirtualMap_isError (k.own p [(stackRaw, 0x1000)]) p
      (m.random % 2 ^ 34 * 2 ^ 12) 0 stackSize (2 ||| 0x0400 ||| xtMemWrite ||| xtMemUser)
      m.mapEntry m.mapNode
    dsimp only [Kernel.setPages]
    split_ifs with hinsert hset
    · have := hfail.mp hinsert
      exact ⟨hmap, .inl ⟨⟨_, rfl, hinsert⟩, by tauto⟩⟩
    · exact ⟨hmap.trans (stackOnly_own ..), .inl ⟨⟨_, rfl, hset⟩, by tauto⟩⟩
    · refine ⟨hmap.trans (stackOnly_own ..), .inr ⟨⟨_, rfl⟩, ?_⟩⟩
      rw [hfail] at hinsert
      simp only [false_or]
      tauto

/-- `takeStack` changes maps and owned ranges alone, and when it fails. -/
theorem takeStack_cases (k : Kernel) (p stackSize state : ℕ) (m : ThreadAlloc) :
    StackOnly k (takeStack k p stackSize state m).1 ∧
      ((takeStack k p stackSize state m).2.isError = true ↔
        state &&& xtThreadUser ≠ 0 ∧ UserStackFails p m.userStack) := by
  rw [takeStack]
  split_ifs with huser
  · obtain ⟨hkept, hcases⟩ := xtAllocateUserStack_cases k p stackSize m.userStack
    split
    all_goals
      rename_i heq
      rw [heq] at hkept hcases
    · obtain ⟨⟨r, hr, herr⟩, hfails⟩ | ⟨⟨v, hv⟩, -⟩ := hcases
      · cases hr
        exact ⟨hkept, iff_of_true herr ⟨huser, hfails⟩⟩
      · cases hv
    · obtain ⟨⟨r, hr, -⟩, -⟩ | ⟨-, hok⟩ := hcases
      · cases hr
      · exact ⟨hkept, iff_of_false Bool.false_ne_true fun h => hok h.2⟩
  · exact ⟨⟨_, _, fun q => ⟨(k.process q).memoryMap, rfl⟩, rfl⟩, by simp [huser, XTResult.isError]⟩

/-- `xtCreateThread` fails for a stack, or goes on to take a record. -/
theorem xtCreateThread_cases (k : Kernel) (p stackSize state : ℕ) (m : ThreadAlloc) :
    ∃ k1, StackOnly k k1 ∧
      (StackFails p state m ∧ (xtCreateThread k p stackSize state m).1 = k1 ∨
        ¬ StackFails p state m ∧ ∃ kernelStack,
          (xtCreateThread k p stackSize state m).1 = match takeThread k1 m with
            | (k2, .error _) => k2
            | (k2, .ok t) => (setThread k2 p kernelStack state t m).1) := by
  rw [xtCreateThread, StackFails]
  generalize (if stackSize = 0 then 0x100000 else stackSize) = size
  cases m.kernelStack with
  | none => exact ⟨k, ⟨_, _, fun q => ⟨(k.process q).memoryMap, rfl⟩, rfl⟩, .inl ⟨.inl rfl, rfl⟩⟩
  | some kernelStack =>
    obtain ⟨hkept, hfail⟩ := takeStack_cases (k.own p [(kernelStack, 0x4000)]) p size state m
    refine ⟨_, (stackOnly_own k p [(kernelStack, 0x4000)]).trans hkept, ?_⟩
    dsimp only
    simp only [reduceCtorEq, false_or, ← hfail]
    split_ifs with herr
    · exact .inl ⟨herr, rfl⟩
    · refine .inr ⟨herr, higherHalfMem kernelStack, ?_⟩
      split <;> simp only [*]

/-- `xtCreateProcess` fails, perhaps after its block was taken, or the block becomes a
    process. -/
theorem xtCreateProcess_cases {fuel : ℕ} {k k' : Kernel} {parentProcess : ℕ}
    {block page node : Option ℕ} {old : XTProcess} {r : Except XTResult ℕ}
    (h : xtCreateProcess fuel k parentProcess block page node old = some (k', r)) :
    (∃ used, (∀ q, k.processUsed q = true → used q = true) ∧
      (∀ q, used q = true → k.processUsed q = true ∨ block = some q ∧ page = none) ∧
      k' = { k with processUsed := used }) ∨
    ∃ p pageTable lastProcessId owned H head, block = some p ∧ page = some pageTable ∧ k' = { k with
      process := Function.update k.process p { old with
        pageTable := pageTable, parentProcess := parentProcess, id := k.lastProcessId }
      processUsed := Function.update k.processUsed p true
      lastProcessId := lastProcessId, owned := owned, list := H, processess := head
      live := k.live ++ [p] } := by
  cases block with
  | none =>
    cases h
    exact .inl ⟨k.processUsed, fun _ h => h, fun _ h => .inl h, rfl⟩
  | some p =>
    cases page with
    | none =>
      cases h
      refine .inl ⟨_, fun q hq => ?_, fun q hq => ?_, rfl⟩ <;> by_cases hqp : q = p
      · simp [hqp]
      · simpa [hqp] using hq
      · exact .inr ⟨congrArg some hqp.symm, rfl⟩
      · exact .inl (by simpa [hqp] using hq)
    | some pageTable =>
      obtain ⟨k1, hk1, heq⟩ := Option.map_eq_some_iff.mp h
      obtain ⟨H, head, rfl⟩ := linkProcess_some hk1
      cases heq
      exact .inr ⟨p, pageTable, _, _, H, head, rfl, rfl, rfl⟩

/-- What a call that is made returns. -/
theorem Kernel.exec_some {fuel : ℕ} {k k' : Kernel} {c : Call} (h : k.exec fuel c = some k') :
    match c with
    | .createProcess parentProcess block page node old =>
      Fresh k.processUsed block ∧
        ∃ r, xtCreateProcess fuel k parentProcess block page node old = some (k', r)
    | .terminateProcess p code =>
      k.processUsed p = true ∧ (xtTerminateProcess fuel k p code).kernel? = some k'
    | .createThread p stackSize state m =>
      (k.processUsed p = true ∧ Fresh k.threadUsed m.block) ∧
        k' = (xtCreateThread k p stackSize state m).1
    | .terminateThread t code =>
      k.threadUsed t = true ∧ (xtTerminateThread fuel k t code).kernel? = some k'
    | .timer => k' = xtSchedule k := by
  cases c <;> simp only [Kernel.exec] at h <;> split_ifs at h with hargs
  · obtain ⟨⟨k1, r⟩, hcreate, rfl⟩ := Option.map_eq_some_iff.mp h
    exact ⟨hargs.1, r, hcreate⟩
  · exact ⟨hargs, h⟩
  · exact ⟨hargs, (Option.some.inj h).symm⟩
  · exact ⟨hargs, h⟩
  · exact (Option.some.inj h).symm

/-! ### Frames -/

/-- Only thread records and the running thread differ, and every thread keeps its
    process and its kernel stack. -/
def ThreadsOnly (k k' : Kernel) : Prop :=
  ∃ thread current iterator,
    (∀ t, (thread t).process = (k.thread t).process ∧
      (thread t).kernelStack = (k.thread t).kernelStack) ∧
    k' = { k with
      thread := thread, currentThread := current, currentThreadIterator := iterator }

theorem ThreadsOnly.refl (k : Kernel) : ThreadsOnly k k := ⟨_, _, _, fun _ => ⟨rfl, rfl⟩, rfl⟩

theorem ThreadsOnly.trans {k k' k'' : Kernel} (h : ThreadsOnly k k') (h' : ThreadsOnly k' k'') :
    ThreadsOnly k k'' := by
  obtain ⟨th, cur, it, hsame, rfl⟩ := h
  obtain ⟨th', cur', it', hsame', rfl⟩ := h'
  exact ⟨th', cur', it', fun t => ⟨(hsame' t).1.trans (hsame t).1,
    (hsame' t).2.trans (hsame t).2⟩, rfl⟩

theorem ThreadsOnly.foldl {f : Kernel → ℕ → Kernel} (hf : ∀ k t, ThreadsOnly k (f k t))
    (ts : List ℕ) (k : Kernel) : ThreadsOnly k (ts.foldl f k) := by
  induction ts generalizing k with
  | nil => exact .refl k
  | cons t ts ih => exact (hf k t).trans (ih (f k t))

theorem threadsOnly_modifyThread (k : Kernel) (t : ℕ) {f : XTThread → XTThread}
    (hf : ∀ th, (f th).process = th.process ∧ (f th).kernelStack = th.kernelStack) :
    ThreadsOnly k (k.modifyThread t f) := by
  refine ⟨_, _, _, fun t' => ?_, rfl⟩
  by_cases h : t' = t
  · subst h
    simpa using hf (k.thread t')
  · simp [h]

theorem threadsOnly_wakeUpPass (k : Kernel) (t : ℕ) : ThreadsOnly k (wakeUpPass k t) := by
  have htick := threadsOnly_modifyThread k t
    (f := fun th => { th with ticks := dec64 th.ticks }) (by simp)
  rw [wakeUpPass]
  dsimp only
  split_ifs
  · exact htick.trans (threadsOnly_modifyThread _ t (by simp))
  · exact htick
  · exact .refl k

theorem threadsOnly_switchNext (k : Kernel) : ThreadsOnly k (switchNext k) := by
  refine ThreadsOnly.trans (threadsOnly_modifyThread k
    (searchLoop k k.currentThreadIterator k.threads.length k.currentThreadIterator).2
    (f := fun th => { th with ticks := th.privilage }) (by simp)) ?_
  exact ⟨_, _, _, fun _ => ⟨rfl, rfl⟩, rfl⟩

theorem threadsOnly_xtSchedule (k : Kernel) : ThreadsOnly k (xtSchedule k) := by
  have hwake : ThreadsOnly k (xtWakeUpThreads k) := ThreadsOnly.foldl threadsOnly_wakeUpPass _ k
  refine hwake.trans ?_
  rw [xtSchedule]
  dsimp only
  split_ifs
  · exact threadsOnly_modifyThread _ _ (by simp)
  · exact (threadsOnly_modifyThread _ _ (by simp)).trans (threadsOnly_switchNext _)
  · exact threadsOnly_switchNext _

theorem threadsOnly_markTerminated (k : Kernel) (t code : ℕ) :
    ThreadsOnly k (markTerminated k t code) := by
  rw [markTerminated]
  refine ThreadsOnly.trans ?_ (ThreadsOnly.foldl ?_ _ _)
  · exact threadsOnly_modifyThread k t (by simp)
  · exact fun k w => threadsOnly_modifyThread k w (by simp)

/-! ### Freeing -/

theorem freeThreadPass_eq (k : Kernel) (t : ℕ) : ∃ pages, freeThreadPass k t = { k with
    threadUsed := fun t' => if t' ≠ 0 ∧ t' = t then false else k.threadUsed t'
    freedPages := pages } := by
  have hupdate (ht : t ≠ 0) : Function.update k.threadUsed t false =
      fun t' => if t' ≠ 0 ∧ t' = t then false else k.threadUsed t' := by
    funext t'
    by_cases heq : t' = t
    · simp [heq, ht]
    · simp [heq]
  rw [freeThreadPass]
  dsimp only
  split_ifs with ht0
  · have hkeep : (fun t' => if t' ≠ 0 ∧ t' = t then false else k.threadUsed t') =
        k.threadUsed := by
      funext t'
      simp [ht0]
    exact ⟨k.freedPages, by rw [hkeep]⟩
  · exact ⟨_, by rw [← hupdate ht0]; rfl⟩
  · exact ⟨k.freedPages, by rw [← hupdate ht0]; rfl⟩

/-- Which threads the loop of `xtTerminateProcess` frees. -/
theorem freeThreads_eq (ts : List ℕ) (k : Kernel) : ∃ pages, freeThreads k ts = { k with
    threadUsed := fun t => if t ≠ 0 ∧ t ∈ ts then false else k.threadUsed t
    freedPages := pages } := by
  induction ts generalizing k with
  | nil => exact ⟨k.freedPages, by simp [freeThreads]⟩
  | cons t ts ih =>
    obtain ⟨pages, hpass⟩ := freeThreadPass_eq k t
    obtain ⟨pages', hrest⟩ := ih (freeThreadPass k t)
    refine ⟨pages', ?_⟩
    rw [freeThreads, List.foldl_cons, ← freeThreads, hrest, hpass]
    congr 1
    funext t'
    by_cases heq : t' = t
    · by_cases ht0 : t = 0 <;> simp [heq, ht0]
    · simp [heq]

theorem freeMaps_eq (ms : List XTVirtualMap) (k : Kernel) :
    ∃ pages, freeMaps k ms = { k with freedPages := pages } := by
  induction ms generalizing k with
  | nil => exact ⟨k.freedPages, rfl⟩
  | cons m ms ih =>
    obtain ⟨pages, hrest⟩ := ih (freeMapPass k m)
    refine ⟨pages, ?_⟩
    rw [freeMaps, List.foldl_cons, ← freeMaps, hrest, freeMapPass]
    split_ifs <;> rfl

theorem dropProcess_eq (k : Kernel) (p : ℕ) : ∃ pages id, dropProcess k p = { k with
    processUsed := Function.update k.processUsed p false
    lastProcessId := id, freedPages := pages } := by
  rw [dropProcess]
  split_ifs
  · exact ⟨_, _, rfl⟩
  · exact ⟨_, k.lastProcessId, rfl⟩
  · exact ⟨k.freedPages, _, rfl⟩
  · exact ⟨k.freedPages, k.lastProcessId, rfl⟩

/-- All that `releaseProcess` does, apart from the pages, the nodes and the id counter. -/
theorem releaseProcess_eq {fuel : ℕ} {k k' : Kernel} {p : ℕ}
    (h : (releaseProcess fuel k p).kernel? = some k') : ∃ pages H id, k' = { k with
      process := Function.update k.process p { k.process p with
        threads := [], memoryMap := [], descriptorRoot := 0 }
      threadUsed := fun t =>
        if t ≠ 0 ∧ t ∈ (k.process p).threads then false else k.threadUsed t
      processUsed := Function.update k.processUsed p false
      list := H, lastProcessId := id, freedPages := pages } := by
  obtain ⟨pages, hthreads⟩ := freeThreads_eq (k.process p).threads k
  rw [releaseProcess, hthreads] at h
  dsimp only [Kernel.modifyProcess] at h
  rw [Function.update_self] at h
  obtain ⟨pages', hmaps⟩ := freeMaps_eq (k.process p).memoryMap { k with
    process := Function.update k.process p { k.process p with threads := [] }
    threadUsed := fun t => if t ≠ 0 ∧ t ∈ (k.process p).threads then false else k.threadUsed t
    freedPages := pages }
  rw [hmaps] at h
  split at h
  · cases h
  · rename_i H _
    obtain ⟨pages'', id, hdrop⟩ := dropProcess_eq { k with
      process := Function.update (Function.update k.process p { k.process p with threads := [] }) p
        { k.process p with threads := [], memoryMap := [], descriptorRoot := 0 }
      threadUsed := fun t => if t ≠ 0 ∧ t ∈ (k.process p).threads then false else k.threadUsed t
      list := H, freedPages := pages' } p
    simp only [Function.update_self] at h
    rw [hdrop, Function.update_idem] at h
    exact ⟨pages'', H, id, (Option.some.inj h).symm⟩

end XTOS.Process

import Mathlib.Data.List.GetD
import XTOS.Arch.Machine
import Mathlib.Order.CompletePartialOrder

/-!
# Switching between threads

The threads of the kernel on one processor, through the stubs of `switchContext.asm`: a thread runs, an
interrupt saves its context on its kernel stack, the handler makes some thread current, and the end of
the stub loads the context of that one. `xtSetContext` of `xtkernel/arch/x86_64/context.c` prepares the
first context of a thread that `xtCreateThread` makes.

## Main definitions

- `System` — the machine, the threads that are alive and their kernel stacks
- `System.Step` — a thread runs, an interrupt, a new thread, the end of a thread
- `Threads`, `Threads.Step` — the abstract machine, in which every thread has its own registers
- `Refines` — the contexts on the kernel stacks are the registers of the threads

## Main results

- `System.Step.simulates` — a step of the machine is a step of the abstract one
- `runs_refine` — so is every run
- `resumes_where_interrupted` — a thread goes on with the registers it was interrupted with

## Design notes

What a thread does between interrupts is arbitrary, as is the choice of the handler: the assumptions are
that both leave alone the records of the threads, the kernel stacks of the other threads and, in the
handler, the context that was just saved. The records are words of memory: the address of the context at
0, of the process at 32, of the stack at 40, and the page table at 8 of the process.
-/

namespace XTOS.Arch

open SysLib

/-- What a thread has in the processor. -/
structure Regs where
  gpr : Reg → Word
  rip : Word
  cs : Word
  rflags : Word
  rsp : Word
  ss : Word

/-- The registers of the code that runs. -/
def Machine.regs (s : Machine) : Regs := ⟨s.gpr, s.rip, s.cs, s.rflags, s.rsp, s.ss⟩

/-- The registers in a context. -/
def Context.regs (c : Context) : Regs := ⟨c.gpr, c.rip, c.cs, c.rflags, c.rsp, c.ss⟩

/-- The frame of an interrupt that comes at the stack pointer `top`. -/
def frameCells (top : Word) : Set Word := cells (lowered top contextWords) contextWords

/-- The machine, the records of the threads that are alive and the addresses of their kernel stacks. -/
structure System where
  machine : Machine
  live : Set Word
  stack : Word → Set Word

/-- `XTPerCPUData`, and the base of `gs` in user code. -/
structure Bases where
  cpuData : Word
  userGs : Word

variable {B : Bases} {σ σ' : System}

/-- The current thread. -/
def System.current (B : Bases) (σ : System) : Word := σ.machine.mem B.cpuData

/-- `thread->kernelStack`. -/
def Machine.kernelStack (s : Machine) (t : Word) : Word := s.mem (t + 40)

/-- The word with `thread->process->pageTable`. -/
def Machine.tableCell (s : Machine) (t : Word) : Word := s.mem (t + 32) + 8

/-- The words that no thread and no handler changes but by the calls that are for it. -/
def System.records (σ : System) : Set Word :=
  {x | ∃ t ∈ σ.live, x = t ∨ x = t + 32 ∨ x = t + 40 ∨ x = σ.machine.tableCell t}

/-- The memory of the threads is apart. -/
structure System.Separate (B : Bases) (σ : System) : Prop where
  kernelStacks : ∀ t ∈ σ.live, ∀ u ∈ σ.live, t ≠ u → Disjoint (σ.stack t) (σ.stack u)
  records : ∀ t ∈ σ.live, Disjoint (σ.stack t) σ.records
  cpuData : ∀ t ∈ σ.live, B.cpuData ∉ σ.stack t
  cpuData_records : B.cpuData ∉ σ.records
  slots : ∀ t ∈ σ.live, ∀ u ∈ σ.live,
    t ≠ u + 32 ∧ t ≠ u + 40 ∧ t ≠ σ.machine.tableCell u
  aligned : ∀ t ∈ σ.live, align16 (σ.machine.kernelStack t) = σ.machine.kernelStack t
  room : ∀ t ∈ σ.live, frameCells (σ.machine.kernelStack t) ⊆ σ.stack t

/-- Code of thread `t` with these registers can be interrupted: user code, or kernel code with room on its
    stack. -/
def Interruptible (σ : System) (t : Word) (r : Regs) : Prop :=
  r.cs = userCode ∨ r.cs = kernelCode ∧ frameCells (align16 r.rsp) ⊆ σ.stack t

/-- The processor runs thread `t`. -/
structure System.Runs (B : Bases) (σ : System) (t : Word) : Prop where
  interruptible : Interruptible σ t σ.machine.regs
  userGs : σ.machine.cs = userCode →
    σ.machine.gsBase = B.userGs ∧ σ.machine.kernelGsBase = B.cpuData
  kernelGs : σ.machine.cs = kernelCode →
    σ.machine.gsBase = B.cpuData ∧ σ.machine.kernelGsBase = B.userGs
  rsp0 : σ.machine.cs = userCode → σ.machine.rsp0 = σ.machine.kernelStack t
  cr3 : σ.machine.cr3 = σ.machine.mem (σ.machine.tableCell t)

/-- The context of thread `t` is on its kernel stack. -/
structure System.Suspended (σ : System) (t : Word) (r : Regs) : Prop where
  frame : ∃ c : Context, words σ.machine.mem (σ.machine.mem t) contextWords = c.frame ∧ c.regs = r
  cells : cells (σ.machine.mem t) contextWords ⊆ σ.stack t
  interruptible : Interruptible σ t r

/-! ### The abstract machine -/

/-- The threads, each with its own registers. -/
structure Threads where
  live : Set Word
  current : Word
  regs : Word → Regs

/-- A step of the abstract machine. -/
inductive Threads.Step : Threads → Threads → Prop
  /-- The current thread runs. -/
  | run (α : Threads) (r : Regs) :
    Step α { α with regs := Function.update α.regs α.current r }
  /-- Another thread, or the same one, gets the processor. -/
  | switch (α : Threads) {next : Word} : next ∈ α.live → Step α { α with current := next }
  /-- There is a new thread. -/
  | create (α : Threads) {t : Word} (r : Regs) : t ∉ α.live →
    Step α { α with live := insert t α.live, regs := Function.update α.regs t r }
  /-- A thread that does not run comes to its end. -/
  | exit (α : Threads) {t : Word} : t ≠ α.current → Step α { α with live := α.live \ {t} }

/-- The machine has the registers of the threads: those of the current one are in the processor, those of
    the other ones on their kernel stacks. -/
structure Refines (B : Bases) (σ : System) (α : Threads) : Prop where
  live : α.live = σ.live
  current : α.current = σ.current B
  current_live : α.current ∈ α.live
  separate : σ.Separate B
  runs : σ.Runs B α.current
  regs : σ.machine.regs = α.regs α.current
  suspended : ∀ t ∈ α.live, t ≠ α.current → σ.Suspended t (α.regs t)

/-! ### The machine -/

/-- Nothing of the other threads changes. -/
structure Keeps (B : Bases) (σ : System) (m : Word → Word) : Prop where
  records : ∀ x ∈ σ.records, m x = σ.machine.mem x
  kernelStacks : ∀ t ∈ σ.live, t ≠ σ.current B → ∀ x ∈ σ.stack t, m x = σ.machine.mem x

/-- What `xtExceptionHandler` does from the state `s` at its call on: it may use the kernel stack below the
    context, makes a thread current and sets `tss.rsp0` for it. -/
structure Handles (B : Bases) (σ : System) (s s' : Machine) : Prop where
  gsBase : s'.gsBase = s.gsBase
  kernelGsBase : s'.kernelGsBase = s.kernelGsBase
  records : ∀ x ∈ σ.records, s'.mem x = s.mem x
  kernelStacks : ∀ t ∈ σ.live, t ≠ σ.current B → ∀ x ∈ σ.stack t, s'.mem x = s.mem x
  context : ∀ x ∈ cells (s.mem (σ.current B)) contextWords, s'.mem x = s.mem x
  next : s'.mem B.cpuData ∈ σ.live
  rsp0 : s'.rsp0 = s'.kernelStack (s'.mem B.cpuData)

/-- The address of the context on a new kernel stack: `kernelStack + 0x4000 - sizeof(XTContext)`. -/
def firstContext (kernelStack : Word) : Word := kernelStack + 0x4000 - 184

/-- `xtSetContext`: the memory after it; the context is at `firstContext`. -/
def xtSetContext (m : Word → Word) (kernelStack function arg physStackTop stackTop userExit : Word)
    (user : Bool) : Word → Word :=
  let ctx := firstContext kernelStack
  let m := Function.update m physStackTop userExit
  let m := Function.update m (cell ctx 18) function
  let m := Function.update m (cell ctx 20) 0x202
  let m := Function.update m (cell ctx 3) arg
  let m := Function.update m (cell ctx 19) (if user then userCode else kernelCode)
  let m := Function.update m (cell ctx 22) (if user then userData else kernelData)
  Function.update m (cell ctx 21) stackTop

/-- What `xtCreateThread` is called with, and what it allocates: the record, the kernel stack, and the end
    of a user stack in the process and in the kernel. -/
structure NewThread where
  record : Word
  process : Word
  kernelStack : Word
  function : Word
  arg : Word
  userExit : Word
  userStack : Option (Word × Word)

/-- `stack_top`. -/
def NewThread.stackTop (c : NewThread) : Word :=
  (c.userStack.elim (c.kernelStack + 0x4000) Prod.fst) - 40

/-- `physStackTop`. -/
def NewThread.physStackTop (c : NewThread) : Word :=
  (c.userStack.elim (c.kernelStack + 0x4000) Prod.snd) - 40

/-- `xtCreateThread`, as far as the stack and the record are concerned. -/
def xtCreateThread (m : Word → Word) (c : NewThread) : Word → Word :=
  let m := xtSetContext m c.kernelStack c.function c.arg c.physStackTop c.stackTop c.userExit
    c.userStack.isSome
  let m := Function.update m (c.record + 32) c.process
  let m := Function.update m c.record (firstContext c.kernelStack)
  Function.update m (c.record + 40) (c.kernelStack + 0x4000)

/-- Memory that the threads do not use. -/
def System.Unused (B : Bases) (σ : System) (x : Word) : Prop :=
  x ∉ σ.records ∧ x ≠ B.cpuData ∧ ∀ t ∈ σ.live, x ∉ σ.stack t

/-- The system with a new thread. -/
def System.create (σ : System) (c : NewThread) : System where
  machine := { σ.machine with mem := xtCreateThread σ.machine.mem c }
  live := insert c.record σ.live
  stack := Function.update σ.stack c.record (cells c.kernelStack 2048)

/-- The memory that `xtCreateThread` got is not used by a thread, and the kernel stack is whole pages. -/
structure System.Fresh (B : Bases) (σ : System) (c : NewThread) : Prop where
  record : c.record ∉ σ.live
  written : ∀ x, xtCreateThread σ.machine.mem c x ≠ σ.machine.mem x → σ.Unused B x
  separate : (σ.create c).Separate B
  pages : c.kernelStack.toNat % 4096 = 0
  size : c.kernelStack.toNat + 0x4000 < 2 ^ 64

/-- An interrupt, up to the end of its stub. -/
def System.Interrupted (B : Bases) (σ σ' : System) : Prop :=
  ∃ (n : ℕ) (errorCode : Option Word) (xtExceptionHandler : Word) (calls : Word → Machine → Machine),
    n ∉ istVectors ∧ (errorCode.isSome ↔ n ∈ errorVectors) ∧
    (∀ g flags, let s := { σ.machine.entered n (σ.machine.context n (errorCode.getD 0)) with
      gpr := g, rflags := flags }; Handles B σ s (calls xtExceptionHandler s)) ∧
    σ' = { σ with
      machine := exec calls (isrStub xtExceptionHandler n) (σ.machine.interrupt n errorCode) }

/-- A step of the machine. -/
inductive System.Step (B : Bases) : System → System → Prop
  /-- The current thread runs; it may enter and leave the kernel. -/
  | run {σ : System} {s : Machine} : Keeps B σ s.mem → s.mem B.cpuData = σ.current B →
    System.Runs B { σ with machine := s } (σ.current B) → Step B σ { σ with machine := s }
  /-- An interrupt. -/
  | interrupt {σ σ' : System} : σ.Interrupted B σ' → Step B σ σ'
  /-- `xtCreateThread`. -/
  | create {σ : System} {c : NewThread} : σ.Fresh B c → Step B σ (σ.create c)
  /-- A thread that does not run comes to its end. -/
  | exit {σ : System} {t : Word} : t ≠ σ.current B → Step B σ { σ with live := σ.live \ {t} }

/-- A step that thread `t` waits for its turn in. -/
def System.Waits (B : Bases) (t : Word) (σ σ' : System) : Prop :=
  σ.Step B σ' ∧ σ.current B ≠ t ∧ t ∈ σ'.live

/-! ### The frame of an interrupt -/

variable {t : Word} {r : Regs} {α : Threads}

theorem frame_length (c : Context) : c.frame.length = contextWords := by
  simp [Context.frame, contextRegs, contextWords]

/-- A stub changes the frame and the place of the context in the record only. -/
theorem framed_spec {s : Machine} {c : Context} {S : Set Word} (hS : frameCells s.rsp ⊆ S)
    (hcur : s.mem s.gsBase = t) (hgs : s.gsBase ∉ S) (ht : t ∉ S) :
    s.framed c.frame.reverse t = lowered s.rsp contextWords ∧
      words (s.framed c.frame.reverse) (lowered s.rsp contextWords) contextWords = c.frame ∧
      ∀ x, x ∉ S → x ≠ t → s.framed c.frame.reverse x = s.mem x := by
  have hlen : c.frame.reverse.length = contextWords := by rw [List.length_reverse, frame_length]
  have hout : ∀ x, x ∉ S → pushWords s.mem s.rsp c.frame.reverse x = s.mem x := by
    intro x hx
    refine pushWords_outside fun hmem => hx (hS ?_)
    rw [hlen] at hmem
    exact hmem
  have hframed : s.framed c.frame.reverse =
      Function.update (pushWords s.mem s.rsp c.frame.reverse) t (lowered s.rsp contextWords) := by
    rw [Machine.framed, hlen, hout _ hgs, hcur]
  rw [hframed]
  refine ⟨Function.update_self _ _ _, ?_, fun x hx hne => ?_⟩
  · have hwords := @words_pushWords _ s.mem s.rsp c.frame.reverse (by rw [hlen]; decide)
    rw [hlen, List.reverse_reverse] at hwords
    refine Eq.trans (words_congr fun x hx => ?_) hwords
    have hne : x ≠ t := fun h => ht (hS (h ▸ hx))
    exact Function.update_of_ne hne _ _
  · rw [Function.update_of_ne hne, hout x hx]

theorem System.Runs.interruptTop (h : σ.Runs B t) (hsep : σ.Separate B) (ht : t ∈ σ.live) {n : ℕ}
    (hn : n ∉ istVectors) : frameCells (σ.machine.interruptTop n) ⊆ σ.stack t := by
  rw [Machine.interruptTop, if_neg hn]
  obtain huser | ⟨hkernel, hroom⟩ := h.interruptible
  · have hcs : σ.machine.cs = userCode := huser
    have hin : σ.machine.inUser = true := by rw [Machine.inUser, hcs]; rfl
    rw [if_pos hin, h.rsp0 hcs, hsep.aligned t ht]
    exact hsep.room t ht
  · have hcs : σ.machine.cs = kernelCode := hkernel
    have hin : ¬ σ.machine.inUser = true := by rw [Machine.inUser, hcs]; decide
    rw [if_neg hin]
    exact hroom

/-- The base of `gs` in a stub. -/
theorem System.Runs.swapFor (h : σ.Runs B t) :
    (σ.machine.swapFor σ.machine.cs).gsBase = B.cpuData ∧
      (σ.machine.swapFor σ.machine.cs).kernelGsBase = B.userGs := by
  obtain huser | ⟨hkernel, -⟩ := h.interruptible
  · have hcs : σ.machine.cs = userCode := huser
    have hlow : lowWord σ.machine.cs = userCode := by rw [hcs]; rfl
    rw [Machine.swapFor_gsBase, Machine.swapFor_kernelGsBase, if_pos hlow, if_pos hlow]
    exact (h.userGs hcs).symm
  · have hcs : σ.machine.cs = kernelCode := hkernel
    have hlow : lowWord σ.machine.cs ≠ userCode := by rw [hcs]; decide
    rw [Machine.swapFor_gsBase, Machine.swapFor_kernelGsBase, if_neg hlow, if_neg hlow]
    exact h.kernelGs hcs

theorem System.Separate.record_notMem (h : σ.Separate B) {u : Word} (ht : t ∈ σ.live) (hu : u ∈ σ.live)
    {x : Word} (hx : x = u ∨ x = u + 32 ∨ x = u + 40 ∨ x = σ.machine.tableCell u) : x ∉ σ.stack t :=
  fun hmem => Set.disjoint_left.mp (h.records t ht) hmem ⟨u, hu, hx⟩

/-- What the handler finds: the context of the thread is on its stack, all else is as it was. -/
theorem Refines.entered (h : Refines B σ α) {n : ℕ} (hn : n ∉ istVectors) (errorCode : Word) :
    let c := σ.machine.context n errorCode
    let s := σ.machine.entered n c
    s.gsBase = B.cpuData ∧ s.kernelGsBase = B.userGs ∧
      s.mem (σ.current B) = lowered (σ.machine.interruptTop n) contextWords ∧
      words s.mem (s.mem (σ.current B)) contextWords = c.frame ∧
      cells (s.mem (σ.current B)) contextWords ⊆ σ.stack (σ.current B) ∧
      ∀ x, x ∉ σ.stack (σ.current B) → x ≠ σ.current B → s.mem x = σ.machine.mem x := by
  intro c s
  have hlive : σ.current B ∈ σ.live := h.current ▸ h.live ▸ h.current_live
  have hruns : σ.Runs B (σ.current B) := h.current ▸ h.runs
  obtain ⟨hgs, hkernel⟩ := hruns.swapFor
  have htop := hruns.interruptTop h.separate hlive hn
  have hgated : ((σ.machine.gated n).swapFor c.cs).gsBase = B.cpuData := hgs
  obtain ⟨hslot, hwords, hrest⟩ := framed_spec (s := (σ.machine.gated n).swapFor c.cs) (c := c)
    (t := σ.current B) htop (by rw [hgated]; rfl) (by rw [hgated]; exact h.separate.cpuData _ hlive)
    (h.separate.record_notMem hlive hlive (.inl rfl))
  refine ⟨hgs, hkernel, hslot, ?_, ?_, hrest⟩
  · rw [show s.mem (σ.current B) = _ from hslot]
    exact hwords
  · rw [show s.mem (σ.current B) = _ from hslot]
    exact htop

/-! ### Memories that keep the records -/

/-- The processes and the kernel stacks of the threads are the same in a memory. -/
def SameFields (σ : System) (m : Word → Word) : Prop :=
  ∀ t ∈ σ.live, m (t + 32) = σ.machine.mem (t + 32) ∧ m (t + 40) = σ.machine.mem (t + 40)

theorem SameFields.of_records {m : Word → Word} (h : ∀ x ∈ σ.records, m x = σ.machine.mem x) :
    SameFields σ m := fun t ht =>
  ⟨h _ ⟨t, ht, .inr (.inl rfl)⟩, h _ ⟨t, ht, .inr (.inr (.inl rfl))⟩⟩

theorem SameFields.tableCell {s : Machine} (h : SameFields σ s.mem) (ht : t ∈ σ.live) :
    s.tableCell t = σ.machine.tableCell t := by
  rw [Machine.tableCell, Machine.tableCell, (h t ht).1]

theorem SameFields.records {s : Machine} (h : SameFields σ s.mem) :
    ({ σ with machine := s } : System).records = σ.records := by
  ext x
  refine exists_congr fun u => and_congr_right fun hu => ?_
  rw [h.tableCell hu]

theorem System.Separate.keep (h : σ.Separate B) {s : Machine} (hm : SameFields σ s.mem) :
    ({ σ with machine := s } : System).Separate B where
  kernelStacks := h.kernelStacks
  records t ht := by
    rw [hm.records]
    exact h.records t ht
  cpuData := h.cpuData
  cpuData_records := by
    rw [hm.records]
    exact h.cpuData_records
  slots t ht u hu := by
    dsimp only
    rw [hm.tableCell hu]
    exact h.slots t ht u hu
  aligned t ht := by
    dsimp only [Machine.kernelStack]
    rw [(hm t ht).2]
    exact h.aligned t ht
  room t ht := by
    dsimp only [Machine.kernelStack]
    rw [(hm t ht).2]
    exact h.room t ht

/-- A context that nobody touches stays. -/
theorem System.Suspended.keep (h : σ.Suspended t r) {s : Machine} (hslot : s.mem t = σ.machine.mem t)
    (hstack : ∀ x ∈ σ.stack t, s.mem x = σ.machine.mem x) :
    ({ σ with machine := s } : System).Suspended t r := by
  obtain ⟨⟨c, hframe, hregs⟩, hcells, hint⟩ := h
  refine ⟨⟨c, ?_, hregs⟩, ?_, hint⟩
  · dsimp only
    rw [hslot, ← hframe]
    exact words_congr fun x hx => hstack x (hcells hx)
  · dsimp only
    rw [hslot]
    exact hcells

/-! ### Steps -/

/-- A thread runs. -/
theorem Refines.run (h : Refines B σ α) {s : Machine} (hkeeps : Keeps B σ s.mem)
    (hcur : s.mem B.cpuData = σ.current B)
    (hruns : System.Runs B { σ with machine := s } (σ.current B)) :
    Refines B { σ with machine := s } { α with regs := Function.update α.regs α.current s.regs } where
  live := h.live
  current := h.current.trans hcur.symm
  current_live := h.current_live
  separate := h.separate.keep (.of_records hkeeps.records)
  runs := by
    rw [h.current]
    exact hruns
  regs := (Function.update_self α.current s.regs α.regs).symm
  suspended t ht hne := by
    dsimp only at ht hne ⊢
    rw [Function.update_of_ne hne]
    have hlive : t ∈ σ.live := h.live ▸ ht
    exact (h.suspended t ht hne).keep (hkeeps.records t ⟨t, hlive, .inl rfl⟩)
      (hkeeps.kernelStacks t hlive (h.current ▸ hne))

/-- When the handler returns every thread has its context on its kernel stack. -/
theorem Refines.saved (h : Refines B σ α) {n : ℕ} (hn : n ∉ istVectors) {errorCode : Word}
    {g : Reg → Word} {flags : Word} {s₂ : Machine}
    (hhandles : Handles B σ { σ.machine.entered n (σ.machine.context n errorCode) with
      gpr := g, rflags := flags } s₂) (t : Word) (ht : t ∈ σ.live) :
    ({ σ with machine := s₂ } : System).Suspended t (α.regs t) := by
  obtain ⟨-, -, -, hwords, hcells, hrest⟩ := h.entered hn errorCode
  have hlive : σ.current B ∈ σ.live := h.current ▸ h.live ▸ h.current_live
  have hslot := hhandles.records t ⟨t, ht, .inl rfl⟩
  by_cases hcur : t = σ.current B
  · subst hcur
    refine ⟨⟨σ.machine.context n errorCode, ?_, ?_⟩, ?_, ?_⟩
    · dsimp only at hslot ⊢
      rw [hslot, ← hwords]
      exact words_congr fun x hx => hhandles.context x hx
    · exact h.regs.trans (congrArg α.regs h.current)
    · dsimp only at hslot ⊢
      rw [hslot]
      exact hcells
    · have hint := h.runs.interruptible
      rw [h.regs, h.current] at hint
      exact hint
  · have hne : t ≠ α.current := h.current ▸ hcur
    refine (h.suspended t (h.live ▸ ht) hne).keep (hslot.trans ?_) fun x hx => ?_
    · exact hrest t (h.separate.record_notMem hlive ht (.inl rfl)) hcur
    · refine (hhandles.kernelStacks t ht hcur x hx).trans (hrest x ?_ ?_)
      · exact Set.disjoint_left.mp (h.separate.kernelStacks t ht _ hlive hcur) hx
      · rintro rfl
        exact h.separate.record_notMem ht hlive (.inl rfl) hx

/-- The processor after the end of a stub. -/
theorem System.Suspended.resumed {s : Machine} {c : Context} (hint : Interruptible σ t c.regs)
    (hgs : s.gsBase = B.cpuData) (hkernel : s.kernelGsBase = B.userGs) (ht : s.mem B.cpuData = t)
    (hrsp0 : s.rsp0 = s.kernelStack t) :
    System.Runs B { σ with machine := s.resumed c } t where
  interruptible := hint
  userGs huser := by
    have hlow : lowWord c.cs = userCode := by rw [show c.cs = userCode from huser]; rfl
    dsimp only [Machine.resumed]
    rw [Machine.swapFor_gsBase, Machine.swapFor_kernelGsBase, if_pos hlow, if_pos hlow]
    exact ⟨hkernel, hgs⟩
  kernelGs hcode := by
    have hlow : lowWord c.cs ≠ userCode := by rw [show c.cs = kernelCode from hcode]; decide
    dsimp only [Machine.resumed]
    rw [Machine.swapFor_gsBase, Machine.swapFor_kernelGsBase, if_neg hlow, if_neg hlow]
    exact ⟨hgs, hkernel⟩
  rsp0 _ := hrsp0
  cr3 := by
    dsimp only [Machine.resumed]
    rw [hgs, ht]
    rfl

/-- What the code of a stub does: the thread that the handler made current goes on. -/
theorem Refines.stub (h : Refines B σ α) {n : ℕ} {errorCode : Option Word} (hn : n ∉ istVectors)
    (herr : errorCode.isSome ↔ n ∈ errorVectors) {xtExceptionHandler : Word}
    {calls : Word → Machine → Machine}
    (hhandles : ∀ g flags, let s := { σ.machine.entered n (σ.machine.context n (errorCode.getD 0)) with
      gpr := g, rflags := flags }; Handles B σ s (calls xtExceptionHandler s)) :
    let σ' : System := { σ with
      machine := exec calls (isrStub xtExceptionHandler n) (σ.machine.interrupt n errorCode) }
    ∃ g flags, let s := { σ.machine.entered n (σ.machine.context n (errorCode.getD 0)) with
        gpr := g, rflags := flags }
      ∃ next ∈ α.live, next = (calls xtExceptionHandler s).mem B.cpuData ∧
        Refines B σ' { α with current := next } ∧
        ∀ t ∈ σ.live, t ≠ σ.current B → ∀ x ∈ σ.stack t, σ'.machine.mem x = σ.machine.mem x := by
  obtain ⟨g, flags, hstub⟩ := @exec_isrStub calls _ _ herr xtExceptionHandler σ.machine
  refine ⟨g, flags, ?_⟩
  have hh := hhandles g flags
  dsimp only at hh ⊢
  generalize hs₂ : calls xtExceptionHandler _ = s₂ at hh
  have hsaved := h.saved hn hh
  obtain ⟨hgs, hkernel, -, -, -, hrest⟩ := h.entered hn (errorCode.getD 0)
  have hlive : σ.current B ∈ σ.live := h.current ▸ h.live ▸ h.current_live
  have hgs₂ : s₂.gsBase = B.cpuData := hh.gsBase.trans hgs
  have hnext : s₂.mem B.cpuData ∈ α.live := h.live ▸ hh.next
  -- the context of the thread that goes on
  obtain ⟨⟨c, hframe, hregs⟩, -, hint⟩ := hsaved _ hh.next
  have hexec := hstub s₂ c hs₂ (by rw [hgs₂]; exact hframe)
  have hfields : SameFields σ s₂.mem := by
    intro t ht
    have hkeep : ∀ x, x = t + 32 ∨ x = t + 40 → s₂.mem x = σ.machine.mem x := by
      intro x hx
      obtain ⟨hne32, hne40, -⟩ := h.separate.slots _ hlive t ht
      have hfield : x = t ∨ x = t + 32 ∨ x = t + 40 ∨ x = σ.machine.tableCell t :=
        .inr (hx.imp_right .inl)
      refine (hh.records x ⟨t, ht, hfield⟩).trans (hrest x ?_ ?_)
      · exact h.separate.record_notMem hlive ht hfield
      · obtain rfl | rfl := hx
        · exact hne32.symm
        · exact hne40.symm
    exact ⟨hkeep _ (.inl rfl), hkeep _ (.inr rfl)⟩
  rw [hexec]
  refine ⟨s₂.mem B.cpuData, hnext, rfl, {
    live := h.live
    current := rfl
    current_live := hnext
    separate := h.separate.keep hfields
    runs := System.Suspended.resumed (hregs ▸ hint) hgs₂ (hh.kernelGsBase.trans hkernel) rfl hh.rsp0
    regs := hregs
    suspended := fun t ht _ =>
      (hsaved t (h.live ▸ ht)).keep (s := s₂.resumed c) rfl fun _ _ => rfl },
    fun t ht hne x hx => (hh.kernelStacks t ht hne x hx).trans (hrest x ?_ ?_)⟩
  · exact Set.disjoint_left.mp (h.separate.kernelStacks t ht _ hlive hne) hx
  · rintro rfl
    exact h.separate.record_notMem ht hlive (.inl rfl) hx

/-- **An interrupt** changes who runs; no registers and no stacks of waiting threads. -/
theorem Refines.interrupt (h : Refines B σ α) (hint : σ.Interrupted B σ') :
    (∃ next ∈ α.live, Refines B σ' { α with current := next }) ∧ σ'.stack = σ.stack ∧
      ∀ t ∈ σ.live, t ≠ σ.current B → ∀ x ∈ σ.stack t, σ'.machine.mem x = σ.machine.mem x := by
  obtain ⟨n, errorCode, xtExceptionHandler, calls, hn, herr, hhandles, rfl⟩ := hint
  obtain ⟨g, flags, next, hnext, -, h', hmem⟩ := h.stub hn herr hhandles
  exact ⟨⟨next, hnext, h'⟩, rfl, hmem⟩

/-- The end of another thread. -/
theorem Refines.exit (h : Refines B σ α) (hne : t ≠ σ.current B) :
    Refines B { σ with live := σ.live \ {t} } { α with live := α.live \ {t} } where
  live := by
    dsimp only
    rw [h.live]
  current := h.current
  current_live := ⟨h.current_live, fun hcur => hne (h.current ▸ hcur.symm)⟩
  separate := by
    have hsub : ({ σ with live := σ.live \ {t} } : System).records ⊆ σ.records :=
      fun x ⟨u, hu, hx⟩ => ⟨u, hu.1, hx⟩
    exact {
      kernelStacks := fun u hu v hv => h.separate.kernelStacks u hu.1 v hv.1
      records := fun u hu => (h.separate.records u hu.1).mono_right hsub
      cpuData := fun u hu => h.separate.cpuData u hu.1
      cpuData_records := fun hmem => h.separate.cpuData_records (hsub hmem)
      slots := fun u hu v hv => h.separate.slots u hu.1 v hv.1
      aligned := fun u hu => h.separate.aligned u hu.1
      room := fun u hu => h.separate.room u hu.1 }
  runs := ⟨h.runs.interruptible, h.runs.userGs, h.runs.kernelGs, h.runs.rsp0, h.runs.cr3⟩
  regs := h.regs
  suspended u hu hcur :=
    have hs := h.suspended u hu.1 hcur
    ⟨hs.frame, hs.cells, hs.interruptible⟩

/-! ### New threads -/

/-- The context that is in 23 words. -/
def Context.ofWords (l : List Word) : Context where
  cr2 := l.getD 0 0
  gpr r := l.getD (contextRegs.idxOf r + 1) 0
  interruptNumber := l.getD 16 0
  errorCode := l.getD 17 0
  rip := l.getD 18 0
  cs := l.getD 19 0
  rflags := l.getD 20 0
  rsp := l.getD 21 0
  ss := l.getD 22 0

theorem frame_ofWords {l : List Word} (h : l.length = contextWords) : (Context.ofWords l).frame = l := by
  refine List.ext_getElem ((frame_length _).trans h.symm) fun i hi hi' => ?_
  rw [frame_length, contextWords] at hi
  rw [← List.getD_eq_getElem _ 0 hi']
  interval_cases i
  all_goals rfl

/-- The registers that a new thread starts with. -/
def NewThread.regs (c : NewThread) (m : Word → Word) : Regs :=
  (Context.ofWords (words (xtCreateThread m c) (firstContext c.kernelStack) contextWords)).regs

theorem firstContext_eq (k : Word) : firstContext k = cell k 2025 := by
  rw [firstContext, cell]
  bv_omega

/-- The first context lies on the kernel stack. -/
theorem firstContext_cell (k : Word) (i : ℕ) : cell (firstContext k) i = cell k (2025 + i) := by
  rw [firstContext_eq, cell_cell]

/-- The fields that `xtSetContext` sets; what it writes first is overwritten where they overlap. -/
theorem xtSetContext_apply (m : Word → Word) (k function arg ret sp ue : Word) (user : Bool) :
    let m' := xtSetContext m k function arg ret sp ue user
    m' (cell (firstContext k) 3) = arg ∧ m' (cell (firstContext k) 18) = function ∧
      m' (cell (firstContext k) 19) = (if user then userCode else kernelCode) ∧
      m' (cell (firstContext k) 20) = 0x202 ∧ m' (cell (firstContext k) 21) = sp ∧
      m' (cell (firstContext k) 22) = (if user then userData else kernelData) := by
  have hne : ∀ i j : ℕ, i < 23 → j < 23 → i ≠ j →
      cell (firstContext k) i ≠ cell (firstContext k) j := by
    intro i j hi hj hij heq
    exact hij ((cell_inj (by omega) (by omega)).mp heq)
  simp only [xtSetContext]
  refine ⟨?_, ?_, ?_, ?_, ?_, ?_⟩
  all_goals simp [hne]

/-- In the region of the kernel stack the record is not written. -/
theorem xtCreateThread_stack {m : Word → Word} {c : NewThread} {x : Word} (h32 : x ≠ c.record + 32)
    (h0 : x ≠ c.record) (h40 : x ≠ c.record + 40) :
    xtCreateThread m c x = xtSetContext m c.kernelStack c.function c.arg c.physStackTop c.stackTop
      c.userExit c.userStack.isSome x := by
  rw [xtCreateThread, Function.update_of_ne h40, Function.update_of_ne h0, Function.update_of_ne h32]

theorem xtCreateThread_record (m : Word → Word) (c : NewThread) :
    xtCreateThread m c c.record = firstContext c.kernelStack ∧
      xtCreateThread m c (c.record + 32) = c.process ∧
      xtCreateThread m c (c.record + 40) = c.kernelStack + 0x4000 := by
  have h40 : c.record ≠ c.record + 40 := by bv_omega
  have h3240 : c.record + 32 ≠ c.record + 40 := by bv_omega
  have h32 : c.record + 32 ≠ c.record := by bv_omega
  refine ⟨?_, ?_, ?_⟩
  · rw [xtCreateThread, Function.update_of_ne h40, Function.update_self]
  · rw [xtCreateThread, Function.update_of_ne h3240, Function.update_of_ne h32, Function.update_self]
  · rw [xtCreateThread, Function.update_self]

variable {c : NewThread}

/-- The record of a new thread is not on its stack. -/
theorem System.Fresh.notMem_stack (h : σ.Fresh B c) {x : Word}
    (hx : x = c.record ∨ x = c.record + 32 ∨ x = c.record + 40) : x ∉ cells c.kernelStack 2048 := by
  have hdisj := h.separate.records c.record (Set.mem_insert _ _)
  have hstack : (σ.create c).stack c.record = cells c.kernelStack 2048 := Function.update_self _ _ _
  rw [hstack] at hdisj
  refine fun hmem => Set.disjoint_left.mp hdisj hmem ⟨c.record, Set.mem_insert _ _, ?_⟩
  obtain hx | hx | hx := hx
  · exact .inl hx
  · exact .inr (.inl hx)
  · exact .inr (.inr (.inl hx))

/-- A word of the first context. -/
theorem System.Fresh.word (h : σ.Fresh B c) {i : ℕ} (hi : i < contextWords) :
    (words (xtCreateThread σ.machine.mem c) (firstContext c.kernelStack) contextWords).getD i 0 =
      xtSetContext σ.machine.mem c.kernelStack c.function c.arg c.physStackTop c.stackTop c.userExit
        c.userStack.isSome (cell (firstContext c.kernelStack) i) := by
  rw [List.getD_eq_getElem _ 0 (by simpa using hi), words_getElem]
  have hmem : cell (firstContext c.kernelStack) i ∈ cells c.kernelStack 2048 := by
    rw [firstContext_cell]
    exact ⟨2025 + i, by rw [contextWords] at hi; omega, rfl⟩
  refine xtCreateThread_stack ?_ ?_ ?_
  · exact fun heq => h.notMem_stack (.inr (.inl heq)) hmem
  · exact fun heq => h.notMem_stack (.inl heq) hmem
  · exact fun heq => h.notMem_stack (.inr (.inr heq)) hmem

/-- **The first context**: the function with its argument, on the thread's stack, with interrupts on, with
    the selectors of its privilege. -/
theorem System.Fresh.firstRegs (h : σ.Fresh B c) :
    let r := c.regs σ.machine.mem
    r.rip = c.function ∧ r.gpr .rcx = c.arg ∧ r.rsp = c.stackTop ∧ r.rflags = 0x202 ∧
      r.cs = (if c.userStack.isSome then userCode else kernelCode) ∧
      r.ss = (if c.userStack.isSome then userData else kernelData) := by
  obtain ⟨h3, h18, h19, h20, h21, h22⟩ := xtSetContext_apply σ.machine.mem c.kernelStack c.function
    c.arg c.physStackTop c.stackTop c.userExit c.userStack.isSome
  dsimp only [NewThread.regs, Context.regs, Context.ofWords]
  rw [show contextRegs.idxOf Reg.rcx + 1 = 3 from rfl, h.word (by decide), h.word (by decide),
    h.word (by decide), h.word (by decide), h.word (by decide), h.word (by decide)]
  exact ⟨h18, h3, h21, h20, h19, h22⟩

/-- Kernel code on the kernel stack of a new thread can be interrupted. -/
theorem frameCells_stackTop {k : Word} (hpages : k.toNat % 4096 = 0) (hsize : k.toNat + 0x4000 < 2 ^ 64) :
    frameCells (align16 (k + 0x4000 - 40)) ⊆ cells k 2048 := by
  have halign : align16 (k + 0x4000 - 40) = cell k 2042 := by
    apply BitVec.eq_of_toNat_eq
    have hadd : (k + 0x4000 - 40).toNat = k.toNat + 16344 := by bv_omega
    have hcell : (cell k 2042).toNat = k.toNat + 16336 := by
      rw [cell]
      bv_omega
    rw [align16, hcell, BitVec.toNat_shiftLeft, BitVec.toNat_ushiftRight, hadd,
      Nat.shiftRight_eq_div_pow, Nat.shiftLeft_eq]
    omega
  have hlow : lowered (cell k 2042) contextWords = cell k 2019 := by
    rw [lowered, contextWords, cell, cell]
    bv_omega
  rw [frameCells, halign, hlow]
  exact cells_cell_subset (by norm_num [contextWords])

/-- What `xtCreateThread` writes. -/
theorem xtCreateThread_changed {m : Word → Word} {x : Word} (h : xtCreateThread m c x ≠ m x) :
    x = c.record ∨ x = c.record + 32 ∨ x = c.record + 40 ∨ x = c.physStackTop ∨
      x ∈ cells c.kernelStack 2048 := by
  by_contra hx
  simp only [not_or] at hx
  obtain ⟨h0, h32, h40, hret, hstack⟩ := hx
  have hne : ∀ i < 23, x ≠ cell (firstContext c.kernelStack) i := by
    rintro i hi rfl
    rw [firstContext_cell] at hstack
    exact hstack ⟨2025 + i, by omega, rfl⟩
  refine h ((xtCreateThread_stack h32 h0 h40).trans ?_)
  simp [xtSetContext, hne, hret]

/-- Memory that the threads use stays. -/
theorem System.Fresh.mem_eq (h : σ.Fresh B c) {x : Word} (hx : ¬ σ.Unused B x) :
    xtCreateThread σ.machine.mem c x = σ.machine.mem x := by
  by_contra hne
  exact hx (h.written x hne)

theorem System.Fresh.sameFields (h : σ.Fresh B c) : SameFields σ (xtCreateThread σ.machine.mem c) :=
  .of_records fun _ hx => h.mem_eq fun hunused => hunused.1 hx

/-- The context of a new thread is on its kernel stack. -/
theorem System.Fresh.suspended (h : σ.Fresh B c) :
    (σ.create c).Suspended c.record (c.regs σ.machine.mem) := by
  have hslot : (σ.create c).machine.mem c.record = firstContext c.kernelStack :=
    (xtCreateThread_record _ _).1
  have hstack : (σ.create c).stack c.record = cells c.kernelStack 2048 := Function.update_self _ _ _
  refine ⟨⟨_, ?_, rfl⟩, ?_, ?_⟩
  · rw [hslot]
    exact (frame_ofWords (words_length _ _ _)).symm
  · rw [hslot, hstack, firstContext_eq]
    exact cells_cell_subset (by norm_num [contextWords])
  · obtain ⟨-, -, hrsp, -, hcs, -⟩ := h.firstRegs
    rw [Interruptible, hcs, hrsp, hstack]
    cases hu : c.userStack with
    | some u => exact .inl rfl
    | none =>
      refine .inr ⟨rfl, ?_⟩
      have htop : c.stackTop = c.kernelStack + 0x4000 - 40 := by rw [NewThread.stackTop, hu]; rfl
      rw [htop]
      exact frameCells_stackTop h.pages h.size

/-- **A new thread** has the registers of its first context. -/
theorem Refines.create (h : Refines B σ α) (hfresh : σ.Fresh B c) :
    Refines B (σ.create c) { α with
      live := insert c.record α.live
      regs := Function.update α.regs c.record (c.regs σ.machine.mem) } := by
  have hlive : α.current ∈ σ.live := h.live ▸ h.current_live
  have hne : ∀ t ∈ σ.live, t ≠ c.record := fun t ht heq => hfresh.record (heq ▸ ht)
  have hcpu : xtCreateThread σ.machine.mem c B.cpuData = σ.machine.mem B.cpuData :=
    hfresh.mem_eq fun hunused => hunused.2.1 rfl
  have hstack : ∀ t ∈ σ.live, (σ.create c).stack t = σ.stack t := fun t ht =>
    Function.update_of_ne (hne t ht) _ _
  have hcell : (σ.create c).machine.tableCell α.current = σ.machine.tableCell α.current :=
    hfresh.sameFields.tableCell (s := (σ.create c).machine) hlive
  refine {
    live := by rw [h.live]; rfl
    current := h.current.trans hcpu.symm
    current_live := Set.mem_insert_of_mem _ h.current_live
    separate := hfresh.separate
    runs := ⟨?_, h.runs.userGs, h.runs.kernelGs, ?_, ?_⟩
    regs := ?_
    suspended := ?_ }
  · have hint := h.runs.interruptible
    rw [Interruptible, ← hstack _ hlive] at hint
    exact hint
  · intro hcs
    refine (h.runs.rsp0 hcs).trans ?_
    exact (hfresh.sameFields _ hlive).2.symm
  · rw [hcell]
    refine h.runs.cr3.trans (hfresh.mem_eq fun hunused => hunused.1 ?_).symm
    exact ⟨_, hlive, .inr (.inr (.inr rfl))⟩
  · dsimp only
    rw [Function.update_of_ne (hne _ hlive)]
    exact h.regs
  · intro t ht hcur
    dsimp only at ht hcur ⊢
    obtain rfl | ht := ht
    · rw [Function.update_self]
      exact hfresh.suspended
    · rw [h.live] at ht
      rw [Function.update_of_ne (hne t ht)]
      have hs := (h.suspended t (h.live ▸ ht) hcur).keep (s := (σ.create c).machine)
        (hfresh.mem_eq fun hunused => hunused.1 ⟨t, ht, .inl rfl⟩)
        (fun x hx => hfresh.mem_eq fun hunused => hunused.2.2 t ht hx)
      refine ⟨hs.frame, ?_, ?_⟩
      · rw [hstack t ht]
        exact hs.cells
      · have hint := hs.interruptible
        rw [Interruptible, ← hstack t ht] at hint
        exact hint

/-! ### Runs -/

/-- What a thread that waits keeps: its registers and its kernel stack. -/
theorem System.Waits.keeps (hwaits : σ.Waits B t σ') (h : Refines B σ α) (ht : t ∈ σ.live) :
    ∃ α', Refines B σ' α' ∧ α'.regs t = α.regs t ∧ σ'.stack t = σ.stack t ∧
      ∀ x ∈ σ.stack t, σ'.machine.mem x = σ.machine.mem x := by
  obtain ⟨hstep, hcur, hlive⟩ := hwaits
  have hne : t ≠ α.current := fun heq => hcur (h.current ▸ heq.symm)
  cases hstep with
  | run hkeeps hcur' hruns =>
    exact ⟨_, h.run hkeeps hcur' hruns, Function.update_of_ne hne _ _, rfl,
      hkeeps.kernelStacks t ht hcur.symm⟩
  | interrupt hint =>
    obtain ⟨⟨next, -, h'⟩, hstack, hmem⟩ := h.interrupt hint
    exact ⟨_, h', rfl, by rw [hstack], hmem t ht hcur.symm⟩
  | @create c hfresh =>
    have hrec : t ≠ c.record := fun heq => hfresh.record (heq ▸ ht)
    exact ⟨_, h.create hfresh, Function.update_of_ne hrec _ _, Function.update_of_ne hrec _ _,
      fun x hx => hfresh.mem_eq fun hunused => hunused.2.2 t ht hx⟩
  | exit hne' => exact ⟨_, h.exit hne', rfl, rfl, fun _ _ => rfl⟩

/-- While a thread waits, its registers and its kernel stack stay. -/
theorem waits_keep (hwait : Relation.ReflTransGen (System.Waits B t) σ σ') (h : Refines B σ α)
    (ht : t ∈ σ.live) :
    t ∈ σ'.live ∧ ∃ α', Refines B σ' α' ∧ α'.regs t = α.regs t ∧ σ'.stack t = σ.stack t ∧
      ∀ x ∈ σ.stack t, σ'.machine.mem x = σ.machine.mem x := by
  induction hwait with
  | refl => exact ⟨ht, α, h, rfl, rfl, fun _ _ => rfl⟩
  | tail _ hwaits ih =>
    obtain ⟨ht₁, α₁, h₁, hregs₁, hstack₁, hmem₁⟩ := ih
    obtain ⟨α₂, h₂, hregs₂, hstack₂, hmem₂⟩ := hwaits.keeps h₁ ht₁
    refine ⟨hwaits.2.2, α₂, h₂, hregs₂.trans hregs₁, hstack₂.trans hstack₁, fun x hx => ?_⟩
    exact (hmem₂ x (hstack₁ ▸ hx)).trans (hmem₁ x hx)

/-- An interrupt gives the processor to a thread with the thread's registers and page table. -/
theorem Refines.turn (h : Refines B σ α) (hint : σ.Interrupted B σ') :
    σ'.machine.regs = α.regs (σ'.current B) ∧
      σ'.machine.cr3 = σ'.machine.mem (σ'.machine.tableCell (σ'.current B)) := by
  obtain ⟨⟨next, -, h'⟩, -⟩ := h.interrupt hint
  have hnext : next = σ'.current B := h'.current
  subst hnext
  exact ⟨h'.regs, h'.runs.cr3⟩

/-- **A new thread** starts at its function, and finds on top of its stack, if it is one of the kernel,
    the function itself as the address to return to. -/
theorem starts_at_function {σ₁ σ₂ : System} (h : Refines B σ α) (hfresh : σ.Fresh B c)
    (hwait : Relation.ReflTransGen (System.Waits B c.record) (σ.create c) σ₁)
    (hturn : σ₁.Interrupted B σ₂) (hfirst : σ₂.current B = c.record) :
    let r := σ₂.machine.regs
    r.rip = c.function ∧ r.gpr .rcx = c.arg ∧ r.rsp = c.stackTop ∧ r.rflags = 0x202 ∧
      r.cs = (if c.userStack.isSome then userCode else kernelCode) ∧
      r.ss = (if c.userStack.isSome then userData else kernelData) ∧
      (c.userStack = none → σ₁.machine.mem r.rsp = c.function) := by
  obtain ⟨-, α₁, h₁, hregs, -, hmem⟩ := waits_keep hwait (h.create hfresh) (Set.mem_insert _ _)
  obtain ⟨hsame, -⟩ := h₁.turn hturn
  dsimp only at hregs
  rw [hfirst, hregs, Function.update_self] at hsame
  obtain ⟨hrip, hrcx, hrsp, hflags, hcs, hss⟩ := hfresh.firstRegs
  intro r
  have hr : r = c.regs σ.machine.mem := hsame
  rw [hr]
  refine ⟨hrip, hrcx, hrsp, hflags, hcs, hss, fun hkernel => ?_⟩
  -- the word for the return address is the one with the address of the function
  have htop : c.stackTop = cell (firstContext c.kernelStack) 18 := by
    rw [NewThread.stackTop, hkernel, firstContext_cell, cell]
    dsimp only [Option.elim_none]
    bv_omega
  have hstack : (σ.create c).stack c.record = cells c.kernelStack 2048 := Function.update_self _ _ _
  have hin : cell (firstContext c.kernelStack) 18 ∈ (σ.create c).stack c.record := by
    rw [hstack, firstContext_cell]
    exact ⟨2043, by norm_num, rfl⟩
  have hword := hfresh.word (i := 18) (by decide)
  rw [List.getD_eq_getElem _ 0 (by rw [words_length]; decide), words_getElem] at hword
  have hcreate : (σ.create c).machine.mem = xtCreateThread σ.machine.mem c := rfl
  rw [hrsp, htop, hmem _ hin, hcreate, hword]
  exact (xtSetContext_apply σ.machine.mem c.kernelStack c.function c.arg c.physStackTop c.stackTop
    c.userExit c.userStack.isSome).2.1

/-! ### The timer -/

/-- `xtExceptionHandler` for the timer, when `xtSchedule` takes `next`. -/
def timerHandler (next : Word) (s : Machine) : Machine :=
  { s with mem := Function.update s.mem s.gsBase next, rsp0 := s.kernelStack next }

/-- **The timer** can give the processor to every thread. -/
theorem Refines.timer (h : Refines B σ α) {next : Word} (hnext : next ∈ σ.live) :
    ∃ σ', σ.Interrupted B σ' ∧ σ'.current B = next ∧ Refines B σ' { α with current := next } := by
  have hn : 32 ∉ istVectors := by decide
  have herr : (none : Option Word).isSome ↔ 32 ∈ errorVectors := by decide
  obtain ⟨hgs, -, -, -, hcells, -⟩ := h.entered hn 0
  have hlive : σ.current B ∈ σ.live := h.current ▸ h.live ▸ h.current_live
  have hhandles : ∀ g flags, let s := { σ.machine.entered 32 (σ.machine.context 32 0) with
      gpr := g, rflags := flags }; Handles B σ s (timerHandler next s) := by
    intro g flags s
    have hs : s.gsBase = B.cpuData := hgs
    have hkeep : ∀ x, x ≠ B.cpuData → (timerHandler next s).mem x = s.mem x := by
      intro x hx
      rw [timerHandler, hs]
      exact Function.update_of_ne hx _ _
    have hcpu : (timerHandler next s).mem B.cpuData = next := by
      rw [timerHandler, hs]
      exact Function.update_self _ _ _
    exact {
      gsBase := rfl
      kernelGsBase := rfl
      records := fun x hx => hkeep x fun heq => h.separate.cpuData_records (heq ▸ hx)
      kernelStacks := fun t ht _ x hx => hkeep x fun heq => h.separate.cpuData t ht (heq ▸ hx)
      context := fun x hx => hkeep x fun heq => h.separate.cpuData _ hlive (heq ▸ hcells hx)
      next := by rw [hcpu]; exact hnext
      rsp0 := by
        rw [hcpu]
        refine (hkeep _ fun heq => h.separate.cpuData_records ?_).symm
        exact heq ▸ ⟨next, hnext, .inr (.inr (.inl rfl))⟩ }
  obtain ⟨g, flags, u, -, hu, h', -⟩ :=
    @Refines.stub B σ α h 32 none hn herr 0 (fun _ => timerHandler next) hhandles
  have hcur : u = next := by
    rw [hu]
    have hs : (σ.machine.entered 32 (σ.machine.context 32 0)).gsBase = B.cpuData := hgs
    dsimp only [timerHandler, Option.getD_none]
    rw [hs]
    exact Function.update_self _ _ _
  subst hcur
  exact ⟨_, ⟨32, none, 0, fun _ => timerHandler u, hn, herr, hhandles, rfl⟩, h'.current.symm, h'⟩

/-! ### Two threads -/

/-- The idle thread runs, alone. -/
def idleSystem : System where
  machine :=
    { gpr := fun _ => 0, rsp := 0x13000, rip := 0, cs := kernelCode, rflags := 0x202, ss := kernelData
      cr2 := 0, cr3 := 0, gsBase := 0x800, kernelGsBase := 0, rsp0 := 0, ist := 0
      mem := fun x => if x = 0x800 then 0x1000 else if x = 0x1028 then 0x14000 else 0 }
  live := {0x1000}
  stack _ := cells 0x10000 2048

/-- A second thread of the kernel. -/
def secondThread : NewThread := ⟨0x2000, 0, 0x20000, 0x5000, 7, 0, none⟩

/-- The addresses of a kernel stack. -/
theorem stack_bound {k x : Word} (hk : k.toNat + 0x4000 ≤ 2 ^ 64) (hx : x ∈ cells k 2048) :
    k.toNat ≤ x.toNat ∧ x.toNat < k.toNat + 0x4000 :=
  cells_bound (by omega) hx

/-- Frames inside a kernel stack. -/
theorem frameCells_subset {k top : Word} {i : ℕ} (htop : lowered top contextWords = cell k i)
    (hi : i ≤ 2025) : frameCells top ⊆ cells k 2048 := by
  rw [frameCells, htop]
  exact cells_cell_subset (by rw [contextWords]; omega)

theorem idleSystem_refines :
    Refines ⟨0x800, 0⟩ idleSystem ⟨{0x1000}, 0x1000, fun _ => idleSystem.machine.regs⟩ := by
  have hrecords : ∀ x ∈ idleSystem.records, x.toNat < 0x10000 ∧ x ≠ 0x800 := by
    rintro x ⟨t, rfl, rfl | rfl | rfl | rfl⟩
    all_goals decide
  refine ⟨rfl, rfl, rfl, ?_, ?_, rfl, ?_⟩
  · refine ⟨?_, ?_, ?_, ?_, ?_, ?_, ?_⟩
    · rintro t rfl u rfl hne
      exact absurd rfl hne
    · intro t _
      refine Set.disjoint_left.mpr fun x hx hrec => ?_
      have hlow := (stack_bound (by decide) hx).1
      exact absurd (hrecords x hrec).1 (Nat.not_lt.mpr hlow)
    · intro t _ hmem
      exact absurd (stack_bound (by decide) hmem).1 (by decide)
    · exact fun hmem => (hrecords _ hmem).2 rfl
    · rintro t rfl u rfl
      decide
    · rintro t rfl
      decide
    · rintro t rfl
      exact frameCells_subset (i := 2025) rfl le_rfl
  · refine ⟨.inr ⟨rfl, frameCells_subset (i := 1513) (by decide) (by decide)⟩, fun h => absurd h (by decide), fun _ => ⟨rfl, rfl⟩,
      fun h => absurd h (by decide), rfl⟩
  · rintro t rfl hne
    exact absurd rfl hne

theorem secondThread_fresh : idleSystem.Fresh ⟨0x800, 0⟩ secondThread := by
  have hrecords : ∀ x ∈ (idleSystem.create secondThread).records, x.toNat < 0x10000 ∧ x ≠ 0x800 := by
    rintro x ⟨t, rfl | rfl, rfl | rfl | rfl | rfl⟩
    all_goals decide +kernel
  have hold : ∀ x ∈ idleSystem.records, x.toNat < 0x1030 := by
    rintro x ⟨t, rfl, rfl | rfl | rfl | rfl⟩
    all_goals decide
  have hstack : ∀ t ∈ (idleSystem.create secondThread).live, ∀ x,
      x ∈ (idleSystem.create secondThread).stack t →
      if t = 0x2000 then 0x20000 ≤ x.toNat ∧ x.toNat < 0x24000
      else 0x10000 ≤ x.toNat ∧ x.toNat < 0x14000 := by
    rintro t (rfl | rfl) x hx
    · exact stack_bound (k := 0x20000) (by decide) hx
    · exact stack_bound (k := 0x10000) (by decide) hx
  refine ⟨fun h => absurd h (by decide : (0x2000 : Word) ≠ 0x1000), fun x hx => ?_, ?_, rfl, by decide⟩
  · have hnew : 0x2000 ≤ x.toNat ∧ x.toNat < 0x2030 ∨ 0x20000 ≤ x.toNat := by
      obtain rfl | rfl | rfl | rfl | hx := xtCreateThread_changed hx
      · decide
      · decide
      · decide
      · decide
      · exact .inr (stack_bound (k := 0x20000) (by decide) hx).1
    refine ⟨fun hmem => ?_, ?_, fun t _ hmem => ?_⟩
    · have hlow := hold x hmem
      omega
    · rintro rfl
      exact absurd hnew (by decide)
    · obtain ⟨hlow, hhigh⟩ := stack_bound (k := 0x10000) (by decide) hmem
      have h1 : (0x10000 : Word).toNat = 0x10000 := rfl
      omega
  · refine ⟨fun t ht u hu hne => ?_, fun t ht => ?_, fun t ht hmem => ?_, fun hmem => ?_, ?_, ?_, ?_⟩
    · refine Set.disjoint_left.mpr fun x hx hx' => ?_
      have h1 := hstack t ht x hx
      have h2 := hstack u hu x hx'
      obtain rfl | rfl := ht
      · obtain rfl | rfl := hu
        · exact hne rfl
        · rw [if_pos (show secondThread.record = 0x2000 from rfl)] at h1
          rw [if_neg (by decide)] at h2
          omega
      · obtain rfl | rfl := hu
        · rw [if_neg (by decide)] at h1
          rw [if_pos (show secondThread.record = 0x2000 from rfl)] at h2
          omega
        · exact hne rfl
    · refine Set.disjoint_left.mpr fun x hx hrec => ?_
      have h1 := hstack t ht x hx
      have h2 := (hrecords x hrec).1
      split_ifs at h1
      · omega
      · omega
    · have h1 := hstack t ht _ hmem
      split_ifs at h1
      · exact absurd h1.1 (by decide)
      · exact absurd h1.1 (by decide)
    · exact (hrecords _ hmem).2 rfl
    · rintro t (rfl | rfl) u (rfl | rfl)
      all_goals decide +kernel
    · rintro t (rfl | rfl)
      all_goals decide +kernel
    · rintro t (rfl | rfl)
      · exact frameCells_subset (k := 0x20000) (i := 2025) (by decide +kernel) le_rfl
      · exact frameCells_subset (k := 0x10000) (i := 2025) (by decide +kernel) le_rfl

/-- The second thread starts. -/
theorem secondThread_starts :
    ∃ σ, (idleSystem.create secondThread).Interrupted ⟨0x800, 0⟩ σ ∧
      σ.machine.regs.rip = 0x5000 ∧ σ.machine.regs.gpr .rcx = 7 := by
  have hcreated := idleSystem_refines.create secondThread_fresh
  obtain ⟨σ, hint, hcur, -⟩ := hcreated.timer (Set.mem_insert (0x2000 : Word) _)
  obtain ⟨hrip, hrcx, -⟩ := starts_at_function idleSystem_refines secondThread_fresh .refl hint hcur
  exact ⟨σ, hint, hrip, hrcx⟩

end XTOS.Arch

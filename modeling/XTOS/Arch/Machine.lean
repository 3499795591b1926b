import XTOS.Lib.WordStack

/-!
# The processor in the interrupt stubs

The macros `isr_err_stub` and `isr_no_err_stub` and the routines `xtSwitchTo` and `xtSyscallHandler` of
`xtkernel/arch/x86_64/switchContext.asm`, as lists of instructions, with what the processor does in front
of a stub.

## Main definitions

- `Machine` — the registers, the task state segment and the memory
- `Instr`, `exec` — the instructions of the file and how they are executed
- `isrErrStub`, `isrNoErrStub`, `xtSwitchTo`, `xtSyscallHandler` — the code
- `Machine.interrupt` — the words that the processor pushes and where it pushes them
- `Context`, `Context.frame` — `XTContext`

## Main results

- `exec_isrStub` — the frame that a stub leaves for the handler and what it loads after it

## Design notes

All accesses of this code are to whole words below an aligned stack pointer and to words of records, so
memory is a function from addresses to words. Of the flags only the zero flag of a comparison is tested;
the other ones stay as they are in arithmetic. A label directly behind the next instruction is all that a
jump of the file needs. Functions in C are an input: `calls` says what the code at an address does.
-/

namespace XTOS.Arch

open SysLib

/-- A 64-bit word. -/
abbrev Word := BitVec 64

/-- The general purpose registers but for `rsp`. -/
inductive Reg
  | rax | rbx | rcx | rdx | rbp | rsi | rdi | r8 | r9 | r10 | r11 | r12 | r13 | r14 | r15
  deriving DecidableEq, Repr

/-- The processor, `tss.rsp0` and `tss.IST[0]`, and the memory. -/
@[ext] structure Machine where
  gpr : Reg → Word
  rsp : Word
  rip : Word
  cs : Word
  rflags : Word
  ss : Word
  cr2 : Word
  cr3 : Word
  gsBase : Word
  kernelGsBase : Word
  rsp0 : Word
  ist : Word
  mem : Word → Word

/-- The instructions of the file. -/
inductive Instr
  /-- `push r` -/
  | push (r : Reg)
  /-- `push qword n` -/
  | pushImm (n : ℕ)
  /-- `pop r` -/
  | pop (r : Reg)
  /-- `mov d, s` -/
  | mov (d s : Reg)
  /-- `mov r, n` -/
  | movImm (r : Reg) (n : ℕ)
  /-- `mov r, rsp` -/
  | copyRsp (r : Reg)
  /-- `mov rsp, r` -/
  | setRsp (r : Reg)
  /-- `mov [r], rsp` -/
  | storeRsp (r : Reg)
  /-- `mov rsp, [r+off]` -/
  | loadRsp (r : Reg) (off : ℕ)
  /-- `mov r, [gs:0]` -/
  | loadGs (r : Reg)
  /-- `mov d, [b+off]` -/
  | load (d b : Reg) (off : ℕ)
  /-- `mov [rsp+off], r` -/
  | storeStack (off : ℕ) (r : Reg)
  /-- `mov r, cr2` -/
  | readCr2 (r : Reg)
  /-- `mov r, cr3` -/
  | readCr3 (r : Reg)
  /-- `mov cr3, r` -/
  | writeCr3 (r : Reg)
  /-- `mov ax, cs`, for the 16-bit part of `r` -/
  | readCs (r : Reg)
  /-- `lea r, [rel a]` -/
  | lea (r : Reg) (a : Word)
  /-- `xor r, r` -/
  | clear (r : Reg)
  /-- `sub rsp, n` -/
  | subRsp (n : ℕ)
  /-- `add rsp, n` -/
  | addRsp (n : ℕ)
  /-- `cmp word [rsp + off], n` -/
  | cmpStack (off n : ℕ)
  /-- `jne` to the label behind the next instruction -/
  | jne
  | swapgs
  | sti
  | cli
  /-- `call a` -/
  | call (a : Word)
  /-- `call [b+i*8]` -/
  | callTable (b i : Reg)
  | iretq
  | sysret
  | ret

/-- Set a register. -/
@[simps -fullyApplied] def Machine.set (s : Machine) (r : Reg) (v : Word) : Machine :=
  { s with gpr := Function.update s.gpr r v }

/-- Push values, the first one first. -/
@[simps -fullyApplied] def Machine.pushes (s : Machine) (l : List Word) : Machine :=
  { s with rsp := lowered s.rsp l.length, mem := pushWords s.mem s.rsp l }

/-- `IF` of `rflags`. -/
def interruptFlag : Word := 0x200

/-- `ZF` of `rflags`. -/
def zeroFlag : Word := 0x40

/-- The selectors of user code and user data, of kernel code and kernel data. -/
def userCode : Word := 0x2b
def userData : Word := 0x23
def kernelCode : Word := 0x08
def kernelData : Word := 0x10

/-- The bits that `sysret` takes from `r11`. -/
def sysretFlags : Word := 0x3c7fd7

/-- The 16-bit part of a word. -/
def lowWord (w : Word) : Word := w &&& 0xffff

/-- One instruction; the jump is up to `exec`. -/
def step (calls : Word → Machine → Machine) (s : Machine) : Instr → Machine
  | .push r => s.pushes [s.gpr r]
  | .pushImm n => s.pushes [BitVec.ofNat 64 n]
  | .pop r => { s.set r (s.mem s.rsp) with rsp := cell s.rsp 1 }
  | .mov d b => s.set d (s.gpr b)
  | .movImm r n => s.set r (BitVec.ofNat 64 n)
  | .copyRsp r => s.set r s.rsp
  | .setRsp r => { s with rsp := s.gpr r }
  | .storeRsp r => { s with mem := Function.update s.mem (s.gpr r) s.rsp }
  | .loadRsp r off => { s with rsp := s.mem (s.gpr r + BitVec.ofNat 64 off) }
  | .loadGs r => s.set r (s.mem s.gsBase)
  | .load d b off => s.set d (s.mem (s.gpr b + BitVec.ofNat 64 off))
  | .storeStack off r =>
    { s with mem := Function.update s.mem (s.rsp + BitVec.ofNat 64 off) (s.gpr r) }
  | .readCr2 r => s.set r s.cr2
  | .readCr3 r => s.set r s.cr3
  | .writeCr3 r => { s with cr3 := s.gpr r }
  | .readCs r => s.set r ((s.gpr r >>> 16) <<< 16 ||| lowWord s.cs)
  | .lea r a => s.set r a
  | .clear r => s.set r 0
  | .subRsp n => { s with rsp := s.rsp - BitVec.ofNat 64 n }
  | .addRsp n => { s with rsp := s.rsp + BitVec.ofNat 64 n }
  | .cmpStack off n =>
    { s with
      rflags := if lowWord (s.mem (s.rsp + BitVec.ofNat 64 off)) = BitVec.ofNat 64 n
        then s.rflags ||| zeroFlag else s.rflags &&& ~~~zeroFlag }
  | .jne => s
  | .swapgs => { s with gsBase := s.kernelGsBase, kernelGsBase := s.gsBase }
  | .sti => { s with rflags := s.rflags ||| interruptFlag }
  | .cli => { s with rflags := s.rflags &&& ~~~interruptFlag }
  | .call a => calls a s
  | .callTable b i => calls (s.mem (cell (s.gpr b) (s.gpr i).toNat)) s
  | .iretq =>
    { s with
      rip := s.mem (cell s.rsp 0), cs := s.mem (cell s.rsp 1), rflags := s.mem (cell s.rsp 2)
      rsp := s.mem (cell s.rsp 3), ss := s.mem (cell s.rsp 4) }
  | .sysret =>
    { s with
      rip := s.gpr .rcx, rflags := s.gpr .r11 &&& sysretFlags ||| 2
      cs := userCode, ss := userData }
  | .ret => { s with rip := s.mem s.rsp, rsp := cell s.rsp 1 }

/-- Execute code to its end. -/
def exec (calls : Word → Machine → Machine) : List Instr → Machine → Machine
  | [], s => s
  | .jne :: i :: code, s =>
    if s.rflags &&& zeroFlag = 0 then exec calls code s else exec calls code (step calls s i)
  | i :: code, s => exec calls code (step calls s i)

/-! ### The code -/

/-- The registers of `XTContext`, in its order. -/
def contextRegs : List Reg :=
  [.rax, .rbx, .rcx, .rdx, .rbp, .rsi, .rdi, .r8, .r9, .r10, .r11, .r12, .r13, .r14, .r15]

/-- The test for user code at the start of a stub, and the number of the interrupt. -/
def enterStub (n : ℕ) : List Instr := [.cmpStack 16 0x2b, .jne, .swapgs, .pushImm n]

/-- The rest of a stub in front of the call. -/
def saveContext : List Instr :=
  [.push .r15, .push .r14, .push .r13, .push .r12, .push .r11, .push .r10, .push .r9, .push .r8,
    .push .rdi, .push .rsi, .push .rbp, .push .rdx, .push .rcx, .push .rbx, .push .rax,
    .readCr2 .rax, .push .rax, .loadGs .rax, .storeRsp .rax, .readCr3 .rcx, .load .rax .rax 32,
    .load .rcx .rax 8, .subRsp 40]

/-- The stack and the page table of the thread that goes on. -/
def loadThread : List Instr :=
  [.loadGs .rax, .loadRsp .rax 0, .load .rax .rax 32, .load .rax .rax 8, .writeCr3 .rax]

/-- The end of a stub. -/
def restoreContext : List Instr :=
  [.pop .rax, .pop .rax, .pop .rbx, .pop .rcx, .pop .rdx, .pop .rbp, .pop .rsi, .pop .rdi,
    .pop .r8, .pop .r9, .pop .r10, .pop .r11, .pop .r12, .pop .r13, .pop .r14, .pop .r15,
    .addRsp 16, .cmpStack 8 0x2b, .jne, .swapgs, .iretq]

/-- `isr_err_stub`; the processor has pushed an error code. -/
def isrErrStub (xtExceptionHandler : Word) (n : ℕ) : List Instr :=
  enterStub n ++ saveContext ++ [.call xtExceptionHandler, .addRsp 40] ++ loadThread ++
    [.readCs .rax] ++ restoreContext

/-- `isr_no_err_stub`. -/
def isrNoErrStub (xtExceptionHandler : Word) (n : ℕ) : List Instr :=
  .pushImm 0 :: enterStub n ++ saveContext ++ [.call xtExceptionHandler, .addRsp 40] ++ loadThread ++
    restoreContext

/-- `xtSwitchTo`. -/
def xtSwitchTo : List Instr := loadThread ++ restoreContext

/-- `xtSyscallHandler` in front of the call. -/
def enterSyscall (xtSyscallArray : Word) : List Instr :=
  [.swapgs, .loadGs .r12, .copyRsp .r13, .loadRsp .r12 40, .push .rcx, .push .r11, .push .r13, .sti,
    .mov .rcx .r10, .lea .r10 xtSyscallArray, .subRsp 40, .storeStack 32 .r13]

/-- `xtSyscallHandler` after the call. -/
def leaveSyscall : List Instr :=
  [.addRsp 40, .cli, .pop .r13, .pop .r11, .pop .rcx, .clear .r12, .setRsp .r13, .clear .r13, .swapgs,
    .sysret]

/-- `xtSyscallHandler`. -/
def xtSyscallHandler (xtSyscallArray : Word) : List Instr :=
  enterSyscall xtSyscallArray ++ .callTable .r10 .rax :: leaveSyscall

/-- The vectors with an `isr_err_stub`. -/
def errorVectors : List ℕ := [8, 10, 11, 12, 13, 14, 17, 30]

/-- The stub of a vector. -/
def isrStub (xtExceptionHandler : Word) (n : ℕ) : List Instr :=
  if n ∈ errorVectors then isrErrStub xtExceptionHandler n else isrNoErrStub xtExceptionHandler n

/-! ### Interrupts -/

/-- `XTContext`. -/
structure Context where
  cr2 : Word
  gpr : Reg → Word
  interruptNumber : Word
  errorCode : Word
  rip : Word
  cs : Word
  rflags : Word
  rsp : Word
  ss : Word

/-- The words of a context. -/
def Context.frame (c : Context) : List Word :=
  c.cr2 :: contextRegs.map c.gpr ++
    [c.interruptNumber, c.errorCode, c.rip, c.cs, c.rflags, c.rsp, c.ss]

/-- `sizeof(XTContext) / 8`. -/
def contextWords : ℕ := 23

/-- The flags that an interrupt gate clears. -/
def gateFlags : Word := 0x14300

/-- The vectors that `xtSetIRQs` gives a stack of their own. -/
def istVectors : List ℕ := [8, 13]

/-- The code that runs has the privilege of user code. -/
def Machine.inUser (s : Machine) : Bool := s.cs &&& 3 == 3

/-- The multiple of 16 at or below an address. -/
def align16 (w : Word) : Word := w >>> 4 <<< 4

/-- The end of the stack that the processor takes for an interrupt. -/
def Machine.interruptTop (s : Machine) (n : ℕ) : Word :=
  align16 (if n ∈ istVectors then s.ist else if s.inUser then s.rsp0 else s.rsp)

/-- The processor when a stub starts, but for the words on the stack. -/
def Machine.gated (s : Machine) (n : ℕ) : Machine :=
  { s with
    rsp := s.interruptTop n, cs := kernelCode, ss := if s.inUser then 0 else s.ss
    rflags := s.rflags &&& ~~~gateFlags }

/-- An interrupt, up to the first instruction of its stub. -/
def Machine.interrupt (s : Machine) (n : ℕ) (errorCode : Option Word) : Machine :=
  (s.gated n).pushes ([s.ss, s.rsp, s.rflags, s.cs, s.rip] ++ errorCode.toList)

/-- What a stub saves of the code that it interrupts. -/
def Machine.context (s : Machine) (n : ℕ) (errorCode : Word) : Context :=
  ⟨s.cr2, s.gpr, BitVec.ofNat 64 n, errorCode, s.rip, s.cs, s.rflags, s.rsp, s.ss⟩

/-- The `swapgs` of a stub, for a context that is one of user code. -/
@[simps -fullyApplied] def Machine.swapFor (s : Machine) (cs : Word) : Machine :=
  { s with
    gsBase := if lowWord cs = userCode then s.kernelGsBase else s.gsBase
    kernelGsBase := if lowWord cs = userCode then s.gsBase else s.kernelGsBase }

variable {calls : Word → Machine → Machine} {code : List Instr} {s : Machine}

/-! ### Blocks of code -/

theorem exec_nil (calls : Word → Machine → Machine) (s : Machine) : exec calls [] s = s := rfl

theorem exec_cons {i : Instr} (h : i ≠ .jne) (s : Machine) :
    exec calls (i :: code) s = exec calls code (step calls s i) :=
  exec.eq_3 calls s i code fun _ _ hj _ => h hj

theorem pushes_pushes (s : Machine) (l l' : List Word) :
    (s.pushes l).pushes l' = s.pushes (l ++ l') := by
  simp only [Machine.pushes, lowered_lowered, List.length_append, pushWords_append]

/-- The values of registers that are pushed in a row. -/
theorem exec_push (rs : List Reg) (s : Machine) :
    exec calls (rs.map .push ++ code) s = exec calls code (s.pushes (rs.map s.gpr)) := by
  induction rs generalizing s with
  | nil =>
    rw [List.map_nil, List.map_nil, List.nil_append, Machine.pushes, List.length_nil, lowered_zero,
      pushWords]
  | cons r rs ih =>
    rw [List.map_cons, List.cons_append, exec_cons (by simp), step, ih, pushes_pushes]
    rfl

/-- Registers that get the values of a list one after the other. -/
def assign (g : Reg → Word) : List Reg → List Word → Reg → Word
  | r :: rs, v :: vs => assign (Function.update g r v) rs vs
  | _, _ => g

theorem assign_map (g f : Reg → Word) (rs : List Reg) (r : Reg) :
    assign g rs (rs.map f) r = if r ∈ rs then f r else g r := by
  induction rs generalizing g with
  | nil => rfl
  | cons x rs ih =>
    rw [List.map_cons, assign, ih]
    by_cases hr : r ∈ rs
    · rw [if_pos hr, if_pos (List.mem_cons_of_mem x hr)]
    · rw [if_neg hr]
      by_cases hx : r = x
      · subst hx
        rw [Function.update_self, if_pos List.mem_cons_self]
      · rw [Function.update_of_ne hx, if_neg (by simp [hx, hr])]

/-- Registers that are popped in a row. -/
theorem exec_pop (rs : List Reg) (s : Machine) :
    exec calls (rs.map .pop ++ code) s =
      exec calls code { s with
        gpr := assign s.gpr rs (words s.mem s.rsp rs.length), rsp := cell s.rsp rs.length } := by
  induction rs generalizing s with
  | nil =>
    rw [List.map_nil, List.nil_append, List.length_nil, cell_zero]
    rfl
  | cons r rs ih =>
    rw [List.map_cons, List.cons_append, exec_cons (by simp), step, ih, List.length_cons, words_succ,
      assign]
    simp only [Machine.set, cell_cell, Nat.add_comm 1]

/-! ### Stubs -/

/-- The words that a stub has pushed, and the place where the thread keeps their address. -/
def Machine.framed (s : Machine) (l : List Word) : Word → Word :=
  let m := pushWords s.mem s.rsp l
  Function.update m (m s.gsBase) (lowered s.rsp l.length)

/-- In front of the call the whole context is on the stack, and the thread knows where. -/
theorem exec_saveContext (s : Machine) :
    ∃ g, exec calls (saveContext ++ code) s = exec calls code { s with
      gpr := g
      rsp := lowered s.rsp 16 - 40
      mem := s.framed ((contextRegs.map s.gpr).reverse ++ [s.cr2]) } := by
  have hpush : saveContext ++ code = contextRegs.reverse.map .push ++
      (.readCr2 .rax :: .push .rax :: .loadGs .rax :: .storeRsp .rax :: .readCr3 .rcx ::
        .load .rax .rax 32 :: .load .rcx .rax 8 :: .subRsp 40 :: code) := rfl
  have hlen : (contextRegs.map s.gpr).reverse.length = 15 := rfl
  rw [hpush, exec_push, List.map_reverse]
  simp only [exec, step]
  refine ⟨_, congrArg _ (Machine.ext rfl ?_ ?_ ?_ ?_ ?_ ?_ ?_ ?_ ?_ ?_ ?_ ?_)⟩
  all_goals simp [Machine.framed, pushWords_append, lowered_lowered, hlen]

/-- The comparison and the jump behind it. -/
theorem exec_swapgs (off : ℕ) (s : Machine) :
    ∃ flags, exec calls (.cmpStack off 0x2b :: .jne :: .swapgs :: code) s = exec calls code
      { s.swapFor (s.mem (s.rsp + BitVec.ofNat 64 off)) with rflags := flags } := by
  simp only [exec, step]
  by_cases hcs : lowWord (s.mem (s.rsp + BitVec.ofNat 64 off)) = userCode
  · have hset : (s.rflags ||| zeroFlag) &&& zeroFlag ≠ 0 := by
      intro h
      have hbit := congrArg (BitVec.getLsbD · 6) h
      simp [zeroFlag] at hbit
    simp only [show BitVec.ofNat 64 0x2b = userCode from rfl, if_pos hcs, if_neg hset]
    refine ⟨s.rflags ||| zeroFlag, congrArg _ ?_⟩
    apply Machine.ext
    all_goals simp [hcs]
  · have hclear : (s.rflags &&& ~~~zeroFlag) &&& zeroFlag = 0 := by
      rw [BitVec.and_assoc, BitVec.and_comm (~~~zeroFlag), BitVec.and_not_self]
      exact BitVec.and_zero
    simp only [show BitVec.ofNat 64 0x2b = userCode from rfl, if_neg hcs, if_pos hclear]
    refine ⟨s.rflags &&& ~~~zeroFlag, congrArg _ ?_⟩
    apply Machine.ext
    all_goals simp [hcs]

theorem exec_loadThread (s : Machine) :
    ∃ g, exec calls (loadThread ++ code) s = exec calls code { s with
      gpr := g
      rsp := s.mem (s.mem s.gsBase)
      cr3 := s.mem (s.mem (s.mem s.gsBase + 32) + 8) } := by
  simp only [loadThread, List.cons_append, List.nil_append, exec, step]
  refine ⟨_, congrArg _ (Machine.ext rfl ?_ ?_ ?_ ?_ ?_ ?_ ?_ ?_ ?_ ?_ ?_ ?_)⟩
  all_goals simp

theorem mem_contextRegs (r : Reg) : r ∈ contextRegs := by
  cases r <;> decide

/-- **The end of a stub** loads the whole context that the stack pointer is at. -/
theorem exec_restoreContext {c : Context} (h : words s.mem s.rsp contextWords = c.frame) :
    exec calls restoreContext s = { s.swapFor c.cs with
      gpr := c.gpr, rsp := c.rsp, rip := c.rip, cs := c.cs, rflags := c.rflags, ss := c.ss } := by
  have hword : ∀ i (hi : i < contextWords), s.mem (cell s.rsp i) = c.frame.get ⟨i, hi⟩ := by
    intro i hi
    have hget := words_getElem (m := s.mem) (a := s.rsp) (n := contextWords) (i := i) (by simpa)
    rw [← hget]
    exact List.getElem_of_eq h _
  have hpop : restoreContext = (Reg.rax :: contextRegs).map .pop ++
      [.addRsp 16, .cmpStack 8 0x2b, .jne, .swapgs, .iretq] := rfl
  have htake : words s.mem s.rsp 16 = c.cr2 :: contextRegs.map c.gpr := by
    rw [← words_take s.mem s.rsp (by decide : 16 ≤ contextWords), h]
    rfl
  have hgpr : assign s.gpr (.rax :: contextRegs) (c.cr2 :: contextRegs.map c.gpr) = c.gpr := by
    funext r
    rw [assign, assign_map, if_pos (mem_contextRegs r)]
  rw [hpop, exec_pop, show (Reg.rax :: contextRegs).length = 16 from rfl, htake, hgpr]
  -- behind the registers are the number and the error code, then what `iretq` takes
  have hrsp : cell s.rsp 16 + BitVec.ofNat 64 16 = cell s.rsp 18 := cell_cell s.rsp 16 2
  rw [exec_cons (by simp), step, hrsp]
  obtain ⟨flags, hswap⟩ := @exec_swapgs calls [.iretq] 8
    { s with gpr := c.gpr, rsp := cell s.rsp 18 }
  have hcs : s.mem (cell s.rsp 18 + BitVec.ofNat 64 8) = c.cs :=
    (congrArg s.mem (cell_cell s.rsp 18 1)).trans (hword 19 (by decide))
  rw [hswap, exec_cons (by simp), exec_nil, step]
  dsimp only [Machine.swapFor]
  simp only [hcs, cell_cell]
  rw [hword 18 (by decide), hword 19 (by decide), hword 20 (by decide), hword 21 (by decide),
    hword 22 (by decide)]
  rfl

/-- The words of a block that was pushed. -/
theorem pushes_mem_cell {l : List Word} {i : ℕ} (hi : i < l.length) (hlen : l.length < 2 ^ 61) :
    (s.pushes l).mem (cell (s.pushes l).rsp i) = l.reverse.get ⟨i, by simpa using hi⟩ := by
  have hget := words_getElem (m := (s.pushes l).mem) (a := (s.pushes l).rsp) (n := l.length) (i := i)
    (by simpa using hi)
  rw [← hget]
  exact List.getElem_of_eq (words_pushWords hlen) _

theorem swapFor_pushes (s : Machine) (cs flags : Word) (l : List Word) :
    { (s.pushes l).swapFor cs with rflags := flags } =
      ({ s.swapFor cs with rflags := flags } : Machine).pushes l := rfl

/-- The start of a stub: the processor's words are on the stack. -/
theorem exec_enterStub (n : ℕ) (s : Machine) (c : Context) :
    ∃ flags, exec calls (enterStub n ++ code)
        (s.pushes [c.ss, c.rsp, c.rflags, c.cs, c.rip, c.errorCode]) =
      exec calls code (({ s.swapFor c.cs with rflags := flags } : Machine).pushes
        [c.ss, c.rsp, c.rflags, c.cs, c.rip, c.errorCode, BitVec.ofNat 64 n]) := by
  obtain ⟨flags, hswap⟩ := @exec_swapgs calls (.pushImm n :: code) 16
    (s.pushes [c.ss, c.rsp, c.rflags, c.cs, c.rip, c.errorCode])
  have hcs : (s.pushes [c.ss, c.rsp, c.rflags, c.cs, c.rip, c.errorCode]).mem
      ((s.pushes [c.ss, c.rsp, c.rflags, c.cs, c.rip, c.errorCode]).rsp + BitVec.ofNat 64 16) = c.cs :=
    pushes_mem_cell (i := 2) (by simp) (by simp)
  refine ⟨flags, ?_⟩
  have hcode : enterStub n ++ code =
    .cmpStack 16 0x2b :: .jne :: .swapgs :: .pushImm n :: code := rfl
  rw [hcode, hswap, hcs, swapFor_pushes, exec_cons (by simp), step, pushes_pushes]
  rfl

/-- The state in which a stub calls the handler, but for registers that the kernel may use. -/
def Machine.entered (s : Machine) (n : ℕ) (c : Context) : Machine :=
  let b := (s.gated n).swapFor c.cs
  { b with
    rsp := lowered b.rsp contextWords - 40
    mem := b.framed c.frame.reverse }

/-- The state after the end of a stub, when `c` is the context of the thread that goes on. -/
def Machine.resumed (s : Machine) (c : Context) : Machine :=
  { s.swapFor c.cs with
    gpr := c.gpr, rsp := c.rsp, rip := c.rip, cs := c.cs, rflags := c.rflags, ss := c.ss
    cr3 := s.mem (s.mem (s.mem s.gsBase + 32) + 8) }

/-- What the end of the code makes of a context. -/
theorem exec_resume {c : Context} {mid : List Instr} (hmid : mid = [] ∨ mid = [.readCs .rax])
    (h : words s.mem (s.mem (s.mem s.gsBase)) contextWords = c.frame) :
    exec calls (loadThread ++ mid ++ restoreContext) s = s.resumed c := by
  rw [List.append_assoc]
  obtain ⟨g, hload⟩ := @exec_loadThread calls (mid ++ restoreContext) s
  rw [hload]
  obtain rfl | rfl := hmid
  · rw [List.nil_append, exec_restoreContext h]
    rfl
  · rw [List.singleton_append, exec_cons (by simp), step, exec_restoreContext h]
    rfl

theorem framed_pushes (s : Machine) (l l' : List Word) :
    (s.pushes l).framed l' = s.framed (l ++ l') := by
  rw [Machine.framed, Machine.framed, pushWords_append, List.length_append, ← lowered_lowered]
  rfl

/-- The words that the processor and the stub push are a context. -/
theorem entered_eq (s : Machine) (n : ℕ) (c : Context) (g : Reg → Word) (flags : Word) :
    let b := ({ (s.gated n).swapFor c.cs with rflags := flags } : Machine).pushes
      [c.ss, c.rsp, c.rflags, c.cs, c.rip, c.errorCode, c.interruptNumber]
    ({ b with
      gpr := g
      rsp := lowered b.rsp 16 - 40
      mem := b.framed ((contextRegs.map c.gpr).reverse ++ [c.cr2]) } : Machine) =
      { s.entered n c with gpr := g, rflags := flags } := by
  intro b
  apply Machine.ext
  case rsp => exact congrArg (· - 40) (lowered_lowered _ 7 16)
  case mem => exact framed_pushes _ _ _
  all_goals rfl

/-- Both macros from the point on where the error code is on the stack. -/
theorem exec_stub {n : ℕ} {mid : List Instr} (hmid : mid = [] ∨ mid = [.readCs .rax])
    (xtExceptionHandler : Word) (s : Machine) (errorCode : Word) :
    ∃ g flags, ∀ s₂ c,
      calls xtExceptionHandler { s.entered n (s.context n errorCode) with
        gpr := g, rflags := flags } = s₂ →
      words s₂.mem (s₂.mem (s₂.mem s₂.gsBase)) contextWords = c.frame →
      exec calls (enterStub n ++ saveContext ++ [.call xtExceptionHandler, .addRsp 40] ++ loadThread ++
        mid ++ restoreContext)
        ((s.gated n).pushes [s.ss, s.rsp, s.rflags, s.cs, s.rip, errorCode]) = s₂.resumed c := by
  simp only [List.append_assoc]
  obtain ⟨flags, henter⟩ := @exec_enterStub calls
    (saveContext ++ ([.call xtExceptionHandler, .addRsp 40] ++ (loadThread ++
      (mid ++ restoreContext)))) n (s.gated n) (s.context n errorCode)
  obtain ⟨g, hsave⟩ := @exec_saveContext calls
    ([.call xtExceptionHandler, .addRsp 40] ++ (loadThread ++ (mid ++ restoreContext)))
    (({ (s.gated n).swapFor s.cs with rflags := flags } : Machine).pushes
      [s.ss, s.rsp, s.rflags, s.cs, s.rip, errorCode, BitVec.ofNat 64 n])
  refine ⟨g, flags, fun s₂ c hcall hframe => ?_⟩
  refine (henter.trans hsave).trans ?_
  refine (congrArg (exec calls _) (entered_eq s n (s.context n errorCode) g flags)).trans ?_
  rw [List.cons_append, List.singleton_append, exec_cons (by simp)]
  refine (congrArg (exec calls _) hcall).trans ?_
  rw [exec_cons (by simp), step, ← List.append_assoc]
  exact exec_resume (s := { s₂ with rsp := s₂.rsp + BitVec.ofNat 64 40 }) hmid hframe

/-- **A stub**: the handler is called with the context on the stack, and the thread that is current
    after it goes on with its own context. -/
theorem exec_isrStub {n : ℕ} {errorCode : Option Word} (herr : errorCode.isSome ↔ n ∈ errorVectors)
    (xtExceptionHandler : Word) (s : Machine) :
    ∃ g flags, ∀ s₂ c,
      calls xtExceptionHandler { s.entered n (s.context n (errorCode.getD 0)) with
        gpr := g, rflags := flags } = s₂ →
      words s₂.mem (s₂.mem (s₂.mem s₂.gsBase)) contextWords = c.frame →
      exec calls (isrStub xtExceptionHandler n) (s.interrupt n errorCode) = s₂.resumed c := by
  cases errorCode with
  | none =>
    have hn : n ∉ errorVectors := fun h => absurd (herr.mpr h) (by simp)
    obtain ⟨g, flags, hstub⟩ := @exec_stub calls n [] (.inl rfl)
      xtExceptionHandler s 0
    refine ⟨g, flags, fun s₂ c hcall hframe => ?_⟩
    rw [← hstub s₂ c hcall hframe, isrStub, if_neg hn, isrNoErrStub, List.append_nil]
    simp only [List.cons_append, List.append_assoc]
    rw [exec_cons (by simp), step, Machine.interrupt, pushes_pushes]
    rfl
  | some errorCode =>
    obtain ⟨g, flags, hstub⟩ := @exec_stub calls n [.readCs .rax] (.inr rfl)
      xtExceptionHandler s errorCode
    refine ⟨g, flags, fun s₂ c hcall hframe => ?_⟩
    rw [← hstub s₂ c hcall hframe, isrStub, if_pos (herr.mp rfl), isrErrStub]
    rfl

end XTOS.Arch

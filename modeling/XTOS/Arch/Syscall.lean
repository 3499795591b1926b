import XTOS.Arch.Switch

/-!
# System calls

`xtSyscallHandler` of `switchContext.asm` between a function of `user/xtinit/syscall.asm` and a routine of
`xtSyscallArray`, with the registers that `xtSyscallInit` sets for the instruction `syscall`.

## Main definitions

- `Machine.syscall` — the instruction
- `Machine.called` — the state in which the routine is called
- `Returned` — what a routine in C keeps
- `userCall` — a function of `syscall.asm` from its first instruction to its return

## Main results

- `Refines.called` — the routine runs as code of the same thread, so that it can be interrupted
- `userCall_returns` — what the function does to the thread that calls it
- `calls_any_word` — the number of the call is not checked

## Design notes

The routine is an input. It may be interrupted and wait, so that the state of the whole system in which it
ends is any one in which the thread runs again.
-/

namespace XTOS.Arch

open SysLib

/-- `syscall`, with the values of `MSR_STAR` and `MSR_FMASK`; `next` is the address behind it. -/
def Machine.syscall (s : Machine) (next : Word) : Machine :=
  { s with
    gpr := Function.update (Function.update s.gpr .rcx next) .r11 s.rflags
    cs := kernelCode, ss := kernelData, rflags := s.rflags &&& ~~~interruptFlag }

/-- The state in which the routine is called: on the kernel stack, with the address of the user stack as
    the fifth argument. -/
def Machine.called (s : Machine) (xtSyscallArray next : Word) : Machine :=
  let top := s.kernelStack (s.mem s.kernelGsBase)
  { s with
    gpr := fun r =>
      match r with
      | .rcx => s.gpr .r10
      | .r10 => xtSyscallArray
      | .r11 => s.rflags
      | .r12 => s.mem s.kernelGsBase
      | .r13 => s.rsp
      | r => s.gpr r
    rsp := lowered top 8, cs := kernelCode, ss := kernelData, rflags := s.rflags ||| interruptFlag
    gsBase := s.kernelGsBase, kernelGsBase := s.gsBase
    mem := Function.update (pushWords s.mem top [next, s.rflags, s.rsp]) (lowered top 4) s.rsp }

/-- The functions of `syscall.asm` in front of `syscall`. -/
def userStub (n : ℕ) : List Instr := [.mov .r10 .rcx, .movImm .rax n]

def xtUserTerminateThread : List Instr := userStub 0
def xtUserWriteFile : List Instr := userStub 1
def xtUserReadFile : List Instr := userStub 2
def xtUserCreatePipe : List Instr := userStub 3
def xtUserCreateProcess : List Instr := userStub 4
def xtUserDuplicateHandle : List Instr := userStub 5
def xtUserExecuteProgram : List Instr := userStub 6

variable {B : Bases} {σ σ₂ : System} {α α₂ : Threads} {calls : Word → Machine → Machine}
  {code : List Instr} {s s₂ : Machine} {a next : Word}

/-! ### The code -/

/-- The frame of the call: three words that are pushed, and forty bytes. -/
theorem lowered_frame (top : Word) : lowered (lowered (lowered top 1) 1) 1 - 40 = lowered top 8 := by
  rw [lowered_lowered, lowered_lowered]
  exact lowered_lowered top 3 5

/-- The fifth argument of the call. -/
theorem lowered_argument (top : Word) :
    lowered (lowered (lowered top 1) 1) 1 - 40 + 32 = lowered top 4 := by
  rw [lowered_frame]
  exact cell_lowered top (i := 4) (by decide)

/-- `sti` behind the mask of `syscall`. -/
theorem mask_or (w m : Word) : w &&& ~~~m ||| m = w ||| m := by
  ext i hi
  simp
  cases w[i] <;> simp

theorem exec_enterSyscall (s : Machine) :
    exec calls (enterSyscall a ++ code) (s.syscall next) = exec calls code (s.called a next) := by
  simp only [enterSyscall, List.cons_append, List.nil_append, exec, step]
  refine congrArg _ (Machine.ext ?_ ?_ rfl rfl ?_ rfl rfl rfl rfl rfl rfl rfl ?_)
  · funext r
    cases r
    all_goals rfl
  · exact lowered_frame _
  · exact mask_or _ _
  · exact congrArg (Function.update _ · _) (lowered_argument _)

/-- The state of a thread in front of `syscall`. -/
def Machine.calling (s : Machine) (n : ℕ) : Machine :=
  { s with gpr := Function.update (Function.update s.gpr .r10 (s.gpr .rcx)) .rax (BitVec.ofNat 64 n) }

/-- What `Machine.called` changes in memory. -/
theorem called_mem {top x : Word} (htop : s.kernelStack (s.mem s.kernelGsBase) = top)
    (hx : x ∉ cells (lowered top 8) 8) : (s.called a next).mem x = s.mem x := by
  have hne : x ≠ lowered top 4 := by
    rintro rfl
    exact hx ⟨4, by decide, by rw [cell_lowered top (by decide : 4 ≤ 8)]⟩
  have hlow : lowered top 3 = cell (lowered top 8) 5 := by rw [cell_lowered top (by decide : 5 ≤ 8)]
  dsimp only [Machine.called]
  rw [htop, Function.update_of_ne hne]
  refine pushWords_outside fun hmem => hx ?_
  have hframe : x ∈ cells (lowered top 3) 3 := hmem
  rw [hlow] at hframe
  exact cells_cell_subset (by decide) hframe

theorem align16_lowered {w : Word} (h : align16 w = w) : align16 (lowered w 8) = lowered w 8 := by
  have hmod : ∀ v : Word, (align16 v).toNat = v.toNat / 16 * 16 := by
    intro v
    rw [align16, BitVec.toNat_shiftLeft, BitVec.toNat_ushiftRight, Nat.shiftRight_eq_div_pow,
      Nat.shiftLeft_eq]
    omega
  have hw := hmod w
  rw [h] at hw
  have hlow : (lowered w 8).toNat % 16 = 0 := by
    rw [lowered]
    bv_omega
  apply BitVec.eq_of_toNat_eq
  rw [hmod]
  omega

/-- The words of a kernel stack that a system call needs when it is interrupted. -/
def syscallWords : ℕ := 8 + contextWords

/-- The frame of a call is on the kernel stack. -/
theorem frame_subset {top : Word} {S : Set Word} (h : cells (lowered top syscallWords) syscallWords ⊆ S) :
    cells (lowered top 8) 8 ⊆ S := by
  have hlow : lowered top 8 = cell (lowered top syscallWords) contextWords := by
    rw [syscallWords, cell_lowered _ (by omega), Nat.add_sub_cancel]
  rw [hlow]
  exact (cells_cell_subset (by rw [syscallWords]; omega)).trans h

/-- The stack that `xtSyscallHandler` takes. -/
theorem Refines.syscallTop (h : Refines B σ α) (huser : σ.machine.cs = userCode) (n : ℕ) :
    (σ.machine.calling n).kernelStack ((σ.machine.calling n).mem (σ.machine.calling n).kernelGsBase) =
      σ.machine.kernelStack (σ.current B) := by
  have hruns : σ.Runs B (σ.current B) := h.current ▸ h.runs
  dsimp only [Machine.calling]
  rw [(hruns.userGs huser).2]
  rfl

/-- **The routine** runs as code of the thread that called, so that it can be interrupted. -/
theorem Refines.called (h : Refines B σ α) (huser : σ.machine.cs = userCode) (n : ℕ) (a next : Word)
    (hroom : cells (lowered (σ.machine.kernelStack (σ.current B)) syscallWords) syscallWords ⊆
      σ.stack (σ.current B)) :
    σ.Step B { σ with machine := (σ.machine.calling n).called a next } ∧
      Refines B { σ with machine := (σ.machine.calling n).called a next } { α with
        regs := Function.update α.regs α.current ((σ.machine.calling n).called a next).regs } := by
  have hlive : σ.current B ∈ σ.live := h.current ▸ h.live ▸ h.current_live
  have hruns : σ.Runs B (σ.current B) := h.current ▸ h.runs
  obtain ⟨hgs, hkernel⟩ := hruns.userGs huser
  have htop := h.syscallTop huser n
  have hmem : ∀ x, x ∉ σ.stack (σ.current B) →
      ((σ.machine.calling n).called a next).mem x = σ.machine.mem x := fun x hx =>
    called_mem htop fun hmem => hx (frame_subset hroom hmem)
  have hkeeps : Keeps B σ ((σ.machine.calling n).called a next).mem := by
    refine ⟨fun x hx => hmem x fun hstack => ?_, fun t ht hne x hx => hmem x fun hstack => ?_⟩
    · exact Set.disjoint_left.mp (h.separate.records _ hlive) hstack hx
    · exact Set.disjoint_left.mp (h.separate.kernelStacks t ht _ hlive hne) hx hstack
  have hcpu : ((σ.machine.calling n).called a next).mem B.cpuData = σ.current B :=
    hmem _ (h.separate.cpuData _ hlive)
  have hfields : SameFields σ ((σ.machine.calling n).called a next).mem := .of_records hkeeps.records
  have hrunning : System.Runs B { σ with machine := (σ.machine.calling n).called a next }
      (σ.current B) := by
    have hcode : kernelCode ≠ userCode := by decide
    refine ⟨.inr ⟨rfl, ?_⟩, fun hcs => absurd hcs hcode, fun _ => ⟨hkernel, hgs⟩,
      fun hcs => absurd hcs hcode, ?_⟩
    · have hrsp : ((σ.machine.calling n).called a next).regs.rsp =
          lowered (σ.machine.kernelStack (σ.current B)) 8 := by
        dsimp only [Machine.regs, Machine.called]
        rw [htop]
      rw [hrsp, align16_lowered (h.separate.aligned _ hlive), frameCells, lowered_lowered]
      exact (cells_mono (by decide)).trans hroom
    · refine hruns.cr3.trans ?_
      dsimp only
      rw [hfields.tableCell hlive]
      exact (hkeeps.records _ ⟨_, hlive, .inr (.inr (.inr rfl))⟩).symm
  exact ⟨.run hkeeps hcpu hrunning, h.run hkeeps hcpu hrunning⟩

theorem cell_ofNat (w : Word) (n : ℕ) : cell w (BitVec.ofNat 64 n).toNat = cell w n := by
  rw [cell, cell, BitVec.toNat_ofNat]
  bv_omega

/-- The routine whose address is in the table is called with the arguments of the function. -/
theorem exec_xtSyscallHandler (s : Machine) (x : Word) (hx : cell a (s.gpr .rax).toNat = x)
    (hframe : x ∉ cells (lowered (s.kernelStack (s.mem s.kernelGsBase)) 8) 8) :
    exec calls (xtSyscallHandler a) (s.syscall next) =
      exec calls leaveSyscall (calls (s.mem x) (s.called a next)) := by
  rw [xtSyscallHandler, exec_enterSyscall, exec_cons (by simp), step]
  refine congrArg (fun w => exec calls leaveSyscall (calls w (s.called a next))) ?_
  exact (congrArg (s.called a next).mem hx).trans (called_mem rfl hframe)

/-- **The number of a call** is not compared with the length of the table: for every word of memory at the
    distance of whole words from it there is a number with which the code that the word points to is called
    as kernel code. -/
theorem calls_any_word {x : Word} (hx : (x - a).toNat % 8 = 0) :
    ∃ n : Word, ∀ (s : Machine) calls next, s.gpr .rax = n →
      x ∉ cells (lowered (s.kernelStack (s.mem s.kernelGsBase)) 8) 8 →
      exec calls (xtSyscallHandler a) (s.syscall next) =
          exec calls leaveSyscall (calls (s.mem x) (s.called a next)) ∧
        (s.called a next).cs = kernelCode := by
  refine ⟨BitVec.ofNat 64 ((x - a).toNat / 8), fun s calls next hrax hframe => ⟨?_, rfl⟩⟩
  refine exec_xtSyscallHandler s x ?_ hframe
  rw [hrax, cell_ofNat, cell]
  have hdist : 8 * ((x - a).toNat / 8) = (x - a).toNat := by omega
  rw [hdist, BitVec.ofNat_toNat, BitVec.setWidth_eq]
  bv_omega

/-! ### A call of user code -/

/-- A word far behind the table. -/
theorem userSystem_calls :
    ∃ n : Word, ∀ (s : Machine) calls next, s.gpr .rax = n →
      0x20000 ∉ cells (lowered (s.kernelStack (s.mem s.kernelGsBase)) 8) 8 →
      exec calls (xtSyscallHandler 0x9000) (s.syscall next) =
          exec calls leaveSyscall (calls (s.mem 0x20000) (s.called 0x9000 next)) ∧
        (s.called 0x9000 next).cs = kernelCode :=
  calls_any_word (by decide)

end XTOS.Arch

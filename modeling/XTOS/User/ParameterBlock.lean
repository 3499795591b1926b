import XTOS.Lib.Spans
import XTOS.User.Arguments

/-!
# The parameter block of a program

The block that `xtPassArgs` of `linker.c` builds, read back as the new program sees it.

## Main definitions

- `StringOf`, `Entries`, `StringList` — a NULL-terminated list of NUL-terminated strings
- `blockSize` — the bytes of a block
- `userView` — the memory behind the addresses of the new program
- `Parts`, `BlockHolds` — the block that a program finds for its arguments and its environment

## Main results

- `countStrings_entries` — the first pass counts the strings
- `writeStrings_entries` — the second pass writes a list of the same strings
- `passArgs_holds` — the block holds the lists that were passed
-/

namespace XTOS.User

open SysLib

/-- A NUL-terminated string at an address. -/
structure StringOf (m : ℕ → UInt8) (p : ℕ) (s : List UInt8) : Prop where
  bytes : load m p (s.length + 1) = s ++ [0]
  nonzero : ∀ b ∈ s, b ≠ 0

/-- The pointers of an array from entry `i` on, and the strings they point to. -/
def Entries (m : ℕ → UInt8) (array : ℕ) : ℕ → List ℕ → List (List UInt8) → Prop
  | _, [], [] => True
  | i, p :: ptrs, s :: strs =>
    (p ≠ 0 ∧ loadLE m (array + 8 * i) 8 = p ∧ StringOf m p s) ∧ Entries m array (i + 1) ptrs strs
  | _, _, _ => False

/-- A NULL-terminated list of NUL-terminated strings. -/
structure StringList (m : ℕ → UInt8) (array : ℕ) (ptrs : List ℕ) (strs : List (List UInt8)) :
    Prop where
  entries : Entries m array 0 ptrs strs
  ended : loadLE m (array + 8 * strs.length) 8 = 0

/-- A list of strings that may be `NULL`. -/
def StringListOrNull (m : ℕ → UInt8) (array : ℕ) (ptrs : List ℕ) (strs : List (List UInt8)) :
    Prop :=
  if array = 0 then ptrs = [] ∧ strs = [] else StringList m array ptrs strs

/-- Where the strings of a list are. -/
def stringRegions (ptrs : List ℕ) (strs : List (List UInt8)) : List (ℕ × ℕ) :=
  List.zipWith (fun p s => (p, s.length + 1)) ptrs strs

/-- Where a list of strings is. -/
def regions (array : ℕ) (ptrs : List ℕ) (strs : List (List UInt8)) : List (ℕ × ℕ) :=
  (array, 8 * (strs.length + 1)) :: stringRegions ptrs strs

/-- The bytes of the block before they are rounded up to whole pages. -/
def blockSize (args env : List (List UInt8)) : ℕ :=
  32 + (args.length + 1) * 8 + (env.length + 1) * 8 + stringBytes args + stringBytes env

/-- New pages leave the bytes in use alone, and they are not among these. -/
def NewPages (k : ExecSide v) (m : ℕ → UInt8) (used : List (ℕ × ℕ)) : Prop :=
  ∀ n m' p, k.pages m n = some (m', p) → SameBlocks used m m' ∧
    ∀ x ∈ used, x.1 + x.2 ≤ p ∨ p + n ≤ x.1

/-- The memory that the new program finds at an address of the block. -/
def userView (m : ℕ → UInt8) (kptr base : ℕ) (a : ℕ) : UInt8 := m (kptr + (a - base))

/-- What a part of the block is. -/
inductive Part where
  | header
  | array
  | string
  deriving DecidableEq, Repr

/-- The parts of a block: the header, the two arrays, and the strings of both. -/
def parts (base argv envp : ℕ) (aptrs eptrs : List ℕ) (args env : List (List UInt8)) :
    List (Span Part) :=
  ⟨.header, base, 32⟩ :: ⟨.array, argv, 8 * (args.length + 1)⟩ ::
    ⟨.array, envp, 8 * (env.length + 1)⟩ ::
    (List.zipWith (fun p s => ⟨.string, p, s.length + 1⟩) aptrs args ++
      List.zipWith (fun p s => ⟨.string, p, s.length + 1⟩) eptrs env)

/-- The block at `base` of `total` bytes holds the arguments and the environment; the two arrays
    are at `argv` and at `envp`. -/
structure BlockHolds (u : ℕ → UInt8) (base total argv envp : ℕ) (aptrs eptrs : List ℕ)
    (args env : List (List UInt8)) : Prop where
  argc : loadLE u base 8 = args.length
  argvField : loadLE u (base + 8) 8 = argv
  argList : StringList u argv aptrs args
  envpField : loadLE u (base + 16) 8 = if env = [] then 0 else envp
  envList : env ≠ [] → StringList u envp eptrs env
  pointers : ∀ p ∈ argv :: envp :: (aptrs ++ eptrs), base ≤ p ∧ p < base + total
  ordered : Ordered (parts base argv envp aptrs eptrs args env)
  inside : ∀ e ∈ parts base argv envp aptrs eptrs args env, base ≤ e.start ∧ e.stop ≤ base + total

/-- The pointers to strings that lie one behind the other. -/
def pointers : ℕ → List (List UInt8) → List ℕ
  | _, [] => []
  | va, s :: strs => va :: pointers (va + (s.length + 1)) strs

variable {v : AddressSpace} {k : ExecSide v} {m m' : ℕ → UInt8} {array i n p : ℕ} {ptrs : List ℕ}
  {s : List UInt8} {strs : List (List UInt8)} {kptr base : ℕ}

/-! ### Strings in memory -/

theorem StringOf.congr (h : StringOf m p s)
    (hsame : ∀ a, p ≤ a → a < p + (s.length + 1) → m' a = m a) : StringOf m' p s where
  bytes := (load_congr hsame).trans h.bytes
  nonzero := h.nonzero

theorem Entries.congr (h : Entries m array i ptrs strs)
    (harray : ∀ a, array + 8 * i ≤ a → a < array + 8 * (i + strs.length) → m' a = m a)
    (hstrs : SameBlocks (stringRegions ptrs strs) m m') : Entries m' array i ptrs strs := by
  induction strs generalizing i ptrs with
  | nil => cases ptrs <;> exact h
  | cons s strs ih =>
    cases ptrs with
    | nil => exact h
    | cons p ptrs =>
      obtain ⟨⟨hp, hword, hs⟩, hrest⟩ := h
      rw [List.length_cons] at harray
      refine ⟨⟨hp, ?_, hs.congr (hstrs _ List.mem_cons_self)⟩, ?_⟩
      · rw [loadLE_congr fun a h1 h2 => harray a h1 (by omega), hword]
      · exact ih hrest (fun a h1 h2 => harray a (by omega) (by omega)) fun x hx =>
          hstrs x (List.mem_cons_of_mem _ hx)

theorem StringList.congr (h : StringList m array ptrs strs)
    (hsame : SameBlocks (regions array ptrs strs) m m') : StringList m' array ptrs strs where
  entries := h.entries.congr (fun a h1 h2 => hsame _ List.mem_cons_self a (by dsimp only; omega)
    (by dsimp only; omega)) fun x hx => hsame x (List.mem_cons_of_mem _ hx)
  ended := (loadLE_congr fun a h1 h2 => hsame _ List.mem_cons_self a (by dsimp only; omega)
    (by dsimp only; omega)).trans h.ended

/-- The length of a string. -/
theorem lengthLoop_eq (h : StringOf m p s) (hn : s.length < n) :
    lengthLoop m n p = some s.length := by
  induction s generalizing n p with
  | nil =>
    obtain ⟨n, rfl⟩ := Nat.exists_eq_add_one.mpr hn
    have hzero : m p = 0 := List.head_eq_of_cons_eq h.bytes
    rw [lengthLoop, if_pos hzero]
    rfl
  | cons b s ih =>
    obtain ⟨n, rfl⟩ := Nat.exists_eq_add_one.mpr (Nat.zero_lt_of_lt hn)
    have hbytes := h.bytes
    rw [List.length_cons, Nat.add_comm, load_add, List.cons_append] at hbytes
    obtain ⟨hb, hrest⟩ := List.cons.inj hbytes
    have hne : m p ≠ 0 := fun hzero => h.nonzero b List.mem_cons_self (hb.symm.trans hzero)
    have htail : StringOf m (p + 1) s :=
      ⟨hrest, fun c hc => h.nonzero c (List.mem_cons_of_mem _ hc)⟩
    rw [List.length_cons] at hn ⊢
    rw [lengthLoop, if_neg hne, ih htail (by omega)]
    rfl

theorem xtGetStringLength_eq (h : StringOf m p s) (hs : s.length < scanLimit) :
    xtGetStringLength m p = some s.length := lengthLoop_eq h hs

theorem stringBytes_cons (s : List UInt8) (strs : List (List UInt8)) :
    stringBytes (s :: strs) = s.length + 1 + stringBytes strs := by
  rw [stringBytes, stringBytes, List.map_cons, List.sum_cons]

/-- **The first pass** counts the strings of a list and their bytes. -/
theorem countStrings_entries (h : Entries m array i ptrs strs)
    (hended : loadLE m (array + 8 * (i + strs.length)) 8 = 0) (hn : strs.length < n)
    (hsize : stringBytes strs < scanLimit) :
    countStrings m array n i = some (strs.length, stringBytes strs) := by
  induction strs generalizing i n ptrs with
  | nil =>
    obtain ⟨n, rfl⟩ := Nat.exists_eq_add_one.mpr hn
    have hended : loadLE m (array + 8 * i) 8 = 0 := hended
    rw [countStrings, if_pos hended]
    rfl
  | cons s strs ih =>
    obtain ⟨n, rfl⟩ := Nat.exists_eq_add_one.mpr (Nat.zero_lt_of_lt hn)
    cases ptrs with
    | nil => exact h.elim
    | cons p ptrs =>
      obtain ⟨⟨hp, hword, hs⟩, hrest⟩ := h
      rw [stringBytes_cons] at hsize ⊢
      rw [List.length_cons] at hended hn ⊢
      rw [show i + (strs.length + 1) = i + 1 + strs.length by omega] at hended
      rw [countStrings, hword, if_neg hp, xtGetStringLength_eq hs (by omega),
        ih hrest hended (by omega) (by omega)]
      dsimp only
      rw [show stringBytes strs + s.length + 1 = s.length + 1 + stringBytes strs by omega]

theorem StringList.count (h : StringList m array ptrs strs) (hn : strs.length < n)
    (hsize : stringBytes strs < scanLimit) :
    countStrings m array n 0 = some (strs.length, stringBytes strs) := by
  refine countStrings_entries h.entries ?_ hn hsize
  rw [Nat.zero_add]
  exact h.ended

theorem StringListOrNull.count (h : StringListOrNull m array ptrs strs) (hn : strs.length < n)
    (hsize : stringBytes strs < scanLimit) :
    (if array = 0 then some (0, 0) else countStrings m array n 0) =
      some (strs.length, stringBytes strs) := by
  rw [StringListOrNull] at h
  split_ifs at h ⊢
  · rw [h.2]
    rfl
  · exact h.count hn hsize

/-! ### The block as the program sees it -/

theorem load_userView (m : ℕ → UInt8) (kptr base off n : ℕ) :
    load (userView m kptr base) (base + off) n = load m (kptr + off) n := by
  apply List.map_congr_left
  intro i _
  rw [userView, Nat.add_assoc, Nat.add_sub_cancel_left, Nat.add_assoc]

theorem loadLE_userView (m : ℕ → UInt8) (kptr base off n : ℕ) :
    loadLE (userView m kptr base) (base + off) n = loadLE m (kptr + off) n := by
  rw [loadLE, load_userView, loadLE]

/-- What `writeStrings` leaves from entry `i` on: the array at `aoff` of the block names the
    strings, which lie one behind the other from `off` on. -/
theorem writeStrings_entries (aoff off : ℕ) (h : Entries m array i ptrs strs)
    (hsize : stringBytes strs < scanLimit) (hbase : 0 < base)
    (hva : base + off + stringBytes strs ≤ space) (hoff : aoff + 8 * (i + strs.length) ≤ off)
    (harray : array + 8 * (i + strs.length) ≤ kptr ∨
      kptr + off + stringBytes strs ≤ array + 8 * i)
    (hstrs : ∀ x ∈ stringRegions ptrs strs, x.1 + x.2 ≤ kptr ∨
      kptr + off + stringBytes strs ≤ x.1) :
    ∃ m', writeStrings array (kptr + aoff) strs.length i m (kptr + off) (base + off) =
        some (m', kptr + (off + stringBytes strs), base + (off + stringBytes strs)) ∧
      Entries (userView m' kptr base) (base + aoff) i (pointers (base + off) strs) strs ∧
      ∀ a, (a < kptr + aoff + 8 * i ∨ kptr + aoff + 8 * (i + strs.length) ≤ a) →
        (a < kptr + off ∨ kptr + off + stringBytes strs ≤ a) → m' a = m a := by
  induction strs generalizing i m off ptrs with
  | nil =>
    cases ptrs with
    | nil => exact ⟨m, rfl, trivial, fun _ _ _ => rfl⟩
    | cons p ptrs => exact h.elim
  | cons s strs ih =>
    cases ptrs with
    | nil => exact h.elim
    | cons p ptrs =>
      obtain ⟨⟨hp, hword, hs⟩, hrest⟩ := h
      rw [stringBytes_cons] at hsize hva harray hstrs ⊢
      rw [List.length_cons] at hoff harray ⊢
      obtain ⟨hfar, hfars⟩ := List.forall_mem_cons.mp hstrs
      dsimp only at hfar
      -- the memory after this string
      have hlen : (load m p (s.length + 1)).length = s.length + 1 := length_load _ _ _
      set m₁ := storeLE (store m (kptr + off) (load m p (s.length + 1))) (kptr + aoff + 8 * i) 8
        (base + off) with hm₁
      have hframe : ∀ a, (a < kptr + aoff + 8 * i ∨ kptr + aoff + 8 * i + 8 ≤ a) →
          (a < kptr + off ∨ kptr + off + (s.length + 1) ≤ a) → m₁ a = m a := by
        intro a h1 h2
        rw [hm₁, storeLE_outside _ _ h1, store_outside _ _ (by omega)]
      have hrest₁ : Entries m₁ array (i + 1) ptrs strs := by
        refine hrest.congr (fun a h1 h2 => ?_) fun x hx a h1 h2 => ?_
        · exact hframe a (by omega) (by omega)
        · have hx' := hfars x hx
          exact hframe a (by omega) (by omega)
      obtain ⟨m', hwrite, hentries, hkeep⟩ := ih (off + (s.length + 1)) hrest₁ (by omega)
        (by omega) (by omega) (by omega) fun x hx => by
          have hx' := hfars x hx
          omega
      have hlength := xtGetStringLength_eq hs (by omega)
      refine ⟨m', ?_, ⟨⟨by omega, ?_, ?_⟩, ?_⟩, fun a h1 h2 => ?_⟩
      · rw [writeStrings]
        dsimp only
        rw [hword, hlength]
        dsimp only
        rw [← hm₁, show kptr + off + s.length + 1 = kptr + (off + (s.length + 1)) by omega,
          show base + off + s.length + 1 = base + (off + (s.length + 1)) by omega, hwrite,
          Nat.add_assoc off]
      · have hword₁ : loadLE m' (kptr + aoff + 8 * i) 8 = loadLE m₁ (kptr + aoff + 8 * i) 8 :=
          loadLE_congr fun a h1 h2 => hkeep a (by omega) (by omega)
        rw [Nat.add_assoc, loadLE_userView, ← Nat.add_assoc, hword₁, hm₁]
        apply loadLE_storeLE_same
        unfold space at hva
        omega
      · refine ⟨?_, hs.nonzero⟩
        have hbytes₁ : load m' (kptr + off) (s.length + 1) =
            load (store m (kptr + off) (load m p (s.length + 1))) (kptr + off) (s.length + 1) :=
          load_congr fun a h1 h2 =>
            (hkeep a (by omega) (by omega)).trans (storeLE_outside _ _ (by omega))
        rw [load_userView, hbytes₁]
        have hstored := load_store_same m (kptr + off) (load m p (s.length + 1))
        rw [hlen, hs.bytes] at hstored
        rw [hs.bytes, hstored]
      · rwa [Nat.add_assoc base]
      · rw [hkeep a (by omega) (by omega), hframe a (by omega) (by omega)]

/-! ### The whole block -/

theorem mem_stringRegions_pointers {va : ℕ} {x : ℕ × ℕ}
    (hx : x ∈ stringRegions (pointers va strs) strs) :
    va ≤ x.1 ∧ x.1 + x.2 ≤ va + stringBytes strs := by
  induction strs generalizing va with
  | nil => cases hx
  | cons s strs ih =>
    rw [stringBytes_cons]
    obtain rfl | hx := List.mem_cons.mp hx
    · exact ⟨le_rfl, by dsimp only; omega⟩
    · have hrest := ih hx
      omega

theorem mem_pointers {va : ℕ} (hp : p ∈ pointers va strs) :
    va ≤ p ∧ p < va + stringBytes strs := by
  induction strs generalizing va with
  | nil => cases hp
  | cons s strs ih =>
    rw [stringBytes_cons]
    obtain rfl | hp := List.mem_cons.mp hp
    · omega
    · have hrest := ih hp
      omega

/-- Strings that lie one behind the other are placed like that. -/
theorem zipWith_pointers (va : ℕ) (strs : List (List UInt8)) :
    List.zipWith (fun p (s : List UInt8) => (⟨.string, p, s.length + 1⟩ : Span Part))
      (pointers va strs) strs = placeAll va (strs.map fun s => (.string, s.length + 1)) := by
  induction strs generalizing va with
  | nil => rfl
  | cons s strs ih => rw [pointers, List.zipWith_cons_cons, ih, List.map_cons, placeAll]

theorem sum_lengths (strs : List (List UInt8)) :
    ((strs.map fun s => (Part.string, s.length + 1)).map Prod.snd).sum = stringBytes strs := by
  rw [List.map_map, stringBytes]
  rfl

/-- The parts of the block are placed one behind the other. -/
theorem parts_eq (base : ℕ) (args env : List (List UInt8)) :
    parts base (base + 32) (base + 32 + (args.length + 1) * 8)
      (pointers (base + (32 + (args.length + 1) * 8 + (env.length + 1) * 8)) args)
      (pointers (base + (32 + (args.length + 1) * 8 + (env.length + 1) * 8 + stringBytes args)) env)
      args env =
    placeAll base ((.header, 32) :: (.array, 8 * (args.length + 1)) ::
      (.array, 8 * (env.length + 1)) :: ((args.map fun s => (.string, s.length + 1)) ++
        env.map fun s => (.string, s.length + 1))) := by
  have hargv : base + 32 + (args.length + 1) * 8 = base + 32 + 8 * (args.length + 1) := by omega
  have hstrs : base + (32 + (args.length + 1) * 8 + (env.length + 1) * 8) =
      base + 32 + 8 * (args.length + 1) + 8 * (env.length + 1) := by omega
  rw [parts, zipWith_pointers, zipWith_pointers, ← Nat.add_assoc base _ (stringBytes args), hstrs,
    hargv, placeAll, placeAll, placeAll, placeAll_append, sum_lengths]

theorem writeHeader_envp (m : ℕ → UInt8) (kptr argc argv imageBase : ℕ) {envp : ℕ}
    (henvp : envp < 256 ^ 8) :
    loadLE (writeHeader m kptr argc argv envp imageBase) (kptr + 16) 8 = envp := by
  rw [writeHeader, loadLE_storeLE_disjoint _ (by omega), loadLE_storeLE_same _ _ _ henvp]

/-- The block, from what its memory holds in the end. -/
theorem blockHolds_of {total imageBase envField : ℕ} {m₀ : ℕ → UInt8} {args env : List (List UInt8)}
    (hbase : base + total ≤ space) (htotal : blockSize args env ≤ total)
    (hfield : envField = if env = [] then 0 else base + 32 + (args.length + 1) * 8)
    (hheader : ∀ a < kptr + 32, m a =
      writeHeader m₀ kptr args.length (base + 32) envField imageBase a)
    (hargs : Entries (userView m kptr base) (base + 32) 0
      (pointers (base + (32 + (args.length + 1) * 8 + (env.length + 1) * 8)) args) args)
    (hargsEnd : loadLE m (kptr + 32 + 8 * args.length) 8 = 0)
    (henv : env ≠ [] → Entries (userView m kptr base) (base + (32 + (args.length + 1) * 8)) 0
      (pointers (base + (32 + (args.length + 1) * 8 + (env.length + 1) * 8 + stringBytes args)) env)
      env ∧ loadLE m (kptr + (32 + (args.length + 1) * 8) + 8 * env.length) 8 = 0) :
    BlockHolds (userView m kptr base) base total (base + 32) (base + 32 + (args.length + 1) * 8)
      (pointers (base + (32 + (args.length + 1) * 8 + (env.length + 1) * 8)) args)
      (pointers (base + (32 + (args.length + 1) * 8 + (env.length + 1) * 8 + stringBytes args)) env)
      args env := by
  have hspace : space = 256 ^ 8 := by decide
  rw [blockSize] at htotal
  have hargc : args.length < 256 ^ 8 := by omega
  have henvField : envField < 256 ^ 8 := by
    rw [hfield]
    split_ifs
    · decide
    · omega
  have hword : ∀ off, off + 8 ≤ 32 → loadLE (userView m kptr base) (base + off) 8 =
      loadLE (writeHeader m₀ kptr args.length (base + 32) envField imageBase) (kptr + off) 8 := by
    intro off hoff
    rw [loadLE_userView, loadLE_congr fun a h1 h2 => hheader a (by omega)]
  obtain ⟨hfirst, hsecond⟩ := writeHeader_fields m₀ kptr envField imageBase hargc
    (show base + 32 < 256 ^ 8 by omega)
  have hsum : ((((.header, 32) :: (.array, 8 * (args.length + 1)) ::
      (.array, 8 * (env.length + 1)) :: ((args.map fun s => (.string, s.length + 1)) ++
        env.map fun s => (.string, s.length + 1))) : List (Part × ℕ)).map Prod.snd).sum =
      blockSize args env := by
    rw [List.map_cons, List.map_cons, List.map_cons, List.map_append, List.sum_cons, List.sum_cons,
      List.sum_cons, List.sum_append, sum_lengths, sum_lengths, blockSize]
    omega
  refine ⟨?_, ?_, ⟨hargs, ?_⟩, ?_, fun hne => ⟨?_, ?_⟩, ?_, ?_, ?_⟩
  · have hzero := hword 0 (by omega)
    rwa [Nat.add_zero base, Nat.add_zero kptr, hfirst] at hzero
  · rw [hword 8 (by omega), hsecond]
  · rw [Nat.add_assoc base, loadLE_userView, ← Nat.add_assoc kptr]
    exact hargsEnd
  · rw [hword 16 (by omega), writeHeader_envp _ _ _ _ _ henvField, hfield]
  · rw [Nat.add_assoc base]
    exact (henv hne).1
  · rw [Nat.add_assoc base, Nat.add_assoc base, loadLE_userView, ← Nat.add_assoc kptr]
    exact (henv hne).2
  · intro p hp
    obtain rfl | hp := List.mem_cons.mp hp
    · omega
    obtain rfl | hp := List.mem_cons.mp hp
    · omega
    obtain hp | hp := List.mem_append.mp hp
    · have hin := mem_pointers hp
      omega
    · have hin := mem_pointers hp
      omega
  · rw [parts_eq]
    exact ordered_placeAll _ _
  · rw [parts_eq]
    intro e he
    have hin := mem_placeAll he
    rw [hsum, blockSize] at hin
    omega

/-- The array and the strings of a list in the block are as they were. -/
theorem Entries.view_congr {aoff off : ℕ}
    (h : Entries (userView m kptr base) (base + aoff) 0 (pointers (base + off) strs) strs)
    (hsame : ∀ x, (aoff ≤ x ∧ x < aoff + 8 * strs.length) ∨
      (off ≤ x ∧ x < off + stringBytes strs) → m' (kptr + x) = m (kptr + x)) :
    Entries (userView m' kptr base) (base + aoff) 0 (pointers (base + off) strs) strs := by
  refine h.congr (fun a h1 h2 => hsame _ (.inl (by omega))) fun x hx a h1 h2 => ?_
  have hin := mem_stringRegions_pointers hx
  exact hsame _ (.inr (by omega))

/-- A list that is written to the block with its terminator: the array at `aoff` and the strings
    from `off` on hold it, and nothing else is written. -/
theorem StringList.written (kptr aoff off : ℕ) (h : StringList m array ptrs strs)
    (hsize : stringBytes strs < scanLimit) (hbase : 0 < base)
    (hva : base + off + stringBytes strs ≤ space) (hoff : aoff + 8 * (strs.length + 1) ≤ off)
    (hfar : ∀ x ∈ regions array ptrs strs, x.1 + x.2 ≤ kptr ∨
      kptr + off + stringBytes strs ≤ x.1) :
    ∃ m₁ m', writeStrings array (kptr + aoff) strs.length 0 m (kptr + off) (base + off) =
        some (m₁, kptr + (off + stringBytes strs), base + (off + stringBytes strs)) ∧
      storeLE m₁ (kptr + aoff + 8 * strs.length) 8 0 = m' ∧
      Entries (userView m' kptr base) (base + aoff) 0 (pointers (base + off) strs) strs ∧
      loadLE m' (kptr + aoff + 8 * strs.length) 8 = 0 ∧
      ∀ a, (a < kptr + aoff ∨ kptr + aoff + 8 * (strs.length + 1) ≤ a) →
        (a < kptr + off ∨ kptr + off + stringBytes strs ≤ a) → m' a = m a := by
  obtain ⟨hfarArray, hfarStrings⟩ := List.forall_mem_cons.mp hfar
  dsimp only at hfarArray
  obtain ⟨m₁, hwrite, hentries, hkeep⟩ := writeStrings_entries aoff off h.entries hsize hbase
    hva (by omega) (by omega) hfarStrings
  refine ⟨m₁, _, hwrite, rfl, ?_, loadLE_storeLE_same _ _ _ (by decide), fun a h1 h2 => ?_⟩
  · exact hentries.view_congr fun x hx => storeLE_outside _ _ (by omega)
  · rw [storeLE_outside _ _ (by omega), hkeep a (by omega) h2]

/-- **The parameter block**: when there are pages for it, the block holds the arguments and the
    environment that were passed, and its parts are disjoint. -/
theorem passArgs_holds (k : ExecSide v) (m : ℕ → UInt8) (random imageBase : ℕ) {args envp : ℕ}
    {aptrs eptrs : List ℕ} {astrs estrs : List (List UInt8)} {m₁ : ℕ → UInt8} {kptr : ℕ}
    (hargs : StringList m args aptrs astrs) (henvp : StringListOrNull m envp eptrs estrs)
    (hnew : NewPages k m (regions args aptrs astrs ++
      if envp = 0 then [] else regions envp eptrs estrs))
    (hsize : pagesOf (blockSize astrs estrs) < 2 ^ 31)
    (hpages : k.pages m (pagesOf (blockSize astrs estrs)) = some (m₁, kptr)) :
    ∃ m', xtPassArgs k m args envp random imageBase = some (m', kptr) ∧
      ∃ aptrs' eptrs', BlockHolds (userView m' kptr (vaBase random)) (vaBase random)
        (pagesOf (blockSize astrs estrs)) (vaBase random + 32)
        (vaBase random + 32 + (astrs.length + 1) * 8) aptrs' eptrs' astrs estrs := by
  have hle := le_pagesOf (blockSize astrs estrs)
  have hbase := vaBase_lt random
  have hpos : 0 < vaBase random := lt_max_of_lt_left (by decide)
  have hspace : space = 2 ^ 64 := rfl
  have hscan : scanLimit = 2 ^ 64 := rfl
  have hint : intMax = 2 ^ 31 - 1 := rfl
  obtain ⟨hkeep, hfar⟩ := hnew _ _ _ hpages
  generalize htotal : pagesOf (blockSize astrs estrs) = total at *
  rw [blockSize] at hle
  have hcount := hargs.count (show astrs.length < intMax by omega) (by omega)
  have hcountEnv := henvp.count (show estrs.length < intMax by omega) (by omega)
  generalize hfield : (if estrs.length = 0 then 0 else
    vaBase random + 32 + (astrs.length + 1) * 8) = envField
  have hfield' : envField = if estrs = [] then 0 else
      vaBase random + 32 + (astrs.length + 1) * 8 := by
    rw [← hfield]
    simp only [List.length_eq_zero_iff]
  -- the header leaves the lists alone
  have hheaderKeep : SameBlocks (regions args aptrs astrs ++
      if envp = 0 then [] else regions envp eptrs estrs) m
      (writeHeader m₁ kptr astrs.length (vaBase random + 32) envField imageBase) := by
    intro x hx a h1 h2
    have hx' := hfar x hx
    rw [writeHeader_outside (by omega), hkeep x hx a h1 h2]
  have hargs₁ := hargs.congr fun x hx => hheaderKeep x (List.mem_append_left _ hx)
  obtain ⟨m₂, m₃, hwrite, hterm, hentries, hended, hkeep₃⟩ := hargs₁.written kptr 32
    (32 + (astrs.length + 1) * 8 + (estrs.length + 1) * 8) (by omega) hpos
    (by omega) (by omega) fun x hx => by
      have hx' := hfar x (List.mem_append_left _ hx)
      omega
  have hheader₃ : ∀ a < kptr + 32, m₃ a =
      writeHeader m₁ kptr astrs.length (vaBase random + 32) envField imageBase a :=
    fun a ha => hkeep₃ a (by omega) (by omega)
  have hassoc : ∀ x, x + 32 + (astrs.length + 1) * 8 + (estrs.length + 1) * 8 =
      x + (32 + (astrs.length + 1) * 8 + (estrs.length + 1) * 8) := fun x => by omega
  have hassocArray : kptr + 32 + (astrs.length + 1) * 8 = kptr + (32 + (astrs.length + 1) * 8) :=
    Nat.add_assoc _ _ _
  rw [xtPassArgs, hcount, hcountEnv]
  dsimp only
  rw [show pagesOf (32 + (astrs.length + 1) * 8 + (estrs.length + 1) * 8 + stringBytes astrs +
    stringBytes estrs) = total from htotal, hpages]
  dsimp only
  rw [hassoc kptr, hassoc (vaBase random), hassocArray, hfield, hwrite]
  dsimp only
  rw [hterm]
  by_cases hnull : envp = 0
  · rw [StringListOrNull, if_pos hnull] at henvp
    rw [if_pos hnull]
    exact ⟨m₃, rfl, _, _, blockHolds_of (by omega) hle hfield' hheader₃ hentries hended
      fun hne => absurd henvp.2 hne⟩
  -- the environment behind the arguments
  rw [if_neg hnull]
  rw [StringListOrNull, if_neg hnull] at henvp
  rw [if_neg hnull] at hheaderKeep hfar
  have henv₃ : StringList m₃ envp eptrs estrs := by
    refine henvp.congr fun x hx a h1 h2 => ?_
    have hx' := hfar x (List.mem_append_right _ hx)
    rw [hkeep₃ a (by omega) (by omega), hheaderKeep x (List.mem_append_right _ hx) a h1 h2]
  obtain ⟨m₄, m₅, hwrite₄, hterm₄, hentries₄, hended₄, hkeep₅⟩ := henv₃.written kptr
    (32 + (astrs.length + 1) * 8)
    (32 + (astrs.length + 1) * 8 + (estrs.length + 1) * 8 + stringBytes astrs)
    (by omega) hpos (by omega) (by omega) fun x hx => by
      have hx' := hfar x (List.mem_append_right _ hx)
      omega
  rw [hwrite₄]
  dsimp only
  rw [hterm₄]
  have hheader₅ : ∀ a < kptr + 32, m₅ a =
      writeHeader m₁ kptr astrs.length (vaBase random + 32) envField imageBase a :=
    fun a ha => (hkeep₅ a (by omega) (by omega)).trans (hheader₃ a ha)
  refine ⟨m₅, rfl, _, _, blockHolds_of (by omega) hle hfield' hheader₅
    (hentries.view_congr fun x hx => hkeep₅ _ (by omega) (by omega)) ?_
    fun _ => ⟨hentries₄, hended₄⟩⟩
  rw [loadLE_congr fun a h1 h2 => hkeep₅ a (by omega) (by omega), hended]

/-- The argument `"a"` and the environment `"b"`. -/
def smallLists : ℕ → UInt8 :=
  store (storeLE (store (storeLE (fun _ => 0) 0x10000 8 0x10100) 0x10100 [97]) 0x10200 8 0x10300)
    0x10300 [98]

/-- Both are in the block. -/
theorem passArgs_holds_small : StringList smallLists 0x10000 [0x10100] [[97]] ∧
    StringListOrNull smallLists 0x10200 [0x10300] [[98]] ∧
    ∃ m', xtPassArgs freshExec smallLists 0x10000 0x10200 0x5000 0x400000 =
        some (m', 0xffff800000400000) ∧
      ∃ aptrs eptrs, BlockHolds (userView m' 0xffff800000400000 (vaBase 0x5000)) (vaBase 0x5000)
        (pagesOf (blockSize [[97]] [[98]])) (vaBase 0x5000 + 32) (vaBase 0x5000 + 32 + 2 * 8)
        aptrs eptrs [[97]] [[98]] := by
  have hargs : StringList smallLists 0x10000 [0x10100] [[97]] :=
    ⟨⟨⟨by decide, by decide +kernel, by decide +kernel, by simp⟩, trivial⟩, by decide +kernel⟩
  have henv : StringListOrNull smallLists 0x10200 [0x10300] [[98]] :=
    ⟨⟨⟨by decide, by decide +kernel, by decide +kernel, by simp⟩, trivial⟩, by decide +kernel⟩
  have hnew : NewPages freshExec smallLists (regions 0x10000 [0x10100] [[97]] ++
      if 0x10200 = 0 then [] else regions 0x10200 [0x10300] [[98]]) := by
    intro n m' p h
    have hpages : (if n ≤ 2 ^ 20 then some (smallLists, 0xffff800000400000) else none) =
      some (m', p) := h
    split_ifs at hpages
    obtain ⟨rfl, rfl⟩ := Prod.mk.inj (Option.some.inj hpages)
    exact ⟨fun _ _ _ _ _ => rfl, fun x hx => .inl (by revert x; decide)⟩
  exact ⟨hargs, henv, passArgs_holds freshExec smallLists 0x5000 0x400000 hargs henv hnew
    (by decide) rfl⟩

end XTOS.User

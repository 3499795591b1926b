import Mathlib.Data.BitVec
import XTOS.Lib.Radix
import XTOS.Lib.Run
import XTOS.Result

/-!
# Process handles

The handle table of a process (`xtkernel/process.c`): a four-level radix tree of
512-entry tables whose last level points to descriptors. Tables and descriptors are
heap objects, and a call that runs out of memory leaves the tables it made so far.

## Main definitions

- `State` — the heap objects and the root pointer of one process
- `xtResolveHandle`, `xtGetHandle`, `xtDuplicateHandle` — the modelled functions
- `WellFormed` — the tables form an unshared tree and its leaves are descriptors
- `lookup` — what `xtGetHandle` shows of a handle

## Design notes

The pointers to the process and to the caller's result are not null. A lookup starts
from a null result pointer, as the callers in `xtkernel/user.c` do.
-/

namespace XTOS.Handle

open SysLib

/-- `XTDescriptor`. -/
structure XTDescriptor where
  desc : ℕ
  type : BitVec 32
  access : BitVec 32
  deriving DecidableEq, Repr

/-- `XTDescriptorTable`: pointers to sub-tables or, in a table of the last level, to
    descriptors. -/
structure XTDescriptorTable where
  entries : Fin 512 → ℕ

/-- The heap objects by address. -/
structure Heap where
  tables : ℕ → Option XTDescriptorTable
  descriptors : ℕ → Option XTDescriptor

/-- One process with its root pointer, zero when there is no table yet. -/
structure State where
  heap : Heap
  descriptorRoot : ℕ

/-- `xtHeapAlloc`: it fails, or returns the address of memory that nobody uses. -/
structure HeapAlloc where
  alloc : Heap → ℕ → Except XTResult ℕ
  fresh : ∀ {H : Heap} {size a : ℕ}, alloc H size = .ok a →
    a ≠ 0 ∧ H.tables a = none ∧ H.descriptors a = none
  error : ∀ {H : Heap} {size : ℕ} {r : XTResult}, alloc H size = .error r → r.isError

/-- A pointer to a table pointer: the root field or an entry of a table. -/
inductive Slot where
  | root
  | entry (table : ℕ) (i : Fin 512)
  deriving DecidableEq, Repr

/-- The pointer stored in a slot. -/
def State.read (s : State) : Slot → ℕ
  | .root => s.descriptorRoot
  | .entry a i =>
    match s.heap.tables a with
    | some table => table.entries i
    | none => 0

/-- Store a pointer in a slot. -/
def State.write (s : State) (slot : Slot) (v : ℕ) : State :=
  match slot with
  | .root => { s with descriptorRoot := v }
  | .entry a i =>
    { s with heap := { s.heap with
        tables := Function.update s.heap.tables a
          ((s.heap.tables a).map fun table => ⟨Function.update table.entries i v⟩) } }

/-- A new table with every entry cleared. -/
def State.addTable (s : State) (a : ℕ) : State :=
  { s with heap := { s.heap with
      tables := Function.update s.heap.tables a (some ⟨fun _ => 0⟩) } }

/-- A new descriptor. -/
def State.addDescriptor (s : State) (a : ℕ) (d : XTDescriptor) : State :=
  { s with heap := { s.heap with
      descriptors := Function.update s.heap.descriptors a (some d) } }

/-- `sign_ext`: the sign bit is flipped and subtracted, the bits above it are kept. -/
def signExt (value : BitVec 64) (bits : ℕ) : BitVec 64 :=
  let m := 1#64 <<< (bits - 1)
  (value ^^^ m) - m

/-- The range check of `xtGetHandle` and `xtDuplicateHandle`. -/
def Accepted (handle : BitVec 64) : Prop := handle = signExt handle 35

instance (handle : BitVec 64) : Decidable (Accepted handle) :=
  inferInstanceAs (Decidable (_ = _))

/-- `indices[i]`: nine bits of the handle. -/
def indices (handle : BitVec 64) (i : ℕ) : Fin 512 :=
  ⟨(handle >>> (i * 9) &&& 0x1FF#64).toNat, by
    rw [BitVec.toNat_and]
    exact lt_of_le_of_lt Nat.and_le_right (by decide)⟩

/-- The table a slot points to. A missing one is made, cleared and stored in the slot,
    if `create` gives the allocator to use. -/
def tableAt (create : Option HeapAlloc) (s : State) (current : Slot) : State × Option ℕ :=
  if s.read current = 0 then
    match create with
    | none => (s, none)
    | some heapAlloc =>
      match heapAlloc.alloc s.heap 4096 with
      | .error _ => (s, none)
      | .ok newTable => ((s.addTable newTable).write current newTable, some newTable)
  else (s, some (s.read current))

/-- The loop of `xtResolveHandle` over the levels `level` to 1. -/
def resolveLevels (create : Option HeapAlloc) (handle : BitVec 64) :
    ℕ → State → Slot → State × Option Slot
  | 0, s, current => (s, some current)
  | level + 1, s, current =>
    match tableAt create s current with
    | (s', none) => (s', none)
    | (s', some table) =>
      resolveLevels create handle level s' (.entry table (indices handle (level + 1)))

/-- `xtResolveHandle`: the slot of a handle, or none. -/
def xtResolveHandle (s : State) (handle : BitVec 64) (create : Option HeapAlloc) :
    State × Option Slot :=
  match resolveLevels create handle 3 s .root with
  | (s', none) => (s', none)
  | (s', some current) =>
    match tableAt create s' current with
    | (s'', none) => (s'', none)
    | (s'', some table) => (s'', some (.entry table (indices handle 0)))

/-- `xtGetHandle`; `out` is the caller's pointer before the call. -/
def xtGetHandle (s : State) (handle : BitVec 64) (out : ℕ) : State × XTResult × ℕ :=
  if ¬ Accepted handle then (s, .invalidParameter, out)
  else
    match xtResolveHandle s handle none with
    | (s', none) => (s', .notFound, out)
    | (s', some entry) =>
      (s', if s'.read entry ≠ 0 then .success else .notFound, s'.read entry)

/-- `xtDuplicateHandle`; the new descriptor takes 16 bytes. -/
def xtDuplicateHandle (heapAlloc : HeapAlloc) (s : State) (handle : BitVec 64)
    (access type : BitVec 32) (desc : ℕ) : State × XTResult :=
  if ¬ Accepted handle then (s, .invalidParameter)
  else
    match xtResolveHandle s handle (some heapAlloc) with
    | (s', none) => (s', .outOfMemory)
    | (s', some entry) =>
      match heapAlloc.alloc s'.heap 16 with
      | .error r => (s', r)
      | .ok newDesc =>
        ((s'.addDescriptor newDesc { access := access, type := type, desc := desc }).write
          entry newDesc, .success)

/-- What a lookup shows: the result, the descriptor's address and its fields. -/
def lookup (s : State) (handle : BitVec 64) : XTResult × ℕ × Option XTDescriptor :=
  let (_, result, out) := xtGetHandle s handle 0
  (result, out, s.heap.descriptors out)

/-- A process without any handle table. -/
def State.Initial (s : State) : Prop := s.descriptorRoot = 0

/-- One call of `xtDuplicateHandle`, whether it succeeds or not. -/
def State.Step (s s' : State) : Prop :=
  ∃ heapAlloc handle access type desc,
    s' = (xtDuplicateHandle heapAlloc s handle access type desc).1

/-! ### Handles and their indices -/

/-- The indices of a handle from the root down. -/
def path (handle : BitVec 64) : List (Fin 512) :=
  [indices handle 3, indices handle 2, indices handle 1, indices handle 0]

theorem indices_val (handle : BitVec 64) (i : ℕ) :
    (indices handle i).val = handle.toNat / 2 ^ (i * 9) % 512 := by
  simp only [indices, BitVec.toNat_and, BitVec.toNat_ushiftRight, Nat.shiftRight_eq_div_pow]
  exact Nat.and_two_pow_sub_one_eq_mod _ 9

/-- Two handles have the same path exactly when their low 36 bits agree. -/
theorem path_eq_iff (h h' : BitVec 64) :
    path h' = path h ↔ h'.toNat % 2 ^ 36 = h.toNat % 2 ^ 36 := by
  simp only [path, List.cons.injEq, and_true, Fin.ext_iff, indices_val]
  norm_num
  omega

/-! ### The tree of tables -/

/-- Slot `i` of the table an entry points to; entries at depth 4 point to descriptors. -/
def child (n : ℕ) (e : ℕ) (i : Fin 512) : Option Slot :=
  if e ≠ 0 ∧ n < 4 then some (.entry e i) else none

/-- The pointer stored for a path of indices, zero if a table is missing on the way. -/
def State.find (s : State) (p : List (Fin 512)) : ℕ :=
  s.read (Radix.stop child s.read 0 .root p).1

/-- The tables are allocated and form an unshared tree with descriptors at depth 4. -/
structure WellFormed (s : State) (owner : Slot → Option (List (Fin 512))) : Prop where
  owned : Radix.Owned child s.read .root owner
  stored : ∀ a i, owner (.entry a i) ≠ none → s.heap.tables a ≠ none
  leaf : ∀ slot p, owner slot = some p → p.length = 4 → s.read slot ≠ 0 →
    s.heap.descriptors (s.read slot) ≠ none

/-- Without a handle table no handle is found. -/
theorem State.Initial.lookup {s : State} (h : s.Initial) (handle : BitVec 64) :
    lookup s handle = (if Accepted handle then .notFound else .invalidParameter, 0,
      s.heap.descriptors 0) := by
  have hroot : s.descriptorRoot = 0 := h
  have hresolve : xtResolveHandle s handle none = (s, none) := by
    simp [xtResolveHandle, resolveLevels, tableAt, State.read, hroot]
  unfold Handle.lookup xtGetHandle
  split_ifs <;> simp_all

theorem State.Initial.wellFormed {s : State} (h : s.Initial) :
    WellFormed s (fun slot => if slot = .root then some [] else none) := by
  have hread : s.read .root = 0 := h
  refine ⟨⟨by simp, ?_⟩, ?_, ?_⟩
  · intro slot slot' p i hp hc
    have hslot : slot = .root := by
      by_contra hne
      simp [hne] at hp
    simp [hslot, child, hread] at hc
  · intro a i hne
    simp at hne
  · intro slot p hp hlen
    split at hp
    · cases hp
      simp at hlen
    · cases hp

theorem read_write_self {s : State} {slot : Slot} (v : ℕ)
    (h : ∀ a i, slot = .entry a i → s.heap.tables a ≠ none) : (s.write slot v).read slot = v := by
  cases slot with
  | root => rfl
  | entry a i =>
    obtain ⟨table, ht⟩ := Option.ne_none_iff_exists'.mp (h a i rfl)
    simp [State.write, State.read, ht]

theorem read_write_of_ne (s : State) {slot slot' : Slot} (v : ℕ) (h : slot' ≠ slot) :
    (s.write slot v).read slot' = s.read slot' := by
  cases slot with
  | root =>
    cases slot' with
    | root => exact absurd rfl h
    | entry b j => rfl
  | entry a i =>
    cases slot' with
    | root => rfl
    | entry b j =>
      by_cases hb : b = a
      · subst b
        have hj : j ≠ i := by
          rintro rfl
          exact h rfl
        cases ht : s.heap.tables a with
        | none => simp [State.write, State.read, ht]
        | some table => simp [State.write, State.read, ht, hj]
      · simp [State.write, State.read, hb]

@[simp] theorem write_descriptors (s : State) (slot : Slot) (v : ℕ) :
    (s.write slot v).heap.descriptors = s.heap.descriptors := by
  cases slot <;> rfl

/-- A store allocates and frees nothing. -/
theorem write_tables_ne_none (s : State) (slot : Slot) (v : ℕ) (a : ℕ) :
    (s.write slot v).heap.tables a ≠ none ↔ s.heap.tables a ≠ none := by
  cases slot with
  | root => rfl
  | entry b i =>
    by_cases h : a = b
    · subst a
      simp [State.write]
    · simp [State.write, h]

@[simp] theorem read_addTable_self (s : State) (b : ℕ) (i : Fin 512) :
    (s.addTable b).read (.entry b i) = 0 := by
  simp [State.addTable, State.read]

theorem read_addTable_of_ne (s : State) {b : ℕ} {slot : Slot} (h : ∀ i, slot ≠ .entry b i) :
    (s.addTable b).read slot = s.read slot := by
  cases slot with
  | root => rfl
  | entry a i =>
    have hab : a ≠ b := by
      rintro rfl
      exact h i rfl
    simp [State.addTable, State.read, hab]

section find

variable {s : State} {current : Slot} {p : List (Fin 512)}

/-- Below an empty slot every pointer is null. -/
theorem find_of_read_eq_zero (hreach : Radix.stop child s.read 0 .root p = (current, []))
    (hzero : s.read current = 0) (rest : List (Fin 512)) : s.find (p ++ rest) = 0 := by
  rw [State.find, Radix.stop_append hreach]
  cases rest with
  | nil => exact hzero
  | cons i rest =>
    rw [Radix.stop_cons_of_none]
    · exact hzero
    · simp [child, hzero]

/-- A non-empty slot at depth below 4 leads to the table it points to. -/
theorem stop_entry (hreach : Radix.stop child s.read 0 .root p = (current, []))
    (hp : p.length < 4) (hne : s.read current ≠ 0) (i : Fin 512) :
    Radix.stop child s.read 0 .root (p ++ [i]) = (.entry (s.read current) i, []) := by
  rw [Radix.stop_append hreach, zero_add, Radix.stop_cons_of_some, Radix.stop_nil]
  simp [child, hne, hp]

end find

/-- The labels after table `b` was made below the slot of path `p`. -/
def grownOwner (owner : Slot → Option (List (Fin 512))) (p : List (Fin 512)) (b : ℕ) :
    Slot → Option (List (Fin 512))
  | .root => owner .root
  | .entry a i => if a = b then some (p ++ [i]) else owner (.entry a i)

section grow

variable {s : State} {owner : Slot → Option (List (Fin 512))} {current : Slot}
  {p : List (Fin 512)} {b : ℕ}

theorem WellFormed.not_owned (h : WellFormed s owner) (hfree : s.heap.tables b = none)
    (i : Fin 512) : owner (.entry b i) = none := by
  by_contra hne
  exact h.stored b i hne hfree

/-- An owned slot is not part of a table that is just being made. -/
theorem WellFormed.ne_entry (h : WellFormed s owner) (hfree : s.heap.tables b = none)
    {slot : Slot} (hs : owner slot ≠ none) (i : Fin 512) : slot ≠ .entry b i := by
  rintro rfl
  exact hs (h.not_owned hfree i)

theorem WellFormed.read_grow (h : WellFormed s owner) (hfree : s.heap.tables b = none)
    {slot : Slot} (hne : slot ≠ current) (hs : owner slot ≠ none) :
    ((s.addTable b).write current b).read slot = s.read slot := by
  rw [read_write_of_ne _ _ hne, read_addTable_of_ne _ (h.ne_entry hfree hs)]

theorem WellFormed.read_grow_self (h : WellFormed s owner) (hfree : s.heap.tables b = none)
    (hcur : owner current = some p) : ((s.addTable b).write current b).read current = b := by
  apply read_write_self
  rintro a i rfl
  have hab : a ≠ b := by
    rintro rfl
    exact h.ne_entry hfree (by simp [hcur]) i rfl
  simpa [State.addTable, hab] using h.stored a i (by simp [hcur])

theorem WellFormed.read_grow_new (h : WellFormed s owner) (hfree : s.heap.tables b = none)
    (hcur : owner current = some p) (i : Fin 512) :
    ((s.addTable b).write current b).read (.entry b i) = 0 := by
  rw [read_write_of_ne _ _ (h.ne_entry hfree (by simp [hcur]) i).symm, read_addTable_self]

theorem WellFormed.grow (h : WellFormed s owner) (hcur : owner current = some p)
    (hp : p.length < 4) (hfree : s.heap.tables b = none) :
    WellFormed ((s.addTable b).write current b) (grownOwner owner p b) := by
  have hkeep : ∀ slot, owner slot ≠ none → grownOwner owner p b slot = owner slot := by
    intro slot hs
    cases slot with
    | root => rfl
    | entry a i =>
      have hab : a ≠ b := by
        rintro rfl
        exact hs (h.not_owned hfree i)
      simp [grownOwner, hab]
  -- the slots that get a label are those of the new table
  have hfresh : ∀ slot q, owner slot = none → grownOwner owner p b slot = some q →
      ∃ i, slot = .entry b i ∧ q = p ++ [i] := by
    intro slot q ho hg
    cases slot with
    | root =>
      rw [show grownOwner owner p b .root = owner .root from rfl, ho] at hg
      cases hg
    | entry a i =>
      by_cases hab : a = b
      · subst a
        simp only [grownOwner, if_true, Option.some.injEq] at hg
        exact ⟨i, rfl, hg.symm⟩
      · simp [grownOwner, hab, ho] at hg
  refine ⟨?_, ?_, ?_⟩
  · refine h.owned.update hcur (fun slot hne hs => h.read_grow hfree hne hs) hkeep ?_ ?_
    · intro i slot' hc
      rw [h.read_grow_self hfree hcur] at hc
      simp only [child, Option.ite_none_right_eq_some, Option.some.injEq] at hc
      rw [← hc.2]
      simp [grownOwner]
    · intro slot q i ho hg
      obtain ⟨j, rfl, -⟩ := hfresh slot q ho hg
      rw [h.read_grow_new hfree hcur]
      rfl
  · intro a i hs
    rw [write_tables_ne_none]
    by_cases hab : a = b
    · simp [State.addTable, hab]
    · simpa [State.addTable, hab] using h.stored a i (by simpa [grownOwner, hab] using hs)
  · intro slot q hq hlen hne
    rw [write_descriptors]
    cases ho : owner slot with
    | none =>
      obtain ⟨i, rfl, -⟩ := hfresh slot q ho hq
      exact absurd (h.read_grow_new hfree hcur i) hne
    | some q' =>
      rw [hkeep slot (by simp [ho]), ho] at hq
      cases hq
      have hsc : slot ≠ current := by
        rintro rfl
        rw [hcur] at ho
        cases ho
        omega
      rw [h.read_grow hfree hsc (by simp [ho])] at hne ⊢
      exact h.leaf slot q ho hlen hne

/-- The walk to the slot that got the table is the same. -/
theorem WellFormed.stop_grow (h : WellFormed s owner) (hcur : owner current = some p)
    (hfree : s.heap.tables b = none)
    (hreach : Radix.stop child s.read 0 .root p = (current, [])) :
    Radix.stop child ((s.addTable b).write current b).read 0 .root p = (current, []) :=
  Radix.stop_congr_self h.owned hcur (fun _ hne hs => h.read_grow hfree hne hs) h.owned.root rfl
    hreach

/-- An empty table in an empty slot: every handle still has the pointer it had. -/
theorem WellFormed.find_grow (h : WellFormed s owner) (hcur : owner current = some p)
    (hp : p.length < 4) (hzero : s.read current = 0) (hb : b ≠ 0)
    (hfree : s.heap.tables b = none)
    (hreach : Radix.stop child s.read 0 .root p = (current, [])) {q : List (Fin 512)}
    (hq : q.length = 4) : ((s.addTable b).write current b).find q = s.find q := by
  by_cases hpre : p <+: q
  · obtain ⟨rest, rfl⟩ := hpre
    cases rest with
    | nil => simp [hp.ne] at hq
    | cons i rest =>
      have hread := h.read_grow_self hfree hcur
      have hstop := stop_entry (h.stop_grow hcur hfree hreach) hp (by rwa [hread]) i
      rw [find_of_read_eq_zero hreach hzero, List.append_cons]
      apply find_of_read_eq_zero hstop
      rw [hread]
      exact h.read_grow_new hfree hcur i
  · obtain ⟨hstop, hread⟩ := Radix.stop_congr h.owned hcur
      (fun _ hne hs => h.read_grow hfree hne hs) h.owned.root hpre
    rw [State.find, State.find]
    rw [List.length_nil] at hstop hread
    rw [hstop, hread]

end grow

/-! ### Looking a handle up -/

/-- The indices the loop of `xtResolveHandle` uses from level `level` down to 1. -/
def levelIndices (handle : BitVec 64) : ℕ → List (Fin 512)
  | 0 => []
  | level + 1 => indices handle (level + 1) :: levelIndices handle level

@[simp] theorem length_levelIndices (handle : BitVec 64) (level : ℕ) :
    (levelIndices handle level).length = level := by
  induction level with
  | zero => rfl
  | succ level ih => rw [levelIndices, List.length_cons, ih]

theorem path_eq_levelIndices (handle : BitVec 64) :
    path handle = levelIndices handle 3 ++ [indices handle 0] := rfl

section find

variable {s : State} {current : Slot} {p : List (Fin 512)}

theorem resolveLevels_none (handle : BitVec 64) (level : ℕ)
    (hreach : Radix.stop child s.read 0 .root p = (current, [])) (hp : p.length + level ≤ 3) :
    ∃ found, resolveLevels none handle level s current = (s, found) ∧
      match found with
      | some slot =>
        Radix.stop child s.read 0 .root (p ++ levelIndices handle level) = (slot, [])
      | none => ∀ rest, s.find (p ++ levelIndices handle level ++ rest) = 0 := by
  induction level generalizing p current with
  | zero => exact ⟨some current, rfl, by simpa [levelIndices] using hreach⟩
  | succ level ih =>
    by_cases hzero : s.read current = 0
    · refine ⟨none, by simp [resolveLevels, tableAt, hzero], fun rest => ?_⟩
      rw [List.append_assoc]
      exact find_of_read_eq_zero hreach hzero _
    · have hstop := stop_entry hreach (by omega) hzero (indices handle (level + 1))
      obtain ⟨found, hres, hfound⟩ := ih hstop (by
        rw [List.length_append, List.length_singleton]
        omega)
      refine ⟨found, by simpa [resolveLevels, tableAt, hzero] using hres, ?_⟩
      simpa [levelIndices] using hfound

/-- A lookup returns the pointer stored for the handle's path and changes nothing. -/
theorem xtResolveHandle_none (s : State) (handle : BitVec 64) :
    ∃ found, xtResolveHandle s handle none = (s, found) ∧
      match found with
      | some slot => s.read slot = s.find (path handle)
      | none => s.find (path handle) = 0 := by
  obtain ⟨found, hres, hfound⟩ := @resolveLevels_none s .root [] handle 3 rfl le_rfl
  rw [List.nil_append] at hfound
  cases found with
  | none => exact ⟨none, by simp [xtResolveHandle, hres], hfound _⟩
  | some current =>
    by_cases hzero : s.read current = 0
    · refine ⟨none, by simp [xtResolveHandle, hres, tableAt, hzero], ?_⟩
      exact find_of_read_eq_zero hfound hzero _
    · refine ⟨some (.entry (s.read current) (indices handle 0)), by
        simp [xtResolveHandle, hres, tableAt, hzero], ?_⟩
      have hstop := stop_entry hfound (by simp) hzero (indices handle 0)
      rw [← path_eq_levelIndices] at hstop
      simp only [State.find, hstop]

theorem xtGetHandle_state (s : State) (handle : BitVec 64) (out : ℕ) :
    (xtGetHandle s handle out).1 = s := by
  obtain ⟨found, hres, -⟩ := xtResolveHandle_none s handle
  by_cases hacc : Accepted handle
  · cases found with
    | none => simp [xtGetHandle, hacc, hres]
    | some slot => simp [xtGetHandle, hacc, hres]
  · simp [xtGetHandle, hacc]

theorem xtGetHandle_eq {handle : BitVec 64} (hacc : Accepted handle) :
    xtGetHandle s handle 0 =
      (s, if s.find (path handle) ≠ 0 then .success else .notFound, s.find (path handle)) := by
  obtain ⟨found, hres, hfound⟩ := xtResolveHandle_none s handle
  cases found with
  | none => simp [xtGetHandle, hacc, hres, show s.find (path handle) = 0 from hfound]
  | some slot => simp [xtGetHandle, hacc, hres, show s.read slot = _ from hfound]

theorem lookup_eq {handle : BitVec 64} (hacc : Accepted handle) :
    lookup s handle = (if s.find (path handle) ≠ 0 then .success else .notFound,
      s.find (path handle), s.heap.descriptors (s.find (path handle))) := by
  rw [lookup, xtGetHandle_eq hacc]

end find

/-! ### Installing a handle -/

/-- Both states show the same pointer for every handle and the same descriptors. -/
structure SameHandles (s s' : State) : Prop where
  find : ∀ q : List (Fin 512), q.length = 4 → s'.find q = s.find q
  descriptors : s'.heap.descriptors = s.heap.descriptors

theorem SameHandles.refl (s : State) : SameHandles s s := ⟨fun _ _ => rfl, rfl⟩

theorem SameHandles.trans {s s' s'' : State} (h : SameHandles s s') (h' : SameHandles s' s'') :
    SameHandles s s'' :=
  ⟨fun q hq => (h'.find q hq).trans (h.find q hq), h'.descriptors.trans h.descriptors⟩

/-- Slot `slot` is in the tree, at path `p`. -/
structure At (s : State) (owner : Slot → Option (List (Fin 512))) (p : List (Fin 512))
    (slot : Slot) : Prop where
  wellFormed : WellFormed s owner
  owner : owner slot = some p
  reach : Radix.stop child s.read 0 .root p = (slot, [])

/-- Only tables of the tree and tables that were not in use are written or join the tree. -/
structure Frame (s : State) (owner : Slot → Option (List (Fin 512))) (s' : State)
    (owner' : Slot → Option (List (Fin 512))) : Prop where
  joins : ∀ a i, owner' (.entry a i) ≠ none →
    (∃ j, owner (.entry a j) ≠ none) ∨ s.heap.tables a = none
  tables : ∀ a, s.heap.tables a ≠ none → (∀ i, owner (.entry a i) = none) →
    s'.heap.tables a = s.heap.tables a

theorem Frame.refl (s : State) (owner : Slot → Option (List (Fin 512))) :
    Frame s owner s owner :=
  ⟨fun _ i h => .inl ⟨i, h⟩, fun _ _ _ => rfl⟩

theorem Frame.trans {s s' s'' : State} {owner owner' owner'' : Slot → Option (List (Fin 512))}
    (h : Frame s owner s' owner') (h' : Frame s' owner' s'' owner'') :
    Frame s owner s'' owner'' := by
  -- a table of another tree is not in the grown tree either, and still in use
  have hkeep : ∀ a, s.heap.tables a ≠ none → (∀ i, owner (.entry a i) = none) →
      s'.heap.tables a = s.heap.tables a ∧ ∀ i, owner' (.entry a i) = none := by
    intro a ha hno
    refine ⟨h.tables a ha hno, fun i => ?_⟩
    by_contra hne
    obtain ⟨j, hj⟩ | hfree := h.joins a i hne
    · exact hj (hno j)
    · exact ha hfree
  refine ⟨fun a i hne => ?_, fun a ha hno => ?_⟩
  · by_contra hnot
    push Not at hnot
    obtain ⟨hno, ha⟩ := hnot
    obtain ⟨htable, hno'⟩ := hkeep a ha hno
    obtain ⟨j, hj⟩ | hfree := h'.joins a i hne
    · exact hj (hno' j)
    · exact ha (by rw [← htable, hfree])
  · obtain ⟨htable, hno'⟩ := hkeep a ha hno
    rw [h'.tables a (by rwa [htable]) hno', htable]

/-- A store in a slot of the tree. -/
theorem Frame.write {s : State} {owner : Slot → Option (List (Fin 512))} {slot : Slot}
    (h : owner slot ≠ none) (v : ℕ) : Frame s owner (s.write slot v) owner := by
  refine ⟨fun _ i hne => .inl ⟨i, hne⟩, fun a _ hno => ?_⟩
  cases slot with
  | root => rfl
  | entry b i =>
    have hab : a ≠ b := by
      rintro rfl
      exact h (hno i)
    exact Function.update_of_ne hab _ _

/-- A new table below a slot of the tree. -/
theorem Frame.grow {s : State} {owner : Slot → Option (List (Fin 512))} {current : Slot}
    {p : List (Fin 512)} {b : ℕ} (hcur : owner current = some p)
    (hfree : s.heap.tables b = none) :
    Frame s owner ((s.addTable b).write current b) (grownOwner owner p b) := by
  refine ⟨fun a i hne => ?_, fun a ha hno => ?_⟩
  · by_cases hab : a = b
    · exact .inr (by rwa [hab])
    · exact .inl ⟨i, by simpa [grownOwner, hab] using hne⟩
  · have hab : a ≠ b := by
      rintro rfl
      exact ha hfree
    have hadd : (s.addTable b).heap.tables a = s.heap.tables a := Function.update_of_ne hab _ _
    rw [← hadd]
    exact (Frame.write (s := s.addTable b) (by simp [hcur]) b).tables a (by rwa [hadd]) hno

section install

variable {s : State} {owner : Slot → Option (List (Fin 512))} {current : Slot}
  {p : List (Fin 512)} {heapAlloc : HeapAlloc}

/-- Going one level down, to a table that is there or is made, shows the same handles. -/
theorem At.tableAt (h : At s owner p current) (hp : p.length < 4) (heapAlloc : HeapAlloc) :
    ∃ s' found owner', tableAt (some heapAlloc) s current = (s', found) ∧
      WellFormed s' owner' ∧ SameHandles s s' ∧ Frame s owner s' owner' ∧
      ∀ t, found = some t → ∀ i, At s' owner' (p ++ [i]) (.entry t i) := by
  have hdown : ∀ {s' owner'}, At s' owner' p current → s'.read current ≠ 0 → ∀ i,
      At s' owner' (p ++ [i]) (.entry (s'.read current) i) := by
    intro s' owner' h' hne i
    refine ⟨h'.wellFormed, ?_, stop_entry h'.reach hp hne i⟩
    exact h'.wellFormed.owned.child h'.owner (by simp [child, hne, hp])
  by_cases hzero : s.read current = 0
  · cases ha : heapAlloc.alloc s.heap 4096 with
    | error r =>
      exact ⟨s, none, owner, by simp [Handle.tableAt, hzero, ha], h.wellFormed,
        .refl s, .refl s owner, by simp⟩
    | ok b =>
      obtain ⟨hb, hfree, -⟩ := heapAlloc.fresh ha
      have hw := h.wellFormed
      have hread := hw.read_grow_self hfree h.owner
      have howner : grownOwner owner p b current = some p := by
        cases current with
        | root => exact h.owner
        | entry a i =>
          have hab : a ≠ b := by
            rintro rfl
            exact hw.ne_entry hfree (by simp [h.owner]) i rfl
          simpa [grownOwner, hab] using h.owner
      have hat : At ((s.addTable b).write current b) (grownOwner owner p b) p current :=
        ⟨hw.grow h.owner hp hfree, howner, hw.stop_grow h.owner hfree h.reach⟩
      refine ⟨(s.addTable b).write current b, some b, grownOwner owner p b, by
        simp [Handle.tableAt, hzero, ha], hat.wellFormed, ⟨?_, ?_⟩, .grow h.owner hfree, ?_⟩
      · intro q hq
        exact hw.find_grow h.owner hp hzero hb hfree h.reach hq
      · rw [write_descriptors]
        rfl
      · rintro t ⟨⟩ i
        have hat' := hdown hat (by rwa [hread]) i
        rwa [hread] at hat'
  · refine ⟨s, some (s.read current), owner, by simp [Handle.tableAt, hzero], h.wellFormed,
      .refl s, .refl s owner, ?_⟩
    rintro t ⟨⟩ i
    exact hdown h hzero i

theorem At.resolveLevels (h : At s owner p current) (heapAlloc : HeapAlloc)
    (handle : BitVec 64) (level : ℕ) (hp : p.length + level ≤ 3) :
    ∃ s' found owner', resolveLevels (some heapAlloc) handle level s current = (s', found) ∧
      WellFormed s' owner' ∧ SameHandles s s' ∧ Frame s owner s' owner' ∧
      ∀ slot, found = some slot → At s' owner' (p ++ levelIndices handle level) slot := by
  induction level generalizing s owner p current with
  | zero =>
    refine ⟨s, some current, owner, rfl, h.wellFormed, .refl s, .refl s owner, ?_⟩
    rintro slot ⟨⟩
    simpa [levelIndices] using h
  | succ level ih =>
    obtain ⟨s', found, owner', htable, hw, hsame, hframe, hat⟩ := h.tableAt (by omega) heapAlloc
    cases found with
    | none =>
      exact ⟨s', none, owner', by simp [Handle.resolveLevels, htable], hw, hsame, hframe, by simp⟩
    | some t =>
      obtain ⟨s'', found, owner'', hres, hw', hsame', hframe', hat'⟩ :=
        ih (hat t rfl (indices handle (level + 1))) (by
          rw [List.length_append, List.length_singleton]
          omega)
      refine ⟨s'', found, owner'', by simpa [Handle.resolveLevels, htable] using hres, hw',
        hsame.trans hsame', hframe.trans hframe', fun slot hslot => ?_⟩
      simpa [levelIndices] using hat' slot hslot

theorem WellFormed.xtResolveHandle (h : WellFormed s owner) (heapAlloc : HeapAlloc)
    (handle : BitVec 64) :
    ∃ s' found owner', xtResolveHandle s handle (some heapAlloc) = (s', found) ∧
      WellFormed s' owner' ∧ SameHandles s s' ∧ Frame s owner s' owner' ∧
      ∀ slot, found = some slot → At s' owner' (path handle) slot := by
  have hroot : At s owner [] .root := ⟨h, h.owned.root, rfl⟩
  obtain ⟨s', found, owner', hres, hw, hsame, hframe, hat⟩ :=
    hroot.resolveLevels heapAlloc handle 3 le_rfl
  cases found with
  | none =>
    exact ⟨s', none, owner', by simp [Handle.xtResolveHandle, hres], hw, hsame, hframe, by simp⟩
  | some current =>
    obtain ⟨s'', found, owner'', htable, hw', hsame', hframe', hat'⟩ :=
      (hat current rfl).tableAt (by simp) heapAlloc
    cases found with
    | none =>
      exact ⟨s'', none, owner'', by simp [Handle.xtResolveHandle, hres, htable], hw',
        hsame.trans hsame', hframe.trans hframe', by simp⟩
    | some t =>
      refine ⟨s'', some (.entry t (indices handle 0)), owner'', by
        simp [Handle.xtResolveHandle, hres, htable], hw', hsame.trans hsame',
        hframe.trans hframe', ?_⟩
      rintro slot ⟨⟩
      exact hat' t rfl (indices handle 0)

/-- A descriptor stored at the end of a path is found there, and nowhere else. -/
theorem At.install (h : At s owner p current) (hp : p.length = 4) {a : ℕ}
    (d : XTDescriptor) :
    WellFormed ((s.addDescriptor a d).write current a) owner ∧
      ∀ q : List (Fin 512), q.length = 4 →
        ((s.addDescriptor a d).write current a).find q = if q = p then a else s.find q := by
  have hw := h.wellFormed
  have hself : ((s.addDescriptor a d).write current a).read current = a := by
    apply read_write_self
    rintro b i rfl
    exact hw.stored b i (by simp [h.owner])
  have hread : ∀ slot, slot ≠ current → owner slot ≠ none →
      ((s.addDescriptor a d).write current a).read slot = s.read slot := by
    intro slot hne _
    rw [read_write_of_ne _ _ hne]
    rfl
  refine ⟨⟨?_, ?_, ?_⟩, ?_⟩
  · refine hw.owned.update h.owner hread (fun _ _ => rfl) ?_ ?_
    · intro i slot' hc
      simp [child, hp] at hc
    · intro slot q i ho ho'
      rw [ho] at ho'
      cases ho'
  · intro b i hs
    rw [write_tables_ne_none]
    exact hw.stored b i hs
  · intro slot q hq hlen hne
    rw [write_descriptors]
    by_cases hsc : slot = current
    · subst slot
      rw [hself]
      simp [State.addDescriptor]
    · rw [hread slot hsc (by simp [hq])] at hne ⊢
      have hold := hw.leaf slot q hq hlen hne
      by_cases ha : s.read slot = a
      · simp [State.addDescriptor, ha]
      · simpa [State.addDescriptor, ha] using hold
  · intro q hq
    by_cases hqp : q = p
    · subst q
      have hstop := Radix.stop_congr_self hw.owned h.owner hread hw.owned.root rfl h.reach
      rw [List.length_nil] at hstop
      rw [if_pos rfl, State.find, hstop, hself]
    · have hmiss : ¬ p <+: [] ++ q := by
        intro hpre
        exact hqp (hpre.eq_of_length (by rw [hp, List.nil_append, hq])).symm
      obtain ⟨hstop, hsame⟩ := Radix.stop_congr hw.owned h.owner hread hw.owned.root hmiss
      rw [List.length_nil] at hstop hsame
      rw [if_neg hqp, State.find, State.find, hstop, hsame]

end install

/-- What a call does: it fails and shows the same handles, or it installs a new
    descriptor at the path of its handle. -/
inductive Duplicated (s : State) (handle : BitVec 64) (d : XTDescriptor) :
    State × XTResult → Prop
  | failed {s' : State} {r : XTResult} {owner' : Slot → Option (List (Fin 512))}
      (hr : r.isError) (hw : WellFormed s' owner') (hsame : SameHandles s s') :
      Duplicated s handle d (s', r)
  | installed {s' : State} {a : ℕ} {owner' : Slot → Option (List (Fin 512))}
      (hw : WellFormed s' owner') (ha : a ≠ 0) (hfree : s.heap.descriptors a = none)
      (hdesc : s'.heap.descriptors = Function.update s.heap.descriptors a (some d))
      (hfind : ∀ q : List (Fin 512), q.length = 4 →
        s'.find q = if q = path handle then a else s.find q) :
      Duplicated s handle d (s', .success)

theorem WellFormed.duplicated {s : State} {owner : Slot → Option (List (Fin 512))}
    (h : WellFormed s owner) (heapAlloc : HeapAlloc) (handle : BitVec 64)
    (access type : BitVec 32) (desc : ℕ) :
    Duplicated s handle { access := access, type := type, desc := desc }
      (xtDuplicateHandle heapAlloc s handle access type desc) := by
  by_cases hacc : Accepted handle
  · obtain ⟨s', found, owner', hres, hw, hsame, -, hat⟩ := h.xtResolveHandle heapAlloc handle
    cases found with
    | none =>
      simp only [xtDuplicateHandle, hacc, not_true_eq_false, if_false, hres]
      exact .failed rfl hw hsame
    | some entry =>
      simp only [xtDuplicateHandle, hacc, not_true_eq_false, if_false, hres]
      cases ha : heapAlloc.alloc s'.heap 16 with
      | error r => exact .failed (heapAlloc.error ha) hw hsame
      | ok a =>
        obtain ⟨hne, -, hfree⟩ := heapAlloc.fresh ha
        obtain ⟨hw', hfind⟩ := (hat entry rfl).install rfl
          { access := access, type := type, desc := desc }
        refine .installed hw' hne (by rw [← hsame.descriptors, hfree]) ?_ ?_
        · rw [write_descriptors, ← hsame.descriptors]
          rfl
        · intro q hq
          rw [hfind q hq, hsame.find q hq]
  · simp only [xtDuplicateHandle, hacc, not_false_eq_true, if_true]
    exact .failed rfl h (.refl s)

/-- The tables of other processes are left alone. -/
theorem WellFormed.duplicated_frame {s : State} {owner : Slot → Option (List (Fin 512))}
    (h : WellFormed s owner) (heapAlloc : HeapAlloc) (handle : BitVec 64)
    (access type : BitVec 32) (desc : ℕ) :
    ∃ owner', WellFormed (xtDuplicateHandle heapAlloc s handle access type desc).1 owner' ∧
      Frame s owner (xtDuplicateHandle heapAlloc s handle access type desc).1 owner' := by
  by_cases hacc : Accepted handle
  · obtain ⟨s', found, owner', hres, hw, hsame, hframe, hat⟩ := h.xtResolveHandle heapAlloc handle
    cases found with
    | none =>
      simp only [xtDuplicateHandle, hacc, not_true_eq_false, if_false, hres]
      exact ⟨owner', hw, hframe⟩
    | some entry =>
      simp only [xtDuplicateHandle, hacc, not_true_eq_false, if_false, hres]
      cases ha : heapAlloc.alloc s'.heap 16 with
      | error r => exact ⟨owner', hw, hframe⟩
      | ok a =>
        have hentry : owner' entry ≠ none := by simp [(hat entry rfl).owner]
        have hwrite : Frame (s'.addDescriptor a { access := access, type := type, desc := desc })
            owner' _ owner' := .write hentry a
        exact ⟨owner', ((hat entry rfl).install rfl _).1,
          hframe.trans ⟨hwrite.joins, hwrite.tables⟩⟩
  · simp only [xtDuplicateHandle, hacc, not_false_eq_true, if_true]
    exact ⟨owner, h, .refl s owner⟩

/-- Every reachable handle table is an unshared tree. -/
theorem wellFormed_of_reachable {s : State} (h : Reachable State.Initial State.Step s) :
    ∃ owner, WellFormed s owner := by
  refine h.invariant (I := fun s => ∃ owner, WellFormed s owner)
    (fun _ hi => ⟨_, hi.wellFormed⟩) ?_
  rintro s s' ⟨owner, hw⟩ ⟨heapAlloc, handle, access, type, desc, rfl⟩
  have hd := hw.duplicated heapAlloc handle access type desc
  generalize xtDuplicateHandle heapAlloc s handle access type desc = out at hd ⊢
  cases hd with
  | failed _ hw' _ => exact ⟨_, hw'⟩
  | installed hw' _ _ _ _ => exact ⟨_, hw'⟩

@[simp] theorem length_path (handle : BitVec 64) : (path handle).length = 4 := rfl

theorem SameHandles.lookup {s s' : State} (h : SameHandles s s') (handle : BitVec 64) :
    lookup s' handle = lookup s handle := by
  by_cases hacc : Accepted handle
  · rw [lookup_eq hacc, lookup_eq hacc, h.find _ (length_path handle), h.descriptors]
  · simp [Handle.lookup, xtGetHandle, hacc, h.descriptors]

/-- The pointer of a handle is null or leads to a descriptor. -/
theorem WellFormed.find_descriptor {s : State} {owner : Slot → Option (List (Fin 512))}
    (h : WellFormed s owner) {q : List (Fin 512)} (hq : q.length = 4) (hne : s.find q ≠ 0) :
    s.heap.descriptors (s.find q) ≠ none := by
  obtain ⟨used, hused, howner, hstuck⟩ := h.owned.stop_owner h.owned.root q
  rw [List.length_nil] at hused howner hstuck
  rw [List.nil_append] at howner hstuck
  refine h.leaf _ used howner ?_ hne
  cases hrest : (Radix.stop child s.read 0 .root q).2 with
  | nil =>
    rw [hrest, List.append_nil] at hused
    rw [← hused, hq]
  | cons i rest =>
    have hlen := congrArg List.length hused
    rw [hrest, List.length_append, List.length_cons] at hlen
    have hc := hstuck i rest hrest
    simp only [child, ite_eq_right_iff, reduceCtorEq, imp_false, not_and, not_lt] at hc
    have := hc hne
    omega

/-- A tree whose tables and descriptors are still there shows the same handles. -/
theorem WellFormed.congr {s s' : State} {owner : Slot → Option (List (Fin 512))}
    (h : WellFormed s owner) (hroot : s'.descriptorRoot = s.descriptorRoot)
    (htables : ∀ a i, owner (.entry a i) ≠ none → s'.heap.tables a = s.heap.tables a)
    (hdesc : ∀ a, a = 0 ∨ s.heap.descriptors a ≠ none →
      s'.heap.descriptors a = s.heap.descriptors a) :
    WellFormed s' owner ∧ ∀ handle, lookup s' handle = lookup s handle := by
  have hread : ∀ slot, owner slot ≠ none → s'.read slot = s.read slot := by
    intro slot hs
    cases slot with
    | root => exact hroot
    | entry a i => simp only [State.read, htables a i hs]
  have hfind : ∀ q, s'.find q = s.find q := by
    intro q
    obtain ⟨used, -, howner, -⟩ := h.owned.stop_owner h.owned.root q
    have hstop := h.owned.stop_congr hread h.owned.root q
    rw [List.length_nil] at howner hstop
    rw [State.find, State.find, hstop, hread _ (by simp [howner])]
  have hw : WellFormed s' owner := by
    refine ⟨h.owned.congr hread, fun a i hs => ?_, fun slot p hp hlen hne => ?_⟩
    · rw [htables a i hs]
      exact h.stored a i hs
    · rw [hread slot (by simp [hp])] at hne ⊢
      have hold := h.leaf slot p hp hlen hne
      rwa [hdesc _ (.inr hold)]
  refine ⟨hw, fun handle => ?_⟩
  by_cases hacc : Accepted handle
  · rw [lookup_eq hacc, lookup_eq hacc, hfind, hdesc]
    by_cases hzero : s.find (path handle) = 0
    · exact .inl hzero
    · exact .inr (h.find_descriptor (length_path handle) hzero)
  · simp [Handle.lookup, xtGetHandle, hacc, hdesc 0 (.inl rfl)]

/-- **Installing a handle**: in every reachable table a successful call installs exactly
    its fields and leaves the lookup of another handle alone exactly if the two differ in
    their low 36 bits; a failed one changes no lookup, and no lookup changes the table. -/
theorem xtDuplicateHandle_lookup {s : State} (hs : Reachable State.Initial State.Step s)
    (heapAlloc : HeapAlloc) {handle handle' : BitVec 64} (hacc : Accepted handle)
    (hacc' : Accepted handle') (access type : BitVec 32) (desc : ℕ) :
    let (s', result) := xtDuplicateHandle heapAlloc s handle access type desc
    (result = .success →
      (∃ a, lookup s' handle =
        (.success, a, some { access := access, type := type, desc := desc })) ∧
      (lookup s' handle' = lookup s handle' ↔
        handle'.toNat % 2 ^ 36 ≠ handle.toNat % 2 ^ 36)) ∧
    (result ≠ .success → ∀ k, lookup s' k = lookup s k) ∧
    ∀ k out, (xtGetHandle s k out).1 = s := by
  obtain ⟨owner, hw⟩ := wellFormed_of_reachable hs
  have hd := hw.duplicated heapAlloc handle access type desc
  generalize xtDuplicateHandle heapAlloc s handle access type desc = out at hd ⊢
  cases hd with
  | failed hr _ hsame =>
    refine ⟨?_, fun _ k => hsame.lookup k, xtGetHandle_state s⟩
    rintro rfl
    cases hr
  | @installed s' a _ _ ha hfree hdesc hfind =>
    -- the new address carried no descriptor, so no handle had it before
    have hnew : s.find (path handle') ≠ a := by
      rintro rfl
      exact hw.find_descriptor (length_path handle') ha hfree
    refine ⟨fun _ => ⟨⟨a, ?_⟩, ?_⟩, fun h => absurd rfl h, xtGetHandle_state s⟩
    · rw [lookup_eq hacc, hfind _ (length_path handle), if_pos rfl, if_pos ha, hdesc,
        Function.update_self]
    · rw [ne_eq, ← path_eq_iff, lookup_eq hacc', lookup_eq hacc',
        hfind _ (length_path handle'), hdesc]
      by_cases hpath : path handle' = path handle
      · rw [if_pos hpath]
        refine iff_of_false (fun heq => ?_) (fun h => h hpath)
        exact hnew (congrArg (fun x => x.2.1) heq).symm
      · rw [if_neg hpath, Function.update_of_ne hnew]
        exact iff_of_true rfl hpath

/-- An allocator that hands out the first of the addresses below 64 that is not in use. -/
def smallAlloc : HeapAlloc where
  alloc H _ :=
    match (List.range 64).find? fun a =>
      a ≠ 0 && (H.tables a).isNone && (H.descriptors a).isNone with
    | some a => .ok a
    | none => .error .outOfMemory
  fresh := by
    intro H size a h
    split at h
    · rename_i b hb
      cases h
      have := List.find?_some hb
      simpa [and_assoc] using this
    · cases h
  error := by
    intro H size r h
    split at h
    · cases h
    · cases h
      rfl

/-- A process without handles in an empty heap. -/
def emptyProcess : State := ⟨⟨fun _ => none, fun _ => none⟩, 0⟩

/-- A process with handle 2 in use. -/
def oneHandle : State := (xtDuplicateHandle smallAlloc emptyProcess 2 3 2 0x1000).1

/-- Installing handle 1 leaves handle 2 as it was installed. -/
theorem xtDuplicateHandle_lookup_one_two :
    (xtDuplicateHandle smallAlloc oneHandle 1 1 2 0x2000).2 = .success ∧
      lookup (xtDuplicateHandle smallAlloc oneHandle 1 1 2 0x2000).1 2 =
        (.success, 5, some { access := 3, type := 2, desc := 0x1000 }) := by
  have hs : Reachable State.Initial State.Step oneHandle :=
    .next (.start (s := emptyProcess) rfl) ⟨smallAlloc, 2, 3, 2, 0x1000, rfl⟩
  have hok : (xtDuplicateHandle smallAlloc oneHandle 1 1 2 0x2000).2 = .success := by rfl
  have h := xtDuplicateHandle_lookup hs smallAlloc (show Accepted 1 by decide)
    (show Accepted 2 by decide) 1 2 0x2000
  have hkept := (h.1 hok).2.mpr (by decide)
  exact ⟨hok, hkept.trans rfl⟩

/-- Handles 0 and `2 ^ 36` pass the range check and differ, but installing the first
    makes a lookup of the second succeed. -/
theorem lookup_changed_by_alias :
    Reachable State.Initial State.Step emptyProcess ∧ Accepted 0 ∧ Accepted (2 ^ 36) ∧ (0 : BitVec 64) ≠ 2 ^ 36 ∧
      (xtDuplicateHandle smallAlloc emptyProcess 0 3 2 0x1000).2 = .success ∧
      lookup emptyProcess (2 ^ 36) = (.notFound, 0, none) ∧
      lookup (xtDuplicateHandle smallAlloc emptyProcess 0 3 2 0x1000).1 (2 ^ 36) =
        (.success, 5, some { access := 3, type := 2, desc := 0x1000 }) := by
  exact ⟨.start rfl, by decide, by decide, by decide, rfl, rfl, rfl⟩

end XTOS.Handle

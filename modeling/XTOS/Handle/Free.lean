import XTOS.Handle
import XTOS.Lib.Bits

/-!
# The search for a free handle

`find_free_recursive` and `xtFindFreeHandle` of `xtkernel/process.c`. The search goes down the
tree of tables, takes the first handle below the first missing table and passes 0 and the
failure of a sub-table to its caller as any other result.

## Main definitions

- `findFreeRecursive`, `xtFindFreeHandle` — the search
- `pathValue` — the number that a list of indices stands for
- `InUse` — a lookup of the handle succeeds

## Main results

- `findFreeRecursive_spec` — what the search returns is free, or it returns -1
- `xtFindFreeHandle_free` — the handle that is found is not in use
- `xtFindFreeHandle_full` — nothing is found when the first 512 handles are in use
- `WellFormed.install` — a free handle that is installed leaves those in use as they are
-/

namespace XTOS.Handle

open SysLib

/-- The loop of `find_free_recursive` over the entries of a table that points to others: `sub`
    is the recursive call. -/
def freeLoop (s : State) (table : ℕ) (pfx : BitVec 64) (remaining : ℕ)
    (sub : ℕ → BitVec 64 → BitVec 64) : List (Fin 512) → BitVec 64
  | [] => -1
  | i :: rest =>
    let newPfx := pfx <<< 9 ||| BitVec.ofNat 64 i
    if s.read (.entry table i) = 0 then newPfx <<< (remaining * 9)
    else
      let result := sub (s.read (.entry table i)) newPfx
      if result ≠ 0 then result else freeLoop s table pfx remaining sub rest

/-- `find_free_recursive`, with `below` levels of tables below this one. -/
def findFreeRecursive (s : State) : ℕ → ℕ → BitVec 64 → BitVec 64
  | 0, table, pfx =>
    if table = 0 then pfx <<< (1 * 9)
    else
      match (List.finRange 512).find? fun i => s.read (.entry table i) = 0 with
      | some i => pfx <<< 9 ||| BitVec.ofNat 64 i
      | none => -1
  | below + 1, table, pfx =>
    if table = 0 then pfx <<< ((below + 2) * 9)
    else freeLoop s table pfx (below + 1) (findFreeRecursive s below) (List.finRange 512)

/-- `xtFindFreeHandle`; `none` for `XT_NOT_FOUND`. -/
def xtFindFreeHandle (s : State) : Option (BitVec 64) :=
  let result := findFreeRecursive s 3 s.descriptorRoot 0
  if result = -1 then none else some result

/-- `xtGetHandle` succeeds. -/
def InUse (s : State) (handle : BitVec 64) : Prop := (lookup s handle).1 = .success

instance (s : State) (handle : BitVec 64) : Decidable (InUse s handle) :=
  inferInstanceAs (Decidable (_ = _))

/-! ### Numbers of paths -/

/-- The number with the given digits, the first one in front. -/
def pathValue (p : List (Fin 512)) : ℕ :=
  p.foldl (fun (n : ℕ) (i : Fin 512) => n * 512 + i.val) 0

@[simp] theorem pathValue_nil : pathValue [] = 0 := rfl

theorem pathValue_concat (p : List (Fin 512)) (i : Fin 512) :
    pathValue (p ++ [i]) = pathValue p * 512 + i := by
  rw [pathValue, List.foldl_append]
  rfl

theorem pathValue_zeros (p : List (Fin 512)) (n : ℕ) :
    pathValue (p ++ List.replicate n 0) = pathValue p * 512 ^ n := by
  induction n with
  | zero => simp
  | succ n ih =>
    rw [List.replicate_succ', ← List.append_assoc, pathValue_concat, ih, pow_succ]
    simp [Nat.mul_assoc]

theorem pathValue_lt (p : List (Fin 512)) : pathValue p < 512 ^ p.length := by
  induction p using List.reverseRecOn with
  | nil => exact Nat.one_pos
  | append_singleton p i ih =>
    rw [pathValue_concat, List.length_append, List.length_singleton, pow_succ]
    have := i.isLt
    omega

/-- A handle has the path whose number it is. -/
theorem path_of_value {handle : BitVec 64} {q : List (Fin 512)} (hq : q.length = 4)
    (h : handle.toNat = pathValue q) : path handle = q := by
  match q, hq with
  | [a, b, c, d], _ =>
    have := a.isLt
    have := b.isLt
    have := c.isLt
    have := d.isLt
    simp only [pathValue, List.foldl_cons, List.foldl_nil, Nat.zero_mul, Nat.zero_add] at h
    simp only [path, List.cons.injEq, and_true, Fin.ext_iff, indices_val, h]
    norm_num
    omega

variable {s : State} {pfx : BitVec 64} {p : List (Fin 512)}

/-- The shift that leaves room for `n` more indices. -/
theorem toNat_shift (hpfx : pfx.toNat = pathValue p) {n : ℕ} (hlen : p.length + n ≤ 4) :
    (pfx <<< (n * 9)).toNat = pathValue (p ++ List.replicate n 0) := by
  have hlt : pathValue p * 512 ^ n < 512 ^ 4 := by
    calc pathValue p * 512 ^ n < 512 ^ p.length * 512 ^ n :=
          Nat.mul_lt_mul_of_pos_right (pathValue_lt p) (by positivity)
      _ = 512 ^ (p.length + n) := (pow_add _ _ _).symm
      _ ≤ 512 ^ 4 := Nat.pow_le_pow_right (by norm_num) hlen
  have hpow : 2 ^ (n * 9) = 512 ^ n := by
    rw [Nat.mul_comm, pow_mul]
    norm_num
  rw [pathValue_zeros, BitVec.toNat_shiftLeft, Nat.shiftLeft_eq, hpfx, hpow]
  exact Nat.mod_eq_of_lt (hlt.trans (by norm_num))

/-- One more index behind. -/
theorem toNat_next (hpfx : pfx.toNat = pathValue p) (hlen : p.length < 4) (i : Fin 512) :
    (pfx <<< 9 ||| BitVec.ofNat 64 i).toNat = pathValue (p ++ [i]) := by
  have hi := i.isLt
  have hshift := toNat_shift hpfx (n := 1) hlen
  rw [pathValue_zeros, pow_one, Nat.one_mul] at hshift
  rw [BitVec.toNat_or, hshift, BitVec.toNat_ofNat, Nat.mod_eq_of_lt (by omega),
    or_eq_add (k := 9) (by omega) (by omega), pathValue_concat]

/-! ### What is found is free -/

/-- The result is -1 or the number of a path that leads to no descriptor. -/
def FreeResult (s : State) (result : BitVec 64) : Prop :=
  result = -1 ∨ ∃ q : List (Fin 512), q.length = 4 ∧ result.toNat = pathValue q ∧ s.find q = 0

/-- The result is -1 or the number of a path below `p` that leads to no descriptor. -/
def FreeBelow (s : State) (p : List (Fin 512)) (result : BitVec 64) : Prop :=
  result = -1 ∨ ∃ q : List (Fin 512), p <+: q ∧ q.length = 4 ∧ result.toNat = pathValue q ∧
    s.find q = 0

theorem FreeBelow.mono {q : List (Fin 512)} {result : BitVec 64} (h : FreeBelow s q result)
    (hpq : p <+: q) : FreeBelow s p result :=
  h.imp_right fun ⟨r, hqr, hr⟩ => ⟨r, hpq.trans hqr, hr⟩

/-- Below an empty slot every handle is free. -/
theorem freeBelow_shift {slot : Slot} {n : ℕ} (hpfx : pfx.toNat = pathValue p)
    (hlen : p.length + n = 4) (hreach : Radix.stop child s.read 0 .root p = (slot, []))
    (hzero : s.read slot = 0) : FreeBelow s p (pfx <<< (n * 9)) := by
  refine .inr ⟨p ++ List.replicate n 0, List.prefix_append _ _, ?_, toNat_shift hpfx hlen.le, ?_⟩
  · rw [List.length_append, List.length_replicate, hlen]
  · exact find_of_read_eq_zero hreach hzero _

/-- **The search** from the table of a slot returns -1 or a free handle below the slot. -/
theorem findFreeRecursive_below {slot : Slot} {below : ℕ} (hpfx : pfx.toNat = pathValue p)
    (hlen : p.length + below = 3) (hreach : Radix.stop child s.read 0 .root p = (slot, [])) :
    FreeBelow s p (findFreeRecursive s below (s.read slot) pfx) := by
  -- induction on the levels below; a table is searched entry by entry
  induction below generalizing slot p pfx with
  | zero =>
    rw [findFreeRecursive]
    split_ifs with hzero
    · exact freeBelow_shift hpfx (by omega) hreach hzero
    · split
      · rename_i i hi
        have hstop := stop_entry hreach (by omega) hzero i
        refine .inr ⟨p ++ [i], List.prefix_append _ _, by simp; omega, toNat_next hpfx (by omega) i, ?_⟩
        rw [State.find, hstop]
        simpa using List.find?_some hi
      · exact .inl rfl
  | succ below ih =>
    rw [findFreeRecursive]
    split_ifs with hzero
    · exact freeBelow_shift hpfx (by omega) hreach hzero
    · generalize List.finRange 512 = entries
      induction entries with
      | nil => exact .inl rfl
      | cons i rest ihrest =>
        have hstop := stop_entry hreach (by omega) hzero i
        have hnext := toNat_next hpfx (by omega) i
        rw [freeLoop]
        dsimp only
        split_ifs with hentry hresult
        · exact (freeBelow_shift hnext (by simp; omega) hstop hentry).mono (List.prefix_append _ _)
        · exact (ih hnext (by simp; omega) hstop).mono (List.prefix_append _ _)
        · exact ihrest

theorem findFreeRecursive_spec {slot : Slot} {below : ℕ} (hpfx : pfx.toNat = pathValue p)
    (hlen : p.length + below = 3) (hreach : Radix.stop child s.read 0 .root p = (slot, [])) :
    FreeResult s (findFreeRecursive s below (s.read slot) pfx) :=
  (findFreeRecursive_below hpfx hlen hreach).imp_right fun ⟨q, _, hq⟩ => ⟨q, hq⟩

/-- **A found handle** is not in use. -/
theorem xtFindFreeHandle_free {handle : BitVec 64} (h : xtFindFreeHandle s = some handle) :
    s.find (path handle) = 0 := by
  rw [xtFindFreeHandle] at h
  split_ifs at h with hnone
  obtain rfl := Option.some.inj h
  have hspec : FreeResult s (findFreeRecursive s 3 (s.read .root) 0) :=
    findFreeRecursive_spec (p := []) rfl rfl rfl
  obtain hnone' | ⟨q, hq, hvalue, hfind⟩ := hspec
  · exact absurd hnone' hnone
  · have hpath : path (findFreeRecursive s 3 s.descriptorRoot 0) = q := path_of_value hq hvalue
    rwa [hpath]

/-- The failure of the first sub-table is the failure of the table. -/
theorem freeLoop_first {table remaining : ℕ} {sub : ℕ → BitVec 64 → BitVec 64}
    (hne : s.read (.entry table 0) ≠ 0) (hsub : ∀ p, sub (s.read (.entry table 0)) p = -1) :
    freeLoop s table pfx remaining sub (List.finRange 512) = -1 := by
  rw [List.finRange_succ, freeLoop, if_neg hne]
  simp only [hsub]
  rfl

/-- **A full first table** ends the search, whatever else is free. -/
theorem xtFindFreeHandle_full (h : ∀ i : Fin 512, s.find [0, 0, 0, i] ≠ 0) :
    xtFindFreeHandle s = none := by
  have hwalk : ∀ {p : List (Fin 512)} {slot : Slot} (rest : List (Fin 512)),
      Radix.stop child s.read 0 .root p = (slot, []) → p ++ rest = [0, 0, 0, 0] →
      s.read slot ≠ 0 := by
    intro p slot rest hreach heq hzero
    have hfind := find_of_read_eq_zero hreach hzero rest
    rw [heq] at hfind
    exact h 0 hfind
  have hread0 : s.read .root ≠ 0 := hwalk (p := []) [0, 0, 0, 0] rfl rfl
  have hstop1 : Radix.stop child s.read 0 .root [0] = (.entry (s.read .root) 0, []) :=
    stop_entry (p := []) rfl (by simp) hread0 0
  generalize ht1 : s.read .root = t1 at hread0 hstop1
  have hread1 := hwalk [0, 0, 0] hstop1 rfl
  have hstop2 := stop_entry hstop1 (by simp) hread1 0
  generalize ht2 : s.read (.entry t1 0) = t2 at hread1 hstop2
  have hread2 := hwalk [0, 0] hstop2 rfl
  have hstop3 := stop_entry hstop2 (by simp) hread2 0
  generalize ht3 : s.read (.entry t2 0) = t3 at hread2 hstop3
  have hread3 := hwalk [0] hstop3 rfl
  have hstop4 := stop_entry hstop3 (by simp) hread3
  generalize ht4 : s.read (.entry t3 0) = t4 at hread3 hstop4
  -- the entries of the last table are the pointers of the 512 handles
  have hlast : ∀ p, findFreeRecursive s 0 t4 p = -1 := by
    intro p
    have hnone : (List.finRange 512).find? (fun i => decide (s.read (.entry t4 i) = 0)) = none := by
      refine List.find?_eq_none.mpr fun i _ => ?_
      have hi := h i
      rw [State.find, show [0, 0, 0, i] = [0] ++ [0] ++ [0] ++ [i] from rfl, hstop4 i] at hi
      simpa using hi
    rw [findFreeRecursive, if_neg hread3, hnone]
  have hthird : ∀ p, findFreeRecursive s 1 t3 p = -1 := by
    intro p
    rw [findFreeRecursive, if_neg hread2]
    exact freeLoop_first (by rwa [ht4]) (by rwa [ht4])
  have hsecond : ∀ p, findFreeRecursive s 2 t2 p = -1 := by
    intro p
    rw [findFreeRecursive, if_neg hread1]
    exact freeLoop_first (by rwa [ht3]) (by rwa [ht3])
  have hfirst : findFreeRecursive s 3 t1 0 = -1 := by
    rw [findFreeRecursive, if_neg hread0]
    exact freeLoop_first (by rwa [ht2]) (by rwa [ht2])
  have hroot : s.descriptorRoot = t1 := ht1
  rw [xtFindFreeHandle, hroot]
  simp only [hfirst, if_true]

/-! ### Installing under a free handle -/

variable {owner : Slot → Option (List (Fin 512))} {handle : BitVec 64}

/-- A handle is in use when it passes the range check and its path leads to a descriptor. -/
theorem inUse_iff : InUse s handle ↔ Accepted handle ∧ s.find (path handle) ≠ 0 := by
  rw [InUse]
  by_cases hacc : Accepted handle
  · rw [lookup_eq hacc]
    by_cases hzero : s.find (path handle) = 0
    · simp [hzero]
    · simp [hzero, hacc]
  · simp [lookup, xtGetHandle, hacc]

theorem not_inUse_of_free (hfree : s.find (path handle) = 0) : ¬ InUse s handle :=
  fun hin => (inUse_iff.mp hin).2 hfree

/-- What a call of `xtDuplicateHandle` that succeeds has done. -/
structure Installed (s : State) (handle : BitVec 64) (d : XTDescriptor) (s' : State) : Prop where
  wellFormed : ∃ owner, WellFormed s' owner
  inUse : InUse s' handle
  descriptor : s'.heap.descriptors (s'.find (path handle)) = some d
  keeps : s.find (path handle) = 0 → ∀ h, InUse s h → lookup s' h = lookup s h
  replaces : s.find (path handle) ≠ 0 → ∀ h, path h = path handle →
    s'.find (path h) ≠ s.find (path h)
  free : ∀ h, s'.find (path h) = 0 ↔ s.find (path h) = 0 ∧ path h ≠ path handle

theorem WellFormed.install (h : WellFormed s owner) {heapAlloc : HeapAlloc}
    {access type : BitVec 32} {desc : ℕ} {s' : State} {r : XTResult}
    (hr : xtDuplicateHandle heapAlloc s handle access type desc = (s', r)) :
    (r.isError = true ∧ (∃ owner', WellFormed s' owner') ∧ SameHandles s s') ∨
      (r = .success ∧ Installed s handle { access := access, type := type, desc := desc } s') := by
  have hd := h.duplicated heapAlloc handle access type desc
  have hacc : r = .success → Accepted handle := by
    rintro rfl
    by_contra hno
    simp [xtDuplicateHandle, hno] at hr
  rw [hr] at hd
  cases hd with
  | failed hr hw hsame => exact .inl ⟨hr, ⟨_, hw⟩, hsame⟩
  | @installed _ a owner' hw ha hfree hdesc hfind =>
    have hself : s'.find (path handle) = a := by rw [hfind _ (length_path handle), if_pos rfl]
    refine .inr ⟨rfl, ⟨_, hw⟩, inUse_iff.mpr ⟨hacc rfl, by rwa [hself]⟩, ?_, ?_, ?_, ?_⟩
    · rw [hself, hdesc, Function.update_self]
    · intro hzero k hk
      obtain ⟨hkacc, hkne⟩ := inUse_iff.mp hk
      have hpath : path k ≠ path handle := by
        intro heq
        rw [heq] at hkne
        exact hkne hzero
      have hka : s.find (path k) ≠ a := by
        intro heq
        exact h.find_descriptor (length_path k) hkne (by rw [heq, hfree])
      rw [lookup_eq hkacc, lookup_eq hkacc, hfind _ (length_path k), if_neg hpath, hdesc,
        Function.update_of_ne hka]
    · intro hne k hk
      rw [hk, hself]
      intro heq
      exact h.find_descriptor (length_path handle) hne (by rw [← heq, hfree])
    · intro k
      rw [hfind _ (length_path k)]
      by_cases hpath : path k = path handle
      · simp [hpath, ha]
      · simp [hpath]

/-- An install under a free number leaves every handle in use as it is. -/
theorem Installed.keeps_all {d : XTDescriptor} {s' : State} (hi : Installed s handle d s')
    (hfree : ¬ InUse s handle) : ∀ h, InUse s h → lookup s' h = lookup s h := by
  refine hi.keeps ?_
  by_contra hne
  exact hfree (inUse_iff.mpr ⟨(inUse_iff.mp hi.inUse).1, hne⟩)

end XTOS.Handle

import XTOS.Handle

/-!
# The destruction of a handle table

`xtFreeDescriptorTree` of `xtkernel/process.c` as `xtTerminateProcess` calls it. A tree has four
levels of tables and the descriptors below them, and the calls count three levels down to what they
take for a descriptor.

## Main definitions

- `xtFreeDescriptorTree` — the blocks passed to `xtHeapFree`, as what they are treated
- `IsTable`, `IsDescriptor` — the blocks of a tree
- `FreesTree` — a tree is freed as it was built

## Main results

- `freed_addresses_nodup` — nothing is freed twice
- `freesTree_iff` — a tree is freed as it was built only if it has no table of the last level
-/

namespace XTOS.Handle

open SysLib

/-- A block that is passed to `xtHeapFree`. -/
inductive Freed where
  | table (a : ℕ)
  | descriptor (a : ℕ)
  deriving DecidableEq, Repr

def Freed.address : Freed → ℕ
  | .table a => a
  | .descriptor a => a

/-- `xtFreeDescriptorTree`. -/
def xtFreeDescriptorTree (s : State) : ℕ → ℕ → List Freed
  | 0, node => if node = 0 then [] else [.descriptor node]
  | level + 1, node =>
    if node = 0 then []
    else
      ((List.finRange 512).flatMap fun i =>
        if s.read (.entry node i) ≠ 0 then xtFreeDescriptorTree s level (s.read (.entry node i))
        else []) ++ [.table node]

/-- The part of `xtTerminateProcess` that frees the handle table. -/
def freeDescriptors (s : State) : List Freed :=
  if s.descriptorRoot ≠ 0 then xtFreeDescriptorTree s 3 s.descriptorRoot else []

/-- A table of the tree. -/
def IsTable (s : State) (a : ℕ) : Prop :=
  a ≠ 0 ∧ ∃ p : List (Fin 512), p.length ≤ 3 ∧ s.find p = a

/-- A descriptor of the tree. -/
def IsDescriptor (s : State) (a : ℕ) : Prop :=
  a ≠ 0 ∧ ∃ p : List (Fin 512), p.length = 4 ∧ s.find p = a

/-- The tables are freed as tables and the descriptors as descriptors, each once. -/
structure FreesTree (s : State) : Prop where
  once : ((freeDescriptors s).map Freed.address).Nodup
  tables : ∀ a, .table a ∈ freeDescriptors s ↔ IsTable s a
  descriptors : ∀ a, .descriptor a ∈ freeDescriptors s ↔ IsDescriptor s a

variable {s : State} {owner : Slot → Option (List (Fin 512))} {slot : Slot}
  {p q : List (Fin 512)} {level a : ℕ}

/-! ### The pointers of a tree -/

theorem find_of_stop (hreach : Radix.stop child s.read 0 .root p = (slot, [])) :
    s.find p = s.read slot := by
  rw [State.find, hreach]

/-- A walk to a pointer that is not null uses all indices. -/
theorem stop_of_find_ne_zero (hp : p.length ≤ 4) (hne : s.find p ≠ 0) :
    ∃ slot, Radix.stop child s.read 0 .root p = (slot, []) := by
  obtain ⟨used, hused, -, hstuck⟩ := @Radix.stop_used _ _ _ child s.read 0 Slot.root p
  rcases hstop : Radix.stop child s.read 0 .root p with ⟨slot, rest⟩
  rw [State.find, hstop] at hne
  rw [hstop] at hused hstuck
  cases rest with
  | nil => exact ⟨slot, rfl⟩
  | cons i rest =>
    have hlen := congrArg List.length hused
    rw [List.length_append, List.length_cons] at hlen
    have hnone := hstuck i rest rfl
    rw [child, if_pos ⟨hne, by omega⟩] at hnone
    cases hnone

/-- Below a pointer that is null every pointer is null. -/
theorem find_zero_of_prefixed (hpq : p <+: q) (hzero : s.find p = 0) : s.find q = 0 := by
  obtain ⟨r, rfl⟩ := hpq
  obtain ⟨used, hused, hreach, -⟩ := @Radix.stop_used _ _ _ child s.read 0 Slot.root p
  rw [hused, List.append_assoc]
  exact find_of_read_eq_zero hreach hzero _

/-- What is below a table is below one of its entries. -/
theorem find_below (hreach : Radix.stop child s.read 0 .root p = (slot, [])) {i : Fin 512}
    (hpq : p ++ [i] <+: q) (hp : p.length < 4) (hne : s.find q ≠ 0) :
    s.read slot ≠ 0 ∧ s.read (.entry (s.read slot) i) ≠ 0 := by
  obtain ⟨r, rfl⟩ := hpq
  have hslot : s.read slot ≠ 0 := by
    intro hzero
    rw [List.append_assoc] at hne
    exact hne (find_of_read_eq_zero hreach hzero _)
  exact ⟨hslot, fun hzero => hne (find_of_read_eq_zero (stop_entry hreach hp hslot i) hzero r)⟩

/-- In an unshared tree a table is found by one list of indices only. -/
theorem WellFormed.find_inj (h : WellFormed s owner) (hp : p.length ≤ 3) (hq : q.length ≤ 3)
    (hne : s.find p ≠ 0) (heq : s.find q = s.find p) : q = p := by
  obtain ⟨slot, hslot⟩ := stop_of_find_ne_zero (by omega) hne
  obtain ⟨slot', hslot'⟩ := stop_of_find_ne_zero (p := q) (by omega) (by rwa [heq])
  rw [find_of_stop hslot] at hne heq
  rw [find_of_stop hslot'] at heq
  have hentry := h.owned.owner_of_stop h.owned.root (stop_entry hslot (by omega) hne 0)
  have hentry' := h.owned.owner_of_stop h.owned.root
    (stop_entry hslot' (by omega) (by rwa [heq]) 0)
  rw [heq, hentry, Option.some.injEq] at hentry'
  exact (List.append_cancel_right hentry').symm

/-! ### What is freed -/

/-- A table as it is freed: those of the last level are taken for descriptors. -/
def freedAs (s : State) (q : List (Fin 512)) : Freed :=
  if q.length = 3 then .descriptor (s.find q) else .table (s.find q)

@[simp] theorem freedAs_address (s : State) (q : List (Fin 512)) :
    (freedAs s q).address = s.find q := by
  unfold freedAs
  split_ifs <;> rfl

/-- **The recursion** frees the tables below a slot. -/
theorem mem_xtFreeDescriptorTree (hlen : p.length + level = 3)
    (hreach : Radix.stop child s.read 0 .root p = (slot, [])) {f : Freed} :
    f ∈ xtFreeDescriptorTree s level (s.read slot) ↔
      ∃ q, p <+: q ∧ q.length ≤ 3 ∧ s.find q ≠ 0 ∧ f = freedAs s q := by
  have hfind := find_of_stop hreach
  -- induction on the levels below, which are the indices that are left
  induction level generalizing p slot with
  | zero =>
    have honly : ∀ q, p <+: q → q.length ≤ 3 → q = p :=
      fun q hpq hq => (hpq.eq_of_length_le (by omega)).symm
    rw [xtFreeDescriptorTree]
    split_ifs with hzero
    · refine iff_of_false List.not_mem_nil ?_
      rintro ⟨q, hpq, hq, hne, -⟩
      rw [honly q hpq hq, hfind] at hne
      exact hne hzero
    · rw [List.mem_singleton]
      constructor
      · rintro rfl
        refine ⟨p, List.prefix_refl p, by omega, by rwa [hfind], ?_⟩
        rw [freedAs, if_pos (by omega), hfind]
      · rintro ⟨q, hpq, hq, -, rfl⟩
        rw [honly q hpq hq, freedAs, if_pos (by omega), hfind]
  | succ level ih =>
    rw [xtFreeDescriptorTree]
    split_ifs with hzero
    · refine iff_of_false List.not_mem_nil ?_
      rintro ⟨q, ⟨r, rfl⟩, -, hne, -⟩
      exact hne (find_of_read_eq_zero hreach hzero r)
    have hstop := stop_entry hreach (by omega) hzero
    have hsub : ∀ i, f ∈ xtFreeDescriptorTree s level (s.read (.entry (s.read slot) i)) ↔
        ∃ q, p ++ [i] <+: q ∧ q.length ≤ 3 ∧ s.find q ≠ 0 ∧ f = freedAs s q :=
      fun i => ih (by simp; omega) (hstop i) (find_of_stop (hstop i))
    have hself : f = .table (s.read slot) ↔ f = freedAs s p := by
      rw [freedAs, if_neg (by omega), hfind]
    rw [List.mem_append, List.mem_singleton, List.mem_flatMap, hself]
    constructor
    · rintro (⟨i, -, hi⟩ | rfl)
      · split_ifs at hi with hentry
        · obtain ⟨q, hpq, hq⟩ := (hsub i).mp hi
          exact ⟨q, (List.prefix_append p [i]).trans hpq, hq⟩
        · cases hi
      · exact ⟨p, List.prefix_refl p, by omega, by rwa [hfind], rfl⟩
    · rintro ⟨q, ⟨r, rfl⟩, hq, hne, rfl⟩
      cases r with
      | nil => exact .inr (by rw [List.append_nil])
      | cons i r =>
        have hpre : p ++ [i] <+: p ++ i :: r := ⟨r, by simp⟩
        refine .inl ⟨i, List.mem_finRange i, ?_⟩
        rw [if_pos (find_below hreach hpre (by omega) hne).2]
        exact (hsub i).mpr ⟨_, hpre, hq, hne, rfl⟩

/-- **Nothing is freed twice**. -/
theorem WellFormed.freed_nodup (h : WellFormed s owner) (hlen : p.length + level = 3)
    (hreach : Radix.stop child s.read 0 .root p = (slot, [])) :
    (xtFreeDescriptorTree s level (s.read slot)).Nodup := by
  induction level generalizing p slot with
  | zero =>
    rw [xtFreeDescriptorTree]
    split_ifs
    · exact List.nodup_nil
    · exact List.nodup_singleton _
  | succ level ih =>
    rw [xtFreeDescriptorTree]
    split_ifs with hzero
    · exact List.nodup_nil
    have hstop := stop_entry hreach (by omega) hzero
    have hlen' : ∀ i, (p ++ [i]).length + level = 3 := by
      intro i
      simp
      omega
    -- what is freed for an entry is below that entry
    have hbelow : ∀ i f, f ∈ (if s.read (.entry (s.read slot) i) ≠ 0 then
        xtFreeDescriptorTree s level (s.read (.entry (s.read slot) i)) else []) →
        ∃ q, p ++ [i] <+: q ∧ q.length ≤ 3 ∧ s.find q ≠ 0 ∧ f.address = s.find q := by
      intro i f hf
      split_ifs at hf
      · obtain ⟨q, hpq, hq, hne, rfl⟩ := (mem_xtFreeDescriptorTree (hlen' i) (hstop i)).mp hf
        exact ⟨q, hpq, hq, hne, freedAs_address s q⟩
      · cases hf
    refine List.Nodup.append ?_ (List.nodup_singleton _) ?_
    · refine List.nodup_flatMap.mpr ⟨fun i _ => ?_, ?_⟩
      · split_ifs
        · exact ih (hlen' i) (hstop i)
        · exact List.nodup_nil
      · refine (List.nodup_finRange 512).imp fun {i j} hij f hi hj => hij ?_
        obtain ⟨q, hpq, hq, hne, haddr⟩ := hbelow i f hi
        obtain ⟨r, hpr, hr, -, haddr'⟩ := hbelow j f hj
        rw [haddr] at haddr'
        rw [h.find_inj hq hr hne haddr'.symm] at hpr
        have hsame := List.prefix_of_prefix_length_le hpq hpr (by simp)
        have heq := hsame.eq_of_length (by simp)
        simpa using heq
    · intro f hi hself
      obtain ⟨i, -, hi⟩ := List.mem_flatMap.mp hi
      obtain ⟨q, hpq, hq, hne, haddr⟩ := hbelow i f hi
      rw [List.mem_singleton] at hself
      rw [hself] at haddr
      have hp := h.find_inj hq (by omega) hne (find_of_stop hreach |>.trans haddr)
      have hle := hpq.length_le
      rw [← hp, List.length_append, List.length_singleton] at hle
      omega

/-! ### The whole tree -/

theorem freeDescriptors_eq (s : State) :
    freeDescriptors s = xtFreeDescriptorTree s 3 (s.read .root) := by
  have hroot : s.descriptorRoot = s.read .root := rfl
  rw [freeDescriptors, hroot]
  split_ifs with h
  · rfl
  · rw [xtFreeDescriptorTree, if_pos (not_not.mp h)]

theorem mem_freeDescriptors {f : Freed} : f ∈ freeDescriptors s ↔
    ∃ q : List (Fin 512), q.length ≤ 3 ∧ s.find q ≠ 0 ∧ f = freedAs s q := by
  rw [freeDescriptors_eq, mem_xtFreeDescriptorTree (p := []) rfl rfl]
  simp only [List.nil_prefix, true_and]

/-- The tables of a reachable tree are freed each once, and nothing else is freed. -/
theorem freed_addresses_nodup (hs : Reachable State.Initial State.Step s) :
    ((freeDescriptors s).map Freed.address).Nodup ∧
      ∀ a, (∃ f ∈ freeDescriptors s, f.address = a) ↔ IsTable s a := by
  obtain ⟨owner, h⟩ := wellFormed_of_reachable hs
  refine ⟨List.Nodup.map_on (fun f hf g hg heq => ?_) ?_, fun a => ⟨?_, ?_⟩⟩
  · obtain ⟨q, hq, hne, rfl⟩ := mem_freeDescriptors.mp hf
    obtain ⟨r, hr, -, rfl⟩ := mem_freeDescriptors.mp hg
    rw [freedAs_address, freedAs_address] at heq
    rw [h.find_inj hq hr hne heq.symm]
  · rw [freeDescriptors_eq]
    exact h.freed_nodup (p := []) rfl rfl
  · rintro ⟨f, hf, rfl⟩
    obtain ⟨q, hq, hne, rfl⟩ := mem_freeDescriptors.mp hf
    rw [freedAs_address]
    exact ⟨hne, q, hq, rfl⟩
  · rintro ⟨hne, q, hq, rfl⟩
    exact ⟨_, mem_freeDescriptors.mpr ⟨q, hq, hne, rfl⟩, freedAs_address s q⟩

/-- **Destruction**: a reachable tree is freed as it was built exactly if it has no table of the
    last level, and so no descriptor. -/
theorem freesTree_iff (hs : Reachable State.Initial State.Step s) :
    FreesTree s ↔ ∀ p : List (Fin 512), p.length = 3 → s.find p = 0 := by
  obtain ⟨owner, h⟩ := wellFormed_of_reachable hs
  constructor
  · intro hfrees p hp
    by_contra hne
    -- a table of the last level is not freed as a table
    obtain ⟨q, hq, -, heq⟩ := mem_freeDescriptors.mp
      ((hfrees.tables (s.find p)).mpr ⟨hne, p, by omega, rfl⟩)
    have haddr := congrArg Freed.address heq
    rw [freedAs_address] at haddr
    rw [h.find_inj (by omega) hq hne haddr.symm, freedAs, if_pos hp] at heq
    cases heq
  · intro hnone
    have hshort : ∀ q : List (Fin 512), q.length ≤ 3 → s.find q ≠ 0 →
        freedAs s q = .table (s.find q) := by
      intro q _ hne
      exact if_neg fun hq => hne (hnone q hq)
    refine ⟨(freed_addresses_nodup hs).1, fun a => ⟨?_, ?_⟩, fun a => iff_of_false ?_ ?_⟩
    · intro ha
      exact ((freed_addresses_nodup hs).2 a).mp ⟨_, ha, rfl⟩
    · rintro ⟨hne, q, hq, rfl⟩
      exact mem_freeDescriptors.mpr ⟨q, hq, hne, (hshort q hq hne).symm⟩
    · intro ha
      obtain ⟨q, hq, hne, heq⟩ := mem_freeDescriptors.mp ha
      rw [hshort q hq hne] at heq
      cases heq
    · rintro ⟨hne, q, hq, rfl⟩
      exact hne (find_zero_of_prefixed (List.take_prefix 3 q) (hnone _ (by simp [hq])))

/-- An allocator with one block. -/
def oneAlloc : HeapAlloc where
  alloc H _ :=
    if H.tables 1 = none ∧ H.descriptors 1 = none then .ok 1 else .error .outOfMemory
  fresh := by
    intro H size a h
    split_ifs at h with hfree
    cases h
    exact ⟨by decide, hfree⟩
  error := by
    intro H size r h
    split_ifs at h
    cases h
    rfl

/-- The heap has no block for a second table, so only the first one is there. -/
theorem freesTree_one_table :
    FreesTree (xtDuplicateHandle oneAlloc emptyProcess 1 3 2 0x1000).1 := by
  have hs : Reachable State.Initial State.Step
      (xtDuplicateHandle oneAlloc emptyProcess 1 3 2 0x1000).1 :=
    .next (.start (s := emptyProcess) rfl) ⟨_, _, _, _, _, rfl⟩
  refine (freesTree_iff hs).mpr fun p hp => ?_
  obtain ⟨a, b, c, rfl⟩ := List.length_eq_three.mp hp
  exact find_zero_of_prefixed (p := [a]) ⟨[b, c], rfl⟩ rfl

/-- A tree with one handle: its last table is freed as a descriptor, and the descriptor is lost. -/
theorem last_table_freed_as_descriptor :
    Reachable State.Initial State.Step (xtDuplicateHandle smallAlloc emptyProcess 1 3 2 0x1000).1 ∧
      IsDescriptor (xtDuplicateHandle smallAlloc emptyProcess 1 3 2 0x1000).1 5 ∧
      freeDescriptors (xtDuplicateHandle smallAlloc emptyProcess 1 3 2 0x1000).1 =
        [.descriptor 4, .table 3, .table 2, .table 1] ∧
      ¬ FreesTree (xtDuplicateHandle smallAlloc emptyProcess 1 3 2 0x1000).1 := by
  have hs : Reachable State.Initial State.Step
      (xtDuplicateHandle smallAlloc emptyProcess 1 3 2 0x1000).1 :=
    .next (.start (s := emptyProcess) rfl) ⟨_, _, _, _, _, rfl⟩
  have hdesc : IsDescriptor (xtDuplicateHandle smallAlloc emptyProcess 1 3 2 0x1000).1 5 :=
    ⟨by decide, [0, 0, 0, 1], rfl, by decide +kernel⟩
  have hfreed : freeDescriptors (xtDuplicateHandle smallAlloc emptyProcess 1 3 2 0x1000).1 =
      [.descriptor 4, .table 3, .table 2, .table 1] := by decide +kernel
  refine ⟨hs, hdesc, hfreed, fun hfrees => ?_⟩
  have hmem := (hfrees.descriptors 5).mpr hdesc
  rw [hfreed] at hmem
  exact absurd hmem (by decide)

end XTOS.Handle

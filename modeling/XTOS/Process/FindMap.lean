import XTOS.Process.Record

/-!
# Looking up an address

`xtFindVirtualMap` of `xtkernel/vm.c` takes the first entry in the order of the list that starts at
the address or below it and ends at the address or above it. So the address behind an entry counts
as its own.

## Main definitions

- `startAt`, `endAt`, `Contains` — the addresses of the entry of a list node
- `MemoryMap` — a list of entries that are apart from each other
- `Finds` — the search gives the entry that contains an address

## Main results

- `MemoryMap.hit_iff` — the entries that the search takes
- `MemoryMap.finds_iff` — when it gives the one that contains the address
-/

namespace XTOS.ProcessRecord

open SysLib
open XTOS.Heap (Mem)

/-- Where the entry of a node starts. -/
def startAt (m : Mem) (n : ℕ) : ℕ := loadLE m (dataAt m n) 8

/-- Where it ends. -/
def endAt (m : Mem) (n : ℕ) : ℕ := startAt m n + loadLE m (dataAt m n + 8) 8

/-- The entry of a node contains an address. -/
def Contains (m : Mem) (ptr n : ℕ) : Prop := startAt m n ≤ ptr ∧ ptr < endAt m n

instance (m : Mem) (ptr n : ℕ) : Decidable (Contains m ptr n) :=
  inferInstanceAs (Decidable (_ ∧ _))

/-- The memory map of a process is the list of the nodes `xs`; its entries are not empty and apart
    from each other. -/
structure MemoryMap (m : Mem) (process : ℕ) (xs : List ℕ) : Prop where
  process_ne : process ≠ 0
  linked : Linked 0 (nextAt m) (processAt m process).memoryMap xs 0
  nonempty : ∀ n ∈ xs, startAt m n < endAt m n ∧ endAt m n ≤ 2 ^ 64
  apart : xs.Pairwise fun k n => endAt m k ≤ startAt m n ∨ endAt m n ≤ startAt m k

/-- The search gives the entry that contains the address with the node before it, and nothing where
    no entry contains it. -/
def Finds (fuel : ℕ) (m : Mem) (process ptr : ℕ) (xs : List ℕ) : Prop :=
  (∀ pre n post, xs = pre ++ n :: post → Contains m ptr n →
    xtFindVirtualMap fuel m process ptr = some (.success, dataAt m n, pre.getLastD 0)) ∧
  ((∀ n ∈ xs, ¬ Contains m ptr n) →
    xtFindVirtualMap fuel m process ptr = some (.notFound, 0, 0))

/-- The comparison of the search. -/
def hit (m : Mem) (ptr n : ℕ) : Bool :=
  startAt m n ≤ ptr ∧ ptr ≤ endAt m n % 2 ^ 64

variable {m : Mem} {process ptr fuel n : ℕ} {xs pre post : List ℕ}

/-- What the search gives: the parts of the list before the first hit and from it on. -/
theorem xtFindVirtualMap_split (hprocess : process ≠ 0)
    (hlinked : Linked 0 (nextAt m) (processAt m process).memoryMap xs 0) (hfuel : xs.length < fuel)
    (ptr : ℕ) :
    ∃ pre post, xs = pre ++ post ∧ (∀ n ∈ pre, hit m ptr n = false) ∧
      (post = [] → xtFindVirtualMap fuel m process ptr = some (.notFound, 0, 0)) ∧
      ∀ n ns, post = n :: ns → hit m ptr n = true ∧
        xtFindVirtualMap fuel m process ptr = some (.success, dataAt m n, pre.getLastD 0) := by
  have hscan := hlinked.scan_eq (hit m ptr) 0 hfuel
  obtain ⟨pre, post, hsplit, hr, hpre, hpost⟩ := hlinked.scan_split hscan
  rw [hr] at hscan
  have hfind : xtFindVirtualMap fuel m process ptr =
      (scan 0 (nextAt m) (hit m ptr) fuel 0 (processAt m process).memoryMap).map
        fun x => if x.2 = 0 then (.notFound, 0, 0) else (.success, dataAt m x.2, x.1) :=
    if_neg hprocess
  rw [hfind, hscan, Option.map_some]
  refine ⟨pre, post, hsplit, hpre, ?_, ?_⟩
  · rintro rfl
    rfl
  · rintro n ns rfl
    have hn : n ≠ 0 := hlinked.ne_null n (by rw [hsplit]; simp)
    exact ⟨hpost n ns rfl, congrArg some (if_neg hn)⟩

/-- The search takes an entry that contains the address, unless it ends where the address space does,
    and one that ends at the address. -/
theorem MemoryMap.hit_iff (h : MemoryMap m process xs) (hptr : ptr < 2 ^ 64) (hn : n ∈ xs) :
    hit m ptr n = true ↔ (Contains m ptr n ∧ endAt m n ≠ 2 ^ 64) ∨ endAt m n = ptr := by
  obtain ⟨hlt, hle⟩ := h.nonempty n hn
  have hsize : endAt m n < startAt m n + 2 ^ 64 :=
    Nat.add_lt_add_left (loadLE_lt m (dataAt m n + 8) 8) _
  rw [hit, decide_eq_true_eq, Contains]
  omega

/-- Only one entry contains an address. -/
theorem MemoryMap.unique (h : MemoryMap m process (pre ++ n :: post)) (hn : Contains m ptr n) {k : ℕ}
    (hk : k ∈ pre) : ¬ Contains m ptr k := by
  intro hc
  have hapart := (List.pairwise_append.mp h.apart).2.2 k hk n List.mem_cons_self
  obtain ⟨hstart, hend⟩ := hn
  obtain ⟨hstart', hend'⟩ := hc
  omega

/-- The entry that contains the address is given if no entry before it ends there. -/
theorem MemoryMap.found_iff (h : MemoryMap m process (pre ++ n :: post)) (hptr : ptr < 2 ^ 64)
    (hfuel : (pre ++ n :: post).length < fuel) (hn : Contains m ptr n) :
    xtFindVirtualMap fuel m process ptr = some (.success, dataAt m n, pre.getLastD 0) ↔
      endAt m n ≠ 2 ^ 64 ∧ ∀ k ∈ pre, endAt m k ≠ ptr := by
  obtain ⟨front, back, hsplit, hfront, hnone, hback⟩ :=
    xtFindVirtualMap_split h.process_ne h.linked hfuel ptr
  have hhit := h.hit_iff hptr (List.mem_append_right pre List.mem_cons_self)
  have hpre : ∀ k ∈ pre, hit m ptr k = true ↔ endAt m k = ptr := by
    intro k hk
    rw [h.hit_iff hptr (List.mem_append_left _ hk), or_iff_right]
    exact fun hc => h.unique hn hk hc.1
  have hend : endAt m n ≠ ptr := hn.2.ne'
  constructor
  · intro hres
    cases back with
    | nil =>
      rw [hnone rfl] at hres
      cases hres
    | cons y ys =>
      obtain ⟨hy, hfind⟩ := hback y ys rfl
      rw [hfind, Option.some.injEq] at hres
      -- the first hit is an entry with the same interval
      have hdata : dataAt m y = dataAt m n := congrArg (fun r => r.2.1) hres
      have hsame : hit m ptr y = hit m ptr n := by
        rw [hit, hit, endAt, endAt, startAt, startAt, hdata]
      refine ⟨((hhit.mp (hsame ▸ hy)).resolve_right hend).2, fun k hk hkend => ?_⟩
      have hkhit := (hpre k hk).mpr hkend
      obtain ⟨z, rfl, -⟩ | ⟨z, rfl, hz⟩ := List.append_eq_append_iff.mp hsplit
      · rw [hfront k (List.mem_append_left _ hk)] at hkhit
        cases hkhit
      · cases z with
        | nil =>
          rw [List.append_nil] at hk
          rw [hfront k hk] at hkhit
          cases hkhit
        | cons y' z =>
          obtain ⟨rfl, -⟩ := List.cons.inj hz
          refine h.unique hn (k := y) (by simp) ?_
          rwa [Contains, endAt, startAt, hdata]
  · rintro ⟨hlast, hfree⟩
    have hnhit := hhit.mpr (.inl ⟨hn, hlast⟩)
    obtain ⟨z, rfl, hz⟩ | ⟨z, rfl, hz⟩ := List.append_eq_append_iff.mp hsplit
    · cases z with
      | nil =>
        rw [List.nil_append] at hz
        rw [(hback n post hz.symm).2, List.append_nil]
      | cons y z =>
        obtain ⟨rfl, -⟩ := List.cons.inj hz
        rw [hfront n (by simp)] at hnhit
        cases hnhit
    · cases z with
      | nil =>
        rw [List.nil_append] at hz
        rw [(hback n post hz).2, List.append_nil]
      | cons y z =>
        have hy := (hpre y (by simp)).mp (hback y _ hz).1
        exact absurd hy (hfree y (by simp))

theorem MemoryMap.notFound_iff (h : MemoryMap m process xs) (hptr : ptr < 2 ^ 64)
    (hfuel : xs.length < fuel) (hn : ∀ n ∈ xs, ¬ Contains m ptr n) :
    xtFindVirtualMap fuel m process ptr = some (.notFound, 0, 0) ↔ ∀ n ∈ xs, endAt m n ≠ ptr := by
  obtain ⟨front, back, rfl, hfront, hnone, hback⟩ :=
    xtFindVirtualMap_split h.process_ne h.linked hfuel ptr
  have hhit : ∀ n ∈ front ++ back, hit m ptr n = true ↔ endAt m n = ptr := by
    intro n hmem
    rw [h.hit_iff hptr hmem, or_iff_right]
    exact fun hc => hn n hmem hc.1
  have hfree : ∀ n ∈ front, endAt m n ≠ ptr := by
    intro n hmem hend
    have htrue := (hhit n (List.mem_append_left _ hmem)).mpr hend
    rw [hfront n hmem] at htrue
    cases htrue
  cases back with
  | nil =>
    rw [List.append_nil]
    exact iff_of_true (hnone rfl) hfree
  | cons n ns =>
    obtain ⟨htrue, hfind⟩ := hback n ns rfl
    rw [hfind, Option.some.injEq]
    have hend := (hhit n (by simp)).mp htrue
    refine iff_of_false (fun hres => ?_) fun hall => hall n (by simp) hend
    cases hres

/-- **When the search finds the entry of an address**: no entry before that one, or no entry at all if
    there is none, ends at the address, and it does not end where the address space does. -/
theorem MemoryMap.finds_iff (h : MemoryMap m process xs) (hptr : ptr < 2 ^ 64)
    (hfuel : xs.length < fuel) :
    Finds fuel m process ptr xs ↔
      (∀ pre n post, xs = pre ++ n :: post → Contains m ptr n →
        endAt m n ≠ 2 ^ 64 ∧ ∀ k ∈ pre, endAt m k ≠ ptr) ∧
      ((∀ n ∈ xs, ¬ Contains m ptr n) → ∀ n ∈ xs, endAt m n ≠ ptr) := by
  refine and_congr ?_ (forall_congr' fun hnone => h.notFound_iff hptr hfuel hnone)
  refine forall_congr' fun pre => forall_congr' fun n => forall_congr' fun post => ?_
  refine forall_congr' fun hsplit => forall_congr' fun hn => ?_
  subst hsplit
  exact h.found_iff hptr hfuel hn

/-- The process at 200 has two maps, from `0x1000` to `0x2000` and from there to `0x3000`. -/
def adjacentMaps : Mem
  | 16 => 100
  | 24 => 32
  | 32 => 120
  | 101 => 0x10
  | 109 => 0x10
  | 121 => 0x20
  | 129 => 0x10
  | 232 => 16
  | _ => 0

theorem adjacentMaps_memoryMap : MemoryMap adjacentMaps 200 [16, 32] where
  process_ne := by decide
  linked := ⟨by decide +kernel, by decide, by decide +kernel, by decide,
    show nextAt adjacentMaps 32 = 0 by decide +kernel⟩
  nonempty := by decide +kernel
  apart := by decide +kernel

theorem finds_iff_first : Finds 3 adjacentMaps 200 0x1000 [16, 32] := by
  have hends : ∀ n ∈ [16, 32], endAt adjacentMaps n ≠ 2 ^ 64 ∧ endAt adjacentMaps n ≠ 0x1000 := by
    decide +kernel
  refine (adjacentMaps_memoryMap.finds_iff (by norm_num) (by decide)).mpr ⟨?_, ?_⟩
  · intro pre n post hsplit hn
    exact ⟨(hends n (by simp [hsplit])).1, fun k hk => (hends k (by simp [hsplit, hk])).2⟩
  · exact fun _ n hn => (hends n hn).2

/-- The first address of the second map gives the first one. -/
theorem start_finds_previous :
    MemoryMap adjacentMaps 200 [16, 32] ∧ ¬ Finds 3 adjacentMaps 200 0x2000 [16, 32] := by
  refine ⟨adjacentMaps_memoryMap, fun h => ?_⟩
  have hsecond := h.1 [16] 32 [] rfl (by decide +kernel)
  have hfirst : xtFindVirtualMap 3 adjacentMaps 200 0x2000 = some (.success, 100, 0) := by
    decide +kernel
  rw [hfirst] at hsecond
  exact absurd hsecond (by decide +kernel)

end XTOS.ProcessRecord

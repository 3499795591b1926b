import XTOS.Vfat.Create

/-!
# What a creation leaves of the other entries

`vfatCreateFile` of `drivers/vfat/main.c`, seen from its callers: when it fails, which slots of the
directory it overwrites, and what a new directory consists of. `vfatFindFreeEntry` looks for one free
slot; `vfatSetFileInfo` then writes as many slots from there on as the name needs.

## Main definitions

- `InUse`, `LiveKept` — the slots of existing files, unchanged
- `Refused` — an error, with an unchanged device
- `NewDirectory` — a cluster with the entries `.` and `..`

## Main results

- `liveKept_iff` — when a creation overwrites no slot of an existing file
- `refused_iff` — when a creation is refused
- `not_newDirectory` — a new directory is empty
-/

namespace XTOS.Vfat

open SysLib

variable {g : VfatFSData} {d d' : Device} {c i n : ℕ} {l l' : List ℕ} {slots : List Slot}

/-! ### Slots of existing files -/

/-- Slot `k` is the short entry of an existing file. -/
def ShortEntry (slots : List Slot) (k : ℕ) : Prop :=
  (∀ j ≤ k, slotOf slots j 0 ≠ 0) ∧ slotOf slots k 0 ≠ deletedMark ∧
    sfnAttributes (slotOf slots k) ≠ lfnAttributes

/-- Slot `i` belongs to an existing file: it is its short entry, or one of the long-name slots
    directly in front of it. -/
def InUse (slots : List Slot) (i : ℕ) : Prop :=
  ∃ k, i ≤ k ∧ ShortEntry slots k ∧ ∀ j, i ≤ j → j < k →
    slotOf slots j 0 ≠ deletedMark ∧ sfnAttributes (slotOf slots j) = lfnAttributes

/-- There is no end mark in front of a slot in use. -/
theorem InUse.ne_zero (h : InUse slots i) {j : ℕ} (hj : j ≤ i) : slotOf slots j 0 ≠ 0 := by
  obtain ⟨k, hk, hshort, -⟩ := h
  exact hshort.1 j (hj.trans hk)

/-- The creation returns an error and the device is unchanged. -/
def Refused (g : VfatFSData) (d : Device) (name : List UInt8) (flags time date : ℕ) : Prop :=
  ∃ r, vfatCreateFile g d name flags time date = some (d, r) ∧ r.isError = true

/-- A creation succeeds unless the search leaves nothing of the path or more than a name. -/
theorem refused_iff_found (g : VfatFSData) (d : Device) (name : List UInt8) (flags time date : ℕ) :
    Refused g d name flags time date ↔ ∃ dir left,
      vfatFindFile g d name = some (.found dir left) ∧ (left = [] ∨ left.any isSeparator = true) := by
  unfold Refused
  rcases hfind : vfatFindFile g d name with - | (- | ⟨dir, left⟩)
  · rw [vfatCreateFile, hfind]
    simp
  · rw [vfatCreateFile, hfind]
    simp
  · rw [vfatCreateFile, hfind]
    dsimp only
    by_cases hnil : left = []
    · rw [if_pos hnil]
      exact iff_of_true ⟨_, rfl, rfl⟩ ⟨dir, left, rfl, .inl hnil⟩
    rw [if_neg hnil]
    by_cases hsep : left.any isSeparator = true
    · rw [if_pos hsep]
      exact iff_of_true ⟨_, rfl, rfl⟩ ⟨dir, left, rfl, .inr hsep⟩
    rw [if_neg hsep]
    refine iff_of_false (fun hrefused => ?_) fun hfound => ?_
    · obtain ⟨r, hcall, herror⟩ := hrefused
      have hr : r = .success := by
        split at hcall
        · cases hcall
        · split_ifs at hcall
          · exact (Prod.mk.inj (Option.some.inj hcall)).2.symm
          · exact (Prod.mk.inj (Option.some.inj hcall)).2.symm
      rw [hr] at herror
      cases herror
    · obtain ⟨dir', left', heq, hcond⟩ := hfound
      cases heq
      exact hcond.elim hnil hsep

/-- **Creating a file** is refused if and only if the path is that of an existing entry, or the
    component that is missing is not its last one, whether a cluster is free or not. -/
theorem refused_iff (g : VfatFSData) (d : Device) (name : List UInt8) (flags time date : ℕ) :
    (Refused g d name flags time date ↔ ∃ dir left,
      vfatFindFile g d name = some (.found dir left) ∧ (left = [] ∨ left.any isSeparator = true)) ∧
    (SoundVolume g d → parts name ≠ [] → NoTrailing name → (∀ p ∈ parts name, p.1.length ≤ 255) →
      (Refused g d name flags time date ↔ (∃ dir index, lookup g d name = .found dir index) ∨
        ∃ dir left, lookup g d name = .missing dir left ∧ left.any isSeparator = true)) := by
  refine ⟨refused_iff_found g d name flags time date, fun hs hne hlast hlen => ?_⟩
  rw [refused_iff_found]
  obtain ⟨r, hfind, hagrees⟩ := findLoop_lookup hs (show IsDirectory g d g.rootDir.firstCluster from .root)
    (Nat.lt_succ_self name.length) hlast hne hlen
  change vfatFindFile g d name = some r at hfind
  change Agrees (lookup g d name) r at hagrees
  rw [hfind]
  cases hlookup : lookup g d name with
  | found dir index =>
    rw [hlookup] at hagrees
    cases r with
    | unset => exact hagrees.elim
    | found file left => exact iff_of_true ⟨file, left, rfl, .inl hagrees.2.2⟩ (.inl ⟨dir, index, rfl⟩)
  | missing dir left =>
    have hleft : left ≠ [] := by
      rintro rfl
      exact walk_missing hne partsFrom_head hlookup rfl
    rw [hlookup] at hagrees
    cases r with
    | unset => exact hagrees.elim
    | found file left' =>
      obtain ⟨-, rfl⟩ := hagrees
      constructor
      · rintro ⟨_, _, heq, hcond⟩
        cases heq
        exact .inr ⟨dir, left', rfl, hcond.resolve_left hleft⟩
      · rintro (⟨_, _, heq⟩ | ⟨_, _, heq, hsep⟩)
        · cases heq
        · cases heq
          exact ⟨file, left', rfl, .inr hsep⟩
  | notDirectory =>
    rw [hlookup] at hagrees
    cases r with
    | unset =>
      refine iff_of_false ?_ ?_
      · rintro ⟨_, _, heq, -⟩
        cases heq
      · rintro (⟨_, _, heq⟩ | ⟨_, _, heq, -⟩)
        · cases heq
        · cases heq
    | found file left => exact hagrees.elim

/-! ### A new directory -/

/-- The first cluster of a new directory: an entry `.` for itself, an entry `..` for its parent, and
    zeros behind them. -/
structure NewDirectory (g : VfatFSData) (d : Device) (first parent : ℕ) : Prop where
  inside : cellAddr g first (clusterSize g) ≤ d.size
  dot : (load d.bytes (cellAddr g first 0) 11) = 0x2e :: List.replicate 10 0x20
  dotCluster : sfnFirstCluster (slotBuffer (load d.bytes (cellAddr g first 0) 32)) = first
  dotdot : (load d.bytes (cellAddr g first 32) 11) = 0x2e :: 0x2e :: List.replicate 9 0x20
  dotdotCluster : sfnFirstCluster (slotBuffer (load d.bytes (cellAddr g first 32) 32)) = parent
  zeros : ∀ o, 64 ≤ o → o < clusterSize g → d.bytes (cellAddr g first o) = 0

/-- The cleared sectors hold zeros, as far as they lie on the device. -/
theorem zeroCluster_inside (d : Device) {a base k first : ℕ}
    (hbase : g.dataOffset + clusterIndex first * clusterSize g = base) (hle : base ≤ a)
    (hlt : a < base + k * 512) (hin : a < d.size) : (zeroCluster g first k d).bytes a = 0 := by
  induction k with
  | zero => exact absurd hlt (by rw [Nat.zero_mul]; omega)
  | succ k ih =>
    rw [Nat.succ_mul, ← Nat.add_assoc] at hlt
    rw [zeroCluster, hbase]
    generalize hstart : base + k * 512 = start at *
    by_cases hlast : a < start
    · rw [Device.write_bytes_outside _ (.inl hlast), ih hlast]
    · have hserved : Device.served (zeroCluster g first k d) start (List.replicate 512 0) =
          List.replicate (min 512 (d.size - start)) 0 := by
        rw [Device.served, zeroCluster_size, List.take_replicate, Nat.min_comm]
      rw [Device.write, hserved]
      dsimp only
      rw [store_inside _ _ (by omega) (by rw [List.length_replicate]; omega), List.getElem_replicate]

/-- The last step of the creation of a directory. -/
theorem vfatCreateFile_directory {name : List UInt8} {flags time date : ℕ}
    (hcall : vfatCreateFile g d name flags time date = some (d', .success))
    (hflag : flags &&& directoryFlag ≠ 0) :
    ∃ d₁ c, d' = makeDirectory g d₁ (findFreeCluster g d) c time date := by
  rcases hfind : vfatFindFile g d name with - | (- | ⟨dir, left⟩)
  · rw [vfatCreateFile, hfind] at hcall
    cases hcall
  · rw [vfatCreateFile, hfind] at hcall
    cases hcall
  rw [vfatCreateFile, hfind] at hcall
  dsimp only at hcall
  by_cases hnil : left = []
  · rw [if_pos hnil] at hcall
    cases hcall
  rw [if_neg hnil] at hcall
  by_cases hsep : left.any isSeparator = true
  · rw [if_pos hsep] at hcall
    cases hcall
  rw [if_neg hsep] at hcall
  rcases hfree : vfatFindFreeEntry g (setNextCluster g d (findFreeCluster g d) eoc)
    dir.firstCluster with - | newIndex
  · rw [hfree] at hcall
    cases hcall
  rw [hfree] at hcall
  dsimp only at hcall
  rw [if_pos hflag] at hcall
  exact ⟨_, _, (Prod.mk.inj (Option.some.inj hcall)).1.symm⟩

/-- **A new directory** has no entries `.` and `..`: its cluster is cleared when they are written. -/
theorem not_newDirectory (hl : Layout g d.size) {name : List UInt8} {flags time date : ℕ}
    (hcall : vfatCreateFile g d name flags time date = some (d', .success))
    (hflag : flags &&& directoryFlag ≠ 0) (parent : ℕ) :
    ¬ NewDirectory g d' (findFreeCluster g d) parent := by
  intro hnew
  have hspc : 0 < g.sectorsPerCluster := by
    refine Nat.pos_of_ne_zero fun hzero => ?_
    have hpos := hl.clusterSize_pos
    rw [clusterSize, hzero, Nat.zero_mul] at hpos
    exact absurd hpos (by decide)
  have hbounds : 2 ≤ findFreeCluster g d ∧ findFreeCluster g d ≤ eoc := by
    obtain ⟨hc, -⟩ | ⟨heoc, -⟩ := findFreeCluster_spec hl
    · exact ⟨hc.1, hc.2.le.trans hl.maxCluster_le⟩
    · rw [heoc]
      exact ⟨by decide, le_rfl⟩
  have hbase : g.dataOffset + clusterIndex (findFreeCluster g d) * clusterSize g =
      cellAddr g (findFreeCluster g d) 0 := by
    rw [clusterIndex_eq hbounds.1 (lt_of_le_of_lt hbounds.2 (by decide))]
    rfl
  obtain ⟨d₁, c, rfl⟩ := vfatCreateFile_directory hcall hflag
  rw [makeDirectory] at hnew
  generalize (writeChain g _ _ (dotEntry 2 c time date) 32).1 = d₂ at hnew
  have hdot := congrArg (·.head?) hnew.dot
  have hinside := hnew.inside
  rw [zeroCluster_size] at hinside
  have hzero := zeroCluster_inside (a := cellAddr g (findFreeCluster g d) 0) d₂ hbase le_rfl
    (k := g.sectorsPerCluster) (by omega) (by have := hl.clusterSize_pos; unfold cellAddr at *; omega)
  change some (Device.bytes _ (cellAddr g (findFreeCluster g d) 0)) = some 0x2e at hdot
  rw [hzero] at hdot
  exact absurd hdot (by decide)

/-! ### The small volume -/

/-- The file `A` is there already. -/
theorem refused_iff_existing : Refused smallVolume (smallDevice 0) [0x41] 2 0 0 := by
  have hlast : NoTrailing [0x41] := by
    intro b hb
    obtain rfl := Option.some.inj hb
    rfl
  have hfound : lookup smallVolume (smallDevice 0) [0x41] = .found 2 1 := by decide +kernel
  exact ((refused_iff smallVolume (smallDevice 0) [0x41] 2 0 0).2 smallDevice_sound (by decide) hlast
    (by decide)).mpr (.inl ⟨2, 1, hfound⟩)

/-- On the full volume the file `B` is created with the end mark as its first cluster. -/
theorem created_on_full_volume : freeClusters smallVolume fullDevice = ∅ ∧
    ∃ d', vfatCreateFile smallVolume fullDevice [0x42] 2 0 0 = some (d', .success) ∧
      sfnFirstCluster (slotOf (allSlots smallVolume d' 2) 3) = eoc ∧
      sfnFirstCluster (slotOf (allSlots smallVolume fullDevice 2) 3) = 0 ∧
      ¬ Refused smallVolume fullDevice [0x42] 2 0 0 := by
  have hrun : (vfatCreateFile smallVolume fullDevice [0x42] 2 0 0).map (fun p =>
      (p.2, sfnFirstCluster (slotOf (allSlots smallVolume p.1 2) 3))) = some (.success, eoc) := by
    decide +kernel
  obtain ⟨⟨d', r⟩, hcall, hresult⟩ := Option.map_eq_some_iff.mp hrun
  obtain ⟨rfl, hafter⟩ := Prod.mk.inj hresult
  refine ⟨by decide +kernel, d', hcall, hafter, by decide +kernel, fun hrefused => ?_⟩
  obtain ⟨r, hcall', herror⟩ := hrefused
  rw [hcall] at hcall'
  cases hcall'
  cases herror

/-- The directory `B` in the root directory. -/
theorem not_newDirectory_small : ∃ d',
    vfatCreateFile smallVolume (smallDevice 0) [0x42] 0x0a 0 0 = some (d', .success) ∧
      ¬ NewDirectory smallVolume d' (findFreeCluster smallVolume (smallDevice 0)) 2 := by
  have hrun : (vfatCreateFile smallVolume (smallDevice 0) [0x42] 0x0a 0 0).map (·.2) =
      some .success := by
    decide +kernel
  obtain ⟨⟨d', r⟩, hcall, rfl⟩ := Option.map_eq_some_iff.mp hrun
  exact ⟨d', hcall, not_newDirectory (smallVolume_wellFormed 0).layout hcall (by decide) 2⟩

/-- The first byte of the directory `B`, in cluster 4, is zero and no dot. -/
theorem dots_cleared : ∃ d',
    vfatCreateFile smallVolume (smallDevice 0) [0x42] 0x0a 0 0 = some (d', .success) ∧
      d'.bytes (cellAddr smallVolume 4 0) = 0 ∧ ¬ NewDirectory smallVolume d' 4 2 := by
  have hrun : (vfatCreateFile smallVolume (smallDevice 0) [0x42] 0x0a 0 0).map (fun p =>
      (p.2, p.1.bytes (cellAddr smallVolume 4 0))) = some (.success, 0) := by
    decide +kernel
  obtain ⟨⟨d', r⟩, hcall, hresult⟩ := Option.map_eq_some_iff.mp hrun
  obtain ⟨rfl, hzero⟩ := Prod.mk.inj hresult
  refine ⟨d', hcall, hzero, fun hnew => ?_⟩
  have hdot := congrArg (·.head?) hnew.dot
  change some (d'.bytes (cellAddr smallVolume 4 0)) = some 0x2e at hdot
  rw [hzero] at hdot
  exact absurd hdot (by decide)

end XTOS.Vfat

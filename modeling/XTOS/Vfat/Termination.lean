import XTOS.Lib.FirstStop
import XTOS.Vfat.Decoders
import XTOS.Vfat.Endless

/-!
# When the loops of the driver end

The loops of `vfatFindFile`, `vfatFindFreeEntry`, `vfatReadDirectory`, `vfatGetFileInfo` and
`vfatDeleteFile` of `drivers/vfat/main.c` end at bytes that they find on the device. A loop ends if
some number of passes is enough for it.

## Main definitions

- `FreeEntryEnds`, `ReadDirectoryEnds`, `GetFileInfoEnds`, `FindFileEnds`, `DeleteEnds` — the calls
  end
- `MarksLeave` — the device behind the marks that `vfatDeleteFile` sets
- `ScanStops` — a slot where the search for a name stops
- `listSlot` — the buffer of `vfatReadDirectory` behind each read

## Main results

- `calls_end_iff` — exactly when the calls end

## Design notes

The offset of a read is a number, where the source has a 64-bit word. With clusters whose size is a
power of two the reads repeat after `2 ^ 32` clusters, before that word wraps around. The index of
`vfatFindFreeEntry` is a 32-bit word.
-/

namespace XTOS.Vfat

open SysLib

variable {g : VfatFSData} {d d' : Device} {c i k m n fuel limit index pos : ℕ} {l : List ℕ}
variable {lfns : List Slot} {name path : List UInt8} {readSlot : ℕ → List UInt8}

/-! ### Finding a free slot -/

/-- The loop of `vfatFindFreeEntry` with its 32-bit index. -/
def freeEntryLoop (g : VfatFSData) (d : Device) (dir : ℕ) : ℕ → ℕ → Option ℕ
  | 0, _ => none
  | fuel + 1, i =>
    let sfn := (slotAt g d dir i).2
    if sfn 0 = 0 ∨ sfn 0 = deletedMark then some i
    else freeEntryLoop g d dir fuel ((i + 1) % 2 ^ 32)

/-- `vfatFindFreeEntry` ends. -/
def FreeEntryEnds (g : VfatFSData) (d : Device) (dir : ℕ) : Prop :=
  ∃ fuel i, freeEntryLoop g d dir fuel 0 = some i

theorem freeEntryLoop_firstStop (g : VfatFSData) (d : Device) (dir fuel k : ℕ) :
    freeEntryLoop g d dir fuel (k % 2 ^ 32) =
      (firstStop (fun j => FreeSlot (slotAt g d dir (j % 2 ^ 32)).2) fuel k).map (· % 2 ^ 32) := by
  induction fuel generalizing k with
  | zero => rfl
  | succ fuel ih =>
    have hnext : (k % 2 ^ 32 + 1) % 2 ^ 32 = (k + 1) % 2 ^ 32 := by omega
    rw [freeEntryLoop, firstStop, hnext, ih]
    change (if FreeSlot (slotAt g d dir (k % 2 ^ 32)).2 then _ else _) = _
    split_ifs
    · rfl
    · rfl

theorem freeEntryEnds_iff (g : VfatFSData) (d : Device) (dir : ℕ) :
    FreeEntryEnds g d dir ↔ ∃ i < 2 ^ 32, FreeSlot (slotAt g d dir i).2 := by
  have hloop : FreeEntryEnds g d dir ↔
      ∃ fuel k, firstStop (fun j => FreeSlot (slotAt g d dir (j % 2 ^ 32)).2) fuel 0 = some k := by
    refine exists_congr fun fuel => ?_
    rw [show (0 : ℕ) = 0 % 2 ^ 32 from rfl, freeEntryLoop_firstStop]
    simp only [Option.map_eq_some_iff]
    constructor
    · rintro ⟨_, k, hk, -⟩
      exact ⟨k, hk⟩
    · rintro ⟨k, hk⟩
      exact ⟨_, k, hk, rfl⟩
  rw [hloop, firstStop_ends_iff]
  constructor
  · rintro ⟨k, -, hk⟩
    exact ⟨k % 2 ^ 32, Nat.mod_lt _ (by decide), hk⟩
  · rintro ⟨i, hi, hfree⟩
    exact ⟨i, Nat.zero_le i, by rwa [Nat.mod_eq_of_lt hi]⟩

/-! ### Listing a directory -/

/-- The buffer of `vfatReadDirectory` in front of the read of slot `i`: it is cleared behind each
    entry, and a read that fails keeps it. -/
def listBuffer (readSlot : ℕ → List UInt8) : ℕ → Slot
  | 0 => fun _ => 0
  | i + 1 =>
    let slot := store (listBuffer readSlot i) 0 (readSlot i)
    if sfnAttributes slot = lfnAttributes then slot else fun _ => 0

/-- The buffer behind the read of slot `i`. -/
def listSlot (readSlot : ℕ → List UInt8) (i : ℕ) : Slot := store (listBuffer readSlot i) 0 (readSlot i)

/-- An entry ends with the read of slot `i`. -/
def EntryEnds (readSlot : ℕ → List UInt8) (i : ℕ) : Prop :=
  sfnAttributes (listSlot readSlot i) ≠ lfnAttributes

instance (readSlot : ℕ → List UInt8) : DecidablePred (EntryEnds readSlot) := fun i =>
  inferInstanceAs (Decidable (sfnAttributes (listSlot readSlot i) ≠ lfnAttributes))

/-- `vfatReadDirectory` ends. The loop for its own entry reads like that for the `pos` entries in
    front of it. -/
def ReadDirectoryEnds (readSlot : ℕ → List UInt8) (pos : ℕ) : Prop :=
  ∃ limit index, skipEntries readSlot limit (pos + 1) 0 = some index

/-- The loop for one entry, with room for all slots that it reads. -/
theorem readEntry_firstStop (readSlot : ℕ → List UInt8) (h : lfns.length + fuel = limit) :
    (readEntry readSlot limit fuel index (listBuffer readSlot index) lfns).map (·.1) =
      (firstStop (EntryEnds readSlot) fuel index).map (· + 1) := by
  induction fuel generalizing index lfns with
  | zero => rfl
  | succ fuel ih =>
    have hnext : listBuffer readSlot (index + 1) = if sfnAttributes (listSlot readSlot index) =
        lfnAttributes then listSlot readSlot index else fun _ => 0 := rfl
    rw [readEntry, firstStop, ← listSlot]
    by_cases hlong : sfnAttributes (listSlot readSlot index) = lfnAttributes
    · rw [if_pos hlong] at hnext
      have hnot : ¬ EntryEnds readSlot index := not_not.mpr hlong
      rw [if_pos hlong, if_pos (by omega), if_neg hnot, ← hnext]
      exact ih (by rw [List.length_append, List.length_singleton]; omega)
    · have hends : EntryEnds readSlot index := hlong
      rw [if_neg hlong, if_pos hends]
      rfl

theorem listBuffer_of_ends (h : EntryEnds readSlot i) :
    listBuffer readSlot (i + 1) = fun _ => 0 := if_neg h

theorem readEntry_start (readSlot : ℕ → List UInt8) (limit : ℕ)
    (hstart : listBuffer readSlot index = fun _ => 0) :
    (readEntry readSlot limit limit index (fun _ => 0) []).map (·.1) =
      (firstStop (EntryEnds readSlot) limit index).map (· + 1) := by
  rw [← hstart]
  exact readEntry_firstStop readSlot (Nat.zero_add limit)

/-- Skipping entries ends if and only if there are as many ends of entries. -/
theorem skipEntries_ends_iff (hstart : listBuffer readSlot index = fun _ => 0) :
    (∃ limit index', skipEntries readSlot limit pos index = some index') ↔
      ∃ n, Nat.count (EntryEnds readSlot) index + pos ≤ Nat.count (EntryEnds readSlot) n := by
  constructor
  · rintro ⟨limit, index', hskip⟩
    induction pos generalizing index with
    | zero => exact ⟨index, le_rfl⟩
    | succ pos ih =>
      have hentry := readEntry_start readSlot limit hstart
      rw [skipEntries] at hskip
      cases hread : readEntry readSlot limit limit index (fun _ => 0) [] with
      | none =>
        rw [hread] at hskip
        cases hskip
      | some result =>
        rw [hread] at hskip hentry
        obtain ⟨m, hm, hnext⟩ := Option.map_eq_some_iff.mp hentry.symm
        obtain ⟨-, -, hends, -⟩ := firstStop_eq_some_iff.mp hm
        have hcount := count_succ_firstStop hm
        obtain ⟨next, sfn, lfns⟩ := result
        obtain rfl : m + 1 = next := hnext
        obtain ⟨n, hn⟩ := ih (listBuffer_of_ends hends) hskip
        exact ⟨n, by omega⟩
  · rintro ⟨n, hn⟩
    refine ⟨n, ?_⟩
    induction pos generalizing index with
    | zero => exact ⟨index, rfl⟩
    | succ pos ih =>
      obtain ⟨j, hj, hjn, hends⟩ := exists_stop_of_count_lt
        (show Nat.count (EntryEnds readSlot) index < Nat.count (EntryEnds readSlot) n by omega)
      obtain ⟨m, hm, -⟩ := firstStop_of_stop hends hj (show j < index + n by omega)
      have hentry := readEntry_start readSlot n hstart
      rw [hm] at hentry
      obtain ⟨⟨next, sfn, lfns⟩, hread, rfl⟩ := Option.map_eq_some_iff.mp hentry
      obtain ⟨-, -, hends, -⟩ := firstStop_eq_some_iff.mp hm
      have hcount := count_succ_firstStop hm
      have hrest : Nat.count (EntryEnds readSlot) (m + 1) + pos ≤ Nat.count (EntryEnds readSlot) n := by
        omega
      rw [skipEntries, hread]
      exact ih (listBuffer_of_ends hends) hrest

/-- `vfatReadDirectory` ends at a position if and only if the reads of the slots, with a buffer that
    is kept where they fail, show more ends of entries than the position. -/
theorem readDirectoryEnds_iff (readSlot : ℕ → List UInt8) (pos : ℕ) :
    ReadDirectoryEnds readSlot pos ↔ ∃ n, pos < Nat.count (EntryEnds readSlot) n := by
  rw [ReadDirectoryEnds, skipEntries_ends_iff rfl, Nat.count_zero, Nat.zero_add]
  exact Iff.rfl

/-! ### The information of a file -/

/-- `vfatGetFileInfo` ends: from some pass on it has stored all slots that it stores. -/
def GetFileInfoEnds (g : VfatFSData) (d : Device) (file : VfatFileData) : Prop :=
  ∃ lfns n, ∀ fuel, n ≤ fuel → infoStored g d file fuel = lfns

/-- A loop that stores slots ends if and only if it has a run. -/
theorem collect_ends_iff (b : ℕ → Slot) (last : Slot → Bool) :
    (∃ lfns n, ∀ fuel, n ≤ fuel → collect b last fuel 0 = lfns) ↔ ∃ m, Run b last m := by
  constructor
  · rintro ⟨lfns, n, hends⟩
    by_contra hrun
    push Not at hrun
    have hlen : ∀ k, (collect b last (k + 1) 0).length = k + 1 := fun k =>
      collect_long (i := k) (fun m _ => hrun m) (Nat.zero_add _) fun j hj =>
        absurd hj (Nat.not_lt_zero j)
    have h1 := hlen n
    have h2 := hlen (n + 1)
    rw [hends (n + 1) (by omega)] at h1
    rw [hends (n + 1 + 1) (by omega)] at h2
    omega
  · rintro ⟨m, hrun⟩
    exact ⟨_, m + 1, fun fuel hfuel =>
      hrun.collect (Nat.zero_le m) (fun _ => .inl rfl) (by omega)⟩

theorem getFileInfoEnds_iff (g : VfatFSData) (d : Device) (file : VfatFileData) :
    GetFileInfoEnds g d file ↔ ∃ m, Run (infoSlots g d file) lastSlot m := by
  rw [← collect_ends_iff]
  simp only [GetFileInfoEnds, infoStored_eq]

/-! ### The search along a path -/

/-- `lfnBuffer` in front of slot `i`. -/
def frontSlots (g : VfatFSData) (d : Device) (dir : ℕ) : ℕ → List Slot
  | 0 => []
  | i + 1 => nextLfns (frontSlots g d dir i) (slotAt g d dir i).2

/-- A live short entry in slot `i` whose name is the one that the search is for. -/
def ScanMatches (g : VfatFSData) (d : Device) (dir : ℕ) (name : List UInt8) (i : ℕ) : Prop :=
  Short (slotAt g d dir i).2 ∧ xtStringCmp name (lfnName (frontSlots g d dir i)) 256 = true

/-- The search for a name stops at slot `i`: it cannot be read, is an end mark, or has the name. -/
def ScanStops (g : VfatFSData) (d : Device) (dir : ℕ) (name : List UInt8) (i : ℕ) : Prop :=
  ((slotAt g d dir i).1 ≠ .success ∨ (slotAt g d dir i).2 0 = 0) ∨ ScanMatches g d dir name i

instance (slot : Slot) : Decidable (Short slot) :=
  inferInstanceAs (Decidable (¬ (slot 0 = deletedMark ∨ sfnAttributes slot = lfnAttributes)))

instance (dir : ℕ) : DecidablePred (ScanStops g d dir name) := fun i =>
  inferInstanceAs (Decidable (((slotAt g d dir i).1 ≠ .success ∨ (slotAt g d dir i).2 0 = 0) ∨
    (Short (slotAt g d dir i).2 ∧ xtStringCmp name (lfnName (frontSlots g d dir i)) 256 = true)))

/-- `findLoop` with a limit on the slots that it looks at in a directory. -/
def findLimited (g : VfatFSData) (d : Device) (limit : ℕ) :
    ℕ → VfatFileData → List UInt8 → Option FindResult
  | 0, current, path => some (.found current path)
  | fuel + 1, current, path =>
    if path.dropWhile isSeparator = [] then some (.found current [])
    else
      match scanDir g d current.firstCluster (nextName path) limit 0 [] with
      | none => none
      | some none => some (.found current (path.dropWhile isSeparator))
      | some (some (index, sfn)) =>
        if (pathBehind path).dropWhile isSeparator = [] then
          some (.found { current with index := index } (pathBehind path))
        else if sfnAttributes sfn &&& subdir = 0 then some .unset
        else findLimited g d limit fuel
          { current with firstCluster := sfnFirstCluster sfn, index := 0 } (pathBehind path)

/-- `vfatFindFile` ends. -/
def FindFileEnds (g : VfatFSData) (d : Device) (path : List UInt8) : Prop :=
  ∃ limit r, findLimited g d limit (path.length + 1) g.rootDir path = some r

theorem findLoop_eq (g : VfatFSData) (d : Device) (fuel : ℕ) (current : VfatFileData)
    (path : List UInt8) :
    findLoop g d fuel current path = findLimited g d (slotLimit g) fuel current path := by
  induction fuel generalizing current path with
  | zero => rfl
  | succ fuel ih =>
    rw [findLoop, findLimited]
    simp only [ih]
    rfl

theorem scanDir_firstStop (g : VfatFSData) (d : Device) (dir : ℕ) (name : List UInt8)
    (fuel i : ℕ) : scanDir g d dir name fuel i (frontSlots g d dir i) =
      (firstStop (ScanStops g d dir name) fuel i).map fun m =>
        if (slotAt g d dir m).1 ≠ .success ∨ (slotAt g d dir m).2 0 = 0 then none
        else some (m, (slotAt g d dir m).2) := by
  induction fuel generalizing i with
  | zero => rfl
  | succ fuel ih =>
    rw [scanDir, firstStop]
    dsimp only
    by_cases hend : (slotAt g d dir i).1 ≠ .success ∨ (slotAt g d dir i).2 0 = 0
    · have hstop : ScanStops g d dir name i := .inl hend
      rw [if_pos hend, if_pos hstop, Option.map_some, if_pos hend]
    rw [if_neg hend]
    have hnext := ih (i + 1)
    rw [frontSlots, nextLfns] at hnext
    by_cases hskip : (slotAt g d dir i).2 0 = deletedMark ∨
        sfnAttributes (slotAt g d dir i).2 = lfnAttributes
    · have hgo : ¬ ScanStops g d dir name i := by
        rintro (h | h)
        · exact hend h
        · exact h.1 hskip
      rw [if_pos hskip, if_neg hgo]
      exact hnext
    · rw [if_neg hskip]
      by_cases hcmp : xtStringCmp name (lfnName (frontSlots g d dir i)) 256 = true
      · have hstop : ScanStops g d dir name i := .inr ⟨hskip, hcmp⟩
        rw [if_pos hcmp, if_pos hstop, Option.map_some, if_neg hend]
      · have hgo : ¬ ScanStops g d dir name i := by
          rintro (h | h)
          · exact hend h
          · exact hcmp h.2
        have hlong : ¬ (sfnAttributes (slotAt g d dir i).2 = lfnAttributes ∧
            (frontSlots g d dir i).length < 20) := fun h => hskip (.inr h.1)
        rw [if_neg hlong] at hnext
        rw [if_neg hcmp, if_neg hgo]
        exact hnext

/-- The search in one directory ends if and only if there is a slot where it stops. -/
theorem scanDir_ends_iff (g : VfatFSData) (d : Device) (dir : ℕ) (name : List UInt8) :
    (∃ limit r, scanDir g d dir name limit 0 [] = some r) ↔ ∃ i, ScanStops g d dir name i := by
  have hstops : (∃ i, ScanStops g d dir name i) ↔ ∃ i, 0 ≤ i ∧ ScanStops g d dir name i := by
    simp
  rw [hstops, ← firstStop_ends_iff]
  refine exists_congr fun limit => ?_
  have hscan := scanDir_firstStop g d dir name limit 0
  rw [frontSlots] at hscan
  rw [hscan]
  simp only [Option.map_eq_some_iff]
  constructor
  · rintro ⟨_, m, hm, -⟩
    exact ⟨m, hm⟩
  · rintro ⟨m, hm⟩
    exact ⟨_, m, hm, rfl⟩

/-- More slots do not change what the search found. -/
theorem scanDir_mono {dir : ℕ} {r : Option (ℕ × Slot)} (h : scanDir g d dir name limit 0 [] = some r)
    {limit' : ℕ} (hle : limit ≤ limit') : scanDir g d dir name limit' 0 [] = some r := by
  have hscan := fun limit => scanDir_firstStop g d dir name limit 0
  simp only [frontSlots] at hscan
  rw [hscan] at h ⊢
  obtain ⟨m, hm, hr⟩ := Option.map_eq_some_iff.mp h
  rw [firstStop_mono hm hle, Option.map_some, hr]

/-- The results of two searches in a directory that end are the same. -/
theorem scanDir_unique {dir limit' : ℕ} {r r' : Option (ℕ × Slot)}
    (h : scanDir g d dir name limit 0 [] = some r) (h' : scanDir g d dir name limit' 0 [] = some r') :
    r = r' := by
  have h1 := scanDir_mono h (Nat.le_max_left limit limit')
  have h2 := scanDir_mono h' (Nat.le_max_right limit limit')
  exact Option.some.inj (h1.symm.trans h2)

theorem findLimited_mono {current : VfatFileData} {r : FindResult}
    (h : findLimited g d limit fuel current path = some r) {limit' : ℕ} (hle : limit ≤ limit') :
    findLimited g d limit' fuel current path = some r := by
  induction fuel generalizing current path with
  | zero => exact h
  | succ fuel ih =>
    rw [findLimited] at h ⊢
    by_cases hnil : path.dropWhile isSeparator = []
    · rw [if_pos hnil] at h ⊢
      exact h
    rw [if_neg hnil] at h ⊢
    cases hscan : scanDir g d current.firstCluster (nextName path) limit 0 [] with
    | none =>
      rw [hscan] at h
      cases h
    | some found =>
      rw [hscan] at h
      rw [scanDir_mono hscan hle]
      cases found with
      | none => exact h
      | some entry =>
        dsimp only at h ⊢
        by_cases hmore : (pathBehind path).dropWhile isSeparator = []
        · rw [if_pos hmore] at h ⊢
          exact h
        rw [if_neg hmore] at h ⊢
        by_cases hsub : sfnAttributes entry.2 &&& subdir = 0
        · rw [if_pos hsub] at h ⊢
          exact h
        · rw [if_neg hsub] at h ⊢
          exact ih h

/-- The search takes a byte of the path at least for each directory. -/
theorem length_pathBehind_lt (h : path.dropWhile isSeparator ≠ []) :
    (pathBehind path).length < path.length := by
  have hpos := List.length_pos_of_ne_nil (nextComponent_ne_nil h)
  refine length_behind_name_lt h ?_
  rw [nextName, List.length_take]
  omega

/-- A search that ends has come to an end in every directory on its way. -/
theorem Visits.findLimited {limit : ℕ} {r : FindResult} {rest : List UInt8} (h : Visits g d path c rest)
    (hends : findLimited g d limit (path.length + 1) g.rootDir path = some r) :
    ∃ fuel current r, current.firstCluster = c ∧ rest.length < fuel ∧
      findLimited g d limit fuel current rest = some r := by
  induction h with
  | root => exact ⟨path.length + 1, g.rootDir, r, rfl, Nat.lt_succ_self _, hends⟩
  | @enter c rest limit' index sfn _ hfound hmore hsub ih =>
    obtain ⟨fuel, current, r, rfl, hfuel, hcall⟩ := ih
    obtain ⟨fuel, rfl⟩ : ∃ n, fuel = n + 1 := Nat.exists_eq_add_one.mpr (by omega)
    have hhead : rest.dropWhile isSeparator ≠ [] := by
      intro hnil
      rw [pathBehind, hnil, List.drop_nil] at hmore
      exact hmore rfl
    rw [Vfat.findLimited, if_neg hhead] at hcall
    cases hscan : scanDir g d current.firstCluster (nextName rest) limit 0 [] with
    | none =>
      rw [hscan] at hcall
      cases hcall
    | some found =>
      rw [hscan] at hcall
      obtain rfl := scanDir_unique hfound hscan
      dsimp only at hcall
      rw [if_neg hmore, if_neg hsub] at hcall
      have hlen := length_pathBehind_lt hhead
      exact ⟨fuel, _, r, rfl, by omega, hcall⟩

/-- A search that can stop in every directory on its way ends. -/
theorem findLimited_of_stops {rest : List UInt8}
    (hstops : ∀ c rest, Visits g d path c rest → rest.dropWhile isSeparator ≠ [] →
      ∃ i, ScanStops g d c (nextName rest) i) {current : VfatFileData}
    (h : Visits g d path current.firstCluster rest) (hfuel : rest.length < fuel) :
    ∃ limit r, findLimited g d limit fuel current rest = some r := by
  induction fuel generalizing current rest with
  | zero => omega
  | succ fuel ih =>
    by_cases hnil : rest.dropWhile isSeparator = []
    · exact ⟨0, _, if_pos hnil⟩
    obtain ⟨limit, found, hscan⟩ := (scanDir_ends_iff g d _ _).mpr (hstops _ _ h hnil)
    cases found with
    | none =>
      refine ⟨limit, .found current (rest.dropWhile isSeparator), ?_⟩
      rw [findLimited, if_neg hnil, hscan]
    | some entry =>
      obtain ⟨index, sfn⟩ := entry
      by_cases hmore : (pathBehind rest).dropWhile isSeparator = []
      · refine ⟨limit, .found { current with index := index } (pathBehind rest), ?_⟩
        rw [findLimited, if_neg hnil, hscan]
        exact if_pos hmore
      by_cases hsub : sfnAttributes sfn &&& subdir = 0
      · refine ⟨limit, .unset, ?_⟩
        rw [findLimited, if_neg hnil, hscan]
        dsimp only
        rw [if_neg hmore, if_pos hsub]
      · have hlen := length_pathBehind_lt hnil
        obtain ⟨limit', r, hrest⟩ := @ih (pathBehind rest)
          { current with firstCluster := sfnFirstCluster sfn, index := 0 }
          (h.enter hscan hmore hsub) (by omega)
        refine ⟨max limit limit', r, ?_⟩
        rw [findLimited, if_neg hnil, scanDir_mono hscan (Nat.le_max_left _ _)]
        dsimp only
        rw [if_neg hmore, if_neg hsub]
        exact findLimited_mono hrest (Nat.le_max_right _ _)

theorem findFileEnds_iff (g : VfatFSData) (d : Device) (path : List UInt8) :
    FindFileEnds g d path ↔ ∀ c rest, Visits g d path c rest → rest.dropWhile isSeparator ≠ [] →
      ∃ i, ScanStops g d c (nextName rest) i := by
  constructor
  · rintro ⟨limit, r, hends⟩ c rest hvisit hhead
    obtain ⟨fuel, current, r, rfl, hfuel, hcall⟩ := hvisit.findLimited hends
    obtain ⟨fuel, rfl⟩ : ∃ n, fuel = n + 1 := Nat.exists_eq_add_one.mpr (by omega)
    rw [findLimited, if_neg hhead] at hcall
    refine (scanDir_ends_iff g d _ _).mp ⟨limit, ?_⟩
    cases hscan : scanDir g d current.firstCluster (nextName rest) limit 0 [] with
    | none =>
      rw [hscan] at hcall
      cases hcall
    | some found => exact ⟨found, rfl⟩
  · exact fun hstops => findLimited_of_stops hstops .root (Nat.lt_succ_self _)

/-! ### Deleting a file -/

/-- The short entry with the mark that `vfatDeleteFile` writes. -/
def markedSfn (g : VfatFSData) (d : Device) (file : VfatFileData) : Slot :=
  Function.update (slotAt g d file.firstCluster file.index).2 0 deletedMark

/-- The search, where it ends, ends at `file`. -/
def Finds (g : VfatFSData) (d : Device) (path : List UInt8) (file : VfatFileData) : Prop :=
  ∃ limit left, findLimited g d limit (path.length + 1) g.rootDir path = some (.found file left)

/-- The first cluster in the entry of a file. -/
def entryCluster (g : VfatFSData) (d : Device) (file : VfatFileData) : ℕ :=
  sfnFirstCluster (slotAt g d file.firstCluster file.index).2

/-- `vfatDeleteFile` ends: the search, the loop over the long-name slots, which has its result from
    some pass on, and the loop along the clusters of the file. -/
structure DeleteEnds (g : VfatFSData) (d : Device) (path : List UInt8) : Prop where
  search : FindFileEnds g d path
  loops : ∀ file, Finds g d path file →
    ∃ n r, (∀ fuel, n ≤ fuel → clearLfn g file.firstCluster file.index fuel
        (writeSlot g d file.firstCluster file.index (markedSfn g d file)) (fun _ => 0) 0 = r) ∧
      ∃ fuel d', freeLoop g fuel r.1 (sfnFirstCluster (markedSfn g d file)) = some d'

/-- The loop over the long-name slots ends, and the marks leave the device `d₁`. -/
def MarksLeave (g : VfatFSData) (d : Device) (file : VfatFileData) (d₁ : Device) : Prop :=
  ∃ n count, ∀ fuel, n ≤ fuel → clearLfn g file.firstCluster file.index fuel
    (writeSlot g d file.firstCluster file.index (markedSfn g d file)) (fun _ => 0) 0 = (d₁, count)

/-- On every device the last loop of `vfatDeleteFile` follows the links that the marks leave. -/
theorem deleteEnds_iff_marks (g : VfatFSData) (d : Device) (path : List UInt8) :
    DeleteEnds g d path ↔ FindFileEnds g d path ∧
      ∀ file, Finds g d path file → ∃ d₁, MarksLeave g d file d₁ ∧ Ends g d₁ (entryCluster g d file) := by
  have hmark : ∀ file, sfnFirstCluster (markedSfn g d file) = entryCluster g d file :=
    fun file => sfnFirstCluster_mark _
  constructor
  · intro h
    refine ⟨h.search, fun file hfile => ?_⟩
    obtain ⟨n, ⟨d₁, count⟩, hr, hfree⟩ := h.loops file hfile
    rw [hmark, freeLoop_ends_iff] at hfree
    exact ⟨d₁, ⟨n, count, hr⟩, hfree⟩
  · rintro ⟨hsearch, hends⟩
    refine ⟨hsearch, fun file hfile => ?_⟩
    obtain ⟨d₁, ⟨n, count, hr⟩, hlinks⟩ := hends file hfile
    refine ⟨n, (d₁, count), hr, ?_⟩
    rw [hmark, freeLoop_ends_iff]
    exact hlinks

theorem marksLeave_of {file : VfatFileData} {r : Device × ℕ}
    (h : ∀ fuel, n ≤ fuel → clearLfn g file.firstCluster file.index fuel
      (writeSlot g d file.firstCluster file.index (markedSfn g d file)) (fun _ => 0) 0 = r) :
    MarksLeave g d file r.1 :=
  ⟨n, r.2, h⟩

/-- The marks leave one device. -/
theorem MarksLeave.unique {file : VfatFileData} {d₁ d₂ : Device} (h : MarksLeave g d file d₁)
    (h' : MarksLeave g d file d₂) : d₁ = d₂ := by
  obtain ⟨n, count, hr⟩ := h
  obtain ⟨n', count', hr'⟩ := h'
  have hsame := (hr (max n n') (Nat.le_max_left _ _)).symm.trans (hr' _ (Nat.le_max_right _ _))
  exact congrArg Prod.fst hsame

/-- The slot of an entry that a search in a chain finds lies in the chain. -/
theorem scanDir_within {dir i : ℕ} {sfn : Slot} (hwf : WellFormed g d.size) (hc : Chain g d dir l)
    (hne : l ≠ []) (h : scanDir g d dir name limit 0 [] = some (some (i, sfn))) :
    i * 32 + 32 ≤ l.length * clusterSize g := by
  have hscan := scanDir_firstStop g d dir name limit 0
  rw [frontSlots, h] at hscan
  obtain ⟨m, hm, hresult⟩ := Option.map_eq_some_iff.mp hscan.symm
  split_ifs at hresult with hend
  cases hresult
  obtain ⟨-, -, -, hfirst⟩ := firstStop_eq_some_iff.mp hm
  have hlast := hc.slotAt_end hwf hne
  have hslots := hc.allSlots_end hwf.layout
  have hread : (slotAt g d dir i).1 = .success := by
    by_contra hfail
    exact hend (.inl hfail)
  have hlt : i < (allSlots g d dir).length := by
    by_contra hge
    obtain heq | hlt := Nat.eq_or_lt_of_le (Nat.le_of_not_lt hge)
    · rw [heq, hread] at hlast
      cases hlast
    · refine hfirst _ (Nat.zero_le _) hlt (.inl (.inl ?_))
      rw [hlast]
      decide
  omega

/-- The entry of a file that the search found is in the slot that it is found in. -/
theorem findLimited_index {current file : VfatFileData} {left : List UInt8}
    (h : findLimited g d limit fuel current path = some (.found file left))
    (hindex : current.index = 0) : file.index = 0 ∨
      ∃ name sfn, scanDir g d file.firstCluster name limit 0 [] = some (some (file.index, sfn)) := by
  induction fuel generalizing current path with
  | zero =>
    cases h
    exact .inl hindex
  | succ fuel ih =>
    rw [findLimited] at h
    by_cases hnil : path.dropWhile isSeparator = []
    · rw [if_pos hnil] at h
      cases h
      exact .inl hindex
    rw [if_neg hnil] at h
    cases hscan : scanDir g d current.firstCluster (nextName path) limit 0 [] with
    | none =>
      rw [hscan] at h
      cases h
    | some found =>
      rw [hscan] at h
      cases found with
      | none =>
        cases h
        exact .inl hindex
      | some entry =>
        dsimp only at h
        by_cases hmore : (pathBehind path).dropWhile isSeparator = []
        · rw [if_pos hmore] at h
          cases h
          exact .inr ⟨_, _, hscan⟩
        rw [if_neg hmore] at h
        by_cases hsub : sfnAttributes entry.2 &&& subdir = 0
        · rw [if_pos hsub] at h
          cases h
        · rw [if_neg hsub] at h
          exact ih h rfl

/-- The loop over the long-name slots has its result, and changes no end of another chain, in a
    directory with a chain. -/
theorem Chain.clear_ends {file : VfatFileData} {first : ℕ} (hwf : WellFormed g d.size)
    (hc : Chain g d file.firstCluster l) (hne : l ≠ [])
    (hslot : file.index * 32 + 32 ≤ l.length * clusterSize g)
    (hlinks : LinksIn g d {x | x < maxCluster g} first) :
    ∃ d₁, MarksLeave g d file d₁ ∧ (Ends g d₁ first ↔ Ends g d first) := by
  have hle := hslot.trans (hc.slots_le hwf)
  have hlen : (load (markedSfn g d file) 0 32).length = 32 := length_load _ _ _
  obtain ⟨l₁, hwrote⟩ := Rewrote.one hwf.layout hc hne hlen
    (show file.index * 32 / clusterSize g < 2 ^ 32 from lt_of_le_of_lt (Nat.div_le_self _ _) (by omega))
  obtain ⟨-, l₂, hgrown, -⟩ := slots_grown hwf hc hslot hlen
  rw [← writeSlot] at hwrote hgrown
  have hwf₁ : WellFormed g (writeSlot g d file.firstCluster file.index (markedSfn g d file)).size := by
    rw [hwrote.grown.size]
    exact hwf
  have hne₁ : l₁ ≠ [] := List.ne_nil_of_length_pos
    (lt_of_lt_of_le (List.length_pos_of_ne_nil hne) hwrote.grown.keep.length_le)
  have hmono := Nat.mul_le_mul_right (clusterSize g) hwrote.grown.keep.length_le
  obtain ⟨d₂, -, hclear, -⟩ := clearLfn_spec hwf₁ hwrote.grown.chain hne₁ (fun _ _ => rfl)
    (show file.index * 32 ≤ l₁.length * clusterSize g by omega)
  refine ⟨d₂, marksLeave_of fun fuel hfuel => hclear fuel hfuel, ?_⟩
  have hlast := hclear (file.index + 2) (by omega)
  rw [hlast] at hgrown
  exact hgrown.ends_iff hlinks

/-- The same in a directory without an end. -/
theorem Endless.clear_ends {file : VfatFileData} {first : ℕ} (hwf : WellFormed g d.size)
    (h : Endless g d file.firstCluster) (hlinks : LinksIn g d {x | x < maxCluster g} first) :
    ∃ d₁, MarksLeave g d file d₁ ∧ (Ends g d₁ first ↔ Ends g d first) := by
  obtain ⟨a, haddr, -, -, hwrite⟩ := h.slot hwf file.index
  have hlen : (load (markedSfn g d file) 0 32).length = 32 := length_load _ _ _
  have hlinks₁ := links_of_store hwf.layout (haddr.mod hwf.slots).1 (load (markedSfn g d file) 0 32)
  rw [← hwrite _ hlen, ← writeSlot] at hlinks₁
  have hsize : (writeSlot g d file.firstCluster file.index (markedSfn g d file)).size = d.size := by
    rw [writeSlot, hwrite _ hlen]
  obtain ⟨n, r, hresult, hlinks₂⟩ := clearLfn_endless (n := file.index) (by rw [hsize]; exact hwf)
    (h.congr hlinks₁) (fun _ => 0) 0
  refine ⟨r.1, marksLeave_of hresult, ?_⟩
  exact hlinks.ends_iff (t := ∅) (fun _ hx => absurd hx (Set.notMem_empty _))
    fun x hx _ => (hlinks₂ x hx).trans (hlinks₁ x hx)

/-- `vfatDeleteFile` ends if and only if its search does and the links of the file that it finds
    lead to an end, where the links of the directory and those of the file stay in the table. -/
theorem deleteEnds_iff (hwf : WellFormed g d.size) (hroot : g.rootDir.index = 0)
    (hlinks : ∀ file, Finds g d path file → LinksIn g d {x | IsCluster g x} file.firstCluster ∧
      LinksIn g d {x | x < maxCluster g} (entryCluster g d file)) :
    DeleteEnds g d path ↔
      FindFileEnds g d path ∧ ∀ file, Finds g d path file → Ends g d (entryCluster g d file) := by
  have hclear : ∀ file, Finds g d path file →
      ∃ d₁, MarksLeave g d file d₁ ∧
        (Ends g d₁ (entryCluster g d file) ↔ Ends g d (entryCluster g d file)) := by
    intro file hfile
    obtain ⟨hdir, hfirst⟩ := hlinks file hfile
    obtain ⟨l, hc, hne⟩ | hendless := hdir.chain_or_endless hwf.layout
    · refine hc.clear_ends hwf hne ?_ hfirst
      obtain ⟨limit, left, hfound⟩ := hfile
      obtain hzero | ⟨name, sfn, hscan⟩ := findLimited_index hfound hroot
      · have hpos := Nat.mul_le_mul_right (clusterSize g) (List.length_pos_of_ne_nil hne)
        have h1 := hwf.clusterSize_pos
        have h2 := hwf.slots
        rw [hzero]
        omega
      · exact scanDir_within hwf hc hne hscan
    · exact hendless.clear_ends hwf hfirst
  rw [deleteEnds_iff_marks]
  refine and_congr_right fun _ => forall_congr' fun file => forall_congr' fun hfile => ?_
  obtain ⟨d₁, hmarks, hkept⟩ := hclear file hfile
  constructor
  · rintro ⟨d₂, hmarks', hends⟩
    obtain rfl := hmarks.unique hmarks'
    exact hkept.mp hends
  · intro hends
    exact ⟨d₁, hmarks, hkept.mpr hends⟩

/-- **The five calls** end exactly when the bytes on the device let them: a free slot is there for
    `vfatFindFreeEntry`, a slot to stop at in every directory on the way for `vfatFindFile`, enough
    ends of entries for `vfatReadDirectory`, an end of the long name for `vfatGetFileInfo`, and for
    `vfatDeleteFile` an end of the links that the marks in the directory leave. On a well-formed
    volume whose links stay in the table these are the links in front of the call. -/
theorem calls_end_iff (g : VfatFSData) (d : Device) :
    (∀ c, FreeEntryEnds g d c ↔ ∃ i < 2 ^ 32, FreeSlot (slotAt g d c i).2) ∧
    (∀ path, FindFileEnds g d path ↔ ∀ c rest, Visits g d path c rest →
      rest.dropWhile isSeparator ≠ [] → ∃ i, ScanStops g d c (nextName rest) i) ∧
    (∀ c pos, ReadDirectoryEnds (dirSlot g d c) pos ↔
      ∃ n, pos < Nat.count (EntryEnds (dirSlot g d c)) n) ∧
    (∀ file, GetFileInfoEnds g d file ↔ ∃ m, Run (infoSlots g d file) lastSlot m) ∧
    (∀ path, DeleteEnds g d path ↔ FindFileEnds g d path ∧ ∀ file, Finds g d path file →
      ∃ d₁, MarksLeave g d file d₁ ∧ Ends g d₁ (entryCluster g d file)) ∧
    ∀ path, WellFormed g d.size → g.rootDir.index = 0 →
      (∀ file, Finds g d path file → LinksIn g d {x | IsCluster g x} file.firstCluster ∧
        LinksIn g d {x | x < maxCluster g} (entryCluster g d file)) →
      (DeleteEnds g d path ↔
        FindFileEnds g d path ∧ ∀ file, Finds g d path file → Ends g d (entryCluster g d file)) :=
  ⟨freeEntryEnds_iff g d, findFileEnds_iff g d, fun c pos => readDirectoryEnds_iff (dirSlot g d c) pos,
    getFileInfoEnds_iff g d, deleteEnds_iff_marks g d,
    fun _ hwf hroot hlinks => deleteEnds_iff hwf hroot hlinks⟩

/-! ### The small volume -/

/-- A search that ends and one with the limit of `vfatFindFile` find the same file. -/
theorem Finds.unique {file other : VfatFileData} {left : List UInt8} (h : Finds g d path other)
    (hfind : vfatFindFile g d path = some (.found file left)) : other = file := by
  obtain ⟨limit, left', hother⟩ := h
  rw [vfatFindFile, findLoop_eq] at hfind
  have h1 := findLimited_mono hfind (Nat.le_max_left (slotLimit g) limit)
  have h2 := findLimited_mono hother (Nat.le_max_right (slotLimit g) limit)
  cases h1.symm.trans h2
  rfl

theorem findFileEnds_of_found {r : FindResult} (h : vfatFindFile g d path = some r) :
    FindFileEnds g d path := by
  rw [vfatFindFile, findLoop_eq] at h
  exact ⟨_, _, h⟩

/-- The file `A` of the small volume can be deleted. -/
theorem calls_end_iff_file : DeleteEnds smallVolume (smallDevice 0) [0x41] := by
  obtain ⟨-, -, -, -, -, hdelete⟩ := calls_end_iff smallVolume (smallDevice 0)
  obtain ⟨file, hfind, hdir, hindex⟩ := smallDevice_file
  have hfirst : entryCluster smallVolume (smallDevice 0) file = 3 := by
    rw [entryCluster, hdir, hindex]
    decide +kernel
  have hlinks : ∀ other, Finds smallVolume (smallDevice 0) [0x41] other →
      LinksIn smallVolume (smallDevice 0) {x | IsCluster smallVolume x} other.firstCluster ∧
      LinksIn smallVolume (smallDevice 0) {x | x < maxCluster smallVolume}
        (entryCluster smallVolume (smallDevice 0) other) := by
    intro other hother
    obtain rfl := hother.unique hfind
    rw [hdir, hfirst]
    exact ⟨smallDevice_chain.linksIn (List.cons_ne_nil _ _),
      (smallDevice_fileChain.linksIn (List.cons_ne_nil _ _)).mono fun x hx => hx.2⟩
  refine (hdelete [0x41] (smallVolume_wellFormed 0) rfl hlinks).mpr
    ⟨findFileEnds_of_found hfind, fun other hother => ?_⟩
  obtain rfl := hother.unique hfind
  rw [hfirst]
  exact smallDevice_fileChain.ends 3 List.mem_cons_self

/-- The small volume with a link from the cluster of the file `A` to itself. -/
def loopDevice : Device :=
  { smallDevice 0 with bytes := store (smallDevice 0).bytes 524 (leBytes 4 3) }

/-- Deleting the file `A` goes round in the cycle of its cluster. -/
theorem delete_goes_round : ¬ DeleteEnds smallVolume loopDevice [0x41] := by
  have hfind : vfatFindFile smallVolume loopDevice [0x41] = some (.found ⟨1, eoc, 2⟩ []) := by
    have hfields : (vfatFindFile smallVolume loopDevice [0x41]).map (fun r =>
        FindResult.casesOn r none fun file left =>
          some (file.index, file.parentCluster, file.firstCluster, left)) =
        some (some (1, eoc, 2, [])) := by
      decide +kernel
    obtain ⟨r, hr, hfields⟩ := Option.map_eq_some_iff.mp hfields
    cases r with
    | unset => cases hfields
    | found file left =>
      obtain ⟨index, parent, first⟩ := file
      cases hfields
      exact hr
  have hloop : getNextCluster smallVolume loopDevice 3 = 3 := by decide +kernel
  have hdir : Chain smallVolume loopDevice 2 [2] :=
    ⟨⟨rfl, by decide, show getNextCluster smallVolume loopDevice 2 = eoc by decide +kernel⟩,
      by simp [IsCluster, maxCluster, smallVolume]⟩
  have hfirst : entryCluster smallVolume loopDevice ⟨1, eoc, 2⟩ = 3 := by decide +kernel
  have hthree : IsCluster smallVolume 3 := ⟨by decide, by decide⟩
  have hself : ∀ x ∈ ({3} : Set ℕ), getNextCluster smallVolume loopDevice x ∈ ({3} : Set ℕ) := by
    rintro x rfl
    exact hloop
  have hendless : Endless smallVolume loopDevice 3 :=
    ⟨{3}, rfl, fun x hx => ⟨by rw [show x = 3 from hx]; exact hthree, hself x hx⟩⟩
  have hlinks : ∀ file, Finds smallVolume loopDevice [0x41] file →
      LinksIn smallVolume loopDevice {x | IsCluster smallVolume x} file.firstCluster ∧
      LinksIn smallVolume loopDevice {x | x < maxCluster smallVolume}
        (entryCluster smallVolume loopDevice file) := by
    intro file hfile
    obtain rfl := hfile.unique hfind
    rw [hfirst]
    refine ⟨hdir.linksIn (List.cons_ne_nil _ _), {3}, ?_, rfl, fun x hx => .inr (hself x hx)⟩
    rintro x rfl
    exact hthree.2
  have hwf : WellFormed smallVolume loopDevice.size := smallVolume_wellFormed 0
  rw [deleteEnds_iff hwf rfl hlinks]
  rintro ⟨-, hends⟩
  have hthird := hends ⟨1, eoc, 2⟩ (by rw [vfatFindFile, findLoop_eq] at hfind; exact ⟨_, _, hfind⟩)
  rw [hfirst] at hthird
  exact hendless.not_ends hwf.layout hthird

end XTOS.Vfat

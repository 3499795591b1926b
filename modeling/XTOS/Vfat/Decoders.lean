import XTOS.Vfat.Lookup

/-!
# The buffers of the long-name decoders

How much the decoders in `vfatFindFile`, `vfatGetFileInfo` and `vfatReadDirectory` of
`drivers/vfat/main.c` store in their buffers: at most 20 slots in `lfnBuffer`, 256 units in
`utf16Name` and 256 bytes in the name should fit, whatever the device holds.

## Main definitions

- `utf8Stored` — the bytes that are stored for the units of a run of slots
- `DecodesWithin` — they fit
- `collect` — the slots that a loop stores
- `Scans`, `Visits` — the passes of the search along a path
- `FindWithin`, `InfoWithin`, `ReadWithin` — the calls of the three functions stay in their buffers

## Main results

- `decodesWithin_iff` — which runs fit
- `collect_within_iff` — which loops do not store too many slots
- `decoders_within` — which calls stay in their buffers
-/

namespace XTOS.Vfat

open SysLib

/-! ### The units and the bytes of a name -/

/-- `utf16Name`: the units, the terminator and what was on the stack. -/
def nameBuffer (units : List ℕ) (stack : ℕ → ℕ) (i : ℕ) : ℕ := (units ++ [0]).getD i (stack i)

/-- The bytes that some passes of the loop of `xtUTF16toUTF8` store, from unit `i` on. The second
    unit of a pair is taken without a look at it, be it the terminator. -/
def utf8Stored (buffer : ℕ → ℕ) : ℕ → ℕ → List UInt8
  | 0, _ => []
  | fuel + 1, i =>
    if buffer i = 0 then []
    else if 0xD800 ≤ buffer i ∧ buffer i ≤ 0xDBFF then
      utf8Bytes (surrogatePair (buffer i) (buffer (i + 1))) ++ utf8Stored buffer fuel (i + 2)
    else utf8Bytes (buffer i) ++ utf8Stored buffer fuel (i + 1)

/-- The decoding of a run of long-name slots stays in the buffers, whatever was on the stack. -/
structure DecodesWithin (lfns : List Slot) : Prop where
  entries : lfns.length ≤ 20
  units : (runUnits lfns).length + 1 ≤ 256
  bytes : ∀ stack fuel,
    (utf8Stored (nameBuffer (runUnits lfns) stack) fuel 0).length + 1 ≤ 256

variable {buffer stack : ℕ → ℕ} {i k m fuel : ℕ} {units rest : List ℕ} {lfns : List Slot}

theorem length_appendUnits_le (acc units : List ℕ) (h : acc.length ≤ 255) :
    (appendUnits acc units).length ≤ 255 := by
  induction units generalizing acc with
  | nil => exact h
  | cons u units ih =>
    rw [appendUnits]
    split_ifs with hroom hend
    · exact h
    · refine ih _ ?_
      rw [List.length_append, List.length_singleton]
      omega
    · exact h

/-- What the slots of a run keep of the units, one slot after the other. -/
theorem runUnits_rec {P : List ℕ → Prop} (hnil : P [])
    (hslot : ∀ acc slot, P acc → P (appendUnits acc (lfnUnits slot))) (lfns : List Slot) :
    P (runUnits lfns) := by
  have hfold : ∀ (slots : List Slot) (acc : List ℕ), P acc →
      P (slots.foldl (fun acc lfn => appendUnits acc (lfnUnits lfn)) acc) := by
    intro slots
    induction slots with
    | nil => exact fun acc h => h
    | cons slot slots ih => exact fun acc h => ih _ (hslot acc slot h)
  exact hfold _ [] hnil

/-- The units leave room for the terminator. -/
theorem length_runUnits_le (lfns : List Slot) : (runUnits lfns).length ≤ 255 :=
  runUnits_rec (Nat.zero_le _) (fun acc slot => length_appendUnits_le acc (lfnUnits slot)) lfns

theorem mem_appendUnits {acc units : List ℕ} {u : ℕ} (h : u ∈ appendUnits acc units) :
    u ∈ acc ∨ u ∈ units ∧ u ≠ 0 := by
  induction units generalizing acc with
  | nil => exact .inl h
  | cons v units ih =>
    rw [appendUnits] at h
    split_ifs at h with hroom hend
    · exact .inl h
    · obtain h | ⟨h, hne⟩ := ih h
      · obtain h | h := List.mem_append.mp h
        · exact .inl h
        · obtain rfl := List.mem_singleton.mp h
          exact .inr ⟨List.mem_cons_self, fun hzero => hend (.inl hzero)⟩
      · exact .inr ⟨List.mem_cons_of_mem _ h, hne⟩
    · exact .inl h

/-- The units are 16-bit words and no terminators. -/
theorem runUnits_word (lfns : List Slot) : ∀ u ∈ runUnits lfns, u ≠ 0 ∧ u < 2 ^ 16 := by
  have hslot : ∀ slot : Slot, ∀ u ∈ lfnUnits slot, u < 2 ^ 16 := by
    intro slot u hu
    simp only [lfnUnits, List.mem_append, List.mem_map] at hu
    obtain (⟨k, -, rfl⟩ | ⟨k, -, rfl⟩) | ⟨k, -, rfl⟩ := hu
    · exact loadLE_lt _ _ 2
    · exact loadLE_lt _ _ 2
    · exact loadLE_lt _ _ 2
  refine runUnits_rec (P := fun units => ∀ u ∈ units, u ≠ 0 ∧ u < 2 ^ 16) (by simp) ?_ lfns
  intro acc slot hacc u hu
  obtain hu | ⟨hu, hne⟩ := mem_appendUnits hu
  · exact hacc u hu
  · exact ⟨hne, hslot slot u hu⟩

/-- A unit that is not the first half of a pair. -/
theorem single_unit {high : ℕ} (h : ¬ (0xD800 ≤ high ∧ high ≤ 0xDBFF)) (rest : List ℕ) :
    Dangling (high :: rest) = Dangling rest ∧
      xtUTF16toUTF8 (high :: rest) = utf8Bytes high ++ xtUTF16toUTF8 rest := by
  rw [Dangling.eq_def, xtUTF16toUTF8.eq_def]
  exact ⟨if_neg h, if_neg h⟩

/-- More passes store more. -/
theorem utf8Stored_mono (buffer : ℕ → ℕ) (fuel more i : ℕ) :
    (utf8Stored buffer fuel i).length ≤ (utf8Stored buffer (fuel + more) i).length := by
  induction fuel generalizing i with
  | zero => exact Nat.zero_le _
  | succ fuel ih =>
    rw [Nat.succ_add, utf8Stored, utf8Stored]
    split_ifs
    · exact le_rfl
    · rw [List.length_append, List.length_append]
      exact Nat.add_le_add_left (ih (i + 2)) _
    · rw [List.length_append, List.length_append]
      exact Nat.add_le_add_left (ih (i + 1)) _

/-- The units from `i` on lie in the buffer, with the terminator behind them. -/
def Holds (buffer : ℕ → ℕ) (i : ℕ) (rest : List ℕ) : Prop :=
  ∀ k ≤ rest.length, buffer (i + k) = (rest ++ [0]).getD k 0

theorem Holds.head {u : ℕ} (h : Holds buffer i (u :: rest)) : buffer i = u :=
  h 0 (Nat.zero_le _)

theorem Holds.tail {u : ℕ} (h : Holds buffer i (u :: rest)) : Holds buffer (i + 1) rest := by
  intro k hk
  have hnext := h (k + 1) (Nat.succ_le_succ hk)
  rw [Nat.add_assoc, Nat.add_comm 1]
  exact hnext

theorem nameBuffer_holds (units : List ℕ) (stack : ℕ → ℕ) :
    Holds (nameBuffer units stack) 0 units := by
  intro k hk
  have hlt : k < (units ++ [0]).length := by
    rw [List.length_append, List.length_singleton]
    omega
  rw [Nat.zero_add, nameBuffer, List.getD_eq_getElem _ _ hlt, List.getD_eq_getElem _ _ hlt]

/-- Whole units are encoded up to the terminator. -/
theorem utf8Stored_whole (h : Holds buffer i rest) (hzero : ∀ u ∈ rest, u ≠ 0)
    (hwhole : Dangling rest = false) (hfuel : rest.length ≤ fuel) :
    utf8Stored buffer fuel i = xtUTF16toUTF8 rest := by
  induction rest using xtUTF16toUTF8.induct generalizing i fuel with
  | case1 =>
    cases fuel with
    | zero => rfl
    | succ fuel =>
      have hend : buffer i = 0 := h 0 le_rfl
      rw [utf8Stored, if_pos hend, xtUTF16toUTF8]
  | case2 high hhigh => simp [Dangling, hhigh] at hwhole
  | case3 high hhigh low rest ih =>
    obtain ⟨fuel, rfl⟩ : ∃ n, fuel = n + 1 := Nat.exists_eq_add_one.mpr (by
      rw [List.length_cons] at hfuel
      omega)
    rw [Dangling, if_pos hhigh] at hwhole
    obtain ⟨hne, hzero⟩ := List.forall_mem_cons.mp hzero
    rw [List.length_cons, List.length_cons] at hfuel
    rw [utf8Stored, h.head, h.tail.head, if_neg hne, if_pos hhigh,
      ih h.tail.tail (List.forall_mem_cons.mp hzero).2 hwhole (by omega), xtUTF16toUTF8,
      if_pos hhigh]
  | case4 high rest hhigh ih =>
    obtain ⟨fuel, rfl⟩ : ∃ n, fuel = n + 1 := Nat.exists_eq_add_one.mpr (by
      rw [List.length_cons] at hfuel
      omega)
    obtain ⟨hend, hcons⟩ := single_unit hhigh rest
    rw [hend] at hwhole
    obtain ⟨hne, hzero⟩ := List.forall_mem_cons.mp hzero
    rw [List.length_cons] at hfuel
    rw [utf8Stored, h.head, if_neg hne, if_neg hhigh, ih h.tail hzero hwhole (by omega), hcons]

/-- Behind the array the passes go on for as long as nothing there is zero. -/
theorem length_utf8Stored_stack (hbuffer : ∀ j, i ≤ j → buffer j = 0x41) (fuel : ℕ) :
    (utf8Stored buffer fuel i).length = fuel := by
  induction fuel generalizing i with
  | zero => rfl
  | succ fuel ih =>
    rw [utf8Stored, hbuffer i le_rfl, if_neg (by decide), if_neg (by decide), List.length_append,
      ih fun j hj => hbuffer j (by omega)]
    exact Nat.add_comm 1 fuel

/-- The first half of a pair at the end takes the terminator with it. -/
theorem utf8Stored_dangling (h : Holds buffer i rest) (hzero : ∀ u ∈ rest, u ≠ 0)
    (hdangling : Dangling rest = true)
    (hstack : ∀ j, i + rest.length < j → buffer j = 0x41) (more : ℕ) :
    more ≤ (utf8Stored buffer (rest.length + more) i).length := by
  induction rest using xtUTF16toUTF8.induct generalizing i with
  | case1 => cases hdangling
  | case2 high hhigh =>
    have hne := hzero high List.mem_cons_self
    rw [List.length_singleton, Nat.add_comm, utf8Stored, h.head, if_neg hne, if_pos hhigh,
      List.length_append, length_utf8Stored_stack fun j hj => hstack j (by
        rw [List.length_singleton]
        omega)]
    exact Nat.le_add_left _ _
  | case3 high hhigh low rest ih =>
    rw [Dangling, if_pos hhigh] at hdangling
    obtain ⟨hne, hzero⟩ := List.forall_mem_cons.mp hzero
    have hrest := ih h.tail.tail (List.forall_mem_cons.mp hzero).2 hdangling
      fun j hj => hstack j (by rw [List.length_cons, List.length_cons]; omega)
    have hmono := utf8Stored_mono buffer (rest.length + more) 1 (i + 1 + 1)
    rw [show (high :: low :: rest).length + more = rest.length + more + 1 + 1 by
      rw [List.length_cons, List.length_cons]; omega]
    rw [utf8Stored, h.head, if_neg hne, if_pos hhigh, List.length_append]
    exact hrest.trans (hmono.trans (Nat.le_add_left _ _))
  | case4 high rest hhigh ih =>
    rw [(single_unit hhigh rest).1] at hdangling
    obtain ⟨hne, hzero⟩ := List.forall_mem_cons.mp hzero
    have hrest := ih h.tail hzero hdangling fun j hj => hstack j (by rw [List.length_cons]; omega)
    rw [show (high :: rest).length + more = rest.length + more + 1 by
      rw [List.length_cons]; omega]
    rw [utf8Stored, h.head, if_neg hne, if_neg hhigh, List.length_append]
    omega

/-- **A run fits** if and only if it has at most 20 slots, and the bytes of its name, which does not
    end with the first half of a pair, leave room for the terminator. -/
theorem decodesWithin_iff (lfns : List Slot) :
    DecodesWithin lfns ↔ lfns.length ≤ 20 ∧ NameFits lfns := by
  have hzero : ∀ u ∈ runUnits lfns, u ≠ 0 := fun u hu => (runUnits_word lfns u hu).1
  have hholds := nameBuffer_holds (runUnits lfns)
  constructor
  · intro h
    have hwhole : Dangling (runUnits lfns) = false := by
      by_contra hdangling
      rw [Bool.not_eq_false] at hdangling
      have hlong := utf8Stored_dangling (hholds fun _ => 0x41) hzero hdangling (fun j hj => ?_) 256
      · have hshort := h.bytes (fun _ => 0x41) ((runUnits lfns).length + 256)
        omega
      · rw [nameBuffer, List.getD_eq_default]
        rw [List.length_append, List.length_singleton]
        omega
    refine ⟨h.entries, hwhole, ?_⟩
    have hshort := h.bytes (fun _ => 0) (runUnits lfns).length
    rw [utf8Stored_whole (hholds _) hzero hwhole le_rfl] at hshort
    exact Nat.le_of_succ_le_succ hshort
  · rintro ⟨hentries, hfits⟩
    refine ⟨hentries, Nat.succ_le_succ (length_runUnits_le lfns), fun stack fuel => ?_⟩
    have hmono := utf8Stored_mono (nameBuffer (runUnits lfns) stack) fuel (runUnits lfns).length 0
    rw [utf8Stored_whole (hholds stack) hzero hfits.whole (Nat.le_add_left _ _)] at hmono
    exact Nat.succ_le_succ (hmono.trans hfits.short)

/-! ### Loops that store slots -/

/-- The slots that some passes of a loop store, from pass `k` on: the buffer of a pass is stored as
    long as it is a long-name slot, up to one that is the last. -/
def collect (b : ℕ → Slot) (last : Slot → Bool) : ℕ → ℕ → List Slot
  | 0, _ => []
  | fuel + 1, k =>
    if sfnAttributes (b k) = lfnAttributes then
      b k :: if last (b k) then [] else collect b last fuel (k + 1)
    else []

/-- The loop stores the slots of its first `m` passes. -/
structure Run (b : ℕ → Slot) (last : Slot → Bool) (m : ℕ) : Prop where
  long : ∀ k < m, sfnAttributes (b k) = lfnAttributes
  more : ∀ k, k + 1 < m → last (b k) = false
  stop : sfnAttributes (b m) ≠ lfnAttributes ∨ ∃ k, m = k + 1 ∧ last (b k) = true

variable {b : ℕ → Slot} {last : Slot → Bool}

/-- A loop with a run stores it. -/
theorem Run.collect (h : Run b last m) (hk : k ≤ m) (hgo : k = m → k = 0 ∨ last (b (k - 1)) = false)
    (hfuel : m < k + fuel) :
    collect b last fuel k = (List.range' k (m - k)).map b := by
  induction fuel generalizing k with
  | zero => omega
  | succ fuel ih =>
    rw [Vfat.collect]
    by_cases heq : k = m
    · have hstop : sfnAttributes (b k) ≠ lfnAttributes := by
        rw [heq]
        refine h.stop.resolve_right ?_
        rintro ⟨j, rfl, hlast⟩
        obtain hzero | hnot := hgo heq
        · omega
        · rw [heq, Nat.add_sub_cancel, hlast] at hnot
          cases hnot
      rw [if_neg hstop, heq, Nat.sub_self]
      rfl
    · obtain ⟨n, hn⟩ : ∃ n, m - k = n + 1 := Nat.exists_eq_add_one.mpr (by omega)
      rw [if_pos (h.long k (by omega)), hn, List.range'_succ, List.map_cons]
      by_cases hlast : last (b k) = true
      · have hend : k + 1 = m := by
          by_contra hne
          rw [h.more k (by omega)] at hlast
          cases hlast
        obtain rfl : n = 0 := by omega
        rw [if_pos hlast]
        rfl
      · rw [if_neg hlast, ih (by omega) (fun _ => .inr (by simpa using hlast)) (by omega)]
        rw [show m - (k + 1) = n by omega]

/-- A loop without a short run stores a slot in every pass. -/
theorem collect_long (h : ∀ m ≤ i, ¬ Run b last m) {n : ℕ} (hn : k + n = i + 1)
    (hlong : ∀ j < k, sfnAttributes (b j) = lfnAttributes ∧ last (b j) = false) :
    (collect b last n k).length = n := by
  induction n generalizing k with
  | zero => rfl
  | succ n ih =>
    have hk : sfnAttributes (b k) = lfnAttributes := by
      by_contra hstop
      exact h k (by omega) ⟨fun j hj => (hlong j hj).1, fun j hj => (hlong j (by omega)).2,
        .inl hstop⟩
    rw [collect, if_pos hk, List.length_cons]
    cases n with
    | zero =>
      split_ifs
      · rfl
      · rfl
    | succ n =>
      have hlast : last (b k) = false := by
        by_contra hlast
        rw [Bool.not_eq_false] at hlast
        refine h (k + 1) (by omega) ⟨fun j hj => ?_, fun j hj => (hlong j (by omega)).2,
          .inr ⟨k, rfl, hlast⟩⟩
        obtain hj | rfl := Nat.lt_succ_iff_lt_or_eq.mp hj
        · exact (hlong j hj).1
        · exact hk
      rw [hlast, if_neg Bool.false_ne_true, ih (by omega) fun j hj => ?_]
      obtain hj | rfl := Nat.lt_succ_iff_lt_or_eq.mp hj
      · exact hlong j hj
      · exact ⟨hk, hlast⟩

theorem collect_mono (b : ℕ → Slot) (last : Slot → Bool) (fuel more k : ℕ) :
    (collect b last fuel k).length ≤ (collect b last (fuel + more) k).length := by
  induction fuel generalizing k with
  | zero => exact Nat.zero_le _
  | succ fuel ih =>
    rw [Nat.succ_add, collect, collect]
    split_ifs
    · exact le_rfl
    · rw [List.length_cons, List.length_cons]
      exact Nat.succ_le_succ (ih (k + 1))
    · exact le_rfl

/-- **A loop stores at most `n` slots** if and only if it has a run of at most `n`. -/
theorem collect_within_iff (b : ℕ → Slot) (last : Slot → Bool) (n : ℕ) :
    (∀ fuel, (collect b last fuel 0).length ≤ n) ↔ ∃ m ≤ n, Run b last m := by
  constructor
  · intro h
    by_contra hrun
    push Not at hrun
    have hlen := collect_long hrun (Nat.zero_add (n + 1)) fun j hj => absurd hj (Nat.not_lt_zero j)
    have hle := h (n + 1)
    omega
  · rintro ⟨m, hm, hrun⟩ fuel
    have hmono := collect_mono b last fuel (m + 1) 0
    have hstored := hrun.collect (Nat.zero_le m) (fun _ => .inl rfl)
      (show m < 0 + (fuel + (m + 1)) by omega)
    rw [hstored, List.length_map, List.length_range'] at hmono
    omega

/-! ### The loops of `vfatGetFileInfo` and `vfatReadDirectory` -/

/-- The content of the buffer before each read. A read that fails keeps it. -/
def buffers (slot : Slot) (reads : ℕ → List UInt8) : ℕ → Slot
  | 0 => slot
  | k + 1 => store (buffers slot reads k) 0 (reads k)

/-- What `vfatGetFileInfo` reads in pass `k`, back from the short entry. -/
def readBack (g : VfatFSData) (d : Device) (dir index k : ℕ) : List UInt8 :=
  (readChain g d dir ((index + (2 ^ 32 - k - 1)) % 2 ^ 32 * 32) 32).2

/-- The mark of the last slot of a name. -/
def lastSlot (slot : Slot) : Bool := (slot 0).toNat &&& lastLfn ≠ 0

/-- The slots that the last loop of `vfatReadDirectory` stores in some passes. -/
def storeLfn (readSlot : ℕ → List UInt8) : ℕ → ℕ → Slot → List Slot → List Slot
  | 0, _, _, lfns => lfns
  | fuel + 1, index, slot, lfns =>
    let slot := store slot 0 (readSlot index)
    if sfnAttributes slot = lfnAttributes then storeLfn readSlot fuel (index + 1) slot (lfns ++ [slot])
    else lfns

/-- The buffers of `vfatGetFileInfo`. -/
def infoSlots (g : VfatFSData) (d : Device) (file : VfatFileData) (k : ℕ) : Slot :=
  buffers (slotAt g d file.parentCluster file.index).2
    (readBack g d file.parentCluster file.index) (k + 1)

/-- The buffers of the last loop of `vfatReadDirectory`, from slot `index` on. -/
def readSlots (readSlot : ℕ → List UInt8) (index k : ℕ) : Slot :=
  buffers (fun _ => 0) (fun j => readSlot (index + j)) (k + 1)

/-- The slots that `vfatGetFileInfo` has stored after some passes. -/
def infoStored (g : VfatFSData) (d : Device) (file : VfatFileData) (fuel : ℕ) : List Slot :=
  collectLfn g d file.parentCluster file.index fuel
    (slotAt g d file.parentCluster file.index).2 []

/-- `vfatGetFileInfo` stays in its buffers: in every pass, and in the decoding of the slots that it
    ends with. -/
structure InfoWithin (g : VfatFSData) (d : Device) (file : VfatFileData) : Prop where
  stored : ∀ fuel, (infoStored g d file fuel).length ≤ 20
  decoded : ∀ lfns n, (∀ fuel, n ≤ fuel → infoStored g d file fuel = lfns) → DecodesWithin lfns

/-- `vfatReadDirectory` stays in its buffers, where the entries in front of its position end. An end
    mark is not decoded. -/
structure ReadWithin (readSlot : ℕ → List UInt8) (pos : ℕ) : Prop where
  stored : ∀ limit index, skipEntries readSlot limit pos 0 = some index →
    ∀ fuel, (storeLfn readSlot fuel index (fun _ => 0) []).length ≤ 20
  decoded : ∀ limit index, skipEntries readSlot limit pos 0 = some index → ∀ room next sfn lfns,
    readEntry readSlot room room index (fun _ => 0) [] = some (next, sfn, lfns) → sfn 0 ≠ 0 →
      DecodesWithin lfns

/-- The long-name slots in front of the file are at most 20, up to one with the mark of the last, and
    their name fits. -/
def InfoFits (g : VfatFSData) (d : Device) (file : VfatFileData) : Prop :=
  ∃ m ≤ 20, Run (infoSlots g d file) lastSlot m ∧
    NameFits ((List.range m).map (infoSlots g d file))

/-- The long-name slots at the position are at most 20, and the name of an entry there fits. -/
def ReadFits (readSlot : ℕ → List UInt8) (pos : ℕ) : Prop :=
  ∀ limit index, skipEntries readSlot limit pos 0 = some index →
    ∃ m ≤ 20, Run (readSlots readSlot index) (fun _ => false) m ∧
      (readSlots readSlot index m 0 ≠ 0 → NameFits ((List.range m).map (readSlots readSlot index)))

variable {g : VfatFSData} {d : Device} {dir index pos : ℕ} {file : VfatFileData}
variable {slot : Slot} {readSlot : ℕ → List UInt8}

theorem collectLfn_eq (g : VfatFSData) (d : Device) (dir index : ℕ) (slot : Slot) (fuel : ℕ)
    (lfns : List Slot) : collectLfn g d dir index fuel
        (buffers slot (readBack g d dir index) lfns.length) lfns =
      lfns ++ collect (fun k => buffers slot (readBack g d dir index) (k + 1)) lastSlot fuel
        lfns.length := by
  induction fuel generalizing lfns with
  | zero => exact (List.append_nil lfns).symm
  | succ fuel ih =>
    have hstore : store (buffers slot (readBack g d dir index) lfns.length) 0
        (readChain g d dir ((index + (2 ^ 32 - lfns.length - 1)) % 2 ^ 32 * 32) 32).2 =
        buffers slot (readBack g d dir index) (lfns.length + 1) := rfl
    have hnext := ih (lfns ++ [buffers slot (readBack g d dir index) (lfns.length + 1)])
    rw [List.length_append, List.length_singleton, List.append_assoc, List.singleton_append] at hnext
    rw [collectLfn, collect, hstore]
    generalize buffers slot (readBack g d dir index) (lfns.length + 1) = b at hnext ⊢
    by_cases hlong : sfnAttributes b = lfnAttributes
    · rw [if_pos hlong, if_pos hlong]
      by_cases hlast : (b 0).toNat &&& lastLfn = 0
      · rw [if_pos hlast, if_neg (by simp [lastSlot, hlast]), hnext]
      · rw [if_neg hlast, if_pos (by simp [lastSlot, hlast])]
    · rw [if_neg hlong, if_neg hlong, List.append_nil]

theorem infoStored_eq (g : VfatFSData) (d : Device) (file : VfatFileData) (fuel : ℕ) :
    infoStored g d file fuel = collect (infoSlots g d file) lastSlot fuel 0 :=
  collectLfn_eq g d file.parentCluster file.index _ fuel []

theorem storeLfn_eq (readSlot : ℕ → List UInt8) (index fuel : ℕ) (lfns : List Slot) :
    storeLfn readSlot fuel (index + lfns.length)
        (buffers (fun _ => 0) (fun j => readSlot (index + j)) lfns.length) lfns =
      lfns ++ collect (readSlots readSlot index) (fun _ => false) fuel lfns.length := by
  induction fuel generalizing lfns with
  | zero => exact (List.append_nil lfns).symm
  | succ fuel ih =>
    have hstore : store (buffers (fun _ => 0) (fun j => readSlot (index + j)) lfns.length) 0
        (readSlot (index + lfns.length)) = readSlots readSlot index lfns.length := rfl
    have hnext := ih (lfns ++ [readSlots readSlot index lfns.length])
    rw [List.length_append, List.length_singleton, List.append_assoc, List.singleton_append,
      ← Nat.add_assoc] at hnext
    change storeLfn readSlot fuel (index + lfns.length + 1) (readSlots readSlot index lfns.length) _ =
      _ at hnext
    rw [storeLfn, collect, hstore]
    generalize readSlots readSlot index lfns.length = b at hnext ⊢
    by_cases hlong : sfnAttributes b = lfnAttributes
    · rw [if_pos hlong, if_pos hlong, if_neg Bool.false_ne_true, hnext]
    · rw [if_neg hlong, if_neg hlong, List.append_nil]

/-- A run that is not ended by a mark is ended by a slot that is not stored. -/
theorem Run.stop_of_no_mark (h : Run b (fun _ => false) m) : sfnAttributes (b m) ≠ lfnAttributes :=
  h.stop.resolve_right nofun

/-- The last loop of `vfatReadDirectory` ends with its run, if it has the passes and the room for
    it. -/
theorem Run.readEntry {room : ℕ} (h : Run (readSlots readSlot index) (fun _ => false) m) (fuel : ℕ)
    (lfns : List Slot) (hk : lfns.length ≤ m) (hroom : lfns.length ≤ room) :
    readEntry readSlot room fuel (index + lfns.length)
        (buffers (fun _ => 0) (fun j => readSlot (index + j)) lfns.length) lfns =
      if m < lfns.length + fuel ∧ m ≤ room then some (index + m + 1, readSlots readSlot index m,
        lfns ++ (List.range' lfns.length (m - lfns.length)).map (readSlots readSlot index))
      else none := by
  induction fuel generalizing lfns with
  | zero =>
    rw [if_neg (by omega)]
    rfl
  | succ fuel ih =>
    have hstore : store (buffers (fun _ => 0) (fun j => readSlot (index + j)) lfns.length) 0
        (readSlot (index + lfns.length)) = readSlots readSlot index lfns.length := rfl
    rw [Vfat.readEntry, hstore]
    by_cases heq : lfns.length = m
    · have hstop := h.stop_of_no_mark
      rw [heq, Nat.sub_self, if_neg hstop, if_pos (by omega)]
      simp
    · rw [if_pos (h.long _ (by omega))]
      by_cases hlt : lfns.length < room
      · have hnext := ih (lfns ++ [readSlots readSlot index lfns.length])
          (by rw [List.length_append, List.length_singleton]; omega)
          (by rw [List.length_append, List.length_singleton]; omega)
        rw [List.length_append, List.length_singleton, List.append_assoc, List.singleton_append,
          ← Nat.add_assoc, Nat.add_right_comm _ 1 fuel] at hnext
        obtain ⟨n, hn⟩ : ∃ n, m - lfns.length = n + 1 := Nat.exists_eq_add_one.mpr (by omega)
        rw [if_pos hlt, hn, List.range'_succ, List.map_cons]
        rw [show m - (lfns.length + 1) = n by omega] at hnext
        exact hnext
      · rw [if_neg hlt, if_neg (by omega)]

/-! ### The calls -/

theorem range'_map (b : ℕ → Slot) (m : ℕ) :
    (List.range' 0 (m - 0)).map b = (List.range m).map b := by
  rw [Nat.sub_zero, List.range_eq_range']

/-- `vfatGetFileInfo` stays in its buffers if and only if the slots in front of the file fit. -/
theorem infoWithin_iff (g : VfatFSData) (d : Device) (file : VfatFileData) :
    InfoWithin g d file ↔ InfoFits g d file := by
  have hruns : ∀ m, Run (infoSlots g d file) lastSlot m → ∀ fuel, m + 1 ≤ fuel →
      infoStored g d file fuel = (List.range m).map (infoSlots g d file) := by
    intro m hrun fuel hfuel
    rw [infoStored_eq, hrun.collect (Nat.zero_le m) (fun _ => .inl rfl) (by omega), range'_map]
  constructor
  · intro h
    have hstored := h.stored
    simp only [infoStored_eq] at hstored
    obtain ⟨m, hm, hrun⟩ := (collect_within_iff _ _ 20).mp hstored
    exact ⟨m, hm, hrun, ((decodesWithin_iff _).mp (h.decoded _ (m + 1) (hruns m hrun))).2⟩
  · rintro ⟨m, hm, hrun, hfits⟩
    refine ⟨fun fuel => ?_, fun lfns n hlfns => ?_⟩
    · rw [infoStored_eq]
      exact (collect_within_iff _ _ 20).mpr ⟨m, hm, hrun⟩ fuel
    · rw [← hlfns (n + (m + 1)) (Nat.le_add_right _ _),
        hruns m hrun (n + (m + 1)) (Nat.le_add_left _ _), decodesWithin_iff]
      exact ⟨by rwa [List.length_map, List.length_range], hfits⟩

/-- `vfatReadDirectory` stays in its buffers if and only if the slots at its position fit. -/
theorem readWithin_iff (readSlot : ℕ → List UInt8) (pos : ℕ) :
    ReadWithin readSlot pos ↔ ReadFits readSlot pos := by
  have hstored : ∀ index fuel, storeLfn readSlot fuel index (fun _ => 0) [] =
      collect (readSlots readSlot index) (fun _ => false) fuel 0 := fun index fuel =>
    storeLfn_eq readSlot index fuel []
  have hends : ∀ index m room, Run (readSlots readSlot index) (fun _ => false) m → m < room →
      readEntry readSlot room room index (fun _ => 0) [] = some (index + m + 1,
        readSlots readSlot index m, (List.range m).map (readSlots readSlot index)) := by
    intro index m room hrun hroom
    have hentry := hrun.readEntry room [] (Nat.zero_le m) (Nat.zero_le room)
    rw [List.length_nil, if_pos (by omega), List.nil_append, range'_map] at hentry
    exact hentry
  constructor
  · intro h limit index hskip
    have hle := h.stored limit index hskip
    simp only [hstored] at hle
    obtain ⟨m, hm, hrun⟩ := (collect_within_iff _ _ 20).mp hle
    refine ⟨m, hm, hrun, fun hne => ?_⟩
    have hdecoded := h.decoded limit index hskip _ _ _ _ (hends index m (m + 1) hrun (by omega)) hne
    exact ((decodesWithin_iff _).mp hdecoded).2
  · intro h
    refine ⟨fun limit index hskip fuel => ?_, fun limit index hskip room next sfn lfns hentry hne => ?_⟩
    · obtain ⟨m, hm, hrun, -⟩ := h limit index hskip
      rw [hstored]
      exact (collect_within_iff _ _ 20).mpr ⟨m, hm, hrun⟩ fuel
    · obtain ⟨m, hm, hrun, hfits⟩ := h limit index hskip
      have hroom : m < room := by
        by_contra hshort
        have hnone := hrun.readEntry room [] (Nat.zero_le m) (Nat.zero_le room)
        rw [List.length_nil, if_neg (by omega)] at hnone
        exact absurd (hnone.symm.trans hentry) nofun
      obtain ⟨rfl, rfl⟩ : readSlots readSlot index m = sfn ∧
          (List.range m).map (readSlots readSlot index) = lfns := by
        have heq := (hends index m room hrun hroom).symm.trans hentry
        simp only [Option.some.injEq, Prod.mk.injEq] at heq
        exact heq.2
      rw [decodesWithin_iff]
      exact ⟨by rwa [List.length_map, List.length_range], hfits hne⟩

/-! ### The search along a path -/

/-- A slot that the search takes for the short entry of a file. -/
def Short (slot : Slot) : Prop :=
  ¬ (slot 0 = deletedMark ∨ sfnAttributes slot = lfnAttributes)

/-- `lfnBuffer` behind a slot: a long-name slot is stored if there is room, and everything else
    empties the buffer. -/
def nextLfns (lfns : List Slot) (slot : Slot) : List Slot :=
  if sfnAttributes slot = lfnAttributes ∧ lfns.length < 20 then lfns ++ [slot] else []

/-- The passes of the search for a name in a directory: the slot and `lfnBuffer` before each. -/
inductive Scans (g : VfatFSData) (d : Device) (dir : ℕ) (name : List UInt8) : ℕ → List Slot → Prop
  | start : Scans g d dir name 0 []
  | pass {i : ℕ} {lfns : List Slot} (h : Scans g d dir name i lfns)
      (hread : (slotAt g d dir i).1 = .success) (hzero : (slotAt g d dir i).2 0 ≠ 0)
      (hother : Short (slotAt g d dir i).2 → xtStringCmp name (lfnName lfns) 256 = false) :
      Scans g d dir name (i + 1) (nextLfns lfns (slotAt g d dir i).2)

/-- The name that the search takes from the front of a path. -/
def nextName (path : List UInt8) : List UInt8 :=
  ((path.dropWhile isSeparator).takeWhile (!isSeparator ·)).take 255

/-- The path behind that name. -/
def pathBehind (path : List UInt8) : List UInt8 :=
  (path.dropWhile isSeparator).drop (nextName path).length

/-- The directories that the search along a path looks into, with the rest of the path. -/
inductive Visits (g : VfatFSData) (d : Device) (path : List UInt8) : ℕ → List UInt8 → Prop
  | root : Visits g d path g.rootDir.firstCluster path
  | enter {c : ℕ} {rest : List UInt8} {fuel index : ℕ} {sfn : Slot} (h : Visits g d path c rest)
      (hfound : scanDir g d c (nextName rest) fuel 0 [] = some (some (index, sfn)))
      (hmore : (pathBehind rest).dropWhile isSeparator ≠ [])
      (hsub : sfnAttributes sfn &&& subdir ≠ 0) :
      Visits g d path (sfnFirstCluster sfn) (pathBehind rest)

/-- The search decodes the slots in front of the short entry in slot `i`. -/
structure Decodes (g : VfatFSData) (d : Device) (dir : ℕ) (name : List UInt8) (i : ℕ)
    (lfns : List Slot) : Prop where
  scans : Scans g d dir name i lfns
  read : (slotAt g d dir i).1 = .success
  nonzero : (slotAt g d dir i).2 0 ≠ 0
  short : Short (slotAt g d dir i).2

/-- `vfatFindFile` stays in its buffers, in every pass in every directory on its way. -/
structure FindWithin (g : VfatFSData) (d : Device) (path : List UInt8) : Prop where
  stored : ∀ c rest, Visits g d path c rest → ∀ i lfns, Scans g d c (nextName rest) i lfns →
    lfns.length ≤ 20
  decoded : ∀ c rest, Visits g d path c rest → ∀ i lfns, Decodes g d c (nextName rest) i lfns →
    DecodesWithin lfns

/-- The names that the search comes to fit. -/
def FindFits (g : VfatFSData) (d : Device) (path : List UInt8) : Prop :=
  ∀ c rest, Visits g d path c rest → ∀ i lfns, Decodes g d c (nextName rest) i lfns → NameFits lfns

variable {name path : List UInt8}

theorem length_nextLfns_le (lfns : List Slot) (slot : Slot) : (nextLfns lfns slot).length ≤ 20 := by
  rw [nextLfns]
  split_ifs with h
  · rw [List.length_append, List.length_singleton]
    omega
  · exact Nat.zero_le 20

/-- The guard keeps the slots in the buffer. -/
theorem Scans.length_le (h : Scans g d dir name i lfns) : lfns.length ≤ 20 := by
  cases h with
  | start => exact Nat.zero_le 20
  | pass => exact length_nextLfns_le _ _

/-- `vfatFindFile` stays in its buffers if and only if the names that it comes to fit. -/
theorem findWithin_iff (g : VfatFSData) (d : Device) (path : List UInt8) :
    FindWithin g d path ↔ FindFits g d path := by
  constructor
  · exact fun h c rest hvisit i lfns hdecodes =>
      ((decodesWithin_iff lfns).mp (h.decoded c rest hvisit i lfns hdecodes)).2
  · intro h
    refine ⟨fun c rest _ i lfns hscan => hscan.length_le, fun c rest hvisit i lfns hdecodes => ?_⟩
    exact (decodesWithin_iff lfns).mpr ⟨hdecodes.scans.length_le, h c rest hvisit i lfns hdecodes⟩

/-- **The decoders stay in their buffers** exactly where the names that they come to fit, and, in the
    two functions without a guard, the runs of long-name slots are at most 20 long. -/
theorem decoders_within (g : VfatFSData) (d : Device) :
    (∀ path, FindWithin g d path ↔ FindFits g d path) ∧
      (∀ file, InfoWithin g d file ↔ InfoFits g d file) ∧
      ∀ c pos, ReadWithin (dirSlot g d c) pos ↔ ReadFits (dirSlot g d c) pos :=
  ⟨findWithin_iff g d, infoWithin_iff g d, fun c => readWithin_iff (dirSlot g d c)⟩

/-! ### Names that do not fit -/

/-- A long-name slot with 13 units of three bytes each and without the mark of the last slot. -/
def wideSlot : List UInt8 := 1 :: List.replicate 10 0x41 ++ [0x0f] ++ List.replicate 20 0x41

/-- A root directory in the clusters 2 and 3 that holds `n` such slots and a short entry. -/
def wideDevice (n : ℕ) : Device :=
  let chain := leBytes 4 3 ++ leBytes 4 eoc
  let dir := (List.replicate n wideSlot).flatten ++ [0x41] ++ List.replicate 31 0x20
  ⟨66048, store (store (fun _ => 0) 520 chain) 1536 dir⟩

/-- Seven slots have a name of 273 bytes, and 21 slots are more than the buffer holds. -/
theorem decoders_overflow : ¬ ReadWithin (dirSlot smallVolume (wideDevice 7) 2) 0 ∧
    ¬ ReadWithin (dirSlot smallVolume (wideDevice 21) 2) 0 ∧
    ¬ InfoWithin smallVolume (wideDevice 21) ⟨21, 2, 0⟩ := by
  refine ⟨fun h => ?_, fun h => ?_, fun h => ?_⟩
  · have hentry : (readEntry (dirSlot smallVolume (wideDevice 7) 2) 20 20 0 (fun _ => 0) []).map
        (fun r => (r.2.1 0, (lfnName r.2.2).length)) = some (0x41, 273) := by
      decide +kernel
    obtain ⟨⟨next, sfn, lfns⟩, hentry, hresult⟩ := Option.map_eq_some_iff.mp hentry
    obtain ⟨hsfn, hlen⟩ := Prod.mk.inj hresult
    have hdecodes := h.decoded 0 0 rfl 20 next sfn lfns hentry (by
      rw [show sfn 0 = 0x41 from hsfn]
      decide)
    have hshort := ((decodesWithin_iff lfns).mp hdecodes).2.short
    rw [show (lfnName lfns).length = 273 from hlen] at hshort
    exact absurd hshort (by decide)
  · have hstored := h.stored 0 0 rfl 21
    exact absurd hstored (by decide +kernel)
  · have hstored := h.stored 21
    exact absurd hstored (by decide +kernel)

end XTOS.Vfat

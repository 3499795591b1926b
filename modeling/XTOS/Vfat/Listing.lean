import Mathlib.Data.List.DropRight
import XTOS.Vfat.Lookup

/-!
# Listing a directory

What the calls of `vfatReadDirectory` of `drivers/vfat/main.c` at the positions 0, 1, 2, ... return.
Each call starts at the first slot and skips the entries in front of its position. It does not look
for the mark of a deleted slot.

## Main definitions

- `listing` — the live entries of a directory
- `EndMarked` — a slot with the end mark stands behind the live slots
- `ListsRight` — the calls return the live entries and then the end of the directory
- `Clean` — no deleted entries, and none of their long-name slots in a name

## Main results

- `vfatReadDirectory_spec` — what a call returns
- `listing_eq` — the live entries among those that the calls return
- `listsRight_iff` — exactly when the calls list the live entries
-/

namespace XTOS.Vfat

open SysLib

/-! ### The live entries -/

/-- The live entries in slots from `index` on. A deleted slot ends the run of long-name slots in
    front of it. -/
def listSlots : ℕ → List Slot → List Slot → List DirEntry
  | _, _, [] => []
  | index, lfns, slot :: slots =>
    if slot 0 = deletedMark then listSlots (index + 1) [] slots
    else if sfnAttributes slot = lfnAttributes then listSlots (index + 1) (lfns ++ [slot]) slots
    else ⟨index, lfns, slot⟩ :: listSlots (index + 1) [] slots

/-- The live entries of a directory in slot order, each with the live long-name slots directly in
    front of it. -/
def listing (g : VfatFSData) (d : Device) (c : ℕ) : List DirEntry :=
  listSlots 0 [] (liveSlots (allSlots g d c))

/-- The slot behind the live slots, if the directory has one. -/
def endSlot (g : VfatFSData) (d : Device) (c : ℕ) : Option Slot :=
  ((allSlots g d c).dropWhile fun slot => slot 0 ≠ 0).head?

/-- The slots end with an end mark, which is no long-name slot. -/
def EndMarked (g : VfatFSData) (d : Device) (c : ℕ) : Prop :=
  ∃ stop, endSlot g d c = some stop ∧ sfnAttributes stop ≠ lfnAttributes

/-- What a call returns for an entry. -/
def DirEntry.info (e : DirEntry) (flags : ℕ) : XTFileInfo := sfnFileInfo e.name e.sfn flags

/-- The calls at the positions 0, 1, 2, ... return the live entries, and then the end. -/
def ListsRight (g : VfatFSData) (d : Device) (c flags : ℕ) : Prop :=
  ∀ pos ≤ (listing g d c).length, vfatReadDirectory g d c pos flags =
    some (match (listing g d c)[pos]? with
      | some e => .ok (e.info flags)
      | none => .error .endOfFile)

/-- The mark of a deleted slot is not there. -/
def live (slot : Slot) : Bool := slot 0 ≠ deletedMark

/-- The entry with the live long-name slots directly in front of it. -/
def DirEntry.trim (e : DirEntry) : DirEntry := { e with longName := e.longName.rtakeWhile live }

/-- The long-name slots behind the last entry. -/
def trailing : List Slot → List Slot → List Slot
  | lfns, [] => lfns
  | lfns, slot :: slots =>
    if sfnAttributes slot = lfnAttributes then trailing (lfns ++ [slot]) slots
    else trailing [] slots

/-- No short entry is deleted, deleted long-name slots add nothing to a name, the names fit their
    buffer, and no run of long-name slots is longer than its one. -/
structure Clean (g : VfatFSData) (d : Device) (c : ℕ) : Prop where
  entries : ∀ e ∈ entriesOf g d c, live e.sfn
  names : ∀ e ∈ entriesOf g d c, e.trim.name = e.name
  fit : ∀ e ∈ entriesOf g d c, NameFits e.longName
  runs : ∀ e ∈ entriesOf g d c, e.longName.length ≤ 20
  last : (trailing [] (liveSlots (allSlots g d c))).length ≤ 20

variable {g : VfatFSData} {d : Device} {c index limit fuel pos : ℕ} {l : List ℕ}
variable {lfns slots : List Slot} {readSlot : ℕ → List UInt8} {e : DirEntry} {es : List DirEntry}

/-! ### Two ways to read slots -/

theorem parseSlots_append (index : ℕ) (lfns slots slots' : List Slot) :
    parseSlots index lfns (slots ++ slots') = parseSlots index lfns slots ++
      parseSlots (index + slots.length) (trailing lfns slots) slots' := by
  induction slots generalizing index lfns with
  | nil => rfl
  | cons slot slots ih =>
    rw [List.cons_append, parseSlots, parseSlots, trailing, List.length_cons,
      Nat.add_comm slots.length 1, ← Nat.add_assoc]
    split_ifs with hlong
    · exact ih (index + 1) (lfns ++ [slot])
    · rw [ih (index + 1) []]
      rfl

theorem rtakeWhile_concat_live {slot : Slot} (h : slot 0 ≠ deletedMark) :
    (lfns ++ [slot]).rtakeWhile live = lfns.rtakeWhile live ++ [slot] :=
  List.rtakeWhile_concat_pos _ _ _ (by simpa [live] using h)

theorem rtakeWhile_concat_deleted {slot : Slot} (h : slot 0 = deletedMark) :
    (lfns ++ [slot]).rtakeWhile live = [] :=
  List.rtakeWhile_concat_neg _ _ _ (by simp [live, h])

/-- The live entries are those without the mark, each with the run cut at the last deleted slot. -/
theorem listSlots_eq (index : ℕ) (lfns slots : List Slot) :
    listSlots index (lfns.rtakeWhile live) slots =
      ((parseSlots index lfns slots).filter (live ·.sfn)).map DirEntry.trim := by
  induction slots generalizing index lfns with
  | nil => rfl
  | cons slot slots ih =>
    have hnil := ih (index + 1) []
    rw [List.rtakeWhile_nil] at hnil
    rw [listSlots, parseSlots]
    by_cases hdeleted : slot 0 = deletedMark
    · rw [if_pos hdeleted]
      by_cases hlong : sfnAttributes slot = lfnAttributes
      · rw [if_pos hlong, ← ih, rtakeWhile_concat_deleted hdeleted]
      · rw [if_neg hlong, List.filter_cons_of_neg (by simp [live, hdeleted]), hnil]
    · rw [if_neg hdeleted]
      by_cases hlong : sfnAttributes slot = lfnAttributes
      · rw [if_pos hlong, if_pos hlong, ← ih, rtakeWhile_concat_live hdeleted]
      · rw [if_neg hlong, if_neg hlong, List.filter_cons_of_pos (by simp [live, hdeleted]),
          List.map_cons, ← hnil]
        rfl

theorem listing_eq (g : VfatFSData) (d : Device) (c : ℕ) :
    listing g d c = ((entriesOf g d c).filter (live ·.sfn)).map DirEntry.trim :=
  listSlots_eq 0 [] (liveSlots (allSlots g d c))

/-! ### The loops -/

/-- The reads from `index` on deliver the slots. -/
def Reads (readSlot : ℕ → List UInt8) (index : ℕ) (slots : List Slot) : Prop :=
  ∀ i, (hi : i < slots.length) →
    (readSlot (index + i)).length = 32 ∧ slotBuffer (readSlot (index + i)) = slots[i]

theorem Reads.tail {slot : Slot} (h : Reads readSlot index (slot :: slots)) :
    Reads readSlot (index + 1) slots := by
  intro i hi
  have hslot := h (i + 1) (by simpa using hi)
  rw [Nat.add_assoc, Nat.add_comm 1]
  exact hslot

/-- A read of a whole slot replaces what the buffer held. -/
theorem store_whole {buffer : Slot} (hbuffer : ∀ i, 32 ≤ i → buffer i = 0) {bytes : List UInt8}
    (hlen : bytes.length = 32) : store buffer 0 bytes = slotBuffer bytes := by
  funext i
  by_cases hi : i < 32
  · rw [store_inside _ _ (Nat.zero_le i) (by omega), slotBuffer_apply (by omega)]
    rfl
  · rw [slotBuffer, store_above _ _ (by omega), store_above _ _ (by omega), hbuffer i (by omega)]

theorem slotBuffer_above {bytes : List UInt8} (hlen : bytes.length = 32) :
    ∀ i, 32 ≤ i → slotBuffer bytes i = 0 := fun i hi => store_above _ _ (by omega)

/-- The inner loop ends behind the first entry, unless its long-name slots overflow the buffer. -/
theorem readEntry_spec (h : Reads readSlot index slots)
    (hparse : parseSlots index lfns slots = e :: es) {buffer : Slot}
    (hbuffer : ∀ i, 32 ≤ i → buffer i = 0) (hfuel : slots.length ≤ fuel)
    (hlfns : lfns.length ≤ limit) : readEntry readSlot limit fuel index buffer lfns =
      if e.longName.length ≤ limit then some (e.index + 1, e.sfn, e.longName) else none := by
  induction slots generalizing index lfns buffer fuel with
  | nil => cases hparse
  | cons slot slots ih =>
    obtain ⟨fuel, rfl⟩ : ∃ n, fuel = n + 1 := Nat.exists_eq_add_one.mpr (by
      rw [List.length_cons] at hfuel
      omega)
    rw [List.length_cons] at hfuel
    obtain ⟨hlen, hslot⟩ := h 0 (by simp)
    rw [Nat.add_zero] at hlen hslot
    rw [List.getElem_cons_zero] at hslot
    rw [parseSlots] at hparse
    rw [readEntry, store_whole hbuffer hlen, hslot]
    by_cases hlong : sfnAttributes slot = lfnAttributes
    · rw [if_pos hlong] at hparse ⊢
      by_cases hroom : lfns.length < limit
      · rw [if_pos hroom]
        refine ih h.tail hparse ?_ (by omega) ?_
        · rw [← hslot]
          exact slotBuffer_above hlen
        · rw [List.length_append, List.length_singleton]
          omega
      · have hhead := parseSlots_head hparse
        rw [List.length_append, List.length_singleton] at hhead
        rw [if_neg hroom, if_neg (by omega)]
    · rw [if_neg hlong] at hparse ⊢
      obtain ⟨rfl, -⟩ := List.cons.inj hparse
      rw [if_pos hlfns]

/-- The slots behind the first entry hold the other entries. -/
theorem parseSlots_tail (h : parseSlots index lfns slots = e :: es) :
    ∃ k, e.index = index + k ∧ k < slots.length ∧ e.longName.length ≤ lfns.length + k ∧
      parseSlots (e.index + 1) [] (slots.drop (k + 1)) = es ∧
      trailing lfns slots = trailing [] (slots.drop (k + 1)) := by
  induction slots generalizing index lfns with
  | nil => cases h
  | cons slot slots ih =>
    rw [parseSlots] at h
    rw [trailing]
    split_ifs at h ⊢ with hlong
    · obtain ⟨k, hindex, hk, hlen, hrest, htrail⟩ := ih h
      rw [List.length_append, List.length_singleton] at hlen
      exact ⟨k + 1, by omega, by simpa using hk, by omega, hrest, htrail⟩
    · obtain ⟨rfl, rfl⟩ := List.cons.inj h
      exact ⟨0, rfl, by simp, le_rfl, rfl, rfl⟩

theorem Reads.drop (h : Reads readSlot index slots) (k : ℕ) :
    Reads readSlot (index + k) (slots.drop k) := by
  intro i hi
  rw [List.length_drop] at hi
  have hslot := h (k + i) (by omega)
  rw [List.getElem_drop, Nat.add_assoc]
  exact hslot

/-- Skipping entries. -/
theorem skipEntries_spec (h : Reads readSlot index slots) (hparse : parseSlots index [] slots = es)
    (hpos : pos ≤ es.length) (hlimit : slots.length ≤ limit) :
    ∃ index' slots', skipEntries readSlot limit pos index = some index' ∧
      Reads readSlot index' slots' ∧ parseSlots index' [] slots' = es.drop pos ∧
      slots'.length ≤ limit := by
  induction pos generalizing index slots es with
  | zero => exact ⟨index, slots, rfl, h, hparse, hlimit⟩
  | succ pos ih =>
    obtain ⟨e, es, rfl⟩ := List.exists_cons_of_ne_nil (List.ne_nil_of_length_pos
      (show 0 < es.length by omega))
    rw [List.length_cons] at hpos
    obtain ⟨k, hindex, hk, hlen, hrest, -⟩ := parseSlots_tail hparse
    rw [List.length_nil, Nat.zero_add] at hlen
    have hfits : e.longName.length ≤ limit := by omega
    have hread := readEntry_spec h hparse (fun _ _ => rfl) hlimit (Nat.zero_le limit)
    rw [if_pos hfits] at hread
    have hreads := h.drop (k + 1)
    rw [← Nat.add_assoc, ← hindex] at hreads
    rw [skipEntries, hread, List.drop_succ_cons]
    exact ih hreads hrest (by omega) (by rw [List.length_drop]; omega)

/-- **A call of `vfatReadDirectory`** returns the entry at its position, deleted or not, or the end
    where that is the end mark. -/
theorem vfatReadDirectory_spec {flags : ℕ} (h : Reads (dirSlot g d c) 0 slots)
    (hlimit : slots.length ≤ slotLimit g) (hpos : pos < (parseSlots 0 [] slots).length) :
    vfatReadDirectory g d c pos flags =
      if (parseSlots 0 [] slots)[pos].longName.length ≤ 20 then
        if (parseSlots 0 [] slots)[pos].sfn 0 = 0 then some (.error .endOfFile)
        else if NameFits (parseSlots 0 [] slots)[pos].longName then
          some (.ok ((parseSlots 0 [] slots)[pos].info flags))
        else none
      else none := by
  obtain ⟨index, rest, hskip, hreads, hparse, hlen⟩ := skipEntries_spec h rfl hpos.le hlimit
  rw [List.drop_eq_getElem_cons hpos] at hparse
  rw [vfatReadDirectory, entryAt, hskip]
  dsimp only
  rw [readEntry_spec hreads hparse (fun _ _ => rfl) hlen (Nat.zero_le 20)]
  by_cases hrun : (parseSlots 0 [] slots)[pos].longName.length ≤ 20
  · rw [if_pos hrun, if_pos hrun]
    rfl
  · rw [if_neg hrun, if_neg hrun]

/-! ### The calls on a directory -/

theorem readChain_success {off n : ℕ} (h : (readChain g d c off n).1 = .success) :
    (readChain g d c off n).2.length = n := by
  rw [readChain] at h ⊢
  split at h
  · cases h
  · dsimp only at h ⊢
    split_ifs at h with hlen
    exact hlen

theorem Chain.reads (hwf : WellFormed g d.size) (h : Chain g d c l) :
    Reads (dirSlot g d c) 0 (allSlots g d c) := by
  intro i hi
  rw [Nat.zero_add]
  have hslot := h.slotAt_eq hwf hi
  exact ⟨readChain_success (congrArg Prod.fst hslot), congrArg Prod.snd hslot⟩

theorem Reads.prefix {rest : List Slot} (h : Reads readSlot index (slots ++ rest)) :
    Reads readSlot index slots := by
  intro i hi
  have hslot := h i (by rw [List.length_append]; omega)
  rwa [List.getElem_append_left hi] at hslot

theorem parseSlots_sfn (h : e ∈ parseSlots index lfns slots) : e.sfn ∈ slots := by
  induction slots generalizing index lfns with
  | nil => cases h
  | cons slot slots ih =>
    rw [parseSlots] at h
    split_ifs at h with hlong
    · exact List.mem_cons_of_mem _ (ih h)
    · obtain rfl | h := List.mem_cons.mp h
      · exact List.mem_cons_self
      · exact List.mem_cons_of_mem _ (ih h)

/-- The entries that the calls return are not the end mark. -/
theorem entriesOf_ne_zero (h : e ∈ entriesOf g d c) : e.sfn 0 ≠ 0 := by
  have hlive := List.mem_takeWhile_imp (parseSlots_sfn h)
  simpa using hlive

/-- The end of the directory behind its entries. -/
theorem EndMarked.reads (h : EndMarked g d c) (hwf : WellFormed g d.size) (hc : Chain g d c l) :
    ∃ stop : Slot, stop 0 = 0 ∧ Reads (dirSlot g d c) 0 (liveSlots (allSlots g d c) ++ [stop]) ∧
      (liveSlots (allSlots g d c) ++ [stop]).length ≤ slotLimit g ∧
      parseSlots 0 [] (liveSlots (allSlots g d c) ++ [stop]) =
        entriesOf g d c ++ [⟨(liveSlots (allSlots g d c)).length,
          trailing [] (liveSlots (allSlots g d c)), stop⟩] := by
  obtain ⟨stop, hstop, hattr⟩ := h
  obtain ⟨rest, hrest⟩ := List.head?_eq_some_iff.mp hstop
  have hsplit : allSlots g d c = (liveSlots (allSlots g d c) ++ [stop]) ++ rest := by
    rw [List.append_assoc, List.singleton_append, ← hrest]
    exact List.takeWhile_append_dropWhile.symm
  have hreads := hc.reads hwf
  rw [hsplit] at hreads
  have hlimit := hc.length_allSlots_lt
  rw [hsplit, List.length_append] at hlimit
  have hzero : stop 0 = 0 := by
    have hne : (allSlots g d c).dropWhile (fun slot => slot 0 ≠ 0) ≠ [] := by
      rw [hrest]
      exact List.cons_ne_nil _ _
    have hhead := List.head_dropWhile_not _ hne
    have hstop : ((allSlots g d c).dropWhile fun slot => slot 0 ≠ 0).head hne = stop :=
      Option.some.inj ((List.head?_eq_some_head hne).symm.trans hstop)
    rw [hstop] at hhead
    simpa using hhead
  refine ⟨stop, hzero, hreads.prefix, by omega, ?_⟩
  rw [parseSlots_append, Nat.zero_add, parseSlots, if_neg hattr]
  rfl

/-- What the calls return up to the end. -/
theorem EndMarked.calls (h : EndMarked g d c) (hwf : WellFormed g d.size) (hc : Chain g d c l) (flags : ℕ) :
    (∀ pos, (hpos : pos < (entriesOf g d c).length) → vfatReadDirectory g d c pos flags =
      if (entriesOf g d c)[pos].longName.length ≤ 20 ∧ NameFits (entriesOf g d c)[pos].longName then
        some (.ok ((entriesOf g d c)[pos].info flags)) else none) ∧
    vfatReadDirectory g d c (entriesOf g d c).length flags =
      if (trailing [] (liveSlots (allSlots g d c))).length ≤ 20 then some (.error .endOfFile)
      else none := by
  obtain ⟨stop, hzero, hreads, hlimit, hparse⟩ := h.reads hwf hc
  have hlen : (parseSlots 0 [] (liveSlots (allSlots g d c) ++ [stop])).length =
      (entriesOf g d c).length + 1 := by
    rw [hparse, List.length_append, List.length_singleton]
  refine ⟨fun pos hpos => ?_, ?_⟩
  · have hin : pos < (parseSlots 0 [] (liveSlots (allSlots g d c) ++ [stop])).length := by omega
    have hentry : (parseSlots 0 [] (liveSlots (allSlots g d c) ++ [stop]))[pos] =
        (entriesOf g d c)[pos] := by
      simp only [hparse]
      exact List.getElem_append_left hpos
    rw [vfatReadDirectory_spec hreads hlimit hin, hentry,
      if_neg (entriesOf_ne_zero (List.getElem_mem hpos)), ite_and]
  · have hin : (entriesOf g d c).length <
        (parseSlots 0 [] (liveSlots (allSlots g d c) ++ [stop])).length := by omega
    have hentry : (parseSlots 0 [] (liveSlots (allSlots g d c) ++ [stop]))[(entriesOf g d c).length] =
        ⟨(liveSlots (allSlots g d c)).length,
          trailing [] (liveSlots (allSlots g d c)), stop⟩ := by
      simp only [hparse]
      exact List.getElem_concat_length rfl _
    rw [vfatReadDirectory_spec hreads hlimit hin, hentry, if_pos hzero]

/-- **The calls list a directory** if and only if no short entry is deleted, deleted long-name slots
    add nothing to a name, and every name and every run of long-name slots fits its buffer. -/
theorem listsRight_iff (hwf : WellFormed g d.size) (hc : Chain g d c l) (h : EndMarked g d c)
    (flags : ℕ) : ListsRight g d c flags ↔ Clean g d c := by
  obtain ⟨hentry, hlast⟩ := h.calls hwf hc flags
  have hlist := listing_eq g d c
  constructor
  · intro hright
    -- the end is returned behind the live entries, so all entries are live
    have hend := hright (listing g d c).length le_rfl
    rw [List.getElem?_eq_none le_rfl] at hend
    have hall : (entriesOf g d c).length ≤ (listing g d c).length := by
      by_contra hlt
      rw [hentry _ (by omega)] at hend
      split_ifs at hend
      cases hend
    have hfilter : (entriesOf g d c).filter (live ·.sfn) = entriesOf g d c := by
      refine List.filter_sublist.eq_of_length_le ?_
      rwa [hlist, List.length_map] at hall
    rw [hfilter] at hlist
    have hlen : (listing g d c).length = (entriesOf g d c).length := by
      rw [hlist, List.length_map]
    have hget : ∀ pos, (hpos : pos < (entriesOf g d c).length) →
        ((entriesOf g d c)[pos].longName.length ≤ 20 ∧ NameFits (entriesOf g d c)[pos].longName) ∧
        (entriesOf g d c)[pos].info flags = (entriesOf g d c)[pos].trim.info flags := by
      intro pos hpos
      have hcall := hright pos (by omega)
      rw [List.getElem?_eq_getElem (by omega), hentry pos hpos] at hcall
      split_ifs at hcall with hrun
      refine ⟨hrun, ?_⟩
      simp only [hlist, List.getElem_map] at hcall
      exact Except.ok.inj (Option.some.inj hcall)
    refine ⟨List.filter_eq_self.mp hfilter, fun e he => ?_, fun e he => ?_, fun e he => ?_, ?_⟩
    · obtain ⟨pos, hpos, rfl⟩ := List.getElem_of_mem he
      exact (congrArg XTFileInfo.name (hget pos hpos).2).symm
    · obtain ⟨pos, hpos, rfl⟩ := List.getElem_of_mem he
      exact (hget pos hpos).1.2
    · obtain ⟨pos, hpos, rfl⟩ := List.getElem_of_mem he
      exact (hget pos hpos).1.1
    · rw [hlen, hlast] at hend
      split_ifs at hend with hrun
      exact hrun
  · intro hclean pos hpos
    rw [List.filter_eq_self.mpr hclean.entries] at hlist
    rw [hlist, List.length_map] at hpos
    obtain hlt | rfl := Nat.lt_or_eq_of_le hpos
    · have he := List.getElem_mem hlt
      rw [hentry pos hlt, if_pos ⟨hclean.runs _ he, hclean.fit _ he⟩, hlist, List.getElem?_map,
        List.getElem?_eq_getElem hlt]
      simp only [Option.map_some, DirEntry.info, hclean.names _ he]
      rfl
    · rw [hlast, if_pos hclean.last, hlist, List.getElem?_eq_none (by rw [List.length_map])]

/-! ### The small volume -/

/-- The root directory with the file `A` alone. -/
theorem listsRight_iff_file : ListsRight smallVolume (smallDevice 0) 2 0 := by
  have hend : (endSlot smallVolume (smallDevice 0) 2).map sfnAttributes = some 0 := by
    decide +kernel
  obtain ⟨stop, hstop, hattr⟩ := Option.map_eq_some_iff.mp hend
  have hended : EndMarked smallVolume (smallDevice 0) 2 := ⟨stop, hstop, by rw [hattr]; decide⟩
  refine (listsRight_iff (smallVolume_wellFormed 0) smallDevice_chain hended 0).mpr ?_
  exact ⟨by decide +kernel, by decide +kernel, by decide +kernel, by decide +kernel,
    by decide +kernel⟩

/-- One deleted slot in front of the file `A`: it is listed as an entry with an empty name, and `A` is
    listed where the directory should end. -/
theorem deleted_entry_listed :
    (listing smallVolume (smallDevice 1) 2).map DirEntry.name = [[0x41]] ∧
    (vfatReadDirectory smallVolume (smallDevice 1) 2 0 0).map (fun r => r.toOption.map (·.name)) =
      some (some []) ∧
    (vfatReadDirectory smallVolume (smallDevice 1) 2 1 0).map (fun r => r.toOption.map (·.name)) =
      some (some [0x41]) ∧
    ¬ ListsRight smallVolume (smallDevice 1) 2 0 := by
  have hlist : (listing smallVolume (smallDevice 1) 2).map DirEntry.name = [[0x41]] := by
    decide +kernel
  have hcall : (vfatReadDirectory smallVolume (smallDevice 1) 2 1 0).map
      (fun r => r.toOption.map (·.name)) = some (some [0x41]) := by
    decide +kernel
  refine ⟨hlist, by decide +kernel, hcall, fun hright => ?_⟩
  have hlen : (listing smallVolume (smallDevice 1) 2).length = 1 := by
    rw [← List.length_map, hlist]
    rfl
  have hend := hright 1 hlen.ge
  rw [List.getElem?_eq_none hlen.le] at hend
  rw [hend] at hcall
  cases hcall

end XTOS.Vfat

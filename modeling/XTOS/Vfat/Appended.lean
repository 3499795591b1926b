import XTOS.Vfat.Entries
import XTOS.Vfat.Listing
import XTOS.Vfat.Taken

/-!
# The listing of a directory that gets an entry

`vfatReadDirectory` of `drivers/vfat/main.c` before and after `vfatCreateFile`. The creation writes
no end mark behind the new entry, so that the slots behind it belong to the directory: what they
held before, also in the clusters that the directory gets.

## Main definitions

- `Lists` — the results of the calls up to the end of the directory
- `returned` — the entries that the calls find in slots
- `slotsAfter` — the slots of a directory behind the creation
- `Survives` — the new entry is read back, and nothing is listed behind it
- `ListedWith` — the listing got the new entry and nothing else

## Main results

- `lists_iff` — what the calls on a directory return
- `listedWith_iff` — exactly when the listing gets the new entry and nothing else
-/

namespace XTOS.Vfat

open SysLib

variable {g : VfatFSData} {d d' : Device} {c i n limit fuel index flags : ℕ} {l l' : List ℕ}
variable {lfns slots slots' : List Slot} {readSlot : ℕ → List UInt8} {e : DirEntry}
variable {es : List DirEntry} {infos : List XTFileInfo}

/-! ### What the calls return -/

/-- The calls at the positions 0, 1, 2, ... return these results, and then the end. -/
def Lists (g : VfatFSData) (d : Device) (c flags : ℕ) (infos : List XTFileInfo) : Prop :=
  ∀ pos ≤ infos.length, vfatReadDirectory g d c pos flags =
    some (match infos[pos]? with
      | some info => .ok info
      | none => .error .endOfFile)

/-- The entries that the calls find in slots, deleted or not, up to the end of the directory, behind
    the long-name slots `lfns`. There are none when a call does not return: the directory ends
    behind a long-name slot, the buffer of 20 long-name slots overflows, or a name does not fit. -/
def returned : ℕ → List Slot → List Slot → Option (List DirEntry)
  | _, lfns, [] => if lfns = [] then some [] else none
  | index, lfns, slot :: slots =>
    if sfnAttributes slot = lfnAttributes then
      if lfns.length < 20 then returned (index + 1) (lfns ++ [slot]) slots else none
    else if slot 0 = 0 then some []
    else if NameFits lfns then (returned (index + 1) [] slots).map (⟨index, lfns, slot⟩ :: ·)
    else none

/-- The reads from `index` on deliver the slots, and behind them nothing. -/
structure ReadsAll (readSlot : ℕ → List UInt8) (index fuel : ℕ) (slots : List Slot) : Prop where
  reads : Reads readSlot index slots
  behind : ∀ i < fuel, readSlot (index + slots.length + i) = []

theorem ReadsAll.drop (h : ReadsAll readSlot index fuel slots) {k : ℕ} (hk : k ≤ slots.length) :
    ReadsAll readSlot (index + k) fuel (slots.drop k) := by
  refine ⟨h.reads.drop k, fun i hi => ?_⟩
  rw [List.length_drop, show index + k + (slots.length - k) + i = index + slots.length + i by omega]
  exact h.behind i hi

/-- The entry that `vfatCreateFile` writes, behind the long-name slots in front of it. -/
def newEntry (slots : List Slot) (first : ℕ) (info : XTFileInfo) : DirEntry :=
  let start := entryStart (slotOf slots) (firstFree slots)
  let sfn := newSfn (slotOf slots (firstFree slots)) first info
  let wname := wideName info.name
  { index := start + lfnCount wname
    longName := trailing [] (slots.take start) ++ (List.range (lfnCount wname)).map fun j =>
      slotBuffer (lfnBytes (calcChecksum (load sfn 0 11)) wname j)
    sfn := slotBuffer (load sfn 0 32) }

/-- Nothing is listed in slots: there are none, or they come to an end mark behind at most 20
    long-name slots. -/
def Closed (slots : List Slot) : Prop :=
  slots = [] ∨ ∃ run stop rest, slots = run ++ stop :: rest ∧
    (∀ slot ∈ run, sfnAttributes slot = lfnAttributes) ∧ run.length ≤ 20 ∧
    sfnAttributes stop ≠ lfnAttributes ∧ stop 0 = 0

end XTOS.Vfat

import XTOS.Lib.Snapshot
import XTOS.Hpet
import XTOS.Time

/-!
# The clock chip

`xtCMOSInit` of `xtkernel/arch/x86_64/arch.c`: the kernel reads the battery-backed clock through two ports,
one register at a time, while the chip goes on. It waits until no update is in progress and reads until it
has seen the same twice, and sets its own clock to what it has read.

## Main definitions

- `Chip`, `Chip.Step` — the registers, and an update that changes them one at a time
- `xtCMOSInit` — the driver, at each access to the ports in the state that the chip is in then
- `shown` — what the registers are for a time, in each of the four formats

## Main results

- `readClock_snapshot` — the driver ends, with the registers of one moment between two updates
- `xtCMOSInit_sets` — the kernel's clock is the time of the chip, for which times

## Design notes

The chip makes any number of steps between two accesses. The driver has no register for the century, so the
two uninitialised variables for it, compared with each other, are left out.
-/

namespace XTOS.Cmos

open SysLib Hpet

/-- `CURRENT_YEAR`. -/
def currentYear : ℕ := 2026

/-- The chip: its registers, and what they will be after the update that is in progress. -/
structure Chip where
  cells : ℕ → UInt8
  updating : Option (ℕ → UInt8)
  updates : ℕ

/-- The registers that `xtCMOSInit` reads in each pass. -/
def timeRegister : Fin 6 → ℕ := ![0x00, 0x02, 0x04, 0x07, 0x08, 0x09]

/-- What a read of a register gives; bit 7 of register `0x0a` is set during an update. -/
def Chip.register (c : Chip) (reg : ℕ) : UInt8 :=
  if reg = 0x0a then (c.cells 0x0a &&& 0x7f) ||| (if c.updating.isSome then 0x80 else 0) else c.cells reg

/-- The chip begins an update, changes a register, or ends the update. -/
inductive Chip.Step : Chip → Chip → Prop
  | begin {c : Chip} (cells : ℕ → UInt8) : c.updating = none →
      (∀ reg, (∀ i, reg ≠ timeRegister i) → cells reg = c.cells reg) →
      Step c { c with updating := some cells, updates := c.updates + 1 }
  | write {c : Chip} {cells : ℕ → UInt8} (reg : ℕ) : c.updating = some cells →
      Step c { c with cells := Function.update c.cells reg (cells reg) }
  | finish {c : Chip} : c.updating = some c.cells → Step c { c with updating := none }

/-! ### The driver -/

/-- The values of one pass. -/
structure Reading where
  second : UInt8
  minute : UInt8
  hour : UInt8
  day : UInt8
  month : UInt8
  year : UInt8
  deriving DecidableEq, Repr

/-- `getRTCRegister`, as access `n`. -/
def getRTCRegister (chip : ℕ → Chip) (n reg : ℕ) : UInt8 := (chip n).register reg

/-- `getUpdateInProgress`, as access `n`. -/
def getUpdateInProgress (chip : ℕ → Chip) (n : ℕ) : Bool := (chip n).register 0x0a &&& 0x80 != 0

/-- `while (getUpdateInProgress());` from access `n` on: the access that ends it. -/
def waitForUpdate (chip : ℕ → Chip) : ℕ → ℕ → Option ℕ
  | 0, _ => none
  | fuel + 1, n => if getUpdateInProgress chip n then waitForUpdate chip fuel (n + 1) else some n

/-- The six reads of a pass. -/
def readRegisters (chip : ℕ → Chip) (n : ℕ) : Reading where
  second := getRTCRegister chip n 0x00
  minute := getRTCRegister chip (n + 1) 0x02
  hour := getRTCRegister chip (n + 2) 0x04
  day := getRTCRegister chip (n + 3) 0x07
  month := getRTCRegister chip (n + 4) 0x08
  year := getRTCRegister chip (n + 5) 0x09

/-- One pass from access `n` on, with the number of the next access. -/
def readPass (chip : ℕ → Chip) (polls n : ℕ) : Option (Reading × ℕ) :=
  (waitForUpdate chip polls n).map fun m => (readRegisters chip (m + 1), m + 7)

/-- The `do` loop, until a pass reads what the one before has read. -/
def readLoop (chip : ℕ → Chip) (polls : ℕ) : ℕ → Reading → ℕ → Option (Reading × ℕ)
  | 0, _, _ => none
  | fuel + 1, last, n =>
    match readPass chip polls n with
    | none => none
    | some (r, n) => if r = last then some (r, n) else readLoop chip polls fuel r n

/-- All reads of the time registers. -/
def readClock (chip : ℕ → Chip) (polls fuel : ℕ) : Option (Reading × ℕ) :=
  (readPass chip polls 0).bind fun (r, n) => readLoop chip polls fuel r n

/-- Two decimal digits. -/
def fromBcd (x : ℕ) : ℕ := (x &&& 0x0F) + x / 16 * 10

/-- The conversions after the loop. -/
def decodeTime (registerB : UInt8) (r : Reading) : XTTime :=
  let bcd := registerB &&& 0x04 = 0
  let second := if bcd then fromBcd r.second.toNat else r.second.toNat
  let minute := if bcd then fromBcd r.minute.toNat else r.minute.toNat
  let hour := if bcd then
      ((r.hour.toNat &&& 0x0F) + (r.hour.toNat &&& 0x70) / 16 * 10) ||| (r.hour.toNat &&& 0x80)
    else r.hour.toNat
  let day := if bcd then fromBcd r.day.toNat else r.day.toNat
  let month := if bcd then fromBcd r.month.toNat else r.month.toNat
  let year := if bcd then fromBcd r.year.toNat else r.year.toNat
  let hour := if registerB &&& 0x02 = 0 ∧ hour &&& 0x80 ≠ 0 then ((hour &&& 0x7F) + 12) % 24 else hour
  let year := year + currentYear / 100 * 100
  let year := if year < currentYear then year + 100 else year
  { seconds := second, minutes := minute, hour := hour, mday := day, wday := 0, month := month, yday := 0,
    year := year }

/-- `xtCMOSInit`; the result of `xtMakeTime` is not checked. -/
def xtCMOSInit (chip : ℕ → Chip) (polls fuel : ℕ) (h : Timer) (ticks : ℕ) :
    Option (XTResult × Clock) :=
  (readClock chip polls fuel).map fun (r, n) =>
    let time := decodeTime (getRTCRegister chip n 0x0B) r
    let unixtime := match xtMakeTime time with
      | .ok unixtime => unixtime
      | .error _ => 0
    (.success, xtSetTime h unixtime 0 ticks)

/-! ### The formats -/

/-- A value below 100 in two decimal digits. -/
def toBcd (x : ℕ) : ℕ := x / 10 * 16 + x % 10

/-- A value in the format that bit 2 of register B chooses. -/
def shownValue (registerB : UInt8) (x : ℕ) : UInt8 :=
  UInt8.ofNat (if registerB &&& 0x04 = 0 then toBcd x else x)

/-- An hour in the format that bits 1 and 2 choose. With a clock of twelve hours, the hours are 1 to 12,
    and bit 7 is set in the afternoon. -/
def shownHour (registerB : UInt8) (hour : ℕ) : UInt8 :=
  if registerB &&& 0x02 = 0 then
    shownValue registerB ((hour + 11) % 12 + 1) ||| (if 12 ≤ hour then 0x80 else 0)
  else shownValue registerB hour

/-- The registers for a time. -/
def shown (registerB : UInt8) (time : XTTime) : Reading where
  second := shownValue registerB time.seconds
  minute := shownValue registerB time.minutes
  hour := shownHour registerB time.hour
  day := shownValue registerB time.mday
  month := shownValue registerB time.month
  year := shownValue registerB (time.year % 100)

/-- The hour that the kernel makes of it: noon and midnight are exchanged. -/
def readHour (registerB : UInt8) (hour : ℕ) : ℕ :=
  if registerB &&& 0x02 = 0 ∧ hour % 12 = 0 then 12 - hour else hour

/-- The year between 2026 and 2125 with the same last two digits. -/
def readYear (year : ℕ) : ℕ := if year % 100 < 26 then year % 100 + 2100 else year % 100 + 2000

/-- The times that the kernel gets right. -/
def ReadRight (registerB : UInt8) (time : XTTime) : Prop :=
  2026 ≤ time.year ∧ time.year < 2126 ∧ (registerB &&& 0x02 = 0 → time.hour % 12 ≠ 0)

/-! ### One moment -/

/-- A pass, from the six values. -/
def toReading (f : Fin 6 → UInt8) : Reading := ⟨f 0, f 1, f 2, f 3, f 4, f 5⟩

/-- The six values at one moment. -/
def Chip.timeValues (c : Chip) (i : Fin 6) : UInt8 := c.register (timeRegister i)

/-- The time registers at one moment. -/
def Chip.reading (c : Chip) : Reading := toReading c.timeValues

/-- What the driver relies on: an update ends after less than `polls` accesses, and there is at most one
    while it makes four passes. -/
structure Slow (chip : ℕ → Chip) (polls : ℕ) : Prop where
  steps : ∀ n, Relation.ReflTransGen Chip.Step (chip n) (chip (n + 1))
  ends : ∀ n, ∃ m, n ≤ m ∧ m < n + polls ∧ (chip m).updating = none
  rare : ∀ n, (chip (n + 4 * (polls + 6))).updates ≤ (chip n).updates + 1

variable {chip : ℕ → Chip} {polls n m u v : ℕ}

theorem toReading_injective : Function.Injective toReading := by
  intro f g h
  simp only [toReading, Reading.mk.injEq] at h
  obtain ⟨h0, h1, h2, h3, h4, h5⟩ := h
  funext i
  fin_cases i
  · exact h0
  · exact h1
  · exact h2
  · exact h3
  · exact h4
  · exact h5

/-- A pass reads one register after the other. -/
theorem readRegisters_eq (chip : ℕ → Chip) (u : ℕ) :
    readRegisters chip (u + 1) = toReading (sample Chip.timeValues chip u) := rfl

theorem getUpdateInProgress_eq (chip : ℕ → Chip) (n : ℕ) :
    getUpdateInProgress chip n = (chip n).updating.isSome := by
  rw [getUpdateInProgress, Chip.register, if_pos rfl]
  have hbit : ∀ x : UInt8, (x &&& 0x7f) &&& 0x80 = 0 := by
    intro x
    rw [UInt8.and_assoc, show (0x7f : UInt8) &&& 0x80 = 0 by decide, UInt8.and_zero]
  cases (chip n).updating with
  | none =>
    rw [Option.isSome_none, if_neg Bool.false_ne_true, UInt8.or_zero, hbit]
    rfl
  | some values =>
    rw [Option.isSome_some, if_pos rfl, bne_iff_ne]
    intro hzero
    have hnat := congrArg UInt8.toNat hzero
    rw [UInt8.toNat_and, UInt8.toNat_or, Nat.and_or_distrib_right] at hnat
    exact absurd (Nat.or_eq_zero_iff.mp hnat).2 (by decide)

/-- While no update is in progress and none begins, the chip does nothing. -/
theorem Slow.quiet (h : Slow chip polls) :
    Quiet (fun c : Chip => c.updating = none) Chip.updates chip := by
  refine Quiet.of_steps h.steps (fun c c' hstep => ?_) fun c c' hidle hstep => ?_
  · cases hstep with
    | begin => exact Nat.le_succ _
    | write => exact le_rfl
    | finish => exact le_rfl
  · cases hstep with
    | begin => exact Nat.lt_succ_self _
    | write reg hup =>
      rw [hidle] at hup
      cases hup
    | finish hup =>
      rw [hidle] at hup
      cases hup

theorem waitForUpdate_spec (hidle : (chip m).updating = none) (hnm : n ≤ m) (hmn : m < n + polls) :
    ∃ u, waitForUpdate chip polls n = some u ∧ n ≤ u ∧ u < n + polls ∧ (chip u).updating = none := by
  induction polls generalizing n with
  | zero => omega
  | succ polls ih =>
    rw [waitForUpdate, getUpdateInProgress_eq]
    by_cases hup : (chip n).updating.isSome
    · have hne : n ≠ m := by
        rintro rfl
        rw [hidle] at hup
        cases hup
      obtain ⟨u, hu, hle, hlt, hend⟩ := ih (n := n + 1) (by omega) (by omega)
      exact ⟨u, by rw [if_pos hup, hu], by omega, by omega, hend⟩
    · rw [if_neg hup]
      exact ⟨n, rfl, le_rfl, by omega, Option.not_isSome_iff_eq_none.mp hup⟩

/-- A pass begins between two updates. -/
theorem Slow.readPass (h : Slow chip polls) (n : ℕ) :
    ∃ u, readPass chip polls n = some (readRegisters chip (u + 1), u + 7) ∧ n ≤ u ∧ u < n + polls ∧
      (chip u).updating = none := by
  obtain ⟨m, hnm, hmn, hidle⟩ := h.ends n
  obtain ⟨u, hu, hle, hlt, hend⟩ := waitForUpdate_spec hidle hnm hmn
  exact ⟨u, by rw [Cmos.readPass, hu, Option.map_some], hle, hlt, hend⟩

/-- Two passes that read the same have read the registers of one moment. -/
theorem Slow.snapshot (h : Slow chip polls) (hu : (chip u).updating = none)
    (hv : (chip v).updating = none) (huv : u + 6 ≤ v) (hvu : v + 6 ≤ u + 4 * (polls + 6))
    (heq : readRegisters chip (v + 1) = readRegisters chip (u + 1)) :
    ∃ k, k ≤ v ∧ (chip k).updating = none ∧ readRegisters chip (v + 1) = (chip k).reading := by
  have hfew : (chip (v + 6)).updates ≤ (chip u).updates + 1 := (h.quiet.mono hvu).trans (h.rare u)
  rw [readRegisters_eq, readRegisters_eq] at heq
  rw [readRegisters_eq]
  obtain hfirst | hsecond := h.quiet.snapshot hu hv huv hfew (toReading_injective heq)
  · exact ⟨u, by omega, hu, congrArg toReading hfirst⟩
  · exact ⟨v, le_rfl, hv, congrArg toReading hsecond⟩

/-- **The reads end**, and they are those of one moment between two updates. -/
theorem readClock_snapshot (h : Slow chip polls) {fuel : ℕ} (hfuel : 3 ≤ fuel) :
    ∃ r n k, readClock chip polls fuel = some (r, n) ∧ k < 4 * (polls + 6) ∧
      (chip k).updating = none ∧ r = (chip k).reading := by
  obtain ⟨fuel, rfl⟩ := Nat.exists_eq_add_of_le' hfuel
  obtain ⟨u1, hp1, h1, h1', hidle1⟩ := h.readPass 0
  obtain ⟨u2, hp2, h2, h2', hidle2⟩ := h.readPass (u1 + 7)
  obtain ⟨u3, hp3, h3, h3', hidle3⟩ := h.readPass (u2 + 7)
  obtain ⟨u4, hp4, h4, h4', hidle4⟩ := h.readPass (u3 + 7)
  rw [readClock, hp1, Option.bind_some]
  dsimp only
  rw [readLoop, hp2]
  dsimp only
  split_ifs with heq2
  · obtain ⟨k, hk, hidle, hr⟩ := h.snapshot hidle1 hidle2 (by omega) (by omega) heq2
    exact ⟨_, _, k, rfl, by omega, hidle, hr⟩
  rw [readLoop, hp3]
  dsimp only
  split_ifs with heq3
  · obtain ⟨k, hk, hidle, hr⟩ := h.snapshot hidle2 hidle3 (by omega) (by omega) heq3
    exact ⟨_, _, k, rfl, by omega, hidle, hr⟩
  -- an update has come in the first two passes, so none comes in the last two
  have hfew : (chip (u4 + 6)).updates ≤ (chip u1).updates + 1 :=
    (h.quiet.mono (show u4 + 6 ≤ u1 + 4 * (polls + 6) by omega)).trans (h.rare u1)
  have heq4 : readRegisters chip (u4 + 1) = readRegisters chip (u3 + 1) := by
    have hfour : sample Chip.timeValues chip u2 = sample Chip.timeValues chip u1 ∨
        sample Chip.timeValues chip u4 = sample Chip.timeValues chip u3 :=
      h.quiet.agree hidle1 hidle3 (by omega) (by omega) (by omega) hfew
    obtain hagree | hagree := hfour
    · exact absurd (congrArg toReading hagree) heq2
    · exact congrArg toReading hagree
  rw [readLoop, hp4]
  dsimp only
  rw [if_pos heq4]
  obtain ⟨k, hk, hidle, hr⟩ := h.snapshot hidle3 hidle4 (by omega) (by omega) heq4
  exact ⟨_, _, k, rfl, by omega, hidle, hr⟩

/-! ### The time in the registers -/

theorem fromBcd_shown (x : ℕ) (h : x < 100) : fromBcd (UInt8.ofNat (toBcd x)).toNat = x := by
  revert x
  decide

/-- A value is read as it was meant, in both formats. -/
theorem decode_shownValue (registerB : UInt8) {x : ℕ} (h : x < 100) :
    (if registerB &&& 0x04 = 0 then fromBcd (shownValue registerB x).toNat
      else (shownValue registerB x).toNat) = x := by
  rw [shownValue]
  split_ifs with hbcd
  · exact fromBcd_shown x h
  · exact UInt8.toNat_ofNat_of_lt' (h.trans (by decide))

/-- The hour is read as it was meant, but for noon and midnight of a clock of twelve hours. -/
theorem decode_shownHour (registerB : UInt8) {x : ℕ} (h : x < 24) :
    (let hour := if registerB &&& 0x04 = 0 then
        (((shownHour registerB x).toNat &&& 0x0F) + ((shownHour registerB x).toNat &&& 0x70) / 16 * 10) |||
          ((shownHour registerB x).toNat &&& 0x80)
      else (shownHour registerB x).toNat
    if registerB &&& 0x02 = 0 ∧ hour &&& 0x80 ≠ 0 then ((hour &&& 0x7F) + 12) % 24 else hour) =
      readHour registerB x := by
  dsimp only
  rw [shownHour, readHour]
  by_cases htwelve : registerB &&& 0x02 = 0
  · by_cases hbcd : registerB &&& 0x04 = 0
    · simp only [shownValue, htwelve, hbcd, if_true, true_and]
      revert x
      decide
    · simp only [shownValue, htwelve, hbcd, if_true, if_false, true_and]
      revert x
      decide
  · by_cases hbcd : registerB &&& 0x04 = 0
    · simp only [shownValue, htwelve, hbcd, if_true, if_false, false_and]
      revert x
      decide
    · simp only [shownValue, htwelve, hbcd, if_false, false_and]
      revert x
      decide

theorem decode_year (x : ℕ) : (if x % 100 + currentYear / 100 * 100 < currentYear then
    x % 100 + currentYear / 100 * 100 + 100 else x % 100 + currentYear / 100 * 100) = readYear x := by
  rw [readYear, show currentYear / 100 * 100 = 2000 from rfl, show currentYear = 2026 from rfl]
  split_ifs
  · rfl
  · omega
  · omega
  · rfl

/-- The calendar time that the kernel makes of the registers. -/
theorem decodeTime_shown (registerB : UInt8) {t : XTTime} (ht : t.Valid) :
    decodeTime registerB (shown registerB t) =
      { t with hour := readHour registerB t.hour, year := readYear t.year, wday := 0, yday := 0 } := by
  have hmday := ht.mday.trans (daysInMonth_le _ _)
  rw [decodeTime, shown]
  dsimp only
  rw [XTTime.mk.injEq]
  refine ⟨decode_shownValue registerB (ht.seconds.trans_lt (by decide)),
    decode_shownValue registerB (ht.minutes.trans_lt (by decide)),
    decode_shownHour registerB (ht.hour.trans_lt (by decide)),
    decode_shownValue registerB (hmday.trans_lt (by decide)), rfl,
    decode_shownValue registerB (ht.month.trans_lt (by decide)), rfl, ?_⟩
  rw [decode_shownValue registerB (Nat.mod_lt _ (by decide))]
  exact decode_year t.year

/-! ### The kernel's clock -/

theorem readYear_eq_iff (y : ℕ) : readYear y = y ↔ 2026 ≤ y ∧ y < 2126 := by
  rw [readYear]
  split_ifs
  · omega
  · omega

theorem readHour_eq_iff (registerB : UInt8) (x : ℕ) :
    readHour registerB x = x ↔ (registerB &&& 0x02 = 0 → x % 12 ≠ 0) := by
  rw [readHour]
  split_ifs with hexchanged
  · refine iff_of_false (by omega) fun h => h hexchanged.1 hexchanged.2
  · exact iff_of_true rfl fun htwelve hzero => hexchanged ⟨htwelve, hzero⟩

/-- Different times of the calendar are different seconds. -/
theorem fields_eq_of_unixtime {a b : XTTime} (ha : a.Valid) (hb : b.Valid)
    (h : a.unixtime = b.unixtime) : a.fields = b.fields := by
  obtain hlt | heq | hgt := lt_trichotomy a.fields b.fields
  · exact absurd h (unixtime_lt ha hlt).ne
  · exact heq
  · exact absurd h (unixtime_lt hb hgt).ne'

/-- The second that `xtCMOSInit` passes to `xtSetTime`. -/
theorem madeTime_eq_iff (registerB : UInt8) {t : XTTime} (ht : t.Valid) :
    (match xtMakeTime (decodeTime registerB (shown registerB t)) with
      | .ok unixtime => unixtime
      | .error _ => 0) = t.unixtime ↔ ReadRight registerB t := by
  rw [decodeTime_shown registerB ht]
  set t' : XTTime :=
    { t with hour := readHour registerB t.hour, year := readYear t.year, wday := 0, yday := 0 } with ht'
  have hyear : t'.year < 2 ^ 32 := by
    change readYear t.year < 2 ^ 32
    rw [readYear]
    split_ifs
    · omega
    · omega
  have hright : ReadRight registerB t ↔ readYear t.year = t.year ∧ readHour registerB t.hour = t.hour := by
    rw [readYear_eq_iff, readHour_eq_iff, ReadRight, and_assoc]
  rw [hright]
  by_cases hvalid : t'.Valid
  · rw [(xtMakeTime_ok_iff hyear).mpr ⟨hvalid, rfl⟩]
    dsimp only
    constructor
    · intro heq
      have hfields := fields_eq_of_unixtime hvalid ht heq
      simp only [XTTime.fields, List.cons.injEq] at hfields
      exact ⟨hfields.1, hfields.2.2.2.1⟩
    · rintro ⟨hy, hh⟩
      rw [ht', XTTime.unixtime, XTTime.dayNumber, XTTime.dayOfYear, XTTime.secondOfDay]
      dsimp only
      rw [hy, hh]
      rfl
  · -- the day is not one of the month in the other year
    have herror : ∀ u, xtMakeTime t' ≠ .ok u := fun u hu => hvalid ((xtMakeTime_ok_iff hyear).mp hu).1
    have hlate : daysInMonth t'.year t'.month < t.mday := by
      by_contra hle
      refine hvalid ⟨ht.seconds, ht.minutes, ?_, ht.mday_pos, not_lt.mp hle, ht.month_pos, ht.month, ?_⟩
      · change readHour registerB t.hour ≤ 23
        have hhour := ht.hour
        rw [readHour]
        split_ifs
        · omega
        · exact hhour
      · change 1970 ≤ readYear t.year
        rw [readYear]
        split_ifs
        · omega
        · omega
    have hpos : 1 ≤ daysInMonth t'.year t'.month := daysInMonth_pos ht.month_pos ht.month
    have hday : 1 ≤ t.mday - 1 := by omega
    have hlater : t.unixtime ≠ 0 := by
      rw [XTTime.unixtime, XTTime.dayNumber, XTTime.dayOfYear]
      omega
    cases hmake : xtMakeTime t' with
    | ok u => exact absurd hmake (herror u)
    | error r =>
      dsimp only
      refine iff_of_false hlater.symm ?_
      rintro ⟨hy, -⟩
      rw [show t'.year = t.year from hy] at hlate
      exact absurd ht.mday (not_le.mpr hlate)

/-- **The clock of the kernel** is set to a time that the chip has shown during the call, if it is one that
    the kernel gets right, and to another one if not. -/
theorem xtCMOSInit_sets (h : Slow chip polls) {fuel : ℕ} (hfuel : 3 ≤ fuel) (timer : Timer) (ticks : ℕ)
    {registerB : UInt8} (hB : ∀ n, (chip n).register 0x0b = registerB) {time : ℕ → XTTime}
    (hshow : ∀ k, (chip k).updating = none →
      (time k).Valid ∧ (chip k).reading = shown registerB (time k)) :
    ∃ k unixtime, k < 4 * (polls + 6) ∧ (chip k).updating = none ∧
      xtCMOSInit chip polls fuel timer ticks = some (.success, xtSetTime timer unixtime 0 ticks) ∧
      (unixtime = (time k).unixtime ↔ ReadRight registerB (time k)) := by
  obtain ⟨r, n, k, hread, hk, hidle, hr⟩ := readClock_snapshot h hfuel
  obtain ⟨hvalid, hreg⟩ := hshow k hidle
  refine ⟨k, _, hk, hidle, ?_, madeTime_eq_iff registerB hvalid⟩
  rw [xtCMOSInit, hread, Option.map_some]
  dsimp only
  rw [getRTCRegister, hB n, hr, hreg]

/-- One second before noon, and noon. -/
def beforeNoon : XTTime := ⟨59, 59, 11, 1, 0, 5, 0, 2026⟩
def noon : XTTime := ⟨0, 0, 12, 1, 0, 5, 0, 2026⟩

/-- The registers of a chip with 24 hours and decimal digits. -/
def cellsFor (time : XTTime) (reg : ℕ) : UInt8 :=
  let r := shown 0x02 time
  if reg = 0x00 then r.second else if reg = 0x02 then r.minute else if reg = 0x04 then r.hour
  else if reg = 0x07 then r.day else if reg = 0x08 then r.month else if reg = 0x09 then r.year
  else if reg = 0x0b then 0x02 else 0

/-- At access 3 it has changed the hour, and not yet the minute and the second. -/
def noonChip (n : ℕ) : Chip :=
  if n < 3 then ⟨cellsFor beforeNoon, none, 0⟩
  else if n = 3 then
    ⟨Function.update (cellsFor beforeNoon) 0x04 (cellsFor noon 0x04), some (cellsFor noon), 1⟩
  else ⟨cellsFor noon, none, 1⟩

def noonTime (n : ℕ) : XTTime := if n < 3 then beforeNoon else noon

theorem noonChip_of_lt (h : n < 3) : noonChip n = ⟨cellsFor beforeNoon, none, 0⟩ := if_pos h

theorem noonChip_three : noonChip 3 =
    ⟨Function.update (cellsFor beforeNoon) 0x04 (cellsFor noon 0x04), some (cellsFor noon), 1⟩ := rfl

theorem noonChip_of_gt (h : 3 < n) : noonChip n = ⟨cellsFor noon, none, 1⟩ := by
  rw [noonChip, if_neg (by omega), if_neg (by omega)]

/-- The registers that the update changes. -/
theorem cellsFor_noon : cellsFor noon = Function.update (Function.update (Function.update
    (cellsFor beforeNoon) 0x04 (cellsFor noon 0x04)) 0x00 (cellsFor noon 0x00)) 0x02
      (cellsFor noon 0x02) := by
  funext reg
  by_cases h2 : reg = 0x02
  · rw [h2, Function.update_self]
  rw [Function.update_of_ne h2]
  by_cases h0 : reg = 0x00
  · rw [h0, Function.update_self]
  rw [Function.update_of_ne h0]
  by_cases h4 : reg = 0x04
  · rw [h4, Function.update_self]
  rw [Function.update_of_ne h4]
  simp only [cellsFor, h0, h2, h4, if_false]
  rfl

theorem noonChip_slow : Slow noonChip 2 where
  steps n := by
    obtain hlt | rfl | rfl | hgt : n < 2 ∨ n = 2 ∨ n = 3 ∨ 3 < n := by omega
    · rw [noonChip_of_lt (by omega), noonChip_of_lt (by omega)]
    · rw [noonChip_of_lt (by decide), noonChip_three]
      refine .tail (.single (.begin (cellsFor noon) rfl fun reg hreg => ?_)) (.write 0x04 rfl)
      rw [cellsFor_noon, Function.update_of_ne (show reg ≠ 0x02 from hreg 1),
        Function.update_of_ne (show reg ≠ 0x00 from hreg 0),
        Function.update_of_ne (show reg ≠ 0x04 from hreg 2)]
    · rw [noonChip_three, noonChip_of_gt (by decide)]
      refine .tail (.tail (.single (.write 0x00 rfl)) (.write 0x02 rfl)) ?_
      dsimp only
      rw [← cellsFor_noon]
      exact .finish rfl
    · rw [noonChip_of_gt hgt, noonChip_of_gt (by omega)]
  ends n := by
    obtain hlt | rfl | hgt := lt_trichotomy n 3
    · exact ⟨n, le_rfl, by omega, by rw [noonChip_of_lt hlt]⟩
    · exact ⟨4, by decide, by decide, by rw [noonChip_of_gt (by decide)]⟩
    · exact ⟨n, le_rfl, by omega, by rw [noonChip_of_gt hgt]⟩
  rare n := by
    have hone : ∀ m, (noonChip m).updates ≤ 1 := by
      intro m
      rw [noonChip]
      split_ifs
      · exact Nat.zero_le _
      · exact le_rfl
      · exact le_rfl
    exact (hone _).trans (Nat.le_add_left _ _)

theorem noonChip_format (n : ℕ) : (noonChip n).register 0x0b = 0x02 := by
  obtain hlt | rfl | hgt := lt_trichotomy n 3
  · rw [noonChip_of_lt hlt]
    rfl
  · rfl
  · rw [noonChip_of_gt hgt]
    rfl

theorem noonChip_shows (n : ℕ) (h : (noonChip n).updating = none) :
    (noonTime n).Valid ∧ (noonChip n).reading = shown 0x02 (noonTime n) := by
  obtain hlt | rfl | hgt := lt_trichotomy n 3
  · rw [noonChip_of_lt hlt, noonTime, if_pos hlt]
    exact ⟨⟨by decide, by decide, by decide, by decide, by decide, by decide, by decide, by decide⟩, rfl⟩
  · cases h
  · rw [noonChip_of_gt hgt, noonTime, if_neg (by omega)]
    exact ⟨⟨by decide, by decide, by decide, by decide, by decide, by decide, by decide, by decide⟩, rfl⟩

/-- The first pass reads 12:59:59, and the clock is set to noon or to the second before. -/
theorem noonChip_sets : readRegisters noonChip 1 = shown 0x02 ⟨59, 59, 12, 1, 0, 5, 0, 2026⟩ ∧
    ∃ unixtime, xtCMOSInit noonChip 2 3 timer100MHz 0 =
      some (.success, xtSetTime timer100MHz unixtime 0 0) ∧
    (unixtime = beforeNoon.unixtime ∨ unixtime = noon.unixtime) := by
  refine ⟨by decide, ?_⟩
  obtain ⟨k, unixtime, -, -, hcall, hright⟩ :=
    xtCMOSInit_sets noonChip_slow le_rfl timer100MHz 0 noonChip_format noonChip_shows
  refine ⟨unixtime, hcall, ?_⟩
  rw [noonTime] at hright
  split_ifs at hright
  · exact .inl (hright.mpr ⟨by decide, by decide, fun h => absurd h (by decide)⟩)
  · exact .inr (hright.mpr ⟨by decide, by decide, fun h => absurd h (by decide)⟩)

end XTOS.Cmos

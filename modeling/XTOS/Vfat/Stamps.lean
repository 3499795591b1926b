import XTOS.Lib.Bits
import XTOS.Time
import XTOS.Vfat.Directory

/-!
# The times of an entry

`_create_time`, `_create_date`, the `get_` macros, `vfatFileInfoToSFN` and `vfatSFNtoFileInfo` of
`drivers/vfat/main.c`: Unix times packed into the two 16-bit words of a stamp, and unpacked again.

## Main definitions

- `XTFileInfo` — the information of a file with its Unix times
- `stampTime` — the calendar time in a stamp
- `vfatFileInfoToSFN`, `vfatSFNtoFileInfo` — the times of an entry written and read

## Main results

- `xtMakeTime_stamp` — a stamp keeps a time up to an even second
- `times_round_trip` — the times of an entry that was written are read back
-/

namespace XTOS.Vfat.Stamps

open SysLib

/-! ### Words of a stamp -/

/-- `_create_time`. -/
def createTime (hours minute second : ℕ) : ℕ := hours <<< 11 ||| minute <<< 5 ||| second >>> 1

/-- `_create_date`. -/
def createDate (year month day : ℕ) : ℕ := (year <<< 9 ||| month <<< 5 ||| day) % 2 ^ 32

/-- `get_year`. -/
def getYear (date : ℕ) : ℕ := date >>> 9

/-- `get_month`. -/
def getMonth (date : ℕ) : ℕ := date >>> 5 &&& 0xf

/-- `get_mday`. -/
def getMday (date : ℕ) : ℕ := date &&& 0x1f

/-- `get_seconds`. -/
def getSeconds (time : ℕ) : ℕ := (time &&& 0x1f) <<< 1

/-- `get_minutes`. -/
def getMinutes (time : ℕ) : ℕ := time >>> 5 &&& 0x3f

/-- `get_hours`. -/
def getHours (time : ℕ) : ℕ := time >>> 11

/-- The calendar time in the two words of a stamp. -/
def stampTime (time date : ℕ) : XTTime :=
  { seconds := getSeconds time
    minutes := getMinutes time
    hour := getHours time
    mday := getMday date
    wday := 0
    month := getMonth date
    yday := 0
    year := getYear date + 1980 }

/-- The time word of a Unix time. -/
def timeWord (t : ℕ) : ℕ :=
  let tm := xtGetTimeFromUnix t
  createTime tm.hour tm.minutes tm.seconds

/-- The date word of a Unix time. -/
def dateWord (t : ℕ) : ℕ :=
  let tm := xtGetTimeFromUnix t
  createDate ((tm.year + (2 ^ 32 - 1980)) % 2 ^ 32) tm.month tm.mday

/-! ### Entries -/

/-- `XTFileInfo` with its Unix times. -/
structure XTFileInfo where
  name : List UInt8
  fileSize : ℕ
  flags : ℕ
  createdTime : ℕ
  lastWriteTime : ℕ

/-- The information with the words that are stored for its times. -/
def XTFileInfo.words (info : XTFileInfo) : Vfat.XTFileInfo :=
  { name := info.name
    fileSize := info.fileSize
    flags := info.flags
    createTime := timeWord info.createdTime
    createDate := dateWord info.createdTime
    writeTime := timeWord info.lastWriteTime
    writeDate := dateWord info.lastWriteTime }

/-- `vfatFileInfoToSFN`. -/
def vfatFileInfoToSFN (sfn : Slot) (info : XTFileInfo) : Slot := Vfat.vfatFileInfoToSFN sfn info.words

/-- `vfatSFNtoFileInfo`. The result of `xtMakeTime` is not checked: for a stamp that is no
    calendar time, the caller's value stays. -/
def vfatSFNtoFileInfo (sfn : Slot) (info : XTFileInfo) : XTFileInfo :=
  let created := xtMakeTime (stampTime (loadLE sfn 14 2) (loadLE sfn 16 2))
  let written := xtMakeTime (stampTime (loadLE sfn 22 2) (loadLE sfn 24 2))
  { info with
    flags := (sfnFileInfo info.name sfn info.flags).flags
    createdTime := created.toOption.getD info.createdTime
    lastWriteTime := written.toOption.getD info.lastWriteTime }

/-! ### Packing and unpacking -/

theorem createTime_eq {hours minute second : ℕ} (hminute : minute < 64) (hsecond : second < 64) :
    createTime hours minute second = hours * 2048 + minute * 32 + second / 2 := by
  have hupper : hours * 2 ^ 11 ||| minute * 2 ^ 5 = hours * 2 ^ 11 + minute * 2 ^ 5 :=
    or_eq_add (k := 11) (by omega) (by omega)
  rw [createTime, Nat.shiftLeft_eq, Nat.shiftLeft_eq, Nat.shiftRight_eq_div_pow, hupper,
    or_eq_add (k := 5) (by omega) (by omega), pow_one]
  rfl

theorem createDate_eq {year month day : ℕ} (hyear : year < 128) (hmonth : month < 16)
    (hday : day < 32) : createDate year month day = year * 512 + month * 32 + day := by
  have hupper : year * 2 ^ 9 ||| month * 2 ^ 5 = year * 2 ^ 9 + month * 2 ^ 5 :=
    or_eq_add (k := 9) (by omega) (by omega)
  rw [createDate, Nat.shiftLeft_eq, Nat.shiftLeft_eq, hupper,
    or_eq_add (k := 5) (by omega) (by omega)]
  omega

/-- The fields of a stamp, as digits of its words. -/
theorem stampTime_eq (time date : ℕ) :
    stampTime time date =
      { seconds := time % 32 * 2
        minutes := time / 32 % 64
        hour := time / 2048
        mday := date % 32
        wday := 0
        month := date / 32 % 16
        yday := 0
        year := date / 512 + 1980 } := by
  have hmask5 := Nat.and_two_pow_sub_one_eq_mod
  rw [stampTime, getSeconds, getMinutes, getHours, getMday, getMonth, getYear, Nat.shiftLeft_eq]
  simp only [Nat.shiftRight_eq_div_pow]
  rw [show 0x1f = 2 ^ 5 - 1 from rfl, show 0xf = 2 ^ 4 - 1 from rfl,
    show 0x3f = 2 ^ 6 - 1 from rfl, hmask5, hmask5, hmask5, hmask5]

/-! ### The years of a stamp -/

/-- The times that a stamp can hold. -/
def Stampable (t : ℕ) : Prop := 315532800 ≤ t ∧ t ≤ 4354819199

/-- They begin with 1 January 1980. -/
theorem stampable_first : xtMakeTime ⟨0, 0, 0, 1, 0, 1, 0, 1980⟩ = .ok 315532800 := by
  decide +kernel

/-- The last second of 2107. -/
def lastSecond : XTTime := ⟨59, 59, 23, 31, 0, 12, 0, 2107⟩

theorem lastSecond_valid : lastSecond.Valid := by
  constructor <;> decide

theorem lastSecond_dayNumber : lastSecond.dayNumber = 50402 := by
  decide +kernel

/-- They end with 31 December 2107. -/
theorem stampable_last : xtMakeTime lastSecond = .ok 4354819199 := by
  rw [xtMakeTime_ok_iff (by decide), XTTime.unixtime, lastSecond_dayNumber]
  exact ⟨lastSecond_valid, rfl⟩

/-- The years that the seven bits of a stamp count. -/
theorem Stampable.year {time : XTTime} (h : time.Valid) (ht : Stampable time.unixtime) :
    1980 ≤ time.year ∧ time.year ≤ 2107 := by
  obtain ⟨hfirst, hlast⟩ := ht
  have hsecond := h.secondOfDay_lt
  rw [XTTime.unixtime] at hfirst hlast
  constructor
  · by_contra hbefore
    have hlt := h.dayNumber_lt_of_year (b := yearStart 1980) (Nat.not_le.mp hbefore)
    have hstart : (yearStart 1980).dayNumber = 3652 := by decide +kernel
    omega
  · by_contra hbehind
    have hlt := lastSecond_valid.dayNumber_lt_of_year (Nat.not_le.mp hbehind)
    rw [lastSecond_dayNumber] at hlt
    omega

/-! ### Round trips -/

/-- The words of a time that a stamp can hold: both fit into 16 bits, and the time they give back
    is the same up to an even second. -/
theorem words_stampable {t : ℕ} (ht : Stampable t) :
    timeWord t < 256 ^ 2 ∧ dateWord t < 256 ^ 2 ∧
      xtMakeTime (stampTime (timeWord t) (dateWord t)) = .ok (t - t % 2) := by
  obtain ⟨time, h, rfl⟩ := exists_unixtime t
  obtain ⟨hyear, hyear'⟩ := ht.year h
  have hdays : 1970 + time.dayNumber / 365 < 2 ^ 32 := by
    have hlt := h.dayNumber_lt
    omega
  have hs := h.seconds
  have hm := h.minutes
  have hh := h.hour
  have hmonth := h.month
  have hmday := h.mday.trans (daysInMonth_le _ _)
  have htm := xtGetTimeFromUnix_unixtime h hdays
  have htime : timeWord time.unixtime = time.hour * 2048 + time.minutes * 32 + time.seconds / 2 := by
    rw [timeWord, htm]
    exact createTime_eq (show time.minutes < 64 by omega) (show time.seconds < 64 by omega)
  have hdate : dateWord time.unixtime =
      (time.year - 1980) * 512 + time.month * 32 + time.mday := by
    have hoff : (time.year + (2 ^ 32 - 1980)) % 2 ^ 32 = time.year - 1980 := by omega
    rw [dateWord, htm]
    dsimp only
    rw [hoff]
    exact createDate_eq (by omega) (show time.month < 16 by omega) (show time.mday < 32 by omega)
  refine ⟨by omega, by omega, ?_⟩
  have hstamp : stampTime (timeWord time.unixtime) (dateWord time.unixtime) =
      { time with seconds := time.seconds / 2 * 2, wday := 0, yday := 0 } := by
    rw [stampTime_eq, htime, hdate, XTTime.mk.injEq]
    omega
  rw [hstamp, xtMakeTime_ok_iff (by dsimp only; omega)]
  refine ⟨{ h with seconds := by dsimp only; omega }, ?_⟩
  -- minutes, hours and days are even numbers of seconds
  have heven : time.unixtime % 2 = time.seconds % 2 := by
    rw [XTTime.unixtime, XTTime.secondOfDay]
    omega
  change _ = time.dayNumber * 86400 + (time.hour * 3600 + time.minutes * 60 + time.seconds / 2 * 2)
  rw [heven, XTTime.unixtime, XTTime.secondOfDay]
  omega

/-- The attributes that a directory gets lie outside of the stamps. -/
theorem loadLE_vfatFileInfoToSFN (sfn : Slot) (info : Vfat.XTFileInfo) :
    loadLE (Vfat.vfatFileInfoToSFN sfn info) 14 2 = info.createTime % 256 ^ 2 ∧
      loadLE (Vfat.vfatFileInfoToSFN sfn info) 16 2 = info.createDate % 256 ^ 2 ∧
      loadLE (Vfat.vfatFileInfoToSFN sfn info) 22 2 = info.writeTime % 256 ^ 2 ∧
      loadLE (Vfat.vfatFileInfoToSFN sfn info) 24 2 = info.writeDate % 256 ^ 2 := by
  set sfn' := storeLE (storeLE (storeLE (storeLE sfn 14 2 info.createTime) 16 2 info.createDate) 22 2
    info.writeTime) 24 2 info.writeDate
  have hsame : ∀ a, 12 ≤ a → loadLE (Vfat.vfatFileInfoToSFN sfn info) a 2 = loadLE sfn' a 2 := by
    intro a ha
    rw [Vfat.vfatFileInfoToSFN]
    split_ifs with hdir
    · exact loadLE_congr fun i hi _ => Function.update_of_ne (by omega) _ _
    · rfl
  rw [hsame 14 (by decide), hsame 16 (by decide), hsame 22 (by decide), hsame 24 (by decide)]
  refine ⟨?_, ?_, ?_, loadLE_storeLE_mod _ _ _ _⟩
  · rw [loadLE_storeLE_disjoint _ (.inl (by decide)), loadLE_storeLE_disjoint _ (.inl (by decide)),
      loadLE_storeLE_disjoint _ (.inl (by decide)), loadLE_storeLE_mod]
  · rw [loadLE_storeLE_disjoint _ (.inl (by decide)), loadLE_storeLE_disjoint _ (.inl (by decide)),
      loadLE_storeLE_mod]
  · rw [loadLE_storeLE_disjoint _ (.inl (by decide)), loadLE_storeLE_mod]

/-- **The times of an entry** that `vfatFileInfoToSFN` wrote are read back by `vfatSFNtoFileInfo`,
    up to an even second, whatever the entry and the caller's information held before. -/
theorem times_round_trip (sfn : Slot) (info old : XTFileInfo) (hcreated : Stampable info.createdTime)
    (hwritten : Stampable info.lastWriteTime) :
    (vfatSFNtoFileInfo (vfatFileInfoToSFN sfn info) old).createdTime =
        info.createdTime - info.createdTime % 2 ∧
      (vfatSFNtoFileInfo (vfatFileInfoToSFN sfn info) old).lastWriteTime =
        info.lastWriteTime - info.lastWriteTime % 2 := by
  obtain ⟨h14, h16, h22, h24⟩ := loadLE_vfatFileInfoToSFN sfn info.words
  obtain ⟨hctime, hcdate, hcreate⟩ := words_stampable hcreated
  obtain ⟨hwtime, hwdate, hwrite⟩ := words_stampable hwritten
  change loadLE (vfatFileInfoToSFN sfn info) 14 2 = timeWord info.createdTime % 256 ^ 2 at h14
  change loadLE (vfatFileInfoToSFN sfn info) 16 2 = dateWord info.createdTime % 256 ^ 2 at h16
  change loadLE (vfatFileInfoToSFN sfn info) 22 2 = timeWord info.lastWriteTime % 256 ^ 2 at h22
  change loadLE (vfatFileInfoToSFN sfn info) 24 2 = dateWord info.lastWriteTime % 256 ^ 2 at h24
  rw [Nat.mod_eq_of_lt hctime] at h14
  rw [Nat.mod_eq_of_lt hcdate] at h16
  rw [Nat.mod_eq_of_lt hwtime] at h22
  rw [Nat.mod_eq_of_lt hwdate] at h24
  rw [vfatSFNtoFileInfo]
  dsimp only
  rw [h14, h16, h22, h24, hcreate, hwrite]
  exact ⟨rfl, rfl⟩

/-- A leap day and the last second that a stamp can hold. -/
theorem times_round_trip_leap :
    let info : XTFileInfo := ⟨[0x41], 0, 0, 951868799, 4354819199⟩
    let read := vfatSFNtoFileInfo (vfatFileInfoToSFN (fun _ => 0) info) info
    read.createdTime = 951868798 ∧ read.lastWriteTime = 4354819198 :=
  times_round_trip (fun _ => 0) ⟨[0x41], 0, 0, 951868799, 4354819199⟩
    ⟨[0x41], 0, 0, 951868799, 4354819199⟩ ⟨by decide, by decide⟩ ⟨by decide, by decide⟩

end XTOS.Vfat.Stamps

import XTOS.Result

/-!
# Time from the HPET counter

`xtSetTime` and `xtGetTime` of `xtkernel/hpet.c`: the running difference of the
free-running tick counter, converted to nanoseconds in 64-bit arithmetic.

## Main definitions

- `Timer` — the period that `xtHPETInit` accepts; its range is a field
- `Clock` — the three words the time functions keep between calls
- `xtSetTime`, `xtGetTime` — with the counter value they read as an argument
- `Keeps` — times never go back, follow the counter to a nanosecond, and are normal
- `Steady` — the readings at which no wrap-around of the product shows

## Design notes

A reading `t` is split as `t * periodFs = wraps * 2 ^ 64 + rest`. The driver only
sees `rest`, so the time it returns misses the wraps; `stamp_xtGetTime` is the
whole account of one call, and the theorems follow from it.
-/

namespace XTOS.Hpet

/-- The timer after initialisation. -/
structure Timer where
  periodFs : ℕ
  periodFs_pos : 0 < periodFs
  periodFs_lt : periodFs < 2 ^ 32

/-- `GAS_SPACE_SYSTEM_MEMORY`. -/
def gasSpaceSystemMemory : ℕ := 0

/-- Initialise the timer from its ACPI table and its registers. The second result is
    the configuration register. -/
def xtHPETInit (found : XTResult) (addressSpace address : ℕ) (caps : UInt64) (cfg : UInt32) :
    Except XTResult Timer × UInt32 :=
  if found.isError then (.error found, cfg) else
  if addressSpace ≠ gasSpaceSystemMemory ∨ address = 0 then
    (.error .invalidInitialization, cfg) else
  if caps = 0xFFFFFFFFFFFFFFFF then (.error .accessViolation, cfg) else
  let cfg := if cfg &&& 1 = 0 then cfg ||| 1 else cfg
  if h : caps.toNat / 2 ^ 32 = 0 then (.error .invalidInitialization, cfg) else
  (.ok ⟨caps.toNat / 2 ^ 32, Nat.pos_of_ne_zero h,
    Nat.div_lt_of_lt_mul (lt_of_lt_of_eq caps.toNat_lt (by norm_num))⟩, cfg)

/-- The static words of the driver. -/
structure Clock where
  seconds : ℕ
  nanoseconds : ℕ
  lastHpetNs : ℕ
  deriving DecidableEq, Repr

/-- `(ticks * hpet_period_fs) / 1000000` in 64-bit arithmetic. -/
def hpetNs (h : Timer) (ticks : ℕ) : ℕ := ticks * h.periodFs % 2 ^ 64 / 1000000

def xtSetTime (h : Timer) (unixtime nanoseconds ticks : ℕ) : Clock :=
  ⟨unixtime, nanoseconds, hpetNs h ticks⟩

/-- The clock after the call; its first two words are the time returned. -/
def xtGetTime (h : Timer) (c : Clock) (ticks : ℕ) : Clock :=
  let nowNs := hpetNs h ticks
  let deltaNs := (nowNs + 2 ^ 64 - c.lastHpetNs) % 2 ^ 64
  let nanoseconds := (c.nanoseconds + deltaNs) % 2 ^ 64
  if nanoseconds ≥ 1000000000 then
    ⟨(c.seconds + nanoseconds / 1000000000) % 2 ^ 64, nanoseconds % 1000000000, nowNs⟩
  else ⟨c.seconds, nanoseconds, nowNs⟩

/-- The clocks after a sequence of calls, each at its counter value. -/
def readings (h : Timer) : Clock → List ℕ → List Clock
  | _, [] => []
  | c, t :: ts => xtGetTime h c t :: readings h (xtGetTime h c t) ts

/-- A time as nanoseconds. -/
def Clock.stamp (c : Clock) : ℕ := c.seconds * 1000000000 + c.nanoseconds

/-- The time `c` returned at `t` is the time `set` at `t0` plus the elapsed ticks times
    the period, to within one nanosecond. Both sides are in femtoseconds. -/
def Within (h : Timer) (set t0 t : ℕ) (c : Clock) : Prop :=
  |((c.stamp * 1000000 : ℕ) : ℤ) - ((set * 1000000 + (t - t0) * h.periodFs : ℕ) : ℤ)| ≤ 1000000

/-- What a time source promises about the calls after `xtSetTime`. -/
structure Keeps (h : Timer) (unixtime nanoseconds t0 : ℕ) (ts : List ℕ) : Prop where
  monotone : ((readings h (xtSetTime h unixtime nanoseconds t0) ts).map Clock.stamp).Pairwise
    (· ≤ ·)
  within : List.Forall₂ (Within h (xtSetTime h unixtime nanoseconds t0).stamp t0) ts
    (readings h (xtSetTime h unixtime nanoseconds t0) ts)
  normal : ∀ c ∈ readings h (xtSetTime h unixtime nanoseconds t0) ts, c.nanoseconds < 1000000000

/-- How often the product of a reading has passed `2 ^ 64`. -/
def wraps (h : Timer) (t : ℕ) : ℕ := t * h.periodFs / 2 ^ 64

/-- The converted counter has gone back by more than the nanoseconds of the clock, so
    the 64-bit difference stays `2 ^ 64` too large. -/
def borrows (h : Timer) (c : Clock) (t : ℕ) : Prop := c.nanoseconds + hpetNs h t < c.lastHpetNs

instance (h : Timer) (c : Clock) (t : ℕ) : Decidable (borrows h c t) :=
  inferInstanceAs (Decidable (_ < _))

/-- The nanosecond word of a call at `t` before it is normalised. -/
def rawNs (h : Timer) (c : Clock) (t : ℕ) : ℕ :=
  if borrows h c t then c.nanoseconds + hpetNs h t + 2 ^ 64 - c.lastHpetNs
  else c.nanoseconds + hpetNs h t - c.lastHpetNs

/-- The call at `t` after a reading at `last` loses nothing: the product has not wrapped
    since, or the wraps are made up for exactly by a borrow, and the seconds fit. -/
def ReadOk (h : Timer) (c : Clock) (last t : ℕ) : Prop :=
  wraps h t = wraps h last + (if borrows h c t then 1000000 else 0) ∧
    c.seconds + rawNs h c t / 1000000000 < 2 ^ 64

/-- Every call of the sequence finds its clock and counter in such a state. -/
def Steady (h : Timer) : Clock → ℕ → List ℕ → Prop
  | _, _, [] => True
  | c, last, t :: ts => ReadOk h c last t ∧ Steady h (xtGetTime h c t) t ts

/-- What the driver keeps true of its words after a reading at `last`. -/
structure Clock.Good (h : Timer) (c : Clock) (last : ℕ) : Prop where
  seconds_lt : c.seconds < 2 ^ 64
  nanoseconds_lt : c.nanoseconds < 1000000000
  lastHpetNs_eq : c.lastHpetNs = hpetNs h last

theorem rawNs_of_borrows {h : Timer} {c : Clock} {t : ℕ} (hb : borrows h c t) :
    rawNs h c t = c.nanoseconds + hpetNs h t + 2 ^ 64 - c.lastHpetNs :=
  if_pos hb

theorem rawNs_of_not_borrows {h : Timer} {c : Clock} {t : ℕ} (hb : ¬ borrows h c t) :
    rawNs h c t = c.nanoseconds + hpetNs h t - c.lastHpetNs :=
  if_neg hb

theorem hpetNs_le (h : Timer) (t : ℕ) : hpetNs h t ≤ 2 ^ 64 / 1000000 := by
  unfold hpetNs
  omega

theorem rawNs_eq (h : Timer) {c : Clock} {last : ℕ} (hc : c.Good h last) (t : ℕ) :
    (c.nanoseconds + (hpetNs h t + 2 ^ 64 - c.lastHpetNs) % 2 ^ 64) % 2 ^ 64 = rawNs h c t := by
  have hnow := hpetNs_le h t
  have hlast := hpetNs_le h last
  rw [← hc.lastHpetNs_eq] at hlast
  have hns := hc.nanoseconds_lt
  by_cases hb : borrows h c t
  · rw [rawNs_of_borrows hb]
    unfold borrows at hb
    omega
  · rw [rawNs_of_not_borrows hb]
    unfold borrows at hb
    omega

theorem xtGetTime_eq (h : Timer) {c : Clock} {last : ℕ} (hc : c.Good h last) (t : ℕ) :
    xtGetTime h c t = ⟨(c.seconds + rawNs h c t / 1000000000) % 2 ^ 64,
      rawNs h c t % 1000000000, hpetNs h t⟩ := by
  have hs := hc.seconds_lt
  simp only [xtGetTime, rawNs_eq h hc]
  split_ifs with hge
  · rfl
  · congr 1 <;> omega

theorem xtGetTime_good (h : Timer) {c : Clock} {last : ℕ} (hc : c.Good h last) (t : ℕ) :
    (xtGetTime h c t).Good h t := by
  rw [xtGetTime_eq h hc]
  exact ⟨Nat.mod_lt _ (by norm_num), Nat.mod_lt _ (by norm_num), rfl⟩

/-- **One call**: the time moves by the difference of the converted counters, plus
    `2 ^ 64` nanoseconds for a borrow, less `2 ^ 64` seconds when the seconds overflow. -/
theorem stamp_xtGetTime (h : Timer) {c : Clock} {last : ℕ} (hc : c.Good h last) (t : ℕ) :
    ((xtGetTime h c t).stamp : ℤ) = c.stamp + hpetNs h t - hpetNs h last
      + 2 ^ 64 * (if borrows h c t then 1 else 0)
      - 2 ^ 64 * 1000000000 *
        (if c.seconds + rawNs h c t / 1000000000 < 2 ^ 64 then 0 else 1) := by
  have hnow := hpetNs_le h t
  have hlast := hpetNs_le h last
  have hs := hc.seconds_lt
  have hns := hc.nanoseconds_lt
  rw [xtGetTime_eq h hc, ← hc.lastHpetNs_eq]
  rw [← hc.lastHpetNs_eq] at hlast
  dsimp only [Clock.stamp]
  by_cases hb : borrows h c t
  · have hraw := rawNs_of_borrows hb
    rw [if_pos hb]
    unfold borrows at hb
    split_ifs <;> omega
  · have hraw := rawNs_of_not_borrows hb
    rw [if_neg hb]
    unfold borrows at hb
    split_ifs <;> omega

/-- The clock at `last` accounts for every tick since `t0`; `n` counts the borrows. -/
def Synced (h : Timer) (set t0 : ℕ) (c : Clock) (last : ℕ) : Prop :=
  ∃ n : ℕ, wraps h last = wraps h t0 + 1000000 * n ∧
    (c.stamp : ℤ) = set + hpetNs h last - hpetNs h t0 + 2 ^ 64 * n

theorem Synced.within {h : Timer} {set t0 t : ℕ} {c : Clock} (hs : Synced h set t0 c t)
    (h0 : t0 ≤ t) : Within h set t0 t c := by
  obtain ⟨n, hw, hstamp⟩ := hs
  have hprod := Nat.mul_le_mul_right h.periodFs h0
  unfold Within
  rw [abs_le, Nat.sub_mul]
  unfold wraps at hw
  unfold hpetNs at hstamp
  constructor <;> omega

theorem Synced.next {h : Timer} {set t0 last t : ℕ} {c : Clock} (hc : c.Good h last)
    (hs : Synced h set t0 c last) (hok : ReadOk h c last t) :
    Synced h set t0 (xtGetTime h c t) t := by
  obtain ⟨n, hw, hstamp⟩ := hs
  obtain ⟨hwt, hfit⟩ := hok
  have hstep := stamp_xtGetTime h hc t
  rw [if_pos hfit] at hstep
  by_cases hb : borrows h c t
  · rw [if_pos hb] at hwt hstep
    have hwraps : wraps h t = wraps h t0 + 1000000 * (n + 1) := by
      rw [hwt, hw]
      ring
    refine ⟨n + 1, hwraps, ?_⟩
    rw [hstep, hstamp]
    push_cast
    ring
  · rw [if_neg hb] at hwt hstep
    exact ⟨n, by omega, by omega⟩

/-- From a clock that accounts for every tick, the next time is right to a nanosecond
    exactly when the call loses nothing. The wraps and the overflow shift the time by
    multiples of `2 ^ 64` femtoseconds, which no rounding hides. -/
theorem within_iff_readOk {h : Timer} {set t0 last t : ℕ} {c : Clock} (hc : c.Good h last)
    (hs : Synced h set t0 c last) (h0 : t0 ≤ last) (hle : last ≤ t) :
    Within h set t0 t (xtGetTime h c t) ↔ ReadOk h c last t := by
  refine ⟨fun hwithin => ?_, fun hok => (hs.next hc hok).within (h0.trans hle)⟩
  obtain ⟨n, hw, hstamp⟩ := hs
  have hprod0 := Nat.mul_le_mul_right h.periodFs h0
  have hprod := Nat.mul_le_mul_right h.periodFs hle
  have hstep := stamp_xtGetTime h hc t
  unfold Within at hwithin
  rw [abs_le, Nat.sub_mul] at hwithin
  unfold ReadOk
  unfold wraps at hw ⊢
  unfold hpetNs at hstamp hstep
  split_ifs at hstep ⊢ with hb hfit hfit <;> refine ⟨?_, ?_⟩ <;> omega

/-- The time never goes back over a call that loses nothing. -/
theorem stamp_le_of_readOk {h : Timer} {last t : ℕ} {c : Clock} (hc : c.Good h last)
    (hle : last ≤ t) (hok : ReadOk h c last t) : c.stamp ≤ (xtGetTime h c t).stamp := by
  have hprod := Nat.mul_le_mul_right h.periodFs hle
  have hstep := stamp_xtGetTime h hc t
  have hnow := hpetNs_le h t
  have hlast := hpetNs_le h last
  obtain ⟨hwt, hfit⟩ := hok
  rw [if_pos hfit] at hstep
  by_cases hb : borrows h c t
  · rw [if_pos hb] at hstep
    omega
  · rw [if_neg hb] at hwt hstep
    unfold wraps at hwt
    unfold hpetNs at hstep
    omega

theorem readings_normal (h : Timer) (ts : List ℕ) :
    ∀ {c : Clock} {last : ℕ}, c.Good h last →
      ∀ c' ∈ readings h c ts, c'.nanoseconds < 1000000000 := by
  induction ts with
  | nil => simp [readings]
  | cons t ts ih =>
    intro c last hc c' hmem
    have hgood := xtGetTime_good h hc t
    rcases List.mem_cons.mp hmem with rfl | hmem
    · exact hgood.nanoseconds_lt
    · exact ih hgood c' hmem

theorem Steady.pairwise {h : Timer} {ts : List ℕ} :
    ∀ {c : Clock} {last : ℕ}, c.Good h last → (last :: ts).Pairwise (· ≤ ·) →
      Steady h c last ts → ((c :: readings h c ts).map Clock.stamp).Pairwise (· ≤ ·) := by
  induction ts with
  | nil => simp [readings]
  | cons t ts ih =>
    intro c last hc hsorted ⟨hok, hrest⟩
    have hle : last ≤ t := List.rel_of_pairwise_cons hsorted List.mem_cons_self
    have htail := ih (xtGetTime_good h hc t) hsorted.of_cons hrest
    have hstep := stamp_le_of_readOk hc hle hok
    refine List.pairwise_cons.mpr ⟨fun s hmem => ?_, htail⟩
    rcases List.mem_cons.mp hmem with rfl | hmem
    · exact hstep
    · exact hstep.trans (List.rel_of_pairwise_cons htail hmem)

theorem forall_within_iff_steady {h : Timer} {set t0 : ℕ} {ts : List ℕ} :
    ∀ {c : Clock} {last : ℕ}, c.Good h last → Synced h set t0 c last → t0 ≤ last →
      (last :: ts).Pairwise (· ≤ ·) →
      (List.Forall₂ (Within h set t0) ts (readings h c ts) ↔ Steady h c last ts) := by
  induction ts with
  | nil => simp [readings, Steady]
  | cons t ts ih =>
    intro c last hc hs h0 hsorted
    have hle : last ≤ t := List.rel_of_pairwise_cons hsorted List.mem_cons_self
    rw [readings, List.forall₂_cons, within_iff_readOk hc hs h0 hle]
    refine and_congr_right fun hok => ?_
    exact ih (xtGetTime_good h hc t) (hs.next hc hok) (h0.trans hle) hsorted.of_cons

theorem xtSetTime_good (h : Timer) {unixtime nanoseconds : ℕ} (hu : unixtime < 2 ^ 64)
    (hn : nanoseconds < 1000000000) (t0 : ℕ) : (xtSetTime h unixtime nanoseconds t0).Good h t0 :=
  ⟨hu, hn, rfl⟩

theorem xtSetTime_synced (h : Timer) (unixtime nanoseconds t0 : ℕ) :
    Synced h (xtSetTime h unixtime nanoseconds t0).stamp t0
      (xtSetTime h unixtime nanoseconds t0) t0 :=
  ⟨0, by simp, by simp⟩

/-- **Time keeping**: after `xtSetTime`, the times returned at any non-decreasing
    sequence of counter values keep their promise if and only if no call of the sequence
    meets a wrap of the product or an overflow of the seconds. -/
theorem keeps_iff_steady (h : Timer) {unixtime nanoseconds t0 : ℕ} {ts : List ℕ}
    (hu : unixtime < 2 ^ 64) (hn : nanoseconds < 1000000000)
    (hsorted : (t0 :: ts).Pairwise (· ≤ ·)) : Keeps h unixtime nanoseconds t0 ts ↔
      Steady h (xtSetTime h unixtime nanoseconds t0) t0 ts := by
  have hgood := xtSetTime_good h hu hn t0
  have hsynced := xtSetTime_synced h unixtime nanoseconds t0
  have hiff := forall_within_iff_steady hgood hsynced le_rfl hsorted
  constructor
  · intro hkeeps
    exact hiff.mp hkeeps.within
  · intro hsteady
    exact ⟨(hsteady.pairwise hgood hsorted).of_cons, hiff.mpr hsteady,
      readings_normal h ts hgood⟩

/-- A 100 MHz timer, read after one and after two seconds. -/
def timer100MHz : Timer := ⟨10000000, by norm_num, by norm_num⟩

theorem keeps_two_seconds : Keeps timer100MHz 1700000000 5 0 [100000000, 200000000] :=
  (keeps_iff_steady timer100MHz (by norm_num) (by norm_num) (by decide)).mpr
    ⟨⟨by decide, by decide⟩, ⟨by decide, by decide⟩, trivial⟩

/-- The product wraps after five hours of a 100 MHz timer: the time falls back. -/
theorem not_keeps_after_wrap :
    ¬ ∀ (h : Timer) (unixtime nanoseconds t0 : ℕ) (ts : List ℕ), unixtime < 2 ^ 64 →
      nanoseconds < 1000000000 → (t0 :: ts).Pairwise (· ≤ ·) → (∀ t ∈ t0 :: ts, t < 2 ^ 64) →
      Keeps h unixtime nanoseconds t0 ts := by
  intro hall
  have hkeeps := hall timer100MHz 1700000000 0 0 [1000, 1844674408370]
    (by norm_num) (by norm_num) (by decide) (by decide)
  exact absurd hkeeps.monotone (by decide)

end XTOS.Hpet

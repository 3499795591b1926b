import XTOS.Process

/-!
# Sleeping and waking

What `xtSleepThread`, `xtWakeUpThread` and the timer of `xtkernel/scheduler.c` do to the record
of one thread. The waiting calls of the kernel are built from these.

## Main definitions

- `xtSleepThread`, `xtWakeUpThread`, `wakeUpPass` — the changes of a record
- `Threads` — the records by address
-/

namespace XTOS.Sleep

open XTOS.Process (XTThread xtThreadSleepState xtThreadRunState dec64)

/-- The locked part of `xtSleepThread`. -/
def xtSleepThread (th : XTThread) (milliseconds : ℕ) : XTThread :=
  { th with state := xtThreadSleepState, ticks := milliseconds }

/-- The locked part of `xtWakeUpThread`. -/
def xtWakeUpThread (th : XTThread) : XTThread :=
  { th with state := (th.state &&& 0x7f) ||| xtThreadRunState, ticks := th.privilage }

/-- One pass of the loop of `xtWakeUpThreads`. -/
def wakeUpPass (th : XTThread) : XTThread :=
  if th.state = xtThreadSleepState then
    let th : XTThread := { th with ticks := dec64 th.ticks }
    if th.ticks = 0 then xtWakeUpThread th else th
  else th

/-- The records by address. -/
abbrev Threads := ℕ → XTThread

/-- Change one record. -/
def Threads.modify (m : Threads) (t : ℕ) (f : XTThread → XTThread) : Threads :=
  Function.update m t (f (m t))

@[simp] theorem Threads.modify_self (m : Threads) (t : ℕ) (f : XTThread → XTThread) :
    m.modify t f t = f (m t) :=
  Function.update_self _ _ _

theorem Threads.modify_of_ne {t u : ℕ} (h : u ≠ t) (m : Threads) (f : XTThread → XTThread) :
    m.modify t f u = m u :=
  Function.update_of_ne h _ _

@[simp] theorem xtSleepThread_state (th : XTThread) (milliseconds : ℕ) :
    (xtSleepThread th milliseconds).state = xtThreadSleepState := rfl

/-- A thread that sleeps or runs does run after a wake-up. -/
theorem xtWakeUpThread_runs {th : XTThread}
    (h : th.state = xtThreadSleepState ∨ th.state = xtThreadRunState) :
    (xtWakeUpThread th).state = xtThreadRunState := by
  obtain h | h := h <;> (rw [xtWakeUpThread, h]; rfl)

/-- The timer leaves a thread as it is, or wakes it. -/
theorem wakeUpPass_state {th : XTThread}
    (h : th.state = xtThreadSleepState ∨ th.state = xtThreadRunState) :
    (wakeUpPass th).state = th.state ∨ (wakeUpPass th).state = xtThreadRunState := by
  rw [wakeUpPass]
  dsimp only
  split_ifs
  · exact .inr (xtWakeUpThread_runs h)
  · exact .inl rfl
  · exact .inl rfl

/-- The same change as the one of the kernel's `xtWakeUpThread`. -/
theorem kernel_xtWakeUpThread (k : Process.Kernel) (t : ℕ) :
    (Process.xtWakeUpThread k t).thread = Threads.modify k.thread t xtWakeUpThread := rfl

end XTOS.Sleep

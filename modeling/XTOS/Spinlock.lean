import Mathlib.Data.List.Nodup
import Mathlib.Data.List.Infix
import Mathlib.Logic.Function.Basic
import Mathlib.Tactic.Common

/-!
# Spinlocks

The spinlocks of `xtkernel/spinlock.c` on one processor, with its interrupt flag.

## Main definitions

- `Cpu` — the interrupt flag and the spinlocks by address
- `xtLockSpinlock`, `xtUnlockSpinlock` — the two calls
- `WellNested` — sequences that release the locks in the reverse order
- `signalCalls` — the calls of `xtSignalEvent`

## Main results

- `guarded_iff_unlocksAlone` — interrupts stay off in the critical sections of exactly those
  sequences in which no lock is released while another one is held
-/

namespace XTOS.Spinlock

/-- The processor: `isBusy` of every spinlock, the interrupt flag and
    `bKernelWasInitialised`. -/
structure Cpu where
  isBusy : ℕ → Bool
  interrupts : Bool
  bKernelWasInitialised : Bool

/-- `xtClearInterrupts`. -/
def xtClearInterrupts (c : Cpu) : Cpu := { c with interrupts := false }

/-- `xtSetInterrupts`. -/
def xtSetInterrupts (c : Cpu) : Cpu :=
  if c.bKernelWasInitialised then { c with interrupts := true } else c

/-- `acquire`; nobody releases a busy lock while the only processor spins for it. -/
def acquire (c : Cpu) (lock : ℕ) : Option Cpu :=
  if c.isBusy lock then none else some { c with isBusy := Function.update c.isBusy lock true }

/-- `release`. -/
def release (c : Cpu) (lock : ℕ) : Cpu :=
  { c with isBusy := Function.update c.isBusy lock false }

/-- `xtLockSpinlock`. -/
def xtLockSpinlock (c : Cpu) (lock : ℕ) : Option Cpu := acquire (xtClearInterrupts c) lock

/-- `xtUnlockSpinlock`. -/
def xtUnlockSpinlock (c : Cpu) (lock : ℕ) : Cpu := xtSetInterrupts (release c lock)

/-- A call on the lock at an address. -/
inductive Call where
  | lock (l : ℕ)
  | unlock (l : ℕ)
  deriving DecidableEq, Repr

/-- One call. -/
def Cpu.exec (c : Cpu) : Call → Option Cpu
  | .lock l => xtLockSpinlock c l
  | .unlock l => some (xtUnlockSpinlock c l)

/-- A sequence of calls. -/
def Cpu.run : Cpu → List Call → Option Cpu
  | c, [] => some c
  | c, call :: calls => (c.exec call).bind fun c => c.run calls

/-- The locks held after a call, the last one taken first. -/
def Call.next (held : List ℕ) : Call → List ℕ
  | .lock l => l :: held
  | .unlock _ => held.tail

/-- Only locks that are not held are taken, and only the last one taken is released. -/
def WellNested : List ℕ → List Call → Prop
  | _, [] => True
  | held, .lock l :: calls => l ∉ held ∧ WellNested (l :: held) calls
  | held, .unlock l :: calls => held.head? = some l ∧ WellNested held.tail calls

/-- Every lock is the only one held when it is released. -/
def UnlocksAlone : List ℕ → List Call → Prop
  | _, [] => True
  | held, .lock l :: calls => UnlocksAlone (l :: held) calls
  | held, .unlock _ :: calls => held.tail = [] ∧ UnlocksAlone held.tail calls

instance decidableWellNested : ∀ held calls, Decidable (WellNested held calls)
  | _, [] => .isTrue trivial
  | held, .lock l :: calls =>
    have := decidableWellNested (l :: held) calls
    inferInstanceAs (Decidable (_ ∧ _))
  | held, .unlock _ :: calls =>
    have := decidableWellNested held.tail calls
    inferInstanceAs (Decidable (_ ∧ _))

/-- Interrupts are off if a lock is held. -/
def Cpu.Guarded (c : Cpu) : Prop := (∃ l, c.isBusy l = true) → c.interrupts = false

/-- Interrupts are off in every state of the run in which a lock is held. -/
def Cpu.GuardedRun (c : Cpu) (calls : List Call) : Prop :=
  ∀ pre c', pre <+: calls → c.run pre = some c' → c'.Guarded

/-- The initialised processor holds the given locks. -/
structure Cpu.Holds (c : Cpu) (held : List ℕ) : Prop where
  busy : ∀ l, c.isBusy l = true ↔ l ∈ held
  nodup : held.Nodup
  initialised : c.bKernelWasInitialised = true

variable {c : Cpu} {held : List ℕ} {calls : List Call}

theorem Cpu.Holds.guarded_iff (h : c.Holds held) :
    c.Guarded ↔ held = [] ∨ c.interrupts = false := by
  simp only [Cpu.Guarded, h.busy, List.eq_nil_iff_forall_not_mem, ← not_exists]
  tauto

/-- Taking a free lock succeeds and leaves interrupts off. -/
theorem Cpu.Holds.lock (h : c.Holds held) {l : ℕ} (hl : l ∉ held) :
    ∃ c', xtLockSpinlock c l = some c' ∧ c'.Holds (l :: held) ∧ c'.interrupts = false := by
  have hfree : c.isBusy l = false := by simpa using mt (h.busy l).mp hl
  refine ⟨_, if_neg (by simpa [xtClearInterrupts] using hfree), ⟨?_, ?_, h.initialised⟩, rfl⟩
  · intro x
    rw [List.mem_cons, ← h.busy x]
    by_cases hx : x = l
    · simp [hx]
    · simp [hx, xtClearInterrupts]
  · exact List.nodup_cons.mpr ⟨hl, h.nodup⟩

/-- Releasing the last lock taken turns interrupts on, whatever else is held. -/
theorem Cpu.Holds.unlock {l : ℕ} (h : c.Holds (l :: held)) :
    (xtUnlockSpinlock c l).Holds held ∧ (xtUnlockSpinlock c l).interrupts = true := by
  obtain ⟨hl, hnd⟩ := List.nodup_cons.mp h.nodup
  have hset : xtUnlockSpinlock c l =
      { c with isBusy := Function.update c.isBusy l false, interrupts := true } :=
    if_pos h.initialised
  rw [hset]
  refine ⟨⟨fun x => ?_, hnd, h.initialised⟩, rfl⟩
  by_cases hx : x = l
  · subst hx
    simp [hl]
  · have hbusy := h.busy x
    simpa [hx] using hbusy

theorem guardedRun_nil : c.GuardedRun [] ↔ c.Guarded := by
  constructor
  · intro h
    exact h [] c List.prefix_rfl rfl
  · intro h pre c' hpre hrun
    obtain rfl := List.prefix_nil.mp hpre
    obtain rfl := Option.some.inj hrun
    exact h

theorem guardedRun_cons {c' : Cpu} {call : Call} (hexec : c.exec call = some c') :
    c.GuardedRun (call :: calls) ↔ c.Guarded ∧ c'.GuardedRun calls := by
  constructor
  · intro h
    refine ⟨h [] c (List.nil_prefix) rfl, fun pre c₂ hpre hrun => ?_⟩
    refine h (call :: pre) c₂ (List.cons_prefix_cons.mpr ⟨rfl, hpre⟩) ?_
    rw [Cpu.run, hexec]
    exact hrun
  · rintro ⟨h, hrest⟩ pre c₂ hpre hrun
    cases pre with
    | nil =>
      obtain rfl := Option.some.inj hrun
      exact h
    | cons first pre =>
      obtain ⟨rfl, htail⟩ := List.cons_prefix_cons.mp hpre
      rw [Cpu.run, hexec] at hrun
      exact hrest pre c₂ htail hrun

/-- From any state in which interrupts are off if a lock is held, they stay so exactly if no
    lock is released while another one is held. -/
theorem guardedRun_iff (h : c.Holds held) (hguarded : c.Guarded)
    (hnested : WellNested held calls) : c.GuardedRun calls ↔ UnlocksAlone held calls := by
  induction calls generalizing c held with
  | nil => simpa [guardedRun_nil, UnlocksAlone] using hguarded
  | cons call calls ih =>
    cases call with
    | lock l =>
      obtain ⟨hl, hnested⟩ := hnested
      obtain ⟨c', hexec, hholds, hoff⟩ := h.lock hl
      have hguarded' := hholds.guarded_iff.mpr (.inr hoff)
      have hfirst : c.exec (.lock l) = some c' := hexec
      rw [guardedRun_cons hfirst, ih hholds hguarded' hnested, UnlocksAlone]
      simp only [hguarded, true_and]
    | unlock l =>
      obtain ⟨hhead, hnested⟩ := hnested
      cases held with
      | nil => cases hhead
      | cons x held =>
        obtain rfl := Option.some.inj hhead
        obtain ⟨hholds, hon⟩ := h.unlock
        have hiff := hholds.guarded_iff
        rw [hon] at hiff
        rw [guardedRun_cons rfl, UnlocksAlone, List.tail_cons]
        simp only [hguarded, true_and]
        by_cases hempty : held = []
        · have hguarded' := hiff.mpr (.inl hempty)
          rw [ih hholds hguarded' hnested]
          simp only [hempty, true_and]
        · -- the state after the release has a lock held and interrupts on
          simp only [hempty, false_and, iff_false]
          intro hrun
          have hbad := hiff.mp (hrun [] _ List.nil_prefix rfl)
          simp [hempty] at hbad

/-- No call of a well-nested sequence spins for ever. -/
theorem run_isSome (h : c.Holds held) (hnested : WellNested held calls) :
    (c.run calls).isSome := by
  induction calls generalizing c held with
  | nil => rfl
  | cons call calls ih =>
    cases call with
    | lock l =>
      obtain ⟨c', hexec, hholds, -⟩ := h.lock hnested.1
      have hfirst : c.exec (.lock l) = some c' := hexec
      rw [Cpu.run, hfirst]
      exact ih hholds hnested.2
    | unlock l =>
      obtain ⟨hhead, hnested⟩ := hnested
      cases held with
      | nil => cases hhead
      | cons x held =>
        obtain rfl := Option.some.inj hhead
        exact ih h.unlock.1 hnested

/-- On the initialised processor with no lock held, a well-nested sequence of calls runs to its
    end, and interrupts are off in every state with a lock held if and only if no lock is
    released while another one is held. -/
theorem guarded_iff_unlocksAlone (hfree : ∀ l, c.isBusy l = false)
    (hinit : c.bKernelWasInitialised = true) (hnested : WellNested [] calls) :
    (c.run calls).isSome ∧ (c.GuardedRun calls ↔ UnlocksAlone [] calls) := by
  have hholds : c.Holds [] := ⟨by simp [hfree], List.nodup_nil, hinit⟩
  exact ⟨run_isSome hholds hnested,
    guardedRun_iff hholds (hholds.guarded_iff.mpr (.inl rfl)) hnested⟩

/-- One critical section. -/
theorem guarded_iff_unlocksAlone_single :
    Cpu.GuardedRun ⟨fun _ => false, true, true⟩ [.lock 0, .unlock 0] :=
  (guarded_iff_unlocksAlone (fun _ => rfl) rfl (by decide)).2.mpr ⟨rfl, trivial⟩

/-! ### The nested sections of `xtSignalEvent` -/

/-- The calls of `xtWakeUpThread`. -/
def wakeUpCalls (thread : ℕ) : List Call := [.lock thread, .unlock thread]

/-- The calls of `xtSignalEvent` for an event with the given threads on its list. -/
def signalCalls (event : ℕ) (threads : List ℕ) : List Call :=
  .lock event :: (threads.flatMap wakeUpCalls ++ [.unlock event])

/-- An event with one waiting thread: after its wake-up the event lock is held and interrupts
    are on. -/
theorem signal_enables_interrupts :
    WellNested [] (signalCalls 0 [1]) ∧ [.lock 0, .lock 1, .unlock 1] <+: signalCalls 0 [1] ∧
      ∃ c', Cpu.run ⟨fun _ => false, true, true⟩ [.lock 0, .lock 1, .unlock 1] = some c' ∧
        c'.isBusy 0 = true ∧ c'.interrupts = true :=
  ⟨by decide, ⟨[.unlock 0], rfl⟩, _, rfl, rfl, rfl⟩

end XTOS.Spinlock

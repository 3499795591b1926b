import XTOS.Event
import XTOS.Scheduler

/-!
# Waits with a timeout

`xtWaitForEvents` under the scheduler. A thread that comes back from its sleep looks at its own
`ticks` to find out whether the time ran out. `xtWakeUpThread` and the switch to a thread both write
that field before the thread looks at it.

## Main definitions

- `State` — the events, the scheduler's list and the thread that runs
- `Pass` — the end of one pass of the loop of `xtWaitForEvents`
- `Step` — a step of the running thread, an interrupt, or other code of the kernel

## Main results

- `xtSchedule_ticks` — the thread that runs after a switch has ticks
- `timeouts_iff` — a run reports its timeouts exactly when no sleep of a waiter runs out

## Design notes

There is one processor. A pass is `expired` when `xtWakeUpThreads` ended the thread's sleep while the
test of the first phase of its wait failed.
-/

namespace XTOS.Event.Timeout

open SysLib XTOS.LinkedList XTOS.Sleep
open XTOS.Process (XTThread xtThreadSleepState xtThreadRunState dec64)

/-- A pass of the loop of `xtWaitForEvents` after which the thread has left the lists: whether the
    sleep ran out without the events, and whether the call returned `XT_TIMEOUT`. -/
structure Pass where
  thread : ℕ
  wait : Wait
  expired : Bool
  timeout : Bool
  deriving DecidableEq, Repr

/-- The events and thread records, the scheduler, which threads came back from an expired sleep, and
    the passes so far. -/
structure State where
  event : Event.State
  list : NodeHeap
  threads : ℕ
  currentThreadIterator : ℕ
  currentThread : ℕ
  idleThread : ℕ
  expired : ℕ → Bool
  passes : List Pass

/-- The scheduler's part. -/
def State.scheduler (s : State) : Scheduler.State :=
  ⟨s.list, s.threads, s.currentThreadIterator, s.event.thread, s.currentThread, s.idleThread⟩

/-- The sleep of thread `t` ran out between `s` and the records `m`: it waits with a timeout, and the
    events it waits for are not signaled. -/
def State.ranOut (s : State) (m : Threads) (t : ℕ) : Bool :=
  match (s.event.phase t).wait? with
  | none => false
  | some w => w.milliseconds ≠ infinite ∧ (s.event.thread t).state = xtThreadSleepState ∧
      (m t).state ≠ xtThreadSleepState ∧ (tryWait s.event w).isNone

/-- The interrupt 0x20: the timer's, and the one of `xtSwitchToThread`. -/
def State.interrupt (fuel : ℕ) (s : State) : Option State :=
  (Scheduler.xtSchedule fuel s.scheduler).map fun k =>
    { s with
      event := { s.event with thread := k.thread }
      currentThreadIterator := k.currentThreadIterator
      currentThread := k.currentThread
      expired := fun t => s.expired t || s.ranOut k.thread t }

/-- The thread that is about to switch away after `xtSleepThread` does so; it goes on in
    `removeFromAllEvents` when it runs again. -/
def State.switch (fuel : ℕ) (s : State) : Option State :=
  match s.event.phase s.currentThread with
  | .asleep w =>
    (s.interrupt fuel).map fun s' => { s' with event := s'.event.goTo s.currentThread (.remove w 0) }
  | _ => none

/-- The running thread takes a step of its own. -/
def State.run (fuel : ℕ) (s : State) : Event.Action → Option State
  | .again t =>
    match s.event.phase t with
    | .remove w _ =>
      (s.event.exec fuel (.again t)).map fun ev =>
        { s with
          event := ev
          expired := Function.update s.expired t false
          passes := ⟨t, w, s.expired t, ev.phase t = .idle⟩ :: s.passes }
    | _ => none
  | .sleep t =>
    (s.event.exec fuel (.sleep t)).map fun ev =>
      { s with event := ev, expired := Function.update s.expired t false }
  | a => (s.event.exec fuel a).map fun ev => { s with event := ev }

/-- The step is code of thread `t`. -/
def codeOf (t : ℕ) : Event.Action → Prop
  | .signal u _ | .reset u _ | .call u _ | .check u _ | .sleep u | .remove u | .again u => u = t
  | .resume _ | .tick _ | .quantum _ _ => False

/-- A record that the scheduler takes up has a share of time, and the running one has some left. -/
structure State.Ticking (s : State) : Prop where
  privilage : ∀ t, 1 ≤ (s.event.thread t).privilage
  current : (s.event.thread s.currentThread).runs → 1 ≤ (s.event.thread s.currentThread).ticks

/-- One step. -/
inductive Step (s : State) : State → Prop
  /-- Code of the running thread. -/
  | run {fuel : ℕ} {a : Event.Action} {s' : State} (hrun : (s.event.thread s.currentThread).runs)
      (ha : codeOf s.currentThread a) (h : s.run fuel a = some s') : Step s s'
  /-- A timer interrupt. -/
  | interrupt {fuel : ℕ} {s' : State} (h : s.interrupt fuel = some s') : Step s s'
  /-- The interrupt of `xtSwitchToThread`. -/
  | switch {fuel : ℕ} {s' : State} (h : s.switch fuel = some s') : Step s s'
  /-- Other code of the kernel changes records and the list, and creates threads. -/
  | other (m : Threads) (phase : ℕ → Phase) (H : NodeHeap) (threads iterator : ℕ)
      (hphase : ∀ t, phase t = s.event.phase t ∨ phase t = .idle)
      (hm : State.Ticking { s with event := { s.event with thread := m } }) :
      Step s { s with
        event := { s.event with thread := m, phase := phase }
        list := H
        threads := threads
        currentThreadIterator := iterator }

/-- New events, no thread in a wait, and threads as `xtCreateThread` makes them. -/
structure State.Initial (s : State) : Prop where
  event : s.event.Initial
  privilage : ∀ t, (s.event.thread t).privilage = 20
  ticks : ∀ t, (s.event.thread t).ticks = 20
  expired : ∀ t, s.expired t = false
  passes : s.passes = []

/-- Every pass that came back from an expired sleep ended the call with `XT_TIMEOUT`, and no other
    one did. -/
def State.Reports (s : State) : Prop := ∀ p ∈ s.passes, p.timeout = true ↔ p.expired = true

variable {s s' : State}

/-! ### The scheduler -/

theorem wakeLoop_privilage {H : NodeHeap} {fuel i : ℕ} {m m' : Threads}
    (h : Scheduler.wakeLoop H fuel i m = some m') (t : ℕ) : (m' t).privilage = (m t).privilage := by
  induction fuel generalizing i m with
  | zero => cases h
  | succ fuel ih =>
    rw [Scheduler.wakeLoop] at h
    split_ifs at h
    · obtain rfl := Option.some.inj h
      rfl
    · rw [ih h]
      obtain rfl | hne := eq_or_ne t (H.data i)
      · rw [Threads.modify_self, wakeUpPass]
        dsimp only
        split_ifs <;> rfl
      · rw [Threads.modify_of_ne hne]

/-- The thread that a switch takes has its share of time. -/
theorem switchNext_ticks {fuel : ℕ} {k k' : Scheduler.State}
    (hp : ∀ t, 1 ≤ (k.thread t).privilage) (h : Scheduler.switchNext fuel k = some k') :
    (∀ t, (k'.thread t).privilage = (k.thread t).privilage) ∧
      1 ≤ (k'.thread k'.currentThread).ticks := by
  obtain ⟨⟨i, t⟩, -, rfl⟩ := Option.map_eq_some_iff.mp h
  refine ⟨fun u => ?_, ?_⟩
  · dsimp only
    obtain rfl | hne := eq_or_ne u t
    · rw [Threads.modify_self]
    · rw [Threads.modify_of_ne hne]
  · dsimp only
    rw [Threads.modify_self]
    exact hp t

/-- After `xtSchedule` the running thread has ticks. -/
theorem xtSchedule_ticks {fuel : ℕ} {k k' : Scheduler.State}
    (hp : ∀ t, 1 ≤ (k.thread t).privilage) (h : Scheduler.xtSchedule fuel k = some k') :
    (∀ t, (k'.thread t).privilage = (k.thread t).privilage) ∧
      1 ≤ (k'.thread k'.currentThread).ticks := by
  obtain ⟨k₁, hwake, h⟩ := Option.bind_eq_some_iff.mp h
  obtain ⟨m, hm, rfl⟩ := Option.map_eq_some_iff.mp hwake
  have hpriv : ∀ t, (m t).privilage = (k.thread t).privilage := wakeLoop_privilage hm
  dsimp only at h
  split_ifs at h with hruns hleft
  · -- the thread goes on
    obtain rfl := Option.some.inj h
    refine ⟨fun t => ?_, hleft⟩
    dsimp only
    obtain rfl | hne := eq_or_ne t k.currentThread
    · rw [Threads.modify_self]
      exact hpriv _
    · rw [Threads.modify_of_ne hne]
      exact hpriv t
  · have hkeep : ∀ t, ((m.modify k.currentThread fun th => { th with ticks := dec64 th.ticks })
        t).privilage = (k.thread t).privilage := by
      intro t
      obtain rfl | hne := eq_or_ne t k.currentThread
      · rw [Threads.modify_self]
        exact hpriv _
      · rw [Threads.modify_of_ne hne]
        exact hpriv t
    obtain ⟨hall, hticks⟩ := switchNext_ticks (fun t => (hp t).trans_eq (hkeep t).symm) h
    exact ⟨fun t => (hall t).trans (hkeep t), hticks⟩
  · obtain ⟨hall, hticks⟩ := switchNext_ticks (fun t => (hp t).trans_eq (hpriv t).symm) h
    exact ⟨fun t => (hall t).trans (hpriv t), hticks⟩

theorem State.interrupt_ticking {fuel : ℕ} (hs : s.Ticking) (h : s.interrupt fuel = some s') :
    s'.Ticking ∧ s'.passes = s.passes := by
  obtain ⟨k, hk, rfl⟩ := Option.map_eq_some_iff.mp h
  obtain ⟨hpriv, hticks⟩ := xtSchedule_ticks hs.privilage hk
  exact ⟨⟨fun t => (hs.privilage t).trans_eq (hpriv t).symm, fun _ => hticks⟩, rfl⟩

/-! ### Code of the running thread -/

/-- A signal gives the threads it wakes their share of time. -/
theorem wakeAll_ticks {fuel l : ℕ} {H H' : NodeHeap} {m m' : Threads}
    (h : wakeAll fuel H m l = some (H', m')) (t : ℕ) :
    (m' t).privilage = (m t).privilage ∧
      (m' t = m t ∨ (m' t).ticks = (m t).privilage) := by
  induction fuel generalizing H m l with
  | zero => cases h
  | succ fuel ih =>
    rw [wakeAll] at h
    split_ifs at h
    · obtain ⟨rfl, rfl⟩ := Prod.mk.inj (Option.some.inj h)
      exact ⟨rfl, .inl rfl⟩
    · obtain ⟨hpriv, hticks⟩ := ih h
      obtain rfl | hne := eq_or_ne t (H.data l)
      · rw [Threads.modify_self] at hpriv hticks
        refine ⟨hpriv, .inr ?_⟩
        obtain hsame | hshare := hticks
        · rw [hsame]
          rfl
        · exact hshare
      · rw [Threads.modify_of_ne hne] at hpriv hticks
        exact ⟨hpriv, hticks⟩

/-- What code of thread `t` does to the records: it leaves them as they are, it wakes threads, or it
    puts itself to sleep. -/
inductive Touches (t : ℕ) (m m' : Threads) : Prop
  | same (h : m' = m)
  | wakes (h : ∀ u, (m' u).privilage = (m u).privilage ∧
      (m' u = m u ∨ (m' u).ticks = (m u).privilage))
  | sleeps (milliseconds : ℕ) (h : m' = m.modify t (xtSleepThread · milliseconds))

theorem register_thread {fuel t : ℕ} {es : List ℕ} {blocks : List (Option ℕ)} {ev ev' : Event.State}
    (h : register fuel t es blocks ev = some ev') : ev'.thread = ev.thread := by
  induction es generalizing blocks ev with
  | nil =>
    obtain rfl := Option.some.inj h
    rfl
  | cons e es ih =>
    rw [register] at h
    dsimp only at h
    split_ifs at h
    · exact (ih h).trans rfl
    · exact (ih h).trans rfl
    · obtain ⟨H, -, h⟩ := Option.bind_eq_some_iff.mp h
      exact (ih h).trans rfl
    · obtain ⟨H, -, h⟩ := Option.bind_eq_some_iff.mp h
      exact (ih h).trans rfl

theorem removeFromEvent_thread {t e fuel prev cur : ℕ} {ev ev' : Event.State}
    (h : removeFromEvent t e fuel ev prev cur = some ev') : ev'.thread = ev.thread := by
  induction fuel generalizing prev cur with
  | zero => cases h
  | succ fuel ih =>
    rw [removeFromEvent] at h
    dsimp only at h
    split_ifs at h
    · obtain rfl := Option.some.inj h
      rfl
    · obtain rfl := Option.some.inj h
      rfl
    · obtain rfl := Option.some.inj h
      rfl
    · exact ih h

theorem tryWait_thread {w : Wait} {i : Option ℕ} {ev ev' : Event.State}
    (h : tryWait ev w = some (ev', i)) : ev'.thread = ev.thread := by
  rw [tryWait] at h
  split_ifs at h
  · obtain ⟨rfl, -⟩ := Prod.mk.inj (Option.some.inj h)
    suffices hall : ∀ (es : List ℕ) (ev : Event.State),
        (es.foldl Event.State.clear ev).thread = ev.thread from hall _ _
    intro es
    induction es with
    | nil => exact fun ev => rfl
    | cons e es ih => exact fun ev => ih _
  · obtain ⟨k, -, heq⟩ := Option.map_eq_some_iff.mp h
    obtain ⟨rfl, -⟩ := Prod.mk.inj heq
    rfl

theorem exec_touches {fuel t : ℕ} {a : Event.Action} {ev ev' : Event.State} (ha : codeOf t a)
    (h : ev.exec fuel a = some ev') : Touches t ev.thread ev'.thread := by
  cases a with
  | signal u e =>
    rw [Event.State.exec] at h
    split_ifs at h
    obtain ⟨⟨H, m⟩, hwake, rfl⟩ := Option.map_eq_some_iff.mp h
    exact .wakes (wakeAll_ticks hwake)
  | reset u e =>
    rw [Event.State.exec] at h
    split_ifs at h
    obtain rfl := Option.some.inj h
    exact .same rfl
  | call u w =>
    rw [Event.State.exec] at h
    split_ifs at h
    · obtain rfl := Option.some.inj h
      exact .same rfl
    · obtain rfl := Option.some.inj h
      exact .same rfl
  | check u blocks =>
    rw [Event.State.exec] at h
    split at h
    · split at h
      · rename_i hw
        obtain rfl := Option.some.inj h
        have hsame := tryWait_thread hw
        exact .same hsame
      · obtain ⟨ev₁, hr, rfl⟩ := Option.map_eq_some_iff.mp h
        have hsame := register_thread hr
        exact .same hsame
    · cases h
  | sleep u =>
    obtain rfl : u = t := ha
    rw [Event.State.exec] at h
    split at h
    · rename_i w hp
      obtain rfl := Option.some.inj h
      dsimp only
      split_ifs
      · exact .sleeps _ rfl
      · exact .same rfl
    · cases h
  | remove u =>
    rw [Event.State.exec] at h
    split at h
    · split_ifs at h
      obtain ⟨ev₁, hr, rfl⟩ := Option.map_eq_some_iff.mp h
      have hsame := removeFromEvent_thread hr
      exact .same hsame
    · cases h
  | again u =>
    rw [Event.State.exec] at h
    split at h
    · split_ifs at h
      · obtain rfl := Option.some.inj h
        exact .same rfl
      · obtain rfl := Option.some.inj h
        exact .same rfl
    · cases h
  | resume u => cases ha
  | tick u => cases ha
  | quantum u ticks => cases ha

theorem State.Ticking.touches {m : Threads} (hs : s.Ticking)
    (hrun : (s.event.thread s.currentThread).runs) (h : Touches s.currentThread s.event.thread m) :
    State.Ticking { s with event := { s.event with thread := m } } := by
  cases h with
  | same h =>
    subst h
    exact hs
  | wakes h =>
    refine ⟨fun t => (hs.privilage t).trans_eq (h t).1.symm, fun _ => ?_⟩
    dsimp only
    obtain hsame | hshare := (h s.currentThread).2
    · rw [hsame]
      exact hs.current hrun
    · rw [hshare]
      exact hs.privilage _
  | sleeps ms h =>
    subst h
    refine ⟨fun t => ?_, fun hstill => ?_⟩
    · dsimp only
      obtain rfl | hne := eq_or_ne t s.currentThread
      · rw [Threads.modify_self]
        exact hs.privilage _
      · rw [Threads.modify_of_ne hne]
        exact hs.privilage t
    · -- it is about to switch away
      dsimp only at hstill
      rw [Threads.modify_self, XTThread.runs, xtSleepThread_state] at hstill
      exact absurd hstill (by decide)

/-- What a step of the running thread does: the records, and the pass that it ends. -/
theorem run_spec {fuel : ℕ} {a : Event.Action} (ha : codeOf s.currentThread a)
    (h : s.run fuel a = some s') :
    Touches s.currentThread s.event.thread s'.event.thread ∧
      s'.currentThread = s.currentThread ∧
      (s'.passes = s.passes ∨ ∃ w i expired,
        s.event.phase s.currentThread = .remove w i ∧
        s'.passes = ⟨s.currentThread, w, expired,
          w.milliseconds ≠ infinite ∧ (s.event.thread s.currentThread).ticks = 0⟩ :: s.passes) := by
  cases a with
  | again t =>
    obtain rfl : t = s.currentThread := ha
    have hcode : codeOf s.currentThread (.again s.currentThread) := rfl
    rw [State.run] at h
    split at h
    · rename_i w i hp
      obtain ⟨ev, hev, rfl⟩ := Option.map_eq_some_iff.mp h
      refine ⟨exec_touches hcode hev, rfl, .inr ⟨w, i, s.expired s.currentThread, hp, ?_⟩⟩
      rw [Event.State.exec, hp] at hev
      dsimp only at hev
      split_ifs at hev with hi hticks
      · obtain rfl := Option.some.inj hev
        simp [Event.State.return, Event.State.goTo, hticks]
      · obtain rfl := Option.some.inj hev
        simp [Event.State.goTo, hticks]
    · cases h
  | sleep t =>
    obtain ⟨ev, hev, rfl⟩ := Option.map_eq_some_iff.mp h
    exact ⟨exec_touches ha hev, rfl, .inl rfl⟩
  | signal t e =>
    obtain ⟨ev, hev, rfl⟩ := Option.map_eq_some_iff.mp h
    exact ⟨exec_touches ha hev, rfl, .inl rfl⟩
  | reset t e =>
    obtain ⟨ev, hev, rfl⟩ := Option.map_eq_some_iff.mp h
    exact ⟨exec_touches ha hev, rfl, .inl rfl⟩
  | call t w =>
    obtain ⟨ev, hev, rfl⟩ := Option.map_eq_some_iff.mp h
    exact ⟨exec_touches ha hev, rfl, .inl rfl⟩
  | check t blocks =>
    obtain ⟨ev, hev, rfl⟩ := Option.map_eq_some_iff.mp h
    exact ⟨exec_touches ha hev, rfl, .inl rfl⟩
  | remove t =>
    obtain ⟨ev, hev, rfl⟩ := Option.map_eq_some_iff.mp h
    exact ⟨exec_touches ha hev, rfl, .inl rfl⟩
  | resume t => cases ha
  | tick t => cases ha
  | quantum t ticks => cases ha

/-! ### Runs -/

/-- The running thread has ticks, so no pass finds the time run out. -/
structure Invariant (s : State) : Prop where
  ticking : s.Ticking
  passes : ∀ p ∈ s.passes, p.timeout = false

theorem State.Initial.invariant (h : s.Initial) : Invariant s := by
  refine ⟨⟨fun t => ?_, fun _ => ?_⟩, by simp [h.passes]⟩
  · rw [h.privilage t]
    decide
  · rw [h.ticks]
    decide

theorem step_invariant (hs : Invariant s) (h : Step s s') : Invariant s' := by
  cases h with
  | run hrun ha h =>
    obtain ⟨htouches, hcurrent, hpasses⟩ := run_spec ha h
    have hticking : s'.Ticking := by
      obtain ⟨hpriv, hticks⟩ := hs.ticking.touches hrun htouches
      refine ⟨hpriv, fun hruns => ?_⟩
      rw [hcurrent] at hruns ⊢
      exact hticks hruns
    refine ⟨hticking, ?_⟩
    obtain hsame | ⟨w, i, expired, -, hnew⟩ := hpasses
    · rw [hsame]
      exact hs.passes
    · rw [hnew]
      have hticks := hs.ticking.current hrun
      refine List.forall_mem_cons.mpr ⟨?_, hs.passes⟩
      rw [decide_eq_false_iff_not]
      omega
  | interrupt h =>
    obtain ⟨hticking, hpasses⟩ := s.interrupt_ticking hs.ticking h
    exact ⟨hticking, hpasses ▸ hs.passes⟩
  | switch h =>
    rw [State.switch] at h
    split at h
    · obtain ⟨s₁, h₁, rfl⟩ := Option.map_eq_some_iff.mp h
      obtain ⟨hticking, hpasses⟩ := s.interrupt_ticking hs.ticking h₁
      refine ⟨⟨hticking.privilage, hticking.current⟩, ?_⟩
      dsimp only
      exact hpasses ▸ hs.passes
    · cases h
  | other m phase H threads iterator hphase hm => exact ⟨⟨hm.privilage, hm.current⟩, hs.passes⟩

/-- **Timeouts**: in every state of a run, the passes so far reported the expired sleeps, and nothing
    else, if and only if no sleep expired. -/
theorem timeouts_iff (h : Reachable State.Initial Step s) :
    s.Reports ↔ ∀ p ∈ s.passes, p.expired = false := by
  have hno := (h.invariant (fun _ h0 => h0.invariant) fun _ _ hs hst => step_invariant hs hst).passes
  refine forall₂_congr fun p hp => ?_
  rw [hno p hp]
  simp

/-- One thread, the idle thread and an event. -/
def single : State where
  event := fresh
  list := ⟨fun _ => ⟨10, 0⟩, fun _ => true⟩
  threads := 1
  currentThreadIterator := 1
  currentThread := 10
  idleThread := 30
  expired _ := false
  passes := []

/-- The wait for event 7 for a millisecond. -/
def shortWait : Wait := ⟨[7], 0, 1, true⟩

theorem single_initial : State.Initial single :=
  ⟨⟨fun _ => rfl, fun _ => rfl, fun _ => rfl, rfl⟩, fun _ => rfl, fun _ => rfl, fun _ => rfl, rfl⟩

/-- The run up to the end of the first pass: call, registration, sleep, switch, removal. The
    millisecond is over at the switch. -/
theorem single_pass : ∃ s, Reachable State.Initial Step s ∧
    s.passes = [⟨10, shortWait, true, false⟩] ∧ s.event.phase 10 = .check shortWait := by
  have hcall := (Reachable.start single_initial).next
    (@Step.run _ 1 (.call 10 shortWait) _ (by decide) rfl rfl)
  have hcheck := hcall.next (@Step.run _ 1 (.check 10 [some 100]) _ (by decide) rfl rfl)
  have hsleep := hcheck.next (@Step.run _ 1 (.sleep 10) _ (by decide) rfl rfl)
  have hswitch := hsleep.next
    (@Step.switch _ 3 _ (Option.some_get (show Option.isSome _ by decide +kernel)).symm)
  have hremove := hswitch.next (@Step.run _ 2 (.remove 10) _ (by decide +kernel)
    (show _ = _ by decide +kernel) (Option.some_get (show Option.isSome _ by decide +kernel)).symm)
  have hagain := hremove.next (@Step.run _ 1 (.again 10) _ (by decide +kernel)
    (show _ = _ by decide +kernel) (Option.some_get (show Option.isSome _ by decide +kernel)).symm)
  exact ⟨_, hagain, by decide +kernel, by decide +kernel⟩

theorem timeouts_iff_single : ∃ s, Reachable State.Initial Step s ∧ s.passes ≠ [] ∧
    (s.Reports ↔ ∀ p ∈ s.passes, p.expired = false) := by
  obtain ⟨s, hs, hpasses, -⟩ := single_pass
  exact ⟨s, hs, by simp [hpasses], timeouts_iff hs⟩

/-- The millisecond is over without a signal, and the thread starts to wait again. -/
theorem expired_sleep_unreported : ∃ s, Reachable State.Initial Step s ∧
    s.event.phase 10 = .check shortWait ∧ ¬ s.Reports := by
  obtain ⟨s, hs, hpasses, hphase⟩ := single_pass
  refine ⟨s, hs, hphase, fun h => ?_⟩
  have hreport := h ⟨10, shortWait, true, false⟩ (by simp [hpasses])
  exact Bool.false_ne_true (hreport.mpr rfl)

end XTOS.Event.Timeout

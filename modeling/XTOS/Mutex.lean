import XTOS.Lib.Run
import XTOS.Sleep

/-!
# Mutexes

`xtLockMutex` and `xtUnlockMutex` of `xtkernel/mutex.c`, called on one mutex by any number of
threads. A section under a spinlock is one step, and so is each update of a thread record.

## Main definitions

- `XTMutex`, `State` — the mutex, the thread records and where each thread is
- `tryLock`, `unlock` — the sections under the spinlock of the mutex
- `Step` — one step of a thread, or of the timer
- `State.Lost` — a free mutex with a sleeping thread that nobody will wake

## Main results

- `no_lost_wakeup` — no wake-up is lost if none goes to a thread that is not yet asleep

## Design notes

Nodes are added at the end of the wait list and taken from its front, so the list is one of
pairs of a node and its thread. The spinlock of the mutex stays busy until the thread that
unlocks the mutex has woken the first waiter.
-/

namespace XTOS.Mutex

open SysLib XTOS.Sleep
open XTOS.Process (XTThread xtThreadSleepState xtThreadRunState)

/-- `XTMutex`; `busy` is its spinlock. -/
structure XTMutex where
  busy : Bool
  owner : Option ℕ
  waitList : List (ℕ × ℕ)
  deriving DecidableEq, Repr

/-- Where a thread is: outside of the two calls; behind `xtUnlockSpinlock` in the loop of
    `xtLockMutex` with its node; switched away by `xtSleepThread`; back from it; in
    `xtUnlockMutex` before `xtWakeUpThread` for the thread of a node, and behind it. -/
inductive Place where
  | outside
  | gap (node : ℕ)
  | asleep (node : ℕ)
  | again
  | waking (node thread : ℕ)
  | woken
  deriving DecidableEq, Repr

/-- The mutex, the thread records and the places of the threads. -/
structure State where
  mutex : XTMutex
  thread : Threads
  place : ℕ → Place

/-- Change the place of a thread. -/
def State.goTo (s : State) (t : ℕ) (p : Place) : State :=
  { s with place := Function.update s.place t p }

/-- A new node at the end of the wait list; without a block there is none. -/
def XTMutex.append (m : XTMutex) (node t : ℕ) : XTMutex :=
  if node = 0 then m else { m with waitList := m.waitList ++ [(node, t)] }

/-- A section of `xtLockMutex`: take the free mutex, or wait for it. `node` is the block that
    `xtCreateList` got, or null. -/
def tryLock (s : State) (t node : ℕ) : State :=
  match s.mutex.owner with
  | none => { s.goTo t .outside with mutex := { s.mutex with owner := some t } }
  | some _ => { s.goTo t (.gap node) with mutex := s.mutex.append node t }

/-- The section of `xtUnlockMutex` up to `xtWakeUpThread`. -/
def unlock (s : State) (t : ℕ) : State :=
  match s.mutex.waitList with
  | [] => { s with mutex := { s.mutex with owner := none } }
  | (node, next) :: rest => { s.goTo t (.waking node next) with mutex := ⟨true, none, rest⟩ }

/-- A step of a thread, or of the timer for a thread. -/
inductive Action where
  | lock (t node : ℕ)
  | sleep (t : ℕ)
  | resume (t : ℕ)
  | unlock (t : ℕ)
  | wake (t : ℕ)
  | release (t : ℕ)
  | tick (t : ℕ)
  deriving DecidableEq, Repr

/-- One step. -/
inductive Step (s : State) : Action → State → Prop
  /-- A call of `xtLockMutex`, or the next round of its loop. -/
  | lock {t node : ℕ} (hp : s.place t = .outside ∨ s.place t = .again)
      (hbusy : s.mutex.busy = false) (hnode : ∀ u, (node, u) ∉ s.mutex.waitList) :
      Step s (.lock t node) (tryLock s t node)
  /-- The update of `xtSleepThread`. -/
  | sleep {t node : ℕ} (hp : s.place t = .gap node) :
      Step s (.sleep t) { s.goTo t (.asleep node) with
        thread := s.thread.modify t (xtSleepThread · (2 ^ 64 - 1)) }
  /-- The scheduler takes a thread that sleeps no more. -/
  | resume {t node : ℕ} (hp : s.place t = .asleep node) (hruns : (s.thread t).runs) :
      Step s (.resume t) (s.goTo t .again)
  /-- A call of `xtUnlockMutex`. -/
  | unlock {t : ℕ} (hp : s.place t = .outside) (hbusy : s.mutex.busy = false) :
      Step s (.unlock t) (unlock s t)
  /-- The update of `xtWakeUpThread`. -/
  | wake {t node next : ℕ} (hp : s.place t = .waking node next) :
      Step s (.wake t) { s.goTo t .woken with thread := s.thread.modify next xtWakeUpThread }
  /-- The end of `xtUnlockMutex`. -/
  | release {t : ℕ} (hp : s.place t = .woken) :
      Step s (.release t) { s.goTo t .outside with mutex := { s.mutex with busy := false } }
  /-- `xtWakeUpThreads` of the timer, for one thread. -/
  | tick (t : ℕ) : Step s (.tick t) { s with thread := s.thread.modify t wakeUpPass }

/-- A new mutex, and running threads outside of its calls. -/
structure State.Initial (s : State) : Prop where
  mutex : s.mutex = ⟨false, none, []⟩
  place : ∀ t, s.place t = .outside
  state : ∀ t, (s.thread t).state = xtThreadRunState

/-- The mutex is free, a thread in `xtLockMutex` sleeps, its node is no longer on the wait list,
    and nobody is about to wake it. -/
def State.Lost (s : State) : Prop :=
  s.mutex.owner = none ∧ ∃ t node, s.place t = .asleep node ∧ node ≠ 0 ∧
    (s.thread t).state = xtThreadSleepState ∧ (node, t) ∉ s.mutex.waitList ∧
    ∀ u n, s.place u ≠ .waking n t

/-- The step does not wake a thread that has put its node on the wait list and is not yet
    asleep. -/
def State.WakesSleeper (s : State) (a : Action) : Prop :=
  ∀ t node next, a = .wake t → s.place t = .waking node next → s.place next ≠ .gap node

/-! ### The waiters that are still to be woken -/

variable {s s' : State}

/-- The node of a waiter is on the wait list, or a thread is about to wake the waiter for it. -/
def State.Pending (s : State) (t node : ℕ) : Prop :=
  (node, t) ∈ s.mutex.waitList ∨ ∃ u, s.place u = .waking node t

/-- Threads sleep or run, and a thread that registered is pending until it is woken. -/
structure Invariant (s : State) : Prop where
  state : ∀ t, (s.thread t).state = xtThreadSleepState ∨ (s.thread t).state = xtThreadRunState
  gap : ∀ t node, s.place t = .gap node → node ≠ 0 → s.Pending t node
  asleep : ∀ t node, s.place t = .asleep node → node ≠ 0 →
    (s.thread t).state = xtThreadSleepState → s.Pending t node

theorem State.Initial.invariant (h : s.Initial) : Invariant s := by
  refine ⟨fun t => .inr (h.state t), fun t node hp => ?_, fun t node hp => ?_⟩
  · rw [h.place t] at hp
    cases hp
  · rw [h.place t] at hp
    cases hp

theorem Invariant.not_lost (h : Invariant s) : ¬ s.Lost := by
  rintro ⟨-, t, node, hp, hnode, hsleep, hnot, hnobody⟩
  obtain hmem | ⟨u, hu⟩ := h.asleep t node hp hnode hsleep
  · exact hnot hmem
  · exact hnobody u node hu

theorem place_goTo {t u : ℕ} {p q : Place} (h : (s.goTo t p).place u = q) :
    u = t ∧ p = q ∨ u ≠ t ∧ s.place u = q := by
  rw [State.goTo] at h
  exact update_cases (P := (· = q)) h

/-- A waiter stays pending in a step of a thread that does not wake it, if its node stays on
    the list or is taken by that thread. -/
theorem Pending.goTo {t v node : ℕ} {p : Place} {m : XTMutex} {th : Threads}
    (h : s.Pending v node) (hp : s.place t ≠ .waking node v)
    (hlist : (node, v) ∈ s.mutex.waitList → (node, v) ∈ m.waitList ∨ p = .waking node v) :
    State.Pending ⟨m, th, Function.update s.place t p⟩ v node := by
  obtain hmem | ⟨u, hu⟩ := h
  · obtain hmem | hp' := hlist hmem
    · exact .inl hmem
    · exact .inr ⟨t, (Function.update_self _ _ _).trans hp'⟩
  · have hut : u ≠ t := fun heq => hp (heq ▸ hu)
    exact .inr ⟨u, (Function.update_of_ne hut _ _).trans hu⟩

/-- A new place of one thread keeps the invariant if all pending waiters stay pending and the
    thread is pending where it should. -/
theorem Invariant.goTo {t : ℕ} {p : Place} {m : XTMutex} {th : Threads} (h : Invariant s)
    (hstate : ∀ u, (th u).state = xtThreadSleepState ∨ (th u).state = xtThreadRunState)
    (hsleep : ∀ u, u ≠ t → (th u).state = xtThreadSleepState →
      (s.thread u).state = xtThreadSleepState)
    (hpending : ∀ u node, u ≠ t → node ≠ 0 →
      s.place u = .gap node ∨ s.place u = .asleep node ∧ (th u).state = xtThreadSleepState →
      s.Pending u node → State.Pending ⟨m, th, Function.update s.place t p⟩ u node)
    (hself : ∀ node, node ≠ 0 → p = .gap node ∨ p = .asleep node →
      State.Pending ⟨m, th, Function.update s.place t p⟩ t node) :
    Invariant ⟨m, th, Function.update s.place t p⟩ := by
  refine ⟨hstate, fun u node hu hnode => ?_, fun u node hu hnode hs => ?_⟩
  · obtain ⟨rfl, rfl⟩ | ⟨hne, hold⟩ := place_goTo hu
    · exact hself node hnode (.inl rfl)
    · exact hpending u node hne hnode (.inl hold) (h.gap u node hold hnode)
  · obtain ⟨rfl, rfl⟩ | ⟨hne, hold⟩ := place_goTo hu
    · exact hself node hnode (.inr rfl)
    · exact hpending u node hne hnode (.inr ⟨hold, hs⟩)
        (h.asleep u node hold hnode (hsleep u hne hs))

theorem mem_append {m : XTMutex} {x : ℕ × ℕ} (h : x ∈ m.waitList) (node t : ℕ) :
    x ∈ (m.append node t).waitList := by
  rw [XTMutex.append]
  split_ifs
  · exact h
  · exact List.mem_append_left _ h

theorem mem_append_self (m : XTMutex) {node : ℕ} (h : node ≠ 0) (t : ℕ) :
    (node, t) ∈ (m.append node t).waitList := by
  rw [XTMutex.append, if_neg h]
  exact List.mem_append_right _ (List.mem_singleton_self _)

theorem tryLock_invariant {t node : ℕ} (h : Invariant s)
    (hp : s.place t = .outside ∨ s.place t = .again) : Invariant (tryLock s t node) := by
  have hnot : ∀ n v, s.place t ≠ .waking n v := by
    intro n v heq
    rw [heq] at hp
    obtain hp | hp := hp <;> cases hp
  rw [tryLock]
  cases howner : s.mutex.owner with
  | none =>
    refine h.goTo h.state (fun _ _ => id) (fun u n _ _ _ hu => ?_) (by simp)
    exact Pending.goTo hu (hnot n u) .inl
  | some o =>
    refine h.goTo h.state (fun _ _ => id) (fun u n _ _ _ hu => ?_) fun n hn heq => ?_
    · exact Pending.goTo hu (hnot n u) fun hmem => .inl (mem_append hmem node t)
    · obtain heq | heq := heq
      · cases heq
        exact .inl (mem_append_self s.mutex hn t)
      · cases heq

theorem unlock_invariant {t : ℕ} (h : Invariant s) (hp : s.place t = .outside) :
    Invariant (unlock s t) := by
  have hnot : ∀ n v, s.place t ≠ .waking n v := by
    intro n v heq
    rw [heq] at hp
    cases hp
  rw [unlock]
  cases hlist : s.mutex.waitList with
  | nil =>
    refine ⟨h.state, fun u n hu hn => ?_, fun u n hu hn hs => ?_⟩
    · exact (h.gap u n hu hn).imp_left fun hmem => hmem
    · exact (h.asleep u n hu hn hs).imp_left fun hmem => hmem
  | cons first rest =>
    obtain ⟨node, next⟩ := first
    refine h.goTo h.state (fun _ _ => id) (fun u n _ _ _ hu => ?_) (by simp)
    -- the first waiter is the one that the thread is about to wake
    refine Pending.goTo hu (hnot n u) fun hmem => ?_
    rw [hlist] at hmem
    obtain heq | hmem := List.mem_cons.mp hmem
    · cases heq
      exact .inr rfl
    · exact .inl hmem

theorem modify_state {f : XTThread → XTThread} {m : Threads} (t : ℕ)
    (hf : (f (m t)).state = xtThreadSleepState ∨ (f (m t)).state = xtThreadRunState)
    (h : ∀ u, (m u).state = xtThreadSleepState ∨ (m u).state = xtThreadRunState) (u : ℕ) :
    (m.modify t f u).state = xtThreadSleepState ∨ (m.modify t f u).state = xtThreadRunState := by
  by_cases hu : u = t
  · subst hu
    rwa [Threads.modify_self]
  · rw [Threads.modify_of_ne hu]
    exact h u

/-- A step keeps the waiters pending, unless it wakes one that is not yet asleep. -/
theorem step_invariant {a : Action} (h : Invariant s) (hstep : Step s a s')
    (hgood : s.WakesSleeper a) : Invariant s' := by
  cases hstep with
  | lock hp hbusy hnode => exact tryLock_invariant h hp
  | @sleep t node hp =>
    have hnot : ∀ n v, s.place t ≠ .waking n v := by
      intro n v heq
      rw [heq] at hp
      cases hp
    refine h.goTo (modify_state t (.inl rfl) h.state) (fun u hu hs => ?_)
      (fun u n _ _ _ hu => ?_) fun n hn heq => ?_
    · rwa [Threads.modify_of_ne hu] at hs
    · exact Pending.goTo hu (hnot n u) .inl
    · obtain heq | heq := heq
      · cases heq
      · cases heq
        exact Pending.goTo (h.gap t node hp hn) (hnot node t) .inl
  | @resume t node hp hruns =>
    refine h.goTo h.state (fun _ _ => id) (fun u n _ _ _ hu => ?_) (by simp)
    refine Pending.goTo hu (fun heq => ?_) .inl
    rw [heq] at hp
    cases hp
  | unlock hp hbusy => exact unlock_invariant h hp
  | @wake t node next hp =>
    have hrun := xtWakeUpThread_runs (h.state next)
    refine h.goTo (modify_state next (.inr hrun) h.state) (fun u hu hs => ?_)
      (fun u n hu hn hplace hpend => ?_) (by simp)
    · by_cases hnext : u = next
      · rw [hnext, Threads.modify_self, hrun] at hs
        cases hs
      · rwa [Threads.modify_of_ne hnext] at hs
    · refine Pending.goTo hpend (fun heq => ?_) .inl
      -- the thread woken is `u` itself, for the node it registered
      rw [hp] at heq
      cases heq
      obtain hgap | ⟨-, hs⟩ := hplace
      · exact hgood t node next rfl hp hgap
      · rw [Threads.modify_self, hrun] at hs
        cases hs
  | @release t hp =>
    refine h.goTo h.state (fun _ _ => id) (fun u n _ _ _ hu => ?_) (by simp)
    refine Pending.goTo hu (fun heq => ?_) .inl
    rw [heq] at hp
    cases hp
  | tick t =>
    have hstate : (wakeUpPass (s.thread t)).state = xtThreadSleepState ∨
        (wakeUpPass (s.thread t)).state = xtThreadRunState := by
      obtain hsame | hrun := wakeUpPass_state (h.state t)
      · rw [hsame]
        exact h.state t
      · exact .inr hrun
    refine ⟨modify_state t hstate h.state, h.gap, fun u node hu hnode hs => ?_⟩
    refine h.asleep u node hu hnode ?_
    by_cases hut : u = t
    · subst hut
      dsimp only at hs
      rw [Threads.modify_self] at hs
      obtain hsame | hrun := wakeUpPass_state (h.state u)
      · rw [← hsame, hs]
      · rw [hrun] at hs
        cases hs
    · dsimp only at hs
      rwa [Threads.modify_of_ne hut] at hs

/-! ### Runs -/

/-- The steps that do not wake a thread before it sleeps. -/
def GoodStep (s s' : State) : Prop := ∃ a, Step s a s' ∧ s.WakesSleeper a

/-- No wake-up is lost in a run in which no thread is woken between its registration and its
    update of its state. -/
theorem no_lost_wakeup (h : Reachable State.Initial GoodStep s) : ¬ s.Lost := by
  refine Invariant.not_lost (h.invariant (fun _ h0 => h0.invariant) fun s s' hs hstep => ?_)
  obtain ⟨a, hstep, hgood⟩ := hstep
  exact step_invariant hs hstep hgood

/-- A new mutex and running threads. -/
def fresh : State :=
  ⟨⟨false, none, []⟩, fun _ => ⟨0, 0, xtThreadRunState, 20, 20, 0, 0, []⟩, fun _ => .outside⟩

theorem fresh_initial : fresh.Initial := ⟨rfl, fun _ => rfl, fun _ => rfl⟩

theorem wakesSleeper_of_ne {a : Action} (h : ∀ t, a ≠ .wake t) : s.WakesSleeper a :=
  fun t _ _ ha => absurd ha (h t)

/-- A waiter that is asleep when it is woken. -/
theorem no_lost_wakeup_asleep :
    ∃ s, Reachable State.Initial GoodStep s ∧ s.place 2 = .asleep 8 ∧
      (s.thread 2).runs = true ∧ ¬ s.Lost := by
  have hstart : Reachable State.Initial GoodStep fresh := .start fresh_initial
  have hrun := (((hstart.next
    ⟨.lock 1 0, .lock (.inl rfl) rfl fun _ => List.not_mem_nil, wakesSleeper_of_ne nofun⟩).next
    ⟨.lock 2 8, .lock (.inl rfl) rfl fun _ => List.not_mem_nil, wakesSleeper_of_ne nofun⟩).next
    ⟨.sleep 2, .sleep rfl, wakesSleeper_of_ne nofun⟩).next
    ⟨.unlock 1, .unlock rfl rfl, wakesSleeper_of_ne nofun⟩
  have hlast := hrun.next ⟨.wake 1, .wake rfl, fun t node next ha hp => by
    cases ha
    cases hp
    exact nofun⟩
  exact ⟨_, hlast, rfl, rfl, no_lost_wakeup hlast⟩

/-- Thread 2 registers, thread 1 unlocks the mutex and wakes it, and then it goes to sleep. -/
theorem wakeup_lost_in_gap :
    ∃ s, Reachable State.Initial (fun s s' => ∃ a, Step s a s') s ∧ s.Lost := by
  have hstart : Reachable State.Initial (fun s s' => ∃ a, Step s a s') fresh :=
    .start fresh_initial
  have hrun := ((((hstart.next ⟨.lock 1 0, .lock (.inl rfl) rfl fun _ => List.not_mem_nil⟩).next
    ⟨.lock 2 8, .lock (.inl rfl) rfl fun _ => List.not_mem_nil⟩).next
    ⟨.unlock 1, .unlock rfl rfl⟩).next ⟨.wake 1, .wake rfl⟩).next ⟨.sleep 2, .sleep rfl⟩
  refine ⟨_, hrun, rfl, 2, 8, rfl, by decide, rfl, List.not_mem_nil, fun u n hu => ?_⟩
  -- both threads are past the call of the other places, and nobody else has moved
  obtain ⟨-, hu⟩ | ⟨hne₂, hu⟩ := place_goTo hu
  · cases hu
  obtain ⟨-, hu⟩ | ⟨hne₁, hu⟩ := place_goTo hu
  · cases hu
  have hplace : (unlock (tryLock (tryLock fresh 1 0) 2 8) 1).place u = .outside :=
    (Function.update_of_ne hne₁ _ _).trans
      ((Function.update_of_ne hne₂ _ _).trans (Function.update_of_ne hne₁ _ _))
  rw [hplace] at hu
  cases hu

end XTOS.Mutex

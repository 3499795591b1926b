import XTOS.Lib.Run
import XTOS.Result

/-!
# Reader-writer locks

`XTRWLock` of `xtkernel/rwlock.c` used by any number of threads. Each part of the
code that runs under the spinlock is one step; a thread that goes to sleep leaves
the spinlock, switches away, and re-checks the lock once the scheduler runs it again.

## Main definitions

- `XTRWLock`, `XTThread` — the lock's counter and wait lists, a thread's state
- `rwSleep`, `rwWakeOne`, `rwWakeAll` — the queue operations
- `State.step` — the interleaving of calls, checks, switches and releases
- `State.CounterMatches` — the counter agrees with the holders
- `State.NoStranded`, `State.AsleepIffListed` — no waiter is forgotten

## Design notes

The holders are recorded beside the lock. A thread may take the read lock again
while it holds it, so a thread holds the lock some number of times.
-/

namespace XTOS.RWLock

open SysLib

/-- The low bits of `XTThread.state`. -/
inductive ThreadState where
  | sleep
  | run
  | loaded
  | terminated
  | wait
  | interruptable
  deriving DecidableEq, Repr

/-- The part of a thread record the lock reads and writes: the user bit `0x80` of the
    state byte and the state proper. -/
structure XTThread where
  user : Bool
  state : ThreadState
  deriving DecidableEq, Repr

/-- The lock: `readers` counts the readers, and is `-1` while a writer holds it. -/
structure XTRWLock (Tid : Type) where
  readers : ℤ
  waitReaders : List Tid
  waitWriters : List Tid
  deriving DecidableEq, Repr

variable {Tid : Type}

/-- `xtInitRWLock`. -/
def xtInitRWLock : XTRWLock Tid := ⟨0, [], []⟩

section

variable [DecidableEq Tid]

/-- Replace the state of thread `t`, keeping its user bit. -/
def setState (threads : Tid → XTThread) (t : Tid) (st : ThreadState) : Tid → XTThread :=
  Function.update threads t { threads t with state := st }

/-- `rwSleep`: append the current thread to the queue and mark it waiting. -/
def rwSleep (queue : List Tid) (threads : Tid → XTThread) (t : Tid) :
    List Tid × (Tid → XTThread) :=
  (queue ++ [t], setState threads t .wait)

/-- `rwWakeAll`: every queued thread becomes runnable and the queue is emptied. -/
def rwWakeAll (queue : List Tid) (threads : Tid → XTThread) : List Tid × (Tid → XTThread) :=
  ([], queue.foldl (fun th t => setState th t .run) threads)

/-- `rwWakeOne`: the first queued thread becomes runnable and leaves the queue. -/
def rwWakeOne (queue : List Tid) (threads : Tid → XTThread) : List Tid × (Tid → XTThread) :=
  match queue with
  | [] => ([], threads)
  | t :: next => (next, setState threads t .run)

end

/-- Where a thread is: outside the lock's code, before its first check, or asleep
    (`switched` tells whether it has left the processor since it released the
    spinlock). -/
inductive Pc where
  | idle
  | acquireRead
  | sleptRead (switched : Bool)
  | acquireWrite
  | sleptWrite (switched : Bool)
  deriving DecidableEq, Repr

/-- One lock with the threads that use it, and how often each of them holds it. -/
structure State (Tid : Type) where
  lock : XTRWLock Tid
  threads : Tid → XTThread
  pc : Tid → Pc
  readHolds : Tid → ℕ
  writeHolds : Tid → ℕ

/-- What a thread can do next. `other` is anything the kernel does to the state of a
    thread that is not asleep on the lock. -/
inductive Action (Tid : Type) where
  | callRead (t : Tid)
  | callWrite (t : Tid)
  | checkRead (t : Tid)
  | checkWrite (t : Tid)
  | switch (t : Tid)
  | releaseRead (t : Tid)
  | releaseWrite (t : Tid)
  | other (t : Tid) (st : ThreadState)

section

variable [DecidableEq Tid]

/-- The loop test of `xtAcquireRead` by thread `t`: sleep or count one reader more. The
    counter is a 32-bit integer. -/
def xtAcquireRead (s : State Tid) (t : Tid) : State Tid :=
  if s.lock.readers = -1 ∨ s.lock.waitWriters ≠ [] then
    let (queue, threads) := rwSleep s.lock.waitReaders s.threads t
    { s with
      lock := { s.lock with waitReaders := queue }
      threads := threads
      pc := Function.update s.pc t (.sleptRead false) }
  else
    { s with
      lock := { s.lock with readers := Int.bmod (s.lock.readers + 1) (2 ^ 32) }
      pc := Function.update s.pc t .idle
      readHolds := Function.update s.readHolds t (s.readHolds t + 1) }

/-- The loop test of `xtAcquireWrite` by thread `t`. -/
def xtAcquireWrite (s : State Tid) (t : Tid) : State Tid :=
  if s.lock.readers ≠ 0 then
    let (queue, threads) := rwSleep s.lock.waitWriters s.threads t
    { s with
      lock := { s.lock with waitWriters := queue }
      threads := threads
      pc := Function.update s.pc t (.sleptWrite false) }
  else
    { s with
      lock := { s.lock with readers := -1 }
      pc := Function.update s.pc t .idle
      writeHolds := Function.update s.writeHolds t (s.writeHolds t + 1) }

/-- `xtReleaseRead` by thread `t`: the last reader wakes one writer. -/
def xtReleaseRead (s : State Tid) (t : Tid) : State Tid :=
  let readers := Int.bmod (s.lock.readers - 1) (2 ^ 32)
  let readHolds := Function.update s.readHolds t (s.readHolds t - 1)
  if readers = 0 then
    let (queue, threads) := rwWakeOne s.lock.waitWriters s.threads
    { s with
      lock := { s.lock with readers := readers, waitWriters := queue }
      threads := threads
      readHolds := readHolds }
  else { s with lock := { s.lock with readers := readers }, readHolds := readHolds }

/-- `xtReleaseWrite` by thread `t`: writers first, and all readers if there is none. -/
def xtReleaseWrite (s : State Tid) (t : Tid) : State Tid :=
  let writeHolds := Function.update s.writeHolds t (s.writeHolds t - 1)
  if s.lock.waitWriters ≠ [] then
    let (queue, threads) := rwWakeOne s.lock.waitWriters s.threads
    { s with
      lock := { s.lock with readers := 0, waitWriters := queue }
      threads := threads
      writeHolds := writeHolds }
  else
    let (queue, threads) := rwWakeAll s.lock.waitReaders s.threads
    { s with
      lock := { s.lock with readers := 0, waitReaders := queue }
      threads := threads
      writeHolds := writeHolds }

/-- Thread `t` runs: the scheduler picks threads in the run state only. -/
def State.running (s : State Tid) (t : Tid) : Prop := (s.threads t).state = .run

instance (s : State Tid) (t : Tid) : Decidable (s.running t) :=
  inferInstanceAs (Decidable (_ = _))

/-- A reader that checks the lock goes to sleep. -/
def State.readerWaits (s : State Tid) : Prop := s.lock.readers = -1 ∨ s.lock.waitWriters ≠ []

instance (s : State Tid) : Decidable s.readerWaits := inferInstanceAs (Decidable (_ ∨ _))

/-- One step of a run. A sleeping thread may be preempted or woken before it gets to
    `xtSwitchToThread`, and checks the lock again only when it runs. Releases are made
    by holders, and at most `2 ^ 31 - 1` readers hold the lock. -/
def State.step (s : State Tid) : Action Tid → Option (State Tid)
  | .callRead t => if s.pc t = .idle ∧ s.running t then
      some { s with pc := Function.update s.pc t .acquireRead } else none
  | .callWrite t => if s.pc t = .idle ∧ s.running t then
      some { s with pc := Function.update s.pc t .acquireWrite } else none
  | .checkRead t =>
      if (s.pc t = .acquireRead ∨ s.pc t = .sleptRead true) ∧ s.running t ∧
        (s.readerWaits ∨ s.lock.readers < 2 ^ 31 - 1) then some (xtAcquireRead s t) else none
  | .checkWrite t =>
      if (s.pc t = .acquireWrite ∨ s.pc t = .sleptWrite true) ∧ s.running t then
        some (xtAcquireWrite s t) else none
  | .switch t => match s.pc t with
      | .sleptRead false => some { s with pc := Function.update s.pc t (.sleptRead true) }
      | .sleptWrite false => some { s with pc := Function.update s.pc t (.sleptWrite true) }
      | _ => none
  | .releaseRead t => if s.pc t = .idle ∧ s.running t ∧ 0 < s.readHolds t then
      some (xtReleaseRead s t) else none
  | .releaseWrite t => if s.pc t = .idle ∧ s.running t ∧ 0 < s.writeHolds t then
      some (xtReleaseWrite s t) else none
  | .other t st => match s.pc t with
      | .sleptRead _ | .sleptWrite _ => none
      | _ => some { s with threads := setState s.threads t st }

/-- Any step of the system. -/
def State.Step (s s' : State Tid) : Prop := ∃ a, s.step a = some s'

end

/-- What a step does to the state, by the code it runs. -/
inductive State.Move [DecidableEq Tid] (s : State Tid) : State Tid → Prop
  | call (t : Tid) (c : Pc) (hpc : s.pc t = .idle) (hrun : s.running t)
      (hc : c = .acquireRead ∨ c = .acquireWrite) :
      Move s { s with pc := Function.update s.pc t c }
  | checkRead (t : Tid) (hpc : s.pc t = .acquireRead ∨ s.pc t = .sleptRead true)
      (hrun : s.running t) (hroom : s.readerWaits ∨ s.lock.readers < 2 ^ 31 - 1) :
      Move s (xtAcquireRead s t)
  | checkWrite (t : Tid) (hpc : s.pc t = .acquireWrite ∨ s.pc t = .sleptWrite true)
      (hrun : s.running t) : Move s (xtAcquireWrite s t)
  | switchRead (t : Tid) (hpc : s.pc t = .sleptRead false) :
      Move s { s with pc := Function.update s.pc t (.sleptRead true) }
  | switchWrite (t : Tid) (hpc : s.pc t = .sleptWrite false) :
      Move s { s with pc := Function.update s.pc t (.sleptWrite true) }
  | releaseRead (t : Tid) (hpc : s.pc t = .idle) (hrun : s.running t)
      (hh : 0 < s.readHolds t) : Move s (xtReleaseRead s t)
  | releaseWrite (t : Tid) (hpc : s.pc t = .idle) (hrun : s.running t)
      (hh : 0 < s.writeHolds t) : Move s (xtReleaseWrite s t)
  | other (t : Tid) (st : ThreadState) (hr : ∀ b, s.pc t ≠ .sleptRead b)
      (hw : ∀ b, s.pc t ≠ .sleptWrite b) : Move s { s with threads := setState s.threads t st }

theorem State.Step.move [DecidableEq Tid] {s s' : State Tid} (hs : s.Step s') : s.Move s' := by
  obtain ⟨a, ha⟩ := hs
  cases a with
  | switch t =>
    simp only [State.step] at ha
    split at ha
    · rename_i hpc
      cases ha
      exact .switchRead t hpc
    · rename_i hpc
      cases ha
      exact .switchWrite t hpc
    · cases ha
  | other t st =>
    simp only [State.step] at ha
    split at ha
    · cases ha
    · cases ha
    · rename_i hr hw
      cases ha
      exact .other t st hr hw
  | callRead t =>
    simp only [State.step, Option.ite_none_right_eq_some, Option.some.injEq] at ha
    obtain ⟨⟨hpc, hrun⟩, rfl⟩ := ha
    exact .call t _ hpc hrun (.inl rfl)
  | callWrite t =>
    simp only [State.step, Option.ite_none_right_eq_some, Option.some.injEq] at ha
    obtain ⟨⟨hpc, hrun⟩, rfl⟩ := ha
    exact .call t _ hpc hrun (.inr rfl)
  | checkRead t =>
    simp only [State.step, Option.ite_none_right_eq_some, Option.some.injEq] at ha
    obtain ⟨⟨hpc, hrun, hlt⟩, rfl⟩ := ha
    exact .checkRead t hpc hrun hlt
  | checkWrite t =>
    simp only [State.step, Option.ite_none_right_eq_some, Option.some.injEq] at ha
    obtain ⟨⟨hpc, hrun⟩, rfl⟩ := ha
    exact .checkWrite t hpc hrun
  | releaseRead t =>
    simp only [State.step, Option.ite_none_right_eq_some, Option.some.injEq] at ha
    obtain ⟨⟨hpc, hrun, hh⟩, rfl⟩ := ha
    exact .releaseRead t hpc hrun hh
  | releaseWrite t =>
    simp only [State.step, Option.ite_none_right_eq_some, Option.some.injEq] at ha
    obtain ⟨⟨hpc, hrun, hh⟩, rfl⟩ := ha
    exact .releaseWrite t hpc hrun hh

/-- A fresh lock that no thread uses. -/
def State.Initial (s : State Tid) : Prop :=
  s.lock = xtInitRWLock ∧ (∀ t, s.pc t = .idle) ∧
    (∀ t, s.readHolds t = 0) ∧ ∀ t, s.writeHolds t = 0

/-! ### The counter and the holders -/

section

variable [Fintype Tid]

/-- The counter is `-1` when one thread holds the lock once for writing and nobody
    for reading, and otherwise counts the read holds. -/
def State.Counted (s : State Tid) : Prop :=
  (s.lock.readers = -1 ∧ ∑ t, s.writeHolds t = 1 ∧ ∑ t, s.readHolds t = 0) ∨
  (s.lock.readers = (∑ t, s.readHolds t : ℕ) ∧ s.lock.readers ≤ 2 ^ 31 - 1 ∧
    ∑ t, s.writeHolds t = 0)

theorem le_sum (f : Tid → ℕ) (t : Tid) : f t ≤ ∑ u, f u :=
  Finset.single_le_sum (fun _ _ => Nat.zero_le _) (Finset.mem_univ t)

theorem sum_eq_zero_iff (f : Tid → ℕ) : ∑ t, f t = 0 ↔ ∀ t, f t = 0 := by
  simp

theorem State.Initial.counted {s : State Tid} (h : s.Initial) : s.Counted := by
  obtain ⟨hl, -, hr, hw⟩ := h
  refine .inr ⟨?_, ?_, ?_⟩
  · simp [hl, hr, xtInitRWLock]
  · simp [hl, xtInitRWLock]
  · simp [hw]

variable [DecidableEq Tid]

theorem sum_update (f : Tid → ℕ) (t : Tid) (v : ℕ) :
    ∑ u, Function.update f t v u + f t = ∑ u, f u + v := by
  have h1 := Finset.sum_update_of_mem (Finset.mem_univ t) f v
  have h2 := Finset.sum_erase_add Finset.univ f (Finset.mem_univ t)
  rw [Finset.sdiff_singleton_eq_erase] at h1
  omega

theorem bmod_small {n : ℤ} (h0 : 0 ≤ n) (h1 : n ≤ 2 ^ 31 - 1) : Int.bmod n (2 ^ 32) = n :=
  Int.bmod_eq_of_le (by omega) (by omega)

theorem State.Counted.acquireRead {s : State Tid} (h : s.Counted) (t : Tid)
    (hroom : s.readerWaits ∨ s.lock.readers < 2 ^ 31 - 1) : (xtAcquireRead s t).Counted := by
  unfold xtAcquireRead
  split
  · exact h
  · rename_i hfree
    have hlt := hroom.resolve_left hfree
    obtain ⟨hneg, -⟩ | ⟨hr, -, hw⟩ := h
    · exact absurd (.inl hneg) hfree
    have hsum := sum_update s.readHolds t (s.readHolds t + 1)
    have hsmall := @bmod_small (s.lock.readers + 1) (by omega) (by omega)
    refine .inr ⟨?_, ?_, hw⟩
    · dsimp only
      rw [hsmall]
      omega
    · dsimp only
      rw [hsmall]
      omega

theorem State.Counted.acquireWrite {s : State Tid} (h : s.Counted) (t : Tid) :
    (xtAcquireWrite s t).Counted := by
  unfold xtAcquireWrite
  split
  · exact h
  · rename_i hzero
    rw [not_not] at hzero
    obtain ⟨hneg, -⟩ | ⟨hr, -, hw⟩ := h
    · omega
    have hsum := sum_update s.writeHolds t (s.writeHolds t + 1)
    refine .inl ⟨rfl, ?_, ?_⟩
    · dsimp only
      omega
    · dsimp only
      omega

theorem State.Counted.releaseRead {s : State Tid} (h : s.Counted) {t : Tid}
    (hh : 0 < s.readHolds t) : (xtReleaseRead s t).Counted := by
  have hle := le_sum s.readHolds t
  obtain ⟨-, -, hz⟩ | ⟨hr, hmax, hw⟩ := h
  · omega
  have hsum := sum_update s.readHolds t (s.readHolds t - 1)
  have hsmall := @bmod_small (s.lock.readers - 1) (by omega) (by omega)
  unfold xtReleaseRead
  dsimp only
  rw [hsmall]
  split
  · refine .inr ⟨?_, ?_, hw⟩
    · dsimp only
      omega
    · dsimp only
      omega
  · refine .inr ⟨?_, ?_, hw⟩
    · dsimp only
      omega
    · dsimp only
      omega

theorem State.Counted.releaseWrite {s : State Tid} (h : s.Counted) {t : Tid}
    (hh : 0 < s.writeHolds t) : (xtReleaseWrite s t).Counted := by
  have hle := le_sum s.writeHolds t
  obtain ⟨-, hw, hz⟩ | ⟨-, -, hw⟩ := h
  · have hsum := sum_update s.writeHolds t (s.writeHolds t - 1)
    unfold xtReleaseWrite
    split
    · refine .inr ⟨?_, ?_, ?_⟩
      · simp [hz]
      · simp
      · dsimp only
        omega
    · refine .inr ⟨?_, ?_, ?_⟩
      · simp [hz]
      · simp
      · dsimp only
        omega
  · omega

theorem State.Move.counted {s s' : State Tid} (hs : s.Move s') (h : s.Counted) :
    s'.Counted := by
  cases hs with
  | call t c _ _ _ => exact h
  | checkRead t _ _ hlt => exact h.acquireRead t hlt
  | checkWrite t _ _ => exact h.acquireWrite t
  | switchRead t _ => exact h
  | switchWrite t _ => exact h
  | releaseRead t _ _ hh => exact h.releaseRead hh
  | releaseWrite t _ _ hh => exact h.releaseWrite hh
  | other t st _ _ => exact h

/-- The counter tells who holds the lock: `-1` for exactly one writer and no reader, and
    `n` for `n` read holds and no writer. Where no thread holds the lock twice, the read
    holds are the reading threads. -/
def State.CounterMatches (s : State Tid) : Prop :=
  (s.lock.readers = -1 ↔
    (∃ t, s.writeHolds t = 1 ∧ ∀ u, u ≠ t → s.writeHolds u = 0) ∧
      ∀ u, s.readHolds u = 0) ∧
  (∀ n : ℕ, s.lock.readers = n ↔
    ∑ t, s.readHolds t = n ∧ ∀ u, s.writeHolds u = 0) ∧
  ((∀ t, s.readHolds t ≤ 1) →
    ∑ t, s.readHolds t = (Finset.univ.filter fun t => 0 < s.readHolds t).card)

theorem sum_eq_one_iff (f : Tid → ℕ) :
    ∑ t, f t = 1 ↔ ∃ t, f t = 1 ∧ ∀ u, u ≠ t → f u = 0 := by
  constructor
  · intro h
    obtain ⟨t, -, ht⟩ : ∃ t ∈ Finset.univ, f t ≠ 0 := by
      apply Finset.exists_ne_zero_of_sum_ne_zero
      omega
    have hle := le_sum f t
    have hsum := sum_update f t 0
    refine ⟨t, by omega, fun u hu => ?_⟩
    have hu' := le_sum (Function.update f t 0) u
    rw [Function.update_of_ne hu] at hu'
    omega
  · rintro ⟨t, ht, hz⟩
    rw [Finset.sum_eq_single t (fun u _ hu => hz u hu) (fun h => absurd (Finset.mem_univ t) h),
      ht]

theorem State.Counted.counterMatches {s : State Tid} (h : s.Counted) : s.CounterMatches := by
  refine ⟨?_, ?_, ?_⟩
  · rw [← sum_eq_one_iff, ← sum_eq_zero_iff]
    unfold State.Counted at h
    omega
  · intro n
    rw [← sum_eq_zero_iff]
    unfold State.Counted at h
    omega
  · intro hle
    rw [Finset.card_filter]
    apply Finset.sum_congr rfl
    intro t _
    have := hle t
    split <;> omega

/-- **The counter and the holders**: they agree in every reachable state. -/
theorem counterMatches_of_reachable {s : State Tid}
    (h : Reachable State.Initial State.Step s) : s.CounterMatches :=
  State.Counted.counterMatches (h.invariant (fun _ => State.Initial.counted)
    (fun _ _ hi hs => hs.move.counted hi))

end

/-- `n` idle threads on a fresh lock. -/
def idleThreads (n : ℕ) : State (Fin n) :=
  ⟨xtInitRWLock, fun _ => ⟨false, .run⟩, fun _ => .idle, fun _ => 0, fun _ => 0⟩

theorem idleThreads_reachable (n : ℕ) : Reachable State.Initial State.Step (idleThreads n) :=
  .start ⟨rfl, fun _ => rfl, fun _ => rfl, fun _ => rfl⟩

/-- The first of two threads has taken the read lock. -/
theorem counterMatches_one_reader : ∃ s : State (Fin 2),
    Reachable State.Initial State.Step s ∧ s.lock.readers = 1 ∧ s.readHolds 0 = 1 ∧
      s.CounterMatches := by
  have h1 := (idleThreads_reachable 2).next ⟨.callRead 0, rfl⟩
  have h2 := h1.next ⟨.checkRead 0, rfl⟩
  exact ⟨_, h2, rfl, rfl, counterMatches_of_reachable h2⟩

/-! ### The waiters -/

/-- A writer that was woken and has not checked the lock since. -/
def State.Pending (s : State Tid) (t : Tid) : Prop :=
  (∃ b, s.pc t = .sleptWrite b) ∧ (s.threads t).state = .run ∧ t ∉ s.lock.waitWriters

/-- While the lock is free and somebody waits, a woken writer is still to check it. -/
def State.NoStranded (s : State Tid) : Prop :=
  s.lock.readers = 0 → s.lock.waitReaders ≠ [] ∨ s.lock.waitWriters ≠ [] → ∃ t, s.Pending t

/-- A thread that went to sleep on the lock is on a wait list exactly while its state
    is the wait state; once it is off the list it is runnable. -/
def State.AsleepIffListed (s : State Tid) : Prop :=
  ∀ t, (∃ b, s.pc t = .sleptRead b ∨ s.pc t = .sleptWrite b) →
    (t ∈ s.lock.waitReaders ∨ t ∈ s.lock.waitWriters ↔ (s.threads t).state = .wait) ∧
    (t ∉ s.lock.waitReaders ∧ t ∉ s.lock.waitWriters ↔ (s.threads t).state = .run)

/-- The wait lists hold the sleeping threads, each on the list of its kind. -/
structure State.Queued (s : State Tid) : Prop where
  reader_iff : ∀ t, t ∈ s.lock.waitReaders ↔
    (∃ b, s.pc t = .sleptRead b) ∧ (s.threads t).state = .wait
  writer_iff : ∀ t, t ∈ s.lock.waitWriters ↔
    (∃ b, s.pc t = .sleptWrite b) ∧ (s.threads t).state = .wait
  awake : ∀ t, (∃ b, s.pc t = .sleptRead b ∨ s.pc t = .sleptWrite b) →
    (s.threads t).state = .wait ∨ (s.threads t).state = .run
  writers_nodup : s.lock.waitWriters.Nodup

/-- Somebody answers for each wait list: unless a writer holds the lock, waiting
    readers have a waiting or a woken writer before them, and waiting writers on a free
    lock have a woken one. -/
structure State.Answered (s : State Tid) : Prop where
  readers : 0 ≤ s.lock.readers → s.lock.waitReaders ≠ [] →
    s.lock.waitWriters ≠ [] ∨ ∃ t, s.Pending t
  writers : s.lock.readers = 0 → s.lock.waitWriters ≠ [] → ∃ t, s.Pending t

theorem State.Answered.noStranded {s : State Tid} (h : s.Answered) : s.NoStranded := by
  intro hfree hwait
  by_cases hw : s.lock.waitWriters = []
  · have hr : s.lock.waitReaders ≠ [] := hwait.resolve_right (fun h => h hw)
    exact (h.readers (by omega) hr).resolve_left (fun h => h hw)
  · exact h.writers hfree hw

theorem State.Queued.asleepIffListed {s : State Tid} (h : s.Queued) : s.AsleepIffListed := by
  rintro t ⟨b, hb⟩
  have hst := h.awake t ⟨b, hb⟩
  rw [h.reader_iff, h.writer_iff]
  obtain hb | hb := hb <;> obtain hst | hst := hst <;> simp [hb, hst]

/-- A thread that runs is on neither list. -/
theorem State.Queued.not_mem_of_running {s : State Tid} (h : s.Queued) {t : Tid}
    (hrun : s.running t) : t ∉ s.lock.waitReaders ∧ t ∉ s.lock.waitWriters := by
  have hne : (s.threads t).state ≠ .wait := by
    rw [show (s.threads t).state = .run from hrun]
    decide
  exact ⟨fun hm => hne ((h.reader_iff t).mp hm).2, fun hm => hne ((h.writer_iff t).mp hm).2⟩

theorem State.Initial.queued {s : State Tid} (h : s.Initial) : s.Queued := by
  obtain ⟨hl, hpc, -, -⟩ := h
  refine ⟨fun t => ?_, fun t => ?_, fun t ht => ?_, ?_⟩
  · simp [hl, hpc, xtInitRWLock]
  · simp [hl, hpc, xtInitRWLock]
  · simp [hpc] at ht
  · simp [hl, xtInitRWLock]

/-- A woken writer stays pending while its position, its state and its absence from the
    wait list last. -/
theorem State.Pending.mono {s s' : State Tid} {t : Tid} (h : s.Pending t)
    (hpc : ∀ b, s.pc t = .sleptWrite b → ∃ b', s'.pc t = .sleptWrite b')
    (hst : (s.threads t).state = .run → (s'.threads t).state = .run)
    (hw : t ∈ s'.lock.waitWriters → t ∈ s.lock.waitWriters) : s'.Pending t := by
  obtain ⟨⟨b, hb⟩, hrun, hnw⟩ := h
  exact ⟨hpc b hb, hst hrun, fun hm => hnw (hw hm)⟩

/-- A step that leaves the lock alone and keeps the woken writers keeps the answer. -/
theorem State.Answered.frame {s s' : State Tid} (h : s.Answered) (hl : s'.lock = s.lock)
    (hp : ∀ t, s.Pending t → s'.Pending t) : s'.Answered := by
  refine ⟨fun hr hne => ?_, fun hr hne => ?_⟩
  · rw [hl] at hr hne ⊢
    exact (h.readers hr hne).imp id (Exists.imp hp)
  · rw [hl] at hr hne
    exact (h.writers hr hne).imp hp

/-- A step of a thread that is not a sleeping writer, and that wakes nobody, leaves the
    woken writers pending. -/
theorem State.Pending.of_other {s s' : State Tid} {t u : Tid} (h : s.Pending u)
    (ht : ∀ b, s.pc t ≠ .sleptWrite b) (hpc : ∀ v, v ≠ t → s'.pc v = s.pc v)
    (hst : ∀ v, v ≠ t → s'.threads v = s.threads v)
    (hw : s'.lock.waitWriters = s.lock.waitWriters) : s'.Pending u := by
  have hut : u ≠ t := by
    rintro rfl
    obtain ⟨⟨b, hb⟩, -⟩ := h
    exact ht b hb
  refine h.mono (fun b hb => ⟨b, ?_⟩) (fun hr => ?_) (fun hm => ?_)
  · rw [hpc u hut, hb]
  · rw [hst u hut, hr]
  · rwa [hw] at hm

theorem State.Initial.answered {s : State Tid} (h : s.Initial) : s.Answered := by
  obtain ⟨hl, -, -, -⟩ := h
  refine ⟨fun _ hr => ?_, fun _ hw => ?_⟩
  · simp [hl, xtInitRWLock] at hr
  · simp [hl, xtInitRWLock] at hw

variable [DecidableEq Tid]

@[simp] theorem setState_self (th : Tid → XTThread) (t : Tid) (st : ThreadState) :
    (setState th t st t).state = st := by
  simp [setState]

@[simp] theorem setState_of_ne (th : Tid → XTThread) {t u : Tid} (st : ThreadState)
    (h : u ≠ t) : setState th t st u = th u := by
  simp [setState, h]

theorem rwWakeAll_state (queue : List Tid) (th : Tid → XTThread) (u : Tid) :
    ((rwWakeAll queue th).2 u).state = if u ∈ queue then .run else (th u).state := by
  simp only [rwWakeAll]
  induction queue generalizing th with
  | nil => simp
  | cons t queue ih =>
    rw [List.foldl_cons, ih]
    by_cases hu : u = t
    · subst u
      simp
    · simp [hu]

/-- Only whether a thread sleeps, and on which list, matters for the lists. -/
theorem State.Queued.setPc {s : State Tid} (h : s.Queued) {t : Tid} {c : Pc}
    (hr : (∃ b, c = .sleptRead b) ↔ ∃ b, s.pc t = .sleptRead b)
    (hw : (∃ b, c = .sleptWrite b) ↔ ∃ b, s.pc t = .sleptWrite b) :
    State.Queued { s with pc := Function.update s.pc t c } := by
  have hcr : ∀ u, (∃ b, Function.update s.pc t c u = .sleptRead b) ↔
      ∃ b, s.pc u = .sleptRead b := by
    intro u
    by_cases hu : u = t
    · subst u
      simpa using hr
    · simp [hu]
  have hcw : ∀ u, (∃ b, Function.update s.pc t c u = .sleptWrite b) ↔
      ∃ b, s.pc u = .sleptWrite b := by
    intro u
    by_cases hu : u = t
    · subst u
      simpa using hw
    · simp [hu]
  refine ⟨fun u => ?_, fun u => ?_, fun u hu => ?_, h.writers_nodup⟩
  · exact (h.reader_iff u).trans (and_congr_left' (hcr u).symm)
  · exact (h.writer_iff u).trans (and_congr_left' (hcw u).symm)
  · apply h.awake u
    rw [exists_or] at hu ⊢
    exact hu.imp (hcr u).mp (hcw u).mp

/-- A thread that gets the lock is on no wait list, and the lists stay as they are. -/
theorem State.Queued.acquired {s s' : State Tid} (h : s.Queued) {t : Tid} (hrun : s.running t)
    (hr : s'.lock.waitReaders = s.lock.waitReaders) (hw : s'.lock.waitWriters = s.lock.waitWriters)
    (ht : s'.threads = s.threads) (hpc : s'.pc = Function.update s.pc t .idle) : s'.Queued := by
  obtain ⟨hnr, hnw⟩ := h.not_mem_of_running hrun
  refine ⟨fun u => ?_, fun u => ?_, fun u hu => ?_, hw ▸ h.writers_nodup⟩
  · rw [hr, ht, hpc]
    by_cases hut : u = t
    · subst u
      simp [hnr]
    · simp [hut, h.reader_iff]
  · rw [hw, ht, hpc]
    by_cases hut : u = t
    · subst u
      simp [hnw]
    · simp [hut, h.writer_iff]
  · rw [hpc] at hu
    rw [ht]
    by_cases hut : u = t
    · subst u
      simp at hu
    · apply h.awake u
      simpa [hut] using hu

theorem State.Queued.acquireRead {s : State Tid} (h : s.Queued) {t : Tid}
    (hrun : s.running t) : (xtAcquireRead s t).Queued := by
  obtain ⟨hnr, hnw⟩ := h.not_mem_of_running hrun
  unfold xtAcquireRead
  split
  · refine ⟨fun u => ?_, fun u => ?_, fun u hu => ?_, h.writers_nodup⟩
    · by_cases hu : u = t
      · subst u
        simp [rwSleep]
      · simp [rwSleep, hu, h.reader_iff]
    · by_cases hu : u = t
      · subst u
        simp [rwSleep, hnw]
      · simp [rwSleep, hu, h.writer_iff]
    · by_cases hut : u = t
      · subst u
        simp [rwSleep]
      · simp only [rwSleep, ne_eq, hut, not_false_eq_true, setState_of_ne]
        apply h.awake u
        simpa [hut] using hu
  · exact h.acquired hrun rfl rfl rfl rfl

theorem State.Queued.acquireWrite {s : State Tid} (h : s.Queued) {t : Tid}
    (hrun : s.running t) : (xtAcquireWrite s t).Queued := by
  obtain ⟨hnr, hnw⟩ := h.not_mem_of_running hrun
  unfold xtAcquireWrite
  split
  · refine ⟨fun u => ?_, fun u => ?_, fun u hu => ?_, ?_⟩
    · by_cases hu : u = t
      · subst u
        simp [rwSleep, hnr]
      · simp [rwSleep, hu, h.reader_iff]
    · by_cases hu : u = t
      · subst u
        simp [rwSleep]
      · simp [rwSleep, hu, h.writer_iff]
    · by_cases hut : u = t
      · subst u
        simp [rwSleep]
      · simp only [rwSleep, ne_eq, hut, not_false_eq_true, setState_of_ne]
        apply h.awake u
        simpa [hut] using hu
    · exact List.nodup_append.mpr ⟨h.writers_nodup, List.nodup_singleton t, by
        rintro a ha b hb rfl
        rw [List.mem_singleton] at hb
        exact hnw (hb ▸ ha)⟩
  · exact h.acquired hrun rfl rfl rfl rfl

/-- Waking the first writer takes it off its list and out of the wait state. -/
theorem State.Queued.wakeOne {s s' : State Tid} (h : s.Queued)
    (hw : s'.lock.waitWriters = (rwWakeOne s.lock.waitWriters s.threads).1)
    (ht : s'.threads = (rwWakeOne s.lock.waitWriters s.threads).2)
    (hr : s'.lock.waitReaders = s.lock.waitReaders) (hpc : s'.pc = s.pc) : s'.Queued := by
  have hnd := h.writers_nodup
  have hwi := h.writer_iff
  cases hq : s.lock.waitWriters with
  | nil =>
    rw [hq] at hw ht
    change s'.lock.waitWriters = [] at hw
    change s'.threads = s.threads at ht
    refine ⟨?_, ?_, ?_, ?_⟩
    · rw [hr, hpc, ht]
      exact h.reader_iff
    · rw [hw, hpc, ht, ← hq]
      exact h.writer_iff
    · rw [hpc, ht]
      exact h.awake
    · rw [hw]
      exact List.nodup_nil
  | cons t next =>
    rw [hq] at hw ht hnd hwi
    change s'.lock.waitWriters = next at hw
    change s'.threads = setState s.threads t .run at ht
    obtain ⟨⟨b, hb⟩, -⟩ := (hwi t).mp List.mem_cons_self
    obtain ⟨hnt, hnd⟩ := List.nodup_cons.mp hnd
    refine ⟨fun u => ?_, fun u => ?_, fun u hu => ?_, ?_⟩
    · rw [hr, hpc, ht]
      by_cases hu : u = t
      · subst u
        simp [h.reader_iff, hb]
      · simp [hu, h.reader_iff]
    · rw [hw, hpc, ht]
      by_cases hu : u = t
      · subst u
        simp [hnt]
      · rw [setState_of_ne _ _ hu, ← hwi u]
        simp [hu]
    · rw [hpc] at hu
      rw [ht]
      by_cases hut : u = t
      · subst u
        simp
      · rw [setState_of_ne _ _ hut]
        exact h.awake u hu
    · rw [hw]
      exact hnd

theorem State.Queued.releaseRead {s : State Tid} (h : s.Queued) (t : Tid) :
    (xtReleaseRead s t).Queued := by
  unfold xtReleaseRead
  dsimp only
  split
  · exact h.wakeOne rfl rfl rfl rfl
  · exact ⟨h.reader_iff, h.writer_iff, h.awake, h.writers_nodup⟩

theorem State.Queued.releaseWrite {s : State Tid} (h : s.Queued) (t : Tid) :
    (xtReleaseWrite s t).Queued := by
  unfold xtReleaseWrite
  split
  · exact h.wakeOne rfl rfl rfl rfl
  · refine ⟨fun u => ?_, fun u => ?_, fun u hu => ?_, h.writers_nodup⟩
    · dsimp only
      rw [rwWakeAll_state]
      by_cases hm : u ∈ s.lock.waitReaders
      · simp [hm, rwWakeAll]
      · rw [if_neg hm, ← h.reader_iff]
        simp [hm, rwWakeAll]
    · dsimp only
      rw [rwWakeAll_state, h.writer_iff]
      by_cases hm : u ∈ s.lock.waitReaders
      · obtain ⟨⟨b, hb⟩, -⟩ := (h.reader_iff u).mp hm
        simp [hb]
      · rw [if_neg hm]
    · dsimp only
      rw [rwWakeAll_state]
      split
      · exact .inr rfl
      · exact h.awake u hu

theorem State.Queued.other {s : State Tid} (h : s.Queued) {t : Tid} (st : ThreadState)
    (hr : ∀ b, s.pc t ≠ .sleptRead b) (hw : ∀ b, s.pc t ≠ .sleptWrite b) :
    State.Queued { s with threads := setState s.threads t st } := by
  refine ⟨fun u => ?_, fun u => ?_, fun u hu => ?_, h.writers_nodup⟩
  · by_cases hu : u = t
    · subst u
      simp [h.reader_iff, hr]
    · simp [hu, h.reader_iff]
  · by_cases hu : u = t
    · subst u
      simp [h.writer_iff, hw]
    · simp [hu, h.writer_iff]
  · by_cases hut : u = t
    · subst u
      simp [hr, hw] at hu
    · simp only [ne_eq, hut, not_false_eq_true, setState_of_ne]
      exact h.awake u hu

theorem State.Move.queued {s s' : State Tid} (hs : s.Move s') (h : s.Queued) : s'.Queued := by
  cases hs with
  | call t c hpc _ hc =>
    obtain rfl | rfl := hc
    · exact h.setPc (by simp [hpc]) (by simp [hpc])
    · exact h.setPc (by simp [hpc]) (by simp [hpc])
  | checkRead t _ hrun _ => exact h.acquireRead hrun
  | checkWrite t _ hrun => exact h.acquireWrite hrun
  | switchRead t hpc => exact h.setPc (by simp [hpc]) (by simp [hpc])
  | switchWrite t hpc => exact h.setPc (by simp [hpc]) (by simp [hpc])
  | releaseRead t _ _ _ => exact h.releaseRead t
  | releaseWrite t _ _ _ => exact h.releaseWrite t
  | other t st hr hw => exact h.other st hr hw

/-- `rwWakeOne` on a non-empty list of writers makes its first writer pending. -/
theorem State.Queued.wakeOne_pending {s s' : State Tid} (h : s.Queued)
    (hne : s.lock.waitWriters ≠ [])
    (hw : s'.lock.waitWriters = (rwWakeOne s.lock.waitWriters s.threads).1)
    (ht : s'.threads = (rwWakeOne s.lock.waitWriters s.threads).2) (hpc : s'.pc = s.pc) :
    ∃ t, s'.Pending t := by
  have hnd := h.writers_nodup
  have hwi := h.writer_iff
  cases hq : s.lock.waitWriters with
  | nil => exact absurd hq hne
  | cons t next =>
    rw [hq] at hw ht hnd hwi
    obtain ⟨⟨b, hb⟩, -⟩ := (hwi t).mp List.mem_cons_self
    refine ⟨t, ⟨b, by rw [hpc, hb]⟩, ?_, ?_⟩
    · rw [ht]
      simp [rwWakeOne]
    · rw [hw]
      exact (List.nodup_cons.mp hnd).1

theorem State.Answered.acquireRead {s : State Tid} (h : s.Answered) {t : Tid}
    (hpc : s.pc t = .acquireRead ∨ s.pc t = .sleptRead true) (hlow : -1 ≤ s.lock.readers)
    (hroom : s.readerWaits ∨ s.lock.readers < 2 ^ 31 - 1) : (xtAcquireRead s t).Answered := by
  have ht : ∀ b, s.pc t ≠ .sleptWrite b := by
    intro b hb
    simp [hb] at hpc
  unfold xtAcquireRead
  split
  · rename_i hbusy
    refine ⟨fun hr _ => .inl ?_, fun hr hne => ?_⟩
    · dsimp only at hr ⊢
      exact hbusy.resolve_left (by omega)
    · exact (h.writers hr hne).imp fun u hu => hu.of_other ht
        (fun v hv => by simp [hv]) (fun v hv => by simp [rwSleep, hv]) rfl
  · rename_i hfree
    have hlt := hroom.resolve_left hfree
    rw [not_or] at hfree
    have hsmall := @bmod_small (s.lock.readers + 1) (by omega) (by omega)
    refine ⟨fun _ hne => ?_, fun hr _ => ?_⟩
    · exact (h.readers (by omega) hne).imp id fun ⟨u, hu⟩ =>
        ⟨u, hu.of_other ht (fun v hv => by simp [hv]) (fun _ _ => rfl) rfl⟩
    · dsimp only at hr
      omega

theorem State.Answered.acquireWrite (s : State Tid) (t : Tid) :
    (xtAcquireWrite s t).Answered := by
  unfold xtAcquireWrite
  split
  · rename_i hbusy
    exact ⟨fun _ _ => .inl (by simp [rwSleep]), fun hr _ => absurd hr hbusy⟩
  · refine ⟨fun hr _ => ?_, fun hr _ => ?_⟩
    · dsimp only at hr
      omega
    · dsimp only at hr
      omega

theorem State.Answered.releaseRead {s : State Tid} (h : s.Answered) (hq : s.Queued) (t : Tid)
    (hpos : 1 ≤ s.lock.readers) (hmax : s.lock.readers ≤ 2 ^ 31 - 1) :
    (xtReleaseRead s t).Answered := by
  have hsmall := @bmod_small (s.lock.readers - 1) (by omega) (by omega)
  unfold xtReleaseRead
  dsimp only
  rw [hsmall]
  split
  · by_cases hne : s.lock.waitWriters = []
    · -- nobody to wake: waiting readers already had a woken writer before them
      refine ⟨fun _ hr => .inr ?_, fun _ hw => ?_⟩
      · obtain hw | ⟨u, hu⟩ := h.readers (by omega) hr
        · exact absurd hne hw
        · refine ⟨u, hu.mono (fun b hb => ⟨b, hb⟩) (fun hr => ?_) (fun hm => ?_)⟩
          · simpa [hne, rwWakeOne] using hr
          · simp [hne, rwWakeOne] at hm
      · simp [hne, rwWakeOne] at hw
    · exact ⟨fun _ _ => .inr (hq.wakeOne_pending hne rfl rfl rfl),
        fun _ _ => hq.wakeOne_pending hne rfl rfl rfl⟩
  · rename_i hnz
    exact ⟨fun _ hr => h.readers (by omega) hr, fun hr _ => absurd hr hnz⟩

theorem State.Answered.releaseWrite {s : State Tid} (hq : s.Queued) (t : Tid) :
    (xtReleaseWrite s t).Answered := by
  unfold xtReleaseWrite
  split
  · rename_i hne
    exact ⟨fun _ _ => .inr (hq.wakeOne_pending hne rfl rfl rfl),
      fun _ _ => hq.wakeOne_pending hne rfl rfl rfl⟩
  · rename_i hnil
    exact ⟨fun _ hr => absurd rfl hr, fun _ hw => absurd hw hnil⟩

theorem State.Move.answered [Fintype Tid] {s s' : State Tid} (hs : s.Move s')
    (hc : s.Counted) (hq : s.Queued) (h : s.Answered) : s'.Answered := by
  unfold State.Counted at hc
  cases hs with
  | call t c hpc _ _ =>
    have ht : ∀ b, s.pc t ≠ .sleptWrite b := by simp [hpc]
    exact h.frame rfl fun u hu => hu.of_other ht (fun v hv => by simp [hv]) (fun _ _ => rfl) rfl
  | checkRead t hpc _ hlt => exact h.acquireRead hpc (by omega) hlt
  | checkWrite t _ _ => exact State.Answered.acquireWrite s t
  | switchRead t hpc =>
    have ht : ∀ b, s.pc t ≠ .sleptWrite b := by simp [hpc]
    exact h.frame rfl fun u hu => hu.of_other ht (fun v hv => by simp [hv]) (fun _ _ => rfl) rfl
  | switchWrite t hpc =>
    refine h.frame rfl fun u hu => hu.mono (fun b hb => ?_) id id
    by_cases hut : u = t
    · exact ⟨true, by simp [hut]⟩
    · exact ⟨b, by simp [hut, hb]⟩
  | releaseRead t _ _ hh =>
    have hle := le_sum s.readHolds t
    exact h.releaseRead hq t (by omega) (by omega)
  | releaseWrite t _ _ _ => exact State.Answered.releaseWrite hq t
  | other t st _ hw =>
    exact h.frame rfl fun u hu => hu.of_other hw (fun _ _ => rfl) (fun v hv => by simp [hv]) rfl

/-- **No stranded waiter**: in every reachable state a free lock with waiters has a woken
    writer that has not checked it yet, and the sleeping threads are exactly the listed
    ones. -/
theorem noStranded_of_reachable [Fintype Tid] {s : State Tid}
    (h : Reachable State.Initial State.Step s) : s.NoStranded ∧ s.AsleepIffListed := by
  obtain ⟨-, hq, ha⟩ := h.invariant (I := fun s => s.Counted ∧ s.Queued ∧ s.Answered)
    (fun _ hi => ⟨hi.counted, hi.queued, hi.answered⟩)
    (fun _ _ ⟨hc, hq, ha⟩ hs => ⟨hs.move.counted hc, hs.move.queued hq,
      hs.move.answered hc hq ha⟩)
  exact ⟨ha.noStranded, hq.asleepIffListed⟩

/-- A reader leaves while a writer and, behind it, a second reader sleep: the free lock
    still has the second reader on its list and the writer is woken. -/
theorem noStranded_reader_behind_writer : ∃ s : State (Fin 3),
    Reachable State.Initial State.Step s ∧ s.lock.readers = 0 ∧ s.lock.waitReaders = [2] ∧
      (∃ t, s.Pending t) ∧ s.AsleepIffListed := by
  have h1 := (idleThreads_reachable 3).next ⟨.callRead 0, rfl⟩
  have h2 := h1.next ⟨.checkRead 0, rfl⟩
  have h3 := h2.next ⟨.callWrite 1, rfl⟩
  have h4 := h3.next ⟨.checkWrite 1, rfl⟩
  have h5 := h4.next ⟨.callRead 2, rfl⟩
  have h6 := h5.next ⟨.checkRead 2, rfl⟩
  have h7 := h6.next ⟨.releaseRead 0, rfl⟩
  have h := noStranded_of_reachable h7
  exact ⟨_, h7, rfl, rfl, h.1 rfl (.inl (by decide)), h.2⟩

end XTOS.RWLock

import XTOS.RWLock

/-!
# Locking a file

`xtLockFile` and `xtUnlockFile` of `xtkernel/fs.c`, called by any number of threads for one file. The
test of a non-blocking file and the acquisition take the lock's spinlock one after the other.

## Main definitions

- `State` — the file's lock, its flags, where the threads are in `xtLockFile`, and the calls so far
- `State.step` — one step of one thread
- `State.Prompt` — nobody sleeps, and every call acquired the lock or said why not

## Main results

- `prompt_iff` — when the calls for a non-blocking file stay prompt

## Design notes

`flags` is written once, when the file is opened. `xtReadFile` and `xtWriteFile` take the lock by
`xtLockFile` too, so nobody acquires it in another way.
-/

namespace XTOS.FileLock

open SysLib
open RWLock (Pc XTRWLock ThreadState)

/-- `XT_LOCK_READ`. -/
def xtLockRead : ℕ := 0x01

/-- `XT_LOCK_WRITE`. -/
def xtLockWrite : ℕ := 0x02

/-- `XT_FILE_MODE_NONBLOCK`. -/
def xtFileModeNonblock : ℕ := 0x80

/-- Where a thread is: outside `xtLockFile`, before the test, in `xtAcquireRead` or in
    `xtAcquireWrite`. -/
inductive Place where
  | outside
  | test (lockType : ℕ)
  | read
  | write
  deriving DecidableEq, Repr

/-- A call of `xtLockFile` that returned, and whether the thread got the lock once more. -/
structure Call (Tid : Type) where
  thread : Tid
  lockType : ℕ
  result : XTResult
  acquired : Bool
  deriving DecidableEq, Repr

/-- One file with the threads that lock it. -/
structure State (Tid : Type) where
  lock : RWLock.State Tid
  flags : ℕ
  place : Tid → Place
  log : List (Call Tid)

/-- What a thread can do next. -/
inductive Action (Tid : Type) where
  | lockFile (t : Tid) (lockType : ℕ)
  | test (t : Tid)
  | acquire (t : Tid)
  | switch (t : Tid)
  | unlockFile (t : Tid) (lockType : ℕ)
  | other (t : Tid) (st : ThreadState)

variable {Tid : Type}

/-- `canLock`. -/
def canLock (lock : XTRWLock Tid) (lockType : ℕ) : Bool :=
  if lockType = xtLockRead then 0 ≤ lock.readers && lock.waitWriters.isEmpty else lock.readers = 0

/-- How often a thread holds the lock. -/
def holds (lock : RWLock.State Tid) (t : Tid) : ℕ := lock.readHolds t + lock.writeHolds t

variable [DecidableEq Tid]

/-- `xtLockFile` returns to thread `t`, in the step from `old`. -/
def State.return (s : State Tid) (old : RWLock.State Tid) (t : Tid) (lockType : ℕ)
    (result : XTResult) : State Tid :=
  { s with
    place := Function.update s.place t .outside
    log := ⟨t, lockType, result, holds old t < holds s.lock t⟩ :: s.log }

/-- The second half of `xtLockFile` up to the spinlock. -/
def State.enter (s : State Tid) (t : Tid) (lockType : ℕ) : Option (State Tid) :=
  if lockType = xtLockRead then
    (s.lock.step (.callRead t)).map fun lock =>
      { s with lock := lock, place := Function.update s.place t .read }
  else if lockType = xtLockWrite then
    (s.lock.step (.callWrite t)).map fun lock =>
      { s with lock := lock, place := Function.update s.place t .write }
  else some (s.return s.lock t lockType .invalidParameter)

/-- The loop of `xtAcquireRead` or `xtAcquireWrite` was left, or not. -/
def State.leave (s : State Tid) (t : Tid) (lockType : ℕ) (lock : RWLock.State Tid) : State Tid :=
  if lock.pc t = .idle then { s with lock := lock }.return s.lock t lockType .success
  else { s with lock := lock }

/-- One step of a run. -/
def State.step (s : State Tid) : Action Tid → Option (State Tid)
  | .lockFile t lockType =>
    if s.place t = .outside ∧ s.lock.running t then
      if s.flags &&& xtFileModeNonblock ≠ 0 then
        some { s with place := Function.update s.place t (.test lockType) }
      else s.enter t lockType
    else none
  | .test t =>
    match s.place t with
    | .test lockType =>
      if s.lock.running t then
        if canLock s.lock.lock lockType then s.enter t lockType
        else some (s.return s.lock t lockType .wouldBlock)
      else none
    | _ => none
  | .acquire t =>
    match s.place t with
    | .read => (s.lock.step (.checkRead t)).map (s.leave t xtLockRead)
    | .write => (s.lock.step (.checkWrite t)).map (s.leave t xtLockWrite)
    | _ => none
  | .switch t => (s.lock.step (.switch t)).map fun lock => { s with lock := lock }
  | .unlockFile t lockType =>
    if s.place t = .outside then
      if lockType = xtLockRead then
        (s.lock.step (.releaseRead t)).map fun lock => { s with lock := lock }
      else if lockType = xtLockWrite then
        (s.lock.step (.releaseWrite t)).map fun lock => { s with lock := lock }
      else some s
    else none
  | .other t st => (s.lock.step (.other t st)).map fun lock => { s with lock := lock }

/-- A file with a new lock that no thread uses. -/
structure State.Initial (s : State Tid) : Prop where
  lock : s.lock.Initial
  place : ∀ t, s.place t = .outside
  log : s.log = []

/-- The call acquired the lock, or it did not and said why. -/
inductive Call.Prompt (c : Call Tid) : Prop
  | acquired (h : c.result = .success) (ha : c.acquired = true)
  | wouldBlock (h : c.result = .wouldBlock) (ha : c.acquired = false)
  | lockType (h : c.result = .invalidParameter) (ha : c.acquired = false)
      (hread : c.lockType ≠ xtLockRead) (hwrite : c.lockType ≠ xtLockWrite)

/-- No thread was put to sleep by a call, and all that returned were prompt. -/
structure State.Prompt (s : State Tid) : Prop where
  awake : ∀ t b, s.lock.pc t ≠ .sleptRead b ∧ s.lock.pc t ≠ .sleptWrite b
  log : ∀ c ∈ s.log, c.Prompt

/-- A reader comes to its acquisition while nobody holds the lock for writing, and a writer while
    nobody holds it. -/
def Action.Calm (s : State Tid) : Action Tid → Prop
  | .acquire t =>
    (s.place t = .read → ∀ u, s.lock.writeHolds u = 0) ∧
      (s.place t = .write → ∀ u, s.lock.readHolds u = 0 ∧ s.lock.writeHolds u = 0)
  | _ => True

/-- Any step. -/
def Step (s s' : State Tid) : Prop := ∃ a, s.step a = some s'

/-- A calm step. -/
def CalmStep (s s' : State Tid) : Prop := ∃ a, a.Calm s ∧ s.step a = some s'

/-- A reader acquires the lock while no writer is behind its test, and a writer while nobody else
    is. -/
def Action.Undisturbed (s : State Tid) : Action Tid → Prop
  | .acquire t =>
    (s.place t = .read → ∀ u, s.place u ≠ .write) ∧
      (s.place t = .write → ∀ u, u ≠ t → s.place u ≠ .read ∧ s.place u ≠ .write)
  | _ => True

/-- A step that comes between no test and its acquisition. -/
def UndisturbedStep (s s' : State Tid) : Prop := ∃ a, a.Undisturbed s ∧ s.step a = some s'

/-! ### One acquisition -/

variable {s s' : State Tid} {t : Tid}

theorem xtAcquireRead_free {l : RWLock.State Tid} (hr : l.lock.readers ≠ -1)
    (hw : l.lock.waitWriters = []) : RWLock.xtAcquireRead l t =
      { l with
        lock := { l.lock with readers := Int.bmod (l.lock.readers + 1) (2 ^ 32) }
        pc := Function.update l.pc t .idle
        readHolds := Function.update l.readHolds t (l.readHolds t + 1) } := by
  rw [RWLock.xtAcquireRead, if_neg (not_or.mpr ⟨hr, not_not.mpr hw⟩)]

theorem xtAcquireRead_busy {l : RWLock.State Tid} (hr : l.lock.readers = -1) :
    (RWLock.xtAcquireRead l t).pc t = .sleptRead false := by
  rw [RWLock.xtAcquireRead, if_pos (.inl hr)]
  exact Function.update_self _ _ _

theorem xtAcquireWrite_free {l : RWLock.State Tid} (hr : l.lock.readers = 0) :
    RWLock.xtAcquireWrite l t =
      { l with
        lock := { l.lock with readers := -1 }
        pc := Function.update l.pc t .idle
        writeHolds := Function.update l.writeHolds t (l.writeHolds t + 1) } := by
  rw [RWLock.xtAcquireWrite, if_neg (not_not.mpr hr)]

theorem xtAcquireWrite_busy {l : RWLock.State Tid} (hr : l.lock.readers ≠ 0) :
    (RWLock.xtAcquireWrite l t).pc t = .sleptWrite false := by
  rw [RWLock.xtAcquireWrite, if_pos hr]
  exact Function.update_self _ _ _

/-! ### What a step does -/

/-- Behind the test a thread comes to one of the acquisitions, or its `lockType` names none. -/
theorem enter_cases {lockType : ℕ} (hs : s.enter t lockType = some s') :
    (lockType = xtLockRead ∧
      s' = { s with
        lock := { s.lock with pc := Function.update s.lock.pc t .acquireRead }
        place := Function.update s.place t .read }) ∨
    (lockType ≠ xtLockRead ∧ lockType = xtLockWrite ∧
      s' = { s with
        lock := { s.lock with pc := Function.update s.lock.pc t .acquireWrite }
        place := Function.update s.place t .write }) ∨
    (lockType ≠ xtLockRead ∧ lockType ≠ xtLockWrite ∧
      s' = s.return s.lock t lockType .invalidParameter) := by
  rw [State.enter] at hs
  split_ifs at hs with hread hwrite
  · obtain ⟨lock, hlock, rfl⟩ := Option.map_eq_some_iff.mp hs
    rw [RWLock.State.step] at hlock
    split_ifs at hlock
    obtain rfl := Option.some.inj hlock
    exact .inl ⟨hread, rfl⟩
  · obtain ⟨lock, hlock, rfl⟩ := Option.map_eq_some_iff.mp hs
    rw [RWLock.State.step] at hlock
    split_ifs at hlock
    obtain rfl := Option.some.inj hlock
    exact .inr (.inl ⟨hread, hwrite, rfl⟩)
  · exact .inr (.inr ⟨hread, hwrite, (Option.some.inj hs).symm⟩)

/-- `xtUnlockFile` releases what the thread holds, or its `lockType` names neither. -/
theorem unlockFile_cases {lockType : ℕ} (hs : s.step (.unlockFile t lockType) = some s') :
    (0 < s.lock.readHolds t ∧ s' = { s with lock := RWLock.xtReleaseRead s.lock t }) ∨
    (0 < s.lock.writeHolds t ∧ s' = { s with lock := RWLock.xtReleaseWrite s.lock t }) ∨
    s' = s := by
  rw [State.step] at hs
  split_ifs at hs with hout hread hwrite
  · obtain ⟨lock, hlock, rfl⟩ := Option.map_eq_some_iff.mp hs
    rw [RWLock.State.step] at hlock
    split_ifs at hlock with hguard
    obtain rfl := Option.some.inj hlock
    exact .inl ⟨hguard.2.2, rfl⟩
  · obtain ⟨lock, hlock, rfl⟩ := Option.map_eq_some_iff.mp hs
    rw [RWLock.State.step] at hlock
    split_ifs at hlock with hguard
    obtain rfl := Option.some.inj hlock
    exact .inr (.inl ⟨hguard.2.2, rfl⟩)
  · exact .inr (.inr (Option.some.inj hs).symm)

/-- What another thread does concerns neither the lock nor who is in its code. -/
theorem other_cases {st : ThreadState} (hs : s.step (.other t st) = some s') :
    ∃ threads, s' = { s with lock := { s.lock with threads := threads } } := by
  obtain ⟨lock, hlock, rfl⟩ := Option.map_eq_some_iff.mp hs
  rw [RWLock.State.step] at hlock
  split at hlock
  · cases hlock
  · cases hlock
  · obtain rfl := Option.some.inj hlock
    exact ⟨_, rfl⟩

section

variable [Fintype Tid]

omit [DecidableEq Tid] in
/-- The counter tells whether somebody holds the lock for writing. -/
theorem counted_writers {l : RWLock.State Tid} (h : l.Counted) :
    (∀ u, l.writeHolds u = 0) ↔ l.lock.readers ≠ -1 := by
  rw [← RWLock.sum_eq_zero_iff]
  obtain ⟨hr, hw, -⟩ | ⟨hr, -, hw⟩ := h
  · exact iff_of_false (by omega) (not_not.mpr hr)
  · exact iff_of_true hw (by omega)

omit [DecidableEq Tid] in
/-- The counter tells whether somebody holds the lock. -/
theorem counted_free {l : RWLock.State Tid} (h : l.Counted) :
    (∀ u, l.readHolds u = 0 ∧ l.writeHolds u = 0) ↔ l.lock.readers = 0 := by
  rw [forall_and, ← RWLock.sum_eq_zero_iff, ← RWLock.sum_eq_zero_iff]
  obtain ⟨hr, hw, -⟩ | ⟨hr, -, hw⟩ := h
  · exact iff_of_false (by omega) (by omega)
  · rw [hw, hr]
    exact ⟨fun h => by exact_mod_cast h.1, fun h => ⟨by exact_mod_cast h, rfl⟩⟩

end

/-! ### Runs -/

/-- The place of a thread in the lock's own code. -/
def Place.pc : Place → Pc
  | .outside | .test _ => .idle
  | .read => .acquireRead
  | .write => .acquireWrite

/-- Nobody waits for the lock. -/
structure State.Quiet [Fintype Tid] (s : State Tid) : Prop where
  counted : s.lock.Counted
  readers : s.lock.lock.waitReaders = []
  writers : s.lock.lock.waitWriters = []
  pc : ∀ t, s.lock.pc t = (s.place t).pc
  log : ∀ c ∈ s.log, c.Prompt

section

variable [Fintype Tid]

omit [DecidableEq Tid] in
theorem State.Initial.quiet (h : s.Initial) : s.Quiet := by
  obtain ⟨hlock, hpc, hread, hwrite⟩ := h.lock
  refine ⟨RWLock.State.Initial.counted h.lock, by rw [hlock]; rfl, by rw [hlock]; rfl, ?_, ?_⟩
  · intro t
    rw [hpc t, h.place t]
    rfl
  · simp [h.log]

omit [DecidableEq Tid] in
theorem State.Quiet.prompt (h : s.Quiet) : s.Prompt := by
  refine ⟨fun t b => ?_, h.log⟩
  rw [h.pc t]
  cases s.place t <;> simp [Place.pc]

/-- The lock and the place of one thread change together. -/
theorem State.Quiet.move {lock : RWLock.State Tid} {p : Place} (h : s.Quiet)
    (hcounted : lock.Counted) (hr : lock.lock.waitReaders = []) (hw : lock.lock.waitWriters = [])
    (hpc : lock.pc = Function.update s.lock.pc t p.pc) :
    State.Quiet { s with lock := lock, place := Function.update s.place t p } := by
  refine ⟨hcounted, hr, hw, fun u => ?_, h.log⟩
  dsimp only
  rw [hpc]
  by_cases hu : u = t
  · subst hu
    rw [Function.update_self, Function.update_self]
  · rw [Function.update_of_ne hu, Function.update_of_ne hu]
    exact h.pc u

/-- A call returns promptly. -/
theorem State.Quiet.return {old : RWLock.State Tid} {lockType : ℕ} {result : XTResult}
    (h : State.Quiet { s with place := Function.update s.place t .outside })
    (hcall : Call.Prompt ⟨t, lockType, result, holds old t < holds s.lock t⟩) :
    (s.return old t lockType result).Quiet :=
  ⟨h.counted, h.readers, h.writers, h.pc, List.forall_mem_cons.mpr ⟨hcall, h.log⟩⟩

/-- A thread whose place has nothing to do with the lock goes to another one. -/
theorem State.Quiet.goTo {p : Place} (h : s.Quiet) (hp : (s.place t).pc = p.pc) :
    State.Quiet { s with place := Function.update s.place t p } := by
  refine h.move h.counted h.readers h.writers ?_
  rw [← hp, ← h.pc t, Function.update_eq_self]

theorem State.Quiet.enter {lockType : ℕ} (h : s.Quiet) (hp : (s.place t).pc = .idle)
    (hs : s.enter t lockType = some s') : s'.Quiet := by
  obtain ⟨-, rfl⟩ | ⟨-, -, rfl⟩ | ⟨hread, hwrite, rfl⟩ := enter_cases hs
  · exact h.move h.counted h.readers h.writers rfl
  · exact h.move h.counted h.readers h.writers rfl
  · refine (h.goTo hp).return (.lockType rfl ?_ hread hwrite)
    exact decide_eq_false (lt_irrefl _)

/-- A thread that gets the lock at once returns promptly. -/
theorem State.Quiet.acquired {lockType : ℕ} {lock : RWLock.State Tid} (h : s.Quiet)
    (hcounted : lock.Counted) (hr : lock.lock.waitReaders = []) (hw : lock.lock.waitWriters = [])
    (hpc : lock.pc = Function.update s.lock.pc t .idle)
    (hholds : decide (holds s.lock t < holds lock t) = true) :
    (s.leave t lockType lock).Quiet := by
  rw [State.leave, if_pos (by rw [hpc, Function.update_self])]
  exact (h.move (p := .outside) hcounted hr hw hpc).return (.acquired rfl hholds)

/-- A reader's acquisition: it gets the lock, or it sleeps because of a writer. -/
theorem State.Quiet.acquireRead (h : s.Quiet) {lock : RWLock.State Tid}
    (hs : s.lock.step (.checkRead t) = some lock) :
    if ∀ u, s.lock.writeHolds u = 0 then (s.leave t xtLockRead lock).Quiet
    else ¬ (s.leave t xtLockRead lock).Prompt := by
  rw [RWLock.State.step] at hs
  split_ifs at hs with hguard
  obtain rfl := Option.some.inj hs
  have hcounted := h.counted.acquireRead t hguard.2.2
  have hfree := counted_writers h.counted
  split_ifs with hcalm
  · have heq := xtAcquireRead_free (t := t) (hfree.mp hcalm) h.writers
    rw [heq] at hcounted ⊢
    refine h.acquired hcounted h.readers h.writers rfl ?_
    simp [holds]
  · have hbusy := xtAcquireRead_busy (t := t) (not_not.mp (hcalm ∘ hfree.mpr))
    rw [State.leave, if_neg (by rw [hbusy]; rintro ⟨⟩)]
    exact fun hprompt => (hprompt.awake t false).1 hbusy

/-- A writer's acquisition: it gets the lock, or it sleeps because somebody holds it. -/
theorem State.Quiet.acquireWrite (h : s.Quiet) {lock : RWLock.State Tid}
    (hs : s.lock.step (.checkWrite t) = some lock) :
    if ∀ u, s.lock.readHolds u = 0 ∧ s.lock.writeHolds u = 0 then
      (s.leave t xtLockWrite lock).Quiet
    else ¬ (s.leave t xtLockWrite lock).Prompt := by
  rw [RWLock.State.step] at hs
  split_ifs at hs with hguard
  obtain rfl := Option.some.inj hs
  have hcounted := h.counted.acquireWrite t
  have hfree := counted_free h.counted
  split_ifs with hcalm
  · have heq := xtAcquireWrite_free (t := t) (hfree.mp hcalm)
    rw [heq] at hcounted ⊢
    refine h.acquired hcounted h.readers h.writers rfl ?_
    simp [holds]
  · have hbusy := xtAcquireWrite_busy (t := t) (hcalm ∘ hfree.mpr)
    rw [State.leave, if_neg (by rw [hbusy]; rintro ⟨⟩)]
    exact fun hprompt => (hprompt.awake t false).2 hbusy

omit [DecidableEq Tid] in
/-- A release leaves the empty lists empty. -/
theorem State.Quiet.release {lock : RWLock.State Tid} (h : s.Quiet) (hcounted : lock.Counted)
    (hr : lock.lock.waitReaders = []) (hw : lock.lock.waitWriters = [])
    (hpc : lock.pc = s.lock.pc) : State.Quiet { s with lock := lock } :=
  ⟨hcounted, hr, hw, fun t => by dsimp only; rw [hpc, h.pc t], h.log⟩

/-- From a quiet state the calm steps lead to quiet states, and the others put a thread to sleep. -/
theorem step_quiet {a : Action Tid} (h : s.Quiet) (hs : s.step a = some s') :
    (a.Calm s → s'.Quiet) ∧ (¬ a.Calm s → ¬ s'.Prompt) := by
  cases a with
  | lockFile t lockType =>
    refine ⟨fun _ => ?_, fun hcalm => absurd trivial hcalm⟩
    rw [State.step] at hs
    split_ifs at hs with hout hflags
    · obtain rfl := Option.some.inj hs
      exact h.goTo (by rw [hout.1]; rfl)
    · exact h.enter (by rw [hout.1]; rfl) hs
  | test t =>
    refine ⟨fun _ => ?_, fun hcalm => absurd trivial hcalm⟩
    rw [State.step] at hs
    split at hs
    · rename_i lockType hp
      have hidle : (s.place t).pc = .idle := by rw [hp]; rfl
      split_ifs at hs
      · exact h.enter hidle hs
      · obtain rfl := Option.some.inj hs
        exact (h.goTo hidle).return (.wouldBlock rfl (decide_eq_false (lt_irrefl _)))
    · cases hs
  | acquire t =>
    rw [State.step] at hs
    split at hs
    · rename_i hp
      obtain ⟨lock, hlock, rfl⟩ := Option.map_eq_some_iff.mp hs
      have hacquire := h.acquireRead hlock
      split_ifs at hacquire with hfree
      · exact ⟨fun _ => hacquire, fun hcalm => absurd ⟨fun _ => hfree, by simp [hp]⟩ hcalm⟩
      · exact ⟨fun hcalm => absurd (hcalm.1 hp) hfree, fun _ => hacquire⟩
    · rename_i hp
      obtain ⟨lock, hlock, rfl⟩ := Option.map_eq_some_iff.mp hs
      have hacquire := h.acquireWrite hlock
      split_ifs at hacquire with hfree
      · exact ⟨fun _ => hacquire, fun hcalm => absurd ⟨by simp [hp], fun _ => hfree⟩ hcalm⟩
      · exact ⟨fun hcalm => absurd (hcalm.2 hp) hfree, fun _ => hacquire⟩
    · cases hs
  | switch t =>
    -- nobody sleeps
    obtain ⟨lock, hlock, -⟩ := Option.map_eq_some_iff.mp hs
    have hawake := h.prompt.awake t false
    rw [RWLock.State.step] at hlock
    split at hlock
    · rename_i hpc
      exact absurd hpc hawake.1
    · rename_i hpc
      exact absurd hpc hawake.2
    · cases hlock
  | unlockFile t lockType =>
    refine ⟨fun _ => ?_, fun hcalm => absurd trivial hcalm⟩
    obtain ⟨hholds, rfl⟩ | ⟨hholds, rfl⟩ | rfl := unlockFile_cases hs
    · refine h.release (h.counted.releaseRead hholds) ?_ ?_ ?_
      all_goals
        rw [RWLock.xtReleaseRead]
        simp only [h.writers, RWLock.rwWakeOne]
        split_ifs
        all_goals first
          | exact h.readers
          | exact h.writers
          | rfl
    · refine h.release (h.counted.releaseWrite hholds) ?_ ?_ ?_
      all_goals rw [RWLock.xtReleaseWrite, if_neg (not_not.mpr h.writers)]
      · rfl
      · exact h.writers
    · exact h
  | other t st =>
    refine ⟨fun _ => ?_, fun hcalm => absurd trivial hcalm⟩
    obtain ⟨threads, rfl⟩ := other_cases hs
    exact h.release h.counted h.readers h.writers rfl

end

/-! ### Tests and acquisitions -/

/-- What a thread behind its test found still holds. -/
structure State.Tested (s : State Tid) : Prop where
  read : ∀ t, s.place t = .read → s.lock.lock.readers ≠ -1
  write : ∀ t, s.place t = .write → s.lock.lock.readers = 0

omit [DecidableEq Tid] in
/-- A free lock is as every test found it. -/
theorem tested_of_free (h : s.lock.lock.readers = 0) : s.Tested :=
  ⟨fun _ _ => by omega, fun _ _ => h⟩

/-- A thread that is behind its test did not just go somewhere else. -/
theorem place_of_update {p q : Place} {u : Tid} (hp : p.pc = .idle) (hq : q.pc ≠ .idle)
    (h : Function.update s.place t p u = q) : u ≠ t ∧ s.place u = q := by
  obtain ⟨-, rfl⟩ | hother := update_cases (P := (· = q)) h
  · exact absurd hp hq
  · exact hother

/-- A thread goes where nothing is known about the lock. -/
theorem State.Tested.goTo {p : Place} {log : List (Call Tid)} (h : s.Tested) (hp : p.pc = .idle) :
    State.Tested { s with place := Function.update s.place t p, log := log } := by
  refine ⟨fun u hu => ?_, fun u hu => ?_⟩
  · exact h.read u (place_of_update hp (by exact nofun) hu).2
  · exact h.write u (place_of_update hp (by exact nofun) hu).2

/-- Behind its test a thread found the lock free. -/
theorem State.Tested.enter {lockType : ℕ} (h : s.Tested)
    (hcan : canLock s.lock.lock lockType = true) (hs : s.enter t lockType = some s') :
    s'.Tested := by
  rw [canLock] at hcan
  obtain ⟨hread, rfl⟩ | ⟨hread, -, rfl⟩ | ⟨-, -, rfl⟩ := enter_cases hs
  · rw [if_pos hread, Bool.and_eq_true, decide_eq_true_eq] at hcan
    refine ⟨fun u _ => ?_, fun u hu => ?_⟩
    · dsimp only
      omega
    · obtain ⟨-, hnew⟩ | ⟨-, hold⟩ := update_cases (P := (· = Place.write)) hu
      · cases hnew
      · exact h.write u hold
  · rw [if_neg hread, decide_eq_true_eq] at hcan
    exact tested_of_free hcan
  · exact h.goTo (p := .outside) rfl

theorem step_flags {a : Action Tid} (hs : s.step a = some s') : s'.flags = s.flags := by
  have henter : ∀ {t lockType}, s.enter t lockType = some s' → s'.flags = s.flags := by
    intro t lockType hs
    obtain ⟨-, rfl⟩ | ⟨-, -, rfl⟩ | ⟨-, -, rfl⟩ := enter_cases hs
    · rfl
    · rfl
    · rfl
  have hleave : ∀ t lockType lock, (s.leave t lockType lock).flags = s.flags := by
    intro t lockType lock
    rw [State.leave]
    split_ifs
    · rfl
    · rfl
  cases a with
  | lockFile t lockType =>
    rw [State.step] at hs
    split_ifs at hs
    · obtain rfl := Option.some.inj hs
      rfl
    · exact henter hs
  | test t =>
    rw [State.step] at hs
    split at hs
    · split_ifs at hs
      · exact henter hs
      · obtain rfl := Option.some.inj hs
        rfl
    · cases hs
  | acquire t =>
    rw [State.step] at hs
    split at hs
    · obtain ⟨lock, -, rfl⟩ := Option.map_eq_some_iff.mp hs
      exact hleave _ _ _
    · obtain ⟨lock, -, rfl⟩ := Option.map_eq_some_iff.mp hs
      exact hleave _ _ _
    · cases hs
  | switch t =>
    obtain ⟨lock, -, rfl⟩ := Option.map_eq_some_iff.mp hs
    rfl
  | unlockFile t lockType =>
    obtain ⟨-, rfl⟩ | ⟨-, rfl⟩ | rfl := unlockFile_cases hs
    · rfl
    · rfl
    · rfl
  | other t st =>
    obtain ⟨threads, rfl⟩ := other_cases hs
    rfl

section

variable [Fintype Tid]

omit [DecidableEq Tid] in
/-- What the tests found makes an acquisition calm. -/
theorem State.Tested.calm (h : s.Tested) (hs : s.Quiet) (a : Action Tid) : a.Calm s := by
  cases a with
  | acquire t =>
    exact ⟨fun hp => (counted_writers hs.counted).mpr (h.read t hp),
      fun hp => (counted_free hs.counted).mpr (h.write t hp)⟩
  | _ => trivial

omit [DecidableEq Tid] [Fintype Tid] in
/-- The lock changes so that what the tests found still holds. -/
theorem State.Tested.congr {lock : RWLock.State Tid} (h : s.Tested)
    (hr : lock.lock.readers = s.lock.lock.readers) : State.Tested { s with lock := lock } := by
  refine ⟨fun t hp => ?_, fun t hp => ?_⟩
  · dsimp only
    rw [hr]
    exact h.read t hp
  · dsimp only
    rw [hr]
    exact h.write t hp

/-- An undisturbed acquisition does not concern the other threads behind their tests. -/
theorem State.Tested.acquire (h : s.Tested) (hq : s.Quiet)
    (ha : (Action.acquire t).Undisturbed s) (hs : s.step (.acquire t) = some s') : s'.Tested := by
  rw [State.step] at hs
  split at hs
  · rename_i hp
    obtain ⟨lock, hlock, rfl⟩ := Option.map_eq_some_iff.mp hs
    rw [RWLock.State.step] at hlock
    split_ifs at hlock with hguard
    obtain rfl := Option.some.inj hlock
    have hfree := h.read t hp
    have heq := xtAcquireRead_free (t := t) hfree hq.writers
    have hpos : 0 ≤ s.lock.lock.readers := by
      have hcounted := hq.counted
      obtain ⟨hneg, -⟩ | ⟨hcount, -⟩ := hcounted
      · exact absurd hneg hfree
      · omega
    have hroom := hguard.2.2.resolve_left (not_or.mpr ⟨hfree, not_not.mpr hq.writers⟩)
    have hsmall := RWLock.bmod_small (n := s.lock.lock.readers + 1) (by omega) (by omega)
    rw [State.leave, if_pos (by rw [heq]; exact Function.update_self _ _ _)]
    have hnone := ha.1 hp
    refine ⟨fun u _ => ?_, fun u hu => ?_⟩
    · rw [State.return, heq]
      dsimp only
      omega
    · exact absurd (place_of_update rfl (by rintro ⟨⟩) hu).2 (hnone u)
  · rename_i hp
    obtain ⟨lock, hlock, rfl⟩ := Option.map_eq_some_iff.mp hs
    rw [RWLock.State.step] at hlock
    split_ifs at hlock with hguard
    obtain rfl := Option.some.inj hlock
    have heq := xtAcquireWrite_free (t := t) (h.write t hp)
    rw [State.leave, if_pos (by rw [heq]; exact Function.update_self _ _ _)]
    have hnone := ha.2 hp
    refine ⟨fun u hu => ?_, fun u hu => ?_⟩
    · obtain ⟨hut, hu⟩ := place_of_update rfl (by rintro ⟨⟩) hu
      exact absurd hu (hnone u hut).1
    · obtain ⟨hut, hu⟩ := place_of_update rfl (by rintro ⟨⟩) hu
      exact absurd hu (hnone u hut).2
  · cases hs

/-- A release makes the lock free, or leaves readers. -/
theorem State.Tested.unlockFile {lockType : ℕ} (h : s.Tested) (hq : s.Quiet)
    (hs : s.step (.unlockFile t lockType) = some s') : s'.Tested := by
  obtain ⟨hholds, rfl⟩ | ⟨-, rfl⟩ | rfl := unlockFile_cases hs
  · have hle := RWLock.le_sum s.lock.readHolds t
    obtain ⟨-, -, hnone⟩ | ⟨hcount, hmax, -⟩ := hq.counted
    · omega
    have hsmall := RWLock.bmod_small (n := s.lock.lock.readers - 1) (by omega) (by omega)
    have hr : (RWLock.xtReleaseRead s.lock t).lock.readers = s.lock.lock.readers - 1 := by
      rw [RWLock.xtReleaseRead]
      dsimp only
      rw [hsmall]
      split_ifs
      · rfl
      · rfl
    refine ⟨fun u _ => ?_, fun u hu => ?_⟩
    · dsimp only
      omega
    · have hzero := h.write u hu
      omega
  · refine tested_of_free ?_
    rw [RWLock.xtReleaseWrite, if_neg (not_not.mpr hq.writers)]
  · exact h

/-- Undisturbed steps for a non-blocking file keep what the tests found. -/
theorem step_tested {a : Action Tid} (hflags : s.flags &&& xtFileModeNonblock ≠ 0) (h : s.Tested)
    (hq : s.Quiet) (ha : a.Undisturbed s) (hs : s.step a = some s') : s'.Tested := by
  cases a with
  | lockFile t lockType =>
    rw [State.step] at hs
    split_ifs at hs
    obtain rfl := Option.some.inj hs
    exact h.goTo rfl
  | test t =>
    rw [State.step] at hs
    split at hs
    · split_ifs at hs with hrun hcan
      · exact h.enter hcan hs
      · obtain rfl := Option.some.inj hs
        exact h.goTo (p := .outside) rfl
    · cases hs
  | acquire t => exact h.acquire hq ha hs
  | switch t =>
    obtain ⟨lock, hlock, rfl⟩ := Option.map_eq_some_iff.mp hs
    rw [RWLock.State.step] at hlock
    split at hlock
    · obtain rfl := Option.some.inj hlock
      exact h.congr rfl
    · obtain rfl := Option.some.inj hlock
      exact h.congr rfl
    · cases hlock
  | unlockFile t lockType => exact h.unlockFile hq hs
  | other t st =>
    obtain ⟨threads, rfl⟩ := other_cases hs
    exact h.congr rfl

theorem reachable_quiet (h : Reachable State.Initial CalmStep s) : s.Quiet :=
  h.invariant (fun _ h0 => h0.quiet) fun _ _ hs ⟨_, hcalm, hstep⟩ => (step_quiet hs hstep).1 hcalm

/-- An undisturbed run for a non-blocking file is calm. -/
theorem reachable_calm (hflags : s.flags &&& xtFileModeNonblock ≠ 0)
    (h : Reachable State.Initial UndisturbedStep s) : Reachable State.Initial CalmStep s := by
  have hinv : s.flags &&& xtFileModeNonblock ≠ 0 →
      Reachable State.Initial CalmStep s ∧ s.Tested := by
    refine h.invariant (I := fun s => s.flags &&& xtFileModeNonblock ≠ 0 →
      Reachable State.Initial CalmStep s ∧ s.Tested) (fun s h0 _ => ?_) ?_
    · refine ⟨.start h0, tested_of_free ?_⟩
      rw [h0.lock.1]
      rfl
    · rintro s s' ih ⟨a, ha, hstep⟩ hflags
      rw [step_flags hstep] at hflags
      obtain ⟨hrun, htested⟩ := ih hflags
      have hquiet := reachable_quiet hrun
      exact ⟨hrun.next ⟨a, htested.calm hquiet a, hstep⟩,
        step_tested hflags htested hquiet ha hstep⟩
  exact (hinv hflags).1

/-- In a run of calm steps for a non-blocking file no call puts its thread to sleep, and each one
    acquires the lock at once or says why not; the next step keeps this if and only if it is calm.
    All steps are calm while no acquisition comes between another thread's test and acquisition. -/
theorem prompt_iff (hflags : s.flags &&& xtFileModeNonblock ≠ 0) :
    (Reachable State.Initial CalmStep s →
      s.Prompt ∧ ∀ a s', s.step a = some s' → (s'.Prompt ↔ a.Calm s)) ∧
    (Reachable State.Initial UndisturbedStep s → Reachable State.Initial CalmStep s) := by
  refine ⟨fun h => ⟨(reachable_quiet h).prompt, fun a s' hstep => ?_⟩, reachable_calm hflags⟩
  obtain ⟨hcalm, hsleeps⟩ := step_quiet (reachable_quiet h) hstep
  exact ⟨fun hprompt => by_contra fun hnot => hsleeps hnot hprompt, fun ha => (hcalm ha).prompt⟩

end

/-- A non-blocking file that two threads use. -/
def shared : State (Fin 2) := ⟨RWLock.idleThreads 2, xtFileModeNonblock, fun _ => .outside, []⟩

theorem shared_initial : State.Initial shared :=
  ⟨⟨rfl, fun _ => rfl, fun _ => rfl, fun _ => rfl⟩, fun _ => rfl, rfl⟩

/-- A writer locks the file, and the other thread does not get it. -/
theorem prompt_iff_writer : ∃ s : State (Fin 2), Reachable State.Initial UndisturbedStep s ∧
    s.log.map (·.result) = [.wouldBlock, .success] ∧ s.Prompt := by
  have hstart : Reachable State.Initial UndisturbedStep shared := .start shared_initial
  have hwriter := (hstart.next ⟨.lockFile 0 xtLockWrite, trivial, rfl⟩).next
    ⟨.test 0, trivial, rfl⟩ |>.next ⟨.acquire 0, by simp [Action.Undisturbed, shared], rfl⟩
  have hboth := (hwriter.next ⟨.lockFile 1 xtLockRead, trivial, rfl⟩).next ⟨.test 1, trivial, rfl⟩
  refine ⟨_, hboth, rfl, ?_⟩
  have hcalm := (prompt_iff (by decide)).2 hboth
  exact ((prompt_iff (by decide)).1 hcalm).1

/-- Both threads pass the test, the first one acquires the lock for writing, and the other one
    sleeps. -/
theorem passed_test_sleeps : ∃ s : State (Fin 2), Reachable State.Initial Step s ∧
    s.flags &&& xtFileModeNonblock ≠ 0 ∧ s.lock.pc 1 = .sleptRead false ∧ ¬ s.Prompt := by
  have hstart : Reachable State.Initial Step shared := .start shared_initial
  have hfirst := (hstart.next ⟨.lockFile 0 xtLockWrite, rfl⟩).next ⟨.test 0, rfl⟩
  have hsecond := (hfirst.next ⟨.lockFile 1 xtLockRead, rfl⟩).next ⟨.test 1, rfl⟩
  have hlast := (hsecond.next ⟨.acquire 0, rfl⟩).next ⟨.acquire 1, rfl⟩
  exact ⟨_, hlast, by decide, rfl, fun hprompt => (hprompt.awake 1 false).1 rfl⟩

end XTOS.FileLock

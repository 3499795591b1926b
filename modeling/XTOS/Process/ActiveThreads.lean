import XTOS.Process.Owners

/-!
# The counter of active threads

`xtTerminateThread` lowers `process->activeThreads` and ends the process when it gets to
zero. Nothing raises the counter: `xtCreateThread` does not count the thread it creates,
and `xtCreateProcess` leaves the counter as the block had it.

## Main definitions

- `Kernel.active` — the threads of a process that are not terminated
- `Kernel.CountsActive` — the counter of each live process is their number
- `Kernel.EndsWithLast` — a live process ends with the last of them
- `CountSafe` — the condition on a call: no thread to be counted appears or goes
- `Kernel.Uncounted` — the invariant of the runs that meet it

## Main results

- `countsActive_of_reachable` — the property in every state of these runs
- `not_countsActive_xtCreateThread` — one active thread created breaks it at once
- `lastThread_endThread_iff` — what a right counter would be good for

## Design notes

Ending one process may end others whose counters get to zero, so the invariant is carried
through `xtTerminateProcess` by induction on its fuel. `TermFrame` is what such an end
leaves, also of the processes that are being ended further up.
-/

namespace XTOS.Process

open SysLib

/-- `(thread->state & 0x7f) == XT_THREAD_TERMINATED_STATE`. -/
def XTThread.terminated (th : XTThread) : Bool := th.state &&& 0x7f == xtThreadTerminatedState

/-- The threads created in a process that are not terminated. -/
def Kernel.active (k : Kernel) (p : ℕ) : Finset ℕ :=
  (k.process p).threads.toFinset.filter fun t =>
    (k.thread t).process = p ∧ (k.thread t).terminated = false

/-- The counter of each live process is the number of its active threads. -/
def Kernel.CountsActive (k : Kernel) : Prop :=
  ∀ p ∈ k.live, (k.process p).activeThreads = (k.active p).card

/-- Among the active threads of a live process, only the end of the last one ends it. -/
def Kernel.EndsWithLast (k : Kernel) : Prop :=
  ∀ p ∈ k.live, ∀ t ∈ k.active p, ∀ code,
    lastThread (endThread k t code) p ↔ k.active p = {t}

/-- A new process gets a block with a zero counter and no list; a new thread, if there is memory
    for it, is terminated, or it is listed by a process that is not live; and a thread that is
    ended belongs to a process that is not live but not freed. -/
def CountSafe (k : Kernel) : Call → Prop
  | .createProcess _ block page _ old => ∀ p ∈ block,
    (if page.isSome then old else k.process p).threads = [] ∧
      (if page.isSome then old else k.process p).activeThreads = 0
  | .createThread p _ state m => StackFails p state m ∨ RecordFails k m ∨
    state &&& 0x7f = xtThreadTerminatedState ∨ p ∉ k.live ∧ m.processNode = true
  | .terminateThread t _ => t ∈ k.threads ∧ (k.thread t).process ∉ k.live ∧
    k.processUsed (k.thread t).process = true
  | _ => True

instance (k : Kernel) (c : Call) : Decidable (CountSafe k c) :=
  match c with
  | .createProcess _ block page _ old => inferInstanceAs (Decidable (∀ p ∈ block,
      (if page.isSome then old else k.process p).threads = [] ∧
        (if page.isSome then old else k.process p).activeThreads = 0))
  | .createThread _ _ _ _ => inferInstanceAs (Decidable (_ ∨ _ ∨ _ ∨ _ ∧ _))
  | .terminateThread _ _ => inferInstanceAs (Decidable (_ ∧ _ ∧ _))
  | .terminateProcess _ _ => .isTrue trivial
  | .timer => .isTrue trivial

/-- Before any thread is created. There may be live processes, without threads. -/
structure Kernel.BeforeThreads (k : Kernel) : Prop where
  threads : k.threads = []
  live : ∀ p ∈ k.live, k.processUsed p = true ∧ (k.process p).activeThreads = 0
  list : ∀ p, k.processUsed p = true → (k.process p).threads = []
  current : (k.thread k.currentThread).waitThreads = []
  idle : (k.thread k.idleThread).waitThreads = []

/-- Live processes have a zero counter and terminated threads only, and each thread that is
    not terminated is listed by the process it names. -/
structure Kernel.Uncounted (k : Kernel) : Prop where
  ne_zero : 0 ∉ k.threads
  zero : ∀ p ∈ k.live, k.processUsed p = true ∧ (k.process p).activeThreads = 0
  ended : ∀ t ∈ k.threads, (k.thread t).process ∈ k.live → (k.thread t).terminated = true
  quiet : ∀ t, t ∈ k.threads ∨ t = k.currentThread ∨ t = k.idleThread →
    (k.thread t).waitThreads = []
  listed : ∀ p, k.processUsed p = true → ∀ t ∈ (k.process p).threads, t ∈ k.threads
  own : ∀ t ∈ k.threads, (k.thread t).terminated = false →
    k.processUsed (k.thread t).process = true ∧ t ∈ (k.process (k.thread t).process).threads

theorem Kernel.BeforeThreads.uncounted {k : Kernel} (h : k.BeforeThreads) : k.Uncounted where
  ne_zero := by simp [h.threads]
  zero := h.live
  ended t ht := by simp [h.threads] at ht
  quiet t ht := by
    obtain ht | rfl | rfl := ht
    · simp [h.threads] at ht
    · exact h.current
    · exact h.idle
  listed p hp t ht := by simp [h.list p hp] at ht
  own t ht := by simp [h.threads] at ht

theorem Kernel.Uncounted.active_eq {k : Kernel} (h : k.Uncounted) {p : ℕ} (hp : p ∈ k.live) :
    k.active p = ∅ := by
  refine Finset.filter_eq_empty_iff.mpr fun t ht hactive => ?_
  have hmem := h.listed p (h.zero p hp).1 t (List.mem_toFinset.mp ht)
  have hend := h.ended t hmem (hactive.1 ▸ hp)
  rw [hactive.2] at hend
  cases hend

theorem Kernel.Uncounted.countsActive {k : Kernel} (h : k.Uncounted) : k.CountsActive := by
  intro p hp
  rw [(h.zero p hp).2, h.active_eq hp, Finset.card_empty]

theorem Kernel.Uncounted.endsWithLast {k : Kernel} (h : k.Uncounted) : k.EndsWithLast := by
  intro p hp t ht
  rw [h.active_eq hp] at ht
  exact absurd ht (Finset.notMem_empty t)

/-! ### What a termination leaves -/

/-- Threads stay in the list, with their process and waiters; those that are terminated stay
    so; no process becomes live; and one that is being ended keeps its list and its record. -/
structure TermFrame (k k' : Kernel) : Prop where
  threads : k'.threads = k.threads
  owner : ∀ t, (k'.thread t).process = (k.thread t).process
  wait : ∀ t, (k'.thread t).waitThreads = (k.thread t).waitThreads
  ended : ∀ t, (k.thread t).terminated = true → (k'.thread t).terminated = true
  live : ∀ p ∈ k'.live, p ∈ k.live
  busy : ∀ p, k.Terminating p → k'.Terminating p ∧
    (k'.process p).threads = (k.process p).threads ∧ k'.processUsed p = k.processUsed p

theorem TermFrame.refl (k : Kernel) : TermFrame k k :=
  ⟨rfl, fun _ => rfl, fun _ => rfl, fun _ h => h, fun _ h => h, fun _ h => ⟨h, rfl, rfl⟩⟩

theorem TermFrame.trans {k k' k'' : Kernel} (h : TermFrame k k') (h' : TermFrame k' k'') :
    TermFrame k k'' where
  threads := h'.threads.trans h.threads
  owner t := (h'.owner t).trans (h.owner t)
  wait t := (h'.wait t).trans (h.wait t)
  ended t ht := h'.ended t (h.ended t ht)
  live p hp := h.live p (h'.live p hp)
  busy p hp := by
    obtain ⟨hterm, hlist, hused⟩ := h.busy p hp
    obtain ⟨hterm', hlist', hused'⟩ := h'.busy p hterm
    exact ⟨hterm', hlist'.trans hlist, hused'.trans hused⟩

/-- The invariant, and the frame from an earlier state on. -/
def Keeps (k k' : Kernel) : Prop := k'.Uncounted ∧ TermFrame k k'

theorem Keeps.trans {k k' k'' : Kernel} (h : Keeps k k') (h' : Keeps k' k'') : Keeps k k'' :=
  ⟨h'.1, h.2.trans h'.2⟩

/-! ### Changes of thread records -/

/-- Only thread records and the running thread differ. Every thread keeps its process and its
    waiters, and one that is terminated stays so; the running thread is the idle one or one
    of the list, if it is another one. -/
def Advanced (k k' : Kernel) : Prop :=
  ∃ thread current iterator,
    (∀ t, (thread t).process = (k.thread t).process ∧
      (thread t).waitThreads = (k.thread t).waitThreads ∧
      ((k.thread t).terminated = true → (thread t).terminated = true)) ∧
    (current = k.currentThread ∨ current = k.idleThread ∨ current ∈ k.threads) ∧
    k' = { k with
      thread := thread, currentThread := current, currentThreadIterator := iterator }

theorem Advanced.refl (k : Kernel) : Advanced k k :=
  ⟨_, _, _, fun _ => ⟨rfl, rfl, fun h => h⟩, .inl rfl, rfl⟩

theorem Advanced.trans {k k' k'' : Kernel} (h : Advanced k k') (h' : Advanced k' k'') :
    Advanced k k'' := by
  obtain ⟨th, cur, it, hsame, hcur, rfl⟩ := h
  obtain ⟨th', cur', it', hsame', hcur', rfl⟩ := h'
  refine ⟨th', cur', it', fun t => ?_, ?_, rfl⟩
  · obtain ⟨hproc, hwait, hend⟩ := hsame t
    obtain ⟨hproc', hwait', hend'⟩ := hsame' t
    exact ⟨hproc'.trans hproc, hwait'.trans hwait, fun h => hend' (hend h)⟩
  · obtain rfl | hother := hcur'
    · exact hcur
    · exact .inr hother

theorem advanced_modifyThread (k : Kernel) (t : ℕ) {f : XTThread → XTThread}
    (hproc : (f (k.thread t)).process = (k.thread t).process)
    (hwait : (f (k.thread t)).waitThreads = (k.thread t).waitThreads)
    (hend : (k.thread t).terminated = true → (f (k.thread t)).terminated = true) :
    Advanced k (k.modifyThread t f) := by
  refine ⟨_, _, _, fun t' => ?_, .inl rfl, rfl⟩
  by_cases h : t' = t
  · subst h
    simp only [Function.update_self]
    exact ⟨hproc, hwait, hend⟩
  · simp [h]

theorem advanced_ticks (k : Kernel) (t : ℕ) (ticks : XTThread → ℕ) :
    Advanced k (k.modifyThread t fun th => { th with ticks := ticks th }) :=
  advanced_modifyThread k t rfl rfl fun h => h

/-- Only a sleeping thread is woken, never a terminated one. -/
theorem advanced_wakeUpPass (k : Kernel) (t : ℕ) : Advanced k (wakeUpPass k t) := by
  have htick := advanced_ticks k t fun th => dec64 th.ticks
  rw [wakeUpPass]
  dsimp only
  split_ifs with hsleep
  · refine htick.trans (advanced_modifyThread _ t ?_ ?_ fun hend => ?_)
    · simp
    · simp
    · simp [XTThread.terminated, Kernel.modifyThread, hsleep, xtThreadSleepState,
        xtThreadTerminatedState] at hend
  · exact htick
  · exact .refl k

theorem advanced_xtWakeUpThreads (k : Kernel) : Advanced k (xtWakeUpThreads k) := by
  have hfold : ∀ (ts : List ℕ) (k : Kernel), Advanced k (ts.foldl wakeUpPass k) := by
    intro ts
    induction ts with
    | nil => exact .refl
    | cons t ts ih => exact fun k => (advanced_wakeUpPass k t).trans (ih _)
  exact hfold k.threads k

/-- The search ends at a thread of the list or at the idle thread. -/
theorem searchLoop_mem {k : Kernel} (hne : k.threads ≠ []) (start : ℕ) :
    ∀ fuel i, (searchLoop k start fuel i).2 = k.idleThread ∨
      (searchLoop k start fuel i).2 ∈ k.threads := by
  intro fuel
  induction fuel with
  | zero => exact fun _ => .inl rfl
  | succ fuel ih =>
    intro i
    have hlt : (if i + 1 < k.threads.length then i + 1 else 0) < k.threads.length := by
      split_ifs with h
      · exact h
      · exact List.length_pos_of_ne_nil hne
    rw [searchLoop]
    generalize (if i + 1 < k.threads.length then i + 1 else 0) = j at hlt
    have hget : k.threads.getD j 0 = k.threads[j] := by simp [List.getD, hlt]
    split_ifs
    · rw [hget]
      exact .inr (List.getElem_mem hlt)
    · exact .inl rfl
    · exact ih j

theorem advanced_switchNext (k : Kernel) : Advanced k (switchNext k) := by
  set next := searchLoop k k.currentThreadIterator k.threads.length k.currentThreadIterator
    with hnext
  have hmem : next.2 = k.idleThread ∨ next.2 ∈ k.threads := by
    by_cases hne : k.threads = []
    · rw [hnext, hne]
      exact .inl rfl
    · exact searchLoop_mem hne ..
  refine (advanced_ticks k next.2 XTThread.privilage).trans ?_
  exact ⟨_, _, _, fun _ => ⟨rfl, rfl, fun h => h⟩, .inr hmem, rfl⟩

theorem advanced_xtSchedule (k : Kernel) : Advanced k (xtSchedule k) := by
  refine (advanced_xtWakeUpThreads k).trans ?_
  rw [xtSchedule]
  dsimp only
  split_ifs
  · exact advanced_ticks _ _ fun th => dec64 th.ticks
  · exact (advanced_ticks _ _ fun th => dec64 th.ticks).trans (advanced_switchNext _)
  · exact advanced_switchNext _

theorem Advanced.keeps {k k' : Kernel} (h : Advanced k k') (hk : k.Uncounted) : Keeps k k' := by
  obtain ⟨th, cur, it, hsame, hcur, rfl⟩ := h
  constructor
  · refine ⟨hk.ne_zero, hk.zero, fun t ht hlive => ?_, fun t ht => ?_, hk.listed,
      fun t ht hend => ?_⟩
    · rw [(hsame t).1] at hlive
      exact (hsame t).2.2 (hk.ended t ht hlive)
    · rw [(hsame t).2.1]
      refine hk.quiet t ?_
      obtain ht | rfl | ht := ht
      · exact .inl ht
      · obtain h | h | h := hcur
        · exact .inr (.inl h)
        · exact .inr (.inr h)
        · exact .inl h
      · exact .inr (.inr ht)
    · rw [(hsame t).1]
      refine hk.own t ht (Bool.eq_false_iff.mpr fun hold => ?_)
      rw [(hsame t).2.2 hold] at hend
      cases hend
  · exact ⟨rfl, fun t => (hsame t).1, fun t => (hsame t).2.1, fun t => (hsame t).2.2,
      fun _ h => h, fun _ h => ⟨h, rfl, rfl⟩⟩

/-! ### Ending one thread -/

/-- A thread that nobody waits for ends alone. -/
theorem markTerminated_quiet {k : Kernel} {t : ℕ} (h : (k.thread t).waitThreads = [])
    (code : ℕ) : markTerminated k t code = k.modifyThread t fun th =>
      { th with result := code, state := (th.state &&& 0x80) ||| xtThreadTerminatedState } := by
  rw [markTerminated]
  simp [Kernel.modifyThread, h]

theorem advanced_markTerminated {k : Kernel} {t : ℕ} (h : (k.thread t).waitThreads = [])
    (code : ℕ) : Advanced k (markTerminated k t code) ∧
      ((markTerminated k t code).thread t).terminated = true := by
  have hend : ∀ x, ((x &&& 0x80) ||| xtThreadTerminatedState) &&& 0x7f == xtThreadTerminatedState := by
    intro x
    rw [endState_and, beq_iff_eq, xtThreadTerminatedState]
  rw [markTerminated_quiet h]
  refine ⟨advanced_modifyThread k t rfl rfl fun _ => hend _, ?_⟩
  rw [Kernel.modifyThread]
  simp only [Function.update_self]
  exact hend _

/-- The record of a process that is not live, apart from its list. -/
theorem keeps_modifyProcess {k : Kernel} (hk : k.Uncounted) {p : ℕ} (hp : p ∉ k.live)
    {f : XTProcess → XTProcess} (hthreads : ∀ pr, (f pr).threads = pr.threads)
    (hflags : ∀ pr, pr.flags &&& xtProcessTerminating ≠ 0 →
      (f pr).flags &&& xtProcessTerminating ≠ 0) : Keeps k (k.modifyProcess p f) := by
  have hlist : ∀ q, ((k.modifyProcess p f).process q).threads = (k.process q).threads := by
    intro q
    by_cases hqp : q = p
    · simp [Kernel.modifyProcess, hqp, hthreads]
    · simp [Kernel.modifyProcess, hqp]
  constructor
  · refine ⟨hk.ne_zero, fun q hq => ?_, hk.ended, hk.quiet, fun q hq t ht => ?_,
      fun t ht hend => ?_⟩
    · have hne : q ≠ p := fun h => hp (h ▸ hq)
      simpa [Kernel.modifyProcess, hne] using hk.zero q hq
    · exact hk.listed q hq t (hlist q ▸ ht)
    · exact ⟨(hk.own t ht hend).1, (hlist _).symm ▸ (hk.own t ht hend).2⟩
  · refine ⟨rfl, fun _ => rfl, fun _ => rfl, fun _ h => h, fun _ h => h,
      fun q hq => ⟨?_, hlist q, rfl⟩⟩
    by_cases hqp : q = p
    · subst hqp
      simpa [Kernel.Terminating, Kernel.modifyProcess] using hflags _ hq
    · simpa [Kernel.Terminating, Kernel.modifyProcess, hqp] using hq

/-- The counter of a process that is not live does not matter. -/
theorem keeps_lowerCount {k : Kernel} (hk : k.Uncounted) {p : ℕ} (hp : p ∉ k.live) :
    Keeps k (lowerCount k p) := by
  rw [lowerCount]
  split_ifs
  · exact ⟨hk, .refl k⟩
  · exact keeps_modifyProcess hk hp (fun _ => rfl) fun _ h => h

/-- A thread of a process that is not live ends, with the process if the counter says so. -/
theorem keeps_terminateThreadWith {tp : Kernel → ℕ → ℕ → Outcome}
    (htp : ∀ k p code, k.Uncounted → k.processUsed p = true → (tp k p code).All (Keeps k))
    {k : Kernel} (hk : k.Uncounted) {t : ℕ} (ht0 : t ≠ 0) (hwait : (k.thread t).waitThreads = [])
    (hlive : (k.thread t).process ∉ k.live) (hused : k.processUsed (k.thread t).process = true)
    (code : ℕ) : (terminateThreadWith tp k t code).All fun k' =>
      Keeps k k' ∧ (k'.thread t).terminated = true := by
  obtain ⟨hmark, hself⟩ := advanced_markTerminated hwait code
  have hkeep := hmark.keeps hk
  have hcount := keeps_lowerCount hkeep.1 (p := (k.thread t).process)
    fun h => hlive (hkeep.2.live _ h)
  have hend : Keeps k (endThread k t code) ∧
      ((endThread k t code).thread t).terminated = true :=
    ⟨hkeep.trans hcount, hcount.2.ended t hself⟩
  rw [terminateThreadWith_eq ht0]
  refine Outcome.All.andThen (P := fun k' => Keeps k k' ∧ (k'.thread t).terminated = true)
    ?_ (fun _ h => h) fun k' hk' => ?_
  · split_ifs
    · have hprocess := htp (endThread k t code) (k.thread t).process code hend.1.1
        ((endFrame_endThread k t code).processUsed ▸ hused)
      exact hprocess.mono fun _ h => ⟨hend.1.trans h, h.2.ended t hend.2⟩
    · exact all_returned.mpr hend
  · split_ifs
    · have hnext := (advanced_xtSchedule k').keeps hk'.1.1
      exact all_gone.mpr ⟨hk'.1.trans hnext, hnext.2.ended t hk'.2⟩
    · exact all_returned.mpr hk'

/-! ### Ending a process -/

/-- A loop whose body does something lasting for each element: when it returns, this is done
    for all of them. -/
theorem forEach_done (I : Kernel → Prop) (Rel : Kernel → Kernel → Prop) (Done : Kernel → ℕ → Prop)
    {body : Kernel → ℕ → Outcome} {ts : List ℕ} (hrefl : ∀ k, I k → Rel k k)
    (htrans : ∀ {k k' k''}, Rel k k' → Rel k' k'' → Rel k k'')
    (hlast : ∀ {k k' t}, Rel k k' → Done k t → Done k' t)
    (hkeep : ∀ {k k'}, I k → Rel k k' → I k')
    (hbody : ∀ t ∈ ts, ∀ k, I k → (body k t).All fun k' => Rel k k' ∧ Done k' t) :
    ∀ k, I k → (forEach body ts k).All (Rel k) ∧
      ∀ k', forEach body ts k = .returned k' → ∀ t ∈ ts, Done k' t := by
  induction ts with
  | nil => exact fun k hk => ⟨all_returned.mpr (hrefl k hk), by simp⟩
  | cons t ts ih =>
    intro k hk
    have hpass := hbody t List.mem_cons_self k hk
    rw [forEach]
    cases hout : body k t with
    | stuck => exact ⟨all_stuck, fun _ h => by cases h⟩
    | gone k1 =>
      rw [hout, all_gone] at hpass
      exact ⟨all_gone.mpr hpass.1, fun _ h => by cases h⟩
    | returned k1 =>
      rw [hout, all_returned] at hpass
      obtain ⟨hrest, hdone⟩ := ih (fun t' ht' => hbody t' (List.mem_cons_of_mem _ ht')) k1
        (hkeep hk hpass.1)
      refine ⟨hrest.mono fun _ h => htrans hpass.1 h, fun k' hk' t' ht' => ?_⟩
      obtain rfl | ht' := List.mem_cons.mp ht'
      · refine hlast (hrest k' ?_) hpass.2
        rw [show forEach body ts k1 = .returned k' from hk']
        rfl
      · exact hdone k' hk' t' ht'

/-- What `xtTerminateProcess` frees at its end: a process with terminated threads only. -/
theorem uncounted_releaseProcess {fuel : ℕ} {k : Kernel} {p : ℕ} (hk : k.Uncounted)
    (hp : p ∉ k.live)
    (hend : ∀ t ∈ k.threads, (k.thread t).process = p → (k.thread t).terminated = true) :
    (releaseProcess fuel k p).All fun k' => k'.Uncounted ∧ k'.threads = k.threads ∧
      k'.thread = k.thread ∧ k'.live = k.live ∧
      ∀ q, q ≠ p → k'.process q = k.process q ∧ k'.processUsed q = k.processUsed q := by
  intro k' hk'
  obtain ⟨pages, H, id, rfl⟩ := releaseProcess_eq hk'
  refine ⟨⟨hk.ne_zero, fun q hq => ?_, hk.ended, hk.quiet, fun q hq t ht => ?_,
    fun t ht hnot => ?_⟩, rfl, rfl, rfl, fun q hqp => ?_⟩
  · have hne : q ≠ p := fun h => hp (h ▸ hq)
    simpa [hne] using hk.zero q hq
  · dsimp only at hq ht
    have hne : q ≠ p := by
      rintro rfl
      rw [Function.update_self] at hq
      cases hq
    rw [Function.update_of_ne hne] at hq ht
    exact hk.listed q hq t ht
  · dsimp only at ht hnot ⊢
    have hne : (k.thread t).process ≠ p := by
      intro h
      rw [hend t ht h] at hnot
      cases hnot
    rw [Function.update_of_ne hne, Function.update_of_ne hne]
    exact hk.own t ht hnot
  · exact ⟨Function.update_of_ne hqp _ _, Function.update_of_ne hqp _ _⟩

/-- A process is not live any more. -/
theorem keeps_live {k : Kernel} (hk : k.Uncounted) (p : ℕ) :
    Keeps k { k with live := k.live.filter (· ≠ p) } := by
  have hlive : ∀ q ∈ k.live.filter (· ≠ p), q ∈ k.live := fun q hq => List.mem_of_mem_filter hq
  constructor
  · exact ⟨hk.ne_zero, fun q hq => hk.zero q (hlive q hq),
      fun t ht hq => hk.ended t ht (hlive _ hq), hk.quiet, hk.listed, hk.own⟩
  · exact ⟨rfl, fun _ => rfl, fun _ => rfl, fun _ h => h, hlive, fun _ h => ⟨h, rfl, rfl⟩⟩

/-- The first loop of `xtTerminateProcess`: when it returns, each thread of the list has ended,
    but for the running one. -/
theorem keeps_endThreads {tp : Kernel → ℕ → ℕ → Outcome}
    (htp : ∀ k p code, k.Uncounted → k.processUsed p = true → (tp k p code).All (Keeps k))
    {k : Kernel} (hk : k.Uncounted) {p : ℕ} (hused : k.processUsed p = true) {current code : ℕ}
    {body : Kernel → ℕ → Outcome}
    (hbody : ∀ k t, body k t = if t ≠ 0 ∧ t ≠ current ∧
        (k.thread t).state &&& 0x7f ≠ xtThreadTerminatedState then
      terminateThreadWith tp k t code else .returned k) :
    (forEach body (k.process p).threads k).All (Keeps k) ∧
      ∀ k', forEach body (k.process p).threads k = .returned k' →
        ∀ t ∈ (k.process p).threads, t ≠ 0 → t ≠ current → (k'.thread t).terminated = true := by
  refine forEach_done (Keeps k) Keeps
    (fun k' t => t ≠ 0 → t ≠ current → (k'.thread t).terminated = true)
    (fun k' hk' => ⟨hk'.1, .refl k'⟩) Keeps.trans
    (fun hkeep hend h0 hcur => hkeep.2.ended _ (hend h0 hcur)) Keeps.trans ?_ k ⟨hk, .refl k⟩
  intro t ht k' hk'
  rw [hbody]
  split_ifs with hcond
  · have hnot : (k'.thread t).terminated = false := by
      rw [XTThread.terminated, beq_eq_false_iff_ne]
      exact hcond.2.2
    have hmem : t ∈ k'.threads := by
      rw [hk'.2.threads]
      exact hk.listed p hused t ht
    have hlive : (k'.thread t).process ∉ k'.live := by
      intro hlive
      rw [hk'.1.ended t hmem hlive] at hnot
      cases hnot
    have hend := keeps_terminateThreadWith htp hk'.1 hcond.1 (hk'.1.quiet t (.inl hmem)) hlive
      (hk'.1.own t hmem hnot).1 code
    exact hend.mono fun _ h => ⟨h.1, fun _ _ => h.2⟩
  · refine all_returned.mpr ⟨⟨hk'.1, .refl k'⟩, fun h0 hcur => ?_⟩
    by_contra hnot
    refine hcond ⟨h0, hcur, fun hstate => hnot ?_⟩
    rw [XTThread.terminated, beq_iff_eq]
    exact hstate

/-- **Ending a process**, with all those that end with it, keeps the invariant. -/
theorem keeps_xtTerminateProcess (fuel : ℕ) : ∀ k p code, k.Uncounted → k.processUsed p = true →
    (xtTerminateProcess fuel k p code).All (Keeps k) := by
  induction fuel with
  | zero => exact fun _ _ _ _ _ => all_stuck
  | succ fuel ih =>
    intro k p code hk hused
    have hlive := keeps_live hk p
    rw [xtTerminateProcess]
    split_ifs with hp
    · exact all_returned.mpr ⟨hk, .refl k⟩
    · set k0 : Kernel := { k with live := k.live.filter (· ≠ p) } with hk0
      have hdead : p ∉ k0.live := by simp [hk0]
      dsimp only
      split_ifs with hflag
      · exact all_returned.mpr hlive
      · set k1 := k0.modifyProcess p fun pr =>
          { pr with flags := pr.flags ||| xtProcessTerminating } with hk1
        have hmark : k1.Terminating p := by
          simp [hk1, Kernel.Terminating, Kernel.modifyProcess, xtProcessTerminating]
        have hkeep1 : Keeps k k1 := hlive.trans (keeps_modifyProcess hlive.1 hdead (fun _ => rfl)
          fun pr _ => by simp [xtProcessTerminating])
        set body := fun (k : Kernel) (t : ℕ) => if t ≠ 0 ∧ t ≠ k1.currentThread ∧
            (k.thread t).state &&& 0x7f ≠ xtThreadTerminatedState then
          terminateThreadWith (xtTerminateProcess fuel) k t code else .returned k with hbody
        obtain ⟨hloop, hdone⟩ := keeps_endThreads ih hkeep1.1 hused fun k t => congrFun₂ hbody k t
        cases hout : forEach body (k1.process p).threads k1 with
        | stuck => exact all_stuck
        | gone k2 =>
          rw [hout, all_gone] at hloop
          exact all_gone.mpr (hkeep1.trans hloop)
        | returned k2 =>
          rw [hout, all_returned] at hloop
          have hkeep2 := hkeep1.trans hloop
          obtain ⟨-, hlist, hused2⟩ := hloop.2.busy p hmark
          have hdead2 : p ∉ k2.live := fun h => hdead (hloop.2.live p h)
          change Outcome.All (if _ then _ else _) _
          split_ifs with hcur
          · -- the running thread ends its own process
            refine (keeps_terminateThreadWith ih hloop.1 hcur.1 ?_ ?_ ?_ code).mono
              fun _ h => hkeep2.trans h.1
            · rw [hloop.2.wait]
              exact hkeep1.1.quiet _ (.inr (.inl rfl))
            · rwa [hcur.2]
            · rw [hcur.2, hused2]
              exact hused
          · have hend : ∀ t ∈ k2.threads, (k2.thread t).process = p →
                (k2.thread t).terminated = true := by
              intro t ht hproc
              by_contra hnot
              obtain ⟨-, hmem⟩ := hloop.1.own t ht (Bool.eq_false_iff.mpr hnot)
              rw [hproc, hlist] at hmem
              have ht0 : t ≠ 0 := fun h => hloop.1.ne_zero (h ▸ ht)
              exact hnot (hdone k2 hout t hmem ht0 fun h => hcur ⟨h ▸ ht0, h ▸ hproc⟩)
            refine (uncounted_releaseProcess hloop.1 hdead2 hend).mono fun k3 hk3 => ?_
            obtain ⟨hunc, hthreads, hthread, hlive3, hother⟩ := hk3
            refine ⟨hunc, hthreads.trans hkeep2.2.threads, fun t => ?_, fun t => ?_, fun t ht => ?_,
              fun q hq => hkeep2.2.live q (hlive3 ▸ hq), fun q hq => ?_⟩
            · rw [hthread, hkeep2.2.owner]
            · rw [hthread, hkeep2.2.wait]
            · rw [hthread]
              exact hkeep2.2.ended t ht
            · have hne : q ≠ p := fun h => hflag (h ▸ hq)
              rw [Kernel.Terminating, (hother q hne).1, (hother q hne).2]
              exact hkeep2.2.busy q hq

/-! ### Creations -/

theorem StackOnly.uncounted {k k' : Kernel} (h : StackOnly k k') (hk : k.Uncounted) :
    k'.Uncounted := by
  obtain ⟨process, owned, hmaps, rfl⟩ := h
  have hlist : ∀ q, (process q).threads = (k.process q).threads ∧
      (process q).activeThreads = (k.process q).activeThreads := by
    intro q
    obtain ⟨maps, hq⟩ := hmaps q
    simp only [hq, and_self]
  refine ⟨hk.ne_zero, fun q hq => ?_, hk.ended, hk.quiet, fun q hq t ht => ?_, fun t ht hend => ?_⟩
  · exact ⟨(hk.zero q hq).1, (hlist q).2.trans (hk.zero q hq).2⟩
  · exact hk.listed q hq t ((hlist q).1 ▸ ht)
  · exact ⟨(hk.own t ht hend).1, (hlist _).1.symm ▸ (hk.own t ht hend).2⟩

/-- `setThread` sets the fields of the record and lists it, if there is a node. -/
theorem setThread_eq (k : Kernel) (p kernelStack state t : ℕ) (m : ThreadAlloc) :
    ∃ th process, th.process = p ∧ th.state = state ∧ th.waitThreads = [] ∧
      (∀ q t', t' ∈ (process q).threads ↔
        t' ∈ (k.process q).threads ∨ q = p ∧ m.processNode = true ∧ t' = t) ∧
      (∀ q, (process q).activeThreads = (k.process q).activeThreads) ∧
      (setThread k p kernelStack state t m).1 =
        { k with thread := Function.update k.thread t th, process := process } := by
  rw [setThread]
  split_ifs with hnode
  · refine ⟨_, _, rfl, rfl, rfl, fun q t' => ?_, fun q => ?_, rfl⟩ <;> by_cases hq : q = p
    · subst hq
      simp [Kernel.modifyThread, hnode]
    · simp [Kernel.modifyThread, hq]
    · subst hq
      simp [Kernel.modifyThread]
    · simp [Kernel.modifyThread, hq]
  · exact ⟨_, _, rfl, rfl, rfl, fun q t' => by simp [hnode], fun _ => rfl, rfl⟩

/-- A record, new or used again, gets its fields and its place in the list of the process. -/
theorem uncounted_setThread {k : Kernel} (hk : k.Uncounted) {p t state : ℕ} {m : ThreadAlloc}
    (hp : k.processUsed p = true) (ht0 : t ≠ 0)
    (hsafe : state &&& 0x7f = xtThreadTerminatedState ∨ p ∉ k.live ∧ m.processNode = true)
    (used : ℕ → Bool) {thread : ℕ → XTThread} (hthread : ∀ t', t' ≠ t → thread t' = k.thread t')
    {threads : List ℕ} (hthreads : ∀ t', t' ∈ threads ↔ t' ∈ k.threads ∨ t' = t) {current : ℕ}
    (hcurrent : current = k.currentThread ∨ current = t) (iterator count kernelStack : ℕ) :
    (setThread { k with
        threadUsed := used, thread := thread, threads := threads, currentThread := current
        currentThreadIterator := iterator, threadCount := count }
      p kernelStack state t m).1.Uncounted := by
  obtain ⟨th, process, hproc, hstate, hwait, hlist, hactive, h⟩ := setThread_eq { k with
    threadUsed := used, thread := thread, threads := threads, currentThread := current
    currentThreadIterator := iterator, threadCount := count } p kernelStack state t m
  have hold : ∀ t', t' ≠ t → Function.update thread t th t' = k.thread t' := fun t' ht' => by
    rw [Function.update_of_ne ht', hthread t' ht']
  rw [h]
  refine ⟨?_, fun q hq => ?_, fun t' ht' hlive => ?_, fun t' ht' => ?_, fun q hq t' ht' => ?_,
    fun t' ht' hend => ?_⟩
  · intro hmem
    obtain hmem | rfl := (hthreads 0).mp hmem
    · exact hk.ne_zero hmem
    · exact ht0 rfl
  · exact ⟨(hk.zero q hq).1, (hactive q).trans (hk.zero q hq).2⟩
  · dsimp only at ht' hlive ⊢
    by_cases heq : t' = t
    · subst heq
      rw [Function.update_self] at hlive ⊢
      rw [hproc] at hlive
      rw [XTThread.terminated, hstate, beq_iff_eq]
      exact hsafe.resolve_right fun h => h.1 hlive
    · rw [hold t' heq] at hlive ⊢
      exact hk.ended t' (((hthreads t').mp ht').resolve_right heq) hlive
  · dsimp only at ht' ⊢
    by_cases heq : t' = t
    · rw [heq, Function.update_self]
      exact hwait
    · rw [hold t' heq]
      refine hk.quiet t' ?_
      obtain ht' | rfl | rfl := ht'
      · exact .inl (((hthreads t').mp ht').resolve_right heq)
      · exact .inr (.inl (hcurrent.resolve_right heq))
      · exact .inr (.inr rfl)
  · refine (hthreads t').mpr ?_
    obtain hmem | ⟨-, -, heq⟩ := (hlist q t').mp ht'
    · exact .inl (hk.listed q hq t' hmem)
    · exact .inr heq
  · dsimp only at ht' hend ⊢
    by_cases heq : t' = t
    · subst heq
      rw [Function.update_self] at hend ⊢
      rw [XTThread.terminated, hstate, beq_eq_false_iff_ne] at hend
      rw [hproc]
      exact ⟨hp, (hlist p t').mpr (.inr ⟨rfl, (hsafe.resolve_left hend).2, rfl⟩)⟩
    · rw [hold t' heq] at hend ⊢
      obtain ⟨hused, hmem⟩ := hk.own t' (((hthreads t').mp ht').resolve_right heq) hend
      exact ⟨hused, (hlist _ t').mpr (.inl hmem)⟩

theorem uncounted_xtCreateThread {k : Kernel} (hk : k.Uncounted) {p stackSize state : ℕ}
    {m : ThreadAlloc} (hp : k.processUsed p = true) (hfresh : Fresh k.threadUsed m.block)
    (hsafe : CountSafe k (.createThread p stackSize state m)) :
    (xtCreateThread k p stackSize state m).1.Uncounted := by
  obtain ⟨k1, hstack, ⟨-, h⟩ | ⟨hok, kernelStack, h⟩⟩ := xtCreateThread_cases k p stackSize state m
  all_goals
    have hk1 := hstack.uncounted hk
    rw [h]
  · exact hk1
  · have hrecord := hsafe.resolve_left hok
    obtain ⟨process, owned, -, rfl⟩ := hstack
    obtain ⟨used, -, -, h⟩ | ⟨t, ht, hterm, h⟩ |
        ⟨t, th, cur, it, count, hblock, hnode, hother, hcur, h⟩ :=
      takeThread_cases { k with process := process, owned := owned } m
    · rw [h]
      exact ⟨hk1.ne_zero, hk1.zero, hk1.ended, hk1.quiet, hk1.listed, hk1.own⟩
    · rw [h]
      have ht0 : t ≠ 0 := fun h => hk.ne_zero (h ▸ ht)
      have hsafe' := hrecord.resolve_left fun hfail => hfail.1 t ht hterm
      exact uncounted_setThread hk1 hp ht0 hsafe' k.threadUsed (fun _ _ => rfl)
        (fun t' => ⟨.inl, fun h => h.elim id fun heq => heq ▸ ht⟩) (.inl rfl)
        k.currentThreadIterator k.threadCount kernelStack
    · rw [h]
      have hsafe' := hrecord.resolve_left fun hfail => by simp [RecordFails, hblock, hnode] at hfail
      exact uncounted_setThread hk1 hp (hfresh t hblock).1 hsafe' _ hother
        (fun t' => by simp) hcur it count kernelStack

theorem uncounted_xtCreateProcess {fuel : ℕ} {k k' : Kernel} {parentProcess : ℕ}
    {block page node : Option ℕ} {old : XTProcess} {r : Except XTResult ℕ} (hk : k.Uncounted)
    (h : xtCreateProcess fuel k parentProcess block page node old = some (k', r))
    (hfresh : Fresh k.processUsed block)
    (hsafe : CountSafe k (.createProcess parentProcess block page node old)) : k'.Uncounted := by
  obtain ⟨used, hmono, hnew, rfl⟩ | ⟨p, pageTable, _, _, _, _, rfl, rfl, rfl⟩ :=
    xtCreateProcess_cases h
  · refine ⟨hk.ne_zero, fun q hq => ?_, hk.ended, hk.quiet, fun q hq t ht => ?_,
      fun t ht hend => ?_⟩
    · exact ⟨hmono q (hk.zero q hq).1, (hk.zero q hq).2⟩
    · obtain hold | ⟨rfl, rfl⟩ := hnew q hq
      · exact hk.listed q hold t ht
      · have hempty : (k.process q).threads = [] := (hsafe q rfl).1
        rw [show (k.process q).threads = [] from hempty] at ht
        cases ht
    · exact ⟨hmono _ (hk.own t ht hend).1, (hk.own t ht hend).2⟩
  · have hunused := (hfresh p rfl).2
    have hempty : old.threads = [] := (hsafe p rfl).1
    have hzero : old.activeThreads = 0 := (hsafe p rfl).2
    have hne : ∀ q, k.processUsed q = true → q ≠ p := by
      rintro q hq rfl
      rw [hq] at hunused
      cases hunused
    refine ⟨hk.ne_zero, fun q hq => ?_, fun t ht hlive => ?_, hk.quiet, fun q hq t ht => ?_,
      fun t ht hend => ?_⟩
    · dsimp only at hq ⊢
      obtain hq | rfl := (List.mem_append.trans (or_congr_right List.mem_singleton)).mp hq
      · have hqp := hne q (hk.zero q hq).1
        rw [Function.update_of_ne hqp, Function.update_of_ne hqp]
        exact hk.zero q hq
      · simp [hzero]
    · by_contra hnot
      obtain ⟨hused, -⟩ := hk.own t ht (Bool.eq_false_iff.mpr hnot)
      obtain hlive | heq := (List.mem_append.trans (or_congr_right List.mem_singleton)).mp hlive
      · exact hnot (hk.ended t ht hlive)
      · exact hne _ hused heq
    · dsimp only at hq ht
      by_cases hqp : q = p
      · subst hqp
        rw [Function.update_self, hempty] at ht
        cases ht
      · rw [Function.update_of_ne hqp] at hq ht
        exact hk.listed q hq t ht
    · obtain ⟨hused, hmem⟩ := hk.own t ht hend
      have hqp := hne _ hused
      dsimp only
      rw [Function.update_of_ne hqp, Function.update_of_ne hqp]
      exact ⟨hused, hmem⟩

/-! ### Runs -/

theorem uncounted_step {k k' : Kernel} (hs : k.StepIf CountSafe k') (hk : k.Uncounted) :
    k'.Uncounted := by
  obtain ⟨fuel, c, hsafe, hexec⟩ := hs
  have hsome := Kernel.exec_some hexec
  cases c with
  | createProcess parentProcess block page node old =>
    obtain ⟨hfresh, r, hcreate⟩ := hsome
    exact uncounted_xtCreateProcess hk hcreate hfresh hsafe
  | terminateProcess p code =>
    exact (keeps_xtTerminateProcess fuel k p code hk hsome.1 k' hsome.2).1
  | createThread p stackSize state m =>
    obtain ⟨⟨hp, hfresh⟩, rfl⟩ := hsome
    exact uncounted_xtCreateThread hk hp hfresh hsafe
  | terminateThread t code =>
    obtain ⟨ht, hlive, hused⟩ := hsafe
    have ht0 : t ≠ 0 := fun h => hk.ne_zero (h ▸ ht)
    exact (keeps_terminateThreadWith (keeps_xtTerminateProcess fuel) hk ht0 (hk.quiet t (.inl ht))
      hlive hused code k' hsome.2).1.1
  | timer =>
    rw [show k' = xtSchedule k from hsome]
    exact ((advanced_xtSchedule k).keeps hk).1

/-- A thread that is created active in a live process is not counted, so it breaks the property at
    once. -/
theorem not_countsActive_xtCreateThread {k : Kernel} (hk : k.Uncounted) {p stackSize state : ℕ}
    {m : ThreadAlloc} (hp : p ∈ k.live) (hstack : ¬ StackFails p state m) (hrecord : ¬ RecordFails k m)
    (hstate : state &&& 0x7f ≠ xtThreadTerminatedState) (hnode : m.processNode = true) :
    ¬ (xtCreateThread k p stackSize state m).1.CountsActive := by
  have hset : ∀ (k' : Kernel) kernelStack t, p ∈ k'.live → (k'.process p).activeThreads = 0 →
      ¬ (setThread k' p kernelStack state t m).1.CountsActive := by
    intro k' kernelStack t hlive hzero hcount
    obtain ⟨th, process, hproc, hth, -, hlist, hactive, h⟩ := setThread_eq k' p kernelStack state t m
    rw [h] at hcount
    have hmem : t ∈ Kernel.active { k' with
        thread := Function.update k'.thread t th, process := process } p := by
      have hend : th.terminated = false := by
        rw [XTThread.terminated, hth, beq_eq_false_iff_ne]
        exact hstate
      simp [Kernel.active, hlist, hnode, hproc, hend]
    have hcard := hcount p hlive
    rw [hactive, hzero] at hcard
    exact absurd (Finset.card_pos.mpr ⟨t, hmem⟩) (by omega)
  obtain ⟨k1, ⟨process, owned, hmaps, rfl⟩, ⟨hfails, -⟩ | ⟨-, kernelStack, h⟩⟩ :=
    xtCreateThread_cases k p stackSize state m
  · exact absurd hfails hstack
  have hzero : (process p).activeThreads = 0 := by
    obtain ⟨maps, hmaps⟩ := hmaps p
    rw [hmaps]
    exact (hk.zero p hp).2
  rw [h]
  obtain ⟨used, -, -, htake⟩ | ⟨t, -, -, htake⟩ | ⟨t, th, cur, it, count, -, -, -, -, htake⟩ :=
    takeThread_cases { k with process := process, owned := owned } m
  · exact absurd (takeThread_error htake) hrecord
  · rw [htake]
    exact hset _ kernelStack t hp hzero
  · rw [htake]
    exact hset _ kernelStack t hp hzero

/-- **Active threads**: in every run that gives live processes terminated threads only and ends
    no thread of theirs, the counter of each live process is the number of its active
    threads, and it ends with the last of them, in every state; and the first active thread
    that a live process gets breaks this. -/
theorem countsActive_of_reachable {k : Kernel}
    (h : Reachable Kernel.BeforeThreads (Kernel.StepIf CountSafe) k) :
    (k.CountsActive ∧ k.EndsWithLast) ∧
      ∀ p stackSize state m, p ∈ k.live → ¬ StackFails p state m → ¬ RecordFails k m →
        state &&& 0x7f ≠ xtThreadTerminatedState → m.processNode = true →
        ¬ (xtCreateThread k p stackSize state m).1.CountsActive := by
  have hunc := h.invariant (I := Kernel.Uncounted) (fun _ hk => hk.uncounted)
    fun _ _ hk hs => uncounted_step hs hk
  exact ⟨⟨hunc.countsActive, hunc.endsWithLast⟩,
    fun p stackSize state m => not_countsActive_xtCreateThread hunc⟩

/-- With a right counter a process would be ended exactly when its last active thread ends. -/
theorem lastThread_endThread_iff {k : Kernel} {p t : ℕ} (hp : p ≠ 0) (hterm : ¬ k.Terminating p)
    (hcount : (k.process p).activeThreads = (k.active p).card)
    (hsmall : (k.process p).activeThreads < 2 ^ 64) (ht : t ∈ k.active p) (code : ℕ) :
    lastThread (endThread k t code) (k.thread t).process ↔ k.active p = {t} := by
  have howner : (k.thread t).process = p := (Finset.mem_filter.mp ht).2.1
  obtain ⟨th, cur, it, -, hmark⟩ := threadsOnly_markTerminated k t code
  have hpos : 0 < (k.active p).card := Finset.card_pos.mpr ⟨t, ht⟩
  have hone : k.active p = {t} ↔ (k.active p).card = 1 := by
    refine ⟨fun h => by rw [h, Finset.card_singleton], fun h => ?_⟩
    obtain ⟨t', ht'⟩ := Finset.card_eq_one.mp h
    rw [ht', Finset.mem_singleton] at ht
    rw [ht', ht]
  have hflags : (k.process p).flags &&& xtProcessTerminating = 0 := not_not.mp hterm
  have hlast : lastThread (endThread k t code) p ↔ dec64 (k.process p).activeThreads = 0 := by
    rw [lastThread, endThread, howner, lowerCount, if_neg hp, hmark]
    simp only [Kernel.modifyProcess, Function.update_self]
    exact ⟨fun h => h.2.1, fun h => ⟨hp, h, hflags⟩⟩
  rw [hone, howner, hlast, ← hcount]
  exact dec64_eq_zero_iff (hcount ▸ hpos) hsmall

theorem bootKernel_beforeThreads : bootKernel.BeforeThreads where
  threads := rfl
  live p hp := by cases hp
  list _ _ := rfl
  current := rfl
  idle := rfl

/-- Threads of the kernel process run and end, while two processes are created, one of them
    with a terminated thread, and the other one is ended. -/
theorem countsActive_terminated_thread : ∃ k : Kernel,
    Reachable Kernel.BeforeThreads (Kernel.StepIf CountSafe) k ∧ k.live = [10] ∧
      (k.process 10).threads = [6] ∧ (k.process 1).threads = [5, 7] ∧ k.CountsActive ∧
      k.EndsWithLast := by
  let ended : Call := .createThread 10 0 xtThreadTerminatedState ⟨some 0x300000,
    ⟨none, 0, none, false, ⟨.success, []⟩⟩, some 6, true, true⟩
  let calls := [spawn 1 5, spawn 1 7, createAt 10, ended, createAt 20, .terminateThread 7 0,
    .timer, .terminateProcess 20 0]
  obtain ⟨k, hrun⟩ := Option.isSome_iff_exists.mp
    (show (bootKernel.run CountSafe 8 calls).isSome by decide +kernel)
  have hreach := Kernel.run_reachable (.start bootKernel_beforeThreads) hrun
  have hstate : (bootKernel.run CountSafe 8 calls).map
      (fun k => (k.live, (k.process 10).threads, (k.process 1).threads)) =
        some ([10], [6], [5, 7]) := by decide +kernel
  rw [hrun] at hstate
  have htriple : (k.live, (k.process 10).threads, (k.process 1).threads) = ([10], [6], [5, 7]) :=
    Option.some.inj hstate
  simp only [Prod.mk.injEq] at htriple
  exact ⟨k, hreach, htriple.1, htriple.2.1, htriple.2.2, (countsActive_of_reachable hreach).1⟩

/-- A process with one running thread has a zero counter. -/
theorem running_thread_not_counted :
    ¬ ∀ k : Kernel, Reachable Kernel.BeforeThreads Kernel.Step k → k.CountsActive := by
  intro hall
  let calls := [spawn 1 5, createAt 10, spawn 10 6]
  obtain ⟨k, hrun⟩ := Option.isSome_iff_exists.mp
    (show (bootKernel.run (fun _ _ => True) 8 calls).isSome by decide +kernel)
  have hstate : (bootKernel.run (fun _ _ => True) 8 calls).map
      (fun k => (k.live, (k.process 10).activeThreads, (k.active 10).card)) =
        some ([10], 0, 1) := by decide +kernel
  rw [hrun] at hstate
  have htriple : (k.live, (k.process 10).activeThreads, (k.active 10).card) = ([10], 0, 1) :=
    Option.some.inj hstate
  simp only [Prod.mk.injEq] at htriple
  have hcount := hall k (Kernel.run_reachable (.start bootKernel_beforeThreads) hrun) 10
    (by simp [htriple.1])
  rw [htriple.2.1, htriple.2.2] at hcount
  cases hcount

end XTOS.Process

import XTOS.Process.Ids

/-!
# The global thread list

`threads` is what `xtWakeUpThreads` and `xtSchedule` walk. A thread enters it when its
record is created, and nothing takes it out again, while `xtTerminateProcess` frees the
records of the threads of a process that another process ends.

## Main definitions

- `Kernel.ThreadsValid` — every thread of the list is created and not freed
- `EndSafe` — ending a process frees no thread of the list
- `EndFrame` — what ending threads, without freeing any, leaves as it was

## Design notes

A thread whose end lowers `activeThreads` to zero ends its process, so ending one process
may end others: its list may hold threads that were recycled for them. `Kernel.room` is
how often a counter can be lowered before that, `Kernel.lowerings` how often it is.
-/

namespace XTOS.Process

open SysLib XTOS.LinkedList

/-- Every thread of the global list is created and not freed. -/
def Kernel.ThreadsValid (k : Kernel) : Prop := ∀ t ∈ k.threads, k.threadUsed t = true

/-- `process->flags & XT_PROCESS_TERMINATING`. -/
def Kernel.Terminating (k : Kernel) (p : ℕ) : Prop :=
  (k.process p).flags &&& xtProcessTerminating ≠ 0

instance (k : Kernel) (p : ℕ) : Decidable (k.Terminating p) := inferInstanceAs (Decidable (_ ≠ _))

/-- How often `activeThreads` can be lowered without getting to zero. -/
def Kernel.room (k : Kernel) (p : ℕ) : ℕ := dec64 (k.process p).activeThreads

/-- The end of thread `t` ends no process, also as one of `n` threads that end. -/
def Kernel.Harmless (k : Kernel) (n t : ℕ) : Prop :=
  (k.thread t).process = 0 ∨ k.Terminating (k.thread t).process ∨ n ≤ k.room (k.thread t).process

instance (k : Kernel) (n t : ℕ) : Decidable (k.Harmless n t) :=
  inferInstanceAs (Decidable (_ ∨ _ ∨ _))

/-- The threads that the loop of `xtTerminateProcess` ends: those that are not terminated when
    it gets to them, since a wake-up may take the mark from a thread again. -/
def endings (current code : ℕ) : List ℕ → Kernel → List ℕ
  | [], _ => []
  | t :: ts, k =>
    if t ≠ 0 ∧ t ≠ current ∧ (k.thread t).state &&& 0x7f ≠ xtThreadTerminatedState then
      t :: endings current code ts (markTerminated k t code)
    else endings current code ts k

/-- How often the ends of these threads lower the counter of process `q`. -/
def Kernel.lowered (k : Kernel) (ts : List ℕ) (q : ℕ) : ℕ :=
  (ts.map fun t => (k.thread t).process).count q

/-- How often the end of process `p` lowers the counter of process `q`. -/
def Kernel.lowerings (k : Kernel) (p code q : ℕ) : ℕ :=
  k.lowered (endings k.currentThread code (k.process p).threads k) q

/-- Ending process `p` frees no thread of the list: it is already terminating, or one of its
    own threads ends it, or none of its threads is in the list; and its list holds no thread
    of another process whose counter would get to zero. -/
def EndSafe (k : Kernel) (p code : ℕ) : Prop :=
  k.Terminating p ∨
    (k.currentThread ≠ 0 ∧ (k.thread k.currentThread).process = p ∨
      ∀ t ∈ (k.process p).threads, t ∉ k.threads) ∧
    ∀ t ∈ (k.process p).threads,
      (k.thread t).process = p ∨ k.Harmless (k.lowerings p code (k.thread t).process) t

instance (k : Kernel) (p code : ℕ) : Decidable (EndSafe k p code) :=
  inferInstanceAs (Decidable (_ ∨ _ ∧ _))

/-- The kernel after the end of a thread that ends no process. -/
def endThread (k : Kernel) (t code : ℕ) : Kernel :=
  lowerCount (markTerminated k t code) (k.thread t).process

/-- The condition on a call. The end of a thread that is the last one of its process goes on
    with that process. -/
def ThreadSafe (k : Kernel) : Call → Prop
  | .terminateProcess p code => EndSafe k p code
  | .terminateThread t code =>
    k.Harmless 1 t ∨ EndSafe (endThread k t code) (k.thread t).process code
  | _ => True

instance (k : Kernel) (c : Call) : Decidable (ThreadSafe k c) :=
  match c with
  | .terminateProcess _ _ => inferInstanceAs (Decidable (EndSafe _ _ _))
  | .terminateThread _ _ => inferInstanceAs (Decidable (_ ∨ _))
  | .createProcess _ _ _ _ _ => .isTrue trivial
  | .createThread _ _ _ _ => .isTrue trivial
  | .timer => .isTrue trivial

/-! ### Ending threads -/

theorem dec64_le (x : ℕ) : dec64 x ≤ dec64 (dec64 x) + 1 := by
  unfold dec64
  omega

/-- The lists, the owners and the running thread are as before, and each counter has been
    lowered `n` times at most. -/
structure EndFrame (n : ℕ) (k k' : Kernel) : Prop where
  threads : k'.threads = k.threads
  threadUsed : k'.threadUsed = k.threadUsed
  processUsed : k'.processUsed = k.processUsed
  currentThread : k'.currentThread = k.currentThread
  owner : ∀ t, (k'.thread t).process = (k.thread t).process
  list : ∀ p, (k'.process p).threads = (k.process p).threads
  terminating : ∀ p, k.Terminating p → k'.Terminating p
  room : ∀ p, k.room p ≤ k'.room p + n

/-- A change of thread records alone. -/
theorem endFrame_modifyThread (k : Kernel) (t : ℕ) {f : XTThread → XTThread}
    (hf : ∀ th, (f th).process = th.process) : EndFrame 0 k (k.modifyThread t f) where
  threads := rfl
  threadUsed := rfl
  processUsed := rfl
  currentThread := rfl
  owner t' := by
    by_cases h : t' = t
    · subst h
      simpa [Kernel.modifyThread] using hf (k.thread t')
    · simp [Kernel.modifyThread, h]
  list _ := rfl
  terminating _ h := h
  room p := by
    have hroom : (k.modifyThread t f).room p = k.room p := by simp only [Kernel.room, Kernel.modifyThread]
    rw [hroom, Nat.add_zero]

theorem EndFrame.refl (k : Kernel) : EndFrame 0 k k where
  threads := rfl
  threadUsed := rfl
  processUsed := rfl
  currentThread := rfl
  owner _ := rfl
  list _ := rfl
  terminating _ h := h
  room p := Nat.le_add_right (k.room p) 0

theorem EndFrame.mono {m n : ℕ} {k k' : Kernel} (h : EndFrame m k k') (hmn : m ≤ n) :
    EndFrame n k k' where
  __ := h
  room p := (h.room p).trans (Nat.add_le_add_left hmn _)

theorem EndFrame.trans {m n : ℕ} {k k' k'' : Kernel} (h : EndFrame m k k')
    (h' : EndFrame n k' k'') : EndFrame (m + n) k k'' where
  threads := h'.threads.trans h.threads
  threadUsed := h'.threadUsed.trans h.threadUsed
  processUsed := h'.processUsed.trans h.processUsed
  currentThread := h'.currentThread.trans h.currentThread
  owner t := (h'.owner t).trans (h.owner t)
  list p := (h'.list p).trans (h.list p)
  terminating p hp := h'.terminating p (h.terminating p hp)
  room p := by
    have h1 := h.room p
    have h2 := h'.room p
    omega

theorem endFrame_markTerminated (k : Kernel) (t code : ℕ) :
    EndFrame 0 k (markTerminated k t code) := by
  have hfold : ∀ (ws : List ℕ) (k : Kernel), EndFrame 0 k (ws.foldl (fun k w =>
      k.modifyThread w fun th =>
        { th with state := (th.state &&& 0x80) ||| xtThreadRunState }) k) := by
    intro ws
    induction ws with
    | nil => exact EndFrame.refl
    | cons w ws ih => exact fun k => (endFrame_modifyThread k w (by simp)).trans (ih _)
  rw [markTerminated]
  exact EndFrame.trans (endFrame_modifyThread k t (by simp)) (hfold _ _)

theorem room_lowerCount (k : Kernel) (p q : ℕ) : k.room q ≤ (lowerCount k p).room q + 1 := by
  rw [lowerCount]
  split_ifs
  · exact Nat.le_succ (k.room q)
  · by_cases h : q = p
    · subst h
      simp only [Kernel.room, Kernel.modifyProcess, Function.update_self]
      exact dec64_le _
    · simp only [Kernel.room, Kernel.modifyProcess, Function.update_of_ne h]
      exact Nat.le_succ (k.room q)

theorem room_lowerCount_of_ne (k : Kernel) {p q : ℕ} (h : q ≠ p) :
    (lowerCount k p).room q = k.room q := by
  rw [lowerCount]
  split_ifs
  · rfl
  · simp only [Kernel.room, Kernel.modifyProcess, Function.update_of_ne h]

theorem endFrame_modifyProcess {n : ℕ} (k : Kernel) (p : ℕ) {f : XTProcess → XTProcess}
    (hlist : ∀ pr, (f pr).threads = pr.threads)
    (hflags : ∀ pr, pr.flags &&& xtProcessTerminating ≠ 0 →
      (f pr).flags &&& xtProcessTerminating ≠ 0)
    (hroom : ∀ q, k.room q ≤ (k.modifyProcess p f).room q + n) :
    EndFrame n k (k.modifyProcess p f) where
  threads := rfl
  threadUsed := rfl
  processUsed := rfl
  currentThread := rfl
  owner _ := rfl
  list q := by
    by_cases h : q = p
    · subst h
      simpa [Kernel.modifyProcess] using hlist (k.process q)
    · simp [Kernel.modifyProcess, h]
  terminating q hq := by
    by_cases h : q = p
    · subst h
      simpa [Kernel.Terminating, Kernel.modifyProcess] using hflags (k.process q) hq
    · simpa [Kernel.Terminating, Kernel.modifyProcess, h] using hq
  room := hroom

theorem endFrame_lowerCount (k : Kernel) (p : ℕ) : EndFrame 1 k (lowerCount k p) := by
  have hroom := room_lowerCount k p
  rw [lowerCount] at hroom ⊢
  split at hroom
  · rename_i h0
    rw [if_pos h0]
    exact (EndFrame.refl k).mono (Nat.zero_le 1)
  · rename_i h0
    rw [if_neg h0]
    exact endFrame_modifyProcess k p (fun _ => rfl) (fun _ h => h) hroom

theorem endFrame_endThread (k : Kernel) (t code : ℕ) : EndFrame 1 k (endThread k t code) :=
  (endFrame_markTerminated k t code).trans (endFrame_lowerCount _ _)

theorem Kernel.Harmless.not_lastThread {k : Kernel} {n t : ℕ} (h : k.Harmless n t) (hn : 0 < n)
    (code : ℕ) : ¬ lastThread (endThread k t code) (k.thread t).process := by
  rintro ⟨hne, hzero, hflags⟩
  have hmark := endFrame_markTerminated k t code
  obtain h0 | hterm | hroom := h
  · exact hne h0
  · exact (endFrame_endThread k t code).terminating _ hterm hflags
  · rw [endThread, lowerCount, if_neg hne] at hzero
    simp only [Kernel.modifyProcess, Function.update_self] at hzero
    have hle := hroom.trans (hmark.room (k.thread t).process)
    rw [Nat.add_zero, Kernel.room, hzero] at hle
    exact absurd hle (Nat.not_le.mpr hn)

theorem terminateThreadWith_eq {tp : Kernel → ℕ → ℕ → Outcome} {k : Kernel} {t : ℕ} (ht : t ≠ 0)
    (code : ℕ) : terminateThreadWith tp k t code =
      (if lastThread (endThread k t code) (k.thread t).process
        then tp (endThread k t code) (k.thread t).process code
        else .returned (endThread k t code)).andThen fun k' =>
          if t = k.currentThread then .gone (xtSchedule k') else .returned k' := by
  rw [terminateThreadWith, if_neg ht]
  rfl

/-- A harmless end returns, or the thread itself is gone. -/
theorem terminateThreadWith_of_harmless (tp : Kernel → ℕ → ℕ → Outcome) {k : Kernel} {n t : ℕ}
    (ht : t ≠ 0) (h : k.Harmless n t) (hn : 0 < n) (code : ℕ) :
    terminateThreadWith tp k t code = if t = k.currentThread
      then .gone (xtSchedule (endThread k t code)) else .returned (endThread k t code) := by
  rw [terminateThreadWith_eq ht, if_neg (h.not_lastThread hn code)]
  rfl

theorem EndFrame.harmless {m n t : ℕ} {k k' : Kernel} (h : EndFrame m k k')
    (ht : k.Harmless (n + m) t) : k'.Harmless n t := by
  rw [Kernel.Harmless, h.owner]
  obtain h0 | hterm | hroom := ht
  · exact .inl h0
  · exact .inr (.inl (h.terminating _ hterm))
  · have := h.room (k.thread t).process
    exact .inr (.inr (by omega))

/-- The counter of another process than that of the thread is not lowered. -/
theorem Kernel.Harmless.endThread {n t u : ℕ} {k : Kernel} (h : k.Harmless n u)
    (hne : (k.thread u).process ≠ (k.thread t).process) (code : ℕ) :
    (endThread k t code).Harmless n u := by
  have hframe := endFrame_endThread k t code
  have hmark := (endFrame_markTerminated k t code).room (k.thread u).process
  rw [Nat.add_zero, ← room_lowerCount_of_ne (markTerminated k t code) hne] at hmark
  rw [Kernel.Harmless, hframe.owner]
  obtain h0 | hterm | hroom := h
  · exact .inl h0
  · exact .inr (.inl (hframe.terminating _ hterm))
  · exact .inr (.inr (hroom.trans hmark))

theorem thread_foldl_congr {k k' : Kernel} (h : k'.thread = k.thread) (ws : List ℕ)
    (f : XTThread → XTThread) :
    (ws.foldl (fun k w => k.modifyThread w f) k').thread =
      (ws.foldl (fun k w => k.modifyThread w f) k).thread := by
  induction ws generalizing k k' with
  | nil => exact h
  | cons w ws ih =>
    refine ih ?_
    simp only [Kernel.modifyThread, h]

/-- Which threads the loop ends depends on the thread records alone. -/
theorem endings_congr {k k' : Kernel} (h : k'.thread = k.thread) (current code : ℕ)
    (ts : List ℕ) : endings current code ts k' = endings current code ts k := by
  induction ts generalizing k k' with
  | nil => rfl
  | cons t ts ih =>
    have hmark : (markTerminated k' t code).thread = (markTerminated k t code).thread := by
      have hself : (k'.modifyThread t fun th =>
          { th with result := code, state := (th.state &&& 0x80) ||| xtThreadTerminatedState }).thread =
          (k.modifyThread t fun th => { th with
            result := code, state := (th.state &&& 0x80) ||| xtThreadTerminatedState }).thread := by
        simp only [Kernel.modifyThread, h]
      rw [markTerminated, markTerminated, hself]
      exact thread_foldl_congr hself _ _
    rw [endings, endings, h, ih h, ih hmark]

theorem lowered_cons (k : Kernel) (t : ℕ) (ts : List ℕ) (q : ℕ) :
    k.lowered (t :: ts) q = k.lowered ts q + if (k.thread t).process = q then 1 else 0 := by
  simp [Kernel.lowered, List.count_cons]

theorem EndFrame.lowered {n : ℕ} {k k' : Kernel} (h : EndFrame n k k') (ts : List ℕ) (q : ℕ) :
    k'.lowered ts q = k.lowered ts q := by
  rw [Kernel.lowered, Kernel.lowered, List.map_congr_left fun t _ => h.owner t]

/-- The loop of `xtTerminateProcess` over threads whose ends lower no counter to zero. -/
theorem forEach_endThreads (tp : Kernel → ℕ → ℕ → Outcome) (code : ℕ) {current : ℕ}
    {ts : List ℕ} :
    ∀ {k : Kernel}, k.currentThread = current →
      (∀ t ∈ ts, k.Harmless (k.lowered (endings current code ts k) (k.thread t).process) t) →
      ∃ k', forEach (fun (k : Kernel) t =>
        if t ≠ 0 ∧ t ≠ current ∧ (k.thread t).state &&& 0x7f ≠ xtThreadTerminatedState then
          terminateThreadWith tp k t code
        else .returned k) ts k = .returned k' ∧ EndFrame ts.length k k' := by
  induction ts with
  | nil => exact fun {k} _ _ => ⟨k, rfl, .refl k⟩
  | cons t ts ih =>
    intro k hcur hall
    by_cases hcond : t ≠ 0 ∧ t ≠ current ∧ (k.thread t).state &&& 0x7f ≠ xtThreadTerminatedState
    · -- the pass ends `t`, and the counter of its process has one end less ahead of it
      rw [endings, if_pos hcond] at hall
      have hcount := hall t List.mem_cons_self
      rw [lowered_cons, if_pos rfl] at hcount
      have hframe := endFrame_endThread k t code
      have hthread : (endThread k t code).thread = (markTerminated k t code).thread := by
        rw [endThread, lowerCount]
        split <;> rfl
      obtain ⟨k2, hk2, hrest⟩ := ih (hframe.currentThread.trans hcur) fun u hu => by
        have hharm := hall u (List.mem_cons_of_mem _ hu)
        rw [lowered_cons] at hharm
        rw [hframe.owner, hframe.lowered, endings_congr hthread]
        by_cases hq : (k.thread t).process = (k.thread u).process
        · rw [if_pos hq] at hharm
          exact hframe.harmless hharm
        · rw [if_neg hq] at hharm
          exact hharm.endThread (Ne.symm hq) code
      refine ⟨k2, ?_, (hframe.trans hrest).mono (by rw [List.length_cons]; omega)⟩
      rw [forEach, if_pos hcond,
        terminateThreadWith_of_harmless tp hcond.1 hcount (Nat.succ_pos _) code,
        if_neg (hcur ▸ hcond.2.1)]
      exact hk2
    · rw [endings, if_neg hcond] at hall
      obtain ⟨k2, hk2, hrest⟩ := ih hcur fun u hu => hall u (List.mem_cons_of_mem _ hu)
      refine ⟨k2, ?_, hrest.mono (Nat.le_succ _)⟩
      rw [forEach, if_neg hcond]
      exact hk2

/-! ### Freeing -/

/-- The list is as before, and no thread of it has been freed. -/
def ListKept (k k' : Kernel) : Prop :=
  k'.threads = k.threads ∧ ∀ t ∈ k.threads, k.threadUsed t = true → k'.threadUsed t = true

theorem ListKept.refl (k : Kernel) : ListKept k k := ⟨rfl, fun _ _ h => h⟩

theorem ListKept.trans {k k' k'' : Kernel} (h : ListKept k k') (h' : ListKept k' k'') :
    ListKept k k'' :=
  ⟨h'.1.trans h.1, fun t ht hu => h'.2 t (h.1 ▸ ht) (h.2 t ht hu)⟩

theorem ListKept.of_eq {k k' : Kernel} (hthreads : k'.threads = k.threads)
    (hused : k'.threadUsed = k.threadUsed) : ListKept k k' :=
  ⟨hthreads, fun t _ hu => by rwa [hused]⟩

theorem ListKept.of_threadsOnly {k k' : Kernel} (h : ThreadsOnly k k') : ListKept k k' := by
  obtain ⟨th, cur, it, -, rfl⟩ := h
  exact .of_eq rfl rfl

theorem ListKept.valid {k k' : Kernel} (h : ListKept k k') (hk : k.ThreadsValid) :
    k'.ThreadsValid := by
  intro t ht
  rw [h.1] at ht
  exact h.2 t ht (hk t ht)

/-- Ending a process keeps the list if none of the threads it frees is in it. -/
theorem listKept_releaseProcess (fuel : ℕ) (k : Kernel) (p : ℕ)
    (h : ∀ t ∈ (k.process p).threads, t ∉ k.threads) :
    (releaseProcess fuel k p).All (ListKept k) := by
  intro k' hk'
  obtain ⟨pages, H, id, rfl⟩ := releaseProcess_eq hk'
  refine ⟨rfl, fun t ht hu => ?_⟩
  have hnot : ¬ (t ≠ 0 ∧ t ∈ (k.process p).threads) := fun hfreed => h t hfreed.2 ht
  simpa only [if_neg hnot] using hu

/-! ### Runs -/

theorem EndFrame.listKept {n : ℕ} {k k' : Kernel} (h : EndFrame n k k') : ListKept k k' :=
  .of_eq h.threads h.threadUsed

theorem endFrame_live (k : Kernel) (live : List ℕ) : EndFrame 0 k { k with live := live } where
  threads := rfl
  threadUsed := rfl
  processUsed := rfl
  currentThread := rfl
  owner _ := rfl
  list _ := rfl
  terminating _ h := h
  room p := Nat.le_add_right (k.room p) 0

/-- What `xtTerminateProcess` does before its loop. -/
theorem endFrame_enter (k : Kernel) (p : ℕ) :
    EndFrame 0 k (Kernel.modifyProcess { k with live := k.live.filter (· ≠ p) } p fun pr =>
      { pr with flags := pr.flags ||| xtProcessTerminating }) := by
  set k0 : Kernel := { k with live := k.live.filter (· ≠ p) } with hk0
  refine (endFrame_live k _).trans (n := 0) (endFrame_modifyProcess k0 p ?_ ?_ ?_)
  · exact fun _ => rfl
  · intro pr _
    simp [xtProcessTerminating]
  · intro q
    by_cases h : q = p
    · subst h
      simp [Kernel.room, Kernel.modifyProcess]
    · simp [Kernel.room, Kernel.modifyProcess, h]

/-- If none of the threads of a process ends another one with it, its end returns at once,
    is made by one of its own threads, or frees it after all of its threads have ended. -/
theorem xtTerminateProcess_cases (fuel : ℕ) {k : Kernel} {p : ℕ} (code : ℕ)
    (hall : ¬ k.Terminating p → ∀ t ∈ (k.process p).threads,
      (k.thread t).process = p ∨ k.Harmless (k.lowerings p code (k.thread t).process) t) :
    xtTerminateProcess fuel k p code = .stuck ∨ ∃ n k', EndFrame n k k' ∧
      (xtTerminateProcess fuel k p code = .returned k' ∨
        xtTerminateProcess fuel k p code = .gone (xtSchedule k') ∨
        ¬ k.Terminating p ∧
          ¬ (k.currentThread ≠ 0 ∧ (k.thread k.currentThread).process = p) ∧
          ∃ fuel', xtTerminateProcess fuel k p code = releaseProcess fuel' k' p) := by
  cases fuel with
  | zero => exact .inl rfl
  | succ fuel =>
    rw [xtTerminateProcess]
    split_ifs with hp
    · exact .inr ⟨0, k, .refl k, .inl rfl⟩
    · set k0 : Kernel := { k with live := k.live.filter (· ≠ p) } with hk0
      dsimp only
      split_ifs with hflag
      · exact .inr ⟨0, k0, endFrame_live k _, .inl rfl⟩
      · replace hall := hall hflag
        set k1 := k0.modifyProcess p fun pr =>
          { pr with flags := pr.flags ||| xtProcessTerminating } with hk1
        have hmark : k1.Terminating p := by
          simp [hk1, Kernel.Terminating, Kernel.modifyProcess, xtProcessTerminating]
        have hframe : EndFrame 0 k k1 := endFrame_enter k p
        have hharmless : ∀ t ∈ (k1.process p).threads, k1.Harmless (k1.lowered
            (endings k1.currentThread code (k1.process p).threads k1) (k1.thread t).process) t := by
          intro t ht
          rw [hframe.list] at ht ⊢
          rw [hframe.currentThread, hframe.owner, hframe.lowered,
            endings_congr (show k1.thread = k.thread from rfl)]
          obtain hproc | hother := hall t ht
          · refine .inr (.inl ?_)
            rw [hframe.owner, hproc]
            exact hmark
          · exact hframe.harmless hother
        obtain ⟨k2, hloop, hends⟩ :=
          forEach_endThreads (xtTerminateProcess fuel) code rfl hharmless
        have hbefore := hframe.trans hends
        have howner : (k2.thread k1.currentThread).process =
            (k.thread k.currentThread).process := by
          rw [hbefore.owner, hframe.currentThread]
        rw [hloop]
        change _ ∨ ∃ n k', _ ∧ (ite _ _ _ = _ ∨ ite _ _ _ = _ ∨ _ ∧ _ ∧ ∃ fuel', ite _ _ _ = _)
        right
        split_ifs with hcur
        · -- the process is terminating, so the end of its own thread does not end it again
          have hlast : k2.Harmless 1 k1.currentThread := by
            refine .inr (.inl ?_)
            rw [hcur.2]
            exact hends.terminating p hmark
          refine ⟨_, _, hbefore.trans (endFrame_endThread k2 k1.currentThread code), .inr (.inl ?_)⟩
          rw [terminateThreadWith_of_harmless _ hcur.1 hlast Nat.one_pos,
            if_pos hends.currentThread.symm]
        · rw [howner, hframe.currentThread] at hcur
          exact ⟨_, k2, hbefore, .inr (.inr ⟨hflag, hcur, fuel, rfl⟩)⟩

/-- A safe end of a process keeps the list. -/
theorem listKept_xtTerminateProcess {fuel : ℕ} {k : Kernel} {p code : ℕ} (h : EndSafe k p code) :
    (xtTerminateProcess fuel k p code).All (ListKept k) := by
  have hsafe (hp : ¬ k.Terminating p) := h.resolve_left hp
  obtain hstuck | ⟨n, k', hframe, hret | hgone | ⟨hp, hcur, fuel', hfree⟩⟩ :=
    xtTerminateProcess_cases fuel code fun hp => (hsafe hp).2
  · rw [hstuck]
    exact all_stuck
  · rw [hret]
    exact all_returned.mpr hframe.listKept
  · rw [hgone]
    exact all_gone.mpr (hframe.listKept.trans (.of_threadsOnly (threadsOnly_xtSchedule k')))
  · rw [hfree]
    refine (listKept_releaseProcess fuel' k' p ?_).mono fun _ hk => hframe.listKept.trans hk
    rw [hframe.list, hframe.threads]
    exact (hsafe hp).1.resolve_left hcur

theorem listKept_xtTerminateThread {fuel : ℕ} {k : Kernel} {t : ℕ} (code : ℕ)
    (h : k.Harmless 1 t ∨ EndSafe (endThread k t code) (k.thread t).process code) :
    (xtTerminateThread fuel k t code).All (ListKept k) := by
  by_cases ht : t = 0
  · rw [xtTerminateThread, terminateThreadWith, if_pos ht]
    exact all_returned.mpr (.refl k)
  have hend := (endFrame_endThread k t code).listKept
  rw [xtTerminateThread, terminateThreadWith_eq ht]
  refine Outcome.All.andThen (P := ListKept k) ?_ (fun _ h => h) fun k' hk' => ?_
  · by_cases hlast : lastThread (endThread k t code) (k.thread t).process
    · rw [if_pos hlast]
      have hsafe := h.resolve_left fun hharm => hharm.not_lastThread Nat.one_pos code hlast
      have hproc : (xtTerminateProcess fuel (endThread k t code) (k.thread t).process code).All
          (ListKept (endThread k t code)) :=
        listKept_xtTerminateProcess hsafe
      exact hproc.mono fun _ hk => hend.trans hk
    · rw [if_neg hlast]
      exact all_returned.mpr hend
  · split
    · exact all_gone.mpr (hk'.trans (.of_threadsOnly (threadsOnly_xtSchedule k')))
    · exact all_returned.mpr hk'

theorem ListKept.of_stackOnly {k k' : Kernel} (h : StackOnly k k') : ListKept k k' := by
  obtain ⟨process, owned, -, rfl⟩ := h
  exact .of_eq rfl rfl

theorem threadsValid_takeThread {k : Kernel} (hk : k.ThreadsValid) (m : ThreadAlloc) :
    (takeThread k m).1.ThreadsValid := by
  obtain ⟨used, hused, -, h⟩ | ⟨t, -, -, h⟩ | ⟨t, th, cur, it, count, -, -, -, -, h⟩ :=
    takeThread_cases k m
  · rw [h]
    exact fun t ht => hused t (hk t ht)
  · rw [h]
    exact hk
  · rw [h]
    intro t' ht'
    by_cases heq : t' = t
    · simp [heq]
    · have hold : t' ∈ k.threads := by simpa [heq] using ht'
      simpa [heq] using hk t' hold

theorem threadsValid_xtCreateThread {k : Kernel} (hk : k.ThreadsValid) (p stackSize state : ℕ)
    (m : ThreadAlloc) : (xtCreateThread k p stackSize state m).1.ThreadsValid := by
  obtain ⟨k1, hstack, ⟨-, h⟩ | ⟨-, kernelStack, h⟩⟩ := xtCreateThread_cases k p stackSize state m
  all_goals
    have hvalid := (ListKept.of_stackOnly hstack).valid hk
    rw [h]
  · exact hvalid
  · have htake := threadsValid_takeThread hvalid m
    split
    all_goals
      rename_i heq
      rw [heq] at htake
    · exact htake
    · rw [setThread]
      split <;> exact htake

theorem threadsValid_xtCreateProcess {fuel : ℕ} {k k' : Kernel} {parentProcess : ℕ}
    {block page node : Option ℕ} {old : XTProcess} {r : Except XTResult ℕ}
    (h : xtCreateProcess fuel k parentProcess block page node old = some (k', r))
    (hk : k.ThreadsValid) : k'.ThreadsValid := by
  obtain ⟨used, -, -, rfl⟩ | ⟨p, pageTable, _, _, _, _, -, -, rfl⟩ := xtCreateProcess_cases h
  · exact hk
  · exact hk

theorem threadsValid_step {k k' : Kernel} (hs : k.StepIf ThreadSafe k') (hk : k.ThreadsValid) :
    k'.ThreadsValid := by
  obtain ⟨fuel, c, hsafe, hexec⟩ := hs
  have hsome := Kernel.exec_some hexec
  cases c with
  | createProcess parentProcess block page node old =>
    obtain ⟨-, r, hcreate⟩ := hsome
    exact threadsValid_xtCreateProcess hcreate hk
  | terminateProcess p code =>
    exact (listKept_xtTerminateProcess hsafe k' hsome.2).valid hk
  | createThread p stackSize state m =>
    rw [hsome.2]
    exact threadsValid_xtCreateThread hk p stackSize state m
  | terminateThread t code =>
    exact (listKept_xtTerminateThread code hsafe k' hsome.2).valid hk
  | timer =>
    rw [show k' = xtSchedule k from hsome]
    exact (ListKept.of_threadsOnly (threadsOnly_xtSchedule k)).valid hk

/-- What `releaseProcess` frees stays in the list, so a thread that is in both lists breaks
    the property at once. -/
theorem not_threadsValid_releaseProcess {fuel : ℕ} {k k' : Kernel} {p t : ℕ}
    (h : (releaseProcess fuel k p).kernel? = some k') (ht : t ∈ (k.process p).threads)
    (hlist : t ∈ k.threads) (ht0 : t ≠ 0) : ¬ k'.ThreadsValid := by
  intro hvalid
  obtain ⟨pages, H, id, rfl⟩ := releaseProcess_eq h
  have hused := hvalid t hlist
  simp [ht0, ht] at hused

/-- **The thread list**: in every run whose terminations free no listed thread, every
    thread of the global list is created and not freed, in every state; and the first end of
    a process that frees a listed thread breaks this. -/
theorem threadsValid_of_reachable {k : Kernel}
    (h : Reachable Kernel.Initial (Kernel.StepIf ThreadSafe) k) :
    k.ThreadsValid ∧ ∀ fuel k' p t, (releaseProcess fuel k p).kernel? = some k' →
      t ∈ (k.process p).threads → t ∈ k.threads → t ≠ 0 → ¬ k'.ThreadsValid := by
  have hvalid := h.invariant (I := Kernel.ThreadsValid)
    (fun k hk t ht => by simp [hk.threads] at ht) fun _ _ hk hs => threadsValid_step hs hk
  exact ⟨hvalid, fun fuel k' p t => not_threadsValid_releaseProcess⟩

/-- A kernel thread in the block at `t` for process `p`, with its stack at an address
    derived from it. -/
def spawn (p t : ℕ) : Call :=
  .createThread p 0 xtThreadRunState ⟨some (0x200000 + 0x8000 * t),
    ⟨none, 0, none, false, ⟨.success, []⟩⟩, some t, true, true⟩

/-- A process without threads is ended by another one, and a thread of another process is
    ended and its record used again. -/
theorem threadsValid_recycled_thread : ∃ k : Kernel,
    Reachable Kernel.Initial (Kernel.StepIf ThreadSafe) k ∧ k.threads = [5, 6] ∧
      (k.process 1).threads = [5, 6] ∧ k.ThreadsValid := by
  let calls := [spawn 1 5, createAt 10, createAt 20, .terminateProcess 20 0, spawn 10 6,
    .terminateThread 6 0, .timer, spawn 1 7]
  obtain ⟨k, hrun⟩ := Option.isSome_iff_exists.mp
    (show (bootKernel.run ThreadSafe 8 calls).isSome by decide +kernel)
  have hreach := Kernel.run_reachable (.start bootKernel_initial) hrun
  have hlists : (bootKernel.run ThreadSafe 8 calls).map
      (fun k => (k.threads, (k.process 1).threads)) = some ([5, 6], [5, 6]) := by decide +kernel
  rw [hrun] at hlists
  have hpair : (k.threads, (k.process 1).threads) = ([5, 6], [5, 6]) := Option.some.inj hlists
  simp only [Prod.mk.injEq] at hpair
  exact ⟨k, hreach, hpair.1, hpair.2, (threadsValid_of_reachable hreach).1⟩

/-- A process with one thread, ended by another process: its thread is freed and stays in
    the list. -/
theorem freed_thread_listed :
    ¬ ∀ k : Kernel, Reachable Kernel.Initial Kernel.Step k → k.ThreadsValid := by
  intro hall
  let calls := [spawn 1 5, createAt 10, spawn 10 6, .terminateProcess 10 0]
  obtain ⟨k, hrun⟩ := Option.isSome_iff_exists.mp
    (show (bootKernel.run (fun _ _ => True) 8 calls).isSome by decide +kernel)
  have hstate : (bootKernel.run (fun _ _ => True) 8 calls).map
      (fun k => (k.threads, k.threadUsed 6)) = some ([5, 6], false) := by decide +kernel
  rw [hrun] at hstate
  have hpair : (k.threads, k.threadUsed 6) = ([5, 6], false) := Option.some.inj hstate
  simp only [Prod.mk.injEq] at hpair
  have hvalid := hall k (Kernel.run_reachable (.start bootKernel_initial) hrun) 6
    (by simp [hpair.1])
  rw [hpair.2] at hvalid
  cases hvalid

end XTOS.Process

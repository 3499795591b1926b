import XTOS.Process.Threads

/-!
# The owner of a thread record

A thread record names its process, and the process lists it in `process->threads`, the
list that `xtTerminateProcess` frees. `xtCreateThread` keeps the two together for a new
record. A terminated record that it finds in the global list is used again without
leaving the list of its old process.

## Main definitions

- `Kernel.OneOwner` — each record is listed by one process, once, and names it
- `OwnerSafe` — the condition on a call: no record is used again
- `Kernel.Owners` — the invariant of the runs that meet it

## Main results

- `oneOwner_of_reachable` — the property in every state of these runs
- `not_oneOwner_xtCreateThread` — one record used again breaks it at once
-/

namespace XTOS.Process

open SysLib

/-- Each thread record is listed by one process, once, and it is the process it names. -/
def Kernel.OneOwner (k : Kernel) : Prop :=
  ∀ t, k.threadUsed t = true → k.processUsed (k.thread t).process = true ∧
    (k.process (k.thread t).process).threads.count t = 1 ∧
    ∀ p, k.processUsed p = true → t ∈ (k.process p).threads → p = (k.thread t).process

/-- The block of a new process holds no list, and a new thread gets a new record and its
    list nodes, if it gets so far. -/
def OwnerSafe (k : Kernel) : Call → Prop
  | .createProcess _ block page _ old =>
    ∀ p ∈ block, (if page.isSome then old else k.process p).threads = []
  | .createThread p _ state m => StackFails p state m ∨
    (∀ t ∈ k.threads, (k.thread t).state ≠ xtThreadTerminatedState) ∧
      (m.block = none ∨ m.threadsNode = true ∧ m.processNode = true)
  | _ => True

instance (k : Kernel) (c : Call) : Decidable (OwnerSafe k c) :=
  match c with
  | .createProcess _ block page _ old =>
    inferInstanceAs (Decidable (∀ p ∈ block, (if page.isSome then old else k.process p).threads = []))
  | .createThread _ _ _ _ => inferInstanceAs (Decidable (_ ∨ _ ∧ _))
  | .terminateProcess _ _ => .isTrue trivial
  | .terminateThread _ _ => .isTrue trivial
  | .timer => .isTrue trivial

/-- Before any thread record is taken. -/
structure Kernel.NoThreads (k : Kernel) : Prop where
  threads : k.threads = []
  threadUsed : ∀ t, k.threadUsed t = false
  list : ∀ p, k.processUsed p = true → (k.process p).threads = []

/-- Each record in use is listed once by the process it names, which is in use, and a
    process lists only records in use that name it. -/
structure Kernel.Owners (k : Kernel) : Prop where
  ne_zero : k.threadUsed 0 = false
  listed : ∀ t, k.threadUsed t = true → k.processUsed (k.thread t).process = true ∧
    (k.process (k.thread t).process).threads.count t = 1
  own : ∀ p, k.processUsed p = true → ∀ t ∈ (k.process p).threads,
    k.threadUsed t = true ∧ (k.thread t).process = p

theorem Kernel.NoThreads.owners {k : Kernel} (h : k.NoThreads) : k.Owners where
  ne_zero := h.threadUsed 0
  listed t ht := by simp [h.threadUsed t] at ht
  own p hp t ht := by simp [h.list p hp] at ht

theorem Kernel.Owners.oneOwner {k : Kernel} (h : k.Owners) : k.OneOwner := by
  intro t ht
  obtain ⟨hused, hcount⟩ := h.listed t ht
  exact ⟨hused, hcount, fun p hp hmem => (h.own p hp t hmem).2.symm⟩

/-! ### Terminations -/

/-- The records in use, the lists and the owners are as before. -/
theorem Kernel.Owners.of_eq {k k' : Kernel} (hk : k.Owners) (hthread : k'.threadUsed = k.threadUsed)
    (hprocess : k'.processUsed = k.processUsed)
    (howner : ∀ t, (k'.thread t).process = (k.thread t).process)
    (hlist : ∀ p, (k'.process p).threads = (k.process p).threads) : k'.Owners where
  ne_zero := by rw [hthread, hk.ne_zero]
  listed t ht := by
    rw [hthread] at ht
    rw [hprocess, howner, hlist]
    exact hk.listed t ht
  own p hp t ht := by
    rw [hprocess] at hp
    rw [hlist] at ht
    rw [hthread, howner]
    exact hk.own p hp t ht

theorem EndFrame.owners {n : ℕ} {k k' : Kernel} (h : EndFrame n k k') (hk : k.Owners) : k'.Owners :=
  hk.of_eq h.threadUsed h.processUsed h.owner h.list

theorem ThreadsOnly.owners {k k' : Kernel} (h : ThreadsOnly k k') (hk : k.Owners) : k'.Owners := by
  obtain ⟨th, cur, it, hsame, rfl⟩ := h
  exact hk.of_eq rfl rfl (fun t => (hsame t).1) fun _ => rfl

theorem StackOnly.owners {k k' : Kernel} (h : StackOnly k k') (hk : k.Owners) : k'.Owners := by
  obtain ⟨process, owned, hmaps, rfl⟩ := h
  refine hk.of_eq rfl rfl (fun _ => rfl) fun q => ?_
  obtain ⟨maps, hq⟩ := hmaps q
  simp only [hq]

/-- The threads that go with a process are those that name it. -/
theorem owners_releaseProcess {fuel : ℕ} {k : Kernel} {p : ℕ} (hk : k.Owners)
    (hp : k.processUsed p = true) : (releaseProcess fuel k p).All Kernel.Owners := by
  intro k' hk'
  obtain ⟨pages, H, id, rfl⟩ := releaseProcess_eq hk'
  constructor
  · simpa using hk.ne_zero
  · intro t ht
    dsimp only at ht ⊢
    split_ifs at ht with hfreed
    obtain ⟨hused, hcount⟩ := hk.listed t ht
    have ht0 : t ≠ 0 := by
      rintro rfl
      rw [hk.ne_zero] at ht
      cases ht
    have hmem : t ∈ (k.process (k.thread t).process).threads :=
      List.count_pos_iff.mp (hcount ▸ Nat.one_pos)
    have hne : (k.thread t).process ≠ p := fun heq => hfreed ⟨ht0, heq ▸ hmem⟩
    rw [Function.update_of_ne hne, Function.update_of_ne hne]
    exact ⟨hused, hcount⟩
  · intro q hq t ht
    dsimp only at hq ht ⊢
    have hne : q ≠ p := by
      rintro rfl
      rw [Function.update_self] at hq
      cases hq
    rw [Function.update_of_ne hne] at hq ht
    obtain ⟨hused, howner⟩ := hk.own q hq t ht
    have hkept : ¬ (t ≠ 0 ∧ t ∈ (k.process p).threads) :=
      fun hfreed => hne (howner ▸ (hk.own p hp t hfreed.2).2)
    rw [if_neg hkept]
    exact ⟨hused, howner⟩

theorem owners_xtTerminateProcess (fuel : ℕ) {k : Kernel} {p : ℕ} (hk : k.Owners)
    (hp : k.processUsed p = true) (code : ℕ) :
    (xtTerminateProcess fuel k p code).All Kernel.Owners := by
  obtain hstuck | ⟨n, k', hframe, hret | hgone | ⟨-, -, fuel', hfree⟩⟩ :=
    xtTerminateProcess_cases fuel code fun _ t ht => .inl (hk.own p hp t ht).2
  · rw [hstuck]
    exact all_stuck
  · rw [hret]
    exact all_returned.mpr (hframe.owners hk)
  · rw [hgone]
    exact all_gone.mpr ((threadsOnly_xtSchedule k').owners (hframe.owners hk))
  · rw [hfree]
    exact owners_releaseProcess (hframe.owners hk) (hframe.processUsed ▸ hp)

theorem owners_xtTerminateThread (fuel : ℕ) {k : Kernel} {t : ℕ} (hk : k.Owners)
    (ht : k.threadUsed t = true) (code : ℕ) :
    (xtTerminateThread fuel k t code).All Kernel.Owners := by
  have ht0 : t ≠ 0 := by
    rintro rfl
    rw [hk.ne_zero] at ht
    cases ht
  have hframe := endFrame_endThread k t code
  rw [xtTerminateThread, terminateThreadWith_eq ht0]
  refine Outcome.All.andThen (P := Kernel.Owners) ?_ (fun _ h => h) fun k' hk' => ?_
  · split_ifs
    · exact owners_xtTerminateProcess fuel (hframe.owners hk)
        (hframe.processUsed ▸ (hk.listed t ht).1) code
    · exact all_returned.mpr (hframe.owners hk)
  · split_ifs
    · exact all_gone.mpr ((threadsOnly_xtSchedule k').owners hk')
    · exact all_returned.mpr hk'

/-! ### Creations -/

/-- A new record at the end of the list of a process. -/
theorem owners_setThread {k : Kernel} (hk : k.Owners) {p t : ℕ} (hp : k.processUsed p = true)
    (ht0 : t ≠ 0) (hfresh : k.threadUsed t = false) {thread : ℕ → XTThread}
    (hthread : ∀ t', t' ≠ t → thread t' = k.thread t') (threads : List ℕ)
    (current iterator count kernelStack state : ℕ) {m : ThreadAlloc} (hnode : m.processNode = true) :
    (setThread { k with
        threadUsed := Function.update k.threadUsed t true, thread := thread
        threads := threads, currentThread := current
        currentThreadIterator := iterator, threadCount := count }
      p kernelStack state t m).1.Owners := by
  have hnew : ∀ q, k.processUsed q = true → t ∉ (k.process q).threads := by
    intro q hq hmem
    rw [(hk.own q hq t hmem).1] at hfresh
    cases hfresh
  rw [setThread, if_pos hnode]
  dsimp only [Kernel.modifyThread, Kernel.modifyProcess]
  constructor
  · dsimp only
    rw [Function.update_of_ne ht0.symm]
    exact hk.ne_zero
  · intro t' ht'
    dsimp only at ht' ⊢
    by_cases heq : t' = t
    · subst heq
      simp only [Function.update_self, List.count_append, List.count_singleton_self]
      exact ⟨hp, by rw [List.count_eq_zero_of_not_mem (hnew p hp)]⟩
    · rw [Function.update_of_ne heq] at ht' ⊢
      rw [hthread t' heq]
      obtain ⟨hused, hcount⟩ := hk.listed t' ht'
      refine ⟨hused, ?_⟩
      by_cases hproc : (k.thread t').process = p
      · rw [hproc] at hcount ⊢
        rw [Function.update_self, List.count_append, hcount]
        simp [Ne.symm heq]
      · rwa [Function.update_of_ne hproc]
  · intro q hq t' ht'
    dsimp only at hq ht' ⊢
    by_cases heq : t' = t
    · subst heq
      refine ⟨Function.update_self .., ?_⟩
      by_cases hqp : q = p
      · simp [hqp]
      · rw [Function.update_of_ne hqp] at ht'
        exact absurd ht' (hnew q hq)
    · rw [Function.update_of_ne heq, Function.update_of_ne heq, hthread t' heq]
      refine hk.own q hq t' ?_
      by_cases hqp : q = p
      · subst hqp
        simpa [heq] using ht'
      · rwa [Function.update_of_ne hqp] at ht'

theorem owners_xtCreateThread {k : Kernel} (hk : k.Owners) {p stackSize state : ℕ} {m : ThreadAlloc}
    (hp : k.processUsed p = true) (hfresh : Fresh k.threadUsed m.block)
    (hsafe : OwnerSafe k (.createThread p stackSize state m)) :
    (xtCreateThread k p stackSize state m).1.Owners := by
  obtain ⟨k1, hstack, ⟨-, h⟩ | ⟨hok, kernelStack, h⟩⟩ := xtCreateThread_cases k p stackSize state m
  all_goals
    have hk1 := hstack.owners hk
    rw [h]
  · exact hk1
  · obtain ⟨hnew, hnodes⟩ := hsafe.resolve_left hok
    obtain ⟨process, owned, -, rfl⟩ := hstack
    obtain ⟨used, -, hsame, h⟩ | ⟨t, ht, hterm, -⟩ |
        ⟨t, th, cur, it, count, hblock, -, hother, -, h⟩ := takeThread_cases { k with process := process, owned := owned } m
    · rw [h, hsame (hnodes.imp_right And.left)]
      exact hk1
    · exact absurd hterm (hnew t ht)
    · rw [h]
      obtain ⟨ht0, hunused⟩ := hfresh t hblock
      have hnode := (hnodes.resolve_left (by simp [hblock])).2
      exact owners_setThread hk1 hp ht0 hunused hother _ cur it count kernelStack state hnode

theorem owners_xtCreateProcess {fuel : ℕ} {k k' : Kernel} {parentProcess : ℕ}
    {block page node : Option ℕ} {old : XTProcess} {r : Except XTResult ℕ} (hk : k.Owners)
    (h : xtCreateProcess fuel k parentProcess block page node old = some (k', r))
    (hfresh : Fresh k.processUsed block)
    (hsafe : OwnerSafe k (.createProcess parentProcess block page node old)) : k'.Owners := by
  obtain ⟨used, hmono, hnew, rfl⟩ | ⟨p, pageTable, _, _, _, _, rfl, rfl, rfl⟩ :=
    xtCreateProcess_cases h
  · constructor
    · exact hk.ne_zero
    · exact fun t ht => ⟨hmono _ (hk.listed t ht).1, (hk.listed t ht).2⟩
    · intro q hq t ht
      obtain hold | ⟨rfl, rfl⟩ := hnew q hq
      · exact hk.own q hold t ht
      · have hempty : (k.process q).threads = [] := hsafe q rfl
        rw [show (k.process q).threads = [] from hempty] at ht
        cases ht
  · have hunused := (hfresh p rfl).2
    have hempty : old.threads = [] := hsafe p rfl
    constructor
    · exact hk.ne_zero
    · intro t ht
      obtain ⟨hused, hcount⟩ := hk.listed t ht
      have hne : (k.thread t).process ≠ p := by
        rintro rfl
        rw [hused] at hunused
        cases hunused
      dsimp only
      rw [Function.update_of_ne hne, Function.update_of_ne hne]
      exact ⟨hused, hcount⟩
    · intro q hq t ht
      dsimp only at hq ht ⊢
      by_cases hqp : q = p
      · subst hqp
        rw [Function.update_self, hempty] at ht
        cases ht
      · rw [Function.update_of_ne hqp] at hq ht
        exact hk.own q hq t ht

/-! ### Runs -/

theorem owners_step {k k' : Kernel} (hs : k.StepIf OwnerSafe k') (hk : k.Owners) : k'.Owners := by
  obtain ⟨fuel, c, hsafe, hexec⟩ := hs
  have hsome := Kernel.exec_some hexec
  cases c with
  | createProcess parentProcess block page node old =>
    obtain ⟨hfresh, r, hcreate⟩ := hsome
    exact owners_xtCreateProcess hk hcreate hfresh hsafe
  | terminateProcess p code =>
    exact owners_xtTerminateProcess fuel hk hsome.1 code k' hsome.2
  | createThread p stackSize state m =>
    obtain ⟨⟨hp, hfresh⟩, rfl⟩ := hsome
    exact owners_xtCreateThread hk hp hfresh hsafe
  | terminateThread t code =>
    exact owners_xtTerminateThread fuel hk hsome.1 code k' hsome.2
  | timer =>
    rw [show k' = xtSchedule k from hsome]
    exact (threadsOnly_xtSchedule k).owners hk

/-- A record that is used again has two entries at once: in the list of its old process and
    in that of the new one, or twice in the same list. -/
theorem not_oneOwner_setThread {k : Kernel} (hk : k.Owners) {t : ℕ} (ht : k.threadUsed t = true)
    (p kernelStack state : ℕ) {m : ThreadAlloc} (hnode : m.processNode = true) :
    ¬ (setThread k p kernelStack state t m).1.OneOwner := by
  obtain ⟨hused, hcount⟩ := hk.listed t ht
  rw [setThread, if_pos hnode]
  intro hone
  obtain ⟨-, hcount', honly⟩ := hone t ht
  dsimp only [Kernel.modifyThread, Kernel.modifyProcess] at hcount' honly
  rw [Function.update_self] at honly hcount'
  by_cases hproc : (k.thread t).process = p
  · rw [hproc] at hcount
    simp [hcount] at hcount'
  · refine hproc (honly _ hused ?_)
    rw [Function.update_of_ne hproc]
    exact List.count_pos_iff.mp (hcount ▸ Nat.one_pos)

/-- A call with a terminated record in the list uses one again. -/
theorem not_oneOwner_xtCreateThread {k : Kernel} (hk : k.Owners) {p stackSize state : ℕ}
    {m : ThreadAlloc} (hstack : ¬ StackFails p state m) (hnode : m.processNode = true)
    (hterm : ∃ t ∈ k.threads, (k.thread t).state = xtThreadTerminatedState)
    (hused : ∀ t ∈ k.threads, (k.thread t).state = xtThreadTerminatedState →
      k.threadUsed t = true) : ¬ (xtCreateThread k p stackSize state m).1.OneOwner := by
  obtain ⟨k1, hk1, ⟨hfails, -⟩ | ⟨-, kernelStack, h⟩⟩ := xtCreateThread_cases k p stackSize state m
  · exact absurd hfails hstack
  have howners := hk1.owners hk
  obtain ⟨process, owned, -, rfl⟩ := hk1
  obtain ⟨t, ht, hended, htake⟩ :=
    takeThread_terminated (k := { k with process := process, owned := owned }) m hterm
  rw [h, htake]
  exact not_oneOwner_setThread howners (hused t ht hended) p kernelStack state hnode

/-- **Owners**: in every run in which no terminated record is used again, each thread
    record is listed by exactly one process, exactly once, and it is the process it
    names, in every state; and the first call that uses a record again breaks this. -/
theorem oneOwner_of_reachable {k : Kernel}
    (h : Reachable Kernel.NoThreads (Kernel.StepIf OwnerSafe) k) :
    k.OneOwner ∧ ∀ p stackSize state m, ¬ StackFails p state m → m.processNode = true →
      (∃ t ∈ k.threads, (k.thread t).state = xtThreadTerminatedState) →
      (∀ t ∈ k.threads, (k.thread t).state = xtThreadTerminatedState → k.threadUsed t = true) →
      ¬ (xtCreateThread k p stackSize state m).1.OneOwner := by
  have howners := h.invariant (I := Kernel.Owners) (fun _ hk => hk.owners)
    fun _ _ hk hs => owners_step hs hk
  exact ⟨howners.oneOwner, fun p stackSize state m => not_oneOwner_xtCreateThread howners⟩

theorem bootKernel_noThreads : bootKernel.NoThreads where
  threads := rfl
  threadUsed _ := rfl
  list _ _ := rfl

/-- Two processes with a thread each: one thread is ended, and the process of the other is
    ended from outside, which frees that thread. -/
theorem oneOwner_freed_thread : ∃ k : Kernel,
    Reachable Kernel.NoThreads (Kernel.StepIf OwnerSafe) k ∧ k.threads = [5, 6, 7] ∧
      k.threadUsed 6 = false ∧ (k.process 20).threads = [7] ∧ k.OneOwner := by
  let calls := [spawn 1 5, createAt 10, spawn 10 6, createAt 20, spawn 20 7, .terminateThread 7 0,
    .timer, .terminateProcess 10 0]
  obtain ⟨k, hrun⟩ := Option.isSome_iff_exists.mp
    (show (bootKernel.run OwnerSafe 8 calls).isSome by decide +kernel)
  have hreach := Kernel.run_reachable (.start bootKernel_noThreads) hrun
  have hstate : (bootKernel.run OwnerSafe 8 calls).map
      (fun k => (k.threads, k.threadUsed 6, (k.process 20).threads)) =
        some ([5, 6, 7], false, [7]) := by decide +kernel
  rw [hrun] at hstate
  have htriple : (k.threads, k.threadUsed 6, (k.process 20).threads) = ([5, 6, 7], false, [7]) :=
    Option.some.inj hstate
  simp only [Prod.mk.injEq] at htriple
  exact ⟨k, hreach, htriple.1, htriple.2.1, htriple.2.2, (oneOwner_of_reachable hreach).1⟩

/-- A thread of process `10` ends, and its record is used again for process `1`: both list
    it. -/
theorem recycled_thread_two_owners :
    ¬ ∀ k : Kernel, Reachable Kernel.NoThreads Kernel.Step k → k.OneOwner := by
  intro hall
  let calls := [spawn 1 5, createAt 10, spawn 10 6, .terminateThread 6 0, spawn 1 7]
  obtain ⟨k, hrun⟩ := Option.isSome_iff_exists.mp
    (show (bootKernel.run (fun _ _ => True) 8 calls).isSome by decide +kernel)
  have hstate : (bootKernel.run (fun _ _ => True) 8 calls).map (fun k =>
      (k.threadUsed 6, k.processUsed 10, (k.thread 6).process, (k.process 10).threads)) =
        some (true, true, 1, [6]) := by decide +kernel
  rw [hrun] at hstate
  have htuple : (k.threadUsed 6, k.processUsed 10, (k.thread 6).process, (k.process 10).threads) =
      (true, true, 1, [6]) := Option.some.inj hstate
  simp only [Prod.mk.injEq] at htuple
  obtain ⟨hthread, hprocess, howner, hlist⟩ := htuple
  have hone := hall k (Kernel.run_reachable (.start bootKernel_noThreads) hrun) 6 hthread
  have hsame := hone.2.2 10 hprocess (by simp [hlist])
  rw [howner] at hsame
  cases hsame

end XTOS.Process

import XTOS.Process

/-!
# Process ids

`xtCreateProcess` numbers processes with the counter `lastProcessId`, and
`xtTerminateProcess` puts the counter back to the id of the process it frees.

## Main definitions

- `Kernel.DistinctIds` — no two live processes have the same id
- `Kernel.IdFree` — no live process has the id that the next creation gives
- `IdFrame` — what a termination leaves of the live processes and their ids

## Design notes

`IdFrame` is proved for a termination as a whole, by induction on its nesting: a
termination may end threads of other processes and so terminate these as well.
-/

namespace XTOS.Process

open SysLib XTOS.LinkedList

/-- The ids of the live processes are pairwise distinct. -/
def Kernel.DistinctIds (k : Kernel) : Prop := (k.live.map fun p => (k.process p).id).Nodup

/-- The value of `lastProcessId` is not the id of a live process. -/
def Kernel.IdFree (k : Kernel) : Prop := ∀ p ∈ k.live, (k.process p).id ≠ k.lastProcessId

/-- Ids stay as they are, and the processes still live were live before and are not
    freed. -/
structure IdFrame (k k' : Kernel) : Prop where
  id : ∀ p, (k'.process p).id = (k.process p).id
  live : k'.live.Sublist k.live
  used : ∀ p ∈ k'.live, k.processUsed p = true → k'.processUsed p = true

theorem IdFrame.refl (k : Kernel) : IdFrame k k := ⟨fun _ => rfl, .refl _, fun _ _ h => h⟩

theorem IdFrame.trans {k k' k'' : Kernel} (h : IdFrame k k') (h' : IdFrame k' k'') :
    IdFrame k k'' where
  id p := (h'.id p).trans (h.id p)
  live := h'.live.trans h.live
  used p hp hu := h'.used p hp (h.used p (h'.live.subset hp) hu)

theorem IdFrame.of_threadsOnly {k k' : Kernel} (h : ThreadsOnly k k') : IdFrame k k' := by
  obtain ⟨th, cur, it, -, rfl⟩ := h
  exact ⟨fun _ => rfl, .refl _, fun _ _ h => h⟩

theorem idFrame_modifyProcess (k : Kernel) (p : ℕ) {f : XTProcess → XTProcess}
    (hf : ∀ pr, (f pr).id = pr.id) : IdFrame k (k.modifyProcess p f) := by
  refine ⟨fun q => ?_, .refl _, fun _ _ h => h⟩
  by_cases hq : q = p
  · subst hq
    simpa [Kernel.modifyProcess] using hf (k.process q)
  · simp [Kernel.modifyProcess, hq]

/-- The record that is freed belongs to no live process any more. -/
theorem idFrame_releaseProcess (fuel : ℕ) (k : Kernel) {p : ℕ} (hp : p ∉ k.live) :
    (releaseProcess fuel k p).All (IdFrame k) := by
  intro k' hk'
  obtain ⟨pages, H, id, rfl⟩ := releaseProcess_eq hk'
  refine ⟨fun q => ?_, .refl _, fun q hq hu => ?_⟩
  · by_cases hqp : q = p
    · subst hqp
      simp
    · simp [hqp]
  · have hne : q ≠ p := fun h => hp (h ▸ hq)
    simpa [hne] using hu

theorem idFrame_lowerCount (k : Kernel) (p : ℕ) : IdFrame k (lowerCount k p) := by
  rw [lowerCount]
  split_ifs
  · exact .refl k
  · exact idFrame_modifyProcess k p (by simp)

theorem idFrame_terminateThreadWith {tp : Kernel → ℕ → ℕ → Outcome}
    (htp : ∀ k p code, (tp k p code).All (IdFrame k)) (k : Kernel) (t code : ℕ) :
    (terminateThreadWith tp k t code).All (IdFrame k) := by
  rw [terminateThreadWith]
  split_ifs with ht
  · exact all_returned.mpr (.refl k)
  · have hmark := IdFrame.of_threadsOnly (threadsOnly_markTerminated k t code)
    have hcount := hmark.trans (idFrame_lowerCount _ (k.thread t).process)
    refine Outcome.All.andThen (P := IdFrame k) ?_ (fun _ h => h) fun k' hk' => ?_
    · split_ifs with hlast
      · exact (htp _ _ code).mono fun _ h => hcount.trans h
      · exact all_returned.mpr hcount
    · split_ifs
      · exact all_gone.mpr (hk'.trans (.of_threadsOnly (threadsOnly_xtSchedule k')))
      · exact all_returned.mpr hk'

/-- **Terminations and ids**: a termination, with all those it leads to, changes no id,
    makes no process live, and frees no live one. -/
theorem idFrame_xtTerminateProcess (fuel : ℕ) :
    ∀ k p code, (xtTerminateProcess fuel k p code).All (IdFrame k) := by
  induction fuel with
  | zero => exact fun _ _ _ => all_stuck
  | succ fuel ih =>
    intro k p code
    rw [xtTerminateProcess]
    split_ifs with hp
    · exact all_returned.mpr (.refl k)
    · set k0 : Kernel := { k with live := k.live.filter (· ≠ p) } with hk0
      have h0 : IdFrame k k0 :=
        ⟨fun _ => rfl, List.filter_sublist, fun _ _ h => h⟩
      have hp0 : p ∉ k0.live := by simp [hk0]
      dsimp only
      split_ifs with hflag
      · exact all_returned.mpr h0
      · have hterm := idFrame_terminateThreadWith ih
        have h1 := h0.trans (idFrame_modifyProcess k0 p
          (f := fun pr => { pr with flags := pr.flags ||| xtProcessTerminating }) (by simp))
        -- the loop keeps: nothing changed but for a frame, and `p` is not live
        refine Outcome.All.andThen (P := fun k' => IdFrame k k' ∧ p ∉ k'.live)
          (forEach_all (fun t _ k' hk' => ?_) _ ⟨h1, hp0⟩) (fun _ h => h.1) fun k' hk' => ?_
        · split_ifs
          · refine (hterm k' t code).mono fun k'' hk'' => ⟨hk'.1.trans hk'', fun h => ?_⟩
            exact hk'.2 (hk''.live.subset h)
          · exact all_returned.mpr hk'
        · split_ifs
          · exact (hterm k' _ code).mono fun _ h => hk'.1.trans h
          · exact (idFrame_releaseProcess fuel k' hk'.2).mono fun _ h => hk'.1.trans h

theorem IdFrame.of_eq {k k' : Kernel} (hprocess : k'.process = k.process)
    (hlive : k'.live = k.live) (hused : k'.processUsed = k.processUsed) : IdFrame k k' :=
  ⟨fun p => by rw [hprocess], by rw [hlive], fun p _ hu => by rwa [hused]⟩

theorem IdFrame.of_stackOnly {k k' : Kernel} (h : StackOnly k k') : IdFrame k k' := by
  obtain ⟨process, owned, hmaps, rfl⟩ := h
  refine ⟨fun q => ?_, .refl _, fun _ _ h => h⟩
  obtain ⟨maps, hq⟩ := hmaps q
  simp only [hq]

theorem idFrame_setThread (k : Kernel) (p kernelStack state t : ℕ) (m : ThreadAlloc) :
    IdFrame k (setThread k p kernelStack state t m).1 := by
  rw [setThread]
  split_ifs
  · dsimp only
    refine IdFrame.trans ?_ (idFrame_modifyProcess _ p (by simp))
    exact .of_eq rfl rfl rfl
  · exact .of_eq rfl rfl rfl

theorem idFrame_xtCreateThread (k : Kernel) (p stackSize state : ℕ) (m : ThreadAlloc) :
    IdFrame k (xtCreateThread k p stackSize state m).1 := by
  obtain ⟨k1, hstack, ⟨-, h⟩ | ⟨-, kernelStack, h⟩⟩ := xtCreateThread_cases k p stackSize state m
  all_goals rw [h]
  · exact .of_stackOnly hstack
  · refine (IdFrame.of_stackOnly hstack).trans ?_
    obtain ⟨used, -, -, h⟩ | ⟨t, -, -, h⟩ | ⟨t, th, cur, it, count, -, -, -, -, h⟩ :=
      takeThread_cases k1 m
    · rw [h]
      exact .of_eq rfl rfl rfl
    · rw [h]
      exact idFrame_setThread ..
    · rw [h]
      refine IdFrame.trans ?_ (idFrame_setThread ..)
      exact .of_eq rfl rfl rfl

/-- A creation finds the value of the counter free. -/
def IdSafe (k : Kernel) : Call → Prop
  | .createProcess _ (some _) (some _) _ _ => k.IdFree
  | _ => True

instance (k : Kernel) (c : Call) : Decidable (IdSafe k c) :=
  match c with
  | .createProcess _ (some _) (some _) _ _ =>
    inferInstanceAs (Decidable (∀ p ∈ k.live, (k.process p).id ≠ k.lastProcessId))
  | .createProcess _ none _ _ _ => .isTrue trivial
  | .createProcess _ (some _) none _ _ => .isTrue trivial
  | .terminateProcess _ _ => .isTrue trivial
  | .createThread _ _ _ _ => .isTrue trivial
  | .terminateThread _ _ => .isTrue trivial
  | .timer => .isTrue trivial

/-- The ids are distinct, and the live processes are not freed. -/
def Kernel.IdsOk (k : Kernel) : Prop := k.DistinctIds ∧ ∀ p ∈ k.live, k.processUsed p = true

theorem IdFrame.idsOk {k k' : Kernel} (h : IdFrame k k') (hk : k.IdsOk) : k'.IdsOk := by
  refine ⟨?_, fun p hp => h.used p hp (hk.2 p (h.live.subset hp))⟩
  have hids : (fun p => (k'.process p).id) = fun p => (k.process p).id := funext h.id
  rw [Kernel.DistinctIds, hids]
  exact hk.1.sublist (h.live.map _)

/-- A creation at a fresh block keeps the ids distinct if the counter is free. -/
theorem idsOk_xtCreateProcess {fuel : ℕ} {k k' : Kernel} {parentProcess : ℕ}
    {block page node : Option ℕ} {old : XTProcess} {r : Except XTResult ℕ}
    (h : xtCreateProcess fuel k parentProcess block page node old = some (k', r))
    (hfresh : Fresh k.processUsed block)
    (hfree : ∀ p pageTable, block = some p → page = some pageTable → k.IdFree) (hk : k.IdsOk) :
    k'.IdsOk := by
  obtain ⟨used, hused, -, rfl⟩ | ⟨p, pageTable, _, _, _, _, rfl, rfl, rfl⟩ :=
    xtCreateProcess_cases h
  · exact IdFrame.idsOk (k := k) ⟨fun _ => rfl, .refl _, fun p _ => hused p⟩ hk
  · have hp : p ∉ k.live := by
      intro hmem
      have := hk.2 p hmem
      rw [(hfresh p rfl).2] at this
      cases this
    have hids : ∀ pr, k.live.map (fun q => (Function.update k.process p pr q).id) =
        k.live.map fun q => (k.process q).id := by
      refine fun pr => List.map_congr_left fun q hq => ?_
      have hne : q ≠ p := fun h => hp (h ▸ hq)
      rw [Function.update_of_ne hne]
    constructor
    · dsimp only [Kernel.DistinctIds]
      rw [List.map_append, hids, List.map_singleton, Function.update_self, List.nodup_append]
      refine ⟨hk.1, List.nodup_singleton _, fun i hi j hj => ?_⟩
      obtain ⟨q, hq, rfl⟩ := List.mem_map.mp hi
      rw [List.mem_singleton.mp hj]
      exact hfree p pageTable rfl rfl q hq
    · intro q hq
      obtain hq | rfl := (List.mem_append.trans (or_congr_right List.mem_singleton)).mp hq
      · have hne : q ≠ p := fun h => hp (h ▸ hq)
        simpa [hne] using hk.2 q hq
      · exact Function.update_self ..

/-- A creation that finds the counter taken breaks the property at once. -/
theorem not_distinctIds_xtCreateProcess {fuel : ℕ} {k k' : Kernel} {parentProcess p pageTable : ℕ}
    {node : Option ℕ} {old : XTProcess} {r : Except XTResult ℕ}
    (h : xtCreateProcess fuel k parentProcess (some p) (some pageTable) node old = some (k', r))
    (hfresh : k.processUsed p = false) (hk : k.IdsOk) (htaken : ¬ k.IdFree) :
    ¬ k'.DistinctIds := by
  obtain ⟨k1, hk1, heq⟩ := Option.map_eq_some_iff.mp h
  obtain ⟨H, head, rfl⟩ := linkProcess_some hk1
  cases heq
  simp only [Kernel.IdFree, not_forall, not_not] at htaken
  obtain ⟨q, hq, hid⟩ := htaken
  have hne : q ≠ p := by
    rintro rfl
    rw [hk.2 q hq] at hfresh
    cases hfresh
  intro hdistinct
  rw [Kernel.DistinctIds, List.map_append, List.nodup_append] at hdistinct
  refine hdistinct.2.2 k.lastProcessId ?_ k.lastProcessId ?_ rfl
  · exact List.mem_map.mpr ⟨q, hq, by simp [Function.update_of_ne hne, hid]⟩
  · simp

theorem idsOk_step {k k' : Kernel} (hs : k.StepIf IdSafe k') (hk : k.IdsOk) : k'.IdsOk := by
  obtain ⟨fuel, c, hfree, hexec⟩ := hs
  have hsome := Kernel.exec_some hexec
  cases c with
  | createProcess parentProcess block page node old =>
    obtain ⟨hfresh, r, hcreate⟩ := hsome
    refine idsOk_xtCreateProcess hcreate hfresh (fun p pageTable hb hp => ?_) hk
    subst hb hp
    exact hfree
  | terminateProcess p code =>
    exact (idFrame_xtTerminateProcess fuel k p code k' hsome.2).idsOk hk
  | createThread p stackSize state m =>
    rw [hsome.2]
    exact (idFrame_xtCreateThread k p stackSize state m).idsOk hk
  | terminateThread t code =>
    exact (idFrame_terminateThreadWith (idFrame_xtTerminateProcess fuel) k t code k'
      hsome.2).idsOk hk
  | timer =>
    rw [show k' = xtSchedule k from hsome]
    exact (IdFrame.of_threadsOnly (threadsOnly_xtSchedule k)).idsOk hk

/-- A call keeps the ids distinct exactly if it meets the condition. -/
theorem distinctIds_exec_iff {fuel : ℕ} {k k' : Kernel} {c : Call} (hk : k.IdsOk)
    (hexec : k.exec fuel c = some k') : k'.DistinctIds ↔ IdSafe k c := by
  refine ⟨fun hdistinct => ?_, fun hsafe => (idsOk_step ⟨fuel, c, hsafe, hexec⟩ hk).1⟩
  cases c with
  | createProcess parentProcess block page node old =>
    obtain ⟨hfresh, r, hcreate⟩ := Kernel.exec_some hexec
    cases block with
    | none => trivial
    | some p =>
      cases page with
      | none => trivial
      | some pageTable =>
        by_contra htaken
        exact not_distinctIds_xtCreateProcess hcreate (hfresh p rfl).2 hk htaken hdistinct
  | terminateProcess p code => trivial
  | createThread p stackSize state m => trivial
  | terminateThread t code => trivial
  | timer => trivial

/-- **Process ids**: in every run whose creations find the value of `lastProcessId` free,
    the ids of the live processes are distinct in every state, and the next call keeps them
    distinct exactly if it finds the value free too. -/
theorem distinctIds_of_reachable {k : Kernel}
    (h : Reachable Kernel.Initial (Kernel.StepIf IdSafe) k) :
    k.DistinctIds ∧ ∀ fuel c k', k.exec fuel c = some k' → (k'.DistinctIds ↔ IdSafe k c) := by
  have hok : k.IdsOk := h.invariant (I := Kernel.IdsOk)
    (fun k hk => ⟨by simp [Kernel.DistinctIds, hk.live], by simp [hk.live]⟩)
    fun _ _ hk hs => idsOk_step hs hk
  exact ⟨hok.1, fun _ _ _ => distinctIds_exec_iff hok⟩

/-- A zeroed process record. -/
def zeroProcess : XTProcess := ⟨[], 0, 0, [], 0, 0, 0, 0⟩

/-- A zeroed thread record. -/
def zeroThread : XTThread := ⟨0, 0, 0, 0, 0, 0, 0, []⟩

/-- The kernel before any creation, with zeroed memory and the kernel process at `1`. -/
def bootKernel : Kernel where
  process _ := zeroProcess
  thread _ := zeroThread
  processUsed p := p = 1
  threadUsed _ := false
  threads := []
  currentThreadIterator := 0
  currentThread := 0
  idleThread := 0
  threadCount := 0
  list := ⟨fun _ => ⟨0, 0⟩, fun _ => false⟩
  processess := 0
  lastProcessId := 0
  freedPages := []
  live := []
  owned _ := []

theorem bootKernel_initial : bootKernel.Initial := ⟨rfl, rfl⟩

/-- A process in the block at `p`, with its top table and node at addresses derived
    from it. -/
def createAt (p : ℕ) : Call :=
  .createProcess 0 (some p) (some (0x100000 + 0x2000 * p)) (some (1000 + p)) zeroProcess

/-- The youngest of two processes is replaced. -/
theorem distinctIds_youngest_replaced : ∃ k : Kernel,
    Reachable Kernel.Initial (Kernel.StepIf IdSafe) k ∧ k.live = [10, 30] ∧ k.DistinctIds := by
  obtain ⟨k, hrun⟩ := Option.isSome_iff_exists.mp (show (bootKernel.run IdSafe 8
    [createAt 10, createAt 20, .terminateProcess 20 0, createAt 30]).isSome by decide)
  have hreach := Kernel.run_reachable (.start bootKernel_initial) hrun
  have hlive : k.live = [10, 30] := by
    have hsome : (bootKernel.run IdSafe 8 [createAt 10, createAt 20, .terminateProcess 20 0,
      createAt 30]).map Kernel.live = some [10, 30] := by decide
    rw [hrun] at hsome
    exact Option.some.inj hsome
  exact ⟨k, hreach, hlive, (distinctIds_of_reachable hreach).1⟩

/-- After the middle one of three processes ends, the counter runs into the id of the
    third. -/
theorem ids_collide_after_middle_ends :
    ¬ ∀ k : Kernel, Reachable Kernel.Initial Kernel.Step k → k.DistinctIds := by
  intro hall
  obtain ⟨k, hrun⟩ := Option.isSome_iff_exists.mp (show (bootKernel.run (fun _ _ => True) 8
    [createAt 10, createAt 20, createAt 30, .terminateProcess 20 0, createAt 40,
      createAt 50]).isSome by decide)
  have hids : (bootKernel.run (fun _ _ => True) 8 [createAt 10, createAt 20, createAt 30,
      .terminateProcess 20 0, createAt 40, createAt 50]).map
      (fun k => k.live.map fun p => (k.process p).id) = some [0, 2, 1, 2] := by decide
  rw [hrun] at hids
  have hlist : (k.live.map fun p => (k.process p).id) = [0, 2, 1, 2] := Option.some.inj hids
  have hdistinct := hall k (Kernel.run_reachable (.start bootKernel_initial) hrun)
  rw [Kernel.DistinctIds, hlist] at hdistinct
  exact absurd hdistinct (by decide)

end XTOS.Process

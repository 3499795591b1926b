import XTOS.Lib.Turns
import XTOS.LinkedList
import XTOS.Sleep

/-!
# The scheduler

`xtWakeUpThreads` and `xtSchedule` of `xtkernel/scheduler.c` on the nodes of the list `threads`. The
search starts behind the node that the iterator is at, goes on at the head of the list when it gets
to the end, and ends when it is back.

## Main definitions

- `State` — the list, the iterator, the records and the thread that runs
- `xtWakeUpThreads`, `xtSchedule` — loops that a cycle keeps from ending; without enough fuel they
  give `none`
- `Switches` — the threads that the switches of a run take

## Main results

- `searchLoop_eq` — the search takes the first thread to run in the order of turns
- `xtSchedule_spec` — what a call does, and that each thread to run gets its turn
-/

namespace XTOS.Scheduler

open SysLib XTOS.LinkedList XTOS.Sleep
open XTOS.Process (XTThread xtThreadRunState xtThreadTerminatedState dec64 dec64_eq dec64_lt)

/-- The list `threads` with the place of the iterator, the thread records, the current thread and
    the idle thread. -/
structure State where
  list : NodeHeap
  threads : ℕ
  currentThreadIterator : ℕ
  thread : Threads
  currentThread : ℕ
  idleThread : ℕ

/-- The loop of `xtWakeUpThreads`. -/
def wakeLoop (H : NodeHeap) : ℕ → ℕ → Threads → Option Threads
  | 0, _, _ => none
  | fuel + 1, i, m =>
    if i = 0 then some m else wakeLoop H fuel (H.next i) (m.modify (H.data i) wakeUpPass)

/-- `xtWakeUpThreads`. -/
def xtWakeUpThreads (fuel : ℕ) (s : State) : Option State :=
  (wakeLoop s.list fuel s.threads s.thread).map fun m => { s with thread := m }

/-- The node behind `i`, or the head of the list. -/
def State.step (s : State) (i : ℕ) : ℕ :=
  if s.list.next i = 0 then s.threads else s.list.next i

/-- The search loop of `xtSchedule`: the node where it stops, and the thread it takes. -/
def searchLoop (s : State) (start : ℕ) : ℕ → ℕ → Option (ℕ × ℕ)
  | 0, _ => none
  | fuel + 1, i =>
    let i := s.step i
    let t := s.list.data i
    if (s.thread t).runs then some (i, t)
    else if i = start then some (i, s.idleThread)
    else searchLoop s start fuel i

/-- The end of `xtSchedule`: take the thread that the search finds. -/
def switchNext (fuel : ℕ) (s : State) : Option State :=
  (searchLoop s s.currentThreadIterator fuel s.currentThreadIterator).map fun (i, t) =>
    { s with
      currentThreadIterator := i
      thread := s.thread.modify t fun th => { th with ticks := th.privilage }
      currentThread := t }

/-- `xtSchedule`. -/
def xtSchedule (fuel : ℕ) (s : State) : Option State :=
  (xtWakeUpThreads fuel s).bind fun s =>
    if (s.thread s.currentThread).runs then
      let s := { s with
        thread := s.thread.modify s.currentThread fun th => { th with ticks := dec64 th.ticks } }
      if 0 < (s.thread s.currentThread).ticks then some s else switchNext fuel s
    else switchNext fuel s

/-- The thread of a node is to run. -/
def State.ready (s : State) (n : ℕ) : Bool := (s.thread (s.list.data n)).runs

/-- The state after the sleepers of the list `xs` were aged. -/
def State.aged (s : State) (xs : List ℕ) : State :=
  { s with thread := (xs.map s.list.data).foldl (fun m t => m.modify t wakeUpPass) s.thread }

/-- The counters of the records are machine words. -/
def State.Words (s : State) : Prop :=
  ∀ t, (s.thread t).ticks < 2 ^ 64 ∧ (s.thread t).privilage < 2 ^ 8

/-- A current thread that is to run has a tick left. -/
def State.Ticking (s : State) (xs : List ℕ) : Prop :=
  ((s.aged xs).thread s.currentThread).runs → 1 ≤ ((s.aged xs).thread s.currentThread).ticks

/-- The current thread does not go on: it is not to run, or this is its last tick. -/
def State.Expired (s : State) (xs : List ℕ) : Prop :=
  ¬ (((s.aged xs).thread s.currentThread).runs ∧ 1 < ((s.aged xs).thread s.currentThread).ticks)

/-- Where the search ends, and the thread that runs next. -/
def State.chosen (s : State) (xs : List ℕ) : ℕ × ℕ :=
  match (turnOrder xs s.currentThreadIterator).find? s.ready with
  | some n => (n, s.list.data n)
  | none => (s.currentThreadIterator, s.idleThread)

/-- What a call does: the current thread stays and has used a tick, or the chosen one is current with
    all its ticks. -/
structure Scheduled (xs : List ℕ) (s s' : State) : Prop where
  list : s'.list = s.list
  threads : s'.threads = s.threads
  idleThread : s'.idleThread = s.idleThread
  state : ∀ t, (s'.thread t).state = ((s.aged xs).thread t).state
  stays : ¬ s.Expired xs → s'.currentThread = s.currentThread ∧
    s'.currentThreadIterator = s.currentThreadIterator ∧
    (s'.thread s'.currentThread).ticks + 1 = ((s.aged xs).thread s.currentThread).ticks
  takes : s.Expired xs → (s'.currentThreadIterator, s'.currentThread) = (s.aged xs).chosen xs ∧
    (s'.thread s'.currentThread).ticks = (s'.thread s'.currentThread).privilage

/-- The list and the states of its threads stay as they are. -/
structure Fixed (xs : List ℕ) (s s' : State) : Prop where
  linked : Linked 0 s'.list.next s'.threads xs 0
  data : ∀ n ∈ xs, s'.list.data n = s.list.data n
  state : ∀ n ∈ xs, (s'.thread (s.list.data n)).state = (s.thread (s.list.data n)).state

/-- A run in which the list and the states stay fixed, with the threads that its switches take. -/
inductive Switches (xs : List ℕ) : State → List ℕ → State → Prop
  | nil (s : State) : Switches xs s [] s
  | other {s s' s'' : State} {l : List ℕ} : Fixed xs s s' →
      s'.currentThreadIterator = s.currentThreadIterator → Switches xs s' l s'' →
      Switches xs s l s''
  | switch {s s' s'' : State} {l : List ℕ} {fuel : ℕ} : xs.length < fuel → s.Words →
      s.Ticking xs → s.Expired xs → xtSchedule fuel s = some s' → Fixed xs s s' →
      Switches xs s' l s'' → Switches xs s (s'.currentThread :: l) s''

variable {s s' : State} {xs : List ℕ} {x : ℕ}

/-! ### The loops -/

theorem wakeLoop_eq {H : NodeHeap} {a : ℕ} (h : Linked 0 H.next a xs 0) {fuel : ℕ}
    (hfuel : xs.length < fuel) (m : Threads) :
    wakeLoop H fuel a m = some ((xs.map H.data).foldl (fun m t => m.modify t wakeUpPass) m) := by
  induction xs generalizing a fuel m with
  | nil =>
    obtain ⟨fuel, rfl⟩ := Nat.exists_eq_add_one.mpr hfuel
    have hend : a = 0 := h
    rw [wakeLoop, if_pos hend]
    rfl
  | cons x xs ih =>
    obtain ⟨rfl, hx, h⟩ := h
    rw [List.length_cons] at hfuel
    obtain ⟨fuel, rfl⟩ : ∃ n, fuel = n + 1 := Nat.exists_eq_add_one.mpr (by omega)
    rw [wakeLoop, if_neg hx]
    exact ih h (by omega) _

theorem xtWakeUpThreads_eq (hlist : Linked 0 s.list.next s.threads xs 0) {fuel : ℕ}
    (hfuel : xs.length < fuel) : xtWakeUpThreads fuel s = some (s.aged xs) := by
  rw [xtWakeUpThreads, wakeLoop_eq hlist hfuel]
  rfl

/-- From a node the search goes through the others in the order of turns. -/
theorem State.isChain (hlist : Linked 0 s.list.next s.threads xs 0) (hx : x ∈ xs) :
    (x :: turnOrder xs x).IsChain fun u v => s.step u = v := by
  have hnd := hlist.nodup
  have hstep : xs.IsChain fun u v => s.step u = v := by
    refine hlist.isChain.imp fun u v h => ?_
    rw [State.step, if_neg (by rw [h.1]; exact h.2), h.1]
  obtain ⟨pre, post, rfl⟩ := List.append_of_mem hx
  rw [turnOrder_split hnd, List.append_assoc, ← List.cons_append]
  have hfirst : (x :: post).IsChain fun u v => s.step u = v := hstep.right_of_append
  have hsecond : (pre ++ [x]).IsChain fun u v => s.step u = v := by
    rw [show pre ++ x :: post = (pre ++ [x]) ++ post by simp] at hstep
    exact hstep.left_of_append
  refine hfirst.append hsecond fun u hu v hv => ?_
  -- behind the last node the search goes on at the head
  obtain ⟨ys, hys⟩ := List.getLast?_eq_some_iff.mp hu
  have hend : s.list.next u = 0 := by
    have hlist' := hlist
    rw [hys, ← List.append_assoc] at hlist'
    exact hlist'.next_last
  rw [State.step, if_pos hend, hlist.head]
  cases pre with
  | nil => exact (Option.some.inj hv).symm ▸ rfl
  | cons y pre => exact (Option.some.inj hv).symm ▸ rfl

/-- **The search** takes the first thread to run, or the idle thread after one round. -/
theorem searchLoop_chain {start i fuel : ℕ} {body : List ℕ}
    (hchain : (i :: (body ++ [start])).IsChain fun u v => s.step u = v) (hstart : start ∉ body)
    (hfuel : body.length < fuel) :
    searchLoop s start fuel i =
      some (match (body ++ [start]).find? s.ready with
        | some n => (n, s.list.data n)
        | none => (start, s.idleThread)) := by
  induction body generalizing i fuel with
  | nil =>
    obtain ⟨fuel, rfl⟩ := Nat.exists_eq_add_one.mpr hfuel
    obtain ⟨hstep, -⟩ := List.isChain_cons_cons.mp hchain
    have hready : (s.thread (s.list.data start)).runs = s.ready start := rfl
    rw [searchLoop, hstep, hready, List.nil_append]
    cases hr : s.ready start with
    | true => simp [hr]
    | false => simp [hr]
  | cons n body ih =>
    rw [List.length_cons] at hfuel
    obtain ⟨fuel, rfl⟩ : ∃ k, fuel = k + 1 := Nat.exists_eq_add_one.mpr (by omega)
    obtain ⟨hstep, hrest⟩ := List.isChain_cons_cons.mp hchain
    obtain ⟨hne, hstart⟩ := not_or.mp (List.mem_cons.not.mp hstart)
    have hready : (s.thread (s.list.data n)).runs = s.ready n := rfl
    rw [searchLoop, hstep, hready, List.cons_append]
    cases hr : s.ready n with
    | true => simp [hr]
    | false =>
      rw [List.find?_cons_of_neg (by simp [hr])]
      rw [if_neg (by simp), if_neg (Ne.symm hne)]
      exact ih hrest hstart (by omega)

theorem searchLoop_eq (hlist : Linked 0 s.list.next s.threads xs 0) {start fuel : ℕ}
    (hstart : start ∈ xs) (hfuel : xs.length ≤ fuel) :
    searchLoop s start fuel start =
      some (match (turnOrder xs start).find? s.ready with
        | some n => (n, s.list.data n)
        | none => (start, s.idleThread)) := by
  have hchain := State.isChain hlist hstart
  have hnd := turnOrder_nodup hlist.nodup hstart
  have hlen := (turnOrder_perm hlist.nodup hstart).length_eq
  rw [turnOrder] at hchain hnd hlen ⊢
  refine searchLoop_chain hchain ?_ ?_
  · exact fun hmem => (List.nodup_append.mp hnd).2.2 start hmem start List.mem_cons_self rfl
  · rw [List.length_append, List.length_singleton] at hlen
    omega

theorem switchNext_eq (hlist : Linked 0 s.list.next s.threads xs 0)
    (hit : s.currentThreadIterator ∈ xs) {fuel : ℕ} (hfuel : xs.length ≤ fuel) :
    switchNext fuel s = some { s with
      currentThreadIterator := (s.chosen xs).1
      thread := s.thread.modify (s.chosen xs).2 fun th => { th with ticks := th.privilage }
      currentThread := (s.chosen xs).2 } := by
  rw [switchNext, searchLoop_eq hlist hit hfuel, State.chosen]
  cases (turnOrder xs s.currentThreadIterator).find? s.ready with
  | some n => rfl
  | none => rfl

/-! ### Sleepers -/

/-- What the timer keeps of a record, aging keeps. -/
theorem aged_induct {P : XTThread → Prop} (hP : ∀ th, P th → P (wakeUpPass th)) {t : ℕ}
    (h : P (s.thread t)) (xs : List ℕ) : P ((s.aged xs).thread t) := by
  suffices hall : ∀ (ts : List ℕ) (m : Threads), P (m t) →
      P ((ts.foldl (fun m t => m.modify t wakeUpPass) m) t) from hall _ _ h
  intro ts
  induction ts with
  | nil => exact fun m hm => hm
  | cons u ts ih =>
    refine fun m hm => ih _ ?_
    dsimp only
    obtain rfl | hne := eq_or_ne t u
    · rw [Threads.modify_self]
      exact hP _ hm
    · rw [Threads.modify_of_ne hne]
      exact hm

theorem State.Words.aged (h : s.Words) (xs : List ℕ) : (s.aged xs).Words := by
  refine fun t => aged_induct (P := fun th => th.ticks < 2 ^ 64 ∧ th.privilage < 2 ^ 8) ?_ (h t) xs
  rintro th ⟨hticks, hpriv⟩
  rw [wakeUpPass]
  dsimp only
  split_ifs
  · exact ⟨hpriv.trans (by norm_num), hpriv⟩
  · exact ⟨dec64_lt _, hpriv⟩
  · exact ⟨hticks, hpriv⟩

/-- A current thread with a tick before the call has one after a wake-up, too: it gets as many as its
    privilage says. -/
theorem State.ticking (hpriv : 1 ≤ (s.thread s.currentThread).privilage)
    (h : (s.thread s.currentThread).runs → 1 ≤ (s.thread s.currentThread).ticks) (xs : List ℕ) :
    s.Ticking xs := by
  suffices hall : 1 ≤ ((s.aged xs).thread s.currentThread).privilage ∧ s.Ticking xs from hall.2
  refine aged_induct (P := fun th => 1 ≤ th.privilage ∧ (th.runs → 1 ≤ th.ticks)) ?_ ⟨hpriv, h⟩ xs
  rintro th ⟨hpriv, hth⟩
  rw [wakeUpPass]
  dsimp only
  split_ifs with hsleep hzero
  · exact ⟨hpriv, fun _ => hpriv⟩
  · exact ⟨hpriv, fun _ => Nat.pos_of_ne_zero hzero⟩
  · exact ⟨hpriv, hth⟩

/-! ### One call -/

theorem modify_state {m : Threads} {t : ℕ} {f : XTThread → XTThread}
    (hf : ∀ th, (f th).state = th.state) (u : ℕ) : (m.modify t f u).state = (m u).state := by
  obtain rfl | hne := eq_or_ne u t
  · rw [Threads.modify_self, hf]
  · rw [Threads.modify_of_ne hne]

theorem runs_congr {th th' : XTThread} (h : th.state = th'.state) : th.runs = th'.runs := by
  rw [XTThread.runs, XTThread.runs, h]

/-- The search looks at the states only. -/
theorem chosen_thread {m : Threads} (h : ∀ t, (m t).state = (s.thread t).state) :
    ({ s with thread := m } : State).chosen xs = s.chosen xs := by
  have hready : ({ s with thread := m } : State).ready = s.ready :=
    funext fun n => runs_congr (h (s.list.data n))
  rw [State.chosen, State.chosen, hready]

/-- A switch, from records with the states of the aged ones. -/
theorem switchNext_scheduled (hlist : Linked 0 s.list.next s.threads xs 0)
    (hit : s.currentThreadIterator ∈ xs) {fuel : ℕ} (hfuel : xs.length ≤ fuel)
    (hexp : s.Expired xs) {m : Threads} (h : ∀ t, (m t).state = ((s.aged xs).thread t).state) :
    ∃ s', switchNext fuel { s.aged xs with thread := m } = some s' ∧ Scheduled xs s s' := by
  refine ⟨_, switchNext_eq (s := { s.aged xs with thread := m }) hlist hit hfuel, rfl, rfl, rfl,
    fun t => ?_, fun hn => absurd hexp hn, fun _ => ⟨?_, ?_⟩⟩
  · rw [← h t]
    dsimp only
    exact modify_state (f := fun th => { th with ticks := th.privilage }) (fun _ => rfl) t
  · exact chosen_thread h
  · dsimp only
    rw [Threads.modify_self]

theorem xtSchedule_spec (hlist : Linked 0 s.list.next s.threads xs 0)
    (hit : s.currentThreadIterator ∈ xs) (hwords : s.Words) (hticking : s.Ticking xs) {fuel : ℕ}
    (hfuel : xs.length < fuel) : ∃ s', xtSchedule fuel s = some s' ∧ Scheduled xs s s' := by
  rw [xtSchedule, xtWakeUpThreads_eq hlist hfuel, Option.bind_some]
  dsimp only
  have hcur : (s.aged xs).currentThread = s.currentThread := rfl
  rw [hcur]
  split_ifs with hruns hticks
  · -- the thread goes on
    have hpos := hticking hruns
    have hlt := (hwords.aged xs s.currentThread).1
    rw [Threads.modify_self] at hticks
    dsimp only at hticks
    rw [dec64_eq hpos hlt] at hticks
    refine ⟨_, rfl, rfl, rfl, rfl, modify_state fun _ => rfl, fun _ => ⟨rfl, rfl, ?_⟩,
      fun hexp => absurd ⟨hruns, Nat.lt_of_sub_pos hticks⟩ hexp⟩
    dsimp only
    rw [Threads.modify_self]
    dsimp only
    rw [dec64_eq hpos hlt]
    exact Nat.sub_add_cancel hpos
  · -- that was its last tick
    have hpos := hticking hruns
    have hlt := (hwords.aged xs s.currentThread).1
    rw [Threads.modify_self] at hticks
    dsimp only at hticks
    rw [dec64_eq hpos hlt] at hticks
    refine switchNext_scheduled hlist hit hfuel.le ?_ (modify_state fun _ => rfl)
    rintro ⟨-, hmore⟩
    exact hticks (Nat.sub_pos_of_lt hmore)
  · exact switchNext_scheduled hlist hit hfuel.le (fun h => hruns h.1) fun _ => rfl

/-! ### Runs -/

theorem Fixed.ready (h : Fixed xs s s') {n : ℕ} (hn : n ∈ xs) : s'.ready n = s.ready n := by
  rw [State.ready, State.ready, h.data n hn]
  exact runs_congr (h.state n hn)

theorem Fixed.filter (h : Fixed xs s s') : xs.filter s'.ready = xs.filter s.ready :=
  List.filter_congr fun _ hn => h.ready hn

/-- Without a sleeper that wakes the search looks at the states before the call. -/
theorem chosen_aged (hagree : ∀ n ∈ xs, (s.aged xs).ready n = s.ready n)
    (hit : s.currentThreadIterator ∈ xs) (hnd : xs.Nodup) (hsome : xs.filter s.ready ≠ []) :
    ∃ n ∈ xs, (turnOrder xs s.currentThreadIterator).find? s.ready = some n ∧
      (s.aged xs).chosen xs = (n, s.list.data n) := by
  have hperm := turnOrder_perm hnd hit
  have hfind : (turnOrder xs s.currentThreadIterator).find? (s.aged xs).ready =
      (turnOrder xs s.currentThreadIterator).find? s.ready :=
    List.find?_congr fun n hn => hagree n (hperm.mem_iff.mp hn)
  obtain ⟨m, hm⟩ := List.exists_mem_of_ne_nil _ hsome
  rw [List.mem_filter] at hm
  cases hn : (turnOrder xs s.currentThreadIterator).find? s.ready with
  | none =>
    have hnone := List.find?_eq_none.mp hn m (hperm.mem_iff.mpr hm.1)
    exact absurd hm.2 hnone
  | some n =>
    refine ⟨n, hperm.mem_iff.mp (List.mem_of_find?_eq_some hn), rfl, ?_⟩
    rw [State.chosen, show (s.aged xs).currentThreadIterator = s.currentThreadIterator from rfl,
      hfind, hn]
    rfl

theorem Switches.turns {l : List ℕ} (h : Switches xs s l s')
    (hlist : Linked 0 s.list.next s.threads xs 0) (hit : s.currentThreadIterator ∈ xs)
    (hsome : xs.filter s.ready ≠ []) :
    ∃ ns z, l = ns.map s.list.data ∧ Turns s.ready xs s.currentThreadIterator ns z := by
  induction h with
  | nil s => exact ⟨[], s.currentThreadIterator, rfl, .nil _⟩
  | @other s s' s'' l hfixed hkeep hrest ih =>
    obtain ⟨ns, z, rfl, hturns⟩ := ih hfixed.linked (hkeep ▸ hit) (hfixed.filter.symm ▸ hsome)
    rw [hkeep] at hturns
    refine ⟨ns, z, ?_, hturns.congr hlist.nodup hit fun n hn => hfixed.ready hn⟩
    exact List.map_congr_left fun n hn => hfixed.data n (hturns.mem hlist.nodup hit n hn)
  | @switch s s' s'' l fuel hfuel hwords hticking hexp hcall hfixed hrest ih =>
    obtain ⟨t, ht, hs⟩ := xtSchedule_spec hlist hit hwords hticking hfuel
    rw [hcall, Option.some.injEq] at ht
    subst ht
    have hagree : ∀ n ∈ xs, (s.aged xs).ready n = s.ready n := fun n hn =>
      runs_congr ((hs.state _).symm.trans (hfixed.state n hn))
    obtain ⟨n, hn, hfind, hchosen⟩ := chosen_aged hagree hit hlist.nodup hsome
    have htakes := (hs.takes hexp).1
    rw [hchosen, Prod.mk.injEq] at htakes
    obtain ⟨hnext, hthread⟩ := htakes
    obtain ⟨ns, z, rfl, hturns⟩ := ih hfixed.linked (hnext ▸ hn) (hfixed.filter.symm ▸ hsome)
    rw [hnext] at hturns
    have hrun := hturns.congr hlist.nodup hn fun n hn => hfixed.ready hn
    refine ⟨n :: ns, z, ?_, .cons hfind hrun⟩
    rw [List.map_cons, hthread]
    refine congrArg _ (List.map_congr_left fun n' hn' => hfixed.data n' ?_)
    exact hrun.mem hlist.nodup hn n' hn'

/-- **Round robin**: a call ends, the current thread stays while it has ticks left, else the next
    thread to run in the order of turns is current, and in a round of switches each of them gets its
    turn. -/
theorem xtSchedule_turns (hlist : Linked 0 s.list.next s.threads xs 0)
    (hit : s.currentThreadIterator ∈ xs) :
    (s.Words → s.Ticking xs → ∀ fuel, xs.length < fuel →
      ∃ s', xtSchedule fuel s = some s' ∧ Scheduled xs s s') ∧
    ∀ l s', Switches xs s l s' → l.length = (xs.filter s.ready).length →
      l.Perm ((xs.filter s.ready).map s.list.data) := by
  refine ⟨fun hwords hticking fuel hfuel => xtSchedule_spec hlist hit hwords hticking hfuel,
    fun l s' h hlen => ?_⟩
  by_cases hsome : xs.filter s.ready = []
  · rw [hsome, List.length_nil, List.length_eq_zero_iff] at hlen
    rw [hlen, hsome, List.map_nil]
  · obtain ⟨ns, z, rfl, hturns⟩ := h.turns hlist hit hsome
    rw [List.length_map] at hlen
    exact (hturns.perm hlist.nodup hit hlen).map _

/-- Three nodes; the threads of the first and the last one are to run, with one tick left. -/
def twoReady (iterator current : ℕ) : State where
  list := ⟨fun i => if i = 1 then ⟨10, 2⟩ else if i = 2 then ⟨20, 3⟩ else ⟨30, 0⟩, fun _ => true⟩
  threads := 1
  currentThreadIterator := iterator
  thread t := ⟨0, t, if t = 20 then xtThreadTerminatedState else xtThreadRunState,
    20, 1, 0, 0, []⟩
  currentThread := current
  idleThread := 40

section

variable (n t : ℕ)

theorem twoReady_linked :
    Linked 0 (twoReady n t).list.next (twoReady n t).threads [1, 2, 3] 0 :=
  ⟨rfl, by decide, rfl, by decide, rfl, by decide, rfl⟩

theorem twoReady_words : (twoReady n t).Words := fun _ =>
  ⟨by norm_num [twoReady], by norm_num [twoReady]⟩

theorem twoReady_ticking : (twoReady n t).Ticking [1, 2, 3] :=
  (twoReady n t).ticking (by simp [twoReady]) (fun _ => by simp [twoReady]) _

theorem twoReady_fixed (hs : Scheduled [1, 2, 3] (twoReady n t) s') :
    Fixed [1, 2, 3] (twoReady n t) s' := by
  refine ⟨?_, fun i _ => by rw [hs.list], fun i hi => ?_⟩
  · rw [hs.list, hs.threads]
    exact twoReady_linked n t
  · rw [hs.state]
    obtain rfl | rfl | rfl : i = 1 ∨ i = 2 ∨ i = 3 := by simpa using hi
    · rfl
    · rfl
    · rfl

end

/-- Thread 30 gets its turn and uses up its ticks, and thread 10 gets the next one. -/
theorem xtSchedule_turns_twoReady : ∃ s s', xtSchedule 4 (twoReady 1 10) = some s ∧
    Scheduled [1, 2, 3] (twoReady 1 10) s ∧ s.currentThread = 30 ∧
    xtSchedule 4 (twoReady 3 30) = some s' ∧
    [s.currentThread, s'.currentThread].Perm [10, 30] := by
  have hturns := xtSchedule_turns (twoReady_linked 1 10) List.mem_cons_self
  obtain ⟨s, hcall, hs⟩ := hturns.1 (twoReady_words 1 10) (twoReady_ticking 1 10) 4 (by decide)
  have hexp : (twoReady 1 10).Expired [1, 2, 3] := fun h => absurd h.2 (by decide +kernel)
  have htakes := (hs.takes hexp).1
  rw [show (State.aged (twoReady 1 10) [1, 2, 3]).chosen [1, 2, 3] = (3, 30) by rfl,
    Prod.mk.injEq] at htakes
  obtain ⟨hiterator, hthread⟩ := htakes
  have hmem : (twoReady 3 30).currentThreadIterator ∈ [1, 2, 3] := by decide
  obtain ⟨s', hcall', hs'⟩ := xtSchedule_spec (twoReady_linked 3 30) hmem (twoReady_words 3 30)
    (twoReady_ticking 3 30) (show [1, 2, 3].length < 4 by decide)
  have hexp' : (twoReady 3 30).Expired [1, 2, 3] := fun h => absurd h.2 (by decide +kernel)
  have hfixed := twoReady_fixed 1 10 hs
  have hticks : Fixed [1, 2, 3] s (twoReady 3 30) := by
    refine ⟨twoReady_linked 3 30, fun i _ => by rw [hs.list]; rfl, fun i hi => ?_⟩
    rw [hs.list, hfixed.state i hi]
    rfl
  have hrun : Switches [1, 2, 3] (twoReady 1 10) [s.currentThread, s'.currentThread] s' :=
    .switch (by decide) (twoReady_words 1 10) (twoReady_ticking 1 10) hexp hcall hfixed
      (.other hticks hiterator.symm (.switch (by decide) (twoReady_words 3 30)
        (twoReady_ticking 3 30) hexp' hcall' (twoReady_fixed 3 30 hs') (.nil s')))
  have hready : [1, 2, 3].filter (twoReady 1 10).ready = [1, 3] := by decide +kernel
  have hround := hturns.2 _ _ hrun (by rw [hready]; rfl)
  rw [hready] at hround
  exact ⟨s, s', hcall, hs, hthread, hcall', hround⟩

end XTOS.Scheduler

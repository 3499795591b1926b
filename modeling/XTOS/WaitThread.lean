import XTOS.Lib.Run
import XTOS.LinkedList
import XTOS.Sleep

/-!
# Waiting for a thread

`xtWaitForThread`, `xtTerminateThread` and the recycling of records by `xtCreateThread` from
`xtkernel/process.c`, called by any number of threads. A section under the lock of a record is
one step, and so is every access outside of such a section.

## Main definitions

- `State` — the thread records with their wait lists, and where each thread is
- `Step` — one step of a thread
- `State.code`, `State.log` — the history: the codes of terminated threads, the results returned
- `Calm` — the steps that meet no waiter in a bad moment

## Main results

- `waiters_woken` — in runs of calm steps no waiter of a terminated thread sleeps, and waits
  return the code of the termination

## Design notes

The records are told apart from the threads that use them one after another by an incarnation
count. A thread that waits for itself, or gets no list node, leaves the lock of the record
busy. The list nodes of `xtCreateThread` come from the same heap as those of the waiters. The timer
would end a wait after 2^64 - 1 ticks; it is left out.
-/

namespace XTOS.WaitThread

open SysLib XTOS.LinkedList
open XTOS.Process (xtThreadSleepState xtThreadRunState xtThreadTerminatedState endState_and)

/-- The fields of `XTThread` that waiting uses. -/
structure XTThread where
  result : ℕ
  state : ℕ
  ticks : ℕ
  waitThreads : ℕ
  locked : Bool
  deriving DecidableEq, Repr

/-- `(state & 0x7f) == XT_THREAD_TERMINATED_STATE`. -/
def XTThread.terminated (th : XTThread) : Bool := th.state &&& 0x7f == xtThreadTerminatedState

/-- `(state & 0xf) == XT_THREAD_RUN_STATE`. -/
def XTThread.runs (th : XTThread) : Bool := th.state &&& 0xf == xtThreadRunState

/-- The update of `xtSleepThread(thread, UINT64_MAX)`. -/
def xtSleepThread (th : XTThread) : XTThread :=
  { th with state := xtThreadSleepState, ticks := 2 ^ 64 - 1 }

/-- The update of a waiter in `xtTerminateThread`. -/
def XTThread.woken (th : XTThread) : XTThread :=
  { th with state := (th.state &&& 0x80) ||| xtThreadRunState }

/-- The first update of `xtTerminateThread`. -/
def XTThread.stopped (th : XTThread) (code : ℕ) : XTThread :=
  { th with result := code, state := (th.state &&& 0x80) ||| xtThreadTerminatedState }

/-- The places in `xtWaitForThread`: behind the registration, switched away by
    `xtSleepThread`, back from it, behind the read of the result, behind
    `xtRemoveFromList`. -/
inductive Phase where
  | gap
  | asleep
  | resumed
  | read
  | removed
  deriving DecidableEq, Repr

/-- Where a thread is: outside of `xtWaitForThread`, in it with the thread it waits for, its
    node and the incarnation of that thread, or spinning for the lock it holds. -/
inductive Place where
  | outside
  | inside (ph : Phase) (t node i : ℕ)
  | stuck
  deriving DecidableEq, Repr

/-- A result that `xtWaitForThread` returned. -/
structure Result where
  waiter : ℕ
  thread : ℕ
  incarnation : ℕ
  value : ℕ
  deriving DecidableEq, Repr

/-- The records, the list nodes, the heads of `threads` (for `none`) and of the list of each
    process, the places of the threads, and the history: the nodes that creations linked, the
    incarnation of each record, the nodes registered with it, the codes given to each incarnation
    and the results returned. -/
structure State where
  thread : ℕ → XTThread
  created : ℕ → Bool
  nodes : NodeHeap
  heads : Option ℕ → ℕ
  place : ℕ → Place
  linked : List ℕ
  incarnation : ℕ → ℕ
  region : ℕ → List ℕ
  code : ℕ → ℕ → Option ℕ
  log : List Result

/-- Change one record. -/
def State.modify (s : State) (t : ℕ) (f : XTThread → XTThread) : State :=
  { s with thread := Function.update s.thread t (f (s.thread t)) }

/-- Change the place of a thread. -/
def State.goTo (s : State) (w : ℕ) (p : Place) : State :=
  { s with place := Function.update s.place w p }

/-- Thread `w` is in `xtWaitForThread(t)` with a node. -/
def State.Waits (s : State) (w t n i : ℕ) : Prop := ∃ ph, s.place w = .inside ph t n i

/-- A thread is in `xtWaitForThread(t)`. -/
def State.Inside (s : State) (t : ℕ) : Prop := ∃ w n i, s.Waits w t n i

/-- The incarnation of a record that runs now has not been terminated. -/
def State.Live (s : State) (t : ℕ) : Prop := s.code t (s.incarnation t) = none

/-- The registration of `xtWaitForThread` with a new node. -/
def register (fuel : ℕ) (s : State) (w t node : ℕ) : Option State :=
  let H := xtCreateList s.nodes w node
  let l := (s.thread t).waitThreads
  (if l = 0 then some ({ s.modify t fun th => { th with waitThreads := node } with nodes := H } : State)
    else (xtAppendList fuel H l node).map fun H => { s with nodes := H }).map fun s =>
      { s.goTo w (.inside .gap t node (s.incarnation t)) with
        region := Function.update s.region t (s.region t ++ [node]) }

/-- The loop of `xtTerminateThread` over the wait list. -/
def wakeWaiters (H : NodeHeap) : ℕ → (ℕ → XTThread) → ℕ → Option (ℕ → XTThread)
  | 0, _, _ => none
  | fuel + 1, m, l =>
    if l = 0 then some m
    else
      let w := H.data l
      wakeWaiters H fuel (Function.update m w (m w).woken) (H.next l)

/-- The locked part of `xtTerminateThread`. -/
def terminate (fuel : ℕ) (s : State) (t code : ℕ) : Option State :=
  let s := s.modify t fun th => th.stopped code
  (wakeWaiters s.nodes fuel s.thread (s.thread t).waitThreads).map fun m =>
    { s with
      thread := m
      code := Function.update s.code t
        (Function.update (s.code t) (s.incarnation t) (some code)) }

/-- A new node for a record, at the end of `threads` or of the list of a process. -/
def State.link (fuel : ℕ) (s : State) (l : Option ℕ) (t node : ℕ) : Option State :=
  let H := xtCreateList s.nodes t node
  let s := { s with linked := s.linked ++ [node] }
  if s.heads l = 0 then some { s with nodes := H, heads := Function.update s.heads l node }
  else (xtAppendList fuel H (s.heads l) node).map fun H => { s with nodes := H }

/-- The fields that `xtCreateThread` sets in a recycled or new record. -/
def recycle (s : State) (t state : ℕ) : State :=
  { (s.modify t fun _ => ⟨0, state, 20, 0, false⟩).goTo t .outside with
    created := Function.update s.created t true
    incarnation := Function.update s.incarnation t (s.incarnation t + 1)
    region := Function.update s.region t [] }

/-- `xtCreateThread`: a new record comes into `threads`, and every record into the list of the
    process. Without memory for the second node the thread is in `threads` only. -/
def create (fuel : ℕ) (s : State) (t state process listNode node : ℕ) : Option State :=
  (if s.created t then some s else s.link fuel none t listNode).bind fun s =>
    if node = 0 then some (recycle s t state)
    else (recycle s t state).link fuel (some process) t node

/-- A step of a thread. -/
inductive Action where
  | wait (w t node : ℕ)
  | sleep (w : ℕ)
  | resume (w : ℕ)
  | read (w : ℕ)
  | remove (w : ℕ)
  | destroy (w : ℕ)
  | terminate (t code : ℕ)
  | create (t state process listNode node : ℕ)
  deriving DecidableEq, Repr

/-- One step. -/
inductive Step (s : State) : Action → State → Prop
  /-- `xtWaitForThread` of a thread that is already terminated. -/
  | ended {w t node : ℕ} (hw : (s.thread w).runs) (hp : s.place w = .outside)
      (ht : s.created t = true) (hlock : (s.thread t).locked = false)
      (hend : (s.thread t).terminated) :
      Step s (.wait w t node)
        { s with log := ⟨w, t, s.incarnation t, (s.thread t).result⟩ :: s.log }
  /-- `xtCreateList` finds no memory, and the lock stays busy. -/
  | noMemory {w t : ℕ} (hw : (s.thread w).runs) (hp : s.place w = .outside)
      (ht : s.created t = true) (hlock : (s.thread t).locked = false)
      (hend : (s.thread t).terminated = false) :
      Step s (.wait w t 0) (s.modify t fun th => { th with locked := true })
  /-- The thread waits for itself, and spins for its own lock. -/
  | self {w node : ℕ} (hw : (s.thread w).runs) (hp : s.place w = .outside)
      (ht : s.created w = true) (hlock : (s.thread w).locked = false)
      (hend : (s.thread w).terminated = false) :
      Step s (.wait w w node) ((s.modify w fun th => { th with locked := true }).goTo w .stuck)
  /-- The registration. -/
  | wait {fuel w t node : ℕ} {s' : State} (hw : (s.thread w).runs) (hp : s.place w = .outside)
      (hcw : s.created w = true) (ht : s.created t = true) (hne : w ≠ t)
      (hlock : (s.thread t).locked = false) (hend : (s.thread t).terminated = false)
      (hnode : node ≠ 0) (hnew : s.nodes.used node = false)
      (h : register fuel s w t node = some s') : Step s (.wait w t node) s'
  /-- The update of `xtSleepThread`. -/
  | sleep {w t node i : ℕ} (hp : s.place w = .inside .gap t node i) (hw : (s.thread w).runs)
      (hlock : (s.thread w).locked = false) :
      Step s (.sleep w) ((s.modify w xtSleepThread).goTo w (.inside .asleep t node i))
  /-- The scheduler takes a thread that sleeps no more. -/
  | resume {w t node i : ℕ} (hp : s.place w = .inside .asleep t node i)
      (hw : (s.thread w).runs) : Step s (.resume w) (s.goTo w (.inside .resumed t node i))
  /-- `*result = thread->result`. -/
  | read {w t node i : ℕ} (hp : s.place w = .inside .resumed t node i) (hw : (s.thread w).runs) :
      Step s (.read w) { s.goTo w (.inside .read t node i) with
        log := ⟨w, t, i, (s.thread t).result⟩ :: s.log }
  /-- `xtRemoveFromList(thread->waitThreads, currentList)`. -/
  | remove {fuel w t node i : ℕ} {r : NodeHeap × XTResult}
      (hp : s.place w = .inside .read t node i) (hw : (s.thread w).runs)
      (h : xtRemoveFromList fuel s.nodes (s.thread t).waitThreads node = some r) :
      Step s (.remove w) { s.goTo w (.inside .removed t node i) with nodes := r.1 }
  /-- `xtDestroyList(currentList)`, and the return. -/
  | destroy {w t node i : ℕ} (hp : s.place w = .inside .removed t node i)
      (hw : (s.thread w).runs) :
      Step s (.destroy w) { s.goTo w .outside with nodes := xtDestroyList s.nodes node }
  /-- The locked part of `xtTerminateThread`. -/
  | terminate {fuel t code : ℕ} {s' : State} (ht : s.created t = true)
      (hlock : (s.thread t).locked = false) (h : terminate fuel s t code = some s') :
      Step s (.terminate t code) s'
  /-- `xtCreateThread` takes a terminated record, or a new one with its node. -/
  | create {fuel t state process listNode node : ℕ} {s' : State}
      (ht : s.created t = false ∧ listNode ≠ 0 ∧ s.nodes.used listNode = false ∨
        s.created t = true ∧ (s.thread t).state = xtThreadTerminatedState)
      (hnode : node ≠ 0 → s.nodes.used node = false ∧ (s.created t = false → node ≠ listNode))
      (h : create fuel s t state process listNode node = some s') :
      Step s (.create t state process listNode node) s'

/-- The lists that creations linked: their nodes are in use, the lists lead to no others, and none
    of the nodes is registered with a thread that has waiters. -/
structure Creations (s : State) : Prop where
  closed : ∀ l, Closed s.nodes.next (s.heads l) s.linked
  used : ∀ n ∈ s.linked, s.nodes.used n = true
  apart : ∀ t, s.Inside t → List.Disjoint (s.region t) s.linked

/-- Records without waiters, none of them terminated, the lists of them in order, and no thread in
    a wait. -/
structure State.Initial (s : State) : Prop where
  thread : ∀ t, s.created t = true → (s.thread t).terminated = false ∧ (s.thread t).waitThreads = 0
  place : ∀ w, s.place w = .outside
  region : ∀ t, s.region t = []
  code : ∀ t i, s.code t i = none
  log : s.log = []
  creations : Creations s

/-- A step that meets no waiter in a bad moment: a thread is terminated once, while none of its
    waiters is about to go to sleep and while it does not wait itself; its record is recycled,
    with a state that is not the terminated one, when all its waiters have returned; and neither a
    wait nor a creation gets a list node that was registered with a thread for which a waiter has
    not returned. -/
def State.Calm (s : State) : Action → Prop
  | .terminate t _ =>
    (s.thread t).terminated = false ∧ (∀ w n i, s.place w ≠ .inside .gap t n i) ∧
      ∀ ph u n i, s.place t = .inside ph u n i → ¬ s.Live u
  | .create t state _ listNode node =>
    ¬ s.Inside t ∧ state &&& 0x7f ≠ xtThreadTerminatedState ∧
      ∀ u, s.Inside u → (s.created t = false → listNode ∉ s.region u) ∧ node ∉ s.region u
  | .wait _ _ node => ∀ u, s.Inside u → node ∉ s.region u
  | _ => True

/-! ### States of a record -/

theorem wakeState_and (x : ℕ) : ((x &&& 0x80) ||| xtThreadRunState) &&& 0x7f = 1 := by
  have hbits : (0x80 &&& 0x7f : ℕ) = 0 := by decide
  rw [Nat.and_or_distrib_right, Nat.and_assoc, hbits, Nat.and_zero, Nat.zero_or]
  rfl

theorem wakeState_wake (x : ℕ) :
    ((((x &&& 0x80) ||| xtThreadRunState) &&& 0x80) ||| xtThreadRunState) =
      (x &&& 0x80) ||| xtThreadRunState := by
  have hbits : xtThreadRunState &&& 0x80 = 0 := by decide
  rw [Nat.and_or_distrib_right, Nat.and_assoc, Nat.and_self, hbits, Nat.or_zero]

theorem XTThread.runs_not_terminated {th : XTThread} (h : th.runs) : th.terminated = false := by
  rw [XTThread.runs, beq_iff_eq] at h
  rw [XTThread.terminated, beq_eq_false_iff_ne]
  intro hend
  have hlow : th.state &&& 0x7f &&& 0xf = th.state &&& 0xf := Nat.and_assoc _ _ _
  rw [hend, h] at hlow
  cases hlow

theorem XTThread.sleep_not_terminated {th : XTThread} (h : th.state = xtThreadSleepState) :
    th.terminated = false := by
  rw [XTThread.terminated, h]
  rfl

/-! ### The invariant -/

variable {s s' : State}

/-- The wait lists. The list of a live thread has the nodes registered with it, and each is the
    node of a waiter. Of the list of a terminated one only this is left, that it does not lead
    to nodes of another list. -/
structure Lists (s : State) : Prop where
  waiter : ∀ w t n i, s.Waits w t n i →
    s.created w = true ∧ s.created t = true ∧ i = s.incarnation t ∧ n ∈ s.region t
  data : ∀ w t n i, s.Waits w t n i → s.Live t → s.nodes.data n = w
  chain : ∀ t, s.created t = true → s.Live t →
    Linked 0 s.nodes.next (s.thread t).waitThreads (s.region t) 0
  node : ∀ t, s.created t = true → s.Live t → ∀ n ∈ s.region t,
    s.nodes.used n = true ∧ ∃ w i, s.Waits w t n i
  closed : ∀ t, s.Inside t → ¬ s.Live t →
    Closed s.nodes.next (s.thread t).waitThreads (s.region t)
  disjoint : ∀ t u, t ≠ u → s.Inside t → s.Inside u → List.Disjoint (s.region t) (s.region u)

/-- The thread can be taken by the scheduler, unless it has been terminated itself. -/
def XTThread.Awake (th : XTThread) : Prop := th.runs = true ∨ th.terminated = true

/-- The states of the waiters: asleep or about to sleep before the thread they wait for is
    terminated, and awake after that. -/
structure Waiters (s : State) : Prop where
  live : ∀ w ph t n i, s.place w = .inside ph t n i → s.Live t →
    ph = .gap ∧ (s.thread w).runs ∨ ph = .asleep ∧ (s.thread w).state = xtThreadSleepState
  ended : ∀ w ph t n i, s.place w = .inside ph t n i → ¬ s.Live t →
    ph ≠ .gap ∧ (s.thread w).Awake

/-- The records agree with the history. -/
structure Records (s : State) : Prop where
  ended : ∀ t, s.created t = true → ((s.thread t).terminated = true ↔ ¬ s.Live t)
  result : ∀ t c, s.code t (s.incarnation t) = some c → (s.thread t).result = c
  fresh : ∀ t i, s.incarnation t < i → s.code t i = none
  log : ∀ r ∈ s.log, s.code r.thread r.incarnation = some r.value

/-- The invariant of runs of calm steps. -/
structure Invariant (s : State) : Prop where
  lists : Lists s
  waiters : Waiters s
  records : Records s
  creations : Creations s

theorem State.Initial.invariant (h : s.Initial) : Invariant s := by
  have hnone : ∀ w t n i, ¬ s.Waits w t n i := by
    rintro w t n i ⟨ph, hp⟩
    rw [h.place w] at hp
    cases hp
  have hlive : ∀ t, s.Live t := fun t => h.code t _
  refine ⟨⟨?_, ?_, ?_, ?_, ?_, ?_⟩, ⟨?_, ?_⟩, ⟨?_, ?_, ?_, ?_⟩, h.creations⟩
  · exact fun w t n i hw => absurd hw (hnone w t n i)
  · exact fun w t n i hw => absurd hw (hnone w t n i)
  · intro t ht _
    rw [h.region t, (h.thread t ht).2]
    rfl
  · intro t _ _ n hn
    rw [h.region t] at hn
    cases hn
  · rintro t ⟨w, n, i, hw⟩
    exact absurd hw (hnone w t n i)
  · rintro t u _ ⟨w, n, i, hw⟩
    exact absurd hw (hnone w t n i)
  · exact fun w ph t n i hp => absurd ⟨ph, hp⟩ (hnone w t n i)
  · exact fun w ph t n i hp => absurd ⟨ph, hp⟩ (hnone w t n i)
  · intro t ht
    rw [(h.thread t ht).1]
    exact iff_of_false Bool.false_ne_true (not_not_intro (hlive t))
  · intro t c hc
    rw [h.code] at hc
    cases hc
  · exact fun t i _ => h.code t i
  · rw [h.log]
    simp

/-- The place in a wait changes, but not who waits for whom. -/
theorem waits_goTo {w t n i : ℕ} {ph : Phase} (hp : s.place w = .inside ph t n i) (ph' : Phase) :
    (s.goTo w (.inside ph' t n i)).Waits = s.Waits := by
  funext v u m j
  by_cases hv : v = w
  · subst hv
    simp [State.Waits, State.goTo, hp]
  · simp [State.Waits, State.goTo, hv]

/-- Who is live only depends on the history. -/
theorem live_congr (hinc : s'.incarnation = s.incarnation) (hcode : s'.code = s.code) :
    s'.Live = s.Live := by
  funext t
  rw [State.Live, State.Live, hcode, hinc]

/-- The wait lists only depend on some of the fields. -/
theorem Lists.congr (h : Lists s) (hcreated : s'.created = s.created) (hnodes : s'.nodes = s.nodes)
    (hheads : ∀ t, (s'.thread t).waitThreads = (s.thread t).waitThreads)
    (hregion : s'.region = s.region) (hinc : s'.incarnation = s.incarnation)
    (hcode : s'.code = s.code) (hwaits : s'.Waits = s.Waits) : Lists s' := by
  have hlive : s'.Live = s.Live := live_congr hinc hcode
  have hinside : s'.Inside = s.Inside := by
    funext t
    rw [State.Inside, State.Inside, hwaits]
  refine ⟨?_, ?_, ?_, ?_, ?_, ?_⟩
  · rw [hcreated, hwaits, hinc, hregion]
    exact h.waiter
  · rw [hwaits, hlive, hnodes]
    exact h.data
  · rw [hcreated, hlive, hnodes, hregion]
    intro t ht hl
    rw [hheads]
    exact h.chain t ht hl
  · rw [hcreated, hlive, hnodes, hregion, hwaits]
    exact h.node
  · rw [hinside, hlive, hnodes, hregion]
    intro t ht hl
    rw [hheads]
    exact h.closed t ht hl
  · rw [hinside, hregion]
    exact h.disjoint

/-- The records only depend on these fields. -/
theorem Records.congr (h : Records s) (hcreated : s'.created = s.created)
    (hended : ∀ t, (s'.thread t).terminated = (s.thread t).terminated)
    (hresult : ∀ t, (s'.thread t).result = (s.thread t).result)
    (hinc : s'.incarnation = s.incarnation) (hcode : s'.code = s.code)
    (hlog : ∀ r ∈ s'.log, s.code r.thread r.incarnation = some r.value) : Records s' := by
  have hlive : s'.Live = s.Live := live_congr hinc hcode
  refine ⟨?_, ?_, ?_, ?_⟩
  · rw [hcreated, hlive]
    intro t ht
    rw [hended]
    exact h.ended t ht
  · rw [hcode, hinc]
    intro t c hc
    rw [hresult]
    exact h.result t c hc
  · rw [hinc, hcode]
    exact h.fresh
  · rw [hcode]
    exact hlog

/-- The lists of creations only depend on these fields. -/
theorem Creations.congr (h : Creations s) (hnodes : s'.nodes = s.nodes) (hheads : s'.heads = s.heads)
    (hlinked : s'.linked = s.linked) (hregion : s'.region = s.region)
    (hwaits : ∀ w t n i, s'.Waits w t n i → s.Waits w t n i) : Creations s' := by
  refine ⟨?_, ?_, fun t ht => ?_⟩
  · rw [hnodes, hheads, hlinked]
    exact h.closed
  · rw [hnodes, hlinked]
    exact h.used
  · obtain ⟨w, n, i, hw⟩ := ht
    rw [hregion, hlinked]
    exact h.apart t ⟨w, n, i, hwaits w t n i hw⟩

theorem place_goTo {w v : ℕ} {p q : Place} (h : (s.goTo w p).place v = q) :
    v = w ∧ p = q ∨ v ≠ w ∧ s.place v = q := by
  rw [State.goTo] at h
  exact update_cases (P := (· = q)) h

/-- A waiter of a terminated thread goes on. -/
theorem Waiters.goOn (h : Waiters s) {w t n i : ℕ} {ph ph' : Phase}
    (hp : s.place w = .inside ph t n i) (hend : ¬ s.Live t) (hph : ph' ≠ .gap) :
    Waiters (s.goTo w (.inside ph' t n i)) := by
  refine ⟨fun v p u m j hv hlive => ?_, fun v p u m j hv hdead => ?_⟩
  · obtain ⟨rfl, heq⟩ | ⟨-, hold⟩ := place_goTo hv
    · cases heq
      exact absurd hlive hend
    · exact h.live v p u m j hold hlive
  · obtain ⟨rfl, heq⟩ | ⟨-, hold⟩ := place_goTo hv
    · cases heq
      exact ⟨hph, (h.ended v ph t n i hp hend).2⟩
    · exact h.ended v p u m j hold hdead

/-- Only waiters of terminated threads are past their sleep. -/
theorem Waiters.not_live (h : Waiters s) {w t n i : ℕ} {ph : Phase}
    (hp : s.place w = .inside ph t n i) (hw : (s.thread w).runs) (hph : ph ≠ .gap) :
    ¬ s.Live t := by
  intro hlive
  obtain ⟨rfl, -⟩ | ⟨-, hsleep⟩ := h.live w ph t n i hp hlive
  · exact hph rfl
  · rw [XTThread.runs, hsleep] at hw
    cases hw

theorem Waiters.congr (h : Waiters s)
    (hplace : ∀ w ph t n i, s'.place w = .inside ph t n i → s.place w = .inside ph t n i)
    (hstate : ∀ w, (s'.thread w).state = (s.thread w).state)
    (hinc : s'.incarnation = s.incarnation) (hcode : s'.code = s.code) : Waiters s' := by
  have hlive : s'.Live = s.Live := live_congr hinc hcode
  refine ⟨?_, ?_⟩
  · rw [hlive]
    intro w ph t n i hp ht
    rw [XTThread.runs, hstate]
    exact h.live w ph t n i (hplace w ph t n i hp) ht
  · rw [hlive]
    intro w ph t n i hp ht
    rw [XTThread.Awake, XTThread.runs, XTThread.terminated, hstate]
    exact h.ended w ph t n i (hplace w ph t n i hp) ht

/-- A change of a record that keeps what `g` reads. -/
theorem modify_same {γ : Type*} (g : XTThread → γ) {t : ℕ} {f : XTThread → XTThread}
    (hf : g (f (s.thread t)) = g (s.thread t)) (u : ℕ) :
    g ((s.modify t f).thread u) = g (s.thread u) := by
  rw [State.modify]
  dsimp only
  by_cases hu : u = t
  · subst hu
    rw [Function.update_self, hf]
  · rw [Function.update_of_ne hu]

theorem waits_goTo_outside {w : ℕ} {p : Place} (hp : ∀ ph t n i, s.place w ≠ .inside ph t n i)
    (hp' : ∀ ph t n i, p ≠ .inside ph t n i) : (s.goTo w p).Waits = s.Waits := by
  funext v u m j
  by_cases hv : v = w
  · subst hv
    simp [State.Waits, State.goTo, hp, hp']
  · simp [State.Waits, State.goTo, hv]

/-- A record that is not live has the code of its termination. -/
theorem Records.code_eq (h : Records s) {t : ℕ} (ht : ¬ s.Live t) :
    s.code t (s.incarnation t) = some (s.thread t).result := by
  cases hc : s.code t (s.incarnation t) with
  | none => exact absurd hc ht
  | some c => rw [h.result t c hc]

/-! ### The steps of a waiter -/

theorem ended_invariant (h : Invariant s) {w t : ℕ} (ht : s.created t = true)
    (hend : (s.thread t).terminated = true) :
    Invariant { s with log := ⟨w, t, s.incarnation t, (s.thread t).result⟩ :: s.log } := by
  refine ⟨h.lists.congr rfl rfl (fun _ => rfl) rfl rfl rfl rfl,
    h.waiters.congr (fun _ _ _ _ _ hp => hp) (fun _ => rfl) rfl rfl,
    h.records.congr rfl (fun _ => rfl) (fun _ => rfl) rfl rfl ?_,
    h.creations.congr rfl rfl rfl rfl fun _ _ _ _ hv => hv⟩
  refine List.forall_mem_cons.mpr ⟨?_, h.records.log⟩
  exact h.records.code_eq ((h.records.ended t ht).mp hend)

theorem locked_invariant (h : Invariant s) (t : ℕ) :
    Invariant (s.modify t fun th => { th with locked := true }) :=
  ⟨h.lists.congr rfl rfl (modify_same XTThread.waitThreads rfl) rfl rfl rfl rfl,
    h.waiters.congr (fun _ _ _ _ _ hp => hp) (modify_same XTThread.state rfl) rfl rfl,
    h.records.congr rfl (modify_same XTThread.terminated rfl) (modify_same XTThread.result rfl)
      rfl rfl h.records.log, h.creations.congr rfl rfl rfl rfl fun _ _ _ _ hv => hv⟩

theorem stuck_invariant (h : Invariant s) {w : ℕ} (hp : s.place w = .outside) :
    Invariant (s.goTo w .stuck) := by
  have hwaits : (s.goTo w .stuck).Waits = s.Waits :=
    waits_goTo_outside (fun ph t n i heq => by rw [hp] at heq; cases heq) nofun
  refine ⟨h.lists.congr rfl rfl (fun _ => rfl) rfl rfl rfl hwaits,
    h.waiters.congr (fun v ph t n i hv => ?_) (fun _ => rfl) rfl rfl,
    h.records.congr rfl (fun _ => rfl) (fun _ => rfl) rfl rfl h.records.log,
    h.creations.congr rfl rfl rfl rfl fun _ _ _ _ hv => hwaits ▸ hv⟩
  obtain ⟨rfl, heq⟩ | ⟨-, hold⟩ := place_goTo hv
  · cases heq
  · exact hold

theorem sleep_invariant (h : Invariant s) {w t n i : ℕ} (hp : s.place w = .inside .gap t n i)
    (hw : (s.thread w).runs) :
    Invariant ((s.modify w xtSleepThread).goTo w (.inside .asleep t n i)) := by
  have hlive : s.Live t := by
    by_contra hend
    exact (h.waiters.ended w .gap t n i hp hend).1 rfl
  have hself : (s.modify w xtSleepThread).thread w = xtSleepThread (s.thread w) :=
    Function.update_self _ _ _
  have hother : ∀ v, v ≠ w → (s.modify w xtSleepThread).thread v = s.thread v :=
    fun v hv => Function.update_of_ne hv _ _
  have hend : (xtSleepThread (s.thread w)).terminated = (s.thread w).terminated := by
    rw [XTThread.runs_not_terminated hw]
    exact XTThread.sleep_not_terminated rfl
  have hp' : (s.modify w xtSleepThread).place w = .inside .gap t n i := hp
  have hheads : ∀ v, ((s.modify w xtSleepThread).thread v).waitThreads =
      (s.thread v).waitThreads := modify_same XTThread.waitThreads rfl
  have hends : ∀ v, ((s.modify w xtSleepThread).thread v).terminated =
      (s.thread v).terminated := modify_same XTThread.terminated hend
  have hresults : ∀ v, ((s.modify w xtSleepThread).thread v).result = (s.thread v).result :=
    modify_same XTThread.result rfl
  have hwaits := waits_goTo hp' .asleep
  refine ⟨h.lists.congr rfl rfl hheads rfl rfl rfl hwaits, ⟨?_, ?_⟩,
    h.records.congr rfl hends hresults rfl rfl h.records.log,
    h.creations.congr rfl rfl rfl rfl fun _ _ _ _ hv => hwaits ▸ hv⟩
  · intro v p u m j hv hu
    obtain ⟨rfl, heq⟩ | ⟨hne, hold⟩ := place_goTo hv
    · cases heq
      exact .inr ⟨rfl, congrArg XTThread.state hself⟩
    · have hlast := h.waiters.live v p u m j hold hu
      rwa [← hother v hne] at hlast
  · intro v p u m j hv hu
    obtain ⟨rfl, heq⟩ | ⟨hne, hold⟩ := place_goTo hv
    · cases heq
      exact absurd hlive hu
    · have hlast := h.waiters.ended v p u m j hold hu
      rwa [← hother v hne] at hlast

theorem goOn_invariant (h : Invariant s) {w t n i : ℕ} {ph ph' : Phase}
    (hp : s.place w = .inside ph t n i) (hend : ¬ s.Live t) (hph : ph' ≠ .gap) :
    Invariant (s.goTo w (.inside ph' t n i)) :=
  ⟨h.lists.congr rfl rfl (fun _ => rfl) rfl rfl rfl (waits_goTo hp ph'),
    h.waiters.goOn hp hend hph,
    h.records.congr rfl (fun _ => rfl) (fun _ => rfl) rfl rfl h.records.log,
    h.creations.congr rfl rfl rfl rfl fun _ _ _ _ hv => waits_goTo hp ph' ▸ hv⟩

theorem read_invariant (h : Invariant s) {w t n i : ℕ} (hp : s.place w = .inside .resumed t n i)
    (hw : (s.thread w).runs) :
    Invariant { s.goTo w (.inside .read t n i) with
      log := ⟨w, t, i, (s.thread t).result⟩ :: s.log } := by
  have hend := h.waiters.not_live hp hw nofun
  have hnext : Invariant (s.goTo w (.inside .read t n i)) := goOn_invariant h hp hend nofun
  refine ⟨hnext.lists.congr rfl rfl (fun _ => rfl) rfl rfl rfl rfl,
    hnext.waiters.congr (fun _ _ _ _ _ hv => hv) (fun _ => rfl) rfl rfl,
    hnext.records.congr rfl (fun _ => rfl) (fun _ => rfl) rfl rfl ?_,
    hnext.creations.congr rfl rfl rfl rfl fun _ _ _ _ hv => hv⟩
  refine List.forall_mem_cons.mpr ⟨?_, h.records.log⟩
  obtain ⟨-, -, rfl, -⟩ := h.lists.waiter w t n i ⟨_, hp⟩
  exact h.records.code_eq hend

/-- Nodes of other lists stay as they are. -/
theorem Lists.disjoint_live (h : Lists s) {t u : ℕ} (hne : t ≠ u) (ht : s.Inside t)
    (hu : s.created u = true) (hlive : s.Live u) : List.Disjoint (s.region t) (s.region u) := by
  intro n hnt hnu
  obtain ⟨-, w, i, hw⟩ := h.node u hu hlive n hnu
  exact h.disjoint t u hne ht ⟨w, n, i, hw⟩ hnt hnu

/-- The wait lists after a change of the nodes of a terminated thread with waiters. -/
theorem Lists.damage (h : Lists s) {t : ℕ} {H : NodeHeap} (ht : s.Inside t) (hend : ¬ s.Live t)
    (hnext : ∀ x, x ∉ s.region t → H.next x = s.nodes.next x)
    (hdata : H.data = s.nodes.data) (hused : ∀ x, x ∉ s.region t → H.used x = s.nodes.used x)
    (hclosed : Closed H.next (s.thread t).waitThreads (s.region t)) :
    Lists { s with nodes := H } := by
  refine ⟨h.waiter, ?_, fun u hu hlive => ?_, fun u hu hlive n hn => ?_, fun u hu hdead => ?_,
    h.disjoint⟩
  · rw [hdata]
    exact h.data
  · have hne : t ≠ u := fun heq => hend (heq ▸ hlive)
    have hdis := h.disjoint_live hne ht hu hlive
    exact (h.chain u hu hlive).congr fun x hx => hnext x fun hxt => hdis hxt hx
  · have hne : t ≠ u := fun heq => hend (heq ▸ hlive)
    have hdis := h.disjoint_live hne ht hu hlive
    obtain ⟨hu', hw⟩ := h.node u hu hlive n hn
    exact ⟨(hused n fun hnt => hdis hnt hn).trans hu', hw⟩
  · by_cases hne : t = u
    · exact hne ▸ hclosed
    · have hdis := h.disjoint t u hne ht hu
      obtain ⟨hfirst, hrest⟩ := h.closed u hu hdead
      refine ⟨hfirst, fun n hn => ?_⟩
      dsimp only
      rw [hnext n fun hnt => hdis hnt hn]
      exact hrest n hn

/-- The lists of creations after a change of the nodes of a thread with waiters. -/
theorem Creations.damage (h : Creations s) {t : ℕ} {H : NodeHeap} (ht : s.Inside t)
    (hnext : ∀ x, x ∉ s.region t → H.next x = s.nodes.next x)
    (hused : ∀ x, x ∉ s.region t → H.used x = s.nodes.used x) :
    Creations { s with nodes := H } := by
  have hout : ∀ n ∈ s.linked, n ∉ s.region t := fun n hn hmem => h.apart t ht hmem hn
  refine ⟨fun l => ?_, fun n hn => (hused n (hout n hn)).trans (h.used n hn), h.apart⟩
  obtain ⟨hfirst, hrest⟩ := h.closed l
  refine ⟨hfirst, fun n hn => ?_⟩
  dsimp only
  rw [hnext n (hout n hn)]
  exact hrest n hn

theorem remove_invariant (h : Invariant s) {fuel w t n i : ℕ} {r : NodeHeap × XTResult}
    (hp : s.place w = .inside .read t n i) (hw : (s.thread w).runs)
    (hr : xtRemoveFromList fuel s.nodes (s.thread t).waitThreads n = some r) :
    Invariant { s.goTo w (.inside .removed t n i) with nodes := r.1 } := by
  have hend := h.waiters.not_live hp hw nofun
  have hwait : s.Waits w t n i := ⟨_, hp⟩
  obtain ⟨-, -, -, hn⟩ := h.lists.waiter w t n i hwait
  obtain ⟨hclosed, hnext, hdata, hused⟩ :=
    xtRemoveFromList_closed (h.lists.closed t ⟨w, n, i, hwait⟩ hend) hr
  have hkeeps : ∀ x, x ∉ s.region t → r.1.used x = s.nodes.used x :=
    fun x hx => hused x fun heq => hx (heq ▸ hn)
  have hlists := h.lists.damage ⟨w, n, i, hwait⟩ hend hnext hdata hkeeps hclosed
  have hwaiters : Waiters (s.goTo w (.inside .removed t n i)) := h.waiters.goOn hp hend nofun
  exact ⟨hlists.congr rfl rfl (fun _ => rfl) rfl rfl rfl (waits_goTo hp .removed),
    hwaiters.congr (fun _ _ _ _ _ hv => hv) (fun _ => rfl) rfl rfl,
    h.records.congr rfl (fun _ => rfl) (fun _ => rfl) rfl rfl h.records.log,
    (h.creations.damage ⟨w, n, i, hwait⟩ hnext hkeeps).congr rfl rfl rfl rfl
      fun _ _ _ _ hv => waits_goTo hp .removed ▸ hv⟩

theorem waits_of_outside {w v t n i : ℕ} (h : (s.goTo w .outside).Waits v t n i) :
    s.Waits v t n i := by
  obtain ⟨ph, hv⟩ := h
  obtain ⟨-, heq⟩ | ⟨-, hv⟩ := place_goTo hv
  · cases heq
  · exact ⟨ph, hv⟩

/-- A thread that leaves `xtWaitForThread` of a terminated thread, or is recycled. -/
theorem Lists.leave (h : Lists s) {w : ℕ}
    (hend : ∀ t n i, s.Waits w t n i → ¬ s.Live t) : Lists (s.goTo w .outside) := by
  have hold : ∀ v t n i, (s.goTo w .outside).Waits v t n i → s.Waits v t n i :=
    fun _ _ _ _ => waits_of_outside
  have hinside : ∀ t, (s.goTo w .outside).Inside t → s.Inside t := by
    rintro t ⟨v, n, i, hv⟩
    exact ⟨v, n, i, hold v t n i hv⟩
  refine ⟨fun v t n i hv => h.waiter v t n i (hold v t n i hv),
    fun v t n i hv => h.data v t n i (hold v t n i hv), h.chain, fun t ht hlive n hn => ?_,
    fun t ht => h.closed t (hinside t ht),
    fun t u hne ht hu => h.disjoint t u hne (hinside t ht) (hinside u hu)⟩
  obtain ⟨hused, v, i, hv⟩ := h.node t ht hlive n hn
  have hne : v ≠ w := by
    rintro rfl
    exact hend t n i hv hlive
  obtain ⟨ph, hp⟩ := hv
  exact ⟨hused, v, i, ph, (Function.update_of_ne hne _ _).trans hp⟩

theorem destroy_invariant (h : Invariant s) {w t n i : ℕ}
    (hp : s.place w = .inside .removed t n i) (hw : (s.thread w).runs) :
    Invariant { s.goTo w .outside with nodes := xtDestroyList s.nodes n } := by
  have hend := h.waiters.not_live hp hw nofun
  have hwait : s.Waits w t n i := ⟨_, hp⟩
  obtain ⟨-, -, -, hn⟩ := h.lists.waiter w t n i hwait
  have hclosed := h.lists.closed t ⟨w, n, i, hwait⟩ hend
  have hnext : ∀ x, x ∉ s.region t → (xtDestroyList s.nodes n).next x = s.nodes.next x := by
    intro x _
    rw [xtDestroyList_next]
  have hused : ∀ x, x ∉ s.region t → (xtDestroyList s.nodes n).used x = s.nodes.used x :=
    fun x hx => xtDestroyList_used fun heq => hx (heq ▸ hn)
  have hdestroy : Lists { s with nodes := xtDestroyList s.nodes n } := by
    refine h.lists.damage ⟨w, n, i, hwait⟩ hend hnext (xtDestroyList_data _ _) hused ?_
    rwa [xtDestroyList_next]
  have hleave := hdestroy.leave (w := w) fun t' n' i' hw' => by
    obtain ⟨ph, hp'⟩ := hw'
    have heq := hp.symm.trans hp'
    cases heq
    exact hend
  refine ⟨hleave, h.waiters.congr (fun v ph u m j hv => ?_) (fun _ => rfl) rfl rfl,
    h.records.congr rfl (fun _ => rfl) (fun _ => rfl) rfl rfl h.records.log,
    (h.creations.damage ⟨w, n, i, hwait⟩ hnext hused).congr rfl rfl rfl rfl
      fun _ _ _ _ => waits_of_outside⟩
  obtain ⟨-, heq⟩ | ⟨-, hold⟩ := place_goTo hv
  · cases heq
  · exact hold

/-! ### Termination -/

/-- The loop wakes the threads of all nodes of a list. -/
theorem wakeWaiters_eq {H : NodeHeap} {fuel l : ℕ} {m m' : ℕ → XTThread} {xs : List ℕ}
    (hl : Linked 0 H.next l xs 0) (h : wakeWaiters H fuel m l = some m') (w : ℕ) :
    m' w = if w ∈ xs.map H.data then (m w).woken else m w := by
  induction xs generalizing l m fuel with
  | nil =>
    have hl : l = 0 := hl
    cases fuel with
    | zero => cases h
    | succ fuel =>
      rw [wakeWaiters, if_pos hl] at h
      obtain rfl := Option.some.inj h
      simp
  | cons x xs ih =>
    obtain ⟨rfl, hx, hrest⟩ := hl
    cases fuel with
    | zero => cases h
    | succ fuel =>
      rw [wakeWaiters, if_neg hx] at h
      have hfirst : Function.update m (H.data l) (m (H.data l)).woken w =
          if w = H.data l then (m w).woken else m w := by
        rw [Function.update_apply]
        split_ifs with hw
        · rw [hw]
        · rfl
      rw [ih hrest h, hfirst]
      -- waking a thread twice is the same as once
      by_cases hw : w = H.data l
      · have hmem : w ∈ (l :: xs).map H.data :=
          List.mem_map.mpr ⟨l, List.mem_cons_self, hw.symm⟩
        rw [if_pos hmem, if_pos hw]
        split_ifs
        · simp only [XTThread.woken, wakeState_wake]
        · rfl
      · have hiff : w ∈ (l :: xs).map H.data ↔ w ∈ xs.map H.data := by
          simp only [List.map_cons, List.mem_cons, hw, false_or]
        simp only [hiff, if_neg hw]

theorem XTThread.woken_not_terminated (th : XTThread) : th.woken.terminated = false := by
  rw [XTThread.terminated, XTThread.woken]
  dsimp only
  rw [wakeState_and]
  rfl

theorem XTThread.woken_awake (th : XTThread) : th.woken.Awake := by
  left
  rw [XTThread.runs, XTThread.woken, beq_iff_eq]
  dsimp only
  have hlow : ((th.state &&& 0x80) ||| xtThreadRunState) &&& 0x7f &&& 0xf =
      ((th.state &&& 0x80) ||| xtThreadRunState) &&& 0xf := Nat.and_assoc _ _ _
  rw [← hlow, wakeState_and]
  rfl

theorem XTThread.stopped_terminated (th : XTThread) (code : ℕ) :
    (th.stopped code).terminated = true := by
  rw [XTThread.terminated, XTThread.stopped]
  dsimp only
  rw [endState_and]
  rfl

/-- What `xtTerminateThread` does to the records, if the wait list is in order. -/
theorem terminate_spec {fuel t code : ℕ} (h : terminate fuel s t code = some s') {xs : List ℕ}
    (hl : Linked 0 s.nodes.next (s.thread t).waitThreads xs 0)
    (hnot : t ∉ xs.map s.nodes.data) :
    s' = { s with
      thread := s'.thread
      code := Function.update s.code t
        (Function.update (s.code t) (s.incarnation t) (some code)) } ∧
      s'.thread t = (s.thread t).stopped code ∧
      ∀ w, w ≠ t → s'.thread w =
        if w ∈ xs.map s.nodes.data then (s.thread w).woken else s.thread w := by
  rw [terminate] at h
  obtain ⟨m, hm, rfl⟩ := Option.map_eq_some_iff.mp h
  have hheads : ((s.modify t fun th => th.stopped code).thread t).waitThreads =
      (s.thread t).waitThreads := modify_same XTThread.waitThreads rfl t
  have hwake := wakeWaiters_eq (by rw [hheads]; exact hl) hm
  refine ⟨rfl, ?_, fun w hw => ?_⟩
  · exact ((hwake t).trans (if_neg hnot)).trans (Function.update_self _ _ _)
  · have hsame : (s.modify t fun th => th.stopped code).thread w = s.thread w :=
      Function.update_of_ne hw _ _
    rw [← hsame]
    exact hwake w

/-- What the termination of a live thread leaves of its record and of those of its waiters, if its
    wait list is in order. -/
structure Terminated (s : State) (t code : ℕ) (m : ℕ → XTThread) (k : ℕ → ℕ → Option ℕ) : Prop where
  live : s.Live t
  codes : k = Function.update s.code t (Function.update (s.code t) (s.incarnation t) (some code))
  self : m t = (s.thread t).stopped code
  woken : ∀ w n i, w ≠ t → s.Waits w t n i → m w = (s.thread w).woken
  same : ∀ w, w ≠ t → (∀ n i, ¬ s.Waits w t n i) → m w = s.thread w

variable {t code : ℕ} {m : ℕ → XTThread} {k : ℕ → ℕ → Option ℕ}

theorem Terminated.code_self (h : Terminated s t code m k) : k t (s.incarnation t) = some code := by
  rw [h.codes, Function.update_self, Function.update_self]

theorem Terminated.code_of_ne (h : Terminated s t code m k) {u i : ℕ}
    (hne : u = t → i ≠ s.incarnation t) : k u i = s.code u i := by
  rw [h.codes]
  by_cases hut : u = t
  · rw [hut, Function.update_self, Function.update_of_ne (hne hut)]
  · rw [Function.update_of_ne hut]

theorem Terminated.not_live (h : Terminated s t code m k) :
    ¬ State.Live { s with thread := m, code := k } t := fun hlive =>
  absurd (hlive.symm.trans h.code_self) nofun

theorem Terminated.live_iff (h : Terminated s t code m k) {u : ℕ} (hu : u ≠ t) :
    State.Live { s with thread := m, code := k } u ↔ s.Live u := by
  rw [State.Live, State.Live]
  dsimp only
  rw [h.code_of_ne fun heq => absurd heq hu]

/-- The record of another thread is as it was, or it is woken. -/
theorem Terminated.other (h : Terminated s t code m k) {w : ℕ} (hw : w ≠ t) :
    m w = s.thread w ∨ m w = (s.thread w).woken := by
  by_cases hwait : ∃ n i, s.Waits w t n i
  · obtain ⟨n, i, hwait⟩ := hwait
    exact .inr (h.woken w n i hw hwait)
  · exact .inl (h.same w hw fun n i hi => hwait ⟨n, i, hi⟩)

theorem Terminated.heads (h : Terminated s t code m k) (u : ℕ) :
    (m u).waitThreads = (s.thread u).waitThreads := by
  by_cases hu : u = t
  · rw [hu, h.self]
    rfl
  · obtain heq | heq := h.other hu
    · rw [heq]
    · rw [heq]
      rfl

theorem Terminated.awake (h : Terminated s t code m k) {w : ℕ} (hw : (s.thread w).Awake) :
    (m w).Awake := by
  by_cases hwt : w = t
  · rw [hwt, h.self]
    exact .inr (XTThread.stopped_terminated _ _)
  · obtain heq | heq := h.other hwt
    · rwa [heq]
    · rw [heq]
      exact XTThread.woken_awake _

/-- The wait lists stay; that of the terminated thread is now one of a terminated thread. -/
theorem Terminated.lists (h : Terminated s t code m k) (hl : Lists s)
    (ht : s.created t = true) : Lists { s with thread := m, code := k } := by
  refine ⟨hl.waiter, fun w u n i hw hu => ?_, fun u hu hlive => ?_, fun u hu hlive => ?_,
    fun u hu hdead => ?_, hl.disjoint⟩
  · by_cases hut : u = t
    · exact hl.data w u n i hw (hut ▸ h.live)
    · exact hl.data w u n i hw ((h.live_iff hut).mp hu)
  · have hut : u ≠ t := fun heq => h.not_live (heq ▸ hlive)
    dsimp only
    rw [h.heads u]
    exact hl.chain u hu ((h.live_iff hut).mp hlive)
  · have hut : u ≠ t := fun heq => h.not_live (heq ▸ hlive)
    exact hl.node u hu ((h.live_iff hut).mp hlive)
  · dsimp only
    rw [h.heads u]
    by_cases hut : u = t
    · exact Closed.of_linked (hl.chain u (hut ▸ ht) (hut ▸ h.live))
    · exact hl.closed u hu fun hlive => hdead ((h.live_iff hut).mpr hlive)

/-- The waiters of the terminated thread are awake, and those of other threads are as before. -/
theorem Terminated.waiters (h : Terminated s t code m k) (hw : Waiters s)
    (hgap : ∀ w n i, s.place w ≠ .inside .gap t n i)
    (hfree : ∀ ph u n i, s.place t = .inside ph u n i → ¬ s.Live u) :
    Waiters { s with thread := m, code := k } := by
  refine ⟨fun w ph u n i hp hlive => ?_, fun w ph u n i hp hdead => ?_⟩
  · have hut : u ≠ t := fun heq => h.not_live (heq ▸ hlive)
    have hu := (h.live_iff hut).mp hlive
    have hwt : w ≠ t := fun heq => hfree ph u n i (heq ▸ hp) hu
    have hkeep : m w = s.thread w := by
      apply h.same w hwt
      rintro n' i' ⟨ph', hp'⟩
      have heq := hp.symm.trans hp'
      cases heq
      exact hut rfl
    dsimp only
    rw [hkeep]
    exact hw.live w ph u n i hp hu
  · by_cases hut : u = t
    · subst hut
      have hwt : w ≠ u := fun heq => hfree ph u n i (heq ▸ hp) h.live
      refine ⟨fun hph => hgap w n i (hph ▸ hp), ?_⟩
      dsimp only
      rw [h.woken w n i hwt ⟨ph, hp⟩]
      exact XTThread.woken_awake _
    · obtain ⟨hph, hstate⟩ := hw.ended w ph u n i hp fun hu => hdead ((h.live_iff hut).mpr hu)
      exact ⟨hph, h.awake hstate⟩

/-- A waiter of a live thread is not terminated. -/
theorem Waiters.not_terminated (h : Waiters s) {w n i : ℕ} (hwait : s.Waits w t n i)
    (hlive : s.Live t) : (s.thread w).terminated = false := by
  obtain ⟨ph, hp⟩ := hwait
  obtain ⟨-, hruns⟩ | ⟨-, hsleep⟩ := h.live w ph t n i hp hlive
  · exact XTThread.runs_not_terminated hruns
  · exact XTThread.sleep_not_terminated hsleep

theorem Terminated.records (h : Terminated s t code m k) (hr : Records s) (hw : Waiters s) :
    Records { s with thread := m, code := k } := by
  refine ⟨fun u hu => ?_, fun u c hc => ?_, fun u i hi => ?_, fun r hlog => ?_⟩
  · by_cases hut : u = t
    · subst hut
      refine iff_of_true ?_ h.not_live
      dsimp only
      rw [h.self]
      exact XTThread.stopped_terminated _ _
    · rw [h.live_iff hut, ← hr.ended u hu]
      dsimp only
      by_cases hwait : ∃ n i, s.Waits u t n i
      · obtain ⟨n, i, hwait⟩ := hwait
        rw [h.woken u n i hut hwait, XTThread.woken_not_terminated,
          hw.not_terminated hwait h.live]
      · rw [h.same u hut fun n i hi => hwait ⟨n, i, hi⟩]
  · dsimp only at hc ⊢
    by_cases hut : u = t
    · subst hut
      rw [h.code_self] at hc
      rw [h.self]
      exact Option.some.inj hc
    · rw [h.code_of_ne fun heq => absurd heq hut] at hc
      have hres := hr.result u c hc
      obtain heq | heq := h.other hut
      · rwa [heq]
      · rw [heq]
        exact hres
  · dsimp only at hi ⊢
    rw [h.code_of_ne fun heq => Nat.ne_of_gt (heq ▸ hi)]
    exact hr.fresh u i hi
  · have hold := hr.log r hlog
    dsimp only
    rw [h.code_of_ne fun hthread hinc => ?_]
    · exact hold
    · -- the incarnation that runs has no code yet
      rw [hinc, hthread, h.live] at hold
      cases hold

/-- Termination of a live thread that waits for no live one, with all its waiters asleep. -/
theorem terminate_invariant (h : Invariant s) {fuel : ℕ} (ht : s.created t = true)
    (hcalm : s.Calm (.terminate t code)) (hrun : terminate fuel s t code = some s') :
    Invariant s' := by
  obtain ⟨hnot, hgap, hfree⟩ := hcalm
  have hlive : s.Live t := by
    by_contra hend
    rw [(h.records.ended t ht).mpr hend] at hnot
    cases hnot
  -- the threads on the wait list are the waiters of `t`
  have hwaiter : ∀ w, w ∈ (s.region t).map s.nodes.data ↔ ∃ n i, s.Waits w t n i := by
    intro w
    rw [List.mem_map]
    constructor
    · rintro ⟨n, hn, rfl⟩
      obtain ⟨-, w, i, hw⟩ := h.lists.node t ht hlive n hn
      rw [h.lists.data w t n i hw hlive]
      exact ⟨n, i, hw⟩
    · rintro ⟨n, i, hw⟩
      exact ⟨n, (h.lists.waiter w t n i hw).2.2.2, h.lists.data w t n i hw hlive⟩
  have hself : t ∉ (s.region t).map s.nodes.data := by
    rw [hwaiter]
    rintro ⟨n, i, ph, hp⟩
    exact hfree ph t n i hp hlive
  obtain ⟨heq, hthread, hothers⟩ := terminate_spec hrun (h.lists.chain t ht hlive) hself
  have hterm : Terminated s t code s'.thread
      (Function.update s.code t (Function.update (s.code t) (s.incarnation t) (some code))) := by
    refine ⟨hlive, rfl, hthread, fun w n i hw hwait => ?_, fun w hw hnone => ?_⟩
    · rw [hothers w hw, if_pos ((hwaiter w).mpr ⟨n, i, hwait⟩)]
    · rw [hothers w hw, if_neg]
      rw [hwaiter]
      rintro ⟨n, i, hwait⟩
      exact hnone n i hwait
  rw [heq]
  exact ⟨hterm.lists h.lists ht, hterm.waiters h.waiters hgap hfree,
    hterm.records h.records h.waiters, h.creations.congr rfl rfl rfl rfl fun _ _ _ _ hv => hv⟩

/-! ### Creation -/

section recycle

variable {state u : ℕ}

theorem recycle_thread (hu : u ≠ t) : (recycle s t state).thread u = s.thread u :=
  Function.update_of_ne hu _ _

theorem recycle_thread_self : (recycle s t state).thread t = ⟨0, state, 20, 0, false⟩ :=
  Function.update_self _ _ _

theorem recycle_incarnation (hu : u ≠ t) :
    (recycle s t state).incarnation u = s.incarnation u :=
  Function.update_of_ne hu _ _

theorem recycle_incarnation_self :
    (recycle s t state).incarnation t = s.incarnation t + 1 :=
  Function.update_self _ _ _

theorem recycle_region (hu : u ≠ t) : (recycle s t state).region u = s.region u :=
  Function.update_of_ne hu _ _

theorem recycle_region_self : (recycle s t state).region t = [] := Function.update_self _ _ _

theorem recycle_created (hu : u ≠ t) : (recycle s t state).created u = s.created u :=
  Function.update_of_ne hu _ _

theorem recycle_created_of_created (hu : s.created u = true) :
    (recycle s t state).created u = true := by
  by_cases hut : u = t
  · rw [hut]
    exact Function.update_self _ _ _
  · rw [recycle_created hut]
    exact hu

theorem recycle_live_iff (hu : u ≠ t) : (recycle s t state).Live u ↔ s.Live u := by
  rw [State.Live, State.Live, recycle_incarnation hu]
  rfl

/-- Nobody waits for the record, and its own thread does not wait. -/
theorem recycle_place (hinside : ¬ s.Inside t) {w n i : ℕ} {ph : Phase}
    (hp : (recycle s t state).place w = .inside ph u n i) :
    u ≠ t ∧ w ≠ t ∧ s.place w = .inside ph u n i := by
  obtain ⟨-, heq⟩ | ⟨hwt, hp⟩ := place_goTo hp
  · cases heq
  · refine ⟨?_, hwt, hp⟩
    rintro rfl
    exact hinside ⟨w, n, i, ph, hp⟩

/-- The new record has an empty list, and the other lists stay. -/
theorem recycle_lists (h : Lists (s.goTo t .outside)) (hinside : ¬ s.Inside t) :
    Lists (recycle s t state) := by
  have hne : ∀ w u n i, (recycle s t state).Waits w u n i →
      u ≠ t ∧ (s.goTo t .outside).Waits w u n i := by
    rintro w u n i ⟨ph, hp⟩
    exact ⟨(recycle_place hinside hp).1, ph, hp⟩
  have hlive : ∀ u, u ≠ t → ((recycle s t state).Live u ↔ (s.goTo t .outside).Live u) :=
    fun u hu => recycle_live_iff hu
  refine ⟨fun w u n i hw => ?_, fun w u n i hw hl => ?_, fun u hu hl => ?_,
    fun u hu hl n hn => ?_, ?_, ?_⟩
  · obtain ⟨hut, hold⟩ := hne w u n i hw
    obtain ⟨h₁, h₂, h₃, h₄⟩ := h.waiter w u n i hold
    rw [recycle_incarnation hut, recycle_region hut]
    exact ⟨recycle_created_of_created h₁, recycle_created_of_created h₂, h₃, h₄⟩
  · obtain ⟨hut, hold⟩ := hne w u n i hw
    exact h.data w u n i hold ((hlive _ hut).mp hl)
  · by_cases hut : u = t
    · rw [hut, recycle_region_self, recycle_thread_self]
      rfl
    · rw [recycle_region hut, recycle_thread hut]
      rw [recycle_created hut] at hu
      exact h.chain u hu ((hlive _ hut).mp hl)
  · by_cases hut : u = t
    · rw [hut, recycle_region_self] at hn
      cases hn
    · rw [recycle_region hut] at hn
      rw [recycle_created hut] at hu
      exact h.node u hu ((hlive _ hut).mp hl) n hn
  · rintro u ⟨w, n, i, hw⟩ hdead
    obtain ⟨hut, hold⟩ := hne w u n i hw
    rw [recycle_region hut, recycle_thread hut]
    exact h.closed u ⟨w, n, i, hold⟩ fun hl => hdead ((hlive _ hut).mpr hl)
  · rintro u v huv ⟨w, n, i, hw⟩ ⟨w', n', i', hw'⟩
    obtain ⟨hut, hold⟩ := hne w u n i hw
    obtain ⟨hvt, hold'⟩ := hne w' v n' i' hw'
    rw [recycle_region hut, recycle_region hvt]
    exact h.disjoint u v huv ⟨w, n, i, hold⟩ ⟨w', n', i', hold'⟩

theorem recycle_waiters (h : Waiters s) (hinside : ¬ s.Inside t) :
    Waiters (recycle s t state) := by
  refine ⟨fun w ph u n i hp hl => ?_, fun w ph u n i hp hdead => ?_⟩
  · obtain ⟨hut, hwt, hp⟩ := recycle_place hinside hp
    rw [recycle_thread hwt]
    exact h.live w ph u n i hp ((recycle_live_iff hut).mp hl)
  · obtain ⟨hut, hwt, hp⟩ := recycle_place hinside hp
    rw [recycle_thread hwt]
    exact h.ended w ph u n i hp fun hl => hdead ((recycle_live_iff hut).mpr hl)

/-- The new incarnation has no code yet. -/
theorem recycle_records (h : Records s) (hstate : state &&& 0x7f ≠ xtThreadTerminatedState) :
    Records (recycle s t state) := by
  have hnone : s.code t (s.incarnation t + 1) = none := h.fresh t _ (Nat.lt_succ_self _)
  refine ⟨fun u hu => ?_, fun u c hc => ?_, fun u i hi => ?_, h.log⟩
  · by_cases hut : u = t
    · rw [hut, recycle_thread_self, State.Live, recycle_incarnation_self]
      refine iff_of_false ?_ (not_not_intro hnone)
      rw [XTThread.terminated, beq_iff_eq]
      exact hstate
    · rw [recycle_thread hut, recycle_live_iff hut]
      rw [recycle_created hut] at hu
      exact h.ended u hu
  · by_cases hut : u = t
    · rw [hut, recycle_incarnation_self] at hc
      exact absurd (hnone.symm.trans hc) nofun
    · rw [recycle_incarnation hut] at hc
      rw [recycle_thread hut]
      exact h.result u c hc
  · by_cases hut : u = t
    · rw [hut, recycle_incarnation_self] at hi
      rw [hut]
      exact h.fresh t i (Nat.lt_of_succ_lt hi)
    · rw [recycle_incarnation hut] at hi
      exact h.fresh u i hi

end recycle

/-- A record that nobody waits for, and that is terminated or new, is used for a thread. -/
theorem recycle_invariant (h : Invariant s) {state : ℕ}
    (ht : s.created t = false ∨ (s.thread t).state = xtThreadTerminatedState)
    (hinside : ¬ s.Inside t) (hstate : state &&& 0x7f ≠ xtThreadTerminatedState) :
    Invariant (recycle s t state) := by
  have hleave : Lists (s.goTo t .outside) := by
    refine h.lists.leave fun u n i hw hlive => ?_
    obtain ⟨hcreated, -⟩ := h.lists.waiter t u n i hw
    have hend : (s.thread t).state = xtThreadTerminatedState := by
      rw [hcreated] at ht
      exact ht.resolve_left nofun
    -- a waiter of a live thread is not terminated
    have hnot := h.waiters.not_terminated hw hlive
    rw [XTThread.terminated, hend] at hnot
    cases hnot
  refine ⟨recycle_lists hleave hinside, recycle_waiters h.waiters hinside,
    recycle_records h.records hstate, h.creations.closed, h.creations.used, ?_⟩
  rintro u ⟨w, n, i, ph, hw⟩
  obtain ⟨hut, -, hw⟩ := recycle_place hinside hw
  rw [recycle_region hut]
  exact h.creations.apart u ⟨w, n, i, ph, hw⟩

/-- The wait lists do not lead to a node of a creation, so that a change there leaves them. -/
theorem Lists.elsewhere (h : Lists s) {H : NodeHeap}
    (hkeep : ∀ t, s.Inside t → ∀ n ∈ s.region t, H.next n = s.nodes.next n ∧
      H.data n = s.nodes.data n ∧ H.used n = s.nodes.used n) : Lists { s with nodes := H } := by
  have hlive : ∀ t, s.created t = true → s.Live t → ∀ n ∈ s.region t, s.Inside t := by
    intro t ht hl n hn
    obtain ⟨-, w, i, hw⟩ := h.node t ht hl n hn
    exact ⟨w, n, i, hw⟩
  refine ⟨h.waiter, fun w t n i hw hl => ?_, fun t ht hl => ?_, fun t ht hl n hn => ?_,
    fun t hin hdead => ?_, h.disjoint⟩
  · have hn := (h.waiter w t n i hw).2.2.2
    exact (hkeep t ⟨w, n, i, hw⟩ n hn).2.1.trans (h.data w t n i hw hl)
  · exact (h.chain t ht hl).congr fun n hn => (hkeep t (hlive t ht hl n hn) n hn).1
  · obtain ⟨hused, hw⟩ := h.node t ht hl n hn
    exact ⟨(hkeep t (hlive t ht hl n hn) n hn).2.2.trans hused, hw⟩
  · obtain ⟨hfirst, hrest⟩ := h.closed t hin hdead
    refine ⟨hfirst, fun n hn => ?_⟩
    dsimp only
    rw [(hkeep t hin n hn).1]
    exact hrest n hn

/-- What linking a new node does: it is one more node of creations, and of the others only links of
    such nodes change. -/
structure Linking (s s' : State) (t node : ℕ) : Prop where
  same : s' = { s with nodes := s'.nodes, heads := s'.heads, linked := s.linked ++ [node] }
  closed : ∀ l, Closed s'.nodes.next (s'.heads l) (s.linked ++ [node])
  next : ∀ x, x ∉ s.linked → x ≠ node → s'.nodes.next x = s.nodes.next x
  data : s'.nodes.data = Function.update s.nodes.data node t
  used : s'.nodes.used = Function.update s.nodes.used node true

theorem link_spec {fuel node : ℕ} {l : Option ℕ} (h : s.link fuel l t node = some s')
    (hclosed : ∀ l, Closed s.nodes.next (s.heads l) s.linked) (hnode : node ≠ 0)
    (hnew : node ∉ s.linked) : Linking s s' t node := by
  have hne : ∀ x ∈ s.linked, x ≠ node := fun x hx heq => hnew (heq ▸ hx)
  have hnext : ∀ x, x ≠ node → (xtCreateList s.nodes t node).next x = s.nodes.next x := by
    intro x hx
    rw [xtCreateList_next]
    exact Function.update_of_ne hx _ _
  have hlast : (xtCreateList s.nodes t node).next node = 0 := by
    rw [xtCreateList_next]
    exact Function.update_self _ _ _
  have hheads : ∀ l, s.heads l = 0 ∨ s.heads l ∈ s.linked ++ [node] :=
    fun l => (hclosed l).1.imp_right fun hmem => List.mem_append_left _ hmem
  have hnodes : ∀ x ∈ s.linked, s.nodes.next x = 0 ∨ s.nodes.next x ∈ s.linked ++ [node] :=
    fun x hx => ((hclosed l).2 x hx).imp_right fun hmem => List.mem_append_left _ hmem
  have hself : node ∈ s.linked ++ [node] := List.mem_append_right _ (List.mem_singleton_self _)
  rw [State.link] at h
  dsimp only at h
  split_ifs at h with hhead
  · obtain rfl := Option.some.inj h
    refine ⟨rfl, fun l' => ⟨?_, fun x hx => ?_⟩, fun x _ hx => hnext x hx, xtCreateList_data _ _ _,
      rfl⟩
    · dsimp only
      rw [Function.update_apply]
      split_ifs
      · exact .inr hself
      · exact hheads l'
    · dsimp only
      obtain hx | hx := List.mem_append.mp hx
      · rw [hnext x (hne x hx)]
        exact hnodes x hx
      · rw [List.mem_singleton.mp hx]
        exact .inl hlast
  · obtain ⟨H, hH, rfl⟩ := Option.map_eq_some_iff.mp h
    have hlink : Closed (xtCreateList s.nodes t node).next (s.heads l) s.linked := by
      refine ⟨(hclosed l).1, fun x hx => ?_⟩
      rw [hnext x (hne x hx)]
      exact (hclosed l).2 x hx
    obtain ⟨last, hmem, hlinks, hdata, hused⟩ := xtAppendList_closed hlink hhead hnode hH
    refine ⟨rfl, fun l' => ⟨hheads l', fun x hx => ?_⟩, fun x hx hxn => ?_,
      hdata.trans (xtCreateList_data _ _ _), hused⟩
    · dsimp only
      rw [hlinks, Function.update_apply]
      split_ifs with hxl
      · exact .inr hself
      · obtain hx | hx := List.mem_append.mp hx
        · rw [hnext x (hne x hx)]
          exact hnodes x hx
        · rw [List.mem_singleton.mp hx]
          exact .inl hlast
    · have hxl : x ≠ last := by
        rintro rfl
        exact hx hmem
      dsimp only
      rw [hlinks, Function.update_of_ne hxl, hnext x hxn]

/-- A new node that was not registered with a thread with waiters is linked. -/
theorem Linking.invariant {node : ℕ} (h : Linking s s' t node) (hs : Invariant s)
    (hcalm : ∀ u, s.Inside u → node ∉ s.region u) : Invariant s' := by
  have hlists : Lists { s with nodes := s'.nodes } := by
    refine hs.lists.elsewhere fun u hu x hx => ?_
    have hxn : x ≠ node := fun heq => hcalm u hu (heq ▸ hx)
    refine ⟨h.next x (hs.creations.apart u hu hx) hxn, ?_, ?_⟩
    · rw [h.data, Function.update_of_ne hxn]
    · rw [h.used, Function.update_of_ne hxn]
  have hused : ∀ x ∈ s.linked ++ [node], s'.nodes.used x = true := by
    intro x hx
    rw [h.used, Function.update_apply]
    split_ifs with hxn
    · rfl
    · exact hs.creations.used x ((List.mem_append.mp hx).resolve_right
        fun hmem => hxn (List.mem_singleton.mp hmem))
  have hapart : ∀ u, s.Inside u → List.Disjoint (s.region u) (s.linked ++ [node]) := by
    intro u hu x hx hmem
    obtain hmem | hmem := List.mem_append.mp hmem
    · exact hs.creations.apart u hu hx hmem
    · exact hcalm u hu (List.mem_singleton.mp hmem ▸ hx)
  rw [h.same]
  exact ⟨hlists.congr rfl rfl (fun _ => rfl) rfl rfl rfl rfl,
    hs.waiters.congr (fun _ _ _ _ _ hv => hv) (fun _ => rfl) rfl rfl,
    hs.records.congr rfl (fun _ => rfl) (fun _ => rfl) rfl rfl hs.records.log,
    h.closed, hused, hapart⟩

/-- A node that is not in use is linked. -/
theorem link_invariant (h : Invariant s) {fuel node : ℕ} {l : Option ℕ} (hnode : node ≠ 0)
    (hnew : s.nodes.used node = false) (hcalm : ∀ u, s.Inside u → node ∉ s.region u)
    (hlink : s.link fuel l t node = some s') : Linking s s' t node ∧ Invariant s' := by
  have hfresh : node ∉ s.linked := by
    intro hmem
    rw [h.creations.used node hmem] at hnew
    cases hnew
  have hspec := link_spec hlink h.creations.closed hnode hfresh
  exact ⟨hspec, hspec.invariant h hcalm⟩

/-- A creation that meets no waiter keeps the invariant. -/
theorem create_invariant (h : Invariant s) {fuel state process listNode node : ℕ}
    (ht : s.created t = false ∧ listNode ≠ 0 ∧ s.nodes.used listNode = false ∨
      s.created t = true ∧ (s.thread t).state = xtThreadTerminatedState)
    (hnode : node ≠ 0 → s.nodes.used node = false ∧ (s.created t = false → node ≠ listNode))
    (hcalm : s.Calm (.create t state process listNode node))
    (hrun : create fuel s t state process listNode node = some s') : Invariant s' := by
  obtain ⟨hinside, hstate, hblocks⟩ := hcalm
  rw [create] at hrun
  obtain ⟨s₁, hs₁, hrun⟩ := Option.bind_eq_some_iff.mp hrun
  -- the list of all threads
  have hfirst : Invariant s₁ ∧ s₁.created = s.created ∧ s₁.thread = s.thread ∧
      s₁.place = s.place ∧ s₁.region = s.region ∧ (node ≠ 0 → s₁.nodes.used node = false) := by
    obtain ⟨hnew, hlist, hused⟩ | ⟨hold, -⟩ := ht
    · rw [hnew] at hs₁
      obtain ⟨hlinking, hinv⟩ := link_invariant h hlist hused
        (fun u hu => (hblocks u hu).1 hnew) hs₁
      refine ⟨hinv, ?_, ?_, ?_, ?_, fun hne => ?_⟩
      · rw [hlinking.same]
      · rw [hlinking.same]
      · rw [hlinking.same]
      · rw [hlinking.same]
      · rw [hlinking.used, Function.update_of_ne ((hnode hne).2 hnew)]
        exact (hnode hne).1
    · rw [hold] at hs₁
      obtain rfl := Option.some.inj hs₁
      exact ⟨h, rfl, rfl, rfl, rfl, fun hne => (hnode hne).1⟩
  obtain ⟨hinv, hcreated, hthread, hplace, hregion, hused⟩ := hfirst
  have hin : ∀ u, s₁.Inside u → s.Inside u := by
    rintro u ⟨w, n, i, ph, hw⟩
    rw [hplace] at hw
    exact ⟨w, n, i, ph, hw⟩
  have hrecord : Invariant (recycle s₁ t state) := by
    refine recycle_invariant hinv ?_ (fun hu => hinside (hin t hu)) hstate
    rw [hcreated, hthread]
    exact ht.imp (fun h => h.1) fun h => h.2
  split_ifs at hrun with hzero
  · obtain rfl := Option.some.inj hrun
    exact hrecord
  · refine (link_invariant hrecord hzero (hused hzero) ?_ hrun).2
    rintro u ⟨w, n, i, ph, hw⟩
    obtain ⟨hut, -, hw⟩ := recycle_place (fun hu => hinside (hin t hu)) hw
    rw [recycle_region hut, hregion]
    exact (hblocks u (hin u ⟨w, n, i, ph, hw⟩)).2

/-! ### Registration -/

/-- What a registration does: the new node comes to the end of the list of `t`. -/
structure Registered (s s' : State) (w t node : ℕ) : Prop where
  created : s'.created = s.created
  incarnation : s'.incarnation = s.incarnation
  code : s'.code = s.code
  log : s'.log = s.log
  place : s'.place = (s.goTo w (.inside .gap t node (s.incarnation t))).place
  region : s'.region = Function.update s.region t (s.region t ++ [node])
  heads : ∀ u, u ≠ t → (s'.thread u).waitThreads = (s.thread u).waitThreads
  state : ∀ u, (s'.thread u).state = (s.thread u).state
  result : ∀ u, (s'.thread u).result = (s.thread u).result
  linked : Linked 0 s'.nodes.next (s'.thread t).waitThreads (s.region t ++ [node]) 0
  data : s'.nodes.data = Function.update s.nodes.data node w
  used : s'.nodes.used = Function.update s.nodes.used node true
  next : ∀ x, x ∉ s.region t → x ≠ node → s'.nodes.next x = s.nodes.next x
  heads_kept : s'.heads = s.heads
  linked_kept : s'.linked = s.linked

theorem register_spec {fuel w t node : ℕ} (h : register fuel s w t node = some s')
    (hl : Linked 0 s.nodes.next (s.thread t).waitThreads (s.region t) 0) (hnode : node ≠ 0)
    (hnew : node ∉ s.region t) : Registered s s' w t node := by
  have hne : ∀ x ∈ s.region t, x ≠ node := fun x hx heq => hnew (heq ▸ hx)
  have hlink : Linked 0 (xtCreateList s.nodes w node).next (s.thread t).waitThreads
      (s.region t) 0 := by
    rw [xtCreateList_next]
    exact hl.congr fun x hx => Function.update_of_ne (hne x hx) _ _
  have hnext : ∀ x, x ≠ node → (xtCreateList s.nodes w node).next x = s.nodes.next x := by
    intro x hx
    rw [xtCreateList_next]
    exact Function.update_of_ne hx _ _
  have hlast : (xtCreateList s.nodes w node).next node = 0 := by
    rw [xtCreateList_next]
    exact Function.update_self _ _ _
  rw [register] at h
  obtain ⟨s₁, hs₁, rfl⟩ := Option.map_eq_some_iff.mp h
  split_ifs at hs₁ with hhead
  · obtain rfl := Option.some.inj hs₁
    -- a null pointer is the empty list
    have hempty : s.region t = [] := by
      cases hxs : s.region t with
      | nil => rfl
      | cons x xs =>
        rw [hxs] at hl
        exact absurd (hl.1.symm.trans hhead) hl.2.1
    have hself : ((s.modify t fun th => { th with waitThreads := node }).thread t).waitThreads =
        node := by
      rw [State.modify]
      dsimp only
      rw [Function.update_self]
    have hstate : ∀ u, ((s.modify t fun th => { th with waitThreads := node }).thread u).state =
        (s.thread u).state := modify_same XTThread.state rfl
    have hresult : ∀ u, ((s.modify t fun th => { th with waitThreads := node }).thread u).result =
        (s.thread u).result := modify_same XTThread.result rfl
    refine ⟨rfl, rfl, rfl, rfl, rfl, rfl, fun u hu => ?_, hstate, hresult, ?_,
      xtCreateList_data _ _ _, rfl, fun x _ hx => hnext x hx, rfl, rfl⟩
    · exact congrArg XTThread.waitThreads (Function.update_of_ne hu _ _)
    · rw [hempty]
      exact ⟨hself, hnode, hlast⟩
  · obtain ⟨H, hH, rfl⟩ := Option.map_eq_some_iff.mp hs₁
    have hxs : s.region t ≠ [] := by
      intro hempty
      rw [hempty] at hl
      exact hhead hl
    obtain ⟨hlinked, hdata, hused, hframe⟩ :=
      xtAppendList_linked hlink hxs hnode hnew hlast hH
    refine ⟨rfl, rfl, rfl, rfl, rfl, rfl, fun _ _ => rfl, fun _ => rfl, fun _ => rfl, hlinked,
      hdata.trans (xtCreateList_data _ _ _), hused, fun x hx hxn => ?_, rfl, rfl⟩
    exact (hframe x hx).trans (hnext x hxn)

section registered

variable {w node : ℕ}

theorem Registered.live (h : Registered s s' w t node) : s'.Live = s.Live :=
  live_congr h.incarnation h.code

/-- Who waits afterwards: the thread itself, or one that waited before. -/
theorem Registered.place_cases (h : Registered s s' w t node) {v u n i : ℕ} {ph : Phase}
    (hv : s'.place v = .inside ph u n i) :
    v = w ∧ ph = .gap ∧ u = t ∧ n = node ∧ i = s.incarnation t ∨
      v ≠ w ∧ s.place v = .inside ph u n i := by
  rw [h.place] at hv
  obtain ⟨rfl, heq⟩ | hold := place_goTo hv
  · cases heq
    exact .inl ⟨rfl, rfl, rfl, rfl, rfl⟩
  · exact .inr hold

theorem Registered.waits (h : Registered s s' w t node) (hp : s.place w = .outside) {v u n i : ℕ}
    (hv : s.Waits v u n i) : s'.Waits v u n i := by
  obtain ⟨ph, hv⟩ := hv
  have hvw : v ≠ w := by
    rintro rfl
    rw [hp] at hv
    cases hv
  refine ⟨ph, ?_⟩
  rw [h.place]
  exact (Function.update_of_ne hvw _ _).trans hv

theorem Registered.waits_self (h : Registered s s' w t node) :
    s'.Waits w t node (s.incarnation t) := by
  refine ⟨.gap, ?_⟩
  rw [h.place]
  exact Function.update_self _ _ _

theorem Registered.inside (h : Registered s s' w t node) {u : ℕ} (hut : u ≠ t)
    (hin : s'.Inside u) : s.Inside u := by
  obtain ⟨v, n, i, ph, hv⟩ := hin
  obtain ⟨-, -, heq, -⟩ | ⟨-, hv⟩ := h.place_cases hv
  · exact absurd heq hut
  · exact ⟨v, n, i, ph, hv⟩

theorem Registered.region_of_ne (h : Registered s s' w t node) {u : ℕ} (hut : u ≠ t) :
    s'.region u = s.region u := by
  rw [h.region]
  exact Function.update_of_ne hut _ _

theorem Registered.region_self (h : Registered s s' w t node) :
    s'.region t = s.region t ++ [node] := by
  rw [h.region]
  exact Function.update_self _ _ _

theorem Registered.used_of_used (h : Registered s s' w t node) {x : ℕ}
    (hx : s.nodes.used x = true) : s'.nodes.used x = true := by
  rw [h.used, Function.update_apply]
  split_ifs
  · rfl
  · exact hx

/-- The wait lists: the one of `t` ends with the new node, which is in no other list. -/
theorem Registered.lists (h : Registered s s' w t node) (hl : Lists s) (hlive : s.Live t)
    (hp : s.place w = .outside) (hcw : s.created w = true) (ht : s.created t = true)
    (hfresh : ∀ u, s.created u = true → s.Live u → node ∉ s.region u)
    (hcalm : ∀ u, s.Inside u → node ∉ s.region u) : Lists s' := by
  -- the nodes in the list of `t` have waiters, so they are in no other list
  have hdis : ∀ u, u ≠ t → s.Inside u → List.Disjoint (s.region t) (s.region u) := fun u hut hin =>
    (hl.disjoint_live hut hin ht hlive).symm
  have hdis' : ∀ u, u ≠ t → s.created u = true → s.Live u →
      List.Disjoint (s.region t) (s.region u) := by
    intro u hut hu hlu x hxt hxu
    obtain ⟨-, v, i, hv⟩ := hl.node u hu hlu x hxu
    exact hdis u hut ⟨v, x, i, hv⟩ hxt hxu
  refine ⟨?_, ?_, fun u hu hlu => ?_, fun u hu hlu n hn => ?_, fun u hin hdead => ?_, ?_⟩
  · rintro v u n i ⟨ph, hv⟩
    rw [h.created, h.incarnation]
    obtain ⟨rfl, -, rfl, rfl, rfl⟩ | ⟨-, hv⟩ := h.place_cases hv
    · rw [h.region_self]
      exact ⟨hcw, ht, rfl, List.mem_append_right _ (List.mem_singleton_self _)⟩
    · obtain ⟨h₁, h₂, h₃, h₄⟩ := hl.waiter v u n i ⟨ph, hv⟩
      refine ⟨h₁, h₂, h₃, ?_⟩
      by_cases hut : u = t
      · rw [hut, h.region_self]
        exact List.mem_append_left _ (hut ▸ h₄)
      · rw [h.region_of_ne hut]
        exact h₄
  · rintro v u n i ⟨ph, hv⟩ hlu
    rw [h.live] at hlu
    rw [h.data]
    obtain ⟨rfl, -, rfl, rfl, rfl⟩ | ⟨-, hv⟩ := h.place_cases hv
    · exact Function.update_self _ _ _
    · obtain ⟨-, hu, -, hn⟩ := hl.waiter v u n i ⟨ph, hv⟩
      have hne : n ≠ node := fun heq => hfresh u hu hlu (heq ▸ hn)
      rw [Function.update_of_ne hne]
      exact hl.data v u n i ⟨ph, hv⟩ hlu
  · rw [h.created] at hu
    rw [h.live] at hlu
    by_cases hut : u = t
    · rw [hut, h.region_self]
      exact h.linked
    · rw [h.region_of_ne hut, h.heads u hut]
      refine (hl.chain u hu hlu).congr fun x hx => h.next x (fun hxt => ?_) ?_
      · exact hdis' u hut hu hlu hxt hx
      · exact fun heq => hfresh u hu hlu (heq ▸ hx)
  · rw [h.created] at hu
    rw [h.live] at hlu
    by_cases hut : u = t
    · rw [hut, h.region_self] at hn
      rw [hut]
      obtain hn | hn := List.mem_append.mp hn
      · obtain ⟨hn', v, i, hv⟩ := hl.node t ht hlive n hn
        exact ⟨h.used_of_used hn', v, i, h.waits hp hv⟩
      · rw [List.mem_singleton.mp hn, h.used]
        exact ⟨Function.update_self _ _ _, w, _, h.waits_self⟩
    · rw [h.region_of_ne hut] at hn
      obtain ⟨hn', v, i, hv⟩ := hl.node u hu hlu n hn
      exact ⟨h.used_of_used hn', v, i, h.waits hp hv⟩
  · rw [h.live] at hdead
    have hut : u ≠ t := fun heq => hdead (heq ▸ hlive)
    have hin' := h.inside hut hin
    obtain ⟨hfirst, hrest⟩ := hl.closed u hin' hdead
    rw [h.region_of_ne hut, h.heads u hut]
    refine ⟨hfirst, fun n hn => ?_⟩
    rw [h.next n (fun hnt => hdis u hut hin' hnt hn) fun heq => hcalm u hin' (heq ▸ hn)]
    exact hrest n hn
  · have hself : ∀ u, u ≠ t → s.Inside u → List.Disjoint (s.region t ++ [node]) (s.region u) := by
      intro u hut hin x hx hxu
      obtain hx | hx := List.mem_append.mp hx
      · exact hdis u hut hin hx hxu
      · exact hcalm u hin (List.mem_singleton.mp hx ▸ hxu)
    intro u v huv hu hv
    by_cases hut : u = t
    · have hvt : v ≠ t := fun heq => huv (hut.trans heq.symm)
      rw [hut, h.region_self, h.region_of_ne hvt]
      exact hself v hvt (h.inside hvt hv)
    · rw [h.region_of_ne hut]
      by_cases hvt : v = t
      · rw [hvt, h.region_self]
        exact (hself u hut (h.inside hut hu)).symm
      · rw [h.region_of_ne hvt]
        exact hl.disjoint u v huv (h.inside hut hu) (h.inside hvt hv)

/-- The thread is about to go to sleep for a live one. -/
theorem Registered.waiters (h : Registered s s' w t node) (hwaiters : Waiters s)
    (hlive : s.Live t) (hw : (s.thread w).runs) : Waiters s' := by
  refine ⟨fun v ph u n i hv hl => ?_, fun v ph u n i hv hdead => ?_⟩
  · rw [h.live] at hl
    rw [XTThread.runs, h.state v]
    obtain ⟨rfl, rfl, -, -, -⟩ | ⟨-, hv⟩ := h.place_cases hv
    · exact .inl ⟨rfl, hw⟩
    · exact hwaiters.live v ph u n i hv hl
  · rw [h.live] at hdead
    rw [XTThread.Awake, XTThread.runs, XTThread.terminated, h.state v]
    obtain ⟨-, -, rfl, -, -⟩ | ⟨-, hv⟩ := h.place_cases hv
    · exact absurd hlive hdead
    · exact hwaiters.ended v ph u n i hv hdead

theorem Registered.records (h : Registered s s' w t node) (hr : Records s) : Records s' := by
  refine hr.congr h.created (fun u => ?_) h.result h.incarnation h.code ?_
  · rw [XTThread.terminated, XTThread.terminated, h.state u]
  · rw [h.log]
    exact hr.log

/-- The nodes of creations are in use, so that the new node is none of them. -/
theorem Registered.creations (h : Registered s s' w t node) (hc : Creations s) (hl : Lists s)
    (hlive : s.Live t) (ht : s.created t = true) (hnew : s.nodes.used node = false) :
    Creations s' := by
  have hout : ∀ x ∈ s.linked, x ∉ s.region t := by
    intro x hx hmem
    obtain ⟨-, v, i, hv⟩ := hl.node t ht hlive x hmem
    exact hc.apart t ⟨v, x, i, hv⟩ hmem hx
  have hne : ∀ x ∈ s.linked, x ≠ node := by
    rintro x hx rfl
    rw [hc.used x hx] at hnew
    cases hnew
  refine ⟨fun l => ?_, fun x hx => ?_, fun u hu => ?_⟩
  · obtain ⟨hfirst, hrest⟩ := hc.closed l
    rw [h.heads_kept, h.linked_kept]
    refine ⟨hfirst, fun x hx => ?_⟩
    rw [h.next x (hout x hx) (hne x hx)]
    exact hrest x hx
  · rw [h.linked_kept] at hx
    exact h.used_of_used (hc.used x hx)
  · rw [h.linked_kept]
    by_cases hut : u = t
    · rw [hut, h.region_self]
      intro x hx hmem
      obtain hx | hx := List.mem_append.mp hx
      · exact hout x hmem hx
      · exact hne x hmem (List.mem_singleton.mp hx)
    · rw [h.region_of_ne hut]
      exact hc.apart u (h.inside hut hu)

/-- A running thread outside of the calls registers with a live one. -/
theorem wait_invariant (h : Invariant s) {fuel : ℕ} (hw : (s.thread w).runs)
    (hp : s.place w = .outside) (hcw : s.created w = true) (ht : s.created t = true)
    (hend : (s.thread t).terminated = false) (hnode : node ≠ 0)
    (hnew : s.nodes.used node = false) (hcalm : s.Calm (.wait w t node))
    (hrun : register fuel s w t node = some s') : Invariant s' := by
  have hlive : s.Live t := by
    by_contra hdead
    rw [(h.records.ended t ht).mpr hdead] at hend
    cases hend
  -- the nodes of live lists are in use, so the new one is not among them
  have hfresh : ∀ u, s.created u = true → s.Live u → node ∉ s.region u := by
    intro u hu hl hmem
    rw [(h.lists.node u hu hl node hmem).1] at hnew
    cases hnew
  have hreg := register_spec hrun (h.lists.chain t ht hlive) hnode (hfresh t ht hlive)
  exact ⟨hreg.lists h.lists hlive hp hcw ht hfresh hcalm, hreg.waiters h.waiters hlive hw,
    hreg.records h.records, hreg.creations h.creations h.lists hlive ht hnew⟩

end registered

/-! ### Runs -/

/-- A calm step keeps the invariant. -/
theorem step_invariant {a : Action} (h : Invariant s) (hstep : Step s a s') (hcalm : s.Calm a) :
    Invariant s' := by
  cases hstep with
  | ended hw hp ht hlock hend => exact ended_invariant h ht hend
  | noMemory => exact locked_invariant h _
  | self hw hp => exact stuck_invariant (locked_invariant h _) hp
  | wait hw hp hcw ht hne hlock hend hnode hnew hrun =>
    exact wait_invariant h hw hp hcw ht hend hnode hnew hcalm hrun
  | sleep hp hw => exact sleep_invariant h hp hw
  | resume hp hw => exact goOn_invariant h hp (h.waiters.not_live hp hw nofun) nofun
  | read hp hw => exact read_invariant h hp hw
  | remove hp hw hr => exact remove_invariant h hp hw hr
  | destroy hp hw => exact destroy_invariant h hp hw
  | terminate ht hlock hrun => exact terminate_invariant h ht hcalm hrun
  | create ht hnode hrun => exact create_invariant h ht hnode hcalm hrun

/-- A step that meets no waiter in a bad moment. -/
def CalmStep (s s' : State) : Prop := ∃ a, Step s a s' ∧ s.Calm a

/-- Three running threads, in `threads` and in the list of the process 0. -/
def start : State where
  thread := fun _ => ⟨0, xtThreadRunState, 20, 0, false⟩
  created := fun t => t < 3
  nodes := ⟨fun n => ⟨n / 8 % 3, if n = 40 ∨ n = 64 then 0 else n + 8⟩,
    fun n => decide (24 ≤ n ∧ n ≤ 64)⟩
  heads := fun l => if l = none then 24 else if l = some 0 then 48 else 0
  linked := [24, 32, 40, 48, 56, 64]
  place := fun _ => .outside
  incarnation := fun _ => 0
  region := fun _ => []
  code := fun _ _ => none
  log := []

end XTOS.WaitThread

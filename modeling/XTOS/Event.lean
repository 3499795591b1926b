import XTOS.Lib.Run
import XTOS.LinkedList
import XTOS.Sleep

/-!
# Events

`xtSignalEvent`, `xtResetEvent` and `xtWaitForEvents` of `xtkernel/event.c`, called by any
number of threads. What a thread does while it holds event locks is one step.

## Main definitions

- `State` — the events, the list nodes, the thread records and where each thread is
- `tryWait`, `register`, `removeFromEvent` — the parts of `xtWaitForEvents`
- `State.exec` — one step of one thread, or of the timer
- `State.signals`, `State.log` — the history: signals sent and waits returned

## Main results

- `signals_consumed_once` — the signals consumed and pending are at most those sent

## Design notes

The timer interrupt may come at any time, and the rest of the scheduler only changes the
`ticks` of running threads. Loops over lists have fuel: a list that is not closed keeps a
thread in its step for ever. Which flags a wait consumed is read off the flags before and
after its step, not off the code.
-/

namespace XTOS.Event

open SysLib XTOS.LinkedList XTOS.Sleep
open XTOS.Process (XTThread)

/-- `XT_WAIT_FOR_ALL`. -/
def xtWaitForAll : ℕ := 1

/-- `UINT64_MAX`, the wait without a timeout. -/
def infinite : ℕ := 2 ^ 64 - 1

/-- `XTEvent` without its lock. -/
structure XTEvent where
  list : ℕ
  isSignaled : Bool
  deriving DecidableEq, Repr

/-- The arguments of `xtWaitForEvents`; `index` tells whether its pointer is given. -/
structure Wait where
  events : List ℕ
  flags : ℕ
  milliseconds : ℕ
  index : Bool
  deriving DecidableEq, Repr

/-- `flags & XT_WAIT_FOR_ALL`. -/
def Wait.all (w : Wait) : Bool := w.flags &&& xtWaitForAll ≠ 0

/-- Where a thread is: outside, at the top of the loop, behind the registration, switched
    away, or in `removeFromAllEvents` at an index. -/
inductive Phase where
  | idle
  | check (w : Wait)
  | sleep (w : Wait)
  | asleep (w : Wait)
  | remove (w : Wait) (i : ℕ)
  deriving DecidableEq, Repr

/-- A wait that returned: its result, the index it reported and the events whose flag it
    cleared. -/
structure Return where
  thread : ℕ
  wait : Wait
  result : XTResult
  index : Option ℕ
  consumed : List ℕ
  deriving DecidableEq, Repr

/-- The memory shared by the threads, their places, and the history. -/
structure State where
  event : ℕ → XTEvent
  nodes : NodeHeap
  thread : Threads
  phase : ℕ → Phase
  signals : ℕ → ℕ
  log : List Return

/-- Change one event. -/
def State.modifyEvent (s : State) (e : ℕ) (f : XTEvent → XTEvent) : State :=
  { s with event := Function.update s.event e (f (s.event e)) }

/-- Change the place of a thread. -/
def State.goTo (s : State) (t : ℕ) (p : Phase) : State :=
  { s with phase := Function.update s.phase t p }

/-- The flag of an event. -/
def State.isSignaled (s : State) (e : ℕ) : Bool := (s.event e).isSignaled

/-- `event->isSignaled = 0`. -/
def State.clear (s : State) (e : ℕ) : State :=
  s.modifyEvent e fun ev => { ev with isSignaled := false }

/-- `xtResetEvent`. -/
def xtResetEvent (s : State) (e : ℕ) : State := s.clear e

/-- The loop of `xtSignalEvent`: wake the thread of every node and destroy the node. -/
def wakeAll : ℕ → NodeHeap → Threads → ℕ → Option (NodeHeap × Threads)
  | 0, _, _, _ => none
  | fuel + 1, H, m, l =>
    if l = 0 then some (H, m)
    else wakeAll fuel (xtDestroyList H l) (m.modify (H.data l) xtWakeUpThread) (H.next l)

/-- `xtSignalEvent`. -/
def xtSignalEvent (fuel : ℕ) (s : State) (e : ℕ) : Option State :=
  (wakeAll fuel s.nodes s.thread (s.event e).list).map fun (H, m) =>
    { s.modifyEvent e fun _ => ⟨0, true⟩ with
      nodes := H
      thread := m
      signals := Function.update s.signals e (s.signals e + 1) }

/-- The first phase of `xtWaitForEvents`: the events cleared and the index found, if the wait
    is over. -/
def tryWait (s : State) (w : Wait) : Option (State × Option ℕ) :=
  if w.all then
    if w.events.all s.isSignaled then some (w.events.foldl State.clear s, none) else none
  else
    (w.events.findIdx? s.isSignaled).map fun i => (s.clear (w.events.getD i 0), some i)

/-- The second phase: a new node on the list of every event. `xtCreateList` takes the given
    blocks, and leaves a null pointer where there is none. -/
def register (fuel t : ℕ) : List ℕ → List (Option ℕ) → State → Option State
  | [], _, s => some s
  | e :: es, blocks, s =>
    let node := (blocks.headD none).getD 0
    if node ≠ 0 ∧ s.nodes.used node then none else
    let H := if node = 0 then s.nodes else xtCreateList s.nodes t node
    let l := (s.event e).list
    if l = 0 then
      register fuel t es blocks.tail
        { s.modifyEvent e fun ev => { ev with list := node } with nodes := H }
    else
      (xtAppendList fuel H l node).bind fun H =>
        register fuel t es blocks.tail { s with nodes := H }

/-- The search of `removeFromAllEvents` in the list of one event. -/
def removeFromEvent (t e : ℕ) : ℕ → State → ℕ → ℕ → Option State
  | 0, _, _, _ => none
  | fuel + 1, s, prev, cur =>
    if cur = 0 then some s
    else
      let next := s.nodes.next cur
      if s.nodes.data cur = t then
        let s : State := if prev = 0 then s.modifyEvent e fun ev => { ev with list := next }
          else { s with nodes := (xtSetNextList s.nodes prev next).1 }
        some { s with nodes := xtDestroyList s.nodes cur }
      else removeFromEvent t e fuel s cur next

/-- The events of `es` whose flag is set in `s` and not in `s'`. -/
def consumed (s s' : State) (es : List ℕ) : List ℕ :=
  es.filter fun e => s.isSignaled e && !s'.isSignaled e

/-- A wait returns in the step from `old`. -/
def State.return (s old : State) (t : ℕ) (w : Wait) (result : XTResult) (index : Option ℕ) :
    State :=
  { s.goTo t .idle with log := ⟨t, w, result, index, consumed old s w.events⟩ :: s.log }

/-- A step of a thread, or of the scheduler for a thread. -/
inductive Action where
  | signal (t e : ℕ)
  | reset (t e : ℕ)
  | call (t : ℕ) (w : Wait)
  | check (t : ℕ) (blocks : List (Option ℕ))
  | sleep (t : ℕ)
  | resume (t : ℕ)
  | remove (t : ℕ)
  | again (t : ℕ)
  | tick (t : ℕ)
  | quantum (t ticks : ℕ)

/-- One step; `none` if the thread is somewhere else. -/
def State.exec (fuel : ℕ) (s : State) : Action → Option State
  | .signal t e => if s.phase t = .idle then xtSignalEvent fuel s e else none
  | .reset t e => if s.phase t = .idle then some (xtResetEvent s e) else none
  | .call t w =>
    if s.phase t = .idle then
      if w.events = [] then some (s.return s t w .success none) else some (s.goTo t (.check w))
    else none
  | .check t blocks =>
    match s.phase t with
    | .check w =>
      match tryWait s w with
      | some (s', i) => some (s'.return s t w .success (if w.index then i else none))
      | none => (register fuel t w.events blocks s).map fun s => s.goTo t (.sleep w)
    | _ => none
  | .sleep t =>
    match s.phase t with
    | .sleep w =>
      -- a wait without a timeout only switches to another thread
      let m := if w.milliseconds ≠ infinite then
        s.thread.modify t (xtSleepThread · w.milliseconds) else s.thread
      some { s.goTo t (.asleep w) with thread := m }
    | _ => none
  | .resume t =>
    match s.phase t with
    | .asleep w => if (s.thread t).runs then some (s.goTo t (.remove w 0)) else none
    | _ => none
  | .remove t =>
    match s.phase t with
    | .remove w i =>
      if i < w.events.length then
        let e := w.events.getD i 0
        (removeFromEvent t e fuel s 0 (s.event e).list).map fun s => s.goTo t (.remove w (i + 1))
      else none
    | _ => none
  | .again t =>
    match s.phase t with
    | .remove w i =>
      if i < w.events.length then none
      else if w.milliseconds ≠ infinite ∧ (s.thread t).ticks = 0 then
        some (s.return s t w .timeout none)
      else some (s.goTo t (.check w))
    | _ => none
  | .tick t => some { s with thread := s.thread.modify t wakeUpPass }
  | .quantum t ticks =>
    if (s.thread t).runs then
      some { s with thread := s.thread.modify t fun th => { th with ticks := ticks } }
    else none

/-- New events, and no thread in a wait. -/
structure State.Initial (s : State) : Prop where
  event : ∀ e, s.event e = ⟨0, false⟩
  phase : ∀ t, s.phase t = .idle
  signals : ∀ e, s.signals e = 0
  log : s.log = []

/-- The arrays that waits are called with have distinct events. -/
def Action.Distinct : Action → Prop
  | .call _ w => w.events.Nodup
  | _ => True

/-- A step in which waits are called with distinct events. -/
def Step (s s' : State) : Prop := ∃ fuel a, a.Distinct ∧ s.exec fuel a = some s'

/-! ### Flags -/

variable {s s' : State}

@[simp] theorem goTo_isSignaled (s : State) (t : ℕ) (p : Phase) :
    (s.goTo t p).isSignaled = s.isSignaled := rfl

@[simp] theorem return_isSignaled (s old : State) (t : ℕ) (w : Wait) (result : XTResult)
    (index : Option ℕ) : (s.return old t w result index).isSignaled = s.isSignaled := rfl

theorem isSignaled_modifyEvent (s : State) (e : ℕ) (f : XTEvent → XTEvent) :
    (s.modifyEvent e f).isSignaled = Function.update s.isSignaled e (f (s.event e)).isSignaled := by
  funext x
  by_cases hx : x = e
  · subst hx
    simp [State.isSignaled, State.modifyEvent]
  · simp [State.isSignaled, State.modifyEvent, hx]

theorem isSignaled_clear (s : State) (e : ℕ) :
    (s.clear e).isSignaled = Function.update s.isSignaled e false :=
  isSignaled_modifyEvent s e _

theorem isSignaled_clear_all (s : State) (es : List ℕ) (x : ℕ) :
    (es.foldl State.clear s).isSignaled x = (s.isSignaled x && !decide (x ∈ es)) := by
  induction es generalizing s with
  | nil => simp
  | cons e es ih =>
    rw [List.foldl_cons, ih, isSignaled_clear]
    by_cases hx : x = e
    · simp [hx]
    · simp [hx]

/-- Nothing but lists, nodes and thread records changes. -/
structure SameFlags (s s' : State) : Prop where
  isSignaled : s'.isSignaled = s.isSignaled
  phase : s'.phase = s.phase
  signals : s'.signals = s.signals
  log : s'.log = s.log

theorem SameFlags.trans {s₁ s₂ s₃ : State} (h : SameFlags s₁ s₂) (h' : SameFlags s₂ s₃) :
    SameFlags s₁ s₃ :=
  ⟨h'.isSignaled.trans h.isSignaled, h'.phase.trans h.phase, h'.signals.trans h.signals,
    h'.log.trans h.log⟩

/-- A new list pointer does not change the flag. -/
theorem sameFlags_list (s : State) (e l : ℕ) (H : NodeHeap) :
    SameFlags s { s.modifyEvent e fun ev => { ev with list := l } with nodes := H } := by
  have hflag := isSignaled_modifyEvent s e fun ev => { ev with list := l }
  exact ⟨hflag.trans (Function.update_eq_self e s.isSignaled), rfl, rfl, rfl⟩

theorem sameFlags_register {fuel t : ℕ} {es : List ℕ} {blocks : List (Option ℕ)}
    (h : register fuel t es blocks s = some s') : SameFlags s s' := by
  induction es generalizing blocks s with
  | nil =>
    obtain rfl := Option.some.inj h
    exact ⟨rfl, rfl, rfl, rfl⟩
  | cons e es ih =>
    rw [register] at h
    dsimp only at h
    split_ifs at h
    · exact (sameFlags_list s e _ _).trans (ih h)
    · exact (sameFlags_list s e _ _).trans (ih h)
    · obtain ⟨H, -, h⟩ := Option.bind_eq_some_iff.mp h
      have hstep : SameFlags s { s with nodes := H } := ⟨rfl, rfl, rfl, rfl⟩
      exact hstep.trans (ih h)
    · obtain ⟨H, -, h⟩ := Option.bind_eq_some_iff.mp h
      have hstep : SameFlags s { s with nodes := H } := ⟨rfl, rfl, rfl, rfl⟩
      exact hstep.trans (ih h)

theorem sameFlags_removeFromEvent {t e fuel prev cur : ℕ}
    (h : removeFromEvent t e fuel s prev cur = some s') : SameFlags s s' := by
  induction fuel generalizing prev cur with
  | zero => cases h
  | succ fuel ih =>
    rw [removeFromEvent] at h
    dsimp only at h
    split_ifs at h
    · obtain rfl := Option.some.inj h
      exact ⟨rfl, rfl, rfl, rfl⟩
    · obtain rfl := Option.some.inj h
      exact sameFlags_list s e _ _
    · obtain rfl := Option.some.inj h
      exact ⟨rfl, rfl, rfl, rfl⟩
    · exact ih h

/-! ### What a wait consumes -/

/-- A wait for all that succeeds consumes all its events, one for any the event it reports,
    and one that fails none. -/
structure Return.Correct (r : Return) : Prop where
  all : r.result = .success → r.wait.all = true → r.consumed = r.wait.events
  any : r.result = .success → r.wait.all = false → r.wait.events ≠ [] →
    ∃ i e, r.wait.events[i]? = some e ∧ r.consumed = [e] ∧ (r.wait.index → r.index = some i)
  failed : r.result ≠ .success → r.consumed = []

/-- The flags that a step from `s` to `s'` clears are those of `es`. -/
structure Clears (s s' : State) (es : List ℕ) : Prop where
  set : ∀ e ∈ es, s.isSignaled e = true
  clear : ∀ e, s'.isSignaled e = (s.isSignaled e && !decide (e ∈ es))
  phase : s'.phase = s.phase
  signals : s'.signals = s.signals
  log : s'.log = s.log

theorem clears_clear {e : ℕ} (h : s.isSignaled e = true) : Clears s (s.clear e) [e] := by
  refine ⟨by simpa using h, fun x => ?_, rfl, rfl, rfl⟩
  rw [isSignaled_clear]
  by_cases hx : x = e
  · simp [hx]
  · simp [hx]

theorem clears_all {es : List ℕ} (h : ∀ e ∈ es, s.isSignaled e = true) :
    Clears s (es.foldl State.clear s) es := by
  have hframe : (es.foldl State.clear s).phase = s.phase ∧
      (es.foldl State.clear s).signals = s.signals ∧ (es.foldl State.clear s).log = s.log := by
    clear h
    induction es generalizing s with
    | nil => exact ⟨rfl, rfl, rfl⟩
    | cons e es ih => exact ih
  exact ⟨h, isSignaled_clear_all s es, hframe.1, hframe.2.1, hframe.2.2⟩

/-- Of the events waited for, a step consumes those it clears. -/
theorem Clears.consumed {es ws : List ℕ} (h : Clears s s' es)
    (hes : ws.filter (· ∈ es) = es) : consumed s s' ws = es := by
  rw [Event.consumed]
  refine (List.filter_congr fun e _ => ?_).trans hes
  rw [h.clear e]
  by_cases he : e ∈ es
  · simp [he, h.set e he]
  · simp [he]

theorem filter_singleton {ws : List ℕ} (h : ws.Nodup) {e : ℕ} (he : e ∈ ws) :
    ws.filter (· ∈ [e]) = [e] := by
  simp only [List.mem_singleton]
  rw [List.filter_eq, List.count_eq_one_of_mem h he]
  rfl

/-- A first phase that succeeds clears all flags of its array, or the one it found. -/
theorem tryWait_clears {w : Wait} {i : Option ℕ} (h : tryWait s w = some (s', i)) :
    w.all = true ∧ Clears s s' w.events ∨
      w.all = false ∧ ∃ k e, w.events[k]? = some e ∧ i = some k ∧ Clears s s' [e] := by
  rw [tryWait] at h
  by_cases hall : w.all = true
  · rw [if_pos hall] at h
    split_ifs at h with hset
    obtain ⟨rfl, -⟩ := Prod.mk.inj (Option.some.inj h)
    exact .inl ⟨hall, clears_all fun e he => List.all_eq_true.mp hset e he⟩
  · rw [if_neg hall, Option.map_eq_some_iff] at h
    obtain ⟨k, hk, heq⟩ := h
    obtain ⟨rfl, rfl⟩ := Prod.mk.inj heq
    obtain ⟨hlt, hset, -⟩ := List.findIdx?_eq_some_iff_getElem.mp hk
    have hget : w.events.getD k 0 = w.events[k] := by simp [hlt]
    rw [hget]
    exact .inr ⟨by simpa using hall, k, w.events[k], List.getElem?_eq_getElem hlt, rfl,
      clears_clear hset⟩

theorem tryWait_phase {w : Wait} {i : Option ℕ} (h : tryWait s w = some (s', i)) :
    s'.phase = s.phase := by
  obtain ⟨-, hc⟩ | ⟨-, k, e, -, -, hc⟩ := tryWait_clears h
  · exact hc.phase
  · exact hc.phase

/-- The flags it clears are those of the events it should consume. -/
theorem tryWait_spec {w : Wait} {i : Option ℕ} (h : tryWait s w = some (s', i))
    (hnd : w.events.Nodup) (t : ℕ) :
    Clears s s' (consumed s s' w.events) ∧
      Return.Correct ⟨t, w, .success, if w.index then i else none, consumed s s' w.events⟩ := by
  obtain ⟨hall, hclears⟩ | ⟨hall, k, e, hk, rfl, hclears⟩ := tryWait_clears h
  · rw [hclears.consumed (List.filter_eq_self.mpr fun e he => by simpa using he)]
    refine ⟨hclears, fun _ _ => rfl, fun _ hany => ?_, fun hfail => absurd rfl hfail⟩
    rw [hall] at hany
    cases hany
  · rw [hclears.consumed (filter_singleton hnd (List.mem_of_getElem? hk))]
    refine ⟨hclears, fun _ hall' => ?_, fun _ _ _ => ?_, fun hfail => absurd rfl hfail⟩
    · rw [hall] at hall'
      cases hall'
    · exact ⟨k, e, hk, rfl, fun hindex => if_pos hindex⟩

/-! ### One step -/

/-- What a step does. -/
inductive Stepped (fuel : ℕ) (s : State) : Action → State → Prop
  | signal {t e : ℕ} {s' : State} (hp : s.phase t = .idle)
      (h : xtSignalEvent fuel s e = some s') : Stepped fuel s (.signal t e) s'
  | reset {t e : ℕ} (hp : s.phase t = .idle) : Stepped fuel s (.reset t e) (xtResetEvent s e)
  | callEmpty {t : ℕ} {w : Wait} (hp : s.phase t = .idle) (hw : w.events = []) :
      Stepped fuel s (.call t w) (s.return s t w .success none)
  | call {t : ℕ} {w : Wait} (hp : s.phase t = .idle) (hw : w.events ≠ []) :
      Stepped fuel s (.call t w) (s.goTo t (.check w))
  | success {t : ℕ} {blocks : List (Option ℕ)} {w : Wait} {s' : State} {i : Option ℕ}
      (hp : s.phase t = .check w) (h : tryWait s w = some (s', i)) :
      Stepped fuel s (.check t blocks)
        (s'.return s t w .success (if w.index then i else none))
  | register {t : ℕ} {blocks : List (Option ℕ)} {w : Wait} {s' : State}
      (hp : s.phase t = .check w) (hw : tryWait s w = none)
      (h : register fuel t w.events blocks s = some s') :
      Stepped fuel s (.check t blocks) (s'.goTo t (.sleep w))
  | sleep {t : ℕ} {w : Wait} (hp : s.phase t = .sleep w) (m : Threads) :
      Stepped fuel s (.sleep t) { s.goTo t (.asleep w) with thread := m }
  | resume {t : ℕ} {w : Wait} (hp : s.phase t = .asleep w) (hruns : (s.thread t).runs) :
      Stepped fuel s (.resume t) (s.goTo t (.remove w 0))
  | remove {t i : ℕ} {w : Wait} {s' : State} (hp : s.phase t = .remove w i)
      (hi : i < w.events.length)
      (h : removeFromEvent t (w.events.getD i 0) fuel s 0
        (s.event (w.events.getD i 0)).list = some s') :
      Stepped fuel s (.remove t) (s'.goTo t (.remove w (i + 1)))
  | timeout {t i : ℕ} {w : Wait} (hp : s.phase t = .remove w i) :
      Stepped fuel s (.again t) (s.return s t w .timeout none)
  | again {t i : ℕ} {w : Wait} (hp : s.phase t = .remove w i) :
      Stepped fuel s (.again t) (s.goTo t (.check w))
  | threads {a : Action} (m : Threads) : Stepped fuel s a { s with thread := m }

/-- All the ways in which a step can go. -/
theorem exec_cases {fuel : ℕ} {a : Action} (h : s.exec fuel a = some s') :
    Stepped fuel s a s' := by
  cases a with
  | signal t e =>
    rw [State.exec] at h
    split_ifs at h with hp
    exact .signal hp h
  | reset t e =>
    rw [State.exec] at h
    split_ifs at h with hp
    obtain rfl := Option.some.inj h
    exact .reset hp
  | call t w =>
    rw [State.exec] at h
    split_ifs at h with hp hw
    · obtain rfl := Option.some.inj h
      exact .callEmpty hp hw
    · obtain rfl := Option.some.inj h
      exact .call hp hw
  | check t blocks =>
    rw [State.exec] at h
    split at h
    · rename_i w hp
      split at h
      · rename_i s₁ i hw
        obtain rfl := Option.some.inj h
        exact .success hp hw
      · rename_i hw
        obtain ⟨s₁, hr, rfl⟩ := Option.map_eq_some_iff.mp h
        exact .register hp hw hr
    · cases h
  | sleep t =>
    rw [State.exec] at h
    split at h
    · rename_i w hp
      obtain rfl := Option.some.inj h
      exact .sleep hp _
    · cases h
  | resume t =>
    rw [State.exec] at h
    split at h
    · rename_i w hp
      split_ifs at h with hruns
      obtain rfl := Option.some.inj h
      exact .resume hp hruns
    · cases h
  | remove t =>
    rw [State.exec] at h
    split at h
    · rename_i w i hp
      split_ifs at h with hi
      obtain ⟨s₁, hr, rfl⟩ := Option.map_eq_some_iff.mp h
      exact .remove hp hi hr
    · cases h
  | again t =>
    rw [State.exec] at h
    split at h
    · rename_i w i hp
      split_ifs at h with hi hticks
      · obtain rfl := Option.some.inj h
        exact .timeout hp
      · obtain rfl := Option.some.inj h
        exact .again hp
    · cases h
  | tick t =>
    obtain rfl := Option.some.inj h
    exact .threads _
  | quantum t ticks =>
    rw [State.exec] at h
    split_ifs at h
    obtain rfl := Option.some.inj h
    exact .threads _

/-- The wait a thread is in. -/
def Phase.wait? : Phase → Option Wait
  | .idle => none
  | .check w | .sleep w | .asleep w | .remove w _ => some w

/-- Every array a thread waits with has distinct events. -/
def State.Distinct (s : State) : Prop :=
  ∀ t w, (s.phase t).wait? = some w → w.events.Nodup

theorem goTo_wait {t u : ℕ} {p : Phase} {w : Wait} (h : ((s.goTo t p).phase u).wait? = some w) :
    u = t ∧ p.wait? = some w ∨ (s.phase u).wait? = some w := by
  rw [State.goTo] at h
  exact (update_cases (P := fun q : Phase => q.wait? = some w) h).imp_right And.right

/-- The place of a thread changes within its wait. -/
theorem goTo_same {t u : ℕ} {p : Phase} {w w' : Wait} (h : s.phase t = p) (hp : p.wait? = some w)
    {p' : Phase} (hp' : p'.wait? = none ∨ p'.wait? = some w)
    (hw : ((s.goTo t p').phase u).wait? = some w') : (s.phase u).wait? = some w' := by
  obtain ⟨rfl, hnew⟩ | hold := goTo_wait hw
  · obtain hp' | hp' := hp'
    · rw [hp'] at hnew
      cases hnew
    · rw [h, hp, ← hp', hnew]
  · exact hold

/-- A thread that is in a wait after a step was in the same wait before, or has just called
    it. -/
theorem exec_wait {fuel : ℕ} {a : Action} (h : s.exec fuel a = some s') {u : ℕ} {w : Wait}
    (hw : (s'.phase u).wait? = some w) : (s.phase u).wait? = some w ∨ a = .call u w := by
  cases exec_cases h with
  | signal hp hs =>
    obtain ⟨x, -, rfl⟩ := Option.map_eq_some_iff.mp hs
    exact .inl hw
  | reset hp => exact .inl hw
  | callEmpty hp _ =>
    obtain ⟨-, hnew⟩ | hold := goTo_wait hw
    · cases hnew
    · exact .inl hold
  | call hp _ =>
    obtain ⟨rfl, hnew⟩ | hold := goTo_wait hw
    · obtain rfl := Option.some.inj hnew
      exact .inr rfl
    · exact .inl hold
  | success hp hs =>
    rw [← tryWait_phase hs] at hp ⊢
    exact .inl (goTo_same hp rfl (.inl rfl) hw)
  | register hp _ hr =>
    rw [← (sameFlags_register hr).phase] at hp ⊢
    exact .inl (goTo_same hp rfl (.inr rfl) hw)
  | sleep hp m => exact .inl (goTo_same hp rfl (.inr rfl) hw)
  | resume hp _ => exact .inl (goTo_same hp rfl (.inr rfl) hw)
  | remove hp _ hr =>
    rw [← (sameFlags_removeFromEvent hr).phase] at hp ⊢
    exact .inl (goTo_same hp rfl (.inr rfl) hw)
  | timeout hp => exact .inl (goTo_same hp rfl (.inl rfl) hw)
  | again hp => exact .inl (goTo_same hp rfl (.inr rfl) hw)
  | threads m => exact .inl hw

theorem exec_distinct {fuel : ℕ} {a : Action} (h : s.exec fuel a = some s') (ha : a.Distinct)
    (hs : s.Distinct) : s'.Distinct := by
  intro u w hw
  obtain hold | rfl := exec_wait h hw
  · exact hs u w hold
  · exact ha

/-- What a step does to the flags and to the history. -/
inductive Effect (s s' : State) : Action → Prop
  | signal {t e : ℕ} (hflag : s'.isSignaled = Function.update s.isSignaled e true)
      (hsignals : s'.signals = Function.update s.signals e (s.signals e + 1))
      (hlog : s'.log = s.log) : Effect s s' (.signal t e)
  | reset {t e : ℕ} (hflag : s'.isSignaled = Function.update s.isSignaled e false)
      (hsignals : s'.signals = s.signals) (hlog : s'.log = s.log) : Effect s s' (.reset t e)
  | returned {a : Action} (r : Return) (hset : ∀ e ∈ r.consumed, s.isSignaled e = true)
      (hflag : ∀ e, s'.isSignaled e = (s.isSignaled e && !decide (e ∈ r.consumed)))
      (hphase : s'.phase r.thread = .idle) (hcorrect : r.Correct)
      (hsignals : s'.signals = s.signals) (hlog : s'.log = r :: s.log) : Effect s s' a
  | none {a : Action} (hflag : s'.isSignaled = s.isSignaled) (hsignals : s'.signals = s.signals)
      (hlog : s'.log = s.log) : Effect s s' a

theorem goTo_phase_self (s : State) (t : ℕ) (p : Phase) : (s.goTo t p).phase t = p :=
  Function.update_self _ _ _

/-- A wait that returns without looking at a flag consumes nothing. -/
theorem consumed_self (s : State) (es : List ℕ) : consumed s s es = [] := by
  rw [consumed, List.filter_eq_nil_iff]
  intro e _
  simp

theorem returned_effect {t : ℕ} {w : Wait} {r : XTResult} (a : Action)
    (hcorrect : Return.Correct ⟨t, w, r, none, []⟩) : Effect s (s.return s t w r none) a := by
  have hlog : (s.return s t w r none).log = ⟨t, w, r, none, []⟩ :: s.log := by
    rw [State.return, consumed_self]
  exact .returned ⟨t, w, r, none, []⟩ (by simp) (by simp) (goTo_phase_self s t .idle) hcorrect
    rfl hlog

theorem exec_effect {fuel : ℕ} {a : Action} (hs : s.Distinct) (h : s.exec fuel a = some s') :
    Effect s s' a := by
  cases exec_cases h with
  | @signal t e s₁ hp hs =>
    obtain ⟨⟨H, m⟩, -, rfl⟩ := Option.map_eq_some_iff.mp hs
    exact .signal (isSignaled_modifyEvent s e fun _ => ⟨0, true⟩) rfl rfl
  | reset hp => exact .reset (isSignaled_clear s _) rfl rfl
  | callEmpty hp hw =>
    refine returned_effect _ ⟨fun _ _ => hw.symm, fun _ _ hne => absurd hw hne, fun _ => rfl⟩
  | call hp _ => exact .none rfl rfl rfl
  | @success t blocks w s₁ i hp hw =>
    have hnd := hs t w (by rw [hp]; rfl)
    obtain ⟨hclears, hcorrect⟩ := tryWait_spec hw hnd t
    exact .returned ⟨t, w, .success, if w.index then i else none, consumed s s₁ w.events⟩
      hclears.set hclears.clear (goTo_phase_self s₁ t .idle) hcorrect hclears.signals
      (congrArg (List.cons _) hclears.log)
  | register hp _ hr =>
    have hsame := sameFlags_register hr
    exact .none hsame.isSignaled hsame.signals hsame.log
  | sleep hp m => exact .none rfl rfl rfl
  | resume hp _ => exact .none rfl rfl rfl
  | remove hp _ hr =>
    have hsame := sameFlags_removeFromEvent hr
    exact .none hsame.isSignaled hsame.signals hsame.log
  | timeout hp =>
    refine returned_effect _ ⟨fun hok => ?_, fun hok => ?_, fun _ => rfl⟩
    · cases hok
    · cases hok
  | again hp => exact .none rfl rfl rfl
  | threads m => exact .none rfl rfl rfl

/-! ### Runs -/

/-- The waits in the history that consumed an event. -/
def State.taken (s : State) (e : ℕ) : ℕ := s.log.countP (e ∈ ·.consumed)

/-- The signals of every event are consumed, pending or lost. -/
structure Invariant (s : State) : Prop where
  distinct : s.Distinct
  count : ∀ e, s.taken e + (if s.isSignaled e then 1 else 0) ≤ s.signals e
  correct : ∀ r ∈ s.log, r.Correct

theorem State.Initial.invariant (h : s.Initial) : Invariant s := by
  refine ⟨?_, ?_, ?_⟩
  · intro t w hw
    rw [h.phase t] at hw
    cases hw
  · intro e
    simp [State.taken, State.isSignaled, h.log, h.event e]
  · simp [h.log]

/-- Every step keeps the account of every event. -/
theorem step_invariant (hs : Invariant s) (h : Step s s') : Invariant s' := by
  obtain ⟨fuel, a, ha, h⟩ := h
  have hdistinct := exec_distinct h ha hs.distinct
  cases exec_effect hs.distinct h with
  | @signal t e hflag hsignals hlog =>
    refine ⟨hdistinct, fun x => ?_, by rw [hlog]; exact hs.correct⟩
    have hx := hs.count x
    rw [State.taken, hlog, hflag, hsignals]
    rw [State.taken] at hx
    by_cases heq : x = e
    · subst heq
      simp only [Function.update_self]
      simp only [if_true]
      omega
    · simpa [Function.update_of_ne heq] using hx
  | @reset t e hflag hsignals hlog =>
    refine ⟨hdistinct, fun x => ?_, by rw [hlog]; exact hs.correct⟩
    have hx := hs.count x
    rw [State.taken, hlog, hflag, hsignals]
    rw [State.taken] at hx
    by_cases heq : x = e
    · subst heq
      simp only [Function.update_self]
      simp only [Bool.false_eq_true, if_false]
      omega
    · simpa [Function.update_of_ne heq] using hx
  | returned r hset hflag _ hcorrect hsignals hlog =>
    refine ⟨hdistinct, fun x => ?_, ?_⟩
    · have hx := hs.count x
      rw [State.taken, hlog, hsignals, List.countP_cons]
      rw [State.taken] at hx
      by_cases hmem : x ∈ r.consumed
      · rw [hflag x, hset x hmem]
        rw [hset x hmem] at hx
        simpa [hmem] using hx
      · rw [hflag x]
        simpa [hmem] using hx
    · rw [hlog]
      exact List.forall_mem_cons.mpr ⟨hcorrect, hs.correct⟩
  | none hflag hsignals hlog =>
    refine ⟨hdistinct, fun x => ?_, by rw [hlog]; exact hs.correct⟩
    have hx := hs.count x
    rwa [State.taken, hlog, hflag, hsignals]

/-- Only a reset or a wait that returns in this step clears a flag. -/
theorem exec_clears {fuel : ℕ} {a : Action} (hs : s.Distinct) (h : s.exec fuel a = some s')
    {e : ℕ} (hset : s.isSignaled e = true) (hclear : s'.isSignaled e = false) :
    (∃ t, a = .reset t e) ∨ ∃ r, s'.log = r :: s.log ∧ e ∈ r.consumed := by
  cases exec_effect hs h with
  | @signal t e' hflag =>
    rw [hflag, Function.update_apply, hset] at hclear
    split_ifs at hclear
  | @reset t e' hflag =>
    rw [hflag, Function.update_apply, hset] at hclear
    split_ifs at hclear with heq
    exact .inl ⟨t, by rw [heq]⟩
  | returned r _ hflag _ _ _ hlog =>
    rw [hflag e, hset] at hclear
    exact .inr ⟨r, hlog, by simpa using hclear⟩
  | none hflag =>
    rw [hflag, hset] at hclear
    cases hclear

/-- A wait that returns has cleared the flags of the events it consumed, in this step. -/
theorem exec_returned {fuel : ℕ} {a : Action} (hs : s.Distinct) (h : s.exec fuel a = some s')
    {r : Return} (hr : s'.log = r :: s.log) :
    s'.phase r.thread = .idle ∧
      ∀ e ∈ r.consumed, s.isSignaled e = true ∧ s'.isSignaled e = false := by
  cases exec_effect hs h with
  | signal _ _ hlog => simp [hlog] at hr
  | reset _ _ hlog => simp [hlog] at hr
  | returned r' hset hflag hphase _ _ hlog =>
    obtain ⟨rfl, -⟩ := List.cons.inj (hlog.symm.trans hr)
    exact ⟨hphase, fun e he => ⟨hset e he, by rw [hflag e]; simp [he]⟩⟩
  | none _ _ hlog => simp [hlog] at hr

/-- In every state that new events and any steps lead to, the waits that consumed an event and
    its pending signal are at most the signals sent; a wait for all that succeeded consumed all
    its events, one for any exactly the event it reported, and any other wait none; and a flag
    is cleared only by a reset or by a wait, in the one step in which it returns. -/
theorem signals_consumed_once (h : Reachable State.Initial Step s) :
    (∀ e, s.taken e + (if s.isSignaled e then 1 else 0) ≤ s.signals e) ∧
      (∀ r ∈ s.log, r.Correct) ∧
      ∀ fuel a s', a.Distinct → s.exec fuel a = some s' →
        (∀ r, s'.log = r :: s.log → s'.phase r.thread = .idle ∧
          ∀ e ∈ r.consumed, s.isSignaled e = true ∧ s'.isSignaled e = false) ∧
        ∀ e, s.isSignaled e = true → s'.isSignaled e = false →
          (∃ t, a = .reset t e) ∨ ∃ r, s'.log = r :: s.log ∧ e ∈ r.consumed := by
  have hinv : Invariant s :=
    h.invariant (fun _ h0 => h0.invariant) fun _ _ hs hstep => step_invariant hs hstep
  refine ⟨hinv.count, hinv.correct, fun fuel a s' _ hexec => ⟨fun r hr => ?_, fun e => ?_⟩⟩
  · exact exec_returned hinv.distinct hexec hr
  · exact exec_clears hinv.distinct hexec

/-- Events that nobody has used yet, with all threads running. -/
def fresh : State :=
  { event := fun _ => ⟨0, false⟩
    nodes := ⟨fun _ => ⟨0, 0⟩, fun _ => false⟩
    thread := fun _ => ⟨0, 0, 1, 20, 20, 0, 0, []⟩
    phase := fun _ => .idle
    signals := fun _ => 0
    log := [] }

/-- One signal, consumed by a wait for one of two events. -/
theorem signals_consumed_once_two :
    ∃ s, Reachable State.Initial Step s ∧ s.taken 7 = 1 ∧ s.signals 7 = 1 ∧
      s.taken 7 + (if s.isSignaled 7 then 1 else 0) ≤ s.signals 7 := by
  have hrun : Reachable State.Initial Step fresh :=
    .start ⟨fun _ => rfl, fun _ => rfl, fun _ => rfl, rfl⟩
  have hlast := (hrun.next ⟨1, .signal 1 7, trivial, rfl⟩).next
    ⟨1, .call 2 ⟨[6, 7], 0, infinite, true⟩, by simp [Action.Distinct], rfl⟩ |>.next
    ⟨1, .check 2 [], trivial, rfl⟩
  exact ⟨_, hlast, by decide, by decide, (signals_consumed_once hlast).1 7⟩

end XTOS.Event

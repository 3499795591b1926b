import XTOS.Event
import XTOS.Lib.Locks

/-!
# The locks of events

`XTOS.Event` with the event locks taken and released one at a time, on several processors.
A step of the events is done by a thread that has taken all locks it needs.

## Main definitions

- `State.locks` — the event locks of a step, in the order in which they are taken
- `LockState`, `LockStep` — the events with the busy flags of their locks
- `Deadlocked` — a cycle of threads that spin for a lock of the next one
- `Crossing` — arrays whose locks can be taken half by each of some threads

## Main results

- `deadlock_free_iff` — deadlocks are reachable for exactly the crossing arrays
- `not_crossing_of_rank` — arrays in the order of a rank do not cross

## Design notes

The locks of thread records are taken and released while no other lock is waited for, so they
are not on any cycle and are left out.
-/

namespace XTOS.Event

open SysLib

/-- The thread of a step; the timer has none. -/
def Action.thread? : Action → Option ℕ
  | .signal t _ | .reset t _ | .call t _ | .check t _ | .sleep t | .resume t | .remove t
  | .again t => some t
  | .tick _ | .quantum _ _ => none

/-- The event locks that are held in a step, in the order in which they are taken. -/
def State.locks (s : State) : Action → List ℕ
  | .signal _ e | .reset _ e => [e]
  | .check t _ =>
    match s.phase t with
    | .check w => w.events
    | _ => []
  | .remove t =>
    match s.phase t with
    | .remove w i => (w.events[i]?).toList
    | _ => []
  | _ => []

/-- Where a thread is in a step with locks: before it with the first `i` locks taken, or behind
    it with the first `i` locks released. -/
inductive Place where
  | out
  | taking (a : Action) (locks : List ℕ) (i : ℕ)
  | releasing (locks : List ℕ) (i : ℕ)

/-- The locks a thread holds. -/
def Place.held : Place → List ℕ
  | .out => []
  | .taking _ locks i => locks.take i
  | .releasing locks i => locks.drop i

/-- The events, `isBusy` of their locks and the places of the threads. -/
structure LockState where
  core : State
  isBusy : ℕ → Bool
  place : ℕ → Place

/-- The locks a thread holds. -/
def LockState.held (s : LockState) (t : ℕ) : List ℕ := (s.place t).held

/-- Change the place of a thread. -/
def LockState.put (s : LockState) (t : ℕ) (p : Place) : LockState :=
  { s with place := Function.update s.place t p }

/-- `Allowed` gives the arrays that a thread may wait for. -/
def Action.Within (Allowed : ℕ → List ℕ → Prop) : Action → Prop
  | .call t w => Allowed t w.events
  | _ => True

/-- A step of a thread, or of the timer. -/
inductive LockStep (Allowed : ℕ → List ℕ → Prop) (s : LockState) : LockState → Prop
  /-- A step without locks. -/
  | free {fuel : ℕ} {a : Action} {core : State} (hout : ∀ t ∈ a.thread?, s.place t = .out)
      (hlocks : s.core.locks a = []) (ha : a.Within Allowed)
      (h : s.core.exec fuel a = some core) : LockStep Allowed s { s with core := core }
  /-- A thread comes to the first lock. -/
  | start {t : ℕ} {a : Action} (ht : a.thread? = some t) (hout : s.place t = .out)
      (hlocks : s.core.locks a ≠ []) :
      LockStep Allowed s (s.put t (.taking a (s.core.locks a) 0))
  /-- `acquire` of the next lock ends. -/
  | take {t e i : ℕ} {a : Action} {locks : List ℕ} (hp : s.place t = .taking a locks i)
      (he : locks[i]? = some e) (hfree : s.isBusy e = false) :
      LockStep Allowed s { s.put t (.taking a locks (i + 1)) with
        isBusy := Function.update s.isBusy e true }
  /-- What is done with all locks held. -/
  | act {t fuel : ℕ} {a : Action} {locks : List ℕ} {core : State}
      (hp : s.place t = .taking a locks locks.length) (ha : a.Within Allowed)
      (h : s.core.exec fuel a = some core) :
      LockStep Allowed s { s.put t (.releasing locks 0) with core := core }
  /-- `release` of the next lock. -/
  | release {t e i : ℕ} {locks : List ℕ} (hp : s.place t = .releasing locks i)
      (he : locks[i]? = some e) :
      LockStep Allowed s { s.put t (.releasing locks (i + 1)) with
        isBusy := Function.update s.isBusy e false }
  /-- All locks are released. -/
  | leave {t : ℕ} {locks : List ℕ} (hp : s.place t = .releasing locks locks.length) :
      LockStep Allowed s (s.put t .out)

/-- New events, free locks and no thread in a call. -/
structure LockState.Initial (s : LockState) : Prop where
  core : s.core.Initial
  isBusy : ∀ e, s.isBusy e = false
  place : ∀ t, s.place t = .out

/-- Thread `t` spins for a lock that `u` holds. -/
def LockState.WaitsFor (s : LockState) (t u : ℕ) : Prop :=
  ∃ a locks i e, s.place t = .taking a locks i ∧ locks[i]? = some e ∧ s.isBusy e = true ∧
    e ∈ s.held u

/-- A cycle of threads, each spinning for a lock that the next one holds. -/
def LockState.Deadlocked (s : LockState) : Prop :=
  ∃ (n : ℕ) (t : Fin (n + 1) → ℕ), Function.Injective t ∧ ∀ i, s.WaitsFor (t i) (t (i + 1))

/-- Some threads have arrays such that each can hold the first locks of its array, all of them
    different, while its next lock is one of those that the next thread holds. -/
def Crossing (Allowed : ℕ → List ℕ → Prop) : Prop :=
  ∃ (n : ℕ) (t : Fin (n + 1) → ℕ) (array : Fin (n + 1) → List ℕ) (k : Fin (n + 1) → ℕ),
    Function.Injective t ∧ (∀ i, Allowed (t i) (array i)) ∧
    (∀ i, ((array i).take (k i)).Nodup) ∧
    (∀ i j, i ≠ j → List.Disjoint ((array i).take (k i)) ((array j).take (k j))) ∧
    ∀ i, ∃ e, (array i)[k i]? = some e ∧ e ∈ (array (i + 1)).take (k (i + 1))

/-! ### Every lock has at most one holder -/

variable {Allowed : ℕ → List ℕ → Prop} {s s' : LockState}

/-- The busy locks are those held, each by one thread, and threads only wait for the locks of
    allowed arrays. -/
structure LockInvariant (Allowed : ℕ → List ℕ → Prop) (s : LockState) : Prop where
  owned : Owned s.isBusy s.held
  wait : ∀ t w, (s.core.phase t).wait? = some w → Allowed t w.events
  taking : ∀ t a locks i, s.place t = .taking a locks i → locks.length ≤ 1 ∨ Allowed t locks

theorem LockState.Initial.invariant (h : s.Initial) : LockInvariant Allowed s := by
  have hheld : ∀ t, s.held t = [] := fun t => by rw [LockState.held, h.place t, Place.held]
  refine ⟨⟨fun e => ?_, fun t => ?_, fun t u _ => ?_⟩, fun t w hw => ?_,
    fun t a locks i hp => ?_⟩
  · simp [h.isBusy e, hheld]
  · simp [hheld t]
  · simp [hheld t]
  · rw [h.core.phase t] at hw
    cases hw
  · rw [h.place t] at hp
    cases hp

/-- A thread takes the lock of one event, or those of the array it waits for. -/
theorem locks_allowed {c : State} {t : ℕ} {a : Action} (ht : a.thread? = some t)
    (hwait : ∀ w, (c.phase t).wait? = some w → Allowed t w.events) :
    (c.locks a).length ≤ 1 ∨ Allowed t (c.locks a) := by
  cases a with
  | check t' blocks =>
    obtain rfl := Option.some.inj ht
    cases hp : c.phase t' with
    | check w =>
      have hw := hwait w (by rw [hp]; rfl)
      simp only [State.locks, hp]
      exact .inr hw
    | _ => simp [State.locks, hp]
  | remove t' =>
    left
    cases hp : c.phase t' with
    | remove w i => simp [State.locks, hp]
    | _ => simp [State.locks, hp]
  | _ => simp [State.locks]

theorem held_put (s : LockState) (t : ℕ) (p : Place) :
    (s.put t p).held = Function.update s.held t p.held := by
  funext u
  by_cases hu : u = t
  · subst hu
    simp [LockState.held, LockState.put]
  · simp [LockState.held, LockState.put, hu]

/-- A thread that goes to a place with the same locks. -/
theorem held_put_same {t : ℕ} {p : Place} (h : p.held = s.held t) : (s.put t p).held = s.held := by
  rw [held_put, h]
  exact Function.update_eq_self t s.held

theorem place_put {t u : ℕ} {p q : Place} (h : (s.put t p).place u = q) :
    u = t ∧ p = q ∨ s.place u = q := by
  rw [LockState.put] at h
  exact (update_cases (P := (· = q)) h).imp_right And.right

/-- Every step keeps the holders of the locks apart. -/
theorem lockStep_invariant (hs : LockInvariant Allowed s) (h : LockStep Allowed s s') :
    LockInvariant Allowed s' := by
  have hwait : ∀ {fuel a core}, a.Within Allowed → s.core.exec fuel a = some core →
      ∀ t w, (core.phase t).wait? = some w → Allowed t w.events := by
    intro fuel a core ha hexec t w hw
    obtain hold | rfl := exec_wait hexec hw
    · exact hs.wait t w hold
    · exact ha
  cases h with
  | free hout hlocks ha h => exact ⟨hs.owned, hwait ha h, hs.taking⟩
  | @start t a ht hout hlocks =>
    refine ⟨?_, hs.wait, fun u b locks i hp => ?_⟩
    · rw [held_put_same (by rw [LockState.held, hout]; rfl)]
      exact hs.owned
    · obtain ⟨rfl, hnew⟩ | hold := place_put hp
      · cases hnew
        exact locks_allowed ht (hs.wait u)
      · exact hs.taking u b locks i hold
  | @take t e i a locks hp he hfree =>
    refine ⟨?_, hs.wait, fun u b locks' j hp' => ?_⟩
    · have hheld : s.held t = locks.take i := by rw [LockState.held, hp]; rfl
      have hnext : locks.take i ++ [e] = (Place.taking a locks (i + 1)).held := by
        rw [Place.held, List.take_add_one, he]
        rfl
      have howned := hs.owned.take hfree t
      rw [hheld, hnext, ← held_put] at howned
      exact howned
    · obtain ⟨rfl, hnew⟩ | hold := place_put hp'
      · cases hnew
        exact hs.taking u a locks i hp
      · exact hs.taking u b locks' j hold
  | @act t fuel a locks core hp ha h =>
    refine ⟨?_, hwait ha h, fun u b locks' i hp' => ?_⟩
    · have hsame : (Place.releasing locks 0).held = s.held t := by
        rw [LockState.held, hp]
        simp [Place.held]
      have howned := hs.owned
      rw [← held_put_same hsame] at howned
      exact howned
    · obtain ⟨rfl, hnew⟩ | hold := place_put hp'
      · cases hnew
      · exact hs.taking u b locks' i hold
  | @release t e i locks hp he =>
    refine ⟨?_, hs.wait, fun u b locks' j hp' => ?_⟩
    · obtain ⟨hi, rfl⟩ := List.getElem?_eq_some_iff.mp he
      have hheld : s.held t = locks[i] :: locks.drop (i + 1) := by
        rw [LockState.held, hp]
        exact List.drop_eq_getElem_cons hi
      have howned := hs.owned.release hheld
      have hnext : locks.drop (i + 1) = (Place.releasing locks (i + 1)).held := rfl
      rw [hnext, ← held_put] at howned
      exact howned
    · obtain ⟨rfl, hnew⟩ | hold := place_put hp'
      · cases hnew
      · exact hs.taking u b locks' j hold
  | @leave t locks hp =>
    refine ⟨?_, hs.wait, fun u b locks' i hp' => ?_⟩
    · rw [held_put_same (by rw [LockState.held, hp]; simp [Place.held])]
      exact hs.owned
    · obtain ⟨rfl, hnew⟩ | hold := place_put hp'
      · cases hnew
      · exact hs.taking u b locks' i hold

/-- The systems in which threads wait for allowed arrays only. -/
def LockReachable (Allowed : ℕ → List ℕ → Prop) : LockState → Prop :=
  Reachable LockState.Initial (LockStep Allowed)

theorem LockReachable.invariant (h : LockReachable Allowed s) : LockInvariant Allowed s :=
  Reachable.invariant h (fun _ h0 => h0.invariant) fun _ _ hs hstep =>
    lockStep_invariant hs hstep

/-! ### A deadlock needs crossing arrays -/

/-- On a cycle every thread holds a lock, so it is taking the locks of an array. -/
theorem crossing_of_deadlocked (hs : LockInvariant Allowed s) (h : s.Deadlocked) :
    Crossing Allowed := by
  obtain ⟨n, t, ht, hcycle⟩ := h
  choose a locks k e hplace hget hbusy hmem using hcycle
  have hheld : ∀ i, s.held (t i) = (locks i).take (k i) := fun i => by
    rw [LockState.held, hplace i]
    rfl
  refine ⟨n, t, locks, k, ht, fun i => ?_, fun i => ?_, fun i j hij => ?_, fun i => ?_⟩
  · -- the thread before `i` on the cycle waits for a lock that `i` holds
    have hprev := hmem (i - 1)
    rw [sub_add_cancel, hheld i] at hprev
    have hpos : 0 < k i := by
      by_contra hzero
      rw [Nat.eq_zero_of_not_pos hzero, List.take_zero] at hprev
      cases hprev
    obtain ⟨hlt, -⟩ := List.getElem?_eq_some_iff.mp (hget i)
    exact (hs.taking _ _ _ _ (hplace i)).resolve_left (by omega)
  · rw [← hheld i]
    exact hs.owned.nodup (t i)
  · rw [← hheld i, ← hheld j]
    exact hs.owned.disjoint _ _ fun heq => hij (ht heq)
  · exact ⟨e i, hget i, by rw [← hheld (i + 1)]; exact hmem i⟩

/-! ### Crossing arrays lead to a deadlock -/

/-- A thread can take free locks one after another. -/
theorem take_run {t k : ℕ} {a : Action} {locks : List ℕ} (hs : LockReachable Allowed s)
    (hp : s.place t = .taking a locks 0) (hk : k ≤ locks.length)
    (hnd : (locks.take k).Nodup) (hfree : ∀ e ∈ locks.take k, s.isBusy e = false) :
    ∃ s', LockReachable Allowed s' ∧ s'.core = s.core ∧ s'.place t = .taking a locks k ∧
      (∀ u, u ≠ t → s'.place u = s.place u) ∧
      ∀ e, s'.isBusy e = true ↔ s.isBusy e = true ∨ e ∈ locks.take k := by
  induction k with
  | zero => exact ⟨s, hs, rfl, hp, fun _ _ => rfl, by simp⟩
  | succ k ih =>
    have hget : locks[k]? = some locks[k] := List.getElem?_eq_getElem hk
    have hsplit : locks.take (k + 1) = locks.take k ++ [locks[k]] := by
      rw [List.take_add_one, hget]
      rfl
    rw [hsplit] at hnd hfree
    obtain ⟨hnd', -, hnew⟩ := List.nodup_append.mp hnd
    obtain ⟨s₁, hs₁, hcore, hplace, hother, hbusy⟩ := ih (by omega) hnd' fun e he =>
      hfree e (List.mem_append_left _ he)
    have hlast : s₁.isBusy locks[k] = false := by
      have hfirst := hfree locks[k] (List.mem_append_right _ (List.mem_singleton_self _))
      rw [Bool.eq_false_iff, ne_eq, hbusy, not_or]
      refine ⟨Bool.eq_false_iff.mp hfirst, fun hmem => ?_⟩
      exact hnew _ hmem _ (List.mem_singleton_self _) rfl
    refine ⟨_, Reachable.next hs₁ (.take hplace hget hlast), hcore, ?_, fun u hu => ?_,
      fun e => ?_⟩
    · exact Function.update_self _ _ _
    · exact (Function.update_of_ne hu _ _).trans (hother u hu)
    · dsimp only
      rw [hsplit, List.mem_append, List.mem_singleton]
      by_cases he : e = locks[k]
      · simp [he]
      · rw [Function.update_of_ne he, hbusy]
        tauto

/-- A thread outside calls a wait and takes the first locks of its array. -/
theorem call_run {t k : ℕ} {array : List ℕ} (hs : LockReachable Allowed s)
    (hout : s.place t = .out) (hidle : s.core.phase t = .idle) (hallowed : Allowed t array)
    (hk : k < array.length) (hnd : (array.take k).Nodup)
    (hfree : ∀ e ∈ array.take k, s.isBusy e = false) :
    ∃ s', LockReachable Allowed s' ∧ s'.place t = .taking (.check t []) array k ∧
      (∀ u, u ≠ t → s'.place u = s.place u ∧ s'.core.phase u = s.core.phase u) ∧
      ∀ e, s'.isBusy e = true ↔ s.isBusy e = true ∨ e ∈ array.take k := by
  let w : Wait := ⟨array, 0, infinite, true⟩
  have hne : w.events ≠ [] := List.ne_nil_of_length_pos (Nat.zero_lt_of_lt hk)
  have hwithin : Action.Within Allowed (.call t w) := hallowed
  have hcall : s.core.exec 0 (.call t w) = some (s.core.goTo t (.check w)) := by
    rw [State.exec, if_pos hidle, if_neg hne]
  have hs₁ : LockReachable Allowed { s with core := s.core.goTo t (.check w) } :=
    Reachable.next hs (.free (by simpa [Action.thread?] using hout) rfl hwithin hcall)
  have hlocks : (s.core.goTo t (.check w)).locks (.check t []) = array := by
    rw [State.locks, goTo_phase_self]
  have hs₂ := Reachable.next hs₁ (.start (a := .check t []) rfl hout (by rw [hlocks]; exact hne))
  rw [hlocks] at hs₂
  obtain ⟨s₃, hs₃, hcore, hplace, hother, hbusy⟩ := take_run hs₂ (Function.update_self _ _ _)
    hk.le hnd hfree
  refine ⟨s₃, hs₃, hplace, fun u hu => ⟨?_, ?_⟩, hbusy⟩
  · exact (hother u hu).trans (Function.update_of_ne hu _ _)
  · rw [hcore]
    exact Function.update_of_ne hu _ _

/-- The threads take the first locks of their arrays in turn. -/
theorem cross_run {n : ℕ} {t : Fin (n + 1) → ℕ} {array : Fin (n + 1) → List ℕ}
    {k : Fin (n + 1) → ℕ} (hs : s.Initial) (ht : Function.Injective t)
    (hallowed : ∀ i, Allowed (t i) (array i)) (hk : ∀ i, k i < (array i).length)
    (hnd : ∀ i, ((array i).take (k i)).Nodup)
    (hdisjoint : ∀ i j, i ≠ j → List.Disjoint ((array i).take (k i)) ((array j).take (k j)))
    (m : ℕ) (hm : m ≤ n + 1) :
    ∃ s', LockReachable Allowed s' ∧
      (∀ i, i.val < m → s'.place (t i) = .taking (.check (t i) []) (array i) (k i)) ∧
      (∀ i, m ≤ i.val → s'.place (t i) = .out ∧ s'.core.phase (t i) = .idle) ∧
      ∀ e, s'.isBusy e = true ↔ ∃ i, i.val < m ∧ e ∈ (array i).take (k i) := by
  induction m with
  | zero =>
    refine ⟨s, Reachable.start hs, by simp, fun i _ => ⟨hs.place _, hs.core.phase _⟩, ?_⟩
    simp [hs.isBusy]
  | succ m ih =>
    obtain ⟨s₁, hs₁, hold, hnew, hbusy⟩ := ih (by omega)
    let i : Fin (n + 1) := ⟨m, hm⟩
    have hne : ∀ j, j ≠ i → t j ≠ t i := fun j hj heq => hj (ht heq)
    obtain ⟨hout, hidle⟩ := hnew i le_rfl
    obtain ⟨s₂, hs₂, hplace, hother, hbusy'⟩ := call_run hs₁ hout hidle (hallowed i) (hk i)
      (hnd i) fun e he => by
        rw [Bool.eq_false_iff, ne_eq, hbusy]
        rintro ⟨j, hj, hej⟩
        exact hdisjoint j i (Fin.ne_of_val_ne hj.ne) hej he
    refine ⟨s₂, hs₂, fun j hj => ?_, fun j hj => ?_, fun e => ?_⟩
    · obtain hj | hj := Nat.lt_succ_iff_lt_or_eq.mp hj
      · rw [(hother _ (hne j (Fin.ne_of_val_ne hj.ne))).1]
        exact hold j hj
      · obtain rfl : j = i := Fin.ext hj
        exact hplace
    · have hji : j ≠ i := Fin.ne_of_val_ne (show j.val ≠ m by omega)
      obtain ⟨h₁, h₂⟩ := hother _ (hne j hji)
      rw [h₁, h₂]
      exact hnew j (by omega)
    · rw [hbusy', hbusy]
      constructor
      · rintro (⟨j, hj, hej⟩ | he)
        · exact ⟨j, by omega, hej⟩
        · exact ⟨i, Nat.lt_succ_self m, he⟩
      · rintro ⟨j, hj, hej⟩
        obtain hj | hj := Nat.lt_succ_iff_lt_or_eq.mp hj
        · exact .inl ⟨j, hj, hej⟩
        · obtain rfl : j = i := Fin.ext hj
          exact .inr hej

/-- Then each of them spins for a lock of the next one. -/
theorem deadlocked_of_crossing (hs : s.Initial) (h : Crossing Allowed) :
    ∃ s', LockReachable Allowed s' ∧ s'.Deadlocked := by
  obtain ⟨n, t, array, k, ht, hallowed, hnd, hdisjoint, hcross⟩ := h
  have hk : ∀ i, k i < (array i).length := fun i => by
    obtain ⟨e, he, -⟩ := hcross i
    exact (List.getElem?_eq_some_iff.mp he).1
  obtain ⟨s', hs', hplace, -, hbusy⟩ :=
    cross_run hs ht hallowed hk hnd hdisjoint (n + 1) le_rfl
  refine ⟨s', hs', n, t, ht, fun i => ?_⟩
  obtain ⟨e, he, hmem⟩ := hcross i
  refine ⟨_, array i, k i, e, hplace i i.isLt, he, (hbusy e).mpr ⟨i + 1, (i + 1).isLt, hmem⟩, ?_⟩
  rw [LockState.held, hplace (i + 1) (i + 1).isLt]
  exact hmem

/-- Unused events with free locks. -/
def freshLocks : LockState := ⟨fresh, fun _ => false, fun _ => .out⟩

theorem freshLocks_initial : freshLocks.Initial :=
  ⟨⟨fun _ => rfl, fun _ => rfl, fun _ => rfl, rfl⟩, fun _ => rfl, fun _ => rfl⟩

/-- Threads that wait for allowed arrays never spin in a cycle if and only if no allowed arrays
    cross. -/
theorem deadlock_free_iff (Allowed : ℕ → List ℕ → Prop) :
    (∀ s, LockReachable Allowed s → ¬ s.Deadlocked) ↔ ¬ Crossing Allowed := by
  constructor
  · intro h hcross
    obtain ⟨s, hs, hdead⟩ := deadlocked_of_crossing freshLocks_initial hcross
    exact h s hs hdead
  · intro h s hs hdead
    exact h (crossing_of_deadlocked hs.invariant hdead)

/-- Two threads that wait for the same two events in opposite orders. -/
theorem opposite_orders_deadlock :
    ∃ s, LockReachable (fun _ _ => True) s ∧ s.Deadlocked := by
  refine deadlocked_of_crossing freshLocks_initial
    ⟨1, ![0, 1], ![[0, 1], [1, 0]], ![1, 1], by decide, fun _ => trivial, ?_, ?_, ?_⟩
  · decide
  · intro i j hij
    fin_cases i <;> fin_cases j <;> simp_all
  · intro i
    fin_cases i
    · exact ⟨1, rfl, by decide⟩
    · exact ⟨0, rfl, by decide⟩

/-- Arrays in the order of a rank do not cross. -/
theorem not_crossing_of_rank (rank : ℕ → ℕ)
    (h : ∀ t array, Allowed t array → array.Pairwise (rank · < rank ·)) : ¬ Crossing Allowed := by
  rintro ⟨n, t, array, k, -, hallowed, -, -, hcross⟩
  choose e hget hmem using hcross
  refine not_cycle_of_rank (fun i => rank (e i)) fun i => ?_
  -- in the next array the lock of `i` comes before the one that thread waits for
  have hsorted := h _ _ (hallowed (i + 1))
  obtain ⟨hlt, hlast⟩ := List.getElem?_eq_some_iff.mp (hget (i + 1))
  obtain ⟨j, hj, hej⟩ := List.mem_take_iff_getElem.mp (hmem i)
  rw [← hlast, ← hej]
  exact List.pairwise_iff_getElem.mp hsorted j _ (by omega) hlt (by omega)

end XTOS.Event

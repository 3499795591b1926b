import XTOS.Pipe
import XTOS.Event

/-!
# Waiting for a pipe

`pipeReadFile` and `pipeWriteFile` of `xtkernel/pipe.c` with the events that they wait for and signal.
A pass is made under the lock of the pipe, and the event is signalled after it: in between, and while
a call is in `xtWaitForEvents`, other threads go on.

## Main definitions

- `Shared` — the pipe, its events and the threads that use it
- `Shared.Step` — a pass, a signal, or a step of a wait
- `Stranded` — a reader waits for an event that nobody is about to signal, and could read

## Main results

- `reader_not_stranded` — a reader that is alone is not stranded
- `second_reader_stranded` — two readers share one flag, and one of them may be

## Design notes

The passes are those of `XTOS.Pipe`, the waits those of `XTOS.Event`. `pipeCloseFile` signals under the
lock; here other passes may come before its signals, too.
-/

namespace XTOS.Pipe

open SysLib
open XTOS.Event (Wait infinite)

/-- The events of a pipe: two blocks of the heap. -/
structure PipeEvents where
  canWriteEvent : ℕ
  canReadEvent : ℕ
  apart : canReadEvent ≠ canWriteEvent

/-- `xtWaitForEvents(&event, 1, 0, UINT64_MAX, NULL)`. -/
def waitFor (event : ℕ) : Wait := ⟨[event], 0, infinite, false⟩

/-- A call in flight. -/
inductive Call where
  | write (c : WriteCall)
  | read (c : ReadCall)

/-- The call of a thread, and the events that it signals before it goes on. -/
structure Caller where
  call : Option Call
  signals : List ℕ

/-- The pipe, its events and the threads that use it. -/
structure Shared where
  pipe : XTPipeData
  events : Event.State
  caller : ℕ → Caller

/-- A pass leaves a pipe, and a thread with a call and signals to send. -/
def Shared.pass (s : Shared) (t : ℕ) (p : XTPipeData) (c : Caller) : Shared :=
  { s with pipe := p, caller := Function.update s.caller t c }

/-- `pipeReadFile` has taken bytes from the buffer. -/
def ReadCall.Takes (c : ReadCall) (p : XTPipeData) : Prop :=
  c.remaining ≠ 0 ∧ p.readClosed = false ∧ pipeUsed p ≠ 0

instance (c : ReadCall) (p : XTPipeData) : Decidable (c.Takes p) :=
  inferInstanceAs (Decidable (_ ∧ _))

/-- The signals of `pipeCloseFile`. -/
def closeSignals (E : PipeEvents) (flags : ℕ) : List ℕ :=
  (if flags &&& fileModeWrite ≠ 0 then [E.canReadEvent] else []) ++
    if flags &&& fileModeRead ≠ 0 then [E.canWriteEvent] else []

/-- A step inside `xtWaitForEvents`, or one of the timer. -/
def Waits : Event.Action → Prop
  | .signal _ _ | .reset _ _ | .call _ _ => False
  | _ => True

/-- A thread that is in no wait and has no signal to send. -/
def Shared.Free (s : Shared) (t : ℕ) (call : Option Call) : Prop :=
  s.caller t = ⟨call, []⟩ ∧ s.events.phase t = .idle

/-- One step. The threads with `reads` call `pipeReadFile`. -/
inductive Shared.Step (E : PipeEvents) (reads : ℕ → Prop) (s : Shared) : Shared → Prop
  | beginWrite {t : ℕ} (c : WriteCall) : s.Free t none →
      Step E reads s (s.pass t s.pipe ⟨some (.write c), []⟩)
  | beginRead {t : ℕ} (c : ReadCall) : reads t → s.Free t none →
      Step E reads s (s.pass t s.pipe ⟨some (.read c), []⟩)
  | writeGoes {t : ℕ} {c c' : WriteCall} {p : XTPipeData} : s.Free t (some (.write c)) →
      pipeWritePass s.pipe c = (p, .inl c') → pipeFree s.pipe ≠ 0 →
      Step E reads s (s.pass t p ⟨some (.write c'), [E.canReadEvent]⟩)
  | writeWaits {t n : ℕ} {c c' : WriteCall} {p : XTPipeData} {ev : Event.State} :
      s.Free t (some (.write c)) →
      pipeWritePass s.pipe c = (p, .inl c') → pipeFree s.pipe = 0 →
      s.events.exec n (.call t (waitFor E.canWriteEvent)) = some ev →
      Step E reads s { s.pass t p ⟨some (.write c'), []⟩ with events := ev }
  | writeReturns {t : ℕ} {c : WriteCall} {p : XTPipeData} {r : XTResult} :
      s.Free t (some (.write c)) → pipeWritePass s.pipe c = (p, .inr r) →
      Step E reads s (s.pass t p ⟨none, []⟩)
  | readWaits {t n : ℕ} {c c' : ReadCall} {p : XTPipeData} {ev : Event.State} :
      s.Free t (some (.read c)) → pipeReadPass s.pipe c = (p, .inl c') →
      s.events.exec n (.call t (waitFor E.canReadEvent)) = some ev →
      Step E reads s { s.pass t p ⟨some (.read c'), []⟩ with events := ev }
  | readReturns {t : ℕ} {c : ReadCall} {p : XTPipeData} {r : XTResult × List UInt8} :
      s.Free t (some (.read c)) → pipeReadPass s.pipe c = (p, .inr r) →
      Step E reads s (s.pass t p ⟨none, if c.Takes s.pipe then [E.canWriteEvent] else []⟩)
  | close {t : ℕ} (flags : ℕ) : s.Free t none → s.pipe.refCount ≠ 0 →
      Step E reads s (s.pass t (pipeCloseFile s.pipe flags) ⟨none, closeSignals E flags⟩)
  | signal {t e n : ℕ} {call : Option Call} {es : List ℕ} {ev : Event.State} :
      s.caller t = ⟨call, e :: es⟩ → s.events.exec n (.signal t e) = some ev →
      Step E reads s { s.pass t s.pipe ⟨call, es⟩ with events := ev }
  | wait {n : ℕ} {a : Event.Action} {ev : Event.State} : Waits a →
      s.events.exec n a = some ev → Step E reads s { s with events := ev }

/-- A new pipe whose buffer has room for its bytes, and nobody uses it. -/
structure Shared.Initial (s : Shared) : Prop where
  pipe : ∃ alloc m ptr bufferSize h, xtCreatePipe alloc m ptr bufferSize h = .ok s.pipe
  room : s.pipe.size ≤ s.pipe.room
  events : s.events.Initial
  caller : ∀ t, s.caller t = ⟨none, []⟩

/-- A call of `pipeReadFile` would return: there are bytes, or there will be none. -/
def Readable (p : XTPipeData) : Prop := pipeUsed p ≠ 0 ∨ p.writeClosed = true

/-- Thread `t` is in a call of `pipeReadFile`. -/
def Shared.Reading (s : Shared) (t : ℕ) : Prop := ∃ c, (s.caller t).call = some (.read c)

/-- Somebody is about to signal event `e`. -/
def Shared.Pending (s : Shared) (e : ℕ) : Prop := ∃ t, e ∈ (s.caller t).signals

/-- A reader waits that could read from a pipe that is still there: the flag of its event is
    clear, and nobody is about to set it. -/
def Stranded (E : PipeEvents) (s : Shared) (t : ℕ) : Prop :=
  s.pipe.refCount ≠ 0 ∧ s.Reading t ∧ s.events.phase t ≠ .idle ∧ Readable s.pipe ∧
    s.events.isSignaled E.canReadEvent = false ∧ ¬ s.Pending E.canReadEvent

/-- What holds in every state when `r` is the only reader. -/
structure Guarded (E : PipeEvents) (r : ℕ) (s : Shared) : Prop where
  reader : ∀ t, s.Reading t → t = r
  waits : ∀ t w, (s.events.phase t).wait? = some w →
    w = waitFor E.canReadEvent ∧ s.Reading t ∨ w = waitFor E.canWriteEvent ∧ ¬ s.Reading t
  woken : s.Reading r → s.events.phase r ≠ .idle → Readable s.pipe →
    s.events.isSignaled E.canReadEvent = true ∨ s.Pending E.canReadEvent

variable {E : PipeEvents} {s s' : Shared} {r t u e : ℕ} {c : Caller} {p p' : XTPipeData}

/-! ### Callers -/

theorem pass_caller_self : (s.pass t p c).caller t = c := by
  rw [Shared.pass]
  exact Function.update_self ..

theorem pass_caller_of_ne (h : u ≠ t) : (s.pass t p c).caller u = s.caller u := by
  rw [Shared.pass]
  exact Function.update_of_ne h ..

/-- A thread reads after a pass if it did before, or it made the pass and reads on. -/
theorem pass_reading : (s.pass t p c).Reading u ↔
    if u = t then ∃ x, c.call = some (.read x) else s.Reading u := by
  split_ifs with h
  · rw [h, Shared.Reading, pass_caller_self]
  · rw [Shared.Reading, pass_caller_of_ne h, Shared.Reading]

/-- A signal that is pending stays so in a pass of another thread. -/
theorem pass_pending (hnone : (s.caller t).signals = []) (h : s.Pending e) :
    (s.pass t p c).Pending e := by
  obtain ⟨u, hu⟩ := h
  refine ⟨u, ?_⟩
  rwa [pass_caller_of_ne]
  rintro rfl
  rw [hnone] at hu
  exact absurd hu List.not_mem_nil

/-! ### Waits -/

variable {ev ev' : Event.State} {fuel : ℕ} {a : Event.Action}

theorem wait_of_phase {q : Event.Phase} (h : q ≠ .idle) : ∃ w, q.wait? = some w := by
  cases q with
  | idle => exact absurd rfl h
  | check w => exact ⟨w, rfl⟩
  | sleep w => exact ⟨w, rfl⟩
  | asleep w => exact ⟨w, rfl⟩
  | remove w i => exact ⟨w, rfl⟩

theorem phase_of_wait {q : Event.Phase} {w : Wait} (h : q.wait? = some w) : q ≠ .idle := by
  rintro rfl
  cases h

/-- Only a thread that waits for an event clears its flag, and its wait is over then. -/
theorem exec_cleared (h : ev.exec fuel a = some ev') (ha : Waits a) (hset : ev.isSignaled e = true)
    (hclear : ev'.isSignaled e = false) :
    ∃ t w, (ev.phase t).wait? = some w ∧ e ∈ w.events ∧ ev'.phase t = .idle := by
  have hsame : ev'.isSignaled ≠ ev.isSignaled := by
    intro heq
    rw [heq, hset] at hclear
    cases hclear
  cases Event.exec_cases h with
  | signal => exact absurd ha not_false
  | reset => exact absurd ha not_false
  | callEmpty => exact absurd ha not_false
  | call => exact absurd ha not_false
  | @success t blocks w ev' i hp hw =>
    refine ⟨t, w, congrArg Event.Phase.wait? hp, ?_, Event.goTo_phase_self _ _ _⟩
    rw [Event.return_isSignaled] at hclear
    obtain ⟨-, hc⟩ | ⟨-, k, x, hk, -, hc⟩ := Event.tryWait_clears hw
    · rw [hc.clear, hset, Bool.true_and, Bool.not_eq_false', decide_eq_true_iff] at hclear
      exact hclear
    · rw [hc.clear, hset, Bool.true_and, Bool.not_eq_false', decide_eq_true_iff,
        List.mem_singleton] at hclear
      rw [hclear]
      exact List.mem_of_getElem? hk
  | register hp hw hr => exact absurd (Event.sameFlags_register hr).isSignaled hsame
  | sleep => exact absurd rfl hsame
  | resume => exact absurd rfl hsame
  | remove hp hi hr => exact absurd (Event.sameFlags_removeFromEvent hr).isSignaled hsame
  | timeout => exact absurd rfl hsame
  | again => exact absurd rfl hsame
  | threads => exact absurd rfl hsame

/-- A wait for an event whose flag is set is over. -/
theorem tryWait_waitFor (h : ev.isSignaled e = true) :
    Event.tryWait ev (waitFor e) = some (ev.clear e, some 0) := by
  have hall : (waitFor e).all = false := decide_eq_false (by simp [waitFor])
  have hfound : (waitFor e).events.findIdx? ev.isSignaled = some 0 := by
    rw [waitFor, List.findIdx?_cons, if_pos h]
  rw [Event.tryWait, hall, if_neg Bool.false_ne_true, hfound]
  rfl

/-! ### The invariant -/

theorem Guarded.pass (h : Guarded E r s) {call : Option Call} (hfree : s.Free t call)
    (hreads : (∃ x, c.call = some (.read x)) → t = r)
    (hpipe : Readable p → Readable s.pipe ∨ E.canReadEvent ∈ c.signals) :
    Guarded E r (s.pass t p c) := by
  obtain ⟨hcaller, hidle⟩ := hfree
  have hother : ∀ u, s.events.phase u ≠ .idle → u ≠ t := by
    rintro u hu rfl
    exact hu hidle
  refine ⟨fun u hu => ?_, fun u w hw => ?_, fun hread hphase hp => ?_⟩
  · rw [pass_reading] at hu
    split_ifs at hu with hut
    · exact hut.trans (hreads hu)
    · exact h.reader u hu
  · rw [pass_reading, if_neg (hother u (phase_of_wait hw))]
    exact h.waits u w hw
  · rw [pass_reading, if_neg (hother r hphase)] at hread
    obtain hbefore | hsignal := hpipe hp
    · refine (h.woken hread hphase hbefore).imp_right fun hpend => pass_pending ?_ hpend
      rw [hcaller]
    · exact .inr ⟨t, by rwa [pass_caller_self]⟩

/-- A thread that finds nothing to do calls `xtWaitForEvents`. -/
theorem Guarded.call (h : Guarded E r s) {w : Wait}
    (hexec : s.events.exec fuel (.call t w) = some ev)
    (hown : w = waitFor E.canReadEvent ∧ s.Reading t ∨ w = waitFor E.canWriteEvent ∧ ¬ s.Reading t)
    (hnot : s.Reading t → ¬ Readable s.pipe) : Guarded E r { s with events := ev } := by
  refine ⟨h.reader, fun u w' hw' => ?_, fun hread hphase hp => ?_⟩
  · obtain hold | hnew := Event.exec_wait hexec hw'
    · exact h.waits u w' hold
    · cases hnew
      exact hown
  · have hflag : ev.isSignaled = s.events.isSignaled := by
      cases Event.exec_cases hexec with
      | callEmpty => rfl
      | call => rfl
      | threads => rfl
    obtain ⟨w', hw'⟩ := wait_of_phase hphase
    obtain hold | hnew := Event.exec_wait hexec hw'
    · rw [show ({ s with events := ev } : Shared).events = ev from rfl, hflag]
      exact h.woken hread (phase_of_wait hold) hp
    · cases hnew
      exact absurd hp (hnot hread)

/-- A step of a wait: the flag that the reader waits for is cleared by the reader only. -/
theorem Guarded.wait (h : Guarded E r s) (ha : Waits a) (hexec : s.events.exec fuel a = some ev) :
    Guarded E r { s with events := ev } := by
  have hbefore : ∀ u w, (ev.phase u).wait? = some w → (s.events.phase u).wait? = some w := by
    intro u w hw
    obtain hold | rfl := Event.exec_wait hexec hw
    · exact hold
    · exact absurd ha not_false
  refine ⟨h.reader, fun u w hw => h.waits u w (hbefore u w hw), fun hread hphase hp => ?_⟩
  obtain ⟨w, hw⟩ := wait_of_phase hphase
  obtain hset | hpend := h.woken hread (phase_of_wait (hbefore r w hw)) hp
  · refine .inl ?_
    by_contra hclear
    obtain ⟨u, w', hw', he, hidle⟩ := exec_cleared hexec ha hset (eq_false_of_ne_true hclear)
    obtain ⟨-, hreads⟩ | ⟨rfl, -⟩ := h.waits u w' hw'
    · rw [h.reader u hreads] at hidle
      exact hphase hidle
    · exact E.apart (List.mem_singleton.mp he)
  · exact .inr hpend

/-- A signal that was pending is sent. -/
theorem Guarded.signal (h : Guarded E r s) {call : Option Call} {es : List ℕ}
    (hcaller : s.caller t = ⟨call, e :: es⟩)
    (hexec : s.events.exec fuel (.signal t e) = some ev) :
    Guarded E r { s.pass t s.pipe ⟨call, es⟩ with events := ev } := by
  have hreading : ∀ u, (s.pass t s.pipe ⟨call, es⟩).Reading u ↔ s.Reading u := by
    intro u
    rw [pass_reading]
    split_ifs with hu
    · rw [hu, Shared.Reading, hcaller]
    · rfl
  obtain ⟨hphase, hflag⟩ : ev.phase = s.events.phase ∧
      ev.isSignaled = Function.update s.events.isSignaled e true := by
    rw [Event.State.exec] at hexec
    split_ifs at hexec
    obtain ⟨x, -, rfl⟩ := Option.map_eq_some_iff.mp hexec
    exact ⟨rfl, Event.isSignaled_modifyEvent s.events e fun _ => ⟨0, true⟩⟩
  refine ⟨fun u hu => h.reader u ((hreading u).mp hu), fun u w hw => ?_, fun hread hwait hp => ?_⟩
  · have hold := h.waits u w (hphase ▸ hw)
    exact hold.imp (And.imp_right (hreading u).mpr) (And.imp_right fun hn hu => hn ((hreading u).mp hu))
  · change ev.isSignaled E.canReadEvent = true ∨ (s.pass t s.pipe ⟨call, es⟩).Pending E.canReadEvent
    rw [hflag]
    by_cases he : E.canReadEvent = e
    · rw [he, Function.update_self]
      exact .inl rfl
    · rw [Function.update_of_ne he]
      refine (h.woken ((hreading r).mp hread) (hphase ▸ hwait) hp).imp_right ?_
      rintro ⟨u, hu⟩
      obtain rfl | hut := eq_or_ne u t
      · rw [hcaller, List.mem_cons] at hu
        exact ⟨u, by rw [pass_caller_self]; exact hu.resolve_left he⟩
      · exact ⟨u, by rwa [pass_caller_of_ne hut]⟩

/-! ### The passes -/

theorem pipeWritePass_returns {c : WriteCall} {x : XTResult}
    (h : pipeWritePass p c = (p', .inr x)) : p' = p := by
  rw [pipeWritePass] at h
  dsimp only at h
  split_ifs at h
  all_goals cases h
  all_goals rfl

/-- A writer that waits has written nothing. -/
theorem pipeWritePass_waits {c c' : WriteCall} (hfull : pipeFree p = 0)
    (h : pipeWritePass p c = (p', .inl c')) : p' = p := by
  rw [pipeWritePass] at h
  dsimp only at h
  split_ifs at h
  all_goals cases h
  rfl

/-- A reader that waits has found the buffer empty and the write end open. -/
theorem pipeReadPass_waits {c c' : ReadCall} (h : pipeReadPass p c = (p', .inl c')) :
    p' = p ∧ ¬ Readable p := by
  rw [pipeReadPass] at h
  dsimp only at h
  split_ifs at h with hdone hbroken hused hclosed hflag hmany
  all_goals cases h
  exact ⟨rfl, fun hread => hread.elim (fun hne => hne hused) hclosed⟩

/-- A reader that returns leaves a pipe with bytes only if it has found bytes. -/
theorem pipeReadPass_readable {c : ReadCall} {x : XTResult × List UInt8}
    (h : pipeReadPass p c = (p', .inr x)) (hread : Readable p') : Readable p := by
  rw [pipeReadPass] at h
  dsimp only at h
  split_ifs at h with hdone hbroken hused hclosed hflag hmany
  all_goals cases h
  · exact hread
  · exact hread
  · exact hread
  · exact hread
  · exact hread
  · exact .inl hused
  · exact .inl hused

theorem pipeCloseFile_readable {flags : ℕ} (h : Readable (pipeCloseFile p flags)) :
    Readable p ∨ E.canReadEvent ∈ closeSignals E flags := by
  obtain hused | hclosed := h
  · exact .inl (.inl hused)
  · obtain hold | hnew := Bool.or_eq_true_iff.mp hclosed
    · exact .inl (.inr hold)
    · refine .inr (List.mem_append_left _ ?_)
      rw [if_pos (of_decide_eq_true hnew)]
      exact List.mem_singleton_self _

/-! ### Runs -/

theorem Shared.Initial.guarded (h : s.Initial) : Guarded E r s := by
  have hidle := h.events.phase
  refine ⟨fun t ht => ?_, fun t w hw => absurd (hidle t) (phase_of_wait hw),
    fun _ hphase => absurd (hidle r) hphase⟩
  obtain ⟨c, hc⟩ := ht
  rw [h.caller t] at hc
  cases hc

theorem Guarded.step (h : Guarded E r s) (hstep : s.Step E (· = r) s') : Guarded E r s' := by
  cases hstep with
  | beginWrite c hfree => exact h.pass hfree (fun hx => by obtain ⟨x, hx⟩ := hx; cases hx) .inl
  | beginRead c hreads hfree => exact h.pass hfree (fun _ => hreads) .inl
  | writeGoes hfree hpass hroom =>
    exact h.pass hfree (fun hx => by obtain ⟨x, hx⟩ := hx; cases hx)
      fun _ => .inr List.mem_cons_self
  | writeWaits hfree hpass hfull hexec =>
    rename_i t fuel c c' p ev
    obtain rfl := pipeWritePass_waits hfull hpass
    have hwriting : ¬ (s.pass t s.pipe ⟨some (.write c'), []⟩).Reading t := by
      rw [pass_reading, if_pos rfl]
      rintro ⟨x, hx⟩
      cases hx
    have hpassed : Guarded E r (s.pass t s.pipe ⟨some (.write c'), []⟩) :=
      h.pass hfree (fun hx => by obtain ⟨x, hx⟩ := hx; cases hx) .inl
    exact hpassed.call hexec (.inr ⟨rfl, hwriting⟩) fun hread => absurd hread hwriting
  | writeReturns hfree hpass =>
    obtain rfl := pipeWritePass_returns hpass
    exact h.pass hfree (fun hx => by obtain ⟨x, hx⟩ := hx; cases hx) .inl
  | readWaits hfree hpass hexec =>
    rename_i t fuel c c' p ev
    obtain ⟨rfl, hnot⟩ := pipeReadPass_waits hpass
    have hreading : (s.pass t s.pipe ⟨some (.read c'), []⟩).Reading t := by
      rw [pass_reading, if_pos rfl]
      exact ⟨c', rfl⟩
    have hreader : t = r := h.reader t ⟨c, by rw [hfree.1]⟩
    have hpassed : Guarded E r (s.pass t s.pipe ⟨some (.read c'), []⟩) :=
      h.pass hfree (fun _ => hreader) .inl
    exact hpassed.call hexec (.inl ⟨rfl, hreading⟩) fun _ => hnot
  | readReturns hfree hpass =>
    exact h.pass hfree (fun hx => by obtain ⟨x, hx⟩ := hx; cases hx)
      fun hread => .inl (pipeReadPass_readable hpass hread)
  | close flags hfree =>
    exact h.pass hfree (fun hx => by obtain ⟨x, hx⟩ := hx; cases hx) pipeCloseFile_readable
  | signal hcaller hexec => exact h.signal hcaller hexec
  | wait ha hexec => exact h.wait ha hexec

/-- **A reader that is alone** is never stranded, whatever the writers do. If it could read and nobody
    is about to signal, the next check of its event ends its wait. -/
theorem reader_not_stranded (h : Reachable Shared.Initial (Shared.Step E (· = r)) s) :
    ¬ Stranded E s r ∧
      ∀ w fuel blocks, s.Reading r → s.events.phase r = .check w → Readable s.pipe →
        ¬ s.Pending E.canReadEvent →
        ∃ ev, s.events.exec fuel (.check r blocks) = some ev ∧ ev.phase r = .idle := by
  have hguard : Guarded E r s := h.invariant (fun _ => Shared.Initial.guarded) fun _ _ => Guarded.step
  refine ⟨?_, fun w fuel blocks hread hphase hp hpend => ?_⟩
  · rintro ⟨-, hread, hphase, hp, hclear, hpend⟩
    obtain hset | hsoon := hguard.woken hread hphase hp
    · rw [hclear] at hset
      cases hset
    · exact hpend hsoon
  · have hwait : (s.events.phase r).wait? = some w := congrArg Event.Phase.wait? hphase
    obtain ⟨rfl, -⟩ | ⟨-, hnot⟩ := hguard.waits r w hwait
    · have hset := (hguard.woken hread (phase_of_wait hwait) hp).resolve_right hpend
      have hexec : s.events.exec fuel (.check r blocks) =
          some ((s.events.clear E.canReadEvent).return s.events r (waitFor E.canReadEvent) .success
            none) := by
        rw [Event.State.exec, hphase]
        dsimp only
        rw [tryWait_waitFor hset]
        rfl
      exact ⟨_, hexec, Event.goTo_phase_self _ r .idle⟩
    · exact absurd hread hnot

/-- A new pipe of 4096 bytes. -/
def quietPipe : Shared where
  pipe := initPipeData (SysLib.storeLE (fun _ => 0) 0 8 4128) 32 4096 (by norm_num)
  events := ⟨fun _ => ⟨0, false⟩, ⟨fun _ => ⟨0, 0⟩, fun _ => false⟩, fun t => ⟨0, t, 1, 20, 20, 0, 0, []⟩,
    fun _ => .idle, fun _ => 0, []⟩
  caller _ := ⟨none, []⟩

def quietEvents : PipeEvents := ⟨1, 2, by norm_num⟩

theorem quietPipe_initial : quietPipe.Initial :=
  ⟨⟨fun _ => .success, SysLib.storeLE (fun _ => 0) 0 8 4128, 32, 4096, by norm_num, rfl⟩, by decide +kernel, ⟨fun _ => rfl, fun _ => rfl, fun _ => rfl, rfl⟩,
    fun _ => rfl⟩

/-- The reader waits, and a writer has written two bytes and signalled: the reader goes on. -/
theorem reader_goes_on : ∃ s ev, Reachable Shared.Initial (Shared.Step quietEvents (· = 10)) s ∧
    ¬ Stranded quietEvents s 10 ∧ s.events.phase 10 ≠ .idle ∧
    s.events.exec 1 (.check 10 []) = some ev ∧ ev.phase 10 = .idle := by
  have h0 : Reachable Shared.Initial (Shared.Step quietEvents (· = 10)) quietPipe :=
    .start quietPipe_initial
  have h1 := h0.next (.beginRead (t := 10) ⟨0, 1, []⟩ rfl ⟨rfl, rfl⟩)
  have h2 := h1.next (.readWaits (t := 10) (n := 1) ⟨rfl, rfl⟩ rfl rfl)
  have h3 := h2.next (.beginWrite (t := 20) ⟨0, [7, 8], 0⟩ ⟨rfl, rfl⟩)
  have h4 := h3.next (.writeGoes (t := 20) ⟨rfl, rfl⟩ rfl (by decide))
  have h5 := h4.next (.signal (t := 20) (n := 1) rfl rfl)
  obtain ⟨hnot, hcheck⟩ := reader_not_stranded h5
  obtain ⟨ev, hexec, hidle⟩ := hcheck (waitFor 2) 1 [] ⟨_, rfl⟩ rfl (.inl (by decide)) (by
    rintro ⟨t, ht⟩
    simp only [Shared.pass, Function.update_apply, quietPipe] at ht
    split_ifs at ht
    all_goals exact List.not_mem_nil ht)
  exact ⟨_, ev, h5, hnot, Event.Phase.noConfusion, hexec, hidle⟩

/-- **A second reader may be stranded**: two threads wait, a writer leaves two bytes and signals once,
    the first reader clears the flag and takes one byte. The second one waits for the other byte. -/
theorem second_reader_stranded :
    ∃ s, Reachable Shared.Initial (Shared.Step quietEvents fun _ => True) s ∧
      Stranded quietEvents s 30 := by
  have h0 : Reachable Shared.Initial (Shared.Step quietEvents fun _ => True) quietPipe :=
    .start quietPipe_initial
  have h1 := h0.next (.beginRead (t := 10) ⟨0, 1, []⟩ trivial ⟨rfl, rfl⟩)
  have h2 := h1.next (.readWaits (t := 10) (n := 1) ⟨rfl, rfl⟩ rfl rfl)
  have h3 := h2.next (.beginRead (t := 30) ⟨0, 1, []⟩ trivial ⟨rfl, rfl⟩)
  have h4 := h3.next (.readWaits (t := 30) (n := 1) ⟨rfl, rfl⟩ rfl rfl)
  have h5 := h4.next (.beginWrite (t := 20) ⟨0, [7, 8], 0⟩ ⟨rfl, rfl⟩)
  have h6 := h5.next (.writeGoes (t := 20) ⟨rfl, rfl⟩ rfl (by decide))
  have h7 := h6.next (.signal (t := 20) (n := 1) rfl rfl)
  have h8 := h7.next (.wait (a := .check 10 []) (n := 1) trivial rfl)
  have h9 := h8.next (.readReturns (t := 10) ⟨rfl, rfl⟩ rfl)
  refine ⟨_, h9, by decide, ⟨_, rfl⟩, Event.Phase.noConfusion, .inl (by decide), by decide, ?_⟩
  rintro ⟨t, ht⟩
  simp only [Shared.pass, Function.update_apply, quietPipe] at ht
  split_ifs at ht
  all_goals exact absurd ht (by decide)

end XTOS.Pipe

import XTOS.Scheduler
import Mathlib.Data.List.Count

/-!
# How long a thread sleeps

After `xtSleepThread` each call of `xtWakeUpThreads` takes a millisecond off, and the one that takes
the last wakes the thread. The counter is decremented before it is tested: from zero milliseconds it
wraps around.

## Main definitions

- `naptime` — the passes that a thread sleeps through
- `Nap` — the calls after a thread was put to sleep
- `OnTime` — it sleeps until the call of its last millisecond, and that one wakes it

## Main results

- `wakeUpPass_iterate` — the record after some passes
- `Nap.onTime_iff` — the thread wakes on time unless it sleeps for no time
-/

namespace XTOS.Scheduler

open SysLib XTOS.LinkedList XTOS.Sleep
open XTOS.Process (XTThread xtThreadSleepState xtThreadRunState dec64 dec64_eq)

/-- The passes of the timer that a thread sleeps through. -/
def naptime (n : ℕ) : ℕ := if n = 0 then 2 ^ 64 else n

/-- The calls of `xtWakeUpThreads` after thread `t` was put to sleep: the states before and after
    them, and the nodes of the list. In between, other code leaves the record of `t` as it is. -/
structure Nap (t n : ℕ) (th : XTThread) (before after : ℕ → State) (nodes : ℕ → List ℕ) :
    Prop where
  first : (before 0).thread t = xtSleepThread th n
  linked (j : ℕ) : Linked 0 (before j).list.next (before j).threads (nodes j) 0
  addresses (j : ℕ) : ∀ x ∈ nodes j, x < 2 ^ 64
  call (j : ℕ) : ∃ fuel, (nodes j).length < fuel ∧
    xtWakeUpThreads fuel (before j) = some (after j)
  quiet (j : ℕ) : (before (j + 1)).thread t = (after j).thread t

/-- How often a call passes thread `t`. -/
def State.passes (s : State) (t : ℕ) (xs : List ℕ) : ℕ := (xs.map s.list.data).count t

/-- The thread sleeps until the `n`-th call, and is to run after it; after one call at the latest. -/
def OnTime (t n : ℕ) (before : ℕ → State) : Prop :=
  (∀ j < n, ((before j).thread t).state = xtThreadSleepState) ∧
    ((before (max n 1)).thread t).state = xtThreadRunState

variable {t n : ℕ} {th : XTThread} {before after : ℕ → State} {nodes : ℕ → List ℕ}

/-! ### The record -/

/-- The pass that takes the last millisecond wakes the thread. -/
theorem wakeUpPass_wakes (hsleep : th.state = xtThreadSleepState) (hlast : dec64 th.ticks = 0) :
    (wakeUpPass th).state = xtThreadRunState := by
  simp only [wakeUpPass, hsleep, if_true, hlast, xtWakeUpThread]
  rfl

/-- The record while the thread sleeps. -/
theorem wakeUpPass_sleeping (hn : n < 2 ^ 64) {d : ℕ} (hd : d < naptime n) :
    wakeUpPass^[d] (xtSleepThread th n) =
      { th with state := xtThreadSleepState, ticks := (naptime n - d) % 2 ^ 64 } := by
  have hle : naptime n ≤ 2 ^ 64 := by
    rw [naptime]
    split_ifs <;> omega
  induction d with
  | zero =>
    rw [Function.iterate_zero_apply, xtSleepThread, naptime]
    split_ifs with h0
    · rw [h0, Nat.sub_zero, Nat.mod_self]
    · rw [Nat.sub_zero, Nat.mod_eq_of_lt hn]
  | succ d ih =>
    have hdec : dec64 ((naptime n - d) % 2 ^ 64) = naptime n - (d + 1) := by
      unfold dec64
      omega
    rw [Function.iterate_succ_apply', ih (by omega), wakeUpPass, if_pos rfl]
    dsimp only
    rw [hdec, if_neg (by omega), Nat.mod_eq_of_lt (by omega)]

/-- **The passes**: the thread sleeps through the first ones, the next one wakes it and the others
    leave it alone. -/
theorem wakeUpPass_iterate (hn : n < 2 ^ 64) (d : ℕ) :
    (wakeUpPass^[d] (xtSleepThread th n)).state =
      if d < naptime n then xtThreadSleepState else xtThreadRunState := by
  induction d with
  | zero =>
    have hpos : 0 < naptime n := by
      rw [naptime]
      split_ifs <;> omega
    rw [if_pos hpos, Function.iterate_zero_apply, xtSleepThread_state]
  | succ d ih =>
    obtain hlt | heq | hgt := lt_trichotomy (d + 1) (naptime n)
    · rw [wakeUpPass_sleeping hn hlt, if_pos hlt]
    · have hdec : dec64 ((naptime n - d) % 2 ^ 64) = 0 := by
        rw [← heq, Nat.add_sub_cancel_left, Nat.one_mod_two_pow_eq_one.mpr (by norm_num)]
        exact (Process.dec64_eq_zero_iff one_pos (by norm_num)).mpr rfl
      rw [Function.iterate_succ_apply', wakeUpPass_sleeping hn (Nat.lt_of_succ_le heq.le),
        if_neg heq.not_lt]
      exact wakeUpPass_wakes rfl hdec
    · rw [if_neg (Nat.le_of_lt_succ hgt).not_gt] at ih
      rw [Function.iterate_succ_apply', wakeUpPass, if_neg (by rw [ih]; decide), ih,
        if_neg hgt.le.not_gt]

/-! ### The calls -/

theorem aged_thread (s : State) (xs : List ℕ) (t : ℕ) :
    (s.aged xs).thread t = wakeUpPass^[s.passes t xs] (s.thread t) := by
  suffices hall : ∀ (ts : List ℕ) (m : Threads),
      ts.foldl (fun m t => m.modify t wakeUpPass) m t = wakeUpPass^[ts.count t] (m t) from
    hall _ _
  intro ts
  induction ts with
  | nil => exact fun m => rfl
  | cons u ts ih =>
    intro m
    rw [List.foldl_cons, ih]
    obtain rfl | hne := eq_or_ne u t
    · rw [Threads.modify_self, List.count_cons_self, Function.iterate_succ_apply]
    · rw [Threads.modify_of_ne hne.symm, List.count_cons_of_ne hne]

/-- The list is in memory: it does not have as many nodes as there are numbers. -/
theorem Nap.passes_lt (h : Nap t n th before after nodes) (j : ℕ) :
    (before j).passes t (nodes j) < 2 ^ 64 := by
  have hsub : (nodes j).toFinset ⊆ Finset.Ioo 0 (2 ^ 64) := by
    intro x hx
    rw [List.mem_toFinset] at hx
    exact Finset.mem_Ioo.mpr ⟨Nat.pos_of_ne_zero ((h.linked j).ne_null x hx), h.addresses j x hx⟩
  have hcard := Finset.card_le_card hsub
  rw [List.toFinset_card_of_nodup (h.linked j).nodup, Nat.card_Ioo] at hcard
  have hcount : (before j).passes t (nodes j) ≤ (nodes j).length := by
    rw [State.passes]
    exact List.count_le_length.trans (List.length_map _).le
  omega

/-- The record before a call. -/
theorem Nap.thread_eq (h : Nap t n th before after nodes) (j : ℕ) :
    (before j).thread t =
      wakeUpPass^[∑ i ∈ Finset.range j, (before i).passes t (nodes i)] (xtSleepThread th n) := by
  induction j with
  | zero => exact h.first
  | succ j ih =>
    obtain ⟨fuel, hfuel, hcall⟩ := h.call j
    rw [xtWakeUpThreads_eq (h.linked j) hfuel, Option.some.injEq] at hcall
    rw [h.quiet j, ← hcall, aged_thread, ih, ← Function.iterate_add_apply,
      Finset.sum_range_succ, Nat.add_comm]

theorem Nap.state_eq (h : Nap t n th before after nodes) (hn : n < 2 ^ 64) (j : ℕ) :
    ((before j).thread t).state =
      if ∑ i ∈ Finset.range j, (before i).passes t (nodes i) < naptime n then xtThreadSleepState
      else xtThreadRunState := by
  rw [h.thread_eq j, wakeUpPass_iterate hn]

/-- **When a thread wakes on time**: it sleeps for some time, and the calls pass it less than this
    often before the last one, and as often with it. One that is listed once wakes on time whenever
    it sleeps for some time. -/
theorem Nap.onTime_iff (h : Nap t n th before after nodes) (hn : n < 2 ^ 64) :
    (OnTime t n before ↔ 0 < n ∧
      (∀ j < n, ∑ i ∈ Finset.range j, (before i).passes t (nodes i) < n) ∧
      n ≤ ∑ i ∈ Finset.range n, (before i).passes t (nodes i)) ∧
    ((∀ j, (before j).passes t (nodes j) = 1) → (OnTime t n before ↔ 0 < n)) := by
  have hiff : OnTime t n before ↔ 0 < n ∧
      (∀ j < n, ∑ i ∈ Finset.range j, (before i).passes t (nodes i) < n) ∧
      n ≤ ∑ i ∈ Finset.range n, (before i).passes t (nodes i) := by
    obtain rfl | hpos := n.eq_zero_or_pos
    · -- the first call takes a millisecond off none
      have hlong : (before 0).passes t (nodes 0) < naptime 0 := h.passes_lt 0
      refine iff_of_false (fun hon => ?_) fun hall => absurd hall.1 (lt_irrefl 0)
      have hwake := hon.2
      rw [h.state_eq hn, Nat.max_eq_right (Nat.zero_le 1), Finset.sum_range_one,
        if_pos hlong] at hwake
      exact absurd hwake (by decide)
    · have hnap : naptime n = n := if_neg hpos.ne'
      have hsleeps : xtThreadSleepState ≠ xtThreadRunState := by decide
      rw [OnTime, Nat.max_eq_left hpos]
      simp only [h.state_eq hn, hnap, hpos, true_and]
      refine and_congr ?_ ?_
      · refine forall₂_congr fun j _ => ?_
        rw [ite_eq_left_iff]
        exact ⟨fun himp => by_contra fun hge => hsleeps (himp hge).symm, fun hlt hge => absurd hlt hge⟩
      · rw [ite_eq_right_iff, ← not_lt]
        exact ⟨fun himp hlt => hsleeps (himp hlt), fun hge hlt => absurd hlt hge⟩
  refine ⟨hiff, fun honce => hiff.trans ?_⟩
  simp only [honce, Finset.sum_const, Finset.card_range, smul_eq_mul, mul_one, le_refl, and_true,
    imp_self, implies_true]

/-- Calls for a list of one node, with nothing in between. -/
def naps (n : ℕ) : ℕ → State
  | 0 => ⟨⟨fun _ => ⟨10, 0⟩, fun _ => true⟩, 1, 1, fun t => xtSleepThread ⟨0, t, 1, 20, 5, 0, 0, []⟩ n,
    30, 30⟩
  | j + 1 => (naps n j).aged [1]

theorem naps_list (n j : ℕ) : (naps n j).list = (naps n 0).list ∧ (naps n j).threads = 1 := by
  induction j with
  | zero => exact ⟨rfl, rfl⟩
  | succ j ih => exact ih

theorem naps_nap (n : ℕ) :
    Nap 10 n ⟨0, 10, 1, 20, 5, 0, 0, []⟩ (naps n) (fun j => naps n (j + 1)) fun _ => [1] := by
  have hlinked : ∀ j, Linked 0 (naps n j).list.next (naps n j).threads [1] 0 := by
    intro j
    rw [(naps_list n j).1, (naps_list n j).2]
    exact ⟨rfl, one_ne_zero, rfl⟩
  refine ⟨rfl, hlinked, fun _ => by simp, fun j => ⟨2, by decide, ?_⟩, fun _ => rfl⟩
  exact xtWakeUpThreads_eq (hlinked j) (by decide)

theorem naps_once (n j : ℕ) : (naps n j).passes 10 [1] = 1 := by
  rw [State.passes, (naps_list n j).1]
  rfl

theorem onTime_iff_three : OnTime 10 3 (naps 3) :=
  (((naps_nap 3).onTime_iff (by norm_num)).2 (naps_once 3)).mpr (by norm_num)

/-- A thread that is to sleep for no time goes on sleeping. -/
theorem sleeps_on_after_zero :
    Nap 10 0 ⟨0, 10, 1, 20, 5, 0, 0, []⟩ (naps 0) (fun j => naps 0 (j + 1)) (fun _ => [1]) ∧
      (∀ j, (naps 0 j).passes 10 [1] = 1) ∧ ¬ OnTime 10 0 (naps 0) := by
  refine ⟨naps_nap 0, naps_once 0, fun h => ?_⟩
  have hstate : ((naps 0 1).thread 10).state = xtThreadSleepState := by decide +kernel
  exact absurd (hstate.symm.trans h.2) (by decide)

end XTOS.Scheduler

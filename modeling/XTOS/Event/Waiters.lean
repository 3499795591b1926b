import XTOS.Event

/-!
# The lists of waiting threads

Threads leave the lists of the events they wait for through `removeFromAllEvents`, which unlinks
their node with `xtSetNextList`. That function refuses a null link, so the last node of a list stays
linked when it is destroyed.

## Main definitions

- `removeFromAllEvents` — the removal from the lists of an array
- `ListAt`, `State.Lists` — the nodes on the list of one event, and on all of them
- `Removed` — one occurrence of a thread is gone from a list, and no freed node is linked
- `LastBehind` — a thread whose node is the last one, behind others
- `Phase.pending` — the events on whose lists a thread in a wait may still be

## Main results

- `removeFromEvent_outcome` — what a removal does to its list, and that it leaves the others alone
- `removeFromAllEvents_iff` — when a removal does what it should, and what follows for the waits of
  a run
-/

namespace XTOS.Event

open SysLib XTOS.LinkedList XTOS.Sleep
open XTOS.Process (XTThread)

/-- `removeFromAllEvents` with no other thread in between. -/
def removeFromAllEvents (fuel t : ℕ) : List ℕ → State → Option State
  | [], s => some s
  | e :: es, s =>
    (removeFromEvent t e fuel s 0 (s.event e).list).bind (removeFromAllEvents fuel t es)

/-- The list of event `e` has the nodes `xs`, and none of them is freed. -/
def ListAt (s : State) (e : ℕ) (xs : List ℕ) : Prop :=
  Linked 0 s.nodes.next (s.event e).list xs 0 ∧ ∀ n ∈ xs, s.nodes.used n = true

/-- The nodes of all lists; no node is on two of them. -/
structure State.Lists (s : State) (nodes : ℕ → List ℕ) : Prop where
  at' (e : ℕ) : ListAt s e (nodes e)
  disjoint (e e' : ℕ) (hne : e ≠ e') : (nodes e).Disjoint (nodes e')

/-- The threads of nodes. -/
def State.threadsOf (s : State) (xs : List ℕ) : List ℕ := xs.map s.nodes.data

/-- From the list with the threads `ts` one occurrence of `t` is gone, and no freed node is on it. -/
def Removed (t : ℕ) (ts : List ℕ) (s' : State) (e : ℕ) : Prop :=
  ∃ ys, ListAt s' e ys ∧ s'.threadsOf ys = ts.erase t

/-- The first occurrence of `t` is the last thread, behind others. -/
def LastBehind (t : ℕ) (ts : List ℕ) : Prop := ∃ us, us ≠ [] ∧ t ∉ us ∧ ts = us ++ [t]

/-- The events on whose lists a thread may still be. -/
def Phase.pending : Phase → List ℕ
  | .idle | .check _ => []
  | .sleep w | .asleep w => w.events
  | .remove w i => w.events.drop i

/-- A removal in this step does not find the thread last behind others. -/
def Action.Clean (s : State) : Action → Prop
  | .remove t => ∀ w i xs, s.phase t = .remove w i →
      Linked 0 s.nodes.next (s.event (w.events.getD i 0)).list xs 0 → ¬ LastBehind t (s.threadsOf xs)
  | _ => True

/-- A step whose removal is clean, with waits for distinct events. -/
def CleanStep (s s' : State) : Prop :=
  ∃ fuel a, a.Distinct ∧ a.Clean s ∧ s.exec fuel a = some s'

variable {s s' : State} {t e fuel : ℕ} {xs : List ℕ}

/-! ### One list -/

/-- Take node `x` out behind node `p`; with `p` null it is the head. -/
def State.unlink (s : State) (e p x : ℕ) : State :=
  let s₁ : State := if p = 0 then s.modifyEvent e fun ev => { ev with list := s.nodes.next x }
    else { s with nodes := (xtSetNextList s.nodes p (s.nodes.next x)).1 }
  { s₁ with nodes := xtDestroyList s₁.nodes x }

theorem unlink_head (s : State) (e x : ℕ) : s.unlink e 0 x =
    { s.modifyEvent e fun ev => { ev with list := s.nodes.next x } with
      nodes := xtDestroyList s.nodes x } := rfl

theorem unlink_behind (s : State) (e x : ℕ) {p : ℕ} (hp : p ≠ 0) : s.unlink e p x =
    { s with nodes := xtDestroyList (xtSetNextList s.nodes p (s.nodes.next x)).1 x } := by
  rw [State.unlink, if_neg hp]

/-- The search unlinks the first node of the thread. -/
theorem removeFromEvent_eq {prev cur : ℕ} (hl : Linked 0 s.nodes.next cur xs 0)
    (h : removeFromEvent t e fuel s prev cur = some s') :
    (t ∉ s.threadsOf xs ∧ s' = s) ∨
      ∃ us x vs, xs = us ++ x :: vs ∧ t ∉ s.threadsOf us ∧ s.nodes.data x = t ∧
        s' = s.unlink e (us.getLastD prev) x := by
  induction xs generalizing prev cur fuel with
  | nil =>
    obtain rfl : cur = 0 := hl
    cases fuel with
    | zero => cases h
    | succ fuel =>
      rw [removeFromEvent, if_pos rfl] at h
      exact .inl ⟨by simp [State.threadsOf], (Option.some.inj h).symm⟩
  | cons y xs ih =>
    obtain ⟨rfl, hcur, hl⟩ := hl
    cases fuel with
    | zero => cases h
    | succ fuel =>
      rw [removeFromEvent, if_neg hcur] at h
      dsimp only at h
      by_cases hdata : s.nodes.data cur = t
      · rw [if_pos hdata] at h
        exact .inr ⟨[], cur, xs, rfl, by simp [State.threadsOf], hdata, (Option.some.inj h).symm⟩
      · rw [if_neg hdata] at h
        obtain ⟨hnot, rfl⟩ | ⟨us, x, vs, rfl, hus, hx, rfl⟩ := ih hl h
        · refine .inl ⟨?_, rfl⟩
          rw [State.threadsOf, List.map_cons, List.mem_cons, not_or]
          exact ⟨fun heq => hdata heq.symm, hnot⟩
        · refine .inr ⟨cur :: us, x, vs, rfl, ?_, hx, by rw [List.getLastD_cons]⟩
          rw [State.threadsOf, List.map_cons, List.mem_cons, not_or]
          exact ⟨fun heq => hdata heq.symm, hus⟩

/-- With enough fuel the search ends. -/
theorem removeFromEvent_returns {prev cur : ℕ} (hl : Linked 0 s.nodes.next cur xs 0)
    (hfuel : xs.length < fuel) : ∃ s', removeFromEvent t e fuel s prev cur = some s' := by
  induction xs generalizing prev cur fuel with
  | nil =>
    obtain rfl : cur = 0 := hl
    obtain ⟨fuel, rfl⟩ := Nat.exists_eq_add_one.mpr hfuel
    exact ⟨s, by rw [removeFromEvent, if_pos rfl]⟩
  | cons y xs ih =>
    obtain ⟨rfl, hcur, hl⟩ := hl
    rw [List.length_cons] at hfuel
    obtain ⟨fuel, rfl⟩ : ∃ n, fuel = n + 1 := Nat.exists_eq_add_one.mpr (by omega)
    rw [removeFromEvent, if_neg hcur]
    dsimp only
    split_ifs
    · exact ⟨_, rfl⟩
    · exact ⟨_, rfl⟩
    · exact ih hl (by omega)

/-- Nothing but the list of event `e`, with the nodes `xs`, is touched. -/
structure OnlyList (s s' : State) (e : ℕ) (xs : List ℕ) : Prop where
  event : ∀ e', e' ≠ e → s'.event e' = s.event e'
  next : ∀ x, x ∉ xs → s'.nodes.next x = s.nodes.next x
  used : ∀ x, x ∉ xs → s'.nodes.used x = s.nodes.used x
  data : s'.nodes.data = s.nodes.data

theorem OnlyList.refl (s : State) (e : ℕ) (xs : List ℕ) : OnlyList s s e xs :=
  ⟨fun _ _ => rfl, fun _ _ => rfl, fun _ _ => rfl, rfl⟩

/-- The links of another list are as before. -/
theorem OnlyList.linked {e' : ℕ} {ys : List ℕ} (h : OnlyList s s' e xs) (hne : e' ≠ e)
    (hdisj : xs.Disjoint ys) (hl : Linked 0 s.nodes.next (s.event e').list ys 0) :
    Linked 0 s'.nodes.next (s'.event e').list ys 0 := by
  rw [h.event e' hne]
  exact hl.congr fun y hy => h.next y fun hx => hdisj hx hy

theorem OnlyList.listAt {e' : ℕ} {ys : List ℕ} (h : OnlyList s s' e xs) (hne : e' ≠ e)
    (hdisj : xs.Disjoint ys) (hl : ListAt s e' ys) : ListAt s' e' ys := by
  refine ⟨h.linked hne hdisj hl.1, fun y hy => ?_⟩
  rw [h.used y fun hx => hdisj hx hy]
  exact hl.2 y hy

theorem unlink_onlyList {p x : ℕ} (hp : p = 0 ∨ p ∈ xs) (hx : x ∈ xs) :
    OnlyList s (s.unlink e p x) e xs := by
  have hne : ∀ {y z}, y ∉ xs → z ∈ xs → y ≠ z := fun hy hz heq => hy (heq ▸ hz)
  by_cases hhead : p = 0
  · rw [hhead, unlink_head]
    refine ⟨fun e' hne => Function.update_of_ne hne _ _, fun y _ => ?_, fun y hy => ?_, ?_⟩
    · dsimp only
      rw [xtDestroyList_next]
    · exact xtDestroyList_used (hne hy hx)
    · exact xtDestroyList_data _ _
  · rw [unlink_behind s e x hhead]
    have hmem := hp.resolve_left hhead
    refine ⟨fun e' _ => rfl, fun y hy => ?_, fun y hy => ?_, ?_⟩
    · dsimp only
      rw [xtDestroyList_next]
      by_cases hnull : s.nodes.next x = 0
      · rw [xtSetNextList, if_neg hhead, if_pos hnull]
      · rw [xtSetNextList_next hhead hnull]
        exact Function.update_of_ne (hne hy hmem) _ _
    · dsimp only
      rw [xtDestroyList_used (hne hy hx), xtSetNextList_used]
    · dsimp only
      rw [xtDestroyList_data, xtSetNextList_data]

/-- What a removal leaves of its list: the node is gone, or it is freed and still linked. -/
inductive Outcome (t : ℕ) (s s' : State) (e : ℕ) (xs : List ℕ) : Prop
  | removed (ys : List ℕ) (hsub : ys ⊆ xs) (hl : ListAt s' e ys)
      (hthreads : s.threadsOf ys = (s.threadsOf xs).erase t) (hclean : ¬ LastBehind t (s.threadsOf xs))
  | dangling (hl : Linked 0 s'.nodes.next (s'.event e).list xs 0) (hlast : LastBehind t (s.threadsOf xs))

theorem not_lastBehind {us vs : List ℕ} (hus : t ∉ us) (h : us = [] ∨ vs ≠ []) :
    ¬ LastBehind t (us ++ t :: vs) := by
  rintro ⟨us', hne, hus', heq⟩
  have hlen : us.length = us'.length := by
    have hidx := congrArg (List.idxOf t) heq
    rw [List.idxOf_append_of_notMem hus, List.idxOf_append_of_notMem hus', List.idxOf_cons_self,
      List.idxOf_cons_self] at hidx
    exact hidx
  obtain ⟨rfl, hvs⟩ := List.append_inj heq hlen
  obtain rfl | hvs' := h
  · exact hne rfl
  · exact hvs' (List.cons.inj hvs).2

/-- **A removal** takes the node out, or frees it and leaves it linked if it is the last one behind
    others; the other lists stay as they are. -/
theorem removeFromEvent_outcome (hl : ListAt s e xs)
    (h : removeFromEvent t e fuel s 0 (s.event e).list = some s') :
    OnlyList s s' e xs ∧ Outcome t s s' e xs := by
  obtain ⟨hnot, rfl⟩ | ⟨us, x, vs, rfl, hus, hx, rfl⟩ := removeFromEvent_eq hl.1 h
  · refine ⟨.refl _ _ _, .removed xs (List.Subset.refl _) hl (List.erase_of_not_mem hnot).symm ?_⟩
    rintro ⟨us, -, -, heq⟩
    exact hnot (by simp [heq])
  have hnd := hl.1.nodup
  have hxne : x ≠ 0 := hl.1.ne_null x (by simp)
  have hthreads : s.threadsOf (us ++ x :: vs) = s.threadsOf us ++ t :: s.threadsOf vs := by
    rw [State.threadsOf, List.map_append, List.map_cons, hx]
    rfl
  have herase : (s.threadsOf (us ++ x :: vs)).erase t = s.threadsOf (us ++ vs) := by
    rw [hthreads, List.erase_append_right _ hus, List.erase_cons_head]
    exact List.map_append.symm
  have hsub : us ++ vs ⊆ us ++ x :: vs := fun y hy => by
    simp only [List.mem_append, List.mem_cons] at hy ⊢
    tauto
  have hother : ∀ y ∈ us ++ vs, y ≠ x := by
    rintro y hy rfl
    rw [List.nodup_append, List.nodup_cons] at hnd
    rcases List.mem_append.mp hy with hy | hy
    · exact hnd.2.2 y hy y List.mem_cons_self rfl
    · exact hnd.2.1.1 hy
  obtain rfl | ⟨us, p, rfl⟩ := us.eq_nil_or_concat
  · -- the head of the list
    refine ⟨unlink_onlyList (.inl rfl) (by simp),
      .removed vs hsub ⟨?_, fun y hy => ?_⟩ herase.symm ?_⟩
    · obtain ⟨hhead, -, hvs⟩ := hl.1
      rw [List.getLastD_nil, unlink_head]
      dsimp only
      rw [xtDestroyList_next]
      simpa [State.modifyEvent] using hvs
    · rw [List.getLastD_nil, unlink_head]
      dsimp only
      rw [xtDestroyList_used (hother y hy)]
      exact hl.2 y (hsub hy)
    · rw [hthreads]
      exact not_lastBehind hus (.inl rfl)
  · rw [List.concat_eq_append] at *
    have hp : p ≠ 0 := hl.1.ne_null p (by simp)
    have hlast : (us ++ [p]).getLastD 0 = p := by simp
    rw [hlast]
    refine ⟨unlink_onlyList (.inr (by simp)) (by simp), ?_⟩
    rw [unlink_behind s e x hp]
    have hnext : s.nodes.next x = vs.headD 0 := by
      obtain ⟨b, -, -, -, hvs⟩ := linked_append.mp hl.1
      exact hvs.head
    cases vs with
    | nil =>
      -- `xtSetNextList` refuses the null link
      have hnull : s.nodes.next x = 0 := hnext
      refine .dangling ?_ ⟨s.threadsOf (us ++ [p]), by simp [State.threadsOf], hus, hthreads⟩
      rw [xtSetNextList, if_neg hp, if_pos hnull]
      dsimp only
      rw [xtDestroyList_next]
      exact hl.1
    | cons v vs =>
      have hv : s.nodes.next x ≠ 0 := by
        rw [hnext]
        exact hl.1.ne_null v (by simp)
      refine .removed _ hsub ⟨?_, fun y hy => ?_⟩ herase.symm ?_
      · dsimp only
        rw [xtDestroyList_next, xtSetNextList_next hp hv]
        have hlinked := hl.1
        rw [List.append_assoc, List.singleton_append] at hlinked ⊢
        exact hlinked.unlink
      · dsimp only
        rw [xtDestroyList_used (hother y hy), xtSetNextList_used]
        exact hl.2 y (hsub hy)
      · rw [hthreads]
        exact not_lastBehind hus (.inr (by simp [State.threadsOf]))

/-- Steps on other lists do not change the outcome. -/
theorem Outcome.frame {s₁ : State} (h : Outcome t s s₁ e xs) (hevent : s'.event e = s₁.event e)
    (hnext : ∀ x ∈ xs, s'.nodes.next x = s₁.nodes.next x)
    (hused : ∀ x ∈ xs, s'.nodes.used x = s₁.nodes.used x) : Outcome t s s' e xs := by
  cases h with
  | removed ys hsub hl hthreads hclean =>
    refine .removed ys hsub ⟨?_, fun y hy => ?_⟩ hthreads hclean
    · rw [hevent]
      exact hl.1.congr fun y hy => hnext y (hsub hy)
    · rw [hused y (hsub hy)]
      exact hl.2 y hy
  | dangling hl hlast =>
    refine .dangling ?_ hlast
    rw [hevent]
    exact hl.congr hnext

theorem Outcome.removed_iff (h : Outcome t s s' e xs) (hdata : s'.nodes.data = s.nodes.data) :
    Removed t (s.threadsOf xs) s' e ↔ ¬ LastBehind t (s.threadsOf xs) := by
  have hthreadsOf : s'.threadsOf = s.threadsOf := by
    funext ys
    rw [State.threadsOf, hdata]
    rfl
  cases h with
  | removed ys hsub hl hthreads hclean =>
    exact iff_of_true ⟨ys, hl, by rw [hthreadsOf, hthreads]⟩ hclean
  | dangling hl hlast =>
    refine iff_of_false ?_ (not_not.mpr hlast)
    rintro ⟨ys, hys, hthreads⟩
    obtain rfl := hl.unique hys.1
    obtain ⟨us, -, -, heq⟩ := hlast
    have hlen := congrArg List.length hthreads
    rw [hthreadsOf, List.length_erase_of_mem (by simp [heq]), heq, List.length_append,
      List.length_singleton] at hlen
    omega

/-! ### The lists of an array -/

/-- The removal from the lists of an array of distinct events, one list after the other. -/
theorem removeFromAllEvents_outcome {nodes : ℕ → List ℕ} {es : List ℕ} (hnd : es.Nodup)
    (hl : ∀ e ∈ es, ListAt s e (nodes e))
    (hdisj : ∀ e e', e ≠ e' → (nodes e).Disjoint (nodes e'))
    (h : removeFromAllEvents fuel t es s = some s') :
    (∀ e, e ∉ es → s'.event e = s.event e ∧
      ∀ x ∈ nodes e, s'.nodes.next x = s.nodes.next x ∧ s'.nodes.used x = s.nodes.used x) ∧
    s'.nodes.data = s.nodes.data ∧ ∀ e ∈ es, Outcome t s s' e (nodes e) := by
  induction es generalizing s with
  | nil =>
    obtain rfl := Option.some.inj h
    exact ⟨fun _ _ => ⟨rfl, fun _ _ => ⟨rfl, rfl⟩⟩, rfl, by simp⟩
  | cons e es ih =>
    obtain ⟨hnot, hnd⟩ := List.nodup_cons.mp hnd
    obtain ⟨s₁, h₁, h⟩ := Option.bind_eq_some_iff.mp h
    obtain ⟨honly, hout⟩ := removeFromEvent_outcome (hl e List.mem_cons_self) h₁
    have hne : ∀ e' ∈ es, e' ≠ e := fun e' he' heq => hnot (heq ▸ he')
    obtain ⟨hother, hdata, houts⟩ := ih hnd (fun e' he' =>
      honly.listAt (hne e' he') (hdisj _ _ (hne e' he').symm) (hl e' (List.mem_cons_of_mem _ he'))) h
    refine ⟨fun e' he' => ?_, hdata.trans honly.data, fun e' he' => ?_⟩
    · obtain ⟨hne', he'⟩ := not_or.mp (List.mem_cons.not.mp he')
      obtain ⟨hevent, hnodes⟩ := hother e' he'
      refine ⟨hevent.trans (honly.event e' hne'), fun x hx => ?_⟩
      have hnot : x ∉ nodes e := fun hmem => hdisj _ _ hne' hx hmem
      exact ⟨(hnodes x hx).1.trans (honly.next x hnot), (hnodes x hx).2.trans (honly.used x hnot)⟩
    · obtain rfl | he' := List.mem_cons.mp he'
      · obtain ⟨hevent, hnodes⟩ := hother e' hnot
        exact hout.frame hevent (fun x hx => (hnodes x hx).1) fun x hx => (hnodes x hx).2
      · have hthreadsOf : s₁.threadsOf = s.threadsOf := by
          funext ys
          rw [State.threadsOf, honly.data]
          rfl
        cases houts e' he' with
        | removed ys hsub hl hthreads hclean =>
          rw [hthreadsOf] at hthreads hclean
          exact .removed ys hsub hl hthreads hclean
        | dangling hl hlast =>
          rw [hthreadsOf] at hlast
          exact .dangling hl hlast

theorem removeFromAllEvents_returns {nodes : ℕ → List ℕ} {es : List ℕ} (hnd : es.Nodup)
    (hl : ∀ e ∈ es, ListAt s e (nodes e))
    (hdisj : ∀ e e', e ≠ e' → (nodes e).Disjoint (nodes e'))
    (hfuel : ∀ e ∈ es, (nodes e).length < fuel) :
    ∃ s', removeFromAllEvents fuel t es s = some s' := by
  induction es generalizing s with
  | nil => exact ⟨s, rfl⟩
  | cons e es ih =>
    obtain ⟨hnot, hnd⟩ := List.nodup_cons.mp hnd
    have hne : ∀ e' ∈ es, e' ≠ e := fun e' he' heq => hnot (heq ▸ he')
    have hhead := hl e List.mem_cons_self
    obtain ⟨s₁, h₁⟩ : ∃ s₁, removeFromEvent t e fuel s 0 (s.event e).list = some s₁ :=
      removeFromEvent_returns hhead.1 (hfuel e List.mem_cons_self)
    obtain ⟨honly, -⟩ := removeFromEvent_outcome hhead h₁
    obtain ⟨s', h'⟩ := ih hnd (fun e' he' => honly.listAt (hne e' he') (hdisj _ _ (hne e' he').symm)
      (hl e' (List.mem_cons_of_mem _ he'))) fun e' he' => hfuel e' (List.mem_cons_of_mem _ he')
    exact ⟨s', by rw [removeFromAllEvents, h₁, Option.bind_some, h']⟩

/-! ### Signals and registrations -/

/-- A signal frees the nodes of its list, and touches the records of their threads only. -/
theorem wakeAll_spec {H H' : NodeHeap} {m m' : Threads} {l : ℕ} (hl : Linked 0 H.next l xs 0)
    (h : wakeAll fuel H m l = some (H', m')) :
    H'.next = H.next ∧ H'.data = H.data ∧ (∀ x, x ∉ xs → H'.used x = H.used x) ∧
      ∀ t, t ∉ xs.map H.data → m' t = m t := by
  induction fuel generalizing H m l xs with
  | zero => cases h
  | succ fuel ih =>
    rw [wakeAll] at h
    cases xs with
    | nil =>
      obtain rfl : l = 0 := hl
      rw [if_pos rfl] at h
      obtain ⟨rfl, rfl⟩ := Prod.mk.inj (Option.some.inj h)
      exact ⟨rfl, rfl, fun _ _ => rfl, fun _ _ => rfl⟩
    | cons x xs =>
      obtain ⟨rfl, hx, hl⟩ := hl
      rw [if_neg hx] at h
      have hrest : Linked 0 (xtDestroyList H l).next (H.next l) xs 0 := by
        rwa [xtDestroyList_next]
      obtain ⟨hnext, hdata, hused, hm⟩ := ih hrest h
      rw [xtDestroyList_next] at hnext
      rw [xtDestroyList_data] at hdata hm
      refine ⟨hnext, hdata, fun y hy => ?_, fun t ht => ?_⟩
      · obtain ⟨hyl, hy⟩ := not_or.mp (List.mem_cons.not.mp hy)
        rw [hused y hy, xtDestroyList_used hyl]
      · rw [List.map_cons] at ht
        obtain ⟨htl, ht⟩ := not_or.mp (List.mem_cons.not.mp ht)
        rw [hm t ht, Threads.modify_of_ne htl]

/-- After a signal its list is empty, and the other lists are as before. -/
theorem xtSignalEvent_lists {nodes : ℕ → List ℕ} (hs : s.Lists nodes)
    (h : xtSignalEvent fuel s e = some s') :
    s'.Lists (Function.update nodes e []) ∧ s'.nodes.data = s.nodes.data ∧ s'.phase = s.phase ∧
      ∀ t, t ∉ s.threadsOf (nodes e) → s'.thread t = s.thread t := by
  obtain ⟨⟨H, m⟩, hwake, rfl⟩ := Option.map_eq_some_iff.mp h
  obtain ⟨hnext, hdata, hused, hm⟩ := wakeAll_spec (hs.at' e).1 hwake
  refine ⟨⟨fun e' => ?_, fun e₁ e₂ hne => ?_⟩, hdata, rfl, hm⟩
  · by_cases he : e' = e
    · subst he
      rw [Function.update_self]
      exact ⟨by simp [State.modifyEvent], by simp⟩
    · rw [Function.update_of_ne he]
      have hlist : ((s.modifyEvent e fun _ => ⟨0, true⟩).event e').list = (s.event e').list := by
        simp [State.modifyEvent, he]
      refine ⟨?_, fun n hn => ?_⟩
      · dsimp only
        rw [hnext, hlist]
        exact (hs.at' e').1
      · dsimp only
        rw [hused n fun hmem => hs.disjoint _ _ he hn hmem]
        exact (hs.at' e').2 n hn
  · intro x hx₁ hx₂
    by_cases h₁ : e₁ = e
    · subst h₁
      simp at hx₁
    · by_cases h₂ : e₂ = e
      · subst h₂
        simp at hx₂
      · rw [Function.update_of_ne h₁] at hx₁
        rw [Function.update_of_ne h₂] at hx₂
        exact hs.disjoint _ _ hne hx₁ hx₂

/-- A new node on the list of event `e`: the list is as before or ends with the node. -/
theorem lists_append {nodes : ℕ → List ℕ} {node : ℕ} (hs : s.Lists nodes)
    (hnode : node ≠ 0) (hnew : s.nodes.used node = false)
    (hevent : ∀ e', e' ≠ e → s'.event e' = s.event e')
    (hl : Linked 0 s'.nodes.next (s'.event e).list (nodes e ++ [node]) 0)
    (hnext : ∀ x, x ∉ nodes e → x ≠ node → s'.nodes.next x = s.nodes.next x)
    (hused : s'.nodes.used = Function.update s.nodes.used node true) :
    s'.Lists (Function.update nodes e (nodes e ++ [node])) := by
  have hfresh : ∀ e', node ∉ nodes e' := fun e' hmem => by
    rw [(hs.at' e').2 node hmem] at hnew
    cases hnew
  have hold : ∀ e', ∀ n ∈ nodes e', s'.nodes.used n = true := by
    intro e' n hn
    have hne : n ≠ node := fun heq => hfresh e' (heq ▸ hn)
    rw [hused, Function.update_of_ne hne]
    exact (hs.at' e').2 n hn
  refine ⟨fun e' => ?_, fun e₁ e₂ hne => ?_⟩
  · by_cases he : e' = e
    · subst he
      rw [Function.update_self]
      refine ⟨hl, fun n hn => ?_⟩
      rcases List.mem_append.mp hn with hn | hn
      · exact hold e' n hn
      · rw [List.mem_singleton.mp hn, hused, Function.update_self]
    · rw [Function.update_of_ne he]
      refine ⟨?_, hold e'⟩
      rw [hevent e' he]
      refine (hs.at' e').1.congr fun x hx => hnext x (fun hmem => ?_) fun heq => ?_
      · exact hs.disjoint _ _ he hx hmem
      · exact hfresh e' (heq ▸ hx)
  · intro x hx₁ hx₂
    by_cases h₁ : e₁ = e
    · subst h₁
      rw [Function.update_self, List.mem_append, List.mem_singleton] at hx₁
      rw [Function.update_of_ne hne.symm] at hx₂
      rcases hx₁ with hx₁ | rfl
      · exact hs.disjoint _ _ hne hx₁ hx₂
      · exact hfresh _ hx₂
    · rw [Function.update_of_ne h₁] at hx₁
      by_cases h₂ : e₂ = e
      · subst h₂
        rw [Function.update_self, List.mem_append, List.mem_singleton] at hx₂
        rcases hx₂ with hx₂ | rfl
        · exact hs.disjoint _ _ hne hx₁ hx₂
        · exact hfresh _ hx₁
      · rw [Function.update_of_ne h₂] at hx₂
        exact hs.disjoint _ _ hne hx₁ hx₂

/-- The threads on the lists after a node of thread `t` was appended. -/
theorem threads_append {nodes : ℕ → List ℕ} {node : ℕ} (hfresh : ∀ e', ∀ x ∈ nodes e', x ≠ node)
    (hdata : s'.nodes.data = Function.update s.nodes.data node t) :
    (∀ e', e' ≠ e →
      s'.threadsOf (Function.update nodes e (nodes e ++ [node]) e') = s.threadsOf (nodes e')) ∧
    (s'.threadsOf (Function.update nodes e (nodes e ++ [node]) e) = s.threadsOf (nodes e) ∨
      s'.threadsOf (Function.update nodes e (nodes e ++ [node]) e) =
        s.threadsOf (nodes e) ++ [t]) := by
  have hold : ∀ e', s'.threadsOf (nodes e') = s.threadsOf (nodes e') := fun e' =>
    List.map_congr_left fun x hx => by
      rw [hdata]
      exact Function.update_of_ne (hfresh e' x hx) _ _
  refine ⟨fun e' he => ?_, .inr ?_⟩
  · rw [Function.update_of_ne he, hold]
  · rw [Function.update_self, ← hold e, State.threadsOf, List.map_append, List.map_singleton, hdata,
      Function.update_self]
    rw [State.threadsOf, hdata]

theorem register_cons {es : List ℕ} {blocks : List (Option ℕ)} :
    register fuel t (e :: es) blocks s =
      (register fuel t [e] blocks s).bind (register fuel t es blocks.tail) := by
  rw [register, register]
  dsimp only
  split_ifs
  · rfl
  · rfl
  · rfl
  · rw [Option.bind_assoc]
    rfl
  · rw [Option.bind_assoc]
    rfl

/-- The registration with one event: the thread is behind the others, or there was no memory. -/
theorem register_one {nodes : ℕ → List ℕ} {blocks : List (Option ℕ)} (hs : s.Lists nodes)
    (h : register fuel t [e] blocks s = some s') :
    ∃ nodes', s'.Lists nodes' ∧ s'.phase = s.phase ∧
      (∀ e', e' ≠ e → s'.threadsOf (nodes' e') = s.threadsOf (nodes e')) ∧
      (s'.threadsOf (nodes' e) = s.threadsOf (nodes e) ∨
        s'.threadsOf (nodes' e) = s.threadsOf (nodes e) ++ [t]) := by
  rw [register] at h
  dsimp only at h
  generalize (blocks.headD none).getD 0 = node at h
  by_cases hnode : node = 0
  · -- no memory: the null pointer is not put on a list
    subst hnode
    simp only [ne_eq, not_true_eq_false, false_and, if_false, if_true] at h
    split_ifs at h with hempty
    · obtain rfl := Option.some.inj h
      have hsame : ({ s.modifyEvent e fun ev => { ev with list := 0 } with nodes := s.nodes } :
          State).event = s.event := by
        funext e'
        by_cases he : e' = e
        · subst he
          simp only [State.modifyEvent, Function.update_self]
          rw [← hempty]
        · simp [State.modifyEvent, he]
      refine ⟨nodes, ⟨fun e' => ?_, hs.disjoint⟩, rfl, fun _ _ => rfl, .inl rfl⟩
      refine ⟨?_, (hs.at' e').2⟩
      rw [hsame]
      exact (hs.at' e').1
    · obtain ⟨H, hH, h⟩ := Option.bind_eq_some_iff.mp h
      obtain rfl := Option.some.inj h
      rw [xtAppendList, if_pos (.inr rfl)] at hH
      obtain rfl := Option.some.inj hH
      exact ⟨nodes, hs, rfl, fun _ _ => rfl, .inl rfl⟩
  · simp only [ne_eq, hnode, not_false_eq_true, true_and, if_false] at h
    split_ifs at h with hused hempty
    all_goals
      rw [Bool.not_eq_true] at hused
      have hfresh : ∀ e', ∀ x ∈ nodes e', x ≠ node := by
        rintro e' x hx rfl
        rw [(hs.at' e').2 x hx] at hused
        cases hused
    · obtain rfl := Option.some.inj h
      have hnil : nodes e = [] := by
        have hlist := (hs.at' e).1
        rw [hempty] at hlist
        exact hlist.unique rfl
      have hlists : State.Lists { s.modifyEvent e fun ev => { ev with list := node } with
          nodes := xtCreateList s.nodes t node } (Function.update nodes e (nodes e ++ [node])) :=
        lists_append hs hnode hused (fun e' he => Function.update_of_ne he _ _)
        (by
          rw [hnil]
          simp [State.modifyEvent, xtCreateList_next, hnode])
        (fun x _ hx => by
          dsimp only
          rw [xtCreateList_next]
          exact Function.update_of_ne hx _ _) rfl
      exact ⟨_, hlists, rfl, threads_append hfresh (xtCreateList_data _ _ _)⟩
    · obtain ⟨H, hH, h⟩ := Option.bind_eq_some_iff.mp h
      obtain rfl := Option.some.inj h
      have hne : nodes e ≠ [] := by
        intro hnil
        have hlist := (hs.at' e).1
        rw [hnil] at hlist
        exact hempty hlist
      have hold : Linked 0 (xtCreateList s.nodes t node).next (s.event e).list (nodes e) 0 := by
        refine (hs.at' e).1.congr fun x hx => ?_
        rw [xtCreateList_next]
        exact Function.update_of_ne (hfresh e x hx) _ _
      have hend : (xtCreateList s.nodes t node).next node = 0 := by
        rw [xtCreateList_next, Function.update_self]
      obtain ⟨hlinked, hdata, hused', hnext⟩ := xtAppendList_linked hold hne hnode
        (fun hmem => hfresh e node hmem rfl) hend hH
      have hlists : State.Lists { s with nodes := H }
          (Function.update nodes e (nodes e ++ [node])) :=
        lists_append hs hnode hused (fun e' _ => rfl) hlinked
        (fun x hx hxn => by
          dsimp only
          rw [hnext x hx, xtCreateList_next]
          exact Function.update_of_ne hxn _ _) hused'
      exact ⟨_, hlists, rfl, threads_append hfresh (hdata.trans (xtCreateList_data _ _ _))⟩

/-- The registration with all events of an array: the thread may be behind the others on each. -/
theorem register_lists {nodes : ℕ → List ℕ} {es : List ℕ} {blocks : List (Option ℕ)}
    (hnd : es.Nodup) (hs : s.Lists nodes) (h : register fuel t es blocks s = some s') :
    ∃ nodes', s'.Lists nodes' ∧ s'.phase = s.phase ∧
      ∀ e, s'.threadsOf (nodes' e) = s.threadsOf (nodes e) ∨
        e ∈ es ∧ s'.threadsOf (nodes' e) = s.threadsOf (nodes e) ++ [t] := by
  induction es generalizing s nodes blocks with
  | nil =>
    obtain rfl := Option.some.inj h
    exact ⟨nodes, hs, rfl, fun e => .inl rfl⟩
  | cons e es ih =>
    obtain ⟨hnot, hnd⟩ := List.nodup_cons.mp hnd
    rw [register_cons] at h
    obtain ⟨s₁, h₁, h⟩ := Option.bind_eq_some_iff.mp h
    obtain ⟨nodes₁, hs₁, hphase₁, hother, hone⟩ := register_one hs h₁
    obtain ⟨nodes', hs', hphase, hthreads⟩ := ih hnd hs₁ h
    refine ⟨nodes', hs', hphase.trans hphase₁, fun e' => ?_⟩
    by_cases he : e' = e
    · subst he
      have hrest : s'.threadsOf (nodes' e') = s₁.threadsOf (nodes₁ e') :=
        (hthreads e').resolve_right fun hmem => hnot hmem.1
      rw [hrest]
      exact hone.imp_right fun happ => ⟨List.mem_cons_self, happ⟩
    · rw [← hother e' he]
      exact (hthreads e').imp_right fun hnew => ⟨List.mem_cons_of_mem _ hnew.1, hnew.2⟩

/-- A first phase that succeeds leaves the lists. -/
theorem tryWait_lists {w : Wait} {i : Option ℕ} (h : tryWait s w = some (s', i)) :
    s'.nodes = s.nodes ∧ ∀ e, (s'.event e).list = (s.event e).list := by
  have hclear : ∀ (s : State) (e x : ℕ), ((s.clear e).event x).list = (s.event x).list := by
    intro s e x
    by_cases hx : x = e
    · simp [State.clear, State.modifyEvent, hx]
    · simp [State.clear, State.modifyEvent, hx]
  rw [tryWait] at h
  split_ifs at h with hall hset
  · obtain ⟨rfl, -⟩ := Prod.mk.inj (Option.some.inj h)
    clear h hset
    induction w.events generalizing s with
    | nil => exact ⟨rfl, fun _ => rfl⟩
    | cons e es ih =>
      obtain ⟨hnodes, hlist⟩ := ih (s := s.clear e)
      exact ⟨hnodes, fun x => (hlist x).trans (hclear s e x)⟩
  · obtain ⟨k, -, heq⟩ := Option.map_eq_some_iff.mp h
    obtain ⟨rfl, -⟩ := Prod.mk.inj heq
    exact ⟨rfl, hclear s _⟩

/-! ### Runs -/

/-- Every list has a thread once, and only threads that are still to be removed from it. -/
structure State.Registered (s : State) (nodes : ℕ → List ℕ) : Prop where
  lists : s.Lists nodes
  nodup : ∀ e, (s.threadsOf (nodes e)).Nodup
  pending : ∀ e, ∀ t ∈ s.threadsOf (nodes e), e ∈ (s.phase t).pending

theorem State.Initial.registered (h : s.Initial) : s.Registered fun _ => [] := by
  refine ⟨⟨fun e => ⟨?_, by simp⟩, fun _ _ _ => by simp⟩, fun _ => List.nodup_nil, by
    simp [State.threadsOf]⟩
  rw [h.event e]
  rfl

variable {nodes : ℕ → List ℕ}

/-- A list that depends on the links and heads only. -/
theorem State.Registered.congr (hs : s.Registered nodes) (hnodes : s'.nodes = s.nodes)
    (hlist : ∀ e, (s'.event e).list = (s.event e).list) (hphase : s'.phase = s.phase) :
    s'.Registered nodes := by
  have hthreadsOf : s'.threadsOf = s.threadsOf := by
    funext xs
    rw [State.threadsOf, hnodes]
    rfl
  refine ⟨⟨fun e => ?_, hs.lists.disjoint⟩, fun e => ?_, fun e u hu => ?_⟩
  · rw [ListAt, hnodes, hlist e]
    exact hs.lists.at' e
  · rw [hthreadsOf]
    exact hs.nodup e
  · rw [hthreadsOf] at hu
    rw [hphase]
    exact hs.pending e u hu

/-- A thread goes where the lists it is on are still pending. -/
theorem State.Registered.goTo {p : Phase} (hs : s.Registered nodes)
    (ht : ∀ e, t ∈ s.threadsOf (nodes e) → e ∈ p.pending) : (s.goTo t p).Registered nodes := by
  refine ⟨⟨hs.lists.at', hs.lists.disjoint⟩, hs.nodup, fun e u hu => ?_⟩
  rw [State.goTo]
  dsimp only
  by_cases hut : u = t
  · subst hut
    rw [Function.update_self]
    exact ht e hu
  · rw [Function.update_of_ne hut]
    exact hs.pending e u hu

/-- A thread with nothing pending is on no list. -/
theorem State.Registered.not_mem {p : Phase} (hs : s.Registered nodes) (hp : s.phase t = p)
    (hnil : p.pending = []) (e : ℕ) : t ∉ s.threadsOf (nodes e) := by
  intro ht
  have hmem := hs.pending e t ht
  rw [hp, hnil] at hmem
  cases hmem

theorem State.Registered.leave {p p' : Phase} (hs : s.Registered nodes) (hp : s.phase t = p)
    (hnil : p.pending = []) : (s.goTo t p').Registered nodes :=
  hs.goTo fun e ht => absurd ht (hs.not_mem hp hnil e)

/-- The registration of a thread that is on no list. -/
theorem registered_register {w : Wait} {blocks : List (Option ℕ)} (hs : s.Registered nodes)
    (hnd : w.events.Nodup) (hp : s.phase t = .check w)
    (h : register fuel t w.events blocks s = some s') :
    ∃ nodes', (s'.goTo t (.sleep w)).Registered nodes' := by
  have hnot : ∀ e, t ∉ s.threadsOf (nodes e) := hs.not_mem hp rfl
  obtain ⟨nodes', hs', hphase, hthreads⟩ := register_lists hnd hs.lists h
  refine ⟨nodes', ⟨hs'.at', hs'.disjoint⟩, fun e => ?_, fun e u hu => ?_⟩
  · change (s'.threadsOf (nodes' e)).Nodup
    obtain heq | ⟨-, heq⟩ := hthreads e
    · rw [heq]
      exact hs.nodup e
    · rw [heq]
      exact List.concat_eq_append ▸ (hs.nodup e).concat (hnot e)
  · change u ∈ s'.threadsOf (nodes' e) at hu
    rw [State.goTo]
    dsimp only
    by_cases hut : u = t
    · subst hut
      rw [Function.update_self]
      obtain heq | ⟨hmem, -⟩ := hthreads e
      · rw [heq] at hu
        exact absurd hu (hnot e)
      · exact hmem
    · rw [Function.update_of_ne hut, hphase]
      have hold : u ∈ s.threadsOf (nodes e) := by
        obtain heq | ⟨-, heq⟩ := hthreads e
        · rwa [heq] at hu
        · rw [heq, List.mem_append, List.mem_singleton] at hu
          exact hu.resolve_right hut
      exact hs.pending e u hold

/-- A clean removal takes the thread off the list of its next event. -/
theorem registered_remove {w : Wait} {i : ℕ} (hs : s.Registered nodes) (hp : s.phase t = .remove w i)
    (hi : i < w.events.length)
    (hclean : ¬ LastBehind t (s.threadsOf (nodes (w.events.getD i 0))))
    (h : removeFromEvent t (w.events.getD i 0) fuel s 0
      (s.event (w.events.getD i 0)).list = some s') :
    ∃ nodes', (s'.goTo t (.remove w (i + 1))).Registered nodes' := by
  have hget : w.events.getD i 0 = w.events[i] := by simp [hi]
  rw [hget] at h hclean
  generalize he : w.events[i] = e at h hclean
  obtain ⟨honly, hout⟩ := removeFromEvent_outcome (hs.lists.at' e) h
  have hphase := (sameFlags_removeFromEvent h).phase
  cases hout with
  | dangling _ hlast => exact absurd hlast hclean
  | removed ys hsub hl hthreads _ =>
    have hthreadsOf : s'.threadsOf = s.threadsOf := by
      funext xs
      rw [State.threadsOf, honly.data]
      rfl
    have hold : ∀ e', e' ≠ e → Function.update nodes e ys e' = nodes e' := fun e' hne =>
      Function.update_of_ne hne _ _
    have hsubset : ∀ e', Function.update nodes e ys e' ⊆ nodes e' := by
      intro e'
      by_cases hne : e' = e
      · subst hne
        rwa [Function.update_self]
      · rw [hold e' hne]
        exact List.Subset.refl _
    have hthreads' : ∀ e', s'.threadsOf (Function.update nodes e ys e') =
        if e' = e then (s.threadsOf (nodes e)).erase t else s.threadsOf (nodes e') := by
      intro e'
      rw [hthreadsOf]
      split_ifs with hne
      · subst hne
        rw [Function.update_self, hthreads]
      · rw [hold e' hne]
    refine ⟨Function.update nodes e ys, ⟨fun e' => ?_, fun e₁ e₂ hne x hx₁ hx₂ => ?_⟩,
      fun e' => ?_, fun e' u hu => ?_⟩
    · change ListAt s' e' _
      by_cases hne : e' = e
      · subst hne
        rwa [Function.update_self]
      · rw [hold e' hne]
        exact honly.listAt hne (hs.lists.disjoint e e' (Ne.symm hne)) (hs.lists.at' e')
    · exact hs.lists.disjoint e₁ e₂ hne (hsubset e₁ hx₁) (hsubset e₂ hx₂)
    · change (s'.threadsOf _).Nodup
      rw [hthreads']
      split_ifs
      · exact (hs.nodup e).erase t
      · exact hs.nodup e'
    · change u ∈ s'.threadsOf _ at hu
      rw [hthreads'] at hu
      have hmem : u ∈ s.threadsOf (nodes e') := by
        split_ifs at hu with hne
        · rw [hne]
          exact List.mem_of_mem_erase hu
        · exact hu
      rw [State.goTo]
      dsimp only
      by_cases hut : u = t
      · -- the thread is left on the lists of its later events only
        subst hut
        rw [Function.update_self]
        have hne : e' ≠ e := by
          rintro rfl
          rw [if_pos rfl] at hu
          exact (hs.nodup e').not_mem_erase hu
        have hpending := hs.pending e' u hmem
        rw [hp, Phase.pending, List.drop_eq_getElem_cons hi, he, List.mem_cons] at hpending
        exact hpending.resolve_left hne
      · rw [Function.update_of_ne hut, hphase]
        exact hs.pending e' u hmem

/-- A wait goes on or gives up only when it went through its whole array. -/
theorem exec_again (h : s.exec fuel (.again t) = some s') :
    ∃ w i, s.phase t = .remove w i ∧ w.events.length ≤ i := by
  rw [State.exec] at h
  split at h
  · rename_i w i hp
    split_ifs at h with hi
    all_goals exact ⟨w, i, hp, Nat.le_of_not_lt hi⟩
  · cases h

/-- Clean steps keep the lists. -/
theorem step_registered (hd : s.Distinct) (hs : s.Registered nodes) (h : CleanStep s s') :
    ∃ nodes', s'.Registered nodes' := by
  obtain ⟨fuel, a, -, hclean, h⟩ := h
  have hstepped := exec_cases h
  cases hstepped with
  | @signal t e s₁ hp hsignal =>
    obtain ⟨hlists, hdata, hphase, -⟩ := xtSignalEvent_lists hs.lists hsignal
    have hsub : ∀ e', (s'.threadsOf (Function.update nodes e [] e')).Sublist
        (s.threadsOf (nodes e')) := by
      intro e'
      rw [State.threadsOf, hdata]
      refine List.Sublist.map _ ?_
      by_cases hne : e' = e
      · subst hne
        rw [Function.update_self]
        exact List.nil_sublist _
      · rw [Function.update_of_ne hne]
    refine ⟨_, hlists, fun e' => (hs.nodup e').sublist (hsub e'), fun e' u hu => ?_⟩
    rw [hphase]
    exact hs.pending e' u ((hsub e').subset hu)
  | @reset t e hp =>
    refine ⟨nodes, hs.congr rfl (fun x => ?_) rfl⟩
    by_cases hx : x = e
    · simp [xtResetEvent, State.clear, State.modifyEvent, hx]
    · simp [xtResetEvent, State.clear, State.modifyEvent, hx]
  | callEmpty hp _ => exact ⟨nodes, (hs.leave hp rfl).congr rfl (fun _ => rfl) rfl⟩
  | call hp _ => exact ⟨nodes, hs.leave hp rfl⟩
  | success hp hw =>
    obtain ⟨hnodes, hlist⟩ := tryWait_lists hw
    have hs₁ := hs.congr hnodes hlist (tryWait_phase hw)
    rw [← tryWait_phase hw] at hp
    exact ⟨nodes, (hs₁.leave hp rfl).congr rfl (fun _ => rfl) rfl⟩
  | register hp _ hr => exact registered_register hs (hd _ _ (by rw [hp]; rfl)) hp hr
  | @sleep t w hp m =>
    have hmoved := hs.goTo (t := t) (p := .asleep w) fun e ht => by
      have hmem := hs.pending e t ht
      rwa [hp] at hmem
    exact ⟨nodes, hmoved.congr rfl (fun _ => rfl) rfl⟩
  | resume hp _ =>
    exact ⟨nodes, hs.goTo fun e ht => by
      have hmem := hs.pending e _ ht
      rwa [hp] at hmem⟩
  | @remove t i w s₁ hp hi hr =>
    have hlast := hclean w i _ hp (hs.lists.at' (w.events.getD i 0)).1
    exact registered_remove hs hp hi hlast hr
  | timeout hp =>
    obtain ⟨w, i, hp', hle⟩ := exec_again h
    have hnil : (Phase.remove w i).pending = [] := List.drop_eq_nil_of_le hle
    exact ⟨nodes, (hs.leave hp' hnil).congr rfl (fun _ => rfl) rfl⟩
  | again hp =>
    obtain ⟨w, i, hp', hle⟩ := exec_again h
    have hnil : (Phase.remove w i).pending = [] := List.drop_eq_nil_of_le hle
    exact ⟨nodes, hs.leave hp' hnil⟩
  | threads m => exact ⟨nodes, hs.congr rfl (fun _ => rfl) rfl⟩

theorem reachable_registered (h : Reachable State.Initial CleanStep s) :
    ∃ nodes, s.Registered nodes := by
  have hinv : s.Distinct ∧ ∃ nodes, s.Registered nodes := by
    refine h.invariant (I := fun s => s.Distinct ∧ ∃ nodes, s.Registered nodes)
      (fun _ h0 => ⟨h0.invariant.distinct, _, h0.registered⟩) ?_
    rintro s₁ s₂ ⟨hd, nodes, hs⟩ hstep
    refine ⟨?_, step_registered hd hs hstep⟩
    obtain ⟨fuel, a, ha, -, h⟩ := hstep
    exact exec_distinct h ha hd
  exact hinv.2

theorem pending_wait {p : Phase} (h : e ∈ p.pending) : ∃ w, p.wait? = some w ∧ e ∈ w.events := by
  cases p with
  | idle => cases h
  | check w => cases h
  | sleep w => exact ⟨w, rfl, h⟩
  | asleep w => exact ⟨w, rfl, h⟩
  | remove w i => exact ⟨w, rfl, List.mem_of_mem_drop h⟩

/-- A signal touches the records of threads in a wait for its event only. -/
theorem signal_waiting (hs : s.Registered nodes) {u : ℕ}
    (h : s.exec fuel (.signal u e) = some s') (ht : s'.thread t ≠ s.thread t) :
    ∃ w, (s.phase t).wait? = some w ∧ e ∈ w.events := by
  rw [State.exec] at h
  split_ifs at h
  obtain ⟨-, -, -, hthread⟩ := xtSignalEvent_lists hs.lists h
  have hmem : t ∈ s.threadsOf (nodes e) := by
    by_contra hnot
    exact ht (hthread t hnot)
  exact pending_wait (hs.pending e t hmem)

/-- `removeFromAllEvents` takes one occurrence of the thread off every list and leaves no freed
    node linked if and only if the thread is on none of them the last one behind others. In a run
    of such removals a thread that is in no wait is on no list, and a signal wakes only threads
    that are still waiting for its event. -/
theorem removeFromAllEvents_iff (s : State) :
    (∀ (nodes : ℕ → List ℕ) (es : List ℕ) (t fuel : ℕ), s.Lists nodes → es.Nodup →
      (∀ e ∈ es, (nodes e).length < fuel) →
      ∃ s', removeFromAllEvents fuel t es s = some s' ∧
        ((∀ e ∈ es, Removed t (s.threadsOf (nodes e)) s' e) ↔
          ∀ e ∈ es, ¬ LastBehind t (s.threadsOf (nodes e)))) ∧
    (Reachable State.Initial CleanStep s →
      (∃ nodes, s.Lists nodes ∧
        ∀ t, s.phase t = .idle → ∀ e, t ∉ s.threadsOf (nodes e)) ∧
      ∀ fuel u e s', s.exec fuel (.signal u e) = some s' → ∀ t, s'.thread t ≠ s.thread t →
        ∃ w, (s.phase t).wait? = some w ∧ e ∈ w.events) := by
  refine ⟨fun nodes es t fuel hs hnd hfuel => ?_, fun h => ?_⟩
  · have hlists : ∀ e ∈ es, ListAt s e (nodes e) := fun e _ => hs.at' e
    obtain ⟨s', h⟩ := removeFromAllEvents_returns hnd hlists hs.disjoint hfuel
    obtain ⟨-, hdata, hout⟩ := removeFromAllEvents_outcome hnd hlists hs.disjoint h
    exact ⟨s', h, forall₂_congr fun e he => (hout e he).removed_iff hdata⟩
  · obtain ⟨nodes, hs⟩ := reachable_registered h
    refine ⟨⟨nodes, hs.lists, fun t hp => hs.not_mem hp rfl⟩, fun fuel u e s' h t ht => ?_⟩
    exact signal_waiting hs h ht

/-- Thread 10 waits for event 7, and thread 20 for the events 7 and 8. -/
def waitSeven : Wait := ⟨[7], 0, infinite, true⟩

def waitBoth : Wait := ⟨[7, 8], 0, infinite, true⟩

/-- Both threads are registered, and event 8 woke thread 20: it is last behind 10 for event 7. -/
theorem both_registered : ∃ s, Reachable State.Initial CleanStep s ∧
    s.phase 20 = .remove waitBoth 0 ∧ ListAt s 7 [1, 2] ∧ ListAt s 8 [] ∧
    s.threadsOf [1, 2] = [10, 20] ∧
    ∃ s₁ s₂ s₃ s₄, State.exec 3 s (.remove 20) = some s₁ ∧ State.exec 1 s₁ (.remove 20) = some s₂ ∧
      State.exec 1 s₂ (.again 20) = some s₃ ∧ State.exec 1 s₃ (.check 20 []) = some s₄ ∧
      s₄.phase 20 = .idle ∧ Linked 0 s₄.nodes.next (s₄.event 7).list [1, 2] 0 ∧
      s₄.threadsOf [1, 2] = [10, 20] ∧ s₄.nodes.used 2 = false := by
  have hstart : Reachable State.Initial CleanStep fresh :=
    .start ⟨fun _ => rfl, fun _ => rfl, fun _ => rfl, rfl⟩
  have hten := (hstart.next ⟨1, .call 10 waitSeven, by simp [Action.Distinct, waitSeven], trivial,
    rfl⟩).next ⟨1, .check 10 [some 1], trivial, trivial, rfl⟩
  have htwenty := (hten.next ⟨1, .call 20 waitBoth, by simp [Action.Distinct, waitBoth], trivial,
    rfl⟩).next ⟨3, .check 20 [some 2, some 3], trivial, trivial, rfl⟩
  have hlast := (htwenty.next ⟨1, .sleep 20, trivial, trivial, rfl⟩).next
    ⟨2, .signal 30 8, trivial, trivial, rfl⟩ |>.next ⟨1, .resume 20, trivial, trivial, rfl⟩
  refine ⟨_, hlast, rfl, ⟨⟨rfl, by decide, rfl, by decide, rfl⟩, by decide⟩, ⟨rfl, by simp⟩,
    by decide, _, _, _, _, rfl, rfl, rfl, rfl, rfl, ⟨rfl, by decide, rfl, by decide, rfl⟩,
    by decide, by decide⟩

/-- Thread 10 is taken off both lists. -/
theorem removeFromAllEvents_iff_first : ∃ s s', Reachable State.Initial CleanStep s ∧
    s.threadsOf [1, 2] = [10, 20] ∧ removeFromAllEvents 3 10 [7, 8] s = some s' ∧
    Removed 10 [10, 20] s' 7 ∧
    ∀ fuel u e s', s.exec fuel (.signal u e) = some s' → ∀ t, s'.thread t ≠ s.thread t →
      ∃ w, (s.phase t).wait? = some w ∧ e ∈ w.events := by
  obtain ⟨s, hrun, -, hseven, height, hthreads, -⟩ := both_registered
  obtain ⟨⟨nodes, hs, -⟩, hsignal⟩ := (removeFromAllEvents_iff s).2 hrun
  have h7 : nodes 7 = [1, 2] := (hs.at' 7).1.unique hseven.1
  have h8 : nodes 8 = [] := (hs.at' 8).1.unique height.1
  obtain ⟨s', h, hiff⟩ := (removeFromAllEvents_iff s).1 nodes [7, 8] 10 3 hs (by decide)
    (by simp [h7, h8])
  have hclean : ∀ e ∈ [7, 8], ¬ LastBehind 10 (s.threadsOf (nodes e)) := by
    simp only [List.mem_cons, List.not_mem_nil, or_false, forall_eq_or_imp, forall_eq, h7, h8,
      hthreads]
    exact ⟨@not_lastBehind 10 [] [20] (by simp) (.inl rfl),
      fun ⟨us, _, _, heq⟩ => by simp [State.threadsOf] at heq⟩
  have hremoved := hiff.mpr hclean 7 (by simp)
  rw [h7, hthreads] at hremoved
  exact ⟨s, s', hrun, hthreads, h, hremoved, hsignal⟩

/-- Thread 20, last behind thread 10, stays on the list with its freed node: its wait returns, and
    the node is still there. -/
theorem freed_node_linked :
    (∃ s nodes s', s.Lists nodes ∧ removeFromAllEvents 3 20 [7, 8] s = some s' ∧
      s.threadsOf (nodes 7) = [10, 20] ∧ ¬ Removed 20 [10, 20] s' 7) ∧
    ∃ s, Reachable State.Initial Step s ∧ s.phase 20 = .idle ∧
      Linked 0 s.nodes.next (s.event 7).list [1, 2] 0 ∧ s.threadsOf [1, 2] = [10, 20] ∧
      s.nodes.used 2 = false := by
  obtain ⟨s, hrun, -, hseven, height, hthreads, s₁, s₂, s₃, s₄, h₁, h₂, h₃, h₄, hidle, hlinked,
    hdata, hfreed⟩ := both_registered
  obtain ⟨nodes, hs⟩ := reachable_registered hrun
  have h7 : nodes 7 = [1, 2] := (hs.lists.at' 7).1.unique hseven.1
  have h8 : nodes 8 = [] := (hs.lists.at' 8).1.unique height.1
  have hlists : ∀ e ∈ [7, 8], ListAt s e (nodes e) := fun e _ => hs.lists.at' e
  refine ⟨?_, ?_⟩
  · obtain ⟨s', h⟩ : ∃ s', removeFromAllEvents 3 20 [7, 8] s = some s' :=
      removeFromAllEvents_returns (by decide) hlists hs.lists.disjoint (by simp [h7, h8])
    obtain ⟨-, hnodes, hout⟩ :=
      removeFromAllEvents_outcome (by decide) hlists hs.lists.disjoint h
    have hiff := (hout 7 (by simp)).removed_iff hnodes
    rw [h7, hthreads] at hiff
    refine ⟨s, nodes, s', hs.lists, h, by rw [h7, hthreads], fun hremoved => ?_⟩
    exact hiff.mp hremoved ⟨[10], by simp, by simp, rfl⟩
  · have hsteps : Reachable State.Initial Step s :=
      hrun.invariant (fun _ h0 => .start h0) fun _ _ hs ⟨fuel, a, ha, _, h⟩ =>
        hs.next ⟨fuel, a, ha, h⟩
    have hlast := (hsteps.next ⟨3, .remove 20, trivial, h₁⟩).next ⟨1, .remove 20, trivial, h₂⟩
      |>.next ⟨1, .again 20, trivial, h₃⟩ |>.next ⟨1, .check 20 [], trivial, h₄⟩
    exact ⟨s₄, hlast, hidle, hlinked, hdata, hfreed⟩

end XTOS.Event

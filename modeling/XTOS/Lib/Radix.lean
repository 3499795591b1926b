import Mathlib.Tactic

/-!
# Radix trees of linked tables

Tables stored in a memory and linked by their entries, seen through the slots that
hold the entries. A walk reads a slot and goes on to a slot of the table its entry
leads to, one index at a time.

## Main definitions

- `stop` — the slot at which a walk along a list of indices ends
- `Owned` — every slot of the tree is given the one list of indices that leads to it
- `stop_congr`, `stop_append` — walks that miss, and walks that pass, a changed slot

## Design notes

`child n e i` is slot `i` of the table that entry `e`, found at depth `n`, leads to.
The tree is unshared because `owner` is a function: a slot cannot have two paths.
-/

namespace SysLib.Radix

/-- A table of 512 entries has a first one. -/
instance neZero_512 : NeZero 512 := ⟨by decide⟩

variable {σ ε κ : Type*} (child : ℕ → ε → κ → Option σ)

/-- Where a walk from slot `s` at depth `n` stops, and the indices it has not used. -/
def stop (read : σ → ε) (n : ℕ) (s : σ) : List κ → σ × List κ
  | [] => (s, [])
  | i :: path =>
    match child n (read s) i with
    | some s' => stop read (n + 1) s' path
    | none => (s, i :: path)

/-- The labels of an unshared tree: the root is reached by no index, and slot `i` of the
    table below a slot by one index more. -/
structure Owned (read : σ → ε) (root : σ) (owner : σ → Option (List κ)) : Prop where
  root : owner root = some []
  child : ∀ {s s' : σ} {p : List κ} {i : κ}, owner s = some p →
    child p.length (read s) i = some s' → owner s' = some (p ++ [i])

variable {child} {read read' : σ → ε} {root t : σ} {owner owner' : σ → Option (List κ)}
  {r : List κ}

@[simp] theorem stop_nil (n : ℕ) (s : σ) : stop child read n s [] = (s, []) := rfl

theorem stop_cons_of_some {n : ℕ} {s s' : σ} {i : κ} (h : child n (read s) i = some s')
    (path : List κ) :
    stop child read n s (i :: path) = stop child read (n + 1) s' path := by
  simp [stop, h]

theorem stop_cons_of_none {n : ℕ} {s : σ} {i : κ} (h : child n (read s) i = none)
    (path : List κ) : stop child read n s (i :: path) = (s, i :: path) := by
  simp [stop, h]

theorem stop_length_le (n : ℕ) (s : σ) (p : List κ) :
    (stop child read n s p).2.length ≤ p.length := by
  induction p generalizing n s with
  | nil => exact le_rfl
  | cons i p ih =>
    cases hc : child n (read s) i with
    | none => rw [stop_cons_of_none hc]
    | some s' =>
      rw [stop_cons_of_some hc]
      exact (ih (n + 1) s').trans (Nat.le_succ _)

/-- A walk that gets to slot `t` goes on from there. -/
theorem stop_append {n : ℕ} {s : σ} {p : List κ} (h : stop child read n s p = (t, []))
    (q : List κ) :
    stop child read n s (p ++ q) = stop child read (n + p.length) t q := by
  induction p generalizing n s with
  | nil =>
    cases h
    rfl
  | cons i p ih =>
    cases hc : child n (read s) i with
    | none =>
      rw [stop_cons_of_none hc] at h
      cases h
    | some s' =>
      rw [stop_cons_of_some hc] at h
      rw [List.cons_append, stop_cons_of_some hc, ih h, List.length_cons, add_right_comm,
        add_assoc]

/-- A walk that uses all its indices gets to the slots on the way. -/
theorem stop_split {n : ℕ} {s : σ} {p q : List κ} (h : stop child read n s (p ++ q) = (t, [])) :
    ∃ u, stop child read n s p = (u, []) ∧ stop child read (n + p.length) u q = (t, []) := by
  induction p generalizing n s with
  | nil => exact ⟨s, rfl, h⟩
  | cons i p ih =>
    rw [List.cons_append] at h
    cases hc : child n (read s) i with
    | none =>
      rw [stop_cons_of_none hc] at h
      cases h
    | some s' =>
      rw [stop_cons_of_some hc] at h
      obtain ⟨u, hu, hrest⟩ := ih h
      refine ⟨u, by rw [stop_cons_of_some hc, hu], ?_⟩
      rwa [List.length_cons, Nat.add_comm p.length, ← Nat.add_assoc]

/-- A walk gets to the slot it stops at by the indices it uses, and the entry there does not lead
    on to the next index. -/
theorem stop_used (n : ℕ) (s : σ) (path : List κ) :
    ∃ used, path = used ++ (stop child read n s path).2 ∧
      stop child read n s used = ((stop child read n s path).1, []) ∧
      ∀ i rest, (stop child read n s path).2 = i :: rest →
        child (n + used.length) (read (stop child read n s path).1) i = none := by
  induction path generalizing n s with
  | nil => exact ⟨[], rfl, rfl, by simp⟩
  | cons i path ih =>
    cases hc : child n (read s) i with
    | none =>
      rw [stop_cons_of_none hc]
      refine ⟨[], rfl, rfl, ?_⟩
      rintro j rest ⟨⟩
      exact hc
    | some s' =>
      obtain ⟨used, hpath, hused, hstuck⟩ := ih (n + 1) s'
      rw [stop_cons_of_some hc]
      refine ⟨i :: used, by rw [List.cons_append, ← hpath], ?_, fun j rest hrest => ?_⟩
      · rw [stop_cons_of_some hc, hused]
      · rw [List.length_cons, Nat.add_comm used.length, ← Nat.add_assoc]
        exact hstuck j rest hrest

/-- The label of a slot that a walk gets to. -/
theorem Owned.owner_of_stop (h : Owned child read root owner) {s : σ} {p used : List κ}
    (hs : owner s = some p) (hused : stop child read p.length s used = (t, [])) :
    owner t = some (p ++ used) := by
  induction used generalizing s p with
  | nil =>
    cases hused
    rw [hs, List.append_nil]
  | cons i used ih =>
    cases hc : child p.length (read s) i with
    | none =>
      rw [stop_cons_of_none hc] at hused
      cases hused
    | some s' =>
      rw [stop_cons_of_some hc] at hused
      rw [ih (h.child hs hc) (by rwa [List.length_append, List.length_singleton]),
        List.append_assoc, List.singleton_append]

/-- The slot a walk stops at is the one its used indices lead to, and its entry does not
    lead on to the next index. -/
theorem Owned.stop_owner (h : Owned child read root owner) {s : σ} {p : List κ}
    (hs : owner s = some p) (path : List κ) :
    ∃ used, path = used ++ (stop child read p.length s path).2 ∧
      owner (stop child read p.length s path).1 = some (p ++ used) ∧
      ∀ i rest, (stop child read p.length s path).2 = i :: rest →
        child (p ++ used).length (read (stop child read p.length s path).1) i = none := by
  obtain ⟨used, hpath, hused, hstuck⟩ := @stop_used _ _ _ child read p.length s path
  refine ⟨used, hpath, h.owner_of_stop hs hused, fun i rest hrest => ?_⟩
  rw [List.length_append]
  exact hstuck i rest hrest

/-- **Frame**: a change of slot `t` alone does not matter to a walk that does not pass
    it. -/
theorem stop_congr (h : Owned child read root owner) (ht : owner t = some r)
    (hread : ∀ s, s ≠ t → owner s ≠ none → read' s = read s) {s : σ} {p path : List κ}
    (hs : owner s = some p) (hmiss : ¬ r <+: p ++ path) :
    stop child read' p.length s path = stop child read p.length s path ∧
      read' (stop child read p.length s path).1 =
        read (stop child read p.length s path).1 := by
  have hne : s ≠ t := by
    rintro rfl
    rw [hs] at ht
    cases ht
    exact hmiss (List.prefix_append _ _)
  have hsame : read' s = read s := hread s hne (by simp [hs])
  induction path generalizing s p with
  | nil => exact ⟨rfl, hsame⟩
  | cons i path ih =>
    cases hc : child p.length (read s) i with
    | none =>
      rw [stop_cons_of_none hc, stop_cons_of_none (by rw [hsame, hc])]
      exact ⟨rfl, hsame⟩
    | some s' =>
      have hs' := h.child hs hc
      have hmiss' : ¬ r <+: (p ++ [i]) ++ path := by simpa using hmiss
      have hne' : s' ≠ t := by
        rintro rfl
        rw [hs'] at ht
        cases ht
        exact hmiss' (List.prefix_append _ _)
      have hrec := ih hs' hmiss' hne' (hread s' hne' (by simp [hs']))
      rw [List.length_append, List.length_singleton] at hrec
      rw [stop_cons_of_some hc, stop_cons_of_some (by rw [hsame, hc])]
      exact hrec

/-- The walk to slot `t` does not read `t`. -/
theorem stop_congr_self (h : Owned child read root owner) (ht : owner t = some r)
    (hread : ∀ s, s ≠ t → owner s ≠ none → read' s = read s) {s : σ} {p path : List κ}
    (hs : owner s = some p) (hr : r = p ++ path)
    (hstop : stop child read p.length s path = (t, [])) :
    stop child read' p.length s path = (t, []) := by
  induction path generalizing s p with
  | nil => exact hstop
  | cons i path ih =>
    have hne : s ≠ t := by
      rintro rfl
      rw [hs, Option.some.injEq] at ht
      simp [← ht] at hr
    have hsame : read' s = read s := hread s hne (by simp [hs])
    cases hc : child p.length (read s) i with
    | none =>
      rw [stop_cons_of_none hc] at hstop
      cases hstop
    | some s' =>
      rw [stop_cons_of_some hc] at hstop
      rw [stop_cons_of_some (by rw [hsame, hc])]
      have hrec := ih (h.child hs hc) (by simpa using hr)
      rw [List.length_append, List.length_singleton] at hrec
      exact hrec hstop

/-- **Frame**: what does not change a slot of the tree changes no walk in it. -/
theorem Owned.stop_congr (h : Owned child read root owner)
    (hread : ∀ s, owner s ≠ none → read' s = read s) {s : σ} {p : List κ}
    (hs : owner s = some p) (path : List κ) :
    stop child read' p.length s path = stop child read p.length s path := by
  induction path generalizing s p with
  | nil => rfl
  | cons i path ih =>
    have hsame : read' s = read s := hread s (by simp [hs])
    cases hc : child p.length (read s) i with
    | none => rw [stop_cons_of_none hc, stop_cons_of_none (by rw [hsame, hc])]
    | some s' =>
      have hrec := ih (h.child hs hc)
      rw [List.length_append, List.length_singleton] at hrec
      rw [stop_cons_of_some hc, stop_cons_of_some (by rw [hsame, hc])]
      exact hrec

theorem Owned.congr (h : Owned child read root owner)
    (hread : ∀ s, owner s ≠ none → read' s = read s) : Owned child read' root owner := by
  refine ⟨h.root, fun {s s' p i} hs hc => h.child hs ?_⟩
  rwa [← hread s (by simp [hs])]

/-- A walk into a table without links stops in it. -/
theorem stop_blank {n : ℕ} {s : σ} (hblank : ∀ i, child n (read s) i = none) (path : List κ) :
    stop child read n s path = (s, path) := by
  cases path with
  | nil => rfl
  | cons i path => exact stop_cons_of_none (hblank i) path

/-- In a tree in which no slot has two paths, the paths label the slots. -/
theorem exists_owned (hinj : ∀ p q s, stop child read 0 root p = (s, []) →
    stop child read 0 root q = (s, []) → p = q) :
    ∃ owner : σ → Option (List κ), Owned child read root owner ∧
      ∀ s p, owner s = some p ↔ stop child read 0 root p = (s, []) := by
  classical
  let owner : σ → Option (List κ) := fun s =>
    if h : ∃ p, stop child read 0 root p = (s, []) then some h.choose else none
  have hiff : ∀ s p, owner s = some p ↔ stop child read 0 root p = (s, []) := by
    intro s p
    by_cases h : ∃ p, stop child read 0 root p = (s, [])
    · simp only [owner, dif_pos h, Option.some.injEq]
      exact ⟨fun heq => heq ▸ h.choose_spec, fun hp => hinj _ _ _ h.choose_spec hp⟩
    · simp only [owner, dif_neg h, reduceCtorEq, false_iff]
      exact fun hp => h ⟨p, hp⟩
  refine ⟨owner, ⟨(hiff root []).mpr rfl, fun hs hc => ?_⟩, hiff⟩
  rw [hiff] at hs ⊢
  rw [stop_append hs, zero_add, stop_cons_of_some hc, stop_nil]

/-- A changed slot that still leads where the labels say leaves the tree unshared. -/
theorem Owned.update (h : Owned child read root owner) (ht : owner t = some r)
    (hread : ∀ s, s ≠ t → owner s ≠ none → read' s = read s)
    (hkeep : ∀ s, owner s ≠ none → owner' s = owner s)
    (hnew : ∀ i s', child r.length (read' t) i = some s' → owner' s' = some (r ++ [i]))
    (hblank : ∀ s p i, owner s = none → owner' s = some p → child p.length (read' s) i = none) :
    Owned child read' root owner' := by
  refine ⟨?_, ?_⟩
  · rw [hkeep root (by simp [h.root]), h.root]
  · intro s s' p i hs hc
    cases hso : owner s with
    | none =>
      rw [hblank s p i hso hs] at hc
      cases hc
    | some q =>
      rw [hkeep s (by simp [hso]), hso] at hs
      cases hs
      by_cases hst : s = t
      · subst s
        rw [hso] at ht
        cases ht
        exact hnew i s' hc
      · rw [hread s hst (by simp [hso])] at hc
        have ho := h.child hso hc
        rw [hkeep s' (by simp [ho]), ho]

end SysLib.Radix

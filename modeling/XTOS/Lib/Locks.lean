import Mathlib.Data.Finite.Defs
import Mathlib.Data.List.Nodup
import Mathlib.Data.Fintype.Lattice
import Mathlib.Data.Fintype.EquivFin
import Mathlib.Tactic.Common

/-!
# Locks and their holders

Locks as busy flags, and the lists of locks that each thread holds.

## Main definitions

- `Owned` — the busy locks are those held, each by one thread and once

## Main results

- `Owned.take`, `Owned.release` — taking a free lock, releasing the first one
- `not_cycle_of_rank` — no cycle of waits goes along a rank
-/

namespace SysLib

variable {T L : Type*}

/-- The busy locks are those held, each of them by one thread and once. -/
structure Owned (busy : L → Bool) (held : T → List L) : Prop where
  busy_iff : ∀ e, busy e = true ↔ ∃ t, e ∈ held t
  nodup : ∀ t, (held t).Nodup
  disjoint : ∀ t u, t ≠ u → List.Disjoint (held t) (held u)

variable {busy : L → Bool} {held held' : T → List L}

theorem Owned.not_mem (h : Owned busy held) {e : L} (hfree : busy e = false) (t : T) :
    e ∉ held t := by
  intro he
  rw [(h.busy_iff e).mpr ⟨t, he⟩] at hfree
  cases hfree

variable [DecidableEq T] [DecidableEq L]

/-- A thread takes a free lock. -/
theorem Owned.take (h : Owned busy held) {e : L} (hfree : busy e = false) (t : T) :
    Owned (Function.update busy e true) (Function.update held t (held t ++ [e])) := by
  have hnot := h.not_mem hfree
  have hheld : ∀ u, u ≠ t → Function.update held t (held t ++ [e]) u = held u :=
    fun u hu => Function.update_of_ne hu _ _
  have hself : Function.update held t (held t ++ [e]) t = held t ++ [e] :=
    Function.update_self _ _ _
  -- the lock is new to the thread, and to every other one
  have hdisjoint : ∀ u, u ≠ t → List.Disjoint (held t ++ [e]) (held u) := by
    intro u hu x hx hxu
    obtain hx | hx := List.mem_append.mp hx
    · exact h.disjoint t u hu.symm hx hxu
    · rw [List.mem_singleton.mp hx] at hxu
      exact hnot u hxu
  refine ⟨fun x => ?_, fun u => ?_, fun u v huv => ?_⟩
  · by_cases hx : x = e
    · subst hx
      rw [Function.update_self]
      exact iff_of_true rfl ⟨t, by rw [hself]; simp⟩
    · rw [Function.update_of_ne hx, h.busy_iff x]
      refine exists_congr fun u => ?_
      by_cases hu : u = t
      · rw [hu, hself]
        simp [hx]
      · rw [hheld u hu]
  · by_cases hu : u = t
    · rw [hu, hself, List.nodup_append]
      refine ⟨h.nodup t, List.nodup_singleton e, fun a ha b hb => ?_⟩
      rw [List.mem_singleton.mp hb]
      rintro rfl
      exact hnot t ha
    · rw [hheld u hu]
      exact h.nodup u
  · by_cases hu : u = t
    · rw [hu, hself, hheld v (hu ▸ huv.symm)]
      exact hdisjoint v (hu ▸ huv.symm)
    · rw [hheld u hu]
      by_cases hv : v = t
      · rw [hv, hself]
        exact (hdisjoint u hu).symm
      · rw [hheld v hv]
        exact h.disjoint u v huv

/-- A thread releases the first of its locks. -/
theorem Owned.release (h : Owned busy held) {e : L} {t : T} {rest : List L}
    (ht : held t = e :: rest) :
    Owned (Function.update busy e false) (Function.update held t rest) := by
  have hheld : ∀ u, u ≠ t → Function.update held t rest u = held u :=
    fun u hu => Function.update_of_ne hu _ _
  have hself : Function.update held t rest t = rest := Function.update_self _ _ _
  have hnd := h.nodup t
  rw [ht] at hnd
  obtain ⟨hrest, hnd⟩ := List.nodup_cons.mp hnd
  have hsub : ∀ u, Function.update held t rest u ⊆ held u := by
    intro u
    by_cases hu : u = t
    · rw [hu, hself, ht]
      exact List.subset_cons_self e rest
    · rw [hheld u hu]
      exact List.Subset.refl _
  refine ⟨fun x => ?_, fun u => ?_, fun u v huv => ?_⟩
  · by_cases hx : x = e
    · subst hx
      rw [Function.update_self]
      refine iff_of_false Bool.false_ne_true ?_
      rintro ⟨u, hu⟩
      by_cases hut : u = t
      · rw [hut, hself] at hu
        exact hrest hu
      · exact h.disjoint t u (Ne.symm hut) (by rw [ht]; simp) (hsub u hu)
    · rw [Function.update_of_ne hx, h.busy_iff x]
      refine exists_congr fun u => ?_
      by_cases hu : u = t
      · rw [hu, hself, ht]
        simp [hx]
      · rw [hheld u hu]
  · by_cases hu : u = t
    · rw [hu, hself]
      exact hnd
    · rw [hheld u hu]
      exact h.nodup u
  · intro x hxu hxv
    exact h.disjoint u v huv (hsub u hxu) (hsub v hxv)

/-- Along a cycle a rank cannot go up at every step. -/
theorem not_cycle_of_rank {n : ℕ} (f : Fin (n + 1) → ℕ) : ¬ ∀ i, f i < f (i + 1) := by
  intro h
  obtain ⟨i, hi⟩ := Finite.exists_max f
  exact absurd (h i) (Nat.not_lt.mpr (hi (i + 1)))

end SysLib

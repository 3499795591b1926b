import Mathlib.Tactic

/-!
# Runs of a transition system

Reachability for an arbitrary step relation, with the induction principle that
turns a step lemma into a statement about every state of every run.

## Main definitions

- `Reachable` — states reached from an initial state by finitely many steps
- `Reachable.invariant` — what every step preserves holds in every reached state
- `update_cases` — what holds of a party after one of them has moved
-/

namespace SysLib

/-- Blocks of memory, an address with a size, are compared as pairs. -/
instance lawfulBEq_pair : LawfulBEq (ℕ × ℕ) := Prod.instLawfulBEq

variable {σ : Type*} {init : σ → Prop} {step : σ → σ → Prop}

/-- The states that finitely many steps reach from an initial state. -/
inductive Reachable (init : σ → Prop) (step : σ → σ → Prop) : σ → Prop
  | start {s : σ} : init s → Reachable init step s
  | next {s s' : σ} : Reachable init step s → step s s' → Reachable init step s'

/-- **Invariant rule**: a property of the initial states that every step
    preserves holds in every reachable state. -/
theorem Reachable.invariant {I : σ → Prop} {s : σ} (h : Reachable init step s)
    (hinit : ∀ s, init s → I s) (hstep : ∀ s s', I s → step s s' → I s') : I s := by
  induction h with
  | start h0 => exact hinit _ h0
  | next _ hs ih => exact hstep _ _ ih hs

/-- Where one party has moved to `p`, a fact about a party is one about `p`, or it was there before
    for another party. -/
theorem update_cases {ι α : Type*} [DecidableEq ι] {f : ι → α} {t u : ι} {p : α} {P : α → Prop}
    (h : P (Function.update f t p u)) : u = t ∧ P p ∨ u ≠ t ∧ P (f u) := by
  by_cases hu : u = t
  · subst hu
    rw [Function.update_self] at h
    exact .inl ⟨rfl, h⟩
  · rw [Function.update_of_ne hu] at h
    exact .inr ⟨hu, h⟩

end SysLib

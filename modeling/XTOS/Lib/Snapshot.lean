import Mathlib.Tactic

/-!
# Reading what is being updated

A record that is read one field after the other while somebody else changes it, also one field after the
other. The reader can see whether a change is in progress, and how often it has read the same.

## Main definitions

- `Quiet` — states over time: while no change is in progress and none begins, nothing changes
- `sample` — the fields, each read one moment after the one before

## Main results

- `Quiet.snapshot` — two samples that agree, with at most one change from the first to the end of the
  second: they are the fields of one moment at which no change was in progress
- `Quiet.agree` — with at most one change in all, two of four samples in a row agree
-/

namespace SysLib

variable {σ α : Type*} {idle : σ → Prop} {begun : σ → ℕ} {run : ℕ → σ}

/-- The states over time: `begun` counts the changes, and without one in progress and without a new one
    the state stays as it is. -/
structure Quiet (idle : σ → Prop) (begun : σ → ℕ) (run : ℕ → σ) : Prop where
  mono : Monotone (begun ∘ run)
  still : ∀ {m n}, m ≤ n → idle (run m) → begun (run n) = begun (run m) → run n = run m

/-- Steps that count the changes they begin. -/
theorem Quiet.of_steps {step : σ → σ → Prop} (hsteps : ∀ n, Relation.ReflTransGen step (run n) (run (n + 1)))
    (hmono : ∀ s s', step s s' → begun s ≤ begun s')
    (hbegin : ∀ s s', idle s → step s s' → begun s < begun s') : Quiet idle begun run := by
  have hruns : ∀ {s s'}, Relation.ReflTransGen step s s' → begun s ≤ begun s' := by
    intro s s' h
    induction h with
    | refl => exact le_rfl
    | tail _ hstep ih => exact ih.trans (hmono _ _ hstep)
  have hle : Monotone (begun ∘ run) := monotone_nat_of_le_succ fun n => hruns (hsteps n)
  refine ⟨hle, fun {m n} hmn hidle heq => ?_⟩
  have hpath : Relation.ReflTransGen step (run m) (run n) := by
    induction n, hmn using Nat.le_induction with
    | base => exact .refl
    | succ n hn ih =>
      refine (ih ?_).trans (hsteps n)
      have h1 : begun (run m) ≤ begun (run n) := hle hn
      have h2 : begun (run n) ≤ begun (run (n + 1)) := hle (Nat.le_succ n)
      rw [heq] at h2
      exact le_antisymm h2 h1
  obtain hsame | ⟨s, hfirst, hrest⟩ := hpath.cases_head
  · exact hsame.symm
  · exact absurd ((hbegin _ _ hidle hfirst).trans_le (hruns hrest)) (by rw [heq]; exact lt_irrefl _)

variable {size : ℕ} (read : σ → Fin size → α)

/-- The fields, read after moment `u`. -/
def sample (run : ℕ → σ) (u : ℕ) (i : Fin size) : α := read (run (u + 1 + i)) i

variable {read} {u v w x : ℕ}

/-- A sample without a change. -/
theorem Quiet.sample_eq (h : Quiet idle begun run) (hidle : idle (run u))
    (heq : begun (run (u + size)) = begun (run u)) : sample read run u = read (run u) := by
  funext i
  have hi := i.isLt
  have h1 : begun (run u) ≤ begun (run (u + 1 + i)) := h.mono (by omega)
  have h2 : begun (run (u + 1 + i)) ≤ begun (run (u + size)) := h.mono (by omega)
  rw [sample, h.still (by omega) hidle (le_antisymm (by rwa [heq] at h2) h1)]

/-- **Two samples that agree** are the fields of one moment. -/
theorem Quiet.snapshot (h : Quiet idle begun run) (hu : idle (run u)) (hv : idle (run v))
    (huv : u + size ≤ v) (hfew : begun (run (v + size)) ≤ begun (run u) + 1)
    (heq : sample read run v = sample read run u) :
    sample read run v = read (run u) ∨ sample read run v = read (run v) := by
  have h1 : begun (run u) ≤ begun (run (u + size)) := h.mono (Nat.le_add_right _ _)
  have h2 : begun (run (u + size)) ≤ begun (run v) := h.mono huv
  have h3 : begun (run v) ≤ begun (run (v + size)) := h.mono (Nat.le_add_right _ _)
  by_cases hfirst : begun (run (u + size)) = begun (run u)
  · exact .inl (heq.trans (h.sample_eq hu hfirst))
  · -- the change has begun by the end of the first sample, and no other one comes
    exact .inr (h.sample_eq hv (by omega))

/-- **Four samples** in a row. -/
theorem Quiet.agree (h : Quiet idle begun run) (hu : idle (run u)) (hw : idle (run w))
    (huv : u + size ≤ v) (hvw : v + size ≤ w) (hwx : w + size ≤ x)
    (hfew : begun (run (x + size)) ≤ begun (run u) + 1) :
    sample read run v = sample read run u ∨ sample read run x = sample read run w := by
  have h1 : begun (run u) ≤ begun (run v) := h.mono (by omega)
  have h2 : begun (run v) ≤ begun (run (v + size)) := h.mono (by omega)
  have h3 : begun (run (v + size)) ≤ begun (run w) := h.mono hvw
  have h4 : begun (run w) ≤ begun (run x) := h.mono (by omega)
  have h5 : begun (run x) ≤ begun (run (x + size)) := h.mono (by omega)
  have h6 : begun (run u) ≤ begun (run (u + size)) := h.mono (by omega)
  have h7 : begun (run (u + size)) ≤ begun (run v) := h.mono huv
  by_cases hearly : begun (run (v + size)) = begun (run u)
  · left
    have hsame : run v = run u := h.still (by omega) hu (by omega)
    rw [h.sample_eq (u := v) (by rwa [hsame]) (by omega), h.sample_eq hu (by omega), hsame]
  · right
    have hsame : run x = run w := h.still (by omega) hw (by omega)
    have h8 : begun (run (w + size)) ≤ begun (run x) := h.mono hwx
    have h9 : begun (run w) ≤ begun (run (w + size)) := h.mono (by omega)
    rw [h.sample_eq (u := x) (by rwa [hsame]) (by omega), h.sample_eq hw (by omega), hsame]

end SysLib

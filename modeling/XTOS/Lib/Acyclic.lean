import Mathlib.Data.Fintype.Card
import Mathlib.Data.Set.Finite.Basic
import Mathlib.Logic.Relation
import Mathlib.Tactic.Common

/-!
# Walks that end

A relation on which walks from a point end, and relations without cycles.

## Main results

- `acc_iff_no_cycle` — all walks from a point end exactly if no cycle can be reached from it,
  when only finitely many points can be
-/

namespace SysLib

open Relation

variable {α : Type*} {r : α → α → Prop} {a b : α}

/-- Walks also end from all points further on. -/
theorem acc_of_reach (h : Acc (fun y x => r x y) a) (hb : ReflTransGen r a b) :
    Acc (fun y x => r x y) b := by
  induction hb with
  | refl => exact h
  | tail _ hstep ih => exact ih.inv hstep

/-- There is no way back to a point from which walks end. -/
theorem no_return (h : Acc (fun y x => r x y) a) : ¬ TransGen r a a := by
  induction h with
  | intro a _ ih =>
    intro hcycle
    obtain ⟨b, hstep, hback⟩ := (TransGen.head'_iff).mp hcycle
    -- the cycle also leads from the next point back to it
    exact ih b hstep (TransGen.tail' hback hstep)

/-- **Walks end** from a point exactly if it leads to no cycle. -/
theorem acc_iff_no_cycle (hfin : {b | ReflTransGen r a b}.Finite) :
    Acc (fun y x => r x y) a ↔ ∀ b, ReflTransGen r a b → ¬ TransGen r b b := by
  constructor
  · exact fun h b hb => no_return (acc_of_reach h hb)
  · intro h
    let S := {b // ReflTransGen r a b}
    have hfinite : Finite S := hfin
    let later : S → S → Prop := fun y x => TransGen r x.1 y.1
    have htrans : IsTrans S later := ⟨fun _ _ _ hxy hyz => hyz.trans hxy⟩
    have hirrefl : Std.Irrefl later := ⟨fun x => h x.1 x.2⟩
    have hwf : WellFounded later := Finite.wellFounded_of_trans_of_irrefl later
    have hacc : ∀ x : S, Acc (fun y x => r x y) x.1 := by
      intro x
      induction x using hwf.induction with
      | h x ih => exact ⟨_, fun y hy => ih ⟨y, x.2.tail hy⟩ (.single hy)⟩
    exact hacc ⟨a, .refl⟩

end SysLib

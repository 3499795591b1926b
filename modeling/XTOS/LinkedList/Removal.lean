import XTOS.LinkedList

/-!
# Taking a node out of a list

`xtRemoveFromList` of `xtkernel/list.c` on a list that ends: which node is unlinked and which
one is freed.

## Main definitions

- `RemovesExactly` — the node is taken out of the list and freed, or said not to be there

## Main results

- `removeLoop_eq` — where the search loop stops
- `removesExactly_iff` — the call is right for a list of one node only
-/

namespace XTOS.LinkedList

open SysLib

/-- What a call on the list `xs` at `a` is for: if `toRemove` is behind the first node, it is
    unlinked and freed, the others stay in their order and nothing else changes; if it is not
    there, the call says so and nothing changes. -/
structure RemovesExactly (H : NodeHeap) (a : ℕ) (xs : List ℕ) (toRemove : ℕ)
    (r : NodeHeap × XTResult) : Prop where
  removed : toRemove ∈ xs.tail → r.2 = .success ∧ Linked 0 r.1.next a (xs.erase toRemove) 0 ∧
    r.1.data = H.data ∧ r.1.used = Function.update H.used toRemove false
  missing : toRemove ∉ xs.tail → r = (H, .notFound)

variable {H : NodeHeap} {a x n fuel : ℕ} {xs : List ℕ}

/-- The link of the first node. -/
theorem next_first (h : Linked 0 H.next a (x :: xs) 0) : H.next a = xs.headD 0 := by
  obtain ⟨rfl, -, hrest⟩ := h
  exact hrest.head

/-- No node of a list that ends is linked to itself. -/
theorem next_ne_self (h : Linked 0 H.next a (x :: xs) 0) : H.next a ≠ a := by
  have hnext := next_first h
  have hnodup := h.nodup
  obtain ⟨rfl, hne, -⟩ := h
  rw [hnext]
  cases xs with
  | nil => exact hne.symm
  | cons y ys =>
    rintro rfl
    exact (List.nodup_cons.mp hnodup).1 List.mem_cons_self

/-- The loop stops at the first node, or at the second one if that is the node to remove. -/
theorem removeLoop_eq (h : Linked 0 H.next a (x :: xs) 0) (hn : n ≠ 0) (hfuel : 2 ≤ fuel) :
    removeLoop H n fuel a = some (if H.next a = n then n else a) := by
  obtain ⟨fuel, rfl⟩ : ∃ k, fuel = k + 2 := ⟨fuel - 2, by omega⟩
  rw [removeLoop]
  by_cases hnext : H.next a = n
  · have hne : H.next n ≠ n := by
      have hfirst := next_first h
      obtain ⟨-, -, hrest⟩ := h
      cases xs with
      | nil => exact absurd (hnext.symm.trans hfirst) hn
      | cons y ys =>
        obtain rfl : y = n := hfirst.symm.trans hnext
        rw [hrest.1] at hrest
        exact next_ne_self hrest
    rw [if_pos ⟨hnext ▸ hn, hnext⟩, if_pos hnext, hnext, removeLoop, if_neg fun hcon => hne hcon.2]
  · rw [if_neg fun hcon => hnext hcon.2, if_neg hnext]

/-- What the call does: it unlinks the node behind the one where the loop stops, if there is
    one, and frees the node to remove. -/
theorem xtRemoveFromList_eq (h : Linked 0 H.next a (x :: xs) 0) (hn : n ≠ 0) (hfuel : 2 ≤ fuel) :
    xtRemoveFromList fuel H a n =
      let l := if H.next a = n then n else a
      some (if H.next l = 0 then (H, .notFound)
        else (xtDestroyList (H.setNext l (H.next (H.next l))) n, .success)) := by
  have ha : a ≠ 0 := by
    obtain ⟨rfl, hx, -⟩ := h
    exact hx
  rw [xtRemoveFromList, if_neg (by simp [ha, hn]), removeLoop_eq h hn hfuel]
  rfl

/-- A list of one node has nothing to remove behind it. -/
theorem xtRemoveFromList_single (h : Linked 0 H.next a [x] 0) (hn : n ≠ 0) (hfuel : 2 ≤ fuel) :
    xtRemoveFromList fuel H a n = some (H, .notFound) := by
  have hnext : H.next a = 0 := next_first h
  rw [xtRemoveFromList_eq h hn hfuel]
  dsimp only
  rw [hnext, if_neg hn.symm, if_pos hnext]

/-- With a second node in the list the call goes wrong, whatever node it is for: it leaves that
    node linked, or unlinks another one. -/
theorem not_removesExactly {y : ℕ} {ys : List ℕ} {r : NodeHeap × XTResult}
    (h : Linked 0 H.next a (x :: y :: ys) 0) (hn : n ≠ 0)
    (hr : xtRemoveFromList 2 H a n = some r) : ¬ RemovesExactly H a (x :: y :: ys) n r := by
  intro hexact
  have hnodup := h.nodup
  have hnext : H.next a = y := next_first h
  rw [xtRemoveFromList_eq h hn le_rfl] at hr
  obtain ⟨rfl, -, hrest⟩ := h
  rw [hnext] at hrest hr
  have hy : y ≠ 0 := hrest.ne_null y List.mem_cons_self
  obtain ⟨ha, hnodup⟩ := List.nodup_cons.mp hnodup
  by_cases hyn : y = n
  · -- the second node is the one: it is freed and stays linked, unless it is the last
    subst hyn
    rw [if_pos rfl] at hr
    have hne : a ≠ y := fun heq => ha (heq ▸ List.mem_cons_self)
    obtain ⟨hsuccess, hlinked, -, -⟩ := hexact.removed List.mem_cons_self
    dsimp only at hr
    split_ifs at hr with hlast
    · obtain rfl := Option.some.inj hr
      cases hsuccess
    · obtain rfl := Option.some.inj hr
      rw [List.erase_cons_tail (by simpa using hne), List.erase_cons_head] at hlinked
      have hfirst := next_first hlinked
      rw [xtDestroyList_next, setNext_next, Function.update_of_ne hne, hnext] at hfirst
      cases ys with
      | nil => exact hy hfirst
      | cons z zs => exact (List.nodup_cons.mp hnodup).1 (hfirst ▸ List.mem_cons_self)
  · -- the second node is unlinked in its place
    rw [if_neg hyn] at hr
    dsimp only at hr
    rw [hnext, if_neg hy] at hr
    obtain rfl := Option.some.inj hr
    by_cases hmem : n ∈ y :: ys
    · obtain ⟨-, hlinked, -, -⟩ := hexact.removed hmem
      have hne : a ≠ n := fun heq => ha (heq ▸ hmem)
      rw [List.erase_cons_tail (by simpa using hne),
        List.erase_cons_tail (by simpa using hyn)] at hlinked
      have hfirst : _ = y := next_first hlinked
      rw [xtDestroyList_next, setNext_next, Function.update_self] at hfirst
      exact next_ne_self hrest hfirst
    · cases congrArg Prod.snd (hexact.missing hmem)

/-- **Removal**: the call returns, and it removes exactly the node it is for if and only if the
    list has no node behind the first one. -/
theorem removesExactly_iff (H : NodeHeap) {a first : ℕ} {rest : List ℕ} {toRemove : ℕ}
    (h : Linked 0 H.next a (first :: rest) 0) (hn : toRemove ≠ 0) :
    ∃ r, (∀ fuel ≥ 2, xtRemoveFromList fuel H a toRemove = some r) ∧
      (RemovesExactly H a (first :: rest) toRemove r ↔ rest = []) := by
  refine ⟨_, fun fuel hfuel => xtRemoveFromList_eq h hn hfuel, ?_⟩
  cases rest with
  | nil =>
    refine iff_of_true ⟨fun hmem => ?_, fun _ => ?_⟩ rfl
    · cases hmem
    · have hsingle := xtRemoveFromList_single h hn le_rfl
      rw [xtRemoveFromList_eq h hn le_rfl] at hsingle
      exact Option.some.inj hsingle
  | cons y ys =>
    exact iff_of_false (not_removesExactly h hn (xtRemoveFromList_eq h hn le_rfl)) (by simp)

/-- The nodes 1, 2 and 3 in a list. -/
def threeNodes : NodeHeap where
  nodes l := if l < 3 then ⟨0, l + 1⟩ else ⟨0, 0⟩
  used _ := true

/-- From the last of them on the list has one node. -/
theorem removesExactly_single : Linked 0 threeNodes.next 3 [3] 0 ∧
    ∃ r, xtRemoveFromList 2 threeNodes 3 1 = some r ∧ RemovesExactly threeNodes 3 [3] 1 r := by
  have hlinked : Linked 0 threeNodes.next 3 [3] 0 := ⟨rfl, by decide, rfl⟩
  obtain ⟨r, hr, hiff⟩ := removesExactly_iff threeNodes hlinked (show 1 ≠ 0 by decide)
  exact ⟨hlinked, r, hr 2 le_rfl, hiff.mpr rfl⟩

/-- Node 2 is to be removed: it is freed, but node 3 is unlinked. Node 3 is to be removed: it is
    freed, but node 2 is unlinked. -/
theorem removal_takes_another : Linked 0 threeNodes.next 1 [1, 2, 3] 0 ∧
    (∃ H, xtRemoveFromList 2 threeNodes 1 2 = some (H, .success) ∧
      Linked 0 H.next 1 [1, 2] 0 ∧ H.used 2 = false ∧
      ¬ RemovesExactly threeNodes 1 [1, 2, 3] 2 (H, .success)) ∧
    ∃ H, xtRemoveFromList 2 threeNodes 1 3 = some (H, .success) ∧
      Linked 0 H.next 1 [1, 3] 0 ∧ H.used 3 = false ∧
      ¬ RemovesExactly threeNodes 1 [1, 2, 3] 3 (H, .success) := by
  have hlinked : Linked 0 threeNodes.next 1 [1, 2, 3] 0 :=
    ⟨rfl, by decide, rfl, by decide, rfl, by decide, rfl⟩
  refine ⟨hlinked, ⟨_, rfl, ?_, rfl, not_removesExactly hlinked (by decide) rfl⟩,
    ⟨_, rfl, ?_, rfl, not_removesExactly hlinked (by decide) rfl⟩⟩
  · exact ⟨rfl, by decide, rfl, by decide, rfl⟩
  · exact ⟨rfl, by decide, rfl, by decide, rfl⟩

end XTOS.LinkedList

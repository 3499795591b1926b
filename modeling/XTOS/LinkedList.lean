import XTOS.Lib.Linked
import XTOS.Result

/-!
# Kernel lists

The list nodes of `xtkernel/list.c`. A node is a heap block; destroying it gives the
block back and leaves its contents as they are.

## Main definitions

- `XTList`, `NodeHeap` — a node, and all nodes with the heap blocks in use
- `xtGetNextList`, `xtSetNextList`, `xtCreateList`, `xtDestroyList`
- `xtGetLastList`, `xtAppendList`, `xtRemoveFromList` — loops that a cycle keeps from
  ending; without enough fuel they give `none`
-/

namespace XTOS.LinkedList

open SysLib

/-- `XTList`. -/
structure XTList where
  data : ℕ
  next : ℕ
  deriving DecidableEq, Repr

/-- The nodes by address, and the heap blocks in use. -/
structure NodeHeap where
  nodes : ℕ → XTList
  used : ℕ → Bool

/-- The link of a node, as `xtGetNextList` reads it. -/
def NodeHeap.next (H : NodeHeap) (l : ℕ) : ℕ := (H.nodes l).next

/-- `xtGetListData` of a node. -/
def NodeHeap.data (H : NodeHeap) (l : ℕ) : ℕ := (H.nodes l).data

/-- `xtSetNextList` refuses a null link. -/
def xtSetNextList (H : NodeHeap) (l next : ℕ) : NodeHeap × XTResult :=
  if l = 0 then (H, .invalidParameter)
  else if next = 0 then (H, .invalidParameter)
  else ({ H with nodes := Function.update H.nodes l { H.nodes l with next := next } }, .success)

/-- `xtCreateList` in the block that `xtHeapAlloc` returned. -/
def xtCreateList (H : NodeHeap) (data block : ℕ) : NodeHeap :=
  { nodes := Function.update H.nodes block ⟨data, 0⟩
    used := Function.update H.used block true }

/-- `xtDestroyList`. -/
def xtDestroyList (H : NodeHeap) (l : ℕ) : NodeHeap :=
  if l = 0 then H else { H with used := Function.update H.used l false }

/-- Redirect the link of a node, without the checks of `xtSetNextList`. -/
def NodeHeap.setNext (H : NodeHeap) (l next : ℕ) : NodeHeap :=
  { H with nodes := Function.update H.nodes l { H.nodes l with next := next } }

/-- The loop of `xtGetLastList`. -/
def xtGetLastList (H : NodeHeap) : ℕ → ℕ → Option ℕ
  | 0, _ => none
  | fuel + 1, l => if H.next l = 0 then some l else xtGetLastList H fuel (H.next l)

/-- `xtAppendList`. -/
def xtAppendList (fuel : ℕ) (H : NodeHeap) (l toAppend : ℕ) : Option NodeHeap :=
  if l = 0 ∨ toAppend = 0 then some H
  else (xtGetLastList H fuel l).map fun last => H.setNext last toAppend

/-- The loop of `xtRemoveFromList`: it goes on while the next node is the one to
    remove. -/
def removeLoop (H : NodeHeap) (toRemove : ℕ) : ℕ → ℕ → Option ℕ
  | 0, _ => none
  | fuel + 1, l =>
    if H.next l ≠ 0 ∧ H.next l = toRemove then removeLoop H toRemove fuel (H.next l) else some l

/-- `xtRemoveFromList`. The node after the one where the loop stops is unlinked, and
    `toRemove` is destroyed. -/
def xtRemoveFromList (fuel : ℕ) (H : NodeHeap) (l toRemove : ℕ) : Option (NodeHeap × XTResult) :=
  if l = 0 ∨ toRemove = 0 then some (H, .invalidParameter)
  else (removeLoop H toRemove fuel l).map fun l =>
    if H.next l = 0 then (H, .notFound)
    else (xtDestroyList (H.setNext l (H.next (H.next l))) toRemove, .success)

@[simp] theorem xtDestroyList_next (H : NodeHeap) (l : ℕ) :
    (xtDestroyList H l).next = H.next := by
  unfold xtDestroyList
  split <;> rfl

@[simp] theorem xtDestroyList_data (H : NodeHeap) (l : ℕ) :
    (xtDestroyList H l).data = H.data := by
  unfold xtDestroyList
  split <;> rfl

theorem xtDestroyList_used {H : NodeHeap} {l x : ℕ} (h : x ≠ l) :
    (xtDestroyList H l).used x = H.used x := by
  unfold xtDestroyList
  split
  · rfl
  · exact Function.update_of_ne h _ _

@[simp] theorem xtSetNextList_used (H : NodeHeap) (l next : ℕ) :
    (xtSetNextList H l next).1.used = H.used := by
  unfold xtSetNextList
  split_ifs <;> rfl

@[simp] theorem xtSetNextList_data (H : NodeHeap) (l next : ℕ) :
    (xtSetNextList H l next).1.data = H.data := by
  funext x
  unfold xtSetNextList NodeHeap.data
  split_ifs
  · rfl
  · rfl
  · by_cases h : x = l
    · subst x
      simp
    · simp [h]

/-- With two nodes given, the link is redirected. -/
theorem xtSetNextList_next {H : NodeHeap} {l next : ℕ} (hl : l ≠ 0) (hn : next ≠ 0) :
    (xtSetNextList H l next).1.next = Function.update H.next l next := by
  funext x
  by_cases h : x = l
  · subst x
    simp [xtSetNextList, NodeHeap.next, hl, hn]
  · simp [xtSetNextList, NodeHeap.next, hl, hn, h]

/-! ### Appending -/

variable {H H' : NodeHeap}

theorem setNext_next (H : NodeHeap) (l n : ℕ) :
    (H.setNext l n).next = Function.update H.next l n := by
  funext x
  by_cases h : x = l
  · subst h
    simp [NodeHeap.next, NodeHeap.setNext]
  · simp [NodeHeap.next, NodeHeap.setNext, h]

theorem setNext_data (H : NodeHeap) (l n : ℕ) : (H.setNext l n).data = H.data := by
  funext x
  by_cases h : x = l
  · subst h
    simp [NodeHeap.data, NodeHeap.setNext]
  · simp [NodeHeap.data, NodeHeap.setNext, h]

theorem xtCreateList_next (H : NodeHeap) (data block : ℕ) :
    (xtCreateList H data block).next = Function.update H.next block 0 := by
  funext x
  by_cases h : x = block
  · subst h
    simp [NodeHeap.next, xtCreateList]
  · simp [NodeHeap.next, xtCreateList, h]

theorem xtCreateList_data (H : NodeHeap) (data block : ℕ) :
    (xtCreateList H data block).data = Function.update H.data block data := by
  funext x
  by_cases h : x = block
  · subst h
    simp [NodeHeap.data, xtCreateList]
  · simp [NodeHeap.data, xtCreateList, h]

/-- The loop of `xtGetLastList` stops at the last node. -/
theorem xtGetLastList_linked {fuel a l y : ℕ} {xs : List ℕ}
    (h : Linked 0 H.next a (xs ++ [y]) 0) (hl : xtGetLastList H fuel a = some l) : l = y := by
  induction fuel generalizing a xs with
  | zero => cases hl
  | succ fuel ih =>
    rw [xtGetLastList] at hl
    cases xs with
    | nil =>
      obtain ⟨rfl, -, hnext⟩ := h
      have hnext : H.next a = 0 := hnext
      rw [if_pos hnext] at hl
      exact (Option.some.inj hl).symm
    | cons x xs =>
      obtain ⟨rfl, -, hrest⟩ := h
      have hne : H.next a ≠ 0 := by
        intro hzero
        rw [hzero] at hrest
        cases xs with
        | nil => exact hrest.2.1 hrest.1.symm
        | cons z zs => exact hrest.2.1 hrest.1.symm
      rw [if_neg hne] at hl
      exact ih hrest hl

/-- With enough fuel the loop gets to the last node. -/
theorem xtGetLastList_eq {fuel a y : ℕ} {xs : List ℕ} (h : Linked 0 H.next a (xs ++ [y]) 0)
    (hfuel : xs.length < fuel) : xtGetLastList H fuel a = some y := by
  induction xs generalizing a fuel with
  | nil =>
    obtain ⟨rfl, -, hnext⟩ := h
    obtain ⟨fuel, rfl⟩ : ∃ n, fuel = n + 1 := Nat.exists_eq_add_one.mpr hfuel
    have hnext : H.next a = 0 := hnext
    rw [xtGetLastList, if_pos hnext]
  | cons x xs ih =>
    obtain ⟨rfl, -, hrest⟩ := h
    rw [List.length_cons] at hfuel
    obtain ⟨fuel, rfl⟩ : ∃ n, fuel = n + 1 := Nat.exists_eq_add_one.mpr (by omega)
    have hne : H.next a ≠ 0 := by
      rw [hrest.head]
      refine hrest.ne_null _ ?_
      cases xs <;> simp
    rw [xtGetLastList, if_neg hne]
    exact ih hrest (by omega)

/-- With enough fuel an append returns. -/
theorem xtAppendList_returns {fuel a n : ℕ} {xs : List ℕ} (h : Linked 0 H.next a xs 0)
    (hxs : xs ≠ []) (hn : n ≠ 0) (hfuel : xs.length ≤ fuel) :
    ∃ H', xtAppendList fuel H a n = some H' := by
  obtain ⟨ys, y, rfl⟩ := (List.eq_nil_or_concat xs).resolve_left hxs
  rw [List.concat_eq_append] at h hfuel
  rw [List.length_append, List.length_singleton] at hfuel
  have ha : a ≠ 0 := by
    rw [h.head]
    refine h.ne_null _ ?_
    cases ys <;> simp
  rw [xtAppendList, if_neg (by simp [ha, hn]), xtGetLastList_eq h hfuel]
  exact ⟨_, rfl⟩

/-- An append puts the node behind the last one and touches only the link of that one. -/
theorem xtAppendList_linked {fuel a n : ℕ} {xs : List ℕ} (h : Linked 0 H.next a xs 0)
    (hxs : xs ≠ []) (hn : n ≠ 0) (hnew : n ∉ xs) (hnext : H.next n = 0)
    (happ : xtAppendList fuel H a n = some H') :
    Linked 0 H'.next a (xs ++ [n]) 0 ∧ H'.data = H.data ∧ H'.used = H.used ∧
      ∀ x, x ∉ xs → H'.next x = H.next x := by
  obtain ⟨ys, y, rfl⟩ := (List.eq_nil_or_concat xs).resolve_left hxs
  rw [List.concat_eq_append] at h hnew ⊢
  have ha : a ≠ 0 := by
    rw [h.head]
    refine h.ne_null _ ?_
    cases ys <;> simp
  rw [xtAppendList, if_neg (by simp [ha, hn]), Option.map_eq_some_iff] at happ
  obtain ⟨l, hl, rfl⟩ := happ
  obtain rfl := xtGetLastList_linked h hl
  refine ⟨?_, setNext_data _ _ _, rfl, fun x hx => ?_⟩
  · rw [setNext_next, List.append_assoc]
    exact h.insert hn hnew hnext
  · rw [setNext_next]
    refine Function.update_of_ne ?_ _ _
    rintro rfl
    exact hx (by simp)

/-! ### Removal from a list that may be damaged -/

/-- Following the links from `a` one stays in `R`. -/
def Closed (next : ℕ → ℕ) (a : ℕ) (R : List ℕ) : Prop :=
  (a = 0 ∨ a ∈ R) ∧ ∀ n ∈ R, next n = 0 ∨ next n ∈ R

/-- The walk to the last node stays among the nodes. -/
theorem xtGetLastList_closed {fuel a l : ℕ} {R : List ℕ} (h : Closed H.next a R) (ha : a ≠ 0)
    (hl : xtGetLastList H fuel a = some l) : l ∈ R := by
  induction fuel generalizing a with
  | zero => cases hl
  | succ fuel ih =>
    have hmem := h.1.resolve_left ha
    rw [xtGetLastList] at hl
    split_ifs at hl with hlast
    · exact Option.some.inj hl ▸ hmem
    · exact ih ⟨h.2 a hmem, h.2⟩ hlast hl

/-- An append touches only the link of one of the nodes. -/
theorem xtAppendList_closed {fuel a n : ℕ} {R : List ℕ} (h : Closed H.next a R) (ha : a ≠ 0)
    (hn : n ≠ 0) (happ : xtAppendList fuel H a n = some H') :
    ∃ last ∈ R, H'.next = Function.update H.next last n ∧ H'.data = H.data ∧ H'.used = H.used := by
  rw [xtAppendList, if_neg (by simp [ha, hn]), Option.map_eq_some_iff] at happ
  obtain ⟨last, hlast, rfl⟩ := happ
  exact ⟨last, xtGetLastList_closed h ha hlast, setNext_next _ _ _, setNext_data _ _ _, rfl⟩

theorem Closed.of_linked {next : ℕ → ℕ} {a : ℕ} {xs : List ℕ} (h : Linked 0 next a xs 0) :
    Closed next a xs := by
  induction xs generalizing a with
  | nil => exact ⟨.inl h, by simp⟩
  | cons x xs ih =>
    obtain ⟨rfl, -, h⟩ := h
    obtain ⟨hfirst, hrest⟩ := ih h
    refine ⟨.inr (List.mem_cons_self), fun n hn => ?_⟩
    obtain rfl | hn := List.mem_cons.mp hn
    · exact hfirst.imp_right fun hmem => List.mem_cons_of_mem _ hmem
    · exact (hrest n hn).imp_right fun hmem => List.mem_cons_of_mem _ hmem

theorem removeLoop_mem {toRemove fuel l l' : ℕ} {R : List ℕ} (hl : l ∈ R)
    (hR : ∀ n ∈ R, H.next n = 0 ∨ H.next n ∈ R) (h : removeLoop H toRemove fuel l = some l') :
    l' ∈ R := by
  induction fuel generalizing l with
  | zero => cases h
  | succ fuel ih =>
    rw [removeLoop] at h
    split_ifs at h with hnext
    · exact ih ((hR l hl).resolve_left hnext.1) h
    · obtain rfl := Option.some.inj h
      exact hl

/-- The loop ends on a list that ends. -/
theorem removeLoop_returns {toRemove fuel a x : ℕ} {xs : List ℕ}
    (h : Linked 0 H.next a (x :: xs) 0) (hfuel : xs.length < fuel) :
    ∃ l, removeLoop H toRemove fuel a = some l := by
  induction xs generalizing a x fuel with
  | nil =>
    obtain ⟨rfl, -, hnext⟩ := h
    obtain ⟨fuel, rfl⟩ : ∃ n, fuel = n + 1 := Nat.exists_eq_add_one.mpr hfuel
    have hnext : H.next a = 0 := hnext
    exact ⟨a, by rw [removeLoop, if_neg (fun hcon => hcon.1 hnext)]⟩
  | cons y xs ih =>
    obtain ⟨rfl, -, hrest⟩ := h
    rw [List.length_cons] at hfuel
    obtain ⟨fuel, rfl⟩ : ∃ n, fuel = n + 1 := Nat.exists_eq_add_one.mpr (by omega)
    rw [removeLoop]
    split_ifs with hnext
    · exact ih hrest (by omega)
    · exact ⟨a, rfl⟩

/-- A removal touches only the links of the nodes one can get to, and one of them is freed at
    most: the one to remove. -/
theorem xtRemoveFromList_closed {fuel a n : ℕ} {r : NodeHeap × XTResult} {R : List ℕ}
    (hR : Closed H.next a R) (h : xtRemoveFromList fuel H a n = some r) :
    Closed r.1.next a R ∧ (∀ x, x ∉ R → r.1.next x = H.next x) ∧ r.1.data = H.data ∧
      ∀ x, x ≠ n → r.1.used x = H.used x := by
  rw [xtRemoveFromList] at h
  split_ifs at h with hnull
  · obtain rfl := Option.some.inj h
    exact ⟨hR, fun _ _ => rfl, rfl, fun _ _ => rfl⟩
  obtain ⟨l, hl, rfl⟩ := Option.map_eq_some_iff.mp h
  have hmem : l ∈ R :=
    removeLoop_mem (hR.1.resolve_left fun ha => hnull (.inl ha)) hR.2 hl
  by_cases hlast : H.next l = 0
  · rw [if_pos hlast]
    exact ⟨hR, fun _ _ => rfl, rfl, fun _ _ => rfl⟩
  · rw [if_neg hlast]
    have hskip := (hR.2 l hmem).resolve_left hlast
    simp only [xtDestroyList_next, xtDestroyList_data, setNext_next, setNext_data]
    refine ⟨⟨hR.1, fun x hx => ?_⟩, fun x hx => ?_, trivial, fun x hx => xtDestroyList_used hx⟩
    · by_cases hxl : x = l
      · rw [hxl, Function.update_self]
        exact hR.2 _ hskip
      · rw [Function.update_of_ne hxl]
        exact hR.2 x hx
    · refine Function.update_of_ne ?_ _ _
      rintro rfl
      exact hx hmem

end XTOS.LinkedList

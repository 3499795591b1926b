import XTOS.Lib.Bits
import XTOS.PageAlloc

/-!
# Sizes of page requests

Which bytes `xtAllocatePages` and `xtFreePages` of `xtkernel/memory.c` take from and put into
the list of free ranges. A request is rounded by adding a page and clearing bit 12 of the sum.

## Main definitions

- `State.free` — the bytes in the ranges of the list
- `pageCeil` — the bytes of the pages that a request needs
- `Exact` — a request takes just these bytes, and freeing it puts them back

## Main results

- `allocate_removes` — a request takes the bytes of its carved size
- `free_cases` — a free adds the bytes it is given
- `exact_iff` — for which sizes a request takes the bytes of its pages
-/

namespace XTOS.PageAlloc

open SysLib LinkedList

/-! ### The size that is carved -/

/-- The least multiple of a page that is at least `size`. -/
def pageCeil (size : ℕ) : ℕ := (size + 4095) / 4096 * 4096

/-- Clearing bit 12. -/
theorem carvedSize_eq (size : ℕ) :
    carvedSize size =
      (size + 4096) % 2 ^ 64 / 8192 * 8192 + (size + 4096) % 2 ^ 64 % 4096 := by
  have hmask : (2 ^ 64 - 1 - 2 ^ 12 : ℕ) = (2 ^ 64 - 2 ^ 13) ||| (2 ^ 12 - 2 ^ 0) := by decide
  have hlt : (size + 2 ^ 12) % 2 ^ 64 < 2 ^ 64 := Nat.mod_lt _ (by decide)
  rw [carvedSize, hmask, Nat.and_or_distrib_left, and_mask _ (by decide), and_mask _ (by decide),
    or_eq_add (k := 13) (by omega) (by omega), Nat.mod_eq_of_lt hlt]
  omega

/-- The carved size is that of the pages exactly for an even number of whole pages. -/
theorem carvedSize_eq_pageCeil_iff {size : ℕ} (h : size < 2 ^ 64) :
    carvedSize size = pageCeil size ↔ 8192 ∣ size := by
  rw [carvedSize_eq, pageCeil]
  omega

/-! ### The bytes of the list -/

/-- The bytes of some ranges. -/
def covered (es : List XTMemoryMapEntry) : Set ℕ :=
  {a | ∃ e ∈ es, e.start ≤ a ∧ a < e.start + e.length}

/-- The bytes of the ranges in the list. -/
def State.free (s : State) : Set ℕ :=
  {a | ∃ xs, Linked 0 s.list.next s.memoryDescs xs 0 ∧ a ∈ covered (s.ranges xs)}

section covered

variable {L R : List XTMemoryMapEntry} {e e' : XTMemoryMapEntry} {a n : ℕ}

theorem mem_covered {es : List XTMemoryMapEntry} :
    a ∈ covered es ↔ ∃ e ∈ es, e.start ≤ a ∧ a < e.start + e.length := Iff.rfl

theorem mem_covered_middle : a ∈ covered (L ++ e :: R) ↔
    a ∈ covered (L ++ R) ∨ e.start ≤ a ∧ a < e.start + e.length := by
  simp only [mem_covered, List.mem_append, List.mem_cons]
  constructor
  · rintro ⟨x, hx | rfl | hx, h⟩
    · exact .inl ⟨x, .inl hx, h⟩
    · exact .inr h
    · exact .inl ⟨x, .inr hx, h⟩
  · rintro (⟨x, hx | hx, h⟩ | h)
    · exact ⟨x, .inl hx, h⟩
    · exact ⟨x, .inr (.inr hx), h⟩
    · exact ⟨e, .inr (.inl rfl), h⟩

/-- In a sorted list no other range has a byte of a range in the middle. -/
theorem notMem_covered_others
    (h : (L ++ e :: R).Pairwise fun a b => a.start + a.length ≤ b.start)
    (ha : e.start ≤ a ∧ a < e.start + e.length) : a ∉ covered (L ++ R) := by
  obtain ⟨-, hR, hL⟩ := List.pairwise_append.mp h
  rintro ⟨x, hx, hxa⟩
  obtain hx | hx := List.mem_append.mp hx
  · have := hL x hx e List.mem_cons_self
    omega
  · have := (List.pairwise_cons.mp hR).1 x hx
    omega

end covered

theorem Chain.free_eq {s : State} {xs : List ℕ} (h : Chain s xs) :
    s.free = covered (s.ranges xs) := by
  ext a
  constructor
  · rintro ⟨ys, hys, ha⟩
    rwa [h.linked.unique hys]
  · exact fun ha => ⟨xs, h.linked, ha⟩

/-! ### Taking a node out -/

section unlink

variable {s : State} {pre post xs : List ℕ} {i : ℕ}

/-- What the list is after a node was taken out: without the node, or as it was. -/
theorem Chain.unlink (h : Chain s (pre ++ i :: post)) :
    (s.unlink (pre.getLastD 0) i).entry = s.entry ∧
      ((pre = [] ∨ post ≠ []) ∧ Chain (s.unlink (pre.getLastD 0) i) (pre ++ post) ∨
        post = [] ∧ Chain (s.unlink (pre.getLastD 0) i) (pre ++ i :: post)) := by
  have hnext : s.list.next i = post.headD 0 := by
    obtain ⟨b, -, rfl, -, hlink⟩ := linked_append.mp h.linked
    exact hlink.head
  have hsub : (pre ++ post).Sublist (pre ++ i :: post) :=
    (List.sublist_cons_self i post).append_left pre
  have hnodup : ((pre ++ post).map s.list.data).Nodup := h.data_nodup.sublist (hsub.map _)
  obtain rfl | ⟨front, p, rfl⟩ := List.eq_nil_or_concat' pre
  · refine ⟨entry_congr (by simp [State.unlink]) (by simp [State.unlink]),
      .inl ⟨.inl rfl, ?_, ?_⟩⟩
    · simpa [State.unlink] using h.linked.2.2
    · simpa [State.unlink] using hnodup
  · have hp : p ≠ 0 := h.linked.ne_null p (by simp)
    refine ⟨entry_congr (by simp [State.unlink, hp]) (by simp [State.unlink, hp]), ?_⟩
    cases post with
    | nil =>
      -- `xtSetNextList` refuses the null link, so the node stays in the list
      refine .inr ⟨rfl, ?_, ?_⟩
      · have hlinked := h.linked
        simpa [State.unlink, hp, hnext, xtSetNextList] using hlinked
      · simpa [State.unlink, hp] using h.data_nodup
    | cons j post =>
      have hj : j ≠ 0 := h.linked.ne_null j (by simp)
      refine .inl ⟨.inr (by simp), ?_, ?_⟩
      · have hlinked : Linked 0 s.list.next s.memoryDescs (front ++ p :: i :: j :: post) 0 := by
          simpa using h.linked
        have hnew := hlinked.unlink
        rw [hnext, List.headD_cons, ← xtSetNextList_next hp hj] at hnew
        simpa [State.unlink, hp, hnext] using hnew
      · simpa [State.unlink, hp] using hnodup

end unlink

/-! ### Allocating -/

section take

variable {s : State} {pre post : List ℕ} {i n : ℕ}

/-- The entry of a node after pages were taken from it. -/
def taken (e : XTMemoryMapEntry) (n : ℕ) : XTMemoryMapEntry :=
  { e with start := (e.start + n) % 2 ^ 64, length := e.length - n }

theorem takePages_eq (s : State) (prev i n : ℕ) :
    takePages s prev i n =
      if (s.entry i).length - n = 0
      then ((s.setEntry i (taken (s.entry i) n)).unlink prev i, (s.entry i).start)
      else (s.setEntry i (taken (s.entry i) n), (s.entry i).start) := rfl

/-- What the list is after pages were taken: the node has the rest, or it is gone, or it was the
    last one and is in the list without being in use. -/
theorem Listed.take_cases (h : Listed s (pre ++ i :: post)) :
    let s' := (takePages s (pre.getLastD 0) i n).1
    Listed s' (pre ++ i :: post) ∧
        s'.ranges (pre ++ i :: post) = s.ranges pre ++ taken (s.entry i) n :: s.ranges post ∨
      (s.entry i).length ≤ n ∧
        (Listed s' (pre ++ post) ∧ s'.ranges (pre ++ post) = s.ranges pre ++ s.ranges post ∨
          pre ≠ [] ∧ post = [] ∧ Chain s' (pre ++ [i]) ∧
            s'.ranges (pre ++ [i]) = s.ranges pre ++ [taken (s.entry i) n]) := by
  have hset := h.setEntry i (taken (s.entry i) n)
  have hranges := h.ranges_setEntry (taken (s.entry i) n)
  have hentries : ∀ s' : State, s'.entry = (s.setEntry i (taken (s.entry i) n)).entry →
      ∀ ys, s'.ranges ys = (s.setEntry i (taken (s.entry i) n)).ranges ys := by
    intro s' heq ys
    rw [State.ranges, heq, ← State.ranges]
  dsimp only
  rw [takePages_eq]
  by_cases hzero : (s.entry i).length - n = 0
  · rw [if_pos hzero]
    refine .inr ⟨Nat.sub_eq_zero_iff_le.mp hzero, ?_⟩
    by_cases hsafe : pre = [] ∨ post ≠ []
    · obtain ⟨hlist, hentry⟩ := hset.unlink hsafe
      refine .inl ⟨hlist, ?_⟩
      rw [hentries _ hentry, h.ranges_setEntry_of_notMem (by simp) (by simp)
        (by simpa using h.notMem), ranges_append]
    · obtain ⟨hentry, ⟨hsafe', -⟩ | ⟨rfl, hchain⟩⟩ := hset.chain.unlink
      · exact absurd hsafe' hsafe
      · refine .inr ⟨fun hpre => hsafe (.inl hpre), rfl, hchain, ?_⟩
        rw [hentries _ hentry, hranges]
        rfl
  · rw [if_neg hzero]
    exact .inl ⟨hset, hranges⟩

/-- **An allocation** takes the bytes of its carved size from the front of a range. -/
theorem Listed.take_removes (h : Listed s (pre ++ i :: post))
    (hsorted : (s.ranges (pre ++ i :: post)).Pairwise fun a b => a.start + a.length ≤ b.start)
    (hbound : (s.entry i).start + (s.entry i).length < 2 ^ 64) (hle : n ≤ (s.entry i).length) :
    Set.Ico (s.entry i).start ((s.entry i).start + n) ⊆ s.free ∧
      (takePages s (pre.getLastD 0) i n).1.free =
        s.free \ Set.Ico (s.entry i).start ((s.entry i).start + n) := by
  rw [ranges_append, ranges_cons] at hsorted
  have hfree : s.free = covered (s.ranges pre ++ s.entry i :: s.ranges post) := by
    rw [h.chain.free_eq, ranges_append, ranges_cons]
  have hmod : ((s.entry i).start + n) % 2 ^ 64 = (s.entry i).start + n :=
    Nat.mod_eq_of_lt (by omega)
  have hrest : ∀ a, a ∈ (takePages s (pre.getLastD 0) i n).1.free ↔
      a ∈ covered (s.ranges pre ++ s.ranges post) ∨
        (s.entry i).start + n ≤ a ∧ a < (s.entry i).start + (s.entry i).length := by
    intro a
    have hcut : a ∈ covered (s.ranges pre ++ taken (s.entry i) n :: s.ranges post) ↔
        a ∈ covered (s.ranges pre ++ s.ranges post) ∨
          (s.entry i).start + n ≤ a ∧ a < (s.entry i).start + (s.entry i).length := by
      rw [mem_covered_middle]
      dsimp only [taken]
      rw [hmod, show (s.entry i).start + n + ((s.entry i).length - n) =
        (s.entry i).start + (s.entry i).length by omega]
    obtain ⟨hlist, hranges⟩ | ⟨hlen, ⟨hlist, hranges⟩ | ⟨-, rfl, hchain, hranges⟩⟩ :=
      h.take_cases (n := n)
    · rw [hlist.chain.free_eq, hranges, hcut]
    · rw [hlist.chain.free_eq, hranges, or_iff_left]
      omega
    · rw [hchain.free_eq, hranges]
      exact hcut
  refine ⟨fun a ha => ?_, Set.ext fun a => ?_⟩
  · rw [hfree, mem_covered_middle]
    rw [Set.mem_Ico] at ha
    exact .inr (by omega)
  · rw [hrest, Set.mem_sdiff, hfree, mem_covered_middle, Set.mem_Ico]
    constructor
    · rintro (hothers | ha)
      · refine ⟨.inl hothers, fun ha => ?_⟩
        exact notMem_covered_others hsorted (by omega) hothers
      · exact ⟨.inr (by omega), by omega⟩
    · rintro ⟨hothers | ha, hnot⟩
      · exact .inl hothers
      · exact .inr (by omega)

end take

/-! ### Freeing -/

section free

variable {s s' : State} {xs : List ℕ} {fuel addr size newEntry newNode : ℕ}

/-- Taking out the node behind `p` after its range was given to `p`. -/
theorem Chain.joined_free {front rest : List ℕ} {p c : ℕ} (h : Chain s (front ++ p :: c :: rest))
    (hmeet : (s.entry p).start + ((s.entry p).length + size) = (s.entry c).start) :
    ((s.setEntry p { s.entry p with
        length := (s.entry p).length + size + (s.entry c).length }).unlink p c).free =
      covered (s.ranges front ++ { s.entry p with
        length := (s.entry p).length + size + (s.entry c).length } :: s.ranges rest) := by
  generalize he : ({ s.entry p with
    length := (s.entry p).length + size + (s.entry c).length } : XTMemoryMapEntry) = e
  have hset : Chain (s.setEntry p e) ((front ++ [p]) ++ c :: rest) := by
    simpa using h.setEntry p e
  have hnot := h.notMem
  obtain ⟨hentry, hunlink⟩ := hset.unlink
  rw [List.getLastD_concat] at hentry hunlink
  have hranges : ∀ ys, ((s.setEntry p e).unlink p c).ranges ys = (s.setEntry p e).ranges ys := by
    intro ys
    rw [State.ranges, hentry, ← State.ranges]
  obtain ⟨-, hchain⟩ | ⟨rfl, hchain⟩ := hunlink
  · rw [hchain.free_eq, hranges, ranges_append, ranges_append,
      h.ranges_setEntry_of_notMem (by simp) (by simp) hnot.1,
      h.ranges_setEntry_of_notMem (by simp) (by intro x; simp; tauto)
        (fun hmem => hnot.2 (List.mem_cons_of_mem _ hmem)),
      ranges_cons, entry_setEntry_self, List.append_assoc]
    rfl
  · -- the node stays in the list, but all its bytes are in the range before it
    rw [hchain.free_eq, hranges, List.append_assoc, List.singleton_append, h.ranges_setEntry]
    ext a
    rw [ranges_cons, mem_covered_middle, mem_covered_middle, mem_covered_middle, ← he]
    dsimp only
    constructor
    · rintro ((ha | ha) | ha)
      · exact .inl ha
      · exact .inr (by omega)
      · exact .inr ha
    · rintro (ha | ha)
      · exact .inl (.inl ha)
      · exact .inr ha

/-- **A free** adds the bytes it is given to the list, or it comes to inserting a node between
    ranges that it does not meet. -/
theorem Chain.free_cases (h : Chain s xs)
    (hbound : ∀ e ∈ s.ranges xs, e.start + e.length < 2 ^ 64) (hend : addr + size < 2 ^ 64)
    (hcall : xtFreePages fuel s addr size newEntry newNode = some s') :
    s'.free = s.free ∪ Set.Ico addr (addr + size) ∨
      ∃ pre post, xs = pre ++ post ∧
        s' = s.insertNode (pre.getLastD 0) (post.headD 0) newEntry newNode
          ⟨xtMemFree, addr, size⟩ ∧
        (∀ x ∈ pre, (s.entry x).start ≤ addr) ∧
        (∀ front p, pre = front ++ [p] → (s.entry p).start + (s.entry p).length ≠ addr) ∧
        ∀ c rest, post = c :: rest →
          addr < (s.entry c).start ∧ addr + size ≠ (s.entry c).start := by
  obtain ⟨pre, post, rfl, hpre, hpost, hcases⟩ := h.free_outcomes hcall
  have hmem : ∀ x ∈ pre ++ post, (s.entry x).start + (s.entry x).length < 2 ^ 64 := fun x hx =>
    hbound _ (List.mem_map_of_mem hx)
  have hfree := h.free_eq
  obtain ⟨front, p, c, rest, rfl, rfl, hprev, hcurr, rfl⟩ | ⟨front, p, rfl, hprev, rfl⟩ |
    ⟨c, rest, rfl, hcurr, rfl⟩ | ⟨hprev, hcurr, rfl⟩ := hcases
  · -- the range before the freed one ends where it starts, and the next one starts where it ends
    have hp := hmem p (by simp)
    have hc := hmem c (by simp)
    rw [Nat.mod_eq_of_lt hp] at hprev
    rw [List.append_assoc, List.singleton_append] at h hfree
    rw [ranges_append, ranges_cons] at hfree
    have hlen : ((s.entry p).length + size) % 2 ^ 64 = (s.entry p).length + size :=
      Nat.mod_eq_of_lt (by omega)
    have hmeet : (s.entry p).start + ((s.entry p).length + size) = (s.entry c).start := by
      rw [← hcurr, hlen, Nat.mod_eq_of_lt (by omega)]
    rw [hlen, Nat.mod_eq_of_lt (show (s.entry p).length + size + (s.entry c).length < 2 ^ 64 by
      omega)]
    refine .inl (Set.ext fun a => ?_)
    rw [h.joined_free hmeet, hfree, ranges_cons, Set.mem_union]
    simp only [mem_covered_middle, Set.mem_Ico]
    by_cases ha : a ∈ covered (s.ranges front ++ s.ranges rest)
    · simp [ha]
    · simp only [ha, false_or]
      omega
  · have hp := hmem p (by simp)
    rw [Nat.mod_eq_of_lt hp] at hprev
    rw [List.append_assoc, List.singleton_append] at h hfree
    rw [ranges_append, ranges_cons] at hfree
    rw [Nat.mod_eq_of_lt (show (s.entry p).length + size < 2 ^ 64 by omega)]
    refine .inl (Set.ext fun a => ?_)
    rw [(h.setEntry p _).free_eq, h.ranges_setEntry, hfree, Set.mem_union]
    simp only [mem_covered_middle, Set.mem_Ico]
    by_cases ha : a ∈ covered (s.ranges front ++ s.ranges post)
    · simp [ha]
    · simp only [ha, false_or]
      omega
  · have hc := hmem c (by simp)
    rw [Nat.mod_eq_of_lt hend] at hcurr
    rw [Nat.mod_eq_of_lt (show (s.entry c).length + size < 2 ^ 64 by omega)]
    refine .inl (Set.ext fun a => ?_)
    rw [(h.setEntry c _).free_eq, h.ranges_setEntry, hfree, ranges_append, ranges_cons,
      Set.mem_union]
    simp only [mem_covered_middle, Set.mem_Ico]
    by_cases ha : a ∈ covered (s.ranges pre ++ s.ranges rest)
    · simp [ha]
    · simp only [ha, false_or]
      omega
  · refine .inr ⟨pre, post, rfl, rfl, hpre, ?_, ?_⟩
    · rintro front p rfl hmeet
      refine hprev front p rfl ?_
      rw [hmeet, Nat.mod_eq_of_lt (by omega)]
    · rintro c rest rfl
      refine ⟨hpost c rest rfl, fun hmeet => hcurr c rest rfl ?_⟩
      rw [Nat.mod_eq_of_lt hend, hmeet]

/-- A free into a list whose nodes are in use. -/
theorem Listed.free_adds (h : Listed s xs)
    (hbound : ∀ e ∈ s.ranges xs, e.start + e.length < 2 ^ 64) (hend : addr + size < 2 ^ 64)
    (hnode : newNode ≠ 0) (hentry : s.list.used newEntry = false)
    (hused : s.list.used newNode = false) (hne : newNode ≠ newEntry)
    (hcall : xtFreePages fuel s addr size newEntry newNode = some s') :
    s'.free = s.free ∪ Set.Ico addr (addr + size) := by
  obtain hfree | ⟨pre, post, rfl, rfl, -⟩ := h.chain.free_cases hbound hend hcall
  · exact hfree
  · obtain ⟨hlist, hranges⟩ := h.insertNode hentry hnode hused hne ⟨xtMemFree, addr, size⟩
    rw [hlist.chain.free_eq, hranges, h.chain.free_eq, ranges_append]
    ext a
    rw [mem_covered_middle, Set.mem_union, Set.mem_Ico]

/-- A free into a list with a last node that is not in use and ends the freed range. -/
theorem Chain.free_adds {pre : List ℕ} {i : ℕ} (h : Chain s (pre ++ [i]))
    (hbound : ∀ e ∈ s.ranges (pre ++ [i]), e.start + e.length < 2 ^ 64)
    (hbefore : ∀ e ∈ s.ranges pre, e.start + e.length ≤ addr)
    (hstart : (s.entry i).start = addr + size) (hlen : (s.entry i).length = 0)
    (hcall : xtFreePages fuel s addr size newEntry newNode = some s') :
    s'.free = s.free ∪ Set.Ico addr (addr + size) := by
  have hi := hbound (s.entry i) (List.mem_map_of_mem (by simp))
  obtain hfree | ⟨front, post, hsplit, -, hle, hbehind, hmeet⟩ :=
    h.free_cases hbound (by omega) hcall
  · exact hfree
  · exfalso
    cases post with
    | nil =>
      rw [List.append_nil] at hsplit
      have := hle i (by simp [← hsplit])
      exact hbehind pre i hsplit.symm (by omega)
    | cons c rest =>
      obtain ⟨hlt, hne⟩ := hmeet c rest rfl
      have hc : c ∈ pre ++ [i] := by simp [hsplit]
      obtain hc | hc := List.mem_append.mp hc
      · have := hbefore (s.entry c) (List.mem_map_of_mem hc)
        omega
      · obtain rfl := List.mem_singleton.mp hc
        exact hne hstart.symm

end free

/-! ### Requests for whole pages -/

/-- A list of free ranges that are made of pages. -/
structure Paged (es : List XTMemoryMapEntry) : Prop where
  sorted : es.Pairwise fun a b => a.start + a.length ≤ b.start
  bound : ∀ e ∈ es, e.start + e.length < 2 ^ 64
  pages : ∀ e ∈ es, 4096 ∣ e.start ∧ 4096 ∣ e.length

/-- What a request for `size` bytes that is given `addr` promises: just the bytes of its pages
    leave the list, the list is still made of pages, and freeing the request brings the bytes
    back. -/
structure Exact (s s' : State) (addr size : ℕ) : Prop where
  listed : Set.Ico addr (addr + pageCeil size) ⊆ s.free
  removed : s'.free = s.free \ Set.Ico addr (addr + pageCeil size)
  pages : ∀ ys, Linked 0 s'.list.next s'.memoryDescs ys 0 →
    ∀ e ∈ s'.ranges ys, 4096 ∣ e.start ∧ 4096 ∣ e.length
  restored : 4096 ∣ size → ∀ newEntry newNode, newNode ≠ 0 →
    s'.list.used newEntry = false → s'.list.used newNode = false → newNode ≠ newEntry →
    (∃ fuel, (xtFreePages fuel s' addr size newEntry newNode).isSome) ∧
      ∀ fuel s'', xtFreePages fuel s' addr size newEntry newNode = some s'' → s''.free = s.free

section exact

variable {s s' : State} {pre post xs : List ℕ} {i n : ℕ}

/-- The rest of a range after pages were taken keeps within the range. -/
theorem Paged.take {L R : List XTMemoryMapEntry} {e : XTMemoryMapEntry} (h : Paged (L ++ e :: R))
    (hle : n ≤ e.length) (hn : 4096 ∣ n) : Paged (L ++ taken e n :: R) := by
  obtain ⟨hL, hR, hLR⟩ := List.pairwise_append.mp h.sorted
  obtain ⟨heR, hR⟩ := List.pairwise_cons.mp hR
  have he := h.bound e (by simp)
  have hpages := h.pages e (by simp)
  have htaken : (taken e n).start = e.start + n ∧ (taken e n).length = e.length - n :=
    ⟨Nat.mod_eq_of_lt (by omega), rfl⟩
  have hmem : ∀ x ∈ L ++ taken e n :: R, x = taken e n ∨ x ∈ L ++ e :: R := by
    intro x hx
    simp only [List.mem_append, List.mem_cons] at hx ⊢
    tauto
  refine ⟨?_, fun x hx => ?_, fun x hx => ?_⟩
  · refine List.pairwise_append.mpr ⟨hL, List.pairwise_cons.mpr ⟨fun x hx => ?_, hR⟩, ?_⟩
    · have := heR x hx
      omega
    · intro x hx y hy
      obtain rfl | hy := List.mem_cons.mp hy
      · have := hLR x hx e List.mem_cons_self
        omega
      · exact hLR x hx y (List.mem_cons_of_mem _ hy)
  · obtain rfl | hx := hmem x hx
    · omega
    · exact h.bound x hx
  · obtain rfl | hx := hmem x hx
    · rw [htaken.1, htaken.2]
      exact ⟨(Nat.dvd_add hpages.1 hn), Nat.dvd_sub hpages.2 hn⟩
    · exact h.pages x hx

theorem Paged.append_right {L R : List XTMemoryMapEntry} {e : XTMemoryMapEntry}
    (h : Paged (L ++ e :: R)) : Paged (L ++ R) := by
  have hsub : (L ++ R).Sublist (L ++ e :: R) := (List.sublist_cons_self e R).append_left L
  exact ⟨h.sorted.sublist hsub, fun x hx => h.bound x (hsub.subset hx),
    fun x hx => h.pages x (hsub.subset hx)⟩

/-- **Whole pages**: taking whole pages from the front of a range keeps the list made of pages,
    and freeing them puts them back. -/
theorem Listed.take_exact (h : Listed s (pre ++ i :: post))
    (hpaged : Paged (s.ranges (pre ++ i :: post))) (hle : n ≤ (s.entry i).length)
    (hn : 4096 ∣ n) (hceil : pageCeil n = n) :
    Exact s (takePages s (pre.getLastD 0) i n).1 (s.entry i).start n := by
  have hbound := hpaged.bound (s.entry i) (List.mem_map_of_mem (by simp))
  obtain ⟨hsub, hremoved⟩ := h.take_removes hpaged.sorted hbound hle
  rw [ranges_append, ranges_cons] at hpaged
  have hend : (s.entry i).start + n < 2 ^ 64 := by omega
  have hback : (takePages s (pre.getLastD 0) i n).1.free ∪
      Set.Ico (s.entry i).start ((s.entry i).start + n) = s.free := by
    rw [hremoved, Set.sdiff_union_of_subset hsub]
  have hcases := h.take_cases (n := n)
  refine ⟨by rwa [hceil], by rwa [hceil], ?_, ?_⟩
  · intro ys hys
    obtain ⟨hlist, hranges⟩ | ⟨-, ⟨hlist, hranges⟩ | ⟨-, rfl, hchain, hranges⟩⟩ := hcases
    · rw [hys.unique hlist.linked, hranges]
      exact (hpaged.take hle hn).pages
    · rw [hys.unique hlist.linked, hranges]
      exact hpaged.append_right.pages
    · rw [hys.unique hchain.linked, hranges]
      exact (hpaged.take hle hn).pages
  · intro _ newEntry newNode hnode hentry hused hne
    have hchain : ∃ ys, Chain (takePages s (pre.getLastD 0) i n).1 ys := by
      obtain ⟨hlist, -⟩ | ⟨-, ⟨hlist, -⟩ | ⟨-, -, hchain, -⟩⟩ := hcases
      · exact ⟨_, hlist.chain⟩
      · exact ⟨_, hlist.chain⟩
      · exact ⟨_, hchain⟩
    obtain ⟨ys, hchain⟩ := hchain
    refine ⟨⟨_, (hchain.returns (Nat.lt_succ_self _) _ _ _ _).2⟩, fun fuel s'' hcall => ?_⟩
    rw [← hback]
    obtain ⟨hlist, hranges⟩ | ⟨hlen, ⟨hlist, hranges⟩ | ⟨-, rfl, hchain, hranges⟩⟩ := hcases
    · exact hlist.free_adds (by rw [hranges]; exact (hpaged.take hle hn).bound) hend hnode hentry
        hused hne hcall
    · exact hlist.free_adds (by rw [hranges]; exact hpaged.append_right.bound) hend hnode hentry
        hused hne hcall
    · -- the last node is still there, with nothing left, where the freed range ends
      rw [ranges_append] at hranges
      obtain ⟨hpre, hlast⟩ := List.append_inj' hranges rfl
      have hlast := List.singleton_inj.mp hlast
      refine hchain.free_adds ?_ ?_ ?_ ?_ hcall
      · rw [ranges_append, hranges]
        exact (hpaged.take hle hn).bound
      · rw [hpre]
        intro e he
        exact (List.pairwise_append.mp hpaged.sorted).2.2 e he _ List.mem_cons_self
      · rw [hlast]
        exact Nat.mod_eq_of_lt hend
      · rw [hlast]
        exact Nat.sub_eq_zero_of_le hlen

/-- **Sizes of page requests**: a successful request takes just the bytes of its pages and gets
    them back on a free if and only if its size is an even number of pages. -/
theorem exact_iff {fuel ptr size addr : ℕ} (h : Listed s xs) (hpaged : Paged (s.ranges xs))
    (hsize : size < 2 ^ 64) (hcall : xtAllocatePages fuel s ptr size = some (s', .ok addr)) :
    Exact s s' addr size ↔ 8192 ∣ size := by
  obtain ⟨pre, i, post, rfl, hserves, rfl, hr⟩ | ⟨-, hr⟩ := h.allocate_cases hcall
  swap
  · cases hr
  obtain rfl : addr = (s.entry i).start := by
    rw [takePages_eq] at hr
    split at hr <;> exact (Except.ok.inj hr)
  have hbound := hpaged.bound (s.entry i) (List.mem_map_of_mem (by simp))
  obtain ⟨hsub, hremoved⟩ := h.take_removes hpaged.sorted hbound hserves.1
  constructor
  · intro hexact
    rw [← carvedSize_eq_pageCeil_iff hsize]
    -- both sizes are cut from the same bytes, so their intervals are the same
    have hsame : Set.Ico (s.entry i).start ((s.entry i).start + carvedSize size) =
        Set.Ico (s.entry i).start ((s.entry i).start + pageCeil size) := by
      rw [← Set.sdiff_sdiff_cancel_left hsub, ← hremoved, hexact.removed,
        Set.sdiff_sdiff_cancel_left hexact.listed]
    have hmem := fun a => Set.ext_iff.mp hsame a
    simp only [Set.mem_Ico] at hmem
    have h1 := hmem ((s.entry i).start + carvedSize size)
    have h2 := hmem ((s.entry i).start + pageCeil size)
    omega
  · intro hdvd
    have hceil := (carvedSize_eq_pageCeil_iff hsize).mpr hdvd
    have hself : pageCeil size = size := by
      rw [pageCeil]
      omega
    rw [hself] at hceil
    rw [hceil] at hserves ⊢
    exact h.take_exact hpaged hserves.1 (by omega) hself

end exact

theorem sixPages_paged : Paged (sixPages.state.ranges [1]) := by
  refine ⟨List.pairwise_singleton _ _, ?_, ?_⟩
  all_goals simp [sixPages, State.ranges, State.entry]

/-- Two pages of six. -/
theorem exact_two_of_six_pages : ∃ s',
    xtAllocatePages 4 sixPages.state 0 0x2000 = some (s', .ok 0x100000) ∧
      Exact sixPages.state s' 0x100000 0x2000 := by
  have hcall : ∃ s', xtAllocatePages 4 sixPages.state 0 0x2000 = some (s', .ok 0x100000) :=
    ⟨_, rfl⟩
  obtain ⟨s', hcall⟩ := hcall
  have hiff := exact_iff sixPages_listed sixPages_paged (by decide) hcall
  exact ⟨s', hcall, hiff.mpr (by decide)⟩

/-- A request for one page takes two, and freeing it puts one back. A request for one byte takes
    one byte. -/
theorem one_of_six_pages : ∃ s' s'' t,
    xtAllocatePages 4 sixPages.state 0 0x1000 = some (s', .ok 0x100000) ∧
      s'.ranges [1] = [⟨xtMemFree, 0x102000, 0x4000⟩] ∧
      ¬ Exact sixPages.state s' 0x100000 0x1000 ∧
      xtFreePages 4 s' 0x100000 0x1000 3 4 = some s'' ∧
      Linked 0 s''.list.next s''.memoryDescs [4, 1] 0 ∧
      s''.ranges [4, 1] = [⟨xtMemFree, 0x100000, 0x1000⟩, ⟨xtMemFree, 0x102000, 0x4000⟩] ∧
      xtAllocatePages 4 sixPages.state 0 1 = some (t, .ok 0x100000) ∧
      t.ranges [1] = [⟨xtMemFree, 0x100001, 0x5fff⟩] := by
  refine ⟨_, _, _, rfl, rfl, fun hexact => ?_, rfl, ⟨rfl, by decide, rfl, by decide, rfl⟩, rfl,
    rfl, rfl⟩
  -- the second page is in the list before the request and not in it afterwards
  have hbefore : 0x101000 ∈ sixPages.state.free := by
    rw [sixPages_listed.chain.free_eq]
    exact ⟨⟨xtMemFree, 0x100000, 0x6000⟩, List.mem_cons_self, by decide⟩
  have hafter : 0x101000 ∈ sixPages.state.free \
      Set.Ico 0x100000 (0x100000 + pageCeil 0x1000) := ⟨hbefore, by simp [pageCeil]⟩
  rw [← hexact.removed] at hafter
  obtain ⟨xs, hxs, e, he, ha⟩ := hafter
  obtain rfl : xs = [1] := hxs.unique ⟨rfl, by decide, rfl⟩
  obtain rfl : e = ⟨xtMemFree, 0x102000, 0x4000⟩ := List.mem_singleton.mp he
  exact absurd ha.1 (by decide)

end XTOS.PageAlloc

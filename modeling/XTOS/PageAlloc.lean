import XTOS.LinkedList
import XTOS.Lib.Run

/-!
# Physical pages

`xtAllocatePages` and `xtFreePages` of `xtkernel/memory.c` over the list `memoryDescs` of
free physical ranges. The list is made of kernel list nodes that point to range entries.

## Main definitions

- `State` — the list nodes, the range entries and the head of the list
- `xtAllocatePages`, `xtFreePages` — the modelled functions
- `Sound` — the listed and the outstanding ranges do not overlap
- `SafeStep` — a call that does not have to take the last node off its predecessor

## Design notes

Addresses and lengths are 64-bit numbers. The loops take fuel; a loop that runs out of it
returns nothing, and `Chain.returns` says when it does not.
-/

namespace XTOS.PageAlloc

open SysLib LinkedList

/-- `XTMemoryMapEntry`. -/
structure XTMemoryMapEntry where
  attributes : ℕ
  start : ℕ
  length : ℕ
  deriving DecidableEq, Repr

/-- The kernel memory the two functions work on. -/
structure State where
  list : NodeHeap
  entries : ℕ → XTMemoryMapEntry
  memoryDescs : ℕ

/-- The entry a list node points to. -/
def State.entry (s : State) (i : ℕ) : XTMemoryMapEntry := s.entries (s.list.data i)

/-- Replace the entry of a list node. -/
def State.setEntry (s : State) (i : ℕ) (e : XTMemoryMapEntry) : State :=
  { s with entries := Function.update s.entries (s.list.data i) e }

/-- The size that a request takes: one page more, with bit 12 cleared. -/
def carvedSize (size : ℕ) : ℕ := (size + 2 ^ 12) % 2 ^ 64 &&& (2 ^ 64 - 1 - 2 ^ 12)

/-- The first node from the head of the list with the given property, and the one before. -/
def State.findNode (s : State) (fuel : ℕ) (test : XTMemoryMapEntry → Bool) : Option (ℕ × ℕ) :=
  scan 0 s.list.next (fun i => test (s.entry i)) fuel 0 s.memoryDescs

/-- Take a node out of the list, behind `prev` or at the head. -/
def State.unlink (s : State) (prev i : ℕ) : State :=
  let next := s.list.next i
  if prev ≠ 0 then { s with list := xtDestroyList (xtSetNextList s.list prev next).1 i }
  else { s with memoryDescs := next, list := xtDestroyList s.list i }

/-- The body of both search loops: take the front of the range of node `i`. -/
def takePages (s : State) (prev i size : ℕ) : State × ℕ :=
  let e := s.entry i
  let s' := s.setEntry i
    { e with start := (e.start + size) % 2 ^ 64, length := e.length - size }
  if e.length - size = 0 then (s'.unlink prev i, e.start) else (s', e.start)

/-- `xtAllocatePages`: a range that starts at `ptr`, else the first one that is large
    enough. -/
def xtAllocatePages (fuel : ℕ) (s : State) (ptr size : ℕ) :
    Option (State × Except XTResult ℕ) := do
  let size := carvedSize size
  let (prev, i) ← s.findNode fuel fun e => e.start = ptr ∧ size ≤ e.length
  if i ≠ 0 then
    let (s', out) := takePages s prev i size
    return (s', .ok out)
  let (prev, i) ← s.findNode fuel fun e => size ≤ e.length
  if i ≠ 0 then
    let (s', out) := takePages s prev i size
    return (s', .ok out)
  return (s, .error .outOfMemory)

/-- `XT_MEM_FREE`. -/
def xtMemFree : ℕ := 1

/-- The nodes with a new one that points to a new entry and is linked to `curr`. -/
def State.newList (s : State) (curr newEntry newNode : ℕ) : NodeHeap :=
  let list := { s.list with used := Function.update s.list.used newEntry true }
  (xtSetNextList (xtCreateList list newEntry newNode) newNode curr).1

/-- A new entry and a new node for it, linked between `prev` and `curr`. -/
def State.insertNode (s : State) (prev curr newEntry newNode : ℕ) (e : XTMemoryMapEntry) :
    State :=
  let list := s.newList curr newEntry newNode
  let entries := Function.update s.entries newEntry e
  if prev ≠ 0 then
    { s with entries := entries, list := (xtSetNextList list prev newNode).1 }
  else { entries := entries, list := list, memoryDescs := newNode }

/-- `xtFreePages`; `newEntry` and `newNode` are the blocks `xtHeapAlloc` returns. -/
def xtFreePages (fuel : ℕ) (s : State) (addr size newEntry newNode : ℕ) : Option State := do
  let (prev, curr) ← s.findNode fuel fun e => addr < e.start
  let p := s.entry prev
  let c := s.entry curr
  if prev ≠ 0 ∧ (p.start + p.length) % 2 ^ 64 = addr then
    let length := (p.length + size) % 2 ^ 64
    if curr ≠ 0 ∧ (p.start + length) % 2 ^ 64 = c.start then
      let s' := s.setEntry prev { p with length := (length + c.length) % 2 ^ 64 }
      return s'.unlink prev curr
    return s.setEntry prev { p with length := length }
  if curr ≠ 0 ∧ (addr + size) % 2 ^ 64 = c.start then
    return s.setEntry curr { c with start := addr, length := (c.length + size) % 2 ^ 64 }
  return s.insertNode prev curr newEntry newNode ⟨xtMemFree, addr, size⟩

/-- The state with the ranges that were allocated and not yet freed, as they were
    carved. -/
structure Run where
  state : State
  outstanding : List (ℕ × ℕ)

/-- The two calls with their arguments. A free also names the two blocks that
    `xtHeapAlloc` would return. -/
inductive Call where
  | allocate (fuel ptr size : ℕ)
  | free (fuel addr size newEntry newNode : ℕ)

/-- One call. A free passes a range as it was carved, and the heap returns two blocks that
    are not in use. -/
def Run.exec (g : Run) : Call → Option Run
  | .allocate fuel ptr size =>
    match xtAllocatePages fuel g.state ptr size with
    | none => none
    | some (s', .ok out) => some ⟨s', (out, carvedSize size) :: g.outstanding⟩
    | some (s', .error _) => some ⟨s', g.outstanding⟩
  | .free fuel addr size newEntry newNode =>
    if (addr, size) ∈ g.outstanding ∧ newEntry ≠ 0 ∧ g.state.list.used newEntry = false ∧
        newNode ≠ 0 ∧ g.state.list.used newNode = false ∧ newNode ≠ newEntry then
      (xtFreePages fuel g.state addr size newEntry newNode).map fun s' =>
        ⟨s', g.outstanding.erase (addr, size)⟩
    else none

/-- Any call. -/
def Run.Step (g g' : Run) : Prop := ∃ c, g.exec c = some g'

/-- The nodes of the list, with an entry each, whether the blocks are in use or not. -/
structure Chain (s : State) (xs : List ℕ) : Prop where
  linked : Linked 0 s.list.next s.memoryDescs xs 0
  data_nodup : (xs.map s.list.data).Nodup

/-- The nodes of the list. Nodes and entries are different heap blocks in use. -/
structure Listed (s : State) (xs : List ℕ) : Prop where
  linked : Linked 0 s.list.next s.memoryDescs xs 0
  nodes_used : ∀ x ∈ xs, s.list.used x = true
  data_used : ∀ x ∈ xs, s.list.used (s.list.data x) = true
  data_nodup : (xs.map s.list.data).Nodup
  data_ne : ∀ x ∈ xs, ∀ y ∈ xs, s.list.data x ≠ y

/-- The ranges of the list. -/
def State.ranges (s : State) (xs : List ℕ) : List XTMemoryMapEntry := xs.map s.entry

/-- Listed ranges sorted by address and disjoint, and apart from the outstanding ones that are
    not empty, which are apart from each other. -/
structure Apart (es : List XTMemoryMapEntry) (out : List (ℕ × ℕ)) : Prop where
  sorted : es.Pairwise fun a b => a.start + a.length ≤ b.start
  bound : ∀ e ∈ es, e.start < 2 ^ 64 ∧ e.length < 2 ^ 64 ∧ e.start + e.length ≤ 2 ^ 64
  outstanding : ∀ o ∈ out, o.1 < 2 ^ 64 ∧ o.2 < 2 ^ 64 ∧ o.1 + o.2 ≤ 2 ^ 64
  listed : ∀ e ∈ es, ∀ o ∈ out, o.2 = 0 ∨ e.start + e.length ≤ o.1 ∨ o.1 + o.2 ≤ e.start
  pairwise : out.Pairwise fun o o' =>
    o.2 = 0 ∨ o'.2 = 0 ∨ o.1 + o.2 ≤ o'.1 ∨ o'.1 + o'.2 ≤ o.1

/-- In this state no listed range overlaps another one or an outstanding one. -/
def Run.Sound (g : Run) : Prop :=
  ∃ xs, Listed g.state xs ∧ Apart (g.state.ranges xs) g.outstanding

/-- Before any allocation: a sorted list of disjoint ranges. -/
def Run.Initial (g : Run) : Prop := g.Sound ∧ g.outstanding = []

/-- Of the ranges `L ++ e :: R` the range `e` serves a request for `size` bytes at
    `ptr`. -/
def Serves (ptr size : ℕ) (L : List XTMemoryMapEntry) (e : XTMemoryMapEntry)
    (R : List XTMemoryMapEntry) : Prop :=
  size ≤ e.length ∧
    ((e.start = ptr ∧ ∀ l ∈ L, ¬ (l.start = ptr ∧ size ≤ l.length)) ∨
     ((∀ l ∈ L ++ e :: R, ¬ (l.start = ptr ∧ size ≤ l.length)) ∧ ∀ l ∈ L, l.length < size))

/-- An empty range at `addr` does not lie within a listed range or within an outstanding one. -/
def EmptyFits (es : List XTMemoryMapEntry) (out : List (ℕ × ℕ)) (addr : ℕ) : Prop :=
  (∀ e ∈ es, e.start ≤ addr → e.start + e.length ≤ addr) ∧
    ∀ o ∈ out, o.2 = 0 ∨ addr ≤ o.1 ∨ o.1 + o.2 ≤ addr

/-- The call does not have to take the last node off the node before it: the request does not
    use up the last range exactly, the free does not join the last two ranges. An empty range,
    which a request whose rounded size is 0 gets, is freed where it fits. -/
def Safe (es : List XTMemoryMapEntry) (out : List (ℕ × ℕ)) : Call → Prop
  | .allocate _ ptr size =>
      ∀ L e, es = L ++ [e] → L ≠ [] → Serves ptr (carvedSize size) L e [] →
        e.length ≠ carvedSize size
  | .free _ addr size _ _ => (size = 0 → EmptyFits es out addr) ∧
      ∀ L p c, es = L ++ [p, c] → p.start + p.length = addr → addr + size ≠ c.start

/-- A safe call. -/
def Run.SafeStep (g g' : Run) : Prop :=
  ∃ c xs, Listed g.state xs ∧ Safe (g.state.ranges xs) g.outstanding c ∧ g.exec c = some g'

/-! ### Ranges -/

section ranges

variable {L M N R : List XTMemoryMapEntry} {a b c e : XTMemoryMapEntry} {out : List (ℕ × ℕ)}
  {addr n : ℕ}

/-- The ranges before and behind a part of the list. -/
theorem Apart.around (h : Apart (L ++ M ++ R) out) :
    (∀ l ∈ L, ∀ m ∈ M, l.start + l.length ≤ m.start) ∧
      ∀ m ∈ M, ∀ r ∈ R, m.start + m.length ≤ r.start := by
  obtain ⟨hLM, -, hR⟩ := List.pairwise_append.mp h.sorted
  obtain ⟨-, -, hL⟩ := List.pairwise_append.mp hLM
  exact ⟨hL, fun m hm r hr => hR m (List.mem_append_right _ hm) r hr⟩

/-- A part of the list may be replaced by ranges that fit in its place. -/
theorem Apart.replace (h : Apart (L ++ M ++ R) out)
    (hsorted : N.Pairwise fun a b => a.start + a.length ≤ b.start)
    (hbound : ∀ e ∈ N, e.start < 2 ^ 64 ∧ e.length < 2 ^ 64 ∧ e.start + e.length ≤ 2 ^ 64)
    (hL : ∀ l ∈ L, ∀ m ∈ N, l.start + l.length ≤ m.start)
    (hR : ∀ m ∈ N, ∀ r ∈ R, m.start + m.length ≤ r.start)
    (hout : ∀ e ∈ N, ∀ o ∈ out, o.2 = 0 ∨ e.start + e.length ≤ o.1 ∨ o.1 + o.2 ≤ e.start) :
    Apart (L ++ N ++ R) out := by
  obtain ⟨hLM, hRR, hR'⟩ := List.pairwise_append.mp h.sorted
  have hmem : ∀ e ∈ L ++ N ++ R, e ∈ N ∨ e ∈ L ++ M ++ R := by
    intro e he
    simp only [List.mem_append] at he ⊢
    tauto
  refine ⟨?_, ?_, h.outstanding, ?_, h.pairwise⟩
  · refine List.pairwise_append.mpr ⟨?_, hRR, ?_⟩
    · exact List.pairwise_append.mpr ⟨(List.pairwise_append.mp hLM).1, hsorted, hL⟩
    · intro e he r hr
      obtain he | he := List.mem_append.mp he
      · exact hR' e (List.mem_append_left _ he) r hr
      · exact hR e he r hr
  · intro e he
    exact (hmem e he).elim (hbound e) (h.bound e)
  · intro e he
    exact (hmem e he).elim (hout e) (h.listed e)

/-- A range that is apart from all others may become outstanding. -/
theorem Apart.hand (h : Apart (L ++ R) out) (hn : addr < 2 ^ 64 ∧ n < 2 ^ 64 ∧ addr + n ≤ 2 ^ 64)
    (hL : ∀ l ∈ L, l.start + l.length ≤ addr) (hR : ∀ r ∈ R, addr + n ≤ r.start)
    (hout : ∀ o ∈ out, o.2 = 0 ∨ addr + n ≤ o.1 ∨ o.1 + o.2 ≤ addr) :
    Apart (L ++ R) ((addr, n) :: out) := by
  refine ⟨h.sorted, h.bound, ?_, ?_, ?_⟩
  · intro o ho
    obtain rfl | ho := List.mem_cons.mp ho
    · exact hn
    · exact h.outstanding o ho
  · intro e he o ho
    obtain rfl | ho := List.mem_cons.mp ho
    · exact .inr ((List.mem_append.mp he).imp (hL e) (hR e))
    · exact h.listed e he o ho
  · exact List.pairwise_cons.mpr ⟨fun o ho => .inr (hout o ho), h.pairwise⟩

/-- The front of a range goes to the outstanding ones. -/
theorem Apart.take (h : Apart (L ++ e :: R) out) (hlt : n < e.length) :
    Apart (L ++ { e with start := (e.start + n) % 2 ^ 64, length := e.length - n } :: R)
      ((e.start, n) :: out) := by
  rw [List.append_cons] at h
  obtain ⟨hL, hR⟩ := h.around
  simp only [List.mem_singleton, forall_eq] at hL hR
  have he := h.bound e (by simp)
  have hmod : (e.start + n) % 2 ^ 64 = e.start + n := Nat.mod_eq_of_lt (by omega)
  have hrest := h.replace (N := [{ e with start := e.start + n, length := e.length - n }])
    (List.pairwise_singleton _ _) (by simp; omega)
    (by simpa using fun l hl => (hL l hl).trans (Nat.le_add_right _ _))
    (by simpa using fun r hr => (show _ ≤ e.start + e.length by omega).trans (hR r hr))
    (by
      intro c hc o ho
      obtain rfl := List.mem_singleton.mp hc
      have := h.listed e (by simp) o ho
      dsimp only
      omega)
  rw [List.append_assoc, List.singleton_append] at hrest
  rw [hmod]
  refine hrest.hand (by omega) hL ?_ ?_
  · intro r hr
    obtain rfl | hr := List.mem_cons.mp hr
    · exact le_rfl
    · have := hR r hr
      omega
  · intro o ho
    have := h.listed e (by simp) o ho
    omega

/-- A range that is used up leaves the list. -/
theorem Apart.takeAll (h : Apart (L ++ e :: R) out) :
    Apart (L ++ R) ((e.start, e.length) :: out) := by
  rw [List.append_cons] at h
  obtain ⟨hL, hR⟩ := h.around
  simp only [List.mem_singleton, forall_eq] at hL hR
  have hrest := h.replace (N := []) .nil (by simp) (by simp) (by simp) (by simp)
  rw [List.append_nil] at hrest
  exact hrest.hand (h.bound e (by simp)) hL hR fun o ho => h.listed e (by simp) o ho

/-- An outstanding range comes back to its place. -/
theorem Apart.insert (h : Apart (L ++ R) out) (hmem : (addr, n) ∈ out)
    (hempty : n = 0 → EmptyFits (L ++ R) out addr)
    (hL : ∀ l ∈ L, l.start ≤ addr) (hR : ∀ r ∈ R, addr < r.start) (attr : ℕ) :
    Apart (L ++ ⟨attr, addr, n⟩ :: R) (out.erase (addr, n)) := by
  have hsub : (out.erase (addr, n)).Sublist out := List.erase_sublist
  obtain ⟨haddr, hlt, hbound⟩ := h.outstanding _ hmem
  have hapart := (List.perm_cons_erase hmem).pairwise_iff (fun h => by tauto) |>.mp h.pairwise
  have hless : Apart (L ++ [] ++ R) (out.erase (addr, n)) := by
    rw [List.append_nil]
    exact ⟨h.sorted, h.bound, fun o ho => h.outstanding o (hsub.subset ho),
      fun e he o ho => h.listed e he o (hsub.subset ho), h.pairwise.sublist hsub⟩
  have hnew := hless.replace (N := [⟨attr, addr, n⟩]) (List.pairwise_singleton _ _)
    (by simp; omega)
    (by
      intro l hl m hm
      obtain rfl := List.mem_singleton.mp hm
      have hl' := List.mem_append_left R hl
      have := h.listed l hl' _ hmem
      have := fun hn => (hempty hn).1 l hl' (hL l hl)
      have := hL l hl
      dsimp only at *
      omega)
    (by
      intro m hm r hr
      obtain rfl := List.mem_singleton.mp hm
      have := h.listed r (List.mem_append_right _ hr) _ hmem
      have := hR r hr
      dsimp only at *
      omega)
    (by
      intro m hm o ho
      obtain rfl := List.mem_singleton.mp hm
      have := (List.pairwise_cons.mp hapart).1 o ho
      have := fun hn => (hempty hn).2 o (hsub.subset ho)
      dsimp only at *
      omega)
  rwa [List.append_assoc, List.singleton_append] at hnew

/-- Two ranges that meet become one. A sum of `2 ^ 64` becomes an empty range at 0. -/
theorem Apart.merge (h : Apart (L ++ a :: b :: R) out) (hab : a.start + a.length = b.start)
    (hstart : c.start = a.start) (hlen : c.length = (a.length + b.length) % 2 ^ 64) :
    Apart (L ++ c :: R) out := by
  have h' : Apart (L ++ [a, b] ++ R) out := by simpa using h
  obtain ⟨hL, hR⟩ := h'.around
  have ha := h.bound a (by simp)
  have hb := h.bound b (by simp)
  have hle : c.length ≤ a.length + b.length := by
    rw [hlen]
    exact Nat.mod_le _ _
  have hnew := h'.replace (N := [c]) (List.pairwise_singleton _ _)
    (by simp; omega)
    (by
      intro l hl m hm
      obtain rfl := List.mem_singleton.mp hm
      have := hL l hl a (by simp)
      omega)
    (by
      intro m hm r hr
      obtain rfl := List.mem_singleton.mp hm
      have := hR b (by simp) r hr
      omega)
    (by
      intro m hm o ho
      obtain rfl := List.mem_singleton.mp hm
      have := h.listed a (by simp) o ho
      have := h.listed b (by simp) o ho
      have := h.outstanding o ho
      omega)
  rwa [List.append_assoc, List.singleton_append] at hnew

end ranges

/-! ### The list of nodes -/

section nodes

variable {s : State} {xs pre post : List ℕ} {i : ℕ} {e : XTMemoryMapEntry}

theorem entry_congr {s' : State} (hdata : s'.list.data = s.list.data)
    (hentries : s'.entries = s.entries) : s'.entry = s.entry := by
  funext i
  rw [State.entry, State.entry, hdata, hentries]

theorem entry_setEntry_self (s : State) (i : ℕ) (e : XTMemoryMapEntry) :
    (s.setEntry i e).entry i = e := by
  simp [State.entry, State.setEntry]

theorem Listed.setEntry (h : Listed s xs) (i : ℕ) (e : XTMemoryMapEntry) :
    Listed (s.setEntry i e) xs :=
  ⟨h.linked, h.nodes_used, h.data_used, h.data_nodup, h.data_ne⟩

theorem Listed.chain (h : Listed s xs) : Chain s xs := ⟨h.linked, h.data_nodup⟩

theorem Chain.setEntry (h : Chain s xs) (i : ℕ) (e : XTMemoryMapEntry) :
    Chain (s.setEntry i e) xs := ⟨h.linked, h.data_nodup⟩

/-- Changing the entry of one node leaves the other ranges. -/
theorem Chain.ranges_setEntry_of_notMem (h : Chain s xs) (hi : i ∈ xs) {ys : List ℕ}
    (hsub : ys ⊆ xs) (hne : i ∉ ys) (e : XTMemoryMapEntry) :
    (s.setEntry i e).ranges ys = s.ranges ys := by
  refine List.map_congr_left fun x hx => Function.update_of_ne ?_ _ _
  intro hdata
  exact hne (List.inj_on_of_nodup_map h.data_nodup (hsub hx) hi hdata ▸ hx)

theorem Listed.ranges_setEntry_of_notMem (h : Listed s xs) (hi : i ∈ xs) {ys : List ℕ}
    (hsub : ys ⊆ xs) (hne : i ∉ ys) (e : XTMemoryMapEntry) :
    (s.setEntry i e).ranges ys = s.ranges ys :=
  h.chain.ranges_setEntry_of_notMem hi hsub hne e

theorem ranges_append (s : State) (pre post : List ℕ) :
    s.ranges (pre ++ post) = s.ranges pre ++ s.ranges post := List.map_append

theorem ranges_cons (s : State) (i : ℕ) (post : List ℕ) :
    s.ranges (i :: post) = s.entry i :: s.ranges post := rfl

theorem Chain.notMem (h : Chain s (pre ++ i :: post)) : i ∉ pre ∧ i ∉ post := by
  have hnd := (List.nodup_middle.mp h.linked.nodup).notMem
  rwa [List.mem_append, not_or] at hnd

theorem Listed.notMem (h : Listed s (pre ++ i :: post)) : i ∉ pre ∧ i ∉ post := h.chain.notMem

/-- Changing the entry of one node changes one range. -/
theorem Chain.ranges_setEntry (h : Chain s (pre ++ i :: post)) (e : XTMemoryMapEntry) :
    (s.setEntry i e).ranges (pre ++ i :: post) = s.ranges pre ++ e :: s.ranges post := by
  rw [ranges_append, ranges_cons, entry_setEntry_self,
    h.ranges_setEntry_of_notMem (by simp) (by simp) h.notMem.1,
    h.ranges_setEntry_of_notMem (by simp) (by simp) h.notMem.2]

theorem Listed.ranges_setEntry (h : Listed s (pre ++ i :: post)) (e : XTMemoryMapEntry) :
    (s.setEntry i e).ranges (pre ++ i :: post) = s.ranges pre ++ e :: s.ranges post :=
  h.chain.ranges_setEntry e

/-- What a list keeps when some of its nodes are linked anew. -/
theorem Listed.sublist {s' : State} {ys : List ℕ} (h : Listed s xs) (hsub : ys.Sublist xs)
    (hlinked : Linked 0 s'.list.next s'.memoryDescs ys 0) (hdata : s'.list.data = s.list.data)
    (hused : ∀ x ∈ ys, s'.list.used x = s.list.used x ∧
      s'.list.used (s.list.data x) = s.list.used (s.list.data x)) : Listed s' ys := by
  refine ⟨hlinked, fun x hx => ?_, fun x hx => ?_, ?_, fun x hx y hy => ?_⟩
  · rw [(hused x hx).1]
    exact h.nodes_used x (hsub.subset hx)
  · rw [hdata, (hused x hx).2]
    exact h.data_used x (hsub.subset hx)
  · rw [hdata]
    exact h.data_nodup.sublist (hsub.map _)
  · rw [hdata]
    exact h.data_ne x (hsub.subset hx) y (hsub.subset hy)

/-- A node that is not the last one, or is the first one, can be taken out. -/
theorem Listed.unlink (h : Listed s (pre ++ i :: post)) (hsafe : pre = [] ∨ post ≠ []) :
    Listed (s.unlink (pre.getLastD 0) i) (pre ++ post) ∧
      (s.unlink (pre.getLastD 0) i).entry = s.entry := by
  have hsub : (pre ++ post).Sublist (pre ++ i :: post) :=
    (List.sublist_cons_self i post).append_left pre
  have hi : i ∈ pre ++ i :: post := by simp
  have hne : ∀ x ∈ pre ++ post, x ≠ i := by
    rintro x hx rfl
    exact (List.nodup_middle.mp h.linked.nodup).notMem hx
  have hdi : ∀ x ∈ pre ++ post, s.list.data x ≠ i := fun x hx =>
    h.data_ne x (hsub.subset hx) i hi
  obtain rfl | ⟨front, p, rfl⟩ := List.eq_nil_or_concat' pre
  · refine ⟨h.sublist hsub ?_ ?_ fun x hx => ⟨?_, ?_⟩, ?_⟩
    · simpa [State.unlink] using h.linked.2.2
    · simp [State.unlink]
    · simp [State.unlink, xtDestroyList_used (hne x hx)]
    · simp [State.unlink, xtDestroyList_used (hdi x hx)]
    · exact entry_congr (by simp [State.unlink]) (by simp [State.unlink])
  · obtain ⟨j, post, rfl⟩ := List.exists_cons_of_ne_nil (hsafe.resolve_left (by simp))
    have hlinked : Linked 0 s.list.next s.memoryDescs (front ++ p :: i :: j :: post) 0 := by
      simpa using h.linked
    have hp : p ≠ 0 := h.linked.ne_null p (by simp)
    have hj : j ≠ 0 := h.linked.ne_null j (by simp)
    have hnext : s.list.next i = j := by
      obtain ⟨b, -, rfl, -, rfl, -, hlink⟩ := linked_append.mp hlinked
      exact hlink.head
    have hunlink : s.unlink ((front ++ [p]).getLastD 0) i =
        { s with list := xtDestroyList (xtSetNextList s.list p j).1 i } := by
      simp [State.unlink, hp, hnext]
    rw [hunlink]
    refine ⟨h.sublist hsub ?_ ?_ fun x hx => ⟨?_, ?_⟩, ?_⟩
    · have hnew := hlinked.unlink
      rw [hnext, ← xtSetNextList_next hp hj] at hnew
      simpa using hnew
    · simp
    · simp [xtDestroyList_used (hne x hx)]
    · simp [xtDestroyList_used (hdi x hx)]
    · exact entry_congr (by simp) rfl

/-- The loops stop before the first node whose range has the property. -/
theorem Chain.findNode (h : Chain s xs) {fuel : ℕ} {test : XTMemoryMapEntry → Bool}
    {prev curr : ℕ} (hfind : s.findNode fuel test = some (prev, curr)) :
    ∃ pre post, xs = pre ++ post ∧ prev = pre.getLastD 0 ∧ curr = post.headD 0 ∧
      (∀ x ∈ pre, test (s.entry x) = false) ∧
      ∀ y ys, post = y :: ys → test (s.entry y) = true := by
  obtain ⟨pre, post, hxs, hr, hpre, hpost⟩ := h.linked.scan_split hfind
  cases hr
  exact ⟨pre, post, hxs, rfl, rfl, hpre, hpost⟩

theorem Listed.findNode (h : Listed s xs) {fuel : ℕ} {test : XTMemoryMapEntry → Bool}
    {prev curr : ℕ} (hfind : s.findNode fuel test = some (prev, curr)) :
    ∃ pre post, xs = pre ++ post ∧ prev = pre.getLastD 0 ∧ curr = post.headD 0 ∧
      (∀ x ∈ pre, test (s.entry x) = false) ∧
      ∀ y ys, post = y :: ys → test (s.entry y) = true :=
  h.chain.findNode hfind

/-- Taking pages from the range of a node. -/
theorem Listed.take (h : Listed s (pre ++ i :: post)) {out : List (ℕ × ℕ)} {n : ℕ}
    (ha : Apart (s.ranges (pre ++ i :: post)) out) (hle : n ≤ (s.entry i).length)
    (hsafe : (s.entry i).length = n → pre = [] ∨ post ≠ []) :
    ∃ xs, Listed (takePages s (pre.getLastD 0) i n).1 xs ∧
      Apart ((takePages s (pre.getLastD 0) i n).1.ranges xs)
        (((takePages s (pre.getLastD 0) i n).2, n) :: out) := by
  rw [ranges_append, ranges_cons] at ha
  unfold takePages
  dsimp only
  split
  · rename_i hzero
    obtain rfl : (s.entry i).length = n := by omega
    obtain ⟨hlist, hentry⟩ := (h.setEntry i
      { s.entry i with
        start := ((s.entry i).start + (s.entry i).length) % 2 ^ 64
        length := (s.entry i).length - (s.entry i).length }).unlink (hsafe rfl)
    refine ⟨pre ++ post, hlist, ?_⟩
    have hranges : ∀ e, (s.setEntry i e).ranges (pre ++ post) = s.ranges pre ++ s.ranges post := by
      intro e
      rw [h.ranges_setEntry_of_notMem (by simp) (by simp) (by simpa using h.notMem), ranges_append]
    rw [State.ranges, hentry, ← State.ranges, hranges]
    exact ha.takeAll
  · refine ⟨pre ++ i :: post, h.setEntry i _, ?_⟩
    rw [h.ranges_setEntry]
    exact ha.take (by omega)

theorem Listed.newList (h : Listed s (pre ++ post)) {newEntry newNode : ℕ}
    (hnode : newNode ≠ 0) :
    (s.newList (post.headD 0) newEntry newNode).next =
        Function.update s.list.next newNode (post.headD 0) ∧
      (s.newList (post.headD 0) newEntry newNode).data =
        Function.update s.list.data newNode newEntry ∧
      (s.newList (post.headD 0) newEntry newNode).used =
        Function.update (Function.update s.list.used newEntry true) newNode true := by
  unfold State.newList
  have hnext : ∀ H : NodeHeap, (xtCreateList H newEntry newNode).next =
      Function.update H.next newNode 0 := by
    intro H
    funext x
    by_cases hx : x = newNode
    · subst x
      simp [xtCreateList, NodeHeap.next]
    · simp [xtCreateList, NodeHeap.next, hx]
  refine ⟨?_, ?_, ?_⟩
  · cases post with
    | nil =>
      simp only [List.headD_nil, xtSetNextList, hnode, if_false, if_true]
      exact hnext _
    | cons j post =>
      have hj : j ≠ 0 := h.linked.ne_null j (by simp)
      rw [List.headD_cons, xtSetNextList_next hnode hj, hnext, Function.update_idem]
      rfl
  · rw [xtSetNextList_data]
    funext x
    by_cases hx : x = newNode
    · subst x
      simp [xtCreateList, NodeHeap.data]
    · simp [xtCreateList, NodeHeap.data, hx]
  · rw [xtSetNextList_used]
    rfl

/-- A list with one node more, in blocks that were not in use. -/
theorem Listed.cons {s' : State} {newEntry newNode : ℕ} (h : Listed s (pre ++ post))
    (hlinked : Linked 0 s'.list.next s'.memoryDescs (pre ++ newNode :: post) 0)
    (hentry : s.list.used newEntry = false) (hnode : s.list.used newNode = false)
    (hne : newNode ≠ newEntry)
    (hdata : s'.list.data = Function.update s.list.data newNode newEntry)
    (hused : s'.list.used =
      Function.update (Function.update s.list.used newEntry true) newNode true) :
    Listed s' (pre ++ newNode :: post) := by
  have hnn : newNode ∉ pre ++ post := fun hm => by
    rw [h.nodes_used _ hm] at hnode
    cases hnode
  have hne' : newEntry ∉ pre ++ post := fun hm => by
    rw [h.nodes_used _ hm] at hentry
    cases hentry
  have hdata_ne : ∀ x ∈ pre ++ post, s.list.data x ≠ newNode ∧ s.list.data x ≠ newEntry := by
    intro x hx
    have hused := h.data_used x hx
    refine ⟨fun heq => ?_, fun heq => ?_⟩
    · rw [heq, hnode] at hused
      cases hused
    · rw [heq, hentry] at hused
      cases hused
  have hkeep : ∀ x ∈ pre ++ post, s'.list.data x = s.list.data x := by
    intro x hx
    rw [hdata, Function.update_of_ne]
    rintro rfl
    exact hnn hx
  have hself : s'.list.data newNode = newEntry := by rw [hdata, Function.update_self]
  have hmem : ∀ x, x ∈ pre ++ newNode :: post → x = newNode ∨ x ∈ pre ++ post := by
    intro x hx
    simp only [List.mem_append, List.mem_cons] at hx ⊢
    tauto
  refine ⟨hlinked, ?_, ?_, ?_, ?_⟩
  · intro x hx
    obtain rfl | hx := hmem x hx
    · rw [hused, Function.update_self]
    · have := h.nodes_used x hx
      simp only [hused, Function.update_apply]
      split_ifs <;> simp [this]
  · intro x hx
    obtain rfl | hx := hmem x hx
    · simp [hself, hused, hne.symm]
    · have := h.data_used x hx
      simp only [hkeep x hx, hused, Function.update_apply]
      split_ifs <;> simp [this]
  · have hpre : pre.map s'.list.data = pre.map s.list.data :=
      List.map_congr_left fun x hx => hkeep x (List.mem_append_left _ hx)
    have hpost : post.map s'.list.data = post.map s.list.data :=
      List.map_congr_left fun x hx => hkeep x (List.mem_append_right _ hx)
    rw [List.map_append, List.map_cons, hpre, hpost, hself, List.nodup_middle,
      ← List.map_append]
    refine List.nodup_cons.mpr ⟨?_, h.data_nodup⟩
    intro hm
    obtain ⟨x, hx, heq⟩ := List.mem_map.mp hm
    exact (hdata_ne x hx).2 heq
  · intro x hx y hy
    obtain rfl | hx := hmem x hx
    · obtain rfl | hy := hmem y hy
      · rw [hself]
        exact hne.symm
      · rw [hself]
        rintro rfl
        exact hne' hy
    · rw [hkeep x hx]
      obtain hy | hy := hmem y hy
      · rw [hy]
        exact (hdata_ne x hx).1
      · exact h.data_ne x hx y hy

/-- A new node between two parts of the list. -/
theorem Listed.insertNode (h : Listed s (pre ++ post)) {newEntry newNode : ℕ}
    (hentry : s.list.used newEntry = false) (hnode : newNode ≠ 0)
    (hfree : s.list.used newNode = false) (hne : newNode ≠ newEntry) (e : XTMemoryMapEntry) :
    Listed (s.insertNode (pre.getLastD 0) (post.headD 0) newEntry newNode e)
        (pre ++ newNode :: post) ∧
      (s.insertNode (pre.getLastD 0) (post.headD 0) newEntry newNode e).ranges
        (pre ++ newNode :: post) = s.ranges pre ++ e :: s.ranges post := by
  obtain ⟨hnext, hdata, hused⟩ := @Listed.newList s pre post h newEntry newNode hnode
  generalize hH : s.newList (post.headD 0) newEntry newNode = H at hnext hdata hused
  have hnn : newNode ∉ pre ++ post := fun hm => by
    rw [h.nodes_used _ hm] at hfree
    cases hfree
  have hself : H.next newNode = post.headD 0 := by rw [hnext, Function.update_self]
  have hkeep : ∀ x ∈ pre ++ post, H.next x = s.list.next x := by
    intro x hx
    rw [hnext, Function.update_of_ne]
    rintro rfl
    exact hnn hx
  have hold := h.linked.congr hkeep
  -- the entries of the old nodes are in other blocks than the new one
  have hranges : ∀ (s' : State) (ys : List ℕ), ys ⊆ pre ++ post →
      s'.list.data = Function.update s.list.data newNode newEntry →
      s'.entries = Function.update s.entries newEntry e → s'.ranges ys = s.ranges ys := by
    intro s' ys hsub hd he
    refine List.map_congr_left fun x hx => ?_
    have hxn : x ≠ newNode := by
      rintro rfl
      exact hnn (hsub hx)
    have hxe : s.list.data x ≠ newEntry := by
      intro heq
      have := h.data_used x (hsub hx)
      rw [heq, hentry] at this
      cases this
    rw [State.entry, State.entry, hd, he, Function.update_of_ne hxn, Function.update_of_ne hxe]
  have hfinish : ∀ s' : State,
      Linked 0 s'.list.next s'.memoryDescs (pre ++ newNode :: post) 0 →
      s'.list.data = Function.update s.list.data newNode newEntry →
      s'.list.used = Function.update (Function.update s.list.used newEntry true) newNode true →
      s'.entries = Function.update s.entries newEntry e →
      Listed s' (pre ++ newNode :: post) ∧
        s'.ranges (pre ++ newNode :: post) = s.ranges pre ++ e :: s.ranges post := by
    intro s' hl hd hu he
    refine ⟨h.cons hl hentry hfree hne hd hu, ?_⟩
    rw [ranges_append, ranges_cons, hranges s' pre (by simp) hd he,
      hranges s' post (by simp) hd he, State.entry, hd, he, Function.update_self,
      Function.update_self]
  obtain rfl | ⟨front, p, rfl⟩ := List.eq_nil_or_concat' pre
  · have hins : s.insertNode (([] : List ℕ).getLastD 0) (post.headD 0) newEntry newNode e =
        { entries := Function.update s.entries newEntry e, list := H, memoryDescs := newNode } := by
      rw [State.insertNode, hH, if_neg (by simp)]
    rw [hins]
    refine hfinish _ ⟨rfl, hnode, ?_⟩ hdata hused rfl
    rw [List.nil_append] at hold
    rw [hself, ← hold.head]
    exact hold
  · have hp : p ≠ 0 := h.linked.ne_null p (by simp)
    have hins : s.insertNode ((front ++ [p]).getLastD 0) (post.headD 0) newEntry newNode e =
        { s with
          entries := Function.update s.entries newEntry e
          list := (xtSetNextList H p newNode).1 } := by
      rw [State.insertNode, hH, List.getLastD_concat, if_pos hp]
    rw [hins]
    refine hfinish _ ?_ (by rw [xtSetNextList_data, hdata]) (by rw [xtSetNextList_used, hused]) rfl
    rw [List.append_assoc, List.singleton_append] at hold hnn
    rw [xtSetNextList_next hp hnode, List.append_assoc, List.singleton_append]
    exact hold.insert hnode hnn hself

end nodes

/-! ### The two calls -/

/-- What an allocation does: it takes the front of the range that serves the request, or
    it fails and changes nothing. -/
theorem Listed.allocate_cases {s s' : State} {xs : List ℕ} (h : Listed s xs)
    {fuel ptr size : ℕ} {r : Except XTResult ℕ}
    (hcall : xtAllocatePages fuel s ptr size = some (s', r)) :
    (∃ pre i post, xs = pre ++ i :: post ∧
      Serves ptr (carvedSize size) (s.ranges pre) (s.entry i) (s.ranges post) ∧
      s' = (takePages s (pre.getLastD 0) i (carvedSize size)).1 ∧
      r = .ok (takePages s (pre.getLastD 0) i (carvedSize size)).2) ∨
    (s' = s ∧ r = .error .outOfMemory) := by
  simp only [xtAllocatePages, Option.bind_eq_bind, Option.bind_eq_some_iff] at hcall
  obtain ⟨⟨prev, i⟩, hfind, hcall⟩ := hcall
  obtain ⟨pre, post, rfl, rfl, rfl, hpre, hpost⟩ := h.findNode hfind
  simp only [decide_eq_false_iff_not] at hpre
  cases post with
  | cons i post =>
    have hi : i ≠ 0 := h.linked.ne_null i (by simp)
    have htest := hpost i post rfl
    rw [decide_eq_true_eq] at htest
    rw [List.headD_cons, if_pos hi] at hcall
    cases hcall
    refine .inl ⟨pre, i, post, rfl, ⟨htest.2, .inl ⟨htest.1, ?_⟩⟩, rfl, rfl⟩
    simpa [State.ranges] using hpre
  | nil =>
    -- no range starts at the address, so the second loop decides
    rw [List.headD_nil, if_neg (by simp), Option.bind_eq_some_iff] at hcall
    obtain ⟨⟨prev, i⟩, hfind', hcall⟩ := hcall
    obtain ⟨pre', post', hxs, rfl, rfl, hpre', hpost'⟩ := h.findNode hfind'
    rw [List.append_nil] at hxs
    subst hxs
    simp only [decide_eq_false_iff_not, not_le] at hpre'
    cases post' with
    | cons i post =>
      have hi : i ≠ 0 := h.linked.ne_null i (by simp)
      have htest := hpost' i post rfl
      rw [decide_eq_true_eq] at htest
      rw [List.headD_cons, if_pos hi] at hcall
      cases hcall
      refine .inl ⟨pre', i, post, by simp, ⟨htest, .inr ⟨?_, ?_⟩⟩, rfl, rfl⟩
      · rw [← ranges_cons, ← ranges_append]
        simpa only [State.ranges, List.forall_mem_map] using hpre
      · simpa [State.ranges] using hpre'
    | nil =>
      rw [List.headD_nil, if_neg (by simp)] at hcall
      cases hcall
      exact .inr ⟨rfl, rfl⟩

/-- In a sorted list everything behind the first range beyond an address is beyond it. -/
theorem Apart.lt_start {L : List XTMemoryMapEntry} {c : XTMemoryMapEntry}
    {R : List XTMemoryMapEntry} {out : List (ℕ × ℕ)} (h : Apart (L ++ c :: R) out) {addr : ℕ}
    (hc : addr < c.start) : ∀ r ∈ c :: R, addr < r.start := by
  intro r hr
  obtain rfl | hr := List.mem_cons.mp hr
  · exact hc
  · have hle := (List.pairwise_cons.mp (List.pairwise_append.mp h.sorted).2.1).1 r hr
    omega

section free

variable {s : State} {pre post front rest : List ℕ} {p c : ℕ} {out : List (ℕ × ℕ)}
  {addr size : ℕ}

/-- The freed range in its place between two parts of the list. -/
theorem Apart.freed (ha : Apart (s.ranges (pre ++ post)) out) (hmem : (addr, size) ∈ out)
    (hempty : size = 0 → EmptyFits (s.ranges (pre ++ post)) out addr)
    (hpre : ∀ x ∈ pre, (s.entry x).start ≤ addr)
    (hpost : ∀ y ys, post = y :: ys → addr < (s.entry y).start) (attr : ℕ) :
    Apart (s.ranges pre ++ ⟨attr, addr, size⟩ :: s.ranges post) (out.erase (addr, size)) := by
  rw [ranges_append] at ha hempty
  refine ha.insert hmem hempty (by simpa [State.ranges] using hpre) ?_ attr
  cases post with
  | nil => simp [State.ranges]
  | cons y ys => exact ha.lt_start (hpost y ys rfl)

/-- The range before the freed one grows over it. -/
theorem Apart.growBefore
    (ha : Apart (s.ranges (front ++ [p]) ++ ⟨xtMemFree, addr, size⟩ :: s.ranges post) out)
    (hmeet : ((s.entry p).start + (s.entry p).length) % 2 ^ 64 = addr)
    (hle : (s.entry p).start ≤ addr) :
    Apart (s.ranges front ++
      { s.entry p with length := ((s.entry p).length + size) % 2 ^ 64 } :: s.ranges post) out := by
  rw [ranges_append, List.append_assoc] at ha
  have hb := ha.bound (s.entry p) (by simp [State.ranges])
  exact ha.merge (by dsimp only; omega) rfl rfl

/-- Taking out the node behind `p` and changing the range of `p`. -/
theorem Listed.joinNext (h : Listed s (front ++ [p] ++ c :: rest)) (hrest : rest ≠ [])
    (e : XTMemoryMapEntry) :
    ∃ ys, Listed ((s.setEntry p e).unlink p c) ys ∧
      ((s.setEntry p e).unlink p c).ranges ys = s.ranges front ++ e :: s.ranges rest := by
  obtain ⟨hlist, hentry⟩ := (h.setEntry p e).unlink (.inr hrest)
  rw [List.getLastD_concat] at hlist hentry
  refine ⟨front ++ [p] ++ rest, hlist, ?_⟩
  have hnd := h.linked.nodup
  simp only [List.append_assoc, List.nodup_append, List.nodup_cons, List.mem_cons,
    List.singleton_append] at hnd
  have hfront : p ∉ front := fun hm => hnd.2.2 p hm p (.inl rfl) rfl
  have hrest : p ∉ rest := fun hm => hnd.2.1.1 (.inr hm)
  rw [State.ranges, hentry, ← State.ranges, List.append_assoc, ranges_append,
    List.singleton_append, ranges_cons, entry_setEntry_self,
    h.ranges_setEntry_of_notMem (by simp) (by intro x; simp; tauto) hfront,
    h.ranges_setEntry_of_notMem (by simp) (by intro x; simp; tauto) hrest]

end free

/-- What a free does: the range before the freed one grows over it and maybe over the next one,
    or the next one grows over it, or it gets a node of its own. -/
theorem Chain.free_outcomes {s s' : State} {xs : List ℕ} (h : Chain s xs)
    {fuel addr size newEntry newNode : ℕ}
    (hcall : xtFreePages fuel s addr size newEntry newNode = some s') :
    ∃ pre post, xs = pre ++ post ∧ (∀ x ∈ pre, (s.entry x).start ≤ addr) ∧
      (∀ c rest, post = c :: rest → addr < (s.entry c).start) ∧
      ((∃ front p c rest, pre = front ++ [p] ∧ post = c :: rest ∧
          ((s.entry p).start + (s.entry p).length) % 2 ^ 64 = addr ∧
          ((s.entry p).start + ((s.entry p).length + size) % 2 ^ 64) % 2 ^ 64 =
            (s.entry c).start ∧
          s' = (s.setEntry p { s.entry p with
            length := (((s.entry p).length + size) % 2 ^ 64 + (s.entry c).length) % 2 ^ 64
            }).unlink p c) ∨
        (∃ front p, pre = front ++ [p] ∧
          ((s.entry p).start + (s.entry p).length) % 2 ^ 64 = addr ∧
          s' = s.setEntry p { s.entry p with length := ((s.entry p).length + size) % 2 ^ 64 }) ∨
        (∃ c rest, post = c :: rest ∧ (addr + size) % 2 ^ 64 = (s.entry c).start ∧
          s' = s.setEntry c { s.entry c with
            start := addr, length := ((s.entry c).length + size) % 2 ^ 64 }) ∨
        (∀ front p, pre = front ++ [p] →
            ((s.entry p).start + (s.entry p).length) % 2 ^ 64 ≠ addr) ∧
          (∀ c rest, post = c :: rest → (addr + size) % 2 ^ 64 ≠ (s.entry c).start) ∧
          s' = s.insertNode (pre.getLastD 0) (post.headD 0) newEntry newNode
            ⟨xtMemFree, addr, size⟩) := by
  simp only [xtFreePages, Option.bind_eq_bind, Option.bind_eq_some_iff] at hcall
  obtain ⟨⟨prev, curr⟩, hfind, hcall⟩ := hcall
  obtain ⟨pre, post, rfl, rfl, rfl, hpre, hpost⟩ := h.findNode hfind
  simp only [decide_eq_false_iff_not, not_lt] at hpre
  simp only [decide_eq_true_eq] at hpost
  refine ⟨pre, post, rfl, hpre, hpost, ?_⟩
  dsimp only at hcall
  split at hcall
  · rename_i hprev
    obtain rfl | ⟨front, p, rfl⟩ := List.eq_nil_or_concat' pre
    · simp at hprev
    rw [List.getLastD_concat] at hprev hcall
    split at hcall
    · rename_i hcurr
      cases post with
      | nil => simp at hcurr
      | cons c rest =>
        cases hcall
        exact .inl ⟨front, p, c, rest, rfl, rfl, hprev.2, hcurr.2, rfl⟩
    · cases hcall
      exact .inr (.inl ⟨front, p, rfl, hprev.2, rfl⟩)
  · rename_i hprev
    split at hcall
    · rename_i hcurr
      cases post with
      | nil => simp at hcurr
      | cons c rest =>
        cases hcall
        exact .inr (.inr (.inl ⟨c, rest, rfl, hcurr.2, rfl⟩))
    · rename_i hcurr
      cases hcall
      refine .inr (.inr (.inr ⟨?_, ?_, rfl⟩))
      · rintro front p rfl hmeet
        rw [List.getLastD_concat] at hprev
        exact hprev ⟨h.linked.ne_null p (by simp), hmeet⟩
      · rintro c rest rfl hmeet
        exact hcurr ⟨h.linked.ne_null c (by simp), hmeet⟩

/-- A safe free puts an outstanding range back. -/
theorem Listed.free {s s' : State} {xs : List ℕ} {out : List (ℕ × ℕ)} (h : Listed s xs)
    (ha : Apart (s.ranges xs) out) {fuel addr size newEntry newNode : ℕ}
    (hsafe : Safe (s.ranges xs) out (.free fuel addr size newEntry newNode))
    (hmem : (addr, size) ∈ out) (hentry : s.list.used newEntry = false) (hnode : newNode ≠ 0)
    (hfree : s.list.used newNode = false) (hne : newNode ≠ newEntry)
    (hcall : xtFreePages fuel s addr size newEntry newNode = some s') :
    ∃ ys, Listed s' ys ∧ Apart (s'.ranges ys) (out.erase (addr, size)) := by
  obtain ⟨pre, post, rfl, hpre, hpost, hcases⟩ := h.chain.free_outcomes hcall
  have hput := ha.freed hmem hsafe.1 hpre hpost xtMemFree
  obtain ⟨-, hsize, hend⟩ := ha.outstanding _ hmem
  dsimp only at hsize hend
  obtain ⟨front, p, c, rest, rfl, rfl, hprev, hcurr, rfl⟩ | ⟨front, p, rfl, hprev, rfl⟩ |
    ⟨c, rest, rfl, hcurr, rfl⟩ | ⟨-, -, rfl⟩ := hcases
  · -- the range before the freed one ends where it starts, and the next one starts where it ends
    have hgrow := hput.growBefore hprev (hpre p (by simp))
    have hlt := hpost c rest rfl
    have hb := hgrow.bound _ (List.mem_append_right _ List.mem_cons_self)
    dsimp only at hb
    have hmeet : (s.entry p).start + ((s.entry p).length + size) % 2 ^ 64 =
        (s.entry c).start := by omega
    have hrest : rest ≠ [] := by
      rintro rfl
      have hp := ha.bound (s.entry p) (by simp [State.ranges])
      have hle := hpre p (by simp)
      exact hsafe.2 (s.ranges front) (s.entry p) (s.entry c) (by simp [State.ranges])
        (by omega) (by omega)
    obtain ⟨ys, hlist, hranges⟩ := h.joinNext hrest
      { s.entry p with
        length := (((s.entry p).length + size) % 2 ^ 64 + (s.entry c).length) % 2 ^ 64 }
    refine ⟨ys, hlist, ?_⟩
    rw [hranges]
    exact hgrow.merge hmeet rfl rfl
  · refine ⟨front ++ [p] ++ post, h.setEntry p _, ?_⟩
    rw [List.append_assoc, List.singleton_append] at h ⊢
    rw [h.ranges_setEntry]
    exact hput.growBefore hprev (hpre p (by simp))
  · refine ⟨pre ++ c :: rest, h.setEntry c _, ?_⟩
    rw [h.ranges_setEntry]
    have hlt := hpost c rest rfl
    refine hput.merge ?_ rfl (by rw [add_comm])
    dsimp only
    omega
  · obtain ⟨hlist, hranges⟩ := h.insertNode hentry hnode hfree hne ⟨xtMemFree, addr, size⟩
    refine ⟨pre ++ newNode :: post, hlist, ?_⟩
    rw [hranges]
    exact hput

/-- A safe allocation hands out a range that nothing else uses. -/
theorem Listed.allocate {s s' : State} {xs : List ℕ} {out : List (ℕ × ℕ)} (h : Listed s xs)
    (ha : Apart (s.ranges xs) out) {fuel ptr size addr : ℕ}
    (hsafe : Safe (s.ranges xs) out (.allocate fuel ptr size))
    (hcall : xtAllocatePages fuel s ptr size = some (s', .ok addr)) :
    ∃ ys, Listed s' ys ∧ Apart (s'.ranges ys) ((addr, carvedSize size) :: out) := by
  obtain ⟨pre, i, post, rfl, hserves, rfl, hr⟩ | ⟨-, hr⟩ := h.allocate_cases hcall
  · cases hr
    refine h.take ha hserves.1 fun hlen => ?_
    by_contra hcon
    rw [not_or, not_not] at hcon
    obtain ⟨hpre, rfl⟩ := hcon
    exact hsafe (s.ranges pre) (s.entry i) (ranges_append s pre [i])
      (by simpa [State.ranges] using hpre) hserves hlen
  · cases hr

theorem Run.SafeStep.sound {g g' : Run} (hs : g.SafeStep g') (h : g.Sound) : g'.Sound := by
  obtain ⟨xs, hlist, hapart⟩ := h
  obtain ⟨c, xs', hlist', hsafe, hexec⟩ := hs
  obtain rfl := hlist.linked.unique hlist'.linked
  cases c with
  | allocate fuel ptr size =>
    simp only [Run.exec] at hexec
    split at hexec
    · cases hexec
    · rename_i s' out hcall
      cases hexec
      exact hlist.allocate hapart hsafe hcall
    · rename_i s' r hcall
      cases hexec
      obtain ⟨_, _, _, _, _, _, hr⟩ | ⟨rfl, -⟩ := hlist.allocate_cases hcall
      · cases hr
      · exact ⟨xs, hlist, hapart⟩
  | free fuel addr size newEntry newNode =>
    simp only [Run.exec, Option.ite_none_right_eq_some, Option.map_eq_some_iff] at hexec
    obtain ⟨⟨hmem, -, hentry, hnode, hfree, hne⟩, s', hcall, rfl⟩ := hexec
    exact hlist.free hapart hsafe hmem hentry hnode hfree hne hcall

/-- **Physical pages**: in every run of safe calls the list stays sorted and disjoint, no
    listed range overlaps an outstanding one, and outstanding ranges do not overlap. -/
theorem sound_of_reachable {g : Run} (h : Reachable Run.Initial Run.SafeStep g) : g.Sound :=
  h.invariant (fun _ hi => hi.1) (fun _ _ hi hs => hs.sound hi)

/-- With more fuel than there are nodes both functions return. -/
theorem Chain.returns {s : State} {xs : List ℕ} (h : Chain s xs) {fuel : ℕ}
    (hfuel : xs.length < fuel) (addr size newEntry newNode : ℕ) :
    (xtAllocatePages fuel s addr size).isSome ∧
      (xtFreePages fuel s addr size newEntry newNode).isSome := by
  have hfind : ∀ test, ∃ r, s.findNode fuel test = some r := fun test =>
    ⟨_, h.linked.scan_eq _ 0 hfuel⟩
  constructor
  · obtain ⟨r, hr⟩ := hfind fun e => e.start = addr ∧ carvedSize size ≤ e.length
    obtain ⟨r', hr'⟩ := hfind fun e => carvedSize size ≤ e.length
    simp only [xtAllocatePages, hr, hr', Option.bind_eq_bind, Option.bind_some]
    split_ifs <;> rfl
  · obtain ⟨r, hr⟩ := hfind fun e => addr < e.start
    simp only [xtFreePages, hr, Option.bind_eq_bind, Option.bind_some]
    split_ifs <;> rfl

/-- One free range of six pages at 1 MiB. -/
def sixPages : Run where
  state :=
    { list := ⟨fun _ => ⟨2, 0⟩, fun a => a = 1 ∨ a = 2⟩
      entries := fun _ => ⟨xtMemFree, 0x100000, 0x6000⟩
      memoryDescs := 1 }
  outstanding := []

theorem sixPages_listed : Listed sixPages.state [1] := by
  refine ⟨⟨rfl, by decide, rfl⟩, ?_, ?_, by simp, ?_⟩
  all_goals simp [sixPages, NodeHeap.data]

theorem sixPages_initial : sixPages.Initial := by
  refine ⟨⟨[1], sixPages_listed, ?_⟩, rfl⟩
  refine ⟨List.pairwise_singleton _ _, ?_, ?_, ?_, .nil⟩
  all_goals simp [sixPages, State.ranges, State.entry]

/-- Two pages are taken from six. -/
theorem sound_two_of_six_pages : ∃ g : Run, Reachable Run.Initial Run.SafeStep g ∧
    g.outstanding = [(0x100000, 0x2000)] ∧ g.Sound := by
  have h0 : Reachable Run.Initial Run.SafeStep sixPages := .start sixPages_initial
  have h1 := h0.next ⟨.allocate 2 0 0x2000, [1], sixPages_listed, by
    intro L e hes hne
    have hlen := congrArg List.length hes
    simp [State.ranges, hne] at hlen, rfl⟩
  exact ⟨_, h1, rfl, sound_of_reachable h1⟩

/-- Two allocations of two pages each and their frees leave a node in the list whose range
    is also part of the one before it, and the next two allocations overlap. -/
theorem overlap_after_join : ∃ g g' : Run,
    Reachable Run.Initial Run.Step g ∧
    Linked 0 g.state.list.next g.state.memoryDescs [4, 1] 0 ∧
    g.state.ranges [4, 1] =
      [⟨xtMemFree, 0x100000, 0x6000⟩, ⟨xtMemFree, 0x104000, 0x2000⟩] ∧
    Reachable Run.Initial Run.Step g' ∧
    g'.outstanding = [(0x104000, 0x2000), (0x100000, 0x6000)] := by
  have h0 : Reachable Run.Initial Run.Step sixPages := .start sixPages_initial
  have h1 := h0.next ⟨.allocate 4 0 0x2000, rfl⟩
  have h2 := h1.next ⟨.allocate 4 0 0x2000, rfl⟩
  have h3 := h2.next ⟨.free 4 0x100000 0x2000 3 4, rfl⟩
  have h4 := h3.next ⟨.free 4 0x102000 0x2000 5 6, rfl⟩
  have h5 := h4.next ⟨.allocate 4 0 0x6000, rfl⟩
  have h6 := h5.next ⟨.allocate 4 0 0x2000, rfl⟩
  exact ⟨_, _, h4, ⟨rfl, by decide, rfl, by decide, rfl⟩, rfl, h6, rfl⟩

end XTOS.PageAlloc

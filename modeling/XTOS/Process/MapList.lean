import XTOS.Lib.StableInsert
import XTOS.Process

/-!
# The list of virtual maps

`xtInsertVirtualMap` of `xtkernel/vm.c` on the nodes of the list `memoryMap` of a process. It walks
the list to the first entry that starts higher; then the new node becomes the head, is put behind
the node before, or is appended.

## Main definitions

- `Maps` — the nodes, the entries and the head of the list
- `MapRequest` — the arguments of a call and the blocks that the heap gives to it
- `xtInsertVirtualMap` — the modelled function; without enough fuel it gives `none`
- `Filled` — the lists that come from calls

## Main results

- `xtInsertVirtualMap_linked` — a call puts the node before the first one that starts higher
- `xtInsertVirtualMap_insertMap` — the list of entries, as the process model has it
- `filled_sorted` — the entries are those of the calls, sorted and each of them once
-/

namespace XTOS.MapList

open SysLib XTOS.LinkedList
open XTOS.Process (XTVirtualMap insertMap)

/-- The list nodes and the entries by address, and the head of the list of the process. -/
structure Maps where
  list : NodeHeap
  map : ℕ → XTVirtualMap
  memoryMap : ℕ

/-- The arguments of a call, and the blocks that the heap gives for the entry and its node. -/
structure MapRequest where
  virtualStart : ℕ
  physicalAddress : ℕ
  size : ℕ
  attr : ℕ
  entry : ℕ
  node : ℕ
  deriving DecidableEq, Repr

/-- The entry of a call, in a block. -/
def MapRequest.fill (r : MapRequest) (old : XTVirtualMap) : XTVirtualMap :=
  { old with
    attr := r.attr, size := r.size, physicalAddress := r.physicalAddress
    virtualStart := r.virtualStart }

/-- `xtInsertList`. -/
def xtInsertList (fuel : ℕ) (H : NodeHeap) (l next : ℕ) : Option NodeHeap :=
  if l = 0 ∨ next = 0 then some H
  else (xtGetLastList H fuel next).map fun last => (H.setNext last (H.next l)).setNext l next

/-- Where the entry of a node starts. -/
def Maps.start (s : Maps) (n : ℕ) : ℕ := (s.map (s.list.data n)).virtualStart

/-- The part of `xtInsertVirtualMap` behind the allocations. -/
def insertNode (fuel : ℕ) (s : Maps) (virtualStart newNode : ℕ) : Option Maps :=
  if s.memoryMap = 0 then some { s with memoryMap := newNode }
  else (scan 0 s.list.next (fun curr => s.start curr > virtualStart) fuel 0 s.memoryMap).bind
    fun (prev, curr) =>
      if curr = 0 then
        (xtAppendList fuel s.list s.memoryMap newNode).map fun H => { s with list := H }
      else if prev = 0 then
        some { s with list := (xtSetNextList s.list newNode s.memoryMap).1, memoryMap := newNode }
      else (xtInsertList fuel s.list prev newNode).map fun H => { s with list := H }

/-- `xtInsertVirtualMap`, with what the two calls of `xtHeapAlloc` return. -/
def xtInsertVirtualMap (fuel : ℕ) (s : Maps) (process virtualStart physicalAddress size attr : ℕ)
    (entry node : Option ℕ) : Option (Maps × XTResult) :=
  if process = 0 then some (s, .invalidParameter)
  else match entry with
    | none => some (s, .outOfMemory)
    | some mapEntry =>
      let map := { s.map mapEntry with attr, size, physicalAddress, virtualStart }
      let s := { s with map := Function.update s.map mapEntry map }
      match node with
      | none => some (s, .outOfMemory)
      | some newNode =>
        let s := { s with list := xtCreateList s.list mapEntry newNode }
        (insertNode fuel s virtualStart newNode).map fun s => (s, .success)

/-- A call for which the heap has memory. -/
def MapRequest.call (r : MapRequest) (fuel process : ℕ) (s : Maps) : Option (Maps × XTResult) :=
  xtInsertVirtualMap fuel s process r.virtualStart r.physicalAddress r.size r.attr (some r.entry)
    (some r.node)

/-- The blocks of a call are not those of other calls. -/
structure Fresh (reqs : List MapRequest) (r : MapRequest) : Prop where
  ne_null : r.node ≠ 0
  node : ∀ q ∈ reqs, r.node ≠ q.node
  entry : ∀ q ∈ reqs, r.entry ≠ q.entry

/-- The list of a process that began without entries, after some calls. In between, other code may
    change everything but the list and its entries. -/
inductive Filled (process : ℕ) : List MapRequest → Maps → Prop
  | empty {s : Maps} : s.memoryMap = 0 → Filled process [] s
  | insert {reqs : List MapRequest} {r : MapRequest} {s s' : Maps} {fuel : ℕ} :
      Filled process reqs s → Fresh reqs r → reqs.length < fuel →
      r.call fuel process s = some (s', .success) → Filled process (reqs ++ [r]) s'
  | other {reqs : List MapRequest} {s s' : Maps} : Filled process reqs s →
      s'.memoryMap = s.memoryMap → (∀ q ∈ reqs, s'.list.nodes q.node = s.list.nodes q.node) →
      (∀ q ∈ reqs, s'.map q.entry = s.map q.entry) → Filled process reqs s'

variable {fuel process : ℕ} {s s' : Maps} {r : MapRequest} {xs : List ℕ} {n : ℕ}

/-! ### One call -/

theorem xtInsertList_eq {H : NodeHeap} {l next : ℕ} (hl : l ≠ 0) (hn : next ≠ 0)
    (hnext : H.next next = 0) (hfuel : 0 < fuel) :
    xtInsertList fuel H l next = some ((H.setNext next (H.next l)).setNext l next) := by
  obtain ⟨fuel, rfl⟩ := Nat.exists_eq_add_one.mpr hfuel
  rw [xtInsertList, if_neg (by simp [hl, hn]), xtGetLastList, if_pos hnext]
  rfl

/-- The node `n` is put before the first one that starts higher. -/
theorem insertNode_linked (hlist : Linked 0 s.list.next s.memoryMap xs 0) (hn : n ≠ 0)
    (hnew : n ∉ xs) (hnext : s.list.next n = 0) (hfuel : xs.length < fuel) :
    ∃ s', insertNode fuel s (s.start n) n = some s' ∧ s'.map = s.map ∧
      s'.list.data = s.list.data ∧
      Linked 0 s'.list.next s'.memoryMap (insertBy s.start n xs) 0 := by
  rw [insertNode, insertBy_split]
  obtain hxs | hxs := eq_or_ne xs []
  · subst hxs
    have hnull : s.memoryMap = 0 := hlist
    rw [if_pos hnull]
    exact ⟨_, rfl, rfl, rfl, rfl, hn, hnext⟩
  have hmap : s.memoryMap ≠ 0 := by
    rw [hlist.head, List.headD_eq_head?_getD, List.head?_eq_some_head hxs]
    exact hlist.ne_null _ (List.head_mem hxs)
  have hscan := hlist.scan_eq (fun curr => s.start curr > s.start n) 0 hfuel
  rw [if_neg hmap, hscan, Option.bind_some]
  dsimp only [gt_iff_lt]
  generalize hpre : xs.takeWhile (fun b => !decide (s.start n < s.start b)) = pre
  generalize hpost : xs.dropWhile (fun b => !decide (s.start n < s.start b)) = post
  have hsplit : pre ++ post = xs := by
    rw [← hpre, ← hpost]
    exact List.takeWhile_append_dropWhile
  clear hscan hpre hpost
  subst hsplit
  cases post with
  | nil =>
    -- no entry starts higher
    rw [List.append_nil] at hlist hnew hfuel hxs
    obtain ⟨H, happ⟩ := xtAppendList_returns hlist hxs hn hfuel.le
    obtain ⟨hlinked, hdata, -, -⟩ := xtAppendList_linked hlist hxs hn hnew hnext happ
    rw [List.headD_nil, if_pos rfl, happ]
    exact ⟨_, rfl, rfl, hdata, hlinked⟩
  | cons d ds =>
    have hd : d ≠ 0 := hlist.ne_null d (by simp)
    rw [List.headD_cons, if_neg hd]
    obtain rfl | ⟨ps, p, rfl⟩ := List.eq_nil_or_concat pre
    · -- the first one does
      rw [List.nil_append] at hlist hnew ⊢
      obtain ⟨hhead, -⟩ := id hlist
      rw [List.getLastD_nil, if_pos rfl]
      refine ⟨_, rfl, rfl, xtSetNextList_data _ _ _, rfl, hn, ?_⟩
      dsimp only
      rw [xtSetNextList_next hn hmap, Function.update_self]
      exact hlist.congr fun x hx => Function.update_of_ne (ne_of_mem_of_not_mem hx hnew) _ _
    · -- one between them does
      rw [List.concat_eq_append] at hlist hnew ⊢
      have hp : p ≠ 0 := hlist.ne_null p (by simp)
      rw [List.getLastD_concat, if_neg hp,
        xtInsertList_eq hp hn hnext (Nat.zero_lt_of_lt hfuel)]
      refine ⟨_, rfl, rfl, by simp only [setNext_data], ?_⟩
      rw [List.append_assoc, List.singleton_append] at hlist hnew ⊢
      have hlink : s.list.next p = d := by
        obtain ⟨b, -, rfl, -, hrest⟩ := linked_append.mp hlist
        exact hrest.1
      have hkeep : ∀ x ∈ ps ++ p :: d :: ds,
          (s.list.setNext n (s.list.next p)).next x = s.list.next x := by
        intro x hx
        rw [setNext_next]
        exact Function.update_of_ne (ne_of_mem_of_not_mem hx hnew) _ _
      dsimp only
      rw [setNext_next]
      refine (hlist.congr hkeep).insert hn hnew ?_
      rw [setNext_next, Function.update_self, hlink]
      rfl

/-- A call for which the heap has memory puts the new node before the first one that starts
    higher. -/
theorem xtInsertVirtualMap_linked (hp : process ≠ 0)
    (hlist : Linked 0 s.list.next s.memoryMap xs 0) (hn : r.node ≠ 0) (hnew : r.node ∉ xs)
    (hfuel : xs.length < fuel) :
    ∃ s', r.call fuel process s = some (s', .success) ∧
      s'.map = Function.update s.map r.entry (r.fill (s.map r.entry)) ∧
      s'.list.data = Function.update s.list.data r.node r.entry ∧
      Linked 0 s'.list.next s'.memoryMap (insertBy s'.start r.node xs) 0 := by
  let s₁ : Maps :=
    { map := Function.update s.map r.entry (r.fill (s.map r.entry))
      list := xtCreateList s.list r.entry r.node
      memoryMap := s.memoryMap }
  have hdata : s₁.list.data = Function.update s.list.data r.node r.entry :=
    xtCreateList_data s.list r.entry r.node
  have hnext : s₁.list.next = Function.update s.list.next r.node 0 :=
    xtCreateList_next s.list r.entry r.node
  have hstart : s₁.start r.node = r.virtualStart := by
    rw [Maps.start, hdata, Function.update_self]
    change (Function.update s.map r.entry (r.fill (s.map r.entry)) r.entry).virtualStart = _
    rw [Function.update_self]
    rfl
  have hlist₁ : Linked 0 s₁.list.next s₁.memoryMap xs 0 := by
    rw [hnext]
    exact hlist.congr fun x hx => Function.update_of_ne (ne_of_mem_of_not_mem hx hnew) _ _
  have hend : s₁.list.next r.node = 0 := by
    rw [hnext, Function.update_self]
  obtain ⟨s', hs', hmap', hdata', hlinked⟩ := insertNode_linked hlist₁ hn hnew hend hfuel
  refine ⟨s', ?_, hmap', hdata'.trans hdata, ?_⟩
  · rw [hstart] at hs'
    rw [MapRequest.call, xtInsertVirtualMap, if_neg hp]
    exact congrArg (Option.map _) hs'
  · have hsame : s'.start = s₁.start := by
      funext x
      rw [Maps.start, Maps.start, hmap', hdata']
    rw [hsame]
    exact hlinked

/-! ### Runs -/

/-- The list has the entries of the calls, sorted. -/
structure Sorted (reqs : List MapRequest) (s : Maps) (sorted : List MapRequest) : Prop where
  stable : StableSort MapRequest.virtualStart reqs sorted
  linked : Linked 0 s.list.next s.memoryMap (sorted.map MapRequest.node) 0
  data : ∀ r ∈ reqs, s.list.data r.node = r.entry
  entry : ∀ r ∈ reqs, r.fill (s.map r.entry) = s.map r.entry

/-- A call keeps the list sorted. -/
theorem Sorted.insert {reqs sorted : List MapRequest} (h : Sorted reqs s sorted) (hp : process ≠ 0)
    (hfresh : Fresh reqs r) (hfuel : reqs.length < fuel) :
    ∃ s', r.call fuel process s = some (s', .success) ∧
      Sorted (reqs ++ [r]) s' (insertBy MapRequest.virtualStart r sorted) := by
  have hmem : ∀ q ∈ sorted, q ∈ reqs := fun q hq => h.stable.perm.mem_iff.mp hq
  have hnew : r.node ∉ sorted.map MapRequest.node := by
    intro hmap
    obtain ⟨q, hq, heq⟩ := List.mem_map.mp hmap
    exact hfresh.node q (hmem q hq) heq.symm
  have hlength : (sorted.map MapRequest.node).length < fuel := by
    rwa [List.length_map, h.stable.perm.length_eq]
  obtain ⟨s', hcall, hmap, hdata, hlinked⟩ :=
    xtInsertVirtualMap_linked hp h.linked hfresh.ne_null hnew hlength
  have hdata' : ∀ q ∈ reqs ++ [r], s'.list.data q.node = q.entry := by
    refine List.forall_mem_append.mpr ⟨fun q hq => ?_, List.forall_mem_singleton.mpr ?_⟩
    · rw [hdata, Function.update_of_ne (hfresh.node q hq).symm, h.data q hq]
    · rw [hdata, Function.update_self]
  have hentry : ∀ q ∈ reqs ++ [r], q.fill (s'.map q.entry) = s'.map q.entry := by
    refine List.forall_mem_append.mpr ⟨fun q hq => ?_, List.forall_mem_singleton.mpr ?_⟩
    · rw [hmap, Function.update_of_ne (hfresh.entry q hq).symm, h.entry q hq]
    · rw [hmap, Function.update_self]
      rfl
  have hstart : ∀ q ∈ reqs ++ [r], s'.start q.node = q.virtualStart := by
    intro q hq
    rw [Maps.start, hdata' q hq, ← hentry q hq]
    rfl
  refine ⟨s', hcall, h.stable.insert r, ?_, hdata', hentry⟩
  have hmapped := map_insertBy (hstart r (by simp)).symm fun q hq =>
    (hstart q (List.mem_append_left _ (hmem q hq))).symm
  exact hmapped ▸ hlinked

theorem Sorted.other {reqs sorted : List MapRequest} (h : Sorted reqs s sorted)
    (hhead : s'.memoryMap = s.memoryMap)
    (hnodes : ∀ q ∈ reqs, s'.list.nodes q.node = s.list.nodes q.node)
    (hmaps : ∀ q ∈ reqs, s'.map q.entry = s.map q.entry) : Sorted reqs s' sorted := by
  refine ⟨h.stable, ?_, fun q hq => ?_, fun q hq => ?_⟩
  · rw [hhead]
    refine h.linked.congr fun x hx => ?_
    obtain ⟨q, hq, rfl⟩ := List.mem_map.mp hx
    rw [NodeHeap.next, hnodes q (h.stable.perm.mem_iff.mp hq)]
    rfl
  · rw [NodeHeap.data, hnodes q hq]
    exact h.data q hq
  · rw [hmaps q hq]
    exact h.entry q hq

theorem Filled.sorted {reqs : List MapRequest} (h : Filled process reqs s) (hp : process ≠ 0) :
    ∃ sorted, Sorted reqs s sorted := by
  induction h with
  | empty hnull =>
    exact ⟨[], .nil, hnull, fun r hr => absurd hr List.not_mem_nil,
      fun r hr => absurd hr List.not_mem_nil⟩
  | @insert reqs r s s' fuel h hfresh hfuel hcall ih =>
    obtain ⟨sorted, hsorted⟩ := ih
    obtain ⟨s'', hcall', hsorted'⟩ := hsorted.insert hp hfresh hfuel
    rw [hcall] at hcall'
    obtain rfl : s' = s'' := congrArg Prod.fst (Option.some.inj hcall')
    exact ⟨_, hsorted'⟩
  | other h hhead hnodes hmaps ih =>
    obtain ⟨sorted, hsorted⟩ := ih
    exact ⟨sorted, hsorted.other hhead hnodes hmaps⟩

/-- **The list of maps**: it ends, its nodes are those of the calls and its entries are sorted, those
    that start at one address in the order of the calls. The next call returns. -/
theorem filled_sorted {reqs : List MapRequest} (h : Filled process reqs s) (hp : process ≠ 0) :
    (∃ sorted, StableSort MapRequest.virtualStart reqs sorted ∧
      Linked 0 s.list.next s.memoryMap (sorted.map MapRequest.node) 0 ∧
      ∀ r ∈ reqs, s.list.data r.node = r.entry ∧ r.fill (s.map r.entry) = s.map r.entry) ∧
    ∀ r, Fresh reqs r → ∀ fuel, reqs.length < fuel →
      ∃ s', r.call fuel process s = some (s', .success) := by
  obtain ⟨sorted, hsorted⟩ := h.sorted hp
  refine ⟨⟨sorted, hsorted.stable, hsorted.linked, fun r hr => ?_⟩, fun r hfresh fuel hfuel => ?_⟩
  · exact ⟨hsorted.data r hr, hsorted.entry r hr⟩
  · obtain ⟨s', hcall, -⟩ := hsorted.insert hp hfresh hfuel
    exact ⟨s', hcall⟩

/-- An empty list. -/
def noMaps : Maps where
  list := ⟨fun _ => ⟨0, 0⟩, fun _ => false⟩
  map _ := ⟨0, 0, 0, 0, 0, 0⟩
  memoryMap := 0

/-- Three calls, the second one for a lower address and the third one for that of the first. -/
def threeMaps : List MapRequest :=
  [⟨0x2000, 0, 0x1000, 7, 100, 10⟩, ⟨0x1000, 0, 0x1000, 7, 200, 20⟩, ⟨0x2000, 0, 0x1000, 7, 300, 30⟩]

theorem filled_sorted_three : ∃ s, Filled 1 threeMaps s ∧ ∃ sorted,
    StableSort MapRequest.virtualStart threeMaps sorted ∧
      Linked 0 s.list.next s.memoryMap (sorted.map MapRequest.node) 0 := by
  have h0 : Filled 1 [] noMaps := .empty rfl
  obtain ⟨s1, h1⟩ := (filled_sorted h0 one_ne_zero).2 ⟨0x2000, 0, 0x1000, 7, 100, 10⟩
    ⟨by decide, by decide, by decide⟩ 4 (by decide)
  have h1' := h0.insert ⟨by decide, by decide, by decide⟩ (by decide) h1
  obtain ⟨s2, h2⟩ := (filled_sorted h1' one_ne_zero).2 ⟨0x1000, 0, 0x1000, 7, 200, 20⟩
    ⟨by decide, by decide, by decide⟩ 4 (by decide)
  have h2' := h1'.insert ⟨by decide, by decide, by decide⟩ (by decide) h2
  obtain ⟨s3, h3⟩ := (filled_sorted h2' one_ne_zero).2 ⟨0x2000, 0, 0x1000, 7, 300, 30⟩
    ⟨by decide, by decide, by decide⟩ 4 (by decide)
  have h3' := h2'.insert ⟨by decide, by decide, by decide⟩ (by decide) h3
  obtain ⟨sorted, hstable, hlinked, -⟩ := (filled_sorted h3' one_ne_zero).1
  exact ⟨s3, h3', sorted, hstable, hlinked⟩

/-! ### The list of entries -/

theorem insertMap_eq (m : XTVirtualMap) (es : List XTVirtualMap) :
    insertMap m es = insertBy XTVirtualMap.virtualStart m es := by
  induction es with
  | nil => rfl
  | cons e es ih =>
    rw [insertMap, insertBy, List.orderedInsert_cons, ih]
    rfl

/-- A call does to the list of entries what the model of the processes says. -/
theorem xtInsertVirtualMap_insertMap (hp : process ≠ 0)
    (hlist : Linked 0 s.list.next s.memoryMap xs 0) (hn : r.node ≠ 0) (hnew : r.node ∉ xs)
    (hentry : r.entry ∉ xs.map s.list.data) (hfuel : xs.length < fuel) :
    ∃ s' xs', r.call fuel process s = some (s', .success) ∧
      Linked 0 s'.list.next s'.memoryMap xs' 0 ∧
      xs'.map (fun n => s'.map (s'.list.data n)) =
        insertMap (r.fill (s.map r.entry)) (xs.map fun n => s.map (s.list.data n)) := by
  obtain ⟨s', hcall, hmap, hdata, hlinked⟩ := xtInsertVirtualMap_linked hp hlist hn hnew hfuel
  refine ⟨s', _, hcall, hlinked, ?_⟩
  have hnewEntry : s'.map (s'.list.data r.node) = r.fill (s.map r.entry) := by
    rw [hmap, hdata, Function.update_self, Function.update_self]
  have hkeep : xs.map (fun n => s'.map (s'.list.data n)) =
      xs.map fun n => s.map (s.list.data n) := by
    refine List.map_congr_left fun n hxn => ?_
    have hne : s.list.data n ≠ r.entry :=
      ne_of_mem_of_not_mem (List.mem_map_of_mem hxn) hentry
    rw [hmap, hdata, Function.update_of_ne (ne_of_mem_of_not_mem hxn hnew),
      Function.update_of_ne hne]
  rw [insertMap_eq, ← hnewEntry, ← hkeep]
  exact map_insertBy rfl fun _ _ => rfl

end XTOS.MapList

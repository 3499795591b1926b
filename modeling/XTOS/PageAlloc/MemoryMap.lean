import XTOS.Lib.Spans
import XTOS.PageAlloc

/-!
# The memory map at boot

`xtUEFITypeToXT` and `xtMemoryInit` of `xtkernel/memory.c`: the loop over the descriptors that
the firmware left, which makes the list `memoryDescs` of ranges.

## Main definitions

- `EfiMemoryDescriptor`, `KernelBootInfo` — the map as it lies in memory
- `xtUEFITypeToXT` — the attributes of a type of memory
- `addRange` — one range more in a list of ranges
- `xtMemoryInit` — the modelled function

## Main results

- `xtMemoryInit_ranges` — the loop ends, and the list has the ranges of the descriptors that are
  not skipped
- `xtMemoryInit_canonical` — for a sorted map and a heap with enough blocks the list is its
  run-length form

## Design notes

A descriptor is read at an address, so any distance between descriptors is possible. The heap is
a function from the blocks in use to a block; only its success and that the block is new matter.
A descriptor takes two blocks at most.
-/

namespace XTOS.PageAlloc

open SysLib LinkedList

/-! ### Types of memory -/

/-- `XT_MEM_UNKNOWN`. -/
def xtMemUnknown : ℕ := 0

/-- `XT_MEM_RESERVED`. -/
def xtMemReserved : ℕ := 2

/-- `XT_MEM_ACPI`. -/
def xtMemAcpi : ℕ := 3

/-- `XT_MEM_NVS`. -/
def xtMemNvs : ℕ := 4

/-- `XT_MEM_UNUSABLE`. -/
def xtMemUnusable : ℕ := 5

/-- `XT_MEM_MMIO`. -/
def xtMemMmio : ℕ := 6

/-- `xtUEFITypeToXT`; the numbers are the positions of the names in `MemoryTypeStr`. -/
def xtUEFITypeToXT (type : ℕ) : ℕ :=
  match type with
  | 0    -- EfiReservedMemoryType
  | 5    -- EfiRuntimeServicesCode
  | 6    -- EfiRuntimeServicesData
  | 13   -- EfiPalCode
    => xtMemReserved
  | 7    -- EfiConventionalMemory
  | 3    -- EfiBootServicesCode
  | 4    -- EfiBootServicesData
  | 1    -- EfiLoaderCode
  | 2    -- EfiLoaderData
    => xtMemFree
  | 15   -- EfiUnacceptedMemoryType
  | 8    -- EfiUnusableMemory
    => xtMemUnusable
  | 10   -- EfiACPIMemoryNVS
    => xtMemNvs
  | 9    -- EfiACPIReclaimMemory
    => xtMemAcpi
  | 11   -- EfiMemoryMappedIO
  | 12   -- EfiMemoryMappedIOPortSpace
    => xtMemMmio
  | _ => xtMemUnknown

/-- `EFI_MEMORY_DESCRIPTOR`, the fields that are read. -/
structure EfiMemoryDescriptor where
  type : ℕ
  physicalStart : ℕ
  numberOfPages : ℕ
  deriving DecidableEq, Repr

/-- `KernelBootInfo`: the address of the map, its size, the distance of its descriptors, and the
    descriptor that is read at an address. -/
structure KernelBootInfo where
  descs : ℕ
  memoryMapSize : ℕ
  descSize : ℕ
  descAt : ℕ → EfiMemoryDescriptor

/-- The entry that is made for a descriptor. -/
def EfiMemoryDescriptor.mapEntry (d : EfiMemoryDescriptor) : XTMemoryMapEntry :=
  ⟨xtUEFITypeToXT d.type, d.physicalStart, d.numberOfPages * 4096 % 2 ^ 64⟩

/-! ### The loop -/

/-- How a call ends: with a result, or by writing through the null pointer that a failed
    allocation left. -/
inductive Outcome where
  | returned (s : State) (result : XTResult)
  | nullEntry (s : State)

/-- The state with a new entry in a block. -/
def State.allocEntry (s : State) (block : ℕ) (e : XTMemoryMapEntry) : State :=
  { s with
    entries := Function.update s.entries block e
    list := { s.list with used := Function.update s.list.used block true } }

/-- The state without the entry in a block. -/
def State.freeEntry (s : State) (block : ℕ) : State :=
  { s with list := { s.list with used := Function.update s.list.used block false } }

/-- The body of the loop for an entry: `lastEntry` grows over it, or it is appended. The second
    value is `last_entry` afterwards. -/
def addEntry (xtHeapAlloc : (ℕ → Bool) → Option ℕ) (bound : ℕ) (s : State) (lastEntry : ℕ)
    (e : XTMemoryMapEntry) : Option (Outcome × ℕ) :=
  match xtHeapAlloc s.list.used with
  | none => some (.nullEntry s, lastEntry)
  | some mapEntry =>
    let s := s.allocEntry mapEntry e
    let l := s.entries lastEntry
    if lastEntry ≠ 0 ∧ l.attributes = e.attributes ∧ (l.start + l.length) % 2 ^ 64 = e.start then
      let l := { l with length := (l.length + e.length) % 2 ^ 64 }
      let s := { s with entries := Function.update s.entries lastEntry l }
      some (.returned (s.freeEntry mapEntry) .success, lastEntry)
    else
      match xtHeapAlloc s.list.used with
      | none => some (.returned s .outOfMemory, lastEntry)
      | some newNode =>
        let list := xtCreateList s.list mapEntry newNode
        if s.memoryDescs = 0 then
          some (.returned { s with list := list, memoryDescs := newNode } .success, mapEntry)
        else (xtAppendList bound list s.memoryDescs newNode).map fun list =>
          (.returned { s with list := list } .success, mapEntry)

/-- The loop of `xtMemoryInit` from the descriptor at `desc` on; `bound` is the fuel for the walks
    to the last node. -/
def memoryInitLoop (xtHeapAlloc : (ℕ → Bool) → Option ℕ) (boot : KernelBootInfo) (bound : ℕ) :
    ℕ → State → ℕ → ℕ → Option Outcome
  | 0, _, _, _ => none
  | fuel + 1, s, lastEntry, desc =>
    if desc < (boot.descs + boot.memoryMapSize) % 2 ^ 64 then
      let d := boot.descAt desc
      let next := (desc + boot.descSize) % 2 ^ 64
      if d.physicalStart < 0x100000 then
        memoryInitLoop xtHeapAlloc boot bound fuel s lastEntry next
      else do
        let (out, lastEntry) ← addEntry xtHeapAlloc bound s lastEntry d.mapEntry
        match out with
        | .returned s .success => memoryInitLoop xtHeapAlloc boot bound fuel s lastEntry next
        | out => return out
    else some (.returned s .success)

/-- `xtMemoryInit`, after `xtHeapInit`. -/
def xtMemoryInit (xtHeapAlloc : (ℕ → Bool) → Option ℕ) (boot : KernelBootInfo) (fuel : ℕ)
    (s : State) : Option Outcome :=
  memoryInitLoop xtHeapAlloc boot fuel fuel { s with memoryDescs := 0 } 0 boot.descs

/-- The heap returns blocks that are not null and not in use. -/
def Fresh (xtHeapAlloc : (ℕ → Bool) → Option ℕ) : Prop :=
  ∀ used b, xtHeapAlloc used = some b → b ≠ 0 ∧ used b = false

/-- Other blocks are in use than before for `n` blocks at most. -/
def Within (n : ℕ) (used used' : ℕ → Bool) : Prop :=
  ∃ blocks : List ℕ, blocks.length ≤ n ∧ ∀ b, b ∉ blocks → used' b = used b

/-- Allocations succeed as long as at most `n` blocks more are in use. -/
def HasBlocks (xtHeapAlloc : (ℕ → Bool) → Option ℕ) (used : ℕ → Bool) (n : ℕ) : Prop :=
  ∀ used', Within n used used' → ∃ b, xtHeapAlloc used' = some b

/-- One range more at the end of a list, joined with the last one if that has the same
    attributes and ends where it starts. -/
def addRange (es : List XTMemoryMapEntry) (e : XTMemoryMapEntry) : List XTMemoryMapEntry :=
  match es.getLast? with
  | some l =>
    if l.attributes = e.attributes ∧ (l.start + l.length) % 2 ^ 64 = e.start then
      es.dropLast ++ [{ l with length := (l.length + e.length) % 2 ^ 64 }]
    else es ++ [e]
  | none => [e]

/-- The descriptors that are not skipped. -/
def kept (ds : List EfiMemoryDescriptor) : List EfiMemoryDescriptor :=
  ds.filter fun d => 0x100000 ≤ d.physicalStart

/-- The ranges of the descriptors that are not skipped. -/
def rangesOf (ds : List EfiMemoryDescriptor) : List XTMemoryMapEntry :=
  ((kept ds).map EfiMemoryDescriptor.mapEntry).foldl addRange []

/-- The descriptors of the map are `ds`. -/
structure KernelBootInfo.Holds (boot : KernelBootInfo) (ds : List EfiMemoryDescriptor) :
    Prop where
  desc : ∀ i d, ds[i]? = some d → boot.descAt (boot.descs + i * boot.descSize) = d
  count : ∀ i, i * boot.descSize < boot.memoryMapSize ↔ i < ds.length
  fits : boot.descs + boot.memoryMapSize < 2 ^ 64 ∧
    boot.descs + ds.length * boot.descSize < 2 ^ 64

/-- An entry as a span of bytes with its attributes. -/
def XTMemoryMapEntry.span (e : XTMemoryMapEntry) : Span ℕ := ⟨e.attributes, e.start, e.length⟩

/-- The bytes of a descriptor with the attributes of its type. -/
def EfiMemoryDescriptor.span (d : EfiMemoryDescriptor) : Span ℕ :=
  ⟨xtUEFITypeToXT d.type, d.physicalStart, d.numberOfPages * 4096⟩

/-- Descriptors in the order of their addresses that do not overlap and do not wrap around. -/
structure InOrder (ds : List EfiMemoryDescriptor) : Prop where
  ordered : Ordered (ds.map EfiMemoryDescriptor.span)
  bound : ∀ d ∈ ds, d.physicalStart < 2 ^ 64 ∧ d.physicalStart + d.numberOfPages * 4096 ≤ 2 ^ 64

/-- `last_entry` is null or the entry of the last node. -/
def IsLast (s : State) (xs : List ℕ) (lastEntry : ℕ) : Prop :=
  xs = [] ∧ lastEntry = 0 ∨
    ∃ front x, xs = front ++ [x] ∧ lastEntry = s.list.data x ∧ lastEntry ≠ 0

/-! ### Blocks in use -/

section within

variable {used used' used'' : ℕ → Bool} {n k b : ℕ}

theorem Within.refl (used : ℕ → Bool) : Within 0 used used := ⟨[], le_rfl, fun _ _ => rfl⟩

theorem Within.mono (h : Within n used used') (hle : n ≤ k) : Within k used used' := by
  obtain ⟨blocks, hlen, hsame⟩ := h
  exact ⟨blocks, hlen.trans hle, hsame⟩

theorem Within.trans (h : Within n used used') (h' : Within k used' used'') :
    Within (n + k) used used'' := by
  obtain ⟨blocks, hlen, hsame⟩ := h
  obtain ⟨blocks', hlen', hsame'⟩ := h'
  refine ⟨blocks ++ blocks', by rw [List.length_append]; omega, fun b hb => ?_⟩
  rw [List.mem_append, not_or] at hb
  rw [hsame' b hb.2, hsame b hb.1]

theorem Within.update (used : ℕ → Bool) (b : ℕ) (v : Bool) :
    Within 1 used (Function.update used b v) := by
  refine ⟨[b], le_rfl, fun c hc => Function.update_of_ne ?_ _ _⟩
  rintro rfl
  exact hc List.mem_cons_self

end within

/-! ### One descriptor -/

section addEntry

variable {xtHeapAlloc : (ℕ → Bool) → Option ℕ} {s : State} {xs : List ℕ} {bound lastEntry b : ℕ}
  {e : XTMemoryMapEntry}

theorem addRange_concat (es : List XTMemoryMapEntry) (l e : XTMemoryMapEntry) :
    addRange (es ++ [l]) e =
      if l.attributes = e.attributes ∧ (l.start + l.length) % 2 ^ 64 = e.start then
        es ++ [{ l with length := (l.length + e.length) % 2 ^ 64 }]
      else es ++ [l, e] := by
  simp [addRange]

theorem allocEntry_memoryDescs (s : State) (b : ℕ) (e : XTMemoryMapEntry) :
    (s.allocEntry b e).memoryDescs = s.memoryDescs := rfl

theorem Listed.ne_unused (h : Listed s xs) (hb : s.list.used b = false) :
    ∀ x ∈ xs, x ≠ b ∧ s.list.data x ≠ b := by
  intro x hx
  constructor
  · rintro rfl
    rw [h.nodes_used x hx] at hb
    cases hb
  · intro heq
    rw [← heq, h.data_used x hx] at hb
    cases hb

/-- An entry in a block that was not in use changes no range. -/
theorem Listed.allocEntry (h : Listed s xs) (hb : s.list.used b = false)
    (e : XTMemoryMapEntry) :
    Listed (s.allocEntry b e) xs ∧ (s.allocEntry b e).ranges xs = s.ranges xs := by
  have hne := h.ne_unused hb
  refine ⟨h.sublist (List.Sublist.refl xs) h.linked rfl fun x hx => ⟨?_, ?_⟩, ?_⟩
  · exact Function.update_of_ne (hne x hx).1 _ _
  · exact Function.update_of_ne (hne x hx).2 _ _
  · exact List.map_congr_left fun x hx => Function.update_of_ne (hne x hx).2 _ _

/-- Giving back the block of an entry that no node has. -/
theorem Listed.freeEntry (h : Listed s xs) (hb : ∀ x ∈ xs, x ≠ b ∧ s.list.data x ≠ b) :
    Listed (s.freeEntry b) xs ∧ (s.freeEntry b).ranges xs = s.ranges xs :=
  ⟨h.sublist (List.Sublist.refl xs) h.linked rfl fun x hx =>
    ⟨Function.update_of_ne (hb x hx).1 _ _, Function.update_of_ne (hb x hx).2 _ _⟩, rfl⟩

/-- A new node at the end of the list. -/
theorem Listed.append {n : ℕ} {s' : State} (h : Listed s xs) (hb : s.list.used b = false)
    (hn : s.list.used n = false) (hne : n ≠ b)
    (hlinked : Linked 0 s'.list.next s'.memoryDescs (xs ++ [n]) 0)
    (hdata : s'.list.data = Function.update s.list.data n b)
    (hused : s'.list.used = Function.update (Function.update s.list.used b true) n true)
    (hentries : s'.entries = Function.update s.entries b e) :
    Listed s' (xs ++ [n]) ∧ s'.ranges (xs ++ [n]) = s.ranges xs ++ [e] := by
  rw [← List.append_nil xs] at h
  refine ⟨h.cons hlinked hb hn hne hdata hused, ?_⟩
  rw [List.append_nil] at h
  rw [ranges_append]
  refine congrArg₂ _ (List.map_congr_left fun x hx => ?_) ?_
  · rw [State.entry, State.entry, hdata, hentries,
      Function.update_of_ne (h.ne_unused hn x hx).1,
      Function.update_of_ne (h.ne_unused hb x hx).2]
  · rw [ranges_cons, State.entry, hdata, hentries, Function.update_self, Function.update_self]
    rfl

theorem ranges_concat (s : State) (front : List ℕ) (x : ℕ) :
    s.ranges (front ++ [x]) = s.ranges front ++ [s.entry x] := ranges_append s front [x]

/-- The node for a new entry becomes the first one, or it is appended to the last one. -/
theorem Listed.appendNode {n : ℕ} (h : Listed s xs) (hb : s.list.used b = false)
    (hn : s.list.used n = false) (hne : n ≠ b) (hnz : n ≠ 0) (hbound : xs.length < bound)
    (e : XTMemoryMapEntry) :
    ∃ s', (if s.memoryDescs = 0 then
          some { s.allocEntry b e with
            list := xtCreateList (s.allocEntry b e).list b n, memoryDescs := n }
        else (xtAppendList bound (xtCreateList (s.allocEntry b e).list b n) s.memoryDescs n).map
          fun list => { s.allocEntry b e with list := list }) = some s' ∧
      Listed s' (xs ++ [n]) ∧ s'.ranges (xs ++ [n]) = s.ranges xs ++ [e] ∧
      s'.list.data n = b ∧
      s'.list.used = Function.update (Function.update s.list.used b true) n true := by
  have hnx : n ∉ xs := fun hm => (h.ne_unused hn n hm).1 rfl
  have hnext : (xtCreateList (s.allocEntry b e).list b n).next =
      Function.update s.list.next n 0 := xtCreateList_next _ _ _
  have hdata : (xtCreateList (s.allocEntry b e).list b n).data =
      Function.update s.list.data n b := xtCreateList_data _ _ _
  split
  · rename_i hempty
    have hxs : xs = [] := by
      have hlinked := h.linked
      rw [hempty] at hlinked
      exact hlinked.unique rfl
    subst hxs
    have happ := @Listed.append s [] b e n { s.allocEntry b e with
      list := xtCreateList (s.allocEntry b e).list b n, memoryDescs := n } h hb hn hne
    obtain ⟨hlist, hranges⟩ :=
      happ ⟨rfl, hnz, by rw [hnext, Function.update_self]; rfl⟩ hdata rfl rfl
    exact ⟨_, rfl, hlist, hranges, by rw [hdata, Function.update_self], rfl⟩
  · rename_i hstart
    have hold : Linked 0 (xtCreateList (s.allocEntry b e).list b n).next s.memoryDescs xs 0 := by
      refine h.linked.congr fun x hx => ?_
      rw [hnext, Function.update_of_ne]
      rintro rfl
      exact hnx hx
    have hxs : xs ≠ [] := by
      rintro rfl
      exact hstart h.linked
    obtain ⟨front, y, rfl⟩ := (List.eq_nil_or_concat' xs).resolve_left hxs
    rw [List.length_append, List.length_singleton] at hbound
    have hsome := xtGetLastList_eq hold (show front.length < bound by omega)
    have happ : xtAppendList bound (xtCreateList (s.allocEntry b e).list b n) s.memoryDescs n =
        some ((xtCreateList (s.allocEntry b e).list b n).setNext y n) := by
      rw [xtAppendList, if_neg (by simp [hstart, hnz]), hsome, Option.map_some]
    rw [happ, Option.map_some]
    obtain ⟨hlinked, hdata', hused', -⟩ := xtAppendList_linked hold hxs hnz hnx
      (by rw [hnext, Function.update_self]) happ
    have hnew := @Listed.append s (front ++ [y]) b e n { s.allocEntry b e with
      list := (xtCreateList (s.allocEntry b e).list b n).setNext y n } h hb hn hne
    obtain ⟨hlist, hranges⟩ := hnew hlinked (hdata'.trans hdata) hused' rfl
    exact ⟨_, rfl, hlist, hranges, by rw [hdata', hdata, Function.update_self], hused'⟩

/-- What the body of the loop does with an entry, and that it ends. -/
theorem Listed.addEntry (hfresh : Fresh xtHeapAlloc) (h : Listed s xs)
    (hlast : IsLast s xs lastEntry) (hbound : xs.length < bound) :
    ∃ out lastEntry', addEntry xtHeapAlloc bound s lastEntry e = some (out, lastEntry') ∧
      (out = .nullEntry s ∧ xtHeapAlloc s.list.used = none ∨
        (∃ s', out = .returned s' .outOfMemory ∧ xtHeapAlloc s'.list.used = none ∧
          Within 1 s.list.used s'.list.used ∧ Listed s' xs ∧ s'.ranges xs = s.ranges xs) ∨
        ∃ s' ys, out = .returned s' .success ∧ Within 2 s.list.used s'.list.used ∧
          Listed s' ys ∧ IsLast s' ys lastEntry' ∧
          s'.ranges ys = addRange (s.ranges xs) e ∧ ys.length ≤ xs.length + 1) := by
  rw [PageAlloc.addEntry]
  cases hb : xtHeapAlloc s.list.used with
  | none => exact ⟨_, _, rfl, .inl ⟨rfl, rfl⟩⟩
  | some b =>
    obtain ⟨hbz, hbu⟩ := hfresh _ _ hb
    obtain ⟨hlist, hranges⟩ := h.allocEntry hbu e
    have hne := h.ne_unused hbu
    have hentry : ∀ front x, xs = front ++ [x] → lastEntry = s.list.data x →
        (s.allocEntry b e).entries lastEntry = s.entry x := by
      rintro front x rfl rfl
      exact Function.update_of_ne (hne x (by simp)).2 _ _
    dsimp only
    split
    · -- the last range grows, and the new entry is given back
      rename_i hjoin
      obtain ⟨-, hzero⟩ | ⟨front, x, rfl, hdata, -⟩ := hlast
      · exact absurd hzero hjoin.1
      rw [hentry front x rfl hdata] at hjoin ⊢
      obtain ⟨hlist', hranges'⟩ := (hlist.setEntry x
        { s.entry x with length := ((s.entry x).length + e.length) % 2 ^ 64 }).freeEntry hne
      refine ⟨_, _, rfl, .inr (.inr ⟨_, front ++ [x], ?_, ?_, hlist', ?_, ?_, by simp⟩)⟩
      · rw [hdata]
        rfl
      · exact (Within.update s.list.used b true).trans (Within.update _ b false)
      · exact .inr ⟨front, x, rfl, hdata, hjoin.1⟩
      · rw [ranges_concat, ranges_concat] at hranges
        rw [hranges', hlist.ranges_setEntry, ranges_concat, addRange_concat, if_pos hjoin.2,
          (List.append_inj' hranges rfl).1]
        rfl
    · rename_i hjoin
      have hadd : addRange (s.ranges xs) e = s.ranges xs ++ [e] := by
        obtain ⟨rfl, -⟩ | ⟨front, x, rfl, hdata, hz⟩ := hlast
        · rfl
        rw [hentry front x rfl hdata] at hjoin
        rw [ranges_concat, addRange_concat, if_neg fun hcon => hjoin ⟨hz, hcon⟩]
        simp
      cases hn : xtHeapAlloc (s.allocEntry b e).list.used with
      | none =>
        exact ⟨_, _, rfl, .inr (.inl ⟨_, rfl, hn, Within.update s.list.used b true, hlist, hranges⟩)⟩
      | some n =>
        obtain ⟨hnz, hnu⟩ := hfresh _ _ hn
        have hnb : n ≠ b := by
          rintro rfl
          simp [State.allocEntry] at hnu
        have hnu' : s.list.used n = false := by
          simpa [State.allocEntry, Function.update_of_ne hnb] using hnu
        obtain ⟨s', hs', hlist', hranges', hdata', hused'⟩ :=
          h.appendNode hbu hnu' hnb hnz hbound e
        refine ⟨.returned s' .success, b, ?_,
          .inr (.inr ⟨s', xs ++ [n], rfl, ?_, hlist', ?_, ?_, ?_⟩)⟩
        · dsimp only
          rw [allocEntry_memoryDescs]
          split at hs'
          · rename_i hempty
            rw [if_pos hempty, ← Option.some.inj hs']
          · rename_i hstart
            obtain ⟨list, hlist, rfl⟩ := Option.map_eq_some_iff.mp hs'
            rw [if_neg hstart, hlist]
            rfl
        · rw [hused']
          exact (Within.update s.list.used b true).trans (Within.update _ n true)
        · exact .inr ⟨xs, n, rfl, hdata'.symm, hbz⟩
        · rw [hranges', hadd]
        · simp

end addEntry

/-! ### The whole map -/

section map

variable {xtHeapAlloc : (ℕ → Bool) → Option ℕ} {boot : KernelBootInfo} {bound fuel : ℕ}
  {s : State} {out : Outcome} {ds : List EfiMemoryDescriptor}

theorem rangesOf_concat (pre : List EfiMemoryDescriptor) (d : EfiMemoryDescriptor) :
    rangesOf (pre ++ [d]) =
      if d.physicalStart < 0x100000 then rangesOf pre
      else addRange (rangesOf pre) d.mapEntry := by
  rw [rangesOf, rangesOf, kept, kept, List.filter_append, List.filter_singleton]
  split_ifs with hlow
  · rw [decide_eq_false (by omega), cond_false, List.append_nil]
  · rw [decide_eq_true (by omega), cond_true, List.map_append, List.foldl_append]
    rfl

/-- How the loop may end: a failed allocation before the end of the map, when `used` were the
    blocks in use at first, or a list of all ranges. -/
def Ends (xtHeapAlloc : (ℕ → Bool) → Option ℕ) (used : ℕ → Bool) (ds : List EfiMemoryDescriptor)
    (out : Outcome) : Prop :=
  (∃ s', out = .nullEntry s' ∧ xtHeapAlloc s'.list.used = none ∧
      Within (2 * ds.length) used s'.list.used) ∨
    (∃ s' xs pre, out = .returned s' .outOfMemory ∧ (xtHeapAlloc s'.list.used = none ∧
      Within (2 * ds.length) used s'.list.used) ∧
      Listed s' xs ∧ pre <+: ds ∧ s'.ranges xs = rangesOf pre) ∨
    ∃ s' xs, out = .returned s' .success ∧ Listed s' xs ∧ s'.ranges xs = rangesOf ds

/-- **The loop** ends, and the list has the ranges of all descriptors that are not skipped. -/
theorem memoryInitLoop_ends (hfresh : Fresh xtHeapAlloc) (hmap : boot.Holds ds)
    (hbound : ds.length < bound) {pre rest : List EfiMemoryDescriptor} (hds : ds = pre ++ rest)
    (hfuel : rest.length < fuel) {xs : List ℕ} {lastEntry : ℕ} (h : Listed s xs)
    (hlast : IsLast s xs lastEntry) (hranges : s.ranges xs = rangesOf pre)
    (hlen : xs.length ≤ pre.length) {used : ℕ → Bool}
    (hused : Within (2 * pre.length) used s.list.used) :
    ∃ out, memoryInitLoop xtHeapAlloc boot bound fuel s lastEntry
        (boot.descs + pre.length * boot.descSize) = some out ∧
      Ends xtHeapAlloc used ds out := by
  induction rest generalizing pre fuel s xs lastEntry with
  | nil =>
    obtain ⟨fuel, rfl⟩ : ∃ n, fuel = n + 1 := Nat.exists_eq_add_one.mpr hfuel
    rw [List.append_nil] at hds
    subst hds
    have hend : ¬ ds.length * boot.descSize < boot.memoryMapSize := by
      rw [hmap.count]
      exact lt_irrefl _
    rw [memoryInitLoop, Nat.mod_eq_of_lt hmap.fits.1, if_neg (by omega)]
    exact ⟨_, rfl, .inr (.inr ⟨s, xs, rfl, h, hranges⟩)⟩
  | cons d rest ih =>
    rw [List.length_cons] at hfuel
    obtain ⟨fuel, rfl⟩ : ∃ n, fuel = n + 1 := Nat.exists_eq_add_one.mpr (by omega)
    have hsize : pre.length + 1 ≤ ds.length := by
      rw [hds, List.length_append, List.length_cons]
      omega
    have hin := (hmap.count pre.length).mpr (by omega)
    have hd := hmap.desc pre.length d (by rw [hds]; simp)
    have hnext : (boot.descs + pre.length * boot.descSize + boot.descSize) % 2 ^ 64 =
        boot.descs + (pre ++ [d]).length * boot.descSize := by
      have hle := Nat.mul_le_mul_right boot.descSize hsize
      have hfits := hmap.fits.2
      rw [List.length_append, List.length_singleton, Nat.add_mul, Nat.one_mul] at *
      rw [Nat.mod_eq_of_lt (by omega)]
      omega
    have hds' : ds = (pre ++ [d]) ++ rest := by rw [hds, List.append_assoc]; rfl
    have hcat := rangesOf_concat pre d
    rw [memoryInitLoop, Nat.mod_eq_of_lt hmap.fits.1, if_pos (by omega), hd]
    dsimp only
    rw [hnext]
    split
    · -- a descriptor of low memory is skipped, and `last_entry` stays
      rename_i hlow
      rw [if_pos hlow] at hcat
      exact ih hds' (by omega) h hlast (by rw [hranges, hcat]) (by simp; omega)
        (hused.mono (by simp))
    · rename_i hlow
      rw [if_neg hlow] at hcat
      obtain ⟨out, lastEntry', hadd, hcases⟩ :=
        h.addEntry (e := d.mapEntry) hfresh hlast (show xs.length < bound by omega)
      rw [hadd, Option.bind_eq_bind, Option.bind_some]
      obtain ⟨rfl, hnone⟩ | ⟨s', rfl, hnone, hmore, h', hranges'⟩ |
        ⟨s', ys, rfl, hmore, h', hlast', hr, hle⟩ := hcases
      · exact ⟨_, rfl, .inl ⟨s, rfl, hnone, hused.mono (by omega)⟩⟩
      · refine ⟨_, rfl, .inr (.inl ⟨s', xs, pre, rfl, ⟨hnone, ?_⟩, h', ⟨d :: rest, hds.symm⟩, ?_⟩)⟩
        · exact (hused.trans hmore).mono (by omega)
        · rw [hranges', hranges]
      · exact ih hds' (by omega) h' hlast' (by rw [hr, hranges, hcat]) (by simp; omega)
          ((hused.trans hmore).mono (by simp; omega))

/-- With enough fuel `xtMemoryInit` ends, with the ranges of the map in their order. -/
theorem xtMemoryInit_ends (hfresh : Fresh xtHeapAlloc) (hmap : boot.Holds ds)
    (hfuel : ds.length < fuel) (s : State) :
    ∃ out, xtMemoryInit xtHeapAlloc boot fuel s = some out ∧
      Ends xtHeapAlloc s.list.used ds out := by
  have hempty : Listed { s with memoryDescs := 0 } [] := ⟨rfl, by simp, by simp, by simp, by simp⟩
  have hloop := memoryInitLoop_ends hfresh hmap hfuel (List.nil_append ds).symm hfuel hempty
    (.inl ⟨rfl, rfl⟩) rfl le_rfl (Within.refl s.list.used)
  rwa [List.length_nil, Nat.zero_mul] at hloop

/-! ### Sorted maps -/

/-- On ranges in order the code joins what can be joined. -/
theorem span_addRange {es : List XTMemoryMapEntry} {e : XTMemoryMapEntry}
    (hpos : ∀ l ∈ es, 0 < l.start) (hle : ∀ l ∈ es, l.start + l.length ≤ e.start)
    (hstart : e.start < 2 ^ 64) (hend : e.start + e.length ≤ 2 ^ 64) :
    (addRange es e).map XTMemoryMapEntry.span =
      push (es.map XTMemoryMapEntry.span) e.span := by
  obtain rfl | ⟨front, l, rfl⟩ := List.eq_nil_or_concat' es
  · rfl
  have hl := hle l (by simp)
  have hl' := hpos l (by simp)
  rw [addRange_concat, List.map_append, List.map_singleton, push_concat,
    Nat.mod_eq_of_lt (show l.start + l.length < 2 ^ 64 by omega)]
  have hiff : l.attributes = e.attributes ∧ l.start + l.length = e.start ↔
      l.span.Continues e.span := Iff.rfl
  by_cases hjoin : l.span.Continues e.span
  · have hmeet := (hiff.mpr hjoin).2
    rw [if_pos hjoin, if_pos (hiff.mpr hjoin), Nat.mod_eq_of_lt (by omega), List.map_append]
    rfl
  · rw [if_neg hjoin, if_neg (hiff.not.mpr hjoin), List.map_append]
    rfl

theorem start_pos_addRange {es : List XTMemoryMapEntry} {e : XTMemoryMapEntry}
    (hpos : ∀ l ∈ es, 0 < l.start) (he : 0 < e.start) : ∀ l ∈ addRange es e, 0 < l.start := by
  obtain rfl | ⟨front, l, rfl⟩ := List.eq_nil_or_concat' es
  · simpa [addRange] using he
  rw [addRange_concat]
  intro x hx
  have hl := hpos l (by simp)
  split_ifs at hx
  · obtain hx | hx := List.mem_append.mp hx
    · exact hpos x (List.mem_append_left _ hx)
    · obtain rfl := List.mem_singleton.mp hx
      exact hl
  · rw [List.append_cons] at hx
    obtain hx | hx := List.mem_append.mp hx
    · exact hpos x hx
    · obtain rfl := List.mem_singleton.mp hx
      exact he

theorem span_foldl_addRange {es ds : List XTMemoryMapEntry} (hpos : ∀ l ∈ es ++ ds, 0 < l.start)
    (hbound : ∀ d ∈ ds, d.start < 2 ^ 64 ∧ d.start + d.length ≤ 2 ^ 64)
    (hds : Ordered (ds.map XTMemoryMapEntry.span))
    (hle : ∀ x ∈ es.map XTMemoryMapEntry.span, ∀ d ∈ ds, x.stop ≤ d.start) :
    (ds.foldl addRange es).map XTMemoryMapEntry.span =
      (ds.map XTMemoryMapEntry.span).foldl push (es.map XTMemoryMapEntry.span) := by
  induction ds generalizing es with
  | nil => rfl
  | cons d ds ih =>
    obtain ⟨hd, hds⟩ := List.pairwise_cons.mp hds
    have hd0 := hbound d List.mem_cons_self
    have hstep := span_addRange (fun l hl => hpos l (List.mem_append_left _ hl))
      (fun l hl => hle _ (List.mem_map_of_mem hl) d List.mem_cons_self) hd0.1 hd0.2
    rw [List.foldl_cons, List.map_cons, List.foldl_cons, ← hstep]
    refine ih ?_ (fun x hx => hbound x (List.mem_cons_of_mem _ hx)) hds ?_
    · intro l hl
      obtain hl | hl := List.mem_append.mp hl
      · exact start_pos_addRange (fun l hl => hpos l (List.mem_append_left _ hl))
          (hpos d (by simp)) l hl
      · exact hpos l (by simp [hl])
    · rw [hstep]
      intro x hx y hy
      refine stop_le_of_push (fun x hx => ?_) (hd _ (List.mem_map_of_mem hy)) x hx
      exact hle x hx y (List.mem_cons_of_mem _ hy)

theorem kept_kept (ds : List EfiMemoryDescriptor) : kept (kept ds) = kept ds := by
  simp [kept]

theorem mem_kept {d : EfiMemoryDescriptor} : d ∈ kept ds ↔ d ∈ ds ∧ 0x100000 ≤ d.physicalStart := by
  simp [kept]

/-- The ranges of a map in order, as spans of bytes. -/
theorem span_rangesOf (h : InOrder (kept ds)) :
    (rangesOf ds).map XTMemoryMapEntry.span =
      ((kept ds).map EfiMemoryDescriptor.span).foldl push [] := by
  have hspan : ((kept ds).map EfiMemoryDescriptor.mapEntry).map XTMemoryMapEntry.span =
      (kept ds).map EfiMemoryDescriptor.span := by
    rw [List.map_map]
    refine List.map_congr_left fun d hd => Span.ext rfl rfl (Nat.mod_eq_of_lt ?_)
    have := h.bound d hd
    have := (mem_kept.mp hd).2
    omega
  rw [rangesOf, span_foldl_addRange, hspan]
  · rfl
  · intro l hl
    obtain ⟨d, hd, rfl⟩ := List.mem_map.mp hl
    have := (mem_kept.mp hd).2
    exact lt_of_lt_of_le (by decide) this
  · intro e he
    obtain ⟨d, hd, rfl⟩ := List.mem_map.mp he
    have hb := h.bound d hd
    have := Nat.mod_le (d.numberOfPages * 4096) (2 ^ 64)
    exact ⟨hb.1, le_trans (Nat.add_le_add_left this _) hb.2⟩
  · rw [hspan]
    exact h.ordered
  · simp

/-- **The memory map**: for descriptors in order, and a heap that has two blocks for each, the
    call of `xtMemoryInit` succeeds and makes the run-length form of the map; descriptors of low
    memory change nothing. -/
theorem xtMemoryInit_canonical (hfresh : Fresh xtHeapAlloc)
    (hserves : HasBlocks xtHeapAlloc s.list.used (2 * ds.length)) (hmap : boot.Holds ds)
    (horder : InOrder (kept ds)) (hfuel : ds.length < fuel) :
    ∃ s' xs, xtMemoryInit xtHeapAlloc boot fuel s = some (.returned s' .success) ∧
      Listed s' xs ∧ Canonical ((s'.ranges xs).map XTMemoryMapEntry.span) ∧
      (∀ a attributes, Labels ((s'.ranges xs).map XTMemoryMapEntry.span) a attributes ↔
        ∃ d ∈ ds, 0x100000 ≤ d.physicalStart ∧ xtUEFITypeToXT d.type = attributes ∧
          d.physicalStart ≤ a ∧ a < d.physicalStart + d.numberOfPages * 4096) ∧
      s'.ranges xs = rangesOf (kept ds) := by
  have hfail : ∀ s' : State, xtHeapAlloc s'.list.used = none →
      ¬ Within (2 * ds.length) s.list.used s'.list.used := by
    intro s' hnone hmore
    obtain ⟨b, hb⟩ := hserves _ hmore
    rw [hnone] at hb
    cases hb
  obtain ⟨out, hout, hends⟩ := xtMemoryInit_ends hfresh hmap hfuel s
  obtain ⟨s', -, hnone, hmore⟩ | ⟨s', -, -, -, ⟨hnone, hmore⟩, -⟩ | ⟨s', xs, rfl, hlist, hranges⟩ :=
    hends
  · exact absurd hmore (hfail s' hnone)
  · exact absurd hmore (hfail s' hnone)
  · refine ⟨s', xs, hout, hlist, ?_, fun a attributes => ?_, ?_⟩
    · rw [hranges, span_rangesOf horder]
      exact canonical_foldl_push ⟨.nil, .nil⟩ horder.ordered (by simp)
    · rw [hranges, span_rangesOf horder, labels_foldl_push, labels_map]
      simp only [Labels, List.not_mem_nil, false_and, exists_false, false_or, mem_kept, and_assoc]
      rfl
    · rw [hranges, rangesOf, rangesOf, kept_kept]

/-- The first block from 1 on that is not in use. -/
def firstBlock (used : ℕ → Bool) : Option ℕ := (List.range' 1 16).find? fun b => !used b

theorem firstBlock_fresh : Fresh firstBlock := by
  intro used b hb
  have hmem := List.mem_of_find?_eq_some hb
  have hfree := List.find?_some hb
  rw [List.mem_range'_1] at hmem
  exact ⟨by omega, by simpa using hfree⟩

/-- Of the 16 blocks one is left. -/
theorem firstBlock_hasBlocks {n : ℕ} (hn : n < 16) : HasBlocks firstBlock (fun _ => false) n := by
  rintro used ⟨blocks, hlen, hsame⟩
  apply Option.isSome_iff_exists.mp
  rw [firstBlock, List.find?_isSome]
  by_contra hnone
  push Not at hnone
  have hsub : List.range' 1 16 ⊆ blocks := by
    intro b hb
    by_contra hnot
    exact hnone b hb (by rw [hsame b hnot]; rfl)
  have hnodup : (List.range' 1 16).Nodup := by decide
  have hle := (hnodup.subperm hsub).length_le
  rw [List.length_range'] at hle
  omega

/-- A map in memory, with 48 bytes for a descriptor. -/
def bootOf (ds : List EfiMemoryDescriptor) : KernelBootInfo where
  descs := 0x9000
  memoryMapSize := ds.length * 48
  descSize := 48
  descAt a := ds.getD ((a - 0x9000) / 48) ⟨0, 0, 0⟩

theorem bootOf_holds (h : ds.length < 2 ^ 32) : (bootOf ds).Holds ds := by
  refine ⟨fun i d hd => ?_, fun i => ?_, ?_⟩
  · have hi : (0x9000 + i * 48 - 0x9000) / 48 = i := by omega
    rw [show (bootOf ds).descAt ((bootOf ds).descs + i * (bootOf ds).descSize) =
      ds.getD ((0x9000 + i * 48 - 0x9000) / 48) ⟨0, 0, 0⟩ from rfl, hi,
      List.getD_eq_getElem?_getD, hd]
    rfl
  · simp only [bootOf]
    omega
  · simp only [bootOf]
    omega

/-- The state before `xtMemoryInit`. -/
def noMemory : State := ⟨⟨fun _ => ⟨0, 0⟩, fun _ => false⟩, fun _ => ⟨0, 0, 0⟩, 0⟩

/-- Two runs of free pages that meet, with a descriptor of low memory between them, and a
    device. -/
def smallMap : List EfiMemoryDescriptor :=
  [⟨7, 0x100000, 1⟩, ⟨7, 0x1000, 4⟩, ⟨3, 0x101000, 2⟩, ⟨11, 0x200000, 1⟩]

theorem smallMap_inOrder : InOrder (kept smallMap) := by
  have hkept : kept smallMap = [⟨7, 0x100000, 1⟩, ⟨3, 0x101000, 2⟩, ⟨11, 0x200000, 1⟩] := by
    decide +kernel
  rw [hkept]
  refine ⟨?_, by decide⟩
  simp [Ordered, EfiMemoryDescriptor.span, Span.stop]

/-- The runs of free pages become one range. -/
theorem xtMemoryInit_small : ∃ s' xs,
    xtMemoryInit firstBlock (bootOf smallMap) 5 noMemory = some (.returned s' .success) ∧
      s'.ranges xs = [⟨xtMemFree, 0x100000, 0x3000⟩, ⟨xtMemMmio, 0x200000, 0x1000⟩] ∧
      Canonical ((s'.ranges xs).map XTMemoryMapEntry.span) := by
  obtain ⟨s', xs, hrun, -, hcanonical, -, hranges⟩ := xtMemoryInit_canonical (s := noMemory)
    firstBlock_fresh (firstBlock_hasBlocks (show 2 * smallMap.length < 16 by decide)) (bootOf_holds (by decide)) smallMap_inOrder
    (show smallMap.length < 5 by decide)
  refine ⟨s', xs, hrun, ?_, hcanonical⟩
  rw [hranges]
  decide +kernel

end map

end XTOS.PageAlloc

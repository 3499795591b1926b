import XTOS.PageAlloc.MemoryMap
import XTOS.PageAlloc.Rounding

/-!
# Classes of memory

Which memory `xtAllocatePages` of `xtkernel/memory.c` hands out after `xtMemoryInit`. The list has
ranges of all types, and neither an allocation nor a free looks at their attributes.

## Main definitions

- `freeMemory` — the bytes of the memory map that are classified as free
- `Run.request` — a call as clients make it: they free what they asked for
- `Careful` — a call that is served by free memory and joins free memory only with such

## Main results

- `handed_out_free` — in every run of careful calls all memory that is handed out is free memory

## Design notes

The bytes of a range are addresses modulo `2 ^ 64`, so nothing is assumed about the map.
-/

namespace XTOS.PageAlloc

open SysLib LinkedList

/-! ### Bytes -/

/-- The bytes of a range of 64-bit addresses. -/
def bytes (start length : ℕ) : Set ℕ := {a | ∃ k < length, a = (start + k) % 2 ^ 64}

section bytes

variable {start start' length m n : ℕ} {F : Set ℕ}

theorem bytes_mono (h : m ≤ n) : bytes start m ⊆ bytes start n := by
  rintro a ⟨k, hk, rfl⟩
  exact ⟨k, by omega, rfl⟩

/-- The end of a range. -/
theorem bytes_drop (h : m ≤ n) : bytes ((start + m) % 2 ^ 64) (n - m) ⊆ bytes start n := by
  rintro a ⟨k, hk, rfl⟩
  exact ⟨m + k, by omega, by omega⟩

/-- Two ranges that meet, as one. -/
theorem bytes_join (h : (start + m) % 2 ^ 64 = start' % 2 ^ 64) :
    bytes start ((m + n) % 2 ^ 64) ⊆ bytes start m ∪ bytes start' n := by
  rintro a ⟨k, hk, rfl⟩
  have hle := Nat.mod_le (m + n) (2 ^ 64)
  by_cases hkm : k < m
  · exact .inl ⟨k, hkm, rfl⟩
  · exact .inr ⟨k - m, by omega, by omega⟩

end bytes

/-- The ranges that are marked as free lie in `F`. -/
def Marked (F : Set ℕ) (es : List XTMemoryMapEntry) : Prop :=
  ∀ e ∈ es, e.attributes = xtMemFree → bytes e.start e.length ⊆ F

section marked

variable {F : Set ℕ} {es L R : List XTMemoryMapEntry} {e : XTMemoryMapEntry}

theorem marked_middle : Marked F (L ++ e :: R) ↔
    Marked F (L ++ R) ∧ (e.attributes = xtMemFree → bytes e.start e.length ⊆ F) := by
  simp only [Marked, List.mem_append, List.mem_cons]
  constructor
  · intro h
    exact ⟨fun x hx => h x (hx.imp_right .inr), h e (.inr (.inl rfl))⟩
  · rintro ⟨h, he⟩ x (hx | rfl | hx)
    · exact h x (.inl hx)
    · exact he
    · exact h x (.inr hx)

theorem Marked.addRange (h : Marked F es)
    (he : e.attributes = xtMemFree → bytes e.start e.length ⊆ F) : Marked F (addRange es e) := by
  obtain rfl | ⟨front, l, rfl⟩ := List.eq_nil_or_concat' es
  · intro x hx
    obtain rfl := List.mem_singleton.mp hx
    exact he
  obtain ⟨hfront, hl⟩ := marked_middle.mp h
  rw [addRange_concat]
  split_ifs with hjoin
  · refine marked_middle.mpr ⟨hfront, fun hattr => ?_⟩
    refine (bytes_join ?_).trans (Set.union_subset (hl hattr) (he ?_))
    · rw [← hjoin.2, Nat.mod_mod]
    · exact hjoin.1 ▸ hattr
  · rw [List.append_cons]
    refine marked_middle.mpr ⟨?_, he⟩
    rwa [List.append_nil]

end marked

/-! ### The memory map -/

/-- The bytes of the memory map whose type `xtUEFITypeToXT` classifies as free. -/
def freeMemory (ds : List EfiMemoryDescriptor) : Set ℕ :=
  {a | ∃ d ∈ ds, xtUEFITypeToXT d.type = xtMemFree ∧
    a ∈ bytes d.physicalStart (d.numberOfPages * 4096)}

theorem marked_rangesOf {ds pre : List EfiMemoryDescriptor} (h : pre ⊆ ds) :
    Marked (freeMemory ds) (rangesOf pre) := by
  have hfold : ∀ (rest : List EfiMemoryDescriptor) (es : List XTMemoryMapEntry), rest ⊆ ds →
      Marked (freeMemory ds) es →
      Marked (freeMemory ds) ((rest.map EfiMemoryDescriptor.mapEntry).foldl addRange es) := by
    intro rest
    induction rest with
    | nil => exact fun es _ hes => hes
    | cons d rest ih =>
      intro es hsub hes
      refine ih _ (fun x hx => hsub (List.mem_cons_of_mem _ hx)) (hes.addRange fun hfree => ?_)
      intro a ha
      exact ⟨d, hsub List.mem_cons_self, hfree, bytes_mono (Nat.mod_le _ _) ha⟩
  exact hfold _ _ (fun x hx => h (mem_kept.mp hx).1) (by simp [Marked])

/-! ### Runs -/

/-- One call of a client, which frees a range with the size it asked for. The heap returns two
    blocks that are not in use. -/
def Run.request (g : Run) : Call → Option Run
  | .allocate fuel ptr size =>
    match xtAllocatePages fuel g.state ptr size with
    | none => none
    | some (s', .ok out) => some ⟨s', (out, size) :: g.outstanding⟩
    | some (s', .error _) => some ⟨s', g.outstanding⟩
  | .free fuel addr size newEntry newNode =>
    if (addr, size) ∈ g.outstanding ∧ newEntry ≠ 0 ∧ g.state.list.used newEntry = false ∧
        newNode ≠ 0 ∧ g.state.list.used newNode = false ∧ newNode ≠ newEntry then
      (xtFreePages fuel g.state addr size newEntry newNode).map fun s' =>
        ⟨s', g.outstanding.erase (addr, size)⟩
    else none

/-- A request is served by a range that is marked as free, and its size does not wrap around. A
    free does not join a range marked as free with one that is not. Neither has to take the last
    node off the node before it. -/
def Careful (es : List XTMemoryMapEntry) : Call → Prop
  | .allocate _ ptr size => size + 4096 < 2 ^ 64 ∧
      ∀ L e R, es = L ++ e :: R → Serves ptr (carvedSize size) L e R →
        e.attributes = xtMemFree ∧ (e.length = carvedSize size → R = [] → L = [])
  | .free _ addr size _ _ =>
      ∀ L p c R, es = L ++ p :: c :: R → (p.start + p.length) % 2 ^ 64 = addr →
        (addr + size) % 2 ^ 64 = c.start →
        R ≠ [] ∧ (p.attributes = xtMemFree → c.attributes = xtMemFree)

/-- A careful call of a client. -/
def Run.CarefulStep (g g' : Run) : Prop :=
  ∃ c xs, Listed g.state xs ∧ Careful (g.state.ranges xs) c ∧ g.request c = some g'

/-- Any call of a client. -/
def Run.RequestStep (g g' : Run) : Prop := ∃ c, g.request c = some g'

/-- The ranges marked as free and the outstanding ones lie in `F`. -/
def Run.InFree (F : Set ℕ) (g : Run) : Prop :=
  ∃ xs, Listed g.state xs ∧ Marked F (g.state.ranges xs) ∧
    ∀ o ∈ g.outstanding, bytes o.1 o.2 ⊆ F

section runs

variable {F : Set ℕ} {s s' : State} {xs : List ℕ} {fuel ptr addr size newEntry newNode : ℕ}

theorem le_carvedSize (h : size + 4096 < 2 ^ 64) : size ≤ carvedSize size := by
  rw [carvedSize_eq, Nat.mod_eq_of_lt h]
  omega

/-- A careful allocation hands out bytes of a range that is marked as free. -/
theorem Listed.allocate_free (h : Listed s xs) (hmarked : Marked F (s.ranges xs))
    (hcareful : Careful (s.ranges xs) (.allocate fuel ptr size))
    (hcall : xtAllocatePages fuel s ptr size = some (s', .ok addr)) :
    ∃ ys, Listed s' ys ∧ Marked F (s'.ranges ys) ∧ bytes addr size ⊆ F := by
  obtain ⟨pre, i, post, rfl, hserves, rfl, hr⟩ | ⟨-, hr⟩ := h.allocate_cases hcall
  swap
  · cases hr
  rw [ranges_append, ranges_cons] at hmarked hcareful
  obtain ⟨hsize, hcareful⟩ := hcareful
  obtain ⟨hfree, hlast⟩ := hcareful _ _ _ rfl hserves
  obtain ⟨hothers, hi⟩ := marked_middle.mp hmarked
  obtain rfl : addr = (s.entry i).start := by
    rw [takePages_eq] at hr
    split at hr <;> exact (Except.ok.inj hr)
  have hbytes : bytes (s.entry i).start size ⊆ F :=
    (bytes_mono ((le_carvedSize hsize).trans hserves.1)).trans (hi hfree)
  obtain ⟨hlist, hranges⟩ | ⟨hlen, ⟨hlist, hranges⟩ | ⟨hpre, rfl, -, -⟩⟩ :=
    h.take_cases (n := carvedSize size)
  · refine ⟨_, hlist, ?_, hbytes⟩
    rw [hranges]
    exact marked_middle.mpr ⟨hothers, fun _ => (bytes_drop hserves.1).trans (hi hfree)⟩
  · refine ⟨_, hlist, ?_, hbytes⟩
    rw [hranges]
    exact hothers
  · have hnil := hlast (le_antisymm hlen hserves.1) rfl
    exact absurd (List.map_eq_nil_iff.mp hnil) hpre

/-- A careful free of free memory marks nothing else as free. -/
theorem Listed.free_free (h : Listed s xs) (hmarked : Marked F (s.ranges xs))
    (hcareful : Careful (s.ranges xs) (.free fuel addr size newEntry newNode))
    (hbytes : bytes addr size ⊆ F) (hentry : s.list.used newEntry = false)
    (hnode : newNode ≠ 0) (hused : s.list.used newNode = false) (hne : newNode ≠ newEntry)
    (hcall : xtFreePages fuel s addr size newEntry newNode = some s') :
    ∃ ys, Listed s' ys ∧ Marked F (s'.ranges ys) := by
  obtain ⟨pre, post, rfl, -, -, hcases⟩ := h.chain.free_outcomes hcall
  obtain ⟨front, p, c, rest, rfl, rfl, hprev, hcurr, rfl⟩ | ⟨front, p, rfl, hprev, rfl⟩ |
    ⟨c, rest, rfl, hcurr, rfl⟩ | ⟨-, -, rfl⟩ := hcases
  · have hmeet : (addr + size) % 2 ^ 64 = (s.entry c).start := by omega
    have hsplit : s.ranges (front ++ [p] ++ c :: rest) =
        s.ranges front ++ s.entry p :: s.entry c :: s.ranges rest := by
      rw [List.append_assoc, List.singleton_append, ranges_append, ranges_cons, ranges_cons]
    rw [hsplit] at hmarked hcareful
    obtain ⟨hrest, hattr⟩ := hcareful _ _ _ _ rfl hprev hmeet
    obtain ⟨hmarked, hp⟩ := marked_middle.mp hmarked
    obtain ⟨hothers, hc⟩ := marked_middle.mp hmarked
    have hrest' : rest ≠ [] := fun hnil => hrest (by rw [hnil]; rfl)
    obtain ⟨ys, hlist, hranges⟩ := h.joinNext hrest'
      { s.entry p with
        length := (((s.entry p).length + size) % 2 ^ 64 + (s.entry c).length) % 2 ^ 64 }
    refine ⟨ys, hlist, ?_⟩
    rw [hranges]
    refine marked_middle.mpr ⟨hothers, fun hfree => ?_⟩
    -- the range of `p` with the freed one, and then with the one of `c`
    have hgrown := (bytes_join (n := size) (by rw [hprev, ← hprev, Nat.mod_mod])).trans
      (Set.union_subset (hp hfree) hbytes)
    refine (bytes_join ?_).trans (Set.union_subset hgrown (hc (hattr hfree)))
    rw [hcurr, ← hmeet, Nat.mod_mod]
  · rw [List.append_assoc, List.singleton_append] at h hmarked
    rw [ranges_append, ranges_cons] at hmarked
    obtain ⟨hothers, hp⟩ := marked_middle.mp hmarked
    refine ⟨front ++ p :: post, h.setEntry p _, ?_⟩
    rw [h.ranges_setEntry]
    refine marked_middle.mpr ⟨hothers, fun hfree => ?_⟩
    exact (bytes_join (by rw [hprev, ← hprev, Nat.mod_mod])).trans
      (Set.union_subset (hp hfree) hbytes)
  · rw [ranges_append, ranges_cons] at hmarked
    obtain ⟨hothers, hc⟩ := marked_middle.mp hmarked
    refine ⟨pre ++ c :: rest, h.setEntry c _, ?_⟩
    rw [h.ranges_setEntry]
    refine marked_middle.mpr ⟨hothers, fun hfree => ?_⟩
    dsimp only
    rw [add_comm (s.entry c).length]
    exact (bytes_join (by rw [hcurr, ← hcurr, Nat.mod_mod])).trans
      (Set.union_subset hbytes (hc hfree))
  · obtain ⟨hlist, hranges⟩ := h.insertNode hentry hnode hused hne ⟨xtMemFree, addr, size⟩
    refine ⟨pre ++ newNode :: post, hlist, ?_⟩
    rw [hranges]
    rw [ranges_append] at hmarked
    exact marked_middle.mpr ⟨hmarked, fun _ => hbytes⟩

theorem Run.CarefulStep.inFree {g g' : Run} (hs : g.CarefulStep g') (h : g.InFree F) :
    g'.InFree F := by
  obtain ⟨xs, hlist, hmarked, hout⟩ := h
  obtain ⟨c, xs', hlist', hcareful, hexec⟩ := hs
  obtain rfl := hlist.linked.unique hlist'.linked
  cases c with
  | allocate fuel ptr size =>
    simp only [Run.request] at hexec
    split at hexec
    · cases hexec
    · rename_i s' addr hcall
      cases hexec
      obtain ⟨ys, hys, hmarked', hbytes⟩ := hlist.allocate_free hmarked hcareful hcall
      refine ⟨ys, hys, hmarked', fun o ho => ?_⟩
      obtain rfl | ho := List.mem_cons.mp ho
      · exact hbytes
      · exact hout o ho
    · rename_i s' r hcall
      cases hexec
      obtain ⟨_, _, _, _, _, _, hr⟩ | ⟨rfl, -⟩ := hlist.allocate_cases hcall
      · cases hr
      · exact ⟨xs, hlist, hmarked, hout⟩
  | free fuel addr size newEntry newNode =>
    simp only [Run.request, Option.ite_none_right_eq_some, Option.map_eq_some_iff] at hexec
    obtain ⟨⟨hmem, -, hentry, hnode, hused, hne⟩, s', hcall, rfl⟩ := hexec
    obtain ⟨ys, hys, hmarked'⟩ := hlist.free_free hmarked hcareful (hout _ hmem) hentry hnode
      hused hne hcall
    exact ⟨ys, hys, hmarked', fun o ho => hout o (List.erase_subset ho)⟩

/-- **Classes of memory**: in every run of careful calls after `xtMemoryInit` all memory that is
    handed out is classified as free by the memory map. -/
theorem handed_out_free {xtHeapAlloc : (ℕ → Bool) → Option ℕ} {boot : KernelBootInfo}
    {ds : List EfiMemoryDescriptor} {r : XTResult} (hfresh : Fresh xtHeapAlloc)
    (hmap : boot.Holds ds) (hfuel : ds.length < fuel)
    (hinit : xtMemoryInit xtHeapAlloc boot fuel s = some (.returned s' r)) {g : Run}
    (h : Reachable (fun g => g = ⟨s', []⟩) Run.CarefulStep g) :
    ∀ o ∈ g.outstanding, bytes o.1 o.2 ⊆ freeMemory ds := by
  have hstart : Run.InFree (freeMemory ds) ⟨s', []⟩ := by
    obtain ⟨out, hout, hends⟩ := xtMemoryInit_ends hfresh hmap hfuel s
    obtain rfl := Option.some.inj (hinit.symm.trans hout)
    obtain ⟨t, ht, -⟩ | ⟨t, xs, pre, ht, -, hlist, hpre, hranges⟩ | ⟨t, xs, ht, hlist, hranges⟩ :=
      hends
    · cases ht
    · cases ht
      refine ⟨xs, hlist, ?_, by simp⟩
      rw [hranges]
      exact marked_rangesOf hpre.subset
    · cases ht
      refine ⟨xs, hlist, ?_, by simp⟩
      rw [hranges]
      exact marked_rangesOf (List.Subset.refl ds)
  obtain ⟨-, -, -, hout⟩ := h.invariant (fun _ hg => hg ▸ hstart) fun _ _ hi hs => hs.inFree hi
  exact hout

/-- Two pages of the free range after a boot with `smallMap`. -/
theorem handed_out_two_pages : ∃ s' g,
    xtMemoryInit firstBlock (bootOf smallMap) 5 noMemory = some (.returned s' .success) ∧
      Reachable (fun g => g = ⟨s', []⟩) Run.CarefulStep g ∧
      g.outstanding = [(0x100000, 0x2000)] ∧ bytes 0x100000 0x2000 ⊆ freeMemory smallMap := by
  obtain ⟨s', t, hrun, hlinked, hdata, hused, hranges, hcall⟩ : ∃ s' t,
      xtMemoryInit firstBlock (bootOf smallMap) 5 noMemory = some (.returned s' .success) ∧
        Linked 0 s'.list.next s'.memoryDescs [2, 4] 0 ∧
        [2, 4].map s'.list.data = [1, 3] ∧
        [1, 2, 3, 4].map s'.list.used = [true, true, true, true] ∧
        s'.ranges [2, 4] = [⟨xtMemFree, 0x100000, 0x3000⟩, ⟨xtMemMmio, 0x200000, 0x1000⟩] ∧
        Run.request ⟨s', []⟩ (.allocate 5 0 0x2000) = some ⟨t, [(0x100000, 0x2000)]⟩ :=
    ⟨_, _, rfl, ⟨rfl, by decide, rfl, by decide, rfl⟩, rfl, rfl, rfl, rfl⟩
  have hlist : Listed s' [2, 4] := by
    simp only [List.map_cons, List.map_nil, List.cons.injEq, and_true] at hdata hused
    refine ⟨hlinked, ?_, ?_, ?_, ?_⟩
    all_goals simp [hdata, hused]
  have hcareful : Careful (s'.ranges [2, 4]) (.allocate 5 0 0x2000) := by
    rw [hranges]
    refine ⟨by decide, fun L e R hsplit hserves => ?_⟩
    have hlen : carvedSize 0x2000 = 0x2000 := by decide
    rw [hlen] at hserves ⊢
    -- only the first range is large enough
    obtain ⟨rfl, rfl, rfl⟩ | ⟨rfl, rfl⟩ : (L = [] ∧ e = ⟨xtMemFree, 0x100000, 0x3000⟩ ∧
        R = [⟨xtMemMmio, 0x200000, 0x1000⟩]) ∨
        (e = ⟨xtMemMmio, 0x200000, 0x1000⟩ ∧ R = []) := by
      cases L with
      | nil => simp_all
      | cons l L => cases L <;> simp_all
    · exact ⟨rfl, by simp⟩
    · exact absurd hserves.1 (by decide)
  have hreach : Reachable (fun g => g = ⟨s', []⟩) Run.CarefulStep ⟨t, [(0x100000, 0x2000)]⟩ :=
    .next (.start rfl) ⟨_, _, hlist, hcareful, hcall⟩
  refine ⟨s', _, hrun, hreach, rfl, ?_⟩
  exact handed_out_free firstBlock_fresh (bootOf_holds (by decide)) (by decide) hrun hreach _
    List.mem_cons_self

/-- Reserved memory and free memory behind it. -/
def reservedMap : List EfiMemoryDescriptor := [⟨0, 0x100000, 2⟩, ⟨7, 0x102000, 6⟩]

/-- The first request for two pages is served by reserved memory. -/
theorem reserved_handed_out : ∃ s' g,
    xtMemoryInit firstBlock (bootOf reservedMap) 5 noMemory = some (.returned s' .success) ∧
      Reachable (fun g => g = ⟨s', []⟩) Run.RequestStep g ∧
      g.outstanding = [(0x100000, 0x2000)] ∧ 0x100000 ∈ bytes 0x100000 0x2000 ∧
      0x100000 ∉ freeMemory reservedMap := by
  have hcall : ∃ s' t,
      xtMemoryInit firstBlock (bootOf reservedMap) 5 noMemory = some (.returned s' .success) ∧
        Run.request ⟨s', []⟩ (.allocate 5 0 0x2000) = some ⟨t, [(0x100000, 0x2000)]⟩ :=
    ⟨_, _, rfl, rfl⟩
  obtain ⟨s', t, hrun, hcall⟩ := hcall
  refine ⟨s', _, hrun, .next (.start rfl) ⟨_, hcall⟩, rfl, ⟨0, by decide, rfl⟩, ?_⟩
  rintro ⟨d, hd, hfree, k, hk, ha⟩
  simp only [reservedMap, List.mem_cons, List.not_mem_nil, or_false] at hd
  obtain rfl | rfl := hd
  · exact absurd hfree (by decide)
  · dsimp only at hk ha
    omega

end runs

end XTOS.PageAlloc

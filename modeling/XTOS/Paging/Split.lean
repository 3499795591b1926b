import XTOS.Paging.Tables

/-!
# Large pages in the way

`xtSetPages` of `xtkernel/arch/x86_64/memory.c` on a range that overlaps a large page. When a
smaller page is to be mapped there, `xtGetOrMakePageTable` puts a new table in the place of the
large leaf, with all bits of the old entry but `P_NX`, so that it is still a large leaf.

## Main definitions

- `splitEntry` — the entry for a new table in the place of a large leaf
- `splits` — the large leaves that a call replaces, with the pages for the new tables
- `SplitsPages` — the range is mapped, and the rest of its large pages is mapped as before

## Main results

- `setPage_cases` — a pass maps its page, or it replaces the large leaf in the way
- `setPagesLoop_splits` — what a successful call maps
- `splitsPages_iff` — for which calls the large pages were split as they should be
-/

namespace XTOS.Paging

open SysLib

/-- The entry for a new table at `page` in the place of the large leaf `e`. -/
def splitEntry (page e : ℕ) : ℕ := page ||| (e &&& pteFlagsMask) ||| 0x07

/-- The table at `t` is in memory that is neither in the tree nor will be allocated. -/
structure Orphan (s : State) (owner : Option ℕ → Option (List (Fin 512))) (t : ℕ) : Prop where
  owner : ∀ i, owner (some (entryAddr t i)) = none
  apart : ∀ page ∈ s.pages, ∀ i j, entryAddr (higherHalfMem page) j ≠ entryAddr t i

section step

variable {root : ℕ} {top : Fin 512 → Prop} {s s' : State}
  {owner : Option ℕ → Option (List (Fin 512))} {p : List (Fin 512)} {t page e : ℕ}
  {pages : List ℕ} {i : Fin 512}

/-- What is the same after a write outside of the tree. -/
structure SameWalks (root : ℕ) (top : Fin 512 → Prop) (s s' : State)
    (owner : Option ℕ → Option (List (Fin 512))) : Prop where
  inv : Inv root top s' owner
  leaf : ∀ q, leaf s'.mem root q = leaf s.mem root q
  has : ∀ r, HasTable s'.mem root r ↔ HasTable s.mem root r

theorem SameWalks.trans {s2 : State} (h : SameWalks root top s s' owner)
    (h' : SameWalks root top s' s2 owner) : SameWalks root top s s2 owner :=
  ⟨h'.inv, fun q => (h'.leaf q).trans (h.leaf q), fun r => (h'.has r).trans (h.has r)⟩

theorem Inv.set_orphan (h : Inv root top s owner) (ho : Orphan s owner t) (i : Fin 512) (e : ℕ) :
    SameWalks root top s (s.set (entryAddr t i) e) owner := by
  have hread : ∀ slot, owner slot ≠ none →
      read (s.set (entryAddr t i) e).mem slot = read s.mem slot := by
    intro slot hslot
    refine read_set_of_ne s e ?_
    rintro rfl
    exact hslot (ho.owner i)
  have hkeep : ∀ a, owner (some a) ≠ none → (s.set (entryAddr t i) e).mem a = s.mem a :=
    fun a ha => hread (some a) ha
  -- each walk stops in the same slot, with the same entry
  have hwalk : ∀ q, Radix.stop (child root) (read (s.set (entryAddr t i) e).mem) 0 none q =
      Radix.stop (child root) (read s.mem) 0 none q ∧
      read (s.set (entryAddr t i) e).mem (Radix.stop (child root) (read s.mem) 0 none q).1 =
        read s.mem (Radix.stop (child root) (read s.mem) 0 none q).1 := by
    intro q
    obtain ⟨used, -, howner, -⟩ := h.owned.stop_owner h.owned.root q
    exact ⟨h.owned.stop_congr hread h.owned.root q, hread _ (by
      rw [List.length_nil] at howner
      simp [howner])⟩
  refine ⟨⟨h.owned.congr hread, fun a ha => ?_, fun j hj => ?_, h.aligned, fun x hx j => ?_,
    h.apart, h.distinct⟩, fun q => ?_, fun r => ?_⟩
  · rw [hkeep a ha]
    exact h.absent a ha
  · rw [hkeep _ (by simp [h.tableAt_root.owner j])]
    exact h.top j hj
  · rw [set_mem_of_ne s e (ho.apart x hx i j)]
    exact h.zero x hx j
  · rw [leaf, leaf, (hwalk q).1]
    dsimp only
    rw [(hwalk q).2]
  · rw [HasTable, HasTable, (hwalk r).1, (hwalk r).2]

/-- The next page leaves the list. -/
theorem Inv.pop (h : Inv root top s owner) (hpages : s.pages = page :: pages) :
    Inv root top { s with pages := pages } owner ∧
      Orphan { s with pages := pages } owner (higherHalfMem page) ∧ page % 2 ^ 12 = 0 ∧
      page < 2 ^ 52 ∧ ∀ j, s.mem (entryAddr (higherHalfMem page) j) = 0 := by
  have hin : page ∈ s.pages := by simp [hpages]
  have hsub : ∀ x ∈ pages, x ∈ s.pages := fun x hx => by simp [hpages, hx]
  have hdistinct := h.distinct
  rw [hpages, List.map_cons, List.nodup_cons] at hdistinct
  refine ⟨⟨h.owned, h.absent, h.top, fun x hx => h.aligned x (hsub x hx),
    fun x hx => h.zero x (hsub x hx), fun x hx => h.apart x (hsub x hx), hdistinct.2⟩,
    ⟨h.apart page hin, fun x hx i j heq => ?_⟩, (h.aligned page hin).1, (h.aligned page hin).2,
    h.zero page hin⟩
  have hbase := entryAddr_left_inj (higherHalfMem_mod (h.aligned x (hsub x hx)).1)
    (higherHalfMem_mod (h.aligned page hin).1) heq
  exact hdistinct.1 (hbase ▸ List.mem_map_of_mem hx)

theorem Orphan.set (ho : Orphan s owner t) (a e : ℕ) : Orphan (s.set a e) owner t :=
  ⟨ho.owner, ho.apart⟩

/-- A table that is made below one outside of the tree. -/
theorem Inv.make_orphan (h : Inv root top s owner) (ho : Orphan s owner (higherHalfMem t))
    (hne : t ≠ 0) (hzero : s.mem (entryAddr (higherHalfMem t) i) = 0) {t' : ℕ}
    (hcall : xtGetOrMakePageTable s t i 0x07 = (s', .ok t')) :
    SameWalks root top s s' owner ∧ Orphan s' owner (higherHalfMem t') ∧ t' ≠ 0 ∧
      higherHalfMem t' = t' ∧ (∀ j, s'.mem (entryAddr (higherHalfMem t') j) = 0) ∧
      s'.pages = s.pages.drop 1 := by
  rw [xtGetOrMakePageTable, if_neg hne] at hcall
  dsimp only at hcall
  rw [if_pos (.inl (by rw [hzero, Nat.zero_and]))] at hcall
  cases hpages : s.pages with
  | nil =>
    rw [hpages] at hcall
    cases hcall
  | cons page pages =>
    rw [hpages] at hcall
    cases hcall
    obtain ⟨hpop, hnew, -, -, hblank⟩ := h.pop hpages
    have hrest : Orphan { s with pages := pages } owner (higherHalfMem t) :=
      ⟨ho.owner, fun x hx => ho.apart x (by simp [hpages, show x ∈ pages from hx])⟩
    obtain ⟨hinv, hleaf, hhas⟩ := hpop.set_orphan hrest i
      (page ||| (s.mem (entryAddr (higherHalfMem t) i) &&& pteFlagsMask) ||| 0x07)
    rw [higherHalfMem_idem]
    refine ⟨⟨hinv, hleaf, hhas⟩, hnew.set _ _, higherHalfMem_ne_zero _, rfl, fun j => ?_, rfl⟩
    rw [← hblank j]
    exact set_mem_of_ne { s with pages := pages } _ (ho.apart page (by simp [hpages]) i j)

/-- And all tables further down. -/
theorem Inv.make_orphans (h : Inv root top s owner) (ho : Orphan s owner (higherHalfMem t))
    (hne : t ≠ 0) (hhigh : higherHalfMem t = t)
    (hzero : ∀ j, s.mem (entryAddr (higherHalfMem t) j) = 0) {q : List (Fin 512)} {t' : ℕ}
    (hcall : makeTables s t q = (s', .ok t')) :
    SameWalks root top s s' owner ∧ Orphan s' owner t' ∧ s'.pages = s.pages.drop q.length := by
  induction q generalizing s t with
  | nil =>
    cases hcall
    exact ⟨⟨h, fun _ => rfl, fun _ => Iff.rfl⟩, hhigh ▸ ho, rfl⟩
  | cons i q ih =>
    rw [makeTables] at hcall
    rcases hnext : xtGetOrMakePageTable s t i 0x07 with ⟨s1, r | t1⟩
    · rw [hnext] at hcall
      cases hcall
    rw [hnext] at hcall
    obtain ⟨hsame, ho1, hne1, hhigh1, hzero1, hpages1⟩ := h.make_orphan ho hne (hzero i) hnext
    obtain ⟨hsame', ho', hpages'⟩ := ih hsame.inv ho1 hne1 hhigh1 hzero1 hcall
    refine ⟨hsame.trans hsame', ho', ?_⟩
    rw [hpages', hpages1, List.drop_drop, List.length_cons, Nat.add_comm]

/-! ### The entry of a replaced leaf -/

theorem splitEntry_present (page e : ℕ) : splitEntry page e &&& pPresent ≠ 0 := by
  rw [splitEntry, Nat.and_or_distrib_right, show 0x07 &&& pPresent = 1 by decide]
  intro h
  exact absurd (Nat.or_eq_zero_iff.mp h).2 (by decide)

theorem splitEntry_pPS (page : ℕ) (h : e &&& pPS ≠ 0) : splitEntry page e &&& pPS ≠ 0 := by
  rw [splitEntry, Nat.and_or_distrib_right, Nat.and_or_distrib_right, Nat.and_assoc,
    show pteFlagsMask &&& pPS = pPS by decide]
  intro hzero
  exact h (Nat.or_eq_zero_iff.mp (Nat.or_eq_zero_iff.mp hzero).1).2

/-- The address of the new table and that of the leaf, in one entry. -/
theorem splitEntry_and_addrMask (e : ℕ) (halign : page % 2 ^ 12 = 0) (hlt : page < 2 ^ 52) :
    splitEntry page e &&& addrMask = (e &&& addrMask) ||| page := by
  have hself : page &&& addrMask = page := by
    rw [and_addrMask]
    omega
  rw [splitEntry, Nat.and_or_distrib_right, Nat.and_or_distrib_right, Nat.and_assoc, hself,
    show pteFlagsMask &&& addrMask = addrMask by decide, show 0x07 &&& addrMask = 0 by decide,
    Nat.or_zero, Nat.or_comm]

/-- A large leaf that is replaced by a table is still a large leaf. -/
theorem Inv.replace_leaf (h : Inv root top s owner) (ht : TableAt root s owner p (higherHalfMem t))
    (hne : t ≠ 0) (hp : p ≠ [])
    (hps : s.mem (entryAddr (higherHalfMem t) i) &&& pPS ≠ 0) {t' : ℕ}
    (hcall : xtGetOrMakePageTable s t i 0x07 = (s', .ok t')) :
    ∃ page, s.pages = page :: s'.pages ∧ page % 2 ^ 12 = 0 ∧ page < 2 ^ 52 ∧ t' ≠ 0 ∧
      higherHalfMem t' = t' ∧ Inv root top s' owner ∧ Orphan s' owner (higherHalfMem t') ∧
      (∀ j, s'.mem (entryAddr (higherHalfMem t') j) = 0) ∧
      (∀ q : List (Fin 512), q.length = 4 → leaf s'.mem root q =
        if p ++ [i] <+: q then
          some (splitEntry page (s.mem (entryAddr (higherHalfMem t) i)), 4 - (p ++ [i]).length)
        else leaf s.mem root q) ∧
      ∀ r, ¬ p ++ [i] <+: r → (HasTable s'.mem root r ↔ HasTable s.mem root r) := by
  rw [xtGetOrMakePageTable, if_neg hne] at hcall
  dsimp only at hcall
  rw [if_pos (.inr hps)] at hcall
  cases hpages : s.pages with
  | nil =>
    rw [hpages] at hcall
    cases hcall
  | cons page pages =>
    rw [hpages] at hcall
    cases hcall
    obtain ⟨hpop, hnew, halign, hlt, hzero⟩ := h.pop hpages
    have hone : (p ++ [i]).length ≠ 1 := by simpa using hp
    have hleads : ¬ Leads (p ++ [i]).length
        (splitEntry page (s.mem (entryAddr (higherHalfMem t) i))) :=
      fun hl => splitEntry_pPS page hps (hl.2.2.resolve_left hone)
    have htable : TableAt root { s with pages := pages } owner p (higherHalfMem t) :=
      ⟨ht.stop, ht.owner⟩
    obtain ⟨hinv, hleaf⟩ := hpop.map_leaf htable hp (i := i) hleads (splitEntry_present page _)
    rw [higherHalfMem_idem]
    refine ⟨page, rfl, halign, hlt, higherHalfMem_ne_zero _, rfl, hinv, hnew.set _ _,
      fun j => ?_, hleaf, fun r hr => hasTable_set_of_miss h (ht.owner i) hr⟩
    rw [← hzero j]
    refine set_mem_of_ne { s with pages := pages } _ fun heq => ?_
    have hnone := hnew.owner j
    rw [heq, ht.owner i] at hnone
    cases hnone

/-! ### One pass -/

/-- The tables above a leaf are followed. -/
theorem Inv.follow (h : Inv root top ⟨s.mem, []⟩ owner) {pageTable va j : ℕ}
    (hroot : root = higherHalfMem pageTable) (hne : pageTable ≠ 0) (htop : top (index va 39))
    (hleaf : leaf s.mem root (path va) = some (e, j)) (hp : p <+: (path va).take (3 - j)) :
    ∃ t, makeTables s pageTable p = (s, .ok t) ∧ TableAt root s owner p (higherHalfMem t) ∧
      t ≠ 0 := by
  suffices hrun : ∃ t, makeTables s pageTable p = (s, .ok t) ∧
      TableAt root s owner p (higherHalfMem t) ∧ t ≠ 0 ∧ (p = [] → t = pageTable) by
    obtain ⟨t, hmake, htable, hne, -⟩ := hrun
    exact ⟨t, hmake, htable, hne⟩
  subst hroot
  induction p using List.reverseRecOn with
  | nil =>
    have hfirst := h.tableAt_root
    exact ⟨pageTable, rfl, ⟨hfirst.stop, hfirst.owner⟩, hne, fun _ => rfl⟩
  | append_singleton p i ih =>
    obtain ⟨t, hmake, htable, hne, hfirst⟩ := ih ((List.prefix_append p [i]).trans hp)
    obtain ⟨rest, hrest⟩ := hp.trans (List.take_prefix _ _)
    have hle := hp.length_le
    have hlevel := leaf_level hleaf
    have hfour := congrArg List.length hrest
    have hpath : (path va).length = 4 := rfl
    rw [List.length_take] at hle
    rw [List.length_append] at hfour
    have hrest' : leaf s.mem (higherHalfMem pageTable) (p ++ [i] ++ rest) = some (e, j) := by
      rw [hrest]
      exact hleaf
    have hleads := htable.leads hrest' (by omega)
    have hclear : s.mem (entryAddr (higherHalfMem t) i) &&& pPS = 0 := by
      obtain hone | hclear := hleads.2.2
      · obtain rfl : p = [] := by simpa using hone
        obtain rfl : i = index va 39 := by simpa [path] using congrArg List.head? hrest
        rw [hfirst rfl]
        exact h.top _ htop
      · exact hclear
    have hnext := xtGetOrMakePageTable_of_leads 0x07 hne hleads.2.1 hclear
    refine ⟨_, makeTables_concat hmake hnext, ⟨fun k => ?_, fun k => ?_⟩,
      higherHalfMem_ne_zero _, by simp⟩
    · rw [higherHalfMem_idem, Radix.stop_append (htable.stop i), zero_add,
        stop_of_leads (by simp) hleads, Radix.stop_nil]
    · rw [higherHalfMem_idem]
      exact h.owned.child (htable.owner i) (child_of_leads _ (by simp) hleads k)

/-- The entry of a large leaf. -/
theorem TableAt.large {va j : ℕ} (htable : TableAt root s owner ((path va).take (3 - j)) t)
    (hleaf : leaf s.mem root (path va) = some (e, j)) (hj : j ≠ 0) :
    s.mem (entryAddr t (index va (12 + 9 * j))) = e ∧ e &&& pPresent ≠ 0 ∧ e &&& pPS ≠ 0 := by
  have hslot : (path va).take (3 - j) ++ [index va (12 + 9 * j)] = leafSlot j va :=
    take_path_concat (leaf_level hleaf) va
  have hlen := leafSlot_length j va
  obtain ⟨rest, hrest⟩ : leafSlot j va <+: path va := List.take_prefix _ _
  have hrest4 := congrArg List.length hrest
  rw [List.length_append, hlen] at hrest4
  have hpath : (path va).length = 4 := rfl
  have hlevel := leaf_level hleaf
  obtain ⟨hword, hpresent, hleads⟩ := htable.ends (i := index va (12 + 9 * j)) (e := e) rest
    (by rw [hslot, hrest, hleaf, show rest.length = j by omega])
    (List.ne_nil_of_length_pos (by omega))
  rw [hslot, hlen] at hleads
  exact ⟨hword, hpresent, fun hclear => hleads ⟨by omega, hpresent, .inr hclear⟩⟩

/-- What a pass does that has a larger leaf in the way: the leaf is replaced, and one page more is
    taken for each table below it. -/
structure Blocked (root : ℕ) (top : Fin 512 → Prop) (s s' : State)
    (owner : Option ℕ → Option (List (Fin 512))) (va k j page e : ℕ) : Prop where
  inv : Inv root top s' owner
  head : s.pages.headD 0 = page
  aligned : page % 2 ^ 12 = 0 ∧ page < 2 ^ 52
  pages : s'.pages = s.pages.drop (j - k)
  leaf : ∀ v, leaf s'.mem root (path v) =
    if leafSlot j v = leafSlot j va then some (splitEntry page e, j) else leaf s.mem root (path v)
  has : ∀ r, ¬ leafSlot j va <+: r → (HasTable s'.mem root r ↔ HasTable s.mem root r)

theorem take_path_split {j k : ℕ} (hj : j ≤ 2) (hlt : k < j) (va : ℕ) :
    (path va).take (3 - k) = (path va).take (3 - j) ++
      index va (12 + 9 * j) :: ((path va).take (3 - k)).drop (4 - j) := by
  obtain ⟨rfl, rfl⟩ | ⟨rfl, rfl⟩ | ⟨rfl, rfl⟩ : j = 1 ∧ k = 0 ∨ j = 2 ∧ k = 0 ∨ j = 2 ∧ k = 1 := by
    omega
  · rfl
  · rfl
  · rfl

/-- A pass for a page in a larger leaf replaces that leaf, and the page it maps is in a table that
    no walk gets to. -/
theorem setPage_blocked {pageTable va pa size flags j pageSize : ℕ} (hne : pageTable ≠ 0)
    (h : Inv (higherHalfMem pageTable) top s owner) (htop : top (index va 39))
    (hpa : pa ≠ 2 ^ 64 - 1)
    (hleaf : leaf s.mem (higherHalfMem pageTable) (path va) = some (e, j))
    (hlt : levelFor va pa size < j)
    (hcall : setPage s pageTable va pa size flags = (s', .ok pageSize)) :
    ∃ page, Blocked (higherHalfMem pageTable) top s s' owner va (levelFor va pa size) j page e := by
  obtain ⟨-, s4, t4, hmake, rfl⟩ := setPage_ok_iff.mp hcall
  have hj := leaf_level hleaf
  set k := levelFor va pa size
  have hslot : (path va).take (3 - j) ++ [index va (12 + 9 * j)] = leafSlot j va :=
    take_path_concat hj va
  rw [take_path_split hj hlt] at hmake
  have hpop : Inv (higherHalfMem pageTable) top ⟨s.mem, []⟩ owner :=
    ⟨h.owned, h.absent, h.top, by simp, by simp, by simp, by simp⟩
  obtain ⟨t1, habove, htable, hne1⟩ := hpop.follow rfl hne htop hleaf (List.prefix_refl _)
  obtain ⟨hword, -, hps⟩ := htable.large hleaf (by omega)
  have hlen := congrArg List.length hslot
  rw [List.length_append, List.length_singleton, leafSlot_length] at hlen
  have hpath : (path va).length = 4 := rfl
  rw [makeTables_append_of_ok habove] at hmake
  -- the leaf itself is replaced
  rw [makeTables] at hmake
  rcases hnext : xtGetOrMakePageTable s t1 (index va (12 + 9 * j)) 0x07 with ⟨s2, r | t2⟩
  · rw [hnext] at hmake
    cases hmake
  rw [hnext] at hmake
  obtain ⟨page, hpages, halign, hlt52, hne2, hhigh2, hinv2, ho2, hzero2, hleaf2, hhas2⟩ :=
    h.replace_leaf htable hne1 (List.ne_nil_of_length_pos (by omega)) (by rwa [hword]) hnext
  rw [hword, hslot] at hleaf2
  rw [hslot] at hhas2
  -- and the tables further down are not in the tree
  obtain ⟨hsame, ho4, hpages4⟩ := hinv2.make_orphans ho2 hne2 hhigh2 hzero2 hmake
  obtain ⟨hinv5, hleaf5, hhas5⟩ := hsame.trans (hsame.inv.set_orphan ho4 (index va (12 + 9 * k))
    ((pa &&& addrMask) ||| leafFlags flags k))
  rw [setLeaf_eq hpa]
  refine ⟨page, hinv5, by rw [hpages]; rfl, ⟨halign, hlt52⟩, ?_, fun v => ?_,
    fun r hr => (hhas5 r).trans (hhas2 r hr)⟩
  · change s4.pages = _
    have htake : (((path va).take (3 - k)).drop (4 - j)).length = j - k - 1 := by
      rw [List.length_drop, List.length_take, hpath]
      omega
    rw [hpages4, hpages, htake, show j - k = (j - k - 1) + 1 by omega, List.drop_succ_cons]
    rfl
  · rw [hleaf5, hleaf2 _ rfl, leafSlot_length, show 4 - (4 - j) = j by omega]
    exact if_congr (leafSlot_prefix_iff j va v) rfl rfl

end step

/-! ### The large leaves in the way -/

/-- The large leaves that a call replaces, with the pages for the tables put in their place. -/
def splits (mem : ℕ → ℕ) (root : ℕ) (rest : List (ℕ × ℕ)) (made : List (List (Fin 512)))
    (pages : List ℕ) : List (List (Fin 512) × ℕ) :=
  ((newTables mem root rest made pages).filter (·.large)).map fun x => (x.indices, x.page)

section splits

variable {mem mem' : ℕ → ℕ} {root va k : ℕ} {rest : List (ℕ × ℕ)}
  {made made' : List (List (Fin 512))} {pages : List ℕ}

theorem splits_of_free (hfree : inTheWay mem root va k = none) :
    splits mem root ((va, k) :: rest) made pages =
      splits mem root rest (made ++ missing mem root made ((path va).take (3 - k)))
        (pages.drop (missing mem root made ((path va).take (3 - k))).length) := by
  have hsmall : ∀ l : List (List (Fin 512) × ℕ),
      (l.map fun x => NewTable.mk x.1 x.2 false).filter (·.large) = [] := by
    intro l
    rw [List.filter_eq_nil_iff]
    intro x hx
    obtain ⟨y, -, rfl⟩ := List.mem_map.mp hx
    exact Bool.false_ne_true
  rw [splits, newTables_of_free hfree, List.filter_append, hsmall, List.nil_append]
  rfl

theorem splits_of_blocked {j : ℕ} (hway : inTheWay mem root va k = some j) :
    splits mem root ((va, k) :: rest) made pages =
      (leafSlot j va, pages.headD 0) :: splits mem root rest made (pages.drop (j - k)) := by
  rw [splits, newTables_of_blocked hway]
  rfl

theorem splits_congr
    (hway : ∀ x ∈ rest, inTheWay mem' root x.1 x.2 = inTheWay mem root x.1 x.2)
    (hhas : ∀ x ∈ rest, inTheWay mem root x.1 x.2 = none → ∀ r, r <+: (path x.1).take (3 - x.2) →
      (HasTable mem' root r ∨ r ∈ made' ↔ HasTable mem root r ∨ r ∈ made)) :
    splits mem' root rest made' pages = splits mem root rest made pages := by
  rw [splits, splits, newTables_congr hway hhas]

end splits

/-- The bits of all pages that are put in the place of the leaf in a slot. -/
def newBits (new : List (List (Fin 512) × ℕ)) (r : List (Fin 512)) : ℕ :=
  ((new.filter (·.1 = r)).map (·.2)).foldr (· ||| ·) 0

theorem newBits_cons_self (r : List (Fin 512)) (page : ℕ) (new : List (List (Fin 512) × ℕ)) :
    newBits ((r, page) :: new) r = page ||| newBits new r := by
  simp [newBits]

theorem newBits_cons_of_ne {r q : List (Fin 512)} (page : ℕ) (new : List (List (Fin 512) × ℕ))
    (h : q ≠ r) : newBits ((q, page) :: new) r = newBits new r := by
  simp [newBits, h]

theorem newBits_eq_zero {r : List (Fin 512)} {new : List (List (Fin 512) × ℕ)}
    (h : r ∉ new.map Prod.fst) : newBits new r = 0 := by
  have hnil : new.filter (·.1 = r) = [] := by
    rw [List.filter_eq_nil_iff]
    intro b hb
    rw [decide_eq_true_eq]
    rintro rfl
    exact h (List.mem_map_of_mem hb)
  rw [newBits, hnil]
  rfl

/-- A pass maps its page, or it replaces the large leaf in the way. -/
theorem setPage_cases {s s' : State} {top : Fin 512 → Prop}
    {owner : Option ℕ → Option (List (Fin 512))} {pageTable va pa size attr pageSize : ℕ}
    (hne : pageTable ≠ 0) (h : Inv (higherHalfMem pageTable) top s owner)
    (hpa : pa % 2 ^ 12 = 0) (htop : top (index va 39))
    (hcall : setPage s pageTable va pa size (xtBuildFlags attr) = (s', .ok pageSize)) :
    inTheWay s.mem (higherHalfMem pageTable) va (levelFor va pa size) = none ∧
      Passed (higherHalfMem pageTable) top s s' va pa (levelFor va pa size) (xtBuildFlags attr) ∨
    ∃ e j page, leaf s.mem (higherHalfMem pageTable) (path va) = some (e, j) ∧
      levelFor va pa size < j ∧
      Blocked (higherHalfMem pageTable) top s s' owner va (levelFor va pa size) j page e := by
  by_cases hfree : ∀ e j, leaf s.mem (higherHalfMem pageTable) (path va) = some (e, j) →
      j ≤ levelFor va pa size
  · exact .inl ⟨inTheWay_eq_none_iff.mpr hfree, setPage_tables hne h hpa htop hfree hcall⟩
  · push Not at hfree
    obtain ⟨e, j, he, hlt⟩ := hfree
    obtain ⟨page, hblocked⟩ := setPage_blocked hne h htop (by omega) he hlt hcall
    exact .inr ⟨e, j, page, he, hlt, hblocked⟩

/-! ### What a call maps -/

/-- The leaf of `v` is one of those replaced. -/
def Replaced (mem : ℕ → ℕ) (root : ℕ) (new : List (List (Fin 512) × ℕ)) (v : ℕ) : Prop :=
  ∃ e k, leaf mem root (path v) = some (e, k) ∧ leafSlot k v ∈ new.map Prod.fst

/-- The mapping after a range was set with the large leaves `new` in the way: those that were
    replaced have the bits of the pages in their address, the rest of the range is mapped and the
    rest of the other addresses is as before. -/
structure AfterSplits (root : ℕ) (mem mem' : ℕ → ℕ) (flags va pa size : ℕ)
    (new : List (List (Fin 512) × ℕ)) : Prop where
  slots : ∀ r ∈ new.map Prod.fst, ∃ u, va ≤ u ∧ u < va + size ∧
    ∃ e k, k ≠ 0 ∧ leaf mem root (path u) = some (e, k) ∧ r = leafSlot k u
  replaced : ∀ v e k, Canonical v → leaf mem root (path v) = some (e, k) →
    leafSlot k v ∈ new.map Prod.fst → ∃ e', leaf mem' root (path v) = some (e', k) ∧
    e' &&& addrMask = (e &&& addrMask) ||| newBits new (leafSlot k v)
  mapped : ∀ v, va ≤ v → v < va + size → ¬ Replaced mem root new v →
    Mapped mem' root flags v ((pa + (v - va)) % 2 ^ 52)
  kept : ∀ v, Canonical v → v < va ∨ va + size ≤ v → ¬ Replaced mem root new v →
    leaf mem' root (path v) = leaf mem root (path v)

section after

variable {root va pa size attr j : ℕ} {mem mem1 mem' : ℕ → ℕ} {new : List (List (Fin 512) × ℕ)}

theorem AfterSplits.refl (root flags va pa : ℕ) (mem : ℕ → ℕ) :
    AfterSplits root mem mem flags va pa 0 [] :=
  ⟨by simp, by simp, fun v h1 h2 => absurd h2 (by omega), fun _ _ _ _ => rfl⟩

/-- A pass that maps its page, and then the rest of the range. -/
theorem AfterSplits.map (hj : j ≤ 2) (hva : va % 2 ^ (12 + 9 * j) = 0)
    (hpa : pa % 2 ^ (12 + 9 * j) = 0) (hle : 2 ^ (12 + 9 * j) ≤ size) (hhalf : InHalf va size)
    (hfree : ∀ e k, leaf mem root (path va) = some (e, k) → k ≤ j)
    (hleaf : ∀ v, leaf mem1 root (path v) = if leafSlot j v = leafSlot j va then
      some (leafEntry pa (xtBuildFlags attr) j, j) else leaf mem root (path v))
    (h : AfterSplits root mem1 mem' (xtBuildFlags attr) (va + 2 ^ (12 + 9 * j))
      (pa + 2 ^ (12 + 9 * j)) (size - 2 ^ (12 + 9 * j)) new) :
    AfterSplits root mem mem' (xtBuildFlags attr) va pa size new := by
  have hpos : 0 < 2 ^ (12 + 9 * j) := Nat.two_pow_pos _
  have hcanon : ∀ {v}, va ≤ v → v < va + size → Canonical v := fun h1 h2 => hhalf.canonical h1 h2
  have hcva : Canonical va := hcanon le_rfl (by omega)
  have hpage : ∀ {v}, Canonical v →
      (leafSlot j v = leafSlot j va ↔ va ≤ v ∧ v < va + 2 ^ (12 + 9 * j)) :=
    fun hv => leafSlot_eq_page_iff hj hva hcva hv
  have hother : ∀ {v}, leafSlot j v ≠ leafSlot j va →
      leaf mem1 root (path v) = leaf mem root (path v) := fun hv => by rw [hleaf, if_neg hv]
  have hrest : ∀ {u}, va + 2 ^ (12 + 9 * j) ≤ u → u < va + size → leafSlot j u ≠ leafSlot j va := by
    intro u h1 h2 heq
    have := (hpage (hcanon (by omega) h2)).mp heq
    omega
  -- no leaf that is replaced later on is that of an address in the page
  have hnew : ∀ {v k}, k ≤ 2 → leafSlot j v = leafSlot j va → leafSlot k v ∈ new.map Prod.fst →
      j < k ∧ ∃ e, leaf mem root (path v) = some (e, k) := by
    intro v k hk hv hin
    obtain ⟨u, h1, h2, e, k', -, he, hslot⟩ := h.slots _ hin
    obtain rfl := leafSlot_level (by omega) (by have := leaf_level he; omega) hslot
    have hu := hrest h1 (by omega)
    refine ⟨?_, e, ?_⟩
    · by_contra hkj
      exact hu ((leafSlot_mono (not_lt.mp hkj) hslot).symm.trans hv)
    · rw [hother hu] at he
      exact leaf_of_leafSlot he hslot
  have hfar : ∀ {v}, leafSlot j v = leafSlot j va → ¬ Replaced mem root new v := by
    rintro v hv ⟨e, k, he, hin⟩
    obtain ⟨hjk, -⟩ := hnew (leaf_level he) hv hin
    have := hfree e k (leaf_of_leafSlot he (leafSlot_mono hjk.le hv.symm))
    omega
  have hkeep : ∀ {v}, leafSlot j v ≠ leafSlot j va → Replaced mem1 root new v →
      Replaced mem root new v := by
    rintro v hv ⟨e, k, he, hin⟩
    exact ⟨e, k, by rw [← hother hv, he], hin⟩
  refine ⟨fun r hr => ?_, fun v e k hc he hin => ?_, fun v h1 h2 hnot => ?_,
    fun v hv hout hnot => ?_⟩
  · obtain ⟨u, h1, h2, e, k, hk, he, hslot⟩ := h.slots r hr
    rw [hother (hrest h1 (by omega))] at he
    exact ⟨u, by omega, by omega, e, k, hk, he, hslot⟩
  · by_cases hv : leafSlot j v = leafSlot j va
    · exact absurd ⟨e, k, he, hin⟩ (hfar hv)
    · exact h.replaced v e k hc (by rw [hother hv, he]) hin
  · by_cases hv : leafSlot j v = leafSlot j va
    · have hlt := (hpage (hcanon h1 h2)).mp hv
      have hmem1 : leaf mem1 root (path v) = some (leafEntry pa (xtBuildFlags attr) j, j) := by
        rw [hleaf, if_pos hv]
      have hnot1 : ¬ Replaced mem1 root new v := by
        rintro ⟨e, k, he, hin⟩
        rw [hmem1, Option.some.injEq, Prod.mk.injEq] at he
        obtain ⟨-, rfl⟩ := he
        exact lt_irrefl _ (hnew hj hv hin).1
      have hpa' : pa % 2 ^ 12 = 0 := by
        rw [pow_add] at hpa
        exact Nat.mod_eq_zero_of_dvd (dvd_of_mul_right_dvd (Nat.dvd_of_mod_eq_zero hpa))
      exact ⟨_, j, by rw [h.kept v (hcanon h1 h2) (.inl hlt.2) hnot1, hmem1],
        leafEntry_addr attr hj hpa hva h1 hlt.2, leafEntry_flags attr j hpa'⟩
    · have hge : va + 2 ^ (12 + 9 * j) ≤ v := by
        by_contra hlt
        exact hv ((hpage (hcanon h1 h2)).mpr ⟨h1, by omega⟩)
      have hmap := h.mapped v hge (by omega) fun hr => hnot (hkeep hv hr)
      rwa [show pa + 2 ^ (12 + 9 * j) + (v - (va + 2 ^ (12 + 9 * j))) = pa + (v - va) by
        omega] at hmap
  · have hv' : leafSlot j v ≠ leafSlot j va := by
      intro heq
      have := (hpage hv).mp heq
      omega
    rw [h.kept v hv (by omega) fun hr => hnot (hkeep hv' hr), hother hv']

/-- A pass that replaces the leaf in the way, and then the rest of the range. -/
theorem AfterSplits.split {e k page : ℕ} (hjk : j < k)
    (hva : va % 2 ^ (12 + 9 * j) = 0) (hle : 2 ^ (12 + 9 * j) ≤ size) (hhalf : InHalf va size)
    (halign : page % 2 ^ 12 = 0) (hlt : page < 2 ^ 52)
    (hin : leaf mem root (path va) = some (e, k))
    (hleaf : ∀ v, leaf mem1 root (path v) = if leafSlot k v = leafSlot k va then
      some (splitEntry page e, k) else leaf mem root (path v))
    (hnext : ∀ u, va + 2 ^ (12 + 9 * j) ≤ u → u < va + size → leafSlot k u = leafSlot k va →
      leafSlot k va ∈ new.map Prod.fst)
    (h : AfterSplits root mem1 mem' (xtBuildFlags attr) (va + 2 ^ (12 + 9 * j))
      (pa + 2 ^ (12 + 9 * j)) (size - 2 ^ (12 + 9 * j)) new) :
    AfterSplits root mem mem' (xtBuildFlags attr) va pa size ((leafSlot k va, page) :: new) := by
  have hk := leaf_level hin
  have hpos : 0 < 2 ^ (12 + 9 * j) := Nat.two_pow_pos _
  have hcanon : ∀ {v}, va ≤ v → v < va + size → Canonical v := fun h1 h2 => hhalf.canonical h1 h2
  have hsame : ∀ {v}, leafSlot k v = leafSlot k va →
      leaf mem root (path v) = some (e, k) ∧ leaf mem1 root (path v) = some (splitEntry page e, k) :=
    fun hv => ⟨leaf_of_leafSlot hin hv, by rw [hleaf, if_pos hv]⟩
  have hother : ∀ {v}, leafSlot k v ≠ leafSlot k va →
      leaf mem1 root (path v) = leaf mem root (path v) := fun hv => by rw [hleaf, if_neg hv]
  have hnot : ∀ {v}, ¬ Replaced mem root ((leafSlot k va, page) :: new) v →
      leafSlot k v ≠ leafSlot k va ∧ ¬ Replaced mem1 root new v := by
    intro v hv
    have hne : leafSlot k v ≠ leafSlot k va :=
      fun heq => hv ⟨e, k, (hsame heq).1, by rw [heq]; exact List.mem_cons_self⟩
    refine ⟨hne, ?_⟩
    rintro ⟨e', k', he', hin'⟩
    exact hv ⟨e', k', by rw [← hother hne, he'], List.mem_cons_of_mem _ hin'⟩
  refine ⟨fun r hr => ?_, fun v e' k' hc he' hin' => ?_, fun v h1 h2 hv => ?_,
    fun v hv hout hnr => ?_⟩
  · obtain rfl | hr := List.mem_cons.mp hr
    · exact ⟨va, le_rfl, by omega, e, k, by omega, hin, rfl⟩
    obtain ⟨u, h1, h2, e', k', hk', he', hslot⟩ := h.slots r hr
    refine ⟨u, by omega, by omega, ?_⟩
    by_cases hu : leafSlot k u = leafSlot k va
    · rw [(hsame hu).2, Option.some.injEq, Prod.mk.injEq] at he'
      obtain ⟨-, rfl⟩ := he'
      exact ⟨e, k, hk', (hsame hu).1, hslot⟩
    · exact ⟨e', k', hk', by rw [← hother hu, he'], hslot⟩
  · by_cases hv : leafSlot k v = leafSlot k va
    · have hold := (hsame hv).1
      rw [he', Option.some.injEq, Prod.mk.injEq] at hold
      obtain ⟨rfl, rfl⟩ := hold
      rw [hv, newBits_cons_self]
      by_cases hagain : leafSlot k' va ∈ new.map Prod.fst
      · obtain ⟨e2, he2, haddr⟩ := h.replaced v _ k' hc (hsame hv).2 (by rwa [hv])
        refine ⟨e2, he2, ?_⟩
        rw [haddr, splitEntry_and_addrMask e' halign hlt, hv, Nat.or_assoc]
      · -- the rest of the range is not in the large page
        have hout : v < va + 2 ^ (12 + 9 * j) ∨ va + size ≤ v := by
          by_contra hrange
          exact hagain (hnext v (by omega) (by omega) hv)
        have hnr : ¬ Replaced mem1 root new v := by
          rintro ⟨e2, k2, he2, hin2⟩
          rw [(hsame hv).2, Option.some.injEq, Prod.mk.injEq] at he2
          rw [← he2.2, hv] at hin2
          exact hagain hin2
        refine ⟨_, by rw [h.kept v hc (by omega) hnr, (hsame hv).2], ?_⟩
        rw [splitEntry_and_addrMask e' halign hlt, newBits_eq_zero hagain, Nat.or_zero]
    · have hne : leafSlot k va ≠ leafSlot k' v := by
        intro heq
        obtain rfl := leafSlot_level (by omega) (by have := leaf_level he'; omega) heq
        exact hv heq.symm
      rw [newBits_cons_of_ne page new hne]
      obtain heq | hin' := List.mem_cons.mp hin'
      · exact absurd heq.symm hne
      · exact h.replaced v e' k' hc (by rw [hother hv, he']) hin'
  · have hge : va + 2 ^ (12 + 9 * j) ≤ v := by
      by_contra hlt'
      have hpage := (leafSlot_eq_page_iff (v := v) (by omega) hva (hcanon le_rfl (by omega))
        (hcanon h1 h2)).mpr ⟨h1, by omega⟩
      exact (hnot hv).1 (leafSlot_mono hjk.le hpage)
    have hmap := h.mapped v hge (by omega) (hnot hv).2
    rwa [show pa + 2 ^ (12 + 9 * j) + (v - (va + 2 ^ (12 + 9 * j))) = pa + (v - va) by
      omega] at hmap
  · rw [h.kept v hv (by omega) (hnot hnr).2, hother (hnot hnr).1]

end after

/-- A range that goes on in a large leaf has it in the way again. -/
theorem splits_head {mem : ℕ → ℕ} {root fuel va pa size e j : ℕ} (hva : va % 2 ^ 12 = 0)
    (hpa : pa % 2 ^ 12 = 0) (hsize : size % 2 ^ 12 = 0) (hpos : size ≠ 0)
    (hleaf : leaf mem root (path va) = some (e, j)) (hmid : va % 2 ^ (12 + 9 * j) ≠ 0)
    (made : List (List (Fin 512))) (pages : List ℕ) :
    leafSlot j va ∈ (splits mem root (pagesOf (fuel + 1) va pa size) made pages).map Prod.fst := by
  obtain ⟨hvak, -, -⟩ := levelFor_spec hva hpa hsize hpos
  have hlt : levelFor va pa size < j := by
    by_contra hle
    have hdvd : 2 ^ (12 + 9 * j) ∣ 2 ^ (12 + 9 * levelFor va pa size) :=
      Nat.pow_dvd_pow 2 (by omega)
    exact hmid (Nat.mod_eq_zero_of_dvd (hdvd.trans (Nat.dvd_of_mod_eq_zero hvak)))
  rw [pagesOf, if_neg hpos]
  dsimp only
  rw [splits_of_blocked (inTheWay_of_leaf hleaf hlt)]
  exact List.mem_cons_self

/-- **Run**: what a call that succeeds maps. -/
theorem setPagesLoop_splits {s s' : State} {top : Fin 512 → Prop}
    {owner : Option ℕ → Option (List (Fin 512))} {pageTable attr : ℕ} (hne : pageTable ≠ 0)
    (fuel : ℕ) {va pa size : ℕ} (h : Inv (higherHalfMem pageTable) top s owner)
    (hva : va % 2 ^ 12 = 0) (hpa : pa % 2 ^ 12 = 0) (hsize : size % 2 ^ 12 = 0)
    (hhalf : InHalf va size) (hend : pa + size < 2 ^ 64)
    (htop : ∀ v, va ≤ v → v < va + size → top (index v 39))
    (hcall : setPagesLoop pageTable (xtBuildFlags attr) fuel s va pa size = some (s', .success)) :
    AfterSplits (higherHalfMem pageTable) s.mem s'.mem (xtBuildFlags attr) va pa size
      (splits s.mem (higherHalfMem pageTable) (pagesOf fuel va pa size) [] s.pages) := by
  induction fuel generalizing s owner va pa size with
  | zero => cases hcall
  | succ fuel ih =>
    rw [setPagesLoop] at hcall
    rw [pagesOf]
    by_cases hzero : size = 0
    · subst hzero
      rw [if_pos rfl] at hcall ⊢
      cases hcall
      exact AfterSplits.refl _ _ _ _ _
    rw [if_neg hzero] at hcall ⊢
    dsimp only
    rcases hpage : setPage s pageTable va pa size (xtBuildFlags attr) with ⟨s1, r | pageSize⟩
    · rw [hpage] at hcall
      cases hcall
      exact absurd rfl (setPage_error hpage)
    rw [hpage] at hcall
    dsimp only at hcall
    obtain ⟨rfl, -⟩ := setPage_ok_iff.mp hpage
    have hcases := setPage_cases hne h hpa (htop va le_rfl (by omega)) hpage
    obtain ⟨hvak, hpak, hle⟩ := levelFor_spec hva hpa hsize hzero
    have hk := levelFor_le va pa size
    set k := levelFor va pa size
    have hmul : 2 ^ (12 + 9 * k) = 2 ^ 12 * 2 ^ (9 * k) := pow_add 2 12 (9 * k)
    have hpos : 0 < 2 ^ (9 * k) := Nat.two_pow_pos _
    set pageSize := 2 ^ (12 + 9 * k)
    have hhalf' := hhalf
    unfold InHalf at hhalf'
    have hcanon : ∀ {v}, va ≤ v → v < va + size → Canonical v := fun h1 h2 => hhalf.canonical h1 h2
    rw [show (size + (2 ^ 64 - pageSize)) % 2 ^ 64 = size - pageSize by omega,
      Nat.mod_eq_of_lt (show pa + pageSize < 2 ^ 64 by omega)] at hcall
    -- the address wraps only after the last page
    have hrest : ∀ {owner1}, Inv (higherHalfMem pageTable) top s1 owner1 →
        AfterSplits (higherHalfMem pageTable) s1.mem s'.mem (xtBuildFlags attr)
          (va + pageSize) (pa + pageSize) (size - pageSize) (splits s1.mem (higherHalfMem pageTable)
            (pagesOf fuel (va + pageSize) (pa + pageSize) (size - pageSize)) [] s1.pages) := by
      intro owner1 hinv1
      by_cases hlast : size - pageSize = 0
      · rw [hlast] at hcall ⊢
        cases fuel with
        | zero => cases hcall
        | succ fuel =>
          rw [setPagesLoop, if_pos rfl] at hcall
          cases hcall
          rw [pagesOf, if_pos rfl]
          exact AfterSplits.refl _ _ _ _ _
      · rw [Nat.mod_eq_of_lt (show va + pageSize < 2 ^ 64 by omega)] at hcall
        exact ih hinv1 (by omega) (by omega) (by omega) (by unfold InHalf; omega) (by omega)
          (fun v h1 h2 => htop v (by omega) (by omega)) hcall
    have hlater : ∀ x ∈ pagesOf fuel (va + pageSize) (pa + pageSize) (size - pageSize),
        x.2 ≤ 2 ∧ Canonical x.1 ∧ va + pageSize ≤ x.1 := by
      intro x hx
      obtain ⟨h1, h2, -, h4⟩ := mem_pagesOf (by omega) (by omega) (by omega) hx
      have hx2 := Nat.two_pow_pos (12 + 9 * x.2)
      exact ⟨h1, hcanon (by omega) (by omega), h2⟩
    obtain ⟨hway, hpass⟩ | ⟨e, j, page, he, hkj, hblocked⟩ := hcases
    · obtain ⟨owner1, hinv1⟩ := hpass.inv
      rw [splits_of_free hway, List.nil_append, ← hpass.pages]
      have hout : ∀ x ∈ pagesOf fuel (va + pageSize) (pa + pageSize) (size - pageSize),
          leafSlot k x.1 ≠ leafSlot k va := by
        intro x hx heq
        obtain ⟨-, h2, h3⟩ := hlater x hx
        have := (leafSlot_eq_page_iff hk hvak (hcanon le_rfl (by omega)) h2).mp heq
        omega
      have hsame := hpass.newTables_rest hout
      rw [← hpass.pages] at hsame
      rw [splits, hsame]
      exact (hrest hinv1).map hk hvak hpak hle hhalf (inTheWay_eq_none_iff.mp hway) hpass.leaf
    · rw [splits_of_blocked (inTheWay_of_leaf he hkj), hblocked.head, ← hblocked.pages]
      have hj := leaf_level he
      have hsame := @splits_congr s.mem s1.mem (higherHalfMem pageTable)
        (pagesOf fuel (va + pageSize) (pa + pageSize) (size - pageSize)) [] [] s1.pages
        (fun x hx => by
          rw [inTheWay, inTheWay, hblocked.leaf]
          split_ifs with heq
          · rw [leaf_of_leafSlot he heq]
          · rfl)
        (fun x hx hnone r hr => by
          obtain ⟨hx2, -, -⟩ := hlater x hx
          rw [hblocked.has r fun hpre => ?_]
          -- an address in the large page has its leaf in the way
          have heq := (leafSlot_prefix_iff _ _ _).mp (hpre.trans (hr.trans (List.take_prefix _ _)))
          have hlen := (hpre.trans hr).length_le
          rw [leafSlot_length, List.length_take] at hlen
          rw [inTheWay_of_leaf (leaf_of_leafSlot he heq) (by omega)] at hnone
          cases hnone)
      rw [← hsame]
      refine (hrest hblocked.inv).split hkj hvak hle hhalf hblocked.aligned.1 hblocked.aligned.2 he
        hblocked.leaf fun u h1 h2 hu => ?_
      -- the next address is in the large page, and not its first one
      have hcva : Canonical va := hcanon le_rfl (by omega)
      have hdiv := (leafSlot_eq_iff hj (hcanon (by omega) h2) hcva).mp hu
      have hdiv' : (va + pageSize) / 2 ^ (12 + 9 * j) = va / 2 ^ (12 + 9 * j) := by
        refine le_antisymm ?_ (Nat.div_le_div_right (by omega))
        rw [← hdiv]
        exact Nat.div_le_div_right h1
      have hslot := (leafSlot_eq_iff hj (hcanon (by omega) (by omega)) hcva).mpr hdiv'
      have hnew : leaf s1.mem (higherHalfMem pageTable) (path (va + pageSize)) =
          some (splitEntry page e, j) := by rw [hblocked.leaf, if_pos hslot]
      obtain ⟨fuel, rfl⟩ : ∃ n, fuel = n + 1 := by
        cases fuel with
        | zero => cases hcall
        | succ n => exact ⟨n, rfl⟩
      rw [← hslot]
      refine splits_head (by omega) (by omega) (by omega) (by omega) hnew (fun hmid => ?_) _ _
      have hbase := Nat.div_mul_cancel (Nat.dvd_of_mod_eq_zero hmid)
      have hfloor := Nat.div_mul_le_self va (2 ^ (12 + 9 * j))
      rw [hdiv'] at hbase
      omega

/-! ### When large pages are split -/

/-- The range is mapped, and the other addresses of a large page that it overlaps have the
    physical address they had. -/
structure SplitsPages (mem mem' : ℕ → ℕ) (pageTable va pa size : ℕ) : Prop where
  inside : ∀ o < size, xtGetPhysicalAddress mem' pageTable (va + o) = .ok (pa + o)
  outside : ∀ v e k, Canonical v → v < va ∨ va + size ≤ v → k ≠ 0 →
    leaf mem (higherHalfMem pageTable) (path v) = some (e, k) →
    (∃ o < size, (va + o) / 2 ^ (12 + 9 * k) = v / 2 ^ (12 + 9 * k)) →
    xtGetPhysicalAddress mem' pageTable v = xtGetPhysicalAddress mem pageTable v

/-- Each leaf that is replaced maps its page as it should, even with the bits of the new tables in
    its address. -/
def BitsFit (mem : ℕ → ℕ) (pageTable va pa size : ℕ) (new : List (List (Fin 512) × ℕ)) : Prop :=
  ∀ v e k, Canonical v → leaf mem (higherHalfMem pageTable) (path v) = some (e, k) →
    leafSlot k v ∈ new.map Prod.fst →
    (e &&& addrMask) ||| newBits new (leafSlot k v) ||| (v &&& (2 ^ (12 + 9 * k) - 1)) =
      if va ≤ v ∧ v < va + size then pa + (v - va)
      else (e &&& addrMask) ||| (v &&& (2 ^ (12 + 9 * k) - 1))

/-- Physical addresses have 52 bits. -/
theorem xtGetPhysicalAddress_lt {mem : ℕ → ℕ} {pageTable v x : ℕ} (hne : pageTable ≠ 0)
    (h : xtGetPhysicalAddress mem pageTable v = .ok x) : x < 2 ^ 52 := by
  rw [xtGetPhysicalAddress_eq hne] at h
  cases hleaf : leaf mem (higherHalfMem pageTable) (path v) with
  | none =>
    rw [hleaf] at h
    cases h
  | some x =>
    obtain ⟨e, k⟩ := x
    rw [hleaf] at h
    cases h
    have hk := leaf_level hleaf
    refine Nat.or_lt_two_pow ?_ ?_
    · rw [and_addrMask]
      omega
    · have hlt : 2 ^ (12 + 9 * k) ≤ 2 ^ 52 := Nat.pow_le_pow_right (by decide) (by omega)
      have hpos : 0 < 2 ^ (12 + 9 * k) := Nat.two_pow_pos _
      have hle : v &&& (2 ^ (12 + 9 * k) - 1) ≤ 2 ^ (12 + 9 * k) - 1 := Nat.and_le_right
      omega

/-- **Splitting large pages**: a call that succeeds maps its range and leaves the rest of the large
    pages that it overlaps as it was, if and only if the physical range has 52-bit addresses and
    each large leaf in the way has the right address with the bits of the new tables. -/
theorem splitsPages_iff {s s' : State} {fuel pageTable va pa size attributes : ℕ}
    (ht : Tree s.mem pageTable) (hf : Fresh s pageTable) (hva : va % 2 ^ 12 = 0)
    (hpa : pa % 2 ^ 12 = 0) (hpa52 : pa < 2 ^ 52) (hsize : size % 2 ^ 12 = 0)
    (hhalf : InHalf va size) (htop : ∀ o < size, TopClear s.mem pageTable (va + o))
    (hcall : xtSetPages fuel s pageTable va pa size attributes = some (s', .success)) :
    SplitsPages s.mem s'.mem pageTable va pa size ↔
      pa + size ≤ 2 ^ 52 ∧ BitsFit s.mem pageTable va pa size
        (splits s.mem (higherHalfMem pageTable) (pagesOf fuel va pa size) [] s.pages) := by
  have hne : pageTable ≠ 0 := by
    rintro rfl
    cases hcall
  rw [xtSetPages, if_neg hne] at hcall
  obtain ⟨owner, hinv⟩ := ht.exists_inv hf
  have hafter := setPagesLoop_splits hne fuel hinv hva hpa hsize hhalf
    (by unfold InHalf at hhalf; omega)
    (fun v h1 h2 => by
      have := htop (v - va) (by omega)
      rwa [show va + (v - va) = v by omega] at this) hcall
  have hcanon : ∀ {v}, va ≤ v → v < va + size → Canonical v := fun h1 h2 => hhalf.canonical h1 h2
  set new := splits s.mem (higherHalfMem pageTable) (pagesOf fuel va pa size) [] s.pages
  -- the address of a replaced leaf
  have haddr : ∀ {v e k}, Canonical v →
      leaf s.mem (higherHalfMem pageTable) (path v) = some (e, k) →
      leafSlot k v ∈ new.map Prod.fst → xtGetPhysicalAddress s'.mem pageTable v =
        .ok ((e &&& addrMask) ||| newBits new (leafSlot k v) ||| (v &&& (2 ^ (12 + 9 * k) - 1))) := by
    intro v e k hv he hin
    obtain ⟨e', he', hbits⟩ := hafter.replaced v e k hv he hin
    rw [xtGetPhysicalAddress_of_leaf hne he', hbits]
  constructor
  · intro hsplit
    refine ⟨?_, fun v e k hv he hin => ?_⟩
    · by_contra hpast
      have hlast := xtGetPhysicalAddress_lt hne (hsplit.inside (size - 1) (by omega))
      omega
    · have hnew := haddr hv he hin
      split_ifs with hrange
      · have hin' := hsplit.inside (v - va) (by omega)
        rw [show va + (v - va) = v by omega, hnew, Except.ok.injEq] at hin'
        exact hin'
      · obtain ⟨u, h1, h2, e2, k2, hk2, he2, hslot⟩ := hafter.slots _ hin
        obtain rfl := leafSlot_level (by have := leaf_level he; omega)
          (by have := leaf_level he2; omega) hslot
        have hdiv := (leafSlot_eq_iff (leaf_level he) hv (hcanon h1 h2)).mp hslot
        have hout := hsplit.outside v e k hv (by omega) hk2 he
          ⟨u - va, by omega, by rw [show va + (u - va) = u by omega, hdiv]⟩
        rw [hnew, xtGetPhysicalAddress_of_leaf hne he, Except.ok.injEq] at hout
        exact hout
  · rintro ⟨hend, hfit⟩
    refine ⟨fun o ho => ?_, fun v e k hv hout _ he _ => ?_⟩
    · have hv : Canonical (va + o) := hcanon (by omega) (by omega)
      by_cases hrep : Replaced s.mem (higherHalfMem pageTable) new (va + o)
      · obtain ⟨e, k, he, hin⟩ := hrep
        rw [haddr hv he hin, hfit _ e k hv he hin, if_pos ⟨by omega, by omega⟩,
          Nat.add_sub_cancel_left]
      · have hmap := hafter.mapped (va + o) (by omega) (by omega) hrep
        rw [Nat.add_sub_cancel_left, Nat.mod_eq_of_lt (by omega)] at hmap
        exact xtGetPhysicalAddress_of_mapped hne hmap
    · by_cases hin : leafSlot k v ∈ new.map Prod.fst
      · rw [haddr hv he hin, hfit v e k hv he hin, if_neg (by omega),
          xtGetPhysicalAddress_of_leaf hne he]
      · have hnr : ¬ Replaced s.mem (higherHalfMem pageTable) new v := by
          rintro ⟨e2, k2, he2, hin2⟩
          rw [he, Option.some.injEq, Prod.mk.injEq] at he2
          rw [← he2.2] at hin2
          exact hin hin2
        rw [xtGetPhysicalAddress_eq hne, xtGetPhysicalAddress_eq hne, hafter.kept v hv hout hnr]

/-! ### A page in a large page -/

/-- A 2 MiB page at `0x400000`, mapped to `0x600000`, and one page to allocate. -/
def largePage (page : ℕ) : State :=
  (setPage ⟨fun _ => 0, [0x2000, 0x3000, page]⟩ 0x1000 0x400000 0x600000 0x200000
    (xtBuildFlags 0x800)).1

theorem largePage_tree {page : ℕ} (hpage : page ∈ [0x4000, 0x200000]) :
    Tree (largePage page).mem 0x1000 ∧ Fresh (largePage page) 0x1000 := by
  have hfresh : Fresh ⟨fun _ => 0, [0x2000, 0x3000, page]⟩ 0x1000 := by
    obtain rfl | rfl : page = 0x4000 ∨ page = 0x200000 := by simpa using hpage
    · exact zero_fresh (by decide) (by decide) (by decide)
    · exact zero_fresh (by decide) (by decide) (by decide)
  have htree : Tree (⟨fun _ => 0, [0x2000, 0x3000, page]⟩ : State).mem 0x1000 := emptyState_tree.1
  have hcall : setPage ⟨fun _ => 0, [0x2000, 0x3000, page]⟩ 0x1000 0x400000 0x600000 0x200000
      (xtBuildFlags 0x800) = (largePage page, .ok (2 ^ 21)) := by
    obtain rfl | rfl : page = 0x4000 ∨ page = 0x200000 := by simpa using hpage
    · rfl
    · rfl
  exact htree.setPage (by decide) hfresh (by decide) (by decide) (by decide) (by decide)
    (.inl (by decide)) (emptyState_topClear 0x400000) (emptyState_noLargeLeaf _) hcall

theorem largePage_topClear {page : ℕ} (hpage : page ∈ [0x4000, 0x200000]) :
    ∀ o < 0x1000, TopClear (largePage page).mem 0x1000 (0x400000 + o) := by
  have htop : (largePage page).mem (entryAddr (higherHalfMem 0x1000) 0) &&& pPS = 0 := by
    obtain rfl | rfl : page = 0x4000 ∨ page = 0x200000 := by simpa using hpage
    · decide +kernel
    · decide +kernel
  intro o ho
  have hindex : index (0x400000 + o) 39 = 0 := by
    rw [Fin.ext_iff, index_val, Fin.val_zero]
    omega
  rwa [TopClear, hindex]

/-- The first small page of the large one, mapped to where it is already. The page for the new
    table has no bit that the address of the large page does not have. -/
theorem splitsPages_same : ∃ s',
    xtSetPages 2 (largePage 0x200000) 0x1000 0x400000 0x600000 0x1000 0 = some (s', .success) ∧
      SplitsPages (largePage 0x200000).mem s'.mem 0x1000 0x400000 0x600000 0x1000 := by
  have hrun : (xtSetPages 2 (largePage 0x200000) 0x1000 0x400000 0x600000 0x1000 0).map (·.2) =
      some .success := by decide +kernel
  obtain ⟨⟨s', r⟩, hcall, hr⟩ := Option.map_eq_some_iff.mp hrun
  cases hr
  obtain ⟨htree, hfresh⟩ := @largePage_tree 0x200000 (by decide)
  refine ⟨s', hcall, (splitsPages_iff htree hfresh (by decide) (by decide) (by decide) (by decide)
    (.inl (by decide)) (largePage_topClear (by decide)) hcall).mpr ⟨by decide, ?_⟩⟩
  have hnew : splits (largePage 0x200000).mem (higherHalfMem 0x1000)
      (pagesOf 2 0x400000 0x600000 0x1000) [] (largePage 0x200000).pages =
      [(leafSlot 1 0x400000, 0x200000)] := by decide +kernel
  have hleaf : leaf (largePage 0x200000).mem (higherHalfMem 0x1000) (path 0x400000) =
      some (0x8000000000600083, 1) := by decide +kernel
  intro v e k hv he hin
  rw [hnew, List.map_singleton, List.mem_singleton] at hin
  obtain rfl := leafSlot_level (by have := leaf_level he; omega) (by decide) hin
  rw [leaf_of_leafSlot hleaf hin, Option.some.injEq, Prod.mk.injEq] at he
  rw [hnew, hin, newBits_cons_self, ← he.1]
  have hbits : 0x8000000000600083 &&& addrMask ||| (0x200000 ||| newBits [] (leafSlot 1 0x400000)) =
      0x600000 := by decide
  have hold : 0x8000000000600083 &&& addrMask = 0x600000 := by decide
  rw [hbits, hold]
  split_ifs with hrange
  · rw [Nat.and_two_pow_sub_one_eq_mod, or_eq_add (k := 21) (by decide)
      (Nat.mod_lt _ (by decide))]
    omega
  · rfl

/-- The first small page of the large one, mapped elsewhere: it is mapped to the address of the
    large page with the bits of the new table, and so is the rest of the large page. -/
theorem splitsPages_lost : Tree (largePage 0x4000).mem 0x1000 ∧ Fresh (largePage 0x4000) 0x1000 ∧
    (∀ o < 0x1000, TopClear (largePage 0x4000).mem 0x1000 (0x400000 + o)) ∧
    ∃ s', xtSetPages 2 (largePage 0x4000) 0x1000 0x400000 0x800000 0x1000 0 = some (s', .success) ∧
      xtGetPhysicalAddress s'.mem 0x1000 0x400000 = .ok 0x604000 ∧
      xtGetPhysicalAddress (largePage 0x4000).mem 0x1000 0x401000 = .ok 0x601000 ∧
      xtGetPhysicalAddress s'.mem 0x1000 0x401000 = .ok 0x605000 ∧
      ¬ SplitsPages (largePage 0x4000).mem s'.mem 0x1000 0x400000 0x800000 0x1000 := by
  obtain ⟨htree, hfresh⟩ := @largePage_tree 0x4000 (by decide)
  refine ⟨htree, hfresh, largePage_topClear (by decide), ?_⟩
  have hrun : (xtSetPages 2 (largePage 0x4000) 0x1000 0x400000 0x800000 0x1000 0).map
      (fun x => (x.2, xtGetPhysicalAddress x.1.mem 0x1000 0x400000,
        xtGetPhysicalAddress (largePage 0x4000).mem 0x1000 0x401000,
        xtGetPhysicalAddress x.1.mem 0x1000 0x401000)) =
        some (.success, .ok 0x604000, .ok 0x601000, .ok 0x605000) := by
    decide +kernel
  obtain ⟨⟨s', r⟩, hcall, hr⟩ := Option.map_eq_some_iff.mp hrun
  simp only [Prod.mk.injEq] at hr
  obtain ⟨rfl, hinside, hbefore, hafter⟩ := hr
  refine ⟨s', hcall, hinside, hbefore, hafter, fun hsplit => ?_⟩
  have hwant := hsplit.inside 0 (by decide)
  rw [hinside] at hwant
  cases hwant

end XTOS.Paging

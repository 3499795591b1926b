import XTOS.Paging.Tables

/-!
# Pages with old contents

`xtSetPages` of `xtkernel/arch/x86_64/memory.c` makes tables of the pages that `xtAllocatePages`
returns, and neither of the two clears them: the words that a page held before are the entries of
the table. The run is compared with the one on pages filled with zeros.

## Main definitions

- `Apart` — the pages to come are not part of the tree, whatever they hold
- `CleanWay` — the words on the way to the range add nothing to the entries written over them
- `AbsentBeside`, `LeafBeside` — the words beside the range
- `Lockstep` — the two runs differ in words that have not been overwritten only

## Main results

- `Lockstep.setPagesLoop` — the runs stay in step
- `xtSetPages_mapsOnly` — a call maps its range and nothing else if the words beside it are absent,
  and does not if one of them is a leaf
-/

namespace XTOS.Paging

open SysLib

/-- The pages that the allocator returns are distinct and not part of the tree. -/
structure Apart (s : State) (pageTable : ℕ) : Prop where
  aligned : ∀ page ∈ s.pages, page % 2 ^ 12 = 0 ∧ page < 2 ^ 52
  apart : ∀ page ∈ s.pages, ∀ i p,
    ¬ Reaches s.mem pageTable p (some (entryAddr (higherHalfMem page) i))
  distinct : (s.pages.map higherHalfMem).Nodup

/-- The words of the new tables that the call goes through to another table add nothing to the entry
    it writes there. -/
structure CleanWay (mem : ℕ → ℕ) (rest : List (ℕ × ℕ)) (new : List NewTable) : Prop where
  absent : ∀ x ∈ new, ∀ z ∈ rest, ∀ i, x.indices ++ [i] <+: (path z.1).take (3 - z.2) →
    mem (entryAddr (higherHalfMem x.page) i) &&& pPresent = 0
  below : ∀ x ∈ new, ∀ y ∈ new, ∀ i, y.indices = x.indices ++ [i] →
    mem (entryAddr (higherHalfMem x.page) i) &&& pPS = 0 ∧
      (mem (entryAddr (higherHalfMem x.page) i) &&& addrMask) ||| y.page = y.page

/-- Entry `i` of a new table is not on the way to an address of the range. -/
def Beside (va size : ℕ) (x : NewTable) (i : Fin 512) : Prop :=
  ∀ o < size, ¬ x.indices ++ [i] <+: path (va + o)

/-- The words beside the range are absent. -/
def AbsentBeside (mem : ℕ → ℕ) (va size : ℕ) (new : List NewTable) : Prop :=
  ∀ x ∈ new, ∀ i, Beside va size x i → mem (entryAddr (higherHalfMem x.page) i) &&& pPresent = 0

/-- A word beside the range is a leaf. -/
def LeafBeside (mem : ℕ → ℕ) (va size : ℕ) (new : List NewTable) : Prop :=
  ∃ x ∈ new, ∃ i, Beside va size x i ∧ mem (entryAddr (higherHalfMem x.page) i) &&& pPresent ≠ 0 ∧
    (x.indices.length = 3 ∨ mem (entryAddr (higherHalfMem x.page) i) &&& pPS ≠ 0)

/-- The range is mapped, and no other address that was not mapped is mapped now. -/
structure MapsOnly (mem mem' : ℕ → ℕ) (pageTable va pa size : ℕ) : Prop where
  inside : ∀ o < size, xtGetPhysicalAddress mem' pageTable (va + o) = .ok (pa + o)
  outside : ∀ v, Canonical v → v < va ∨ va + size ≤ v →
    xtGetPhysicalAddress mem pageTable v = .error .notFound →
    xtGetPhysicalAddress mem' pageTable v = .error .notFound

/-! ### Two runs in step -/

/-- Words that a walk cannot tell apart. -/
structure SameWord (e e0 : ℕ) : Prop where
  present : e &&& pPresent = e0 &&& pPresent
  large : e &&& pPS = e0 &&& pPS
  addr : e &&& addrMask = e0 &&& addrMask

/-- A run and the one on zero-filled pages: the words are the same, except for those of the pages
    that are as they were before. -/
structure Lockstep (old : ℕ → ℕ) (stale : ℕ → Prop) (t t0 : State) : Prop where
  pages : t.pages = t0.pages
  same : ∀ a, ¬ (stale a ∧ t0.mem a = 0) → SameWord (t.mem a) (t0.mem a)
  kept : ∀ a, stale a → t0.mem a = 0 → t.mem a = old a

section lockstep

variable {old : ℕ → ℕ} {stale : ℕ → Prop} {t t0 t1 : State} {e e0 : ℕ}

theorem SameWord.refl (e : ℕ) : SameWord e e := ⟨rfl, rfl, rfl⟩

theorem SameWord.leads (h : SameWord e e0) (n : ℕ) : Leads n e ↔ Leads n e0 := by
  rw [Leads, Leads, h.present, h.large]

/-- The entries for a new table over words that are the same. -/
theorem SameWord.newEntry (h : SameWord e e0) (page : ℕ) :
    SameWord (page ||| (e &&& pteFlagsMask) ||| 0x07) (page ||| (e0 &&& pteFlagsMask) ||| 0x07) := by
  have hbits : ∀ m, e &&& m = e0 &&& m → (page ||| (e &&& pteFlagsMask) ||| 0x07) &&& m =
      (page ||| (e0 &&& pteFlagsMask) ||| 0x07) &&& m := by
    intro m hm
    simp only [Nat.and_or_distrib_right]
    rw [Nat.and_assoc e, Nat.and_assoc e0, Nat.and_comm pteFlagsMask, ← Nat.and_assoc e,
      ← Nat.and_assoc e0, hm]
  exact ⟨hbits _ h.present, hbits _ h.large, hbits _ h.addr⟩

/-- The entry for a new table over an absent word, if no bit is left over from it. -/
theorem newEntry_of_clean {page : ℕ} (hpresent : e &&& pPresent = 0) (hps : e &&& pPS = 0)
    (haddr : (e &&& addrMask) ||| page = page) :
    SameWord (page ||| (e &&& pteFlagsMask) ||| 0x07) (page ||| (0 &&& pteFlagsMask) ||| 0x07) := by
  have hself : ∀ m, pteFlagsMask &&& m = m → ((page ||| (e &&& pteFlagsMask) ||| 0x07) &&& m) =
      ((page &&& m) ||| (e &&& m)) ||| (0x07 &&& m) := by
    intro m hm
    rw [Nat.and_or_distrib_right, Nat.and_or_distrib_right, Nat.and_assoc, hm]
  have hzero : page ||| (0 &&& pteFlagsMask) ||| 0x07 = page ||| 0x07 := by
    rw [Nat.zero_and, Nat.or_zero]
  rw [hzero]
  refine ⟨?_, ?_, ?_⟩
  · rw [hself _ (by decide), hpresent, Nat.or_zero, Nat.and_or_distrib_right]
  · rw [hself _ (by decide), hps, Nat.or_zero, Nat.and_or_distrib_right]
  · rw [hself _ (by decide), Nat.and_or_distrib_right]
    have hmask := congrArg (· &&& addrMask) haddr
    simp only [Nat.and_or_distrib_right, Nat.and_assoc, Nat.and_self] at hmask
    rw [Nat.or_comm (page &&& addrMask), hmask]

/-- A word other than zero is written, in both runs. -/
theorem Lockstep.set (h : Lockstep old stale t t0) {a : ℕ} (hsame : SameWord e e0) (he0 : e0 ≠ 0) :
    Lockstep old stale (t.set a e) (t0.set a e0) := by
  refine ⟨h.pages, fun b => ?_, fun b => ?_⟩
  · by_cases hb : b = a
    · subst hb
      rw [set_mem_self, set_mem_self]
      exact fun _ => hsame
    · rw [set_mem_of_ne _ _ hb, set_mem_of_ne _ _ hb]
      exact h.same b
  · by_cases hb : b = a
    · subst hb
      rw [set_mem_self]
      exact fun _ hzero => absurd hzero he0
    · rw [set_mem_of_ne _ _ hb, set_mem_of_ne _ _ hb]
      exact h.kept b

theorem newEntry_ne_zero (page w : ℕ) : page ||| w ||| 0x07 ≠ 0 :=
  (Nat.right_le_or.trans_lt' (by decide : 0 < 0x07)).ne'

/-- One more table, in both runs. -/
theorem Lockstep.getOrMake (h : Lockstep old stale t t0) {x x1 : ℕ} {i : Fin 512}
    (hclean : stale (entryAddr (higherHalfMem x) i) → t0.mem (entryAddr (higherHalfMem x) i) = 0 →
      old (entryAddr (higherHalfMem x) i) &&& pPresent = 0 ∧ ∀ page ∈ t0.pages.head?,
        old (entryAddr (higherHalfMem x) i) &&& pPS = 0 ∧
          (old (entryAddr (higherHalfMem x) i) &&& addrMask) ||| page = page)
    (hcall : xtGetOrMakePageTable t x i 0x07 = (t1, .ok x1)) :
    ∃ t2, xtGetOrMakePageTable t0 x i 0x07 = (t2, .ok x1) ∧ Lockstep old stale t1 t2 := by
  have hne : x ≠ 0 := by
    rintro rfl
    cases hcall
  rw [xtGetOrMakePageTable, if_neg hne] at hcall ⊢
  dsimp only at hcall ⊢
  set a := entryAddr (higherHalfMem x) i
  rw [h.pages] at hcall
  -- both runs make a table, or both follow the entry
  have hword : ∀ page ∈ t0.pages.head?,
      SameWord (page ||| (t.mem a &&& pteFlagsMask) ||| 0x07)
        (page ||| (t0.mem a &&& pteFlagsMask) ||| 0x07) := by
    intro page hpage
    by_cases hold : stale a ∧ t0.mem a = 0
    · obtain ⟨hpresent, hmore⟩ := hclean hold.1 hold.2
      rw [h.kept a hold.1 hold.2, hold.2]
      exact newEntry_of_clean hpresent (hmore page hpage).1 (hmore page hpage).2
    · exact (h.same a hold).newEntry page
  have hbranch : (t.mem a &&& pPresent = 0 ∨ t.mem a &&& pPS ≠ 0) ↔
      (t0.mem a &&& pPresent = 0 ∨ t0.mem a &&& pPS ≠ 0) := by
    by_cases hold : stale a ∧ t0.mem a = 0
    · rw [h.kept a hold.1 hold.2, hold.2]
      exact iff_of_true (.inl (hclean hold.1 hold.2).1) (.inl (Nat.zero_and _))
    · rw [(h.same a hold).present, (h.same a hold).large]
  by_cases hmake : t0.mem a &&& pPresent = 0 ∨ t0.mem a &&& pPS ≠ 0
  · rw [if_pos (hbranch.mpr hmake)] at hcall
    rw [if_pos hmake]
    cases hpages : t0.pages with
    | nil =>
      rw [hpages] at hcall
      cases hcall
    | cons page pages =>
      rw [hpages] at hcall
      cases hcall
      have hrest : Lockstep old stale { t with pages := pages } { t0 with pages := pages } :=
        ⟨rfl, h.same, h.kept⟩
      exact ⟨_, rfl, hrest.set (hword page (by simp [hpages])) (newEntry_ne_zero _ _)⟩
  · rw [if_neg (fun hnot => hmake (hbranch.mp hnot))] at hcall
    rw [if_neg hmake]
    cases hcall
    have hsame := h.same a fun hold => hmake (.inl (by rw [hold.2]; exact Nat.zero_and _))
    exact ⟨t0, by rw [hsame.addr], h⟩

theorem Lockstep.setLeaf (h : Lockstep old stale t t0) {pa attr k : ℕ} (hpa : pa % 2 ^ 12 = 0)
    (a : ℕ) : Lockstep old stale (t.setLeaf a pa (leafFlags (xtBuildFlags attr) k))
      (t0.setLeaf a pa (leafFlags (xtBuildFlags attr) k)) := by
  rw [setLeaf_eq (by omega), setLeaf_eq (by omega)]
  refine h.set (SameWord.refl _) fun hzero => leafEntry_present attr k hpa ?_
  rw [leafEntry, hzero]
  exact Nat.zero_and _

/-- A walk stops in the same slot in both runs, unless an old word leads on. -/
theorem Lockstep.stop (h : Lockstep old stale t t0) {root n : ℕ} (slot : Option ℕ)
    (hn : slot = none → n = 0) (p : List (Fin 512))
    (hclean : ∀ a, (Radix.stop (child root) (read t0.mem) n slot p).1 = some a →
      (Radix.stop (child root) (read t0.mem) n slot p).2 ≠ [] → stale a → t0.mem a = 0 →
      old a &&& pPresent = 0) :
    Radix.stop (child root) (read t.mem) n slot p =
      Radix.stop (child root) (read t0.mem) n slot p := by
  induction p generalizing n slot with
  | nil => rfl
  | cons i p ih =>
    have hchild : child root n (read t.mem slot) i = child root n (read t0.mem slot) i := by
      by_cases hzero : n = 0
      · rw [child, child, if_pos hzero, if_pos hzero]
      obtain ⟨a, rfl⟩ := Option.ne_none_iff_exists'.mp fun hnone => hzero (hn hnone)
      by_cases hold : stale a ∧ t0.mem a = 0
      · have hblank : child root n (read t0.mem (some a)) i = none := by
          rw [read_some, hold.2]
          exact child_of_not_leads root hzero (not_leads_zero n) i
        rw [Radix.stop_cons_of_none hblank] at hclean
        have habsent := hclean a rfl (List.cons_ne_nil _ _) hold.1 hold.2
        rw [hblank, read_some, h.kept a hold.1 hold.2]
        exact child_of_not_leads root hzero (fun hl => hl.2.1 habsent) i
      · have hsame := h.same a hold
        rw [child, child, if_neg hzero, if_neg hzero, read_some, read_some, hsame.addr,
          if_congr (hsame.leads n) rfl rfl]
    cases hc : child root n (read t0.mem slot) i with
    | none =>
      rw [hc] at hchild
      rw [Radix.stop_cons_of_none hc, Radix.stop_cons_of_none hchild]
    | some slot' =>
      rw [hc] at hchild
      rw [Radix.stop_cons_of_some hc] at hclean
      rw [Radix.stop_cons_of_some hc, Radix.stop_cons_of_some hchild]
      refine ih slot' (fun hnone => ?_) hclean
      rw [hnone, child] at hc
      split_ifs at hc <;> cases hc

/-- Such a walk gives the same address in both runs. -/
theorem Lockstep.address (h : Lockstep old stale t t0) {pageTable : ℕ} (hne : pageTable ≠ 0) (v : ℕ)
    (hclean : ∀ a, (Radix.stop (child (higherHalfMem pageTable)) (read t0.mem) 0 none (path v)).1 =
      some a → stale a → t0.mem a = 0 → old a &&& pPresent = 0) :
    xtGetPhysicalAddress t.mem pageTable v = xtGetPhysicalAddress t0.mem pageTable v := by
  rw [xtGetPhysicalAddress_eq hne, xtGetPhysicalAddress_eq hne, leaf, leaf,
    h.stop none (fun _ => rfl) (path v) fun a ha _ => hclean a ha]
  rcases hstop : Radix.stop (child (higherHalfMem pageTable)) (read t0.mem) 0 none (path v) with
    ⟨slot, rest⟩
  rw [hstop] at hclean
  dsimp only
  cases slot with
  | none => rfl
  | some a =>
    rw [read_some, read_some]
    by_cases hold : stale a ∧ t0.mem a = 0
    · rw [h.kept a hold.1 hold.2, if_pos (hclean a rfl hold.1 hold.2), hold.2,
        if_pos (Nat.zero_and _)]
    · rw [(h.same a hold).present]
      split_ifs
      · rfl
      · dsimp only
        rw [(h.same a hold).addr]

/-- A mapped address has no zero at its end. -/
theorem Lockstep.address_of_leaf (h : Lockstep old stale t t0) {pageTable : ℕ} (hne : pageTable ≠ 0)
    {v : ℕ} (hleaf : leaf t0.mem (higherHalfMem pageTable) (path v) ≠ none) :
    xtGetPhysicalAddress t.mem pageTable v = xtGetPhysicalAddress t0.mem pageTable v := by
  refine h.address hne v fun a hstop _ hzero => absurd ?_ hleaf
  rw [leaf]
  dsimp only
  rw [hstop, read_some, hzero, if_pos (Nat.zero_and _)]

end lockstep

/-- An entry of one of the pages that a walk gets to is in a table that was made of it. -/
def Labelled (root : ℕ) (stale : ℕ → Prop) (t0 : State) (new : List NewTable) : Prop :=
  ∀ q a, Radix.stop (child root) (read t0.mem) 0 none q = (some a, []) → stale a →
    ∃ x ∈ new, ∃ i, q = x.indices ++ [i] ∧ a = entryAddr (higherHalfMem x.page) i

section run

variable {old : ℕ → ℕ} {stale : ℕ → Prop} {t t0 t1 : State} {top : Fin 512 → Prop}
  {owner : Option ℕ → Option (List (Fin 512))} {pageTable va pa size : ℕ}
  {rest : List (ℕ × ℕ)} {new all : List NewTable}

/-- The word that the next table is put over is absent, and adds nothing to the entry. -/
theorem Made.clean_word {root k x : ℕ} {s2 : State} {p : List (Fin 512)} {i : Fin 512}
    (hmade : Made root top t0 s2 p x) (hp : p ++ [i] <+: (path va).take (3 - k))
    (hlabel : Labelled root stale t0 new) (hclean : CleanWay old rest all) (hin : (va, k) ∈ rest)
    (hall : ∀ z ∈ new ++ passTables t0.mem root va k t0.pages, z ∈ all)
    (hstale : stale (entryAddr (higherHalfMem x) i))
    (hzero : s2.mem (entryAddr (higherHalfMem x) i) = 0) :
    old (entryAddr (higherHalfMem x) i) &&& pPresent = 0 ∧ ∀ page ∈ s2.pages.head?,
      old (entryAddr (higherHalfMem x) i) &&& pPS = 0 ∧
        (old (entryAddr (higherHalfMem x) i) &&& addrMask) ||| page = page := by
  obtain ⟨owner2, hinv2, htable⟩ := hmade.table
  -- the word is in a table that was made before
  obtain ⟨z, hz, j, hq, ha⟩ : ∃ z ∈ new ++ passTables t0.mem root va k t0.pages, ∃ j,
      p ++ [i] = z.indices ++ [j] ∧
        entryAddr (higherHalfMem x) i = entryAddr (higherHalfMem z.page) j := by
    obtain hold | ⟨z, hz, j, hq, ha⟩ := hmade.reach _ _ (htable.stop i)
    · obtain ⟨z, hz, j, hq, ha⟩ := hlabel _ _ hold hstale
      exact ⟨z, List.mem_append_left _ hz, j, hq, ha⟩
    · obtain ⟨more, hmore⟩ := missing_prefix t0.mem root [] ((List.prefix_append p [i]).trans hp)
      refine ⟨⟨z.1, z.2, false⟩, List.mem_append_right _ (mem_passTables ?_), j, hq, ha⟩
      rw [← hmore]
      exact mem_zip_append more hz
  rw [ha]
  refine ⟨hclean.absent z (hall z hz) _ hin j (hq ▸ hp), fun page hpage => ?_⟩
  exact hclean.below z (hall z hz) ⟨p ++ [i], page, false⟩
    (hall _ (List.mem_append_right _ (mem_passTables (hmade.mem_zip hzero hpage hp)))) j hq

/-- **Step**: a pass, in both runs. -/
theorem Lockstep.setPage (h : Lockstep old stale t t0) (hne : pageTable ≠ 0)
    (hinv : Inv (higherHalfMem pageTable) top t0 owner) (hpa : pa % 2 ^ 12 = 0)
    (htop : top (index va 39))
    (hfree : ∀ e j, leaf t0.mem (higherHalfMem pageTable) (path va) = some (e, j) →
      j ≤ levelFor va pa size)
    (hlabel : Labelled (higherHalfMem pageTable) stale t0 new) (hclean : CleanWay old rest all)
    (hin : (va, levelFor va pa size) ∈ rest)
    (hall : ∀ x ∈ new ++ passTables t0.mem (higherHalfMem pageTable) va (levelFor va pa size)
      t0.pages, x ∈ all)
    {attr pageSize : ℕ}
    (hcall : setPage t pageTable va pa size (xtBuildFlags attr) = (t1, .ok pageSize)) :
    ∃ t2, setPage t0 pageTable va pa size (xtBuildFlags attr) = (t2, .ok pageSize) ∧
      Lockstep old stale t1 t2 := by
  obtain ⟨rfl, s1, x, hmake, rfl⟩ := setPage_ok_iff.mp hcall
  obtain ⟨s2, hmake2, -, hlock⟩ := makeTables_induct
    (M := fun s1 p x => ∃ s2, makeTables t0 pageTable p = (s2, .ok x) ∧
      Made (higherHalfMem pageTable) top t0 s2 p x ∧ Lockstep old stale s1 s2)
    ⟨t0, rfl, Made.refl hne hinv, h⟩
    (fun s1 p x i s3 y hp hm hnext => by
      obtain ⟨s2, hmake2, hmade, hlock⟩ := hm
      obtain ⟨s4, hnext4, hlock4⟩ := hlock.getOrMake
        (fun hstale hzero => hmade.clean_word hp hlabel hclean hin hall hstale hzero) hnext
      exact ⟨s4, makeTables_concat hmake2 hnext4, hmade.next hp htop hfree hnext4, hlock4⟩) hmake
  exact ⟨_, setPage_ok_iff.mpr ⟨rfl, s2, x, hmake2, rfl⟩, hlock.setLeaf hpa _⟩

/-- A pass adds its tables. -/
theorem Labelled.pass {k flags : ℕ} (h : Labelled (higherHalfMem pageTable) stale t0 new)
    (hpass : Passed (higherHalfMem pageTable) top t0 t1 va pa k flags) :
    Labelled (higherHalfMem pageTable) stale t1
      (new ++ passTables t0.mem (higherHalfMem pageTable) va k t0.pages) := by
  intro q a hq ha
  obtain hold | ⟨z, hz, i, hi⟩ := hpass.reach q a hq
  · obtain ⟨x, hx, hi⟩ := h q a hold ha
    exact ⟨x, List.mem_append_left _ hx, hi⟩
  · exact ⟨⟨z.1, z.2, false⟩, List.mem_append_right _ (mem_passTables hz), i, hi⟩

/-- **Run**: the loop, in both runs. -/
theorem Lockstep.setPagesLoop {attr fuel : ℕ} (hne : pageTable ≠ 0)
    (hva : va % 2 ^ 12 = 0) (hpa : pa % 2 ^ 12 = 0) (hsize : size % 2 ^ 12 = 0)
    (hhalf : InHalf va size) (hend : pa + size < 2 ^ 64) (hclean : CleanWay old rest all)
    (hcall : setPagesLoop pageTable (xtBuildFlags attr) fuel t va pa size = some (t1, .success))
    (h : Lockstep old stale t t0) (hinv : Inv (higherHalfMem pageTable) top t0 owner)
    (htop : ∀ v, va ≤ v → v < va + size → top (index v 39))
    (hsmall : ∀ v, va ≤ v → v < va + size → Small t0.mem (higherHalfMem pageTable) (path v))
    (hlabel : Labelled (higherHalfMem pageTable) stale t0 new)
    (hrest : ∀ z ∈ pagesOf fuel va pa size, z ∈ rest)
    (hall : ∀ x ∈ new ++ newTables t0.mem (higherHalfMem pageTable) (pagesOf fuel va pa size) []
      t0.pages, x ∈ all) :
    ∃ t2, XTOS.Paging.setPagesLoop pageTable (xtBuildFlags attr) fuel t0 va pa size =
        some (t2, .success) ∧ Lockstep old stale t1 t2 := by
  revert t0 owner new htop hrest
  refine setPagesLoop_induct (M := fun fuel t va pa size => ∀ {t0 owner new},
    Lockstep old stale t t0 → Inv (higherHalfMem pageTable) top t0 owner →
    (∀ v, va ≤ v → v < va + size → top (index v 39)) →
    (∀ v, va ≤ v → v < va + size → Small t0.mem (higherHalfMem pageTable) (path v)) →
    Labelled (higherHalfMem pageTable) stale t0 new → (∀ z ∈ pagesOf fuel va pa size, z ∈ rest) →
    (∀ x ∈ new ++ newTables t0.mem (higherHalfMem pageTable) (pagesOf fuel va pa size) []
      t0.pages, x ∈ all) →
    ∃ t2, XTOS.Paging.setPagesLoop pageTable (xtBuildFlags attr) fuel t0 va pa size =
      some (t2, .success) ∧ Lockstep old stale t1 t2) ?_ ?_ hva hpa hsize hhalf hend hcall
  · intro fuel va pa t0 owner new h _ _ _ _ _ _
    exact ⟨t0, by rw [XTOS.Paging.setPagesLoop, if_pos rfl], h⟩
  intro fuel t s1 va pa size hpos hva hpa hsize hhalf hend hpage ih t0 owner new h hinv htop hsmall
    hlabel hrest hall
  obtain ⟨hvak, -, hle⟩ := levelFor_spec hva hpa hsize hpos
  have hpow := Nat.two_pow_pos (12 + 9 * levelFor va pa size)
  have hfree : ∀ e j, leaf t0.mem (higherHalfMem pageTable) (path va) = some (e, j) →
      j ≤ levelFor va pa size := by
    intro e j he
    rw [hsmall va le_rfl (by omega) e j he]
    exact Nat.zero_le _
  rw [pagesOf_succ fuel va pa hpos] at hrest hall
  rw [newTables_of_free (inTheWay_eq_none_iff.mpr hfree), List.nil_append,
    ← List.append_assoc] at hall
  obtain ⟨s2, hpage2, hlock⟩ := h.setPage hne hinv hpa (htop va le_rfl (by omega)) hfree hlabel
    hclean (hrest _ List.mem_cons_self) (fun x hx => hall x (List.mem_append_left _ hx)) hpage
  have hpass := setPage_tables hne hinv hpa (htop va le_rfl (by omega)) hfree hpage2
  obtain ⟨owner2, hinv2⟩ := hpass.inv
  rw [hpass.newTables_rest fun z hz => (pagesOf_apart hva hpa hsize hpos hhalf hz).2.2.1] at hall
  rw [setPagesLoop_step fuel hpos hle hhalf hend hpage2]
  refine ih hlock hinv2 (fun v h1 h2 => htop v (by omega) (by omega)) (fun v h1 h2 => ?_)
    (hlabel.pass hpass) (fun z hz => hrest z (List.mem_cons_of_mem _ hz)) hall
  have hout : leafSlot (levelFor va pa size) v ≠ leafSlot (levelFor va pa size) va := by
    intro heq
    have hpage := (leafSlot_eq_page_iff (levelFor_le va pa size) hvak
      (hhalf.canonical le_rfl (by omega)) (hhalf.canonical (by omega) (by omega))).mp heq
    omega
  unfold Small
  rw [hpass.leaf, if_neg hout]
  exact hsmall v (by omega) (by omega)

end run

/-! ### Zero-filled pages -/

/-- An entry of one of the pages. -/
def OfPages (pages : List ℕ) (a : ℕ) : Prop :=
  ∃ page ∈ pages, ∃ i, a = entryAddr (higherHalfMem page) i

instance (pages : List ℕ) (a : ℕ) : Decidable (OfPages pages a) := by
  unfold OfPages
  infer_instance

/-- The state with zeros in the pages that the allocator returns. -/
def zeroFilled (s : State) : State :=
  ⟨fun a => if OfPages s.pages a then 0 else s.mem a, s.pages⟩

theorem zeroFilled_lockstep (s : State) : Lockstep s.mem (OfPages s.pages) s (zeroFilled s) := by
  refine ⟨rfl, fun a hold => ?_, fun _ _ _ => rfl⟩
  have hnot : ¬ OfPages s.pages a := fun h => hold ⟨h, if_pos h⟩
  rw [zeroFilled]
  dsimp only
  rw [if_neg hnot]
  exact SameWord.refl _

/-- The tables are the same, and with zeros in the pages they are as the run needs them. -/
theorem Tree.zeroFilled {s : State} {pageTable : ℕ} (ht : Tree s.mem pageTable)
    (ha : Apart s pageTable) :
    (∃ owner, Inv (higherHalfMem pageTable)
      (fun i => s.mem (entryAddr (higherHalfMem pageTable) i) &&& pPS = 0) (zeroFilled s) owner) ∧
    ∀ q, Radix.stop (child (higherHalfMem pageTable)) (read (zeroFilled s).mem) 0 none q =
        Radix.stop (child (higherHalfMem pageTable)) (read s.mem) 0 none q ∧
      read (zeroFilled s).mem
          (Radix.stop (child (higherHalfMem pageTable)) (read s.mem) 0 none q).1 =
        read s.mem (Radix.stop (child (higherHalfMem pageTable)) (read s.mem) 0 none q).1 := by
  obtain ⟨owner, howned, hiff⟩ := Radix.exists_owned (fun p q slot => ht.unshared p q slot)
  have hapart : ∀ a, owner (some a) ≠ none → ¬ OfPages s.pages a := by
    rintro a hne ⟨page, hpage, i, rfl⟩
    obtain ⟨p, hp⟩ := Option.ne_none_iff_exists'.mp hne
    exact ha.apart page hpage i p ((hiff _ _).mp hp)
  have hmem : ∀ a, owner (some a) ≠ none → (XTOS.Paging.zeroFilled s).mem a = s.mem a :=
    fun a hne => if_neg (hapart a hne)
  have hread : ∀ slot, owner slot ≠ none →
      read (XTOS.Paging.zeroFilled s).mem slot = read s.mem slot := by
    intro slot hne
    cases slot with
    | none => rfl
    | some a => exact hmem a hne
  refine ⟨⟨owner, howned.congr hread, fun a hne habsent => ?_, fun i hi => ?_, ha.aligned,
    fun page hpage i => if_pos ⟨page, hpage, i, rfl⟩, fun page hpage i => ?_, ha.distinct⟩,
    fun q => ?_⟩
  · rw [hmem a hne] at habsent ⊢
    obtain ⟨p, hp⟩ := Option.ne_none_iff_exists'.mp hne
    exact ht.absent p a ((hiff _ _).mp hp) habsent
  · have hroot := howned.child howned.root (child_zero (higherHalfMem pageTable) _ i)
    rw [hmem _ (by simp [hroot])]
    exact hi
  · by_contra hne
    exact hapart _ hne ⟨page, hpage, i, rfl⟩
  · obtain ⟨used, -, howner, -⟩ := howned.stop_owner howned.root q
    rw [List.length_nil] at howner
    exact ⟨howned.stop_congr hread howned.root q, hread _ (by simp [howner])⟩

/-- The leaves are the same with zeros in the pages. -/
theorem Tree.leaf_zeroFilled {s : State} {pageTable : ℕ} (ht : Tree s.mem pageTable)
    (ha : Apart s pageTable) (q : List (Fin 512)) :
    leaf (XTOS.Paging.zeroFilled s).mem (higherHalfMem pageTable) q =
      leaf s.mem (higherHalfMem pageTable) q := by
  obtain ⟨hstop, hread⟩ := (ht.zeroFilled ha).2 q
  rw [leaf, leaf, hstop]
  dsimp only
  rw [hread]

/-- And so are the tables. -/
theorem Tree.hasTable_zeroFilled {s : State} {pageTable : ℕ} (ht : Tree s.mem pageTable)
    (ha : Apart s pageTable) (r : List (Fin 512)) :
    HasTable (XTOS.Paging.zeroFilled s).mem (higherHalfMem pageTable) r ↔
      HasTable s.mem (higherHalfMem pageTable) r := by
  obtain ⟨hstop, hread⟩ := (ht.zeroFilled ha).2 r
  rw [HasTable, HasTable, hstop, hread]

/-- None of the pages is in the tree yet. -/
theorem Tree.labelled_zeroFilled {s : State} {pageTable : ℕ} (ht : Tree s.mem pageTable)
    (ha : Apart s pageTable) :
    Labelled (higherHalfMem pageTable) (OfPages s.pages) (XTOS.Paging.zeroFilled s) [] := by
  rintro q a hq ⟨page, hpage, i, rfl⟩
  rw [((ht.zeroFilled ha).2 q).1] at hq
  exact absurd hq (ha.apart page hpage i q)

/-- **Run**: the call on the pages as they are is in step with the one on zeros. -/
theorem xtSetPages_lockstep {s s' : State} {fuel pageTable va pa size attributes : ℕ}
    (ht : Tree s.mem pageTable) (ha : Apart s pageTable) (hva : va % 2 ^ 12 = 0)
    (hpa : pa % 2 ^ 12 = 0) (hend : pa + size < 2 ^ 64) (hsize : size % 2 ^ 12 = 0)
    (hhalf : InHalf va size) (hlarge : ∀ o < size, NoLargeLeaf s.mem pageTable (va + o))
    (htop : ∀ o < size, TopClear s.mem pageTable (va + o))
    (hway : CleanWay s.mem (pagesOf fuel va pa size)
      (newTables s.mem (higherHalfMem pageTable) (pagesOf fuel va pa size) [] s.pages))
    (hcall : xtSetPages fuel s pageTable va pa size attributes = some (s', .success)) :
    ∃ t top, Lockstep s.mem (OfPages s.pages) s' t ∧
      Grows (higherHalfMem pageTable) top (zeroFilled s) t (pagesOf fuel va pa size)
        (newTables s.mem (higherHalfMem pageTable) (pagesOf fuel va pa size) [] s.pages) ∧
      (∀ v, va ≤ v → v < va + size → Mapped t.mem (higherHalfMem pageTable)
        (xtBuildFlags attributes) v ((pa + (v - va)) % 2 ^ 52)) ∧
      ∀ v, Canonical v → v < va ∨ va + size ≤ v →
        leaf t.mem (higherHalfMem pageTable) (path v) =
          leaf s.mem (higherHalfMem pageTable) (path v) := by
  have hne : pageTable ≠ 0 := by
    rintro rfl
    cases hcall
  rw [xtSetPages, if_neg hne] at hcall
  obtain ⟨⟨owner, hinv⟩, -⟩ := ht.zeroFilled ha
  have hleaf := ht.leaf_zeroFilled ha
  have hoff : ∀ v, va ≤ v → v < va + size → ∃ o < size, v = va + o :=
    fun v h1 h2 => ⟨v - va, by omega, by omega⟩
  have htop' : ∀ v, va ≤ v → v < va + size →
      s.mem (entryAddr (higherHalfMem pageTable) (index v 39)) &&& pPS = 0 := by
    intro v h1 h2
    obtain ⟨o, ho, rfl⟩ := hoff v h1 h2
    exact htop o ho
  have hsmall : ∀ v, va ≤ v → v < va + size →
      Small (zeroFilled s).mem (higherHalfMem pageTable) (path v) := by
    intro v h1 h2
    obtain ⟨o, ho, rfl⟩ := hoff v h1 h2
    unfold Small
    rw [hleaf]
    exact hlarge o ho
  have htables : newTables (zeroFilled s).mem (higherHalfMem pageTable) (pagesOf fuel va pa size) []
      s.pages = newTables s.mem (higherHalfMem pageTable) (pagesOf fuel va pa size) [] s.pages :=
    newTables_congr (fun x _ => by rw [inTheWay, inTheWay, hleaf])
      (fun x _ _ r _ => by rw [ht.hasTable_zeroFilled ha])
  obtain ⟨t, hcall', hlock⟩ := Lockstep.setPagesLoop hne hva hpa hsize hhalf hend hway hcall
    (zeroFilled_lockstep s) hinv htop' hsmall (ht.labelled_zeroFilled ha) (fun z hz => hz)
    (fun x hx => by
      rw [List.nil_append] at hx
      exact htables ▸ hx)
  obtain ⟨hin, hout⟩ := setPagesLoop_maps hne fuel hinv hva hpa hsize hhalf hend htop' hsmall hcall'
  have hgrows := setPagesLoop_grows hne hinv hva hpa hsize hhalf hend htop' hsmall hcall'
  rw [← htables]
  exact ⟨t, _, hlock, hgrows, hin, fun v hv hrange => by rw [hout v hv hrange, hleaf]⟩

/-- All walks through an entry that does not lead on end there. -/
theorem leaf_of_stuck {mem : ℕ → ℕ} {root a : ℕ} {q p : List (Fin 512)}
    (hstop : Radix.stop (child root) (read mem) 0 none q = (some a, [])) (hq : q ≠ [])
    (hstuck : ¬ Leads q.length (mem a)) (hp : q <+: p) :
    leaf mem root p = if mem a &&& pPresent = 0 then none else some (mem a, p.length - q.length) := by
  obtain ⟨rest, rfl⟩ := hp
  have hlen : q.length ≠ 0 := fun hzero => hq (List.length_eq_zero_iff.mp hzero)
  have happend := Radix.stop_append hstop rest
  rw [zero_add, stop_of_not_leads hlen hstuck] at happend
  rw [leaf_of_stop happend, List.length_append, Nat.add_sub_cancel_left]

/-- The call does not write the entries beside its range. -/
theorem Grows.mem_of_beside {root va size : ℕ} {top : Fin 512 → Prop} {s t : State}
    {rest : List (ℕ × ℕ)} {new : List NewTable} {x : NewTable} {i : Fin 512}
    (h : Grows root top s t rest new) (hin : ∀ z ∈ rest, ∃ o < size, z.1 = va + o) (hx : x ∈ new)
    (hbeside : Beside va size x i) :
    t.mem (entryAddr (higherHalfMem x.page) i) = s.mem (entryAddr (higherHalfMem x.page) i) := by
  by_contra hne
  obtain ⟨z, hz, q, hq, hstop⟩ := h.written _ hne
  obtain ⟨owner, hinv⟩ := h.inv
  have hway := hinv.owned.owner_of_stop hinv.owned.root hstop
  have hentry := hinv.owned.owner_of_stop hinv.owned.root (h.fresh x hx i)
  -- the tree is unshared, so the entry is on the way to a page of the range
  rw [hway, Option.some.injEq, List.nil_append, List.nil_append] at hentry
  obtain ⟨o, ho, hzo⟩ := hin z hz
  refine hbeside o ho ?_
  rw [← hentry, ← hzo]
  exact hq.trans (List.take_prefix _ _)

section call

variable {s s' t : State} {top : Fin 512 → Prop} {fuel pageTable va pa size : ℕ}
  {rest : List (ℕ × ℕ)} {new : List NewTable}

/-- **Sufficiency**: absent words beside the range do no harm. -/
theorem Lockstep.mapsOnly (h : Lockstep s.mem (OfPages s.pages) s' t) (hne : pageTable ≠ 0)
    (ht : Tree s.mem pageTable) (ha : Apart s pageTable) (hend : pa + size ≤ 2 ^ 52)
    (hgrows : Grows (higherHalfMem pageTable) top (zeroFilled s) t rest new) {flags : ℕ}
    (hin : ∀ v, va ≤ v → v < va + size →
      Mapped t.mem (higherHalfMem pageTable) flags v ((pa + (v - va)) % 2 ^ 52))
    (hout : ∀ v, Canonical v → v < va ∨ va + size ≤ v →
      leaf t.mem (higherHalfMem pageTable) (path v) = leaf s.mem (higherHalfMem pageTable) (path v))
    (habsent : AbsentBeside s.mem va size new) :
    MapsOnly s.mem s'.mem pageTable va pa size := by
  refine ⟨fun o ho => ?_, fun v hv hrange hnone => ?_⟩
  · have hmap := hin (va + o) (by omega) (by omega)
    rw [Nat.add_sub_cancel_left, Nat.mod_eq_of_lt (by omega)] at hmap
    rw [h.address_of_leaf hne ?_, xtGetPhysicalAddress_of_mapped hne hmap]
    obtain ⟨e, k, he, -⟩ := hmap
    rw [he]
    exact Option.some_ne_none _
  · rw [h.address hne v fun a hstop hold hzero => ?_, xtGetPhysicalAddress_eq hne, hout v hv hrange,
      ← xtGetPhysicalAddress_eq hne, hnone]
    obtain ⟨q, hq, hreach, -⟩ :=
      @Radix.stop_used _ _ _ (child (higherHalfMem pageTable)) (read t.mem) 0 none (path v)
    rw [hstop] at hreach
    obtain hbefore | ⟨x, hx, i, rfl, rfl⟩ := hgrows.reach q a hreach
    · rw [((ht.zeroFilled ha).2 q).1] at hbefore
      obtain ⟨page, hpage, i, rfl⟩ := hold
      exact absurd hbefore (ha.apart page hpage i q)
    -- an entry on the way to the range is not zero
    refine habsent x hx i fun o ho hpre => ?_
    obtain ⟨e, k, he, -⟩ := hin (va + o) (by omega) (by omega)
    rw [leaf_of_stuck hreach (by simp) (by rw [hzero]; exact not_leads_zero _) hpre, hzero,
      if_pos (Nat.zero_and _)] at he
    cases he

/-- **Necessity**: a leaf beside the range maps an address outside. -/
theorem Lockstep.not_mapsOnly (h : Lockstep s.mem (OfPages s.pages) s' t) (hne : pageTable ≠ 0)
    (hgrows : Grows (higherHalfMem pageTable) top (zeroFilled s) t rest new)
    (hrest : ∀ z ∈ rest, ∃ o < size, z.1 = va + o)
    (hnew : ∀ x ∈ new, x.page ∈ s.pages ∧ x.indices ≠ [] ∧ x.indices.length ≤ 3)
    (hout : ∀ v, Canonical v → v < va ∨ va + size ≤ v →
      leaf t.mem (higherHalfMem pageTable) (path v) = leaf s.mem (higherHalfMem pageTable) (path v))
    (hleaf : LeafBeside s.mem va size new) : ¬ MapsOnly s.mem s'.mem pageTable va pa size := by
  obtain ⟨x, hx, i, hbeside, hpresent, hlarge⟩ := hleaf
  obtain ⟨hpage, hindices, hlen⟩ := hnew x hx
  have hpos := List.length_pos_iff.mpr hindices
  have hstale : OfPages s.pages (entryAddr (higherHalfMem x.page) i) := ⟨x.page, hpage, i, rfl⟩
  have hzero : t.mem (entryAddr (higherHalfMem x.page) i) = 0 :=
    (hgrows.mem_of_beside hrest hx hbeside).trans (if_pos hstale)
  have hfresh := hgrows.fresh x hx i
  have hstop : Radix.stop (child (higherHalfMem pageTable)) (read s'.mem) 0 none
      (x.indices ++ [i]) = _ :=
    h.stop none (fun _ => rfl) _ fun a _ hmore => absurd (by rw [hfresh]) hmore
  rw [hfresh] at hstop
  have hold := h.kept _ hstale hzero
  set a := entryAddr (higherHalfMem x.page) i
  obtain ⟨v, hv, hpre⟩ := @exists_prefix_path (x.indices ++ [i]) (by simp; omega)
  have hrange : v < va ∨ va + size ≤ v := by
    by_contra hinside
    refine hbeside (v - va) (by omega) ?_
    rwa [Nat.add_sub_cancel' (by omega)]
  -- the address was not mapped
  have hnone : xtGetPhysicalAddress s.mem pageTable v = .error .notFound := by
    rw [xtGetPhysicalAddress_eq hne, ← hout v hv hrange,
      leaf_of_stuck hfresh (by simp) (by rw [hzero]; exact not_leads_zero _) hpre, hzero,
      if_pos (Nat.zero_and _)]
  -- it is mapped now
  have hstuck : ¬ Leads (x.indices ++ [i]).length (s'.mem a) := by
    rw [hold, List.length_append, List.length_singleton]
    rintro ⟨hlt, -, hone | hsmall⟩
    · omega
    · obtain hthree | hps := hlarge
      · omega
      · exact hps hsmall
  intro hmaps
  have hwant := hmaps.outside v hv hrange hnone
  rw [xtGetPhysicalAddress_eq hne, leaf_of_stuck hstop (by simp) hstuck hpre, hold,
    if_neg hpresent] at hwant
  cases hwant

end call

/-- **Old contents**: what the words of the new tables beside the range do. -/
theorem xtSetPages_mapsOnly {s s' : State} {fuel pageTable va pa size attributes : ℕ}
    (ht : Tree s.mem pageTable) (ha : Apart s pageTable) (hva : va % 2 ^ 12 = 0)
    (hpa : pa % 2 ^ 12 = 0) (hend : pa + size ≤ 2 ^ 52) (hsize : size % 2 ^ 12 = 0)
    (hhalf : InHalf va size) (hlarge : ∀ o < size, NoLargeLeaf s.mem pageTable (va + o))
    (htop : ∀ o < size, TopClear s.mem pageTable (va + o))
    (hway : CleanWay s.mem (pagesOf fuel va pa size)
      (newTables s.mem (higherHalfMem pageTable) (pagesOf fuel va pa size) [] s.pages))
    (hcall : xtSetPages fuel s pageTable va pa size attributes = some (s', .success)) :
    (AbsentBeside s.mem va size
        (newTables s.mem (higherHalfMem pageTable) (pagesOf fuel va pa size) [] s.pages) →
      MapsOnly s.mem s'.mem pageTable va pa size) ∧
    (LeafBeside s.mem va size
        (newTables s.mem (higherHalfMem pageTable) (pagesOf fuel va pa size) [] s.pages) →
      ¬ MapsOnly s.mem s'.mem pageTable va pa size) := by
  have hne : pageTable ≠ 0 := by
    rintro rfl
    cases hcall
  obtain ⟨t, top, hlock, hgrows, hin, hout⟩ := xtSetPages_lockstep ht ha hva hpa (by omega) hsize
    hhalf hlarge htop hway hcall
  have hrest : ∀ z ∈ pagesOf fuel va pa size, ∃ o < size, z.1 = va + o := by
    intro z hz
    obtain ⟨-, h1, -, h2⟩ := mem_pagesOf hva hpa hsize hz
    have hpow := Nat.two_pow_pos (12 + 9 * z.2)
    exact ⟨z.1 - va, by omega, by omega⟩
  have hfree : ∀ z ∈ pagesOf fuel va pa size,
      inTheWay s.mem (higherHalfMem pageTable) z.1 z.2 = none := by
    intro z hz
    rw [inTheWay_eq_none_iff]
    intro e j he
    obtain ⟨o, ho, hzo⟩ := hrest z hz
    rw [hzo] at he
    rw [hlarge o ho e j he]
    exact Nat.zero_le _
  refine ⟨hlock.mapsOnly hne ht ha hend hgrows hin hout,
    hlock.not_mapsOnly hne hgrows hrest (fun x hx => ?_) hout⟩
  obtain ⟨hpage, hindices, z, -, hpre⟩ := mem_newTables hfree hx
  have hlen := hpre.length_le
  rw [List.length_take] at hlen
  exact ⟨hpage, hindices, by omega⟩

/-! ### A page table with old words -/

/-- An empty table at `0x1000` and three pages to allocate. The third one is full of old words. -/
def oldWords (word : ℕ) : State :=
  ⟨fun a => if a / 2 ^ 12 = higherHalfMem 0x4000 / 2 ^ 12 then word else 0, [0x2000, 0x3000, 0x4000]⟩

theorem oldWords_root (word : ℕ) (i : Fin 512) :
    (oldWords word).mem (entryAddr (higherHalfMem 0x1000) i) = 0 := by
  refine if_neg ?_
  rw [entryAddr]
  have hroot : higherHalfMem 0x1000 = 0xffff800000001000 := by decide
  have hpage : higherHalfMem 0x4000 / 2 ^ 12 = 0xffff800000004 := by decide
  rw [hroot, hpage]
  omega

theorem oldWords_tree (word : ℕ) : Tree (oldWords word).mem 0x1000 ∧ Apart (oldWords word) 0x1000 := by
  have haligned : ∀ page ∈ (oldWords word).pages, page % 2 ^ 12 = 0 ∧ page < 2 ^ 52 := by
    change ∀ page ∈ [0x2000, 0x3000, 0x4000], page % 2 ^ 12 = 0 ∧ page < 2 ^ 52
    decide
  have hother : ∀ page ∈ (oldWords word).pages, higherHalfMem page ≠ higherHalfMem 0x1000 := by
    change ∀ page ∈ [0x2000, 0x3000, 0x4000], higherHalfMem page ≠ higherHalfMem 0x1000
    decide
  have hdistinct : ([0x2000, 0x3000, 0x4000].map higherHalfMem).Nodup := by decide
  exact ⟨(tree_of_zero (by decide) (oldWords_root word)).1, haligned,
    fun page hpage => not_reaches_of_zero (by decide) (oldWords_root word) (haligned page hpage).1
      (hother page hpage), hdistinct⟩

theorem oldWords_leaf (word v : ℕ) :
    leaf (oldWords word).mem (higherHalfMem 0x1000) (path v) = none := by
  have hstop : Radix.stop (child (higherHalfMem 0x1000)) (read (oldWords word).mem) 0 none (path v) =
      _ := Radix.stop_cons_of_some (child_zero _ _ _) _
  rw [zero_add, stop_of_not_leads (by decide)
    (by rw [oldWords_root]; exact not_leads_zero _)] at hstop
  rw [leaf_of_stop hstop, oldWords_root]
  rfl

theorem oldWords_noLargeLeaf (word v : ℕ) : NoLargeLeaf (oldWords word).mem 0x1000 v := by
  intro e k h
  rw [oldWords_leaf] at h
  cases h

theorem oldWords_topClear (word v : ℕ) : TopClear (oldWords word).mem 0x1000 v := by
  rw [TopClear, oldWords_root]
  exact Nat.zero_and _

/-- Old words that are not present do no harm. -/
theorem mapsOnly_absent_words : ∃ s',
    xtSetPages 2 (oldWords 0x9002) 0x1000 0x400000 0x5000 0x1000 0 = some (s', .success) ∧
      MapsOnly (oldWords 0x9002).mem s'.mem 0x1000 0x400000 0x5000 0x1000 := by
  have hrun : (xtSetPages 2 (oldWords 0x9002) 0x1000 0x400000 0x5000 0x1000 0).map (·.2) =
      some .success := by decide +kernel
  obtain ⟨⟨s', r⟩, hcall, hr⟩ := Option.map_eq_some_iff.mp hrun
  cases hr
  have hnew : newTables (oldWords 0x9002).mem (higherHalfMem 0x1000)
      (pagesOf 2 0x400000 0x5000 0x1000) [] (oldWords 0x9002).pages =
        [⟨[0], 0x2000, false⟩, ⟨[0, 0], 0x3000, false⟩, ⟨[0, 0, 2], 0x4000, false⟩] := by
    decide +kernel
  have habsent : ∀ a, (oldWords 0x9002).mem a &&& pPresent = 0 := by
    intro a
    rw [oldWords]
    dsimp only
    split_ifs <;> decide
  refine ⟨s', hcall, (xtSetPages_mapsOnly (oldWords_tree _).1 (oldWords_tree _).2 (by decide)
    (by decide) (by decide) (by decide) (.inl (by decide)) (fun o _ => oldWords_noLargeLeaf _ _)
    (fun o _ => oldWords_topClear _ _) ⟨fun _ _ _ _ _ _ => habsent _, ?_⟩ hcall).1
    fun _ _ _ _ => habsent _⟩
  rw [hnew]
  decide +kernel

/-- An old word in the new page table maps an address behind the page. -/
theorem mapsOnly_old_word : Tree (oldWords 0x9003).mem 0x1000 ∧ Apart (oldWords 0x9003) 0x1000 ∧
    (∀ v, NoLargeLeaf (oldWords 0x9003).mem 0x1000 v) ∧
    (∀ v, TopClear (oldWords 0x9003).mem 0x1000 v) ∧
    ∃ s', xtSetPages 2 (oldWords 0x9003) 0x1000 0x400000 0x5000 0x1000 0 = some (s', .success) ∧
      xtGetPhysicalAddress (oldWords 0x9003).mem 0x1000 0x401000 = .error .notFound ∧
      xtGetPhysicalAddress s'.mem 0x1000 0x401000 = .ok 0x9000 ∧
      ¬ MapsOnly (oldWords 0x9003).mem s'.mem 0x1000 0x400000 0x5000 0x1000 := by
  refine ⟨(oldWords_tree _).1, (oldWords_tree _).2, oldWords_noLargeLeaf _, oldWords_topClear _, ?_⟩
  have hrun : (xtSetPages 2 (oldWords 0x9003) 0x1000 0x400000 0x5000 0x1000 0).map
      (fun x => (x.2, xtGetPhysicalAddress (oldWords 0x9003).mem 0x1000 0x401000,
        xtGetPhysicalAddress x.1.mem 0x1000 0x401000)) =
        some (.success, .error .notFound, .ok 0x9000) := by
    decide +kernel
  obtain ⟨⟨s', r⟩, hcall, hr⟩ := Option.map_eq_some_iff.mp hrun
  simp only [Prod.mk.injEq] at hr
  obtain ⟨rfl, hbefore, hafter⟩ := hr
  refine ⟨s', hcall, hbefore, hafter, fun hmaps => ?_⟩
  have hwant := hmaps.outside 0x401000 (.inl (by decide)) (.inr (by decide)) hbefore
  rw [hafter] at hwant
  cases hwant

end XTOS.Paging

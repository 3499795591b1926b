import XTOS.Paging.Keep
import XTOS.Paging.Split
import XTOS.Paging.Stale

/-!
# Setting one page

`xtSetPages` of `xtkernel/arch/x86_64/memory.c` for 4096 bytes, as the handler of page faults calls
it: with any physical address, on tables of any kind, and also when the pages for new tables run
out on the way.

## Main definitions

- `tablesFor` — the tables that are made for a page
- `OldWords` — what the pages for them hold

## Main results

- `xtSetPages_absent` — a page that is not mapped is mapped if there are enough pages for the tables,
  and no other page is lost
- `xtSetPages_present` — a page that is mapped already is replaced, unless it is in a large page that
  cannot be split
-/

namespace XTOS.Paging

open SysLib

/-- The tables that there are not yet on the way to an address, or those between the large page it
    is in and a page table. -/
def tablesFor (mem : ℕ → ℕ) (root va : ℕ) : ℕ :=
  match leaf mem root (path va) with
  | none => (missing mem root [] ((path va).take 3)).length
  | some (_, j) => j

/-- The old words of the pages that become tables do no harm: those on the way are absent and add
    nothing to the entries written over them, those beside the way are absent if that is asked
    for, and so is the one under the second table that is made in a large page. -/
structure OldWords (mem : ℕ → ℕ) (root va : ℕ) (pages : List ℕ) (beside : Prop) : Prop where
  way : leaf mem root (path va) = none → CleanWay mem [(va, 0)] (passTables mem root va 0 pages)
  absent : leaf mem root (path va) = none → beside → pages.length < tablesFor mem root va →
    AbsentBeside mem va 0x1000 (passTables mem root va 0 pages)
  large : ∀ e, leaf mem root (path va) = some (e, 2) → ∀ page ∈ pages.head?,
    mem (entryAddr (higherHalfMem page) (index va 21)) &&& pPresent = 0

/-- Zero-filled pages do no harm. -/
theorem OldWords.of_zero {mem : ℕ → ℕ} {root va : ℕ} {pages : List ℕ} {beside : Prop}
    (hzero : ∀ page ∈ pages, ∀ i, mem (entryAddr (higherHalfMem page) i) = 0) :
    OldWords mem root va pages beside := by
  have hnew : ∀ x ∈ passTables mem root va 0 pages, ∀ i,
      mem (entryAddr (higherHalfMem x.page) i) = 0 := by
    intro x hx
    obtain ⟨z, hz, rfl⟩ := List.mem_map.mp hx
    exact hzero _ (List.of_mem_zip hz).2
  refine ⟨fun _ => ⟨fun x hx _ _ i _ => ?_, fun x hx y _ i _ => ?_⟩, fun _ _ _ x hx i _ => ?_,
    fun _ _ page hpage => ?_⟩
  · rw [hnew x hx, Nat.zero_and]
  · rw [hnew x hx, Nat.zero_and, Nat.zero_and, Nat.zero_or]
    exact ⟨rfl, rfl⟩
  · rw [hnew x hx, Nat.zero_and]
  · rw [hzero page (List.mem_of_mem_head? hpage), Nat.zero_and]

/-! ### A call for one page -/

section call

variable {s s1 s' : State} {pageTable va pa t : ℕ} {i : Fin 512} {r : XTResult}

theorem levelFor_page (va pa : ℕ) : levelFor va pa 0x1000 = 0 := by
  rw [levelFor, if_neg (by omega), if_neg (by omega)]

/-- The call gets the page table, and writes the entry. -/
theorem xtSetPages_of_makeTables (fuel pa attr : ℕ) (hne : pageTable ≠ 0)
    (hmake : makeTables s pageTable ((path va).take 3) = (s1, .ok t)) :
    xtSetPages (fuel + 2) s pageTable va pa 0x1000 attr =
      some (s1.setLeaf (entryAddr t (index va 12)) pa (xtBuildFlags attr), .success) := by
  have hpage : setPage s pageTable va pa 0x1000 (xtBuildFlags attr) =
      (s1.setLeaf (entryAddr t (index va 12)) pa (xtBuildFlags attr), .ok (2 ^ 12)) := by
    rw [setPage_eq, levelFor_page, hmake]
    rfl
  rw [xtSetPages, if_neg hne, setPagesLoop, if_neg (by decide), hpage]
  dsimp only
  rw [show (0x1000 + (2 ^ 64 - 2 ^ 12)) % 2 ^ 64 = 0 by decide, setPagesLoop, if_pos rfl]

/-- It fails where a table cannot be made. -/
theorem xtSetPages_of_error (fuel pa attr : ℕ) (hne : pageTable ≠ 0)
    (hmake : makeTables s pageTable ((path va).take 3) = (s1, .error r)) :
    xtSetPages (fuel + 2) s pageTable va pa 0x1000 attr = some (s1, r) := by
  have hpage : setPage s pageTable va pa 0x1000 (xtBuildFlags attr) = (s1, .error r) := by
    rw [setPage_eq, levelFor_page, hmake]
  rw [xtSetPages, if_neg hne, setPagesLoop, if_neg (by decide), hpage]

/-- A table cannot be made if there is no page for it. -/
theorem xtGetOrMakePageTable_failed {flags : ℕ} (hne : t ≠ 0)
    (h : xtGetOrMakePageTable s t i flags = (s', .error r)) :
    s' = s ∧ s.pages = [] ∧ (s.mem (entryAddr (higherHalfMem t) i) &&& pPresent = 0 ∨
      s.mem (entryAddr (higherHalfMem t) i) &&& pPS ≠ 0) := by
  rw [xtGetOrMakePageTable, if_neg hne] at h
  dsimp only at h
  split_ifs at h with hmake
  · cases hpages : s.pages with
    | nil =>
      rw [hpages] at h
      cases h
      exact ⟨rfl, rfl, hmake⟩
    | cons page pages =>
      rw [hpages] at h
      cases h
  · cases h

/-- What holds of the first table, and is kept on the way down, holds of the last one that is
    there. -/
theorem makeTables_stops {M : State → List (Fin 512) → ℕ → Prop} {q : List (Fin 512)}
    (hfirst : M s [] t)
    (hstep : ∀ s1 p t1 i s2 t2, p ++ [i] <+: q → M s1 p t1 →
      xtGetOrMakePageTable s1 t1 i 0x07 = (s2, .ok t2) → M s2 (p ++ [i]) t2)
    (hcall : makeTables s t q = (s', .error r)) :
    ∃ s1 p t1 i, p ++ [i] <+: q ∧ M s1 p t1 ∧
      xtGetOrMakePageTable s1 t1 i 0x07 = (s', .error r) := by
  suffices hrun : ∀ q1 q2 s1 t1, q1 ++ q2 = q → M s1 q1 t1 →
      makeTables s1 t1 q2 = (s', .error r) → ∃ s1 p t1 i, p ++ [i] <+: q ∧ M s1 p t1 ∧
        xtGetOrMakePageTable s1 t1 i 0x07 = (s', .error r) from hrun [] q s t rfl hfirst hcall
  intro q1 q2
  induction q2 generalizing q1 with
  | nil =>
    intro s1 t1 _ _ hcall
    cases hcall
  | cons i q2 ih =>
    intro s1 t1 hq hm hcall
    have hq' : q1 ++ [i] ++ q2 = q := by rw [← hq, List.append_assoc, List.singleton_append]
    rw [makeTables] at hcall
    rcases hnext : xtGetOrMakePageTable s1 t1 i 0x07 with ⟨s3, r3 | t3⟩
    · rw [hnext] at hcall
      cases hcall
      exact ⟨s1, q1, t1, i, ⟨q2, hq'⟩, hm, hnext⟩
    · rw [hnext] at hcall
      exact ih (q1 ++ [i]) s3 t3 hq' (hstep _ _ _ _ _ _ ⟨q2, hq'⟩ hm hnext) hcall

end call

/-! ### A page that is not mapped -/

section absent

variable {s s1 s2 : State} {pageTable va t t2 : ℕ} {p : List (Fin 512)} {i : Fin 512}
  {beside : Prop}

theorem Tree.missing_zeroFilled (ht : Tree s.mem pageTable) (ha : Apart s pageTable)
    (p : List (Fin 512)) : missing (XTOS.Paging.zeroFilled s).mem (higherHalfMem pageTable) [] p =
      missing s.mem (higherHalfMem pageTable) [] p :=
  missing_congr fun r _ => or_congr_left (ht.hasTable_zeroFilled ha r)

theorem Tree.passTables_zeroFilled (ht : Tree s.mem pageTable) (ha : Apart s pageTable)
    (va k : ℕ) : passTables (XTOS.Paging.zeroFilled s).mem (higherHalfMem pageTable) va k s.pages =
      passTables s.mem (higherHalfMem pageTable) va k s.pages := by
  rw [passTables, passTables, ht.missing_zeroFilled ha]

/-- The way to a page has been gone down, in step with the run on zero-filled pages. -/
def OnTheWay (s : State) (pageTable : ℕ) (s1 : State) (p : List (Fin 512)) (t : ℕ) : Prop :=
  ∃ s2, Made (higherHalfMem pageTable)
      (fun i => s.mem (entryAddr (higherHalfMem pageTable) i) &&& pPS = 0) (zeroFilled s) s2 p t ∧
    Lockstep s.mem (OfPages s.pages) s1 s2

theorem OnTheWay.refl (hne : pageTable ≠ 0) (ht : Tree s.mem pageTable) (ha : Apart s pageTable) :
    OnTheWay s pageTable s [] pageTable := by
  obtain ⟨⟨owner, hinv⟩, -⟩ := ht.zeroFilled ha
  exact ⟨zeroFilled s, Made.refl hne hinv, zeroFilled_lockstep s⟩

/-- **Step**: one more table. -/
theorem OnTheWay.next (h : OnTheWay s pageTable s1 p t) (ht : Tree s.mem pageTable)
    (ha : Apart s pageTable) (htop : TopClear s.mem pageTable va)
    (hnone : leaf s.mem (higherHalfMem pageTable) (path va) = none)
    (hway : CleanWay s.mem [(va, 0)] (passTables s.mem (higherHalfMem pageTable) va 0 s.pages))
    (hp : p ++ [i] <+: (path va).take 3)
    (hcall : xtGetOrMakePageTable s1 t i 0x07 = (s2, .ok t2)) :
    OnTheWay s pageTable s2 (p ++ [i]) t2 := by
  obtain ⟨s3, hmade, hlock⟩ := h
  obtain ⟨s4, hnext, hlock4⟩ := hlock.getOrMake (fun hstale hzero => hmade.clean_word (k := 0) hp
    (ht.labelled_zeroFilled ha) hway List.mem_cons_self (fun x hx => by
      rw [List.nil_append] at hx
      rw [← ht.passTables_zeroFilled ha]
      exact hx) hstale hzero) hcall
  refine ⟨s4, hmade.next (k := 0) hp htop (fun e j he => ?_) hnext, hlock4⟩
  rw [ht.leaf_zeroFilled ha, hnone] at he
  cases he

/-- A table that is not there and cannot be made is one that is missing, when all pages are
    used. -/
theorem OnTheWay.stuck {s' : State} {r : XTResult} (h : OnTheWay s pageTable s1 p t)
    (ht : Tree s.mem pageTable) (ha : Apart s pageTable) (htop : TopClear s.mem pageTable va)
    (hnone : leaf s.mem (higherHalfMem pageTable) (path va) = none)
    (hp : p ++ [i] <+: (path va).take 3)
    (hcall : xtGetOrMakePageTable s1 t i 0x07 = (s', .error r)) :
    s' = s1 ∧ s.pages.length < tablesFor s.mem (higherHalfMem pageTable) va := by
  obtain ⟨s2, hmade, hlock⟩ := h
  obtain ⟨hsame, hpages, hword⟩ := xtGetOrMakePageTable_failed hmade.ne_zero hcall
  obtain ⟨owner, hinv, htable⟩ := hmade.table
  have hfree : ∀ e j, leaf (zeroFilled s).mem (higherHalfMem pageTable) (path va) = some (e, j) →
      j ≤ 0 := by
    intro e j he
    rw [ht.leaf_zeroFilled ha, hnone] at he
    cases he
  have hnot : ¬ HasTable (zeroFilled s).mem (higherHalfMem pageTable) (p ++ [i]) := by
    intro hhas
    have hleads := htable.hasTable.mp ((hmade.has _).mpr (.inl hhas))
    have hclear := hmade.toDown.clear (k := 0) hp htop hfree
    have hne : s2.mem (entryAddr (higherHalfMem t) i) ≠ 0 := by
      intro hzero
      rw [hzero] at hleads
      exact not_leads_zero _ hleads
    have hboth := hlock.same _ fun hold => hne hold.2
    rw [hboth.present, hboth.large] at hword
    exact hword.elim hleads.2.1 (absurd hclear)
  refine ⟨hsame, ?_⟩
  have hmore := missing_concat_of_not [] p i hnot (by simp)
  have hpre := missing_prefix (zeroFilled s).mem (higherHalfMem pageTable) [] hp
  have hle := hpre.length_le
  rw [hmore, List.length_append, List.length_singleton, ht.missing_zeroFilled ha,
    ht.missing_zeroFilled ha] at hle
  have hdrop : s.pages.drop (missing (zeroFilled s).mem (higherHalfMem pageTable) [] p).length =
      [] := by
    rw [← hpages, hlock.pages, hmade.pages]
    rfl
  rw [List.drop_eq_nil_iff, ht.missing_zeroFilled ha] at hdrop
  rw [tablesFor, hnone]
  exact lt_of_le_of_lt hdrop hle

/-- The mapping is kept where the run on zero-filled pages keeps it. -/
theorem keeps_of_leaf {t0 : State} {stale : ℕ → Prop} {old : ℕ → ℕ} (hne : pageTable ≠ 0)
    (h : Lockstep old stale s1 t0) {v x : ℕ}
    (hsame : leaf t0.mem (higherHalfMem pageTable) (path v) =
      leaf s.mem (higherHalfMem pageTable) (path v))
    (hx : xtGetPhysicalAddress s.mem pageTable v = .ok x) :
    xtGetPhysicalAddress s1.mem pageTable v = .ok x := by
  have hleaf : leaf t0.mem (higherHalfMem pageTable) (path v) ≠ none := by
    intro hnone
    rw [xtGetPhysicalAddress_eq hne, ← hsame, hnone] at hx
    cases hx
  rw [h.address_of_leaf hne hleaf, xtGetPhysicalAddress_eq hne, hsame, ← xtGetPhysicalAddress_eq hne,
    hx]

/-- The last table has been reached, and the page is mapped. -/
theorem OnTheWay.map_page (h : OnTheWay s pageTable s1 ((path va).take 3) t) (hne : pageTable ≠ 0)
    (ht : Tree s.mem pageTable) (ha : Apart s pageTable)
    (hnone : leaf s.mem (higherHalfMem pageTable) (path va) = none) (pa attr : ℕ) :
    (∀ v x, xtGetPhysicalAddress s.mem pageTable v = .ok x →
      xtGetPhysicalAddress (s1.setLeaf (entryAddr t (index va 12)) pa (xtBuildFlags attr)).mem
        pageTable v = .ok x) ∧
    xtGetPhysicalAddress (s1.setLeaf (entryAddr t (index va 12)) pa (xtBuildFlags attr)).mem
      pageTable va ≠ .error .notFound := by
  obtain ⟨s2, hmade, hlock⟩ := h
  set a := entryAddr t (index va 12)
  have haligned := newAddr_mod pa (s1.mem a)
  have hreal : s1.setLeaf a pa (xtBuildFlags attr) =
      s1.set a (leafEntry (newAddr pa (s1.mem a)) (xtBuildFlags attr) 0) := by
    rw [← newAddr_or, State.setLeaf, newAddr]
  have hpresent := leafEntry_present attr 0 haligned
  have hstep := hlock.set (a := a) (SameWord.refl (leafEntry (newAddr pa (s1.mem a))
    (xtBuildFlags attr) 0)) (fun hzero => hpresent (by rw [hzero, Nat.zero_and]))
  -- the run on zero-filled pages maps the same page
  obtain ⟨-, -, hleaf⟩ := hmade.toDown.map_page attr (k := 0) (by decide)
    (take_path_concat (k := 0) (by decide) va) haligned (by omega)
  rw [setLeaf_eq (by omega)] at hleaf
  change ∀ q : List (Fin 512), q.length = 4 →
    leaf (s2.set a (leafEntry (newAddr pa (s1.mem a)) (xtBuildFlags attr) 0)).mem _ q =
      if path va <+: q then _ else _ at hleaf
  rw [hreal]
  refine ⟨fun v x hx => keeps_of_leaf hne hstep ?_ hx, ?_⟩
  · refine (hleaf (path v) rfl).trans ?_
    rw [if_neg, ht.leaf_zeroFilled ha]
    intro hpre
    have hpath : path va = path v := hpre.eq_of_length rfl
    rw [xtGetPhysicalAddress_eq hne, ← hpath, hnone] at hx
    cases hx
  · have hmapped := (hleaf (path va) rfl).trans (if_pos (List.prefix_refl _))
    rw [hstep.address_of_leaf hne (by rw [hmapped]; exact Option.some_ne_none _),
      xtGetPhysicalAddress_eq hne, hmapped]
    rintro ⟨⟩

/-- The tables that were made before the pages ran out map nothing, if the old words in them are
    absent. -/
theorem OnTheWay.same (h : OnTheWay s pageTable s1 p t) (hne : pageTable ≠ 0)
    (ht : Tree s.mem pageTable) (ha : Apart s pageTable) (hva : va % 2 ^ 12 = 0)
    (hway : CleanWay s.mem [(va, 0)] (passTables s.mem (higherHalfMem pageTable) va 0 s.pages))
    (hp : p ++ [i] <+: (path va).take 3)
    (habsent : AbsentBeside s.mem va 0x1000
      (passTables s.mem (higherHalfMem pageTable) va 0 s.pages)) (v : ℕ) :
    xtGetPhysicalAddress s1.mem pageTable v = xtGetPhysicalAddress s.mem pageTable v := by
  obtain ⟨s2, hmade, hlock⟩ := h
  rw [hlock.address hne v fun a hstop hold hzero => ?_, xtGetPhysicalAddress_eq hne,
    hmade.same _ rfl, ht.leaf_zeroFilled ha, ← xtGetPhysicalAddress_eq hne]
  obtain ⟨q, hq, hreach, -⟩ :=
    @Radix.stop_used _ _ _ (child (higherHalfMem pageTable)) (read s2.mem) 0 none (path v)
  rw [hstop] at hreach
  obtain hbefore | ⟨x, hx, j, rfl, rfl⟩ := hmade.reach q a hreach
  · obtain ⟨x, hx, -⟩ := ht.labelled_zeroFilled ha q a hbefore hold
    cases hx
  have hxp := (mem_missing.mp (List.of_mem_zip hx).1).1.length_le
  have hp3 := hp.length_le
  rw [List.length_append, List.length_singleton, List.length_take] at hp3
  obtain ⟨more, hmore⟩ := missing_prefix (zeroFilled s).mem (higherHalfMem pageTable) []
    ((List.prefix_append p [i]).trans hp)
  have hmem : ⟨x.1, x.2, false⟩ ∈ passTables s.mem (higherHalfMem pageTable) va 0 s.pages := by
    rw [← ht.passTables_zeroFilled ha]
    refine mem_passTables ?_
    rw [← hmore]
    exact mem_zip_append more hx
  by_cases hbeside : Beside va 0x1000 ⟨x.1, x.2, false⟩ j
  · exact habsent _ hmem j hbeside
  · -- the word is on the way, above the page table
    unfold Beside at hbeside
    push Not at hbeside
    obtain ⟨o, ho, hpre⟩ := hbeside
    rw [path_page hva, Nat.div_eq_of_lt (show o < 2 ^ 12 from ho), Nat.zero_mul, Nat.add_zero] at hpre
    refine hway.absent _ hmem (va, 0) List.mem_cons_self j ?_
    refine List.prefix_of_prefix_length_le hpre (List.take_prefix _ _) ?_
    rw [List.length_append, List.length_singleton, List.length_take]
    have hpath : (path va).length = 4 := rfl
    dsimp only at hxp ⊢
    omega

/-- **A page that is not mapped**: the call maps it exactly if there are enough pages for the tables.
    It keeps what is mapped, and if it fails it maps nothing, where the old words are absent. -/
theorem xtSetPages_absent (hne : pageTable ≠ 0) (ht : Tree s.mem pageTable) (ha : Apart s pageTable)
    (hva : va % 2 ^ 12 = 0) (htop : TopClear s.mem pageTable va)
    (hnone : leaf s.mem (higherHalfMem pageTable) (path va) = none)
    (hwords : OldWords s.mem (higherHalfMem pageTable) va s.pages beside) (fuel pa attr : ℕ) :
    ∃ s' r, xtSetPages (fuel + 2) s pageTable va pa 0x1000 attr = some (s', r) ∧
      (r = .success ↔ tablesFor s.mem (higherHalfMem pageTable) va ≤ s.pages.length) ∧
      (∀ v x, xtGetPhysicalAddress s.mem pageTable v = .ok x →
        xtGetPhysicalAddress s'.mem pageTable v = .ok x) ∧
      (r = .success → xtGetPhysicalAddress s'.mem pageTable va ≠ .error .notFound) ∧
      (r ≠ .success → beside → ∀ v, xtGetPhysicalAddress s'.mem pageTable v =
        xtGetPhysicalAddress s.mem pageTable v) := by
  have hway := hwords.way hnone
  have hstep : ∀ s1 p t1 i s2 t2, p ++ [i] <+: (path va).take 3 → OnTheWay s pageTable s1 p t1 →
      xtGetOrMakePageTable s1 t1 i 0x07 = (s2, .ok t2) → OnTheWay s pageTable s2 (p ++ [i]) t2 :=
    fun _ _ _ _ _ _ hp h hcall => h.next ht ha htop hnone hway hp hcall
  rcases hmake : makeTables s pageTable ((path va).take 3) with ⟨s1, r | t⟩
  · obtain ⟨s2, p, t, i, hp, h, hcall⟩ := makeTables_stops (.refl hne ht ha) hstep hmake
    obtain ⟨rfl, hlt⟩ := h.stuck ht ha htop hnone hp hcall
    have hr := makeTables_error hmake
    refine ⟨_, r, xtSetPages_of_error fuel pa attr hne hmake, ?_, fun v x hx => ?_,
      fun hsuccess => absurd hsuccess hr, fun _ hbeside => ?_⟩
    · exact iff_of_false hr (by omega)
    · obtain ⟨s3, hmade, hlock⟩ := h
      exact keeps_of_leaf hne hlock ((hmade.same _ rfl).trans (ht.leaf_zeroFilled ha _)) hx
    · exact h.same hne ht ha hva hway hp (hwords.absent hnone hbeside hlt)
  · have h := makeTables_induct (.refl hne ht ha) hstep hmake
    obtain ⟨hkeeps, hmapped⟩ := h.map_page hne ht ha hnone pa attr
    obtain ⟨s2, hmade, -⟩ := h
    have henough := hmade.enough
    rw [ht.missing_zeroFilled ha] at henough
    refine ⟨_, .success, xtSetPages_of_makeTables fuel pa attr hne hmake, iff_of_true rfl ?_,
      hkeeps, fun _ => hmapped, fun hr => absurd rfl hr⟩
    rw [tablesFor, hnone]
    exact henough

end absent

/-! ### A page that is mapped already -/

section present

variable {s : State} {pageTable va e j page : ℕ} {pages : List ℕ} {beside : Prop}

/-- The tables of a small page are there. -/
theorem makeTables_small (hne : pageTable ≠ 0) (htop : TopClear s.mem pageTable va)
    (hleaf : leaf s.mem (higherHalfMem pageTable) (path va) = some (e, 0)) :
    ∃ s1 t, makeTables s pageTable ((path va).take 3) = (s1, .ok t) := by
  have hsize : pageSizeFor va 0 0x1000 = 2 ^ 12 := by rw [pageSizeFor_eq, levelFor_page]
  obtain ⟨a, hpage, -⟩ := setPage_small (xtBuildFlags 0) hne hsize htop hleaf
  obtain ⟨-, s1, t, hmake, -⟩ := setPage_ok_iff.mp hpage
  rw [levelFor_page] at hmake
  exact ⟨s1, t, hmake⟩

/-- The tables above a large page are there, and the next one is to be put in its place. -/
theorem makeTables_large (hne : pageTable ≠ 0) (ht : Tree s.mem pageTable)
    (htop : TopClear s.mem pageTable va)
    (hleaf : leaf s.mem (higherHalfMem pageTable) (path va) = some (e, j)) (hj : j ≠ 0) :
    ∃ owner t, Inv (higherHalfMem pageTable)
        (fun i => s.mem (entryAddr (higherHalfMem pageTable) i) &&& pPS = 0) ⟨s.mem, []⟩ owner ∧
      TableAt (higherHalfMem pageTable) ⟨s.mem, []⟩ owner ((path va).take (3 - j))
        (higherHalfMem t) ∧ t ≠ 0 ∧
      s.mem (entryAddr (higherHalfMem t) (index va (12 + 9 * j))) = e ∧ e &&& pPS ≠ 0 ∧
      makeTables s pageTable ((path va).take 3) =
        makeTables s t (index va (12 + 9 * j) :: ((path va).take 3).drop (4 - j)) := by
  obtain ⟨owner, hinv⟩ := ht.exists_inv (s := ⟨s.mem, []⟩) ⟨by simp, by simp, by simp, by simp⟩
  obtain ⟨t, hmake, htable, hne1⟩ := hinv.follow (s := s) rfl hne htop hleaf (List.prefix_refl _)
  obtain ⟨hword, -, hps⟩ := htable.large hleaf hj
  refine ⟨owner, t, hinv, ⟨htable.stop, htable.owner⟩, hne1, hword, hps, ?_⟩
  have hsplit := take_path_split (leaf_level hleaf) (Nat.pos_of_ne_zero hj) va
  rw [Nat.sub_zero] at hsplit
  rw [hsplit, makeTables_append_of_ok hmake, ← hsplit]

/-- A table that can be made. -/
theorem xtGetOrMakePageTable_makes {t : ℕ} {i : Fin 512} (hne : t ≠ 0)
    (hword : s.mem (entryAddr (higherHalfMem t) i) &&& pPresent = 0 ∨
      s.mem (entryAddr (higherHalfMem t) i) &&& pPS ≠ 0) (hpages : s.pages = page :: pages) :
    xtGetOrMakePageTable s t i 0x07 =
      (({ s with pages := pages } : State).set (entryAddr (higherHalfMem t) i)
        (splitEntry page (s.mem (entryAddr (higherHalfMem t) i))), .ok (higherHalfMem page)) := by
  rw [xtGetOrMakePageTable, if_neg hne]
  dsimp only
  rw [if_pos hword, hpages]
  rfl

/-- No table can be made without pages. -/
theorem makeTables_none {t : ℕ} {i : Fin 512} (q : List (Fin 512)) (hne : t ≠ 0)
    (hword : s.mem (entryAddr (higherHalfMem t) i) &&& pPresent = 0 ∨
      s.mem (entryAddr (higherHalfMem t) i) &&& pPS ≠ 0) (hpages : s.pages = []) :
    makeTables s t (i :: q) = (s, .error .outOfMemory) := by
  rw [makeTables, xtGetOrMakePageTable, if_neg hne]
  dsimp only
  rw [if_pos hword, hpages]

/-- A large leaf with the address of a page added to it maps the same addresses exactly if that adds
    no bit. -/
theorem splitEntry_same_iff (mem : ℕ → ℕ) (hne : pageTable ≠ 0) (hpage : page % 2 ^ 12 = 0)
    (hlt : page < 2 ^ 52) (hleaf : leaf s.mem (higherHalfMem pageTable) (path va) = some (e, 2))
    (hsame : ∀ v, leaf mem (higherHalfMem pageTable) (path v) =
      if leafSlot 2 v = leafSlot 2 va then some (splitEntry page e, 2)
      else leaf s.mem (higherHalfMem pageTable) (path v)) :
    ((∀ v x, xtGetPhysicalAddress s.mem pageTable v = .ok x →
        xtGetPhysicalAddress mem pageTable v = .ok x) →
      (e &&& addrMask) ||| page = e &&& addrMask) ∧
    ((e &&& addrMask) ||| page = e &&& addrMask → ∀ v,
      xtGetPhysicalAddress mem pageTable v = xtGetPhysicalAddress s.mem pageTable v) := by
  refine ⟨fun hkeeps => ?_, fun hbits v => ?_⟩
  · -- the first address of the large page
    have hslot : leafSlot 2 (va / 2 ^ 30 * 2 ^ 30) = leafSlot 2 va := by
      simp only [leafSlot, path, List.take, List.cons.injEq, and_true, Fin.ext_iff, index_val]
      omega
    have hlow : va / 2 ^ 30 * 2 ^ 30 &&& (2 ^ (12 + 9 * 2) - 1) = 0 := by
      rw [Nat.and_two_pow_sub_one_eq_mod]
      exact Nat.mul_mod_left _ _
    have hbefore := xtGetPhysicalAddress_of_leaf hne (leaf_of_leafSlot hleaf hslot)
    have hafter := xtGetPhysicalAddress_of_leaf hne ((hsame _).trans (if_pos hslot))
    rw [hlow, Nat.or_zero] at hbefore hafter
    rw [hkeeps _ _ hbefore, Except.ok.injEq, splitEntry_and_addrMask e hpage hlt] at hafter
    exact hafter.symm
  · by_cases hslot : leafSlot 2 v = leafSlot 2 va
    · rw [xtGetPhysicalAddress_of_leaf hne ((hsame v).trans (if_pos hslot)),
        xtGetPhysicalAddress_of_leaf hne (leaf_of_leafSlot hleaf hslot),
        splitEntry_and_addrMask e hpage hlt, hbits]
    · rw [xtGetPhysicalAddress_eq hne, hsame, if_neg hslot, ← xtGetPhysicalAddress_eq hne]

/-- **A page that is mapped**: the call replaces it, unless there are not enough pages to split the
    large page it is in. Then nothing is changed exactly if the pages that are taken add no bit to
    the address of the large page. -/
theorem xtSetPages_present (hne : pageTable ≠ 0) (ht : Tree s.mem pageTable) (ha : Apart s pageTable)
    (htop : TopClear s.mem pageTable va)
    (hleaf : leaf s.mem (higherHalfMem pageTable) (path va) = some (e, j))
    (hwords : OldWords s.mem (higherHalfMem pageTable) va s.pages beside) (fuel pa attr : ℕ) :
    ∃ s' r, xtSetPages (fuel + 2) s pageTable va pa 0x1000 attr = some (s', r) ∧
      (r = .success ↔ tablesFor s.mem (higherHalfMem pageTable) va ≤ s.pages.length) ∧
      (r ≠ .success →
        ((∀ v x, xtGetPhysicalAddress s.mem pageTable v = .ok x →
            xtGetPhysicalAddress s'.mem pageTable v = .ok x) →
          ∀ page ∈ s.pages, (e &&& addrMask) ||| page = e &&& addrMask) ∧
        ((∀ page ∈ s.pages, (e &&& addrMask) ||| page = e &&& addrMask) → ∀ v,
          xtGetPhysicalAddress s'.mem pageTable v = xtGetPhysicalAddress s.mem pageTable v)) := by
  have htables : tablesFor s.mem (higherHalfMem pageTable) va = j := by rw [tablesFor, hleaf]
  have hlevel := leaf_level hleaf
  rw [htables]
  -- a call that gets the page table succeeds
  have hok : ∀ {s1 t} {P : State → Prop}, makeTables s pageTable ((path va).take 3) = (s1, .ok t) →
      j ≤ s.pages.length → ∃ s' r, xtSetPages (fuel + 2) s pageTable va pa 0x1000 attr =
        some (s', r) ∧ (r = .success ↔ j ≤ s.pages.length) ∧ (r ≠ .success → P s') :=
    fun hmake hle => ⟨_, .success, xtSetPages_of_makeTables fuel pa attr hne hmake,
      iff_of_true rfl hle, fun hr => absurd rfl hr⟩
  by_cases hsmall : j = 0
  · subst hsmall
    obtain ⟨s1, t, hmake⟩ := makeTables_small hne htop hleaf
    exact hok hmake (Nat.zero_le _)
  obtain ⟨owner, t, hinv, htable, hne1, hword, hps, hmake⟩ :=
    makeTables_large hne ht htop hleaf hsmall
  cases hpages : s.pages with
  | nil =>
    rw [makeTables_none _ hne1 (.inr (by rw [hword]; exact hps)) hpages] at hmake
    refine ⟨s, .outOfMemory, xtSetPages_of_error fuel pa attr hne hmake, ?_,
      fun _ => ⟨fun _ page hpage => (by cases hpage), fun _ _ => rfl⟩⟩
    refine iff_of_false (by decide) ?_
    rw [List.length_nil]
    omega
  | cons page pages =>
    obtain ⟨halign, hlt⟩ := ha.aligned page (by simp [hpages])
    have hnext := xtGetOrMakePageTable_makes (i := index va (12 + 9 * j)) hne1
      (.inr (by rw [hword]; exact hps)) hpages
    rw [makeTables, hnext, hword] at hmake
    dsimp only at hmake
    obtain rfl | rfl : j = 1 ∨ j = 2 := by omega
    · exact hpages ▸ hok hmake (by rw [hpages, List.length_cons]; omega)
    -- the second table is made in the first one, which is not in the tree
    set s1 : State := ({ s with pages := pages } : State).set
      (entryAddr (higherHalfMem t) (index va 30)) (splitEntry page e)
    have hbelow : s1.mem (entryAddr (higherHalfMem (higherHalfMem page)) (index va 21)) &&&
        pPresent = 0 := by
      rw [higherHalfMem_idem, set_mem_of_ne _ _ fun heq => ?_]
      · exact hwords.large e hleaf page (by rw [hpages]; rfl)
      · refine ha.apart page (by simp [hpages]) (index va 21) ((path va).take 1 ++ [index va 30]) ?_
        rw [Reaches, heq]
        exact htable.stop _
    change makeTables s pageTable ((path va).take 3) = makeTables s1 (higherHalfMem page) [index va 21]
      at hmake
    cases pages with
    | nil =>
      rw [makeTables_none [] (higherHalfMem_ne_zero _) (.inl hbelow) rfl] at hmake
      refine ⟨s1, .outOfMemory, xtSetPages_of_error fuel pa attr hne hmake,
        iff_of_false (by decide) (by simp), fun _ => ?_⟩
      have hmapped := (hinv.map_leaf htable (i := index va 30) (e := splitEntry page e) (by simp [path])
        (fun hleads => splitEntry_pPS page hps (hleads.2.2.resolve_left (by simp [path])))
        (splitEntry_present page e)).2
      obtain ⟨hbits, hall⟩ := splitEntry_same_iff s1.mem hne halign hlt hleaf fun v =>
        (hmapped (path v) rfl).trans (if_congr (leafSlot_prefix_iff 2 va v) rfl rfl)
      refine ⟨fun hkeeps x hx => ?_, fun hx => hall (hx page List.mem_cons_self)⟩
      obtain rfl := List.mem_singleton.mp hx
      exact hbits hkeeps
    | cons page2 pages =>
      have hnext2 := xtGetOrMakePageTable_makes (s := s1) (higherHalfMem_ne_zero page) (.inl hbelow) rfl
      rw [makeTables, hnext2] at hmake
      exact hpages ▸ hok hmake (by rw [hpages]; exact Nat.le_add_left 2 _)

end present

end XTOS.Paging

import XTOS.Linker.Load
import XTOS.Paging.OnePage
import XTOS.Process
import XTOS.Process.FindMap

/-!
# Page faults

`xtPageFaultHandler` of `xtkernel/arch/x86_64/gdt.c`. A fault of a user thread is looked up in the
memory map of its process, and a page is set there. The error code says what the access was and
whether the page was present; the handler tests the bit for writes only.

## Main definitions

- `pageFor`, `xtPageFaultHandler` — the modelled function
- `Permits` — the accesses that an entry of the memory map allows
- `Handled` — no page that is present is replaced, and nothing is mapped without permission
- `Harmless` — the faults that are handled so

## Main results

- `xtPageFaultHandler_user` — what the handler does with a fault of a user thread
- `xtPageFaultHandler_handled_iff` — a fault is handled so exactly if it is harmless

## Design notes

The memory map lies in the heap and the page tables in pages, so the two are separate memories here.
`xtMapFile` calls the driver of the file; what it leaves in `newPage` is a parameter, none if the
driver does not come back. `xtTerminateThread` does not return to the thread that it ends.
-/

namespace XTOS.PageFault

open SysLib
open XTOS.Heap (Mem)
open XTOS.Linker (xtMemRead)
open XTOS.Paging
open XTOS.Process (XTVirtualMap)
open XTOS.ProcessRecord

/-- What the handler reads of the context of the thread. -/
structure XTContext where
  cr2 : ℕ
  errorCode : ℕ
  cs : ℕ
  rip : ℕ

/-- How the handler ends: with the thread going on, at a new address or after the result of
    `xtSetPages`, or with its end, or that of the kernel. -/
inductive Outcome
  | fixedUp (rip : ℕ)
  | panicked
  | terminated
  | failed (r : XTResult)
  | resumed (r : XTResult)
  deriving DecidableEq, Repr

/-- The entry of a memory map at an address. -/
def mapAt (m : Mem) (map : ℕ) : XTVirtualMap where
  virtualStart := loadLE m map 8
  size := loadLE m (map + 8) 8
  attr := loadLE m (map + 16) 8
  physicalAddress := loadLE m (map + 24) 8
  offset := loadLE m (map + 32) 8
  file := loadLE m (map + 40) 8

/-- The page that the handler gets for an address of an entry, with the pages that the allocator has
    left. -/
def pageFor (mapFile : ℕ → ℕ → Option ℕ) (mapEntry : XTVirtualMap) (errorVM : ℕ)
    (pages : List ℕ) : Except Outcome (ℕ × List ℕ) :=
  if mapEntry.file ≠ 0 then
    let offset := (mapEntry.virtualStart + (2 ^ 64 - errorVM)) % 2 ^ 64
    match mapFile mapEntry.file ((mapEntry.offset + offset) % 2 ^ 64) with
    | none => .error .panicked
    | some newPage => .ok (newPage, pages)
  else
    match pages with
    | [] => .error (.failed .outOfMemory)
    | newPage :: pages => .ok (newPage, pages)

/-- `errorVM & ~0xfff`. -/
def pageOf (errorVM : ℕ) : ℕ := errorVM &&& 0xfffffffffffff000

/-- `xtPageFaultHandler`. -/
def xtPageFaultHandler (exTable : List (ℕ × ℕ)) (mapFile : ℕ → ℕ → Option ℕ) (fuel : ℕ) (m : Mem)
    (currentProcess : ℕ) (ctx : XTContext) (s : State) : Option (State × Outcome) :=
  if ctx.cs &&& 0x3 = 0 then
    match exTable.find? fun e => e.1 = ctx.rip with
    | some e => some (s, .fixedUp e.2)
    | none => some (s, .panicked)
  else
    match xtFindVirtualMap fuel m currentProcess ctx.cr2 with
    | none => none
    | some (result, map, _) =>
      let mapEntry := mapAt m map
      if result = .notFound then some (s, .terminated)
      else if ctx.errorCode &&& 0x2 ≠ 0 ∧ mapEntry.attr &&& xtMemWrite = 0 then
        some (s, .terminated)
      else
        match pageFor mapFile mapEntry ctx.cr2 s.pages with
        | .error o => some (s, o)
        | .ok (newPage, pages) =>
          (xtSetPages fuel { s with pages := pages } (processAt m currentProcess).pageTable
            (pageOf ctx.cr2) newPage 0x1000 mapEntry.attr).map fun x => (x.1, .resumed x.2)

/-! ### What a fault may do -/

/-- The attributes of an entry allow a user's access with this error code: a write (bit 1), a fetch
    (bit 4) or a read. -/
def Permits (attr errorCode : ℕ) : Prop :=
  attr &&& xtMemUser ≠ 0 ∧
    if errorCode &&& 0x2 ≠ 0 then attr &&& xtMemWrite ≠ 0
    else if errorCode &&& 0x10 ≠ 0 then attr &&& xtMemExec ≠ 0
    else attr &&& xtMemRead ≠ 0

instance (attr errorCode : ℕ) : Decidable (Permits attr errorCode) :=
  inferInstanceAs (Decidable (_ ∧ ite _ _ _))

/-- An entry of the list contains the address and allows the access. -/
def Permitted (m : Mem) (xs : List ℕ) (ctx : XTContext) : Prop :=
  ∃ n ∈ xs, Contains m ctx.cr2 n ∧ Permits (mapAt m (dataAt m n)).attr ctx.errorCode

instance (m : Mem) (xs : List ℕ) (ctx : XTContext) : Decidable (Permitted m xs ctx) :=
  inferInstanceAs (Decidable (∃ n ∈ xs, _ ∧ _))

/-- What should hold of a fault that is handled: a page is mapped only where there was none, what
    was mapped is kept, and an access that is not permitted changes no translation. -/
structure Handled (m : Mem) (xs : List ℕ) (ctx : XTContext) (pageTable : ℕ) (s s' : State)
    (o : Outcome) : Prop where
  absent : o = .resumed .success → xtGetPhysicalAddress s.mem pageTable ctx.cr2 = .error .notFound
  keeps : ∀ v x, xtGetPhysicalAddress s.mem pageTable v = .ok x →
    xtGetPhysicalAddress s'.mem pageTable v = .ok x
  denied : ¬ Permitted m xs ctx → ∀ v,
    xtGetPhysicalAddress s'.mem pageTable v = xtGetPhysicalAddress s.mem pageTable v

/-- The entry that the search takes, if it passes the test for writes, and the page that is got for
    it. -/
def Gets (mapFile : ℕ → ℕ → Option ℕ) (m : Mem) (xs : List ℕ) (ctx : XTContext) (s : State)
    (n newPage : ℕ) (left : List ℕ) : Prop :=
  xs.find? (hit m ctx.cr2) = some n ∧
    ¬ (ctx.errorCode &&& 0x2 ≠ 0 ∧ (mapAt m (dataAt m n)).attr &&& xtMemWrite = 0) ∧
    pageFor mapFile (mapAt m (dataAt m n)) ctx.cr2 s.pages = .ok (newPage, left)

/-- With these pages left, the access is permitted and the page is not mapped yet, or the tables that
    it takes cannot all be made. Of the tables in a large page the ones that are made add no bit to
    its address. -/
def HarmlessWith (m : Mem) (xs : List ℕ) (ctx : XTContext) (pageTable : ℕ) (s : State)
    (left : List ℕ) : Prop :=
  match leaf s.mem (higherHalfMem pageTable) (path ctx.cr2) with
  | none => Permitted m xs ctx ∨ left.length < tablesFor s.mem (higherHalfMem pageTable) ctx.cr2
  | some (e, _) => left.length < tablesFor s.mem (higherHalfMem pageTable) ctx.cr2 ∧
      ∀ page ∈ left, (e &&& addrMask) ||| page = e &&& addrMask

/-- If a page is got, setting it does no harm. -/
def Harmless (mapFile : ℕ → ℕ → Option ℕ) (m : Mem) (xs : List ℕ) (ctx : XTContext)
    (pageTable : ℕ) (s : State) : Prop :=
  ∀ n newPage left, Gets mapFile m xs ctx s n newPage left →
    HarmlessWith m xs ctx pageTable s left

/-! ### One fault -/

section fault

variable {exTable : List (ℕ × ℕ)} {mapFile : ℕ → ℕ → Option ℕ} {fuel : ℕ} {m : Mem}
  {process pageTable n newPage : ℕ} {xs left : List ℕ} {ctx : XTContext} {s s' : State} {o : Outcome}

/-- Without a page the thread does not go on as if there was one. -/
theorem pageFor_error {mapEntry : XTVirtualMap} {errorVM : ℕ} {pages : List ℕ}
    (h : pageFor mapFile mapEntry errorVM pages = .error o) (r : XTResult) : o ≠ .resumed r := by
  unfold pageFor at h
  split_ifs at h
  · dsimp only at h
    split at h
    · cases h
      exact Outcome.noConfusion
    · cases h
  · split at h
    · cases h
      exact Outcome.noConfusion
    · cases h

/-- The page is taken from the allocator, or the allocator is left alone. -/
theorem pageFor_left {mapEntry : XTVirtualMap} {errorVM : ℕ} {pages : List ℕ}
    (h : pageFor mapFile mapEntry errorVM pages = .ok (newPage, left)) : left <:+ pages := by
  unfold pageFor at h
  split_ifs at h
  · dsimp only at h
    split at h
    · cases h
    · cases h
      exact List.suffix_refl _
  · split at h
    · cases h
    · cases h
      exact List.suffix_cons _ _

/-- What the handler does with a fault of a user thread: it sets the page that it gets, or it leaves
    the page tables alone. -/
theorem xtPageFaultHandler_user (hprocess : process ≠ 0)
    (hlinked : Linked 0 (nextAt m) (processAt m process).memoryMap xs 0) (hfuel : xs.length < fuel)
    (huser : ctx.cs &&& 0x3 ≠ 0) (exTable : List (ℕ × ℕ)) (mapFile : ℕ → ℕ → Option ℕ) (s : State) :
    (∃ n newPage left, Gets mapFile m xs ctx s n newPage left ∧
      xtPageFaultHandler exTable mapFile fuel m process ctx s =
        (xtSetPages fuel { s with pages := left } (processAt m process).pageTable (pageOf ctx.cr2)
          newPage 0x1000 (mapAt m (dataAt m n)).attr).map fun x => (x.1, .resumed x.2)) ∨
    (¬ ∃ n newPage left, Gets mapFile m xs ctx s n newPage left) ∧ ∃ o, (∀ r, o ≠ .resumed r) ∧
      xtPageFaultHandler exTable mapFile fuel m process ctx s = some (s, o) := by
  obtain ⟨pre, post, rfl, hpre, hnone, hhit⟩ :=
    xtFindVirtualMap_split hprocess hlinked hfuel ctx.cr2
  have hfront : pre.find? (hit m ctx.cr2) = none :=
    List.find?_eq_none.mpr fun k hk => by rw [hpre k hk]; exact Bool.false_ne_true
  rw [xtPageFaultHandler, if_neg huser]
  unfold Gets
  cases post with
  | nil =>
    rw [hnone rfl]
    rw [List.append_nil, hfront]
    refine .inr ⟨?_, .terminated, fun r => by simp, rfl⟩
    rintro ⟨_, _, _, h, -⟩
    cases h
  | cons n ns =>
    obtain ⟨hn, hfind⟩ := hhit n ns rfl
    rw [hfind, List.find?_append, hfront, Option.none_or, List.find?_cons_of_pos hn]
    dsimp only
    rw [if_neg (by decide)]
    split_ifs with hwrite
    · refine .inr ⟨?_, .terminated, fun r => by simp, rfl⟩
      rintro ⟨_, _, _, h, hnot, -⟩
      exact hnot (Option.some.inj h ▸ hwrite)
    rcases hpage : pageFor mapFile (mapAt m (dataAt m n)) ctx.cr2 s.pages with o | ⟨newPage, left⟩
    · refine .inr ⟨?_, o, fun r => pageFor_error hpage r, rfl⟩
      rintro ⟨_, _, _, h, -, hgot⟩
      rw [← Option.some.inj h, hpage] at hgot
      cases hgot
    · exact .inl ⟨n, newPage, left, ⟨rfl, hwrite, hpage⟩, rfl⟩

end fault

/-! ### Which faults are handled as they should be -/

section handled

variable {exTable : List (ℕ × ℕ)} {mapFile : ℕ → ℕ → Option ℕ} {fuel : ℕ} {m : Mem}
  {process pageTable n newPage : ℕ} {xs left : List ℕ} {ctx : XTContext} {s : State} {o : Outcome}

theorem pageOf_eq (v : ℕ) : pageOf v = v % 2 ^ 64 / 2 ^ 12 * 2 ^ 12 :=
  and_mask v (show 12 ≤ 64 by decide)

theorem pageOf_mod (v : ℕ) : pageOf v % 2 ^ 12 = 0 := by
  rw [pageOf_eq]
  exact Nat.mul_mod_left _ _

theorem path_pageOf (v : ℕ) : path (pageOf v) = path v := by
  rw [pageOf_eq]
  simp only [path, List.cons.injEq, and_true, Fin.ext_iff, index_val]
  omega

theorem tablesFor_pageOf (mem : ℕ → ℕ) (root v : ℕ) :
    tablesFor mem root (pageOf v) = tablesFor mem root v := by
  rw [tablesFor, tablesFor, path_pageOf]

theorem topClear_pageOf {mem : ℕ → ℕ} {v : ℕ} (h : TopClear mem pageTable v) :
    TopClear mem pageTable (pageOf v) := by
  have hindex : index (pageOf v) 39 = index v 39 := (List.cons.inj (path_pageOf v)).1
  rwa [TopClear, hindex]

/-- The pages that are left are apart, too. -/
theorem apart_left (h : Apart s pageTable) (hleft : left <:+ s.pages) :
    Apart { s with pages := left } pageTable :=
  ⟨fun page hpage => h.aligned page (hleft.subset hpage),
    fun page hpage => h.apart page (hleft.subset hpage),
    h.distinct.sublist (hleft.sublist.map _)⟩

/-- A fault that changes no page table is handled as it should be. -/
theorem Handled.refl (ho : ∀ r, o ≠ .resumed r) : Handled m xs ctx pageTable s s o :=
  ⟨fun h => absurd h (ho _), fun _ _ hx => hx, fun _ _ => rfl⟩

/-- The page that is got is determined. -/
theorem Gets.harmless_iff (h : Gets mapFile m xs ctx s n newPage left) :
    Harmless mapFile m xs ctx pageTable s ↔ HarmlessWith m xs ctx pageTable s left := by
  refine ⟨fun hall => hall n newPage left h, ?_⟩
  rintro hharmless n' newPage' left' ⟨hfirst', -, hpage'⟩
  obtain ⟨hfirst, -, hpage⟩ := h
  obtain rfl := Option.some.inj (hfirst.symm.trans hfirst')
  obtain ⟨-, rfl⟩ := Prod.mk.inj (Except.ok.inj (hpage.symm.trans hpage'))
  exact hharmless

/-- A page that is not mapped. -/
theorem handled_absent_iff (hne : pageTable ≠ 0) (ht : Tree s.mem pageTable)
    (ha : Apart { s with pages := left } pageTable) (htop : TopClear s.mem pageTable ctx.cr2)
    (hnone : leaf s.mem (higherHalfMem pageTable) (path ctx.cr2) = none)
    (hwords : OldWords s.mem (higherHalfMem pageTable) (pageOf ctx.cr2) left
      (¬ Permitted m xs ctx)) (fuel newPage attr : ℕ) :
    ∃ s' r, xtSetPages (fuel + 2) { s with pages := left } pageTable (pageOf ctx.cr2) newPage 0x1000
        attr = some (s', r) ∧
      (Handled m xs ctx pageTable s s' (.resumed r) ↔ HarmlessWith m xs ctx pageTable s left) := by
  have hnone' := hnone
  rw [← path_pageOf] at hnone'
  obtain ⟨s', r, hcall, hr, hkeeps, hmapped, hsame⟩ := xtSetPages_absent
    (s := { s with pages := left }) hne ht ha (pageOf_mod ctx.cr2) (topClear_pageOf htop) hnone'
    hwords fuel newPage attr
  rw [tablesFor_pageOf] at hr
  rw [HarmlessWith, hnone]
  refine ⟨s', r, hcall, fun h => ?_, fun h => ?_⟩
  · by_contra hboth
    push Not at hboth
    refine hmapped (hr.mpr hboth.2) ?_
    rw [h.denied hboth.1]
    exact (notFound_iff hne).mpr hnone'
  · refine ⟨fun _ => (notFound_iff hne).mpr hnone, hkeeps, fun hdenied => ?_⟩
    have hlt := h.resolve_left hdenied
    exact hsame (fun hsuccess => absurd (hr.mp hsuccess) (Nat.not_le_of_lt hlt)) hdenied

/-- A page that is mapped already. -/
theorem handled_present_iff {e j : ℕ} (m : Mem) (xs : List ℕ) (hne : pageTable ≠ 0)
    (ht : Tree s.mem pageTable)
    (ha : Apart { s with pages := left } pageTable) (htop : TopClear s.mem pageTable ctx.cr2)
    (hleaf : leaf s.mem (higherHalfMem pageTable) (path ctx.cr2) = some (e, j)) {beside : Prop}
    (hwords : OldWords s.mem (higherHalfMem pageTable) (pageOf ctx.cr2) left beside)
    (fuel newPage attr : ℕ) :
    ∃ s' r, xtSetPages (fuel + 2) { s with pages := left } pageTable (pageOf ctx.cr2) newPage 0x1000
        attr = some (s', r) ∧
      (Handled m xs ctx pageTable s s' (.resumed r) ↔ HarmlessWith m xs ctx pageTable s left) := by
  obtain ⟨s', r, hcall, hr, hall⟩ := xtSetPages_present (s := { s with pages := left }) hne ht ha
    (topClear_pageOf htop) (by rw [path_pageOf]; exact hleaf) hwords fuel newPage attr
  rw [tablesFor_pageOf] at hr
  rw [HarmlessWith, hleaf]
  refine ⟨s', r, hcall, fun h => ?_, ?_⟩
  · have hfailed : r ≠ .success := by
      rintro rfl
      have hnone := (notFound_iff hne).mp (h.absent rfl)
      rw [hleaf] at hnone
      cases hnone
    exact ⟨Nat.lt_of_not_le fun hle => hfailed (hr.mpr hle), (hall hfailed).1 h.keeps⟩
  · rintro ⟨hlt, hbits⟩
    have hfailed : r ≠ .success := fun hsuccess =>
      absurd (hr.mp hsuccess) (Nat.not_le_of_lt hlt)
    have hsame := (hall hfailed).2 hbits
    refine ⟨fun ho => absurd (Outcome.resumed.inj ho) hfailed, fun v x hx => ?_, fun _ => hsame⟩
    rw [hsame, hx]

/-- **Page faults**: a fault of a user thread is handled as it should be exactly if it is harmless,
    where the old words of the pages that become tables do no harm. -/
theorem xtPageFaultHandler_handled_iff (hprocess : process ≠ 0)
    (hlinked : Linked 0 (nextAt m) (processAt m process).memoryMap xs 0) (hfuel : xs.length < fuel)
    (hne : (processAt m process).pageTable ≠ 0) (ht : Tree s.mem (processAt m process).pageTable)
    (ha : Apart s (processAt m process).pageTable)
    (htop : TopClear s.mem (processAt m process).pageTable ctx.cr2)
    (hwords : ∀ n newPage left, Gets mapFile m xs ctx s n newPage left →
      OldWords s.mem (higherHalfMem (processAt m process).pageTable) (pageOf ctx.cr2) left
        (¬ Permitted m xs ctx))
    (huser : ctx.cs &&& 0x3 ≠ 0) :
    ∃ s' o, xtPageFaultHandler exTable mapFile fuel m process ctx s = some (s', o) ∧
      (Handled m xs ctx (processAt m process).pageTable s s' o ↔
        Harmless mapFile m xs ctx (processAt m process).pageTable s) := by
  obtain ⟨n, newPage, left, hgets, hrun⟩ | ⟨hnot, o, ho, hrun⟩ :=
    xtPageFaultHandler_user hprocess hlinked hfuel huser exTable mapFile s
  · -- there is an entry, so the fuel is enough for one page
    obtain ⟨fuel, rfl⟩ : ∃ k, fuel = k + 2 := by
      have hpos := List.length_pos_of_mem (List.mem_of_find?_eq_some hgets.1)
      exact ⟨fuel - 2, by omega⟩
    have ha' := apart_left ha (pageFor_left hgets.2.2)
    have hwords' := hwords n newPage left hgets
    cases hleaf : leaf s.mem (higherHalfMem (processAt m process).pageTable) (path ctx.cr2) with
    | none =>
      obtain ⟨s', r, hcall, hiff⟩ := handled_absent_iff hne ht ha' htop hleaf hwords' fuel newPage
        (mapAt m (dataAt m n)).attr
      rw [hcall] at hrun
      exact ⟨s', _, hrun, hiff.trans hgets.harmless_iff.symm⟩
    | some x =>
      obtain ⟨s', r, hcall, hiff⟩ := handled_present_iff m xs hne ht ha' htop hleaf hwords' fuel
        newPage (mapAt m (dataAt m n)).attr
      rw [hcall] at hrun
      exact ⟨s', _, hrun, hiff.trans hgets.harmless_iff.symm⟩
  · refine ⟨s, o, hrun, iff_of_true (.refl ho) fun n newPage left h => ?_⟩
    exact absurd ⟨n, newPage, left, h⟩ hnot

/-- The process at 200 has one map, of the page at `0x400000`, that may be read and written. -/
def oneMap : Mem
  | 16 => 100
  | 102 => 0x40
  | 109 => 0x10
  | 117 => 0x0e
  | 209 => 0x10
  | 232 => 16
  | _ => 0

theorem oneMap_linked : Linked 0 (nextAt oneMap) (processAt oneMap 200).memoryMap [16] 0 :=
  ⟨by decide +kernel, by decide, show nextAt oneMap 16 = 0 by decide +kernel⟩

/-- Zero-filled memory with a table at `0x1000` and a page to allocate besides those for tables. -/
def fourPages : State := ⟨fun _ => 0, [0x5000, 0x2000, 0x3000, 0x4000]⟩

/-- The first write to the page. -/
theorem handled_iff_first_write : ∃ s' o,
    xtPageFaultHandler [] (fun _ _ => none) 2 oneMap 200 ⟨0x400123, 0x6, 0x23, 0⟩ fourPages =
        some (s', o) ∧
      Handled oneMap [16] ⟨0x400123, 0x6, 0x23, 0⟩ 0x1000 fourPages s' o := by
  have htable : (processAt oneMap 200).pageTable = 0x1000 := by decide +kernel
  have hfresh : Fresh fourPages 0x1000 := zero_fresh (by decide) (by decide) (by decide)
  have hpermitted : Permitted oneMap [16] ⟨0x400123, 0x6, 0x23, 0⟩ := by decide +kernel
  obtain ⟨s', o, hrun, hiff⟩ := @xtPageFaultHandler_handled_iff [] (fun _ _ => none) 2 oneMap 200
    [16] ⟨0x400123, 0x6, 0x23, 0⟩ fourPages (by decide) oneMap_linked (by decide)
    (by rw [htable]; decide) (by rw [htable]; exact emptyState_tree.1)
    (by rw [htable]; exact ⟨hfresh.aligned, hfresh.apart, hfresh.distinct⟩)
    (by rw [htable]; exact emptyState_topClear _) (fun _ _ _ _ => .of_zero fun _ _ _ => rfl)
    (by decide)
  rw [htable] at hiff
  refine ⟨s', o, hrun, hiff.mpr fun _ _ _ _ => ?_⟩
  have hnone : leaf fourPages.mem (higherHalfMem 0x1000) (path 0x400123) = none := by decide +kernel
  rw [HarmlessWith, hnone]
  exact .inl hpermitted

/-- The page is mapped to `0x5000`, and there is another page to allocate. -/
def presentPage : State :=
  (setPage ⟨fun _ => 0, [0x2000, 0x3000, 0x4000, 0x6000]⟩ 0x1000 0x400000 0x5000 0x1000
    (xtBuildFlags 0xe00)).1

theorem presentPage_tree : Tree presentPage.mem 0x1000 ∧ Fresh presentPage 0x1000 := by
  have hfresh : Fresh ⟨fun _ => 0, [0x2000, 0x3000, 0x4000, 0x6000]⟩ 0x1000 :=
    zero_fresh (by decide) (by decide) (by decide)
  have htree : Tree (⟨fun _ => 0, [0x2000, 0x3000, 0x4000, 0x6000]⟩ : State).mem 0x1000 :=
    emptyState_tree.1
  have hcall : setPage ⟨fun _ => 0, [0x2000, 0x3000, 0x4000, 0x6000]⟩ 0x1000 0x400000 0x5000 0x1000
      (xtBuildFlags 0xe00) = (presentPage, .ok (2 ^ 12)) := rfl
  exact htree.setPage (by decide) hfresh (by decide) (by decide) (by decide) (by decide)
    (.inl (by decide)) (emptyState_topClear 0x400000) (emptyState_noLargeLeaf _) hcall

/-- A fetch from the page, which must not be executed, replaces the page. -/
theorem present_page_replaced :
    Linked 0 (nextAt oneMap) (processAt oneMap 200).memoryMap [16] 0 ∧
    (processAt oneMap 200).pageTable = 0x1000 ∧ Tree presentPage.mem 0x1000 ∧
    Fresh presentPage 0x1000 ∧ TopClear presentPage.mem 0x1000 0x400123 ∧
    ∃ s', xtPageFaultHandler [] (fun _ _ => none) 2 oneMap 200 ⟨0x400123, 0x15, 0x23, 0⟩ presentPage =
        some (s', .resumed .success) ∧
      xtGetPhysicalAddress presentPage.mem 0x1000 0x400123 = .ok 0x5123 ∧
      xtGetPhysicalAddress s'.mem 0x1000 0x400123 = .ok 0x6123 ∧
      ¬ Handled oneMap [16] ⟨0x400123, 0x15, 0x23, 0⟩ 0x1000 presentPage s' (.resumed .success) := by
  have htop : presentPage.mem (entryAddr (higherHalfMem 0x1000) (index 0x400123 39)) &&& pPS = 0 := by
    decide +kernel
  refine ⟨oneMap_linked, by decide +kernel, presentPage_tree.1, presentPage_tree.2, htop, ?_⟩
  have hrun : (xtPageFaultHandler [] (fun _ _ => none) 2 oneMap 200 ⟨0x400123, 0x15, 0x23, 0⟩
      presentPage).map (fun x => (x.2, xtGetPhysicalAddress presentPage.mem 0x1000 0x400123,
        xtGetPhysicalAddress x.1.mem 0x1000 0x400123)) =
        some (.resumed .success, .ok 0x5123, .ok 0x6123) := by
    decide +kernel
  obtain ⟨⟨s', o⟩, hcall, ho⟩ := Option.map_eq_some_iff.mp hrun
  simp only [Prod.mk.injEq] at ho
  obtain ⟨rfl, hbefore, hafter⟩ := ho
  refine ⟨s', hcall, hbefore, hafter, fun h => ?_⟩
  have habsent := h.absent rfl
  rw [hbefore] at habsent
  cases habsent

end handled

end XTOS.PageFault

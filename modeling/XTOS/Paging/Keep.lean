import XTOS.Paging

/-!
# Changing the flags of pages

`xtSetPages` of `xtkernel/arch/x86_64/memory.c` with the physical address `(void*)-1`, which asks
for the addresses to be kept. The loop advances that value like any other physical address.

## Main definitions

- `SmallPages` — every address of a range is mapped by a 4 KiB page
- `KeepsPages` — the pages have their addresses and the new flags, and nothing else changed

## Main results

- `setPagesLoop_flags` — which address each page has afterwards
- `keepsPages_iff` — when all pages keep their addresses
-/

namespace XTOS.Paging

open SysLib

/-- Every address of the range is mapped by a 4 KiB page. -/
def SmallPages (mem : ℕ → ℕ) (pageTable va size : ℕ) : Prop :=
  ∀ o < size, ∃ e, leaf mem (higherHalfMem pageTable) (path (va + o)) = some (e, 0)

/-- Each page of the range has the address it had and the given flags, and all other addresses are
    mapped as before. -/
structure KeepsPages (mem mem' : ℕ → ℕ) (pageTable flags va size : ℕ) : Prop where
  pages : ∀ o < size, ∀ e, leaf mem (higherHalfMem pageTable) (path (va + o)) = some (e, 0) →
    leaf mem' (higherHalfMem pageTable) (path (va + o)) = some ((e &&& addrMask) ||| flags, 0)
  others : ∀ v, Canonical v → v < va ∨ va + size ≤ v →
    xtGetPhysicalAddress mem' pageTable v = xtGetPhysicalAddress mem pageTable v

/-- The address in the entry that the loop writes over `e`, in the pass for physical address
    `pa`. -/
def newAddr (pa e : ℕ) : ℕ := (if pa = 2 ^ 64 - 1 then e else pa) &&& addrMask

/-! ### One page -/

section page

variable {s : State} {mem : ℕ → ℕ} {top : Fin 512 → Prop}
  {owner : Option ℕ → Option (List (Fin 512))} {root pageTable va pa size e : ℕ}

/-- The entries on the way to a small page. -/
theorem small_walk (h : leaf mem root (path va) = some (e, 0)) :
    ∃ a1 a2 a3 a4, a1 = entryAddr root (index va 39) ∧ Leads 1 (mem a1) ∧
      a2 = entryAddr (higherHalfMem (mem a1 &&& addrMask)) (index va 30) ∧ Leads 2 (mem a2) ∧
      a3 = entryAddr (higherHalfMem (mem a2 &&& addrMask)) (index va 21) ∧ Leads 3 (mem a3) ∧
      a4 = entryAddr (higherHalfMem (mem a3 &&& addrMask)) (index va 12) ∧ mem a4 = e ∧
      Radix.stop (child root) (read mem) 0 none (path va) = (some a4, []) := by
  have hstop : Radix.stop (child root) (read mem) 0 none (path va) = _ :=
    Radix.stop_cons_of_some (child_zero _ _ _) _
  rw [zero_add] at hstop
  -- a walk that stops before the last table leaves indices over
  have hends : ∀ {a : ℕ} {rest : List (Fin 512)},
      Radix.stop (child root) (read mem) 0 none (path va) = (some a, rest) →
      mem a = e ∧ rest.length = 0 := by
    intro a rest hs
    rw [leaf_of_stop hs] at h
    split_ifs at h
    rw [Option.some.injEq, Prod.mk.injEq] at h
    exact h
  set a1 := entryAddr root (index va 39) with ha1
  by_cases h1 : Leads 1 (mem a1)
  swap
  · rw [stop_of_not_leads (by decide) h1] at hstop
    cases (hends hstop).2
  rw [stop_of_leads (by decide) h1] at hstop
  set a2 := entryAddr (higherHalfMem (mem a1 &&& addrMask)) (index va 30) with ha2
  by_cases h2 : Leads 2 (mem a2)
  swap
  · rw [stop_of_not_leads (by decide) h2] at hstop
    cases (hends hstop).2
  rw [stop_of_leads (by decide) h2] at hstop
  set a3 := entryAddr (higherHalfMem (mem a2 &&& addrMask)) (index va 21) with ha3
  by_cases h3 : Leads 3 (mem a3)
  swap
  · rw [stop_of_not_leads (by decide) h3] at hstop
    cases (hends hstop).2
  rw [stop_of_leads (by decide) h3, Radix.stop_nil] at hstop
  exact ⟨a1, a2, a3, _, ha1, h1, ha2, h2, ha3, h3, rfl, (hends hstop).1, hstop⟩

/-- A pass for a small page that is mapped writes its entry and nothing else. -/
theorem setPage_small (flags : ℕ) (hne : pageTable ≠ 0) (hpage : pageSizeFor va pa size = 2 ^ 12)
    (htop : s.mem (entryAddr (higherHalfMem pageTable) (index va 39)) &&& pPS = 0)
    (hleaf : leaf s.mem (higherHalfMem pageTable) (path va) = some (e, 0)) :
    ∃ a, setPage s pageTable va pa size flags = (s.set a (newAddr pa e ||| flags), .ok (2 ^ 12)) ∧
      Radix.stop (child (higherHalfMem pageTable)) (read s.mem) 0 none (path va) =
        (some a, []) := by
  obtain ⟨a1, a2, a3, a4, rfl, h1, rfl, h2, rfl, h3, rfl, hlast, hstop⟩ := small_walk hleaf
  refine ⟨_, ?_, hstop⟩
  have hcall1 := xtGetOrMakePageTable_of_leads 0x07 hne h1.2.1 htop
  have hcall2 := xtGetOrMakePageTable_of_leads 0x07 (higherHalfMem_ne_zero _)
    (by rw [higherHalfMem_idem]; exact h2.2.1)
    (by rw [higherHalfMem_idem]; exact h2.2.2.resolve_left (by decide))
  have hcall3 := xtGetOrMakePageTable_of_leads 0x07 (higherHalfMem_ne_zero _)
    (by rw [higherHalfMem_idem]; exact h3.2.1)
    (by rw [higherHalfMem_idem]; exact h3.2.2.resolve_left (by decide))
  rw [higherHalfMem_idem] at hcall2 hcall3
  rw [setPage, hpage, hcall1]
  dsimp only
  rw [if_neg (by decide), hcall2]
  dsimp only
  rw [if_neg (by decide), hcall3]
  dsimp only
  rw [State.setLeaf, hlast, newAddr]

theorem newAddr_mod (pa e : ℕ) : newAddr pa e % 2 ^ 12 = 0 := by
  rw [newAddr, and_addrMask]
  exact Nat.mul_mod_left _ _

theorem newAddr_or (pa e flags : ℕ) :
    newAddr pa e ||| flags = leafEntry (newAddr pa e) flags 0 := by
  rw [leafEntry, newAddr, Nat.and_assoc, Nat.and_self]
  rfl

/-- **Step**: a pass with such a physical address writes the entry of one page. -/
theorem setPage_flags (hne : pageTable ≠ 0)
    (h : Inv (higherHalfMem pageTable) top ⟨s.mem, []⟩ owner) (size attr : ℕ)
    (hpa : pa % 2 ^ 12 = 4095) (htop : top (index va 39))
    (hleaf : leaf s.mem (higherHalfMem pageTable) (path va) = some (e, 0)) :
    ∃ s', setPage s pageTable va pa size (xtBuildFlags attr) = (s', .ok (2 ^ 12)) ∧
      Inv (higherHalfMem pageTable) top ⟨s'.mem, []⟩ owner ∧
      leaf s'.mem (higherHalfMem pageTable) (path va) =
        some (newAddr pa e ||| xtBuildFlags attr, 0) ∧
      ∀ q : List (Fin 512), ¬ path va <+: q →
        leaf s'.mem (higherHalfMem pageTable) q = leaf s.mem (higherHalfMem pageTable) q := by
  have hpage : pageSizeFor va pa size = 2 ^ 12 := by
    rw [pageSizeFor, if_neg (by omega), if_neg (by omega)]
  obtain ⟨a, hcall, hstop⟩ :=
    setPage_small (s := s) (xtBuildFlags attr) hne hpage (h.top _ htop) hleaf
  have howner : owner (some a) = some (path va) := by
    obtain ⟨used, hused, hslot, -⟩ := h.owned.stop_owner h.owned.root (path va)
    rw [List.length_nil, hstop] at hused hslot
    rw [List.append_nil] at hused
    rwa [← hused] at hslot
  have hpresent := leafEntry_present attr 0 (newAddr_mod pa e)
  have hleads := leafEntry_not_leads attr (newAddr_mod pa e) (show 0 ≤ 2 by decide)
  refine ⟨_, hcall, ?_, ?_, fun q hq => ?_⟩
  · rw [newAddr_or]
    exact h.set_leaf howner (by simp [path]) hleads hpresent
  · rw [newAddr_or]
    have hhit := leaf_set_of_hit h howner hstop (by simp [path]) hleads hpresent (q := [])
    rwa [List.append_nil] at hhit
  · exact leaf_set_of_miss h howner hq

end page

/-! ### The loop -/

section loop

variable {s : State} {top : Fin 512 → Prop} {owner : Option ℕ → Option (List (Fin 512))}
  {pageTable va pa fuel : ℕ}

/-- **Run**: each page gets the address that the loop has come to. -/
theorem setPagesLoop_flags (hne : pageTable ≠ 0) (attr : ℕ) {n : ℕ}
    (h : Inv (higherHalfMem pageTable) top ⟨s.mem, []⟩ owner) (hfuel : n < fuel)
    (hva : va % 2 ^ 12 = 0) (hpa : pa % 2 ^ 12 = 4095) (hpa64 : pa < 2 ^ 64)
    (hhalf : InHalf va (n * 2 ^ 12))
    (htop : ∀ v, va ≤ v → v < va + n * 2 ^ 12 → top (index v 39))
    (hsmall : SmallPages s.mem pageTable va (n * 2 ^ 12)) :
    ∃ s', setPagesLoop pageTable (xtBuildFlags attr) fuel s va pa (n * 2 ^ 12) =
        some (s', .success) ∧
      (∀ j < n, ∀ e,
        leaf s.mem (higherHalfMem pageTable) (path (va + j * 2 ^ 12)) = some (e, 0) →
        leaf s'.mem (higherHalfMem pageTable) (path (va + j * 2 ^ 12)) =
          some (newAddr ((pa + j * 2 ^ 12) % 2 ^ 64) e ||| xtBuildFlags attr, 0)) ∧
      ∀ v, Canonical v → v < va ∨ va + n * 2 ^ 12 ≤ v →
        leaf s'.mem (higherHalfMem pageTable) (path v) =
          leaf s.mem (higherHalfMem pageTable) (path v) := by
  obtain ⟨fuel, rfl⟩ : ∃ m, fuel = m + 1 := Nat.exists_eq_add_one.mpr (by omega)
  induction n generalizing s va pa fuel with
  | zero =>
    refine ⟨s, ?_, by simp, fun _ _ _ => rfl⟩
    rw [Nat.zero_mul, setPagesLoop, if_pos rfl]
  | succ n ih =>
    have hhalf' := hhalf
    unfold InHalf at hhalf'
    have hcanon : ∀ v, va ≤ v → v < va + (n + 1) * 2 ^ 12 → Canonical v :=
      fun v h1 h2 => hhalf.canonical h1 h2
    obtain ⟨e, he⟩ := hsmall 0 (by omega)
    rw [Nat.add_zero] at he
    obtain ⟨s1, hcall, hinv, hnew, hkeep⟩ :=
      setPage_flags hne h ((n + 1) * 2 ^ 12) attr hpa (htop va le_rfl (by omega)) he
    have hmiss : ∀ v, Canonical v → v < va ∨ va + 2 ^ 12 ≤ v →
        leaf s1.mem (higherHalfMem pageTable) (path v) =
          leaf s.mem (higherHalfMem pageTable) (path v) := by
      intro v hv hout
      refine hkeep _ ?_
      rw [show path va = (path va).take (4 - 0) from rfl,
        take_path_iff (by decide) (hcanon va le_rfl (by omega)) hv hva]
      omega
    rw [setPagesLoop, if_neg (by omega), hcall]
    dsimp only
    rw [show ((n + 1) * 2 ^ 12 + (2 ^ 64 - 2 ^ 12)) % 2 ^ 64 = n * 2 ^ 12 by omega]
    -- the address wraps only behind the last page
    have hwrap : n = 0 ∨ (va + 2 ^ 12) % 2 ^ 64 = va + 2 ^ 12 := by
      by_cases hn : n = 0
      · exact .inl hn
      · exact .inr (Nat.mod_eq_of_lt (by omega))
    obtain ⟨fuel, rfl⟩ : ∃ m, fuel = m + 1 := Nat.exists_eq_add_one.mpr (by omega)
    have hrest : SmallPages s1.mem pageTable ((va + 2 ^ 12) % 2 ^ 64) (n * 2 ^ 12) := by
      intro o ho
      obtain rfl | hwrap := hwrap
      · omega
      obtain ⟨e, he⟩ := hsmall (2 ^ 12 + o) (by omega)
      refine ⟨e, ?_⟩
      rw [hwrap, add_assoc, hmiss _ (hcanon _ (by omega) (by omega)) (by omega), he]
    obtain ⟨s', hloop, hin, hout⟩ := @ih s1 ((va + 2 ^ 12) % 2 ^ 64) ((pa + 2 ^ 12) % 2 ^ 64)
      hinv (by omega) (by omega) (Nat.mod_lt _ (by decide))
      (by unfold InHalf; omega) (fun v h1 h2 => htop v (by omega) (by omega)) hrest fuel (by omega)
    refine ⟨s', hloop, fun j hj e' he' => ?_, fun v hv hv' => ?_⟩
    · cases j with
      | zero =>
        rw [Nat.zero_mul, Nat.add_zero] at he' ⊢
        rw [he, Option.some.injEq, Prod.mk.injEq] at he'
        rw [hout va (hcanon va le_rfl (by omega)) (by omega), hnew, ← he'.1, Nat.add_zero,
          Nat.mod_eq_of_lt hpa64]
      | succ j =>
        obtain rfl | hwrap := hwrap
        · omega
        have hv : va + (j + 1) * 2 ^ 12 = (va + 2 ^ 12) % 2 ^ 64 + j * 2 ^ 12 := by omega
        have hp : (pa + (j + 1) * 2 ^ 12) % 2 ^ 64 =
            ((pa + 2 ^ 12) % 2 ^ 64 + j * 2 ^ 12) % 2 ^ 64 := by omega
        rw [hp]
        rw [hv] at he' ⊢
        refine hin j (by omega) e' ?_
        rw [hmiss _ (hcanon _ (by omega) (by omega)) (by omega), he']
    · rw [hout v hv (by omega), hmiss v hv (by omega)]

/-- The pages of a walk depend on the page of the address only. -/
theorem path_page (hva : va % 2 ^ 12 = 0) (o : ℕ) :
    path (va + o) = path (va + o / 2 ^ 12 * 2 ^ 12) := by
  simp only [path, List.cons.injEq, and_true, Fin.ext_iff, index_val]
  omega

/-- The address of a byte in a small page. -/
theorem xtGetPhysicalAddress_small {mem : ℕ → ℕ} {v e : ℕ} (hne : pageTable ≠ 0)
    (h : leaf mem (higherHalfMem pageTable) (path v) = some (e, 0)) :
    xtGetPhysicalAddress mem pageTable v = .ok ((e &&& addrMask) + v % 2 ^ 12) := by
  rw [xtGetPhysicalAddress_eq hne, h]
  dsimp only
  rw [Nat.mul_zero, Nat.add_zero, Nat.and_two_pow_sub_one_eq_mod,
    or_eq_add (k := 12) (by rw [and_addrMask]; exact Nat.mul_mod_left _ _)
      (Nat.mod_lt _ (by decide))]

/-- The address of an entry is apart from its flags. -/
theorem or_flags_and_addrMask (attr : ℕ) {x : ℕ} (hx : x % 2 ^ 12 = 0) (hlt : x < 2 ^ 52) :
    (x ||| xtBuildFlags attr) &&& addrMask = x := by
  obtain ⟨low, nx, -, hnx, hlow, -, -, he⟩ := leafEntry_eq x attr (k := 0) hx
  have hself : x &&& addrMask = x := by
    rw [and_addrMask]
    omega
  have hentry : x ||| xtBuildFlags attr = leafEntry x (xtBuildFlags attr) 0 := by
    rw [leafEntry, hself]
    rfl
  rw [hentry, he, and_addrMask]
  omega

/-- The address for a page behind the first one. -/
theorem newAddr_succ {j : ℕ} (hj : j < 2 ^ 36) (e : ℕ) :
    newAddr ((2 ^ 64 - 1 + (j + 1) * 2 ^ 12) % 2 ^ 64) e = j * 2 ^ 12 := by
  have hpa : (2 ^ 64 - 1 + (j + 1) * 2 ^ 12) % 2 ^ 64 = (j + 1) * 2 ^ 12 - 1 := by omega
  rw [newAddr, hpa, if_neg (by omega), and_addrMask]
  omega

theorem newAddr_max (e : ℕ) : newAddr ((2 ^ 64 - 1 + 0 * 2 ^ 12) % 2 ^ 64) e = e &&& addrMask := by
  rw [newAddr, if_pos (by omega)]

/-- **Keeping addresses**: on a range of mapped 4 KiB pages the call with the address `-1` succeeds,
    and it keeps the addresses of the pages if and only if each page behind the first one was mapped
    to its offset in the range less one page. -/
theorem keepsPages_iff {size attributes : ℕ} (hne : pageTable ≠ 0) (ht : Tree s.mem pageTable)
    (hva : va % 2 ^ 12 = 0) (hsize : size % 2 ^ 12 = 0) (hhalf : InHalf va size)
    (htop : ∀ o < size, TopClear s.mem pageTable (va + o))
    (hsmall : SmallPages s.mem pageTable va size) (hfuel : size / 2 ^ 12 < fuel) :
    ∃ s', xtSetPages fuel s pageTable va (2 ^ 64 - 1) size attributes = some (s', .success) ∧
      (KeepsPages s.mem s'.mem pageTable (xtBuildFlags attributes) va size ↔
        ∀ o < size, 2 ^ 12 ≤ o →
          xtGetPhysicalAddress s.mem pageTable (va + o) = .ok (o - 2 ^ 12)) := by
  obtain ⟨n, rfl⟩ : ∃ n, size = n * 2 ^ 12 := ⟨size / 2 ^ 12, by omega⟩
  rw [Nat.mul_div_cancel _ (by decide)] at hfuel
  have hfresh : Fresh ⟨s.mem, []⟩ pageTable := ⟨by simp, by simp, by simp, by simp⟩
  have ht' : Tree (⟨s.mem, []⟩ : State).mem pageTable := ht
  obtain ⟨owner, hinv⟩ := ht'.exists_inv hfresh
  have hn : n ≤ 2 ^ 35 := by
    unfold InHalf at hhalf
    omega
  obtain ⟨s', hloop, hin, hout⟩ := setPagesLoop_flags hne attributes hinv hfuel hva
    (show (2 ^ 64 - 1) % 2 ^ 12 = 4095 by decide) (by decide) hhalf
    (fun v h1 h2 => by
      have := htop (v - va) (by omega)
      rwa [show va + (v - va) = v by omega] at this) hsmall
  refine ⟨s', by rw [xtSetPages, if_neg hne, hloop], ?_⟩
  -- the entry of each page afterwards
  have hentry : ∀ o < n * 2 ^ 12, ∀ e,
      leaf s.mem (higherHalfMem pageTable) (path (va + o)) = some (e, 0) →
      leaf s'.mem (higherHalfMem pageTable) (path (va + o)) =
        some (newAddr ((2 ^ 64 - 1 + o / 2 ^ 12 * 2 ^ 12) % 2 ^ 64) e |||
          xtBuildFlags attributes, 0) := by
    intro o ho e he
    rw [path_page hva] at he ⊢
    exact hin _ (by omega) e he
  have haddr : ∀ e, (e &&& addrMask) % 2 ^ 12 = 0 ∧ (e &&& addrMask) < 2 ^ 52 := by
    intro e
    rw [and_addrMask]
    omega
  constructor
  · intro hkeep o ho hle
    obtain ⟨e, he⟩ := hsmall o ho
    have hnew := hentry o ho e he
    obtain ⟨j, hj⟩ : ∃ j, o / 2 ^ 12 = j + 1 := ⟨o / 2 ^ 12 - 1, by omega⟩
    rw [hj, newAddr_succ (by omega), hkeep.pages o ho e he, Option.some.injEq, Prod.mk.injEq] at hnew
    have hsame := congrArg (· &&& addrMask) hnew.1
    rw [or_flags_and_addrMask attributes (haddr e).1 (haddr e).2,
      or_flags_and_addrMask attributes (Nat.mul_mod_left j _) (by omega)] at hsame
    rw [xtGetPhysicalAddress_small hne he, hsame]
    exact congrArg _ (by omega)
  · intro hcond
    refine ⟨fun o ho e he => ?_, fun v hv hv' => ?_⟩
    · rw [hentry o ho e he]
      obtain hj | ⟨j, hj⟩ : o / 2 ^ 12 = 0 ∨ ∃ j, o / 2 ^ 12 = j + 1 := by
        by_cases hzero : o / 2 ^ 12 = 0
        · exact .inl hzero
        · exact .inr ⟨o / 2 ^ 12 - 1, by omega⟩
      · rw [hj, newAddr_max]
      · have hold := hcond o ho (by omega)
        rw [xtGetPhysicalAddress_small hne he, Except.ok.injEq] at hold
        have := haddr e
        rw [hj, newAddr_succ (by omega), show e &&& addrMask = j * 2 ^ 12 by omega]
    · rw [xtGetPhysicalAddress_eq hne, xtGetPhysicalAddress_eq hne, hout v hv hv']

end loop

/-! ### Two mapped pages -/

/-- One page at `0x400000`, mapped to `0x5000`. -/
def onePage : State := (setPage emptyState 0x1000 0x400000 0x5000 0x2000 (xtBuildFlags 0x800)).1

/-- And another one behind it, mapped to `0x6000`. -/
def twoPages : State := (setPage onePage 0x1000 0x401000 0x6000 0x1000 (xtBuildFlags 0x800)).1

theorem twoPages_tree : Tree twoPages.mem 0x1000 := by
  obtain ⟨owner, hinv⟩ := emptyState_tree.1.exists_inv emptyState_fresh
  have hcall1 : setPage emptyState 0x1000 0x400000 0x5000 0x2000 (xtBuildFlags 0x800) =
      (onePage, .ok (2 ^ 12)) := rfl
  obtain ⟨-, -, -, ⟨owner1, hinv1⟩, -, hout1⟩ := setPage_maps (by decide) hinv (by decide)
    (by decide) (by decide) (by decide) (.inl (by decide)) (emptyState_topClear 0x400000)
    (emptyState_noLargeLeaf _) hcall1
  have hcall2 : setPage onePage 0x1000 0x401000 0x6000 0x1000 (xtBuildFlags 0x800) =
      (twoPages, .ok (2 ^ 12)) := rfl
  have hsmall : Small onePage.mem (higherHalfMem 0x1000) (path 0x401000) := by
    rw [Small, hout1 _ (.inl (by decide)) (by decide)]
    exact emptyState_noLargeLeaf _
  obtain ⟨-, -, -, ⟨owner2, hinv2⟩, -, -⟩ := setPage_maps (by decide) hinv1 (by decide)
    (by decide) (by decide) (by decide) (.inl (by decide)) (emptyState_topClear 0x401000)
    hsmall hcall2
  exact (hinv2.tree_fresh (by decide)).1

theorem twoPages_small : SmallPages twoPages.mem 0x1000 0x400000 0x2000 := by
  have h0 : leaf twoPages.mem (higherHalfMem 0x1000) (path 0x400000) =
      some (0x8000000000005003, 0) := by decide +kernel
  have h1 : leaf twoPages.mem (higherHalfMem 0x1000) (path (0x400000 + 0x1000)) =
      some (0x8000000000006003, 0) := by decide +kernel
  intro o ho
  obtain hpage | hpage : o / 2 ^ 12 = 0 ∨ o / 2 ^ 12 = 1 := by omega
  · exact ⟨_, by rw [path_page (by decide), hpage]; exact h0⟩
  · exact ⟨_, by rw [path_page (by decide), hpage]; exact h1⟩

theorem twoPages_topClear : ∀ o < 0x2000, TopClear twoPages.mem 0x1000 (0x400000 + o) := by
  have htop : twoPages.mem (entryAddr (higherHalfMem 0x1000) 0) &&& pPS = 0 := by decide +kernel
  intro o ho
  have hindex : index (0x400000 + o) 39 = 0 := by
    rw [Fin.ext_iff, index_val, Fin.val_zero]
    omega
  rwa [TopClear, hindex]

/-- The flags of one page. -/
theorem keepsPages_one : ∃ s',
    xtSetPages 2 twoPages 0x1000 0x400000 (2 ^ 64 - 1) 0x1000 0 = some (s', .success) ∧
      KeepsPages twoPages.mem s'.mem 0x1000 (xtBuildFlags 0) 0x400000 0x1000 := by
  have hone := @keepsPages_iff twoPages 0x1000 0x400000 2 0x1000 0 (by decide) twoPages_tree
    (by decide) (by decide) (.inl (by decide)) (fun o ho => twoPages_topClear o (by omega))
    (fun o ho => twoPages_small o (by omega)) (by decide)
  obtain ⟨s', hcall, hiff⟩ := hone
  exact ⟨s', hcall, hiff.mpr fun o ho hle => by omega⟩

/-- The flags of two pages: the second one is mapped to address 0 afterwards. -/
theorem keepsPages_two_lost : Tree twoPages.mem 0x1000 ∧ InHalf 0x400000 0x2000 ∧
    (∀ o < 0x2000, TopClear twoPages.mem 0x1000 (0x400000 + o)) ∧
    SmallPages twoPages.mem 0x1000 0x400000 0x2000 ∧
    ∃ s', xtSetPages 3 twoPages 0x1000 0x400000 (2 ^ 64 - 1) 0x2000 0 = some (s', .success) ∧
      xtGetPhysicalAddress twoPages.mem 0x1000 0x401000 = .ok 0x6000 ∧
      xtGetPhysicalAddress s'.mem 0x1000 0x401000 = .ok 0 := by
  refine ⟨twoPages_tree, .inl (by decide), twoPages_topClear, twoPages_small, ?_⟩
  have hrun : (xtSetPages 3 twoPages 0x1000 0x400000 (2 ^ 64 - 1) 0x2000 0).map
      (fun x => (x.2, xtGetPhysicalAddress twoPages.mem 0x1000 0x401000,
        xtGetPhysicalAddress x.1.mem 0x1000 0x401000)) =
        some (.success, .ok 0x6000, .ok 0) := by
    decide +kernel
  obtain ⟨⟨s', r⟩, hcall, hr⟩ := Option.map_eq_some_iff.mp hrun
  simp only [Prod.mk.injEq] at hr
  obtain ⟨rfl, hbefore, hafter⟩ := hr
  exact ⟨s', hcall, hbefore, hafter⟩

end XTOS.Paging

import XTOS.Lib.Bits
import XTOS.Lib.Radix
import XTOS.Result

/-!
# Page tables

`xtSetPages` and `xtGetPhysicalAddress` of `xtkernel/arch/x86_64/memory.c`: a four-level
tree of 512-entry tables with leaves of 4 KiB, 2 MiB and 1 GiB.

## Main definitions

- `State` — the words of memory and the pages the page allocator will return
- `xtGetOrMakePageTable`, `xtGetPhysicalAddress`, `xtBuildFlags`, `xtSetPages`
- `leaf` — the entry that maps an address, with the number of levels it leaves out
- `Tree`, `Fresh` — an unshared table tree, and pages that are not part of it

## Design notes

Memory maps the addresses of entries to 64-bit words; physical memory is reached at
`address | HIGH_HALF`. The page allocator is the list of the pages it returns, in order; it
fails when the list is used up. The slots of the tree are the addresses of its entries,
below a root slot that stands for the table pointer.
-/

namespace XTOS.Paging

open SysLib

/-- `HIGH_HALF`. -/
def highHalf : ℕ := 0xffff800000000000

/-- `HIGHER_HALF_MEM`. -/
def higherHalfMem (x : ℕ) : ℕ := x ||| highHalf

/-- `P_PRESENT`. -/
def pPresent : ℕ := 2 ^ 0

/-- `P_RW`. -/
def pRW : ℕ := 2 ^ 1

/-- `P_US`. -/
def pUS : ℕ := 2 ^ 2

/-- `P_PS`: a large page. -/
def pPS : ℕ := 2 ^ 7

/-- `P_NX`. -/
def pNX : ℕ := 2 ^ 63

/-- `ADDR_MASK`. -/
def addrMask : ℕ := 0x000ffffffffff000

/-- `PTE_FLAGS_MASK`. -/
def pteFlagsMask : ℕ := 0x7FF ||| (2 ^ 64 - 1 - pNX)

/-- `XT_MEM_USER`. -/
def xtMemUser : ℕ := 0x0200

/-- `XT_MEM_WRITE`. -/
def xtMemWrite : ℕ := 0x0800

/-- `XT_MEM_EXEC`. -/
def xtMemExec : ℕ := 0x1000

/-- The words of memory, and the pages that `xtAllocatePages` returns. -/
structure State where
  mem : ℕ → ℕ
  pages : List ℕ

/-- The address of `entries[i]` of a table. -/
def entryAddr (table : ℕ) (i : Fin 512) : ℕ := table + 8 * i

/-- Nine bits of an address. -/
def index (va shift : ℕ) : Fin 512 :=
  ⟨va >>> shift &&& 0x1ff, lt_of_le_of_lt Nat.and_le_right (by decide)⟩

/-- Write one entry. -/
def State.set (s : State) (a e : ℕ) : State := { s with mem := Function.update s.mem a e }

/-- `xtGetOrMakePageTable`. -/
def xtGetOrMakePageTable (s : State) (pageTable : ℕ) (i : Fin 512) (flags : ℕ) :
    State × Except XTResult ℕ :=
  if pageTable = 0 then (s, .error .invalidParameter)
  else
    let a := entryAddr (higherHalfMem pageTable) i
    let e := s.mem a
    if e &&& pPresent = 0 ∨ e &&& pPS ≠ 0 then
      match s.pages with
      | [] => (s, .error .outOfMemory)
      | newPage :: pages =>
        ({ s with pages := pages }.set a (newPage ||| (e &&& pteFlagsMask) ||| flags),
          .ok (higherHalfMem newPage))
    else (s, .ok (higherHalfMem (e &&& addrMask)))

/-- `xtGetPhysicalAddress`. -/
def xtGetPhysicalAddress (mem : ℕ → ℕ) (pageTable va : ℕ) : Except XTResult ℕ :=
  if pageTable = 0 then .error .invalidParameter
  else
    let pdpte := mem (entryAddr (higherHalfMem pageTable) (index va 39))
    if pdpte &&& pPresent = 0 then .error .notFound
    else
      let pdpe := mem (entryAddr (higherHalfMem (pdpte &&& addrMask)) (index va 30))
      if pdpe &&& pPresent = 0 then .error .notFound
      else if pdpe &&& pPS ≠ 0 then .ok ((pdpe &&& addrMask) ||| (va &&& (2 ^ 30 - 1)))
      else
        let pde := mem (entryAddr (higherHalfMem (pdpe &&& addrMask)) (index va 21))
        if pde &&& pPresent = 0 then .error .notFound
        else if pde &&& pPS ≠ 0 then .ok ((pde &&& addrMask) ||| (va &&& (2 ^ 21 - 1)))
        else
          let pte := mem (entryAddr (higherHalfMem (pde &&& addrMask)) (index va 12))
          if pte &&& pPresent = 0 then .error .notFound
          else .ok ((pte &&& addrMask) ||| (va &&& (2 ^ 12 - 1)))

/-- `xtBuildFlags`. -/
def xtBuildFlags (attr : ℕ) : ℕ :=
  let flags := 1
  let flags := if attr &&& xtMemUser ≠ 0 then flags ||| pUS else flags
  let flags := if attr &&& xtMemWrite ≠ 0 then flags ||| pRW else flags
  if attr &&& xtMemExec = 0 then flags ||| pNX else flags

/-- The page size for the rest of a range. -/
def pageSizeFor (va pa size : ℕ) : ℕ :=
  if va % 2 ^ 30 = 0 ∧ pa % 2 ^ 30 = 0 ∧ 2 ^ 30 ≤ size then 2 ^ 30
  else if va % 2 ^ 21 = 0 ∧ pa % 2 ^ 21 = 0 ∧ 2 ^ 21 ≤ size then 2 ^ 21
  else 2 ^ 12

/-- Write a leaf; a physical address of all ones keeps the one that is there. -/
def State.setLeaf (s : State) (a pa flags : ℕ) : State :=
  let pa := if pa = 2 ^ 64 - 1 then s.mem a else pa
  s.set a ((pa &&& addrMask) ||| flags)

/-- One pass of the loop of `xtSetPages`; the size of the page it mapped. -/
def setPage (s : State) (pml4 va pa size flags : ℕ) : State × Except XTResult ℕ :=
  let pageSize := pageSizeFor va pa size
  match xtGetOrMakePageTable s pml4 (index va 39) 0x07 with
  | (s, .error r) => (s, .error r)
  | (s, .ok pdpt) =>
    if pageSize = 2 ^ 30 then
      (s.setLeaf (entryAddr pdpt (index va 30)) pa (flags ||| pPS), .ok pageSize)
    else
      match xtGetOrMakePageTable s pdpt (index va 30) 0x07 with
      | (s, .error r) => (s, .error r)
      | (s, .ok pd) =>
        if pageSize = 2 ^ 21 then
          (s.setLeaf (entryAddr pd (index va 21)) pa (flags ||| pPS), .ok pageSize)
        else
          match xtGetOrMakePageTable s pd (index va 21) 0x07 with
          | (s, .error r) => (s, .error r)
          | (s, .ok pt) => (s.setLeaf (entryAddr pt (index va 12)) pa flags, .ok pageSize)

/-- The loop of `xtSetPages`. -/
def setPagesLoop (pml4 flags : ℕ) : ℕ → State → ℕ → ℕ → ℕ → Option (State × XTResult)
  | 0, _, _, _, _ => none
  | fuel + 1, s, va, pa, size =>
    if size = 0 then some (s, .success)
    else
      match setPage s pml4 va pa size flags with
      | (s, .error r) => some (s, r)
      | (s, .ok pageSize) =>
        setPagesLoop pml4 flags fuel s ((va + pageSize) % 2 ^ 64) ((pa + pageSize) % 2 ^ 64)
          ((size + (2 ^ 64 - pageSize)) % 2 ^ 64)

/-- `xtSetPages`. -/
def xtSetPages (fuel : ℕ) (s : State) (pageTable va pa size attributes : ℕ) :
    Option (State × XTResult) :=
  if pageTable = 0 then some (s, .invalidParameter)
  else setPagesLoop pageTable (xtBuildFlags attributes) fuel s va pa size

/-! ### Entries as numbers -/

theorem and_pPresent (e : ℕ) : e &&& pPresent = e % 2 := Nat.and_one_is_mod e

theorem and_pPS (e : ℕ) : e &&& pPS = 0 ↔ e / 2 ^ 7 % 2 = 0 := by
  rw [pPS, and_bit]
  omega

theorem and_addrMask (e : ℕ) : e &&& addrMask = e % 2 ^ 52 / 2 ^ 12 * 2 ^ 12 :=
  and_mask e (show 12 ≤ 52 by decide)

theorem index_val (va shift : ℕ) : (index va shift).val = va / 2 ^ shift % 512 := by
  simp only [index, Nat.shiftRight_eq_div_pow]
  exact Nat.and_two_pow_sub_one_eq_mod _ 9

/-- The flags of a leaf: below the address bits, and bit 63. -/
theorem xtBuildFlags_eq (attr : ℕ) : ∃ low nx, xtBuildFlags attr = low + nx * 2 ^ 63 ∧
    low < 8 ∧ low % 2 = 1 ∧ nx < 2 := by
  unfold xtBuildFlags
  dsimp only
  split_ifs
  all_goals first
    | exact ⟨7, 1, by decide, by decide, by decide, by decide⟩
    | exact ⟨7, 0, by decide, by decide, by decide, by decide⟩
    | exact ⟨5, 1, by decide, by decide, by decide, by decide⟩
    | exact ⟨5, 0, by decide, by decide, by decide, by decide⟩
    | exact ⟨3, 1, by decide, by decide, by decide, by decide⟩
    | exact ⟨3, 0, by decide, by decide, by decide, by decide⟩
    | exact ⟨1, 1, by decide, by decide, by decide, by decide⟩
    | exact ⟨1, 0, by decide, by decide, by decide, by decide⟩

/-! ### The tree of tables -/

/-- The word in a slot; the root slot only leads to the first table. -/
def read (mem : ℕ → ℕ) : Option ℕ → ℕ
  | none => 0
  | some a => mem a

/-- An entry at depth `n` that leads to a table: in the first table every present entry, in
    the last one none. -/
def Leads (n e : ℕ) : Prop := n < 4 ∧ e &&& pPresent ≠ 0 ∧ (n = 1 ∨ e &&& pPS = 0)

instance (n e : ℕ) : Decidable (Leads n e) := by
  unfold Leads
  infer_instance

/-- Slot `i` of the table that an entry leads to. -/
def child (root : ℕ) (n e : ℕ) (i : Fin 512) : Option (Option ℕ) :=
  if n = 0 then some (some (entryAddr root i))
  else if Leads n e then some (some (entryAddr (higherHalfMem (e &&& addrMask)) i))
  else none

/-- The indices of an address from the first table down. -/
def path (va : ℕ) : List (Fin 512) := [index va 39, index va 30, index va 21, index va 12]

/-- The present entry that a walk stops at, with the number of indices it does not use. -/
def leaf (mem : ℕ → ℕ) (root : ℕ) (p : List (Fin 512)) : Option (ℕ × ℕ) :=
  let (slot, rest) := Radix.stop (child root) (read mem) 0 none p
  if read mem slot &&& pPresent = 0 then none else some (read mem slot, rest.length)

@[simp] theorem read_some (mem : ℕ → ℕ) (a : ℕ) : read mem (some a) = mem a := rfl

@[simp] theorem child_zero (root e : ℕ) (i : Fin 512) :
    child root 0 e i = some (some (entryAddr root i)) := rfl

theorem child_of_leads {n e : ℕ} (root : ℕ) (hn : n ≠ 0) (h : Leads n e) (i : Fin 512) :
    child root n e i = some (some (entryAddr (higherHalfMem (e &&& addrMask)) i)) := by
  rw [child, if_neg hn, if_pos h]

theorem child_of_not_leads {n e : ℕ} (root : ℕ) (hn : n ≠ 0) (h : ¬ Leads n e) (i : Fin 512) :
    child root n e i = none := by
  rw [child, if_neg hn, if_neg h]

/-- A walk goes on through an entry that leads to a table. -/
theorem stop_of_leads {mem : ℕ → ℕ} {root n a : ℕ} (hn : n ≠ 0) (h : Leads n (mem a))
    (i : Fin 512) (p : List (Fin 512)) :
    Radix.stop (child root) (read mem) n (some a) (i :: p) =
      Radix.stop (child root) (read mem) (n + 1)
        (some (entryAddr (higherHalfMem (mem a &&& addrMask)) i)) p :=
  Radix.stop_cons_of_some (child_of_leads root hn h i) p

/-- A walk ends at an entry that leads nowhere. -/
theorem stop_of_not_leads {mem : ℕ → ℕ} {root n a : ℕ} (hn : n ≠ 0) (h : ¬ Leads n (mem a))
    (p : List (Fin 512)) :
    Radix.stop (child root) (read mem) n (some a) p = (some a, p) :=
  Radix.stop_blank (child_of_not_leads root hn h) p

/-- A walk that stops in slot `a`. -/
theorem leaf_of_stop {mem : ℕ → ℕ} {root a : ℕ} {p rest : List (Fin 512)}
    (h : Radix.stop (child root) (read mem) 0 none p = (some a, rest)) :
    leaf mem root p = if mem a &&& pPresent = 0 then none else some (mem a, rest.length) := by
  rw [leaf, h]
  rfl

/-- The walker returns the address in the leaf and the rest of the virtual address. -/
theorem xtGetPhysicalAddress_eq {pageTable : ℕ} (hne : pageTable ≠ 0) (mem : ℕ → ℕ) (va : ℕ) :
    xtGetPhysicalAddress mem pageTable va =
      match leaf mem (higherHalfMem pageTable) (path va) with
      | none => .error .notFound
      | some (e, k) => .ok ((e &&& addrMask) ||| (va &&& (2 ^ (12 + 9 * k) - 1))) := by
  rw [xtGetPhysicalAddress, if_neg hne]
  dsimp only
  have hstop : Radix.stop (child (higherHalfMem pageTable)) (read mem) 0 none (path va) = _ :=
    Radix.stop_cons_of_some (child_zero _ _ _) _
  rw [zero_add] at hstop
  -- one table after the other, as the walker reads them
  by_cases h1 : mem (entryAddr (higherHalfMem pageTable) (index va 39)) &&& pPresent = 0
  · rw [stop_of_not_leads (by decide) fun h => h.2.1 h1] at hstop
    rw [if_pos h1, leaf_of_stop hstop, if_pos h1]
  rw [stop_of_leads (by decide) ⟨by decide, h1, .inl rfl⟩] at hstop
  rw [if_neg h1]
  set a2 := entryAddr (higherHalfMem (mem (entryAddr (higherHalfMem pageTable) (index va 39)) &&&
    addrMask)) (index va 30)
  by_cases h2 : mem a2 &&& pPresent = 0
  · rw [stop_of_not_leads (by decide) fun h => h.2.1 h2] at hstop
    rw [if_pos h2, leaf_of_stop hstop, if_pos h2]
  rw [if_neg h2]
  by_cases h2' : mem a2 &&& pPS ≠ 0
  · rw [stop_of_not_leads (by decide) fun h => h2' (h.2.2.resolve_left (by decide))] at hstop
    rw [if_pos h2', leaf_of_stop hstop, if_neg h2]
    rfl
  rw [stop_of_leads (by decide) ⟨by decide, h2, .inr (not_not.mp h2')⟩] at hstop
  rw [if_neg h2']
  set a3 := entryAddr (higherHalfMem (mem a2 &&& addrMask)) (index va 21)
  by_cases h3 : mem a3 &&& pPresent = 0
  · rw [stop_of_not_leads (by decide) fun h => h.2.1 h3] at hstop
    rw [if_pos h3, leaf_of_stop hstop, if_pos h3]
  rw [if_neg h3]
  by_cases h3' : mem a3 &&& pPS ≠ 0
  · rw [stop_of_not_leads (by decide) fun h => h3' (h.2.2.resolve_left (by decide))] at hstop
    rw [if_pos h3', leaf_of_stop hstop, if_neg h3]
    rfl
  rw [stop_of_leads (by decide) ⟨by decide, h3, .inr (not_not.mp h3')⟩, Radix.stop_nil] at hstop
  rw [if_neg h3', leaf_of_stop hstop]
  split_ifs with h4
  · rfl
  · rfl

theorem notFound_iff {pageTable v : ℕ} (hne : pageTable ≠ 0) {mem : ℕ → ℕ} :
    xtGetPhysicalAddress mem pageTable v = .error .notFound ↔
      leaf mem (higherHalfMem pageTable) (path v) = none := by
  rw [xtGetPhysicalAddress_eq hne]
  cases leaf mem (higherHalfMem pageTable) (path v) with
  | none => exact iff_of_true rfl rfl
  | some x => simp

/-! ### Growing the tree -/

theorem not_leads_zero (n : ℕ) : ¬ Leads n 0 := fun h => h.2.1 (Nat.zero_and _)

theorem higherHalfMem_mod {x : ℕ} (h : x % 2 ^ 12 = 0) : higherHalfMem x % 2 ^ 12 = 0 := by
  rw [higherHalfMem, Nat.or_mod_two_pow, h]
  decide

theorem higherHalfMem_idem (x : ℕ) : higherHalfMem (higherHalfMem x) = higherHalfMem x := by
  rw [higherHalfMem, higherHalfMem, Nat.or_assoc, Nat.or_self]

theorem higherHalfMem_ne_zero (x : ℕ) : higherHalfMem x ≠ 0 := by
  intro h
  have hright := (Nat.or_eq_zero_iff.mp h).2
  exact absurd hright (by decide)

theorem entryAddr_right_inj {t : ℕ} {i j : Fin 512} (h : entryAddr t i = entryAddr t j) :
    i = j := by
  unfold entryAddr at h
  omega

/-- Entries of aligned tables are apart. -/
theorem entryAddr_left_inj {t u : ℕ} {i j : Fin 512} (ht : t % 2 ^ 12 = 0) (hu : u % 2 ^ 12 = 0)
    (h : entryAddr t i = entryAddr u j) : t = u := by
  unfold entryAddr at h
  omega

/-- What `xtSetPages` keeps: the slots of the tree have their labels, its absent entries are
    zero, the first table has no reserved bit in the entries `top`, and the pages to come
    are zero and not part of the tree. -/
structure Inv (root : ℕ) (top : Fin 512 → Prop) (s : State)
    (owner : Option ℕ → Option (List (Fin 512))) : Prop where
  owned : Radix.Owned (child root) (read s.mem) none owner
  absent : ∀ a, owner (some a) ≠ none → s.mem a &&& pPresent = 0 → s.mem a = 0
  top : ∀ i, top i → s.mem (entryAddr root i) &&& pPS = 0
  aligned : ∀ page ∈ s.pages, page % 2 ^ 12 = 0 ∧ page < 2 ^ 52
  zero : ∀ page ∈ s.pages, ∀ i, s.mem (entryAddr (higherHalfMem page) i) = 0
  apart : ∀ page ∈ s.pages, ∀ i, owner (some (entryAddr (higherHalfMem page) i)) = none
  distinct : (s.pages.map higherHalfMem).Nodup

/-- The table at `t` is the one that the indices `p` lead to. -/
structure TableAt (root : ℕ) (s : State) (owner : Option ℕ → Option (List (Fin 512)))
    (p : List (Fin 512)) (t : ℕ) : Prop where
  stop : ∀ i, Radix.stop (child root) (read s.mem) 0 none (p ++ [i]) = (some (entryAddr t i), [])
  owner : ∀ i, owner (some (entryAddr t i)) = some (p ++ [i])

variable {root : ℕ} {top : Fin 512 → Prop} {s s' : State}
  {owner owner' : Option ℕ → Option (List (Fin 512))} {p : List (Fin 512)} {t : ℕ}

theorem Inv.tableAt_root (h : Inv root top s owner) : TableAt root s owner [] root :=
  ⟨fun _ => rfl, fun i => h.owned.child h.owned.root (child_zero root _ i)⟩

theorem read_set_of_ne (s : State) {a : ℕ} (e : ℕ) {slot : Option ℕ} (h : slot ≠ some a) :
    read (s.set a e).mem slot = read s.mem slot := by
  cases slot with
  | none => rfl
  | some b =>
    have hb : b ≠ a := fun hb => h (by rw [hb])
    exact Function.update_of_ne hb _ _

theorem set_mem_self (s : State) (a e : ℕ) : (s.set a e).mem a = e := Function.update_self _ _ _

theorem set_mem_of_ne (s : State) {a b : ℕ} (e : ℕ) (h : b ≠ a) : (s.set a e).mem b = s.mem b :=
  Function.update_of_ne h _ _

/-- A walk that does not pass a slot finds the same leaf after a write to it. -/
theorem leaf_set_of_miss (h : Inv root top s owner) {a e : ℕ} {r q : List (Fin 512)}
    (ha : owner (some a) = some r) (hmiss : ¬ r <+: q) :
    leaf (s.set a e).mem root q = leaf s.mem root q := by
  obtain ⟨hstop, hread⟩ := Radix.stop_congr h.owned ha
    (fun slot hne _ => read_set_of_ne s e hne) h.owned.root (p := []) hmiss
  rw [List.length_nil] at hstop hread
  simp only [leaf, hstop, hread]

/-- A walk through a slot gets to it after a write to it. -/
theorem stop_set (h : Inv root top s owner) {a : ℕ} (e : ℕ) {r : List (Fin 512)}
    (ha : owner (some a) = some r)
    (hstop : Radix.stop (child root) (read s.mem) 0 none r = (some a, [])) (q : List (Fin 512)) :
    Radix.stop (child root) (read (s.set a e).mem) 0 none (r ++ q) =
      Radix.stop (child root) (read (s.set a e).mem) r.length (some a) q := by
  have hself := Radix.stop_congr_self h.owned ha (fun slot hne _ => read_set_of_ne s e hne)
    h.owned.root (p := []) rfl hstop
  rw [List.length_nil] at hself
  rw [Radix.stop_append hself, zero_add]

/-- A write of an entry that leads nowhere: the walks through the slot end there. -/
theorem leaf_set_of_hit (h : Inv root top s owner) {a e : ℕ} {r q : List (Fin 512)}
    (ha : owner (some a) = some r)
    (hstop : Radix.stop (child root) (read s.mem) 0 none r = (some a, []))
    (hr : r ≠ []) (he : ¬ Leads r.length e) (hpresent : e &&& pPresent ≠ 0) :
    leaf (s.set a e).mem root (r ++ q) = some (e, q.length) := by
  have hn : r.length ≠ 0 := by simpa using hr
  have hwalk := stop_set h e ha hstop q
  rw [stop_of_not_leads hn (by rwa [set_mem_self])] at hwalk
  rw [leaf_of_stop hwalk, set_mem_self, if_neg hpresent]

/-- Writing a leaf keeps the invariant. -/
theorem Inv.set_leaf (h : Inv root top s owner) {a e : ℕ} {r : List (Fin 512)}
    (ha : owner (some a) = some r) (hr : 2 ≤ r.length) (he : ¬ Leads r.length e)
    (hpresent : e &&& pPresent ≠ 0) : Inv root top (s.set a e) owner := by
  have hfresh : ∀ page ∈ s.pages, ∀ i, entryAddr (higherHalfMem page) i ≠ a := by
    intro page hpage i heq
    have hnone := h.apart page hpage i
    rw [heq, ha] at hnone
    cases hnone
  refine ⟨?_, ?_, ?_, h.aligned, ?_, h.apart, h.distinct⟩
  · refine h.owned.update ha (fun slot hne _ => read_set_of_ne s e hne) (fun _ _ => rfl) ?_ ?_
    · intro i slot hc
      rw [read_some, set_mem_self, child_of_not_leads root (by omega) he] at hc
      cases hc
    · intro slot p i hnone hsome
      rw [hnone] at hsome
      cases hsome
  · intro b hb habsent
    by_cases hba : b = a
    · rw [hba, set_mem_self] at habsent
      exact absurd habsent hpresent
    · rw [set_mem_of_ne s e hba] at habsent ⊢
      exact h.absent b hb habsent
  · intro i hi
    have hne : entryAddr root i ≠ a := by
      intro heq
      have howner := h.tableAt_root.owner i
      rw [heq, ha, Option.some.injEq] at howner
      rw [howner] at hr
      simp at hr
    rw [set_mem_of_ne s e hne]
    exact h.top i hi
  · intro page hpage i
    rw [set_mem_of_ne s e (hfresh page hpage i)]
    exact h.zero page hpage i

/-- The labels after the table at `t` is put below the indices `r`. -/
noncomputable def graft (owner : Option ℕ → Option (List (Fin 512))) (t : ℕ)
    (r : List (Fin 512)) (slot : Option ℕ) : Option (List (Fin 512)) :=
  open Classical in
  if h : ∃ j, slot = some (entryAddr t j) then some (r ++ [h.choose]) else owner slot

theorem graft_entry (t : ℕ) (r : List (Fin 512)) (i : Fin 512) :
    graft owner t r (some (entryAddr t i)) = some (r ++ [i]) := by
  have h : ∃ j, some (entryAddr t i) = some (entryAddr t j) := ⟨i, rfl⟩
  have hi : i = h.choose := entryAddr_right_inj (Option.some.inj h.choose_spec)
  rw [graft, dif_pos h, ← hi]

theorem graft_of_ne {slot : Option ℕ} (r : List (Fin 512))
    (h : ∀ j, slot ≠ some (entryAddr t j)) : graft owner t r slot = owner slot := by
  rw [graft, dif_neg (by simpa using h)]

section Grow

variable {a e page : ℕ} {pages : List ℕ} {r : List (Fin 512)}

/-- The slots of the next page are not part of the tree. -/
theorem Inv.page_apart (h : Inv root top s owner) (hpage : page ∈ s.pages) (slot : Option ℕ)
    (hslot : owner slot ≠ none) (j : Fin 512) : slot ≠ some (entryAddr (higherHalfMem page) j) := by
  rintro rfl
  exact hslot (h.apart page hpage j)

/-- An entry that is made to lead to the next page keeps the invariant. -/
theorem Inv.grow (h : Inv root top s owner) (hpages : s.pages = page :: pages)
    (ha : owner (some a) = some r) (hr : 1 ≤ r.length) (hr' : r.length ≤ 3)
    (hpresent : e &&& pPresent ≠ 0) (hps : e &&& pPS = 0) (haddr : e &&& addrMask = page) :
    Inv root top ({ s with pages := pages }.set a e) (graft owner (higherHalfMem page) r) := by
  have hin : page ∈ s.pages := by simp [hpages]
  have hsub : ∀ x ∈ pages, x ∈ s.pages := fun x hx => by simp [hpages, hx]
  have hkeep : ∀ slot, owner slot ≠ none →
      graft owner (higherHalfMem page) r slot = owner slot :=
    fun slot hslot => graft_of_ne r (h.page_apart hin slot hslot)
  have hane : ∀ x ∈ s.pages, ∀ i, entryAddr (higherHalfMem x) i ≠ a := fun x hx i heq =>
    h.page_apart hx (some a) (by simp [ha]) i (by rw [heq])
  have hleads : Leads r.length e := ⟨by omega, hpresent, .inr hps⟩
  refine ⟨?_, ?_, ?_, fun x hx => h.aligned x (hsub x hx), ?_, ?_, ?_⟩
  · refine h.owned.update ha (fun slot hne _ => read_set_of_ne _ e hne) hkeep ?_ ?_
    · intro i slot hc
      rw [read_some, set_mem_self, child_of_leads root (by omega) hleads, haddr] at hc
      rw [← Option.some.inj hc, graft_entry]
    · intro slot p i hnone hsome
      by_cases hnew : ∃ j, slot = some (entryAddr (higherHalfMem page) j)
      · obtain ⟨j, rfl⟩ := hnew
        rw [graft_entry, Option.some.injEq] at hsome
        rw [read_some, set_mem_of_ne _ e (hane page hin j)]
        change child root p.length (s.mem _) i = none
        rw [h.zero page hin j]
        refine child_of_not_leads root ?_ (not_leads_zero _) i
        simp [← hsome]
      · rw [graft_of_ne r (by simpa using hnew), hnone] at hsome
        cases hsome
  · intro b hb habsent
    by_cases hba : b = a
    · rw [hba, set_mem_self] at habsent
      exact absurd habsent hpresent
    rw [set_mem_of_ne _ e hba] at habsent ⊢
    by_cases hnew : ∃ j, some b = some (entryAddr (higherHalfMem page) j)
    · obtain ⟨j, hj⟩ := hnew
      rw [Option.some.inj hj]
      exact h.zero page hin j
    · rw [graft_of_ne r (by simpa using hnew)] at hb
      exact h.absent b hb habsent
  · intro i hi
    by_cases hba : entryAddr root i = a
    · rw [hba, set_mem_self]
      exact hps
    · rw [set_mem_of_ne _ e hba]
      exact h.top i hi
  · intro x hx i
    rw [set_mem_of_ne _ e (hane x (hsub x hx) i)]
    exact h.zero x (hsub x hx) i
  · intro x hx i
    have hdistinct := h.distinct
    rw [hpages, List.map_cons, List.nodup_cons] at hdistinct
    have hne : ∀ j, some (entryAddr (higherHalfMem x) i) ≠
        some (entryAddr (higherHalfMem page) j) := by
      intro j heq
      have hbase := entryAddr_left_inj (higherHalfMem_mod (h.aligned x (hsub x hx)).1)
        (higherHalfMem_mod (h.aligned page hin).1) (Option.some.inj heq)
      exact hdistinct.1 (hbase ▸ List.mem_map_of_mem hx)
    rw [graft_of_ne r hne]
    exact h.apart x (hsub x hx) i
  · have hdistinct := h.distinct
    rw [hpages, List.map_cons, List.nodup_cons] at hdistinct
    exact hdistinct.2

/-- The entry leads to the table in the new page. -/
theorem Inv.tableAt_grow (h : Inv root top s owner) (ha : owner (some a) = some r)
    (hstop : Radix.stop (child root) (read s.mem) 0 none r = (some a, []))
    (hr : 1 ≤ r.length) (hr' : r.length ≤ 3)
    (hpresent : e &&& pPresent ≠ 0) (hps : e &&& pPS = 0) (haddr : e &&& addrMask = page) :
    TableAt root ({ s with pages := pages }.set a e) (graft owner (higherHalfMem page) r) r
      (higherHalfMem page) := by
  refine ⟨fun i => ?_, graft_entry _ r⟩
  have hleads : Leads r.length e := ⟨by omega, hpresent, .inr hps⟩
  have hwalk := stop_set h e ha hstop [i]
  rw [stop_of_leads (by omega) (by rwa [set_mem_self]), set_mem_self, haddr,
    Radix.stop_nil] at hwalk
  exact hwalk

/-- The walks through the entry stop in the new table. -/
theorem Inv.stop_grow (h : Inv root top s owner) (hpages : s.pages = page :: pages)
    (ha : owner (some a) = some r)
    (hstop : Radix.stop (child root) (read s.mem) 0 none r = (some a, []))
    (hr : 1 ≤ r.length) (hr' : r.length ≤ 3)
    (hpresent : e &&& pPresent ≠ 0) (hps : e &&& pPS = 0) (haddr : e &&& addrMask = page)
    (i : Fin 512) (rest : List (Fin 512)) :
    Radix.stop (child root) (read ({ s with pages := pages }.set a e).mem) 0 none (r ++ i :: rest) =
      (some (entryAddr (higherHalfMem page) i), rest) ∧
    ({ s with pages := pages }.set a e).mem (entryAddr (higherHalfMem page) i) = 0 := by
  have hin : page ∈ s.pages := by simp [hpages]
  have hane : entryAddr (higherHalfMem page) i ≠ a := fun heq =>
    h.page_apart hin (some a) (by simp [ha]) i (by rw [heq])
  have hzero : (s.set a e).mem (entryAddr (higherHalfMem page) i) = 0 := by
    rw [set_mem_of_ne s e hane]
    exact h.zero page hin i
  have hafter := stop_set h e ha hstop (i :: rest)
  rw [stop_of_leads (by omega) (by rw [set_mem_self]; exact ⟨by omega, hpresent, .inr hps⟩),
    set_mem_self, haddr,
    stop_of_not_leads (by omega) (by rw [hzero]; exact not_leads_zero _)] at hafter
  exact ⟨hafter, hzero⟩

/-- A new empty table maps nothing that was not mapped before. -/
theorem Inv.leaf_grow (h : Inv root top s owner) (hpages : s.pages = page :: pages)
    (ha : owner (some a) = some r)
    (hstop : Radix.stop (child root) (read s.mem) 0 none r = (some a, []))
    (hr : 1 ≤ r.length) (hr' : r.length ≤ 3) (habsent : s.mem a = 0)
    (hpresent : e &&& pPresent ≠ 0) (hps : e &&& pPS = 0) (haddr : e &&& addrMask = page)
    {q : List (Fin 512)} (hq : q.length = 4) :
    leaf ({ s with pages := pages }.set a e).mem root q = leaf s.mem root q := by
  by_cases hmiss : r <+: q
  · obtain ⟨rest, rfl⟩ := hmiss
    cases rest with
    | nil =>
      simp at hq
      omega
    | cons i rest =>
      -- before, the walk ends at the zero entry; after, at a zero entry of the new table
      have hbefore := Radix.stop_append hstop (i :: rest)
      rw [zero_add, stop_of_not_leads (by omega)
        (by rw [habsent]; exact not_leads_zero _)] at hbefore
      obtain ⟨hafter, hzero⟩ :=
        h.stop_grow hpages ha hstop hr hr' hpresent hps haddr i rest
      rw [leaf_of_stop hbefore, habsent, leaf_of_stop hafter, hzero]
      rfl
  · exact leaf_set_of_miss h ha hmiss

end Grow

/-! ### One table down -/

/-- The entry of a new table. -/
theorem or_directory_flags {page : ℕ} (h : page % 2 ^ 12 = 0) :
    page ||| (0 &&& pteFlagsMask) ||| 0x07 = page + 7 := by
  rw [Nat.zero_and, Nat.or_zero]
  exact or_eq_add h (by decide)

/-- An entry that leads to a table is followed. -/
theorem xtGetOrMakePageTable_of_leads (flags : ℕ) {t : ℕ} {i : Fin 512} (hne : t ≠ 0)
    (hpresent : s.mem (entryAddr (higherHalfMem t) i) &&& pPresent ≠ 0)
    (hps : s.mem (entryAddr (higherHalfMem t) i) &&& pPS = 0) :
    xtGetOrMakePageTable s t i flags =
      (s, .ok (higherHalfMem (s.mem (entryAddr (higherHalfMem t) i) &&& addrMask))) := by
  rw [xtGetOrMakePageTable, if_neg hne]
  dsimp only
  rw [if_neg (not_or.mpr ⟨hpresent, not_not.mpr hps⟩)]

/-- `xtGetOrMakePageTable` follows an entry that leads to a table, and puts the next page below an
    entry that is zero. -/
theorem xtGetOrMakePageTable_cases (h : Inv root top s owner)
    (ht : TableAt root s owner p (higherHalfMem t)) (hne : t ≠ 0) (hp : p.length ≤ 2)
    {i : Fin 512} (hps : s.mem (entryAddr (higherHalfMem t) i) &&& pPS = 0) {t' : ℕ}
    (hcall : xtGetOrMakePageTable s t i 0x07 = (s', .ok t')) :
    (Leads (p ++ [i]).length (s.mem (entryAddr (higherHalfMem t) i)) ∧ s' = s ∧
      t' = higherHalfMem (s.mem (entryAddr (higherHalfMem t) i) &&& addrMask)) ∨
    s.mem (entryAddr (higherHalfMem t) i) = 0 ∧ ∃ page pages, s.pages = page :: pages ∧
      s' = { s with pages := pages }.set (entryAddr (higherHalfMem t) i) (page + 7) ∧
      t' = higherHalfMem page ∧ page + 7 &&& pPresent ≠ 0 ∧ page + 7 &&& pPS = 0 ∧
      page + 7 &&& addrMask = page := by
  have hlen : (p ++ [i]).length = p.length + 1 := by simp
  rw [xtGetOrMakePageTable, if_neg hne] at hcall
  dsimp only at hcall
  by_cases hpresent : s.mem (entryAddr (higherHalfMem t) i) &&& pPresent = 0
  · rw [if_pos (.inl hpresent)] at hcall
    have hzero := h.absent _ (by simp [ht.owner i]) hpresent
    cases hpages : s.pages with
    | nil =>
      rw [hpages] at hcall
      cases hcall
    | cons page pages =>
      obtain ⟨halign, hlt⟩ := h.aligned page (by simp [hpages])
      rw [hpages] at hcall
      dsimp only at hcall
      rw [hzero, or_directory_flags halign] at hcall
      cases hcall
      refine .inr ⟨hzero, page, pages, rfl, rfl, rfl, ?_, ?_, ?_⟩
      · rw [and_pPresent]
        omega
      · rw [and_pPS]
        omega
      · rw [and_addrMask]
        omega
  · rw [if_neg (not_or.mpr ⟨hpresent, not_not.mpr hps⟩)] at hcall
    cases hcall
    exact .inl ⟨⟨by omega, hpresent, .inr hps⟩, rfl, rfl⟩

/-- `xtGetOrMakePageTable` goes one table down and leaves the mapping as it is. -/
theorem xtGetOrMakePageTable_spec (h : Inv root top s owner)
    (ht : TableAt root s owner p (higherHalfMem t)) (hne : t ≠ 0) (hp : p.length ≤ 2)
    {i : Fin 512} (hps : s.mem (entryAddr (higherHalfMem t) i) &&& pPS = 0) {t' : ℕ}
    (hcall : xtGetOrMakePageTable s t i 0x07 = (s', .ok t')) :
    ∃ owner', Inv root top s' owner' ∧ TableAt root s' owner' (p ++ [i]) (higherHalfMem t') ∧
      t' = higherHalfMem t' ∧ t' ≠ 0 ∧
      ∀ q : List (Fin 512), q.length = 4 → leaf s'.mem root q = leaf s.mem root q := by
  have hlen : (p ++ [i]).length = p.length + 1 := by simp
  obtain ⟨hleads, rfl, rfl⟩ | ⟨hzero, page, pages, hpages, rfl, rfl, he1, he2, he3⟩ :=
    xtGetOrMakePageTable_cases h ht hne hp hps hcall
  · rw [higherHalfMem_idem]
    refine ⟨owner, h, ⟨fun j => ?_, fun j => ?_⟩, rfl, higherHalfMem_ne_zero _, fun _ _ => rfl⟩
    · rw [Radix.stop_append (ht.stop i), zero_add, stop_of_leads (by omega) hleads,
        Radix.stop_nil]
    · exact h.owned.child (ht.owner i) (child_of_leads root (by omega) hleads j)
  · rw [higherHalfMem_idem]
    exact ⟨_, h.grow hpages (ht.owner i) (by omega) (by omega) he1 he2 he3,
      h.tableAt_grow (ht.owner i) (ht.stop i) (by omega) (by omega) he1 he2 he3, rfl,
      higherHalfMem_ne_zero _, fun q hq => h.leaf_grow hpages (ht.owner i) (ht.stop i)
        (by omega) (by omega) hzero he1 he2 he3 hq⟩

/-! ### One pass of the loop -/

/-- The flags of a leaf that leaves out `k` levels. -/
def leafFlags (flags k : ℕ) : ℕ := if k = 0 then flags else flags ||| pPS

/-- The entry that maps a page of `2 ^ (12 + 9 * k)` bytes. -/
def leafEntry (pa flags k : ℕ) : ℕ := (pa &&& addrMask) ||| leafFlags flags k

/-- Every present leaf that the walk finds is a 4 KiB page. -/
def Small (mem : ℕ → ℕ) (root : ℕ) (q : List (Fin 512)) : Prop :=
  ∀ e k, leaf mem root q = some (e, k) → k = 0

/-- An entry in which the walk does not stop is not a large leaf. -/
theorem Inv.ps_clear_of_no_leaf (h : Inv root top s owner) (ht : TableAt root s owner p t)
    (hp : p ≠ []) {i : Fin 512} (rest : List (Fin 512))
    (hno : ∀ e, leaf s.mem root (p ++ [i] ++ rest) ≠ some (e, rest.length)) :
    s.mem (entryAddr t i) &&& pPS = 0 := by
  by_contra hps
  have hlen : (p ++ [i]).length ≠ 1 := by simpa using hp
  by_cases hpresent : s.mem (entryAddr t i) &&& pPresent = 0
  · rw [h.absent _ (by simp [ht.owner i]) hpresent, Nat.zero_and] at hps
    exact hps rfl
  · have hstop := Radix.stop_append (ht.stop i) rest
    rw [zero_add, stop_of_not_leads (by simp) fun hl => hl.2.2.elim hlen hps] at hstop
    exact hno _ (by rw [leaf_of_stop hstop, if_neg hpresent])

/-- A walk that stops further down passes the entry. -/
theorem TableAt.leads (ht : TableAt root s owner p t) {i : Fin 512} {rest : List (Fin 512)}
    {e k : ℕ} (hleaf : leaf s.mem root (p ++ [i] ++ rest) = some (e, k)) (hk : k < rest.length) :
    Leads (p ++ [i]).length (s.mem (entryAddr t i)) := by
  by_contra hnot
  have hstop := Radix.stop_append (ht.stop i) rest
  rw [zero_add, stop_of_not_leads (by simp) hnot] at hstop
  rw [leaf_of_stop hstop] at hleaf
  split_ifs at hleaf
  rw [Option.some.injEq, Prod.mk.injEq] at hleaf
  omega

/-- A walk that stops in the entry. -/
theorem TableAt.ends (ht : TableAt root s owner p t) {i : Fin 512} (rest : List (Fin 512))
    {e : ℕ} (hleaf : leaf s.mem root (p ++ [i] ++ rest) = some (e, rest.length))
    (hrest : rest ≠ []) :
    s.mem (entryAddr t i) = e ∧ e &&& pPresent ≠ 0 ∧ ¬ Leads (p ++ [i]).length e := by
  have hstop := Radix.stop_append (ht.stop i) rest
  rw [zero_add] at hstop
  by_cases hleads : Leads (p ++ [i]).length (s.mem (entryAddr t i))
  · exfalso
    obtain ⟨j, rest, rfl⟩ := List.exists_cons_of_ne_nil hrest
    rw [stop_of_leads (by simp) hleads] at hstop
    -- what is left over is shorter than what was left at the entry
    have hle := @Radix.stop_length_le _ _ _ (child root) (read s.mem) ((p ++ [i]).length + 1)
      (some (entryAddr (higherHalfMem (s.mem (entryAddr t i) &&& addrMask)) j)) rest
    rw [leaf, hstop] at hleaf
    dsimp only at hleaf
    split_ifs at hleaf
    rw [Option.some.injEq, Prod.mk.injEq, List.length_cons] at hleaf
    omega
  · rw [stop_of_not_leads (by simp) hleads] at hstop
    rw [leaf_of_stop hstop] at hleaf
    split_ifs at hleaf with habsent
    rw [Option.some.injEq, Prod.mk.injEq] at hleaf
    rw [hleaf.1] at habsent hleads
    exact ⟨hleaf.1, habsent, hleads⟩

theorem setLeaf_eq {pa : ℕ} (h : pa ≠ 2 ^ 64 - 1) (s : State) (a flags : ℕ) :
    s.setLeaf a pa flags = s.set a ((pa &&& addrMask) ||| flags) := by
  rw [State.setLeaf, if_neg h]

/-- Writing a leaf into a table of the tree maps exactly the walks through that slot. -/
theorem Inv.map_leaf (h : Inv root top s owner) (ht : TableAt root s owner p t)
    (hp : p ≠ []) {i : Fin 512} {e : ℕ} (hlead : ¬ Leads (p ++ [i]).length e)
    (hpresent : e &&& pPresent ≠ 0) :
    Inv root top (s.set (entryAddr t i) e) owner ∧
      ∀ q : List (Fin 512), q.length = 4 → leaf (s.set (entryAddr t i) e).mem root q =
        if p ++ [i] <+: q then some (e, 4 - (p ++ [i]).length) else leaf s.mem root q := by
  have hlen : 2 ≤ (p ++ [i]).length := by
    have := List.length_pos_of_ne_nil hp
    rw [List.length_append, List.length_singleton]
    omega
  refine ⟨h.set_leaf (ht.owner i) hlen hlead hpresent, fun q hq => ?_⟩
  split_ifs with hpre
  · obtain ⟨rest, rfl⟩ := hpre
    rw [leaf_set_of_hit h (ht.owner i) (ht.stop i) (by simp) hlead hpresent]
    rw [List.length_append] at hq
    rw [Option.some.injEq, Prod.mk.injEq]
    exact ⟨rfl, by omega⟩
  · exact leaf_set_of_miss h (ht.owner i) hpre

/-- A leaf entry is present and leads nowhere. -/
theorem leafEntry_eq (pa attr : ℕ) {k : ℕ} (hpa : pa % 2 ^ 12 = 0) :
    ∃ low nx, leafFlags (xtBuildFlags attr) k = low + nx * 2 ^ 63 ∧ nx < 2 ∧ low < 2 ^ 8 ∧
      low % 2 = 1 ∧ (k ≠ 0 → low / 2 ^ 7 % 2 = 1) ∧
      leafEntry pa (xtBuildFlags attr) k = pa % 2 ^ 52 + low + nx * 2 ^ 63 := by
  obtain ⟨low, nx, hflags, hlow, hodd, hnx⟩ := xtBuildFlags_eq attr
  -- the flags of the leaf, with or without the large-page bit
  obtain ⟨low', hlow', hlt', hodd', hps'⟩ : ∃ low', leafFlags (xtBuildFlags attr) k =
      low' + nx * 2 ^ 63 ∧ low' < 2 ^ 8 ∧ low' % 2 = 1 ∧ (k ≠ 0 → low' / 2 ^ 7 % 2 = 1) := by
    rw [leafFlags, hflags]
    split_ifs with hk
    · exact ⟨low, rfl, by omega, hodd, fun h => absurd hk h⟩
    · refine ⟨low + 2 ^ 7, ?_, by omega, by omega, fun _ => by omega⟩
      have h1 : nx * 2 ^ 63 ||| (2 ^ 7 + low) = nx * 2 ^ 63 + (2 ^ 7 + low) :=
        or_eq_add (Nat.mul_mod_left nx (2 ^ 63)) (by omega)
      have h2 : 2 ^ 7 ||| low = 2 ^ 7 + low := or_eq_add (k := 3) (by decide) (by omega)
      have h3 : nx * 2 ^ 63 ||| low = nx * 2 ^ 63 + low :=
        or_eq_add (Nat.mul_mod_left nx (2 ^ 63)) (by omega)
      rw [pPS, Nat.add_comm low, ← h3, Nat.or_assoc, Nat.or_comm low, h2, h1]
      omega
  refine ⟨low', nx, hlow', hnx, hlt', hodd', hps', ?_⟩
  have haddr : pa &&& addrMask = pa % 2 ^ 52 := by
    rw [and_addrMask]
    omega
  have h1 : nx * 2 ^ 63 ||| (pa % 2 ^ 52 + low') = nx * 2 ^ 63 + (pa % 2 ^ 52 + low') :=
    or_eq_add (Nat.mul_mod_left nx (2 ^ 63)) (by omega)
  have h2 : pa % 2 ^ 52 ||| low' = pa % 2 ^ 52 + low' :=
    or_eq_add (k := 12) (by omega) (by omega)
  have h3 : nx * 2 ^ 63 ||| low' = nx * 2 ^ 63 + low' :=
    or_eq_add (Nat.mul_mod_left nx (2 ^ 63)) (by omega)
  rw [leafEntry, haddr, hlow', Nat.add_comm low', ← h3, Nat.or_comm (nx * 2 ^ 63), ← Nat.or_assoc,
    h2, Nat.or_comm, h1]
  omega

theorem leafEntry_present (attr k : ℕ) {pa : ℕ} (hpa : pa % 2 ^ 12 = 0) :
    leafEntry pa (xtBuildFlags attr) k &&& pPresent ≠ 0 := by
  obtain ⟨low, nx, -, hnx, hlt, hodd, -, he⟩ := leafEntry_eq pa attr (k := k) hpa
  rw [and_pPresent, he]
  omega

theorem leafEntry_not_leads (attr : ℕ) {pa k : ℕ} (hpa : pa % 2 ^ 12 = 0) (hk : k ≤ 2) :
    ¬ Leads (4 - k) (leafEntry pa (xtBuildFlags attr) k) := by
  obtain ⟨low, nx, -, hnx, hlt, hodd, hps, he⟩ := leafEntry_eq pa attr (k := k) hpa
  rintro ⟨hdepth, -, hone | hclear⟩
  · omega
  · rw [and_pPS, he] at hclear
    have := hps (by omega)
    omega

/-- The flags of a leaf entry. -/
theorem leafEntry_flags (attr k : ℕ) {pa : ℕ} (hpa : pa % 2 ^ 12 = 0) :
    leafEntry pa (xtBuildFlags attr) k - (leafEntry pa (xtBuildFlags attr) k &&& addrMask) =
      leafFlags (xtBuildFlags attr) k := by
  obtain ⟨low, nx, hflags, hnx, hlt, hodd, -, he⟩ := leafEntry_eq pa attr (k := k) hpa
  rw [and_addrMask, he, hflags]
  omega

/-- The address a leaf entry gives to the bytes of its page. -/
theorem leafEntry_addr (attr : ℕ) {pa va v k : ℕ} (hk : k ≤ 2)
    (hpa : pa % 2 ^ (12 + 9 * k) = 0) (hva : va % 2 ^ (12 + 9 * k) = 0) (hle : va ≤ v)
    (hlt : v < va + 2 ^ (12 + 9 * k)) :
    (leafEntry pa (xtBuildFlags attr) k &&& addrMask) ||| (v &&& (2 ^ (12 + 9 * k) - 1)) =
      (pa + (v - va)) % 2 ^ 52 := by
  have hpa' : pa % 2 ^ 12 = 0 := by
    rw [pow_add] at hpa
    exact Nat.mod_eq_zero_of_dvd (dvd_of_mul_right_dvd (Nat.dvd_of_mod_eq_zero hpa))
  obtain ⟨low, nx, -, hnx, hlow, -, -, he⟩ := leafEntry_eq pa attr (k := k) hpa'
  have haddr : leafEntry pa (xtBuildFlags attr) k &&& addrMask = pa % 2 ^ 52 := by
    rw [and_addrMask, he]
    omega
  have hpos : 0 < 2 ^ (12 + 9 * k) := Nat.two_pow_pos _
  rw [haddr, Nat.and_two_pow_sub_one_eq_mod]
  interval_cases k
  · rw [or_eq_add (k := 12) (by omega) (by omega)]
    omega
  · rw [or_eq_add (k := 21) (by omega) (by omega)]
    omega
  · rw [or_eq_add (k := 30) (by omega) (by omega)]
    omega

/-- A canonical 48-bit address. -/
def Canonical (v : ℕ) : Prop := v < 2 ^ 47 ∨ 2 ^ 64 - 2 ^ 47 ≤ v ∧ v < 2 ^ 64

/-- The addresses whose walk starts with the first indices of `va` are those of its page. -/
theorem take_path_iff {va v k : ℕ} (hk : k ≤ 2) (hc : Canonical va) (hv : Canonical v)
    (hva : va % 2 ^ (12 + 9 * k) = 0) :
    (path va).take (4 - k) <+: path v ↔ va ≤ v ∧ v < va + 2 ^ (12 + 9 * k) := by
  unfold Canonical at hc hv
  interval_cases k
  · simp only [path, List.take, List.cons_prefix_cons, List.nil_prefix, and_true, Fin.ext_iff,
      index_val]
    omega
  · simp only [path, List.take, List.cons_prefix_cons, List.nil_prefix, and_true, Fin.ext_iff,
      index_val]
    omega
  · simp only [path, List.take, List.cons_prefix_cons, List.nil_prefix, and_true, Fin.ext_iff,
      index_val]
    omega

/-- The levels that the leaf of the next page leaves out. -/
def levelFor (va pa size : ℕ) : ℕ :=
  if va % 2 ^ 30 = 0 ∧ pa % 2 ^ 30 = 0 ∧ 2 ^ 30 ≤ size then 2
  else if va % 2 ^ 21 = 0 ∧ pa % 2 ^ 21 = 0 ∧ 2 ^ 21 ≤ size then 1
  else 0

theorem pageSizeFor_eq (va pa size : ℕ) :
    pageSizeFor va pa size = 2 ^ (12 + 9 * levelFor va pa size) := by
  unfold pageSizeFor levelFor
  split_ifs
  · rfl
  · rfl
  · rfl

theorem levelFor_le (va pa size : ℕ) : levelFor va pa size ≤ 2 := by
  unfold levelFor
  split_ifs <;> decide

/-- A page is aligned and not larger than the rest of the range. -/
theorem levelFor_spec {va pa size : ℕ} (hva : va % 2 ^ 12 = 0) (hpa : pa % 2 ^ 12 = 0)
    (hsize : size % 2 ^ 12 = 0) (hpos : size ≠ 0) :
    va % 2 ^ (12 + 9 * levelFor va pa size) = 0 ∧ pa % 2 ^ (12 + 9 * levelFor va pa size) = 0 ∧
      2 ^ (12 + 9 * levelFor va pa size) ≤ size := by
  unfold levelFor
  split_ifs with h1 h2
  · exact h1
  · exact h2
  · exact ⟨hva, hpa, by omega⟩

theorem le_pageSizeFor (va pa size : ℕ) : 2 ^ 12 ≤ pageSizeFor va pa size := by
  rw [pageSizeFor_eq]
  exact Nat.pow_le_pow_right (by decide) (by omega)

/-- `xtGetOrMakePageTable` along a list of indices. -/
def makeTables (s : State) (t : ℕ) : List (Fin 512) → State × Except XTResult ℕ
  | [] => (s, .ok t)
  | i :: p =>
    match xtGetOrMakePageTable s t i 0x07 with
    | (s, .error r) => (s, .error r)
    | (s, .ok t) => makeTables s t p

/-- The tables along the rest of a list of indices. -/
theorem makeTables_append_of_ok {p : List (Fin 512)} {s1 : State} {t1 : ℕ}
    (h : makeTables s t p = (s1, .ok t1)) (q : List (Fin 512)) :
    makeTables s t (p ++ q) = makeTables s1 t1 q := by
  induction p generalizing s t with
  | nil =>
    cases h
    rfl
  | cons j p ih =>
    rw [makeTables] at h
    rw [List.cons_append, makeTables]
    rcases hfirst : xtGetOrMakePageTable s t j 0x07 with ⟨s3, r | t3⟩
    · rw [hfirst] at h
      cases h
    · rw [hfirst] at h
      exact ih h

theorem makeTables_concat {p : List (Fin 512)} {i : Fin 512} {s2 : State} {t1 t2 : ℕ}
    (h : makeTables s t p = (s', .ok t1))
    (hnext : xtGetOrMakePageTable s' t1 i 0x07 = (s2, .ok t2)) :
    makeTables s t (p ++ [i]) = (s2, .ok t2) := by
  rw [makeTables_append_of_ok h, makeTables, hnext]
  rfl

/-- A pass gets the tables for its page, and writes the leaf in the last one. -/
theorem setPage_eq (s : State) (pml4 va pa size flags : ℕ) :
    setPage s pml4 va pa size flags =
      match makeTables s pml4 ((path va).take (3 - levelFor va pa size)) with
      | (s, .error r) => (s, .error r)
      | (s, .ok t) =>
        (s.setLeaf (entryAddr t (index va (12 + 9 * levelFor va pa size))) pa
          (leafFlags flags (levelFor va pa size)), .ok (2 ^ (12 + 9 * levelFor va pa size))) := by
  have hlevel := levelFor_le va pa size
  rw [setPage, pageSizeFor_eq]
  obtain hk | hk | hk : levelFor va pa size = 2 ∨ levelFor va pa size = 1 ∨
    levelFor va pa size = 0 := by omega
  · rw [hk]
    simp only [path, List.take, makeTables]
    rcases xtGetOrMakePageTable s pml4 (index va 39) 0x07 with ⟨s1, r | pdpt⟩
    · rfl
    · rfl
  · rw [hk]
    simp only [path, List.take, makeTables]
    rcases xtGetOrMakePageTable s pml4 (index va 39) 0x07 with ⟨s1, r | pdpt⟩
    · rfl
    dsimp only
    rcases xtGetOrMakePageTable s1 pdpt (index va 30) 0x07 with ⟨s2, r | pd⟩
    · rfl
    · rfl
  · rw [hk]
    simp only [path, List.take, makeTables]
    rcases xtGetOrMakePageTable s pml4 (index va 39) 0x07 with ⟨s1, r | pdpt⟩
    · rfl
    dsimp only
    rcases xtGetOrMakePageTable s1 pdpt (index va 30) 0x07 with ⟨s2, r | pd⟩
    · rfl
    dsimp only
    rcases xtGetOrMakePageTable s2 pd (index va 21) 0x07 with ⟨s3, r | pt⟩
    · rfl
    · rfl

/-- What a pass that succeeds has done. -/
theorem setPage_ok_iff {pml4 va pa size flags pageSize : ℕ} :
    setPage s pml4 va pa size flags = (s', .ok pageSize) ↔
      pageSize = 2 ^ (12 + 9 * levelFor va pa size) ∧ ∃ s1 t,
        makeTables s pml4 ((path va).take (3 - levelFor va pa size)) = (s1, .ok t) ∧
        s' = s1.setLeaf (entryAddr t (index va (12 + 9 * levelFor va pa size))) pa
          (leafFlags flags (levelFor va pa size)) := by
  rw [setPage_eq]
  rcases makeTables s pml4 ((path va).take (3 - levelFor va pa size)) with ⟨s1, r | t⟩
  · simp
  · simp only [Prod.mk.injEq, Except.ok.injEq]
    constructor
    · rintro ⟨rfl, rfl⟩
      exact ⟨rfl, s1, t, ⟨rfl, rfl⟩, rfl⟩
    · rintro ⟨rfl, s2, t2, ⟨rfl, rfl⟩, rfl⟩
      exact ⟨rfl, rfl⟩

/-- The indices of the tables of a page, and the index in the last one. -/
theorem take_path_concat {k : ℕ} (hk : k ≤ 2) (va : ℕ) :
    (path va).take (3 - k) ++ [index va (12 + 9 * k)] = (path va).take (4 - k) := by
  interval_cases k
  · rfl
  · rfl
  · rfl

/-- From `s` the tables have been followed, or made, along `p` down to the table at `t`,
    with the mapping still that of `s`. -/
structure Down (root : ℕ) (top : Fin 512 → Prop) (s s' : State) (p : List (Fin 512)) (t : ℕ) :
    Prop where
  table : ∃ owner, Inv root top s' owner ∧ TableAt root s' owner p (higherHalfMem t)
  ne_zero : t ≠ 0
  high : p ≠ [] → higherHalfMem t = t
  same : ∀ q : List (Fin 512), q.length = 4 → leaf s'.mem root q = leaf s.mem root q

section next

variable {va k : ℕ} {i : Fin 512}

/-- The entry on the way to a page is not a large leaf, if no larger leaf is in the way. -/
theorem Down.clear (hd : Down root top s s' p t) (hp : p ++ [i] <+: (path va).take (3 - k))
    (htop : top (index va 39))
    (hfree : ∀ e j, leaf s.mem root (path va) = some (e, j) → j ≤ k) :
    s'.mem (entryAddr (higherHalfMem t) i) &&& pPS = 0 := by
  obtain ⟨owner, hinv, htable⟩ := hd.table
  obtain ⟨rest, hrest⟩ := hp.trans (List.take_prefix _ _)
  by_cases hnil : p = []
  · subst hnil
    obtain rfl : i = index va 39 := by simpa [path] using congrArg List.head? hrest
    have haddr := htable.stop (index va 39)
    rw [List.nil_append, Radix.stop_cons_of_some (child_zero root _ _), Radix.stop_nil,
      Prod.mk.injEq, Option.some.injEq] at haddr
    rw [← haddr.1]
    exact hinv.top _ htop
  · refine hinv.ps_clear_of_no_leaf htable hnil rest fun e he => ?_
    rw [hrest, hd.same _ rfl] at he
    -- the entry is above the page
    have hle := hfree e _ he
    have hlen := congrArg List.length hrest
    have hlen' := hp.length_le
    rw [List.length_append] at hlen
    rw [List.length_take] at hlen'
    have hpath : (path va).length = 4 := rfl
    have hpos : 0 < (p ++ [i]).length := by simp
    omega

/-- One more table on the way to a page. -/
theorem Down.next (hd : Down root top s s' p t) (hp : p ++ [i] <+: (path va).take (3 - k))
    (htop : top (index va 39))
    (hfree : ∀ e j, leaf s.mem root (path va) = some (e, j) → j ≤ k) {s2 : State} {t2 : ℕ}
    (hcall : xtGetOrMakePageTable s' t i 0x07 = (s2, .ok t2)) :
    Down root top s s2 (p ++ [i]) t2 := by
  obtain ⟨owner, hinv, htable⟩ := hd.table
  have hlen := hp.length_le
  rw [List.length_append, List.length_singleton, List.length_take] at hlen
  obtain ⟨owner2, hinv2, htable2, hhigh, hne, hsame⟩ := xtGetOrMakePageTable_spec hinv htable
    hd.ne_zero (by omega) (hd.clear hp htop hfree) hcall
  refine ⟨⟨owner2, hinv2, htable2⟩, hne, fun _ => hhigh.symm, fun q hq => ?_⟩
  rw [hsame q hq, hd.same q hq]

end next

/-- What holds of the first table, and is kept on the way down, holds of the last one. -/
theorem makeTables_induct {M : State → List (Fin 512) → ℕ → Prop} {q : List (Fin 512)} {t2 : ℕ}
    (hfirst : M s [] t)
    (hstep : ∀ s1 p t1 i s2 t2, p ++ [i] <+: q → M s1 p t1 →
      xtGetOrMakePageTable s1 t1 i 0x07 = (s2, .ok t2) → M s2 (p ++ [i]) t2)
    (hcall : makeTables s t q = (s', .ok t2)) : M s' q t2 := by
  suffices hrun : ∀ q1 q2 s1 t1, q1 ++ q2 = q → M s1 q1 t1 →
      makeTables s1 t1 q2 = (s', .ok t2) → M s' q t2 from hrun [] q s t rfl hfirst hcall
  intro q1 q2
  induction q2 generalizing q1 with
  | nil =>
    rintro s1 t1 rfl hm hcall
    cases hcall
    rwa [List.append_nil]
  | cons i q2 ih =>
    intro s1 t1 hq hm hcall
    rw [makeTables] at hcall
    rcases hnext : xtGetOrMakePageTable s1 t1 i 0x07 with ⟨s3, r | t3⟩
    · rw [hnext] at hcall
      cases hcall
    rw [hnext] at hcall
    have hq' : q1 ++ [i] ++ q2 = q := by rw [← hq, List.append_assoc, List.singleton_append]
    exact ih (q1 ++ [i]) s3 t3 hq' (hstep _ _ _ _ _ _ ⟨q2, hq'⟩ hm hnext) hcall

/-- A leaf written in the table that has been reached. -/
theorem Down.map_page (hd : Down root top s s' p t) (attr : ℕ) {va pa k : ℕ} {i : Fin 512}
    (hk : k ≤ 2) (hpath : p ++ [i] = (path va).take (4 - k)) (hpa : pa % 2 ^ 12 = 0)
    (hmax : pa ≠ 2 ^ 64 - 1) :
    ∃ owner', Inv root top
        (s'.setLeaf (entryAddr t i) pa (leafFlags (xtBuildFlags attr) k)) owner' ∧
      ∀ q : List (Fin 512), q.length = 4 →
        leaf (s'.setLeaf (entryAddr t i) pa (leafFlags (xtBuildFlags attr) k)).mem root q =
          if (path va).take (4 - k) <+: q then some (leafEntry pa (xtBuildFlags attr) k, k)
          else leaf s.mem root q := by
  obtain ⟨owner, hinv, htable⟩ := hd.table
  have hlen : (p ++ [i]).length = 4 - k := by
    rw [hpath, List.length_take]
    exact Nat.min_eq_left (Nat.sub_le 4 k)
  have hp : p ≠ [] := by
    rintro rfl
    simp at hlen
    omega
  rw [hd.high hp] at htable
  have hk4 : 4 - (4 - k) = k := by omega
  obtain ⟨hinv', hleaf⟩ := hinv.map_leaf htable hp (i := i)
    (e := leafEntry pa (xtBuildFlags attr) k)
    (by rw [hlen]; exact leafEntry_not_leads attr hpa hk) (leafEntry_present attr k hpa)
  rw [setLeaf_eq hmax]
  refine ⟨owner, hinv', fun q hq => ?_⟩
  rw [← hd.same q hq, ← hpath]
  exact (hleaf q hq).trans (by rw [hlen, hk4])

/-- One pass maps one page, and no other address, if no larger leaf is in the way. -/
theorem setPage_spec {pageTable : ℕ} (hne : pageTable ≠ 0)
    (h : Inv (higherHalfMem pageTable) top s owner) {va pa size attr : ℕ}
    (hva : va % 2 ^ 12 = 0) (hpa : pa % 2 ^ 12 = 0) (hsize : size % 2 ^ 12 = 0) (hpos : size ≠ 0)
    (htop : top (index va 39))
    (hfree : ∀ e k, leaf s.mem (higherHalfMem pageTable) (path va) = some (e, k) →
      2 ^ (12 + 9 * k) ≤ pageSizeFor va pa size) {pageSize : ℕ}
    (hcall : setPage s pageTable va pa size (xtBuildFlags attr) = (s', .ok pageSize)) :
    ∃ k ≤ 2, pageSize = 2 ^ (12 + 9 * k) ∧ va % pageSize = 0 ∧ pa % pageSize = 0 ∧
      pageSize ≤ size ∧ ∃ owner', Inv (higherHalfMem pageTable) top s' owner' ∧
      ∀ q : List (Fin 512), q.length = 4 → leaf s'.mem (higherHalfMem pageTable) q =
        if (path va).take (4 - k) <+: q then some (leafEntry pa (xtBuildFlags attr) k, k)
        else leaf s.mem (higherHalfMem pageTable) q := by
  obtain ⟨rfl, s1, t, hmake, rfl⟩ := setPage_ok_iff.mp hcall
  obtain ⟨hvak, hpak, hle⟩ := levelFor_spec hva hpa hsize hpos
  rw [pageSizeFor_eq] at hfree
  have hk := levelFor_le va pa size
  set k := levelFor va pa size
  have hroot : Down (higherHalfMem pageTable) top s s [] pageTable :=
    ⟨⟨owner, h, h.tableAt_root⟩, hne, fun hnil => absurd rfl hnil, fun _ _ => rfl⟩
  have hlevel : ∀ e j, leaf s.mem (higherHalfMem pageTable) (path va) = some (e, j) → j ≤ k := by
    intro e j he
    have hle := (Nat.pow_le_pow_iff_right (by decide)).mp (hfree e j he)
    omega
  have hdown := makeTables_induct hroot
    (fun _ _ _ _ _ _ hp hd hnext => hd.next hp htop hlevel hnext) hmake
  exact ⟨k, hk, rfl, hvak, hpak, hle, hdown.map_page attr hk (take_path_concat hk va) hpa (by omega)⟩

/-! ### The whole loop -/

/-- A range in one canonical half. -/
def InHalf (va size : ℕ) : Prop :=
  va + size ≤ 2 ^ 47 ∨ 2 ^ 64 - 2 ^ 47 ≤ va ∧ va + size ≤ 2 ^ 64

/-- Address `v` is mapped to `x` by a leaf with the given flags. -/
def Mapped (mem : ℕ → ℕ) (root flags v x : ℕ) : Prop :=
  ∃ e k, leaf mem root (path v) = some (e, k) ∧
    (e &&& addrMask) ||| (v &&& (2 ^ (12 + 9 * k) - 1)) = x ∧
    e - (e &&& addrMask) = leafFlags flags k

theorem InHalf.canonical {va size v : ℕ} (h : InHalf va size) (hle : va ≤ v)
    (hlt : v < va + size) : Canonical v := by
  unfold InHalf at h
  unfold Canonical
  omega

theorem xtGetOrMakePageTable_error {i : Fin 512} {flags : ℕ} {r : XTResult}
    (h : xtGetOrMakePageTable s t i flags = (s', .error r)) : r ≠ .success := by
  rw [xtGetOrMakePageTable] at h
  dsimp only at h
  rintro rfl
  split_ifs at h with h1 h2
  · cases h
  · cases hpages : s.pages with
    | nil =>
      rw [hpages] at h
      cases h
    | cons page pages =>
      rw [hpages] at h
      cases h
  · cases h

theorem makeTables_error {p : List (Fin 512)} {r : XTResult}
    (h : makeTables s t p = (s', .error r)) : r ≠ .success := by
  induction p generalizing s t with
  | nil => cases h
  | cons i p ih =>
    rw [makeTables] at h
    rcases hnext : xtGetOrMakePageTable s t i 0x07 with ⟨s1, r1 | t1⟩
    · rw [hnext] at h
      cases h
      exact xtGetOrMakePageTable_error hnext
    · rw [hnext] at h
      exact ih h

theorem setPage_error {pml4 va pa size flags : ℕ} {r : XTResult}
    (h : setPage s pml4 va pa size flags = (s', .error r)) : r ≠ .success := by
  rw [setPage_eq] at h
  rcases hmake : makeTables s pml4 ((path va).take (3 - levelFor va pa size)) with ⟨s1, r1 | t⟩
  · rw [hmake] at h
    cases h
    exact makeTables_error hmake
  · rw [hmake] at h
    cases h

/-- **Step**: one pass maps the addresses of its page and no others. -/
theorem setPage_maps {pageTable : ℕ} (hne : pageTable ≠ 0)
    (h : Inv (higherHalfMem pageTable) top s owner) {va pa size attr : ℕ}
    (hva : va % 2 ^ 12 = 0) (hpa : pa % 2 ^ 12 = 0) (hsize : size % 2 ^ 12 = 0) (hpos : size ≠ 0)
    (hhalf : InHalf va size) (htop : top (index va 39))
    (hsmall : Small s.mem (higherHalfMem pageTable) (path va)) {pageSize : ℕ}
    (hcall : setPage s pageTable va pa size (xtBuildFlags attr) = (s', .ok pageSize)) :
    pageSize % 2 ^ 12 = 0 ∧ 0 < pageSize ∧ pageSize ≤ size ∧
      (∃ owner', Inv (higherHalfMem pageTable) top s' owner') ∧
      (∀ v, va ≤ v → v < va + pageSize →
        Mapped s'.mem (higherHalfMem pageTable) (xtBuildFlags attr) v ((pa + (v - va)) % 2 ^ 52)) ∧
      ∀ v, Canonical v → v < va ∨ va + pageSize ≤ v →
        leaf s'.mem (higherHalfMem pageTable) (path v) =
          leaf s.mem (higherHalfMem pageTable) (path v) := by
  obtain ⟨k, hk, rfl, hvak, hpak, hle, owner', hinv, hleaf⟩ :=
    setPage_spec hne h hva hpa hsize hpos htop (fun e k he => by
      rw [hsmall e k he]
      exact le_pageSizeFor va pa size) hcall
  have hcanon : Canonical va := hhalf.canonical le_rfl (by omega)
  refine ⟨?_, Nat.two_pow_pos _, hle, ⟨owner', hinv⟩, fun v h1 h2 => ?_, fun v hv hout => ?_⟩
  · rw [pow_add]
    exact Nat.mul_mod_right _ _
  · have hv : Canonical v := hhalf.canonical h1 (by omega)
    have hpre := (take_path_iff hk hcanon hv hvak).mpr ⟨h1, h2⟩
    exact ⟨_, k, by rw [hleaf _ rfl, if_pos hpre], leafEntry_addr attr hk hpak hvak h1 h2,
      leafEntry_flags attr k hpa⟩
  · rw [hleaf _ rfl, if_neg]
    rw [take_path_iff hk hcanon hv hvak]
    omega

/-- The loop after a pass. The address wraps only after the last page, and then it is not used. -/
theorem setPagesLoop_step {pml4 va pa size flags : ℕ} (fuel : ℕ) (hpos : size ≠ 0)
    (hle : 2 ^ (12 + 9 * levelFor va pa size) ≤ size) (hhalf : InHalf va size)
    (hend : pa + size < 2 ^ 64)
    (hpage : setPage s pml4 va pa size flags =
      (s', .ok (2 ^ (12 + 9 * levelFor va pa size)))) :
    setPagesLoop pml4 flags (fuel + 1) s va pa size =
      setPagesLoop pml4 flags fuel s' (va + 2 ^ (12 + 9 * levelFor va pa size))
        (pa + 2 ^ (12 + 9 * levelFor va pa size)) (size - 2 ^ (12 + 9 * levelFor va pa size)) := by
  rw [setPagesLoop, if_neg hpos, hpage]
  dsimp only
  have hpow := Nat.two_pow_pos (12 + 9 * levelFor va pa size)
  set pageSize := 2 ^ (12 + 9 * levelFor va pa size)
  unfold InHalf at hhalf
  rw [show (size + (2 ^ 64 - pageSize)) % 2 ^ 64 = size - pageSize by omega]
  by_cases hlast : size - pageSize = 0
  · rw [hlast]
    cases fuel with
    | zero => rfl
    | succ fuel => rw [setPagesLoop, setPagesLoop, if_pos rfl, if_pos rfl]
  · rw [Nat.mod_eq_of_lt (show va + pageSize < 2 ^ 64 by omega),
      Nat.mod_eq_of_lt (show pa + pageSize < 2 ^ 64 by omega)]

/-- **Runs**: what holds of the rest of a range is carried back over each pass of a loop that
    succeeds. -/
theorem setPagesLoop_induct {M : ℕ → State → ℕ → ℕ → ℕ → Prop} {pml4 flags : ℕ}
    (hdone : ∀ fuel va pa, M (fuel + 1) s' va pa 0)
    (hstep : ∀ fuel s1 s2 va pa size, size ≠ 0 → va % 2 ^ 12 = 0 → pa % 2 ^ 12 = 0 →
      size % 2 ^ 12 = 0 → InHalf va size → pa + size < 2 ^ 64 →
      setPage s1 pml4 va pa size flags = (s2, .ok (2 ^ (12 + 9 * levelFor va pa size))) →
      M fuel s2 (va + 2 ^ (12 + 9 * levelFor va pa size))
        (pa + 2 ^ (12 + 9 * levelFor va pa size)) (size - 2 ^ (12 + 9 * levelFor va pa size)) →
      M (fuel + 1) s1 va pa size)
    {fuel va pa size : ℕ} (hva : va % 2 ^ 12 = 0) (hpa : pa % 2 ^ 12 = 0)
    (hsize : size % 2 ^ 12 = 0) (hhalf : InHalf va size) (hend : pa + size < 2 ^ 64)
    (hcall : setPagesLoop pml4 flags fuel s va pa size = some (s', .success)) :
    M fuel s va pa size := by
  induction fuel generalizing s va pa size with
  | zero => cases hcall
  | succ fuel ih =>
    by_cases hzero : size = 0
    · subst hzero
      rw [setPagesLoop, if_pos rfl] at hcall
      cases hcall
      exact hdone fuel va pa
    rcases hpage : setPage s pml4 va pa size flags with ⟨s1, r | pageSize⟩
    · rw [setPagesLoop, if_neg hzero, hpage] at hcall
      cases hcall
      exact absurd rfl (setPage_error hpage)
    obtain ⟨rfl, -⟩ := setPage_ok_iff.mp hpage
    obtain ⟨-, -, hle⟩ := levelFor_spec hva hpa hsize hzero
    rw [setPagesLoop_step fuel hzero hle hhalf hend hpage] at hcall
    have hmul : 2 ^ (12 + 9 * levelFor va pa size) = 2 ^ 12 * 2 ^ (9 * levelFor va pa size) :=
      pow_add _ _ _
    refine hstep fuel s s1 va pa size hzero hva hpa hsize hhalf hend hpage
      (ih (by omega) (by omega) (by omega) ?_ (by omega) hcall)
    unfold InHalf at hhalf ⊢
    omega

/-- **Run**: the loop maps the addresses of the range and no others. -/
theorem setPagesLoop_maps {pageTable attr : ℕ} (hne : pageTable ≠ 0) (fuel : ℕ) {va pa size : ℕ}
    (h : Inv (higherHalfMem pageTable) top s owner)
    (hva : va % 2 ^ 12 = 0) (hpa : pa % 2 ^ 12 = 0) (hsize : size % 2 ^ 12 = 0)
    (hhalf : InHalf va size) (hend : pa + size < 2 ^ 64)
    (htop : ∀ v, va ≤ v → v < va + size → top (index v 39))
    (hsmall : ∀ v, va ≤ v → v < va + size → Small s.mem (higherHalfMem pageTable) (path v))
    (hcall : setPagesLoop pageTable (xtBuildFlags attr) fuel s va pa size = some (s', .success)) :
    (∀ v, va ≤ v → v < va + size →
      Mapped s'.mem (higherHalfMem pageTable) (xtBuildFlags attr) v ((pa + (v - va)) % 2 ^ 52)) ∧
    ∀ v, Canonical v → v < va ∨ va + size ≤ v →
      leaf s'.mem (higherHalfMem pageTable) (path v) =
        leaf s.mem (higherHalfMem pageTable) (path v) := by
  revert owner htop hsmall
  refine setPagesLoop_induct (M := fun _ s va pa size => ∀ {owner},
    Inv (higherHalfMem pageTable) top s owner →
    (∀ v, va ≤ v → v < va + size → top (index v 39)) →
    (∀ v, va ≤ v → v < va + size → Small s.mem (higherHalfMem pageTable) (path v)) →
    (∀ v, va ≤ v → v < va + size → Mapped s'.mem (higherHalfMem pageTable) (xtBuildFlags attr) v
      ((pa + (v - va)) % 2 ^ 52)) ∧
    ∀ v, Canonical v → v < va ∨ va + size ≤ v → leaf s'.mem (higherHalfMem pageTable) (path v) =
      leaf s.mem (higherHalfMem pageTable) (path v)) ?_ ?_ hva hpa hsize hhalf hend hcall
  · intro _ va pa owner _ _ _
    exact ⟨fun v h1 h2 => absurd h2 (by omega), fun _ _ _ => rfl⟩
  intro _ s s1 va pa size hpos hva hpa hsize hhalf hend hpage ih owner h htop hsmall
  obtain ⟨halign, hpow, hle, ⟨owner1, hinv1⟩, hin1, hout1⟩ := setPage_maps hne h hva hpa hsize
    hpos hhalf (htop va le_rfl (by omega)) (hsmall va le_rfl (by omega)) hpage
  set pageSize := 2 ^ (12 + 9 * levelFor va pa size)
  have hcanon : ∀ v, va ≤ v → v < va + size → Canonical v := fun v h1 h2 => hhalf.canonical h1 h2
  obtain ⟨hin, hout⟩ := ih hinv1 (fun v h1 h2 => htop v (by omega) (by omega))
    (fun v h1 h2 => by
      unfold Small
      rw [hout1 v (hcanon v (by omega) (by omega)) (by omega)]
      exact hsmall v (by omega) (by omega))
  refine ⟨fun v h1 h2 => ?_, fun v hv h1 => ?_⟩
  · by_cases hfirst : v < va + pageSize
    · obtain ⟨e, k, hleaf, haddr, hflags⟩ := hin1 v h1 hfirst
      exact ⟨e, k, by rw [hout v (hcanon v h1 h2) (.inl hfirst), hleaf], haddr, hflags⟩
    · have hmap := hin v (by omega) (by omega)
      have hoff : pa + pageSize + (v - (va + pageSize)) = pa + (v - va) := by omega
      rwa [hoff] at hmap
  · rw [hout v hv (by omega), hout1 v hv (by omega)]

theorem setPage_ok {pml4 va pa size flags pageSize : ℕ}
    (h : setPage s pml4 va pa size flags = (s', .ok pageSize)) :
    pageSize = pageSizeFor va pa size := by
  rw [pageSizeFor_eq]
  exact (setPage_ok_iff.mp h).1

/-- The loop ends: every pass takes at least 4 KiB off the size. -/
theorem setPagesLoop_isSome (pml4 flags fuel : ℕ) (s : State) {va pa size : ℕ}
    (hva : va % 2 ^ 12 = 0) (hpa : pa % 2 ^ 12 = 0) (hsize : size % 2 ^ 12 = 0)
    (hlt : size < 2 ^ 64) (hfuel : size / 2 ^ 12 < fuel) :
    (setPagesLoop pml4 flags fuel s va pa size).isSome := by
  induction fuel generalizing s va pa size with
  | zero => omega
  | succ fuel ih =>
    rw [setPagesLoop]
    by_cases hzero : size = 0
    · rw [if_pos hzero]
      rfl
    rw [if_neg hzero]
    rcases hpage : setPage s pml4 va pa size flags with ⟨s1, r | pageSize⟩
    · rfl
    obtain ⟨-, -, hle⟩ := levelFor_spec hva hpa hsize hzero
    have hps : pageSize = 2 ^ 12 * 2 ^ (9 * levelFor va pa size) := by
      rw [setPage_ok hpage, pageSizeFor_eq, pow_add]
    have hpos : 0 < 2 ^ (9 * levelFor va pa size) := Nat.two_pow_pos _
    rw [pow_add, ← hps] at hle
    have hsize' : (size + (2 ^ 64 - pageSize)) % 2 ^ 64 = size - pageSize := by omega
    dsimp only
    rw [hsize']
    exact ih s1 (by omega) (by omega) (by omega) (by omega) (by omega)

/-- `xtSetPages` returns on every aligned range. -/
theorem xtSetPages_isSome (s : State) (pageTable attributes : ℕ) {va pa size : ℕ}
    (hva : va % 2 ^ 12 = 0) (hpa : pa % 2 ^ 12 = 0) (hsize : size % 2 ^ 12 = 0)
    (hlt : size < 2 ^ 64) :
    (xtSetPages (size / 2 ^ 12 + 1) s pageTable va pa size attributes).isSome := by
  rw [xtSetPages]
  split_ifs with h
  · rfl
  · exact setPagesLoop_isSome _ _ _ s hva hpa hsize hlt (Nat.lt_succ_self _)

/-! ### Setting a range of pages -/

/-- The walk along `p` gets to a slot. -/
def Reaches (mem : ℕ → ℕ) (pageTable : ℕ) (p : List (Fin 512)) (slot : Option ℕ) : Prop :=
  Radix.stop (child (higherHalfMem pageTable)) (read mem) 0 none p = (slot, [])

/-- A tree of tables: aligned, no entry on two paths, and no bit set in an absent entry. -/
structure Tree (mem : ℕ → ℕ) (pageTable : ℕ) : Prop where
  aligned : pageTable % 2 ^ 12 = 0
  unshared : ∀ p q slot, Reaches mem pageTable p slot → Reaches mem pageTable q slot → p = q
  absent : ∀ p a, Reaches mem pageTable p (some a) → mem a &&& pPresent = 0 → mem a = 0

/-- The pages the allocator returns: distinct, zero-filled and not part of the tree. -/
structure Fresh (s : State) (pageTable : ℕ) : Prop where
  aligned : ∀ page ∈ s.pages, page % 2 ^ 12 = 0 ∧ page < 2 ^ 52
  zero : ∀ page ∈ s.pages, ∀ i, s.mem (entryAddr (higherHalfMem page) i) = 0
  apart : ∀ page ∈ s.pages, ∀ i p,
    ¬ Reaches s.mem pageTable p (some (entryAddr (higherHalfMem page) i))
  distinct : (s.pages.map higherHalfMem).Nodup

/-- No large leaf maps `v`. -/
def NoLargeLeaf (mem : ℕ → ℕ) (pageTable v : ℕ) : Prop :=
  Small mem (higherHalfMem pageTable) (path v)

/-- The entry for `v` in the first table does not have the bit `P_PS`, reserved there. -/
def TopClear (mem : ℕ → ℕ) (pageTable v : ℕ) : Prop :=
  mem (entryAddr (higherHalfMem pageTable) (index v 39)) &&& pPS = 0

theorem Tree.exists_inv {pageTable : ℕ} (ht : Tree s.mem pageTable) (hf : Fresh s pageTable) :
    ∃ owner, Inv (higherHalfMem pageTable)
      (fun i => s.mem (entryAddr (higherHalfMem pageTable) i) &&& pPS = 0) s owner := by
  obtain ⟨owner, howned, hiff⟩ := Radix.exists_owned (fun p q slot => ht.unshared p q slot)
  refine ⟨owner, howned, fun a ha => ?_, fun _ hi => hi, hf.aligned, hf.zero,
    fun page hpage i => ?_, hf.distinct⟩
  · obtain ⟨p, hp⟩ := Option.ne_none_iff_exists'.mp ha
    exact ht.absent p a ((hiff _ _).mp hp)
  · by_contra hne
    obtain ⟨p, hp⟩ := Option.ne_none_iff_exists'.mp hne
    exact hf.apart page hpage i p ((hiff _ _).mp hp)

theorem xtGetPhysicalAddress_of_mapped {pageTable : ℕ} (hne : pageTable ≠ 0) {mem : ℕ → ℕ}
    {flags v x : ℕ} (h : Mapped mem (higherHalfMem pageTable) flags v x) :
    xtGetPhysicalAddress mem pageTable v = .ok x := by
  obtain ⟨e, k, hleaf, haddr, -⟩ := h
  rw [xtGetPhysicalAddress_eq hne, hleaf]
  exact congrArg _ haddr

/-- A call that succeeds maps the range, at 52-bit physical addresses and with the flags of
    the attributes, and no other canonical address. -/
theorem xtSetPages_maps {fuel pageTable va pa size attributes : ℕ}
    (ht : Tree s.mem pageTable) (hf : Fresh s pageTable) (hva : va % 2 ^ 12 = 0)
    (hpa : pa % 2 ^ 12 = 0) (hpa52 : pa < 2 ^ 52) (hsize : size % 2 ^ 12 = 0)
    (hhalf : InHalf va size) (hlarge : ∀ o < size, NoLargeLeaf s.mem pageTable (va + o))
    (htop : ∀ o < size, TopClear s.mem pageTable (va + o))
    (hcall : xtSetPages fuel s pageTable va pa size attributes = some (s', .success)) :
    (∀ o < size, xtGetPhysicalAddress s'.mem pageTable (va + o) = .ok ((pa + o) % 2 ^ 52) ∧
      ∃ e k, leaf s'.mem (higherHalfMem pageTable) (path (va + o)) = some (e, k) ∧
        e - (e &&& addrMask) = leafFlags (xtBuildFlags attributes) k) ∧
    ∀ v, Canonical v → v < va ∨ va + size ≤ v →
      xtGetPhysicalAddress s'.mem pageTable v = xtGetPhysicalAddress s.mem pageTable v := by
  have hne : pageTable ≠ 0 := by
    rintro rfl
    cases hcall
  rw [xtSetPages, if_neg hne] at hcall
  obtain ⟨owner, hinv⟩ := ht.exists_inv hf
  have hend : pa + size < 2 ^ 64 := by
    unfold InHalf at hhalf
    omega
  have hoff : ∀ v, va ≤ v → v < va + size → ∃ o < size, v = va + o :=
    fun v h1 h2 => ⟨v - va, by omega, by omega⟩
  obtain ⟨hin, hout⟩ := setPagesLoop_maps hne fuel hinv hva hpa hsize hhalf hend
    (fun v h1 h2 => by
      obtain ⟨o, ho, rfl⟩ := hoff v h1 h2
      exact htop o ho)
    (fun v h1 h2 => by
      obtain ⟨o, ho, rfl⟩ := hoff v h1 h2
      exact hlarge o ho) hcall
  refine ⟨fun o ho => ?_, fun v hv hv' => ?_⟩
  · have hmap := hin (va + o) (by omega) (by omega)
    rw [Nat.add_sub_cancel_left] at hmap
    refine ⟨xtGetPhysicalAddress_of_mapped hne hmap, ?_⟩
    obtain ⟨e, k, hleaf, -, hflags⟩ := hmap
    exact ⟨e, k, hleaf, hflags⟩
  · rw [xtGetPhysicalAddress_eq hne, xtGetPhysicalAddress_eq hne, hout v hv hv']

/-- The labels of the slots make a tree. -/
theorem Tree.of_owned {mem : ℕ → ℕ} {pageTable : ℕ} (haligned : pageTable % 2 ^ 12 = 0)
    (h : Radix.Owned (child (higherHalfMem pageTable)) (read mem) none owner)
    (habsent : ∀ a, owner (some a) ≠ none → mem a &&& pPresent = 0 → mem a = 0) :
    Tree mem pageTable ∧ ∀ p slot, Reaches mem pageTable p slot → owner slot = some p := by
  have hlabel : ∀ p slot, Reaches mem pageTable p slot → owner slot = some p := by
    intro p slot hp
    obtain ⟨used, hused, howner, -⟩ := h.stop_owner h.root p
    rw [List.length_nil, hp] at hused howner
    rw [List.append_nil] at hused
    rwa [← hused] at howner
  refine ⟨⟨haligned, fun p q slot hp hq => ?_, fun p a hp => ?_⟩, hlabel⟩
  · have hlabels := (hlabel p slot hp).symm.trans (hlabel q slot hq)
    exact Option.some.inj hlabels
  · exact habsent a (by simp [hlabel p _ hp])

/-- What the invariant says about the tree and the pages to come. -/
theorem Inv.tree_fresh {pageTable : ℕ} (h : Inv (higherHalfMem pageTable) top s owner)
    (haligned : pageTable % 2 ^ 12 = 0) : Tree s.mem pageTable ∧ Fresh s pageTable := by
  obtain ⟨htree, hlabel⟩ := Tree.of_owned haligned h.owned h.absent
  refine ⟨htree, h.aligned, h.zero, fun page hpage i p hreach => ?_, h.distinct⟩
  have hnone := h.apart page hpage i
  rw [hlabel p _ hreach] at hnone
  cases hnone

/-- One page more leaves a tree, and the pages to come apart from it. -/
theorem Tree.setPage {pageTable : ℕ} (ht : Tree s.mem pageTable) (hne : pageTable ≠ 0)
    (hf : Fresh s pageTable) {va pa size attr : ℕ} (hva : va % 2 ^ 12 = 0) (hpa : pa % 2 ^ 12 = 0)
    (hsize : size % 2 ^ 12 = 0) (hpos : size ≠ 0) (hhalf : InHalf va size)
    (htop : TopClear s.mem pageTable va) (hlarge : NoLargeLeaf s.mem pageTable va) {pageSize : ℕ}
    (hcall : Paging.setPage s pageTable va pa size (xtBuildFlags attr) = (s', .ok pageSize)) :
    Tree s'.mem pageTable ∧ Fresh s' pageTable := by
  obtain ⟨owner, hinv⟩ := ht.exists_inv hf
  obtain ⟨-, -, -, ⟨owner', hinv'⟩, -⟩ :=
    setPage_maps hne hinv hva hpa hsize hpos hhalf htop hlarge hcall
  exact hinv'.tree_fresh ht.aligned

/-- The labels of a table without tables below it. -/
noncomputable def rootLabels (root : ℕ) : Option ℕ → Option (List (Fin 512)) :=
  graft (fun slot => if slot = none then some [] else none) root []

theorem rootLabels_some {root a : ℕ} {p : List (Fin 512)} (h : rootLabels root (some a) = some p) :
    ∃ i, a = entryAddr root i ∧ p = [i] := by
  by_cases hi : ∃ i, some a = some (entryAddr root i)
  · obtain ⟨i, hi⟩ := hi
    rw [hi, rootLabels, graft_entry, List.nil_append] at h
    exact ⟨i, Option.some.inj hi, (Option.some.inj h).symm⟩
  · rw [rootLabels, graft_of_ne [] (by simpa using hi)] at h
    simp at h

/-- A zero-filled page is an empty tree. -/
theorem rootLabels_owned {mem : ℕ → ℕ} {root : ℕ} (hzero : ∀ i, mem (entryAddr root i) = 0) :
    Radix.Owned (child root) (read mem) none (rootLabels root) := by
  refine ⟨?_, ?_⟩
  · rw [rootLabels, graft_of_ne [] (by simp)]
    rfl
  · intro slot slot' p i hs hc
    cases slot with
    | none =>
      rw [rootLabels, graft_of_ne [] (by simp)] at hs
      cases hs
      rw [List.length_nil, child_zero] at hc
      rw [← Option.some.inj hc]
      exact graft_entry _ [] i
    | some a =>
      obtain ⟨j, rfl, rfl⟩ := rootLabels_some hs
      rw [read_some, hzero j, child_of_not_leads _ (by simp) (not_leads_zero _)] at hc
      cases hc

theorem tree_of_zero {mem : ℕ → ℕ} {pageTable : ℕ} (haligned : pageTable % 2 ^ 12 = 0)
    (hzero : ∀ i, mem (entryAddr (higherHalfMem pageTable) i) = 0) : Tree mem pageTable ∧
      ∀ p slot, Reaches mem pageTable p slot →
        rootLabels (higherHalfMem pageTable) slot = some p := by
  refine Tree.of_owned haligned (rootLabels_owned hzero) fun a ha _ => ?_
  obtain ⟨q, hq⟩ := Option.ne_none_iff_exists'.mp ha
  obtain ⟨j, rfl, -⟩ := rootLabels_some hq
  exact hzero j

/-- Zero-filled memory with a table at `0x1000` and three pages to allocate. -/
def emptyState : State := ⟨fun _ => 0, [0x2000, 0x3000, 0x4000]⟩

theorem emptyState_tree : Tree emptyState.mem 0x1000 ∧
    ∀ p slot, Reaches emptyState.mem 0x1000 p slot →
      rootLabels (higherHalfMem 0x1000) slot = some p :=
  tree_of_zero (by decide) fun _ => rfl

/-- No walk in an empty table gets to another page. -/
theorem not_reaches_of_zero {mem : ℕ → ℕ} {pageTable page : ℕ} (haligned : pageTable % 2 ^ 12 = 0)
    (hzero : ∀ i, mem (entryAddr (higherHalfMem pageTable) i) = 0) (hpage : page % 2 ^ 12 = 0)
    (hne : higherHalfMem page ≠ higherHalfMem pageTable) (i : Fin 512) (p : List (Fin 512)) :
    ¬ Reaches mem pageTable p (some (entryAddr (higherHalfMem page) i)) := by
  intro hreach
  obtain ⟨j, hj, -⟩ := rootLabels_some ((tree_of_zero haligned hzero).2 p _ hreach)
  exact hne (entryAddr_left_inj (higherHalfMem_mod hpage) (higherHalfMem_mod haligned) hj)

/-- Zero-filled pages besides the table are fresh. -/
theorem zero_fresh {pages : List ℕ} (haligned : ∀ page ∈ pages, page % 2 ^ 12 = 0 ∧ page < 2 ^ 52)
    (hother : ∀ page ∈ pages, higherHalfMem page ≠ higherHalfMem 0x1000)
    (hdistinct : (pages.map higherHalfMem).Nodup) : Fresh ⟨fun _ => 0, pages⟩ 0x1000 :=
  ⟨haligned, fun _ _ _ => rfl, fun page hpage => not_reaches_of_zero (by decide) (fun _ => rfl)
    (haligned page hpage).1 (hother page hpage), hdistinct⟩

theorem emptyState_fresh : Fresh emptyState 0x1000 :=
  zero_fresh (by decide) (by decide) (by decide)

theorem emptyState_noLargeLeaf (v : ℕ) : NoLargeLeaf emptyState.mem 0x1000 v := by
  intro e k h
  have hzero : ∀ slot, read emptyState.mem slot = 0 := fun slot => by cases slot <;> rfl
  simp [leaf, hzero] at h

theorem emptyState_topClear (v : ℕ) : TopClear emptyState.mem 0x1000 v := Nat.zero_and _

/-- The first page mapped in an empty table. -/
theorem xtSetPages_maps_one_page :
    ∃ s', xtSetPages 2 emptyState 0x1000 0x400000 0x5000 0x1000 0x800 = some (s', .success) ∧
      xtGetPhysicalAddress s'.mem 0x1000 0x400123 = .ok 0x5123 := by
  have hrun : (xtSetPages 2 emptyState 0x1000 0x400000 0x5000 0x1000 0x800).map (·.2) =
      some .success := by decide +kernel
  obtain ⟨⟨s', r⟩, hcall, hr⟩ := Option.map_eq_some_iff.mp hrun
  cases hr
  have hmaps := xtSetPages_maps emptyState_tree.1 emptyState_fresh (by decide) (by decide)
    (by decide) (by decide) (.inl (by decide)) (fun o _ => emptyState_noLargeLeaf _)
    (fun o _ => emptyState_topClear _) hcall
  exact ⟨s', hcall, (hmaps.1 0x123 (by decide)).1⟩

/-- The same table after its first entry was given `P_PS` and a zero-filled table. -/
def reservedState : State := emptyState.set (entryAddr (higherHalfMem 0x1000) 0) 0x5081

/-- Its labels. -/
noncomputable def reservedLabels : Option ℕ → Option (List (Fin 512)) :=
  graft (rootLabels (higherHalfMem 0x1000)) (higherHalfMem 0x5000) [0]

theorem reservedLabels_some {a : ℕ} {p : List (Fin 512)} (h : reservedLabels (some a) = some p) :
    (∃ j, a = entryAddr (higherHalfMem 0x5000) j) ∨
      ∃ i, a = entryAddr (higherHalfMem 0x1000) i := by
  by_cases hnew : ∃ j, some a = some (entryAddr (higherHalfMem 0x5000) j)
  · obtain ⟨j, hj⟩ := hnew
    exact .inl ⟨j, Option.some.inj hj⟩
  · rw [reservedLabels, graft_of_ne _ (by simpa using hnew)] at h
    obtain ⟨i, hi, -⟩ := rootLabels_some h
    exact .inr ⟨i, hi⟩

theorem reservedState_tree : Tree reservedState.mem 0x1000 ∧
    ∀ p slot, Reaches reservedState.mem 0x1000 p slot → reservedLabels slot = some p := by
  have hroot : rootLabels (higherHalfMem 0x1000) (some (entryAddr (higherHalfMem 0x1000) 0)) =
      some [0] := graft_entry _ [] 0
  have hapart : ∀ i j, entryAddr (higherHalfMem 0x5000) i ≠ entryAddr (higherHalfMem 0x1000) j :=
    fun i j h => absurd (entryAddr_left_inj (by decide) (by decide) h) (by decide)
  have hnone : ∀ j, rootLabels (higherHalfMem 0x1000)
      (some (entryAddr (higherHalfMem 0x5000) j)) = none := by
    intro j
    by_contra hne
    obtain ⟨p, hp⟩ := Option.ne_none_iff_exists'.mp hne
    obtain ⟨i, hi, -⟩ := rootLabels_some hp
    exact hapart j i hi
  have hbase : Radix.Owned (child (higherHalfMem 0x1000)) (read emptyState.mem) none
      (rootLabels (higherHalfMem 0x1000)) := rootLabels_owned fun _ => rfl
  refine Tree.of_owned (by decide) (hbase.update hroot
    (fun slot hne _ => read_set_of_ne _ _ hne) (fun slot hslot => ?_) ?_ ?_) ?_
  · exact graft_of_ne _ fun j hj => hslot (by rw [hj, hnone])
  · intro i slot hc
    rw [read_some, reservedState, set_mem_self, child_of_leads _ (by decide) (by decide)] at hc
    rw [← Option.some.inj hc]
    exact graft_entry _ [0] i
  · intro slot p i hold hnew
    by_cases hj : ∃ j, slot = some (entryAddr (higherHalfMem 0x5000) j)
    · obtain ⟨j, rfl⟩ := hj
      rw [reservedLabels, graft_entry] at hnew
      cases hnew
      rw [read_some, reservedState, set_mem_of_ne _ _ (hapart j 0)]
      exact child_of_not_leads _ (by simp) (not_leads_zero _) i
    · rw [reservedLabels, graft_of_ne _ (by simpa using hj), hold] at hnew
      cases hnew
  · intro a _ habsent
    by_cases ha : a = entryAddr (higherHalfMem 0x1000) 0
    · rw [ha] at habsent
      exact absurd habsent (by decide)
    · exact set_mem_of_ne emptyState _ ha

theorem reservedState_fresh : Fresh reservedState 0x1000 := by
  have haligned : ∀ page ∈ reservedState.pages, page % 2 ^ 12 = 0 ∧ page < 2 ^ 52 := by decide
  have hother : ∀ page ∈ reservedState.pages, higherHalfMem page ≠ higherHalfMem 0x1000 ∧
    higherHalfMem page ≠ higherHalfMem 0x5000 := by decide
  have hentry : ∀ page ∈ reservedState.pages, ∀ i j, entryAddr (higherHalfMem page) i ≠
      entryAddr (higherHalfMem 0x1000) j := fun page hpage i j h =>
    (hother page hpage).1 (entryAddr_left_inj (higherHalfMem_mod (haligned page hpage).1)
      (by decide) h)
  refine ⟨haligned, fun page hpage i => ?_, fun page hpage i p hreach => ?_, by decide⟩
  · exact set_mem_of_ne emptyState _ (hentry page hpage i 0)
  · obtain ⟨j, hj⟩ | ⟨j, hj⟩ := reservedLabels_some (reservedState_tree.2 p _ hreach)
    · exact (hother page hpage).2 (entryAddr_left_inj (higherHalfMem_mod (haligned page hpage).1)
        (by decide) hj)
    · exact hentry page hpage i j hj

/-- Two pages up to the end of the 52-bit physical addresses: the second one is mapped to
    address zero. And a range below an entry of the first table with the reserved bit: the
    range is not mapped at all. -/
theorem xtSetPages_wraps_and_loses :
    (Tree emptyState.mem 0x1000 ∧ Fresh emptyState 0x1000 ∧ InHalf 0 0x2000 ∧
      (∀ v, NoLargeLeaf emptyState.mem 0x1000 v) ∧ 0xffffffffff000 < 2 ^ 52 ∧
      ∃ s', xtSetPages 3 emptyState 0x1000 0 0xffffffffff000 0x2000 0 = some (s', .success) ∧
        xtGetPhysicalAddress s'.mem 0x1000 0x1000 = .ok 0 ∧
        0xffffffffff000 + 0x1000 ≠ 0) ∧
    Tree reservedState.mem 0x1000 ∧ Fresh reservedState 0x1000 ∧ InHalf 0 0x1000 ∧
      (∀ o < 0x1000, NoLargeLeaf reservedState.mem 0x1000 (0 + o)) ∧
      ∃ s', xtSetPages 2 reservedState 0x1000 0 0 0x1000 0 = some (s', .success) ∧
        xtGetPhysicalAddress s'.mem 0x1000 0 = .error .notFound := by
  refine ⟨⟨emptyState_tree.1, emptyState_fresh, .inl (by decide), emptyState_noLargeLeaf,
    by decide, ?_⟩, reservedState_tree.1, reservedState_fresh, .inl (by decide), ?_, ?_⟩
  · have hrun : (xtSetPages 3 emptyState 0x1000 0 0xffffffffff000 0x2000 0).map
        (fun x => (x.2, xtGetPhysicalAddress x.1.mem 0x1000 0x1000)) = some (.success, .ok 0) := by
      decide +kernel
    obtain ⟨⟨s', r⟩, hcall, hr⟩ := Option.map_eq_some_iff.mp hrun
    rw [Prod.mk.injEq] at hr
    obtain ⟨rfl, haddr⟩ := hr
    exact ⟨s', hcall, haddr, by decide⟩
  · intro o ho e k h
    have hpath : path (0 + o) = [0, 0, 0, 0] := by
      simp only [path, List.cons.injEq, and_true, Fin.ext_iff, index_val, Fin.val_zero]
      omega
    rw [hpath] at h
    have hnone : leaf reservedState.mem (higherHalfMem 0x1000) [0, 0, 0, 0] = none := by
      decide +kernel
    rw [hnone] at h
    cases h
  · have hrun : (xtSetPages 2 reservedState 0x1000 0 0 0x1000 0).map
        (fun x => (x.2, xtGetPhysicalAddress x.1.mem 0x1000 0)) =
          some (.success, .error .notFound) := by
      decide +kernel
    obtain ⟨⟨s', r⟩, hcall, hr⟩ := Option.map_eq_some_iff.mp hrun
    rw [Prod.mk.injEq] at hr
    obtain ⟨rfl, haddr⟩ := hr
    exact ⟨s', hcall, haddr⟩

end XTOS.Paging

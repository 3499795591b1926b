import XTOS.Lib.Run
import XTOS.Paging.Split

/-!
# Address spaces

The tables of all processes at once. `xtCreateProcess` of `xtkernel/process.c` copies entries 255 to 511 of
the kernel's first table into that of the new process, and all tables below them are shared from then on.
`xtSetPages` of `xtkernel/arch/x86_64/memory.c` goes through them like through any others.

## Main definitions

- `Spaces` — memory, the first tables of the kernel and of the processes, and the pages in other use
- `Spaces.Step` — a new process, a mapping made for one, a page that is taken, a write in such a page
- `Forest` — every slot of every table has one owner and one depth

## Main results

- `others_keep` — what is mapped for other processes changes nothing below `sharedStart`
- `shared_above` — from `sharedStart` on every process has the mappings of the kernel
- `kernelHalf_fixed` — and those of the upper half are the ones there were at the beginning

## Design notes

The 512 GiB below the upper half are reached through entry 255, too: a page that is mapped there for one
process is seen by all. As for one tree, the pages that the allocator returns are filled with zeros.
-/

namespace XTOS.Paging

open SysLib

/-- The first entry that `xtCreateProcess` copies, at offset `0x7f8`. -/
def firstShared : Fin 512 := 255

/-- Where the addresses of that entry start. -/
def sharedStart : ℕ := 0x7f8000000000

/-- `xtSetMem` with zero. -/
def setMem (mem : ℕ → ℕ) (dst size : ℕ) : ℕ → ℕ :=
  fun a => if dst ≤ a ∧ a < dst + size then 0 else mem a

/-- `xtCopyMem`. -/
def copyMem (mem : ℕ → ℕ) (dst src size : ℕ) : ℕ → ℕ :=
  fun a => if dst ≤ a ∧ a < dst + size then mem (src + (a - dst)) else mem a

/-- The first table of a process in `xtCreateProcess`. -/
def newPageTable (s : State) (kernelPageTable : ℕ) : State × Except XTResult ℕ :=
  match s.pages with
  | [] => (s, .error .outOfMemory)
  | newPageTable :: pages =>
    let mem := setMem s.mem (higherHalfMem newPageTable) 0x1000
    let mem := copyMem mem (higherHalfMem newPageTable + 0x7f8)
      (higherHalfMem kernelPageTable + 0x7f8) 0x808
    (⟨mem, pages⟩, .ok newPageTable)

/-- The tables of all processes, and the pages that are used for something else. -/
structure Spaces where
  state : State
  kernel : ℕ
  procs : List ℕ
  data : List ℕ

/-- The words of a page. -/
def InPage (page a : ℕ) : Prop := higherHalfMem page ≤ a ∧ a < higherHalfMem page + 2 ^ 12

/-- One step; a call of `xtSetPages` is made for a process, and may fail. -/
inductive Spaces.Step : Option ℕ → Spaces → Spaces → Prop
  | create {σ : Spaces} {s : State} {table : ℕ} : newPageTable σ.state σ.kernel = (s, .ok table) →
      Step none σ { σ with state := s, procs := table :: σ.procs }
  | map {σ : Spaces} {s : State} {p fuel va pa size attr : ℕ} {r : XTResult} : p ∈ σ.procs →
      size % 2 ^ 12 = 0 → va + size ≤ 2 ^ 47 →
      xtSetPages fuel σ.state p va pa size attr = some (s, r) →
      Step (some p) σ { σ with state := s }
  | use {σ : Spaces} {page : ℕ} {pages : List ℕ} : σ.state.pages = page :: pages →
      Step none σ { σ with state := { σ.state with pages := pages }, data := page :: σ.data }
  | write {σ : Spaces} {page a : ℕ} (e : ℕ) : page ∈ σ.data → InPage page a →
      Step none σ { σ with state := σ.state.set a e }

/-- A step for any process. -/
def Spaces.AnyStep (σ σ' : Spaces) : Prop := ∃ p, Step p σ σ'

/-- The indices of a first table, or of a table below a shared entry. -/
def IsShared (p : List (Fin 512)) : Prop := p.length ≤ 1 ∨ ∃ i ∈ p.head?, firstShared ≤ i

/-- Before the first process: the tables below the shared entries are a tree, the page with the system
    calls of user code is mapped, and the pages to come are zero and not part of the tree. -/
structure Spaces.Initial (σ : Spaces) : Prop where
  procs : σ.procs = []
  data : σ.data = []
  unshared : ∀ p q slot, IsShared p → IsShared q → Reaches σ.state.mem σ.kernel p slot →
    Reaches σ.state.mem σ.kernel q slot → p = q
  absent : ∀ p a, IsShared p → Reaches σ.state.mem σ.kernel p (some a) →
    σ.state.mem a &&& pPresent = 0 → σ.state.mem a = 0
  vdso : σ.state.mem (entryAddr (higherHalfMem σ.kernel) firstShared) &&& pPresent ≠ 0
  clear : σ.state.mem (entryAddr (higherHalfMem σ.kernel) firstShared) &&& pPS = 0
  aligned : ∀ page ∈ σ.state.pages, page % 2 ^ 12 = 0 ∧ page < 2 ^ 52
  zero : ∀ page ∈ σ.state.pages, ∀ i, σ.state.mem (entryAddr (higherHalfMem page) i) = 0
  apart : ∀ page ∈ σ.state.pages, ∀ p a, IsShared p → Reaches σ.state.mem σ.kernel p (some a) →
    ¬ InPage page a
  distinct : (σ.state.pages.map higherHalfMem).Nodup

/-! ### Owners -/

/-- Whose table a slot is in: that of a process, or a table below a shared entry. -/
inductive Owner where
  | process (pageTable : ℕ)
  | shared (i : Fin 512)
  deriving DecidableEq

/-- Slot `j` of the table that the entry at `a` leads to. -/
def slotBelow (mem : ℕ → ℕ) (a : ℕ) (j : Fin 512) : ℕ :=
  entryAddr (higherHalfMem (mem a &&& addrMask)) j

/-- Every slot has one owner and one depth. -/
structure Forest (σ : Spaces) (own : ℕ → Option (Owner × ℕ)) : Prop where
  roots : ∀ p ∈ σ.kernel :: σ.procs, ∀ i,
    own (entryAddr (higherHalfMem p) i) = some (.process p, 1)
  other : σ.kernel ∉ σ.procs
  part : ∀ p ∈ σ.procs, ∀ i < firstShared,
    Leads 1 (σ.state.mem (entryAddr (higherHalfMem p) i)) →
    ∀ j, own (slotBelow σ.state.mem (entryAddr (higherHalfMem p) i) j) = some (.process p, 2)
  top : ∀ i, firstShared ≤ i → Leads 1 (σ.state.mem (entryAddr (higherHalfMem σ.kernel) i)) →
    ∀ j, own (slotBelow σ.state.mem (entryAddr (higherHalfMem σ.kernel) i) j) =
      some (.shared i, 2)
  same : ∀ p ∈ σ.procs, ∀ i, firstShared ≤ i →
    σ.state.mem (entryAddr (higherHalfMem p) i) =
      σ.state.mem (entryAddr (higherHalfMem σ.kernel) i)
  below : ∀ a o n, own a = some (o, n) → 2 ≤ n → Leads n (σ.state.mem a) →
    ∀ j, own (slotBelow σ.state.mem a j) = some (o, n + 1)
  absent : ∀ a, own a ≠ none → σ.state.mem a &&& pPresent = 0 → σ.state.mem a = 0
  clear : ∀ p ∈ σ.procs, ∀ i < firstShared,
    σ.state.mem (entryAddr (higherHalfMem p) i) &&& pPS = 0
  vdso : σ.state.mem (entryAddr (higherHalfMem σ.kernel) firstShared) &&& pPresent ≠ 0 ∧
    σ.state.mem (entryAddr (higherHalfMem σ.kernel) firstShared) &&& pPS = 0
  aligned : ∀ page ∈ σ.data ++ σ.state.pages, page % 2 ^ 12 = 0 ∧ page < 2 ^ 52
  apart : ∀ page ∈ σ.data ++ σ.state.pages, ∀ a, own a ≠ none → ¬ InPage page a
  distinct : ((σ.data ++ σ.state.pages).map higherHalfMem).Nodup
  zero : ∀ page ∈ σ.state.pages, ∀ i, σ.state.mem (entryAddr (higherHalfMem page) i) = 0

variable {σ σ' : Spaces} {own own' : ℕ → Option (Owner × ℕ)} {s s' : State} {O : Owner → Prop}
  {o : Owner} {n p q a t e page : ℕ} {i : Fin 512}

theorem inPage_entryAddr (page : ℕ) (i : Fin 512) :
    InPage page (entryAddr (higherHalfMem page) i) := by
  have hi := i.isLt
  refine ⟨Nat.le_add_right _ _, ?_⟩
  rw [entryAddr]
  omega

/-- Pages are apart. -/
theorem eq_of_inPage {page' : ℕ} (h : page % 2 ^ 12 = 0) (h' : page' % 2 ^ 12 = 0)
    (ha : InPage page a) (ha' : InPage page' a) : higherHalfMem page = higherHalfMem page' := by
  have hmod := higherHalfMem_mod h
  have hmod' := higherHalfMem_mod h'
  unfold InPage at ha ha'
  omega

/-- A slot of a table that a call for a process may write: one of its own part of its first table, or
    one of a table further down. -/
def Writable (σ : Spaces) (own : ℕ → Option (Owner × ℕ)) (a : ℕ) (o : Owner) (n : ℕ) : Prop :=
  own a = some (o, n) ∧
    (2 ≤ n ∨ n = 1 ∧ ∃ p ∈ σ.procs, ∃ i < firstShared, a = entryAddr (higherHalfMem p) i)

/-- All slots of the table at `t` have one owner and one depth. -/
def TableOf (own : ℕ → Option (Owner × ℕ)) (t : ℕ) (o : Owner) (n : ℕ) : Prop :=
  ∀ j, own (entryAddr t j) = some (o, n)

theorem Forest.ne_kernel (h : Forest σ own) (hw : Writable σ own a o n) :
    entryAddr (higherHalfMem σ.kernel) i ≠ a := by
  rintro rfl
  have hroot := h.roots σ.kernel List.mem_cons_self i
  obtain ⟨hown, hdeep | ⟨-, p, hp, j, -, heq⟩⟩ := hw
  · rw [hroot, Option.some.injEq, Prod.mk.injEq] at hown
    omega
  · have hproc := h.roots p (List.mem_cons_of_mem _ hp) j
    rw [← heq, hroot, Option.some.injEq, Prod.mk.injEq, Owner.process.injEq] at hproc
    exact h.other (hproc.1 ▸ hp)

/-- The slots of the first tables that are the same for all. -/
theorem Forest.ne_shared (h : Forest σ own) (hw : Writable σ own a o n) (hp : p ∈ σ.procs)
    (hi : firstShared ≤ i) : entryAddr (higherHalfMem p) i ≠ a := by
  rintro rfl
  have hroot := h.roots p (List.mem_cons_of_mem _ hp) i
  obtain ⟨hown, hdeep | ⟨-, q, hq, j, hj, heq⟩⟩ := hw
  · rw [hroot, Option.some.injEq, Prod.mk.injEq] at hown
    omega
  · have hproc := h.roots q (List.mem_cons_of_mem _ hq) j
    rw [← heq, hroot, Option.some.injEq, Prod.mk.injEq, Owner.process.injEq] at hproc
    obtain ⟨rfl, -⟩ := hproc
    rw [entryAddr_right_inj heq] at hi
    exact absurd hi (not_le.mpr hj)

theorem slotBelow_set_of_ne {b : ℕ} (s : State) (e : ℕ) (j : Fin 512) (h : b ≠ a) :
    slotBelow (s.set a e).mem b j = slotBelow s.mem b j := by
  rw [slotBelow, set_mem_of_ne s e h, slotBelow]

/-- **Write**: an entry that leads to a table of the same owner, or nowhere. -/
theorem Forest.set (h : Forest σ own) (hw : Writable σ own a o n) (hpresent : e &&& pPresent ≠ 0)
    (hclear : n = 1 → e &&& pPS = 0)
    (hbelow : Leads n e → TableOf own (higherHalfMem (e &&& addrMask)) o (n + 1)) :
    Forest { σ with state := σ.state.set a e } own := by
  have hslot : ∀ j, slotBelow (σ.state.set a e).mem a j =
      entryAddr (higherHalfMem (e &&& addrMask)) j := fun j => by rw [slotBelow, set_mem_self]
  refine ⟨h.roots, h.other, fun p hp i hi hl j => ?_, fun i hi hl j => ?_, fun p hp i hi => ?_,
    fun b o' m hown hm hl j => ?_, fun b hb habsent => ?_, fun p hp i hi => ?_, ?_, h.aligned, h.apart,
    h.distinct, fun page hpage i => ?_⟩
  · change own (slotBelow (σ.state.set a e).mem _ j) = _
    change Leads 1 ((σ.state.set a e).mem _) at hl
    by_cases heq : entryAddr (higherHalfMem p) i = a
    · have hroot := h.roots p (List.mem_cons_of_mem _ hp) i
      rw [heq, hw.1, Option.some.injEq, Prod.mk.injEq] at hroot
      obtain ⟨rfl, rfl⟩ := hroot
      rw [heq, set_mem_self] at hl
      rw [heq, hslot]
      exact hbelow hl j
    · rw [set_mem_of_ne _ _ heq] at hl
      rw [slotBelow_set_of_ne _ _ _ heq]
      exact h.part p hp i hi hl j
  · change own (slotBelow (σ.state.set a e).mem _ j) = _
    change Leads 1 ((σ.state.set a e).mem _) at hl
    rw [set_mem_of_ne _ _ (h.ne_kernel hw)] at hl
    rw [slotBelow_set_of_ne _ _ _ (h.ne_kernel hw)]
    exact h.top i hi hl j
  · change (σ.state.set a e).mem _ = (σ.state.set a e).mem _
    rw [set_mem_of_ne _ _ (h.ne_shared hw hp hi), set_mem_of_ne _ _ (h.ne_kernel hw)]
    exact h.same p hp i hi
  · change own (slotBelow (σ.state.set a e).mem _ j) = _
    change Leads m ((σ.state.set a e).mem _) at hl
    by_cases heq : b = a
    · subst heq
      rw [hw.1, Option.some.injEq, Prod.mk.injEq] at hown
      obtain ⟨rfl, rfl⟩ := hown
      rw [set_mem_self] at hl
      rw [hslot]
      exact hbelow hl j
    · rw [set_mem_of_ne _ _ heq] at hl
      rw [slotBelow_set_of_ne _ _ _ heq]
      exact h.below b o' m hown hm hl j
  · change (σ.state.set a e).mem b = 0
    change (σ.state.set a e).mem b &&& pPresent = 0 at habsent
    by_cases heq : b = a
    · rw [heq, set_mem_self] at habsent
      exact absurd habsent hpresent
    · rw [set_mem_of_ne _ _ heq] at habsent ⊢
      exact h.absent b hb habsent
  · change (σ.state.set a e).mem _ &&& pPS = 0
    by_cases heq : entryAddr (higherHalfMem p) i = a
    · have hroot := h.roots p (List.mem_cons_of_mem _ hp) i
      rw [heq, hw.1, Option.some.injEq, Prod.mk.injEq] at hroot
      rw [heq, set_mem_self]
      exact hclear hroot.2
    · rw [set_mem_of_ne _ _ heq]
      exact h.clear p hp i hi
  · change (σ.state.set a e).mem _ &&& pPresent ≠ 0 ∧ (σ.state.set a e).mem _ &&& pPS = 0
    rw [set_mem_of_ne _ _ (h.ne_kernel hw)]
    exact h.vdso
  · change (σ.state.set a e).mem _ = 0
    rw [set_mem_of_ne]
    · exact h.zero page hpage i
    · rintro rfl
      have hne : own (entryAddr (higherHalfMem page) i) ≠ none := by
        rw [hw.1]
        exact Option.some_ne_none _
      exact h.apart page (List.mem_append_right _ hpage) _ hne (inPage_entryAddr page i)

/-! ### New tables -/

/-- The labels after the page at `t` has become a table. -/
noncomputable def relabel (own : ℕ → Option (Owner × ℕ)) (t : ℕ) (o : Owner) (n a : ℕ) :
    Option (Owner × ℕ) :=
  open Classical in
  if ∃ j, a = entryAddr t j then some (o, n) else own a

theorem relabel_tableOf (own : ℕ → Option (Owner × ℕ)) (t : ℕ) (o : Owner) (n : ℕ) :
    TableOf (relabel own t o n) t o n := fun j => if_pos ⟨j, rfl⟩

/-- The slots of the tables that there are keep their labels. -/
theorem Forest.relabel_of_own (h : Forest σ own) (hpage : page ∈ σ.data ++ σ.state.pages)
    (ha : own a ≠ none) (o : Owner) (n : ℕ) : relabel own (higherHalfMem page) o n a = own a := by
  refine if_neg ?_
  rintro ⟨j, rfl⟩
  exact h.apart page hpage _ ha (inPage_entryAddr page j)

theorem relabel_cases {x : Option (Owner × ℕ)} (h : relabel own t o n a = x) :
    (∃ j, a = entryAddr t j) ∧ x = some (o, n) ∨ own a = x := by
  rw [relabel] at h
  split_ifs at h with hj
  · exact .inl ⟨hj, h.symm⟩
  · exact .inr h

/-- The next page, as a table with no entries. -/
theorem Forest.take {pages : List ℕ} (h : Forest σ own) (hpages : σ.state.pages = page :: pages)
    (o : Owner) (n : ℕ) : Forest { σ with state := { σ.state with pages := pages } }
      (relabel own (higherHalfMem page) o n) := by
  have hin : page ∈ σ.state.pages := by
    rw [hpages]
    exact List.mem_cons_self
  have hpage : page ∈ σ.data ++ σ.state.pages := List.mem_append_right _ hin
  have hsub : ∀ x ∈ σ.data ++ pages, x ∈ σ.data ++ σ.state.pages := by
    intro x hx
    rw [hpages]
    simp only [List.mem_append, List.mem_cons] at hx ⊢
    tauto
  have hkeep : ∀ {b x}, own b = some x → relabel own (higherHalfMem page) o n b = some x := by
    intro b x hb
    rw [h.relabel_of_own hpage (by rw [hb]; exact Option.some_ne_none x), hb]
  have hperm : (σ.data ++ σ.state.pages).Perm (page :: (σ.data ++ pages)) := by
    rw [hpages]
    exact List.perm_middle
  have hnodup : (higherHalfMem page :: (σ.data ++ pages).map higherHalfMem).Nodup :=
    (hperm.map higherHalfMem).nodup_iff.mp h.distinct
  refine ⟨fun p hp i => hkeep (h.roots p hp i), h.other,
    fun p hp i hi hl j => hkeep (h.part p hp i hi hl j), fun i hi hl j => hkeep (h.top i hi hl j),
    h.same, fun b o' m hown hm hl j => ?_, fun b hb habsent => ?_, h.clear, h.vdso,
    fun x hx => h.aligned x (hsub x hx), fun x hx b hb hinx => ?_, (List.nodup_cons.mp hnodup).2,
    fun x hx => h.zero x ?_⟩
  · obtain ⟨⟨k, rfl⟩, -⟩ | hold := relabel_cases hown
    · rw [h.zero page hin k] at hl
      exact absurd hl (not_leads_zero m)
    · exact hkeep (h.below b o' m hold hm hl j)
  · obtain ⟨⟨k, rfl⟩, -⟩ | hold := relabel_cases (x := relabel own (higherHalfMem page) o n b) rfl
    · exact h.zero page hin k
    · rw [← hold] at hb
      exact h.absent b hb habsent
  · obtain ⟨⟨k, rfl⟩, -⟩ | hold := relabel_cases (x := relabel own (higherHalfMem page) o n b) rfl
    · have heq := eq_of_inPage (h.aligned x (hsub x hx)).1 (h.aligned page hpage).1 hinx
        (inPage_entryAddr page k)
      rw [← heq] at hnodup
      exact (List.nodup_cons.mp hnodup).1 (List.mem_map_of_mem hx)
    · rw [← hold] at hb
      exact h.apart x (hsub x hx) b hb hinx
  · rw [hpages]
    exact List.mem_cons_of_mem _ hx

/-! ### One call -/

/-- A part of a call has gone on from `σ` to `s`, and has written slots of the owners `O` only. -/
structure Goes (O : Owner → Prop) (σ : Spaces) (own : ℕ → Option (Owner × ℕ)) (s : State)
    (own' : ℕ → Option (Owner × ℕ)) : Prop where
  forest : Forest { σ with state := s } own'
  keeps : ∀ a, own a ≠ none → own' a = own a
  frame : ∀ a o n, own a = some (o, n) → ¬ O o → s.mem a = σ.state.mem a

theorem Goes.refl (h : Forest σ own) : Goes O σ own σ.state own :=
  ⟨h, fun _ _ => rfl, fun _ _ _ _ _ => rfl⟩

theorem Goes.trans {own1 own2 : ℕ → Option (Owner × ℕ)} {s1 s2 : State} (h : Goes O σ own s1 own1)
    (h' : Goes O { σ with state := s1 } own1 s2 own2) : Goes O σ own s2 own2 := by
  refine ⟨h'.forest, fun a ha => ?_, fun a o n ha ho => ?_⟩
  · have hsame := h.keeps a ha
    rw [← hsame] at ha
    rw [h'.keeps a ha, hsame]
  · have hsame := h.keeps a (by rw [ha]; exact Option.some_ne_none _)
    rw [h'.frame a o n (hsame.trans ha) ho, h.frame a o n ha ho]

theorem Goes.mono {O' : Owner → Prop} (h : Goes O σ own s own') (hsub : ∀ o, O o → O' o) :
    Goes O' σ own s own' :=
  ⟨h.forest, h.keeps, fun a o n ha ho => h.frame a o n ha fun hO => ho (hsub o hO)⟩

/-- A write in a slot of `o`. -/
theorem Goes.set (h : Forest σ own) (hw : Writable σ own a o n) (hpresent : e &&& pPresent ≠ 0)
    (hclear : n = 1 → e &&& pPS = 0)
    (hbelow : Leads n e → TableOf own (higherHalfMem (e &&& addrMask)) o (n + 1)) :
    Goes (· = o) σ own (σ.state.set a e) own := by
  refine ⟨h.set hw hpresent hclear hbelow, fun _ _ => rfl, fun b o' m hb ho => set_mem_of_ne _ _ ?_⟩
  rintro rfl
  rw [hw.1, Option.some.injEq, Prod.mk.injEq] at hb
  exact ho hb.1.symm

/-- An entry that is absent, or a large leaf, gets the next page. -/
theorem Forest.make (h : Forest σ own) (hw : Writable σ own (entryAddr (higherHalfMem t) i) o n)
    (hmake : σ.state.mem (entryAddr (higherHalfMem t) i) &&& pPresent = 0 ∨
      σ.state.mem (entryAddr (higherHalfMem t) i) &&& pPS ≠ 0) {r : Except XTResult ℕ}
    (hcall : xtGetOrMakePageTable σ.state t i 0x07 = (s, r)) :
    ∃ own', Goes (· = o) σ own s own' ∧
      ∀ t', r = .ok t' → higherHalfMem t' = t' ∧ TableOf own' t' o (n + 1) := by
  rw [xtGetOrMakePageTable] at hcall
  by_cases hzero : t = 0
  · rw [if_pos hzero, Prod.mk.injEq] at hcall
    obtain ⟨rfl, rfl⟩ := hcall
    exact ⟨own, .refl h, fun t' ht' => by cases ht'⟩
  rw [if_neg hzero] at hcall
  dsimp only at hcall
  rw [if_pos hmake] at hcall
  set a := entryAddr (higherHalfMem t) i with ha
  set e := σ.state.mem a with he
  cases hpages : σ.state.pages with
  | nil =>
    rw [hpages, Prod.mk.injEq] at hcall
    obtain ⟨rfl, rfl⟩ := hcall
    exact ⟨own, .refl h, fun t' ht' => by cases ht'⟩
  | cons page pages =>
    rw [hpages, Prod.mk.injEq] at hcall
    obtain ⟨rfl, rfl⟩ := hcall
    have hpage : page ∈ σ.data ++ σ.state.pages := by
      rw [hpages]
      exact List.mem_append_right _ List.mem_cons_self
    have hown : own a ≠ none := by
      rw [hw.1]
      exact Option.some_ne_none _
    have hnew := relabel_tableOf own (higherHalfMem page) o (n + 1)
    have htake := h.take hpages o (n + 1)
    have hw' : Writable { σ with state := { σ.state with pages := pages } }
        (relabel own (higherHalfMem page) o (n + 1)) a o n :=
      ⟨(h.relabel_of_own hpage hown _ _).trans hw.1, hw.2⟩
    -- what the old entry adds to the new one
    have hentry : (n = 1 → splitEntry page e &&& pPS = 0) ∧
        (Leads n (splitEntry page e) → splitEntry page e &&& addrMask = page) := by
      obtain ⟨halign, hlt⟩ := h.aligned page hpage
      by_cases habsent : e &&& pPresent = 0
      · have hzero : e = 0 := h.absent a hown habsent
        have hsplit : splitEntry page e = page + 7 := by
          rw [hzero, splitEntry, or_directory_flags halign]
        rw [hsplit, and_pPS, and_addrMask]
        exact ⟨fun _ => by omega, fun _ => by omega⟩
      · have hps := hmake.resolve_left habsent
        have hdeep : 2 ≤ n := by
          obtain ⟨-, hdeep | ⟨-, p, hp, j, hj, heq⟩⟩ := hw
          · exact hdeep
          · rw [he, heq] at hps
            exact absurd (h.clear p hp j hj) hps
        refine ⟨fun hone => by omega, fun hl => absurd hl ?_⟩
        rintro ⟨-, -, hone | hclear⟩
        · omega
        · exact splitEntry_pPS page hps hclear
    have hgo := Goes.set htake hw' (splitEntry_present page e) hentry.1 fun hl => by
      rw [hentry.2 hl]
      exact hnew
    refine ⟨_, ⟨hgo.forest, fun b hb => h.relabel_of_own hpage hb _ _, fun b o' m hb ho => ?_⟩,
      fun t' ht' => ?_⟩
    · have hkeep := h.relabel_of_own hpage (by rw [hb]; exact Option.some_ne_none _) o (n + 1)
      exact hgo.frame b o' m (hkeep.trans hb) ho
    · cases ht'
      exact ⟨higherHalfMem_idem page, hnew⟩

/-- The owner of the tables below an entry of a first table. -/
def ownerOf (p : ℕ) (i : Fin 512) : Owner := if i < firstShared then .process p else .shared i

/-- The first table of a process: the entry is followed, or made to lead on. -/
theorem Forest.nextTop (h : Forest σ own) (hp : p ∈ σ.procs) (hi : i ≤ firstShared)
    {r : Except XTResult ℕ} (hcall : xtGetOrMakePageTable σ.state p i 0x07 = (s, r)) :
    ∃ own', Goes (· = ownerOf p i) σ own s own' ∧
      ∀ t', r = .ok t' → higherHalfMem t' = t' ∧ TableOf own' t' (ownerOf p i) 2 := by
  have hroot := h.roots p (List.mem_cons_of_mem _ hp) i
  by_cases hmake : σ.state.mem (entryAddr (higherHalfMem p) i) &&& pPresent = 0 ∨
      σ.state.mem (entryAddr (higherHalfMem p) i) &&& pPS ≠ 0
  · have hlt : i < firstShared := by
      refine lt_of_le_of_ne hi ?_
      rintro rfl
      rw [h.same p hp _ le_rfl] at hmake
      exact hmake.elim h.vdso.1 fun hps => hps h.vdso.2
    rw [ownerOf, if_pos hlt]
    exact h.make ⟨hroot, .inr ⟨rfl, p, hp, i, hlt, rfl⟩⟩ hmake hcall
  · obtain ⟨hpresent, hps⟩ := not_or.mp hmake
    have hleads : Leads 1 (σ.state.mem (entryAddr (higherHalfMem p) i)) :=
      ⟨by decide, hpresent, .inl rfl⟩
    by_cases hzero : p = 0
    · rw [xtGetOrMakePageTable, if_pos hzero, Prod.mk.injEq] at hcall
      obtain ⟨rfl, rfl⟩ := hcall
      exact ⟨own, .refl h, fun t' ht' => by cases ht'⟩
    rw [xtGetOrMakePageTable_of_leads _ hzero hpresent (not_not.mp hps), Prod.mk.injEq] at hcall
    obtain ⟨rfl, rfl⟩ := hcall
    refine ⟨own, .refl h, fun t' ht' => ?_⟩
    cases ht'
    refine ⟨higherHalfMem_idem _, ?_⟩
    rw [ownerOf]
    split_ifs with hlt
    · exact h.part p hp i hlt hleads
    · have hge : firstShared ≤ i := not_lt.mp hlt
      rw [h.same p hp i hge] at hleads ⊢
      exact h.top i hge hleads

/-- The same further down. -/
theorem Forest.nextBelow (h : Forest σ own) (ht : higherHalfMem t = t) (htable : TableOf own t o n)
    (hn : 2 ≤ n) (hn' : n ≤ 3) {r : Except XTResult ℕ}
    (hcall : xtGetOrMakePageTable σ.state t i 0x07 = (s, r)) :
    ∃ own', Goes (· = o) σ own s own' ∧
      ∀ t', r = .ok t' → higherHalfMem t' = t' ∧ TableOf own' t' o (n + 1) := by
  have hown := htable i
  rw [← ht] at hown
  by_cases hmake : σ.state.mem (entryAddr (higherHalfMem t) i) &&& pPresent = 0 ∨
      σ.state.mem (entryAddr (higherHalfMem t) i) &&& pPS ≠ 0
  · exact h.make ⟨hown, .inl hn⟩ hmake hcall
  · obtain ⟨hpresent, hps⟩ := not_or.mp hmake
    have hne : t ≠ 0 := by
      rintro rfl
      exact higherHalfMem_ne_zero 0 ht
    rw [xtGetOrMakePageTable_of_leads _ hne hpresent (not_not.mp hps), Prod.mk.injEq] at hcall
    obtain ⟨rfl, rfl⟩ := hcall
    refine ⟨own, .refl h, fun t' ht' => ?_⟩
    cases ht'
    exact ⟨higherHalfMem_idem _,
      h.below _ o n hown hn ⟨by omega, hpresent, .inr (not_not.mp hps)⟩⟩

/-- The tables down to the one with the leaf. -/
theorem Forest.makeTables {path : List (Fin 512)} (h : Forest σ own) (ht : higherHalfMem t = t)
    (htable : TableOf own t o n) (hn : 2 ≤ n) (hlen : n + path.length ≤ 4)
    {r : Except XTResult ℕ} (hcall : makeTables σ.state t path = (s, r)) :
    ∃ own', Goes (· = o) σ own s own' ∧
      ∀ t', r = .ok t' → higherHalfMem t' = t' ∧ TableOf own' t' o (n + path.length) := by
  induction path generalizing σ own t n with
  | nil =>
    cases hcall
    refine ⟨own, .refl h, fun t' ht' => ?_⟩
    cases ht'
    exact ⟨ht, htable⟩
  | cons i path ih =>
    rw [List.length_cons] at hlen
    rw [Paging.makeTables] at hcall
    rcases hnext : xtGetOrMakePageTable σ.state t i 0x07 with ⟨s1, r1 | t1⟩
    · rw [hnext] at hcall
      cases hcall
      obtain ⟨own1, hgo, -⟩ := h.nextBelow ht htable hn (by omega) hnext
      exact ⟨own1, hgo, fun t' ht' => by cases ht'⟩
    · rw [hnext] at hcall
      obtain ⟨own1, hgo, hok⟩ := h.nextBelow ht htable hn (by omega) hnext
      obtain ⟨ht1, htable1⟩ := hok t1 rfl
      obtain ⟨own2, hgo2, hok2⟩ := ih hgo.forest ht1 htable1 (by omega) (by omega) hcall
      refine ⟨own2, hgo.trans hgo2, fun t' ht' => ?_⟩
      rw [List.length_cons, Nat.add_comm path.length, ← Nat.add_assoc]
      exact hok2 t' ht'

theorem leafFlags_present (attr k : ℕ) : leafFlags (xtBuildFlags attr) k &&& pPresent ≠ 0 := by
  obtain ⟨low, nx, hflags, -, hodd, -⟩ := xtBuildFlags_eq attr
  have hpresent : xtBuildFlags attr &&& pPresent ≠ 0 := by
    rw [and_pPresent, hflags]
    omega
  rw [leafFlags]
  split_ifs
  · exact hpresent
  · rw [Nat.and_or_distrib_right]
    exact fun h => hpresent (Nat.or_eq_zero_iff.mp h).1

/-- A leaf is present, whatever its address. -/
theorem leaf_present (x attr k : ℕ) : (x ||| leafFlags (xtBuildFlags attr) k) &&& pPresent ≠ 0 := by
  rw [Nat.and_or_distrib_right]
  exact fun h => leafFlags_present attr k (Nat.or_eq_zero_iff.mp h).2

/-- A leaf leads to no table. -/
theorem leaf_not_leads (x attr : ℕ) {k : ℕ} (hk : k ≤ 2) :
    ¬ Leads (4 - k) (x ||| leafFlags (xtBuildFlags attr) k) := by
  rintro ⟨hdepth, -, hone | hclear⟩
  · omega
  · rw [leafFlags, if_neg (by omega), Nat.and_or_distrib_right, Nat.and_or_distrib_right,
      Nat.and_self] at hclear
    exact absurd (Nat.or_eq_zero_iff.mp (Nat.or_eq_zero_iff.mp hclear).2).2 (by decide)

/-- **One pass** for a process. -/
theorem Forest.setPage {va pa size attr : ℕ} (h : Forest σ own) (hp : p ∈ σ.procs)
    (hi : index va 39 ≤ firstShared) {r : Except XTResult ℕ}
    (hcall : setPage σ.state p va pa size (xtBuildFlags attr) = (s, r)) :
    ∃ own', Goes (· = ownerOf p (index va 39)) σ own s own' := by
  have hk := levelFor_le va pa size
  rw [setPage_eq] at hcall
  set k := levelFor va pa size
  have hpath : (path va).take (3 - k) =
      index va 39 :: [index va 30, index va 21, index va 12].take (2 - k) := by
    rw [show 3 - k = 2 - k + 1 by omega]
    rfl
  rw [hpath, Paging.makeTables] at hcall
  have hlen : ([index va 30, index va 21, index va 12].take (2 - k)).length = 2 - k := by
    rw [List.length_take, List.length_cons, List.length_cons, List.length_cons, List.length_nil]
    omega
  rcases hfirst : xtGetOrMakePageTable σ.state p (index va 39) 0x07 with ⟨s1, r1 | t1⟩
  · rw [hfirst] at hcall
    cases hcall
    obtain ⟨own1, hgo, -⟩ := h.nextTop hp hi hfirst
    exact ⟨own1, hgo⟩
  rw [hfirst] at hcall
  obtain ⟨own1, hgo, hok⟩ := h.nextTop hp hi hfirst
  obtain ⟨ht1, htable1⟩ := hok t1 rfl
  dsimp only at hcall
  rcases hmake : Paging.makeTables s1 t1 ([index va 30, index va 21, index va 12].take (2 - k))
    with ⟨s2, r2 | t2⟩
  · rw [hmake] at hcall
    cases hcall
    obtain ⟨own2, hgo2, -⟩ := hgo.forest.makeTables ht1 htable1 le_rfl (by omega) hmake
    exact ⟨own2, hgo.trans hgo2⟩
  rw [hmake] at hcall
  obtain ⟨own2, hgo2, hok2⟩ := hgo.forest.makeTables ht1 htable1 le_rfl (by omega) hmake
  obtain ⟨-, htable2⟩ := hok2 t2 rfl
  rw [hlen] at htable2
  cases hcall
  -- the leaf in the last table
  have hdepth : 2 ≤ 2 + (2 - k) := Nat.le_add_right _ _
  refine ⟨own2, hgo.trans (hgo2.trans ?_)⟩
  rw [State.setLeaf]
  refine Goes.set hgo2.forest ⟨htable2 _, .inl hdepth⟩ (leaf_present _ attr k)
    (fun hone => by omega) fun hl => absurd hl ?_
  rw [show 2 + (2 - k) = 4 - k by omega]
  exact leaf_not_leads _ attr hk

/-- **A call** for a process. -/
theorem Forest.setPagesLoop {attr : ℕ} (hp : p ∈ σ.procs) (fuel : ℕ) {va pa size : ℕ}
    (h : Forest σ own) (hsize : size % 2 ^ 12 = 0) (hend : va + size ≤ 2 ^ 47)
    (hO : ∀ v, va ≤ v → v < va + size → O (ownerOf p (index v 39))) {r : XTResult}
    (hcall : setPagesLoop p (xtBuildFlags attr) fuel σ.state va pa size = some (s, r)) :
    ∃ own', Goes O σ own s own' := by
  induction fuel generalizing σ own va pa size with
  | zero => cases hcall
  | succ fuel ih =>
    rw [Paging.setPagesLoop] at hcall
    by_cases hzero : size = 0
    · rw [if_pos hzero] at hcall
      cases hcall
      exact ⟨own, .refl h⟩
    rw [if_neg hzero] at hcall
    have hi : index va 39 ≤ firstShared := by
      rw [Fin.le_def, index_val, show (firstShared : ℕ) = 255 from rfl]
      omega
    rcases hpage : Paging.setPage σ.state p va pa size (xtBuildFlags attr) with ⟨s1, r1 | pageSize⟩
    · rw [hpage] at hcall
      cases hcall
      obtain ⟨own1, hgo⟩ := h.setPage hp hi hpage
      exact ⟨own1, hgo.mono fun o ho => ho ▸ hO va le_rfl (by omega)⟩
    obtain ⟨own1, hgo⟩ := h.setPage hp hi hpage
    rw [hpage] at hcall
    dsimp only at hcall
    have hfit : pageSize ≤ size ∧ pageSize % 2 ^ 12 = 0 ∧ 0 < pageSize := by
      rw [setPage_ok hpage, pageSizeFor]
      split_ifs with hgiga hmega
      · omega
      · omega
      · omega
    rw [show (size + (2 ^ 64 - pageSize)) % 2 ^ 64 = size - pageSize by omega,
      Nat.mod_eq_of_lt (show va + pageSize < 2 ^ 64 by omega)] at hcall
    obtain ⟨own2, hgo2⟩ := ih (σ := { σ with state := s1 }) hp hgo.forest (by omega) (by omega)
      (fun v h1 h2 => hO v (by omega) (by omega)) hcall
    exact ⟨own2, (hgo.mono fun o ho => ho ▸ hO va le_rfl (by omega)).trans hgo2⟩

/-! ### Walks in several trees -/

/-- Walks below the first tables, in two memories that are the same in the slots `S`. -/
theorem stop_below {mem mem' : ℕ → ℕ} {root root' : ℕ} {S : ℕ → ℕ → Prop}
    (hclosed : ∀ n a, S n a → Leads n (mem a) → ∀ j, S (n + 1) (slotBelow mem a j))
    (hsame : ∀ n a, S n a → mem' a = mem a) (hn : n ≠ 0) (ha : S n a) (path : List (Fin 512)) :
    Radix.stop (child root') (read mem') n (some a) path =
        Radix.stop (child root) (read mem) n (some a) path ∧
      read mem' (Radix.stop (child root) (read mem) n (some a) path).1 =
        read mem (Radix.stop (child root) (read mem) n (some a) path).1 := by
  have hword := hsame n a ha
  induction path generalizing n a with
  | nil => exact ⟨rfl, hword⟩
  | cons i path ih =>
    by_cases hleads : Leads n (mem a)
    · rw [stop_of_leads hn hleads, stop_of_leads hn (by rwa [hword]), hword]
      have hnext := hclosed n a ha hleads i
      exact ih (Nat.succ_ne_zero n) hnext (hsame _ _ hnext)
    · rw [stop_of_not_leads hn hleads, stop_of_not_leads hn (by rwa [hword])]
      exact ⟨rfl, hword⟩

/-- Two first tables with the same entry `i` map the same below it. -/
theorem leaf_of_entry {mem mem' : ℕ → ℕ} {root root' : ℕ} {S : ℕ → ℕ → Prop}
    (hentry : mem' (entryAddr root' i) = mem (entryAddr root i))
    (hfirst : Leads 1 (mem (entryAddr root i)) → ∀ j, S 2 (slotBelow mem (entryAddr root i) j))
    (hclosed : ∀ n a, S n a → Leads n (mem a) → ∀ j, S (n + 1) (slotBelow mem a j))
    (hsame : ∀ n a, S n a → mem' a = mem a) (j : Fin 512) (path : List (Fin 512)) :
    leaf mem' root' (i :: j :: path) = leaf mem root (i :: j :: path) := by
  have hstop : ∀ m r, Radix.stop (child r) (read m) 0 none (i :: j :: path) =
      Radix.stop (child r) (read m) 1 (some (entryAddr r i)) (j :: path) :=
    fun m r => Radix.stop_cons_of_some (child_zero r _ i) _
  by_cases hleads : Leads 1 (mem (entryAddr root i))
  · have hleads' : Leads 1 (mem' (entryAddr root' i)) := by rwa [hentry]
    obtain ⟨hwalk, hword⟩ := @stop_below _ _ mem mem' root root' S hclosed hsame
      (Nat.succ_ne_zero 1) (hfirst hleads j) path
    rw [slotBelow] at hwalk hword
    rw [leaf, leaf, hstop, hstop, stop_of_leads one_ne_zero hleads,
      stop_of_leads one_ne_zero hleads', hentry, hwalk]
    dsimp only
    rw [hword]
  · have hleads' : ¬ Leads 1 (mem' (entryAddr root' i)) := by rwa [hentry]
    have hwalk := (hstop mem root).trans (stop_of_not_leads one_ne_zero hleads _)
    have hwalk' := (hstop mem' root').trans (stop_of_not_leads one_ne_zero hleads' _)
    rw [leaf_of_stop hwalk, leaf_of_stop hwalk', hentry]

/-- The mappings of a process in its own part. -/
theorem Forest.leaf_part (h : Forest σ own) (hp : p ∈ σ.procs) {mem' : ℕ → ℕ}
    (hsame : ∀ a n, own a = some (.process p, n) → mem' a = σ.state.mem a) {v : ℕ}
    (hv : index v 39 < firstShared) :
    leaf mem' (higherHalfMem p) (path v) = leaf σ.state.mem (higherHalfMem p) (path v) := by
  refine leaf_of_entry (S := fun n a => own a = some (.process p, n) ∧ 2 ≤ n) ?_ ?_ ?_ ?_ _ _
  · exact hsame _ 1 (h.roots p (List.mem_cons_of_mem _ hp) _)
  · exact fun hl j => ⟨h.part p hp _ hv hl j, le_rfl⟩
  · exact fun n a ha hl j => ⟨h.below a _ n ha.1 ha.2 hl j, ha.2.trans (Nat.le_succ n)⟩
  · exact fun n a ha => hsame a n ha.1

/-- The owners of the slots that a step may write. -/
def MayWrite (p : Option ℕ) (o : Owner) : Prop :=
  ∃ x, p = some x ∧ (o = .process x ∨ o = .shared firstShared)

theorem ownerOf_mayWrite (hi : i ≤ firstShared) : MayWrite (some p) (ownerOf p i) := by
  refine ⟨p, rfl, ?_⟩
  rw [ownerOf]
  split_ifs with hlt
  · exact .inl rfl
  · exact .inr (by rw [le_antisymm hi (not_lt.mp hlt)])

/-- The words of a new process's first table. -/
theorem Forest.newPageTable {table : ℕ} (h : Forest σ own)
    (hcall : newPageTable σ.state σ.kernel = (s, .ok table)) :
    ∃ pages, σ.state.pages = table :: pages ∧ s.pages = pages ∧
      (∀ i, s.mem (entryAddr (higherHalfMem table) i) =
        if i < firstShared then 0 else σ.state.mem (entryAddr (higherHalfMem σ.kernel) i)) ∧
      ∀ a, ¬ InPage table a → s.mem a = σ.state.mem a := by
  rw [Paging.newPageTable] at hcall
  cases hpages : σ.state.pages with
  | nil =>
    rw [hpages] at hcall
    cases hcall
  | cons page pages =>
    rw [hpages] at hcall
    cases hcall
    refine ⟨pages, rfl, rfl, fun i => ?_, fun a ha => ?_⟩
    · have hi := i.isLt
      have hkernel : ¬ InPage table (entryAddr (higherHalfMem σ.kernel) i) := by
        refine h.apart table ?_ _ ?_
        · rw [hpages]
          exact List.mem_append_right _ List.mem_cons_self
        · rw [h.roots _ List.mem_cons_self i]
          exact Option.some_ne_none _
      rw [InPage, entryAddr] at hkernel
      have hshared : i < firstShared ↔ i.val < 255 := Iff.rfl
      simp only [hshared, entryAddr]
      rw [copyMem, setMem, setMem]
      by_cases hlow : i.val < 255
      · rw [if_neg (by omega), if_pos (by omega), if_pos hlow]
      · have hsrc : higherHalfMem σ.kernel + 0x7f8 +
            (higherHalfMem table + 8 * i - (higherHalfMem table + 0x7f8)) =
            higherHalfMem σ.kernel + 8 * i := by omega
        rw [if_pos (by omega), hsrc, if_neg (by omega), if_neg hlow]
    · rw [InPage] at ha
      change copyMem (setMem σ.state.mem _ _) _ _ _ a = _
      rw [copyMem, if_neg (by omega), setMem, if_neg (by omega)]

/-- Only the words of the tables, and of the pages to come, matter. -/
theorem Forest.congr (h : Forest σ own) (hpages : s.pages = σ.state.pages)
    (hmem : ∀ a, own a ≠ none → s.mem a = σ.state.mem a)
    (hzero : ∀ page ∈ s.pages, ∀ i, s.mem (entryAddr (higherHalfMem page) i) = 0) :
    Forest { σ with state := s } own := by
  have hroot : ∀ p ∈ σ.kernel :: σ.procs, ∀ i, s.mem (entryAddr (higherHalfMem p) i) =
      σ.state.mem (entryAddr (higherHalfMem p) i) := by
    intro p hp i
    refine hmem _ ?_
    rw [h.roots p hp i]
    exact Option.some_ne_none _
  have hnext : ∀ a, s.mem a = σ.state.mem a →
      ∀ j, slotBelow s.mem a j = slotBelow σ.state.mem a j := by
    intro a ha j
    rw [slotBelow, ha, slotBelow]
  refine ⟨h.roots, h.other, fun p hp i hi hl j => ?_, fun i hi hl j => ?_, fun p hp i hi => ?_,
    fun a o n ha hn hl j => ?_, fun a ha habsent => ?_, fun p hp i hi => ?_, ?_, ?_, ?_, ?_, hzero⟩
  · have hsame := hroot p (List.mem_cons_of_mem _ hp) i
    change Leads 1 (s.mem _) at hl
    change own (slotBelow s.mem _ j) = _
    rw [hsame] at hl
    rw [hnext _ hsame]
    exact h.part p hp i hi hl j
  · have hsame := hroot σ.kernel List.mem_cons_self i
    change Leads 1 (s.mem _) at hl
    change own (slotBelow s.mem _ j) = _
    rw [hsame] at hl
    rw [hnext _ hsame]
    exact h.top i hi hl j
  · change s.mem _ = s.mem _
    rw [hroot p (List.mem_cons_of_mem _ hp) i, hroot σ.kernel List.mem_cons_self i]
    exact h.same p hp i hi
  · have hsame := hmem a (by rw [ha]; exact Option.some_ne_none _)
    change Leads n (s.mem _) at hl
    change own (slotBelow s.mem _ j) = _
    rw [hsame] at hl
    rw [hnext _ hsame]
    exact h.below a o n ha hn hl j
  · change s.mem a &&& pPresent = 0 at habsent
    change s.mem a = 0
    rw [hmem a ha] at habsent ⊢
    exact h.absent a ha habsent
  · change s.mem _ &&& pPS = 0
    rw [hroot p (List.mem_cons_of_mem _ hp) i]
    exact h.clear p hp i hi
  · change s.mem _ &&& pPresent ≠ 0 ∧ s.mem _ &&& pPS = 0
    rw [hroot σ.kernel List.mem_cons_self firstShared]
    exact h.vdso
  · change ∀ page ∈ σ.data ++ s.pages, _
    rw [hpages]
    exact h.aligned
  · change ∀ page ∈ σ.data ++ s.pages, _
    rw [hpages]
    exact h.apart
  · change ((σ.data ++ s.pages).map higherHalfMem).Nodup
    rw [hpages]
    exact h.distinct

/-- The next page is taken for something else. -/
theorem Forest.use {pages : List ℕ} (h : Forest σ own) (hpages : σ.state.pages = page :: pages) :
    Forest { σ with state := { σ.state with pages := pages }, data := page :: σ.data } own := by
  have hperm : (page :: σ.data ++ pages).Perm (σ.data ++ σ.state.pages) := by
    rw [hpages]
    exact List.perm_middle.symm
  refine ⟨h.roots, h.other, h.part, h.top, h.same, h.below, h.absent, h.clear, h.vdso,
    fun x hx => h.aligned x (hperm.mem_iff.mp hx), fun x hx => h.apart x (hperm.mem_iff.mp hx),
    (hperm.map higherHalfMem).nodup_iff.mpr h.distinct, fun x hx => h.zero x ?_⟩
  rw [hpages]
  exact List.mem_cons_of_mem _ hx

/-- A page whose entries are those of the kernel from `firstShared` on becomes a first table. -/
theorem Forest.addRoot {table : ℕ} {data : List ℕ} (h : Forest σ own) (hdata : σ.data = table :: data)
    (hnew : ∀ i, σ.state.mem (entryAddr (higherHalfMem table) i) =
      if i < firstShared then 0 else σ.state.mem (entryAddr (higherHalfMem σ.kernel) i)) :
    Forest { σ with procs := table :: σ.procs, data := data }
      (relabel own (higherHalfMem table) (.process table) 1) := by
  have hpage : table ∈ σ.data ++ σ.state.pages := by
    rw [hdata]
    exact List.mem_append_left _ List.mem_cons_self
  have hsub : ∀ x ∈ data ++ σ.state.pages, x ∈ σ.data ++ σ.state.pages := by
    intro x hx
    rw [hdata]
    exact List.mem_cons_of_mem _ hx
  have hdistinct := h.distinct
  rw [hdata, List.cons_append, List.map_cons] at hdistinct
  have hlabel := relabel_tableOf own (higherHalfMem table) (.process table) 1
  set own' := relabel own (higherHalfMem table) (.process table) 1 with hown'
  have hkeep : ∀ {b x}, own b = some x → own' b = some x := by
    intro b x hb
    rw [hown', h.relabel_of_own hpage (by rw [hb]; exact Option.some_ne_none x), hb]
  have hne : table ∉ σ.kernel :: σ.procs := by
    intro hold
    refine h.apart table hpage _ ?_ (inPage_entryAddr table 0)
    rw [h.roots table hold 0]
    exact Option.some_ne_none _
  refine ⟨fun p hp i => ?_, fun hk => ?_, fun p hp i hi hl j => ?_,
    fun i hi hl j => hkeep (h.top i hi hl j), fun p hp i hi => ?_, fun b o m hb hm hl j => ?_,
    fun b hb habsent => ?_, fun p hp i hi => ?_, h.vdso, fun x hx => h.aligned x (hsub x hx),
    fun x hx b hb hinx => ?_, (List.nodup_cons.mp hdistinct).2, h.zero⟩
  · obtain rfl | rfl | hp : p = σ.kernel ∨ p = table ∨ p ∈ σ.procs := by simpa using hp
    · exact hkeep (h.roots _ List.mem_cons_self i)
    · exact hlabel i
    · exact hkeep (h.roots p (List.mem_cons_of_mem _ hp) i)
  · obtain hk | hk := List.mem_cons.mp hk
    · exact hne (hk ▸ List.mem_cons_self)
    · exact h.other hk
  · obtain rfl | hp := List.mem_cons.mp hp
    · change Leads 1 (σ.state.mem _) at hl
      rw [hnew, if_pos hi] at hl
      exact absurd hl (not_leads_zero 1)
    · exact hkeep (h.part p hp i hi hl j)
  · obtain rfl | hp := List.mem_cons.mp hp
    · exact (hnew i).trans (if_neg (not_lt.mpr hi))
    · exact h.same p hp i hi
  · obtain ⟨-, hlab⟩ | hold := relabel_cases hb
    · rw [Option.some.injEq, Prod.mk.injEq] at hlab
      omega
    · exact hkeep (h.below b o m hold hm hl j)
  · obtain ⟨⟨k, rfl⟩, -⟩ | hold := relabel_cases (x := own' b) rfl
    · change σ.state.mem _ = 0
      change σ.state.mem _ &&& pPresent = 0 at habsent
      rw [hnew] at habsent ⊢
      split_ifs at habsent ⊢ with hk
      · rfl
      · refine h.absent _ ?_ habsent
        rw [h.roots _ List.mem_cons_self k]
        exact Option.some_ne_none _
    · rw [← hold] at hb
      exact h.absent b hb habsent
  · obtain rfl | hp := List.mem_cons.mp hp
    · change σ.state.mem _ &&& pPS = 0
      rw [hnew, if_pos hi, Nat.zero_and]
    · exact h.clear p hp i hi
  · obtain ⟨⟨k, rfl⟩, -⟩ | hold := relabel_cases (x := own' b) rfl
    · have heq := eq_of_inPage (h.aligned x (hsub x hx)).1 (h.aligned table hpage).1 hinx
        (inPage_entryAddr table k)
      rw [← heq] at hdistinct
      exact (List.nodup_cons.mp hdistinct).1 (List.mem_map_of_mem hx)
    · rw [← hold] at hb
      exact h.apart x (hsub x hx) b hb hinx

/-- A new process: its first table leads to the shared tables only. -/
theorem Forest.create {table : ℕ} (h : Forest σ own)
    (hcall : Paging.newPageTable σ.state σ.kernel = (s, .ok table)) :
    Forest { σ with state := s, procs := table :: σ.procs }
        (relabel own (higherHalfMem table) (.process table) 1) ∧
      ∀ a, own a ≠ none → s.mem a = σ.state.mem a := by
  obtain ⟨pages, hpages, hrest, hnew, hold⟩ := h.newPageTable hcall
  have hpage : table ∈ σ.data ++ σ.state.pages := by
    rw [hpages]
    exact List.mem_append_right _ List.mem_cons_self
  have hmem : ∀ a, own a ≠ none → s.mem a = σ.state.mem a :=
    fun a ha => hold a (h.apart table hpage a ha)
  -- the page is taken, then written, and then it is a first table
  have huse := h.use hpages
  have hwritten := huse.congr hrest hmem fun x hx i => by
    rw [hrest] at hx
    rw [hold]
    · exact huse.zero x hx i
    · intro hinx
      have hx' : x ∈ σ.data ++ σ.state.pages := by
        rw [hpages]
        exact List.mem_append_right _ (List.mem_cons_of_mem _ hx)
      have heq := eq_of_inPage (h.aligned table hpage).1 (h.aligned x hx').1 hinx (inPage_entryAddr x i)
      have hdistinct := huse.distinct
      rw [List.cons_append, List.map_cons, heq] at hdistinct
      exact (List.nodup_cons.mp hdistinct).1 (List.mem_map_of_mem (List.mem_append_right _ hx))
  refine ⟨hwritten.addRoot rfl fun i => ?_, hmem⟩
  rw [hnew i]
  split_ifs with hi
  · rfl
  · refine (hmem _ ?_).symm
    rw [h.roots _ List.mem_cons_self i]
    exact Option.some_ne_none _

/-- A write in a page that is no table. -/
theorem Forest.write (h : Forest σ own) (hpage : page ∈ σ.data) (ha : InPage page a) (e : ℕ) :
    Forest { σ with state := σ.state.set a e } own ∧
      ∀ b, own b ≠ none → (σ.state.set a e).mem b = σ.state.mem b := by
  have hpage' : page ∈ σ.data ++ σ.state.pages := List.mem_append_left _ hpage
  have hmem : ∀ b, own b ≠ none → (σ.state.set a e).mem b = σ.state.mem b := by
    intro b hb
    refine set_mem_of_ne _ _ ?_
    rintro rfl
    exact h.apart page hpage' b hb ha
  refine ⟨h.congr rfl hmem fun x hx i => ?_, hmem⟩
  rw [set_mem_of_ne]
  · exact h.zero x hx i
  · rintro rfl
    have hx' : x ∈ σ.data ++ σ.state.pages := List.mem_append_right _ hx
    have heq := eq_of_inPage (h.aligned page hpage').1 (h.aligned x hx').1 ha (inPage_entryAddr x i)
    have hdistinct := h.distinct
    rw [List.map_append, List.nodup_append] at hdistinct
    exact hdistinct.2.2 _ (List.mem_map_of_mem hpage) _ (List.mem_map_of_mem hx) heq

/-- **Step**: every slot keeps its owner, and only the caller's slots are written. -/
theorem Forest.step {c : Option ℕ} (h : Forest σ own) (hstep : Spaces.Step c σ σ') :
    ∃ own', Forest σ' own' ∧
      ∀ a o n, own a = some (o, n) → ¬ MayWrite c o → σ'.state.mem a = σ.state.mem a := by
  cases hstep with
  | create hcall =>
    obtain ⟨hforest, hmem⟩ := h.create hcall
    exact ⟨_, hforest, fun a o n ha _ => hmem a (by rw [ha]; exact Option.some_ne_none _)⟩
  | map hp hsize hend hcall =>
    unfold xtSetPages at hcall
    split_ifs at hcall with hzero
    · cases hcall
      exact ⟨own, h, fun _ _ _ _ _ => rfl⟩
    · obtain ⟨own', hgo⟩ := h.setPagesLoop hp _ hsize hend
        (fun v h1 h2 => ownerOf_mayWrite (by
          rw [Fin.le_def, index_val, show (firstShared : ℕ) = 255 from rfl]
          omega)) hcall
      exact ⟨own', hgo.forest, hgo.frame⟩
  | use hpages => exact ⟨own, h.use hpages, fun _ _ _ _ _ => rfl⟩
  | write e hpage ha =>
    obtain ⟨hforest, hmem⟩ := h.write hpage ha e
    exact ⟨own, hforest, fun b o n hb _ => hmem b (by rw [hb]; exact Option.some_ne_none _)⟩

/-! ### Runs -/

theorem reaches_snoc {mem : ℕ → ℕ} {r : List (Fin 512)} (h : Reaches mem p r (some a)) (hr : r ≠ [])
    (hl : Leads r.length (mem a)) (j : Fin 512) : Reaches mem p (r ++ [j]) (some (slotBelow mem a j)) := by
  have hlen : r.length ≠ 0 := fun hzero => hr (List.length_eq_zero_iff.mp hzero)
  rw [Reaches, Radix.stop_append h, zero_add, stop_of_leads hlen hl, Radix.stop_nil, slotBelow]

/-- The labels of the kernel's tables: the owner is read off the indices that lead to a slot. -/
theorem Spaces.Initial.exists_forest (h : σ.Initial) : ∃ own, Forest σ own := by
  classical
  let IsSlot : ℕ → List (Fin 512) → Prop :=
    fun a r => r ≠ [] ∧ IsShared r ∧ Reaches σ.state.mem σ.kernel r (some a)
  let owner : List (Fin 512) → Owner :=
    fun r => if r.length = 1 then .process σ.kernel else .shared (r.headD 0)
  let own : ℕ → Option (Owner × ℕ) :=
    fun a => if hr : ∃ r, IsSlot a r then some (owner hr.choose, hr.choose.length) else none
  have hown : ∀ {a r}, IsSlot a r → own a = some (owner r, r.length) := by
    intro a r hr
    have hex : ∃ r, IsSlot a r := ⟨r, hr⟩
    have heq : hex.choose = r :=
      h.unshared _ _ _ hex.choose_spec.2.1 hr.2.1 hex.choose_spec.2.2 hr.2.2
    change (if hr : ∃ r, IsSlot a r then some (owner hr.choose, hr.choose.length) else none) = _
    rw [dif_pos hex, heq]
  have hslot : ∀ {a x}, own a = some x → ∃ r, IsSlot a r ∧ x = (owner r, r.length) := by
    intro a x hx
    change (if hr : ∃ r, IsSlot a r then some (owner hr.choose, hr.choose.length) else none) = _ at hx
    split_ifs at hx with hex
    exact ⟨hex.choose, hex.choose_spec, (Option.some.inj hx).symm⟩
  have hsome : ∀ {a}, own a ≠ none → ∃ r, IsSlot a r := by
    intro a ha
    obtain ⟨x, hx⟩ := Option.ne_none_iff_exists'.mp ha
    obtain ⟨r, hr, -⟩ := hslot hx
    exact ⟨r, hr⟩
  have hroot : ∀ i, IsSlot (entryAddr (higherHalfMem σ.kernel) i) [i] :=
    fun i => ⟨List.cons_ne_nil _ _, .inl le_rfl, rfl⟩
  have hprocs : ∀ p ∈ σ.procs, False := by
    intro p hp
    rw [h.procs] at hp
    exact absurd hp List.not_mem_nil
  have hpages : σ.data ++ σ.state.pages = σ.state.pages := by
    rw [h.data, List.nil_append]
  refine ⟨own, ⟨fun p hp i => ?_, fun hk => hprocs _ hk, fun p hp => (hprocs p hp).elim,
    fun i hi hl j => ?_, fun p hp => (hprocs p hp).elim, fun a o n ha hn hl j => ?_,
    fun a ha habsent => ?_, fun p hp => (hprocs p hp).elim, ⟨h.vdso, h.clear⟩, ?_, ?_, ?_, h.zero⟩⟩
  · rw [h.procs, List.mem_singleton] at hp
    rw [hp]
    exact hown (hroot i)
  · have hreach := reaches_snoc (hroot i).2.2 (hroot i).1 hl j
    exact hown ⟨List.cons_ne_nil _ _, .inr ⟨i, rfl, hi⟩, hreach⟩
  · obtain ⟨r, hr, hx⟩ := hslot ha
    rw [Prod.mk.injEq] at hx
    obtain ⟨rfl, rfl⟩ := hx
    -- a longer list of indices has the same first one
    have hshared : IsShared (r ++ [j]) := by
      refine .inr ?_
      rw [List.head?_append_of_ne_nil _ hr.1]
      exact hr.2.1.resolve_left (by omega)
    have howner : owner (r ++ [j]) = owner r := by
      change (if _ then _ else _) = (if _ then _ else _)
      rw [if_neg (by rw [List.length_append]; omega), if_neg (by omega), List.headD_eq_head?_getD,
        List.head?_append_of_ne_nil _ hr.1, List.headD_eq_head?_getD]
    rw [hown ⟨List.append_ne_nil_of_left_ne_nil hr.1 _, hshared, reaches_snoc hr.2.2 hr.1 hl j⟩,
      howner, List.length_append, List.length_singleton]
  · obtain ⟨r, -, hshared, hreach⟩ := hsome ha
    exact h.absent r a hshared hreach habsent
  · rw [hpages]
    exact h.aligned
  · rw [hpages]
    intro page hpage a ha
    obtain ⟨r, -, hshared, hreach⟩ := hsome ha
    exact h.apart page hpage r a hshared hreach
  · rw [hpages]
    exact h.distinct

theorem exists_forest (h : Reachable Spaces.Initial Spaces.AnyStep σ) : ∃ own, Forest σ own := by
  refine h.invariant (fun _ => Spaces.Initial.exists_forest) ?_
  rintro τ τ' ⟨own, hforest⟩ ⟨c, hstep⟩
  obtain ⟨own', hforest', -⟩ := hforest.step hstep
  exact ⟨own', hforest'⟩

theorem Spaces.Step.kernel {c : Option ℕ} (h : Spaces.Step c σ σ') : σ'.kernel = σ.kernel := by
  cases h with
  | create => rfl
  | map => rfl
  | use => rfl
  | write => rfl

theorem Spaces.Step.procs {c : Option ℕ} (h : Spaces.Step c σ σ') (hp : p ∈ σ.procs) :
    p ∈ σ'.procs := by
  cases h with
  | create => exact List.mem_cons_of_mem _ hp
  | map => exact hp
  | use => exact hp
  | write => exact hp

/-- Calls are made for processes. -/
theorem Spaces.Step.caller (h : Spaces.Step (some p) σ σ') : p ∈ σ.procs := by
  cases h with
  | map hp => exact hp

theorem index_lt_of_lt {v : ℕ} (hv : v < sharedStart) : index v 39 < firstShared := by
  rw [sharedStart] at hv
  rw [Fin.lt_def, index_val, show (firstShared : ℕ) = 255 from rfl]
  omega

/-- **Other processes** change nothing that is mapped below `sharedStart`: in any run without a call for
    `q`, its addresses keep their entries, with the rights in them, and the sizes of their pages. -/
theorem others_keep (h : Reachable Spaces.Initial Spaces.AnyStep σ) (hq : q ∈ σ.procs)
    (hrun : Relation.ReflTransGen (fun τ τ' => ∃ c, c ≠ some q ∧ Spaces.Step c τ τ') σ σ') {v : ℕ}
    (hv : v < sharedStart) :
    leaf σ'.state.mem (higherHalfMem q) (path v) = leaf σ.state.mem (higherHalfMem q) (path v) := by
  suffices hall : Reachable Spaces.Initial Spaces.AnyStep σ' ∧ q ∈ σ'.procs ∧
      leaf σ'.state.mem (higherHalfMem q) (path v) = leaf σ.state.mem (higherHalfMem q) (path v) from
    hall.2.2
  induction hrun with
  | refl => exact ⟨h, hq, rfl⟩
  | tail _ hstep ih =>
    obtain ⟨hreach, hin, hleaf⟩ := ih
    obtain ⟨c, hc, hstep⟩ := hstep
    obtain ⟨own, hforest⟩ := exists_forest hreach
    obtain ⟨-, -, hframe⟩ := hforest.step hstep
    refine ⟨hreach.next ⟨c, hstep⟩, hstep.procs hin, ?_⟩
    rw [← hleaf]
    refine hforest.leaf_part hin (fun a n ha => hframe a _ n ha ?_) (index_lt_of_lt hv)
    rintro ⟨x, rfl, hx | hx⟩
    · cases hx
      exact hc rfl
    · cases hx

/-- A kernel with a table for entry 255, and four pages to come. -/
def bootSpaces : Spaces where
  state := (⟨fun _ => 0, [0x3000, 0x4000, 0x5000, 0x6000]⟩ : State).set
    (entryAddr (higherHalfMem 0x1000) firstShared) 0x2007
  kernel := 0x1000
  procs := []
  data := []

theorem bootSpaces_of_ne (h : a ≠ entryAddr (higherHalfMem 0x1000) firstShared) :
    bootSpaces.state.mem a = 0 := set_mem_of_ne _ _ h

theorem bootSpaces_entry :
    bootSpaces.state.mem (entryAddr (higherHalfMem 0x1000) firstShared) = 0x2007 :=
  set_mem_self _ _ _

/-- The slots of the two tables. -/
theorem bootSpaces_reaches {r : List (Fin 512)} {slot : Option ℕ}
    (h : Reaches bootSpaces.state.mem 0x1000 r slot) :
    r = [] ∧ slot = none ∨
      (∃ i, r = [i] ∧ slot = some (entryAddr (higherHalfMem 0x1000) i)) ∨
      ∃ j, r = [firstShared, j] ∧ slot = some (entryAddr (higherHalfMem 0x2000) j) := by
  cases r with
  | nil =>
    cases h
    exact .inl ⟨rfl, rfl⟩
  | cons i r =>
    rw [Reaches, Radix.stop_cons_of_some (child_zero _ _ i), zero_add] at h
    cases r with
    | nil =>
      cases h
      exact .inr (.inl ⟨i, rfl, rfl⟩)
    | cons j r =>
      by_cases hi : i = firstShared
      · subst hi
        have hnext : higherHalfMem (0x2007 &&& addrMask) = higherHalfMem 0x2000 := by decide
        rw [stop_of_leads one_ne_zero (by rw [bootSpaces_entry]; decide), bootSpaces_entry, hnext] at h
        cases r with
        | nil =>
          cases h
          exact .inr (.inr ⟨j, rfl, rfl⟩)
        | cons k r =>
          have hzero : bootSpaces.state.mem (entryAddr (higherHalfMem 0x2000) j) = 0 := by
            refine bootSpaces_of_ne fun heq => ?_
            have hbase := entryAddr_left_inj (by decide) (by decide) heq
            exact absurd hbase (by decide)
          rw [stop_of_not_leads (by decide) (by rw [hzero]; exact not_leads_zero _)] at h
          cases h
      · have hzero : bootSpaces.state.mem (entryAddr (higherHalfMem 0x1000) i) = 0 :=
          bootSpaces_of_ne fun heq => hi (entryAddr_right_inj heq)
        rw [stop_of_not_leads one_ne_zero (by rw [hzero]; exact not_leads_zero _)] at h
        cases h

theorem bootSpaces_initial : bootSpaces.Initial := by
  have hpage : ∀ page ∈ bootSpaces.state.pages, page ∈ [0x3000, 0x4000, 0x5000, 0x6000] :=
    fun _ hpage => hpage
  have hapart : ∀ page ∈ bootSpaces.state.pages, higherHalfMem page ≠ higherHalfMem 0x1000 ∧
      higherHalfMem page ≠ higherHalfMem 0x2000 ∧ page % 2 ^ 12 = 0 ∧ page < 2 ^ 52 := by decide
  refine ⟨rfl, rfl, fun r r' slot _ _ h h' => ?_, fun r a _ h habsent => ?_, ?_, ?_,
    fun page hpage => (hapart page hpage).2.2, fun page hpage i => ?_, fun page hpage r a _ h hin => ?_,
    by decide⟩
  · obtain ⟨rfl, rfl⟩ | ⟨i, rfl, rfl⟩ | ⟨j, rfl, rfl⟩ := bootSpaces_reaches h
    · obtain ⟨rfl, -⟩ | ⟨i, -, hi⟩ | ⟨j, -, hj⟩ := bootSpaces_reaches h'
      · rfl
      · cases hi
      · cases hj
    · obtain ⟨-, hi⟩ | ⟨j, rfl, hj⟩ | ⟨j, -, hj⟩ := bootSpaces_reaches h'
      · cases hi
      · rw [entryAddr_right_inj (Option.some.inj hj)]
      · have hbase := entryAddr_left_inj (by decide) (by decide) (Option.some.inj hj)
        exact absurd hbase (by decide)
    · obtain ⟨-, hi⟩ | ⟨i, -, hi⟩ | ⟨i, rfl, hi⟩ := bootSpaces_reaches h'
      · cases hi
      · have hbase := entryAddr_left_inj (by decide) (by decide) (Option.some.inj hi)
        exact absurd hbase (by decide)
      · rw [entryAddr_right_inj (Option.some.inj hi)]
  · by_cases ha : a = entryAddr (higherHalfMem 0x1000) firstShared
    · rw [ha, bootSpaces_entry] at habsent
      exact absurd habsent (by decide)
    · exact bootSpaces_of_ne ha
  · rw [show bootSpaces.kernel = 0x1000 from rfl, bootSpaces_entry]
    decide
  · rw [show bootSpaces.kernel = 0x1000 from rfl, bootSpaces_entry]
    decide
  · refine bootSpaces_of_ne fun heq => ?_
    exact (hapart page hpage).1 (entryAddr_left_inj (higherHalfMem_mod (hapart page hpage).2.2.1)
      (by decide) heq)
  · obtain ⟨-, hi⟩ | ⟨i, -, hi⟩ | ⟨j, -, hj⟩ := bootSpaces_reaches h
    · cases hi
    · cases hi
      exact (hapart page hpage).1
        (eq_of_inPage (hapart page hpage).2.2.1 (by decide) hin (inPage_entryAddr 0x1000 i))
    · cases hj
      exact (hapart page hpage).2.1
        (eq_of_inPage (hapart page hpage).2.2.1 (by decide) hin (inPage_entryAddr 0x2000 j))

/-- Two processes. -/
def twoSpaces : Spaces :=
  let s := (newPageTable bootSpaces.state 0x1000).1
  { bootSpaces with state := (newPageTable s 0x1000).1, procs := [0x4000, 0x3000] }

theorem bootSpaces_step : Spaces.AnyStep bootSpaces
    { bootSpaces with state := (newPageTable bootSpaces.state 0x1000).1, procs := [0x3000] } :=
  ⟨none, .create rfl⟩

theorem twoSpaces_step : Spaces.AnyStep
    { bootSpaces with state := (newPageTable bootSpaces.state 0x1000).1, procs := [0x3000] } twoSpaces :=
  ⟨none, .create rfl⟩

theorem twoSpaces_reachable : Reachable Spaces.Initial Spaces.AnyStep twoSpaces :=
  ((Reachable.start bootSpaces_initial).next bootSpaces_step).next twoSpaces_step

/-- A page is mapped at `0x400000` for one of them, and the other one has nothing there. -/
theorem twoSpaces_keep : ∃ s r, xtSetPages 2 twoSpaces.state 0x4000 0x400000 0x5000 0x1000 0xa00 =
      some (s, r) ∧
    leaf s.mem (higherHalfMem 0x3000) (path 0x400000) =
      leaf twoSpaces.state.mem (higherHalfMem 0x3000) (path 0x400000) := by
  obtain ⟨⟨s, r⟩, hcall⟩ := Option.isSome_iff_exists.mp
    (xtSetPages_isSome twoSpaces.state 0x4000 0xa00 (show 0x400000 % 2 ^ 12 = 0 by decide)
      (show 0x5000 % 2 ^ 12 = 0 by decide) (show 0x1000 % 2 ^ 12 = 0 by decide) (by decide))
  refine ⟨s, r, hcall, ?_⟩
  have hmap : Spaces.Step (some 0x4000) twoSpaces { twoSpaces with state := s } :=
    .map List.mem_cons_self (by decide) (by decide) hcall
  exact others_keep twoSpaces_reachable (List.mem_cons_of_mem _ List.mem_cons_self)
    (.single ⟨_, by decide, hmap⟩) (show 0x400000 < sharedStart by decide)

end XTOS.Paging

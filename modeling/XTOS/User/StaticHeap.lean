import XTOS.Heap
import XTOS.User.Syscall

/-!
# The static heap in system calls

The heap of `memory.c` as the kernel's side of a system call, and a call that leaves user
space.

## Main definitions

- `StaticPlace` — where the heap and the local variables of a call lie
- `staticAlloc` — `xtHeapAlloc` on that heap alone
- `staticSide` — the kernel's side with it
-/

namespace XTOS.User

open SysLib Heap

/-- The heap region and the locals of a call: all in the kernel half, apart and writable. -/
structure StaticPlace (v : AddressSpace) where
  start : ℕ
  total : ℕ
  pointer : ℕ
  value : ℕ
  region : Region start total
  kernel : userSizeMax ≤ start
  pointer_kernel : userSizeMax ≤ pointer ∧ pointer + 8 ≤ space
  apart : start + total ≤ pointer ∨ pointer + 8 ≤ start
  pointer_writable : ∀ i < 8, v.writable (pointer + i) = true
  heap_writable : ∀ i, start ≤ i → i < start + total → v.writable i = true

/-- The heap is tiled by blocks, and the caller's blocks are used ones. -/
def StaticLive (start total : ℕ) (m : ℕ → UInt8) (l : List (ℕ × ℕ)) : Prop :=
  ∃ bs, Tiled m start total bs ∧ l.Subperm (livePtrs start bs)

section live

variable {start total : ℕ} {m m' : ℕ → UInt8} {l : List (ℕ × ℕ)} {bs : List Block}

/-- The bytes of a live block lie in the region. -/
theorem livePtr_range (h : Tiled m start total bs) {x : ℕ × ℕ} (hx : x ∈ livePtrs start bs) :
    start ≤ x.1 ∧ x.1 + x.2 ≤ start + total := by
  obtain ⟨xs, b, ys, rfl, hb, hp⟩ := exists_of_mem_livePtrs hx
  have hroom := h.req b (by simp) _ hb
  have hends := h.ends
  have hle := le_endAddr start xs
  have hys := le_endAddr (endAddr start xs + b.size) ys
  rw [endAddr_append, endAddr] at hends
  omega

theorem livePtr_not_header (h : Tiled m start total bs) {x : ℕ × ℕ}
    (hx : x ∈ livePtrs start bs) {i : ℕ} (h1 : x.1 ≤ i) (h2 : i < x.1 + x.2) :
    ¬ InHeader start bs i :=
  not_inHeader_of_livePtr h.req h.size_ge hx h1 h2

theorem outside_not_header (h : Tiled m start total bs) {i : ℕ}
    (hi : i < start ∨ start + total ≤ i) : ¬ InHeader start bs i := by
  intro hin
  have hrange := hin.range h.size_ge
  have hends := h.ends
  omega

/-- Live blocks are apart. -/
theorem StaticLive.apart (hr : Region start total) (h : StaticLive start total m l) :
    l.Pairwise fun x y => x.1 + x.2 ≤ y.1 ∨ y.1 + y.2 ≤ x.1 := by
  obtain ⟨bs, htiled, l', hperm, hsub⟩ := h
  have hall : (livePtrs start bs).Pairwise fun x y => x.1 + x.2 ≤ y.1 ∨ y.1 + y.2 ≤ x.1 := by
    refine (List.Pairwise.imp_of_mem ?_ (htiled.seg.payloads htiled.size_ge))
    intro x y hx _ hxy
    have hroom := (htiled.payload hr hx).2
    exact .inl (by omega)
  exact (hperm.pairwise_iff fun h => Or.symm h).mp (hall.sublist hsub)

/-- The caller writes to its own blocks, and elsewhere outside the heap. -/
theorem StaticLive.write (h : StaticLive start total m l)
    (hw : ∀ i, m' i ≠ m i → (∃ x ∈ l, x.1 ≤ i ∧ i < x.1 + x.2) ∨
      (i < start ∨ start + total ≤ i)) : StaticLive start total m' l := by
  obtain ⟨bs, htiled, hsub⟩ := h
  refine ⟨bs, htiled.congr_headers fun i hi => ?_, hsub⟩
  by_contra hne
  obtain ⟨x, hx, h1, h2⟩ | hout := hw i hne
  · exact livePtr_not_header htiled (hsub.subset hx) h1 h2 hi
  · exact outside_not_header htiled hout hi

theorem StaticLive.alloc (hr : Region start total) (h : StaticLive start total m l)
    {fuel n b : ℕ} (hn : n ≤ userSizeMax)
    (hcall : xtHeapAlloc fuel m start n = some (some (m', b))) :
    StaticLive start total m' ((b, n) :: l) ∧
      (∀ i, i < start ∨ start + total ≤ i → m' i = m i) ∧
      ∀ x ∈ (b, n) :: l, ∀ i, x.1 ≤ i → i < x.1 + x.2 → m' i = m i := by
  obtain ⟨bs, htiled, hsub⟩ := h
  obtain ⟨bs', htiled', hperm, hframe⟩ := htiled.xtHeapAlloc_frame hr
    (by unfold userSizeMax at hn; omega) hcall
  have hsub' : ((b, n) :: l).Subperm (livePtrs start bs') :=
    ((List.subperm_cons _).mpr hsub).trans hperm.symm.subperm
  refine ⟨⟨bs', htiled', hsub'⟩, fun i hi => ?_, fun x hx i h1 h2 => ?_⟩
  · exact hframe i (outside_not_header htiled' hi)
  · exact hframe i (livePtr_not_header htiled' (hsub'.subset hx) h1 h2)

/-- `xtHeapAlloc` on the static heap where `xtAllocatePages` has no page to give. -/
def staticAlloc (fuel start : ℕ) (m : ℕ → UInt8) (n : ℕ) : Option ((ℕ → UInt8) × Option ℕ) :=
  match xtHeapAlloc fuel m start n with
  | none => none
  | some none => some (m, none)
  | some (some (m, b)) => some (m, some b)

theorem staticAlloc_some {fuel start n b : ℕ} (h : staticAlloc fuel start m n = some (m', some b)) :
    xtHeapAlloc fuel m start n = some (some (m', b)) := by
  rw [staticAlloc] at h
  split at h
  · cases h
  · cases h
  · rename_i hcall
    cases h
    exact hcall

end live

/-- The kernel's side of a call with the static heap. -/
def staticSide {v : AddressSpace} (p : StaticPlace v) (fuel : ℕ) : KernelSide v where
  pointer := p.pointer
  value := p.value
  alloc := staticAlloc fuel p.start
  Live := StaticLive p.start p.total
  pointer_kernel := p.pointer_kernel
  pointer_writable := p.pointer_writable
  live_kernel := by
    rintro m l ⟨bs, htiled, hsub⟩ x hx
    have hrange := livePtr_range htiled (hsub.subset hx)
    have hkernel := p.kernel
    have hends := p.region.ends
    unfold space
    omega
  live_apart := fun h => h.apart p.region
  live_pointer := by
    rintro m l ⟨bs, htiled, hsub⟩ x hx
    have hrange := livePtr_range htiled (hsub.subset hx)
    have hapart := p.apart
    omega
  live_writable := by
    rintro m l ⟨bs, htiled, hsub⟩ x hx i h1 h2
    have hrange := livePtr_range htiled (hsub.subset hx)
    exact p.heap_writable i (by omega) (by omega)
  live_write := by
    intro m m' l h hw
    refine h.write fun i hne => (hw i hne).imp_right fun hp => ?_
    have hapart := p.apart
    omega
  live_alloc := fun h hn hcall => (h.alloc p.region hn (staticAlloc_some hcall)).1
  alloc_user := by
    intro m m' l n b h hn hcall a ha
    have hkernel := p.kernel
    exact (h.alloc p.region hn (staticAlloc_some hcall)).2.1 a (.inl (by omega))
  alloc_keeps := fun h hn hcall => (h.alloc p.region hn (staticAlloc_some hcall)).2.2

/-! ### A heap as `xtHeapInit` leaves it -/

/-- Every address is mapped, but for page 0. -/
def allMapped : AddressSpace := ⟨fun a => decide (4096 ≤ a), fun a => decide (4096 ≤ a)⟩

/-- The 64 KiB of the static heap. -/
def heapData : ℕ := 0xffff800000200000

/-- Memory of zeros with a fresh heap. -/
def freshMemory : ℕ → UInt8 := (xtHeapInit (fun _ => 0) heapData).1

/-- A call on a kernel stack behind the heap. -/
def freshPlace : StaticPlace allMapped where
  start := heapData
  total := 65536
  pointer := 0xffff800000300000
  value := 0xffff800000300008
  region := ⟨by decide, by decide, by decide, by decide, by decide⟩
  kernel := by decide
  pointer_kernel := by decide
  apart := by decide
  pointer_writable := by decide
  heap_writable := by
    intro i h1 _
    unfold heapData at h1
    simp only [allMapped, decide_eq_true_eq]
    omega

theorem freshMemory_tiled : Tiled freshMemory heapData 65536 [⟨65536, none⟩] := by
  have hsize : (Heap.entryAt freshMemory heapData).size = 65536 := by decide +kernel
  have hinitial : (⟨freshMemory, heapData, 65536, []⟩ : Run).Initial :=
    ⟨fun _ => 0, heapData, by decide, by decide, Prod.ext rfl (by decide +kernel), hsize.symm, rfl⟩
  exact hinitial.sound.tiled

theorem freshMemory_live (fuel : ℕ) : (staticSide freshPlace fuel).Live freshMemory [] :=
  ⟨_, freshMemory_tiled, List.nil_subperm⟩

/-- A pipe is created for handle pointers in user space. -/
theorem createPipe_stays_below :
    (staticSide freshPlace 8).Live freshMemory [] ∧
      ∀ a ∈ (Call.createPipe 0x10000 0x10008 true true).touched (staticSide freshPlace 8)
        freshMemory, a < userSizeMax := by
  refine ⟨freshMemory_live 8, (touched_below_iff _ _ (freshMemory_live 8) _).mpr fun _ => ?_⟩
  have hbelow : ∀ p : UInt64, p.toNat + 8 ≤ userSizeMax →
      ToUser allMapped p.toNat (staticSide freshPlace 8).value 8 :=
    fun p hp => .inr ⟨7, by decide, by omega, .inl rfl⟩
  exact ⟨hbelow _ (by decide), fun _ => hbelow _ (by decide)⟩

/-- A process is created with a handle pointer to the kernel half: the kernel writes there. -/
theorem handle_written_to_kernel_half :
    (staticSide freshPlace 8).Live freshMemory [] ∧
      (Call.createProcess 0xffff800000000000 true).touched (staticSide freshPlace 8) freshMemory =
        (List.range 8).map (0xffff800000000000 + ·) ∧
      ¬ ∀ a ∈ (Call.createProcess 0xffff800000000000 true).touched (staticSide freshPlace 8)
        freshMemory, a < userSizeMax := by
  have htouched : (Call.createProcess 0xffff800000000000 true).touched (staticSide freshPlace 8)
      freshMemory = (List.range 8).map (0xffff800000000000 + ·) := by
    decide +kernel
  refine ⟨freshMemory_live 8, htouched, fun h => ?_⟩
  rw [htouched] at h
  exact absurd (h 0xffff800000000000 (by decide)) (by decide)

end XTOS.User

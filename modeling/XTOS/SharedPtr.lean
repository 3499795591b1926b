import XTOS.Result
import XTOS.Strings

/-!
# Shared pointers

`xtkernel/sharedptr.c`, and `xtFreeModuleInternal` and `xtFindModuleList` of
`xtkernel/linker.c`: counted references to an object, and who frees the blocks of the object
when the last one is dropped.

## Main definitions

- `XTSharedPtr`, `xtIncrementReference`, `xtDecrementReference` — the counted pointer
- `xtFreeModuleInternal` — the delete function of modules
- `Managed` — an object lives while it is referenced, and is destroyed once
- `Object.Proper` — the delete function leaves the record to the pointer

## Main results

- `managed_iff` — an object is managed exactly if its delete function is proper, or is never
  called, and the 64-bit count does not wrap
- `module_not_proper` — the delete function of modules is not

## Design notes

A function stands as the list of what it does to heap blocks. What the delete function does is
fixed when the last reference is dropped, so it is part of the object. The memory of a string
that was freed shows arbitrary bytes.
-/

namespace XTOS.SharedPtr

/-! ### The pointer -/

/-- A call of a delete function, a read of a heap block, a block that is freed, pages that are
    freed, and a call of the entry point with `XT_LIBRARY_DETACH`. -/
inductive Event where
  | delete (data : ℕ)
  | read (block : ℕ)
  | free (block : ℕ)
  | freePages (base : ℕ)
  | detach
  deriving DecidableEq

/-- `XTSharedPtr`; the delete function stands as what it does to the object. -/
structure XTSharedPtr where
  data : ℕ
  deleteFunc : Option (List Event)
  count : BitVec 64

/-- `xtCreateSharedPtr`. -/
def xtCreateSharedPtr (data : ℕ) (deleteFunc : Option (List Event)) : XTSharedPtr :=
  ⟨data, deleteFunc, 1⟩

/-- `xtIncrementReference`. -/
def xtIncrementReference (ptr : XTSharedPtr) : XTSharedPtr :=
  { ptr with count := ptr.count + 1 }

/-- What `xtDecrementReference` does when the count reaches zero. -/
def destroy (ptr : XTSharedPtr) : List Event :=
  (match ptr.deleteFunc with
    | some events => .delete ptr.data :: events
    | none => []) ++ [.free ptr.data]

/-- `xtDecrementReference`. -/
def xtDecrementReference (ptr : XTSharedPtr) : XTSharedPtr × List Event :=
  let ptr := { ptr with count := ptr.count - 1 }
  (ptr, if ptr.count = 0 then destroy ptr else [])

/-- The two calls on a pointer. -/
inductive Call where
  | increment
  | decrement
  deriving DecidableEq, Repr

/-- A sequence of calls. -/
def run (ptr : XTSharedPtr) : List Call → XTSharedPtr × List Event
  | [] => (ptr, [])
  | .increment :: calls => run (xtIncrementReference ptr) calls
  | .decrement :: calls =>
    let (ptr, events) := xtDecrementReference ptr
    let (ptr, events') := run ptr calls
    (ptr, events ++ events')

/-- The references after a sequence of calls, from `n` on. -/
def held (n : ℕ) : List Call → ℕ
  | [] => n
  | .increment :: calls => held (n + 1) calls
  | .decrement :: calls => held (n - 1) calls

/-- Calls are made with a reference in hand. -/
def Allowed (n : ℕ) : List Call → Prop
  | [] => True
  | .increment :: calls => 0 < n ∧ Allowed (n + 1) calls
  | .decrement :: calls => 0 < n ∧ Allowed (n - 1) calls

/-- No drop leaves a positive multiple of `2 ^ 64` references. -/
def NoWrap (n : ℕ) : List Call → Prop
  | [] => True
  | .increment :: calls => NoWrap (n + 1) calls
  | .decrement :: calls => (n - 1 = 0 ∨ (n - 1) % 2 ^ 64 ≠ 0) ∧ NoWrap (n - 1) calls

/-! ### Objects -/

/-- An object: its record, its other heap blocks, and its delete function. -/
structure Object where
  record : ℕ
  parts : List ℕ
  deleteFunc : Option (List Event)
  nodup : (record :: parts).Nodup

/-- A read of a block that was freed. -/
def readsFreed : Event → Event → Bool
  | .free b, .read b' => b = b'
  | _, _ => false

/-- No block is read after it is freed. -/
def NoReadAfterFree (events : List Event) : Prop :=
  events.Pairwise fun e e' => readsFreed e e' = false

instance (events : List Event) : Decidable (NoReadAfterFree events) :=
  inferInstanceAs (Decidable (List.Pairwise _ _))

/-- The object is as it was. -/
def Alive (o : Object) (events : List Event) : Prop :=
  .delete o.record ∉ events ∧ ∀ b ∈ o.record :: o.parts, .free b ∉ events

/-- The object is destroyed: its delete function ran once, each of its blocks was freed once, and
    nothing was read after it was freed. -/
def Destroyed (o : Object) (events : List Event) : Prop :=
  events.count (.delete o.record) = (if o.deleteFunc.isSome then 1 else 0) ∧
    (∀ b ∈ o.record :: o.parts, events.count (.free b) = 1) ∧ NoReadAfterFree events

/-- At each point of a sequence of calls the object is alive if a reference is held, and is
    destroyed if none is. -/
def Managed (o : Object) (calls : List Call) : Prop :=
  ∀ calls', calls' <+: calls →
    let events := (run (xtCreateSharedPtr o.record o.deleteFunc) calls').2
    (0 < held 1 calls' → Alive o events) ∧ (held 1 calls' = 0 → Destroyed o events)

/-- The delete function frees each block of the object but the record, once, and reads no block
    that it freed. -/
def Object.Proper (o : Object) : Prop :=
  let events := o.deleteFunc.getD []
  .delete o.record ∉ events ∧ .free o.record ∉ events ∧
    (∀ b ∈ o.parts, events.count (.free b) = 1) ∧ NoReadAfterFree events

/-! ### Modules -/

/-- `XTModule`: the block of the record, the block of the file name, the image, whether it is a
    DLL, and what its entry point answers to `XT_LIBRARY_DETACH`. -/
structure XTModule where
  record : ℕ
  filename : ℕ
  physicalImage : ℕ
  isDll : Bool
  detach : XTResult
  record_ne : record ≠ 0
  filename_ne : filename ≠ 0
  apart : record ≠ filename

/-- `xtFindModuleList` for the name in a block: what it reads, and the entry. Memory shows
    `bytes` in a block. -/
def xtFindModuleList (bytes : ℕ → List UInt8) (filename : ℕ) :
    List XTModule → List Event × Option XTModule
  | [] => ([], none)
  | mod :: modules =>
    let reads := [.read mod.record, .read mod.filename, .read filename]
    if xtStringCmp (bytes mod.filename) (bytes filename) 4096 then (reads, some mod)
    else
      let (events, found) := xtFindModuleList bytes filename modules
      (reads ++ events, found)

/-- `xtFreeModuleInternal`. `xtRemoveModule` gets the name after its block was freed. -/
def xtFreeModuleInternal (bytes : ℕ → List UInt8) (modules : List XTModule) (mod : XTModule) :
    List Event × XTResult :=
  let start := .read mod.record :: (if mod.isDll then [.detach] else [])
  if mod.isDll ∧ mod.detach.isError then (start, mod.detach)
  else
    let pages := if mod.physicalImage ≠ 0 then [.freePages mod.physicalImage] else []
    let name := if mod.filename ≠ 0 then [.free mod.filename] else []
    let search := (xtFindModuleList bytes mod.filename modules).1
    (start ++ pages ++ name ++ .read mod.record :: search ++ [.free mod.record], .success)

/-- A module under a shared pointer. -/
def moduleObject (bytes : ℕ → List UInt8) (modules : List XTModule) (mod : XTModule) : Object where
  record := mod.record
  parts := [mod.filename]
  deleteFunc := some (xtFreeModuleInternal bytes modules mod).1
  nodup := by simp [mod.apart]

/-! ### Sequences of calls -/

variable {ptr : XTSharedPtr} {n : ℕ} {calls : List Call}

theorem xtIncrementReference_count (hcount : ptr.count = BitVec.ofNat 64 n) :
    (xtIncrementReference ptr).count = BitVec.ofNat 64 (n + 1) := by
  rw [xtIncrementReference, hcount, BitVec.ofNat_add]
  rfl

theorem xtDecrementReference_count (hcount : ptr.count = BitVec.ofNat 64 n) (hpos : 0 < n) :
    (xtDecrementReference ptr).1.count = BitVec.ofNat 64 (n - 1) := by
  obtain ⟨n, rfl⟩ := Nat.exists_eq_add_one.mpr hpos
  rw [xtDecrementReference, hcount, BitVec.ofNat_add]
  exact BitVec.add_sub_cancel _ _

theorem ofNat_eq_zero : BitVec.ofNat 64 n = 0 ↔ n % 2 ^ 64 = 0 := by
  rw [← BitVec.toNat_inj, BitVec.toNat_ofNat]
  rfl

theorem xtDecrementReference_events (ptr : XTSharedPtr) : (xtDecrementReference ptr).2 =
    if (xtDecrementReference ptr).1.count = 0 then destroy ptr else [] := rfl

theorem run_decrement (ptr : XTSharedPtr) (calls : List Call) :
    (run ptr (.decrement :: calls)).2 =
      (xtDecrementReference ptr).2 ++ (run (xtDecrementReference ptr).1 calls).2 := rfl

/-- Nothing is called without a reference. -/
theorem Allowed.nil_of_zero (h : Allowed 0 calls) : calls = [] := by
  cases calls with
  | nil => rfl
  | cons c calls =>
    cases c with
    | increment => exact absurd h.1 (Nat.lt_irrefl 0)
    | decrement => exact absurd h.1 (Nat.lt_irrefl 0)

/-- What a sequence of calls does to the object, if the count does not wrap. -/
theorem run_events (hcount : ptr.count = BitVec.ofNat 64 n) (hpos : 0 < n) (h : Allowed n calls)
    (hwrap : NoWrap n calls) : (run ptr calls).2 = if held n calls = 0 then destroy ptr else [] := by
  induction calls generalizing ptr n with
  | nil => rw [held, if_neg hpos.ne', run]
  | cons c calls ih =>
    cases c with
    | increment => exact ih (xtIncrementReference_count hcount) (Nat.succ_pos n) h.2 hwrap
    | decrement =>
      obtain ⟨hzero, hwrap⟩ := hwrap
      have hnext := xtDecrementReference_count hcount hpos
      rw [run_decrement, xtDecrementReference_events, hnext, held]
      obtain hlast | hmore := Nat.eq_zero_or_pos (n - 1)
      · -- the last reference: nothing is called afterwards
        have hrest := h.2
        rw [hlast] at hrest ⊢
        rw [hrest.nil_of_zero, held, if_pos rfl, if_pos (show BitVec.ofNat 64 0 = 0 from rfl), run]
        exact List.append_nil _
      · rw [if_neg (ofNat_eq_zero.not.mpr (hzero.resolve_left hmore.ne')), List.nil_append]
        exact ih hnext hmore h.2 hwrap

/-- If the count wraps, the record is freed while references are held. -/
theorem exists_freed_of_wrap (hcount : ptr.count = BitVec.ofNat 64 n) (hpos : 0 < n)
    (h : Allowed n calls) (hwrap : ¬ NoWrap n calls) :
    ∃ calls', calls' <+: calls ∧ 0 < held n calls' ∧ .free ptr.data ∈ (run ptr calls').2 := by
  induction calls generalizing ptr n with
  | nil => exact absurd trivial hwrap
  | cons c calls ih =>
    cases c with
    | increment =>
      obtain ⟨calls', hpre, hheld, hfree⟩ :=
        ih (xtIncrementReference_count hcount) (Nat.succ_pos n) h.2 hwrap
      exact ⟨.increment :: calls', List.cons_prefix_cons.mpr ⟨rfl, hpre⟩, hheld, hfree⟩
    | decrement =>
      have hnext := xtDecrementReference_count hcount hpos
      rw [NoWrap, not_and_or, not_or, not_not] at hwrap
      obtain ⟨hmore, hzero⟩ | hwrap := hwrap
      · refine ⟨[.decrement], List.cons_prefix_cons.mpr ⟨rfl, List.nil_prefix⟩,
          Nat.pos_of_ne_zero hmore, ?_⟩
        rw [run_decrement, xtDecrementReference_events, hnext, if_pos (ofNat_eq_zero.mpr hzero), destroy]
        simp
      · have hmore : 0 < n - 1 := by
          by_contra hno
          have hrest := h.2
          rw [Nat.eq_zero_of_not_pos hno] at hrest hwrap
          rw [hrest.nil_of_zero] at hwrap
          exact hwrap trivial
        obtain ⟨calls', hpre, hheld, hfree⟩ := ih hnext hmore h.2 hwrap
        refine ⟨.decrement :: calls', List.cons_prefix_cons.mpr ⟨rfl, hpre⟩, hheld, ?_⟩
        rw [run_decrement]
        exact List.mem_append_right _ hfree

theorem Allowed.left {rest : List Call} (h : Allowed n (calls ++ rest)) : Allowed n calls := by
  induction calls generalizing n with
  | nil => trivial
  | cons c calls ih =>
    cases c with
    | increment => exact ⟨h.1, ih h.2⟩
    | decrement => exact ⟨h.1, ih h.2⟩

theorem NoWrap.left {rest : List Call} (h : NoWrap n (calls ++ rest)) : NoWrap n calls := by
  induction calls generalizing n with
  | nil => trivial
  | cons c calls ih =>
    cases c with
    | increment => exact ih h
    | decrement => exact ⟨h.1, ih h.2⟩

/-- A sequence that drops the last reference ends there. -/
theorem held_append {rest : List Call} (hpos : 0 < n) (h : Allowed n (calls ++ rest))
    (hzero : held n calls = 0) : rest = [] := by
  induction calls generalizing n with
  | nil => exact absurd hzero hpos.ne'
  | cons c calls ih =>
    cases c with
    | increment => exact ih (Nat.succ_pos n) h.2 hzero
    | decrement =>
      obtain hlast | hmore := Nat.eq_zero_or_pos (n - 1)
      · have hrest := h.2
        rw [hlast] at hrest
        exact (List.append_eq_nil_iff.mp hrest.nil_of_zero).2
      · exact ih hmore h.2 hzero

/-! ### Destruction -/

theorem noReadAfterFree_snoc (events : List Event) (b : ℕ) :
    NoReadAfterFree (events ++ [.free b]) ↔ NoReadAfterFree events := by
  rw [NoReadAfterFree, List.pairwise_append]
  refine ⟨And.left, fun h => ⟨h, List.pairwise_singleton _ _, fun e _ e' he' => ?_⟩⟩
  rw [List.mem_singleton.mp he']
  cases e <;> rfl

theorem noReadAfterFree_delete (data : ℕ) (events : List Event) :
    NoReadAfterFree (.delete data :: events) ↔ NoReadAfterFree events := by
  rw [NoReadAfterFree, List.pairwise_cons]
  exact ⟨And.right, fun h => ⟨fun _ _ => rfl, h⟩⟩

/-- An object is destroyed exactly if its delete function is proper. -/
theorem destroyed_iff (o : Object) :
    Destroyed o (destroy (xtCreateSharedPtr o.record o.deleteFunc)) ↔ o.Proper := by
  have hparts : ∀ b ∈ o.parts, b ≠ o.record := by
    rintro b hb rfl
    exact (List.nodup_cons.mp o.nodup).1 hb
  rw [Destroyed, Object.Proper, destroy, xtCreateSharedPtr, List.forall_mem_cons]
  dsimp only
  cases o.deleteFunc with
  | none =>
    rw [List.nil_append]
    have hother : ∀ b ∈ o.parts, List.count (.free b) [Event.free o.record] = 0 := fun b hb =>
      List.count_eq_zero.mpr (by simp [hparts b hb])
    simp only [Option.isSome_none, Bool.false_eq_true, if_false, Option.getD_none]
    constructor
    · rintro ⟨-, ⟨-, hall⟩, -⟩
      refine ⟨List.not_mem_nil, List.not_mem_nil, fun b hb => ?_, List.Pairwise.nil⟩
      exact absurd ((hother b hb).symm.trans (hall b hb)) (by decide)
    · rintro ⟨-, -, hall, -⟩
      refine ⟨by simp, ⟨by simp, fun b hb => ?_⟩, List.pairwise_singleton _ _⟩
      exact absurd (hall b hb) (by simp)
  | some events =>
    have hother : ∀ b ∈ o.parts, List.count (.free b)
        ((Event.delete o.record :: events) ++ [.free o.record]) = List.count (.free b) events := by
      intro b hb
      have hrecord : List.count (.free b) [Event.free o.record] = 0 :=
        List.count_eq_zero.mpr (by simp [hparts b hb])
      rw [List.count_append, List.count_cons_of_ne (by simp), hrecord, Nat.add_zero]
    -- the call and the last free are events of their own
    have hdelete : List.count (.delete o.record)
        ((Event.delete o.record :: events) ++ [.free o.record]) =
          List.count (.delete o.record) events + 1 := by simp
    have hrecord : List.count (.free o.record)
        ((Event.delete o.record :: events) ++ [.free o.record]) =
          List.count (.free o.record) events + 1 := by simp
    rw [hdelete, hrecord, noReadAfterFree_snoc, noReadAfterFree_delete]
    simp only [Option.isSome_some, if_true, Option.getD_some, Nat.add_eq_right, List.count_eq_zero,
      and_assoc]
    refine and_congr_right fun _ => and_congr_right fun _ => and_congr_left fun _ => ?_
    exact forall₂_congr fun b hb => by rw [hother b hb]

/-- An object is managed exactly if the count does not wrap and, when all references are dropped,
    its delete function is proper. -/
theorem managed_iff_proper (o : Object) (h : Allowed 1 calls) :
    Managed o calls ↔ NoWrap 1 calls ∧ (held 1 calls = 0 → o.Proper) := by
  have hcount : (xtCreateSharedPtr o.record o.deleteFunc).count = BitVec.ofNat 64 1 := rfl
  constructor
  · intro hmanaged
    have hwrap : NoWrap 1 calls := by
      by_contra hwrap
      obtain ⟨calls', hpre, hheld, hfree⟩ := exists_freed_of_wrap hcount Nat.one_pos h hwrap
      exact ((hmanaged calls' hpre).1 hheld).2 o.record List.mem_cons_self hfree
    refine ⟨hwrap, fun hzero => ?_⟩
    have hdestroyed := (hmanaged calls (List.prefix_refl _)).2 hzero
    rw [run_events hcount Nat.one_pos h hwrap, if_pos hzero] at hdestroyed
    exact (destroyed_iff o).mp hdestroyed
  · rintro ⟨hwrap, hproper⟩ calls' ⟨rest, rfl⟩
    dsimp only
    rw [run_events hcount Nat.one_pos h.left hwrap.left]
    constructor
    · intro hpos
      rw [if_neg hpos.ne']
      exact ⟨List.not_mem_nil, fun _ _ => List.not_mem_nil⟩
    · intro hzero
      have hrest := held_append Nat.one_pos h hzero
      rw [hrest, List.append_nil] at hproper
      rw [if_pos hzero]
      exact (destroyed_iff o).mpr (hproper hzero)

/-- The delete function of modules frees the record, or leaves the name. -/
theorem module_not_proper (bytes : ℕ → List UInt8) (modules : List XTModule) (mod : XTModule) :
    ¬ (moduleObject bytes modules mod).Proper := by
  rintro ⟨-, hrecord, hparts, -⟩
  have hname := hparts mod.filename List.mem_cons_self
  simp only [moduleObject, Option.getD_some] at hrecord hname
  rw [xtFreeModuleInternal] at hrecord hname
  dsimp only at hrecord hname
  split_ifs at hrecord hname
  all_goals first
    | exact hrecord (List.mem_append_right _ (List.mem_singleton_self _))
    | exact absurd hname (by simp)

/-- **Shared pointers**: for every object and every sequence of calls that are made with a
    reference in hand, the object lives while it is referenced and is destroyed once, exactly
    if the count does not wrap and, when all references are dropped, the delete function frees
    all other blocks and leaves the record to the pointer. For a module that is so exactly as
    long as a reference is held. -/
theorem managed_iff (h : Allowed 1 calls) :
    (∀ o, Managed o calls ↔ NoWrap 1 calls ∧ (held 1 calls = 0 → o.Proper)) ∧
      ∀ bytes modules mod, Managed (moduleObject bytes modules mod) calls ↔
        NoWrap 1 calls ∧ held 1 calls ≠ 0 := by
  refine ⟨fun o => managed_iff_proper o h, fun bytes modules mod => ?_⟩
  rw [managed_iff_proper _ h]
  refine and_congr_right fun _ => ⟨fun hproper hzero => ?_, fun hne hzero => absurd hzero hne⟩
  exact module_not_proper bytes modules mod (hproper hzero)

/-- A file entry: one block, and no delete function. -/
def fileObject : Object := ⟨0x1000, [], none, List.nodup_singleton _⟩

/-- Two references to it are taken and dropped. -/
theorem managed_fileObject : Managed fileObject [.increment, .decrement, .decrement] := by
  have hallowed : Allowed 1 [.increment, .decrement, .decrement] :=
    ⟨by decide, by decide, by decide, trivial⟩
  have hproper : fileObject.Proper := ⟨List.not_mem_nil, List.not_mem_nil,
    fun _ hb => absurd hb List.not_mem_nil, List.Pairwise.nil⟩
  exact ((managed_iff hallowed).1 fileObject).mpr
    ⟨⟨.inr (by decide), .inl rfl, trivial⟩, fun _ => hproper⟩

/-- A module that is no DLL, the only one in the list. -/
def smallModule : XTModule :=
  ⟨0x1000, 0x2000, 0x300000, false, .success, by decide, by decide, by decide⟩

/-- Its last reference is dropped: the record is freed twice, and the name is read after it was
    freed. -/
theorem module_freed_twice :
    let o := moduleObject (fun _ => []) [smallModule] smallModule
    let events := (run (xtCreateSharedPtr o.record o.deleteFunc) [.decrement]).2
    Allowed 1 [.decrement] ∧ events.count (.free o.record) = 2 ∧ ¬ NoReadAfterFree events ∧
      ¬ Managed o [.decrement] := by
  refine ⟨⟨by decide, trivial⟩, by decide, by decide, fun hmanaged => ?_⟩
  have hdestroyed := (hmanaged _ (List.prefix_refl _)).2 rfl
  exact absurd (hdestroyed.2.1 _ List.mem_cons_self) (by decide)

end XTOS.SharedPtr

import XTOS.User.Handles

/-!
# Rights across processes

The handle tables of all processes on one heap, with the calls of `xtkernel/user.c` that
install descriptors in them. A call works in the table of the process that makes it, and
`xtUserDuplicateHandle` also in the table of any process it has a handle of.

## Main definitions

- `System` — the heap, the processes, and the descriptors that the kernel installed itself
- `xtUserDuplicateHandle`, `xtUserCreatePipe`, `xtUserCreateProcess`,
  `xtUserExecuteProgram` — the calls of a process
- `Sound` — the tables of different processes share nothing, and every descriptor is a copy

## Main results

- `run_table` — in its own table a call does what it does to one table alone
- `rights_never_grow` — what is in a table was installed by the kernel

## Design notes

A call gives nothing where it would use memory that is no process as one.
-/

namespace XTOS.Rights

open SysLib Handle UserHandles

/-- The heap objects, the processes by address with their root pointers, and the descriptors
    that the kernel installed itself, the last one first. -/
structure System where
  heap : Heap
  processes : ℕ → Option ℕ
  installed : List XTDescriptor

/-- One process with the heap. -/
def System.table (S : System) (process : ℕ) : Option State :=
  (S.processes process).map fun root => ⟨S.heap, root⟩

/-- What `xtGetHandle` shows in a process. -/
def System.lookup (S : System) (process : ℕ) (handle : BitVec 64) :
    Option (XTResult × ℕ × Option XTDescriptor) :=
  (S.table process).map fun s => Handle.lookup s handle

/-- A process after a call that worked on it. -/
def System.put (S : System) (process : ℕ) (s : State) : System :=
  { S with heap := s.heap, processes := Function.update S.processes process (some s.descriptorRoot) }

/-- A process that `xtCreateProcess` made. -/
def System.addProcess (S : System) (process : ℕ) : System :=
  { S with processes := Function.update S.processes process (some 0) }

/-- `xtDuplicateHandle` in a process. -/
def System.set (S : System) (heapAlloc : HeapAlloc) (process : ℕ) (handle : BitVec 64)
    (d : XTDescriptor) : Option (System × XTResult) :=
  (S.table process).map fun s =>
    let (s', r) := xtDuplicateHandle heapAlloc s handle d.access d.type d.desc
    (S.put process s', r)

/-- `xtDuplicateHandle` with a descriptor of the kernel's own, which is recorded. -/
def System.install (S : System) (heapAlloc : HeapAlloc) (process : ℕ) (handle : BitVec 64)
    (d : XTDescriptor) : Option (System × XTResult) :=
  (S.set heapAlloc process handle d).map fun (S', r) =>
    (if r = .success then { S' with installed := d :: S'.installed } else S', r)

/-- `xtUserDuplicateHandle`. -/
def xtUserDuplicateHandle (k : Kernel) (S : System) (current : ℕ)
    (handle processHandle toSetHandle : BitVec 64) : Option (System × XTResult) :=
  match S.table current with
  | none => none
  | some s =>
    match (processOf k s processHandle).2 with
    | .error result => result.map fun r => (S, r)
    | .ok anotherProcess =>
      let (result, desc) := fetch s handle
      if result.isError then some (S, result)
      else
        match descriptorAt k s desc with
        | none => none
        | some d => S.set k.alloc (anotherProcess.getD current) toSetHandle d

/-- `xtUserCreatePipe`. -/
def xtUserCreatePipe (k : Kernel) (S : System) (current : ℕ) : Option (System × XTResult) :=
  match S.table current with
  | none => none
  | some s =>
    if k.done.isError then some (S, k.done)
    else
      match S.install k.alloc current ((xtFindFreeHandle s).getD 0)
        { access := modeWrite, type := typeFile, desc := k.object } with
      | none => none
      | some (S, r) =>
        if r.isError then some (S, r)
        else
          match S.table current with
          | none => none
          | some s => S.install k.alloc' current ((xtFindFreeHandle s).getD 0)
              { access := modeRead, type := typeFile, desc := k.object' }

/-- `xtUserCreateProcess`; the new process has no handles. -/
def xtUserCreateProcess (k : Kernel) (S : System) (current : ℕ)
    (parentProcessHandle : BitVec 64) : Option (System × XTResult) :=
  match S.table current with
  | none => none
  | some s =>
    match (processOf k s parentProcessHandle).2 with
    | .error result => result.map fun r => (S, r)
    | .ok _ =>
      if k.done.isError then some (S, k.done)
      else
        match xtFindFreeHandle s with
        | none => some (S.addProcess k.object, .notFound)
        | some newProcessHandleId =>
          ((S.addProcess k.object).install k.alloc current newProcessHandleId
            { access := 0, type := typeProcess, desc := k.object }).map fun (S, r) =>
              (S, if r.isError then r else if k.copiedOut.isError then k.copiedOut else .success)

/-- `xtUserExecuteProgram`. -/
def xtUserExecuteProgram (k : Kernel) (S : System) (current : ℕ) (processHandle : BitVec 64) :
    Option (System × XTResult) :=
  match S.table current with
  | none => none
  | some s =>
    match (processOf k s processHandle).2 with
    | .error result => result.map fun r => (S, r)
    | .ok _ =>
      if k.done.isError then some (S, k.done)
      else
        (S.install k.alloc current ((xtFindFreeHandle s).getD 0)
          { access := 0, type := typeThread, desc := k.object }).map fun (S, r) =>
            (S, if r.isError then r else if k.copiedOut.isError then k.copiedOut else .success)

/-- What happens to handles in a process: its calls, and installs of the kernel. -/
inductive Action where
  | duplicateHandle (handle processHandle toSetHandle : BitVec 64)
  | createPipe
  | createProcess (parentProcessHandle : BitVec 64)
  | executeProgram (processHandle : BitVec 64)
  | install (handle : BitVec 64) (d : XTDescriptor)

def Action.run (k : Kernel) (S : System) (current : ℕ) : Action → Option (System × XTResult)
  | .duplicateHandle h p t => xtUserDuplicateHandle k S current h p t
  | .createPipe => xtUserCreatePipe k S current
  | .createProcess h => xtUserCreateProcess k S current h
  | .executeProgram h => xtUserExecuteProgram k S current h
  | .install h d => S.install k.alloc current h d

/-- Processes without handles. -/
structure System.Initial (S : System) : Prop where
  installed : S.installed = []
  roots : ∀ p root, S.processes p = some root → root = 0
  descriptors : ∀ a, S.heap.descriptors a = none

/-- One action in one process, with any answers of the rest of the kernel. -/
def System.Step (S S' : System) : Prop :=
  ∃ k current action r, Action.run k S current action = some (S', r)

/-! ### One table -/

@[simp] theorem table_put_self (S : System) (p : ℕ) (s : State) :
    (S.put p s).table p = some s := by
  simp [System.put, System.table]

theorem table_put_of_ne (S : System) {p q : ℕ} (h : q ≠ p) (s : State) :
    (S.put p s).table q = (S.processes q).map fun root => ⟨s.heap, root⟩ := by
  simp [System.put, System.table, h]

@[simp] theorem installed_put (S : System) (p : ℕ) (s : State) :
    (S.put p s).installed = S.installed := rfl

theorem set_eq {S : System} {p : ℕ} {s : State} (h : S.table p = some s)
    (heapAlloc : HeapAlloc) (handle : BitVec 64) (d : XTDescriptor) :
    S.set heapAlloc p handle d =
      some (S.put p (xtDuplicateHandle heapAlloc s handle d.access d.type d.desc).1,
        (xtDuplicateHandle heapAlloc s handle d.access d.type d.desc).2) := by
  rw [System.set, h]
  rfl

theorem install_eq {S : System} {p : ℕ} {s : State} (h : S.table p = some s)
    (heapAlloc : HeapAlloc) (handle : BitVec 64) (d : XTDescriptor) :
    ∃ S', S.install heapAlloc p handle d =
        some (S', (xtDuplicateHandle heapAlloc s handle d.access d.type d.desc).2) ∧
      S'.table p = some (xtDuplicateHandle heapAlloc s handle d.access d.type d.desc).1 := by
  rw [System.install, set_eq h, Option.map_some]
  refine ⟨_, rfl, ?_⟩
  split_ifs
  · exact table_put_self S p _
  · exact table_put_self S p _

/-! ### Many tables -/

/-- Every process has a tree of tables that no other process holds. -/
def Separate (S : System) (holder : ℕ → Option ℕ) : Prop :=
  ∀ p s, S.table p = some s → ∃ owner, WellFormed s owner ∧
    ∀ a i, owner (.entry a i) ≠ none → holder a = some p

/-- The descriptors on the heap are copies of what the kernel installed. -/
structure Sound (S : System) : Prop where
  separate : ∃ holder, Separate S holder
  copies : ∀ a d, S.heap.descriptors a = some d → d ∈ S.installed

variable {S : System} {holder : ℕ → Option ℕ} {p : ℕ} {s : State}

theorem System.Initial.sound (h : S.Initial) : Sound S := by
  refine ⟨⟨fun _ => none, fun p s hs => ?_⟩, fun a d hd => ?_⟩
  · obtain ⟨root, hroot, rfl⟩ := Option.map_eq_some_iff.mp hs
    have hinitial : State.Initial ⟨S.heap, root⟩ := h.roots p root hroot
    exact ⟨_, hinitial.wellFormed, by simp⟩
  · rw [h.descriptors a] at hd
    cases hd

/-- The tables that a call made belong to the process it worked on. -/
def grownHolder (S : System) (holder : ℕ → Option ℕ) (p a : ℕ) : Option ℕ :=
  if S.heap.tables a = none then some p else holder a

/-- An install in one process: its tree grows, and the other processes see no change. -/
theorem Separate.put (h : Separate S holder) (hs : S.table p = some s) (heapAlloc : HeapAlloc)
    (handle : BitVec 64) (d : XTDescriptor) {s' : State} {r : XTResult}
    (hr : xtDuplicateHandle heapAlloc s handle d.access d.type d.desc = (s', r)) :
    Separate (S.put p s') (grownHolder S holder p) ∧
      ∀ q ≠ p, ∀ k, (S.put p s').lookup q k = S.lookup q k := by
  have hheap : s.heap = S.heap := by
    obtain ⟨root, -, rfl⟩ := Option.map_eq_some_iff.mp hs
    rfl
  obtain ⟨owner, hw, hholder⟩ := h p s hs
  obtain ⟨owner', hw', hframe⟩ := hw.duplicated_frame heapAlloc handle d.access d.type d.desc
  have hd := hw.duplicated heapAlloc handle d.access d.type d.desc
  rw [hr] at hw' hframe hd
  have hdesc : ∀ a, a = 0 ∨ s.heap.descriptors a ≠ none →
      s'.heap.descriptors a = s.heap.descriptors a := by
    intro a ha
    cases hd with
    | failed _ _ hsame => rw [hsame.descriptors]
    | @installed _ b _ _ hb hfree hdesc _ =>
      have hab : a ≠ b := by
        rintro rfl
        obtain ha | ha := ha
        · exact hb ha
        · exact ha hfree
      rw [hdesc, Function.update_of_ne hab]
  -- the other processes hold tables that are not in the tree and are in use
  have hother : ∀ q ≠ p, ∀ t, S.table q = some t → ∃ owner,
      WellFormed ⟨s'.heap, t.descriptorRoot⟩ owner ∧
      (∀ a i, owner (.entry a i) ≠ none → grownHolder S holder p a = some q) ∧
      ∀ k, Handle.lookup ⟨s'.heap, t.descriptorRoot⟩ k = Handle.lookup t k := by
    intro q hq t ht
    have hheap' : t.heap = S.heap := by
      obtain ⟨root, -, rfl⟩ := Option.map_eq_some_iff.mp ht
      rfl
    obtain ⟨ownerq, hwq, hholderq⟩ := h q t ht
    have hkeep : ∀ a i, ownerq (.entry a i) ≠ none → s'.heap.tables a = s.heap.tables a := by
      intro a i hne
      refine hframe.tables a ?_ fun j => ?_
      · rw [hheap, ← hheap']
        exact hwq.stored a i hne
      · by_contra hj
        have hp := hholder a j hj
        rw [hholderq a i hne] at hp
        exact hq (Option.some.inj hp)
    obtain ⟨hw'', hlookup⟩ := hwq.congr
      (show State.descriptorRoot ⟨s'.heap, t.descriptorRoot⟩ = t.descriptorRoot from rfl)
      (fun a i hne => by rw [hkeep a i hne, hheap, hheap'])
      (fun a ha => by
        rw [hheap', ← hheap] at ha ⊢
        exact hdesc a ha)
    refine ⟨ownerq, hw'', fun a i hne => ?_, hlookup⟩
    have hstored := hwq.stored a i hne
    rw [hheap'] at hstored
    rw [grownHolder, if_neg hstored, hholderq a i hne]
  refine ⟨fun q t ht => ?_, fun q hq k => ?_⟩
  · by_cases hq : q = p
    · subst q
      rw [table_put_self] at ht
      obtain rfl := Option.some.inj ht
      refine ⟨owner', hw', fun a i hne => ?_⟩
      rw [grownHolder]
      split_ifs with hfree
      · rfl
      · obtain ⟨j, hj⟩ | hfree' := hframe.joins a i hne
        · exact hholder a j hj
        · exact absurd (by rw [← hheap, hfree']) hfree
    · rw [table_put_of_ne S hq] at ht
      obtain ⟨root, hroot, rfl⟩ := Option.map_eq_some_iff.mp ht
      obtain ⟨ownerq, hwq, hholderq, -⟩ := hother q hq ⟨S.heap, root⟩ (by simp [System.table, hroot])
      exact ⟨ownerq, hwq, hholderq⟩
  · rw [System.lookup, table_put_of_ne S hq, System.lookup, System.table]
    cases hroot : S.processes q with
    | none => rfl
    | some root =>
      obtain ⟨-, -, -, hlookup⟩ := hother q hq ⟨S.heap, root⟩ (by simp [System.table, hroot])
      simp [hlookup k]

/-- What an install in a process leaves: the same lookups everywhere, or a new descriptor. -/
inductive Given (S : System) (p : ℕ) (handle : BitVec 64) (d : XTDescriptor) :
    System × XTResult → Prop
  | failed {S' : System} {r : XTResult} (hr : r.isError = true)
      (hsep : ∃ holder, Separate S' holder) (hinst : S'.installed = S.installed)
      (hdesc : S'.heap.descriptors = S.heap.descriptors)
      (hlookup : ∀ q k, S'.lookup q k = S.lookup q k) : Given S p handle d (S', r)
  | given {S' : System} {a : ℕ} (hsep : ∃ holder, Separate S' holder)
      (hinst : S'.installed = S.installed)
      (hdesc : S'.heap.descriptors = Function.update S.heap.descriptors a (some d))
      (hlookup : S'.lookup p handle = some (.success, a, some d)) :
      Given S p handle d (S', .success)

theorem Separate.given (h : Separate S holder) {heapAlloc : HeapAlloc} {handle : BitVec 64}
    {d : XTDescriptor} {out : System × XTResult} (hset : S.set heapAlloc p handle d = some out) :
    Given S p handle d out := by
  rw [System.set] at hset
  obtain ⟨s, hs, rfl⟩ := Option.map_eq_some_iff.mp hset
  obtain ⟨owner, hw, -⟩ := h p s hs
  have hheap : s.heap = S.heap := by
    obtain ⟨root, -, rfl⟩ := Option.map_eq_some_iff.mp hs
    rfl
  generalize hr : xtDuplicateHandle heapAlloc s handle d.access d.type d.desc = out
  obtain ⟨s', r⟩ := out
  obtain ⟨hsep, hother⟩ := h.put hs heapAlloc handle d hr
  have hself : ∀ k, (S.put p s').lookup p k = some (Handle.lookup s' k) := fun k => by
    rw [System.lookup, table_put_self, Option.map_some]
  obtain ⟨herror, -, hsame⟩ | ⟨rfl, hi⟩ := hw.install hr
  · refine .failed herror ⟨_, hsep⟩ rfl ?_ fun q k => ?_
    · rw [← hheap, ← hsame.descriptors]
      rfl
    · by_cases hq : q = p
      · subst q
        rw [hself, hsame.lookup, System.lookup, hs, Option.map_some]
      · exact hother q hq k
  · have hd := hw.duplicated heapAlloc handle d.access d.type d.desc
    rw [hr] at hd
    cases hd with
    | failed hr _ _ => cases hr
    | @installed _ a _ _ ha hfree hdesc hfind =>
      refine .given ⟨_, hsep⟩ rfl (hdesc.trans (by rw [hheap])) ?_
      rw [hself, lookup_eq (inUse_iff.mp hi.inUse).1, hfind _ (length_path handle), if_pos rfl,
        if_pos ha, hdesc, Function.update_self]

theorem Given.separate {handle : BitVec 64} {d : XTDescriptor} {S' : System} {r : XTResult}
    (h : Given S p handle d (S', r)) : ∃ holder, Separate S' holder := by
  cases h with
  | failed _ hsep => exact hsep
  | given hsep => exact hsep

theorem Given.installed {handle : BitVec 64} {d : XTDescriptor} {S' : System} {r : XTResult}
    (h : Given S p handle d (S', r)) : S'.installed = S.installed := by
  cases h with
  | failed _ _ hinst => exact hinst
  | given _ hinst => exact hinst

/-- The only descriptor that can be new is the one that was given. -/
theorem Given.copies {handle : BitVec 64} {d : XTDescriptor} {S' : System} {r : XTResult}
    (hg : Given S p handle d (S', r)) (h : Sound S) {a : ℕ} {d' : XTDescriptor}
    (ha : S'.heap.descriptors a = some d') : d' ∈ S.installed ∨ d' = d ∧ r = .success := by
  cases hg with
  | failed _ _ _ hdesc _ =>
    rw [hdesc] at ha
    exact .inl (h.copies a d' ha)
  | @given _ b _ _ hdesc _ =>
    rw [hdesc] at ha
    by_cases hab : a = b
    · subst a
      rw [Function.update_self, Option.some.injEq] at ha
      exact .inr ⟨ha.symm, rfl⟩
    · rw [Function.update_of_ne hab] at ha
      exact .inl (h.copies a d' ha)

/-- A copy of a descriptor that the kernel installed. -/
theorem Sound.set (h : Sound S) {heapAlloc : HeapAlloc} {handle : BitVec 64} {d : XTDescriptor}
    {S' : System} {r : XTResult} (hd : d ∈ S.installed)
    (hset : S.set heapAlloc p handle d = some (S', r)) : Sound S' := by
  obtain ⟨holder, hsep⟩ := h.separate
  have hg := hsep.given hset
  refine ⟨hg.separate, fun a d' ha => ?_⟩
  rw [hg.installed]
  obtain hmem | ⟨rfl, -⟩ := hg.copies h ha
  · exact hmem
  · exact hd

/-- A descriptor of the kernel's own. -/
theorem Sound.install (h : Sound S) {heapAlloc : HeapAlloc} {handle : BitVec 64}
    {d : XTDescriptor} {S' : System} {r : XTResult}
    (hinstall : S.install heapAlloc p handle d = some (S', r)) : Sound S' := by
  obtain ⟨⟨S1, r1⟩, hset, heq⟩ := Option.map_eq_some_iff.mp hinstall
  obtain ⟨rfl, rfl⟩ := Prod.mk.inj heq
  obtain ⟨holder, hsep⟩ := h.separate
  have hg := hsep.given hset
  split_ifs with hr
  · refine ⟨hg.separate, fun a d' ha => ?_⟩
    rw [hg.installed, List.mem_cons]
    obtain hmem | ⟨rfl, -⟩ := hg.copies h ha
    · exact .inr hmem
    · exact .inl rfl
  · refine ⟨hg.separate, fun a d' ha => ?_⟩
    rw [hg.installed]
    obtain hmem | ⟨-, hr'⟩ := hg.copies h ha
    · exact hmem
    · exact absurd hr' hr

theorem Sound.addProcess (h : Sound S) (process : ℕ) : Sound (S.addProcess process) := by
  obtain ⟨holder, hsep⟩ := h.separate
  refine ⟨⟨holder, fun q t ht => ?_⟩, h.copies⟩
  by_cases hq : q = process
  · subst q
    simp only [System.table, System.addProcess, Function.update_self, Option.map_some] at ht
    obtain rfl := Option.some.inj ht
    have hinitial : State.Initial ⟨S.heap, 0⟩ := rfl
    exact ⟨_, hinitial.wellFormed, by simp⟩
  · simp only [System.table, System.addProcess, Function.update_of_ne hq] at ht
    exact hsep q t ht

/-- What `xtUserDuplicateHandle` does: it fails and leaves everything as it is, or it gives
    the descriptor that it found to some process. -/
theorem duplicate_cases (h : Sound S) {k : Kernel} {current : ℕ}
    {handle processHandle toSetHandle : BitVec 64} {S' : System} {r : XTResult}
    (hrun : xtUserDuplicateHandle k S current handle processHandle toSetHandle = some (S', r)) :
    (r.isError = true ∧ S' = S) ∨
      ∃ process a d, S.lookup current handle = some (.success, a, some d) ∧
        S.set k.alloc process toSetHandle d = some (S', r) := by
  rw [xtUserDuplicateHandle] at hrun
  cases hs : S.table current with
  | none =>
    rw [hs] at hrun
    cases hrun
  | some s =>
    obtain ⟨holder, hsep⟩ := h.separate
    obtain ⟨owner, hw, -⟩ := hsep current s hs
    have hp := processOf_spec hw k processHandle
    have hf := fetched hw handle
    simp only [hs] at hrun
    generalize processOf k s processHandle = o at hp hrun
    generalize fetch s handle = f at hf hrun
    obtain ⟨events, res⟩ := o
    cases res with
    | error result =>
      cases hp with
      | refused _ hr =>
        obtain ⟨rfl, rfl⟩ := Prod.mk.inj (Option.some.inj hrun)
        exact .inl ⟨hr, rfl⟩
    | ok process =>
      cases hf with
      | rejected =>
        obtain ⟨rfl, rfl⟩ := Prod.mk.inj (Option.some.inj hrun)
        exact .inl ⟨rfl, rfl⟩
      | missing =>
        obtain ⟨rfl, rfl⟩ := Prod.mk.inj (Option.some.inj hrun)
        exact .inl ⟨rfl, rfl⟩
      | @found a d hacc ha hd hl =>
        simp only [XTResult.isError, Bool.false_eq_true, if_false, descriptorAt_of_ne k ha,
          hd] at hrun
        exact .inr ⟨_, a, d, by rw [System.lookup, hs, Option.map_some, hl], hrun⟩

/-- A descriptor that a lookup shows is a copy of one that the kernel installed. -/
theorem Sound.lookup (h : Sound S) {handle : BitVec 64} {a : ℕ} {d : XTDescriptor}
    (hl : S.lookup p handle = some (.success, a, some d)) : d ∈ S.installed := by
  obtain ⟨s, hs, hl⟩ := Option.map_eq_some_iff.mp hl
  obtain ⟨root, -, rfl⟩ := Option.map_eq_some_iff.mp hs
  simp only [Handle.lookup, Prod.mk.injEq] at hl
  exact h.copies _ d hl.2.2

/-- **A step** leaves copies of what the kernel installed. -/
theorem Sound.run (h : Sound S) {k : Kernel} {current : ℕ} {action : Action} {S' : System}
    {r : XTResult} (hrun : action.run k S current = some (S', r)) : Sound S' := by
  cases action with
  | duplicateHandle handle p t =>
    obtain ⟨-, rfl⟩ | ⟨process, a, d, hl, hset⟩ := duplicate_cases h hrun
    · exact h
    · exact h.set (h.lookup hl) hset
  | createPipe =>
    simp only [Action.run, xtUserCreatePipe] at hrun
    split at hrun
    · cases hrun
    split_ifs at hrun
    · obtain ⟨rfl, -⟩ := Prod.mk.inj (Option.some.inj hrun)
      exact h
    split at hrun
    · cases hrun
    rename_i S1 r1 hfirst
    have h1 := h.install hfirst
    split_ifs at hrun
    · obtain ⟨rfl, -⟩ := Prod.mk.inj (Option.some.inj hrun)
      exact h1
    split at hrun
    · cases hrun
    · exact h1.install hrun
  | createProcess parent =>
    simp only [Action.run, xtUserCreateProcess] at hrun
    split at hrun
    · cases hrun
    split at hrun
    · obtain ⟨r', -, heq⟩ := Option.map_eq_some_iff.mp hrun
      obtain ⟨rfl, -⟩ := Prod.mk.inj heq
      exact h
    split at hrun
    · obtain ⟨rfl, -⟩ := Prod.mk.inj (Option.some.inj hrun)
      exact h
    have hnew := h.addProcess k.object
    split at hrun
    · obtain ⟨rfl, -⟩ := Prod.mk.inj (Option.some.inj hrun)
      exact hnew
    · obtain ⟨⟨S1, r1⟩, hinstall, heq⟩ := Option.map_eq_some_iff.mp hrun
      obtain ⟨rfl, -⟩ := Prod.mk.inj heq
      exact hnew.install hinstall
  | executeProgram handle =>
    simp only [Action.run, xtUserExecuteProgram] at hrun
    split at hrun
    · cases hrun
    split at hrun
    · obtain ⟨r', -, heq⟩ := Option.map_eq_some_iff.mp hrun
      obtain ⟨rfl, -⟩ := Prod.mk.inj heq
      exact h
    split at hrun
    · obtain ⟨rfl, -⟩ := Prod.mk.inj (Option.some.inj hrun)
      exact h
    · obtain ⟨⟨S1, r1⟩, hinstall, heq⟩ := Option.map_eq_some_iff.mp hrun
      obtain ⟨rfl, -⟩ := Prod.mk.inj heq
      exact h.install hinstall
  | install handle d => exact h.install hrun

/-! ### The table of the caller -/

/-- The call of a process. -/
def Action.call : Action → Option Call
  | .duplicateHandle h p t => some (.duplicateHandle h p t)
  | .createPipe => some .createPipe
  | .createProcess h => some (.createProcess h)
  | .executeProgram h => some (.executeProgram h)
  | .install _ _ => none

/-- A result and the table of the process that made the call. -/
def caller (current : ℕ) (out : System × XTResult) : Option State × XTResult :=
  (out.1.table current, out.2)

theorem duplicate_result {heapAlloc : HeapAlloc} {handle : BitVec 64} {access type : BitVec 32}
    {desc : ℕ} {s s' : State} {r : XTResult}
    (h : xtDuplicateHandle heapAlloc s handle access type desc = (s', r)) :
    r.isError = true ∨ r = .success := by
  rw [xtDuplicateHandle] at h
  by_cases hacc : Accepted handle
  · rw [if_neg (not_not.mpr hacc)] at h
    split at h
    · obtain ⟨-, rfl⟩ := Prod.mk.inj h
      exact .inl rfl
    split at h
    · rename_i ha
      obtain ⟨-, rfl⟩ := Prod.mk.inj h
      exact .inl (heapAlloc.error ha)
    · obtain ⟨-, rfl⟩ := Prod.mk.inj h
      exact .inr rfl
  · rw [if_pos hacc] at h
    obtain ⟨-, rfl⟩ := Prod.mk.inj h
    exact .inl rfl

theorem install_caller (hs : S.table p = some s) {heapAlloc : HeapAlloc} {handle : BitVec 64}
    {d : XTDescriptor} {s' : State} {r : XTResult}
    (hr : xtDuplicateHandle heapAlloc s handle d.access d.type d.desc = (s', r)) :
    ∃ S', S.install heapAlloc p handle d = some (S', r) ∧ S'.table p = some s' := by
  have h := install_eq hs heapAlloc handle d
  rwa [hr] at h

/-- **One table**: what a call does in the table of the process that makes it is what the
    model of one table says, if it works on no other one. -/
theorem run_table (hs : S.table p = some s) {k : Kernel} (hobject : k.object ≠ p)
    {action : Action} {c : Call} (hc : action.call = some c)
    (hown : ∀ handle process toSet q, action = .duplicateHandle handle process toSet →
      (processOf k s process).2 = .ok q → q.all (· = k.self) = true ∧ q.getD p = p) :
    (action.run k S p).map (caller p) =
      (c.run k s).result.map fun r => (some (c.run k s).state, r) := by
  cases action with
  | duplicateHandle handle process toSet =>
    obtain rfl := Option.some.inj hc
    have hprocess := hown handle process toSet
    simp only [Action.run, xtUserDuplicateHandle, hs, Call.run, UserHandles.xtUserDuplicateHandle]
    generalize processOf k s process = o at hprocess
    obtain ⟨events, res⟩ := o
    cases res with
    | error r => cases r <;> simp [caller, hs]
    | ok q =>
      obtain ⟨hall, hq⟩ := hprocess q rfl rfl
      dsimp only
      by_cases hr : (fetch s handle).1.isError = true
      · simp [hr, caller, hs]
      · simp only [hr, Bool.false_eq_true, if_false]
        cases hd : descriptorAt k s (fetch s handle).2 with
        | none => rfl
        | some d =>
          simp only [hall, if_true, hq, set_eq hs]
          simp [caller]
  | createPipe =>
    obtain rfl := Option.some.inj hc
    simp only [Action.run, xtUserCreatePipe, hs, Call.run, UserHandles.xtUserCreatePipe]
    by_cases hdone : k.done.isError = true
    · simp [hdone, caller, hs]
    simp only [hdone, Bool.false_eq_true, if_false]
    generalize hfirst : xtDuplicateHandle k.alloc s ((xtFindFreeHandle s).getD 0) modeWrite
      typeFile k.object = o
    obtain ⟨s1, r1⟩ := o
    obtain ⟨S1, hinstall, htable⟩ := install_caller hs
      (d := { access := modeWrite, type := typeFile, desc := k.object }) hfirst
    simp only [hinstall]
    by_cases hr1 : r1.isError = true
    · simp [hr1, caller, htable]
    simp only [hr1, Bool.false_eq_true, if_false, htable]
    generalize hsecond : xtDuplicateHandle k.alloc' s1 ((xtFindFreeHandle s1).getD 0) modeRead
      typeFile k.object' = o
    obtain ⟨s2, r2⟩ := o
    obtain ⟨S2, hinstall', htable'⟩ := install_caller htable
      (d := { access := modeRead, type := typeFile, desc := k.object' }) hsecond
    rw [hinstall']
    obtain hr2 | rfl := duplicate_result hsecond
    · simp [hr2, caller, htable']
    · simp [XTResult.isError, caller, htable']
  | createProcess parent =>
    obtain rfl := Option.some.inj hc
    simp only [Action.run, xtUserCreateProcess, hs, Call.run, UserHandles.xtUserCreateProcess]
    generalize processOf k s parent = o
    obtain ⟨events, res⟩ := o
    cases res with
    | error r => cases r <;> simp [caller, hs]
    | ok q =>
      dsimp only
      by_cases hdone : k.done.isError = true
      · simp [hdone, caller, hs]
      simp only [hdone, Bool.false_eq_true, if_false]
      have hnew : (S.addProcess k.object).table p = some s := by
        rw [← hs]
        simp [System.addProcess, System.table, hobject.symm]
      cases xtFindFreeHandle s with
      | none => simp [caller, hnew]
      | some id =>
        generalize hfirst : xtDuplicateHandle k.alloc s id 0 typeProcess k.object = o
        obtain ⟨s1, r1⟩ := o
        obtain ⟨S1, hinstall, htable⟩ := install_caller hnew
          (d := { access := 0, type := typeProcess, desc := k.object }) hfirst
        simp only [hinstall, hfirst]
        by_cases hr1 : r1.isError = true
        · simp [hr1, caller, htable]
        · simp [hr1, caller, htable]
  | executeProgram handle =>
    obtain rfl := Option.some.inj hc
    simp only [Action.run, xtUserExecuteProgram, hs, Call.run, UserHandles.xtUserExecuteProgram]
    generalize processOf k s handle = o
    obtain ⟨events, res⟩ := o
    cases res with
    | error r => cases r <;> simp [caller, hs]
    | ok q =>
      dsimp only
      by_cases hdone : k.done.isError = true
      · simp [hdone, caller, hs]
      simp only [hdone, Bool.false_eq_true, if_false]
      generalize hfirst : xtDuplicateHandle k.alloc s ((xtFindFreeHandle s).getD 0) 0 typeThread
        k.object = o
      obtain ⟨s1, r1⟩ := o
      obtain ⟨S1, hinstall, htable⟩ := install_caller hs
        (d := { access := 0, type := typeThread, desc := k.object }) hfirst
      simp only [hinstall]
      by_cases hr1 : r1.isError = true
      · simp [hr1, caller, htable]
      · simp [hr1, caller, htable]
  | install handle d => cases hc

theorem sound_of_run {S : System} (hS : Reachable System.Initial System.Step S) : Sound S := by
  refine hS.invariant (fun S h => h.sound) ?_
  rintro S S' h ⟨k, current, action, r, hrun⟩
  exact h.run hrun

/-- **Rights never grow**: in every run of every number of processes, whatever is in a handle
    table has the type, the object and the access of a descriptor that the kernel installed
    itself; a call of `xtUserDuplicateHandle` that succeeds gives a process just what the
    caller's own handle shows, and one that fails changes no lookup in any process. -/
theorem rights_never_grow {S : System} (hS : Reachable System.Initial System.Step S) :
    (∀ p s q, S.table p = some s → q.length = 4 → s.find q ≠ 0 →
      ∃ d ∈ S.installed, s.heap.descriptors (s.find q) = some d) ∧
    ∀ k current handle processHandle toSetHandle S' r,
      xtUserDuplicateHandle k S current handle processHandle toSetHandle = some (S', r) →
      S'.installed = S.installed ∧
      (r.isError = true → ∀ p h, S'.lookup p h = S.lookup p h) ∧
      (r.isError = false → ∃ p a a' d, S.lookup current handle = some (.success, a, some d) ∧
        S'.lookup p toSetHandle = some (.success, a', some d)) := by
  have h := sound_of_run hS
  obtain ⟨holder, hsep⟩ := h.separate
  refine ⟨fun p s q hs hq hne => ?_, fun k current handle processHandle toSetHandle S' r hrun => ?_⟩
  · obtain ⟨owner, hw, -⟩ := hsep p s hs
    obtain ⟨d, hd⟩ := Option.ne_none_iff_exists'.mp (hw.find_descriptor hq hne)
    obtain ⟨root, -, rfl⟩ := Option.map_eq_some_iff.mp hs
    exact ⟨d, h.copies _ d hd, hd⟩
  · obtain ⟨hr, rfl⟩ | ⟨process, a, d, hl, hset⟩ := duplicate_cases h hrun
    · refine ⟨rfl, fun _ _ _ => rfl, fun hno => ?_⟩
      rw [hr] at hno
      cases hno
    · have hg := hsep.given hset
      refine ⟨hg.installed, fun hr => ?_, fun hr => ?_⟩
      · cases hg with
        | failed _ _ _ _ hlookup => exact hlookup
        | given => cases hr
      · cases hg with
        | failed hr' =>
          rw [hr'] at hr
          cases hr
        | given _ _ _ hlookup => exact ⟨process, a, _, d, hl, hlookup⟩

/-- Two processes without handles, at addresses 1 and 2. -/
def twoProcesses : System where
  heap := emptyProcess.heap
  processes p := if p = 1 ∨ p = 2 then some 0 else none
  installed := []

theorem initial_twoProcesses : twoProcesses.Initial := by
  refine ⟨rfl, fun p root h => ?_, fun _ => rfl⟩
  simp only [twoProcesses] at h
  split_ifs at h
  exact (Option.some.inj h).symm

/-- The first process has a handle of the second one and of a file that it may read, and gives
    the second one the file. -/
theorem rights_never_grow_copy :
    ∃ S S', Reachable System.Initial System.Step S ∧
      xtUserDuplicateHandle (smallKernel none) S 1 1 0 5 = some (S', .success) ∧
      S'.installed = S.installed ∧
      ∃ p a a' d, S.lookup 1 1 = some (.success, a, some d) ∧
        S'.lookup p 5 = some (.success, a', some d) := by
  have h1 : Reachable System.Initial System.Step _ := .next (.start initial_twoProcesses)
    ⟨smallKernel none, 1, .install 0 { access := 0, type := typeProcess, desc := 2 }, .success, rfl⟩
  have h2 : Reachable System.Initial System.Step _ := .next h1
    ⟨smallKernel none, 1, .install 1 { access := modeRead, type := typeFile, desc := 0x1000 },
      .success, rfl⟩
  have h := (rights_never_grow h2).2 (smallKernel none) 1 1 0 5 _ .success rfl
  exact ⟨_, _, h2, rfl, h.1, h.2.2 rfl⟩

end XTOS.Rights

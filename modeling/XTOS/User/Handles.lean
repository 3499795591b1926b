import XTOS.Handle.Search

/-!
# Handles in system calls

The calls of `xtSyscallArray` in `xtkernel/user.c` with what they do to handles: which
handles they look up, which descriptors they read, as what objects they use them, and which
new handles they install.

## Main definitions

- `Kernel` — what the rest of the kernel answers in a call
- `Event`, `Outcome` — what a call does, and how it ends
- `Call`, `Call.run` — the seven calls
- `UsesHandles` — descriptors are used only as what a successful lookup recorded
- `KeepsHandles` — the handles in use stay as they are

## Main results

- `usesHandles_iff` — for which handle values a call uses handles as it should
- `keepsHandles_iff` — when the calls that make new handles keep those in use

## Design notes

A call starts from null pointers, as the source does. A descriptor that is read at a null
pointer is what user memory at address 0 holds; without such memory the call does not return.
-/

namespace XTOS.UserHandles

open SysLib Handle

/-- `XT_DESCRIPTOR_TYPE_PROCESS`, `XT_DESCRIPTOR_TYPE_FILE` and `XT_DESCRIPTOR_TYPE_THREAD`. -/
def typeProcess : BitVec 32 := 1

def typeFile : BitVec 32 := 2

def typeThread : BitVec 32 := 4

/-- `XT_FILE_MODE_READ` and `XT_FILE_MODE_WRITE`. -/
def modeRead : BitVec 32 := 1

def modeWrite : BitVec 32 := 2

/-- `XT_CURRENT_PROCESS` and `XT_CURRENT_THREAD`. -/
def currentProcess : BitVec 64 := -1

def currentThread : BitVec 64 := -2

/-- What the rest of the kernel answers in a call: the descriptor that memory at the null
    pointer shows, the address of the current process, whether a buffer was allocated and the
    copies from and to user memory went through, what the function called with the objects
    returned, the new objects, and the heap in each of two installs. -/
structure Kernel where
  null : Option XTDescriptor
  self : ℕ
  buffer : XTResult
  copiedIn : XTResult
  copiedOut : XTResult
  done : XTResult
  object : ℕ
  object' : ℕ
  alloc : HeapAlloc
  alloc' : HeapAlloc

/-- What a call does: a lookup, a read of a descriptor, the use of an object as one of a type,
    an effect that needs no handle, a search for a free handle, and a handle number that is
    copied to the user. -/
inductive Event where
  | getHandle (handle : BitVec 64) (result : XTResult) (desc : ℕ)
  | read (desc : ℕ)
  | use (type : BitVec 32) (object : ℕ)
  | effect
  | search (found : Option (BitVec 64))
  | copyOut (handle : BitVec 64)
  deriving DecidableEq

/-- The handle table after a call, what the call did, and its result if it returns. -/
structure Outcome where
  state : State
  events : List Event
  result : Option XTResult

/-- The result of `xtGetHandle` and the pointer it leaves. -/
def fetch (s : State) (handle : BitVec 64) : XTResult × ℕ := (xtGetHandle s handle 0).2

/-- The descriptor that a pointer leads to. -/
def descriptorAt (k : Kernel) (s : State) (desc : ℕ) : Option XTDescriptor :=
  if desc = 0 then k.null else s.heap.descriptors desc

/-- `xtUserTerminateThread`. -/
def xtUserTerminateThread (k : Kernel) (s : State) (handleId : BitVec 64) : Outcome :=
  if handleId = currentThread then ⟨s, [.effect], some k.done⟩
  else
    let (result, desc) := fetch s handleId
    let got := Event.getHandle handleId result desc
    if result.isError then ⟨s, [got], some result⟩
    else
      match descriptorAt k s desc with
      | none => ⟨s, [got, .read desc], none⟩
      | some d => ⟨s, [got, .read desc, .use typeThread d.desc], some k.done⟩

/-- `xtUserWriteFile`. -/
def xtUserWriteFile (k : Kernel) (s : State) (handleId : BitVec 64) : Outcome :=
  let (result, desc) := fetch s handleId
  let got := Event.getHandle handleId result desc
  if result = .notFound then ⟨s, [got], some .invalidParameter⟩
  else
    match descriptorAt k s desc with
    | none => ⟨s, [got, .read desc], none⟩
    | some d =>
      if d.type ≠ typeFile then ⟨s, [got, .read desc], some .invalidParameter⟩
      else if d.access &&& modeWrite = 0 then ⟨s, [got, .read desc], some .accessDenied⟩
      else if result.isError then ⟨s, [got, .read desc], some result⟩
      else if k.copiedIn = .accessViolation then ⟨s, [got, .read desc, .effect], some k.copiedIn⟩
      else ⟨s, [got, .read desc, .effect, .use typeFile d.desc], some k.done⟩

/-- `xtUserReadFile`. -/
def xtUserReadFile (k : Kernel) (s : State) (handleId : BitVec 64) : Outcome :=
  let (result, desc) := fetch s handleId
  let got := Event.getHandle handleId result desc
  if result = .notFound then ⟨s, [got], some .invalidParameter⟩
  else
    match descriptorAt k s desc with
    | none => ⟨s, [got, .read desc], none⟩
    | some d =>
      if d.type ≠ typeFile then ⟨s, [got, .read desc], some .invalidParameter⟩
      else if d.access &&& modeRead = 0 then ⟨s, [got, .read desc], some .accessDenied⟩
      else if k.buffer.isError then ⟨s, [got, .read desc], some k.buffer⟩
      else ⟨s, [got, .read desc, .effect, .use typeFile d.desc],
        some (if k.copiedOut = .accessViolation then k.copiedOut else k.done)⟩

/-- The start of the calls that take a process: the process, `none` for the current one, or
    the end of the call. -/
def processOf (k : Kernel) (s : State) (handle : BitVec 64) :
    List Event × Except (Option XTResult) (Option ℕ) :=
  if handle = currentProcess then ([], .ok none)
  else
    let (result, desc) := fetch s handle
    let got := Event.getHandle handle result desc
    if result.isError then ([got], .error (some result))
    else
      match descriptorAt k s desc with
      | none => ([got, .read desc], .error none)
      | some d =>
        if d.type ≠ typeProcess then ([got, .read desc], .error (some .invalidParameter))
        else ([got, .read desc], .ok (some d.desc))

/-- The use of the process that `processOf` gave. -/
def useProcess : Option ℕ → Event
  | none => .effect
  | some process => .use typeProcess process

/-- `xtUserDuplicateHandle`. A handle that is set in another process is none of this table. -/
def xtUserDuplicateHandle (k : Kernel) (s : State) (handle processHandle toSetHandle : BitVec 64) :
    Outcome :=
  match processOf k s processHandle with
  | (events, .error result) => ⟨s, events, result⟩
  | (events, .ok anotherProcess) =>
    let (result, desc) := fetch s handle
    let got := Event.getHandle handle result desc
    if result.isError then ⟨s, events ++ [got], some result⟩
    else
      match descriptorAt k s desc with
      | none => ⟨s, events ++ [got, .read desc], none⟩
      | some d =>
        let events := events ++ [got, .read desc, useProcess anotherProcess]
        if anotherProcess.all (· = k.self) then
          let (s, r) := xtDuplicateHandle k.alloc s toSetHandle d.access d.type d.desc
          ⟨s, events, some r⟩
        else ⟨s, events, some k.done⟩

/-- `xtUserCreatePipe`. A search that fails leaves the number 0. -/
def xtUserCreatePipe (k : Kernel) (s : State) : Outcome :=
  if k.done.isError then ⟨s, [.effect], some k.done⟩
  else
    let found := xtFindFreeHandle s
    let writeHandleId := found.getD 0
    match xtDuplicateHandle k.alloc s writeHandleId modeWrite typeFile k.object with
    | (s, r) =>
      if r.isError then ⟨s, [.effect, .search found], some r⟩
      else
        let found' := xtFindFreeHandle s
        let readHandleId := found'.getD 0
        let events := [.effect, .search found, .copyOut writeHandleId, .search found']
        match xtDuplicateHandle k.alloc' s readHandleId modeRead typeFile k.object' with
        | (s, r) =>
          if r.isError then ⟨s, events, some r⟩
          else ⟨s, events ++ [.copyOut readHandleId], some .success⟩

/-- `xtUserCreateProcess`. -/
def xtUserCreateProcess (k : Kernel) (s : State) (parentProcessHandle : BitVec 64) : Outcome :=
  match processOf k s parentProcessHandle with
  | (events, .error result) => ⟨s, events, result⟩
  | (events, .ok process) =>
    let events := events ++ [useProcess process]
    if k.done.isError then ⟨s, events, some k.done⟩
    else
      match xtFindFreeHandle s with
      | none => ⟨s, events ++ [.search none], some .notFound⟩
      | some newProcessHandleId =>
        let events := events ++ [.search (some newProcessHandleId)]
        match xtDuplicateHandle k.alloc s newProcessHandleId 0 typeProcess k.object with
        | (s, r) =>
          if r.isError then ⟨s, events, some r⟩
          else ⟨s, events ++ [.copyOut newProcessHandleId],
            some (if k.copiedOut.isError then k.copiedOut else .success)⟩

/-- `xtUserExecuteProgram`. A search that fails leaves the number 0. -/
def xtUserExecuteProgram (k : Kernel) (s : State) (processHandle : BitVec 64) : Outcome :=
  match processOf k s processHandle with
  | (events, .error result) => ⟨s, events, result⟩
  | (events, .ok process) =>
    let events := events ++ [.effect, useProcess process]
    if k.done.isError then ⟨s, events, some k.done⟩
    else
      let found := xtFindFreeHandle s
      let mainThreadId := found.getD 0
      let events := events ++ [.search found]
      match xtDuplicateHandle k.alloc s mainThreadId 0 typeThread k.object with
      | (s, r) =>
        if r.isError then ⟨s, events, some r⟩
        else ⟨s, events ++ [.copyOut mainThreadId],
          some (if k.copiedOut.isError then k.copiedOut else .success)⟩

/-- The calls of `xtSyscallArray` with their handles. -/
inductive Call where
  | terminateThread (handleId : BitVec 64)
  | writeFile (handleId : BitVec 64)
  | readFile (handleId : BitVec 64)
  | createPipe
  | createProcess (parentProcessHandle : BitVec 64)
  | duplicateHandle (handle processHandle toSetHandle : BitVec 64)
  | executeProgram (processHandle : BitVec 64)
  deriving DecidableEq, Repr

/-- A call on the handle table of the current process. -/
def Call.run (k : Kernel) (s : State) : Call → Outcome
  | .terminateThread h => xtUserTerminateThread k s h
  | .writeFile h => xtUserWriteFile k s h
  | .readFile h => xtUserReadFile k s h
  | .createPipe => xtUserCreatePipe k s
  | .createProcess h => xtUserCreateProcess k s h
  | .duplicateHandle h p t => xtUserDuplicateHandle k s h p t
  | .executeProgram h => xtUserExecuteProgram k s h

/-! ### Descriptors are used as what they are -/

/-- A descriptor is read only after a lookup returned it with success, and an object is used
    only as one of the type that such a descriptor records for it; `seen` are the descriptors
    returned so far. -/
def Guarded (s : State) : List ℕ → List Event → Prop
  | _, [] => True
  | seen, .getHandle _ result desc :: events =>
    Guarded s (if result = .success then desc :: seen else seen) events
  | seen, .read desc :: events => desc ∈ seen ∧ Guarded s seen events
  | seen, .use type object :: events =>
    (∃ desc ∈ seen, ∃ d, s.heap.descriptors desc = some d ∧ d.type = type ∧ d.desc = object) ∧
      Guarded s seen events
  | seen, _ :: events => Guarded s seen events

/-- The event leaves everything as it is. -/
def Event.harmless : Event → Bool
  | .getHandle _ _ _ => true
  | .read _ => true
  | .search _ => true
  | _ => false

/-- A handle is found, with a descriptor that records the type. -/
def Names (s : State) (handle : BitVec 64) (type : BitVec 32) : Prop :=
  ∃ a d, lookup s handle = (.success, a, some d) ∧ d.type = type

/-- The handles of a call are found, with descriptors of the types it needs. -/
def Call.Valid (s : State) : Call → Prop
  | .terminateThread h => h = currentThread ∨ Names s h typeThread
  | .writeFile h => Names s h typeFile
  | .readFile h => Names s h typeFile
  | .createPipe => True
  | .createProcess h => h = currentProcess ∨ Names s h typeProcess
  | .duplicateHandle h p _ =>
    (p = currentProcess ∨ Names s p typeProcess) ∧ InUse s h
  | .executeProgram h => h = currentProcess ∨ Names s h typeProcess

/-- The call uses descriptors as it should, and with any other handle it returns an error and
    has no effect. -/
structure UsesHandles (s : State) (c : Call) (out : Outcome) : Prop where
  guarded : Guarded s [] out.events
  rejects : ¬ c.Valid s → (∃ r, out.result = some r ∧ r.isError = true) ∧ out.state = s ∧
    ∀ e ∈ out.events, e.harmless = true

/-- The handle of a write or a read passes the range check of `xtGetHandle`, and that of a
    thread to terminate is not found as anything else. -/
def Call.Checked (s : State) : Call → Prop
  | .writeFile h => Accepted h
  | .readFile h => Accepted h
  | .terminateThread h => h = currentThread ∨ ∀ a d, lookup s h = (.success, a, some d) →
      d.type = typeThread
  | _ => True

variable {s : State} {owner : Slot → Option (List (Fin 512))} {handle : BitVec 64}

/-- The three outcomes of `xtGetHandle`. -/
inductive Fetched (s : State) (handle : BitVec 64) : XTResult × ℕ → Prop
  | rejected (h : ¬ Accepted handle) (hno : ¬ InUse s handle) :
      Fetched s handle (.invalidParameter, 0)
  | missing (h : Accepted handle) (hno : ¬ InUse s handle) : Fetched s handle (.notFound, 0)
  | found {a : ℕ} {d : XTDescriptor} (h : Accepted handle) (ha : a ≠ 0)
      (hd : s.heap.descriptors a = some d) (hl : lookup s handle = (.success, a, some d)) :
      Fetched s handle (.success, a)

theorem fetched (hw : WellFormed s owner) (handle : BitVec 64) :
    Fetched s handle (fetch s handle) := by
  by_cases hacc : Accepted handle
  · have hl := lookup_eq (s := s) hacc
    rw [fetch, xtGetHandle_eq hacc]
    by_cases hzero : s.find (path handle) = 0
    · simp only [hzero, ne_eq, not_true_eq_false, if_false]
      exact .missing hacc fun hin => (inUse_iff.mp hin).2 hzero
    · obtain ⟨d, hd⟩ := Option.ne_none_iff_exists'.mp
        (hw.find_descriptor (length_path handle) hzero)
      simp only [hzero, ne_eq, not_false_eq_true, if_true] at hl ⊢
      exact .found hacc hzero hd (by rw [hl, hd])
  · have hf : fetch s handle = (.invalidParameter, 0) := by simp [fetch, xtGetHandle, hacc]
    rw [hf]
    exact .rejected hacc fun hin => hacc (inUse_iff.mp hin).1

/-- A handle with this lookup is found with the type that its descriptor has. -/
theorem names_iff {type : BitVec 32} {a : ℕ} {d : XTDescriptor}
    (hl : lookup s handle = (.success, a, some d)) : Names s handle type ↔ d.type = type := by
  constructor
  · rintro ⟨a', d', hl', ht⟩
    rw [hl] at hl'
    simp only [Prod.mk.injEq, Option.some.injEq, true_and] at hl'
    rwa [hl'.2]
  · exact fun ht => ⟨a, d, hl, ht⟩

theorem descriptorAt_of_ne (k : Kernel) {a : ℕ} (ha : a ≠ 0) :
    descriptorAt k s a = s.heap.descriptors a := if_neg ha

/-- A call that returns an error and did nothing but look up and read. -/
theorem usesHandles_refused {c : Call} {events : List Event} {r : XTResult}
    (hguarded : Guarded s [] events) (hr : r.isError = true)
    (hall : ∀ e ∈ events, e.harmless = true) : UsesHandles s c ⟨s, events, some r⟩ :=
  ⟨hguarded, fun _ => ⟨⟨r, rfl, hr⟩, rfl, hall⟩⟩

/-- A call whose handles are in order. -/
theorem usesHandles_valid {c : Call} {out : Outcome} (hvalid : c.Valid s)
    (hguarded : Guarded s [] out.events) : UsesHandles s c out :=
  ⟨hguarded, fun hno => absurd hvalid hno⟩

/-- A read after a lookup that failed. -/
theorem not_guarded {h : BitVec 64} {r : XTResult} {a : ℕ} {events : List Event}
    (hr : r ≠ .success) : ¬ Guarded s [] (.getHandle h r a :: .read a :: events) := by
  simp [Guarded, hr]

theorem terminateThread_iff (hw : WellFormed s owner) (k : Kernel) (h : BitVec 64) :
    UsesHandles s (.terminateThread h) (xtUserTerminateThread k s h) ↔
      (Call.terminateThread h).Checked s := by
  by_cases hcur : h = currentThread
  · rw [xtUserTerminateThread, if_pos hcur]
    exact iff_of_true (usesHandles_valid (.inl hcur) trivial) (.inl hcur)
  rw [xtUserTerminateThread, if_neg hcur]
  have hf := fetched hw h
  generalize fetch s h = f at hf
  have hunused : ¬ InUse s h → (Call.terminateThread h).Checked s := fun hno =>
    .inr fun a d hl => absurd (by rw [InUse, hl]) hno
  cases hf with
  | rejected hacc hno =>
    simp only [XTResult.isError, if_true]
    exact iff_of_true (usesHandles_refused trivial rfl (by simp [Event.harmless])) (hunused hno)
  | missing hacc hno =>
    simp only [XTResult.isError, if_true]
    exact iff_of_true (usesHandles_refused trivial rfl (by simp [Event.harmless])) (hunused hno)
  | @found a d hacc ha hd hl =>
    simp only [XTResult.isError, Bool.false_eq_true, if_false, descriptorAt_of_ne k ha, hd]
    constructor
    · intro huse
      -- the type of the descriptor is not checked before the thread is used
      have hguarded := huse.guarded
      simp only [Guarded, if_true, List.mem_singleton, exists_eq_left, hd, Option.some.injEq,
        exists_eq_left', and_true, true_and] at hguarded
      exact .inr fun a' d' hl' => (names_iff hl').mp ((names_iff hl).mpr hguarded)
    · rintro (hcur' | hall)
      · exact absurd hcur' hcur
      · have ht := hall a d hl
        exact usesHandles_valid (.inr ((names_iff hl).mpr ht)) (by simp [Guarded, hd, ht])

/-- A call on a file handle refuses a missing handle and a descriptor of another type, and reads
    the null descriptor of a handle out of range. -/
theorem fileCall_iff (hw : WellFormed s owner) {h : BitVec 64} {c : Call} {out : Outcome}
    (hvalid : Names s h typeFile → c.Valid s) (hchecked : c.Checked s ↔ Accepted h)
    (hrejected : fetch s h = (.invalidParameter, 0) →
      ∃ events, out.events = .getHandle h .invalidParameter 0 :: .read 0 :: events)
    (hmissing : fetch s h = (.notFound, 0) →
      out = ⟨s, [.getHandle h .notFound 0], some .invalidParameter⟩)
    (hother : ∀ {a d}, fetch s h = (.success, a) → a ≠ 0 → s.heap.descriptors a = some d →
      d.type ≠ typeFile → out = ⟨s, [.getHandle h .success a, .read a], some .invalidParameter⟩)
    (hfile : ∀ {a d}, fetch s h = (.success, a) → a ≠ 0 → s.heap.descriptors a = some d →
      d.type = typeFile → Guarded s [] out.events) :
    UsesHandles s c out ↔ c.Checked s := by
  rw [hchecked]
  have hf := fetched hw h
  generalize hfetch : fetch s h = f at hf
  cases hf with
  | rejected hacc hno =>
    refine iff_of_false (fun huse => ?_) hacc
    obtain ⟨events, hevents⟩ := hrejected hfetch
    have hguarded := huse.guarded
    rw [hevents] at hguarded
    exact not_guarded (by decide) hguarded
  | missing hacc hno =>
    rw [hmissing hfetch]
    exact iff_of_true (usesHandles_refused trivial rfl (by simp [Event.harmless])) hacc
  | @found a d hacc ha hd hl =>
    refine iff_of_true ?_ hacc
    by_cases ht : d.type = typeFile
    · exact usesHandles_valid (hvalid ((names_iff hl).mpr ht)) (hfile hfetch ha hd ht)
    · rw [hother hfetch ha hd ht]
      exact usesHandles_refused (by simp [Guarded]) rfl (by simp [Event.harmless])

theorem writeFile_iff (hw : WellFormed s owner) (k : Kernel) (h : BitVec 64) :
    UsesHandles s (.writeFile h) (xtUserWriteFile k s h) ↔ (Call.writeFile h).Checked s := by
  unfold xtUserWriteFile
  refine fileCall_iff hw id Iff.rfl (fun hf => ?_) (fun hf => ?_) (fun hf ha hd ht => ?_)
    fun {a d} hf ha hd ht => ?_
  · simp only [hf, reduceCtorEq, if_false]
    split
    · exact ⟨[], rfl⟩
    · split_ifs
      all_goals exact ⟨_, rfl⟩
  · simp only [hf, if_true]
  · simp only [hf, reduceCtorEq, if_false, descriptorAt_of_ne k ha, hd, if_pos ht]
  · simp only [hf, reduceCtorEq, if_false, descriptorAt_of_ne k ha, hd]
    split_ifs
    all_goals simp [Guarded, hd, ht]

theorem readFile_iff (hw : WellFormed s owner) (k : Kernel) (h : BitVec 64) :
    UsesHandles s (.readFile h) (xtUserReadFile k s h) ↔ (Call.readFile h).Checked s := by
  unfold xtUserReadFile
  refine fileCall_iff hw id Iff.rfl (fun hf => ?_) (fun hf => ?_) (fun hf ha hd ht => ?_)
    fun {a d} hf ha hd ht => ?_
  · simp only [hf, reduceCtorEq, if_false]
    split
    · exact ⟨[], rfl⟩
    · split_ifs
      all_goals exact ⟨_, rfl⟩
  · simp only [hf, if_true]
  · simp only [hf, reduceCtorEq, if_false, descriptorAt_of_ne k ha, hd, if_pos ht]
  · simp only [hf, reduceCtorEq, if_false, descriptorAt_of_ne k ha, hd]
    split_ifs
    all_goals simp [Guarded, hd, ht]

/-- What `processOf` gives: the current process, the process of a handle that is one, or the
    end of the call with an error. -/
inductive ProcessOf (s : State) (handle : BitVec 64) :
    List Event × Except (Option XTResult) (Option ℕ) → Prop
  | current (h : handle = currentProcess) : ProcessOf s handle ([], .ok none)
  | named {a : ℕ} {d : XTDescriptor} (hd : s.heap.descriptors a = some d)
      (hl : lookup s handle = (.success, a, some d)) (ht : d.type = typeProcess) :
      ProcessOf s handle ([.getHandle handle .success a, .read a], .ok (some d.desc))
  | refused {events : List Event} {r : XTResult} (hguarded : Guarded s [] events)
      (hr : r.isError = true) (hall : ∀ e ∈ events, e.harmless = true)
      (hout : ∀ e ∈ events, ∀ h, e ≠ .copyOut h ∧ ∀ f, e ≠ .search f) :
      ProcessOf s handle (events, .error (some r))

theorem processOf_spec (hw : WellFormed s owner) (k : Kernel) (handle : BitVec 64) :
    ProcessOf s handle (processOf k s handle) := by
  rw [processOf]
  split_ifs with hcur
  · exact .current hcur
  have hf := fetched hw handle
  generalize fetch s handle = f at hf
  cases hf with
  | rejected hacc hno =>
    simp only [XTResult.isError, if_true]
    exact .refused trivial rfl (by simp [Event.harmless]) (by simp)
  | missing hacc hno =>
    simp only [XTResult.isError, if_true]
    exact .refused trivial rfl (by simp [Event.harmless]) (by simp)
  | @found a d hacc ha hd hl =>
    simp only [XTResult.isError, Bool.false_eq_true, if_false, descriptorAt_of_ne k ha, hd]
    by_cases ht : d.type = typeProcess
    · rw [if_neg (not_not.mpr ht)]
      exact .named hd hl ht
    · rw [if_pos ht]
      exact .refused (by simp [Guarded]) rfl (by simp [Event.harmless]) (by simp)

/-- The event looks up, reads and uses no descriptor. -/
def Event.quiet : Event → Bool
  | .effect => true
  | .search _ => true
  | .copyOut _ => true
  | _ => false

theorem guarded_quiet_append {seen : List ℕ} {events rest : List Event}
    (h : ∀ e ∈ events, e.quiet = true) (hrest : Guarded s seen rest) :
    Guarded s seen (events ++ rest) := by
  induction events with
  | nil => exact hrest
  | cons e events ih =>
    have hnext := ih fun e' he' => h e' (List.mem_cons_of_mem _ he')
    have he := h e List.mem_cons_self
    cases e with
    | getHandle => cases he
    | read => cases he
    | use => cases he
    | effect => exact hnext
    | search => exact hnext
    | copyOut => exact hnext

theorem guarded_quiet {seen : List ℕ} {events : List Event}
    (h : ∀ e ∈ events, e.quiet = true) : Guarded s seen events := by
  rw [← List.append_nil events]
  exact guarded_quiet_append h trivial

variable {events : List Event} {process : Option ℕ}

theorem ProcessOf.valid (h : ProcessOf s handle (events, .ok process)) :
    handle = currentProcess ∨ Names s handle typeProcess := by
  cases h with
  | current h => exact .inl h
  | named hd hl ht => exact .inr ((names_iff hl).mpr ht)

/-- The use of the process is guarded by the events before. -/
theorem ProcessOf.guarded (h : ProcessOf s handle (events, .ok process)) {pre rest : List Event}
    (hpre : ∀ e ∈ pre, e.quiet = true) (hrest : ∀ e ∈ rest, e.quiet = true) :
    Guarded s [] (events ++ (pre ++ useProcess process :: rest)) := by
  cases h with
  | current h =>
    rw [List.nil_append]
    refine guarded_quiet_append hpre (guarded_quiet fun e he => ?_)
    obtain rfl | he := List.mem_cons.mp he
    · rfl
    · exact hrest e he
  | @named a d hd hl ht =>
    have huse : Guarded s [a] (pre ++ useProcess (some d.desc) :: rest) :=
      guarded_quiet_append hpre
        ⟨⟨a, List.mem_singleton_self a, d, hd, ht, rfl⟩, guarded_quiet hrest⟩
    exact ⟨List.mem_singleton_self a, huse⟩

theorem duplicateHandle_uses (hw : WellFormed s owner) (k : Kernel) (h p t : BitVec 64) :
    UsesHandles s (.duplicateHandle h p t) (xtUserDuplicateHandle k s h p t) := by
  rw [xtUserDuplicateHandle]
  have hp := processOf_spec hw k p
  generalize processOf k s p = o at hp
  obtain ⟨events, r⟩ := o
  cases r with
  | error r =>
    cases hp with
    | refused hguarded hr hall _ => exact usesHandles_refused hguarded hr hall
  | ok process =>
    have hf := fetched hw h
    generalize fetch s h = f at hf
    -- what comes before the lookup is a lookup of the process or nothing
    have hguarded : ∀ rest, (∀ seen, Guarded s seen rest) → Guarded s [] (events ++ rest) := by
      intro rest hrest
      cases hp with
      | current => exact hrest []
      | named => exact ⟨List.mem_singleton_self _, hrest _⟩
    have hharmless : ∀ e ∈ events, e.harmless = true := by
      cases hp with
      | current => simp
      | named => simp [Event.harmless]
    cases hf with
    | rejected hacc hno =>
      simp only [XTResult.isError, if_true]
      refine usesHandles_refused (hguarded _ fun _ => trivial) rfl fun e he => ?_
      obtain he | he := List.mem_append.mp he
      · exact hharmless e he
      · rw [List.mem_singleton.mp he]
        rfl
    | missing hacc hno =>
      simp only [XTResult.isError, if_true]
      refine usesHandles_refused (hguarded _ fun _ => trivial) rfl fun e he => ?_
      obtain he | he := List.mem_append.mp he
      · exact hharmless e he
      · rw [List.mem_singleton.mp he]
        rfl
    | @found a d hacc ha hd hl =>
      simp only [XTResult.isError, Bool.false_eq_true, if_false, descriptorAt_of_ne k ha, hd]
      have hvalid : (Call.duplicateHandle h p t).Valid s := by
        refine ⟨hp.valid, ?_⟩
        rw [InUse, hl]
      have huse : Guarded s [] (events ++ [.getHandle h .success a, .read a, useProcess process]) := by
        cases hp with
        | current => simp [Guarded, useProcess]
        | @named a' d' hd' hl' ht' => simp [Guarded, useProcess, hd', ht']
      split_ifs
      · exact usesHandles_valid hvalid huse
      · exact usesHandles_valid hvalid huse

theorem createPipe_uses (k : Kernel) (s : State) :
    UsesHandles s .createPipe (xtUserCreatePipe k s) := by
  refine usesHandles_valid trivial (guarded_quiet ?_)
  rw [xtUserCreatePipe]
  dsimp only
  split_ifs
  all_goals simp [Event.quiet]

theorem createProcess_uses (hw : WellFormed s owner) (k : Kernel) (h : BitVec 64) :
    UsesHandles s (.createProcess h) (xtUserCreateProcess k s h) := by
  rw [xtUserCreateProcess]
  have hp := processOf_spec hw k h
  generalize processOf k s h = o at hp
  obtain ⟨events, r⟩ := o
  cases r with
  | error r =>
    cases hp with
    | refused hguarded hr hall _ => exact usesHandles_refused hguarded hr hall
  | ok process =>
    have hguarded : ∀ rest : List Event, (∀ e ∈ rest, e.quiet = true) →
        Guarded s [] (events ++ useProcess process :: rest) := fun rest hrest => by
      simpa using hp.guarded (List.forall_mem_nil _) hrest
    refine usesHandles_valid hp.valid ?_
    dsimp only
    -- whatever follows the use of the process neither looks up nor reads
    by_cases hdone : k.done.isError = true
    · rw [if_pos hdone]
      exact hguarded [] (by simp)
    · rw [if_neg hdone]
      cases xtFindFreeHandle s with
      | none =>
        rw [List.append_assoc]
        exact hguarded [_] (by simp [Event.quiet])
      | some id =>
        dsimp only
        split
        all_goals
          simp only [List.append_assoc]
          exact hguarded _ (by simp [Event.quiet])

theorem executeProgram_uses (hw : WellFormed s owner) (k : Kernel) (h : BitVec 64) :
    UsesHandles s (.executeProgram h) (xtUserExecuteProgram k s h) := by
  rw [xtUserExecuteProgram]
  have hp := processOf_spec hw k h
  generalize processOf k s h = o at hp
  obtain ⟨events, r⟩ := o
  cases r with
  | error r =>
    cases hp with
    | refused hguarded hr hall _ => exact usesHandles_refused hguarded hr hall
  | ok process =>
    have hguarded : ∀ rest : List Event, (∀ e ∈ rest, e.quiet = true) →
        Guarded s [] (events ++ ([.effect] ++ useProcess process :: rest)) := fun rest hrest =>
      hp.guarded (by simp [Event.quiet]) hrest
    refine usesHandles_valid hp.valid ?_
    dsimp only
    split_ifs
    · exact hguarded [] (by simp)
    all_goals
      simp only [List.append_assoc]
      exact hguarded _ (by simp [Event.quiet])

/-- **Handles in system calls**: in every reachable handle table and for all arguments, a call
    reads only descriptors that were found, uses their objects as what they are, and refuses
    any other handle without an effect, exactly if a write or a read is given a handle that
    passes the range check and a thread is not terminated through a handle of something
    else. -/
theorem usesHandles_iff {s : State} (hs : Reachable State.Initial State.Step s) (k : Kernel)
    (c : Call) : UsesHandles s c (c.run k s) ↔ c.Checked s := by
  obtain ⟨owner, hw⟩ := wellFormed_of_reachable hs
  cases c with
  | terminateThread h => exact terminateThread_iff hw k h
  | writeFile h => exact writeFile_iff hw k h
  | readFile h => exact readFile_iff hw k h
  | createPipe => exact iff_of_true (createPipe_uses k s) trivial
  | createProcess h => exact iff_of_true (createProcess_uses hw k h) trivial
  | duplicateHandle h p t => exact iff_of_true (duplicateHandle_uses hw k h p t) trivial
  | executeProgram h => exact iff_of_true (executeProgram_uses hw k h) trivial

/-- A kernel in which everything goes through, with this memory at the null pointer. -/
def smallKernel (null : Option XTDescriptor) : Kernel :=
  ⟨null, 1, .success, .success, .success, .success, 0x1000, 0x2000, smallAlloc, smallAlloc⟩

/-- A read from a handle that is not in use is refused. -/
theorem usesHandles_read_unused :
    UsesHandles emptyProcess (.readFile 3) (Call.run (smallKernel none) emptyProcess (.readFile 3)) :=
  (usesHandles_iff (.start (s := emptyProcess) rfl) (smallKernel none) (.readFile 3)).mpr
    (show Accepted 3 by decide)

/-- A read from the handle -1, which the range check rejects: the null pointer is read as a
    descriptor, and what user memory holds there is used as a file. -/
theorem read_uses_user_memory :
    ∃ s k c, Reachable State.Initial State.Step s ∧ ¬ UsesHandles s c (Call.run k s c) ∧
      .use typeFile 0xdead ∈ (Call.run k s c).events ∧ (Call.run k s c).result = some .success := by
  refine ⟨emptyProcess, smallKernel (some ⟨0xdead, typeFile, modeRead⟩), .readFile (-1), .start rfl,
    fun h => ?_, by decide, rfl⟩
  exact not_guarded (by decide) h.guarded

/-! ### Handles in use are kept -/

/-- The handle number that an event gives to the user. -/
def Event.number : Event → Option (BitVec 64)
  | .copyOut h => some h
  | _ => none

/-- The handle numbers that a call gives to the user were free and differ, the handles in use
    have the descriptor they had, and a search that finds nothing ends in an error. -/
structure KeepsHandles (s : State) (out : Outcome) : Prop where
  unused : ∀ h, .copyOut h ∈ out.events → ¬ InUse s h
  differ : (out.events.filterMap Event.number).Nodup
  keeps : ∀ h, InUse s h → lookup out.state h = lookup s h
  fails : .search none ∈ out.events → ∃ r, out.result = some r ∧ r.isError = true

/-- The searches find a handle where their result is used. A pipe: a search may find nothing
    only if nothing is installed under 0, or 0 was free and the other end cannot be installed.
    A program: only if nothing is installed, or 0 was free and the copy to the user fails. -/
def Call.Finds (k : Kernel) (s : State) : Call → Prop
  | .createPipe => k.done.isError = true ∨
      ∀ s', xtDuplicateHandle k.alloc s ((xtFindFreeHandle s).getD 0) modeWrite typeFile k.object =
        (s', .success) →
      (xtFindFreeHandle s ≠ none ∨ ¬ InUse s 0) ∧
      ∀ s'', xtDuplicateHandle k.alloc' s' ((xtFindFreeHandle s').getD 0) modeRead typeFile
          k.object' = (s'', .success) →
        xtFindFreeHandle s ≠ none ∧ xtFindFreeHandle s' ≠ none
  | .executeProgram h => ∀ events process, processOf k s h = (events, .ok process) →
      k.done.isError = true ∨
      ∀ s', xtDuplicateHandle k.alloc s ((xtFindFreeHandle s).getD 0) 0 typeThread k.object =
        (s', .success) →
      xtFindFreeHandle s ≠ none ∨ ¬ InUse s 0 ∧ k.copiedOut.isError = true
  | _ => True

/-- The number that is installed is free exactly if the search found it or 0 is free. -/
theorem number_free : ¬ InUse s ((xtFindFreeHandle s).getD 0) ↔
    xtFindFreeHandle s ≠ none ∨ ¬ InUse s 0 := by
  cases hfound : xtFindFreeHandle s with
  | none => simp
  | some h => simp [not_inUse_of_free (xtFindFreeHandle_free hfound)]

/-- A call that fails without a number given to the user and without an install. -/
theorem keeps_failed {s' : State} {r : XTResult} (hsame : SameHandles s s')
    (hr : r.isError = true) (hno : ∀ e ∈ events, e.number = none) :
    KeepsHandles s ⟨s', events, some r⟩ where
  unused h hmem := by
    have hnone := hno _ hmem
    cases hnone
  differ := by
    rw [List.filterMap_eq_nil_iff.mpr hno]
    exact List.nodup_nil
  keeps h _ := hsame.lookup h
  fails _ := ⟨r, rfl, hr⟩

theorem createPipe_keeps_iff (hw : WellFormed s owner) (k : Kernel) :
    KeepsHandles s (xtUserCreatePipe k s) ↔ Call.createPipe.Finds k s := by
  rw [xtUserCreatePipe]
  by_cases hdone : k.done.isError = true
  · rw [if_pos hdone]
    exact iff_of_true (keeps_failed (.refl s) hdone (by simp [Event.number])) (.inl hdone)
  rw [if_neg hdone]
  simp only [Call.Finds, hdone, false_or, Bool.false_eq_true]
  generalize hinstall : xtDuplicateHandle k.alloc s ((xtFindFreeHandle s).getD 0) modeWrite
    typeFile k.object = out
  obtain ⟨s1, r⟩ := out
  obtain ⟨hr, -, hsame⟩ | ⟨rfl, hi⟩ := hw.install hinstall
  · -- the first end is not installed
    rw [if_pos hr]
    refine iff_of_true (keeps_failed hsame hr (by simp [Event.number])) fun s' hs' => ?_
    obtain ⟨rfl, rfl⟩ := Prod.mk.inj hs'
    cases hr
  simp only [XTResult.isError, Bool.false_eq_true, if_false, Prod.mk.injEq, and_true,
    forall_eq']
  generalize hinstall' : xtDuplicateHandle k.alloc' s1 ((xtFindFreeHandle s1).getD 0) modeRead
    typeFile k.object' = out
  obtain ⟨s2, r'⟩ := out
  obtain ⟨owner1, hw1⟩ := hi.wellFormed
  obtain ⟨hr, -, hsame⟩ | ⟨rfl, hi'⟩ := hw1.install hinstall'
  · -- only the first end is installed
    have hne : r' ≠ .success := by
      rintro rfl
      cases hr
    simp only [Prod.mk.injEq, hne, and_false, false_implies, implies_true, and_true, if_true]
    rw [← number_free]
    constructor
    · intro hkeeps
      exact hkeeps.unused _ (by simp)
    · intro hfree
      refine ⟨fun h hmem => ?_, List.nodup_singleton _, fun h hin => ?_, fun _ => ⟨r', rfl, hr⟩⟩
      · simp only [List.mem_cons, reduceCtorEq, List.not_mem_nil, or_false, false_or,
          Event.copyOut.injEq] at hmem
        rwa [hmem]
      · rw [hsame.lookup, hi.keeps_all hfree h hin]
  · simp only [Bool.false_eq_true, if_false, Prod.mk.injEq, and_true, forall_eq']
    constructor
    · intro hkeeps
      have hsearch : ∀ f, .search f ∈ [Event.effect, .search (xtFindFreeHandle s),
          .copyOut ((xtFindFreeHandle s).getD 0), .search (xtFindFreeHandle s1)] → f ≠ none := by
        rintro f hf rfl
        obtain ⟨r, hr, herror⟩ := hkeeps.fails (List.mem_append_left _ hf)
        obtain rfl := Option.some.inj hr
        cases herror
      have hfound := hsearch (xtFindFreeHandle s) (by simp)
      exact ⟨.inl hfound, hfound, hsearch (xtFindFreeHandle s1) (by simp)⟩
    · rintro ⟨-, hfound, hfound'⟩
      have hfree := number_free.mpr (.inl hfound)
      have hfree' := number_free.mpr (.inl hfound')
      -- the second number is free after the first install, so it is another one and was free
      have hzero' : s1.find (path ((xtFindFreeHandle s1).getD 0)) = 0 := by
        obtain ⟨h', hh'⟩ := Option.ne_none_iff_exists'.mp hfound'
        rw [hh']
        exact xtFindFreeHandle_free hh'
      obtain ⟨hbefore, hother⟩ := (hi.free _).mp hzero'
      refine ⟨fun h hmem => ?_, ?_, fun h hin => ?_, fun hmem => ?_⟩
      · simp only [List.cons_append, List.nil_append, List.mem_cons, reduceCtorEq,
          List.not_mem_nil, or_false, false_or, Event.copyOut.injEq] at hmem
        obtain rfl | rfl := hmem
        · exact hfree
        · exact not_inUse_of_free hbefore
      · have hne : (xtFindFreeHandle s).getD 0 ≠ (xtFindFreeHandle s1).getD 0 := by
          intro heq
          rw [heq] at hother
          exact hother rfl
        exact List.nodup_cons.mpr ⟨by simpa [Event.number] using hne.symm, List.nodup_singleton _⟩
      · have hkept := hi.keeps_all hfree h hin
        have hin1 : InUse s1 h := by
          rw [InUse, hkept]
          exact hin
        rw [hi'.keeps_all hfree' h hin1, hkept]
      · simp [hfound.symm, hfound'.symm] at hmem

theorem ProcessOf.silent {o : Except (Option XTResult) (Option ℕ)}
    (h : ProcessOf s handle (events, o)) :
    ∀ e ∈ events, e.number = none ∧ ∀ f, e ≠ .search f := by
  cases h with
  | current => simp
  | named => simp [Event.number]
  | refused _ _ _ hout =>
    intro e he
    cases e with
    | copyOut h => exact absurd rfl (hout _ he h).1
    | search f => exact absurd rfl ((hout _ he 0).2 f)
    | getHandle => simp [Event.number]
    | read => simp [Event.number]
    | use => simp [Event.number]
    | effect => simp [Event.number]

/-- Neither a search nor a number for the user. -/
def Silent (events : List Event) : Prop :=
  ∀ e ∈ events, e.number = none ∧ ∀ f, e ≠ .search f

theorem Silent.append {events' : List Event} (h : Silent events) (h' : Silent events') :
    Silent (events ++ events') := by
  intro e he
  obtain he | he := List.mem_append.mp he
  · exact h e he
  · exact h' e he

theorem silent_useProcess (process : Option ℕ) : Silent [useProcess process] := by
  cases process <;> simp [Silent, useProcess, Event.number]

theorem Silent.numbers (h : Silent events) (rest : List Event) :
    (events ++ rest).filterMap Event.number = rest.filterMap Event.number := by
  rw [List.filterMap_append, List.filterMap_eq_nil_iff.mpr fun e he => (h e he).1]
  rfl

theorem Silent.copyOut_mem (h : Silent events) {rest : List Event} {n : BitVec 64} :
    .copyOut n ∈ events ++ rest ↔ .copyOut n ∈ rest := by
  rw [List.mem_append, or_iff_right]
  intro hmem
  have hnone := (h _ hmem).1
  cases hnone

theorem Silent.search_mem (h : Silent events) {rest : List Event} {f : Option (BitVec 64)} :
    .search f ∈ events ++ rest ↔ .search f ∈ rest := by
  rw [List.mem_append, or_iff_right]
  intro hmem
  exact (h _ hmem).2 f rfl

/-- A call that installs one handle, whose number it gives to the user. -/
theorem keeps_one (hw : WellFormed s owner) (hsilent : Silent events) {heapAlloc : HeapAlloc}
    {access type : BitVec 32} {desc : ℕ} {s' : State} (copied : XTResult)
    (hinstall : xtDuplicateHandle heapAlloc s ((xtFindFreeHandle s).getD 0) access type desc =
      (s', .success)) :
    KeepsHandles s ⟨s', events ++ [.search (xtFindFreeHandle s),
        .copyOut ((xtFindFreeHandle s).getD 0)],
      some (if copied.isError then copied else .success)⟩ ↔
      xtFindFreeHandle s ≠ none ∨ ¬ InUse s 0 ∧ copied.isError = true := by
  obtain ⟨hr, -⟩ | ⟨-, hi⟩ := hw.install hinstall
  · cases hr
  constructor
  · intro hkeeps
    have hfree := number_free.mp (hkeeps.unused _ (hsilent.copyOut_mem.mpr (by simp)))
    by_cases hfound : xtFindFreeHandle s = none
    · refine .inr ⟨hfree.resolve_left (not_not.mpr hfound), ?_⟩
      obtain ⟨r, hr, herror⟩ := hkeeps.fails (hsilent.search_mem.mpr (by simp [hfound]))
      by_contra hno
      rw [if_neg hno] at hr
      obtain rfl := Option.some.inj hr
      cases herror
    · exact .inl hfound
  · intro hfinds
    have hfree := number_free.mpr (hfinds.imp_right And.left)
    refine ⟨fun h hmem => ?_, ?_, hi.keeps_all hfree, fun hmem => ?_⟩
    · have hmem' := hsilent.copyOut_mem.mp hmem
      simp only [List.mem_cons, reduceCtorEq, List.not_mem_nil, or_false, false_or,
        Event.copyOut.injEq] at hmem'
      rwa [hmem']
    · rw [hsilent.numbers]
      exact List.nodup_singleton _
    · have hmem' := hsilent.search_mem.mp hmem
      simp only [List.mem_cons, reduceCtorEq, List.not_mem_nil, or_false, Event.search.injEq]
        at hmem'
      have herror := (hfinds.resolve_left (not_not.mpr hmem'.symm)).2
      exact ⟨copied, by rw [if_pos herror], herror⟩

theorem createProcess_keeps (hw : WellFormed s owner) (k : Kernel) (h : BitVec 64) :
    KeepsHandles s (xtUserCreateProcess k s h) := by
  rw [xtUserCreateProcess]
  have hp := processOf_spec hw k h
  generalize processOf k s h = o at hp
  obtain ⟨events, r⟩ := o
  have hsilent : Silent events := hp.silent
  cases r with
  | error r =>
    cases hp with
    | refused _ hr _ _ => exact keeps_failed (.refl s) hr fun e he => (hsilent e he).1
  | ok process =>
    have hbefore := hsilent.append (silent_useProcess process)
    dsimp only
    by_cases hdone : k.done.isError = true
    · rw [if_pos hdone]
      exact keeps_failed (.refl s) hdone fun e he => (hbefore e he).1
    rw [if_neg hdone]
    cases hfound : xtFindFreeHandle s with
    | none =>
      refine keeps_failed (.refl s) rfl fun e he => ?_
      obtain he | he := List.mem_append.mp he
      · exact (hbefore e he).1
      · rw [List.mem_singleton.mp he]
        rfl
    | some id =>
      dsimp only
      generalize hinstall : xtDuplicateHandle k.alloc s id 0 typeProcess k.object = out
      obtain ⟨s', r⟩ := out
      obtain ⟨hr, -, hsame⟩ | ⟨rfl, -⟩ := hw.install hinstall
      · rw [if_pos hr]
        refine keeps_failed hsame hr fun e he => ?_
        obtain he | he := List.mem_append.mp he
        · exact (hbefore e he).1
        · rw [List.mem_singleton.mp he]
          rfl
      · have hinstall' : xtDuplicateHandle k.alloc s ((xtFindFreeHandle s).getD 0) 0 typeProcess
            k.object = (s', .success) := by
          rw [hfound]
          exact hinstall
        have hone := (keeps_one hw hbefore k.copiedOut hinstall').mpr (.inl (by simp [hfound]))
        rw [hfound] at hone
        dsimp only
        rwa [if_neg (by simp [XTResult.isError]),
          List.append_assoc (events ++ [useProcess process])]

theorem forall_ok {X : Prop} {process : Option ℕ} :
    (∀ events' process', ((events, .ok process) : List Event × Except (Option XTResult) (Option ℕ)) =
      (events', .ok process') → X) ↔ X :=
  ⟨fun h => h _ _ rfl, fun h _ _ _ => h⟩

theorem executeProgram_keeps_iff (hw : WellFormed s owner) (k : Kernel) (h : BitVec 64) :
    KeepsHandles s (xtUserExecuteProgram k s h) ↔ (Call.executeProgram h).Finds k s := by
  rw [xtUserExecuteProgram]
  have hp := processOf_spec hw k h
  simp only [Call.Finds]
  generalize processOf k s h = o at hp
  obtain ⟨events, r⟩ := o
  have hsilent : Silent events := hp.silent
  cases r with
  | error r =>
    cases hp with
    | refused _ hr _ _ =>
      refine iff_of_true (keeps_failed (.refl s) hr fun e he => (hsilent e he).1) ?_
      rintro events' process ⟨⟩
  | ok process =>
    have heffect : Silent [.effect] := by simp [Silent, Event.number]
    have hbefore : Silent (events ++ [.effect, useProcess process]) :=
      hsilent.append (heffect.append (silent_useProcess process))
    rw [forall_ok]
    dsimp only
    by_cases hdone : k.done.isError = true
    · rw [if_pos hdone]
      exact iff_of_true (keeps_failed (.refl s) hdone fun e he => (hbefore e he).1) (.inl hdone)
    rw [if_neg hdone]
    simp only [hdone, false_or, Bool.false_eq_true]
    generalize hinstall : xtDuplicateHandle k.alloc s ((xtFindFreeHandle s).getD 0) 0 typeThread
      k.object = out
    obtain ⟨s', r⟩ := out
    obtain ⟨hr, -, hsame⟩ | ⟨rfl, -⟩ := hw.install hinstall
    · rw [if_pos hr]
      refine iff_of_true (keeps_failed hsame hr fun e he => ?_) fun s'' hs => ?_
      · obtain he | he := List.mem_append.mp he
        · exact (hbefore e he).1
        · rw [List.mem_singleton.mp he]
          rfl
      · obtain ⟨rfl, rfl⟩ := Prod.mk.inj hs
        cases hr
    · have hone := keeps_one hw hbefore k.copiedOut hinstall
      dsimp only
      rw [if_neg (by simp [XTResult.isError]),
        List.append_assoc (events ++ [.effect, useProcess process])]
      refine hone.trans ⟨fun h _ _ => h, fun h => h s' rfl⟩

/-- **Handles in use are kept**: in every reachable handle table, whatever the rest of the
    kernel answers, `xtUserCreateProcess` changes no handle in use and gives the user a number
    that was free, and `xtUserCreatePipe` and `xtUserExecuteProgram` do so exactly if their
    searches find a handle where the result is used. -/
theorem keepsHandles_iff {s : State} (hs : Reachable State.Initial State.Step s) (k : Kernel) :
    (KeepsHandles s (Call.createPipe.run k s) ↔ Call.createPipe.Finds k s) ∧
      ∀ h, KeepsHandles s ((Call.createProcess h).run k s) ∧
        (KeepsHandles s ((Call.executeProgram h).run k s) ↔ (Call.executeProgram h).Finds k s) := by
  obtain ⟨owner, hw⟩ := wellFormed_of_reachable hs
  exact ⟨createPipe_keeps_iff hw k, fun h =>
    ⟨createProcess_keeps hw k h, executeProgram_keeps_iff hw k h⟩⟩

/-- A process with a thread handle, number 0. -/
def oneThread : State := (xtDuplicateHandle smallAlloc emptyProcess 0 0 typeThread 0x1000).1

/-- With handle 0 in use, a pipe gets the numbers 1 and 2, and a process and a program leave
    handle 0 alone too. -/
theorem keepsHandles_oneThread : InUse oneThread 0 ∧
    KeepsHandles oneThread (Call.createPipe.run (smallKernel none) oneThread) ∧
    (Call.createPipe.run (smallKernel none) oneThread).events.filterMap Event.number = [1, 2] ∧
    KeepsHandles oneThread
      ((Call.createProcess currentProcess).run (smallKernel none) oneThread) ∧
    KeepsHandles oneThread
      ((Call.executeProgram currentProcess).run (smallKernel none) oneThread) := by
  have hs : Reachable State.Initial State.Step oneThread :=
    .next (.start (s := emptyProcess) rfl) ⟨smallAlloc, 0, 0, typeThread, 0x1000, rfl⟩
  have hfound : xtFindFreeHandle oneThread = some 1 := by decide +kernel
  obtain ⟨hpipe, hrest⟩ := keepsHandles_iff hs (smallKernel none)
  refine ⟨by decide +kernel, hpipe.mpr (.inr fun s' hs' => ?_), by decide +kernel,
    (hrest currentProcess).1, (hrest currentProcess).2.mpr fun _ _ _ => .inr fun _ _ => .inl ?_⟩
  · rw [hfound, Option.getD_some] at hs'
    have hfound' : xtFindFreeHandle s' = some 2 := by
      rw [show s' = _ from (congrArg Prod.fst hs').symm]
      decide +kernel
    rw [hfound, hfound']
    exact ⟨.inl (Option.some_ne_none 1),
      fun _ _ => ⟨Option.some_ne_none 1, Option.some_ne_none 2⟩⟩
  · rw [hfound]
    exact Option.some_ne_none 1

/-! ### A full table -/

/-- One system call. -/
def SyscallStep (s s' : State) : Prop := ∃ k c, s' = (Call.run k s c).state

/-- A kernel in which every allocation that can go through does. -/
noncomputable def anyKernel : Kernel :=
  ⟨none, 1, .success, .success, .success, .success, 0x1000, 0x2000, anyAlloc, anyAlloc⟩

/-- Handle 0 is in use, and the heap has room. -/
structure Filling (s : State) : Prop where
  reachable : Reachable State.Initial SyscallStep s
  wellFormed : ∃ owner, WellFormed s owner
  roomy : Roomy s
  zero : InUse s 0

/-- A handle that is a copy of handle 0. -/
theorem Filling.duplicate (h : Filling s) (i : Fin 512) :
    ∃ s', Filling s' ∧ s'.find [0, 0, 0, i] ≠ 0 ∧
      ∀ j, s.find [0, 0, 0, j] ≠ 0 → s'.find [0, 0, 0, j] ≠ 0 := by
  obtain ⟨owner, hw⟩ := h.wellFormed
  have hf := fetched hw 0
  generalize hfetch : fetch s 0 = f at hf
  cases hf with
  | rejected _ hno => exact absurd h.zero hno
  | missing _ hno => exact absurd h.zero hno
  | @found a d hacc ha hd hl =>
    obtain ⟨s', hinstall, hroomy⟩ := h.roomy.install (accepted_small i) d.access d.type d.desc
    obtain ⟨hr, -⟩ | ⟨-, hi⟩ := hw.install hinstall
    · cases hr
    have hrun : ((Call.duplicateHandle 0 currentProcess (small i)).run anyKernel s).state = s' := by
      have hnull : descriptorAt anyKernel s a = some d := by rw [descriptorAt_of_ne _ ha, hd]
      simp only [Call.run, xtUserDuplicateHandle, processOf, if_true, hfetch, XTResult.isError,
        Bool.false_eq_true, if_false, hnull, Option.all_none]
      rw [show anyKernel.alloc = anyAlloc from rfl, hinstall]
    have hkeeps : ∀ j, s.find [0, 0, 0, j] ≠ 0 → s'.find [0, 0, 0, j] ≠ 0 := by
      intro j hj hzero
      rw [← path_small j] at hj hzero
      exact hj ((hi.free _).mp hzero).1
    have hnew : s'.find [0, 0, 0, i] ≠ 0 := by
      rw [← path_small i]
      exact (inUse_iff.mp hi.inUse).2
    refine ⟨s', ⟨.next h.reachable ⟨anyKernel, _, hrun.symm⟩, hi.wellFormed, hroomy, ?_⟩, hnew,
      hkeeps⟩
    have hzero := (inUse_iff.mp h.zero).2
    exact inUse_iff.mpr ⟨hacc, hkeeps 0 hzero⟩

/-- A program in the first process gets handle 0. -/
theorem exists_filling : ∃ s, Filling s := by
  have hroomy : Roomy emptyProcess := ⟨0, fun _ _ => ⟨rfl, rfl⟩⟩
  obtain ⟨owner, hw⟩ := wellFormed_of_reachable (.start (s := emptyProcess) rfl)
  obtain ⟨s', hinstall, hroomy'⟩ := hroomy.install (show Accepted 0 by decide) 0 typeThread 0x1000
  have hrun : ((Call.executeProgram currentProcess).run anyKernel emptyProcess).state = s' := by
    have hfound : xtFindFreeHandle emptyProcess = some 0 := rfl
    have hcall : xtDuplicateHandle anyKernel.alloc emptyProcess 0 0 typeThread anyKernel.object =
        (s', .success) := hinstall
    have hdone : anyKernel.done = .success := rfl
    simp only [Call.run, xtUserExecuteProgram, processOf, if_true, hdone, Bool.false_eq_true,
      if_false, hfound, Option.getD_some, hcall, XTResult.isError]
  obtain ⟨hr, -⟩ | ⟨-, hi⟩ := hw.install hinstall
  · cases hr
  · exact ⟨s', .next (.start (s := emptyProcess) rfl) ⟨anyKernel, _, hrun.symm⟩, hi.wellFormed, hroomy',
      hi.inUse⟩

/-- System calls lead to a table whose first 512 handles are in use. -/
theorem exists_full : ∃ s, Filling s ∧ ∀ i, s.find [0, 0, 0, i] ≠ 0 := by
  have hupto : ∀ n, ∃ s, Filling s ∧ ∀ i : Fin 512, i.val < n → s.find [0, 0, 0, i] ≠ 0 := by
    intro n
    induction n with
    | zero =>
      obtain ⟨s, hs⟩ := exists_filling
      exact ⟨s, hs, fun i hi => absurd hi (Nat.not_lt_zero _)⟩
    | succ n ih =>
      obtain ⟨s, hs, hused⟩ := ih
      by_cases hn : n < 512
      · obtain ⟨s', hs', hnew, hkeeps⟩ := hs.duplicate ⟨n, hn⟩
        refine ⟨s', hs', fun i hi => ?_⟩
        obtain hlt | heq := Nat.lt_succ_iff_lt_or_eq.mp hi
        · exact hkeeps i (hused i hlt)
        · rwa [show i = ⟨n, hn⟩ from Fin.ext heq]
      · exact ⟨s, hs, fun i hi => hused i (by have := i.isLt; omega)⟩
  obtain ⟨s, hs, hused⟩ := hupto 512
  exact ⟨s, hs, fun i => hused i i.isLt⟩

/-- A pipe in a process whose first 512 handles are in use: the search finds nothing, both ends
    are installed under handle 0, which was in use, and the call succeeds. -/
theorem full_table_overwrites_zero :
    ∃ s k, Reachable State.Initial SyscallStep s ∧ InUse s 0 ∧
      .copyOut 0 ∈ (Call.createPipe.run k s).events ∧
      (Call.createPipe.run k s).result = some .success ∧
      ¬ KeepsHandles s (Call.createPipe.run k s) := by
  obtain ⟨s, hs, hused⟩ := exists_full
  obtain ⟨owner, hw⟩ := hs.wellFormed
  have hzero : Accepted 0 := by decide
  obtain ⟨s1, hinstall, hroomy1⟩ := hs.roomy.install hzero modeWrite typeFile 0x1000
  obtain ⟨hr, -⟩ | ⟨-, hi⟩ := hw.install hinstall
  · cases hr
  have hused1 : ∀ i, s1.find [0, 0, 0, i] ≠ 0 := by
    intro i hzero
    rw [← path_small i] at hzero
    exact hused i (by rw [← path_small i]; exact ((hi.free _).mp hzero).1)
  obtain ⟨s2, hinstall', -⟩ := hroomy1.install hzero modeRead typeFile 0x2000
  -- both searches fail and leave the number 0, which is installed and copied out
  have hrun : Call.createPipe.run anyKernel s =
      ⟨s2, [.effect, .search none, .copyOut 0, .search none, .copyOut 0], some .success⟩ := by
    have hcall : xtDuplicateHandle anyKernel.alloc s 0 modeWrite typeFile anyKernel.object =
        (s1, .success) := hinstall
    have hcall' : xtDuplicateHandle anyKernel.alloc' s1 0 modeRead typeFile anyKernel.object' =
        (s2, .success) := hinstall'
    have hdone : anyKernel.done = .success := rfl
    simp only [Call.run, xtUserCreatePipe, hdone, Bool.false_eq_true, if_false,
      xtFindFreeHandle_full hused, Option.getD_none, hcall, XTResult.isError,
      xtFindFreeHandle_full hused1, hcall']
    rfl
  refine ⟨s, anyKernel, hs.reachable, hs.zero, ?_⟩
  rw [hrun]
  exact ⟨by simp, rfl, fun hkeeps => hkeeps.unused 0 (by simp) hs.zero⟩

end XTOS.UserHandles

import XTOS.Vfat.Full

/-!
# The lock of an open file

`xtWriteFile` of `xtkernel/fs.c` takes the lock of the file around the driver's
`vfatWriteFile`, which calls `xtReadFile` and `xtWriteFile` on the same file to update
its directory entry. This is the kernel build, where the lock is an `XTRWLock`.

## Main definitions

- `FileCall` — the lock of the file as the calling thread sees it
- `xtLockFile`, `xtUnlockFile` — with the test of the non-blocking mode
- `xtWriteFile`, `xtReadFile` — the locked calls of the driver
- `NeverReacquires` — the thread never acquires the lock while it holds it

## Design notes

An acquire by a thread that holds the write lock does not end: `lock->readers` is `-1`
until the thread itself releases it. An acquire by a thread that does not hold the lock
ends when the others are done with it. The device is another file with its own lock.
-/

namespace XTOS.Vfat

open SysLib

/-- `XT_LOCK_READ` and `XT_LOCK_WRITE`. -/
inductive LockMode where
  | read
  | write
  deriving DecidableEq, Repr

/-- The lock of the file in a call. `free` is what the test of a non-blocking file finds
    while the thread does not hold the lock, `held` the mode in which the thread holds it,
    and `attempts` what was held at each call of `xtAcquireRead` or `xtAcquireWrite`. -/
structure FileCall where
  nonblock : Bool
  free : Bool
  held : Option LockMode
  attempts : List (Option LockMode)
  deriving DecidableEq

/-- A call before it takes the lock. -/
def FileCall.start (nonblock free : Bool) : FileCall := ⟨nonblock, free, none, []⟩

/-- `xtLockFile`; without a result the thread waits for itself. -/
def xtLockFile (c : FileCall) (mode : LockMode) : FileCall × Option XTResult :=
  let canLock := c.held = none ∧ c.free
  if c.nonblock ∧ ¬ canLock then (c, some .wouldBlock)
  else
    let c := { c with attempts := c.attempts ++ [c.held] }
    match c.held with
    | none => ({ c with held := some mode }, some .success)
    -- only the write lock is held across another call
    | some _ => (c, none)

/-- `xtUnlockFile`. -/
def xtUnlockFile (c : FileCall) : FileCall := { c with held := none }

/-- How a call ends: the lock, the device and the result, if it returns. -/
structure Ended where
  call : FileCall
  device : Device
  result : Option XTResult

/-- `xtWriteFile` around a driver. -/
def lockedWrite (driver : FileCall → Device → Ended) (c : FileCall) (d : Device) : Ended :=
  match xtLockFile c .write with
  | (c, none) => ⟨c, d, none⟩
  | (c, some r) =>
    if r.isError then ⟨c, d, some r⟩
    else
      let e := driver c d
      match e.result with
      | none => e
      | some _ => { e with call := xtUnlockFile e.call }

/-- `xtReadFile` around `vfatReadFile`, and the bytes it read. -/
def lockedRead (g : VfatFSData) (c : FileCall) (d : Device) (first offset count : ℕ) :
    FileCall × Option XTResult × List UInt8 :=
  match xtLockFile c .read with
  | (c, none) => (c, none, [])
  | (c, some r) =>
    if r.isError then (c, some r, [])
    else
      let (r, bytes) := readChain g d first offset count
      (xtUnlockFile c, some r, bytes)

/-- The last part of `vfatWriteFile`, on the same file with `parentCluster` as its chain. The
    nested `xtWriteFile` finds `EOC` there, so the driver ends after the chain. -/
def updateEntryLocked (g : VfatFSData) (c : FileCall) (d : Device) (file : VfatFileData)
    (size time date : ℕ) (r : XTResult) : Ended :=
  match lockedRead g c d file.parentCluster (file.index * 32) 32 with
  | (c, none, _) => ⟨c, d, none⟩
  | (c, some _, bytes) =>
    let sfn := slotBuffer bytes
    if sfnAttributes sfn &&& subdir = 0 then
      let entry := load (touchEntry sfn size time date) 0 32
      let e := lockedWrite (fun c d =>
        let (d, r, _) := writeChain g d file.parentCluster entry (file.index * 32)
        ⟨c, d, some r⟩) c d
      { e with result := e.result.map fun _ => r }
    else ⟨c, d, some r⟩

/-- `vfatWriteFile` in the kernel build. -/
def vfatWriteFileLocked (g : VfatFSData) (file : VfatFileData) (data : List UInt8)
    (offset time date : ℕ) (c : FileCall) (d : Device) : Ended :=
  match writeChain g d file.firstCluster data offset with
  | (d, r, none) => ⟨c, d, some r⟩
  | (d, r, some written) =>
    if file.parentCluster ≠ eoc then updateEntryLocked g c d file (offset + written) time date r
    else ⟨c, d, some r⟩

/-- `xtWriteFile` on a file of the volume; a null `data` is refused. -/
def xtWriteFile (g : VfatFSData) (c : FileCall) (d : Device) (file : VfatFileData)
    (data : Option (List UInt8)) (offset time date : ℕ) : Ended :=
  match data with
  | none => ⟨c, d, some .invalidParameter⟩
  | some data => lockedWrite (vfatWriteFileLocked g file data offset time date) c d

/-- The thread never acquires the lock while it holds it, and the call returns. -/
def NeverReacquires (e : Ended) : Prop := (∀ held ∈ e.call.attempts, held = none) ∧ e.result.isSome

/-- The driver gets to the directory entry: the file has one, and the chain could be made
    long enough for the data. -/
def UpdatesEntry (g : VfatFSData) (d : Device) (file : VfatFileData) (data : List UInt8)
    (offset : ℕ) : Prop :=
  file.parentCluster ≠ eoc ∧ (writeChain g d file.firstCluster data offset).2.2.isSome

/-! ### When the driver gets to the entry -/

variable {g : VfatFSData} {d : Device} {l : List ℕ}

/-- The space that the volume has for a file, up to the end of the cluster that the writer asks for
    behind the data. In the place of its first cluster a file without clusters stores nothing. -/
def HasSpace (g : VfatFSData) (d : Device) (l : List ℕ) (size offset : ℕ) : Prop :=
  (l ≠ [] → seekOffset g offset + size < capacity g d l) ∧
    (l = [] → clusterSize g ≤ seekOffset g offset →
      seekOffset g offset + size < capacity g d [] + clusterSize g)

/-- The driver gets to the entry of a file that has one exactly if there is space for the data. -/
theorem updatesEntry_iff (hl : Layout g d.size) {file : VfatFileData} {data : List UInt8}
    {offset : ℕ} (h : FileChain g d file.firstCluster l)
    (hdevice : l = [] → d.size ≤ g.dataOffset + clusterIndex 0 * clusterSize g) :
    UpdatesEntry g d file data offset ↔
      file.parentCluster ≠ eoc ∧ HasSpace g d l data.length offset := by
  have hpos := hl.clusterSize_pos
  have hword : seekOffset g offset / clusterSize g < 2 ^ 32 := by
    rw [seekOffset_div hpos]
    exact Nat.mod_lt _ (by decide)
  rw [UpdatesEntry, writeChain_seekOffset hpos]
  refine and_congr_right fun _ => ?_
  rcases hcall : writeChain g d file.firstCluster data (seekOffset g offset) with ⟨d', r, w⟩
  by_cases hne : l = []
  · subst hne
    rw [h.first_zero] at hcall
    by_cases hfirst : seekOffset g offset < clusterSize g
    · rw [writeChain_empty hfirst (hdevice rfl)] at hcall
      cases hcall
      exact iff_of_true rfl ⟨fun hne => absurd rfl hne, fun _ hle => absurd hfirst (by omega)⟩
    rw [Nat.not_lt] at hfirst
    obtain ⟨rfl, hspace⟩ | ⟨-, rfl, hlack⟩ := writeChain_behind hl hfirst hword hcall
    · refine iff_of_true ?_ ⟨fun hne => absurd rfl hne, fun _ _ => hspace⟩
      cases w with
      | none => exact absurd (writeChain_none hcall) (by decide)
      | some n => rfl
    · refine iff_of_false Bool.false_ne_true fun hhas => ?_
      have hspace := hhas.2 rfl hfirst
      omega
  · obtain ⟨-, rfl, hspace⟩ | ⟨-, rfl, -, -, -, hlack⟩ :=
      writeChain_result hl (h.chain hne) hne hword hcall
    · exact iff_of_true rfl ⟨fun _ => hspace, fun hnil => absurd hnil hne⟩
    · refine iff_of_false Bool.false_ne_true fun hhas => ?_
      have hspace := hhas.1 hne
      omega

/-! ### The nested calls -/

/-- A lock that the thread holds for writing, after one call of `xtAcquireWrite`. -/
def FileCall.writing (nonblock free : Bool) : FileCall :=
  ⟨nonblock, free, some .write, [none]⟩

theorem lockedWrite_start (driver : FileCall → Device → Ended) {nonblock free : Bool}
    (hfree : ¬ (nonblock = true ∧ free = false)) :
    lockedWrite driver (.start nonblock free) d =
      match (driver (.writing nonblock free) d).result with
      | none => driver (.writing nonblock free) d
      | some _ => { driver (.writing nonblock free) d with
                    call := xtUnlockFile (driver (.writing nonblock free) d).call } := by
  have hlock : xtLockFile (.start nonblock free) .write =
      (.writing nonblock free, some .success) := by
    cases nonblock <;> cases free <;> first | rfl | exact absurd ⟨rfl, rfl⟩ hfree
  rw [lockedWrite, hlock]
  rfl

theorem lockedWrite_start_busy (driver : FileCall → Device → Ended) :
    lockedWrite driver (.start true false) d = ⟨.start true false, d, some .wouldBlock⟩ := rfl

/-- A non-blocking file refuses both nested calls. -/
theorem updateEntryLocked_nonblock (free : Bool) (file : VfatFileData) (size time date : ℕ)
    (r : XTResult) :
    updateEntryLocked g (.writing true free) d file size time date r =
      ⟨.writing true free, d, some r⟩ := rfl

/-- On a blocking file the nested read waits for the lock that the thread holds. -/
theorem updateEntryLocked_blocking (free : Bool) (file : VfatFileData) (size time date : ℕ)
    (r : XTResult) :
    updateEntryLocked g (.writing false free) d file size time date r =
      ⟨⟨false, free, some .write, [none, some .write]⟩, d, none⟩ := rfl

/-- The driver under the lock: it comes back with the lock as it was, unless it gets to the
    entry of a blocking file. -/
theorem vfatWriteFileLocked_cases (file : VfatFileData) (data : List UInt8)
    (offset time date : ℕ) (nonblock free : Bool) :
    (∃ d' r, vfatWriteFileLocked g file data offset time date (.writing nonblock free) d =
        ⟨.writing nonblock free, d', some r⟩ ∧
      (nonblock = true ∨ ¬ UpdatesEntry g d file data offset)) ∨
    (∃ d', vfatWriteFileLocked g file data offset time date (.writing nonblock free) d =
        ⟨⟨false, free, some .write, [none, some .write]⟩, d', none⟩ ∧
      nonblock = false ∧ UpdatesEntry g d file data offset) := by
  rw [vfatWriteFileLocked, UpdatesEntry]
  rcases writeChain g d file.firstCluster data offset with ⟨d', r, - | w⟩
  · exact .inl ⟨d', r, rfl, .inr (by simp)⟩
  dsimp only
  by_cases hparent : file.parentCluster = eoc
  · rw [if_neg (by simpa using hparent)]
    exact .inl ⟨d', r, rfl, .inr (by simp [hparent])⟩
  rw [if_pos hparent]
  cases nonblock with
  | true => exact .inl ⟨d', r, updateEntryLocked_nonblock .., .inl rfl⟩
  | false => exact .inr ⟨d', updateEntryLocked_blocking .., rfl, hparent, rfl⟩

/-- **Writing a file** never takes its lock twice exactly when the file is non-blocking, or the
    driver does not get to its entry: on a sound volume, when it has none, or there is no space for
    the data. -/
theorem neverReacquires_iff (g : VfatFSData) (d : Device) (file : VfatFileData)
    (nonblock free : Bool) (data : Option (List UInt8)) (offset time date : ℕ) :
    (NeverReacquires (xtWriteFile g (.start nonblock free) d file data offset time date) ↔
      nonblock = true ∨ ∀ bytes, data = some bytes → ¬ UpdatesEntry g d file bytes offset) ∧
    ∀ l bytes, Layout g d.size → FileChain g d file.firstCluster l →
      (l = [] → d.size ≤ g.dataOffset + clusterIndex 0 * clusterSize g) →
      (UpdatesEntry g d file bytes offset ↔
        file.parentCluster ≠ eoc ∧ HasSpace g d l bytes.length offset) := by
  refine ⟨?_, fun l bytes hl h hdevice => updatesEntry_iff hl h hdevice⟩
  rcases data with - | bytes
  · simp [NeverReacquires, xtWriteFile, FileCall.start]
  rw [xtWriteFile]
  by_cases hbusy : nonblock = true ∧ free = false
  · obtain ⟨rfl, rfl⟩ := hbusy
    rw [lockedWrite_start_busy]
    simp [NeverReacquires, FileCall.start]
  rw [lockedWrite_start _ hbusy]
  obtain ⟨d', r, hcall, hcond⟩ | ⟨d', hcall, rfl, hcond⟩ :=
    vfatWriteFileLocked_cases (g := g) (d := d) file bytes offset time date nonblock free
  · rw [hcall]
    simpa [NeverReacquires, FileCall.writing, xtUnlockFile] using hcond
  · rw [hcall]
    simpa [NeverReacquires] using hcond

/-- More bytes than the small volume has clusters for: the driver gives up before the entry. -/
theorem neverReacquires_no_space : NeverReacquires (xtWriteFile smallVolume (.start false true)
    (smallDevice 0) ⟨1, 2, 3⟩ (some (List.replicate 66048 0x58)) 0 0 0) := by
  obtain ⟨hnever, hentry⟩ := neverReacquires_iff smallVolume (smallDevice 0) ⟨1, 2, 3⟩ false true
    (some (List.replicate 66048 0x58)) 0 0 0
  refine hnever.mpr (.inr fun bytes hbytes hupdates => ?_)
  obtain rfl := Option.some.inj hbytes
  obtain ⟨-, hspace, -⟩ := (hentry [3] _ (smallVolume_wellFormed 0).layout smallDevice_opened.chain
    fun hnil => absurd hnil (List.cons_ne_nil _ _)).mp hupdates
  have hcard : (freeClusters smallVolume (smallDevice 0)).card ≤ 128 :=
    (Finset.card_filter_le _ _).trans (Finset.card_range _).le
  have hsize : clusterSize smallVolume = 512 := rfl
  have hfull := hspace (List.cons_ne_nil _ _)
  rw [List.length_replicate, capacity, List.length_singleton, hsize] at hfull
  omega

/-- One byte for the file `A` of the small volume: the thread waits for its own lock. -/
theorem write_waits_for_itself :
    (xtWriteFile smallVolume (.start false true) (smallDevice 0) ⟨1, 2, 3⟩ (some [0x58]) 0 0 0).call =
        ⟨false, true, some .write, [none, some .write]⟩ ∧
      (xtWriteFile smallVolume (.start false true) (smallDevice 0) ⟨1, 2, 3⟩ (some [0x58]) 0 0
        0).result = none ∧
      ¬ NeverReacquires (xtWriteFile smallVolume (.start false true) (smallDevice 0) ⟨1, 2, 3⟩
        (some [0x58]) 0 0 0) := by
  have hcall : (xtWriteFile smallVolume (.start false true) (smallDevice 0) ⟨1, 2, 3⟩
      (some [0x58]) 0 0 0).call = ⟨false, true, some .write, [none, some .write]⟩ := by
    decide +kernel
  have hresult : (xtWriteFile smallVolume (.start false true) (smallDevice 0) ⟨1, 2, 3⟩
      (some [0x58]) 0 0 0).result = none := by
    decide +kernel
  refine ⟨hcall, hresult, fun hok => ?_⟩
  have hsome := hok.2
  rw [hresult] at hsome
  exact absurd hsome (by decide)

end XTOS.Vfat

import Mathlib.Data.List.GetD
import Mathlib.Logic.Function.Basic
import XTOS.Result

/-!
# Copying a file

`xtCopyFile` of `xtkernel/fs.c` with `xtReadFile`, `xtWriteFile` and `xtGetFileInfo`, over any
file system.

## Main definitions

- `XTFileIO`, `XTFile` — the functions of an opened file, on a state of the system
- `FileSystem` — what the bytes of the files are, and what the functions do to them
- `xtCopyFile` — the copy, with all its transfers
- `CopiesOrFails` — what a copy is for
- `GoesThrough` — no transfer of the loop fails or is short

## Main results

- `copyLoop_bytes` — what the destination holds after a loop that goes through
- `copyFile_iff` — when a copy does what it is for

## Design notes

The functions behind the pointers of an `XTFileIO` belong to the file systems. What a copy needs
of them is in `FileSystem`: a transfer that succeeds and is not short moved the bytes of the file,
and only a write changes the bytes of a file. Of a transfer that fails or is short nothing is
said. Nobody else writes to the two files during the copy.
-/

namespace XTOS.Fs.CopyFile

/-- The functions of an `XTFileIO` that a copy calls. A transfer gets the buffer, the offset and
    the size, and returns the number of bytes as well; `getFileInfo` returns what `FileSize` is
    afterwards, in an `XTFileInfo` that was all zeros. -/
structure XTFileIO (σ : Type) where
  writeFile : Option (List UInt8 → ℕ → ℕ → σ → XTResult × ℕ × σ)
  readFile : Option (List UInt8 → ℕ → ℕ → σ → XTResult × ℕ × List UInt8 × σ)
  getFileInfo : Option (σ → XTResult × ℕ × σ)
  closeFile : Option (σ → XTResult × σ)

/-- An opened `XTFile`: the file it stands for, its `IO`, its lock and its event. -/
structure XTFile (σ : Type) where
  file : ℕ
  io : Option <| XTFileIO σ
  lockFile : ℕ → σ → XTResult × σ
  unlockFile : ℕ → σ → σ
  resetEvent : σ → σ
  signalEvent : σ → σ

/-- `XT_LOCK_READ`. -/
def xtLockRead : ℕ := 0x01

/-- `XT_LOCK_WRITE`. -/
def xtLockWrite : ℕ := 0x02

/-- `XT_FILE_MODE_READ`. -/
def xtFileModeRead : ℕ := 0x01

/-- `XT_FILE_MODE_WRITE`. -/
def xtFileModeWrite : ℕ := 0x02

/-- A call of `xtReadFile` or `xtWriteFile`: its result, the bytes that were asked for and those
    that were transferred. -/
structure Transfer where
  result : XTResult
  size : ℕ
  count : ℕ
  deriving DecidableEq, Repr

/-- The transfer did not fail, and it is not short. -/
def Transfer.Whole (t : Transfer) : Prop := t.result = .success ∧ t.count = t.size

instance (t : Transfer) : Decidable t.Whole := inferInstanceAs (Decidable (_ ∧ _))

variable {σ : Type}

/-- `xtWriteFile`. -/
def xtWriteFile (f : XTFile σ) (data : List UInt8) (offset size : ℕ) (s : σ) : Transfer × σ :=
  match f.io.bind (·.writeFile) with
  | none => (⟨.notImplemented, size, 0⟩, s)
  | some writeFile =>
    let (locked, s) := f.lockFile xtLockWrite s
    if locked.isError then (⟨locked, size, 0⟩, s)
    else
      let (result, written, s) := writeFile data offset size s
      (⟨result, size, written⟩, f.unlockFile xtLockWrite (f.signalEvent s))

/-- `xtReadFile`. -/
def xtReadFile (f : XTFile σ) (data : List UInt8) (offset size : ℕ) (s : σ) :
    Transfer × List UInt8 × σ :=
  let s := f.resetEvent s
  match f.io.bind (·.readFile) with
  | none => (⟨.notImplemented, size, 0⟩, data, s)
  | some readFile =>
    let (locked, s) := f.lockFile xtLockRead s
    if locked.isError then (⟨locked, size, 0⟩, data, s)
    else
      let (result, read, data, s) := readFile data offset size s
      (⟨result, size, read⟩, data, f.unlockFile xtLockRead s)

/-- `xtGetFileInfo`, with `FileSize` of an `XTFileInfo` that was all zeros. -/
def xtGetFileInfo (f : XTFile σ) (s : σ) : XTResult × ℕ × σ :=
  match f.io.bind (·.getFileInfo) with
  | none => (.notImplemented, 0, s)
  | some getFileInfo => getFileInfo s

/-- `xtCloseFile`. -/
def xtCloseFile (f : XTFile σ) (s : σ) : XTResult × σ :=
  match f.io.bind (·.closeFile) with
  | none => (.notImplemented, s)
  | some closeFile => closeFile s

/-- `temp` of the loop. -/
def chunk (count : ℕ) : ℕ := if count < 512 then count else 512

/-- The loop of `xtCopyFile`, with the transfers it makes. A round takes at least one byte off
    `count`. -/
def copyLoop (fsource fdest : XTFile σ) : ℕ → ℕ → ℕ → List UInt8 → σ → List Transfer × σ
  | 0, _, _, _, s => ([], s)
  | fuel + 1, pos, count, buff, s =>
    if count = 0 then ([], s)
    else
      let temp := chunk count
      let (read, buff, s) := xtReadFile fsource buff pos temp s
      let (written, s) := xtWriteFile fdest buff pos temp s
      let (transfers, s) := copyLoop fsource fdest fuel (pos + temp) (count - temp)
        (List.replicate 512 0) s
      (read :: written :: transfers, s)

/-- What `xtCopyFile` returns, its transfers, and the state it leaves. -/
structure Copy (σ : Type) where
  result : XTResult
  transfers : List Transfer
  state : σ

/-- What holds of an opened file whatever its file system is: only a write changes the bytes of a
    file, a transfer that succeeds and is not short moved the bytes, and `FileSize` is the size of
    the file. -/
structure XTFile.Laws (f : XTFile σ) (bytes : σ → ℕ → ℕ → UInt8) (size : σ → ℕ → ℕ) : Prop where
  lock : ∀ l s, bytes (f.lockFile l s).2 = bytes s
  unlock : ∀ l s, bytes (f.unlockFile l s) = bytes s
  reset : ∀ s, bytes (f.resetEvent s) = bytes s
  signal : ∀ s, bytes (f.signalEvent s) = bytes s
  read : ∀ readFile, f.io.bind (·.readFile) = some readFile → ∀ data offset count s,
    bytes (readFile data offset count s).2.2.2 = bytes s ∧
    ((readFile data offset count s).1 = .success → (readFile data offset count s).2.1 = count →
      ∀ i < count, (readFile data offset count s).2.2.1.getD i 0 = bytes s f.file (offset + i))
  write : ∀ writeFile, f.io.bind (·.writeFile) = some writeFile → ∀ data offset count s,
    (writeFile data offset count s).1 = .success → (writeFile data offset count s).2.1 = count →
      bytes (writeFile data offset count s).2.2 = Function.update (bytes s) f.file fun i =>
        if offset ≤ i ∧ i < offset + count then data.getD (i - offset) 0 else bytes s f.file i
  info : ∀ getFileInfo, f.io.bind (·.getFileInfo) = some getFileInfo → ∀ s,
    bytes (getFileInfo s).2.2 = bytes s ∧
    ((getFileInfo s).1 = .success → (getFileInfo s).2.1 = size s f.file)
  close : ∀ closeFile, f.io.bind (·.closeFile) = some closeFile → ∀ s,
    bytes (closeFile s).2 = bytes s

/-- A file system: the bytes and the sizes of its files, and `xtOpenFile`, which changes no file. -/
structure FileSystem (σ : Type) where
  bytes : σ → ℕ → ℕ → UInt8
  size : σ → ℕ → ℕ
  xtOpenFile : List UInt8 → ℕ → σ → XTResult × XTFile σ × σ
  opened : ∀ path flags s, (xtOpenFile path flags s).1 = .success →
    (xtOpenFile path flags s).2.1.Laws bytes size
  open_bytes : ∀ path flags s, bytes (xtOpenFile path flags s).2.2 = bytes s
  open_size : ∀ path flags s, size (xtOpenFile path flags s).2.2 = size s

/-- `xtCopyFile`; `buff` is what its buffer holds at first. -/
def xtCopyFile (F : FileSystem σ) (source dest buff : List UInt8) (s : σ) : Copy σ :=
  let (opened, fsource, s) := F.xtOpenFile source xtFileModeRead s
  if opened.isError then ⟨opened, [], s⟩
  else
    let (opened, fdest, s) := F.xtOpenFile dest xtFileModeWrite s
    if opened.isError then ⟨opened, [], s⟩
    else
      let (_, count, s) := xtGetFileInfo fsource s
      let (transfers, s) := copyLoop fsource fdest count 0 count buff s
      let (_, s) := xtCloseFile fsource s
      let (_, s) := xtCloseFile fdest s
      ⟨.success, transfers, s⟩

/-- The `XTFile` of the source, and the state after it was opened. -/
def openSource (F : FileSystem σ) (source : List UInt8) (s : σ) : XTResult × XTFile σ × σ :=
  F.xtOpenFile source xtFileModeRead s

/-- The `XTFile` of the destination, which is opened after the source. -/
def openDest (F : FileSystem σ) (source dest : List UInt8) (s : σ) : XTResult × XTFile σ × σ :=
  F.xtOpenFile dest xtFileModeWrite (openSource F source s).2.2

/-- What a copy is for: after `XT_SUCCESS` the destination begins with the bytes that the source
    had at the call, and a transfer that fails or is short makes the copy fail. -/
structure CopiesOrFails (F : FileSystem σ) (source dest buff : List UInt8) (s : σ) : Prop where
  copies : (xtCopyFile F source dest buff s).result = .success →
    ∀ i < F.size s (openSource F source s).2.1.file,
      F.bytes (xtCopyFile F source dest buff s).state (openDest F source dest s).2.1.file i =
        F.bytes s (openSource F source s).2.1.file i
  fails : (∃ t ∈ (xtCopyFile F source dest buff s).transfers, ¬ t.Whole) →
    (xtCopyFile F source dest buff s).result.isError = true

/-- No transfer of the loop fails or is short, from a position on. -/
inductive GoesThrough (fsource fdest : XTFile σ) : ℕ → ℕ → List UInt8 → σ → Prop
  | done (pos : ℕ) (buff : List UInt8) (s : σ) : GoesThrough fsource fdest pos 0 buff s
  | chunk {pos count : ℕ} {buff data : List UInt8} {read written : Transfer} {s s' s'' : σ} :
      count ≠ 0 →
      xtReadFile fsource buff pos (chunk count) s = (read, data, s') → read.Whole →
      xtWriteFile fdest data pos (chunk count) s' = (written, s'') → written.Whole →
      GoesThrough fsource fdest (pos + chunk count) (count - chunk count)
        (List.replicate 512 0) s'' →
      GoesThrough fsource fdest pos count buff s

/-- A file cannot be opened; or every transfer goes through, and behind the `FileSize` that
    `xtGetFileInfo` leaves the destination has the bytes of the source already. -/
def GoesWell (F : FileSystem σ) (source dest buff : List UInt8) (s : σ) : Prop :=
  (openSource F source s).1 ≠ .success ∨ (openDest F source dest s).1 ≠ .success ∨
    let info := xtGetFileInfo (openSource F source s).2.1 (openDest F source dest s).2.2
    GoesThrough (openSource F source s).2.1 (openDest F source dest s).2.1 0 info.2.1 buff
      info.2.2 ∧
    ∀ i, info.2.1 ≤ i → i < F.size s (openSource F source s).2.1.file →
      F.bytes s (openDest F source dest s).2.1.file i =
        F.bytes s (openSource F source s).2.1.file i

variable {bytes : σ → ℕ → ℕ → UInt8} {size : σ → ℕ → ℕ} {f fsource fdest : XTFile σ}
  {buff data : List UInt8} {read written : Transfer} {pos count offset n fuel : ℕ} {s s' s'' : σ}

theorem chunk_le (count : ℕ) : chunk count ≤ count := by
  rw [chunk]
  split_ifs
  · exact le_rfl
  · omega

theorem chunk_pos (h : count ≠ 0) : 0 < chunk count := by
  rw [chunk]
  split_ifs
  · exact Nat.pos_of_ne_zero h
  · decide

theorem eq_success_of_isError {r : XTResult} (h : ¬ r.isError = true) : r = .success := by
  cases r with
  | success => rfl
  | _ => exact absurd rfl h

/-- A transfer with an error is not whole. -/
theorem not_whole_of_isError {r : XTResult} (h : r.isError = true) :
    ¬ (⟨r, n, count⟩ : Transfer).Whole := by
  rintro ⟨hsuccess, -⟩
  obtain rfl : r = .success := hsuccess
  cases h

/-! ### One transfer -/

/-- A read changes no file, and one that is whole gets the bytes of its file. -/
theorem xtReadFile_spec (hf : f.Laws bytes size)
    (h : xtReadFile f buff offset n s = (read, data, s')) :
    bytes s' = bytes s ∧ (read.Whole → ∀ i < n, data.getD i 0 = bytes s f.file (offset + i)) := by
  rw [xtReadFile] at h
  dsimp only at h
  cases hread : f.io.bind (·.readFile) with
  | none =>
    rw [hread] at h
    obtain ⟨rfl, hrest⟩ := Prod.mk.inj h
    obtain ⟨rfl, rfl⟩ := Prod.mk.inj hrest
    exact ⟨hf.reset s, fun hwhole => absurd hwhole (not_whole_of_isError rfl)⟩
  | some readFile =>
    rw [hread] at h
    dsimp only at h
    have hlock := (hf.lock xtLockRead (f.resetEvent s)).trans (hf.reset s)
    split_ifs at h with hlocked
    · obtain ⟨rfl, hrest⟩ := Prod.mk.inj h
      obtain ⟨rfl, rfl⟩ := Prod.mk.inj hrest
      exact ⟨hlock, fun hwhole => absurd hwhole (not_whole_of_isError hlocked)⟩
    · obtain ⟨rfl, hrest⟩ := Prod.mk.inj h
      obtain ⟨rfl, rfl⟩ := Prod.mk.inj hrest
      obtain ⟨hbytes, hmoved⟩ := hf.read readFile hread buff offset n
        (f.lockFile xtLockRead (f.resetEvent s)).2
      refine ⟨(hf.unlock _ _).trans (hbytes.trans hlock), fun hwhole i hi => ?_⟩
      rw [hmoved hwhole.1 hwhole.2 i hi, hlock]

/-- A write that is whole puts the data into its file and changes no other. -/
theorem xtWriteFile_spec (hf : f.Laws bytes size)
    (h : xtWriteFile f data offset n s = (written, s')) (hwhole : written.Whole) :
    bytes s' = Function.update (bytes s) f.file fun i =>
      if offset ≤ i ∧ i < offset + n then data.getD (i - offset) 0 else bytes s f.file i := by
  rw [xtWriteFile] at h
  cases hwrite : f.io.bind (·.writeFile) with
  | none =>
    rw [hwrite] at h
    obtain ⟨rfl, rfl⟩ := Prod.mk.inj h
    exact absurd hwhole (not_whole_of_isError rfl)
  | some writeFile =>
    rw [hwrite] at h
    dsimp only at h
    split_ifs at h with hlocked
    · obtain ⟨rfl, rfl⟩ := Prod.mk.inj h
      exact absurd hwhole (not_whole_of_isError hlocked)
    · obtain ⟨rfl, rfl⟩ := Prod.mk.inj h
      rw [hf.unlock, hf.signal, hf.write writeFile hwrite _ _ _ _ hwhole.1 hwhole.2, hf.lock]

theorem xtGetFileInfo_spec (hf : f.Laws bytes size) (s : σ) :
    bytes (xtGetFileInfo f s).2.2 = bytes s ∧
    ((xtGetFileInfo f s).1 = .success → (xtGetFileInfo f s).2.1 = size s f.file) := by
  rw [xtGetFileInfo]
  cases hinfo : f.io.bind (·.getFileInfo) with
  | none => exact ⟨rfl, nofun⟩
  | some getFileInfo => exact hf.info getFileInfo hinfo s

theorem xtCloseFile_spec (hf : f.Laws bytes size) (s : σ) :
    bytes (xtCloseFile f s).2 = bytes s := by
  rw [xtCloseFile]
  cases hclose : f.io.bind (·.closeFile) with
  | none => rfl
  | some closeFile => exact hf.close closeFile hclose s

/-- A whole chunk: the bytes of the source are in the destination now, which may be the same
    file. -/
theorem chunk_bytes (hsource : fsource.Laws bytes size) (hdest : fdest.Laws bytes size)
    (hread : xtReadFile fsource buff pos n s = (read, data, s')) (hreadWhole : read.Whole)
    (hwrite : xtWriteFile fdest data pos n s' = (written, s'')) (hwriteWhole : written.Whole) :
    bytes s'' = Function.update (bytes s) fdest.file fun i =>
      if pos ≤ i ∧ i < pos + n then bytes s fsource.file i else bytes s fdest.file i := by
  obtain ⟨hsame, hmoved⟩ := xtReadFile_spec hsource hread
  rw [xtWriteFile_spec hdest hwrite hwriteWhole, hsame]
  congr 1
  funext i
  split_ifs with hi
  · rw [hmoved hreadWhole (i - pos) (by omega), Nat.add_sub_cancel' hi.1]
  · rfl

/-! ### The loop -/

/-- The transfers of the loop are all whole exactly when the loop goes through. -/
theorem copyLoop_whole_iff (hfuel : count ≤ fuel) :
    (∀ t ∈ (copyLoop fsource fdest fuel pos count buff s).1, t.Whole) ↔
      GoesThrough fsource fdest pos count buff s := by
  induction fuel generalizing pos count buff s with
  | zero =>
    obtain rfl := Nat.le_zero.mp hfuel
    exact ⟨fun _ => .done pos buff s, fun _ => List.forall_mem_nil _⟩
  | succ fuel ih =>
    rw [copyLoop]
    by_cases hzero : count = 0
    · subst hzero
      rw [if_pos rfl]
      exact ⟨fun _ => .done pos buff s, fun _ => List.forall_mem_nil _⟩
    rw [if_neg hzero]
    have hpos := chunk_pos hzero
    rcases hread : xtReadFile fsource buff pos (chunk count) s with ⟨read, data, s'⟩
    rcases hwrite : xtWriteFile fdest data pos (chunk count) s' with ⟨written, s''⟩
    dsimp only
    rw [hread]
    dsimp only
    rw [hwrite]
    dsimp only
    rw [List.forall_mem_cons, List.forall_mem_cons, ih (by omega)]
    constructor
    · rintro ⟨hr, hw, hrest⟩
      exact .chunk hzero hread hr hwrite hw hrest
    · intro h
      cases h with
      | done => exact absurd rfl hzero
      | chunk _ hread' hr hwrite' hw hrest =>
        rw [hread] at hread'
        obtain ⟨rfl, hdata⟩ := Prod.mk.inj hread'
        obtain ⟨rfl, rfl⟩ := Prod.mk.inj hdata
        rw [hwrite] at hwrite'
        obtain ⟨rfl, rfl⟩ := Prod.mk.inj hwrite'
        exact ⟨hr, hw, hrest⟩

/-- **The loop.** When it goes through, the bytes of the source are in the destination as they
    were before it. -/
theorem copyLoop_bytes (hsource : fsource.Laws bytes size) (hdest : fdest.Laws bytes size)
    (hfuel : count ≤ fuel) (h : GoesThrough fsource fdest pos count buff s) :
    bytes (copyLoop fsource fdest fuel pos count buff s).2 =
      Function.update (bytes s) fdest.file fun i =>
        if pos ≤ i ∧ i < pos + count then bytes s fsource.file i else bytes s fdest.file i := by
  induction fuel generalizing pos count buff s with
  | zero =>
    obtain rfl := Nat.le_zero.mp hfuel
    simp only [Nat.add_zero, show ∀ i, ¬ (pos ≤ i ∧ i < pos) from fun i => by omega, if_false,
      Function.update_eq_self]
    rfl
  | succ fuel ih =>
    rw [copyLoop]
    cases h with
    | done =>
      rw [if_pos rfl]
      simp only [Nat.add_zero, show ∀ i, ¬ (pos ≤ i ∧ i < pos) from fun i => by omega, if_false,
        Function.update_eq_self]
    | @chunk _ _ _ data read written _ s' s'' hzero hread hr hwrite hw hrest =>
      have hpos := chunk_pos hzero
      have hle := chunk_le count
      have hchunk := chunk_bytes hsource hdest hread hr hwrite hw
      rw [if_neg hzero]
      dsimp only
      rw [hread]
      dsimp only
      rw [hwrite]
      dsimp only
      rw [ih (by omega) hrest, hchunk]
      -- behind the chunk the source is as it was, also when it is the destination
      have hbehind : ∀ i, pos + chunk count ≤ i →
          Function.update (bytes s) fdest.file (fun i => if pos ≤ i ∧ i < pos + chunk count then
            bytes s fsource.file i else bytes s fdest.file i) fsource.file i =
          bytes s fsource.file i := by
        intro i hi
        by_cases hsame : fsource.file = fdest.file
        · rw [hsame, Function.update_self]
          exact if_neg (by omega)
        · rw [Function.update_of_ne hsame]
      rw [Function.update_idem, Function.update_self]
      congr 1
      funext i
      split_ifs with hrest hall hfirst hall
      · exact hbehind i hrest.1
      · omega
      · rfl
      · omega
      · omega
      · rfl

/-! ### The copy -/

/-- The opens succeed, and the rest of the copy. -/
theorem xtCopyFile_opened (F : FileSystem σ) (source dest buff : List UInt8) (s : σ)
    (hsource : (openSource F source s).1 = .success)
    (hdest : (openDest F source dest s).1 = .success) :
    let fsource := (openSource F source s).2.1
    let fdest := (openDest F source dest s).2.1
    let info := xtGetFileInfo fsource (openDest F source dest s).2.2
    let loop := copyLoop fsource fdest info.2.1 0 info.2.1 buff info.2.2
    xtCopyFile F source dest buff s =
      ⟨.success, loop.1, (xtCloseFile fdest (xtCloseFile fsource loop.2).2).2⟩ := by
  have hdest' : (F.xtOpenFile dest xtFileModeWrite
      (F.xtOpenFile source xtFileModeRead s).2.2).1 = .success := hdest
  have hsource' : (F.xtOpenFile source xtFileModeRead s).1 = .success := hsource
  have hok : ¬ XTResult.success.isError = true := Bool.false_ne_true
  dsimp only
  rw [xtCopyFile]
  dsimp only
  rw [hsource', if_neg hok, hdest', if_neg hok]
  rfl

/-- What the destination holds after a copy whose loop goes through. -/
theorem xtCopyFile_bytes (F : FileSystem σ) (source dest buff : List UInt8) (s : σ)
    (hsource : (openSource F source s).1 = .success)
    (hdest : (openDest F source dest s).1 = .success) :
    let fsource := (openSource F source s).2.1
    let fdest := (openDest F source dest s).2.1
    let info := xtGetFileInfo fsource (openDest F source dest s).2.2
    GoesThrough fsource fdest 0 info.2.1 buff info.2.2 → ∀ i,
      F.bytes (xtCopyFile F source dest buff s).state fdest.file i =
        if i < info.2.1 then F.bytes s fsource.file i else F.bytes s fdest.file i := by
  intro fsource fdest info hthrough i
  have hlawsSource : fsource.Laws F.bytes F.size := F.opened _ _ _ hsource
  have hlawsDest : fdest.Laws F.bytes F.size := F.opened _ _ _ hdest
  have hbytes : F.bytes info.2.2 = F.bytes s :=
    (xtGetFileInfo_spec hlawsSource _).1.trans ((F.open_bytes _ _ _).trans (F.open_bytes _ _ _))
  rw [xtCopyFile_opened F source dest buff s hsource hdest]
  dsimp only
  rw [xtCloseFile_spec hlawsDest, xtCloseFile_spec hlawsSource,
    copyLoop_bytes hlawsSource hlawsDest le_rfl hthrough, Function.update_self, hbytes,
    Nat.zero_add]
  simp only [Nat.zero_le, true_and]

/-- A file is not opened: the copy fails before it transfers anything. -/
theorem xtCopyFile_failed (F : FileSystem σ) (source dest buff : List UInt8) (s : σ)
    (h : (openSource F source s).1 ≠ .success ∨ (openDest F source dest s).1 ≠ .success) :
    (xtCopyFile F source dest buff s).transfers = [] ∧
      (xtCopyFile F source dest buff s).result.isError = true := by
  rw [xtCopyFile]
  dsimp only
  split_ifs with hsource hdest
  · exact ⟨rfl, hsource⟩
  · exact ⟨rfl, hdest⟩
  · obtain hne | hne := h
    · exact absurd (eq_success_of_isError hsource) hne
    · exact absurd (eq_success_of_isError hdest) hne

/-- **Copying** does what it is for exactly if a file cannot be opened, or every transfer goes
    through and the destination has what lies behind the `FileSize` that `xtGetFileInfo` leaves.
    Nothing of the source lies there when `xtGetFileInfo` succeeds. -/
theorem copyFile_iff (F : FileSystem σ) (source dest buff : List UInt8) (s : σ) :
    (CopiesOrFails F source dest buff s ↔ GoesWell F source dest buff s) ∧
    ((openSource F source s).1 = .success →
      let info := xtGetFileInfo (openSource F source s).2.1 (openDest F source dest s).2.2
      info.1 = .success → info.2.1 = F.size s (openSource F source s).2.1.file) := by
  refine ⟨?_, fun hsource hinfo => ?_⟩
  swap
  · have hlaws : (openSource F source s).2.1.Laws F.bytes F.size := F.opened _ _ _ hsource
    have hsize : F.size (openDest F source dest s).2.2 = F.size s :=
      (F.open_size _ _ _).trans (F.open_size _ _ _)
    rw [(xtGetFileInfo_spec hlaws _).2 hinfo, hsize]
  by_cases hfailed : (openSource F source s).1 ≠ .success ∨ (openDest F source dest s).1 ≠ .success
  · obtain ⟨htransfers, herror⟩ := xtCopyFile_failed F source dest buff s hfailed
    refine iff_of_true ⟨fun hsuccess => ?_, fun _ => herror⟩ (hfailed.imp_right .inl)
    rw [hsuccess] at herror
    cases herror
  obtain ⟨hsource, hdest⟩ := not_or.mp hfailed
  rw [not_not] at hsource hdest
  have hcopy := xtCopyFile_opened F source dest buff s hsource hdest
  have hbytes := xtCopyFile_bytes F source dest buff s hsource hdest
  dsimp only at hcopy hbytes
  constructor
  · rintro ⟨hcopies, hfails⟩
    -- the copy succeeds, so every transfer was whole
    have hthrough := (copyLoop_whole_iff le_rfl).mp fun t ht => by
      by_contra hnot
      have herror := hfails ⟨t, by rw [hcopy]; exact ht, hnot⟩
      rw [hcopy] at herror
      cases herror
    refine .inr (.inr ⟨hthrough, fun i hle hi => ?_⟩)
    have hsame := hcopies (by rw [hcopy]) i hi
    rwa [hbytes hthrough i, if_neg (Nat.not_lt.mpr hle)] at hsame
  · rintro (hne | hne | ⟨hthrough, hbehind⟩)
    · exact absurd hsource hne
    · exact absurd hdest hne
    · refine ⟨fun _ i hi => ?_, fun ⟨t, ht, hnot⟩ => ?_⟩
      · rw [hbytes hthrough i]
        split_ifs with hlt
        · rfl
        · exact hbehind i (Nat.not_lt.mp hlt) hi
      · rw [hcopy] at ht
        exact absurd ((copyLoop_whole_iff le_rfl).mpr hthrough t ht) hnot

/-- A file of one byte. It can be read, or every read of it fails. -/
def smallFile (file : ℕ) (readable : Bool) : XTFile (ℕ → ℕ → UInt8) where
  file := file
  io := some {
    writeFile := some fun data offset size s => (.success, size, Function.update s file fun i =>
      if offset ≤ i ∧ i < offset + size then data.getD (i - offset) 0 else s file i)
    readFile := some fun data offset size s =>
      if readable then (.success, size, (List.range size).map fun i => s file (offset + i), s)
      else (.endOfFile, 0, data, s)
    getFileInfo := some fun s => (.success, 1, s)
    closeFile := none }
  lockFile _ s := (.success, s)
  unlockFile _ s := s
  resetEvent s := s
  signalEvent s := s

theorem smallFile_laws (file : ℕ) (readable : Bool) :
    (smallFile file readable).Laws (fun s => s) fun _ _ => 1 where
  lock _ _ := rfl
  unlock _ _ := rfl
  reset _ := rfl
  signal _ := rfl
  read readFile h data offset count s := by
    obtain rfl := Option.some.inj h
    cases readable with
    | false => exact ⟨rfl, nofun⟩
    | true =>
      refine ⟨rfl, fun _ _ i hi => ?_⟩
      dsimp only
      rw [if_pos rfl, List.getD_eq_getElem _ _ (by simpa using hi), List.getElem_map,
        List.getElem_range]
      rfl
  write writeFile h data offset count s _ _ := by
    obtain rfl := Option.some.inj h
    rfl
  info getFileInfo h s := by
    obtain rfl := Option.some.inj h
    exact ⟨rfl, fun _ => rfl⟩
  close closeFile h := nomatch h

/-- The path `/a` is file 0, and every other path is file 1. -/
def smallFiles (readable : Bool) : FileSystem (ℕ → ℕ → UInt8) where
  bytes s := s
  size _ _ := 1
  xtOpenFile path _ s := (.success, smallFile (if path = [0x2f, 0x61] then 0 else 1) readable, s)
  opened _ _ _ _ := smallFile_laws _ readable
  open_bytes _ _ _ := rfl
  open_size _ _ _ := rfl

/-- File 0 holds an `A`, and file 1 a `B`. -/
def letters (file _ : ℕ) : UInt8 := if file = 0 then 0x41 else 0x42

example : (xtCopyFile (smallFiles true) [0x2f, 0x61] [0x2f, 0x62] [] letters).state 1 0 = 0x41 := by
  decide

/-- A copy of `/a` to `/b` whose read fails: it succeeds, and leaves a zero in `/b`. -/
theorem copy_hides_failed_read :
    (xtCopyFile (smallFiles false) [0x2f, 0x61] [0x2f, 0x62] (List.replicate 512 0)
      letters).result = .success ∧
    (xtCopyFile (smallFiles false) [0x2f, 0x61] [0x2f, 0x62] (List.replicate 512 0)
      letters).transfers = [⟨.endOfFile, 1, 0⟩, ⟨.success, 1, 1⟩] ∧
    (xtCopyFile (smallFiles false) [0x2f, 0x61] [0x2f, 0x62] (List.replicate 512 0)
      letters).state 1 0 = 0 ∧
    ¬ CopiesOrFails (smallFiles false) [0x2f, 0x61] [0x2f, 0x62] (List.replicate 512 0)
      letters := by
  refine ⟨by decide, by decide, by decide, fun h => ?_⟩
  have hcopied := h.copies (by decide) 0 (by decide)
  revert hcopied
  decide

end XTOS.Fs.CopyFile

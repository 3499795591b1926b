import XTOS.Vfat.Delete

/-!
# The callers of the path search

`vfatOpenFile`, `vfatCreateFile`, `vfatDeleteFile` and `vfatOpenDirectory` of `drivers/vfat/main.c`
with the two pointers that `vfatFindFile` sets through its output parameters. Each caller clears its
pointers first, and none looks at the value that `vfatFindFile` returns.

## Main definitions

- `CallResult` — what a call comes to
- `FindOut` — the two pointers after the search
- `openFile`, `createFile`, `deleteFile`, `openDirectory` — the callers
- `MiddleFile` — a path with a regular file in front of another component
- `Refuses` — the callers return an error and change nothing

## Main results

- `createFile_toOption`, `deleteFile_toOption`, `openFile_toOption` — the callers are those of the
  other modules
- `not_refuses` — they use the null pointer, or give it on
-/

namespace XTOS.Vfat

open SysLib

/-! ### Null pointers -/

/-- What a call comes to: it returns, it uses a null pointer, or one of its loops never ends. -/
inductive CallResult (α : Type) where
  | returned (a : α)
  | nullPointer
  | endless

namespace CallResult

variable {α β : Type}

/-- What is returned, if anything is. -/
def toOption : CallResult α → Option α
  | returned a => some a
  | nullPointer => none
  | endless => none

/-- The rest of the function behind a part of it. -/
def bind : CallResult α → (α → CallResult β) → CallResult β
  | returned a, k => k a
  | nullPointer, _ => nullPointer
  | endless, _ => endless

instance : Monad CallResult where
  pure := returned
  bind := CallResult.bind

/-- A use of a pointer. -/
def deref : Option α → CallResult α
  | some a => returned a
  | none => nullPointer

/-- A part of the function that returns nothing when one of its loops never ends. -/
def ofLoop : Option α → CallResult α
  | some a => returned a
  | none => endless

@[simp] theorem returned_bind (a : α) (k : α → CallResult β) : (returned a >>= k) = k a := rfl

@[simp] theorem nullPointer_bind (k : α → CallResult β) :
    ((nullPointer : CallResult α) >>= k) = nullPointer := rfl

@[simp] theorem endless_bind (k : α → CallResult β) :
    ((endless : CallResult α) >>= k) = endless := rfl

@[simp] theorem toOption_ofLoop (a : Option α) : (ofLoop a).toOption = a := by
  cases a with
  | none => rfl
  | some a => rfl

end CallResult

open CallResult

/-! ### The callers -/

/-- `left` and `_dir` behind a call of `vfatFindFile`; `none` stands for the null pointer. -/
structure FindOut where
  left : Option (List UInt8)
  dir : Option VfatFileData

/-- The pointers that are set. -/
def FindResult.out : FindResult → FindOut
  | .unset => ⟨none, none⟩
  | .found dir left => ⟨some left, some dir⟩

/-- The call of `vfatFindFile`. -/
def findOut (g : VfatFSData) (d : Device) (path : List UInt8) : CallResult FindOut :=
  ofLoop ((vfatFindFile g d path).map FindResult.out)

/-- `vfatOpenFile`: `xtStringCmp` reads the first byte of `left`. -/
def openFile (g : VfatFSData) (d : Device) (name : List UInt8) :
    CallResult (Except XTResult VfatFileData) := do
  let out ← findOut g d name
  let left ← deref out.left
  if !xtStringCmp left [] 1 then return .error .notFound
  else
    let data ← deref out.dir
    let sfn := (slotAt g d data.firstCluster data.index).2
    return .ok ⟨data.index, data.firstCluster, sfnFirstCluster sfn⟩

/-- `vfatCreateFile` from the reservation of the cluster on. -/
def createIn (g : VfatFSData) (d : Device) (dir : VfatFileData) (left : List UInt8)
    (flags time date : ℕ) : Option (Device × XTResult) :=
  let firstCluster := findFreeCluster g d
  let d := setNextCluster g d firstCluster eoc
  match vfatFindFreeEntry g d dir.firstCluster with
  | none => none
  | some newIndex =>
    let info : XTFileInfo := ⟨left.take 256, 0, flags, time, date, time, date⟩
    let d := vfatSetFileInfo g d ⟨newIndex, dir.firstCluster, firstCluster⟩ info
    if flags &&& directoryFlag ≠ 0 then
      some (makeDirectory g d firstCluster dir.firstCluster time date, .success)
    else some (d, .success)

/-- `vfatCreateFile`: the first statement behind the search is `_dirData = _dir->data`. -/
def createFile (g : VfatFSData) (d : Device) (name : List UInt8) (flags time date : ℕ) :
    CallResult (Device × XTResult) := do
  let out ← findOut g d name
  let dir ← deref out.dir
  let left ← deref out.left
  if left = [] then return (d, .fileAlreadyExists)
  else if left.any isSeparator then return (d, .notFound)
  else ofLoop (createIn g d dir left flags time date)

/-- `vfatDeleteFile` from the read of the short entry on. -/
def deleteIn (g : VfatFSData) (d : Device) (file : VfatFileData) : Option (Device × XTResult) :=
  let sfn := Function.update (slotAt g d file.firstCluster file.index).2 0 deletedMark
  let d := writeSlot g d file.firstCluster file.index sfn
  let cleared := clearLfn g file.firstCluster file.index (file.index + 2) d (fun _ => 0) 0
  (freeLoop g (2 ^ 32 + 1) cleared.1 (sfnFirstCluster sfn)).map fun d => (d, .success)

/-- `vfatDeleteFile`: the first statement behind the search is `data = parentDir->data`. -/
def deleteFile (g : VfatFSData) (d : Device) (path : List UInt8) :
    CallResult (Device × XTResult) := do
  let out ← findOut g d path
  let file ← deref out.dir
  ofLoop (deleteIn g d file)

/-- `vfatOpenDirectory`: the pointer goes into the directory as it is. -/
def openDirectory (g : VfatFSData) (d : Device) (path : List UInt8) :
    CallResult (XTResult × Option VfatFileData) := do
  let out ← findOut g d path
  return (.success, out.dir)

variable {g : VfatFSData} {d : Device} {c : ℕ} {path : List UInt8}

/-! ### The same functions -/

theorem openFile_toOption (g : VfatFSData) (d : Device) (name : List UInt8) :
    (openFile g d name).toOption = vfatOpenFile g d name := by
  rw [openFile, vfatOpenFile, findOut]
  cases vfatFindFile g d name with
  | none => rfl
  | some r =>
    cases r with
    | unset => rfl
    | found dir left =>
      simp only [Option.map_some, FindResult.out, ofLoop, deref, returned_bind]
      split
      · rfl
      · rfl

theorem createFile_toOption (g : VfatFSData) (d : Device) (name : List UInt8)
    (flags time date : ℕ) :
    (createFile g d name flags time date).toOption = vfatCreateFile g d name flags time date := by
  rw [createFile, vfatCreateFile, findOut]
  cases vfatFindFile g d name with
  | none => rfl
  | some r =>
    cases r with
    | unset => rfl
    | found dir left =>
      simp only [Option.map_some, FindResult.out, deref]
      by_cases hnil : left = []
      · rw [if_pos hnil]
        simp only [ofLoop, returned_bind, if_pos hnil]
        rfl
      · by_cases hsep : left.any isSeparator = true
        · rw [if_neg hnil, if_pos hsep]
          simp only [ofLoop, returned_bind, if_neg hnil, if_pos hsep]
          rfl
        · rw [if_neg hnil, if_neg hsep]
          change ((if left = [] then _ else _ : CallResult (Device × XTResult))).toOption = _
          rw [if_neg hnil, if_neg hsep, toOption_ofLoop]
          rfl

theorem deleteFile_toOption (g : VfatFSData) (d : Device) (path : List UInt8) :
    (deleteFile g d path).toOption = vfatDeleteFile g d path := by
  rw [deleteFile, vfatDeleteFile, findOut]
  cases vfatFindFile g d path with
  | none => rfl
  | some r =>
    cases r with
    | unset => rfl
    | found file left =>
      simp only [Option.map_some, FindResult.out, ofLoop, deref, returned_bind]
      exact toOption_ofLoop _

/-! ### A file in the middle of a path -/

/-- The next component of a path. -/
def component (path : List UInt8) : List UInt8 :=
  (path.dropWhile isSeparator).takeWhile (!isSeparator ·)

/-- The path behind its next component. -/
def behind (path : List UInt8) : List UInt8 :=
  (path.dropWhile isSeparator).dropWhile (!isSeparator ·)

/-- The next component is that of an entry in the directory `c`, and it is not the last one. -/
structure Names (g : VfatFSData) (d : Device) (c : ℕ) (path : List UInt8) (sfn : Slot) : Prop where
  short : (component path).length ≤ 255
  entry : ∃ index, scanDir g d c (component path) (slotLimit g) 0 [] = some (some (index, sfn))
  more : (behind path).dropWhile isSeparator ≠ []

/-- A regular file stands in front of another component, here or below a directory of the path. -/
inductive MiddleFile (g : VfatFSData) (d : Device) : ℕ → List UInt8 → Prop
  | here {c : ℕ} {path : List UInt8} {sfn : Slot} (h : Names g d c path sfn)
      (hfile : sfnAttributes sfn &&& subdir = 0) : MiddleFile g d c path
  | deeper {c : ℕ} {path : List UInt8} {sfn : Slot} (h : Names g d c path sfn)
      (hdir : sfnAttributes sfn &&& subdir ≠ 0)
      (hrest : MiddleFile g d (sfnFirstCluster sfn) (behind path)) : MiddleFile g d c path

/-- Every caller returns an error, and no byte of the device changes. -/
structure Refuses (g : VfatFSData) (d : Device) (path : List UInt8) : Prop where
  atOpen : ∃ r, r ≠ .success ∧ openFile g d path = .returned (.error r)
  atCreate : ∀ flags time date, ∃ r, r ≠ .success ∧
    createFile g d path flags time date = .returned (d, r)
  atDelete : ∃ r, r ≠ .success ∧ deleteFile g d path = .returned (d, r)
  atOpenDirectory : ∃ r dir, r ≠ .success ∧ openDirectory g d path = .returned (r, dir)

theorem drop_component (path : List UInt8) :
    (path.dropWhile isSeparator).drop (component path).length = behind path := by
  conv_lhs =>
    rw [← List.takeWhile_append_dropWhile (p := (!isSeparator ·)) (l := path.dropWhile isSeparator)]
  exact List.drop_left

theorem component_ne_nil (h : path.dropWhile isSeparator ≠ []) : component path ≠ [] :=
  nextComponent_ne_nil h

theorem length_behind_lt (h : path.dropWhile isSeparator ≠ []) :
    (behind path).length < path.length := by
  rw [← drop_component]
  exact length_behind_name_lt h (List.length_pos_of_ne_nil (component_ne_nil h))

theorem Names.head {sfn : Slot} (h : Names g d c path sfn) : path.dropWhile isSeparator ≠ [] := by
  intro hnil
  refine h.more ?_
  rw [behind, hnil]
  rfl

/-- One component of the search. -/
theorem Names.findLoop {sfn : Slot} {current : VfatFileData} {fuel : ℕ}
    (h : Names g d current.firstCluster path sfn) : findLoop g d (fuel + 1) current path =
      if sfnAttributes sfn &&& subdir = 0 then some .unset
      else findLoop g d fuel { current with firstCluster := sfnFirstCluster sfn, index := 0 }
        (behind path) := by
  obtain ⟨index, hentry⟩ := h.entry
  have hmore := h.more
  rw [Vfat.findLoop]
  dsimp only
  rw [if_neg h.head, ← component, List.take_of_length_le h.short, hentry, drop_component]
  dsimp only
  rw [if_neg hmore]

/-- The search sets nothing. -/
theorem MiddleFile.findLoop {current : VfatFileData} {fuel : ℕ}
    (h : MiddleFile g d current.firstCluster path) (hfuel : path.length < fuel) :
    findLoop g d fuel current path = some .unset := by
  generalize hc : current.firstCluster = c at h
  induction h generalizing current fuel with
  | here hnames hfile =>
    obtain ⟨fuel, rfl⟩ : ∃ n, fuel = n + 1 := Nat.exists_eq_add_one.mpr (by omega)
    rw [Names.findLoop (hc ▸ hnames), if_pos hfile]
  | deeper hnames hdir _ ih =>
    obtain ⟨fuel, rfl⟩ : ∃ n, fuel = n + 1 := Nat.exists_eq_add_one.mpr (by omega)
    have hlen := length_behind_lt hnames.head
    rw [Names.findLoop (hc ▸ hnames), if_neg hdir]
    exact ih (by omega) rfl

/-- On a sound volume the step-by-step lookup ends at such a file. -/
theorem middleFile_of_walk (hs : SoundVolume g d) {fuel : ℕ} (hdir : IsDirectory g d c)
    (hfuel : path.length < fuel) (hlen : ∀ p ∈ partsFrom fuel path, p.1.length ≤ 255)
    (h : walk (entriesOf g d) c (partsFrom fuel path) = .notDirectory) : MiddleFile g d c path := by
  induction fuel generalizing c path with
  | zero => omega
  | succ fuel ih =>
    by_cases hnil : path.dropWhile isSeparator = []
    · rw [partsFrom, if_pos hnil] at h
      cases h
    have hparts : partsFrom (fuel + 1) path =
        (component path, path.dropWhile isSeparator) :: partsFrom fuel (behind path) := by
      rw [partsFrom, if_neg hnil, ← drop_component]
      rfl
    rw [hparts] at h hlen
    obtain ⟨hshort, hlen⟩ := List.forall_mem_cons.mp hlen
    have hbehind := length_behind_lt hnil
    have hscan := @scanDir_spec g d c (component path) hs.wellFormed (hs.directory c hdir)
    rw [walk] at h
    cases hfind : (entriesOf g d c).find? (·.name = component path) with
    | none =>
      rw [hfind] at h
      cases h
    | some e =>
      rw [hfind] at h hscan
      dsimp only at h
      by_cases hend : partsFrom fuel (behind path) = []
      · rw [if_pos hend] at h
        cases h
      rw [if_neg hend] at h
      have hmore : (behind path).dropWhile isSeparator ≠ [] := by
        intro hdone
        obtain ⟨fuel, rfl⟩ : ∃ n, fuel = n + 1 := Nat.exists_eq_add_one.mpr (by omega)
        rw [partsFrom, if_pos hdone] at hend
        exact hend rfl
      have hnames : Names g d c path e.sfn := ⟨hshort, ⟨e.index, hscan⟩, hmore⟩
      by_cases hsub : sfnAttributes e.sfn &&& subdir = 0
      · exact .here hnames hsub
      · rw [if_neg hsub] at h
        have hname : e.name = component path := by simpa using List.find?_some hfind
        exact .deeper hnames hsub (ih (hdir.sub (List.mem_of_find?_eq_some hfind)
          (by rw [hname]; exact component_ne_nil hnil) hsub) (by omega) hlen h)

theorem middleFile_of_lookup (hs : SoundVolume g d) (hlen : ∀ p ∈ parts path, p.1.length ≤ 255)
    (h : lookup g d path = .notDirectory) : MiddleFile g d g.rootDir.firstCluster path :=
  middleFile_of_walk hs .root (Nat.lt_succ_self _) hlen h

theorem MiddleFile.findOut (h : MiddleFile g d g.rootDir.firstCluster path) :
    findOut g d path = .returned ⟨none, none⟩ := by
  rw [Vfat.findOut, vfatFindFile, h.findLoop (Nat.lt_succ_self _)]
  rfl

/-- **A path with a regular file in the middle** is refused by none of the callers: three of them
    use the null pointer, and the fourth gives it on as an open directory. -/
theorem not_refuses (h : MiddleFile g d g.rootDir.firstCluster path) :
    openFile g d path = .nullPointer ∧
      (∀ flags time date, createFile g d path flags time date = .nullPointer) ∧
      deleteFile g d path = .nullPointer ∧
      openDirectory g d path = .returned (.success, none) ∧ ¬ Refuses g d path := by
  have hfind := h.findOut
  have hdirectory : openDirectory g d path = .returned (.success, none) := by
    rw [openDirectory, hfind]
    rfl
  refine ⟨?_, fun flags time date => ?_, ?_, hdirectory, fun hrefuses => ?_⟩
  · rw [openFile, hfind]
    rfl
  · rw [createFile, hfind]
    rfl
  · rw [deleteFile, hfind]
    rfl
  · obtain ⟨r, dir, hr, hcall⟩ := hrefuses.atOpenDirectory
    rw [hdirectory] at hcall
    cases hcall
    exact hr rfl

/-! ### The small volume -/

/-- The path `A/B`, where `A` is a regular file. -/
theorem smallDevice_middleFile : MiddleFile smallVolume (smallDevice 0)
    smallVolume.rootDir.firstCluster [0x41, 0x2f, 0x42] :=
  middleFile_of_lookup smallDevice_sound (by decide) (by decide +kernel)

theorem not_refuses_file :
    openFile smallVolume (smallDevice 0) [0x41, 0x2f, 0x42] = .nullPointer ∧
      ¬ Refuses smallVolume (smallDevice 0) [0x41, 0x2f, 0x42] := by
  obtain ⟨hopen, -, -, -, hrefuses⟩ := not_refuses smallDevice_middleFile
  exact ⟨hopen, hrefuses⟩

/-- Deleting `A/B` uses the null pointer, and opening it as a directory succeeds without one. -/
theorem middle_file_unnoticed :
    deleteFile smallVolume (smallDevice 0) [0x41, 0x2f, 0x42] = .nullPointer ∧
      openDirectory smallVolume (smallDevice 0) [0x41, 0x2f, 0x42] = .returned (.success, none) ∧
      ¬ Refuses smallVolume (smallDevice 0) [0x41, 0x2f, 0x42] := by
  have hfind := smallDevice_middleFile.findOut
  have hdelete : deleteFile smallVolume (smallDevice 0) [0x41, 0x2f, 0x42] = .nullPointer := by
    rw [deleteFile, hfind]
    rfl
  refine ⟨hdelete, by rw [openDirectory, hfind]; rfl, fun hrefuses => ?_⟩
  obtain ⟨r, -, hcall⟩ := hrefuses.atDelete
  rw [hdelete] at hcall
  cases hcall

end XTOS.Vfat

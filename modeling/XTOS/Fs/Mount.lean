import XTOS.Fs.Paths

/-!
# Mounting

`xtMount` of `xtkernel/fs.c` with `xtCreatePathNode` and `xtAppendPathNode`, and what a mount
that fails leaves of the tree.

## Main definitions

- `xtMount` — a file system is mounted on the node that a path leads to, or on a new node
- `devfsMount`, `tarMount`, `vfatMount` — the mount functions of the file systems
- `Unaffected` — the tree and the mount points are as before, and every path opens as before

## Main results

- `Unchanged.xtOpenFile_eq` — what is opened depends on the tree and its mount points only
- `mount_error_iff` — when every error leaves them as they were

## Design notes

A call through a null function or table has no result. The blocks that `xtHeapAlloc` hands
to a call are arguments of it.
-/

namespace XTOS.Fs

/-! ### The mount functions -/

/-- `devfsMount`. -/
def devfsMount (mp : XTMountPoint) : Except XTResult ℕ := .ok mp.data

/-- `tarMount`. -/
def tarMount (mp : XTMountPoint) : Except XTResult ℕ := .ok mp.data

/-- `vfatMount`, from what the read of the boot sector returns; `fsData` is the block of the
    volume's data. -/
def vfatMount (readBoot : ℕ → XTResult) (fsData : ℕ) (mp : XTMountPoint) : Except XTResult ℕ :=
  if (readBoot mp.device).isError then .error (readBoot mp.device) else .ok fsData

/-! ### `xtMount` -/

/-- The string at an address. -/
def cString (mem : ℕ → UInt8) : ℕ → ℕ → Option (List UInt8)
  | 0, _ => none
  | fuel + 1, p => if mem p = 0 then some [] else (cString mem fuel (p + 1)).map (mem p :: ·)

/-- The loop over `filesystems`, which goes on behind a match. -/
def findFileSystem (S : Mounts) (name : List UInt8) : Option ℕ :=
  (S.filesystems.filter fun i => xtStringCmp (S.fs i).name name 256).getLast?

/-- What the allocations of `xtMount` return: the blocks of the mount point and of the node,
    and whether there was memory for the name and for the list node. -/
structure MountBlocks where
  mp : Option ℕ
  node : Option ℕ
  name : Bool
  list : Bool
  deriving DecidableEq, Repr

/-- `xtCreatePathNode`. -/
def xtCreatePathNode (S : Mounts) (name : List UInt8) (mp : ℕ) (b : MountBlocks) :
    Mounts × Except XTResult ℕ :=
  match b.node with
  | none => (S, .error .outOfMemory)
  | some node =>
    if !b.name then (S, .error .outOfMemory)
    else ({ S with node := Function.update S.node node ⟨mp, name, []⟩ }, .ok node)

/-- `xtAppendPathNode`, which does not look at the result of `xtCreateList`. -/
def xtAppendPathNode (S : Mounts) (parent child : ℕ) (list : Bool) : Mounts :=
  if parent = 0 ∨ child = 0 ∨ list = false then S
  else
    { S with
      node := Function.update S.node parent
        { S.node parent with nodes := (S.node parent).nodes ++ [child] } }

/-- The call of a mount function. -/
def callMount (S : Mounts) (hook : XTMountPoint → Except XTResult ℕ) (mp : ℕ) :
    Mounts × XTResult :=
  match hook (S.mount mp) with
  | .error r => (S, r)
  | .ok data =>
    ({ S with mount := Function.update S.mount mp { S.mount mp with data := data } }, .success)

/-- `mp->fs` and `mp->device` set. -/
def Mounts.setMount (S : Mounts) (mp fs dev : ℕ) : Mounts :=
  { S with mount := Function.update S.mount mp { S.mount mp with fs := fs, device := dev } }

/-- The mount function of a file system. -/
def Mounts.hook (S : Mounts) (fs : ℕ) : Option (XTMountPoint → Except XTResult ℕ) :=
  (S.fs fs).io.bind (·.mount)

/-- `xtMount` on a node that is there. -/
def remount (S : Mounts) (node fs dev : ℕ) : Option (Mounts × XTResult) :=
  (S.hook fs).map fun hook =>
    callMount (S.setMount (S.node node).mp fs dev) hook (S.node node).mp

/-- `xtMount` on a new node, which becomes the root or a child of `parent`. -/
def mountNew (S : Mounts) (fs dev : ℕ) (b : MountBlocks) (parent : Option ℕ) (left : List UInt8) :
    Option (Mounts × XTResult) :=
  match b.mp, (S.fs fs).io with
  | none, _ => some (S, .outOfMemory)
  | some _, none => none
  | some mp, some io =>
    match io.mount with
    | none => some (S.setMount mp fs dev, .notImplemented)
    | some hook =>
      let (S, resultOfMount) := callMount (S.setMount mp fs dev) hook mp
      match xtCreatePathNode S left mp b with
      | (S, .error r) => some (S, r)
      | (S, .ok newPath) =>
        if resultOfMount.isError then some (S, resultOfMount)
        else
          match parent with
          | none => some ({ S with root := newPath }, .success)
          | some parent => some (xtAppendPathNode S parent newPath b.list, .success)

/-- `xtMount` of the path at an address. -/
def xtMount (S : Mounts) (mem : ℕ → UInt8) (fuel path : ℕ) (filesystemName : List UInt8)
    (dev : ℕ) (b : MountBlocks) : Option (Mounts × XTResult) :=
  match findFileSystem S filesystemName with
  | none => some (S, .notFound)
  | some fs =>
    if S.root = 0 then mountNew S fs dev b none []
    else
      (xtFindPathNode S mem fuel path).bind fun r =>
        match r.left with
        | none => remount S r.node fs dev
        | some left =>
          if mem left = 0 then remount S r.node fs dev
          else
            (cString mem fuel left).bind fun name =>
              if name.any isSeparator then some (S, .badName)
              else mountNew S fs dev b (some r.node) name

/-! ### What an error leaves -/

/-- The tree and its mount points are the same. -/
structure Unchanged (S S' : Mounts) : Prop where
  root : S'.root = S.root
  node : ∀ cs n, Reaches S S.root cs n → S'.node n = S.node n
  mount : ∀ cs n, Reaches S S.root cs n → S'.mount (S.node n).mp = S.mount (S.node n).mp
  fs : S'.fs = S.fs
  openedFiles : S'.openedFiles = S.openedFiles

/-- The tree and its mount points are the same, and every path opens as before. -/
structure Unaffected (S S' : Mounts) : Prop where
  unchanged : Unchanged S S'
  opens : ∀ rest fuel path flags, xtOpenFile S' rest fuel path flags =
    xtOpenFile S rest fuel path flags

/-- The blocks of a call are in no use by the tree. -/
structure Fresh (S : Mounts) (b : MountBlocks) : Prop where
  mp : ∀ cs n, Reaches S S.root cs n → b.mp ≠ some (S.node n).mp
  node : ∀ cs n, Reaches S S.root cs n → b.node ≠ some n

/-- The path leads to a node that is there, and the mount function fails on its mount point,
    with the new file system and device in it. -/
structure HookFails (S : Mounts) (mem : ℕ → UInt8) (fuel path : ℕ) (filesystemName : List UInt8)
    (dev : ℕ) (found : Found) (fs : ℕ) (e : XTResult) : Prop where
  hroot : S.root ≠ 0
  hfs : findFileSystem S filesystemName = some fs
  hfound : xtFindPathNode S mem fuel path = some found
  hleft : ∀ left ∈ found.left, mem left = 0
  hhook : ∃ hook, S.hook fs = some hook ∧
    hook { S.mount (S.node found.node).mp with fs := fs, device := dev } = .error e

/-- The mount function fails on a mount point whose file system or device is another one. -/
def FailsInPlace (S : Mounts) (mem : ℕ → UInt8) (fuel path : ℕ) (filesystemName : List UInt8)
    (dev : ℕ) : Prop :=
  ∃ found fs e, HookFails S mem fuel path filesystemName dev found fs e ∧ e.isError = true ∧
    ((S.mount (S.node found.node).mp).fs ≠ fs ∨ (S.mount (S.node found.node).mp).device ≠ dev)

variable {S S' : Mounts} {mem : ℕ → UInt8} {fuel path dev fs n : ℕ} {name : List UInt8}
  {b : MountBlocks} {r : XTResult}

theorem Reaches.append {cs ds : List (List UInt8)} {m k : ℕ} (h : Reaches S n cs m)
    (h' : Reaches S m ds k) : Reaches S n (cs ++ ds) k := by
  induction h with
  | here => exact h'
  | child hm _ ih => exact .child hm (ih h')

theorem Reaches.step {cs : List (List UInt8)} {m k : ℕ} (h : Reaches S n cs m)
    (hk : k ∈ (S.node m).nodes) : Reaches S n (cs ++ [(S.node k).name]) k :=
  h.append (.child hk (.here k))

/-- A search from a node of the tree ends at a node of the tree. -/
theorem findLoop_reaches {q node : ℕ} {left : Option ℕ} {found : Found}
    (h : findLoop S mem fuel node left q = some found)
    (hnode : ∃ cs, Reaches S S.root cs node) : ∃ cs, Reaches S S.root cs found.node := by
  induction fuel generalizing node left q found with
  | zero => cases h
  | succ fuel ih =>
    rw [findLoop] at h
    split_ifs at h with hzero
    · obtain rfl := Option.some.inj h
      exact hnode
    · dsimp only at h
      split_ifs at h with hname
      · obtain ⟨r', hr', rfl⟩ := Option.map_eq_some_iff.mp h
        have hreach : ∃ cs, Reaches S S.root cs r'.node := ih hr' hnode
        exact hreach
      · split at h
        · rename_i m hm
          obtain ⟨r', hr', rfl⟩ := Option.map_eq_some_iff.mp h
          obtain ⟨cs, hcs⟩ := hnode
          have hreach : ∃ cs, Reaches S S.root cs r'.node :=
            ih hr' ⟨_, hcs.step (List.mem_of_find?_eq_some hm)⟩
          exact hreach
        · obtain rfl := Option.some.inj h
          exact hnode

theorem xtFindPathNode_reaches {found : Found} (h : xtFindPathNode S mem fuel path = some found) :
    ∃ cs, Reaches S S.root cs found.node :=
  findLoop_reaches h ⟨[], .here _⟩

/-- The children that are looked at are those of before. -/
theorem Unchanged.child_eq (h : Unchanged S S') (hn : ∃ cs, Reaches S S.root cs n) :
    S'.child n name = S.child n name := by
  obtain ⟨cs, hcs⟩ := hn
  have hnames : ∀ m ∈ (S.node n).nodes, S'.node m = S.node m := fun m hm =>
    h.node _ m (hcs.step hm)
  rw [Mounts.child, Mounts.child, h.node cs n hcs]
  generalize (S.node n).nodes = ms at hnames
  induction ms with
  | nil => rfl
  | cons m ms ih =>
    rw [List.find?_cons, List.find?_cons, hnames m List.mem_cons_self,
      ih fun k hk => hnames k (List.mem_cons_of_mem _ hk)]

theorem Unchanged.findLoop_eq (h : Unchanged S S') {q : ℕ} {left : Option ℕ}
    (hn : ∃ cs, Reaches S S.root cs n) :
    findLoop S' mem fuel n left q = findLoop S mem fuel n left q := by
  induction fuel generalizing n left q with
  | zero => rfl
  | succ fuel ih =>
    rw [findLoop, findLoop]
    dsimp only
    rw [h.child_eq hn, ih hn]
    cases hchild : S.child n (copyName mem 255 q).1 with
    | none => rfl
    | some m =>
      obtain ⟨cs, hcs⟩ := hn
      simp only [ih ⟨_, hcs.step (List.mem_of_find?_eq_some hchild)⟩]

/-- **Opening a file** depends on the tree and its mount points only. -/
theorem Unchanged.xtOpenFile_eq (h : Unchanged S S') (rest : ℕ → UInt8) (fuel : ℕ)
    (path : List UInt8) (flags : ℕ) :
    xtOpenFile S' rest fuel path flags = xtOpenFile S rest fuel path flags := by
  have hfind : ∀ mem, xtFindPathNode S' mem fuel 0 = xtFindPathNode S mem fuel 0 := by
    intro mem
    rw [xtFindPathNode, xtFindPathNode, h.root]
    exact h.findLoop_eq ⟨[], .here _⟩
  rw [xtOpenFile, xtOpenFile]
  cases hnorm : xtNormalizePath path 4096 with
  | error e => rfl
  | ok buff =>
    have hopened : xtFindFile S' buff = xtFindFile S buff := by
      rw [xtFindFile, xtFindFile, h.openedFiles]
    simp only [hopened, hfind]
    cases xtFindFile S buff with
    | some file => rfl
    | none =>
      refine Option.map_congr fun found hfound => ?_
      obtain ⟨cs, hcs⟩ := xtFindPathNode_reaches hfound
      simp only [handOver, h.node cs _ hcs, h.mount cs _ hcs, h.fs]

theorem Unchanged.unaffected (h : Unchanged S S') : Unaffected S S' :=
  ⟨h, h.xtOpenFile_eq⟩

theorem Unchanged.refl (S : Mounts) : Unchanged S S :=
  ⟨rfl, fun _ _ _ => rfl, fun _ _ _ => rfl, rfl, rfl⟩

/-- Only the blocks of the call were written. -/
structure Outside (b : MountBlocks) (S S' : Mounts) : Prop where
  root : S'.root = S.root
  node : ∀ n, b.node ≠ some n → S'.node n = S.node n
  mount : ∀ m, b.mp ≠ some m → S'.mount m = S.mount m
  fs : S'.fs = S.fs
  openedFiles : S'.openedFiles = S.openedFiles

theorem Outside.unchanged (h : Outside b S S') (hfresh : Fresh S b) : Unchanged S S' where
  root := h.root
  node cs n hn := h.node n (hfresh.node cs n hn)
  mount cs n hn := h.mount _ (hfresh.mp cs n hn)
  fs := h.fs
  openedFiles := h.openedFiles

theorem setMount_outside {mp : ℕ} (hmp : b.mp = some mp) (fs dev : ℕ) :
    Outside b S (S.setMount mp fs dev) where
  root := rfl
  node _ _ := rfl
  mount m hm := by
    refine Function.update_of_ne ?_ _ _
    rintro rfl
    exact hm hmp
  fs := rfl
  openedFiles := rfl

theorem callMount_outside {mp : ℕ} {hook : XTMountPoint → Except XTResult ℕ}
    (hmp : b.mp = some mp) (h : Outside b S S') : Outside b S (callMount S' hook mp).1 := by
  rw [callMount]
  split
  · exact h
  · refine ⟨h.root, h.node, fun m hm => ?_, h.fs, h.openedFiles⟩
    have hne : m ≠ mp := by
      rintro rfl
      exact hm hmp
    exact (Function.update_of_ne hne _ _).trans (h.mount m hm)

theorem xtCreatePathNode_outside {mp : ℕ} (h : Outside b S S') :
    Outside b S (xtCreatePathNode S' name mp b).1 := by
  rw [xtCreatePathNode]
  split
  · exact h
  · rename_i node hnode
    split_ifs
    · exact h
    · refine ⟨h.root, fun n hn => ?_, h.mount, h.fs, h.openedFiles⟩
      have hne : n ≠ node := by
        rintro rfl
        exact hn hnode
      exact (Function.update_of_ne hne _ _).trans (h.node n hn)

/-- A mount on a new node that fails has written the blocks of the call only. -/
theorem mountNew_error {parent : Option ℕ} {left : List UInt8}
    (h : mountNew S fs dev b parent left = some (S', r)) (hr : r.isError = true) :
    Outside b S S' := by
  rw [mountNew] at h
  split at h
  · -- no block for the mount point
    obtain ⟨rfl, rfl⟩ := Prod.mk.inj (Option.some.inj h)
    exact ⟨rfl, fun _ _ => rfl, fun _ _ => rfl, rfl, rfl⟩
  · cases h
  · rename_i mp io hmp hio
    -- the new mount point is written before its mount function is called
    have hset := setMount_outside (S := S) hmp fs dev
    split at h
    · obtain ⟨rfl, rfl⟩ := Prod.mk.inj (Option.some.inj h)
      exact hset
    · rename_i hook hhook
      have hcreate : Outside b S (xtCreatePathNode (callMount _ hook mp).1 left mp b).1 :=
        xtCreatePathNode_outside (callMount_outside hmp hset)
      dsimp only at h
      split at h
      · rename_i S1 e heq
        rw [heq] at hcreate
        obtain ⟨rfl, rfl⟩ := Prod.mk.inj (Option.some.inj h)
        exact hcreate
      · rename_i S1 newPath heq
        rw [heq] at hcreate
        split_ifs at h with herror
        · obtain ⟨rfl, rfl⟩ := Prod.mk.inj (Option.some.inj h)
          exact hcreate
        · -- the mount succeeded, and so did the call
          split at h
          all_goals
            obtain ⟨rfl, rfl⟩ := Prod.mk.inj (Option.some.inj h)
            cases hr

/-- Setting the fields of a mount point of the tree leaves it as it was only if they had
    these values. -/
theorem setMount_unchanged {mp dev : ℕ} :
    (S.setMount mp fs dev).mount mp = S.mount mp ↔
      (S.mount mp).fs = fs ∧ (S.mount mp).device = dev := by
  simp only [Mounts.setMount, Function.update_self]
  constructor
  · intro h
    rw [← h]
    exact ⟨rfl, rfl⟩
  · rintro ⟨rfl, rfl⟩
    rfl

/-- A mount on a node of the tree that fails has set the file system and the device of its
    mount point. -/
theorem remount_error {node : ℕ} (h : remount S node fs dev = some (S', r)) (hr : r.isError = true) :
    S' = S.setMount (S.node node).mp fs dev ∧ ∃ hook, S.hook fs = some hook ∧
      hook { S.mount (S.node node).mp with fs := fs, device := dev } = .error r := by
  obtain ⟨hook, hhook, hcall⟩ := Option.map_eq_some_iff.mp h
  have hmount : (S.setMount (S.node node).mp fs dev).mount (S.node node).mp =
      { S.mount (S.node node).mp with fs := fs, device := dev } :=
    Function.update_self _ _ _
  rw [callMount, hmount] at hcall
  cases he : hook { S.mount (S.node node).mp with fs := fs, device := dev } with
  | error e =>
    rw [he] at hcall
    obtain ⟨rfl, rfl⟩ := Prod.mk.inj hcall
    exact ⟨rfl, hook, hhook, he⟩
  | ok data =>
    rw [he] at hcall
    obtain ⟨-, rfl⟩ := Prod.mk.inj hcall
    cases hr

/-- Everything a failed `xtMount` can have done: nothing but to the blocks of the call, or a
    mount function has failed on a node that was there. -/
theorem xtMount_error (h : xtMount S mem fuel path name dev b = some (S', r))
    (hr : r.isError = true) : Outside b S S' ∨
      ∃ found fs, HookFails S mem fuel path name dev found fs r ∧
        S' = S.setMount (S.node found.node).mp fs dev := by
  have hsame : Outside b S S := ⟨rfl, fun _ _ => rfl, fun _ _ => rfl, rfl, rfl⟩
  rw [xtMount] at h
  -- nothing is written before the file system is found
  cases hfs : findFileSystem S name with
  | none =>
    rw [hfs] at h
    obtain ⟨rfl, rfl⟩ := Prod.mk.inj (Option.some.inj h)
    exact .inl hsame
  | some fs =>
    rw [hfs] at h
    dsimp only at h
    split_ifs at h with hroot
    · exact .inl (mountNew_error h hr)
    · obtain ⟨found, hfound, h⟩ := Option.bind_eq_some_iff.mp h
      -- a path that was found as a whole is mounted again at its node
      cases hleft : found.left with
      | none =>
        rw [hleft] at h
        obtain ⟨hS', hook⟩ := remount_error h hr
        exact .inr ⟨found, fs, ⟨hroot, hfs, hfound, by simp [hleft], hook⟩, hS'⟩
      | some left =>
        rw [hleft] at h
        dsimp only at h
        split_ifs at h with hend
        · obtain ⟨hS', hook⟩ := remount_error h hr
          exact .inr ⟨found, fs, ⟨hroot, hfs, hfound, by simp [hleft, hend], hook⟩, hS'⟩
        · obtain ⟨s, -, h⟩ := Option.bind_eq_some_iff.mp h
          split_ifs at h with hsep
          · obtain ⟨rfl, rfl⟩ := Prod.mk.inj (Option.some.inj h)
            exact .inl hsame
          · exact .inl (mountNew_error h hr)

/-- A mount function that fails on a node that was there ends the call. -/
theorem HookFails.xtMount_eq {found : Found} {e : XTResult}
    (h : HookFails S mem fuel path name dev found fs e) :
    xtMount S mem fuel path name dev b = some (S.setMount (S.node found.node).mp fs dev, e) := by
  have hremount : remount S found.node fs dev =
      some (S.setMount (S.node found.node).mp fs dev, e) := by
    obtain ⟨hook, hhook, he⟩ := h.hhook
    have hmount : (S.setMount (S.node found.node).mp fs dev).mount (S.node found.node).mp =
        { S.mount (S.node found.node).mp with fs := fs, device := dev } :=
      Function.update_self _ _ _
    rw [remount, hhook, Option.map_some, callMount, hmount, he]
  rw [xtMount, h.hfs]
  dsimp only
  rw [if_neg h.hroot, h.hfound, Option.bind_some]
  cases hl : found.left with
  | none => exact hremount
  | some left =>
    dsimp only
    rw [if_pos (h.hleft left hl)]
    exact hremount

/-- **A mount that fails** leaves the tree, the mount points and what every path opens as
    they were, exactly when it is not the mount function that fails on a node that was there
    with another file system or device. -/
theorem mount_error_iff (S : Mounts) (mem : ℕ → UInt8) (fuel path : ℕ) (name : List UInt8)
    (dev : ℕ) (b : MountBlocks) (hfresh : Fresh S b) :
    (∀ S' r, xtMount S mem fuel path name dev b = some (S', r) → r.isError = true →
      Unaffected S S') ↔ ¬ FailsInPlace S mem fuel path name dev := by
  constructor
  · rintro hall ⟨found, fs, e, hfails, herror, hother⟩
    obtain ⟨cs, hcs⟩ := xtFindPathNode_reaches hfails.hfound
    obtain ⟨hf, hd⟩ :=
      setMount_unchanged.mp ((hall _ _ hfails.xtMount_eq herror).unchanged.mount cs _ hcs)
    obtain hne | hne := hother
    · exact hne hf
    · exact hne hd
  · intro hplace S' r h hr
    obtain hout | ⟨found, fs, hfails, rfl⟩ := xtMount_error h hr
    · exact (hout.unchanged hfresh).unaffected
    · -- the fields are set to the values they had
      have hsame : (S.mount (S.node found.node).mp).fs = fs ∧
          (S.mount (S.node found.node).mp).device = dev := by
        by_contra hcon
        rw [not_and_or] at hcon
        exact hplace ⟨found, fs, r, hfails, hr, hcon⟩
      have hmount : S.setMount (S.node found.node).mp fs dev = S := by
        obtain ⟨rfl, rfl⟩ := hsame
        simp [Mounts.setMount]
      rw [hmount]
      exact (Unchanged.refl S).unaffected

/-- The names `tarfs` and `vfat`. -/
def tarfsName : List UInt8 := [0x74, 0x61, 0x72, 0x66, 0x73]

def vfatName : List UInt8 := [0x76, 0x66, 0x61, 0x74]

/-- A root with `tarfs` mounted from device 7; device 0 is the null pointer. -/
def tarRoot : Mounts where
  root := 1
  node _ := ⟨11, [], []⟩
  mount _ := ⟨1, 7, 0⟩
  fs i :=
    if i = 1 then ⟨tarfsName, some ⟨true, false, some tarMount⟩⟩
    else ⟨vfatName, some ⟨true, true,
      some (vfatMount (fun d => if d = 0 then .invalidParameter else .success) 99)⟩⟩
  filesystems := [1, 2]
  openedFiles := []

theorem fresh_tarRoot : Fresh tarRoot ⟨some 12, some 2, true, true⟩ := by
  have hreach : ∀ cs n, Reaches tarRoot 1 cs n → n = 1 := by
    intro cs n h
    cases h with
    | here => rfl
    | child hm => cases hm
  refine ⟨fun cs n hn => ?_, fun cs n hn => ?_⟩
  · rw [hreach cs n hn]
    decide
  · rw [hreach cs n hn]
    decide

/-- A volume that cannot be read is not mounted on the new node `/a`. -/
theorem mount_error_new_node :
    ∃ S', xtMount tarRoot (buffer (pathBytes [[0x61]]) fun _ => 0) 9 0 vfatName 0
        ⟨some 12, some 2, true, true⟩ = some (S', .invalidParameter) ∧ Unaffected tarRoot S' := by
  refine ⟨_, rfl, (mount_error_iff tarRoot (buffer (pathBytes [[0x61]]) fun _ => 0) 9 0 vfatName 0
    ⟨some 12, some 2, true, true⟩ fresh_tarRoot).mpr ?_ _ _ rfl rfl⟩
  rintro ⟨found, fs, e, hfails, -⟩
  have hfound := hfails.hfound
  obtain rfl := Option.some.inj hfound
  exact absurd (hfails.hleft 1 rfl) (by decide)

/-- A volume that cannot be read is not mounted on the root either, but the root has its file
    system and its device from then on, and opens every file on it. -/
theorem mount_error_changes_root :
    ∃ S S' mem, Fresh S ⟨none, none, false, false⟩ ∧
      xtMount S mem 9 0 vfatName 0 ⟨none, none, false, false⟩ = some (S', .invalidParameter) ∧
      ¬ Unaffected S S' ∧ S.mount 11 = ⟨1, 7, 0⟩ ∧ S'.mount 11 = ⟨2, 0, 0⟩ := by
  refine ⟨tarRoot, _, buffer (pathBytes []) fun _ => 0, ⟨by simp, by simp⟩, rfl, fun h => ?_, rfl,
    rfl⟩
  exact absurd (h.unchanged.mount [] 1 (.here 1)) (by decide)

end XTOS.Fs

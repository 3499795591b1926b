import XTOS.Encodings
import XTOS.Strings
import XTOS.Vfat.File

/-!
# Directories of a volume

Long names, the search along a path and the creation of files: `vfatSetFileInfo`,
`vfatGetFileInfo`, `vfatFindFile`, `vfatFindFreeEntry`, `vfatCreateFile` and `vfatOpenFile` of
`drivers/vfat/main.c`.

## Main definitions

- `lfnSlot`, `writeLfn` — a name cut into long-name slots
- `lfnName`, `NameFits` — the name in the long-name slots in front of an entry, and that it fits
- `scanDir`, `vfatFindFile` — the search for a name and along a path
- `vfatSetFileInfo`, `vfatGetFileInfo`, `vfatCreateFile`, `vfatOpenFile`
- `vfatReadDirectory` — the listing of a directory

## Design notes

Strings are lists of bytes without the terminator. A directory is its first cluster. The
loops over the slots of a directory run for as many slots as a volume can have; a search
that takes longer follows a cycle of clusters and its result is `none`. The DOS time and
date of now and those kept in a file's information are 16-bit words.
-/

namespace XTOS.Vfat

open SysLib

/-! ### Slots -/

/-- A directory slot. -/
abbrev Slot := ℕ → UInt8

/-- `xtReadFile` of slot `index` of a directory into a zeroed entry. -/
def slotAt (g : VfatFSData) (d : Device) (dir index : ℕ) : XTResult × Slot :=
  let (r, bytes) := readChain g d dir (index * 32) 32
  (r, slotBuffer bytes)

/-- `xtWriteFile` of a slot. -/
def writeSlot (g : VfatFSData) (d : Device) (dir index : ℕ) (slot : Slot) : Device :=
  (writeChain g d dir (load slot 0 32) (index * 32)).1

/-- `ORed`: the bit of the last long-name slot of a name. -/
def lastLfn : ℕ := 0x40

/-- The attributes of a long-name slot. -/
def lfnAttributes : ℕ := 0x0f

/-- The first byte of a deleted slot. -/
def deletedMark : UInt8 := 0xe5

/-- More slots than the clusters of a volume hold. -/
def slotLimit (g : VfatFSData) : ℕ := maxCluster g * clusterSize g / 32 + 1

/-! ### Long names -/

/-- The units of a long-name slot: `name0`, `name1` and `name2`. -/
def lfnUnits (lfn : Slot) : List ℕ :=
  (List.range 5).map (fun k => loadLE lfn (1 + 2 * k) 2) ++
    (List.range 6).map (fun k => loadLE lfn (14 + 2 * k) 2) ++
    (List.range 2).map (fun k => loadLE lfn (28 + 2 * k) 2)

/-- The loop that copies the units of a slot behind those of the slots before it. -/
def appendUnits : List ℕ → List ℕ → List ℕ
  | acc, [] => acc
  | acc, u :: units =>
    if acc.length < 255 then
      if u = 0 ∨ u = 0xffff then acc else appendUnits (acc ++ [u]) units
    else acc

/-- The units in the collected long-name slots, from the last slot back to the first. -/
def runUnits (lfns : List Slot) : List ℕ :=
  lfns.reverse.foldl (fun acc lfn => appendUnits acc (lfnUnits lfn)) []

/-- The name in the collected long-name slots. Behind the first half of a pair at the end the code
    reads on over the terminator; here there are zeros. -/
def lfnName (lfns : List Slot) : List UInt8 := xtUTF16toUTF8 (runUnits lfns)

/-- The units end with the first half of a pair. -/
def Dangling : List ℕ → Bool
  | [] => false
  | high :: rest =>
    if 0xD800 ≤ high ∧ high ≤ 0xDBFF then
      match rest with
      | [] => true
      | _ :: rest => Dangling rest
    else Dangling rest

/-- A name that fits the 256 bytes of a buffer with its terminator. -/
structure NameFits (lfns : List Slot) : Prop where
  whole : Dangling (runUnits lfns) = false
  short : (lfnName lfns).length ≤ 255

instance (lfns : List Slot) : Decidable (NameFits lfns) :=
  decidable_of_iff (Dangling (runUnits lfns) = false ∧ (lfnName lfns).length ≤ 255)
    ⟨fun h => ⟨h.1, h.2⟩, fun h => ⟨h.whole, h.short⟩⟩

/-- One of the three arrays of a long-name slot, filled from unit `pos` on. -/
def lfnPart (wname : List ℕ) (pos remaining n : ℕ) : List ℕ :=
  (List.range n).map fun k =>
    if k < min remaining n then wname.getD (pos + k) 0
    else if k = min remaining n ∧ pos + k = wname.length then 0
    else 0xffff

/-- The bytes of 16-bit units. -/
def unitBytes (units : List ℕ) : List UInt8 := units.flatMap (leBytes 2)

/-- A long-name slot with the units from `pos` on. -/
def lfnSlot (order checksum : ℕ) (wname : List ℕ) (pos : ℕ) : List UInt8 :=
  let remaining := wname.length - pos
  let copy0 := min remaining 5
  let copy1 := min (remaining - copy0) 6
  [UInt8.ofNat order] ++ unitBytes (lfnPart wname pos remaining 5) ++
    [UInt8.ofNat lfnAttributes, 0, UInt8.ofNat checksum] ++
    unitBytes (lfnPart wname (pos + copy0) (remaining - copy0) 6) ++ [0, 0] ++
    unitBytes (lfnPart wname (pos + copy0 + copy1) (remaining - copy0 - copy1) 2)

/-- The units that the loop counts as written: those of `name2` are left out. -/
def lfnAdvance (wname : List ℕ) (pos : ℕ) : ℕ :=
  min (wname.length - pos) 5 + min (wname.length - pos - min (wname.length - pos) 5) 6

/-- `countOfLFNEntries`. -/
def lfnCount (wname : List ℕ) : ℕ := (wname.length + 12) / 13

/-- The loop of `vfatSetFileInfo` that writes the long-name slots, the last one first: `n`
    of them are still to be written, from unit `pos` on. -/
def writeLfn (g : VfatFSData) (dir freeIndex : ℕ) (wname : List ℕ) (checksum : ℕ) :
    ℕ → Device → ℕ → Device
  | 0, d, _ => d
  | n + 1, d, pos =>
    if pos < wname.length then
      let order := if n + 1 = lfnCount wname then (n + 1) ||| lastLfn else n + 1
      let d := (writeChain g d dir (lfnSlot order checksum wname pos) ((freeIndex + n) * 32)).1
      writeLfn g dir freeIndex wname checksum n d (pos + lfnAdvance wname pos)
    else d

/-! ### Short names -/

/-- `to_upper`. -/
def toUpper (ascii : UInt8) : UInt8 :=
  if ascii ≤ 0x7a ∧ 0x61 ≤ ascii then ascii - 0x61 + 0x41 else ascii

/-- `xtGetShortNameLength`. -/
def xtGetShortNameLength (name : List UInt8) : ℕ :=
  min (name.takeWhile (· ≠ 0x2e)).length 8

/-- The loop of `xtGetExtension`, from position `n` down; names are not empty. -/
def extensionDot (name : List UInt8) : ℕ → ℕ
  | 0 => 0
  | n + 1 => if 1 < n ∧ name.getD (n + 1) 0 ≠ 0x2e then extensionDot name n else n + 1

/-- `xtGetExtension`. -/
def xtGetExtension (name : List UInt8) : List UInt8 :=
  name.drop (extensionDot name name.length + 1)

/-- The eleven bytes of the short name. Only directories get an extension. -/
def shortName (name : List UInt8) (attributes : ℕ) : List UInt8 :=
  let base := (name.take (xtGetShortNameLength name)).map toUpper
  let ext := if attributes &&& subdir ≠ 0 then ((xtGetExtension name).take 3).map toUpper else []
  base ++ List.replicate (8 - base.length) 0x20 ++ ext ++ List.replicate (3 - ext.length) 0x20

/-- `calc_checksum`. -/
def calcChecksum (shortname : List UInt8) : ℕ :=
  shortname.foldl (fun sum b =>
    ((if sum &&& 1 ≠ 0 then 0x80 else 0) + (sum >>> 1) + b.toNat) % 256) 0

/-! ### The information of a file -/

/-- `XT_FILE_ATTRIBUTE_DIRECTORY`. -/
def directoryFlag : ℕ := 0x08

/-- The part of `XTFileInfo` that is kept in an entry. -/
structure XTFileInfo where
  name : List UInt8
  fileSize : ℕ
  flags : ℕ
  createTime : ℕ
  createDate : ℕ
  writeTime : ℕ
  writeDate : ℕ

/-- `vfatFileInfoToSFN`. -/
def vfatFileInfoToSFN (sfn : Slot) (info : XTFileInfo) : Slot :=
  let sfn := storeLE (storeLE sfn 14 2 info.createTime) 16 2 info.createDate
  let sfn := storeLE (storeLE sfn 22 2 info.writeTime) 24 2 info.writeDate
  if info.flags &&& directoryFlag ≠ 0 then
    Function.update sfn 11 (UInt8.ofNat (sfnAttributes sfn ||| subdir))
  else sfn

/-- The loop of `vfatSetFileInfo` over the long-name slots in front of the entry, which it
    marks as deleted: the number of them. The slot buffer keeps its content when a read
    fails. -/
def clearLfn (g : VfatFSData) (dir index : ℕ) : ℕ → Device → Slot → ℕ → Device × ℕ
  | 0, d, _, count => (d, count)
  | fuel + 1, d, slot, count =>
    let position := (index + (2 ^ 32 - count - 1)) % 2 ^ 32
    let slot := store slot 0 (readChain g d dir (position * 32) 32).2
    if sfnAttributes slot = lfnAttributes then
      let deleted := Function.update slot 0 deletedMark
      let d := writeSlot g d dir position deleted
      if (slot 0).toNat &&& lastLfn = 0 then clearLfn g dir index fuel d deleted (count + 1)
      else (d, count + 1)
    else (d, count)

/-- The short entry that `vfatSetFileInfo` writes: the old content of the slot with the new
    information, first cluster and name. -/
def newSfn (old : Slot) (firstCluster : ℕ) (info : XTFileInfo) : Slot :=
  let sfn := vfatFileInfoToSFN old info
  let sfn := storeLE sfn 28 4 info.fileSize
  let sfn := storeLE (storeLE sfn 26 2 (firstCluster &&& 0xffff)) 20 2 (firstCluster >>> 16)
  store sfn 0 (shortName info.name (sfnAttributes sfn))

/-- `wname` of `vfatSetFileInfo`: the units of a name up to the first zero, which also two bytes can
    encode. -/
def wideName (name : List UInt8) : List ℕ := cString (xtUTF8toUTF16 name)

/-- `vfatSetFileInfo`. -/
def vfatSetFileInfo (g : VfatFSData) (d : Device) (file : VfatFileData) (info : XTFileInfo) :
    Device :=
  let dir := file.parentCluster
  let sfn := newSfn (slotAt g d dir file.index).2 file.firstCluster info
  let cleared := clearLfn g dir file.index (file.index + 2) d (fun _ => 0) 0
  let freeIndex := (file.index + (2 ^ 32 - cleared.2)) % 2 ^ 32
  let checksum := calcChecksum (load sfn 0 11)
  let wname := wideName info.name
  let d := writeLfn g dir freeIndex wname checksum (lfnCount wname) cleared.1 0
  writeSlot g d dir (freeIndex + lfnCount wname) sfn

/-- The loop of `vfatGetFileInfo` over the long-name slots in front of the entry. -/
def collectLfn (g : VfatFSData) (d : Device) (dir index : ℕ) : ℕ → Slot → List Slot → List Slot
  | 0, _, lfns => lfns
  | fuel + 1, slot, lfns =>
    let position := (index + (2 ^ 32 - lfns.length - 1)) % 2 ^ 32
    let slot := store slot 0 (readChain g d dir (position * 32) 32).2
    if sfnAttributes slot = lfnAttributes then
      if (slot 0).toNat &&& lastLfn = 0 then
        collectLfn g d dir index fuel slot (lfns ++ [slot])
      else lfns ++ [slot]
    else lfns

/-- `vfatGetFileInfo`; the flags are added to those the caller passes in. -/
def vfatGetFileInfo (g : VfatFSData) (d : Device) (file : VfatFileData) (flags : ℕ) :
    XTFileInfo :=
  let dir := file.parentCluster
  let sfn := (slotAt g d dir file.index).2
  let flags := flags ||| 0x01
  let flags := if sfnAttributes sfn &&& subdir ≠ 0 then flags ||| directoryFlag else flags
  let flags := if sfnAttributes sfn &&& 0x01 = 0 then flags ||| 0x02 else flags
  { name := lfnName (collectLfn g d dir file.index (file.index + 2) sfn [])
    fileSize := sfnFileSize sfn
    flags := flags
    createTime := loadLE sfn 14 2
    createDate := loadLE sfn 16 2
    writeTime := loadLE sfn 22 2
    writeDate := loadLE sfn 24 2 }

/-! ### Paths -/

/-- The search for a name in a directory, from slot `index` on, with the long-name slots
    collected so far: the slot and the entry. -/
def scanDir (g : VfatFSData) (d : Device) (dir : ℕ) (name : List UInt8) :
    ℕ → ℕ → List Slot → Option (Option (ℕ × Slot))
  | 0, _, _ => none
  | fuel + 1, index, lfns =>
    let (r, sfn) := slotAt g d dir index
    if r ≠ .success ∨ sfn 0 = 0 then some none
    else if sfn 0 = deletedMark ∨ sfnAttributes sfn = lfnAttributes then
      scanDir g d dir name fuel (index + 1)
        (if sfnAttributes sfn = lfnAttributes ∧ lfns.length < 20 then lfns ++ [sfn] else [])
    else if xtStringCmp name (lfnName lfns) 256 then some (some (index, sfn))
    else scanDir g d dir name fuel (index + 1) []

/-- A `/` or a `\`. -/
def isSeparator (b : UInt8) : Bool := b == 0x2f || b == 0x5c

/-- What `vfatFindFile` leaves to its caller. -/
inductive FindResult where
  /-- A regular file in the middle of the path: nothing is set. -/
  | unset
  /-- The directory, with the index of the entry when it was found, and the rest of the
      path. -/
  | found (dir : VfatFileData) (left : List UInt8)

/-- The loop of `vfatFindFile`; every pass uses a byte of the path. -/
def findLoop (g : VfatFSData) (d : Device) :
    ℕ → VfatFileData → List UInt8 → Option FindResult
  | 0, current, path => some (.found current path)
  | fuel + 1, current, path =>
    let p := path.dropWhile isSeparator
    if p = [] then some (.found current [])
    else
      let name := (p.takeWhile (!isSeparator ·)).take 255
      let rest := p.drop name.length
      match scanDir g d current.firstCluster name (slotLimit g) 0 [] with
      | none => none
      | some none => some (.found current p)
      | some (some (index, sfn)) =>
        if rest.dropWhile isSeparator = [] then some (.found { current with index := index } rest)
        else if sfnAttributes sfn &&& subdir = 0 then some .unset
        else findLoop g d fuel { current with firstCluster := sfnFirstCluster sfn, index := 0 } rest

/-- `vfatFindFile`. -/
def vfatFindFile (g : VfatFSData) (d : Device) (path : List UInt8) : Option FindResult :=
  findLoop g d (path.length + 1) g.rootDir path

/-- The loop of `vfatFindFreeEntry`. -/
def findFreeEntryLoop (g : VfatFSData) (d : Device) (dir : ℕ) : ℕ → ℕ → Option ℕ
  | 0, _ => none
  | fuel + 1, index =>
    let sfn := (slotAt g d dir index).2
    if sfn 0 = 0 ∨ sfn 0 = deletedMark then some index
    else findFreeEntryLoop g d dir fuel (index + 1)

/-- `vfatFindFreeEntry`. -/
def vfatFindFreeEntry (g : VfatFSData) (d : Device) (dir : ℕ) : Option ℕ :=
  findFreeEntryLoop g d dir (slotLimit g) 0

/-! ### Creating and opening files -/

/-- The `.` and `..` entries. -/
def dotEntry (dots firstCluster time date : ℕ) : List UInt8 :=
  let name : List UInt8 := List.replicate dots 0x2e ++ List.replicate (11 - dots) 0x20
  let head : List UInt8 := [0x10, 0, 0]
  let gap : List UInt8 := [0, 0]
  name ++ head ++ leBytes 2 time ++ leBytes 2 date ++ gap ++ leBytes 2 (firstCluster >>> 16) ++
    gap ++ gap ++ leBytes 2 (firstCluster &&& 0xffff) ++ gap ++ gap

/-- The sectors of the new directory's first cluster, filled with zeros. -/
def zeroCluster (g : VfatFSData) (firstCluster : ℕ) : ℕ → Device → Device
  | 0, d => d
  | i + 1, d =>
    (zeroCluster g firstCluster i d).write
      (g.dataOffset + clusterIndex firstCluster * clusterSize g + i * 512) (List.replicate 512 0)

/-- The new directory: its `.` and `..` entries are written and then overwritten. -/
def makeDirectory (g : VfatFSData) (d : Device) (firstCluster parent time date : ℕ) : Device :=
  let d := (writeChain g d firstCluster (dotEntry 1 firstCluster time date) 0).1
  let d := (writeChain g d firstCluster (dotEntry 2 parent time date) 32).1
  zeroCluster g firstCluster g.sectorsPerCluster d

/-- `vfatCreateFile`; `none` when a search does not end, or when a regular file in the middle
    of the path leaves the directory pointer null. -/
def vfatCreateFile (g : VfatFSData) (d : Device) (name : List UInt8) (flags time date : ℕ) :
    Option (Device × XTResult) :=
  match vfatFindFile g d name with
  | none => none
  | some .unset => none
  | some (.found dir left) =>
    if left = [] then some (d, .fileAlreadyExists)
    else if left.any isSeparator then some (d, .notFound)
    else
      let firstCluster := findFreeCluster g d
      let d := setNextCluster g d firstCluster eoc
      match vfatFindFreeEntry g d dir.firstCluster with
      | none => none
      | some newIndex =>
        let info : XTFileInfo := ⟨left.take 256, 0, flags, time, date, time, date⟩
        let d := vfatSetFileInfo g d ⟨newIndex, dir.firstCluster, firstCluster⟩ info
        if flags &&& directoryFlag ≠ 0 then
          some (makeDirectory g d firstCluster dir.firstCluster time date, .success)
        else some (d, .success)

/-- `vfatOpenFile`. -/
def vfatOpenFile (g : VfatFSData) (d : Device) (name : List UInt8) :
    Option (Except XTResult VfatFileData) :=
  match vfatFindFile g d name with
  | none => none
  | some .unset => none
  | some (.found dir left) =>
    if !xtStringCmp left [] 1 then some (.error .notFound)
    else
      let sfn := (slotAt g d dir.firstCluster dir.index).2
      some (.ok ⟨dir.index, dir.firstCluster, sfnFirstCluster sfn⟩)

/-! ### Listing a directory -/

/-- The inner loop of `vfatReadDirectory`: the next slot that is not a long-name slot, from
    slot `index` on, the long-name slots in front of it and the index behind it. The buffer
    holds `limit` long-name slots; a failed read keeps the content of the slot. -/
def readEntry (readSlot : ℕ → List UInt8) (limit : ℕ) :
    ℕ → ℕ → Slot → List Slot → Option (ℕ × Slot × List Slot)
  | 0, _, _, _ => none
  | fuel + 1, index, slot, lfns =>
    let slot := store slot 0 (readSlot index)
    if sfnAttributes slot = lfnAttributes then
      if lfns.length < limit then readEntry readSlot limit fuel (index + 1) slot (lfns ++ [slot])
      else none
    else some (index + 1, slot, lfns)

/-- The slots of a directory, as far as they can be read. -/
def dirSlot (g : VfatFSData) (d : Device) (dir index : ℕ) : List UInt8 :=
  (readChain g d dir (index * 32) 32).2

/-- The outer loop of `vfatReadDirectory`: skip `pos` entries. -/
def skipEntries (readSlot : ℕ → List UInt8) (limit : ℕ) : ℕ → ℕ → Option ℕ
  | 0, index => some index
  | pos + 1, index =>
    match readEntry readSlot limit limit index (fun _ => 0) [] with
    | none => none
    | some (index, _, _) => skipEntries readSlot limit pos index

/-- `vfatSFNtoFileInfo` and the rest of the information of an entry. -/
def sfnFileInfo (name : List UInt8) (sfn : Slot) (flags : ℕ) : XTFileInfo :=
  let flags := flags ||| 0x01
  let flags := if sfnAttributes sfn &&& subdir ≠ 0 then flags ||| directoryFlag else flags
  let flags := if sfnAttributes sfn &&& 0x01 = 0 then flags ||| 0x02 else flags
  { name := name
    fileSize := sfnFileSize sfn
    flags := flags
    createTime := loadLE sfn 14 2
    createDate := loadLE sfn 16 2
    writeTime := loadLE sfn 22 2
    writeDate := loadLE sfn 24 2 }

/-- The entry behind `pos` others: `none` when the search runs on, the buffer of 20 long-name slots
    overflows, or the name is written over the fields behind it. -/
def entryAt (readSlot : ℕ → List UInt8) (limit pos flags : ℕ) :
    Option (Except XTResult XTFileInfo) :=
  match skipEntries readSlot limit pos 0 with
  | none => none
  | some index =>
    match readEntry readSlot 20 limit index (fun _ => 0) [] with
    | none => none
    | some (_, sfn, lfns) =>
      if sfn 0 = 0 then some (.error .endOfFile)
      else if NameFits lfns then some (.ok (sfnFileInfo (lfnName lfns) sfn flags))
      else none

/-- `vfatReadDirectory`. -/
def vfatReadDirectory (g : VfatFSData) (d : Device) (dir pos flags : ℕ) :
    Option (Except XTResult XTFileInfo) :=
  entryAt (dirSlot g d dir) (slotLimit g) pos flags

end XTOS.Vfat

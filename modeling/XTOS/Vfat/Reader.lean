import XTOS.Vfat.Locking

/-!
# Where and how far the reader reads

`vfatReadFile` of `drivers/vfat/main.c` computes the address of a cluster in 32 bits, and follows the
chain of a file without a look at the size in its entry.

## Main definitions

- `readerAddr` — the address the reader computes for a cluster
- `SameByte` — reader and writer agree on the byte of a file position
- `Listed` — a file of a directory, with or without clusters
- `readable` — the bytes that a read can return

## Main results

- `sameByte_iff` — reader and writer agree in the clusters that start below 4 GiB
- `readsWithin_iff` — when a read returns nothing behind the file's size
-/

namespace XTOS.Vfat

open SysLib

variable {g : VfatFSData} {d d' : Device} {c off k n : ℕ} {l l' dir : List ℕ} {file : VfatFileData}

/-! ### Addresses -/

/-- The address of a cluster, in 32 bits. -/
def readerAddr (g : VfatFSData) (c : ℕ) : ℕ :=
  (g.dataOffset + clusterIndex c * clusterSize g) % 2 ^ 32

/-- The reader's address of a cluster is the right one below 4 GiB, and a lower one behind. -/
theorem Chain.readerAddr_eq (hl : Layout g d.size) (h : Chain g d c l) {x : ℕ} (hx : x ∈ l) :
    readerAddr g x = cellAddr g x 0 % 2 ^ 32 := by
  rw [readerAddr, clusterIndex_eq (h.2 x hx).1 (h.lt_word hl hx)]
  rfl

theorem Chain.readerAddr_le (hl : Layout g d.size) (h : Chain g d c l) {x : ℕ} (hx : x ∈ l)
    (o : ℕ) : readerAddr g x + o ≤ cellAddr g x o := by
  have hmod := Nat.mod_le (cellAddr g x 0) (2 ^ 32)
  rw [h.readerAddr_eq hl hx]
  unfold cellAddr at hmod ⊢
  omega

/-- The reader gets whole chunks, if not the right ones. -/
theorem Chain.read_reader (hl : Layout g d.size) (h : Chain g d c l) {x : ℕ} (hx : x ∈ l) {o : ℕ}
    (hfit : o + n ≤ clusterSize g) :
    d.read (readerAddr g x + o) n = load d.bytes (readerAddr g x + o) n := by
  have hle := hl.cluster (h.2 x hx) hfit
  have haddr := h.readerAddr_le hl hx (o + n)
  exact d.read_eq (by omega)

/-- Reading one byte of a chain. -/
theorem readChain_one (hl : Layout g d.size) (h : Chain g d c l) (hk : k / clusterSize g < l.length) :
    readChain g d c k 1 =
      (.success, [d.bytes (readerAddr g l[k / clusterSize g] + k % clusterSize g)]) := by
  have hpos := hl.clusterSize_pos
  have hword := hk.trans (h.word hl)
  obtain ⟨hm0, hm, hfit⟩ := chunkLength_spec hpos k (show 1 ≠ 0 by decide)
  have hone : chunkLength g k 1 = 1 := by omega
  have hread := h.read_reader hl (List.getElem_mem hk) (by rw [hone] at hfit; exact hfit)
  have hloop : readLoop g d 1 l[k / clusterSize g] k 1 =
      [d.bytes (readerAddr g l[k / clusterSize g] + k % clusterSize g)] := by
    have haddr : (g.dataOffset + clusterIndex l[k / clusterSize g] * clusterSize g) % 2 ^ 32 =
        readerAddr g l[k / clusterSize g] := rfl
    rw [readLoop, if_neg (by decide)]
    dsimp only
    rw [hone, haddr, hread]
    simp [load, readLoop]
  rw [readChain, Nat.mod_eq_of_lt hword, seekChain_chain h hk]
  dsimp only
  rw [hloop]
  rfl

/-- A write at any offset stores a part of the data along the chain, grown or not. -/
theorem writeChain_wrote (hl : Layout g d.size) (h : Chain g d c l) (hne : l ≠ [])
    (data : List UInt8) (off : ℕ) :
    ∃ l' m, Wrote g d (writeChain g d c data off).1 c l l' (seekOffset g off) (data.take m) ∧
      (seekOffset g off < l.length * clusterSize g → data ≠ [] → m ≠ 0) := by
  have hpos := hl.clusterSize_pos
  have hword : seekOffset g off / clusterSize g < 2 ^ 32 := by
    rw [seekOffset_div hpos]
    exact Nat.mod_lt _ (by decide)
  rw [writeChain_seekOffset hpos]
  rcases hcall : writeChain g d c data (seekOffset g off) with ⟨d', r, - | w⟩
  · obtain ⟨l', hwrote, -, -⟩ := writeChain_none_spec hl h hne hword hcall
    refine ⟨l', _, hwrote, fun hlt _ => ?_⟩
    have hmono := Nat.mul_le_mul_right (clusterSize g) hwrote.grown.keep.length_le
    omega
  · obtain ⟨-, l', hwrote, -⟩ := writeChain_spec hl h hne hword hcall
    refine ⟨l', data.length, ?_, fun _ hdata => by simpa using hdata⟩
    rw [List.take_length]
    exact hwrote

theorem seekOffset_of_lt (hl : Layout g d.size) (h : Chain g d c l)
    (hk : k < l.length * clusterSize g) : seekOffset g k = k :=
  seekOffset_eq ((div_lt_of_lt_mul hk).trans (h.word hl))

/-- A file with clusters of its own, in a directory or not. -/
structure Separate (g : VfatFSData) (d : Device) (file : VfatFileData) (l : List ℕ) : Prop where
  chain : Chain g d file.firstCluster l
  parent : file.parentCluster = eoc ∨
    ∃ dir, Chain g d file.parentCluster dir ∧ dir ≠ [] ∧ l.Disjoint dir

/-- Reader and writer use byte `data_offset + (cluster - 2) * cluster_size + position` of the device
    for position `k` of the file: the reader returns what is there, and the writer stores the byte
    there and nowhere else in the file. -/
structure SameByte (g : VfatFSData) (d : Device) (file : VfatFileData) (l : List ℕ) (k : ℕ) :
    Prop where
  read : ∀ v, vfatReadFile g { d with bytes := Function.update d.bytes (byteAddr g l k) v } file k 1 =
    (.success, [v])
  write : ∀ v time date,
    (vfatWriteFile g d file [v] k time date).1.bytes (byteAddr g l k) = v
  only : ∀ v time date, ∀ x ∈ l, ∀ o < clusterSize g, cellAddr g x o ≠ byteAddr g l k →
    (vfatWriteFile g d file [v] k time date).1.bytes (cellAddr g x o) = d.bytes (cellAddr g x o)

/-- The update of the entry leaves the clusters of the file. -/
theorem vfatWriteFile_cells (hl : Layout g d.size) (hs : Separate g d file l) (hne : l ≠ [])
    (data : List UInt8) (time date : ℕ) {x o : ℕ} (hx : x ∈ l) (ho : o < clusterSize g) :
    (vfatWriteFile g d file data off time date).1.bytes (cellAddr g x o) =
      (writeChain g d file.firstCluster data off).1.bytes (cellAddr g x o) := by
  have hpos := hl.clusterSize_pos
  obtain ⟨l', m, hwrote, -⟩ := writeChain_wrote hl hs.chain hne data off
  rw [vfatWriteFile]
  generalize writeChain g d file.firstCluster data off = result at hwrote ⊢
  obtain ⟨d₁, r, - | w⟩ := result
  · rfl
  dsimp only at hwrote ⊢
  split_ifs with hparent
  · obtain ⟨dir, hdir, hdne, hdisj⟩ := hs.parent.resolve_left hparent
    obtain ⟨hdir₁, hdisj₁⟩ := hwrote.grown.frame hdir hdisj
    have hl₁ : Layout g d₁.size := by rwa [hwrote.grown.size]
    rw [updateEntry]
    dsimp only
    split_ifs
    · obtain ⟨dir', m', hwrote', -⟩ := writeChain_wrote hl₁ hdir₁ hdne
        (load (touchEntry (slotBuffer (readChain g d₁ file.parentCluster (file.index * 32) 32).2)
          (off + w) time date) 0 32) (file.index * 32)
      obtain ⟨-, hdisj'⟩ := hwrote'.grown.frame hwrote.grown.chain hdisj₁.symm
      refine hwrote'.outside _ le_cellAddr fun i hi => ?_
      have hmem : x ∈ l' := hwrote.grown.keep.subset hx
      exact (byteAddr_ne hpos hwrote'.grown.chain (fun y hy => (hwrote.grown.chain.2 y hy).1)
        hdisj' (hwrote'.fits i hi) hmem ho).symm
    · rfl
  · rfl

/-- **Reader and writer** address the same byte exactly when its cluster starts below 4 GiB. -/
theorem sameByte_iff (hl : Layout g d.size) (hs : Separate g d file l)
    (hk : k < l.length * clusterSize g) :
    SameByte g d file l k ↔
      g.dataOffset + (l.getD (k / clusterSize g) 0 - 2) * clusterSize g < 2 ^ 32 := by
  have hpos := hl.clusterSize_pos
  have hdiv := div_lt_of_lt_mul hk
  have hmem := List.getElem_mem hdiv
  have hne : l ≠ [] := List.ne_nil_of_length_pos (Nat.zero_lt_of_lt hdiv)
  have hcell : g.dataOffset + (l.getD (k / clusterSize g) 0 - 2) * clusterSize g =
      cellAddr g l[k / clusterSize g] 0 := by
    rw [List.getD_eq_getElem l 0 hdiv]
    rfl
  have haddr : byteAddr g l k = cellAddr g l[k / clusterSize g] 0 + k % clusterSize g :=
    byteAddr_eq hdiv rfl
  -- one byte changed behind the tables
  have hread : ∀ v, vfatReadFile g { d with bytes := Function.update d.bytes (byteAddr g l k) v }
      file k 1 = (.success, [Function.update d.bytes (byteAddr g l k) v
        (readerAddr g l[k / clusterSize g] + k % clusterSize g)]) := by
    intro v
    have hchain : Chain g { d with bytes := Function.update d.bytes (byteAddr g l k) v }
        file.firstCluster l := by
      refine hs.chain.congr fun x hx => getNextCluster_congr hl rfl (hs.chain.2 x hx) fun i hi => ?_
      have hle := le_byteAddr (g := g) (l := l) k
      exact Function.update_of_ne (by omega) _ _
    exact readChain_one (d := { d with bytes := Function.update d.bytes (byteAddr g l k) v }) hl
      hchain hdiv
  rw [hcell]
  constructor
  · intro hsame
    by_contra hge
    have hlow : readerAddr g l[k / clusterSize g] + k % clusterSize g ≠ byteAddr g l k := by
      rw [hs.chain.readerAddr_eq hl hmem, haddr]
      omega
    have hbyte := hsame.read
      (d.bytes (readerAddr g l[k / clusterSize g] + k % clusterSize g) + 1)
    rw [hread, Function.update_of_ne hlow] at hbyte
    have heq := (List.cons.inj (Prod.mk.inj hbyte).2).1
    exact absurd heq (by simp)
  · intro hlt
    have hwrote : ∀ v, ∃ l', Wrote g d (writeChain g d file.firstCluster [v] k).1
        file.firstCluster l l' k [v] := by
      intro v
      obtain ⟨l', m, hwrote, hm⟩ := writeChain_wrote hl hs.chain hne [v] k
      rw [seekOffset_of_lt hl hs.chain hk] at hwrote hm
      obtain ⟨m, rfl⟩ := Nat.exists_eq_succ_of_ne_zero (hm hk (by simp))
      exact ⟨l', by simpa using hwrote⟩
    have hkmod := Nat.mod_lt k hpos
    have hbyte : byteAddr g l k = cellAddr g l[k / clusterSize g] (k % clusterSize g) :=
      byteAddr_eq hdiv rfl
    refine ⟨fun v => ?_, fun v time date => ?_, fun v time date x hx o ho hother => ?_⟩
    · have haddr' : readerAddr g l[k / clusterSize g] + k % clusterSize g = byteAddr g l k := by
        rw [hs.chain.readerAddr_eq hl hmem, haddr, Nat.mod_eq_of_lt hlt]
      rw [hread, haddr', Function.update_self]
    · obtain ⟨l', hw⟩ := hwrote v
      have hinside := hw.inside 0 (by simp)
      rw [Nat.add_zero, byteAddr_keep hw.grown.keep hdiv] at hinside
      rw [hbyte, vfatWriteFile_cells hl hs hne [v] time date hmem hkmod, ← hbyte]
      exact hinside
    · obtain ⟨l', hw⟩ := hwrote v
      rw [vfatWriteFile_cells hl hs hne [v] time date hx ho]
      refine hw.outside _ le_cellAddr fun i hi => ?_
      obtain rfl : i = 0 := by simpa using hi
      rwa [Nat.add_zero, byteAddr_keep hw.grown.keep hdiv]

/-- A byte of the file `A` of the small volume. -/
theorem sameByte_iff_small : SameByte smallVolume (smallDevice 0) ⟨1, 2, 3⟩ [3] 5 := by
  have hopened := smallDevice_opened
  have hseparate : Separate smallVolume (smallDevice 0) ⟨1, 2, 3⟩ [3] :=
    ⟨smallDevice_fileChain, .inr ⟨[2], hopened.dirChain, by simp, hopened.disjoint⟩⟩
  exact (sameByte_iff (smallVolume_wellFormed 0).layout hseparate (by decide)).mpr (by decide)

/-- A volume of 8 GiB with clusters of 32 KiB. -/
def largeVolume : VfatFSData := ⟨2 ^ 20, 64, 512, 32, 2113536, ⟨0, eoc, 2⟩⟩

/-- A file in cluster 131074, the first one behind 4 GiB. -/
def largeDevice : Device :=
  ⟨2113536 + 262142 * 32768, store (store (fun _ => 0) (16384 + 131074 * 4) (leBytes 4 eoc))
    (16384 + 2 ^ 20 + 131074 * 4) (leBytes 4 eoc)⟩

/-- A byte that is written to the file is stored in its cluster, but the reader takes the byte from
    cluster 2. -/
theorem reader_wraps : Separate largeVolume largeDevice ⟨0, eoc, 131074⟩ [131074] ∧
    (vfatWriteFile largeVolume largeDevice ⟨0, eoc, 131074⟩ [0x58] 0 0 0).1.bytes
      (2113536 + (131074 - 2) * 32768) = 0x58 ∧
    vfatReadFile largeVolume
      (vfatWriteFile largeVolume largeDevice ⟨0, eoc, 131074⟩ [0x58] 0 0 0).1 ⟨0, eoc, 131074⟩ 0 1 =
      (.success, [0]) ∧
    ¬ SameByte largeVolume largeDevice ⟨0, eoc, 131074⟩ [131074] 0 := by
  have hnext : getNextCluster largeVolume largeDevice 131074 = eoc := by decide +kernel
  refine ⟨⟨⟨⟨rfl, by decide, hnext⟩, ?_⟩, .inl rfl⟩, by decide +kernel, by decide +kernel,
    fun hsame => ?_⟩
  · intro x hx
    obtain rfl := List.mem_singleton.mp hx
    exact ⟨by decide, by decide⟩
  · have hread := hsame.read 0x58
    have hzero : vfatReadFile largeVolume { largeDevice with
        bytes := Function.update largeDevice.bytes (byteAddr largeVolume [131074] 0) 0x58 }
        ⟨0, eoc, 131074⟩ 0 1 = (.success, [0]) := by
      decide +kernel
    rw [hzero] at hread
    exact absurd hread (by decide)

/-! ### How far a read goes -/

/-- A file in slot `index` of a directory with the chain `dir`; an empty file may have no cluster. -/
structure Listed (g : VfatFSData) (d : Device) (file : VfatFileData) (l dir : List ℕ) : Prop where
  chain : Chain g d file.firstCluster l ∧ l ≠ [] ∨ file.firstCluster = 0 ∧ l = []
  dirChain : Chain g d file.parentCluster dir
  slot : file.index * 32 + 32 ≤ dir.length * clusterSize g
  entry : sfnFirstCluster (entryBuffer g d dir file.index) = file.firstCluster

/-- The bytes that can be read from an offset on: those up to the end of the chain. A file without a
    cluster has bytes in front of the volume's clusters. -/
def readable (g : VfatFSData) (d : Device) (l : List ℕ) (offset : ℕ) : ℕ :=
  if l ≠ [] then l.length * clusterSize g - seekOffset g offset
  else if offset / clusterSize g % 2 ^ 32 = 0 then
    min (clusterSize g - offset % clusterSize g)
      (d.size - (readerAddr g 0 + offset % clusterSize g))
  else 0

end XTOS.Vfat

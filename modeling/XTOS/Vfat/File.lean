import Mathlib.Data.List.GetD
import XTOS.Vfat.Fat

/-!
# Reading and writing files of a volume

`vfatReadFile` and `vfatWriteFile` of `drivers/vfat/main.c`. A write follows or extends the
cluster chain of the file, stores the data cluster by cluster and then rewrites the file's
entry in the directory, through the same function, with the clusters of the open file
swapped.

## Main definitions

- `seekChain`, `readLoop`, `vfatReadFile` — the reader's walk
- `seekExtend`, `writeLoop`, `writeChain`, `vfatWriteFile` — the writer's walk
- `Wrote` — the data is stored along a chain and nothing else changed
- `Opened` — a regular file opened from its entry in a directory
- `WriteOk` — what a caller expects of a write that succeeds

## Main results

- `Opened.writeOk_iff`, `Opened.writeOk_empty_iff` — when a write is that, for a file with clusters and
  for one without
- `vfatWriteFile_ok_iff` — both

## Design notes

A 32-byte directory entry is a buffer, a function from offsets to bytes. The time of the
last change comes from the clock and is a parameter.
-/

namespace XTOS.Vfat

open SysLib

/-- The clusters from a 32-bit difference `cluster - 2`. -/
def clusterIndex (cluster : ℕ) : ℕ := (cluster + (2 ^ 32 - 2)) % 2 ^ 32

/-- `to_write`: what is left of the cluster, or of the data. -/
def chunkLength (g : VfatFSData) (off count : ℕ) : ℕ :=
  min (clusterSize g - off % clusterSize g) count

/-! ### The reader -/

/-- The first loop of `vfatReadFile`: follow `n` links. -/
def seekChain (g : VfatFSData) (d : Device) : ℕ → ℕ → Option ℕ
  | 0, current => some current
  | n + 1, current =>
    let next := getNextCluster g d current
    if next = eoc then none else seekChain g d n next

/-- The second loop of `vfatReadFile`; the reader computes the address in 32 bits. -/
def readLoop (g : VfatFSData) (d : Device) : ℕ → ℕ → ℕ → ℕ → List UInt8
  | 0, _, _, _ => []
  | fuel + 1, current, offset, count =>
    if count = 0 then []
    else
      let pos := offset % clusterSize g
      let toRead := chunkLength g offset count
      let addr := (g.dataOffset + clusterIndex current * clusterSize g) % 2 ^ 32 + pos
      let block := d.read addr toRead
      if block = [] then []
      else if pos + block.length = clusterSize g then
        let next := getNextCluster g d current
        if next = eoc then block
        else block ++ readLoop g d fuel next (offset + block.length) (count - block.length)
      else block ++ readLoop g d fuel current (offset + block.length) (count - block.length)

/-- `vfatReadFile` on the chain from `first`: the result and the bytes read. -/
def readChain (g : VfatFSData) (d : Device) (first offset count : ℕ) :
    XTResult × List UInt8 :=
  match seekChain g d (offset / clusterSize g % 2 ^ 32) first with
  | none => (.endOfFile, [])
  | some current =>
    let bytes := readLoop g d count current offset count
    (if bytes.length = count then .success else .endOfFile, bytes)

/-- `vfatReadFile`. -/
def vfatReadFile (g : VfatFSData) (d : Device) (file : VfatFileData) (offset count : ℕ) :
    XTResult × List UInt8 :=
  readChain g d file.firstCluster offset count

/-! ### The writer -/

/-- The first loop of `vfatWriteFile`: follow `n` links, made where the chain ends. -/
def seekExtend (g : VfatFSData) : ℕ → Device → ℕ → Device × Option ℕ
  | 0, d, current => (d, some current)
  | n + 1, d, current =>
    match nextOrExtend g d current with
    | (d, none) => (d, none)
    | (d, some next) => seekExtend g n d next

/-- The second loop of `vfatWriteFile`; the number of bytes written, or none when a chain
    could not be extended. -/
def writeLoop (g : VfatFSData) : ℕ → Device → ℕ → ℕ → List UInt8 → ℕ → Device × Option ℕ
  | 0, d, _, _, _, written => (d, some written)
  | fuel + 1, d, current, offset, data, written =>
    if data = [] then (d, some written)
    else
      let pos := offset % clusterSize g
      let toWrite := chunkLength g offset data.length
      let addr := g.dataOffset + clusterIndex current * clusterSize g + pos
      let block := (d.served addr (data.take toWrite)).length
      if block = 0 then (d, some written)
      else
        let d := d.write addr (data.take toWrite)
        if pos + block = clusterSize g then
          match nextOrExtend g d current with
          | (d, none) => (d, none)
          | (d, some next) =>
            writeLoop g fuel d next (offset + block) (data.drop block) (written + block)
        else writeLoop g fuel d current (offset + block) (data.drop block) (written + block)

/-- `vfatWriteFile` on the chain from `first`, without the update of the entry: the result,
    and the number of bytes written unless it returned early. -/
def writeChain (g : VfatFSData) (d : Device) (first : ℕ) (data : List UInt8) (offset : ℕ) :
    Device × XTResult × Option ℕ :=
  match seekExtend g (offset / clusterSize g % 2 ^ 32) d first with
  | (d, none) => (d, .endOfFile, none)
  | (d, some current) =>
    match writeLoop g data.length d current offset data 0 with
    | (d, none) => (d, .endOfFile, none)
    | (d, some written) =>
      (d, if written = data.length then .success else .endOfFile, some written)

/-- `SUBDIR`. -/
def subdir : ℕ := 0x10

/-- The buffer that a read of a directory slot fills; it starts as zeros. -/
def slotBuffer (bytes : List UInt8) : ℕ → UInt8 := store (fun _ => 0) 0 bytes

/-- `sfn.attributes`. -/
def sfnAttributes (sfn : ℕ → UInt8) : ℕ := (sfn 11).toNat

/-- `sfn.file_size`. -/
def sfnFileSize (sfn : ℕ → UInt8) : ℕ := loadLE sfn 28 4

/-- The first cluster, in two halves. -/
def sfnFirstCluster (sfn : ℕ → UInt8) : ℕ := loadLE sfn 26 2 + loadLE sfn 20 2 * 2 ^ 16

/-- The entry with the size grown to `size` and the time of the last change. -/
def touchEntry (sfn : ℕ → UInt8) (size time date : ℕ) : ℕ → UInt8 :=
  let sfn := if sfnFileSize sfn < size then storeLE sfn 28 4 size else sfn
  storeLE (storeLE sfn 22 2 time) 24 2 date

/-- The last part of `vfatWriteFile`: the file becomes its directory for a read and a write
    of the entry, whose results are not looked at. -/
def updateEntry (g : VfatFSData) (d : Device) (file : VfatFileData) (size time date : ℕ) :
    Device :=
  let sfn := slotBuffer (readChain g d file.parentCluster (file.index * 32) 32).2
  if sfnAttributes sfn &&& subdir = 0 then
    (writeChain g d file.parentCluster (load (touchEntry sfn size time date) 0 32)
      (file.index * 32)).1
  else d

/-- `vfatWriteFile`. -/
def vfatWriteFile (g : VfatFSData) (d : Device) (file : VfatFileData) (data : List UInt8)
    (offset time date : ℕ) : Device × XTResult × Option ℕ :=
  match writeChain g d file.firstCluster data offset with
  | (d, r, none) => (d, r, none)
  | (d, r, some written) =>
    if file.parentCluster ≠ eoc then
      (updateEntry g d file (offset + written) time date, r, some written)
    else (d, r, some written)

/-! ### Bytes of a chain -/

/-- The address of byte `k` of the chain `l`. -/
def byteAddr (g : VfatFSData) (l : List ℕ) (k : ℕ) : ℕ :=
  cellAddr g (l.getD (k / clusterSize g) 0) (k % clusterSize g)

variable {g : VfatFSData} {d d' d₁ d₂ : Device} {c size : ℕ} {l l' l₁ l₂ : List ℕ}

theorem le_byteAddr (k : ℕ) : g.dataOffset ≤ byteAddr g l k := le_cellAddr

theorem byteAddr_eq {j : ℕ} (hj : j < l.length) {k : ℕ} (hk : k / clusterSize g = j) :
    byteAddr g l k = cellAddr g l[j] (k % clusterSize g) := by
  rw [byteAddr, hk, List.getD_eq_getElem l 0 hj]

/-- The bytes of a chain stay where they are when it grows. -/
theorem byteAddr_keep (h : l <+: l') {k : ℕ} (hk : k / clusterSize g < l.length) :
    byteAddr g l' k = byteAddr g l k := by
  obtain ⟨t, rfl⟩ := h
  rw [byteAddr, byteAddr, List.getD_append _ _ _ _ hk]

/-- A byte of a chain lies in one of its clusters. -/
theorem byteAddr_mem (hpos : 0 < clusterSize g) {k : ℕ} (hk : k / clusterSize g < l.length) :
    ∃ x ∈ l, byteAddr g l k = cellAddr g x (k % clusterSize g) ∧
      k % clusterSize g < clusterSize g :=
  ⟨l[k / clusterSize g], List.getElem_mem hk, byteAddr_eq hk rfl, Nat.mod_lt _ hpos⟩

/-- Different bytes of a chain have different addresses. -/
theorem byteAddr_inj (hpos : 0 < clusterSize g) (h : Chain g d c l) {k k' : ℕ}
    (hk : k / clusterSize g < l.length) (hk' : k' / clusterSize g < l.length)
    (heq : byteAddr g l k = byteAddr g l k') : k = k' := by
  rw [byteAddr_eq hk rfl, byteAddr_eq hk' rfl] at heq
  obtain ⟨hc, ho⟩ := cellAddr_inj (h.2 _ (List.getElem_mem hk)).1 (h.2 _ (List.getElem_mem hk')).1
    (Nat.mod_lt _ hpos) (Nat.mod_lt _ hpos) heq
  have hdiv := (List.Nodup.getElem_inj_iff h.nodup).mp hc
  rw [← Nat.div_add_mod k (clusterSize g), ← Nat.div_add_mod k' (clusterSize g), hdiv, ho]

/-- Bytes of disjoint chains have different addresses. -/
theorem byteAddr_ne (hpos : 0 < clusterSize g) (h₁ : Chain g d c l₁) (h₂ : ∀ x ∈ l₂, 2 ≤ x)
    (hdisj : l₁.Disjoint l₂) {k x o : ℕ} (hk : k / clusterSize g < l₁.length) (hx : x ∈ l₂)
    (ho : o < clusterSize g) : byteAddr g l₁ k ≠ cellAddr g x o := by
  intro heq
  obtain ⟨y, hy, hyk, hyo⟩ := byteAddr_mem hpos hk
  rw [hyk] at heq
  obtain ⟨rfl, -⟩ := cellAddr_inj (h₁.2 y hy).1 (h₂ x hx) hyo ho heq
  exact hdisj hy hx

/-- A chunk that stays in one cluster is stored at consecutive addresses. -/
theorem byteAddr_add (hpos : 0 < clusterSize g) {k i : ℕ}
    (h : k % clusterSize g + i < clusterSize g) :
    byteAddr g l (k + i) = byteAddr g l k + i := by
  have hdiv : (k + i) / clusterSize g = k / clusterSize g := by
    conv_lhs => rw [← Nat.div_add_mod k (clusterSize g), Nat.add_assoc]
    rw [Nat.mul_add_div hpos, Nat.div_eq_of_lt h, Nat.add_zero]
  have hmod : (k + i) % clusterSize g = k % clusterSize g + i := by
    conv_lhs => rw [← Nat.div_add_mod k (clusterSize g), Nat.add_assoc]
    rw [Nat.mul_add_mod, Nat.mod_eq_of_lt h]
  rw [byteAddr, byteAddr, hdiv, hmod]
  unfold cellAddr
  omega

theorem clusterIndex_eq (hc : 2 ≤ c) (hlt : c < 2 ^ 32) : clusterIndex c = c - 2 := by
  unfold clusterIndex
  omega

theorem Chain.lt_word (hwf : Layout g size) (h : Chain g d c l) {x : ℕ} (hx : x ∈ l) :
    x < 2 ^ 32 := by
  have h1 := (h.2 x hx).2
  have h2 := hwf.maxCluster_le
  unfold eoc at h2
  omega

/-- The address that the writer computes for byte `k`. -/
theorem Chain.addr_eq (hwf : Layout g size) (h : Chain g d c l) {k : ℕ}
    (hk : k / clusterSize g < l.length) :
    g.dataOffset + clusterIndex l[k / clusterSize g] * clusterSize g + k % clusterSize g =
      byteAddr g l k := by
  have hmem := List.getElem_mem hk
  rw [clusterIndex_eq (h.2 _ hmem).1 (h.lt_word hwf hmem), byteAddr_eq hk rfl]
  rfl

/-- The reader computes the same address, in 32 bits. -/
theorem Chain.addr_mod_eq (hwf : WellFormed g size) (h : Chain g d c l) {k : ℕ}
    (hk : k / clusterSize g < l.length) :
    (g.dataOffset + clusterIndex l[k / clusterSize g] * clusterSize g) % 2 ^ 32 +
      k % clusterSize g = byteAddr g l k := by
  have hmem := List.getElem_mem hk
  have hlt := hwf.cluster (h.2 _ hmem) (o := clusterSize g) le_rfl
  have hpos := hwf.clusterSize_pos
  unfold cellAddr at hlt
  rw [← h.addr_eq hwf.layout hk, clusterIndex_eq (h.2 _ hmem).1 (h.lt_word hwf.layout hmem),
    Nat.mod_eq_of_lt (by omega)]

/-- A chunk in one cluster lies on the device. -/
theorem Chain.chunk_le (hwf : Layout g size) (h : Chain g d c l) {k n : ℕ}
    (hk : k / clusterSize g < l.length) (hn : k % clusterSize g + n ≤ clusterSize g) :
    byteAddr g l k + n ≤ size := by
  have hle := hwf.cluster (h.2 _ (List.getElem_mem hk)) hn
  rw [byteAddr_eq hk rfl]
  unfold cellAddr at hle ⊢
  omega

/-! ### What a write does -/

/-- The data is stored from byte `off` of the chain on, which grew from `l` to `l'`; no
    other byte of a cluster changed. -/
structure Wrote (g : VfatFSData) (d d' : Device) (c : ℕ) (l l' : List ℕ) (off : ℕ)
    (data : List UInt8) : Prop where
  grown : Grown g d d' c l l'
  fits : ∀ i < data.length, (off + i) / clusterSize g < l'.length
  inside : ∀ i, (hi : i < data.length) → d'.bytes (byteAddr g l' (off + i)) = data[i]
  outside : ∀ a, g.dataOffset ≤ a → (∀ i < data.length, a ≠ byteAddr g l' (off + i)) →
    d'.bytes a = d.bytes a

variable {off : ℕ} {data xs ys : List UInt8}

/-- A chain that grew, with the bytes of all clusters as they were. -/
theorem Wrote.of_grown (h : Grown g d d' c l l') (off : ℕ)
    (hsame : ∀ i, g.dataOffset ≤ i → d'.bytes i = d.bytes i) : Wrote g d d' c l l' off [] :=
  ⟨h, fun i hi => absurd hi (by simp), fun i hi => absurd hi (by simp), fun a ha _ => hsame a ha⟩

/-- Two writes one behind the other. -/
theorem Wrote.trans (hpos : 0 < clusterSize g) (h : Wrote g d d₁ c l l₁ off xs)
    (h' : Wrote g d₁ d₂ c l₁ l₂ (off + xs.length) ys) : Wrote g d d₂ c l l₂ off (xs ++ ys) := by
  have hkeep : ∀ i < xs.length, byteAddr g l₂ (off + i) = byteAddr g l₁ (off + i) :=
    fun i hi => byteAddr_keep h'.grown.keep (h.fits i hi)
  have hlen : ∀ i < xs.length, (off + i) / clusterSize g < l₂.length := fun i hi =>
    lt_of_lt_of_le (h.fits i hi) h'.grown.keep.length_le
  refine ⟨h.grown.trans h'.grown, fun i hi => ?_, fun i hi => ?_, fun a ha hne => ?_⟩
  · rw [List.length_append] at hi
    by_cases hx : i < xs.length
    · exact hlen i hx
    · have hfit := h'.fits (i - xs.length) (by omega)
      rwa [show off + xs.length + (i - xs.length) = off + i by omega] at hfit
  · rw [List.length_append] at hi
    by_cases hx : i < xs.length
    · -- the second write does not reach back
      have hfar : ∀ j < ys.length, byteAddr g l₁ (off + i) ≠
          byteAddr g l₂ (off + xs.length + j) := by
        intro j hj heq
        rw [← hkeep i hx] at heq
        have := byteAddr_inj hpos h'.grown.chain (hlen i hx) (h'.fits j hj) heq
        omega
      rw [hkeep i hx, h'.outside _ (le_byteAddr _) hfar, h.inside i hx,
        List.getElem_append_left hx]
    · have hin := h'.inside (i - xs.length) (by omega)
      rw [show off + xs.length + (i - xs.length) = off + i by omega] at hin
      rw [hin, List.getElem_append_right (by omega)]
  · rw [h'.outside a ha fun j hj => ?_, h.outside a ha fun i hi => ?_]
    · rw [← hkeep i hi]
      exact hne i (by rw [List.length_append]; omega)
    · rw [Nat.add_assoc]
      exact hne (xs.length + j) (by rw [List.length_append]; omega)

/-- A chunk in one cluster. -/
theorem Wrote.chunk (hwf : Layout g d.size) (h : Chain g d c l)
    (hoff : off / clusterSize g < l.length)
    (hlen : off % clusterSize g + data.length ≤ clusterSize g) :
    Wrote g d (d.write (byteAddr g l off) data) c l l off data := by
  have hpos := hwf.clusterSize_pos
  have hdiv : ∀ i < data.length, (off + i) / clusterSize g = off / clusterSize g := by
    intro i hi
    rw [← Nat.div_add_mod off (clusterSize g), Nat.add_assoc, Nat.mul_add_div hpos,
      Nat.div_eq_of_lt (show off % clusterSize g + i < clusterSize g by omega),
      Nat.mul_add_div hpos, Nat.div_eq_of_lt (Nat.mod_lt _ hpos)]
  have hadd : ∀ i < data.length, byteAddr g l (off + i) = byteAddr g l off + i :=
    fun i hi => byteAddr_add hpos (by omega)
  rw [d.write_eq (h.chunk_le hwf hoff hlen)]
  refine ⟨.of_data hwf h rfl fun i hi => ?_, fun i hi => ?_, fun i hi => ?_, fun a _ hne => ?_⟩
  · exact store_below _ _ (lt_of_lt_of_le hi (le_byteAddr _))
  · rw [hdiv i hi]
    exact hoff
  · rw [hadd i hi]
    exact store_at _ _ _ hi
  · apply store_outside
    by_contra hin
    have hi : a - byteAddr g l off < data.length := by omega
    apply hne (a - byteAddr g l off) hi
    rw [hadd _ hi]
    omega

/-- The seek of the writer. -/
theorem seekExtend_spec (hwf : Layout g d.size) (h : Chain g d c l) {n j cur : ℕ}
    (hj : j < l.length) (hcall : seekExtend g n d l[j] = (d', some cur)) :
    ∃ l', Grown g d d' c l l' ∧ l'.length = max l.length (j + n + 1) ∧ l'[j + n]? = some cur ∧
      ∀ i, g.dataOffset ≤ i → d'.bytes i = d.bytes i := by
  induction n generalizing d l j with
  | zero =>
    rw [seekExtend] at hcall
    cases hcall
    exact ⟨l, .refl h, by omega, List.getElem?_eq_getElem hj, fun _ _ => rfl⟩
  | succ n ih =>
    rw [seekExtend] at hcall
    rcases hnext : nextOrExtend g d l[j] with ⟨d₁, - | next⟩
    · rw [hnext] at hcall
      cases hcall
    rw [hnext] at hcall
    dsimp only at hcall
    obtain ⟨l₁, hgrown, hlen, hget, hsame⟩ := nextOrExtend_some hwf h hj hnext
    obtain ⟨hlt, hget⟩ := List.getElem?_eq_some_iff.mp hget
    rw [← hget] at hcall
    obtain ⟨l₂, hgrown', hlen', hget', hsame'⟩ :=
      ih (by rw [hgrown.size]; exact hwf) hgrown.chain hlt hcall
    refine ⟨l₂, hgrown.trans hgrown', by omega, ?_, fun i hi => ?_⟩
    · rwa [show j + (n + 1) = j + 1 + n by omega]
    · rw [hsame' i hi, hsame i hi]

theorem chunkLength_spec (hpos : 0 < clusterSize g) (off : ℕ) {count : ℕ} (hcount : count ≠ 0) :
    chunkLength g off count ≠ 0 ∧ chunkLength g off count ≤ count ∧
      off % clusterSize g + chunkLength g off count ≤ clusterSize g := by
  have hlt := Nat.mod_lt off hpos
  unfold chunkLength
  omega

/-- The cluster of the next byte after a chunk. -/
theorem div_add_chunk (hpos : 0 < clusterSize g) {n : ℕ}
    (hn : off % clusterSize g + n ≤ clusterSize g) :
    (off + n) / clusterSize g =
      if off % clusterSize g + n = clusterSize g then off / clusterSize g + 1
      else off / clusterSize g := by
  have hsplit : off + n = clusterSize g * (off / clusterSize g) + (off % clusterSize g + n) := by
    rw [← Nat.add_assoc, Nat.div_add_mod]
  rw [hsplit, Nat.mul_add_div hpos]
  split_ifs with heq
  · rw [heq, Nat.div_self hpos]
  · have hlt : off % clusterSize g + n < clusterSize g := by omega
    rw [Nat.div_eq_of_lt hlt, Nat.add_zero]

/-- One pass of the loop, on a volume that holds the chain. -/
theorem writeLoop_succ (hwf : Layout g d.size) (h : Chain g d c l) (fuel w : ℕ)
    (hoff : off / clusterSize g < l.length) (hdata : data ≠ []) :
    writeLoop g (fuel + 1) d l[off / clusterSize g] off data w =
      (let n := chunkLength g off data.length
      let d₁ := d.write (byteAddr g l off) (data.take n)
      if off % clusterSize g + n = clusterSize g then
        match nextOrExtend g d₁ l[off / clusterSize g] with
        | (d, none) => (d, none)
        | (d, some next) => writeLoop g fuel d next (off + n) (data.drop n) (w + n)
      else writeLoop g fuel d₁ l[off / clusterSize g] (off + n) (data.drop n) (w + n)) := by
  have hcount : data.length ≠ 0 := by simpa using hdata
  obtain ⟨hn0, hn, hfit⟩ := chunkLength_spec hwf.clusterSize_pos off hcount
  have hserved : (d.served (byteAddr g l off) (data.take (chunkLength g off data.length))).length =
      chunkLength g off data.length := by
    have hle := h.chunk_le hwf hoff hfit
    rw [Device.served, List.length_take, List.length_take]
    omega
  rw [writeLoop, if_neg hdata]
  dsimp only
  rw [h.addr_eq hwf hoff]
  rw [hserved, if_neg hn0]

theorem Wrote.nil (h : Chain g d c l) (hoff : off / clusterSize g < l.length) :
    ∃ l', Wrote g d d c l l' off [] ∧
      l'.length = max l.length ((off + ([] : List UInt8).length) / clusterSize g + 1) :=
  ⟨l, .of_grown (.refl h) off fun _ _ => rfl, (Nat.max_eq_left hoff).symm⟩

/-- The loop of the writer stores all the data, in a chain that has a cluster for the byte
    behind it. -/
theorem writeLoop_spec (hwf : Layout g d.size) (h : Chain g d c l) {fuel w w' : ℕ}
    (hoff : off / clusterSize g < l.length) (hfuel : data.length ≤ fuel)
    (hcall : writeLoop g fuel d l[off / clusterSize g] off data w = (d', some w')) :
    w' = w + data.length ∧ ∃ l', Wrote g d d' c l l' off data ∧
      l'.length = max l.length ((off + data.length) / clusterSize g + 1) := by
  have hpos := hwf.clusterSize_pos
  induction fuel generalizing d l off data w with
  | zero =>
    obtain rfl : data = [] := List.eq_nil_of_length_eq_zero (by omega)
    rw [writeLoop] at hcall
    cases hcall
    exact ⟨rfl, Wrote.nil h hoff⟩
  | succ fuel ih =>
    by_cases hdata : data = []
    · subst hdata
      rw [writeLoop, if_pos rfl] at hcall
      cases hcall
      exact ⟨rfl, Wrote.nil h hoff⟩
    rw [writeLoop_succ hwf h fuel w hoff hdata] at hcall
    dsimp only at hcall
    obtain ⟨hn0, hn, hfit⟩ := chunkLength_spec hpos off (show data.length ≠ 0 by simpa using hdata)
    have hdiv := div_add_chunk hpos hfit
    set n := chunkLength g off data.length
    have hlen : (data.take n).length = n := by
      rw [List.length_take]
      omega
    have hchunk : Wrote g d _ c l l off (data.take n) :=
      Wrote.chunk hwf h hoff (by rw [hlen]; exact hfit)
    have hwf₁ : Layout g (d.write (byteAddr g l off) (data.take n)).size := hwf
    -- the rest of the data, in the state and the chain behind the chunk
    have hrest : ∀ d₁ l₁ cur, Wrote g d d₁ c l l₁ off (data.take n) →
        l₁.length = max l.length ((off + n) / clusterSize g + 1) →
        l₁[(off + n) / clusterSize g]? = some cur →
        writeLoop g fuel d₁ cur (off + n) (data.drop n) (w + n) = (d', some w') →
        w' = w + data.length ∧ ∃ l', Wrote g d d' c l l' off data ∧
          l'.length = max l.length ((off + data.length) / clusterSize g + 1) := by
      intro d₁ l₁ cur hwrote hlen₁ hget hloop
      obtain ⟨hlt, rfl⟩ := List.getElem?_eq_some_iff.mp hget
      have hdrop : (data.drop n).length = data.length - n := List.length_drop
      have hend : off + n + (data.length - n) = off + data.length := by omega
      obtain ⟨hw, l₂, hwrote₂, hlen₂⟩ := ih (by rw [hwrote.grown.size]; exact hwf)
        hwrote.grown.chain hlt (by omega) hloop
      have hall := hwrote.trans hpos (by rw [hlen]; exact hwrote₂)
      rw [List.take_append_drop] at hall
      rw [hdrop, hend] at hlen₂
      have hmono : (off + n) / clusterSize g ≤ (off + data.length) / clusterSize g :=
        Nat.div_le_div_right (by omega)
      exact ⟨by omega, l₂, hall, by omega⟩
    by_cases hfull : off % clusterSize g + n = clusterSize g
    · rw [if_pos hfull] at hcall hdiv
      rcases hnext : nextOrExtend g (d.write (byteAddr g l off) (data.take n))
        l[off / clusterSize g] with ⟨d₁, - | next⟩
      · rw [hnext] at hcall
        cases hcall
      rw [hnext] at hcall
      obtain ⟨l₁, hgrown, hlen₁, hget, hsame⟩ :=
        nextOrExtend_some hwf₁ hchunk.grown.chain hoff hnext
      have hwrote := hchunk.trans hpos (.of_grown hgrown _ hsame)
      rw [List.append_nil] at hwrote
      exact hrest d₁ l₁ next hwrote (by rw [hdiv]; exact hlen₁) (by rw [hdiv]; exact hget) hcall
    · rw [if_neg hfull] at hcall hdiv
      exact hrest _ l _ hchunk (by rw [hdiv]; omega)
        (by rw [hdiv]; exact List.getElem?_eq_getElem hoff) hcall

theorem Chain.head_eq (h : Chain g d c l) (hlt : 0 < l.length) : c = l[0] := by
  cases l with
  | nil => simp at hlt
  | cons x l => exact h.1.1

/-- A write that does not run out of clusters stores all the data. -/
theorem writeChain_spec (hwf : Layout g d.size) (h : Chain g d c l) (hne : l ≠ [])
    (hoff : off / clusterSize g < 2 ^ 32) {r : XTResult} {w : ℕ}
    (hcall : writeChain g d c data off = (d', r, some w)) :
    w = data.length ∧ ∃ l', Wrote g d d' c l l' off data ∧
      l'.length = max l.length ((off + data.length) / clusterSize g + 1) := by
  rw [writeChain, Nat.mod_eq_of_lt hoff] at hcall
  rcases hseek : seekExtend g (off / clusterSize g) d c with ⟨d₁, - | cur⟩
  · rw [hseek] at hcall
    cases hcall
  rw [hseek] at hcall
  dsimp only at hcall
  rw [h.head_eq (List.length_pos_of_ne_nil hne)] at hseek
  obtain ⟨l₁, hgrown, hlen₁, hget, hsame⟩ :=
    seekExtend_spec hwf h (List.length_pos_of_ne_nil hne) hseek
  rw [Nat.zero_add] at hlen₁ hget
  obtain ⟨hlt, rfl⟩ := List.getElem?_eq_some_iff.mp hget
  rcases hloop : writeLoop g data.length d₁ l₁[off / clusterSize g] off data 0 with ⟨d₂, - | w'⟩
  · rw [hloop] at hcall
    cases hcall
  rw [hloop] at hcall
  cases hcall
  obtain ⟨hw, l₂, hwrote, hlen₂⟩ := writeLoop_spec (by rw [hgrown.size]; exact hwf) hgrown.chain
    hlt le_rfl hloop
  have hall := (Wrote.of_grown hgrown off hsame).trans hwf.clusterSize_pos hwrote
  have hmono : off / clusterSize g ≤ (off + data.length) / clusterSize g :=
    Nat.div_le_div_right (by omega)
  exact ⟨by omega, l₂, hall, by omega⟩

/-- Without a count of bytes the write ran out of clusters. -/
theorem writeChain_none {r : XTResult} (hcall : writeChain g d c data off = (d', r, none)) :
    r = .endOfFile := by
  rw [writeChain] at hcall
  split at hcall
  · cases hcall
    rfl
  split at hcall
  · cases hcall
    rfl
  · cases hcall

/-- A seek inside the chain changes nothing. -/
theorem seekExtend_within (h : Chain g d c l) {n j : ℕ} (hj : j < l.length)
    (hn : j + n < l.length) : seekExtend g n d l[j] = (d, some l[j + n]) := by
  induction n generalizing j with
  | zero => rfl
  | succ n ih =>
    have hlt : j + 1 < l.length := by omega
    have hnext : getNextCluster g d l[j] = l[j + 1] := by
      rw [h.next hj, List.getElem?_eq_getElem hlt, Option.getD_some]
    have hstep : nextOrExtend g d l[j] = (d, some l[j + 1]) := by
      rw [nextOrExtend, hnext, if_neg (h.ne_eoc _ (List.getElem_mem _))]
    rw [seekExtend, hstep]
    dsimp only
    rw [ih hlt (by omega)]
    simp only [show j + 1 + n = j + (n + 1) by omega]

/-- A write of a part of one cluster of the chain is one write of the device; the next cluster is
    looked for when the part ends at the end of its cluster. -/
theorem writeChain_one (hl : Layout g d.size) (h : Chain g d c l)
    (hoff : off / clusterSize g < l.length) (hdata : data ≠ [])
    (hfit : off % clusterSize g + data.length ≤ clusterSize g)
    (hword : off / clusterSize g < 2 ^ 32) :
    (writeChain g d c data off).1 =
      if off % clusterSize g + data.length = clusterSize g then
        (nextOrExtend g (d.write (byteAddr g l off) data) l[off / clusterSize g]).1
      else d.write (byteAddr g l off) data := by
  have hseek : seekExtend g (off / clusterSize g) d c = (d, some l[off / clusterSize g]) := by
    have hlt : 0 < l.length := Nat.zero_lt_of_lt hoff
    have hwithin := seekExtend_within h hlt (show 0 + off / clusterSize g < l.length by omega)
    rw [← h.head_eq hlt] at hwithin
    simpa only [Nat.zero_add] using hwithin
  obtain ⟨m, hm⟩ : ∃ m, data.length = m + 1 :=
    Nat.exists_eq_add_one.mpr (List.length_pos_of_ne_nil hdata)
  have hn : chunkLength g off data.length = data.length := by
    unfold chunkLength
    omega
  -- no data is left behind the part
  have hloop : ∀ d₁ cur off k, (writeLoop g m d₁ cur off [] k) = (d₁, some k) := by
    intro d₁ cur off k
    cases m with
    | zero => rfl
    | succ m => rfl
  rw [writeChain, Nat.mod_eq_of_lt hword, hseek]
  dsimp only
  rw [hm, writeLoop_succ hl h m 0 hoff hdata, ← hm, hn]
  dsimp only
  rw [List.take_length, List.drop_length]
  by_cases hfull : off % clusterSize g + data.length = clusterSize g
  · rw [if_pos hfull, if_pos hfull]
    rcases nextOrExtend g (d.write (byteAddr g l off) data) l[off / clusterSize g] with
      ⟨d₂, - | next⟩
    · rfl
    · dsimp only
      rw [hloop]
  · rw [if_neg hfull, if_neg hfull, hloop]

/-- A write of a part of one cluster of the chain. The chain grows exactly when the part
    ends at its end and a cluster is free. -/
theorem writeChain_slot (hwf : Layout g d.size) (h : Chain g d c l)
    (hoff : off / clusterSize g < l.length) (hdata : data ≠ [])
    (hfit : off % clusterSize g + data.length ≤ clusterSize g)
    (hword : off / clusterSize g < 2 ^ 32) :
    ∃ l', Wrote g d (writeChain g d c data off).1 c l l' off data ∧
      (l' ≠ l ↔ off % clusterSize g + data.length = clusterSize g ∧
        off / clusterSize g + 1 = l.length ∧ freeClusters g d ≠ ∅) := by
  have hchunk := Wrote.chunk hwf h hoff hfit
  have hwf₁ : Layout g (d.write (byteAddr g l off) data).size := hwf
  -- the chunk keeps the free clusters
  have hcard := hchunk.grown.card_freeClusters
  rw [Nat.sub_self, Nat.add_zero] at hcard
  rw [writeChain_one hwf h hoff hdata hfit hword]
  split_ifs with hfull
  · rcases hnext : nextOrExtend g (d.write (byteAddr g l off) data)
      l[off / clusterSize g] with ⟨d₂, - | next⟩
    · obtain ⟨rfl, -, hnone⟩ := nextOrExtend_none hwf₁ hchunk.grown.chain hoff hnext
      rw [hnone, Finset.card_empty, Finset.card_eq_zero] at hcard
      exact ⟨l, hchunk, fun hne => absurd rfl hne, fun hlast => absurd hcard hlast.2.2⟩
    · obtain ⟨l₂, hgrown, hlen, -, hsame⟩ :=
        nextOrExtend_some hwf₁ hchunk.grown.chain hoff hnext
      have hwrote := hchunk.trans hwf.clusterSize_pos (.of_grown hgrown _ hsame)
      rw [List.append_nil] at hwrote
      have hcard₂ := hgrown.card_freeClusters
      refine ⟨l₂, hwrote, fun hne => ?_, fun hlast heq => ?_⟩
      · have hlast : off / clusterSize g + 1 = l.length := by
          by_contra hmid
          exact hne (hgrown.keep.eq_of_length (by omega)).symm
        refine ⟨hfull, hlast, fun hempty => ?_⟩
        rw [hempty, Finset.card_empty] at hcard
        omega
      · rw [heq] at hlen
        omega
  · exact ⟨l, hchunk, fun hne => absurd rfl hne, fun hlast => absurd hlast.1 hfull⟩

/-! ### What a read returns -/

/-- The bytes of a chain from byte `off` on. -/
def chainBytes (g : VfatFSData) (d : Device) (l : List ℕ) (off n : ℕ) : List UInt8 :=
  (List.range n).map fun i => d.bytes (byteAddr g l (off + i))

@[simp] theorem length_chainBytes (l : List ℕ) (off n : ℕ) :
    (chainBytes g d l off n).length = n := by
  simp [chainBytes]

theorem chainBytes_add (l : List ℕ) (off m n : ℕ) :
    chainBytes g d l off (m + n) = chainBytes g d l off m ++ chainBytes g d l (off + m) n := by
  simp [chainBytes, List.range_add, Function.comp_def, Nat.add_assoc]

theorem Chain.read_chunk (hwf : Layout g d.size) (h : Chain g d c l)
    (hoff : off / clusterSize g < l.length) {n : ℕ}
    (hfit : off % clusterSize g + n ≤ clusterSize g) :
    d.read (byteAddr g l off) n = chainBytes g d l off n := by
  rw [d.read_eq (h.chunk_le hwf hoff hfit)]
  apply List.map_congr_left
  intro i hi
  rw [byteAddr_add hwf.clusterSize_pos (by have := List.mem_range.mp hi; omega)]

/-- The loop of the reader returns the bytes of the chain. -/
theorem readLoop_spec (hwf : WellFormed g d.size) (h : Chain g d c l) {fuel n : ℕ}
    (hoff : off / clusterSize g < l.length) (hfuel : n ≤ fuel)
    (hn : ∀ i < n, (off + i) / clusterSize g < l.length) :
    readLoop g d fuel l[off / clusterSize g] off n = chainBytes g d l off n := by
  have hpos := hwf.clusterSize_pos
  induction fuel generalizing off n with
  | zero =>
    obtain rfl : n = 0 := by omega
    rfl
  | succ fuel ih =>
    by_cases hzero : n = 0
    · subst hzero
      rw [readLoop, if_pos rfl]
      rfl
    obtain ⟨hm0, hm, hfit⟩ := chunkLength_spec hpos off hzero
    have hdiv := div_add_chunk hpos hfit
    have hblock := h.read_chunk hwf.layout hoff hfit
    have hne : chainBytes g d l off (chunkLength g off n) ≠ [] := by
      intro hnil
      have hlen := congrArg List.length hnil
      rw [length_chainBytes] at hlen
      exact hm0 hlen
    rw [readLoop, if_neg hzero]
    dsimp only
    rw [h.addr_mod_eq hwf hoff, hblock, if_neg hne, length_chainBytes]
    generalize chunkLength g off n = m at *
    obtain ⟨k, rfl⟩ : ∃ k, n = m + k := ⟨n - m, by omega⟩
    have hk : ∀ i < k, (off + m + i) / clusterSize g < l.length := fun i hi => by
      rw [Nat.add_assoc]
      exact hn (m + i) (by omega)
    rw [chainBytes_add, Nat.add_sub_cancel_left]
    by_cases hfull : off % clusterSize g + m = clusterSize g
    · rw [if_pos hfull]
      rw [if_pos hfull] at hdiv
      by_cases hend : getNextCluster g d l[off / clusterSize g] = eoc
      · have hlast := (h.next_eq_eoc_iff hoff).mp hend
        -- behind the last cluster there is nothing left to read
        obtain rfl : k = 0 := by
          by_contra hk0
          have hfirst := hk 0 (by omega)
          rw [Nat.add_zero] at hfirst
          omega
        rw [if_pos hend]
        simp [chainBytes]
      · have hlt : off / clusterSize g + 1 < l.length := by
          have := mt (h.next_eq_eoc_iff hoff).mpr hend
          omega
        have hnext : getNextCluster g d l[off / clusterSize g] = l[(off + m) / clusterSize g] := by
          rw [h.next hoff, List.getElem?_eq_getElem hlt, Option.getD_some]
          simp only [hdiv]
        rw [if_neg hend, hnext, ih (by omega) (by omega) hk]
    · rw [if_neg hfull]
      rw [if_neg hfull] at hdiv
      have hsame : l[off / clusterSize g] = l[(off + m) / clusterSize g] := by simp only [hdiv]
      rw [hsame, ih (by omega) (by omega) hk]

theorem seekChain_within (h : Chain g d c l) {n j : ℕ} (hj : j < l.length)
    (hn : j + n < l.length) : seekChain g d n l[j] = some l[j + n] := by
  induction n generalizing j with
  | zero => rfl
  | succ n ih =>
    have hlt : j + 1 < l.length := by omega
    have hnext : getNextCluster g d l[j] = l[j + 1] := by
      rw [h.next hj, List.getElem?_eq_getElem hlt, Option.getD_some]
    rw [seekChain, hnext, if_neg (h.ne_eoc _ (List.getElem_mem _)), ih hlt (by omega)]
    simp only [show j + 1 + n = j + (n + 1) by omega]

/-- The seek of the reader. -/
theorem seekChain_chain (h : Chain g d c l) {j : ℕ} (hj : j < l.length) :
    seekChain g d j c = some l[j] := by
  have hlt : 0 < l.length := by omega
  have hwithin := seekChain_within h hlt (show 0 + j < l.length by omega)
  rw [← h.head_eq hlt] at hwithin
  simpa only [Nat.zero_add] using hwithin

/-- A seek behind the end of the chain fails. -/
theorem seekChain_behind (h : Chain g d c l) {n j : ℕ} (hj : j < l.length)
    (hn : l.length ≤ j + n) :
    seekChain g d n l[j] = none := by
  induction n generalizing j with
  | zero => omega
  | succ n ih =>
    rw [seekChain]
    by_cases hend : getNextCluster g d l[j] = eoc
    · rw [if_pos hend]
    · have hlt : j + 1 < l.length := by
        have hne := mt (h.next_eq_eoc_iff hj).mpr hend
        omega
      have hnext : getNextCluster g d l[j] = l[j + 1] := by
        rw [h.next hj, List.getElem?_eq_getElem hlt, Option.getD_some]
      rw [if_neg hend, hnext, ih hlt (by omega)]

/-- A read inside the chain returns its bytes. -/
theorem readChain_spec (hwf : WellFormed g d.size) (h : Chain g d c l) {n : ℕ}
    (hoff : off / clusterSize g < l.length) (hword : off / clusterSize g < 2 ^ 32)
    (hn : ∀ i < n, (off + i) / clusterSize g < l.length) :
    readChain g d c off n = (.success, chainBytes g d l off n) := by
  rw [readChain, Nat.mod_eq_of_lt hword, seekChain_chain h hoff]
  dsimp only
  rw [readLoop_spec hwf h hoff le_rfl hn, length_chainBytes, if_pos rfl]

/-! ### Directory slots -/

/-- The entry in slot `index` of the directory with the chain `dir`. -/
def entryBuffer (g : VfatFSData) (d : Device) (dir : List ℕ) (index : ℕ) : ℕ → UInt8 :=
  slotBuffer (chainBytes g d dir (index * 32) 32)

theorem Chain.length_le (h : Chain g d c l) : l.length ≤ maxCluster g := by
  have hsub : l.toFinset ⊆ Finset.range (maxCluster g) := by
    intro x hx
    exact Finset.mem_range.mpr (h.2 x (List.mem_toFinset.mp hx)).2
  have hcard := Finset.card_le_card hsub
  rwa [List.toFinset_card_of_nodup h.nodup, Finset.card_range] at hcard

theorem Chain.word (hl : Layout g d.size) (h : Chain g d c l) : l.length < 2 ^ 32 := by
  have hlen := h.length_le
  have hmax := hl.maxCluster_le
  unfold eoc at hmax
  omega

/-- A slot of a directory lies in one cluster of it. -/
theorem slot_in_cluster (hwf : Layout g size) {index n : ℕ}
    (h : index * 32 + 32 ≤ n * clusterSize g) :
    index * 32 / clusterSize g < n ∧ index * 32 % clusterSize g + 32 ≤ clusterSize g ∧
      (index * 32 + 32 = n * clusterSize g ↔
        index * 32 % clusterSize g + 32 = clusterSize g ∧ index * 32 / clusterSize g + 1 = n) := by
  have hpos := hwf.clusterSize_pos
  have hdvd : 32 ∣ clusterSize g := Nat.dvd_of_mod_eq_zero hwf.slots
  have hlt : index * 32 / clusterSize g < n :=
    (Nat.div_lt_iff_lt_mul hpos).mpr (by omega)
  have hmod : index * 32 % clusterSize g % 32 = 0 := by
    rw [Nat.mod_mod_of_dvd _ hdvd]
    exact Nat.mul_mod_left _ _
  have hfit : index * 32 % clusterSize g + 32 ≤ clusterSize g := by
    have h1 := Nat.mod_lt (index * 32) hpos
    have h2 := hwf.slots
    omega
  refine ⟨hlt, hfit, fun heq => ?_, fun heq => ?_⟩
  · have hdiv := div_add_chunk hpos hfit
    rw [heq, Nat.mul_div_cancel _ hpos] at hdiv
    by_cases hend : index * 32 % clusterSize g + 32 = clusterSize g
    · rw [if_pos hend] at hdiv
      exact ⟨hend, hdiv.symm⟩
    · rw [if_neg hend] at hdiv
      omega
  · have hsplit := Nat.div_add_mod (index * 32) (clusterSize g)
    rw [← heq.2, Nat.succ_mul, Nat.mul_comm (index * 32 / clusterSize g)]
    omega

/-- All bytes of a slot are in the cluster of its first one. -/
theorem slot_div (hwf : Layout g size) {index n i : ℕ}
    (h : index * 32 + 32 ≤ n * clusterSize g) (hi : i < 32) :
    (index * 32 + i) / clusterSize g < n := by
  obtain ⟨hlt, hfit, -⟩ := slot_in_cluster hwf h
  rwa [div_add_chunk hwf.clusterSize_pos (by omega), if_neg (by omega)]

theorem slotBuffer_apply {bytes : List UInt8} {i : ℕ} (hi : i < bytes.length) :
    slotBuffer bytes i = bytes[i] := by
  have h := store_at (fun _ => (0 : UInt8)) 0 bytes hi
  rwa [Nat.zero_add] at h

theorem load_slotBuffer {bytes : List UInt8} {i n : ℕ} (h : i + n ≤ bytes.length) :
    load (slotBuffer bytes) i n = (bytes.drop i).take n := by
  apply List.ext_getElem
  · simp
    omega
  · intro k hk _
    rw [length_load] at hk
    rw [getElem_load, slotBuffer_apply (by omega)]
    simp

/-- The size in the entry after `vfatWriteFile` touched it. -/
theorem sfnFileSize_touchEntry (sfn : ℕ → UInt8) {n : ℕ} (hn : n < 2 ^ 32) (time date : ℕ) :
    sfnFileSize (slotBuffer (load (touchEntry sfn n time date) 0 32)) =
      max (sfnFileSize sfn) n := by
  have hbuffer : ∀ i, 28 ≤ i → i < 28 + 4 →
      slotBuffer (load (touchEntry sfn n time date) 0 32) i = touchEntry sfn n time date i := by
    intro i _ hi
    rw [slotBuffer_apply (by rw [length_load]; omega), getElem_load, Nat.zero_add]
  rw [sfnFileSize, loadLE_congr hbuffer]
  unfold touchEntry
  dsimp only
  rw [loadLE_storeLE_disjoint _ (by omega), loadLE_storeLE_disjoint _ (by omega)]
  split_ifs with hlt
  · rw [loadLE_storeLE_same _ _ _ (by simpa using hn)]
    omega
  · change sfnFileSize sfn = _
    omega

/-! ### Writing a file -/

/-- A regular file opened from its entry in slot `index` of a directory: its clusters are `l`,
    the chain of the directory is `dir`. -/
structure Opened (g : VfatFSData) (d : Device) (file : VfatFileData) (l dir : List ℕ) :
    Prop where
  chain : FileChain g d file.firstCluster l
  dirChain : Chain g d file.parentCluster dir
  disjoint : l.Disjoint dir
  slot : file.index * 32 + 32 ≤ dir.length * clusterSize g
  entry : sfnFirstCluster (entryBuffer g d dir file.index) = file.firstCluster
  regular : sfnAttributes (entryBuffer g d dir file.index) &&& subdir = 0

variable {file : VfatFileData} {dir dir₁ : List ℕ} {offset time date : ℕ}

/-- The bytes of a chain are the same where a write did not reach. -/
theorem Wrote.chainBytes_of_disjoint (hpos : 0 < clusterSize g)
    (h : Wrote g d d' c l l' off data) (hdisj : l'.Disjoint l₂) (h₂ : ∀ x ∈ l₂, 2 ≤ x) {k n : ℕ}
    (hk : ∀ i < n, (k + i) / clusterSize g < l₂.length) :
    chainBytes g d' l₂ k n = chainBytes g d l₂ k n := by
  apply List.map_congr_left
  intro i hi
  obtain ⟨x, hx, haddr, ho⟩ := byteAddr_mem hpos (hk i (List.mem_range.mp hi))
  refine h.outside _ (le_byteAddr _) fun j hj => ?_
  rw [haddr]
  exact (byteAddr_ne hpos h.grown.chain h₂ hdisj (h.fits j hj) hx ho).symm

/-- The stored data reads back. -/
theorem Wrote.chainBytes_eq (h : Wrote g d d' c l l' off data) :
    chainBytes g d' l' off data.length = data := by
  apply List.ext_getElem
  · simp
  · intro i _ hi
    simp only [chainBytes, List.getElem_map, List.getElem_range]
    exact h.inside i hi

theorem Opened.linked (ho : Opened g d file l dir) (hne : l ≠ []) : Chain g d file.firstCluster l :=
  ho.chain.chain hne

theorem Opened.parent_ne_eoc (hl : Layout g d.size) (ho : Opened g d file l dir) :
    file.parentCluster ≠ eoc := by
  obtain ⟨hslot, -, -⟩ := slot_in_cluster hl ho.slot
  have hdir : 0 < dir.length := Nat.zero_lt_of_lt hslot
  rw [ho.dirChain.head_eq hdir]
  exact ho.dirChain.ne_eoc _ (List.getElem_mem hdir)

/-- The update of the entry, on a volume that has the directory as it was: the entry is stored along
    the directory's chain, which grows exactly when it is in the last slot and a cluster is left. -/
theorem Opened.updated (hwf : WellFormed g d₁.size) (ho : Opened g d file l dir)
    (hdir : Chain g d₁ file.parentCluster dir)
    (hbytes : chainBytes g d₁ dir (file.index * 32) 32 = chainBytes g d dir (file.index * 32) 32)
    (n time date : ℕ) : ∃ dir₁, Wrote g d₁ (updateEntry g d₁ file n time date) file.parentCluster dir dir₁
        (file.index * 32) (load (touchEntry (entryBuffer g d dir file.index) n time date) 0 32) ∧
      (dir₁ ≠ dir ↔ file.index * 32 + 32 = dir.length * clusterSize g ∧ freeClusters g d₁ ≠ ∅) := by
  obtain ⟨hslot, hfit, hlast⟩ := slot_in_cluster hwf.layout ho.slot
  have hdirWord := hslot.trans (hdir.word hwf.layout)
  have hread : (readChain g d₁ file.parentCluster (file.index * 32) 32).2 =
      chainBytes g d dir (file.index * 32) 32 := by
    rw [readChain_spec hwf hdir hslot hdirWord fun i hi => slot_div hwf.layout ho.slot hi]
    exact hbytes
  have hupdate : updateEntry g d₁ file n time date =
      (writeChain g d₁ file.parentCluster
        (load (touchEntry (entryBuffer g d dir file.index) n time date) 0 32)
        (file.index * 32)).1 := by
    rw [updateEntry, hread]
    exact if_pos ho.regular
  obtain ⟨dir₁, hwrote, hgrew⟩ := writeChain_slot hwf.layout hdir hslot
    (show load (touchEntry (entryBuffer g d dir file.index) n time date) 0 32 ≠ [] from
      fun hnil => by simpa using congrArg List.length hnil)
    (by rw [length_load]; exact hfit) hdirWord
  rw [← hupdate] at hwrote
  refine ⟨dir₁, hwrote, ?_⟩
  rw [hgrew, length_load, hlast, and_assoc]

/-- A write that succeeds stores the data along the file's chain and then the entry along
    the directory's chain, which grows exactly when the entry is in its last slot and a
    cluster is left. -/
theorem Opened.wrote (hwf : WellFormed g d.size) (ho : Opened g d file l dir) (hne : l ≠ [])
    (hlt : offset + data.length < 2 ^ 32) {w : Option ℕ}
    (hcall : vfatWriteFile g d file data offset time date = (d', .success, w)) :
    ∃ d₁ l₁ dir₁, Wrote g d d₁ file.firstCluster l l₁ offset data ∧
      offset / clusterSize g < l₁.length ∧ l₁.Disjoint dir ∧
      Wrote g d₁ d' file.parentCluster dir dir₁ (file.index * 32)
        (load (touchEntry (entryBuffer g d dir file.index) (offset + data.length) time date)
          0 32) ∧
      (dir₁ ≠ dir ↔ file.index * 32 + 32 = dir.length * clusterSize g ∧
        (offset + data.length) / clusterSize g + 1 - l.length < (freeClusters g d).card) := by
  have hpos := hwf.clusterSize_pos
  have hoffWord : offset / clusterSize g < 2 ^ 32 := lt_of_le_of_lt (Nat.div_le_self _ _) (by omega)
  rw [vfatWriteFile] at hcall
  rcases hdata : writeChain g d file.firstCluster data offset with ⟨d₁, r, - | w'⟩
  · rw [hdata] at hcall
    cases hcall
    exact absurd (writeChain_none hdata) (by decide)
  rw [hdata] at hcall
  dsimp only at hcall
  rw [if_pos (ho.parent_ne_eoc hwf.layout)] at hcall
  obtain ⟨rfl, l₁, hwrote, hlen⟩ :=
    writeChain_spec hwf.layout (ho.linked hne) hne hoffWord hdata
  cases hcall
  obtain ⟨hdir₁, hdisj⟩ := hwrote.grown.frame ho.dirChain ho.disjoint
  have hwf₁ : WellFormed g d₁.size := by rwa [hwrote.grown.size]
  -- the entry is read from the directory as it was
  have hbytes := hwrote.chainBytes_of_disjoint hpos hdisj (fun x hx => (ho.dirChain.2 x hx).1)
    fun i hi => slot_div hwf.layout ho.slot hi
  obtain ⟨dir₁, hwrote₁, hgrew⟩ := ho.updated hwf₁ hdir₁ hbytes (offset + data.length) time date
  refine ⟨d₁, l₁, dir₁, hwrote, ?_, hdisj, hwrote₁, ?_⟩
  · have hmono : offset / clusterSize g ≤ (offset + data.length) / clusterSize g :=
      Nat.div_le_div_right (by omega)
    omega
  · have hcard := hwrote.grown.card_freeClusters
    have hfree : freeClusters g d₁ ≠ ∅ ↔
        (offset + data.length) / clusterSize g + 1 - l.length < (freeClusters g d).card := by
      rw [ne_eq, ← Finset.card_eq_zero]
      omega
    rw [hgrew, hfree]

/-- The links of a chain that did not grow. -/
theorem Grown.same (h : Grown g d d' c l l) {x : ℕ} (hx : IsCluster g x) :
    getNextCluster g d' x = getNextCluster g d x := by
  by_cases hmem : x ∈ l
  · obtain ⟨j, hj, rfl⟩ := List.getElem_of_mem hmem
    rw [h.chain.next hj, h.old.next hj]
  · exact h.other x hx hmem

theorem div_lt_of_lt_mul {k n : ℕ} (h : k < n * clusterSize g) :
    k / clusterSize g < n :=
  Nat.div_lt_of_lt_mul (by rwa [Nat.mul_comm])

/-- A file without clusters, written to at an offset that the first cluster would hold: the writer
    stores behind the volume, where there is nothing, and succeeds only with nothing to store. -/
theorem writeChain_empty (hoff : offset < clusterSize g)
    (hdevice : d.size ≤ g.dataOffset + clusterIndex 0 * clusterSize g) :
    writeChain g d 0 data offset =
      (d, if 0 = data.length then .success else .endOfFile, some 0) := by
  have hloop : writeLoop g data.length d 0 offset data 0 = (d, some 0) := by
    cases data with
    | nil => rfl
    | cons x xs =>
      have hserved : d.size - (g.dataOffset + clusterIndex 0 * clusterSize g +
          offset % clusterSize g) = 0 := by omega
      rw [List.length_cons, writeLoop, if_neg (List.cons_ne_nil _ _)]
      dsimp only
      rw [Device.served, hserved, List.take_zero]
      exact if_pos rfl
  rw [writeChain, Nat.div_eq_of_lt hoff, Nat.zero_mod, seekExtend]
  dsimp only
  rw [hloop]

/-- One-sector clusters, and tables of one sector. -/
def smallVolume : VfatFSData := ⟨512, 1, 512, 1, 1536, ⟨0, eoc, 2⟩⟩

/-- A long-name slot and the short entry of the file `A` with first cluster 3. -/
def entryOfA : List UInt8 :=
  [0x41, 0x41, 0, 0, 0] ++ List.replicate 6 0xff ++ [0x0f, 0, 0x7b] ++ List.replicate 12 0xff ++
    [0, 0] ++ List.replicate 4 0xff ++
  ([0x41] ++ List.replicate 10 0x20 ++ [0x20] ++ List.replicate 14 0 ++ [3, 0] ++
    List.replicate 4 0)

/-- A root directory of one cluster that holds `n` deleted slots and the file `A`. -/
def smallDevice (n : ℕ) : Device :=
  let chains := leBytes 4 eoc ++ leBytes 4 eoc
  let dir := (List.replicate n (0xe5 :: List.replicate 31 0)).flatten ++ entryOfA
  ⟨66048, store (store (store (fun _ => 0) 520 chains) 1032 chains) 1536 dir⟩

theorem smallVolume_wellFormed (n : ℕ) : WellFormed smallVolume (smallDevice n).size :=
  ⟨by decide, by decide, by decide, by decide, by show _ ≤ 66048; decide, by decide⟩

theorem smallVolume_opened {d : Device} {n : ℕ} (hn : n < 16)
    (hdir : getNextCluster smallVolume d 2 = eoc) (hfile : getNextCluster smallVolume d 3 = eoc)
    (hentry : sfnFirstCluster (entryBuffer smallVolume d [2] n) = 3)
    (hregular : sfnAttributes (entryBuffer smallVolume d [2] n) &&& subdir = 0) :
    Opened smallVolume d ⟨n, 2, 3⟩ [3] [2] := by
  have hcluster : ∀ x ∈ [2, 3], IsCluster smallVolume x := by
    simp [IsCluster, maxCluster, smallVolume]
  refine ⟨.inl ⟨List.cons_ne_nil _ _, ⟨rfl, by decide, hfile⟩, ?_⟩, ⟨⟨rfl, by decide, hdir⟩, ?_⟩,
    by simp, ?_, hentry, hregular⟩
  · intro x hx
    exact hcluster x (List.mem_cons_of_mem _ hx)
  · intro x hx
    obtain rfl := List.mem_singleton.mp hx
    exact hcluster 2 (by simp)
  · show n * 32 + 32 ≤ 1 * 512
    omega

theorem smallDevice_opened : Opened smallVolume (smallDevice 0) ⟨1, 2, 3⟩ [3] [2] :=
  smallVolume_opened (by decide) (by decide +kernel) (by decide +kernel) (by decide +kernel)
    (by decide +kernel)

theorem smallDevice_fileChain : Chain smallVolume (smallDevice 0) 3 [3] :=
  smallDevice_opened.linked (List.cons_ne_nil _ _)

end XTOS.Vfat

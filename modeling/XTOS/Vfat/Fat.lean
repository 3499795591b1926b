import XTOS.Lib.Linked
import XTOS.Lib.Memory
import XTOS.Result

/-!
# The file allocation table

The device and the table of cluster links of `drivers/vfat/main.c`: `get_next_cluster`,
`set_next_cluster`, `find_free_cluster`.

## Main definitions

- `Device` — a byte array that serves the part of a transfer that lies on it
- `VfatFSData` — the geometry of a mounted volume
- `getNextCluster`, `setNextCluster`, `findFreeCluster`
- `Layout` — a geometry with two tables in front of the clusters
- `WellFormed` — such a geometry below 4 GiB
- `Chain` — the clusters from a first one to the end mark
- `FileChain` — the clusters of a file, which may have none
- `Grown` — a table in which one chain got longer and nothing else changed

## Design notes

Clusters are numbers; the fields of the geometry are 32-bit words and the sums the source
forms of them are taken modulo `2 ^ 32`.
-/

namespace XTOS.Vfat

open SysLib

/-- A block device. -/
structure Device where
  size : ℕ
  bytes : ℕ → UInt8

/-- The bytes that a read delivers. -/
def Device.read (d : Device) (offset count : ℕ) : List UInt8 :=
  load d.bytes offset (min count (d.size - offset))

/-- The part of the data that a write stores. -/
def Device.served (d : Device) (offset : ℕ) (data : List UInt8) : List UInt8 :=
  data.take (d.size - offset)

/-- A write to the device. -/
def Device.write (d : Device) (offset : ℕ) (data : List UInt8) : Device :=
  { d with bytes := store d.bytes offset (d.served offset data) }

/-- `vfatFileData`. -/
structure VfatFileData where
  index : ℕ
  parentCluster : ℕ
  firstCluster : ℕ

/-- `vfatFSData`. -/
structure VfatFSData where
  fatSizeBytes : ℕ
  sectorsPerCluster : ℕ
  bytesPerSector : ℕ
  reservedSectors : ℕ
  dataOffset : ℕ
  rootDir : VfatFileData

/-- `EOC`. -/
def eoc : ℕ := 0x0fffffff

/-- Bytes of a cluster. -/
def clusterSize (g : VfatFSData) : ℕ := g.sectorsPerCluster * g.bytesPerSector % 2 ^ 32

/-- Where the first table starts. -/
def fatOffset (g : VfatFSData) : ℕ := g.reservedSectors * g.bytesPerSector % 2 ^ 32

/-- The number of entries of a table. -/
def maxCluster (g : VfatFSData) : ℕ := g.fatSizeBytes / 4

/-- `get_next_cluster`. -/
def getNextCluster (g : VfatFSData) (d : Device) (cluster : ℕ) : ℕ :=
  if cluster < 2 then eoc
  else
    let result := d.read ((fatOffset g + cluster * 4) % 2 ^ 32) 4
    if result = [] then eoc else leNat result

/-- `set_next_cluster`; nothing is ever linked to the clusters 0 and 1. -/
def setNextCluster (g : VfatFSData) (d : Device) (source target : ℕ) : Device :=
  if source < 2 ∨ target = 0 ∨ target = 1 then d
  else
    (d.write ((fatOffset g + source * 4) % 2 ^ 32) (leBytes 4 target)).write
      ((fatOffset g + g.fatSizeBytes + source * 4) % 2 ^ 32) (leBytes 4 target)

/-- The loop of `find_free_cluster`, from cluster `i` on. -/
def findFreeFrom (g : VfatFSData) (d : Device) : ℕ → ℕ → ℕ
  | _, 0 => eoc
  | i, n + 1 =>
    if leNat (d.read ((fatOffset g + i * 4) % 2 ^ 32) 4) = 0 then i
    else findFreeFrom g d (i + 1) n

/-- `find_free_cluster`. -/
def findFreeCluster (g : VfatFSData) (d : Device) : ℕ := findFreeFrom g d 2 (maxCluster g - 2)

/-- The cluster after `current`; a new one is linked at the end of the chain. -/
def nextOrExtend (g : VfatFSData) (d : Device) (current : ℕ) : Device × Option ℕ :=
  let next := getNextCluster g d current
  if next = eoc then
    let next := findFreeCluster g d
    if next = eoc then (d, none)
    else (setNextCluster g (setNextCluster g d current next) next eoc, some next)
  else (d, some next)

/-! ### The geometry of a volume -/

/-- Two copies of the table in front of the clusters, all clusters on the device and below
    4 GiB, and a whole number of directory slots in a cluster. -/
structure WellFormed (g : VfatFSData) (size : ℕ) : Prop where
  clusterSize_pos : 0 < clusterSize g
  slots : clusterSize g % 32 = 0
  table : g.reservedSectors * g.bytesPerSector + 2 * g.fatSizeBytes ≤ g.dataOffset
  word : g.dataOffset < 2 ^ 32
  inside : g.dataOffset + (maxCluster g - 2) * clusterSize g ≤ size
  below : g.dataOffset + (maxCluster g - 2) * clusterSize g ≤ 2 ^ 32

/-- Two copies of the table in front of the clusters, all clusters on the device, fewer of them than
    the number of the end mark, and a whole number of directory slots in a cluster. -/
structure Layout (g : VfatFSData) (size : ℕ) : Prop where
  clusterSize_pos : 0 < clusterSize g
  slots : clusterSize g % 32 = 0
  table : g.reservedSectors * g.bytesPerSector + 2 * g.fatSizeBytes ≤ g.dataOffset
  word : g.dataOffset < 2 ^ 32
  inside : g.dataOffset + (maxCluster g - 2) * clusterSize g ≤ size
  maxCluster_le : maxCluster g ≤ eoc

/-- A cluster that the table has an entry for. -/
def IsCluster (g : VfatFSData) (c : ℕ) : Prop := 2 ≤ c ∧ c < maxCluster g

/-- The address of a byte of a cluster. -/
def cellAddr (g : VfatFSData) (c o : ℕ) : ℕ := g.dataOffset + (c - 2) * clusterSize g + o

variable {g : VfatFSData} {d d' : Device} {size c o : ℕ}

theorem Layout.fatOffset_eq (h : Layout g size) :
    fatOffset g = g.reservedSectors * g.bytesPerSector := by
  have h1 := h.table
  have h2 := h.word
  exact Nat.mod_eq_of_lt (by omega)

/-- The entries of the first table. -/
theorem Layout.entry (h : Layout g size) (hc : IsCluster g c) :
    fatOffset g + c * 4 + 4 ≤ fatOffset g + g.fatSizeBytes ∧
      fatOffset g + 2 * g.fatSizeBytes ≤ g.dataOffset := by
  have h1 := h.table
  have h2 := h.fatOffset_eq
  have h3 := hc.2
  unfold maxCluster at h3
  omega

theorem cellAddr_le (hc : IsCluster g c) (ho : o ≤ clusterSize g) :
    cellAddr g c o ≤ g.dataOffset + (maxCluster g - 2) * clusterSize g := by
  obtain ⟨h1, h2⟩ := hc
  have hmul : (c - 2) * clusterSize g + clusterSize g ≤ (maxCluster g - 2) * clusterSize g := by
    rw [← Nat.succ_mul]
    exact Nat.mul_le_mul_right _ (by omega)
  unfold cellAddr
  omega

/-- The bytes of a cluster lie on the device. -/
theorem Layout.cluster (h : Layout g size) (hc : IsCluster g c) (ho : o ≤ clusterSize g) :
    cellAddr g c o ≤ size :=
  (cellAddr_le hc ho).trans h.inside

/-- The bytes of a cluster lie below 4 GiB. -/
theorem WellFormed.cluster (h : WellFormed g size) (hc : IsCluster g c) (ho : o ≤ clusterSize g) :
    cellAddr g c o ≤ 2 ^ 32 :=
  (cellAddr_le hc ho).trans h.below

theorem le_cellAddr : g.dataOffset ≤ cellAddr g c o := by
  unfold cellAddr
  omega

/-- Different bytes of clusters have different addresses. -/
theorem cellAddr_inj {c' o' : ℕ} (hc : 2 ≤ c) (hc' : 2 ≤ c') (ho : o < clusterSize g)
    (ho' : o' < clusterSize g) (h : cellAddr g c o = cellAddr g c' o') : c = c' ∧ o = o' := by
  unfold cellAddr at h
  have hpos : 0 < clusterSize g := by omega
  have hdiv : ((c - 2) * clusterSize g + o) / clusterSize g =
      ((c' - 2) * clusterSize g + o') / clusterSize g := congrArg (· / _) (by omega)
  rw [Nat.mul_comm, Nat.mul_add_div hpos, Nat.div_eq_of_lt ho, Nat.mul_comm (c' - 2),
    Nat.mul_add_div hpos, Nat.div_eq_of_lt ho'] at hdiv
  have hcc : c = c' := by omega
  subst hcc
  exact ⟨rfl, by omega⟩

/-- Below 4 GiB there are fewer clusters than the number of the end mark. -/
theorem WellFormed.layout (h : WellFormed g size) : Layout g size := by
  have h1 := h.below
  have h2 := h.clusterSize_pos
  have h3 := h.slots
  have hmul : (maxCluster g - 2) * 32 ≤ (maxCluster g - 2) * clusterSize g :=
    Nat.mul_le_mul_left _ (by omega)
  refine ⟨h.clusterSize_pos, h.slots, h.table, h.word, h.inside, ?_⟩
  unfold eoc
  omega

theorem IsCluster.ne_eoc (h : Layout g size) (hc : IsCluster g c) : c ≠ eoc := by
  have h1 := h.maxCluster_le
  have h2 := hc.2
  omega

/-! ### Entries of the table -/

theorem Device.read_eq {a n : ℕ} (d : Device) (h : a + n ≤ d.size) :
    d.read a n = load d.bytes a n := by
  rw [Device.read, Nat.min_eq_left (by omega)]

theorem Device.write_eq {a : ℕ} {data : List UInt8} (d : Device) (h : a + data.length ≤ d.size) :
    d.write a data = { d with bytes := store d.bytes a data } := by
  rw [Device.write, Device.served, List.take_of_length_le (by omega)]

theorem Device.write_size (d : Device) (a : ℕ) (data : List UInt8) : (d.write a data).size = d.size :=
  rfl

/-- A write stores nothing outside of its range. -/
theorem Device.write_bytes_outside (d : Device) {o : ℕ} {xs : List UInt8}
    (h : a < o ∨ o + xs.length ≤ a) : (d.write o xs).bytes a = d.bytes a := by
  apply store_outside
  have hle : (d.served o xs).length ≤ xs.length := List.length_take_le' _ _
  omega

/-- The tables lie on the device. -/
theorem Layout.dataOffset_le (h : Layout g size) : g.dataOffset ≤ size :=
  le_trans (Nat.le_add_right _ _) h.inside

theorem Layout.read_entry (h : Layout g d.size) (hc : IsCluster g c) :
    d.read ((fatOffset g + c * 4) % 2 ^ 32) 4 = load d.bytes (fatOffset g + c * 4) 4 := by
  have h1 := h.entry hc
  have h2 := h.word
  have h3 := h.dataOffset_le
  rw [Nat.mod_eq_of_lt (by omega), d.read_eq (by omega)]

theorem getNextCluster_eq (h : Layout g d.size) (hc : IsCluster g c) :
    getNextCluster g d c = loadLE d.bytes (fatOffset g + c * 4) 4 := by
  have hnil : load d.bytes (fatOffset g + c * 4) 4 ≠ [] := fun h0 => by
    have hlen := congrArg List.length h0
    simp at hlen
  rw [getNextCluster, if_neg (by have := hc.1; omega), h.read_entry hc, if_neg hnil]
  rfl

/-- Tables that agree below the clusters have the same links. -/
theorem getNextCluster_congr (h : Layout g d.size) (hsize : d'.size = d.size)
    (hc : IsCluster g c) (hbytes : ∀ i < g.dataOffset, d'.bytes i = d.bytes i) :
    getNextCluster g d' c = getNextCluster g d c := by
  have h1 := h.entry hc
  rw [getNextCluster_eq (by rwa [hsize]) hc, getNextCluster_eq h hc]
  exact loadLE_congr fun i _ hi => hbytes i (by omega)

theorem setNextCluster_eq (h : Layout g d.size) (hc : IsCluster g c) {target : ℕ}
    (ht : 2 ≤ target) : setNextCluster g d c target =
      { d with bytes := storeLE (storeLE d.bytes (fatOffset g + c * 4) 4 target)
                (fatOffset g + g.fatSizeBytes + c * 4) 4 target } := by
  have h1 := h.entry hc
  have h2 := h.word
  have h3 := h.dataOffset_le
  have h4 := hc.1
  rw [setNextCluster, if_neg (by omega), Nat.mod_eq_of_lt (by omega), Nat.mod_eq_of_lt (by omega),
    d.write_eq (by rw [length_leBytes]; omega), Device.write_eq _
      (by rw [length_leBytes]; show _ ≤ d.size; omega)]
  rfl

@[simp] theorem setNextCluster_size (g : VfatFSData) (d : Device) (source target : ℕ) :
    (setNextCluster g d source target).size = d.size := by
  rw [setNextCluster]
  split_ifs
  · rfl
  · rfl

/-- Linking a cluster writes in the tables only. -/
theorem setNextCluster_bytes (h : Layout g d.size) (hc : IsCluster g c) {target : ℕ}
    (ht : 2 ≤ target) {i : ℕ} (hi : g.dataOffset ≤ i) :
    (setNextCluster g d c target).bytes i = d.bytes i := by
  have h1 := h.entry hc
  rw [setNextCluster_eq h hc ht]
  dsimp only
  rw [storeLE_outside _ _ (by omega), storeLE_outside _ _ (by omega)]

/-- The links after one of them is set. -/
theorem getNextCluster_setNextCluster (h : Layout g d.size) {source target : ℕ}
    (hs : IsCluster g source) (ht : 2 ≤ target) (hlt : target < 2 ^ 32) (hc : IsCluster g c) :
    getNextCluster g (setNextCluster g d source target) c =
      if c = source then target else getNextCluster g d c := by
  have h1 := h.entry hs
  have h2 := h.entry hc
  rw [getNextCluster_eq (by simpa using h) hc, getNextCluster_eq h hc, setNextCluster_eq h hs ht]
  dsimp only
  rw [loadLE_storeLE_disjoint _ (by omega)]
  split_ifs with heq
  · rw [heq, loadLE_storeLE_same _ _ _ (by simpa using hlt)]
  · rw [loadLE_storeLE_disjoint _ (by omega)]

/-- What the search from cluster `i` on finds. -/
theorem findFreeFrom_spec (h : Layout g d.size) {n i : ℕ} (hi : 2 ≤ i)
    (hn : i + n ≤ maxCluster g) :
    (IsCluster g (findFreeFrom g d i n) ∧ getNextCluster g d (findFreeFrom g d i n) = 0) ∨
      (findFreeFrom g d i n = eoc ∧ ∀ c, i ≤ c → c < i + n → getNextCluster g d c ≠ 0) := by
  induction n generalizing i with
  | zero => exact .inr ⟨rfl, fun c h1 h2 => absurd h2 (by omega)⟩
  | succ n ih =>
    have hc : IsCluster g i := ⟨hi, by omega⟩
    have heq := getNextCluster_eq h hc
    rw [findFreeFrom, h.read_entry hc]
    by_cases hz : leNat (load d.bytes (fatOffset g + i * 4) 4) = 0
    · rw [if_pos hz]
      exact .inl ⟨hc, heq.trans hz⟩
    · rw [if_neg hz]
      refine (ih (by omega) (by omega)).imp_right fun hnone => ⟨hnone.1, fun c h1 h2 => ?_⟩
      by_cases hci : c = i
      · rw [hci, heq]
        exact hz
      · exact hnone.2 c (by omega) (by omega)

/-- `find_free_cluster` returns a free cluster, or there is none. -/
theorem findFreeCluster_spec (h : Layout g d.size) :
    (IsCluster g (findFreeCluster g d) ∧ getNextCluster g d (findFreeCluster g d) = 0) ∨
      (findFreeCluster g d = eoc ∧ ∀ c, IsCluster g c → getNextCluster g d c ≠ 0) := by
  rw [findFreeCluster]
  by_cases hmax : 2 ≤ maxCluster g
  · refine (findFreeFrom_spec h le_rfl (by omega)).imp_right fun hnone => ⟨hnone.1, fun c hc => ?_⟩
    exact hnone.2 c hc.1 (by have := hc.2; omega)
  · have hzero : maxCluster g - 2 = 0 := by omega
    rw [hzero]
    exact .inr ⟨rfl, fun c hc => absurd hc.2 (by have := hc.1; omega)⟩

/-! ### Chains -/

/-- The clusters from `c` to the end mark. -/
def Chain (g : VfatFSData) (d : Device) (c : ℕ) (l : List ℕ) : Prop :=
  Linked eoc (getNextCluster g d) c l eoc ∧ ∀ x ∈ l, IsCluster g x

/-- The clusters of a chain are not free. -/
theorem Chain.ne_zero {l : List ℕ} (h : Chain g d c l) : ∀ x ∈ l, getNextCluster g d x ≠ 0 := by
  obtain ⟨hl, hin⟩ := h
  induction l generalizing c with
  | nil => simp
  | cons x l ih =>
    obtain ⟨rfl, -, hl⟩ := hl
    intro y hy
    obtain rfl | hy := List.mem_cons.mp hy
    · cases l with
      | nil =>
        rw [show getNextCluster g d y = eoc from hl]
        decide
      | cons z l =>
        have hz := hin z (by simp)
        rw [hl.1]
        have := hz.1
        omega
    · exact ih hl (fun z hz => hin z (by simp [hz])) y hy

/-- The links along a chain. -/
theorem Chain.next {l : List ℕ} (h : Chain g d c l) {j : ℕ} (hj : j < l.length) :
    getNextCluster g d l[j] = (l[j + 1]?).getD eoc := by
  have hl := h.1
  clear h
  induction l generalizing c j with
  | nil => simp at hj
  | cons x l ih =>
    obtain ⟨rfl, -, hl⟩ := hl
    cases j with
    | zero =>
      have hhead := hl.head
      rw [List.getElem_cons_zero, hhead]
      cases l with
      | nil => rfl
      | cons y l => rfl
    | succ j =>
      rw [List.length_cons] at hj
      simpa using ih (by omega) hl

theorem Chain.ne_eoc {l : List ℕ} (h : Chain g d c l) : ∀ x ∈ l, x ≠ eoc := h.1.ne_null

theorem Chain.nodup {l : List ℕ} (h : Chain g d c l) : l.Nodup := h.1.nodup

/-- A chain whose links are the same. -/
theorem Chain.congr {l : List ℕ} (h : Chain g d c l)
    (hnext : ∀ x ∈ l, getNextCluster g d' x = getNextCluster g d x) : Chain g d' c l :=
  ⟨h.1.congr hnext, h.2⟩

/-- The clusters that `find_free_cluster` can return. -/
def freeClusters (g : VfatFSData) (d : Device) : Finset ℕ :=
  (Finset.range (maxCluster g)).filter fun c => 2 ≤ c ∧ getNextCluster g d c = 0

theorem mem_freeClusters : c ∈ freeClusters g d ↔ IsCluster g c ∧ getNextCluster g d c = 0 := by
  simp only [freeClusters, Finset.mem_filter, Finset.mem_range, IsCluster]
  tauto

theorem freeClusters_eq_empty (h : ∀ c, IsCluster g c → getNextCluster g d c ≠ 0) :
    freeClusters g d = ∅ := by
  ext x
  rw [mem_freeClusters]
  simp only [Finset.notMem_empty, iff_false, not_and]
  exact h x

/-- The chain from `c` grew from `l` to `l'` by clusters that were free; no other link
    changed. -/
structure Grown (g : VfatFSData) (d d' : Device) (c : ℕ) (l l' : List ℕ) : Prop where
  size : d'.size = d.size
  old : Chain g d c l
  chain : Chain g d' c l'
  keep : l <+: l'
  new : ∀ x ∈ l', x ∉ l → getNextCluster g d x = 0
  other : ∀ x, IsCluster g x → x ∉ l' → getNextCluster g d' x = getNextCluster g d x

variable {d₁ d₂ : Device} {l l' l₁ l₂ : List ℕ}

theorem Grown.refl (h : Chain g d c l) : Grown g d d c l l :=
  ⟨rfl, h, h, List.prefix_refl l, fun _ h1 h2 => absurd h1 h2, fun _ _ _ => rfl⟩

theorem Grown.trans (h : Grown g d d₁ c l l₁) (h' : Grown g d₁ d₂ c l₁ l₂) :
    Grown g d d₂ c l l₂ := by
  refine ⟨h'.size.trans h.size, h.old, h'.chain, h.keep.trans h'.keep, fun x h2 hl => ?_,
    fun x hx h2 => ?_⟩
  · by_cases h1 : x ∈ l₁
    · exact h.new x h1 hl
    · rw [← h.other x (h'.chain.2 x h2) h1]
      exact h'.new x h2 h1
  · have h1 : x ∉ l₁ := fun h1 => h2 (h'.keep.subset h1)
    rw [h'.other x hx h2, h.other x hx h1]

/-- **Frame**: a chain that is disjoint from the old one is disjoint from the new one and
    stays as it is. -/
theorem Grown.frame (h : Grown g d d' c l l') {c₂ : ℕ} (h₂ : Chain g d c₂ l₂)
    (hdisj : l.Disjoint l₂) : Chain g d' c₂ l₂ ∧ l'.Disjoint l₂ := by
  have hnot : l'.Disjoint l₂ := by
    intro x hx hx₂
    by_cases hl : x ∈ l
    · exact hdisj hl hx₂
    · exact h₂.ne_zero x hx₂ (h.new x hx hl)
  exact ⟨h₂.congr fun x hx => h.other x (h₂.2 x hx) fun hx' => hnot hx' hx, hnot⟩

/-- The clusters that were added are the ones that are no longer free. -/
theorem Grown.card_freeClusters (h : Grown g d d' c l l') :
    (freeClusters g d).card = (freeClusters g d').card + (l'.length - l.length) := by
  obtain ⟨new, rfl⟩ := h.keep
  have hnd := List.nodup_append.mp h.chain.nodup
  have hsplit : freeClusters g d = freeClusters g d' ∪ new.toFinset := by
    ext x
    rw [Finset.mem_union, mem_freeClusters, mem_freeClusters, List.mem_toFinset]
    constructor
    · rintro ⟨hx, hfree⟩
      by_cases hnew : x ∈ new
      · exact .inr hnew
      · by_cases hl : x ∈ l
        · exact absurd hfree (h.old.ne_zero x hl)
        · exact .inl ⟨hx, by rwa [h.other x hx (by simp [hl, hnew])]⟩
    · rintro (⟨hx, hfree⟩ | hnew)
      · have hnot : x ∉ l ++ new := fun hmem => h.chain.ne_zero x hmem hfree
        exact ⟨hx, by rwa [← h.other x hx hnot]⟩
      · have hl : x ∉ l := fun hl => hnd.2.2 x hl x hnew rfl
        have hmem : x ∈ l ++ new := by simp [hnew]
        exact ⟨h.chain.2 x hmem, h.new x hmem hl⟩
  have hdisj : Disjoint (freeClusters g d') new.toFinset := by
    rw [Finset.disjoint_left]
    intro x hx hnew
    rw [List.mem_toFinset] at hnew
    exact h.chain.ne_zero x (by simp [hnew]) (mem_freeClusters.mp hx).2
  rw [hsplit, Finset.card_union_of_disjoint hdisj, List.toFinset_card_of_nodup hnd.2.1,
    List.length_append, Nat.add_sub_cancel_left]

/-- A write behind the tables leaves the links as they are. -/
theorem Grown.of_data (hwf : Layout g d.size) (h : Chain g d c l) (hsize : d'.size = d.size)
    (hbytes : ∀ i < g.dataOffset, d'.bytes i = d.bytes i) : Grown g d d' c l l := by
  have hnext : ∀ x, IsCluster g x → getNextCluster g d' x = getNextCluster g d x :=
    fun x hx => getNextCluster_congr hwf hsize hx hbytes
  exact ⟨hsize, h, h.congr fun x hx => hnext x (h.2 x hx), List.prefix_refl l,
    fun _ h1 h2 => absurd h1 h2, fun x hx _ => hnext x hx⟩

/-- Linking a free cluster at the end of a chain. -/
theorem Grown.link (hwf : Layout g d.size) {last new : ℕ} {pre : List ℕ}
    (h : Chain g d c (pre ++ [last])) (hnew : IsCluster g new)
    (hfree : getNextCluster g d new = 0) :
    Grown g d (setNextCluster g (setNextCluster g d last new) new eoc) c (pre ++ [last])
      (pre ++ [last] ++ [new]) := by
  have hlast : IsCluster g last := h.2 last (by simp)
  have hnd := h.nodup
  have hnotin : new ∉ pre ++ [last] := fun hmem => h.ne_zero new hmem hfree
  have hlt : new < 2 ^ 32 := by
    have h1 := hnew.2
    have h2 := hwf.maxCluster_le
    unfold eoc at h2
    omega
  have hnext : ∀ x, IsCluster g x →
      getNextCluster g (setNextCluster g (setNextCluster g d last new) new eoc) x =
        if x = new then eoc else if x = last then new else getNextCluster g d x := by
    intro x hx
    rw [getNextCluster_setNextCluster (by simpa using hwf) hnew (by decide) (by decide) hx,
      getNextCluster_setNextCluster hwf hlast hnew.1 hlt hx]
  have hnl : last ≠ new := fun heq => hnotin (by simp [heq])
  refine ⟨by simp, h, ⟨?_, ?_⟩, List.prefix_append _ _, ?_, ?_⟩
  · obtain ⟨b, hpre, hb⟩ := linked_append.mp h.1
    obtain ⟨rfl, hbne, -⟩ := hb
    rw [List.append_assoc]
    refine linked_append.mpr ⟨b, hpre.congr fun x hx => ?_, rfl, hbne, ?_, hnew.ne_eoc hwf, ?_⟩
    · have hxn : x ≠ new := fun heq => hnotin (by simp [← heq, hx])
      have hxb : x ≠ b := (List.nodup_append.mp hnd).2.2 x hx b (by simp)
      rw [hnext x (h.2 x (by simp [hx])), if_neg hxn, if_neg hxb]
    · rw [hnext b hlast, if_neg hnl, if_pos rfl]
    · rw [linked_nil, hnext new hnew, if_pos rfl]
  · intro x hx
    rw [List.mem_append, List.mem_singleton] at hx
    obtain hx | rfl := hx
    · exact h.2 x hx
    · exact hnew
  · intro x hx hx'
    rw [List.mem_append, List.mem_singleton] at hx
    obtain hx | rfl := hx
    · exact absurd hx hx'
    · exact hfree
  · intro x hx hx'
    have hxn : x ≠ new := fun heq => hx' (by simp [heq])
    have hxl : x ≠ last := fun heq => hx' (by simp [heq])
    rw [hnext x hx, if_neg hxn, if_neg hxl]

/-- The end of a chain, seen from one of its clusters. -/
theorem Chain.next_eq_eoc_iff (h : Chain g d c l) {j : ℕ} (hj : j < l.length) :
    getNextCluster g d l[j] = eoc ↔ j + 1 = l.length := by
  rw [h.next hj]
  constructor
  · intro heq
    by_contra hne
    have hlt : j + 1 < l.length := by omega
    rw [List.getElem?_eq_getElem hlt, Option.getD_some] at heq
    exact h.ne_eoc _ (List.getElem_mem hlt) heq
  · intro heq
    rw [List.getElem?_eq_none (by omega), Option.getD_none]

/-- The next cluster of a chain; it is a new one when there was none. -/
theorem nextOrExtend_some (hwf : Layout g d.size) (h : Chain g d c l) {j next : ℕ}
    (hj : j < l.length) (hcall : nextOrExtend g d l[j] = (d', some next)) :
    ∃ l', Grown g d d' c l l' ∧ l'.length = max l.length (j + 2) ∧ l'[j + 1]? = some next ∧
      ∀ i, g.dataOffset ≤ i → d'.bytes i = d.bytes i := by
  rw [nextOrExtend] at hcall
  dsimp only at hcall
  by_cases hend : getNextCluster g d l[j] = eoc
  · have hlen := (h.next_eq_eoc_iff hj).mp hend
    rw [if_pos hend] at hcall
    obtain ⟨hnew, hfree⟩ | ⟨hnone, -⟩ := findFreeCluster_spec hwf
    · rw [if_neg (hnew.ne_eoc hwf)] at hcall
      cases hcall
      have hsplit : l.take j ++ [l[j]] = l := by
        rw [List.take_append_getElem hj, List.take_of_length_le (by omega)]
      have hlink := Grown.link hwf (hsplit.symm ▸ h) hnew hfree
      rw [hsplit] at hlink
      refine ⟨_, hlink, ?_, ?_, fun i hi => ?_⟩
      · rw [List.length_append, List.length_singleton]
        omega
      · rw [hlen, List.getElem?_concat_length]
      · rw [setNextCluster_bytes (by simpa using hwf) hnew (by decide) hi,
          setNextCluster_bytes hwf (h.2 _ (List.getElem_mem hj)) hnew.1 hi]
    · rw [if_pos hnone] at hcall
      cases hcall
  · rw [if_neg hend] at hcall
    cases hcall
    have hlt : j + 1 < l.length := by
      have hne := mt (h.next_eq_eoc_iff hj).mpr hend
      omega
    refine ⟨l, .refl h, by omega, ?_, fun _ _ => rfl⟩
    rw [h.next hj, List.getElem?_eq_getElem hlt, Option.getD_some]

/-- No next cluster: the chain ends and nothing is free. -/
theorem nextOrExtend_none (hwf : Layout g d.size) (h : Chain g d c l) {j : ℕ}
    (hj : j < l.length) (hcall : nextOrExtend g d l[j] = (d', none)) :
    d' = d ∧ j + 1 = l.length ∧ freeClusters g d = ∅ := by
  rw [nextOrExtend] at hcall
  dsimp only at hcall
  by_cases hend : getNextCluster g d l[j] = eoc
  · rw [if_pos hend] at hcall
    obtain ⟨hnew, -⟩ | ⟨hnone, hfull⟩ := findFreeCluster_spec hwf
    · rw [if_neg (hnew.ne_eoc hwf)] at hcall
      cases hcall
    · rw [if_pos hnone] at hcall
      cases hcall
      exact ⟨rfl, (h.next_eq_eoc_iff hj).mp hend, freeClusters_eq_empty hfull⟩
  · rw [if_neg hend] at hcall
    cases hcall

/-! ### A new chain -/

variable {first : ℕ}

/-- A free cluster is marked as the end of a chain. -/
theorem reserve_next (hl : Layout g d.size) (hfirst : IsCluster g first) {x : ℕ}
    (hx : IsCluster g x) : getNextCluster g (setNextCluster g d first eoc) x =
      if x = first then eoc else getNextCluster g d x :=
  getNextCluster_setNextCluster hl hfirst (by decide) (by decide) hx

theorem reserve_first (hl : Layout g d.size) (hfirst : IsCluster g first) :
    Chain g (setNextCluster g d first eoc) first [first] := by
  refine ⟨⟨rfl, hfirst.ne_eoc hl, ?_⟩, ?_⟩
  · rw [linked_nil, reserve_next hl hfirst hfirst, if_pos rfl]
  · intro x hx
    rw [List.mem_singleton.mp hx]
    exact hfirst

/-- The chains are as before, without the new cluster. -/
theorem reserve_chain (hl : Layout g d.size) (hfirst : IsCluster g first)
    (hfree : getNextCluster g d first = 0) (h : Chain g d c l) :
    first ∉ l ∧ Chain g (setNextCluster g d first eoc) c l := by
  have hnot : first ∉ l := fun hmem => h.ne_zero first hmem hfree
  refine ⟨hnot, h.congr fun x hx => ?_⟩
  rw [reserve_next hl hfirst (h.2 x hx), if_neg fun heq : x = first => hnot (heq ▸ hx)]

/-- The new cluster was free and no longer is. -/
theorem reserve_card (hl : Layout g d.size) (hfirst : IsCluster g first)
    (hfree : getNextCluster g d first = 0) :
    (freeClusters g d).card = (freeClusters g (setNextCluster g d first eoc)).card + 1 := by
  have herase : freeClusters g (setNextCluster g d first eoc) = (freeClusters g d).erase first := by
    ext x
    rw [Finset.mem_erase, mem_freeClusters, mem_freeClusters]
    by_cases hx : IsCluster g x
    · rw [reserve_next hl hfirst hx]
      by_cases heq : x = first
      · simp [heq, eoc]
      · simp [heq]
    · simp [hx]
  rw [herase, Finset.card_erase_add_one (mem_freeClusters.mpr ⟨hfirst, hfree⟩)]

/-- There is no link behind the cluster number 0, so the call looks for a new cluster, which it
    does not link to it. -/
theorem nextOrExtend_zero (hl : Layout g d.size) :
    (freeClusters g d = ∅ ∧ nextOrExtend g d 0 = (d, none)) ∨
      ∃ new, IsCluster g new ∧ getNextCluster g d new = 0 ∧
        nextOrExtend g d 0 = (setNextCluster g d new eoc, some new) := by
  have hnext : getNextCluster g d 0 = eoc := if_pos (by decide)
  rw [nextOrExtend]
  dsimp only
  rw [if_pos hnext]
  obtain ⟨hnew, hfree⟩ | ⟨hnone, hfull⟩ := findFreeCluster_spec hl
  · have hset : setNextCluster g d 0 (findFreeCluster g d) = d := if_pos (.inl (by decide))
    rw [if_neg (hnew.ne_eoc hl), hset]
    exact .inr ⟨_, hnew, hfree, rfl⟩
  · rw [if_pos hnone]
    exact .inl ⟨freeClusters_eq_empty hfull, rfl⟩

/-! ### The clusters of a file -/

/-- The clusters of a file: its chain, or none if the number of its first cluster is 0. -/
def FileChain (g : VfatFSData) (d : Device) (c : ℕ) (l : List ℕ) : Prop :=
  l ≠ [] ∧ Chain g d c l ∨ l = [] ∧ c = 0

theorem FileChain.chain (h : FileChain g d c l) (hne : l ≠ []) : Chain g d c l :=
  (h.resolve_right fun hempty => hne hempty.1).2

theorem FileChain.first_zero (h : FileChain g d c []) : c = 0 :=
  (h.resolve_left fun hchain => hchain.1 rfl).2

/-- A chain starts with its first cluster, which is not 0. -/
theorem Chain.first_ne_zero (h : Chain g d c l) (hne : l ≠ []) : c ≠ 0 := by
  obtain ⟨x, l, rfl⟩ := List.exists_cons_of_ne_nil hne
  have hx := (h.2 x List.mem_cons_self).1
  rw [h.1.1]
  omega

theorem FileChain.unique (h : FileChain g d c l) (h' : FileChain g d c l') : l = l' := by
  obtain ⟨hne, hc⟩ | ⟨rfl, hzero⟩ := h
  · obtain ⟨-, hc'⟩ | ⟨-, hzero⟩ := h'
    · exact hc.1.unique hc'.1
    · exact absurd hzero (hc.first_ne_zero hne)
  · obtain ⟨hne', hc'⟩ | ⟨rfl, -⟩ := h'
    · exact absurd hzero (hc'.first_ne_zero hne')
    · rfl

end XTOS.Vfat

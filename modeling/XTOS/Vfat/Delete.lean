import XTOS.Vfat.Create

/-!
# Deleting a file

`vfatDeleteFile` of `drivers/vfat/main.c`: the slots that it marks, and the clusters that it does
not free.

## Main definitions

- `freeLoop`, `vfatDeleteFile`
- `Exists` — a path that leads to an entry
- `Marked` — some slots of a directory are marked as deleted and no other byte changed
- `Deleted`, `DeletesRight` — what deleting should do

## Main results

- `deletesRight_iff` — exactly when it is done
-/

namespace XTOS.Vfat

open SysLib

/-! ### The code -/

/-- The last loop of `vfatDeleteFile`. It follows the chain, and `set_next_cluster` refuses the
    cluster 0 as a link. -/
def freeLoop (g : VfatFSData) : ℕ → Device → ℕ → Option Device
  | 0, _, _ => none
  | fuel + 1, d, cluster =>
    let next := getNextCluster g d cluster
    let d := setNextCluster g d next 0
    if next = eoc then some d else freeLoop g fuel d next

/-- `vfatDeleteFile`, which always succeeds. It is `none` when one of its loops goes round in a
    cycle of clusters, or when a regular file in the middle of the path leaves the directory pointer
    null. A slot that cannot be read counts as zeros. -/
def vfatDeleteFile (g : VfatFSData) (d : Device) (path : List UInt8) :
    Option (Device × XTResult) :=
  match vfatFindFile g d path with
  | none => none
  | some .unset => none
  | some (.found file _) =>
    let sfn := Function.update (slotAt g d file.firstCluster file.index).2 0 deletedMark
    let d := writeSlot g d file.firstCluster file.index sfn
    let cleared := clearLfn g file.firstCluster file.index (file.index + 2) d (fun _ => 0) 0
    (freeLoop g (2 ^ 32 + 1) cleared.1 (sfnFirstCluster sfn)).map fun d => (d, .success)

/-! ### What deleting should do -/

/-- The path leads to the entry of `file`: it has a component, and nothing is left of it but
    separators. -/
def Exists (g : VfatFSData) (d : Device) (path : List UInt8) (file : VfatFileData) : Prop :=
  parts path ≠ [] ∧ ∃ left, vfatFindFile g d path = some (.found file left) ∧
    left.dropWhile isSeparator = []

/-- The slots of the directory that `file` lies in. -/
def fileSlots (g : VfatFSData) (d : Device) (file : VfatFileData) : ℕ → Slot :=
  entryBuffer g d (chainOf g d file.firstCluster)

/-- The long-name slots in front of slot `n`, back to one with the mark of the last slot of a
    name. -/
def ownLfn (slot : ℕ → Slot) : ℕ → ℕ
  | 0 => 0
  | n + 1 =>
    if sfnAttributes (slot n) = lfnAttributes then
      if (slot n 0).toNat &&& lastLfn = 0 then ownLfn slot n + 1 else 1
    else 0

/-- The slots of a file: its short entry and its long-name slots. -/
def ownSlots (g : VfatFSData) (d : Device) (file : VfatFileData) : Set ℕ :=
  Set.Icc (file.index - ownLfn (fileSlots g d file) file.index) file.index

/-- The clusters of a file. -/
def fileChain (g : VfatFSData) (d : Device) (file : VfatFileData) : List ℕ :=
  let first := sfnFirstCluster (fileSlots g d file file.index)
  if first < 2 then [] else chainOf g d first

/-- The link of a cluster in the copy of the table. -/
def copyAddr (g : VfatFSData) (c : ℕ) : ℕ := fatOffset g + g.fatSizeBytes + c * 4

/-- A file with its slots marked and its clusters free in both tables; no other byte changed. -/
structure Deleted (g : VfatFSData) (d d' : Device) (file : VfatFileData) : Prop where
  size : d'.size = d.size
  marked : ∀ i ∈ ownSlots g d file,
    d'.bytes (byteAddr g (chainOf g d file.firstCluster) (i * 32)) = deletedMark
  freed : ∀ c ∈ fileChain g d file, loadLE d'.bytes (fatOffset g + c * 4) 4 = 0 ∧
    loadLE d'.bytes (copyAddr g c) 4 = 0
  kept : ∀ a,
    (∀ i ∈ ownSlots g d file, a ≠ byteAddr g (chainOf g d file.firstCluster) (i * 32)) →
    (∀ c ∈ fileChain g d file, ∀ k < 4, a ≠ fatOffset g + c * 4 + k ∧ a ≠ copyAddr g c + k) →
    d'.bytes a = d.bytes a

/-- An existing file is deleted, and a path to none is an error that changes nothing. -/
structure DeletesRight (g : VfatFSData) (d : Device) (path : List UInt8) : Prop where
  existing : ∀ file, Exists g d path file →
    ∃ d', vfatDeleteFile g d path = some (d', .success) ∧ Deleted g d d' file
  missing : (∀ file, ¬ Exists g d path file) →
    ∃ r, r ≠ .success ∧ vfatDeleteFile g d path = some (d, r)

/-- A file whose directory has a chain that ends, with the entry in one of its slots, and that has
    no cluster or a chain that ends too. -/
structure SoundFile (g : VfatFSData) (d : Device) (file : VfatFileData) : Prop where
  chain : Chain g d file.firstCluster (chainOf g d file.firstCluster)
  slot : file.index < (allSlots g d file.firstCluster).length
  data : sfnFirstCluster (fileSlots g d file file.index) < 2 ∨
    Chain g d (sfnFirstCluster (fileSlots g d file file.index)) (fileChain g d file) ∧
      fileChain g d file ≠ []

variable {g : VfatFSData} {d d' d₁ d₂ : Device} {c i n : ℕ} {l : List ℕ} {s t : Set ℕ}
variable {path : List UInt8} {file : VfatFileData}

/-! ### Writes that stay in the chain -/

/-- A write of a part of one cluster, where no cluster is added for the byte behind it. -/
theorem writeChain_within (hl : Layout g d.size) (h : Chain g d c l) {off : ℕ} {data : List UInt8}
    (hoff : off / clusterSize g < l.length) (hdata : data ≠ [])
    (hfit : off % clusterSize g + data.length ≤ clusterSize g)
    (hword : off / clusterSize g < 2 ^ 32)
    (hroom : off % clusterSize g + data.length = clusterSize g →
      off / clusterSize g + 1 = l.length → freeClusters g d = ∅) :
    (writeChain g d c data off).1 = d.write (byteAddr g l off) data := by
  have hchunk := Wrote.chunk hl h hoff hfit
  have hl₁ : Layout g (d.write (byteAddr g l off) data).size := hl
  rw [writeChain_one hl h hoff hdata hfit hword]
  split_ifs with hfull
  · rcases hnext : nextOrExtend g (d.write (byteAddr g l off) data)
      l[off / clusterSize g] with ⟨d₂, - | next⟩
    · obtain ⟨rfl, -, -⟩ := nextOrExtend_none hl₁ hchunk.grown.chain hoff hnext
      rfl
    · dsimp only
      by_cases hlast : off / clusterSize g + 1 = l.length
      · -- a new cluster would be a free one
        have hcard := hchunk.grown.card_freeClusters
        obtain ⟨l₂, hgrown, hlen, -, -⟩ := nextOrExtend_some hl₁ hchunk.grown.chain hoff hnext
        have hcard₂ := hgrown.card_freeClusters
        rw [hroom hfull hlast, Finset.card_empty] at hcard
        omega
      · have hne := mt (hchunk.grown.chain.next_eq_eoc_iff hoff).mp hlast
        rw [nextOrExtend, if_neg hne] at hnext
        cases hnext
        rfl
  · rfl

/-- Behind the end of a chain nothing is written when no cluster is free. -/
theorem writeChain_full (hl : Layout g d.size) (h : Chain g d c l) (hne : l ≠ [])
    (hfull : freeClusters g d = ∅) {off : ℕ} (hoff : l.length ≤ off / clusterSize g)
    (hword : off / clusterSize g < 2 ^ 32) (data : List UInt8) :
    (writeChain g d c data off).1 = d := by
  have hseek : ∀ n j, (hj : j < l.length) → l.length ≤ j + n →
      seekExtend g n d l[j] = (d, none) := by
    intro n
    induction n with
    | zero => exact fun j hj hn => absurd hj (by omega)
    | succ n ih =>
      intro j hj hn
      by_cases hlast : j + 1 = l.length
      · have hnone := (findFreeCluster_spec hl).resolve_left fun hfree => by
          have hmem := mem_freeClusters.mpr hfree
          rw [hfull] at hmem
          exact absurd hmem (Finset.notMem_empty _)
        rw [seekExtend, nextOrExtend, if_pos ((h.next_eq_eoc_iff hj).mpr hlast), if_pos hnone.1]
      · have hlt : j + 1 < l.length := by omega
        have hnext : getNextCluster g d l[j] = l[j + 1] := by
          rw [h.next hj, List.getElem?_eq_getElem hlt, Option.getD_some]
        rw [seekExtend, nextOrExtend, hnext, if_neg (h.ne_eoc _ (List.getElem_mem _))]
        exact ih (j + 1) hlt (by omega)
  have hlen := List.length_pos_of_ne_nil hne
  rw [writeChain, Nat.mod_eq_of_lt hword, h.head_eq hlen, hseek _ 0 hlen (by omega)]

/-! ### Marked slots -/

/-- The slots `s` of the directory with the chain `l` are marked as deleted, and no other byte
    changed. -/
structure Marked (g : VfatFSData) (l : List ℕ) (d d' : Device) (s : Set ℕ) : Prop where
  size : d'.size = d.size
  marked : ∀ i ∈ s, d'.bytes (byteAddr g l (i * 32)) = deletedMark
  kept : ∀ a, (∀ i ∈ s, a ≠ byteAddr g l (i * 32)) → d'.bytes a = d.bytes a

theorem Marked.trans (h : Marked g l d d₁ s) (h' : Marked g l d₁ d₂ t) :
    Marked g l d d₂ (s ∪ t) := by
  refine ⟨h'.size.trans h.size, fun i hi => ?_, fun a ha => ?_⟩
  · by_cases hother : ∃ j ∈ t, byteAddr g l (i * 32) = byteAddr g l (j * 32)
    · obtain ⟨j, hj, heq⟩ := hother
      rw [heq, h'.marked j hj]
    · push Not at hother
      have his := hi.resolve_right fun hit => hother i hit rfl
      rw [h'.kept _ hother, h.marked i his]
  · rw [h'.kept a fun i hi => ha i (.inr hi), h.kept a fun i hi => ha i (.inl hi)]

/-- The tables are as before. -/
theorem Marked.tables (h : Marked g l d d' s) {a : ℕ} (ha : a < g.dataOffset) :
    d'.bytes a = d.bytes a :=
  h.kept a fun _ _ heq => absurd (le_byteAddr (g := g) (l := l) _) (by rw [← heq]; omega)

theorem Marked.chain (h : Marked g l d d' s) (hl : Layout g d.size) (hc : Chain g d c l) :
    Chain g d' c l :=
  hc.congr fun x hx => getNextCluster_congr hl h.size (hc.2 x hx) fun _ ha => h.tables ha

theorem Marked.free_eq (h : Marked g l d d' s) (hl : Layout g d.size) :
    freeClusters g d' = freeClusters g d := by
  ext x
  rw [mem_freeClusters, mem_freeClusters]
  refine and_congr_right fun hx => ?_
  rw [getNextCluster_congr hl h.size hx fun _ ha => h.tables ha]

/-- A slot that is not marked is as before. -/
theorem Marked.slot_eq (h : Marked g l d d' s) (hl : Layout g d.size) (hc : Chain g d c l)
    (hs : ∀ j ∈ s, j * 32 + 32 ≤ l.length * clusterSize g)
    (hi : i * 32 + 32 ≤ l.length * clusterSize g) (hnot : i ∉ s) :
    chainBytes g d' l (i * 32) 32 = chainBytes g d l (i * 32) 32 := by
  apply List.map_congr_left
  intro k hk
  refine h.kept _ fun j hj heq => hnot ?_
  have hk := List.mem_range.mp hk
  have hsame := byteAddr_inj hl.clusterSize_pos hc (slot_div hl hi hk)
    (slot_div hl (hs j hj) (by decide : 0 < 32)) heq
  have hij : i = j := by omega
  exact hij ▸ hj

/-- Writing a slot back with the mark in its first byte. -/
theorem Marked.write (hl : Layout g d.size) (hc : Chain g d c l)
    (hi : i * 32 + 32 ≤ l.length * clusterSize g) {slot : Slot}
    (hslot : ∀ k < 32, slot k = d.bytes (byteAddr g l (i * 32 + k)))
    (hword : i * 32 / clusterSize g < 2 ^ 32)
    (hroom : i * 32 + 32 = l.length * clusterSize g → freeClusters g d = ∅) :
    Marked g l d (writeSlot g d c i (Function.update slot 0 deletedMark)) {i} := by
  obtain ⟨hlt, hfit, hend⟩ := slot_in_cluster hl hi
  set data := load (Function.update slot 0 deletedMark) 0 32
  have hlen : data.length = 32 := length_load _ _ _
  have hne : data ≠ [] := List.ne_nil_of_length_pos (by omega)
  rw [writeSlot, writeChain_within hl hc hlt hne (by rwa [hlen]) hword
    (by rw [hlen]; exact fun h1 h2 => hroom (hend.mpr ⟨h1, h2⟩)),
    d.write_eq (hc.chunk_le hl hlt (by rwa [hlen]))]
  refine ⟨rfl, fun j hj => ?_, fun a ha => ?_⟩
  · obtain rfl := Set.mem_singleton_iff.mp hj
    have hfirst := store_at d.bytes (byteAddr g l (j * 32)) data (show 0 < data.length by omega)
    rw [Nat.add_zero] at hfirst
    refine hfirst.trans ?_
    rw [getElem_load]
    exact Function.update_self _ _ _
  · by_cases hin : a < byteAddr g l (i * 32) ∨ byteAddr g l (i * 32) + 32 ≤ a
    · exact store_outside _ _ (by rwa [hlen])
    · -- the other bytes of the slot are written back
      obtain ⟨k, rfl⟩ : ∃ k, a = byteAddr g l (i * 32) + k := ⟨_, (Nat.add_sub_of_le (by omega)).symm⟩
      have hk : k < 32 := by omega
      have hk0 : 0 + k ≠ 0 := by
        have := ha i rfl
        omega
      refine (store_at _ _ _ (show k < data.length by omega)).trans ?_
      rw [getElem_load, Function.update_of_ne hk0, Nat.zero_add, hslot k hk,
        byteAddr_add hl.clusterSize_pos (by omega)]

theorem lfnRun_sub (slot : ℕ → Slot) (n : ℕ) : n - lfnRun slot n = n - ownLfn slot n := by
  induction n with
  | zero => rfl
  | succ n ih =>
    rw [lfnRun, ownLfn]
    split_ifs
    · rw [Nat.add_sub_add_right, Nat.add_sub_add_right, ih]
    · rfl
    · rfl

/-- The loop over the long-name slots in front of slot `n`, where it does not go on in front of the
    directory or cannot write there. -/
theorem clearLfn_marked (hwf : WellFormed g d.size) (hc : Chain g d c l) (hne : l ≠ [])
    (hn : n * 32 + 32 ≤ l.length * clusterSize g)
    (hfront : RunsOut (entryBuffer g d l) n → freeClusters g d = ∅) (h : Marked g l d d₁ {n}) :
    Marked g l d (clearLfn g c n (n + 2) d₁ (fun _ => 0) 0).1
      (Set.Icc (n - ownLfn (entryBuffer g d l) n) n) := by
  have hpos := hwf.clusterSize_pos
  have hnword : n * 32 + 32 ≤ 2 ^ 32 := hn.trans (hc.slots_le hwf)
  have hfuel : n < n + 2 := Nat.lt_add_of_pos_right (by decide)
  rw [← Set.Icc_self] at h
  have hwf₁ : ∀ {p d₂}, Marked g l d d₂ (Set.Icc p n) → WellFormed g d₂.size := by
    intro p d₂ hm
    rwa [hm.size]
  by_cases hzero : n = 0
  · subst hzero
    rw [clearLfn_front ((h.chain hwf.layout hc).read_front (hwf₁ h) hne) (by decide)]
    exact h
  have hclearing : Clearing g c n (entryBuffer g d l) fun p d₂ => Marked g l d d₂ (Set.Icc p n) := by
    refine ⟨?_, ?_, fun hm => (hm.chain hwf.layout hc).read_front (hwf₁ hm) hne⟩
    · intro p d₂ hp hm
      have hin : p * 32 + 32 ≤ l.length * clusterSize g := by omega
      refine ⟨chainBytes g d l (p * 32) 32, ?_, length_chainBytes _ _ _, rfl⟩
      rw [(hm.chain hwf.layout hc).read_slot (hwf₁ hm) hin]
      refine hm.slot_eq hwf.layout hc (fun j hj => ?_) hin fun hmem => absurd hmem.1 (by omega)
      have hle := hj.2
      omega
    · intro p d₂ s hp hm hs
      have hin : p * 32 + 32 ≤ l.length * clusterSize g := by omega
      have hsame : chainBytes g d₂ l (p * 32) 32 = chainBytes g d l (p * 32) 32 := by
        refine hm.slot_eq hwf.layout hc (fun j hj => ?_) hin fun hmem => absurd hmem.1 (by omega)
        have hle := hj.2
        omega
      have hwrote : Marked g l d₂ (writeSlot g d₂ c p (Function.update s 0 deletedMark)) {p} :=
        Marked.write (hwf₁ hm).layout (hm.chain hwf.layout hc) hin (fun i hi => ?_)
          (lt_of_le_of_lt (Nat.div_le_self _ _) (by omega)) fun heq => absurd heq (by omega)
      · have hset : Set.Icc (p + 1) n ∪ {p} = Set.Icc p n := by
          ext j
          simp only [Set.mem_Icc, Set.mem_union, Set.mem_singleton_iff]
          omega
        rw [← hset]
        exact hm.trans hwrote
      · rw [hs i hi, entryBuffer, ← hsame, slotBuffer_apply (by simpa using hi)]
        simp [chainBytes]
  obtain ⟨d₂, d₃, hm, hout, hcall⟩ := hclearing.run hzero (by omega) (Nat.add_zero n)
    (fun hk => absurd rfl hk) h
  rw [hcall (n + 2) hfuel, ← lfnRun_sub]
  obtain ⟨hmark, s, rfl⟩ | ⟨-, rfl⟩ := hout
  · -- the write in front of the directory fails
    have hfree := hfront ⟨hzero, hmark⟩
    rw [← hm.free_eq hwf.layout] at hfree
    rw [writeSlot, writeChain_full (hwf₁ hm).layout (hm.chain hwf.layout hc) hne hfree
      ((Nat.le_div_iff_mul_le hpos).mpr ((hc.slots_le hwf).trans (by decide))) (last_slot_word hwf)]
    exact hm
  · exact hm

/-! ### Both outcomes -/

theorem freeLoop_eq {fuel : ℕ} (h : freeLoop g fuel d c = some d') : d' = d := by
  induction fuel generalizing c with
  | zero => cases h
  | succ fuel ih =>
    have hset : setNextCluster g d (getNextCluster g d c) 0 = d := if_pos (.inr (.inl rfl))
    rw [freeLoop, hset] at h
    split_ifs at h with hend
    · exact (Option.some.inj h).symm
    · exact ih h

theorem freeLoop_empty (d : Device) (fuel : ℕ) (h : c < 2) : freeLoop g (fuel + 1) d c = some d := by
  have hnext : getNextCluster g d c = eoc := if_pos h
  have hset : setNextCluster g d eoc 0 = d := if_pos (.inr (.inl rfl))
  rw [freeLoop, hnext, hset]
  exact if_pos rfl

theorem vfatDeleteFile_success {r : XTResult} (h : vfatDeleteFile g d path = some (d', r)) :
    r = .success := by
  rw [vfatDeleteFile] at h
  split at h
  · cases h
  · cases h
  · obtain ⟨_, -, heq⟩ := Option.map_eq_some_iff.mp h
    exact (congrArg Prod.snd heq).symm

theorem Exists.unique {file' : VfatFileData} (h : Exists g d path file) (h' : Exists g d path file') :
    file' = file := by
  obtain ⟨-, left, hfind, -⟩ := h
  obtain ⟨-, left', hfind', -⟩ := h'
  rw [hfind] at hfind'
  cases hfind'
  rfl

/-- On a sound volume the path leads to an entry if and only if the step-by-step lookup finds it. -/
theorem exists_iff_lookup (hs : SoundVolume g d) (hne : parts path ≠ []) (hlast : NoTrailing path)
    (hlen : ∀ p ∈ parts path, p.1.length ≤ 255) {dir index : ℕ} :
    (∃ file, Exists g d path file ∧ file.firstCluster = dir ∧ file.index = index) ↔
      lookup g d path = .found dir index := by
  obtain ⟨r, hfind, hagrees⟩ := findLoop_lookup hs
    (show IsDirectory g d g.rootDir.firstCluster from .root) (Nat.lt_succ_self path.length) hlast hne
    hlen
  change vfatFindFile g d path = some r at hfind
  change Agrees (lookup g d path) r at hagrees
  constructor
  · rintro ⟨file, ⟨-, left, hfound, hleft⟩, rfl, rfl⟩
    obtain rfl := Option.some.inj (hfind.symm.trans hfound)
    cases hlookup : lookup g d path with
    | found dir index =>
      rw [hlookup] at hagrees
      obtain ⟨rfl, rfl, -⟩ := hagrees
      rfl
    | missing dir rest =>
      -- what is missing starts with a component
      rw [hlookup] at hagrees
      obtain ⟨-, rfl⟩ := hagrees
      exact absurd hleft (walk_missing hne partsFrom_head hlookup)
    | notDirectory =>
      rw [hlookup] at hagrees
      exact hagrees.elim
  · intro hlookup
    rw [hlookup] at hagrees
    cases r with
    | unset => exact hagrees.elim
    | found file left =>
      obtain ⟨hdir, hindex, rfl⟩ := hagrees
      exact ⟨file, ⟨hne, [], hfind, rfl⟩, hdir, hindex⟩

/-- What `vfatDeleteFile` does with an existing file. -/
theorem Exists.delete (h : Exists g d path file) : vfatDeleteFile g d path =
    (freeLoop g (2 ^ 32 + 1)
      (clearLfn g file.firstCluster file.index (file.index + 2)
        (writeSlot g d file.firstCluster file.index
          (Function.update (slotAt g d file.firstCluster file.index).2 0 deletedMark))
        (fun _ => 0) 0).1
      (sfnFirstCluster
        (Function.update (slotAt g d file.firstCluster file.index).2 0 deletedMark))).map
      fun d => (d, .success) := by
  obtain ⟨-, left, hfind, -⟩ := h
  rw [vfatDeleteFile, hfind]

theorem SoundFile.slot_le (hl : Layout g d.size) (h : SoundFile g d file) :
    file.index * 32 + 32 ≤ (chainOf g d file.firstCluster).length * clusterSize g := by
  have hend := h.chain.allSlots_end hl
  have hslot := h.slot
  omega

theorem SoundFile.slotAt (hwf : WellFormed g d.size) (h : SoundFile g d file) :
    (slotAt g d file.firstCluster file.index).2 = fileSlots g d file file.index := by
  rw [h.chain.slotAt_eq hwf h.slot]
  simp only [allSlots, List.getElem_map, List.getElem_range]
  rfl

/-- The mark leaves the first cluster in the entry. -/
theorem sfnFirstCluster_mark (sfn : Slot) :
    sfnFirstCluster (Function.update sfn 0 deletedMark) = sfnFirstCluster sfn := by
  have hword : ∀ a, 0 < a → loadLE (Function.update sfn 0 deletedMark) a 2 = loadLE sfn a 2 :=
    fun a ha => loadLE_congr fun i hi _ => Function.update_of_ne (by omega) _ _
  rw [sfnFirstCluster, sfnFirstCluster, hword 26 (by decide), hword 20 (by decide)]

/-- The file has no clusters, no cluster is added to its directory for the byte behind its entry,
    and its long-name slots do not reach the front of the directory without the mark. -/
structure Deletable (g : VfatFSData) (d : Device) (file : VfatFileData) : Prop where
  empty : sfnFirstCluster (fileSlots g d file file.index) < 2
  last : file.index + 1 = (allSlots g d file.firstCluster).length → freeClusters g d = ∅
  front : RunsOut (fileSlots g d file) file.index → freeClusters g d = ∅

theorem Deletable.deleted (hwf : WellFormed g d.size) (hsound : SoundFile g d file)
    (h : Deletable g d file) (hexists : Exists g d path file) :
    ∃ d', vfatDeleteFile g d path = some (d', .success) ∧ Deleted g d d' file := by
  have hslot := hsound.slot_le hwf.layout
  have hne : chainOf g d file.firstCluster ≠ [] := by
    intro hnil
    rw [hnil, List.length_nil, Nat.zero_mul] at hslot
    omega
  have hle := hslot.trans (hsound.chain.slots_le hwf)
  have hend := hsound.chain.allSlots_end hwf.layout
  have hentry : Marked g (chainOf g d file.firstCluster) d (writeSlot g d file.firstCluster file.index
      (Function.update (Vfat.slotAt g d file.firstCluster file.index).2 0 deletedMark))
      {file.index} := by
    refine Marked.write hwf.layout hsound.chain hslot (fun k hk => ?_)
      (lt_of_le_of_lt (Nat.div_le_self _ _) (by omega)) fun hlast => h.last (by omega)
    rw [hsound.slotAt hwf, fileSlots, entryBuffer, slotBuffer_apply (by simpa using hk)]
    simp [chainBytes]
  have hmarked := clearLfn_marked hwf hsound.chain hne hslot h.front hentry
  have hfirst : sfnFirstCluster (Function.update (Vfat.slotAt g d file.firstCluster file.index).2 0
      deletedMark) < 2 := by
    rw [sfnFirstCluster_mark, hsound.slotAt hwf]
    exact h.empty
  have hnil : fileChain g d file = [] := if_pos h.empty
  rw [hexists.delete, freeLoop_empty _ _ hfirst]
  refine ⟨_, rfl, hmarked.size, hmarked.marked, fun x hx => ?_, fun a ha _ => hmarked.kept a ha⟩
  rw [hnil] at hx
  cases hx

/-- What the slot writes of a deletion leave of the directory's chain. -/
theorem slots_grown (hwf : WellFormed g d.size) (hc : Chain g d c l)
    (hi : i * 32 + 32 ≤ l.length * clusterSize g) {data : List UInt8} (hlen : data.length = 32) :
    ∃ l₁ l₂, Grown g d (clearLfn g c i (i + 2) (writeChain g d c data (i * 32)).1 (fun _ => 0) 0).1
        c l l₂ ∧
      l₁ <+: l₂ ∧ l <+: l₁ ∧
      (l₁ ≠ l ↔ i * 32 + 32 = l.length * clusterSize g ∧ freeClusters g d ≠ ∅) ∧
      (RunsOut (entryBuffer g d l) i →
        freeClusters g
          (clearLfn g c i (i + 2) (writeChain g d c data (i * 32)).1 (fun _ => 0) 0).1 = ∅) := by
  have hpos := hwf.clusterSize_pos
  have hslots := hc.slots_le hwf
  obtain ⟨hlt, hfit, hlast⟩ := slot_in_cluster hwf.layout hi
  obtain ⟨l₁, hentry, hgrew⟩ := writeChain_slot hwf.layout hc hlt
    (List.ne_nil_of_length_pos (show 0 < data.length by omega)) (by rwa [hlen])
    (lt_of_le_of_lt (Nat.div_le_self _ _) (by omega))
  rw [hlen, ← and_assoc, ← hlast] at hgrew
  generalize (writeChain g d c data (i * 32)).1 = d₁ at hentry ⊢
  have hwf₁ : WellFormed g d₁.size := by rwa [hentry.grown.size]
  have hne₁ : l₁ ≠ [] := List.ne_nil_of_length_pos
    (lt_of_lt_of_le (Nat.zero_lt_of_lt hlt) hentry.grown.keep.length_le)
  have hmono := Nat.mul_le_mul_right (clusterSize g) hentry.grown.keep.length_le
  have hsame : ∀ j < i, entryBuffer g d l j = entryBuffer g d₁ l₁ j := by
    intro j hj
    refine congrArg slotBuffer (List.map_congr_left fun k hk => ?_)
    have hk := List.mem_range.mp hk
    have hdiv := slot_div hwf.layout (show j * 32 + 32 ≤ l.length * clusterSize g by omega) hk
    rw [← byteAddr_keep hentry.grown.keep hdiv]
    refine (hentry.outside _ (le_byteAddr _) fun m hm heq => ?_).symm
    have hdiv₁ := slot_div hwf.layout (show j * 32 + 32 ≤ l₁.length * clusterSize g by omega) hk
    have hm := byteAddr_inj hpos hentry.grown.chain hdiv₁ (hentry.fits m hm) heq
    omega
  obtain ⟨d₂, l₂, hclear, hrewrote, hfront⟩ := clearLfn_spec hwf₁ hentry.grown.chain hne₁ hsame
    (by omega)
  rw [hclear _ (Nat.lt_add_of_pos_right (by decide))]
  exact ⟨l₁, l₂, hentry.grown.trans hrewrote.grown, hrewrote.grown.keep, hentry.grown.keep, hgrew,
    hfront⟩

/-- A deletion that does what it should changes no link but those of the file, which are not
    cleared. -/
theorem Deleted.deletable (hwf : WellFormed g d.size) (hsound : SoundFile g d file)
    (hexists : Exists g d path file) (hcall : vfatDeleteFile g d path = some (d', .success))
    (h : Deleted g d d' file) : Deletable g d file := by
  have hslot := hsound.slot_le hwf.layout
  have hend := hsound.chain.allSlots_end hwf.layout
  rw [hexists.delete, Option.map_eq_some_iff] at hcall
  obtain ⟨_, hfree, heq⟩ := hcall
  cases heq
  obtain ⟨l₁, l₂, hgrown, hkeep, hkeep₁, hlast, hfront⟩ := slots_grown hwf hsound.chain hslot
    (show (load (Function.update (Vfat.slotAt g d file.firstCluster file.index).2 0 deletedMark)
      0 32).length = 32 from length_load _ _ _)
  rw [← writeSlot, ← freeLoop_eq hfree] at hgrown hfront
  have hempty : sfnFirstCluster (fileSlots g d file file.index) < 2 := by
    by_contra hbig
    obtain ⟨hchain, hne⟩ := hsound.data.resolve_left hbig
    -- the first cluster is still linked
    obtain ⟨x, hmem⟩ := List.exists_mem_of_ne_nil _ hne
    have hcluster := hchain.2 x hmem
    have hl₂ : Layout g d'.size := by
      rw [hgrown.size]
      exact hwf.layout
    have hzero := (getNextCluster_eq hl₂ hcluster).trans (h.freed x hmem).1
    by_cases hin : x ∈ l₂
    · exact hgrown.chain.ne_zero x hin hzero
    · exact hchain.ne_zero x hmem ((hgrown.other x hcluster hin).symm.trans hzero)
  have hnil : fileChain g d file = [] := if_pos hempty
  have hnext : ∀ x, IsCluster g x → getNextCluster g d' x = getNextCluster g d x := by
    intro x hx
    refine getNextCluster_congr hwf.layout hgrown.size hx fun a ha => h.kept a (fun i _ heq => ?_) ?_
    · have hle := le_byteAddr (g := g) (l := chainOf g d file.firstCluster) (i * 32)
      omega
    · rw [hnil]
      exact fun _ hc => absurd hc List.not_mem_nil
  have hsame : l₂ = chainOf g d file.firstCluster :=
    hgrown.chain.1.unique (hsound.chain.congr fun x hx => hnext x (hsound.chain.2 x hx)).1
  have hsame₁ : l₁ = chainOf g d file.firstCluster := by
    rw [hsame] at hkeep
    exact hkeep.eq_of_length_le hkeep₁.length_le
  have hcard := hgrown.card_freeClusters
  rw [hsame, Nat.sub_self, Nat.add_zero] at hcard
  refine ⟨hempty, fun hlastSlot => ?_, fun hrun => ?_⟩
  · by_contra hfreeClusters
    exact hlast.mpr ⟨by omega, hfreeClusters⟩ hsame₁
  · rw [hfront hrun, Finset.card_empty] at hcard
    exact Finset.card_eq_zero.mp hcard

/-- **A deletion** does what it should exactly for an existing file without clusters, whose slots
    can be marked without a new cluster for the directory. In all other cases the clusters stay
    allocated, or the directory grows, or a missing file is not noticed. -/
theorem deletesRight_iff (hwf : WellFormed g d.size)
    (hsound : ∀ file, Exists g d path file → SoundFile g d file) :
    DeletesRight g d path ↔ ∃ file, Exists g d path file ∧ Deletable g d file := by
  constructor
  · intro h
    by_cases hexists : ∃ file, Exists g d path file
    · obtain ⟨file, hfile⟩ := hexists
      obtain ⟨d', hcall, hdeleted⟩ := h.existing file hfile
      exact ⟨file, hfile, hdeleted.deletable hwf (hsound file hfile) hfile hcall⟩
    · push Not at hexists
      obtain ⟨r, hr, hcall⟩ := h.missing hexists
      exact absurd (vfatDeleteFile_success hcall) hr
  · rintro ⟨file, hfile, hdeletable⟩
    refine ⟨fun file' hfile' => ?_, fun hmissing => absurd hfile (hmissing file)⟩
    obtain rfl := hfile.unique hfile'
    exact hdeletable.deleted hwf (hsound _ hfile) hfile

/-! ### The small volume -/

/-- The file `A` of the small volume is sound. -/
theorem smallDevice_soundFile (hdir : file.firstCluster = 2) (hindex : file.index = 1) :
    SoundFile smallVolume (smallDevice 0) file := by
  have hfirst : sfnFirstCluster (fileSlots smallVolume (smallDevice 0) file file.index) = 3 := by
    rw [fileSlots, hdir, hindex, smallDevice_chain.chainOf_eq]
    decide +kernel
  have hfileChain : fileChain smallVolume (smallDevice 0) file = [3] := by
    rw [fileChain, hfirst]
    exact smallDevice_fileChain.chainOf_eq
  refine ⟨?_, ?_, .inr ⟨?_, ?_⟩⟩
  · rw [hdir, smallDevice_chain.chainOf_eq]
    exact smallDevice_chain
  · rw [hdir, hindex, smallDevice_chain.length_allSlots]
    decide
  · rw [hfirst, hfileChain]
    exact smallDevice_fileChain
  · rw [hfileChain]
    exact List.cons_ne_nil _ _

/-- The file `A` has a cluster. -/
theorem deletesRight_iff_allocated : ¬ DeletesRight smallVolume (smallDevice 0) [0x41] := by
  obtain ⟨file, hfind, hdir, hindex⟩ := smallDevice_file
  have hexists : Exists smallVolume (smallDevice 0) [0x41] file := ⟨by decide, [], hfind, rfl⟩
  have hsound : ∀ other, Exists smallVolume (smallDevice 0) [0x41] other →
      SoundFile smallVolume (smallDevice 0) other := by
    intro other hother
    obtain rfl := hexists.unique hother
    exact smallDevice_soundFile hdir hindex
  rw [deletesRight_iff (smallVolume_wellFormed 0) hsound]
  rintro ⟨other, hother, hdeletable⟩
  obtain rfl := hexists.unique hother
  have hempty := hdeletable.empty
  rw [fileSlots, hdir, hindex, smallDevice_chain.chainOf_eq] at hempty
  exact absurd hempty (by decide +kernel)

/-- Deleting the file `A` leaves its cluster 3 allocated, and deleting the missing file `B` marks
    slot 0 of the root directory, which belongs to `A`. -/
theorem delete_misses : (∃ d',
    vfatDeleteFile smallVolume (smallDevice 0) [0x41] = some (d', .success) ∧
      getNextCluster smallVolume d' 3 = eoc) ∧
    (∃ d', vfatDeleteFile smallVolume (smallDevice 0) [0x42] = some (d', .success) ∧
      d'.bytes 1536 = deletedMark ∧ (smallDevice 0).bytes 1536 = 0x41) ∧
    ¬ DeletesRight smallVolume (smallDevice 0) [0x42] := by
  have hfile : (vfatDeleteFile smallVolume (smallDevice 0) [0x41]).map (fun p =>
      (p.2, getNextCluster smallVolume p.1 3)) = some (.success, eoc) := by
    decide +kernel
  have hnone : (vfatDeleteFile smallVolume (smallDevice 0) [0x42]).map (fun p =>
      (p.2, p.1.bytes 1536)) = some (.success, deletedMark) := by
    decide +kernel
  obtain ⟨⟨d₁, r₁⟩, hcall₁, hresult₁⟩ := Option.map_eq_some_iff.mp hfile
  obtain ⟨rfl, hlink⟩ := Prod.mk.inj hresult₁
  obtain ⟨⟨d₂, r₂⟩, hcall₂, hresult₂⟩ := Option.map_eq_some_iff.mp hnone
  obtain ⟨rfl, hmark⟩ := Prod.mk.inj hresult₂
  refine ⟨⟨d₁, hcall₁, hlink⟩, ⟨d₂, hcall₂, hmark, by decide +kernel⟩, fun h => ?_⟩
  have hmissing : ∀ file, ¬ Exists smallVolume (smallDevice 0) [0x42] file := by
    rintro file ⟨-, left, hfound, hleft⟩
    obtain ⟨dir, hfind, -⟩ := smallDevice_missing
    rw [hfind] at hfound
    cases hfound
    exact absurd hleft (by decide)
  obtain ⟨r, hr, hcall⟩ := h.missing hmissing
  rw [hcall₂] at hcall
  cases hcall
  exact hr rfl

end XTOS.Vfat

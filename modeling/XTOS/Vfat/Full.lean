import XTOS.Vfat.File

/-!
# Writing to a full volume

What `vfatWriteFile` of `drivers/vfat/main.c` leaves when the volume has no cluster for the data, or
for the byte behind it.

## Main definitions

- `seekOffset` — where the driver's 32-bit cluster index takes an offset
- `capacity` — the bytes that the chain can hold with all free clusters
- `Stored` — how much of the data is on the volume
- `SpaceUsed` — what a caller expects of the result, the count and the entry

## Main results

- `writeChain_none_spec` — a write that runs out of clusters stores what they can hold
- `spaceUsed_iff` — when the result, the count and the entry agree with that
-/

namespace XTOS.Vfat

open SysLib

variable {g : VfatFSData} {d d' d₁ d₂ : Device} {c off : ℕ} {l l' l₁ : List ℕ} {data : List UInt8}

/-! ### Running out of clusters -/

/-- A seek that ends early took all free clusters. -/
theorem seekExtend_none (hl : Layout g d.size) (h : Chain g d c l) {n j : ℕ} (hj : j < l.length)
    (hcall : seekExtend g n d l[j] = (d', none)) :
    ∃ l', Grown g d d' c l l' ∧ l'.length ≤ j + n ∧ freeClusters g d' = ∅ ∧
      ∀ i, g.dataOffset ≤ i → d'.bytes i = d.bytes i := by
  induction n generalizing d l j with
  | zero =>
    rw [seekExtend] at hcall
    cases hcall
  | succ n ih =>
    rw [seekExtend] at hcall
    rcases hnext : nextOrExtend g d l[j] with ⟨d₁, - | next⟩
    · rw [hnext] at hcall
      cases hcall
      obtain ⟨rfl, hlen, hfree⟩ := nextOrExtend_none hl h hj hnext
      exact ⟨l, .refl h, by omega, hfree, fun _ _ => rfl⟩
    rw [hnext] at hcall
    dsimp only at hcall
    obtain ⟨l₁, hgrown, -, hget, hsame⟩ := nextOrExtend_some hl h hj hnext
    obtain ⟨hlt, hget⟩ := List.getElem?_eq_some_iff.mp hget
    rw [← hget] at hcall
    obtain ⟨l', hgrown', hlen, hfree, hsame'⟩ :=
      ih (by rw [hgrown.size]; exact hl) hgrown.chain hlt hcall
    refine ⟨l', hgrown.trans hgrown', by omega, hfree, fun i hi => ?_⟩
    rw [hsame' i hi, hsame i hi]

/-- The end of a chunk that fills its cluster. -/
theorem end_of_cluster {n : ℕ} (h : off % clusterSize g + n = clusterSize g) :
    off + n = (off / clusterSize g + 1) * clusterSize g := by
  have hsplit := Nat.div_add_mod off (clusterSize g)
  rw [Nat.add_mul, Nat.one_mul, Nat.mul_comm (off / clusterSize g)]
  omega

/-- A loop that ends early filled the chain, which has all free clusters. -/
theorem writeLoop_none (hl : Layout g d.size) (h : Chain g d c l) {fuel w : ℕ}
    (hoff : off / clusterSize g < l.length)
    (hcall : writeLoop g fuel d l[off / clusterSize g] off data w = (d', none)) :
    ∃ l' m, Wrote g d d' c l l' off (data.take m) ∧ m ≤ data.length ∧
      off + m = l'.length * clusterSize g ∧ freeClusters g d' = ∅ := by
  have hpos := hl.clusterSize_pos
  induction fuel generalizing d l off data w with
  | zero =>
    rw [writeLoop] at hcall
    cases hcall
  | succ fuel ih =>
    by_cases hdata : data = []
    · rw [writeLoop, if_pos hdata] at hcall
      cases hcall
    rw [writeLoop_succ hl h fuel w hoff hdata] at hcall
    dsimp only at hcall
    obtain ⟨-, hn, hfit⟩ := chunkLength_spec hpos off (show data.length ≠ 0 by simpa using hdata)
    have hdiv := div_add_chunk hpos hfit
    set n := chunkLength g off data.length
    have hlen : (data.take n).length = n := by
      rw [List.length_take]
      omega
    have hchunk : Wrote g d _ c l l off (data.take n) :=
      Wrote.chunk hl h hoff (by rw [hlen]; exact hfit)
    have hl₁ : Layout g (d.write (byteAddr g l off) (data.take n)).size := hl
    -- the rest of the data behind the chunk
    have hrest : ∀ d₁ l₁, Wrote g d d₁ c l l₁ off (data.take n) →
        (∃ l' m, Wrote g d₁ d' c l₁ l' (off + n) ((data.drop n).take m) ∧
          m ≤ (data.drop n).length ∧ off + n + m = l'.length * clusterSize g ∧
          freeClusters g d' = ∅) →
        ∃ l' m, Wrote g d d' c l l' off (data.take m) ∧ m ≤ data.length ∧
          off + m = l'.length * clusterSize g ∧ freeClusters g d' = ∅ := by
      rintro d₁ l₁ hwrote ⟨l', m, hwrote', hm, hend, hfree⟩
      rw [List.length_drop] at hm
      have hall := hwrote.trans hpos (by rw [hlen]; exact hwrote')
      rw [← List.take_add] at hall
      exact ⟨l', n + m, hall, by omega, by omega, hfree⟩
    by_cases hfull : off % clusterSize g + n = clusterSize g
    · rw [if_pos hfull] at hcall hdiv
      rcases hnext : nextOrExtend g (d.write (byteAddr g l off) (data.take n))
        l[off / clusterSize g] with ⟨d₁, - | next⟩
      · rw [hnext] at hcall
        cases hcall
        obtain ⟨rfl, hlast, hfree⟩ := nextOrExtend_none hl₁ hchunk.grown.chain hoff hnext
        refine ⟨l, n, hchunk, hn, ?_, hfree⟩
        rw [end_of_cluster hfull, hlast]
      rw [hnext] at hcall
      dsimp only at hcall
      obtain ⟨l₁, hgrown, -, hget, hsame⟩ :=
        nextOrExtend_some hl₁ hchunk.grown.chain hoff hnext
      have hwrote := hchunk.trans hpos (.of_grown hgrown _ hsame)
      rw [List.append_nil] at hwrote
      rw [← hdiv] at hget
      obtain ⟨hlt, rfl⟩ := List.getElem?_eq_some_iff.mp hget
      exact hrest d₁ l₁ hwrote (ih (by rw [hgrown.size]; exact hl₁) hgrown.chain hlt hcall)
    · rw [if_neg hfull] at hcall hdiv
      have hlt : (off + n) / clusterSize g < l.length := by rw [hdiv]; exact hoff
      simp only [← hdiv] at hcall
      exact hrest _ l hchunk (ih hl₁ hchunk.grown.chain hlt hcall)

/-- **A write that runs out of clusters** stores what the chain can hold with all of them. -/
theorem writeChain_none_spec (hl : Layout g d.size) (h : Chain g d c l) (hne : l ≠ [])
    (hoff : off / clusterSize g < 2 ^ 32) {r : XTResult}
    (hcall : writeChain g d c data off = (d', r, none)) :
    ∃ l', Wrote g d d' c l l' off (data.take (l'.length * clusterSize g - off)) ∧
      l'.length * clusterSize g ≤ off + data.length ∧ freeClusters g d' = ∅ := by
  have hpos := hl.clusterSize_pos
  have hlen := List.length_pos_of_ne_nil hne
  rw [writeChain, Nat.mod_eq_of_lt hoff, h.head_eq hlen] at hcall
  rcases hseek : seekExtend g (off / clusterSize g) d l[0] with ⟨d₁, - | cur⟩
  · rw [hseek] at hcall
    cases hcall
    obtain ⟨l', hgrown, hend, hfree, hsame⟩ := seekExtend_none hl h hlen hseek
    have hle : l'.length * clusterSize g ≤ off :=
      (Nat.le_div_iff_mul_le hpos).mp (by omega)
    refine ⟨l', ?_, by omega, hfree⟩
    rw [Nat.sub_eq_zero_of_le hle, List.take_zero]
    exact .of_grown hgrown off hsame
  rw [hseek] at hcall
  dsimp only at hcall
  obtain ⟨l₁, hgrown, -, hget, hsame⟩ := seekExtend_spec hl h hlen hseek
  rw [Nat.zero_add] at hget
  obtain ⟨hlt, rfl⟩ := List.getElem?_eq_some_iff.mp hget
  rcases hloop : writeLoop g data.length d₁ l₁[off / clusterSize g] off data 0 with ⟨d₂, - | w⟩
  · rw [hloop] at hcall
    cases hcall
    obtain ⟨l', m, hwrote, hm, hend, hfree⟩ :=
      writeLoop_none (by rw [hgrown.size]; exact hl) hgrown.chain hlt hloop
    have hall := (Wrote.of_grown hgrown off hsame).trans hpos hwrote
    have hcount : l'.length * clusterSize g - off = m := by omega
    refine ⟨l', ?_, by omega, hfree⟩
    rw [hcount]
    exact hall
  · rw [hloop] at hcall
    cases hcall

/-! ### The driver's offset -/

/-- Where the 32-bit cluster index takes an offset. -/
def seekOffset (g : VfatFSData) (offset : ℕ) : ℕ :=
  offset / clusterSize g % 2 ^ 32 * clusterSize g + offset % clusterSize g

variable {offset : ℕ}

theorem seekOffset_mod (g : VfatFSData) (offset : ℕ) :
    seekOffset g offset % clusterSize g = offset % clusterSize g := by
  rw [seekOffset, Nat.mul_add_mod_self_right, Nat.mod_mod]

theorem seekOffset_div (hpos : 0 < clusterSize g) (offset : ℕ) :
    seekOffset g offset / clusterSize g = offset / clusterSize g % 2 ^ 32 := by
  rw [seekOffset, Nat.mul_comm, Nat.mul_add_div hpos,
    Nat.div_eq_of_lt (Nat.mod_lt _ hpos), Nat.add_zero]

theorem seekOffset_eq (h : offset / clusterSize g < 2 ^ 32) : seekOffset g offset = offset := by
  rw [seekOffset, Nat.mod_eq_of_lt h, Nat.div_add_mod']

/-- The loop of the writer looks at the place in the cluster only. -/
theorem writeLoop_congr (fuel : ℕ) (d : Device) (cur : ℕ) (data : List UInt8) (w : ℕ) {k k' : ℕ}
    (h : k % clusterSize g = k' % clusterSize g) :
    writeLoop g fuel d cur k data w = writeLoop g fuel d cur k' data w := by
  induction fuel generalizing d cur k k' data w with
  | zero => rfl
  | succ fuel ih =>
    have hadd : ∀ n, (k + n) % clusterSize g = (k' + n) % clusterSize g := fun n => by
      rw [Nat.add_mod, h, ← Nat.add_mod]
    rw [writeLoop, writeLoop, chunkLength, chunkLength, h]
    simp only [fun d cur data w n => ih d cur data w (hadd n)]

/-- The driver writes where its cluster index takes it. -/
theorem writeChain_seekOffset (hpos : 0 < clusterSize g) (d : Device) (c : ℕ) (data : List UInt8)
    (offset : ℕ) :
    writeChain g d c data offset = writeChain g d c data (seekOffset g offset) := by
  rw [writeChain, writeChain, seekOffset_div hpos, Nat.mod_mod]
  simp only [fun d cur => writeLoop_congr data.length d cur data 0 (seekOffset_mod g offset)]

/-! ### The result, the count and the entry -/

/-- The bytes that the chain `l` holds with all free clusters. -/
def capacity (g : VfatFSData) (d : Device) (l : List ℕ) : ℕ :=
  (l.length + (freeClusters g d).card) * clusterSize g

/-- Without a count of bytes `vfatWriteFile` is the write of the data alone, and with one it has the
    result of that. -/
theorem vfatWriteFile_result {file : VfatFileData} {time date : ℕ} {r : XTResult} {w : Option ℕ}
    (hcall : vfatWriteFile g d file data offset time date = (d', r, w)) :
    w = none ∧ writeChain g d file.firstCluster data offset = (d', .endOfFile, none) ∧
        r = .endOfFile ∨
      ∃ d₁ n, w = some n ∧ writeChain g d file.firstCluster data offset = (d₁, r, some n) := by
  rw [vfatWriteFile] at hcall
  rcases hchain : writeChain g d file.firstCluster data offset with ⟨d₁, r₁, - | n⟩
  · rw [hchain] at hcall
    cases hcall
    obtain rfl := writeChain_none hchain
    exact .inl ⟨rfl, rfl, rfl⟩
  · rw [hchain] at hcall
    dsimp only at hcall
    split_ifs at hcall
    · cases hcall
      exact .inr ⟨d₁, n, rfl, rfl⟩
    · cases hcall
      exact .inr ⟨d', n, rfl, rfl⟩

/-- A write that tells its count has stored all the data. -/
theorem writeChain_success {r : XTResult} {n : ℕ}
    (hcall : writeChain g d c data off = (d', r, some n)) (hn : n = data.length) : r = .success := by
  rw [writeChain] at hcall
  split at hcall
  · cases hcall
  split at hcall
  · cases hcall
  · cases hcall
    exact if_pos hn

/-- A write along a chain succeeds, or returns early. -/
theorem writeChain_result (hl : Layout g d.size) (h : Chain g d c l) (hne : l ≠ [])
    (hword : off / clusterSize g < 2 ^ 32) {r : XTResult} {w : Option ℕ}
    (hcall : writeChain g d c data off = (d', r, w)) :
    (r = .success ∧ w = some data.length ∧ off + data.length < capacity g d l) ∨
    (r = .endOfFile ∧ w = none ∧ ∃ l',
      Wrote g d d' c l l' off (data.take (l'.length * clusterSize g - off)) ∧
      l'.length * clusterSize g = capacity g d l ∧ capacity g d l ≤ off + data.length) := by
  have hpos := hl.clusterSize_pos
  cases w with
  | none =>
    obtain ⟨l', hwrote, hend, hfree⟩ := writeChain_none_spec hl h hne hword hcall
    have hcard := hwrote.grown.card_freeClusters
    rw [hfree, Finset.card_empty, Nat.zero_add] at hcard
    have hkeep := hwrote.grown.keep.length_le
    have hcap : l'.length * clusterSize g = capacity g d l := by
      rw [capacity, hcard, Nat.add_sub_cancel' hkeep]
    exact .inr ⟨writeChain_none hcall, rfl, l', hwrote, hcap, by omega⟩
  | some n =>
    obtain ⟨rfl, l', hwrote, hlen⟩ := writeChain_spec hl h hne hword hcall
    have hcard := hwrote.grown.card_freeClusters
    have hcap : off + data.length < capacity g d l :=
      (Nat.div_lt_iff_lt_mul hpos).mp (by omega)
    exact .inl ⟨writeChain_success hcall rfl, rfl, hcap⟩

/-- `vfatWriteFile` on a file that has a cluster succeeds, or returns early. -/
theorem vfatWriteFile_chain {file : VfatFileData} {time date : ℕ} {r : XTResult} {w : Option ℕ}
    (hl : Layout g d.size) (h : Chain g d file.firstCluster l) (hne : l ≠ [])
    (hcall : vfatWriteFile g d file data offset time date = (d', r, w)) :
    (r = .success ∧ w = some data.length ∧
      seekOffset g offset + data.length < capacity g d l) ∨
    (r = .endOfFile ∧ w = none ∧ ∃ l',
      Wrote g d d' file.firstCluster l l' (seekOffset g offset)
        (data.take (l'.length * clusterSize g - seekOffset g offset)) ∧
      l'.length * clusterSize g = capacity g d l ∧
      capacity g d l ≤ seekOffset g offset + data.length) := by
  have hword : seekOffset g offset / clusterSize g < 2 ^ 32 := by
    rw [seekOffset_div hl.clusterSize_pos]
    exact Nat.mod_lt _ (by decide)
  obtain ⟨rfl, hwrite, rfl⟩ | ⟨d₁, n, rfl, hwrite⟩ := vfatWriteFile_result hcall
  · rw [writeChain_seekOffset hl.clusterSize_pos] at hwrite
    exact writeChain_result hl h hne hword hwrite
  · rw [writeChain_seekOffset hl.clusterSize_pos] at hwrite
    obtain hdone | ⟨-, hw, -⟩ := writeChain_result hl h hne hword hwrite
    · exact .inl hdone
    · cases hw

/-- Behind the place of its first cluster a file without clusters is written like one that has a
    cluster: the clusters that are taken follow one another, and none belongs to the file. -/
theorem writeChain_behind (hl : Layout g d.size) (hoff : clusterSize g ≤ off)
    (hword : off / clusterSize g < 2 ^ 32) {r : XTResult} {w : Option ℕ}
    (hcall : writeChain g d 0 data off = (d', r, w)) :
    (r = .success ∧ off + data.length < capacity g d [] + clusterSize g) ∨
      (r = .endOfFile ∧ w = none ∧ capacity g d [] + clusterSize g ≤ off + data.length) := by
  have hpos := hl.clusterSize_pos
  obtain ⟨n, hn⟩ : ∃ n, off / clusterSize g = n + 1 :=
    Nat.exists_eq_add_one.mpr (Nat.div_pos hoff hpos)
  have hback : (off - clusterSize g) / clusterSize g = n := by
    rw [Nat.div_eq_sub_div hpos hoff] at hn
    omega
  have hcapacity : capacity g d [] = (freeClusters g d).card * clusterSize g := by
    rw [capacity, List.length_nil, Nat.zero_add]
  obtain ⟨hfull, hnone⟩ | ⟨new, hnew, hfree, hsome⟩ := nextOrExtend_zero (d := d) hl
  · -- the seek finds no cluster
    rw [writeChain, Nat.mod_eq_of_lt hword, hn, seekExtend, hnone] at hcall
    cases hcall
    refine .inr ⟨rfl, rfl, ?_⟩
    rw [hcapacity, hfull, Finset.card_empty, Nat.zero_mul]
    omega
  · have hcard := reserve_card hl hnew hfree
    have hchain := reserve_first (d := d) hl hnew
    set d₁ := setNextCluster g d new eoc with hd₁
    have hl₁ : Layout g d₁.size := by rwa [hd₁, setNextCluster_size]
    have hword₁ : (off - clusterSize g) / clusterSize g < 2 ^ 32 := by omega
    have hfrom : writeChain g d 0 data off = writeChain g d₁ new data (off - clusterSize g) := by
      rw [writeChain, writeChain, Nat.mod_eq_of_lt hword, Nat.mod_eq_of_lt hword₁, hback, hn,
        seekExtend, hsome]
      have hmod : off % clusterSize g = (off - clusterSize g) % clusterSize g :=
        Nat.mod_eq_sub_mod hoff
      simp only [fun d cur => writeLoop_congr data.length d cur data 0 hmod]
    rw [hfrom] at hcall
    have hgrows : capacity g d₁ [new] = capacity g d [] := by
      rw [hcapacity, capacity, hcard, List.length_singleton, Nat.add_comm 1]
    obtain ⟨hr, -, hspace⟩ | ⟨hr, hw, -, -, -, hlack⟩ :=
      writeChain_result hl₁ hchain (List.cons_ne_nil _ _) hword₁ hcall
    · exact .inl ⟨hr, by omega⟩
    · exact .inr ⟨hr, hw, by omega⟩

/-- The small volume with the file `A` in its first cluster, and all other clusters in use. -/
def fullDevice : Device :=
  { smallDevice 0 with
    bytes := fun i =>
      if 528 ≤ i ∧ i < 1024 ∨ 1040 ≤ i ∧ i < 1536 then 0xff else (smallDevice 0).bytes i }

end XTOS.Vfat

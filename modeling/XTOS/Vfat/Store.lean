import XTOS.Lib.Overwrite
import XTOS.Vfat.Full

/-!
# The files of a volume as a store

Any number of open files on one volume, in one or several directories, that are written and read in any
order.

## Main definitions

- `Chains` — the clusters of files and directories, apart from each other
- `OpenFiles` — files that are opened from their entries
- `contents` — what a file holds, up to the size in its entry
- `WriteCall`, `runWrites` — calls of `vfatWriteFile` one after the other

## Main results

- `OpenFiles.write` — one call of `vfatWriteFile` is a step of the store of contents
- `runs_refine_store` — so is every run of them, whatever the calls return
- `reads_last_writes` — after a run without gaps every file reads as the store says

## Design notes

Chains are given by their first clusters. A call that finds no free cluster keeps the size in the entry, so
that the contents change inside the old size only.
-/

namespace XTOS.Vfat

open SysLib

/-- The chains from the clusters in `heads`. -/
structure Chains (g : VfatFSData) (d : Device) (heads : Set ℕ) (chain : ℕ → List ℕ) : Prop where
  linked : ∀ c ∈ heads, Chain g d c (chain c)
  ne_nil : ∀ c ∈ heads, chain c ≠ []
  disjoint : ∀ c ∈ heads, ∀ c' ∈ heads, c ≠ c' → (chain c).Disjoint (chain c')

/-- The entry of a file in its directory. -/
def fileEntry (g : VfatFSData) (d : Device) (chain : ℕ → List ℕ) (file : VfatFileData) : ℕ → UInt8 :=
  entryBuffer g d (chain file.parentCluster) file.index

/-- What a file holds. -/
def contents (g : VfatFSData) (d : Device) (chain : ℕ → List ℕ) (file : VfatFileData) : List UInt8 :=
  chainBytes g d (chain file.firstCluster) 0 (sfnFileSize (fileEntry g d chain file))

variable {ι : Type*}

/-- Regular files that are opened from their entries. -/
structure OpenFiles (g : VfatFSData) (d : Device) (heads : Set ℕ) (chain : ℕ → List ℕ)
    (file : ι → VfatFileData) : Prop where
  wellFormed : WellFormed g d.size
  chains : Chains g d heads chain
  first : ∀ i, (file i).firstCluster ∈ heads
  parent : ∀ i, (file i).parentCluster ∈ heads
  first_ne_parent : ∀ i j, (file i).firstCluster ≠ (file j).parentCluster
  first_inj : ∀ i j, (file i).firstCluster = (file j).firstCluster → i = j
  slot_inj : ∀ i j, (file i).parentCluster = (file j).parentCluster →
    (file i).index = (file j).index → i = j
  slot : ∀ i, (file i).index * 32 + 32 ≤ (chain (file i).parentCluster).length * clusterSize g
  entry : ∀ i, sfnFirstCluster (fileEntry g d chain (file i)) = (file i).firstCluster
  regular : ∀ i, sfnAttributes (fileEntry g d chain (file i)) &&& subdir = 0
  size : ∀ i, sfnFileSize (fileEntry g d chain (file i)) ≤
    (chain (file i).firstCluster).length * clusterSize g

variable {g : VfatFSData} {d d' d₁ : Device} {heads : Set ℕ} {chain : ℕ → List ℕ} {c c' k n off : ℕ}
  {l l' : List ℕ} {data : List UInt8} {file : ι → VfatFileData} {i j : ι}

/-! ### Chains and writes -/

/-- A range inside a chain. -/
theorem div_lt_of_range {m i : ℕ} (hk : k + n ≤ m * clusterSize g) (hi : i < n) :
    (k + i) / clusterSize g < m :=
  div_lt_of_lt_mul (by omega)

/-- A byte of the chain that the write does not reach. -/
theorem Wrote.byte_of_range (hpos : 0 < clusterSize g) (h : Wrote g d d' c l l' off data)
    (hk : k < l.length * clusterSize g) (hout : k < off ∨ off + data.length ≤ k) :
    d'.bytes (byteAddr g l' k) = d.bytes (byteAddr g l k) := by
  have hin := div_lt_of_lt_mul hk
  rw [byteAddr_keep h.grown.keep hin]
  refine h.outside _ (le_byteAddr _) fun j hj heq => ?_
  rw [← byteAddr_keep h.grown.keep hin] at heq
  have hsame := byteAddr_inj hpos h.grown.chain
    (hin.trans_le h.grown.keep.length_le) (h.fits j hj) heq
  omega

/-- Bytes of the chain that the write does not reach. -/
theorem Wrote.chainBytes_of_range (hpos : 0 < clusterSize g) (h : Wrote g d d' c l l' off data)
    (hk : k + n ≤ l.length * clusterSize g) (hout : k + n ≤ off ∨ off + data.length ≤ k) :
    chainBytes g d' l' k n = chainBytes g d l k n := by
  apply List.map_congr_left
  intro i hi
  have hlt := List.mem_range.mp hi
  exact h.byte_of_range hpos (by omega) (by omega)

/-- A chain of a volume that a write makes longer. -/
theorem Chains.wrote (h : Chains g d heads chain) (hc : c ∈ heads)
    (hw : Wrote g d d' c (chain c) l' off data) :
    Chains g d' heads (Function.update chain c l') := by
  have hframe : ∀ x ∈ heads, x ≠ c → Chain g d' x (chain x) ∧ l'.Disjoint (chain x) := fun x hx hne =>
    hw.grown.frame (h.linked x hx) (h.disjoint c hc x hx hne.symm)
  have hself : Function.update chain c l' c = l' := Function.update_self _ _ _
  have hother : ∀ x, x ≠ c → Function.update chain c l' x = chain x := fun x hne =>
    Function.update_of_ne hne _ _
  refine ⟨fun x hx => ?_, fun x hx => ?_, fun x hx y hy hne => ?_⟩
  · by_cases hxc : x = c
    · subst hxc
      rw [hself]
      exact hw.grown.chain
    · rw [hother x hxc]
      exact (hframe x hx hxc).1
  · by_cases hxc : x = c
    · subst hxc
      rw [hself]
      exact List.ne_nil_of_length_pos
        ((List.length_pos_of_ne_nil (h.ne_nil x hx)).trans_le hw.grown.keep.length_le)
    · rw [hother x hxc]
      exact h.ne_nil x hx
  · by_cases hxc : x = c
    · subst hxc
      rw [hself, hother y hne.symm]
      exact (hframe y hy hne.symm).2
    · rw [hother x hxc]
      by_cases hyc : y = c
      · subst hyc
        rw [hself]
        exact (hframe x hx hxc).2.symm
      · rw [hother y hyc]
        exact h.disjoint x hx y hy hne

/-- Chains only become longer. -/
theorem Chains.length_le (hw : Wrote g d d' c (chain c) l' off data) (x : ℕ) :
    (chain x).length ≤ (Function.update chain c l' x).length := by
  by_cases hxc : x = c
  · subst hxc
    rw [Function.update_self]
    exact hw.grown.keep.length_le
  · rw [Function.update_of_ne hxc]

/-- **Frame**: the bytes of all chains but those that are written. -/
theorem Chains.bytes (h : Chains g d heads chain) (hpos : 0 < clusterSize g) (hc : c ∈ heads)
    (hc' : c' ∈ heads) (hw : Wrote g d d' c (chain c) l' off data)
    (hk : k + n ≤ (chain c').length * clusterSize g)
    (hout : c' = c → k + n ≤ off ∨ off + data.length ≤ k) :
    chainBytes g d' (Function.update chain c l' c') k n = chainBytes g d (chain c') k n := by
  by_cases hcc : c' = c
  · subst hcc
    rw [Function.update_self]
    exact hw.chainBytes_of_range hpos hk (hout rfl)
  · obtain ⟨-, hdisj⟩ := hw.grown.frame (h.linked c' hc') (h.disjoint c hc c' hc' (Ne.symm hcc))
    rw [Function.update_of_ne hcc]
    exact hw.chainBytes_of_disjoint hpos hdisj (fun x hx => ((h.linked c' hc').2 x hx).1)
      fun i hi => div_lt_of_range hk hi

/-! ### Entries -/

/-- The bytes of an entry that `vfatWriteFile` keeps. -/
theorem touchEntry_keep (sfn : ℕ → UInt8) (size time date : ℕ) {i : ℕ}
    (hi : i < 22 ∨ 26 ≤ i ∧ i < 28) :
    slotBuffer (load (touchEntry sfn size time date) 0 32) i = sfn i := by
  rw [slotBuffer_apply (by rw [length_load]; omega), getElem_load, Nat.zero_add, touchEntry,
    storeLE_outside _ _ (by omega), storeLE_outside _ _ (by omega)]
  split_ifs
  · exact storeLE_outside _ _ (by omega)
  · rfl

theorem sfnFirstCluster_touchEntry (sfn : ℕ → UInt8) (size time date : ℕ) :
    sfnFirstCluster (slotBuffer (load (touchEntry sfn size time date) 0 32)) = sfnFirstCluster sfn := by
  have hlow : ∀ i, 26 ≤ i → i < 26 + 2 →
      slotBuffer (load (touchEntry sfn size time date) 0 32) i = sfn i := fun i h1 h2 =>
    touchEntry_keep sfn size time date (.inr ⟨h1, h2⟩)
  have hhigh : ∀ i, 20 ≤ i → i < 20 + 2 →
      slotBuffer (load (touchEntry sfn size time date) 0 32) i = sfn i := fun i _ h2 =>
    touchEntry_keep sfn size time date (.inl h2)
  rw [sfnFirstCluster, sfnFirstCluster, loadLE_congr hlow, loadLE_congr hhigh]

theorem sfnAttributes_touchEntry (sfn : ℕ → UInt8) (size time date : ℕ) :
    sfnAttributes (slotBuffer (load (touchEntry sfn size time date) 0 32)) = sfnAttributes sfn :=
  congrArg UInt8.toNat (touchEntry_keep sfn size time date (.inl (by decide)))

/-! ### One call -/

theorem OpenFiles.opened (h : OpenFiles g d heads chain file) (i : ι) :
    Opened g d (file i) (chain (file i).firstCluster) (chain (file i).parentCluster) where
  chain := .inl ⟨h.chains.ne_nil _ (h.first i), h.chains.linked _ (h.first i)⟩
  dirChain := h.chains.linked _ (h.parent i)
  disjoint := h.chains.disjoint _ (h.first i) _ (h.parent i) (h.first_ne_parent i i)
  slot := h.slot i
  entry := h.entry i
  regular := h.regular i

/-- The data of one file is written. -/
theorem OpenFiles.wrote (h : OpenFiles g d heads chain file) (i : ι)
    (hw : Wrote g d d' (file i).firstCluster (chain (file i).firstCluster) l' off data) :
    let chain' := Function.update chain (file i).firstCluster l'
    OpenFiles g d' heads chain' file ∧
      (∀ j, fileEntry g d' chain' (file j) = fileEntry g d chain (file j)) ∧
      ∀ j ≠ i, contents g d' chain' (file j) = contents g d chain (file j) := by
  intro chain'
  have hpos := h.wellFormed.clusterSize_pos
  have hentry : ∀ j, fileEntry g d' chain' (file j) = fileEntry g d chain (file j) := fun j =>
    congrArg slotBuffer (h.chains.bytes hpos (h.first i) (h.parent j) hw (h.slot j) fun heq =>
      absurd heq.symm (h.first_ne_parent i j))
  refine ⟨{
    wellFormed := by rw [hw.grown.size]; exact h.wellFormed
    chains := h.chains.wrote (h.first i) hw
    first := h.first
    parent := h.parent
    first_ne_parent := h.first_ne_parent
    first_inj := h.first_inj
    slot_inj := h.slot_inj
    slot := fun j => (h.slot j).trans (Nat.mul_le_mul_right _ (Chains.length_le hw _))
    entry := fun j => by rw [hentry j]; exact h.entry j
    regular := fun j => by rw [hentry j]; exact h.regular j
    size := fun j => by
      rw [hentry j]
      exact (h.size j).trans (Nat.mul_le_mul_right _ (Chains.length_le hw _)) }, hentry,
    fun j hj => ?_⟩
  rw [contents, contents, hentry j]
  exact h.chains.bytes hpos (h.first i) (h.first j) hw (by rw [Nat.zero_add]; exact h.size j)
    fun heq => absurd (h.first_inj j i heq) hj

/-- The entry of one file is written. -/
theorem OpenFiles.touched (h : OpenFiles g d heads chain file) (i : ι) {size time date : ℕ}
    (hsize : size < 2 ^ 32) (hle : size ≤ (chain (file i).firstCluster).length * clusterSize g)
    (hw : Wrote g d d' (file i).parentCluster (chain (file i).parentCluster) l' ((file i).index * 32)
      (load (touchEntry (fileEntry g d chain (file i)) size time date) 0 32)) :
    let chain' := Function.update chain (file i).parentCluster l'
    OpenFiles g d' heads chain' file ∧
      (∀ j ≠ i, contents g d' chain' (file j) = contents g d chain (file j)) ∧
      contents g d' chain' (file i) = chainBytes g d (chain (file i).firstCluster) 0
        (max (sfnFileSize (fileEntry g d chain (file i))) size) := by
  intro chain'
  have hpos := h.wellFormed.clusterSize_pos
  have hlen : (load (touchEntry (fileEntry g d chain (file i)) size time date) 0 32).length = 32 :=
    length_load _ _ _
  have hself : fileEntry g d' chain' (file i) =
      slotBuffer (load (touchEntry (fileEntry g d chain (file i)) size time date) 0 32) := by
    have hbytes := hw.chainBytes_eq
    rw [hlen] at hbytes
    have hchain : chain' (file i).parentCluster = l' := Function.update_self _ _ _
    rw [fileEntry, entryBuffer, hchain, hbytes]
  have hother : ∀ j ≠ i, fileEntry g d' chain' (file j) = fileEntry g d chain (file j) := by
    intro j hj
    refine congrArg slotBuffer (h.chains.bytes hpos (h.parent i) (h.parent j) hw (h.slot j) fun heq => ?_)
    -- the slots of a directory do not overlap
    have hne : (file j).index ≠ (file i).index := fun hidx => hj (h.slot_inj j i heq hidx)
    rw [hlen]
    omega
  have hdata : ∀ j n, n ≤ (chain (file j).firstCluster).length * clusterSize g →
      chainBytes g d' (chain' (file j).firstCluster) 0 n =
        chainBytes g d (chain (file j).firstCluster) 0 n := fun j n hn =>
    h.chains.bytes hpos (h.parent i) (h.first j) hw (by rwa [Nat.zero_add]) fun heq =>
      absurd heq (h.first_ne_parent j i)
  have hsizes : sfnFileSize (fileEntry g d' chain' (file i)) =
      max (sfnFileSize (fileEntry g d chain (file i))) size := by
    rw [hself]
    exact sfnFileSize_touchEntry _ hsize time date
  refine ⟨{
    wellFormed := by rw [hw.grown.size]; exact h.wellFormed
    chains := h.chains.wrote (h.parent i) hw
    first := h.first
    parent := h.parent
    first_ne_parent := h.first_ne_parent
    first_inj := h.first_inj
    slot_inj := h.slot_inj
    slot := fun j => (h.slot j).trans (Nat.mul_le_mul_right _ (Chains.length_le hw _))
    entry := fun j => ?_
    regular := fun j => ?_
    size := fun j => ?_ }, fun j hj => ?_, ?_⟩
  · by_cases hj : j = i
    · subst hj
      rw [hself, sfnFirstCluster_touchEntry]
      exact h.entry j
    · rw [hother j hj]
      exact h.entry j
  · by_cases hj : j = i
    · subst hj
      rw [hself, sfnAttributes_touchEntry]
      exact h.regular j
    · rw [hother j hj]
      exact h.regular j
  · have hmono := Nat.mul_le_mul_right (clusterSize g) (Chains.length_le hw (file j).firstCluster)
    by_cases hj : j = i
    · subst hj
      rw [hsizes]
      exact (max_le (h.size j) hle).trans hmono
    · rw [hother j hj]
      exact (h.size j).trans hmono
  · rw [contents, contents, hother j hj]
    exact hdata j _ (h.size j)
  · rw [contents, hsizes]
    exact hdata i _ (max_le (h.size i) hle)

theorem getElem?_chainBytes (g : VfatFSData) (d : Device) (l : List ℕ) {i : ℕ} (hi : i < n) :
    (chainBytes g d l 0 n)[i]? = some (d.bytes (byteAddr g l i)) := by
  simp [chainBytes, hi]

/-- The data ends inside the chain. -/
theorem Wrote.end_le (hpos : 0 < clusterSize g) (h : Wrote g d d' c l l' off data)
    (hoff : off / clusterSize g < l'.length) : off + data.length ≤ l'.length * clusterSize g := by
  by_cases hdata : data.length = 0
  · have hlt := (Nat.div_lt_iff_lt_mul hpos).mp hoff
    omega
  · have hlt := (Nat.div_lt_iff_lt_mul hpos).mp (h.fits (data.length - 1) (by omega))
    omega

/-- What a write that was done leaves of a file with `n` bytes. -/
theorem Wrote.overwritten (hpos : 0 < clusterSize g) (h : Wrote g d d' c l l' off data)
    (hn : n ≤ l.length * clusterSize g) :
    Overwritten (chainBytes g d l 0 n) (chainBytes g d' l' 0 (max n (off + data.length))) off data where
  length := by simp
  inside i hi := by
    rw [getElem?_chainBytes g d' l' (by omega), h.inside i hi]
    exact (List.getElem?_eq_getElem hi).symm
  outside i hi hout := by
    rw [length_chainBytes] at hi
    rw [getElem?_chainBytes g d' l' (by omega), getElem?_chainBytes g d l hi]
    exact congrArg some (h.byte_of_range hpos (by omega) hout)

/-- What a write that stopped leaves of a file with `n` bytes. -/
theorem Wrote.torn (hpos : 0 < clusterSize g) {m : ℕ} (h : Wrote g d d' c l l' off (data.take m))
    (hn : n ≤ l.length * clusterSize g) :
    Torn (chainBytes g d l 0 n) (chainBytes g d' l' 0 n) off data where
  length := by simp
  part := by
    refine ⟨(data.take m).length, List.length_take_le' m data, fun i hi => ?_⟩
    rw [length_chainBytes] at hi
    rw [getElem?_chainBytes g d' l' hi, getElem?_chainBytes g d l hi]
    split_ifs with hin
    · have hbyte := h.inside (i - off) (by omega)
      rw [show off + (i - off) = i by omega, List.getElem_take] at hbyte
      rw [hbyte, List.getElem?_eq_getElem]
    · exact congrArg some (h.byte_of_range hpos (by omega) (by omega))

variable {offset time date : ℕ} {r : XTResult} {w : Option ℕ}

/-- **A call** of `vfatWriteFile` is a step of the store; it is done if the call succeeds. -/
theorem OpenFiles.write (h : OpenFiles g d heads chain file) (i : ι) (hlt : offset + data.length < 2 ^ 32)
    (hcall : vfatWriteFile g d (file i) data offset time date = (d', r, w)) :
    ∃ chain', OpenFiles g d' heads chain' file ∧
      StoreStep ⟨i, offset, data⟩ (decide (r = .success)) (fun j => contents g d chain (file j))
        fun j => contents g d' chain' (file j) := by
  have hpos := h.wellFormed.clusterSize_pos
  have hword : offset / clusterSize g < 2 ^ 32 := lt_of_le_of_lt (Nat.div_le_self _ _) (by omega)
  obtain ⟨rfl, -, -⟩ | ⟨rfl, -, l', hw, -, -⟩ := vfatWriteFile_chain h.wellFormed.layout
    (h.chains.linked _ (h.first i)) (h.chains.ne_nil _ (h.first i)) hcall
  · obtain ⟨d₁, l₁, dir₁, hw, hoff, -, hentry, -⟩ := (h.opened i).wrote h.wellFormed
      (h.chains.ne_nil _ (h.first i)) hlt hcall
    obtain ⟨h₁, hentries, hothers⟩ := h.wrote i hw
    have hdir : Function.update chain (file i).firstCluster l₁ (file i).parentCluster =
        chain (file i).parentCluster := Function.update_of_ne (h.first_ne_parent i i).symm _ _
    have hfirst : Function.update chain (file i).firstCluster l₁ (file i).firstCluster = l₁ :=
      Function.update_self _ _ _
    obtain ⟨h₂, hothers₂, hself⟩ := h₁.touched i hlt (by rw [hfirst]; exact hw.end_le hpos hoff)
      (by rw [hdir, hentries i]; exact hentry)
    refine ⟨_, h₂, fun j hj => (hothers₂ j hj).trans (hothers j hj), fun _ => ?_,
      fun hdone => absurd hdone (by decide)⟩
    dsimp only
    rw [hself, hentries i, hfirst]
    exact hw.overwritten hpos (h.size i)
  · rw [seekOffset_eq hword] at hw
    obtain ⟨h₁, hentries, hothers⟩ := h.wrote i hw
    refine ⟨_, h₁, hothers, fun hdone => absurd hdone (by decide), fun _ => ?_⟩
    have hfirst : Function.update chain (file i).firstCluster l' (file i).firstCluster = l' :=
      Function.update_self _ _ _
    dsimp only
    rw [contents, contents, hentries i, hfirst]
    exact hw.torn hpos (h.size i)

/-- A read inside the contents. -/
theorem OpenFiles.read (h : OpenFiles g d heads chain file) (i : ι) {count : ℕ} (hcount : 0 < count)
    (hin : offset + count ≤ (contents g d chain (file i)).length) :
    vfatReadFile g d (file i) offset count =
      (.success, ((contents g d chain (file i)).drop offset).take count) := by
  have hwf := h.wellFormed
  have hchain := h.chains.linked _ (h.first i)
  rw [contents, length_chainBytes] at hin
  have hsize := h.size i
  have hoff : offset / clusterSize g < (chain (file i).firstCluster).length :=
    div_lt_of_lt_mul (by omega)
  rw [vfatReadFile, readChain_spec hwf hchain hoff (hoff.trans (hchain.word hwf.layout))
    fun k hk => div_lt_of_lt_mul (by omega)]
  refine congrArg (Prod.mk _) (List.ext_getElem ?_ fun k hk _ => ?_)
  · rw [length_chainBytes, List.length_take, List.length_drop, contents, length_chainBytes]
    omega
  · simp [chainBytes, contents]

/-! ### Runs -/

/-- A call of `vfatWriteFile` for one of the files. -/
structure WriteCall (ι : Type*) where
  file : ι
  data : List UInt8
  offset : ℕ
  time : ℕ
  date : ℕ

/-- The write that a call is. -/
def WriteCall.write (w : WriteCall ι) : Write ι UInt8 := ⟨w.file, w.offset, w.data⟩

/-- Calls one after the other, with their results. -/
def runWrites (g : VfatFSData) (file : ι → VfatFileData) :
    Device → List (WriteCall ι) → Device × List XTResult
  | d, [] => (d, [])
  | d, w :: ws =>
    let call := vfatWriteFile g d (file w.file) w.data w.offset w.time w.date
    let run := runWrites g file call.1 ws
    (run.1, call.2.1 :: run.2)

/-- The writes of a run and whether they were done. -/
def outcomes (ws : List (WriteCall ι)) (rs : List XTResult) : List (Write ι UInt8 × Bool) :=
  (ws.map WriteCall.write).zip (rs.map fun r => decide (r = .success))

/-- A run is a run of the store. -/
theorem OpenFiles.run (h : OpenFiles g d heads chain file) {ws : List (WriteCall ι)}
    (hfit : ∀ w ∈ ws, w.offset + w.data.length < 2 ^ 32) :
    ∃ chain', OpenFiles g (runWrites g file d ws).1 heads chain' file ∧
      StoreRun (outcomes ws (runWrites g file d ws).2) (fun i => contents g d chain (file i))
        fun i => contents g (runWrites g file d ws).1 chain' (file i) := by
  induction ws generalizing d chain with
  | nil => exact ⟨chain, h, .nil _⟩
  | cons w ws ih =>
    obtain ⟨chain₁, h₁, hstep⟩ := h.write w.file (hfit w List.mem_cons_self)
      (rfl : vfatWriteFile g d (file w.file) w.data w.offset w.time w.date = _)
    obtain ⟨chain₂, h₂, hrun⟩ := ih h₁ fun w hw => hfit w (List.mem_cons_of_mem _ hw)
    exact ⟨chain₂, h₂, .cons hstep hrun⟩

end XTOS.Vfat

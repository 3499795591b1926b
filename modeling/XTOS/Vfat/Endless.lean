import Mathlib.Data.Set.Card
import XTOS.Vfat.Delete

/-!
# Chains without an end

The links of the table, from a cluster on: they lead to the end of a chain or go round for ever. A
directory whose links go round has slots at every index, and reads and writes of them make no link.

## Main definitions

- `Ends` — the links lead to the end of a chain
- `LinksIn` — they stay in a set of clusters up to there
- `Endless` — they stay in the table and never come to an end

## Main results

- `LinksIn.ends_iff` — what a change of other links leaves
- `LinksIn.chain_or_endless` — links in the table form a chain or have no end
- `clearLfn_endless` — the loop over long-name slots ends even in a directory without an end
-/

namespace XTOS.Vfat

open SysLib

variable {g : VfatFSData} {d d' : Device} {c k x : ℕ} {l : List ℕ}

/-! ### Links that lead to an end -/

/-- The links from a cluster lead to the end of a chain. -/
inductive Ends (g : VfatFSData) (d : Device) : ℕ → Prop
  | last {c : ℕ} (h : getNextCluster g d c = eoc) : Ends g d c
  | link {c : ℕ} (h : Ends g d (getNextCluster g d c)) : Ends g d c

/-- The links from a cluster stay in a set of clusters, up to the end of the chain. -/
def LinksIn (g : VfatFSData) (d : Device) (t : Set ℕ) (c : ℕ) : Prop :=
  ∃ s ⊆ t, c ∈ s ∧ ∀ x ∈ s, getNextCluster g d x = eoc ∨ getNextCluster g d x ∈ s

theorem LinksIn.mono {t t' : Set ℕ} (h : LinksIn g d t c) (hsub : t ⊆ t') : LinksIn g d t' c := by
  obtain ⟨s, ht, hs⟩ := h
  exact ⟨s, ht.trans hsub, hs⟩

/-- The links of a chain stay in it. -/
theorem Chain.linksIn (h : Chain g d c l) (hne : l ≠ []) : LinksIn g d {x | IsCluster g x} c := by
  have hpos := List.length_pos_of_ne_nil hne
  refine ⟨{x | x ∈ l}, h.2, ?_, fun x hx => ?_⟩
  · rw [h.head_eq hpos]
    exact List.getElem_mem hpos
  · obtain ⟨j, hj, rfl⟩ := List.getElem_of_mem hx
    rw [h.next hj]
    by_cases hlast : j + 1 < l.length
    · rw [List.getElem?_eq_getElem hlast, Option.getD_some]
      exact .inr (List.getElem_mem hlast)
    · rw [List.getElem?_eq_none (by omega), Option.getD_none]
      exact .inl rfl

/-- The clusters of a chain lead to its end. -/
theorem Chain.ends (h : Chain g d c l) : ∀ x ∈ l, Ends g d x := by
  obtain ⟨hlinked, -⟩ := h
  induction l generalizing c with
  | nil => simp
  | cons y l ih =>
    obtain ⟨rfl, -, hrest⟩ := hlinked
    have hl := ih hrest
    refine List.forall_mem_cons.mpr ⟨?_, hl⟩
    cases l with
    | nil => exact .last hrest
    | cons z l =>
      obtain ⟨hz, -⟩ := hrest
      exact .link (hz ▸ hl z List.mem_cons_self)

theorem freeLoop_ends_iff (g : VfatFSData) (d : Device) (c : ℕ) :
    (∃ fuel d', freeLoop g fuel d c = some d') ↔ Ends g d c := by
  have hset : ∀ next, setNextCluster g d next 0 = d := fun next => if_pos (.inr (.inl rfl))
  constructor
  · rintro ⟨fuel, d', hloop⟩
    induction fuel generalizing c with
    | zero => cases hloop
    | succ fuel ih =>
      rw [freeLoop, hset] at hloop
      split_ifs at hloop with hend
      · exact .last hend
      · exact .link (ih _ hloop)
  · intro h
    induction h with
    | last h => exact ⟨1, d, by rw [freeLoop, hset, if_pos h]⟩
    | link _ ih =>
      obtain ⟨fuel, d', hloop⟩ := ih
      refine ⟨fuel + 1, ?_⟩
      rw [freeLoop, hset]
      split_ifs
      · exact ⟨d, rfl⟩
      · exact ⟨d', hloop⟩

/-- A device whose links differ from those of another only where both come to an end. -/
theorem LinksIn.ends_iff {t : Set ℕ} (h : LinksIn g d {x | x < maxCluster g} c)
    (hin : ∀ x ∈ t, Ends g d x ∧ Ends g d' x)
    (hout : ∀ x, IsCluster g x → x ∉ t → getNextCluster g d' x = getNextCluster g d x) :
    Ends g d' c ↔ Ends g d c := by
  obtain ⟨s, htable, hmem, hs⟩ := h
  have hsame : ∀ x ∈ s, x ∉ t → getNextCluster g d' x = getNextCluster g d x := by
    intro x hx hnot
    by_cases hlow : x < 2
    · rw [getNextCluster, getNextCluster, if_pos hlow, if_pos hlow]
    · exact hout x ⟨by omega, htable hx⟩ hnot
  constructor
  · intro hends
    induction hends with
    | @last x hend =>
      by_cases hx : x ∈ t
      · exact (hin x hx).1
      · exact .last (by rw [← hsame x hmem hx, hend])
    | @link x _ ih =>
      by_cases hx : x ∈ t
      · exact (hin x hx).1
      · obtain hend | hnext := hs x hmem
        · exact .last hend
        · rw [hsame x hmem hx] at ih
          exact .link (ih hnext)
  · intro hends
    induction hends with
    | @last x hend =>
      by_cases hx : x ∈ t
      · exact (hin x hx).2
      · exact .last (by rw [hsame x hmem hx, hend])
    | @link x _ ih =>
      by_cases hx : x ∈ t
      · exact (hin x hx).2
      · obtain hend | hnext := hs x hmem
        · exact .last (by rw [hsame x hmem hx, hend])
        · refine .link ?_
          rw [hsame x hmem hx]
          exact ih hnext

/-- A directory that grows changes no end of another chain, even of one that runs into it. -/
theorem Grown.ends_iff {l' : List ℕ} {first : ℕ} (h : Grown g d d' c l l')
    (hlinks : LinksIn g d {x | x < maxCluster g} first) : Ends g d' first ↔ Ends g d first := by
  refine hlinks.ends_iff (t := {x | x ∈ l'}) (fun x hx => ⟨?_, h.chain.ends x hx⟩)
    fun x hx hnot => h.other x hx hnot
  by_cases hold : x ∈ l
  · exact h.old.ends x hold
  · -- a cluster that was free
    have hzero := h.new x hx hold
    refine .link (.last ?_)
    rw [hzero]
    rfl

/-! ### Links that go round -/

/-- The links from a cluster never come to an end, and stay in the table. -/
def Endless (g : VfatFSData) (d : Device) (c : ℕ) : Prop :=
  ∃ s : Set ℕ, c ∈ s ∧ ∀ x ∈ s, IsCluster g x ∧ getNextCluster g d x ∈ s

theorem Endless.cluster (h : Endless g d c) : IsCluster g c := by
  obtain ⟨s, hmem, hs⟩ := h
  exact (hs c hmem).1

theorem Endless.next (h : Endless g d c) : Endless g d (getNextCluster g d c) := by
  obtain ⟨s, hmem, hs⟩ := h
  exact ⟨s, (hs c hmem).2, hs⟩

theorem Endless.not_ends (hl : Layout g d.size) (h : Endless g d c) : ¬ Ends g d c := by
  intro hends
  induction hends with
  | last hlast => exact h.next.cluster.ne_eoc hl hlast
  | link _ ih => exact ih h.next

/-- A device with the same links. -/
theorem Endless.congr (h : Endless g d c)
    (hsame : ∀ x, IsCluster g x → getNextCluster g d' x = getNextCluster g d x) :
    Endless g d' c := by
  obtain ⟨s, hmem, hs⟩ := h
  refine ⟨s, hmem, fun x hx => ⟨(hs x hx).1, ?_⟩⟩
  rw [hsame x (hs x hx).1]
  exact (hs x hx).2

/-- Both seeks end in the same cluster, and no link is made. -/
theorem Endless.seek (hl : Layout g d.size) (h : Endless g d c) (n : ℕ) :
    ∃ x, Endless g d x ∧ seekChain g d n c = some x ∧ seekExtend g n d c = (d, some x) := by
  induction n generalizing c with
  | zero => exact ⟨c, h, rfl, rfl⟩
  | succ n ih =>
    have hne : getNextCluster g d c ≠ eoc := h.next.cluster.ne_eoc hl
    obtain ⟨x, hx, hread, hwrite⟩ := ih h.next
    refine ⟨x, hx, ?_, ?_⟩
    · rw [seekChain, if_neg hne]
      exact hread
    · rw [seekExtend, nextOrExtend, if_neg hne]
      exact hwrite

/-- Links that stay among the clusters of the table come to an end, or they never do. -/
theorem LinksIn.chain_or_endless (hl : Layout g d.size) (h : LinksIn g d {x | IsCluster g x} c) :
    (∃ l, Chain g d c l ∧ l ≠ []) ∨ Endless g d c := by
  by_cases hends : Ends g d c
  · left
    obtain ⟨s, htable, hmem, hs⟩ := h
    induction hends with
    | @last x hlast =>
      have hx := htable hmem
      refine ⟨[x], ⟨⟨rfl, hx.ne_eoc hl, hlast⟩, fun y hy => ?_⟩, List.cons_ne_nil _ _⟩
      rw [List.mem_singleton.mp hy]
      exact hx
    | @link x _ ih =>
      have hx := htable hmem
      obtain hlast | hnext := hs x hmem
      · refine ⟨[x], ⟨⟨rfl, hx.ne_eoc hl, hlast⟩, fun y hy => ?_⟩, List.cons_ne_nil _ _⟩
        rw [List.mem_singleton.mp hy]
        exact hx
      · obtain ⟨l, hchain, -⟩ := ih hnext
        exact ⟨x :: l, ⟨⟨rfl, hx.ne_eoc hl, hchain.1⟩, List.forall_mem_cons.mpr ⟨hx, hchain.2⟩⟩,
          List.cons_ne_nil _ _⟩
  · right
    obtain ⟨s, htable, hmem, hs⟩ := h
    refine ⟨{x | x ∈ s ∧ ¬ Ends g d x}, ⟨hmem, hends⟩, fun x hx => ⟨htable hx.1, ?_⟩⟩
    obtain hlast | hnext := hs x hx.1
    · exact absurd (.last hlast) hx.2
    · exact ⟨hnext, fun hlater => hx.2 (.link hlater)⟩

/-! ### The slots of a directory without an end -/

/-- Bytes that are stored behind the tables change no link. -/
theorem links_of_store {a : ℕ} (hl : Layout g d.size) (ha : g.dataOffset ≤ a) (data : List UInt8) :
    ∀ x, IsCluster g x →
      getNextCluster g { d with bytes := store d.bytes a data } x = getNextCluster g d x :=
  fun _ hx => getNextCluster_congr hl rfl hx fun _ hi => store_below _ _ (by omega)

/-- The address of a slot of some cluster. -/
def IsSlotAddr (g : VfatFSData) (a : ℕ) : Prop :=
  ∃ x o, IsCluster g x ∧ o % 32 = 0 ∧ o + 32 ≤ clusterSize g ∧ a = cellAddr g x o

/-- The address of slot `p` in the cluster that it lies in. -/
def slotAddr (g : VfatFSData) (x p : ℕ) : ℕ := cellAddr g x (p * 32 % clusterSize g)

/-- A slot lies in one cluster, where the reader and the writer compute the same address. -/
theorem slotAddr_spec (hwf : WellFormed g d.size) (hx : IsCluster g x) (p : ℕ) :
    IsSlotAddr g (slotAddr g x p) ∧ slotAddr g x p + 32 ≤ d.size ∧
      chunkLength g (p * 32) 32 = 32 ∧
      g.dataOffset + clusterIndex x * clusterSize g + p * 32 % clusterSize g = slotAddr g x p ∧
      (g.dataOffset + clusterIndex x * clusterSize g) % 2 ^ 32 + p * 32 % clusterSize g =
        slotAddr g x p := by
  have hl := hwf.layout
  have hmod : p * 32 % clusterSize g % 32 = 0 := by
    rw [Nat.mod_mod_of_dvd _ (Nat.dvd_of_mod_eq_zero hwf.slots)]
    exact Nat.mul_mod_left _ _
  have hfit : p * 32 % clusterSize g + 32 ≤ clusterSize g := by
    have h1 := Nat.mod_lt (p * 32) hwf.clusterSize_pos
    have h2 := hwf.slots
    omega
  have hindex : clusterIndex x = x - 2 := by
    have h1 := hl.maxCluster_le
    have h2 := hx.2
    unfold eoc at h1
    exact clusterIndex_eq hx.1 (by omega)
  have hdevice := hl.cluster hx hfit
  have hword := hwf.cluster hx (o := clusterSize g) le_rfl
  unfold cellAddr at hdevice hword
  refine ⟨⟨x, _, hx, hmod, hfit, rfl⟩, ?_, ?_, ?_, ?_⟩
  · unfold slotAddr cellAddr
    omega
  · rw [chunkLength]
    omega
  · rw [hindex, slotAddr, cellAddr]
  · rw [hindex, Nat.mod_eq_of_lt (by omega), slotAddr, cellAddr]

/-- The loop of the reader for a slot. -/
theorem readLoop_link (hwf : WellFormed g d.size) (hx : IsCluster g x)
    (hlink : getNextCluster g d x ≠ eoc) (p : ℕ) :
    readLoop g d 32 x (p * 32) 32 = load d.bytes (slotAddr g x p) 32 := by
  obtain ⟨-, hdevice, hchunk, -, haddr⟩ := slotAddr_spec hwf hx p
  have hlen : (load d.bytes (slotAddr g x p) 32).length = 32 := length_load _ _ _
  have hne : load d.bytes (slotAddr g x p) 32 ≠ [] :=
    List.ne_nil_of_length_pos (by rw [hlen]; decide)
  have hrest : ∀ y k, readLoop g d 31 y k (32 - 32) = [] := fun y k => by
    rw [readLoop]
    exact if_pos rfl
  rw [readLoop, if_neg (show ¬ 32 = 0 by decide)]
  dsimp only
  rw [hchunk, haddr, d.read_eq hdevice, if_neg hne, hlen, if_neg hlink, hrest, hrest,
    List.append_nil, ite_self]

/-- The loop of the writer for a slot. -/
theorem writeLoop_link (hwf : WellFormed g d.size) (hx : IsCluster g x)
    (hlink : getNextCluster g d x ≠ eoc) {data : List UInt8} (hdata : data.length = 32) (p : ℕ) :
    writeLoop g 32 d x (p * 32) data 0 =
      ({ d with bytes := store d.bytes (slotAddr g x p) data }, some 32) := by
  obtain ⟨-, hdevice, hchunk, haddr, -⟩ := slotAddr_spec hwf hx p
  have hserved : (d.served (slotAddr g x p) data).length = 32 := by
    rw [Device.served, List.length_take, hdata]
    omega
  have hne : data ≠ [] := List.ne_nil_of_length_pos (by omega)
  have hlink' : getNextCluster g { d with bytes := store d.bytes (slotAddr g x p) data } x ≠ eoc := by
    rw [links_of_store hwf.layout (show g.dataOffset ≤ slotAddr g x p from le_cellAddr) data x hx]
    exact hlink
  have hrest : ∀ d' y k w, writeLoop g 31 d' y k [] w = (d', some w) := fun d' y k w => by
    rw [writeLoop]
    exact if_pos rfl
  rw [writeLoop, if_neg hne]
  dsimp only
  rw [hdata, hchunk, haddr, List.take_of_length_le hdata.le, hserved,
    List.drop_eq_nil_of_le hdata.le, if_neg (show ¬ 32 = 0 by decide),
    d.write_eq (by rw [hdata]; exact hdevice)]
  by_cases hend : p * 32 % clusterSize g + 32 = clusterSize g
  · rw [if_pos hend, nextOrExtend]
    dsimp only
    rw [if_neg hlink']
    exact hrest _ _ _ _
  · rw [if_neg hend]
    exact hrest _ _ _ _

/-- Every slot of a directory without an end is read and written at one address. -/
theorem Endless.slot (hwf : WellFormed g d.size) (h : Endless g d c) (p : ℕ) :
    ∃ a, IsSlotAddr g a ∧ a + 32 ≤ d.size ∧
      readChain g d c (p * 32) 32 = (.success, load d.bytes a 32) ∧
      ∀ data : List UInt8, data.length = 32 →
        (writeChain g d c data (p * 32)).1 = { d with bytes := store d.bytes a data } := by
  obtain ⟨x, hx, hread, hwrite⟩ := h.seek hwf.layout (p * 32 / clusterSize g % 2 ^ 32)
  have hcluster := hx.cluster
  have hlink := hx.next.cluster.ne_eoc hwf.layout
  obtain ⟨haddr, hdevice, -⟩ := slotAddr_spec hwf hcluster p
  refine ⟨slotAddr g x p, haddr, hdevice, ?_, fun data hdata => ?_⟩
  · rw [readChain, hread]
    dsimp only
    rw [readLoop_link hwf hcluster hlink, length_load, if_pos rfl]
  · rw [writeChain, hwrite]
    dsimp only
    rw [hdata, writeLoop_link hwf hcluster hlink hdata]

/-- The slots of the clusters that are not marked. -/
def unmarked (g : VfatFSData) (d : Device) : Set ℕ :=
  {a | IsSlotAddr g a ∧ d.bytes a ≠ deletedMark}

theorem IsSlotAddr.mod {a : ℕ} (hslots : clusterSize g % 32 = 0) (h : IsSlotAddr g a) :
    g.dataOffset ≤ a ∧ (a - g.dataOffset) % 32 = 0 := by
  obtain ⟨x, o, -, ho, -, rfl⟩ := h
  obtain ⟨m, hm⟩ := Nat.dvd_of_mod_eq_zero hslots
  obtain ⟨k, rfl⟩ := Nat.dvd_of_mod_eq_zero ho
  refine ⟨le_cellAddr, ?_⟩
  have heq : (x - 2) * clusterSize g = 32 * ((x - 2) * m) := by
    rw [hm, Nat.mul_left_comm]
  unfold cellAddr
  rw [heq]
  omega

theorem finite_unmarked (hl : Layout g d.size) : (unmarked g d).Finite := by
  refine (Set.finite_le_nat d.size).subset ?_
  rintro a ⟨⟨x, o, hx, -, ho, rfl⟩, -⟩
  exact hl.cluster hx (show o ≤ clusterSize g by omega)

/-- A slot that is marked is one slot less. -/
theorem unmarked_store {a : ℕ} {data : List UInt8} (hl : Layout g d.size) (ha : IsSlotAddr g a)
    (hdata : data.length = 32) (hmark : data[0]? = some deletedMark)
    (hbefore : d.bytes a ≠ deletedMark) :
    (unmarked g { d with bytes := store d.bytes a data }).ncard < (unmarked g d).ncard := by
  have hmarked : store d.bytes a data a = deletedMark := by
    obtain ⟨hpos, hzero⟩ := List.getElem?_eq_some_iff.mp hmark
    rw [← hzero]
    exact store_at d.bytes a data hpos
  obtain ⟨hle, hmod⟩ := ha.mod hl.slots
  refine Set.ncard_lt_ncard ⟨?_, ?_⟩ (finite_unmarked hl)
  · rintro b ⟨hb, hne⟩
    refine ⟨hb, fun hold => hne ?_⟩
    by_cases heq : b = a
    · rw [heq]
      exact hmarked
    · obtain ⟨hleb, hmodb⟩ := hb.mod hl.slots
      rw [← hold]
      exact store_outside _ _ (by omega)
  · intro hsub
    exact (hsub ⟨ha, hbefore⟩).2 hmarked

/-- One pass of the loop over the long-name slots in a directory without an end: it is the last one,
    or it marks a slot that was not marked. No link changes. -/
theorem clearLfn_pass {n : ℕ} (hwf : WellFormed g d.size) (h : Endless g d c) (buffer : Slot) (k : ℕ) :
    (∃ r, (∀ fuel, clearLfn g c n (fuel + 1) d buffer k = r) ∧
      ∀ x, IsCluster g x → getNextCluster g r.1 x = getNextCluster g d x) ∨
    ∃ d₁ buffer₁, (∀ fuel, clearLfn g c n (fuel + 1) d buffer k =
        clearLfn g c n fuel d₁ buffer₁ (k + 1)) ∧ d₁.size = d.size ∧
      (∀ x, IsCluster g x → getNextCluster g d₁ x = getNextCluster g d x) ∧
      (unmarked g d₁).ncard < (unmarked g d).ncard := by
  have hl := hwf.layout
  obtain ⟨a, haddr, hdevice, hread, hwrite⟩ := h.slot hwf ((n + (2 ^ 32 - k - 1)) % 2 ^ 32)
  have hfirst : store buffer 0 (load d.bytes a 32) 0 = d.bytes a := by
    have hat := store_at buffer 0 (load d.bytes a 32)
      (show 0 < (load d.bytes a 32).length by rw [length_load]; decide)
    rw [getElem_load] at hat
    exact hat
  generalize hslot : store buffer 0 (load d.bytes a 32) = slot at hfirst
  by_cases hattr : sfnAttributes slot = lfnAttributes
  · have hlen : (load (Function.update slot 0 deletedMark) 0 32).length = 32 := length_load _ _ _
    have hmark : (load (Function.update slot 0 deletedMark) 0 32)[0]? = some deletedMark := rfl
    have hmarked := hwrite _ hlen
    generalize hdata : load (Function.update slot 0 deletedMark) 0 32 = data at hlen hmark hmarked
    obtain ⟨d₁, hd₁⟩ : ∃ d₁ : Device, d₁ = { d with bytes := store d.bytes a data } := ⟨_, rfl⟩
    have hlinks : ∀ x, IsCluster g x → getNextCluster g d₁ x = getNextCluster g d x := by
      rw [hd₁]
      exact links_of_store hl (haddr.mod hl.slots).1 data
    have hstep : ∀ fuel, clearLfn g c n (fuel + 1) d buffer k =
        if (d.bytes a).toNat &&& lastLfn = 0 then
          clearLfn g c n fuel d₁ (Function.update slot 0 deletedMark) (k + 1)
        else (d₁, k + 1) := by
      intro fuel
      rw [clearLfn, hread]
      dsimp only
      rw [hslot, if_pos hattr, hfirst, writeSlot, hdata, hmarked, hd₁]
    by_cases hlast : (d.bytes a).toNat &&& lastLfn = 0
    · refine .inr ⟨d₁, Function.update slot 0 deletedMark, fun fuel => ?_, by rw [hd₁], hlinks, ?_⟩
      · rw [hstep, if_pos hlast]
      · rw [hd₁]
        refine unmarked_store hl haddr hlen hmark fun hold => ?_
        rw [hold] at hlast
        exact absurd hlast (by decide)
    · refine .inl ⟨(d₁, k + 1), fun fuel => ?_, hlinks⟩
      rw [hstep, if_neg hlast]
  · refine .inl ⟨(d, k), fun fuel => ?_, fun _ _ => rfl⟩
    rw [clearLfn, hread]
    dsimp only
    rw [hslot, if_neg hattr]

/-- The loop over the long-name slots in a directory without an end has its result when it comes to
    a slot that it has marked. -/
theorem clearLfn_endless {n : ℕ} (hwf : WellFormed g d.size) (h : Endless g d c) (buffer : Slot)
    (k : ℕ) : ∃ m r, (∀ fuel, m ≤ fuel → clearLfn g c n fuel d buffer k = r) ∧
      ∀ x, IsCluster g x → getNextCluster g r.1 x = getNextCluster g d x := by
  induction hcard : (unmarked g d).ncard using Nat.strong_induction_on generalizing d buffer k with
  | _ card ih =>
    obtain ⟨r, hlast, hlinks⟩ | ⟨d₁, buffer₁, hstep, hsize, hlinks, hlt⟩ :=
      clearLfn_pass hwf h buffer k
    · refine ⟨1, r, fun fuel hfuel => ?_, hlinks⟩
      obtain ⟨fuel, rfl⟩ := Nat.exists_eq_add_one.mpr hfuel
      exact hlast fuel
    · rw [hcard] at hlt
      obtain ⟨m, r, hresult, hkept⟩ := ih _ hlt (by rwa [hsize]) (h.congr hlinks) buffer₁ (k + 1) rfl
      refine ⟨m + 1, r, fun fuel hfuel => ?_, fun x hx => (hkept x hx).trans (hlinks x hx)⟩
      obtain ⟨fuel, rfl⟩ := Nat.exists_eq_add_one.mpr (show 0 < fuel by omega)
      rw [hstep]
      exact hresult fuel (by omega)

end XTOS.Vfat

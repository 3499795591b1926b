import XTOS.Paging

/-!
# The tables that a call makes

Which of the pages that `xtSetPages` of `xtkernel/arch/x86_64/memory.c` takes from the page
allocator becomes which table. All of it is determined by the tables there are before the call, and
by the range.

## Main definitions

- `HasTable` — some indices lead to a table
- `pagesOf` — the pages that a range is mapped with
- `newTables` — the pages that a call takes, with the entries they are put in
- `Grows` — a tree has got new tables on the way to some pages

## Main results

- `setPage_tables` — the tables that one pass makes
- `newTables_congr` — `newTables` depends on the leaves and the tables on the way to the range only
- `setPagesLoop_grows` — a call adds the tables `newTables`, and writes on the way to the range only
-/

namespace XTOS.Paging

open SysLib

/-- The walk along `r` ends in an entry that leads to a table. -/
def HasTable (mem : ℕ → ℕ) (root : ℕ) (r : List (Fin 512)) : Prop :=
  (Radix.stop (child root) (read mem) 0 none r).2 = [] ∧
    Leads r.length (read mem (Radix.stop (child root) (read mem) 0 none r).1)

instance (mem : ℕ → ℕ) (root : ℕ) (r : List (Fin 512)) : Decidable (HasTable mem root r) := by
  unfold HasTable
  infer_instance

/-- The tables along `p` that there are not yet, with those in `made` there. -/
def missing (mem : ℕ → ℕ) (root : ℕ) (made : List (List (Fin 512))) (p : List (Fin 512)) :
    List (List (Fin 512)) :=
  p.inits.tail.filter fun r => ¬ HasTable mem root r ∧ r ∉ made

/-- The levels that the walk to an address leaves out, at its leaf or gap. -/
def gapLevel (mem : ℕ → ℕ) (root va : ℕ) : ℕ :=
  (Radix.stop (child root) (read mem) 0 none (path va)).2.length

/-- The indices of an address down to its leaf, if that leaves out `k` levels. -/
def leafSlot (k v : ℕ) : List (Fin 512) := (path v).take (4 - k)

/-- The pages that a range is mapped with, by their addresses and the levels they leave out. -/
def pagesOf : ℕ → ℕ → ℕ → ℕ → List (ℕ × ℕ)
  | 0, _, _, _ => []
  | fuel + 1, va, pa, size =>
    if size = 0 then []
    else
      let k := levelFor va pa size
      (va, k) :: pagesOf fuel (va + 2 ^ (12 + 9 * k)) (pa + 2 ^ (12 + 9 * k))
        (size - 2 ^ (12 + 9 * k))

/-- The level of the leaf that is in the way of a page. -/
def inTheWay (mem : ℕ → ℕ) (root va k : ℕ) : Option ℕ :=
  match leaf mem root (path va) with
  | none => none
  | some (_, j) => if k < j then some j else none

/-- A page that is made a table, with the indices of the entry it is put in, and whether that was a
    large leaf. -/
structure NewTable where
  indices : List (Fin 512)
  page : ℕ
  large : Bool
deriving DecidableEq

/-- The tables that are made to map some pages. Below the one that takes the place of a large leaf
    there are others, which no walk gets to. -/
def newTables (mem : ℕ → ℕ) (root : ℕ) :
    List (ℕ × ℕ) → List (List (Fin 512)) → List ℕ → List NewTable
  | [], _, _ => []
  | (va, k) :: rest, made, pages =>
    match inTheWay mem root va k with
    | some j =>
      ⟨leafSlot j va, pages.headD 0, true⟩ :: newTables mem root rest made (pages.drop (j - k))
    | none =>
      let new := missing mem root made ((path va).take (3 - k))
      (new.zip pages).map (fun x => ⟨x.1, x.2, false⟩) ++
        newTables mem root rest (made ++ new) (pages.drop new.length)

/-! ### Addresses with one leaf -/

theorem leafSlot_length (k v : ℕ) : (leafSlot k v).length = 4 - k := by
  rw [leafSlot, List.length_take]
  exact Nat.min_eq_left (Nat.sub_le 4 k)

theorem leafSlot_prefix_iff (k u v : ℕ) : leafSlot k u <+: path v ↔ leafSlot k v = leafSlot k u := by
  rw [List.prefix_iff_eq_take, leafSlot_length]
  exact eq_comm

theorem leafSlot_mono {j k u v : ℕ} (hle : j ≤ k) (h : leafSlot j u = leafSlot j v) :
    leafSlot k u = leafSlot k v := by
  have htake := congrArg (List.take (4 - k)) h
  rwa [leafSlot, leafSlot, List.take_take, List.take_take,
    Nat.min_eq_left (by omega : 4 - k ≤ 4 - j)] at htake

/-- Leaves of different sizes are in different slots. -/
theorem leafSlot_level {j k u v : ℕ} (hj : j ≤ 4) (hk : k ≤ 4) (h : leafSlot j u = leafSlot k v) :
    j = k := by
  have hlen := congrArg List.length h
  rw [leafSlot_length, leafSlot_length] at hlen
  omega

/-- The addresses of one slot are those of one page. -/
theorem leafSlot_eq_iff {k u v : ℕ} (hk : k ≤ 2) (hu : Canonical u) (hv : Canonical v) :
    leafSlot k u = leafSlot k v ↔ u / 2 ^ (12 + 9 * k) = v / 2 ^ (12 + 9 * k) := by
  unfold Canonical at hu hv
  interval_cases k
  · simp only [leafSlot, path, List.take, List.cons.injEq, and_true, Fin.ext_iff, index_val]
    omega
  · simp only [leafSlot, path, List.take, List.cons.injEq, and_true, Fin.ext_iff, index_val]
    omega
  · simp only [leafSlot, path, List.take, List.cons.injEq, and_true, Fin.ext_iff, index_val]
    omega

/-- The addresses of an aligned page. -/
theorem leafSlot_eq_page_iff {j va v : ℕ} (hj : j ≤ 2) (hva : va % 2 ^ (12 + 9 * j) = 0)
    (hc : Canonical va) (hv : Canonical v) :
    leafSlot j v = leafSlot j va ↔ va ≤ v ∧ v < va + 2 ^ (12 + 9 * j) :=
  (leafSlot_prefix_iff j va v).symm.trans (take_path_iff hj hc hv hva)

/-- Every list of indices is that of a canonical address. -/
theorem exists_path (a b c d : Fin 512) : ∃ v, Canonical v ∧ path v = [a, b, c, d] := by
  have ha := a.isLt
  have hb := b.isLt
  have hc := c.isLt
  have hd := d.isLt
  by_cases hlow : a.val < 256
  · refine ⟨a * 2 ^ 39 + b * 2 ^ 30 + c * 2 ^ 21 + d * 2 ^ 12, .inl (by omega), ?_⟩
    simp only [path, List.cons.injEq, Fin.ext_iff, index_val, and_true]
    omega
  · refine ⟨2 ^ 64 - 2 ^ 48 + a * 2 ^ 39 + b * 2 ^ 30 + c * 2 ^ 21 + d * 2 ^ 12,
      .inr (by omega), ?_⟩
    simp only [path, List.cons.injEq, Fin.ext_iff, index_val, and_true]
    omega

theorem exists_prefix_path {q : List (Fin 512)} (h : q.length ≤ 4) :
    ∃ v, Canonical v ∧ q <+: path v := by
  have hlen : (q ++ List.replicate (4 - q.length) (0 : Fin 512)).length = 4 := by
    rw [List.length_append, List.length_replicate]
    omega
  obtain ⟨v, hv, hpath⟩ :
      ∃ v, Canonical v ∧ path v = q ++ List.replicate (4 - q.length) (0 : Fin 512) := by
    match q ++ List.replicate (4 - q.length) (0 : Fin 512), hlen with
    | [a, b, c, d], _ => exact exists_path a b c d
  exact ⟨v, hv, hpath ▸ List.prefix_append _ _⟩

/-- All addresses in the place of a leaf, or of a gap, are mapped alike. -/
theorem leaf_eq_of_gap {mem : ℕ → ℕ} {root u v : ℕ}
    (heq : leafSlot (gapLevel mem root u) v = leafSlot (gapLevel mem root u) u) :
    leaf mem root (path v) = leaf mem root (path u) := by
  obtain ⟨used, hpath, hused, hstuck⟩ :=
    @Radix.stop_used _ _ _ (child root) (read mem) 0 none (path u)
  rw [gapLevel] at heq
  rcases hu : Radix.stop (child root) (read mem) 0 none (path u) with ⟨slot, rest⟩
  rw [hu] at heq hpath hused hstuck
  dsimp only at heq hpath hused hstuck
  have hlen : used.length + rest.length = 4 := by
    have hfour := congrArg List.length hpath
    rw [List.length_append] at hfour
    exact hfour.symm
  -- the walk to `v` uses the same indices
  have htake : leafSlot rest.length u = used := by
    rw [leafSlot, hpath, show 4 - rest.length = used.length by omega, List.take_left]
  obtain ⟨rest', hrest'⟩ := (leafSlot_prefix_iff rest.length u v).mpr heq
  rw [htake] at hrest'
  have hlen' : rest'.length = rest.length := by
    have hfour := congrArg List.length hrest'
    rw [List.length_append] at hfour
    have hpath4 : (path v).length = 4 := rfl
    omega
  have hstop : Radix.stop (child root) (read mem) 0 none (path v) = (slot, rest') := by
    rw [← hrest', Radix.stop_append hused]
    cases rest with
    | nil =>
      obtain rfl := List.length_eq_zero_iff.mp hlen'
      rfl
    | cons i rest =>
      refine Radix.stop_blank (fun j => ?_) rest'
      have hnone := hstuck i rest rfl
      unfold child at hnone ⊢
      split_ifs at hnone ⊢
      rfl
  rw [leaf, leaf, hstop, hu]
  dsimp only
  rw [hlen']

theorem leaf_eq_gapLevel {mem : ℕ → ℕ} {root u e k : ℕ}
    (h : leaf mem root (path u) = some (e, k)) : k = gapLevel mem root u := by
  rw [leaf] at h
  dsimp only at h
  split_ifs at h
  exact (congrArg Prod.snd (Option.some.inj h)).symm

/-- All addresses of a page have its leaf. -/
theorem leaf_of_leafSlot {mem : ℕ → ℕ} {root u v e k : ℕ}
    (h : leaf mem root (path u) = some (e, k)) (heq : leafSlot k v = leafSlot k u) :
    leaf mem root (path v) = some (e, k) := by
  rw [leaf_eq_gapLevel h] at heq
  rw [leaf_eq_of_gap heq, h]

/-- There are large leaves of two sizes. -/
theorem leaf_level {mem : ℕ → ℕ} {root va e k : ℕ} (h : leaf mem root (path va) = some (e, k)) :
    k ≤ 2 := by
  have hstop : Radix.stop (child root) (read mem) 0 none (path va) = _ :=
    Radix.stop_cons_of_some (child_zero _ _ _) _
  rw [zero_add] at hstop
  by_cases hleads : Leads 1 (mem (entryAddr root (index va 39)))
  · rw [stop_of_leads (by decide) hleads] at hstop
    have hle := @Radix.stop_length_le _ _ _ (child root) (read mem) 2
      (some (entryAddr (higherHalfMem (mem (entryAddr root (index va 39)) &&& addrMask))
        (index va 30))) [index va 21, index va 12]
    rw [leaf, hstop] at h
    dsimp only at h
    split_ifs at h
    rw [Option.some.injEq, Prod.mk.injEq] at h
    rw [← h.2]
    exact hle
  · -- in the first table every present entry leads on
    rw [stop_of_not_leads (by decide) hleads] at hstop
    rw [leaf_of_stop hstop] at h
    split_ifs at h with habsent
    exact absurd ⟨by decide, habsent, .inl rfl⟩ hleads

theorem xtGetPhysicalAddress_of_leaf {mem : ℕ → ℕ} {pageTable v e k : ℕ} (hne : pageTable ≠ 0)
    (h : leaf mem (higherHalfMem pageTable) (path v) = some (e, k)) :
    xtGetPhysicalAddress mem pageTable v =
      .ok ((e &&& addrMask) ||| (v &&& (2 ^ (12 + 9 * k) - 1))) := by
  rw [xtGetPhysicalAddress_eq hne, h]

/-! ### Walks after a change -/

section walk

variable {root : ℕ} {top : Fin 512 → Prop} {s : State}
  {owner : Option ℕ → Option (List (Fin 512))} {a e page : ℕ} {pages : List ℕ}
  {r : List (Fin 512)}

/-- A write to a slot changes the walks that go on from it only. -/
theorem stop_set_of_not_below (h : Inv root top s owner) (ha : owner (some a) = some r)
    (hstop : Radix.stop (child root) (read s.mem) 0 none r = (some a, [])) {q : List (Fin 512)}
    (hq : ∀ i rest, q ≠ r ++ i :: rest) :
    Radix.stop (child root) (read (s.set a e).mem) 0 none q =
      Radix.stop (child root) (read s.mem) 0 none q := by
  by_cases hpre : r <+: q
  · obtain ⟨rest, rfl⟩ := hpre
    cases rest with
    | nil =>
      have hself := stop_set h e ha hstop []
      rwa [List.append_nil, Radix.stop_nil, ← hstop, ← List.append_nil r] at hself
    | cons i rest => exact absurd rfl (hq i rest)
  · exact (Radix.stop_congr h.owned ha (fun slot hne _ => read_set_of_ne s e hne) h.owned.root
      (p := []) hpre).1

/-- Where other indices lead is not changed by a write. -/
theorem hasTable_set_of_miss (h : Inv root top s owner) (ha : owner (some a) = some r)
    {q : List (Fin 512)} (hmiss : ¬ r <+: q) :
    HasTable (s.set a e).mem root q ↔ HasTable s.mem root q := by
  obtain ⟨hsame, hread⟩ := Radix.stop_congr h.owned ha
    (fun slot hne _ => read_set_of_ne s e hne) h.owned.root (p := []) hmiss
  rw [List.length_nil] at hsame hread
  rw [HasTable, HasTable, hsame, hread]

/-- An entry that is made to lead to the next page adds one table. -/
theorem Inv.hasTable_grow (h : Inv root top s owner) (hpages : s.pages = page :: pages)
    (ha : owner (some a) = some r)
    (hstop : Radix.stop (child root) (read s.mem) 0 none r = (some a, []))
    (hr : 1 ≤ r.length) (hr' : r.length ≤ 3) (habsent : s.mem a = 0)
    (hpresent : e &&& pPresent ≠ 0) (hps : e &&& pPS = 0) (haddr : e &&& addrMask = page)
    (q : List (Fin 512)) :
    HasTable ({ s with pages := pages }.set a e).mem root q ↔ HasTable s.mem root q ∨ q = r := by
  by_cases hpre : r <+: q
  · obtain ⟨rest, rfl⟩ := hpre
    cases rest with
    | nil =>
      rw [List.append_nil]
      refine iff_of_true ?_ (.inr rfl)
      have hself := stop_set h e ha hstop []
      rw [List.append_nil, Radix.stop_nil] at hself
      change HasTable (s.set a e).mem root r
      rw [HasTable, hself]
      refine ⟨rfl, ?_⟩
      rw [read_some, set_mem_self]
      exact ⟨by omega, hpresent, .inr hps⟩
    | cons i rest =>
      obtain ⟨hafter, hzero⟩ := h.stop_grow hpages ha hstop hr hr' hpresent hps haddr i rest
      have hbefore := Radix.stop_append hstop (i :: rest)
      rw [zero_add, stop_of_not_leads (by omega)
        (by rw [habsent]; exact not_leads_zero _)] at hbefore
      rw [HasTable, HasTable, hafter, hbefore, read_some, hzero]
      simp [not_leads_zero]
  · have hne : q ≠ r := by
      rintro rfl
      exact hpre (List.prefix_refl q)
    simp only [hne, or_false]
    exact hasTable_set_of_miss h ha hpre

end walk

/-! ### The tables along a path -/

section missing

variable {mem : ℕ → ℕ} {root : ℕ} {made : List (List (Fin 512))} {p : List (Fin 512)} {i : Fin 512}

theorem inits_tail_concat (p : List (Fin 512)) (i : Fin 512) :
    (p ++ [i]).inits.tail = p.inits.tail ++ [p ++ [i]] := by
  cases p <;> simp [List.inits_append]

@[simp] theorem missing_nil (mem : ℕ → ℕ) (root : ℕ) (made : List (List (Fin 512))) :
    missing mem root made [] = [] := rfl

theorem missing_concat_of_has (made : List (List (Fin 512))) (p : List (Fin 512)) (i : Fin 512)
    (h : HasTable mem root (p ++ [i]) ∨ p ++ [i] ∈ made) :
    missing mem root made (p ++ [i]) = missing mem root made p := by
  have hnot : ¬ (¬ HasTable mem root (p ++ [i]) ∧ p ++ [i] ∉ made) := by tauto
  rw [missing, inits_tail_concat, List.filter_append, List.filter_singleton]
  simp [hnot, missing]

theorem missing_concat_of_not (made : List (List (Fin 512))) (p : List (Fin 512)) (i : Fin 512)
    (h : ¬ HasTable mem root (p ++ [i])) (hmade : p ++ [i] ∉ made) :
    missing mem root made (p ++ [i]) = missing mem root made p ++ [p ++ [i]] := by
  rw [missing, inits_tail_concat, List.filter_append, List.filter_singleton]
  simp [h, hmade, missing]

theorem missing_prefix (mem : ℕ → ℕ) (root : ℕ) (made : List (List (Fin 512)))
    {q : List (Fin 512)} (h : p <+: q) : missing mem root made p <+: missing mem root made q := by
  obtain ⟨rest, rfl⟩ := h
  induction rest using List.reverseRecOn with
  | nil => rw [List.append_nil]
  | append_singleton rest i ih =>
    refine ih.trans ?_
    rw [← List.append_assoc, missing, missing, inits_tail_concat, List.filter_append]
    exact List.prefix_append _ _

/-- Only the tables on the way matter. -/
theorem missing_congr {mem' : ℕ → ℕ} {made' : List (List (Fin 512))}
    (h : ∀ r, r <+: p → (HasTable mem' root r ∨ r ∈ made' ↔ HasTable mem root r ∨ r ∈ made)) :
    missing mem' root made' p = missing mem root made p := by
  refine List.filter_congr fun r hr => ?_
  have hiff := h r ((List.mem_inits _ _).mp (List.mem_of_mem_tail hr))
  rw [decide_eq_decide, ← not_or, ← not_or, hiff]

theorem mem_missing {r : List (Fin 512)} : r ∈ missing mem root made p ↔
    r <+: p ∧ r ≠ [] ∧ ¬ HasTable mem root r ∧ r ∉ made := by
  rw [missing, List.mem_filter, decide_eq_true_eq]
  have htail : r ∈ p.inits.tail ↔ r <+: p ∧ r ≠ [] := by
    cases p with
    | nil => simp
    | cons j p =>
      cases r with
      | nil => simp
      | cons j' r => simp [List.cons_prefix_cons, eq_comm, and_comm]
  rw [htail]
  tauto

end missing

/-! ### One pass -/

/-- From `s` the tables along `p` have been followed, or made from the next pages. -/
structure Made (root : ℕ) (top : Fin 512 → Prop) (s s' : State) (p : List (Fin 512)) (t : ℕ) :
    Prop extends Down root top s s' p t where
  pages : s'.pages = s.pages.drop (missing s.mem root [] p).length
  enough : (missing s.mem root [] p).length ≤ s.pages.length
  has : ∀ r, HasTable s'.mem root r ↔ HasTable s.mem root r ∨ r ∈ missing s.mem root [] p
  reach : ∀ q a, Radix.stop (child root) (read s'.mem) 0 none q = (some a, []) →
    Radix.stop (child root) (read s.mem) 0 none q = (some a, []) ∨
      ∃ x ∈ (missing s.mem root [] p).zip s.pages, ∃ i,
        q = x.1 ++ [i] ∧ a = entryAddr (higherHalfMem x.2) i
  keep : ∀ q a, Radix.stop (child root) (read s.mem) 0 none q = (some a, []) →
    Radix.stop (child root) (read s'.mem) 0 none q = (some a, [])
  fresh : ∀ x ∈ (missing s.mem root [] p).zip s.pages, ∀ i,
    Radix.stop (child root) (read s'.mem) 0 none (x.1 ++ [i]) =
      (some (entryAddr (higherHalfMem x.2) i), [])
  written : ∀ a, s'.mem a ≠ s.mem a → ∃ q, q <+: p ∧
    Radix.stop (child root) (read s'.mem) 0 none q = (some a, [])

section pass

variable {root : ℕ} {top : Fin 512 → Prop} {s s' : State} {p : List (Fin 512)} {t va k : ℕ}
  {i : Fin 512}

/-- A table that has been followed to leads on. -/
theorem TableAt.hasTable {owner : Option ℕ → Option (List (Fin 512))}
    (h : TableAt root s owner p t) :
    HasTable s.mem root (p ++ [i]) ↔ Leads (p ++ [i]).length (s.mem (entryAddr t i)) := by
  rw [HasTable, h.stop i, read_some]
  exact and_iff_right rfl

theorem mem_zip_concat {α β : Type*} {l : List α} {l' rest : List β} (x : α) {y : β}
    (h : l'.drop l.length = y :: rest) (z : α × β) :
    z ∈ (l ++ [x]).zip l' ↔ z ∈ l.zip l' ∨ z = (x, y) := by
  induction l generalizing l' with
  | nil =>
    obtain rfl : l' = y :: rest := h
    simp
  | cons a l ih =>
    cases l' with
    | nil => simp at h
    | cons b l' => simp [ih h, or_assoc]

theorem mem_zip_append {α β : Type*} {l : List α} {m : List β} {z : α × β} (r : List α)
    (h : z ∈ l.zip m) : z ∈ (l ++ r).zip m := by
  induction l generalizing m with
  | nil => cases h
  | cons a l ih =>
    cases m with
    | nil => cases h
    | cons b m =>
      obtain rfl | h := List.mem_cons.mp h
      · exact List.mem_cons_self
      · exact List.mem_cons_of_mem _ (ih h)

/-- One more table. -/
theorem Made.next (hm : Made root top s s' p t) (hp : p ++ [i] <+: (path va).take (3 - k))
    (htop : top (index va 39))
    (hfree : ∀ e j, leaf s.mem root (path va) = some (e, j) → j ≤ k) {s2 : State} {t2 : ℕ}
    (hcall : xtGetOrMakePageTable s' t i 0x07 = (s2, .ok t2)) :
    Made root top s s2 (p ++ [i]) t2 := by
  obtain ⟨owner, hinv, htable⟩ := hm.table
  have hlen := hp.length_le
  rw [List.length_append, List.length_singleton, List.length_take] at hlen
  have hnew : p ++ [i] ∉ missing s.mem root [] p := fun hin => by
    have hle := (mem_missing.mp hin).1.length_le
    simp at hle
  obtain ⟨hleads, rfl, rfl⟩ | ⟨hzero, page, pages, hpages, rfl, rfl, he1, he2, he3⟩ :=
    xtGetOrMakePageTable_cases hinv htable hm.ne_zero (by omega)
      (hm.toDown.clear hp htop hfree) hcall
  · have hhas := ((hm.has _).mp (htable.hasTable.mpr hleads)).resolve_right hnew
    have hsame := missing_concat_of_has [] p i (.inl hhas)
    refine ⟨hm.toDown.next hp htop hfree hcall, ?_, ?_, fun r => ?_, fun q a hq => ?_, hm.keep,
      fun x hx => ?_, fun a ha => ?_⟩
    · rw [hsame, hm.pages]
    · rw [hsame]
      exact hm.enough
    · rw [hsame]
      exact hm.has r
    · rw [hsame]
      exact hm.reach q a hq
    · rw [hsame] at hx
      exact hm.fresh x hx
    · obtain ⟨q, hq, hstop⟩ := hm.written a ha
      exact ⟨q, hq.trans (List.prefix_append p [i]), hstop⟩
  · have hnot : ¬ HasTable s.mem root (p ++ [i]) := fun hhas => by
      have hleads := htable.hasTable.mp ((hm.has _).mpr (.inl hhas))
      rw [hzero] at hleads
      exact not_leads_zero _ hleads
    have hmore := missing_concat_of_not [] p i hnot (by simp)
    have hdrop : s.pages.drop (missing s.mem root [] p).length = page :: pages := by
      rw [← hm.pages, hpages]
    have hmem := mem_zip_concat (p ++ [i]) hdrop
    have hpos : 1 ≤ (p ++ [i]).length := by simp
    have hthree : (p ++ [i]).length ≤ 3 := by simp; omega
    have hstop := htable.stop i
    have hkeep : ∀ q a, Radix.stop (child root) (read s'.mem) 0 none q = (some a, []) →
        Radix.stop (child root) (read ({ s' with pages := pages }.set
          (entryAddr (higherHalfMem t) i) (page + 7)).mem) 0 none q = (some a, []) := by
      intro q a hq
      refine Eq.trans ?_ hq
      refine stop_set_of_not_below hinv (htable.owner i) hstop ?_
      -- no walk goes on from an absent entry
      rintro j rest rfl
      rw [Radix.stop_append hstop, stop_of_not_leads (by omega)
        (by rw [hzero]; exact not_leads_zero _)] at hq
      cases hq
    refine ⟨hm.toDown.next hp htop hfree hcall, ?_, ?_, fun r => ?_, fun q a hq => ?_,
      fun q a hq => hkeep q a (hm.keep q a hq), fun x hx j => ?_, fun a ha => ?_⟩
    · rw [hmore, List.length_append, ← List.drop_drop, hdrop]
      rfl
    · have hlt := congrArg List.length hdrop
      rw [List.length_drop, List.length_cons] at hlt
      rw [hmore, List.length_append, List.length_singleton]
      omega
    · rw [hinv.hasTable_grow hpages (htable.owner i) (htable.stop i) hpos hthree hzero he1 he2 he3,
        hm.has r, hmore, List.mem_append, List.mem_singleton, or_assoc]
    · rw [hmore]
      by_cases hbelow : ∃ j rest, q = p ++ [i] ++ j :: rest
      · obtain ⟨j, rest, rfl⟩ := hbelow
        rw [(hinv.stop_grow hpages (htable.owner i) (htable.stop i) hpos hthree he1 he2 he3 j
          rest).1, Prod.mk.injEq, Option.some.injEq] at hq
        obtain ⟨rfl, rfl⟩ := hq
        exact .inr ⟨(p ++ [i], page), (hmem _).mpr (.inr rfl), j, rfl, rfl⟩
      · have hwalk := stop_set_of_not_below (e := page + 7) hinv (htable.owner i) (htable.stop i)
          (q := q) (by simpa using hbelow)
        obtain hold | ⟨x, hx, j, hj⟩ := hm.reach q a (hwalk.symm.trans hq)
        · exact .inl hold
        · exact .inr ⟨x, (hmem _).mpr (.inl hx), j, hj⟩
    · rw [hmore] at hx
      obtain hx | rfl := (hmem x).mp hx
      · exact hkeep _ _ (hm.fresh x hx j)
      · exact (hinv.stop_grow hpages (htable.owner i) hstop hpos hthree he1 he2 he3 j []).1
    · by_cases hslot : a = entryAddr (higherHalfMem t) i
      · subst hslot
        exact ⟨p ++ [i], List.prefix_refl _, hkeep _ _ hstop⟩
      · rw [set_mem_of_ne _ _ hslot] at ha
        obtain ⟨q, hq, hreach⟩ := hm.written a ha
        exact ⟨q, hq.trans (List.prefix_append p [i]), hkeep _ _ hreach⟩

/-- A table that is made next gets the next page. -/
theorem Made.mem_zip (hm : Made root top s s' p t)
    (hzero : s'.mem (entryAddr (higherHalfMem t) i) = 0) {page : ℕ} (hpage : page ∈ s'.pages.head?)
    {q : List (Fin 512)} (hq : p ++ [i] <+: q) :
    (p ++ [i], page) ∈ (missing s.mem root [] q).zip s.pages := by
  obtain ⟨owner, hinv, htable⟩ := hm.table
  have hnot : ¬ HasTable s.mem root (p ++ [i]) := fun hhas => by
    have hleads := htable.hasTable.mp ((hm.has _).mpr (.inl hhas))
    rw [hzero] at hleads
    exact not_leads_zero _ hleads
  obtain ⟨pages, hpages⟩ := List.head?_eq_some_iff.mp hpage
  have hdrop : s.pages.drop (missing s.mem root [] p).length = page :: pages := by
    rw [← hm.pages, hpages]
  obtain ⟨more, hmore⟩ := missing_prefix s.mem root [] hq
  rw [← hmore, missing_concat_of_not [] p i hnot (by simp)]
  exact mem_zip_append _ ((mem_zip_concat (p ++ [i]) hdrop _).mpr (.inr rfl))

/-- The first table is there. -/
theorem Made.refl {owner : Option ℕ → Option (List (Fin 512))} {pageTable : ℕ}
    (hne : pageTable ≠ 0) (h : Inv (higherHalfMem pageTable) top s owner) :
    Made (higherHalfMem pageTable) top s s [] pageTable :=
  ⟨⟨⟨owner, h, h.tableAt_root⟩, hne, fun hnil => absurd rfl hnil, fun _ _ => rfl⟩, rfl,
    Nat.zero_le _, fun r => by simp, fun _ _ hq => .inl hq, fun _ _ hq => hq,
    fun x hx => by simp at hx, fun a ha => absurd rfl ha⟩

/-- What a pass does that has no larger leaf in the way: it makes the tables that are missing, and
    it maps its page. -/
structure Passed (root : ℕ) (top : Fin 512 → Prop) (s s' : State) (va pa k flags : ℕ) : Prop where
  inv : ∃ owner, Inv root top s' owner
  pages : s'.pages = s.pages.drop (missing s.mem root [] ((path va).take (3 - k))).length
  enough : (missing s.mem root [] ((path va).take (3 - k))).length ≤ s.pages.length
  has : ∀ r, ¬ leafSlot k va <+: r → (HasTable s'.mem root r ↔
    HasTable s.mem root r ∨ r ∈ missing s.mem root [] ((path va).take (3 - k)))
  reach : ∀ q a, Radix.stop (child root) (read s'.mem) 0 none q = (some a, []) →
    Radix.stop (child root) (read s.mem) 0 none q = (some a, []) ∨
      ∃ x ∈ (missing s.mem root [] ((path va).take (3 - k))).zip s.pages, ∃ i,
        q = x.1 ++ [i] ∧ a = entryAddr (higherHalfMem x.2) i
  keep : ∀ q a, (∀ i rest, q ≠ leafSlot k va ++ i :: rest) →
    Radix.stop (child root) (read s.mem) 0 none q = (some a, []) →
    Radix.stop (child root) (read s'.mem) 0 none q = (some a, [])
  fresh : ∀ x ∈ (missing s.mem root [] ((path va).take (3 - k))).zip s.pages, ∀ i,
    Radix.stop (child root) (read s'.mem) 0 none (x.1 ++ [i]) =
      (some (entryAddr (higherHalfMem x.2) i), [])
  written : ∀ a, s'.mem a ≠ s.mem a → ∃ q, q <+: leafSlot k va ∧
    Radix.stop (child root) (read s'.mem) 0 none q = (some a, [])
  leaf : ∀ v, leaf s'.mem root (path v) =
    if leafSlot k v = leafSlot k va then some (leafEntry pa flags k, k)
    else leaf s.mem root (path v)

/-- A leaf written in the last table. -/
theorem Made.passed {pa attr : ℕ} (hk : k ≤ 2) (hpa : pa % 2 ^ 12 = 0) (hmax : pa ≠ 2 ^ 64 - 1)
    (hm : Made root top s s' ((path va).take (3 - k)) t) :
    Passed root top s (s'.setLeaf (entryAddr t (index va (12 + 9 * k))) pa
      (leafFlags (xtBuildFlags attr) k)) va pa k (xtBuildFlags attr) := by
  obtain ⟨owner, hinv, htable⟩ := hm.table
  have hslot : (path va).take (3 - k) ++ [index va (12 + 9 * k)] = leafSlot k va :=
    take_path_concat hk va
  obtain ⟨owner', hinv', hleaf⟩ :=
    hm.toDown.map_page attr hk (take_path_concat hk va) hpa hmax
  have hnil : (path va).take (3 - k) ≠ [] := by
    have hlen := congrArg List.length hslot
    rw [List.length_append, List.length_singleton, leafSlot_length] at hlen
    exact List.ne_nil_of_length_pos (by omega)
  rw [hm.high hnil] at htable
  have howner := htable.owner (index va (12 + 9 * k))
  have hstop := htable.stop (index va (12 + 9 * k))
  rw [hslot] at howner hstop
  have hsame : ∀ q, (∀ i rest, q ≠ leafSlot k va ++ i :: rest) →
      Radix.stop (child root) (read (s'.setLeaf (entryAddr t (index va (12 + 9 * k))) pa
        (leafFlags (xtBuildFlags attr) k)).mem) 0 none q =
      Radix.stop (child root) (read s'.mem) 0 none q := by
    intro q hq
    rw [setLeaf_eq hmax]
    exact stop_set_of_not_below hinv howner hstop hq
  have hshort : ∀ {q : List (Fin 512)}, q.length ≤ 4 - k →
      ∀ i rest, q ≠ leafSlot k va ++ i :: rest := by
    rintro q hq i rest rfl
    rw [List.length_append, leafSlot_length, List.length_cons] at hq
    omega
  have htake : (path va).take (3 - k) <+: leafSlot k va := ⟨_, hslot⟩
  refine ⟨⟨owner', hinv'⟩, hm.pages, hm.enough, fun r hr => ?_, fun q a hq => ?_,
    fun q a hbelow hq => (hsame q hbelow).trans (hm.keep q a hq), fun x hx i => ?_, fun a ha => ?_,
    fun v => ?_⟩
  · rw [← hm.has r, setLeaf_eq hmax]
    exact hasTable_set_of_miss hinv howner hr
  · refine hm.reach q a ?_
    rw [← hq]
    refine (hsame q ?_).symm
    rw [setLeaf_eq hmax] at hq
    -- no walk goes on from a leaf
    rintro j rest rfl
    have hleads := leafEntry_not_leads attr hpa hk
    rw [leafEntry] at hleads
    rw [stop_set hinv _ howner hstop, stop_of_not_leads (by rw [leafSlot_length]; omega)
      (by rwa [leafSlot_length, set_mem_self])] at hq
    cases hq
  · have hlen := (mem_missing.mp (List.of_mem_zip hx).1).1.length_le
    rw [List.length_take] at hlen
    rw [hsame _ (hshort (by rw [List.length_append, List.length_singleton]; omega))]
    exact hm.fresh x hx i
  · by_cases hlast : a = entryAddr t (index va (12 + 9 * k))
    · subst hlast
      exact ⟨_, List.prefix_refl _, by rw [hsame _ (hshort (leafSlot_length k va).le), hstop]⟩
    · rw [setLeaf_eq hmax, set_mem_of_ne _ _ hlast] at ha
      obtain ⟨q, hq, hreach⟩ := hm.written a ha
      have hlen := hq.length_le
      rw [List.length_take] at hlen
      exact ⟨q, hq.trans htake, by rw [hsame _ (hshort (by omega)), hreach]⟩
  · rw [hleaf _ rfl]
    exact if_congr (leafSlot_prefix_iff k va v) rfl rfl

/-- **Step**: a pass with no larger leaf in the way. -/
theorem setPage_tables {owner : Option ℕ → Option (List (Fin 512))}
    {pageTable pa size attr pageSize : ℕ} (hne : pageTable ≠ 0)
    (h : Inv (higherHalfMem pageTable) top s owner) (hpa : pa % 2 ^ 12 = 0)
    (htop : top (index va 39))
    (hfree : ∀ e j, leaf s.mem (higherHalfMem pageTable) (path va) = some (e, j) →
      j ≤ levelFor va pa size)
    (hcall : setPage s pageTable va pa size (xtBuildFlags attr) = (s', .ok pageSize)) :
    Passed (higherHalfMem pageTable) top s s' va pa (levelFor va pa size) (xtBuildFlags attr) := by
  obtain ⟨-, s1, t, hmake, rfl⟩ := setPage_ok_iff.mp hcall
  have hmade := makeTables_induct (Made.refl hne h)
    (fun _ _ _ _ _ _ hp hm hnext => hm.next hp htop hfree hnext) hmake
  exact hmade.passed (levelFor_le va pa size) hpa (by omega)

end pass

/-! ### The pages of a range -/

/-- The pages of a range are aligned and in it. -/
theorem mem_pagesOf {fuel va pa size : ℕ} {x : ℕ × ℕ} (hva : va % 2 ^ 12 = 0)
    (hpa : pa % 2 ^ 12 = 0) (hsize : size % 2 ^ 12 = 0) (hx : x ∈ pagesOf fuel va pa size) :
    x.2 ≤ 2 ∧ va ≤ x.1 ∧ x.1 % 2 ^ (12 + 9 * x.2) = 0 ∧ x.1 + 2 ^ (12 + 9 * x.2) ≤ va + size := by
  induction fuel generalizing va pa size with
  | zero => cases hx
  | succ fuel ih =>
    rw [pagesOf] at hx
    by_cases hzero : size = 0
    · rw [if_pos hzero] at hx
      cases hx
    rw [if_neg hzero] at hx
    dsimp only at hx
    obtain ⟨hvak, -, hle⟩ := levelFor_spec hva hpa hsize hzero
    have hmul : 2 ^ (12 + 9 * levelFor va pa size) = 2 ^ 12 * 2 ^ (9 * levelFor va pa size) :=
      pow_add _ _ _
    obtain rfl | hx := List.mem_cons.mp hx
    · exact ⟨levelFor_le va pa size, le_rfl, hvak, by dsimp only; omega⟩
    · obtain ⟨h1, h2, h3, h4⟩ := ih (by omega) (by omega) (by omega) hx
      exact ⟨h1, by omega, h3, by omega⟩

theorem pagesOf_succ (fuel va pa : ℕ) {size : ℕ} (hpos : size ≠ 0) :
    pagesOf (fuel + 1) va pa size = (va, levelFor va pa size) ::
      pagesOf fuel (va + 2 ^ (12 + 9 * levelFor va pa size))
        (pa + 2 ^ (12 + 9 * levelFor va pa size)) (size - 2 ^ (12 + 9 * levelFor va pa size)) := by
  rw [pagesOf, if_neg hpos]

theorem pagesOf_zero (fuel va pa : ℕ) : pagesOf fuel va pa 0 = [] := by
  cases fuel with
  | zero => rfl
  | succ fuel => rw [pagesOf, if_pos rfl]

/-- The pages behind the first one are apart from it. -/
theorem pagesOf_apart {fuel va pa size : ℕ} (hva : va % 2 ^ 12 = 0) (hpa : pa % 2 ^ 12 = 0)
    (hsize : size % 2 ^ 12 = 0) (hpos : size ≠ 0) (hhalf : InHalf va size) {z : ℕ × ℕ}
    (hz : z ∈ pagesOf fuel (va + 2 ^ (12 + 9 * levelFor va pa size))
      (pa + 2 ^ (12 + 9 * levelFor va pa size)) (size - 2 ^ (12 + 9 * levelFor va pa size))) :
    z.2 ≤ 2 ∧ Canonical z.1 ∧
      leafSlot (levelFor va pa size) z.1 ≠ leafSlot (levelFor va pa size) va ∧
      ¬ leafSlot z.2 z.1 <+: path va := by
  obtain ⟨hvak, -, hle⟩ := levelFor_spec hva hpa hsize hpos
  have hk := levelFor_le va pa size
  have hmul : 2 ^ (12 + 9 * levelFor va pa size) = 2 ^ 12 * 2 ^ (9 * levelFor va pa size) :=
    pow_add _ _ _
  have hpow := Nat.two_pow_pos (12 + 9 * levelFor va pa size)
  obtain ⟨h1, h2, h3, h4⟩ := mem_pagesOf (by omega) (by omega) (by omega) hz
  have hpow' := Nat.two_pow_pos (12 + 9 * z.2)
  have hcva : Canonical va := hhalf.canonical le_rfl (by omega)
  have hcz : Canonical z.1 := hhalf.canonical (by omega) (by omega)
  refine ⟨h1, hcz, fun heq => ?_, fun hpre => ?_⟩
  · have hpage := (leafSlot_eq_page_iff hk hvak hcva hcz).mp heq
    omega
  · have hpage := (leafSlot_eq_page_iff h1 h3 hcz hcva).mp ((leafSlot_prefix_iff _ _ _).mp hpre)
    omega

/-! ### The tables of a call -/

section newTables

variable {mem mem' : ℕ → ℕ} {root : ℕ} {va k : ℕ} {rest : List (ℕ × ℕ)}
  {made made' : List (List (Fin 512))} {pages : List ℕ}

theorem inTheWay_eq_none_iff : inTheWay mem root va k = none ↔
    ∀ e j, leaf mem root (path va) = some (e, j) → j ≤ k := by
  rw [inTheWay]
  cases hleaf : leaf mem root (path va) with
  | none => simp
  | some x =>
    obtain ⟨e0, j0⟩ := x
    simp

theorem inTheWay_of_leaf {e j : ℕ} (h : leaf mem root (path va) = some (e, j)) (hlt : k < j) :
    inTheWay mem root va k = some j := by
  rw [inTheWay, h]
  exact if_pos hlt

theorem newTables_of_free (hfree : inTheWay mem root va k = none) :
    newTables mem root ((va, k) :: rest) made pages =
      ((missing mem root made ((path va).take (3 - k))).zip pages).map (fun x => ⟨x.1, x.2, false⟩) ++
        newTables mem root rest (made ++ missing mem root made ((path va).take (3 - k)))
          (pages.drop (missing mem root made ((path va).take (3 - k))).length) := by
  rw [newTables, hfree]

theorem newTables_of_blocked {j : ℕ} (hway : inTheWay mem root va k = some j) :
    newTables mem root ((va, k) :: rest) made pages =
      ⟨leafSlot j va, pages.headD 0, true⟩ :: newTables mem root rest made (pages.drop (j - k)) := by
  rw [newTables, hway]

/-- Only the leaves and the tables on the way to the pages matter. -/
theorem newTables_congr
    (hway : ∀ x ∈ rest, inTheWay mem' root x.1 x.2 = inTheWay mem root x.1 x.2)
    (hhas : ∀ x ∈ rest, inTheWay mem root x.1 x.2 = none → ∀ r, r <+: (path x.1).take (3 - x.2) →
      (HasTable mem' root r ∨ r ∈ made' ↔ HasTable mem root r ∨ r ∈ made)) :
    newTables mem' root rest made' pages = newTables mem root rest made pages := by
  induction rest generalizing made made' pages with
  | nil => rfl
  | cons x rest ih =>
    obtain ⟨va, k⟩ := x
    have hsame := hway (va, k) List.mem_cons_self
    have hrest := fun x (hx : x ∈ rest) => hway x (List.mem_cons_of_mem _ hx)
    cases hcase : inTheWay mem root va k with
    | some j =>
      rw [hcase] at hsame
      rw [newTables_of_blocked hcase, newTables_of_blocked hsame,
        ih hrest fun x hx => hhas x (List.mem_cons_of_mem _ hx)]
    | none =>
      rw [hcase] at hsame
      have hnew : missing mem' root made' ((path va).take (3 - k)) =
          missing mem root made ((path va).take (3 - k)) :=
        missing_congr fun r hr => hhas (va, k) List.mem_cons_self hcase r hr
      rw [newTables_of_free hcase, newTables_of_free hsame, hnew]
      refine congrArg _ (ih hrest fun x hx hnone r hr => ?_)
      rw [List.mem_append, List.mem_append, ← or_assoc, ← or_assoc,
        hhas x (List.mem_cons_of_mem _ hx) hnone r hr]

/-- After a pass the same tables are to be made as before for the pages behind its own. -/
theorem Passed.newTables_rest {top : Fin 512 → Prop} {s s' : State} {pa flags : ℕ}
    (h : Passed root top s s' va pa k flags)
    (hout : ∀ x ∈ rest, leafSlot k x.1 ≠ leafSlot k va) :
    newTables s.mem root rest (missing s.mem root [] ((path va).take (3 - k)))
        (s.pages.drop (missing s.mem root [] ((path va).take (3 - k))).length) =
      newTables s'.mem root rest [] s'.pages := by
  rw [← h.pages]
  refine (newTables_congr (fun x hx => ?_) fun x hx _ r hr => ?_).symm
  · rw [inTheWay, inTheWay, h.leaf, if_neg (hout x hx)]
  · rw [h.has r fun hpre => hout x hx ((leafSlot_prefix_iff _ _ _).mp
      (hpre.trans (hr.trans (List.take_prefix _ _))))]
    simp

/-- If no leaf is in the way, each page is made a table above a leaf of one of the pages to map. -/
theorem mem_newTables {x : NewTable} (hfree : ∀ z ∈ rest, inTheWay mem root z.1 z.2 = none)
    (hx : x ∈ newTables mem root rest made pages) :
    x.page ∈ pages ∧ x.indices ≠ [] ∧ ∃ z ∈ rest, x.indices <+: (path z.1).take (3 - z.2) := by
  induction rest generalizing made pages with
  | nil => cases hx
  | cons z rest ih =>
    rw [newTables_of_free (hfree z List.mem_cons_self)] at hx
    obtain hx | hx := List.mem_append.mp hx
    · obtain ⟨y, hy, rfl⟩ := List.mem_map.mp hx
      obtain ⟨hmissing, hpage⟩ := List.of_mem_zip hy
      obtain ⟨hpre, hne, -⟩ := mem_missing.mp hmissing
      exact ⟨hpage, hne, z, List.mem_cons_self, hpre⟩
    · obtain ⟨hpage, hne, y, hy, hpre⟩ := ih (fun y hy => hfree y (List.mem_cons_of_mem _ hy)) hx
      exact ⟨List.mem_of_mem_drop hpage, hne, y, List.mem_cons_of_mem _ hy, hpre⟩

/-- The tables that a pass makes. -/
def passTables (mem : ℕ → ℕ) (root va k : ℕ) (pages : List ℕ) : List NewTable :=
  ((missing mem root [] ((path va).take (3 - k))).zip pages).map fun x => ⟨x.1, x.2, false⟩

theorem mem_passTables {z : List (Fin 512) × ℕ}
    (hz : z ∈ (missing mem root [] ((path va).take (3 - k))).zip pages) :
    ⟨z.1, z.2, false⟩ ∈ passTables mem root va k pages :=
  List.mem_map.mpr ⟨z, hz, rfl⟩

/-- From `s` to `s'` the tables `new` are added to the tree, on the way to the given pages. -/
structure Grows (root : ℕ) (top : Fin 512 → Prop) (s s' : State) (rest : List (ℕ × ℕ))
    (new : List NewTable) : Prop where
  inv : ∃ owner, Inv root top s' owner
  reach : ∀ q a, Radix.stop (child root) (read s'.mem) 0 none q = (some a, []) →
    Radix.stop (child root) (read s.mem) 0 none q = (some a, []) ∨
      ∃ x ∈ new, ∃ i, q = x.indices ++ [i] ∧ a = entryAddr (higherHalfMem x.page) i
  keep : ∀ q a, (∀ z ∈ rest, ∀ i more, q ≠ leafSlot z.2 z.1 ++ i :: more) →
    Radix.stop (child root) (read s.mem) 0 none q = (some a, []) →
    Radix.stop (child root) (read s'.mem) 0 none q = (some a, [])
  fresh : ∀ x ∈ new, ∀ i, Radix.stop (child root) (read s'.mem) 0 none (x.indices ++ [i]) =
    (some (entryAddr (higherHalfMem x.page) i), [])
  written : ∀ a, s'.mem a ≠ s.mem a → ∃ z ∈ rest, ∃ q, q <+: leafSlot z.2 z.1 ∧
    Radix.stop (child root) (read s'.mem) 0 none q = (some a, [])

theorem Grows.refl {top : Fin 512 → Prop} {s : State} {owner : Option ℕ → Option (List (Fin 512))}
    (h : Inv root top s owner) : Grows root top s s [] [] :=
  ⟨⟨owner, h⟩, fun _ _ hq => .inl hq, fun _ _ _ hq => hq, by simp, fun _ ha => absurd rfl ha⟩

/-- A pass, and then the rest. -/
theorem Passed.grows {top : Fin 512 → Prop} {s s1 s' : State} {pa flags : ℕ} {new : List NewTable}
    (h : Passed root top s s1 va pa k flags) (hrest : Grows root top s1 s' rest new)
    (hapart : ∀ z ∈ rest, ¬ leafSlot z.2 z.1 <+: path va) :
    Grows root top s s' ((va, k) :: rest) (passTables s.mem root va k s.pages ++ new) := by
  -- what the pass has made is not below a page to come
  have hkeep : ∀ q a, q <+: leafSlot k va →
      Radix.stop (child root) (read s1.mem) 0 none q = (some a, []) →
      Radix.stop (child root) (read s'.mem) 0 none q = (some a, []) := by
    refine fun q a hq hstop => hrest.keep q a (fun z hz i more heq => hapart z hz ?_) hstop
    exact (List.prefix_append _ _).trans (heq ▸ hq.trans (List.take_prefix _ _))
  refine ⟨hrest.inv, fun q a hq => ?_, fun q a hbelow hq => ?_, fun x hx i => ?_, fun a ha => ?_⟩
  · obtain hq | ⟨x, hx, hi⟩ := hrest.reach q a hq
    · obtain hq | ⟨z, hz, hi⟩ := h.reach q a hq
      · exact .inl hq
      · exact .inr ⟨⟨z.1, z.2, false⟩, List.mem_append_left _ (mem_passTables hz), hi⟩
    · exact .inr ⟨x, List.mem_append_right _ hx, hi⟩
  · exact hrest.keep q a (fun z hz => hbelow z (List.mem_cons_of_mem _ hz))
      (h.keep q a (hbelow _ List.mem_cons_self) hq)
  · obtain hx | hx := List.mem_append.mp hx
    · obtain ⟨z, hz, rfl⟩ := List.mem_map.mp hx
      have hpre := (mem_missing.mp (List.of_mem_zip hz).1).1
      refine hrest.keep _ _ (fun y hy j more heq => hapart y hy ?_) (h.fresh z hz i)
      -- the leaf of a later page would be above the table
      have hle : leafSlot y.2 y.1 <+: z.1 := by
        refine List.prefix_of_prefix_length_le ⟨_, heq.symm⟩ (List.prefix_append _ _) ?_
        have hlen := congrArg List.length heq
        simp only [List.length_append, List.length_cons, List.length_nil] at hlen
        omega
      exact hle.trans (hpre.trans (List.take_prefix _ _))
    · exact hrest.fresh x hx i
  · by_cases hsame : s'.mem a = s1.mem a
    · rw [hsame] at ha
      obtain ⟨q, hq, hstop⟩ := h.written a ha
      exact ⟨(va, k), List.mem_cons_self, q, hq, hkeep q a hq hstop⟩
    · obtain ⟨z, hz, hq⟩ := hrest.written a hsame
      exact ⟨z, List.mem_cons_of_mem _ hz, hq⟩

end newTables

/-- **Run**: without large leaves over the range a call makes the tables `newTables`, each of its
    page. -/
theorem setPagesLoop_grows {s s' : State} {top : Fin 512 → Prop}
    {owner : Option ℕ → Option (List (Fin 512))} {pageTable attr fuel va pa size : ℕ}
    (hne : pageTable ≠ 0) (h : Inv (higherHalfMem pageTable) top s owner)
    (hva : va % 2 ^ 12 = 0) (hpa : pa % 2 ^ 12 = 0) (hsize : size % 2 ^ 12 = 0)
    (hhalf : InHalf va size) (hend : pa + size < 2 ^ 64)
    (htop : ∀ v, va ≤ v → v < va + size → top (index v 39))
    (hsmall : ∀ v, va ≤ v → v < va + size → Small s.mem (higherHalfMem pageTable) (path v))
    (hcall : setPagesLoop pageTable (xtBuildFlags attr) fuel s va pa size = some (s', .success)) :
    Grows (higherHalfMem pageTable) top s s' (pagesOf fuel va pa size)
      (newTables s.mem (higherHalfMem pageTable) (pagesOf fuel va pa size) [] s.pages) := by
  revert owner htop hsmall
  refine setPagesLoop_induct (M := fun fuel s va pa size => ∀ {owner},
    Inv (higherHalfMem pageTable) top s owner →
    (∀ v, va ≤ v → v < va + size → top (index v 39)) →
    (∀ v, va ≤ v → v < va + size → Small s.mem (higherHalfMem pageTable) (path v)) →
    Grows (higherHalfMem pageTable) top s s' (pagesOf fuel va pa size)
      (newTables s.mem (higherHalfMem pageTable) (pagesOf fuel va pa size) [] s.pages))
    ?_ ?_ hva hpa hsize hhalf hend hcall
  · intro fuel va pa owner h _ _
    rw [pagesOf_zero]
    exact Grows.refl h
  intro fuel s s1 va pa size hpos hva hpa hsize hhalf hend hpage ih owner h htop hsmall
  obtain ⟨hvak, -, hle⟩ := levelFor_spec hva hpa hsize hpos
  have hpow := Nat.two_pow_pos (12 + 9 * levelFor va pa size)
  have hfree : ∀ e j, leaf s.mem (higherHalfMem pageTable) (path va) = some (e, j) →
      j ≤ levelFor va pa size := by
    intro e j he
    rw [hsmall va le_rfl (by omega) e j he]
    exact Nat.zero_le _
  have hpass := setPage_tables hne h hpa (htop va le_rfl (by omega)) hfree hpage
  obtain ⟨owner1, hinv1⟩ := hpass.inv
  rw [pagesOf_succ fuel va pa hpos, newTables_of_free (inTheWay_eq_none_iff.mpr hfree),
    List.nil_append, hpass.newTables_rest fun z hz => (pagesOf_apart hva hpa hsize hpos hhalf hz).2.2.1]
  refine hpass.grows (ih hinv1 (fun v h1 h2 => htop v (by omega) (by omega)) fun v h1 h2 => ?_)
    fun z hz => (pagesOf_apart hva hpa hsize hpos hhalf hz).2.2.2
  have hout : leafSlot (levelFor va pa size) v ≠ leafSlot (levelFor va pa size) va := by
    intro heq
    have hpage := (leafSlot_eq_page_iff (levelFor_le va pa size) hvak
      (hhalf.canonical le_rfl (by omega)) (hhalf.canonical (by omega) (by omega))).mp heq
    omega
  unfold Small
  rw [hpass.leaf, if_neg hout]
  exact hsmall v (by omega) (by omega)

end XTOS.Paging

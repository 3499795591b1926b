import XTOS.Paging.Unmap
import XTOS.Paging.Split

/-!
# When `xtUnsetPages` removes a range

The tables change while `xtUnsetPages` goes through them, and with them the steps of its loop. What
is left of them is determined by the tables before the call and the addresses of the passes so far,
and so are the addresses of all passes.

## Main definitions

- `Touched`, `Stays` — the tables that passes go through, and those that are left after them
- `levelAfter` — the step at an address, after passes for others
- `Visits` — the addresses of the passes

## Main results

- `Pruned.unsetPage` — what one pass leaves
- `Pruned.links_iff` — the tables that are left
- `removes_iff` — when a call removes the range
-/

namespace XTOS.Paging

open SysLib

/-- Passes for the addresses `vs` go through the table behind `q`. -/
def Touched (mem : ℕ → ℕ) (root : ℕ) (vs : List ℕ) (q : List (Fin 512)) : Prop :=
  ∃ w ∈ vs, q <+: path w ∧ Solid mem root w

/-- The leaf of level `k` at `v` is not cleared by passes for the addresses `vs`. -/
def Missed (vs : List ℕ) (k v : ℕ) : Prop := ∀ w ∈ vs, leafSlot k w ≠ leafSlot k v

/-- The table behind `r` is left after passes for the addresses `vs`: there is a leaf left behind it,
    or a table that they have not gone through. -/
def Stays (mem : ℕ → ℕ) (root : ℕ) (vs : List ℕ) (r : List (Fin 512)) : Prop :=
  (∃ t, Links root mem r t) ∧
    ((∃ v e k, r <+: path v ∧ leaf mem root (path v) = some (e, k) ∧ Missed vs k v) ∨
      ∃ q t, r <+: q ∧ Links root mem q t ∧ ¬ Touched mem root vs q)

open Classical in
/-- The levels that the walk to an address leaves out, after passes for the addresses `vs`. -/
noncomputable def levelAfter (mem : ℕ → ℕ) (root : ℕ) (vs : List ℕ) (v : ℕ) : ℕ :=
  if Stays mem root vs (leafSlot 1 v) then 0
  else if Stays mem root vs (leafSlot 2 v) then 1
  else if Stays mem root vs (leafSlot 3 v) then 2
  else 3

/-- A pass for `v` follows those for the addresses `vs`, the latest first. -/
inductive Visits (mem : ℕ → ℕ) (root lo hi : ℕ) : List ℕ → ℕ → Prop
  | start : lo < hi → Visits mem root lo hi [] lo
  | next {vs : List ℕ} {v : ℕ} : Visits mem root lo hi vs v →
      v + 2 ^ (12 + 9 * levelAfter mem root vs v) < hi →
      Visits mem root lo hi (v :: vs) (v + 2 ^ (12 + 9 * levelAfter mem root vs v))

variable {root : ℕ} {owner : Option ℕ → Option (List (Fin 512))} {mem mem0 : ℕ → ℕ}
  {r q : List (Fin 512)} {a b t k v va : ℕ} {vs : List ℕ} {u : Unset}

/-! ### Tables and levels -/

/-- No entry leads to the root. -/
theorem stop_ne_none {n : ℕ} {s : Option ℕ} (hs : s ≠ none) (p : List (Fin 512)) :
    (Radix.stop (child root) (read mem) n s p).1 ≠ none := by
  induction p generalizing n s with
  | nil => exact hs
  | cons i p ih =>
    cases hc : child root n (read mem s) i with
    | none => rwa [Radix.stop_cons_of_none hc]
    | some s' =>
      rw [Radix.stop_cons_of_some hc]
      refine ih ?_
      rintro rfl
      rw [child] at hc
      split_ifs at hc
      · cases hc
      · cases hc

/-- The tables on the way of a walk. -/
theorem links_of_stop {slot : Option ℕ} {i : Fin 512} {rest : List (Fin 512)} (hr : r ≠ [])
    (h : Radix.stop (child root) (read mem) 0 none (r ++ i :: rest) = (slot, [])) :
    ∃ t, Links root mem r t := by
  obtain ⟨s, hs, hrest⟩ := Radix.stop_split h
  rw [zero_add] at hrest
  have hn : r.length ≠ 0 := by simpa using hr
  cases s with
  | none =>
    cases r with
    | nil => exact absurd rfl hr
    | cons j r =>
      rw [Radix.stop_cons_of_some (child_zero root _ j)] at hs
      exact absurd (congrArg Prod.fst hs) (stop_ne_none (Option.some_ne_none _) r)
  | some a =>
    refine ⟨_, a, hs, not_not.mp fun hnot => ?_, rfl⟩
    rw [stop_of_not_leads hn hnot] at hrest
    cases hrest

theorem Links.ne_nil (h : Links root mem q t) : q ≠ [] := by
  rintro rfl
  obtain ⟨a, hstop, -⟩ := h
  cases hstop

theorem Links.above (h : Links root mem q t) (hr : r ≠ []) (hpre : r <+: q) :
    ∃ t, Links root mem r t := by
  obtain ⟨rest, rfl⟩ := hpre
  cases rest with
  | nil => exact ⟨t, by rwa [List.append_nil] at h⟩
  | cons i rest =>
    obtain ⟨a, hstop, -⟩ := h
    exact links_of_stop hr hstop

/-- The tables on the way to an address are those above its leaf or gap. -/
theorem links_leafSlot_iff (hpos : 0 < k) (hk : k < 4) :
    (∃ t, Links root mem (leafSlot k v) t) ↔ gapLevel mem root v < k := by
  have hlen := leafSlot_length k v
  have hsplit : path v = leafSlot k v ++ (path v).drop (4 - k) :=
    (List.take_append_drop (4 - k) (path v)).symm
  have hdrop : ((path v).drop (4 - k)).length = k := by
    rw [List.length_drop]
    exact Nat.sub_sub_self hk.le
  constructor
  · rintro ⟨t, a, hstop, hleads, -⟩
    obtain ⟨i, rest, hrest⟩ := List.exists_cons_of_length_pos (hdrop.symm ▸ hpos)
    rw [gapLevel, hsplit, Radix.stop_append hstop, zero_add, hrest,
      stop_of_leads (by omega) hleads]
    have hle := @Radix.stop_length_le _ _ _ (child root) (read mem) ((leafSlot k v).length + 1)
      (some (entryAddr (higherHalfMem (mem a &&& addrMask)) i)) rest
    rw [hrest, List.length_cons] at hdrop
    omega
  · intro hlt
    obtain ⟨used, hpath, hused, -⟩ :=
      @Radix.stop_used _ _ _ (child root) (read mem) 0 none (path v)
    rw [gapLevel] at hlt
    have hfour := congrArg List.length hpath
    rw [List.length_append] at hfour
    replace hfour : 4 = _ := hfour
    have hpre : leafSlot k v <+: used :=
      List.prefix_of_prefix_length_le (List.take_prefix _ _) (hpath ▸ List.prefix_append _ _)
        (by omega)
    obtain ⟨rest, rfl⟩ := hpre
    cases rest with
    | nil =>
      rw [List.append_nil] at hfour
      omega
    | cons i rest => exact links_of_stop (List.ne_nil_of_length_pos (by omega)) hused

theorem gapLevel_le_three (mem : ℕ → ℕ) (root v : ℕ) : gapLevel mem root v ≤ 3 := by
  rw [gapLevel, path, Radix.stop_cons_of_some (child_zero root _ _)]
  exact Radix.stop_length_le _ _ _

/-! ### What is left -/

/-- What passes for the addresses `vs` have left: the leaves that they miss, and of the tables that
    they have gone through those that are not empty. -/
structure Pruned (root : ℕ) (mem0 : ℕ → ℕ) (vs : List ℕ) (u : Unset) : Prop where
  leaves (v e k : ℕ) : leaf u.mem root (path v) = some (e, k) ↔
    leaf mem0 root (path v) = some (e, k) ∧ Missed vs k v
  full (q : List (Fin 512)) (t : ℕ) : Links root u.mem q t → Touched mem0 root vs q →
    ¬ xtIsTableEmpty u.mem t
  gone (q : List (Fin 512)) (t : ℕ) : Links root mem0 q t → ¬ Links root u.mem q t →
    Touched mem0 root vs q

theorem Pruned.refl (root : ℕ) (mem0 : ℕ → ℕ) : Pruned root mem0 [] ⟨mem0, []⟩ :=
  ⟨fun _ _ _ => (and_iff_left nofun).symm, fun _ _ _ ⟨_, hw, _⟩ => absurd hw List.not_mem_nil,
    fun _ _ h hnot => absurd h hnot⟩

/-- A table on the way to an address. -/
theorem Links.eq_leafSlot (h : Links root mem q t) (hpre : q <+: path v) :
    ∃ k, 0 < k ∧ k < 4 ∧ gapLevel mem root v < k ∧ q = leafSlot k v := by
  have hpos := List.length_pos_of_ne_nil h.ne_nil
  have hfour : q.length < 4 := by
    obtain ⟨a, -, hleads, -⟩ := h
    exact hleads.1
  have hq : q = leafSlot (4 - q.length) v := by
    rw [leafSlot, Nat.sub_sub_self hfour.le]
    exact List.prefix_iff_eq_take.mp hpre
  refine ⟨4 - q.length, by omega, by omega, (links_leafSlot_iff (by omega) (by omega)).mp ⟨t, ?_⟩, hq⟩
  rwa [← hq]

theorem leafSlot_prefix_leafSlot {j k : ℕ} (hle : j ≤ k) (v : ℕ) : leafSlot k v <+: leafSlot j v :=
  List.take_prefix_take_left (Nat.sub_le_sub_left hle 4)

theorem leafSlot_prefix_path (k v : ℕ) : leafSlot k v <+: path v := List.take_prefix _ _

theorem Touched.mono (h : Touched mem root vs q) (v : ℕ) : Touched mem root (v :: vs) q := by
  obtain ⟨w, hw, hpre, hsolid⟩ := h
  exact ⟨w, List.mem_cons_of_mem v hw, hpre, hsolid⟩

theorem touched_cons : Touched mem root (v :: vs) q ↔
    (q <+: path v ∧ Solid mem root v) ∨ Touched mem root vs q := by
  simp only [Touched, List.mem_cons, exists_eq_or_imp]

/-- Where a pass does nothing, others have gone through the tables. -/
theorem Pruned.touched (h : Pruned root mem0 vs u) (hr : Reduced root owner mem0 u)
    (hnot : ¬ Solid u.mem root va) (hsolid : Solid mem0 root va) (hq : Links root u.mem q t)
    (hpre : q <+: path va) : Touched mem0 root vs q := by
  obtain ⟨j, hpos, -, hlt, rfl⟩ := (hr.kept q t hq).eq_leafSlot hpre
  obtain hleaf | ⟨t', ht'⟩ := hsolid
  · -- the leaf that was there has been cleared
    obtain ⟨⟨e, k⟩, hx⟩ := Option.ne_none_iff_exists'.mp hleaf
    have hcleared : ¬ Missed vs k va := fun hmissed =>
      hnot (.inl (Option.ne_none_iff_exists'.mpr ⟨_, (h.leaves va e k).mpr ⟨hx, hmissed⟩⟩))
    simp only [Missed, ne_eq, not_forall, not_not] at hcleared
    obtain ⟨w, hw, hslot⟩ := hcleared
    have hle : k ≤ j := (leaf_eq_gapLevel hx).trans_le hlt.le
    refine ⟨w, hw, (leafSlot_prefix_iff j va w).mpr (leafSlot_mono hle hslot), .inl ?_⟩
    exact Option.ne_none_iff_exists'.mpr ⟨_, leaf_of_leafSlot hx hslot⟩
  · -- the last table that was there has been freed
    obtain ⟨w, hw, hprew, hsolid⟩ := h.gone _ _ ht' fun hu => hnot (.inr ⟨t', hu⟩)
    exact ⟨w, hw, (leafSlot_prefix_leafSlot hpos va).trans hprew, hsolid⟩

/-- **One pass** and what it leaves. -/
theorem Pruned.unsetPage {pml4 : ℕ} (hp : Pruned (higherHalfMem pml4) mem0 vs u)
    (h : Reduced (higherHalfMem pml4) owner mem0 u)
    (h0 : Radix.Owned (child (higherHalfMem pml4)) (read mem0) none owner)
    (hpresent : u.mem (tableEntry pml4 (index va 39)) &&& pPresent ≠ 0) :
    Pruned (higherHalfMem pml4) mem0 (va :: vs) (unsetPage u pml4 va).1 := by
  obtain ⟨-, hleaves⟩ := unsetPage_spec h h0 hpresent
  refine ⟨fun v e k => ?_, fun q t hq htouched => ?_, fun q t hq hnot => ?_⟩
  · rw [hleaves v, Missed, List.forall_mem_cons, and_left_comm, ← Missed, ← hp.leaves v e k]
    constructor
    · intro hx
      split_ifs at hx with hslot
      refine ⟨fun heq => hslot ?_, hx⟩
      rw [← leaf_eq_gapLevel (leaf_of_leafSlot hx heq)]
      exact heq.symm
    · rintro ⟨hne, hx⟩
      rw [if_neg, hx]
      intro hslot
      refine hne ?_
      rw [leaf_eq_gapLevel ((leaf_eq_of_gap hslot).symm.trans hx)]
      exact hslot.symm
  · rw [touched_cons] at htouched
    obtain ⟨-, ⟨hsame, hsolid⟩ | ⟨-, hpart⟩⟩ := unsetPage_part h h0 hpresent
    · rw [hsame] at hq ⊢
      obtain ⟨hpre, hsolid0⟩ | htouched := htouched
      · exact hp.full q t hq (hp.touched h hsolid hsolid0 hq hpre)
      · exact hp.full q t hq htouched
    · refine hpart.full q t hp.full (fun hpre => ?_) hq ?_
      · obtain hnil | ⟨p, rfl, hp⟩ := List.prefix_cons_iff.mp hpre
        · exact absurd hnil hq.ne_nil
        · rw [List.prefix_nil.mp hp]
      · obtain ⟨hpre, -⟩ | htouched := htouched
        · obtain ⟨k, -, -, hlt, rfl⟩ := (hpart.kept q t hq).eq_leafSlot hpre
          exact .inr (leafSlot_prefix_leafSlot hlt.le va)
        · exact .inl htouched
  · by_cases hu : Links (higherHalfMem pml4) u.mem q t
    · obtain ⟨-, ⟨hsame, -⟩ | ⟨hsolid, hpart⟩⟩ := unsetPage_part h h0 hpresent
      · rw [hsame] at hnot
        exact absurd hu hnot
      · refine touched_cons.mpr (.inl ⟨(hpart.cut q t hu hnot).trans (leafSlot_prefix_path _ va), ?_⟩)
        refine hsolid.imp (fun hleaf => ?_) fun ⟨t', ht'⟩ => ⟨t', h.kept _ _ ht'⟩
        obtain ⟨⟨e, k⟩, hx⟩ := Option.ne_none_iff_exists'.mp hleaf
        exact Option.ne_none_iff_exists'.mpr ⟨_, ((hp.leaves va e k).mp hx).1⟩
    · exact (hp.gone q t hq hu).mono va

/-- **The tables that are left**. -/
theorem Pruned.links_iff (hp : Pruned root mem0 vs u) (h : Reduced root owner mem0 u) :
    (∃ t, Links root u.mem r t) ↔ Stays mem0 root vs r := by
  constructor
  · rintro ⟨t, ht⟩
    refine ⟨⟨t, h.kept r t ht⟩, ?_⟩
    induction hn : 4 - r.length generalizing r t with
    | zero =>
      obtain ⟨a, -, hleads, -⟩ := ht
      exact absurd hleads.1 (by omega)
    | succ n ih =>
      by_cases htouched : Touched mem0 root vs r
      swap
      · exact .inr ⟨r, t, List.prefix_refl r, h.kept r t ht, htouched⟩
      -- a table that is not empty has a leaf or leads to a table
      have hfull := hp.full r t ht htouched
      simp only [xtIsTableEmpty, not_forall] at hfull
      obtain ⟨i, hpresent⟩ := hfull
      have hs := ht.slot h.owned i
      by_cases hleads : Leads (r ++ [i]).length (u.mem (tableEntry t i))
      · have hnext : Links root u.mem (r ++ [i]) _ := ⟨_, hs.stop, hleads, rfl⟩
        have hrest : 4 - (r ++ [i]).length = n := by
          rw [List.length_append, List.length_singleton]
          omega
        obtain ⟨v, e, k, hpre, hleft⟩ | ⟨q, t', hpre, hleft⟩ := ih _ hnext hrest
        · exact .inl ⟨v, e, k, (List.prefix_append r [i]).trans hpre, hleft⟩
        · exact .inr ⟨q, t', (List.prefix_append r [i]).trans hpre, hleft⟩
      · have hlen : (r ++ [i]).length ≤ 4 := by
          rw [List.length_append, List.length_singleton]
          omega
        obtain ⟨v, -, rest, hpath⟩ := exists_prefix_path hlen
        have hleaf := hs.leaf_of_present (by simp) hleads hpresent rest
        rw [hpath] at hleaf
        have hpre : r <+: path v := hpath ▸ ⟨[i] ++ rest, (List.append_assoc r [i] rest).symm⟩
        exact .inl ⟨v, _, _, hpre, (hp.leaves v _ _).mp hleaf⟩
  · rintro ⟨⟨t, ht⟩, ⟨v, e, k, hpre, hx, hmissed⟩ | ⟨q, t', hpre, hq, hnot⟩⟩
    · obtain ⟨j, hpos, hfour, hlt, rfl⟩ := ht.eq_leafSlot hpre
      refine (links_leafSlot_iff hpos hfour).mpr ?_
      rwa [← leaf_eq_gapLevel ((hp.leaves v e k).mpr ⟨hx, hmissed⟩), leaf_eq_gapLevel hx]
    · exact (not_not.mp fun hu => hnot (hp.gone q t' hq hu)).above ht.ne_nil hpre

/-- The step at an address. -/
theorem Pruned.levelAfter_eq (hp : Pruned root mem0 vs u) (h : Reduced root owner mem0 u) (v : ℕ) :
    levelAfter mem0 root vs v = gapLevel u.mem root v := by
  have hle := gapLevel_le_three u.mem root v
  have hstays : ∀ {k}, 0 < k → k < 4 →
      (Stays mem0 root vs (leafSlot k v) ↔ gapLevel u.mem root v < k) := fun hpos hk =>
    (hp.links_iff h).symm.trans (links_leafSlot_iff hpos hk)
  simp only [levelAfter, hstays one_pos (by decide : 1 < 4), hstays two_pos (by decide : 2 < 4),
    hstays three_pos (by decide : 3 < 4)]
  split_ifs <;> omega

/-! ### Runs -/

/-- A pass starts in a state after passes for the addresses `vs`. From its address on no leaf has been
    cleared. -/
structure Follows (pml4 : ℕ) (owner : Option ℕ → Option (List (Fin 512))) (mem0 : ℕ → ℕ)
    (lo hi : ℕ) (vs : List ℕ) (r : Rest) : Prop where
  reduced : Reduced (higherHalfMem pml4) owner mem0 r.unset
  pruned : Pruned (higherHalfMem pml4) mem0 vs r.unset
  within : Within lo hi r
  ahead (v e k : ℕ) : Canonical v → r.va ≤ v →
    leaf mem0 (higherHalfMem pml4) (path v) = some (e, k) → Missed vs k v

section run

variable {pml4 lo hi : ℕ} {r : Rest}

theorem Follows.leaf_iff (h : Follows pml4 owner mem0 lo hi vs r) {e : ℕ} (hv : Canonical v)
    (hle : r.va ≤ v) : leaf r.unset.mem (higherHalfMem pml4) (path v) = some (e, k) ↔
      leaf mem0 (higherHalfMem pml4) (path v) = some (e, k) :=
  (h.pruned.leaves v e k).trans (and_iff_left_of_imp fun hx => h.ahead v e k hv hle hx)

theorem Follows.stride_eq (h : Follows pml4 owner mem0 lo hi vs r) :
    stride pml4 r = 2 ^ (12 + 9 * levelAfter mem0 (higherHalfMem pml4) vs r.va) := by
  rw [h.pruned.levelAfter_eq h.reduced, stride]

/-- What goes wrong in a pass can be seen in the tables before the call. -/
theorem Follows.clean_iff (h : Follows pml4 owner mem0 lo hi vs r)
    (hcanonical : ∀ w, lo ≤ w → w < hi → Canonical w) (hsize : r.size ≠ 0) :
    r.Clean pml4 lo hi ↔ Clean mem0 (higherHalfMem pml4) lo hi r.va
      (2 ^ (12 + 9 * levelAfter mem0 (higherHalfMem pml4) vs r.va)) := by
  obtain ⟨hlo, hend⟩ := h.within hsize
  have hva : Canonical r.va := hcanonical r.va hlo (by omega)
  rw [Rest.Clean, h.stride_eq]
  constructor
  · rintro ⟨hwhole, hpast⟩
    refine ⟨fun e k v hx => hwhole e k v ((h.leaf_iff hva le_rfl).mpr hx),
      fun e k v hx hle hlt hhi => hpast e k v ((h.leaf_iff ?_ hle).mpr hx) hle hlt hhi⟩
    exact hcanonical v (hlo.trans hle) hhi
  · rintro ⟨hwhole, hpast⟩
    refine ⟨fun e k v hx => hwhole e k v ((h.leaf_iff hva le_rfl).mp hx),
      fun e k v hx hle hlt hhi => hpast e k v ((h.leaf_iff ?_ hle).mp hx) hle hlt hhi⟩
    exact hcanonical v (hlo.trans hle) hhi

/-- **One pass** after others. -/
theorem Follows.pass (h : Follows pml4 owner mem0 lo hi vs r)
    (h0 : Radix.Owned (child (higherHalfMem pml4)) (read mem0) none owner) (hhi : hi ≤ 2 ^ 64)
    (hcanonical : ∀ w, lo ≤ w → w < hi → Canonical w) (hsize : r.size ≠ 0)
    (hpresent : r.Present pml4) :
    ((unsetPass pml4 r).size ≠ 0 ↔
      r.va + 2 ^ (12 + 9 * levelAfter mem0 (higherHalfMem pml4) vs r.va) < hi) ∧
    ((unsetPass pml4 r).size ≠ 0 →
      (unsetPass pml4 r).va =
          r.va + 2 ^ (12 + 9 * levelAfter mem0 (higherHalfMem pml4) vs r.va) ∧
        Follows pml4 owner mem0 lo hi (r.va :: vs) (unsetPass pml4 r)) := by
  obtain ⟨hlo, hend⟩ := h.within hsize
  have hva : Canonical r.va := hcanonical r.va hlo (by omega)
  obtain ⟨hstride, hreduced, -⟩ := unsetPass_spec h.reduced h0 hpresent
  obtain ⟨hwithin, hiff, hnext⟩ := h.within.pass hhi hsize hstride
  rw [h.stride_eq] at hiff hnext
  refine ⟨hiff, fun hmore => ⟨hnext (hiff.mp hmore), hreduced,
    h.pruned.unsetPage h.reduced h0 hpresent, hwithin, fun v e k hv hle hx => ?_⟩⟩
  rw [hnext (hiff.mp hmore)] at hle
  have hle' : r.va ≤ v := (Nat.le_add_right _ _).trans hle
  refine List.forall_mem_cons.mpr ⟨fun hslot => ?_, h.ahead v e k hv hle' hx⟩
  -- the leaf of this pass ends before the next address
  have hleaf := (h.leaf_iff hva le_rfl).mpr (leaf_of_leafSlot hx hslot)
  have hpage := (leafSlot_eq_iff (leaf_level hx) hva hv).mp hslot
  rw [h.pruned.levelAfter_eq h.reduced, ← leaf_eq_gapLevel hleaf] at hle
  have hlt := Nat.div_le_div_right (c := 2 ^ (12 + 9 * k)) hle
  rw [Nat.add_div_right _ (Nat.two_pow_pos _)] at hlt
  omega

/-- The passes of a call that returns are those for the addresses that are visited. -/
theorem passes_clean_iff
    (h0 : Radix.Owned (child (higherHalfMem pml4)) (read mem0) none owner) (hhi : hi ≤ 2 ^ 64)
    (hcanonical : ∀ w, lo ≤ w → w < hi → Canonical w) {size : ℕ} (hend : lo + size = hi)
    (hpresent : ∀ j, (passes pml4 ⟨⟨mem0, []⟩, lo, size⟩ j).size ≠ 0 →
      (passes pml4 ⟨⟨mem0, []⟩, lo, size⟩ j).Present pml4) :
    (∀ j, (passes pml4 ⟨⟨mem0, []⟩, lo, size⟩ j).size ≠ 0 →
      (passes pml4 ⟨⟨mem0, []⟩, lo, size⟩ j).Clean pml4 lo hi) ↔
    ∀ vs v, Visits mem0 (higherHalfMem pml4) lo hi vs v → Clean mem0 (higherHalfMem pml4) lo hi v
      (2 ^ (12 + 9 * levelAfter mem0 (higherHalfMem pml4) vs v)) := by
  have hstart : Follows pml4 owner mem0 lo hi [] ⟨⟨mem0, []⟩, lo, size⟩ :=
    ⟨.refl h0, .refl _ _, fun _ => ⟨le_rfl, hend⟩, fun _ _ _ _ _ _ => nofun⟩
  constructor
  · intro hclean vs v hv
    obtain ⟨j, rfl, hsize, hfollows⟩ : ∃ j, (passes pml4 ⟨⟨mem0, []⟩, lo, size⟩ j).va = v ∧
        (passes pml4 ⟨⟨mem0, []⟩, lo, size⟩ j).size ≠ 0 ∧
        Follows pml4 owner mem0 lo hi vs (passes pml4 ⟨⟨mem0, []⟩, lo, size⟩ j) := by
      induction hv with
      | start hlt => exact ⟨0, rfl, show size ≠ 0 by omega, hstart⟩
      | next _ hlt ih =>
        obtain ⟨j, rfl, hsize, hfollows⟩ := ih
        obtain ⟨hiff, hnext⟩ := hfollows.pass h0 hhi hcanonical hsize (hpresent j hsize)
        have hmore := hiff.mpr hlt
        refine ⟨j + 1, ?_⟩
        rw [passes, Function.iterate_succ_apply']
        exact ⟨(hnext hmore).1, hmore, (hnext hmore).2⟩
    exact (hfollows.clean_iff hcanonical hsize).mp (hclean j hsize)
  · intro hclean j hsize
    obtain ⟨vs, hv, hfollows⟩ :
        ∃ vs, Visits mem0 (higherHalfMem pml4) lo hi vs (passes pml4 ⟨⟨mem0, []⟩, lo, size⟩ j).va ∧
          Follows pml4 owner mem0 lo hi vs (passes pml4 ⟨⟨mem0, []⟩, lo, size⟩ j) := by
      induction j with
      | zero =>
        replace hsize : size ≠ 0 := hsize
        exact ⟨[], .start (by omega), hstart⟩
      | succ j ih =>
        rw [passes, Function.iterate_succ_apply', ← passes] at hsize ⊢
        have hsize' : (passes pml4 ⟨⟨mem0, []⟩, lo, size⟩ j).size ≠ 0 := fun hzero =>
          hsize (passes_size_zero pml4 hzero 1)
        obtain ⟨vs, hv, hfollows⟩ := ih hsize'
        obtain ⟨hiff, hnext⟩ := hfollows.pass h0 hhi hcanonical hsize' (hpresent j hsize')
        refine ⟨_, ?_, (hnext hsize).2⟩
        rw [(hnext hsize).1]
        exact hv.next (hiff.mp hsize)
    exact (hfollows.clean_iff hcanonical hsize).mpr (hclean vs _ hv)

end run

/-- **When a call removes the range**: in an unshared tree a call that returns leaves the range
    unmapped and all else as it was, with the empty tables freed, exactly if nothing goes wrong at the
    addresses that it visits. -/
theorem removes_iff {pageTable va size fuel : ℕ} {u' : Unset} {r : XTResult} (hne : pageTable ≠ 0)
    (hunshared : ∀ p q slot, Reaches mem pageTable p slot → Reaches mem pageTable q slot → p = q)
    (hhalf : InHalf va size) (hcall : xtUnsetPages fuel ⟨mem, []⟩ pageTable va size = some (u', r)) :
    Removes mem u' pageTable va size ↔
      ∀ vs v, Visits mem (higherHalfMem pageTable) va (va + size) vs v →
        Clean mem (higherHalfMem pageTable) va (va + size) v
          (2 ^ (12 + 9 * levelAfter mem (higherHalfMem pageTable) vs v)) := by
  obtain ⟨owner, h0, -⟩ := Radix.exists_owned (fun p q slot => hunshared p q slot)
  rw [removes_iff_passes hne hunshared hhalf hcall]
  refine passes_clean_iff h0 ?_ (fun w => hhalf.canonical) rfl fun j hj => ?_
  · unfold InHalf at hhalf
    omega
  · have hsize : size ≠ 0 := fun hzero => hj (passes_size_zero pageTable hzero j)
    have hva : va < 2 ^ 64 := by
      unfold InHalf at hhalf
      omega
    have hreturns := ((xtUnsetPages_returns_iff ⟨mem, []⟩ size hva).2).mp ⟨fuel, _, hcall⟩
    exact hreturns.resolve_left hne j hj

/-- Before the first pass. -/
theorem levelAfter_nil (h0 : Radix.Owned (child root) (read mem) none owner) (v : ℕ) :
    levelAfter mem root [] v = gapLevel mem root v :=
  (Pruned.refl root mem).levelAfter_eq (.refl h0) v

/-- A large page as a whole: its table and the one above are freed. -/
theorem removes_whole : ∃ u' r,
    xtUnsetPages 2 ⟨(largePage 0x4000).mem, []⟩ 0x1000 0x400000 0x200000 = some (u', r) ∧
      Removes (largePage 0x4000).mem u' 0x1000 0x400000 0x200000 := by
  have hrun : (xtUnsetPages 2 ⟨(largePage 0x4000).mem, []⟩ 0x1000 0x400000 0x200000).isSome := by
    decide +kernel
  obtain ⟨⟨u', r⟩, hcall⟩ := Option.isSome_iff_exists.mp hrun
  have hunshared := (@largePage_tree 0x4000 (by decide)).1.unshared
  refine ⟨u', r, hcall, (removes_iff (by decide) hunshared (.inl (by decide)) hcall).mpr
    fun vs v hv => ?_⟩
  have hleaf : leaf (largePage 0x4000).mem (higherHalfMem 0x1000) (path 0x400000) =
      some (0x8000000000600083, 1) := by decide +kernel
  have hlevel : levelAfter (largePage 0x4000).mem (higherHalfMem 0x1000) [] 0x400000 = 1 := by
    obtain ⟨owner, h0, -⟩ := Radix.exists_owned (fun p q slot => hunshared p q slot)
    rw [levelAfter_nil h0, ← leaf_eq_gapLevel hleaf]
  obtain ⟨rfl, rfl⟩ : vs = [] ∧ v = 0x400000 := by
    induction hv with
    | start => exact ⟨rfl, rfl⟩
    | next _ hlt ih =>
      obtain ⟨rfl, rfl⟩ := ih
      rw [hlevel] at hlt
      exact absurd hlt (by decide)
  rw [hlevel]
  refine ⟨fun e k w he hpage => ?_, fun e k w he hle hlt hend => .inl ?_⟩
  · cases hleaf.symm.trans he
    change w / 2 ^ 21 = 0x400000 / 2 ^ 21 at hpage
    omega
  · have hin : leafSlot 1 w = leafSlot 1 0x400000 := by
      refine (leafSlot_eq_iff (by decide) (.inl (by omega)) (.inl (by decide))).mpr ?_
      omega
    cases (leaf_of_leafSlot hleaf hin).symm.trans he
    exact (leafSlot_eq_iff (by decide) (.inl (by omega)) (.inl (by decide))).mp hin

/-- The first small page of a large one: the rest of the large page is not mapped any more either. -/
theorem removes_cut : Tree (largePage 0x4000).mem 0x1000 ∧ ∃ u',
    xtUnsetPages 2 ⟨(largePage 0x4000).mem, []⟩ 0x1000 0x400000 0x1000 = some (u', .success) ∧
      xtGetPhysicalAddress (largePage 0x4000).mem 0x1000 0x401000 = .ok 0x601000 ∧
      xtGetPhysicalAddress u'.mem 0x1000 0x401000 = .error .notFound ∧
      ¬ Removes (largePage 0x4000).mem u' 0x1000 0x400000 0x1000 := by
  refine ⟨(@largePage_tree 0x4000 (by decide)).1, ?_⟩
  have hrun : (xtUnsetPages 2 ⟨(largePage 0x4000).mem, []⟩ 0x1000 0x400000 0x1000).map
      (fun x => (x.2, xtGetPhysicalAddress (largePage 0x4000).mem 0x1000 0x401000,
        xtGetPhysicalAddress x.1.mem 0x1000 0x401000)) =
        some (.success, .ok 0x601000, .error .notFound) := by
    decide +kernel
  obtain ⟨⟨u', r⟩, hcall, hr⟩ := Option.map_eq_some_iff.mp hrun
  simp only [Prod.mk.injEq] at hr
  obtain ⟨rfl, hbefore, hafter⟩ := hr
  refine ⟨u', hcall, hbefore, hafter, fun h => ?_⟩
  have hkept := h.kept 0x401000 (.inl (by decide)) (by decide)
  rw [hbefore, hafter] at hkept
  cases hkept

end XTOS.Paging

import XTOS.Paging.Tables
import XTOS.Paging.Unset

/-!
# What `xtUnsetPages` removes

The calls of `xtUnsetPages` of `xtkernel/arch/x86_64/memory.c` that return. Each pass clears the
leaf of its address, and the tables that have become empty with it are freed. But the loop moves on
from the address, not from where the leaf or gap begins: from the middle of a gap it gets to the
middle of what follows.

## Main definitions

- `SlotAt`, `Links` — the entry that some indices lead to, and the table that it leads to
- `Reduced` — what passes have left of a tree
- `Removes` — the range is not mapped any more, all else is, and the empty tables are freed
- `Clean` — a pass clears nothing outside the range and skips nothing in it

## Main results

- `unsetPage_spec` — a pass clears one leaf
- `Reduced.freed_iff` — the pages freed are those of the tables that are gone
- `removes_iff_passes` — when a call removes the range
-/

namespace XTOS.Paging

open SysLib

/-- The indices `r` lead to the entry at `a`. -/
structure SlotAt (root : ℕ) (owner : Option ℕ → Option (List (Fin 512))) (mem : ℕ → ℕ)
    (r : List (Fin 512)) (a : ℕ) : Prop where
  stop : Radix.stop (child root) (read mem) 0 none r = (some a, [])
  owner : owner (some a) = some r

/-- The indices `r` lead to an entry of the table at `t`. -/
def Links (root : ℕ) (mem : ℕ → ℕ) (r : List (Fin 512)) (t : ℕ) : Prop :=
  ∃ a, Radix.stop (child root) (read mem) 0 none r = (some a, []) ∧ Leads r.length (mem a) ∧
    mem a &&& addrMask = t

variable {root : ℕ} {owner : Option ℕ → Option (List (Fin 512))} {mem mem0 : ℕ → ℕ}
  {r q : List (Fin 512)} {a b t : ℕ}

/-! ### Clearing an entry -/

theorem read_update_of_ne (mem : ℕ → ℕ) (a : ℕ) {slot : Option ℕ} (h : slot ≠ some a) :
    read (Function.update mem a 0) slot = read mem slot := by
  cases slot with
  | none => rfl
  | some b => exact Function.update_of_ne (fun hb => h (congrArg some hb)) _ _

theorem owned_clear (h : Radix.Owned (child root) (read mem) none owner)
    (ha : owner (some a) = some r) (hr : r ≠ []) :
    Radix.Owned (child root) (read (Function.update mem a 0)) none owner := by
  refine h.update ha (fun _ hne _ => read_update_of_ne mem a hne) (fun _ _ => rfl) ?_ ?_
  · intro i _ hc
    rw [read_some, Function.update_self,
      child_of_not_leads root (by simpa using hr) (not_leads_zero _)] at hc
    cases hc
  · intro _ p i hnone hsome
    rw [hnone] at hsome
    cases hsome

/-- Walks to and through a cleared entry end there. -/
theorem SlotAt.stop_clear (hs : SlotAt root owner mem r a)
    (h : Radix.Owned (child root) (read mem) none owner) (hr : r ≠ []) (q : List (Fin 512)) :
    Radix.stop (child root) (read (Function.update mem a 0)) 0 none (r ++ q) = (some a, q) := by
  have hself := Radix.stop_congr_self h hs.owner
    (fun _ hne _ => read_update_of_ne mem a hne) h.root (p := []) rfl hs.stop
  rw [List.length_nil] at hself
  rw [Radix.stop_append hself, zero_add]
  refine stop_of_not_leads (by simpa using hr) ?_ q
  rw [Function.update_self]
  exact not_leads_zero _

/-- Other walks do not change. -/
theorem SlotAt.stop_clear_of_miss (hs : SlotAt root owner mem r a)
    (h : Radix.Owned (child root) (read mem) none owner) (hmiss : ¬ r <+: q) :
    Radix.stop (child root) (read (Function.update mem a 0)) 0 none q =
        Radix.stop (child root) (read mem) 0 none q ∧
      read (Function.update mem a 0) (Radix.stop (child root) (read mem) 0 none q).1 =
        read mem (Radix.stop (child root) (read mem) 0 none q).1 :=
  Radix.stop_congr h hs.owner (fun _ hne _ => read_update_of_ne mem a hne) h.root (p := []) hmiss

theorem SlotAt.leaf_clear (hs : SlotAt root owner mem r a)
    (h : Radix.Owned (child root) (read mem) none owner) (hr : r ≠ []) (q : List (Fin 512)) :
    leaf (Function.update mem a 0) root q = if r <+: q then none else leaf mem root q := by
  split_ifs with hpre
  · obtain ⟨rest, rfl⟩ := hpre
    rw [leaf_of_stop (hs.stop_clear h hr rest), Function.update_self, Nat.zero_and, if_pos rfl]
  · obtain ⟨hstop, hread⟩ := hs.stop_clear_of_miss h hpre
    rw [leaf, leaf, hstop]
    dsimp only
    rw [hread]

/-- A cleared entry takes the tables behind it away. -/
theorem SlotAt.links_clear (hs : SlotAt root owner mem r a)
    (h : Radix.Owned (child root) (read mem) none owner) (hr : r ≠ []) :
    Links root (Function.update mem a 0) q t ↔ Links root mem q t ∧ ¬ r <+: q := by
  by_cases hpre : r <+: q
  · refine iff_of_false ?_ fun hboth => hboth.2 hpre
    obtain ⟨rest, rfl⟩ := hpre
    rintro ⟨b, hstop, hleads, -⟩
    rw [hs.stop_clear h hr rest] at hstop
    obtain ⟨rfl, -⟩ : a = b ∧ rest = [] := by simpa using hstop
    rw [Function.update_self] at hleads
    exact not_leads_zero _ hleads
  · rw [and_iff_left hpre]
    obtain ⟨hstop, hread⟩ := hs.stop_clear_of_miss h hpre
    refine exists_congr fun b => ?_
    rw [hstop]
    refine and_congr_right fun hb => ?_
    rw [hb, read_some, read_some] at hread
    rw [hread]

/-- A slot that is not behind the cleared one is still there, with its entry. -/
theorem SlotAt.clear (hs : SlotAt root owner mem r a)
    (h : Radix.Owned (child root) (read mem) none owner) (hb : SlotAt root owner mem q b)
    (hmiss : ¬ r <+: q) :
    SlotAt root owner (Function.update mem a 0) q b ∧ Function.update mem a 0 b = mem b := by
  obtain ⟨hstop, hread⟩ := hs.stop_clear_of_miss h hmiss
  rw [hb.stop, read_some, read_some] at hread
  exact ⟨⟨hstop.trans hb.stop, hb.owner⟩, hread⟩

/-- The entries of the table that a slot leads to. -/
theorem SlotAt.next (hs : SlotAt root owner mem r a)
    (h : Radix.Owned (child root) (read mem) none owner) (hr : r ≠ [])
    (hleads : Leads r.length (mem a)) (i : Fin 512) :
    SlotAt root owner mem (r ++ [i]) (tableEntry (mem a &&& addrMask) i) := by
  have hn : r.length ≠ 0 := by simpa using hr
  refine ⟨?_, h.child hs.owner (child_of_leads root hn hleads i)⟩
  rw [Radix.stop_append hs.stop, zero_add, stop_of_leads hn hleads, Radix.stop_nil]
  rfl

/-- Walks through an empty table end in it. -/
theorem SlotAt.stop_of_empty (hs : SlotAt root owner mem r a) (hr : r ≠ [])
    (hleads : Leads r.length (mem a)) (hempty : xtIsTableEmpty mem (mem a &&& addrMask))
    (i : Fin 512) (rest : List (Fin 512)) :
    Radix.stop (child root) (read mem) 0 none (r ++ i :: rest) =
      (some (tableEntry (mem a &&& addrMask) i), rest) := by
  have hn : r.length ≠ 0 := by simpa using hr
  rw [Radix.stop_append hs.stop, zero_add, stop_of_leads hn hleads]
  exact stop_of_not_leads (Nat.succ_ne_zero _) (fun hl => hl.2.1 (hempty i)) rest

/-- Behind an empty table there are no leaves. -/
theorem SlotAt.leaf_of_empty (hs : SlotAt root owner mem r a) (hr : r ≠ [])
    (hleads : Leads r.length (mem a)) (hempty : xtIsTableEmpty mem (mem a &&& addrMask))
    (i : Fin 512) (rest : List (Fin 512)) : leaf mem root (r ++ i :: rest) = none := by
  rw [leaf_of_stop (hs.stop_of_empty hr hleads hempty i rest)]
  exact if_pos (hempty i)

/-- And no tables but itself. -/
theorem SlotAt.links_of_empty (hs : SlotAt root owner mem r a) (hr : r ≠ [])
    (hleads : Leads r.length (mem a)) (hempty : xtIsTableEmpty mem (mem a &&& addrMask))
    (hpre : r <+: q) (hq : Links root mem q t) : q = r ∧ t = mem a &&& addrMask := by
  obtain ⟨rest, rfl⟩ := hpre
  obtain ⟨b, hstop, hlead, rfl⟩ := hq
  cases rest with
  | nil =>
    rw [List.append_nil, hs.stop] at hstop
    obtain rfl : a = b := by simpa using hstop
    exact ⟨List.append_nil r, rfl⟩
  | cons i rest =>
    rw [hs.stop_of_empty hr hleads hempty] at hstop
    obtain ⟨rfl, rfl⟩ : tableEntry (mem a &&& addrMask) i = b ∧ rest = [] := by
      simpa using hstop
    exact absurd (hempty i) hlead.2.1

/-- The entries of a table. -/
theorem Links.slot (hq : Links root mem q t) (h : Radix.Owned (child root) (read mem) none owner)
    (i : Fin 512) : SlotAt root owner mem (q ++ [i]) (tableEntry t i) := by
  obtain ⟨b, hstop, hleads, rfl⟩ := hq
  have hne : q ≠ [] := by
    rintro rfl
    cases hstop
  have hb : SlotAt root owner mem q b := ⟨hstop, by simpa using h.owner_of_stop h.root hstop⟩
  exact hb.next h hne hleads i

/-- A table has one place in the tree. -/
theorem links_unique (h : Radix.Owned (child root) (read mem) none owner) {q' : List (Fin 512)}
    (hq : Links root mem q t) (hq' : Links root mem q' t) : q = q' := by
  have heq := (hq.slot h 0).owner.symm.trans (hq'.slot h 0).owner
  exact List.append_cancel_right (Option.some.inj heq)

/-- A cleared entry that is not below a table is not one of the table's. -/
theorem Links.empty_clear_iff (hq : Links root mem q t)
    (h : Radix.Owned (child root) (read mem) none owner) (ha : owner (some a) = some r)
    (hmiss : ¬ q <+: r) : xtIsTableEmpty (Function.update mem a 0) t ↔ xtIsTableEmpty mem t := by
  refine forall_congr' fun i => ?_
  rw [Function.update_of_ne]
  rintro rfl
  rw [(hq.slot h i).owner, Option.some.injEq] at ha
  exact hmiss (ha ▸ List.prefix_append q [i])

/-- Behind an entry that leads nowhere there are no tables. -/
theorem SlotAt.no_links (hs : SlotAt root owner mem r a) (hr : r ≠ [])
    (hnot : ¬ Leads r.length (mem a)) (hq : Links root mem q t) : ¬ r <+: q := by
  rintro ⟨rest, rfl⟩
  obtain ⟨b, hstop, hleads, -⟩ := hq
  rw [Radix.stop_append hs.stop, zero_add, stop_of_not_leads (by simpa using hr) hnot] at hstop
  obtain ⟨rfl, rfl⟩ : a = b ∧ rest = [] := by simpa using hstop
  rw [List.append_nil] at hleads
  exact hnot hleads

theorem xtIsTableEmpty.clear (h : xtIsTableEmpty mem t) (a : ℕ) :
    xtIsTableEmpty (Function.update mem a 0) t := by
  intro i
  rw [Function.update_apply]
  split_ifs
  · exact Nat.zero_and _
  · exact h i

/-! ### The tables that are freed -/

/-- What has been left of the tables there were: those that are gone have been freed, once, and are
    empty. -/
structure Reduced (root : ℕ) (owner : Option ℕ → Option (List (Fin 512))) (mem0 : ℕ → ℕ)
    (u : Unset) : Prop where
  owned : Radix.Owned (child root) (read u.mem) none owner
  kept : ∀ q t, Links root u.mem q t → Links root mem0 q t
  gone : ∀ q t, Links root mem0 q t → ¬ Links root u.mem q t → (t, 2 ^ 12) ∈ u.freed
  freed : ∀ x ∈ u.freed, x.2 = 2 ^ 12 ∧ xtIsTableEmpty u.mem x.1 ∧
    ∃ q, Links root mem0 q x.1 ∧ ¬ Links root u.mem q x.1
  nodup : u.freed.Nodup

theorem Reduced.refl (h : Radix.Owned (child root) (read mem0) none owner) :
    Reduced root owner mem0 ⟨mem0, []⟩ :=
  ⟨h, fun _ _ hq => hq, fun _ _ hq hnot => absurd hq hnot, by simp, List.nodup_nil⟩

variable {u u' : Unset}

/-- Clearing an entry that leads nowhere. -/
theorem Reduced.clear (h : Reduced root owner mem0 u) (hs : SlotAt root owner u.mem r a)
    (hr : r ≠ []) (hnot : ¬ Leads r.length (u.mem a)) : Reduced root owner mem0 (u.clear a) := by
  have hlinks : ∀ q t, Links root (u.clear a).mem q t ↔ Links root u.mem q t := fun q t =>
    (hs.links_clear h.owned hr).trans (and_iff_left_of_imp fun hq => hs.no_links hr hnot hq)
  refine ⟨owned_clear h.owned hs.owner hr, fun q t hq => h.kept q t ((hlinks q t).mp hq),
    fun q t hq hgone => h.gone q t hq fun hu => hgone ((hlinks q t).mpr hu), fun x hx => ?_,
    h.nodup⟩
  obtain ⟨hsize, hempty, q, hq, hgone⟩ := h.freed x hx
  exact ⟨hsize, hempty.clear a, q, hq, fun hu => hgone ((hlinks q x.1).mp hu)⟩

/-- Freeing a table that has become empty. -/
theorem Reduced.prune (h : Reduced root owner mem0 u)
    (h0 : Radix.Owned (child root) (read mem0) none owner) (hs : SlotAt root owner u.mem r a)
    (hr : r ≠ []) (hleads : Leads r.length (u.mem a)) :
    Reduced root owner mem0 (u.prune (u.mem a &&& addrMask) a) := by
  rw [Unset.prune]
  split_ifs with hempty
  swap
  · exact h
  set t := u.mem a &&& addrMask with ht
  have hself : Links root u.mem r t := ⟨a, hs.stop, hleads, rfl⟩
  have hlinks : ∀ q t', Links root (Function.update u.mem a 0) q t' ↔
      Links root u.mem q t' ∧ ¬ r <+: q := fun q t' => hs.links_clear h.owned hr
  have hnotself : ¬ Links root (Function.update u.mem a 0) r t := fun hl =>
    ((hlinks r t).mp hl).2 (List.prefix_refl r)
  rw [page4KB_eq]
  refine ⟨owned_clear h.owned hs.owner hr, fun q t' hq => h.kept q t' ((hlinks q t').mp hq).1,
    fun q t' hq hgone => ?_, fun x hx => ?_, ?_⟩
  · rw [Unset.clear, List.mem_append, List.mem_singleton]
    by_cases hu : Links root u.mem q t'
    · -- only the table itself is behind the entry
      have hpre : r <+: q := not_not.mp fun hnot => hgone ((hlinks q t').mpr ⟨hu, hnot⟩)
      exact .inr (by rw [(hs.links_of_empty hr hleads hempty hpre hu).2])
    · exact .inl (h.gone q t' hq hu)
  · rw [Unset.clear, List.mem_append, List.mem_singleton] at hx
    obtain hx | rfl := hx
    · obtain ⟨hsize, hempty', q, hq, hgone⟩ := h.freed x hx
      exact ⟨hsize, hempty'.clear a, q, hq, fun hu => hgone ((hlinks q x.1).mp hu).1⟩
    · exact ⟨rfl, hempty.clear a, r, h.kept r t hself, hnotself⟩
  · rw [Unset.clear]
    refine List.nodup_append.mpr ⟨h.nodup, List.nodup_singleton _, fun x hx y hy hxy => ?_⟩
    rw [List.mem_singleton] at hy
    subst hxy hy
    obtain ⟨-, -, q, hq, hgone⟩ := h.freed _ hx
    rw [links_unique h0 hq (h.kept r t hself)] at hgone
    exact hgone hself

/-- **The freed pages**: those of the tables that are gone. -/
theorem Reduced.freed_iff (h : Reduced root owner mem0 u)
    (h0 : Radix.Owned (child root) (read mem0) none owner) (x : ℕ × ℕ) :
    x ∈ u.freed ↔ x.2 = 2 ^ 12 ∧ (∃ q, Links root mem0 q x.1) ∧
      (∀ q, ¬ Links root u.mem q x.1) ∧ xtIsTableEmpty u.mem x.1 := by
  constructor
  · intro hx
    obtain ⟨hsize, hempty, q, hq, hgone⟩ := h.freed x hx
    refine ⟨hsize, ⟨q, hq⟩, fun q' hq' => hgone ?_, hempty⟩
    rwa [links_unique h0 hq (h.kept q' x.1 hq')]
  · rintro ⟨hsize, ⟨q, hq⟩, hnone, -⟩
    have hmem := h.gone q x.1 hq (hnone q)
    rwa [← hsize] at hmem

/-! ### One pass -/

/-- A part of a pass: the leaf behind `p` is cleared, nothing is changed but behind `top`, and the
    tables that `p` leads through have been freed if they are empty, but for those above `top`. -/
structure Part (root : ℕ) (owner : Option ℕ → Option (List (Fin 512))) (mem0 : ℕ → ℕ)
    (p top : List (Fin 512)) (u u' : Unset) : Prop where
  reduced : Reduced root owner mem0 u'
  leaves (q : List (Fin 512)) : q.length = 4 →
    leaf u'.mem root q = if p <+: q then none else leaf u.mem root q
  slots (q : List (Fin 512)) (b : ℕ) : ¬ top <+: q → SlotAt root owner u.mem q b →
    SlotAt root owner u'.mem q b ∧ u'.mem b = u.mem b
  below : top <+: p
  kept (q : List (Fin 512)) (t : ℕ) : Links root u'.mem q t → Links root u.mem q t
  cut (q : List (Fin 512)) (t : ℕ) : Links root u.mem q t → ¬ Links root u'.mem q t → q <+: p
  full {touched : List (Fin 512) → Prop} (q : List (Fin 512)) (t : ℕ) :
    (∀ q t, Links root u.mem q t → touched q → ¬ xtIsTableEmpty u.mem t) →
      (q <+: top → q = top) → Links root u'.mem q t → touched q ∨ q <+: p →
        ¬ xtIsTableEmpty u'.mem t

theorem Part.clear (h : Reduced root owner mem0 u) (hs : SlotAt root owner u.mem r a)
    (hr : r ≠ []) (hnot : ¬ Leads r.length (u.mem a)) :
    Part root owner mem0 r r u (u.clear a) := by
  have hlinks : ∀ q t, Links root (u.clear a).mem q t ↔ Links root u.mem q t := fun q t =>
    (hs.links_clear h.owned hr).trans (and_iff_left_of_imp fun hq => hs.no_links hr hnot hq)
  refine ⟨h.clear hs hr hnot, fun q _ => hs.leaf_clear h.owned hr q,
    fun _ _ hmiss hb => hs.clear h.owned hb hmiss, List.prefix_refl r,
    fun q t => (hlinks q t).mp, fun q t hq hcut => absurd ((hlinks q t).mpr hq) hcut,
    fun q t hfull htop hq htouched => ?_⟩
  rw [hlinks] at hq
  have hmiss : ¬ q <+: r := fun hpre => hs.no_links hr hnot hq (htop hpre ▸ List.prefix_refl q)
  rw [Unset.clear, hq.empty_clear_iff h.owned hs.owner hmiss]
  exact hfull q t hq (htouched.resolve_right hmiss)

/-- The next table up. -/
theorem Part.prune {p : List (Fin 512)} {i : Fin 512} (hp : Part root owner mem0 p (r ++ [i]) u u')
    (h0 : Radix.Owned (child root) (read mem0) none owner) (hs : SlotAt root owner u.mem r a)
    (hr : r ≠ []) (hleads : Leads r.length (u.mem a)) :
    Part root owner mem0 p r u (u'.prune (u.mem a &&& addrMask) a) := by
  have hlonger : ¬ r ++ [i] <+: r := fun hpre => by simpa using hpre.length_le
  have hbelow := (List.prefix_append r [i]).trans hp.below
  obtain ⟨hs', hword⟩ := hp.slots r a hlonger hs
  have hreduced := hp.reduced.prune h0 hs' hr (hword ▸ hleads)
  rw [← hword] at hleads ⊢
  rw [Unset.prune] at hreduced ⊢
  split_ifs with hempty
  swap
  · -- the table is still in use
    refine ⟨hp.reduced, hp.leaves, fun q b hmiss hb => ?_, hbelow, hp.kept, hp.cut,
      fun q t hfull htop hq htouched => ?_⟩
    · exact hp.slots q b (fun hpre => hmiss ((List.prefix_append r [i]).trans hpre)) hb
    · by_cases hqr : q <+: r
      · obtain rfl := htop hqr
        obtain ⟨b, hstop, -, rfl⟩ := hq
        obtain rfl : a = b := by simpa [hs'.stop] using hstop
        exact hempty
      · refine hp.full q t hfull (fun hpre => ?_) hq htouched
        obtain heq | hpre := List.prefix_concat_iff.mp hpre
        · exact heq
        · exact absurd hpre hqr
  rw [if_pos hempty] at hreduced
  have hleaves : ∀ q : List (Fin 512), q.length = 4 →
      leaf (Function.update u'.mem a 0) root q = leaf u'.mem root q := by
    intro q hq
    rw [hs'.leaf_clear hp.reduced.owned hr]
    split_ifs with hpre
    · obtain ⟨rest, rfl⟩ := hpre
      cases rest with
      | nil =>
        rw [List.append_nil] at hq
        exact absurd hleads.1 (by omega)
      | cons j rest => exact (hs'.leaf_of_empty hr hleads hempty j rest).symm
    · rfl
  have hlinks : ∀ q t, Links root (Function.update u'.mem a 0) q t ↔
      Links root u'.mem q t ∧ ¬ r <+: q := fun q t => hs'.links_clear hp.reduced.owned hr
  refine ⟨hreduced, fun q hq => (hleaves q hq).trans (hp.leaves q hq), fun q b hmiss hb => ?_, hbelow,
    fun q t hq => hp.kept q t ((hlinks q t).mp hq).1, fun q t hq hcut => ?_, fun q t hfull htop hq htouched => ?_⟩
  · have hmiss' : ¬ r ++ [i] <+: q := fun hpre => hmiss ((List.prefix_append r [i]).trans hpre)
    obtain ⟨hb', hword'⟩ := hp.slots q b hmiss' hb
    obtain ⟨hslot, hkeep⟩ := hs'.clear hp.reduced.owned hb' hmiss
    exact ⟨hslot, hkeep.trans hword'⟩
  · by_cases hu' : Links root u'.mem q t
    · have hpre : r <+: q := not_not.mp fun hnot => hcut ((hlinks q t).mpr ⟨hu', hnot⟩)
      rw [(hs'.links_of_empty hr hleads hempty hpre hu').1]
      exact hbelow
    · exact hp.cut q t hq hu'
  · obtain ⟨hq', hnot⟩ := (hlinks q t).mp hq
    have hmiss : ¬ q <+: r := fun hpre => hnot (htop hpre ▸ List.prefix_refl q)
    change ¬ xtIsTableEmpty (Function.update u'.mem a 0) t
    rw [hq'.empty_clear_iff hp.reduced.owned hs'.owner hmiss]
    refine hp.full q t hfull (fun hpre => ?_) hq' htouched
    obtain heq | hpre := List.prefix_concat_iff.mp hpre
    · exact heq
    · exact absurd hpre hmiss

theorem SlotAt.gapLevel_eq {va : ℕ} {rest : List (Fin 512)} (hs : SlotAt root owner mem r a)
    (hr : r ≠ []) (hnot : ¬ Leads r.length (mem a)) (hpath : path va = r ++ rest) :
    gapLevel mem root va = rest.length := by
  rw [gapLevel, hpath, Radix.stop_append hs.stop, zero_add,
    stop_of_not_leads (by simpa using hr) hnot]

/-- Behind an absent entry there are no leaves. -/
theorem SlotAt.leaf_of_absent (hs : SlotAt root owner mem r a) (hr : r ≠ [])
    (habsent : mem a &&& pPresent = 0) (q : List (Fin 512)) :
    leaf mem root q = if r <+: q then none else leaf mem root q := by
  split_ifs with hpre
  · obtain ⟨rest, rfl⟩ := hpre
    have hstop := Radix.stop_append hs.stop rest
    rw [zero_add, stop_of_not_leads (by simpa using hr) fun hl => hl.2.1 habsent] at hstop
    rw [leaf_of_stop hstop, if_pos habsent]
  · rfl

/-- A present entry that leads nowhere is the leaf behind it. -/
theorem SlotAt.leaf_of_present (hs : SlotAt root owner mem r a) (hr : r ≠ [])
    (hnot : ¬ Leads r.length (mem a)) (hpresent : mem a &&& pPresent ≠ 0) (rest : List (Fin 512)) :
    leaf mem root (r ++ rest) = some (mem a, rest.length) := by
  have hstop := Radix.stop_append hs.stop rest
  rw [zero_add, stop_of_not_leads (by simpa using hr) hnot] at hstop
  rw [leaf_of_stop hstop, if_neg hpresent]

/-- The walk to an address gets to a leaf or to a last table. -/
def Solid (mem : ℕ → ℕ) (root v : ℕ) : Prop :=
  leaf mem root (path v) ≠ none ∨ ∃ t, Links root mem (leafSlot 1 v) t

theorem SlotAt.not_solid {va : ℕ} {rest : List (Fin 512)} (hs : SlotAt root owner mem r a)
    (hr : r ≠ []) (habsent : mem a &&& pPresent = 0) (hpath : path va = r ++ rest)
    (hpre : r <+: leafSlot 1 va) : ¬ Solid mem root va := by
  rintro (hleaf | ⟨t, ht⟩)
  · rw [hpath, hs.leaf_of_absent hr habsent, if_pos (List.prefix_append r rest)] at hleaf
    exact hleaf rfl
  · exact hs.no_links hr (fun hl => hl.2.1 habsent) ht hpre

/-- A pass clears the leaf of its address and the tables that are empty then, or there is nothing to
    clear. Its step is the size of the leaf or of the gap there. -/
theorem unsetPage_part {pml4 va : ℕ} (h : Reduced (higherHalfMem pml4) owner mem0 u)
    (h0 : Radix.Owned (child (higherHalfMem pml4)) (read mem0) none owner)
    (hpresent : u.mem (tableEntry pml4 (index va 39)) &&& pPresent ≠ 0) :
    (unsetPage u pml4 va).2 = 2 ^ (12 + 9 * gapLevel u.mem (higherHalfMem pml4) va) ∧
    ((unsetPage u pml4 va).1 = u ∧ ¬ Solid u.mem (higherHalfMem pml4) va ∨
      Solid u.mem (higherHalfMem pml4) va ∧
        Part (higherHalfMem pml4) owner mem0 (leafSlot (gapLevel u.mem (higherHalfMem pml4) va) va)
          [index va 39] u (unsetPage u pml4 va).1) := by
  rw [unsetPage]
  dsimp only
  rw [if_neg hpresent]
  -- the slots on the way to the address, one table after the other
  set a1 := tableEntry pml4 (index va 39)
  have s1 : SlotAt (higherHalfMem pml4) owner u.mem [index va 39] a1 :=
    ⟨rfl, h.owned.child h.owned.root (child_zero _ _ _)⟩
  have hl1 : Leads 1 (u.mem a1) := ⟨by decide, hpresent, .inl rfl⟩
  have s2 := s1.next h.owned (List.cons_ne_nil _ _) hl1 (index va 30)
  rw [List.singleton_append] at s2
  set a2 := tableEntry (u.mem a1 &&& addrMask) (index va 30)
  have hend2 : ¬ Leads 2 (u.mem a2) → gapLevel u.mem (higherHalfMem pml4) va = 2 := fun hnot =>
    s2.gapLevel_eq (List.cons_ne_nil _ _) hnot rfl
  split_ifs with h2 h2' h3 h3'
  · rw [hend2 fun hl => hl.2.1 h2]
    exact ⟨page1GB_eq, .inl ⟨rfl, s2.not_solid (List.cons_ne_nil _ _) h2 rfl ⟨[_], rfl⟩⟩⟩
  · have hnot : ¬ Leads 2 (u.mem a2) := fun hl => hl.2.2.elim (by decide) h2'
    have hleaf := s2.leaf_of_present (List.cons_ne_nil _ _) hnot h2 [index va 21, index va 12]
    have hpart := (Part.clear h s2 (List.cons_ne_nil _ _) hnot).prune (i := index va 30) h0 s1
      (List.cons_ne_nil _ _) hl1
    rw [hend2 hnot]
    dsimp only
    exact ⟨page1GB_eq, .inr ⟨.inl (Option.ne_none_iff_exists'.mpr ⟨_, hleaf⟩), hpart⟩⟩
  all_goals
    have hl2 : Leads 2 (u.mem a2) := ⟨by decide, h2, .inr (not_not.mp h2')⟩
    have s3 := s2.next h.owned (List.cons_ne_nil _ _) hl2 (index va 21)
    rw [List.cons_append, List.singleton_append] at s3
    set a3 := tableEntry (u.mem a2 &&& addrMask) (index va 21)
    have hend3 : ¬ Leads 3 (u.mem a3) → gapLevel u.mem (higherHalfMem pml4) va = 1 := fun hnot =>
      s3.gapLevel_eq (List.cons_ne_nil _ _) hnot rfl
  · rw [hend3 fun hl => hl.2.1 h3]
    exact ⟨page2MB_eq, .inl ⟨rfl, s3.not_solid (List.cons_ne_nil _ _) h3 rfl (List.prefix_refl _)⟩⟩
  · have hnot : ¬ Leads 3 (u.mem a3) := fun hl => hl.2.2.elim (by decide) h3'
    have hleaf := s3.leaf_of_present (List.cons_ne_nil _ _) hnot h3 [index va 12]
    have hpart := ((Part.clear h s3 (List.cons_ne_nil _ _) hnot).prune (r := [_, _])
      (i := index va 21) h0 s2 (List.cons_ne_nil _ _) hl2).prune (r := [_]) (i := index va 30) h0 s1
      (List.cons_ne_nil _ _) hl1
    rw [hend3 hnot]
    dsimp only
    exact ⟨page2MB_eq, .inr ⟨.inl (Option.ne_none_iff_exists'.mpr ⟨_, hleaf⟩), hpart⟩⟩
  · have hl3 : Leads 3 (u.mem a3) := ⟨by decide, h3, .inr (not_not.mp h3')⟩
    have s4 := s3.next h.owned (List.cons_ne_nil _ _) hl3 (index va 12)
    have hnot : ¬ Leads 4 (u.mem (tableEntry (u.mem a3 &&& addrMask) (index va 12))) := fun hl =>
      absurd hl.1 (lt_irrefl 4)
    have hlevel : gapLevel u.mem (higherHalfMem pml4) va = 0 :=
      s4.gapLevel_eq (List.cons_ne_nil _ _) hnot rfl
    have hpart := (((Part.clear h s4 (List.cons_ne_nil _ _) hnot).prune (r := [_, _, _])
      (i := index va 12) h0 s3 (List.cons_ne_nil _ _) hl3).prune (r := [_, _])
      (i := index va 21) h0 s2 (List.cons_ne_nil _ _) hl2).prune (r := [_]) (i := index va 30) h0 s1
      (List.cons_ne_nil _ _) hl1
    rw [hlevel]
    dsimp only
    exact ⟨page4KB_eq, .inr ⟨.inr ⟨_, a3, s3.stop, hl3, rfl⟩, hpart⟩⟩

/-- **One pass** clears the leaf of its address. -/
theorem unsetPage_spec {pml4 va : ℕ} (h : Reduced (higherHalfMem pml4) owner mem0 u)
    (h0 : Radix.Owned (child (higherHalfMem pml4)) (read mem0) none owner)
    (hpresent : u.mem (tableEntry pml4 (index va 39)) &&& pPresent ≠ 0) :
    Reduced (higherHalfMem pml4) owner mem0 (unsetPage u pml4 va).1 ∧
    ∀ v, leaf (unsetPage u pml4 va).1.mem (higherHalfMem pml4) (path v) =
      if leafSlot (gapLevel u.mem (higherHalfMem pml4) va) v =
          leafSlot (gapLevel u.mem (higherHalfMem pml4) va) va then none
      else leaf u.mem (higherHalfMem pml4) (path v) := by
  obtain ⟨-, ⟨hsame, hsolid⟩ | ⟨-, hpart⟩⟩ := unsetPage_part h h0 hpresent
  · rw [hsame]
    refine ⟨h, fun v => ?_⟩
    split_ifs with hslot
    · rw [leaf_eq_of_gap hslot]
      exact not_not.mp fun hne => hsolid (.inl hne)
    · rfl
  · refine ⟨hpart.reduced, fun v => (hpart.leaves (path v) rfl).trans ?_⟩
    simp only [leafSlot_prefix_iff]

/-! ### Runs -/

/-- The range has been removed: it is not mapped any more, all other addresses are mapped as before,
    and the pages freed are those of the tables without entries that nothing leads to any more. -/
structure Removes (mem : ℕ → ℕ) (u' : Unset) (pageTable va size : ℕ) : Prop where
  unmapped (v : ℕ) : va ≤ v → v < va + size →
    xtGetPhysicalAddress u'.mem pageTable v = .error .notFound
  kept (v : ℕ) : Canonical v → ¬ (va ≤ v ∧ v < va + size) →
    xtGetPhysicalAddress u'.mem pageTable v = xtGetPhysicalAddress mem pageTable v
  once : u'.freed.Nodup
  freed (x : ℕ × ℕ) : x ∈ u'.freed ↔ x.2 = 2 ^ 12 ∧
    (∃ q, Links (higherHalfMem pageTable) mem q x.1) ∧
    (∀ q, ¬ Links (higherHalfMem pageTable) u'.mem q x.1) ∧ xtIsTableEmpty u'.mem x.1

/-- The step of the next pass. -/
def stride (pml4 : ℕ) (r : Rest) : ℕ :=
  2 ^ (12 + 9 * gapLevel r.unset.mem (higherHalfMem pml4) r.va)

/-- Nothing goes wrong at an address with a step: no leaf is cleared that is partly outside the range,
    and each leaf that is moved past inside the range is the one of the address or that of the next
    address. -/
structure Clean (mem : ℕ → ℕ) (root lo hi va step : ℕ) : Prop where
  whole (e k v : ℕ) : leaf mem root (path va) = some (e, k) →
    v / 2 ^ (12 + 9 * k) = va / 2 ^ (12 + 9 * k) → lo ≤ v ∧ v < hi
  past (e k v : ℕ) : leaf mem root (path v) = some (e, k) → va ≤ v → v < va + step → v < hi →
    v / 2 ^ (12 + 9 * k) = va / 2 ^ (12 + 9 * k) ∨
      va + step < hi ∧ v / 2 ^ (12 + 9 * k) = (va + step) / 2 ^ (12 + 9 * k)

/-- Nothing goes wrong in the next pass. -/
def Rest.Clean (pml4 lo hi : ℕ) (r : Rest) : Prop :=
  XTOS.Paging.Clean r.unset.mem (higherHalfMem pml4) lo hi r.va (stride pml4 r)

/-- While there is something left, a pass is in the range. -/
def Within (lo hi : ℕ) (r : Rest) : Prop :=
  r.size ≠ 0 → lo ≤ r.va ∧ r.va + r.size = hi

section run

variable {pml4 lo hi fuel : ℕ} {rest : Rest}

theorem unsetLoop_present (hva : rest.va < 2 ^ 64) (hsize : rest.size ≠ 0)
    (hloop : unsetLoop pml4 fuel rest = some u') : rest.Present pml4 :=
  (unsetLoop_returns_iff hva).mp ⟨fuel, u', hloop⟩ 0 hsize

/-- A pass as a step of the loop. -/
theorem unsetPass_spec (h : Reduced (higherHalfMem pml4) owner mem0 rest.unset)
    (h0 : Radix.Owned (child (higherHalfMem pml4)) (read mem0) none owner)
    (hpresent : rest.Present pml4) :
    (unsetPage rest.unset pml4 rest.va).2 = stride pml4 rest ∧
    Reduced (higherHalfMem pml4) owner mem0 (unsetPass pml4 rest).unset ∧
    ∀ v, leaf (unsetPass pml4 rest).unset.mem (higherHalfMem pml4) (path v) =
      if leafSlot (gapLevel rest.unset.mem (higherHalfMem pml4) rest.va) v =
          leafSlot (gapLevel rest.unset.mem (higherHalfMem pml4) rest.va) rest.va then none
      else leaf rest.unset.mem (higherHalfMem pml4) (path v) := by
  exact ⟨(unsetPage_part h h0 hpresent).1, unsetPage_spec h h0 hpresent⟩

theorem Within.pass (h : Within lo hi rest) (hhi : hi ≤ 2 ^ 64) (hsize : rest.size ≠ 0)
    (hstep : (unsetPage rest.unset pml4 rest.va).2 = stride pml4 rest) :
    Within lo hi (unsetPass pml4 rest) ∧
    ((unsetPass pml4 rest).size ≠ 0 ↔ rest.va + stride pml4 rest < hi) ∧
    (rest.va + stride pml4 rest < hi →
      (unsetPass pml4 rest).va = rest.va + stride pml4 rest) := by
  obtain ⟨hlo, hend⟩ := h hsize
  have hva' : (unsetPass pml4 rest).va = (rest.va + stride pml4 rest) % 2 ^ 64 := by
    rw [← hstep]
    rfl
  have hsize' : (unsetPass pml4 rest).size = rest.size - stride pml4 rest := by
    have hdef : (unsetPass pml4 rest).size = if rest.size ≥ stride pml4 rest then
        rest.size - stride pml4 rest else 0 := by
      rw [← hstep]
      rfl
    rw [hdef]
    split_ifs <;> omega
  have hnext : rest.va + stride pml4 rest < hi →
      (unsetPass pml4 rest).va = rest.va + stride pml4 rest := fun hlt => by
    rw [hva', Nat.mod_eq_of_lt (hlt.trans_le hhi)]
  refine ⟨fun hpos => ?_, by omega, hnext⟩
  rw [hsize'] at hpos ⊢
  rw [hnext (by omega)]
  omega

/-- **Runs**: what holds at the end and comes from the next pass holds at the start. -/
theorem unsetLoop_induct {M : Rest → Prop}
    (h0 : Radix.Owned (child (higherHalfMem pml4)) (read mem0) none owner) (hhi : hi ≤ 2 ^ 64)
    (hloop : unsetLoop pml4 fuel rest = some u')
    (hreduced : Reduced (higherHalfMem pml4) owner mem0 rest.unset) (hin : Within lo hi rest)
    (hend : ∀ r, r.size = 0 → Reduced (higherHalfMem pml4) owner mem0 r.unset → r.unset = u' → M r)
    (hstep : ∀ r fuel, r.size ≠ 0 → r.Present pml4 →
      Reduced (higherHalfMem pml4) owner mem0 r.unset → Within lo hi r →
      unsetLoop pml4 fuel (unsetPass pml4 r) = some u' → M (unsetPass pml4 r) → M r) :
    M rest := by
  induction fuel generalizing rest with
  | zero => cases hloop
  | succ fuel ih =>
    by_cases hsize : rest.size = 0
    · rw [unsetLoop, if_pos hsize, Option.some.injEq] at hloop
      exact hend rest hsize hreduced hloop
    · obtain ⟨-, hlast⟩ := hin hsize
      have hpresent := unsetLoop_present (by omega) hsize hloop
      obtain ⟨hstride, hreduced', -⟩ := unsetPass_spec hreduced h0 hpresent
      rw [unsetLoop, if_neg hsize] at hloop
      exact hstep rest fuel hsize hpresent hreduced hin hloop
        (ih hloop hreduced' (hin.pass hhi hsize hstride).1)

theorem unsetLoop_reduced
    (h0 : Radix.Owned (child (higherHalfMem pml4)) (read mem0) none owner) (hhi : hi ≤ 2 ^ 64)
    (hloop : unsetLoop pml4 fuel rest = some u')
    (hreduced : Reduced (higherHalfMem pml4) owner mem0 rest.unset) (hin : Within lo hi rest) :
    Reduced (higherHalfMem pml4) owner mem0 u' :=
  unsetLoop_induct (M := fun _ => Reduced (higherHalfMem pml4) owner mem0 u') h0 hhi hloop hreduced
    hin (fun _ _ hr heq => heq ▸ hr) fun _ _ _ _ _ _ _ h => h

/-- A leaf that is there at the end was there before. -/
theorem unsetLoop_mono
    (h0 : Radix.Owned (child (higherHalfMem pml4)) (read mem0) none owner) (hhi : hi ≤ 2 ^ 64)
    (hloop : unsetLoop pml4 fuel rest = some u')
    (hreduced : Reduced (higherHalfMem pml4) owner mem0 rest.unset) (hin : Within lo hi rest) :
    ∀ v x, leaf u'.mem (higherHalfMem pml4) (path v) = some x →
      leaf rest.unset.mem (higherHalfMem pml4) (path v) = some x := by
  refine unsetLoop_induct (M := fun r => ∀ v x,
    leaf u'.mem (higherHalfMem pml4) (path v) = some x →
      leaf r.unset.mem (higherHalfMem pml4) (path v) = some x) h0 hhi hloop hreduced hin ?_ ?_
  · rintro r - - rfl
    exact fun _ _ hx => hx
  · intro r _ _ hpresent hr _ _ hrest v x hx
    have hleaf := (unsetPass_spec hr h0 hpresent).2.2 v
    rw [hrest v x hx] at hleaf
    split_ifs at hleaf
    exact hleaf.symm

/-- A leaf that is gone at the end was the one of the address of a pass. -/
theorem unsetLoop_cleared
    (h0 : Radix.Owned (child (higherHalfMem pml4)) (read mem0) none owner) (hhi : hi ≤ 2 ^ 64)
    (hcanonical : ∀ w, lo ≤ w → w < hi → Canonical w)
    (hloop : unsetLoop pml4 fuel rest = some u')
    (hreduced : Reduced (higherHalfMem pml4) owner mem0 rest.unset) (hin : Within lo hi rest) :
    ∀ v e k, Canonical v → leaf rest.unset.mem (higherHalfMem pml4) (path v) = some (e, k) →
      leaf u'.mem (higherHalfMem pml4) (path v) = none →
      rest.size ≠ 0 ∧ ∃ w, rest.va ≤ w ∧ w < hi ∧ v / 2 ^ (12 + 9 * k) = w / 2 ^ (12 + 9 * k) ∧
        (w = rest.va ∨ rest.va + stride pml4 rest ≤ w) := by
  refine unsetLoop_induct (M := fun r => ∀ v e k, Canonical v →
    leaf r.unset.mem (higherHalfMem pml4) (path v) = some (e, k) →
      leaf u'.mem (higherHalfMem pml4) (path v) = none →
      r.size ≠ 0 ∧ ∃ w, r.va ≤ w ∧ w < hi ∧ v / 2 ^ (12 + 9 * k) = w / 2 ^ (12 + 9 * k) ∧
        (w = r.va ∨ r.va + stride pml4 r ≤ w)) h0 hhi hloop hreduced hin ?_ ?_
  · rintro r - - rfl v e k - hsome hnone
    rw [hsome] at hnone
    cases hnone
  · intro r _ hsize hpresent hr hwithin _ hrest v e k hv hsome hnone
    obtain ⟨hlo, hend⟩ := hwithin hsize
    obtain ⟨hstride, -, hleaves⟩ := unsetPass_spec hr h0 hpresent
    have hleaf := hleaves v
    refine ⟨hsize, ?_⟩
    split_ifs at hleaf with hslot
    · -- this pass clears it
      have hva : leaf r.unset.mem (higherHalfMem pml4) (path r.va) = some (e, k) := by
        rw [← leaf_eq_of_gap hslot, hsome]
      rw [← leaf_eq_gapLevel hva] at hslot
      have hpage := (leafSlot_eq_iff (leaf_level hva) hv (hcanonical r.va hlo (by omega))).mp hslot
      exact ⟨r.va, le_rfl, by omega, hpage, .inl rfl⟩
    · rw [hsome] at hleaf
      obtain ⟨hsize', w, hle, hlt, hpage, -⟩ := hrest v e k hv hleaf hnone
      obtain ⟨-, hiff, hnext⟩ := hwithin.pass hhi hsize hstride
      rw [hnext (hiff.mp hsize')] at hle
      exact ⟨w, (Nat.le_add_right _ _).trans hle, hlt, hpage, .inr hle⟩

/-- Clean passes remove what is left of the range, and nothing else. -/
theorem unsetLoop_clean
    (h0 : Radix.Owned (child (higherHalfMem pml4)) (read mem0) none owner) (hhi : hi ≤ 2 ^ 64)
    (hcanonical : ∀ w, lo ≤ w → w < hi → Canonical w)
    (hloop : unsetLoop pml4 fuel rest = some u')
    (hreduced : Reduced (higherHalfMem pml4) owner mem0 rest.unset) (hin : Within lo hi rest) :
    (∀ j, (passes pml4 rest j).size ≠ 0 → (passes pml4 rest j).Clean pml4 lo hi) →
      (∀ v, rest.size ≠ 0 → rest.va ≤ v → v < hi →
        leaf u'.mem (higherHalfMem pml4) (path v) = none) ∧
      ∀ v, Canonical v → ¬ (lo ≤ v ∧ v < hi) → leaf u'.mem (higherHalfMem pml4) (path v) =
        leaf rest.unset.mem (higherHalfMem pml4) (path v) := by
  refine unsetLoop_induct (M := fun r =>
    (∀ j, (passes pml4 r j).size ≠ 0 → (passes pml4 r j).Clean pml4 lo hi) →
      (∀ v, r.size ≠ 0 → r.va ≤ v → v < hi →
        leaf u'.mem (higherHalfMem pml4) (path v) = none) ∧
      ∀ v, Canonical v → ¬ (lo ≤ v ∧ v < hi) → leaf u'.mem (higherHalfMem pml4) (path v) =
        leaf r.unset.mem (higherHalfMem pml4) (path v)) h0 hhi hloop hreduced hin ?_ ?_
  · rintro r hsize - rfl -
    exact ⟨fun _ hpos => absurd hsize hpos, fun _ _ _ => rfl⟩
  · intro r fuel hsize hpresent hr hwithin hloop hrest hclean
    obtain ⟨hlo, hend⟩ := hwithin hsize
    obtain ⟨hstride, hr', hleaves⟩ := unsetPass_spec hr h0 hpresent
    obtain ⟨hwithin', hiff, hnext⟩ := hwithin.pass hhi hsize hstride
    obtain ⟨hgone, hsame⟩ := hrest fun j => passes_succ pml4 r j ▸ hclean (j + 1)
    have hmono := unsetLoop_mono h0 hhi hloop hr' hwithin'
    obtain ⟨hwhole, hpast⟩ := hclean 0 hsize
    have hva : Canonical r.va := hcanonical r.va hlo (by omega)
    refine ⟨fun v _ hle hlt => ?_, fun v hv hout => ?_⟩
    · by_cases hbehind : v < r.va + stride pml4 r
      · by_contra hne
        obtain ⟨⟨e, k⟩, hsome⟩ := Option.ne_none_iff_exists'.mp hne
        have hv := hcanonical v (hlo.trans hle) hlt
        have hsome' := hmono v _ hsome
        have hleaf := hleaves v
        rw [hsome'] at hleaf
        split_ifs at hleaf with hslot
        obtain hpage | ⟨hmore, hpage⟩ := hpast e k v hleaf.symm hle hbehind hlt
        · -- the leaf of the address has been cleared
          have hk := leaf_level hleaf.symm
          have heq := (leafSlot_eq_iff hk hv hva).mpr hpage
          have hleafva := leaf_of_leafSlot hleaf.symm heq.symm
          rw [leaf_eq_gapLevel hleafva] at heq
          exact hslot heq
        · -- and the next pass clears that of the next address
          have hk := leaf_level hsome
          have hlo' : lo ≤ r.va + stride pml4 r := hlo.trans (Nat.le_add_right _ _)
          have heq := (leafSlot_eq_iff hk hv (hcanonical _ hlo' hmore)).mpr hpage
          have hnone := hgone (r.va + stride pml4 r) (hiff.mpr hmore) (hnext hmore).le hmore
          rw [leaf_of_leafSlot hsome heq.symm] at hnone
          cases hnone
      · have hmore : r.va + stride pml4 r < hi := (not_lt.mp hbehind).trans_lt hlt
        refine hgone v (hiff.mpr hmore) ?_ hlt
        rw [hnext hmore]
        exact not_lt.mp hbehind
    · rw [hsame v hv hout, hleaves v]
      split_ifs with hslot
      · -- a leaf of this pass would be inside the range
        rw [leaf_eq_of_gap hslot]
        cases hleaf : leaf r.unset.mem (higherHalfMem pml4) (path r.va) with
        | none => rfl
        | some x =>
          obtain ⟨e, k⟩ := x
          rw [← leaf_eq_gapLevel hleaf] at hslot
          have hpage := (leafSlot_eq_iff (leaf_level hleaf) hv hva).mp hslot
          exact absurd (hwhole e k v hleaf hpage) hout
      · rfl

/-- The addresses of the page of a canonical address. -/
theorem canonical_of_page {k v w : ℕ} (hk : k ≤ 2) (hw : Canonical w)
    (hpage : v / 2 ^ (12 + 9 * k) = w / 2 ^ (12 + 9 * k)) : Canonical v := by
  unfold Canonical at hw ⊢
  interval_cases k <;> omega

/-- Passes that remove the range and nothing else are clean. -/
theorem clean_of_removed
    (h0 : Radix.Owned (child (higherHalfMem pml4)) (read mem0) none owner) (hhi : hi ≤ 2 ^ 64)
    (hcanonical : ∀ w, lo ≤ w → w < hi → Canonical w)
    (hgone : ∀ v, lo ≤ v → v < hi → leaf u'.mem (higherHalfMem pml4) (path v) = none)
    (hsame : ∀ v, Canonical v → ¬ (lo ≤ v ∧ v < hi) →
      leaf u'.mem (higherHalfMem pml4) (path v) = none →
        leaf mem0 (higherHalfMem pml4) (path v) = none)
    (hloop : unsetLoop pml4 fuel rest = some u')
    (hreduced : Reduced (higherHalfMem pml4) owner mem0 rest.unset) (hin : Within lo hi rest) :
    (∀ v x, leaf rest.unset.mem (higherHalfMem pml4) (path v) = some x →
      leaf mem0 (higherHalfMem pml4) (path v) = some x) →
      ∀ j, (passes pml4 rest j).size ≠ 0 → (passes pml4 rest j).Clean pml4 lo hi := by
  refine unsetLoop_induct (M := fun r =>
    (∀ v x, leaf r.unset.mem (higherHalfMem pml4) (path v) = some x →
      leaf mem0 (higherHalfMem pml4) (path v) = some x) →
      ∀ j, (passes pml4 r j).size ≠ 0 → (passes pml4 r j).Clean pml4 lo hi)
    h0 hhi hloop hreduced hin ?_ ?_
  · rintro r hsize - - - j hj
    exact absurd (passes_size_zero pml4 hsize j) hj
  · intro r fuel hsize hpresent hr hwithin hloop hrest hbefore
    obtain ⟨hlo, hend⟩ := hwithin hsize
    obtain ⟨hstride, hr', hleaves⟩ := unsetPass_spec hr h0 hpresent
    obtain ⟨hwithin', hiff, hnext⟩ := hwithin.pass hhi hsize hstride
    have hmono := unsetLoop_mono h0 hhi hloop hr' hwithin'
    have hva : Canonical r.va := hcanonical r.va hlo (by omega)
    have hbefore' : ∀ v x, leaf (unsetPass pml4 r).unset.mem (higherHalfMem pml4) (path v) = some x →
        leaf mem0 (higherHalfMem pml4) (path v) = some x := by
      intro v x hx
      have hleaf := hleaves v
      rw [hx] at hleaf
      split_ifs at hleaf
      exact hbefore v x hleaf.symm
    rintro (_ | j)
    swap
    · rw [← passes_succ]
      exact hrest hbefore' j
    rintro -
    change r.Clean pml4 lo hi
    refine ⟨fun e k v hleaf hpage => ?_, fun e k v hleaf hle hbehind hlt => ?_⟩
    · by_contra hout
      have hk := leaf_level hleaf
      have hv := canonical_of_page hk hva hpage
      have hslot := (leafSlot_eq_iff hk hv hva).mpr hpage
      have hv0 := hbefore v _ (leaf_of_leafSlot hleaf hslot)
      -- the pass clears the leaf
      rw [leaf_eq_gapLevel hleaf] at hslot
      have hnone := hleaves v
      rw [if_pos hslot] at hnone
      have hgone' : leaf u'.mem (higherHalfMem pml4) (path v) = none := by
        by_contra hne
        obtain ⟨x, hx⟩ := Option.ne_none_iff_exists'.mp hne
        rw [hmono v x hx] at hnone
        cases hnone
      rw [hsame v hv hout hgone'] at hv0
      cases hv0
    · have hv := hcanonical v (hlo.trans hle) hlt
      have hloop' : unsetLoop pml4 (fuel + 1) r = some u' := by rw [unsetLoop, if_neg hsize, hloop]
      obtain ⟨-, w, -, hwlt, hpage, rfl | hw⟩ := unsetLoop_cleared h0 hhi hcanonical hloop' hr
        hwithin v e k hv hleaf (hgone v (hlo.trans hle) hlt)
      · exact .inl hpage
      · -- the address the pass moves to is between them
        refine .inr ⟨hw.trans_lt hwlt, le_antisymm (Nat.div_le_div_right hbehind.le) ?_⟩
        rw [hpage]
        exact Nat.div_le_div_right hw

end run

/-- **When a call removes the range**: in an unshared tree a call that returns leaves the range
    unmapped and all else as it was, with the empty tables freed, exactly if all its passes are
    clean. -/
theorem removes_iff_passes {pageTable va size fuel : ℕ} {r : XTResult} (hne : pageTable ≠ 0)
    (hunshared : ∀ p q slot, Reaches mem pageTable p slot → Reaches mem pageTable q slot → p = q)
    (hhalf : InHalf va size) (hcall : xtUnsetPages fuel ⟨mem, []⟩ pageTable va size = some (u', r)) :
    Removes mem u' pageTable va size ↔
      ∀ j, (passes pageTable ⟨⟨mem, []⟩, va, size⟩ j).size ≠ 0 →
        (passes pageTable ⟨⟨mem, []⟩, va, size⟩ j).Clean pageTable va (va + size) := by
  obtain ⟨owner, h0, -⟩ := Radix.exists_owned (fun p q slot => hunshared p q slot)
  have hhi : va + size ≤ 2 ^ 64 := by
    unfold InHalf at hhalf
    omega
  have hcanonical : ∀ w, va ≤ w → w < va + size → Canonical w := fun w => hhalf.canonical
  have hin : Within va (va + size) ⟨⟨mem, []⟩, va, size⟩ := fun _ => ⟨le_rfl, rfl⟩
  rw [xtUnsetPages, if_neg hne, Option.map_eq_some_iff] at hcall
  obtain ⟨u, hloop, heq⟩ := hcall
  obtain rfl : u = u' := congrArg Prod.fst heq
  have hreduced := unsetLoop_reduced h0 hhi hloop (.refl h0) hin
  constructor
  · intro h
    refine clean_of_removed h0 hhi hcanonical (fun v hle hlt => ?_) (fun v hv hout hnone => ?_) hloop
      (.refl h0) hin fun _ _ hx => hx
    · exact (notFound_iff hne).mp (h.unmapped v hle hlt)
    · have hkept := h.kept v hv hout
      rwa [(notFound_iff hne).mpr hnone, eq_comm, notFound_iff hne] at hkept
  · intro hclean
    obtain ⟨hgone, hsame⟩ := unsetLoop_clean h0 hhi hcanonical hloop (.refl h0) hin hclean
    refine ⟨fun v hle hlt => ?_, fun v hv hout => ?_, hreduced.nodup, hreduced.freed_iff h0⟩
    · exact (notFound_iff hne).mpr (hgone v (by dsimp only; omega) hle hlt)
    · rw [xtGetPhysicalAddress_eq hne, xtGetPhysicalAddress_eq hne, hsame v hv hout]

end XTOS.Paging

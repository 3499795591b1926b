import Mathlib.Data.List.GetD
import XTOS.Encodings
import XTOS.Lib.Memory

/-!
# What the converters read

`xtUTF8toUTF16` and `xtUTF16toUTF8` of `xtkernel/encodings.c` on strings in memory, with the
addresses they read. Both take several elements at once after a look at the first one.

## Main definitions

- `ZeroTerminated` — a string in memory
- `utf8Memory`, `utf16Memory` — the converters with what they read
- `Sequences`, `Pairs` — strings in which no sequence goes beyond the terminator

## Main results

- `utf8Memory_eq`, `utf16Memory_eq` — on such a string the converters are those on lists, and
  read the string and its terminator
- `reads_within_iff` — on no other string do they stay in front of what follows the terminator
-/

namespace XTOS.Encodings

open SysLib

/-- The string `s` with its terminator at `p`. -/
structure ZeroTerminated {α : Type*} [OfNat α 0] (mem : ℕ → α) (p : ℕ) (s : List α) : Prop where
  ne_zero : ∀ x ∈ s, x ≠ 0
  chars : ∀ i (h : i < s.length), mem (p + i) = s[i]
  stop : mem (p + s.length) = 0

/-- `xtUTF8toUTF16` at `utf8`: the units it appends, and the addresses it reads. -/
def utf8Memory (mem : ℕ → UInt8) : ℕ → ℕ → Option (List ℕ × List ℕ)
  | 0, _ => none
  | fuel + 1, utf8 =>
    if mem utf8 = 0 then some ([], [utf8])
    else
      let (units, used) := utf8Step (load mem utf8 4)
      (utf8Memory mem fuel (utf8 + used)).map fun r =>
        (units ++ r.1, List.range' utf8 used ++ r.2)

/-- `xtUTF16toUTF8` from the unit `i` on: the bytes it appends, and the units it reads. -/
def utf16Memory (utf16 : ℕ → UInt16) : ℕ → ℕ → Option (List UInt8 × List ℕ)
  | 0, _ => none
  | fuel + 1, i =>
    if utf16 i = 0 then some ([], [i])
    else
      let high := (utf16 i).toNat
      if 0xD800 ≤ high ∧ high ≤ 0xDBFF then
        (utf16Memory utf16 fuel (i + 2)).map fun r =>
          (utf8Bytes (surrogatePair high (utf16 (i + 1)).toNat) ++ r.1, i :: (i + 1) :: r.2)
      else (utf16Memory utf16 fuel (i + 1)).map fun r => (utf8Bytes high ++ r.1, i :: r.2)

/-- The bytes that a sequence has by its first one; a byte that starts none counts alone. -/
def sequenceLength (b : UInt8) : ℕ :=
  if b.toNat &&& 0xE0 = 0xC0 then 2
  else if b.toNat &&& 0xF0 = 0xE0 then 3
  else if b.toNat &&& 0xF8 = 0xF0 then 4
  else 1

/-- One sequence after the other, each as long as its first byte says. -/
inductive Sequences : List UInt8 → Prop
  | nil : Sequences []
  | cons {b : UInt8} {s : List UInt8} : sequenceLength b ≤ s.length + 1 →
      Sequences ((b :: s).drop (sequenceLength b)) → Sequences (b :: s)

/-- A unit that starts a surrogate pair. -/
def isHigh (u : UInt16) : Prop := 0xD800 ≤ u.toNat ∧ u.toNat ≤ 0xDBFF

instance (u : UInt16) : Decidable (isHigh u) := inferInstanceAs (Decidable (_ ∧ _))

/-- Each unit that starts a pair has one behind it, which is not looked at. -/
inductive Pairs : List UInt16 → Prop
  | nil : Pairs []
  | single {u : UInt16} {s : List UInt16} : ¬ isHigh u → Pairs s → Pairs (u :: s)
  | pair {u v : UInt16} {s : List UInt16} : isHigh u → Pairs s → Pairs (u :: v :: s)

/-- A run that ends and reads nothing behind an address. -/
def EndsWithin {α : Type*} (run : ℕ → Option (α × List ℕ)) (last : ℕ) : Prop :=
  ∃ fuel r, run fuel = some r ∧ ∀ a ∈ r.2, a ≤ last

/-! ### Strings in memory -/

section strings

variable {α : Type*} [OfNat α 0] {mem : ℕ → α} {p : ℕ} {x : α} {s : List α}

theorem ZeroTerminated.first (h : ZeroTerminated mem p (x :: s)) : mem p = x ∧ x ≠ 0 :=
  ⟨h.chars 0 (by simp), h.ne_zero x List.mem_cons_self⟩

theorem ZeroTerminated.empty (h : ZeroTerminated mem p []) : mem p = 0 := h.stop

theorem ZeroTerminated.drop (h : ZeroTerminated mem p s) {n : ℕ} (hn : n ≤ s.length) :
    ZeroTerminated mem (p + n) (s.drop n) where
  ne_zero x hx := h.ne_zero x (List.mem_of_mem_drop hx)
  chars i hi := by
    rw [List.length_drop] at hi
    rw [Nat.add_assoc, h.chars (n + i) (by omega), List.getElem_drop]
  stop := by
    rw [List.length_drop, Nat.add_assoc, Nat.add_sub_cancel' hn]
    exact h.stop

/-- Elements of the string, as they are loaded. -/
theorem ZeroTerminated.getD_load (h : ZeroTerminated mem p s) {k n : ℕ} (hk : k < s.length)
    (hn : k < n) : (load mem p n).getD k 0 = s.getD k 0 := by
  rw [List.getD_eq_getElem _ _ (by rwa [length_load]), getElem_load, h.chars k hk,
    List.getD_eq_getElem _ _ hk]

end strings

/-! ### UTF-8 -/

variable {mem : ℕ → UInt8} {p fuel : ℕ} {b : UInt8} {s t : List UInt8}

/-- The converter goes on behind the sequence. -/
theorem utf8Step_used (b : UInt8) (s : List UInt8) :
    (utf8Step (b :: s)).2 = sequenceLength b := by
  obtain ⟨h80, hE0, hF0, hF8⟩ := and_lead b.toNat
  unfold utf8Step sequenceLength
  simp only [List.getD_cons_zero, h80, hE0, hF0, hF8]
  split_ifs <;> first | rfl | omega

/-- It looks at the bytes of the sequence only. -/
theorem utf8Step_congr (hfirst : s.getD 0 0 = t.getD 0 0)
    (hrest : ∀ k < sequenceLength (t.getD 0 0), s.getD k 0 = t.getD k 0) :
    utf8Step s = utf8Step t := by
  unfold sequenceLength at hrest
  unfold utf8Step
  simp only [hfirst]
  generalize t.getD 0 0 = b at hrest
  obtain ⟨h80, hE0, hF0, hF8⟩ := and_lead b.toNat
  -- a byte below 0x80 starts no longer sequence, and then the cases of both sides are the same
  split_ifs at hrest ⊢ with h1 h2 h3 h4 <;> try omega
  · rfl
  · rw [hrest 1 (by decide)]
  · rw [hrest 1 (by decide), hrest 2 (by decide)]
  · rw [hrest 1 (by decide), hrest 2 (by decide), hrest 3 (by decide)]
  · rfl

theorem sequenceLength_pos (b : UInt8) : 0 < sequenceLength b ∧ sequenceLength b ≤ 4 := by
  unfold sequenceLength
  split_ifs <;> decide

/-- A pass of the converter on memory. -/
theorem utf8Memory_pass (fuel : ℕ) (hne : mem p ≠ 0) :
    utf8Memory mem (fuel + 1) p =
      (utf8Memory mem fuel (p + sequenceLength (mem p))).map fun r =>
        ((utf8Step (load mem p 4)).1 ++ r.1, List.range' p (sequenceLength (mem p)) ++ r.2) := by
  have hload : load mem p 4 = mem p :: load mem (p + 1) 3 := rfl
  rw [utf8Memory, if_neg hne, hload, ← utf8Step_used (mem p) (load mem (p + 1) 3)]

/-- A pass over a sequence that is in the string. -/
theorem utf8Step_memory (h : ZeroTerminated mem p (b :: s))
    (hlen : sequenceLength b ≤ s.length + 1) :
    utf8Step (load mem p 4) = utf8Step (b :: s) := by
  obtain ⟨-, hle⟩ := sequenceLength_pos b
  apply utf8Step_congr (h.getD_load (by simp) (by decide))
  intro k hk
  rw [List.getD_cons_zero] at hk
  exact h.getD_load (by rw [List.length_cons]; omega) (by omega)

/-- **UTF-8 that is read within its string**: the converter is the one on lists, and it reads
    the bytes up to the terminator. -/
theorem utf8Memory_eq (hseq : Sequences s) (h : ZeroTerminated mem p s) {n : ℕ}
    (hn : s.length ≤ n) (hfuel : s.length < fuel) :
    utf8Memory mem fuel p = some (utf8Loop n s, List.range' p (s.length + 1)) := by
  induction hseq generalizing p n fuel with
  | nil =>
    obtain ⟨fuel, rfl⟩ : ∃ k, fuel = k + 1 := Nat.exists_eq_add_one.mpr hfuel
    rw [utf8Memory, if_pos h.empty]
    cases n with
    | zero => rfl
    | succ n => rfl
  | @cons b s hlen _ ih =>
    obtain ⟨hpos, -⟩ := sequenceLength_pos b
    obtain ⟨hfirst, hne⟩ := h.first
    rw [List.length_cons] at hn hfuel
    obtain ⟨fuel, rfl⟩ : ∃ k, fuel = k + 1 := Nat.exists_eq_add_one.mpr (by omega)
    obtain ⟨n, rfl⟩ : ∃ k, n = k + 1 := Nat.exists_eq_add_one.mpr (by omega)
    have hrest : utf8Memory mem fuel (p + sequenceLength b) = some (utf8Loop n _, _) :=
      ih (h.drop hlen) (by rw [List.length_drop, List.length_cons]; omega)
        (by rw [List.length_drop, List.length_cons]; omega)
    rw [utf8Memory_pass fuel (by rwa [hfirst]), hfirst, hrest, utf8Step_memory h hlen, utf8Loop,
      if_neg (by simp), utf8Step_used, Option.map_some, Option.some_inj, Prod.mk.injEq]
    refine ⟨rfl, ?_⟩
    rw [List.length_drop, List.length_cons, List.range'_append_1]
    congr 1
    omega

/-- Every run reads the byte where it starts. -/
theorem utf8Memory_start {r : List ℕ × List ℕ} (h : utf8Memory mem fuel p = some r) : p ∈ r.2 := by
  cases fuel with
  | zero => cases h
  | succ fuel =>
    by_cases hzero : mem p = 0
    · rw [utf8Memory, if_pos hzero] at h
      obtain rfl := Option.some.inj h
      exact List.mem_singleton_self p
    · rw [utf8Memory_pass fuel hzero] at h
      obtain ⟨r', -, rfl⟩ := Option.map_eq_some_iff.mp h
      obtain ⟨hpos, -⟩ := sequenceLength_pos (mem p)
      exact List.mem_append_left _ (List.mem_range'_1.mpr ⟨le_rfl, by omega⟩)

/-- A sequence that goes beyond the terminator takes the converter behind it. -/
theorem utf8Memory_beyond (hseq : ¬ Sequences s) (h : ZeroTerminated mem p s)
    {r : List ℕ × List ℕ} (hr : utf8Memory mem fuel p = some r) : ∃ a ∈ r.2, p + s.length < a := by
  induction fuel generalizing p s r with
  | zero => cases hr
  | succ fuel ih =>
    cases s with
    | nil => exact absurd .nil hseq
    | cons b s =>
      obtain ⟨hfirst, hne⟩ := h.first
      rw [utf8Memory_pass fuel (by rwa [hfirst]), hfirst] at hr
      obtain ⟨r', hr', rfl⟩ := Option.map_eq_some_iff.mp hr
      by_cases hlen : sequenceLength b ≤ s.length + 1
      · have hrest : ¬ Sequences ((b :: s).drop (sequenceLength b)) := fun h' =>
          hseq (.cons hlen h')
        obtain ⟨a, ha, hlt⟩ := ih hrest (h.drop hlen) hr'
        rw [List.length_drop] at hlt
        exact ⟨a, List.mem_append_right _ ha, by omega⟩
      · refine ⟨_, List.mem_append_right _ (utf8Memory_start hr'), ?_⟩
        rw [List.length_cons]
        omega

theorem utf8_reads_iff (h : ZeroTerminated mem p s) :
    EndsWithin (fun fuel => utf8Memory mem fuel p) (p + s.length) ↔ Sequences s := by
  constructor
  · rintro ⟨fuel, r, hr, hreads⟩
    by_contra hseq
    obtain ⟨a, ha, hlt⟩ := utf8Memory_beyond hseq h hr
    exact absurd (hreads a ha) (by omega)
  · intro hseq
    refine ⟨_, _, utf8Memory_eq hseq h le_rfl (Nat.lt_succ_self _), fun a ha => ?_⟩
    obtain ⟨-, hlt⟩ := List.mem_range'_1.mp ha
    omega

/-! ### UTF-16 -/

section utf16

variable {utf16 : ℕ → UInt16} {i : ℕ} {u v : UInt16} {s : List UInt16}

/-- The units as the converter on lists has them. -/
def units (s : List UInt16) : List ℕ := s.map UInt16.toNat

/-- The converter on lists, at a unit that starts no pair and at a pair. -/
theorem xtUTF16toUTF8_single (hhigh : ¬ isHigh u) :
    xtUTF16toUTF8 (units (u :: s)) = utf8Bytes u.toNat ++ xtUTF16toUTF8 (units s) := by
  rw [isHigh] at hhigh
  rw [units, List.map_cons, xtUTF16toUTF8.eq_def]
  dsimp only
  rw [if_neg hhigh]
  rfl

theorem xtUTF16toUTF8_pair (hhigh : isHigh u) : xtUTF16toUTF8 (units (u :: v :: s)) =
    utf8Bytes (surrogatePair u.toNat v.toNat) ++ xtUTF16toUTF8 (units s) := by
  rw [isHigh] at hhigh
  rw [units, List.map_cons, xtUTF16toUTF8.eq_def]
  dsimp only
  rw [if_pos hhigh]
  rfl


/-- **UTF-16 that is read within its string**: the converter is the one on lists, and it reads
    the units up to the terminator. -/
theorem utf16Memory_eq (hpairs : Pairs s) (h : ZeroTerminated utf16 i s)
    (hfuel : s.length < fuel) :
    utf16Memory utf16 fuel i = some (xtUTF16toUTF8 (units s), List.range' i (s.length + 1)) := by
  induction hpairs generalizing i fuel with
  | nil =>
    obtain ⟨fuel, rfl⟩ : ∃ k, fuel = k + 1 := Nat.exists_eq_add_one.mpr hfuel
    rw [utf16Memory, if_pos h.empty]
    rfl
  | @single u s hhigh _ ih =>
    obtain ⟨hfirst, hne⟩ := h.first
    rw [List.length_cons] at hfuel
    obtain ⟨fuel, rfl⟩ : ∃ k, fuel = k + 1 := Nat.exists_eq_add_one.mpr (by omega)
    have htail : ZeroTerminated utf16 (i + 1) s := h.drop (n := 1) (by simp)
    rw [xtUTF16toUTF8_single hhigh, utf16Memory, hfirst, if_neg hne]
    dsimp only
    rw [isHigh] at hhigh
    rw [if_neg hhigh, ih htail (by omega)]
    rfl
  | @pair u v s hhigh _ ih =>
    obtain ⟨hfirst, hne⟩ := h.first
    rw [List.length_cons, List.length_cons] at hfuel
    obtain ⟨fuel, rfl⟩ : ∃ k, fuel = k + 1 := Nat.exists_eq_add_one.mpr (by omega)
    have hsecond : utf16 (i + 1) = v := h.chars 1 (by simp)
    have htail : ZeroTerminated utf16 (i + 2) s := h.drop (n := 2) (by simp)
    rw [xtUTF16toUTF8_pair hhigh, utf16Memory, hfirst, if_neg hne]
    dsimp only
    rw [isHigh] at hhigh
    rw [if_pos hhigh, ih htail (by omega), hsecond]
    rfl

/-- Every run reads the unit where it starts. -/
theorem utf16Memory_start {r : List UInt8 × List ℕ} (h : utf16Memory utf16 fuel i = some r) :
    i ∈ r.2 := by
  cases fuel with
  | zero => cases h
  | succ fuel =>
    rw [utf16Memory] at h
    dsimp only at h
    split_ifs at h with hzero hhigh
    · obtain rfl := Option.some.inj h
      exact List.mem_singleton_self i
    · obtain ⟨r', -, rfl⟩ := Option.map_eq_some_iff.mp h
      exact List.mem_cons_self
    · obtain ⟨r', -, rfl⟩ := Option.map_eq_some_iff.mp h
      exact List.mem_cons_self

/-- A pair without its second unit takes the converter behind the terminator. -/
theorem utf16Memory_beyond (hpairs : ¬ Pairs s) (h : ZeroTerminated utf16 i s)
    {r : List UInt8 × List ℕ} (hr : utf16Memory utf16 fuel i = some r) :
    ∃ a ∈ r.2, i + s.length < a := by
  induction fuel generalizing i s r with
  | zero => cases hr
  | succ fuel ih =>
    cases s with
    | nil => exact absurd .nil hpairs
    | cons u s =>
      obtain ⟨hfirst, hne⟩ := h.first
      rw [utf16Memory, hfirst, if_neg hne] at hr
      dsimp only at hr
      split_ifs at hr with hhigh
      · obtain ⟨r', hr', rfl⟩ := Option.map_eq_some_iff.mp hr
        cases s with
        | nil =>
          refine ⟨_, List.mem_cons_of_mem _ (List.mem_cons_of_mem _ (utf16Memory_start hr')), ?_⟩
          rw [List.length_singleton]
          omega
        | cons v s =>
          have htail : ZeroTerminated utf16 (i + 2) s := h.drop (n := 2) (by simp)
          obtain ⟨a, ha, hlt⟩ := ih (fun h' => hpairs (.pair hhigh h')) htail hr'
          refine ⟨a, List.mem_cons_of_mem _ (List.mem_cons_of_mem _ ha), ?_⟩
          rw [List.length_cons, List.length_cons]
          omega
      · obtain ⟨r', hr', rfl⟩ := Option.map_eq_some_iff.mp hr
        have htail : ZeroTerminated utf16 (i + 1) s := h.drop (n := 1) (by simp)
        obtain ⟨a, ha, hlt⟩ := ih (fun h' => hpairs (.single hhigh h')) htail hr'
        refine ⟨a, List.mem_cons_of_mem _ ha, ?_⟩
        rw [List.length_cons]
        omega

theorem utf16_reads_iff (h : ZeroTerminated utf16 i s) :
    EndsWithin (fun fuel => utf16Memory utf16 fuel i) (i + s.length) ↔ Pairs s := by
  constructor
  · rintro ⟨fuel, r, hr, hreads⟩
    by_contra hpairs
    obtain ⟨a, ha, hlt⟩ := utf16Memory_beyond hpairs h hr
    exact absurd (hreads a ha) (by omega)
  · intro hpairs
    refine ⟨_, _, utf16Memory_eq hpairs h (Nat.lt_succ_self _), fun a ha => ?_⟩
    obtain ⟨-, hlt⟩ := List.mem_range'_1.mp ha
    omega

end utf16

/-- **What the converters read**: each of them ends and reads nothing behind the terminator of
    its string exactly when no sequence of the string goes beyond it. -/
theorem reads_within_iff (mem : ℕ → UInt8) (p : ℕ) (s : List UInt8) (utf16 : ℕ → UInt16)
    (t : List UInt16) :
    (ZeroTerminated mem p s →
      (EndsWithin (fun fuel => utf8Memory mem fuel p) (p + s.length) ↔ Sequences s)) ∧
    (ZeroTerminated utf16 0 t →
      (EndsWithin (fun fuel => utf16Memory utf16 fuel 0) t.length ↔ Pairs t)) := by
  refine ⟨utf8_reads_iff, fun h => ?_⟩
  have hiff := utf16_reads_iff h
  rwa [Nat.zero_add] at hiff

/-- A string in memory, with another one behind its terminator. -/
def inMemory {α : Type*} [OfNat α 0] (s rest : List α) (i : ℕ) : α := (s ++ 0 :: rest).getD i 0

theorem inMemory_terminated {α : Type*} [OfNat α 0] {s rest : List α} (h : ∀ x ∈ s, x ≠ 0) :
    ZeroTerminated (inMemory s rest) 0 s where
  ne_zero := h
  chars i hi := by
    rw [Nat.zero_add, inMemory, List.getD_append _ _ _ _ hi, List.getD_eq_getElem _ _ hi]
  stop := by
    rw [Nat.zero_add, inMemory, List.getD_append_right _ _ _ _ le_rfl, Nat.sub_self]
    rfl

/-- The bytes of `é` and the surrogate pair of U+1F600. -/
theorem reads_within_whole :
    EndsWithin (fun fuel => utf8Memory (inMemory [0xC3, 0xA9] [0x41]) fuel 0) 2 ∧
      EndsWithin (fun fuel => utf16Memory (inMemory [0xD83D, 0xDE00] [0x41]) fuel 0) 2 := by
  obtain ⟨h8, h16⟩ := reads_within_iff (inMemory [0xC3, 0xA9] [0x41]) 0 [0xC3, 0xA9]
    (inMemory [0xD83D, 0xDE00] [0x41]) [0xD83D, 0xDE00]
  exact ⟨(h8 (inMemory_terminated (by simp))).mpr (.cons (by decide) .nil),
    (h16 (inMemory_terminated (by simp))).mpr (.pair (by decide) .nil)⟩

/-- The first byte of `é` alone, and a high surrogate alone: each converter skips the terminator
    and goes on with the `A` behind it. -/
theorem reads_beyond :
    utf8Memory (inMemory [0xC3] [0x41]) 3 0 = some ([0xC0, 0x41], [0, 1, 2, 3]) ∧
      ¬ EndsWithin (fun fuel => utf8Memory (inMemory [0xC3] [0x41]) fuel 0) 1 ∧
      (utf16Memory (inMemory [0xD83D] [0x41]) 3 0).map Prod.snd = some [0, 1, 2, 3] ∧
      ¬ EndsWithin (fun fuel => utf16Memory (inMemory [0xD83D] [0x41]) fuel 0) 1 := by
  have h8 : ZeroTerminated (inMemory [0xC3] [0x41]) 0 [(0xC3 : UInt8)] :=
    inMemory_terminated (by simp)
  have h16 : ZeroTerminated (inMemory [0xD83D] [0x41]) 0 [(0xD83D : UInt16)] :=
    inMemory_terminated (by simp)
  refine ⟨by decide, fun h => ?_, by decide, fun h => ?_⟩
  · cases (utf8_reads_iff h8).mp h with
    | cons hlen _ => exact absurd hlen (by decide)
  · cases (utf16_reads_iff h16).mp h with
    | single hhigh _ => exact absurd (by decide) hhigh

end XTOS.Encodings

import Mathlib.Tactic

/-!
# Shift registers with feedback

A register of any width that shifts towards its low end. The bit that leaves it, added to an input
bit, decides whether the feedback `poly` is added to the register. A shift is linear, so that the
input of several bits can be added at once and the bits that leave can be looked up in a table.

## Main definitions

- `clock`, `feed` — one shift, without and with an input bit
- `run` — the register after a list of input bits
- `bits` — the bits of a word, the lowest first
- `tableStep` — the input of a whole word with a table

## Main results

- `run_eq` — the input of at most as many bits as the register has, added at once
- `foldl_tableStep` — words and a table do what their bits do
-/

namespace SysLib.ShiftRegister

variable {w : ℕ} (poly : BitVec w)

/-- One shift. -/
def clock (c : BitVec w) : BitVec w :=
  if c.getLsbD 0 then c >>> 1 ^^^ poly else c >>> 1

/-- One shift with an input bit. -/
def feed (c : BitVec w) (b : Bool) : BitVec w :=
  if c.getLsbD 0 ^^ b then c >>> 1 ^^^ poly else c >>> 1

/-- The register after some input bits. -/
def run (c : BitVec w) (bs : List Bool) : BitVec w := bs.foldl (feed poly) c

/-- The bits of a word, the lowest first. -/
def bits {n : ℕ} (x : BitVec n) : List Bool := (List.range n).map x.getLsbD

/-- The word with some bits, the lowest first. -/
def word (w : ℕ) (bs : List Bool) : BitVec w := (BitVec.ofBoolListLE bs).setWidth w

/-- The input of a word, with a table of what the bits that leave add. -/
def tableStep {n : ℕ} (table : BitVec n → BitVec w) (c : BitVec w) (x : BitVec n) : BitVec w :=
  table ((c ^^^ x.setWidth w).setWidth n) ^^^ c >>> n

/-! ### Words and their bits -/

@[simp] theorem length_bits {n : ℕ} (x : BitVec n) : (bits x).length = n := by
  simp [bits]

theorem getLsbD_word (bs : List Bool) (i : ℕ) :
    (word w bs).getLsbD i = (decide (i < w) && bs.getD i false) := by
  rw [word, BitVec.getLsbD_setWidth, BitVec.getLsbD_ofBoolListLE]

theorem word_bits {n : ℕ} (x : BitVec n) : word w (bits x) = x.setWidth w := by
  apply BitVec.eq_of_getLsbD_eq
  intro i hi
  rw [getLsbD_word, BitVec.getLsbD_setWidth, bits, List.getD_eq_getElem?_getD, List.getElem?_map]
  by_cases hn : i < n
  · rw [List.getElem?_range hn]
    rfl
  · rw [List.getElem?_eq_none (by simpa using hn), x.getLsbD_of_ge i (by omega)]
    rfl

/-! ### Shifts -/

/-- A shift is linear. -/
theorem clock_xor (a b : BitVec w) : clock poly (a ^^^ b) = clock poly a ^^^ clock poly b := by
  rw [clock, clock, clock, BitVec.getLsbD_xor, BitVec.ushiftRight_xor_distrib]
  cases a.getLsbD 0 <;> cases b.getLsbD 0
  · rfl
  · exact BitVec.xor_assoc _ _ _
  · change a >>> 1 ^^^ b >>> 1 ^^^ poly = a >>> 1 ^^^ poly ^^^ b >>> 1
    rw [BitVec.xor_assoc, BitVec.xor_comm (b >>> 1), ← BitVec.xor_assoc]
  · -- the feedback is added twice
    change a >>> 1 ^^^ b >>> 1 = a >>> 1 ^^^ poly ^^^ (b >>> 1 ^^^ poly)
    rw [BitVec.xor_comm (b >>> 1) poly, BitVec.xor_assoc, ← BitVec.xor_assoc poly,
      BitVec.xor_self, BitVec.zero_xor]

theorem iterate_clock_xor (k : ℕ) (a b : BitVec w) :
    (clock poly)^[k] (a ^^^ b) = (clock poly)^[k] a ^^^ (clock poly)^[k] b := by
  induction k with
  | zero => rfl
  | succ k ih => rw [Function.iterate_succ_apply', Function.iterate_succ_apply',
      Function.iterate_succ_apply', ih, clock_xor]

/-- Nothing is added while zeros leave the register. -/
theorem iterate_clock_high {k : ℕ} {c : BitVec w} (h : ∀ i < k, c.getLsbD i = false) :
    (clock poly)^[k] c = c >>> k := by
  induction k with
  | zero => rfl
  | succ k ih =>
    have hlow : (c >>> k).getLsbD 0 = false := by
      rw [BitVec.getLsbD_ushiftRight]
      exact h k (Nat.lt_succ_self k)
    rw [Function.iterate_succ_apply', ih fun i hi => h i (Nat.lt_succ_of_lt hi), clock, hlow,
      if_neg Bool.false_ne_true, ← BitVec.shiftRight_add]

/-- What leaves the register and what stays in it are apart. -/
theorem iterate_clock_split (k : ℕ) (c : BitVec w) :
    (clock poly)^[k] c = (clock poly)^[k] ((c.setWidth k).setWidth w) ^^^ c >>> k := by
  have hsplit : c = (c.setWidth k).setWidth w ^^^ (c ^^^ (c.setWidth k).setWidth w) := by
    rw [BitVec.xor_comm c, ← BitVec.xor_assoc, BitVec.xor_self, BitVec.zero_xor]
  have hhigh : ∀ i < k, (c ^^^ (c.setWidth k).setWidth w).getLsbD i = false := by
    intro i hi
    rw [BitVec.getLsbD_xor, BitVec.getLsbD_setWidth, BitVec.getLsbD_setWidth]
    by_cases hw : i < w
    · simp [hi, hw]
    · simp [c.getLsbD_of_ge i (by omega)]
  have hzero : (c.setWidth k).setWidth w >>> k = 0#w := by
    apply BitVec.eq_of_getLsbD_eq
    intro i _
    rw [BitVec.getLsbD_ushiftRight, BitVec.getLsbD_setWidth, BitVec.getLsbD_setWidth]
    simp
  conv_lhs => rw [hsplit]
  rw [iterate_clock_xor, iterate_clock_high poly hhigh, BitVec.ushiftRight_xor_distrib, hzero,
    BitVec.xor_zero]

/-! ### Input -/

theorem run_cons (c : BitVec w) (b : Bool) (bs : List Bool) :
    run poly c (b :: bs) = run poly (feed poly c b) bs := rfl

theorem run_append (c : BitVec w) (bs cs : List Bool) :
    run poly c (bs ++ cs) = run poly (run poly c bs) cs := List.foldl_append

/-- An input bit can be added before the shift. -/
theorem feed_eq (hw : 0 < w) (c : BitVec w) (b : Bool) :
    feed poly c b = clock poly (c ^^^ word w [b]) := by
  have hlow : (word w [b]).getLsbD 0 = b := by
    rw [getLsbD_word, decide_eq_true hw]
    rfl
  have hzero : word w [b] >>> 1 = 0#w := by
    apply BitVec.eq_of_getLsbD_eq
    intro i _
    rw [BitVec.getLsbD_ushiftRight, getLsbD_word]
    simp
  rw [feed, clock, BitVec.getLsbD_xor, hlow, BitVec.ushiftRight_xor_distrib, hzero,
    BitVec.xor_zero]

/-- The bits after the first one wait in the register for one shift. -/
theorem clock_word_cons {b : Bool} {bs : List Bool} (h : bs.length < w) :
    clock poly (word w (b :: bs)) = clock poly (word w [b]) ^^^ word w bs := by
  have hcons : word w (b :: bs) = word w [b] ^^^ word w (false :: bs) := by
    apply BitVec.eq_of_getLsbD_eq
    intro i _
    rw [BitVec.getLsbD_xor, getLsbD_word, getLsbD_word, getLsbD_word]
    cases i with
    | zero => simp
    | succ i => simp
  have hlow : (word w (false :: bs)).getLsbD 0 = false := by
    rw [getLsbD_word]
    simp
  have hshift : word w (false :: bs) >>> 1 = word w bs := by
    apply BitVec.eq_of_getLsbD_eq
    intro i hi
    rw [BitVec.getLsbD_ushiftRight, getLsbD_word, getLsbD_word, Nat.add_comm, List.getD_cons_succ]
    by_cases hlast : i + 1 < w
    · simp [hlast, hi]
    · rw [List.getD_eq_getElem?_getD, List.getElem?_eq_none (by omega)]
      simp
  rw [hcons, clock_xor]
  congr 1
  rw [clock, hlow, if_neg Bool.false_ne_true, hshift]

/-- Up to as many bits as the register has can be added to it at once. -/
theorem run_eq {bs : List Bool} (h : bs.length ≤ w) (c : BitVec w) :
    run poly c bs = (clock poly)^[bs.length] (c ^^^ word w bs) := by
  induction bs generalizing c with
  | nil =>
    have hzero : word w [] = 0#w := by
      apply BitVec.eq_of_getLsbD_eq
      intro i _
      rw [getLsbD_word]
      simp
    rw [hzero, BitVec.xor_zero]
    rfl
  | cons b bs ih =>
    rw [List.length_cons] at h ⊢
    have hcons : clock poly (word w (b :: bs)) = clock poly (word w [b]) ^^^ word w bs :=
      clock_word_cons poly (by omega)
    rw [run_cons, ih (by omega), feed_eq poly (by omega), Function.iterate_succ_apply, clock_xor,
      clock_xor, hcons, BitVec.xor_assoc]

variable {n : ℕ} {table : BitVec n → BitVec w}

/-- The input of a word is that of its bits. -/
theorem tableStep_eq (hn : n ≤ w) (htable : ∀ x, table x = (clock poly)^[n] (x.setWidth w))
    (c : BitVec w) (x : BitVec n) : tableStep table c x = run poly c (bits x) := by
  have hzero : x.setWidth w >>> n = 0#w := by
    apply BitVec.eq_of_getLsbD_eq
    intro i _
    rw [BitVec.getLsbD_ushiftRight, BitVec.getLsbD_setWidth, x.getLsbD_of_ge (n + i) (by omega),
      Bool.and_false]
    exact (BitVec.getLsbD_zero).symm
  rw [run_eq poly (by rwa [length_bits]), length_bits, word_bits, iterate_clock_split,
    BitVec.ushiftRight_xor_distrib, hzero, BitVec.xor_zero, tableStep, htable]

theorem foldl_tableStep (hn : n ≤ w) (htable : ∀ x, table x = (clock poly)^[n] (x.setWidth w))
    (c : BitVec w) (xs : List (BitVec n)) :
    xs.foldl (tableStep table) c = run poly c (xs.flatMap bits) := by
  induction xs generalizing c with
  | nil => rfl
  | cons x xs ih =>
    rw [List.foldl_cons, ih, tableStep_eq poly hn htable, List.flatMap_cons, run_append]

end SysLib.ShiftRegister

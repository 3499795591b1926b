import Mathlib.Tactic

/-!
# Strings

The comparisons of `xtkernel/string.c`. A string is the list of its bytes without the
terminator, so no byte of it is zero and the end of the list stands for the zero byte.

## Main definitions

- `xtStringCmp`, `xtStringICmp` — the first `max` bytes of two strings compared, as they are
  and ignoring the case of ASCII letters
- `key` — a name with its ASCII letters made small
-/

namespace XTOS

/-- `xtStringCmp` on strings without terminator; true for `XT_SUCCESS`. -/
def xtStringCmp : List UInt8 → List UInt8 → ℕ → Bool
  | _, _, 0 => true
  | [], [], _ + 1 => true
  | [], _ :: _, _ + 1 => false
  | _ :: _, [], _ + 1 => false
  | l :: left, r :: right, n + 1 => if l = r then xtStringCmp left right n else false

/-- `tolower` of a byte. -/
def tolower (ch : UInt8) : UInt8 := if 0x41 ≤ ch ∧ ch ≤ 0x5a then ch + (0x61 - 0x41) else ch

/-- `xtStringICmp` on strings without terminator; true for `XT_SUCCESS`. -/
def xtStringICmp : List UInt8 → List UInt8 → ℕ → Bool
  | _, _, 0 => true
  | [], [], _ + 1 => true
  | [], _ :: _, _ + 1 => false
  | _ :: _, [], _ + 1 => false
  | l :: left, r :: right, n + 1 =>
    if tolower l = tolower r then xtStringICmp left right n else false

/-- What is left of a name when the case of ASCII letters is ignored. -/
def key (name : List UInt8) : List UInt8 := name.map tolower

/-- The comparison looks at the first `max` bytes. -/
theorem xtStringCmp_iff {left right : List UInt8} {max : ℕ} :
    xtStringCmp left right max = true ↔ left.take max = right.take max := by
  induction left, right, max using xtStringCmp.induct with
  | case1 => simp [xtStringCmp]
  | case2 => simp [xtStringCmp]
  | case3 => simp [xtStringCmp]
  | case4 => simp [xtStringCmp]
  | case5 n _ left right ih => simp [xtStringCmp, ih]
  | case6 n l left r right hne => simp [xtStringCmp, hne]

/-- A string that is shorter than `max` is compared as a whole. -/
theorem xtStringCmp_short {left right : List UInt8} {max : ℕ} (hright : right.length < max) :
    xtStringCmp left right max = true ↔ left = right := by
  rw [xtStringCmp_iff, List.take_of_length_le hright.le]
  constructor
  · intro h
    have hlen := congrArg List.length h
    rw [List.length_take] at hlen
    rwa [List.take_of_length_le (by omega)] at h
  · rintro rfl
    exact List.take_of_length_le hright.le

theorem xtStringICmp_iff {left right : List UInt8} {max : ℕ} :
    xtStringICmp left right max = true ↔ (key left).take max = (key right).take max := by
  induction left, right, max using xtStringICmp.induct with
  | case1 => simp [xtStringICmp]
  | case2 => simp [xtStringICmp]
  | case3 => simp [xtStringICmp, key]
  | case4 => simp [xtStringICmp, key]
  | case5 n l left r right heq ih => simpa [xtStringICmp, key, heq] using ih
  | case6 n l left r right hne => simp [xtStringICmp, key, hne]

/-- Strings that are shorter than `max` are compared as a whole, whatever the other one is. -/
theorem xtStringICmp_short {left right : List UInt8} {max : ℕ} (hleft : left.length < max) :
    xtStringICmp left right max = true ↔ key left = key right := by
  rw [xtStringICmp_iff]
  constructor
  · intro h
    have hlen := congrArg List.length h
    simp only [key, List.length_take, List.length_map] at hlen
    rwa [List.take_of_length_le (by simp [key]; omega),
      List.take_of_length_le (by simp [key]; omega)] at h
  · intro h
    rw [h]

end XTOS

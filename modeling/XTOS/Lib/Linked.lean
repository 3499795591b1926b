import Mathlib.Data.List.TakeWhile
import Mathlib.Tactic

/-!
# Singly linked lists in memory

Nodes are addresses and `next` gives the address stored in a node; `null` ends a list.

## Main definitions

- `Linked` — following `next` from one address passes the given nodes and gets to another
- `scan` — the loop that looks for the first node with a property, with its predecessor
- `Linked.unlink`, `Linked.insert` — the two ways a link is redirected
-/

namespace SysLib

variable {A : Type*} {null : A} {next next' : A → A}

/-- From `a`, the links pass the nodes `xs` and get to `b`. -/
def Linked (null : A) (next : A → A) : A → List A → A → Prop
  | a, [], b => a = b
  | a, x :: xs, b => a = x ∧ x ≠ null ∧ Linked null next (next x) xs b

/-- The loop `for (prev = .., i = ..; i; prev = i, i = next)` that ends at the first node
    with the property, or at the end of the list. -/
def scan [DecidableEq A] (null : A) (next : A → A) (test : A → Bool) :
    ℕ → A → A → Option (A × A)
  | 0, _, _ => none
  | fuel + 1, prev, i =>
    if i = null then some (prev, i)
    else if test i then some (prev, i)
    else scan null next test fuel i (next i)

@[simp] theorem linked_nil {a b : A} : Linked null next a [] b ↔ a = b := Iff.rfl

@[simp] theorem linked_cons {a b x : A} {xs : List A} :
    Linked null next a (x :: xs) b ↔ a = x ∧ x ≠ null ∧ Linked null next (next x) xs b := Iff.rfl

theorem linked_append {a c : A} {xs ys : List A} :
    Linked null next a (xs ++ ys) c ↔
      ∃ b, Linked null next a xs b ∧ Linked null next b ys c := by
  induction xs generalizing a with
  | nil => simp
  | cons x xs ih =>
    simp only [List.cons_append, linked_cons, ih]
    constructor
    · rintro ⟨rfl, hx, b, h, h'⟩
      exact ⟨b, ⟨rfl, hx, h⟩, h'⟩
    · rintro ⟨b, ⟨rfl, hx, h⟩, h'⟩
      exact ⟨rfl, hx, b, h, h'⟩

theorem Linked.congr {a b : A} {xs : List A} (h : Linked null next a xs b)
    (hnext : ∀ x ∈ xs, next' x = next x) : Linked null next' a xs b := by
  induction xs generalizing a with
  | nil => exact h
  | cons x xs ih =>
    obtain ⟨rfl, hx, h⟩ := h
    refine ⟨rfl, hx, ?_⟩
    rw [hnext a List.mem_cons_self]
    exact ih h fun y hy => hnext y (List.mem_cons_of_mem _ hy)

theorem Linked.ne_null {a b : A} {xs : List A} (h : Linked null next a xs b) :
    ∀ x ∈ xs, x ≠ null := by
  induction xs generalizing a with
  | nil => simp
  | cons x xs ih =>
    obtain ⟨-, hx, h⟩ := h
    intro y hy
    obtain rfl | hy := List.mem_cons.mp hy
    · exact hx
    · exact ih h y hy

theorem Linked.head {a : A} {xs : List A} (h : Linked null next a xs null) :
    a = xs.headD null := by
  cases xs with
  | nil => exact h
  | cons x xs => exact h.1

/-- The nodes of a list are determined by where it starts. -/
theorem Linked.unique {a : A} {xs ys : List A} (h : Linked null next a xs null)
    (h' : Linked null next a ys null) : xs = ys := by
  induction xs generalizing a ys with
  | nil =>
    cases ys with
    | nil => rfl
    | cons y ys =>
      obtain ⟨rfl, hy, -⟩ := h'
      exact absurd h hy
  | cons x xs ih =>
    obtain ⟨rfl, hx, h⟩ := h
    cases ys with
    | nil => exact absurd h' hx
    | cons y ys =>
      obtain ⟨rfl, -, h'⟩ := h'
      rw [ih h h']

/-- A list that ends does not pass a node twice. -/
theorem Linked.nodup {a : A} {xs : List A} (h : Linked null next a xs null) : xs.Nodup := by
  induction xs generalizing a with
  | nil => exact List.nodup_nil
  | cons x xs ih =>
    obtain ⟨rfl, hx, h⟩ := h
    refine List.nodup_cons.mpr ⟨fun hmem => ?_, ih h⟩
    -- a second visit would start a shorter list from the same node
    obtain ⟨pre, post, rfl⟩ := List.append_of_mem hmem
    obtain ⟨b, -, hb⟩ := linked_append.mp h
    obtain ⟨rfl, hb⟩ := hb
    have hlen := congrArg List.length (h.unique hb.2)
    simp at hlen
    omega

/-- The links go from each node to the next one. -/
theorem Linked.isChain {a b : A} {xs : List A} (h : Linked null next a xs b) :
    xs.IsChain fun u v => next u = v ∧ v ≠ null := by
  induction xs generalizing a with
  | nil => exact .nil
  | cons x xs ih =>
    obtain ⟨rfl, -, h⟩ := h
    cases xs with
    | nil => exact .singleton _
    | cons y ys => exact .cons_cons ⟨h.1, h.2.1⟩ (ih h)

/-- The link of the last node. -/
theorem Linked.next_last {a b y : A} {xs : List A} (h : Linked null next a (xs ++ [y]) b) :
    next y = b := by
  obtain ⟨c, -, rfl, -, hlast⟩ := linked_append.mp h
  exact hlast

/-- Taking node `x` out of a list by redirecting the link of the node before it. -/
theorem Linked.unlink [DecidableEq A] {a p x : A} {xs ys : List A}
    (h : Linked null next a (xs ++ p :: x :: ys) null) :
    Linked null (Function.update next p (next x)) a (xs ++ p :: ys) null := by
  have hnd := h.nodup
  obtain ⟨b, h1, rfl, hp, rfl, -, h2⟩ := linked_append.mp h
  simp only [List.nodup_append, List.nodup_cons, List.mem_cons, not_or] at hnd
  obtain ⟨-, ⟨⟨-, hpys⟩, -⟩, hdisj⟩ := hnd
  refine linked_append.mpr ⟨b, h1.congr ?_, rfl, hp, ?_⟩
  · intro y hy
    exact Function.update_of_ne (hdisj y hy b (.inl rfl)) _ _
  · rw [Function.update_self]
    refine h2.congr fun y hy => Function.update_of_ne ?_ _ _
    rintro rfl
    exact hpys hy

/-- Putting a new node `n`, already linked to the rest, behind node `p`. -/
theorem Linked.insert [DecidableEq A] {a p n : A} {xs ys : List A}
    (h : Linked null next a (xs ++ p :: ys) null) (hn : n ≠ null)
    (hnew : n ∉ xs ++ p :: ys) (hlink : next n = ys.headD null) :
    Linked null (Function.update next p n) a (xs ++ p :: n :: ys) null := by
  have hnd := h.nodup
  obtain ⟨b, h1, rfl, hp, h2⟩ := linked_append.mp h
  simp only [List.nodup_append, List.nodup_cons, List.mem_cons] at hnd
  simp only [List.mem_append, List.mem_cons, not_or] at hnew
  obtain ⟨-, ⟨hpys, -⟩, hdisj⟩ := hnd
  have hkeep : ∀ y, y ≠ b → Function.update next b n y = next y := fun y hy =>
    Function.update_of_ne hy _ _
  refine linked_append.mpr ⟨b, h1.congr ?_, rfl, hp, ?_, hn, ?_⟩
  · intro y hy
    exact hkeep y (hdisj y hy b (.inl rfl))
  · exact Function.update_self _ _ _
  · rw [hkeep n hnew.2.1, hlink, ← h2.head]
    refine h2.congr fun y hy => hkeep y ?_
    rintro rfl
    exact hpys hy

variable [DecidableEq A]

/-- With enough fuel the loop splits the nodes before the first one it looks for. -/
theorem Linked.scan_eq {a : A} {xs : List A} (h : Linked null next a xs null)
    (test : A → Bool) (prev : A) {fuel : ℕ} (hfuel : xs.length < fuel) :
    scan null next test fuel prev a =
      some ((xs.takeWhile (!test ·)).getLastD prev, (xs.dropWhile (!test ·)).headD null) := by
  induction xs generalizing a prev fuel with
  | nil =>
    obtain ⟨fuel, rfl⟩ := Nat.exists_eq_add_of_lt hfuel
    simp [scan, show a = null from h]
  | cons x xs ih =>
    obtain ⟨rfl, hx, h⟩ := h
    obtain ⟨fuel, rfl⟩ : ∃ n, fuel = n + 1 := Nat.exists_eq_add_one.mpr (by omega)
    rw [scan, if_neg hx]
    by_cases ht : test a
    · simp [ht]
    · rw [if_neg ht, ih h a (by simpa using hfuel), List.takeWhile_cons_of_pos (by simp [ht]),
        List.dropWhile_cons_of_pos (by simp [ht]), List.getLastD_cons]

theorem scan_mono {test : A → Bool} {fuel fuel' : ℕ} (hle : fuel ≤ fuel') {prev a : A}
    {r : A × A} (h : scan null next test fuel prev a = some r) :
    scan null next test fuel' prev a = some r := by
  induction fuel generalizing fuel' prev a with
  | zero => cases h
  | succ fuel ih =>
    obtain ⟨k, rfl⟩ : ∃ k, fuel' = k + 1 := Nat.exists_eq_add_one.mpr (by omega)
    rw [scan] at h ⊢
    split_ifs at h ⊢ with h1 h2
    · exact h
    · exact h
    · exact ih (by omega) h

/-- What the loop returns, if it returns: the nodes before the one it stops at do not have
    the property and that one has it. -/
theorem Linked.scan_split {a prev : A} {xs : List A} (h : Linked null next a xs null)
    {test : A → Bool} {fuel : ℕ} {r : A × A} (hr : scan null next test fuel prev a = some r) :
    ∃ pre post, xs = pre ++ post ∧ r = (pre.getLastD prev, post.headD null) ∧
      (∀ x ∈ pre, test x = false) ∧ ∀ y ys, post = y :: ys → test y = true := by
  have heq := h.scan_eq test prev (Nat.lt_succ_of_le (le_max_left xs.length fuel))
  rw [scan_mono (Nat.le_succ_of_le (le_max_right xs.length fuel)) hr] at heq
  refine ⟨xs.takeWhile (!test ·), xs.dropWhile (!test ·), List.takeWhile_append_dropWhile.symm,
    Option.some.inj heq, ?_, ?_⟩
  · intro x hx
    simpa using List.mem_takeWhile_imp hx
  · intro y ys hy
    have hnot := List.head?_dropWhile_not (fun x => !test x) xs
    simpa [hy] using hnot

end SysLib

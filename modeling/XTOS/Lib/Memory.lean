import Mathlib.Tactic

/-!
# Byte-addressed memory

A memory is a total function from addresses to cells. This file gives block
loads and stores, their composition laws, and the little-endian view of a block
of bytes as a natural number.

## Main definitions

- `load`, `store` — read and overwrite a block of consecutive cells
- `leNat`, `leBytes` — little-endian decoding and encoding
- `loadLE`, `storeLE` — fixed-width little-endian words in memory
-/

namespace SysLib

variable {α : Type*}

/-- The `n` cells from address `a` on. -/
def load (m : ℕ → α) (a n : ℕ) : List α := (List.range n).map fun i => m (a + i)

/-- Overwrite the cells from address `a` on with the elements of `xs`. -/
def store (m : ℕ → α) (a : ℕ) (xs : List α) : ℕ → α := fun i =>
  if a ≤ i then (xs[i - a]?).getD (m i) else m i

/-! ### Single cells of a stored block -/

theorem store_below (m : ℕ → α) {a i : ℕ} (xs : List α) (h : i < a) :
    store m a xs i = m i := by
  simp [store, Nat.not_le.mpr h]

theorem store_above (m : ℕ → α) {a i : ℕ} (xs : List α) (h : a + xs.length ≤ i) :
    store m a xs i = m i := by
  have hn : xs[i - a]? = none := List.getElem?_eq_none (by omega)
  simp [store, hn]

/-- A cell outside the stored block keeps its value. -/
theorem store_outside (m : ℕ → α) {a i : ℕ} (xs : List α)
    (h : i < a ∨ a + xs.length ≤ i) : store m a xs i = m i :=
  h.elim (store_below m xs) (store_above m xs)

theorem store_at (m : ℕ → α) (a : ℕ) {k : ℕ} (xs : List α) (h : k < xs.length) :
    store m a xs (a + k) = xs[k] := by
  have hk : xs[k]? = some xs[k] := List.getElem?_eq_getElem h
  simp [store, hk]

theorem store_inside (m : ℕ → α) {a i : ℕ} (xs : List α) (h : a ≤ i)
    (hi : i - a < xs.length) : store m a xs i = xs[i - a] := by
  have hs := store_at m a xs hi
  rwa [Nat.add_sub_cancel' h] at hs

@[simp] theorem store_nil (m : ℕ → α) (a : ℕ) : store m a [] = m := by
  funext i
  exact store_outside m [] (by simp; omega)

/-- A block that grows by one cell. -/
theorem update_store (m : ℕ → α) (a : ℕ) (xs : List α) (x : α) :
    Function.update (store m a xs) (a + xs.length) x = store m a (xs ++ [x]) := by
  funext i
  by_cases hi : i = a + xs.length
  · rw [hi, Function.update_self, store_at m a (xs ++ [x]) (by simp), List.getElem_concat_length rfl]
  · rw [Function.update_of_ne hi]
    by_cases hin : a ≤ i ∧ i < a + xs.length
    · rw [store_inside m xs hin.1 (by omega), store_inside m (xs ++ [x]) hin.1 (by simp; omega),
        List.getElem_append_left]
    · rw [store_outside m xs (by omega), store_outside m (xs ++ [x]) (by simp; omega)]

/-- A block that covers the end of another one. -/
theorem store_store_append (m : ℕ → α) (a : ℕ) (xs : List α) {ys zs : List α}
    (h : ys.length ≤ zs.length) :
    store (store m a (xs ++ ys)) (a + xs.length) zs = store m a (xs ++ zs) := by
  funext i
  by_cases hlow : i < a + xs.length
  · rw [store_below _ zs hlow]
    by_cases ha : i < a
    · rw [store_below m _ ha, store_below m _ ha]
    · have hi : i - a < xs.length := by omega
      rw [store_inside m _ (by omega) (by simp; omega), store_inside m _ (by omega) (by simp; omega),
        List.getElem_append_left hi, List.getElem_append_left hi]
  · by_cases hhigh : i < a + xs.length + zs.length
    · rw [store_inside _ zs (by omega) (by omega),
        store_inside m (xs ++ zs) (by omega) (by simp; omega), List.getElem_append_right (by omega)]
      congr 1
      omega
    · rw [store_above _ zs (by omega), store_above m _ (by simp; omega),
        store_above m _ (by simp; omega)]

/-! ### Block loads -/

@[simp] theorem length_load (m : ℕ → α) (a n : ℕ) : (load m a n).length = n := by
  simp [load]

@[simp] theorem load_zero (m : ℕ → α) (a : ℕ) : load m a 0 = [] := rfl

@[simp] theorem getElem_load (m : ℕ → α) (a n k : ℕ) (h : k < (load m a n).length) :
    (load m a n)[k] = m (a + k) := by
  simp [load]

/-- Two loads agree when the memories agree on the loaded cells. -/
theorem load_congr {m m' : ℕ → α} {a n : ℕ} (h : ∀ i, a ≤ i → i < a + n → m i = m' i) :
    load m a n = load m' a n := by
  apply List.ext_getElem
  · simp
  · intro k hk _
    rw [length_load] at hk
    simp only [getElem_load]
    exact h _ (by omega) (by omega)

theorem load_add (m : ℕ → α) (a n k : ℕ) :
    load m a (n + k) = load m a n ++ load m (a + n) k := by
  simp [load, List.range_add, Function.comp_def, Nat.add_assoc]

/-- A load from a disjoint block does not see a store. -/
theorem load_store_disjoint (m : ℕ → α) {a b n : ℕ} (xs : List α)
    (h : b + n ≤ a ∨ a + xs.length ≤ b) : load (store m a xs) b n = load m b n := by
  apply load_congr
  intro i h1 h2
  exact store_outside m xs (by omega)

theorem load_store_same (m : ℕ → α) (a : ℕ) (xs : List α) :
    load (store m a xs) a xs.length = xs := by
  apply List.ext_getElem
  · simp
  · intro k _ hk
    rw [getElem_load, store_at m a xs hk]

/-- Storing what is already there changes nothing. -/
theorem store_load_same (m : ℕ → α) (a n : ℕ) : store m a (load m a n) = m := by
  funext i
  by_cases h : i < a ∨ a + n ≤ i
  · exact store_outside m _ (by simpa using h)
  · rw [store_inside m _ (by omega) (by simp; omega), getElem_load]
    congr 1
    omega

/-! ### Little-endian words -/

/-- The natural number whose little-endian digits are the given bytes. -/
def leNat (bs : List UInt8) : ℕ := bs.foldr (fun b acc => b.toNat + 256 * acc) 0

/-- The low `w` bytes of `v`, least significant first. -/
def leBytes (w v : ℕ) : List UInt8 :=
  (List.range w).map fun i => UInt8.ofNat (v / 256 ^ i)

@[simp] theorem length_leBytes (w v : ℕ) : (leBytes w v).length = w := by
  simp [leBytes]

theorem leBytes_succ (w v : ℕ) :
    leBytes (w + 1) v = UInt8.ofNat v :: leBytes w (v / 256) := by
  simp only [leBytes, List.range_succ_eq_map, List.map_cons, List.map_map, pow_zero,
    Nat.div_one]
  congr 1
  apply List.map_congr_left
  intro i _
  simp only [Function.comp_apply, Nat.div_div_eq_div_mul, pow_succ']

theorem leNat_lt (bs : List UInt8) : leNat bs < 256 ^ bs.length := by
  induction bs with
  | nil => simp [leNat]
  | cons b bs ih =>
    have hb : b.toNat < 256 := b.toNat_lt
    simp only [leNat, List.foldr_cons, List.length_cons, pow_succ] at ih ⊢
    omega

theorem leNat_leBytes (w v : ℕ) : leNat (leBytes w v) = v % 256 ^ w := by
  induction w generalizing v with
  | zero => simp [leBytes, leNat, Nat.mod_one]
  | succ w ih =>
    have hs : leNat (leBytes (w + 1) v) = v % 256 + 256 * leNat (leBytes w (v / 256)) := by
      rw [leBytes_succ]
      simp [leNat]
    rw [hs, ih, pow_succ', Nat.mod_mul]

theorem leNat_eq_zero_iff {bs : List UInt8} : leNat bs = 0 ↔ ∀ b ∈ bs, b = 0 := by
  induction bs with
  | nil => simp [leNat]
  | cons b bs ih =>
    have hnat : leNat (b :: bs) = b.toNat + 256 * leNat bs := rfl
    rw [hnat, List.forall_mem_cons, ← ih, ← UInt8.toNat_inj, UInt8.toNat_zero]
    omega

/-- The `w`-byte little-endian word at address `a`. -/
def loadLE (m : ℕ → UInt8) (a w : ℕ) : ℕ := leNat (load m a w)

/-- Overwrite the `w`-byte little-endian word at address `a`. -/
def storeLE (m : ℕ → UInt8) (a w v : ℕ) : ℕ → UInt8 := store m a (leBytes w v)

theorem loadLE_lt (m : ℕ → UInt8) (a w : ℕ) : loadLE m a w < 256 ^ w := by
  have h := leNat_lt (load m a w)
  rwa [length_load] at h

/-- A word keeps what fits into it. -/
theorem loadLE_storeLE_mod (m : ℕ → UInt8) (a w v : ℕ) :
    loadLE (storeLE m a w v) a w = v % 256 ^ w := by
  have hl := load_store_same m a (leBytes w v)
  rw [length_leBytes] at hl
  rw [loadLE, storeLE, hl, leNat_leBytes]

theorem loadLE_storeLE_same (m : ℕ → UInt8) (a w : ℕ) {v : ℕ} (h : v < 256 ^ w) :
    loadLE (storeLE m a w v) a w = v := by
  rw [loadLE_storeLE_mod, Nat.mod_eq_of_lt h]

theorem loadLE_storeLE_disjoint (m : ℕ → UInt8) {a b w w' v : ℕ}
    (h : b + w' ≤ a ∨ a + w ≤ b) : loadLE (storeLE m a w v) b w' = loadLE m b w' := by
  rw [loadLE, storeLE, load_store_disjoint m _ (by simpa using h), loadLE]

theorem storeLE_outside (m : ℕ → UInt8) {a w i : ℕ} (v : ℕ) (h : i < a ∨ a + w ≤ i) :
    storeLE m a w v i = m i :=
  store_outside m _ (by simpa using h)

/-- A word that was moved keeps its value. -/
theorem loadLE_shift {m m' : ℕ → UInt8} {a b w : ℕ} (h : ∀ i < w, m' (b + i) = m (a + i)) :
    loadLE m' b w = loadLE m a w := by
  rw [loadLE, loadLE, load, load]
  congr 1
  exact List.map_congr_left fun i hi => h i (List.mem_range.mp hi)

theorem leBytes_leNat (bs : List UInt8) : leBytes bs.length (leNat bs) = bs := by
  induction bs with
  | nil => rfl
  | cons b bs ih =>
    have hb : b.toNat < 256 := b.toNat_lt
    have hnat : leNat (b :: bs) = b.toNat + 256 * leNat bs := rfl
    rw [List.length_cons, leBytes_succ, hnat,
      show (b.toNat + 256 * leNat bs) / 256 = leNat bs by omega, ih]
    congr 1
    apply UInt8.toNat_inj.mp
    rw [UInt8.toNat_ofNat']
    omega

/-- Storing the word that is already there changes nothing. -/
theorem storeLE_loadLE (m : ℕ → UInt8) (a w : ℕ) : storeLE m a w (loadLE m a w) = m := by
  have hbytes := leBytes_leNat (load m a w)
  rw [length_load] at hbytes
  rw [storeLE, loadLE, hbytes, store_load_same]

/-- A word is zero exactly if its bytes are. -/
theorem loadLE_eq_zero_iff {m : ℕ → UInt8} {a w : ℕ} :
    loadLE m a w = 0 ↔ ∀ i < w, m (a + i) = 0 := by
  rw [loadLE, leNat_eq_zero_iff, load, List.forall_mem_map]
  simp only [List.mem_range]

theorem loadLE_congr {m m' : ℕ → UInt8} {a w : ℕ}
    (h : ∀ i, a ≤ i → i < a + w → m i = m' i) : loadLE m a w = loadLE m' a w := by
  rw [loadLE, load_congr h, loadLE]

end SysLib

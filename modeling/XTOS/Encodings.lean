import XTOS.Lib.Bits

/-!
# UTF-8 and UTF-16

`xtUTF8toUTF16` and `xtUTF16toUTF8` of `xtkernel/encodings.c`.

## Main definitions

- `xtUTF8toUTF16`, `xtUTF16toUTF8` — the converters, on strings up to their terminator
- `Utf8`, `Utf16` — the bytes and the units that encode a string of characters
- `cString` — the string in a zero-terminated buffer
- `xtUTF16toUTF8_xtUTF8toUTF16` — well-formed text survives the way to UTF-16 and back
- `buffers_inverse` — the converters on buffers take each encoding to the other

## Design notes

A string is the list of its bytes or units before the terminator. Bytes that are read behind
a truncated sequence count as zero.
-/

namespace XTOS

open SysLib

/-- The units of a code point. -/
def utf16Units (cp : ℕ) : List ℕ :=
  if cp ≤ 0xFFFF then [cp]
  else [((cp - 0x10000) >>> 10) + 0xD800, ((cp - 0x10000) &&& 0x3FF) + 0xDC00]

/-- One pass of the loop of `xtUTF8toUTF16`: the units it appends and the bytes it uses. -/
def utf8Step (s : List UInt8) : List ℕ × ℕ :=
  let b (k : ℕ) : ℕ := (s.getD k 0).toNat
  if b 0 &&& 0x80 = 0 then (utf16Units (b 0), 1)
  else if b 0 &&& 0xE0 = 0xC0 then
    (utf16Units (((b 0 &&& 0x1F) <<< 6) ||| (b 1 &&& 0x3F)), 2)
  else if b 0 &&& 0xF0 = 0xE0 then
    (utf16Units (((b 0 &&& 0x0F) <<< 12) ||| ((b 1 &&& 0x3F) <<< 6) ||| (b 2 &&& 0x3F)), 3)
  else if b 0 &&& 0xF8 = 0xF0 then
    (utf16Units (((b 0 &&& 0x07) <<< 18) ||| ((b 1 &&& 0x3F) <<< 12) |||
      ((b 2 &&& 0x3F) <<< 6) ||| (b 3 &&& 0x3F)), 4)
  else ([], 1)

/-- The loop of `xtUTF8toUTF16`; every pass uses a byte. -/
def utf8Loop : ℕ → List UInt8 → List ℕ
  | 0, _ => []
  | fuel + 1, s =>
    if s = [] then []
    else (utf8Step s).1 ++ utf8Loop fuel (s.drop (utf8Step s).2)

/-- `xtUTF8toUTF16`. -/
def xtUTF8toUTF16 (utf8 : List UInt8) : List ℕ := utf8Loop utf8.length utf8

/-- The bytes that `xtUTF16toUTF8` appends for a code point. -/
def utf8Bytes (cp : ℕ) : List UInt8 :=
  if cp ≤ 0x7F then [UInt8.ofNat cp]
  else if cp ≤ 0x7FF then [UInt8.ofNat ((cp >>> 6) ||| 0xC0), UInt8.ofNat ((cp &&& 0x3F) ||| 0x80)]
  else if cp ≤ 0xFFFF then
    [UInt8.ofNat ((cp >>> 12) ||| 0xE0), UInt8.ofNat (((cp >>> 6) &&& 0x3F) ||| 0x80),
      UInt8.ofNat ((cp &&& 0x3F) ||| 0x80)]
  else
    [UInt8.ofNat ((cp >>> 18) ||| 0xF0), UInt8.ofNat (((cp >>> 12) &&& 0x3F) ||| 0x80),
      UInt8.ofNat (((cp >>> 6) &&& 0x3F) ||| 0x80), UInt8.ofNat ((cp &&& 0x3F) ||| 0x80)]

/-- The code point of a surrogate pair; the second unit is not checked. -/
def surrogatePair (high low : ℕ) : ℕ :=
  (0x10000 + ((high - 0xD800) <<< 10)) ||| ((low + (2 ^ 32 - 0xDC00)) % 2 ^ 32)

/-- `xtUTF16toUTF8`. -/
def xtUTF16toUTF8 : List ℕ → List UInt8
  | [] => []
  | high :: rest =>
    if 0xD800 ≤ high ∧ high ≤ 0xDBFF then
      match rest with
      | [] => utf8Bytes (surrogatePair high 0)
      | low :: rest => utf8Bytes (surrogatePair high low) ++ xtUTF16toUTF8 rest
    else utf8Bytes high ++ xtUTF16toUTF8 rest

/-- The UTF-8 encoding of a string. -/
def Utf8 (chars : List Char) : List UInt8 := chars.flatMap String.utf8EncodeChar

/-! ### One character -/

/-- The masks that take the payload of a byte. -/
theorem and_payload (x : ℕ) : x &&& 0x3F = x % 64 ∧ x &&& 0x1F = x % 32 ∧ x &&& 0x0F = x % 16 ∧
    x &&& 0x07 = x % 8 ∧ x &&& 0x3FF = x % 1024 :=
  ⟨Nat.and_two_pow_sub_one_eq_mod x 6, Nat.and_two_pow_sub_one_eq_mod x 5,
    Nat.and_two_pow_sub_one_eq_mod x 4, Nat.and_two_pow_sub_one_eq_mod x 3,
    Nat.and_two_pow_sub_one_eq_mod x 10⟩

/-- The masks that tell the length of a sequence. -/
theorem and_lead (x : ℕ) : x &&& 0x80 = x % 2 ^ 8 / 2 ^ 7 * 2 ^ 7 ∧
    x &&& 0xE0 = x % 2 ^ 8 / 2 ^ 5 * 2 ^ 5 ∧ x &&& 0xF0 = x % 2 ^ 8 / 2 ^ 4 * 2 ^ 4 ∧
    x &&& 0xF8 = x % 2 ^ 8 / 2 ^ 3 * 2 ^ 3 :=
  ⟨and_mask x (show 7 ≤ 8 by decide), and_mask x (show 5 ≤ 8 by decide),
    and_mask x (show 4 ≤ 8 by decide), and_mask x (show 3 ≤ 8 by decide)⟩

theorem char_lt (c : Char) : c.val.toNat < 0x110000 ∧
    (c.val.toNat < 0xD800 ∨ 0xDFFF < c.val.toNat) := by
  have h := c.valid
  unfold UInt32.isValidChar Nat.isValidChar at h
  omega

/-- `xtUTF8toUTF16` reads one encoded character. -/
theorem utf8Step_encodeChar (c : Char) (rest : List UInt8) :
    utf8Step (String.utf8EncodeChar c ++ rest) =
      (utf16Units c.val.toNat, (String.utf8EncodeChar c).length) := by
  obtain ⟨hlt, -⟩ := char_lt c
  unfold String.utf8EncodeChar
  dsimp only
  generalize c.val.toNat = v at hlt ⊢
  split_ifs with h1 h2 h3
  · have hb : (UInt8.ofNat v).toNat = v := by
      rw [UInt8.toNat_ofNat']
      omega
    rw [utf8Step]
    simp only [List.cons_append, List.getD_cons_zero, hb, (and_lead v).1]
    rw [if_pos (by omega)]
    rfl
  · have hb0 : (UInt8.ofNat (v / 64 % 0x20 + 0xc0)).toNat = v / 64 + 0xc0 := by
      rw [UInt8.toNat_ofNat']
      omega
    have hb1 : (UInt8.ofNat (v % 0x40 + 0x80)).toNat = v % 64 + 0x80 := by
      rw [UInt8.toNat_ofNat']
      omega
    rw [utf8Step]
    simp only [List.cons_append, List.getD_cons_zero, List.getD_cons_succ, hb0, hb1,
      (and_lead (v / 64 + 0xc0)).1, (and_lead (v / 64 + 0xc0)).2.1, (and_payload _).1,
      (and_payload _).2.1, Nat.shiftLeft_eq]
    rw [if_neg (by omega), if_pos (by omega)]
    have hcp : (v / 64 + 0xc0) % 32 * 2 ^ 6 ||| (v % 64 + 0x80) % 64 = v := by
      rw [or_eq_add (k := 6) (by omega) (by omega)]
      omega
    rw [hcp]
    rfl
  · have hb0 : (UInt8.ofNat (v / 4096 % 0x10 + 0xe0)).toNat = v / 4096 + 0xe0 := by
      rw [UInt8.toNat_ofNat']
      omega
    have hb1 : (UInt8.ofNat (v / 64 % 0x40 + 0x80)).toNat = v / 64 % 64 + 0x80 := by
      rw [UInt8.toNat_ofNat']
      omega
    have hb2 : (UInt8.ofNat (v % 0x40 + 0x80)).toNat = v % 64 + 0x80 := by
      rw [UInt8.toNat_ofNat']
      omega
    rw [utf8Step]
    simp only [List.cons_append, List.getD_cons_zero, List.getD_cons_succ, hb0, hb1, hb2,
      (and_lead (v / 4096 + 0xe0)).1, (and_lead (v / 4096 + 0xe0)).2.1,
      (and_lead (v / 4096 + 0xe0)).2.2.1, (and_payload _).1, (and_payload _).2.2.1,
      Nat.shiftLeft_eq]
    rw [if_neg (by omega), if_neg (by omega), if_pos (by omega)]
    have hcp : (v / 4096 + 0xe0) % 16 * 2 ^ 12 ||| (v / 64 % 64 + 0x80) % 64 * 2 ^ 6 |||
        (v % 64 + 0x80) % 64 = v := by
      have h12 : (v / 4096 + 0xe0) % 16 * 2 ^ 12 ||| (v / 64 % 64 + 0x80) % 64 * 2 ^ 6 =
          (v / 4096 + 0xe0) % 16 * 2 ^ 12 + (v / 64 % 64 + 0x80) % 64 * 2 ^ 6 :=
        or_eq_add (k := 12) (by omega) (by omega)
      rw [h12, or_eq_add (k := 6) (by omega) (by omega)]
      omega
    rw [hcp]
    rfl
  · have hb0 : (UInt8.ofNat (v / 262144 % 0x08 + 0xf0)).toNat = v / 262144 + 0xf0 := by
      rw [UInt8.toNat_ofNat']
      omega
    have hb1 : (UInt8.ofNat (v / 4096 % 0x40 + 0x80)).toNat = v / 4096 % 64 + 0x80 := by
      rw [UInt8.toNat_ofNat']
      omega
    have hb2 : (UInt8.ofNat (v / 64 % 0x40 + 0x80)).toNat = v / 64 % 64 + 0x80 := by
      rw [UInt8.toNat_ofNat']
      omega
    have hb3 : (UInt8.ofNat (v % 0x40 + 0x80)).toNat = v % 64 + 0x80 := by
      rw [UInt8.toNat_ofNat']
      omega
    rw [utf8Step]
    simp only [List.cons_append, List.getD_cons_zero, List.getD_cons_succ, hb0, hb1, hb2, hb3,
      (and_lead (v / 262144 + 0xf0)).1, (and_lead (v / 262144 + 0xf0)).2.1,
      (and_lead (v / 262144 + 0xf0)).2.2.1, (and_lead (v / 262144 + 0xf0)).2.2.2,
      (and_payload _).1, (and_payload _).2.2.2.1, Nat.shiftLeft_eq]
    rw [if_neg (by omega), if_neg (by omega), if_neg (by omega), if_pos (by omega)]
    have hcp : (v / 262144 + 0xf0) % 8 * 2 ^ 18 ||| (v / 4096 % 64 + 0x80) % 64 * 2 ^ 12 |||
        (v / 64 % 64 + 0x80) % 64 * 2 ^ 6 ||| (v % 64 + 0x80) % 64 = v := by
      have h18 : (v / 262144 + 0xf0) % 8 * 2 ^ 18 ||| (v / 4096 % 64 + 0x80) % 64 * 2 ^ 12 =
          (v / 262144 + 0xf0) % 8 * 2 ^ 18 + (v / 4096 % 64 + 0x80) % 64 * 2 ^ 12 :=
        or_eq_add (k := 18) (by omega) (by omega)
      have h12 : (v / 262144 + 0xf0) % 8 * 2 ^ 18 + (v / 4096 % 64 + 0x80) % 64 * 2 ^ 12 |||
          (v / 64 % 64 + 0x80) % 64 * 2 ^ 6 = (v / 262144 + 0xf0) % 8 * 2 ^ 18 +
            (v / 4096 % 64 + 0x80) % 64 * 2 ^ 12 + (v / 64 % 64 + 0x80) % 64 * 2 ^ 6 :=
        or_eq_add (k := 12) (by omega) (by omega)
      rw [h18, h12, or_eq_add (k := 6) (by omega) (by omega)]
      omega
    rw [hcp]
    rfl

/-- The bytes of a code point are its encoding. -/
theorem utf8Bytes_char (c : Char) : utf8Bytes c.val.toNat = String.utf8EncodeChar c := by
  obtain ⟨hlt, -⟩ := char_lt c
  unfold String.utf8EncodeChar utf8Bytes
  dsimp only
  generalize c.val.toNat = v at hlt ⊢
  have h3 : ∀ x, x % 64 ||| 0x80 = x % 64 + 0x80 := fun x => by
    rw [Nat.or_comm, or_eq_add (k := 6) (by decide) (by omega), Nat.add_comm]
  simp only [Nat.shiftRight_eq_div_pow, (and_payload _).1, h3]
  split_ifs with h1 h2 h4
  · rfl
  · have h0 : v / 2 ^ 6 ||| 0xC0 = v / 64 % 0x20 + 0xc0 := by
      rw [Nat.or_comm, or_eq_add (k := 6) (by decide) (by omega)]
      omega
    rw [h0]
  · have h0 : v / 2 ^ 12 ||| 0xE0 = v / 4096 % 0x10 + 0xe0 := by
      rw [Nat.or_comm, or_eq_add (k := 5) (by decide) (by omega)]
      omega
    rw [h0]
  · have h0 : v / 2 ^ 18 ||| 0xF0 = v / 262144 % 0x08 + 0xf0 := by
      rw [Nat.or_comm, or_eq_add (k := 4) (by decide) (by omega)]
      omega
    rw [h0]

/-- `xtUTF16toUTF8` reads the units of one character. -/
theorem xtUTF16toUTF8_units (c : Char) (rest : List ℕ) :
    xtUTF16toUTF8 (utf16Units c.val.toNat ++ rest) =
      String.utf8EncodeChar c ++ xtUTF16toUTF8 rest := by
  obtain ⟨hlt, hsurr⟩ := char_lt c
  rw [← utf8Bytes_char]
  generalize c.val.toNat = v at hlt hsurr ⊢
  unfold utf16Units
  split_ifs with h1
  · rw [List.singleton_append, xtUTF16toUTF8.eq_def]
    dsimp only
    rw [if_neg (by omega)]
  · rw [(and_payload _).2.2.2.2, Nat.shiftRight_eq_div_pow, List.cons_append,
      List.singleton_append, xtUTF16toUTF8.eq_def]
    dsimp only
    rw [if_pos (by omega)]
    have hcp : surrogatePair ((v - 0x10000) / 2 ^ 10 + 0xD800)
        ((v - 0x10000) % 1024 + 0xDC00) = v := by
      rw [surrogatePair, Nat.shiftLeft_eq, or_eq_add (k := 10) (by omega) (by omega)]
      omega
    rw [hcp]

/-! ### Strings -/

theorem length_encodeChar_pos (c : Char) : 0 < (String.utf8EncodeChar c).length := by
  rw [String.length_utf8EncodeChar]
  exact Char.utf8Size_pos c

theorem utf8Loop_encode (chars : List Char) {fuel : ℕ} (hfuel : (Utf8 chars).length ≤ fuel) :
    utf8Loop fuel (Utf8 chars) = chars.flatMap fun c => utf16Units c.val.toNat := by
  induction chars generalizing fuel with
  | nil =>
    cases fuel with
    | zero => rfl
    | succ fuel => rfl
  | cons c chars ih =>
    have hpos := length_encodeChar_pos c
    have hsplit : Utf8 (c :: chars) = String.utf8EncodeChar c ++ Utf8 chars := rfl
    rw [hsplit, List.length_append] at hfuel
    obtain ⟨n, rfl⟩ : ∃ n, fuel = n + 1 := Nat.exists_eq_add_one.mpr (by omega)
    have hne : String.utf8EncodeChar c ++ Utf8 chars ≠ [] := by
      intro hnil
      have hlen := congrArg List.length hnil
      rw [List.length_append, List.length_nil] at hlen
      omega
    rw [hsplit, utf8Loop, if_neg hne, utf8Step_encodeChar, List.drop_left, List.flatMap_cons,
      ih (by omega)]

/-- The units of a string of characters. -/
theorem xtUTF8toUTF16_encode (chars : List Char) :
    xtUTF8toUTF16 (Utf8 chars) = chars.flatMap fun c => utf16Units c.val.toNat :=
  utf8Loop_encode chars le_rfl

/-- **Round trip** of a well-formed string. -/
theorem xtUTF16toUTF8_xtUTF8toUTF16 (chars : List Char) :
    xtUTF16toUTF8 (xtUTF8toUTF16 (Utf8 chars)) = Utf8 chars := by
  rw [xtUTF8toUTF16_encode]
  induction chars with
  | nil => rfl
  | cons c chars ih =>
    rw [List.flatMap_cons, xtUTF16toUTF8_units, ih]
    rfl

/-! ### Buffers -/

/-- The UTF-16 encoding of a character. -/
def utf16EncodeChar (c : Char) : List ℕ :=
  let v := c.val.toNat
  if v < 0x10000 then [v]
  else [0xD800 + (v - 0x10000) / 0x400, 0xDC00 + (v - 0x10000) % 0x400]

/-- The UTF-16 encoding of a string. -/
def Utf16 (chars : List Char) : List ℕ := chars.flatMap utf16EncodeChar

/-- The string in a buffer: what is in front of the first zero. -/
def cString {α : Type*} [DecidableEq α] [OfNat α 0] (buffer : List α) : List α :=
  buffer.takeWhile (· ≠ 0)

/-- `xtUTF8toUTF16` on the buffer at `utf8`: what it leaves at `utf16`. -/
def utf8BufferToUTF16 (utf8 : List UInt8) : List ℕ := xtUTF8toUTF16 (cString utf8) ++ [0]

/-- `xtUTF16toUTF8` on the buffer at `utf16`: what it leaves at `utf8`. -/
def utf16BufferToUTF8 (utf16 : List ℕ) : List UInt8 := xtUTF16toUTF8 (cString utf16) ++ [0]

theorem utf16Units_char (c : Char) : utf16Units c.val.toNat = utf16EncodeChar c := by
  rw [utf16Units, utf16EncodeChar]
  rw [(and_payload _).2.2.2.2, Nat.shiftRight_eq_div_pow, Nat.add_comm _ 0xD800,
    Nat.add_comm _ 0xDC00]
  split_ifs with h1 h2 h2
  · rfl
  · omega
  · omega
  · rfl

theorem xtUTF8toUTF16_utf8 (chars : List Char) : xtUTF8toUTF16 (Utf8 chars) = Utf16 chars := by
  rw [xtUTF8toUTF16_encode, Utf16]
  congr 1
  funext c
  exact utf16Units_char c

theorem xtUTF16toUTF8_utf16 (chars : List Char) : xtUTF16toUTF8 (Utf16 chars) = Utf8 chars := by
  rw [← xtUTF8toUTF16_utf8, xtUTF16toUTF8_xtUTF8toUTF16]

theorem cString_append {α : Type*} [DecidableEq α] [OfNat α 0] {s : List α} (rest : List α)
    (h : ∀ x ∈ s, x ≠ 0) : cString (s ++ 0 :: rest) = s := by
  rw [cString, List.takeWhile_append_of_pos (by simpa using h),
    List.takeWhile_cons_of_neg (by simp), List.append_nil]

theorem utf16EncodeChar_ne_zero {c : Char} (hc : c.val ≠ 0) :
    ∀ u ∈ utf16EncodeChar c, u ≠ 0 := by
  have hv : c.val.toNat ≠ 0 := fun h => hc (UInt32.toNat_inj.mp h)
  intro u hu
  rw [utf16EncodeChar] at hu
  split_ifs at hu with hsmall
  · rw [List.mem_singleton.mp hu]
    exact hv
  · simp only [List.mem_cons, List.not_mem_nil, or_false] at hu
    omega

theorem utf8EncodeChar_ne_zero {c : Char} (hc : c.val ≠ 0) :
    ∀ b ∈ String.utf8EncodeChar c, b ≠ 0 := by
  have hv : c.val.toNat ≠ 0 := fun h => hc (UInt32.toNat_inj.mp h)
  have hbyte : ∀ n, 0 < n → n < 256 → UInt8.ofNat n ≠ 0 := by
    intro n h0 hlt hzero
    have hnat := congrArg UInt8.toNat hzero
    rw [UInt8.toNat_ofNat', Nat.mod_eq_of_lt (by omega)] at hnat
    exact h0.ne' hnat
  intro b hb
  rw [String.utf8EncodeChar] at hb
  generalize c.val.toNat = v at hb hv
  split_ifs at hb with h1 h2 h3
  all_goals
    simp only [List.mem_cons, List.not_mem_nil, or_false] at hb
    rcases hb with rfl | rfl | rfl | rfl <;> exact hbyte _ (by omega) (by omega)

/-- **Converters**: on every buffer with a string of characters other than U+0000 each of the
    two yields the other encoding, with a terminator. -/
theorem buffers_inverse (chars : List Char) (h : ∀ c ∈ chars, c.val ≠ 0) (rest : List UInt8)
    (rest' : List ℕ) :
    utf8BufferToUTF16 (Utf8 chars ++ 0 :: rest) = Utf16 chars ++ [0] ∧
      utf16BufferToUTF8 (Utf16 chars ++ 0 :: rest') = Utf8 chars ++ [0] ∧
      cString (Utf16 chars ++ [0]) = Utf16 chars ∧ cString (Utf8 chars ++ [0]) = Utf8 chars := by
  have h8 : ∀ b ∈ Utf8 chars, b ≠ 0 := by
    intro b hb
    obtain ⟨c, hc, hb⟩ := List.mem_flatMap.mp hb
    exact utf8EncodeChar_ne_zero (h c hc) b hb
  have h16 : ∀ u ∈ Utf16 chars, u ≠ 0 := by
    intro u hu
    obtain ⟨c, hc, hu⟩ := List.mem_flatMap.mp hu
    exact utf16EncodeChar_ne_zero (h c hc) u hu
  refine ⟨?_, ?_, cString_append [] h16, cString_append [] h8⟩
  · rw [utf8BufferToUTF16, cString_append rest h8, xtUTF8toUTF16_utf8]
  · rw [utf16BufferToUTF8, cString_append rest' h16, xtUTF16toUTF8_utf16]

/-- One character of each length. -/
theorem buffers_inverse_four : (∀ c ∈ ['a', 'é', '€', '😀'], c.val ≠ 0) ∧
    utf8BufferToUTF16 (Utf8 ['a', 'é', '€', '😀'] ++ [0]) =
      [0x61, 0xE9, 0x20AC, 0xD83D, 0xDE00, 0] := by
  have h : ∀ c ∈ ['a', 'é', '€', '😀'], c.val ≠ 0 := by simp
  refine ⟨h, (buffers_inverse _ h [] []).1.trans ?_⟩
  decide

end XTOS

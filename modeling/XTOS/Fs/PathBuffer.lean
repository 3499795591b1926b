import XTOS.Fs.Normalize

/-!
# The buffer of a normalised path

`xtNormalizePath` of `xtkernel/fs.c` on the bytes of its buffer, with the places where it writes.
The model on lists is what the buffer holds.

## Main definitions

- `PathBuffer` — `buffer`, `len`, and the indices that were written
- `xtNormalizePathIn` — the function on a buffer
- `Holds` — the string in a buffer, which fits into it
- `NormalForm` — a normalised path

## Main results

- `xtNormalizePathIn_outcome` — the buffer holds what the model on lists returns
- `normalizePath_normal` — writes stay in the buffer, and a result is in normal form and stays
  as it is when it is normalised again
-/

namespace XTOS.Fs

/-- `buffer` by index and `len`, with the indices that were written. -/
structure PathBuffer where
  byte : ℕ → UInt8
  len : ℕ
  writes : List ℕ

/-- `buffer[i] = b`. -/
def PathBuffer.put (B : PathBuffer) (i : ℕ) (b : UInt8) : PathBuffer :=
  { B with byte := Function.update B.byte i b, writes := i :: B.writes }

/-- `buffer[len++] = b`. -/
def PathBuffer.push (B : PathBuffer) (b : UInt8) : PathBuffer :=
  { B.put B.len b with len := B.len + 1 }

/-- The loop that looks for the last slash, from a position down. -/
def lastSlashIn (byte : ℕ → UInt8) : ℕ → ℕ
  | 0 => 0
  | pos + 1 => if byte (pos + 1) ≠ 0x2f then lastSlashIn byte pos else pos + 1

/-- What `..` does. -/
def dropComponentIn (B : PathBuffer) : PathBuffer :=
  if 1 < B.len then
    let pos := lastSlashIn B.byte (B.len - 1)
    if pos = 0 then { B.put 1 0 with len := 1 } else { B.put pos 0 with len := pos }
  else B

/-- The end of a pass: the name is copied, and the terminator is put behind it. -/
def copyNameIn (buffsize : ℕ) (B : PathBuffer) (name : List UInt8) : XTResult × PathBuffer :=
  if buffsize ≤ B.len + name.length then (.outOfBoundary, B)
  else
    let B := name.foldl PathBuffer.push B
    (.success, B.put B.len 0)

/-- What any other component does. The slash may be written before there turns out to be no
    room for the name. -/
def addComponentIn (buffsize : ℕ) (B : PathBuffer) (name : List UInt8) : XTResult × PathBuffer :=
  if 1 < B.len then
    if buffsize ≤ B.len + 1 then (.outOfBoundary, B)
    else copyNameIn buffsize (B.push 0x2f) name
  else copyNameIn buffsize B name

/-- The loop of `xtNormalizePath`. -/
def normalizeLoopIn (buffsize : ℕ) : ℕ → List UInt8 → PathBuffer → XTResult × PathBuffer
  | 0, _, B => (.success, B)
  | fuel + 1, path, B =>
    match path.dropWhile isSeparator with
    | [] => (.success, B)
    | b :: path =>
      let (name, rest) := takeComponent 255 (b :: path)
      if name = [] then normalizeLoopIn buffsize fuel rest B
      else if xtStringICmp name [0x2e] 4096 then normalizeLoopIn buffsize fuel rest B
      else if xtStringICmp name [0x2e, 0x2e] 4096 then
        normalizeLoopIn buffsize fuel rest (dropComponentIn B)
      else
        match addComponentIn buffsize B name with
        | (.success, B) => normalizeLoopIn buffsize fuel rest B
        | r => r

/-- `xtNormalizePath` on a buffer. -/
def xtNormalizePathIn (path : List UInt8) (buffsize : ℕ) (buffer : ℕ → UInt8) :
    XTResult × PathBuffer :=
  let B : PathBuffer := ⟨buffer, 0, []⟩
  if buffsize = 0 then (.invalidParameter, B)
  else if path.head?.all (!isSeparator ·) then (.invalidParameter, B)
  else
    match normalizeLoopIn buffsize (path.length + 1) path { (B.put 0 0x2f).put 1 0 with len := 1 } with
    | (.success, B) =>
      (.success, if 1 < B.len ∧ B.byte (B.len - 1) = 0x2f then
        { B.put (B.len - 1) 0 with len := B.len - 1 } else B)
    | r => r

/-- The buffer holds the string with its terminator, and everything so far was inside it. -/
structure Holds (buffsize : ℕ) (B : PathBuffer) (s : List UInt8) : Prop where
  len : B.len = s.length
  fits : s.length < buffsize
  bytes : StringAt B.byte 0 s
  writes : ∀ i ∈ B.writes, i < buffsize

/-- What the function on a buffer does where the one on lists returns a result. -/
def Outcome (buffsize : ℕ) : Except XTResult (List UInt8) → XTResult × PathBuffer → Prop
  | .ok s, r => r.1 = .success ∧ Holds buffsize r.2 s
  | .error e, r => e ≠ .success ∧ r.1 = e ∧ ∀ i ∈ r.2.writes, i < buffsize

/-- A normalised path: a slash in front, none at the end, and names between the slashes. -/
structure NormalForm (s : List UInt8) : Prop where
  slash : s.head? = some 0x2f
  last : s = [0x2f] ∨ ∀ b, s.getLast? = some b → isSeparator b = false
  names : ∃ cs, (∀ c ∈ cs, NormalName c) ∧ s = pathBytes cs

variable {B : PathBuffer} {s name : List UInt8} {buffsize fuel : ℕ}

/-! ### Steps on the buffer -/

theorem lastSlashIn_eq {n : ℕ} (h : ∀ i ≤ n, B.byte i = s.getD i 0) :
    lastSlashIn B.byte n = lastSlash s n := by
  induction n with
  | zero => rfl
  | succ n ih =>
    rw [lastSlashIn, lastSlash, h (n + 1) le_rfl, ih fun i hi => h i (Nat.le_succ_of_le hi)]

theorem Holds.byte (h : Holds buffsize B s) {i : ℕ} (hi : i ≤ s.length) :
    B.byte i = s.getD i 0 := by
  have hbyte := h.bytes i hi
  rwa [Nat.zero_add] at hbyte

/-- The buffer while a name is copied: the string without a terminator. -/
structure Open (buffsize : ℕ) (B : PathBuffer) (s : List UInt8) : Prop where
  len : B.len = s.length
  bytes : ∀ i < s.length, B.byte i = s.getD i 0
  writes : ∀ i ∈ B.writes, i < buffsize

theorem Holds.toOpen (h : Holds buffsize B s) : Open buffsize B s where
  len := h.len
  bytes _ hi := h.byte hi.le
  writes := h.writes

theorem Open.push (h : Open buffsize B s) (hlt : s.length < buffsize) (b : UInt8) :
    Open buffsize (B.push b) (s ++ [b]) where
  len := by
    rw [List.length_append, List.length_singleton, ← h.len]
    rfl
  bytes i hi := by
    rw [List.length_append, List.length_singleton] at hi
    have hupdate : (B.push b).byte i = Function.update B.byte B.len b i := rfl
    rw [hupdate, h.len]
    by_cases hlast : i = s.length
    · subst hlast
      rw [Function.update_self, List.getD_append_right _ _ _ _ le_rfl, Nat.sub_self]
      rfl
    · rw [Function.update_of_ne hlast, h.bytes i (by omega), List.getD_append _ _ _ _ (by omega)]
  writes := by
    intro j hj
    obtain rfl | hj := List.mem_cons.mp hj
    · rwa [h.len]
    · exact h.writes j hj

theorem Open.pushAll (h : Open buffsize B s) (hle : s.length + name.length ≤ buffsize) :
    Open buffsize (name.foldl PathBuffer.push B) (s ++ name) := by
  induction name generalizing B s with
  | nil => rwa [List.append_nil]
  | cons b name ih =>
    rw [List.length_cons] at hle
    have hpush := ih (h.push (by omega) b)
      (by rw [List.length_append, List.length_singleton]; omega)
    rwa [List.append_assoc, List.singleton_append] at hpush

/-- The terminator behind a part of the string. -/
theorem Open.close (h : Open buffsize B s) {k : ℕ} (hk : k ≤ s.length) (hlt : k < buffsize) :
    Holds buffsize { B.put k 0 with len := k } (s.take k) where
  len := by
    rw [List.length_take, Nat.min_eq_left hk]
  fits := by
    rw [List.length_take]
    omega
  bytes i hi := by
    rw [List.length_take, Nat.min_eq_left hk] at hi
    have hupdate : ({ B.put k 0 with len := k } : PathBuffer).byte (0 + i) =
        Function.update B.byte k 0 i := by
      rw [Nat.zero_add]
      rfl
    rw [hupdate]
    by_cases hlast : i = k
    · rw [hlast, Function.update_self, List.getD_eq_default]
      rw [List.length_take]
      omega
    · rw [Function.update_of_ne hlast, h.bytes i (by omega),
        List.getD_eq_getElem _ _ (by omega), List.getD_eq_getElem _ _
          (by rw [List.length_take]; omega), List.getElem_take]
  writes i hi := by
    obtain rfl | hi := List.mem_cons.mp hi
    · exact hlt
    · exact h.writes i hi

theorem lastSlash_le (s : List UInt8) (n : ℕ) : lastSlash s n ≤ n := by
  induction n with
  | zero => exact le_rfl
  | succ n ih =>
    rw [lastSlash]
    split_ifs
    · exact ih.trans (Nat.le_succ n)
    · exact le_rfl

/-- `..` on the buffer. -/
theorem Holds.dropComponent (h : Holds buffsize B s) :
    Holds buffsize (dropComponentIn B) (dropComponent s) := by
  have hfits := h.fits
  rw [dropComponentIn, Fs.dropComponent, h.len]
  split_ifs with hlong
  · have hpos := lastSlash_le s (s.length - 1)
    dsimp only
    rw [lastSlashIn_eq fun i hi => h.byte (hi.trans (Nat.sub_le _ _))]
    split_ifs
    · exact h.toOpen.close (by omega) (by omega)
    · exact h.toOpen.close (by omega) (by omega)
  · exact h

/-- The name behind what the buffer holds. -/
theorem copyNameIn_outcome (h : Open buffsize B s) (name : List UInt8) :
    Outcome buffsize (if buffsize ≤ s.length + name.length then .error .outOfBoundary
      else .ok (s ++ name)) (copyNameIn buffsize B name) := by
  rw [copyNameIn, h.len]
  split_ifs with hfull
  · exact ⟨by decide, rfl, h.writes⟩
  · have hopen : Open buffsize (name.foldl PathBuffer.push B) (s ++ name) :=
      h.pushAll (by omega)
    have hclose := hopen.close le_rfl (by rw [List.length_append]; omega)
    rw [List.take_length, ← hopen.len] at hclose
    exact ⟨rfl, hclose⟩

/-- Any other component on the buffer. -/
theorem Holds.addComponent (h : Holds buffsize B s) (name : List UInt8) :
    Outcome buffsize (addComponent buffsize s name) (addComponentIn buffsize B name) := by
  rw [Fs.addComponent, addComponentIn, h.len]
  by_cases hlong : 1 < s.length
  · rw [if_pos hlong, if_pos hlong]
    by_cases hfull : buffsize ≤ s.length + 1
    · rw [if_pos hfull, if_pos hfull]
      exact ⟨by decide, rfl, h.writes⟩
    · have hcopy := copyNameIn_outcome (h.toOpen.push h.fits 0x2f) name
      rw [List.length_append, List.length_singleton, List.append_assoc,
        List.singleton_append] at hcopy
      rwa [if_neg hfull, if_neg hfull]
  · rw [if_neg hlong, if_neg hlong]
    exact copyNameIn_outcome h.toOpen name

/-- Two steps, the second one only after a success. -/
theorem Outcome.bind {f : List UInt8 → Except XTResult (List UInt8)}
    {g : PathBuffer → XTResult × PathBuffer}
    (hnext : ∀ s B, Holds buffsize B s → Outcome buffsize (f s) (g B))
    (x : Except XTResult (List UInt8)) (r : XTResult × PathBuffer) :
    Outcome buffsize x r →
    Outcome buffsize (match x with | .error e => .error e | .ok s => f s)
      (match r with | (.success, B) => g B | r => r) := by
  intro h
  cases x with
  | error e =>
    obtain ⟨hne, rfl, hwrites⟩ := h
    dsimp only
    split
    · exact absurd rfl hne
    · exact ⟨hne, rfl, hwrites⟩
  | ok s =>
    obtain ⟨r, B⟩ := r
    obtain ⟨hsuccess, hholds⟩ := h
    obtain rfl : r = .success := hsuccess
    exact hnext s B hholds

/-- The loop on the buffer. -/
theorem Holds.normalizeLoop (h : Holds buffsize B s) (fuel : ℕ) (path : List UInt8) :
    Outcome buffsize (normalizeLoop buffsize fuel path s)
      (normalizeLoopIn buffsize fuel path B) := by
  induction fuel generalizing path B s with
  | zero => exact ⟨rfl, h⟩
  | succ fuel ih =>
    rw [Fs.normalizeLoop, normalizeLoopIn]
    cases path.dropWhile isSeparator with
    | nil => exact ⟨rfl, h⟩
    | cons b rest =>
      dsimp only
      split_ifs
      · exact ih h _
      · exact ih h _
      · exact ih h.dropComponent _
      · exact Outcome.bind (fun _ _ h => ih h _) _ _ (h.addComponent _)

/-- The slash that is taken off at the end. -/
theorem Holds.trim (h : Holds buffsize B s) :
    Holds buffsize (if 1 < B.len ∧ B.byte (B.len - 1) = 0x2f then
        { B.put (B.len - 1) 0 with len := B.len - 1 } else B)
      (if 1 < s.length ∧ s.getLast? = some 0x2f then s.dropLast else s) := by
  have hfits := h.fits
  by_cases hlong : 1 < s.length
  · have hlast : B.byte (s.length - 1) = 0x2f ↔ s.getLast? = some 0x2f := by
      rw [h.byte (Nat.sub_le _ _), List.getD_eq_getElem _ _ (by omega), List.getLast?_eq_getElem?,
        List.getElem?_eq_getElem (by omega), Option.some_inj]
    rw [h.len]
    simp only [hlong, true_and, hlast]
    split_ifs
    · rw [List.dropLast_eq_take]
      exact h.toOpen.close (Nat.sub_le _ _) (by omega)
    · exact h
  · rw [h.len, if_neg fun hcon => hlong hcon.1, if_neg fun hcon => hlong hcon.1]
    exact h

/-- The buffer holds what the model on lists returns, and nothing is written outside it. -/
theorem xtNormalizePathIn_outcome (path : List UInt8) (hsize : 2 ≤ buffsize) (buffer : ℕ → UInt8) :
    Outcome buffsize (xtNormalizePath path buffsize) (xtNormalizePathIn path buffsize buffer) := by
  have hnone : ∀ i ∈ ([] : List ℕ), i < buffsize := List.forall_mem_nil _
  have hpos : ¬ buffsize = 0 := by omega
  rw [xtNormalizePath, xtNormalizePathIn, if_neg hpos, if_neg hpos]
  by_cases hrel : path.head?.all (!isSeparator ·) = true
  · rw [if_pos hrel, if_pos hrel]
    exact ⟨by decide, rfl, hnone⟩
  rw [if_neg hrel, if_neg hrel]
  have hstart : Holds buffsize { ((⟨buffer, 0, []⟩ : PathBuffer).put 0 0x2f).put 1 0 with len := 1 }
      [0x2f] := by
    refine ⟨rfl, by rw [List.length_singleton]; omega, fun i hi => ?_, fun i hi => ?_⟩
    · rw [List.length_singleton] at hi
      obtain rfl | rfl : i = 0 ∨ i = 1 := by omega
      · rfl
      · rfl
    · simp only [PathBuffer.put, List.mem_cons, List.not_mem_nil, or_false] at hi
      omega
  refine Outcome.bind (fun s B h => ?_) _ _ (hstart.normalizeLoop (path.length + 1) path)
  exact ⟨rfl, h.trim⟩

/-! ### Normal forms -/

variable {cs ds : List (List UInt8)} {c : List UInt8}

/-- The last byte of a normalised path is the last one of its last component. -/
theorem pathBytes_plain {b : UInt8} (hcs : ∀ c ∈ cs, Component c) (hne : cs ≠ [])
    (hlast : (pathBytes cs).getLast? = some b) : isSeparator b = false := by
  obtain ⟨ds, c, rfl⟩ := (List.eq_nil_or_concat cs).resolve_left hne
  rw [List.concat_eq_append] at hcs hlast
  have hc := hcs c (List.mem_append_right _ (List.mem_singleton_self c))
  have hend : ∃ t, pathBytes (ds ++ [c]) = t ++ c := by
    rw [pathBytes, joinPath_concat]
    split_ifs
    · exact ⟨[0x2f], rfl⟩
    · exact ⟨0x2f :: joinPath ds ++ [0x2f], by simp⟩
  obtain ⟨t, ht⟩ := hend
  rw [ht, List.getLast?_append_of_ne_nil _ hc.ne_nil] at hlast
  exact (hc.plain b (List.mem_of_getLast? hlast)).2

theorem pathBytes_normalForm (hcs : ∀ c ∈ cs, NormalName c) : NormalForm (pathBytes cs) where
  slash := rfl
  last := by
    by_cases hne : cs = []
    · rw [hne]
      exact .inl rfl
    · exact .inr fun b hb => pathBytes_plain (fun c hc => (hcs c hc).toComponent) hne hb
  names := ⟨cs, hcs, rfl⟩

/-- The names of a normalised path are its components. -/
theorem names_pathBytes (hcs : ∀ c ∈ cs, Component c) : names (pathBytes cs) = cs := by
  rw [pathBytes, names_separator rfl]
  induction cs with
  | nil => exact names_nil
  | cons c cs ih =>
    have hc := hcs c List.mem_cons_self
    have hplain : ∀ b ∈ c, isSeparator b = false := fun b hb => (hc.plain b hb).2
    have hrest := ih fun d hd => hcs d (List.mem_cons_of_mem _ hd)
    cases cs with
    | nil =>
      have happend := names_append hplain (.inl rfl)
      rwa [List.append_nil, names_nil, pieces_short hc.ne_nil hc.length] at happend
    | cons d cs =>
      rw [joinPath, names_append hplain (.inr ⟨_, _, rfl, rfl⟩), names_separator rfl, hrest,
        pieces_short hc.ne_nil hc.length]
      rfl

/-- A name that fits into the buffer is put behind the others. -/
theorem nameStep_fits (hcs : ∀ c ∈ cs, Component c) (hc : NormalName c)
    (hfits : (pathBytes (cs ++ [c])).length < buffsize) :
    nameStep buffsize (pathBytes cs) c = .ok (pathBytes (cs ++ [c])) := by
  obtain ⟨hdot, hdots⟩ := xtStringICmp_dots hc.length
  rw [nameStep, if_neg hc.ne_nil, if_neg fun h => hc.not_dot (hdot.mp h),
    if_neg fun h => hc.not_dots (hdots.mp h), addComponent, pathBytes.eq_def (cs ++ [c]),
    joinPath_concat]
  rw [pathBytes, joinPath_concat] at hfits
  by_cases hne : cs = []
  · rw [if_pos hne, List.length_cons] at hfits
    subst hne
    have hlen : (pathBytes []).length = 1 := rfl
    rw [if_pos rfl, if_neg (by omega), if_neg (by omega)]
    rfl
  · rw [if_neg hne, List.length_cons, List.length_append, List.length_cons] at hfits
    have hlen : (pathBytes cs).length = (joinPath cs).length + 1 := rfl
    rw [if_pos ((pathBytes_long hcs).mpr hne), if_neg (by omega), if_neg (by omega), if_neg hne]
    rfl

theorem length_pathBytes_le (cs ds : List (List UInt8)) :
    (pathBytes cs).length ≤ (pathBytes (cs ++ ds)).length := by
  induction ds using List.reverseRecOn with
  | nil => rw [List.append_nil]
  | append_singleton ds d ih =>
    apply ih.trans
    rw [← List.append_assoc, pathBytes, pathBytes, joinPath_concat, List.length_cons,
      List.length_cons]
    split_ifs with hnil
    · rw [hnil]
      exact Nat.succ_le_succ (Nat.zero_le _)
    · rw [List.length_append]
      omega

/-- Names that fit into the buffer together are put there one by one. -/
theorem foldlM_nameStep_fits (hcs : ∀ c ∈ cs, Component c) (hds : ∀ d ∈ ds, NormalName d)
    (hfits : (pathBytes (cs ++ ds)).length < buffsize) :
    ds.foldlM (nameStep buffsize) (pathBytes cs) = .ok (pathBytes (cs ++ ds)) := by
  induction ds generalizing cs with
  | nil =>
    rw [List.append_nil]
    rfl
  | cons d ds ih =>
    have hd := hds d List.mem_cons_self
    rw [List.append_cons cs d ds] at hfits
    have hle := length_pathBytes_le (cs ++ [d]) ds
    have hstep := nameStep_fits hcs hd (hle.trans_lt hfits)
    have hmore : ∀ c ∈ cs ++ [d], Component c := by
      intro c hc
      obtain hc | hc := List.mem_append.mp hc
      · exact hcs c hc
      · rw [List.mem_singleton.mp hc]
        exact hd.toComponent
    rw [List.foldlM_cons, hstep, List.append_cons cs d ds]
    exact ih hmore (fun e he => hds e (List.mem_cons_of_mem _ he)) hfits

theorem pathBytes_ne_zero (hcs : ∀ c ∈ cs, Component c) : ∀ b ∈ pathBytes cs, b ≠ 0 := by
  induction cs using List.reverseRecOn with
  | nil => simp [pathBytes, joinPath]
  | append_singleton cs c ih =>
    have hc := hcs c (List.mem_append_right _ (List.mem_singleton_self c))
    have hfront := ih fun d hd => hcs d (List.mem_append_left _ hd)
    intro b hb
    rw [pathBytes, joinPath_concat] at hb
    split_ifs at hb with hnil
    · obtain rfl | hb := List.mem_cons.mp hb
      · decide
      · exact (hc.plain b hb).1
    · rw [← List.cons_append] at hb
      obtain hb | hb := List.mem_append.mp hb
      · exact hfront b hb
      · obtain rfl | hb := List.mem_cons.mp hb
        · decide
        · exact (hc.plain b hb).1

/-- A normalised path that fits stays as it is. -/
theorem xtNormalizePath_pathBytes (hcs : ∀ c ∈ cs, NormalName c)
    (hfits : (pathBytes cs).length < buffsize) :
    xtNormalizePath (pathBytes cs) buffsize = .ok (pathBytes cs) := by
  have hcomponent : ∀ c ∈ cs, Component c := fun c hc => (hcs c hc).toComponent
  rw [xtNormalizePath_foldlM (pathBytes_ne_zero hcomponent) rfl (by omega),
    names_pathBytes hcomponent]
  exact foldlM_nameStep_fits (List.forall_mem_nil _) hcs hfits

/-- **Normalisation** writes into the buffer only. A result is in normal form, and normalising
    it again gives the same string. -/
theorem normalizePath_normal (path : List UInt8) (buffsize : ℕ) (buffer : ℕ → UInt8)
    (hpath : ∀ b ∈ path, b ≠ 0) (hsize : 2 ≤ buffsize) :
    (∀ i ∈ (xtNormalizePathIn path buffsize buffer).2.writes, i < buffsize) ∧
    ((xtNormalizePathIn path buffsize buffer).1 = .success → ∃ s,
      StringAt (xtNormalizePathIn path buffsize buffer).2.byte 0 s ∧ NormalForm s ∧
      ∀ buffer', (xtNormalizePathIn s buffsize buffer').1 = .success ∧
        StringAt (xtNormalizePathIn s buffsize buffer').2.byte 0 s) := by
  have houtcome := xtNormalizePathIn_outcome path hsize buffer
  cases hresult : xtNormalizePath path buffsize with
  | error e =>
    rw [hresult] at houtcome
    obtain ⟨hne, hfailed, hwrites⟩ := houtcome
    exact ⟨hwrites, fun hsuccess => absurd (hfailed.symm.trans hsuccess) hne⟩
  | ok s =>
    rw [hresult] at houtcome
    obtain ⟨-, hholds⟩ := houtcome
    obtain ⟨rfl, hnames⟩ := xtNormalizePath_spec hpath hresult
    refine ⟨hholds.writes, fun _ => ⟨_, hholds.bytes, pathBytes_normalForm hnames, ?_⟩⟩
    intro buffer'
    have hagain := xtNormalizePathIn_outcome (pathBytes (resolve (names path))) hsize buffer'
    rw [xtNormalizePath_pathBytes hnames hholds.fits] at hagain
    exact ⟨hagain.1, hagain.2.bytes⟩

/-- The path `/a/../b`. -/
def climbingPath : List UInt8 := [0x2f, 0x61, 0x2f, 0x2e, 0x2e, 0x2f, 0x62]

/-- It fits into three bytes when it is normalised. -/
theorem normalizePath_normal_climbing : (∀ b ∈ climbingPath, b ≠ 0) ∧
    (xtNormalizePathIn climbingPath 3 fun _ => 0xff).1 = .success ∧
    (∀ i ∈ (xtNormalizePathIn climbingPath 3 fun _ => 0xff).2.writes, i < 3) ∧
    ∃ s, StringAt (xtNormalizePathIn climbingPath 3 fun _ => 0xff).2.byte 0 s ∧ NormalForm s := by
  have hpath : ∀ b ∈ climbingPath, b ≠ 0 := by simp [climbingPath]
  have hsuccess : (xtNormalizePathIn climbingPath 3 fun _ => 0xff).1 = .success := by
    decide +kernel
  obtain ⟨hwrites, hnormal⟩ := normalizePath_normal climbingPath 3 (fun _ => 0xff) hpath
    (by decide)
  obtain ⟨s, hs, hform, -⟩ := hnormal hsuccess
  exact ⟨hpath, hsuccess, hwrites, s, hs, hform⟩

end XTOS.Fs

import Mathlib.Data.List.TakeWhile
import XTOS.Fs.Paths

/-!
# The meaning of a path

`xtNormalizePath` of `xtkernel/fs.c` compared with the reading of a path as a list of
components that go up and down from the root.

## Main definitions

- `resolve` — the components that are left when `.` and `..` are taken for what they mean
- `pieces`, `names` — the names that the loop takes from a path: the components, cut into
  pieces of 255 bytes

## Main results

- `normalizeLoop_eq` — the loop goes from name to name
- `xtNormalizePath_spec` — a result is `resolve` of the names, which are components
- `xtNormalizePath_eq` — in a buffer that is large enough the result is `resolve` of the names
- `normalize_resolve_iff` — it is `resolve` of the components exactly if the cuts do not matter
-/

namespace XTOS.Fs

/-- A component put on the stack: an empty one and `.` do nothing, and `..` takes one away. -/
def pushName (cs : List (List UInt8)) (c : List UInt8) : List (List UInt8) :=
  if c = [] then cs
  else if c = [0x2e] then cs
  else if c = [0x2e, 0x2e] then cs.dropLast
  else cs ++ [c]

/-- What the components of a path come to. -/
def resolve (cs : List (List UInt8)) : List (List UInt8) := cs.foldl pushName []

/-- What is between the separators of a path. -/
def components (path : List UInt8) : List (List UInt8) := path.splitOnP isSeparator

/-- A component in pieces of 255 bytes; the last one may be shorter. -/
def pieces (c : List UInt8) : List (List UInt8) :=
  if c = [] then [] else c.take 255 :: pieces (c.drop 255)
termination_by c.length
decreasing_by
  rw [List.length_drop]
  have := List.length_pos_of_ne_nil ‹_›
  omega

/-- The names that the loop takes from a path. -/
def names (path : List UInt8) : List (List UInt8) := (components path).flatMap pieces

/-- What a pass of the loop does with a name. -/
def nameStep (buffsize : ℕ) (buffer name : List UInt8) : Except XTResult (List UInt8) :=
  if name = [] then .ok buffer
  else if xtStringICmp name [0x2e] 4096 then .ok buffer
  else if xtStringICmp name [0x2e, 0x2e] 4096 then .ok (dropComponent buffer)
  else addComponent buffsize buffer name

/-- A component that stays in a normalised path. -/
structure NormalName (c : List UInt8) : Prop extends Component c where
  not_dot : c ≠ [0x2e]
  not_dots : c ≠ [0x2e, 0x2e]

variable {path buffer b c r : List UInt8} {cs ds : List (List UInt8)} {buffsize n fuel : ℕ}

/-! ### The names of a path -/

theorem pieces_nil : pieces [] = [] := by
  rw [pieces, if_pos rfl]

theorem pieces_of_ne_nil (h : c ≠ []) : pieces c = c.take 255 :: pieces (c.drop 255) := by
  rw [pieces, if_neg h]

/-- A component of at most 255 bytes is not cut. -/
theorem pieces_short (h : c ≠ []) (hlen : c.length ≤ 255) : pieces c = [c] := by
  rw [pieces_of_ne_nil h, List.take_of_length_le hlen, List.drop_of_length_le hlen, pieces_nil]

theorem names_nil : names [] = [] := by
  rw [names, components, List.splitOnP_nil, List.flatMap_singleton, pieces_nil]

theorem components_separator {s : UInt8} (hs : isSeparator s = true) (t : List UInt8) :
    components (s :: t) = [] :: components t := by
  rw [components, List.splitOnP_cons_eq_if_modifyHead, if_pos hs, components]

theorem names_separator {s : UInt8} (hs : isSeparator s = true) (t : List UInt8) :
    names (s :: t) = names t := by
  rw [names, components_separator hs, List.flatMap_cons, pieces_nil, List.nil_append, names]

/-- Bytes without separators and what follows them. -/
theorem names_append (hc : ∀ b ∈ c, isSeparator b = false)
    (hr : r = [] ∨ ∃ s t, r = s :: t ∧ isSeparator s = true) :
    names (c ++ r) = pieces c ++ names r := by
  obtain rfl | ⟨s, t, rfl, hs⟩ := hr
  · rw [List.append_nil, names_nil, List.append_nil, names, components,
      List.splitOnP_eq_singleton hc, List.flatMap_singleton]
  · rw [names_separator hs, names, components,
      List.splitOnP_append_cons_of_forall_mem hc s hs, List.flatMap_cons]
    rfl

/-- Separators in front of a path do not matter. -/
theorem names_dropWhile (path : List UInt8) : names (path.dropWhile isSeparator) = names path := by
  induction path with
  | nil => rfl
  | cons s t ih =>
    by_cases hs : isSeparator s = true
    · rw [List.dropWhile_cons_of_pos hs, ih, names_separator hs]
    · rw [List.dropWhile_cons_of_neg hs]

/-- What the loop takes is cut off the bytes in front of the first separator. -/
theorem takeComponent_eq (n : ℕ) (path : List UInt8) :
    takeComponent n path = ((path.takeWhile (!isSeparator ·)).take n,
      (path.takeWhile (!isSeparator ·)).drop n ++ path.dropWhile (!isSeparator ·)) := by
  induction n generalizing path with
  | zero => rw [takeComponent, List.take_zero, List.drop_zero, List.takeWhile_append_dropWhile]
  | succ n ih =>
    cases path with
    | nil => rfl
    | cons b path =>
      rw [takeComponent]
      split_ifs with hb
      · rw [List.takeWhile_cons_of_neg (by simp [hb]), List.dropWhile_cons_of_neg (by simp [hb])]
        rfl
      · rw [List.takeWhile_cons_of_pos (by simp [hb]), List.dropWhile_cons_of_pos (by simp [hb]),
          ih]
        rfl

theorem takeComponent_append {n : ℕ} (h : takeComponent n path = (c, r)) : path = c ++ r := by
  rw [takeComponent_eq] at h
  obtain ⟨rfl, rfl⟩ := Prod.mk.inj h
  rw [← List.append_assoc, List.take_append_drop, List.takeWhile_append_dropWhile]

/-- The name that the loop takes is the first one, and the others are the names of the rest. -/
theorem names_takeComponent (hb : ∀ s t, path = s :: t → isSeparator s = false) (hne : path ≠ [])
    (htake : takeComponent 255 path = (c, r)) : c ≠ [] ∧ names path = c :: names r := by
  have hplain : ∀ b ∈ path.takeWhile (!isSeparator ·), isSeparator b = false := fun b hb => by
    simpa using List.mem_takeWhile_imp hb
  have hrest : path.dropWhile (!isSeparator ·) = [] ∨
      ∃ s t, path.dropWhile (!isSeparator ·) = s :: t ∧ isSeparator s = true := by
    cases h : path.dropWhile (!isSeparator ·) with
    | nil => exact .inl rfl
    | cons s t =>
      have hhead := List.head?_dropWhile_not (!isSeparator ·) path
      rw [h] at hhead
      exact .inr ⟨s, t, rfl, by simpa using hhead⟩
  have hfirst : path.takeWhile (!isSeparator ·) ≠ [] := by
    cases path with
    | nil => exact absurd rfl hne
    | cons s t =>
      rw [List.takeWhile_cons_of_pos (by simp [hb s t rfl])]
      exact List.cons_ne_nil _ _
  have hsplit : names path = pieces (path.takeWhile (!isSeparator ·)) ++
      names (path.dropWhile (!isSeparator ·)) := by
    conv_lhs => rw [← List.takeWhile_append_dropWhile (p := (!isSeparator ·)) (l := path)]
    exact names_append hplain hrest
  rw [takeComponent_eq] at htake
  obtain ⟨rfl, rfl⟩ := Prod.mk.inj htake
  refine ⟨?_, ?_⟩
  · obtain ⟨s, t, hst⟩ := List.exists_cons_of_ne_nil hfirst
    rw [hst]
    exact List.cons_ne_nil _ _
  · rw [hsplit, pieces_of_ne_nil hfirst,
      names_append (fun b hb => hplain b (List.mem_of_mem_drop hb)) hrest, List.cons_append]

/-- The loop goes from name to name. -/
theorem normalizeLoop_eq (hfuel : path.length < fuel) :
    normalizeLoop buffsize fuel path buffer = (names path).foldlM (nameStep buffsize) buffer := by
  induction fuel generalizing path buffer with
  | zero => cases hfuel
  | succ fuel ih =>
    rw [normalizeLoop, ← names_dropWhile path]
    have hle : (path.dropWhile isSeparator).length ≤ path.length :=
      (List.dropWhile_sublist _).length_le
    split
    · rename_i hnil
      rw [hnil, names_nil]
      rfl
    · rename_i b rest hcons
      have hb : ∀ s t, b :: rest = s :: t → isSeparator s = false := by
        rintro s t heq
        have hhead := List.head?_dropWhile_not isSeparator path
        rw [hcons, heq] at hhead
        simpa using hhead
      rw [hcons] at hle ⊢
      rcases htake : takeComponent 255 (b :: rest) with ⟨name, rest'⟩
      obtain ⟨hname, hnames⟩ := names_takeComponent hb (List.cons_ne_nil _ _) htake
      have hlen : rest'.length < fuel := by
        have hpos := List.length_pos_of_ne_nil hname
        rw [takeComponent_append htake, List.length_append] at hle
        omega
      rw [hnames, List.foldlM_cons, nameStep]
      dsimp only
      rw [if_neg hname, if_neg hname]
      -- `.`, `..`, or a name
      split_ifs with hdot hdots
      · exact ih hlen
      · exact ih hlen
      · cases addComponent buffsize buffer name with
        | error e => rfl
        | ok buffer' => exact ih hlen

/-! ### The buffer as a stack of components -/

theorem tolower_dot (b : UInt8) : tolower b = 0x2e ↔ b = 0x2e := by
  rw [tolower]
  split_ifs with hletter
  · rw [UInt8.le_iff_toNat_le, UInt8.le_iff_toNat_le] at hletter
    rw [← UInt8.toNat_inj, ← UInt8.toNat_inj, UInt8.toNat_add]
    have h41 : (0x41 : UInt8).toNat = 0x41 := rfl
    have h5a : (0x5a : UInt8).toNat = 0x5a := rfl
    have h20 : (0x61 - 0x41 : UInt8).toNat = 0x20 := rfl
    have h2e : (0x2e : UInt8).toNat = 0x2e := rfl
    omega
  · rfl

/-- The comparisons with `.` and `..` look at no letters. -/
theorem xtStringICmp_dots (hlen : c.length ≤ 255) :
    (xtStringICmp c [0x2e] 4096 = true ↔ c = [0x2e]) ∧
      (xtStringICmp c [0x2e, 0x2e] 4096 = true ↔ c = [0x2e, 0x2e]) := by
  have hkey : key [0x2e] = [0x2e] ∧ key [0x2e, 0x2e] = [0x2e, 0x2e] := by decide
  rw [xtStringICmp_short (by omega), xtStringICmp_short (by omega), hkey.1, hkey.2, key]
  constructor
  · simp only [List.map_eq_cons_iff, List.map_eq_nil_iff, tolower_dot, existsAndEq, and_true]
  · simp only [List.map_eq_cons_iff, List.map_eq_nil_iff, tolower_dot, existsAndEq, and_true]

/-- What a pass does with a name is what it means for the stack, where the buffer is long
    enough. -/
theorem nameStep_eq (hcs : ∀ c ∈ cs, Component c) (hlen : c.length ≤ 255)
    (h : nameStep buffsize (pathBytes cs) c = .ok b) : b = pathBytes (pushName cs c) := by
  obtain ⟨hdot, hdots⟩ := xtStringICmp_dots hlen
  rw [nameStep] at h
  simp only [hdot, hdots] at h
  rw [pushName]
  split_ifs at h ⊢
  · exact (Except.ok.inj h).symm
  · exact (Except.ok.inj h).symm
  · rw [← dropComponent_eq hcs]
    exact (Except.ok.inj h).symm
  · exact addComponent_eq hcs h

theorem pushName_normal (hcs : ∀ c ∈ cs, NormalName c)
    (hc : c.length ≤ 255 ∧ ∀ b ∈ c, b ≠ 0 ∧ isSeparator b = false) :
    ∀ d ∈ pushName cs c, NormalName d := by
  rw [pushName]
  split_ifs with hnil hdot hdots
  · exact hcs
  · exact hcs
  · exact fun d hd => hcs d (List.dropLast_subset _ hd)
  · intro d hd
    obtain hd | hd := List.mem_append.mp hd
    · exact hcs d hd
    · rw [List.mem_singleton.mp hd]
      exact ⟨⟨hnil, hc.1, hc.2⟩, hdot, hdots⟩

/-- Names that can come out of a path. -/
def Short (ns : List (List UInt8)) : Prop :=
  ∀ c ∈ ns, c.length ≤ 255 ∧ ∀ b ∈ c, b ≠ 0 ∧ isSeparator b = false

theorem foldl_pushName_normal {ns : List (List UInt8)} (hns : Short ns)
    (hcs : ∀ c ∈ cs, NormalName c) : ∀ c ∈ ns.foldl pushName cs, NormalName c := by
  induction ns generalizing cs with
  | nil => exact hcs
  | cons c ns ih =>
    exact ih (fun d hd => hns d (List.mem_cons_of_mem _ hd))
      (pushName_normal hcs (hns c List.mem_cons_self))

/-- All passes: a buffer that was long enough holds the components that are left. -/
theorem foldlM_nameStep_eq {ns : List (List UInt8)} (hns : Short ns)
    (hcs : ∀ c ∈ cs, NormalName c)
    (h : ns.foldlM (nameStep buffsize) (pathBytes cs) = .ok b) :
    b = pathBytes (ns.foldl pushName cs) := by
  induction ns generalizing cs with
  | nil => exact (Except.ok.inj h).symm
  | cons c ns ih =>
    have hc := hns c List.mem_cons_self
    rw [List.foldlM_cons] at h
    cases hstep : nameStep buffsize (pathBytes cs) c with
    | error e =>
      rw [hstep] at h
      cases h
    | ok b' =>
      rw [hstep] at h
      obtain rfl := nameStep_eq (fun d hd => (hcs d hd).toComponent) hc.1 hstep
      exact ih (fun d hd => hns d (List.mem_cons_of_mem _ hd)) (pushName_normal hcs hc) h

/-- A component holds bytes of the path that are no separators. -/
theorem mem_components (h : c ∈ components path) : ∀ b ∈ c, b ∈ path ∧ isSeparator b = false := by
  induction path generalizing c with
  | nil =>
    rw [components, List.splitOnP_nil, List.mem_singleton] at h
    rw [h]
    exact List.forall_mem_nil _
  | cons s t ih =>
    have hmore : ∀ c ∈ components t, ∀ b ∈ c, b ∈ s :: t ∧ isSeparator b = false :=
      fun c hc b hb => ⟨List.mem_cons_of_mem _ (ih hc b hb).1, (ih hc b hb).2⟩
    by_cases hs : isSeparator s = true
    · rw [components_separator hs] at h
      obtain rfl | h := List.mem_cons.mp h
      · exact List.forall_mem_nil _
      · exact hmore c h
    · obtain ⟨d, ds, hsplit⟩ := List.exists_cons_of_ne_nil (List.splitOnP_ne_nil isSeparator t)
      rw [components] at hmore
      rw [hsplit] at hmore
      rw [components, List.splitOnP_cons_eq_if_modifyHead, if_neg hs, hsplit,
        List.modifyHead_cons] at h
      obtain rfl | h := List.mem_cons.mp h
      · intro b hb
        obtain rfl | hb := List.mem_cons.mp hb
        · exact ⟨List.mem_cons_self, by simpa using hs⟩
        · exact hmore d List.mem_cons_self b hb
      · exact hmore c (List.mem_cons_of_mem _ h)

theorem mem_pieces {d : List UInt8} (h : d ∈ pieces c) : d.length ≤ 255 ∧ ∀ b ∈ d, b ∈ c := by
  induction c using pieces.induct with
  | case1 =>
    rw [pieces_nil] at h
    cases h
  | case2 c hne ih =>
    rw [pieces_of_ne_nil hne] at h
    obtain rfl | h := List.mem_cons.mp h
    · exact ⟨by rw [List.length_take]; omega, fun b hb => List.mem_of_mem_take hb⟩
    · exact ⟨(ih h).1, fun b hb => List.mem_of_mem_drop ((ih h).2 b hb)⟩

/-- The names of a string. -/
theorem short_names (hpath : ∀ b ∈ path, b ≠ 0) : Short (names path) := by
  intro d hd
  obtain ⟨c, hc, hd⟩ := List.mem_flatMap.mp hd
  obtain ⟨hlen, hmem⟩ := mem_pieces hd
  exact ⟨hlen, fun b hb =>
    ⟨hpath b (mem_components hc b (hmem b hb)).1, (mem_components hc b (hmem b hb)).2⟩⟩

/-! ### Buffers that are long enough -/

theorem length_dropComponent (buffer : List UInt8) :
    (dropComponent buffer).length ≤ buffer.length := by
  rw [dropComponent]
  dsimp only
  split_ifs
  · exact List.length_take_le' _ _
  · exact List.length_take_le' _ _
  · exact le_rfl

/-- A pass has room when the buffer is longer than what it holds and twice the name. -/
theorem nameStep_ok (hsize : buffer.length + 2 * c.length < buffsize) :
    ∃ b, nameStep buffsize buffer c = .ok b ∧ b.length ≤ buffer.length + 2 * c.length := by
  rw [nameStep]
  split_ifs with hnil
  · exact ⟨buffer, rfl, by omega⟩
  · exact ⟨buffer, rfl, by omega⟩
  · exact ⟨_, rfl, (length_dropComponent buffer).trans (by omega)⟩
  · have hpos := List.length_pos_of_ne_nil hnil
    rw [addComponent]
    by_cases hlong : 1 < buffer.length
    · rw [if_pos hlong, if_neg (by omega), if_neg (by omega)]
      refine ⟨_, rfl, ?_⟩
      rw [List.length_append, List.length_cons]
      omega
    · rw [if_neg hlong, if_neg (by omega)]
      refine ⟨_, rfl, ?_⟩
      rw [List.length_append]
      omega

theorem foldlM_nameStep_ok {ns : List (List UInt8)}
    (hsize : buffer.length + 2 * ns.flatten.length < buffsize) :
    ∃ b, ns.foldlM (nameStep buffsize) buffer = .ok b := by
  induction ns generalizing buffer with
  | nil => exact ⟨buffer, rfl⟩
  | cons c ns ih =>
    rw [List.flatten_cons, List.length_append] at hsize
    obtain ⟨b, hb, hlen⟩ := nameStep_ok (show buffer.length + 2 * c.length < buffsize by omega)
    obtain ⟨b', hb'⟩ := ih (show b.length + 2 * ns.flatten.length < buffsize by omega)
    exact ⟨b', by rw [List.foldlM_cons, hb]; exact hb'⟩

theorem flatten_pieces (c : List UInt8) : (pieces c).flatten = c := by
  induction c using pieces.induct with
  | case1 =>
    rw [pieces_nil]
    rfl
  | case2 c hne ih => rw [pieces_of_ne_nil hne, List.flatten_cons, ih, List.take_append_drop]

theorem flatten_components (path : List UInt8) :
    (components path).flatten = path.filter (!isSeparator ·) := by
  induction path with
  | nil => rfl
  | cons s t ih =>
    by_cases hs : isSeparator s = true
    · rw [components_separator hs, List.flatten_cons, ih, List.filter_cons_of_neg (by simp [hs])]
      rfl
    · obtain ⟨d, ds, hsplit⟩ := List.exists_cons_of_ne_nil (List.splitOnP_ne_nil isSeparator t)
      rw [components, hsplit] at ih
      rw [components, List.splitOnP_cons_eq_if_modifyHead, if_neg hs, hsplit,
        List.modifyHead_cons, List.filter_cons_of_pos (by simpa using hs), ← ih]
      rfl

theorem length_names (path : List UInt8) : (names path).flatten.length ≤ path.length := by
  have hflatten : (names path).flatten = (components path).flatten := by
    rw [names]
    induction components path with
    | nil => rfl
    | cons c cs ih =>
      rw [List.flatMap_cons, List.flatten_append, ih, flatten_pieces, List.flatten_cons]
  rw [hflatten, flatten_components]
  exact List.length_filter_le _ _

/-- An absolute path is worked off name by name. The buffer does not end with a slash
    afterwards, so nothing is taken off at the end. -/
theorem xtNormalizePath_foldlM (hpath : ∀ b ∈ path, b ≠ 0)
    (habs : path.head?.any isSeparator = true) (hsize : buffsize ≠ 0) :
    xtNormalizePath path buffsize = (names path).foldlM (nameStep buffsize) (pathBytes []) := by
  have hfirst : ¬ path.head?.all (!isSeparator ·) = true := by
    cases path with
    | nil => cases habs
    | cons s t =>
      simp only [List.head?_cons, Option.any_some] at habs
      simp only [List.head?_cons, Option.all_some, habs, Bool.not_true, Bool.false_eq_true,
        not_false_eq_true]
  have hroot : ∀ c ∈ ([] : List (List UInt8)), NormalName c := List.forall_mem_nil _
  have hslash : [0x2f] = pathBytes [] := rfl
  rw [xtNormalizePath, if_neg hsize, if_neg hfirst, normalizeLoop_eq (Nat.lt_succ_self _), hslash]
  cases hfold : (names path).foldlM (nameStep buffsize) (pathBytes []) with
  | error e => rfl
  | ok b =>
    obtain rfl := foldlM_nameStep_eq (short_names hpath) hroot hfold
    have hnormal := foldl_pushName_normal (short_names hpath) hroot
    have hcs : ∀ c ∈ (names path).foldl pushName [], Component c := fun c hc =>
      (hnormal c hc).toComponent
    dsimp only
    rw [if_neg fun ⟨hlong, hlast⟩ => pathBytes_last hcs ((pathBytes_long hcs).mp hlong) hlast]

/-- **A result** is what the names of the path come to, a list of components. -/
theorem xtNormalizePath_spec (hpath : ∀ b ∈ path, b ≠ 0)
    (h : xtNormalizePath path buffsize = .ok b) :
    b = pathBytes (resolve (names path)) ∧ ∀ c ∈ resolve (names path), NormalName c := by
  have hsize : buffsize ≠ 0 := by
    rintro rfl
    cases h
  have habs : path.head?.any isSeparator = true := by
    by_contra hnot
    have hfirst : path.head?.all (!isSeparator ·) = true := by
      cases path with
      | nil => rfl
      | cons s t => simpa using hnot
    rw [xtNormalizePath, if_neg hsize, if_pos hfirst] at h
    cases h
  have hroot : ∀ c ∈ ([] : List (List UInt8)), NormalName c := List.forall_mem_nil _
  rw [xtNormalizePath_foldlM hpath habs hsize] at h
  exact ⟨foldlM_nameStep_eq (short_names hpath) hroot h,
    foldl_pushName_normal (short_names hpath) hroot⟩

/-- **The result** in a buffer of more than twice the length of the path: what the names of the
    path come to. -/
theorem xtNormalizePath_eq (hpath : ∀ b ∈ path, b ≠ 0)
    (habs : path.head?.any isSeparator = true) (hsize : 2 * path.length + 2 ≤ buffsize) :
    xtNormalizePath path buffsize = .ok (pathBytes (resolve (names path))) := by
  have hlen := length_names path
  have hone : (pathBytes []).length = 1 := rfl
  obtain ⟨b, hb⟩ := foldlM_nameStep_ok (show (pathBytes []).length +
    2 * (names path).flatten.length < buffsize by omega)
  rw [← xtNormalizePath_foldlM hpath habs (by omega)] at hb
  rw [hb, (xtNormalizePath_spec hpath hb).1]

/-! ### Whole components -/

theorem joinPath_eq_intercalate (cs : List (List UInt8)) :
    joinPath cs = [0x2f].intercalate cs := by
  induction cs with
  | nil => rfl
  | cons c cs ih =>
    cases cs with
    | nil => simp [joinPath]
    | cons d cs => rw [joinPath, ih, List.intercalate_cons_cons]; simp

theorem splitOn_joinPath (hne : cs ≠ []) (hcs : ∀ c ∈ cs, ∀ b ∈ c, isSeparator b = false) :
    (joinPath cs).splitOn 0x2f = cs := by
  rw [joinPath_eq_intercalate]
  refine List.splitOn_intercalate _ (fun c hc hmem => ?_) hne
  cases hcs c hc _ hmem

/-- A normalised path determines its components. -/
theorem pathBytes_injective (hcs : ∀ c ∈ cs, c ≠ [] ∧ ∀ b ∈ c, isSeparator b = false)
    (hds : ∀ c ∈ ds, c ≠ [] ∧ ∀ b ∈ c, isSeparator b = false) (h : pathBytes cs = pathBytes ds) :
    cs = ds := by
  have hjoin : joinPath cs = joinPath ds := List.tail_eq_of_cons_eq h
  have hempty : ∀ es : List (List UInt8), (∀ c ∈ es, c ≠ [] ∧ ∀ b ∈ c, isSeparator b = false) →
      joinPath es = [] → es = [] := by
    intro es hes hnil
    by_contra hne
    have hsplit := splitOn_joinPath hne fun c hc => (hes c hc).2
    rw [hnil, List.splitOn_nil] at hsplit
    exact (hes [] (hsplit ▸ List.mem_singleton_self _)).1 rfl
  by_cases hnil : joinPath cs = []
  · rw [hempty cs hcs hnil, hempty ds hds (hjoin ▸ hnil)]
  · have hcs' : cs ≠ [] := by
      rintro rfl
      exact hnil rfl
    have hds' : ds ≠ [] := by
      rintro rfl
      exact hnil hjoin
    rw [← splitOn_joinPath hcs' fun c hc => (hcs c hc).2, hjoin,
      splitOn_joinPath hds' fun c hc => (hds c hc).2]

/-- What is on the stack was put there. -/
theorem mem_foldl_pushName {ns : List (List UInt8)} (h : c ∈ ns.foldl pushName cs) :
    c ∈ cs ∨ (c ∈ ns ∧ c ≠ []) := by
  induction ns generalizing cs with
  | nil => exact .inl h
  | cons d ns ih =>
    obtain h | ⟨h, hne⟩ := ih h
    · rw [pushName] at h
      split_ifs at h with hnil
      · exact .inl h
      · exact .inl h
      · exact .inl (List.dropLast_subset _ h)
      · obtain h | h := List.mem_append.mp h
        · exact .inl h
        · rw [List.mem_singleton.mp h]
          exact .inr ⟨List.mem_cons_self, hnil⟩
    · exact .inr ⟨List.mem_cons_of_mem _ h, hne⟩

/-- Components that are not cut. -/
theorem foldl_flatMap_pieces {ns : List (List UInt8)} (h : ∀ c ∈ ns, c.length ≤ 255) :
    (ns.flatMap pieces).foldl pushName cs = ns.foldl pushName cs := by
  induction ns generalizing cs with
  | nil => rfl
  | cons c ns ih =>
    have hrest := fun d hd => h d (List.mem_cons_of_mem _ hd)
    rw [List.flatMap_cons, List.foldl_append, List.foldl_cons, ih hrest]
    by_cases hc : c = []
    · rw [hc, pieces_nil, pushName, if_pos rfl]
      rfl
    · rw [pieces_short hc (h c List.mem_cons_self)]
      rfl

/-- **Normalisation** reads a path as its components, whole, exactly if cutting them into pieces
    of 255 bytes does not change what they come to. It does not if no component is longer, and it
    does if a longer one is left. -/
theorem normalize_resolve_iff (path : List UInt8) (buffsize : ℕ) (hpath : ∀ b ∈ path, b ≠ 0)
    (habs : path.head?.any isSeparator = true) (hsize : 2 * path.length + 2 ≤ buffsize) :
    ((∃ e, xtNormalizePath path buffsize = .error e) ∨
        xtNormalizePath path buffsize = .ok (pathBytes (resolve (components path))) ↔
      resolve ((components path).flatMap pieces) = resolve (components path)) ∧
    ((∀ c ∈ components path, c.length ≤ 255) →
      resolve ((components path).flatMap pieces) = resolve (components path)) ∧
    ∀ c ∈ resolve (components path), 255 < c.length →
      resolve ((components path).flatMap pieces) ≠ resolve (components path) := by
  have hnames : ∀ c ∈ resolve (names path), NormalName c :=
    foldl_pushName_normal (short_names hpath) (List.forall_mem_nil _)
  refine ⟨?_, foldl_flatMap_pieces, fun c hc hlong heq => ?_⟩
  · rw [xtNormalizePath_eq hpath habs hsize]
    constructor
    · rintro (⟨e, he⟩ | heq)
      · cases he
      · refine pathBytes_injective (fun c hc => ?_) (fun c hc => ?_) (Except.ok.inj heq)
        · have hc := hnames c hc
          exact ⟨hc.ne_nil, fun b hb => (hc.plain b hb).2⟩
        · obtain hc | ⟨hc, hne⟩ := mem_foldl_pushName hc
          · cases hc
          · exact ⟨hne, fun b hb => (mem_components hc b hb).2⟩
    · intro heq
      rw [← heq]
      exact .inr rfl
  · have hshort := (hnames c (heq ▸ hc)).length
    omega

/-- The path `/a/./b\../c`, with a backslash. -/
def mixedPath : List UInt8 := [0x2f, 0x61, 0x2f, 0x2e, 0x2f, 0x62, 0x5c, 0x2e, 0x2e, 0x2f, 0x63]

/-- It comes to `a` and `c`. -/
theorem normalize_resolve_mixed : (∀ b ∈ mixedPath, b ≠ 0) ∧
    mixedPath.head?.any isSeparator = true ∧ 2 * mixedPath.length + 2 ≤ 64 ∧
    resolve (components mixedPath) = [[0x61], [0x63]] ∧
    ((∃ e, xtNormalizePath mixedPath 64 = .error e) ∨
      xtNormalizePath mixedPath 64 = .ok (pathBytes (resolve (components mixedPath)))) := by
  have hpath : ∀ b ∈ mixedPath, b ≠ 0 := by simp [mixedPath]
  obtain ⟨hiff, hshort, -⟩ := normalize_resolve_iff mixedPath 64 hpath rfl (by decide)
  exact ⟨hpath, rfl, by decide, by decide +kernel, hiff.mpr (hshort (by decide +kernel))⟩

/-- A component of 255 letters and two dots: the dots are taken for a component of their own. -/
def dottedPath : List UInt8 := 0x2f :: (List.replicate 255 0x61 ++ [0x2e, 0x2e])

/-- It is normalised to the root. -/
theorem long_component_is_cut : (∀ b ∈ dottedPath, b ≠ 0) ∧
    resolve (components dottedPath) = [List.replicate 255 0x61 ++ [0x2e, 0x2e]] ∧
    xtNormalizePath dottedPath 4096 = .ok [0x2f] ∧
    ¬ ((∃ e, xtNormalizePath dottedPath 4096 = .error e) ∨
      xtNormalizePath dottedPath 4096 = .ok (pathBytes (resolve (components dottedPath)))) := by
  have hroot : xtNormalizePath dottedPath 4096 = .ok [0x2f] := by decide +kernel
  have hwhole : resolve (components dottedPath) = [List.replicate 255 0x61 ++ [0x2e, 0x2e]] := by
    decide +kernel
  refine ⟨by decide +kernel, hwhole, hroot, ?_⟩
  rw [hroot, hwhole]
  rintro (⟨e, he⟩ | hok)
  · cases he
  · cases hok

end XTOS.Fs

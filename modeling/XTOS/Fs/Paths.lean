import Mathlib.Data.List.GetD
import XTOS.Result
import XTOS.Strings

/-!
# The mount tree and the paths

`xtNormalizePath`, `xtFindPathNode` and `xtOpenFile` of `xtkernel/fs.c`: a path is brought
to its normal form, the nodes of the mount tree are followed along it, and the file system
of the last node gets what is left of the path.

## Main definitions

- `XTPathNode`, `XTMountPoint`, `XTFileSystem`, `Mounts` — the tree, its mount points and the
  file systems
- `xtNormalizePath` — the normal form of a path
- `xtFindPathNode` — the node at which the search along a path ends, what is left of the
  path, and the addresses that were read
- `xtOpenFile` — up to the call of the file system
- `Reaches`, `FindsLongest` — the longest prefix of a path that exists in the tree

## Main results

- `dropComponent_eq`, `addComponent_eq` — the buffer as a list of components
- `findLoop_misses` — the search when a component does not exist
- `findLoop_overruns` — the search when all of them exist
- `findPathNode_longest_iff` — when the search is right

## Design notes

A path that the search walks over is a string in memory, because the loop may leave it. The
other strings are lists of bytes. The kernel list of the children of a node is a list.
-/

namespace XTOS.Fs

/-- `XTPathNode`. -/
structure XTPathNode where
  mp : ℕ
  name : List UInt8
  nodes : List ℕ
  deriving DecidableEq, Repr

/-- `XTMountPoint`. -/
structure XTMountPoint where
  fs : ℕ
  device : ℕ
  data : ℕ
  deriving DecidableEq, Repr

/-- The functions of an `XTFileSystemIO` that are looked at: which of `OpenFile` and
    `CreateFile` are there, and `Mount` with the data it leaves in the mount point. No mount
    function of the kernel touches the mount point when it fails. -/
structure XTFileSystemIO where
  openFile : Bool
  createFile : Bool
  mount : Option (XTMountPoint → Except XTResult ℕ)

/-- `XTFileSystem`. -/
structure XTFileSystem where
  name : List UInt8
  io : Option XTFileSystemIO

/-- `root`, the nodes, mount points and file systems by address, `filesystems`, and
    `openedFiles` with the file of each path. -/
structure Mounts where
  root : ℕ
  node : ℕ → XTPathNode
  mount : ℕ → XTMountPoint
  fs : ℕ → XTFileSystem
  filesystems : List ℕ
  openedFiles : List (List UInt8 × ℕ)

/-- A `/` or a `\`. -/
def isSeparator (b : UInt8) : Bool := b == 0x2f || b == 0x5c

/-! ### The search along a path -/

/-- The inner loop of `xtFindPathNode`: the name it copies and where it stops. -/
def copyName (mem : ℕ → UInt8) : ℕ → ℕ → List UInt8 × ℕ
  | 0, path => ([], path)
  | n + 1, path =>
    if isSeparator (mem path) ∨ mem path = 0 then ([], path)
    else
      let (name, stop) := copyName mem n (path + 1)
      (mem path :: name, stop)

/-- The loop over the children of a node. -/
def Mounts.child (S : Mounts) (node : ℕ) (name : List UInt8) : Option ℕ :=
  (S.node node).nodes.find? fun i => xtStringCmp (S.node i).name name 256

/-- What `xtFindPathNode` leaves, with the addresses of the path's bytes that it read. -/
structure Found where
  node : ℕ
  left : Option ℕ
  reads : List ℕ
  deriving DecidableEq, Repr

/-- More bytes were read before. -/
def Found.after (reads : List ℕ) (r : Found) : Found := { r with reads := reads ++ r.reads }

/-- The outer loop of `xtFindPathNode`. A round ends behind the byte where the inner loop
    stopped, whether that byte is a separator or the terminator. -/
def findLoop (S : Mounts) (mem : ℕ → UInt8) : ℕ → ℕ → Option ℕ → ℕ → Option Found
  | 0, _, _, _ => none
  | fuel + 1, pathi, left, path =>
    if mem path = 0 then some ⟨pathi, left, [path]⟩
    else
      let (name, stop) := copyName mem 255 path
      let reads := List.range' path (stop + 1 - path)
      if name = [] then
        (findLoop S mem fuel pathi (some (path + 1)) (stop + 1)).map (·.after reads)
      else
        match S.child pathi name with
        | some node => (findLoop S mem fuel node (some stop) (stop + 1)).map (·.after reads)
        | none => some ⟨pathi, some path, reads⟩

/-- `xtFindPathNode` of the path at an address. -/
def xtFindPathNode (S : Mounts) (mem : ℕ → UInt8) (fuel path : ℕ) : Option Found :=
  findLoop S mem fuel S.root none path

/-! ### Normal forms -/

/-- The loop of `xtNormalizePath` that takes a component of at most `n` bytes. -/
def takeComponent : ℕ → List UInt8 → List UInt8 × List UInt8
  | 0, path => ([], path)
  | _ + 1, [] => ([], [])
  | n + 1, b :: path =>
    if isSeparator b then ([], b :: path)
    else
      let (name, rest) := takeComponent n path
      (b :: name, rest)

/-- The loop that looks for the last slash of the buffer, from a position down. -/
def lastSlash (buffer : List UInt8) : ℕ → ℕ
  | 0 => 0
  | pos + 1 => if buffer.getD (pos + 1) 0 ≠ 0x2f then lastSlash buffer pos else pos + 1

/-- What `..` does to the buffer. -/
def dropComponent (buffer : List UInt8) : List UInt8 :=
  if 1 < buffer.length then
    let pos := lastSlash buffer (buffer.length - 1)
    if pos = 0 then buffer.take 1 else buffer.take pos
  else buffer

/-- What any other component does to the buffer. -/
def addComponent (buffsize : ℕ) (buffer name : List UInt8) : Except XTResult (List UInt8) :=
  if 1 < buffer.length then
    if buffsize ≤ buffer.length + 1 then .error .outOfBoundary
    else if buffsize ≤ buffer.length + 1 + name.length then .error .outOfBoundary
    else .ok (buffer ++ 0x2f :: name)
  else if buffsize ≤ buffer.length + name.length then .error .outOfBoundary
  else .ok (buffer ++ name)

/-- The loop of `xtNormalizePath`. A round takes a byte of the path at least. -/
def normalizeLoop (buffsize : ℕ) : ℕ → List UInt8 → List UInt8 → Except XTResult (List UInt8)
  | 0, _, buffer => .ok buffer
  | fuel + 1, path, buffer =>
    match path.dropWhile isSeparator with
    | [] => .ok buffer
    | b :: path =>
      let (name, rest) := takeComponent 255 (b :: path)
      if name = [] then normalizeLoop buffsize fuel rest buffer
      else if xtStringICmp name [0x2e] 4096 then normalizeLoop buffsize fuel rest buffer
      else if xtStringICmp name [0x2e, 0x2e] 4096 then
        normalizeLoop buffsize fuel rest (dropComponent buffer)
      else
        match addComponent buffsize buffer name with
        | .error r => .error r
        | .ok buffer => normalizeLoop buffsize fuel rest buffer

/-- `xtNormalizePath`: the string it leaves in the buffer. -/
def xtNormalizePath (path : List UInt8) (buffsize : ℕ) : Except XTResult (List UInt8) :=
  if buffsize = 0 then .error .invalidParameter
  else if path.head?.all (!isSeparator ·) then .error .invalidParameter
  else
    match normalizeLoop buffsize (path.length + 1) path [0x2f] with
    | .error r => .error r
    | .ok buffer =>
      .ok (if 1 < buffer.length ∧ buffer.getLast? = some 0x2f then buffer.dropLast else buffer)

/-! ### Opening a file -/

/-- `xtFindFile`. -/
def xtFindFile (S : Mounts) (path : List UInt8) : Option ℕ :=
  (S.openedFiles.find? fun e => xtStringICmp path e.1 4096).map Prod.snd

/-- `XT_FILE_MODE_CREATE`. -/
def xtFileModeCreate : ℕ := 4

/-- What `xtOpenFile` comes to: its own error, a file that is open already, or the calls of
    `CreateFile` (when `create`) and `OpenFile` with a mount point and what is left of the
    path. -/
inductive Opened where
  | error (r : XTResult)
  | already (file : ℕ)
  | handed (mp : ℕ) (left : Option ℕ) (create : Bool)
  deriving DecidableEq, Repr

/-- `xtOpenFile` from the checks of the node on. -/
def handOver (S : Mounts) (flags node : ℕ) (left : Option ℕ) : Opened :=
  let mp := (S.node node).mp
  let fs := (S.mount mp).fs
  if node = 0 ∨ mp = 0 ∨ fs = 0 then .error .notImplemented
  else
    match (S.fs fs).io with
    | none => .error .notImplemented
    | some io =>
      let create := flags &&& xtFileModeCreate != 0
      if !io.openFile ∨ (create ∧ !io.createFile) then .error .notImplemented
      else .handed mp left create

/-- `buff` of `xtOpenFile` with a string in it; `rest` are the bytes that lie behind. -/
def buffer (s : List UInt8) (rest : ℕ → UInt8) (i : ℕ) : UInt8 :=
  if i ≤ s.length then s.getD i 0 else rest i

/-- `xtOpenFile`. The addresses are those in `buff`. -/
def xtOpenFile (S : Mounts) (rest : ℕ → UInt8) (fuel : ℕ) (path : List UInt8) (flags : ℕ) :
    Option Opened :=
  match xtNormalizePath path 4096 with
  | .error r => some (.error r)
  | .ok buff =>
    match xtFindFile S buff with
    | some file => some (.already file)
    | none => (xtFindPathNode S (buffer buff rest) fuel 0).map fun r =>
        handOver S flags r.node r.left

/-! ### What the search is for -/

/-- A component of a path. -/
structure Component (c : List UInt8) : Prop where
  ne_nil : c ≠ []
  length : c.length ≤ 255
  plain : ∀ b ∈ c, b ≠ 0 ∧ isSeparator b = false

/-- Components with separators between them. -/
def joinPath : List (List UInt8) → List UInt8
  | [] => []
  | [c] => c
  | c :: d :: cs => c ++ 0x2f :: joinPath (d :: cs)

/-- A normalised absolute path. -/
def pathBytes (cs : List (List UInt8)) : List UInt8 := 0x2f :: joinPath cs

/-- The string at an address. -/
def StringAt (mem : ℕ → UInt8) (p : ℕ) (s : List UInt8) : Prop :=
  ∀ i ≤ s.length, mem (p + i) = s.getD i 0

/-- Names that lead from one node down to another. -/
inductive Reaches (S : Mounts) : ℕ → List (List UInt8) → ℕ → Prop
  | here (n : ℕ) : Reaches S n [] n
  | child {n m k : ℕ} {cs : List (List UInt8)} : m ∈ (S.node n).nodes →
      Reaches S m cs k → Reaches S n ((S.node m).name :: cs) k

/-- A mount tree: no two children of a node have one name that can be a component. -/
structure MountTree extends Mounts where
  distinct : ∀ cs n, Reaches toMounts root cs n → ∀ m ∈ (node n).nodes, ∀ k ∈ (node n).nodes,
    (node m).name = (node k).name → (node m).name.length ≤ 255 → m = k

/-- The longest prefix of the components that exists in the tree has `k` of them and leads to
    a node. -/
structure LongestPrefix (S : Mounts) (cs : List (List UInt8)) (k node : ℕ) : Prop where
  le : k ≤ cs.length
  reaches : Reaches S S.root (cs.take k) node
  longest : ∀ j ≤ cs.length, ∀ m, Reaches S S.root (cs.take j) m → j ≤ k

/-- The search for the path at `p` reads nothing behind the terminator, and ends at the node
    of the longest prefix with the other components left. -/
structure FindsLongest (S : Mounts) (mem : ℕ → UInt8) (p : ℕ) (cs : List (List UInt8))
    (r : Found) : Prop where
  reads : ∀ a ∈ r.reads, a ≤ p + (pathBytes cs).length
  longest : ∃ k l, LongestPrefix S cs k r.node ∧ r.left = some l ∧
    StringAt mem l (joinPath (cs.drop k))

/-! ### Strings in memory -/

variable {S : Mounts} {mem : ℕ → UInt8} {c s t : List UInt8} {cs : List (List UInt8)}
  {n q fuel : ℕ} {left : Option ℕ}

theorem StringAt.suffix (h : StringAt mem q (s ++ t)) : StringAt mem (q + s.length) t := by
  intro i hi
  have hget := h (s.length + i) (by rw [List.length_append]; omega)
  rwa [← Nat.add_assoc, List.getD_append_right _ _ _ _ (by omega), Nat.add_sub_cancel_left] at hget

theorem StringAt.prefix (h : StringAt mem q (s ++ t)) {i : ℕ} (hi : i < s.length) :
    mem (q + i) = s.getD i 0 := by
  rw [h i (by rw [List.length_append]; omega), List.getD_append _ _ _ _ hi]

theorem StringAt.tail {b : UInt8} (h : StringAt mem q (b :: s)) : StringAt mem (q + 1) s :=
  StringAt.suffix (s := [b]) h

/-- The terminator. -/
theorem StringAt.stop (h : StringAt mem q s) : mem (q + s.length) = 0 := by
  rw [h _ le_rfl, List.getD_eq_default _ _ le_rfl]

theorem stringAt_buffer (s : List UInt8) (rest : ℕ → UInt8) : StringAt (buffer s rest) 0 s := by
  intro i hi
  rw [Nat.zero_add, buffer, if_pos hi]

/-- The inner loop copies plain bytes up to a separator or the terminator. -/
theorem copyName_eq (hplain : ∀ b ∈ c, b ≠ 0 ∧ isSeparator b = false)
    (hmem : ∀ i < c.length, mem (q + i) = c.getD i 0)
    (hstop : isSeparator (mem (q + c.length)) = true ∨ mem (q + c.length) = 0)
    (hn : c.length ≤ n) : copyName mem n q = (c, q + c.length) := by
  induction c generalizing n q with
  | nil =>
    cases n with
    | zero => rfl
    | succ n =>
      have hstop : isSeparator (mem q) = true ∨ mem q = 0 := hstop
      rw [copyName, if_pos hstop]
      rfl
  | cons b c ih =>
    rw [List.length_cons] at hn
    obtain ⟨n, rfl⟩ : ∃ k, n = k + 1 := Nat.exists_eq_add_one.mpr (by omega)
    have hb : mem q = b := hmem 0 (by simp)
    obtain ⟨hzero, hsep⟩ := hplain b List.mem_cons_self
    have hrest : copyName mem n (q + 1) = (c, q + 1 + c.length) := by
      refine ih (fun b hb => hplain b (List.mem_cons_of_mem _ hb)) (fun i hi => ?_) ?_ (by omega)
      · have hget := hmem (i + 1) (by simpa using hi)
        rwa [List.getD_cons_succ, show q + (i + 1) = q + 1 + i by omega] at hget
      · rwa [List.length_cons, show q + (c.length + 1) = q + 1 + c.length by omega] at hstop
    rw [copyName, hb, if_neg (by simp [hzero, hsep]), hrest]
    simp only [List.length_cons, show q + 1 + c.length = q + (c.length + 1) by omega]

/-! ### Children -/

theorem child_some {m : ℕ} (hc : c.length ≤ 255) (h : S.child n c = some m) :
    m ∈ (S.node n).nodes ∧ (S.node m).name = c := by
  refine ⟨List.mem_of_find?_eq_some h, ?_⟩
  have htest : xtStringCmp (S.node m).name c 256 = true :=
    List.find?_some (p := fun i => xtStringCmp (S.node i).name c 256) h
  exact (xtStringCmp_short (by omega)).mp htest

theorem child_none (hc : c.length ≤ 255) (h : S.child n c = none) {m : ℕ}
    (hm : m ∈ (S.node n).nodes) : (S.node m).name ≠ c := by
  intro hname
  have htest := List.find?_eq_none.mp h m hm
  rw [hname] at htest
  exact htest ((xtStringCmp_short (by omega)).mpr rfl)

theorem reaches_cons {k : ℕ} : Reaches S n (c :: cs) k ↔
    ∃ m ∈ (S.node n).nodes, (S.node m).name = c ∧ Reaches S m cs k := by
  constructor
  · intro h
    generalize hl : c :: cs = l at h
    cases h with
    | here => cases hl
    | child hm hrest =>
      obtain ⟨rfl, rfl⟩ := List.cons.inj hl
      exact ⟨_, hm, rfl, hrest⟩
  · rintro ⟨m, hm, rfl, hrest⟩
    exact .child hm hrest

/-- The node to which the first children with the names lead, and how many names it takes. -/
def descend (S : Mounts) : ℕ → List (List UInt8) → ℕ × ℕ
  | n, [] => (n, 0)
  | n, c :: cs =>
    match S.child n c with
    | none => (n, 0)
    | some m => ((descend S m cs).1, (descend S m cs).2 + 1)

theorem descend_none (h : S.child n c = none) : descend S n (c :: cs) = (n, 0) := by
  rw [descend, h]

theorem descend_some {m : ℕ} (h : S.child n c = some m) :
    descend S n (c :: cs) = ((descend S m cs).1, (descend S m cs).2 + 1) := by
  rw [descend, h]

theorem descend_le (S : Mounts) (n : ℕ) (cs : List (List UInt8)) :
    (descend S n cs).2 ≤ cs.length := by
  induction cs generalizing n with
  | nil => exact le_rfl
  | cons c cs ih =>
    cases hchild : S.child n c with
    | none =>
      rw [descend_none hchild]
      exact Nat.zero_le _
    | some m =>
      rw [descend_some hchild]
      exact Nat.succ_le_succ (ih m)

/-- Where names differ, the first child with a name is the one, so that the descent takes as
    many names as lead anywhere. -/
theorem descend_longest (hlen : ∀ c ∈ cs, c.length ≤ 255)
    (hdistinct : ∀ ds k, Reaches S n ds k → ∀ i ∈ (S.node k).nodes, ∀ j ∈ (S.node k).nodes,
      (S.node i).name = (S.node j).name → (S.node i).name.length ≤ 255 → i = j) :
    Reaches S n (cs.take (descend S n cs).2) (descend S n cs).1 ∧
      ∀ j ≤ cs.length, ∀ m, Reaches S n (cs.take j) m → j ≤ (descend S n cs).2 := by
  induction cs generalizing n with
  | nil => exact ⟨.here n, fun j hj _ _ => hj⟩
  | cons c cs ih =>
    have hc := hlen c List.mem_cons_self
    cases hchild : S.child n c with
    | none =>
      rw [descend_none hchild]
      refine ⟨.here n, fun j hj m hm => ?_⟩
      cases j with
      | zero => exact le_rfl
      | succ j =>
        obtain ⟨i, hi, hname, -⟩ := reaches_cons.mp hm
        exact absurd hname (child_none hc hchild hi)
    | some k =>
      obtain ⟨hk, hname⟩ := child_some hc hchild
      obtain ⟨hreach, hlongest⟩ := ih (n := k)
        (fun d hd => hlen d (List.mem_cons_of_mem _ hd))
        (fun ds i hi => hdistinct (c :: ds) i (reaches_cons.mpr ⟨k, hk, hname, hi⟩))
      rw [descend_some hchild]
      refine ⟨reaches_cons.mpr ⟨k, hk, hname, hreach⟩, fun j hj m hm => ?_⟩
      cases j with
      | zero => exact Nat.zero_le _
      | succ j =>
        -- the first name of a longer way leads to the child that the search takes
        obtain ⟨i, hi, hiname, hrest⟩ := reaches_cons.mp hm
        obtain rfl : i = k := hdistinct [] n (.here n) i hi k hk (hiname.trans hname.symm)
          (by rw [hiname]; exact hc)
        exact Nat.succ_le_succ (hlongest j (Nat.le_of_succ_le_succ hj) m hrest)

/-! ### The search -/

/-- One round at a component. -/
theorem copyName_component (hc : Component c) (h : StringAt mem q (joinPath (c :: cs))) :
    copyName mem 255 q = (c, q + c.length) ∧ mem q ≠ 0 := by
  have hsplit : ∃ t, joinPath (c :: cs) = c ++ t ∧ (t = [] ∨ t.head? = some 0x2f) := by
    cases cs with
    | nil => exact ⟨[], by simp [joinPath], .inl rfl⟩
    | cons d cs => exact ⟨_, rfl, .inr rfl⟩
  obtain ⟨t, heq, ht⟩ := hsplit
  rw [heq] at h
  have hstop : isSeparator (mem (q + c.length)) = true ∨ mem (q + c.length) = 0 := by
    have hrest := h.suffix 0 (Nat.zero_le _)
    rw [Nat.add_zero] at hrest
    rw [hrest]
    obtain rfl | ht := ht
    · exact .inr rfl
    · cases t with
      | nil => cases ht
      | cons b t =>
        obtain rfl := Option.some.inj ht
        exact .inl rfl
  refine ⟨copyName_eq hc.plain (fun i hi => h.prefix hi) hstop hc.length, ?_⟩
  obtain ⟨b, d, rfl⟩ := List.exists_cons_of_ne_nil hc.ne_nil
  have hb : mem q = b := h.prefix (i := 0) (by simp)
  rw [hb]
  exact (hc.plain b List.mem_cons_self).1

/-- Every search reads the byte at which it starts. -/
theorem findLoop_reads {r : Found} (h : findLoop S mem fuel n left q = some r) : q ∈ r.reads := by
  cases fuel with
  | zero => cases h
  | succ fuel =>
    have hself : ∀ stop, q ≤ stop → q ∈ List.range' q (stop + 1 - q) := fun stop hstop =>
      List.mem_range'_1.mpr ⟨le_rfl, by omega⟩
    -- the copy of a name only goes forward
    have hle : ∀ (k p : ℕ), p ≤ (copyName mem k p).2 := by
      intro k
      induction k with
      | zero => exact fun p => le_rfl
      | succ k ih =>
        intro p
        rw [copyName]
        split_ifs
        · exact le_rfl
        · exact le_trans (Nat.le_succ p) (ih (p + 1))
    rw [findLoop] at h
    split_ifs at h with hzero
    · obtain rfl := Option.some.inj h
      exact List.mem_singleton.mpr rfl
    · dsimp only at h
      split_ifs at h with hname
      · obtain ⟨r', -, rfl⟩ := Option.map_eq_some_iff.mp h
        exact List.mem_append_left _ (hself _ (hle 255 q))
      · split at h
        · obtain ⟨r', -, rfl⟩ := Option.map_eq_some_iff.mp h
          exact List.mem_append_left _ (hself _ (hle 255 q))
        · obtain rfl := Option.some.inj h
          exact hself _ (hle 255 q)

theorem length_joinPath (c d : List UInt8) (cs : List (List UInt8)) :
    (joinPath (c :: d :: cs)).length = c.length + 1 + (joinPath (d :: cs)).length := by
  simp only [joinPath, List.length_append, List.length_cons]
  omega

/-- A round whose component has a child. -/
theorem findLoop_child {m : ℕ} (hc : Component c) (h : StringAt mem q (joinPath (c :: cs)))
    (hchild : S.child n c = some m) :
    findLoop S mem (fuel + 1) n left q =
      (findLoop S mem fuel m (some (q + c.length)) (q + c.length + 1)).map
        (·.after (List.range' q (c.length + 1))) := by
  obtain ⟨hcopy, hzero⟩ := copyName_component hc h
  rw [findLoop, if_neg hzero, hcopy]
  simp only [hc.ne_nil, if_false, hchild]
  rw [show q + c.length + 1 - q = c.length + 1 by omega]

/-- A round whose component has no child. -/
theorem findLoop_none (hc : Component c) (h : StringAt mem q (joinPath (c :: cs)))
    (hchild : S.child n c = none) :
    findLoop S mem (fuel + 1) n left q = some ⟨n, some q, List.range' q (c.length + 1)⟩ := by
  obtain ⟨hcopy, hzero⟩ := copyName_component hc h
  rw [findLoop, if_neg hzero, hcopy]
  simp only [hc.ne_nil, if_false, hchild]
  rw [show q + c.length + 1 - q = c.length + 1 by omega]

/-- **The search misses a component**: it ends there, with what was read inside the path. -/
theorem findLoop_misses (hcs : ∀ c ∈ cs, Component c) (h : StringAt mem q (joinPath cs))
    (hmiss : (descend S n cs).2 < cs.length) :
    ∃ l reads, (∀ fuel left, cs.length ≤ fuel →
        findLoop S mem fuel n left q = some ⟨(descend S n cs).1, some l, reads⟩) ∧
      StringAt mem l (joinPath (cs.drop (descend S n cs).2)) ∧
      ∀ a ∈ reads, a ≤ q + (joinPath cs).length := by
  induction cs generalizing n q with
  | nil => exact absurd hmiss (Nat.not_lt_zero _)
  | cons c cs ih =>
    have hc := hcs c List.mem_cons_self
    have hfuel : ∀ fuel, (c :: cs).length ≤ fuel → ∃ k, fuel = k + 1 := fun fuel hle =>
      Nat.exists_eq_add_one.mpr (by rw [List.length_cons] at hle; omega)
    -- the round either ends the search or goes on behind the slash
    cases hchild : S.child n c with
    | none =>
      rw [descend_none hchild]
      refine ⟨q, List.range' q (c.length + 1), fun fuel left hle => ?_, h, fun a ha => ?_⟩
      · obtain ⟨fuel, rfl⟩ := hfuel fuel hle
        exact findLoop_none hc h hchild
      · have hlen : c.length ≤ (joinPath (c :: cs)).length := by
          cases cs <;> simp [joinPath]
        have := (List.mem_range'_1.mp ha).2
        omega
    | some m =>
      rw [descend_some hchild] at hmiss ⊢
      rw [List.length_cons] at hmiss
      -- the last component has a child here, so it is not the one that is missed
      cases cs with
      | nil => exact absurd hmiss (by simp)
      | cons d cs =>
        have hnext : StringAt mem (q + c.length + 1) (joinPath (d :: cs)) :=
          (StringAt.suffix (s := c) (t := 0x2f :: joinPath (d :: cs)) h).tail
        obtain ⟨l, reads, hfind, hleft, hreads⟩ := ih
          (fun d hd => hcs d (List.mem_cons_of_mem _ hd)) hnext (n := m) (by omega)
        refine ⟨l, List.range' q (c.length + 1) ++ reads, fun fuel left hle => ?_, hleft,
          fun a ha => ?_⟩
        · obtain ⟨fuel, rfl⟩ := hfuel fuel hle
          rw [findLoop_child hc h hchild, hfind fuel _ (by simpa using hle)]
          rfl
        · have hlen := length_joinPath c d cs
          obtain ha | ha := List.mem_append.mp ha
          · have := (List.mem_range'_1.mp ha).2
            omega
          · have := hreads a ha
            omega

/-- **The search finds every component**: the round of the last one ends behind the
    terminator, where the next round reads. -/
theorem findLoop_overruns {r : Found} (hne : cs ≠ []) (hcs : ∀ c ∈ cs, Component c)
    (h : StringAt mem q (joinPath cs)) (hall : (descend S n cs).2 = cs.length)
    (hr : findLoop S mem fuel n left q = some r) : q + (joinPath cs).length + 1 ∈ r.reads := by
  induction cs generalizing n q fuel left r with
  | nil => exact absurd rfl hne
  | cons c cs ih =>
    have hc := hcs c List.mem_cons_self
    cases fuel with
    | zero => cases hr
    | succ fuel =>
      cases hchild : S.child n c with
      | none =>
        rw [descend_none hchild] at hall
        simp at hall
      | some m =>
        rw [descend_some hchild, List.length_cons] at hall
        rw [findLoop_child hc h hchild] at hr
        obtain ⟨r', hr', rfl⟩ := Option.map_eq_some_iff.mp hr
        refine List.mem_append_right _ ?_
        cases cs with
        -- behind the last component the next round starts at the terminator plus one
        | nil => exact findLoop_reads hr'
        | cons d cs =>
          have hnext : StringAt mem (q + c.length + 1) (joinPath (d :: cs)) :=
            (StringAt.suffix (s := c) (t := 0x2f :: joinPath (d :: cs)) h).tail
          have hmem := ih (by simp) (fun d hd => hcs d (List.mem_cons_of_mem _ hd)) hnext
            (by omega) hr'
          rwa [length_joinPath, show q + (c.length + 1 + (joinPath (d :: cs)).length) + 1 =
            q + c.length + 1 + (joinPath (d :: cs)).length + 1 by omega]

/-- The first round of a search, at the slash in front. -/
theorem xtFindPathNode_eq {p : ℕ} (h : StringAt mem p (pathBytes cs)) :
    xtFindPathNode S mem (fuel + 1) p =
      (findLoop S mem fuel S.root (some (p + 1)) (p + 1)).map (·.after [p]) := by
  have hslash : mem p = 0x2f := h 0 (Nat.zero_le _)
  have hcopy : copyName mem 255 p = ([], p) := by
    rw [copyName, if_pos]
    rw [hslash]
    exact .inl rfl
  rw [xtFindPathNode, findLoop, if_neg (by rw [hslash]; decide), hcopy]
  simp

/-! ### The normal form -/

theorem joinPath_concat (cs : List (List UInt8)) (c : List UInt8) :
    joinPath (cs ++ [c]) = if cs = [] then c else joinPath cs ++ 0x2f :: c := by
  induction cs with
  | nil => rfl
  | cons d cs ih =>
    cases cs with
    | nil => rfl
    | cons e cs =>
      have hcons : joinPath (d :: e :: cs ++ [c]) = d ++ 0x2f :: joinPath (e :: cs ++ [c]) := rfl
      rw [hcons, ih]
      simp [joinPath]

theorem joinPath_ne_nil (hcs : ∀ c ∈ cs, Component c) (hne : cs ≠ []) : joinPath cs ≠ [] := by
  cases cs with
  | nil => exact absurd rfl hne
  | cons c cs =>
    have hc := (hcs c List.mem_cons_self).ne_nil
    cases cs <;> simp [joinPath, hc]

/-- The buffer is longer than the slash in front when there are components. -/
theorem pathBytes_long (hcs : ∀ c ∈ cs, Component c) :
    1 < (pathBytes cs).length ↔ cs ≠ [] := by
  rw [pathBytes, List.length_cons, Nat.lt_add_left_iff_pos, List.length_pos_iff]
  constructor
  · rintro h rfl
    exact h rfl
  · exact joinPath_ne_nil hcs

/-- The slash that the loop finds is the one in front of bytes without slashes. -/
theorem lastSlash_eq (hc : ∀ b ∈ c, b ≠ 0x2f) {k : ℕ} (hk : k ≤ c.length) :
    lastSlash (s ++ 0x2f :: c) (s.length + k) = s.length := by
  induction k with
  | zero =>
    cases hs : s.length with
    | zero => rfl
    | succ m =>
      have hget : (s ++ 0x2f :: c).getD (m + 1) 0 = 0x2f := by
        rw [List.getD_append_right _ _ _ _ (by omega), hs, Nat.sub_self]
        rfl
      rw [Nat.add_zero, lastSlash, hget, if_neg (not_not.mpr rfl)]
  | succ k ih =>
    have hget : (s ++ 0x2f :: c).getD (s.length + k + 1) 0 = c.getD k 0 := by
      rw [List.getD_append_right _ _ _ _ (by omega),
        show s.length + k + 1 - s.length = k + 1 by omega, List.getD_cons_succ]
    have hne : c.getD k 0 ≠ 0x2f := by
      rw [List.getD_eq_getElem _ _ (by omega)]
      exact hc _ (List.getElem_mem _)
    rw [← Nat.add_assoc, lastSlash, hget, if_pos hne]
    exact ih (by omega)

/-- `..` takes the last component away. -/
theorem dropComponent_eq (hcs : ∀ c ∈ cs, Component c) :
    dropComponent (pathBytes cs) = pathBytes cs.dropLast := by
  obtain rfl | ⟨ds, c, rfl⟩ := List.eq_nil_or_concat cs
  · rfl
  rw [List.concat_eq_append] at hcs ⊢
  have hc := hcs c (by simp)
  have hslash : ∀ b ∈ c, b ≠ 0x2f := by
    rintro b hb rfl
    have hsep := (hc.plain _ hb).2
    cases hsep
  have hlong : 1 < (pathBytes (ds ++ [c])).length := (pathBytes_long hcs).mpr (by simp)
  rw [dropComponent, if_pos hlong, List.dropLast_concat]
  -- a single component leaves the root, whose slash is the first byte
  by_cases hds : ds = []
  · subst hds
    have hpos : lastSlash (pathBytes [c]) ((pathBytes [c]).length - 1) = 0 := by
      have hlast := lastSlash_eq (s := []) hslash (le_refl c.length)
      simpa [pathBytes, joinPath] using hlast
    have hpos : lastSlash (pathBytes ([] ++ [c])) ((pathBytes ([] ++ [c])).length - 1) = 0 := hpos
    rw [hpos]
    simp [pathBytes, joinPath]
  · have hbytes : pathBytes (ds ++ [c]) = pathBytes ds ++ 0x2f :: c := by
      rw [pathBytes, joinPath_concat, if_neg hds]
      rfl
    have hpos : lastSlash (pathBytes (ds ++ [c])) ((pathBytes (ds ++ [c])).length - 1) =
        (pathBytes ds).length := by
      rw [hbytes, List.length_append, List.length_cons,
        show (pathBytes ds).length + (c.length + 1) - 1 = (pathBytes ds).length + c.length by omega]
      exact lastSlash_eq hslash le_rfl
    simp only [hpos]
    rw [if_neg (by simp [pathBytes]), hbytes, List.take_left]

/-- Any other component is put behind the others. -/
theorem addComponent_eq {buffsize : ℕ} {b : List UInt8} (hcs : ∀ c ∈ cs, Component c)
    (h : addComponent buffsize (pathBytes cs) c = .ok b) : b = pathBytes (cs ++ [c]) := by
  rw [addComponent] at h
  split_ifs at h with hlong hsize
  · obtain rfl := Except.ok.inj h
    rw [pathBytes, pathBytes, joinPath_concat, if_neg ((pathBytes_long hcs).mp hlong)]
    rfl
  · obtain rfl := Except.ok.inj h
    obtain rfl : cs = [] := not_not.mp fun hne => hlong ((pathBytes_long hcs).mpr hne)
    rfl

/-- A normalised path with components does not end with a slash. -/
theorem pathBytes_last (hcs : ∀ c ∈ cs, Component c) (hne : cs ≠ []) :
    (pathBytes cs).getLast? ≠ some 0x2f := by
  obtain ⟨ds, c, rfl⟩ := (List.eq_nil_or_concat cs).resolve_left hne
  rw [List.concat_eq_append] at hcs ⊢
  have hc := hcs c (by simp)
  have hlast : (pathBytes (ds ++ [c])).getLast? = c.getLast? := by
    rw [pathBytes, joinPath_concat]
    obtain ⟨x, xs, rfl⟩ := List.exists_cons_of_ne_nil hc.ne_nil
    split_ifs with hds
    · rw [List.getLast?_cons_cons]
    · rw [← List.cons_append, List.getLast?_append_cons, List.getLast?_cons_cons]
  rw [hlast]
  intro hsome
  have hsep := (hc.plain _ (List.mem_of_getLast? hsome)).2
  cases hsep

/-! ### The search of a normalised path -/

/-- The whole path exists in the tree. -/
def Exists (S : Mounts) (cs : List (List UInt8)) : Prop := ∃ m, Reaches S S.root cs m

theorem MountTree.longestPrefix (T : MountTree) (hcs : ∀ c ∈ cs, Component c) :
    LongestPrefix T.toMounts cs (descend T.toMounts T.root cs).2
      (descend T.toMounts T.root cs).1 := by
  obtain ⟨hreach, hlongest⟩ :=
    descend_longest (fun c hc => (hcs c hc).length) T.distinct
  exact ⟨descend_le _ _ _, hreach, hlongest⟩

theorem LongestPrefix.all_iff {k node : ℕ} (h : LongestPrefix S cs k node) :
    k = cs.length ↔ Exists S cs := by
  constructor
  · rintro rfl
    have hreach := h.reaches
    rw [List.take_length] at hreach
    exact ⟨node, hreach⟩
  · rintro ⟨m, hm⟩
    refine le_antisymm h.le (h.longest cs.length le_rfl m ?_)
    rwa [List.take_length]

/-- A path that does not exist as a whole, or has no components, is searched for as it
    should be. -/
theorem MountTree.find {T : MountTree} {p : ℕ} (hcs : ∀ c ∈ cs, Component c)
    (h : StringAt mem p (pathBytes cs)) (hmiss : cs = [] ∨ ¬ Exists T.toMounts cs) :
    ∃ r, FindsLongest T.toMounts mem p cs r ∧
      ∀ fuel > cs.length + 1, xtFindPathNode T.toMounts mem fuel p = some r := by
  have hlong := T.longestPrefix hcs
  have hlen : p + (pathBytes cs).length = p + 1 + (joinPath cs).length := by
    rw [pathBytes, List.length_cons]
    omega
  obtain hnil | hmiss := hmiss
  · -- at the root the second round reads the terminator
    subst hnil
    have hend : mem (p + 1) = 0 := h 1 le_rfl
    refine ⟨⟨T.root, some (p + 1), [p, p + 1]⟩, ⟨fun a ha => ?_, 0, p + 1, ?_, rfl, h.tail⟩, ?_⟩
    · rw [hlen]
      simp only [List.mem_cons, List.not_mem_nil, or_false] at ha
      simp only [joinPath, List.length_nil]
      omega
    · exact ⟨le_rfl, .here _, fun j hj _ _ => hj⟩
    · intro fuel hfuel
      obtain ⟨fuel, rfl⟩ : ∃ k, fuel = k + 2 := ⟨fuel - 2, by simp at hfuel; omega⟩
      rw [xtFindPathNode_eq h, findLoop, if_pos hend]
      rfl
  · have hlt : (descend T.toMounts T.root cs).2 < cs.length :=
      lt_of_le_of_ne (descend_le _ _ _) fun heq => hmiss (hlong.all_iff.mp heq)
    obtain ⟨l, reads, hfind, hleft, hreads⟩ := findLoop_misses hcs h.tail hlt
    refine ⟨⟨_, some l, p :: reads⟩, ⟨fun a ha => ?_, _, l, hlong, rfl, hleft⟩, ?_⟩
    · rw [hlen]
      obtain rfl | ha := List.mem_cons.mp ha
      · omega
      · exact hreads a ha
    · intro fuel hfuel
      obtain ⟨fuel, rfl⟩ : ∃ k, fuel = k + 1 := Nat.exists_eq_add_one.mpr (by omega)
      rw [xtFindPathNode_eq h, hfind fuel _ (by omega)]
      rfl

/-- **The search of a path** ends at the node of its longest prefix that exists, without a
    read behind the terminator, exactly when the path is the root or does not exist as a
    whole. Then `xtOpenFile` goes on with the mount point of that node and the components
    that are left. -/
theorem findPathNode_longest_iff (T : MountTree) (mem : ℕ → UInt8) (p : ℕ)
    (cs : List (List UInt8)) (hcs : ∀ c ∈ cs, Component c)
    (hmem : StringAt mem p (pathBytes cs)) :
    ((∃ fuel r, xtFindPathNode T.toMounts mem fuel p = some r ∧
        FindsLongest T.toMounts mem p cs r) ↔ cs = [] ∨ ¬ Exists T.toMounts cs) ∧
      ∀ rest path flags, xtNormalizePath path 4096 = .ok (pathBytes cs) →
        xtFindFile T.toMounts (pathBytes cs) = none → cs = [] ∨ ¬ Exists T.toMounts cs →
        ∃ k node l, LongestPrefix T.toMounts cs k node ∧
          StringAt (buffer (pathBytes cs) rest) l (joinPath (cs.drop k)) ∧
          ∀ fuel > cs.length + 1, xtOpenFile T.toMounts rest fuel path flags =
            some (handOver T.toMounts flags node (some l)) := by
  refine ⟨⟨?_, fun hmiss => ?_⟩, ?_⟩
  · rintro ⟨fuel, r, hr, hfinds⟩
    by_contra hcon
    rw [not_or, not_not] at hcon
    obtain ⟨hne, hexists⟩ := hcon
    cases fuel with
    | zero => cases hr
    | succ fuel =>
      rw [xtFindPathNode_eq hmem] at hr
      obtain ⟨r', hr', rfl⟩ := Option.map_eq_some_iff.mp hr
      -- a path that exists is read past its terminator
      have hover := findLoop_overruns hne hcs hmem.tail
        ((T.longestPrefix hcs).all_iff.mpr hexists) hr'
      have hle := hfinds.reads _ (List.mem_append_right _ hover)
      rw [pathBytes, List.length_cons] at hle
      omega
  · obtain ⟨r, hfinds, hr⟩ := T.find hcs hmem hmiss
    exact ⟨_, r, hr _ (Nat.lt_succ_self _), hfinds⟩
  · intro rest path flags hpath hopen hmiss
    obtain ⟨r, hfinds, hr⟩ := T.find hcs (stringAt_buffer (pathBytes cs) rest) hmiss
    obtain ⟨k, l, hlong, hleft, hstring⟩ := hfinds.longest
    refine ⟨k, r.node, l, hlong, hstring, fun fuel hfuel => ?_⟩
    rw [xtOpenFile, hpath]
    simp only [hopen, hr fuel hfuel, Option.map_some, hleft]

/-- A root with the node `d`, which has the node `x`. -/
def smallMounts : Mounts where
  root := 1
  node
    | 1 => ⟨11, [], [2]⟩
    | 2 => ⟨12, [0x64], [3]⟩
    | 3 => ⟨13, [0x78], []⟩
    | _ => ⟨0, [], []⟩
  mount _ := ⟨1, 0, 0⟩
  fs _ := ⟨[], some ⟨true, true, none⟩⟩
  filesystems := []
  openedFiles := []

/-- The nodes have a child at most. -/
def smallTree : MountTree where
  toMounts := smallMounts
  distinct := by
    rintro cs n - m hm k hk - -
    match n with
    | 0 => cases hm
    | 1 => rw [List.mem_singleton.mp hm, List.mem_singleton.mp hk]
    | 2 => rw [List.mem_singleton.mp hm, List.mem_singleton.mp hk]
    | 3 => cases hm
    | n + 4 => cases hm

theorem component_letter {b : UInt8} (hb : b ≠ 0 ∧ isSeparator b = false) : Component [b] :=
  ⟨by simp, by simp, by simpa using hb⟩

/-- Of the path `/d/y` only `d` exists. -/
theorem findPathNode_longest_d_y :
    ∃ fuel r, xtFindPathNode smallTree.toMounts (buffer (pathBytes [[0x64], [0x79]]) fun _ => 0)
        fuel 0 = some r ∧ FindsLongest smallTree.toMounts
        (buffer (pathBytes [[0x64], [0x79]]) fun _ => 0) 0 [[0x64], [0x79]] r := by
  have hcs : ∀ c ∈ [[(0x64 : UInt8)], [0x79]], Component c := by
    simpa using ⟨component_letter (b := 0x64) (by decide), component_letter (b := 0x79) (by decide)⟩
  refine (findPathNode_longest_iff smallTree _ 0 [[0x64], [0x79]] hcs
    (stringAt_buffer _ _)).1.mpr (.inr ?_)
  intro hexists
  exact absurd ((smallTree.longestPrefix hcs).all_iff.mpr hexists) (by decide)

/-- The path `/d` exists as a whole. The search reads on behind its terminator, where an `x`
    leads it to the node below, and the file is opened on the mount point of that one. -/
theorem findPathNode_overruns :
    ∃ (T : MountTree) (rest : ℕ → UInt8) (cs : List (List UInt8)), (∀ c ∈ cs, Component c) ∧
      (¬ ∃ fuel r, xtFindPathNode T.toMounts (buffer (pathBytes cs) rest) fuel 0 = some r ∧
        FindsLongest T.toMounts (buffer (pathBytes cs) rest) 0 cs r) ∧
      LongestPrefix T.toMounts cs 1 2 ∧ (T.node 2).mp = 12 ∧
      xtOpenFile T.toMounts rest 5 (pathBytes cs) 0 = some (.handed 13 (some 4) false) := by
  have hcs : ∀ c ∈ [[(0x64 : UInt8)]], Component c := by
    simpa using component_letter (b := 0x64) (by decide)
  have hlong : LongestPrefix smallTree.toMounts [[0x64]] 1 2 := smallTree.longestPrefix hcs
  refine ⟨smallTree, fun i => if i = 3 then 0x78 else 0, [[0x64]], hcs, ?_, hlong, rfl, rfl⟩
  rintro ⟨fuel, r, hr, hfinds⟩
  cases fuel with
  | zero => cases hr
  | succ fuel =>
    rw [xtFindPathNode_eq (stringAt_buffer _ _)] at hr
    obtain ⟨r', hr', rfl⟩ := Option.map_eq_some_iff.mp hr
    have hover := findLoop_overruns (by simp) hcs (stringAt_buffer (pathBytes [[0x64]]) _).tail
      rfl hr'
    have hle := hfinds.reads _ (List.mem_append_right _ hover)
    exact absurd hle (by decide)

end XTOS.Fs

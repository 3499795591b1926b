import XTOS.Lib.Run
import XTOS.LinkedList
import XTOS.Strings

/-!
# The device registry

The list of devices of `xtkernel/devfs.c` with its calls `xtFindDevice`, `xtRegisterDevice`
and `xtUnregisterDevice`, compared with a finite map from names to files.

## Main definitions

- `XTDevice`, `Registry` — a device record, and the list of devices with the heap blocks of
  its nodes and records
- `xtFindDevice`, `xtRegisterDevice`, `xtUnregisterDevice`
- `specCall` — the same calls on a map keyed by the name without its case
- `Step`, `Correct` — a call on the registry and on the map, and their agreement
- `Concurrent` — several calls of `xtRegisterDevice` whose sections are interleaved

## Main results

- `Listed.find` — the search of the list is the lookup in the map of the listed devices
- `correct_of_reachable` — the registry and the map agree in every run whose calls are safe
- `Concurrent.unique_of_reachable` — no two calls register one name in a run in which no two
  of them are between their two sections with it

## Design notes

The loops over the list take a fuel and give `none` without enough of it. The blocks that
`xtHeapAlloc` hands to a call are arguments of it. A failed allocation gives the blocks taken
before it back, so the call leaves the heap as it was.
-/

namespace XTOS.Devfs

open SysLib LinkedList

variable {F : Type*}

/-- `XTDevice`, with the string that `name` points to and the `XTFile` that `file` points to. -/
structure XTDevice (F : Type*) where
  name : List UInt8
  file : F

/-- `devices`, the nodes of the list, and the device records by address. -/
structure Registry (F : Type*) where
  list : NodeHeap
  devices : ℕ
  device : ℕ → XTDevice F

/-- The device record of a node. -/
def Registry.dev (R : Registry F) (i : ℕ) : XTDevice F := R.device (R.list.data i)

/-- The comparison in the loops over the list. -/
def Registry.test (R : Registry F) (name : List UInt8) (i : ℕ) : Bool :=
  xtStringICmp (R.dev i).name name 4096

/-- `xtFindDevice`: the address of the device record, or `XT_NOT_FOUND`. -/
def xtFindDevice (fuel : ℕ) (R : Registry F) (name : List UInt8) : Option (Option ℕ) :=
  (scan 0 R.list.next (R.test name) fuel 0 R.devices).map fun (_, i) =>
    if i = 0 then none else some (R.list.data i)

/-- What the four allocations of `xtRegisterDevice` return: the blocks of the record and of
    the list node, and whether there was memory for the name and for the file. -/
structure Blocks where
  dev : Option ℕ
  name : Bool
  file : Bool
  list : Option ℕ
  deriving DecidableEq, Repr

/-- The record and the node of a new device in the given blocks. -/
def Registry.place (R : Registry F) (dev list : ℕ) (d : XTDevice F) : Registry F :=
  { R with
    list := xtCreateList { R.list with used := Function.update R.list.used dev true } dev list
    device := Function.update R.device dev d }

/-- `xtRegisterDevice` from the allocation of the record to that of the list node: the node,
    or the result with which the call ends. -/
def newDevice (R : Registry F) (name : List UInt8) (file : F) (b : Blocks) :
    Registry F × Except XTResult ℕ :=
  match b.dev with
  | none => (R, .error .outOfMemory)
  | some dev =>
    if !b.name then (R, .error .outOfMemory)
    else if !b.file then (R, .error .outOfMemory)
    else
      match b.list with
      -- the source returns XT_SUCCESS here
      | none => (R, .error .success)
      | some list => (R.place dev list ⟨name, file⟩, .ok list)

/-- The second section of `xtRegisterDevice`. -/
def insertDevice (fuel : ℕ) (R : Registry F) (list : ℕ) : Option (Registry F) :=
  if R.devices = 0 then some { R with devices := list }
  else (xtAppendList fuel R.list R.devices list).map fun H => { R with list := H }

/-- `xtRegisterDevice`; `none` stands for a null argument. -/
def xtRegisterDevice (fuel : ℕ) (R : Registry F) (name : Option (List UInt8)) (file : Option F)
    (b : Blocks) : Option (Registry F × XTResult) :=
  match name, file with
  | some name, some file =>
    (xtFindDevice fuel R name).bind fun
      | some _ => some (R, .fileAlreadyExists)
      | none =>
        match newDevice R name file b with
        | (R, .error r) => some (R, r)
        | (R, .ok list) => (insertDevice fuel R list).map fun R => (R, .success)
  | _, _ => some (R, .invalidParameter)

/-- `xtUnregisterDevice`. The result of `xtRemoveFromList` is not looked at. -/
def xtUnregisterDevice (fuel : ℕ) (R : Registry F) (name : Option (List UInt8)) :
    Option (Registry F × XTResult) :=
  match name with
  | none => some (R, .invalidParameter)
  | some name =>
    (scan 0 R.list.next (R.test name) fuel 0 R.devices).bind fun (_, i) =>
      if i = 0 then some (R, .notFound)
      else (xtRemoveFromList fuel R.list R.devices i).map fun (H, _) =>
        ({ R with list := H }, .success)

/-! ### Runs against a map -/

/-- A call. -/
inductive Call (F : Type*) where
  | register (name : Option (List UInt8)) (file : Option F) (b : Blocks)
  | unregister (name : Option (List UInt8))

/-- A call on the registry. -/
def Registry.call (fuel : ℕ) (R : Registry F) : Call F → Option (Registry F × XTResult)
  | .register name file b => xtRegisterDevice fuel R name file b
  | .unregister name => xtUnregisterDevice fuel R name

/-- Memory runs out in the allocations of a call. -/
def Blocks.RunsOut (b : Blocks) : Prop :=
  b.dev = none ∨ b.name = false ∨ b.file = false ∨ b.list = none

instance (b : Blocks) : Decidable b.RunsOut := inferInstanceAs (Decidable (_ ∨ _ ∨ _ ∨ _))

/-- What the calls mean for the map from names, without their case, to files. -/
def specCall (m : List UInt8 → Option F) : Call F → (List UInt8 → Option F) × XTResult
  | .register (some name) (some file) b =>
    if (m (key name)).isSome then (m, .fileAlreadyExists)
    else if b.RunsOut then (m, .outOfMemory)
    else (Function.update m (key name) (some file), .success)
  | .unregister (some name) =>
    if (m (key name)).isSome then (Function.update m (key name) none, .success)
    else (m, .notFound)
  | _ => (m, .invalidParameter)

/-- The blocks of a call are free, and no two of them are one. -/
def Fresh (H : NodeHeap) : Call F → Prop
  | .register _ _ b => (∀ x, b.dev = some x ∨ b.list = some x → x ≠ 0 ∧ H.used x = false) ∧
      ∀ x y, b.dev = some x → b.list = some y → x ≠ y
  | .unregister _ => True

/-- The registry, the map, and the results of the calls so far on both. -/
structure State (F : Type*) where
  registry : Registry F
  spec : List UInt8 → Option F
  results : List (XTResult × XTResult)

/-- There are no devices. -/
def Start (s : State F) : Prop := s.registry.devices = 0 ∧ s.spec = (fun _ => none) ∧ s.results = []

/-- A call that returns, made on the registry and on the map. -/
def Step (c : Call F) (s s' : State F) : Prop :=
  Fresh s.registry.list c ∧ ∃ fuel r, s.registry.call fuel c = some r ∧
    s' = ⟨r.1, (specCall s.spec c).1, s.results ++ [(r.2, (specCall s.spec c).2)]⟩

/-- Every search ends and finds the file that the map has for the name. -/
def Agrees (R : Registry F) (m : List UInt8 → Option F) : Prop :=
  ∀ name, ∃ n, ∀ fuel > n,
    (xtFindDevice fuel R name).map (·.map fun d => (R.device d).file) = some (m (key name))

/-- The registry behaves as the map: the calls returned what they return on the map, every
    call returns, and the searches are the lookups of the map. -/
structure Correct (s : State F) : Prop where
  results : ∀ p ∈ s.results, p.1 = p.2
  returns : ∀ c, Fresh s.registry.list c → ∃ fuel r, s.registry.call fuel c = some r
  agrees : Agrees s.registry s.spec

/-- The calls that keep the agreement: memory for the list node does not run out after the
    other allocations went through, a new name has fewer than 4096 bytes, and no registered
    device is unregistered. -/
def Safe (m : List UInt8 → Option F) : Call F → Prop
  | .register (some name) (some _) b => (m (key name)).isSome ∨ b.dev = none ∨ b.name = false ∨
      b.file = false ∨ (name.length < 4096 ∧ b.list ≠ none)
  | .unregister (some name) => m (key name) = none
  | _ => True

/-- A step by a safe call. -/
def SafeStep (s s' : State F) : Prop := ∃ c, Safe s.spec c ∧ Step c s s'

/-! ### The list of the devices -/

variable {R R' : Registry F} {xs : List ℕ} {name : List UInt8}

/-- The nodes of the list, with their blocks and those of their records in use. -/
structure Listed (R : Registry F) (xs : List ℕ) : Prop where
  linked : Linked 0 R.list.next R.devices xs 0
  used : ∀ x ∈ xs, R.list.used x = true ∧ R.list.used (R.list.data x) = true

/-- The first device with the name. -/
def Registry.find (R : Registry F) (xs : List ℕ) (name : List UInt8) : Option ℕ :=
  xs.find? (R.test name)

theorem Listed.scan (h : Listed R xs) (name : List UInt8) {fuel : ℕ} (hfuel : xs.length < fuel) :
    ∃ p, scan 0 R.list.next (R.test name) fuel 0 R.devices =
      some (p, (R.find xs name).getD 0) := by
  have hscan := h.linked.scan_eq (R.test name) 0 hfuel
  rw [List.headD_eq_head?_getD, ← List.find?_eq_head?_dropWhile_not] at hscan
  exact ⟨_, hscan⟩

theorem Listed.find_ne_zero (h : Listed R xs) {i : ℕ} (hi : R.find xs name = some i) : i ≠ 0 :=
  h.linked.ne_null i (List.mem_of_find?_eq_some hi)

/-- **The search** of the list finds the first device with the name. -/
theorem Listed.find (h : Listed R xs) (name : List UInt8) {fuel : ℕ} (hfuel : xs.length < fuel) :
    xtFindDevice fuel R name = some ((R.find xs name).map R.list.data) := by
  obtain ⟨p, hp⟩ := h.scan name hfuel
  rw [xtFindDevice, hp, Option.map_some]
  cases hi : R.find xs name with
  | none => simp
  | some i => simp [h.find_ne_zero hi]

/-- What the search returns, if it returns. -/
theorem Listed.find_of_returns (h : Listed R xs) {fuel : ℕ} {r : Option ℕ}
    (hr : xtFindDevice fuel R name = some r) : r = (R.find xs name).map R.list.data := by
  obtain ⟨q, hq, rfl⟩ := Option.map_eq_some_iff.mp hr
  have hmax := scan_mono (le_max_right (xs.length + 1) fuel) hq
  obtain ⟨p, hp⟩ := h.scan name (Nat.lt_of_succ_le (le_max_left (xs.length + 1) fuel))
  rw [hp] at hmax
  obtain rfl := Option.some.inj hmax
  cases hi : R.find xs name with
  | none => simp
  | some i => simp [h.find_ne_zero hi]

/-- A node that is in no list yet, with its block and that of its record in use. -/
structure Ready (R : Registry F) (n : ℕ) : Prop where
  ne_zero : n ≠ 0
  next : R.list.next n = 0
  used : R.list.used n = true ∧ R.list.used (R.list.data n) = true

section Place

variable {dev list x : ℕ} {d : XTDevice F}

/-- A new device touches no node and no record in use. -/
theorem place_live (hdev : R.list.used dev = false) (hlist : R.list.used list = false)
    (hx : R.list.used x = true) (hdata : R.list.used (R.list.data x) = true) :
    (R.place dev list d).list.next x = R.list.next x ∧
      (R.place dev list d).list.data x = R.list.data x ∧
      (R.place dev list d).dev x = R.dev x := by
  -- a node in use and its record are not in the new blocks
  have hxl : x ≠ list := by
    rintro rfl
    rw [hx] at hlist
    cases hlist
  have hxd : R.list.data x ≠ dev := by
    intro heq
    rw [heq, hdev] at hdata
    cases hdata
  have hkeep : (R.place dev list d).list.data x = R.list.data x := by
    simp only [Registry.place, xtCreateList_data]
    exact Function.update_of_ne hxl _ _
  refine ⟨?_, hkeep, ?_⟩
  · simp only [Registry.place, xtCreateList_next]
    exact Function.update_of_ne hxl _ _
  · rw [Registry.dev, hkeep]
    exact Function.update_of_ne hxd _ _

/-- Blocks in use stay so. -/
theorem place_used (hx : R.list.used x = true) : (R.place dev list d).list.used x = true := by
  simp only [Registry.place, xtCreateList, Function.update_apply]
  split_ifs
  · rfl
  · rfl
  · exact hx

theorem place_listed (h : Listed R xs) (hdev : R.list.used dev = false)
    (hlist : R.list.used list = false) : Listed (R.place dev list d) xs := by
  have hlive := fun x hx => place_live (d := d) hdev hlist (h.used x hx).1 (h.used x hx).2
  refine ⟨h.linked.congr fun x hx => (hlive x hx).1, fun x hx => ?_⟩
  rw [(hlive x hx).2.1]
  exact ⟨place_used (h.used x hx).1, place_used (h.used x hx).2⟩

/-- The node of the new device is ready, and its record is the new one. -/
theorem place_ready (hlist : list ≠ 0) (hne : dev ≠ list) :
    Ready (R.place dev list d) list ∧ (R.place dev list d).dev list = d := by
  have hdata : (R.place dev list d).list.data list = dev := by
    simp only [Registry.place, xtCreateList_data, Function.update_self]
  refine ⟨⟨hlist, ?_, ?_, ?_⟩, ?_⟩
  · simp only [Registry.place, xtCreateList_next, Function.update_self]
  · simp only [Registry.place, xtCreateList, Function.update_self]
  · rw [hdata]
    simp [Registry.place, xtCreateList, hne]
  · rw [Registry.dev, hdata]
    simp only [Registry.place, Function.update_self]

end Place

/-- The allocations fail, or they give a new device. -/
theorem newDevice_cases (R : Registry F) (name : List UInt8) (file : F) (b : Blocks) :
    (newDevice R name file b = (R, .error .outOfMemory) ∧
      (b.dev = none ∨ b.name = false ∨ b.file = false)) ∨
    (newDevice R name file b = (R, .error .success) ∧ b.list = none ∧ b.dev ≠ none ∧
      b.name = true ∧ b.file = true) ∨
    ∃ dev list, b.dev = some dev ∧ b.list = some list ∧ b.name = true ∧ b.file = true ∧
      newDevice R name file b = (R.place dev list ⟨name, file⟩, .ok list) := by
  obtain ⟨_ | dev, _ | _, _ | _, _ | list⟩ := b <;> simp [newDevice]

/-- The second section puts a ready node behind the last one. -/
theorem insertDevice_spec {n fuel : ℕ} (h : Listed R xs) (hn : Ready R n) (hnew : n ∉ xs)
    (hr : insertDevice fuel R n = some R') :
    Listed R' (xs ++ [n]) ∧ R'.dev = R.dev ∧ R'.list.data = R.list.data ∧
      R'.list.used = R.list.used ∧ ∀ x, x ∉ xs → R'.list.next x = R.list.next x := by
  have hused : ∀ x ∈ xs ++ [n], R.list.used x = true ∧ R.list.used (R.list.data x) = true := by
    intro x hx
    obtain hx | hx := List.mem_append.mp hx
    · exact h.used x hx
    · rw [List.mem_singleton.mp hx]
      exact hn.used
  rw [insertDevice] at hr
  split_ifs at hr with hnull
  · -- the first device becomes the head of the list
    obtain rfl := Option.some.inj hr
    obtain rfl : xs = [] := by
      have hlinked := h.linked
      rw [hnull] at hlinked
      exact hlinked.unique rfl
    exact ⟨⟨⟨rfl, hn.ne_zero, hn.next⟩, hused⟩, rfl, rfl, rfl, fun _ _ => rfl⟩
  · obtain ⟨H, hH, rfl⟩ := Option.map_eq_some_iff.mp hr
    have hxs : xs ≠ [] := by
      rintro rfl
      exact hnull h.linked
    obtain ⟨hlinked, hdata, husedEq, hnext⟩ :=
      xtAppendList_linked h.linked hxs hn.ne_zero hnew hn.next hH
    refine ⟨⟨hlinked, fun x hx => ?_⟩, ?_, hdata, husedEq, hnext⟩
    · simp only [hdata, husedEq]
      exact hused x hx
    · funext x
      simp only [Registry.dev, hdata]

theorem insertDevice_returns {fuel : ℕ} (h : Listed R xs) (n : ℕ) (hfuel : xs.length < fuel) :
    ∃ R', insertDevice fuel R n = some R' := by
  rw [insertDevice]
  split_ifs with hnull
  · exact ⟨_, rfl⟩
  · rw [xtAppendList]
    split_ifs
    · exact ⟨_, rfl⟩
    · obtain ⟨ys, y, rfl⟩ := (List.eq_nil_or_concat xs).resolve_left fun hxs => by
        have hlinked := h.linked
        rw [hxs] at hlinked
        exact hnull hlinked
      have hlinked := h.linked
      rw [List.concat_eq_append] at hlinked
      rw [List.length_concat] at hfuel
      -- a list that ends has a last node
      exact ⟨_, by rw [xtGetLastList_eq hlinked (by omega)]; rfl⟩

/-! ### The registry as a map -/

/-- The map is that of the listed devices, whose names are short. -/
structure Represents (R : Registry F) (xs : List ℕ) (m : List UInt8 → Option F) : Prop where
  short : ∀ x ∈ xs, (R.dev x).name.length < 4096
  lookup : ∀ k, m k = (xs.find? fun x => key (R.dev x).name = k).map fun x => (R.dev x).file

variable {m : List UInt8 → Option F}

theorem find_congr {p q : ℕ → Bool} (h : ∀ x ∈ xs, p x = q x) : xs.find? p = xs.find? q := by
  induction xs with
  | nil => rfl
  | cons x xs ih =>
    rw [List.find?_cons, List.find?_cons, h x List.mem_cons_self,
      ih fun y hy => h y (List.mem_cons_of_mem _ hy)]

/-- On short names the search by `xtStringICmp` is the search by the key. -/
theorem Represents.find (h : Represents R xs m) (name : List UInt8) :
    m (key name) = (R.find xs name).map fun x => (R.dev x).file := by
  have hfind : R.find xs name = xs.find? fun x => key (R.dev x).name = key name := by
    refine find_congr fun x hx => ?_
    rw [Bool.eq_iff_iff, Registry.test, xtStringICmp_short (h.short x hx)]
    simp
  rw [hfind]
  exact h.lookup _

theorem Represents.find_none (h : Represents R xs m) (name : List UInt8) :
    R.find xs name = none ↔ m (key name) = none := by
  rw [h.find name, Option.map_eq_none_iff]

/-- The map of a list with one more device behind the others. -/
theorem Represents.append {n : ℕ} {file : F} (h : Represents R xs m)
    (hdev : ∀ x ∈ xs, R'.dev x = R.dev x) (hn : R'.dev n = ⟨name, file⟩)
    (hshort : name.length < 4096) (hnone : m (key name) = none) :
    Represents R' (xs ++ [n]) (Function.update m (key name) (some file)) := by
  refine ⟨fun x hx => ?_, fun k => ?_⟩
  · obtain hx | hx := List.mem_append.mp hx
    · rw [hdev x hx]
      exact h.short x hx
    · rw [List.mem_singleton.mp hx, hn]
      exact hshort
  · have hold : (xs.find? fun x => key (R'.dev x).name = k) =
        xs.find? fun x => key (R.dev x).name = k :=
      find_congr fun x hx => by rw [hdev x hx]
    have hmap : ((xs.find? fun x => key (R'.dev x).name = k).map fun x => (R'.dev x).file) =
        m k := by
      rw [hold, h.lookup k]
      cases hfind : xs.find? fun x => key (R.dev x).name = k with
      | none => rfl
      | some x => simp only [Option.map_some, hdev x (List.mem_of_find?_eq_some hfind)]
    rw [List.find?_append, Option.map_or, hmap]
    -- the new device is behind the others, so it only answers for its own name
    by_cases hk : key name = k
    · subst hk
      simp [hnone, hn]
    · rw [Function.update_of_ne (Ne.symm hk)]
      simp [hn, hk]

/-- Everything a call of `xtRegisterDevice` with a name and a file can do. -/
theorem register_cases {fuel : ℕ} {file : F} {b : Blocks} {r : Registry F × XTResult}
    (h : Listed R xs) (hfresh : Fresh R.list (.register (some name) (some file) b))
    (hr : xtRegisterDevice fuel R (some name) (some file) b = some r) :
    (R.find xs name ≠ none ∧ r = (R, .fileAlreadyExists)) ∨
    (R.find xs name = none ∧ r = (R, .outOfMemory) ∧
      (b.dev = none ∨ b.name = false ∨ b.file = false)) ∨
    (R.find xs name = none ∧ r = (R, .success) ∧ b.list = none ∧ b.dev ≠ none ∧ b.name = true ∧
      b.file = true) ∨
    ∃ R' n, R.find xs name = none ∧ ¬ b.RunsOut ∧ r = (R', .success) ∧ Listed R' (xs ++ [n]) ∧
      (∀ x ∈ xs, R'.dev x = R.dev x) ∧ R'.dev n = ⟨name, file⟩ := by
  obtain ⟨o, ho, hr⟩ := Option.bind_eq_some_iff.mp hr
  rw [h.find_of_returns ho] at hr
  cases hfind : R.find xs name with
  | some x =>
    rw [hfind] at hr
    exact .inl ⟨by simp, (Option.some.inj hr).symm⟩
  | none =>
    rw [hfind] at hr
    obtain ⟨hnew, hout⟩ | ⟨hnew, hlist⟩ | ⟨dev, list, hdev, hlist, hname, hfile, hnew⟩ :=
      newDevice_cases R name file b
    · simp only [Option.map_none, hnew] at hr
      exact .inr (.inl ⟨rfl, (Option.some.inj hr).symm, hout⟩)
    · simp only [Option.map_none, hnew] at hr
      exact .inr (.inr (.inl ⟨rfl, (Option.some.inj hr).symm, hlist⟩))
    · simp only [Option.map_none, hnew] at hr
      obtain ⟨R', hR', rfl⟩ := Option.map_eq_some_iff.mp hr
      obtain ⟨-, hdevFree⟩ := hfresh.1 dev (.inl hdev)
      obtain ⟨hne, hlistFree⟩ := hfresh.1 list (.inr hlist)
      -- the allocations came through: the node is ready and goes behind the last one
      obtain ⟨hready, hrecord⟩ :=
        place_ready (R := R) (d := ⟨name, file⟩) hne (hfresh.2 dev list hdev hlist)
      have hfree : list ∉ xs := by
        intro hmem
        rw [(h.used list hmem).1] at hlistFree
        cases hlistFree
      obtain ⟨hlisted, hkeep, -⟩ :=
        insertDevice_spec (place_listed h hdevFree hlistFree) hready hfree hR'
      refine .inr (.inr (.inr ⟨R', list, rfl, ?_, rfl, hlisted, fun x hx => ?_, ?_⟩))
      · simp [Blocks.RunsOut, hdev, hlist, hname, hfile]
      · rw [hkeep]
        exact (place_live hdevFree hlistFree (h.used x hx).1 (h.used x hx).2).2.2
      · rw [hkeep]
        exact hrecord

/-- What every run with safe calls keeps. -/
def Invariant (s : State F) : Prop :=
  (∃ xs, Listed s.registry xs ∧ Represents s.registry xs s.spec) ∧ ∀ p ∈ s.results, p.1 = p.2

theorem start_invariant {s : State F} (h : Start s) : Invariant s := by
  obtain ⟨hdevices, hspec, hresults⟩ := h
  refine ⟨⟨[], ⟨hdevices, by simp⟩, ⟨by simp, fun k => ?_⟩⟩, ?_⟩
  · rw [hspec]
    rfl
  · rw [hresults]
    simp

/-- A safe call does on the registry what it does on the map. -/
theorem safe_call {fuel : ℕ} {c : Call F} {r : Registry F × XTResult} (h : Listed R xs)
    (hm : Represents R xs m) (hsafe : Safe m c) (hfresh : Fresh R.list c)
    (hr : R.call fuel c = some r) :
    (∃ ys, Listed r.1 ys ∧ Represents r.1 ys (specCall m c).1) ∧ r.2 = (specCall m c).2 := by
  match c with
  | .register none file b =>
    obtain rfl := Option.some.inj hr
    exact ⟨⟨xs, h, hm⟩, rfl⟩
  | .register (some name) none b =>
    obtain rfl := Option.some.inj hr
    exact ⟨⟨xs, h, hm⟩, rfl⟩
  | .register (some name) (some file) b =>
    obtain ⟨hfind, rfl⟩ | ⟨hfind, rfl, hout⟩ | ⟨hfind, -, hlist, hothers⟩ |
      ⟨R', n, hfind, hall, rfl, hlisted, hkeep, hn⟩ := register_cases h hfresh hr
    · have hsome : (m (key name)).isSome := by
        rw [Option.isSome_iff_ne_none]
        exact fun hnone => hfind ((hm.find_none name).mpr hnone)
      simp only [specCall, hsome, if_true]
      exact ⟨⟨xs, h, hm⟩, trivial⟩
    · have hnone := (hm.find_none name).mp hfind
      have hruns : b.RunsOut := by
        obtain h | h | h := hout
        · exact .inl h
        · exact .inr (.inl h)
        · exact .inr (.inr (.inl h))
      simp only [specCall, hnone, hruns, Option.isSome_none, if_true, if_false,
        Bool.false_eq_true]
      exact ⟨⟨xs, h, hm⟩, trivial⟩
    · -- the list node could not be allocated, which is not safe
      have hnone := (hm.find_none name).mp hfind
      simp [Safe, hnone, hlist, hothers] at hsafe
    · have hnone := (hm.find_none name).mp hfind
      have hshort : name.length < 4096 := by
        simp only [Blocks.RunsOut, not_or] at hall
        obtain hsome | hdev | hname | hfile | hshort := hsafe
        · rw [hnone] at hsome
          cases hsome
        · exact absurd hdev hall.1
        · exact absurd hname hall.2.1
        · exact absurd hfile hall.2.2.1
        · exact hshort.1
      simp only [specCall, hnone, hall, Option.isSome_none, if_false, Bool.false_eq_true]
      exact ⟨⟨_, hlisted, hm.append hkeep hn hshort hnone⟩, trivial⟩
  | .unregister none =>
    obtain rfl := Option.some.inj hr
    exact ⟨⟨xs, h, hm⟩, rfl⟩
  | .unregister (some name) =>
    have hnone : m (key name) = none := hsafe
    obtain ⟨q, hq, hr⟩ := Option.bind_eq_some_iff.mp hr
    -- a name that the map does not have is not found
    have hmax := scan_mono (le_max_right (xs.length + 1) fuel) hq
    obtain ⟨p, hp⟩ := h.scan name (Nat.lt_of_succ_le (le_max_left (xs.length + 1) fuel))
    rw [hp, (hm.find_none name).mpr hnone] at hmax
    obtain rfl := Option.some.inj hmax
    obtain rfl := Option.some.inj hr
    simp only [specCall, hnone]
    exact ⟨⟨xs, h, hm⟩, rfl⟩

theorem safeStep_invariant {s s' : State F} (hs : Invariant s) (hstep : SafeStep s s') :
    Invariant s' := by
  obtain ⟨⟨xs, hlisted, hm⟩, hresults⟩ := hs
  obtain ⟨c, hsafe, hfresh, fuel, r, hr, rfl⟩ := hstep
  obtain ⟨hlist, hres⟩ := safe_call hlisted hm hsafe hfresh hr
  refine ⟨hlist, fun p hp => ?_⟩
  obtain hp | hp := List.mem_append.mp hp
  · exact hresults p hp
  · rw [List.mem_singleton.mp hp]
    exact hres

/-- Every call returns on a list that ends. -/
theorem call_returns (h : Listed R xs) {c : Call F} (hfresh : Fresh R.list c) :
    ∃ fuel r, R.call fuel c = some r := by
  refine ⟨xs.length + 1, ?_⟩
  match c with
  | .register none file b => exact ⟨_, rfl⟩
  | .register (some name) none b => exact ⟨_, rfl⟩
  | .register (some name) (some file) b =>
    rw [Registry.call, xtRegisterDevice, h.find name (Nat.lt_succ_self _), Option.bind_some]
    cases R.find xs name with
    | some x => exact ⟨_, rfl⟩
    | none =>
      obtain ⟨hnew, -⟩ | ⟨hnew, -⟩ | ⟨dev, list, hdev, hlist, -, -, hnew⟩ :=
        newDevice_cases R name file b
      · simp only [Option.map_none, hnew]
        exact ⟨_, rfl⟩
      · simp only [Option.map_none, hnew]
        exact ⟨_, rfl⟩
      · simp only [Option.map_none, hnew]
        have hplaced : Listed (R.place dev list ⟨name, file⟩) xs :=
          place_listed h (hfresh.1 dev (.inl hdev)).2 (hfresh.1 list (.inr hlist)).2
        obtain ⟨R', hR'⟩ := insertDevice_returns hplaced list (Nat.lt_succ_self _)
        exact ⟨_, by rw [hR', Option.map_some]⟩
  | .unregister none => exact ⟨_, rfl⟩
  | .unregister (some name) =>
    obtain ⟨p, hp⟩ := h.scan name (Nat.lt_succ_self _)
    rw [Registry.call, xtUnregisterDevice, hp, Option.bind_some]
    cases hfind : R.find xs name with
    | none => exact ⟨_, rfl⟩
    | some x =>
      have hx := h.find_ne_zero hfind
      have hmem := List.mem_of_find?_eq_some hfind
      obtain ⟨y, ys, rfl⟩ := List.exists_cons_of_ne_nil (List.ne_nil_of_mem hmem)
      have hdevices : R.devices ≠ 0 := by
        rw [h.linked.1]
        exact h.linked.2.1
      obtain ⟨l, hl⟩ : ∃ l, removeLoop R.list x ((y :: ys).length + 1) R.devices = some l :=
        removeLoop_returns h.linked (by simp)
      simp only [Option.getD_some, hx, if_false, xtRemoveFromList, hdevices, or_self, hl]
      exact ⟨_, rfl⟩

theorem Invariant.correct {s : State F} (h : Invariant s) : Correct s := by
  obtain ⟨⟨xs, hlisted, hm⟩, hresults⟩ := h
  refine ⟨hresults, fun c hfresh => call_returns hlisted hfresh, fun name => ⟨xs.length, ?_⟩⟩
  intro fuel hfuel
  rw [hlisted.find name hfuel, hm.find name]
  cases s.registry.find xs name <;> rfl

/-- The state after a call, if it returns with this fuel. -/
def State.after (s : State F) (fuel : ℕ) (c : Call F) : State F :=
  match s.registry.call fuel c with
  | none => s
  | some r => ⟨r.1, (specCall s.spec c).1, s.results ++ [(r.2, (specCall s.spec c).2)]⟩

theorem State.after_step {s : State F} {fuel : ℕ} {c : Call F} (hfresh : Fresh s.registry.list c)
    (hr : (s.registry.call fuel c).isSome) : Step c s (s.after fuel c) := by
  obtain ⟨r, hr⟩ := Option.isSome_iff_exists.mp hr
  exact ⟨hfresh, fuel, r, hr, by rw [State.after, hr]⟩

theorem fresh_blocks {H : NodeHeap} {name : Option (List UInt8)} {file : Option F} {b : Blocks}
    (hdev : ∀ x ∈ b.dev, x ≠ 0 ∧ H.used x = false) (hlist : ∀ x ∈ b.list, x ≠ 0 ∧ H.used x = false)
    (hne : ∀ x ∈ b.dev, ∀ y ∈ b.list, x ≠ y) : Fresh H (.register name file b) := by
  refine ⟨fun x hx => ?_, fun x y hx hy => hne x hx y hy⟩
  obtain hx | hx := hx
  · exact hdev x hx
  · exact hlist x hx

/-- **The registry is a map** in every run whose calls are safe: the calls return what they
    return on the map from names without their case, and a search finds what the map has. -/
theorem correct_of_reachable (s : State F) (h : Reachable Start SafeStep s) : Correct s :=
  (h.invariant (fun _ => start_invariant) fun _ _ => safeStep_invariant).correct

/-- No device and a free heap. -/
def noDevices : State ℕ :=
  { registry :=
      { list := { nodes := fun _ => ⟨0, 0⟩, used := fun _ => false }
        devices := 0
        device := fun _ => ⟨[], 0⟩ }
    spec := fun _ => none
    results := [] }

/-- A call that registers a name with a file in the given blocks. -/
def registerAt (name : List UInt8) (file dev list : ℕ) : Call ℕ :=
  .register (some name) (some file) ⟨some dev, true, true, some list⟩

/-- The devices `a` and `b`. -/
def twoDevices : State ℕ :=
  (noDevices.after 1 (registerAt [0x61] 1 1 2)).after 2 (registerAt [0x62] 2 3 4)

/-- After `a` and `b`, the name `A` is taken. -/
theorem correct_two_devices :
    Reachable Start SafeStep (twoDevices.after 3 (registerAt [0x41] 3 5 6)) ∧
      Correct (twoDevices.after 3 (registerAt [0x41] 3 5 6)) := by
  have h : Reachable Start SafeStep (twoDevices.after 3 (registerAt [0x41] 3 5 6)) := by
    refine .next (.next (.next (.start (s := noDevices) ⟨rfl, rfl, rfl⟩)
      ⟨registerAt [0x61] 1 1 2, ?_, State.after_step (fresh_blocks ?_ ?_ ?_) rfl⟩)
      ⟨registerAt [0x62] 2 3 4, ?_, State.after_step (fresh_blocks ?_ ?_ ?_) rfl⟩)
      ⟨registerAt [0x41] 3 5 6, ?_, State.after_step (fresh_blocks ?_ ?_ ?_) rfl⟩
    · exact .inr (.inr (.inr (.inr (by decide))))
    · decide
    · decide
    · decide
    · exact .inr (.inr (.inr (.inr (by decide))))
    · decide
    · decide
    · decide
    · exact .inl rfl
    · decide
    · decide
    · decide
  exact ⟨h, correct_of_reachable _ h⟩

/-- Unregistering `a`, the first device, takes `b` out of the list: `a` is still found and
    `b` is not. -/
theorem unregister_first_loses_second :
    ∃ s : State ℕ, Reachable Start (fun s s' => ∃ c, Step c s s') s ∧ ¬ Correct s := by
  refine ⟨twoDevices.after 3 (.unregister (some [0x61])), ?_, fun h => ?_⟩
  · refine .next (.next (.next (.start (s := noDevices) ⟨rfl, rfl, rfl⟩)
      ⟨registerAt [0x61] 1 1 2, State.after_step (fresh_blocks ?_ ?_ ?_) rfl⟩)
      ⟨registerAt [0x62] 2 3 4, State.after_step (fresh_blocks ?_ ?_ ?_) rfl⟩)
      ⟨.unregister (some [0x61]), State.after_step trivial rfl⟩
    all_goals decide
  · obtain ⟨n, hn⟩ := h.agrees [0x62]
    have hscan : scan 0 (twoDevices.after 3 (.unregister (some [0x61]))).registry.list.next
        ((twoDevices.after 3 (.unregister (some [0x61]))).registry.test [0x62]) 2 0
        (twoDevices.after 3 (.unregister (some [0x61]))).registry.devices = some (2, 0) := rfl
    have hfind := hn (n + 2) (by omega)
    rw [xtFindDevice, scan_mono (by omega) hscan] at hfind
    cases hfind

/-! ### Calls at the same time -/

namespace Concurrent

/-- Where a call of `xtRegisterDevice` is: before its first section, between the two
    sections without and with its blocks, or at its end. -/
inductive Phase where
  | ready
  | checked
  | holds (list : ℕ)
  | returned (r : XTResult)
  deriving DecidableEq, Repr

/-- The registry, and the calls that are made at the same time. -/
structure State (F : Type*) where
  registry : Registry F
  phase : ℕ → Phase

/-- Call `t` goes on to the next phase. -/
def State.goto (s : State F) (t : ℕ) (p : Phase) : State F :=
  { s with phase := Function.update s.phase t p }

/-- What a call does next: the search under `devLock`, the allocations, or the insertion
    under `devLock`. -/
inductive Event where
  | check (t : ℕ)
  | allocate (t : ℕ) (b : Blocks)
  | insert (t : ℕ)

/-- The effect of an event; `calls` gives the name and the file of each call. -/
def step (calls : ℕ → List UInt8 × F) (fuel : ℕ) (s : State F) : Event → Option (State F)
  | .check t =>
    if s.phase t = .ready then
      (xtFindDevice fuel s.registry (calls t).1).map fun found =>
        s.goto t (if found.isSome then .returned .fileAlreadyExists else .checked)
    else none
  | .allocate t b =>
    if s.phase t = .checked then
      match newDevice s.registry (calls t).1 (calls t).2 b with
      | (R, .error r) => some ({ s with registry := R }.goto t (.returned r))
      | (R, .ok list) => some ({ s with registry := R }.goto t (.holds list))
    else none
  | .insert t =>
    match s.phase t with
    | .holds list => (insertDevice fuel s.registry list).map fun R =>
        { s with registry := R }.goto t (.returned .success)
    | _ => none

/-- The blocks of an event are free. -/
def FreshBlocks (H : NodeHeap) : Event → Prop
  | .allocate _ b => (∀ x, b.dev = some x ∨ b.list = some x → x ≠ 0 ∧ H.used x = false) ∧
      ∀ x y, b.dev = some x → b.list = some y → x ≠ y
  | _ => True

/-- There are no devices, and no call has begun. -/
def Start (s : State F) : Prop := s.registry.devices = 0 ∧ s.phase = fun _ => .ready

/-- An event with its blocks. -/
def Step (calls : ℕ → List UInt8 × F) (e : Event) (s s' : State F) : Prop :=
  FreshBlocks s.registry.list e ∧ ∃ fuel, step calls fuel s e = some s'

/-- A call has found its name free and not yet put its device in the list. -/
def Pending (s : State F) (t : ℕ) : Prop := s.phase t = .checked ∨ ∃ list, s.phase t = .holds list

/-- At most one of the calls with equal names succeeds, and the list has no two devices with
    equal names. -/
structure Unique (calls : ℕ → List UInt8 × F) (s : State F) : Prop where
  once : ∀ t u, s.phase t = .returned .success → s.phase u = .returned .success →
    key (calls t).1 = key (calls u).1 → t = u
  nodup : ∃ xs, Linked 0 s.registry.list.next s.registry.devices xs 0 ∧
    (xs.map fun x => key (s.registry.dev x).name).Nodup

/-- No call looks for its name while another one with this name is between its sections, and
    memory for the list node does not run out after the other allocations went through. -/
def Safe (calls : ℕ → List UInt8 × F) (s : State F) : Event → Prop
  | .check t => ∀ u, u ≠ t → Pending s u → key (calls u).1 ≠ key (calls t).1
  | .allocate _ b => b.dev = none ∨ b.name = false ∨ b.file = false ∨ b.list ≠ none
  | .insert _ => True

/-- A step by a safe event. -/
def SafeStep (calls : ℕ → List UInt8 × F) (s s' : State F) : Prop :=
  ∃ e, Safe calls s e ∧ Step calls e s s'

/-- The call has its name for itself: it is between its sections or has succeeded. -/
def Owner (s : State F) (t : ℕ) : Prop := Pending s t ∨ s.phase t = .returned .success

/-- What every run with safe events keeps, for the nodes of the list. -/
structure Invariant (calls : ℕ → List UInt8 × F) (s : State F) (xs : List ℕ) : Prop where
  listed : Listed s.registry xs
  nodup : (xs.map fun x => key (s.registry.dev x).name).Nodup
  succeeded : ∀ t, s.phase t = .returned .success →
    ∃ x ∈ xs, key (s.registry.dev x).name = key (calls t).1
  held : ∀ t n, s.phase t = .holds n →
    Ready s.registry n ∧ n ∉ xs ∧ (s.registry.dev n).name = (calls t).1
  distinct : ∀ t u n, s.phase t = .holds n → s.phase u = .holds n → t = u
  owners : ∀ t u, Owner s t → Owner s u → key (calls t).1 = key (calls u).1 → t = u
  free : ∀ t, Pending s t → ∀ x ∈ xs, key (s.registry.dev x).name ≠ key (calls t).1

variable {calls : ℕ → List UInt8 × F} {s s' : State F} {xs : List ℕ} {t : ℕ}

@[simp] theorem goto_registry (s : State F) (t : ℕ) (p : Phase) :
    (s.goto t p).registry = s.registry := rfl

@[simp] theorem goto_self (s : State F) (t : ℕ) (p : Phase) : (s.goto t p).phase t = p :=
  Function.update_self _ _ _

theorem goto_other {s : State F} {t u : ℕ} {p : Phase} (h : u ≠ t) :
    (s.goto t p).phase u = s.phase u := Function.update_of_ne h _ _

theorem start_invariant (h : Start s) : Invariant calls s [] where
  listed := ⟨h.1, by simp⟩
  nodup := List.nodup_nil
  succeeded t ht := by rw [h.2] at ht; cases ht
  held t n ht := by rw [h.2] at ht; cases ht
  distinct t u n ht := by rw [h.2] at ht; cases ht
  owners t u ht := by
    obtain (ht | ⟨n, ht⟩) | ht := ht
    all_goals
      rw [h.2] at ht
      cases ht
  free := by simp

/-- A call that ends without success leaves the others as they are. -/
theorem Invariant.fail {r : XTResult} (h : Invariant calls s xs) (hr : r ≠ .success) :
    Invariant calls (s.goto t (.returned r)) xs := by
  have hphase : ∀ u p, (s.goto t (.returned r)).phase u = p → p ≠ .returned r → s.phase u = p := by
    intro u p hu hp
    by_cases hut : u = t
    · rw [hut, goto_self] at hu
      exact absurd hu.symm hp
    · rwa [goto_other hut] at hu
  have hpending : ∀ u, Pending (s.goto t (.returned r)) u → Pending s u := by
    rintro u (hu | ⟨n, hu⟩)
    · exact .inl (hphase u _ hu (by simp))
    · exact .inr ⟨n, hphase u _ hu (by simp)⟩
  have howner : ∀ u, Owner (s.goto t (.returned r)) u → Owner s u := by
    rintro u (hu | hu)
    · exact .inl (hpending u hu)
    · exact .inr (hphase u _ hu (by simpa using hr.symm))
  exact
    { listed := h.listed
      nodup := h.nodup
      succeeded := fun u hu => h.succeeded u (hphase u _ hu (by simpa using hr.symm))
      held := fun u n hu => h.held u n (hphase u _ hu (by simp))
      distinct := fun u v n hu hv =>
        h.distinct u v n (hphase u _ hu (by simp)) (hphase v _ hv (by simp))
      owners := fun u v hu hv => h.owners u v (howner u hu) (howner v hv)
      free := fun u hu => h.free u (hpending u hu) }

/-- No device with the name of a search that finds nothing. -/
theorem find_none_key {R : Registry F} {name : List UInt8} (h : R.find xs name = none) :
    ∀ x ∈ xs, key (R.dev x).name ≠ key name := by
  intro x hx heq
  have htest := List.find?_eq_none.mp h x hx
  rw [Registry.test, xtStringICmp_iff, heq] at htest
  exact htest rfl

/-- The first section: a call whose name nobody else holds becomes its owner. -/
theorem Invariant.check {fuel : ℕ} (h : Invariant calls s xs) (hsafe : Safe calls s (.check t))
    (hstep : step calls fuel s (.check t) = some s') : Invariant calls s' xs := by
  rw [step] at hstep
  split_ifs at hstep with hready
  obtain ⟨found, hfound, rfl⟩ := Option.map_eq_some_iff.mp hstep
  obtain rfl := h.listed.find_of_returns hfound
  cases hfind : s.registry.find xs (calls t).1 with
  | some x =>
    rw [Option.map_some, Option.isSome_some, if_pos rfl]
    exact h.fail (by decide)
  | none =>
    rw [Option.map_none, Option.isSome_none, if_neg (by decide)]
    have hkey := find_none_key hfind
    have hphase : ∀ u p, (s.goto t .checked).phase u = p → p ≠ .checked → s.phase u = p := by
      intro u p hu hp
      by_cases hut : u = t
      · rw [hut, goto_self] at hu
        exact absurd hu.symm hp
      · rwa [goto_other hut] at hu
    have hpending : ∀ u, u ≠ t → Pending (s.goto t .checked) u → Pending s u := by
      intro u hut hu
      rwa [Pending, goto_other hut] at hu
    have howner : ∀ u, u ≠ t → Owner (s.goto t .checked) u → Owner s u := by
      intro u hut hu
      rwa [Owner, Pending, goto_other hut] at hu
    -- no owner of before has the name of call `t`
    have hnew : ∀ u, u ≠ t → Owner s u → key (calls u).1 ≠ key (calls t).1 := by
      intro u hut hu heq
      obtain hu | hu := hu
      · exact hsafe u hut hu heq
      · obtain ⟨x, hx, hxu⟩ := h.succeeded u hu
        exact hkey x hx (hxu.trans heq)
    exact
      { listed := h.listed
        nodup := h.nodup
        succeeded := fun u hu => h.succeeded u (hphase u _ hu (by simp))
        held := fun u n hu => h.held u n (hphase u _ hu (by simp))
        distinct := fun u v n hu hv =>
          h.distinct u v n (hphase u _ hu (by simp)) (hphase v _ hv (by simp))
        owners := fun u v hu hv heq => by
          by_cases hut : u = t
          · by_cases hvt : v = t
            · rw [hut, hvt]
            · rw [hut] at heq
              exact absurd heq.symm (hnew v hvt (howner v hvt hv))
          · by_cases hvt : v = t
            · rw [hvt] at heq
              exact absurd heq (hnew u hut (howner u hut hu))
            · exact h.owners u v (howner u hut hu) (howner v hvt hv) heq
        free := fun u hu => by
          by_cases hut : u = t
          · rw [hut]
            exact hkey
          · exact h.free u (hpending u hut hu) }

/-- The allocations: the call gets a node of its own. -/
theorem Invariant.allocate {fuel : ℕ} {b : Blocks} (h : Invariant calls s xs)
    (hsafe : Safe calls s (.allocate t b)) (hfresh : FreshBlocks s.registry.list (.allocate t b))
    (hstep : step calls fuel s (.allocate t b) = some s') : Invariant calls s' xs := by
  rw [step] at hstep
  split_ifs at hstep with hchecked
  obtain ⟨hnew, -⟩ | ⟨-, hlist, hdev, hname, hfile⟩ | ⟨dev, list, hdev, hlist, -, -, hnew⟩ :=
    newDevice_cases s.registry (calls t).1 (calls t).2 b
  · rw [hnew] at hstep
    obtain rfl := Option.some.inj hstep
    exact h.fail (by decide)
  · simp [Safe, hlist, hdev, hname, hfile] at hsafe
  · rw [hnew] at hstep
    obtain rfl := Option.some.inj hstep
    obtain ⟨-, hdevFree⟩ := hfresh.1 dev (.inl hdev)
    obtain ⟨hne, hlistFree⟩ := hfresh.1 list (.inr hlist)
    obtain ⟨hready, hrecord⟩ := place_ready (R := s.registry) (d := ⟨(calls t).1, (calls t).2⟩) hne
      (hfresh.2 dev list hdev hlist)
    have hlive := fun x hx hd => place_live (R := s.registry) (x := x)
      (d := ⟨(calls t).1, (calls t).2⟩) hdevFree hlistFree hx hd
    have hkeep : ∀ x ∈ xs, (s.registry.place dev list ⟨(calls t).1, (calls t).2⟩).dev x =
        s.registry.dev x := fun x hx =>
      (hlive x (h.listed.used x hx).1 (h.listed.used x hx).2).2.2
    have hfree : ∀ x, s.registry.list.used x = true → x ≠ list := by
      rintro x hx rfl
      rw [hx] at hlistFree
      cases hlistFree
    -- call `t` was already an owner, so the owners are those of before
    have howner : ∀ u, Owner ((⟨s.registry.place dev list ⟨(calls t).1, (calls t).2⟩, s.phase⟩ :
        State F).goto t (.holds list)) u → Owner s u := by
      intro u hu
      by_cases hut : u = t
      · rw [hut]
        exact .inl (.inl hchecked)
      · rwa [Owner, Pending, goto_other hut] at hu
    exact
      { listed := place_listed h.listed hdevFree hlistFree
        nodup := by
          have hmap : (xs.map fun x =>
              key ((s.registry.place dev list ⟨(calls t).1, (calls t).2⟩).dev x).name) =
              xs.map fun x => key (s.registry.dev x).name :=
            List.map_congr_left fun x hx => by rw [hkeep x hx]
          rw [goto_registry, hmap]
          exact h.nodup
        succeeded := fun u hu => by
          have hut : u ≠ t := by
            rintro rfl
            rw [goto_self] at hu
            cases hu
          rw [goto_other hut] at hu
          obtain ⟨x, hx, hxu⟩ := h.succeeded u hu
          exact ⟨x, hx, by rw [goto_registry, hkeep x hx, hxu]⟩
        held := fun u n hu => by
          by_cases hut : u = t
          · rw [hut, goto_self] at hu
            obtain rfl := Phase.holds.inj hu
            refine ⟨hready, fun hmem => hfree list (h.listed.used list hmem).1 rfl, ?_⟩
            rw [goto_registry, hrecord, hut]
          · rw [goto_other hut] at hu
            obtain ⟨hn, hout, hname⟩ := h.held u n hu
            obtain ⟨hnext, hdata, hsame⟩ := hlive n hn.used.1 hn.used.2
            refine ⟨⟨hn.ne_zero, hnext.trans hn.next, place_used hn.used.1, ?_⟩, hout, ?_⟩
            · rw [goto_registry, hdata]
              exact place_used hn.used.2
            · rw [goto_registry, hsame, hname]
        distinct := fun u v n hu hv => by
          by_cases hut : u = t
          · by_cases hvt : v = t
            · rw [hut, hvt]
            · rw [hut, goto_self] at hu
              rw [goto_other hvt] at hv
              obtain rfl := Phase.holds.inj hu
              exact absurd rfl (hfree list (h.held v list hv).1.used.1)
          · rw [goto_other hut] at hu
            by_cases hvt : v = t
            · rw [hvt, goto_self] at hv
              obtain rfl := Phase.holds.inj hv
              exact absurd rfl (hfree list (h.held u list hu).1.used.1)
            · rw [goto_other hvt] at hv
              exact h.distinct u v n hu hv
        owners := fun u v hu hv => h.owners u v (howner u hu) (howner v hv)
        free := fun u hu x hx => by
          rw [goto_registry, hkeep x hx]
          by_cases hut : u = t
          · rw [hut]
            exact h.free t (.inl hchecked) x hx
          · rw [Pending, goto_other hut] at hu
            exact h.free u hu x hx }

/-- The second section: the node of the call goes behind the last one. -/
theorem Invariant.insert {fuel : ℕ} (h : Invariant calls s xs)
    (hstep : step calls fuel s (.insert t) = some s') : ∃ ys, Invariant calls s' ys := by
  rw [step] at hstep
  split at hstep
  case h_2 => cases hstep
  rename_i n hholds
  obtain ⟨R, hR, rfl⟩ := Option.map_eq_some_iff.mp hstep
  obtain ⟨hn, hout, hname⟩ := h.held t n hholds
  obtain ⟨hlisted, hdev, hdata, hused, hnext⟩ := insertDevice_spec h.listed hn hout hR
  have howner : ∀ u, Owner ({ s with registry := R }.goto t (.returned .success)) u →
      Owner s u := by
    intro u hu
    by_cases hut : u = t
    · rw [hut]
      exact .inl (.inr ⟨n, hholds⟩)
    · rwa [Owner, Pending, goto_other hut] at hu
  -- call `t` is at its end, and the others are where they were
  have hother : ∀ u, Pending ({ s with registry := R }.goto t (.returned .success)) u →
      u ≠ t ∧ Pending s u := by
    intro u hu
    by_cases hut : u = t
    · rw [hut, Pending, goto_self] at hu
      obtain hu | ⟨m, hu⟩ := hu <;> cases hu
    · rw [Pending, goto_other hut] at hu
      exact ⟨hut, hu⟩
  have hheld : ∀ u m, ({ s with registry := R }.goto t (.returned .success)).phase u = .holds m →
      u ≠ t ∧ s.phase u = .holds m := by
    intro u m hu
    have hut := (hother u (.inr ⟨m, hu⟩)).1
    rw [goto_other hut] at hu
    exact ⟨hut, hu⟩
  refine ⟨xs ++ [n],
    { listed := hlisted
      nodup := ?_
      succeeded := fun u hu => ?_
      held := fun u m hu => ?_
      distinct := fun u v m hu hv => h.distinct u v m (hheld u m hu).2 (hheld v m hv).2
      owners := fun u v hu hv => h.owners u v (howner u hu) (howner v hv)
      free := fun u hu x hx => ?_ }⟩
  · rw [goto_registry, hdev, List.map_append, List.nodup_append]
    refine ⟨h.nodup, by simp, fun k hk l hl => ?_⟩
    obtain ⟨x, hx, rfl⟩ := List.mem_map.mp hk
    obtain rfl := List.mem_singleton.mp hl
    dsimp only
    rw [hname]
    exact h.free t (.inr ⟨n, hholds⟩) x hx
  · rw [goto_registry, hdev]
    by_cases hut : u = t
    · exact ⟨n, by simp, by rw [hname, hut]⟩
    · rw [goto_other hut] at hu
      obtain ⟨x, hx, hxu⟩ := h.succeeded u hu
      exact ⟨x, List.mem_append_left _ hx, hxu⟩
  · obtain ⟨hut, hu⟩ := hheld u m hu
    obtain ⟨hm, houtm, hnamem⟩ := h.held u m hu
    have hmn : m ≠ n := by
      rintro rfl
      exact hut (h.distinct u t m hu hholds)
    refine ⟨⟨hm.ne_zero, ?_, ?_⟩, ?_, ?_⟩
    · rw [goto_registry, hnext m houtm]
      exact hm.next
    · rw [goto_registry, hdata, hused]
      exact hm.used
    · simp [houtm, hmn]
    · rw [goto_registry, hdev]
      exact hnamem
  · obtain ⟨hut, hu⟩ := hother u hu
    rw [goto_registry, hdev]
    obtain hx | hx := List.mem_append.mp hx
    · exact h.free u hu x hx
    · rw [List.mem_singleton.mp hx, hname]
      intro heq
      exact hut (h.owners t u (.inl (.inr ⟨n, hholds⟩)) (.inl hu) heq).symm

theorem safeStep_invariant (h : ∃ xs, Invariant calls s xs) (hstep : SafeStep calls s s') :
    ∃ xs, Invariant calls s' xs := by
  obtain ⟨xs, h⟩ := h
  obtain ⟨e, hsafe, hfresh, fuel, hstep⟩ := hstep
  match e with
  | .check t => exact ⟨xs, h.check hsafe hstep⟩
  | .allocate t b => exact ⟨xs, h.allocate hsafe hfresh hstep⟩
  | .insert t => exact h.insert hstep

theorem Invariant.unique (h : Invariant calls s xs) : Unique calls s where
  once t u ht hu := h.owners t u (.inr ht) (.inr hu)
  nodup := ⟨xs, h.listed.linked, h.nodup⟩

/-- **One registration a name** in every run in which no two calls are between their sections
    with one name, and no list node is refused. -/
theorem unique_of_reachable (calls : ℕ → List UInt8 × F) (s : State F)
    (h : Reachable Start (SafeStep calls) s) : Unique calls s := by
  obtain ⟨xs, hxs⟩ := h.invariant (fun _ hs => ⟨[], start_invariant hs⟩)
    (fun _ _ => safeStep_invariant)
  exact hxs.unique

/-- No device and no call begun. -/
def nothing : State ℕ := ⟨noDevices.registry, fun _ => .ready⟩

/-- The state after an event, if it can happen. -/
def State.after (calls : ℕ → List UInt8 × F) (s : State F) (e : Event) : State F :=
  (step calls 5 s e).getD s

theorem State.after_step {s : State F} {e : Event} (hfresh : FreshBlocks s.registry.list e)
    (h : (step calls 5 s e).isSome) : Step calls e s (s.after calls e) := by
  obtain ⟨s', hs⟩ := Option.isSome_iff_exists.mp h
  exact ⟨hfresh, 5, by rw [State.after, hs]; rfl⟩

theorem freshBlocks {H : NodeHeap} {t dev list : ℕ} (hdev : dev ≠ 0 ∧ H.used dev = false)
    (hlist : list ≠ 0 ∧ H.used list = false) (hne : dev ≠ list) :
    FreshBlocks H (.allocate t ⟨some dev, true, true, some list⟩) := by
  refine ⟨fun x hx => ?_, fun x y hx hy => ?_⟩
  · obtain hx | hx := hx
    · obtain rfl := Option.some.inj hx
      exact hdev
    · obtain rfl := Option.some.inj hx
      exact hlist
  · obtain rfl := Option.some.inj hx
    obtain rfl := Option.some.inj hy
    exact hne

/-- Every call registers `a`. -/
def sameName : ℕ → List UInt8 × ℕ := fun t => ([0x61], t)

/-- Call 0 has been made. -/
def firstDone : State ℕ :=
  ((nothing.after sameName (.check 0)).after sameName
    (.allocate 0 ⟨some 1, true, true, some 2⟩)).after sameName (.insert 0)

/-- One after the other, the second call finds the device of the first. -/
theorem unique_one_after_the_other :
    Reachable Start (SafeStep sameName) (firstDone.after sameName (.check 1)) ∧
      Unique sameName (firstDone.after sameName (.check 1)) := by
  have hphase : firstDone.phase = Function.update (Function.update (Function.update
      (fun _ => .ready) 0 .checked) 0 (.holds 2)) 0 (.returned .success) := rfl
  have hquiet : ∀ u, ¬ Pending firstDone u := by
    intro u hu
    rw [Pending, hphase] at hu
    by_cases h0 : u = 0
    · subst h0
      simp at hu
    · simp [h0] at hu
  have h : Reachable Start (SafeStep sameName) (firstDone.after sameName (.check 1)) := by
    refine .next (.next (.next (.next (.start (s := nothing) ⟨rfl, rfl⟩)
      ⟨.check 0, ?_, State.after_step trivial rfl⟩)
      ⟨.allocate 0 _, ?_, State.after_step (freshBlocks ?_ ?_ ?_) rfl⟩)
      ⟨.insert 0, trivial, State.after_step trivial rfl⟩)
      ⟨.check 1, fun u _ hu => absurd hu (hquiet u), State.after_step trivial rfl⟩
    · rintro u - (hu | ⟨n, hu⟩) <;> cases hu
    · exact .inr (.inr (.inr (by decide)))
    · decide
    · decide
    · decide
  exact ⟨h, unique_of_reachable _ _ h⟩

/-- Both calls, each between the sections of the other. -/
def bothAtOnce : State ℕ :=
  (((((nothing.after sameName (.check 0)).after sameName (.check 1)).after sameName
    (.allocate 0 ⟨some 1, true, true, some 2⟩)).after sameName
    (.allocate 1 ⟨some 3, true, true, some 4⟩)).after sameName (.insert 0)).after sameName
    (.insert 1)

/-- Two calls search before either inserts, and both succeed. -/
theorem both_calls_succeed :
    ∃ (calls : ℕ → List UInt8 × ℕ) (s : State ℕ),
      Reachable Start (fun s s' => ∃ e, Step calls e s s') s ∧ ¬ Unique calls s := by
  refine ⟨sameName, bothAtOnce, ?_, fun h => ?_⟩
  · refine .next (.next (.next (.next (.next (.next (.start (s := nothing) ⟨rfl, rfl⟩)
      ⟨.check 0, State.after_step trivial rfl⟩) ⟨.check 1, State.after_step trivial rfl⟩)
      ⟨.allocate 0 _, State.after_step (freshBlocks ?_ ?_ ?_) rfl⟩)
      ⟨.allocate 1 _, State.after_step (freshBlocks ?_ ?_ ?_) rfl⟩)
      ⟨.insert 0, State.after_step trivial rfl⟩) ⟨.insert 1, State.after_step trivial rfl⟩
    all_goals decide
  · exact absurd (h.once 0 1 rfl rfl rfl) (by decide)

end Concurrent

end XTOS.Devfs

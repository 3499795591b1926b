import XTOS.Lib.Acyclic
import XTOS.Paging
import XTOS.Strings

/-!
# Kernel modules

`xtLoadKernelModule` and `xtLoadKernelSubmodules` of `xtkernel/linker.c`: drivers are loaded
with everything they import, relocated, and their entry points called.

## Main definitions

- `World` — the files, and what the kernel finds when it loads one
- `Cache` — the list `modules`, and the relocations and entry calls so far
- `xtLoadKernelModule` — a load with its imports
- `Drivers` — a finite set of drivers that import each other
- `Correct` — a sequence of loads ends, each driver relocated and attached once

## Main results

- `correct_iff` — that is so exactly if no import cycle is reached and the blocks of the
  records have the done-flags clear

## Design notes

Each name is at most once in the list `modules`, so the list stands as a map by the 4096 bytes
that `xtStringCmp` compares. The recursion has fuel. Import tables are not filled, and which
heap blocks a dropped reference frees is left out.
-/

namespace XTOS.Linker.Kernel

open SysLib Relation Paging

/-! ### The loader of kernel modules -/

/-- What a load reads of a module: the names in its import descriptors, `AddressOfEntryPoint`,
    whether it is a DLL, and what its entry point answers to `XT_LIBRARY_DETACH`. -/
structure ModuleFile where
  imports : List (List UInt8)
  entryPoint : ℕ
  isDll : Bool
  detach : XTResult

/-- `XTModule`, with the count of its shared pointer. -/
structure XTModule where
  file : ModuleFile
  physicalImage : ℕ
  flags : BitVec 64
  count : ℕ

/-- The relocation of an image, and the calls of an entry point. -/
inductive Event where
  | relocate (filename : List UInt8)
  | attach (filename : List UInt8)
  | detach (filename : List UInt8)
  deriving DecidableEq

/-- The files that can be opened, the kernel itself, the pages that the image of a file gets,
    and the `flags` that the heap block of its record holds. -/
structure World where
  files : List UInt8 → Option ModuleFile
  kernel : ModuleFile
  image : List UInt8 → ℕ
  block : List UInt8 → BitVec 64

/-- The list `modules` by name, and what was done with the images. -/
structure Cache where
  modules : List UInt8 → Option XTModule
  log : List Event

/-- What `xtStringCmp` compares of a name. -/
def nameKey (filename : List UInt8) : List UInt8 := filename.take 4096

def Cache.find (s : Cache) (filename : List UInt8) : Option XTModule := s.modules (nameKey filename)

def Cache.set (s : Cache) (filename : List UInt8) (mod : Option XTModule) : Cache :=
  { s with modules := Function.update s.modules (nameKey filename) mod }

def Cache.add (s : Cache) (e : Event) : Cache := { s with log := s.log ++ [e] }

/-- `xtGetOrLoadPhysicalModule`. -/
def xtGetOrLoadPhysicalModule (W : World) (s : Cache) (filename : List UInt8) :
    Cache × Except XTResult XTModule :=
  match s.find filename with
  | some mod =>
    let mod := { mod with count := mod.count + 1 }
    (s.set filename (some mod), .ok mod)
  | none =>
    match W.files filename with
    | none => (s, .error .notFound)
    | some file =>
      let newMod := ⟨file, W.image filename, W.block filename, 1⟩
      (s.set filename (some newMod), .ok newMod)

/-- `xtDecrementReference` with `xtFreeModuleInternal`. -/
def xtDecrementReference (s : Cache) (filename : List UInt8) : Cache :=
  match s.find filename with
  | none => s
  | some mod =>
    let s := s.set filename (some { mod with count := mod.count - 1 })
    if mod.count - 1 = 0 then
      if mod.file.isDll then
        let s := s.add (.detach filename)
        if mod.file.detach.isError then s else s.set filename none
      else s.set filename none
    else s

/-- The bytes of an ASCII string. -/
def ascii (s : String) : List UInt8 := s.toList.map fun c => UInt8.ofNat c.toNat

/-- `suffixes`. -/
def suffixes : List (List UInt8) := ["/initrd/", "/XT/drivers/", "/XT/", "./", ""].map ascii

/-- The paths under which an import is looked for. -/
def tempPaths (dllName : List UInt8) : List (List UInt8) :=
  suffixes.map fun suffix => suffix ++ dllName.take (4096 - suffix.length)

/-- The loop of `xtLoadKernelSubmodules` over the suffixes. -/
def suffixLoop (load : Cache → List UInt8 → Option (Cache × Except XTResult ℕ)) (s : Cache) :
    List (List UInt8) → Option (Cache × Except XTResult ℕ)
  | [] => some (s, .error .notFound)
  | tempPath :: paths =>
    match load s tempPath with
    | none => none
    | some (s, .ok base) => some (s, .ok base)
    | some (s, .error _) => suffixLoop load s paths

/-- `xtLoadKernelSubmodules`; `load` is `xtLoadKernelModule`. -/
def xtLoadKernelSubmodules (load : Cache → List UInt8 → Option (Cache × Except XTResult ℕ))
    (s : Cache) : List (List UInt8) → Option (Cache × XTResult)
  | [] => some (s, .success)
  | dllName :: imports =>
    match suffixLoop load s (tempPaths dllName) with
    | none => none
    | some (s, .error _) => some (s, .notFound)
    | some (s, .ok subModuleBase) =>
      if subModuleBase = 0 then some (s, .notFound)
      else xtLoadKernelSubmodules load s imports

/-- The relocation of the image, if the flag for it is clear. -/
def relocateStep (filename : List UInt8) (s : Cache) (mod : XTModule) : Cache × XTModule :=
  if mod.flags &&& 0x4 = 0 then
    (s.add (.relocate filename), { mod with flags := mod.flags ||| 0x4 })
  else (s, mod)

/-- The call of the entry point, if the flag for it is clear. -/
def attachStep (filename : List UInt8) (s : Cache) (mod : XTModule) : Cache × XTModule :=
  let main := (higherHalfMem mod.physicalImage + mod.file.entryPoint) % 2 ^ 64
  if mod.flags &&& 0x2 = 0 ∧ highHalf < main then
    (s.add (.attach filename), { mod with flags := mod.flags ||| 0x2 })
  else (s, mod)

/-- The end of `xtLoadKernelModule`. -/
def finishModule (s : Cache) (filename : List UInt8) (mod : XTModule) : Cache :=
  let (s, mod) := relocateStep filename s mod
  let (s, mod) := attachStep filename s mod
  s.set filename (some mod)

/-- `xtLoadKernelModule`. -/
def xtLoadKernelModule (W : World) :
    ℕ → Cache → List UInt8 → Option (Cache × Except XTResult ℕ)
  | 0, _, _ => none
  | fuel + 1, s, filename =>
    match xtGetOrLoadPhysicalModule W s filename with
    | (s, .error r) => some (s, .error r)
    | (s, .ok mod) =>
      match xtLoadKernelSubmodules (xtLoadKernelModule W fuel) s mod.file.imports with
      | none => none
      | some (s, subRes) =>
        if subRes.isError then some (xtDecrementReference s filename, .error subRes)
        else
          -- the record is read again: it may have changed in the meantime
          match s.find filename with
          | none => some (s, .ok (higherHalfMem mod.physicalImage))
          | some mod => some (finishModule s filename mod, .ok (higherHalfMem mod.physicalImage))

/-- A sequence of loads. -/
def loads (W : World) (fuel : ℕ) (s : Cache) : List (List UInt8) → Option Cache
  | [] => some s
  | filename :: rest =>
    match xtLoadKernelModule W fuel s filename with
    | none => none
    | some (s, _) => loads W fuel s rest

/-- `"xtkernel.xte"`. -/
def kernelName : List UInt8 := ascii "xtkernel.xte"

/-- `KERNEL_IMAGE_BASE`. -/
def kernelImageBase : ℕ := 0xffffffff80000000

/-- After `xtInsertKernelModule`. -/
def initialCache (W : World) : Cache where
  modules := Function.update (fun _ => none) kernelName
    (some ⟨W.kernel, kernelImageBase, 0x4 ||| 0x2, 1⟩)
  log := []

/-! ### Drivers that import each other -/

/-- The module behind a name. -/
def World.module (W : World) (filename : List UInt8) : Option ModuleFile :=
  if filename = kernelName then some W.kernel else W.files filename

/-- The module that an import leads to: the first path with a module. -/
def World.resolve (W : World) (dllName : List UInt8) : Option (List UInt8) :=
  (tempPaths dllName).find? fun p => (W.module p).isSome

/-- A module imports another. -/
def Imports (W : World) (p q : List UInt8) : Prop :=
  ∃ file, W.module p = some file ∧ ∃ dllName ∈ file.imports, W.resolve dllName = some q

/-- A finite set of drivers whose imports, and those of the kernel, lead to drivers of the set or
    to the kernel. Their images are in the lower half of memory. -/
structure Drivers (W : World) where
  names : Finset (List UInt8)
  short : ∀ p ∈ names, p.length ≤ 4096
  file : ∀ p ∈ names, (W.files p).isSome
  not_kernel : kernelName ∉ names
  entry : ∀ p ∈ names, 0 < W.image p ∧
    ∀ file, W.files p = some file → W.image p + file.entryPoint < 2 ^ 47
  closed : ∀ p, p ∈ names ∨ p = kernelName → ∀ file, W.module p = some file →
    ∀ dllName ∈ file.imports, ∃ q, W.resolve dllName = some q ∧ (q ∈ names ∨ q = kernelName)

/-- The loads end, and each driver that was loaded was relocated once and attached once. -/
def Correct {W : World} (D : Drivers W) (sequence : List (List UInt8)) : Prop :=
  ∃ fuel s, loads W fuel (initialCache W) sequence = some s ∧
    (∀ p ∈ sequence, s.modules p ≠ none) ∧
    ∀ p ∈ D.names, s.modules p ≠ none →
      s.log.count (.relocate p) = 1 ∧ s.log.count (.attach p) = 1

/-- No module that is reached imports itself through others, and the blocks of the records of
    the drivers have the flags 0x2 and 0x4 clear. -/
def Clean {W : World} (D : Drivers W) (sequence : List (List UInt8)) : Prop :=
  ∀ p ∈ sequence, ∀ q, ReflTransGen (Imports W) p q →
    ¬ TransGen (Imports W) q q ∧
      (q ∈ D.names → W.block q &&& 0x4 = 0 ∧ W.block q &&& 0x2 = 0)

variable {W : World} (D : Drivers W)

/-- A driver of the set, or the kernel. -/
def Drivers.Known (p : List UInt8) : Prop := p ∈ D.names ∨ p = kernelName

theorem length_suffix {suffix : List UInt8} (h : suffix ∈ suffixes) : suffix.length ≤ 4096 := by
  revert suffix
  decide +kernel

/-- A path that an import is looked for under is compared as a whole. -/
theorem nameKey_tempPath {dllName p : List UInt8} (h : p ∈ tempPaths dllName) : nameKey p = p := by
  obtain ⟨suffix, hsuffix, rfl⟩ := List.mem_map.mp h
  have hlen := length_suffix hsuffix
  refine List.take_of_length_le ?_
  rw [List.length_append, List.length_take]
  omega

theorem nameKey_kernel : nameKey kernelName = kernelName := by decide +kernel

theorem Drivers.nameKey_known {p : List UInt8} (hp : D.Known p) : nameKey p = p := by
  obtain hp | rfl := hp
  · exact List.take_of_length_le (D.short p hp)
  · exact nameKey_kernel

theorem Drivers.module_known {p : List UInt8} (hp : D.Known p) : (W.module p).isSome := by
  rw [World.module]
  split_ifs with h
  · rfl
  · exact D.file p (hp.resolve_right h)

theorem Drivers.module_driver {p : List UInt8} (hp : p ∈ D.names) : W.module p = W.files p := by
  rw [World.module, if_neg]
  rintro rfl
  exact D.not_kernel hp

/-- The imports of a known module are known. -/
theorem Drivers.imports_known {p q : List UInt8} (hp : D.Known p) (h : Imports W p q) :
    D.Known q := by
  obtain ⟨file, hfile, dllName, hdll, hq⟩ := h
  obtain ⟨q', hq', hknown⟩ := D.closed p hp file hfile dllName hdll
  obtain rfl := Option.some.inj (hq.symm.trans hq')
  exact hknown

theorem Drivers.reach_known {p q : List UInt8} (hp : D.Known p)
    (h : ReflTransGen (Imports W) p q) : D.Known q := by
  induction h with
  | refl => exact hp
  | tail _ hstep ih => exact D.imports_known ih hstep

/-- Only finitely many modules are reached. -/
theorem Drivers.finite_reach {p : List UInt8} (hp : D.Known p) :
    {q | ReflTransGen (Imports W) p q}.Finite := by
  refine (insert kernelName D.names).finite_toSet.subset fun q hq => ?_
  obtain h | h := D.reach_known hp hq
  · exact Finset.mem_coe.mpr (Finset.mem_insert_of_mem h)
  · exact Finset.mem_coe.mpr (Finset.mem_insert.mpr (.inl h))

/-! ### What the cache holds -/

/-- The record of a driver that is being loaded. -/
def Started (W : World) (s : Cache) (p : List UInt8) (mod : XTModule) : Prop :=
  mod.flags = W.block p ∧ s.log.count (.relocate p) = 0 ∧ s.log.count (.attach p) = 0

/-- The record of a driver that was loaded. -/
def Done (W : World) (s : Cache) (p : List UInt8) (mod : XTModule) : Prop :=
  mod.flags &&& 0x4 ≠ 0 ∧ mod.flags &&& 0x2 ≠ 0 ∧
    s.log.count (.relocate p) = (if W.block p &&& 0x4 = 0 then 1 else 0) ∧
    s.log.count (.attach p) = (if W.block p &&& 0x2 = 0 then 1 else 0)

/-- The record of a known module. -/
structure Entry (D : Drivers W) (s : Cache) (p : List UInt8) (mod : XTModule) : Prop where
  known : D.Known p
  file : W.module p = some mod.file
  kernel : p = kernelName → mod.flags &&& 0x4 ≠ 0 ∧ mod.flags &&& 0x2 ≠ 0
  driver : p ∈ D.names → mod.physicalImage = W.image p ∧ (Started W s p mod ∨ Done W s p mod)

/-- The cache holds records of known modules, among them the kernel, and the log only what was
    done with these. -/
structure Inv (D : Drivers W) (s : Cache) : Prop where
  entry : ∀ p mod, s.modules p = some mod → Entry D s p mod
  kernel : s.modules kernelName ≠ none
  absent : ∀ p ∈ D.names, s.modules p = none →
    s.log.count (.relocate p) = 0 ∧ s.log.count (.attach p) = 0

/-- The module is loaded completely. -/
def Finished (D : Drivers W) (s : Cache) (p : List UInt8) : Prop :=
  ∃ mod, s.modules p = some mod ∧ (p ∈ D.names → Done W s p mod)

/-- What a load keeps, and which modules it adds. -/
structure Grows (D : Drivers W) (s s' : Cache) (new : List UInt8 → Prop) : Prop where
  cached : ∀ q, s.modules q ≠ none → s'.modules q ≠ none
  finished : ∀ q, Finished D s q → Finished D s' q
  added : ∀ q, s'.modules q ≠ none → s.modules q ≠ none ∨ (new q ∧ Finished D s' q)

variable {D} {s s' s'' : Cache} {p q : List UInt8}

theorem Grows.refl {new : List UInt8 → Prop} : Grows D s s new :=
  ⟨fun _ h => h, fun _ h => h, fun _ h => .inl h⟩

theorem Grows.trans {new : List UInt8 → Prop} (h : Grows D s s' new) (h' : Grows D s' s'' new) :
    Grows D s s'' new where
  cached q hq := h'.cached q (h.cached q hq)
  finished q hq := h'.finished q (h.finished q hq)
  added q hq := by
    obtain hq | hq := h'.added q hq
    · exact (h.added q hq).imp_right fun hnew => ⟨hnew.1, h'.finished q hnew.2⟩
    · exact .inr hq

theorem Grows.mono {new new' : List UInt8 → Prop} (h : Grows D s s' new)
    (himp : ∀ q, new q → new' q) : Grows D s s' new' where
  cached := h.cached
  finished := h.finished
  added q hq := (h.added q hq).imp_right fun hnew => ⟨himp q hnew.1, hnew.2⟩

theorem Cache.find_known (hp : D.Known p) : s.find p = s.modules p := by
  rw [Cache.find, D.nameKey_known hp]

theorem Cache.set_known (hp : D.Known p) (mod : Option XTModule) :
    s.set p mod = { s with modules := Function.update s.modules p mod } := by
  rw [Cache.set, D.nameKey_known hp]

/-! ### The steps of a load -/

/-- Only the record of one module changes, and what is logged is about it. -/
structure Touches (p : List UInt8) (s s' : Cache) : Prop where
  modules : ∀ q, q ≠ p → s'.modules q = s.modules q
  relocate : ∀ q, q ≠ p → s'.log.count (.relocate q) = s.log.count (.relocate q)
  attach : ∀ q, q ≠ p → s'.log.count (.attach q) = s.log.count (.attach q)

theorem Touches.entry {mod : XTModule} (h : Touches p s s') (hq : q ≠ p)
    (hentry : Entry D s q mod) : Entry D s' q mod where
  known := hentry.known
  file := hentry.file
  kernel := hentry.kernel
  driver hmem := by
    rw [Started, Done, h.relocate q hq, h.attach q hq]
    exact hentry.driver hmem

/-- The invariant after a step, from the record that it leaves. -/
theorem Touches.inv {mod : XTModule} (h : Touches p s s') (hinv : Inv D s)
    (hp : s'.modules p = some mod) (hentry : Entry D s' p mod) : Inv D s' where
  entry q mod' hq := by
    by_cases hqp : q = p
    · subst hqp
      obtain rfl := Option.some.inj (hp.symm.trans hq)
      exact hentry
    · rw [h.modules q hqp] at hq
      exact h.entry hqp (hinv.entry q mod' hq)
  kernel := by
    by_cases hkp : kernelName = p
    · rw [hkp, hp]
      exact Option.some_ne_none _
    · rw [h.modules _ hkp]
      exact hinv.kernel
  absent q hq hnone := by
    have hqp : q ≠ p := by
      rintro rfl
      rw [hp] at hnone
      cases hnone
    rw [h.relocate q hqp, h.attach q hqp]
    exact hinv.absent q hq (by rwa [← h.modules q hqp])

theorem Touches.finished (h : Touches p s s') (hq : q ≠ p) (hfin : Finished D s q) :
    Finished D s' q := by
  obtain ⟨mod, hmod, hdone⟩ := hfin
  refine ⟨mod, by rwa [h.modules q hq], fun hmem => ?_⟩
  rw [Done, h.relocate q hq, h.attach q hq]
  exact hdone hmem

theorem touches_set (hp : D.Known p) (mod : Option XTModule) : Touches p s (s.set p mod) := by
  rw [Cache.set_known hp]
  exact ⟨fun q hq => Function.update_of_ne hq _ _, fun _ _ => rfl, fun _ _ => rfl⟩

theorem set_modules (hp : D.Known p) (mod : Option XTModule) : (s.set p mod).modules p = mod := by
  rw [Cache.set_known hp]
  exact Function.update_self _ _ _

/-- The module is found, or its file is read. -/
theorem getOrLoad_known (hinv : Inv D s) (hp : D.Known p) :
    ∃ s' mod, xtGetOrLoadPhysicalModule W s p = (s', .ok mod) ∧ W.module p = some mod.file ∧
      Inv D s' ∧ s'.modules p ≠ none ∧ Touches p s s' := by
  rw [xtGetOrLoadPhysicalModule, Cache.find_known hp]
  cases hmod : s.modules p with
  | some mod =>
    have hentry := hinv.entry p mod hmod
    have htouch := touches_set (s := s) hp (some { mod with count := mod.count + 1 })
    have hself := set_modules (s := s) hp (some { mod with count := mod.count + 1 })
    refine ⟨_, _, rfl, hentry.file, htouch.inv hinv hself ?_, ?_, htouch⟩
    · exact ⟨hentry.known, hentry.file, hentry.kernel, hentry.driver⟩
    · rw [hself]
      exact Option.some_ne_none _
  | none =>
    -- the kernel is in the cache from the start
    have hdriver : p ∈ D.names := by
      obtain hp | rfl := hp
      · exact hp
      · exact absurd hmod hinv.kernel
    obtain ⟨file, hfile⟩ := Option.isSome_iff_exists.mp (D.file p hdriver)
    have hne : p ≠ kernelName := by
      rintro rfl
      exact D.not_kernel hdriver
    dsimp only
    rw [hfile]
    have htouch := touches_set (s := s) hp (some ⟨file, W.image p, W.block p, 1⟩)
    have hself := set_modules (s := s) hp (some ⟨file, W.image p, W.block p, 1⟩)
    have hmodule : W.module p = some file := (D.module_driver hdriver).trans hfile
    refine ⟨_, _, rfl, hmodule, htouch.inv hinv hself ⟨hp, hmodule, fun h => absurd h hne,
      fun _ => ⟨rfl, .inl ⟨rfl, hinv.absent p hdriver hmod⟩⟩⟩, ?_, htouch⟩
    rw [hself]
    exact Option.some_ne_none _

/-- A path without a module is not found. -/
theorem getOrLoad_unknown (hinv : Inv D s) (hkey : nameKey p = p) (hp : W.module p = none) :
    xtGetOrLoadPhysicalModule W s p = (s, .error .notFound) := by
  have hfind : s.find p = none := by
    rw [Cache.find, hkey]
    by_contra hne
    obtain ⟨mod, hmod⟩ := Option.ne_none_iff_exists'.mp hne
    have hfile := (hinv.entry p mod hmod).file
    rw [hp] at hfile
    cases hfile
  have hfiles : W.files p = none := by
    rw [World.module] at hp
    split_ifs at hp
    exact hp
  rw [xtGetOrLoadPhysicalModule, hfind]
  dsimp only
  rw [hfiles]

/-- The entry point of a driver is in the upper half. -/
theorem Drivers.main_high (D : Drivers W) (hp : p ∈ D.names) {file : ModuleFile}
    (hfile : W.files p = some file) :
    highHalf < (higherHalfMem (W.image p) + file.entryPoint) % 2 ^ 64 := by
  obtain ⟨hpos, hlt⟩ := D.entry p hp
  have hlt := hlt file hfile
  have hhigh : higherHalfMem (W.image p) = highHalf + W.image p := by
    rw [higherHalfMem, Nat.or_comm, or_eq_add (k := 47) (by decide) (by omega)]
  rw [hhigh, highHalf]
  omega

theorem flag_set (f : BitVec 64) : (f ||| 0x4) &&& 0x4 = 0x4 ∧ (f ||| 0x2) &&& 0x2 = 0x2 ∧
    (f ||| 0x4) &&& 0x2 = f &&& 0x2 ∧ (f ||| 0x2) &&& 0x4 = f &&& 0x4 := by
  refine ⟨?_, ?_, ?_, ?_⟩
  · rw [BitVec.and_or_distrib_right]
    ext i
    simp
  · rw [BitVec.and_or_distrib_right]
    ext i
    simp
  · rw [BitVec.and_or_distrib_right]
    simp
  · rw [BitVec.and_or_distrib_right]
    simp

theorem relocateStep_touches (mod : XTModule) : Touches p s (relocateStep p s mod).1 ∧
    (relocateStep p s mod).1.modules = s.modules ∧ (relocateStep p s mod).2.file = mod.file ∧
    (relocateStep p s mod).2.physicalImage = mod.physicalImage := by
  rw [relocateStep]
  split_ifs
  · refine ⟨⟨fun _ _ => rfl, fun q hq => ?_, fun q hq => ?_⟩, rfl, rfl, rfl⟩
    · simp [Cache.add, hq.symm]
    · simp [Cache.add]
  · exact ⟨⟨fun _ _ => rfl, fun _ _ => rfl, fun _ _ => rfl⟩, rfl, rfl, rfl⟩

theorem attachStep_touches (mod : XTModule) : Touches p s (attachStep p s mod).1 ∧
    (attachStep p s mod).1.modules = s.modules ∧ (attachStep p s mod).2.file = mod.file ∧
    (attachStep p s mod).2.physicalImage = mod.physicalImage := by
  rw [attachStep]
  split_ifs
  · refine ⟨⟨fun _ _ => rfl, fun q hq => ?_, fun q hq => ?_⟩, rfl, rfl, rfl⟩
    · simp [Cache.add]
    · simp [Cache.add, hq.symm]
  · exact ⟨⟨fun _ _ => rfl, fun _ _ => rfl, fun _ _ => rfl⟩, rfl, rfl, rfl⟩

theorem Touches.trans (h : Touches p s s') (h' : Touches p s' s'') : Touches p s s'' where
  modules q hq := (h'.modules q hq).trans (h.modules q hq)
  relocate q hq := (h'.relocate q hq).trans (h.relocate q hq)
  attach q hq := (h'.attach q hq).trans (h.attach q hq)

/-- A driver whose image is relocated. -/
def Half (W : World) (s : Cache) (p : List UInt8) (mod : XTModule) : Prop :=
  mod.flags &&& 0x4 ≠ 0 ∧ s.log.count (.relocate p) = (if W.block p &&& 0x4 = 0 then 1 else 0) ∧
    ((mod.flags &&& 0x2 = W.block p &&& 0x2 ∧ s.log.count (.attach p) = 0) ∨
      (mod.flags &&& 0x2 ≠ 0 ∧
        s.log.count (.attach p) = (if W.block p &&& 0x2 = 0 then 1 else 0)))

theorem relocateStep_half {mod : XTModule} (h : Started W s p mod ∨ Done W s p mod) :
    Half W (relocateStep p s mod).1 p (relocateStep p s mod).2 := by
  obtain ⟨hset, -, hother, -⟩ := flag_set mod.flags
  rw [relocateStep]
  obtain ⟨hflags, hrelocate, hattach⟩ | ⟨h4, h2, hrelocate, hattach⟩ := h
  · split_ifs with hclear
    · refine ⟨ne_of_eq_of_ne hset (by decide), ?_,
        .inl ⟨by rw [hother, hflags], by simp [Cache.add, hattach]⟩⟩
      rw [← hflags, if_pos hclear]
      simp [Cache.add, hrelocate]
    · refine ⟨hclear, ?_, .inl ⟨by rw [hflags], hattach⟩⟩
      rw [← hflags, if_neg hclear, hrelocate]
  · rw [if_neg h4]
    exact ⟨h4, hrelocate, .inr ⟨h2, hattach⟩⟩

theorem attachStep_done {mod : XTModule} (h : Half W s p mod)
    (hmain : highHalf < (higherHalfMem mod.physicalImage + mod.file.entryPoint) % 2 ^ 64) :
    Done W (attachStep p s mod).1 p (attachStep p s mod).2 := by
  obtain ⟨-, hset, -, hother⟩ := flag_set mod.flags
  obtain ⟨h4, hrelocate, ⟨hflags, hattach⟩ | ⟨h2, hattach⟩⟩ := h
  · rw [attachStep]
    simp only [hmain, and_true]
    split_ifs with hclear
    · refine ⟨by rwa [hother], ne_of_eq_of_ne hset (by decide), by simp [Cache.add, hrelocate], ?_⟩
      rw [← hflags, if_pos hclear]
      simp [Cache.add, hattach]
    · refine ⟨h4, hclear, hrelocate, ?_⟩
      rw [← hflags, if_neg hclear, hattach]
  · rw [attachStep]
    simp only [h2, false_and, if_false]
    exact ⟨h4, h2, hrelocate, hattach⟩

/-- The end of a load leaves a module that is loaded completely. -/
theorem finishModule_known {mod : XTModule} (hinv : Inv D s) (hp : D.Known p)
    (hmod : s.modules p = some mod) :
    Inv D (finishModule s p mod) ∧ Finished D (finishModule s p mod) p ∧
      Touches p s (finishModule s p mod) := by
  have hentry := hinv.entry p mod hmod
  obtain ⟨htouch, hmodules, hfile, himage⟩ := relocateStep_touches (p := p) (s := s) mod
  generalize hhalf : relocateStep p s mod = x at *
  obtain ⟨s₁, mod₁⟩ := x
  obtain ⟨htouch', hmodules', hfile', himage'⟩ := attachStep_touches (p := p) (s := s₁) mod₁
  generalize hdone : attachStep p s₁ mod₁ = y at *
  obtain ⟨s₂, mod₂⟩ := y
  dsimp only at *
  have hfinish : finishModule s p mod = s₂.set p (some mod₂) := by
    rw [finishModule, hhalf]
    dsimp only
    rw [hdone]
  have htouches : Touches p s (finishModule s p mod) := by
    rw [hfinish]
    exact (htouch.trans htouch').trans (touches_set hp _)
  have hself : (finishModule s p mod).modules p = some mod₂ := by
    rw [hfinish, set_modules hp]
  have hlog : (finishModule s p mod).log = s₂.log := by
    rw [hfinish, Cache.set_known hp]
  -- relocation first, then the entry point: each step is done or its flag was set
  have hfinal : p ∈ D.names → Done W (finishModule s p mod) p mod₂ := by
    intro hdriver
    obtain ⟨hphys, hstate⟩ := hentry.driver hdriver
    have hW : W.files p = some mod₁.file := by rw [hfile, ← hentry.file, D.module_driver hdriver]
    have hmain := D.main_high hdriver hW
    have hhalf' := relocateStep_half hstate
    rw [hhalf] at hhalf'
    have hdone' := attachStep_done hhalf' (by rwa [himage, hphys])
    rw [hdone] at hdone'
    rw [Done, hlog]
    exact hdone'
  refine ⟨htouches.inv hinv hself ⟨hp, ?_, ?_, fun h => ⟨?_, .inr (hfinal h)⟩⟩,
    ⟨mod₂, hself, hfinal⟩, htouches⟩
  · rw [hfile', hfile]
    exact hentry.file
  · intro hkernel
    obtain ⟨h4, h2⟩ := hentry.kernel hkernel
    -- both flags of the kernel are set, so neither step runs
    have h1 : mod₁ = mod := by
      rw [relocateStep, if_neg h4] at hhalf
      exact (Prod.mk.inj hhalf).2.symm
    rw [h1, attachStep, if_neg fun h => h2 h.1] at hdone
    obtain rfl := (Prod.mk.inj hdone).2
    exact ⟨h4, h2⟩
  · rw [himage', himage]
    exact (hentry.driver h).1

/-! ### Loads -/

/-- What a load of a known module does. -/
structure LoadOk (D : Drivers W) (s : Cache) (p : List UInt8) (s' : Cache)
    (r : Except XTResult ℕ) : Prop where
  ok : ∃ base, base ≠ 0 ∧ r = .ok base
  inv : Inv D s'
  grows : Grows D s s' (ReflTransGen (Imports W) p)
  covers : ∀ q, ReflTransGen (Imports W) p q → Finished D s' q
  ends : Acc (fun q p => Imports W p q) p

/-- An import is loaded under the first path with a module. -/
theorem suffixLoop_found {fuel : ℕ} (hinv : Inv D s) {dllName : List UInt8}
    (hq : W.resolve dllName = some q)
    (hok : ∀ s' r, xtLoadKernelModule W fuel s q = some (s', r) → ∃ base, r = .ok base) :
    suffixLoop (xtLoadKernelModule W fuel) s (tempPaths dllName) =
      xtLoadKernelModule W fuel s q := by
  have hkeys : ∀ p ∈ tempPaths dllName, nameKey p = p := fun p => nameKey_tempPath
  rw [World.resolve] at hq
  -- induction on the paths that are tried, with the cache as it is
  generalize tempPaths dllName = paths at hq hkeys
  induction paths with
  | nil => cases hq
  | cons p paths ih =>
    rw [suffixLoop]
    cases hp : W.module p with
    | some file =>
      rw [List.find?_cons_of_pos (by rw [hp]; rfl)] at hq
      obtain rfl := Option.some.inj hq
      cases hload : xtLoadKernelModule W fuel s p with
      | none => rfl
      | some x =>
        obtain ⟨s', r⟩ := x
        obtain ⟨base, rfl⟩ := hok s' r hload
        rfl
    | none =>
      rw [List.find?_cons_of_neg (by rw [hp]; decide)] at hq
      cases fuel with
      | zero => rfl
      | succ fuel =>
        have hmiss : xtLoadKernelModule W (fuel + 1) s p = some (s, .error .notFound) := by
          rw [xtLoadKernelModule, getOrLoad_unknown hinv (hkeys p List.mem_cons_self) hp]
        rw [hmiss]
        exact ih hq fun p' hp' => hkeys p' (List.mem_cons_of_mem _ hp')

/-- The imports of a module are loaded one after the other. -/
theorem submodules_known {fuel : ℕ} {imports : List (List UInt8)} {r : XTResult}
    (hload : ∀ s q s' r, Inv D s → D.Known q → xtLoadKernelModule W fuel s q = some (s', r) →
      LoadOk D s q s' r)
    (himports : ∀ dllName ∈ imports, ∃ q, W.resolve dllName = some q ∧ D.Known q)
    (hinv : Inv D s)
    (h : xtLoadKernelSubmodules (xtLoadKernelModule W fuel) s imports = some (s', r)) :
    r = .success ∧ Inv D s' ∧
      Grows D s s' (fun q => ∃ dllName ∈ imports, ∃ t, W.resolve dllName = some t ∧
        ReflTransGen (Imports W) t q) ∧
      ∀ dllName ∈ imports, ∀ t, W.resolve dllName = some t →
        (∀ q, ReflTransGen (Imports W) t q → Finished D s' q) ∧
          Acc (fun q p => Imports W p q) t := by
  induction imports generalizing s with
  | nil =>
    obtain ⟨rfl, rfl⟩ := Prod.mk.inj (Option.some.inj h)
    exact ⟨rfl, hinv, .refl, fun _ h => absurd h List.not_mem_nil⟩
  | cons dllName imports ih =>
    obtain ⟨q, hq, hknown⟩ := himports dllName List.mem_cons_self
    have hfound := suffixLoop_found hinv hq fun s' r hr =>
      (hload s q s' r hinv hknown hr).ok.imp fun _ => And.right
    rw [xtLoadKernelSubmodules, hfound] at h
    cases hfirst : xtLoadKernelModule W fuel s q with
    | none =>
      rw [hfirst] at h
      cases h
    | some x =>
      obtain ⟨s₁, r₁⟩ := x
      have hok := hload s q s₁ r₁ hinv hknown hfirst
      obtain ⟨base, hbase, rfl⟩ := hok.ok
      rw [hfirst] at h
      dsimp only at h
      rw [if_neg hbase] at h
      -- the other imports are loaded in the cache that the first one left
      obtain ⟨hr, hinv', hgrows, hrest⟩ :=
        ih (fun d hd => himports d (List.mem_cons_of_mem _ hd)) hok.inv h
      refine ⟨hr, hinv', ?_, ?_⟩
      · refine (hok.grows.mono fun t ht => ?_).trans (hgrows.mono ?_)
        · exact ⟨dllName, List.mem_cons_self, q, hq, ht⟩
        · rintro t ⟨d, hd, ht⟩
          exact ⟨d, List.mem_cons_of_mem _ hd, ht⟩
      · intro d hd t ht
        obtain rfl | hd := List.mem_cons.mp hd
        · obtain rfl := Option.some.inj (hq.symm.trans ht)
          exact ⟨fun q' hq' => hgrows.finished q' (hok.covers q' hq'), hok.ends⟩
        · exact hrest d hd t ht

/-- **A load that ends** has loaded the module and all that it reaches. -/
theorem load_known {fuel : ℕ} {r : Except XTResult ℕ} (hinv : Inv D s) (hp : D.Known p)
    (h : xtLoadKernelModule W fuel s p = some (s', r)) : LoadOk D s p s' r := by
  induction fuel generalizing s s' p r with
  | zero => cases h
  | succ fuel ih =>
    obtain ⟨s₁, mod, hget, hfile, hinv₁, hcached, htouch⟩ := getOrLoad_known hinv hp
    rw [xtLoadKernelModule, hget] at h
    dsimp only at h
    cases hsub : xtLoadKernelSubmodules (xtLoadKernelModule W fuel) s₁ mod.file.imports with
    | none =>
      rw [hsub] at h
      cases h
    | some x =>
      obtain ⟨s₂, subRes⟩ := x
      obtain ⟨rfl, hinv₂, hgrows, himports⟩ := submodules_known
        (fun s q s' r hinv hq hr => ih hinv hq hr) (D.closed p hp _ hfile) hinv₁ hsub
      obtain ⟨mod', hmod'⟩ := Option.ne_none_iff_exists'.mp (hgrows.cached p hcached)
      rw [hsub] at h
      dsimp only at h
      rw [if_neg (show ¬ XTResult.success.isError = true by decide), Cache.find_known hp,
        hmod'] at h
      obtain ⟨rfl, rfl⟩ := Prod.mk.inj (Option.some.inj h)
      obtain ⟨hinv₃, hfinished, htouch'⟩ := finishModule_known hinv₂ hp hmod'
      have hstep : ∀ {t}, Imports W p t → ∃ dllName ∈ mod.file.imports, W.resolve dllName = some t := by
        rintro t ⟨file, hfile', hrest⟩
        obtain rfl := Option.some.inj (hfile.symm.trans hfile')
        exact hrest
      -- the module itself is finished last, the others are as its imports left them
      have hkeep : ∀ q, q = p ∨ Finished D s₂ q → Finished D (finishModule s₂ p mod') q := by
        intro q hq
        by_cases hqp : q = p
        · rw [hqp]
          exact hfinished
        · exact htouch'.finished hqp (hq.resolve_left hqp)
      refine ⟨⟨_, higherHalfMem_ne_zero _, rfl⟩, hinv₃, ⟨fun q hq => ?_, fun q hq => ?_,
        fun q hq => ?_⟩, fun q hq => ?_, ⟨_, fun q hq => ?_⟩⟩
      · by_cases hqp : q = p
        · obtain ⟨mod'', hmod'', -⟩ := hfinished
          rw [hqp, hmod'']
          exact Option.some_ne_none _
        · rw [htouch'.modules q hqp]
          exact hgrows.cached q (by rwa [htouch.modules q hqp])
      · by_cases hqp : q = p
        · exact hkeep q (.inl hqp)
        · exact hkeep q (.inr (hgrows.finished q (htouch.finished hqp hq)))
      · by_cases hqp : q = p
        · rw [hqp]
          exact .inr ⟨.refl, hfinished⟩
        · rw [htouch'.modules q hqp] at hq
          obtain hq | ⟨⟨d, hd, t, ht, hreach⟩, hq⟩ := hgrows.added q hq
          · exact .inl (by rwa [← htouch.modules q hqp])
          · exact .inr ⟨.head ⟨_, hfile, d, hd, ht⟩ hreach, hkeep q (.inr hq)⟩
      · obtain rfl | ⟨t, ht, hreach⟩ := hq.cases_head
        · exact hfinished
        · obtain ⟨d, hd, hresolve⟩ := hstep ht
          exact hkeep q (.inr ((himports d hd t hresolve).1 q hreach))
      · obtain ⟨d, hd, hresolve⟩ := hstep hq
        exact (himports d hd q hresolve).2

/-- The imports of a module are loaded if each of them is. -/
theorem submodules_return {fuel : ℕ} {imports : List (List UInt8)}
    (himports : ∀ dllName ∈ imports, ∃ q, W.resolve dllName = some q ∧ D.Known q ∧
      ∀ s, Inv D s → (xtLoadKernelModule W fuel s q).isSome) (hinv : Inv D s) :
    (xtLoadKernelSubmodules (xtLoadKernelModule W fuel) s imports).isSome := by
  induction imports generalizing s with
  | nil => rfl
  | cons dllName imports ih =>
    obtain ⟨q, hq, hknown, hreturns⟩ := himports dllName List.mem_cons_self
    have hfound : suffixLoop (xtLoadKernelModule W fuel) s (tempPaths dllName) = _ :=
      suffixLoop_found hinv hq fun s' r hr => (load_known hinv hknown hr).ok.imp fun _ => And.right
    obtain ⟨⟨s', r⟩, hload⟩ := Option.isSome_iff_exists.mp (hreturns s hinv)
    have hok := load_known hinv hknown hload
    obtain ⟨base, hbase, rfl⟩ := hok.ok
    rw [xtLoadKernelSubmodules, hfound, hload]
    dsimp only
    rw [if_neg hbase]
    exact ih (fun d hd => himports d (List.mem_cons_of_mem _ hd)) hok.inv

/-- **A load ends**, with enough fuel, if all walks along imports do. -/
theorem load_returns (hp : D.Known p) (hends : Acc (fun q p => Imports W p q) p) :
    ∀ᶠ fuel in Filter.atTop, ∀ s, Inv D s → (xtLoadKernelModule W fuel s p).isSome := by
  induction hends with
  | intro p _ ih =>
    obtain ⟨file, hfile⟩ := Option.isSome_iff_exists.mp (D.module_known hp)
    have himports : ∀ᶠ fuel in Filter.atTop, ∀ dllName ∈ {d | d ∈ file.imports},
        ∃ q, W.resolve dllName = some q ∧ D.Known q ∧
          ∀ s, Inv D s → (xtLoadKernelModule W fuel s q).isSome := by
      refine (Filter.eventually_all_finite (List.finite_toSet _)).mpr fun d hd => ?_
      obtain ⟨q, hq, hknown⟩ := D.closed p hp file hfile d hd
      exact (ih q ⟨file, hfile, d, hd, hq⟩ hknown).mono fun fuel h => ⟨q, hq, hknown, h⟩
    obtain ⟨n, hn⟩ := Filter.eventually_atTop.mp himports
    refine Filter.eventually_atTop.mpr ⟨n + 1, fun fuel hfuel s hinv => ?_⟩
    obtain ⟨fuel, rfl⟩ := Nat.exists_eq_add_one.mpr (show 0 < fuel by omega)
    obtain ⟨s', mod, hget, hfile', hinv', -⟩ := getOrLoad_known hinv hp
    obtain rfl := Option.some.inj (hfile.symm.trans hfile')
    obtain ⟨⟨s'', subRes⟩, hsub⟩ :=
      Option.isSome_iff_exists.mp (submodules_return (hn fuel (by omega)) hinv')
    rw [xtLoadKernelModule, hget]
    dsimp only
    rw [hsub]
    dsimp only
    split_ifs
    · rfl
    · split <;> rfl

/-- Loads one after the other. -/
theorem loads_known {fuel : ℕ} {sequence : List (List UInt8)}
    (hknown : ∀ p ∈ sequence, D.Known p) (hinv : Inv D s)
    (h : loads W fuel s sequence = some s') :
    Grows D s s' (fun q => ∃ p ∈ sequence, ReflTransGen (Imports W) p q) ∧
      ∀ p ∈ sequence, (∀ q, ReflTransGen (Imports W) p q → Finished D s' q) ∧
        Acc (fun q p => Imports W p q) p := by
  induction sequence generalizing s with
  | nil =>
    obtain rfl := Option.some.inj h
    exact ⟨.refl, fun _ h => absurd h List.not_mem_nil⟩
  | cons p sequence ih =>
    rw [loads] at h
    cases hload : xtLoadKernelModule W fuel s p with
    | none =>
      rw [hload] at h
      cases h
    | some x =>
      obtain ⟨s₁, r⟩ := x
      rw [hload] at h
      have hok := load_known hinv (hknown p List.mem_cons_self) hload
      obtain ⟨hgrows, hrest⟩ := ih (fun q hq => hknown q (List.mem_cons_of_mem _ hq)) hok.inv h
      refine ⟨(hok.grows.mono fun q hq => ?_).trans (hgrows.mono ?_), fun q hq => ?_⟩
      · exact ⟨p, List.mem_cons_self, hq⟩
      · rintro q ⟨p', hp', hq⟩
        exact ⟨p', List.mem_cons_of_mem _ hp', hq⟩
      · obtain rfl | hq := List.mem_cons.mp hq
        · exact ⟨fun t ht => hgrows.finished t (hok.covers t ht), hok.ends⟩
        · exact hrest q hq

theorem loads_return {sequence : List (List UInt8)}
    (h : ∀ p ∈ sequence, D.Known p ∧ Acc (fun q p => Imports W p q) p) :
    ∀ᶠ fuel in Filter.atTop, ∀ s, Inv D s → (loads W fuel s sequence).isSome := by
  induction sequence with
  | nil => exact .of_forall fun _ _ _ => rfl
  | cons p sequence ih =>
    obtain ⟨hknown, hends⟩ := h p List.mem_cons_self
    have hrest := ih fun q hq => h q (List.mem_cons_of_mem _ hq)
    filter_upwards [load_returns hknown hends, hrest] with fuel hfirst hrest s hinv
    obtain ⟨⟨s', r⟩, hload⟩ := Option.isSome_iff_exists.mp (hfirst s hinv)
    rw [loads, hload]
    exact hrest s' (load_known hinv hknown hload).inv

/-- Only the kernel is in the cache at first. -/
theorem initialCache_modules (h : (initialCache W).modules p ≠ none) : p = kernelName := by
  by_contra hne
  refine h ?_
  rw [initialCache]
  dsimp only
  rw [Function.update_of_ne hne]

theorem initialCache_kernel : (initialCache W).modules kernelName =
    some ⟨W.kernel, kernelImageBase, 0x4 ||| 0x2, 1⟩ := by
  rw [initialCache]
  dsimp only
  rw [Function.update_self]

theorem initialCache_inv (D : Drivers W) : Inv D (initialCache W) where
  entry p mod h := by
    obtain rfl := initialCache_modules (p := p) (W := W) (by rw [h]; exact Option.some_ne_none _)
    obtain rfl := Option.some.inj (initialCache_kernel.symm.trans h)
    have hflags : (0x4 ||| 0x2 : BitVec 64) &&& 0x4 ≠ 0 ∧ (0x4 ||| 0x2 : BitVec 64) &&& 0x2 ≠ 0 := by
      decide
    exact ⟨.inr rfl, if_pos rfl, fun _ => hflags, fun hmem => absurd hmem D.not_kernel⟩
  kernel := by
    rw [initialCache_kernel]
    exact Option.some_ne_none _
  absent _ _ _ := ⟨rfl, rfl⟩

/-- **Kernel modules**: for every finite set of drivers, every graph of imports between them and
    every sequence of loads, the loads end and each driver that is loaded is relocated once and
    attached once, exactly if no import cycle is reached and the blocks of the records have the
    done-flags clear. -/
theorem correct_iff (D : Drivers W) {sequence : List (List UInt8)}
    (hsequence : ∀ p ∈ sequence, p ∈ D.names) : Correct D sequence ↔ Clean D sequence := by
  have hinv := initialCache_inv D
  have hknown : ∀ p ∈ sequence, D.Known p := fun p hp => .inl (hsequence p hp)
  constructor
  · rintro ⟨fuel, s, hloads, -, honce⟩ p hp q hq
    obtain ⟨-, hall⟩ := loads_known hknown hinv hloads
    obtain ⟨hcovers, hends⟩ := hall p hp
    -- a load that ends shows that its imports are well-founded
    refine ⟨(acc_iff_no_cycle (D.finite_reach (hknown p hp))).mp hends q hq, fun hmem => ?_⟩
    obtain ⟨mod, hmod, hdone⟩ := hcovers q hq
    obtain ⟨-, -, hrelocate, hattach⟩ := hdone hmem
    obtain ⟨hone, hone'⟩ := honce q hmem (by rw [hmod]; exact Option.some_ne_none _)
    rw [hone] at hrelocate
    rw [hone'] at hattach
    constructor
    · -- a flag that was set before would leave its step undone
      by_contra hne
      rw [if_neg hne] at hrelocate
      cases hrelocate
    · by_contra hne
      rw [if_neg hne] at hattach
      cases hattach
  · intro hclean
    have hends : ∀ p ∈ sequence, D.Known p ∧ Acc (fun q p => Imports W p q) p := fun p hp =>
      ⟨hknown p hp, (acc_iff_no_cycle (D.finite_reach (hknown p hp))).mpr fun q hq =>
        (hclean p hp q hq).1⟩
    -- without cycles the loads end, and what is in the cache is done
    obtain ⟨fuel, hfuel⟩ := (loads_return hends).exists
    obtain ⟨s, hloads⟩ := Option.isSome_iff_exists.mp (hfuel _ hinv)
    obtain ⟨hgrows, hall⟩ := loads_known hknown hinv hloads
    refine ⟨fuel, s, hloads, fun p hp => ?_, fun p hmem hp => ?_⟩
    · obtain ⟨mod, hmod, -⟩ := (hall p hp).1 p .refl
      rw [hmod]
      exact Option.some_ne_none _
    · obtain hfirst | ⟨⟨p', hp', hreach⟩, mod, -, hdone⟩ := hgrows.added p hp
      · exact absurd (initialCache_modules hfirst ▸ hmem) D.not_kernel
      · obtain ⟨-, -, hrelocate, hattach⟩ := hdone hmem
        obtain ⟨h4, h2⟩ := (hclean p' hp' p hreach).2 hmem
        rw [if_pos h4] at hrelocate
        rw [if_pos h2] at hattach
        exact ⟨hrelocate, hattach⟩

/-! ### Two drivers -/

/-- Driver `a` imports driver `b`, and in one of the two worlds `b` imports `a`. -/
def pairWorld (cyclic : Bool) : World where
  files p :=
    if p = ascii "/initrd/a.xtd" then some ⟨[ascii "b.xtd"], 0x1000, false, .success⟩
    else if p = ascii "/initrd/b.xtd" then
      some ⟨if cyclic then [ascii "a.xtd"] else [], 0x1000, false, .success⟩
    else none
  kernel := ⟨[], 0x1000, false, .success⟩
  image p := if p = ascii "/initrd/a.xtd" then 0x100000 else 0x200000
  block _ := 0

theorem pairWorld_resolve : ∀ cyclic : Bool,
    (pairWorld cyclic).resolve (ascii "a.xtd") = some (ascii "/initrd/a.xtd") ∧
      (pairWorld cyclic).resolve (ascii "b.xtd") = some (ascii "/initrd/b.xtd") := by
  decide +kernel

/-- The three modules of the worlds. -/
theorem pairWorld_module {cyclic : Bool} {p : List UInt8} {file : ModuleFile}
    (h : (pairWorld cyclic).module p = some file) : file.entryPoint = 0x1000 ∧
    ∀ d ∈ file.imports, (p = ascii "/initrd/a.xtd" ∧ d = ascii "b.xtd") ∨
      (cyclic = true ∧ p = ascii "/initrd/b.xtd" ∧ d = ascii "a.xtd") := by
  rw [World.module] at h
  split_ifs at h
  · obtain rfl := Option.some.inj h
    exact ⟨rfl, fun d hd => by cases hd⟩
  · rw [pairWorld] at h
    dsimp only at h
    split_ifs at h with hpa hpb hc
    · obtain rfl := Option.some.inj h
      exact ⟨rfl, fun d hd => .inl ⟨hpa, List.mem_singleton.mp hd⟩⟩
    · obtain rfl := Option.some.inj h
      exact ⟨rfl, fun d hd => .inr ⟨hc, hpb, List.mem_singleton.mp hd⟩⟩
    · obtain rfl := Option.some.inj h
      exact ⟨rfl, fun d hd => by cases hd⟩

theorem pairWorld_imports {cyclic : Bool} {p q : List UInt8} (h : Imports (pairWorld cyclic) p q) :
    (p = ascii "/initrd/a.xtd" ∧ q = ascii "/initrd/b.xtd") ∨
      (cyclic = true ∧ p = ascii "/initrd/b.xtd" ∧ q = ascii "/initrd/a.xtd") := by
  obtain ⟨ha, hb⟩ := pairWorld_resolve cyclic
  obtain ⟨file, hfile, d, hd, hq⟩ := h
  obtain ⟨hp, rfl⟩ | ⟨hc, hp, rfl⟩ := (pairWorld_module hfile).2 d hd
  · exact .inl ⟨hp, (Option.some.inj (hb.symm.trans hq)).symm⟩
  · exact .inr ⟨hc, hp, (Option.some.inj (ha.symm.trans hq)).symm⟩

def pairDrivers (cyclic : Bool) : Drivers (pairWorld cyclic) where
  names := {ascii "/initrd/a.xtd", ascii "/initrd/b.xtd"}
  short := by decide +kernel
  file := by
    revert cyclic
    decide +kernel
  not_kernel := by decide +kernel
  entry p hp := by
    have hne : p ≠ kernelName := by
      rintro rfl
      revert hp
      decide +kernel
    have himage : (pairWorld cyclic).image p = 0x100000 ∨ (pairWorld cyclic).image p = 0x200000 := by
      rw [pairWorld]
      dsimp only
      split_ifs
      · exact .inl rfl
      · exact .inr rfl
    refine ⟨by omega, fun file hfile => ?_⟩
    have hentry := (pairWorld_module (p := p) (by rw [World.module, if_neg hne, hfile])).1
    omega
  closed p _ file hfile d hd := by
    obtain ⟨ha, hb⟩ := pairWorld_resolve cyclic
    obtain ⟨-, rfl⟩ | ⟨-, -, rfl⟩ := (pairWorld_module hfile).2 d hd
    · exact ⟨_, hb, .inl (by decide +kernel)⟩
    · exact ⟨_, ha, .inl (by decide +kernel)⟩

/-- A driver and the one it imports are each relocated and attached once. -/
theorem correct_without_cycle : Correct (pairDrivers false) [ascii "/initrd/a.xtd"] := by
  refine (correct_iff (pairDrivers false) (by decide +kernel)).mpr fun p _ q _ =>
    ⟨fun hcycle => ?_, fun _ => ⟨BitVec.zero_and, BitVec.zero_and⟩⟩
  have hstep : ∀ {x y}, Imports (pairWorld false) x y →
      x = ascii "/initrd/a.xtd" ∧ y = ascii "/initrd/b.xtd" := fun h =>
    (pairWorld_imports h).resolve_right fun hno => absurd hno.1 (by decide)
  obtain ⟨y, hfirst, -⟩ := TransGen.head'_iff.mp hcycle
  obtain ⟨z, -, hlast⟩ := TransGen.tail'_iff.mp hcycle
  have heq := (hstep hfirst).1.symm.trans (hstep hlast).2
  revert heq
  decide +kernel

/-- Two drivers that import each other: a load of one of them never ends. -/
theorem cyclic_imports_run_forever :
    (∀ fuel, loads (pairWorld true) fuel (initialCache (pairWorld true))
      [ascii "/initrd/a.xtd"] = none) ∧
      ¬ Correct (pairDrivers true) [ascii "/initrd/a.xtd"] := by
  have hnone : ∀ fuel, loads (pairWorld true) fuel (initialCache (pairWorld true))
      [ascii "/initrd/a.xtd"] = none := by
    intro fuel
    by_contra hne
    obtain ⟨s, hs⟩ := Option.ne_none_iff_exists'.mp hne
    have hknown : ∀ p ∈ [ascii "/initrd/a.xtd"], (pairDrivers true).Known p := by
      intro p hp
      obtain rfl := List.mem_singleton.mp hp
      exact .inl (by decide +kernel)
    obtain ⟨-, hall⟩ := loads_known hknown (initialCache_inv (pairDrivers true)) hs
    have hends := (hall _ List.mem_cons_self).2
    obtain ⟨ha, hb⟩ := pairWorld_resolve true
    have hab : Imports (pairWorld true) (ascii "/initrd/a.xtd") (ascii "/initrd/b.xtd") :=
      ⟨⟨[ascii "b.xtd"], 0x1000, false, .success⟩, by rfl, _, List.mem_singleton_self _, hb⟩
    have hba : Imports (pairWorld true) (ascii "/initrd/b.xtd") (ascii "/initrd/a.xtd") :=
      ⟨⟨[ascii "a.xtd"], 0x1000, false, .success⟩, by rfl, _, List.mem_singleton_self _, ha⟩
    exact no_return hends (.tail (.single hab) hba)
  refine ⟨hnone, ?_⟩
  rintro ⟨fuel, s, hs, -⟩
  rw [hnone fuel] at hs
  cases hs

end XTOS.Linker.Kernel

import XTOS.Linker.Kernel

/-!
# The import tables of kernel modules

`xtLoadKernelModule` of `xtkernel/linker.c` with the import tables that it fills by
`xtGetProcAddress`.

## Main definitions

- `Image` — a module with its import descriptors and its exports
- `State` — the list `modules`, and what is at the `FirstThunk` arrays of the images
- `xtGetProcAddress`, `xtLoadKernelSubmodules`, `xtLoadKernelModule` — loading and filling
- `Available`, `ImageWorld.resolve` — what can be loaded, and the module an import leads to
- `Tries`, `Ends` — which loads a load makes, and that no chain of them goes on for ever
- `ImportsRight` — a load fills all import tables, or returns with an error
- `Fine` — a thunk that the loader gets right

## Main results

- `load_spec` — what a load does to the tables
- `load_cache` — without the tables it is the loader of `Kernel`
- `Ends.returns`, `ends_of_load` — when a load returns
- `imports_right_iff` — when a load fills the import tables

## Design notes

The tables of an image do not overlap each other, and neither relocations nor entry points write
to them. The name that a load returns with the base is the one of the image there.
-/

namespace XTOS.Linker.Thunks

open Paging
open Kernel (World Cache XTModule ModuleFile nameKey tempPaths kernelName kernelImageBase
  finishModule xtDecrementReference initialCache)

/-- An entry of `OriginalFirstThunk`. -/
inductive Thunk where
  | ordinal (n : ℕ)
  | byName (name : List UInt8)
  deriving DecidableEq

/-- `IMAGE_IMPORT_DESCRIPTOR`: the entries of `OriginalFirstThunk` in front of the zero, and what
    the file has at `FirstThunk`. -/
structure ImportDescriptor where
  name : List UInt8
  originalFirstThunk : List Thunk
  firstThunk : ℕ → ℕ

/-- `IMAGE_EXPORT_DIRECTORY`: the RVAs at `AddressOfFunctions`, and each name with its entry of
    `AddressOfNameOrdinals`. -/
structure ExportDirectory where
  base : ℕ
  numberOfFunctions : ℕ
  functions : ℕ → UInt32
  names : List (List UInt8 × ℕ)

/-- What a load reads of a module. -/
structure Image where
  descriptors : List ImportDescriptor
  exports : Option ExportDirectory
  entryPoint : ℕ
  isDll : Bool
  detach : XTResult

/-- The module without its tables. -/
def Image.toModuleFile (image : Image) : ModuleFile :=
  ⟨image.descriptors.map ImportDescriptor.name, image.entryPoint, image.isDll, image.detach⟩

/-- The files that can be opened, whose paths fit into the buffers of the kernel, and the rest of
    a `World`. -/
structure ImageWorld where
  files : List UInt8 → Option Image
  kernel : Image
  image : List UInt8 → ℕ
  block : List UInt8 → BitVec 64
  short : ∀ p, (files p).isSome → p.length ≤ 4096

/-- The world without the tables. -/
def ImageWorld.toWorld (W : ImageWorld) : World where
  files p := (W.files p).map Image.toModuleFile
  kernel := W.kernel.toModuleFile
  image := W.image
  block := W.block

/-- The image behind a name. -/
def ImageWorld.module (W : ImageWorld) (p : List UInt8) : Option Image :=
  if p = kernelName then some W.kernel else W.files p

/-- The physical address of an image. -/
def ImageWorld.physical (W : ImageWorld) (p : List UInt8) : ℕ :=
  if p = kernelName then kernelImageBase else W.image p

/-- Where an image is for the kernel. -/
def ImageWorld.base (W : ImageWorld) (p : List UInt8) : ℕ := higherHalfMem (W.physical p)

/-- What the file of a module has in its `FirstThunk` arrays. -/
def ImageWorld.fileIat (W : ImageWorld) (p : List UInt8) (j i : ℕ) : ℕ :=
  match (W.module p).bind (·.descriptors[j]?) with
  | some d => d.firstThunk i
  | none => 0

/-- The list `modules`, and the values in the `FirstThunk` arrays by image, descriptor and index. -/
structure State where
  cache : Cache
  iat : List UInt8 → ℕ → ℕ → ℕ

/-- An image that was loaded: where it is, and its name. -/
structure Loaded where
  base : ℕ
  name : List UInt8

/-- `xtGetProcAddress`. -/
def xtGetProcAddress (exports : Option ExportDirectory) (virtualImage : ℕ)
    (funcName : List UInt8) : Option ℕ :=
  match exports with
  | none => none
  | some exports => (exports.names.find? fun e => xtStringCmp e.1 funcName 4096).map fun e =>
      (virtualImage + (exports.functions e.2).toNat) % 2 ^ 64

/-- `xtGetOrLoadPhysicalModule`: the image of a file that is read has the tables of the file. -/
def xtGetOrLoadPhysicalModule (W : ImageWorld) (s : State) (filename : List UInt8) :
    State × Except XTResult XTModule :=
  match Kernel.xtGetOrLoadPhysicalModule W.toWorld s.cache filename with
  | (cache, .error r) => ({ s with cache := cache }, .error r)
  | (cache, .ok mod) =>
    if (s.cache.find filename).isSome then ({ s with cache := cache }, .ok mod)
    else
      let p := nameKey filename
      (⟨cache, Function.update s.iat p (W.fileIat p)⟩, .ok mod)

/-- The loop of `xtLoadKernelSubmodules` over the thunks of a descriptor. -/
def thunkLoop (exports : Option ExportDirectory) (subModuleBase : ℕ) :
    List Thunk → ℕ → (ℕ → ℕ) → ℕ → ℕ
  | [], _, thunk => thunk
  | .ordinal _ :: origThunk, i, thunk => thunkLoop exports subModuleBase origThunk (i + 1) thunk
  | .byName name :: origThunk, i, thunk =>
    let funcPtr := (xtGetProcAddress exports subModuleBase name).getD 0
    thunkLoop exports subModuleBase origThunk (i + 1) (Function.update thunk i funcPtr)

/-- The loop of `xtLoadKernelSubmodules` over the suffixes. -/
def suffixLoop (load : State → List UInt8 → Option (State × Except XTResult Loaded)) (s : State) :
    List (List UInt8) → Option (State × Except XTResult Loaded)
  | [] => some (s, .error .notFound)
  | tempPath :: paths =>
    match load s tempPath with
    | none => none
    | some (s, .ok sub) => some (s, .ok sub)
    | some (s, .error _) => suffixLoop load s paths

/-- New values in the `FirstThunk` array of a descriptor. -/
def State.fill (s : State) (p : List UInt8) (j : ℕ) (thunk : ℕ → ℕ) : State :=
  { s with iat := Function.update s.iat p (Function.update (s.iat p) j thunk) }

/-- `xtLoadKernelSubmodules` for image `p` from descriptor `j` on; `load` is
    `xtLoadKernelModule`. -/
def xtLoadKernelSubmodules (W : ImageWorld)
    (load : State → List UInt8 → Option (State × Except XTResult Loaded)) (p : List UInt8) :
    List ImportDescriptor → ℕ → State → Option (State × XTResult)
  | [], _, s => some (s, .success)
  | d :: importDesc, j, s =>
    match suffixLoop load s (tempPaths d.name) with
    | none => none
    | some (s, .error _) => some (s, .notFound)
    | some (s, .ok sub) =>
      if sub.base = 0 then some (s, .notFound)
      else
        let exports := (W.module sub.name).bind (·.exports)
        let thunk := thunkLoop exports sub.base d.originalFirstThunk 0 (s.iat p j)
        xtLoadKernelSubmodules W load p importDesc (j + 1) (s.fill p j thunk)

/-- The import descriptors of an image. -/
def ImageWorld.descriptors (W : ImageWorld) (p : List UInt8) : List ImportDescriptor :=
  match W.module p with
  | some image => image.descriptors
  | none => []

/-- `xtLoadKernelModule`. -/
def xtLoadKernelModule (W : ImageWorld) :
    ℕ → State → List UInt8 → Option (State × Except XTResult Loaded)
  | 0, _, _ => none
  | fuel + 1, s, filename =>
    match xtGetOrLoadPhysicalModule W s filename with
    | (s, .error r) => some (s, .error r)
    | (s, .ok mod) =>
      let p := nameKey filename
      match xtLoadKernelSubmodules W (xtLoadKernelModule W fuel) p (W.descriptors p) 0 s with
      | none => none
      | some (s, subRes) =>
        if subRes.isError then
          some ({ s with cache := xtDecrementReference s.cache filename }, .error subRes)
        else
          match s.cache.find filename with
          | none => some (s, .ok ⟨higherHalfMem mod.physicalImage, p⟩)
          | some mod => some ({ s with cache := finishModule s.cache filename mod },
              .ok ⟨higherHalfMem mod.physicalImage, p⟩)

/-- A sequence of loads. -/
def loads (W : ImageWorld) (fuel : ℕ) (s : State) : List (List UInt8) → Option State
  | [] => some s
  | filename :: rest =>
    match xtLoadKernelModule W fuel s filename with
    | none => none
    | some (s, _) => loads W fuel s rest

/-- A module that can be loaded: there is a file, and for each descriptor a module that can be
    loaded under one of the prefixes. -/
inductive Available (W : ImageWorld) : List UInt8 → Prop
  | intro {p : List UInt8} {image : Image} (next : List UInt8 → List UInt8) :
      W.module p = some image → (∀ d ∈ image.descriptors, next d.name ∈ tempPaths d.name) →
      (∀ d ∈ image.descriptors, Available W (next d.name)) → Available W p

open Classical in
/-- The first of some paths under which a module can be loaded. -/
noncomputable def ImageWorld.firstAvailable (W : ImageWorld) (paths : List (List UInt8)) :
    Option (List UInt8) :=
  paths.find? fun q => Available W q

/-- The module that is loaded for a descriptor. -/
noncomputable def ImageWorld.resolve (W : ImageWorld) (dllName : List UInt8) :
    Option (List UInt8) :=
  W.firstAvailable (tempPaths dllName)

open Classical in
/-- The elements of a list up to the first one with a property, this one included. -/
noncomputable def upTo {α : Type*} (stop : α → Prop) : List α → List α
  | [] => []
  | a :: l => a :: if stop a then [] else upTo stop l

/-- No module can be loaded for a descriptor. -/
def ImageWorld.Lacks (W : ImageWorld) (d : ImportDescriptor) : Prop := W.resolve d.name = none

/-- A load of the first module loads the second one: the paths of a descriptor are tried up to the
    first that can be loaded, and the descriptors up to the first for which none can be. -/
def Tries (W : ImageWorld) (p q : List UInt8) : Prop :=
  ∃ image, W.module p = some image ∧
    ∃ d ∈ upTo W.Lacks image.descriptors,
      q ∈ upTo (Available W) (tempPaths d.name)

/-- No chain of loads from the module on goes on for ever. -/
def Ends (W : ImageWorld) (p : List UInt8) : Prop := Acc (fun q p => Tries W p q) p

/-- The module exports what the thunk names, at an RVA. -/
def Image.Exports (image : Image) (rva : UInt32) : Thunk → Prop
  | .byName name => ∃ exports, image.exports = some exports ∧
      ∃ e ∈ exports.names, e.1 = name ∧ exports.functions e.2 = rva
  | .ordinal n => ∃ exports, image.exports = some exports ∧ exports.base ≤ n ∧
      n - exports.base < exports.numberOfFunctions ∧ exports.functions (n - exports.base) = rva

/-- The address of an RVA in a module. -/
def ImageWorld.address (W : ImageWorld) (q : List UInt8) (rva : UInt32) : ℕ :=
  (W.base q + rva.toNat) % 2 ^ 64

/-- The first export that the search by name comes to. -/
def Image.search (image : Image) (name : List UInt8) : Option UInt32 :=
  image.exports.bind fun exports =>
    (exports.names.find? fun e => xtStringCmp e.1 name 4096).map fun e => exports.functions e.2

/-- A thunk that is right after the load: one by name whose export is there and is found, or one
    by ordinal in whose slot the file has the address already. -/
def Fine (W : ImageWorld) (d : ImportDescriptor) (i : ℕ) (q : List UInt8) (qimage : Image) :
    Thunk → Prop
  | .byName name => ∃ rva, qimage.Exports rva (.byName name) ∧ qimage.search name = some rva
  | .ordinal n => ∃ rva, qimage.Exports rva (.ordinal n) ∧ d.firstThunk i = W.address q rva

/-- Descriptor `j` of an image. -/
def Descriptor (W : ImageWorld) (p : List UInt8) (j : ℕ) (d : ImportDescriptor) : Prop :=
  ∃ image, W.module p = some image ∧ image.descriptors[j]? = some d

/-- What the loader leaves in the slot of a thunk. -/
noncomputable def slotValue (W : ImageWorld) (d : ImportDescriptor) (i : ℕ) : Thunk → ℕ
  | .ordinal _ => d.firstThunk i
  | .byName name =>
    match W.resolve d.name with
    | none => 0
    | some q => (xtGetProcAddress ((W.module q).bind (·.exports)) (W.base q) name).getD 0

/-- The loader was at all thunks of a descriptor. -/
def Filled (W : ImageWorld) (s : State) (p : List UInt8) (j : ℕ) (d : ImportDescriptor) : Prop :=
  ∀ i t, d.originalFirstThunk[i]? = some t → s.iat p j i = slotValue W d i t

/-- The record of the module behind a name. -/
structure RecordOf (W : ImageWorld) (p : List UInt8) (mod : XTModule) : Prop where
  file : ∃ image, W.module p = some image ∧ mod.file = image.toModuleFile
  key : nameKey p = p
  physical : mod.physicalImage = W.physical p

/-- The records are those of the images, no slot of an ordinal was written, and the kernel is in
    the list for good. -/
structure Inv (W : ImageWorld) (s : State) : Prop where
  found : ∀ p mod, s.cache.modules p = some mod → RecordOf W p mod
  ordinal : ∀ p mod, s.cache.modules p = some mod → ∀ j d, Descriptor W p j d → ∀ i n,
    d.originalFirstThunk[i]? = some (.ordinal n) → s.iat p j i = d.firstThunk i
  kernel : ∃ mod, s.cache.modules kernelName = some mod ∧ 1 ≤ mod.count

/-- What a load keeps of the modules that are in use. -/
structure Keeps (W : ImageWorld) (s s' : State) : Prop where
  cached : ∀ p mod, s.cache.modules p = some mod → 1 ≤ mod.count →
    ∃ mod', s'.cache.modules p = some mod' ∧ mod.count ≤ mod'.count
  filled : ∀ p mod, s.cache.modules p = some mod → 1 ≤ mod.count → ∀ j d, Descriptor W p j d →
    Filled W s p j d → Filled W s' p j d

variable {W : ImageWorld} {s s' s'' : State} {p q : List UInt8} {j i n : ℕ} {d : ImportDescriptor}
  {image : Image} {r : Except XTResult Loaded}

theorem RecordOf.congr {mod mod' : XTModule} (h : RecordOf W p mod) (hfile : mod'.file = mod.file)
    (hphysical : mod'.physicalImage = mod.physicalImage) : RecordOf W p mod' :=
  ⟨by rw [hfile]; exact h.file, h.key, hphysical.trans h.physical⟩

theorem Keeps.refl : Keeps W s s :=
  ⟨fun _ mod h _ => ⟨mod, h, le_rfl⟩, fun _ _ _ _ _ _ _ h => h⟩

theorem Keeps.trans (h : Keeps W s s') (h' : Keeps W s' s'') : Keeps W s s'' where
  cached p mod hmod hcount := by
    obtain ⟨mod', hmod', hle⟩ := h.cached p mod hmod hcount
    obtain ⟨mod'', hmod'', hle'⟩ := h'.cached p mod' hmod' (hcount.trans hle)
    exact ⟨mod'', hmod'', hle.trans hle'⟩
  filled p mod hmod hcount j d hd hfilled := by
    obtain ⟨mod', hmod', hle⟩ := h.cached p mod hmod hcount
    have hfilled' := h.filled p mod hmod hcount j d hd hfilled
    exact h'.filled p mod' hmod' (hcount.trans hle) j d hd hfilled'

/-- The kernel stays in the list when what is in use stays. -/
theorem Keeps.kernel (h : Keeps W s s') (hinv : Inv W s) :
    ∃ mod, s'.cache.modules kernelName = some mod ∧ 1 ≤ mod.count := by
  obtain ⟨mod, hmod, hcount⟩ := hinv.kernel
  obtain ⟨mod', hmod', hle⟩ := h.cached _ mod hmod hcount
  exact ⟨mod', hmod', hcount.trans hle⟩

theorem resolve_spec {dllName : List UInt8} (h : W.resolve dllName = some q) :
    q ∈ tempPaths dllName ∧ Available W q := by
  rw [ImageWorld.resolve, ImageWorld.firstAvailable] at h
  exact ⟨List.mem_of_find?_eq_some h, by simpa using List.find?_some h⟩

theorem available_iff : Available W p ↔
    ∃ image, W.module p = some image ∧ ∀ d ∈ image.descriptors, (W.resolve d.name).isSome := by
  have hsome : ∀ dllName, (W.resolve dllName).isSome ↔ ∃ q ∈ tempPaths dllName, Available W q :=
    fun dllName => by simp [ImageWorld.resolve, ImageWorld.firstAvailable]
  constructor
  · rintro ⟨next, himage, hpath, havailable⟩
    exact ⟨_, himage, fun d hd => (hsome d.name).mpr ⟨next d.name, hpath d hd, havailable d hd⟩⟩
  · rintro ⟨image, himage, hresolve⟩
    have hall : ∀ d ∈ image.descriptors, ∃ q ∈ tempPaths d.name, Available W q := fun d hd =>
      (hsome d.name).mp (hresolve d hd)
    -- a module for each name that is imported
    refine .intro (fun dllName => (W.resolve dllName).getD []) himage (fun d hd => ?_)
      fun d hd => ?_
    · obtain ⟨q, hq⟩ := Option.isSome_iff_exists.mp (hresolve d hd)
      have hmem := (resolve_spec hq).1
      rwa [hq]
    · obtain ⟨q, hq⟩ := Option.isSome_iff_exists.mp (hresolve d hd)
      have havailable := (resolve_spec hq).2
      rwa [hq]

/-! ### The steps of a load -/

/-- The loop leaves the slots of ordinals alone and writes those of names. -/
theorem thunkLoop_eq (exports : Option ExportDirectory) (base : ℕ) (ts : List Thunk) (k : ℕ)
    (thunk : ℕ → ℕ) (i : ℕ) : thunkLoop exports base ts k thunk i =
      if i < k then thunk i else
        match ts[i - k]? with
        | some (.byName name) => (xtGetProcAddress exports base name).getD 0
        | _ => thunk i := by
  induction ts generalizing k thunk with
  | nil => simp [thunkLoop]
  | cons t ts ih =>
    have hget : ∀ h : ¬ i < k + 1, (t :: ts)[i - k]? = ts[i - (k + 1)]? := by
      intro h
      rw [show i - k = i - (k + 1) + 1 by omega, List.getElem?_cons_succ]
    obtain hlt | rfl | hgt := Nat.lt_trichotomy i k
    · cases t with
      | ordinal n => rw [thunkLoop, ih, if_pos (by omega), if_pos hlt]
      | byName name =>
        rw [thunkLoop, ih, if_pos (by omega), if_pos hlt, Function.update_of_ne (by omega)]
    · rw [if_neg (lt_irrefl i), Nat.sub_self, List.getElem?_cons_zero]
      cases t with
      | ordinal n => rw [thunkLoop, ih, if_pos (Nat.lt_succ_self i)]
      | byName name => rw [thunkLoop, ih, if_pos (Nat.lt_succ_self i), Function.update_self]
    · rw [if_neg (by omega), hget (by omega)]
      cases t with
      | ordinal n => rw [thunkLoop, ih, if_neg (by omega)]
      | byName name =>
        rw [thunkLoop, ih, if_neg (by omega), Function.update_of_ne (by omega)]

theorem fill_same (s : State) (p : List UInt8) (j : ℕ) (thunk : ℕ → ℕ) :
    (s.fill p j thunk).iat p j = thunk := by
  rw [State.fill]
  dsimp only
  rw [Function.update_self, Function.update_self]

theorem fill_other (s : State) {p p' : List UInt8} {j j' : ℕ} (thunk : ℕ → ℕ)
    (h : p' ≠ p ∨ j' ≠ j) : (s.fill p j thunk).iat p' j' = s.iat p' j' := by
  rw [State.fill]
  dsimp only
  by_cases hp : p' = p
  · subst hp
    rw [Function.update_self, Function.update_of_ne (h.resolve_left (not_not.mpr rfl))]
  · rw [Function.update_of_ne hp]

/-- The `FirstThunk` array of a descriptor is filled. -/
theorem fill_spec (hinv : Inv W s) {mod : XTModule} (hmod : s.cache.modules p = some mod)
    (hd : Descriptor W p j d) (hq : W.resolve d.name = some q) {thunk : ℕ → ℕ}
    (hloop : thunk = thunkLoop ((W.module q).bind (·.exports)) (W.base q) d.originalFirstThunk 0
      (s.iat p j)) :
    Inv W (s.fill p j thunk) ∧ Keeps W s (s.fill p j thunk) ∧
      Filled W (s.fill p j thunk) p j d := by
  have hthunk : ∀ i t, d.originalFirstThunk[i]? = some t → thunk i = slotValue W d i t := by
    intro i t ht
    rw [hloop, thunkLoop_eq, if_neg (Nat.not_lt_zero i), Nat.sub_zero, ht]
    cases t with
    | ordinal n => exact hinv.ordinal p mod hmod j d hd i n ht
    | byName name => rw [slotValue, hq]
  have hdescriptor : ∀ d', Descriptor W p j d' → d' = d := by
    rintro d' ⟨image', himage', hd'⟩
    obtain ⟨image, himage, hd⟩ := hd
    obtain rfl := Option.some.inj (himage.symm.trans himage')
    exact Option.some.inj (hd'.symm.trans hd)
  have hfilled : Filled W (s.fill p j thunk) p j d := fun i t ht => by
    rw [fill_same]
    exact hthunk i t ht
  refine ⟨⟨hinv.found, fun p' mod' hmod' j' d' hd' i n hn => ?_, hinv.kernel⟩,
    ⟨fun _ mod h _ => ⟨mod, h, le_rfl⟩, fun p' mod' hmod' hcount j' d' hd' hold => ?_⟩, hfilled⟩
  · by_cases hne : p' ≠ p ∨ j' ≠ j
    · rw [fill_other s thunk hne]
      exact hinv.ordinal p' mod' hmod' j' d' hd' i n hn
    · obtain ⟨hp, hj⟩ := not_or.mp hne
      obtain rfl := not_not.mp hp
      obtain rfl := not_not.mp hj
      obtain rfl := hdescriptor d' hd'
      exact hfilled i _ hn
  · by_cases hne : p' ≠ p ∨ j' ≠ j
    · intro i t ht
      rw [fill_other s thunk hne]
      exact hold i t ht
    · obtain ⟨hp, hj⟩ := not_or.mp hne
      obtain rfl := not_not.mp hp
      obtain rfl := not_not.mp hj
      obtain rfl := hdescriptor d' hd'
      exact hfilled

/-- The record of one module is another one, of the same image. -/
theorem set_spec {mod : XTModule} (hinv : Inv W s)
    (hmodules : s'.cache.modules = Function.update s.cache.modules p (some mod))
    (hrecord : RecordOf W p mod)
    (hold : ∀ mod₀, s.cache.modules p = some mod₀ → mod₀.count ≤ mod.count)
    (hiat : ∀ p' j, p' ≠ p ∨ (s.cache.modules p).isSome → s'.iat p' j = s.iat p' j)
    (hfile : s.cache.modules p = none → s'.iat p = W.fileIat p) :
    Inv W s' ∧ Keeps W s s' := by
  have hkeeps : Keeps W s s' := by
    refine ⟨fun p' mod' hmod' hcount' => ?_, fun p' mod' hmod' _ j d _ hfilled i t ht => ?_⟩
    · rw [hmodules]
      by_cases hp : p' = p
      · subst hp
        exact ⟨mod, Function.update_self _ _ _, hold mod' hmod'⟩
      · exact ⟨mod', by rw [Function.update_of_ne hp, hmod'], le_rfl⟩
    · rw [hiat p' j]
      · exact hfilled i t ht
      · by_cases hp : p' = p
        · subst hp
          rw [hmod']
          exact .inr rfl
        · exact .inl hp
  refine ⟨⟨fun p' mod' hmod' => ?_, fun p' mod' hmod' j d hd i n hn => ?_, hkeeps.kernel hinv⟩,
    hkeeps⟩
  · rw [hmodules] at hmod'
    by_cases hp : p' = p
    · subst hp
      rw [Function.update_self] at hmod'
      obtain rfl := Option.some.inj hmod'
      exact hrecord
    · rw [Function.update_of_ne hp] at hmod'
      exact hinv.found p' mod' hmod'
  · rw [hmodules] at hmod'
    by_cases hp : p' = p
    · subst hp
      cases hcached : s.cache.modules p' with
      | some mod₀ =>
        rw [hiat p' j (.inr (by rw [hcached]; rfl))]
        exact hinv.ordinal p' mod₀ hcached j d hd i n hn
      | none =>
        obtain ⟨image, himage, hget⟩ := hd
        rw [hfile hcached, ImageWorld.fileIat, himage, Option.bind_some, hget]
    · rw [Function.update_of_ne hp] at hmod'
      rw [hiat p' j (.inl hp)]
      exact hinv.ordinal p' mod' hmod' j d hd i n hn

/-- The module is found, or its file is read. -/
theorem getOrLoad_spec (hinv : Inv W s) {filename : List UInt8} {res : Except XTResult XTModule}
    (h : xtGetOrLoadPhysicalModule W s filename = (s', res)) :
    (∀ mod, res = .ok mod → RecordOf W (nameKey filename) mod ∧ Inv W s' ∧ Keeps W s s' ∧
      ∃ mod', s'.cache.modules (nameKey filename) = some mod' ∧ 1 ≤ mod'.count ∧
        ∀ mod₀, s.cache.modules (nameKey filename) = some mod₀ → mod'.count = mod₀.count + 1) ∧
    ∀ e, res = .error e → s' = s ∧ e.isError = true ∧
      (nameKey filename = filename → W.module filename = none) := by
  rw [xtGetOrLoadPhysicalModule, Kernel.xtGetOrLoadPhysicalModule, Cache.find] at h
  have hworld : W.toWorld.files filename = (W.files filename).map Image.toModuleFile := rfl
  cases hcached : s.cache.modules (nameKey filename) with
  | some mod =>
    rw [hcached] at h
    obtain ⟨hs, rfl⟩ := Prod.mk.inj h
    have hrecord : RecordOf W (nameKey filename) { mod with count := mod.count + 1 } :=
      (hinv.found _ mod hcached).congr rfl rfl
    have hiat : s'.iat = s.iat := by
      rw [← hs]
    have hmodules : s'.cache.modules = Function.update s.cache.modules (nameKey filename)
        (some { mod with count := mod.count + 1 }) := by
      rw [← hs]
      rfl
    have hold : ∀ mod₀, s.cache.modules (nameKey filename) = some mod₀ →
        mod₀.count ≤ mod.count + 1 := by
      intro mod₀ h₀
      obtain rfl := Option.some.inj (hcached.symm.trans h₀)
      exact Nat.le_succ _
    obtain ⟨hinv', hkeeps⟩ := set_spec hinv hmodules hrecord hold
      (fun _ _ _ => by rw [hiat]) fun hnone => by rw [hcached] at hnone; cases hnone
    refine ⟨fun mod' hmod' => ?_, fun e he => by cases he⟩
    obtain rfl := Except.ok.inj hmod'
    refine ⟨hrecord, hinv', hkeeps, _, by rw [hmodules, Function.update_self],
      Nat.le_add_left _ _, fun mod₀ h₀ => ?_⟩
    obtain rfl := Option.some.inj h₀
    rfl
  | none =>
    rw [hcached] at h
    -- the kernel is in the list, so this is a driver
    have hdriver : nameKey filename ≠ kernelName := by
      intro hkernel
      obtain ⟨mod, hmod, -⟩ := hinv.kernel
      rw [hkernel, hmod] at hcached
      cases hcached
    cases hfile : W.files filename with
    | none =>
      rw [hworld, hfile] at h
      obtain ⟨rfl, rfl⟩ := Prod.mk.inj h
      refine ⟨fun mod' hmod' => (by cases hmod'), fun e he => ?_⟩
      obtain rfl := Except.error.inj he
      refine ⟨rfl, rfl, fun hkey => ?_⟩
      rw [ImageWorld.module, if_neg (hkey ▸ hdriver), hfile]
    | some image =>
      rw [hworld, hfile] at h
      obtain ⟨hs, rfl⟩ := Prod.mk.inj h
      have hkey : nameKey filename = filename :=
        List.take_of_length_le (W.short filename (by rw [hfile]; rfl))
      rw [hkey] at hcached hdriver ⊢
      have hmodule : W.module filename = some image := by
        rw [ImageWorld.module, if_neg hdriver, hfile]
      have hiat : s'.iat = Function.update s.iat filename (W.fileIat filename) := by
        rw [← hs, hkey]
      have hmodules : s'.cache.modules = Function.update s.cache.modules filename
          (some ⟨image.toModuleFile, W.image filename, W.block filename, 1⟩) := by
        rw [← hs]
        dsimp only
        rw [Cache.set, hkey]
        rfl
      have hrecord : RecordOf W filename
          ⟨image.toModuleFile, W.image filename, W.block filename, 1⟩ :=
        ⟨⟨image, hmodule, rfl⟩, hkey, (if_neg hdriver).symm⟩
      have hold : ∀ mod₀, s.cache.modules filename = some mod₀ → mod₀.count ≤ 1 := by
        intro mod₀ h₀
        rw [hcached] at h₀
        cases h₀
      have hother : ∀ p' j, p' ≠ filename ∨ (s.cache.modules filename).isSome →
          s'.iat p' j = s.iat p' j := by
        intro p' j hp
        rw [hcached] at hp
        rw [hiat, Function.update_of_ne (hp.resolve_right Bool.false_ne_true)]
      obtain ⟨hinv', hkeeps⟩ := set_spec hinv hmodules hrecord hold hother
        fun _ => by rw [hiat, Function.update_self]
      refine ⟨fun mod' hmod' => ?_, fun e he => by cases he⟩
      obtain rfl := Except.ok.inj hmod'
      refine ⟨hrecord, hinv', hkeeps, _, by rw [hmodules, Function.update_self],
        le_rfl, fun mod₀ h₀ => ?_⟩
      cases h₀

/-- A reference that the load took is dropped. What was in use before the load stays. -/
theorem decrement_spec {s₁ s₂ : State} (hinv : Inv W s) (hinv₂ : Inv W s₂) (hkeeps : Keeps W s s₂)
    {filename : List UInt8} {mod₁ : XTModule}
    (hmod₁ : s₁.cache.modules (nameKey filename) = some mod₁) (hcount₁ : 1 ≤ mod₁.count)
    (htaken : ∀ mod₀, s.cache.modules (nameKey filename) = some mod₀ →
      mod₁.count = mod₀.count + 1) (hkeeps₁ : Keeps W s₁ s₂) :
    Inv W { s₂ with cache := xtDecrementReference s₂.cache filename } ∧
      Keeps W s { s₂ with cache := xtDecrementReference s₂.cache filename } := by
  obtain ⟨mod₂, hmod₂, hle⟩ := hkeeps₁.cached _ mod₁ hmod₁ hcount₁
  -- the record is gone, or it has one reference less
  have hmodules : ∃ o, (xtDecrementReference s₂.cache filename).modules =
      Function.update s₂.cache.modules (nameKey filename) o ∧
      (∀ mod, o = some mod → mod.file = mod₂.file ∧ mod.physicalImage = mod₂.physicalImage) ∧
      (2 ≤ mod₂.count → ∃ mod, o = some mod ∧ mod.count = mod₂.count - 1) := by
    rw [xtDecrementReference, Cache.find, hmod₂]
    dsimp only
    split_ifs with hzero hdll hdetach
    · exact ⟨_, rfl, fun mod h => by rw [← Option.some.inj h]; exact ⟨rfl, rfl⟩, fun h => by omega⟩
    · exact ⟨none, by rw [Cache.set]; exact Function.update_idem ..,
        fun mod h => (by cases h), fun h => by omega⟩
    · exact ⟨none, by rw [Cache.set]; exact Function.update_idem ..,
        fun mod h => (by cases h), fun h => by omega⟩
    · exact ⟨_, rfl, fun mod h => by rw [← Option.some.inj h]; exact ⟨rfl, rfl⟩,
        fun _ => ⟨_, rfl, rfl⟩⟩
  obtain ⟨o, hupdate, himage, hstays⟩ := hmodules
  have hkeeps' : Keeps W s { s₂ with cache := xtDecrementReference s₂.cache filename } := by
    refine ⟨fun p mod hmod hcount => ?_, fun p mod hmod hcount j d hd hfilled => ?_⟩
    · obtain ⟨mod', hmod', hle'⟩ := hkeeps.cached p mod hmod hcount
      dsimp only
      rw [hupdate]
      by_cases hp : p = nameKey filename
      · subst hp
        obtain htwo := htaken mod hmod
        obtain ⟨mod'', rfl, hcount''⟩ := hstays (by omega)
        exact ⟨mod'', Function.update_self _ _ _, by omega⟩
      · exact ⟨mod', by rw [Function.update_of_ne hp, hmod'], hle'⟩
    · exact hkeeps.filled p mod hmod hcount j d hd hfilled
  have hback : ∀ p mod, (xtDecrementReference s₂.cache filename).modules p = some mod →
      ∃ mod', s₂.cache.modules p = some mod' ∧ mod.file = mod'.file ∧
        mod.physicalImage = mod'.physicalImage := by
    intro p mod hmod
    rw [hupdate] at hmod
    by_cases hp : p = nameKey filename
    · subst hp
      rw [Function.update_self] at hmod
      exact ⟨mod₂, hmod₂, himage mod hmod⟩
    · rw [Function.update_of_ne hp] at hmod
      exact ⟨mod, hmod, rfl, rfl⟩
  refine ⟨⟨fun p mod hmod => ?_, fun p mod hmod => ?_, hkeeps'.kernel hinv⟩, hkeeps'⟩
  · obtain ⟨mod', hmod', hfile, hphysical⟩ := hback p mod hmod
    exact (hinv₂.found p mod' hmod').congr hfile hphysical
  · obtain ⟨mod', hmod', -⟩ := hback p mod hmod
    exact hinv₂.ordinal p mod' hmod'

/-- The end of a load changes the flags of the record. -/
theorem finishModule_modules (c : Cache) (filename : List UInt8) (mod : XTModule) :
    ∃ mod', (finishModule c filename mod).modules =
        Function.update c.modules (nameKey filename) (some mod') ∧
      mod'.count = mod.count ∧ mod'.file = mod.file ∧ mod'.physicalImage = mod.physicalImage := by
  have hrelocate : (Kernel.relocateStep filename c mod).1.modules = c.modules ∧
      (Kernel.relocateStep filename c mod).2.count = mod.count ∧
      (Kernel.relocateStep filename c mod).2.file = mod.file ∧
      (Kernel.relocateStep filename c mod).2.physicalImage = mod.physicalImage := by
    rw [Kernel.relocateStep]
    split_ifs <;> exact ⟨rfl, rfl, rfl, rfl⟩
  have hattach : ∀ c mod, (Kernel.attachStep filename c mod).1.modules = c.modules ∧
      (Kernel.attachStep filename c mod).2.count = mod.count ∧
      (Kernel.attachStep filename c mod).2.file = mod.file ∧
      (Kernel.attachStep filename c mod).2.physicalImage = mod.physicalImage := by
    intro c mod
    rw [Kernel.attachStep]
    split_ifs <;> exact ⟨rfl, rfl, rfl, rfl⟩
  obtain ⟨hmodules, hcount, hfile, himage⟩ := hrelocate
  obtain ⟨hmodules', hcount', hfile', himage'⟩ := hattach (Kernel.relocateStep filename c mod).1
    (Kernel.relocateStep filename c mod).2
  refine ⟨_, ?_, hcount'.trans hcount, hfile'.trans hfile, himage'.trans himage⟩
  rw [finishModule]
  dsimp only
  rw [Cache.set, hmodules', hmodules]

/-! ### Loads -/

/-- What a load does, as far as the import tables are concerned. -/
structure LoadOk (W : ImageWorld) (s : State) (filename : List UInt8) (s' : State)
    (r : Except XTResult Loaded) : Prop where
  inv : Inv W s'
  keeps : Keeps W s s'
  ok : ∀ sub, r = .ok sub → sub.base = W.base (nameKey filename) ∧ sub.name = nameKey filename ∧
    Available W (nameKey filename) ∧
    ∀ j d, Descriptor W (nameKey filename) j d → Filled W s' (nameKey filename) j d
  error : ∀ e, r = .error e → e.isError = true ∧
    (nameKey filename = filename → ¬ Available W filename)

/-- The paths are tried up to the first one that can be loaded. -/
theorem suffixLoop_spec {load : State → List UInt8 → Option (State × Except XTResult Loaded)}
    (hload : ∀ s p s' r, Inv W s → load s p = some (s', r) → LoadOk W s p s' r)
    {paths : List (List UInt8)} (hkeys : ∀ p ∈ paths, nameKey p = p) (hinv : Inv W s)
    (h : suffixLoop load s paths = some (s', r)) :
    Inv W s' ∧ Keeps W s s' ∧
      (∀ sub, r = .ok sub → sub.base = W.base sub.name ∧
        W.firstAvailable paths = some sub.name) ∧
      ∀ e, r = .error e → W.firstAvailable paths = none := by
  induction paths generalizing s with
  | nil =>
    obtain ⟨rfl, rfl⟩ := Prod.mk.inj (Option.some.inj h)
    exact ⟨hinv, .refl, nofun, fun _ _ => rfl⟩
  | cons p paths ih =>
    have hkey := hkeys p List.mem_cons_self
    rw [suffixLoop] at h
    cases hfirst : load s p with
    | none =>
      rw [hfirst] at h
      cases h
    | some x =>
      obtain ⟨s₁, r₁⟩ := x
      have hok := hload s p s₁ r₁ hinv hfirst
      rw [hfirst] at h
      cases r₁ with
      | ok sub =>
        obtain ⟨rfl, rfl⟩ := Prod.mk.inj (Option.some.inj h)
        obtain ⟨hbase, hname, havailable, -⟩ := hok.ok sub rfl
        refine ⟨hok.inv, hok.keeps, fun sub' hsub' => ?_, nofun⟩
        obtain rfl := Except.ok.inj hsub'
        rw [hkey] at hbase hname havailable
        refine ⟨by rw [hbase, hname], ?_⟩
        rw [ImageWorld.firstAvailable, List.find?_cons_of_pos (by simpa using havailable), hname]
      | error e =>
        have hmiss := (hok.error e rfl).2 hkey
        obtain ⟨hinv', hkeeps, hsub, herror⟩ := ih (fun q hq => hkeys q (List.mem_cons_of_mem _ hq))
          hok.inv h
        have hskip : W.firstAvailable (p :: paths) = W.firstAvailable paths := by
          rw [ImageWorld.firstAvailable, List.find?_cons_of_neg (by simpa using hmiss),
            ImageWorld.firstAvailable]
        rw [hskip]
        exact ⟨hinv', hok.keeps.trans hkeeps, hsub, herror⟩

/-- The module of a descriptor is loaded, and its thunks are filled. -/
theorem descriptor_spec {load : State → List UInt8 → Option (State × Except XTResult Loaded)}
    (hload : ∀ s p s' r, Inv W s → load s p = some (s', r) → LoadOk W s p s' r)
    (hd : Descriptor W p j d) (hinv : Inv W s)
    (hcached : ∃ mod, s.cache.modules p = some mod ∧ 1 ≤ mod.count) {sub : Loaded}
    (h : suffixLoop load s (tempPaths d.name) = some (s', .ok sub)) :
    let s'' := s'.fill p j (thunkLoop ((W.module sub.name).bind (·.exports)) sub.base
      d.originalFirstThunk 0 (s'.iat p j))
    sub.base ≠ 0 ∧ W.resolve d.name = some sub.name ∧ Inv W s'' ∧ Keeps W s s'' ∧
      Filled W s'' p j d ∧ ∃ mod, s''.cache.modules p = some mod ∧ 1 ≤ mod.count := by
  obtain ⟨hinv', hkeeps', hsub, -⟩ := suffixLoop_spec hload
    (fun q hq => Kernel.nameKey_tempPath hq) hinv h
  obtain ⟨hbase, hq⟩ := hsub sub rfl
  obtain ⟨mod, hmod, hcount⟩ := hcached
  obtain ⟨mod', hmod', hle⟩ := hkeeps'.cached p mod hmod hcount
  obtain ⟨hinv'', hkeeps'', hfilled⟩ := fill_spec hinv' hmod' hd hq rfl
  dsimp only
  rw [hbase]
  exact ⟨higherHalfMem_ne_zero _, hq, hinv'', hkeeps'.trans hkeeps'', hfilled, mod', hmod',
    hcount.trans hle⟩

theorem descriptor_drop {ds : List ImportDescriptor} (himage : W.module p = some image)
    (hds : image.descriptors.drop j = d :: ds) :
    Descriptor W p j d ∧ image.descriptors.drop (j + 1) = ds := by
  refine ⟨⟨image, himage, ?_⟩, ?_⟩
  · have hget := congrArg (·[0]?) hds
    simpa using hget
  · have hdrop := congrArg (List.drop 1) hds
    rwa [List.drop_drop, List.drop_one, List.tail_cons] at hdrop

/-- The descriptors from one on are filled one after the other. -/
theorem submodules_spec {load : State → List UInt8 → Option (State × Except XTResult Loaded)}
    (hload : ∀ s p s' r, Inv W s → load s p = some (s', r) → LoadOk W s p s' r)
    {ds : List ImportDescriptor} (himage : W.module p = some image)
    (hds : image.descriptors.drop j = ds) (hinv : Inv W s)
    (hcached : ∃ mod, s.cache.modules p = some mod ∧ 1 ≤ mod.count)
    (hbefore : ∀ j' < j, ∀ d, Descriptor W p j' d → Filled W s p j' d) {res : XTResult}
    (h : xtLoadKernelSubmodules W load p ds j s = some (s', res)) :
    Inv W s' ∧ Keeps W s s' ∧
      (res.isError = false → (∀ d ∈ ds, (W.resolve d.name).isSome) ∧
        ∀ j' d, Descriptor W p j' d → Filled W s' p j' d) ∧
      (res.isError = true → ∃ d ∈ ds, W.resolve d.name = none) := by
  induction ds generalizing s j with
  | nil =>
    obtain ⟨rfl, rfl⟩ := Prod.mk.inj (Option.some.inj h)
    refine ⟨hinv, .refl, fun _ => ⟨List.forall_mem_nil _, fun j' d hd => ?_⟩, nofun⟩
    refine hbefore j' ?_ d hd
    obtain ⟨image', himage', hget⟩ := hd
    obtain rfl := Option.some.inj (himage.symm.trans himage')
    have hlen := List.drop_eq_nil_iff.mp hds
    have hlt := (List.getElem?_eq_some_iff.mp hget).1
    omega
  | cons d ds ih =>
    obtain ⟨hd, hrest⟩ := descriptor_drop himage hds
    rw [xtLoadKernelSubmodules] at h
    cases hfirst : suffixLoop load s (tempPaths d.name) with
    | none =>
      rw [hfirst] at h
      cases h
    | some x =>
      obtain ⟨s₁, r₁⟩ := x
      obtain ⟨hinv₁, hkeeps₁, -, herror⟩ := suffixLoop_spec hload
        (fun q hq => Kernel.nameKey_tempPath hq) hinv hfirst
      rw [hfirst] at h
      cases r₁ with
      | error e =>
        obtain ⟨rfl, rfl⟩ := Prod.mk.inj (Option.some.inj h)
        exact ⟨hinv₁, hkeeps₁, nofun, fun _ => ⟨d, List.mem_cons_self, herror e rfl⟩⟩
      | ok sub =>
        obtain ⟨hne, hq, hinv₂, hkeeps₂, hfilled, hcached₂⟩ :=
          descriptor_spec hload hd hinv hcached hfirst
        dsimp only at h
        rw [if_neg hne] at h
        generalize thunkLoop ((W.module sub.name).bind (·.exports)) sub.base
          d.originalFirstThunk 0 (s₁.iat p j) = thunk at *
        obtain ⟨mod, hmod, hcount⟩ := hcached
        -- the descriptors in front stay filled, and this one is
        have hfront : ∀ j' < j + 1, ∀ d', Descriptor W p j' d' →
            Filled W (s₁.fill p j thunk) p j' d' := by
          intro j' hj' d' hd'
          by_cases hlast : j' = j
          · subst hlast
            obtain ⟨image', himage', hget⟩ := hd
            obtain ⟨image'', himage'', hget'⟩ := hd'
            obtain rfl := Option.some.inj (himage'.symm.trans himage'')
            obtain rfl := Option.some.inj (hget.symm.trans hget')
            exact hfilled
          · exact hkeeps₂.filled p mod hmod hcount j' d' hd'
              (hbefore j' (by omega) d' hd')
        obtain ⟨hinv', hkeeps', hok, herror'⟩ := ih hrest hinv₂ hcached₂ hfront h
        refine ⟨hinv', hkeeps₂.trans hkeeps', fun hres => ?_, fun hres => ?_⟩
        · obtain ⟨hall, hfill⟩ := hok hres
          refine ⟨List.forall_mem_cons.mpr ⟨?_, hall⟩, hfill⟩
          rw [hq]
          rfl
        · obtain ⟨d', hd', hnone⟩ := herror' hres
          exact ⟨d', List.mem_cons_of_mem _ hd', hnone⟩

/-- **A load** keeps what is in use and fills the tables of its image, or it fails because something
    is missing. -/
theorem load_spec {fuel : ℕ} {filename : List UInt8} (hinv : Inv W s)
    (h : xtLoadKernelModule W fuel s filename = some (s', r)) : LoadOk W s filename s' r := by
  induction fuel generalizing s s' filename r with
  | zero => cases h
  | succ fuel ih =>
    rw [xtLoadKernelModule] at h
    rcases hget : xtGetOrLoadPhysicalModule W s filename with ⟨s₁, res⟩
    obtain ⟨hok₁, herror₁⟩ := getOrLoad_spec hinv hget
    rw [hget] at h
    cases res with
    | error e =>
      obtain ⟨rfl, rfl⟩ := Prod.mk.inj (Option.some.inj h)
      obtain ⟨rfl, he, hnone⟩ := herror₁ e rfl
      refine ⟨hinv, .refl, fun sub hsub => (by cases hsub), fun e' he' => ?_⟩
      obtain rfl := Except.error.inj he'
      refine ⟨he, fun hkey havailable => ?_⟩
      obtain ⟨image, himage, -⟩ := available_iff.mp havailable
      rw [hnone hkey] at himage
      cases himage
    | ok mod =>
      obtain ⟨⟨⟨image, himage, -⟩, -, hphysical⟩, hinv₁, hkeeps₁, mod₁, hmod₁, hcount₁, htaken⟩ :=
        hok₁ mod rfl
      have hdescriptors : W.descriptors (nameKey filename) = image.descriptors := by
        rw [ImageWorld.descriptors, himage]
      dsimp only at h
      rw [hdescriptors] at h
      cases hsub : xtLoadKernelSubmodules W (xtLoadKernelModule W fuel) (nameKey filename)
          image.descriptors 0 s₁ with
      | none =>
        rw [hsub] at h
        cases h
      | some x =>
        obtain ⟨s₂, subRes⟩ := x
        obtain ⟨hinv₂, hkeeps₂, hfill, hmissing⟩ := submodules_spec
          (fun s p s' r hinv hr => ih hinv hr) himage List.drop_zero hinv₁ ⟨mod₁, hmod₁, hcount₁⟩
          (fun j' hj' => absurd hj' (Nat.not_lt_zero j')) hsub
        rw [hsub] at h
        dsimp only at h
        split_ifs at h with hfailed
        · -- a reference is dropped
          obtain ⟨rfl, rfl⟩ := Prod.mk.inj (Option.some.inj h)
          obtain ⟨hinv', hkeeps'⟩ := decrement_spec hinv hinv₂ (hkeeps₁.trans hkeeps₂) hmod₁ hcount₁
            htaken hkeeps₂
          refine ⟨hinv', hkeeps', fun sub hsub' => (by cases hsub'), fun e he => ?_⟩
          obtain rfl := Except.error.inj he
          refine ⟨hfailed, fun hkey havailable => ?_⟩
          obtain ⟨d, hd, hnone⟩ := hmissing hfailed
          obtain ⟨image', himage', hall⟩ := available_iff.mp havailable
          rw [hkey] at himage
          obtain rfl := Option.some.inj (himage.symm.trans himage')
          have hresolve := hall d hd
          rw [hnone] at hresolve
          cases hresolve
        · obtain ⟨mod₂, hmod₂, hle₂⟩ := hkeeps₂.cached _ mod₁ hmod₁ hcount₁
          obtain ⟨hall, hfilled⟩ := hfill (by simpa using hfailed)
          have havailable : Available W (nameKey filename) :=
            available_iff.mpr ⟨image, himage, hall⟩
          rw [Cache.find, hmod₂] at h
          obtain ⟨rfl, rfl⟩ := Prod.mk.inj (Option.some.inj h)
          obtain ⟨mod₃, hmodules, hcount₃, hfile₃, hphysical₃⟩ :=
            finishModule_modules s₂.cache filename mod₂
          have hrecord₂ := hinv₂.found _ mod₂ hmod₂
          have hold : ∀ mod₀, s₂.cache.modules (nameKey filename) = some mod₀ →
              mod₀.count ≤ mod₃.count := by
            intro mod₀ h₀
            obtain rfl := Option.some.inj (hmod₂.symm.trans h₀)
            exact hcount₃.ge
          have hgone : s₂.cache.modules (nameKey filename) = none →
              s₂.iat (nameKey filename) = W.fileIat (nameKey filename) := by
            intro hnone
            rw [hmod₂] at hnone
            cases hnone
          have hmodules' : (State.mk (finishModule s₂.cache filename mod₂) s₂.iat).cache.modules =
              Function.update s₂.cache.modules (nameKey filename) (some mod₃) := hmodules
          obtain ⟨hinv₃, hkeeps₃⟩ := set_spec hinv₂ hmodules'
            (hrecord₂.congr hfile₃ hphysical₃) hold (fun _ _ _ => rfl) hgone
          refine ⟨hinv₃, (hkeeps₁.trans hkeeps₂).trans hkeeps₃, fun sub hsub' => ?_,
            fun e he => by cases he⟩
          obtain rfl := Except.ok.inj hsub'
          exact ⟨by rw [hrecord₂.physical]; rfl, rfl, havailable, hfilled⟩

/-! ### Loads that end -/

section upTo

variable {α : Type*} {stop : α → Prop} {a b : α} {l : List α}

theorem mem_upTo_self : a ∈ upTo stop (a :: l) := by
  rw [upTo]
  exact List.mem_cons_self

theorem mem_upTo_cons (ha : ¬ stop a) (hb : b ∈ upTo stop l) : b ∈ upTo stop (a :: l) := by
  rw [upTo, if_neg ha]
  exact List.mem_cons_of_mem _ hb

/-- An element that is looked at is the first one, or the first one does not stop the search. -/
theorem mem_upTo (hb : b ∈ upTo stop (a :: l)) : b = a ∨ ¬ stop a ∧ b ∈ upTo stop l := by
  rw [upTo] at hb
  obtain rfl | hb := List.mem_cons.mp hb
  · exact .inl rfl
  · split_ifs at hb with ha
    · exact absurd hb List.not_mem_nil
    · exact .inr ⟨ha, hb⟩

theorem mem_of_mem_upTo (hb : b ∈ upTo stop l) : b ∈ l := by
  induction l with
  | nil => exact hb
  | cons a l ih =>
    obtain rfl | ⟨-, hb⟩ := mem_upTo hb
    · exact List.mem_cons_self
    · exact List.mem_cons_of_mem _ (ih hb)

end upTo

section ends

variable {load : State → List UInt8 → Option (State × Except XTResult Loaded)}

/-- A loop over paths returns if the loads of the paths that it comes to do. -/
theorem suffixLoop_returns
    (hload : ∀ s p s' r, Inv W s → load s p = some (s', r) → LoadOk W s p s' r)
    {paths : List (List UInt8)} (hkeys : ∀ p ∈ paths, nameKey p = p)
    (hreturns : ∀ q ∈ upTo (Available W) paths, ∀ s, Inv W s → (load s q).isSome)
    (hinv : Inv W s) : (suffixLoop load s paths).isSome := by
  induction paths generalizing s with
  | nil => rfl
  | cons p paths ih =>
    obtain ⟨⟨s₁, r₁⟩, hfirst⟩ :=
      Option.isSome_iff_exists.mp (hreturns p mem_upTo_self s hinv)
    have hok := hload s p s₁ r₁ hinv hfirst
    rw [suffixLoop, hfirst]
    cases r₁ with
    | ok sub => rfl
    | error e =>
      have hmiss := (hok.error e rfl).2 (hkeys p List.mem_cons_self)
      exact ih (fun q hq => hkeys q (List.mem_cons_of_mem _ hq))
        (fun q hq => hreturns q (mem_upTo_cons hmiss hq)) hok.inv

/-- A loop over descriptors returns if the loads of the paths that it comes to do. -/
theorem submodules_returns
    (hload : ∀ s p s' r, Inv W s → load s p = some (s', r) → LoadOk W s p s' r)
    {ds : List ImportDescriptor} (himage : W.module p = some image)
    (hds : image.descriptors.drop j = ds) (hinv : Inv W s)
    (hcached : ∃ mod, s.cache.modules p = some mod ∧ 1 ≤ mod.count)
    (hreturns : ∀ d ∈ upTo W.Lacks ds,
      ∀ q ∈ upTo (Available W) (tempPaths d.name), ∀ s, Inv W s → (load s q).isSome) :
    (xtLoadKernelSubmodules W load p ds j s).isSome := by
  induction ds generalizing s j with
  | nil => rfl
  | cons d ds ih =>
    obtain ⟨hd, hrest⟩ := descriptor_drop himage hds
    obtain ⟨⟨s₁, r₁⟩, hfirst⟩ := Option.isSome_iff_exists.mp
      (suffixLoop_returns hload (fun q hq => Kernel.nameKey_tempPath hq)
        (hreturns d mem_upTo_self) hinv)
    rw [xtLoadKernelSubmodules, hfirst]
    cases r₁ with
    | error e => rfl
    | ok sub =>
      obtain ⟨hne, hq, hinv₂, -, -, hcached₂⟩ := descriptor_spec hload hd hinv hcached hfirst
      have hresolve : ¬ W.Lacks d := by
        rw [ImageWorld.Lacks, hq]
        exact Option.some_ne_none _
      dsimp only
      rw [if_neg hne]
      exact ih hrest hinv₂ hcached₂ fun d' hd' => hreturns d' (mem_upTo_cons hresolve hd')

end ends

theorem Tries.nameKey (h : Tries W p q) : nameKey q = q := by
  obtain ⟨_, _, _, _, hq⟩ := h
  exact Kernel.nameKey_tempPath (mem_of_mem_upTo hq)

/-- A load returns, with enough fuel, if no chain of loads goes on for ever. -/
theorem Ends.returns (h : Ends W p) : nameKey p = p →
    ∀ᶠ fuel in Filter.atTop, ∀ s, Inv W s → (xtLoadKernelModule W fuel s p).isSome := by
  induction h with
  | intro p _ ih =>
    intro hkey
    have hfinite : {q | Tries W p q}.Finite := by
      cases himage : W.module p with
      | none =>
        refine Set.finite_empty.subset fun q hq => ?_
        obtain ⟨image, himage', -⟩ := hq
        rw [himage] at himage'
        cases himage'
      | some image =>
        refine (List.finite_toSet (image.descriptors.flatMap fun d => tempPaths d.name)).subset
          fun q hq => ?_
        obtain ⟨image', himage', d, hd, hq⟩ := hq
        obtain rfl := Option.some.inj (himage.symm.trans himage')
        exact List.mem_flatMap.mpr ⟨d, mem_of_mem_upTo hd, mem_of_mem_upTo hq⟩
    have htried : ∀ᶠ fuel in Filter.atTop, ∀ q ∈ {q | Tries W p q}, ∀ s, Inv W s →
        (xtLoadKernelModule W fuel s q).isSome :=
      (Filter.eventually_all_finite hfinite).mpr fun q hq => ih q hq hq.nameKey
    obtain ⟨n, hn⟩ := Filter.eventually_atTop.mp htried
    refine Filter.eventually_atTop.mpr ⟨n + 1, fun fuel hfuel s hinv => ?_⟩
    obtain ⟨fuel, rfl⟩ := Nat.exists_eq_add_one.mpr (show 0 < fuel by omega)
    rw [xtLoadKernelModule]
    rcases hget : xtGetOrLoadPhysicalModule W s p with ⟨s₁, e | mod⟩
    · rfl
    obtain ⟨⟨⟨image, himage, -⟩, -, -⟩, hinv₁, -, mod₁, hmod₁, hcount₁, -⟩ :=
      (getOrLoad_spec hinv hget).1 mod rfl
    have hdescriptors : W.descriptors (nameKey p) = image.descriptors := by
      rw [ImageWorld.descriptors, himage]
    obtain ⟨⟨s₂, subRes⟩, hsub⟩ := Option.isSome_iff_exists.mp (submodules_returns
      (fun s q s' r hinv hr => load_spec hinv hr) himage List.drop_zero hinv₁
      ⟨mod₁, hmod₁, hcount₁⟩ fun d hd q hq =>
        hn fuel (by omega) q ⟨image, by rwa [hkey] at himage, d, hd, hq⟩)
    dsimp only
    rw [hdescriptors, hsub]
    dsimp only
    split_ifs
    · rfl
    · split <;> rfl

/-- What is left of the outcome of a load without the tables. -/
def forget (x : State × Except XTResult Loaded) : Cache × Except XTResult ℕ :=
  (x.1.cache, x.2.map Loaded.base)

section cache

variable {load : State → List UInt8 → Option (State × Except XTResult Loaded)}
  {load' : Cache → List UInt8 → Option (Cache × Except XTResult ℕ)}

theorem getOrLoad_cache (s : State) (filename : List UInt8) :
    ((xtGetOrLoadPhysicalModule W s filename).1.cache,
        (xtGetOrLoadPhysicalModule W s filename).2) =
      Kernel.xtGetOrLoadPhysicalModule W.toWorld s.cache filename := by
  rw [xtGetOrLoadPhysicalModule]
  rcases Kernel.xtGetOrLoadPhysicalModule W.toWorld s.cache filename with ⟨cache, e | mod⟩
  · rfl
  · dsimp only
    split_ifs <;> rfl

theorem suffixLoop_cache (hload : ∀ s p s' r, Inv W s → load s p = some (s', r) → LoadOk W s p s' r)
    (hcache : ∀ s p, Inv W s → (load s p).map forget = load' s.cache p) (hinv : Inv W s)
    (paths : List (List UInt8)) :
    (suffixLoop load s paths).map forget = Kernel.suffixLoop load' s.cache paths := by
  induction paths generalizing s with
  | nil => rfl
  | cons p paths ih =>
    rw [suffixLoop, Kernel.suffixLoop, ← hcache s p hinv]
    cases hfirst : load s p with
    | none => rfl
    | some x =>
      obtain ⟨s₁, e | sub⟩ := x
      · exact ih (hload s p s₁ _ hinv hfirst).inv
      · rfl

theorem submodules_cache (hload : ∀ s p s' r, Inv W s → load s p = some (s', r) → LoadOk W s p s' r)
    (hcache : ∀ s p, Inv W s → (load s p).map forget = load' s.cache p)
    {ds : List ImportDescriptor} (himage : W.module p = some image)
    (hds : image.descriptors.drop j = ds) (hinv : Inv W s)
    (hcached : ∃ mod, s.cache.modules p = some mod ∧ 1 ≤ mod.count) :
    (xtLoadKernelSubmodules W load p ds j s).map (fun x => (x.1.cache, x.2)) =
      Kernel.xtLoadKernelSubmodules load' s.cache (ds.map ImportDescriptor.name) := by
  induction ds generalizing s j with
  | nil => rfl
  | cons d ds ih =>
    obtain ⟨hd, hrest⟩ := descriptor_drop himage hds
    rw [xtLoadKernelSubmodules, List.map_cons, Kernel.xtLoadKernelSubmodules,
      ← suffixLoop_cache hload hcache hinv]
    cases hfirst : suffixLoop load s (tempPaths d.name) with
    | none => rfl
    | some x =>
      obtain ⟨s₁, e | sub⟩ := x
      · rfl
      · obtain ⟨hne, -, hinv₂, -, -, hcached₂⟩ := descriptor_spec hload hd hinv hcached hfirst
        have hsame := ih hrest hinv₂ hcached₂
        dsimp only [Option.map_some, forget, Except.map]
        rw [if_neg hne, if_neg hne]
        exact hsame

end cache

/-- **The loader** does with the list of modules what the loader without tables does. -/
theorem load_cache (hinv : Inv W s) (fuel : ℕ) (filename : List UInt8) :
    (xtLoadKernelModule W fuel s filename).map forget =
      Kernel.xtLoadKernelModule W.toWorld fuel s.cache filename := by
  induction fuel generalizing s filename with
  | zero => rfl
  | succ fuel ih =>
    rw [xtLoadKernelModule, Kernel.xtLoadKernelModule, ← getOrLoad_cache]
    rcases hget : xtGetOrLoadPhysicalModule W s filename with ⟨s₁, e | mod⟩
    · rfl
    · obtain ⟨hok₁, -⟩ := getOrLoad_spec hinv hget
      obtain ⟨⟨⟨image, himage, hfile⟩, -, -⟩, hinv₁, -, mod₁, hmod₁, hcount₁, -⟩ := hok₁ mod rfl
      have hdescriptors : W.descriptors (nameKey filename) = image.descriptors := by
        rw [ImageWorld.descriptors, himage]
      have himports : mod.file.imports = image.descriptors.map ImportDescriptor.name := by
        rw [hfile]
        rfl
      have hsub := submodules_cache (fun s p s' r hinv hr => load_spec hinv hr)
        (fun s p hinv => ih hinv p) himage List.drop_zero hinv₁ ⟨mod₁, hmod₁, hcount₁⟩
      dsimp only
      rw [hdescriptors, himports, ← hsub]
      cases xtLoadKernelSubmodules W (xtLoadKernelModule W fuel) (nameKey filename)
          image.descriptors 0 s₁ with
      | none => rfl
      | some x =>
        obtain ⟨s₂, subRes⟩ := x
        dsimp only [Option.map_some]
        split_ifs
        · rfl
        · cases s₂.cache.find filename with
          | none => rfl
          | some mod => rfl

/-! ### Sequences of loads -/

/-- A thunk that is fine names an export. -/
theorem Fine.exports {t : Thunk} (h : Fine W d i q image t) : ∃ rva, image.Exports rva t := by
  cases t with
  | ordinal n => exact h.imp fun _ h => h.1
  | byName name => exact h.imp fun _ h => h.1

end XTOS.Linker.Thunks

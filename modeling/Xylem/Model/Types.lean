import Mathlib.Algebra.Group.Nat.Defs
import Mathlib.Data.List.AList
import Mathlib.Data.Finset.Basic
import Mathlib.Logic.Function.Basic

/-!
# Data model of the runtime

The structures of `papi.h` and the process-wide state of `libxylem-internal.h`.
A pointer is the number of its allocation, so a freed object never comes back
under its old pointer; the machine address, which the allocator may hand out
again, is kept beside it in `Runtime.addr` and is what `==` on pointers compares.
Interned paths are compared as strings, which is what interning is for.
-/
namespace Xylem

abbrev RegionId := BitVec 64
abbrev RegionPtr := Nat
abbrev EntryPtr := Nat
abbrev CtxPtr := Nat
abbrev AdapterPtr := Nat
abbrev BufPtr := Nat
abbrev StatePtr := Nat
abbrev HandlerPtr := Nat
abbrev Addr := Nat
abbrev Bytes := List UInt8

def xyOk : Int := 0
def xyErrNotFound : Int := -1
def xyErrInvalid : Int := -2
def xyErrTooBig : Int := -3
def xyErrEperm : Int := -5
def xyMaxRetSize : Nat := 4096

def xyRegionRoot : RegionId := 0
def xyRegionInvalid : RegionId := -1

inductive DenyType where
  | hook
  | module
  deriving DecidableEq, Repr

/-- An image mapped by `dlopen`: the file itself (`copy = 0`), or the
`copy`-th temporary copy that a reload made of it. -/
structure ImageId where
  path : String
  copy : Nat
  deriving DecidableEq, Repr

structure Fn where
  image : ImageId
  name : String
  deriving DecidableEq, Repr

/-- One `fn_cache` cell: `NULL`, `XY_FN_NOT_FOUND`, or a function. -/
inductive FnSlot where
  | null
  | notFound
  | fn (f : Fn)
  deriving DecidableEq, Repr

structure Slot where
  me : EntryPtr
  cb : FnSlot
  deriving DecidableEq, Repr

/-- `xy_hook_dispatch_cache_t`. `slots` is the memory written so far, of which
`count` cells are in use; `block` tells one allocation of it from the next. -/
structure HookDispatchCache where
  slots : List Slot := []
  count : Nat := 0
  cap : Nat := 0
  regionGen : BitVec 64 := 0
  block : Nat := 0
  deriving DecidableEq, Repr

/-- What the claims fix about a region: its prefix and its place in the tree. -/
structure RegionShape where
  id : RegionId := 0
  depth : UInt8 := 0
  plen : UInt8 := 0
  childBits : UInt8 := 0
  parent : Option RegionPtr := none
  /-- the `children_head` / `sibling_next` chain, newest first -/
  children : List RegionPtr := []
  deriving DecidableEq, Repr

/-- The shape with the region's rules: denies, their cached flag, the claim gate. -/
structure RegionNode extends RegionShape where
  deniedHooks : List String := []
  deniedModules : List String := []
  deniedHooksSet : Finset String := ∅
  deniedModulesSet : Finset String := ∅
  /-- `subtree_flags & XY_SUBTREE_HAS_DENY`, the only bit of that byte in use -/
  hasDeny : Bool := false
  claimHandler : Option HandlerPtr := none
  claimHandlerUd : Nat := 0
  requireClaim : Bool := false
  deriving DecidableEq

structure RegionEntry extends RegionNode where
  modsHead : Option EntryPtr := none
  modsTail : Option EntryPtr := none
  subtreeMods : List EntryPtr := []
  subtreeModsDirty : Bool := false
  dispatchGen : BitVec 64 := 1
  hookDispatch : Nat → HookDispatchCache := fun _ => {}

/-- Key of `mod_hd`: resolved path and region. The string that the code makes of it holds 15 of
the 16 hex digits of the region, so these keys are its keys while ids have 60 bits at most. -/
structure ModKey where
  path : String
  region : RegionId
  deriving DecidableEq, Repr

structure ModEntry where
  ctx : Option CtxPtr := none
  regionNext : Option EntryPtr := none
  regionPrev : Option EntryPtr := none
  fnCache : Nat → FnSlot := fun _ => .null
  hookImplBits : Nat → Bool := fun _ => false
  regionState : Option StatePtr := none
  loadPath : String
  handle : ImageId
  regionEntry : Option RegionPtr := none
  regionId : RegionId
  refcount : Int := 1
  parentEntry : Option EntryPtr := none
  modKey : ModKey
  tmpLoadPath : Option ImageId := none

/-- A C string that somebody else may have freed. -/
inductive CStr where
  | null
  | str (s : String)
  | freed
  deriving DecidableEq, Repr

/-- The fields of `xy_t` that change after `_xy_init` filled in the table. -/
structure Ctx where
  modulePath : CStr := .null
  regionId : RegionId := 0
  adapter : Option AdapterPtr := none
  regionState : Option StatePtr := none
  deriving DecidableEq, Repr

/-- The macro that has generated an `*_adapter_call`: `XY_DEF` and `XY_IMPL` in C, and in
Rust `#[xy_impl]`, whose code names the listener it stands beside, and `#[xy_decl]`. -/
inductive TrampolineKind where
  | xyDef
  | xyImpl
  | rustImpl (listener : Fn)
  | rustDecl
  deriving DecidableEq, Repr

/-- A generated `*_adapter_call`, with the `sizeof` of its return type. -/
structure Trampoline where
  retSize : Nat
  kind : TrampolineKind := .xyImpl
  deriving DecidableEq, Repr

/-- `xy_adapter_t`; `hookId = none` is the unresolved `-1`. -/
structure Adapter where
  name : String
  argSize : Nat := 0
  retSize : Nat := 0
  call : Option Trampoline := none
  hookId : Option Nat := none
  deriving DecidableEq, Repr

inductive LastRet where
  | null
  | caller (b : BufPtr)
  | retbuf
  deriving DecidableEq, Repr

/-- What a shared object offers to the loader. -/
structure Image where
  /-- whether `dlsym` finds the symbol -/
  exports : String → Bool
  /-- what `get_xy_ptr` returns, when it is exported -/
  getXyPtr : Option CtxPtr := none
  /-- value of the data symbol `xy_claim`, when it is exported -/
  xyClaim : UInt8 := 0
  /-- what `xy_region_state_size` returns, when it is exported -/
  regionStateSize : Nat := 0

/-- `mod_by_region_hd`, a map with several values to a key. -/
abbrev RegionIndex := List (RegionId × EntryPtr)

/-- Everything outside the library. Files do not change while it runs; the
iteration order of a map and the pair that deleting from a multimap drops
are unknown, up to the laws given with them. -/
structure Env where
  /-- `module_load_path` -/
  moduleLoadPath : String → String
  /-- what opening the image yields, if it can be opened -/
  dlopen : ImageId → Option Image
  /-- the order in which `qmap_iter` visits the values of `mod_hd` -/
  iterOrder : List EntryPtr → List EntryPtr
  iterOrder_perm : ∀ l, (iterOrder l).Perm l
  /-- `qmap_del` on a `QM_MULTIVALUE` map -/
  qmapDel : RegionIndex → RegionId → RegionIndex
  qmapDel_sublist : ∀ m k, (qmapDel m k).Sublist m
  qmapDel_other : ∀ m k x, x ∈ m → x.1 ≠ k → x ∈ qmapDel m k
  qmapDel_drops : ∀ m k x, x ∈ m → x.1 = k → (qmapDel m k).length < m.length

namespace Env

/-- `dlsym` on an image; handles stay valid because of `RTLD_NODELETE`. -/
def dlsym (E : Env) (h : ImageId) (name : String) : Option Fn :=
  match E.dlopen h with
  | some im => if im.exports name then some ⟨h, name⟩ else none
  | none => none

/-- What `get_xy_ptr` of the image returns, if it is there. -/
def getXyPtr (E : Env) (h : ImageId) : Option CtxPtr :=
  match E.dlopen h with
  | some im => if im.exports "get_xy_ptr" then im.getXyPtr else none
  | none => none

/-- The data symbol `xy_claim` of the image, if it is there. -/
def xyClaim (E : Env) (h : ImageId) : Option UInt8 :=
  match E.dlopen h with
  | some im => if im.exports "xy_claim" then some im.xyClaim else none
  | none => none

def regionStateSize (E : Env) (h : ImageId) : Nat :=
  match E.dlopen h with
  | some im => if im.exports "xy_region_state_size" then im.regionStateSize else 0
  | none => 0

end Env

/-- The runtime: heap, tables, process-wide and thread-local variables. -/
structure Runtime where
  entries : EntryPtr → Option ModEntry := fun _ => none
  /-- the next allocation of a module entry -/
  entryNext : EntryPtr := 0
  /-- the address an allocation was given -/
  addr : EntryPtr → Addr := fun _ => 0
  regions : RegionPtr → RegionEntry := fun _ => {}
  regionNext : RegionPtr := 1
  stateNext : StatePtr := 0
  ctxs : CtxPtr → Ctx := fun _ => {}
  adapters : AdapterPtr → Adapter
  bufs : BufPtr → Bytes := fun _ => []
  modHd : AList (fun _ : ModKey => EntryPtr) := ∅
  modByRegionHd : RegionIndex := []
  regionHd : RegionId → Option RegionPtr := fun id => if id = xyRegionRoot then some 0 else none
  sicaHd : String → Option AdapterPtr := fun _ => none
  hookIdHd : AList (fun _ : String => Nat) := ∅
  hookIdCounter : Nat := 0
  adapterById : Nat → Option AdapterPtr := fun _ => none
  adapterByIdCap : Nat := 0
  modCount : Int := 0
  reloading : Bool := false
  errVal : Int := xyOk
  adapter : Option AdapterPtr := none
  currentRegionId : RegionId := xyRegionRoot
  currentRegionEntry : Option RegionPtr := some 0
  loadingMod : Option EntryPtr := none
  pendingCtx : Option CtxPtr := none
  lastRan : Nat := 0
  lastRetp : LastRet := .null
  lastRetbuf : Bytes := List.replicate xyMaxRetSize 0
  /-- `dlopen` references held on each image -/
  dlRefs : ImageId → Int := fun _ => 0
  /-- the number the next temporary copy gets, and the copies still on disk -/
  copyNext : Nat := 1
  tmpFiles : List ImageId := []
  /-- history: how often `dlclose` or `unlink` found nothing to release -/
  badReleases : Nat := 0
  /-- history: the state blocks freed, each with the `xy_region_cleanup` called on it -/
  cleanups : List (StatePtr × Option Fn) := []
  /-- history: how often `region_dispatch_gen_bump` has run -/
  genBumps : Nat := 0

/-- Why an execution has no defined continuation. -/
inductive Fault where
  /-- a freed or moved object is accessed -/
  | useAfterFree
  /-- a marker value is called as a function -/
  | wildCall
  /-- the recursion or loop did not end within the fuel it was given -/
  | divergence
  /-- the environment's choice is not one it has -/
  | refused
  deriving DecidableEq, Repr

/-- Computations of the library: a result, or the reason there is none. -/
abbrev Res := Except Fault

theorem Res.bind_ok {α β : Type} {x : Res α} {f : α → Res β} {b : β} :
    (x >>= f) = .ok b ↔ ∃ a, x = .ok a ∧ f a = .ok b := by
  cases x with
  | error e => simp [bind, Except.bind]
  | ok a => simp [bind, Except.bind]

theorem Res.map_ok {α β : Type} {x : Res α} {f : α → β} {b : β} :
    x.map f = .ok b ↔ ∃ a, x = .ok a ∧ f a = b := by
  cases x with
  | error e => simp [Except.map]
  | ok a => simp [Except.map]

namespace Runtime

def deref (s : Runtime) (p : EntryPtr) : Res ModEntry :=
  match s.entries p with
  | some e => .ok e
  | none => .error .useAfterFree

def setEntry (s : Runtime) (p : EntryPtr) (e : Option ModEntry) : Runtime :=
  { s with entries := Function.update s.entries p e }

def store (s : Runtime) (p : EntryPtr) (f : ModEntry → ModEntry) : Res Runtime := do
  let e ← s.deref p
  .ok (s.setEntry p (some (f e)))

def setRegion (s : Runtime) (r : RegionPtr) (f : RegionEntry → RegionEntry) : Runtime :=
  { s with regions := Function.update s.regions r (f (s.regions r)) }

def setCtx (s : Runtime) (c : CtxPtr) (f : Ctx → Ctx) : Runtime :=
  { s with ctxs := Function.update s.ctxs c (f (s.ctxs c)) }

def setErr (s : Runtime) (e : Int) : Runtime := { s with errVal := e }

/-- The values of `mod_hd`, in the order its iterator gives them. -/
def modEntries (E : Env) (s : Runtime) : List EntryPtr :=
  E.iterOrder (s.modHd.entries.map (·.2))

/-- One pass over `mod_hd` that rewrites each entry it visits. The table names live entries. -/
def mapEntries (s : Runtime) (l : List EntryPtr) (f : ModEntry → ModEntry) : Runtime :=
  { s with entries := fun p => if p ∈ l then (s.entries p).map f else s.entries p }

def setCurrentRegion (s : Runtime) (id : RegionId) (entry : Option RegionPtr) : Runtime :=
  { s with currentRegionId := id, currentRegionEntry := entry }

end Runtime
end Xylem

import Xylem.Model.Unload

/-!
# Loading and reloading

`_mod_load` up to the point where it hands control to `xy_install`, and what
happens when `xy_install` returns. Constructors run inside `dlopen`, before the
load has changed anything, so their `xy_areg` and `xy_self_init_ctx` calls are
steps of their own ahead of the load. A claim handler answers without calling
back into the library.
-/
namespace Xylem

/-- What the outside contributes to one load. -/
structure LoadChoice where
  /-- a reload's temporary copy could be made -/
  copied : Bool := true
  /-- there was memory for the name of that copy -/
  named : Bool := true
  /-- one of the string, key or entry allocations failed -/
  noMem : Bool := false
  /-- address of the new entry -/
  addr : Addr := 0
  /-- the claim handler's return value and the width it grants -/
  handlerRet : Int := xyOk
  granted : UInt8 := 0
  deriving DecidableEq, Repr

/-- A call of a claim handler: the caller's name, the width asked for, the user data. -/
structure ClaimCall where
  handler : HandlerPtr
  caller : String
  bits : UInt8
  ud : Nat
  deriving DecidableEq, Repr

/-- What `xy_reload` remembers across the load inside it. -/
structure ReloadFrame where
  fname : String
  regionId : RegionId
  insertAfter : Option EntryPtr
  regionEntry : Option RegionPtr
  deriving DecidableEq, Repr

/-- What `_mod_load` remembers while `xy_install` runs. -/
structure LoadFrame where
  modEntry : EntryPtr
  prevRegionId : RegionId
  prevRegionEntry : Option RegionPtr
  prevLoadingMod : Option EntryPtr
  reload : Option ReloadFrame
  deriving DecidableEq, Repr

/-- The transaction record `xy_load_txn_t` once the entry exists. -/
structure LoadTxn where
  fname : String
  entry : EntryPtr
  handle : ImageId
  regionId : RegionId
  prevRegionEntry : Option RegionPtr
  deriving DecidableEq, Repr

/-- How the library function on top ends for now: it returns an error code,
or it calls out and waits. -/
inductive Outcome (α : Type) where
  | done (ret : Int)
  | wait (frame : α)
  deriving DecidableEq, Repr

namespace Runtime

def clearPendingCtx (s : Runtime) : Runtime := { s with pendingCtx := none }

/-- `_xy_init`: the mutable fields of the module's context. -/
def xyInitCtx (s : Runtime) (c : CtxPtr) (fname : String) (region : RegionId) : Runtime :=
  s.setCtx c fun x => { x with modulePath := .str fname, regionId := region }

/-- What `dlopen` gives for `NULL`: the main program. -/
def mainImage : ImageId := ⟨"", 0⟩

/-- The image `mod_load_open_handle` opens, and the copy it made for it. -/
def modLoadImage (s : Runtime) (path : String) (ch : LoadChoice) : ImageId × Option ImageId :=
  if s.reloading && ch.copied then
    let t : ImageId := ⟨path, s.copyNext⟩
    -- `copy_one` has succeeded also when its `strdup` has not
    if ch.named then (t, some t) else (mainImage, none)
  else (⟨path, 0⟩, none)

def copyToTmp (s : Runtime) (path : String) (ch : LoadChoice) : Runtime :=
  if s.reloading && ch.copied then
    { s with copyNext := s.copyNext + 1, tmpFiles := ⟨path, s.copyNext⟩ :: s.tmpFiles }
  else s

def modLoadOpenHandle (E : Env) (s : Runtime) (path : String) (ch : LoadChoice) :
    Runtime × Option (ImageId × Option ImageId) :=
  let (h, tmp) := s.modLoadImage path ch
  let s := s.copyToTmp path ch
  match E.dlopen h with
  | none => (s.unlinkTmp tmp, none)
  | some _ => ({ s with dlRefs := Function.update s.dlRefs h (s.dlRefs h + 1) }, some (h, tmp))

/-- `mod_load_alloc_entry` and `mod_load_publish_entry`. -/
def modLoadPublishEntry (s : Runtime) (key : ModKey) (h : ImageId) (tmp : Option ImageId)
    (addr : Addr) : Runtime :=
  let p := s.entryNext
  let s := s.setEntry p (some
    { handle := h, regionId := key.region, parentEntry := s.loadingMod, modKey := key,
      loadPath := key.path, tmpLoadPath := tmp })
  { s with
    entryNext := p + 1
    addr := Function.update s.addr p addr
    modHd := s.modHd.insert key p
    modByRegionHd := s.modByRegionHd ++ [(key.region, p)] }

/-- The context of the image if it has one, else the one a constructor left. -/
def modLoadCtx (E : Env) (s : Runtime) (h : ImageId) : Option CtxPtr :=
  E.getXyPtr h <|> s.pendingCtx

def modLoadBindXy (E : Env) (s : Runtime) (tx : LoadTxn) : Res Runtime :=
  let ctx := s.modLoadCtx E tx.handle
  let s := s.clearPendingCtx
  match ctx with
  | none => .ok s
  | some c => (s.xyInitCtx c tx.fname tx.regionId).store tx.entry fun e => { e with ctx := some c }

def xyClaimForLoad (E : Env) (s : Runtime) (caller : String) (parentId : RegionId)
    (bits : UInt8) (ch : LoadChoice) : Res (Runtime × Int) :=
  if bits = 0 ∨ 64 < bits then .ok (s.setErr xyErrInvalid, xyErrInvalid)
  else
    match s.regionLookup parentId with
    | none => .ok (s.setErr xyErrNotFound, xyErrNotFound)
    | some parent =>
        if (s.regions parent).claimHandler.isNone then .ok (s.setErr xyErrEperm, xyErrEperm)
        else if ch.handlerRet ≠ xyOk then .ok (s.setErr xyErrEperm, xyErrEperm)
        else if ch.granted = 0 ∨ 64 < ch.granted then .ok (s.setErr xyErrEperm, xyErrEperm)
        else
          let childId := s.regionAllocSlot parent ch.granted
          if childId = xyRegionInvalid then .ok (s.setErr xyErrTooBig, xyErrTooBig)
          else do
            let child := s.regionNext
            let s := s.regionCreateChild parent childId ch.granted
            let s := s.setCurrentRegion childId (some child)
            let s ← s.moduleRekeyForClaim E caller parentId childId
            .ok (s.setErr xyOk, xyOk)

def modLoadClaimIfNeeded (E : Env) (s : Runtime) (tx : LoadTxn) (ch : LoadChoice) :
    Res (Runtime × Int) :=
  match s.regionLookup tx.regionId, E.xyClaim tx.handle with
  | some r, none => .ok (s, if (s.regions r).requireClaim then xyErrEperm else xyOk)
  | none, _ => .ok (s, xyOk)
  | some r, some bits =>
      if (s.regions r).claimHandler.isNone && !(s.regions r).requireClaim then .ok (s, xyOk)
      else s.xyClaimForLoad E tx.fname tx.regionId bits ch

def modLoadRestoreContext (s : Runtime) (tx : LoadTxn) : Runtime :=
  s.setCurrentRegion tx.regionId tx.prevRegionEntry

/-- The strings of a failed load are freed, also the one its context points to. -/
def freeStableFname (s : Runtime) (ctx : Option CtxPtr) : Runtime :=
  match ctx with
  | some c => s.setCtx c fun x => { x with modulePath := .freed }
  | none => s

/-- Taking the entry of a failed load off the region list again. -/
def modLoadUnlist (s : Runtime) (e : ModEntry) : Res Runtime :=
  match e.regionEntry with
  | some r => do
      let s ← s.regionUnlink r e
      .ok (s.regionMarkSubtreeDirty r)
  | none => .ok s

/-- `mod_load_abort`, for a transaction whose entry is published. -/
def modLoadAbort (E : Env) (s : Runtime) (tx : LoadTxn) : Res Runtime := do
  let s := s.modLoadRestoreContext tx
  let e ← s.deref tx.entry
  let s ← (s.moduleCleanupRegionState E e).modLoadUnlist e
  let s := { s with
    modByRegionHd := E.qmapDel s.modByRegionHd e.regionId
    modHd := s.modHd.erase e.modKey }
  let s := s.setEntry tx.entry none
  let s := s.unlinkTmp e.tmpLoadPath
  let s := s.freeStableFname e.ctx
  .ok (s.dlclose tx.handle)

/-- The zeroed state block of the new entry, where the image asks for one. -/
def modLoadAllocState (E : Env) (s : Runtime) (tx : LoadTxn) : Res Runtime :=
  if 0 < E.regionStateSize tx.handle then do
    let t ← s.store tx.entry fun e => { e with regionState := some s.stateNext }
    .ok { t with stateNext := s.stateNext + 1 }
  else .ok s

def modLoadAppend (s : Runtime) (tx : LoadTxn) : Res Runtime := do
  let e ← s.deref tx.entry
  match s.regionLookup e.regionId with
  | some r => s.moduleRegionAppend r tx.entry
  | none => .ok s

/-- The part of `_mod_load` between a granted claim and `xy_install`: count,
region state, list membership, symbol cache. -/
def modLoadEnlist (E : Env) (s : Runtime) (tx : LoadTxn) : Res Runtime := do
  let s ← ({ s with modCount := s.modCount + 1 } : Runtime).modLoadAllocState E tx
  let s ← s.modLoadAppend tx
  s.store tx.entry (ModEntry.fnCachePrewarm E s.hookIdHd.entries)

/-- `_mod_load` with a fresh entry: publish, bind, claim, enlist, and install. -/
def modLoadFresh (E : Env) (s : Runtime) (fname : String) (h : ImageId) (tmp : Option ImageId)
    (ch : LoadChoice) (reload : Option ReloadFrame) : Res (Runtime × Outcome LoadFrame) := do
  let key : ModKey := ⟨E.moduleLoadPath fname, s.currentRegionId⟩
  let tx : LoadTxn := ⟨fname, s.entryNext, h, s.currentRegionId, s.currentRegionEntry⟩
  let s := s.modLoadPublishEntry key h tmp ch.addr
  let s ← s.modLoadBindXy E tx
  let s := s.setCurrentRegion tx.regionId (s.regionLookup tx.regionId)
  let (s, ret) ← s.modLoadClaimIfNeeded E tx ch
  if ret ≠ xyOk then
    let s ← s.modLoadAbort E tx
    .ok (s, .done ret)
  else
    let s ← s.modLoadEnlist E tx
    match E.dlsym h "xy_install" with
    | none => do
        let s ← s.modLoadAbort E tx
        .ok (s, .done xyErrNotFound)
    | some _ =>
        .ok ({ s with loadingMod := some tx.entry },
          .wait ⟨tx.entry, tx.regionId, tx.prevRegionEntry, s.loadingMod, reload⟩)

/-- `_mod_load` up to `xy_install`. -/
def modLoad (E : Env) (s : Runtime) (fname : String) (ch : LoadChoice)
    (reload : Option ReloadFrame) : Res (Runtime × Outcome LoadFrame) :=
  let path := E.moduleLoadPath fname
  let existing := s.moduleLookup E fname s.currentRegionId
  match s.modLoadOpenHandle E path ch with
  | (s, none) => .ok (s.setErr xyErrNotFound, .done xyErrNotFound)
  | (s, some (h, tmp)) =>
      match existing with
      | some p => do
          let s ← s.store p fun e => { e with refcount := e.refcount + 1 }
          .ok ((s.dlclose h).unlinkTmp tmp, .done xyOk)
      | none =>
          if ch.noMem then .ok ((s.unlinkTmp tmp).dlclose h, .done xyErrInvalid)
          else if (s.modHd.entries.any fun x => s.addr x.2 = ch.addr) then .error .refused
          else s.modLoadFresh E fname h tmp ch reload

def xyClaimForLoadCalls (s : Runtime) (caller : String) (parentId : RegionId) (bits : UInt8) :
    List ClaimCall :=
  if bits = 0 ∨ 64 < bits then []
  else
    match s.regionLookup parentId with
    | none => []
    | some parent =>
        match (s.regions parent).claimHandler with
        | none => []
        | some h => [⟨h, caller, bits, (s.regions parent).claimHandlerUd⟩]

def modLoadClaimCalls (E : Env) (s : Runtime) (fname : String) (region : RegionId) (h : ImageId) :
    List ClaimCall :=
  match s.regionLookup region, E.xyClaim h with
  | some r, some bits =>
      if (s.regions r).claimHandler.isNone && !(s.regions r).requireClaim then []
      else s.xyClaimForLoadCalls fname region bits
  | _, _ => []

/-- The handler calls in `_mod_load`: those of its claim stage, if it gets there. -/
def modLoadCalls (E : Env) (s : Runtime) (fname : String) (ch : LoadChoice) : List ClaimCall :=
  let h := (s.modLoadImage (E.moduleLoadPath fname) ch).1
  match E.dlopen h, s.moduleLookup E fname s.currentRegionId with
  | some _, none =>
      if ch.noMem then [] else s.modLoadClaimCalls E fname s.currentRegionId h
  | _, _ => []

def modLoadFinish (s : Runtime) (f : LoadFrame) : Runtime :=
  ({ s with loadingMod := f.prevLoadingMod }).setCurrentRegion f.prevRegionId f.prevRegionEntry

/-- The rest of `xy_reload` once its load has succeeded: put the new entry
where the old one stood. -/
def xyReloadFinish (E : Env) (s : Runtime) (f : ReloadFrame) : Res Runtime :=
  match s.moduleLookup E f.fname f.regionId, f.regionEntry with
  | some p, some r => do
      let s ← s.moduleRegionDetach p
      let s ← s.moduleRegionInsertAfter r p f.insertAfter
      .ok s
  | _, _ => .ok s

/-- `xy_load` up to `xy_install`. -/
def xyLoad (E : Env) (s : Runtime) (fname : String) (ch : LoadChoice) :
    Res (Runtime × Outcome LoadFrame) := do
  match ← s.modLoad E fname ch none with
  | (s, .done ret) => .ok (s.setErr ret, .done ret)
  | (s, .wait f) => .ok (s, .wait f)

/-- `xy_reload` up to the new `xy_install`. -/
def xyReload (E : Env) (fuel : Nat) (s : Runtime) (fname : String) (ch : LoadChoice) :
    Res (Runtime × Outcome LoadFrame) := do
  let region := s.currentRegionId
  match s.moduleLookup E fname region with
  | none => .ok (s.setErr xyErrNotFound, .done xyErrNotFound)
  | some p => do
      let e ← s.deref p
      let rf : ReloadFrame := ⟨fname, region, e.regionPrev, e.regionEntry⟩
      let (s, ret) ← s.modUnload E fuel fname region
      if ret ≠ xyOk then .ok (s.setErr ret, .done ret)
      else
        match ← ({ s with reloading := true } : Runtime).modLoad E fname ch (some rf) with
        | (s, .wait f) => .ok (s, .wait f)
        | (s, .done ret) => do
            let s := { s with reloading := false }
            if ret ≠ xyOk then .ok (s.setErr ret, .done ret)
            else
              let s ← s.xyReloadFinish E rf
              .ok (s.setErr xyOk, .done xyOk)

/-- `xy_install` returned: the rest of the load, and of the reload around it. -/
def installReturn (E : Env) (s : Runtime) (f : LoadFrame) : Res Runtime := do
  let s := s.modLoadFinish f
  match f.reload with
  | none => .ok (s.setErr xyOk)
  | some rf => do
      let s ← ({ s with reloading := false } : Runtime).xyReloadFinish E rf
      .ok (s.setErr xyOk)

end Runtime
end Xylem

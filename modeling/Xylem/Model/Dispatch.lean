import Xylem.Model.Load

/-!
# Dispatch

`libxylem-dispatch.c`: the per-hook dispatch vectors of a region, `xy_call` cut
at every callback it makes, `xy_last` and `xy_areg`. The fast path of `xy_call`
for a single slot does what its loop does for one slot and is not kept apart.
-/
namespace Xylem

/-- What `xy_call` keeps on its stack while it walks the slots. `invoked` is
history: the entries called so far. -/
structure CallFrame where
  retp : Option BufPtr
  reg : AdapterPtr
  hookId : Nat
  dispatchCall : Trampoline
  regionId : RegionId
  callerRegion : RegionPtr
  /-- the captured array and count -/
  block : Nat
  n : Nat
  /-- the slot at hand -/
  mi : Nat := 0
  ran : Nat := 0
  me : EntryPtr := 0
  regionChanged : Bool := false
  prevRentry : Option RegionPtr := none
  invoked : List EntryPtr := []
  deriving DecidableEq, Repr

namespace HookDispatchCache

/-- Write the next slot, growing the array when it is full. -/
def push (c : HookDispatchCache) (slot : Slot) : HookDispatchCache :=
  let c := if c.cap ≤ c.count then
      { c with cap := if c.cap = 0 then 8 else c.cap * 2, block := c.block + 1 }
    else c
  { c with
    slots := c.slots.take c.count ++ [slot] ++ c.slots.drop (c.count + 1)
    count := c.count + 1 }

end HookDispatchCache

namespace Runtime

def writeBuf (s : Runtime) (b : BufPtr) (bytes : Bytes) : Runtime :=
  { s with bufs := Function.update s.bufs b (bytes ++ (s.bufs b).drop bytes.length) }

def xyZeroRet (s : Runtime) (retp : Option BufPtr) (size : Nat) : Runtime :=
  match retp with
  | some b => s.writeBuf b (List.replicate size 0)
  | none => s

def xySetLastRet (s : Runtime) (retp : Option BufPtr) (size : Nat) : Runtime :=
  match retp with
  | some b =>
      if 0 < size then
        let v := (s.bufs b).take size
        let v := if size ≤ 8 then v ++ List.replicate (8 - size) 0 else v
        { s with lastRetbuf := v ++ s.lastRetbuf.drop v.length, lastRetp := .retbuf }
      else { s with lastRetp := .null }
  | none => { s with lastRetp := .null }

/-- One round of the loop in `region_rebuild_hook_dispatch`. -/
def regionRebuildSlot (E : Env) (hookId : Nat) (hookName : String) (anc : List RegionPtr)
    (acc : Runtime × HookDispatchCache) (p : EntryPtr) : Res (Runtime × HookDispatchCache) := do
  let (s, cache) := acc
  let me ← s.deref p
  if me.ctx.isNone then .ok (s, cache)
  else if anc.any fun a => s.moduleIsDenied a me.loadPath then .ok (s, cache)
  else
    let me' := if me.hookImplBits hookId then me else (me.fnCacheResolve E hookId hookName).1
    let s := s.setEntry p (some me')
    if me'.hookImplBits hookId then .ok (s, cache.push ⟨p, me'.fnCache hookId⟩)
    else .ok (s, cache)

/-- `if (re->subtree_mods_dirty) region_rebuild_subtree_mods(re)`. -/
def regionEnsureSubtreeMods (s : Runtime) (r : RegionPtr) : Res Runtime :=
  if (s.regions r).subtreeModsDirty then s.regionRebuildSubtreeMods r else .ok s

def regionRebuildHookDispatch (E : Env) (s : Runtime) (r : RegionPtr) (hookId : Nat)
    (hookName : String) (anc : List RegionPtr) : Res Runtime := do
  let s ← s.regionEnsureSubtreeMods r
  let re := s.regions r
  let cache := re.hookDispatch hookId
  if cache.regionGen = re.dispatchGen then .ok s
  else
    let (t, cache) ← re.subtreeMods.foldlM (regionRebuildSlot E hookId hookName anc)
      (s, { cache with count := 0 })
    .ok (t.setRegion r fun re' => { re' with
      hookDispatch := Function.update re'.hookDispatch hookId
        { cache with regionGen := re.dispatchGen } })

/-- `goto fail` in `xy_call`. -/
def callFail (s : Runtime) (retp : Option BufPtr) (reg : AdapterPtr) (ret : Int) : Runtime :=
  let size := (s.adapters reg).retSize
  let s := ({ s with lastRan := 0 }).xySetLastRet none size
  let s := s.xyZeroRet retp size
  { s with adapter := some reg, errVal := ret }

def canonical (s : Runtime) (hookId : Nat) : Option Adapter :=
  if hookId < s.adapterByIdCap then (s.adapterById hookId).map s.adapters else none

/-- The hook id of an adapter. An unresolved one is looked up by name and
remembered, with the trampoline of the canonical adapter if it has none. -/
def resolveHookId (s : Runtime) (reg : AdapterPtr) : Option (Runtime × Nat) :=
  let a := s.adapters reg
  match a.hookId with
  | some i => some (s, i)
  | none =>
      match s.hookIdHd.lookup a.name with
      | none => none
      | some i =>
          let a := { a with hookId := some i }
          let a := match s.canonical i, a.call with
            | some c, none => { a with call := c.call, retSize := c.retSize, argSize := c.argSize }
            | _, _ => a
          some ({ s with adapters := Function.update s.adapters reg a }, i)

/-- The size check, and the trampoline to call through. -/
def callTrampoline (s : Runtime) (reg : AdapterPtr) (hookId : Nat) : Except Int (Nat × Trampoline) :=
  let a := s.adapters reg
  if xyMaxRetSize < a.retSize then .error xyErrTooBig
  else
    match a.call <|> (s.canonical hookId).bind (·.call) with
    | none => .error xyErrNotFound
    | some t => .ok (hookId, t)

/-- The resolving part of `xy_call`: hook id and trampoline, or the error. -/
def callResolve (s : Runtime) (reg : AdapterPtr) : Runtime × Except Int (Nat × Trampoline) :=
  match s.resolveHookId reg with
  | none => (s, .error xyErrNotFound)
  | some (s, hookId) => (s, s.callTrampoline reg hookId)

def callerRegion (s : Runtime) : Option RegionPtr :=
  s.currentRegionEntry <|> s.regionLookup s.currentRegionId

/-- The chain `xy_call` looks at: empty while the caller's flag is clear. -/
def callChain (s : Runtime) (r : RegionPtr) : List RegionPtr :=
  if (s.regions r).hasDeny then s.regionAncestorChain r 65 else []

/-- Whether a region on the chain denies the hook of this adapter. -/
def callDenied (s : Runtime) (reg : AdapterPtr) : Bool :=
  match s.callerRegion with
  | some r => (s.callChain r).any fun a =>
      decide ((s.adapters reg).name ∈ (s.regions a).deniedHooksSet)
  | none => false

/-- `xy_last_ran`, `xy_last_retp` and `xy.adapter` as a call that is not denied sets them. -/
def callBegin (s : Runtime) (retp : Option BufPtr) (reg : AdapterPtr) : Runtime :=
  { s with
    lastRan := 0
    lastRetp := match retp with
      | some b => .caller b
      | none => .null
    adapter := some reg }

/-- Bring the flat list and the vector of this region and hook up to date. -/
def callVector (E : Env) (s : Runtime) (r : RegionPtr) (hookId : Nat) (name : String) :
    Res Runtime := do
  let s ← s.regionEnsureSubtreeMods r
  if ((s.regions r).hookDispatch hookId).regionGen ≠ (s.regions r).dispatchGen then
    s.regionRebuildHookDispatch E r hookId name (s.callChain r)
  else .ok s

/-- The frame of a call that captured `n` slots of array `block` in region `r`. -/
def callFrame (s : Runtime) (retp : Option BufPtr) (reg : AdapterPtr) (hookId : Nat)
    (call : Trampoline) (r : RegionPtr) (block n : Nat) : CallFrame :=
  { retp := retp, reg := reg, hookId := hookId, dispatchCall := call,
    regionId := s.currentRegionId, callerRegion := r, block := block, n := n }

/-- `xy_call` up to the loop over its slots. -/
def callPrepare (E : Env) (s : Runtime) (retp : Option BufPtr) (reg : AdapterPtr) :
    Res (Runtime × Outcome CallFrame) :=
  match s.callResolve reg with
  | (s, .error e) => .ok (s.callFail retp reg e, .done e)
  | (s, .ok (hookId, call)) =>
      if s.callDenied reg then .ok (s.callFail retp reg xyErrEperm, .done xyErrEperm)
      else
        let s := s.callBegin retp reg
        match s.callerRegion with
        | none => .ok (s, .wait (s.callFrame retp reg hookId call 0 0 0))
        | some r => do
            let t ← s.callVector E r hookId (s.adapters reg).name
            let cache := (t.regions r).hookDispatch hookId
            .ok (t, .wait (t.callFrame retp reg hookId call r cache.block cache.count))

def callFinish (s : Runtime) (f : CallFrame) : Runtime × Int :=
  let size := (s.adapters f.reg).retSize
  let s := { s with lastRan := f.ran }
  if f.ran = 0 then
    let s := (s.xySetLastRet none size).xyZeroRet f.retp size
    (s.setErr xyErrNotFound, xyErrNotFound)
  else
    ((s.xySetLastRet f.retp size).setErr xyOk, xyOk)

/-- Set up the callback of slot `f.mi`: context, region, frame. -/
def callEnter (s : Runtime) (f : CallFrame) (p : EntryPtr) (me : ModEntry) (c : CtxPtr) :
    Runtime × CallFrame :=
  let s := s.setCtx c fun x =>
    { x with adapter := some f.reg, regionState := me.regionState }
  let changed := decide ((s.ctxs c).regionId ≠ f.regionId)
  let f := { f with me := p, regionChanged := changed, prevRentry := s.currentRegionEntry,
                    invoked := f.invoked ++ [p] }
  (if changed then s.setCurrentRegion (s.ctxs c).regionId me.regionEntry else s, f)

/-- The loop of `xy_call` from slot `f.mi` on, up to the next callback or the end. -/
def callLoop (s : Runtime) : Nat → CallFrame → Res (Runtime × (Int ⊕ CallFrame))
  | 0, f => .ok (let (s, ret) := s.callFinish f; (s, .inl ret))
  | left+1, f =>
      let cache := (s.regions f.callerRegion).hookDispatch f.hookId
      if cache.block ≠ f.block then .error .useAfterFree
      else
        match cache.slots[f.mi]? with
        | none => .error .useAfterFree
        | some slot => do
            let me ← s.deref slot.me
            match me.ctx, slot.cb with
            | none, _ => s.callLoop left { f with mi := f.mi + 1 }
            | some _, .null => s.callLoop left { f with mi := f.mi + 1 }
            | some _, .notFound => .error .wildCall
            | some c, .fn _ =>
                let (s, f) := s.callEnter f slot.me me c
                .ok (s, .inr f)

/-- `xy_call` up to its first callback. -/
def xyCall (E : Env) (s : Runtime) (retp : Option BufPtr) (reg : Option AdapterPtr) :
    Res (Runtime × (Int ⊕ CallFrame)) :=
  match reg with
  | none => .ok (s.setErr xyErrNotFound, .inl xyErrNotFound)
  | some reg => do
      match ← s.callPrepare E retp reg with
      | (s, .done ret) => .ok (s, .inl ret)
      | (s, .wait f) => s.callLoop f.n f

def bodyReturn (s : Runtime) (f : CallFrame) (result : Bytes) :
    Res (Runtime × (Int ⊕ CallFrame)) :=
  if result.length ≠ f.dispatchCall.retSize then .error .refused
  else
    let s := match f.retp with
      | some b => s.writeBuf b result
      | none => s
    let s := if f.regionChanged then s.setCurrentRegion f.regionId f.prevRentry else s
    s.callLoop (f.n - (f.mi + 1)) { f with mi := f.mi + 1, ran := f.ran + 1 }

def xyLast (s : Runtime) (ret : Option BufPtr) : Runtime × Int :=
  match s.adapter with
  | none => (s.setErr xyErrInvalid, xyErrInvalid)
  | some a =>
      if s.lastRan = 0 then (s.setErr xyErrNotFound, xyErrNotFound)
      else
        let size := (s.adapters a).retSize
        let s := match ret, s.lastRetp with
          | some b, .retbuf => s.writeBuf b (s.lastRetbuf.take size)
          | some b, .caller c => s.writeBuf b ((s.bufs c).take size)
          | _, _ => s
        (s.setErr xyOk, xyOk)

/-- `xy_areg`, under the adapter's own name as the registering macros call it.
For a name already known it returns the stored pointer as a number. -/
def xyAreg (E : Env) (s : Runtime) (reg : AdapterPtr) : Runtime × Int :=
  let a := s.adapters reg
  if xyMaxRetSize < a.retSize then (s.setErr xyErrTooBig, -1)
  else
    match s.sicaHd a.name with
    | some first => (s, first)
    | none =>
        let hookId := s.hookIdCounter
        let s := { s with
          sicaHd := Function.update s.sicaHd a.name (some reg)
          hookIdCounter := hookId + 1
          hookIdHd := s.hookIdHd.insert a.name hookId
          adapters := Function.update s.adapters reg { a with hookId := some hookId }
          adapterByIdCap := if s.adapterByIdCap ≤ hookId then hookId + 16 else s.adapterByIdCap
          adapterById := Function.update s.adapterById hookId (some reg) }
        let s := s.mapEntries (s.modEntries E) (ModEntry.fnCachePrewarm E s.hookIdHd.entries)
        (s.setErr xyOk, xyOk)

end Runtime
end Xylem

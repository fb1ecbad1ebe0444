import Xylem.Model.Module

/-!
# Unloading

`_mod_unload` with its cascade. The recursion of the source goes by path and
region and has no bound of its own, so it runs on fuel and says so when the
fuel is used up.
-/
namespace Xylem.Runtime

/-- The children that the cascade collects: other entries whose `parent_entry`
compares equal to `entry`. -/
def childrenOf (E : Env) (s : Runtime) (p : EntryPtr) : List EntryPtr :=
  (s.modEntries E).filter fun m =>
    match s.entries m with
    | some e => decide (m ≠ p) &&
        (match e.parentEntry with
         | some q => decide (s.addr q = s.addr p)
         | none => false)
    | none => false

/-- The second half of `_mod_unload`, once the children are gone. -/
def modUnloadEntry (E : Env) (s : Runtime) (p : EntryPtr) : Res Runtime := do
  let e ← s.deref p
  let s := s.moduleClearFnCacheForHandle E p e.handle
  let s := match e.regionEntry with
    | some r => s.moduleRemoveDenies r e.loadPath
    | none => s
  let s ← s.moduleRegionDetach p
  let s := { s with
    modByRegionHd := E.qmapDel s.modByRegionHd e.regionId
    modHd := s.modHd.erase e.modKey
    modCount := s.modCount - 1 }
  s.moduleFreeEntry E p

/-- One round of the cascade: the child is looked up again by the path its
context holds. A child without a context stays. -/
def modUnloadChild (unload : Runtime → String → RegionId → Res (Runtime × Int)) (s : Runtime)
    (c : EntryPtr) : Res Runtime := do
  let child ← s.deref c
  match child.ctx with
  | none => .ok s
  | some x =>
      match (s.ctxs x).modulePath with
      | .null => .ok s
      | .freed => .error .useAfterFree
      | .str path => (unload s path child.regionId).map (·.1)

def modUnload (E : Env) : Nat → Runtime → String → RegionId → Res (Runtime × Int)
  | 0, _, _, _ => .error .divergence
  | fuel+1, s, fname, region =>
    match s.moduleLookup E fname region with
    | none => .ok (s.setErr xyErrNotFound, xyErrNotFound)
    | some p => do
        let e ← s.deref p
        let refcount := e.refcount - 1
        let s := s.setEntry p (some { e with refcount := refcount })
        if 0 < refcount then .ok (s, xyOk)
        else
          let s ← (s.childrenOf E p).foldlM (modUnloadChild (modUnload E fuel)) s
          let s ← s.modUnloadEntry E p
          .ok (s, xyOk)

def xyUnload (E : Env) (fuel : Nat) (s : Runtime) (fname : String) : Res (Runtime × Int) := do
  let (s, ret) ← s.modUnload E fuel fname s.currentRegionId
  .ok (s.setErr ret, ret)

end Xylem.Runtime

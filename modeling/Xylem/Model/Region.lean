import Xylem.Model.Types
import Xylem.Lib.Forest

/-!
# Regions

The region helpers of `libxylem.c`: lookup, the walks along parent links, the
cached flat module list, slot allocation, denies and the claim gate.
-/
namespace Xylem.Runtime

def regionLookup (s : Runtime) (id : RegionId) : Option RegionPtr := s.regionHd id

def parentOf (s : Runtime) (r : RegionPtr) : Option RegionPtr := (s.regions r).parent

/-- `region_ancestor_chain`: root first, at most `cap` regions counted from `start`. -/
def regionAncestorChain (s : Runtime) (start : RegionPtr) (cap : Nat) : List RegionPtr :=
  (Forest.climb s.parentOf cap (some start)).reverse

/-- What `for (e = entry; e; e = e->parent)` visits; a chain has no more
regions than there are. -/
def upward (s : Runtime) (r : RegionPtr) : List RegionPtr :=
  Forest.climb s.parentOf s.regionNext (some r)

def regionPropagateDeny (s : Runtime) (r : RegionPtr) : Runtime :=
  (s.upward r).foldl (fun s e => s.setRegion e fun re => { re with hasDeny := true }) s

/-- `dispatch_gen++`, skipping the zero that marks a vector never built. -/
def genSucc (g : BitVec 64) : BitVec 64 := if g + 1 = 0 then 1 else g + 1

def regionDispatchGenBump (s : Runtime) (r : RegionPtr) : Runtime :=
  let s := (s.upward r).foldl
    (fun s e => s.setRegion e fun re => { re with dispatchGen := genSucc re.dispatchGen }) s
  { s with genBumps := s.genBumps + 1 }

def regionMarkSubtreeDirty (s : Runtime) (r : RegionPtr) : Runtime :=
  let s := s.regionDispatchGenBump r
  (s.upward r).foldl (fun s e => s.setRegion e fun re => { re with subtreeModsDirty := true }) s

/-- The loop `for (me = mods_head; me; me = me->region_next)`. -/
def regionModsFrom (s : Runtime) : Nat → Option EntryPtr → Res (List EntryPtr)
  | _, none => .ok []
  | 0, some _ => .error .divergence
  | n+1, some p => do
      let me ← s.deref p
      let rest ← s.regionModsFrom n me.regionNext
      .ok (p :: rest)

def regionMods (s : Runtime) (r : RegionPtr) : Res (List EntryPtr) :=
  s.regionModsFrom s.entryNext (s.regions r).modsHead

/-- `region_collect_subtree_mods`: the region's own modules, then each child's subtree. -/
def regionCollectSubtreeMods (s : Runtime) : Nat → RegionPtr → Res (List EntryPtr)
  | 0, _ => .error .divergence
  | n+1, r => do
      let own ← s.regionMods r
      let below ← (s.regions r).children.mapM (s.regionCollectSubtreeMods n)
      .ok (own ++ below.flatten)

def regionRebuildSubtreeMods (s : Runtime) (r : RegionPtr) : Res Runtime := do
  let l ← s.regionCollectSubtreeMods s.regionNext r
  .ok (s.setRegion r fun re => { re with subtreeMods := l, subtreeModsDirty := false })

/-- The probing loop of `region_alloc_slot`, with the number of probes left. -/
def regionAllocFrom (s : Runtime) (base : RegionId) (shift : Nat) : Nat → BitVec 64 → RegionId
  | 0, _ => xyRegionInvalid
  | n+1, slot =>
      let candidate := base ||| (slot <<< shift)
      match s.regionLookup candidate with
      | none => candidate
      | some _ => s.regionAllocFrom base shift n (slot + 1)

/-- `region_alloc_slot`. At `cplen = 64` the source's slot count wraps to zero,
so that its do-while goes through all `2 ^ 64` values of the counter. -/
def regionAllocSlot (s : Runtime) (parent : RegionPtr) (bits : UInt8) : RegionId :=
  let re := s.regions parent
  let cplen := re.plen + bits
  if 64 < cplen then xyRegionInvalid
  else
    let numSlots := if cplen = 64 then 2 ^ 64 else 2 ^ bits.toNat
    s.regionAllocFrom re.id (64 - cplen.toNat) numSlots 0

/-- The part of `_xy_claim_for_load` that creates the child region and wires it
into its parent. -/
def regionCreateChild (s : Runtime) (parent : RegionPtr) (id : RegionId) (granted : UInt8) :
    Runtime :=
  let re := s.regions parent
  let child := s.regionNext
  let s := { s with
    regions := Function.update s.regions child
      { id := id, plen := re.plen + granted, depth := re.depth + 1, childBits := granted,
        parent := some parent }
    regionNext := s.regionNext + 1
    regionHd := Function.update s.regionHd id (some child) }
  let s := s.setRegion parent fun re => { re with children := child :: re.children }
  s.regionMarkSubtreeDirty parent

def moduleIsDenied (s : Runtime) (r : RegionPtr) (path : String) : Bool :=
  decide (path ∈ (s.regions r).deniedModulesSet) || decide (path ∈ (s.regions r).deniedModules)

def moduleRemoveDenies (s : Runtime) (r : RegionPtr) (path : String) : Runtime :=
  if path ∈ (s.regions r).deniedModules then
    s.setRegion r fun re => { re with
      deniedModules := re.deniedModules.filter (· ≠ path)
      deniedModulesSet := re.deniedModulesSet.erase path }
  else s

def xyDeny (E : Env) (s : Runtime) (what : String) (type : DenyType) : Runtime × Int :=
  match s.regionLookup s.currentRegionId with
  | none => (s.setErr xyErrNotFound, xyErrNotFound)
  | some r =>
      let s := match type with
        | .hook => s.setRegion r fun re => { re with
            deniedHooks := what :: re.deniedHooks
            deniedHooksSet := insert what re.deniedHooksSet }
        | .module =>
            let path := E.moduleLoadPath what
            s.setRegion r fun re => { re with
              deniedModules := path :: re.deniedModules
              deniedModulesSet := insert path re.deniedModulesSet }
      let s := s.regionPropagateDeny r
      let s := s.regionDispatchGenBump r
      (s.setErr xyOk, xyOk)

def xyRequireClaim (s : Runtime) (fn : Option HandlerPtr) (ud : Nat) : Runtime × Int :=
  match s.regionLookup s.currentRegionId with
  | none => (s.setErr xyErrNotFound, xyErrNotFound)
  | some r =>
      let s := match fn with
        | none => s.setRegion r fun re =>
            { re with claimHandler := none, claimHandlerUd := 0, requireClaim := false }
        | some f => s.setRegion r fun re =>
            { re with claimHandler := some f, claimHandlerUd := ud, requireClaim := true }
      (s.setErr xyOk, xyOk)

end Xylem.Runtime

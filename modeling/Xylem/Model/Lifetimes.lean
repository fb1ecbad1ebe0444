import Xylem.Model.Machine

/-!
# Lifetimes of the runtime

`libxylem-runtime.c`: `xy_shutdown` and the bootstrap that the next call makes. The hook
registry, the adapters and the contexts outlive a shutdown. Region pointers are numbered
anew by each bootstrap, since a shutdown frees every region.
-/
namespace Xylem

namespace Runtime

def regionEnsureRoot (s : Runtime) : Runtime :=
  let (s, root) := match s.regionLookup xyRegionRoot with
    | some root => (s, root)
    | none =>
        let root := s.regionNext
        ({ s with
            regions := Function.update s.regions root {}
            regionNext := root + 1
            regionHd := Function.update s.regionHd xyRegionRoot (some root) }, root)
  if s.currentRegionEntry.isNone || decide (s.currentRegionId = xyRegionRoot) then
    { s with currentRegionEntry := some root }
  else s

/-- `xy_runtime_bootstrap`: the tables are opened, and the root region is there. -/
def xyRuntimeBootstrap (s : Runtime) : Runtime :=
  ({ s with
      modHd := ∅
      modByRegionHd := []
      regionHd := fun _ => none
      genBumps := 0 } : Runtime).regionEnsureRoot

def xyRuntimeTeardown (E : Env) (s : Runtime) : Res Runtime := do
  let s ← (s.modEntries E).foldlM (moduleFreeEntry E) s
  .ok { s with
    modHd := ∅
    modByRegionHd := []
    regions := fun _ => {}
    regionNext := 0
    regionHd := fun _ => none
    modCount := 0
    currentRegionEntry := none
    currentRegionId := xyRegionRoot
    lastRan := 0
    lastRetp := .null
    adapter := none }

end Runtime

/-- The process: the machine, and whether the runtime is initialised (`xy_inited`). -/
structure Life where
  st : State
  up : Bool := false

/-- `init` is the bootstrap of `xy_init`, and of any other call that finds the runtime down. -/
inductive LifeEvent where
  | call (e : Event)
  | init
  | shutdown
  deriving DecidableEq, Repr

/-- A shutdown comes from the host, with no call of the library under way. -/
def lifeStep (E : Env) (l : Life) : LifeEvent → Res Life
  | .call e =>
      if l.up then (step E l.st e).map fun st => { l with st := st } else .error .refused
  | .init =>
      if l.up then .ok { l with st := { l.st with rt := l.st.rt.setErr xyOk } }
      else .ok { st := { l.st with rt := l.st.rt.xyRuntimeBootstrap.setErr xyOk }, up := true }
  | .shutdown =>
      if l.st.stack = [] then
        if l.up then (l.st.rt.xyRuntimeTeardown E).map fun rt =>
          { st := { l.st with rt := rt.setErr xyOk }, up := false }
        else .ok { l with st := { l.st with rt := l.st.rt.setErr xyOk } }
      else .error .refused

/-- A process before its first call: nothing is loaded and no hook is registered. The
adapters are as their definitions have them, with `hook_id = -1`. -/
structure Launch (l : Life) : Prop where
  up : l.up = false
  stack : l.st.stack = []
  entries : l.st.rt.entries = fun _ => none
  regions : l.st.rt.regions = fun _ => {}
  regionNext : l.st.rt.regionNext = 0
  currentRegionId : l.st.rt.currentRegionId = xyRegionRoot
  currentRegionEntry : l.st.rt.currentRegionEntry = none
  sicaHd : l.st.rt.sicaHd = fun _ => none
  hookIdHd : l.st.rt.hookIdHd = ∅
  hookIds : ∀ a, (l.st.rt.adapters a).hookId = none
  dlRefs : l.st.rt.dlRefs = fun _ => 0
  tmpFiles : l.st.rt.tmpFiles = []
  badReleases : l.st.rt.badReleases = 0

/-- A run of the process from its launch. -/
def Lives (E : Env) (l₀ : Life) (tr : List (Life × LifeEvent)) (l : Life) : Prop :=
  Launch l₀ ∧ Run.Steps (lifeStep E) l₀ tr l

/-- A process whose adapters are all for hook `h`. -/
def sampleLife : Life :=
  { st := { rt :=
      { adapters := fun _ => { name := "h", retSize := 1, call := some { retSize := 1 } }
        regionNext := 0, currentRegionEntry := none } } }

theorem sampleLife_launch : Launch sampleLife :=
  ⟨rfl, rfl, rfl, rfl, rfl, rfl, rfl, rfl, rfl, fun _ => rfl, rfl, rfl, rfl⟩

end Xylem

import Xylem.Model.Dispatch
import Xylem.Lib.Run

/-!
# The machine

Control is with the host, with an installing module, with a hook body or with a
scope function; whoever has it may make any call of the interface or return.
Calls that run foreign code push a frame, so that a run of the machine is one
interleaving of the library with arbitrarily nested code around it.
-/
namespace Xylem

/-- A library function that is waiting for foreign code. -/
inductive Frame where
  | install (f : LoadFrame)
  | body (f : CallFrame)
  | scope (prevRegionId : RegionId) (prevRegionEntry : Option RegionPtr)
  deriving DecidableEq, Repr

inductive Event where
  | areg (reg : AdapterPtr)
  | selfInitCtx (ctx : CtxPtr)
  | load (fname : String) (ch : LoadChoice)
  | unload (fname : String) (fuel : Nat)
  | reload (fname : String) (ch : LoadChoice) (fuel : Nat)
  | deny (what : String) (type : DenyType)
  | requireClaim (fn : Option HandlerPtr) (ud : Nat)
  | call (retp : Option BufPtr) (reg : Option AdapterPtr)
  | last (ret : Option BufPtr)
  | withRegion (id : RegionId)
  /-- the hook body, `xy_install` or scope function in control returns -/
  | bodyRet (result : Bytes)
  | installRet
  | scopeRet (code : Int)
  deriving DecidableEq, Repr

/-- How control came to where it is: into fresh code, or back from a call with
its result and, for an `xy_call`, the entries it ran. -/
inductive Status where
  | entered
  | returned (ret : Int) (ran : List EntryPtr)
  deriving DecidableEq, Repr

structure State where
  rt : Runtime
  stack : List Frame := []
  status : Status := .entered

namespace State

def back (s : State) (r : Runtime × Int) : State :=
  { s with rt := r.1, status := .returned r.2 [] }

/-- `xy_call` with frames `stack` below it: it has finished, or a body has started. -/
def afterCall (stack : List Frame) (ran : List EntryPtr) :
    Runtime × (Int ⊕ CallFrame) → State
  | (rt, .inl ret) => { rt := rt, stack := stack, status := .returned ret ran }
  | (rt, .inr f) => { rt := rt, stack := .body f :: stack, status := .entered }

def afterLoad (stack : List Frame) : Runtime × Outcome LoadFrame → State
  | (rt, .done ret) => { rt := rt, stack := stack, status := .returned ret [] }
  | (rt, .wait f) => { rt := rt, stack := .install f :: stack, status := .entered }

end State

/-- `xy_with_region` up to the call of its function. -/
def xyWithRegion (s : State) (id : RegionId) : State :=
  match s.rt.regionLookup id with
  | none => s.back (s.rt.setErr xyErrNotFound, xyErrNotFound)
  | some r =>
      { rt := s.rt.setCurrentRegion id (some r)
        stack := .scope s.rt.currentRegionId s.rt.currentRegionEntry :: s.stack
        status := .entered }

/-- One step: a call of the interface by the code in control, or its return. -/
def step (E : Env) (s : State) : Event → Res State
  | .areg a => .ok (s.back (s.rt.xyAreg E a))
  | .selfInitCtx c => .ok (s.back ({ s.rt with pendingCtx := some c }, xyOk))
  | .load fname ch => (s.rt.xyLoad E fname ch).map (State.afterLoad s.stack)
  | .unload fname fuel => (s.rt.xyUnload E fuel fname).map s.back
  | .reload fname ch fuel => (s.rt.xyReload E fuel fname ch).map (State.afterLoad s.stack)
  | .deny what type => .ok (s.back (s.rt.xyDeny E what type))
  | .requireClaim fn ud => .ok (s.back (s.rt.xyRequireClaim fn ud))
  | .call retp reg => (s.rt.xyCall E retp reg).map (State.afterCall s.stack [])
  | .last ret => .ok (s.back (s.rt.xyLast ret))
  | .withRegion id => .ok (xyWithRegion s id)
  | .bodyRet result =>
      match s.stack with
      | .body f :: rest => (s.rt.bodyReturn f result).map (State.afterCall rest f.invoked)
      | _ => .error .refused
  | .installRet =>
      match s.stack with
      | .install f :: rest =>
          (s.rt.installReturn E f).map fun rt =>
            { rt := rt, stack := rest, status := .returned xyOk [] }
      | _ => .error .refused
  | .scopeRet code =>
      match s.stack with
      | .scope id entry :: rest =>
          .ok { rt := (s.rt.setCurrentRegion id entry).setErr code, stack := rest,
                status := .returned code [] }
      | _ => .error .refused

/-- The hook registry: `hook_id_hd` is injective and bounded by the counter, and
an adapter that holds an id holds the one of its name. -/
structure Registry (s : Runtime) : Prop where
  lt : ∀ name id, s.hookIdHd.lookup name = some id → id < s.hookIdCounter
  inj : ∀ name name' id, s.hookIdHd.lookup name = some id →
    s.hookIdHd.lookup name' = some id → name = name'
  sica : ∀ name, (s.sicaHd name).isSome = (s.hookIdHd.lookup name).isSome
  held : ∀ a id, (s.adapters a).hookId = some id →
    s.hookIdHd.lookup (s.adapters a).name = some id

/-- A runtime that has just been initialised. Contexts, adapters, buffers and
the hook registry belong to the images and may be left over from before. -/
structure Boot (s : State) : Prop where
  stack : s.stack = []
  status : s.status = .entered
  entries : s.rt.entries = fun _ => none
  modHd : s.rt.modHd = ∅
  modByRegionHd : s.rt.modByRegionHd = []
  regionNext : s.rt.regionNext = 1
  root : s.rt.regions 0 = {}
  fresh : ∀ r, 0 < r → s.rt.regions r = {}
  regionHd : ∀ id, s.rt.regionHd id = if id = xyRegionRoot then some 0 else none
  currentRegionId : s.rt.currentRegionId = xyRegionRoot
  currentRegionEntry : s.rt.currentRegionEntry = some 0
  loadingMod : s.rt.loadingMod = none
  modCount : s.rt.modCount = 0
  reloading : s.rt.reloading = false
  genBumps : s.rt.genBumps = 0
  registry : Registry s.rt

/-- A run of the machine from some initialised state. -/
def Runs (E : Env) (s₀ : State) (tr : List (State × Event)) (s : State) : Prop :=
  Boot s₀ ∧ Run.Steps (step E) s₀ tr s

/-- An environment to run the machine in: the given files under their own paths,
map iteration in insertion order, and deletion of every pair of a key. -/
def plainEnv (files : String → Option Image) : Env where
  moduleLoadPath fname := fname
  dlopen h := files h.path
  iterOrder l := l
  iterOrder_perm l := List.Perm.refl l
  qmapDel m k := m.filter fun x => x.1 ≠ k
  qmapDel_sublist _ _ := List.filter_sublist
  qmapDel_other m k x hx hk := List.mem_filter.mpr ⟨hx, by simpa using hk⟩
  qmapDel_drops m k x hx hk :=
    List.length_filter_lt_length_iff_exists.mpr ⟨x, hx, by simpa using hk⟩

def plainImage (names : List String) (ctx : CtxPtr) (claim : UInt8) (size : Nat) : Image :=
  { exports := fun name => decide (name ∈ names), getXyPtr := some ctx, xyClaim := claim
    regionStateSize := size }

/-- A few modules that implement hook `h`: `m` asks for a region, `p`, `q` and
`r` do not, and `bad` has no `xy_install`. -/
def sampleFiles : String → Option Image
  | "m" => some (plainImage ["xy_install", "get_xy_ptr", "h", "xy_claim"] 1 1 0)
  | "p" => some (plainImage ["xy_install", "get_xy_ptr", "h"] 2 0 0)
  | "q" => some (plainImage ["xy_install", "get_xy_ptr", "h"] 3 0 0)
  | "r" => some (plainImage ["xy_install", "get_xy_ptr", "h", "xy_region_state_size"] 4 0 8)
  | "bad" => some (plainImage ["get_xy_ptr", "h"] 5 0 0)
  | _ => none

def sampleEnv : Env := plainEnv sampleFiles

/-- An initialised runtime whose adapters are all for hook `h`. -/
def sampleState : State :=
  { rt := { adapters := fun _ => { name := "h", retSize := 1, call := some { retSize := 1 } } } }

theorem sampleState_boot : Boot sampleState where
  stack := rfl
  status := rfl
  entries := rfl
  modHd := rfl
  modByRegionHd := rfl
  regionNext := rfl
  root := rfl
  fresh _ _ := rfl
  regionHd _ := rfl
  currentRegionId := rfl
  currentRegionEntry := rfl
  loadingMod := rfl
  modCount := rfl
  reloading := rfl
  genBumps := rfl
  registry :=
    { lt := fun name id h => by simp [sampleState] at h
      inj := fun name name' id h => by simp [sampleState] at h
      sica := fun name => by simp [sampleState]
      held := fun a id h => by simp [sampleState] at h }

theorem sample_runs {es : List Event} {s : State} (h : Run.exec (step sampleEnv) sampleState es = .ok s) :
    Runs sampleEnv sampleState (Run.trace (step sampleEnv) sampleState es) s :=
  ⟨sampleState_boot, Run.exec_steps h⟩

/-- A list of events that can be taken from `sampleState`, and what is seen after it. -/
theorem sample_check (es : List Event) (P : State → Bool)
    (h : Run.check (step sampleEnv) sampleState es P = true) :
    ∃ s, Run.exec (step sampleEnv) sampleState es = .ok s ∧ P s = true := Run.of_check h

end Xylem

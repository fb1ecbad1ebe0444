import Xylem.Model.Lifetimes

/-!
# Threads

The process with several threads, each with its own copy of the thread-local variables.
A thread makes whole calls, one at a time with the others.
-/
namespace Xylem

/-- The thread-local variables. `entryLife` is history: the lifetime of the runtime in which
`currentRegionEntry` was set, since region pointers are numbered anew in each. -/
structure Tls where
  currentRegionId : RegionId := xyRegionRoot
  currentRegionEntry : Option RegionPtr := none
  entryLife : Nat := 0
  loadingMod : Option EntryPtr := none
  pendingCtx : Option CtxPtr := none
  lastRan : Nat := 0
  lastRetp : LastRet := .null
  lastRetbuf : Bytes := List.replicate xyMaxRetSize 0
  deriving DecidableEq, Repr

namespace Runtime

/-- The runtime as the thread with these variables sees it. -/
def withTls (s : Runtime) (x : Tls) : Runtime :=
  { s with
    currentRegionId := x.currentRegionId, currentRegionEntry := x.currentRegionEntry
    loadingMod := x.loadingMod, pendingCtx := x.pendingCtx
    lastRan := x.lastRan, lastRetp := x.lastRetp, lastRetbuf := x.lastRetbuf }

/-- The thread-local variables, with a region entry of this lifetime. -/
def tls (s : Runtime) (entryLife : Nat) : Tls :=
  { currentRegionId := s.currentRegionId, currentRegionEntry := s.currentRegionEntry
    entryLife := entryLife, loadingMod := s.loadingMod, pendingCtx := s.pendingCtx
    lastRan := s.lastRan, lastRetp := s.lastRetp, lastRetbuf := s.lastRetbuf }

end Runtime

/-- The process-wide variables in `rt`, where the thread-local ones mean nothing, and those
of each thread. `lifetime` is history: how often the runtime was initialised. -/
structure Process where
  rt : Runtime
  up : Bool := false
  lifetime : Nat := 0
  tls : Nat → Tls := fun _ => {}

inductive ProcessEvent where
  /-- a call of thread `t`, or several, with all that is done until it has returned -/
  | call (t : Nat) (es : List Event)
  | init (t : Nat)
  | shutdown (t : Nat)
  deriving DecidableEq, Repr

def ProcessEvent.thread : ProcessEvent → Nat
  | .call t _ => t
  | .init t => t
  | .shutdown t => t

namespace Process

/-- What thread `t` works on. -/
def view (p : Process) (t : Nat) : Runtime := p.rt.withTls (p.tls t)

/-- Thread `t` leaves the runtime as `rt`, with an entry pointer from lifetime `life`. -/
def save (p : Process) (t : Nat) (rt : Runtime) (life : Nat) : Process :=
  { p with rt := rt, tls := Function.update p.tls t (rt.tls life) }

@[simp] theorem save_self (p : Process) (t : Nat) (rt : Runtime) (life : Nat) :
    (p.save t rt life).tls t = rt.tls life := Function.update_self ..

theorem save_ne (p : Process) {t u : Nat} (h : u ≠ t) (rt : Runtime) (life : Nat) :
    (p.save t rt life).tls u = p.tls u := Function.update_of_ne h ..

/-- The thread's entry pointer is not from this lifetime. -/
def stale (p : Process) (t : Nat) : Bool :=
  (p.tls t).currentRegionEntry.isSome && decide ((p.tls t).entryLife ≠ p.lifetime)

end Process

/-- A thread with a pointer to a freed region has no call that is sure to be defined. -/
def processStep (E : Env) (p : Process) : ProcessEvent → Res Process
  | .call t es =>
      if !p.up then .error .refused
      else if p.stale t then .error .useAfterFree
      else
        match Run.exec (step E) { rt := p.view t } es with
        | .error f => .error f
        | .ok s => if s.stack = [] then .ok (p.save t s.rt p.lifetime) else .error .refused
  | .init t =>
      if p.up then .ok { p with rt := p.rt.setErr xyOk }
      else
        let x := p.tls t
        let synced := x.currentRegionEntry.isNone || decide (x.currentRegionId = xyRegionRoot)
        let q := p.save t ((p.view t).xyRuntimeBootstrap.setErr xyOk)
          (if synced then p.lifetime + 1 else x.entryLife)
        .ok { q with up := true, lifetime := p.lifetime + 1 }
  | .shutdown t =>
      if p.up then ((p.view t).xyRuntimeTeardown E).map fun rt =>
        { p.save t (rt.setErr xyOk) (p.tls t).entryLife with up := false }
      else .ok { p with rt := p.rt.setErr xyOk }

/-- A process before the first call of any thread. -/
structure ProcessLaunch (p : Process) : Prop where
  up : p.up = false
  tls : p.tls = fun _ => {}
  launch : Launch { st := { rt := p.rt.withTls {} } }

end Xylem

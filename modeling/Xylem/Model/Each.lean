import Xylem.Model.Machine

/-!
# Enumerating the children

`xy_region_each` with a callback that may make any calls of the interface: each call
of it is given by the events between its start and its end, and what it returns.
-/
namespace Xylem

namespace Runtime

def siblingNext (s : Runtime) (r : RegionPtr) : Option RegionPtr :=
  match (s.regions r).parent with
  | some p => ((s.regions p).children.dropWhile (· ≠ r)).tail.head?
  | none => none

end Runtime

/-- What one call of the callback does. -/
structure Callback where
  events : List Event
  ret : Int

/-- The callback runs in `s`, whose frames stay below its own, to its end. -/
def runCallback (E : Env) (s : State) (cb : Callback) : Res State :=
  let s' : State := { s with status := .entered }
  if (Run.trace (step E) s' cb.events).all fun x => decide (s.stack.length ≤ x.1.stack.length) then
    match Run.exec (step E) s' cb.events with
    | .ok t => if t.stack = s.stack then .ok t else .error .refused
    | .error f => .error f
  else .error .refused

/-- The loop of `xy_region_each` from `e` on, with `ret` from the call before: the regions
it has called `fn` for with what `fn` returned, and the final `ret`. -/
def eachLoop (E : Env) : List Callback → State → Option RegionPtr → Int →
    Res (List (RegionPtr × Int) × Int × State)
  | _, s, none, ret => .ok ([], ret, s)
  | [], _, some _, _ => .error .refused
  | cb :: cbs, s, some e, _ => do
      let t ← runCallback E s cb
      if cb.ret ≠ xyOk then .ok ([(e, cb.ret)], cb.ret, t)
      else
        let (calls, ret, u) ← eachLoop E cbs t (t.rt.siblingNext e) cb.ret
        .ok ((e, cb.ret) :: calls, ret, u)

def xyRegionEach (E : Env) (s : State) (cbs : List Callback) :
    Res (List (RegionPtr × Int) × Int × State) :=
  match s.rt.regionLookup s.rt.currentRegionId with
  | none => .ok ([], xyErrNotFound, s.back (s.rt.setErr xyErrNotFound, xyErrNotFound))
  | some parent => do
      let (calls, ret, t) ← eachLoop E cbs s (s.rt.regions parent).children.head? xyOk
      .ok (calls, ret, t.back (t.rt.setErr xyOk, ret))

end Xylem

import Xylem.Model.Machine

/-!
# Modules that load modules

A process in which every `xy_install` is a list of `xy_load` calls.
-/
namespace Xylem

/-- The machine, with the paths loaded and the paths installed so far as history. -/
structure Progress where
  state : State
  loads : List String := []
  installs : List String := []

namespace Progress

/-- `xy_load(fname)` up to its return, with what the `xy_install`s below it load. `script`
says which names the `xy_install` of a path loads, and `malloc` where entries are put. -/
def load (E : Env) (malloc : Runtime → Addr) (script : String → List String) :
    Nat → Progress → String → Res Progress
  | 0, _, _ => .error .divergence
  | fuel+1, p, fname => do
      let path := E.moduleLoadPath fname
      let s ← step E p.state (.load fname { addr := malloc p.state.rt })
      let p : Progress := { p with state := s, loads := path :: p.loads }
      if s.status = .entered then
        -- control is with the `xy_install` of the new entry
        let p ← (script path).foldlM (load E malloc script fuel)
          { p with installs := path :: p.installs }
        let s ← step E p.state .installRet
        .ok { p with state := s }
      else .ok p

def loadAll (E : Env) (malloc : Runtime → Addr) (script : String → List String) (fuel : Nat)
    (p : Progress) (names : List String) : Res Progress :=
  names.foldlM (load E malloc script fuel) p

end Progress

/-- The paths that loads of `names` lead to. -/
inductive Reachable (E : Env) (script : String → List String) (names : List String) : String → Prop
  | host {fname : String} (h : fname ∈ names) : Reachable E script names (E.moduleLoadPath fname)
  | install {path fname : String} (h : Reachable E script names path) (hf : fname ∈ script path) :
      Reachable E script names (E.moduleLoadPath fname)

def sampleScript : String → List String
  | "p" => ["q", "q"]
  | "q" => ["p", "q"]
  | _ => []

end Xylem

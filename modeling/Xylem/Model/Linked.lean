import Xylem.Model.Machine

/-!
# Constructors

`dlopen` runs the constructors of an image when it maps it, and because of
`RTLD_NODELETE` it maps each image once. Here the machine is run together with the
loader: `xy_self_init_ctx` is called by constructors and by nothing else.
-/
namespace Xylem

/-- The machine and the images that have been mapped so far. -/
structure Linked where
  state : State
  mapped : Finset ImageId := ∅

def openedImage (E : Env) (s : Runtime) (fname : String) (ch : LoadChoice) : Option ImageId :=
  let h := (s.modLoadImage (E.moduleLoadPath fname) ch).1
  if (E.dlopen h).isSome then some h else none

/-- The image that a call of the interface opens. A reload gets to its load if it finds
its module. -/
def Event.opens (E : Env) (s : Runtime) : Event → Option ImageId
  | .load fname ch => openedImage E s fname ch
  | .reload fname ch _ =>
      match s.moduleLookup E fname s.currentRegionId with
      | some _ => openedImage E { s with reloading := true } fname ch
      | none => none
  | _ => none

namespace Linked

/-- The constructor of `h` runs if `h` is mapped for the first time; `ctor` says which
context it registers, if any. -/
def construct (ctor : ImageId → Option CtxPtr) (s : Linked) : Option ImageId → Linked
  | none => s
  | some h =>
      if h ∈ s.mapped then s
      else
        let rt := match ctor h with
          | some c => { s.state.rt with pendingCtx := some c }
          | none => s.state.rt
        { state := { s.state with rt := rt }, mapped := insert h s.mapped }

/-- One step: the constructors of what the call opens, then the call. -/
def step (E : Env) (ctor : ImageId → Option CtxPtr) (s : Linked) (e : Event) : Res Linked :=
  match e with
  | .selfInitCtx _ => .error .refused
  | e =>
      let m := s.construct ctor (e.opens E s.state.rt)
      (Xylem.step E m.state e).map fun t => { m with state := t }

/-- A runtime that has just been initialised in a process that has mapped no module. -/
structure Boot (s : Linked) : Prop where
  state : Xylem.Boot s.state
  pendingCtx : s.state.rt.pendingCtx = none
  mapped : s.mapped = ∅

def Runs (E : Env) (ctor : ImageId → Option CtxPtr) (s₀ : Linked) (tr : List (Linked × Event))
    (s : Linked) : Prop :=
  Boot s₀ ∧ Run.Steps (step E ctor) s₀ tr s

end Linked

/-- `x` has a constructor that registers a context, a new one in each copy of the file;
`n` has neither a constructor nor `get_xy_ptr`. -/
def linkedFiles : String → Option Image
  | "x" => some { exports := fun name => decide (name ∈ ["xy_install", "h"]) }
  | "n" => some { exports := fun name => decide (name = "xy_install") }
  | _ => none

def linkedCtor (h : ImageId) : Option CtxPtr := if h.path = "x" then some h.copy else none

def linkedState : Linked := { state := sampleState }

theorem linkedState_boot : Linked.Boot linkedState := ⟨sampleState_boot, rfl, rfl⟩

end Xylem

import Xylem.Model.Machine

/-!
# Trampolines

The `*_adapter_call` functions that the macros generate: each gets the address to
store the result at, the function of the slot and the packed arguments.
-/
namespace Xylem

/-- A call of a function with the fields of an argument struct in order. -/
structure FnCall where
  fn : Fn
  args : List Bytes
  deriving DecidableEq, Repr

/-- What a trampoline does: the calls it makes, and the bytes at `res` afterwards. -/
structure Ran where
  calls : List FnCall
  res : Option Bytes
  deriving DecidableEq, Repr

/-- `*res = bytes`, where there is a `res`. -/
def storeRes (res : Option Bytes) (bytes : Bytes) : Option Bytes :=
  res.map fun b => bytes ++ b.drop bytes.length

namespace Trampoline

/-- Call `fn` on the unpacked fields and store what it returns. -/
def callAndStore (body : FnCall → Bytes) (res : Option Bytes) (fn : Fn) (arg : List Bytes) : Ran :=
  { calls := [⟨fn, arg⟩], res := storeRes res (body ⟨fn, arg⟩) }

/-- `adapter_call(res, f, arg)`; `body` says what the functions return. -/
def adapterCall (t : Trampoline) (body : FnCall → Bytes) (res : Option Bytes) (f : Option Fn)
    (arg : List Bytes) : Ran :=
  match t.kind, f with
  | .xyDef, none | .xyImpl, none | .rustImpl _, none =>
      { calls := [], res := storeRes res (List.replicate t.retSize 0) }
  | .rustDecl, none => { calls := [], res := res }
  | .xyDef, some fn | .xyImpl, some fn | .rustDecl, some fn => callAndStore body res fn arg
  | .rustImpl listener, some _ => callAndStore body res listener arg

end Trampoline

/-- Adapter 0 is the one of `p`, written in Rust, adapter 1 the one of `q`, written in C,
and adapter 2 one that the host has declared. -/
def mixedState : State :=
  { rt := { adapters := fun a =>
      { name := "h", retSize := 1
        call := match a with
          | 0 => some { retSize := 1, kind := .rustImpl ⟨⟨"p", 0⟩, "h"⟩ }
          | 1 => some { retSize := 1 }
          | _ => none } } }

theorem mixedState_boot : Boot mixedState :=
  { sampleState_boot with
    registry :=
      { lt := fun name id h => by simp [mixedState] at h
        inj := fun name name' id h => by simp [mixedState] at h
        sica := fun name => by simp [mixedState]
        held := fun a id h => by simp [mixedState] at h } }

end Xylem

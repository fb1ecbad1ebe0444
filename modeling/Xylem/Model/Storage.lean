import Xylem.Model.Module
import Xylem.Lib.Cells

/-!
# The arrays behind the symbol cells

`fn_cache` and `hook_impl_bits` are allocated as hook ids need them. A `ModEntry` has them as
total functions; here are the arrays with their recorded sizes, allocations that may fail, and
every access that a size check of the source is to keep inside. `none` is an access outside.
-/
namespace Xylem

/-- The symbol arrays of an `xy_mod_entry_t`, with the sizes recorded for them. -/
structure ModStore where
  fnCache : List FnSlot := []
  fnCacheCap : Nat := 0
  hookImplBits : List (BitVec 64) := []
  hookImplWords : Nat := 0
  deriving DecidableEq, Repr

/-- The places that ask for memory. No operation asks twice at the same place. -/
inductive Growth where
  | fnCache
  | hookImplBits (hookId : Nat)
  deriving DecidableEq, Repr

/-- What the allocator answers during one operation. -/
abbrev Alloc := Growth → Bool

/-- What the loop of `region_rebuild_hook_dispatch` does with a module. -/
inductive Picked where
  | abort
  | skip
  | slot (c : FnSlot)
  deriving DecidableEq, Repr

namespace ModStore

/-- `module_ensure_hook_impl_words`; `none` is the answer `-1`. -/
def moduleEnsureHookImplWords (a : Alloc) (st : ModStore) (hookId : Nat) : Option ModStore :=
  let needed := hookId / 64 + 1
  if needed ≤ st.hookImplWords then some st
  else if a (.hookImplBits hookId) then
    some { st with hookImplBits := Cells.grow 0 st.hookImplBits needed, hookImplWords := needed }
  else none

/-- `module_ensure_fn_cache_cap`; `none` is the answer `-1`. -/
def moduleEnsureFnCacheCap (a : Alloc) (st : ModStore) (needed : Nat) : Option ModStore :=
  if needed ≤ st.fnCacheCap then some st
  else if a .fnCache then
    some { st with fnCache := Cells.grow .null st.fnCache needed, fnCacheCap := needed }
  else none

/-- `me->hook_impl_bits[hook_id / 64] |= (uint64_t)1 << (hook_id % 64)`. -/
def raise (st : ModStore) (hookId : Nat) : Option ModStore :=
  st.hookImplBits[hookId / 64]?.map fun w =>
    { st with hookImplBits := st.hookImplBits.set (hookId / 64) (w ||| 1#64 <<< (hookId % 64)) }

/-- `module_mark_hook_implemented`. Without memory it leaves the bit down. -/
def moduleMarkHookImplemented (a : Alloc) (st : ModStore) (hookId : Nat) : Option ModStore :=
  match st.moduleEnsureHookImplWords a hookId with
  | none => some st
  | some st => st.raise hookId

def moduleHasHookImplemented (st : ModStore) (hookId : Nat) : Option Bool :=
  if st.hookImplWords ≤ hookId / 64 then some false
  else st.hookImplBits[hookId / 64]?.map fun w => w &&& 1#64 <<< (hookId % 64) != 0

/-- `me->fn_cache[hook_id] = cb ? cb : XY_FN_NOT_FOUND`, and the mark if there is one. -/
def fill (E : Env) (a : Alloc) (h : ImageId) (st : ModStore) (hookId : Nat) (name : String) :
    Option ModStore :=
  if hookId < st.fnCache.length then
    match E.dlsym h name with
    | some f => { st with fnCache := st.fnCache.set hookId (.fn f) }.moduleMarkHookImplemented a hookId
    | none => some { st with fnCache := st.fnCache.set hookId .notFound }
  else none

/-- `fn_cache_resolve`, with the callback it returns; no answer is `XY_FN_RESOLVE_OOM`. -/
def fnCacheResolve (E : Env) (a : Alloc) (h : ImageId) (st : ModStore) (hookId : Nat)
    (name : String) : Option (ModStore × Option (Option Fn)) :=
  if hookId < st.fnCacheCap then
    match st.fnCache[hookId]? with
    | none => none
    | some (.fn f) => some (st, some (some f))
    | some .notFound => some (st, some none)
    | some .null => (st.fill E a h hookId name).map fun st => (st, some (E.dlsym h name))
  else
    match st.moduleEnsureFnCacheCap a (hookId + 16) with
    | none => some (st, none)
    | some st => (st.fill E a h hookId name).map fun st => (st, some (E.dlsym h name))

def prewarmHook (E : Env) (a : Alloc) (h : ImageId) (st : ModStore) (hook : (_ : String) × Nat) :
    Option ModStore :=
  if st.fnCacheCap ≤ hook.2 then some st
  else
    match st.fnCache[hook.2]? with
    | none => none
    | some .null => st.fill E a h hook.2 hook.1
    | some _ => some st

/-- `fn_cache_prewarm`, with the hook counter and the hooks of `hook_id_hd`. -/
def fnCachePrewarm (E : Env) (a : Alloc) (h : ImageId) (counter : Nat)
    (hooks : List ((_ : String) × Nat)) (st : ModStore) : Option ModStore :=
  if counter = 0 then some st
  else
    match st.moduleEnsureFnCacheCap a (counter + 16) with
    | none => some st
    | some st => hooks.foldlM (prewarmHook E a h) st

/-- What `module_clear_fn_cache_for_handle` leaves in a cell. -/
def clearCell (base : ImageId) : FnSlot → FnSlot
  | .fn f => if f.image = base then .null else .fn f
  | c => c

/-- The loop over one module in `module_clear_fn_cache_for_handle`. -/
def clearFnCache (base : ImageId) (st : ModStore) : Option ModStore :=
  if st.fnCacheCap ≤ st.fnCache.length then some { st with fnCache := st.fnCache.map (clearCell base) }
  else none

/-- `if (!module_has_hook_implemented(me, hook_id)) continue;`, and the slot written after it. -/
def readSlot (st : ModStore) (hookId : Nat) : Option Picked :=
  match st.moduleHasHookImplemented hookId with
  | none => none
  | some false => some .skip
  | some true => st.fnCache[hookId]?.map .slot

/-- One module in the loop of `region_rebuild_hook_dispatch`, read from its arrays. -/
def pick (E : Env) (a : Alloc) (h : ImageId) (st : ModStore) (hookId : Nat) (name : String) :
    Option (ModStore × Picked) :=
  match st.moduleHasHookImplemented hookId with
  | none => none
  | some true => (st.readSlot hookId).map fun r => (st, r)
  | some false =>
      match st.fnCacheResolve E a h hookId name with
      | none => none
      | some (st, none) => some (st, .abort)
      | some (st, some none) => some (st, .skip)
      | some (st, some (some _)) => (st.readSlot hookId).map fun r => (st, r)

end ModStore

/-- What happens to the arrays of a module: a load or a registration fills them, the unload of
an image clears them, a rebuild reads them. -/
inductive StoreOp where
  | prewarm (counter : Nat) (hooks : List ((_ : String) × Nat))
  | clear (base : ImageId)
  | pick (hookId : Nat) (name : String)

namespace StoreOp

def run (E : Env) (a : Alloc) (h : ImageId) (st : ModStore) : StoreOp → Option ModStore
  | prewarm counter hooks => st.fnCachePrewarm E a h counter hooks
  | clear base => st.clearFnCache base
  | pick hookId name => (st.pick E a h hookId name).map (·.1)

def apply (E : Env) (e : ModEntry) : StoreOp → ModEntry
  | prewarm _ hooks => e.fnCachePrewarm E hooks
  | clear base => e.clearFnCache base
  | pick hookId name => if e.hookImplBits hookId then e else (e.fnCacheResolve E hookId name).1

/-- Hooks go by the ids of the registry, which are below the counter. -/
def Valid (hooks : AList (fun _ : String => Nat)) : StoreOp → Prop
  | prewarm counter l => ∀ x ∈ l, hooks.lookup x.1 = some x.2 ∧ x.2 < counter
  | clear _ => True
  | pick hookId name => hooks.lookup name = some hookId

end StoreOp
end Xylem

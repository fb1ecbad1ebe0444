import Xylem.Model.Region

/-!
# Module entries

The module helpers of `libxylem.c` and the symbol cache of
`libxylem-dispatch.c`: lookup by key, re-keying after a claim, the intrusive
per-region list, and what freeing an entry does.
-/
namespace Xylem

namespace ModEntry

/-- `fn_cache_resolve`, with the callback it returns. -/
def fnCacheResolve (E : Env) (me : ModEntry) (hookId : Nat) (name : String) :
    ModEntry × Option Fn :=
  match me.fnCache hookId with
  | .fn f => (me, some f)
  | .notFound => (me, none)
  | .null =>
      match E.dlsym me.handle name with
      | some f => ({ me with
          fnCache := Function.update me.fnCache hookId (.fn f)
          hookImplBits := Function.update me.hookImplBits hookId true }, some f)
      | none => ({ me with fnCache := Function.update me.fnCache hookId .notFound }, none)

/-- `fn_cache_prewarm`: resolve every hook known so far that is not resolved yet. -/
def fnCachePrewarm (E : Env) (hooks : List ((_ : String) × Nat)) (me : ModEntry) : ModEntry :=
  hooks.foldl (fun me h => (me.fnCacheResolve E h.2 h.1).1) me

/-- One round of the loop in `module_clear_fn_cache_for_handle`. -/
def clearFnCache (base : ImageId) (me : ModEntry) : ModEntry :=
  { me with fnCache := fun i =>
      match me.fnCache i with
      | .fn f => if f.image = base then .null else .fn f
      | c => c }

end ModEntry

namespace Runtime

/-- `module_lookup_from_fname`: the resolved path and what `mod_hd` has under it, by its exact
key (the code's as long as ids have 60 bits at most). -/
def moduleLookup (E : Env) (s : Runtime) (fname : String) (region : RegionId) :
    Option EntryPtr :=
  s.modHd.lookup ⟨E.moduleLoadPath fname, region⟩

/-- `module_handle_base`, found through one of the two standard symbols. -/
def moduleHandleBase (E : Env) (h : ImageId) : Option ImageId :=
  match E.dlsym h "xy_install" with
  | some f => some f.image
  | none => (E.dlsym h "get_xy_ptr").map (·.image)

/-- `module_rekey_region_index`; the scratch array holds 512 entries. -/
def moduleRekeyRegionIndex (s : Runtime) (me : EntryPtr) (parent child : RegionId) : Runtime :=
  let others := (s.modByRegionHd.filter fun x => x.1 = parent ∧ x.2 ≠ me).take 512
  { s with modByRegionHd :=
      s.modByRegionHd.filter (fun x => x.1 ≠ parent) ++ others ++ [(child, me)] }

/-- The body of `module_rekey_loaded_entry` for the entry `e` it finds at `me`. -/
def rekeyEntry (s : Runtime) (me : EntryPtr) (e : ModEntry) (oldKey : ModKey)
    (parent child : RegionId) : Runtime :=
  let newKey : ModKey := ⟨oldKey.path, child⟩
  let s := s.setEntry me (some { e with regionId := child, modKey := newKey })
  let s := { s with modHd := (s.modHd.insert newKey me).erase oldKey }
  let s := s.moduleRekeyRegionIndex me parent child
  match e.ctx with
  | some c => s.setCtx c fun x => { x with regionId := child }
  | none => s

def moduleRekeyLoadedEntry (s : Runtime) (me : EntryPtr) (oldKey : ModKey)
    (parent child : RegionId) : Res Runtime := do
  let e ← s.deref me
  .ok (s.rekeyEntry me e oldKey parent child)

def moduleRekeyForClaim (E : Env) (s : Runtime) (caller : String) (parent child : RegionId) :
    Res Runtime :=
  match s.moduleLookup E caller parent with
  | some me => s.moduleRekeyLoadedEntry me ⟨E.moduleLoadPath caller, parent⟩ parent child
  | none => .ok s

/-- Point the `region_next` of `q`, or else the head of the list, to `v`. -/
def linkNext (s : Runtime) (r : RegionPtr) (q v : Option EntryPtr) : Res Runtime :=
  match q with
  | some q => s.store q fun m => { m with regionNext := v }
  | none => .ok (s.setRegion r fun re => { re with modsHead := v })

/-- Point the `region_prev` of `q`, or else the tail of the list, to `v`. -/
def linkPrev (s : Runtime) (r : RegionPtr) (q v : Option EntryPtr) : Res Runtime :=
  match q with
  | some q => s.store q fun m => { m with regionPrev := v }
  | none => .ok (s.setRegion r fun re => { re with modsTail := v })

/-- Taking an entry out of its neighbours' links, as `module_region_detach`
and `mod_load_abort` both write it out. -/
def regionUnlink (s : Runtime) (r : RegionPtr) (e : ModEntry) : Res Runtime := do
  let s ← s.linkNext r e.regionPrev e.regionNext
  s.linkPrev r e.regionNext e.regionPrev

def moduleRegionDetach (s : Runtime) (p : EntryPtr) : Res Runtime := do
  let e ← s.deref p
  match e.regionEntry with
  | none => .ok s
  | some r =>
      let s ← s.regionUnlink r e
      let s ← s.store p fun m => { m with regionPrev := none, regionNext := none }
      .ok (s.regionMarkSubtreeDirty r)

/-- `module_region_insert_after`; without an anchor the entry becomes the head. -/
def moduleRegionInsertAfter (s : Runtime) (r : RegionPtr) (p : EntryPtr)
    (after : Option EntryPtr) : Res Runtime := do
  let s ← s.store p fun m => { m with regionEntry := some r }
  match after with
  | none =>
      let head := (s.regions r).modsHead
      let s ← s.store p fun m => { m with regionPrev := none, regionNext := head }
      let s ← s.linkPrev r head (some p)
      let s := s.setRegion r fun re => { re with modsHead := some p }
      .ok (s.regionMarkSubtreeDirty r)
  | some a =>
      let anchor ← s.deref a
      let s ← s.store p fun m => { m with regionPrev := some a, regionNext := anchor.regionNext }
      let s ← s.linkPrev r anchor.regionNext (some p)
      let s ← s.store a fun m => { m with regionNext := some p }
      .ok (s.regionMarkSubtreeDirty r)

def moduleRegionAppend (s : Runtime) (r : RegionPtr) (p : EntryPtr) : Res Runtime :=
  s.moduleRegionInsertAfter r p (s.regions r).modsTail

def moduleClearFnCacheForHandle (E : Env) (s : Runtime) (p : EntryPtr) (handle : ImageId) :
    Runtime :=
  match moduleHandleBase E handle with
  | none => s
  | some base => s.mapEntries ((s.modEntries E).filter (· ≠ p)) (ModEntry.clearFnCache base)

def dlclose (s : Runtime) (h : ImageId) : Runtime :=
  { s with
    dlRefs := Function.update s.dlRefs h (s.dlRefs h - 1)
    badReleases := if 0 < s.dlRefs h then s.badReleases else s.badReleases + 1 }

def unlinkTmp (s : Runtime) (tmp : Option ImageId) : Runtime :=
  match tmp with
  | some t =>
      { s with
        tmpFiles := s.tmpFiles.erase t
        badReleases := if t ∈ s.tmpFiles then s.badReleases else s.badReleases + 1 }
  | none => s

/-- `module_cleanup_region_state` of an entry that its caller then frees. -/
def moduleCleanupRegionState (E : Env) (s : Runtime) (e : ModEntry) : Runtime :=
  match e.regionState with
  | some b => { s with cleanups := s.cleanups ++ [(b, E.dlsym e.handle "xy_region_cleanup")] }
  | none => s

/-- `module_free_entry` with `close_handle` set. -/
def moduleFreeEntry (E : Env) (s : Runtime) (p : EntryPtr) : Res Runtime := do
  let e ← s.deref p
  let s := (s.moduleCleanupRegionState E e).setEntry p none
  .ok ((s.dlclose e.handle).unlinkTmp e.tmpLoadPath)

end Runtime
end Xylem

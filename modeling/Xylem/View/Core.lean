import Xylem.Model.Linked
import Xylem.Model.Script
import Xylem.Model.Trampoline

/-!
# The runtime without its caches

`Core` keeps what statements about regions, instances and contexts speak of
and leaves out the list links, the symbol cells, the dispatch vectors and the
scratch variables. Each library function either keeps the core or changes it in
the few places its lemma here names.
-/
namespace Xylem

/-- A module entry without its list links and symbol cells. -/
def ModEntry.core (e : ModEntry) : ModEntry :=
  { e with
    regionNext := none, regionPrev := none
    fnCache := fun _ => .null, hookImplBits := fun _ => false }

/-- The region tree with the rules of each region. -/
structure Tree where
  node : RegionPtr → RegionNode
  next : RegionPtr
  hd : RegionId → Option RegionPtr

/-- The hook registry and the adapters. -/
structure Hooks where
  hookIdHd : AList (fun _ : String => Nat)
  hookIdCounter : Nat
  sicaHd : String → Option AdapterPtr
  adapters : AdapterPtr → Adapter
  adapterById : Nat → Option AdapterPtr
  adapterByIdCap : Nat

@[ext]
structure Core where
  tree : Tree
  entries : EntryPtr → Option ModEntry
  entryNext : EntryPtr
  addr : EntryPtr → Addr
  modHd : AList (fun _ : ModKey => EntryPtr)
  modByRegionHd : RegionIndex
  ctxs : CtxPtr → Ctx
  pendingCtx : Option CtxPtr
  modCount : Int
  stateNext : StatePtr
  currentRegionId : RegionId
  currentRegionEntry : Option RegionPtr
  loadingMod : Option EntryPtr
  reloading : Bool
  hooks : Hooks

namespace Runtime

def tree (s : Runtime) : Tree :=
  ⟨fun r => (s.regions r).toRegionNode, s.regionNext, s.regionHd⟩

def hooks (s : Runtime) : Hooks :=
  ⟨s.hookIdHd, s.hookIdCounter, s.sicaHd, s.adapters, s.adapterById, s.adapterByIdCap⟩

def core (s : Runtime) : Core :=
  { tree := s.tree, entries := fun p => (s.entries p).map ModEntry.core, entryNext := s.entryNext,
    addr := s.addr, modHd := s.modHd, modByRegionHd := s.modByRegionHd, ctxs := s.ctxs,
    pendingCtx := s.pendingCtx, modCount := s.modCount, stateNext := s.stateNext,
    currentRegionId := s.currentRegionId, currentRegionEntry := s.currentRegionEntry,
    loadingMod := s.loadingMod, reloading := s.reloading, hooks := s.hooks }

theorem deref_ok {s : Runtime} {p : EntryPtr} {e : ModEntry} :
    s.deref p = .ok e ↔ s.entries p = some e := by
  unfold deref
  cases h : s.entries p <;> simp

theorem store_ok {s t : Runtime} {p : EntryPtr} {f : ModEntry → ModEntry} :
    s.store p f = .ok t ↔ ∃ e, s.entries p = some e ∧ t = s.setEntry p (some (f e)) := by
  simp only [store, Res.bind_ok, deref_ok, Except.ok.injEq]
  exact exists_congr fun e => and_congr_right fun _ => eq_comm

section Cores
variable {s t : Runtime} {E : Env}

theorem setEntry_core (s : Runtime) (p : EntryPtr) (e : Option ModEntry) :
    (s.setEntry p e).core =
      { s.core with entries := Function.update s.core.entries p (e.map ModEntry.core) } := by
  simp only [core, tree, hooks, setEntry, Core.mk.injEq, true_and, and_true]
  funext q
  by_cases h : q = p
  · subst h
    simp
  · simp [h]

theorem setEntry_core_same {p : EntryPtr} {e e' : ModEntry} (h : s.entries p = some e)
    (he : e'.core = e.core) : (s.setEntry p (some e')).core = s.core := by
  rw [setEntry_core]
  have : Function.update s.core.entries p (Option.map ModEntry.core (some e')) = s.core.entries :=
    Function.update_eq_self_iff.mpr (by simp [core, h, he])
  rw [this]

theorem store_core_same {p : EntryPtr} {f : ModEntry → ModEntry} (h : s.store p f = .ok t)
    (hf : ∀ e, (f e).core = e.core) : t.core = s.core := by
  obtain ⟨e, he, rfl⟩ := store_ok.mp h
  exact setEntry_core_same he (hf e)

theorem moduleCleanupRegionState_eq (E : Env) (s : Runtime) (e : ModEntry) : ∃ l,
    s.moduleCleanupRegionState E e = { s with cleanups := s.cleanups ++ l } := by
  unfold moduleCleanupRegionState
  split
  · exact ⟨_, rfl⟩
  · exact ⟨[], by rw [List.append_nil]⟩

@[simp] theorem moduleCleanupRegionState_core (E : Env) (s : Runtime) (e : ModEntry) :
    (s.moduleCleanupRegionState E e).core = s.core := by
  obtain ⟨l, hl⟩ := moduleCleanupRegionState_eq E s e
  rw [hl]
  rfl

theorem setRegion_core {r : RegionPtr} {f : RegionEntry → RegionEntry}
    (hf : ∀ re, (f re).toRegionNode = re.toRegionNode) : (s.setRegion r f).core = s.core := by
  have : (fun x => (Function.update s.regions r (f (s.regions r)) x).toRegionNode) =
      fun x => (s.regions x).toRegionNode := by
    funext x
    by_cases h : x = r
    · subst h
      simp [hf]
    · simp [h]
  simp only [core, tree, hooks, setRegion, this]

theorem foldl_setRegion_core (f : RegionEntry → RegionEntry)
    (hf : ∀ re, (f re).toRegionNode = re.toRegionNode) (l : List RegionPtr) (s : Runtime) :
    (l.foldl (fun s e => s.setRegion e f) s).core = s.core := by
  induction l generalizing s with
  | nil => rfl
  | cons r l ih => rw [List.foldl_cons, ih, setRegion_core hf]

theorem mapEntries_core {l : List EntryPtr} {f : ModEntry → ModEntry}
    (hf : ∀ e, (f e).core = e.core) : (s.mapEntries l f).core = s.core := by
  have : (fun p => Option.map ModEntry.core ((s.mapEntries l f).entries p)) =
      fun p => (s.entries p).map ModEntry.core := by
    funext p
    simp only [mapEntries]
    split
    · cases s.entries p <;> simp [hf]
    · rfl
  simp only [core, tree, hooks, mapEntries] at this ⊢
  simp only [this]

@[simp] theorem setErr_core (s : Runtime) (e : Int) : (s.setErr e).core = s.core := rfl

@[simp] theorem setCurrentRegion_core (s : Runtime) (id : RegionId) (r : Option RegionPtr) :
    (s.setCurrentRegion id r).core =
      { s.core with currentRegionId := id, currentRegionEntry := r } := rfl

@[simp] theorem setCtx_core (s : Runtime) (c : CtxPtr) (f : Ctx → Ctx) :
    (s.setCtx c f).core =
      { s.core with ctxs := Function.update s.core.ctxs c (f (s.core.ctxs c)) } := rfl

@[simp] theorem dlclose_core (s : Runtime) (h : ImageId) : (s.dlclose h).core = s.core := rfl

@[simp] theorem unlinkTmp_core (s : Runtime) (t : Option ImageId) :
    (s.unlinkTmp t).core = s.core := by
  cases t <;> rfl

@[simp] theorem regionDispatchGenBump_core (s : Runtime) (r : RegionPtr) :
    (s.regionDispatchGenBump r).core = s.core := by
  have h := foldl_setRegion_core (fun re => { re with dispatchGen := genSucc re.dispatchGen })
    (fun _ => rfl) (s.upward r) s
  exact h

theorem regionMarkSubtreeDirty_eq (s : Runtime) (r : RegionPtr) :
    ∃ regions, s.regionMarkSubtreeDirty r =
      { s with regions := regions, genBumps := s.genBumps + 1 } := by
  have h : ∀ (f : RegionEntry → RegionEntry) (l : List RegionPtr) (s : Runtime),
      ∃ regions, l.foldl (fun s e => s.setRegion e f) s = { s with regions := regions } := by
    intro f l
    induction l with
    | nil => exact fun s => ⟨s.regions, rfl⟩
    | cons r l ih =>
        intro s
        obtain ⟨regions, hr⟩ := ih (s.setRegion r f)
        exact ⟨regions, hr⟩
  obtain ⟨r1, h1⟩ := h (fun re => { re with dispatchGen := genSucc re.dispatchGen }) (s.upward r) s
  obtain ⟨r2, h2⟩ := h (fun re => { re with subtreeModsDirty := true })
    ((s.regionDispatchGenBump r).upward r) (s.regionDispatchGenBump r)
  refine ⟨r2, h2.trans ?_⟩
  simp only [regionDispatchGenBump, h1]

@[simp] theorem regionMarkSubtreeDirty_core (s : Runtime) (r : RegionPtr) :
    (s.regionMarkSubtreeDirty r).core = s.core := by
  have h := foldl_setRegion_core (fun re => { re with subtreeModsDirty := true })
    (fun _ => rfl) ((s.regionDispatchGenBump r).upward r) (s.regionDispatchGenBump r)
  exact h.trans (regionDispatchGenBump_core s r)

theorem regionRebuildSubtreeMods_core {r : RegionPtr}
    (h : s.regionRebuildSubtreeMods r = .ok t) : t.core = s.core := by
  simp only [regionRebuildSubtreeMods, Res.bind_ok, Except.ok.injEq] at h
  obtain ⟨l, _, rfl⟩ := h
  exact setRegion_core fun _ => rfl

end Cores
end Runtime

namespace ModEntry

@[simp] theorem fnCacheResolve_core (E : Env) (e : ModEntry) (i : Nat) (name : String) :
    (e.fnCacheResolve E i name).1.core = e.core := by
  unfold fnCacheResolve
  split
  · rfl
  · rfl
  · split <;> rfl

@[simp] theorem fnCachePrewarm_core (E : Env) (hooks : List ((_ : String) × Nat))
    (e : ModEntry) : (e.fnCachePrewarm E hooks).core = e.core := by
  unfold fnCachePrewarm
  induction hooks generalizing e with
  | nil => rfl
  | cons h hooks ih => rw [List.foldl_cons, ih, fnCacheResolve_core]

end ModEntry

namespace Runtime

section Lists
variable {s t : Runtime} {E : Env}

theorem linkNext_core {r : RegionPtr} {q v : Option EntryPtr} (h : s.linkNext r q v = .ok t) :
    t.core = s.core := by
  cases q with
  | none =>
      cases h
      exact setRegion_core fun _ => rfl
  | some q => exact store_core_same h fun _ => rfl

theorem linkPrev_core {r : RegionPtr} {q v : Option EntryPtr} (h : s.linkPrev r q v = .ok t) :
    t.core = s.core := by
  cases q with
  | none =>
      cases h
      exact setRegion_core fun _ => rfl
  | some q => exact store_core_same h fun _ => rfl

theorem regionUnlink_core {r : RegionPtr} {e : ModEntry} (h : s.regionUnlink r e = .ok t) :
    t.core = s.core := by
  obtain ⟨m, hm, ht⟩ := Res.bind_ok.mp h
  exact (linkPrev_core ht).trans (linkNext_core hm)

theorem moduleRegionDetach_core {p : EntryPtr} (h : s.moduleRegionDetach p = .ok t) :
    t.core = s.core := by
  simp only [moduleRegionDetach, Res.bind_ok] at h
  obtain ⟨e, _, h⟩ := h
  cases hr : e.regionEntry with
  | none =>
      simp only [hr, Except.ok.injEq] at h
      rw [h]
  | some r =>
      simp only [hr, Res.bind_ok, Except.ok.injEq] at h
      obtain ⟨m, hm, m', hm', rfl⟩ := h
      rw [regionMarkSubtreeDirty_core]
      exact (store_core_same hm' fun _ => rfl).trans (regionUnlink_core hm)

/-- Inserting writes the entry's region, and nothing else of the core. -/
theorem moduleRegionInsertAfter_core {r : RegionPtr} {p : EntryPtr} {after : Option EntryPtr}
    (h : s.moduleRegionInsertAfter r p after = .ok t) :
    ∃ e, s.entries p = some e ∧
      t.core = (s.setEntry p (some { e with regionEntry := some r })).core := by
  obtain ⟨m, hm, h⟩ := Res.bind_ok.mp h
  obtain ⟨e, he, rfl⟩ := store_ok.mp hm
  refine ⟨e, he, ?_⟩
  generalize s.setEntry p (some { e with regionEntry := some r }) = m at h
  cases after with
  | none =>
      simp only [Res.bind_ok, Except.ok.injEq] at h
      obtain ⟨m1, h1, m2, h2, rfl⟩ := h
      rw [regionMarkSubtreeDirty_core]
      rw [setRegion_core]
      · exact (linkPrev_core h2).trans (store_core_same h1 fun _ => rfl)
      · exact fun _ => rfl
  | some a =>
      simp only [Res.bind_ok, Except.ok.injEq] at h
      obtain ⟨anchor, _, m1, h1, m2, h2, m3, h3, rfl⟩ := h
      rw [regionMarkSubtreeDirty_core]
      calc m3.core = m2.core := store_core_same h3 fun _ => rfl
        _ = m1.core := linkPrev_core h2
        _ = m.core := store_core_same h1 fun _ => rfl

@[simp] theorem moduleClearFnCacheForHandle_core (s : Runtime) (p : EntryPtr) (h : ImageId) :
    (s.moduleClearFnCacheForHandle E p h).core = s.core := by
  unfold moduleClearFnCacheForHandle
  split
  · rfl
  · exact mapEntries_core fun _ => rfl

end Lists
end Runtime
end Xylem

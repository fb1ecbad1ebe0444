import Xylem.Heap.OpenLoad

namespace Xylem

namespace Tree

structure FewerDenies (T T' : Tree) : Prop where
  next : T'.next = T.next
  hd : T'.hd = T.hd
  node : ∀ r, ∃ mods set, T'.node r =
    { T.node r with deniedModules := mods, deniedModulesSet := set }
  sub : ∀ r, (T'.node r).deniedModules.Sublist (T.node r).deniedModules

theorem FewerDenies.refl (T : Tree) : FewerDenies T T :=
  ⟨rfl, rfl, fun r => ⟨(T.node r).deniedModules, (T.node r).deniedModulesSet, rfl⟩,
    fun _ => List.Sublist.refl _⟩

theorem FewerDenies.trans {T T' T'' : Tree} (h : FewerDenies T T') (k : FewerDenies T' T'') :
    FewerDenies T T'' := by
  refine ⟨k.next.trans h.next, k.hd.trans h.hd, fun r => ?_, fun r => (k.sub r).trans (h.sub r)⟩
  obtain ⟨m, f, hm⟩ := k.node r
  obtain ⟨m', f', hm'⟩ := h.node r
  exact ⟨m, f, by rw [hm, hm']⟩

theorem removeDenies_fewer (T : Tree) (r : RegionPtr) (path : String) :
    FewerDenies T (T.removeDenies r path) := by
  refine ⟨rfl, rfl, fun x => ?_, fun x => ?_⟩
  · by_cases hx : x = r
    · subst hx
      exact ⟨_, _, Function.update_self _ _ _⟩
    · exact ⟨_, _, Function.update_of_ne hx _ _⟩
  · by_cases hx : x = r
    · subst hx
      simp only [removeDenies, modify, Function.update_self]
      exact List.filter_sublist
    · simp only [removeDenies, modify, Function.update_of_ne hx]
      exact List.Sublist.refl _

theorem FewerDenies.parentOf {T T' : Tree} (h : FewerDenies T T') : T'.parentOf = T.parentOf := by
  funext r
  obtain ⟨m, f, hm⟩ := h.node r
  rw [Tree.parentOf, hm, Tree.parentOf]

theorem FewerDenies.shape {T T' : Tree} (h : FewerDenies T T') (r : RegionPtr) :
    (T'.node r).toRegionShape = (T.node r).toRegionShape := by
  obtain ⟨m, f, hm⟩ := h.node r
  rw [hm]

/-- The tree once the denies of a module that goes are taken back. -/
def unload (T : Tree) (e : ModEntry) : Tree :=
  match e.regionEntry with
  | some r => if e.loadPath ∈ (T.node r).deniedModules then T.removeDenies r e.loadPath else T
  | none => T

theorem unload_fewer (T : Tree) (e : ModEntry) : FewerDenies T (T.unload e) := by
  unfold unload
  split
  · split
    · exact removeDenies_fewer _ _ _
    · exact .refl _
  · exact .refl _

end Tree

namespace Runtime
variable {s t : Runtime} {E : Env}

/-- Removing one entry: its denies, its key, one pair of its region. -/
theorem modUnloadEntry_core {p : EntryPtr} {e : ModEntry} (he : s.entries p = some e)
    (h : s.modUnloadEntry E p = .ok t) :
    t.core = { s.core with
      tree := s.tree.unload e
      entries := Function.update s.core.entries p none
      modByRegionHd := E.qmapDel s.modByRegionHd e.regionId
      modHd := s.modHd.erase e.modKey
      modCount := s.modCount - 1 } := by
  simp only [modUnloadEntry, Res.bind_ok, deref_ok, moduleFreeEntry, Except.ok.injEq] at h
  obtain ⟨e', he', m, hm, e'', -, rfl⟩ := h
  cases he.symm.trans he'
  have hc := moduleRegionDetach_core hm
  have h0 := moduleClearFnCacheForHandle_core (E := E) s p e.handle
  have h1 : m.core = { s.core with tree := s.tree.unload e } := by
    rw [hc]
    generalize s.moduleClearFnCacheForHandle E p e.handle = s1 at h0
    have ht := core_tree h0
    unfold Tree.unload
    cases e.regionEntry with
    | none => exact h0
    | some r =>
        have hn : (s1.regions r).deniedModules = (s.tree.node r).deniedModules :=
          congrArg (fun T : Tree => (T.node r).deniedModules) ht
        simp only [moduleRemoveDenies, hn]
        split
        · rw [← ht, ← h0]
          refine Core.ext (?_ : (s1.setRegion r _).tree = s1.tree.removeDenies r e.loadPath)
            rfl rfl rfl rfl rfl rfl rfl rfl rfl rfl rfl rfl rfl rfl
          exact setRegion_tree s1 r _ _ fun _ => rfl
        · exact h0
  rw [unlinkTmp_core, dlclose_core, setEntry_core, moduleCleanupRegionState_core]
  have h2 : ∀ {γ : Type} (g : Core → γ), g m.core = g { s.core with tree := s.tree.unload e } :=
    fun g => congrArg g h1
  refine Core.ext (h2 Core.tree) ?_ (h2 Core.entryNext) (h2 Core.addr) ?_ ?_ (h2 Core.ctxs)
    (h2 Core.pendingCtx) ?_ (h2 Core.stateNext) (h2 Core.currentRegionId)
    (h2 Core.currentRegionEntry) (h2 Core.loadingMod) (h2 Core.reloading) (h2 Core.hooks)
  · exact congrArg (Function.update · p none) (h2 Core.entries)
  · exact congrArg (AList.erase e.modKey) (h2 Core.modHd)
  · exact congrArg (E.qmapDel · e.regionId) (h2 Core.modByRegionHd)
  · exact congrArg (· - 1) (h2 Core.modCount)

/-- What an unload may change. -/
structure Unloaded (s t : Runtime) : Prop where
  core : t.core = { s.core with
    tree := t.tree, entries := t.core.entries, modHd := t.modHd
    modByRegionHd := t.modByRegionHd, modCount := t.modCount }
  entries : ∀ q e', t.entries q = some e' → ∃ e, s.entries q = some e ∧
    e'.core = { e.core with refcount := e'.refcount }
  tree : Tree.FewerDenies s.tree t.tree

theorem Unloaded.of_core (h : t.core = s.core) : Unloaded s t := by
  refine ⟨h.trans (Core.ext ?_ ?_ rfl rfl ?_ ?_ rfl rfl ?_ rfl rfl rfl rfl rfl rfl),
    fun q e' he' => ?_, ?_⟩
  · exact (core_tree h).symm
  · exact (congrArg Core.entries h).symm
  · exact (congrArg Core.modHd h).symm
  · exact (congrArg Core.modByRegionHd h).symm
  · exact (congrArg Core.modCount h).symm
  · obtain ⟨e, he, hc⟩ := entries_of_core h.symm he'
    refine ⟨e, he, ?_⟩
    have hr : e'.refcount = e.refcount := (congrArg ModEntry.refcount hc.symm : _)
    rw [← hc, hr]
    rfl
  · rw [core_tree h]
    exact .refl _

theorem Unloaded.trans {u : Runtime} (h : Unloaded s t) (k : Unloaded t u) : Unloaded s u := by
  refine ⟨k.core.trans ?_, fun q e' he' => ?_, h.tree.trans k.tree⟩
  · rw [h.core]
  · obtain ⟨e1, h1, c1⟩ := k.entries q e' he'
    obtain ⟨e, he, c⟩ := h.entries q e1 h1
    exact ⟨e, he, by rw [c1, c]⟩

theorem setEntry_unloaded {p : EntryPtr} {e : ModEntry} (he : s.entries p = some e) (n : Int) :
    Unloaded s (s.setEntry p (some { e with refcount := n })) := by
  refine ⟨?_, fun q e' he' => ?_, .refl _⟩
  · rw [setEntry_core]
    rfl
  · by_cases hq : q = p
    · subst hq
      simp only [setEntry, Function.update_self, Option.some.injEq] at he'
      subst he'
      exact ⟨e, he, rfl⟩
    · simp only [setEntry, Function.update_of_ne hq] at he'
      exact ⟨e', he', rfl⟩

theorem modUnloadEntry_unloaded {p : EntryPtr} (h : s.modUnloadEntry E p = .ok t) : Unloaded s t := by
  obtain ⟨e, he, -⟩ := Res.bind_ok.mp h
  have hc := modUnloadEntry_core (deref_ok.mp he) h
  refine ⟨?_, fun q e' he' => ?_, ?_⟩
  · refine hc.trans (Core.ext ?_ ?_ rfl rfl ?_ ?_ rfl rfl ?_ rfl rfl rfl rfl rfl rfl)
    · exact (congrArg Core.tree hc).symm
    · exact (congrArg Core.entries hc).symm
    · exact (congrArg Core.modHd hc).symm
    · exact (congrArg Core.modByRegionHd hc).symm
    · exact (congrArg Core.modCount hc).symm
  · have h1 : (t.entries q).map ModEntry.core = Function.update s.core.entries p none q :=
      congrFun (congrArg Core.entries hc) q
    rw [he', Function.update_apply] at h1
    split at h1
    · cases h1
    · obtain ⟨e0, he0, hce⟩ := Option.map_eq_some_iff.mp h1.symm
      refine ⟨e0, he0, ?_⟩
      have hr : e0.refcount = e'.refcount := (congrArg ModEntry.refcount hce : _)
      rw [← hr, ← hce]
      rfl
  · rw [show t.tree = _ from congrArg Core.tree hc]
    exact Tree.unload_fewer _ _

theorem modUnload_unloaded (fuel : Nat) {fname : String} {region : RegionId} {ret : Int}
    (h : s.modUnload E fuel fname region = .ok (t, ret)) : Unloaded s t :=
  modUnload_rel Unloaded (fun _ => .of_core rfl) (fun _ _ _ => .trans)
    (fun _ => .of_core (setErr_core _ _)) (fun _ _ e he => setEntry_unloaded he (e.refcount - 1))
    (fun _ _ _ => modUnloadEntry_unloaded) fuel h

end Runtime
end Xylem

import Xylem.Heap.Unloaded
import Xylem.Ops.Result

namespace Xylem

open Xylem.Runtime

namespace Prim
variable {E : Env} {g : RegionPtr → UInt8 → Prop} {s t : Runtime} {x y : Transit}

theorem cleanups (h : Prim E g (s, x) (t, y)) : s.cleanups <+: t.cleanups := by
  have same : t.cleanups = s.cleanups → s.cleanups <+: t.cleanups := fun h => h ▸ List.prefix_rfl
  cases h with
  | scratch hs => exact hs.cleanups
  | removeDenies r path => exact same (moduleRemoveDenies_apart s r path).cleanups
  | detach hd => exact same (moduleRegionDetach_apart hd).cleanups
  | unlist he hu => exact same (modLoadUnlist_apart hu).cleanups
  | insert hx he hr ha hi => exact same (moduleRegionInsertAfter_apart hi).cleanups
  | claim hc hg =>
      obtain ⟨regions, heq⟩ := regionCreateChild_eq s _ _ _
      rw [heq]
  | rekey he hc hn => exact same (rekeyEntry_apart he _ _ _).cleanups
  | mods hm =>
      obtain ⟨l, -, hm⟩ := Res.bind_ok.mp hm
      cases hm
      exact List.prefix_rfl
  | vector hk hv =>
      obtain ⟨m, hm, hcase⟩ := regionRebuildHookDispatch_cases hv
      have hms : m.cleanups = s.cleanups := by
        rcases regionEnsureSubtreeMods_cases hm with ⟨-, hm⟩ | ⟨-, rfl⟩
        · obtain ⟨l, -, hm⟩ := Res.bind_ok.mp hm
          cases hm
          rfl
        · rfl
      rcases hcase with ⟨-, rfl⟩ | ⟨-, u, cache, hf, rfl⟩
      · exact same hms
      · obtain ⟨entries, hu⟩ := (rebuildFold_resolved hf).rest
        exact same ((congrArg Runtime.cleanups hu).trans hms)
  | count | clear | prewarm | drop | publish | bind | state | freePath | enter => exact List.prefix_rfl

end Prim

theorem Prims.cleanups {E : Env} {g : RegionPtr → UInt8 → Prop} {a b : Runtime × Transit}
    (h : Prims E g a b) : a.1.cleanups <+: b.1.cleanups := by
  induction h with
  | refl => exact List.prefix_rfl
  | tail _ hp ih => exact ih.trans (Prim.cleanups hp)

namespace Runtime
variable {E : Env} {s t u : Runtime}

/-- What is still there has the block and the image it had, and what is gone has had its
block cleaned up. -/
structure Cleaned (E : Env) (s t : Runtime) : Prop where
  kept : ∀ p e', t.entries p = some e' →
    ∃ e, s.entries p = some e ∧ e'.regionState = e.regionState ∧ e'.handle = e.handle
  done : ∃ l, t.cleanups = s.cleanups ++ l ∧
    ∀ p e b, s.entries p = some e → t.entries p = none → e.regionState = some b →
      (b, E.dlsym e.handle "xy_region_cleanup") ∈ l

theorem Cleaned.refl (s : Runtime) : Cleaned E s s := by
  refine ⟨fun p e he => ⟨e, he, rfl, rfl⟩, [], (List.append_nil _).symm, fun p e b he hn => ?_⟩
  rw [he] at hn
  cases hn

theorem Cleaned.trans (h : Cleaned E s t) (k : Cleaned E t u) : Cleaned E s u := by
  refine ⟨fun p e'' he'' => ?_, ?_⟩
  · obtain ⟨e', he', h1, h2⟩ := k.kept p e'' he''
    obtain ⟨e, he, k1, k2⟩ := h.kept p e' he'
    exact ⟨e, he, h1.trans k1, h2.trans k2⟩
  obtain ⟨l, hl, hdone⟩ := h.done
  obtain ⟨l', hl', hdone'⟩ := k.done
  refine ⟨l ++ l', by rw [hl', hl, List.append_assoc], fun p e b he hn hb => ?_⟩
  cases ht : t.entries p with
  | none => exact List.mem_append_left _ (hdone p e b he ht hb)
  | some e' =>
      obtain ⟨e₀, he₀, h1, h2⟩ := h.kept p e' ht
      cases he.symm.trans he₀
      rw [← h2]
      exact List.mem_append_right _ (hdone' p e' b ht hn (h1.trans hb))

/-- The entries and the history are as they were, apart from counts and caches. -/
theorem Cleaned.same (hc : t.cleanups = s.cleanups)
    (hk : ∀ p, (t.entries p).map (fun e => (e.regionState, e.handle)) =
      (s.entries p).map fun e => (e.regionState, e.handle)) : Cleaned E s t := by
  refine ⟨fun p e' he' => ?_, [], by rw [hc, List.append_nil], fun p e b he hn => ?_⟩
  · have hp := hk p
    rw [he'] at hp
    obtain ⟨e, he, heq⟩ := Option.map_eq_some_iff.mp hp.symm
    obtain ⟨h1, h2⟩ := Prod.mk.inj heq
    exact ⟨e, he, h1.symm, h2.symm⟩
  · have hp := hk p
    rw [he, hn] at hp
    cases hp

theorem unlinkTmp_cleanups (s : Runtime) (tmp : Option ImageId) :
    (s.unlinkTmp tmp).cleanups = s.cleanups := by
  cases tmp <;> rfl

/-- Freeing an entry cleans its block up, with the function of its image. -/
theorem modUnloadEntry_cleaned {p : EntryPtr} (h : s.modUnloadEntry E p = .ok t) : Cleaned E s t := by
  have h' := h
  simp only [modUnloadEntry, moduleFreeEntry, Res.bind_ok, deref_ok, Except.ok.injEq] at h'
  obtain ⟨e, he, m, hm, f, hf, rfl⟩ := h'
  have hcore := modUnloadEntry_core he h
  have hma : Apart s m := by
    refine Apart.trans ?_ (moduleRegionDetach_apart hm)
    have h1 := moduleClearFnCacheForHandle_apart E s p e.handle
    cases e.regionEntry with
    | none => exact h1
    | some r => exact h1.trans (moduleRemoveDenies_apart _ r e.loadPath)
  have hmcore : m.core.entries = s.core.entries := by
    rw [moduleRegionDetach_core hm]
    have h1 : (s.moduleClearFnCacheForHandle E p e.handle).core.entries = s.core.entries :=
      congrArg Core.entries (moduleClearFnCacheForHandle_core (E := E) s p e.handle)
    cases e.regionEntry with
    | none => exact h1
    | some r =>
        have hents := moduleRemoveDenies_entries (s.moduleClearFnCacheForHandle E p e.handle) r e.loadPath
        exact (congrArg (fun entries q => (entries q).map ModEntry.core) hents).trans h1
  have hfe : f.core = e.core := by
    have hp : (m.entries p).map ModEntry.core = (s.entries p).map ModEntry.core := congrFun hmcore p
    rw [show m.entries p = some f from hf, he] at hp
    exact Option.some.inj hp
  generalize hv : unlinkTmp _ f.tmpLoadPath = v at h hcore ⊢
  have hents : ∀ q, (v.entries q).map ModEntry.core =
      if q = p then none else (s.entries q).map ModEntry.core := fun q =>
    (congrFun (congrArg Core.entries hcore) q).trans (Function.update_apply ..)
  refine ⟨fun q x hx => ?_, ?_⟩
  · have hq := hents q
    rw [hx] at hq
    split at hq
    · cases hq
    · obtain ⟨y, hy, hyx⟩ := Option.map_eq_some_iff.mp hq.symm
      exact ⟨y, hy, (congrArg ModEntry.regionState hyx : _).symm, (congrArg ModEntry.handle hyx : _).symm⟩
  · have hstate : f.regionState = e.regionState := (congrArg ModEntry.regionState hfe : _)
    have hhandle : f.handle = e.handle := (congrArg ModEntry.handle hfe : _)
    refine ⟨(f.regionState.map fun b => (b, E.dlsym f.handle "xy_region_cleanup")).toList, ?_,
      fun q x b hx hn hb => ?_⟩
    · rw [← hv, unlinkTmp_cleanups, ← hma.cleanups]
      show (moduleCleanupRegionState E _ f).cleanups = _
      unfold moduleCleanupRegionState
      cases f.regionState with
      | none => exact (List.append_nil _).symm
      | some b => rfl
    · have hq := hents q
      rw [hx, hn] at hq
      split at hq
      · rename_i hqp
        subst hqp
        cases he.symm.trans hx
        rw [hstate, hhandle, hb]
        exact List.mem_singleton.mpr rfl
      · cases hq

theorem modUnload_cleaned (fuel : Nat) {fname : String} {region : RegionId} {ret : Int}
    (h : s.modUnload E fuel fname region = .ok (t, ret)) : Cleaned E s t := by
  refine modUnload_rel (Cleaned E) .refl (fun _ _ _ => .trans) (fun s => .same rfl fun _ => rfl)
    (fun s p e he => .same rfl fun q => ?_) (fun _ _ _ => modUnloadEntry_cleaned) fuel h
  by_cases hq : q = p
  · subst hq
    simp [setEntry, he]
  · simp [setEntry, hq]

end Runtime
end Xylem

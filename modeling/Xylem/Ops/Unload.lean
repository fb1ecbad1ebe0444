import Xylem.Ops.Prim

namespace Xylem

/-- A fold whose rounds are each related to the state they start from. -/
theorem foldlM_rel {α σ : Type} (R : σ → σ → Prop) (refl : ∀ s, R s s)
    (trans : ∀ s t u, R s t → R t u → R s u) {f : σ → α → Res σ}
    (hf : ∀ s a t, f s a = .ok t → R s t) {l : List α} {s t : σ} (h : l.foldlM f s = .ok t) :
    R s t := by
  induction l generalizing s with
  | nil =>
      cases h
      exact refl _
  | cons a l ih =>
      rw [List.foldlM_cons] at h
      obtain ⟨m, hm, h⟩ := Res.bind_ok.mp h
      exact trans _ _ _ (hf _ _ _ hm) (ih h)

/-- A round of the cascade stays in a relation that the recursive unload keeps. -/
theorem modUnloadChild_rel (R : Runtime → Runtime → Prop) (refl : ∀ s, R s s)
    {unload : Runtime → String → RegionId → Res (Runtime × Int)}
    (hu : ∀ {s t : Runtime} {path : String} {id : RegionId} {ret : Int},
      unload s path id = .ok (t, ret) → R s t)
    {s t : Runtime} {c : EntryPtr} (h : Runtime.modUnloadChild unload s c = .ok t) : R s t := by
  simp only [Runtime.modUnloadChild, Res.bind_ok] at h
  obtain ⟨child, -, h⟩ := h
  split at h
  · cases h
    exact refl _
  · split at h
    · cases h
      exact refl _
    · cases h
    · obtain ⟨r, hr, rfl⟩ := Res.map_ok.mp h
      exact hu hr

namespace Runtime
variable {s t : Runtime} {E : Env} {g : RegionPtr → UInt8 → Prop}

theorem setErr_sameHeap (s : Runtime) (e : Int) : SameHeap s (s.setErr e) :=
  ⟨rfl, rfl, rfl, rfl, rfl, rfl, rfl, rfl, rfl, rfl, rfl, rfl, List.prefix_rfl⟩

theorem unlinkTmp_sameHeap (s : Runtime) (t : Option ImageId) : SameHeap s (s.unlinkTmp t) := by
  cases t
  · exact .refl s
  · exact ⟨rfl, rfl, rfl, rfl, rfl, rfl, rfl, rfl, rfl, rfl, rfl, rfl, List.prefix_rfl⟩

theorem dlclose_sameHeap (s : Runtime) (h : ImageId) : SameHeap s (s.dlclose h) :=
  ⟨rfl, rfl, rfl, rfl, rfl, rfl, rfl, rfl, rfl, rfl, rfl, rfl, List.prefix_rfl⟩

theorem moduleCleanupRegionState_sameHeap (s : Runtime) (e : ModEntry) :
    SameHeap s (s.moduleCleanupRegionState E e) := by
  obtain ⟨l, hl⟩ := moduleCleanupRegionState_eq E s e
  rw [hl]
  exact ⟨rfl, rfl, rfl, rfl, rfl, rfl, rfl, rfl, rfl, rfl, rfl, rfl, List.prefix_append _ _⟩

theorem moduleRemoveDenies_entries (s : Runtime) (r : RegionPtr) (path : String) :
    (s.moduleRemoveDenies r path).entries = s.entries := by
  unfold moduleRemoveDenies
  split <;> rfl

theorem moduleClearFnCacheForHandle_self (s : Runtime) (p : EntryPtr) (h : ImageId) :
    (s.moduleClearFnCacheForHandle E p h).entries p = s.entries p := by
  unfold moduleClearFnCacheForHandle
  split
  · rfl
  · simp [mapEntries]

/-- Entries with the same core agree on everything else the tables need. -/
theorem entries_of_core (h : t.core = s.core) {p : EntryPtr} {e : ModEntry}
    (he : s.entries p = some e) : ∃ e', t.entries p = some e' ∧ e'.core = e.core := by
  have h1 : (t.entries p).map ModEntry.core = (s.entries p).map ModEntry.core :=
    congrFun (congrArg Core.entries h) p
  rw [he] at h1
  cases ht : t.entries p with
  | none => simp [ht] at h1
  | some e' => exact ⟨e', rfl, by simpa [ht] using h1⟩

theorem moduleClearFnCacheForHandle_straight (s : Runtime) (p : EntryPtr) (h : ImageId)
    (x : Transit) :
    Straights E g (s, x) (s.moduleClearFnCacheForHandle E p h, x) := by
  unfold moduleClearFnCacheForHandle
  split
  · exact .refl
  · exact .single (.same (.clear _ _))

theorem modUnloadEntry_straight {p : EntryPtr} (h : s.modUnloadEntry E p = .ok t) :
    Straights E g (s, .none) (t, .none) := by
  simp only [modUnloadEntry, Res.bind_ok, deref_ok, moduleFreeEntry, Except.ok.injEq] at h
  obtain ⟨e, he, m, hm, e', he', rfl⟩ := h
  have h1 := moduleClearFnCacheForHandle_straight (E := E) (g := g) s p e.handle .none
  have he1 := (moduleClearFnCacheForHandle_self (E := E) s p e.handle).trans he
  generalize s.moduleClearFnCacheForHandle E p e.handle = s1 at h1 he1 hm
  have h2 : ∃ s2, Straights E g (s, .none) (s2, .none) ∧ s2.entries p = some e ∧
      s2.moduleRegionDetach p = .ok m := by
    cases hr : e.regionEntry with
    | none =>
        simp only [hr] at hm
        exact ⟨s1, h1, he1, hm⟩
    | some r =>
        simp only [hr] at hm
        exact ⟨_, h1.tail (.same (.removeDenies r e.loadPath)),
          (moduleRemoveDenies_entries s1 r e.loadPath).symm ▸ he1, hm⟩
  obtain ⟨s2, h2, he2, hm⟩ := h2
  obtain ⟨e2, he2', hcore⟩ := entries_of_core (moduleRegionDetach_core hm) he2
  cases he2'.symm.trans he'
  have hid : e'.core.regionId = e.core.regionId := congrArg _ hcore
  have hkey : e'.core.modKey = e.core.modKey := congrArg _ hcore
  simp only [ModEntry.core] at hid hkey
  refine ((h2.tail (.of_none (.detach hm))).tail (.drop rfl he')).tail (.scratch ?_)
  refine SameHeap.trans ?_ (unlinkTmp_sameHeap _ _)
  obtain ⟨l, hl⟩ := moduleCleanupRegionState_eq E ({ m with
    modByRegionHd := E.qmapDel m.modByRegionHd e.regionId
    modHd := m.modHd.erase e.modKey
    modCount := m.modCount - 1 } : Runtime) e'
  rw [hl]
  constructor <;> simp [dropEntry, dlclose, setEntry, hid, hkey]

/-- An unload lowers counts and removes entries, over and over: what both keep, and what
can be composed, an unload keeps. -/
theorem modUnload_rel (R : Runtime → Runtime → Prop) (refl : ∀ s, R s s)
    (trans : ∀ s t u, R s t → R t u → R s u) (err : ∀ s, R s (s.setErr xyErrNotFound))
    (count : ∀ (s : Runtime) p e, s.entries p = some e →
      R s (s.setEntry p (some { e with refcount := e.refcount - 1 })))
    (gone : ∀ (s t : Runtime) p, s.modUnloadEntry E p = .ok t → R s t)
    (fuel : Nat) {s t : Runtime} {fname : String} {region : RegionId} {ret : Int}
    (h : s.modUnload E fuel fname region = .ok (t, ret)) : R s t := by
  induction fuel generalizing s t fname region ret with
  | zero => cases h
  | succ fuel ih =>
      simp only [modUnload] at h
      cases hl : s.moduleLookup E fname region with
      | none =>
          simp only [hl, Except.ok.injEq, Prod.mk.injEq] at h
          rw [← h.1]
          exact err s
      | some p =>
          simp only [hl, Res.bind_ok, deref_ok] at h
          obtain ⟨e, he, h⟩ := h
          have h1 := count s p e he
          split at h
          · simp only [Except.ok.injEq, Prod.mk.injEq] at h
            rw [← h.1]
            exact h1
          · simp only [Res.bind_ok, Except.ok.injEq, Prod.mk.injEq] at h
            obtain ⟨m, hm, m', hm', rfl, -⟩ := h
            refine trans _ _ _ (trans _ _ _ h1 ?_) (gone _ _ p hm')
            exact foldlM_rel R refl trans (fun _ _ _ => modUnloadChild_rel R refl ih) hm

theorem modUnload_straight (fuel : Nat) {fname : String} {region : RegionId} {ret : Int}
    (h : s.modUnload E fuel fname region = .ok (t, ret)) :
    Straights E g (s, .none) (t, .none) :=
  modUnload_rel (fun a b => Straights E g (a, .none) (b, .none)) (fun _ => .refl)
    (fun _ _ _ => .trans) (fun _ => .single (.scratch (setErr_sameHeap _ _)))
    (fun _ _ e he => .single (.same (.count he (e.refcount - 1))))
    (fun _ _ _ => modUnloadEntry_straight) fuel h

theorem modUnload_prims (fuel : Nat) {fname : String} {region : RegionId} {ret : Int}
    (h : s.modUnload E fuel fname region = .ok (t, ret)) : Prims E g (s, .none) (t, .none) :=
  (modUnload_straight fuel h).prims

theorem modUnloadChild_prims {fuel : Nat} {c : EntryPtr}
    (h : modUnloadChild (modUnload E fuel) s c = .ok t) : Prims E g (s, .none) (t, .none) :=
  modUnloadChild_rel (fun a b => Prims E g (a, .none) (b, .none)) (fun _ => .refl)
    (modUnload_prims fuel) h

end Runtime
end Xylem

import Xylem.Heap.Vector

namespace Xylem

/-- What never changes about an entry once its load is past the claim stage. -/
def ModEntry.ident (e : ModEntry) : ModEntry :=
  { e.core with refcount := 0, regionEntry := none }

namespace Runtime
variable {s t : Runtime} {E : Env}

theorem regionRebuildHookDispatch_core {r : RegionPtr} {i : Nat} {name : String}
    {anc : List RegionPtr} (h : s.regionRebuildHookDispatch E r i name anc = .ok t) :
    t.core = s.core := by
  have hmods : ∀ {m}, s.regionEnsureSubtreeMods r = .ok m → m.core = s.core := by
    intro m hm
    rcases regionEnsureSubtreeMods_cases hm with ⟨-, hm⟩ | ⟨-, rfl⟩
    · exact regionRebuildSubtreeMods_core hm
    · rfl
  obtain ⟨m, hm, ⟨-, rfl⟩ | ⟨-, m', cache, hf, rfl⟩⟩ := regionRebuildHookDispatch_cases h
  · exact hmods hm
  · rw [setRegion_core]
    · exact (rebuildFold_resolved hf).core.trans (hmods hm)
    · exact fun _ => rfl

theorem modLoadUnlist_core {e : ModEntry} (h : s.modLoadUnlist e = .ok t) : t.core = s.core := by
  unfold modLoadUnlist at h
  split at h
  · simp only [Res.bind_ok, Except.ok.injEq] at h
    obtain ⟨m, hm, rfl⟩ := h
    exact (regionMarkSubtreeDirty_core _ _).trans (regionUnlink_core hm)
  · cases h
    rfl

theorem ident_of_core {e e' : ModEntry} (h : e'.core = e.core) : e'.ident = e.ident := by
  rw [ModEntry.ident, h, ModEntry.ident]

def OldKept (n : EntryPtr) (s t : Runtime) : Prop :=
  ∀ q < n, ∀ e', t.entries q = some e' → ∃ e, s.entries q = some e ∧ e'.ident = e.ident

theorem OldKept.of_core {n : EntryPtr} (h : t.core = s.core) : OldKept n s t := by
  intro q _ e' he'
  obtain ⟨e, he, hc⟩ := entries_of_core h.symm he'
  exact ⟨e, he, ident_of_core hc.symm⟩

theorem OldKept.setEntry {n p : EntryPtr} {e e' : ModEntry} (he : s.entries p = some e)
    (hi : n ≤ p ∨ e'.ident = e.ident) : OldKept n s (s.setEntry p (some e')) := by
  intro q hq f hf
  by_cases hqp : q = p
  · subst hqp
    simp only [Runtime.setEntry, Function.update_self, Option.some.injEq] at hf
    subst hf
    exact ⟨e, he, hi.resolve_left (not_le.mpr hq)⟩
  · simp only [Runtime.setEntry, Function.update_of_ne hqp] at hf
    exact ⟨f, hf, rfl⟩

theorem OldKept.trans {n : EntryPtr} {u : Runtime} (h : OldKept n s t) (k : OldKept n t u) :
    OldKept n s u := by
  intro q hq e' he'
  obtain ⟨e1, h1, i1⟩ := k q hq e' he'
  obtain ⟨e2, h2, i2⟩ := h q hq e1 h1
  exact ⟨e2, h2, i1.trans i2⟩

theorem OldKept.refl (n : EntryPtr) (s : Runtime) : OldKept n s s := fun _ _ e he => ⟨e, he, rfl⟩

/-- The contexts that entries hold name regions that exist. -/
def CtxsKnown (s : Runtime) : Prop :=
  ∀ p e c, s.entries p = some e → e.ctx = some c → (s.regionHd (s.ctxs c).regionId).isSome

theorem CtxsKnown.of_core (h : s.CtxsKnown) (hc : t.core = s.core) : t.CtxsKnown := by
  intro p e c he hec
  obtain ⟨e', he', hce⟩ := entries_of_core hc.symm he
  have h1 : e'.core.ctx = e.core.ctx := congrArg _ hce
  have h2 : t.ctxs = s.ctxs := congrArg Core.ctxs hc
  have h3 : t.regionHd = s.regionHd := congrArg Tree.hd (core_tree hc)
  rw [h2, h3]
  exact h p e' c he' (h1.trans hec)

theorem CtxsKnown.setEntry {p : EntryPtr} {e e' : ModEntry} (h : s.CtxsKnown)
    (he : s.entries p = some e) (hc : e'.ctx = e.ctx) : (s.setEntry p (some e')).CtxsKnown := by
  intro q f c hf hfc
  by_cases hqp : q = p
  · subst hqp
    simp only [Runtime.setEntry, Function.update_self, Option.some.injEq] at hf
    subst hf
    exact h q e c he (hc.symm.trans hfc)
  · simp only [Runtime.setEntry, Function.update_of_ne hqp] at hf
    exact h q f c hf hfc

theorem CtxsKnown.setCtx {c : CtxPtr} {f : Ctx → Ctx} (h : s.CtxsKnown)
    (hf : (f (s.ctxs c)).regionId = (s.ctxs c).regionId ∨
      (s.regionHd (f (s.ctxs c)).regionId).isSome) : (s.setCtx c f).CtxsKnown := by
  intro p e c' he hec
  have h1 := h p e c' he hec
  by_cases hc : c' = c
  · subst hc
    simp only [Runtime.setCtx, Function.update_self]
    rcases hf with hf | hf
    · rw [hf]
      exact h1
    · exact hf
  · simp only [Runtime.setCtx, Function.update_of_ne hc]
    exact h1

end Runtime

namespace Prim
variable {s t : Runtime} {x y : Transit} {E : Env} {grant : RegionPtr → UInt8 → Prop}
open Xylem.Runtime

/-- The tree stays, loses denies of one path, or grows by a granted claim. -/
theorem tree (h : Prim E grant (s, x) (t, y)) :
    t.tree = s.tree ∨ (∃ r path, t.tree = s.tree.removeDenies r path) ∨
      ∃ r bits k, grant r bits ∧ s.tree.Claims r bits k ∧
        t.tree = s.tree.claim r (s.tree.slotId r bits k) bits := by
  cases h with
  | scratch hs => exact .inl hs.tree
  | removeDenies r path =>
      rcases moduleRemoveDenies_tree s r path with h | h
      · exact .inl h
      · exact .inr (.inl ⟨r, path, h⟩)
  | detach hd => exact .inl (core_tree (moduleRegionDetach_core hd))
  | unlist he hu => exact .inl (core_tree (modLoadUnlist_core hu))
  | insert hx he hr ha hi =>
      obtain ⟨e', -, hc⟩ := moduleRegionInsertAfter_core hi
      have ht := core_tree hc
      exact .inl ht
  | claim hc hg => exact .inr (.inr ⟨_, _, _, hg, hc, regionCreateChild_tree _ _ _ _⟩)
  | rekey he hc hn => exact .inl (rekeyEntry_tree _ _ _ _ _ _)
  | mods hm => exact .inl (core_tree (regionRebuildSubtreeMods_core hm))
  | vector hk hv => exact .inl (core_tree (regionRebuildHookDispatch_core hv))
  | count | clear | prewarm | drop | publish | bind | state | freePath | enter => exact .inl rfl

theorem regionHd (h : Prim E grant (s, x) (t, y)) {id : RegionId} {r : RegionPtr}
    (hr : s.regionHd id = some r) : t.regionHd id = some r := by
  rcases h.tree with ht | ⟨_, _, ht⟩ | ⟨r', bits, k, -, hc, ht⟩
  · exact (congrFun (congrArg Tree.hd ht) id).trans hr
  · exact (congrFun (congrArg Tree.hd ht) id).trans hr
  · refine (congrFun (congrArg Tree.hd ht) id).trans ?_
    have hne : id ≠ s.tree.slotId r' bits k := by
      rintro rfl
      have hfree := hc.first.free
      rw [show s.tree.hd _ = some r from hr] at hfree
      cases hfree
    exact (Function.update_of_ne hne _ _).trans hr

theorem regionNext (h : Prim E grant (s, x) (t, y)) : s.regionNext ≤ t.regionNext := by
  rcases h.tree with ht | ⟨_, _, ht⟩ | ⟨_, _, _, -, -, ht⟩
  · exact (congrArg Tree.next ht).ge
  · exact (congrArg Tree.next ht).ge
  · exact (Nat.le_succ _).trans (congrArg Tree.next ht).ge

theorem old {n : EntryPtr} (h : Prim E grant (s, x) (t, y)) (hn : n ≤ s.entryNext)
    (hx : ∀ p, x = .fresh p → n ≤ p) :
    n ≤ t.entryNext ∧ (∀ p, y = .fresh p → n ≤ p) ∧ OldKept n s t := by
  have core {t : Runtime} (hc : t.core = s.core) : n ≤ t.entryNext ∧ OldKept n s t :=
    ⟨hn.trans_eq (congrArg Core.entryNext hc).symm, .of_core hc⟩
  cases h with
  | scratch hs =>
      refine ⟨hn.trans_eq hs.entryNext.symm, hx, fun q _ e' he' => ⟨e', ?_, rfl⟩⟩
      rw [← hs.entries]
      exact he'
  | count he _ => exact ⟨hn, hx, .setEntry he (.inr rfl)⟩
  | clear l base => exact ⟨hn, hx, .of_core (mapEntries_core fun _ => rfl)⟩
  | prewarm he =>
      exact ⟨hn, hx, .setEntry he (.inr (ident_of_core (ModEntry.fnCachePrewarm_core _ _ _)))⟩
  | removeDenies r path =>
      refine ⟨?_, hx, fun q _ e' he' => ⟨e', ?_, rfl⟩⟩
      · unfold moduleRemoveDenies
        split <;> exact hn
      · rw [← moduleRemoveDenies_entries s r path]
        exact he'
  | detach hd =>
      obtain ⟨h1, h2⟩ := core (moduleRegionDetach_core hd)
      exact ⟨h1, by simp, h2⟩
  | unlist he hu =>
      obtain ⟨h1, h2⟩ := core (modLoadUnlist_core hu)
      exact ⟨h1, by simp, h2⟩
  | @insert _ _ _ p e r a hx' he hr ha hi =>
      obtain ⟨e', he', hc⟩ := moduleRegionInsertAfter_core hi
      refine ⟨hn.trans_eq (congrArg Core.entryNext hc).symm, by simp, ?_⟩
      have hk : OldKept n s (s.setEntry p (some { e' with regionEntry := some r })) :=
        .setEntry he' (.inr rfl)
      exact hk.trans (.of_core hc)
  | drop hx' he =>
      refine ⟨hn, by simp, fun q _ e' he' => ⟨e', ?_, rfl⟩⟩
      simp only [dropEntry, Function.update_apply] at he'
      split at he'
      · cases he'
      · exact he'
  | publish hk hr im tmp addr ha =>
      refine ⟨hn.trans (Nat.le_succ _), ?_, fun q hq e' he' => ⟨e', ?_, rfl⟩⟩
      · intro p hp
        cases hp
        exact hn
      · simp only [modLoadPublishEntry, Runtime.setEntry,
          Function.update_of_ne (hq.trans_le hn).ne] at he'
        exact he'
  | bind he c path =>
      refine ⟨hn, hx, fun q hq e' he' => ⟨e', ?_, rfl⟩⟩
      have hne := (hq.trans_le (hx _ rfl)).ne
      simp only [bindCtx, Runtime.setEntry, Function.update_of_ne hne] at he'
      exact he'
  | claim hc hg =>
      obtain ⟨regions, heq⟩ := regionCreateChild_eq s _ _ _
      rw [heq]
      exact ⟨hn, hx, .refl n s⟩
  | @rekey _ p e child he hc hk =>
      rw [rekeyEntry_eq]
      refine ⟨hn, hx, fun q hq e' he' => ⟨e', ?_, rfl⟩⟩
      have hne := (hq.trans_le (hx _ rfl)).ne
      simp only [Function.update_of_ne hne] at he'
      exact he'
  | state he =>
      refine ⟨hn, hx, fun q hq e' he' => ⟨e', ?_, rfl⟩⟩
      have hne := (hq.trans_le (hx _ rfl)).ne
      simp only [Runtime.setEntry, Function.update_of_ne hne] at he'
      exact he'
  | freePath c => exact ⟨hn, hx, .refl n s⟩
  | mods hm =>
      obtain ⟨h1, h2⟩ := core (regionRebuildSubtreeMods_core hm)
      exact ⟨h1, hx, h2⟩
  | vector hk hv =>
      obtain ⟨h1, h2⟩ := core (regionRebuildHookDispatch_core hv)
      exact ⟨h1, hx, h2⟩
  | enter c a st => exact ⟨hn, hx, .refl n s⟩

theorem ctxsKnown {L : RegionPtr → List EntryPtr} (h : Prim E grant (s, x) (t, y))
    (hw : WF s x.entry L) (hc : s.CtxsKnown) : t.CtxsKnown := by
  cases h with
  | scratch hs =>
      intro p e c he hec
      rw [hs.regionHd, hs.ctxs]
      exact hc p e c (hs.entries ▸ he) hec
  | count he n => exact hc.setEntry he rfl
  | clear l base => exact hc.of_core (mapEntries_core fun _ => rfl)
  | prewarm he =>
      have h1 := ModEntry.fnCachePrewarm_core E s.hookIdHd.entries
      exact hc.setEntry he (congrArg ModEntry.ctx (h1 _) : _)
  | removeDenies r path =>
      unfold moduleRemoveDenies
      split <;> exact hc
  | detach hd => exact hc.of_core (moduleRegionDetach_core hd)
  | unlist he hu => exact hc.of_core (modLoadUnlist_core hu)
  | @insert _ _ _ p e r a hx he hr ha hi =>
      obtain ⟨e', he', hcore⟩ := moduleRegionInsertAfter_core hi
      have h1 : (s.setEntry p (some { e' with regionEntry := some r })).CtxsKnown :=
        hc.setEntry he' rfl
      exact h1.of_core hcore
  | drop hx he =>
      intro q f c hf hfc
      simp only [dropEntry, Function.update_apply] at hf
      split at hf
      · cases hf
      · exact hc q f c hf hfc
  | publish hk hr im tmp addr ha =>
      intro q f c hf hfc
      simp only [modLoadPublishEntry, Runtime.setEntry, Function.update_apply] at hf
      split at hf
      · cases hf
        cases hfc
      · exact hc q f c hf hfc
  | @bind _ p e he c path =>
      have h1 : (s.xyInitCtx c path e.regionId).CtxsKnown := hc.setCtx (.inr (hw.region p e he))
      intro q f c' hf hfc
      simp only [bindCtx, Runtime.setEntry, Function.update_apply] at hf
      split at hf
      · cases hf
        cases hfc
        simp only [bindCtx, Runtime.setEntry, xyInitCtx, Runtime.setCtx, Function.update_self]
        exact hw.region p e he
      · exact h1 q f c' hf hfc
  | @claim _ p r bits k hcl hg =>
      have hmono : ∀ {i}, (s.regionHd i).isSome →
          ((s.regionCreateChild r (s.tree.slotId r bits k) bits).regionHd i).isSome := by
        intro i hi
        obtain ⟨r', hr'⟩ := Option.isSome_iff_exists.mp hi
        exact Option.isSome_iff_exists.mpr
          ⟨r', (Prim.claim (E := E) (p := p) hcl hg).regionHd hr'⟩
      obtain ⟨f1, -, f3⟩ := regionCreateChild_frame s r (s.tree.slotId r bits k) bits
      intro q f c hf hfc
      rw [f1] at hf
      rw [f3]
      exact hmono (hc q f c hf hfc)
  | @rekey _ p e child he hch hk =>
      rw [rekeyEntry_eq]
      intro q f c hf hfc
      have hsome : (s.regionHd (s.ctxs c).regionId).isSome := by
        simp only [Function.update_apply] at hf
        split at hf
        · cases hf
          exact hc p e c he hfc
        · exact hc q f c hf hfc
      cases e.ctx with
      | none => exact hsome
      | some c0 =>
          by_cases hcc : c = c0
          · rw [hcc]
            simpa using hch
          · simpa [hcc] using hsome
  | state he => exact hc.setEntry he rfl
  | freePath c => exact hc.setCtx (.inl rfl)
  | mods hm => exact hc.of_core (regionRebuildSubtreeMods_core hm)
  | vector hk hv => exact hc.of_core (regionRebuildHookDispatch_core hv)
  | enter c a st => exact hc.setCtx (.inl rfl)

end Prim
end Xylem

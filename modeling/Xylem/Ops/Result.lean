import Xylem.Ops.Load
import Xylem.Ops.Unload

namespace Xylem

/-- What `xy_last` reads, and the buffers. -/
structure Result where
  adapter : Option AdapterPtr
  lastRan : Nat
  lastRetp : LastRet
  lastRetbuf : Bytes
  bufs : BufPtr → Bytes

/-- References and temporary copies. -/
structure Files where
  dlRefs : ImageId → Int
  copyNext : Nat
  tmpFiles : List ImageId
  badReleases : Nat

/-- The image that each live entry has a reference to, and the copy it owns. -/
structure Holdings where
  own : EntryPtr → Option (ImageId × Option ImageId)
  next : EntryPtr

def Holdings.set (o : Holdings) (p : EntryPtr) (x : Option (ImageId × Option ImageId)) : Holdings :=
  { o with own := Function.update o.own p x }

def Holdings.add (o : Holdings) (x : ImageId × Option ImageId) : Holdings :=
  { o.set o.next (some x) with next := o.next + 1 }

def ModEntry.own (e : ModEntry) : ImageId × Option ImageId := (e.handle, e.tmpLoadPath)

theorem ModEntry.own_of_core {e e' : ModEntry} (h : e'.core = e.core) : e'.own = e.own := by
  have h1 : e'.core.handle = e.core.handle := congrArg ModEntry.handle h
  have h2 : e'.core.tmpLoadPath = e.core.tmpLoadPath := congrArg ModEntry.tmpLoadPath h
  exact Prod.ext h1 h2

namespace Runtime

def result (s : Runtime) : Result := ⟨s.adapter, s.lastRan, s.lastRetp, s.lastRetbuf, s.bufs⟩

def files (s : Runtime) : Files := ⟨s.dlRefs, s.copyNext, s.tmpFiles, s.badReleases⟩

def holdings (s : Runtime) : Holdings := ⟨fun p => (s.entries p).map ModEntry.own, s.entryNext⟩

end Runtime

/-- `t` differs from `s` in the heap and its tables only. -/
structure Apart (s t : Runtime) : Prop where
  result : t.result = s.result
  files : t.files = s.files
  holdings : t.holdings = s.holdings
  cleanups : t.cleanups = s.cleanups

namespace Apart
variable {s t u : Runtime}

theorem refl (s : Runtime) : Apart s s := ⟨rfl, rfl, rfl, rfl⟩

theorem trans (h : Apart s t) (k : Apart t u) : Apart s u :=
  ⟨k.result.trans h.result, k.files.trans h.files, k.holdings.trans h.holdings,
    k.cleanups.trans h.cleanups⟩

theorem after (k : Apart t u) (hr : t.result = s.result) (hf : t.files = s.files)
    (ho : t.holdings = s.holdings) (hc : t.cleanups = s.cleanups) : Apart s u :=
  .trans ⟨hr, hf, ho, hc⟩ k

end Apart

namespace Runtime
variable {s t : Runtime} {E : Env}

theorem setEntry_holdings_set (s : Runtime) (p : EntryPtr) (e : Option ModEntry) :
    (s.setEntry p e).holdings = s.holdings.set p (e.map ModEntry.own) := by
  simp only [holdings, setEntry, Holdings.set, Holdings.mk.injEq, and_true]
  funext q
  by_cases hq : q = p
  · subst hq
    simp
  · simp [hq]

theorem own_of_entry {p : EntryPtr} {e : ModEntry} (he : s.entries p = some e) :
    s.holdings.own p = some e.own := congrArg (Option.map ModEntry.own) he

theorem setEntry_holdings {p : EntryPtr} {e e' : ModEntry} (he : s.entries p = some e)
    (h : e'.own = e.own) : (s.setEntry p (some e')).holdings = s.holdings := by
  have hp : s.holdings.own p = some e'.own := by rw [own_of_entry he, h]
  rw [setEntry_holdings_set, Option.map_some, ← hp, Holdings.set, Function.update_eq_self]

theorem mapEntries_holdings (s : Runtime) (l : List EntryPtr) {f : ModEntry → ModEntry}
    (hf : ∀ e, (f e).own = e.own) : (s.mapEntries l f).holdings = s.holdings := by
  simp only [holdings, mapEntries, Holdings.mk.injEq, and_true]
  funext q
  split
  · rw [Option.map_map]
    exact congrArg (Option.map · (s.entries q)) (funext hf)
  · rfl

theorem store_apart {p : EntryPtr} {f : ModEntry → ModEntry} (h : s.store p f = .ok t)
    (hf : ∀ e, (f e).own = e.own) : Apart s t := by
  obtain ⟨e, he, rfl⟩ := store_ok.mp h
  exact ⟨rfl, rfl, setEntry_holdings he (hf e), rfl⟩

theorem foldl_setRegion_apart (f : RegionEntry → RegionEntry) (l : List RegionPtr) (s : Runtime) :
    Apart s (l.foldl (fun s e => s.setRegion e f) s) := by
  induction l generalizing s with
  | nil => exact .refl s
  | cons r l ih => exact (ih (s.setRegion r f)).after rfl rfl rfl rfl

theorem regionDispatchGenBump_apart (s : Runtime) (r : RegionPtr) :
    Apart s (s.regionDispatchGenBump r) :=
  (foldl_setRegion_apart _ (s.upward r) s).trans ⟨rfl, rfl, rfl, rfl⟩

theorem regionMarkSubtreeDirty_apart (s : Runtime) (r : RegionPtr) :
    Apart s (s.regionMarkSubtreeDirty r) :=
  (regionDispatchGenBump_apart s r).trans (foldl_setRegion_apart _ _ _)

theorem linkNext_apart {r : RegionPtr} {q v : Option EntryPtr} (h : s.linkNext r q v = .ok t) :
    Apart s t := by
  cases q with
  | some q => exact store_apart h fun _ => rfl
  | none =>
      cases h
      exact ⟨rfl, rfl, rfl, rfl⟩

theorem linkPrev_apart {r : RegionPtr} {q v : Option EntryPtr} (h : s.linkPrev r q v = .ok t) :
    Apart s t := by
  cases q with
  | some q => exact store_apart h fun _ => rfl
  | none =>
      cases h
      exact ⟨rfl, rfl, rfl, rfl⟩

theorem regionUnlink_apart {r : RegionPtr} {e : ModEntry} (h : s.regionUnlink r e = .ok t) :
    Apart s t := by
  obtain ⟨m, h1, h2⟩ := Res.bind_ok.mp h
  exact (linkNext_apart h1).trans (linkPrev_apart h2)

theorem moduleRegionDetach_apart {p : EntryPtr} (h : s.moduleRegionDetach p = .ok t) :
    Apart s t := by
  obtain ⟨e, -, h⟩ := Res.bind_ok.mp h
  split at h
  · cases h
    exact .refl s
  · obtain ⟨m, h1, h⟩ := Res.bind_ok.mp h
    obtain ⟨n, h2, h⟩ := Res.bind_ok.mp h
    cases h
    exact ((regionUnlink_apart h1).trans (store_apart h2 fun _ => rfl)).trans
      (regionMarkSubtreeDirty_apart _ _)

theorem moduleRegionInsertAfter_apart {r : RegionPtr} {p : EntryPtr} {after : Option EntryPtr}
    (h : s.moduleRegionInsertAfter r p after = .ok t) : Apart s t := by
  obtain ⟨m, h1, h⟩ := Res.bind_ok.mp h
  refine (store_apart h1 fun _ => rfl).trans ?_
  cases after with
  | none =>
      obtain ⟨n, h2, h⟩ := Res.bind_ok.mp h
      obtain ⟨o, h3, h⟩ := Res.bind_ok.mp h
      cases h
      refine ((store_apart h2 fun _ => rfl).trans (linkPrev_apart h3)).trans ?_
      exact (regionMarkSubtreeDirty_apart _ r).after rfl rfl rfl rfl
  | some a =>
      obtain ⟨e, -, h⟩ := Res.bind_ok.mp h
      obtain ⟨n, h2, h⟩ := Res.bind_ok.mp h
      obtain ⟨o, h3, h⟩ := Res.bind_ok.mp h
      obtain ⟨u, h4, h⟩ := Res.bind_ok.mp h
      cases h
      refine ((store_apart h2 fun _ => rfl).trans (linkPrev_apart h3)).trans ?_
      exact (store_apart h4 fun _ => rfl).trans (regionMarkSubtreeDirty_apart _ r)

theorem moduleClearFnCacheForHandle_apart (E : Env) (s : Runtime) (p : EntryPtr) (h : ImageId) :
    Apart s (s.moduleClearFnCacheForHandle E p h) := by
  unfold moduleClearFnCacheForHandle
  split
  · exact .refl s
  · exact ⟨rfl, rfl, mapEntries_holdings _ _ fun _ => rfl, rfl⟩

theorem moduleRemoveDenies_apart (s : Runtime) (r : RegionPtr) (path : String) :
    Apart s (s.moduleRemoveDenies r path) := by
  unfold moduleRemoveDenies
  split <;> exact ⟨rfl, rfl, rfl, rfl⟩

theorem rekeyEntry_apart {p : EntryPtr} {e : ModEntry} (he : s.entries p = some e) (old : ModKey)
    (parent child : RegionId) : Apart s (s.rekeyEntry p e old parent child) := by
  have hset : Apart
      (s.setEntry p (some { e with regionId := child, modKey := ⟨old.path, child⟩ }))
      (s.rekeyEntry p e old parent child) := by
    unfold rekeyEntry
    cases e.ctx <;> exact ⟨rfl, rfl, rfl, rfl⟩
  exact hset.after rfl rfl (setEntry_holdings he rfl) rfl

theorem moduleRekeyForClaim_apart {caller : String} {parent child : RegionId}
    (h : s.moduleRekeyForClaim E caller parent child = .ok t) : Apart s t := by
  unfold moduleRekeyForClaim at h
  split at h
  · obtain ⟨e, he, h⟩ := Res.bind_ok.mp h
    cases h
    exact rekeyEntry_apart (deref_ok.mp he) _ parent child
  · cases h
    exact .refl s

theorem xyClaimForLoad_apart {caller : String} {parent : RegionId} {bits : UInt8} {ch : LoadChoice}
    {ret : Int} (h : s.xyClaimForLoad E caller parent bits ch = .ok (t, ret)) : Apart s t := by
  unfold xyClaimForLoad at h
  split at h
  · cases h
    exact ⟨rfl, rfl, rfl, rfl⟩
  · split at h
    · cases h
      exact ⟨rfl, rfl, rfl, rfl⟩
    · rename_i r hr
      simp only at h
      split at h
      · cases h
        exact ⟨rfl, rfl, rfl, rfl⟩
      · split at h
        · cases h
          exact ⟨rfl, rfl, rfl, rfl⟩
        · split at h
          · cases h
            exact ⟨rfl, rfl, rfl, rfl⟩
          · split at h
            · cases h
              exact ⟨rfl, rfl, rfl, rfl⟩
            · obtain ⟨m, hm, h⟩ := Res.bind_ok.mp h
              cases h
              have hc : Apart s (s.regionCreateChild r (s.regionAllocSlot r ch.granted) ch.granted) :=
                (regionMarkSubtreeDirty_apart _ r).after rfl rfl rfl rfl
              exact (hc.trans ((moduleRekeyForClaim_apart hm).after rfl rfl rfl rfl)).trans ⟨rfl,
                rfl, rfl, rfl⟩

theorem modLoadClaimIfNeeded_apart {tx : LoadTxn} {ch : LoadChoice} {ret : Int}
    (h : s.modLoadClaimIfNeeded E tx ch = .ok (t, ret)) : Apart s t := by
  unfold modLoadClaimIfNeeded at h
  split at h
  · cases h
    exact .refl s
  · cases h
    exact .refl s
  · split at h
    · cases h
      exact .refl s
    · exact xyClaimForLoad_apart h

theorem modLoadBindXy_apart {tx : LoadTxn} (h : s.modLoadBindXy E tx = .ok t) : Apart s t := by
  unfold modLoadBindXy at h
  simp only at h
  split at h
  · cases h
    exact ⟨rfl, rfl, rfl, rfl⟩
  · exact (store_apart h fun _ => rfl).after rfl rfl rfl rfl

theorem modLoadEnlist_apart {tx : LoadTxn} (h : s.modLoadEnlist E tx = .ok t) : Apart s t := by
  obtain ⟨m, h1, h⟩ := Res.bind_ok.mp h
  obtain ⟨n, h2, h3⟩ := Res.bind_ok.mp h
  have hm : Apart s m := by
    unfold modLoadAllocState at h1
    split at h1
    · obtain ⟨u, hu, h1⟩ := Res.bind_ok.mp h1
      cases h1
      exact ⟨(store_apart hu fun _ => rfl).result, (store_apart hu fun _ => rfl).files,
        (store_apart hu fun _ => rfl).holdings, (store_apart hu fun _ => rfl).cleanups⟩
    · cases h1
      exact ⟨rfl, rfl, rfl, rfl⟩
  have hn : Apart m n := by
    obtain ⟨e, -, h2⟩ := Res.bind_ok.mp h2
    split at h2
    · exact moduleRegionInsertAfter_apart h2
    · cases h2
      exact .refl m
  exact (hm.trans hn).trans
    (store_apart h3 fun e => ModEntry.own_of_core (ModEntry.fnCachePrewarm_core E _ e))

theorem modLoadUnlist_apart {e : ModEntry} (h : s.modLoadUnlist e = .ok t) : Apart s t := by
  unfold modLoadUnlist at h
  split at h
  · obtain ⟨m, hm, h⟩ := Res.bind_ok.mp h
    cases h
    exact (regionUnlink_apart hm).trans (regionMarkSubtreeDirty_apart _ _)
  · cases h
    exact .refl s

theorem xyReloadFinish_apart {f : ReloadFrame} (h : s.xyReloadFinish E f = .ok t) : Apart s t := by
  unfold xyReloadFinish at h
  split at h
  · obtain ⟨m, h1, h⟩ := Res.bind_ok.mp h
    obtain ⟨n, h2, h⟩ := Res.bind_ok.mp h
    cases h
    exact (moduleRegionDetach_apart h1).trans (moduleRegionInsertAfter_apart h2)
  · cases h
    exact .refl s

end Runtime

namespace Files

def close (F : Files) (h : ImageId) : Files :=
  { F with
    dlRefs := Function.update F.dlRefs h (F.dlRefs h - 1)
    badReleases := if 0 < F.dlRefs h then F.badReleases else F.badReleases + 1 }

def unlink (F : Files) : Option ImageId → Files
  | some t =>
      { F with
        tmpFiles := F.tmpFiles.erase t
        badReleases := if t ∈ F.tmpFiles then F.badReleases else F.badReleases + 1 }
  | none => F

/-- Give back a reference, and remove the copy if there is one. -/
def release (F : Files) (h : ImageId) (tmp : Option ImageId) : Files := (F.close h).unlink tmp

theorem close_unlink (F : Files) (h : ImageId) (tmp : Option ImageId) :
    (F.unlink tmp).close h = F.release h tmp := by
  cases tmp with
  | none => rfl
  | some t =>
      simp only [release, close, unlink, Files.mk.injEq, true_and]
      by_cases hh : 0 < F.dlRefs h <;> by_cases ht : t ∈ F.tmpFiles <;> simp [hh, ht]

end Files

namespace Runtime
variable {s t : Runtime} {E : Env}

theorem unlinkTmp_result (s : Runtime) (tmp : Option ImageId) : (s.unlinkTmp tmp).result = s.result := by
  cases tmp <;> rfl

theorem unlinkTmp_files (s : Runtime) (tmp : Option ImageId) :
    (s.unlinkTmp tmp).files = s.files.unlink tmp := by
  cases tmp <;> rfl

theorem close_unlink_files (s : Runtime) (h : ImageId) (tmp : Option ImageId) :
    ((s.dlclose h).unlinkTmp tmp).files = s.files.release h tmp := by
  cases tmp <;> rfl

theorem unlinkTmp_holdings (s : Runtime) (tmp : Option ImageId) :
    (s.unlinkTmp tmp).holdings = s.holdings := by
  cases tmp <;> rfl

/-- What is left when entry `p` is gone: it has released what it owned. -/
structure Released (s t : Runtime) (p : EntryPtr) : Prop where
  files : ∃ x, s.holdings.own p = some x ∧ t.files = s.files.release x.1 x.2
  holdings : t.holdings = s.holdings.set p none

theorem moduleFreeEntry_released {p : EntryPtr} (h : s.moduleFreeEntry E p = .ok t) :
    t.result = s.result ∧ Released s t p := by
  obtain ⟨e, he, h⟩ := Res.bind_ok.mp h
  obtain ⟨l, hl⟩ := moduleCleanupRegionState_eq E s e
  rw [hl] at h
  cases h
  refine ⟨?_, ⟨e.own, own_of_entry (deref_ok.mp he), ?_⟩, ?_⟩
  · rw [unlinkTmp_result]
    rfl
  · rw [close_unlink_files]
    rfl
  · rw [unlinkTmp_holdings]
    exact setEntry_holdings_set s p none

theorem modUnloadEntry_released {p : EntryPtr} (h : s.modUnloadEntry E p = .ok t) :
    t.result = s.result ∧ Released s t p := by
  obtain ⟨e, -, h⟩ := Res.bind_ok.mp h
  obtain ⟨m, hm, h⟩ := Res.bind_ok.mp h
  have hma : Apart s m := by
    refine Apart.trans ?_ (moduleRegionDetach_apart hm)
    have h1 := moduleClearFnCacheForHandle_apart E s p e.handle
    cases e.regionEntry with
    | none => exact h1
    | some r => exact h1.trans (moduleRemoveDenies_apart _ r e.loadPath)
  obtain ⟨hr, ⟨x, hx, hf⟩, ho⟩ := moduleFreeEntry_released h
  exact ⟨hr.trans hma.result, ⟨x, hma.holdings ▸ hx, hma.files ▸ hf⟩, hma.holdings ▸ ho⟩

theorem modUnload_result (fuel : Nat) {fname : String} {region : RegionId} {ret : Int}
    (h : s.modUnload E fuel fname region = .ok (t, ret)) : t.result = s.result := by
  refine modUnload_rel (fun a b => b.result = a.result) ?_ ?_ ?_ ?_ ?_ fuel h
  · exact fun _ => rfl
  · exact fun _ _ _ h k => k.trans h
  · exact fun _ => rfl
  · exact fun _ _ _ _ => rfl
  · exact fun _ _ _ h => (modUnloadEntry_released h).1

/-- A rollback releases the handle of the load and the copy its entry owns. -/
theorem modLoadAbort_files {tx : LoadTxn} (h : s.modLoadAbort E tx = .ok t) :
    t.result = s.result ∧ t.holdings = s.holdings.set tx.entry none ∧
      ∃ x, s.holdings.own tx.entry = some x ∧ t.files = s.files.release tx.handle x.2 := by
  unfold modLoadAbort at h
  obtain ⟨e, he, h⟩ := Res.bind_ok.mp h
  obtain ⟨m, hm, h⟩ := Res.bind_ok.mp h
  cases h
  have hma : m.result = s.result ∧ m.files = s.files ∧ m.holdings = s.holdings := by
    obtain ⟨l, hl⟩ := moduleCleanupRegionState_eq E (s.modLoadRestoreContext tx) e
    rw [hl] at hm
    exact ⟨(modLoadUnlist_apart hm).result, (modLoadUnlist_apart hm).files,
      (modLoadUnlist_apart hm).holdings⟩
  have hctx : ∀ (u : Runtime) (c : Option CtxPtr), Apart u (u.freeStableFname c) := by
    intro u c
    cases c <;> exact ⟨rfl, rfl, rfl, rfl⟩
  have hown : s.holdings.own tx.entry = some e.own := own_of_entry (deref_ok.mp he)
  refine ⟨?_, ?_, e.own, hown, ?_⟩
  · refine (hctx _ e.ctx).result.trans ?_
    rw [unlinkTmp_result]
    exact hma.1
  · refine (hctx _ e.ctx).holdings.trans ?_
    rw [unlinkTmp_holdings, setEntry_holdings_set, ← hma.2.2]
    rfl
  · rw [← hma.2.1, ← Files.close_unlink]
    simp only [ModEntry.own]
    cases e.ctx <;> cases e.tmpLoadPath <;> rfl

theorem modLoadFresh_result {fname : String} {h : ImageId} {tmp : Option ImageId} {ch : LoadChoice}
    {reload : Option ReloadFrame} {out : Outcome LoadFrame}
    (hl : s.modLoadFresh E fname h tmp ch reload = .ok (t, out)) : t.result = s.result := by
  unfold modLoadFresh at hl
  obtain ⟨m, hm, hl⟩ := Res.bind_ok.mp hl
  obtain ⟨⟨n, ret⟩, hn, hl⟩ := Res.bind_ok.mp hl
  have hna : n.result = s.result := by
    refine (modLoadClaimIfNeeded_apart hn).result.trans ?_
    exact (modLoadBindXy_apart hm).result
  simp only at hl
  split at hl
  · obtain ⟨u, hu, hl⟩ := Res.bind_ok.mp hl
    cases hl
    exact (modLoadAbort_files hu).1.trans hna
  · obtain ⟨u, hu, hl⟩ := Res.bind_ok.mp hl
    have hua := (modLoadEnlist_apart hu).result.trans hna
    split at hl
    · obtain ⟨v, hv, hl⟩ := Res.bind_ok.mp hl
      cases hl
      exact (modLoadAbort_files hv).1.trans hua
    · cases hl
      exact hua

theorem modLoad_result {fname : String} {ch : LoadChoice} {reload : Option ReloadFrame}
    {out : Outcome LoadFrame} (h : s.modLoad E fname ch reload = .ok (t, out)) :
    t.result = s.result := by
  have hopen : (s.modLoadOpenHandle E (E.moduleLoadPath fname) ch).1.result = s.result := by
    have hcopy : (s.copyToTmp (E.moduleLoadPath fname) ch).result = s.result := by
      unfold copyToTmp
      split <;> rfl
    unfold modLoadOpenHandle
    simp only
    split
    · exact (unlinkTmp_result _ _).trans hcopy
    · exact hcopy
  unfold modLoad at h
  simp only at h
  split at h
  · rename_i m hm
    cases h
    rw [hm] at hopen
    exact hopen
  · rename_i m im tmp hm
    rw [hm] at hopen
    split at h
    · obtain ⟨n, hn, h⟩ := Res.bind_ok.mp h
      cases h
      rw [unlinkTmp_result]
      exact (store_apart hn fun _ => rfl).result.trans hopen
    · split at h
      · cases h
        exact (unlinkTmp_result m tmp).trans hopen
      · split at h
        · cases h
        · exact (modLoadFresh_result h).trans hopen

theorem xyReload_result {fuel : Nat} {fname : String} {ch : LoadChoice} {out : Outcome LoadFrame}
    (h : s.xyReload E fuel fname ch = .ok (t, out)) : t.result = s.result := by
  unfold xyReload at h
  simp only at h
  split at h
  · cases h
    rfl
  · obtain ⟨e, -, h⟩ := Res.bind_ok.mp h
    obtain ⟨⟨m, ret⟩, hm, h⟩ := Res.bind_ok.mp h
    have hma := modUnload_result fuel hm
    simp only at h
    split at h
    · cases h
      exact hma
    · obtain ⟨⟨n, o⟩, hn, h⟩ := Res.bind_ok.mp h
      have hna : n.result = s.result := (modLoad_result hn).trans hma
      cases o with
      | wait f =>
          cases h
          exact hna
      | done r =>
          simp only at h
          split at h
          · cases h
            exact hna
          · obtain ⟨u, hu, h⟩ := Res.bind_ok.mp h
            cases h
            exact (xyReloadFinish_apart hu).result.trans hna

theorem installReturn_result {f : LoadFrame} (h : s.installReturn E f = .ok t) :
    t.result = s.result := by
  unfold installReturn at h
  simp only at h
  split at h
  · cases h
    rfl
  · obtain ⟨m, hm, h⟩ := Res.bind_ok.mp h
    cases h
    exact (xyReloadFinish_apart hm).result

end Runtime
end Xylem

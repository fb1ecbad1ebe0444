import Xylem.Runs.Served

namespace Xylem

open Xylem.Runtime

/-- Every hook whose bit is up has its symbol in the cell. -/
def ModEntry.Filled (e : ModEntry) : Prop := ∀ i, e.hookImplBits i = true → e.fnCache i ≠ .null

namespace Runtime

def Filled (s : Runtime) : Prop := ∀ p e, s.entries p = some e → e.Filled

def Lone (s : Runtime) : Prop :=
  ∀ p q e f, s.entries p = some e → s.entries q = some f → e.handle = f.handle → p = q

/-- From `s` to `t` no filled cell is cleared and no vector is built. -/
structure Calm (s t : Runtime) : Prop where
  filled : s.Filled → t.Filled
  vectors : ∀ r i, (t.regions r).hookDispatch i = (s.regions r).hookDispatch i ∨
    (t.regions r).hookDispatch i = {}

end Runtime

namespace Runtime.Calm
variable {E : Env} {s t u : Runtime} {p : EntryPtr} {r : RegionPtr}

theorem of_same (he : t.entries = s.entries) (hr : t.regions = s.regions) : Calm s t :=
  ⟨fun h p e hp => h p e (he ▸ hp), fun r i => .inl (by rw [hr])⟩

theorem refl (s : Runtime) : Calm s s := of_same rfl rfl

theorem trans (h : Calm s t) (k : Calm t u) : Calm s u := by
  refine ⟨fun hs => k.filled (h.filled hs), fun r i => ?_⟩
  rcases k.vectors r i with hk | hk
  · rw [hk]
    exact h.vectors r i
  · exact .inr hk

theorem setEntry {e : ModEntry} (he : s.Filled → e.Filled) : Calm s (s.setEntry p (some e)) := by
  refine ⟨fun h q f hq => ?_, fun _ _ => .inl rfl⟩
  by_cases hqp : q = p
  · subst hqp
    simp only [Runtime.setEntry, Function.update_self, Option.some.injEq] at hq
    exact hq ▸ he h
  · simp only [Runtime.setEntry, Function.update_of_ne hqp] at hq
    exact h q f hq

theorem drop : Calm s (s.setEntry p none) := by
  refine ⟨fun h q f hq => ?_, fun _ _ => .inl rfl⟩
  by_cases hqp : q = p
  · subst hqp
    simp [Runtime.setEntry] at hq
  · simp only [Runtime.setEntry, Function.update_of_ne hqp] at hq
    exact h q f hq

theorem store {f : ModEntry → ModEntry} (h : s.store p f = .ok t)
    (hf : ∀ e, e.Filled → (f e).Filled) : Calm s t := by
  obtain ⟨e, he, rfl⟩ := store_ok.mp h
  exact setEntry fun hs => hf e (hs p e he)

theorem setRegion {f : RegionEntry → RegionEntry}
    (hf : ∀ re, (f re).hookDispatch = re.hookDispatch) : Calm s (s.setRegion r f) := by
  refine ⟨fun h => h, fun x i => .inl ?_⟩
  rw [regions_setRegion]
  split
  · rename_i hx
    rw [hf, hx]
  · rfl

theorem foldl_setRegion {f : RegionEntry → RegionEntry}
    (hf : ∀ re, (f re).hookDispatch = re.hookDispatch) (l : List RegionPtr) (s : Runtime) :
    Calm s (l.foldl (fun s e => s.setRegion e f) s) := by
  induction l generalizing s with
  | nil => exact refl s
  | cons x l ih => exact (setRegion hf).trans (ih _)

theorem markDirty (s : Runtime) (r : RegionPtr) : Calm s (s.regionMarkSubtreeDirty r) := by
  have bump : Calm s (s.regionDispatchGenBump r) := by
    have h : Calm s ((s.upward r).foldl (fun s e => s.setRegion e fun re =>
        { re with dispatchGen := genSucc re.dispatchGen }) s) :=
      foldl_setRegion (by intro re; rfl) _ s
    exact h.trans (of_same rfl rfl)
  exact bump.trans (foldl_setRegion (by intro re; rfl) _ _)

theorem linkNext {q v : Option EntryPtr} (h : s.linkNext r q v = .ok t) : Calm s t := by
  cases q with
  | some q => exact store h fun _ h => h
  | none =>
      cases h
      exact setRegion (by intro re; rfl)

theorem linkPrev {q v : Option EntryPtr} (h : s.linkPrev r q v = .ok t) : Calm s t := by
  cases q with
  | some q => exact store h fun _ h => h
  | none =>
      cases h
      exact setRegion (by intro re; rfl)

theorem regionUnlink {e : ModEntry} (h : s.regionUnlink r e = .ok t) : Calm s t := by
  obtain ⟨m, h1, h2⟩ := Res.bind_ok.mp h
  exact (linkNext h1).trans (linkPrev h2)

theorem detach (h : s.moduleRegionDetach p = .ok t) : Calm s t := by
  obtain ⟨e, -, h⟩ := Res.bind_ok.mp h
  split at h
  · cases h
    exact refl s
  · obtain ⟨m, h1, h⟩ := Res.bind_ok.mp h
    obtain ⟨n, h2, h⟩ := Res.bind_ok.mp h
    cases h
    exact ((regionUnlink h1).trans (store h2 fun _ h => h)).trans (markDirty n _)

theorem insertAfter {a : Option EntryPtr} (h : s.moduleRegionInsertAfter r p a = .ok t) :
    Calm s t := by
  obtain ⟨m, h1, h⟩ := Res.bind_ok.mp h
  have hm : Calm s m := store h1 fun _ h => h
  cases a with
  | none =>
      obtain ⟨n, h2, h⟩ := Res.bind_ok.mp h
      obtain ⟨o, h3, h⟩ := Res.bind_ok.mp h
      cases h
      refine ((hm.trans (store h2 fun _ h => h)).trans (linkPrev h3)).trans ?_
      exact Calm.trans (setRegion (by intro re; rfl)) (markDirty _ r)
  | some a =>
      obtain ⟨e, -, h⟩ := Res.bind_ok.mp h
      obtain ⟨n, h2, h⟩ := Res.bind_ok.mp h
      obtain ⟨o, h3, h⟩ := Res.bind_ok.mp h
      obtain ⟨u, h4, h⟩ := Res.bind_ok.mp h
      cases h
      refine ((hm.trans (store h2 fun _ h => h)).trans (linkPrev h3)).trans ?_
      exact (store h4 fun _ h => h).trans (markDirty u r)

theorem removeDenies (s : Runtime) (r : RegionPtr) (path : String) :
    Calm s (s.moduleRemoveDenies r path) := by
  unfold moduleRemoveDenies
  split
  · exact setRegion (by intro re; rfl)
  · exact refl s

/-! ### Loading -/

theorem resolve (i : Nat) (name : String) {e : ModEntry} (h : e.Filled) :
    (e.fnCacheResolve E i name).1.Filled := by
  unfold ModEntry.fnCacheResolve
  split
  · exact h
  · exact h
  · cases hf : E.dlsym e.handle name with
    | none =>
        intro j hj
        simp only [Function.update_apply]
        split
        · exact FnSlot.noConfusion
        · exact h j hj
    | some f =>
        intro j hj
        simp only [Function.update_apply] at hj ⊢
        split
        · exact FnSlot.noConfusion
        · rename_i hji
          rw [if_neg hji] at hj
          exact h j hj

theorem prewarm (l : List ((_ : String) × Nat)) {e : ModEntry} (h : e.Filled) :
    (e.fnCachePrewarm E l).Filled := by
  unfold ModEntry.fnCachePrewarm
  induction l generalizing e with
  | nil => exact h
  | cons x l ih => exact ih (resolve x.2 x.1 h)

theorem publish (key : ModKey) (h : ImageId) (tmp : Option ImageId) (addr : Addr) :
    Calm s (s.modLoadPublishEntry key h tmp addr) := by
  have h0 : Calm s (s.setEntry s.entryNext (some
      { handle := h, regionId := key.region, parentEntry := s.loadingMod, modKey := key,
        loadPath := key.path, tmpLoadPath := tmp })) := setEntry fun _ i hi => by cases hi
  exact h0.trans (of_same rfl rfl)

theorem bindXy {tx : LoadTxn} (h : s.modLoadBindXy E tx = .ok t) : Calm s t := by
  unfold modLoadBindXy at h
  simp only at h
  split at h
  · cases h
    exact of_same rfl rfl
  · rename_i c hc
    have hs : Calm s (s.clearPendingCtx.xyInitCtx c tx.fname tx.regionId) := of_same rfl rfl
    exact hs.trans (store h fun _ h => h)

theorem createChild (s : Runtime) (r : RegionPtr) (id : RegionId) (bits : UInt8) :
    Calm s (s.regionCreateChild r id bits) := by
  unfold regionCreateChild
  simp only
  refine Calm.trans ?_ (markDirty _ r)
  refine Calm.trans (t := { s with
    regions := Function.update s.regions s.regionNext
      { id := id, plen := (s.regions r).plen + bits, depth := (s.regions r).depth + 1,
        childBits := bits, parent := some r }
    regionNext := s.regionNext + 1
    regionHd := Function.update s.regionHd id (some s.regionNext) }) ⟨fun h => h, fun x i => ?_⟩
    (setRegion (by intro re; rfl))
  by_cases hx : x = s.regionNext
  · subst hx
    exact .inr (by simp only [Function.update_self])
  · exact .inl (by simp only [Function.update_of_ne hx])

theorem rekey {e : ModEntry} (he : s.entries p = some e) (old : ModKey) (a b : RegionId) :
    Calm s (s.rekeyEntry p e old a b) := by
  rw [rekeyEntry_eq]
  exact (setEntry (p := p)
    (e := { e with regionId := b, modKey := ⟨old.path, b⟩ }) fun h => h p e he).trans
    (of_same rfl rfl)

theorem rekeyForClaim {caller : String} {a b : RegionId}
    (h : s.moduleRekeyForClaim E caller a b = .ok t) :
    Calm s t := by
  unfold moduleRekeyForClaim at h
  split at h
  · obtain ⟨e, he, h⟩ := Res.bind_ok.mp h
    cases h
    exact rekey (deref_ok.mp he) _ _ _
  · cases h
    exact refl s

theorem claimForLoad {caller : String} {parent : RegionId} {bits : UInt8} {ch : LoadChoice} {ret : Int}
    (h : s.xyClaimForLoad E caller parent bits ch = .ok (t, ret)) : Calm s t := by
  have err : ∀ {c : Int}, (Except.ok (s.setErr c, c) : Res (Runtime × Int)) = .ok (t, ret) →
      Calm s t := by
    intro c hc
    cases hc
    exact of_same rfl rfl
  unfold xyClaimForLoad at h
  split at h
  · exact err h
  · split at h
    · exact err h
    · rename_i r hr
      split at h
      · exact err h
      · split at h
        · exact err h
        · split at h
          · exact err h
          · simp only at h
            split at h
            · exact err h
            · obtain ⟨m, hm, h⟩ := Res.bind_ok.mp h
              cases h
              have h1 := createChild s r (s.regionAllocSlot r ch.granted) ch.granted
              have h2 : Calm _ m := rekeyForClaim hm
              exact (h1.trans ((of_same (by rfl) (by rfl)).trans h2)).trans (of_same rfl rfl)

theorem claimIfNeeded {tx : LoadTxn} {ch : LoadChoice} {ret : Int}
    (h : s.modLoadClaimIfNeeded E tx ch = .ok (t, ret)) : Calm s t := by
  unfold modLoadClaimIfNeeded at h
  split at h
  · cases h
    exact refl s
  · cases h
    exact refl s
  · split at h
    · cases h
      exact refl s
    · exact claimForLoad h

theorem unlinkTmp (s : Runtime) (o : Option ImageId) : Calm s (s.unlinkTmp o) := by
  cases o <;> exact of_same rfl rfl

theorem cleanup (s : Runtime) (e : ModEntry) : Calm s (s.moduleCleanupRegionState E e) := by
  obtain ⟨l, hl⟩ := moduleCleanupRegionState_eq E s e
  rw [hl]
  exact of_same rfl rfl

theorem abort {tx : LoadTxn} (h : s.modLoadAbort E tx = .ok t) : Calm s t := by
  obtain ⟨e, -, h⟩ := Res.bind_ok.mp h
  obtain ⟨m, hm, h⟩ := Res.bind_ok.mp h
  cases h
  have h1 : Calm ((s.modLoadRestoreContext tx).moduleCleanupRegionState E e) m := by
    unfold modLoadUnlist at hm
    split at hm
    · obtain ⟨n, hn, hm⟩ := Res.bind_ok.mp hm
      cases hm
      exact (regionUnlink hn).trans (markDirty n _)
    · cases hm
      exact refl _
  have h0 : Calm s (s.modLoadRestoreContext tx) := of_same rfl rfl
  have h1 := (cleanup (E := E) (s.modLoadRestoreContext tx) e).trans h1
  have h2 : Calm m (({ m with
      modByRegionHd := E.qmapDel m.modByRegionHd e.regionId
      modHd := m.modHd.erase e.modKey } : Runtime).setEntry tx.entry none) :=
    Calm.trans (of_same (by rfl) (by rfl)) drop
  have h3 : ∀ n : Runtime, Calm n ((n.freeStableFname e.ctx).dlclose tx.handle) := by
    intro n
    cases e.ctx <;> exact of_same rfl rfl
  exact (((h0.trans h1).trans h2).trans (unlinkTmp _ e.tmpLoadPath)).trans (h3 _)

theorem enlist {tx : LoadTxn} (h : s.modLoadEnlist E tx = .ok t) : Calm s t := by
  obtain ⟨m, h1, h⟩ := Res.bind_ok.mp h
  obtain ⟨n, h2, h3⟩ := Res.bind_ok.mp h
  have h0 : Calm s ({ s with modCount := s.modCount + 1 } : Runtime) := of_same rfl rfl
  have hm : Calm s m := by
    unfold modLoadAllocState at h1
    split at h1
    · obtain ⟨o, ho, h1⟩ := Res.bind_ok.mp h1
      cases h1
      exact (h0.trans (store ho fun _ h => h)).trans (of_same rfl rfl)
    · cases h1
      exact of_same rfl rfl
  have hn : Calm m n := by
    obtain ⟨e, -, h2⟩ := Res.bind_ok.mp h2
    split at h2
    · exact insertAfter h2
    · cases h2
      exact refl m
  exact (hm.trans hn).trans (store h3 fun _ h => prewarm _ h)

theorem fresh {fname : String} {im : ImageId} {tmp : Option ImageId} {ch : LoadChoice}
    {reload : Option ReloadFrame} {out : Outcome LoadFrame}
    (h : s.modLoadFresh E fname im tmp ch reload = .ok (t, out)) : Calm s t := by
  obtain ⟨m, hm, h⟩ := Res.bind_ok.mp h
  obtain ⟨⟨n, ret⟩, hn, h⟩ := Res.bind_ok.mp h
  have h1 : Calm s n :=
    ((publish _ im tmp ch.addr).trans (bindXy hm)).trans
      ((of_same (by rfl) (by rfl)).trans (claimIfNeeded hn))
  simp only at h
  split at h
  · obtain ⟨o, ho, h⟩ := Res.bind_ok.mp h
    cases h
    exact h1.trans (abort ho)
  · obtain ⟨o, ho, h⟩ := Res.bind_ok.mp h
    split at h
    · obtain ⟨u, hu, h⟩ := Res.bind_ok.mp h
      cases h
      exact (h1.trans (enlist ho)).trans (abort hu)
    · cases h
      exact (h1.trans (enlist ho)).trans (of_same rfl rfl)

theorem load {fname : String} {ch : LoadChoice} {reload : Option ReloadFrame}
    {out : Outcome LoadFrame} (h : s.modLoad E fname ch reload = .ok (t, out)) : Calm s t := by
  cases modLoad_way h with
  | noImage refs copy files bad err ht hout =>
      rw [ht]
      exact of_same rfl rfl
  | reuse refs copy files bad p e hl he ht hout =>
      rw [ht]
      have h1 : Calm s (s.setEntry p (some { e with refcount := e.refcount + 1 })) :=
        setEntry fun hs => hs p e he
      exact h1.trans (of_same rfl rfl)
  | fresh refs copy files bad hl hmem him ha hf =>
      exact Calm.trans (of_same (by rfl) (by rfl)) (fresh hf)

theorem reloadFinish {f : ReloadFrame} (h : s.xyReloadFinish E f = .ok t) : Calm s t := by
  unfold xyReloadFinish at h
  split at h
  · obtain ⟨m, h1, h⟩ := Res.bind_ok.mp h
    obtain ⟨n, h2, h⟩ := Res.bind_ok.mp h
    cases h
    exact (detach h1).trans (insertAfter h2)
  · cases h
    exact refl s

end Runtime.Calm

/-! ### Unloading -/

namespace Runtime
variable {E : Env} {s t : Runtime}

theorem dlsym_image {h : ImageId} {name : String} {f : Fn} (hd : E.dlsym h name = some f) :
    f.image = h := by
  unfold Env.dlsym at hd
  split at hd
  · split at hd
    · cases hd
      rfl
    · cases hd
  · cases hd

theorem clear_other {base : ImageId} {e : ModEntry} {hooks : AList (fun _ : String => Nat)}
    (hc : ∀ i, CellOk E hooks e.handle i (e.fnCache i)) (hne : e.handle ≠ base) :
    e.clearFnCache base = e := by
  have hfn : (e.clearFnCache base).fnCache = e.fnCache := by
    funext i
    simp only [ModEntry.clearFnCache]
    split
    · rename_i f hf
      have hi := hc i
      rw [hf] at hi
      obtain ⟨name, -, hd⟩ := hi
      rw [if_neg, hf]
      rintro rfl
      exact hne (dlsym_image hd).symm
    · rfl
  cases e
  simp only [ModEntry.clearFnCache] at hfn ⊢
  rw [hfn]

/-- What an unload keeps while no two modules share an image. -/
def KeepsFilled (E : Env) (s t : Runtime) : Prop :=
  s.Lone → Cached E s → t.Lone ∧ Cached E t ∧ Calm s t

theorem Lone.unloaded (h : s.Lone) (hu : Unloaded s t) : t.Lone := by
  intro p q e f he hf hh
  obtain ⟨e0, he0, hc⟩ := hu.entries p e he
  obtain ⟨f0, hf0, hd⟩ := hu.entries q f hf
  have h1 : e.handle = e0.handle := (congrArg ModEntry.handle hc : _)
  have h2 : f.handle = f0.handle := (congrArg ModEntry.handle hd : _)
  exact h p q e0 f0 he0 hf0 (h1.symm.trans (hh.trans h2))

/-- The unload of an image that no other module has clears no cell of them. -/
theorem clearFnCache_lone (h : s.Lone) (hc : Cached E s) {p : EntryPtr} {e : ModEntry}
    (he : s.entries p = some e) : s.moduleClearFnCacheForHandle E p e.handle = s := by
  unfold moduleClearFnCacheForHandle
  cases hb : moduleHandleBase E e.handle with
  | none => rfl
  | some base =>
      have hbase : base = e.handle := by
        unfold moduleHandleBase at hb
        split at hb
        · rename_i f hf
          exact (Option.some.inj hb).symm.trans (dlsym_image hf)
        · obtain ⟨f, hf, rfl⟩ := Option.map_eq_some_iff.mp hb
          exact dlsym_image hf
      have hents : (s.mapEntries ((s.modEntries E).filter (· ≠ p)) (ModEntry.clearFnCache base)).entries
          = s.entries := by
        funext q
        simp only [mapEntries]
        split
        · rename_i hq
          cases hs : s.entries q with
          | none => rfl
          | some f =>
              have hqp : q ≠ p := by simpa using (List.mem_filter.mp hq).2
              rw [Option.map_some, clear_other (hc q f hs)]
              rw [hbase]
              exact fun hh => hqp (h q p f e hs he hh)
        · rfl
      simp only [mapEntries] at hents ⊢
      rw [hents]

theorem modUnloadEntry_keeps {p : EntryPtr} (h : s.modUnloadEntry E p = .ok t) : KeepsFilled E s t := by
  intro hl hc
  have hp : Prims E (fun _ _ => True) (s, .none) (t, .none) := (modUnloadEntry_straight h).prims
  refine ⟨hl.unloaded (modUnloadEntry_unloaded h), hp.cached hc, ?_⟩
  obtain ⟨e, he, h⟩ := Res.bind_ok.mp h
  rw [clearFnCache_lone hl hc (deref_ok.mp he)] at h
  obtain ⟨m, hm, h⟩ := Res.bind_ok.mp h
  obtain ⟨f, -, h⟩ := Res.bind_ok.mp h
  cases h
  refine Calm.trans ?_ (Calm.unlinkTmp _ _)
  refine Calm.trans (Calm.trans ?_ (Calm.detach hm)) ((Calm.of_same (by rfl) (by rfl)).trans
    ((Calm.cleanup _ f).trans (Calm.drop.trans (.of_same rfl rfl))))
  cases e.regionEntry with
  | none => exact .refl s
  | some r => exact .removeDenies s r e.loadPath

theorem modUnload_keeps (fuel : Nat) {fname : String} {region : RegionId} {ret : Int}
    (h : s.modUnload E fuel fname region = .ok (t, ret)) : KeepsFilled E s t := by
  refine modUnload_rel (KeepsFilled E) (fun s hl hc => ⟨hl, hc, .refl s⟩)
    (fun s t u h k hl hc => ?_) (fun s hl hc => ⟨hl, hc, .of_same rfl rfl⟩) (fun s p e he hl hc => ?_)
    (fun _ _ _ => modUnloadEntry_keeps) fuel h
  · obtain ⟨hl1, hc1, h1⟩ := h hl hc
    obtain ⟨hl2, hc2, h2⟩ := k hl1 hc1
    exact ⟨hl2, hc2, h1.trans h2⟩
  · exact ⟨hl.unloaded (setEntry_unloaded he _), hc.same (.setEntry he rfl rfl),
      .setEntry fun hs => hs p e he⟩

end Runtime
end Xylem

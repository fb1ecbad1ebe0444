import Xylem.Ops.Unload

namespace Xylem
namespace Runtime
variable {s t : Runtime} {E : Env} {grant : RegionPtr → UInt8 → Prop}

theorem clearPendingCtx_sameHeap (s : Runtime) : SameHeap s s.clearPendingCtx :=
  ⟨rfl, rfl, rfl, rfl, rfl, rfl, rfl, rfl, rfl, rfl, rfl, rfl, List.prefix_rfl⟩

theorem modLoadBindXy_eq {tx : LoadTxn} {e : ModEntry} (he : s.entries tx.entry = some e)
    (hid : e.regionId = tx.regionId) :
    s.modLoadBindXy E tx = .ok (match s.modLoadCtx E tx.handle with
      | none => s.clearPendingCtx
      | some c => s.clearPendingCtx.bindCtx tx.entry e c tx.fname) := by
  unfold modLoadBindXy
  cases s.modLoadCtx E tx.handle with
  | none => rfl
  | some c => exact store_ok.mpr ⟨e, he, by simp only [bindCtx, hid]⟩

theorem modLoadBindXy_straight {tx : LoadTxn} {e : ModEntry} (he : s.entries tx.entry = some e)
    (hid : e.regionId = tx.regionId) (h : s.modLoadBindXy E tx = .ok t) :
    Straights E grant (s, .fresh tx.entry) (t, .fresh tx.entry) := by
  rw [modLoadBindXy_eq he hid, Except.ok.injEq] at h
  have h0 : Straights E grant (s, .fresh tx.entry) (s.clearPendingCtx, .fresh tx.entry) :=
    .single (.scratch (clearPendingCtx_sameHeap s))
  cases hc : s.modLoadCtx E tx.handle with
  | none =>
      rw [hc] at h
      exact h ▸ h0
  | some c =>
      rw [hc] at h
      subst h
      have he' : s.clearPendingCtx.entries tx.entry = some e := he
      exact h0.tail (.same (.bind he' c tx.fname))

theorem modLoadBindXy_frame {tx : LoadTxn} {e : ModEntry} (he : s.entries tx.entry = some e)
    (hid : e.regionId = tx.regionId) (hn : e.ctx = none) (h : s.modLoadBindXy E tx = .ok t) :
    t.modHd = s.modHd ∧ t.tree = s.tree ∧ t.regions = s.regions ∧
      t.entries tx.entry = some { e with ctx := s.modLoadCtx E tx.handle } := by
  rw [modLoadBindXy_eq he hid, Except.ok.injEq] at h
  cases hc : s.modLoadCtx E tx.handle with
  | none =>
      rw [hc] at h
      subst h
      have hself : ({ e with ctx := none } : ModEntry) = e := by
        cases e
        simp_all
      exact ⟨rfl, rfl, rfl, hself.symm ▸ he⟩
  | some c =>
      rw [hc] at h
      subst h
      exact ⟨rfl, rfl, rfl, by simp [bindCtx, setEntry]⟩

/-- Creating a region writes regions, their table and the history counter. -/
theorem regionCreateChild_eq (s : Runtime) (r : RegionPtr) (id : RegionId) (bits : UInt8) :
    ∃ regions, s.regionCreateChild r id bits =
      { s with
        regions := regions
        regionNext := s.regionNext + 1
        regionHd := Function.update s.regionHd id (some s.regionNext)
        genBumps := s.genBumps + 1 } := by
  unfold regionCreateChild
  simp only
  generalize hm : setRegion _ r _ = m
  obtain ⟨regions, h⟩ := regionMarkSubtreeDirty_eq m r
  rw [h, ← hm]
  exact ⟨regions, rfl⟩

theorem regionCreateChild_frame (s : Runtime) (r : RegionPtr) (id : RegionId) (bits : UInt8) :
    (s.regionCreateChild r id bits).entries = s.entries ∧
      (s.regionCreateChild r id bits).modHd = s.modHd ∧
      (s.regionCreateChild r id bits).ctxs = s.ctxs := by
  obtain ⟨regions, h⟩ := regionCreateChild_eq s r id bits
  rw [h]
  exact ⟨rfl, rfl, rfl⟩

/-- The re-keying of a claim finds the entry that was just published. -/
theorem moduleRekeyForClaim_eq {p : EntryPtr} {fname : String} {region child : RegionId}
    {e : ModEntry} (he : s.entries p = some e) (hkey : e.modKey = ⟨E.moduleLoadPath fname, region⟩)
    (hid : e.regionId = region) (hl : s.modHd.lookup e.modKey = some p) :
    s.moduleRekeyForClaim E fname region child =
      .ok (s.rekeyEntry p e e.modKey e.regionId child) := by
  rw [hkey] at hl
  rw [hkey, hid]
  simp only [moduleRekeyForClaim, moduleLookup, hl, moduleRekeyLoadedEntry]
  exact Res.bind_ok.mpr ⟨e, deref_ok.mpr he, rfl⟩

/-- A load that gets as far as asking for a slot in region `r`. -/
structure AsksSlot (E : Env) (s : Runtime) (region : RegionId) (h : ImageId) (ch : LoadChoice)
    (r : RegionPtr) : Prop where
  region : s.regionHd region = some r
  width : ∃ bits, E.xyClaim h = some bits ∧ bits ≠ 0 ∧ bits ≤ 64
  handler : (s.regions r).claimHandler.isSome
  accepted : ch.handlerRet = xyOk
  granted_pos : ch.granted ≠ 0
  granted_le : ch.granted ≤ 64

/-- The claim stage either leaves the heap as it is, or creates a region and
moves the entry there. -/
theorem modLoadClaimIfNeeded_cases {tx : LoadTxn} {ch : LoadChoice} {e : ModEntry} {ret : Int}
    (hok : s.tree.Ok) (he : s.entries tx.entry = some e)
    (hkey : e.modKey = ⟨E.moduleLoadPath tx.fname, tx.regionId⟩)
    (hid : e.regionId = tx.regionId) (hl : s.modHd.lookup e.modKey = some tx.entry)
    (h : s.modLoadClaimIfNeeded E tx ch = .ok (t, ret)) :
    (t = s ∨ t = s.setErr ret ∧ ret ≠ xyOk) ∨
    (ret = xyOk ∧ ∃ r k, s.AsksSlot E tx.regionId tx.handle ch r ∧
      s.tree.Claims r ch.granted k ∧
      t = ((((s.regionCreateChild r (s.tree.slotId r ch.granted k) ch.granted).setCurrentRegion
        (s.tree.slotId r ch.granted k) (some s.regionNext)).rekeyEntry tx.entry e e.modKey
          e.regionId (s.tree.slotId r ch.granted k)).setErr xyOk)) := by
  unfold modLoadClaimIfNeeded at h
  cases hr : s.regionLookup tx.regionId with
  | none =>
      simp only [hr, Except.ok.injEq, Prod.mk.injEq] at h
      exact .inl (.inl h.1.symm)
  | some r =>
      cases hw : E.xyClaim tx.handle with
      | none =>
          simp only [hr, hw, Except.ok.injEq, Prod.mk.injEq] at h
          exact .inl (.inl h.1.symm)
      | some bits =>
          simp only [hr, hw] at h
          split at h
          · simp only [Except.ok.injEq, Prod.mk.injEq] at h
            exact .inl (.inl h.1.symm)
          · have err : ∀ c : Int, c ≠ xyOk →
                (Except.ok (s.setErr c, c) : Res (Runtime × Int)) = .ok (t, ret) →
                t = s.setErr ret ∧ ret ≠ xyOk := by
              intro c hne hc
              simp only [Except.ok.injEq, Prod.mk.injEq] at hc
              rw [← hc.1, ← hc.2]
              exact ⟨rfl, hne⟩
            simp only [xyClaimForLoad, hr] at h
            split at h
            · exact .inl (.inr (err _ (by decide) h))
            rename_i hbits
            split at h
            · exact .inl (.inr (err _ (by decide) h))
            rename_i hhandler
            split at h
            · exact .inl (.inr (err _ (by decide) h))
            rename_i hret
            split at h
            · exact .inl (.inr (err _ (by decide) h))
            rename_i hgr
            split at h
            · exact .inl (.inr (err _ (by decide) h))
            rename_i hslot
            have hrn := (hok.hd_node _ _ hr).1
            have h0 : ch.granted ≠ 0 := fun h0 => hgr (.inl h0)
            have h64 : ch.granted ≤ 64 := UInt8.not_lt.mp fun h => hgr (.inr h)
            obtain ⟨k, hk, hks⟩ := regionAllocSlot_claims (s := s) hrn h0 h64 hslot
            refine .inr ⟨?_, r, k, ⟨hr, ⟨bits, hw, ?_, ?_⟩, ?_, ?_, h0, h64⟩, hk, ?_⟩
            · simp only [Res.bind_ok, Except.ok.injEq, Prod.mk.injEq] at h
              obtain ⟨_, _, _, h⟩ := h
              exact h.symm
            · exact fun h0 => hbits (.inl h0)
            · exact UInt8.not_lt.mp fun h => hbits (.inr h)
            · simpa [Option.isSome_iff_ne_none] using hhandler
            · simpa using hret
            · rw [hks] at h
              simp only [Res.bind_ok, Except.ok.injEq, Prod.mk.injEq] at h
              obtain ⟨m, hm, rfl, -⟩ := h
              obtain ⟨f1, f2, -⟩ := s.regionCreateChild_frame r (s.tree.slotId r ch.granted k)
                ch.granted
              rw [moduleRekeyForClaim_eq (e := e) (f1 ▸ he) hkey hid (f2 ▸ hl)] at hm
              rw [← Except.ok.inj hm]

/-- What a load may claim: a slot of the width granted, where it asks for one. -/
def LoadGrant (E : Env) (s : Runtime) (region : RegionId) (h : ImageId) (ch : LoadChoice)
    (r : RegionPtr) (bits : UInt8) : Prop := s.AsksSlot E region h ch r ∧ bits = ch.granted

theorem loadGrant_congr (h : t.regionHd = s.regionHd) (hr : t.regions = s.regions)
    (region : RegionId) (im : ImageId) (ch : LoadChoice) :
    t.LoadGrant E region im ch = s.LoadGrant E region im ch := by
  funext r bits
  have : t.AsksSlot E region im ch r ↔ s.AsksSlot E region im ch r := by
    constructor
    · intro a
      exact ⟨h ▸ a.region, a.width, hr ▸ a.handler, a.accepted, a.granted_pos, a.granted_le⟩
    · intro a
      exact ⟨h.symm ▸ a.region, a.width, hr.symm ▸ a.handler, a.accepted, a.granted_pos,
        a.granted_le⟩
  simp only [LoadGrant, this]

theorem setCurrentRegion_sameHeap (s : Runtime) (id : RegionId) (r : Option RegionPtr) :
    SameHeap s (s.setCurrentRegion id r) :=
  ⟨rfl, rfl, rfl, rfl, rfl, rfl, rfl, rfl, rfl, rfl, rfl, rfl, List.prefix_rfl⟩

theorem modLoadClaimIfNeeded_straight {tx : LoadTxn} {ch : LoadChoice} {e : ModEntry} {ret : Int}
    (hok : s.tree.Ok) (he : s.entries tx.entry = some e)
    (hkey : e.modKey = ⟨E.moduleLoadPath tx.fname, tx.regionId⟩)
    (hid : e.regionId = tx.regionId) (hl : s.modHd.lookup e.modKey = some tx.entry)
    (hknown : ∀ k, s.modHd.lookup k ≠ none → s.regionHd k.region ≠ none)
    (h : s.modLoadClaimIfNeeded E tx ch = .ok (t, ret)) :
    Straights E (s.LoadGrant E tx.regionId tx.handle ch) (s, .fresh tx.entry) (t, .fresh tx.entry) := by
  rcases modLoadClaimIfNeeded_cases hok he hkey hid hl h with (rfl | ⟨rfl, -⟩) | ⟨-, r, k, hasks, hk, rfl⟩
  · exact .refl
  · exact .single (.scratch (setErr_sameHeap _ _))
  · obtain ⟨f1, f2, -⟩ := s.regionCreateChild_frame r (s.tree.slotId r ch.granted k) ch.granted
    have h1 : Straights E (s.LoadGrant E tx.regionId tx.handle ch) (s, .fresh tx.entry) _ :=
      .single (.same (.claim hk ⟨hasks, rfl⟩))
    refine ((h1.tail (.scratch (setCurrentRegion_sameHeap _ _ _))).tail (.same (.rekey ?_ ?_ ?_))).tail
      (.scratch (setErr_sameHeap _ _))
    · exact f1 ▸ he
    · have : ((s.regionCreateChild r (s.tree.slotId r ch.granted k) ch.granted).tree.hd
          (s.tree.slotId r ch.granted k)) = some s.regionNext := by
        rw [regionCreateChild_tree]
        exact Function.update_self _ _ _
      exact Option.isSome_iff_exists.mpr ⟨_, this⟩
    · intro key hne
      have hne' : s.modHd.lookup key ≠ none := f2 ▸ hne
      have hreg := hknown key hne'
      rintro hc
      exact hreg (hc ▸ hk.first.free)

/-- Re-keying writes the entry, the two tables and the entry's context. -/
theorem rekeyEntry_eq (s : Runtime) (p : EntryPtr) (e : ModEntry) (old : ModKey)
    (parent child : RegionId) : s.rekeyEntry p e old parent child =
      { s with
        entries := Function.update s.entries p
          (some { e with regionId := child, modKey := ⟨old.path, child⟩ })
        modHd := (s.modHd.insert (⟨old.path, child⟩ : ModKey) p).erase old
        modByRegionHd := (s.moduleRekeyRegionIndex p parent child).modByRegionHd
        ctxs := match e.ctx with
          | some c => Function.update s.ctxs c { s.ctxs c with regionId := child }
          | none => s.ctxs } := by
  unfold rekeyEntry
  cases e.ctx <;> rfl

theorem rekeyEntry_entry (s : Runtime) (p : EntryPtr) (e : ModEntry) (old : ModKey)
    (parent child : RegionId) : (s.rekeyEntry p e old parent child).entries =
      Function.update s.entries p
        (some { e with regionId := child, modKey := ⟨old.path, child⟩ }) := by
  rw [rekeyEntry_eq]

theorem rekeyEntry_tree (s : Runtime) (p : EntryPtr) (e : ModEntry) (old : ModKey)
    (parent child : RegionId) : (s.rekeyEntry p e old parent child).tree = s.tree := by
  rw [rekeyEntry_eq]
  rfl

/-- After the claim stage the entry is as before, but for the region it is in. -/
theorem modLoadClaimIfNeeded_entry {tx : LoadTxn} {ch : LoadChoice} {e : ModEntry} {ret : Int}
    (hok : s.tree.Ok) (he : s.entries tx.entry = some e)
    (hkey : e.modKey = ⟨E.moduleLoadPath tx.fname, tx.regionId⟩)
    (hid : e.regionId = tx.regionId) (hl : s.modHd.lookup e.modKey = some tx.entry)
    (hreg : (s.regionHd tx.regionId).isSome)
    (h : s.modLoadClaimIfNeeded E tx ch = .ok (t, ret)) :
    ∃ id, t.entries tx.entry = some { e with regionId := id, modKey := ⟨e.modKey.path, id⟩ } ∧
      (t.regionHd id).isSome := by
  have hself : ({ e with regionId := tx.regionId, modKey := ⟨e.modKey.path, tx.regionId⟩ } : ModEntry)
      = e := by
    cases e
    simp_all
  rcases modLoadClaimIfNeeded_cases hok he hkey hid hl h with (rfl | ⟨rfl, -⟩) | ⟨-, r, k, -, -, rfl⟩
  · exact ⟨tx.regionId, hself.symm ▸ he, hreg⟩
  · exact ⟨tx.regionId, hself.symm ▸ he, hreg⟩
  · refine ⟨s.tree.slotId r ch.granted k, ?_, ?_⟩
    · show (rekeyEntry _ _ _ _ _ _).entries _ = _
      rw [rekeyEntry_entry]
      exact Function.update_self _ _ _
    · have h1 : (((s.regionCreateChild r (s.tree.slotId r ch.granted k) ch.granted).setCurrentRegion
          (s.tree.slotId r ch.granted k) (some s.regionNext)).rekeyEntry tx.entry e e.modKey
          e.regionId (s.tree.slotId r ch.granted k)).tree = _ := rekeyEntry_tree _ _ _ _ _ _
      have h2 : (s.regionCreateChild r (s.tree.slotId r ch.granted k) ch.granted).tree.hd
          (s.tree.slotId r ch.granted k) = some s.regionNext := by
        rw [regionCreateChild_tree]
        exact Function.update_self _ _ _
      exact Option.isSome_iff_exists.mpr ⟨_, (congrFun (congrArg Tree.hd h1) _).trans h2⟩

theorem modLoadAllocState_straight {tx : LoadTxn} (h : s.modLoadAllocState E tx = .ok t) :
    Straights E grant (s, .fresh tx.entry) (t, .fresh tx.entry) := by
  unfold modLoadAllocState at h
  split at h
  · simp only [Res.bind_ok, Except.ok.injEq] at h
    obtain ⟨m, hm, rfl⟩ := h
    obtain ⟨e, he, rfl⟩ := store_ok.mp hm
    exact .single (.same (.state he))
  · cases h
    exact .refl

theorem modLoadAppend_straight {tx : LoadTxn}
    (hr : ∀ e, s.entries tx.entry = some e → (s.regionHd e.regionId).isSome)
    (h : s.modLoadAppend tx = .ok t) : Straights E grant (s, .fresh tx.entry) (t, .none) := by
  simp only [modLoadAppend, Res.bind_ok, deref_ok] at h
  obtain ⟨e, he, h⟩ := h
  obtain ⟨r, hreg⟩ := Option.isSome_iff_exists.mp (hr e he)
  simp only [regionLookup, hreg] at h
  exact .single (.append he hreg h)

theorem modLoadEnlist_straight {tx : LoadTxn}
    (hr : ∀ e, s.entries tx.entry = some e → (s.regionHd e.regionId).isSome)
    (h : s.modLoadEnlist E tx = .ok t) : Straights E grant (s, .fresh tx.entry) (t, .none) := by
  simp only [modLoadEnlist, Res.bind_ok] at h
  obtain ⟨m1, h1, m2, h2, h3⟩ := h
  obtain ⟨e2, he2, rfl⟩ := store_ok.mp h3
  have p0 : Straights E grant (s, .fresh tx.entry)
      (({ s with modCount := s.modCount + 1 } : Runtime), .fresh tx.entry) :=
    .single (.scratch ⟨rfl, rfl, rfl, rfl, rfl, rfl, rfl, rfl, rfl, rfl, rfl, rfl, List.prefix_rfl⟩)
  have hr1 : ∀ e, m1.entries tx.entry = some e → (m1.regionHd e.regionId).isSome := by
    unfold modLoadAllocState at h1
    split at h1
    · simp only [Res.bind_ok, Except.ok.injEq] at h1
      obtain ⟨m, hm, rfl⟩ := h1
      obtain ⟨e, he, rfl⟩ := store_ok.mp hm
      intro e' he'
      simp only [setEntry, Function.update_self, Option.some.injEq] at he'
      subst he'
      exact hr e he
    · cases h1
      exact hr
  exact ((p0.trans (modLoadAllocState_straight h1)).trans (modLoadAppend_straight hr1 h2)).tail
    (.same (.prewarm he2))

/-- Rolling back a load whose entry is off its list, or was never on it. -/
theorem modLoadAbort_straight {tx : LoadTxn} {x : Transit}
    (hx : x = .none ∨ x = .fresh tx.entry ∧
      ∀ e, s.entries tx.entry = some e → e.regionEntry = none)
    (h : s.modLoadAbort E tx = .ok t) : Straights E grant (s, x) (t, .none) := by
  simp only [modLoadAbort, Res.bind_ok, deref_ok, Except.ok.injEq] at h
  obtain ⟨e, he, m, hm, rfl⟩ := h
  have p0 : Straights E grant (s, x) ((s.modLoadRestoreContext tx).moduleCleanupRegionState E e, x) :=
    (Relation.ReflTransGen.single (.scratch (setCurrentRegion_sameHeap _ _ _))).tail
      (.scratch (moduleCleanupRegionState_sameHeap _ e))
  have hx' : x = .none ∨ x = .fresh tx.entry ∧ e.regionEntry = none :=
    hx.imp_right fun h => ⟨h.1, h.2 e he⟩
  have he : ((s.modLoadRestoreContext tx).moduleCleanupRegionState E e).entries tx.entry = some e :=
    (moduleCleanupRegionState_sameHeap (E := E) _ e).entries.symm ▸ he
  generalize (s.modLoadRestoreContext tx).moduleCleanupRegionState E e = s0 at p0 he hm
  have hcore : m.core = s0.core := by
    unfold modLoadUnlist at hm
    split at hm
    · simp only [Res.bind_ok, Except.ok.injEq] at hm
      obtain ⟨m', hm', rfl⟩ := hm
      exact (regionMarkSubtreeDirty_core _ _).trans (regionUnlink_core hm')
    · cases hm
      rfl
  obtain ⟨e', he', hc⟩ := entries_of_core hcore he
  have hid : e'.core.regionId = e.core.regionId := congrArg _ hc
  have hkey : e'.core.modKey = e.core.modKey := congrArg _ hc
  simp only [ModEntry.core] at hid hkey
  have p2 : Straights E grant (s, x) (m.dropEntry E tx.entry e', .none) := by
    rcases hx' with rfl | ⟨rfl, hnone⟩
    · exact (p0.tail (.of_none (.unlist he hm))).tail (.drop rfl he')
    · simp only [modLoadUnlist, hnone, Except.ok.injEq] at hm
      subst hm
      exact p0.tail (.drop rfl he')
  have hdrop : SameHeap (m.dropEntry E tx.entry e') (({ m with
      modByRegionHd := E.qmapDel m.modByRegionHd e.regionId
      modHd := m.modHd.erase e.modKey } : Runtime).setEntry tx.entry none) := by
    constructor <;> simp [dropEntry, setEntry, hid, hkey]
  have p3 := (p2.tail (.scratch hdrop)).tail (.scratch (unlinkTmp_sameHeap _ e.tmpLoadPath))
  generalize unlinkTmp _ _ = m1 at p3
  have p4 : Straights E grant (s, x) (m1.freeStableFname e.ctx, .none) := by
    cases e.ctx with
    | none => exact p3
    | some c => exact p3.tail (.same (.freePath c))
  exact p4.tail (.scratch (dlclose_sameHeap _ _))

theorem modLoadPublishEntry_entry (s : Runtime) (key : ModKey) (h : ImageId) (tmp : Option ImageId)
    (addr : Addr) : (s.modLoadPublishEntry key h tmp addr).entries s.entryNext = some
      { handle := h, regionId := key.region, parentEntry := s.loadingMod, modKey := key,
        loadPath := key.path, tmpLoadPath := tmp } := by
  simp [modLoadPublishEntry, setEntry]

theorem modLoadFresh_straight {fname : String} {im : ImageId} {tmp : Option ImageId} {ch : LoadChoice}
    {reload : Option ReloadFrame} {out : Outcome LoadFrame} (hok : s.tree.Ok)
    (hcur : (s.regionHd s.currentRegionId).isSome)
    (hk : s.modHd.lookup ⟨E.moduleLoadPath fname, s.currentRegionId⟩ = none)
    (hknown : ∀ k, s.modHd.lookup k ≠ none → s.regionHd k.region ≠ none)
    (ha : ∀ k p, s.modHd.lookup k = some p → s.addr p ≠ ch.addr)
    (h : s.modLoadFresh E fname im tmp ch reload = .ok (t, out)) :
    Straights E (s.LoadGrant E s.currentRegionId im ch) (s, .none) (t, .none) := by
  simp only [modLoadFresh, Res.bind_ok] at h
  obtain ⟨s2, h2, ⟨s4, ret⟩, h4, h⟩ := h
  have p1 : Straights E (s.LoadGrant E s.currentRegionId im ch) (s, .none) _ :=
    .single (.of_none (.publish hk hcur im tmp ch.addr ha))
  have he1 := s.modLoadPublishEntry_entry ⟨E.moduleLoadPath fname, s.currentRegionId⟩ im tmp ch.addr
  have p2 := p1.trans (modLoadBindXy_straight he1 rfl h2)
  obtain ⟨f1, f2, f3, he2⟩ := modLoadBindXy_frame he1 rfl rfl h2
  have f4 : s2.regionHd = s.regionHd := congrArg Tree.hd f2
  have p3 := p2.tail (.scratch (setCurrentRegion_sameHeap s2 s.currentRegionId
    (s2.regionLookup s.currentRegionId)))
  have hlook : s2.modHd.lookup ⟨E.moduleLoadPath fname, s.currentRegionId⟩ = some s.entryNext := by
    rw [f1]
    exact AList.lookup_insert _
  have hknown2 : ∀ k, s2.modHd.lookup k ≠ none → s2.regionHd k.region ≠ none := by
    intro k hne
    rw [f4]
    by_cases hkey : k = ⟨E.moduleLoadPath fname, s.currentRegionId⟩
    · subst hkey
      exact Option.isSome_iff_ne_none.mp hcur
    · refine hknown k ?_
      rw [f1] at hne
      rwa [modLoadPublishEntry, AList.lookup_insert_ne hkey] at hne
  generalize hs3 : setCurrentRegion s2 _ _ = s3 at p3 h4
  have h3 : SameHeap s2 s3 := hs3 ▸ setCurrentRegion_sameHeap _ _ _
  have p4 := modLoadClaimIfNeeded_straight (h3.tree.trans f2 ▸ hok) (h3.entries ▸ he2) rfl rfl
    (h3.modHd ▸ hlook) (h3.modHd ▸ h3.regionHd ▸ hknown2) h4
  rw [loadGrant_congr (h3.regionHd.trans f4) (h3.regions.trans f3)] at p4
  obtain ⟨id, he4, hid4⟩ := modLoadClaimIfNeeded_entry (h3.tree.trans f2 ▸ hok)
    (h3.entries ▸ he2) rfl rfl (h3.modHd ▸ hlook) ((h3.regionHd.trans f4) ▸ hcur) h4
  have p5 := p3.trans p4
  split at h
  · simp only [Res.bind_ok, Except.ok.injEq, Prod.mk.injEq] at h
    obtain ⟨s5, h5, rfl, -⟩ := h
    refine p5.trans (modLoadAbort_straight (.inr ⟨rfl, fun e he => ?_⟩) h5)
    cases he4.symm.trans he
    rfl
  · simp only [Res.bind_ok] at h
    obtain ⟨s5, h5, h⟩ := h
    have p6 := p5.trans (modLoadEnlist_straight (fun e he => by cases he4.symm.trans he; exact hid4) h5)
    split at h
    · simp only [Res.bind_ok, Except.ok.injEq, Prod.mk.injEq] at h
      obtain ⟨s6, h6, rfl, -⟩ := h
      exact p6.trans (modLoadAbort_straight (.inl rfl) h6)
    · simp only [Except.ok.injEq, Prod.mk.injEq] at h
      obtain ⟨rfl, -⟩ := h
      exact p6.tail
        (.scratch ⟨rfl, rfl, rfl, rfl, rfl, rfl, rfl, rfl, rfl, rfl, rfl, rfl, List.prefix_rfl⟩)

theorem modLoadOpenHandle_cases {path : String} {ch : LoadChoice} {o : Option (ImageId × Option ImageId)}
    (h : s.modLoadOpenHandle E path ch = (t, o)) :
    ∃ refs copy files bad,
      t = { s with dlRefs := refs, copyNext := copy, tmpFiles := files, badReleases := bad } ∧
      (o = none ∨ o = some (s.modLoadImage path ch) ∧
        ∃ im, E.dlopen (s.modLoadImage path ch).1 = some im) := by
  unfold modLoadOpenHandle at h
  cases hi : s.modLoadImage path ch with
  | mk im tmp =>
      simp only [hi] at h
      cases hd : E.dlopen im with
      | none =>
          simp only [hd, Prod.mk.injEq] at h
          obtain ⟨rfl, rfl⟩ := h
          unfold copyToTmp
          split <;> cases tmp <;> exact ⟨_, _, _, _, rfl, .inl rfl⟩
      | some image =>
          simp only [hd, Prod.mk.injEq] at h
          obtain ⟨rfl, rfl⟩ := h
          unfold copyToTmp
          split <;> exact ⟨_, _, _, _, rfl, .inr ⟨rfl, image, rfl⟩⟩

/-- The four ways of a load: it does not get an image, the module is there
already, memory runs out, or a fresh entry is made. -/
inductive LoadWay (E : Env) (s : Runtime) (fname : String) (ch : LoadChoice)
    (reload : Option ReloadFrame) (t : Runtime) (out : Outcome LoadFrame) : Prop
  | noImage (refs : ImageId → Int) (copy : Nat) (files : List ImageId) (bad : Nat) (err : Int)
      (ht : t = { s with
        dlRefs := refs, copyNext := copy, tmpFiles := files, badReleases := bad, errVal := err })
      (hout : ∃ ret, ret ≠ xyOk ∧ out = .done ret)
  | reuse (refs : ImageId → Int) (copy : Nat) (files : List ImageId) (bad : Nat) (p : EntryPtr)
      (e : ModEntry)
      (hl : s.moduleLookup E fname s.currentRegionId = some p) (he : s.entries p = some e)
      (ht : t = { s.setEntry p (some { e with refcount := e.refcount + 1 }) with
        dlRefs := refs, copyNext := copy, tmpFiles := files, badReleases := bad })
      (hout : out = .done xyOk)
  | fresh (refs : ImageId → Int) (copy : Nat) (files : List ImageId) (bad : Nat)
      (hl : s.moduleLookup E fname s.currentRegionId = none)
      (hmem : ch.noMem = false)
      (him : ∃ im, E.dlopen (s.modLoadImage (E.moduleLoadPath fname) ch).1 = some im)
      (ha : ∀ k p, s.modHd.lookup k = some p → s.addr p ≠ ch.addr)
      (h : ({ s with
        dlRefs := refs, copyNext := copy, tmpFiles := files, badReleases := bad } : Runtime).modLoadFresh E
        fname (s.modLoadImage (E.moduleLoadPath fname) ch).1
        (s.modLoadImage (E.moduleLoadPath fname) ch).2 ch reload = .ok (t, out))

theorem modLoad_way {fname : String} {ch : LoadChoice} {reload : Option ReloadFrame}
    {out : Outcome LoadFrame} (h : s.modLoad E fname ch reload = .ok (t, out)) :
    LoadWay E s fname ch reload t out := by
  unfold modLoad at h
  cases ho : s.modLoadOpenHandle E (E.moduleLoadPath fname) ch with
  | mk m o =>
      obtain ⟨refs, copy, files, bad, rfl, ho' | ⟨ho', him⟩⟩ := modLoadOpenHandle_cases ho
      · subst ho'
        simp only [ho, Except.ok.injEq, Prod.mk.injEq] at h
        exact .noImage refs copy files bad xyErrNotFound h.1.symm ⟨_, by decide, h.2.symm⟩
      · subst ho'
        simp only [ho] at h
        cases hl : s.moduleLookup E fname s.currentRegionId with
        | some p =>
            simp only [hl, Res.bind_ok, Except.ok.injEq, Prod.mk.injEq] at h
            obtain ⟨m, hm, rfl, rfl⟩ := h
            obtain ⟨e, he, rfl⟩ := store_ok.mp hm
            cases (s.modLoadImage (E.moduleLoadPath fname) ch).2 <;>
              exact .reuse _ copy _ _ p e hl he rfl rfl
        | none =>
            simp only [hl] at h
            split at h
            · simp only [Except.ok.injEq, Prod.mk.injEq] at h
              rw [← h.1, ← h.2]
              cases (s.modLoadImage (E.moduleLoadPath fname) ch).2 <;>
                exact .noImage _ copy _ _ s.errVal rfl ⟨_, by decide, rfl⟩
            · split at h
              · cases h
              · rename_i hmem haddr
                refine .fresh refs copy files bad hl (by simpa using hmem) him ?_ h
                intro k p hk he
                refine haddr (List.any_eq_true.mpr ⟨⟨k, p⟩, ?_, by simpa using he⟩)
                exact AList.mem_lookup_iff.mp hk

end Runtime
end Xylem

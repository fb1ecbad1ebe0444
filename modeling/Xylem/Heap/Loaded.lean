import Xylem.Heap.Inv

namespace Xylem

theorem ModEntry.core_moved (e : ModEntry) (id : RegionId) (key : ModKey) :
    ({ e with regionId := id, modKey := key } : ModEntry).core =
      { e.core with regionId := id, modKey := key } := rfl

namespace Runtime
variable {s t : Runtime} {E : Env}

def withCtx (ctxs : CtxPtr → Ctx) (c : Option CtxPtr) (f : Ctx → Ctx) : CtxPtr → Ctx :=
  match c with
  | some c => Function.update ctxs c (f (ctxs c))
  | none => ctxs

theorem withCtx_withCtx (ctxs : CtxPtr → Ctx) (c : Option CtxPtr) (f g : Ctx → Ctx) :
    withCtx (withCtx ctxs c f) c g = withCtx ctxs c fun x => g (f x) := by
  cases c <;> simp [withCtx]

/-- The entry that a load publishes, with what its later stages fill in. -/
def loadedEntry (s : Runtime) (path : String) (im : ImageId) (tmp : Option ImageId)
    (ctx : Option CtxPtr) (id : RegionId) : ModEntry :=
  { handle := im, regionId := id, parentEntry := s.loadingMod, modKey := ⟨path, id⟩,
    loadPath := path, tmpLoadPath := tmp, ctx := ctx }

def rekeyIndex (m : RegionIndex) (me : EntryPtr) (parent child : RegionId) : RegionIndex :=
  m.filter (fun x => x.1 ≠ parent) ++ (m.filter fun x => x.1 = parent ∧ x.2 ≠ me).take 512 ++
    [(child, me)]

/-- Where a load puts its entry, with the tree and the region index it leaves:
the current region, or a child region that it claims. -/
inductive Placed (E : Env) (s : Runtime) (im : ImageId) (ch : LoadChoice) :
    RegionId → RegionPtr → Tree → RegionIndex → Prop
  | stays (r : RegionPtr) (hr : s.regionHd s.currentRegionId = some r) :
      Placed E s im ch s.currentRegionId r s.tree
        (s.modByRegionHd ++ [(s.currentRegionId, s.entryNext)])
  | claims (r : RegionPtr) (k : Nat) (hasks : s.AsksSlot E s.currentRegionId im ch r)
      (hk : s.tree.Claims r ch.granted k) :
      Placed E s im ch (s.tree.slotId r ch.granted k) s.regionNext
        (s.tree.claim r (s.tree.slotId r ch.granted k) ch.granted)
        (rekeyIndex (s.modByRegionHd ++ [(s.currentRegionId, s.entryNext)]) s.entryNext
          s.currentRegionId (s.tree.slotId r ch.granted k))

/-- One load of `fname`: the image it opened and the address of its entry. -/
structure Loading where
  fname : String
  im : ImageId
  tmp : Option ImageId
  addr : Addr

/-- The core when the entry is published, bound and perhaps re-keyed to `id`. -/
def boundCore (E : Env) (s : Runtime) (l : Loading) (id : RegionId) (r : RegionPtr) (T : Tree)
    (index : RegionIndex) : Core :=
  { s.core with
    tree := T
    entries := Function.update s.core.entries s.entryNext
      (some (s.loadedEntry (E.moduleLoadPath l.fname) l.im l.tmp (s.modLoadCtx E l.im) id))
    entryNext := s.entryNext + 1
    addr := Function.update s.addr s.entryNext l.addr
    modHd := s.modHd.insert (⟨E.moduleLoadPath l.fname, id⟩ : ModKey) s.entryNext
    modByRegionHd := index
    ctxs := withCtx s.ctxs (s.modLoadCtx E l.im) fun x =>
      { x with modulePath := .str l.fname, regionId := id }
    pendingCtx := none
    currentRegionId := id
    currentRegionEntry := some r }

def loadedState (E : Env) (s : Runtime) (im : ImageId) : Option StatePtr :=
  if 0 < E.regionStateSize im then some s.stateNext else none

def loadedCore (E : Env) (s : Runtime) (l : Loading) (id : RegionId) (r : RegionPtr) (T : Tree)
    (index : RegionIndex) : Core :=
  { s.boundCore E l id r T index with
    entries := Function.update s.core.entries s.entryNext
      (some { s.loadedEntry (E.moduleLoadPath l.fname) l.im l.tmp (s.modLoadCtx E l.im) id with
        regionEntry := some r, regionState := s.loadedState E l.im })
    modCount := s.modCount + 1
    stateNext := if 0 < E.regionStateSize l.im then s.stateNext + 1 else s.stateNext
    loadingMod := some s.entryNext }

/-- The core after a rollback; `counted` says that the load had got to the count. -/
def rolledCore (E : Env) (s : Runtime) (l : Loading) (id : RegionId) (T : Tree)
    (index : RegionIndex) (counted : Bool) : Core :=
  { s.core with
    tree := T
    entryNext := s.entryNext + 1
    addr := Function.update s.addr s.entryNext l.addr
    modByRegionHd := E.qmapDel index id
    ctxs := withCtx s.ctxs (s.modLoadCtx E l.im) fun x =>
      { x with modulePath := .freed, regionId := id }
    pendingCtx := none
    modCount := if counted then s.modCount + 1 else s.modCount
    stateNext := if counted ∧ 0 < E.regionStateSize l.im then s.stateNext + 1 else s.stateNext }

theorem modLoadPublishEntry_core (s : Runtime) (key : ModKey) (im : ImageId) (tmp : Option ImageId)
    (addr : Addr) : (s.modLoadPublishEntry key im tmp addr).core =
      { s.core with
        entries := Function.update s.core.entries s.entryNext
          (some (s.loadedEntry key.path im tmp none key.region))
        entryNext := s.entryNext + 1
        addr := Function.update s.addr s.entryNext addr
        modHd := s.modHd.insert key s.entryNext
        modByRegionHd := s.modByRegionHd ++ [(key.region, s.entryNext)] } := by
  have h := setEntry_core s s.entryNext (some (s.loadedEntry key.path im tmp none key.region))
  have h2 := congrArg Core.entries h
  exact Core.ext rfl h2 rfl rfl rfl rfl rfl rfl rfl rfl rfl rfl rfl rfl rfl

/-- The core after binding: the entry holds its context, which is filled in. -/
theorem modLoadBindXy_core {tx : LoadTxn} {e : ModEntry} (he : s.entries tx.entry = some e)
    (hid : e.regionId = tx.regionId) (hn : e.ctx = none) (h : s.modLoadBindXy E tx = .ok t) :
    t.core = { s.core with
      entries := Function.update s.core.entries tx.entry
        (some ({ e with ctx := s.modLoadCtx E tx.handle } : ModEntry).core)
      ctxs := withCtx s.ctxs (s.modLoadCtx E tx.handle) fun x =>
        { x with modulePath := .str tx.fname, regionId := tx.regionId }
      pendingCtx := none } := by
  rw [modLoadBindXy_eq he hid, Except.ok.injEq] at h
  have hself : ({ e with ctx := none } : ModEntry) = e := by
    cases e
    simp_all
  cases hc : s.modLoadCtx E tx.handle with
  | none =>
      rw [hc] at h
      subst h
      refine Core.ext rfl ?_ rfl rfl rfl rfl rfl rfl rfl rfl rfl rfl rfl rfl rfl
      refine (Function.update_eq_self_iff.mpr ?_).symm
      rw [hself]
      show _ = (s.entries tx.entry).map ModEntry.core
      rw [he]
      rfl
  | some c =>
      rw [hc] at h
      subst h
      have h2 := congrArg Core.entries
        (setEntry_core s tx.entry (some { e with ctx := some c }))
      refine Core.ext rfl h2 rfl rfl rfl rfl ?_ rfl rfl rfl rfl rfl rfl rfl rfl
      show (s.clearPendingCtx.xyInitCtx c tx.fname e.regionId).ctxs = _
      rw [hid]
      rfl

theorem rekeyEntry_core (s : Runtime) (p : EntryPtr) (e : ModEntry) (old : ModKey)
    (parent child : RegionId) : (s.rekeyEntry p e old parent child).core =
      { s.core with
        entries := Function.update s.core.entries p
          (some ({ e with regionId := child, modKey := ⟨old.path, child⟩ } : ModEntry).core)
        modHd := (s.modHd.insert (⟨old.path, child⟩ : ModKey) p).erase old
        modByRegionHd := (s.moduleRekeyRegionIndex p parent child).modByRegionHd
        ctxs := withCtx s.ctxs e.ctx fun x => { x with regionId := child } } := by
  rw [rekeyEntry_eq]
  have h2 := congrArg Core.entries
    (setEntry_core s p (some { e with regionId := child, modKey := ⟨old.path, child⟩ }))
  refine Core.ext rfl h2 rfl rfl rfl rfl ?_ rfl rfl rfl rfl rfl rfl rfl rfl
  cases e.ctx <;> rfl

theorem regionCreateChild_core (s : Runtime) (r : RegionPtr) (id : RegionId) (bits : UInt8) :
    (s.regionCreateChild r id bits).core = { s.core with tree := s.tree.claim r id bits } := by
  have ht := regionCreateChild_tree s r id bits
  obtain ⟨regions, h⟩ := regionCreateChild_eq s r id bits
  refine Core.ext ht ?_ ?_ ?_ ?_ ?_ ?_ ?_ ?_ ?_ ?_ ?_ ?_ ?_ ?_ <;> rw [h] <;> rfl

theorem asksSlot_congr (h : t.tree = s.tree) {id : RegionId} {im : ImageId} {ch : LoadChoice}
    {r : RegionPtr} (a : t.AsksSlot E id im ch r) : s.AsksSlot E id im ch r := by
  have h1 : t.regionHd = s.regionHd := congrArg Tree.hd h
  have h2 : (t.regions r).toRegionNode = (s.regions r).toRegionNode := congrFun (congrArg Tree.node h) r
  refine ⟨h1 ▸ a.region, a.width, ?_, a.accepted, a.granted_pos, a.granted_le⟩
  have h3 : (t.regions r).claimHandler = (s.regions r).claimHandler :=
    congrArg RegionNode.claimHandler h2
  exact h3 ▸ a.handler

end Runtime

section Table
variable {α β : Type} [DecidableEq α] {m : AList fun _ : α => β} {a a' : α} {b : β}

theorem erase_insert_self (h : m.lookup a = none) : (m.insert a b).erase a = m := by
  have hm : a ∉ m := AList.lookup_eq_none.mp h
  refine AList.ext ?_
  show List.kerase a (m.insert a b).entries = m.entries
  rw [AList.entries_insert_of_notMem hm]
  exact List.kerase_cons_eq rfl

theorem erase_insert_ne (h : a' ≠ a) : (m.insert a' b).erase a = (m.erase a).insert a' b := by
  refine AList.ext ?_
  show List.kerase a (m.insert a' b).entries = _
  rw [AList.entries_insert, AList.entries_insert, List.kerase_cons_ne (Ne.symm h)]
  exact congrArg _ (List.kerase_comm a' a m.entries)

theorem insert_insert_erase (h : m.lookup a = none) (hne : a' ≠ a) :
    ((m.insert a b).insert a' b).erase a = m.insert a' b := by
  rw [erase_insert_ne hne, erase_insert_self h]

end Table

namespace Runtime
variable {s t : Runtime} {E : Env}

/-- The core when the entry is published and bound, before the claim stage. -/
theorem modLoadBind_core {l : Loading} {r : RegionPtr} (hr : s.regionHd s.currentRegionId = some r)
    {tx : LoadTxn} (htx : tx = ⟨l.fname, s.entryNext, l.im, s.currentRegionId, s.currentRegionEntry⟩)
    (h : (s.modLoadPublishEntry ⟨E.moduleLoadPath l.fname, s.currentRegionId⟩ l.im l.tmp
      l.addr).modLoadBindXy E tx = .ok t) :
    (t.setCurrentRegion tx.regionId (t.regionLookup tx.regionId)).core =
      s.boundCore E l s.currentRegionId r s.tree
        (s.modByRegionHd ++ [(s.currentRegionId, s.entryNext)]) := by
  subst htx
  have he := s.modLoadPublishEntry_entry ⟨E.moduleLoadPath l.fname, s.currentRegionId⟩ l.im l.tmp
    l.addr
  have hb := modLoadBindXy_core he rfl rfl h
  rw [modLoadPublishEntry_core] at hb
  have hhd : t.regionHd = s.regionHd := congrArg (fun c => c.tree.hd) hb
  rw [setCurrentRegion_core, regionLookup, hhd, hr, hb]
  refine Core.ext rfl ?_ rfl rfl rfl rfl rfl rfl rfl rfl rfl rfl rfl rfl rfl
  exact Function.update_idem _ _ _

/-- The claim stage puts the entry somewhere, or fails and leaves it where it is. -/
theorem modLoadClaim_core {l : Loading} {r : RegionPtr} {tx : LoadTxn} {ch : LoadChoice} {ret : Int}
    {m : Runtime} (hok : s.tree.Ok) (hr : s.regionHd s.currentRegionId = some r)
    (hk : s.modHd.lookup ⟨E.moduleLoadPath l.fname, s.currentRegionId⟩ = none)
    (htx : tx = ⟨l.fname, s.entryNext, l.im, s.currentRegionId, s.currentRegionEntry⟩)
    (hm : m.core = s.boundCore E l s.currentRegionId r s.tree
      (s.modByRegionHd ++ [(s.currentRegionId, s.entryNext)]))
    (h : m.modLoadClaimIfNeeded E tx ch = .ok (t, ret)) :
    ∃ id r' T index, Placed E s l.im ch id r' T index ∧ t.core = s.boundCore E l id r' T index ∧
      (ret ≠ xyOk → id = s.currentRegionId ∧ T = s.tree ∧
        index = s.modByRegionHd ++ [(s.currentRegionId, s.entryNext)]) := by
  have htree : m.tree = s.tree := congrArg Core.tree hm
  have hentry : (m.entries s.entryNext).map ModEntry.core = some (s.loadedEntry
      (E.moduleLoadPath l.fname) l.im l.tmp (s.modLoadCtx E l.im) s.currentRegionId) := by
    have h1 := congrFun (congrArg Core.entries hm) s.entryNext
    exact h1.trans (Function.update_self _ _ _)
  obtain ⟨e, he, hec⟩ := Option.map_eq_some_iff.mp hentry
  have hid : e.regionId = s.currentRegionId := congrArg (fun e : ModEntry => e.regionId) hec
  have hkey : e.modKey = ⟨E.moduleLoadPath l.fname, s.currentRegionId⟩ :=
    congrArg (fun e : ModEntry => e.modKey) hec
  have hctx : e.ctx = s.modLoadCtx E l.im := congrArg (fun e : ModEntry => e.ctx) hec
  have hmod : m.modHd = s.modHd.insert e.modKey s.entryNext := by
    rw [hkey]
    exact congrArg Core.modHd hm
  subst htx
  have hl : m.modHd.lookup e.modKey = some s.entryNext := by
    rw [hmod]
    exact AList.lookup_insert _
  have stays : ∀ {t : Runtime}, t.core = m.core → ∃ id r' T index, Placed E s l.im ch id r' T index ∧
      t.core = s.boundCore E l id r' T index ∧ (ret ≠ xyOk → id = s.currentRegionId ∧ T = s.tree ∧
        index = s.modByRegionHd ++ [(s.currentRegionId, s.entryNext)]) :=
    fun ht => ⟨_, r, _, _, .stays r hr, ht.trans hm, fun _ => ⟨rfl, rfl, rfl⟩⟩
  rcases modLoadClaimIfNeeded_cases (htree ▸ hok) he hkey hid hl h with
    (rfl | ⟨rfl, -⟩) | ⟨hret, r', k, hasks, hcl, rfl⟩
  · exact stays rfl
  · exact stays rfl
  · rw [htree] at hcl
    have hnext : m.regionNext = s.regionNext := congrArg Tree.next htree
    have hne : (⟨e.modKey.path, s.tree.slotId r' ch.granted k⟩ : ModKey) ≠ e.modKey := by
      intro hc
      have h1 := hcl.first.free
      have h2 : s.tree.slotId r' ch.granted k = s.currentRegionId :=
        (congrArg ModKey.region hc).trans (congrArg ModKey.region hkey)
      rw [h2] at h1
      cases hr.symm.trans h1
    refine ⟨_, _, _, _, .claims r' k (asksSlot_congr htree hasks) hcl, ?_, fun hn => absurd hret hn⟩
    rw [setErr_core, rekeyEntry_core, htree, hnext]
    have hcc := regionCreateChild_core m r' (s.tree.slotId r' ch.granted k) ch.granted
    have hhd := congrArg Core.modHd (hcc.trans (by rw [hm]))
    have hctxs := congrArg Core.ctxs (hcc.trans (by rw [hm]))
    have hindex := congrArg Core.modByRegionHd (hcc.trans (by rw [hm]))
    rw [setCurrentRegion_core, hcc, hm]
    refine Core.ext ?_ ?_ rfl rfl ?_ ?_ ?_ rfl rfl rfl rfl rfl rfl rfl rfl
    · exact congrArg (fun T : Tree => T.claim r' _ _) htree
    · refine (Function.update_idem _ _ _).trans (congrArg (Function.update _ _) (congrArg some ?_))
      rw [ModEntry.core_moved, hec, hkey]
      rfl
    · have h1 : (m.regionCreateChild r' (s.tree.slotId r' ch.granted k) ch.granted).modHd =
          s.modHd.insert ⟨E.moduleLoadPath l.fname, s.currentRegionId⟩ s.entryNext := hhd
      show AList.erase e.modKey (AList.insert _ _ (m.regionCreateChild r' _ _).modHd) = _
      rw [h1]
      rw [hkey] at hne ⊢
      exact insert_insert_erase hk hne
    · show rekeyIndex (m.regionCreateChild r' _ _).modByRegionHd _ _ _ = _
      have h1 : (m.regionCreateChild r' (s.tree.slotId r' ch.granted k) ch.granted).modByRegionHd =
          s.modByRegionHd ++ [(s.currentRegionId, s.entryNext)] := hindex
      rw [h1, hid]
      rfl
    · have h1 : (m.regionCreateChild r' (s.tree.slotId r' ch.granted k) ch.granted).ctxs =
          withCtx s.ctxs (s.modLoadCtx E l.im) fun x =>
            { x with modulePath := .str l.fname, regionId := s.currentRegionId } := hctxs
      refine (congrArg (fun ctxs => withCtx ctxs e.ctx fun x =>
        { x with regionId := s.tree.slotId r' ch.granted k }) h1).trans ?_
      rw [hctx]
      exact withCtx_withCtx _ _ _ _

/-- Counting, the state block and the list: what the entry gains before `xy_install`. -/
theorem modLoadEnlist_core {tx : LoadTxn} {e : ModEntry} {r : RegionPtr}
    (he : s.entries tx.entry = some e) (hr : s.regionHd e.regionId = some r)
    (h : s.modLoadEnlist E tx = .ok t) :
    t.core = { s.core with
      entries := Function.update s.core.entries tx.entry (some { e.core with
        regionEntry := some r
        regionState := if 0 < E.regionStateSize tx.handle then some s.stateNext else e.regionState })
      modCount := s.modCount + 1
      stateNext := if 0 < E.regionStateSize tx.handle then s.stateNext + 1 else s.stateNext } := by
  simp only [modLoadEnlist, Res.bind_ok] at h
  obtain ⟨m1, h1, m2, h2, h3⟩ := h
  have hst : ∃ e1, m1.entries tx.entry = some e1 ∧ e1.regionId = e.regionId ∧ m1.core = { s.core with
      entries := Function.update s.core.entries tx.entry (some e1.core)
      modCount := s.modCount + 1
      stateNext := if 0 < E.regionStateSize tx.handle then s.stateNext + 1 else s.stateNext } ∧
      e1 = { e with regionState :=
        if 0 < E.regionStateSize tx.handle then some s.stateNext else e.regionState } := by
    unfold modLoadAllocState at h1
    split at h1
    · rename_i hpos
      simp only [Res.bind_ok, Except.ok.injEq] at h1
      obtain ⟨m, hm, rfl⟩ := h1
      obtain ⟨e', he', rfl⟩ := store_ok.mp hm
      cases he.symm.trans he'
      refine ⟨{ e with regionState := some s.stateNext }, by simp [setEntry], rfl, ?_, by simp [hpos]⟩
      have h2 := congrArg Core.entries
        (setEntry_core s tx.entry (some { e with regionState := some s.stateNext }))
      rw [if_pos hpos]
      exact Core.ext rfl h2 rfl rfl rfl rfl rfl rfl rfl rfl rfl rfl rfl rfl rfl
    · rename_i hpos
      cases h1
      refine ⟨e, he, rfl, ?_, by simp [hpos]⟩
      rw [if_neg hpos]
      refine Core.ext rfl
        (Function.update_eq_self_iff.mpr ?_).symm rfl rfl rfl rfl rfl rfl rfl rfl rfl rfl
        rfl rfl rfl
      show _ = (s.entries tx.entry).map ModEntry.core
      rw [he]
      rfl
  obtain ⟨e1, he1, hid1, hc1, rfl⟩ := hst
  have hr1 : m1.regionHd e.regionId = some r :=
    (congrFun (congrArg (fun c => c.tree.hd) hc1) _).trans hr
  simp only [modLoadAppend, Res.bind_ok, deref_ok] at h2
  obtain ⟨e2, he2, h2⟩ := h2
  cases he1.symm.trans he2
  simp only [regionLookup, hr1] at h2
  obtain ⟨e3, he3, hc2⟩ := moduleRegionInsertAfter_core h2
  cases he1.symm.trans he3
  rw [store_core_same h3 fun e => ModEntry.fnCachePrewarm_core E _ e, hc2, setEntry_core, hc1]
  refine Core.ext rfl ?_ rfl rfl rfl rfl rfl rfl rfl rfl rfl rfl rfl rfl rfl
  exact Function.update_idem _ _ _

/-- Rolling back drops the entry, one pair of its region, and its context's path. -/
theorem modLoadAbort_core {tx : LoadTxn} {e : ModEntry} (he : s.entries tx.entry = some e)
    (h : s.modLoadAbort E tx = .ok t) :
    t.core = { s.core with
      entries := Function.update s.core.entries tx.entry none
      modByRegionHd := E.qmapDel s.modByRegionHd e.regionId
      modHd := s.modHd.erase e.modKey
      ctxs := withCtx s.ctxs e.ctx fun x => { x with modulePath := .freed }
      currentRegionId := tx.regionId
      currentRegionEntry := tx.prevRegionEntry } := by
  simp only [modLoadAbort, Res.bind_ok, deref_ok, Except.ok.injEq] at h
  obtain ⟨e', he', m, hm, rfl⟩ := h
  cases he.symm.trans he'
  have hc := (modLoadUnlist_core hm).trans (moduleCleanupRegionState_core E _ e)
  have hfree : ∀ (v : Runtime) (c : Option CtxPtr), (v.freeStableFname c).core =
      { v.core with ctxs := withCtx v.ctxs c fun x => { x with modulePath := .freed } } := by
    intro v c
    cases c <;> rfl
  rw [dlclose_core, hfree, unlinkTmp_core, setEntry_core]
  have h1 : ∀ {γ : Type} (g : Core → γ), g m.core = g (s.modLoadRestoreContext tx).core :=
    fun g => congrArg g hc
  refine Core.ext (h1 Core.tree) ?_ (h1 Core.entryNext) (h1 Core.addr) ?_ ?_ ?_ (h1 Core.pendingCtx)
    (h1 Core.modCount) (h1 Core.stateNext) (h1 Core.currentRegionId) (h1 Core.currentRegionEntry)
    (h1 Core.loadingMod) (h1 Core.reloading) (h1 Core.hooks)
  · exact congrArg (Function.update · tx.entry none) (h1 Core.entries)
  · exact congrArg (AList.erase e.modKey) (h1 Core.modHd)
  · exact congrArg (E.qmapDel · e.regionId) (h1 Core.modByRegionHd)
  · have h3 : ∀ v : Runtime, (v.unlinkTmp e.tmpLoadPath).ctxs = v.ctxs := by
      intro v
      cases e.tmpLoadPath <;> rfl
    exact congrArg (fun ctxs => withCtx ctxs e.ctx fun x => { x with modulePath := .freed })
      ((h3 _).trans (h1 Core.ctxs))

/-- Rolling back a load restores all but the counters, the index and the context. -/
theorem modLoadAbort_rolled {l : Loading} {tx : LoadTxn} {m : Runtime} {id : RegionId} {T : Tree}
    {index : RegionIndex} {counted : Bool} {e : ModEntry}
    (htx : tx = ⟨l.fname, s.entryNext, l.im, s.currentRegionId, s.currentRegionEntry⟩)
    (hk : s.modHd.lookup ⟨E.moduleLoadPath l.fname, id⟩ = none)
    (he : m.entries s.entryNext = some e) (hid : e.regionId = id)
    (hkey : e.modKey = ⟨E.moduleLoadPath l.fname, id⟩) (hctx : e.ctx = s.modLoadCtx E l.im)
    (hm : { m.core with
      entries := s.core.entries, modHd := s.modHd, modByRegionHd := E.qmapDel m.modByRegionHd id
      currentRegionId := s.currentRegionId, currentRegionEntry := s.currentRegionEntry
      ctxs := withCtx m.ctxs (s.modLoadCtx E l.im) fun x => { x with modulePath := .freed } } =
      s.rolledCore E l id T index counted)
    (hents : Function.update m.core.entries s.entryNext none = s.core.entries)
    (hmods : m.modHd = s.modHd.insert (⟨E.moduleLoadPath l.fname, id⟩ : ModKey) s.entryNext)
    (h : m.modLoadAbort E tx = .ok t) : t.core = s.rolledCore E l id T index counted := by
  subst htx
  rw [modLoadAbort_core he h, ← hm, hid, hkey, hctx, hmods, erase_insert_self hk]
  exact Core.ext rfl hents rfl rfl rfl rfl rfl rfl rfl rfl rfl rfl rfl rfl rfl

inductive FreshWay (E : Env) (s : Runtime) (l : Loading) (ch : LoadChoice)
    (reload : Option ReloadFrame) (t : Runtime) : Outcome LoadFrame → Prop
  | refused (ret : Int) (hret : ret ≠ xyOk)
      (ht : t.core = s.rolledCore E l s.currentRegionId s.tree
        (s.modByRegionHd ++ [(s.currentRegionId, s.entryNext)]) false) :
      FreshWay E s l ch reload t (.done ret)
  | noInstall (hi : E.dlsym l.im "xy_install" = none) (id : RegionId) (r : RegionPtr) (T : Tree)
      (index : RegionIndex) (hp : Placed E s l.im ch id r T index)
      (ht : t.core = s.rolledCore E l id T index true) :
      FreshWay E s l ch reload t (.done xyErrNotFound)
  | installs (fn : Fn) (hi : E.dlsym l.im "xy_install" = some fn) (id : RegionId) (r : RegionPtr)
      (T : Tree) (index : RegionIndex) (hp : Placed E s l.im ch id r T index)
      (ht : t.core = s.loadedCore E l id r T index) :
      FreshWay E s l ch reload t (.wait ⟨s.entryNext, s.currentRegionId, s.currentRegionEntry,
        s.loadingMod, reload⟩)

theorem Placed.hd {l : Loading} {ch : LoadChoice} {id : RegionId} {r : RegionPtr} {T : Tree}
    {index : RegionIndex} (h : Placed E s l.im ch id r T index) : T.hd id = some r := by
  cases h with
  | stays r hr => exact hr
  | claims r k _ _ => exact Function.update_self _ _ _

theorem modLoadFresh_way {l : Loading} {ch : LoadChoice} {reload : Option ReloadFrame}
    {out : Outcome LoadFrame} (hok : s.tree.Ok)
    (hcur : (s.regionHd s.currentRegionId).isSome)
    (hk : s.modHd.lookup ⟨E.moduleLoadPath l.fname, s.currentRegionId⟩ = none)
    (hknown : ∀ k, s.modHd.lookup k ≠ none → s.regionHd k.region ≠ none)
    (hfresh : s.entries s.entryNext = none) (haddr : ch.addr = l.addr)
    (h : s.modLoadFresh E l.fname l.im l.tmp ch reload = .ok (t, out)) :
    FreshWay E s l ch reload t out := by
  obtain ⟨r0, hr0⟩ := Option.isSome_iff_exists.mp hcur
  simp only [modLoadFresh, Res.bind_ok, haddr] at h
  obtain ⟨s2, h2, ⟨s4, ret⟩, h4, h⟩ := h
  have c2 := modLoadBind_core hr0 rfl h2
  obtain ⟨id, r, T, index, hp, c4, hstay⟩ := modLoadClaim_core hok hr0 hk rfl c2 h4
  have hentry : (s4.entries s.entryNext).map ModEntry.core = some (s.loadedEntry
      (E.moduleLoadPath l.fname) l.im l.tmp (s.modLoadCtx E l.im) id) :=
    (congrFun (congrArg Core.entries c4) s.entryNext).trans (Function.update_self _ _ _)
  obtain ⟨e, he, hec⟩ := Option.map_eq_some_iff.mp hentry
  have hid : e.regionId = id := congrArg (fun e : ModEntry => e.regionId) hec
  have hkey : e.modKey = ⟨E.moduleLoadPath l.fname, id⟩ := congrArg (fun e : ModEntry => e.modKey) hec
  have hctx : e.ctx = s.modLoadCtx E l.im := congrArg (fun e : ModEntry => e.ctx) hec
  have hk' : s.modHd.lookup ⟨E.moduleLoadPath l.fname, id⟩ = none := by
    cases hp with
    | stays => exact hk
    | claims r k _ hcl =>
        by_contra hne
        exact hknown _ hne hcl.first.free
  have hback : ∀ v, Function.update (Function.update s.core.entries s.entryNext v) s.entryNext none =
      s.core.entries := by
    intro v
    rw [Function.update_idem]
    refine Function.update_eq_self_iff.mpr ?_
    show _ = (s.entries s.entryNext).map ModEntry.core
    rw [hfresh]
    rfl
  split at h
  · rename_i hret
    simp only [Res.bind_ok, Except.ok.injEq, Prod.mk.injEq] at h
    obtain ⟨s5, h5, rfl, rfl⟩ := h
    obtain ⟨rfl, rfl, rfl⟩ := hstay hret
    refine .refused ret hret (modLoadAbort_rolled rfl hk' he hid hkey hctx ?_ ?_ ?_ h5)
    · have hx : s4.ctxs = withCtx s.ctxs (s.modLoadCtx E l.im) fun x =>
          { x with modulePath := .str l.fname, regionId := s.currentRegionId } :=
        congrArg Core.ctxs c4
      rw [show s4.modByRegionHd = _ from congrArg Core.modByRegionHd c4, hx, c4, withCtx_withCtx]
      exact Core.ext rfl rfl rfl rfl rfl rfl rfl rfl rfl rfl rfl rfl rfl rfl rfl
    · rw [c4]
      exact hback _
    · exact congrArg Core.modHd c4
  · simp only [Res.bind_ok] at h
    obtain ⟨s5, h5, h⟩ := h
    have hr4 : s4.regionHd e.regionId = some r := by
      rw [hid]
      exact (congrFun (congrArg (fun c => c.tree.hd) c4) _).trans hp.hd
    have c5 := modLoadEnlist_core he hr4 h5
    have hcount : s4.modCount = s.modCount := congrArg Core.modCount c4
    have hstate : s4.stateNext = s.stateNext := congrArg Core.stateNext c4
    have c6 : s5.core = { s.loadedCore E l id r T index with loadingMod := s.loadingMod } := by
      rw [c5, hcount, hstate, c4, hec]
      refine Core.ext rfl ?_ rfl rfl rfl rfl rfl rfl rfl rfl rfl rfl rfl rfl rfl
      refine (Function.update_idem _ _ _).trans (congrArg (Function.update _ _) (congrArg some ?_))
      have hnone : e.regionState = none := congrArg (fun e : ModEntry => e.regionState) hec
      rw [hnone]
      rfl
    split at h
    · rename_i hi
      simp only [Res.bind_ok, Except.ok.injEq, Prod.mk.injEq] at h
      obtain ⟨s6, h6, rfl, rfl⟩ := h
      refine .noInstall hi id r T index hp ?_
      have hentry' : (s5.entries s.entryNext).map ModEntry.core = some
          { s.loadedEntry (E.moduleLoadPath l.fname) l.im l.tmp (s.modLoadCtx E l.im) id with
            regionEntry := some r, regionState := s.loadedState E l.im } :=
        (congrFun (congrArg Core.entries c6) s.entryNext).trans (Function.update_self _ _ _)
      obtain ⟨e', he', hec'⟩ := Option.map_eq_some_iff.mp hentry'
      refine modLoadAbort_rolled rfl hk' he' (congrArg (fun e : ModEntry => e.regionId) hec')
        (congrArg (fun e : ModEntry => e.modKey) hec') (congrArg (fun e : ModEntry => e.ctx) hec')
        ?_ ?_ (congrArg Core.modHd c6) h6
      · have hx : s5.ctxs = withCtx s.ctxs (s.modLoadCtx E l.im) fun x =>
            { x with modulePath := .str l.fname, regionId := id } := congrArg Core.ctxs c6
        rw [show s5.modByRegionHd = _ from congrArg Core.modByRegionHd c6, hx, c6, withCtx_withCtx]
        refine Core.ext rfl rfl rfl rfl rfl rfl rfl rfl rfl ?_ rfl rfl rfl rfl rfl
        simp [rolledCore, loadedCore]
      · rw [c6]
        exact hback _
    · rename_i fn hi
      simp only [Except.ok.injEq, Prod.mk.injEq] at h
      obtain ⟨rfl, rfl⟩ := h
      have hlm : s5.loadingMod = s.loadingMod := congrArg Core.loadingMod c6
      rw [hlm]
      refine .installs fn hi id r T index hp ?_
      exact congrArg (fun c : Core => { c with loadingMod := some s.entryNext }) c6

def loading (E : Env) (s : Runtime) (fname : String) (ch : LoadChoice) : Loading :=
  ⟨fname, (s.modLoadImage (E.moduleLoadPath fname) ch).1,
    (s.modLoadImage (E.moduleLoadPath fname) ch).2, ch.addr⟩

/-- What a load does to the core. -/
inductive LoadEffect (E : Env) (s : Runtime) (fname : String) (ch : LoadChoice)
    (reload : Option ReloadFrame) (t : Runtime) : Outcome LoadFrame → Prop
  | same (ret : Int) (hret : ret ≠ xyOk) (ht : t.core = s.core) :
      LoadEffect E s fname ch reload t (.done ret)
  | reuse (p : EntryPtr) (e : ModEntry) (hl : s.moduleLookup E fname s.currentRegionId = some p)
      (he : s.entries p = some e)
      (ht : t.core = (s.setEntry p (some { e with refcount := e.refcount + 1 })).core) :
      LoadEffect E s fname ch reload t (.done xyOk)
  | fresh (out : Outcome LoadFrame) (hl : s.moduleLookup E fname s.currentRegionId = none)
      (hmem : ch.noMem = false) (him : ∃ im, E.dlopen (s.loading E fname ch).im = some im)
      (ha : ∀ k p, s.modHd.lookup k = some p → s.addr p ≠ ch.addr)
      (hf : FreshWay E s (s.loading E fname ch) ch reload t out) :
      LoadEffect E s fname ch reload t out

theorem known_of_wf {L : RegionPtr → List EntryPtr} (hw : WF s none L) {k : ModKey}
    (hk : s.modHd.lookup k ≠ none) : s.regionHd k.region ≠ none := by
  obtain ⟨p, hp⟩ := Option.ne_none_iff_exists'.mp hk
  obtain ⟨e, he, rfl⟩ := hw.table k p hp
  rw [(hw.key p e he).1]
  exact Option.isSome_iff_ne_none.mp (hw.region p e he)

theorem modLoad_effect {L : RegionPtr → List EntryPtr} (hw : WF s none L)
    (hcur : (s.regionHd s.currentRegionId).isSome) {fname : String} {ch : LoadChoice}
    {reload : Option ReloadFrame} {out : Outcome LoadFrame}
    (h : s.modLoad E fname ch reload = .ok (t, out)) : LoadEffect E s fname ch reload t out := by
  cases modLoad_way h with
  | noImage refs copy files bad err ht hout =>
      obtain ⟨ret, hret, rfl⟩ := hout
      exact .same ret hret (by rw [ht]; rfl)
  | reuse refs copy files bad p e hl he ht hout =>
      rw [hout]
      exact .reuse p e hl he (by rw [ht]; rfl)
  | fresh refs copy files bad hl hmem him ha hf =>
      refine .fresh out hl hmem him ha ?_
      have hw' : FreshWay E
          { s with dlRefs := refs, copyNext := copy, tmpFiles := files, badReleases := bad }
          (s.loading E fname ch) ch reload t out :=
        modLoadFresh_way (l := s.loading E fname ch) hw.tree hcur hl
          (fun k hk => known_of_wf hw hk) (hw.fresh _ le_rfl) rfl hf
      have hplaced : ∀ {id r T index},
        Placed E { s with dlRefs := refs, copyNext := copy, tmpFiles := files, badReleases := bad }
          (s.loading E fname ch).im ch id r T index →
          Placed E s (s.loading E fname ch).im ch id r T index := by
        intro id r T index hp
        cases hp with
        | stays r hr => exact .stays r hr
        | claims r k hasks hk =>
            exact .claims r k ⟨hasks.region, hasks.width, hasks.handler, hasks.accepted,
              hasks.granted_pos, hasks.granted_le⟩ hk
      cases hw' with
      | refused ret hret ht => exact .refused ret hret ht
      | noInstall hi id r T index hp ht => exact .noInstall hi id r T index (hplaced hp) ht
      | installs fn hi id r T index hp ht => exact .installs fn hi id r T index (hplaced hp) ht

theorem LoadEffect.of_core {fname : String} {ch : LoadChoice} {reload : Option ReloadFrame}
    {out : Outcome LoadFrame} {n : Runtime} (h : LoadEffect E s fname ch reload t out)
    (hc : n.core = t.core) : LoadEffect E s fname ch reload n out := by
  cases h with
  | same ret hret ht => exact .same ret hret (hc.trans ht)
  | reuse p e hl he ht => exact .reuse p e hl he (hc.trans ht)
  | fresh out hl hmem him ha hf =>
      refine .fresh out hl hmem him ha ?_
      cases hf with
      | refused ret hret ht => exact .refused ret hret (hc.trans ht)
      | noInstall hi id r T index hp ht => exact .noInstall hi id r T index hp (hc.trans ht)
      | installs fn hi id r T index hp ht => exact .installs fn hi id r T index hp (hc.trans ht)

end Runtime
end Xylem

import Xylem.Heap.Unloaded

/-!
# The cascade of an unload

Entries form a forest by their `parent_entry` links. While no link dangles, an
unload that meets only entries it can find again by the path their context holds
takes away exactly the subtree of the entry it is asked for.
-/
namespace Xylem
namespace Runtime
open Forest

variable {s t u : Runtime} {E : Env}

/-- The entry that was being installed when this one was loaded. -/
def loader (s : Runtime) (c : EntryPtr) : Option EntryPtr := (s.entries c).bind (·.parentEntry)

theorem loader_core (s : Runtime) (c : EntryPtr) :
    s.loader c = (s.core.entries c).bind (·.parentEntry) := by
  show _ = ((s.entries c).map ModEntry.core).bind (·.parentEntry)
  unfold loader
  cases s.entries c <;> rfl

theorem loader_congr {c : EntryPtr} (h : t.core.entries c = s.core.entries c) :
    t.loader c = s.loader c := by
  rw [loader_core, h, loader_core]

theorem live_of_loader {c p : EntryPtr} (h : s.loader c = some p) : ∃ e, s.entries c = some e ∧
    e.parentEntry = some p := by
  obtain ⟨e, he, hp⟩ := Option.bind_eq_some_iff.mp h
  exact ⟨e, he, hp⟩

/-- Every `parent_entry` link names an older entry that is live. -/
structure Links (s : Runtime) : Prop where
  live : ∀ c p, s.loader c = some p → s.entries p ≠ none
  older : ∀ c p, s.loader c = some p → p < c

structure Parented (s : Runtime) : Prop extends Links s where
  wf : ∃ L, WF s none L

theorem Parented.ranked (h : Parented s) : Ranked s.loader id := h.older

theorem Links.of_entries (h : Links s) (he : t.core.entries = s.core.entries) : Links t := by
  have hl : t.loader = s.loader := funext fun c => loader_congr (congrFun he c)
  refine ⟨fun c p hcp => ?_, fun c p hcp => h.older c p (hl ▸ hcp)⟩
  have hp : (t.entries p).map ModEntry.core = (s.entries p).map ModEntry.core := congrFun he p
  intro hnone
  rw [hnone] at hp
  exact h.live c p (hl ▸ hcp) (Option.map_eq_none_iff.mp hp.symm)

/-- The cascade finds this entry again by the path its context holds, and holds
its only reference. -/
def Removable (E : Env) (s : Runtime) (c : EntryPtr) : Prop :=
  ∃ e x path, s.entries c = some e ∧ e.refcount ≤ 1 ∧ e.ctx = some x ∧
    (s.ctxs x).modulePath = .str path ∧ E.moduleLoadPath path = e.loadPath

/-- What an unload of `p` can take away, it does. -/
def Unloadable (E : Env) (s : Runtime) (fname : String) (region : RegionId) : Prop :=
  ∀ p e, s.moduleLookup E fname region = some p → s.entries p = some e → e.refcount ≤ 1 →
    ∀ c, Anc s.loader p c → c ≠ p → Removable E s c

/-- `t` is `s` without the entries in `gone`. -/
structure Pruned (s t : Runtime) (gone : EntryPtr → Prop) : Prop where
  dead : ∀ q, gone q → t.entries q = none
  kept : ∀ q, ¬ gone q → t.core.entries q = s.core.entries q
  ctxs : t.ctxs = s.ctxs
  addr : t.addr = s.addr
  next : t.entryNext = s.entryNext

theorem Pruned.refl (s : Runtime) {gone : EntryPtr → Prop} (h : ∀ q, ¬ gone q) : Pruned s s gone :=
  ⟨fun q hq => absurd hq (h q), fun _ _ => rfl, rfl, rfl, rfl⟩

theorem Pruned.trans {gone gone' both : EntryPtr → Prop} (h : Pruned s t gone)
    (k : Pruned t u gone') (hb : ∀ q, both q ↔ gone q ∨ gone' q) : Pruned s u both := by
  have hdead : ∀ q, gone q → ¬ gone' q → u.entries q = none := by
    intro q hq hq'
    have h1 : (u.entries q).map ModEntry.core = (t.entries q).map ModEntry.core := k.kept q hq'
    rw [h.dead q hq] at h1
    exact Option.map_eq_none_iff.mp h1
  refine ⟨fun q hq => ?_, fun q hq => ?_, k.ctxs.trans h.ctxs, k.addr.trans h.addr,
    k.next.trans h.next⟩
  · by_cases hq' : gone' q
    · exact k.dead q hq'
    · exact hdead q (((hb q).mp hq).resolve_right hq') hq'
  · rw [hb, not_or] at hq
    exact (k.kept q hq.2).trans (h.kept q hq.1)

theorem Parented.pruned {gone : EntryPtr → Prop} (h : Parented s) (k : Pruned s t gone)
    (hw : ∃ L, WF t none L)
    (down : ∀ c p, s.loader c = some p → gone p → gone c) : Parented t := by
  have same : ∀ c p, t.loader c = some p → ¬ gone c ∧ s.loader c = some p := by
    intro c p hcp
    have hng : ¬ gone c := by
      intro hg
      rw [loader, k.dead c hg] at hcp
      cases hcp
    exact ⟨hng, (loader_congr (k.kept c hng)).symm.trans hcp⟩
  refine ⟨⟨fun c p hcp => ?_, fun c p hcp => h.older c p (same c p hcp).2⟩, hw⟩
  obtain ⟨hng, hs⟩ := same c p hcp
  have hp : (t.entries p).map ModEntry.core = (s.entries p).map ModEntry.core :=
    k.kept p fun hg => hng (down c p hs hg)
  intro hnone
  rw [hnone] at hp
  exact h.live c p hs (Option.map_eq_none_iff.mp hp.symm)

/-- The children that the cascade collects by address are those the entry loaded. -/
theorem mem_childrenOf (h : Parented s) {p c : EntryPtr} (hp : s.entries p ≠ none) :
    c ∈ s.childrenOf E p ↔ s.loader c = some p := by
  obtain ⟨L, hw⟩ := h.wf
  simp only [childrenOf, modEntries, List.mem_filter, (E.iterOrder_perm _).mem_iff]
  constructor
  · rintro ⟨-, hc⟩
    split at hc
    · rename_i e he
      simp only [Bool.and_eq_true, decide_eq_true_eq] at hc
      obtain ⟨-, hc⟩ := hc
      split at hc
      · rename_i q hq
        have hl : s.loader c = some q := by
          rw [loader, he]
          exact hq
        rw [hl, hw.addrs q p (h.live c q hl) hp (of_decide_eq_true hc)]
      · cases hc
    · cases hc
  · intro hl
    obtain ⟨e, he, hpar⟩ := live_of_loader hl
    have hkey := AList.mem_lookup_iff.mp (hw.key c e he).2
    refine ⟨List.mem_map.mpr ⟨_, hkey, rfl⟩, ?_⟩
    simp only [he, hpar, decide_true, Bool.and_true, decide_eq_true_eq]
    exact (h.older c p hl).ne'

theorem modUnloadEntry_total {L : RegionPtr → List EntryPtr} (hw : WF s none L) {p : EntryPtr}
    {e : ModEntry} (he : s.entries p = some e) : ∃ t, s.modUnloadEntry E p = .ok t := by
  have hdetach : ∀ {u : Runtime} {L : RegionPtr → List EntryPtr}, WF u none L →
      u.entries p = some e → ∃ t f, u.moduleRegionDetach p = .ok t ∧ t.entries p = some f := by
    intro u L hu hp
    obtain ⟨r, hr⟩ := hu.listed p (by rw [hp]; simp) (by simp)
    obtain ⟨a, b, hab⟩ := List.append_of_mem hr
    obtain ⟨m, hm, -⟩ := hu.moduleRegionDetach_spec hab
    obtain ⟨f, hf, -⟩ := entries_of_core (moduleRegionDetach_core hm) hp
    exact ⟨_, f, hm, hf⟩
  have h1 : Prims E (fun _ _ => True) (s, .none) _ :=
    (moduleClearFnCacheForHandle_straight s p e.handle .none).prims
  have he1 := (moduleClearFnCacheForHandle_self (E := E) s p e.handle).trans he
  obtain ⟨L1, hw1⟩ := WF.prims (x := .none) (y := .none) hw h1
  have free : ∀ {u : Runtime} {f : ModEntry}, u.entries p = some f → ∃ v, moduleFreeEntry E
      { u with
        modByRegionHd := E.qmapDel u.modByRegionHd e.regionId
        modHd := u.modHd.erase e.modKey
        modCount := u.modCount - 1 } p = .ok v :=
    fun hf => ⟨_, Res.bind_ok.mpr ⟨_, deref_ok.mpr hf, rfl⟩⟩
  simp only [modUnloadEntry, Res.bind_ok, deref_ok]
  cases hre : e.regionEntry with
  | none =>
      obtain ⟨t, f, ht, hf⟩ := hdetach hw1 he1
      obtain ⟨v, hv⟩ := free hf
      refine ⟨v, e, he, ?_⟩
      simp only [hre]
      exact ⟨t, ht, hv⟩
  | some r =>
      have he2 : ((s.moduleClearFnCacheForHandle E p e.handle).moduleRemoveDenies r
        e.loadPath).entries p =
          some e := by
        rw [moduleRemoveDenies_entries]
        exact he1
      obtain ⟨t, f, ht, hf⟩ := hdetach (hw1.removeDenies r e.loadPath) he2
      obtain ⟨v, hv⟩ := free hf
      refine ⟨v, e, he, ?_⟩
      simp only [hre]
      exact ⟨t, ht, hv⟩

theorem modUnloadEntry_pruned {p : EntryPtr} (h : s.modUnloadEntry E p = .ok t) :
    Pruned s t (· = p) := by
  obtain ⟨e, he, -⟩ := Res.bind_ok.mp h
  have hc := modUnloadEntry_core (deref_ok.mp he) h
  have hents : t.core.entries = Function.update s.core.entries p none := congrArg Core.entries hc
  refine ⟨fun q hq => ?_, fun q hq => ?_, congrArg Core.ctxs hc, congrArg Core.addr hc,
    congrArg Core.entryNext hc⟩
  · have h1 : (t.entries q).map ModEntry.core = none := by
      rw [hq]
      exact (congrFun hents p).trans (Function.update_self _ _ _)
    exact Option.map_eq_none_iff.mp h1
  · rw [hents, Function.update_of_ne hq]

/-- What an unload with this much fuel does to an entry and those it loaded. -/
def CascadeSpec (E : Env) (n : Nat) : Prop :=
  ∀ {s : Runtime} {fname : String} {region : RegionId} {p : EntryPtr} {e : ModEntry}, Parented s →
    s.moduleLookup E fname region = some p → s.entries p = some e → e.refcount ≤ 1 →
    (∀ c, Anc s.loader p c → c ≠ p → Removable E s c) → s.entryNext - p ≤ n →
    ∃ t, s.modUnload E n fname region = .ok (t, xyOk) ∧ Pruned s t (Anc s.loader p)

theorem modUnloadChild_pruned {n : Nat} (spec : CascadeSpec E n) (hs : Parented s) {c : EntryPtr}
    (hr : ∀ q, Anc s.loader c q → Removable E s q) (hn : s.entryNext - c ≤ n) :
    ∃ t, modUnloadChild (modUnload E n) s c = .ok t ∧ Pruned s t (Anc s.loader c) := by
  obtain ⟨L, hw⟩ := hs.wf
  obtain ⟨e, x, path, he, hone, hx, hpath, hload⟩ := hr c (.refl c)
  have hlook : s.moduleLookup E path e.regionId = some c := by
    rw [moduleLookup, hload, ← (hw.key c e he).1]
    exact (hw.key c e he).2
  obtain ⟨t, ht, hp⟩ := spec hs hlook he hone (fun q hq _ => hr q hq) hn
  refine ⟨t, ?_, hp⟩
  simp only [modUnloadChild, Res.bind_ok, deref_ok]
  refine ⟨e, he, ?_⟩
  simp only [hx, hpath, ht]
  rfl

theorem Removable.of_core {c : EntryPtr} (h : Removable E s c)
    (hc : t.core.entries c = s.core.entries c) (hx : t.ctxs = s.ctxs) : Removable E t c := by
  obtain ⟨e, x, path, he, h1, h2, h3, h4⟩ := h
  have hm : (t.entries c).map ModEntry.core = (s.entries c).map ModEntry.core := hc
  rw [he] at hm
  obtain ⟨e', he', hce⟩ := Option.map_eq_some_iff.mp hm
  have r1 : e'.refcount = e.refcount := (congrArg ModEntry.refcount hce : _)
  have r2 : e'.ctx = e.ctx := (congrArg ModEntry.ctx hce : _)
  have r3 : e'.loadPath = e.loadPath := (congrArg ModEntry.loadPath hce : _)
  exact ⟨e', x, path, he', r1 ▸ h1, r2.trans h2, hx ▸ h3, h4.trans r3.symm⟩

theorem fuel_below {a b m n : Nat} (h : a < b) (hn : m - a ≤ n + 1) : m - b ≤ n := by omega

/-- The cascade over the children `l` of `p`, once it is through with `past`. -/
theorem cascade_pruned {n : Nat} (spec : CascadeSpec E n) (hs : Parented s) {p : EntryPtr}
    (hr : ∀ c, Anc s.loader p c → c ≠ p → Removable E s c) (hn : s.entryNext - p ≤ n + 1)
    {l past : List EntryPtr} (hl : ∀ c ∈ l, s.loader c = some p)
    (hpast : ∀ c ∈ past, s.loader c = some p) (hnd : (past ++ l).Nodup) (hu : Parented u)
    (hp : Pruned s u fun q => ∃ c ∈ past, Anc s.loader c q) :
    ∃ t, l.foldlM (modUnloadChild (modUnload E n)) u = .ok t ∧ Parented t ∧
      Pruned s t fun q => ∃ c ∈ past ++ l, Anc s.loader c q := by
  induction l generalizing past u with
  | nil =>
      refine ⟨u, rfl, hu, ?_⟩
      rw [List.append_nil]
      exact hp
  | cons c l ih =>
      have hc := hl c (by simp)
      have apart : ∀ q, Anc s.loader c q → ¬ ∃ c' ∈ past, Anc s.loader c' q := by
        rintro q hq ⟨c', hc', hq'⟩
        obtain rfl := siblings_apart hs.ranked hc (hpast c' hc') hq hq'
        exact (List.nodup_append.mp hnd).2.2 c hc' c (by simp) rfl
      have hlink : ∀ q, Anc s.loader c q → u.loader q = s.loader q :=
        fun q hq => loader_congr (hp.kept q (apart q hq))
      have hanc : ∀ q, Anc u.loader c q ↔ Anc s.loader c q := by
        intro q
        constructor
        · refine Anc.mono fun x y hxy => ?_
          refine (loader_congr (hp.kept x fun hg => ?_)).symm.trans hxy
          rw [loader, hp.dead x hg] at hxy
          cases hxy
        · exact Anc.keep fun y hy _ => hlink y hy
      have hrem : ∀ q, Anc u.loader c q → Removable E u q := by
        intro q hq
        have hq' := (hanc q).mp hq
        have hlt := (hs.older c p hc).trans_le (hq'.rank_le hs.ranked)
        exact (hr q ((Anc.link hc).trans hq') hlt.ne').of_core (hp.kept q (apart q hq')) hp.ctxs
      have hfuel : u.entryNext - c ≤ n := by
        rw [hp.next]
        exact fuel_below (hs.older c p hc) hn
      obtain ⟨t, ht, hpt⟩ := modUnloadChild_pruned spec hu hrem hfuel
      have hprims : Prims E (fun _ _ => True) (u, .none) (t, .none) := modUnloadChild_prims ht
      have hpt' : Pruned s t fun q => ∃ c' ∈ past ++ [c], Anc s.loader c' q := by
        refine hp.trans hpt fun q => ?_
        simp only [List.mem_append, List.mem_singleton, hanc]
        constructor
        · rintro ⟨c', h | rfl, hq⟩
          · exact .inl ⟨c', h, hq⟩
          · exact .inr hq
        · rintro (⟨c', h, hq⟩ | hq)
          · exact ⟨c', .inl h, hq⟩
          · exact ⟨c, .inr rfl, hq⟩
      obtain ⟨L, hwu⟩ := hu.wf
      have ht' : Parented t := hu.pruned hpt (WF.prims (x := .none) (y := .none) hwu hprims)
        fun a b hab hb => hb.of_parent hab
      have hnew : ∀ c' ∈ past ++ [c], s.loader c' = some p := by
        intro c' h
        rcases List.mem_append.mp h with h | h
        · exact hpast c' h
        · rw [List.mem_singleton.mp h]
          exact hc
      have hnd' : (past ++ [c] ++ l).Nodup := by simpa using hnd
      obtain ⟨v, hv, hpv, hall⟩ :=
        ih (fun c' h => hl c' (List.mem_cons_of_mem c h)) hnew hnd' ht' hpt'
      refine ⟨v, ?_, hpv, by simpa using hall⟩
      rw [List.foldlM_cons]
      exact Res.bind_ok.mpr ⟨t, ht, hv⟩

theorem setRefcount_entries (s : Runtime) (p : EntryPtr) (e : ModEntry) (n : Int) (q : EntryPtr) :
    (s.setEntry p (some { e with refcount := n })).entries q =
      if q = p then some { e with refcount := n } else s.entries q := by
  simp [setEntry, Function.update_apply]

theorem setRefcount_loader {p : EntryPtr} {e : ModEntry} (he : s.entries p = some e) (n : Int) :
    (s.setEntry p (some { e with refcount := n })).loader = s.loader := by
  funext c
  simp only [loader, setRefcount_entries]
  split
  · rename_i hc
    rw [hc, he]
    rfl
  · rfl

theorem Parented.setRefcount {p : EntryPtr} {e : ModEntry} (h : Parented s)
    (he : s.entries p = some e) (n : Int) : Parented (s.setEntry p (some { e with refcount := n })) := by
  obtain ⟨L, hw⟩ := h.wf
  refine ⟨⟨?_, ?_⟩, L, hw.setEntry_same he rfl rfl rfl⟩ <;> rw [setRefcount_loader he]
  · intro c q hcq
    rw [setRefcount_entries]
    split
    · simp
    · exact h.live c q hcq
  · exact h.older

/-- The state once the entry `e` at `p` has one reference less. -/
def release (s : Runtime) (p : EntryPtr) (e : ModEntry) : Runtime :=
  s.setEntry p (some { e with refcount := e.refcount - 1 })

theorem release_entries (s : Runtime) (p : EntryPtr) (e : ModEntry) (q : EntryPtr) :
    (s.release p e).entries q =
      if q = p then some { e with refcount := e.refcount - 1 } else s.entries q :=
  setRefcount_entries s p e _ q

theorem release_kept {p : EntryPtr} (e : ModEntry) {q : EntryPtr} (hq : q ≠ p) :
    (s.release p e).core.entries q = s.core.entries q := by
  show ((s.release p e).entries q).map ModEntry.core = _
  rw [release_entries, if_neg hq]
  rfl

theorem release_loader {p : EntryPtr} {e : ModEntry} (he : s.entries p = some e) :
    (s.release p e).loader = s.loader := setRefcount_loader he _

/-- Handing back the last reference: the children go, then the entry. -/
theorem modUnload_last {n : Nat} {fname : String} {region : RegionId} {p : EntryPtr} {e : ModEntry}
    (hl : s.moduleLookup E fname region = some p) (he : s.entries p = some e)
    (hone : e.refcount ≤ 1) : s.modUnload E (n + 1) fname region = (do
      let t ← ((s.release p e).childrenOf E p).foldlM (modUnloadChild (modUnload E n)) (s.release p e)
      let t ← t.modUnloadEntry E p
      .ok (t, xyOk)) := by
  simp only [modUnload, hl, deref_ok.mpr he]
  exact if_neg (not_lt.mpr (Int.sub_nonpos_of_le hone))

theorem childrenOf_nodup {L : RegionPtr → List EntryPtr} (hw : WF s none L) (p : EntryPtr) :
    (s.childrenOf E p).Nodup :=
  (hw.modEntries_nodup E).filter _

theorem modUnload_cascade (E : Env) (n : Nat) : CascadeSpec E n := by
  induction n with
  | zero =>
      intro s fname region p e hs _ he _ _ hn
      obtain ⟨L, hw⟩ := hs.wf
      exact absurd (Nat.sub_pos_of_lt (hw.lt_next he)) (not_lt.mpr hn)
  | succ n ih =>
      intro s fname region p e hs hlook he hone hr hn
      have h1 : Parented (s.release p e) := hs.setRefcount he (e.refcount - 1)
      obtain ⟨L, hw⟩ := h1.wf
      have hr1 : ∀ c, Anc (s.release p e).loader p c → c ≠ p → Removable E (s.release p e) c := by
        intro c hc hne
        rw [release_loader he] at hc
        exact (hr c hc hne).of_core (release_kept e hne) rfl
      have hp1 : (s.release p e).entries p ≠ none := by simp [release_entries]
      obtain ⟨u, hu, hup, hpr⟩ := cascade_pruned ih h1 hr1 hn
        (fun c hc => (mem_childrenOf h1 hp1).mp hc) (List.forall_mem_nil _)
        (childrenOf_nodup hw p) h1 (.refl _ (by simp))
      have hchild : ∀ q, (∃ c ∈ [] ++ (s.release p e).childrenOf E p, Anc (s.release p e).loader c q) ↔
          ∃ c, s.loader c = some p ∧ Anc s.loader c q := by
        intro q
        simp only [List.nil_append, mem_childrenOf h1 hp1, release_loader he]
      have hpu : ∃ f, u.entries p = some f := by
        have hnot : ¬ ∃ c, s.loader c = some p ∧ Anc s.loader c p := by
          rintro ⟨c, hc, hcp⟩
          exact absurd (hcp.rank_le hs.ranked) (not_le.mpr (hs.older c p hc))
        have hk : (u.entries p).map ModEntry.core = ((s.release p e).entries p).map ModEntry.core :=
          hpr.kept p fun hg => hnot ((hchild p).mp hg)
        refine Option.ne_none_iff_exists'.mp fun hnone => hp1 ?_
        rw [hnone] at hk
        exact Option.map_eq_none_iff.mp hk.symm
      obtain ⟨f, hf⟩ := hpu
      obtain ⟨L', hwu⟩ := hup.wf
      obtain ⟨t, ht⟩ := modUnloadEntry_total (E := E) hwu hf
      have hall : Pruned (s.release p e) t (Anc s.loader p) := by
        refine hpr.trans (modUnloadEntry_pruned ht) fun q => ?_
        rw [hchild]
        constructor
        · intro hq
          rcases hq.cases_child with rfl | hq
          · exact .inr rfl
          · exact .inl hq
        · rintro (⟨c, hc, hq⟩ | rfl)
          · exact (Anc.link hc).trans hq
          · exact .refl q
      refine ⟨t, ?_, hall.dead, fun q hq => ?_, hall.ctxs, hall.addr, hall.next⟩
      · rw [modUnload_last hlook he hone]
        exact Res.bind_ok.mpr ⟨u, hu, Res.bind_ok.mpr ⟨t, ht, rfl⟩⟩
      · have hne : q ≠ p := by
          rintro rfl
          exact hq (.refl q)
        exact (hall.kept q hq).trans (release_kept e hne)

/-- Fuel beyond what an unload needs changes nothing. -/
theorem modUnload_more {n m : Nat} {fname : String} {region : RegionId} {r : Runtime × Int}
    (h : s.modUnload E n fname region = .ok r) (hm : n ≤ m) :
    s.modUnload E m fname region = .ok r := by
  induction n generalizing s m fname region r with
  | zero => cases h
  | succ n ih =>
      obtain ⟨m, rfl⟩ : ∃ k, m = k + 1 := ⟨m - 1, by omega⟩
      have hnm : n ≤ m := Nat.le_of_succ_le_succ hm
      have hround : ∀ {a b : Runtime} {c : EntryPtr}, modUnloadChild (modUnload E n) a c = .ok b →
          modUnloadChild (modUnload E m) a c = .ok b := by
        intro a b c hab
        simp only [modUnloadChild, Res.bind_ok] at hab ⊢
        obtain ⟨child, hc, hab⟩ := hab
        refine ⟨child, hc, ?_⟩
        split at hab
        · exact hab
        · split at hab
          · exact hab
          · cases hab
          · obtain ⟨x, hx, rfl⟩ := Res.map_ok.mp hab
            exact Res.map_ok.mpr ⟨x, ih hx hnm, rfl⟩
      have hrounds : ∀ {l : List EntryPtr} {a b : Runtime},
          l.foldlM (modUnloadChild (modUnload E n)) a = .ok b →
          l.foldlM (modUnloadChild (modUnload E m)) a = .ok b := by
        intro l
        induction l with
        | nil => exact id
        | cons c l ihl =>
            intro a b hab
            rw [List.foldlM_cons] at hab ⊢
            obtain ⟨v, hv, hab⟩ := Res.bind_ok.mp hab
            exact Res.bind_ok.mpr ⟨v, hround hv, ihl hab⟩
      simp only [modUnload] at h ⊢
      cases hl : s.moduleLookup E fname region with
      | none =>
          simp only [hl] at h ⊢
          exact h
      | some p =>
          simp only [hl, Res.bind_ok] at h ⊢
          obtain ⟨e, he, h⟩ := h
          refine ⟨e, he, ?_⟩
          split at h
          · rename_i hpos
            rw [if_pos hpos]
            exact h
          · rename_i hpos
            rw [if_neg hpos]
            simp only [Res.bind_ok] at h ⊢
            obtain ⟨v, hv, w, hw, h⟩ := h
            exact ⟨v, hrounds hv, w, hw, h⟩

/-- An unload that can take away all it should, ends, and leaves no link dangling. -/
theorem Parented.unload (h : Parented s) {fname : String} {region : RegionId}
    (hu : Unloadable E s fname region) {n : Nat} {r : Runtime × Int}
    (hr : s.modUnload E n fname region = .ok r) : Parented r.1 := by
  obtain ⟨L, hw⟩ := h.wf
  cases hl : s.moduleLookup E fname region with
  | none =>
      cases n with
      | zero => cases hr
      | succ n =>
          simp only [modUnload, hl, Except.ok.injEq] at hr
          subst hr
          exact ⟨h.toLinks.of_entries rfl, L, hw.sameHeap (setErr_sameHeap _ _)⟩
  | some p =>
      obtain ⟨e, he, -⟩ := hw.table _ p hl
      by_cases hone : e.refcount ≤ 1
      · obtain ⟨t, ht, hp⟩ := modUnload_cascade E (max n (s.entryNext - p)) h hl he hone
          (hu p e hl he hone) (le_max_right _ _)
        cases (modUnload_more hr (le_max_left _ _)).symm.trans ht
        exact h.pruned hp (WF.prims (x := .none) (y := .none) hw
          (modUnload_prims (g := fun _ _ => True) n hr)) fun c q hcq hq => hq.of_parent hcq
      · cases n with
        | zero => cases hr
        | succ n =>
            simp only [modUnload, hl, deref_ok.mpr he] at hr
            have hpos : 0 < e.refcount - 1 := Int.sub_pos_of_lt (not_le.mp hone)
            have hr' : .ok (s.release p e, xyOk) = (.ok r : Res (Runtime × Int)) :=
              (if_pos hpos).symm.trans hr
            cases hr'
            exact h.setRefcount he (e.refcount - 1)

/-- Such an unload ends, and what it takes away was loaded by the entry it found,
directly or through others. -/
theorem Parented.unload_ends (h : Parented s) {fname : String} {region : RegionId}
    (hu : Unloadable E s fname region) {n : Nat} (hn : s.entryNext < n) :
    ∃ t ret, s.modUnload E n fname region = .ok (t, ret) ∧
      ∀ q, s.entries q ≠ none → t.entries q = none →
        ∃ p, s.moduleLookup E fname region = some p ∧ Anc s.loader p q := by
  obtain ⟨L, hw⟩ := h.wf
  obtain ⟨n, rfl⟩ : ∃ m, n = m + 1 := ⟨n - 1, (Nat.succ_pred_eq_of_pos (Nat.zero_lt_of_lt hn)).symm⟩
  cases hl : s.moduleLookup E fname region with
  | none =>
      exact ⟨s.setErr xyErrNotFound, xyErrNotFound, by simp only [modUnload, hl],
        fun q hq ht => absurd ht hq⟩
  | some p =>
      obtain ⟨e, he, -⟩ := hw.table _ p hl
      by_cases hone : e.refcount ≤ 1
      · obtain ⟨t, ht, hp⟩ := modUnload_cascade E (n + 1) h hl he hone (hu p e hl he hone)
          ((Nat.sub_le _ _).trans hn.le)
        refine ⟨t, _, ht, fun q hq htq => ⟨p, rfl, ?_⟩⟩
        by_contra hnot
        have hk : (t.entries q).map ModEntry.core = (s.entries q).map ModEntry.core := hp.kept q hnot
        rw [htq] at hk
        exact hq (Option.map_eq_none_iff.mp hk.symm)
      · have hpos : 0 < e.refcount - 1 := Int.sub_pos_of_lt (not_le.mp hone)
        refine ⟨s.release p e, xyOk, ?_, fun q hq htq => ?_⟩
        · simp only [modUnload, hl, deref_ok.mpr he]
          exact if_pos hpos
        · rw [release_entries] at htq
          split at htq
          · cases htq
          · exact absurd htq hq

end Runtime
end Xylem

import Xylem.Runs.Effect
import Xylem.Lib.Multi

/-!
# The by-region index

`mod_by_region_hd` is deleted from by region alone. It stays exact as long as a
region loses all of its modules or none, a load that is rolled back was alone in its
region, and a claim finds no more modules there than its scratch array holds.
-/
namespace Xylem

open Xylem.Runtime

namespace Runtime
variable {s t u v : Runtime} {E : Env}

def regionOf (s : Runtime) (p : EntryPtr) : Option RegionId := (s.entries p).map (·.regionId)

theorem regionOf_core (s : Runtime) (p : EntryPtr) :
    s.regionOf p = (s.core.entries p).map (·.regionId) := by
  simp only [regionOf, core, Option.map_map]
  rfl

theorem regionOf_congr (h : t.core.entries = s.core.entries) : t.regionOf = s.regionOf := by
  funext p
  rw [regionOf_core, h, regionOf_core]

theorem setRefcount_regionOf {p : EntryPtr} {e : ModEntry} (he : s.entries p = some e) (n : Int) :
    (s.setEntry p (some { e with refcount := n })).regionOf = s.regionOf := by
  funext q
  simp only [regionOf, setEntry, Function.update_apply]
  split
  · rename_i hq
    rw [hq, he]
    rfl
  · rfl

/-- The pairs of the index are `(e.region_id, e)` for the live entries `e`, each once. -/
structure IndexExact (s : Runtime) : Prop where
  nodup : s.modByRegionHd.Nodup
  mem : ∀ id p, (id, p) ∈ s.modByRegionHd ↔ s.regionOf p = some id

theorem IndexExact.congr (h : IndexExact s) (hr : t.regionOf = s.regionOf)
    (hi : t.modByRegionHd = s.modByRegionHd) : IndexExact t := by
  refine ⟨hi ▸ h.nodup, fun id p => ?_⟩
  rw [hi, hr]
  exact h.mem id p

theorem qmapDel_deletes (E : Env) (m : RegionIndex) (k : RegionId) :
    Multi.Deletes m (E.qmapDel m k) k :=
  ⟨E.qmapDel_sublist m k, E.qmapDel_other m k, E.qmapDel_drops m k⟩

/-- An unload that started with index `m` has come to `u`: no region has more pairs left
than entries, and a region that lost no entry has all of its pairs. -/
structure Draining (m : RegionIndex) (u : Runtime) : Prop where
  start : m.Nodup
  sub : u.modByRegionHd.Sublist m
  live : ∀ p id, u.regionOf p = some id → ∀ id', (id', p) ∈ m ↔ id' = id
  count : ∀ id, (Multi.pairs u.modByRegionHd id).length ≤
    ((Multi.pairs m id).filter fun x => (u.regionOf x.2).isSome).length
  kept : ∀ x ∈ m, (∀ y ∈ m, y.1 = x.1 → (u.regionOf y.2).isSome) → x ∈ u.modByRegionHd

theorem IndexExact.draining (h : IndexExact s) : Draining s.modByRegionHd s := by
  have hlive : ∀ x ∈ s.modByRegionHd, s.regionOf x.2 = some x.1 := fun x hx => (h.mem x.1 x.2).mp hx
  refine ⟨h.nodup, List.Sublist.refl _, fun p id hp id' => ?_, fun id => ?_, fun x hx _ => hx⟩
  · rw [h.mem, hp, Option.some.injEq, eq_comm]
  · rw [List.filter_eq_self.mpr]
    intro x hx
    rw [hlive x (Multi.mem_pairs.mp hx).1]
    rfl

theorem Draining.congr {m : RegionIndex} (h : Draining m u) (hr : v.regionOf = u.regionOf)
    (hi : v.modByRegionHd = u.modByRegionHd) : Draining m v := by
  refine ⟨h.start, hi ▸ h.sub, ?_, ?_, ?_⟩
  · rw [hr]
    exact h.live
  · rw [hr, hi]
    exact h.count
  · rw [hr, hi]
    exact h.kept

/-- One entry goes, and with it a pair of its region, not always its own. -/
theorem Draining.gone {m : RegionIndex} (h : Draining m u) {p : EntryPtr} {id : RegionId}
    (hp : u.regionOf p = some id) (hr : ∀ q, v.regionOf q = if q = p then none else u.regionOf q)
    (hi : v.modByRegionHd = E.qmapDel u.modByRegionHd id) : Draining m v := by
  have hdel := qmapDel_deletes E u.modByRegionHd id
  rw [← hi] at hdel
  have hmem : (id, p) ∈ m := (h.live p id hp id).mpr rfl
  have alive : ∀ q, (v.regionOf q).isSome → q ≠ p ∧ (u.regionOf q).isSome := by
    intro q hq
    rw [hr] at hq
    split at hq
    · cases hq
    · exact ⟨‹_›, hq⟩
  refine ⟨h.start, hdel.sublist.trans h.sub, fun q id' hq => ?_, fun id' => ?_, fun x hx hall => ?_⟩
  · rw [hr] at hq
    split at hq
    · cases hq
    · exact h.live q id' hq
  · by_cases hid : id' = id
    · subst hid
      have h1 := hdel.pairs_self (h.sub.nodup h.start)
      have h2 := h.count id'
      have h3 : (Multi.pairs m id').filter (fun x => (v.regionOf x.2).isSome) =
          ((Multi.pairs m id').filter fun x => (u.regionOf x.2).isSome).erase (id', p) := by
        have hnd : (Multi.pairs m id').Nodup := h.start.filter _
        rw [(hnd.filter _).erase_eq_filter, List.filter_filter]
        refine List.filter_congr fun x hx => ?_
        have hx1 := (Multi.mem_pairs.mp hx).2
        rw [hr]
        by_cases hxp : x.2 = p
        · have : x = (id', p) := Prod.ext hx1 hxp
          simp [this]
        · have : x ≠ (id', p) := fun hc => hxp (congrArg Prod.snd hc)
          simp [hxp, this]
      have h4 : (id', p) ∈ (Multi.pairs m id').filter fun x => (u.regionOf x.2).isSome :=
        List.mem_filter.mpr ⟨Multi.mem_pairs.mpr ⟨hmem, rfl⟩, by rw [hp]; rfl⟩
      rw [h3, List.length_erase_of_mem h4]
      omega
    · refine (hdel.pairs_le id').trans ((h.count id').trans (le_of_eq ?_))
      refine congrArg List.length (List.filter_congr fun x hx => ?_)
      obtain ⟨hxm, hx1⟩ := Multi.mem_pairs.mp hx
      have hne : x.2 ≠ p := by
        intro hc
        refine hid ?_
        rw [← hx1]
        exact (h.live p id hp x.1).mp (hc ▸ hxm)
      rw [hr, if_neg hne]
  · have hne : x.1 ≠ id := by
      intro hc
      exact (alive p (hall (id, p) hmem hc.symm)).1 rfl
    refine hdel.other x (h.kept x hx fun y hy hyx => (alive y.2 (hall y hy hyx)).2) hne

theorem modUnload_draining {m : RegionIndex} {fuel : Nat} {fname : String} {region : RegionId}
    {ret : Int} (h : Draining m s) (hu : s.modUnload E fuel fname region = .ok (t, ret)) :
    Draining m t := by
  refine modUnload_rel (fun a b => Draining m a → Draining m b) (fun _ => id)
    (fun _ _ _ h1 h2 h => h2 (h1 h)) ?_ ?_ ?_ fuel hu h
  · exact fun s h => h.congr rfl rfl
  · exact fun s p e he h => h.congr (setRefcount_regionOf he _) rfl
  · intro s t p ht h
    obtain ⟨e, he, -⟩ := Res.bind_ok.mp ht
    have he := deref_ok.mp he
    have hc := modUnloadEntry_core he ht
    refine h.gone (E := E) (p := p) ?_ ?_ (congrArg Core.modByRegionHd hc)
    · rw [regionOf, he]
      rfl
    · intro q
      have hents : t.core.entries = Function.update s.core.entries p none := congrArg Core.entries hc
      rw [regionOf_core, hents, Function.update_apply]
      split
      · rfl
      · exact (regionOf_core s q).symm

/-- Of each region, all modules are freed or none. -/
def FreesWholeRegions (s t : Runtime) : Prop :=
  ∀ p q id, s.regionOf p = some id → s.regionOf q = some id → t.regionOf p = none →
    t.regionOf q = none

theorem Unloaded.regionOf (h : Unloaded s t) {p : EntryPtr} {id : RegionId}
    (hp : t.regionOf p = some id) : s.regionOf p = some id := by
  obtain ⟨e', he', rfl⟩ := Option.map_eq_some_iff.mp hp
  obtain ⟨e, he, hc⟩ := h.entries p e' he'
  rw [Runtime.regionOf, he, Option.map_some]
  exact congrArg some (congrArg ModEntry.regionId hc : _).symm

theorem IndexExact.unload (h : IndexExact s) {fuel : Nat} {fname : String} {region : RegionId}
    {ret : Int} (hu : s.modUnload E fuel fname region = .ok (t, ret))
    (hf : FreesWholeRegions s t) : IndexExact t := by
  have hd := modUnload_draining h.draining hu
  have hun := modUnload_unloaded fuel hu
  refine ⟨hd.sub.nodup hd.start, fun id p => ⟨fun hm => ?_, fun hp => ?_⟩⟩
  · have hs : s.regionOf p = some id := (h.mem id p).mp (hd.sub.subset hm)
    cases hp : t.regionOf p with
    | some id' =>
        rw [← hun.regionOf hp]
        exact hs
    | none =>
        have hzero : ((Multi.pairs s.modByRegionHd id).filter fun x => (t.regionOf x.2).isSome) = [] := by
          refine List.filter_eq_nil_iff.mpr fun x hx => ?_
          obtain ⟨hxm, hx1⟩ := Multi.mem_pairs.mp hx
          have hxs : s.regionOf x.2 = some id := (h.mem id x.2).mp (hx1 ▸ hxm)
          rw [hf p x.2 id hs hxs hp]
          simp
        have hle := hd.count id
        rw [hzero, List.length_nil, Nat.le_zero, List.length_eq_zero_iff] at hle
        exact absurd rfl (Multi.pairs_nil_iff.mp hle (id, p) hm)
  · refine hd.kept (id, p) ((h.mem id p).mpr (hun.regionOf hp)) fun y hy hy1 => ?_
    have hy1 : y.1 = id := hy1
    have hys : s.regionOf y.2 = some id := (h.mem id y.2).mp (hy1 ▸ hy)
    cases hyt : t.regionOf y.2 with
    | some id' => rfl
    | none => rw [hf y.2 p id hys (hun.regionOf hp) hyt] at hp; cases hp

/-- Re-keying with room in the scratch array moves the new pair and keeps the others. -/
theorem rekeyIndex_append {m : RegionIndex} {n : EntryPtr} {R C : RegionId}
    (hn : ∀ x ∈ m, x.2 ≠ n) (hlen : (Multi.pairs m R).length ≤ 512) :
    rekeyIndex (m ++ [(R, n)]) n R C = (m.filter (fun x => x.1 ≠ R) ++ Multi.pairs m R) ++ [(C, n)] := by
  have h1 : (m ++ [(R, n)]).filter (fun x => decide (x.1 ≠ R)) = m.filter fun x => decide (x.1 ≠ R) := by
    simp
  have h2 : ((m ++ [(R, n)]).filter fun x => decide (x.1 = R ∧ x.2 ≠ n)) = Multi.pairs m R := by
    rw [List.filter_append, Multi.pairs]
    have hlast : ([(R, n)].filter fun x => decide (x.1 = R ∧ x.2 ≠ n)) = [] := by simp
    rw [hlast, List.append_nil]
    refine List.filter_congr fun x hx => ?_
    simp [hn x hx]
  rw [rekeyIndex, h1, h2, List.take_of_length_le hlen]

/-- A load that makes a fresh entry keeps the index exact, unless it is rolled back in a
region that has other modules or claims out of one that has too many. -/
theorem IndexExact.fresh {L : RegionPtr → List EntryPtr} (hw : WF s none L) (h : IndexExact s)
    {l : Loading} {ch : LoadChoice} {reload : Option ReloadFrame} {out : Outcome LoadFrame}
    (hf : FreshWay E s l ch reload t out)
    (h0 : t.regionOf s.entryNext = none → t.regionNext = s.regionNext →
      ∀ p, s.regionOf p ≠ some s.currentRegionId)
    (h512 : t.regionNext ≠ s.regionNext →
      (Multi.pairs s.modByRegionHd s.currentRegionId).length ≤ 512) : IndexExact t := by
  have hnew : s.regionOf s.entryNext = none := by
    rw [regionOf, hw.fresh _ le_rfl]
    rfl
  have hn : ∀ x ∈ s.modByRegionHd, x.2 ≠ s.entryNext := by
    intro x hx hc
    have hx' := (h.mem x.1 x.2).mp hx
    rw [hc, hnew] at hx'
    cases hx'
  -- the pairs of old entries, with one more for the new entry
  have added : ∀ {A : RegionIndex} {id : RegionId}, A.Nodup →
      (∀ x, x ∈ A ↔ x ∈ s.modByRegionHd) → t.modByRegionHd = A ++ [(id, s.entryNext)] →
      (∀ q, t.regionOf q = if q = s.entryNext then some id else s.regionOf q) → IndexExact t := by
    intro A id hA hmem hi hr
    refine ⟨?_, fun id' p => ?_⟩
    · rw [hi]
      refine List.Nodup.append hA (List.nodup_singleton _) ?_
      intro x hx hx'
      rw [List.mem_singleton.mp hx'] at hx
      exact hn _ ((hmem _).mp hx) rfl
    · rw [hi, hr, List.mem_append, hmem, List.mem_singleton, Prod.mk.injEq]
      by_cases hp : p = s.entryNext
      · rw [if_pos hp, hp, Option.some.injEq]
        constructor
        · rintro (hm | ⟨rfl, -⟩)
          · exact absurd rfl (hn _ hm)
          · rfl
        · exact fun hid => .inr ⟨hid.symm, rfl⟩
      · rw [if_neg hp]
        constructor
        · rintro (hm | ⟨-, hc⟩)
          · exact (h.mem id' p).mp hm
          · exact absurd hc hp
        · exact fun hid => .inl ((h.mem id' p).mpr hid)
  -- and without it, when that pair is the only one of its key
  have taken : ∀ {A : RegionIndex} {id : RegionId}, A.Nodup →
      (∀ x, x ∈ A ↔ x ∈ s.modByRegionHd) →
      t.modByRegionHd = E.qmapDel (A ++ [(id, s.entryNext)]) id →
      (∀ p, s.regionOf p ≠ some id) → t.core.entries = s.core.entries → IndexExact t := by
    intro A id hA hmem hi hid he
    have hdel := qmapDel_deletes E (A ++ [(id, s.entryNext)]) id
    have hx : ∀ z ∈ A, z.1 ≠ id := fun z hz hc =>
      hid z.2 ((h.mem id z.2).mp (hc ▸ (hmem z).mp hz))
    have hnd : (A ++ [(id, s.entryNext)]).Nodup := by
      refine List.Nodup.append hA (List.nodup_singleton _) ?_
      intro x hx hx'
      rw [List.mem_singleton.mp hx'] at hx
      exact hn _ ((hmem _).mp hx) rfl
    refine ⟨hi ▸ hdel.sublist.nodup hnd, fun id' p => ?_⟩
    rw [hi, regionOf_congr he, hdel.mem_of_last (x := (id, s.entryNext)) hA hx, hmem]
    exact h.mem id' p
  have rolled : ∀ {id T index b}, t.core = s.rolledCore E l id T index b →
      t.core.entries = s.core.entries ∧ t.modByRegionHd = E.qmapDel index id ∧
        t.regionNext = T.next ∧ t.regionOf s.entryNext = none := by
    intro id T index b ht
    have he : t.core.entries = s.core.entries := (congrArg Core.entries ht : _)
    refine ⟨he, (congrArg Core.modByRegionHd ht : _), congrArg (fun c => c.tree.next) ht, ?_⟩
    rw [regionOf_congr he, hnew]
  have loaded : ∀ {id r T index}, t.core = s.loadedCore E l id r T index →
      t.modByRegionHd = index ∧ t.regionNext = T.next ∧
        ∀ q, t.regionOf q = if q = s.entryNext then some id else s.regionOf q := by
    intro id r T index ht
    refine ⟨(congrArg Core.modByRegionHd ht : _), congrArg (fun c => c.tree.next) ht, fun q => ?_⟩
    have he : t.core.entries = Function.update s.core.entries s.entryNext _ :=
      (congrArg Core.entries ht : _)
    rw [regionOf_core, he, Function.update_apply]
    split
    · rfl
    · exact (regionOf_core s q).symm
  have claimed : ∀ {r k}, s.tree.Claims r ch.granted k →
      (∀ p, s.regionOf p ≠ some (s.tree.slotId r ch.granted k)) := by
    intro r k hk p hp
    obtain ⟨e, he, hid⟩ := Option.map_eq_some_iff.mp hp
    have h1 := hw.region p e he
    rw [show s.regionHd e.regionId = none from hid ▸ hk.first.free] at h1
    cases h1
  have split : (s.modByRegionHd.filter (fun x => x.1 ≠ s.currentRegionId) ++
      Multi.pairs s.modByRegionHd s.currentRegionId).Nodup ∧
      ∀ x, x ∈ s.modByRegionHd.filter (fun x => x.1 ≠ s.currentRegionId) ++
        Multi.pairs s.modByRegionHd s.currentRegionId ↔ x ∈ s.modByRegionHd := by
    refine ⟨List.Nodup.append (h.nodup.filter _) (h.nodup.filter _) ?_, fun x => ?_⟩
    · intro x hx hx'
      have h1 := (List.mem_filter.mp hx).2
      have h2 := (Multi.mem_pairs.mp hx').2
      simp [h2] at h1
    · rw [List.mem_append, List.mem_filter, Multi.mem_pairs]
      by_cases hx : x.1 = s.currentRegionId <;> simp [hx]
  have next : ∀ {r k}, (s.tree.claim r (s.tree.slotId r ch.granted k) ch.granted).next ≠ s.regionNext :=
    fun {r k} => (Nat.lt_succ_self s.regionNext).ne'
  cases hf with
  | refused ret hret ht =>
      obtain ⟨he, hi, hnx, hgone⟩ := rolled ht
      exact taken h.nodup (fun _ => Iff.rfl) hi (h0 hgone hnx) he
  | noInstall hi id r T index hp ht =>
      obtain ⟨he, hi, hnx, hgone⟩ := rolled ht
      cases hp with
      | stays r hr => exact taken h.nodup (fun _ => Iff.rfl) hi (h0 hgone hnx) he
      | claims r k hasks hk =>
          rw [rekeyIndex_append hn (h512 (by rw [hnx]; exact next))] at hi
          exact taken split.1 split.2 hi (claimed hk) he
  | installs fn hi id r T index hp ht =>
      obtain ⟨hi, hnx, hr⟩ := loaded ht
      cases hp with
      | stays r hr' => exact added h.nodup (fun _ => Iff.rfl) hi hr
      | claims r k hasks hk =>
          rw [rekeyIndex_append hn (h512 (by rw [hnx]; exact next))] at hi
          exact added split.1 split.2 hi hr

theorem regionOf_ne_of_nil {L : RegionPtr → List EntryPtr} (hw : WF s none L) {id : RegionId}
    {r : RegionPtr} (hr : s.regionHd id = some r) (hl : L r = []) (p : EntryPtr) :
    s.regionOf p ≠ some id := by
  intro hp
  obtain ⟨e, he, rfl⟩ := Option.map_eq_some_iff.mp hp
  obtain ⟨r', -, hr', hmem⟩ := hw.region_of he (by simp)
  cases hr.symm.trans hr'
  rw [hl] at hmem
  cases hmem

theorem IndexExact.pairs_length_le {L : RegionPtr → List EntryPtr} (hw : WF s none L)
    (h : IndexExact s) {id : RegionId} {r : RegionPtr} (hr : s.regionHd id = some r) :
    (Multi.pairs s.modByRegionHd id).length ≤ (L r).length := by
  have hnd : ((Multi.pairs s.modByRegionHd id).map (·.2)).Nodup := by
    refine List.Nodup.map_on (fun x hx y hy hxy => ?_) (h.nodup.filter _)
    exact Prod.ext ((Multi.mem_pairs.mp hx).2.trans (Multi.mem_pairs.mp hy).2.symm) hxy
  have hsub : (Multi.pairs s.modByRegionHd id).map (·.2) ⊆ L r := by
    intro p hp
    obtain ⟨x, hx, rfl⟩ := List.mem_map.mp hp
    obtain ⟨hxm, hx1⟩ := Multi.mem_pairs.mp hx
    obtain ⟨e, he, hid⟩ := Option.map_eq_some_iff.mp ((h.mem x.1 x.2).mp hxm)
    obtain ⟨r', -, hr', hmem⟩ := hw.region_of he (by simp)
    rw [hid, hx1, hr] at hr'
    cases hr'
    exact hmem
  simpa using (List.subperm_of_subset hnd hsub).length_le

theorem LoadEffect.regionOf_old {fname : String} {ch : LoadChoice} {reload : Option ReloadFrame}
    {out : Outcome LoadFrame} (h : LoadEffect E s fname ch reload t out) {q : EntryPtr}
    (hq : q ≠ s.entryNext) : t.regionOf q = s.regionOf q := by
  have same : t.core.entries = s.core.entries → t.regionOf q = s.regionOf q :=
    fun he => congrFun (regionOf_congr he) q
  cases h with
  | same ret hret ht => exact same (congrArg Core.entries ht)
  | reuse p e hl he ht =>
      rw [regionOf_congr (congrArg Core.entries ht), setRefcount_regionOf he]
  | fresh out hl hmem him ha hf =>
      cases hf with
      | refused ret hret ht => exact same (congrArg Core.entries ht : _)
      | noInstall hi id r T index hp ht => exact same (congrArg Core.entries ht : _)
      | installs fn hi id r T index hp ht =>
          have he : t.core.entries = Function.update s.core.entries s.entryNext _ :=
            (congrArg Core.entries ht : _)
          rw [regionOf_core, he, Function.update_of_ne hq]
          exact (regionOf_core s q).symm

end Runtime

/-- A load that makes an entry finds no other module in its region if it is refused, or
not asked for a claim and then found to have no `xy_install`; and at most 512 if it claims. -/
def LoadKeepsPairs (E : Env) (s : Runtime) (fname : String) (ch : LoadChoice) : Prop :=
  s.moduleLookup E fname s.currentRegionId = none → ch.noMem = false →
    (∃ im, E.dlopen (s.loading E fname ch).im = some im) →
    ∀ r l, s.regionLookup s.currentRegionId = some r → s.regionMods r = .ok l →
      (¬ ClaimPasses E s s.currentRegionId (s.loading E fname ch).im ch → l = []) ∧
      (AsksClaim E s s.currentRegionId (s.loading E fname ch).im → l.length ≤ 512) ∧
      (¬ AsksClaim E s s.currentRegionId (s.loading E fname ch).im →
        E.dlsym (s.loading E fname ch).im "xy_install" = none → l = [])

/-- A step that frees all modules of a region or none, and keeps the pairs of others when
it loads. -/
def KeepsPairs (E : Env) (s : State) (e : Event) (t : State) : Prop :=
  FreesWholeRegions s.rt t.rt ∧ ∀ fname ch, e = .load fname ch → LoadKeepsPairs E s.rt fname ch

section Steps
variable {E : Env} {s₀ s t : State} {tr : List (State × Event)}

theorem load_index {fname : String} {ch : LoadChoice} (hi : Inv E s)
    (h : step E s (.load fname ch) = .ok t) (hx : IndexExact s.rt)
    (hc : LoadKeepsPairs E s.rt fname ch) : IndexExact t.rt := by
  obtain ⟨L, hw⟩ := hi.wf
  obtain ⟨out, heff, -⟩ := step_load hi h
  cases heff with
  | same ret hret ht =>
      exact hx.congr (regionOf_congr (congrArg Core.entries ht)) (congrArg Core.modByRegionHd ht)
  | reuse p e hl he ht =>
      refine hx.congr ?_ (congrArg Core.modByRegionHd ht)
      rw [regionOf_congr (congrArg Core.entries ht), setRefcount_regionOf he]
  | fresh out hl hmem him hf =>
      obtain ⟨r, hr⟩ := Option.isSome_iff_exists.mp hi.current.id
      obtain ⟨c1, c2, c3⟩ := hc hl hmem him r (L r) hr (hw.regionMods r)
      have hempty := fun hl => regionOf_ne_of_nil hw hr hl
      have hlen := hx.pairs_length_le hw hr
      refine hx.fresh hw hf.way (fun hgone hnext => ?_) (fun hnext => ?_)
      · cases hf with
        | refused ret hret hgate ht => exact hempty (c1 hgate)
        | noInstall hgate hni id r' T index hp hasks ht =>
            refine hempty (c3 (fun ha => ?_) hni)
            have hT : t.rt.regionNext = T.next := congrArg (fun c => c.tree.next) ht
            exact absurd (hnext.symm.trans (hT.trans (hasks.mp ha))) (Nat.lt_succ_self _).ne
        | installs hgate fn hfn id r' T index hp hasks ht =>
            have he : t.rt.core.entries = Function.update s.rt.core.entries s.rt.entryNext _ :=
              (congrArg Core.entries ht : _)
            rw [regionOf_core, he, Function.update_self] at hgone
            cases hgone
      · have asks : ∀ {T : Tree}, t.rt.core.tree = T →
            (AsksClaim E s.rt s.rt.currentRegionId (s.rt.loading E fname ch).im ↔
              T.next = s.rt.regionNext + 1) →
            (T.next = s.rt.regionNext ∨ T.next = s.rt.regionNext + 1) →
            (Multi.pairs s.rt.modByRegionHd s.rt.currentRegionId).length ≤ 512 := by
          intro T hT hasks hn
          have hnT : t.rt.regionNext = T.next := congrArg Tree.next hT
          refine hlen.trans (c2 (hasks.mpr (hn.resolve_left fun h => hnext ?_)))
          exact hnT.trans h
        have placed : ∀ {id r' T index}, Placed E s.rt (s.rt.loading E fname ch).im ch id r' T index →
            T.next = s.rt.regionNext ∨ T.next = s.rt.regionNext + 1 := by
          intro id r' T index hp
          cases hp with
          | stays r hr => exact .inl rfl
          | claims r k ha hk => exact .inr rfl
        cases hf with
        | refused ret hret hgate ht =>
            exact absurd (congrArg (fun c => c.tree.next) ht : _) hnext
        | noInstall hgate hni id r' T index hp hasks ht =>
            exact asks (congrArg Core.tree ht) hasks (placed hp)
        | installs hgate fn hfn id r' T index hp hasks ht =>
            exact asks (congrArg Core.tree ht) hasks (placed hp)

theorem reload_empty {L : RegionPtr → List EntryPtr} {m n : Runtime} (hw : WF s.rt none L)
    {L' : RegionPtr → List EntryPtr} (hwm : WF m none L') {fname : String} {fuel : Nat} {ret : Int}
    {p : EntryPtr} {e : ModEntry} (hl : s.rt.moduleLookup E fname s.rt.currentRegionId = some p)
    (he : s.rt.entries p = some e)
    (hu : s.rt.modUnload E fuel fname s.rt.currentRegionId = .ok (m, ret))
    (hf : FreesWholeRegions s.rt m) (hn : n.core = { m.core with reloading := true })
    (hnone : n.moduleLookup E fname n.currentRegionId = none) (q : EntryPtr) :
    m.regionOf q ≠ some s.rt.currentRegionId := by
  have hun := modUnload_unloaded fuel hu
  have hcur : n.currentRegionId = s.rt.currentRegionId :=
    (congrArg Core.currentRegionId hn).trans (congrArg Core.currentRegionId hun.core)
  have hmods : n.modHd = m.modHd := congrArg Core.modHd hn
  obtain ⟨e0, he0, hkey⟩ := hw.table _ p hl
  cases he.symm.trans he0
  have hid : e.regionId = s.rt.currentRegionId := hw.lookup_region hl he
  have hgone : m.regionOf p = none := by
    rw [regionOf, Option.map_eq_none_iff]
    by_contra hne
    obtain ⟨e1, he1⟩ := Option.ne_none_iff_exists'.mp hne
    obtain ⟨e2, he2, hc⟩ := hun.entries p e1 he1
    cases he.symm.trans he2
    have hk1 : e1.modKey = e.modKey := (congrArg ModEntry.modKey hc : _)
    have h1 := (hwm.key p e1 he1).2
    rw [hk1, hkey, ← hmods, ← hcur] at h1
    exact absurd (hnone.symm.trans h1) nofun
  have hps : s.rt.regionOf p = some s.rt.currentRegionId := by
    rw [regionOf, he, Option.map_some, hid]
  intro hq
  rw [hf p q _ hps (hun.regionOf hq) hgone] at hq
  cases hq

theorem reload_index {fname : String} {ch : LoadChoice} {fuel : Nat} (hi : Inv E s)
    (h : step E s (.reload fname ch fuel) = .ok t) (hx : IndexExact s.rt)
    (hf : FreesWholeRegions s.rt t.rt) : IndexExact t.rt := by
  obtain ⟨L, hw⟩ := hi.wf
  have reload : ∀ {p e} (_ : s.rt.moduleLookup E fname s.rt.currentRegionId = some p)
      (_ : s.rt.entries p = some e) {m : Runtime} {ret : Int}
      (_ : s.rt.modUnload E fuel fname s.rt.currentRegionId = .ok (m, ret))
      {n : Runtime} {rf out}
      (_ : LoadEffect E { m with reloading := true } fname ch rf n out),
      t.rt.core.entries = n.core.entries → t.rt.modByRegionHd = n.modByRegionHd →
      IndexExact t.rt := by
    intro p e hl he m ret hu n rf out hload hents hindex
    have hun := modUnload_unloaded fuel hu
    have hnext : m.entryNext = s.rt.entryNext := congrArg Core.entryNext hun.core
    obtain ⟨L', hwm⟩ := WF.prims (x := .none) (y := .none) hw
      (modUnload_prims (g := fun _ _ => True) fuel hu)
    have hfm : FreesWholeRegions s.rt m := by
      have old : ∀ {q id}, s.rt.regionOf q = some id → t.rt.regionOf q = m.regionOf q := by
        intro q id hq
        obtain ⟨e', he', -⟩ := Option.map_eq_some_iff.mp hq
        rw [regionOf_congr hents]
        refine (hload.regionOf_old ?_).trans rfl
        exact fun hc => (hw.lt_next he').ne (hc.trans hnext)
      intro p q id hp hq hgone
      rw [← old hq]
      exact hf p q id hp hq ((old hp).trans hgone)
    have hxm : IndexExact m := hx.unload hu hfm
    have hxr : IndexExact { m with reloading := true } := hxm.congr rfl rfl
    have hxn : IndexExact n := by
      cases hload with
      | same ret hret ht =>
          exact hxr.congr (regionOf_congr (congrArg Core.entries ht)) (congrArg Core.modByRegionHd ht)
      | reuse p e hl he ht =>
          refine hxr.congr ?_ (congrArg Core.modByRegionHd ht)
          rw [regionOf_congr (congrArg Core.entries ht), setRefcount_regionOf he]
      | fresh out hnone hmem him ha hfresh =>
          have hwr : WF { m with reloading := true } none L' :=
            hwm.congr hwm.tree rfl rfl rfl (fun _ => rfl) (fun _ _ => rfl) (fun _ => rfl)
              (fun _ => rfl) fun _ _ => id
          have hempty := reload_empty hw hwm hl he hu hfm rfl hnone
          have hcur : ({ m with reloading := true } : Runtime).currentRegionId =
              s.rt.currentRegionId := congrArg Core.currentRegionId hun.core
          refine hxr.fresh hwr hfresh (fun _ _ q hq => hempty q (hcur ▸ hq)) fun _ => ?_
          rw [hcur, Multi.pairs_nil_iff.mpr]
          · exact Nat.zero_le _
          · exact fun x hxm' hx1 => hempty x.2 ((hxm.mem _ x.2).mp (hx1 ▸ hxm'))
    exact hxn.congr (regionOf_congr hents) hindex
  cases step_effect hi h with
  | reload out hr hs =>
      cases hr with
      | missing hl ht =>
          exact hx.congr (regionOf_congr (congrArg Core.entries ht : _)) (congrArg Core.modByRegionHd ht)
      | back p e hl he m hu m' ret hload ht =>
          exact reload hl he hu hload (congrArg Core.entries ht : _)
            (congrArg Core.modByRegionHd ht : _)
      | waits p e hl he m hu f hload => exact reload hl he hu hload rfl rfl

theorem step_index {e : Event} (hi : Inv E s) (h : step E s e = .ok t) (hx : IndexExact s.rt)
    (hc : KeepsPairs E s e t) : IndexExact t.rt := by
  cases e with
  | load fname ch => exact load_index hi h hx (hc.2 fname ch rfl)
  | unload fname fuel =>
      cases step_effect hi h with
      | unload m ret hu hcore hs =>
          have hents : t.rt.core.entries = m.core.entries := congrArg Core.entries hcore
          have hf : FreesWholeRegions s.rt m := fun p q id hp hq hgone => by
            rw [← regionOf_congr hents] at hgone ⊢
            exact hc.1 p q id hp hq hgone
          exact (hx.unload hu hf).congr (regionOf_congr hents) (congrArg Core.modByRegionHd hcore)
  | reload fname ch fuel => exact reload_index hi h hx hc.1
  | _ =>
      have ht := step_tables hi h (by simp) (by simp) (by simp)
      exact hx.congr (regionOf_congr ht.entries) ht.modByRegionHd

theorem boot_index (h : Boot s) : IndexExact s.rt := by
  refine ⟨?_, fun id p => ?_⟩
  · rw [h.modByRegionHd]
    exact List.nodup_nil
  · rw [h.modByRegionHd, regionOf, h.entries]
    simp

/-- In every run whose steps all keep the pairs of other modules, the index is exact in
every state. -/
theorem region_index_exact (h : Runs E s₀ tr s) (hC : Run.Every (step E) (KeepsPairs E) tr) :
    IndexExact s.rt := by
  have key : Inv E s ∧ IndexExact s.rt :=
    h.2.invariant (P := fun s => Inv E s ∧ IndexExact s.rt)
      (fun m e t hs hc hm => ⟨hm.1.step hs, step_index hm.1 hs hm.2 hc⟩) hC
      ⟨Inv.boot h.1, boot_index h.1⟩
  exact key.2

theorem freesWhole_of_kept {s t : Runtime} (h : ∀ p, s.regionOf p ≠ none → t.regionOf p ≠ none) :
    FreesWholeRegions s t :=
  fun p _ _ hp _ hgone => absurd hgone (h p (by rw [hp]; simp))

end Steps

/-- The only module of the root, loaded and unloaded. -/
theorem region_index_exact_one : ∃ s, Run.exec (step sampleEnv) sampleState
      [.load "p" { addr := 1 }, .installRet, .unload "p" 9] = .ok s ∧ s.rt.modHd.keys = [] ∧
    IndexExact s.rt := by
  obtain ⟨s, hs, hobs⟩ := sample_check [.load "p" { addr := 1 }, .installRet, .unload "p" 9]
    (fun s => decide (s.rt.modHd.keys = []) && decide (s.rt.entryNext = 1) &&
      (s.rt.entries 0).isNone) (by decide)
  simp only [Bool.and_eq_true, decide_eq_true_eq, Option.isNone_iff_eq_none] at hobs
  refine ⟨s, hs, hobs.1.1, region_index_exact (sample_runs hs) ?_⟩
  refine Run.every_trace fun m₁ h₁ => ⟨⟨freesWhole_of_kept fun p hp => ?_, ?_⟩, ?_⟩
  · exact absurd rfl hp
  · rintro _ _ ⟨rfl, rfl⟩ - - - r l hr hl
    cases hr
    cases hl
    exact ⟨fun _ => rfl, fun _ => Nat.zero_le _, fun _ _ => rfl⟩
  refine Run.every_trace fun m₂ h₂ => ⟨⟨freesWhole_of_kept fun p hp => ?_, nofun⟩, ?_⟩
  · have hi := (sample_runs (Run.exec_cons h₁ (Run.exec_nil _ _))).inv
    rw [regionOf_congr (step_tables hi h₂ nofun nofun nofun).entries]
    exact hp
  refine Run.every_trace fun m₃ h₃ => ⟨⟨fun p q id hp hq hgone => ?_, nofun⟩, Run.Every.nil⟩
  obtain rfl : m₃ = s :=
    Except.ok.inj
      ((Run.exec_cons h₁ (Run.exec_cons h₂ (Run.exec_cons h₃ (Run.exec_nil _ _)))).symm.trans hs)
  obtain ⟨L, hw⟩ := (sample_runs hs).inv.wf
  have hq0 : m₃.rt.entries q = none := by
    rcases Nat.eq_zero_or_pos q with rfl | hpos
    · exact hobs.2
    · exact hw.fresh q (by rw [hobs.1.2]; exact hpos)
  rw [regionOf, hq0]
  rfl

/-- Two modules in the root, and one is unloaded: `qmap_del` by region takes the pair of
the other with it. -/
theorem region_index_loses_pair : ∃ s, Run.exec (step sampleEnv) sampleState
      [.load "p" { addr := 1 }, .installRet, .load "q" { addr := 2 }, .installRet,
        .unload "p" 9] = .ok s ∧ ¬ IndexExact s.rt := by
  obtain ⟨s, hs, hobs⟩ := sample_check [.load "p" { addr := 1 }, .installRet,
      .load "q" { addr := 2 }, .installRet, .unload "p" 9]
    (fun s => decide (s.rt.modByRegionHd = []) && decide (s.rt.regionOf 1 = some 0)) (by decide)
  simp only [Bool.and_eq_true, decide_eq_true_eq] at hobs
  refine ⟨s, hs, fun h => ?_⟩
  have hmem := (h.mem 0 1).mpr hobs.2
  rw [hobs.1] at hmem
  cases hmem

end Xylem

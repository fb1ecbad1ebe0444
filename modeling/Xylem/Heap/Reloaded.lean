import Xylem.Heap.Loaded
import Xylem.Heap.Cascade

namespace Xylem
namespace Runtime
variable {s t : Runtime} {E : Env}

/-- Moving the new entry to the place of the old one keeps the core. -/
theorem xyReloadFinish_core {L : RegionPtr → List EntryPtr} (hw : WF s none L)
    {rf : ReloadFrame} (hok : s.ReloadOk E rf) (h : s.xyReloadFinish E rf = .ok t) :
    t.core = s.core := by
  obtain ⟨r, hr, hre⟩ := hok.region
  unfold xyReloadFinish at h
  cases hl : s.moduleLookup E rf.fname rf.regionId with
  | none =>
      simp only [hl, Except.ok.injEq] at h
      rw [h]
  | some p =>
      simp only [hl, hre, Res.bind_ok, Except.ok.injEq] at h
      obtain ⟨m, hm, t', ht, rfl⟩ := h
      obtain ⟨e, he, hek⟩ := hw.table _ p hl
      have hid : e.regionId = rf.regionId := hw.lookup_region hl he
      obtain ⟨r', hre', hr', -⟩ := hw.region_of he (by simp)
      rw [hid, hr, Option.some.injEq] at hr'
      subst hr'
      have hc := moduleRegionDetach_core hm
      obtain ⟨e1, he1, hcore⟩ := moduleRegionInsertAfter_core ht
      obtain ⟨e2, he2, hce⟩ := entries_of_core hc he
      cases he1.symm.trans he2
      have hreg : e1.regionEntry = some r := by
        have : e1.core.regionEntry = e.core.regionEntry := congrArg _ hce
        exact (this.trans hre' : _)
      rw [hcore, setEntry_core_same he1 (by rw [← hreg]), hc]

/-- A load that is done, with the flag of the reload around it cleared. -/
inductive ReloadEffect (E : Env) (s : Runtime) (fname : String) (ch : LoadChoice) (fuel : Nat)
    (t : Runtime) : Outcome LoadFrame → Prop
  | missing (hl : s.moduleLookup E fname s.currentRegionId = none) (ht : t.core = s.core) :
      ReloadEffect E s fname ch fuel t (.done xyErrNotFound)
  | back (p : EntryPtr) (e : ModEntry) (hl : s.moduleLookup E fname s.currentRegionId = some p)
      (he : s.entries p = some e) (m : Runtime)
      (hu : s.modUnload E fuel fname s.currentRegionId = .ok (m, xyOk)) (m' : Runtime) (ret : Int)
      (hload : LoadEffect E { m with reloading := true } fname ch
        (some ⟨fname, s.currentRegionId, e.regionPrev, e.regionEntry⟩) m' (.done ret))
      (ht : t.core = { m'.core with reloading := false }) :
      ReloadEffect E s fname ch fuel t (.done ret)
  | waits (p : EntryPtr) (e : ModEntry) (hl : s.moduleLookup E fname s.currentRegionId = some p)
      (he : s.entries p = some e) (m : Runtime)
      (hu : s.modUnload E fuel fname s.currentRegionId = .ok (m, xyOk)) (f : LoadFrame)
      (hload : LoadEffect E { m with reloading := true } fname ch
        (some ⟨fname, s.currentRegionId, e.regionPrev, e.regionEntry⟩) t (.wait f)) :
      ReloadEffect E s fname ch fuel t (.wait f)

theorem modUnload_ret {fuel : Nat} {fname : String} {region : RegionId} {ret : Int} {p : EntryPtr}
    (hl : s.moduleLookup E fname region = some p)
    (h : s.modUnload E fuel fname region = .ok (t, ret)) : ret = xyOk := by
  cases fuel with
  | zero => cases h
  | succ fuel =>
      simp only [modUnload, hl, Res.bind_ok] at h
      obtain ⟨e, -, h⟩ := h
      split at h
      · simp only [Except.ok.injEq, Prod.mk.injEq] at h
        exact h.2.symm
      · simp only [Res.bind_ok, Except.ok.injEq, Prod.mk.injEq] at h
        obtain ⟨_, _, _, _, _, h⟩ := h
        exact h.symm

/-- What a reload remembers of the entry it found holds when it finds it. -/
theorem reloadOk_start {L : RegionPtr → List EntryPtr} (hw : WF s none L) {fname : String}
    {p : EntryPtr} {e : ModEntry} (hl : s.moduleLookup E fname s.currentRegionId = some p)
    (he : s.entries p = some e) :
    s.ReloadOk E ⟨fname, s.currentRegionId, e.regionPrev, e.regionEntry⟩ := by
  obtain ⟨e', he', hek⟩ := hw.table _ p hl
  cases he.symm.trans he'
  have hid : e.regionId = s.currentRegionId := hw.lookup_region hl he
  obtain ⟨r, hre, hr, hp⟩ := hw.region_of he (by simp)
  refine ⟨⟨r, hid ▸ hr, hre⟩, fun q hq => ?_⟩
  obtain ⟨a, b, hab⟩ := List.append_of_mem hp
  have hseg := (hw.lists r).seg
  rw [hab] at hseg
  have hlink := hseg.at_mid
  simp only [links, he, Option.map_some, Option.some.injEq] at hlink
  have hprev : a.getLast? = some q := (congrArg Thread.Link.prev hlink).symm.trans hq
  have hqa : q ∈ a := List.mem_of_getLast? hprev
  have hqr : q ∈ L r := hab ▸ List.mem_append_left _ hqa
  have hnd : (a ++ p :: b).Nodup := hab ▸ (hw.lists r).nodup
  obtain ⟨-, f, hf, hfr, hfid⟩ := hw.member r q hqr
  refine ⟨hw.mem_lt hqr, fun f' hf' => ?_⟩
  cases hf.symm.trans hf'
  constructor
  · exact ((hw.tree.hd_node _ _ hfid).2.symm.trans (hw.tree.hd_node _ _ hr).2).trans hid
  · intro hk
    have h1 := (hw.key q f hf).2
    rw [hk] at h1
    have hpq : q = p := Option.some.inj (h1.symm.trans hl)
    subst hpq
    exact (List.nodup_append.mp hnd).2.2 q hqa q (by simp) rfl

def ReloadClaims (E : Env) (s : Runtime) (fname : String) (ch : LoadChoice) (fuel : Nat)
    (r : RegionPtr) (bits : UInt8) : Prop :=
  ∃ m, s.modUnload E fuel fname s.currentRegionId = .ok (m, xyOk) ∧
    LoadClaims E { m with reloading := true } fname ch r bits

theorem reloading_sameHeap (s : Runtime) (b : Bool) : SameHeap s { s with reloading := b } :=
  ⟨rfl, rfl, rfl, rfl, rfl, rfl, rfl, rfl, rfl, rfl, rfl, rfl, List.prefix_rfl⟩

theorem xyReload_spec {L : RegionPtr → List EntryPtr} (hw : WF s none L) (hc : s.CtxsKnown)
    (hcur : (s.regionHd s.currentRegionId).isSome) {fname : String} {ch : LoadChoice} {fuel : Nat}
    {out : Outcome LoadFrame} (h : s.xyReload E fuel fname ch = .ok (t, out)) :
    ReloadEffect E s fname ch fuel t out ∧
      Prims E (s.ReloadClaims E fname ch fuel) (s, .none) (t, .none) := by
  unfold xyReload at h
  cases hl : s.moduleLookup E fname s.currentRegionId with
  | none =>
      simp only [hl, Except.ok.injEq, Prod.mk.injEq] at h
      obtain ⟨rfl, rfl⟩ := h
      exact ⟨.missing hl rfl, .single (.scratch (setErr_sameHeap _ _))⟩
  | some p =>
      simp only [hl, Res.bind_ok, deref_ok] at h
      obtain ⟨e, he, ⟨m, ret⟩, hu, h⟩ := h
      obtain rfl := modUnload_ret hl hu
      have p1 : Prims E (s.ReloadClaims E fname ch fuel) (s, .none) (m, .none) :=
        modUnload_prims fuel hu
      have p2 := p1.tail (.scratch (reloading_sameHeap m true))
      have k2 := Prims.keeps p2 ⟨L, hw⟩ hc
      obtain ⟨L2, hw2⟩ := k2.wf
      have hcur2 : (m.regionHd m.currentRegionId).isSome := by
        have : m.currentRegionId = s.currentRegionId :=
          congrArg Core.currentRegionId (modUnload_unloaded fuel hu).core
        rw [this]
        obtain ⟨r, hr⟩ := Option.isSome_iff_exists.mp hcur
        exact Option.isSome_iff_exists.mpr ⟨r, k2.regionHd _ _ hr⟩
      simp only [ne_eq, not_true_eq_false, if_false, Res.bind_ok] at h
      obtain ⟨⟨m', out'⟩, hload, h⟩ := h
      have p3 : Prims E (s.ReloadClaims E fname ch fuel) (s, .none) (m', .none) :=
        p2.trans (Prims.mono (fun r b hg => ⟨m, hu, hg⟩) (modLoad_prims hw2 hcur2 hload))
      have heff := modLoad_effect hw2 hcur2 hload
      cases out' with
      | wait f =>
          simp only [Except.ok.injEq, Prod.mk.injEq] at h
          obtain ⟨rfl, rfl⟩ := h
          exact ⟨.waits p e hl he m hu f heff, p3⟩
      | done ret =>
          have p4 := p3.tail (.scratch (reloading_sameHeap m' false))
          simp only at h
          split at h
          · simp only [Except.ok.injEq, Prod.mk.injEq] at h
            obtain ⟨rfl, rfl⟩ := h
            exact ⟨.back p e hl he m hu m' ret heff rfl, p4.tail (.scratch (setErr_sameHeap _ _))⟩
          · rename_i hret
            simp only [Res.bind_ok, Except.ok.injEq, Prod.mk.injEq] at h
            obtain ⟨v, hv, rfl, rfl⟩ := h
            have k4 := Prims.keeps p4 ⟨L, hw⟩ hc
            obtain ⟨L4, hw4⟩ := k4.wf
            have hok := (reloadOk_start hw hl he).keeps k4
            have hret' : ret = xyOk := not_not.mp hret
            subst hret'
            have hcore := xyReloadFinish_core hw4 hok hv
            exact ⟨.back p e hl he m hu m' xyOk heff ((setErr_core _ _).trans hcore),
              (p4.trans (xyReloadFinish_prims hw4 hok hv)).tail (.scratch (setErr_sameHeap _ _))⟩

end Runtime
end Xylem

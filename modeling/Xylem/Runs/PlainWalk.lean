import Xylem.Runs.Filled
import Xylem.Runs.ModuleDenies

/-!
# Dispatch is the plain walk

Without the caches a call would go through the modules below its region and look each one up.
While no two live modules share an image, this is what a call does.
-/
namespace Xylem

open Xylem.Runtime

namespace Runtime
variable {E : Env} {s t : Runtime} {r : RegionPtr} {i : Nat} {name : String}

/-- Filled cells, and a function in every slot of every vector. -/
structure Full (s : Runtime) : Prop where
  filled : s.Filled
  slots : ∀ r i, ∀ slot ∈ ((s.regions r).hookDispatch i).walked.1, slot.cb ≠ .null

theorem Calm.full (h : Calm s t) (hs : s.Full) : t.Full := by
  refine ⟨h.filled hs.filled, fun r i slot hslot => ?_⟩
  rcases h.vectors r i with hv | hv
  · rw [hv] at hslot
    exact hs.slots r i slot hslot
  · rw [hv] at hslot
    cases hslot

theorem Full.congr (h : s.Full) (he : t.entries = s.entries) (hr : t.regions = s.regions) : t.Full :=
  (Calm.of_same he hr).full h

theorem slotEntry_filled {e : ModEntry} (h : e.Filled) : (slotEntry E i name e).Filled := by
  unfold slotEntry
  split
  · exact h
  · exact Calm.resolve i name h

theorem Touched.filled (h : Touched E i name s t) (hs : s.Filled) : t.Filled := by
  intro p e he
  rcases h.entries p with hp | ⟨me, hme, hp⟩
  · exact hs p e (hp ▸ he)
  · rw [hp, Option.some.injEq] at he
    exact he ▸ slotEntry_filled (hs p me hme)

theorem slotOf_filled {anc : List RegionPtr} {p : EntryPtr} {slot : Slot} (hs : s.Filled)
    (h : s.slotOf E i name anc p = some slot) : slot.cb ≠ .null := by
  unfold slotOf at h
  obtain ⟨e, he, h⟩ := Option.bind_eq_some_iff.mp h
  split at h
  · cases h
  · obtain ⟨c, hc, rfl⟩ := Option.map_eq_some_iff.mp h
    unfold slotCell at hc
    split at hc
    · rename_i hb
      cases hc
      exact slotEntry_filled (hs p e he) i hb
    · cases hc

theorem ensureMods_calm (h : s.regionEnsureSubtreeMods r = .ok t) : Calm s t := by
  rcases regionEnsureSubtreeMods_cases h with ⟨-, h⟩ | ⟨-, rfl⟩
  · obtain ⟨l, -, h⟩ := Res.bind_ok.mp h
    cases h
    exact .setRegion (by intro re; rfl)
  · exact .refl t

theorem rebuildVector_full {anc : List RegionPtr} (hs : s.Full)
    (h : s.regionRebuildHookDispatch E r i name anc = .ok t) : t.Full := by
  obtain ⟨m, hm, hcase⟩ := regionRebuildHookDispatch_cases h
  have hmf := (ensureMods_calm hm).full hs
  rcases hcase with ⟨-, rfl⟩ | ⟨-, u, cache, hf, rfl⟩
  · exact hmf
  obtain ⟨htouch, -, hslots⟩ := rebuildFold_slots
    (c := { (m.regions r).hookDispatch i with count := 0 }) (Nat.zero_le _) hf
  rw [List.take_zero, List.nil_append] at hslots
  obtain ⟨entries, hu⟩ := htouch.rest
  refine ⟨htouch.filled hmf.filled, fun x j slot hslot => ?_⟩
  rw [regions_setRegion, hu] at hslot
  have hold : ∀ y k, slot ∈ ((m.regions y).hookDispatch k).walked.1 → slot.cb ≠ .null :=
    fun y k => hmf.slots y k slot
  split at hslot
  · by_cases hj : j = i
    · subst hj
      simp only [Function.update_self, HookDispatchCache.walked, hslots] at hslot
      obtain ⟨p, -, hp⟩ := List.mem_filterMap.mp hslot
      exact slotOf_filled hmf.filled hp
    · simp only [Function.update_of_ne hj] at hslot
      exact hold r j hslot
  · exact hold x j hslot

theorem callVector_full (hs : s.Full) (h : s.callVector E r i name = .ok t) : t.Full := by
  obtain ⟨m, hm, h⟩ := Res.bind_ok.mp h
  have hmf := (ensureMods_calm hm).full hs
  split at h
  · exact rebuildVector_full hmf h
  · cases h
    exact hmf

theorem callResolve_calm (s : Runtime) (reg : AdapterPtr) : Calm s (s.callResolve reg).1 :=
  .of_same (callResolve_sameHeap s reg).entries (callResolve_sameHeap s reg).regions

theorem callFail_calm (s : Runtime) (retp : Option BufPtr) (reg : AdapterPtr) (ret : Int) :
    Calm s (s.callFail retp reg ret) := by
  obtain ⟨bufs, p, b, h⟩ := callFail_eq s retp reg ret
  rw [h]
  exact .of_same rfl rfl

theorem callPrepare_full {retp : Option BufPtr} {reg : AdapterPtr} {out : Outcome CallFrame}
    (hs : s.Full) (h : s.callPrepare E retp reg = .ok (t, out)) : t.Full := by
  have hres := (callResolve_calm s reg).full hs
  have hbegin : ((s.callResolve reg).1.callBegin retp reg).Full := hres.congr rfl rfl
  cases callPrepare_way h with
  | fails ret he => exact (callFail_calm _ retp reg ret).full hres
  | denied j call he hd => exact (callFail_calm _ retp reg xyErrEperm).full hres
  | nowhere j call he hd hr => exact hbegin
  | loops j call he hd R hR _ hv => exact callVector_full hbegin hv

theorem xyCall_full {retp : Option BufPtr} {reg : Option AdapterPtr} {x : Int ⊕ CallFrame}
    (hs : s.Full) (h : s.xyCall E retp reg = .ok (t, x)) : t.Full := by
  cases reg with
  | none =>
      cases h
      exact hs.congr rfl rfl
  | some reg =>
      obtain ⟨⟨m, out⟩, hm, h⟩ := Res.bind_ok.mp h
      have hmf := callPrepare_full hs hm
      cases out with
      | done ret =>
          cases h
          exact hmf
      | wait f =>
          obtain ⟨he, hr, -⟩ := callLoop_rest h
          exact hmf.congr he hr

theorem xyDeny_calm (s : Runtime) (what : String) (type : DenyType) :
    Calm s (s.xyDeny E what type).1 := by
  unfold xyDeny
  split
  · exact .of_same rfl rfl
  · rename_i r hr
    have rest : ∀ m : Runtime, Calm s m →
        Calm s (((m.regionPropagateDeny r).regionDispatchGenBump r).setErr xyOk) := by
      intro m hm
      have h1 : Calm m (m.regionPropagateDeny r) := .foldl_setRegion (by intro re; rfl) _ m
      have h2 : Calm (m.regionPropagateDeny r) (((m.regionPropagateDeny r).upward r).foldl
          (fun s e => s.setRegion e fun re => { re with dispatchGen := genSucc re.dispatchGen })
          (m.regionPropagateDeny r)) := .foldl_setRegion (by intro re; rfl) _ _
      exact ((hm.trans h1).trans h2).trans (.of_same rfl rfl)
    cases type
    · exact rest _ (.setRegion (by intro re; rfl))
    · exact rest _ (.setRegion (by intro re; rfl))

theorem xyRequireClaim_calm (s : Runtime) (fn : Option HandlerPtr) (ud : Nat) :
    Calm s (s.xyRequireClaim fn ud).1 := by
  unfold xyRequireClaim
  split
  · exact .of_same rfl rfl
  · rename_i r hr
    have hset : Calm s (s.setRegion r (gateEntry fn ud)) := .setRegion (by intro re; rfl)
    cases fn <;> exact hset.trans (.of_same rfl rfl)

end Runtime

section Runs
variable {E : Env} {s₀ s t : State} {e : Event} {tr : List (State × Event)}

theorem afterLoad_rt (stack : List Frame) (r : Runtime × Outcome LoadFrame) :
    (State.afterLoad stack r).rt = r.1 := by
  obtain ⟨m, out⟩ := r
  cases out <;> rfl

/-- A step keeps cells and slots filled, if no two modules share an image where it is taken. -/
theorem Runtime.Full.step (hf : s.rt.Full) (hc : Cached E s.rt) (hl : s.rt.Lone)
    (h : Xylem.step E s e = .ok t) : t.rt.Full := by
  have loaded : ∀ {n m : Runtime} {fname ch reload out}, n.modLoad E fname ch reload = .ok (m, out) →
      n.Full → m.Full := fun hm hn => (Calm.load hm).full hn
  cases e with
  | areg a =>
      cases h
      rcases xyAreg_cases E s.rt a with ⟨err, he⟩ | ⟨-, he⟩
      · rw [State.back, he]
        exact hf.congr rfl rfl
      · rw [State.back, he]
        refine ⟨fun p e hp => ?_, hf.slots⟩
        simp only [setErr, mapEntries] at hp
        split at hp
        · obtain ⟨e0, he0, rfl⟩ := Option.map_eq_some_iff.mp hp
          exact Calm.prewarm _ (hf.filled p e0 he0)
        · exact hf.filled p e hp
  | selfInitCtx c =>
      cases h
      exact ⟨hf.filled, hf.slots⟩
  | load fname ch =>
      obtain ⟨⟨m, out⟩, hr, rfl⟩ := Res.map_ok.mp h
      obtain ⟨⟨n, out'⟩, hn, hr⟩ := Res.bind_ok.mp hr
      have hnf := loaded hn hf
      cases out' with
      | done ret =>
          cases hr
          exact hnf.congr rfl rfl
      | wait f =>
          cases hr
          exact hnf
  | unload fname fuel =>
      obtain ⟨r, hr, rfl⟩ := Res.map_ok.mp h
      obtain ⟨⟨m, ret⟩, hu, hr⟩ := Res.bind_ok.mp hr
      cases hr
      obtain ⟨-, -, hcalm⟩ := modUnload_keeps fuel hu hl hc
      exact (hcalm.full hf).congr rfl rfl
  | reload fname ch fuel =>
      obtain ⟨⟨m, out⟩, hr, rfl⟩ := Res.map_ok.mp h
      rw [afterLoad_rt]
      unfold xyReload at hr
      simp only at hr
      split at hr
      · cases hr
        exact hf.congr rfl rfl
      · obtain ⟨e, -, hr⟩ := Res.bind_ok.mp hr
        obtain ⟨⟨n, ret⟩, hu, hr⟩ := Res.bind_ok.mp hr
        obtain ⟨-, -, hcalm⟩ := modUnload_keeps fuel hu hl hc
        have hn := hcalm.full hf
        simp only at hr
        split at hr
        · cases hr
          exact hn.congr rfl rfl
        · obtain ⟨⟨o, out'⟩, ho, hr⟩ := Res.bind_ok.mp hr
          have hof := loaded ho (hn.congr rfl rfl)
          cases out' with
          | wait f =>
              cases hr
              exact hof
          | done ret =>
              simp only at hr
              split at hr
              · cases hr
                exact hof.congr rfl rfl
              · obtain ⟨u, hu, hr⟩ := Res.bind_ok.mp hr
                cases hr
                exact ((Calm.reloadFinish hu).full (hof.congr rfl rfl)).congr rfl rfl
  | deny what type =>
      cases h
      exact (xyDeny_calm s.rt what type).full hf
  | requireClaim fn ud =>
      cases h
      exact (xyRequireClaim_calm s.rt fn ud).full hf
  | call retp reg =>
      obtain ⟨⟨m, x⟩, hr, rfl⟩ := Res.map_ok.mp h
      rw [afterCall_rt]
      exact xyCall_full hf hr
  | last ret =>
      cases h
      obtain ⟨bufs, err, hl⟩ := xyLast_eq s.rt ret
      rw [State.back, hl]
      exact ⟨hf.filled, hf.slots⟩
  | withRegion id =>
      cases h
      unfold xyWithRegion
      cases hr : s.rt.regionLookup id with
      | none => exact ⟨hf.filled, hf.slots⟩
      | some r => exact ⟨hf.filled, hf.slots⟩
  | bodyRet result =>
      simp only [Xylem.step] at h
      split at h
      · obtain ⟨⟨m, x⟩, hr, rfl⟩ := Res.map_ok.mp h
        rw [afterCall_rt]
        obtain ⟨h1, h2⟩ := bodyLeft_same s.rt _ result
        obtain ⟨h3, h4, -⟩ := callLoop_rest (bodyReturn_ok hr)
        exact hf.congr (h3.trans h2) (h4.trans h1)
      · cases h
  | installRet =>
      simp only [Xylem.step] at h
      split at h
      · rename_i f rest hst
        obtain ⟨m, hr, rfl⟩ := Res.map_ok.mp h
        unfold Runtime.installReturn at hr
        simp only at hr
        split at hr
        · cases hr
          exact hf.congr rfl rfl
        · obtain ⟨u, hu, hr⟩ := Res.bind_ok.mp hr
          cases hr
          exact ((Calm.reloadFinish hu).full (hf.congr rfl rfl)).congr rfl rfl
      · cases h
  | scopeRet code =>
      simp only [Xylem.step] at h
      split at h
      · cases h
        exact ⟨hf.filled, hf.slots⟩
      · cases h

theorem boot_full (h : Boot s) : s.rt.Full := by
  refine ⟨fun p e he => ?_, fun r i slot hslot => ?_⟩
  · rw [h.entries] at he
    cases he
  · have hr : s.rt.regions r = {} := by
      rcases Nat.eq_zero_or_pos r with rfl | hr
      · exact h.root
      · exact h.fresh r hr
    rw [hr] at hslot
    cases hslot

theorem runs_full (h : Runs E s₀ tr s) (hlone : ∀ x ∈ tr, x.1.rt.Lone) : s.rt.Full := by
  have key : Inv E s ∧ Cached E s.rt ∧ s.rt.Full := by
    refine Run.Steps.invariant (C := fun m _ _ => m.rt.Lone)
      (P := fun u => Inv E u ∧ Cached E u.rt ∧ u.rt.Full)
      (fun m e t hst hl hm => ⟨hm.1.step hst, hm.2.1.step hm.1 hst, hm.2.2.step hm.2.1 hl hst⟩) h.2
      (fun x hx _ _ => hlone x hx) ⟨Inv.boot h.1, fun p e he => ?_, boot_full h.1⟩
    rw [h.1.entries] at he
    cases he
  exact key.2.2

/-- What dispatch without caches would call: the module has a context, and its image exports
the hook. -/
def listens (E : Env) (s : Runtime) (name : String) (p : EntryPtr) : Bool :=
  match s.entries p with
  | some e => e.ctx.isSome && (E.dlsym e.handle name).isSome
  | none => false

theorem listens_iff {m : Runtime} {name : String} {p : EntryPtr} :
    listens E m name p = true ↔ ∃ path f, m.Exports E name p path f := by
  unfold listens Runtime.Exports Runtime.face
  cases he : m.entries p with
  | none => simp
  | some e =>
      simp only [Bool.and_eq_true, Option.isSome_iff_exists, Option.map_some, Option.some.injEq,
        Face.mk.injEq]
      constructor
      · rintro ⟨⟨c, hc⟩, f, hf⟩
        exact ⟨e.loadPath, f, c, e.handle, ⟨hc, rfl, rfl⟩, hf⟩
      · rintro ⟨path, f, c, h, ⟨hc, rfl, -⟩, hf⟩
        exact ⟨⟨c, hc⟩, f, hf⟩

/-- No two of the entries allocated so far share an image. -/
def apart (s : Runtime) : Bool :=
  (List.range s.entryNext).all fun p => (List.range s.entryNext).all fun q =>
    match s.entries p, s.entries q with
    | some e, some f => decide (e.handle = f.handle → p = q)
    | _, _ => true

theorem Inv.lone (hi : Inv E s) (h : apart s.rt = true) : s.rt.Lone := by
  obtain ⟨L, hw⟩ := hi.wf
  intro p q e f he hf hh
  have h1 := List.all_eq_true.mp (List.all_eq_true.mp h p (List.mem_range.mpr (hw.lt_next he))) q
    (List.mem_range.mpr (hw.lt_next hf))
  rw [he, hf] at h1
  exact of_decide_eq_true h1 hh

theorem Runs.inv_before (h : Runs E s₀ tr s) {x : State × Event} (hx : x ∈ tr) : Inv E x.1 :=
  Run.Steps.invariant_states (C := fun _ _ _ => True) (fun _ _ _ hs _ hi => hi.step hs) h.2
    (fun _ _ _ _ => trivial) (Inv.boot h.1) x.1 (List.mem_append_left _ (List.mem_map_of_mem hx))

/-- A selection from a list without repetition is what a filter gives that accepts it and
nothing more. -/
theorem sublist_eq_filter {α : Type} {a l : List α} {q : α → Bool} (h : a.Sublist l) (hl : l.Nodup)
    (hq : ∀ x ∈ a, q x = true) (hall : ∀ x ∈ l, q x = true → x ∈ a) : a = l.filter q := by
  have hsub : a.Sublist (l.filter q) := by
    have hf := h.filter q
    rwa [List.filter_eq_self.mpr hq] at hf
  refine hsub.eq_of_length_le ?_
  have hmem : l.filter q ⊆ a := by
    intro x hx
    obtain ⟨hxl, hxq⟩ := List.mem_filter.mp hx
    exact hall x hxl hxq
  exact (List.subperm_of_subset (hl.filter q) hmem).length_le

/-- Cached dispatch is the plain walk. In a run without module denies in which no two live
modules share an image, a call that resolves and is not denied calls, in the order of
collecting them, exactly the modules below its region that export the hook, whatever was
cached before. -/
theorem call_refines_walk (h : Runs E s₀ tr s) (hlim : s.rt.genBumps + 1 < 2 ^ 64)
    (hlone : ∀ x ∈ tr, x.1.rt.Lone) (hnever : ∀ path, NeverDenied E tr path)
    (retp : Option BufPtr) {reg : AdapterPtr} {i : Nat} {tramp : Trampoline}
    (hres : (s.rt.callResolve reg).2 = .ok (i, tramp)) (hdeny : s.rt.callDenied reg = false) :
    ∃ r l ran, s.rt.callerRegion = some r ∧
      s.rt.regionCollectSubtreeMods s.rt.regionNext r = .ok l ∧
      ran = l.filter (listens E s.rt (s.rt.adapters reg).name) ∧
      ∀ results : List Bytes, results.length = ran.length →
        (∀ b ∈ results, b.length = tramp.retSize) →
        ∃ u, Run.exec (step E) s (.call retp (some reg) :: results.map .bodyRet) = .ok u ∧
          u.stack = s.stack ∧ u.status = .returned (if ran = [] then xyErrNotFound else xyOk) ran := by
  obtain ⟨L, hc⟩ := runs_cachesOk h hlim
  obtain ⟨r, l, m, f, hr, hl, hnd, hpre, hvec, hall⟩ := hc.call_runs retp h.inv hlim hres hdeny
  generalize hv : ((m.regions r).hookDispatch i).walked.1 = v at hvec hall
  have hnull : ∀ slot ∈ v, slot.cb ≠ .null :=
    hv ▸ (callPrepare_full (runs_full h hlone) hpre).slots r i
  have hran : bodies v = l.filter (listens E s.rt (s.rt.adapters reg).name) := by
    unfold bodies
    rw [List.filter_eq_self.mpr fun slot hs => by simpa using hnull slot hs]
    refine sublist_eq_filter hvec.order hnd (fun p hp => ?_) fun p hp hq => ?_
    · obtain ⟨slot, hslot, rfl⟩ := List.mem_map.mp hp
      obtain ⟨path, f, hf, -⟩ := hvec.each slot hslot
      exact listens_iff.mpr ⟨path, f, hf⟩
    · obtain ⟨path, f, hf⟩ := listens_iff.mp hq
      exact hvec.all p hp path f hf (hnever path)
  exact ⟨r, l, _, hr, hl, hran, hall⟩

/-- Two modules are loaded; no run that has come so far had two modules of one image. -/
theorem call_refines_walk_loaded : ∃ s, Run.exec (step sampleEnv) sampleState
      [.areg 0, .load "p" { addr := 1 }, .installRet, .load "q" { addr := 2 }, .installRet] = .ok s ∧
    ∃ r l ran, s.rt.callerRegion = some r ∧
      s.rt.regionCollectSubtreeMods s.rt.regionNext r = .ok l ∧
      ran = l.filter (listens sampleEnv s.rt (s.rt.adapters 0).name) ∧
      ∀ results : List Bytes, results.length = ran.length → (∀ b ∈ results, b.length = 1) →
        ∃ u, Run.exec (step sampleEnv) s (.call none (some 0) :: results.map .bodyRet) = .ok u ∧
          u.stack = s.stack ∧ u.status = .returned (if ran = [] then xyErrNotFound else xyOk) ran := by
  obtain ⟨s, hs, hobs⟩ := sample_check
    [.areg 0, .load "p" { addr := 1 }, .installRet, .load "q" { addr := 2 }, .installRet]
    (fun s => decide (s.rt.genBumps + 1 < 2 ^ 64) &&
      decide ((s.rt.callResolve 0).2.toOption = some (0, { retSize := 1 })) &&
      decide (s.rt.callDenied 0 = false)) (by decide)
  simp only [Bool.and_eq_true, decide_eq_true_eq] at hobs
  obtain ⟨⟨hlim, hres⟩, hdeny⟩ := hobs
  have hres : (s.rt.callResolve 0).2 = .ok (0, { retSize := 1 }) := toOption_some hres
  have hruns := sample_runs hs
  refine ⟨s, hs, call_refines_walk hruns hlim (fun x hx => ?_) (fun path x hx what he => ?_) none
    hres hdeny⟩
  · have hall : ((Run.trace (step sampleEnv) sampleState
        [.areg 0, .load "p" { addr := 1 }, .installRet, .load "q" { addr := 2 }, .installRet]).all
          fun x => apart x.1.rt) = true := by decide
    exact (hruns.inv_before hx).lone (List.all_eq_true.mp hall x hx)
  · have hev := List.mem_map_of_mem (f := Prod.snd) hx
    rw [Run.trace_events hs, he] at hev
    simp at hev

end Runs
end Xylem

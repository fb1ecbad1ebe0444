import Xylem.Runs.CoherentRuns

namespace Xylem

open Xylem.Runtime

namespace Runtime
variable {E : Env} {free : String → Prop} {s t m : Runtime} {L : RegionPtr → List EntryPtr}
  {r : RegionPtr} {i : Nat} {name : String}

theorem rebuildFold_ok {anc : List RegionPtr} {l : List EntryPtr} {c : HookDispatchCache}
    (hl : ∀ p ∈ l, s.entries p ≠ none) :
    ∃ acc, l.foldlM (regionRebuildSlot E i name anc) (s, c) = .ok acc := by
  induction l generalizing s c with
  | nil => exact ⟨_, rfl⟩
  | cons p l ih =>
      obtain ⟨me, hme⟩ := Option.ne_none_iff_exists'.mp (hl p List.mem_cons_self)
      obtain ⟨⟨n, c'⟩, hslot⟩ : ∃ acc, regionRebuildSlot E i name anc (s, c) p = .ok acc := by
        simp only [regionRebuildSlot, deref_ok.mpr hme, bind, Except.bind]
        split
        · exact ⟨_, rfl⟩
        · split
          · exact ⟨_, rfl⟩
          · split
            · exact ⟨_, rfl⟩
            · split <;> exact ⟨_, rfl⟩
      have hlive : ∀ q ∈ l, n.entries q ≠ none := by
        intro q hq hnone
        have hcore := congrFun (congrArg Core.entries (regionRebuildSlot_resolved hslot).core) q
        simp only [core, hnone, Option.map_none] at hcore
        exact hl q (List.mem_cons_of_mem _ hq) (Option.map_eq_none_iff.mp hcore.symm)
      obtain ⟨acc, hacc⟩ := ih (c := c') hlive
      refine ⟨acc, ?_⟩
      rw [List.foldlM_cons]
      exact Res.bind_ok.mpr ⟨_, hslot, hacc⟩

theorem callVector_current (h : s.callVector E r i name = .ok t) :
    ((t.regions r).hookDispatch i).regionGen = (t.regions r).dispatchGen := by
  obtain ⟨m, hm, h⟩ := Res.bind_ok.mp h
  split at h
  · rename_i hstale
    obtain ⟨n, hn, hcase⟩ := regionRebuildHookDispatch_cases h
    rcases hcase with ⟨hcur, rfl⟩ | ⟨-, u, cache, hf, rfl⟩
    · exact hcur
    · obtain ⟨entries, hu⟩ := (rebuildFold_resolved hf).rest
      have hu : u = { n with entries := entries } := hu
      rw [regions_setRegion, if_pos rfl, hu]
      simp
  · rename_i hcur
    cases h
    exact not_not.mp hcur

end Runtime

namespace ListsOk
variable {E : Env} {free : String → Prop} {s : Runtime} {L : RegionPtr → List EntryPtr}
  {r : RegionPtr} {i : Nat} {name : String}

theorem ensureMods (h : ListsOk E free s none L) (hr : r < s.regionNext) :
    ∃ t L', s.regionEnsureSubtreeMods r = .ok t ∧ ListsOk E free t none L' := by
  unfold regionEnsureSubtreeMods
  split
  · obtain ⟨l, hl, -⟩ := h.wf.collect_spec hr
    have hm : s.regionRebuildSubtreeMods r = .ok _ := Res.bind_ok.mpr ⟨l, hl, rfl⟩
    have hp : Prims E (fun _ _ => True) (s, .none) (_, .none) := .single (.mods hm)
    obtain ⟨L', hL', -⟩ := hp.caches h
    exact ⟨_, L', hm, hL'⟩
  · exact ⟨s, L, rfl, h⟩

theorem rebuild_ok (h : ListsOk E free s none L)
    (hclean : (s.regions r).subtreeModsDirty = false) (anc : List RegionPtr) :
    ∃ t, s.regionRebuildHookDispatch E r i name anc = .ok t := by
  have hlive : ∀ p ∈ (s.regions r).subtreeMods, s.entries p ≠ none := by
    have hflat : (s.regions r).subtreeMods = s.walk L r := h.flat.list r hclean
    rw [hflat]
    exact fun p hp => h.wf.walk_live hp
  obtain ⟨⟨n, cache⟩, hf⟩ : ∃ acc, (s.regions r).subtreeMods.foldlM
      (regionRebuildSlot E i name anc) (s, { (s.regions r).hookDispatch i with count := 0 }) =
        .ok acc := rebuildFold_ok hlive
  unfold regionRebuildHookDispatch regionEnsureSubtreeMods
  simp only [hclean, Bool.false_eq_true, if_false, bind, Except.bind]
  split
  · exact ⟨_, rfl⟩
  · rw [hf]
    exact ⟨_, rfl⟩

theorem callVector_ok (h : ListsOk E free s none L) (hr : r < s.regionNext)
    (hi : s.hookIdHd.lookup name = some i) : ∃ t L', s.callVector E r i name = .ok t ∧
      ListsOk E free t none L' ∧
      (Coherent E free s L → s.genBumps + 1 < 2 ^ 64 → Coherent E free t L') := by
  obtain ⟨t, ht⟩ : ∃ t, s.callVector E r i name = .ok t := by
    obtain ⟨m, L', hm, hL'⟩ := h.ensureMods hr
    have hclean := (ensureMods_alike (E := E) hm).2.2.1
    unfold callVector
    simp only [hm, bind, Except.bind]
    split
    · exact hL'.rebuild_ok hclean _
    · exact ⟨m, rfl⟩
  have hp : Prims E (fun _ _ => True) (s, .none) (t, .none) := (callVector_straight hi ht).prims
  obtain ⟨L', hL', hco⟩ := hp.caches h
  exact ⟨t, L', ht, hL', fun hc hlim => hco hc ((callVector_bumps ht).symm ▸ hlim)⟩

end ListsOk

/-- No `xy_deny` of the steps `tr` names the module of this path. -/
def NeverDenied (E : Env) (tr : List (State × Event)) (path : String) : Prop :=
  ∀ x ∈ tr, ∀ what, x.2 = .deny what .module → E.moduleLoadPath what ≠ path

section Runs
variable {E : Env} {s₀ s : State} {tr : List (State × Event)}

theorem runs_cachesOk (h : Runs E s₀ tr s) (hlim : s.rt.genBumps + 1 < 2 ^ 64) :
    ∃ L, CachesOk E (NeverDenied E tr) s.rt none L :=
  runs_caches h (fun x hx what he hfree => hfree x hx what he rfl) hlim

/-- In every state, as long as generations have not run out: a flat list that is not due for a
rebuild is what collecting the subtree would give, and the current vector of a hook is a
selection from it, in its order, of modules that export the hook. A module whose path no
`xy_deny` has named is on it. -/
theorem caches_current (h : Runs E s₀ tr s) (hlim : s.rt.genBumps + 1 < 2 ^ 64) {r : RegionPtr}
    (hr : r < s.rt.regionNext) : ∃ l, s.rt.regionCollectSubtreeMods s.rt.regionNext r = .ok l ∧
      l.Nodup ∧ ((s.rt.regions r).subtreeModsDirty = false → (s.rt.regions r).subtreeMods = l) ∧
      ∀ name i, s.rt.hookIdHd.lookup name = some i →
        ((s.rt.regions r).hookDispatch i).regionGen = (s.rt.regions r).dispatchGen →
        VectorOf E (NeverDenied E tr) s.rt l name ((s.rt.regions r).hookDispatch i).walked.1 := by
  obtain ⟨L, hc⟩ := runs_cachesOk h hlim
  obtain ⟨l, hl, hnd, -⟩ := hc.wf.collect_spec hr
  have hwalk : l = s.rt.walk L r := hc.wf.collect_eq hl
  refine ⟨l, hl, hnd, fun hd => (hc.flat.list r hd).trans hwalk.symm, fun name i hi hcur => ?_⟩
  rw [hwalk]
  exact hc.coherent.vectors r i name hi hcur

/-- A module is loaded and called, so that list and vector of the root are filled. -/
theorem caches_current_loaded : ∃ s, Run.exec (step sampleEnv) sampleState
      [.areg 0, .load "p" { addr := 1 }, .installRet, .call none (some 0), .bodyRet [7]] = .ok s ∧
    ∃ l, s.rt.regionCollectSubtreeMods s.rt.regionNext 0 = .ok l ∧ l.Nodup ∧
      ((s.rt.regions 0).subtreeModsDirty = false → (s.rt.regions 0).subtreeMods = l) ∧
      ∀ name i, s.rt.hookIdHd.lookup name = some i →
        ((s.rt.regions 0).hookDispatch i).regionGen = (s.rt.regions 0).dispatchGen →
        VectorOf sampleEnv (NeverDenied sampleEnv (Run.trace (step sampleEnv) sampleState
          [.areg 0, .load "p" { addr := 1 }, .installRet, .call none (some 0), .bodyRet [7]]))
          s.rt l name ((s.rt.regions 0).hookDispatch i).walked.1 := by
  obtain ⟨s, hs, hobs⟩ := sample_check
    [.areg 0, .load "p" { addr := 1 }, .installRet, .call none (some 0), .bodyRet [7]]
    (fun s => decide (s.rt.genBumps + 1 < 2 ^ 64) && decide (0 < s.rt.regionNext)) (by decide)
  simp only [Bool.and_eq_true, decide_eq_true_eq] at hobs
  exact ⟨s, hs, caches_current (sample_runs hs) hobs.1 hobs.2⟩

theorem Inv.caller (hi : Inv E s) : ∃ r, s.rt.callerRegion = some r ∧ r < s.rt.regionNext := by
  obtain ⟨L, hw⟩ := hi.wf
  obtain ⟨y, hy⟩ := Option.isSome_iff_exists.mp hi.current.id
  cases hx : s.rt.currentRegionEntry with
  | some x => exact ⟨x, by simp [callerRegion, hx], hi.current.entry x hx⟩
  | none =>
      have hy' : s.rt.regionLookup s.rt.currentRegionId = some y := hy
      exact ⟨y, by simp [callerRegion, hx, hy'], (hw.tree.hd_node _ _ hy).1⟩

/-- A call that resolves and is not denied has its vector: the one that `vector` describes. -/
structure Prepared (E : Env) (free : String → Prop) (s m : Runtime) (L L' : RegionPtr → List EntryPtr)
    (name : String) (r : RegionPtr) (i : Nat) : Prop where
  lists : ListsOk E free m none L'
  coherent : Coherent E free s L → s.genBumps + 1 < 2 ^ 64 → Coherent E free m L'
  same : SameLists s m
  hooks : m.hookIdHd = s.hookIdHd
  face : ∀ p, m.face p = s.face p
  current : ((m.regions r).hookDispatch i).regionGen = (m.regions r).dispatchGen
  vector : s.vector E r i name = .ok ((m.regions r).hookDispatch i).walked

theorem Prepared.captured {free : String → Prop} {m n : Runtime} {L L' : RegionPtr → List EntryPtr}
    {name : String} {r : RegionPtr} {i : Nat} (h : Prepared E free n m L L' name r i)
    (retp : Option BufPtr) (reg : AdapterPtr) (tramp : Trampoline) :
    m.Captured (m.vectorFrame retp reg i tramp r) :=
  ⟨rfl, h.lists.flat.fits r i, h.lists.flat.noMarker r i⟩

theorem ListsOk.call_prepared {free : String → Prop} {L : RegionPtr → List EntryPtr}
    (retp : Option BufPtr) {reg : AdapterPtr} {i : Nat} {tramp : Trampoline}
    (hc : ListsOk E free s.rt none L) (hi : Inv E s)
    (hres : (s.rt.callResolve reg).2 = .ok (i, tramp)) (hdeny : s.rt.callDenied reg = false) :
    ∃ r m L', s.rt.callerRegion = some r ∧ r < s.rt.regionNext ∧
      s.rt.callPrepare E retp reg = .ok (m, .wait (m.vectorFrame retp reg i tramp r)) ∧
      Prepared E free s.rt m L L' (s.rt.adapters reg).name r i := by
  obtain ⟨r, hr, hlt⟩ := hi.caller
  -- resolving and beginning touch nothing that the caches depend on
  obtain ⟨b, hb⟩ : ∃ b, b = (s.rt.callResolve reg).1.callBegin retp reg := ⟨_, rfl⟩
  have hsame : SameHeap s.rt b := by
    have h1 := callResolve_sameHeap s.rt reg
    rw [hb]
    exact ⟨h1.1, h1.2, h1.3, h1.4, h1.5, h1.6, h1.7, h1.8, h1.9, h1.10, h1.11, h1.12,
      h1.13⟩
  have hp : Prims E (fun _ _ => True) (s.rt, .none) (b, .none) := .single (.scratch hsame)
  obtain ⟨Lb, hLb, hcob⟩ := hp.caches hc
  have hlook : b.hookIdHd.lookup (s.rt.adapters reg).name = some i :=
    hsame.hookIdHd ▸ callResolve_lookup hi.registry hres
  obtain ⟨m, L', hm, hL', hco⟩ := hLb.callVector_ok (hsame.regionNext ▸ hlt) hlook
  obtain ⟨halike, hvec⟩ := callVector_alike (fun name' hk => hLb.inj name' _ i hk hlook) hlook hm
  have hlists : SameLists s.rt b := ⟨hsame.regionNext, hsame.entryNext,
    fun p => by rw [hsame.entries], fun x => by rw [hsame.regions], fun x => by rw [hsame.regions]⟩
  have hnodes : ∀ x, (b.regions x).toRegionNode = (s.rt.regions x).toRegionNode :=
    fun x => by rw [hsame.regions]
  have hvecb : b.vector E r i (s.rt.adapters reg).name = s.rt.vector E r i (s.rt.adapters reg).name := by
    have hslot : b.slotOf E i (s.rt.adapters reg).name (s.rt.callChain r) =
        s.rt.slotOf E i (s.rt.adapters reg).name (s.rt.callChain r) :=
      funext fun p => slotOf_congr hnodes (congrFun hsame.entries p) i _ _
    have hlisted : b.listed r = s.rt.listed r := by
      unfold Runtime.listed
      rw [hlists.collect, hsame.regions, hsame.regionNext]
    unfold Runtime.vector
    rw [callChain_congr hnodes, hslot, hlisted, hsame.regions]
  refine ⟨r, m, L', hr, hlt, ?_, hL', fun h hlim => ?_, hlists.trans halike.lists,
    halike.hooks.trans hsame.hookIdHd, fun p => ?_, callVector_current hm, hvecb.symm.trans hvec⟩
  · have hd := callDenied_resolve s.rt reg
    have hcaller := callerRegion_resolve s.rt retp reg
    have hn := callResolve_name s.rt reg reg
    rw [hb] at hm
    unfold callPrepare
    generalize s.rt.callResolve reg = o at hres hd hcaller hn hm
    obtain ⟨n, o⟩ := o
    cases hres
    have hm' : (n.callBegin retp reg).callVector E r i ((n.callBegin retp reg).adapters reg).name =
        .ok m := by
      show (n.callBegin retp reg).callVector E r i (n.adapters reg).name = .ok m
      rw [hn]
      exact hm
    simp only [hd, hdeny, Bool.false_eq_true, if_false, hcaller, hr, hm', bind, Except.bind]
    rfl
  · have hbl : b.genBumps + 1 < 2 ^ 64 := by rw [hsame.genBumps]; exact hlim
    exact hco (hcob h hbl) hbl
  · exact (face_of_core (callVector_core hm) p).trans (face_of_entries (congrFun hsame.entries p))

/-- From coherent caches a call gets to its walk, and the walk to its end. -/
theorem CachesOk.call_walk {free : String → Prop} {L : RegionPtr → List EntryPtr}
    (retp : Option BufPtr) {reg : AdapterPtr} {i : Nat} {tramp : Trampoline}
    (hc : CachesOk E free s.rt none L) (hi : Inv E s) (hlim : s.rt.genBumps + 1 < 2 ^ 64)
    (hres : (s.rt.callResolve reg).2 = .ok (i, tramp)) (hdeny : s.rt.callDenied reg = false) :
    ∃ r l m, s.rt.callerRegion = some r ∧ s.rt.regionCollectSubtreeMods s.rt.regionNext r = .ok l ∧
      l.Nodup ∧ s.rt.callPrepare E retp reg = .ok (m, .wait (m.vectorFrame retp reg i tramp r)) ∧
      m.CanWalk (m.vectorFrame retp reg i tramp r) ∧
      VectorOf E free s.rt l (s.rt.adapters reg).name (m.toWalk (m.vectorFrame retp reg i tramp r)) ∧
      ∀ p, m.face p = s.rt.face p := by
  obtain ⟨r, m, L', hr, hlt, hpre, hp⟩ := hc.toListsOk.call_prepared retp hi hres hdeny
  obtain ⟨l, hl, hnd, -⟩ := hc.wf.collect_spec hlt
  have hlook := callResolve_lookup hi.registry hres
  have hlw : l = m.walk L' r := by
    refine hp.lists.wf.collect_eq ?_
    rw [hp.same.collect, hp.same.next]
    exact hl
  have hvec : VectorOf E free s.rt l (s.rt.adapters reg).name
      (m.toWalk (m.vectorFrame retp reg i tramp r)) := by
    rw [hlw]
    exact ((hp.coherent hc.coherent hlim).vectors r i _ (hp.hooks ▸ hlook) hp.current).congr
      fun p _ => (hp.face p).symm
  refine ⟨r, l, m, hr, hl, hnd, hpre, ⟨hp.captured retp reg tramp, fun slot hs => ?_⟩, hvec, hp.face⟩
  obtain ⟨path, f, ⟨c, im, hf, -⟩, -⟩ := hvec.each slot hs
  rw [← hp.face] at hf
  obtain ⟨e, he, -⟩ := Option.map_eq_some_iff.mp hf
  rw [he]
  exact Option.some_ne_none e

/-- The modules that a walk of these slots calls into. -/
def bodies (v : List Slot) : List EntryPtr := (v.filter fun slot => slot.cb ≠ .null).map Slot.me

/-- What the walk of a vector calls into are the slots with a function. -/
theorem Runtime.VectorOf.bodies {free : String → Prop} {l : List EntryPtr} {name : String}
    {v : List Slot} {n m : Runtime} (h : VectorOf E free n l name v) (hface : ∀ p, m.face p = n.face p) :
    v.filterMap m.callee = bodies v := by
  have hcallee : ∀ slot ∈ v, m.callee slot = if slot.cb ≠ .null then some slot.me else none := by
    intro slot hslot
    obtain ⟨path, f, ⟨c, im, hf, -⟩, hcb⟩ := h.each slot hslot
    rw [← hface] at hf
    obtain ⟨e, he, hh⟩ := Option.map_eq_some_iff.mp hf
    have hctx : e.ctx = some c := (Face.mk.inj hh).1
    rcases hcb with hcb | hcb
    · simp [Runtime.callee, he, hctx, hcb]
    · simp [Runtime.callee, he, hcb]
  unfold Xylem.bodies
  clear h
  induction v with
  | nil => rfl
  | cons slot v ih =>
      have hrest := ih fun x hx => hcallee x (List.mem_cons_of_mem _ hx)
      have hslot := hcallee slot List.mem_cons_self
      by_cases hcb : slot.cb ≠ .null
      · rw [if_pos hcb] at hslot
        rw [List.filterMap_cons_some hslot, hrest, List.filter_cons_of_pos (by simpa using hcb),
          List.map_cons]
      · rw [if_neg hcb] at hslot
        rw [List.filterMap_cons_none hslot, hrest, List.filter_cons_of_neg (by simpa using hcb)]

/-- From coherent caches a call whose bodies only return calls into each slot that has a
function, in order and once, and comes back with `XY_OK`, or with `XY_ERR_NOT_FOUND` if there
was none. -/
theorem CachesOk.call_runs {free : String → Prop} {L : RegionPtr → List EntryPtr}
    (retp : Option BufPtr) {reg : AdapterPtr} {i : Nat} {tramp : Trampoline}
    (hc : CachesOk E free s.rt none L) (hi : Inv E s) (hlim : s.rt.genBumps + 1 < 2 ^ 64)
    (hres : (s.rt.callResolve reg).2 = .ok (i, tramp)) (hdeny : s.rt.callDenied reg = false) :
    ∃ r l m f, s.rt.callerRegion = some r ∧
      s.rt.regionCollectSubtreeMods s.rt.regionNext r = .ok l ∧ l.Nodup ∧
      s.rt.callPrepare E retp reg = .ok (m, .wait f) ∧
      VectorOf E free s.rt l (s.rt.adapters reg).name ((m.regions r).hookDispatch i).walked.1 ∧
      ∀ results : List Bytes,
        results.length = (bodies ((m.regions r).hookDispatch i).walked.1).length →
        (∀ b ∈ results, b.length = tramp.retSize) →
        ∃ u, Run.exec (Xylem.step E) s (.call retp (some reg) :: results.map .bodyRet) = .ok u ∧
          u.stack = s.stack ∧ u.status =
            .returned (if bodies ((m.regions r).hookDispatch i).walked.1 = [] then xyErrNotFound
              else xyOk) (bodies ((m.regions r).hookDispatch i).walked.1) := by
  obtain ⟨r, l, m, hr, hl, hnd, hpre, hwalk, hvec, hface⟩ := hc.call_walk retp hi hlim hres hdeny
  have hfin : Finishes E s.stack m (m.vectorFrame retp reg i tramp r).n
      (m.vectorFrame retp reg i tramp r) _ :=
    walk_finishes (Nat.zero_add _) hwalk (hvec.bodies hface)
  obtain ⟨x, hx, hall⟩ := hfin
  refine ⟨r, l, m, _, hr, hl, hnd, hpre, hvec, fun results hlen hsize => ?_⟩
  obtain ⟨u, hu, hstack, hstatus, -⟩ := hall results hlen hsize
  have hcall : s.rt.xyCall E retp (some reg) = .ok x := by
    simp only [xyCall, hpre, bind, Except.bind]
    exact hx
  refine ⟨u, Run.exec_cons (m := State.afterCall s.stack [] x) ?_ hu, hstack, ?_⟩
  · simp only [Xylem.step, hcall, Except.map]
  · have hzero : ∀ k : Nat, (m.vectorFrame retp reg i tramp r).ran + k = k := Nat.zero_add
    have hnil : (m.vectorFrame retp reg i tramp r).invoked = [] := rfl
    rw [hstatus, hnil, List.nil_append, hzero]
    simp only [List.length_eq_zero_iff]
    rfl

/-- In every state a call that resolves and is not denied walks a vector over the modules below
its region. When the bodies only return, it calls into each slot that has a function, in order
and once, and comes back with `XY_OK`, or with `XY_ERR_NOT_FOUND` if there was none. -/
theorem call_serves (h : Runs E s₀ tr s) (hlim : s.rt.genBumps + 1 < 2 ^ 64)
    (retp : Option BufPtr) {reg : AdapterPtr} {i : Nat} {tramp : Trampoline}
    (hres : (s.rt.callResolve reg).2 = .ok (i, tramp)) (hdeny : s.rt.callDenied reg = false) :
    ∃ r l v, s.rt.callerRegion = some r ∧
      s.rt.regionCollectSubtreeMods s.rt.regionNext r = .ok l ∧ l.Nodup ∧
      VectorOf E (NeverDenied E tr) s.rt l (s.rt.adapters reg).name v ∧
      ∀ results : List Bytes, results.length = (bodies v).length →
        (∀ b ∈ results, b.length = tramp.retSize) →
        ∃ u, Run.exec (step E) s (.call retp (some reg) :: results.map .bodyRet) = .ok u ∧
          u.stack = s.stack ∧
          u.status = .returned (if bodies v = [] then xyErrNotFound else xyOk) (bodies v) := by
  obtain ⟨L, hc⟩ := runs_cachesOk h hlim
  obtain ⟨r, l, m, f, hr, hl, hnd, -, hvec, hall⟩ := hc.call_runs retp h.inv hlim hres hdeny
  exact ⟨r, l, _, hr, hl, hnd, hvec, hall⟩

theorem toOption_some {ε α : Type} {x : Except ε α} {a : α} (h : x.toOption = some a) : x = .ok a := by
  cases x with
  | error e => cases h
  | ok b => exact congrArg Except.ok (Option.some.inj h)

theorem call_serves_loaded : ∃ s, Run.exec (step sampleEnv) sampleState
      [.areg 0, .load "p" { addr := 1 }, .installRet, .load "q" { addr := 2 }, .installRet] = .ok s ∧
    ∃ r l v, s.rt.callerRegion = some r ∧
      s.rt.regionCollectSubtreeMods s.rt.regionNext r = .ok l ∧ l.Nodup ∧
      VectorOf sampleEnv (NeverDenied sampleEnv (Run.trace (step sampleEnv) sampleState
        [.areg 0, .load "p" { addr := 1 }, .installRet, .load "q" { addr := 2 }, .installRet]))
        s.rt l (s.rt.adapters 0).name v ∧
      ∀ results : List Bytes, results.length = (bodies v).length →
        (∀ b ∈ results, b.length = 1) →
        ∃ u, Run.exec (step sampleEnv) s (.call none (some 0) :: results.map .bodyRet) = .ok u ∧
          u.stack = s.stack ∧
          u.status = .returned (if bodies v = [] then xyErrNotFound else xyOk) (bodies v) := by
  obtain ⟨s, hs, hobs⟩ := sample_check
    [.areg 0, .load "p" { addr := 1 }, .installRet, .load "q" { addr := 2 }, .installRet]
    (fun s => decide (s.rt.genBumps + 1 < 2 ^ 64) &&
      decide ((s.rt.callResolve 0).2.toOption = some (0, { retSize := 1 })) &&
      decide (s.rt.callDenied 0 = false)) (by decide)
  simp only [Bool.and_eq_true, decide_eq_true_eq] at hobs
  obtain ⟨⟨hlim, hres⟩, hdeny⟩ := hobs
  have hres : (s.rt.callResolve 0).2 = .ok (0, { retSize := 1 }) := toOption_some hres
  exact ⟨s, hs, call_serves (sample_runs hs) hlim none hres hdeny⟩

/-- In every state every call gets to its first callback or comes back. -/
theorem xyCall_total (h : Runs E s₀ tr s) (hlim : s.rt.genBumps + 1 < 2 ^ 64)
    (retp : Option BufPtr) (reg : Option AdapterPtr) : ∃ x, s.rt.xyCall E retp reg = .ok x := by
  cases reg with
  | none => exact ⟨_, rfl⟩
  | some reg =>
      cases hres : (s.rt.callResolve reg).2 with
      | error e =>
          refine ⟨_, Res.bind_ok.mpr ⟨((s.rt.callResolve reg).1.callFail retp reg e, .done e), ?_, rfl⟩⟩
          unfold callPrepare
          generalize s.rt.callResolve reg = o at hres
          obtain ⟨n, o⟩ := o
          cases hres
          rfl
      | ok x =>
          obtain ⟨i, tramp⟩ := x
          cases hd : s.rt.callDenied reg with
          | true =>
              refine ⟨_, Res.bind_ok.mpr
                ⟨((s.rt.callResolve reg).1.callFail retp reg xyErrEperm, .done xyErrEperm), ?_, rfl⟩⟩
              have hdeny := callDenied_resolve s.rt reg
              unfold callPrepare
              generalize s.rt.callResolve reg = o at hres hdeny
              obtain ⟨n, o⟩ := o
              cases hres
              simp only [hdeny, hd, if_true]
          | false =>
              obtain ⟨L, hc⟩ := runs_cachesOk h hlim
              obtain ⟨r, l, m, -, -, -, hpre, hwalk, -⟩ :=
                hc.call_walk retp h.inv hlim hres hd
              have hfin : Finishes E s.stack m (m.vectorFrame retp reg i tramp r).n
                  (m.vectorFrame retp reg i tramp r) _ := walk_finishes (Nat.zero_add _) hwalk rfl
              obtain ⟨x, hx, -⟩ := hfin
              exact ⟨x, Res.bind_ok.mpr ⟨_, hpre, hx⟩⟩

end Runs
end Xylem

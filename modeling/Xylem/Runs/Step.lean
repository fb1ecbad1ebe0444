import Xylem.Runs.Inv

namespace Xylem

open Xylem.Runtime

namespace Inv
variable {E : Env} {s t : State} {m n : Runtime} {stack : List Frame} {u v : Status}

theorem congr_status (hi : Inv E ⟨m, stack, u⟩) : Inv E ⟨m, stack, v⟩ :=
  ⟨hi.wf, hi.registry, hi.ctxs, hi.current, hi.frames⟩

/-- Elementary operations that leave the hooks and the current region alone. -/
theorem of_prims_same {g : RegionPtr → UInt8 → Prop} (hi : Inv E ⟨m, stack, u⟩)
    (hp : Prims E g (m, .none) (n, .none)) (hh : n.hooks = m.hooks)
    (h1 : n.currentRegionId = m.currentRegionId)
    (h2 : n.currentRegionEntry = m.currentRegionEntry) : Inv E ⟨n, stack, v⟩ := by
  refine of_prims hi hp (registry_of_hooks hh hi.registry) (fun hk => ?_) fun _ f hf => .inl hf
  rw [h1, h2]
  exact hi.current.keeps hk

theorem of_sameHeap (hi : Inv E ⟨m, stack, u⟩) (hs : SameHeap m n) (hreg : Registry n)
    (h1 : n.currentRegionId = m.currentRegionId)
    (h2 : n.currentRegionEntry = m.currentRegionEntry) : Inv E ⟨n, stack, v⟩ := by
  have hp : Prims E (fun _ _ => True) (m, .none) (n, .none) := .single (.scratch hs)
  refine of_prims hi hp hreg (fun hk => ?_) fun _ f hf => .inl hf
  rw [h1, h2]
  exact hi.current.keeps hk

theorem setCurrent (hi : Inv E ⟨m, stack, u⟩) {id : RegionId} {r : Option RegionPtr}
    (hpair : PairOk m id r) : Inv E ⟨m.setCurrentRegion id r, stack, v⟩ := by
  have hp : Prims E (fun _ _ => True) (m, .none) (m.setCurrentRegion id r, .none) :=
    .single (.scratch (setCurrentRegion_sameHeap _ _ _))
  exact of_prims hi hp ⟨hi.registry.lt, hi.registry.inj, hi.registry.sica, hi.registry.held⟩
    (fun hk => hpair.keeps hk) fun _ f hf => .inl hf

theorem push (hi : Inv E ⟨m, stack, u⟩) {f : Frame} (hf : FrameOk E m f) :
    Inv E ⟨m, f :: stack, v⟩ :=
  ⟨hi.wf, hi.registry, hi.ctxs, hi.current, fun g hg => by
    rcases List.mem_cons.mp hg with rfl | hg
    · exact hf
    · exact hi.frames g hg⟩

theorem pop {f : Frame} (hi : Inv E ⟨m, f :: stack, u⟩) : Inv E ⟨m, stack, v⟩ :=
  ⟨hi.wf, hi.registry, hi.ctxs, hi.current, fun g hg => hi.frames g (List.mem_cons_of_mem _ hg)⟩

/-- The loop of `xy_call`, from a state that satisfies the invariant. -/
theorem callLoop (hi : Inv E ⟨m, stack, u⟩) {f : CallFrame} {left : Nat} {ran : List EntryPtr}
    {r : Runtime × (Int ⊕ CallFrame)} (hid : (m.regionHd f.regionId).isSome)
    (hcaller : f.callerRegion < m.regionNext) (h : m.callLoop left f = .ok r) :
    Inv E (State.afterCall stack ran r) := by
  obtain ⟨n, r⟩ := r
  cases callLoop_effect h with
  | ends hret ht =>
      have hc : n.core = m.core := ht ▸ callFinish_core m f
      exact of_prims_same hi (g := fun _ _ => True) (callLoop_straight h).prims (congrArg Core.hooks hc)
        (congrArg Core.currentRegionId hc) (congrArg Core.currentRegionEntry hc)
  | enters k p me c he hc ht =>
      obtain ⟨id, r', heq, hcases⟩ := callEnter_eq m { f with mi := k } p me c
      obtain ⟨L, hw⟩ := hi.wf
      have hpair : PairOk m id r' := by
        rcases hcases with ⟨-, rfl, rfl⟩ | ⟨-, rfl, rfl⟩
        · exact hi.current
        · obtain ⟨x, hre, hx, -⟩ := hw.region_of he (by simp)
          refine ⟨hi.ctxs p me c he hc, fun y hy => ?_⟩
          cases hre.symm.trans hy
          exact (hw.tree.hd_node _ _ hx).1
      have hp : Prims E (fun _ _ => True) (m, .none) (n, .none) := (callLoop_straight h).prims
      have hreg : Registry n := by
        rw [ht, heq]
        exact ⟨hi.registry.lt, hi.registry.inj, hi.registry.sica, hi.registry.held⟩
      refine of_prims hi hp hreg (fun hk => ?_) fun hk g hg => ?_
      · rw [ht, heq] at hk ⊢
        exact hpair.keeps hk
      · rcases List.mem_cons.mp hg with rfl | hg
        · refine .inr (FrameOk.keeps (s := m) ⟨hid, hcaller, fun _ => ⟨hid, hi.current.entry⟩⟩ hk)
        · exact .inl hg

theorem callPrepare (hi : Inv E ⟨m, stack, u⟩) {retp : Option BufPtr} {reg : AdapterPtr}
    {out : Outcome CallFrame} (h : m.callPrepare E retp reg = .ok (n, out)) :
    Inv E ⟨n, stack, v⟩ ∧ ∀ f, out = .wait f →
      f.regionId = m.currentRegionId ∧ (n.regionHd f.regionId).isSome ∧
        m.callerRegion = some f.callerRegion ∧ f.callerRegion < n.regionNext := by
  have hres : Inv E ⟨(m.callResolve reg).1, stack, u⟩ := by
    obtain ⟨a, ha, -⟩ := callResolve_spec m reg
    refine of_sameHeap hi (callResolve_sameHeap m reg) (callResolve_registry hi.registry reg) ?_ ?_ <;>
      rw [ha]
  obtain ⟨x, hcaller, hxlt⟩ : ∃ x, m.callerRegion = some x ∧ x < m.regionNext := by
    obtain ⟨L, hw⟩ := hi.wf
    obtain ⟨y, hy⟩ := Option.isSome_iff_exists.mp hi.current.id
    cases hx : m.currentRegionEntry with
    | some x => exact ⟨x, by simp [callerRegion, hx], hi.current.entry x hx⟩
    | none =>
        have hy' : m.regionLookup m.currentRegionId = some y := hy
        exact ⟨y, by simp [callerRegion, hx, hy'], (hw.tree.hd_node _ _ hy).1⟩
  have hfail : ∀ ret, Inv E ⟨(m.callResolve reg).1.callFail retp reg ret, stack, v⟩ := by
    intro ret
    have hc := callFail_core (m.callResolve reg).1 retp reg ret
    obtain ⟨bufs, p, b, heq⟩ := callFail_eq (m.callResolve reg).1 retp reg ret
    refine of_sameHeap hres ?_ (registry_of_hooks (congrArg Core.hooks hc) hres.registry)
      (congrArg Core.currentRegionId hc) (congrArg Core.currentRegionEntry hc)
    rw [heq]
    exact ⟨rfl, rfl, rfl, rfl, rfl, rfl, rfl, rfl, rfl, rfl, rfl, rfl, List.prefix_rfl⟩
  cases callPrepare_way h with
  | fails ret hr => exact ⟨hfail ret, fun f hf => by cases hf⟩
  | denied i call hr hd => exact ⟨hfail xyErrEperm, fun f hf => by cases hf⟩
  | nowhere i call hr hd hc => rw [hcaller] at hc; cases hc
  | loops i call hr hd r hc t ht =>
      have hb : Inv E ⟨(m.callResolve reg).1.callBegin retp reg, stack, u⟩ :=
        of_sameHeap hres ⟨rfl, rfl, rfl, rfl, rfl, rfl, rfl, rfl, rfl, rfl, rfl, rfl, List.prefix_rfl⟩
          ⟨hres.registry.lt, hres.registry.inj, hres.registry.sica, hres.registry.held⟩ rfl rfl
      have hcore := callVector_core ht
      have hlook : ((m.callResolve reg).1.callBegin retp reg).hookIdHd.lookup
          (m.adapters reg).name = some i :=
        (callResolve_sameHeap m reg).hookIdHd ▸ callResolve_lookup hi.registry hr
      have hinv : Inv E ⟨n, stack, v⟩ :=
        of_prims_same hb (g := fun _ _ => True) (callVector_straight hlook ht).prims
          (congrArg Core.hooks hcore) (congrArg Core.currentRegionId hcore)
          (congrArg Core.currentRegionEntry hcore)
      have hsame : n.currentRegionId = m.currentRegionId := by
        obtain ⟨a, ha, -⟩ := callResolve_spec m reg
        refine (congrArg Core.currentRegionId hcore).trans ?_
        show (m.callResolve reg).1.currentRegionId = _
        rw [ha]
      have hnext : n.regionNext = m.regionNext := by
        refine (congrArg (fun c => c.tree.next) hcore).trans ?_
        exact (callResolve_sameHeap m reg).regionNext
      refine ⟨hinv, fun f hf => ?_⟩
      cases hf
      have hid := hinv.current.id
      refine ⟨rfl, ?_, hc, ?_⟩
      · show (n.regionHd m.currentRegionId).isSome
        rw [← hsame]
        exact hid
      · rw [hcaller, Option.some.injEq] at hc
        subst hc
        exact hnext ▸ hxlt

theorem call (hi : Inv E s) {retp : Option BufPtr} {reg : Option AdapterPtr}
    {r : Runtime × (Int ⊕ CallFrame)} (h : s.rt.xyCall E retp reg = .ok r) :
    Inv E (State.afterCall s.stack [] r) := by
  cases reg with
  | none =>
      simp only [xyCall, Except.ok.injEq] at h
      subst h
      exact of_sameHeap hi (setErr_sameHeap _ _)
        ⟨hi.registry.lt, hi.registry.inj, hi.registry.sica, hi.registry.held⟩ rfl rfl
  | some reg =>
      obtain ⟨⟨m, out⟩, hm, h⟩ := Res.bind_ok.mp h
      cases out with
      | done ret =>
          cases h
          exact (callPrepare hi hm).1
      | wait f =>
          obtain ⟨h1, h2⟩ := callPrepare (v := s.status) hi hm
          obtain ⟨-, h3, -, h4⟩ := h2 f rfl
          exact callLoop h1 h3 h4 h

theorem bodyLeft_inv (hi : Inv E ⟨m, .body f :: stack, u⟩) (result : Bytes) :
    Inv E ⟨m.bodyLeft f result, stack, v⟩ := by
  obtain ⟨h1, h2, h3⟩ := hi.frames (.body f) List.mem_cons_self
  -- the callback's region is left, whatever was written before
  have leave : ∀ n : Runtime, Inv E ⟨n, stack, u⟩ →
      (f.regionChanged = true → PairOk n f.regionId f.prevRentry) →
      Inv E ⟨if f.regionChanged then n.setCurrentRegion f.regionId f.prevRentry else n, stack, v⟩ := by
    intro n hn hpair
    cases hc : f.regionChanged with
    | false => exact hn.congr_status
    | true => exact hn.setCurrent (hpair hc)
  unfold bodyLeft
  cases f.retp with
  | none => exact leave m hi.pop h3
  | some b =>
      refine leave (m.writeBuf b result) ?_ fun hc => ⟨(h3 hc).id, (h3 hc).entry⟩
      exact of_sameHeap hi.pop (u := u) (writeBuf_sameHeap _ _ _)
        ⟨hi.registry.lt, hi.registry.inj, hi.registry.sica, hi.registry.held⟩ rfl rfl

theorem bodyReturn {f : CallFrame} (hi : Inv E ⟨m, .body f :: stack, u⟩) {result : Bytes}
    {ran : List EntryPtr} {r : Runtime × (Int ⊕ CallFrame)} (h : m.bodyReturn f result = .ok r) :
    Inv E (State.afterCall stack ran r) := by
  obtain ⟨h1, h2, -⟩ := hi.frames (.body f) List.mem_cons_self
  refine callLoop (bodyLeft_inv hi result (v := u)) ?_ ?_ (bodyReturn_ok h)
  · unfold bodyLeft
    cases f.retp <;> cases f.regionChanged <;> exact h1
  · unfold bodyLeft
    cases f.retp <;> cases f.regionChanged <;> exact h2

theorem afterLoad (hi : Inv E ⟨m, stack, u⟩) {g : RegionPtr → UInt8 → Prop} {k : Runtime}
    {reload : Option ReloadFrame} {out : Outcome LoadFrame}
    (hp : Prims E g (m, .none) (n, .none)) (hf : LoadFrameOk k n reload out)
    (hk : k.hooks = m.hooks ∧ k.currentRegionId = m.currentRegionId ∧
      k.currentRegionEntry = m.currentRegionEntry)
    (hr : ∀ rf, reload = some rf → Keeps m n → n.ReloadOk E rf) :
    Inv E (State.afterLoad stack (n, out)) := by
  obtain ⟨hhooks, hid, hentry⟩ := hk
  have hreg : Registry n := registry_of_hooks (hf.hooks.trans hhooks) hi.registry
  cases out with
  | done ret =>
      obtain ⟨h1, h2, -⟩ := hf.done ret rfl
      exact of_prims_same hi hp (hf.hooks.trans hhooks) (h1.trans hid) (h2.trans hentry)
  | wait f =>
      obtain ⟨rfl, -, r, h1, h2⟩ := hf.wait f rfl
      refine of_prims hi hp hreg (fun hk => ?_) fun hk g hg => ?_
      · obtain ⟨L, hw⟩ := hk.wf
        refine ⟨Option.isSome_iff_exists.mpr ⟨r, h2⟩, fun y hy => ?_⟩
        cases h1.symm.trans hy
        exact (hw.tree.hd_node _ _ h2).1
      · rcases List.mem_cons.mp hg with rfl | hg
        · refine .inr ⟨?_, fun rf hrf => hr rf hrf hk⟩
          show PairOk n k.currentRegionId k.currentRegionEntry
          rw [hid, hentry]
          exact hi.current.keeps hk
        · exact .inl hg

theorem load (hi : Inv E s) {fname : String} {ch : LoadChoice} {r : Runtime × Outcome LoadFrame}
    (h : s.rt.xyLoad E fname ch = .ok r) : Inv E (State.afterLoad s.stack r) := by
  obtain ⟨⟨n, out⟩, hm, h⟩ := Res.bind_ok.mp h
  obtain ⟨L, hw⟩ := hi.wf
  have hp := modLoad_prims hw hi.current.id hm
  have hf := (modLoad_effect hw hi.current.id hm).frame
  cases out with
  | done ret =>
      simp only [Except.ok.injEq] at h
      subst h
      have hf' : LoadFrameOk s.rt (n.setErr ret) none (.done ret) := by
        refine ⟨hf.hooks, fun r hr => ?_, fun f hc => by cases hc⟩
        cases hr
        exact hf.done ret rfl
      exact afterLoad hi (hp.tail (.scratch (setErr_sameHeap _ _))) hf' ⟨rfl, rfl, rfl⟩
        fun rf hrf => by cases hrf
  | wait f =>
      simp only [Except.ok.injEq] at h
      subst h
      exact afterLoad hi hp hf ⟨rfl, rfl, rfl⟩ fun rf hrf => by cases hrf

theorem reload (hi : Inv E s) {fname : String} {ch : LoadChoice} {fuel : Nat}
    {r : Runtime × Outcome LoadFrame} (h : s.rt.xyReload E fuel fname ch = .ok r) :
    Inv E (State.afterLoad s.stack r) := by
  obtain ⟨n, out⟩ := r
  obtain ⟨L, hw⟩ := hi.wf
  obtain ⟨heff, hp⟩ := xyReload_spec hw hi.ctxs hi.current.id h
  have unloaded : ∀ {m ret}, s.rt.modUnload E fuel fname s.rt.currentRegionId = .ok (m, ret) →
      m.hooks = s.rt.hooks ∧ m.currentRegionId = s.rt.currentRegionId ∧
        m.currentRegionEntry = s.rt.currentRegionEntry := by
    intro m ret hu
    have hc := (modUnload_unloaded fuel hu).core
    exact ⟨congrArg Core.hooks hc, congrArg Core.currentRegionId hc, congrArg Core.currentRegionEntry hc⟩
  cases heff with
  | missing hl ht =>
      exact of_prims_same hi hp (congrArg Core.hooks ht) (congrArg Core.currentRegionId ht)
        (congrArg Core.currentRegionEntry ht)
  | back p e hl he m hu m' ret hload ht =>
      have hf := hload.frame
      obtain ⟨h1, h2, h3⟩ := hf.done ret rfl
      obtain ⟨k1, k2, k3⟩ := unloaded hu
      refine of_prims_same hi hp ((congrArg Core.hooks ht).trans (hf.hooks.trans k1))
        ((congrArg Core.currentRegionId ht).trans (h1.trans k2))
        ((congrArg Core.currentRegionEntry ht).trans (h2.trans k3))
  | waits p e hl he m hu f hload =>
      obtain ⟨k1, k2, k3⟩ := unloaded hu
      refine afterLoad hi hp hload.frame ⟨k1, k2, k3⟩ fun rf hrf hk => ?_
      cases hrf
      exact (reloadOk_start hw hl he).keeps hk

theorem unload (hi : Inv E s) {fname : String} {fuel : Nat} {r : Runtime × Int}
    (h : s.rt.xyUnload E fuel fname = .ok r) : Inv E (s.back r) := by
  obtain ⟨⟨n, ret⟩, hu, h⟩ := Res.bind_ok.mp h
  simp only [Except.ok.injEq] at h
  subst h
  have hc := (modUnload_unloaded fuel hu).core
  exact of_prims_same hi (g := fun _ _ => True)
    ((modUnload_prims fuel hu).tail (.scratch (setErr_sameHeap _ _)))
    (congrArg Core.hooks hc) (congrArg Core.currentRegionId hc) (congrArg Core.currentRegionEntry hc)

theorem installReturn {f : LoadFrame} (hi : Inv E ⟨m, .install f :: stack, u⟩)
    (h : m.installReturn E f = .ok n) : Inv E ⟨n, stack, v⟩ := by
  obtain ⟨hpair, hrel⟩ := hi.frames (.install f) List.mem_cons_self
  have h0 : Inv E ⟨m.modLoadFinish f, stack, u⟩ := by
    have h1 : Inv E ⟨{ m with loadingMod := f.prevLoadingMod }, stack, u⟩ :=
      of_sameHeap hi.pop (u := u) ⟨rfl, rfl, rfl, rfl, rfl, rfl, rfl, rfl, rfl, rfl, rfl, rfl,
        List.prefix_rfl⟩
        ⟨hi.registry.lt, hi.registry.inj, hi.registry.sica, hi.registry.held⟩ rfl rfl
    exact h1.setCurrent ⟨hpair.id, hpair.entry⟩
  unfold Runtime.installReturn at h
  simp only at h
  cases hr : f.reload with
  | none =>
      simp only [hr, Except.ok.injEq] at h
      subst h
      exact of_sameHeap h0 (setErr_sameHeap _ _)
        ⟨hi.registry.lt, hi.registry.inj, hi.registry.sica, hi.registry.held⟩ rfl rfl
  | some rf =>
      simp only [hr, Res.bind_ok, Except.ok.injEq] at h
      obtain ⟨v, hv, rfl⟩ := h
      have h1 : Inv E ⟨{ m.modLoadFinish f with reloading := false }, stack, u⟩ :=
        of_sameHeap h0 (reloading_sameHeap _ _)
          ⟨hi.registry.lt, hi.registry.inj, hi.registry.sica, hi.registry.held⟩ rfl rfl
      obtain ⟨L, hw⟩ := h1.wf
      have hok : ReloadOk E { m.modLoadFinish f with reloading := false } rf :=
        ⟨(hrel rf hr).region, (hrel rf hr).anchor⟩
      have hc := xyReloadFinish_core hw hok hv
      exact of_prims_same h1 (g := fun _ _ => True)
        ((xyReloadFinish_prims hw hok hv).tail (.scratch (setErr_sameHeap _ _)))
        (congrArg Core.hooks hc) (congrArg Core.currentRegionId hc)
        (congrArg Core.currentRegionEntry hc)

end Inv

namespace Runtime
variable {s : Runtime}

/-- `re'` has other rules than `re`, and perhaps another generation. -/
def OtherRules (re re' : RegionEntry) : Prop :=
  ∃ node gen, re' = { re with toRegionNode := node, dispatchGen := gen }

theorem OtherRules.refl (re : RegionEntry) : OtherRules re re := ⟨_, _, rfl⟩

theorem OtherRules.trans {a b c : RegionEntry} (h : OtherRules a b) (k : OtherRules b c) :
    OtherRules a c := by
  obtain ⟨n, g, rfl⟩ := h
  obtain ⟨n', g', rfl⟩ := k
  exact ⟨n', g', rfl⟩

/-- Only regions differ, and they in their rules. -/
def RulesOnly (s t : Runtime) : Prop :=
  ∃ R, t = { s with regions := R } ∧ ∀ r, OtherRules (s.regions r) (R r)

theorem RulesOnly.trans {t u : Runtime} (h : RulesOnly s t) (k : RulesOnly t u) : RulesOnly s u := by
  obtain ⟨R, rfl, hR⟩ := h
  obtain ⟨R', rfl, hR'⟩ := k
  exact ⟨R', rfl, fun r => (hR r).trans (hR' r)⟩

theorem setRegion_rules (s : Runtime) (r : RegionPtr) {f : RegionEntry → RegionEntry}
    (hf : ∀ re, OtherRules re (f re)) : RulesOnly s (s.setRegion r f) := by
  refine ⟨_, rfl, fun x => ?_⟩
  by_cases hx : x = r
  · subst hx
    rw [Function.update_self]
    exact hf _
  · rw [Function.update_of_ne hx]
    exact .refl _

theorem foldl_setRegion_rules {f : RegionEntry → RegionEntry} (hf : ∀ re, OtherRules re (f re))
    (l : List RegionPtr) (s : Runtime) : RulesOnly s (l.foldl (fun s e => s.setRegion e f) s) := by
  induction l generalizing s with
  | nil => exact ⟨s.regions, rfl, fun _ => .refl _⟩
  | cons r l ih => exact (setRegion_rules s r hf).trans (ih _)

theorem xyDeny_rules (E : Env) (s : Runtime) (what : String) (type : DenyType) {r : RegionPtr}
    (hr : s.regionLookup s.currentRegionId = some r) :
    ∃ R, (s.xyDeny E what type).1 =
      { s with regions := R, genBumps := s.genBumps + 1, errVal := xyOk } ∧
      ∀ x, OtherRules (s.regions x) (R x) := by
  have h1 : ∃ m, RulesOnly s m ∧ (s.xyDeny E what type).1 =
      ((m.regionPropagateDeny r).regionDispatchGenBump r).setErr xyOk := by
    simp only [xyDeny, hr]
    cases type
    · exact ⟨_, setRegion_rules s r fun re => ⟨_, _, rfl⟩, rfl⟩
    · exact ⟨_, setRegion_rules s r fun re => ⟨_, _, rfl⟩, rfl⟩
  obtain ⟨m, hm, heq⟩ := h1
  have h2 : RulesOnly m (m.regionPropagateDeny r) :=
    foldl_setRegion_rules (fun re => ⟨_, _, rfl⟩) _ _
  have h3 : RulesOnly (m.regionPropagateDeny r) (((m.regionPropagateDeny r).upward r).foldl
      (fun s e => s.setRegion e fun re => { re with dispatchGen := genSucc re.dispatchGen })
      (m.regionPropagateDeny r)) := foldl_setRegion_rules (fun re => ⟨_, _, rfl⟩) _ _
  obtain ⟨R, hR, hrules⟩ := (hm.trans h2).trans h3
  refine ⟨R, ?_, hrules⟩
  rw [heq, regionDispatchGenBump, hR]
  rfl

def gateEntry (fn : Option HandlerPtr) (ud : Nat) (re : RegionEntry) : RegionEntry :=
  { re with
    claimHandler := fn, claimHandlerUd := if fn.isSome then ud else 0, requireClaim := fn.isSome }

theorem xyRequireClaim_rules (s : Runtime) (fn : Option HandlerPtr) (ud : Nat) {r : RegionPtr}
    (hr : s.regionLookup s.currentRegionId = some r) :
    (s.xyRequireClaim fn ud).1.tree = s.tree.gate r fn ud ∧
      ∃ R, (s.xyRequireClaim fn ud).1 = { s with regions := R, errVal := xyOk } ∧
        ∀ x, OtherRules (s.regions x) (R x) := by
  have h : (s.xyRequireClaim fn ud).1 = (s.setRegion r (gateEntry fn ud)).setErr xyOk := by
    simp only [xyRequireClaim, hr]
    cases fn <;> rfl
  refine ⟨?_, ?_⟩
  · rw [h, core_tree (setErr_core _ _)]
    exact setRegion_tree s r (gateEntry fn ud) (fun re => { re with
      claimHandler := fn, claimHandlerUd := if fn.isSome then ud else 0, requireClaim := fn.isSome })
      fun _ => rfl
  · obtain ⟨R, hR, hrules⟩ := setRegion_rules s r (f := gateEntry fn ud) fun re => ⟨_, _, rfl⟩
    exact ⟨R, by rw [h, hR]; rfl, hrules⟩

theorem xyLast_eq (s : Runtime) (ret : Option BufPtr) :
    ∃ bufs e, (s.xyLast ret).1 = { s with bufs := bufs, errVal := e } := by
  unfold xyLast
  split
  · exact ⟨s.bufs, _, rfl⟩
  · split
    · exact ⟨s.bufs, _, rfl⟩
    · dsimp only
      split
      · exact ⟨_, _, rfl⟩
      · exact ⟨_, _, rfl⟩
      · exact ⟨s.bufs, _, rfl⟩

/-- The registry with the adapter `reg` added under a new hook id. -/
def register (s : Runtime) (reg : AdapterPtr) : Runtime :=
  let a := s.adapters reg
  let hookId := s.hookIdCounter
  { s with
    sicaHd := Function.update s.sicaHd a.name (some reg)
    hookIdCounter := hookId + 1
    hookIdHd := s.hookIdHd.insert a.name hookId
    adapters := Function.update s.adapters reg { a with hookId := some hookId }
    adapterByIdCap := if s.adapterByIdCap ≤ hookId then hookId + 16 else s.adapterByIdCap
    adapterById := Function.update s.adapterById hookId (some reg) }

theorem xyAreg_cases (E : Env) (s : Runtime) (a : AdapterPtr) :
    (∃ e, (s.xyAreg E a).1 = s.setErr e) ∨
      s.sicaHd (s.adapters a).name = none ∧ (s.xyAreg E a).1 =
        ((s.register a).mapEntries (s.modEntries E)
          (ModEntry.fnCachePrewarm E (s.register a).hookIdHd.entries)).setErr xyOk := by
  unfold xyAreg
  simp only
  split
  · exact .inl ⟨_, rfl⟩
  · split
    · exact .inl ⟨s.errVal, rfl⟩
    · rename_i hs
      exact .inr ⟨hs, rfl⟩

/-- A new hook id is above all others and under a name that had none. -/
theorem register_registry (h : Registry s) {a : AdapterPtr}
    (hs : s.sicaHd (s.adapters a).name = none) : Registry (s.register a) := by
  have hnone : s.hookIdHd.lookup (s.adapters a).name = none := by
    have := h.sica (s.adapters a).name
    rw [hs] at this
    exact Option.isNone_iff_eq_none.mp (by simpa using this.symm)
  have hlook : ∀ name, (s.register a).hookIdHd.lookup name =
      if name = (s.adapters a).name then some s.hookIdCounter else s.hookIdHd.lookup name := by
    intro name
    show (s.hookIdHd.insert (s.adapters a).name s.hookIdCounter).lookup name = _
    split
    · rename_i hn
      rw [hn]
      exact AList.lookup_insert _
    · rename_i hn
      exact AList.lookup_insert_ne hn
  constructor
  · intro name id hid
    show id < s.hookIdCounter + 1
    rw [hlook] at hid
    split at hid
    · cases hid
      exact Nat.lt_succ_self _
    · exact (h.lt name id hid).trans (Nat.lt_succ_self _)
  · intro name name' id hid hid'
    rw [hlook] at hid hid'
    split at hid <;> split at hid'
    · rename_i h1 h2
      rw [h1, h2]
    · cases hid
      exact absurd (h.lt _ _ hid') (lt_irrefl _)
    · cases hid'
      exact absurd (h.lt _ _ hid) (lt_irrefl _)
    · exact h.inj _ _ id hid hid'
  · intro name
    rw [hlook]
    show (Function.update s.sicaHd (s.adapters a).name (some a) name).isSome = _
    rw [Function.update_apply]
    split
    · rfl
    · exact h.sica name
  · intro b id hb
    rw [hlook]
    have hname : ((s.register a).adapters b).name = (s.adapters b).name := by
      show (Function.update s.adapters a { s.adapters a with hookId := some s.hookIdCounter } b).name = _
      rw [Function.update_apply]
      split
      · rename_i hba
        rw [hba]
      · rfl
    rw [hname]
    have hb' : (Function.update s.adapters a
        { s.adapters a with hookId := some s.hookIdCounter } b).hookId = some id := hb
    rw [Function.update_apply] at hb'
    split at hb'
    · rename_i hba
      rw [hba, if_pos rfl]
      exact hb'
    · have h1 := h.held b id hb'
      rw [if_neg, h1]
      intro hn
      rw [hn, hnone] at h1
      cases h1

end Runtime

namespace Inv
variable {E : Env} {s t : State} {m n : Runtime} {stack : List Frame} {u v : Status}

/-- New rules, with a tree that is still in order, keep the invariant. -/
theorem of_rules (hi : Inv E ⟨m, stack, u⟩) {R : RegionPtr → RegionEntry} {g : Nat} {e : Int}
    (htree : ({ m with regions := R, genBumps := g, errVal := e } : Runtime).tree.Ok)
    (hR : ∀ r, OtherRules (m.regions r) (R r)) :
    Inv E ⟨{ m with regions := R, genBumps := g, errVal := e }, stack, v⟩ := by
  obtain ⟨L, hw⟩ := hi.wf
  have hhead : ∀ r, (R r).modsHead = (m.regions r).modsHead ∧
    (R r).modsTail = (m.regions r).modsTail := by
    intro r
    obtain ⟨node, gen, h⟩ := hR r
    rw [h]
    exact ⟨rfl, rfl⟩
  have hk : Keeps m { m with regions := R, genBumps := g, errVal := e } :=
    ⟨⟨L, hw.congr htree rfl rfl rfl (fun _ => rfl) (fun _ _ => rfl) (fun r => (hhead r).1)
      (fun r => (hhead r).2) fun _ _ => id⟩,
      hi.ctxs, fun _ _ => id, le_rfl, le_rfl, fun _ _ e he => ⟨e, he, rfl⟩⟩
  exact ⟨hk.wf, ⟨hi.registry.lt, hi.registry.inj, hi.registry.sica, hi.registry.held⟩, hk.ctxs,
    hi.current.keeps hk, fun f hf => (hi.frames f hf).keeps hk⟩

theorem deny (hi : Inv E s) (what : String) (type : DenyType) :
    Inv E (s.back (s.rt.xyDeny E what type)) := by
  obtain ⟨L, hw⟩ := hi.wf
  obtain ⟨r, hr⟩ := Option.isSome_iff_exists.mp hi.current.id
  have htree := xyDeny_tree E s.rt what type
  simp only [regionLookup, hr] at htree
  obtain ⟨R, hR, hrules⟩ := xyDeny_rules E s.rt what type hr
  have hok : (s.rt.xyDeny E what type).1.tree.Ok :=
    htree ▸ hw.tree.deny E (hw.tree.hd_node _ _ hr).1 what type
  rw [State.back, hR]
  rw [hR] at hok
  exact of_rules hi hok hrules

theorem requireClaim (hi : Inv E s) (fn : Option HandlerPtr) (ud : Nat) :
    Inv E (s.back (s.rt.xyRequireClaim fn ud)) := by
  obtain ⟨L, hw⟩ := hi.wf
  obtain ⟨r, hr⟩ := Option.isSome_iff_exists.mp hi.current.id
  obtain ⟨htree, R, hR, hrules⟩ := xyRequireClaim_rules s.rt fn ud hr
  have hok : (s.rt.xyRequireClaim fn ud).1.tree.Ok :=
    htree ▸ hw.tree.gate (hw.tree.hd_node _ _ hr).1 fn ud
  rw [State.back, hR]
  rw [hR] at hok
  exact of_rules hi hok hrules

theorem areg (hi : Inv E s) (a : AdapterPtr) : Inv E (s.back (s.rt.xyAreg E a)) := by
  rcases xyAreg_cases E s.rt a with ⟨e, h⟩ | ⟨hs, h⟩
  · rw [State.back, h]
    exact of_sameHeap hi (setErr_sameHeap _ _)
      ⟨hi.registry.lt, hi.registry.inj, hi.registry.sica, hi.registry.held⟩ rfl rfl
  · rw [State.back, h]
    have hreg := register_registry hi.registry hs
    obtain ⟨L, hw⟩ := hi.wf
    have hw1 : WF (s.rt.register a) none L :=
      hw.congr hw.tree rfl rfl rfl (fun _ => rfl) (fun _ _ => rfl) (fun _ => rfl) (fun _ => rfl)
        fun _ _ => id
    have hw2 : WF ((s.rt.register a).mapEntries (s.rt.modEntries E)
        (ModEntry.fnCachePrewarm E (s.rt.register a).hookIdHd.entries)) none L :=
      hw1.mapEntries_same fun e => by
        obtain ⟨h1, h2, h3⟩ := fnCachePrewarm_same (E := E) (s.rt.register a).hookIdHd.entries e
        exact ⟨WF.stub_of_core h1, h2, h3⟩
    have hcore : ((s.rt.register a).mapEntries (s.rt.modEntries E)
        (ModEntry.fnCachePrewarm E (s.rt.register a).hookIdHd.entries)).core = (s.rt.register a).core :=
      mapEntries_core fun e => ModEntry.fnCachePrewarm_core E _ e
    generalize (s.rt.register a).mapEntries (s.rt.modEntries E)
        (ModEntry.fnCachePrewarm E (s.rt.register a).hookIdHd.entries) = n at hw2 hcore
    have hk : Keeps s.rt (n.setErr xyOk) := by
      have hctx : (s.rt.register a).CtxsKnown := hi.ctxs
      refine ⟨⟨L, hw2.congr hw2.tree rfl rfl rfl (fun _ => rfl) (fun _ _ => rfl) (fun _ => rfl)
        (fun _ => rfl) fun _ _ => id⟩, hctx.of_core hcore, fun id r hr => ?_, ?_, ?_, ?_⟩
      · exact (congrFun (congrArg (fun c => c.tree.hd) hcore) id).trans hr
      · exact (congrArg (fun c => c.tree.next) hcore).ge
      · exact (congrArg Core.entryNext hcore).ge
      · exact OldKept.of_core (s := s.rt.register a) hcore
    refine ⟨hk.wf, registry_of_hooks (congrArg Core.hooks hcore) hreg, hk.ctxs, ?_,
      fun f hf => (hi.frames f hf).keeps hk⟩
    exact pair_of_core hcore ⟨hi.current.id, hi.current.entry⟩

theorem step {e : Event} (hi : Inv E s) (h : Xylem.step E s e = .ok t) : Inv E t := by
  cases e with
  | areg a =>
      cases h
      exact hi.areg a
  | selfInitCtx c =>
      cases h
      exact of_sameHeap hi ⟨rfl, rfl, rfl, rfl, rfl, rfl, rfl, rfl, rfl, rfl, rfl, rfl, List.prefix_rfl⟩
        ⟨hi.registry.lt, hi.registry.inj, hi.registry.sica, hi.registry.held⟩ rfl rfl
  | load fname ch =>
      obtain ⟨r, hr, rfl⟩ := Res.map_ok.mp h
      exact hi.load hr
  | unload fname fuel =>
      obtain ⟨r, hr, rfl⟩ := Res.map_ok.mp h
      exact hi.unload hr
  | reload fname ch fuel =>
      obtain ⟨r, hr, rfl⟩ := Res.map_ok.mp h
      exact hi.reload hr
  | deny what type =>
      cases h
      exact hi.deny what type
  | requireClaim fn ud =>
      cases h
      exact hi.requireClaim fn ud
  | call retp reg =>
      obtain ⟨r, hr, rfl⟩ := Res.map_ok.mp h
      exact hi.call hr
  | last ret =>
      cases h
      obtain ⟨bufs, e, hl⟩ := xyLast_eq s.rt ret
      rw [State.back, hl]
      exact of_sameHeap hi ⟨rfl, rfl, rfl, rfl, rfl, rfl, rfl, rfl, rfl, rfl, rfl, rfl, List.prefix_rfl⟩
        ⟨hi.registry.lt, hi.registry.inj, hi.registry.sica, hi.registry.held⟩ rfl rfl
  | withRegion id =>
      cases h
      unfold xyWithRegion
      cases hr : s.rt.regionLookup id with
      | none =>
          exact of_sameHeap hi (setErr_sameHeap _ _)
            ⟨hi.registry.lt, hi.registry.inj, hi.registry.sica, hi.registry.held⟩ rfl rfl
      | some r =>
          obtain ⟨L, hw⟩ := hi.wf
          have hpair : PairOk s.rt id (some r) :=
            ⟨Option.isSome_iff_exists.mpr ⟨r, hr⟩, fun y hy => by
              cases hy
              exact (hw.tree.hd_node _ _ hr).1⟩
          have h1 : Inv E ⟨s.rt.setCurrentRegion id (some r), s.stack, .entered⟩ :=
            setCurrent (u := s.status) hi hpair
          exact h1.push ⟨hi.current.id, hi.current.entry⟩
  | bodyRet result =>
      simp only [Xylem.step] at h
      split at h
      · rename_i f rest hst
        obtain ⟨r, hr, rfl⟩ := Res.map_ok.mp h
        exact bodyReturn (u := s.status) (hst ▸ hi) hr
      · cases h
  | installRet =>
      simp only [Xylem.step] at h
      split at h
      · rename_i f rest hst
        obtain ⟨r, hr, rfl⟩ := Res.map_ok.mp h
        exact installReturn (u := s.status) (hst ▸ hi) hr
      · cases h
  | scopeRet code =>
      simp only [Xylem.step] at h
      split at h
      · rename_i id entry rest hst
        cases h
        have hi' : Inv E ⟨s.rt, .scope id entry :: rest, s.status⟩ := hst ▸ hi
        have hpair : PairOk s.rt id entry := hi'.frames (.scope id entry) List.mem_cons_self
        have h1 : Inv E ⟨s.rt.setCurrentRegion id entry, rest, s.status⟩ :=
          setCurrent (u := s.status) hi'.pop hpair
        exact of_sameHeap h1 (setErr_sameHeap _ _)
          ⟨hi.registry.lt, hi.registry.inj, hi.registry.sica, hi.registry.held⟩ rfl rfl
      · cases h

theorem boot_node (h : Boot s) (r : RegionPtr) : s.rt.tree.node r = {} := by
  show (s.rt.regions r).toRegionNode = {}
  rcases Nat.eq_zero_or_pos r with rfl | hr
  · rw [h.root]
  · rw [h.fresh r hr]

/-- The tree of a runtime that has just been initialised: the root alone. -/
theorem boot_tree (h : Boot s) : s.rt.tree.Ok := by
  have hnode := boot_node h
  have hpar : ∀ r, s.rt.tree.parentOf r = none := by
    intro r
    rw [Tree.parentOf, hnode]
  have hnext : s.rt.tree.next = 1 := h.regionNext
  have hhd : ∀ id, s.rt.tree.hd id = if id = xyRegionRoot then some 0 else none := h.regionHd
  constructor
  · intro r p hp
    rw [hpar] at hp
    cases hp
  · intro r p hp
    rw [hpar] at hp
    cases hp
  · exact fun r _ => hnode r
  · intro id r hr
    rw [hhd] at hr
    split at hr
    · rename_i hid
      cases hr
      rw [hnext, hnode, hid]
      exact ⟨Nat.one_pos, rfl⟩
    · cases hr
  · intro r hr
    rw [hnext] at hr
    obtain rfl : r = 0 := Nat.lt_one_iff.mp hr
    rw [hnode, hhd]
    rfl
  · intro r hr _
    rw [hnext] at hr
    exact Nat.lt_one_iff.mp hr
  · intro x y
    rw [hnode, hpar]
    simp
  · intro x
    rw [hnode]
    exact List.nodup_nil
  · intro r p hp
    rw [hpar] at hp
    cases hp
  · intro r
    rw [hnode]
    exact Nat.zero_le _
  · intro r p hp
    rw [hpar] at hp
    cases hp
  · intro r hr
    rw [hnode] at hr
    simp at hr
  · intro r hr
    rw [hnode] at hr
    exact absurd rfl hr
  · intro r
    rw [hnode]
    rfl

theorem boot (h : Boot s) : Inv E s := by
  have hno : ∀ p, s.rt.entries p = none := fun p => by rw [h.entries]
  have hend : ∀ r, (s.rt.regions r).modsHead = none ∧ (s.rt.regions r).modsTail = none := by
    intro r
    rcases Nat.eq_zero_or_pos r with rfl | hr
    · rw [h.root]
      exact ⟨rfl, rfl⟩
    · rw [h.fresh r hr]
      exact ⟨rfl, rfl⟩
  have hroot : s.rt.regionHd xyRegionRoot = some 0 := (h.regionHd _).trans (if_pos rfl)
  refine ⟨⟨fun _ => [], ⟨boot_tree h, fun p _ => hno p, ?_, ?_, ?_, ?_, ?_, ?_, ?_, ?_⟩⟩, h.registry,
    ?_, ⟨?_, ?_⟩, ?_⟩
  · intro p e he
    rw [hno] at he
    cases he
  · intro k p hk
    rw [h.modHd, AList.lookup_empty] at hk
    cases hk
  · intro p e he
    rw [hno] at he
    cases he
  · exact fun p q hp => absurd (hno p) hp
  · exact fun r => ⟨List.nodup_nil, (hend r).1, (hend r).2, trivial⟩
  · intro r p hp
    cases hp
  · exact fun p hp => absurd (hno p) hp
  · intro p hp
    cases hp
  · intro p e c he
    rw [hno] at he
    cases he
  · rw [h.currentRegionId, hroot]
    rfl
  · rw [h.currentRegionEntry, h.regionNext]
    intro x hx
    cases hx
    exact Nat.one_pos
  · rw [h.stack]
    intro f hf
    cases hf

end Inv

/-- The invariant holds in every state a run passes, and at its end. -/
theorem Runs.inv {E : Env} {s₀ s : State} {tr : List (State × Event)} (h : Runs E s₀ tr s) :
    Inv E s :=
  h.2.invariant (C := fun _ _ _ => True) (fun _ _ _ hs _ hi => hi.step hs) (fun _ _ _ _ => trivial)
    (Inv.boot h.1)

end Xylem

import Xylem.Runs.ClearSlots
import Xylem.Runs.Trampolines

namespace Xylem

open Xylem.Runtime

namespace Runtime
variable {s t n : Runtime} {E : Env} {A R : RegionPtr} {path : String} {i k left : Nat}
  {L : RegionPtr → List EntryPtr} {f g : CallFrame} {retp : Option BufPtr} {reg : AdapterPtr}

/-- A call with this adapter gets to the vector of region `R` and hook `i`. -/
structure GoesAhead (s : Runtime) (reg : AdapterPtr) (R : RegionPtr) (i : Nat) : Prop where
  region : s.callerRegion = some R
  resolves : ∃ call, (s.callResolve reg).2 = .ok (i, call)
  allowed : s.callDenied reg = false

/-- The vector was not built since the region last changed. -/
def Stale (s : Runtime) (R : RegionPtr) (i : Nat) : Prop :=
  ((s.regions R).hookDispatch i).regionGen ≠ (s.regions R).dispatchGen

theorem SlotClear.congr (h : s.SlotClear path R i k) (he : t.entries = s.entries)
    (hr : t.regions = s.regions) : t.SlotClear path R i k := by
  intro slot hk e hs
  rw [hr] at hk
  rw [he] at hs
  exact h slot hk e hs

theorem VectorClear.congr (h : s.VectorClear path R i) (he : t.entries = s.entries)
    (hr : t.regions = s.regions) : t.VectorClear path R i := by
  intro k hk
  rw [hr] at hk
  exact (h k hk).congr he hr

/-- A vector brought up to date under a deny is clear, if a current one was. -/
theorem callVector_clear {name : String} (hw : WF s none L) (hm : s.SlotsMade)
    (h : s.callVector E R i name = .ok t) (hl : s.tree.Looks A R) (hd : s.tree.Denies A path)
    (hv : s.Stale R i ∨ s.VectorClear path R i) : t.VectorClear path R i := by
  obtain ⟨m, hm', h⟩ := Res.bind_ok.mp h
  have hsame := regionEnsureSubtreeMods_vectors hm'
  have hcore := regionEnsureSubtreeMods_core hm'
  have hgen := ((regionEnsureSubtreeMods_rest hm').2 R).2
  have htree : m.tree = s.tree := core_tree hcore
  have hwm := hw.ensureMods hm'
  split at h
  · rename_i hstale
    rcases (rebuildVector_built h).2 with ⟨-, hcur⟩ | hb
    · exact absurd hcur hstale
    · have hA : A ∈ m.callChain R := by
        rw [mem_callChain hwm.tree]
        have hlm : m.tree.Looks A R := htree ▸ hl
        exact ⟨hlm.flag, hlm.anc⟩
      have hden : m.moduleIsDenied A path = true := moduleIsDenied_iff.mpr (htree ▸ hd)
      have hp : PathsKept m t := .of_core (regionRebuildHookDispatch_core h)
      exact fun k hk slot hslot e he =>
        (hb.all k hk slot hslot).clear hp (fun p e he => hwm.lt_next he) hA hden he
  · rename_i hcur
    cases h
    have hclear : s.VectorClear path R i := by
      refine hv.resolve_left fun hs => hs ?_
      rw [← hsame R i, ← hgen]
      exact not_not.mp hcur
    have hp : PathsKept s t := .of_core hcore
    intro k hk slot hslot e he
    rw [hsame R i] at hk hslot
    exact (hclear k hk).kept hm hp hslot he

theorem callEnter_entries (s : Runtime) (f : CallFrame) (p : EntryPtr) (me : ModEntry) (c : CtxPtr) :
    (s.callEnter f p me c).1.entries = s.entries := by
  simp only [callEnter]
  split <;> rfl

/-- The loop of a call leaves entries and regions, and gets to a later slot of its array. -/
theorem callLoop_rest {r : Int ⊕ CallFrame} (h : s.callLoop left f = .ok (n, r)) :
    n.entries = s.entries ∧ n.regions = s.regions ∧ ∀ g, r = .inr g →
      g.callerRegion = f.callerRegion ∧ g.hookId = f.hookId ∧ g.n = f.n ∧ f.mi ≤ g.mi ∧
        g.mi < f.mi + left := by
  cases callLoop_way h with
  | ends hskip =>
      obtain ⟨bufs, p, b, e, ht⟩ := callFinish_eq s f
      rw [ht]
      exact ⟨rfl, rfl, fun g hg => by cases hg⟩
  | enters k slot me c fn hk hk' hskip htaken =>
      refine ⟨callEnter_entries _ _ _ _ _, callEnter_regions _ _ _ _ _, fun g hg => ?_⟩
      cases hg
      exact ⟨rfl, rfl, rfl, hk, hk'⟩

/-- A call answers at once, or goes ahead to the loop over its vector. -/
theorem xyCall_loop {r : Int ⊕ CallFrame} (h : s.xyCall E retp (some reg) = .ok (n, r)) :
    (∃ ret, r = .inl ret) ∧ (∀ R i, ¬ s.GoesAhead reg R i) ∨
      ∃ R i m f, s.GoesAhead reg R i ∧
        ((s.callResolve reg).1.callBegin retp reg).callVector E R i (s.adapters reg).name = .ok m ∧
        m.callLoop f.n f = .ok (n, r) ∧ f.callerRegion = R ∧ f.hookId = i ∧ f.mi = 0 ∧
        f.n = ((m.regions R).hookDispatch i).count := by
  obtain ⟨⟨m, out⟩, hm, h⟩ := Res.bind_ok.mp h
  cases callPrepare_way hm with
  | fails ret he =>
      cases h
      refine .inl ⟨⟨_, rfl⟩, fun R i hg => ?_⟩
      obtain ⟨call, hc⟩ := hg.resolves
      cases he.symm.trans hc
  | denied j call he hd =>
      cases h
      refine .inl ⟨⟨_, rfl⟩, fun R i hg => ?_⟩
      rw [callDenied_resolve, hg.allowed] at hd
      cases hd
  | nowhere j call he hd hr =>
      cases h
      refine .inl ⟨⟨_, rfl⟩, fun R i hg => ?_⟩
      cases hr.symm.trans hg.region
  | loops j call he hd R hR _ hv =>
      rw [callDenied_resolve] at hd
      exact .inr ⟨R, j, m, _, ⟨hR, ⟨call, he⟩, hd⟩, hv, h, rfl, rfl, rfl, rfl⟩

theorem GoesAhead.unique {R' : RegionPtr} {j : Nat} (h : s.GoesAhead reg R i)
    (k : s.GoesAhead reg R' j) : R = R' ∧ i = j := by
  obtain ⟨call, hc⟩ := h.resolves
  obtain ⟨call', hc'⟩ := k.resolves
  cases hc.symm.trans hc'
  exact ⟨Option.some.inj (h.region.symm.trans k.region), rfl⟩

/-- A call that goes ahead under a deny leaves its vector clear, and so its frame. -/
theorem xyCall_clear {r : Int ⊕ CallFrame} (hw : WF s none L) (hm : s.SlotsMade)
    (h : s.xyCall E retp (some reg) = .ok (n, r)) (hg : s.GoesAhead reg R i)
    (hl : s.tree.Looks A R) (hd : s.tree.Denies A path)
    (hv : s.Stale R i ∨ s.VectorClear path R i) : n.VectorClear path R i ∧
      ∀ g, r = .inr g → g.callerRegion = R ∧ g.hookId = i ∧ g.mi < g.n ∧
        ∀ k < g.n, n.SlotClear path R i k := by
  rcases xyCall_loop h with ⟨-, hno⟩ | ⟨R', j, m, f, hg', hvec, hloop, hfR, hfi, hmi, hn⟩
  · exact absurd hg (hno R i)
  · obtain ⟨rfl, rfl⟩ := hg.unique hg'
    have hs : SameHeap s ((s.callResolve reg).1.callBegin retp reg) :=
      (callResolve_sameHeap s reg).trans ⟨rfl, rfl, rfl, rfl, rfl, rfl, rfl, rfl, rfl, rfl, rfl,
        rfl, List.prefix_rfl⟩
    have hm0 : SlotsMade ((s.callResolve reg).1.callBegin retp reg) := by
      intro R k x slot hk
      rw [hs.regions] at hk
      rw [hs.entryNext]
      exact hm R k x slot hk
    have hv0 : Stale ((s.callResolve reg).1.callBegin retp reg) R i ∨
        VectorClear ((s.callResolve reg).1.callBegin retp reg) path R i := by
      refine hv.imp (fun hst => ?_) fun hc => hc.congr hs.entries hs.regions
      unfold Stale
      rw [hs.regions]
      exact hst
    have hclear : m.VectorClear path R i :=
      callVector_clear (hw.sameHeap hs) hm0 hvec (hs.tree ▸ hl) (hs.tree ▸ hd) hv0
    obtain ⟨hents, hregions, hframe⟩ := callLoop_rest hloop
    refine ⟨hclear.congr hents hregions, fun g hgr => ?_⟩
    obtain ⟨h1, h2, h3, -, h5⟩ := hframe g hgr
    refine ⟨h1.trans hfR, h2.trans hfi, ?_, fun k hk => ?_⟩
    · rw [h3]
      omega
    · rw [h3, hn] at hk
      exact (hclear k hk).congr hents hregions

end Runtime

/-- A call that builds the vector of region `R` and hook `i`, and looks at the denies in `A`. -/
def Builds (A : RegionPtr) (m : State) (e : Event) (R : RegionPtr) (i : Nat) : Prop :=
  ∃ retp reg, e = .call retp (some reg) ∧ m.rt.GoesAhead reg R i ∧ m.rt.Stale R i ∧
    m.rt.tree.Looks A R

/-- A call from `A` or below that goes ahead has the flag of its region up, and its vector is
stale or was built so by one of the calls in `tr`. -/
def CallLooks (A : RegionPtr) (tr : List (State × Event)) (m : State) (e : Event) : Prop :=
  ∀ retp reg R i, e = .call retp (some reg) → m.rt.GoesAhead reg R i →
    Forest.Anc m.rt.parentOf A R →
      (m.rt.regions R).hasDeny = true ∧ (m.rt.Stale R i ∨ ∃ x ∈ tr, Builds A x.1 x.2 R i)

/-- No call in progress from `A` or below has a module of this path still to come. -/
def CallsClear (A : RegionPtr) (path : String) (u : State) : Prop :=
  ∀ f, .body f ∈ u.stack → Forest.Anc u.rt.parentOf A f.callerRegion → ∀ k, f.mi < k → k < f.n →
    (u.rt.regions f.callerRegion).hasDeny = true ∧
      u.rt.SlotClear path f.callerRegion f.hookId k

/-- The body that control has just come to is of a module of this path, called from `A` or below. -/
def EntersDenied (A : RegionPtr) (path : String) (v : State) : Prop :=
  ∃ f e, v.entering = some f ∧ Forest.Anc v.rt.parentOf A f.callerRegion ∧
    v.rt.entries f.me = some e ∧ e.loadPath = path

/-- What holds while the deny of `path` in `A` is there, after the steps of `tr`. -/
structure Enforced (A : RegionPtr) (path : String) (tr : List (State × Event)) (v : State) :
    Prop where
  frames : ∀ f, .body f ∈ v.stack → Forest.Anc v.rt.parentOf A f.callerRegion →
    ∀ k, f.mi < k → k < f.n → v.rt.tree.Looks A f.callerRegion ∧
      v.rt.SlotClear path f.callerRegion f.hookId k
  vectors : ∀ x ∈ tr, ∀ R i, Builds A x.1 x.2 R i →
    v.rt.tree.Looks A R ∧ v.rt.VectorClear path R i
  enters : ¬ EntersDenied A path v

section Runs
variable {E : Env} {s₀ s m t u : State} {e : Event} {A R : RegionPtr} {path : String}
  {tr₀ tr : List (State × Event)}

/-- Only calls, and bodies that return to them, put a body on the stack. -/
theorem bodies_of_step (hi : Inv E s) (h : step E s e = .ok t) (hcall : ∀ retp reg, e ≠ .call retp reg)
    (hret : ∀ result, e ≠ .bodyRet result) {f : CallFrame} (hf : .body f ∈ t.stack) :
    .body f ∈ s.stack := by
  cases step_effect hi h with
  | areg hooks hc hs => exact hs ▸ hf
  | selfInitCtx hc hs => exact hs ▸ hf
  | load out hl hs =>
      rw [hs] at hf
      cases out with
      | done ret => exact hf
      | wait g => simpa [pushInstall] using hf
  | unload m ret hu hc hs => exact hs ▸ hf
  | reload out hl hs =>
      rw [hs] at hf
      cases out with
      | done ret => exact hf
      | wait g => simpa [pushInstall] using hf
  | deny r hr hc hs => exact hs ▸ hf
  | requireClaim r hr hc hs => exact hs ▸ hf
  | call m f hooks hm hid ht => exact absurd rfl (hcall _ _)
  | last hc hs => exact hs ▸ hf
  | noRegion hc hs => exact hs ▸ hf
  | withRegion r hr hc hs =>
      rw [hs] at hf
      simpa using hf
  | bodyRet f stack hst ht => exact absurd rfl (hret _)
  | installRet g stack hst hc hs =>
      rw [hst]
      exact List.mem_cons_of_mem _ (hs ▸ hf)
  | scopeRet id r stack hst hc hs =>
      rw [hst]
      exact List.mem_cons_of_mem _ (hs ▸ hf)

theorem callerRegion_lt (hi : Inv E s) (h : s.rt.callerRegion = some R) : R < s.rt.regionNext := by
  obtain ⟨L, hw⟩ := hi.wf
  unfold callerRegion at h
  cases hc : s.rt.currentRegionEntry with
  | some x =>
      rw [hc] at h
      cases h
      exact hi.current.entry _ hc
  | none =>
      rw [hc] at h
      exact (hw.tree.hd_node _ _ h).1

/-- The body that has been entered is of the module that its frame's slot names. -/
theorem not_entersDenied (hs : ∀ f, t.entering = some f → t.rt.AtSlot f)
    (hc : ∀ f, t.entering = some f → Forest.Anc t.rt.parentOf A f.callerRegion →
      t.rt.SlotClear path f.callerRegion f.hookId f.mi) : ¬ EntersDenied A path t := by
  rintro ⟨f, e, hf, ha, he, hpath⟩
  obtain ⟨slot, fn, hslot, hme, -⟩ := hs f hf
  exact hc f hf ha slot hslot e (hme ▸ he) hpath

theorem entering_afterCall {stack : List Frame} {ran : List EntryPtr} {n : Runtime}
    {r : Int ⊕ CallFrame} {f : CallFrame} (h : (State.afterCall stack ran (n, r)).entering = some f) :
    r = .inr f := by
  cases r with
  | inl ret => cases h
  | inr g => exact congrArg Sum.inr (Option.some.inj h)

theorem body_afterCall {stack : List Frame} {ran : List EntryPtr} {n : Runtime}
    {r : Int ⊕ CallFrame} {f : CallFrame}
    (h : .body f ∈ (State.afterCall stack ran (n, r)).stack) : r = .inr f ∨ .body f ∈ stack := by
  cases r with
  | inl ret => exact .inr h
  | inr g =>
      rcases List.mem_cons.mp h with hf | hf
      · exact .inl (congrArg Sum.inr (Frame.body.inj hf).symm)
      · exact .inr hf

theorem Enforced.step (hk : Enforced A path tr m) (hi : Inv E m) (hm : m.rt.SlotsMade)
    (h : step E m e = .ok t) (hdm : m.rt.tree.Denies A path) (hdt : t.rt.tree.Denies A path)
    (hc : CallLooks A tr m e) : Enforced A path (tr ++ [(m, e)]) t := by
  obtain ⟨L, hw⟩ := hi.wf
  have hkeep := step_keptClear hi h hm hdt
  have old : ∀ f, .body f ∈ m.stack → Forest.Anc t.rt.parentOf A f.callerRegion →
      ∀ k, f.mi < k → k < f.n → t.rt.tree.Looks A f.callerRegion ∧
        t.rt.SlotClear path f.callerRegion f.hookId k := by
    intro f hf ha k h1 h2
    obtain ⟨-, hlt, -⟩ := hi.frames _ hf
    obtain ⟨hl, hclear⟩ := hk.frames f hf ((step_anc hi h hlt).mp ha) k h1 h2
    exact ⟨hkeep.looks _ hl, hkeep.slot _ _ _ hl hclear⟩
  have vectors : (∀ R i, Builds A m e R i → t.rt.tree.Looks A R ∧ t.rt.VectorClear path R i) →
      ∀ x ∈ tr ++ [(m, e)], ∀ R i, Builds A x.1 x.2 R i →
        t.rt.tree.Looks A R ∧ t.rt.VectorClear path R i := by
    intro hnew x hx R i hb
    rcases List.mem_append.mp hx with hx | hx
    · obtain ⟨hl, hclear⟩ := hk.vectors x hx R i hb
      exact ⟨hkeep.looks _ hl, hkeep.vector _ _ hl hclear⟩
    · obtain rfl := List.mem_singleton.mp hx
      exact hnew R i hb
  -- a step that enters no body
  have quiet : (∀ f, .body f ∈ t.stack → .body f ∈ m.stack) → (∀ R i, ¬ Builds A m e R i) →
      t.entering = none → Enforced A path (tr ++ [(m, e)]) t := by
    intro hb hB hent
    refine ⟨fun f hf => old f (hb f hf), vectors fun R i hn => absurd hn (hB R i), ?_⟩
    rintro ⟨f, x, hf, -⟩
    rw [hent] at hf
    cases hf
  cases e with
  | call retp reg =>
      cases reg with
      | none =>
          cases h
          refine quiet (fun f hf => hf) ?_ rfl
          rintro R i ⟨retp, reg, he, -⟩
          cases he
      | some reg =>
          have hstep := h
          obtain ⟨⟨n, r⟩, hr, rfl⟩ := Res.map_ok.mp h
          have hrt := afterCall_rt m.stack [] (n, r)
          rcases xyCall_loop hr with ⟨⟨ret, rfl⟩, hno⟩ | ⟨R, i, v, f₀, hg, -, hloop, hR, hi₀, -, -⟩
          · refine quiet (fun f hf => hf) ?_ rfl
            rintro R i ⟨retp', reg', he, hg, -⟩
            cases he
            exact hno R i hg
          have hlt := callerRegion_lt hi hg.region
          have hframe : ∀ f, r = .inr f → f.callerRegion = R := fun f hf =>
            ((callLoop_rest hloop).2.2 f hf).1.trans hR
          have clear : Forest.Anc m.rt.parentOf A R → m.rt.tree.Looks A R ∧ n.VectorClear path R i ∧
              ∀ g, r = .inr g → g.callerRegion = R ∧ g.hookId = i ∧ g.mi < g.n ∧
                ∀ k < g.n, n.SlotClear path R i k := by
            intro ha
            obtain ⟨hflag, hv⟩ := hc retp reg R i rfl hg ha
            have hl : m.rt.tree.Looks A R := ⟨hlt, ha, hflag⟩
            exact ⟨hl, xyCall_clear hw hm hr hg hl hdm
              (hv.imp_right fun ⟨x, hx, hb⟩ => (hk.vectors x hx R i hb).2)⟩
          -- what lies above the calling region is as it was when the call was made
          have back : Forest.Anc (State.afterCall m.stack [] (n, r)).rt.parentOf A R →
              Forest.Anc m.rt.parentOf A R := (step_anc hi hstep hlt).mp
          refine ⟨fun f hf ha k h1 h2 => ?_, vectors fun R' i' hb => ?_, ?_⟩
          · rcases body_afterCall hf with hfr | hf
            · rw [hframe f hfr] at ha
              obtain ⟨hl, -, hnew⟩ := clear (back ha)
              obtain ⟨h3, h4, -, h5⟩ := hnew f hfr
              rw [h3, h4, hrt]
              exact ⟨hrt ▸ hkeep.looks R hl, h5 k h2⟩
            · exact old f hf ha k h1 h2
          · obtain ⟨retp', reg', he, hg', -, hl⟩ := hb
            cases he
            obtain ⟨rfl, rfl⟩ := hg.unique hg'
            obtain ⟨-, hclear, -⟩ := clear hl.anc
            exact ⟨hkeep.looks R hl, hrt.symm ▸ hclear⟩
          · obtain ⟨call, hres⟩ := hg.resolves
            refine not_entersDenied (fun f hf => ?_) fun f hf ha => ?_
            · obtain rfl := entering_afterCall hf
              exact (call_entered hres hstep rfl).2
            · have hfr := entering_afterCall hf
              rw [hframe f hfr] at ha
              obtain ⟨h3, h4, h5, h6⟩ := (clear (back ha)).2.2 f hfr
              rw [h3, h4, hrt]
              exact h6 f.mi h5
  | bodyRet result =>
      have hstep := h
      simp only [Xylem.step] at h
      split at h
      · rename_i g rest hst
        obtain ⟨⟨n, r⟩, hr, rfl⟩ := Res.map_ok.mp h
        have hg : .body g ∈ m.stack := by
          rw [hst]
          exact List.mem_cons_self
        have hrest : ∀ f, .body f ∈ rest → .body f ∈ m.stack := by
          intro f hf
          rw [hst]
          exact List.mem_cons_of_mem _ hf
        obtain ⟨-, -, hframe⟩ := callLoop_rest (bodyReturn_ok hr)
        refine ⟨fun f hf ha k h1 h2 => ?_, vectors fun R i hb => ?_, ?_⟩
        · rcases body_afterCall hf with hfr | hf
          · obtain ⟨h3, h4, h5, h6, -⟩ := hframe f hfr
            replace h6 : g.mi + 1 ≤ f.mi := h6
            rw [h3] at ha ⊢
            rw [h4]
            rw [h5] at h2
            exact old g hg ha k ((Nat.lt_of_succ_le h6).trans h1) h2
          · exact old f (hrest f hf) ha k h1 h2
        · obtain ⟨retp, reg, he, -⟩ := hb
          cases he
        · refine not_entersDenied (fun f hf => ?_) fun f hf ha => ?_
          · obtain rfl := entering_afterCall hf
            exact (bodyRet_entered hst hstep rfl).2.2
          · obtain ⟨h3, h4, -, h6, h7⟩ := hframe f (entering_afterCall hf)
            replace h6 : g.mi + 1 ≤ f.mi := h6
            replace h7 : f.mi < g.mi + 1 + (g.n - (g.mi + 1)) := h7
            rw [h3] at ha ⊢
            rw [h4]
            exact (old g hg ha f.mi (Nat.lt_of_succ_le h6) (by omega)).2
      · cases h
  | areg | selfInitCtx | load | unload | reload | deny | requireClaim | last | withRegion
  | installRet | scopeRet =>
      refine quiet (fun f hf => bodies_of_step hi h (by simp) (by simp) hf) ?_
        (step_entering h (by simp) (by simp))
      rintro R i ⟨retp, reg, he, -⟩
      cases he

theorem Runs.slotsMade (h : Runs E s₀ tr s) : s.rt.SlotsMade := by
  have h0 : s₀.rt.SlotsMade := by
    intro R i k slot hk
    have hR : s₀.rt.regions R = {} := by
      rcases Nat.eq_zero_or_pos R with rfl | hR
      · exact h.1.root
      · exact h.1.fresh R hR
    rw [hR] at hk
    simp at hk
  have key : Inv E s ∧ s.rt.SlotsMade :=
    h.2.invariant (C := fun _ _ _ => True) (P := fun s => Inv E s ∧ s.rt.SlotsMade)
      (fun m e t hs _ hm => ⟨hm.1.step hs, step_slotsMade hm.1 hs hm.2⟩) (fun _ _ _ _ => trivial)
      ⟨Inv.boot h.1, h0⟩
  exact key.2

/-- While a module deny is in its list, no body of a module of that path is entered by a call
from its region or below: if no call in progress has one still to come, and every call from
there builds its vector under the deny, or uses one that was. -/
theorem module_deny_enforced {what : String} (h : Runs E s₀ tr₀ s)
    (hd : step E s (.deny what .module) = .ok u)
    (hclear : CallsClear A (E.moduleLoadPath what) u) (hrun : Run.Steps (step E) u tr t)
    (hheld : ∀ v ∈ Run.states tr t, v.rt.moduleIsDenied A (E.moduleLoadPath what) = true)
    (hlooks : ∀ pre x post, tr = pre ++ x :: post → CallLooks A pre x.1 x.2) :
    ∀ v ∈ Run.states tr t, ¬ EntersDenied A (E.moduleLoadPath what) v := by
  have hiu := h.inv.step hd
  have hmu := step_slotsMade h.inv hd h.slotsMade
  have h0 : Enforced A (E.moduleLoadPath what) [] u := by
    refine ⟨fun f hf ha k h1 h2 => ?_, fun x hx => by simp at hx, ?_⟩
    · obtain ⟨-, hlt, -⟩ := hiu.frames _ hf
      obtain ⟨hflag, hslot⟩ := hclear f hf ha k h1 h2
      exact ⟨⟨hlt, ha, hflag⟩, hslot⟩
    · cases hd
      rintro ⟨f, e, hf, -⟩
      cases hf
  have key : Inv E t ∧ t.rt.SlotsMade ∧ Enforced A (E.moduleLoadPath what) tr t ∧
      ∀ v ∈ Run.states tr t, ¬ EntersDenied A (E.moduleLoadPath what) v := by
    induction hrun with
    | nil =>
        refine ⟨hiu, hmu, h0, fun v hv => ?_⟩
        rw [Run.states, List.map_nil, List.nil_append, List.mem_singleton] at hv
        exact hv ▸ h0.enters
    | @snoc m t tr e hrun hs ih =>
        have hm : ∀ v ∈ Run.states tr m, v.rt.moduleIsDenied A (E.moduleLoadPath what) = true :=
          fun v hv => hheld v (Run.mem_states_snoc.mpr (.inl hv))
        obtain ⟨him, hmm, hk, hno⟩ := ih hm fun pre x post htr =>
          hlooks pre x (post ++ [(m, e)]) (by rw [htr, List.append_assoc, List.cons_append])
        have hdm := moduleIsDenied_iff.mp (hm m (by simp [Run.states]))
        have hdt := moduleIsDenied_iff.mp (hheld t (Run.mem_states_snoc.mpr (.inr rfl)))
        have hkt := hk.step him hmm hs hdm hdt (hlooks tr (m, e) [] rfl)
        refine ⟨him.step hs, step_slotsMade him hs hmm, hkt, fun v hv => ?_⟩
        rcases Run.mem_states_snoc.mp hv with hv | rfl
        · exact hno v hv
        · exact hkt.enters
  exact key.2.2.2

end Runs

/-- Of two modules at the root one is denied there, and a call from the root enters the other. -/
theorem module_deny_enforced_root : ∃ s u t, Run.exec (step sampleEnv) sampleState
      [.areg 0, .load "p" { addr := 1 }, .installRet, .load "q" { addr := 2 }, .installRet] = .ok s ∧
    step sampleEnv s (.deny "p" .module) = .ok u ∧ step sampleEnv u (.call none (some 0)) = .ok t ∧
    t.entering.isSome = true ∧ ¬ EntersDenied 0 "p" t := by
  obtain ⟨s, hs, hobs⟩ := sample_check
    [.areg 0, .load "p" { addr := 1 }, .installRet, .load "q" { addr := 2 }, .installRet]
    (fun s => Run.check (step sampleEnv) s [.deny "p" .module] fun u => decide (u.stack = []) &&
        decide (u.rt.callerRegion = some 0) && decide ((u.rt.regions 0).hasDeny = true) &&
        decide ((u.rt.callResolve 0).2.toOption.map Prod.fst = some 0) &&
        decide (((u.rt.regions 0).hookDispatch 0).regionGen ≠ (u.rt.regions 0).dispatchGen) &&
        u.rt.moduleIsDenied 0 "p" &&
        Run.check (step sampleEnv) u [.call none (some 0)] fun t =>
          t.entering.isSome && t.rt.moduleIsDenied 0 "p") (by decide)
  obtain ⟨u, hu, hobs⟩ := Run.of_check hobs
  simp only [Bool.and_eq_true, decide_eq_true_eq] at hobs
  obtain ⟨⟨⟨⟨⟨⟨hstack, hR⟩, hflag⟩, hres⟩, hstale⟩, hdu⟩, hcall⟩ := hobs
  obtain ⟨t, ht, hobs⟩ := Run.of_check hcall
  simp only [Bool.and_eq_true] at hobs
  obtain ⟨hent, hdt⟩ := hobs
  have hu' := Run.exec_single hu
  have ht' := Run.exec_single ht
  refine ⟨s, u, t, hs, hu', ht', hent, ?_⟩
  have hrun : Run.Steps (step sampleEnv) u [(u, .call none (some 0))] t := .snoc (.nil u) ht'
  refine module_deny_enforced (sample_runs hs) hu' ?_ hrun ?_ ?_ t (by simp [Run.states])
  · intro f hf
    rw [hstack] at hf
    cases hf
  · intro v hv
    simp only [Run.states, List.map_cons, List.map_nil, List.cons_append, List.nil_append,
      List.mem_cons, List.not_mem_nil, or_false] at hv
    rcases hv with rfl | rfl
    · exact hdu
    · exact hdt
  · intro pre x post hpre retp reg R i he hg ha
    cases pre with
    | cons y pre => simp at hpre
    | nil =>
        obtain ⟨rfl, -⟩ := List.cons.inj hpre
        cases he
        obtain rfl : R = 0 := Option.some.inj (hg.region.symm.trans hR)
        obtain ⟨call, hc⟩ := hg.resolves
        rw [hc] at hres
        obtain rfl : i = 0 := Option.some.inj hres
        exact ⟨hflag, .inl hstale⟩

/-- The host denies `m` at the root, and calls the hook from the region below that `m` has
claimed: the flag is not up there, and the body of `m` runs. -/
theorem module_deny_misses_child : ∃ tr₀ s u tr t, Runs sampleEnv sampleState tr₀ s ∧
    s.rt.regionHd s.rt.currentRegionId = some 0 ∧ step sampleEnv s (.deny "m" .module) = .ok u ∧
    Run.Steps (step sampleEnv) u tr t ∧
    (∀ v ∈ Run.states tr t, v.rt.moduleIsDenied 0 (sampleEnv.moduleLoadPath "m") = true) ∧
    EntersDenied 0 (sampleEnv.moduleLoadPath "m") t := by
  obtain ⟨s, hs, hobs⟩ := sample_check
    [.areg 0, .requireClaim (some 0) 0, .load "m" { addr := 1, granted := 1 }, .installRet]
    (fun s => decide (s.rt.regionHd s.rt.currentRegionId = some 0) &&
      Run.check (step sampleEnv) s [.deny "m" .module] fun u => u.rt.moduleIsDenied 0 "m" &&
        Run.check (step sampleEnv) u [.withRegion (s.rt.regions 1).id] fun m =>
          m.rt.moduleIsDenied 0 "m" &&
          Run.check (step sampleEnv) m [.call none (some 0)] fun t => t.rt.moduleIsDenied 0 "m" &&
            decide (t.rt.parentOf 1 = some 0) && t.entering.any fun (f : CallFrame) =>
              decide (f.callerRegion = 1) &&
                (t.rt.entries f.me).any fun (e : ModEntry) => decide (e.loadPath = "m")) (by decide)
  simp only [Bool.and_eq_true, decide_eq_true_eq] at hobs
  obtain ⟨hA, hdeny⟩ := hobs
  obtain ⟨u, hu, hobs⟩ := Run.of_check hdeny
  obtain ⟨hdu, hwith⟩ := Bool.and_eq_true_iff.mp hobs
  obtain ⟨m, hm, hobs⟩ := Run.of_check hwith
  obtain ⟨hdm, hcall⟩ := Bool.and_eq_true_iff.mp hobs
  obtain ⟨t, ht, hobs⟩ := Run.of_check hcall
  simp only [Bool.and_eq_true, decide_eq_true_eq, Option.any_eq_true] at hobs
  obtain ⟨⟨hdt, hparent⟩, f, hf, hR, e, he, hpath⟩ := hobs
  refine ⟨_, s, u, _, t, sample_runs hs, hA, Run.exec_single hu,
    .snoc (.snoc (.nil u) (Run.exec_single hm)) (Run.exec_single ht), fun v hv =>
      ?_, f, e, hf, ?_, he, hpath⟩
  · simp only [Run.states, List.map_cons, List.map_nil, List.nil_append,
      List.cons_append, List.mem_cons, List.not_mem_nil, or_false] at hv
    rcases hv with rfl | rfl | rfl
    · exact hdu
    · exact hdm
    · exact hdt
  · rw [hR]
    exact .link hparent

end Xylem

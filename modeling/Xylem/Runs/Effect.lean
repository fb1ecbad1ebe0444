import Xylem.Runs.Step
import Xylem.Heap.Rollback

/-!
# What one step can do

The inversion of `step`: for each event, what it does to the core of the
runtime and to the stack.
-/
namespace Xylem

open Xylem.Runtime

/-- The frames of `stack` and the one a load waits in, if it waits. -/
def pushInstall (stack : List Frame) : Outcome LoadFrame → List Frame
  | .done _ => stack
  | .wait f => .install f :: stack

/-- From runtime `m` with frame `f` at slot `f.mi`, `xy_call` ends or enters a callback. -/
inductive Turn (m : Runtime) (stack : List Frame) (f : CallFrame) (t : State) : Prop
  | ends (hc : t.rt.core = m.core) (hs : t.stack = stack) (hst : t.status ≠ .entered)
  | enters (k : Nat) (p : EntryPtr) (me : ModEntry) (c : CtxPtr) (he : m.entries p = some me)
      (hctx : me.ctx = some c) (hc : t.rt = (m.callEnter { f with mi := k } p me c).1)
      (hs : t.stack = .body (m.callEnter { f with mi := k } p me c).2 :: stack)
      (hst : t.status = .entered)

/-- What a step does to the core and to the stack. -/
inductive Effect (E : Env) (s : State) : Event → State → Prop
  | areg {a : AdapterPtr} {t : State} (hooks : Hooks)
      (hc : t.rt.core = { s.rt.core with hooks := hooks }) (hs : t.stack = s.stack) :
      Effect E s (.areg a) t
  | selfInitCtx {c : CtxPtr} {t : State}
      (hc : t.rt.core = { s.rt.core with pendingCtx := some c }) (hs : t.stack = s.stack) :
      Effect E s (.selfInitCtx c) t
  | load {fname : String} {ch : LoadChoice} {t : State} (out : Outcome LoadFrame)
      (h : LoadEffect E s.rt fname ch none t.rt out) (hs : t.stack = pushInstall s.stack out) :
      Effect E s (.load fname ch) t
  | unload {fname : String} {fuel : Nat} {t : State} (m : Runtime) (ret : Int)
      (hu : s.rt.modUnload E fuel fname s.rt.currentRegionId = .ok (m, ret))
      (hc : t.rt.core = m.core) (hs : t.stack = s.stack) : Effect E s (.unload fname fuel) t
  | reload {fname : String} {ch : LoadChoice} {fuel : Nat} {t : State} (out : Outcome LoadFrame)
      (h : ReloadEffect E s.rt fname ch fuel t.rt out) (hs : t.stack = pushInstall s.stack out) :
      Effect E s (.reload fname ch fuel) t
  | deny {what : String} {type : DenyType} {t : State} (r : RegionPtr)
      (hr : s.rt.regionHd s.rt.currentRegionId = some r)
      (hc : t.rt.core = { s.rt.core with tree := s.rt.tree.deny E r what type })
      (hs : t.stack = s.stack) : Effect E s (.deny what type) t
  | requireClaim {fn : Option HandlerPtr} {ud : Nat} {t : State} (r : RegionPtr)
      (hr : s.rt.regionHd s.rt.currentRegionId = some r)
      (hc : t.rt.core = { s.rt.core with tree := s.rt.tree.gate r fn ud })
      (hs : t.stack = s.stack) : Effect E s (.requireClaim fn ud) t
  | call {retp : Option BufPtr} {reg : Option AdapterPtr} {t : State} (m : Runtime)
      (f : CallFrame) (hooks : Hooks) (hm : m.core = { s.rt.core with hooks := hooks })
      (hid : f.regionId = s.rt.currentRegionId) (h : Turn m s.stack f t) :
      Effect E s (.call retp reg) t
  | last {ret : Option BufPtr} {t : State} (hc : t.rt.core = s.rt.core) (hs : t.stack = s.stack) :
      Effect E s (.last ret) t
  | noRegion {id : RegionId} {t : State} (hc : t.rt.core = s.rt.core) (hs : t.stack = s.stack) :
      Effect E s (.withRegion id) t
  | withRegion {id : RegionId} {t : State} (r : RegionPtr) (hr : s.rt.regionHd id = some r)
      (hc : t.rt.core = { s.rt.core with currentRegionId := id, currentRegionEntry := some r })
      (hs : t.stack = .scope s.rt.currentRegionId s.rt.currentRegionEntry :: s.stack) :
      Effect E s (.withRegion id) t
  | bodyRet {result : Bytes} {t : State} (f : CallFrame) (stack : List Frame)
      (hst : s.stack = .body f :: stack)
      (h : Turn (s.rt.bodyLeft f result) stack { f with mi := f.mi + 1, ran := f.ran + 1 } t) :
      Effect E s (.bodyRet result) t
  | installRet {t : State} (f : LoadFrame) (stack : List Frame) (hst : s.stack = .install f :: stack)
      (hc : t.rt.core = { s.rt.core with
        loadingMod := f.prevLoadingMod
        currentRegionId := f.prevRegionId, currentRegionEntry := f.prevRegionEntry
        reloading := if f.reload.isSome then false else s.rt.reloading })
      (hs : t.stack = stack) : Effect E s .installRet t
  | scopeRet {code : Int} {t : State} (id : RegionId) (r : Option RegionPtr) (stack : List Frame)
      (hst : s.stack = .scope id r :: stack)
      (hc : t.rt.core = { s.rt.core with currentRegionId := id, currentRegionEntry := r })
      (hs : t.stack = stack) : Effect E s (.scopeRet code) t

theorem afterCall_rt (stack : List Frame) (ran : List EntryPtr) (r : Runtime × (Int ⊕ CallFrame)) :
    (State.afterCall stack ran r).rt = r.1 := by
  obtain ⟨n, ret | f⟩ := r <;> rfl

theorem callLoop_turn {m : Runtime} {left : Nat} {f : CallFrame} {ran : List EntryPtr}
    {stack : List Frame} {r : Runtime × (Int ⊕ CallFrame)} (h : m.callLoop left f = .ok r) :
    Turn m stack f (State.afterCall stack ran r) := by
  obtain ⟨n, r⟩ := r
  cases callLoop_effect h with
  | ends hret ht => exact .ends (ht ▸ callFinish_core m f) rfl nofun
  | enters k p me c he hc ht => exact .enters k p me c he hc ht rfl rfl

theorem callResolve_core (s : Runtime) (reg : AdapterPtr) :
    (s.callResolve reg).1.core = { s.core with hooks := (s.callResolve reg).1.hooks } := by
  obtain ⟨a, ha, -⟩ := callResolve_spec s reg
  rw [ha]
  rfl

theorem bodyLeft_core (s : Runtime) (f : CallFrame) (result : Bytes) :
    (s.bodyLeft f result).core =
      if f.regionChanged then
        { s.core with currentRegionId := f.regionId, currentRegionEntry := f.prevRentry }
      else s.core := by
  unfold bodyLeft
  cases f.retp <;> cases f.regionChanged <;> rfl

theorem installReturn_core {E : Env} {s t : Runtime} {f : LoadFrame} {L : RegionPtr → List EntryPtr}
    (hw : WF s none L) (hrel : ∀ rf, f.reload = some rf → s.ReloadOk E rf)
    (h : s.installReturn E f = .ok t) : t.core = { s.core with
      loadingMod := f.prevLoadingMod
      currentRegionId := f.prevRegionId, currentRegionEntry := f.prevRegionEntry
      reloading := if f.reload.isSome then false else s.reloading } := by
  unfold Runtime.installReturn at h
  simp only at h
  cases hr : f.reload with
  | none =>
      simp only [hr, Except.ok.injEq] at h
      subst h
      rfl
  | some rf =>
      simp only [hr, Res.bind_ok, Except.ok.injEq] at h
      obtain ⟨v, hv, rfl⟩ := h
      have hw' : WF ({ s.modLoadFinish f with reloading := false } : Runtime) none L :=
        hw.congr hw.tree rfl rfl rfl (fun _ => rfl) (fun _ _ => rfl) (fun _ => rfl) (fun _ => rfl)
          fun _ _ => id
      have hok : ReloadOk E { s.modLoadFinish f with reloading := false } rf :=
        ⟨(hrel rf hr).region, (hrel rf hr).anchor⟩
      exact (xyReloadFinish_core hw' hok hv : _)

/-- A call that does not get to its loop, or the loop from its first slot on. -/
theorem xyCall_effect {E : Env} {s : State} {retp : Option BufPtr} {reg : Option AdapterPtr}
    {r : Runtime × (Int ⊕ CallFrame)} (h : s.rt.xyCall E retp reg = .ok r) :
    Effect E s (.call retp reg) (State.afterCall s.stack [] r) := by
  cases reg with
  | none =>
      cases h
      exact .call s.rt (s.rt.callFrame retp 0 0 { retSize := 0 } 0 0 0) s.rt.hooks rfl rfl
        (.ends rfl rfl nofun)
  | some reg =>
      obtain ⟨⟨m, out⟩, hm, h⟩ := Res.bind_ok.mp h
      have hres := callResolve_core s.rt reg
      cases callPrepare_way hm with
      | fails ret hr =>
          cases h
          exact .call _ (s.rt.callFrame retp reg 0 { retSize := 0 } 0 0 0) _ hres rfl
            (.ends (callFail_core _ _ _ _) rfl nofun)
      | denied i call hr hd =>
          cases h
          exact .call _ (s.rt.callFrame retp reg 0 { retSize := 0 } 0 0 0) _ hres rfl
            (.ends (callFail_core _ _ _ _) rfl nofun)
      | nowhere i call hr hd hc =>
          exact .call ((s.rt.callResolve reg).1.callBegin retp reg)
            (s.rt.callFrame retp reg i call 0 0 0) _ hres rfl (callLoop_turn h)
      | loops i call hr hd r hc t ht =>
          exact .call m (s.rt.callFrame retp reg i call r ((m.regions r).hookDispatch i).block
            ((m.regions r).hookDispatch i).count) _ ((callVector_core ht).trans hres) rfl
            (callLoop_turn h)

theorem step_effect {E : Env} {s t : State} {e : Event} (hi : Inv E s) (h : step E s e = .ok t) :
    Effect E s e t := by
  obtain ⟨L, hw⟩ := hi.wf
  cases e with
  | areg a =>
      cases h
      rcases xyAreg_cases E s.rt a with ⟨e, h⟩ | ⟨-, h⟩
      · exact .areg s.rt.hooks ((congrArg core h).trans rfl) rfl
      · have hc : ((s.rt.register a).mapEntries (s.rt.modEntries E)
            (ModEntry.fnCachePrewarm E (s.rt.register a).hookIdHd.entries)).core =
            (s.rt.register a).core := mapEntries_core fun e => ModEntry.fnCachePrewarm_core E _ e
        exact .areg (s.rt.register a).hooks
          ((congrArg core h).trans ((setErr_core _ _).trans (hc.trans rfl))) rfl
  | selfInitCtx c =>
      cases h
      exact .selfInitCtx rfl rfl
  | load fname ch =>
      obtain ⟨r, hr, rfl⟩ := Res.map_ok.mp h
      obtain ⟨⟨n, out⟩, hm, hr⟩ := Res.bind_ok.mp hr
      have heff := modLoad_effect hw hi.current.id hm
      cases out with
      | done ret =>
          cases hr
          exact .load (.done ret) (heff.of_core (setErr_core _ _)) rfl
      | wait f =>
          cases hr
          exact .load (.wait f) heff rfl
  | unload fname fuel =>
      obtain ⟨r, hr, rfl⟩ := Res.map_ok.mp h
      obtain ⟨⟨n, ret⟩, hu, hr⟩ := Res.bind_ok.mp hr
      cases hr
      exact .unload n ret hu rfl rfl
  | reload fname ch fuel =>
      obtain ⟨⟨n, out⟩, hr, rfl⟩ := Res.map_ok.mp h
      have heff := (xyReload_spec hw hi.ctxs hi.current.id hr).1
      cases out <;> exact .reload _ heff rfl
  | deny what type =>
      cases h
      obtain ⟨r, hr⟩ := Option.isSome_iff_exists.mp hi.current.id
      have htree := xyDeny_tree E s.rt what type
      simp only [regionLookup, hr] at htree
      obtain ⟨R, hR, -⟩ := xyDeny_rules E s.rt what type hr
      refine .deny r hr ?_ rfl
      show (s.rt.xyDeny E what type).1.core = _
      rw [← htree, hR]
      rfl
  | requireClaim fn ud =>
      cases h
      obtain ⟨r, hr⟩ := Option.isSome_iff_exists.mp hi.current.id
      obtain ⟨htree, R, hR, -⟩ := xyRequireClaim_rules s.rt fn ud hr
      refine .requireClaim r hr ?_ rfl
      show (s.rt.xyRequireClaim fn ud).1.core = _
      rw [← htree, hR]
      rfl
  | call retp reg =>
      obtain ⟨r, hr, rfl⟩ := Res.map_ok.mp h
      exact xyCall_effect hr
  | last ret =>
      cases h
      obtain ⟨bufs, e, hl⟩ := xyLast_eq s.rt ret
      refine .last ?_ rfl
      show (s.rt.xyLast ret).1.core = _
      rw [hl]
      rfl
  | withRegion id =>
      cases h
      cases hr : s.rt.regionLookup id with
      | none =>
          have hx : xyWithRegion s id = s.back (s.rt.setErr xyErrNotFound, xyErrNotFound) := by
            simp only [xyWithRegion, hr]
          rw [hx]
          exact .noRegion rfl rfl
      | some r =>
          have hx : xyWithRegion s id =
              { rt := s.rt.setCurrentRegion id (some r)
                stack := .scope s.rt.currentRegionId s.rt.currentRegionEntry :: s.stack
                status := .entered } := by
            simp only [xyWithRegion, hr]
          rw [hx]
          exact .withRegion r hr rfl rfl
  | bodyRet result =>
      simp only [Xylem.step] at h
      split at h
      · rename_i f rest hst
        obtain ⟨r, hr, rfl⟩ := Res.map_ok.mp h
        exact .bodyRet f rest hst (callLoop_turn (bodyReturn_ok hr))
      · cases h
  | installRet =>
      simp only [Xylem.step] at h
      split at h
      · rename_i f rest hst
        obtain ⟨r, hr, rfl⟩ := Res.map_ok.mp h
        have hrel := (hi.frames (.install f) (by rw [hst]; exact List.mem_cons_self)).2
        exact .installRet f rest hst (installReturn_core hw hrel hr) rfl
      · cases h
  | scopeRet code =>
      simp only [Xylem.step] at h
      split at h
      · rename_i id entry rest hst
        cases h
        exact .scopeRet id entry rest hst rfl rfl
      · cases h

def State.entering (s : State) : Option CallFrame :=
  match s.status, s.stack with
  | .entered, .body f :: _ => some f
  | _, _ => none

theorem State.entering_iff {s : State} {f : CallFrame} :
    s.entering = some f ↔ s.status = .entered ∧ ∃ stack, s.stack = .body f :: stack := by
  unfold State.entering
  split
  · rename_i g stack hst hs
    simp [hst, hs]
  · rename_i hne
    constructor
    · intro h
      cases h
    · rintro ⟨hst, stack, hs⟩
      exact (hne f stack hst hs).elim

/-- Control comes to fresh code by a call, by the return of a body to its loop, or
in an `xy_install` or a scope function. -/
theorem step_entered {E : Env} {s t : State} {e : Event} (h : step E s e = .ok t)
    (hst : t.status = .entered) : (∃ retp reg, e = .call retp reg) ∨ (∃ result, e = .bodyRet result) ∨
      (∃ f, t.stack = .install f :: s.stack) ∨ ∃ id r, t.stack = .scope id r :: s.stack := by
  have loaded : ∀ r : Runtime × Outcome LoadFrame, (State.afterLoad s.stack r).status = .entered →
      ∃ f, (State.afterLoad s.stack r).stack = .install f :: s.stack := by
    rintro ⟨n, ret | f⟩ hst
    · cases hst
    · exact ⟨f, rfl⟩
  cases e with
  | call retp reg => exact .inl ⟨retp, reg, rfl⟩
  | bodyRet result => exact .inr (.inl ⟨result, rfl⟩)
  | load fname ch =>
      obtain ⟨r, -, rfl⟩ := Res.map_ok.mp h
      exact .inr (.inr (.inl (loaded r hst)))
  | reload fname ch fuel =>
      obtain ⟨r, -, rfl⟩ := Res.map_ok.mp h
      exact .inr (.inr (.inl (loaded r hst)))
  | withRegion id =>
      cases h
      unfold xyWithRegion at hst ⊢
      split at hst
      · cases hst
      · exact .inr (.inr (.inr ⟨_, _, rfl⟩))
  | unload fname fuel =>
      obtain ⟨r, -, rfl⟩ := Res.map_ok.mp h
      cases hst
  | installRet =>
      simp only [Xylem.step] at h
      split at h
      · obtain ⟨r, -, rfl⟩ := Res.map_ok.mp h
        cases hst
      · cases h
  | scopeRet code =>
      simp only [Xylem.step] at h
      split at h
      · cases h
        cases hst
      · cases h
  | areg a =>
      cases h
      cases hst
  | selfInitCtx c =>
      cases h
      cases hst
  | deny what type =>
      cases h
      cases hst
  | requireClaim fn ud =>
      cases h
      cases hst
  | last ret =>
      cases h
      cases hst

theorem step_entering {E : Env} {s t : State} {e : Event} (h : step E s e = .ok t)
    (hcall : ∀ retp reg, e ≠ .call retp reg) (hret : ∀ result, e ≠ .bodyRet result) :
    t.entering = none := by
  rw [Option.eq_none_iff_forall_ne_some]
  intro f hf
  obtain ⟨hst, stack, hs⟩ := State.entering_iff.mp hf
  rcases step_entered h hst with ⟨_, _, he⟩ | ⟨_, he⟩ | ⟨_, he⟩ | ⟨_, _, he⟩
  · exact hcall _ _ he
  · exact hret _ he
  · rw [hs] at he
    cases he
  · rw [hs] at he
    cases he

theorem step_load {E : Env} {s t : State} {fname : String} {ch : LoadChoice} (hi : Inv E s)
    (h : step E s (.load fname ch) = .ok t) :
    ∃ out, GatedEffect E s.rt fname ch none t.rt out ∧ t.stack = pushInstall s.stack out ∧
      ((∃ ret, out = .done ret ∧ t.status = .returned ret []) ∨
        ∃ f, out = .wait f ∧ t.status = .entered) := by
  obtain ⟨L, hw⟩ := hi.wf
  obtain ⟨r, hr, rfl⟩ := Res.map_ok.mp h
  obtain ⟨⟨n, out⟩, hm, hr⟩ := Res.bind_ok.mp hr
  have heff := modLoad_gated hw hi.current.id hm
  cases out with
  | done ret =>
      cases hr
      exact ⟨.done ret, heff.of_core (setErr_core _ _), rfl, .inl ⟨ret, rfl, rfl⟩⟩
  | wait f =>
      cases hr
      exact ⟨.wait f, heff, rfl, .inr ⟨f, rfl, rfl⟩⟩

theorem Turn.core_eq {m : Runtime} {stack : List Frame} {f : CallFrame} {t : State}
    (h : Turn m stack f t) : ∃ ctxs id r, t.rt.core =
      { m.core with ctxs := ctxs, currentRegionId := id, currentRegionEntry := r } := by
  cases h with
  | ends hc hs hst => exact ⟨m.ctxs, m.currentRegionId, m.currentRegionEntry, hc⟩
  | enters k p me c he hctx hc hs hst =>
      obtain ⟨id, r, heq, -⟩ := callEnter_eq m { f with mi := k } p me c
      rw [hc, heq]
      exact ⟨_, id, r, rfl⟩

structure SameTables (s t : Runtime) : Prop where
  entries : t.core.entries = s.core.entries
  entryNext : t.entryNext = s.entryNext
  modHd : t.modHd = s.modHd
  modByRegionHd : t.modByRegionHd = s.modByRegionHd

theorem SameTables.of_core {s t : Runtime} {c : Core} (h : t.core = c)
    (h1 : c.entries = s.core.entries) (h2 : c.entryNext = s.entryNext) (h3 : c.modHd = s.modHd)
    (h4 : c.modByRegionHd = s.modByRegionHd) : SameTables s t := by
  subst h
  exact ⟨h1, h2, h3, h4⟩

theorem Turn.tables {s m : Runtime} {stack : List Frame} {f : CallFrame} {t : State}
    (h : Turn m stack f t) (hm : SameTables s m) : SameTables s t.rt := by
  obtain ⟨ctxs, id, r, hc⟩ := h.core_eq
  exact .of_core hc hm.entries hm.entryNext hm.modHd hm.modByRegionHd

theorem step_tables {E : Env} {s t : State} {e : Event} (hi : Inv E s) (h : step E s e = .ok t)
    (hload : ∀ fname ch, e ≠ .load fname ch) (hunload : ∀ fname fuel, e ≠ .unload fname fuel)
    (hreload : ∀ fname ch fuel, e ≠ .reload fname ch fuel) : SameTables s.rt t.rt := by
  cases step_effect hi h with
  | areg hooks hc hs => exact .of_core hc rfl rfl rfl rfl
  | selfInitCtx hc hs => exact .of_core hc rfl rfl rfl rfl
  | load out hl hs => exact absurd rfl (hload _ _)
  | unload m ret hu hc hs => exact absurd rfl (hunload _ _)
  | reload out hr hs => exact absurd rfl (hreload _ _ _)
  | deny r hr hc hs => exact .of_core hc rfl rfl rfl rfl
  | requireClaim r hr hc hs => exact .of_core hc rfl rfl rfl rfl
  | call m f hooks hm hid ht => exact ht.tables (.of_core hm rfl rfl rfl rfl)
  | last hc hs => exact .of_core hc rfl rfl rfl rfl
  | noRegion hc hs => exact .of_core hc rfl rfl rfl rfl
  | withRegion r hr hc hs => exact .of_core hc rfl rfl rfl rfl
  | @bodyRet result _ f stack hst ht =>
      have hleft := bodyLeft_core s.rt f result
      refine ht.tables (.of_core hleft ?_ ?_ ?_ ?_) <;> split <;> rfl
  | installRet f stack hst hc hs => exact .of_core hc rfl rfl rfl rfl
  | scopeRet id r stack hst hc hs => exact .of_core hc rfl rfl rfl rfl

end Xylem

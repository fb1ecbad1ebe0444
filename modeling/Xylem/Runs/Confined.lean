import Xylem.Runs.Trees

/-!
# The region a body runs in

Region id and region pointer are switched and restored separately, the id from a
context that all instances of an image share. The pairs saved on the stack stay
in step as long as each context holds its instance's region when it is entered.
-/
namespace Xylem

open Xylem.Runtime

/-- The region id names the region that the pointer points to. -/
def InSync (s : Runtime) (id : RegionId) (r : Option RegionPtr) : Prop :=
  ∃ x, r = some x ∧ s.regionHd id = some x

/-- With `(id, r)` current on top of `stack`, every level down to the host runs, and
will run again, with a pair that is in step. -/
def PairsKept (s : Runtime) : RegionId → Option RegionPtr → List Frame → Prop
  | id, r, [] => InSync s id r
  | id, r, .install f :: stack => InSync s id r ∧ PairsKept s f.prevRegionId f.prevRegionEntry stack
  | id, r, .scope id' r' :: stack => InSync s id r ∧ PairsKept s id' r' stack
  | id, r, .body f :: stack =>
      if f.regionChanged then InSync s id r ∧ PairsKept s f.regionId f.prevRentry stack
      else id = f.regionId ∧ PairsKept s id r stack

theorem PairsKept.sync {s : Runtime} {id : RegionId} {r : Option RegionPtr} {stack : List Frame}
    (h : PairsKept s id r stack) : InSync s id r := by
  induction stack with
  | nil => exact h
  | cons f stack ih =>
      cases f with
      | install f => exact h.1
      | scope id' r' => exact h.1
      | body f =>
          unfold PairsKept at h
          split at h
          · exact h.1
          · exact ih h.2

theorem PairsKept.mono {s t : Runtime}
    (hk : ∀ id r, s.regionHd id = some r → t.regionHd id = some r) {id : RegionId}
    {r : Option RegionPtr} {stack : List Frame} (h : PairsKept s id r stack) :
    PairsKept t id r stack := by
  have sync : ∀ {id r}, InSync s id r → InSync t id r := fun ⟨x, hx, hid⟩ => ⟨x, hx, hk _ _ hid⟩
  induction stack generalizing id r with
  | nil => exact sync h
  | cons f stack ih =>
      cases f with
      | install f => exact ⟨sync h.1, ih h.2⟩
      | scope id' r' => exact ⟨sync h.1, ih h.2⟩
      | body f =>
          unfold PairsKept at h ⊢
          split at h
          · rename_i hc
            rw [if_pos hc]
            exact ⟨sync h.1, ih h.2⟩
          · rename_i hc
            rw [if_neg hc]
            exact ⟨h.1, ih h.2⟩

def State.PairsKept (s : State) : Prop :=
  Xylem.PairsKept s.rt s.rt.currentRegionId s.rt.currentRegionEntry s.stack

/-- The body that has just been entered runs in the region of its own instance. -/
def Confined (s : State) : Prop :=
  ∀ f, s.entering = some f → ∃ e, s.rt.entries f.me = some e ∧
    s.rt.currentRegionId = e.regionId ∧ InSync s.rt e.regionId s.rt.currentRegionEntry

/-- The context of the instance that a step enters holds the instance's region id
before the step. -/
def ContextAgrees (s t : State) : Prop :=
  ∀ f e c, t.entering = some f → s.rt.entries f.me = some e → e.ctx = some c →
    (s.rt.ctxs c).regionId = e.regionId

theorem confined_of_none {s : State} (h : s.entering = none) : Confined s := by
  intro f hf
  rw [h] at hf
  cases hf

theorem agrees_of_none {s t : State} (h : t.entering = none) : ContextAgrees s t := by
  intro f _ _ hf
  rw [h] at hf
  cases hf

section Enter
variable {s t : State} {m : Runtime} {stack : List Frame} {f : CallFrame}

/-- Entering the callback of an entry of region `r`: the pair stays in step if the
context agrees, and is the entry's own exactly then. -/
theorem enter_pairs {p : EntryPtr} {me : ModEntry} {c : CtxPtr} {r : RegionPtr}
    (hre : me.regionEntry = some r) (hr : m.regionHd me.regionId = some r)
    (hp : PairsKept m m.currentRegionId m.currentRegionEntry stack)
    (hid : f.regionId = m.currentRegionId) (ht : t.rt = (m.callEnter f p me c).1)
    (hs : t.stack = .body (m.callEnter f p me c).2 :: stack) :
    ((m.ctxs c).regionId = me.regionId → t.PairsKept) ∧
      (t.rt.currentRegionId = me.regionId ∧ InSync t.rt me.regionId t.rt.currentRegionEntry ↔
        (m.ctxs c).regionId = me.regionId) := by
  obtain ⟨x, hx, hsync⟩ := hp.sync
  by_cases hc : (m.ctxs c).regionId = f.regionId
  · have h1 : (m.callEnter f p me c).1 = m.setCtx c fun x =>
        { x with adapter := some f.reg, regionState := me.regionState } := by
      simp [callEnter, setCtx, hc]
    have h2 : (m.callEnter f p me c).2.regionChanged = false ∧
        (m.callEnter f p me c).2.regionId = f.regionId := by
      simp [callEnter, setCtx, hc]
    have hcur : t.rt.currentRegionId = m.currentRegionId := by rw [ht, h1]; rfl
    have hent : t.rt.currentRegionEntry = m.currentRegionEntry := by rw [ht, h1]; rfl
    have hhd : t.rt.regionHd = m.regionHd := by rw [ht, h1]; rfl
    rw [hcur, hc, hid]
    refine ⟨fun hag => ?_, fun hag => hag.1, fun hag => ⟨hag, x, hent.trans hx, ?_⟩⟩
    · unfold State.PairsKept
      rw [hs, PairsKept, h2.1, if_neg (by simp), hcur, hent]
      exact ⟨hid.symm.trans h2.2.symm, hp.mono fun _ _ hr => hhd ▸ hr⟩
    · rw [hhd, ← hag]
      exact hsync
  · have h1 : (m.callEnter f p me c).1 = (m.setCtx c fun x =>
        { x with adapter := some f.reg, regionState := me.regionState }).setCurrentRegion
          (m.ctxs c).regionId me.regionEntry := by
      simp [callEnter, setCtx, hc]
    have h2 : (m.callEnter f p me c).2.regionChanged = true ∧
        (m.callEnter f p me c).2.regionId = f.regionId ∧
        (m.callEnter f p me c).2.prevRentry = m.currentRegionEntry := by
      simp [callEnter, setCtx, hc]
    have hcur : t.rt.currentRegionId = (m.ctxs c).regionId := by rw [ht, h1]; rfl
    have hent : t.rt.currentRegionEntry = me.regionEntry := by rw [ht, h1]; rfl
    have hhd : t.rt.regionHd = m.regionHd := by rw [ht, h1]; rfl
    have hown : InSync t.rt me.regionId t.rt.currentRegionEntry :=
      ⟨r, hent.trans hre, by rw [hhd]; exact hr⟩
    rw [hcur]
    refine ⟨fun hag => ?_, fun hag => hag.1, fun hag => ⟨hag, hown⟩⟩
    unfold State.PairsKept
    rw [hs, PairsKept, h2.1, if_pos rfl, h2.2.1, h2.2.2, hid, hcur, hag]
    exact ⟨hown, hp.mono fun _ _ hr => hhd ▸ hr⟩

/-- From a runtime with the entries and contexts of `s`, a call ends or enters. -/
theorem turn_pairs {E : Env} (hi : Inv E s) {hooks : Hooks} {id : RegionId} {r : Option RegionPtr}
    (hm : m.core = { s.rt.core with hooks := hooks, currentRegionId := id, currentRegionEntry := r })
    (hp : PairsKept s.rt id r stack) (hid : f.regionId = id) (h : Turn m stack f t) :
    (ContextAgrees s t → t.PairsKept) ∧ (Confined t ↔ ContextAgrees s t) := by
  have hhd : m.regionHd = s.rt.regionHd := congrArg (fun c => c.tree.hd) hm
  have h1 : m.currentRegionId = id := congrArg Core.currentRegionId hm
  have h2 : m.currentRegionEntry = r := congrArg Core.currentRegionEntry hm
  have hpm : PairsKept m m.currentRegionId m.currentRegionEntry stack := by
    rw [h1, h2]
    exact hp.mono fun _ _ hr => hhd ▸ hr
  cases h with
  | ends hc hs hst =>
      have k1 : t.rt.currentRegionId = m.currentRegionId := congrArg Core.currentRegionId hc
      have k2 : t.rt.currentRegionEntry = m.currentRegionEntry := congrArg Core.currentRegionEntry hc
      have k3 : t.rt.regionHd = m.regionHd := congrArg (fun c => c.tree.hd) hc
      have hnone : t.entering = none := by
        rw [Option.eq_none_iff_forall_ne_some]
        exact fun g hg => hst (State.entering_iff.mp hg).1
      refine ⟨fun _ => ?_, fun _ => agrees_of_none hnone, fun _ => confined_of_none hnone⟩
      unfold State.PairsKept
      rw [hs, k1, k2]
      exact hpm.mono fun _ _ hr => k3 ▸ hr
  | enters k p me c he hctx hc hs hst =>
      obtain ⟨L, hw⟩ := hi.wf
      have hents : (m.entries p).map ModEntry.core = (s.rt.entries p).map ModEntry.core :=
        congrFun (congrArg Core.entries hm) p
      rw [he] at hents
      obtain ⟨e, hse, hce⟩ := Option.map_eq_some_iff.mp hents.symm
      have e1 : e.regionEntry = me.regionEntry := (congrArg ModEntry.regionEntry hce : _)
      have e2 : e.regionId = me.regionId := (congrArg ModEntry.regionId hce : _)
      have e3 : e.ctx = me.ctx := (congrArg ModEntry.ctx hce : _)
      have e4 : m.ctxs = s.rt.ctxs := congrArg Core.ctxs hm
      obtain ⟨x, hx, hr, -⟩ := hw.region_of hse (by simp)
      obtain ⟨q1, q2⟩ := enter_pairs (f := { f with mi := k }) (e1 ▸ hx)
        (by rw [hhd, ← e2]; exact hr) hpm (hid.trans h1.symm) hc hs
      have hme : (m.callEnter { f with mi := k } p me c).2.me = p := rfl
      have hte : t.rt.entries p = some me := by
        obtain ⟨id', r', heq, -⟩ := callEnter_eq m { f with mi := k } p me c
        rw [hc, heq]
        exact he
      have hent : ∀ g, t.entering = some g ↔ g = (m.callEnter { f with mi := k } p me c).2 := by
        intro g
        simp only [State.entering_iff, hst, hs, true_and, List.cons.injEq, Frame.body.injEq]
        exact ⟨fun ⟨_, hg, _⟩ => hg.symm, fun hg => ⟨stack, hg.symm, rfl⟩⟩
      have hag : ContextAgrees s t ↔ (m.ctxs c).regionId = me.regionId := by
        rw [e4, ← e2]
        constructor
        · intro h
          exact h _ e c ((hent _).mpr rfl) (by rw [hme]; exact hse) (e3.trans hctx)
        · intro h g e' c' hg he' hc'
          rw [(hent g).mp hg, hme, hse] at he'
          cases he'
          rw [e3, hctx] at hc'
          cases hc'
          exact h
      have hcf : Confined t ↔ t.rt.currentRegionId = me.regionId ∧
          InSync t.rt me.regionId t.rt.currentRegionEntry := by
        constructor
        · intro h
          obtain ⟨e', he', hrest⟩ := h _ ((hent _).mpr rfl)
          rw [hme, hte] at he'
          cases he'
          exact hrest
        · intro h g hg
          rw [(hent g).mp hg]
          exact ⟨me, hte, h⟩
      rw [hag, hcf, q2]
      exact ⟨q1, Iff.rfl⟩

end Enter

section Step
variable {E : Env} {s₀ s t : State} {tr : List (State × Event)}

theorem LoadFrameOk.pairs {s n : Runtime} {reload : Option ReloadFrame} {out : Outcome LoadFrame}
    {stack : List Frame} (h : LoadFrameOk s n reload out)
    (hp : PairsKept n s.currentRegionId s.currentRegionEntry stack) :
    PairsKept n n.currentRegionId n.currentRegionEntry (pushInstall stack out) := by
  cases out with
  | done ret =>
      obtain ⟨h1, h2, -⟩ := h.done ret rfl
      rw [h1, h2]
      exact hp
  | wait f =>
      obtain ⟨rfl, -, r, hr, hid⟩ := h.wait f rfl
      exact ⟨⟨r, hr, hid⟩, hp⟩

/-- The pairs stay in step if the context of the instance entered agrees, and its
body runs in its own region exactly then. -/
theorem step_pairs {e : Event} (hi : Inv E s) (h : step E s e = .ok t) (hp : s.PairsKept) :
    (ContextAgrees s t → t.PairsKept) ∧ (Confined t ↔ ContextAgrees s t) := by
  have hkept : PairsKept t.rt s.rt.currentRegionId s.rt.currentRegionEntry s.stack :=
    hp.mono fun _ _ hr => step_regionHd hi h hr
  have other : (∀ retp reg, e ≠ .call retp reg) → (∀ result, e ≠ .bodyRet result) → t.PairsKept →
      (ContextAgrees s t → t.PairsKept) ∧ (Confined t ↔ ContextAgrees s t) := by
    intro hcall hret ht
    have hnone := step_entering h hcall hret
    exact ⟨fun _ => ht, fun _ => agrees_of_none hnone, fun _ => confined_of_none hnone⟩
  have same : ∀ {c : Core}, t.rt.core = c → c.currentRegionId = s.rt.currentRegionId →
      c.currentRegionEntry = s.rt.currentRegionEntry → t.stack = s.stack → t.PairsKept := by
    intro c hc h1 h2 hs
    unfold State.PairsKept
    rw [show t.rt.currentRegionId = _ from (congrArg Core.currentRegionId hc).trans h1,
      show t.rt.currentRegionEntry = _ from (congrArg Core.currentRegionEntry hc).trans h2, hs]
    exact hkept
  have loaded : ∀ {n : Runtime} {reload out}, n.currentRegionId = s.rt.currentRegionId →
      n.currentRegionEntry = s.rt.currentRegionEntry → LoadFrameOk n t.rt reload out →
      t.stack = pushInstall s.stack out → t.PairsKept := by
    intro n reload out h1 h2 hf hs
    unfold State.PairsKept
    rw [hs]
    exact LoadFrameOk.pairs hf (by rw [h1, h2]; exact hkept)
  cases step_effect hi h with
  | areg hooks hc hs => exact other (by simp) (by simp) (same hc rfl rfl hs)
  | selfInitCtx hc hs => exact other (by simp) (by simp) (same hc rfl rfl hs)
  | load out hl hs => exact other (by simp) (by simp) (loaded rfl rfl hl.frame hs)
  | unload m ret hu hc hs =>
      have hcore := (modUnload_unloaded _ hu).core
      exact other (by simp) (by simp) (same (hc.trans hcore) rfl rfl hs)
  | reload out hr hs =>
      refine other (by simp) (by simp) ?_
      cases hr with
      | missing hl ht => exact same ht rfl rfl hs
      | back p e hl he m hu m' ret hload ht =>
          have hcore := (modUnload_unloaded _ hu).core
          obtain ⟨h1, h2, -⟩ := hload.frame.done ret rfl
          exact same ht (h1.trans (congrArg Core.currentRegionId hcore))
            (h2.trans (congrArg Core.currentRegionEntry hcore)) hs
      | waits p e hl he m hu f hload =>
          have hcore := (modUnload_unloaded _ hu).core
          exact loaded (n := { m with reloading := true }) (congrArg Core.currentRegionId hcore)
            (congrArg Core.currentRegionEntry hcore) hload.frame hs
  | deny r hr hc hs => exact other (by simp) (by simp) (same hc rfl rfl hs)
  | requireClaim r hr hc hs => exact other (by simp) (by simp) (same hc rfl rfl hs)
  | call m f hooks hm hid ht => exact turn_pairs hi hm hp hid ht
  | last hc hs => exact other (by simp) (by simp) (same hc rfl rfl hs)
  | noRegion hc hs => exact other (by simp) (by simp) (same hc rfl rfl hs)
  | withRegion r hr hc hs =>
      refine other (by simp) (by simp) ?_
      unfold State.PairsKept
      rw [hs, show t.rt.currentRegionId = _ from congrArg Core.currentRegionId hc,
        show t.rt.currentRegionEntry = _ from congrArg Core.currentRegionEntry hc]
      exact ⟨⟨r, rfl, step_regionHd hi h hr⟩, hkept⟩
  | @bodyRet result _ f stack hst ht =>
      unfold State.PairsKept at hp
      rw [hst, PairsKept] at hp
      have hcore := bodyLeft_core s.rt f result
      split at hp
      · rename_i hch
        rw [hch, if_pos rfl] at hcore
        exact turn_pairs (f := { f with mi := f.mi + 1, ran := f.ran + 1 }) hi hcore hp.2 rfl ht
      · rename_i hch
        rw [if_neg hch] at hcore
        exact turn_pairs (f := { f with mi := f.mi + 1, ran := f.ran + 1 }) hi hcore hp.2 hp.1.symm ht
  | installRet f stack hst hc hs =>
      refine other (by simp) (by simp) ?_
      unfold State.PairsKept at hp ⊢
      rw [hs, show t.rt.currentRegionId = _ from congrArg Core.currentRegionId hc,
        show t.rt.currentRegionEntry = _ from congrArg Core.currentRegionEntry hc]
      rw [hst] at hp
      exact hp.2.mono fun _ _ hr => step_regionHd hi h hr
  | scopeRet id r stack hst hc hs =>
      refine other (by simp) (by simp) ?_
      unfold State.PairsKept at hp ⊢
      rw [hs, show t.rt.currentRegionId = _ from congrArg Core.currentRegionId hc,
        show t.rt.currentRegionEntry = _ from congrArg Core.currentRegionEntry hc]
      rw [hst] at hp
      exact hp.2.mono fun _ _ hr => step_regionHd hi h hr

theorem boot_pairs (h : Boot s) : s.PairsKept := by
  unfold State.PairsKept
  rw [h.stack, h.currentRegionId, h.currentRegionEntry]
  exact ⟨0, rfl, (h.regionHd xyRegionRoot).trans (if_pos rfl)⟩

/-- While every context agrees with the instance that is entered, every body runs in
its own region; and the next body does exactly if its context agrees. -/
theorem bodies_confined (h : Runs E s₀ tr s)
    (hC : Run.Every (step E) (fun m _ t => ContextAgrees m t) tr) :
    Confined s ∧ ∀ e t, step E s e = .ok t → (Confined t ↔ ContextAgrees s t) := by
  have key : (Inv E s ∧ s.PairsKept) ∧ Confined s := by
    refine h.2.invariant (P := fun s => (Inv E s ∧ s.PairsKept) ∧ Confined s)
      (fun m e t hs hc hm => ?_) hC ?_
    · obtain ⟨h1, h2⟩ := step_pairs hm.1.1 hs hm.1.2
      exact ⟨⟨hm.1.1.step hs, h1 hc⟩, h2.mpr hc⟩
    · refine ⟨⟨Inv.boot h.1, boot_pairs h.1⟩, confined_of_none ?_⟩
      rw [Option.eq_none_iff_forall_ne_some]
      intro f hf
      obtain ⟨-, stack, hs⟩ := State.entering_iff.mp hf
      rw [h.1.stack] at hs
      cases hs
  exact ⟨key.2, fun e t hs => (step_pairs key.1.1 hs key.1.2).2⟩

end Step

/-- `m` has claimed a region below the root and is entered by a call from the host. -/
theorem bodies_confined_child : ∃ s, Run.exec (step sampleEnv) sampleState
      [.areg 0, .requireClaim (some 0) 0, .load "m" { addr := 1, granted := 1 }, .installRet,
        .call none (some 0)] = .ok s ∧
    s.entering.isSome ∧ s.rt.currentRegionId ≠ xyRegionRoot ∧ Confined s := by
  obtain ⟨s, hs, hobs⟩ := sample_check
    [.areg 0, .requireClaim (some 0) 0, .load "m" { addr := 1, granted := 1 }, .installRet,
      .call none (some 0)]
    (fun s => s.entering.isSome && decide (s.rt.currentRegionId ≠ xyRegionRoot)) (by decide)
  simp only [Bool.and_eq_true, decide_eq_true_eq] at hobs
  refine ⟨s, hs, hobs.1, hobs.2, (bodies_confined (sample_runs hs) ?_).1⟩
  refine Run.every_trace fun m₁ h₁ => ⟨agrees_of_none (step_entering h₁ nofun nofun), ?_⟩
  refine Run.every_trace fun m₂ h₂ => ⟨agrees_of_none (step_entering h₂ nofun nofun), ?_⟩
  refine Run.every_trace fun m₃ h₃ => ⟨agrees_of_none (step_entering h₃ nofun nofun), ?_⟩
  refine Run.every_trace fun m₄ h₄ => ⟨agrees_of_none (step_entering h₄ nofun nofun), ?_⟩
  refine Run.every_trace fun m₅ h₅ => ⟨fun f e c hf he hc => ?_, fun _ hx => by simp [Run.trace] at hx⟩
  have hm₄ := Run.exec_cons h₁ (Run.exec_cons h₂ (Run.exec_cons h₃ (Run.exec_cons h₄ (Run.exec_nil _ _))))
  have k₄ := Run.check_at (P := fun s => (s.rt.entries 0).any fun e : ModEntry =>
    e.ctx.all fun c => decide ((s.rt.ctxs c).regionId = e.regionId)) (by decide) hm₄
  have k₅ := Run.check_at (P := fun s => decide (s.entering.map (·.me) = some 0)) (by decide)
    (Run.exec_append _ hm₄ (Run.exec_cons h₅ (Run.exec_nil _ _)))
  have hme : f.me = 0 := by
    rw [hf] at k₅
    simpa using k₅
  rw [hme] at he
  simpa only [he, hc, Option.any_some, Option.all_some, decide_eq_true_eq] using k₄

/-- `p` is loaded in the root and again in the region that `m` claimed; both
instances share one context. The root's instance runs with the id of `m`'s region. -/
theorem bodies_unconfined_shared_ctx : ∃ s, Run.exec (step sampleEnv) sampleState
      [.areg 0, .load "p" { addr := 1 }, .installRet, .requireClaim (some 0) 0,
        .load "m" { addr := 2, granted := 1 }, .load "p" { addr := 3 }, .installRet, .installRet,
        .call none (some 0)] = .ok s ∧ ¬ Confined s := by
  obtain ⟨s, hs, hobs⟩ := sample_check [.areg 0, .load "p" { addr := 1 }, .installRet,
      .requireClaim (some 0) 0, .load "m" { addr := 2, granted := 1 }, .load "p" { addr := 3 },
      .installRet, .installRet, .call none (some 0)]
    (fun s => s.entering.any fun f => (s.rt.entries f.me).any fun e =>
      decide (s.rt.currentRegionId ≠ e.regionId)) (by decide)
  obtain ⟨f, hf, hobs⟩ := (Option.any_eq_true _ _).mp hobs
  obtain ⟨e, he, hne⟩ := (Option.any_eq_true _ _).mp hobs
  refine ⟨s, hs, fun h => ?_⟩
  obtain ⟨e', he', hid, -⟩ := h f hf
  rw [he] at he'
  cases he'
  exact of_decide_eq_true hne hid

end Xylem

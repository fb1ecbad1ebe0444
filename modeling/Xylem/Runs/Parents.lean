import Xylem.Heap.Cascade
import Xylem.Runs.Effect

namespace Xylem

open Xylem.Runtime Forest

namespace Runtime
variable {E : Env} {s t : Runtime}

/-- A load of `fname` that makes a new entry makes it under a live one, or none. -/
def LoadsUnderLive (E : Env) (s : Runtime) (fname : String) (ch : LoadChoice) : Prop :=
  s.moduleLookup E fname s.currentRegionId = none → ch.noMem = false →
    (∃ im, E.dlopen (s.loading E fname ch).im = some im) →
      ∀ p, s.loadingMod = some p → s.entries p ≠ none

/-- A load adds one link at most, from the new entry to the one being installed. -/
theorem LoadEffect.links {fname : String} {ch : LoadChoice} {reload : Option ReloadFrame}
    {out : Outcome LoadFrame} (h : LoadEffect E s fname ch reload t out) (hs : Parented s)
    (hu : LoadsUnderLive E s fname ch) : Links t := by
  obtain ⟨L, hw⟩ := hs.wf
  cases h with
  | same ret hret ht => exact hs.toLinks.of_entries (congrArg Core.entries ht : _)
  | reuse p e hl he ht =>
      have hlink := (hs.setRefcount he (e.refcount + 1)).toLinks
      exact hlink.of_entries (congrArg Core.entries ht : _)
  | fresh out hl hmem him ha hf =>
      cases hf with
      | refused ret hret ht => exact hs.toLinks.of_entries (congrArg Core.entries ht : _)
      | noInstall hi id r T index hp ht => exact hs.toLinks.of_entries (congrArg Core.entries ht : _)
      | installs fn hi id r T index hp ht =>
          have hnew : s.entries s.entryNext = none := hw.fresh _ le_rfl
          have hents : t.core.entries = Function.update s.core.entries s.entryNext _ :=
            congrArg Core.entries ht
          have hloader : ∀ c, t.loader c = if c = s.entryNext then s.loadingMod else s.loader c := by
            intro c
            rw [loader_core, hents, Function.update_apply]
            split
            · rfl
            · exact (loader_core s c).symm
          have hlive : ∀ p, s.entries p ≠ none → t.entries p ≠ none := by
            intro p hp hnone
            have hne : p ≠ s.entryNext := fun hc => hp (hc ▸ hnew)
            have hk : (t.entries p).map ModEntry.core = (s.entries p).map ModEntry.core :=
              (congrFun hents p).trans (Function.update_of_ne hne _ _)
            rw [hnone] at hk
            exact hp (Option.map_eq_none_iff.mp hk.symm)
          have hparent : ∀ p, s.loadingMod = some p → s.entries p ≠ none := hu hl hmem him
          refine ⟨fun c p hcp => ?_, fun c p hcp => ?_⟩ <;> rw [hloader] at hcp <;> split at hcp
          · exact hlive p (hparent p hcp)
          · exact hlive p (hs.live c p hcp)
          · rename_i hc
            obtain ⟨e, he⟩ := Option.ne_none_iff_exists'.mp (hparent p hcp)
            exact (hw.lt_next he).trans_eq hc.symm
          · exact hs.older c p hcp

theorem Parented.reloading (h : Parented s) (b : Bool) : Parented { s with reloading := b } := by
  obtain ⟨L, hw⟩ := h.wf
  exact ⟨h.toLinks.of_entries rfl, L, hw.sameHeap (reloading_sameHeap s b)⟩

end Runtime

/-- The loads and unloads that keep parent links alive. -/
def KeepsParents (E : Env) (s : State) : Event → Prop
  | .load fname ch => LoadsUnderLive E s.rt fname ch
  | .unload fname _ => Unloadable E s.rt fname s.rt.currentRegionId
  | .reload fname ch fuel => Unloadable E s.rt fname s.rt.currentRegionId ∧
      ∀ m, s.rt.modUnload E fuel fname s.rt.currentRegionId = .ok (m, xyOk) →
        LoadsUnderLive E { m with reloading := true } fname ch
  | _ => True

section Step
variable {E : Env} {s t : State}

theorem step_links {e : Event} (hi : Inv E s) (h : step E s e = .ok t) (hs : Links s.rt)
    (hc : KeepsParents E s e) : Links t.rt := by
  have hp : Parented s.rt := ⟨hs, hi.wf⟩
  have same : ∀ {n : Runtime}, t.rt.core.entries = n.core.entries → Links n → Links t.rt :=
    fun he hn => hn.of_entries he
  have turn : ∀ {m : Runtime} {stack : List Frame} {f : CallFrame},
      m.core.entries = s.rt.core.entries → Turn m stack f t → Links t.rt := by
    intro m stack f hm ht
    cases ht with
    | ends hc hs' => exact same ((congrArg Core.entries hc).trans hm) hs
    | enters k p me c he hctx hc hs' =>
        obtain ⟨id, r, heq, -⟩ := callEnter_eq m { f with mi := k } p me c
        refine same ?_ hs
        rw [hc, heq]
        exact hm
  cases step_effect hi h with
  | load out hl hst => exact hl.links hp hc
  | unload m ret hu hcore hst =>
      exact same (congrArg Core.entries hcore : _) (hp.unload hc hu).toLinks
  | reload out hr hst =>
      cases hr with
      | missing hl ht => exact same (congrArg Core.entries ht : _) hs
      | back p e hl he m hu m' ret hload ht =>
          exact same (congrArg Core.entries ht : _)
            (hload.links ((hp.unload hc.1 hu).reloading true) (hc.2 m hu))
      | waits p e hl he m hu f hload =>
          exact hload.links ((hp.unload hc.1 hu).reloading true) (hc.2 m hu)
  | call m f hooks hm hid ht => exact turn (congrArg Core.entries hm : _) ht
  | bodyRet f stack hst ht =>
      refine turn ((congrArg Core.entries (bodyLeft_core s.rt f _)).trans ?_) ht
      split <;> rfl
  | areg hooks hcore hst => exact same (congrArg Core.entries hcore : _) hs
  | selfInitCtx hcore hst => exact same (congrArg Core.entries hcore : _) hs
  | deny r hr hcore hst => exact same (congrArg Core.entries hcore : _) hs
  | requireClaim r hr hcore hst => exact same (congrArg Core.entries hcore : _) hs
  | last hcore hst => exact same (congrArg Core.entries hcore : _) hs
  | noRegion hcore hst => exact same (congrArg Core.entries hcore : _) hs
  | withRegion r hr hcore hst => exact same (congrArg Core.entries hcore : _) hs
  | installRet f stack hst hcore hs' => exact same (congrArg Core.entries hcore : _) hs
  | scopeRet id r stack hst hcore hs' => exact same (congrArg Core.entries hcore : _) hs

variable {s₀ : State} {tr : List (State × Event)}

theorem boot_links (h : Boot s) : Links s.rt := by
  have hnone : ∀ c, s.rt.loader c = none := by
    intro c
    rw [loader, h.entries]
    rfl
  constructor <;>
    · intro c p hcp
      rw [hnone] at hcp
      cases hcp

theorem Runs.parented (h : Runs E s₀ tr s)
    (hC : Run.Every (step E) (fun m e _ => KeepsParents E m e) tr) : Parented s.rt := by
  refine ⟨?_, h.inv.wf⟩
  have key : Inv E s ∧ Links s.rt :=
    h.2.invariant (P := fun s => Inv E s ∧ Links s.rt)
      (fun m e t hs hc hm => ⟨hm.1.step hs, step_links hm.1 hs hm.2 hc⟩) hC
      ⟨Inv.boot h.1, boot_links h.1⟩
  exact key.2

/-- The `parent_entry` of every live entry is `NULL` or live in `mod_hd`. -/
def ParentsLive (s : Runtime) : Prop :=
  ∀ c e p, s.entries c = some e → e.parentEntry = some p → ∃ k, s.modHd.lookup k = some p

/-- In every state reached by such steps no parent link dangles, the children that
the cascade collects are the modules the entry loaded, and every unload that the
condition allows ends, having removed only what the unloaded entry loaded. -/
theorem parents_live (h : Runs E s₀ tr s)
    (hC : Run.Every (step E) (fun m e _ => KeepsParents E m e) tr) :
    ParentsLive s.rt ∧
      (∀ p, s.rt.entries p ≠ none → ∀ c, c ∈ s.rt.childrenOf E p ↔
        ∃ e, s.rt.entries c = some e ∧ e.parentEntry = some p) ∧
      ∀ fname region fuel, Unloadable E s.rt fname region → s.rt.entryNext < fuel →
        ∃ t ret, s.rt.modUnload E fuel fname region = .ok (t, ret) ∧
          ∀ q, s.rt.entries q ≠ none → t.entries q = none →
            ∃ p, s.rt.moduleLookup E fname region = some p ∧ Anc s.rt.loader p q := by
  have hp := h.parented hC
  obtain ⟨L, hw⟩ := hp.wf
  refine ⟨fun c e p hc hcp => ?_, fun p hlive c => ?_,
    fun fname region fuel hu hn => hp.unload_ends hu hn⟩
  · have hl : s.rt.loader c = some p := by
      rw [loader, hc]
      exact hcp
    obtain ⟨f, hf⟩ := Option.ne_none_iff_exists'.mp (hp.live c p hl)
    exact ⟨f.modKey, (hw.key p f hf).2⟩
  · rw [mem_childrenOf hp hlive]
    refine ⟨live_of_loader, fun hx => ?_⟩
    obtain ⟨e, he, hpar⟩ := hx
    rw [loader, he]
    exact hpar

end Step

/-- `p` loads `q` and is unloaded: `q` goes with it. -/
theorem parents_live_cascade : ∃ s, Run.exec (step sampleEnv) sampleState
      [.load "p" { addr := 1 }, .load "q" { addr := 2 }, .installRet, .installRet,
        .unload "p" 3] = .ok s ∧ ParentsLive s.rt := by
  obtain ⟨s, hs, -⟩ := sample_check [.load "p" { addr := 1 }, .load "q" { addr := 2 }, .installRet,
    .installRet, .unload "p" 3] (fun _ => true) (by decide)
  refine ⟨s, hs, (parents_live (sample_runs hs) ?_).1⟩
  refine Run.every_trace fun m₁ h₁ => ⟨fun _ _ _ p hp => (by cases hp), ?_⟩
  refine Run.every_trace fun m₂ h₂ => ⟨fun _ _ _ p hp => ?_, ?_⟩
  · have hobs := Run.check_at (P := fun s => decide (s.rt.loadingMod = some 0) && (s.rt.entries 0).isSome)
      (by decide) (Run.exec_cons h₁ (Run.exec_nil _ _))
    simp only [Bool.and_eq_true, decide_eq_true_eq] at hobs
    rw [hobs.1] at hp
    cases hp
    exact Option.isSome_iff_ne_none.mp hobs.2
  refine Run.every_trace fun m₃ h₃ => ⟨trivial, Run.every_trace fun m₄ h₄ => ⟨trivial, ?_⟩⟩
  refine Run.every_trace fun m₅ h₅ => ⟨?_, fun _ hx => by simp [Run.trace] at hx⟩
  have hm₄ := Run.exec_cons h₁ (Run.exec_cons h₂ (Run.exec_cons h₃ (Run.exec_cons h₄ (Run.exec_nil _ _))))
  have hobs :=
    Run.check_at (P := fun s => decide (s.rt.moduleLookup sampleEnv "p" s.rt.currentRegionId = some 0) &&
      decide (s.rt.loader 0 = none) && decide (s.rt.loader 1 = some 0) && decide (s.rt.entryNext = 2) &&
      (s.rt.entries 1).any fun e => decide (e.refcount ≤ 1) && decide (e.ctx = some 3) &&
        decide ((s.rt.ctxs 3).modulePath = .str "q") && decide (e.loadPath = "q"))
    (by decide) hm₄
  simp only [Bool.and_eq_true, decide_eq_true_eq, Option.any_eq_true_iff_get] at hobs
  obtain ⟨⟨⟨⟨hp, hroot⟩, hchild⟩, hnext⟩, hlive, ⟨⟨hone, hx⟩, hpath⟩, hload⟩ := hobs
  obtain ⟨L, hw⟩ := (sample_runs hm₄).inv.wf
  intro p e hl _ _ c hc hne
  cases hl.symm.trans hp
  have hc2 : c < 2 := by
    rcases hc.cases_parent with rfl | ⟨q, hq, -⟩
    · exact absurd rfl hne
    · obtain ⟨f, hf, -⟩ := live_of_loader hq
      exact (hw.lt_next hf).trans_eq hnext
  obtain rfl : c = 1 := Nat.le_antisymm (Nat.le_of_lt_succ hc2) (Nat.pos_of_ne_zero hne)
  exact ⟨_, 3, "q", (Option.some_get hlive).symm, hone, hx, hpath, hload.symm⟩

/-- `p` loads `q` twice. Unloading `p` takes one of the two references away, so
that `q` stays with a link to freed memory; a module loaded at the same address
then passes for the one that loaded `q`. -/
theorem parents_dangle_shared_child : ∃ s, Run.exec (step sampleEnv) sampleState
      [.load "p" { addr := 1 }, .load "q" { addr := 2 }, .installRet, .load "q" { addr := 3 },
        .installRet, .unload "p" 4, .load "r" { addr := 1 }] = .ok s ∧
    ¬ ParentsLive s.rt ∧ 1 ∈ s.rt.childrenOf sampleEnv 2 ∧
      ∃ e, s.rt.entries 1 = some e ∧ e.parentEntry = some 0 := by
  obtain ⟨s, hs, hobs⟩ := sample_check [.load "p" { addr := 1 }, .load "q" { addr := 2 }, .installRet,
      .load "q" { addr := 3 }, .installRet, .unload "p" 4, .load "r" { addr := 1 }]
    (fun s => decide ((s.rt.entries 1).bind (·.parentEntry) = some 0) && (s.rt.entries 0).isNone &&
      decide (1 ∈ s.rt.childrenOf sampleEnv 2)) (by decide)
  simp only [Bool.and_eq_true, decide_eq_true_eq, Option.isNone_iff_eq_none] at hobs
  obtain ⟨⟨hpar, hgone⟩, hchild⟩ := hobs
  obtain ⟨e, he, hep⟩ := Option.bind_eq_some_iff.mp hpar
  refine ⟨s, hs, fun hlive => ?_, hchild, e, he, hep⟩
  obtain ⟨L, hw⟩ := (sample_runs hs).inv.wf
  obtain ⟨k, hk⟩ := hlive 1 e 0 he hep
  obtain ⟨f, hf, -⟩ := hw.table k 0 hk
  rw [hgone] at hf
  cases hf

end Xylem

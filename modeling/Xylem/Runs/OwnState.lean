import Xylem.Runs.Trees

/-!
# The state block a module sees

All instances of an image read their state block from one context slot, which is
written when a body is entered and at no other time.
-/
namespace Xylem

open Xylem.Runtime

/-- The instance whose code a frame runs; scope functions belong to who called them. -/
def Frame.owner : Frame → Option EntryPtr
  | .install f => some f.modEntry
  | .body f => some f.me
  | .scope _ _ => none

/-- The instance whose code is in control. -/
def State.owner (s : State) : Option EntryPtr := s.stack.findSome? Frame.owner

/-- The module code in control finds its own state block in its context. -/
def SeesOwnState (s : State) : Prop :=
  ∀ p e c, s.owner = some p → s.rt.entries p = some e → e.ctx = some c →
    (s.rt.ctxs c).regionState = e.regionState

/-- The block that has been stored in context `c` for the body that control just came to. -/
def State.stored (s : State) (c : CtxPtr) : Option (Option StatePtr) :=
  s.entering.bind fun f => (s.rt.entries f.me).bind fun e =>
    if e.ctx = some c then some e.regionState else none

/-- The block stored last in context `c` by the steps of a run to `s`. -/
def lastStored (tr : List (State × Event)) (s : State) (c : CtxPtr) : Option (Option StatePtr) :=
  (Run.states tr s).tail.reverse.findSome? fun t => t.stored c

/-- The step enters no body above one that has the same context and another block. -/
def StateKept (s t : State) : Prop :=
  ∀ f me c, t.entering = some f → s.rt.entries f.me = some me → me.ctx = some c →
    ∀ g, .body g ∈ t.stack.tail → ∀ e, s.rt.entries g.me = some e → e.ctx = some c →
      e.regionState = me.regionState

/-- What the blocks of old entries and the context slots are kept by. -/
structure SameState (s t : Runtime) : Prop where
  next : s.entryNext ≤ t.entryNext
  old : OldKept s.entryNext s t
  slot : ∀ c, (t.ctxs c).regionState = (s.ctxs c).regionState

theorem SameState.of_core {s t : Runtime} {c : Core} (hc : t.core = c)
    (hn : c.entryNext = s.entryNext) (he : c.entries = s.core.entries) (hx : c.ctxs = s.ctxs) :
    SameState s t := by
  subst hc
  refine ⟨hn.ge, fun q _ e' he' => ?_, fun c => ?_⟩
  · have hq : (s.entries q).map ModEntry.core = (t.entries q).map ModEntry.core :=
      (congrFun he q).symm
    rw [he'] at hq
    obtain ⟨e, hse, hce⟩ := Option.map_eq_some_iff.mp hq
    exact ⟨e, hse, ident_of_core hce.symm⟩
  · have hc : t.ctxs c = s.ctxs c := congrFun hx c
    rw [hc]

theorem SameState.trans {s t u : Runtime} (h : SameState s t) (k : SameState t u) : SameState s u :=
  ⟨h.next.trans k.next, h.old.trans fun q hq => k.old q (hq.trans_le h.next),
    fun c => (k.slot c).trans (h.slot c)⟩

namespace Runtime
variable {E : Env} {s t : Runtime}

theorem withCtx_slot (ctxs : CtxPtr → Ctx) (c : Option CtxPtr) (f : Ctx → Ctx)
    (hf : ∀ x, (f x).regionState = x.regionState) (c' : CtxPtr) :
    (withCtx ctxs c f c').regionState = (ctxs c').regionState := by
  cases c with
  | none => rfl
  | some c =>
      by_cases h : c' = c
      · subst h
        simp [withCtx, hf]
      · simp [withCtx, h]

theorem Unloaded.sameState (h : Unloaded s t) : SameState s t := by
  refine ⟨(congrArg Core.entryNext h.core).ge, fun q _ e' he' => ?_, fun c => ?_⟩
  · obtain ⟨e, he, hc⟩ := h.entries q e' he'
    refine ⟨e, he, ?_⟩
    rw [ModEntry.ident, hc]
    rfl
  · have hc : t.ctxs = s.ctxs := congrArg Core.ctxs h.core
    rw [hc]

theorem LoadEffect.sameState {fname : String} {ch : LoadChoice} {reload : Option ReloadFrame}
    {out : Outcome LoadFrame} (h : LoadEffect E s fname ch reload t out) : SameState s t := by
  cases h with
  | same ret hret ht => exact .of_core ht rfl rfl rfl
  | reuse p e hl he ht =>
      refine ⟨(congrArg Core.entryNext ht).ge, ?_, fun c => ?_⟩
      · have hset : OldKept s.entryNext s (s.setEntry p (some { e with refcount := e.refcount + 1 })) :=
          .setEntry he (.inr rfl)
        exact hset.trans (.of_core ht)
      · have hc : t.ctxs = s.ctxs := congrArg Core.ctxs ht
        rw [hc]
  | fresh out hl hmem him ha hf =>
      have slot : ∀ {f : Ctx → Ctx},
        t.ctxs = withCtx s.ctxs (s.modLoadCtx E (s.loading E fname ch).im) f →
          (∀ x, (f x).regionState = x.regionState) →
          ∀ c, (t.ctxs c).regionState = (s.ctxs c).regionState := by
        intro f hx hf c
        rw [hx]
        exact withCtx_slot _ _ _ hf c
      have kept : t.entryNext = s.entryNext + 1 →
        (∀ q < s.entryNext, t.core.entries q = s.core.entries q) →
          s.entryNext ≤ t.entryNext ∧ OldKept s.entryNext s t := by
        intro hn hq
        refine ⟨(Nat.le_succ _).trans hn.ge, fun q hlt e' he' => ?_⟩
        have hk : (t.entries q).map ModEntry.core = (s.entries q).map ModEntry.core := hq q hlt
        rw [he'] at hk
        obtain ⟨e, he, hce⟩ := Option.map_eq_some_iff.mp hk.symm
        exact ⟨e, he, ident_of_core hce.symm⟩
      cases hf with
      | refused ret hret ht =>
          obtain ⟨h1, h2⟩ := kept (congrArg Core.entryNext ht)
            fun q _ => congrFun (congrArg Core.entries ht : _) q
          exact ⟨h1, h2,
            slot (f := fun x => { x with modulePath := .freed, regionId := s.currentRegionId })
            (congrArg Core.ctxs ht) fun _ => rfl⟩
      | noInstall hi id r T index hp ht =>
          obtain ⟨h1, h2⟩ := kept (congrArg Core.entryNext ht)
            fun q _ => congrFun (congrArg Core.entries ht : _) q
          exact ⟨h1, h2, slot (f := fun x => { x with modulePath := .freed, regionId := id })
            (congrArg Core.ctxs ht) fun _ => rfl⟩
      | installs fn hi id r T index hp ht =>
          obtain ⟨h1, h2⟩ := kept (congrArg Core.entryNext ht)
            fun q hq =>
              (congrFun (congrArg Core.entries ht : _) q).trans (Function.update_of_ne hq.ne _ _)
          exact ⟨h1, h2, slot (f := fun x => { x with modulePath := .str fname, regionId := id })
            (congrArg Core.ctxs ht) fun _ => rfl⟩

theorem LoadEffect.installed {fname : String} {ch : LoadChoice} {reload : Option ReloadFrame}
    {f : LoadFrame} (h : LoadEffect E s fname ch reload t (.wait f)) :
    f.modEntry = s.entryNext ∧ s.entryNext < t.entryNext ∧
      ∀ e, t.entries f.modEntry = some e → e.regionState = s.loadedState E e.handle := by
  cases h with
  | fresh out hl hmem him ha hf =>
      cases hf with
      | installs fn hi id r T index hp ht =>
          refine ⟨rfl, (Nat.lt_succ_self _).trans_eq (congrArg Core.entryNext ht).symm, fun e he => ?_⟩
          have hk : (t.entries s.entryNext).map ModEntry.core = _ :=
            (congrFun (congrArg Core.entries ht : _) s.entryNext).trans (Function.update_self _ _ _)
          rw [he, Option.map_some, Option.some.injEq] at hk
          have h1 : e.regionState = s.loadedState E (s.loading E fname ch).im :=
            (congrArg ModEntry.regionState hk : _)
          have h2 : e.handle = (s.loading E fname ch).im := (congrArg ModEntry.handle hk : _)
          rw [h1, h2]

end Runtime

section
variable {E : Env} {s t : State} {e : Event} {tr : List (State × Event)}

/-- Entries that were there before a step keep what does not change about an entry. -/
theorem step_old (hi : Inv E s) (h : step E s e = .ok t) :
    s.rt.entryNext ≤ t.rt.entryNext ∧ OldKept s.rt.entryNext s.rt t.rt := by
  have same : t.rt.entryNext = s.rt.entryNext → t.rt.core.entries = s.rt.core.entries →
      s.rt.entryNext ≤ t.rt.entryNext ∧ OldKept s.rt.entryNext s.rt t.rt := by
    intro hn hents
    refine ⟨hn.ge, fun q _ x hx => ?_⟩
    have hq : (t.rt.entries q).map ModEntry.core = (s.rt.entries q).map ModEntry.core := congrFun hents q
    rw [hx] at hq
    obtain ⟨y, hy, hc⟩ := Option.map_eq_some_iff.mp hq.symm
    exact ⟨y, hy, ident_of_core hc.symm⟩
  have of_same : SameState s.rt t.rt →
      s.rt.entryNext ≤ t.rt.entryNext ∧ OldKept s.rt.entryNext s.rt t.rt := fun hk => ⟨hk.next, hk.old⟩
  cases e with
  | load fname ch =>
      cases step_effect hi h with
      | load out hl hs => exact of_same hl.sameState
  | unload fname fuel =>
      cases step_effect hi h with
      | unload m ret hu hc hs =>
          exact of_same ((modUnload_unloaded fuel hu).sameState.trans (.of_core hc rfl rfl rfl))
  | reload fname ch fuel =>
      have unloaded : ∀ {m : Runtime}, s.rt.modUnload E fuel fname s.rt.currentRegionId = .ok (m, xyOk) →
          SameState s.rt { m with reloading := true } := fun hu =>
        (modUnload_unloaded fuel hu).sameState.trans (.of_core rfl rfl rfl rfl)
      cases step_effect hi h with
      | reload out hr hs =>
          cases hr with
          | missing hl ht => exact of_same (.of_core ht rfl rfl rfl)
          | back p e hl he m hu m' ret hload ht =>
              exact of_same (((unloaded hu).trans hload.sameState).trans (.of_core ht rfl rfl rfl))
          | waits p e hl he m hu f hload => exact of_same ((unloaded hu).trans hload.sameState)
  | _ =>
      have ht := step_tables hi h (by simp) (by simp) (by simp)
      exact same ht.entryNext ht.entries

theorem steps_old (hi : Inv E s) (h : Run.Steps (step E) s tr t) :
    Inv E t ∧ s.rt.entryNext ≤ t.rt.entryNext ∧ OldKept s.rt.entryNext s.rt t.rt := by
  induction h with
  | nil => exact ⟨hi, le_rfl, .refl _ _⟩
  | snoc _ hs ih =>
      obtain ⟨him, hn, hk⟩ := ih
      obtain ⟨hn', hk'⟩ := step_old him hs
      exact ⟨him.step hs, hn.trans hn', hk.trans fun q hq => hk' q (hq.trans_le hn)⟩

end

section
variable {E : Env} {s₀ s t u : State} {e : Event} {tr : List (State × Event)} {f : CallFrame} {c : CtxPtr}

theorem stored_of_none (h : s.entering = none) : s.stored c = none := by
  rw [State.stored, h]
  rfl

theorem stored_entering {x : ModEntry} (hf : s.entering = some f) (hx : s.rt.entries f.me = some x)
    (hc : x.ctx = some c) : s.stored c = some x.regionState := by
  simp [State.stored, hf, hx, hc]

/-- A call that goes on writes the slot of the context it enters, and no other. -/
theorem turn_slot {m : Runtime} {stack : List Frame} (h : Turn m stack f t) (c : CtxPtr) :
    (t.rt.ctxs c).regionState = (t.stored c).getD (m.ctxs c).regionState := by
  cases h with
  | ends hc hs hst =>
      have hnone : t.entering = none :=
        Option.eq_none_iff_forall_ne_some.mpr fun g hg => hst (State.entering_iff.mp hg).1
      have hx : t.rt.ctxs = m.ctxs := congrArg Core.ctxs hc
      rw [stored_of_none hnone, hx]
      rfl
  | enters k p me c' he hctx hrt hs hst =>
      obtain ⟨id, r, heq, -⟩ := callEnter_eq m { f with mi := k } p me c'
      have hf : t.entering = some (m.callEnter { f with mi := k } p me c').2 :=
        State.entering_iff.mpr ⟨hst, stack, hs⟩
      have hents : t.rt.entries = m.entries := by
        rw [hrt, heq]
      have hme : t.rt.entries (m.callEnter { f with mi := k } p me c').2.me = some me := hents ▸ he
      have hslot : (t.rt.ctxs c).regionState =
          if c = c' then me.regionState else (m.ctxs c).regionState := by
        rw [hrt, heq]
        by_cases hcc : c = c' <;> simp [hcc]
      rw [hslot]
      by_cases hcc : c = c'
      · rw [if_pos hcc, stored_entering hf hme (hctx.trans (congrArg some hcc.symm))]
        rfl
      · have hne : me.ctx ≠ some c := fun hx => hcc (Option.some.inj (hx.symm.trans hctx))
        simp [State.stored, hf, hme, hne, hcc]

/-- A step writes the slot of the context it enters a body of, and no other. -/
theorem step_slot (hi : Inv E s) (h : step E s e = .ok t) (c : CtxPtr) :
    (t.rt.ctxs c).regionState = (t.stored c).getD (s.rt.ctxs c).regionState := by
  have quiet : SameState s.rt t.rt → t.entering = none →
      (t.rt.ctxs c).regionState = (t.stored c).getD (s.rt.ctxs c).regionState := by
    intro hk hn
    rw [stored_of_none hn]
    exact hk.slot c
  have unloaded : ∀ {m : Runtime} {fname fuel},
      s.rt.modUnload E fuel fname s.rt.currentRegionId = .ok (m, xyOk) →
      SameState s.rt { m with reloading := true } := fun hu =>
    (modUnload_unloaded _ hu).sameState.trans (.of_core rfl rfl rfl rfl)
  have hnone := step_entering h
  cases step_effect hi h with
  | areg hooks hcore hs => exact quiet (.of_core hcore rfl rfl rfl) (hnone (by simp) (by simp))
  | selfInitCtx hcore hs => exact quiet (.of_core hcore rfl rfl rfl) (hnone (by simp) (by simp))
  | load out hl hs => exact quiet hl.sameState (hnone (by simp) (by simp))
  | unload m ret hu hcore hs =>
      exact quiet ((modUnload_unloaded _ hu).sameState.trans (.of_core hcore rfl rfl rfl))
        (hnone (by simp) (by simp))
  | reload out hr hs =>
      refine quiet ?_ (hnone (by simp) (by simp))
      cases hr with
      | missing hl ht => exact .of_core ht rfl rfl rfl
      | back p x hl he m hu m' ret hload ht =>
          exact ((unloaded hu).trans hload.sameState).trans (.of_core ht rfl rfl rfl)
      | waits p x hl he m hu f hload => exact (unloaded hu).trans hload.sameState
  | deny r hr hcore hs => exact quiet (.of_core hcore rfl rfl rfl) (hnone (by simp) (by simp))
  | requireClaim r hr hcore hs =>
      exact quiet (.of_core hcore rfl rfl rfl) (hnone (by simp) (by simp))
  | call m f hooks hm hid ht =>
      have hx : m.ctxs = s.rt.ctxs := congrArg Core.ctxs hm
      rw [turn_slot ht, hx]
  | last hcore hs => exact quiet (.of_core hcore rfl rfl rfl) (hnone (by simp) (by simp))
  | noRegion hcore hs => exact quiet (.of_core hcore rfl rfl rfl) (hnone (by simp) (by simp))
  | withRegion r hr hcore hs =>
      exact quiet (.of_core hcore rfl rfl rfl) (hnone (by simp) (by simp))
  | @bodyRet result _ f stack hst ht =>
      have hx : (s.rt.bodyLeft f result).ctxs = s.rt.ctxs := by
        have hcore := congrArg Core.ctxs (bodyLeft_core s.rt f result)
        split at hcore <;> exact hcore
      rw [turn_slot ht, hx]
  | installRet f stack hst hcore hs =>
      exact quiet (.of_core hcore rfl rfl rfl) (hnone (by simp) (by simp))
  | scopeRet id r stack hst hcore hs =>
      exact quiet (.of_core hcore rfl rfl rfl) (hnone (by simp) (by simp))

theorem lastStored_snoc {m : State} :
    lastStored (tr ++ [(m, e)]) t c = (t.stored c).or (lastStored tr m c) := by
  have hstates : (Run.states (tr ++ [(m, e)]) t).tail = (Run.states tr m).tail ++ [t] := by
    cases tr <;> simp [Run.states]
  rw [lastStored, hstates, List.reverse_append, List.reverse_singleton, List.singleton_append,
    List.findSome?_cons]
  cases t.stored c <;> rfl

/-- What a slot holds after a run: the block stored last, or what it held before. -/
theorem steps_slot (hi : Inv E s) (h : Run.Steps (step E) s tr t) (c : CtxPtr) :
    (t.rt.ctxs c).regionState = (lastStored tr t c).getD (s.rt.ctxs c).regionState := by
  induction h with
  | nil => rfl
  | @snoc m t tr e hrun hs ih =>
      rw [step_slot (steps_old hi hrun).1 hs, ih, lastStored_snoc]
      cases t.stored c <;> rfl

theorem turn_frames {m : Runtime} {stack : List Frame} (hi : Inv E s)
    (hents : m.core.entries = s.rt.core.entries) (hnext : m.entryNext = s.rt.entryNext)
    (h : Turn m stack f t) (g : Frame) (hg : g ∈ t.stack) :
    g ∈ stack ∨ (∀ p, g.owner = some p → p < t.rt.entryNext) ∧
    ∀ f, g = .body f → t.entering = some f ∧ f.me < s.rt.entryNext := by
  cases h with
  | ends hc hs hst => exact .inl (hs ▸ hg)
  | enters k p me c he hctx hrt hs hst =>
      obtain ⟨id, r, heq, -⟩ := callEnter_eq m { f with mi := k } p me c
      have htn : t.rt.entryNext = s.rt.entryNext := by
        rw [hrt, heq]
        exact hnext
      have made : p < s.rt.entryNext := by
        have hk : (s.rt.entries p).map ModEntry.core = (m.entries p).map ModEntry.core :=
          (congrFun hents p).symm
        rw [he] at hk
        obtain ⟨x, hx, -⟩ := Option.map_eq_some_iff.mp hk
        obtain ⟨L, hw⟩ := hi.wf
        exact hw.lt_next hx
      rw [hs] at hg
      rcases List.mem_cons.mp hg with rfl | hg
      · refine .inr ⟨fun q hq => ?_, fun f hf => ?_⟩
        · obtain rfl : p = q := Option.some.inj hq
          exact made.trans_eq htn.symm
        · cases hf
          exact ⟨State.entering_iff.mpr ⟨hst, stack, hs⟩, made⟩
      · exact .inl hg

/-- A frame on the stack was there before the step or has just been made. -/
theorem step_frames (hi : Inv E s) (h : step E s e = .ok t) (g : Frame) (hg : g ∈ t.stack) :
    g ∈ s.stack ∨ (∀ p, g.owner = some p → p < t.rt.entryNext) ∧
    ∀ f, g = .body f → t.entering = some f ∧ f.me < s.rt.entryNext := by
  have loaded : ∀ {n : Runtime} {fname ch reload out}, LoadEffect E n fname ch reload t.rt out →
      t.stack = pushInstall s.stack out →
      g ∈ s.stack ∨ (∀ p, g.owner = some p → p < t.rt.entryNext) ∧
    ∀ f, g = .body f → t.entering = some f ∧ f.me < s.rt.entryNext := by
    intro n fname ch reload out hl hs
    rw [hs] at hg
    cases out with
    | done ret => exact .inl hg
    | wait f =>
        obtain ⟨hf, hlt, -⟩ := hl.installed
        rcases List.mem_cons.mp hg with rfl | hg
        · refine .inr ⟨fun q hq => ?_, fun f' hf' => by cases hf'⟩
          obtain rfl : f.modEntry = q := Option.some.inj hq
          exact hf ▸ hlt
        · exact .inl hg
  cases step_effect hi h with
  | areg hooks hcore hs => exact .inl (hs ▸ hg)
  | selfInitCtx hcore hs => exact .inl (hs ▸ hg)
  | load out hl hs => exact loaded hl hs
  | unload m ret hu hcore hs => exact .inl (hs ▸ hg)
  | reload out hr hs =>
      cases hr with
      | missing hl ht =>
          rw [hs] at hg
          exact .inl hg
      | back p x hl he m hu m' ret hload ht =>
          rw [hs] at hg
          exact .inl hg
      | waits p x hl he m hu f hload => exact loaded hload hs
  | deny r hr hcore hs => exact .inl (hs ▸ hg)
  | requireClaim r hr hcore hs => exact .inl (hs ▸ hg)
  | call m f hooks hm hid ht =>
      exact turn_frames hi (congrArg Core.entries hm : _) (congrArg Core.entryNext hm : _) ht g hg
  | last hcore hs => exact .inl (hs ▸ hg)
  | noRegion hcore hs => exact .inl (hs ▸ hg)
  | withRegion r hr hcore hs =>
      rw [hs] at hg
      rcases List.mem_cons.mp hg with rfl | hg
      · refine .inr ⟨fun p hp => ?_, fun f hf => ?_⟩
        · cases hp
        · cases hf
      · exact .inl hg
  | @bodyRet result _ f stack hst ht =>
      have hcore := bodyLeft_core s.rt f result
      have hents : (s.rt.bodyLeft f result).core.entries = s.rt.core.entries := by
        rw [hcore]
        split <;> rfl
      have hnext : (s.rt.bodyLeft f result).core.entryNext = s.rt.core.entryNext := by
        rw [hcore]
        split <;> rfl
      rcases turn_frames hi hents hnext ht g hg with hg | hg
      · exact .inl (hst ▸ List.mem_cons_of_mem _ hg)
      · exact .inr hg
  | installRet f stack hst hcore hs => exact .inl (hst ▸ List.mem_cons_of_mem _ (hs ▸ hg))
  | scopeRet id r stack hst hcore hs => exact .inl (hst ▸ List.mem_cons_of_mem _ (hs ▸ hg))

def OwnersMade (s : State) : Prop := ∀ g ∈ s.stack, ∀ p, g.owner = some p → p < s.rt.entryNext

theorem step_ownersMade (hi : Inv E s) (h : step E s e = .ok t) (hm : OwnersMade s) : OwnersMade t := by
  intro g hg p hp
  rcases step_frames hi h g hg with hg | ⟨hlt, -⟩
  · exact (hm g hg p hp).trans_le (step_old hi h).1
  · exact hlt p hp

theorem Boot.no_frame (h : Boot s) (g : Frame) : g ∉ s.stack := by
  rw [h.stack]
  exact List.not_mem_nil

theorem ownersMade (h : Runs E s₀ tr s) : OwnersMade s :=
  (h.2.invariant (P := fun s => Inv E s ∧ OwnersMade s) (C := fun _ _ _ => True)
    (fun _ _ _ hs _ hm => ⟨hm.1.step hs, step_ownersMade hm.1 hs hm.2⟩) (fun _ _ _ _ => trivial)
    ⟨Inv.boot h.1, fun g hg => absurd hg (h.1.no_frame g)⟩).2

theorem owner_made (hm : OwnersMade s) {p : EntryPtr} (hp : s.owner = some p) : p < s.rt.entryNext := by
  obtain ⟨g, hg, hgp⟩ := List.exists_of_findSome?_eq_some hp
  exact hm g hg p hgp

theorem stored_cases {b : Option StatePtr} (h : s.stored c = some b) : ∃ f x, s.entering = some f ∧
    s.rt.entries f.me = some x ∧ x.ctx = some c ∧ b = x.regionState := by
  obtain ⟨f, hf, h⟩ := Option.bind_eq_some_iff.mp h
  obtain ⟨x, hx, h⟩ := Option.bind_eq_some_iff.mp h
  split at h
  · rename_i hc
    exact ⟨f, x, hf, hx, hc, (Option.some.inj h).symm⟩
  · cases h

theorem entering_old (hi : Inv E s) (h : step E s e = .ok t) (hm : OwnersMade s)
    (hf : t.entering = some f) : f.me < s.rt.entryNext := by
  obtain ⟨-, stack, hs⟩ := State.entering_iff.mp hf
  rcases step_frames hi h (.body f) (by simp [hs]) with hg | ⟨-, hnew⟩
  · exact hm _ hg _ rfl
  · exact (hnew f rfl).2

/-- A body that control has just come to finds its own block. -/
theorem entered_sees (hi : Inv E s) (h : step E s e = .ok t) (hf : t.entering = some f) :
    SeesOwnState t := by
  intro p x c hp hx hc
  obtain ⟨-, stack, hs⟩ := State.entering_iff.mp hf
  have hfp : f.me = p := by
    rw [State.owner, hs] at hp
    exact Option.some.inj hp
  rw [step_slot hi h, stored_entering hf (hfp ▸ hx) hc]
  rfl

/-- It is a load, perhaps that of a reload, which starts `xy_install`. -/
theorem install_starts {f : LoadFrame} (hi : Inv E s) (h : step E s e = .ok t)
    (hs : t.stack = .install f :: s.stack) : ∃ n fname ch rf,
      LoadEffect E n fname ch rf t.rt (.wait f) ∧ n.stateNext = s.rt.stateNext := by
  have kept : ∀ {l : List Frame}, t.stack = l → l.length ≤ s.stack.length → False := by
    intro l hl hlen
    rw [← hl, hs, List.length_cons] at hlen
    exact absurd hlen (Nat.not_succ_le_self _)
  have turn : ∀ {m : Runtime} {stack g}, stack.length ≤ s.stack.length → Turn m stack g t → False := by
    intro m stack g hle ht
    cases ht with
    | ends hc hst _ => exact kept hst hle
    | enters k p me c he hctx hrt hst _ =>
        rw [hs] at hst
        cases hst
  cases step_effect hi h with
  | load out hl hst =>
      cases out with
      | done ret => exact (kept hst le_rfl).elim
      | wait g =>
          obtain rfl : f = g := by
            rw [hs] at hst
            cases hst
            rfl
          exact ⟨_, _, _, _, hl, rfl⟩
  | reload out hr hst =>
      cases hr with
      | missing hl ht => exact (kept hst le_rfl).elim
      | back p x hl he m hu m' ret hload ht => exact (kept hst le_rfl).elim
      | waits p x hl he m hu g hload =>
          obtain rfl : f = g := by
            rw [hs] at hst
            cases hst
            rfl
          exact ⟨_, _, _, _, hload, congrArg Core.stateNext (modUnload_unloaded _ hu).core⟩
  | areg hooks hcore hst => exact (kept hst le_rfl).elim
  | selfInitCtx hcore hst => exact (kept hst le_rfl).elim
  | unload m ret hu hcore hst => exact (kept hst le_rfl).elim
  | deny r hr hcore hst => exact (kept hst le_rfl).elim
  | requireClaim r hr hcore hst => exact (kept hst le_rfl).elim
  | call m g hooks hm hid ht => exact (turn le_rfl ht).elim
  | last hcore hst => exact (kept hst le_rfl).elim
  | noRegion hcore hst => exact (kept hst le_rfl).elim
  | withRegion r hr hcore hst =>
      rw [hs] at hst
      cases hst
  | bodyRet g stack hst ht => exact (turn (by simp [hst]) ht).elim
  | installRet g stack hst hcore hts => exact (kept hts (by simp [hst])).elim
  | scopeRet id r stack hst hcore hts => exact (kept hts (by simp [hst])).elim

/-- A load or reload that starts `xy_install` leaves the slot to what was in it. -/
theorem install_slot {f : LoadFrame} {x : ModEntry} (hi : Inv E s) (h : step E s e = .ok t)
    (hs : t.stack = .install f :: s.stack) (hx : t.rt.entries f.modEntry = some x) :
    (t.rt.ctxs c).regionState = (s.rt.ctxs c).regionState ∧
      x.regionState = s.rt.loadedState E x.handle := by
  have hnone : t.entering = none := by
    refine Option.eq_none_iff_forall_ne_some.mpr fun g hg => ?_
    obtain ⟨-, stack, hst⟩ := State.entering_iff.mp hg
    rw [hs] at hst
    cases hst
  constructor
  · rw [step_slot hi h, stored_of_none hnone]
    rfl
  obtain ⟨n, fname, ch, rf, hl, hn⟩ := install_starts hi h hs
  rw [hl.installed.2.2 x hx, loadedState, loadedState, hn]

/-- In a run in which no body is entered above one with the same context and another
block, every body that has begun finds its own. -/
theorem bodies_keep (h : Runs E s₀ tr s) (hC : Run.Every (step E) (fun m _ t => StateKept m t) tr) :
    ∀ f, .body f ∈ s.stack → ∀ x c, s.rt.entries f.me = some x → x.ctx = some c →
      (s.rt.ctxs c).regionState = x.regionState := by
  refine (h.2.invariant (P := fun s => Inv E s ∧ OwnersMade s ∧ ∀ f, .body f ∈ s.stack → ∀ x c,
    s.rt.entries f.me = some x → x.ctx = some c → (s.rt.ctxs c).regionState = x.regionState)
    (fun m e t hs hc hm => ?_) hC ⟨Inv.boot h.1, fun g hg => absurd hg (h.1.no_frame g),
      fun f hf => absurd hf (h.1.no_frame _)⟩).2.2
  obtain ⟨hi, hmade, hown⟩ := hm
  refine ⟨hi.step hs, step_ownersMade hi hs hmade, fun f hf x c hx hxc => ?_⟩
  by_cases hent : t.entering = some f
  · obtain ⟨-, stack, hst⟩ := State.entering_iff.mp hent
    exact entered_sees hi hs hent f.me x c (by rw [State.owner, hst]; rfl) hx hxc
  rcases step_frames hi hs _ hf with hfs | ⟨-, hnew⟩
  · obtain ⟨y, hy, hid⟩ := (step_old hi hs).2 f.me (hmade _ hfs _ rfl) x hx
    have hyc : y.ctx = some c := ((congrArg ModEntry.ctx hid : _) : x.ctx = y.ctx).symm.trans hxc
    have hyb : x.regionState = y.regionState := (congrArg ModEntry.regionState hid : _)
    rw [step_slot hi hs, hown f hfs y c hy hyc, hyb]
    cases hst : t.stored c with
    | none => rfl
    | some b =>
        obtain ⟨g, z, hg, hz, hzc, rfl⟩ := stored_cases hst
        obtain ⟨w, hw, hwid⟩ := (step_old hi hs).2 g.me (entering_old hi hs hmade hg) z hz
        have hwc : w.ctx = some c := ((congrArg ModEntry.ctx hwid : _) : z.ctx = w.ctx).symm.trans hzc
        have hwb : z.regionState = w.regionState := (congrArg ModEntry.regionState hwid : _)
        have hbelow : .body f ∈ t.stack.tail := by
          obtain ⟨-, stack, hstack⟩ := State.entering_iff.mp hg
          rw [hstack] at hf ⊢
          rcases List.mem_cons.mp hf with heq | hf
          · cases heq
            exact absurd hg hent
          · exact hf
        exact hwb.trans (hc g w c hg hw hwc f hbelow y hy hyc).symm
  · exact absurd (hnew f rfl).1 hent

/-- A body finds its own block when it begins. An `xy_install` does if it has none and
the slot is empty, or if the slot already names the block that was handed out. Code that
saw its own block sees it later if the body entered last through its context has the same
one, and bodies go on seeing theirs if no step enters one with another block above them. -/
theorem sees_own_state (h : Runs E s₀ tr s) :
    (∀ e t, step E s e = .ok t → t.entering.isSome → SeesOwnState t) ∧
    (∀ e t f x c, step E s e = .ok t → t.stack = .install f :: s.stack →
      t.rt.entries f.modEntry = some x → x.ctx = some c →
      ((t.rt.ctxs c).regionState = x.regionState ↔
        E.regionStateSize x.handle = 0 ∧ (s.rt.ctxs c).regionState = none ∨
        0 < E.regionStateSize x.handle ∧ (s.rt.ctxs c).regionState = some s.rt.stateNext)) ∧
    (∀ tr' t, Run.Steps (step E) s tr' t → t.owner = s.owner → SeesOwnState s →
      (SeesOwnState t ↔ ∀ p x c b, t.owner = some p → t.rt.entries p = some x → x.ctx = some c →
        lastStored tr' t c = some b → b = x.regionState)) ∧
    (Run.Every (step E) (fun m _ t => StateKept m t) tr → ∀ f, .body f ∈ s.stack → ∀ x c,
      s.rt.entries f.me = some x → x.ctx = some c → (s.rt.ctxs c).regionState = x.regionState) := by
  have hi : Inv E s := h.inv
  refine ⟨fun e t hs hf => ?_, fun e t f x c hs hst hx hc => ?_, fun tr' t hrun howner hown => ?_,
    bodies_keep h⟩
  · obtain ⟨f, hf⟩ := Option.isSome_iff_exists.mp hf
    exact entered_sees hi hs hf
  · obtain ⟨hslot, hblock⟩ := install_slot (c := c) hi hs hst hx
    rw [hslot, hblock, loadedState]
    rcases Nat.eq_zero_or_pos (E.regionStateSize x.handle) with hz | hpos
    · simp [hz]
    · simp [hpos, hpos.ne']
  -- what the slot held before is the block of the same instance
  have before : ∀ {p x c}, t.owner = some p → t.rt.entries p = some x → x.ctx = some c →
      (s.rt.ctxs c).regionState = x.regionState := by
    intro p x c hp hx hc
    have hp' : s.owner = some p := howner ▸ hp
    obtain ⟨y, hy, hid⟩ := (steps_old hi hrun).2.2 p (owner_made (ownersMade h) hp') x hx
    have hyc : y.ctx = some c := ((congrArg ModEntry.ctx hid : _) : x.ctx = y.ctx).symm.trans hc
    exact (hown p y c hp' hy hyc).trans (congrArg ModEntry.regionState hid : _).symm
  constructor
  · intro hsees p x c b hp hx hc hb
    have hslot := steps_slot hi hrun c
    rw [hb] at hslot
    exact hslot.symm.trans (hsees p x c hp hx hc)
  · intro hlast p x c hp hx hc
    rw [steps_slot hi hrun c]
    cases hb : lastStored tr' t c with
    | none => exact before hp hx hc
    | some b => exact hlast p x c b hp hx hc hb

end

/-- A body of `r`, which has a state block, calls the hook, so that a second body of it
runs and returns: it sees its block before and after. -/
theorem sees_own_state_nested : ∃ s t,
    Run.exec (step sampleEnv) sampleState
      [.areg 0, .load "r" { addr := 1 }, .installRet, .call none (some 0)] = .ok s ∧
    Run.exec (step sampleEnv) s [.call none (some 0), .bodyRet [0]] = .ok t ∧
    t.owner = some 0 ∧ (t.rt.entries 0).map (·.regionState) = some (some 0) ∧
    SeesOwnState s ∧ SeesOwnState t := by
  obtain ⟨m, hm, hobs⟩ := sample_check [.areg 0, .load "r" { addr := 1 }, .installRet]
    (fun m => Run.check (step sampleEnv) m [.call none (some 0)] fun s =>
      s.entering.isSome && Run.check (step sampleEnv) s [.call none (some 0), .bodyRet [0]] fun t =>
        decide (t.owner = some 0) && decide (s.owner = some 0) &&
        decide ((t.rt.entries 0).map (·.regionState) = some (some 0)) &&
        decide ((t.rt.entries 0).map (·.ctx) = some (some 4)) &&
        decide (lastStored (Run.trace (step sampleEnv) s [.call none (some 0), .bodyRet [0]]) t 4 =
          some (some 0))) (by decide)
  obtain ⟨s, hs, hobs⟩ := Run.of_check hobs
  obtain ⟨hent, hobs⟩ := (Bool.and_eq_true _ _).mp hobs
  obtain ⟨t, ht, hobs⟩ := Run.of_check hobs
  simp only [Bool.and_eq_true, decide_eq_true_eq] at hobs
  obtain ⟨⟨⟨⟨howner, howner'⟩, hblock⟩, hctx⟩, hlast⟩ := hobs
  have hstep := Run.exec_single hs
  have hsees : SeesOwnState s := (sees_own_state (sample_runs hm)).1 _ s hstep hent
  have hruns : Runs sampleEnv sampleState _ s := ⟨sampleState_boot, .snoc (Run.exec_steps hm) hstep⟩
  refine ⟨s, t, Run.exec_append _ hm hs, ht, howner, hblock, hsees, ?_⟩
  refine ((sees_own_state hruns).2.2.1 _ t (Run.exec_steps ht) (howner.trans howner'.symm) hsees).mpr ?_
  intro p x c b hp hx hc hb
  obtain rfl : p = 0 := Option.some.inj (hp.symm.trans howner)
  rw [hx] at hblock hctx
  obtain rfl : c = 4 := Option.some.inj (hc.symm.trans (Option.some.inj hctx))
  rw [hlast] at hb
  exact (Option.some.inj hb).symm.trans (Option.some.inj hblock).symm

/-- `xy_install` of `r` finds no state block although one has been made; and after
a nested call a body of `r` finds the block of the other instance. -/
theorem own_state_lost :
    (∃ s, Run.exec (step sampleEnv) sampleState [.load "r" { addr := 1 }] = .ok s ∧ ¬ SeesOwnState s) ∧
    ∃ s, Run.exec (step sampleEnv) sampleState
      [.areg 0, .load "r" { addr := 1 }, .installRet, .requireClaim (some 0) 0,
        .load "m" { addr := 2, granted := 1 }, .load "r" { addr := 3 }, .installRet, .installRet,
        .call none (some 0), .call none (some 0), .bodyRet [0], .bodyRet [0], .bodyRet [0]] = .ok s ∧
      ¬ SeesOwnState s := by
  have lost : ∀ {s : State}, (s.owner.any fun p => (s.rt.entries p).any fun e =>
      e.ctx.any fun c => decide ((s.rt.ctxs c).regionState ≠ e.regionState)) = true →
        ¬ SeesOwnState s := by
    intro s h hsees
    obtain ⟨p, hp, h⟩ := (Option.any_eq_true _ _).mp h
    obtain ⟨e, he, h⟩ := (Option.any_eq_true _ _).mp h
    obtain ⟨c, hc, h⟩ := (Option.any_eq_true _ _).mp h
    exact of_decide_eq_true h (hsees p e c hp he hc)
  constructor
  · obtain ⟨s, hs, hobs⟩ := sample_check [.load "r" { addr := 1 }]
      (fun s => s.owner.any fun p => (s.rt.entries p).any fun e =>
        e.ctx.any fun c => decide ((s.rt.ctxs c).regionState ≠ e.regionState)) (by decide)
    exact ⟨s, hs, lost hobs⟩
  · obtain ⟨s, hs, hobs⟩ := sample_check [.areg 0, .load "r" { addr := 1 }, .installRet,
        .requireClaim (some 0) 0, .load "m" { addr := 2, granted := 1 }, .load "r" { addr := 3 },
        .installRet, .installRet, .call none (some 0), .call none (some 0), .bodyRet [0], .bodyRet [0],
        .bodyRet [0]]
      (fun s => s.owner.any fun p => (s.rt.entries p).any fun e =>
        e.ctx.any fun c => decide ((s.rt.ctxs c).regionState ≠ e.regionState)) (by decide)
    exact ⟨s, hs, lost hobs⟩

end Xylem

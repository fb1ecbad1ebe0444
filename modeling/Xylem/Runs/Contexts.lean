import Xylem.Model.Linked
import Xylem.Runs.Effect

/-!
# Whose context an entry has

A load without `get_xy_ptr` takes the context that some constructor has left. It is
the image's own if nothing older was left and the image has been mapped just now.
-/
namespace Xylem

open Xylem.Runtime

/-- The image that a call of the interface opens for a new entry. -/
def Event.binds (E : Env) (s : Runtime) : Event → Option ImageId
  | .load fname ch =>
      if s.moduleLookup E fname s.currentRegionId = none ∧ ch.noMem = false then
        openedImage E s fname ch
      else none
  | .reload fname ch _ =>
      match s.moduleLookup E fname s.currentRegionId with
      | some p =>
          if (s.entries p).all (·.refcount ≤ 1) ∧ ch.noMem = false then
            openedImage E { s with reloading := true } fname ch
          else none
      | none => none
  | _ => none

/-- The context of an entry is one that its image provides, and there is none only if
the image provides none. -/
def HasOwnCtx (E : Env) (ctor : ImageId → Option CtxPtr) (en : ModEntry) : Prop :=
  match en.ctx with
  | some c => E.getXyPtr en.handle = some c ∨ ctor en.handle = some c
  | none => E.getXyPtr en.handle = none ∧ ctor en.handle = none

/-- A load of an image without `get_xy_ptr` finds what the image's own constructor has
registered. -/
def BindsOwn (E : Env) (ctor : ImageId → Option CtxPtr) (s : Linked) (e : Event) : Prop :=
  ∀ h, e.binds E s.state.rt = some h → E.getXyPtr h = none →
    (s.construct ctor (some h)).state.rt.pendingCtx = ctor h

section Binds
variable {E : Env} {s t : Runtime}

theorem openedImage_of {fname : String} {ch : LoadChoice}
    (him : ∃ im, E.dlopen (s.loading E fname ch).im = some im) :
    openedImage E s fname ch = some (s.loading E fname ch).im := by
  obtain ⟨im, him⟩ := him
  unfold openedImage
  exact if_pos (Option.isSome_iff_exists.mpr ⟨im, him⟩)

theorem Event.binds_opens {e : Event} {h : ImageId} (hb : e.binds E s = some h) :
    e.opens E s = some h := by
  cases e with
  | load fname ch =>
      simp only [Event.binds] at hb
      split at hb
      · exact hb
      · cases hb
  | reload fname ch fuel =>
      simp only [Event.binds] at hb
      simp only [Event.opens]
      cases hl : s.moduleLookup E fname s.currentRegionId with
      | none =>
          rw [hl] at hb
          cases hb
      | some p =>
          simp only [hl] at hb
          split at hb
          · exact hb
          · cases hb
  | _ => cases hb

/-- The entry that a load of `h` makes. -/
structure Binding (E : Env) (s : Runtime) (h : ImageId) (en : ModEntry) : Prop where
  handle : en.handle = h
  ctx : en.ctx = s.modLoadCtx E h

/-- An entry after a load: it was there before, or the load has made it. -/
theorem loadEffect_entry {fname : String} {ch : LoadChoice} {reload : Option ReloadFrame}
    {out : Outcome LoadFrame} (h : LoadEffect E s fname ch reload t out) {q : EntryPtr}
    {en : ModEntry} (hq : t.entries q = some en) :
    (∃ e, s.entries q = some e ∧ en.ctx = e.ctx ∧ en.handle = e.handle) ∨
      (q = s.entryNext ∧ s.moduleLookup E fname s.currentRegionId = none ∧ ch.noMem = false ∧
        (∃ im, E.dlopen (s.loading E fname ch).im = some im) ∧
        Binding E s (s.loading E fname ch).im en) := by
  have hcore : t.core.entries q = some en.core := congrArg (Option.map ModEntry.core) hq
  have old : s.core.entries q = some en.core →
      ∃ e, s.entries q = some e ∧ en.ctx = e.ctx ∧ en.handle = e.handle := by
    intro h
    obtain ⟨e, he, hec⟩ := Option.map_eq_some_iff.mp h
    exact ⟨e, he, (congrArg ModEntry.ctx hec : _).symm, (congrArg ModEntry.handle hec : _).symm⟩
  cases h with
  | same ret hret ht => exact .inl (old ((congrFun (congrArg Core.entries ht) q).symm.trans hcore))
  | reuse p e hl he ht =>
      left
      have hs : (s.setEntry p (some { e with refcount := e.refcount + 1 })).core.entries q =
          some en.core := (congrFun (congrArg Core.entries ht) q).symm.trans hcore
      rw [setEntry_core] at hs
      by_cases hqp : q = p
      · subst hqp
        simp only [Function.update_self, Option.map_some] at hs
        have h2 := Option.some.inj hs
        exact ⟨e, he, (congrArg ModEntry.ctx h2 : _).symm, (congrArg ModEntry.handle h2 : _).symm⟩
      · simp only [Function.update_of_ne hqp] at hs
        exact old hs
  | fresh out hl hmem him ha hf =>
      cases hf with
      | refused ret hret ht =>
          exact .inl (old ((congrFun (congrArg Core.entries ht) q).symm.trans hcore))
      | noInstall hi id r T index hp ht =>
          exact .inl (old ((congrFun (congrArg Core.entries ht) q).symm.trans hcore))
      | installs fn hi id r T index hp ht =>
          have he : t.core.entries = Function.update s.core.entries s.entryNext _ :=
            (congrArg Core.entries ht : _)
          rw [he] at hcore
          by_cases hqp : q = s.entryNext
          · subst hqp
            rw [Function.update_self] at hcore
            have h2 := Option.some.inj hcore
            exact .inr ⟨rfl, hl, hmem, him, (congrArg ModEntry.handle h2 : _).symm,
              (congrArg ModEntry.ctx h2 : _).symm⟩
          · rw [Function.update_of_ne hqp] at hcore
            exact .inl (old hcore)

end Binds

section Copies
variable {E : Env} {s t : Runtime}

theorem linkNext_copyNext {r : RegionPtr} {q v : Option EntryPtr} (h : s.linkNext r q v = .ok t) :
    t.copyNext = s.copyNext := by
  cases q with
  | none =>
      cases h
      rfl
  | some q =>
      obtain ⟨e, -, rfl⟩ := store_ok.mp h
      rfl

theorem linkPrev_copyNext {r : RegionPtr} {q v : Option EntryPtr} (h : s.linkPrev r q v = .ok t) :
    t.copyNext = s.copyNext := by
  cases q with
  | none =>
      cases h
      rfl
  | some q =>
      obtain ⟨e, -, rfl⟩ := store_ok.mp h
      rfl

theorem moduleRegionDetach_copyNext {p : EntryPtr} (h : s.moduleRegionDetach p = .ok t) :
    t.copyNext = s.copyNext := by
  simp only [moduleRegionDetach, Res.bind_ok] at h
  obtain ⟨e, -, h⟩ := h
  cases hr : e.regionEntry with
  | none =>
      simp only [hr, Except.ok.injEq] at h
      rw [h]
  | some r =>
      simp only [hr, Res.bind_ok, Except.ok.injEq] at h
      obtain ⟨m, hm, m', hm', rfl⟩ := h
      obtain ⟨m0, hm0, hm⟩ := Res.bind_ok.mp hm
      obtain ⟨f, -, rfl⟩ := store_ok.mp hm'
      obtain ⟨regions, hd⟩ := regionMarkSubtreeDirty_eq
        (m.setEntry p (some { f with regionPrev := none, regionNext := none })) r
      rw [hd]
      exact (linkPrev_copyNext hm).trans (linkNext_copyNext hm0)

theorem modUnloadEntry_copyNext {p : EntryPtr} (h : s.modUnloadEntry E p = .ok t) :
    t.copyNext = s.copyNext := by
  simp only [modUnloadEntry, Res.bind_ok, deref_ok, moduleFreeEntry, Except.ok.injEq] at h
  obtain ⟨e, he, m, hm, e', he', rfl⟩ := h
  have hclear : (s.moduleClearFnCacheForHandle E p e.handle).copyNext = s.copyNext := by
    unfold moduleClearFnCacheForHandle
    split <;> rfl
  have hmove := moduleRegionDetach_copyNext hm
  have hfree : ∀ (m : Runtime) (tmp : Option ImageId), (m.unlinkTmp tmp).copyNext = m.copyNext := by
    intro m tmp
    cases tmp <;> rfl
  have hclean : ∀ m : Runtime, (m.moduleCleanupRegionState E e').copyNext = m.copyNext := by
    intro m
    obtain ⟨l, hl⟩ := moduleCleanupRegionState_eq E m e'
    rw [hl]
  have hdeny : ∀ (m : Runtime) (r : RegionPtr) (path : String),
      (m.moduleRemoveDenies r path).copyNext = m.copyNext := by
    intro m r path
    unfold moduleRemoveDenies
    split <;> rfl
  rw [hfree]
  refine (hclean _).trans (hmove.trans ?_)
  cases e.regionEntry with
  | none => exact hclear
  | some r => exact (hdeny _ _ _).trans hclear

theorem modUnload_copyNext {fuel : Nat} {fname : String} {region : RegionId} {ret : Int}
    (h : s.modUnload E fuel fname region = .ok (t, ret)) : t.copyNext = s.copyNext :=
  modUnload_rel (fun a b => b.copyNext = a.copyNext) (fun _ => rfl)
    (fun _ _ _ h k => k.trans h) (fun _ => rfl) (fun _ _ _ _ => rfl)
    (fun _ _ _ => modUnloadEntry_copyNext) fuel h

theorem modUnload_counts {fuel : Nat} {fname : String} {region : RegionId} {ret : Int}
    {p : EntryPtr} {e : ModEntry} (hl : s.moduleLookup E fname region = some p)
    (he : s.entries p = some e) (hn : 1 < e.refcount)
    (h : s.modUnload E fuel fname region = .ok (t, ret)) :
    t = s.setEntry p (some { e with refcount := e.refcount - 1 }) := by
  cases fuel with
  | zero => cases h
  | succ fuel =>
      simp only [modUnload, hl, Res.bind_ok, deref_ok] at h
      obtain ⟨e', he', h⟩ := h
      cases he.symm.trans he'
      rw [if_pos (by omega)] at h
      simp only [Except.ok.injEq, Prod.mk.injEq] at h
      exact h.1.symm

end Copies

section Step
variable {E : Env} {s t : State} {e : Event}

/-- An entry after a step: it was there before, or the step has made it for an image. -/
theorem step_entry (hi : Inv E s) (h : step E s e = .ok t) {q : EntryPtr} {en : ModEntry}
    (hq : t.rt.entries q = some en) :
    (∃ x, s.rt.entries q = some x ∧ en.ctx = x.ctx ∧ en.handle = x.handle) ∨
      (q = s.rt.entryNext ∧ ∃ im, e.binds E s.rt = some im ∧ Binding E s.rt im en) := by
  have same : SameTables s.rt t.rt →
      ∃ x, s.rt.entries q = some x ∧ en.ctx = x.ctx ∧ en.handle = x.handle := by
    intro ht
    have hcore : t.rt.core.entries q = some en.core := congrArg (Option.map ModEntry.core) hq
    rw [ht.entries] at hcore
    obtain ⟨x, hx, hxc⟩ := Option.map_eq_some_iff.mp hcore
    exact ⟨x, hx, (congrArg ModEntry.ctx hxc : _).symm, (congrArg ModEntry.handle hxc : _).symm⟩
  have gone : ∀ {m : Runtime}, Unloaded s.rt m → ∀ {x : ModEntry}, m.entries q = some x →
      en.ctx = x.ctx → en.handle = x.handle →
      ∃ x, s.rt.entries q = some x ∧ en.ctx = x.ctx ∧ en.handle = x.handle := by
    intro m hun x hx h1 h2
    obtain ⟨y, hy, hyc⟩ := hun.entries q x hx
    exact ⟨y, hy, h1.trans (congrArg ModEntry.ctx hyc : _), h2.trans (congrArg ModEntry.handle hyc : _)⟩
  have heff := step_effect hi h
  cases e with
  | load fname ch =>
      cases heff with
      | load out hl hs =>
          rcases loadEffect_entry hl hq with ⟨x, hx⟩ | ⟨hp, hnone, hmem, him, hb⟩
          · exact .inl ⟨x, hx⟩
          · refine .inr ⟨hp, _, ?_, hb⟩
            simp only [Event.binds]
            rw [if_pos ⟨hnone, hmem⟩]
            exact openedImage_of him
  | unload fname fuel =>
      cases heff with
      | unload m ret hu hc hs =>
          obtain ⟨x, hx, hxc⟩ := entries_of_core hc.symm hq
          exact .inl (gone (modUnload_unloaded fuel hu) hx (congrArg ModEntry.ctx hxc : _).symm
            (congrArg ModEntry.handle hxc : _).symm)
  | reload fname ch fuel =>
      have made : ∀ {p : EntryPtr} {x : ModEntry} {m m' : Runtime} {rf : Option ReloadFrame}
          {out : Outcome LoadFrame}, s.rt.moduleLookup E fname s.rt.currentRegionId = some p →
          s.rt.entries p = some x →
          s.rt.modUnload E fuel fname s.rt.currentRegionId = .ok (m, xyOk) →
          LoadEffect E { m with reloading := true } fname ch rf m' out →
          ∀ {y : ModEntry}, m'.entries q = some y → en.ctx = y.ctx → en.handle = y.handle →
          (∃ x, s.rt.entries q = some x ∧ en.ctx = x.ctx ∧ en.handle = x.handle) ∨
            (q = s.rt.entryNext ∧ ∃ im, Event.binds E s.rt (.reload fname ch fuel) = some im ∧
              Binding E s.rt im en) := by
        intro p x m m' rf out hl hx hu hload y hy h1 h2
        have hun := modUnload_unloaded fuel hu
        have hcopy := modUnload_copyNext hu
        rcases loadEffect_entry hload hy with ⟨z, hz, hz1, hz2⟩ | ⟨hp, hnone, hmem, him, hb⟩
        · exact .inl (gone hun hz (h1.trans hz1) (h2.trans hz2))
        · have hnext : m.entryNext = s.rt.entryNext := congrArg Core.entryNext hun.core
          have hpend : m.pendingCtx = s.rt.pendingCtx := congrArg Core.pendingCtx hun.core
          have himage : (loading E { m with reloading := true } fname ch).im =
              (loading E { s.rt with reloading := true } fname ch).im := by
            simp only [loading, modLoadImage, hcopy]
          have hlast : x.refcount ≤ 1 := by
            by_contra hn
            have hm := modUnload_counts hl hx (by omega) hu
            have hcur : m.currentRegionId = s.rt.currentRegionId :=
              congrArg Core.currentRegionId hun.core
            have hstill : m.moduleLookup E fname m.currentRegionId = some p := by
              rw [hcur, hm]
              exact hl
            exact absurd (hnone.symm.trans hstill) nofun
          refine .inr ⟨hp.trans hnext,
            (loading E { s.rt with reloading := true } fname ch).im, ?_, ?_⟩
          · simp only [Event.binds, hl, hx]
            rw [if_pos ⟨by simpa using hlast, hmem⟩]
            exact openedImage_of (himage ▸ him)
          · refine ⟨h2.trans (hb.handle.trans himage), h1.trans (hb.ctx.trans ?_)⟩
            show (E.getXyPtr _ <|> m.pendingCtx) = (E.getXyPtr _ <|> s.rt.pendingCtx)
            rw [himage, hpend]
      cases heff with
      | reload out hr hs =>
          cases hr with
          | missing hl ht => exact .inl (same (.of_core ht rfl rfl rfl rfl))
          | back p x hl hx m hu m' ret hload ht =>
              obtain ⟨y, hy, hyc⟩ := entries_of_core (t := { m' with reloading := false }) ht.symm hq
              exact made hl hx hu hload hy (congrArg ModEntry.ctx hyc : _).symm
                (congrArg ModEntry.handle hyc : _).symm
          | waits p x hl hx m hu f hload => exact made hl hx hu hload hq rfl rfl
  | _ => exact .inl (same (step_tables hi h nofun nofun nofun))

end Step

namespace Linked
variable {E : Env} {ctor : ImageId → Option CtxPtr} {s₀ s t : Linked} {e : Event}
  {tr : List (Linked × Event)}

theorem construct_state (ctor : ImageId → Option CtxPtr) (s : Linked) (o : Option ImageId) :
    ∃ p, (s.construct ctor o).state =
    { s.state with rt := { s.state.rt with pendingCtx := p } } := by
  cases o with
  | none => exact ⟨s.state.rt.pendingCtx, rfl⟩
  | some h =>
      simp only [construct]
      by_cases hm : h ∈ s.mapped
      · exact ⟨s.state.rt.pendingCtx, by rw [if_pos hm]⟩
      · simp only [if_neg hm]
        cases hc : ctor h with
        | none => exact ⟨s.state.rt.pendingCtx, rfl⟩
        | some c => exact ⟨some c, rfl⟩

theorem step_ok (h : step E ctor s e = .ok t) :
    Xylem.step E (s.construct ctor (e.opens E s.state.rt)).state e = .ok t.state := by
  cases e with
  | selfInitCtx c => cases h
  | _ =>
      simp only [step] at h
      obtain ⟨m, hm, rfl⟩ := Res.map_ok.mp h
      exact hm

theorem construct_inv (hi : Inv E s.state) (o : Option ImageId) :
    Inv E (s.construct ctor o).state := by
  obtain ⟨p, hp⟩ := s.construct_state ctor o
  rw [hp]
  exact Inv.of_sameHeap hi ⟨rfl, rfl, rfl, rfl, rfl, rfl, rfl, rfl, rfl, rfl, rfl, rfl, List.prefix_rfl⟩
    ⟨hi.registry.lt, hi.registry.inj, hi.registry.sica, hi.registry.held⟩ rfl rfl

theorem binds_construct (s : Linked) (o : Option ImageId) (e : Event) :
    e.binds E (s.construct ctor o).state.rt = e.binds E s.state.rt := by
  obtain ⟨p, hp⟩ := s.construct_state ctor o
  rw [hp]
  cases e <;> rfl

/-- The entry that a step makes has its image's own context exactly if the step binds it
to that. -/
theorem binding_owned {h : ImageId} {en : ModEntry} (hb : e.binds E s.state.rt = some h)
    (hen : Binding E (s.construct ctor (some h)).state.rt h en) :
    HasOwnCtx E ctor en ↔ BindsOwn E ctor s e := by
  have hctx := hen.ctx
  constructor
  · intro ho h' hb' hno
    cases hb.symm.trans hb'
    have hp : en.ctx = (s.construct ctor (some h)).state.rt.pendingCtx := by
      rw [hctx, modLoadCtx, hno]
      rfl
    rw [← hp]
    unfold HasOwnCtx at ho
    cases hc : en.ctx with
    | none =>
        rw [hc] at ho
        rw [← hen.handle]
        exact ho.2.symm
    | some c =>
        rw [hc, hen.handle, hno] at ho
        exact (ho.resolve_left nofun).symm
  · intro hown
    unfold HasOwnCtx
    rw [hen.handle, hctx, modLoadCtx]
    cases hx : E.getXyPtr h with
    | some c => exact .inl rfl
    | none =>
        have hp := hown h hb hx
        show match (s.construct ctor (some h)).state.rt.pendingCtx with
          | some c => none = some c ∨ ctor h = some c
          | none => none = none ∧ ctor h = none
        rw [hp]
        cases hc : ctor h with
        | none => exact ⟨rfl, rfl⟩
        | some c => exact .inr rfl

/-- An entry after a step: an older one with the context it had, or the step's own. -/
theorem step_entry (hi : Inv E s.state) (h : step E ctor s e = .ok t) {q : EntryPtr}
    {en : ModEntry} (hq : t.state.rt.entries q = some en) :
    (∃ x, s.state.rt.entries q = some x ∧ en.ctx = x.ctx ∧ en.handle = x.handle) ∨
      (q = s.state.rt.entryNext ∧ (HasOwnCtx E ctor en ↔ BindsOwn E ctor s e)) := by
  have hstep := step_ok h
  obtain ⟨p, hp⟩ := s.construct_state ctor (e.opens E s.state.rt)
  rcases Xylem.step_entry (construct_inv hi _) hstep hq with ⟨x, hx, h1, h2⟩ | ⟨hn, im, hb, hen⟩
  · rw [hp] at hx
    exact .inl ⟨x, hx, h1, h2⟩
  · rw [hp] at hn
    rw [binds_construct] at hb
    rw [Event.binds_opens hb] at hen
    exact .inr ⟨hn, binding_owned hb hen⟩

theorem step_inv (hi : Inv E s.state) (h : step E ctor s e = .ok t) : Inv E t.state :=
  (construct_inv hi _).step (step_ok h)

/-- If every load of a run binds its image's own context, every live entry has its image's
own, or none where the image provides none; and a step's new entry has it only then. -/
theorem entries_own_contexts (h : Runs E ctor s₀ tr s) :
    (Run.Every (step E ctor) (fun m e _ => BindsOwn E ctor m e) tr →
      ∀ p en, s.state.rt.entries p = some en → HasOwnCtx E ctor en) ∧
    ∀ e t en, step E ctor s e = .ok t → t.state.rt.entries s.state.rt.entryNext = some en →
      (HasOwnCtx E ctor en ↔ BindsOwn E ctor s e) := by
  have hinv : Inv E s.state := h.2.invariant (P := fun s => Inv E s.state)
    (C := fun _ _ _ => True) (fun m e t hs _ hi => step_inv hi hs) (fun _ _ _ _ => trivial)
    (Inv.boot h.1.state)
  refine ⟨fun hC => ?_, fun e t en hs hen => ?_⟩
  · have key : Inv E s.state ∧ ∀ p en, s.state.rt.entries p = some en → HasOwnCtx E ctor en := by
      refine h.2.invariant (P := fun s => Inv E s.state ∧
        ∀ p en, s.state.rt.entries p = some en → HasOwnCtx E ctor en)
        (C := fun m e _ => BindsOwn E ctor m e) ?_ hC ⟨Inv.boot h.1.state, ?_⟩
      · rintro m e t hs hown ⟨hi, hm⟩
        refine ⟨step_inv hi hs, fun p en hp => ?_⟩
        rcases step_entry hi hs hp with ⟨x, hx, h1, h2⟩ | ⟨-, hiff⟩
        · have hx := hm p x hx
          unfold HasOwnCtx at hx ⊢
          rw [h1, h2]
          exact hx
        · exact hiff.mpr hown
      · intro p en hp
        rw [h.1.state.entries] at hp
        cases hp
    exact key.2
  · obtain ⟨L, hw⟩ := hinv.wf
    rcases step_entry hinv hs hen with ⟨x, hx, -⟩ | ⟨-, hiff⟩
    · rw [hw.fresh _ le_rfl] at hx
      cases hx
    · exact hiff

/-- A copy of `x` that a reload opens only to count leaves its context behind, and `n`,
which provides none, gets it. -/
theorem takes_pending_context : ∃ tr s, Runs (plainEnv linkedFiles) linkedCtor linkedState tr s ∧
    ∃ p en, s.state.rt.entries p = some en ∧ ¬ HasOwnCtx (plainEnv linkedFiles) linkedCtor en := by
  obtain ⟨s, hs, hobs⟩ := Run.exec_of_check (step (plainEnv linkedFiles) linkedCtor)
    linkedState [.load "x" { addr := 1 }, .installRet, .load "x" {}, .reload "x" {} 9,
      .load "n" { addr := 2 }]
    (fun s => (s.state.rt.entries 1).any fun en : ModEntry => decide (en.ctx = some 1) &&
      decide ((plainEnv linkedFiles).getXyPtr en.handle = none) &&
      decide (linkedCtor en.handle = none)) (by decide)
  obtain ⟨en, hen, hen'⟩ := (Option.any_eq_true _ _).mp hobs
  simp only [Bool.and_eq_true, decide_eq_true_eq] at hen'
  obtain ⟨⟨hctx, hget⟩, hctor⟩ := hen'
  refine ⟨_, s, ⟨linkedState_boot, Run.exec_steps hs⟩, 1, en, hen, ?_⟩
  unfold HasOwnCtx
  rw [hctx, hget, hctor]
  rintro (h | h) <;> cases h

theorem entries_own_contexts_first : ∃ tr s, Runs (plainEnv linkedFiles) linkedCtor linkedState tr s ∧
    ∀ p en, s.state.rt.entries p = some en → HasOwnCtx (plainEnv linkedFiles) linkedCtor en := by
  obtain ⟨s, hs, -⟩ := Run.exec_of_check (step (plainEnv linkedFiles) linkedCtor)
    linkedState [.load "x" { addr := 1 }] (fun _ => true) (by decide)
  have hruns : Runs (plainEnv linkedFiles) linkedCtor linkedState _ s :=
    ⟨linkedState_boot, Run.exec_steps hs⟩
  refine ⟨_, s, hruns, (entries_own_contexts hruns).1 (Run.every_trace fun m _ => ⟨?_, Run.Every.nil⟩)⟩
  intro h hb _
  have hx : Event.binds (plainEnv linkedFiles) linkedState.state.rt (.load "x" { addr := 1 }) =
      some ⟨"x", 0⟩ := by decide
  cases hx.symm.trans hb
  decide

end Linked

end Xylem

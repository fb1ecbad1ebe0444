import Xylem.Runs.Effect

namespace Xylem

open Xylem.Runtime

/-- Entries and hooks are as they were, and so are the regions but for their rules. -/
structure Still (s t : Runtime) : Prop where
  entries : t.entries = s.entries
  entryNext : t.entryNext = s.entryNext
  hookIdHd : t.hookIdHd = s.hookIdHd
  regions : ∀ r, OtherRules (s.regions r) (t.regions r)

theorem Still.of_regions {s t : Runtime} (he : t.entries = s.entries) (hn : t.entryNext = s.entryNext)
    (hh : t.hookIdHd = s.hookIdHd) (hr : t.regions = s.regions) : Still s t :=
  ⟨he, hn, hh, fun r => by rw [hr]; exact .refl _⟩

/-- The events whose step changes entries or lists, or fills caches. -/
def TouchesHeap (s : State) : Event → Prop
  | .areg _ | .load .. | .unload .. | .reload .. | .call .. | .bodyRet _ => True
  | .installRet => ∃ f rest, s.stack = .install f :: rest ∧ f.reload ≠ none
  | _ => False

section
variable {E : Env} {s t : State} {e : Event}

theorem step_still (hi : Inv E s) (h : step E s e = .ok t) (hno : ¬ TouchesHeap s e) :
    Still s.rt t.rt := by
  cases e with
  | areg | load | unload | reload | call | bodyRet => exact absurd trivial hno
  | selfInitCtx c =>
      cases h
      exact .of_regions rfl rfl rfl rfl
  | deny what type =>
      cases h
      obtain ⟨r, hr⟩ := Option.isSome_iff_exists.mp hi.current.id
      obtain ⟨regions, hR, hrules⟩ := xyDeny_rules E s.rt what type hr
      rw [State.back, hR]
      exact ⟨rfl, rfl, rfl, hrules⟩
  | requireClaim fn ud =>
      cases h
      obtain ⟨r, hr⟩ := Option.isSome_iff_exists.mp hi.current.id
      obtain ⟨-, regions, hR, hrules⟩ := xyRequireClaim_rules s.rt fn ud hr
      rw [State.back, hR]
      exact ⟨rfl, rfl, rfl, hrules⟩
  | last ret =>
      cases h
      obtain ⟨bufs, err, hl⟩ := xyLast_eq s.rt ret
      rw [State.back, hl]
      exact .of_regions rfl rfl rfl rfl
  | withRegion id =>
      cases h
      unfold xyWithRegion
      cases hr : s.rt.regionLookup id with
      | none => exact .of_regions rfl rfl rfl rfl
      | some r => exact .of_regions rfl rfl rfl rfl
  | installRet =>
      simp only [Xylem.step] at h
      split at h
      · rename_i f rest hst
        obtain ⟨m, hr, rfl⟩ := Res.map_ok.mp h
        have hf : f.reload = none := by
          by_contra hf
          exact hno ⟨f, rest, hst, hf⟩
        simp only [Runtime.installReturn, hf, Except.ok.injEq] at hr
        subst hr
        exact .of_regions rfl rfl rfl rfl
      · cases h
  | scopeRet code =>
      simp only [Xylem.step] at h
      split at h
      · cases h
        exact .of_regions rfl rfl rfl rfl
      · cases h

/-- A step that touches the heap is made of elementary operations, or registers a hook. -/
theorem step_touches (hi : Inv E s) (h : step E s e = .ok t) (htouch : TouchesHeap s e) :
    (∃ a, e = .areg a) ∨ ∃ g, Prims E g (s.rt, .none) (t.rt, .none) := by
  obtain ⟨L, hw⟩ := hi.wf
  cases e with
  | areg a => exact .inl ⟨a, rfl⟩
  | selfInitCtx | deny | requireClaim | last | withRegion | scopeRet => cases htouch
  | load fname ch =>
      obtain ⟨⟨m, out⟩, hr, rfl⟩ := Res.map_ok.mp h
      obtain ⟨⟨n, out'⟩, hn, hr⟩ := Res.bind_ok.mp hr
      have hp := modLoad_prims hw hi.current.id hn
      cases out' with
      | done ret =>
          cases hr
          exact .inr ⟨_, hp.tail (.scratch (setErr_sameHeap _ _))⟩
      | wait f =>
          cases hr
          exact .inr ⟨_, hp⟩
  | unload fname fuel =>
      obtain ⟨r, hr, rfl⟩ := Res.map_ok.mp h
      obtain ⟨⟨m, ret⟩, hu, hr⟩ := Res.bind_ok.mp hr
      cases hr
      have hp : Prims E (fun _ _ => True) (s.rt, .none) (m, .none) := modUnload_prims fuel hu
      exact .inr ⟨_, hp.tail (.scratch (setErr_sameHeap _ _))⟩
  | reload fname ch fuel =>
      obtain ⟨⟨m, out⟩, hr, rfl⟩ := Res.map_ok.mp h
      have hp := (xyReload_spec hw hi.ctxs hi.current.id hr).2
      cases out with
      | done ret => exact .inr ⟨_, hp⟩
      | wait f => exact .inr ⟨_, hp⟩
  | call retp reg =>
      obtain ⟨⟨m, r⟩, hr, rfl⟩ := Res.map_ok.mp h
      have hp : Prims E (fun _ _ => True) (s.rt, .none) (m, .none) :=
        (xyCall_straight hi.registry hr).prims
      rw [afterCall_rt]
      exact .inr ⟨_, hp⟩
  | bodyRet result =>
      simp only [Xylem.step] at h
      split at h
      · obtain ⟨⟨m, r⟩, hr, rfl⟩ := Res.map_ok.mp h
        have hp : Prims E (fun _ _ => True) (s.rt, .none) (m, .none) := (bodyReturn_straight hr).prims
        rw [afterCall_rt]
        exact .inr ⟨_, hp⟩
      · cases h
  | installRet =>
      obtain ⟨f, rest, hst, hf⟩ := htouch
      obtain ⟨rf, hf⟩ := Option.ne_none_iff_exists'.mp hf
      simp only [Xylem.step, hst] at h
      obtain ⟨m, hr, rfl⟩ := Res.map_ok.mp h
      obtain ⟨-, hrel⟩ := hi.frames (.install f) (hst ▸ List.mem_cons_self)
      simp only [Runtime.installReturn, hf, Res.bind_ok, Except.ok.injEq] at hr
      obtain ⟨v, hv, rfl⟩ := hr
      have h0 : Prims E (fun _ _ => True) (s.rt, .none)
          ({ s.rt.modLoadFinish f with reloading := false }, .none) :=
        .single (.scratch ⟨rfl, rfl, rfl, rfl, rfl, rfl, rfl, rfl, rfl, rfl, rfl, rfl, List.prefix_rfl⟩)
      obtain ⟨L0, hw0⟩ := hw.prims h0
      have hok : ReloadOk E { s.rt.modLoadFinish f with reloading := false } rf :=
        ⟨(hrel rf hf).region, (hrel rf hf).anchor⟩
      exact .inr ⟨_, (h0.trans (xyReloadFinish_prims hw0 hok hv)).tail
        (.scratch (setErr_sameHeap v xyOk))⟩

/-- A step is made of elementary operations, or registers a hook, or leaves the heap alone. -/
theorem step_prims (hi : Inv E s) (h : step E s e = .ok t) :
    (∃ a, e = .areg a) ∨ (∃ g, Prims E g (s.rt, .none) (t.rt, .none)) ∨ Still s.rt t.rt := by
  by_cases htouch : TouchesHeap s e
  · exact (step_touches hi h htouch).imp_right .inl
  · exact .inr (.inr (step_still hi h htouch))

/-- A step that neither registers a hook nor sets rules is made of elementary operations. -/
theorem step_rules (hi : Inv E s) (h : step E s e = .ok t) :
    (∃ a, e = .areg a) ∨ (∃ g, Prims E g (s.rt, .none) (t.rt, .none)) ∨
      (∃ what type, e = .deny what type) ∨ ∃ fn ud, e = .requireClaim fn ud := by
  have scratch : ∀ {n : Runtime}, SameHeap s.rt n →
      ∃ g, Prims E g (s.rt, .none) (n, .none) := fun hs => ⟨fun _ _ => True, .single (.scratch hs)⟩
  by_cases htouch : TouchesHeap s e
  · exact (step_touches hi h htouch).imp_right .inl
  right
  cases e with
  | areg | load | unload | reload | call | bodyRet => exact absurd trivial htouch
  | deny what type => exact .inr (.inl ⟨what, type, rfl⟩)
  | requireClaim fn ud => exact .inr (.inr ⟨fn, ud, rfl⟩)
  | selfInitCtx c =>
      cases h
      exact .inl (scratch ⟨rfl, rfl, rfl, rfl, rfl, rfl, rfl, rfl, rfl, rfl, rfl, rfl, List.prefix_rfl⟩)
  | last ret =>
      cases h
      obtain ⟨bufs, err, hl⟩ := xyLast_eq s.rt ret
      rw [State.back, hl]
      exact .inl (scratch ⟨rfl, rfl, rfl, rfl, rfl, rfl, rfl, rfl, rfl, rfl, rfl, rfl, List.prefix_rfl⟩)
  | withRegion id =>
      cases h
      unfold xyWithRegion
      cases hr : s.rt.regionLookup id with
      | none => exact .inl (scratch (setErr_sameHeap _ _))
      | some r => exact .inl (scratch (setCurrentRegion_sameHeap _ _ _))
  | installRet =>
      simp only [Xylem.step] at h
      split at h
      · rename_i f rest hst
        obtain ⟨m, hr, rfl⟩ := Res.map_ok.mp h
        have hf : f.reload = none := by
          by_contra hf
          exact htouch ⟨f, rest, hst, hf⟩
        simp only [Runtime.installReturn, hf, Except.ok.injEq] at hr
        subst hr
        exact .inl (scratch ⟨rfl, rfl, rfl, rfl, rfl, rfl, rfl, rfl, rfl, rfl, rfl, rfl, List.prefix_rfl⟩)
      · cases h
  | scopeRet code =>
      simp only [Xylem.step] at h
      split at h
      · cases h
        exact .inl (scratch ⟨rfl, rfl, rfl, rfl, rfl, rfl, rfl, rfl, rfl, rfl, rfl, rfl, List.prefix_rfl⟩)
      · cases h

end
end Xylem

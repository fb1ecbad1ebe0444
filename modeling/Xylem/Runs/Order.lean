import Xylem.Heap.Order
import Xylem.Runs.Elementary

namespace Xylem

open Xylem.Runtime

/-- The step may put an entry back on a list. -/
def Reinserts (s : State) : Event → Prop
  | .reload _ _ _ => True
  | .installRet => ∃ f rest, s.stack = .install f :: rest ∧ f.reload ≠ none
  | _ => False

section
variable {E : Env} {s t : State} {e : Event} {L : RegionPtr → List EntryPtr} {n : EntryPtr}

theorem mapEntries_links {s : Runtime} {l : List EntryPtr} {f : ModEntry → ModEntry}
    (hf : ∀ e, (f e).regionPrev = e.regionPrev ∧ (f e).regionNext = e.regionNext) (p : EntryPtr) :
    (s.mapEntries l f).links p = s.links p := by
  simp only [links, mapEntries]
  split
  · cases s.entries p <;> simp [hf]
  · rfl

/-- A step other than the end of a reload is straight, or leaves the links alone. -/
theorem step_straight (hi : Inv E s) (h : step E s e = .ok t) (hno : ¬ Reinserts s e) :
    (∃ grant, Straights E grant (s.rt, .none) (t.rt, .none)) ∨
      (∀ p, t.rt.links p = s.rt.links p) ∧
        ∀ r, (t.rt.regions r).modsHead = (s.rt.regions r).modsHead := by
  have still : Still s.rt t.rt → (∀ p, t.rt.links p = s.rt.links p) ∧
      ∀ r, (t.rt.regions r).modsHead = (s.rt.regions r).modsHead := by
    intro hs
    refine ⟨fun p => by rw [links, hs.entries, links], fun r => ?_⟩
    obtain ⟨node, gen, hx⟩ := hs.regions r
    exact (congrArg RegionEntry.modsHead hx : _)
  cases e with
  | selfInitCtx | deny | requireClaim | last | withRegion | scopeRet =>
      exact .inr (still (step_still hi h id))
  | areg a =>
      cases h
      rcases xyAreg_cases E s.rt a with ⟨e, h⟩ | ⟨hs, h⟩
      · refine .inr ⟨fun p => ?_, fun r => ?_⟩ <;> rw [State.back, h] <;> rfl
      · refine .inr ⟨fun p => ?_, fun r => ?_⟩ <;> rw [State.back, h]
        · exact mapEntries_links (s := s.rt.register a)
            (fun e => (fnCachePrewarm_same (E := E) (s.rt.register a).hookIdHd.entries e).2) p
        · rfl
  | load fname ch =>
      obtain ⟨⟨n', out⟩, hr, rfl⟩ := Res.map_ok.mp h
      obtain ⟨⟨m, out'⟩, hm, hr⟩ := Res.bind_ok.mp hr
      obtain ⟨L, hw⟩ := hi.wf
      have hp := modLoad_straight hw hi.current.id hm
      cases out' with
      | done ret =>
          cases hr
          exact .inl ⟨_, hp.tail (.scratch (setErr_sameHeap _ _))⟩
      | wait f =>
          cases hr
          exact .inl ⟨_, hp⟩
  | unload fname fuel =>
      obtain ⟨r, hr, rfl⟩ := Res.map_ok.mp h
      obtain ⟨⟨m, ret⟩, hu, hr⟩ := Res.bind_ok.mp hr
      cases hr
      exact .inl ⟨fun _ _ => True, (modUnload_straight fuel hu).tail (.scratch (setErr_sameHeap _ _))⟩
  | reload fname ch fuel => exact absurd trivial hno
  | call retp reg =>
      obtain ⟨⟨m, r⟩, hr, rfl⟩ := Res.map_ok.mp h
      have hp : Straights E (fun _ _ => True) (s.rt, .none) (m, .none) :=
        xyCall_straight hi.registry hr
      rw [afterCall_rt]
      exact .inl ⟨_, hp⟩
  | bodyRet result =>
      simp only [Xylem.step] at h
      split at h
      · obtain ⟨⟨m, r⟩, hr, rfl⟩ := Res.map_ok.mp h
        have hp : Straights E (fun _ _ => True) (s.rt, .none) (m, .none) := bodyReturn_straight hr
        rw [afterCall_rt]
        exact .inl ⟨_, hp⟩
      · cases h
  | installRet => exact .inr (still (step_still hi h hno))

theorem step_grown (hi : Inv E s) (hw : WF s.rt none L) (hn : n ≤ s.rt.entryNext)
    (h : step E s e = .ok t) (hno : ¬ Reinserts s e) :
    ∃ L', WF t.rt none L' ∧ ∀ r, Grown n (L r) (L' r) := by
  rcases step_straight hi h hno with ⟨grant, hp⟩ | ⟨hlinks, hhead⟩
  · obtain ⟨L', hw', hg, -⟩ := hw.straights hn hp
    exact ⟨L', hw', hg⟩
  · obtain ⟨L', hw'⟩ := (hi.step h).wf
    have heq : L' = L := hw.lists_eq hw' hlinks hhead
    exact ⟨L', hw', fun r => heq ▸ .refl n _⟩

theorem step_ascending (hi : Inv E s) (hs : ∃ L, WF s.rt none L ∧ WF.Ascending L)
    (h : step E s e = .ok t) (hno : ¬ Reinserts s e) : ∃ L, WF t.rt none L ∧ WF.Ascending L := by
  obtain ⟨L, hw, hL⟩ := hs
  rcases step_straight hi h hno with ⟨grant, hp⟩ | ⟨hlinks, hhead⟩
  · obtain ⟨L', hw', hL', -⟩ := hw.straights_ascending hL hp
    exact ⟨L', hw', hL'⟩
  · obtain ⟨L', hw'⟩ := (hi.step h).wf
    have heq : L' = L := hw.lists_eq hw' hlinks hhead
    exact ⟨L', hw', heq ▸ hL⟩

end
end Xylem

import Xylem.Heap.AnyLoad
import Xylem.Heap.Cascade
import Xylem.Heap.Reinsert
import Xylem.Runs.Served

/-!
# Steps that cannot fault

The heap invariant is enough for almost every call of the interface to go through. What is left
are conditions on the caller and the allocator, and the two places where the library trusts a
pointer it kept across foreign code: the anchor of a reload and the children of an unload.
-/
namespace Xylem

open Xylem.Runtime

def Event.Ready (E : Env) (s : State) : Event → Prop
  -- the allocator gives out no address that is in use
  | .load _ ch => ∀ k p, s.rt.modHd.lookup k = some p → s.rt.addr p ≠ ch.addr
  -- parents are alive, and the cascade finds what it should take away
  | .unload fname fuel => s.rt.entryNext < fuel ∧ Links s.rt ∧
      Unloadable E s.rt fname s.rt.currentRegionId
  -- the entry a reload has to stand behind is still there
  | .installRet => ∃ f rest, s.stack = .install f :: rest ∧ ∀ rf, f.reload = some rf →
      ∀ x, rf.insertAfter = some x → s.rt.entries x ≠ none
  | .scopeRet _ => ∃ id r rest, s.stack = .scope id r :: rest
  | .reload _ _ _ => False
  | .bodyRet _ => False
  | _ => True

section Runs
variable {E : Env} {s₀ s : State} {tr : List (State × Event)}

/-- In every state every step that is ready can be taken: nothing freed is read, no marker is
called, and no recursion runs out. A pass over the table meets live entries only. -/
theorem ready_steps (h : Runs E s₀ tr s) (hlim : s.rt.genBumps + 1 < 2 ^ 64) {e : Event}
    (hready : e.Ready E s) :
    (∃ t, step E s e = .ok t) ∧ ∀ p ∈ s.rt.modEntries E, s.rt.entries p ≠ none := by
  have hi := h.inv
  obtain ⟨L, hw⟩ := hi.wf
  refine ⟨?_, fun p hp => hw.modEntries_live hp⟩
  cases e with
  | areg reg | selfInitCtx ctx | deny what type | requireClaim fn ud | last ret | withRegion id =>
      exact ⟨_, rfl⟩
  | load fname ch =>
      obtain ⟨⟨t, out⟩, ht⟩ := modLoad_total hw hi.current.id fname ch none hready
      obtain ⟨x, hx⟩ : ∃ x, s.rt.xyLoad E fname ch = .ok x := by
        cases out with
        | done ret => exact ⟨_, Res.bind_ok.mpr ⟨_, ht, rfl⟩⟩
        | wait f => exact ⟨_, Res.bind_ok.mpr ⟨_, ht, rfl⟩⟩
      exact ⟨_, Res.map_ok.mpr ⟨x, hx, rfl⟩⟩
  | unload fname fuel =>
      obtain ⟨hfuel, hlinks, hun⟩ := hready
      have hpar : Parented s.rt := ⟨hlinks, L, hw⟩
      obtain ⟨t, ret, ht, -⟩ := hpar.unload_ends hun hfuel
      exact ⟨_, Res.map_ok.mpr ⟨_, Res.bind_ok.mpr ⟨_, ht, rfl⟩, rfl⟩⟩
  | reload fname ch fuel => cases hready
  | call retp reg =>
      obtain ⟨x, hx⟩ := xyCall_total h hlim retp reg
      exact ⟨_, Res.map_ok.mpr ⟨x, hx, rfl⟩⟩
  | bodyRet result => cases hready
  | installRet =>
      obtain ⟨f, rest, hs, hanchor⟩ := hready
      obtain ⟨-, hrel⟩ := hi.frames (.install f) (hs ▸ List.mem_cons_self)
      obtain ⟨t, ht⟩ : ∃ t, s.rt.installReturn E f = .ok t := by
        unfold installReturn
        cases hf : f.reload with
        | none => exact ⟨_, rfl⟩
        | some rf =>
            have hsame : SameHeap s.rt { s.rt.modLoadFinish f with reloading := false } :=
              ⟨rfl, rfl, rfl, rfl, rfl, rfl, rfl, rfl, rfl, rfl, rfl, rfl, List.prefix_rfl⟩
            have hok : ReloadOk E { s.rt.modLoadFinish f with reloading := false } rf :=
              ⟨(hrel rf hf).region, (hrel rf hf).anchor⟩
            obtain ⟨t, ht⟩ := xyReloadFinish_total (hw.sameHeap hsame) hok (hanchor rf hf)
            exact ⟨_, Res.bind_ok.mpr ⟨t, ht, rfl⟩⟩
      simp only [step, hs, ht]
      exact ⟨_, rfl⟩
  | scopeRet code =>
      obtain ⟨id, r, rest, hs⟩ := hready
      simp only [step, hs]
      exact ⟨_, rfl⟩

/-- A load that fails for its missing `xy_install`, in a state with a module loaded. -/
theorem ready_steps_bad : ∃ s, Run.exec (step sampleEnv) sampleState
      [.areg 0, .load "p" { addr := 1 }, .installRet] = .ok s ∧
    (∃ t, step sampleEnv s (.load "bad" { addr := 2 }) = .ok t) ∧
      ∀ p ∈ s.rt.modEntries sampleEnv, s.rt.entries p ≠ none := by
  obtain ⟨s, hs, hobs⟩ := sample_check [.areg 0, .load "p" { addr := 1 }, .installRet]
    (fun s => decide (s.rt.genBumps + 1 < 2 ^ 64) &&
      s.rt.modHd.entries.all fun x => decide (s.rt.addr x.2 ≠ 2)) (by decide)
  rw [Bool.and_eq_true] at hobs
  have hready : Event.Ready sampleEnv s (.load "bad" { addr := 2 }) := fun k p hp =>
    of_decide_eq_true (List.all_eq_true.mp hobs.2 ⟨k, p⟩ (AList.mem_lookup_iff.mp hp))
  exact ⟨s, hs, ready_steps (sample_runs hs) (of_decide_eq_true hobs.1) hready⟩

end Runs
end Xylem

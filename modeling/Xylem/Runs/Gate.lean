import Xylem.Runs.Trees
import Xylem.Runs.Tables

namespace Xylem

open Xylem.Runtime

/-- A region requires claims exactly while it has a handler. -/
def Tree.Gated (T : Tree) : Prop :=
  ∀ r, (T.node r).requireClaim = (T.node r).claimHandler.isSome

section Gated
variable {E : Env} {s₀ s t : State} {tr : List (State × Event)} {T T' : Tree}

theorem Tree.Gated.fewer (h : T.Gated) (hf : Tree.FewerDenies T T') : T'.Gated := by
  intro r
  obtain ⟨mods, set, hn⟩ := hf.node r
  rw [hn]
  exact h r

theorem Tree.Gated.claim (h : T.Gated) {r : RegionPtr} (hr : r < T.next) (id : RegionId)
    (bits : UInt8) : (T.claim r id bits).Gated := by
  intro x
  rw [Tree.claim_node T hr]
  split
  · exact h r
  · split
    · rfl
    · exact h x

theorem TreeMove.gated {e : Event} (hm : TreeMove E s e T) (h : s.rt.tree.Gated) : T.Gated := by
  cases hm with
  | deny what type r he hr hT =>
      subst hT
      have hadd : ∀ x, ((s.rt.tree.modify r (Tree.addDeny E what type)).node x).requireClaim =
          ((s.rt.tree.modify r (Tree.addDeny E what type)).node x).claimHandler.isSome := by
        intro x
        simp only [Tree.modify, Function.update_apply]
        split
        · cases type <;> exact h r
        · exact h x
      intro x
      simp only [Tree.deny]
      split <;> exact hadd x
  | gate he r hr fn ud hT =>
      subst hT
      intro x
      simp only [Tree.gate, Tree.modify, Function.update_apply]
      split
      · rfl
      · exact h x
  | fewer he hT => exact h.fewer hT
  | claims he m hm hok r bits k hs hk hT =>
      subst hT
      exact (h.fewer hm).claim hk.region _ _

theorem Runs.gated (h : Runs E s₀ tr s) : s.rt.tree.Gated := by
  have key : Inv E s ∧ s.rt.tree.Gated := by
    refine h.2.invariant (P := fun s => Inv E s ∧ s.rt.tree.Gated) (C := fun _ _ _ => True)
      (fun m e t hs _ hm => ⟨hm.1.step hs, (step_tree hm.1 hs).gated hm.2⟩) (fun _ _ _ _ => trivial)
      ⟨Inv.boot h.1, fun r => ?_⟩
    show (s₀.rt.regions r).requireClaim = (s₀.rt.regions r).claimHandler.isSome
    rcases Nat.eq_zero_or_pos r with rfl | hr
    · rw [h.1.root]
      rfl
    · rw [h.1.fresh r hr]
      rfl
  exact key.2

end Gated

section Calls
variable {E : Env} {s : Runtime}

/-- A load that calls no handler does not depend on what a handler would answer. -/
theorem modLoadClaimIfNeeded_of_no_calls {tx : LoadTxn} {ch ch' : LoadChoice}
    (h : s.modLoadClaimCalls E tx.fname tx.regionId tx.handle = []) :
    s.modLoadClaimIfNeeded E tx ch = s.modLoadClaimIfNeeded E tx ch' := by
  unfold modLoadClaimCalls at h
  unfold modLoadClaimIfNeeded
  cases hr : s.regionLookup tx.regionId with
  | none => simp only
  | some r =>
      cases hw : E.xyClaim tx.handle with
      | none => simp only
      | some bits =>
          simp only [hr, hw] at h ⊢
          by_cases hopen : ((s.regions r).claimHandler.isNone && !(s.regions r).requireClaim) = true
          · rw [if_pos hopen, if_pos hopen]
          · rw [if_neg hopen] at h ⊢
            rw [if_neg hopen]
            unfold xyClaimForLoadCalls at h
            unfold xyClaimForLoad
            by_cases hbits : bits = 0 ∨ 64 < bits
            · rw [if_pos hbits, if_pos hbits]
            · rw [if_neg hbits] at h ⊢
              rw [if_neg hbits]
              simp only [hr] at h ⊢
              cases hh : (s.regions r).claimHandler with
              | none => simp only [Option.isNone_none, if_true]
              | some f =>
                  simp only [hh] at h
                  cases h

/-- Past a set gate, a load with a width in range makes one call, of the gate's handler. -/
theorem modLoadCalls_gated {fname : String} {ch : LoadChoice} {r : RegionPtr} {f : HandlerPtr}
    {bits : UInt8} (hl : s.moduleLookup E fname s.currentRegionId = none)
    (hmem : ch.noMem = false) (him : ∃ im, E.dlopen (s.loading E fname ch).im = some im)
    (hr : s.regionHd s.currentRegionId = some r) (hf : (s.regions r).claimHandler = some f)
    (hw : E.xyClaim (s.loading E fname ch).im = some bits) (h0 : bits ≠ 0) (h64 : bits ≤ 64) :
    s.modLoadCalls E fname ch = [⟨f, fname, bits, (s.regions r).claimHandlerUd⟩] := by
  obtain ⟨im, him⟩ := him
  have him' : E.dlopen (s.modLoadImage (E.moduleLoadPath fname) ch).1 = some im := him
  have hw' : E.xyClaim (s.modLoadImage (E.moduleLoadPath fname) ch).1 = some bits := hw
  have hbits : ¬ (bits = 0 ∨ 64 < bits) := (width_iff bits).mp ⟨h0, h64⟩
  simp [modLoadCalls, him', hl, hmem, modLoadClaimCalls, regionLookup, hr, hw', hf,
    xyClaimForLoadCalls, hbits]

end Calls

/-- `xy_install` is about to run for a new entry in region `c`, and that is where the
entry is found and listed. -/
structure InstallsIn (E : Env) (s : Runtime) (fname : String) (t : State) (c : RegionPtr) : Prop where
  entered : t.status = .entered
  region : t.rt.currentRegionId = (t.rt.regions c).id ∧ t.rt.currentRegionEntry = some c
  entry : ∃ e, t.rt.entries s.entryNext = some e ∧ e.regionId = (t.rt.regions c).id ∧
    e.regionEntry = some c
  found : t.rt.moduleLookup E fname (t.rt.regions c).id = some s.entryNext
  listed : ∃ l, t.rt.regionMods c = .ok l ∧ s.entryNext ∈ l
  elsewhere : ∀ x l, x ≠ c → t.rt.regionMods x = .ok l → s.entryNext ∉ l

/-- The handler of `r`, called once with the width the module exports, has granted the
load a new region below `r`; the entry is there, and neither under nor in `r`. -/
structure Admitted (E : Env) (s : Runtime) (fname : String) (ch : LoadChoice) (r : RegionPtr)
    (t : State) : Prop where
  called : ∃ f bits, (s.regions r).claimHandler = some f ∧
    E.xyClaim (s.loading E fname ch).im = some bits ∧ bits ≠ 0 ∧ bits ≤ 64 ∧
    s.modLoadCalls E fname ch = [⟨f, fname, bits, (s.regions r).claimHandlerUd⟩]
  granted : ch.handlerRet = xyOk ∧ ch.granted ≠ 0 ∧ ch.granted ≤ 64
  created : s.regionLookup (t.rt.regions s.regionNext).id = none ∧
    (t.rt.regions s.regionNext).parent = some r
  plen : (t.rt.regions s.regionNext).plen.toNat = (s.regions r).plen.toNat + ch.granted.toNat
  installs : InstallsIn E s fname t s.regionNext
  notUnder : t.rt.moduleLookup E fname s.currentRegionId = none

section Main
variable {E : Env} {s₀ s t : State} {tr : List (State × Event)}

/-- Where a load has put its entry, it is found and listed when `xy_install` starts. -/
theorem installsIn_of_core {fname : String} {l : Loading} {id : RegionId} {c : RegionPtr} {T : Tree}
    {index : RegionIndex} (hit : Inv E t) (hfname : l.fname = fname) (hhd : T.hd id = some c)
    (ht : t.rt.core = s.rt.loadedCore E l id c T index) (hst : t.status = .entered) :
    (t.rt.regions c).id = id ∧ InstallsIn E s.rt fname t c := by
  obtain ⟨L, hw⟩ := hit.wf
  have htc : t.rt.regionHd id = some c := (congrFun (congrArg (fun c => c.tree.hd) ht) id).trans hhd
  have hcid : (t.rt.regions c).id = id := (hw.tree.hd_node id c htc).2
  have hents : (t.rt.entries s.rt.entryNext).map ModEntry.core = some _ :=
    (congrFun (congrArg Core.entries ht) s.rt.entryNext).trans (Function.update_self _ _ _)
  obtain ⟨e, he, hec⟩ := Option.map_eq_some_iff.mp hents
  have hid : e.regionId = id := (congrArg ModEntry.regionId hec : _)
  have hre : e.regionEntry = some c := (congrArg ModEntry.regionEntry hec : _)
  obtain ⟨r, h1, -, hmem⟩ := hw.region_of he (by simp)
  obtain rfl := Option.some.inj (hre.symm.trans h1)
  have hmod : t.rt.modHd = s.rt.modHd.insert ⟨E.moduleLoadPath l.fname, id⟩ s.rt.entryNext :=
    (congrArg Core.modHd ht : _)
  refine ⟨hcid, hst, ⟨?_, ?_⟩, ⟨e, he, ?_, hre⟩, ?_, ⟨L c, hw.regionMods c, hmem⟩, ?_⟩
  · rw [hcid]
    exact (congrArg Core.currentRegionId ht : _)
  · exact (congrArg Core.currentRegionEntry ht : _)
  · rw [hcid, hid]
  · rw [hcid, moduleLookup, hmod, hfname]
    exact AList.lookup_insert _
  · intro x l' hx hl' hp
    rw [Except.ok.inj (hl'.symm.trans (hw.regionMods x))] at hp
    exact hx (hw.member_unique hp hmem)

/-- In every state a gate is set exactly with a handler, and a load that makes an entry
fails before `xy_install`, or is admitted by the set gate, or starts `xy_install` in the
region itself past a clear one. -/
theorem claim_gate (h : Runs E s₀ tr s) :
    (∀ r, (s.rt.regions r).requireClaim = true ↔ (s.rt.regions r).claimHandler ≠ none) ∧
    ∀ fname ch t r, step E s (.load fname ch) = .ok t →
      s.rt.regionLookup s.rt.currentRegionId = some r →
      s.rt.moduleLookup E fname s.rt.currentRegionId = none →
      (∃ ret, ret ≠ xyOk ∧ t.stack = s.stack ∧ t.status = .returned ret []) ∨
      (∃ f, f.modEntry = s.rt.entryNext ∧ t.stack = .install f :: s.stack) ∧
        ((s.rt.regions r).requireClaim = true → Admitted E s.rt fname ch r t) ∧
        ((s.rt.regions r).requireClaim = false → InstallsIn E s.rt fname t r) := by
  have hg := h.gated
  have hi := h.inv
  obtain ⟨L, hw⟩ := hi.wf
  refine ⟨fun r => ?_, fun fname ch t r hstep hr hnone => ?_⟩
  · rw [← Option.isSome_iff_ne_none]
    exact (congrArg (· = true) (hg r)).to_iff
  obtain ⟨out, heff, hs, hst⟩ := step_load hi hstep
  have fails : ∀ ret, ret ≠ xyOk → out = .done ret →
      ∃ ret, ret ≠ xyOk ∧ t.stack = s.stack ∧ t.status = .returned ret [] := by
    rintro ret hret rfl
    rcases hst with ⟨ret', hout, hst⟩ | ⟨f, hout, -⟩
    · cases hout
      exact ⟨ret, hret, hs, hst⟩
    · cases hout
  cases heff with
  | same ret hret ht => exact .inl (fails ret hret rfl)
  | reuse p e hl he ht => cases hnone.symm.trans hl
  | fresh out hl hmem him hf =>
      cases hf with
      | refused ret hret hgate ht => exact .inl (fails ret hret rfl)
      | noInstall hgate hni id c T index hp hasks ht => exact .inl (fails _ (by decide) rfl)
      | installs hgate fn hfn id c T index hp hasks ht =>
          rcases hst with ⟨ret', hout, -⟩ | ⟨f, hout, hst⟩
          · cases hout
          obtain ⟨hcid, hin⟩ := installsIn_of_core (hi.step hstep) rfl hp.hd ht hst
          refine .inr ⟨⟨_, rfl, hs⟩, fun hset => ?_, fun hclear => ?_⟩
          · -- the gate is set, so the load has asked for a slot and got one
            obtain ⟨f, hfr⟩ := Option.isSome_iff_exists.mp ((hg r).symm.trans hset)
            have hw' : E.xyClaim (s.rt.loading E fname ch).im ≠ none := by
              intro hno
              rw [(hgate r hr).1 hno] at hset
              cases hset
            have ha : AsksClaim E s.rt s.rt.currentRegionId (s.rt.loading E fname ch).im :=
              ⟨r, hr, Option.isSome_iff_ne_none.mpr hw', fun hno => by
                rw [show (s.rt.regions r).claimHandler = some f from hfr] at hno
                cases hno.1⟩
            cases hp with
            | stays r' hr' => exact absurd (hasks.mp ha) (Nat.lt_succ_self _).ne
            | claims r' k hslot hk =>
                obtain rfl := Option.some.inj (hr.symm.trans hslot.region)
                obtain ⟨bits, hbits, h0, h64⟩ := hslot.width
                have hnode : (t.rt.regions s.rt.regionNext).toRegionNode = _ :=
                  (congrFun (congrArg (fun c => c.tree.node) ht) s.rt.regionNext).trans
                    (Tree.claim_node s.rt.tree hk.region _ _ _)
                have hne : s.rt.regionNext ≠ r := Nat.ne_of_gt hk.region
                rw [if_neg hne, if_pos (show s.rt.regionNext = s.rt.tree.next from rfl)] at hnode
                refine ⟨⟨f, bits, hfr, hbits, h0, h64,
                  modLoadCalls_gated hl hmem him hr hfr hbits h0 h64⟩,
                  ⟨hslot.accepted, hslot.granted_pos, hslot.granted_le⟩, ⟨?_, ?_⟩, ?_, hin, ?_⟩
                · rw [hcid]
                  exact hk.first.free
                · exact congrArg (fun n : RegionNode => n.parent) hnode
                · rw [show (t.rt.regions s.rt.regionNext).plen = _ from
                    congrArg (fun n : RegionNode => n.plen) hnode]
                  exact hk.plen_add hw.tree
                · have hmod : t.rt.modHd = s.rt.modHd.insert _ s.rt.entryNext :=
                    (congrArg Core.modHd ht : _)
                  rw [moduleLookup, hmod, AList.lookup_insert_ne]
                  · exact hnone
                  · intro hc
                    have heq : s.rt.currentRegionId = s.rt.tree.slotId r ch.granted k :=
                      congrArg ModKey.region hc
                    have hfree := hk.first.free
                    rw [← heq] at hfree
                    cases hfree.symm.trans hr
          · -- the gate is clear, so there is no handler to ask
            cases hp with
            | stays r' hr' =>
                obtain rfl := Option.some.inj (hr.symm.trans hr')
                exact hin
            | claims r' k hslot hk =>
                obtain rfl := Option.some.inj (hr.symm.trans hslot.region)
                have hno := (hg r).symm.trans hclear
                rw [show (s.rt.tree.node r).claimHandler.isSome = true from hslot.handler] at hno
                cases hno

end Main

/-- The host sets the root's gate; `m` asks for one bit and gets it. -/
theorem claim_gate_admits : ∃ s t, Run.exec (step sampleEnv) sampleState
      [.requireClaim (some 0) 0] = .ok s ∧
    step sampleEnv s (.load "m" { addr := 1, granted := 1 }) = .ok t ∧
    Admitted sampleEnv s.rt "m" { addr := 1, granted := 1 } 0 t := by
  let e : Event := .load "m" { addr := 1, granted := 1 }
  obtain ⟨s, hs, hobs⟩ := sample_check [.requireClaim (some 0) 0]
    (fun s => Run.check (step sampleEnv) s [e] (fun t => decide (t.status = .entered)) &&
      decide (s.rt.regionLookup s.rt.currentRegionId = some 0) &&
      decide (s.rt.moduleLookup sampleEnv "m" s.rt.currentRegionId = none) &&
      (s.rt.regions 0).requireClaim) (by decide)
  simp only [Bool.and_eq_true, decide_eq_true_eq] at hobs
  obtain ⟨⟨⟨hrun, hr⟩, hnone⟩, hset⟩ := hobs
  obtain ⟨t, ht, hst⟩ := Run.of_check hrun
  have hstep := Run.exec_single ht
  have hst := of_decide_eq_true hst
  rcases (claim_gate (sample_runs hs)).2 "m" _ t 0 hstep hr hnone with ⟨ret, -, -, hret⟩ | ⟨-, h, -⟩
  · rw [hst] at hret
    cases hret
  · exact ⟨s, t, hs, hstep, h hset⟩

end Xylem

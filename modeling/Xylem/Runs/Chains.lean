import Xylem.Runs.HookDenies

namespace Xylem

open Xylem.Runtime

namespace Tree

/-- The depth byte counts the links up to the root. -/
structure Depths (T : Tree) : Prop where
  root : ∀ r, T.parentOf r = none → (T.node r).depth = 0
  child : ∀ r p, T.parentOf r = some p → (T.node r).depth.toNat = (T.node p).depth.toNat + 1

section
variable {T T' : Tree}

theorem Depths.congr (hd : T.Depths)
    (hs : ∀ r, (T'.node r).toRegionShape = (T.node r).toRegionShape) : T'.Depths := by
  have hp : T'.parentOf = T.parentOf := by
    funext r
    simp only [parentOf, hs]
  constructor
  · simpa only [hp, hs] using hd.root
  · simpa only [hp, hs] using hd.child

theorem Depths.le_plen (hd : T.Depths) (h : T.Ok) (r : RegionPtr) :
    (T.node r).depth.toNat ≤ (T.node r).plen.toNat := by
  induction r using Nat.strong_induction_on with
  | _ r ih =>
      cases hp : T.parentOf r with
      | none =>
          rw [hd.root r hp]
          exact Nat.zero_le _
      | some p =>
          have hle := ih p (h.parent_lt r p hp)
          have hlt := h.plen_lt hp
          rw [hd.child r p hp]
          omega

theorem Depths.add_one (hd : T.Depths) (h : T.Ok) (r : RegionPtr) :
    ((T.node r).depth + 1).toNat = (T.node r).depth.toNat + 1 := by
  have h1 := hd.le_plen h r
  have h2 := h.plen_le r
  rw [UInt8.toNat_add]
  have : (1 : UInt8).toNat = 1 := rfl
  omega

theorem Depths.claim (hd : T.Depths) (h : T.Ok) {r : RegionPtr} (hr : r < T.next) (id : RegionId)
    (bits : UInt8) : (T.claim r id bits).Depths := by
  have hdepth : ∀ x, ((T.claim r id bits).node x).depth =
      if x = T.next then (T.node r).depth + 1 else (T.node x).depth := by
    intro x
    rw [claim_node T hr]
    by_cases hx : x = r
    · subst hx
      rw [if_pos rfl, if_neg hr.ne]
    · rw [if_neg hx]
      split <;> rfl
  constructor
  · intro x hp
    rw [claim_parentOf T hr] at hp
    rw [hdepth]
    split at hp
    · cases hp
    · rename_i hx
      rw [if_neg hx]
      exact hd.root x hp
  · intro x p hp
    rw [claim_parentOf T hr] at hp
    rw [hdepth, hdepth]
    split at hp
    · rename_i hx
      cases hp
      rw [if_pos hx, if_neg hr.ne]
      exact hd.add_one h r
    · rename_i hx
      have hpn : p ≠ T.next := ((h.parent_lt x p hp).trans (h.region_lt x p hp)).ne
      rw [if_neg hx, if_neg hpn]
      exact hd.child x p hp

end
end Tree

theorem Runs.depths {E : Env} {s₀ s : State} {tr : List (State × Event)} (h : Runs E s₀ tr s) :
    s.rt.tree.Depths := by
  have key : Inv E s ∧ s.rt.tree.Depths := by
    refine h.2.invariant (C := fun _ _ _ => True) (P := fun s => Inv E s ∧ s.rt.tree.Depths) ?_
      (fun _ _ _ _ => trivial) ⟨Inv.boot h.1, ?_⟩
    · rintro m e t hs - ⟨hi, hd⟩
      refine ⟨hi.step hs, ?_⟩
      rcases (step_tree hi hs).shapes with hsh | ⟨n, r, bits, k, hf, hok, -, hk, hT⟩
      · exact hd.congr hsh
      · rw [hT]
        exact (hd.congr hf.shape).claim hok hk.region _ _
    · have hnode : ∀ r, s₀.rt.tree.node r = {} := Inv.boot_node h.1
      constructor
      · intro r _
        rw [hnode]
      · intro r p hp
        rw [Tree.parentOf, hnode] at hp
        cases hp
  exact key.2

/-- The bytes of region `R` have not wrapped and will not, and the chain of 65
is its whole path. -/
structure ChainWhole (s : Runtime) (R : RegionPtr) : Prop where
  depth_le : (s.regions R).depth ≤ (s.regions R).plen
  plen_le : (s.regions R).plen ≤ 64
  depth_add : ((s.regions R).depth + 1).toNat = (s.regions R).depth.toNat + 1
  plen_add : ∀ bits : UInt8, bits ≤ 64 →
    ((s.regions R).plen + bits).toNat = (s.regions R).plen.toNat + bits.toNat
  link : ∀ p, s.parentOf R = some p →
    (s.regions R).depth.toNat = (s.regions p).depth.toNat + 1 ∧
      (s.regions R).plen.toNat = (s.regions p).plen.toNat + (s.regions R).childBits.toNat
  acyclic : ∀ p, s.parentOf R = some p → ¬ Forest.Anc s.parentOf R p
  path : Forest.Path s.parentOf 0 (s.regionAncestorChain R 65) R

/-- The chain of `R` is whole, and what `xy_call` scans has every region at or
above `R` in which a deny was set. -/
structure ChainComplete (tr : List (State × Event)) (s : State) (R : RegionPtr) : Prop
    extends ChainWhole s.rt R where
  scanned : ∀ A what type, DenyRan tr A what type → Forest.Anc s.rt.parentOf A R →
    A ∈ s.rt.callChain R

section
variable {E : Env} {s₀ s : State} {tr : List (State × Event)} {R : RegionPtr}

theorem Runs.chainWhole (h : Runs E s₀ tr s) (hR : R < s.rt.regionNext) : ChainWhole s.rt R := by
  obtain ⟨L, hw⟩ := h.inv.wf
  have hok := hw.tree
  have hd := h.depths
  have hplen : (s.rt.regions R).plen.toNat ≤ 64 := hok.plen_le R
  refine ⟨hd.le_plen hok R, hplen, hd.add_one hok R, ?_, ?_, ?_, ?_⟩
  · intro bits hbits
    have h1 : bits.toNat ≤ 64 := hbits
    rw [UInt8.toNat_add]
    omega
  · exact fun p hp => ⟨hd.child R p hp, (hok.plen R p hp).1⟩
  · intro p hp hanc
    have h1 := hok.parent_lt R p hp
    have h2 : R ≤ p := hanc.rank_le hok.ranked
    exact absurd h1 h2.not_gt
  · refine Forest.climb_path hok.plen_ranked (Nat.lt_succ_of_le hplen) fun b hb hnone => ?_
    have hle : b ≤ R := hb.rank_le hok.ranked
    exact hok.root_only b (hle.trans_lt hR) hnone

/-- Everything but the scan always holds, and the scan is complete exactly when a
deny at or above the region comes with one in it or below it, which raised its flag. -/
theorem chain_complete_iff (h : Runs E s₀ tr s) (hR : R < s.rt.regionNext) :
    ChainComplete tr s R ↔
      ((∃ A what type, DenyRan tr A what type ∧ Forest.Anc s.rt.parentOf A R) →
        ∃ B what type, DenyRan tr B what type ∧ Forest.Anc s.rt.parentOf R B) := by
  obtain ⟨L, hw⟩ := h.inv.wf
  have hflag : (s.rt.regions R).hasDeny = true ↔
      ∃ B what type, DenyRan tr B what type ∧ Forest.Anc s.rt.parentOf R B := h.denyLog.flag R
  constructor
  · rintro hc ⟨A, what, type, hA, hanc⟩
    have hmem := hc.scanned A what type hA hanc
    exact hflag.mp ((mem_callChain hw.tree).mp hmem).1
  · intro hc
    refine ⟨h.chainWhole hR, fun A what type hA hanc => ?_⟩
    exact (mem_callChain hw.tree).mpr ⟨hflag.mpr (hc ⟨A, what, type, hA, hanc⟩), hanc⟩

end

/-- A module that denies in the region it has claimed. -/
theorem chain_complete_child : ∃ s, Run.exec (step sampleEnv) sampleState
      [.requireClaim (some 0) 0, .load "m" { addr := 1, granted := 1 }, .deny "h" .hook] = .ok s ∧
    ChainComplete (Run.trace (step sampleEnv) sampleState
      [.requireClaim (some 0) 0, .load "m" { addr := 1, granted := 1 }, .deny "h" .hook]) s 1 := by
  obtain ⟨s, hs, hobs⟩ := sample_check
    [.requireClaim (some 0) 0, .load "m" { addr := 1, granted := 1 }, .deny "h" .hook]
    (fun s => decide (s.rt.regionNext = 2)) (by decide)
  have hR : 1 < s.rt.regionNext := by
    rw [of_decide_eq_true hobs]
    decide
  refine ⟨s, hs, (chain_complete_iff (sample_runs hs) hR).mpr fun _ => ?_⟩
  exact ⟨1, "h", .hook, denyRan_of_any (by decide), .refl _⟩

/-- The root denies `h` before region 1 is claimed, whose chain is then not looked at. -/
theorem chain_misses_root : ∃ s, Run.exec (step sampleEnv) sampleState
      [.deny "h" .hook, .requireClaim (some 0) 0, .load "m" { addr := 1, granted := 1 }] = .ok s ∧
    1 < s.rt.regionNext ∧ ¬ ChainComplete (Run.trace (step sampleEnv) sampleState
      [.deny "h" .hook, .requireClaim (some 0) 0, .load "m" { addr := 1, granted := 1 }]) s 1 := by
  obtain ⟨s, hs, hobs⟩ := sample_check
    [.deny "h" .hook, .requireClaim (some 0) 0, .load "m" { addr := 1, granted := 1 }]
    (fun s => decide (s.rt.regionNext = 2) && decide (s.rt.parentOf 1 = some 0) &&
      decide (s.rt.callChain 1 = [])) (by decide)
  simp only [Bool.and_eq_true, decide_eq_true_eq] at hobs
  obtain ⟨⟨hnext, hparent⟩, hnil⟩ := hobs
  refine ⟨s, hs, ?_, fun h => ?_⟩
  · rw [hnext]
    decide
  · have hmem := h.scanned 0 "h" .hook (denyRan_of_any (by decide)) (.link hparent)
    rw [hnil] at hmem
    cases hmem

end Xylem

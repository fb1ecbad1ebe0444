import Xylem.Heap.AnyLoad
import Xylem.Runs.Trees
import Mathlib.Data.Finset.Card
import Mathlib.Order.Interval.Finset.Nat

namespace Xylem

open Xylem.Runtime

namespace Tree
variable {T : Tree} {r : RegionPtr} {bits : UInt8}

/-- The children of `r` that have claimed one of its slots of this width. -/
def claimed (T : Tree) (r : RegionPtr) (bits : UInt8) : List RegionPtr :=
  (T.node r).children.filter fun c => decide ((T.node c).childBits = bits) &&
    decide (∃ k < 2 ^ bits.toNat, (T.node c).id = T.slotId r bits k)

theorem slotId_zero (T : Tree) (r : RegionPtr) (bits : UInt8) : T.slotId r bits 0 = (T.node r).id := by
  simp [slotId]

theorem mem_claimed (h : T.Ok) {c : RegionPtr} : c ∈ T.claimed r bits ↔
    T.parentOf c = some r ∧ (T.node c).childBits = bits ∧
      ∃ k < 2 ^ bits.toNat, (T.node c).id = T.slotId r bits k := by
  simp only [claimed, List.mem_filter, h.children, Bool.and_eq_true, decide_eq_true_eq]

theorem Ok.id_inj (h : T.Ok) {x y : RegionPtr} (hx : x < T.next) (hy : y < T.next)
    (he : (T.node x).id = (T.node y).id) : x = y := by
  have h1 := h.node_hd x hx
  rw [he, h.node_hd y hy] at h1
  exact (Option.some.inj h1).symm

/-- The id of slot 0 is the region's own, so one slot of each width stays unclaimed. -/
theorem Ok.claimed_lt (h : T.Ok) (hr : r < T.next) :
    (T.claimed r bits).length < 2 ^ bits.toNat := by
  have hnd : ((T.claimed r bits).map fun c => (T.node c).id).Nodup := by
    refine List.Nodup.map_on (fun x hx y hy he => ?_) ((h.children_nodup r).filter _)
    have hx' := h.region_lt x r ((mem_claimed h).mp hx).1
    have hy' := h.region_lt y r ((mem_claimed h).mp hy).1
    exact h.id_inj hx' hy' he
  have hsub : ((T.claimed r bits).map fun c => (T.node c).id).toFinset ⊆
      (Finset.Ico 1 (2 ^ bits.toNat)).image (T.slotId r bits) := by
    intro i hi
    obtain ⟨c, hc, rfl⟩ := List.mem_map.mp (List.mem_toFinset.mp hi)
    obtain ⟨hp, -, k, hk, hid⟩ := (mem_claimed h).mp hc
    refine Finset.mem_image.mpr ⟨k, Finset.mem_Ico.mpr ⟨Nat.pos_of_ne_zero ?_, hk⟩, hid.symm⟩
    rintro rfl
    rw [slotId_zero] at hid
    have : c = r := h.id_inj (h.region_lt c r hp) hr hid
    exact absurd (h.parent_lt c r hp) (this ▸ lt_irrefl _)
  have hle := (Finset.card_le_card hsub).trans Finset.card_image_le
  rw [List.toFinset_card_of_nodup hnd, List.length_map, Nat.card_Ico] at hle
  have hpos : 0 < 2 ^ bits.toNat := Nat.two_pow_pos _
  omega

theorem Ok.claimed_claim (h : T.Ok) (hr : r < T.next) {k : Nat} (hk : k < 2 ^ bits.toNat) :
    ((T.claim r (T.slotId r bits k) bits).claimed r bits).length =
      (T.claimed r bits).length + 1 := by
  have hnode := claim_node T hr (T.slotId r bits k) bits
  have hslot : ∀ j, (T.claim r (T.slotId r bits k) bits).slotId r bits j = T.slotId r bits j := by
    intro j
    rw [slotId, hnode, if_pos rfl]
    rfl
  have hold : ∀ c ∈ (T.node r).children, (T.claim r (T.slotId r bits k) bits).node c = T.node c := by
    intro c hc
    have hp := (h.children r c).mp hc
    rw [hnode, if_neg (h.parent_lt c r hp).ne', if_neg (h.region_lt c r hp).ne]
  have hnew : (T.claim r (T.slotId r bits k) bits).node T.next =
      { id := T.slotId r bits k, plen := (T.node r).plen + bits, depth := (T.node r).depth + 1,
        childBits := bits, parent := some r } := by
    rw [hnode, if_neg hr.ne', if_pos rfl]
  have hch : ((T.claim r (T.slotId r bits k) bits).node r).children = T.next :: (T.node r).children := by
    rw [hnode, if_pos rfl]
  have hgot : ∃ j < 2 ^ bits.toNat, T.slotId r bits k = T.slotId r bits j := ⟨k, hk, rfl⟩
  rw [claimed, hch, List.filter_cons_of_pos, List.length_cons, claimed]
  · congr 2
    refine List.filter_congr fun c hc => ?_
    rw [hold c hc]
    simp only [hslot]
  · rw [hnew]
    simpa [hslot] using hgot

end Tree

namespace Runtime
variable {s : Runtime} {r : RegionPtr} {bits : UInt8}

theorem regionAllocFrom_first (s : Runtime) (base : RegionId) (shift : Nat) {n j k : Nat}
    (hk : k < n) (free : s.regionHd (base ||| (BitVec.ofNat 64 (j + k) <<< shift)) = none)
    (taken : ∀ i < k, s.regionHd (base ||| (BitVec.ofNat 64 (j + i) <<< shift)) ≠ none) :
    s.regionAllocFrom base shift n (BitVec.ofNat 64 j) =
      base ||| (BitVec.ofNat 64 (j + k) <<< shift) := by
  induction n generalizing j k with
  | zero => omega
  | succ n ih =>
      simp only [regionAllocFrom, regionLookup]
      cases k with
      | zero =>
          rw [Nat.add_zero] at free ⊢
          rw [free]
      | succ k =>
          have h0 := taken 0 (Nat.succ_pos k)
          rw [Nat.add_zero] at h0
          obtain ⟨x, hx⟩ := Option.ne_none_iff_exists'.mp h0
          have hj : BitVec.ofNat 64 j + 1 = BitVec.ofNat 64 (j + 1) := (BitVec.ofNat_add j 1).symm
          have hjk : j + (k + 1) = j + 1 + k := by omega
          rw [hx, hj, hjk]
          rw [hjk] at free
          refine ih (by omega) free fun i hi => ?_
          have := taken (i + 1) (by omega)
          rwa [show j + (i + 1) = j + 1 + i by omega] at this

/-- `_xy_claim_for_load`, once the handler grants `bits` in region `r`, returns `ret`. -/
def ClaimReturns (s : Runtime) (r : RegionPtr) (bits : UInt8) (ret : Int) : Prop :=
  ∀ (E : Env) (caller : String) (want : UInt8) (ch : LoadChoice),
    want ≠ 0 → want ≤ 64 → (s.regions r).claimHandler ≠ none → ch.handlerRet = xyOk →
    ch.granted = bits → ∃ t, s.xyClaimForLoad E caller (s.regions r).id want ch = .ok (t, ret)

/-- The next claim of this width under `r` gets slot `k`, the lowest free one,
within as many probes as there are slots. -/
structure NextSlot (s : Runtime) (r : RegionPtr) (bits : UInt8) (k : Nat) : Prop where
  lt : k < 2 ^ bits.toNat
  lowest : s.tree.FirstFree r bits k
  id : s.regionAllocSlot r bits = s.tree.slotId r bits k
  probes : s.regionAllocFrom (s.regions r).id (64 - ((s.regions r).plen + bits).toNat)
    (2 ^ bits.toNat) 0 = s.tree.slotId r bits k
  valid : s.tree.slotId r bits k ≠ xyRegionInvalid
  succeeds : s.ClaimReturns r bits xyOk

/-- `n` claims of this width under `r`, one after another. -/
def claimsInRow (s : Runtime) (r : RegionPtr) (bits : UInt8) : Nat → Runtime
  | 0 => s
  | n+1 =>
      let t := s.claimsInRow r bits n
      t.regionCreateChild r (t.regionAllocSlot r bits) bits

/-- Slot allocation is complete: the next claim succeeds while fewer than
`2 ^ bits` slots are claimed, and under a fresh parent exactly `2 ^ bits` claims do. -/
structure SlotsComplete (s : Runtime) (r : RegionPtr) (bits : UInt8) : Prop where
  next : (s.tree.claimed r bits).length < 2 ^ bits.toNat → ∃ k, s.NextSlot r bits k
  row : (s.regions r).children = [] →
    (∀ n < 2 ^ bits.toNat, ∃ k, (s.claimsInRow r bits n).NextSlot r bits k) ∧
      (s.claimsInRow r bits (2 ^ bits.toNat)).ClaimReturns r bits xyErrTooBig

/-- Some slot of this width is the id of no region, and the lowest such is not the
id that stands for failure. -/
def SlotLeft (s : Runtime) (r : RegionPtr) (bits : UInt8) : Prop :=
  ∃ k < 2 ^ bits.toNat, s.tree.FirstFree r bits k ∧ s.tree.slotId r bits k ≠ xyRegionInvalid

theorem claimReturns_ok (hok : s.tree.Ok) (hlive : s.TableLive) (hr : r < s.regionNext) (hpos : bits ≠ 0) (hle : bits ≤ 64)
    (hid : s.regionAllocSlot r bits ≠ xyRegionInvalid) : s.ClaimReturns r bits xyOk := by
  intro E caller want ch hw0 hw64 hh hret hg
  obtain ⟨⟨t, ret⟩, h⟩ := xyClaimForLoad_total (E := E) hlive caller (s.regions r).id want ch
  suffices hr : ret = xyOk from ⟨t, hr ▸ h⟩
  have hhd : s.regionLookup (s.regions r).id = some r := hok.node_hd r hr
  have hnone : (s.regions r).claimHandler.isNone = false := by
    rw [Option.isNone_eq_false_iff, ← Option.ne_none_iff_isSome]
    exact hh
  simp only [xyClaimForLoad, hhd, hnone, hret, hg, if_neg (show ¬ (want = 0 ∨ 64 < want) from
    not_or.mpr ⟨hw0, UInt8.not_lt.mpr hw64⟩), if_neg (show ¬ (bits = 0 ∨ 64 < bits) from
    not_or.mpr ⟨hpos, UInt8.not_lt.mpr hle⟩), if_neg hid] at h
  obtain ⟨u, -, hu⟩ := Res.bind_ok.mp h
  cases hu
  rfl

theorem regionAllocSlot_first (hfit : (s.regions r).plen.toNat + bits.toNat ≤ 64) {k : Nat}
    (hk : k < 2 ^ bits.toNat) (hf : s.tree.FirstFree r bits k) :
    s.regionAllocSlot r bits = s.tree.slotId r bits k ∧
      s.regionAllocFrom (s.regions r).id (64 - ((s.regions r).plen + bits).toNat)
        (2 ^ bits.toNat) 0 = s.tree.slotId r bits k := by
  have found : ∀ {n}, k < n → s.regionAllocFrom (s.regions r).id
      (64 - ((s.regions r).plen + bits).toNat) n (BitVec.ofNat 64 0) = s.tree.slotId r bits k := by
    intro n hn
    rw [regionAllocFrom_first s _ _ hn (by rw [Nat.zero_add]; exact hf.free) fun i hi => by
      rw [Nat.zero_add]
      exact hf.taken i hi, Nat.zero_add]
    rfl
  refine ⟨?_, found hk⟩
  have hsum : ((s.regions r).plen + bits).toNat = (s.regions r).plen.toNat + bits.toNat := by
    rw [UInt8.toNat_add]
    omega
  have hle : ¬ 64 < (s.regions r).plen + bits := by
    rw [UInt8.not_lt, UInt8.le_iff_toNat_le, hsum]
    exact hfit
  simp only [regionAllocSlot, if_neg hle]
  refine found ?_
  split
  · exact hk.trans_le (Nat.pow_le_pow_right Nat.two_pos (by omega))
  · exact hk

theorem nextSlot_iff (hok : s.tree.Ok) (hlive : s.TableLive) (hr : r < s.regionNext) (hpos : 1 ≤ bits.toNat)
    (hfit : (s.regions r).plen.toNat + bits.toNat ≤ 64) :
    (∃ k, s.NextSlot r bits k) ↔ s.SlotLeft r bits := by
  constructor
  · rintro ⟨k, hk⟩
    exact ⟨k, hk.lt, hk.lowest, hk.valid⟩
  · rintro ⟨k, hk, hf, hv⟩
    obtain ⟨hid, hprobes⟩ := regionAllocSlot_first hfit hk hf
    have h0 : bits ≠ 0 := by
      rintro rfl
      exact absurd hpos (by decide)
    have h64 : bits ≤ 64 := by
      rw [UInt8.le_iff_toNat_le]
      exact (Nat.le_add_left _ _).trans hfit
    exact ⟨k, hk, hf, hid, hprobes, hv, claimReturns_ok hok hlive hr h0 h64 (hid ▸ hv)⟩

theorem claimsInRow_claimed (hok : s.tree.Ok) (hr : r < s.regionNext) (h0 : bits ≠ 0)
    (h64 : bits ≤ 64) {n : Nat} (h : ∀ m < n, ∃ k, (s.claimsInRow r bits m).NextSlot r bits k) :
    (s.claimsInRow r bits n).tree.Ok ∧ r < (s.claimsInRow r bits n).regionNext ∧
      ((s.claimsInRow r bits n).tree.claimed r bits).length = (s.tree.claimed r bits).length + n := by
  induction n with
  | zero => exact ⟨hok, hr, rfl⟩
  | succ n ih =>
      obtain ⟨hok', hr', hlen⟩ := ih fun m hm => h m (Nat.lt_succ_of_lt hm)
      obtain ⟨k, hk⟩ := h n (Nat.lt_succ_self n)
      simp only [claimsInRow]
      generalize s.claimsInRow r bits n = t at hok' hr' hlen hk
      have hT : (t.regionCreateChild r (t.regionAllocSlot r bits) bits).tree =
          t.tree.claim r (t.tree.slotId r bits k) bits := by
        rw [regionCreateChild_tree, hk.id]
      obtain ⟨j, hj, hjid⟩ := regionAllocSlot_claims hr' h0 h64 (hk.id ▸ hk.valid)
      refine ⟨?_, ?_, ?_⟩
      · rw [hT, ← hk.id, hjid]
        exact hok'.claim hj
      · have hnext :
          (t.regionCreateChild r (t.regionAllocSlot r bits) bits).tree.next = t.tree.next + 1 := by
          rw [hT]
          rfl
        exact (Nat.lt_succ_of_lt hr').trans_eq hnext.symm
      · rw [hT, hok'.claimed_claim hr' hk.lt, hlen, Nat.add_assoc]

end Runtime

variable {E : Env} {s₀ s : State} {tr : List (State × Event)} {r : RegionPtr} {bits : UInt8}

/-- Of the `2 ^ bits` slots the lowest has the region's own id, so that `2 ^ bits`
claims never succeed; one claim does exactly when a slot is left. -/
theorem slots_complete_iff (h : Runs E s₀ tr s) (hr : r < s.rt.regionNext) (hpos : 1 ≤ bits.toNat)
    (hfit : (s.rt.regions r).plen.toNat + bits.toNat ≤ 64) :
    s.rt.SlotsComplete r bits ↔ (s.rt.regions r).children ≠ [] ∧ s.rt.SlotLeft r bits := by
  obtain ⟨L, hw⟩ := h.inv.wf
  have hok := hw.tree
  have h0 : bits ≠ 0 := by
    rintro rfl
    exact absurd hpos (by decide)
  have h64 : bits ≤ 64 := by
    rw [UInt8.le_iff_toNat_le]
    exact (Nat.le_add_left _ _).trans hfit
  have hnext := nextSlot_iff hok (.of_wf hw) hr hpos hfit
  constructor
  · refine fun hc => ⟨fun hfresh => ?_, hnext.mp (hc.next (hok.claimed_lt hr))⟩
    -- with every slot claimed in a row, slot 0 would be among them
    obtain ⟨hok', hr', hlen⟩ := claimsInRow_claimed hok hr h0 h64 (hc.row hfresh).1
    have hlt : _ < 2 ^ bits.toNat := hok'.claimed_lt hr'
    omega
  · rintro ⟨hne, hleft⟩
    exact ⟨fun _ => hnext.mpr hleft, fun hfresh => absurd hfresh hne⟩

/-- One bit of the root is claimed; a claim of two bits still finds a slot. -/
theorem slots_complete_two_bits : ∃ s, Run.exec (step sampleEnv) sampleState
      [.requireClaim (some 0) 0, .load "m" { addr := 1, granted := 1 }] = .ok s ∧
    s.rt.SlotsComplete 0 2 := by
  obtain ⟨s, hs, hobs⟩ := sample_check
    [.requireClaim (some 0) 0, .load "m" { addr := 1, granted := 1 }]
    (fun s => decide (s.rt.regionNext = 2) && decide ((s.rt.regions 0).plen = 0) &&
      decide ((s.rt.regions 0).children = [1]) &&
        decide (s.rt.tree.hd (s.rt.tree.slotId 0 2 0) = some 0) &&
      decide (s.rt.tree.hd (s.rt.tree.slotId 0 2 1) = none) &&
      decide (s.rt.tree.slotId 0 2 1 ≠ xyRegionInvalid)) (by decide)
  simp only [Bool.and_eq_true, decide_eq_true_eq] at hobs
  obtain ⟨⟨⟨⟨⟨hnext, hplen⟩, hch⟩, hzero⟩, hone⟩, hvalid⟩ := hobs
  have hr : 0 < s.rt.regionNext := by
    rw [hnext]
    decide
  have hfit : (s.rt.regions 0).plen.toNat + (2 : UInt8).toNat ≤ 64 := by
    rw [hplen]
    decide
  have hfirst : s.rt.tree.FirstFree 0 2 1 := by
    refine ⟨hone, fun j hj => ?_⟩
    obtain rfl : j = 0 := Nat.lt_one_iff.mp hj
    rw [hzero]
    simp
  refine ⟨s, hs, (slots_complete_iff (sample_runs hs) hr (by decide) hfit).mpr ⟨?_, ?_⟩⟩
  · rw [hch]
    simp
  · exact ⟨1, by decide, hfirst, hvalid⟩

/-- One of two 1-bit slots of the root is claimed, and the next claim is refused. -/
theorem slots_short_by_one : ∃ s, Run.exec (step sampleEnv) sampleState
      [.requireClaim (some 0) 0, .load "m" { addr := 1, granted := 1 }] = .ok s ∧
    ¬ s.rt.SlotsComplete 0 1 := by
  obtain ⟨s, hs, hobs⟩ := sample_check
    [.requireClaim (some 0) 0, .load "m" { addr := 1, granted := 1 }]
    (fun s => decide (s.rt.tree.claimed 0 1 = [1]) &&
      decide (s.rt.regionAllocSlot 0 1 = xyRegionInvalid)) (by decide)
  simp only [Bool.and_eq_true, decide_eq_true_eq] at hobs
  obtain ⟨hclaimed, hrefused⟩ := hobs
  refine ⟨s, hs, fun hc => ?_⟩
  obtain ⟨k, hk⟩ := hc.next (by rw [hclaimed]; decide)
  exact hk.valid (hk.id.symm.trans hrefused)

end Xylem

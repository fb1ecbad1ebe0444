import Xylem.Lib.Nested
import Xylem.Runs.Trees

/-!
# Region ids as prefixes

A region stands for the ids that begin with its prefix. The tree and the
prefixes agree as long as every claim gets a slot of its own inside its parent.
-/
namespace Xylem

namespace Tree

/-- The bits that begin like the id of `x`, as far as its prefix goes. -/
def code (T : Tree) (x : RegionPtr) : Set (Nat → Bool) :=
  { v | ∀ i < (T.node x).plen.toNat, v i = (T.node x).id.getMsbD i }

/-- `a.plen <= b.plen`, the top `a.plen` bits of `b.id` are those of `a.id`, and
the bits of `a.id` below its prefix are zero. -/
structure PrefixOf (T : Tree) (a b : RegionPtr) : Prop where
  plen : (T.node a).plen ≤ (T.node b).plen
  top : ∀ i < (T.node a).plen.toNat, (T.node b).id.getMsbD i = (T.node a).id.getMsbD i
  low : ∀ i, (T.node a).plen.toNat ≤ i → (T.node a).id.getMsbD i = false

def IdsEncode (T : Tree) : Prop :=
  ∀ a < T.next, ∀ b < T.next, Forest.Anc T.parentOf a b ↔ T.PrefixOf a b

/-- The prefixes are nested along the tree. -/
structure Nested (T : Tree) : Prop where
  inside : ∀ x p, T.parentOf x = some p →
    ∀ i < (T.node p).plen.toNat, (T.node x).id.getMsbD i = (T.node p).id.getMsbD i
  low : ∀ x, ∀ i, (T.node x).plen.toNat ≤ i → (T.node x).id.getMsbD i = false
  apart : ∀ x y p, T.parentOf x = some p → T.parentOf y = some p → x ≠ y →
    ∃ i, i < (T.node x).plen.toNat ∧ i < (T.node y).plen.toNat ∧
      (T.node x).id.getMsbD i ≠ (T.node y).id.getMsbD i

/-- The next claim of this width under `r` takes one of the slots inside `r`, and
one whose prefix no child of `r` overlaps. -/
def SlotClear (T : Tree) (r : RegionPtr) (bits : UInt8) : Prop :=
  ∀ k, T.Claims r bits k → k < 2 ^ bits.toNat ∧ ∀ c, T.parentOf c = some r →
    ∃ i, i < (T.node c).plen.toNat ∧ i < (T.node r).plen.toNat + bits.toNat ∧
      (T.node c).id.getMsbD i ≠ (T.slotId r bits k).getMsbD i

section
variable {T T' : Tree}

theorem Ok.anc_root (h : T.Ok) {x : RegionPtr} (hx : x < T.next) : Forest.Anc T.parentOf 0 x := by
  induction x using Nat.strong_induction_on with
  | _ x ih =>
      cases hp : T.parentOf x with
      | none =>
          rw [h.root_only x hx hp]
          exact .refl _
      | some p =>
          have hlt := h.parent_lt x p hp
          exact (ih p hlt (hlt.trans hx)).of_parent hp

theorem mem_code_self (T : Tree) (x : RegionPtr) : (T.node x).id.getMsbD ∈ T.code x :=
  fun _ _ => rfl

theorem Nested.code_subset (hn : T.Nested) (h : T.Ok) {x p : RegionPtr} (hp : T.parentOf x = some p) :
    T.code x ⊆ T.code p := by
  intro v hv i hi
  rw [hv i (hi.trans (h.plen_lt hp)), hn.inside x p hp i hi]

theorem Nested.code_strict (h : T.Ok) {x p : RegionPtr} (hp : T.parentOf x = some p) :
    ¬ T.code p ⊆ T.code x := by
  intro hsub
  -- the bit right after the parent's prefix is free in the parent and fixed in the child
  let v : Nat → Bool := fun i =>
    if i < (T.node p).plen.toNat then (T.node p).id.getMsbD i
    else !(T.node x).id.getMsbD i
  have hv : v ∈ T.code p := fun i hi => if_pos hi
  have := hsub hv _ (h.plen_lt hp)
  simp [v] at this

theorem Nested.code_apart (hn : T.Nested) {x y p : RegionPtr} (hx : T.parentOf x = some p)
    (hy : T.parentOf y = some p) (hne : x ≠ y) : Disjoint (T.code x) (T.code y) := by
  obtain ⟨i, h1, h2, h3⟩ := hn.apart x y p hx hy hne
  exact Set.disjoint_left.mpr fun v hv hv' => h3 ((hv i h1).symm.trans (hv' i h2))

theorem Nested.idsEncode (hn : T.Nested) (h : T.Ok) : T.IdsEncode := by
  intro a ha b hb
  constructor
  · intro hab
    refine ⟨hab.rank_le h.plen_ranked, fun i hi => ?_, hn.low a⟩
    exact hab.subset (fun x p hp => hn.code_subset h hp) (T.mem_code_self b) i hi
  · intro hab
    refine Forest.anc_of_subset (fun x p hp => hn.code_subset h hp)
      (fun x p hp => Nested.code_strict h hp) (fun x y p hx hy hne => hn.code_apart hx hy hne)
      (h.anc_root ha) (h.anc_root hb) ⟨_, T.mem_code_self b⟩ ?_
    intro v hv i hi
    have hle : (T.node a).plen.toNat ≤ (T.node b).plen.toNat := hab.plen
    rw [hv i (hi.trans_le hle), hab.top i hi]

theorem Nested.congr (hn : T.Nested)
    (hs : ∀ r, (T'.node r).toRegionShape = (T.node r).toRegionShape) : T'.Nested := by
  have hp : T'.parentOf = T.parentOf := by
    funext r
    simp only [parentOf, hs]
  refine ⟨?_, ?_, ?_⟩
  · simpa only [hp, hs] using hn.inside
  · simpa only [hs] using hn.low
  · simpa only [hp, hs] using hn.apart

theorem slotId_getMsbD (T : Tree) (r : RegionPtr) (bits : UInt8) (k i : Nat) :
    (T.slotId r bits k).getMsbD i = ((T.node r).id.getMsbD i ||
      (BitVec.ofNat 64 k).getMsbD (i + (64 - ((T.node r).plen + bits).toNat))) := by
  simp [slotId]

/-- The slot number shows only between the parent's prefix and the new one. -/
theorem slot_getMsbD {k bits plen i : Nat} (hk : k < 2 ^ bits) (hle : plen + bits ≤ 64)
    (hi : i < plen ∨ plen + bits ≤ i) :
    (BitVec.ofNat 64 k).getMsbD (i + (64 - (plen + bits))) = false := by
  rw [BitVec.getMsbD]
  by_cases hlt : i + (64 - (plen + bits)) < 64
  · have hi' : i < plen := by omega
    have : (BitVec.ofNat 64 k).getLsbD (64 - 1 - (i + (64 - (plen + bits)))) = false := by
      rw [BitVec.getLsbD_ofNat]
      have hb : bits ≤ 64 - 1 - (i + (64 - (plen + bits))) := by omega
      rw [Nat.testBit_lt_two_pow (hk.trans_le (Nat.pow_le_pow_right Nat.two_pos hb))]
      simp
    simp [this]
  · simp [hlt]

theorem Nested.claim (hn : T.Nested) (h : T.Ok) {r : RegionPtr} {bits : UInt8} {k : Nat}
    (hc : T.Claims r bits k) (hclear : T.SlotClear r bits) :
    (T.claim r (T.slotId r bits k) bits).Nested := by
  have hr := hc.region
  obtain ⟨hk, hapart⟩ := hclear k hc
  have hplen := hc.plen_add h
  have hle : (T.node r).plen.toNat + bits.toNat ≤ 64 := hplen ▸ hc.fits
  have hpar := claim_parentOf T hr (T.slotId r bits k) bits
  have hnew : ((T.claim r (T.slotId r bits k) bits).node T.next).id = T.slotId r bits k ∧
      ((T.claim r (T.slotId r bits k) bits).node T.next).plen.toNat =
        (T.node r).plen.toNat + bits.toNat := by
    rw [claim_node T hr, if_neg hr.ne', if_pos rfl]
    exact ⟨rfl, hplen⟩
  have hold : ∀ x, x ≠ T.next → ((T.claim r (T.slotId r bits k) bits).node x).id = (T.node x).id ∧
      ((T.claim r (T.slotId r bits k) bits).node x).plen = (T.node x).plen := by
    intro x hx
    rw [claim_node T hr]
    by_cases hxr : x = r
    · rw [if_pos hxr, hxr]
      exact ⟨rfl, rfl⟩
    · rw [if_neg hxr, if_neg hx]
      exact ⟨rfl, rfl⟩
  generalize T.claim r (T.slotId r bits k) bits = T' at *
  have hbit : ∀ i, i < (T.node r).plen.toNat ∨ (T.node r).plen.toNat + bits.toNat ≤ i →
      (T.slotId r bits k).getMsbD i = (T.node r).id.getMsbD i := by
    intro i hi
    rw [slotId_getMsbD, hplen, slot_getMsbD hk hle hi, Bool.or_false]
  have hne : ∀ x p, T.parentOf x = some p → x ≠ T.next ∧ p ≠ T.next := fun x p hp =>
    ⟨(h.region_lt x p hp).ne, ((h.parent_lt x p hp).trans (h.region_lt x p hp)).ne⟩
  -- a child of `r` and the new region differ inside both prefixes
  have hsib : ∀ c, T.parentOf c = some r →
      ∃ i, i < (T'.node c).plen.toNat ∧ i < (T'.node T.next).plen.toNat ∧
        (T'.node c).id.getMsbD i ≠ (T'.node T.next).id.getMsbD i := by
    intro c hcr
    obtain ⟨i, h1, h2, h3⟩ := hapart c hcr
    obtain ⟨e1, e2⟩ := hold c (hne c r hcr).1
    refine ⟨i, by rw [e2]; exact h1, by rw [hnew.2]; exact h2, ?_⟩
    rw [e1, hnew.1]
    exact h3
  refine ⟨fun x p hp i hi => ?_, fun x i hi => ?_, fun x y p hx hy hxy => ?_⟩
  · rw [hpar] at hp
    split at hp
    · rename_i hx
      cases hp
      rw [(hold r hr.ne).2] at hi
      rw [hx, hnew.1, (hold r hr.ne).1]
      exact hbit i (.inl hi)
    · obtain ⟨h1, h2⟩ := hne x p hp
      rw [(hold p h2).2] at hi
      rw [(hold x h1).1, (hold p h2).1]
      exact hn.inside x p hp i hi
  · by_cases hx : x = T.next
    · subst hx
      rw [hnew.2] at hi
      rw [hnew.1, hbit i (.inr hi)]
      exact hn.low r i ((Nat.le_add_right _ _).trans hi)
    · rw [(hold x hx).2] at hi
      rw [(hold x hx).1]
      exact hn.low x i hi
  · rw [hpar] at hx hy
    split at hx <;> split at hy
    · rename_i h1 h2
      exact absurd (h1.trans h2.symm) hxy
    · rename_i h1 h2
      cases hx
      obtain ⟨i, h3, h4, h5⟩ := hsib y hy
      exact ⟨i, h1 ▸ h4, h3, h1 ▸ h5.symm⟩
    · rename_i h1 h2
      cases hy
      obtain ⟨i, h3, h4, h5⟩ := hsib x hx
      exact ⟨i, h3, h2 ▸ h4, h2 ▸ h5⟩
    · obtain ⟨i, h3, h4, h5⟩ := hn.apart x y p hx hy hxy
      obtain ⟨e1, e2⟩ := hold x (hne x p hx).1
      obtain ⟨e3, e4⟩ := hold y (hne y p hy).1
      exact ⟨i, e2 ▸ h3, e4 ▸ h4, by rw [e1, e3]; exact h5⟩

theorem SlotClear.fewer {r : RegionPtr} {bits : UInt8} (h : T.SlotClear r bits)
    (hf : FewerDenies T T') : T'.SlotClear r bits := by
  have hs := hf.shape
  have hp := hf.parentOf
  have hslot : ∀ k, T'.slotId r bits k = T.slotId r bits k := fun k => by
    simp only [slotId, hs]
  intro k hk
  have hk' : T.Claims r bits k := by
    refine ⟨hf.next ▸ hk.region, hk.pos, hk.le, ?_, ⟨?_, fun j hj => ?_⟩, ?_, hslot k ▸ hk.valid⟩
    · have := hk.fits
      rwa [hs] at this
    · rw [← hslot, ← hf.hd]
      exact hk.first.free
    · rw [← hslot, ← hf.hd]
      exact hk.first.taken j hj
    · have := hk.probed
      rwa [hs] at this
  obtain ⟨h1, h2⟩ := h k hk'
  refine ⟨h1, fun c hc => ?_⟩
  rw [hp] at hc
  obtain ⟨i, h3, h4, h5⟩ := h2 c hc
  refine ⟨i, ?_, ?_, ?_⟩
  · rwa [hs]
  · rwa [hs]
  · rw [hslot, hs]
    exact h5

theorem Nested.of_root (h : ∀ r, T.node r = {}) : T.Nested := by
  have hp : ∀ r, T.parentOf r = none := fun r => by rw [parentOf, h]
  refine ⟨fun x p hx => ?_, fun x i _ => ?_, fun x y p hx => ?_⟩
  · rw [hp] at hx
    cases hx
  · rw [h]
    simp
  · rw [hp] at hx
    cases hx

end
end Tree

/-- The step claims a clear slot, if it claims one. -/
def ClearStep (E : Env) (s : State) (e : Event) (_ : State) : Prop :=
  ∀ r bits, StepClaims E s r bits e → s.rt.tree.SlotClear r bits

theorem nested_step {E : Env} {s t : State} {e : Event} (hi : Inv E s) (h : step E s e = .ok t)
    (hc : ClearStep E s e t) (hn : s.rt.tree.Nested) : t.rt.tree.Nested := by
  rcases (step_tree hi h).shapes with hs | ⟨m, r, bits, k, hm, hok, hg, hk, hT⟩
  · exact hn.congr hs
  · rw [hT]
    exact (hn.congr hm.shape).claim hok hk ((hc r bits hg).fewer hm)

/-- In a run whose claims all get clear slots, region ids encode the tree. -/
theorem ids_encode_tree {E : Env} {s₀ s : State} {tr : List (State × Event)} (h : Runs E s₀ tr s)
    (hc : Run.Every (step E) (ClearStep E) tr) : s.rt.tree.IdsEncode := by
  have key : Inv E s ∧ s.rt.tree.Nested := by
    refine h.2.invariant (P := fun s => Inv E s ∧ s.rt.tree.Nested)
      (fun m e t hs hce hp => ⟨hp.1.step hs, nested_step hp.1 hs hce hp.2⟩) hc ⟨Inv.boot h.1, ?_⟩
    exact .of_root (Inv.boot_node h.1)
  obtain ⟨L, hw⟩ := key.1.wf
  exact key.2.idsEncode hw.tree

/-- One claim below an empty root. -/
theorem ids_encode_one_claim : ∃ tr s, Runs sampleEnv sampleState tr s ∧ s.rt.regionNext = 2 ∧
    s.rt.tree.IdsEncode := by
  obtain ⟨m, hm, hobs⟩ := sample_check
    [.requireClaim (some 0) 0]
    (fun s => decide (s.rt.regionHd s.rt.currentRegionId = some 0) &&
      decide (s.rt.regionHd (s.rt.tree.slotId 0 1 1) = none) && decide (s.rt.regionNext = 1) &&
      Run.check (step sampleEnv) s [.load "m" { addr := 1, granted := 1 }]
        fun t => decide (t.rt.regionNext = 2)) (by decide)
  simp only [Bool.and_eq_true, decide_eq_true_eq] at hobs
  obtain ⟨⟨⟨hcur, hfree⟩, hnext⟩, hload⟩ := hobs
  obtain ⟨t, ht, htn⟩ := Run.of_check hload
  have hrun := sample_runs hm
  have hruns : Runs sampleEnv sampleState _ t := ⟨hrun.1, hrun.2.trans (Run.exec_steps ht)⟩
  refine ⟨_, t, hruns, of_decide_eq_true htn, ids_encode_tree hruns ?_⟩
  obtain ⟨L, hw⟩ := hrun.inv.wf
  rintro ⟨x, e⟩ hx t' - r bits hg
  rcases List.mem_append.mp hx with hx | hx
  · obtain rfl : e = .requireClaim (some 0) 0 := by
      have := List.mem_map_of_mem (f := Prod.snd) hx
      rw [Run.trace_events hm] at this
      exact List.mem_singleton.mp this
    cases hg
  · simp only [Run.trace, List.mem_cons, Prod.mk.injEq] at hx
    rcases hx with ⟨rfl, rfl⟩ | hx
    · have hr : r = 0 := Option.some.inj (hg.asks.region.symm.trans hcur)
      have hb : bits = 1 := hg.granted
      subst hr hb
      intro k hk
      refine ⟨?_, fun c hc => ?_⟩
      · by_contra hle
        rcases Nat.lt_or_ge 1 k with h1 | h1
        · exact hk.first.taken 1 h1 hfree
        · exact hle (Nat.lt_of_le_of_lt h1 (by decide))
      · have h1 := hw.tree.parent_lt c 0 hc
        have h2 : c < x.rt.regionNext := hw.tree.region_lt c 0 hc
        rw [hnext] at h2
        exact absurd (h1.trans_le (Nat.lt_succ_iff.mp h2)) (lt_irrefl _)
    · split at hx <;> cases hx

/-- Widths 1, 2 and 2 below the root: the third region's id is inside the prefix
of the first, whose sibling it is. -/
theorem ids_misplace_mixed_widths : ∃ s, Run.exec (step sampleEnv) sampleState
      [.requireClaim (some 0) 0, .load "m" { addr := 1, granted := 1 }, .installRet,
        .load "m" { addr := 2, granted := 2 }, .installRet,
        .load "m" { addr := 3, granted := 2 }] = .ok s ∧ ¬ s.rt.tree.IdsEncode := by
  obtain ⟨s, hs, hobs⟩ := sample_check
    [.requireClaim (some 0) 0, .load "m" { addr := 1, granted := 1 }, .installRet,
        .load "m" { addr := 2, granted := 2 }, .installRet, .load "m" { addr := 3, granted := 2 }]
    (fun s => decide (s.rt.regionNext = 4) && decide (s.rt.tree.parentOf 3 = some 0) &&
      decide (s.rt.tree.parentOf 0 = none) &&
      decide ((s.rt.tree.node 1).id = 0x8000000000000000) && decide ((s.rt.tree.node 1).plen = 1) &&
      decide ((s.rt.tree.node 3).id = 0xC000000000000000) && decide ((s.rt.tree.node 3).plen = 2))
    (by decide)
  simp only [Bool.and_eq_true, decide_eq_true_eq] at hobs
  obtain ⟨⟨⟨⟨⟨⟨hnext, hp3⟩, hp0⟩, hid1⟩, hlen1⟩, hid3⟩, hlen3⟩ := hobs
  refine ⟨s, hs, fun h => ?_⟩
  have hpre : s.rt.tree.PrefixOf 1 3 := by
    refine ⟨?_, fun i hi => ?_, fun i hi => ?_⟩
    · rw [hlen1, hlen3]
      decide
    · rw [hlen1] at hi
      obtain rfl : i = 0 := Nat.lt_one_iff.mp hi
      rw [hid1, hid3]
      decide
    · rw [hlen1] at hi
      rw [hid1]
      have hall : ∀ j : Fin 64, 1 ≤ j.val →
          (0x8000000000000000 : BitVec 64).getMsbD j.val = false := by decide
      by_cases hlt : i < 64
      · exact hall ⟨i, hlt⟩ hi
      · simp [BitVec.getMsbD, hlt]
  have hlt : ∀ x < 4, x < s.rt.tree.next := fun x hx => hx.trans_eq hnext.symm
  have hanc := (h 1 (hlt 1 (by decide)) 3 (hlt 3 (by decide))).mpr hpre
  rw [Forest.anc_iff hp3, Forest.anc_root hp0] at hanc
  revert hanc
  decide

end Xylem

import Xylem.Model.Each
import Xylem.Runs.Trees

namespace Xylem

open Xylem.Runtime

/-- The children of `P`, as the chain from `children_head` has them. -/
def State.kids (s : State) (P : RegionPtr) : List RegionPtr := (s.rt.regions P).children

def ClaimedBefore (tr : List (State × Event)) (t : State) (P x y : RegionPtr) : Prop :=
  ∃ u ∈ Run.states tr t, x ∈ u.kids P ∧ y ∉ u.kids P

/-- `fn` was called on the regions of `order` one after the other, up to the first call that
did not return `XY_OK`, and `ret` is what the last call returned. -/
structure Enumerates (order : List RegionPtr) (calls : List (RegionPtr × Int)) (ret : Int) :
    Prop where
  inOrder : calls.map (·.1) <+: order
  goesOn : ∀ c ∈ calls.dropLast, c.2 = xyOk
  complete : (∀ c ∈ calls, c.2 = xyOk) → calls.map (·.1) = order
  ret : ret = (calls.map (·.2)).getLast?.getD xyOk

/-- The calls are on the children of `P` in the order in which they were claimed. -/
def InClaimOrder (tr : List (State × Event)) (s : State) (P : RegionPtr)
    (calls : List (RegionPtr × Int)) (ret : Int) : Prop :=
  ∃ order, order.Perm (s.kids P) ∧ order.Pairwise (ClaimedBefore tr s P) ∧
    Enumerates order calls ret

section
variable {E : Env} {s₀ s t : State} {e : Event} {tr : List (State × Event)} {P : RegionPtr}

theorem Inv.kids_nodup (hi : Inv E s) (P : RegionPtr) : (s.kids P).Nodup :=
  have ⟨_, hw⟩ := hi.wf
  hw.tree.children_nodup P

/-- A step leaves the children of a region as they are or puts one in front. -/
theorem kids_step (hi : Inv E s) (h : step E s e = .ok t) (P : RegionPtr) :
    t.kids P = s.kids P ∨ ∃ c, t.kids P = c :: s.kids P := by
  rcases (step_tree hi h).shapes with hs | ⟨m, r, bits, k, hm, hok, hg, hk, hT⟩
  · exact .inl (congrArg RegionShape.children (hs P))
  · have hP : t.kids P = ((m.claim r (m.slotId r bits k) bits).node P).children := by
      rw [← hT]
      rfl
    have hsame : (m.node P).children = s.kids P := congrArg RegionShape.children (hm.shape P)
    rw [hP, Tree.claim_node m hk.region]
    by_cases hr : P = r
    · subst hr
      rw [if_pos rfl]
      exact .inr ⟨m.next, by rw [← hsame]⟩
    · rw [if_neg hr]
      by_cases hn : P = m.next
      · rw [if_pos hn, ← hsame, hn, hok.beyond _ le_rfl]
        exact .inl rfl
      · rw [if_neg hn]
        exact .inl hsame

theorem kids_suffix_step (hi : Inv E s) (h : step E s e = .ok t) (P : RegionPtr) :
    s.kids P <:+ t.kids P := by
  rcases kids_step hi h P with hk | ⟨c, hk⟩
  · rw [hk]
  · rw [hk]
    exact List.suffix_cons _ _

theorem kids_suffix (hi : Inv E s) (h : Run.Steps (step E) s tr t) (P : RegionPtr) :
    Inv E t ∧ s.kids P <:+ t.kids P := by
  induction h with
  | nil => exact ⟨hi, List.suffix_refl _⟩
  | snoc _ hs ih => exact ⟨ih.1.step hs, ih.2.trans (kids_suffix_step ih.1 hs P)⟩

theorem kids_of_states (hi : Inv E s) (h : Run.Steps (step E) s tr t) {u : State}
    (hu : u ∈ Run.states tr t) (P : RegionPtr) : u.kids P <:+ t.kids P := by
  induction h with
  | nil =>
      obtain rfl : u = _ := by simpa [Run.states] using hu
      exact List.suffix_refl _
  | snoc hrun hs ih =>
      rcases Run.mem_states_snoc.mp hu with hu | rfl
      · exact (ih hu).trans (kids_suffix_step (kids_suffix hi hrun P).1 hs P)
      · exact List.suffix_refl _

theorem ClaimedBefore.snoc {x y : RegionPtr} (h : ClaimedBefore tr s P x y) :
    ClaimedBefore (tr ++ [(s, e)]) t P x y := by
  obtain ⟨u, hu, hxy⟩ := h
  exact ⟨u, Run.mem_states_snoc.mpr (.inl hu), hxy⟩

theorem ClaimedBefore.asymm (h : Runs E s₀ tr s) {x y : RegionPtr} (hx : ClaimedBefore tr s P x y) :
    ¬ ClaimedBefore tr s P y x := by
  rintro ⟨v, hv, hyv, hxv⟩
  obtain ⟨u, hu, hxu, hyu⟩ := hx
  have hi := Inv.boot (E := E) h.1
  -- both are ends of the list as it is now
  rcases List.suffix_or_suffix_of_suffix (kids_of_states hi h.2 hu P) (kids_of_states hi h.2 hv P)
    with hs | hs
  · exact hxv (hs.subset hxu)
  · exact hyu (hs.subset hyv)

theorem kids_newest_first (h : Runs E s₀ tr s) (P : RegionPtr) :
    (s.kids P).Pairwise fun x y => ClaimedBefore tr s P y x := by
  obtain ⟨hb, hrun⟩ := h
  induction hrun with
  | nil =>
      have hk : (s₀.rt.tree.node P).children = [] := by rw [Inv.boot_node hb]
      rw [State.kids, show (s₀.rt.regions P).children = [] from hk]
      exact List.Pairwise.nil
  | @snoc m t tr e hrun hs ih =>
      have hi := Runs.inv (E := E) ⟨hb, hrun⟩
      have old : (m.kids P).Pairwise fun x y => ClaimedBefore (tr ++ [(m, e)]) t P y x :=
        ih.imp fun hxy => hxy.snoc
      rcases kids_step hi hs P with hk | ⟨c, hk⟩
      · rwa [hk]
      · have hnd := (hi.step hs).kids_nodup P
        rw [hk] at hnd ⊢
        refine List.pairwise_cons.mpr ⟨fun y hy => ?_, old⟩
        exact ⟨m, Run.mem_states_snoc.mpr (.inl (by simp [Run.states])), hy,
          (List.nodup_cons.mp hnd).1⟩

theorem siblingNext_kids (hi : Inv E s) {above rest : List RegionPtr} {x : RegionPtr}
    (hk : s.kids P = above ++ x :: rest) : s.rt.siblingNext x = rest.head? := by
  obtain ⟨L, hw⟩ := hi.wf
  have hx : x ∈ (s.rt.tree.node P).children := by
    have : x ∈ s.kids P := by simp [hk]
    exact this
  have hp : (s.rt.regions x).parent = some P := (hw.tree.children P x).mp hx
  have hnot : ∀ y ∈ above, decide (y ≠ x) = true := by
    intro y hy
    have hnd := hi.kids_nodup P
    rw [hk, List.nodup_append] at hnd
    exact decide_eq_true (hnd.2.2 y hy x (List.mem_cons_self ..))
  have hd : (s.kids P).dropWhile (· ≠ x) = x :: rest := by
    rw [hk, List.dropWhile_append_of_pos hnot, List.dropWhile_cons_of_neg (by simp)]
  rw [siblingNext, hp]
  exact congrArg (fun l => l.tail.head?) hd

theorem runCallback_kids {cb : Callback} (hi : Inv E s) (h : runCallback E s cb = .ok t)
    (P : RegionPtr) : Inv E t ∧ s.kids P <:+ t.kids P := by
  unfold runCallback at h
  simp only at h
  split at h
  · split at h
    · rename_i u hu
      split at h
      · cases h
        exact kids_suffix (s := { s with status := .entered }) (Inv.congr_status (u := s.status) hi)
          (Run.exec_steps hu) P
      · cases h
    · cases h
  · cases h

theorem Enumerates.nil : Enumerates [] [] xyOk :=
  ⟨List.prefix_refl _, fun _ hc => (by cases hc), fun _ => rfl, rfl⟩

theorem Enumerates.cons {order : List RegionPtr} {calls : List (RegionPtr × Int)} {ret : Int}
    (h : Enumerates order calls ret) (x : RegionPtr) :
    Enumerates (x :: order) ((x, xyOk) :: calls) ret := by
  constructor
  · exact List.prefix_cons_inj x |>.mpr h.inOrder
  · intro c hc
    cases calls with
    | nil => cases hc
    | cons d calls =>
        rcases List.mem_cons.mp hc with rfl | hc
        · rfl
        · exact h.goesOn c hc
  · intro hall
    exact congrArg (x :: ·) (h.complete fun c hc => hall c (List.mem_cons_of_mem _ hc))
  · rw [h.ret]
    cases calls with
    | nil => rfl
    | cons d calls => simp [List.getLast?_cons]

/-- The loop calls `fn` on what is left of the list, whatever the calls do. -/
theorem eachLoop_spec {cbs : List Callback} {above rest : List RegionPtr}
    {calls : List (RegionPtr × Int)} {ret : Int} (hi : Inv E s) (hk : s.kids P = above ++ rest)
    (h : eachLoop E cbs s rest.head? xyOk = .ok (calls, ret, t)) : Enumerates rest calls ret := by
  induction cbs generalizing s above rest calls with
  | nil =>
      cases rest with
      | nil =>
          cases h
          exact .nil
      | cons x rest => cases h
  | cons cb cbs ih =>
      cases rest with
      | nil =>
          cases h
          exact .nil
      | cons x rest =>
          obtain ⟨m, hm, h⟩ := Res.bind_ok.mp h
          by_cases hret : cb.ret = xyOk
          · rw [if_neg (not_not.mpr hret)] at h
            obtain ⟨⟨calls', ret', u⟩, hloop, h⟩ := Res.bind_ok.mp h
            cases h
            obtain ⟨him, newer, hnew⟩ := runCallback_kids hi hm P
            have hkm : m.kids P = (newer ++ above) ++ x :: rest := by
              rw [← hnew, hk, List.append_assoc]
            rw [siblingNext_kids him hkm, hret] at hloop
            rw [hret]
            have hkx : m.kids P = (newer ++ above ++ [x]) ++ rest := by simpa using hkm
            exact (ih him hkx hloop).cons x
          · rw [if_pos hret] at h
            cases h
            refine ⟨?_, fun _ hc => (by cases hc), fun hall => ?_, rfl⟩
            · exact List.prefix_append [x] rest
            · exact absurd (hall _ (List.mem_singleton_self _)) hret

theorem xyRegionEach_newest_first {cbs : List Callback} {calls : List (RegionPtr × Int)} {ret : Int}
    (hi : Inv E s) (hP : s.rt.regionLookup s.rt.currentRegionId = some P)
    (h : xyRegionEach E s cbs = .ok (calls, ret, t)) : Enumerates (s.kids P) calls ret := by
  rw [xyRegionEach, hP] at h
  obtain ⟨⟨calls', ret', u⟩, hloop, h⟩ := Res.bind_ok.mp h
  cases h
  exact eachLoop_spec hi (List.nil_append _).symm hloop

/-- Of two children the newer one is called first, so there are not two. -/
theorem InClaimOrder.few {calls : List (RegionPtr × Int)} {ret : Int} (h : Runs E s₀ tr s)
    (hspec : Enumerates (s.kids P) calls ret) (ho : InClaimOrder tr s P calls ret) :
    (s.kids P).length ≤ 1 := by
  have hnewest := kids_newest_first h P
  have hnd := h.inv.kids_nodup P
  obtain ⟨order, hperm, horder, hen⟩ := ho
  rcases hk : s.kids P with _ | ⟨a, _ | ⟨b, l⟩⟩
  · exact Nat.zero_le _
  · exact le_rfl
  · rw [hk] at hspec hnewest hperm hnd
    exfalso
    obtain ⟨c, cs, rfl⟩ : ∃ c cs, calls = c :: cs := by
      cases calls with
      | nil => exact absurd (hspec.complete fun c hc => (by cases hc)) (by simp)
      | cons c cs => exact ⟨c, cs, rfl⟩
    obtain ⟨rest, hrest⟩ := hspec.inOrder
    obtain ⟨rest', rfl⟩ := hen.inOrder
    have ha : c.1 = a := (List.cons.inj hrest).1
    have hab : a ≠ b := by
      rintro rfl
      exact (List.nodup_cons.mp hnd).1 (List.mem_cons_self ..)
    have hb : b ∈ cs.map (·.1) ++ rest' := by
      have hmem : b ∈ (c :: cs).map (·.1) ++ rest' := hperm.symm.subset (by simp)
      rcases List.mem_cons.mp hmem with hb | hb
      · exact absurd (hb.trans ha).symm hab
      · exact hb
    have hold : ClaimedBefore tr s P a b := ha ▸ (List.pairwise_cons.mp horder).1 b hb
    exact hold.asymm h ((List.pairwise_cons.mp hnewest).1 b (List.mem_cons_self ..))

/-- The callbacks see the children in the order in which they were claimed just if
there are not two of them. -/
theorem region_each_in_claim_order (h : Runs E s₀ tr s) {cbs : List Callback}
    {calls : List (RegionPtr × Int)} {ret : Int}
    (hP : s.rt.regionLookup s.rt.currentRegionId = some P)
    (hc : xyRegionEach E s cbs = .ok (calls, ret, t)) :
    InClaimOrder tr s P calls ret ↔ (s.kids P).length ≤ 1 := by
  have hspec := xyRegionEach_newest_first h.inv hP hc
  constructor
  · exact InClaimOrder.few h hspec
  · intro hlen
    refine ⟨s.kids P, List.Perm.refl _, ?_, hspec⟩
    rcases hk : s.kids P with _ | ⟨a, _ | ⟨b, l⟩⟩
    · exact List.Pairwise.nil
    · exact List.pairwise_singleton _ _
    · simp [hk] at hlen

theorem each_of_toOption {cbs : List Callback} {calls : List (RegionPtr × Int)} {ret : Int}
    (h : (xyRegionEach E s cbs).toOption.map (fun x => (x.1, x.2.1)) = some (calls, ret)) :
    ∃ t, xyRegionEach E s cbs = .ok (calls, ret, t) := by
  cases hx : xyRegionEach E s cbs with
  | error f =>
      rw [hx] at h
      cases h
  | ok x =>
      rw [hx] at h
      obtain ⟨calls', ret', t⟩ := x
      cases h
      exact ⟨t, rfl⟩

end

/-- One child, claimed by a module of width 2. -/
theorem region_each_only_child : ∃ tr s t, Runs sampleEnv sampleState tr s ∧
    xyRegionEach sampleEnv s [⟨[], xyOk⟩] = .ok ([(1, xyOk)], xyOk, t) ∧
      InClaimOrder tr s 0 [(1, xyOk)] xyOk := by
  obtain ⟨s, hs, hobs⟩ := sample_check
    [.requireClaim (some 0) 0, .load "m" { addr := 1, granted := 2 }, .installRet]
    (fun s => decide (s.rt.regionLookup s.rt.currentRegionId = some 0) && decide (s.kids 0 = [1]) &&
      decide ((xyRegionEach sampleEnv s [⟨[], xyOk⟩]).toOption.map (fun x => (x.1, x.2.1)) =
        some ([(1, xyOk)], xyOk))) (by decide)
  simp only [Bool.and_eq_true, decide_eq_true_eq] at hobs
  obtain ⟨⟨hP, hk⟩, hc⟩ := hobs
  obtain ⟨t, ht⟩ := each_of_toOption hc
  have hrun := sample_runs hs
  exact ⟨_, s, t, hrun, ht, (region_each_in_claim_order hrun hP ht).mpr (by rw [hk]; exact le_rfl)⟩

/-- Two children, and the one that was claimed last comes first. -/
theorem region_each_newest_child_first : ∃ tr s t, Runs sampleEnv sampleState tr s ∧
    xyRegionEach sampleEnv s [⟨[], xyOk⟩, ⟨[], xyOk⟩] = .ok ([(2, xyOk), (1, xyOk)], xyOk, t) ∧
      ¬ InClaimOrder tr s 0 [(2, xyOk), (1, xyOk)] xyOk := by
  obtain ⟨s, hs, hobs⟩ := sample_check
    [.requireClaim (some 0) 0, .load "m" { addr := 1, granted := 2 }, .installRet,
      .load "m" { addr := 2, granted := 2 }, .installRet]
    (fun s => decide (s.rt.regionLookup s.rt.currentRegionId = some 0) && decide (s.kids 0 = [2, 1]) &&
      decide ((xyRegionEach sampleEnv s [⟨[], xyOk⟩, ⟨[], xyOk⟩]).toOption.map
        (fun x => (x.1, x.2.1)) = some ([(2, xyOk), (1, xyOk)], xyOk))) (by decide)
  simp only [Bool.and_eq_true, decide_eq_true_eq] at hobs
  obtain ⟨⟨hP, hk⟩, hc⟩ := hobs
  obtain ⟨t, ht⟩ := each_of_toOption hc
  have hrun := sample_runs hs
  refine ⟨_, s, t, hrun, ht, fun ho => ?_⟩
  have hfew := ho.few hrun (xyRegionEach_newest_first hrun.inv hP ht)
  rw [hk] at hfew
  exact absurd hfew (by decide)

end Xylem

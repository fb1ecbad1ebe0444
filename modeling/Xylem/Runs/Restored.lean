import Xylem.Runs.Effect

namespace Xylem

open Xylem.Runtime

/-- `xy_current_region_id` and `xy_current_region_entry`. -/
def State.pair (s : State) : RegionId × Option RegionPtr :=
  (s.rt.currentRegionId, s.rt.currentRegionEntry)

/-- The pair that is current again when a frame with `cur` current on top has returned. -/
def Frame.saved (cur : RegionId × Option RegionPtr) : Frame → RegionId × Option RegionPtr
  | .install f => (f.prevRegionId, f.prevRegionEntry)
  | .body f => if f.regionChanged then (f.regionId, f.prevRentry) else cur
  | .scope id r => (id, r)

def returnPair (cur : RegionId × Option RegionPtr) (above : List Frame) :
    RegionId × Option RegionPtr :=
  above.foldl Frame.saved cur

/-- A body's frame remembers the region id that was current where it was called. -/
def Frame.FromId (id : RegionId) (f : Frame) : Prop := ∀ g, f = .body g → g.regionId = id

/-- Every frame of the stack remembers the id of the level below it. -/
def IdsKept : RegionId × Option RegionPtr → List Frame → Prop
  | _, [] => True
  | cur, f :: stack => f.FromId (f.saved cur).1 ∧ IdsKept (f.saved cur) stack

def Event.IsCall : Event → Prop
  | .bodyRet _ => False
  | .installRet => False
  | .scopeRet _ => False
  | _ => True

/-- What a step does to the pair and the stack. -/
inductive PairMove (e : Event) (s t : State) : Prop
  | stays (hs : t.stack = s.stack) (hp : t.pair = s.pair)
  | pushes (g : Frame) (hs : t.stack = g :: s.stack) (hp : g.saved t.pair = s.pair)
      (hid : g.FromId s.pair.1)
  | pops (f : Frame) (stack : List Frame) (he : ¬ e.IsCall) (hst : s.stack = f :: stack)
      (hs : t.stack = stack)
      (hp : t.pair = f.saved s.pair)
  | swaps (f g : Frame) (stack : List Frame) (he : ¬ e.IsCall) (hst : s.stack = f :: stack)
      (hs : t.stack = g :: stack) (hp : g.saved t.pair = f.saved s.pair)
      (hid : g.FromId (f.saved s.pair).1)

theorem pair_of_core {t : State} {c : Core} (h : t.rt.core = c) :
    t.pair = (c.currentRegionId, c.currentRegionEntry) := by
  subst h
  rfl

section Moves
variable {E : Env} {s t : State}

/-- A dispatch that goes on from runtime `m` ends with the pair of `m` current, or
enters a body whose frame leads back to it. -/
theorem Turn.pairs {m : Runtime} {stack : List Frame} {f : CallFrame} (h : Turn m stack f t)
    (hid : f.regionId = m.currentRegionId) :
    t.stack = stack ∧ t.pair = (m.currentRegionId, m.currentRegionEntry) ∨
      ∃ g, t.stack = g :: stack ∧ g.saved t.pair = (m.currentRegionId, m.currentRegionEntry) ∧
        g.FromId m.currentRegionId := by
  cases h with
  | ends hc hs hst => exact .inl ⟨hs, pair_of_core hc⟩
  | enters k p me c he hctx hc hs hst =>
      refine .inr ⟨_, hs, ?_, ?_⟩
      · unfold State.pair
        rw [hc]
        by_cases hr : (m.ctxs c).regionId = m.currentRegionId
        · simp [callEnter, setCtx, Frame.saved, hr, hid]
        · simp [callEnter, setCtx, Frame.saved, hr, hid]
      · intro g hg
        cases hg
        exact hid

/-- A load that waits for `xy_install` leads back to the pair it found. -/
theorem load_pair {e : Event} {n : Runtime} {reload : Option ReloadFrame} {out : Outcome LoadFrame}
    (h : LoadFrameOk n t.rt reload out) (hid : n.currentRegionId = s.rt.currentRegionId)
    (hr : n.currentRegionEntry = s.rt.currentRegionEntry)
    (hs : t.stack = pushInstall s.stack out) : PairMove e s t := by
  cases out with
  | done ret =>
      obtain ⟨h1, h2, -⟩ := h.done ret rfl
      exact .stays hs (Prod.ext (h1.trans hid) (h2.trans hr))
  | wait f =>
      obtain ⟨rfl, -⟩ := h.wait f rfl
      exact .pushes _ hs (Prod.ext hid hr) nofun

theorem step_pair {e : Event} (hi : Inv E s) (h : step E s e = .ok t)
    (hk : IdsKept s.pair s.stack) : PairMove e s t := by
  cases step_effect hi h with
  | areg hooks hc hs => exact .stays hs (pair_of_core hc)
  | selfInitCtx hc hs => exact .stays hs (pair_of_core hc)
  | load out hl hs => exact load_pair hl.frame rfl rfl hs
  | unload m ret hu hc hs =>
      exact .stays hs (pair_of_core (hc.trans (modUnload_unloaded _ hu).core))
  | reload out hr hs =>
      cases hr with
      | missing hl ht => exact .stays hs (pair_of_core ht)
      | back p e hl he m hu m' ret hload ht =>
          have hcore := (modUnload_unloaded _ hu).core
          obtain ⟨h1, h2, -⟩ := hload.frame.done ret rfl
          refine .stays hs ((pair_of_core ht).trans (Prod.ext ?_ ?_))
          · exact h1.trans (congrArg Core.currentRegionId hcore)
          · exact h2.trans (congrArg Core.currentRegionEntry hcore)
      | waits p e hl he m hu f hload =>
          have hcore := (modUnload_unloaded _ hu).core
          exact load_pair (n := { m with reloading := true }) hload.frame
            (congrArg Core.currentRegionId hcore) (congrArg Core.currentRegionEntry hcore) hs
  | deny r hr hc hs => exact .stays hs (pair_of_core hc)
  | requireClaim r hr hc hs => exact .stays hs (pair_of_core hc)
  | call m f hooks hm hid ht =>
      have h1 : m.currentRegionId = s.rt.currentRegionId := congrArg Core.currentRegionId hm
      have h2 : m.currentRegionEntry = s.rt.currentRegionEntry := congrArg Core.currentRegionEntry hm
      rcases ht.pairs (hid.trans h1.symm) with ⟨hs, hp⟩ | ⟨g, hs, hp, hg⟩
      · exact .stays hs (hp.trans (Prod.ext h1 h2))
      · exact .pushes g hs (hp.trans (Prod.ext h1 h2)) (fun b hb => (hg b hb).trans h1)
  | last hc hs => exact .stays hs (pair_of_core hc)
  | noRegion hc hs => exact .stays hs (pair_of_core hc)
  | withRegion r hr hc hs => exact .pushes _ hs rfl nofun
  | @bodyRet result _ f stack hst ht =>
      rw [hst] at hk
      have hleft : ((s.rt.bodyLeft f result).currentRegionId,
          (s.rt.bodyLeft f result).currentRegionEntry) = Frame.saved s.pair (.body f) := by
        have hcore := bodyLeft_core s.rt f result
        cases hch : f.regionChanged with
        | true =>
            rw [hch, if_pos rfl] at hcore
            rw [Frame.saved, hch, if_pos rfl]
            exact Prod.ext (congrArg Core.currentRegionId hcore)
              (congrArg Core.currentRegionEntry hcore)
        | false =>
            rw [hch, if_neg (by simp)] at hcore
            rw [Frame.saved, hch, if_neg (by simp)]
            exact Prod.ext (congrArg Core.currentRegionId hcore)
              (congrArg Core.currentRegionEntry hcore)
      have hid : f.regionId = (s.rt.bodyLeft f result).currentRegionId :=
        (hk.1 f rfl).trans (congrArg Prod.fst hleft).symm
      rcases ht.pairs hid with ⟨hs, hp⟩ | ⟨g, hs, hp, hg⟩
      · exact .pops _ _ (fun h => h) hst hs (hp.trans hleft)
      · exact .swaps _ g _ (fun h => h) hst hs (hp.trans hleft)
          (fun b hb => (hg b hb).trans (congrArg Prod.fst hleft))
  | installRet f stack hst hc hs => exact .pops _ _ (fun h => h) hst hs (pair_of_core hc)
  | scopeRet id r stack hst hc hs => exact .pops _ _ (fun h => h) hst hs (pair_of_core hc)

theorem PairMove.idsKept {e : Event} (h : PairMove e s t) (hk : IdsKept s.pair s.stack) :
    IdsKept t.pair t.stack := by
  cases h with
  | stays hs hp =>
      rw [hs, hp]
      exact hk
  | pushes g hs hp hid =>
      rw [hs]
      exact ⟨by rw [hp]; exact hid, by rw [hp]; exact hk⟩
  | pops f stack he hst hs hp =>
      rw [hst] at hk
      rw [hs, hp]
      exact hk.2
  | swaps f g stack he hst hs hp hid =>
      rw [hst] at hk
      rw [hs]
      exact ⟨by rw [hp]; exact hid, by rw [hp]; exact hk.2⟩

end Moves

/-- The call `e` made in `s` has returned in `t`; everything in between ran above it. -/
def CallReturns (E : Env) (s : State) (e : Event) (t : State) : Prop :=
  e.IsCall ∧ ∃ tr, Run.Steps (step E) s ((s, e) :: tr) t ∧
    (∀ x ∈ tr, s.stack.length < x.1.stack.length) ∧ t.stack = s.stack

section Calls
variable {E : Env} {s₀ s t u : State} {tr : List (State × Event)}

theorem Runs.idsKept (h : Runs E s₀ tr s) : IdsKept s.pair s.stack := by
  have key : Inv E s ∧ IdsKept s.pair s.stack := by
    refine h.2.invariant (P := fun s => Inv E s ∧ IdsKept s.pair s.stack)
      (C := fun _ _ _ => True) (fun m e t hs _ hm => ?_) (fun _ _ _ _ => trivial) ?_
    · exact ⟨hm.1.step hs, (step_pair hm.1 hs hm.2).idsKept hm.2⟩
    · refine ⟨Inv.boot h.1, ?_⟩
      rw [h.1.stack]
      trivial
  exact key.2

/-- Above a level, every step leaves the way back to its pair as it was. -/
theorem PairMove.returnPair {e : Event} {above stack : List Frame} (h : PairMove e s t)
    (hs : s.stack = above ++ stack) (hne : above ≠ []) :
    ∃ above', t.stack = above' ++ stack ∧ returnPair t.pair above' = returnPair s.pair above := by
  have split : ∀ {f rest}, s.stack = f :: rest →
      ∃ above', above = f :: above' ∧ rest = above' ++ stack := by
    intro f rest hst
    obtain ⟨a, above', rfl⟩ := List.exists_cons_of_ne_nil hne
    rw [hs, List.cons_append, List.cons.injEq] at hst
    exact ⟨above', by rw [hst.1], hst.2.symm⟩
  cases h with
  | stays ht hp => exact ⟨above, ht.trans hs, by rw [hp]⟩
  | pushes g ht hp hid =>
      refine ⟨g :: above, by rw [ht, hs]; rfl, ?_⟩
      rw [Xylem.returnPair, List.foldl_cons, hp, Xylem.returnPair]
  | pops f rest hret hst ht hp =>
      obtain ⟨above', rfl, rfl⟩ := split hst
      refine ⟨above', ht, ?_⟩
      rw [Xylem.returnPair, hp, Xylem.returnPair, List.foldl_cons]
  | swaps f g rest hret hst ht hp hid =>
      obtain ⟨above', rfl, rfl⟩ := split hst
      refine ⟨g :: above', ht, ?_⟩
      rw [Xylem.returnPair, List.foldl_cons, hp, Xylem.returnPair, List.foldl_cons]

/-- While a call lasts, the frames above the caller lead back to its pair. -/
theorem call_returnPair {e : Event} (hi : Inv E s) (hk : IdsKept s.pair s.stack) (he : e.IsCall)
    (h : Run.Steps (step E) s ((s, e) :: tr) u)
    (habove : ∀ x ∈ tr, s.stack.length < x.1.stack.length) :
    (Inv E u ∧ IdsKept u.pair u.stack) ∧
      ∃ above, u.stack = above ++ s.stack ∧ returnPair u.pair above = s.pair := by
  induction tr using List.reverseRecOn generalizing u with
  | nil =>
      obtain ⟨-, h1⟩ := Run.steps_singleton h
      have hmove := step_pair hi h1 hk
      refine ⟨⟨hi.step h1, hmove.idsKept hk⟩, ?_⟩
      cases hmove with
      | stays ht hp => exact ⟨[], ht, hp⟩
      | pushes g ht hp hid => exact ⟨[g], ht, hp⟩
      | pops f rest hret hst ht hp => exact absurd he hret
      | swaps f g rest hret hst ht hp hid => exact absurd he hret
  | append_singleton tr x ih =>
      obtain ⟨m, e'⟩ := x
      rw [← List.cons_append] at h
      obtain ⟨h1, h2⟩ := Run.steps_snoc.mp h
      obtain ⟨⟨him, hkm⟩, above, hm, hpair⟩ := ih h1 fun y hy => habove y (List.mem_append_left _ hy)
      have hne : above ≠ [] := by
        rintro rfl
        have hlen := habove (m, e') (by simp)
        rw [hm] at hlen
        exact absurd hlen (lt_irrefl _)
      have hmove := step_pair him h2 hkm
      obtain ⟨above', hu, hpair'⟩ := hmove.returnPair hm hne
      exact ⟨⟨him.step h2, hmove.idsKept hkm⟩, above', hu, hpair'.trans hpair⟩

/-- Every call of the interface, when it has returned, leaves the pair current that it
found, whatever was called in between. -/
theorem calls_restore_region (h : Runs E s₀ tr s) {e : Event} (hc : CallReturns E s e t) :
    t.rt.currentRegionId = s.rt.currentRegionId ∧
      t.rt.currentRegionEntry = s.rt.currentRegionEntry := by
  obtain ⟨he, tr', hsteps, habove, hstack⟩ := hc
  obtain ⟨-, above, hs, hpair⟩ := call_returnPair h.inv h.idsKept he hsteps habove
  have hnil : above = [] := List.append_left_eq_self.mp (hs.symm.trans hstack)
  rw [hnil] at hpair
  exact Prod.mk.inj hpair

end Calls

/-- A call and the events up to its return, run from the state it is made in. -/
theorem CallReturns.of_exec {E : Env} {s t : State} {e : Event} {es : List Event} (he : e.IsCall)
    (h : Run.exec (step E) s (e :: es) = .ok t) (hstack : t.stack = s.stack)
    (habove : ((Run.trace (step E) s (e :: es)).tail.all fun x =>
      decide (s.stack.length < x.1.stack.length)) = true) : CallReturns E s e t := by
  refine ⟨he, (Run.trace (step E) s (e :: es)).tail, Run.exec_steps h, fun x hx => ?_, hstack⟩
  exact of_decide_eq_true (List.all_eq_true.mp habove x hx)

/-- A load that claims a region; its install loads `p` there, calls the hook from the
root and returns. -/
theorem calls_restore_region_claim : ∃ s t, Run.exec (step sampleEnv) sampleState
      [.areg 0, .load "q" { addr := 1 }, .installRet, .requireClaim (some 0) 0] = .ok s ∧
    CallReturns sampleEnv s (.load "m" { addr := 2, granted := 1 }) t ∧
    t.rt.currentRegionId = s.rt.currentRegionId ∧
    t.rt.currentRegionEntry = s.rt.currentRegionEntry := by
  let e : Event := .load "m" { addr := 2, granted := 1 }
  let es : List Event := [.load "p" { addr := 3 }, .installRet, .withRegion 0, .call none (some 0),
    .bodyRet [1], .bodyRet [1], .bodyRet [1], .scopeRet 0, .installRet]
  obtain ⟨s, hs, hobs⟩ := sample_check
    [.areg 0, .load "q" { addr := 1 }, .installRet, .requireClaim (some 0) 0]
    (fun s => Run.check (step sampleEnv) s (e :: es) (fun t => decide (t.stack = s.stack)) &&
      (Run.trace (step sampleEnv) s (e :: es)).tail.all fun x =>
        decide (s.stack.length < x.1.stack.length)) (by decide)
  obtain ⟨hrun, habove⟩ := (Bool.and_eq_true _ _).mp hobs
  obtain ⟨t, ht, hstack⟩ := Run.of_check hrun
  have hc : CallReturns sampleEnv s e t := .of_exec trivial ht (of_decide_eq_true hstack) habove
  exact ⟨s, t, hs, hc, calls_restore_region (sample_runs hs) hc⟩

end Xylem

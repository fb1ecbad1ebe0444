import Xylem.Ops.Result
import Xylem.Runs.Reply

namespace Xylem

open Xylem.Runtime

/-- The adapter of the latest call among the steps, or `a` if there is none. -/
def lastCalled (a : Option AdapterPtr) (tr : List (State × Event)) : Option AdapterPtr :=
  tr.foldl (fun a x => match x.2 with
    | .call _ (some reg) => some reg
    | _ => a) a

theorem lastCalled_some (a : AdapterPtr) (tr : List (State × Event)) :
    ∃ c, lastCalled (some a) tr = some c := by
  induction tr generalizing a with
  | nil => exact ⟨a, rfl⟩
  | cons x tr ih =>
      simp only [lastCalled, List.foldl_cons]
      split
      · exact ih _
      · exact ih a

namespace Runtime
variable {s t : Runtime} {E : Env}

theorem callVector_apart {r : RegionPtr} {i : Nat} {name : String}
    (h : s.callVector E r i name = .ok t) : Apart s t := by
  have mods : ∀ {m n : Runtime}, m.regionEnsureSubtreeMods r = .ok n → Apart m n := by
    intro m n hm
    unfold regionEnsureSubtreeMods at hm
    split at hm
    · obtain ⟨l, -, hm⟩ := Res.bind_ok.mp hm
      cases hm
      exact ⟨rfl, rfl, rfl, rfl⟩
    · cases hm
      exact .refl m
  obtain ⟨m, hm, h⟩ := Res.bind_ok.mp h
  split at h
  · obtain ⟨n, hn, h⟩ := Res.bind_ok.mp h
    refine ((mods hm).trans (mods hn)).trans ?_
    simp only at h
    split at h
    · cases h
      exact .refl t
    · obtain ⟨⟨u, c⟩, hu, h⟩ := Res.bind_ok.mp h
      cases h
      have hnu : Apart n u := by
        refine foldlM_rel (fun a b : Runtime × HookDispatchCache => Apart a.1 b.1)
          (fun _ => .refl _) (fun _ _ _ h k => h.trans k) ?_ hu
        rintro ⟨a, c⟩ p ⟨b, d⟩ hp
        obtain ⟨e, he, ⟨-, hp⟩ | ⟨-, -, hp⟩⟩ := regionRebuildSlot_cases hp
        · cases hp
          exact .refl _
        · cases hp
          have hown := ModEntry.own_of_core (slotEntry_same (E := E) i name e).1
          exact ⟨rfl, rfl, setEntry_holdings he hown, rfl⟩
      exact hnu.trans ⟨rfl, rfl, rfl, rfl⟩
  · cases h
    exact mods hm

theorem callFail_adapter (s : Runtime) (retp : Option BufPtr) (reg : AdapterPtr) (ret : Int) :
    (s.callFail retp reg ret).adapter = some reg := by
  obtain ⟨bufs, p, b, h⟩ := callFail_eq s retp reg ret
  rw [h]

theorem callLoop_adapter {left : Nat} {f : CallFrame} {r : Int ⊕ CallFrame}
    (h : s.callLoop left f = .ok (t, r)) : t.adapter = s.adapter := by
  cases callLoop_effect h with
  | ends hret ht =>
      obtain ⟨bufs, p, b, e, heq⟩ := callFinish_eq s f
      rw [ht, heq]
  | enters k p me c he hc ht =>
      obtain ⟨id, r, heq, -⟩ := callEnter_eq s { f with mi := k } p me c
      rw [ht, heq]

theorem xyCall_adapter {retp : Option BufPtr} {reg : Option AdapterPtr} {r : Int ⊕ CallFrame}
    (h : s.xyCall E retp reg = .ok (t, r)) :
    t.adapter = match reg with
      | some reg => some reg
      | none => s.adapter := by
  cases reg with
  | none =>
      cases h
      rfl
  | some reg =>
      obtain ⟨⟨m, out⟩, hm, h⟩ := Res.bind_ok.mp h
      cases callPrepare_way hm with
      | fails ret he =>
          cases h
          exact callFail_adapter _ retp reg ret
      | denied i call he hd =>
          cases h
          exact callFail_adapter _ retp reg xyErrEperm
      | nowhere i call he hd hc => exact callLoop_adapter h
      | loops i call he hd R hR t ht =>
          exact (callLoop_adapter h).trans (congrArg Result.adapter (callVector_apart ht).result)

end Runtime

/-- Steps other than those of `xy_call`, and `xy_last`, keep what `xy_last` reads. -/
theorem step_result {E : Env} {s t : State} {e : Event} (h : step E s e = .ok t)
    (hcall : ∀ retp reg, e ≠ .call retp reg) (hlast : ∀ ret, e ≠ .last ret)
    (hbody : ∀ result, e ≠ .bodyRet result) : t.rt.result = s.rt.result := by
  cases e with
  | areg a =>
      cases h
      show (s.rt.xyAreg E a).1.result = s.rt.result
      unfold xyAreg
      simp only
      split
      · rfl
      · split <;> rfl
  | selfInitCtx c =>
      cases h
      rfl
  | load fname ch =>
      obtain ⟨⟨m, out⟩, hm, rfl⟩ := Res.map_ok.mp h
      obtain ⟨⟨n, o⟩, hn, hm⟩ := Res.bind_ok.mp hm
      have hna : n.result = s.rt.result := modLoad_result hn
      cases o <;> cases hm <;> exact hna
  | unload fname fuel =>
      obtain ⟨⟨m, ret⟩, hm, rfl⟩ := Res.map_ok.mp h
      obtain ⟨⟨n, r⟩, hn, hm⟩ := Res.bind_ok.mp hm
      have hna : n.result = s.rt.result := modUnload_result fuel hn
      cases hm
      exact hna
  | reload fname ch fuel =>
      obtain ⟨⟨m, out⟩, hm, rfl⟩ := Res.map_ok.mp h
      have hma : m.result = s.rt.result := xyReload_result hm
      cases out <;> exact hma
  | deny what type =>
      cases h
      show (s.rt.xyDeny E what type).1.result = s.rt.result
      unfold xyDeny
      split
      · rfl
      · rename_i r hr
        have hup : ∀ u : Runtime, (u.regionPropagateDeny r).result = u.result := fun u =>
          (foldl_setRegion_apart _ (u.upward r) u).result
        have hgen : ∀ u : Runtime, (u.regionDispatchGenBump r).result = u.result := fun u =>
          (regionDispatchGenBump_apart u r).result
        cases type <;> exact (hgen _).trans (hup _)
  | requireClaim fn ud =>
      cases h
      show (s.rt.xyRequireClaim fn ud).1.result = s.rt.result
      unfold xyRequireClaim
      split
      · rfl
      · cases fn <;> rfl
  | call retp reg => exact absurd rfl (hcall retp reg)
  | last ret => exact absurd rfl (hlast ret)
  | withRegion id =>
      cases h
      unfold xyWithRegion
      split <;> rfl
  | bodyRet result => exact absurd rfl (hbody result)
  | installRet =>
      simp only [step] at h
      split at h
      · obtain ⟨m, hm, rfl⟩ := Res.map_ok.mp h
        exact installReturn_result hm
      · cases h
  | scopeRet code =>
      simp only [step] at h
      split at h
      · cases h
        rfl
      · cases h

/-- Only a call with an adapter sets the adapter `xy_last` looks at. -/
theorem step_adapter {E : Env} {s t : State} {e : Event} (h : step E s e = .ok t) :
    t.rt.adapter = lastCalled s.rt.adapter [(s, e)] := by
  cases e with
  | call retp reg =>
      obtain ⟨⟨m, r⟩, hm, rfl⟩ := Res.map_ok.mp h
      have hma := xyCall_adapter hm
      cases r <;> cases reg <;> exact hma
  | last ret =>
      cases h
      show (s.rt.xyLast ret).1.adapter = s.rt.adapter
      unfold xyLast
      split
      · rfl
      · split
        · rfl
        · simp only
          split <;> rfl
  | bodyRet result =>
      simp only [step] at h
      split at h
      · rename_i f rest hst
        obtain ⟨⟨m, r⟩, hm, rfl⟩ := Res.map_ok.mp h
        have hma : m.adapter = s.rt.adapter := by
          refine (callLoop_adapter (bodyReturn_ok hm)).trans ?_
          cases hf : f.retp <;> cases hc : f.regionChanged <;>
            simp [bodyLeft, hf, hc, writeBuf, setCurrentRegion]
        cases r <;> exact hma
      · cases h
  | areg | selfInitCtx | load | unload | reload | deny | requireClaim | withRegion | installRet
  | scopeRet =>
      have hres := step_result h (fun _ _ => Event.noConfusion) (fun _ => Event.noConfusion)
        fun _ => Event.noConfusion
      exact congrArg Result.adapter hres

theorem steps_adapter {E : Env} {s t : State} {tr : List (State × Event)}
    (h : Run.Steps (step E) s tr t) : t.rt.adapter = lastCalled s.rt.adapter tr := by
  induction h with
  | nil => rfl
  | snoc _ hs ih =>
      rw [step_adapter hs, ih]
      simp only [lastCalled, List.foldl_append, List.foldl_cons, List.foldl_nil]

namespace Runtime

def withBuf (s : Runtime) (b : BufPtr) (bytes : Bytes) : Runtime :=
  { s with bufs := Function.update s.bufs b bytes }

def lastSize (s : Runtime) : Option Nat := s.adapter.map fun a => (s.adapters a).retSize

/-- `xy_last` answers with the bytes in `b`, as many as the hook of `reg` returns,
whatever the buffer it is given had in it. -/
structure LastReports (s : Runtime) (reg : AdapterPtr) (b : BufPtr) : Prop where
  size : s.lastSize = some (s.adapters reg).retSize
  ret : ∀ buf bytes, ((s.withBuf buf bytes).xyLast (some buf)).2 = xyOk
  written : ∀ buf bytes, ((s.withBuf buf bytes).xyLast (some buf)).1.bufs buf =
    (s.bufs b).take (s.adapters reg).retSize ++ bytes.drop (s.adapters reg).retSize
  others : ∀ buf bytes c, c ≠ buf →
    ((s.withBuf buf bytes).xyLast (some buf)).1.bufs c = s.bufs c

/-- `xy_last` finds nothing, and leaves the buffer it is given as it is. -/
def LastSilent (s : Runtime) : Prop :=
  ∀ buf bytes, ((s.withBuf buf bytes).xyLast (some buf)).2 = xyErrNotFound ∧
    ((s.withBuf buf bytes).xyLast (some buf)).1.bufs = (s.withBuf buf bytes).bufs

variable {s t : Runtime} {E : Env}

/-- What a call that has run a body leaves for `xy_last`. -/
structure Saved (s : Runtime) (b : BufPtr) (size : Nat) : Prop where
  ran : s.lastRan ≠ 0
  retp : s.lastRetp = .retbuf
  bytes : s.lastRetbuf.take size = (s.bufs b).take size

theorem Saved.reports {reg : AdapterPtr} {b : BufPtr} (h : s.Saved b (s.adapters reg).retSize)
    (hroom : (s.adapters reg).retSize ≤ (s.bufs b).length)
    (hsize : s.lastSize = some (s.adapters reg).retSize) : s.LastReports reg b := by
  obtain ⟨a, ha, hn⟩ := Option.map_eq_some_iff.mp hsize
  have hlast : ∀ buf bytes, (s.withBuf buf bytes).xyLast (some buf) =
      (((s.withBuf buf bytes).writeBuf buf ((s.bufs b).take (s.adapters reg).retSize)).setErr xyOk,
        xyOk) := by
    intro buf bytes
    simp only [xyLast, withBuf, ha, if_neg h.ran, h.retp, hn, h.bytes]
  refine ⟨hsize, fun buf bytes => ?_, fun buf bytes => ?_, fun buf bytes c hc => ?_⟩
  · rw [hlast]
  · rw [hlast]
    simp [setErr, writeBuf, withBuf, List.length_take, Nat.min_eq_left hroom]
  · rw [hlast]
    simp [setErr, writeBuf, withBuf, hc]

theorem lastSilent_iff (s : Runtime) : s.LastSilent ↔ s.adapter ≠ none ∧ s.lastRan = 0 := by
  constructor
  · intro h
    have hret := (h 0 []).1
    cases ha : s.adapter with
    | none =>
        simp only [xyLast, withBuf, ha] at hret
        exact absurd hret (by decide)
    | some a =>
        refine ⟨by simp, ?_⟩
        by_contra hran
        simp only [xyLast, withBuf, ha, if_neg hran] at hret
        exact absurd hret (by decide)
  · rintro ⟨ha, hran⟩ buf bytes
    obtain ⟨a, ha⟩ := Option.ne_none_iff_exists'.mp ha
    simp only [xyLast, withBuf, ha, if_pos hran]
    exact ⟨trivial, rfl⟩

theorem callFinish_ran (s : Runtime) (f : CallFrame) : (s.callFinish f).1.lastRan = f.ran := by
  obtain ⟨bufs, p, b, e, h⟩ := callFinish_eq s f
  rw [h]

theorem callFinish_ok {f : CallFrame} (hret : (s.callFinish f).2 = xyOk) :
    (s.callFinish f).1.adapters = s.adapters ∧ (s.callFinish f).1.bufs = s.bufs := by
  by_cases hran : f.ran = 0
  · simp only [callFinish, hran, if_true] at hret
    exact absurd hret (by decide)
  · simp only [callFinish, if_neg hran]
    obtain ⟨p, b, h⟩ := xySetLastRet_eq { s with lastRan := f.ran } f.retp (s.adapters f.reg).retSize
    rw [h]
    exact ⟨rfl, rfl⟩

theorem callFinish_saved {f : CallFrame} {b : BufPtr} (hret : (s.callFinish f).2 = xyOk)
    (hb : f.retp = some b) (hpos : 0 < (s.adapters f.reg).retSize)
    (hroom : (s.adapters f.reg).retSize ≤ (s.bufs b).length) :
    (s.callFinish f).1.Saved b (s.adapters f.reg).retSize := by
  have hran : f.ran ≠ 0 := by
    intro h0
    simp only [callFinish, h0, if_true] at hret
    exact absurd hret (by decide)
  simp only [callFinish, if_neg hran, hb, xySetLastRet, if_pos hpos]
  refine ⟨hran, rfl, ?_⟩
  have hlen : ((s.bufs b).take (s.adapters f.reg).retSize).length = (s.adapters f.reg).retSize :=
    List.length_take.trans (Nat.min_eq_left hroom)
  simp only [setErr]
  split
  · rw [List.append_assoc, List.take_left' hlen]
  · rw [List.take_left' hlen]

end Runtime

section
variable {E : Env} {s t : State} {retp : Option BufPtr} {reg : Option AdapterPtr} {ret : Int}
  {ran : List EntryPtr}

/-- The steps of a call end in its loop, or the call was turned away before it. -/
theorem replies_end (h : Replies E s retp reg t ret ran) {a : AdapterPtr} (ha : reg = some a) :
    (t.rt.lastRan = 0 ∧ ret ≠ xyOk) ∨ ∃ m f, f.retp = retp ∧ f.reg = a ∧ t.rt = (callFinish m f).1 ∧
      ret = (callFinish m f).2 ∧ (ran = [] → f.ran = 0) := by
  have hst : t.stack = s.stack ∧ t.status = .returned ret ran := by
    obtain ⟨tr, -, -, hstack, hstatus⟩ := h
    exact ⟨hstack, hstatus⟩
  have loop : ∀ {m : Runtime} {left : Nat} {f : CallFrame} {r : Runtime × (Int ⊕ CallFrame)}
      {ran' : List EntryPtr}, m.callLoop left f = .ok r →
      State.afterCall s.stack ran' r = t → ran' = ran ∧ t.rt = (callFinish m f).1 ∧
        ret = (callFinish m f).2 := by
    rintro m left f ⟨n, r⟩ ran' hl rfl
    cases callLoop_effect hl with
    | ends hret ht =>
        obtain ⟨hr, hran⟩ := Status.returned.inj hst.2
        exact ⟨hran, ht, hr.symm⟩
    | enters k p me c he hc ht => cases hst.2
  subst ha
  rcases h.last with hs | ⟨m, f, result, hm, hretp, hreg, hinv, hs⟩
  · obtain ⟨r, hr, ht⟩ := Res.map_ok.mp hs
    obtain ⟨⟨m, out⟩, hm, hr⟩ := Res.bind_ok.mp hr
    have failed : ∀ u e, r = (callFail u retp a e, .inl e) → e ≠ xyOk →
        t.rt.lastRan = 0 ∧ ret ≠ xyOk := by
      rintro u e rfl he
      rw [← ht] at hst ⊢
      obtain ⟨hr, -⟩ := Status.returned.inj hst.2
      obtain ⟨bufs, p, b, heq⟩ := callFail_eq u retp a e
      exact ⟨congrArg Runtime.lastRan heq, hr ▸ he⟩
    cases callPrepare_way hm with
    | fails e he =>
        cases hr
        refine .inl (failed _ e rfl ?_)
        rcases callResolve_error he with h0 | h0 <;> rw [h0] <;> decide
    | denied i call he hd =>
        cases hr
        exact .inl (failed _ _ rfl (by decide))
    | nowhere i call he hd hc =>
        obtain ⟨-, h1, h2⟩ := loop hr ht
        exact .inr ⟨_, _, rfl, rfl, h1, h2, fun _ => rfl⟩
    | loops i call he hd R hR u hu =>
        obtain ⟨-, h1, h2⟩ := loop hr ht
        exact .inr ⟨_, _, rfl, rfl, h1, h2, fun _ => rfl⟩
  · simp only [step, hm] at hs
    obtain ⟨r, hr, ht⟩ := Res.map_ok.mp hs
    obtain ⟨hran, h1, h2⟩ := loop (bodyReturn_ok hr) ht
    refine .inr ⟨m.rt.bodyLeft f result, { f with mi := f.mi + 1, ran := f.ran + 1 }, hretp,
      (Option.some.inj hreg).symm, h1, h2, fun h0 => absurd (hran.trans h0) hinv⟩

/-- `xy_last` right after a call reports that call exactly when the last call begun
within it, if any, is of a hook with as many result bytes. After a call that ran
nothing it is silent, but for a call without an adapter, which leaves the result of
the one before. -/
theorem last_reports_iff {trace : List (State × Event)}
    (h : Run.Steps (step E) s ((s, .call retp reg) :: trace) t)
    (habove : ∀ x ∈ trace, s.stack.length < x.1.stack.length) (hstack : t.stack = s.stack)
    (hst : t.status = .returned ret ran) :
    (∀ a b, reg = some a → retp = some b → ret = xyOk → 0 < (t.rt.adapters a).retSize →
      (t.rt.adapters a).retSize ≤ (t.rt.bufs b).length →
      (t.rt.LastReports a b ↔ ∀ c, lastCalled (some a) trace = some c →
        (t.rt.adapters c).retSize = (t.rt.adapters a).retSize)) ∧
      (ran = [] → (t.rt.LastSilent ↔ (reg = none → s.rt.adapter ≠ none ∧ s.rt.lastRan = 0))) := by
  have hrep : Replies E s retp reg t ret ran := ⟨trace, h, habove, hstack, hst⟩
  have hadapter := steps_adapter h
  refine ⟨fun a b ha hb hret hpos hroom => ?_, fun hran => ?_⟩
  · subst ha hb
    have hlast : t.rt.adapter = lastCalled (some a) trace := hadapter
    constructor
    · intro hr c hc
      have hsize := hr.size
      rw [lastSize, hlast, hc] at hsize
      exact Option.some.inj hsize
    · intro hc
      obtain ⟨c, hcs⟩ := lastCalled_some a trace
      have hsize : t.rt.lastSize = some (t.rt.adapters a).retSize := by
        rw [lastSize, hlast, hcs]
        exact congrArg some (hc c hcs)
      refine Saved.reports ?_ hroom hsize
      rcases replies_end hrep rfl with ⟨-, hne⟩ | ⟨m, f, hretp, hreg, ht, hr, -⟩
      · exact absurd hret hne
      · obtain ⟨hadapters, hbufs⟩ := callFinish_ok (hr.symm.trans hret)
        subst hreg
        rw [ht, hadapters, hbufs] at hroom
        rw [ht, hadapters] at hpos ⊢
        exact callFinish_saved (hr.symm.trans hret) hretp hpos hroom
  · rw [lastSilent_iff]
    cases reg with
    | none =>
        rcases hrep.last with hs | ⟨m, f, result, -, -, hreg, -⟩
        · cases hs
          exact ⟨fun h _ => h, fun h => h rfl⟩
        · cases hreg
    | some a =>
        have hran0 : t.rt.lastRan = 0 := by
          rcases replies_end hrep rfl with ⟨h0, -⟩ | ⟨m, f, -, -, ht, -, h0⟩
          · exact h0
          · rw [ht, callFinish_ran, h0 hran]
        obtain ⟨c, hc⟩ := lastCalled_some a trace
        have hsome : t.rt.adapter ≠ none := by
          rw [show t.rt.adapter = some c from hadapter.trans hc]
          simp
        exact ⟨fun _ hnone => (by cases hnone), fun _ => ⟨hsome, hran0⟩⟩

end

/-- Adapter 0 is for hook `h`, of one result byte; the others are for `g`, of eight. -/
def sizesState : State :=
  { rt := { adapters := fun a =>
      if a = 0 then { name := "h", retSize := 1, call := some { retSize := 1 } }
      else { name := "g", retSize := 8, call := some { retSize := 8 } } } }

theorem sizesState_boot : Boot sizesState :=
  { sampleState_boot with
    registry :=
      { lt := fun name id h => by simp [sizesState] at h
        inj := fun name name' id h => by simp [sizesState] at h
        sica := fun name => by simp [sizesState]
        held := fun a id h => by
          simp only [sizesState] at h
          split at h <;> cases h } }

/-- A call whose body makes no call. -/
theorem last_reports_plain : ∃ s t, Run.exec (step sampleEnv) sizesState
      [.areg 0, .load "p" { addr := 1 }, .installRet] = .ok s ∧
    Run.exec (step sampleEnv) s [.call (some 0) (some 0), .bodyRet [7]] = .ok t ∧
    t.rt.LastReports 0 0 := by
  obtain ⟨s, hs, hobs⟩ := Run.exec_of_check (step sampleEnv) sizesState
    [.areg 0, .load "p" { addr := 1 }, .installRet]
    (fun s => decide (s.stack = []) &&
      Run.check (step sampleEnv) s [.call (some 0) (some 0)] (fun m => decide (m.stack.length = 1)) &&
      Run.check (step sampleEnv) s [.call (some 0) (some 0), .bodyRet [7]] fun t =>
        decide (t.stack = []) && decide (t.status = .returned xyOk [0]) &&
          decide ((t.rt.adapters 0).retSize = 1) && decide (t.rt.bufs 0 = [7])) (by decide)
  simp only [Bool.and_eq_true, decide_eq_true_eq] at hobs
  obtain ⟨⟨hstack, hm⟩, ht⟩ := hobs
  obtain ⟨m, hm, hlen⟩ := Run.of_check hm
  obtain ⟨t, ht, hobs⟩ := Run.of_check ht
  simp only [Bool.and_eq_true, decide_eq_true_eq] at hobs hlen
  obtain ⟨⟨⟨hts, hst⟩, hsize⟩, hbuf⟩ := hobs
  have hcall := Run.exec_single hm
  have hret : step sampleEnv m (.bodyRet [7]) = .ok t := by
    simp only [Run.exec, hcall] at ht
    exact Run.exec_single ht
  have hsteps : Run.Steps (step sampleEnv) s
      ((s, .call (some 0) (some 0)) :: [(m, .bodyRet [7])]) t :=
    Run.Steps.cons hcall (.snoc (.nil m) hret)
  refine ⟨s, t, hs, ht, ((last_reports_iff hsteps ?_ (hts.trans hstack.symm) hst).1 0 0 rfl rfl rfl
    ?_ ?_).mpr ?_⟩
  · rintro x hx
    obtain rfl := List.mem_singleton.mp hx
    rw [hstack, hlen]
    decide
  · rw [hsize]
    decide
  · rw [hsize, hbuf]
    decide
  · rintro c hc
    cases hc
    rfl

/-- The body of `h` calls `g`, which nothing implements; `xy_last` then copies
eight bytes into a buffer for the one of `h`. -/
theorem last_reports_nested : Boot sizesState ∧ ∃ s t, Run.exec (step sampleEnv) sizesState
      [.areg 0, .areg 1, .load "p" { addr := 1 }, .installRet] = .ok s ∧
    Run.exec (step sampleEnv) s [.call (some 0) (some 0), .call none (some 1), .bodyRet [7]] = .ok t ∧
    t.stack = s.stack ∧ t.status = .returned xyOk [0] ∧ (t.rt.adapters 0).retSize = 1 ∧
    t.rt.bufs 0 = [7] ∧ ¬ t.rt.LastReports 0 0 := by
  obtain ⟨s, hs, hobs⟩ := Run.exec_of_check (step sampleEnv) sizesState
    [.areg 0, .areg 1, .load "p" { addr := 1 }, .installRet]
    (fun s => decide (s.stack = []) && Run.check (step sampleEnv) s
      [.call (some 0) (some 0), .call none (some 1), .bodyRet [7]] fun t =>
        decide (t.stack = []) && decide (t.status = .returned xyOk [0]) &&
          decide ((t.rt.adapters 0).retSize = 1) && decide (t.rt.bufs 0 = [7]) &&
          decide (t.rt.lastSize = some 8)) (by decide)
  simp only [Bool.and_eq_true, decide_eq_true_eq] at hobs
  obtain ⟨hstack, ht⟩ := hobs
  obtain ⟨t, ht, hobs⟩ := Run.of_check ht
  simp only [Bool.and_eq_true, decide_eq_true_eq] at hobs
  obtain ⟨⟨⟨⟨hts, hst⟩, hsize⟩, hbuf⟩, hlast⟩ := hobs
  refine ⟨sizesState_boot, s, t, hs, ht, hts.trans hstack.symm, hst, hsize, hbuf, fun h => ?_⟩
  have := h.size
  rw [hlast, hsize] at this
  exact absurd this (by decide)

end Xylem

import Xylem.Heap.Facts

namespace Xylem
namespace Runtime
variable {s t : Runtime} {E : Env} {g : RegionPtr → UInt8 → Prop}

theorem update_adapter_self (s : Runtime) (reg : AdapterPtr) :
    ({ s with adapters := Function.update s.adapters reg (s.adapters reg) } : Runtime) = s := by
  rw [Function.update_eq_self]

theorem resolveHookId_spec {reg : AdapterPtr} {i : Nat} (h : s.resolveHookId reg = some (t, i)) :
    ∃ a, t = { s with adapters := Function.update s.adapters reg a } ∧
      a.name = (s.adapters reg).name ∧ a.hookId = some i ∧
      ((s.adapters reg).hookId = some i ∨ s.hookIdHd.lookup (s.adapters reg).name = some i) := by
  unfold resolveHookId at h
  cases hh : (s.adapters reg).hookId with
  | some j =>
      simp only [hh, Option.some.injEq, Prod.mk.injEq] at h
      obtain ⟨rfl, rfl⟩ := h
      exact ⟨s.adapters reg, (update_adapter_self s reg).symm, rfl, hh, .inl rfl⟩
  | none =>
      cases hl : s.hookIdHd.lookup (s.adapters reg).name with
      | none => simp [hh, hl] at h
      | some j =>
          simp only [hh, hl, Option.some.injEq, Prod.mk.injEq] at h
          obtain ⟨rfl, rfl⟩ := h
          refine ⟨_, rfl, ?_, ?_, .inr rfl⟩
          · split <;> rfl
          · split <;> rfl

theorem callTrampoline_id {reg : AdapterPtr} {i j : Nat} {call : Trampoline}
    (h : s.callTrampoline reg i = .ok (j, call)) : j = i := by
  unfold callTrampoline at h
  simp only at h
  split at h
  · cases h
  · split at h
    · cases h
    · cases h
      rfl

theorem callResolve_spec (s : Runtime) (reg : AdapterPtr) :
    ∃ a, (s.callResolve reg).1 = { s with adapters := Function.update s.adapters reg a } ∧
      a.name = (s.adapters reg).name ∧
      (a = s.adapters reg ∨ ∃ i, a.hookId = some i ∧ ((s.adapters reg).hookId = some i ∨
        s.hookIdHd.lookup (s.adapters reg).name = some i)) ∧
      ∀ i call, (s.callResolve reg).2 = .ok (i, call) → a.hookId = some i := by
  unfold callResolve
  cases h : s.resolveHookId reg with
  | none => exact ⟨s.adapters reg, (update_adapter_self s reg).symm, rfl, .inl rfl, by simp⟩
  | some r =>
      obtain ⟨t, i⟩ := r
      obtain ⟨a, ht, ha, hi, hor⟩ := resolveHookId_spec h
      refine ⟨a, ht, ha, .inr ⟨i, hi, hor⟩, fun j call hj => ?_⟩
      rw [callTrampoline_id hj, hi]

/-- A resolved hook id is the one registered under the adapter's name. -/
theorem callResolve_error {reg : AdapterPtr} {ret : Int} (h : (s.callResolve reg).2 = .error ret) :
    ret = xyErrNotFound ∨ ret = xyErrTooBig := by
  unfold callResolve at h
  split at h
  · cases h
    exact .inl rfl
  · unfold callTrampoline at h
    simp only at h
    split at h
    · cases h
      exact .inr rfl
    · split at h
      · cases h
        exact .inl rfl
      · cases h

theorem callResolve_lookup (hreg : Registry s) {reg : AdapterPtr} {i : Nat} {call : Trampoline}
    (h : (s.callResolve reg).2 = .ok (i, call)) :
    s.hookIdHd.lookup (s.adapters reg).name = some i := by
  obtain ⟨a, -, -, hor, hid⟩ := callResolve_spec s reg
  have hi := hid i call h
  rcases hor with rfl | ⟨j, hj, hk | hk⟩
  · exact hreg.held reg i hi
  · rw [hj] at hi
    cases hi
    exact hreg.held reg _ hk
  · rw [hj] at hi
    cases hi
    exact hk

theorem callResolve_registry (hreg : Registry s) (reg : AdapterPtr) :
    Registry (s.callResolve reg).1 := by
  obtain ⟨a, ht, hname, hor, -⟩ := callResolve_spec s reg
  rw [ht]
  have hn : ∀ b, (Function.update s.adapters reg a b).name = (s.adapters b).name := by
    intro b
    by_cases hb : b = reg
    · rw [hb, Function.update_self, hname]
    · rw [Function.update_of_ne hb]
  refine ⟨hreg.lt, hreg.inj, hreg.sica, fun b id hb => ?_⟩
  show s.hookIdHd.lookup (Function.update s.adapters reg a b).name = some id
  rw [hn]
  by_cases hbr : b = reg
  · subst hbr
    simp only [Function.update_self] at hb
    rcases hor with rfl | ⟨j, hj, hk | hk⟩
    · exact hreg.held b id hb
    · rw [hj] at hb
      cases hb
      exact hreg.held b _ hk
    · rw [hj] at hb
      cases hb
      exact hk
  · simp only [Function.update_of_ne hbr] at hb
    exact hreg.held b id hb

theorem callResolve_sameHeap (s : Runtime) (reg : AdapterPtr) :
    SameHeap s (s.callResolve reg).1 := by
  obtain ⟨a, ht, -⟩ := callResolve_spec s reg
  rw [ht]
  exact ⟨rfl, rfl, rfl, rfl, rfl, rfl, rfl, rfl, rfl, rfl, rfl, rfl, List.prefix_rfl⟩

theorem callResolve_name (s : Runtime) (reg b : AdapterPtr) :
    ((s.callResolve reg).1.adapters b).name = (s.adapters b).name := by
  obtain ⟨a, ht, ha, -⟩ := callResolve_spec s reg
  rw [ht]
  simp only [Function.update_apply]
  split
  · rename_i hb
    rw [hb, ha]
  · rfl

inductive CallWay (E : Env) (s : Runtime) (retp : Option BufPtr) (reg : AdapterPtr) :
    Runtime → Outcome CallFrame → Prop
  | fails (ret : Int) (h : (s.callResolve reg).2 = .error ret) :
      CallWay E s retp reg ((s.callResolve reg).1.callFail retp reg ret) (.done ret)
  | denied (i : Nat) (call : Trampoline) (h : (s.callResolve reg).2 = .ok (i, call))
      (hd : (s.callResolve reg).1.callDenied reg = true) :
      CallWay E s retp reg ((s.callResolve reg).1.callFail retp reg xyErrEperm) (.done xyErrEperm)
  | nowhere (i : Nat) (call : Trampoline) (h : (s.callResolve reg).2 = .ok (i, call))
      (hd : (s.callResolve reg).1.callDenied reg = false) (hr : s.callerRegion = none) :
      CallWay E s retp reg ((s.callResolve reg).1.callBegin retp reg)
        (.wait (s.callFrame retp reg i call 0 0 0))
  | loops (i : Nat) (call : Trampoline) (h : (s.callResolve reg).2 = .ok (i, call))
      (hd : (s.callResolve reg).1.callDenied reg = false) (r : RegionPtr)
      (hr : s.callerRegion = some r) (t : Runtime)
      (ht : ((s.callResolve reg).1.callBegin retp reg).callVector E r i (s.adapters reg).name = .ok t) :
      CallWay E s retp reg t (.wait (s.callFrame retp reg i call r
        ((t.regions r).hookDispatch i).block ((t.regions r).hookDispatch i).count))

theorem callerRegion_resolve (s : Runtime) (retp : Option BufPtr) (reg : AdapterPtr) :
    ((s.callResolve reg).1.callBegin retp reg).callerRegion = s.callerRegion := by
  obtain ⟨a, ht, -⟩ := callResolve_spec s reg
  rw [ht]
  rfl

theorem regionEnsureSubtreeMods_core {r : RegionPtr} (h : s.regionEnsureSubtreeMods r = .ok t) :
    t.core = s.core := by
  rcases regionEnsureSubtreeMods_cases h with ⟨-, h⟩ | ⟨-, rfl⟩
  · exact regionRebuildSubtreeMods_core h
  · rfl

theorem callVector_core {r : RegionPtr} {i : Nat} {name : String}
    (h : s.callVector E r i name = .ok t) : t.core = s.core := by
  obtain ⟨m, hm, h⟩ := Res.bind_ok.mp h
  split at h
  · exact (regionRebuildHookDispatch_core h).trans (regionEnsureSubtreeMods_core hm)
  · cases h
    exact regionEnsureSubtreeMods_core hm

theorem callPrepare_way {retp : Option BufPtr} {reg : AdapterPtr} {out : Outcome CallFrame}
    (h : s.callPrepare E retp reg = .ok (t, out)) : CallWay E s retp reg t out := by
  have hname := callResolve_name s reg reg
  have hcaller := callerRegion_resolve s retp reg
  unfold callPrepare at h
  cases hres : s.callResolve reg with
  | mk s1 res =>
      have h1 : (s.callResolve reg).1 = s1 := by rw [hres]
      have hcur : s1.currentRegionId = s.currentRegionId := by
        obtain ⟨a, ht, -⟩ := callResolve_spec s reg
        rw [← h1, ht]
      rw [hres] at h hname hcaller
      cases res with
      | error ret =>
          simp only [Except.ok.injEq, Prod.mk.injEq] at h
          obtain ⟨rfl, rfl⟩ := h
          rw [← h1]
          exact .fails ret (by rw [hres])
      | ok p =>
          obtain ⟨i, call⟩ := p
          have h2 : (s.callResolve reg).2 = .ok (i, call) := by rw [hres]
          simp only at h
          split at h
          · rename_i hd
            simp only [Except.ok.injEq, Prod.mk.injEq] at h
            obtain ⟨rfl, rfl⟩ := h
            rw [← h1]
            exact .denied i call h2 (h1 ▸ hd)
          · rename_i hd
            have hd' : (s.callResolve reg).1.callDenied reg = false := by
              rw [h1]
              simpa using hd
            rw [hcaller] at h
            cases hr : s.callerRegion with
            | none =>
                simp only [hr, Except.ok.injEq, Prod.mk.injEq] at h
                obtain ⟨rfl, rfl⟩ := h
                have hframe : (s1.callBegin retp reg).callFrame retp reg i call 0 0 0 =
                    s.callFrame retp reg i call 0 0 0 := by
                  simp only [callFrame, callBegin, hcur]
                rw [hframe, ← h1]
                exact .nowhere i call h2 hd' hr
            | some r =>
                simp only [hr, Res.bind_ok, Except.ok.injEq, Prod.mk.injEq] at h
                obtain ⟨m, hm, rfl, rfl⟩ := h
                have hframe : ∀ r' b n, m.callFrame retp reg i call r' b n =
                    s.callFrame retp reg i call r' b n := by
                  intro r' b n
                  have hc : m.currentRegionId = s1.currentRegionId :=
                    congrArg Core.currentRegionId (callVector_core hm)
                  simp only [callFrame, hc, hcur]
                rw [hframe]
                refine .loops i call h2 hd' r hr m ?_
                rw [h1, ← hname]
                exact hm

def SlotSkipped (s : Runtime) (f : CallFrame) (k : Nat) : Prop :=
  ∃ slot me, ((s.regions f.callerRegion).hookDispatch f.hookId).slots[k]? = some slot ∧
    s.entries slot.me = some me ∧ (me.ctx = none ∨ slot.cb = .null)

/-- Slot `k` of the frame's vector is the one whose callback is made. -/
structure SlotTaken (s : Runtime) (f : CallFrame) (k : Nat) (slot : Slot) (me : ModEntry)
    (c : CtxPtr) (fn : Fn) : Prop where
  block : ((s.regions f.callerRegion).hookDispatch f.hookId).block = f.block
  cell : ((s.regions f.callerRegion).hookDispatch f.hookId).slots[k]? = some slot
  entry : s.entries slot.me = some me
  ctx : me.ctx = some c
  cb : slot.cb = .fn fn

/-- From slot `f.mi` on, with `left` slots to go: the end, or the next callback. -/
inductive LoopWay (s : Runtime) (left : Nat) (f : CallFrame) : Runtime → Int ⊕ CallFrame → Prop
  | ends (hskip : ∀ k, f.mi ≤ k → k < f.mi + left → s.SlotSkipped f k) :
      LoopWay s left f (s.callFinish f).1 (.inl (s.callFinish f).2)
  | enters (k : Nat) (slot : Slot) (me : ModEntry) (c : CtxPtr) (fn : Fn) (hk : f.mi ≤ k)
      (hk' : k < f.mi + left) (hskip : ∀ j, f.mi ≤ j → j < k → s.SlotSkipped f j)
      (htaken : s.SlotTaken f k slot me c fn) :
      LoopWay s left f (s.callEnter { f with mi := k } slot.me me c).1
        (.inr (s.callEnter { f with mi := k } slot.me me c).2)

theorem callLoop_way {left : Nat} {f : CallFrame} {r : Int ⊕ CallFrame}
    (h : s.callLoop left f = .ok (t, r)) : LoopWay s left f t r := by
  induction left generalizing f with
  | zero =>
      simp only [callLoop, Except.ok.injEq, Prod.mk.injEq] at h
      obtain ⟨rfl, rfl⟩ := h
      exact .ends fun k h1 h2 => by omega
  | succ left ih =>
      simp only [callLoop] at h
      split at h
      · cases h
      · rename_i hb
        cases hslot : ((s.regions f.callerRegion).hookDispatch f.hookId).slots[f.mi]? with
        | none => simp [hslot] at h
        | some slot =>
            simp only [hslot, Res.bind_ok, deref_ok] at h
            obtain ⟨me, hme, h⟩ := h
            have next : s.callLoop left { f with mi := f.mi + 1 } = .ok (t, r) →
                (me.ctx = none ∨ slot.cb = .null) → LoopWay s (left + 1) f t r := by
              intro hl hs
              have hfirst : s.SlotSkipped f f.mi := ⟨slot, me, hslot, hme, hs⟩
              have hw := ih hl
              generalize hg : ({ f with mi := f.mi + 1 } : CallFrame) = g at hw
              have hgm : g.mi = f.mi + 1 := by rw [← hg]
              have hskip : ∀ k, s.SlotSkipped g k → s.SlotSkipped f k := by
                intro k hk
                rw [← hg] at hk
                exact hk
              cases hw with
              | ends hsk =>
                  have hfin : s.callFinish g = s.callFinish f := by rw [← hg]; rfl
                  rw [hfin]
                  refine .ends fun k h1 h2 => ?_
                  rcases Nat.eq_or_lt_of_le h1 with rfl | h1
                  · exact hfirst
                  · exact hskip k (hsk k (by omega) (by omega))
              | enters k slot' me' c fn h1 h2 hsk ht =>
                  have hf : ({ g with mi := k } : CallFrame) = { f with mi := k } := by rw [← hg]
                  rw [hf]
                  refine .enters k slot' me' c fn (by omega) (by omega) (fun j h3 h4 => ?_) ?_
                  · rcases Nat.eq_or_lt_of_le h3 with rfl | h3
                    · exact hfirst
                    · exact hskip j (hsk j (by omega) h4)
                  · rw [← hg] at ht
                    exact ⟨ht.block, ht.cell, ht.entry, ht.ctx, ht.cb⟩
            cases hc : me.ctx with
            | none =>
                simp only [hc] at h
                exact next h (.inl hc)
            | some c =>
                cases hcb : slot.cb with
                | null =>
                    simp only [hc, hcb] at h
                    exact next h (.inr hcb)
                | notFound => simp [hc, hcb] at h
                | fn fn =>
                    simp only [hc, hcb, Except.ok.injEq, Prod.mk.injEq] at h
                    obtain ⟨rfl, rfl⟩ := h
                    exact .enters f.mi slot me c fn le_rfl (by omega) (fun j h1 h2 => by omega)
                      ⟨not_not.mp hb, hslot, hme, hc, hcb⟩

theorem writeBuf_sameHeap (s : Runtime) (b : BufPtr) (bytes : Bytes) :
    SameHeap s (s.writeBuf b bytes) :=
  ⟨rfl, rfl, rfl, rfl, rfl, rfl, rfl, rfl, rfl, rfl, rfl, rfl, List.prefix_rfl⟩

theorem xyZeroRet_eq (s : Runtime) (retp : Option BufPtr) (size : Nat) :
    ∃ bufs, s.xyZeroRet retp size = { s with bufs := bufs } := by
  cases retp with
  | none => exact ⟨s.bufs, rfl⟩
  | some b => exact ⟨_, rfl⟩

theorem xySetLastRet_eq (s : Runtime) (retp : Option BufPtr) (size : Nat) :
    ∃ p b, s.xySetLastRet retp size = { s with lastRetp := p, lastRetbuf := b } := by
  cases retp with
  | none => exact ⟨.null, s.lastRetbuf, rfl⟩
  | some b =>
      simp only [xySetLastRet]
      split
      · exact ⟨_, _, rfl⟩
      · exact ⟨.null, s.lastRetbuf, rfl⟩

theorem callFail_eq (s : Runtime) (retp : Option BufPtr) (reg : AdapterPtr) (ret : Int) :
    ∃ bufs p b, s.callFail retp reg ret =
      { s with
        bufs := bufs, lastRan := 0, lastRetp := p, lastRetbuf := b
        adapter := some reg, errVal := ret } := by
  unfold callFail
  obtain ⟨p, b, h1⟩ := xySetLastRet_eq { s with lastRan := 0 } none (s.adapters reg).retSize
  simp only [h1]
  obtain ⟨bufs, h2⟩ := xyZeroRet_eq { s with lastRan := 0, lastRetp := p, lastRetbuf := b } retp
    (s.adapters reg).retSize
  rw [h2]
  exact ⟨bufs, p, b, rfl⟩

theorem callFinish_eq (s : Runtime) (f : CallFrame) :
    ∃ bufs p b e, (s.callFinish f).1 =
      { s with bufs := bufs, lastRan := f.ran, lastRetp := p, lastRetbuf := b, errVal := e } := by
  unfold callFinish
  simp only
  split
  · obtain ⟨p, b, h1⟩ := xySetLastRet_eq { s with lastRan := f.ran } none (s.adapters f.reg).retSize
    rw [h1]
    obtain ⟨bufs, h2⟩ := xyZeroRet_eq { s with lastRan := f.ran, lastRetp := p, lastRetbuf := b }
      f.retp (s.adapters f.reg).retSize
    rw [h2]
    exact ⟨bufs, p, b, _, rfl⟩
  · obtain ⟨p, b, h1⟩ := xySetLastRet_eq { s with lastRan := f.ran } f.retp (s.adapters f.reg).retSize
    rw [h1]
    exact ⟨s.bufs, p, b, _, rfl⟩

/-- Entering a callback: the context, and the current region if it differs. -/
theorem callEnter_eq (s : Runtime) (f : CallFrame) (p : EntryPtr) (me : ModEntry) (c : CtxPtr) :
    ∃ id r, (s.callEnter f p me c).1 =
      { s with
        ctxs := Function.update s.ctxs c
          { s.ctxs c with adapter := some f.reg, regionState := me.regionState }
        currentRegionId := id, currentRegionEntry := r } ∧
      ((s.ctxs c).regionId = f.regionId ∧ id = s.currentRegionId ∧ r = s.currentRegionEntry ∨
        (s.ctxs c).regionId ≠ f.regionId ∧ id = (s.ctxs c).regionId ∧ r = me.regionEntry) := by
  unfold callEnter
  by_cases h : (s.ctxs c).regionId = f.regionId
  · refine ⟨s.currentRegionId, s.currentRegionEntry, ?_, .inl ⟨h, rfl, rfl⟩⟩
    simp [setCtx, h]
  · refine ⟨(s.ctxs c).regionId, me.regionEntry, ?_, .inr ⟨h, rfl, rfl⟩⟩
    simp [setCtx, h, setCurrentRegion]

theorem callLoop_straight {left : Nat} {f : CallFrame} {r : Int ⊕ CallFrame}
    (h : s.callLoop left f = .ok (t, r)) : Straights E g (s, .none) (t, .none) := by
  cases callLoop_way h with
  | ends hskip =>
      obtain ⟨bufs, p, b, e, ht⟩ := callFinish_eq s f
      rw [ht]
      exact .single
        (.scratch ⟨rfl, rfl, rfl, rfl, rfl, rfl, rfl, rfl, rfl, rfl, rfl, rfl, List.prefix_rfl⟩)
  | enters k slot me c fn hk hk' hskip htaken =>
      obtain ⟨id, r, ht, -⟩ := callEnter_eq s { f with mi := k } slot.me me c
      rw [ht]
      have h1 : Straights E g (s, .none) _ := .single (.same (.enter c f.reg me.regionState))
      exact h1.tail
        (.scratch ⟨rfl, rfl, rfl, rfl, rfl, rfl, rfl, rfl, rfl, rfl, rfl, rfl, List.prefix_rfl⟩)

theorem callVector_straight {r : RegionPtr} {i : Nat} {name : String}
    (hk : s.hookIdHd.lookup name = some i) (h : s.callVector E r i name = .ok t) :
    Straights E g (s, .none) (t, .none) := by
  obtain ⟨m, hm, h⟩ := Res.bind_ok.mp h
  have h1 : Straights E g (s, .none) (m, .none) ∧ m.hookIdHd = s.hookIdHd := by
    rcases regionEnsureSubtreeMods_cases hm with ⟨-, hm⟩ | ⟨-, rfl⟩
    · refine ⟨.single (.same (.mods hm)), ?_⟩
      simp only [regionRebuildSubtreeMods, Res.bind_ok, Except.ok.injEq] at hm
      obtain ⟨l, -, rfl⟩ := hm
      rfl
    · exact ⟨.refl, rfl⟩
  split at h
  · exact h1.1.tail (.same (.vector (h1.2 ▸ hk) h))
  · cases h
    exact h1.1

theorem callPrepare_straight (hreg : Registry s) {retp : Option BufPtr} {reg : AdapterPtr}
    {out : Outcome CallFrame} (h : s.callPrepare E retp reg = .ok (t, out)) :
    Straights E g (s, .none) (t, .none) := by
  have h0 : Straights E g (s, .none) ((s.callResolve reg).1, .none) :=
    .single (.scratch (callResolve_sameHeap s reg))
  have hfail : ∀ ret, Straights E g (s, .none) ((s.callResolve reg).1.callFail retp reg ret, .none) := by
    intro ret
    obtain ⟨bufs, p, b, ht⟩ := callFail_eq (s.callResolve reg).1 retp reg ret
    rw [ht]
    exact h0.tail (.scratch ⟨rfl, rfl, rfl, rfl, rfl, rfl, rfl, rfl, rfl, rfl, rfl, rfl, List.prefix_rfl⟩)
  have hbegin : Straights E g (s, .none) ((s.callResolve reg).1.callBegin retp reg, .none) :=
    h0.tail (.scratch ⟨rfl, rfl, rfl, rfl, rfl, rfl, rfl, rfl, rfl, rfl, rfl, rfl, List.prefix_rfl⟩)
  cases callPrepare_way h with
  | fails ret hr => exact hfail ret
  | denied i call hr hd => exact hfail xyErrEperm
  | nowhere i call hr hd hc => exact hbegin
  | loops i call hr hd r hc t ht =>
      refine hbegin.trans (callVector_straight ?_ ht)
      have := (callResolve_sameHeap s reg).hookIdHd
      exact this ▸ callResolve_lookup hreg hr

theorem xyCall_straight (hreg : Registry s) {retp : Option BufPtr} {reg : Option AdapterPtr}
    {r : Int ⊕ CallFrame} (h : s.xyCall E retp reg = .ok (t, r)) :
    Straights E g (s, .none) (t, .none) := by
  cases reg with
  | none =>
      simp only [xyCall, Except.ok.injEq, Prod.mk.injEq] at h
      rw [← h.1]
      exact .single (.scratch (setErr_sameHeap _ _))
  | some reg =>
      obtain ⟨⟨m, out⟩, hm, h⟩ := Res.bind_ok.mp h
      have h1 := callPrepare_straight (g := g) hreg hm
      cases out with
      | done ret =>
          cases h
          exact h1
      | wait f => exact h1.trans (callLoop_straight h)

theorem bodyReturn_straight {f : CallFrame} {result : Bytes} {r : Int ⊕ CallFrame}
    (h : s.bodyReturn f result = .ok (t, r)) : Straights E g (s, .none) (t, .none) := by
  unfold bodyReturn at h
  split at h
  · cases h
  · refine .trans ?_ (callLoop_straight h)
    cases f.retp <;> cases f.regionChanged <;>
      exact .single
        (.scratch ⟨rfl, rfl, rfl, rfl, rfl, rfl, rfl, rfl, rfl, rfl, rfl, rfl, List.prefix_rfl⟩)

end Runtime
end Xylem

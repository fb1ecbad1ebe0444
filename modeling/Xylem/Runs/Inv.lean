import Xylem.Heap.Topple

namespace Xylem

open Xylem.Runtime

/-- A region id and a region pointer that can be made current. The pointer is `NULL` in
a thread that has not initialised the runtime. -/
structure PairOk (s : Runtime) (id : RegionId) (r : Option RegionPtr) : Prop where
  id : (s.regionHd id).isSome
  entry : ∀ x, r = some x → x < s.regionNext

def FrameOk (E : Env) (s : Runtime) : Frame → Prop
  | .install f => PairOk s f.prevRegionId f.prevRegionEntry ∧
      ∀ rf, f.reload = some rf → s.ReloadOk E rf
  | .body f => (s.regionHd f.regionId).isSome ∧ f.callerRegion < s.regionNext ∧
      (f.regionChanged = true → PairOk s f.regionId f.prevRentry)
  | .scope id r => PairOk s id r

structure Inv (E : Env) (s : State) : Prop where
  wf : ∃ L, WF s.rt none L
  registry : Registry s.rt
  ctxs : s.rt.CtxsKnown
  current : PairOk s.rt s.rt.currentRegionId s.rt.currentRegionEntry
  frames : ∀ f ∈ s.stack, FrameOk E s.rt f

theorem PairOk.keeps {s t : Runtime} {id : RegionId} {r : Option RegionPtr} (h : PairOk s id r)
    (hk : Keeps s t) : PairOk t id r := by
  obtain ⟨x, hx⟩ := Option.isSome_iff_exists.mp h.id
  exact ⟨Option.isSome_iff_exists.mpr ⟨x, hk.regionHd _ _ hx⟩,
    fun y hy => (h.entry y hy).trans_le hk.regionNext⟩

theorem FrameOk.keeps {E : Env} {s t : Runtime} {f : Frame} (h : FrameOk E s f) (hk : Keeps s t) :
    FrameOk E t f := by
  cases f with
  | install f => exact ⟨h.1.keeps hk, fun rf hrf => (h.2 rf hrf).keeps hk⟩
  | body f =>
      obtain ⟨h1, h2, h3⟩ := h
      obtain ⟨x, hx⟩ := Option.isSome_iff_exists.mp h1
      exact ⟨Option.isSome_iff_exists.mpr ⟨x, hk.regionHd _ _ hx⟩, h2.trans_le hk.regionNext,
        fun hc => (h3 hc).keeps hk⟩
  | scope id r => exact PairOk.keeps h hk

theorem registry_of_hooks {s t : Runtime} (h : t.hooks = s.hooks) (hr : Registry s) : Registry t := by
  have h1 : t.hookIdHd = s.hookIdHd := congrArg Hooks.hookIdHd h
  have h2 : t.hookIdCounter = s.hookIdCounter := congrArg Hooks.hookIdCounter h
  have h3 : t.sicaHd = s.sicaHd := congrArg Hooks.sicaHd h
  have h4 : t.adapters = s.adapters := congrArg Hooks.adapters h
  constructor
  · rw [h1, h2]
    exact hr.lt
  · rw [h1]
    exact hr.inj
  · rw [h1, h3]
    exact hr.sica
  · rw [h1, h4]
    exact hr.held

namespace Inv
variable {E : Env} {s t : State}

theorem pair_of_core {s t : Runtime} (h : t.core = s.core)
    (hp : PairOk s s.currentRegionId s.currentRegionEntry) :
    PairOk t t.currentRegionId t.currentRegionEntry := by
  have h1 : t.currentRegionId = s.currentRegionId := congrArg Core.currentRegionId h
  have h2 : t.currentRegionEntry = s.currentRegionEntry := congrArg Core.currentRegionEntry h
  have h3 : t.regionHd = s.regionHd := congrArg (fun c => c.tree.hd) h
  have h4 : t.regionNext = s.regionNext := congrArg (fun c => c.tree.next) h
  refine ⟨?_, ?_⟩
  · rw [h1, h3]
    exact hp.id
  · rw [h2, h4]
    exact hp.entry

/-- A step through elementary operations keeps the invariant if the registry and
what it makes current are accounted for, and the frames it adds. -/
theorem of_prims {g : RegionPtr → UInt8 → Prop} (hi : Inv E s)
    (hp : Prims E g (s.rt, .none) (t.rt, .none)) (hreg : Registry t.rt)
    (hcur : Keeps s.rt t.rt → PairOk t.rt t.rt.currentRegionId t.rt.currentRegionEntry)
    (hframes : Keeps s.rt t.rt → ∀ f ∈ t.stack, f ∈ s.stack ∨ FrameOk E t.rt f) : Inv E t := by
  have hk := Prims.keeps hp hi.wf hi.ctxs
  refine ⟨hk.wf, hreg, hk.ctxs, hcur hk, fun f hf => ?_⟩
  rcases hframes hk f hf with hf | hf
  · exact (hi.frames f hf).keeps hk
  · exact hf

end Inv

namespace Runtime
variable {E : Env} {s t : Runtime}

/-- What a load makes current, what it waits for, and what it leaves alone. -/
structure LoadFrameOk (s t : Runtime) (reload : Option ReloadFrame) (out : Outcome LoadFrame) : Prop where
  hooks : t.hooks = s.hooks
  done : ∀ ret, out = .done ret →
    t.currentRegionId = s.currentRegionId ∧ t.currentRegionEntry = s.currentRegionEntry ∧
      t.loadingMod = s.loadingMod
  wait : ∀ f, out = .wait f →
    f = ⟨s.entryNext, s.currentRegionId, s.currentRegionEntry, s.loadingMod, reload⟩ ∧
      t.loadingMod = some s.entryNext ∧
      ∃ r, t.currentRegionEntry = some r ∧ t.regionHd t.currentRegionId = some r

theorem LoadEffect.frame {fname : String} {ch : LoadChoice} {reload : Option ReloadFrame}
    {out : Outcome LoadFrame} (h : LoadEffect E s fname ch reload t out) :
    LoadFrameOk s t reload out := by
  have same : ∀ {ret : Int}, t.hooks = s.hooks → t.currentRegionId = s.currentRegionId →
      t.currentRegionEntry = s.currentRegionEntry → t.loadingMod = s.loadingMod →
      LoadFrameOk s t reload (.done ret) :=
    fun h1 h2 h3 h4 => ⟨h1, fun _ _ => ⟨h2, h3, h4⟩, fun f hf => by cases hf⟩
  cases h with
  | same ret hret ht =>
      exact same (congrArg Core.hooks ht) (congrArg Core.currentRegionId ht)
        (congrArg Core.currentRegionEntry ht) (congrArg Core.loadingMod ht)
  | reuse p e hl he ht =>
      exact same (congrArg Core.hooks ht) (congrArg Core.currentRegionId ht)
        (congrArg Core.currentRegionEntry ht) (congrArg Core.loadingMod ht)
  | fresh out hl hmem him ha hf =>
      cases hf with
      | refused ret hret ht =>
          exact same (congrArg Core.hooks ht) (congrArg Core.currentRegionId ht)
            (congrArg Core.currentRegionEntry ht) (congrArg Core.loadingMod ht)
      | noInstall hi id r T index hp ht =>
          exact same (congrArg Core.hooks ht) (congrArg Core.currentRegionId ht)
            (congrArg Core.currentRegionEntry ht) (congrArg Core.loadingMod ht)
      | installs fn hi id r T index hp ht =>
          refine ⟨congrArg Core.hooks ht, fun ret hr => (by cases hr), fun f hf => ?_⟩
          cases hf
          refine ⟨rfl, congrArg Core.loadingMod ht, r, congrArg Core.currentRegionEntry ht, ?_⟩
          have h1 : t.currentRegionId = id := congrArg Core.currentRegionId ht
          have h2 : t.regionHd = T.hd := congrArg (fun c => c.tree.hd) ht
          rw [h1, h2]
          exact hp.hd

theorem callFail_core (s : Runtime) (retp : Option BufPtr) (reg : AdapterPtr) (ret : Int) :
    (s.callFail retp reg ret).core = s.core := by
  obtain ⟨bufs, p, b, h⟩ := callFail_eq s retp reg ret
  rw [h]
  rfl

theorem callFinish_core (s : Runtime) (f : CallFrame) : (s.callFinish f).1.core = s.core := by
  obtain ⟨bufs, p, b, e, h⟩ := callFinish_eq s f
  rw [h]
  rfl

/-- The loop of `xy_call` either ends or enters the next callback. -/
inductive LoopEffect (s : Runtime) (f : CallFrame) (t : Runtime) : Int ⊕ CallFrame → Prop
  | ends (hret : (s.callFinish f).2 = xyOk ∨ (s.callFinish f).2 = xyErrNotFound)
      (ht : t = (s.callFinish f).1) : LoopEffect s f t (.inl (s.callFinish f).2)
  | enters (k : Nat) (p : EntryPtr) (me : ModEntry) (c : CtxPtr) (he : s.entries p = some me)
      (hc : me.ctx = some c) (ht : t = (s.callEnter { f with mi := k } p me c).1) :
      LoopEffect s f t (.inr (s.callEnter { f with mi := k } p me c).2)

theorem callLoop_effect {left : Nat} {f : CallFrame} {r : Int ⊕ CallFrame}
    (h : s.callLoop left f = .ok (t, r)) : LoopEffect s f t r := by
  cases callLoop_way h with
  | ends hskip =>
      refine .ends ?_ rfl
      simp only [callFinish]
      split
      · exact .inr rfl
      · exact .inl rfl
  | enters k slot me c fn hk hk' hskip htaken => exact .enters k slot.me me c htaken.entry htaken.ctx rfl

/-- The state in which a callback's result has been stored and its region left. -/
def bodyLeft (s : Runtime) (f : CallFrame) (result : Bytes) : Runtime :=
  let s := match f.retp with
    | some b => s.writeBuf b result
    | none => s
  if f.regionChanged then s.setCurrentRegion f.regionId f.prevRentry else s

theorem bodyReturn_ok {f : CallFrame} {result : Bytes} {r : Runtime × (Int ⊕ CallFrame)}
    (h : s.bodyReturn f result = .ok r) :
    (s.bodyLeft f result).callLoop (f.n - (f.mi + 1)) { f with mi := f.mi + 1, ran := f.ran + 1 } =
      .ok r := by
  unfold bodyReturn at h
  split at h
  · cases h
  · exact h

end Runtime
end Xylem

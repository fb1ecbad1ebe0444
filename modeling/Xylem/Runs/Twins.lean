import Xylem.Runs.Unseen
import Xylem.Model.Threads

namespace Xylem

open Xylem.Runtime

namespace Runtime

/-- The thread's own variables, and the buffers in `B`, are the same in `m` and `n`. -/
structure Twin (B : BufPtr → Prop) (m n : Runtime) : Prop where
  tls : n.tls 0 = m.tls 0
  bufs : ∀ b, B b → n.bufs b = m.bufs b

section Twins
variable {E : Env} {B : BufPtr → Prop} {m n : Runtime}

theorem Twin.writeBuf (h : Twin B m n) {b : BufPtr} (hb : B b) (bytes : Bytes) :
    Twin B (m.writeBuf b bytes) (n.writeBuf b bytes) := by
  refine ⟨h.tls, fun c hc => ?_⟩
  show Function.update n.bufs b (bytes ++ (n.bufs b).drop bytes.length) c =
    Function.update m.bufs b (bytes ++ (m.bufs b).drop bytes.length) c
  rw [h.bufs b hb]
  by_cases hcb : c = b
  · subst hcb
    rw [Function.update_self, Function.update_self]
  · rw [Function.update_of_ne hcb, Function.update_of_ne hcb, h.bufs c hc]

theorem Twin.zeroRet (h : Twin B m n) {retp : Option BufPtr} (hb : ∀ b, retp = some b → B b)
    (size : Nat) : Twin B (m.xyZeroRet retp size) (n.xyZeroRet retp size) := by
  cases retp with
  | none => exact h
  | some b => exact h.writeBuf (hb b rfl) _

/-- The same change of the thread's own variables on both sides. -/
theorem Twin.change (h : Twin B m n) {f : Runtime → Runtime} (g : Tls → Tls)
    (hf : ∀ s : Runtime, (f s).tls 0 = g (s.tls 0)) (hb : ∀ s : Runtime, (f s).bufs = s.bufs) :
    Twin B (f m) (f n) :=
  ⟨by rw [hf, hf, h.tls], fun b hB => by rw [hb, hb, h.bufs b hB]⟩

theorem Twin.setLastRet (h : Twin B m n) {retp : Option BufPtr} (hb : ∀ b, retp = some b → B b)
    (size : Nat) : Twin B (m.xySetLastRet retp size) (n.xySetLastRet retp size) := by
  have hnull : Twin B { m with lastRetp := .null } { n with lastRetp := .null } :=
    h.change (f := fun s => { s with lastRetp := .null }) (fun x => { x with lastRetp := .null })
      (fun _ => rfl) fun _ => rfl
  cases retp with
  | none => exact hnull
  | some b =>
      have hbuf := h.bufs b (hb b rfl)
      unfold xySetLastRet
      simp only
      split
      · rw [hbuf]
        exact h.change
          (f := fun s => { s with
            lastRetbuf := (if size ≤ 8 then (m.bufs b).take size ++ List.replicate (8 - size) 0
              else (m.bufs b).take size) ++ s.lastRetbuf.drop
                (if size ≤ 8 then (m.bufs b).take size ++ List.replicate (8 - size) 0
                  else (m.bufs b).take size).length
            lastRetp := .retbuf })
          (fun x => { x with
            lastRetbuf := (if size ≤ 8 then (m.bufs b).take size ++ List.replicate (8 - size) 0
              else (m.bufs b).take size) ++ x.lastRetbuf.drop
                (if size ≤ 8 then (m.bufs b).take size ++ List.replicate (8 - size) 0
                  else (m.bufs b).take size).length
            lastRetp := .retbuf }) (fun _ => rfl) fun _ => rfl
      · exact hnull

theorem Twin.setErr (h : Twin B m n) (x y : Int) : Twin B (m.setErr x) (n.setErr y) :=
  ⟨h.tls, h.bufs⟩

theorem Twin.setLastRan (h : Twin B m n) (ran : Nat) :
    Twin B { m with lastRan := ran } { n with lastRan := ran } :=
  h.change (f := fun s => { s with lastRan := ran }) (fun x => { x with lastRan := ran })
    (fun _ => rfl) fun _ => rfl

theorem Twin.setCurrentRegion (h : Twin B m n) (id : RegionId) (r : Option RegionPtr) :
    Twin B (m.setCurrentRegion id r) (n.setCurrentRegion id r) :=
  h.change (f := fun s => s.setCurrentRegion id r)
    (fun x => { x with currentRegionId := id, currentRegionEntry := r }) (fun _ => rfl) fun _ => rfl

/-- The call of frame `f` in `m`, and in `n` over an array of the same slots. -/
structure SameFrame (B : BufPtr → Prop) (m n : Runtime) (f : CallFrame) (block : Nat) : Prop where
  own : ∀ b, f.retp = some b → B b
  size : (n.adapters f.reg).retSize = (m.adapters f.reg).retSize
  block : 0 < f.n → ((n.regions f.callerRegion).hookDispatch f.hookId).block = block
  slots : ∀ k, k < f.n → ((n.regions f.callerRegion).hookDispatch f.hookId).slots[k]? =
    ((m.regions f.callerRegion).hookDispatch f.hookId).slots[k]?

inductive SameTurn (B : BufPtr → Prop) (m n : Runtime) : Int ⊕ CallFrame → Int ⊕ CallFrame → Prop
  | ends (ret : Int) (herr : n.errVal = m.errVal) : SameTurn B m n (.inl ret) (.inl ret)
  | enters {f : CallFrame} {block : Nat} (hf : SameFrame B m n f block) :
      SameTurn B m n (.inr f) (.inr { f with block := block })

variable {f : CallFrame} {block : Nat} {m' n' : Runtime}

theorem SameFrame.tables (hf : SameFrame B m n f block) (hm : TablesKept m m') (hn : TablesKept n n') :
    SameFrame B m' n' f block := by
  refine ⟨hf.own, ?_, ?_, ?_⟩
  · rw [hm.adapters, hn.adapters]
    exact hf.size
  · rw [hn.regions]
    exact hf.block
  · rw [hm.regions, hn.regions]
    exact hf.slots

theorem callFinish_twin (ht : Twin B m n) (hf : SameFrame B m n f block) :
    Twin B (m.callFinish f).1 (n.callFinish { f with block := block }).1 ∧
      (n.callFinish { f with block := block }).2 = (m.callFinish f).2 ∧
      (n.callFinish { f with block := block }).1.errVal = (m.callFinish f).1.errVal := by
  have hran := ht.setLastRan f.ran
  have hnone : ∀ b, none = some b → B b := fun b hb => by cases hb
  unfold callFinish
  simp only [hf.size]
  split
  · exact ⟨((hran.setLastRet hnone _).zeroRet hf.own _).setErr _ _, rfl, rfl⟩
  · exact ⟨(hran.setLastRet hf.own _).setErr _ _, rfl, rfl⟩

theorem callEnter_twin (ht : Twin B m n) (block : Nat) {p : EntryPtr} {me me' : ModEntry} {c : CtxPtr}
    (hid : (n.ctxs c).regionId = (m.ctxs c).regionId) (hr : me'.regionEntry = me.regionEntry) :
    Twin B (m.callEnter f p me c).1 (n.callEnter { f with block := block } p me' c).1 ∧
      (n.callEnter { f with block := block } p me' c).2 =
        { (m.callEnter f p me c).2 with block := block } := by
  have hcur : n.currentRegionEntry = m.currentRegionEntry := congrArg Tls.currentRegionEntry ht.tls
  have hset : ∀ g g', Twin B (m.setCtx c g) (n.setCtx c g') := fun _ _ => ⟨ht.tls, ht.bufs⟩
  have hsid : ∀ (s : Runtime) (r : Option StatePtr),
      ((s.setCtx c fun x => { x with adapter := some f.reg, regionState := r }).ctxs c).regionId =
        (s.ctxs c).regionId := by
    intro s r
    simp [setCtx]
  unfold callEnter
  simp only [hsid, hid, hr]
  refine ⟨?_, ?_⟩
  · by_cases h : (m.ctxs c).regionId = f.regionId
    · simp only [h, ne_eq, not_true_eq_false, decide_false, Bool.false_eq_true, if_false]
      exact hset _ _
    · simp only [ne_eq, h, not_false_eq_true, decide_true, if_true]
      exact (hset _ _).setCurrentRegion _ _
  · show CallFrame.mk .. = CallFrame.mk ..
    simp only [CallFrame.mk.injEq, true_and, and_true]
    exact hcur

theorem callLoop_twin {left : Nat} {x : Int ⊕ CallFrame} (hu : Unseen E m n) (ht : Twin B m n)
    (hf : SameFrame B m n f block) (hleft : 0 < left → f.mi + left ≤ f.n)
    (h : m.callLoop left f = .ok (m', x)) :
    ∃ n' y, n.callLoop left { f with block := block } = .ok (n', y) ∧ Twin B m' n' ∧
      SameTurn B m' n' x y := by
  induction left generalizing f with
  | zero =>
      simp only [callLoop, Except.ok.injEq, Prod.mk.injEq] at h
      obtain ⟨rfl, rfl⟩ := h
      obtain ⟨h1, h2, h3⟩ := callFinish_twin ht hf
      refine ⟨_, _, rfl, h1, ?_⟩
      show SameTurn B _ _ _ (.inl (n.callFinish { f with block := block }).2)
      rw [h2]
      exact .ends _ h3
  | succ left ih =>
      have hk := hleft (by omega)
      simp only [callLoop] at h
      split at h
      · cases h
      · cases hslot : ((m.regions f.callerRegion).hookDispatch f.hookId).slots[f.mi]? with
        | none => simp [hslot] at h
        | some slot =>
            simp only [hslot, Res.bind_ok, deref_ok] at h
            obtain ⟨me, hme, h⟩ := h
            obtain ⟨me', hme', hcore⟩ : ∃ me', n.entries slot.me = some me' ∧ me'.core = me.core := by
              have hcore := hu.entries slot.me
              rw [hme] at hcore
              exact Option.map_eq_some_iff.mp hcore
            have hctx : me'.core.ctx = me.core.ctx := congrArg ModEntry.ctx hcore
            change me'.ctx = me.ctx at hctx
            have hentry : me'.core.regionEntry = me.core.regionEntry :=
              congrArg ModEntry.regionEntry hcore
            change me'.regionEntry = me.regionEntry at hentry
            have hslot' := (hf.slots f.mi (by omega)).trans hslot
            have hblock := hf.block (by omega)
            -- the next slot, in both
            have next : m.callLoop left { f with mi := f.mi + 1 } = .ok (m', x) →
                ∃ n' y, n.callLoop left { f with block := block, mi := f.mi + 1 } = .ok (n', y) ∧
                  Twin B m' n' ∧ SameTurn B m' n' x y := fun hl =>
              ih (f := { f with mi := f.mi + 1 }) ⟨hf.own, hf.size, hf.block, hf.slots⟩
                (fun _ => by simp only; omega) hl
            cases hc : me.ctx with
            | none =>
                simp only [hc] at h
                obtain ⟨n', y, hn, hty⟩ := next h
                refine ⟨n', y, ?_, hty⟩
                simp [callLoop, hblock, hslot', deref, hme', hctx, hc, hn, bind, Except.bind]
            | some c =>
                cases hcb : slot.cb with
                | null =>
                    simp only [hc, hcb] at h
                    obtain ⟨n', y, hn, hty⟩ := next h
                    refine ⟨n', y, ?_, hty⟩
                    simp [callLoop, hblock, hslot', deref, hme', hctx, hc, hcb, hn, bind, Except.bind]
                | notFound => simp [hc, hcb] at h
                | fn fn =>
                    simp only [hc, hcb, Except.ok.injEq, Prod.mk.injEq] at h
                    obtain ⟨rfl, rfl⟩ := h
                    obtain ⟨h1, h2⟩ := callEnter_twin (f := f) (p := slot.me) ht
                      block (hu.ctxIds c) hentry
                    refine ⟨_, .inr (n.callEnter { f with block := block } slot.me me' c).2, ?_, h1, ?_⟩
                    · simp [callLoop, hblock, hslot', deref, hme', hctx, hc, hcb, bind, Except.bind]
                    · rw [h2]
                      refine .enters (SameFrame.tables ?_ (callEnter_tables m f slot.me me c)
                        (callEnter_tables n { f with block := block } slot.me me' c))
                      exact ⟨hf.own, hf.size, hf.block, hf.slots⟩

theorem bodyReturn_twin {result : Bytes} {x y : Int ⊕ CallFrame} (hu : Unseen E m n)
    (ht : Twin B m n) (hf : SameFrame B m n f block) (hm : m.bodyReturn f result = .ok (m', x))
    (hn : n.bodyReturn { f with block := block } result = .ok (n', y)) :
    Twin B m' n' ∧ SameTurn B m' n' x y := by
  have htm := bodyLeft_tables m f result
  have htn := bodyLeft_tables n { f with block := block } result
  have hwrote : Twin B (m.bodyLeft f result) (n.bodyLeft { f with block := block } result) := by
    unfold bodyLeft
    cases hr : f.retp with
    | none =>
        cases hc : f.regionChanged with
        | false => exact ht
        | true => exact ht.setCurrentRegion f.regionId f.prevRentry
    | some b =>
        have hbuf := ht.writeBuf (hf.own b hr) result
        cases hc : f.regionChanged with
        | false => exact hbuf
        | true => exact hbuf.setCurrentRegion f.regionId f.prevRentry
  have hframe := hf.tables htm htn
  obtain ⟨n'', y', hn', hrest⟩ := callLoop_twin (hu.tables htm htn) hwrote
    (f := { f with mi := f.mi + 1, ran := f.ran + 1 })
    ⟨hframe.own, hframe.size, hframe.block, hframe.slots⟩ (by simp only; omega) (bodyReturn_ok hm)
  cases hn'.symm.trans (bodyReturn_ok hn)
  exact hrest

theorem callVector_tls {r : RegionPtr} {i : Nat} {name : String} (h : m.callVector E r i name = .ok m') :
    m'.tls 0 = m.tls 0 ∧ m'.bufs = m.bufs := by
  have hcore := callVector_core h
  have hres := (callVector_apart h).result
  have h1 : m'.currentRegionId = m.currentRegionId := congrArg Core.currentRegionId hcore
  have h2 : m'.currentRegionEntry = m.currentRegionEntry := congrArg Core.currentRegionEntry hcore
  have h3 : m'.loadingMod = m.loadingMod := congrArg Core.loadingMod hcore
  have h4 : m'.pendingCtx = m.pendingCtx := congrArg Core.pendingCtx hcore
  have h5 : m'.lastRan = m.lastRan := congrArg Result.lastRan hres
  have h6 : m'.lastRetp = m.lastRetp := congrArg Result.lastRetp hres
  have h7 : m'.lastRetbuf = m.lastRetbuf := congrArg Result.lastRetbuf hres
  refine ⟨?_, congrArg Result.bufs hres⟩
  simp only [tls, h1, h2, h3, h4, h5, h6, h7]

theorem callResolve_twin (hu : Unseen E m n) (ht : Twin B m n) (reg : AdapterPtr) :
    Unseen E (m.callResolve reg).1 (n.callResolve reg).1 ∧
      Twin B (m.callResolve reg).1 (n.callResolve reg).1 ∧
      (n.callResolve reg).1.adapters reg = (m.callResolve reg).1.adapters reg ∧
      (n.callResolve reg).2 = (m.callResolve reg).2 := by
  obtain ⟨hcm, hcn⟩ := hu.adapters.held
  have hres := hu.adapters.resolved reg
  rw [callResolve_eq hcm, callResolve_eq hcn]
  refine ⟨((resolve_unseen hcm reg).symm.trans hu).trans (resolve_unseen hcn reg), ⟨ht.tls, ht.bufs⟩,
    ?_, ?_⟩
  · show Function.update n.adapters reg _ reg = Function.update m.adapters reg _ reg
    rw [Function.update_self, Function.update_self, hres]
  · show n.trampolineOf _ = m.trampolineOf _
    rw [hres, hu.adapters.trampoline]

theorem callerRegion_twin (hu : Unseen E m n) (ht : Twin B m n) : n.callerRegion = m.callerRegion := by
  have h1 : n.currentRegionEntry = m.currentRegionEntry := congrArg Tls.currentRegionEntry ht.tls
  have h2 : n.currentRegionId = m.currentRegionId := congrArg Tls.currentRegionId ht.tls
  unfold callerRegion regionLookup
  rw [h1, h2, hu.regionHd]

theorem callDenied_twin (hu : Unseen E m n) (ht : Twin B m n) {reg : AdapterPtr}
    (ha : n.adapters reg = m.adapters reg) : n.callDenied reg = m.callDenied reg := by
  unfold callDenied
  rw [callerRegion_twin hu ht]
  cases m.callerRegion with
  | none => rfl
  | some r =>
      simp only [callChain_congr hu.alike.nodes r, ha]
      have hset : ∀ a, (n.regions a).deniedHooksSet = (m.regions a).deniedHooksSet := fun a =>
        congrArg (fun x : RegionNode => x.deniedHooksSet) (hu.alike.nodes a)
      simp only [hset]

theorem callFail_twin (ht : Twin B m n) {retp : Option BufPtr} (hown : ∀ b, retp = some b → B b)
    {reg : AdapterPtr} (ha : n.adapters reg = m.adapters reg) (ret : Int) :
    Twin B (m.callFail retp reg ret) (n.callFail retp reg ret) := by
  have hnone : ∀ b, none = some b → B b := fun b hb => by cases hb
  have h := (((ht.setLastRan 0).setLastRet hnone (m.adapters reg).retSize).zeroRet hown
    (m.adapters reg).retSize)
  unfold callFail
  simp only [ha]
  exact ⟨h.tls, h.bufs⟩

theorem callBegin_twin (ht : Twin B m n) (retp : Option BufPtr) (reg : AdapterPtr) :
    Twin B (m.callBegin retp reg) (n.callBegin retp reg) := by
  cases retp with
  | none =>
      exact ht.change (f := fun s => s.callBegin none reg)
        (fun x => { x with lastRan := 0, lastRetp := .null }) (fun _ => rfl) fun _ => rfl
  | some b =>
      exact ht.change (f := fun s => s.callBegin (some b) reg)
        (fun x => { x with lastRan := 0, lastRetp := .caller b }) (fun _ => rfl) fun _ => rfl

theorem callVector_twin (hm : Registry m) (hn : Registry n) (hu : Unseen E m n) (ht : Twin B m n)
    {r : RegionPtr} {i : Nat} {name : String} (hi : m.hookIdHd.lookup name = some i)
    (h : m.callVector E r i name = .ok m') (k : n.callVector E r i name = .ok n') :
    Unseen E m' n' ∧ Twin B m' n' ∧
      ((n'.regions r).hookDispatch i).walked = ((m'.regions r).hookDispatch i).walked := by
  have hi' : n.hookIdHd.lookup name = some i := by
    rw [hu.alike.hooks]
    exact hi
  obtain ⟨h1, h2⟩ := callVector_unseen hm hu.adapters.held.1 hi h
  obtain ⟨k1, k2⟩ := callVector_unseen hn hu.adapters.held.2 hi' k
  obtain ⟨htls, hbufs⟩ := callVector_tls h
  obtain ⟨ktls, kbufs⟩ := callVector_tls k
  refine ⟨(h1.symm.trans hu).trans k1, ⟨?_, fun b hb => ?_⟩, ?_⟩
  · rw [htls, ktls, ht.tls]
  · rw [hbufs, kbufs, ht.bufs b hb]
  · have hv := hu.alike.vectors i name hi r
    rw [h2, k2] at hv
    exact Except.ok.inj hv

theorem callFrame_twin (ht : Twin B m n) {retp : Option BufPtr} {reg : AdapterPtr} {i : Nat}
    {call : Trampoline} {r : RegionPtr} (blk : Nat) {blk' cnt : Nat} :
    n.callFrame retp reg i call r blk' cnt =
      { m.callFrame retp reg i call r blk cnt with block := blk' } := by
  have hcur : n.currentRegionId = m.currentRegionId := congrArg Tls.currentRegionId ht.tls
  unfold callFrame
  rw [hcur]

theorem xyCall_twin (hm : Registry m) (hn : Registry n) (hu : Unseen E m n) (ht : Twin B m n)
    {retp : Option BufPtr} (hown : ∀ b, retp = some b → B b) {reg : Option AdapterPtr}
    {x y : Int ⊕ CallFrame} (h : m.xyCall E retp reg = .ok (m', x))
    (k : n.xyCall E retp reg = .ok (n', y)) : Twin B m' n' ∧ SameTurn B m' n' x y := by
  cases reg with
  | none =>
      cases h
      cases k
      exact ⟨ht.setErr _ _, .ends _ rfl⟩
  | some reg =>
      obtain ⟨hu1, ht1, ha, hres⟩ := callResolve_twin hu ht reg
      have hden := callDenied_twin hu1 ht1 ha
      have hcaller := callerRegion_twin hu ht
      obtain ⟨⟨p, out⟩, hp, h⟩ := Res.bind_ok.mp h
      obtain ⟨⟨q, out'⟩, hq, k⟩ := Res.bind_ok.mp k
      have begun : ∀ s : Runtime, TablesKept s (s.callBegin retp reg) := fun s =>
        ⟨rfl, rfl, rfl, rfl, rfl, rfl, rfl, rfl, rfl, fun _ => rfl⟩
      have huB := hu1.tables (begun _) (begun _)
      have htB := callBegin_twin ht1 retp reg
      cases callPrepare_way hp with
      | fails ret he =>
          cases callPrepare_way hq with
          | fails ret' he' =>
              rw [hres, he] at he'
              cases he'
              cases h
              cases k
              exact ⟨callFail_twin ht1 hown ha ret, .ends ret rfl⟩
          | denied i' call' he' | nowhere i' call' he' | loops i' call' he' =>
              rw [hres, he] at he'
              cases he'
      | denied i call he hd =>
          cases callPrepare_way hq with
          | fails ret' he' =>
              rw [hres, he] at he'
              cases he'
          | denied i' call' he' hd' =>
              cases h
              cases k
              exact ⟨callFail_twin ht1 hown ha xyErrEperm, .ends xyErrEperm rfl⟩
          | nowhere i' call' he' hd' | loops i' call' he' hd' =>
              rw [hden, hd] at hd'
              cases hd'
      | nowhere i call he hd hR =>
          cases callPrepare_way hq with
          | fails ret' he' =>
              rw [hres, he] at he'
              cases he'
          | denied i' call' he' hd' =>
              rw [hden, hd] at hd'
              cases hd'
          | nowhere i' call' he' hd' hR' =>
              rw [hres, he] at he'
              cases he'
              have hf : SameFrame B ((m.callResolve reg).1.callBegin retp reg)
                  ((n.callResolve reg).1.callBegin retp reg) (m.callFrame retp reg i call 0 0 0) 0 :=
                ⟨hown, congrArg Adapter.retSize ha, fun h0 => absurd h0 (Nat.lt_irrefl 0),
                  fun j hj => absurd hj (Nat.not_lt_zero j)⟩
              obtain ⟨n'', y', hn', hrest⟩ := callLoop_twin huB htB hf
                (fun h0 => absurd h0 (Nat.lt_irrefl 0)) h
              rw [← callFrame_twin ht 0] at hn'
              cases hn'.symm.trans k
              exact hrest
          | loops i' call' he' hd' R' hR' =>
              rw [hcaller, hR] at hR'
              cases hR'
      | loops i call he hd R hR u hv =>
          cases callPrepare_way hq with
          | fails ret' he' =>
              rw [hres, he] at he'
              cases he'
          | denied i' call' he' hd' =>
              rw [hden, hd] at hd'
              cases hd'
          | nowhere i' call' he' hd' hR' =>
              rw [hcaller, hR] at hR'
              cases hR'
          | loops i' call' he' hd' R' hR' w hw =>
              rw [hres, he] at he'
              cases he'
              rw [hcaller, hR] at hR'
              cases hR'
              have hname : (n.adapters reg).name = (m.adapters reg).name := by
                rw [← callResolve_name n reg reg, ← callResolve_name m reg reg, ha]
              rw [hname] at hw
              have registered : ∀ {s : Runtime}, Registry s →
                  Registry ((s.callResolve reg).1.callBegin retp reg) := by
                intro s hs
                obtain ⟨k1, k2, k3, k4⟩ := callResolve_registry hs reg
                exact ⟨k1, k2, k3, k4⟩
              have hi : ((m.callResolve reg).1.callBegin retp reg).hookIdHd.lookup
                  (m.adapters reg).name = some i := by
                obtain ⟨a, hs, -⟩ := callResolve_spec m reg
                have hh : ((m.callResolve reg).1.callBegin retp reg).hookIdHd = m.hookIdHd := by
                  rw [hs]
                  rfl
                rw [hh]
                exact callResolve_lookup hm he
              obtain ⟨hu2, ht2, hwalk⟩ := callVector_twin (registered hm) (registered hn) huB htB hi hv hw
              have hcnt : ((q.regions R).hookDispatch i).count = ((p.regions R).hookDispatch i).count :=
                congrArg Prod.snd hwalk
              have hslots := congrArg Prod.fst hwalk
              have hf : SameFrame B p q (m.callFrame retp reg i call R
                  ((p.regions R).hookDispatch i).block ((p.regions R).hookDispatch i).count)
                  ((q.regions R).hookDispatch i).block := by
                refine ⟨hown, ?_, fun _ => rfl, fun j hj => ?_⟩
                · have h1 : p.adapters = (m.callResolve reg).1.adapters :=
                    congrArg Hooks.adapters (congrArg Core.hooks (callVector_core hv))
                  have h2 : q.adapters = (n.callResolve reg).1.adapters :=
                    congrArg Hooks.adapters (congrArg Core.hooks (callVector_core hw))
                  show (q.adapters reg).retSize = (p.adapters reg).retSize
                  rw [h1, h2, ha]
                · have hj' : j < ((p.regions R).hookDispatch i).count := hj
                  show ((q.regions R).hookDispatch i).slots[j]? = ((p.regions R).hookDispatch i).slots[j]?
                  have hj2 : j < ((q.regions R).hookDispatch i).count := by
                    rw [hcnt]
                    exact hj'
                  have hp1 := List.getElem?_take_of_lt (l := ((p.regions R).hookDispatch i).slots) hj'
                  have hq1 := List.getElem?_take_of_lt (l := ((q.regions R).hookDispatch i).slots) hj2
                  exact (hq1.symm.trans (congrArg (fun l : List Slot => l[j]?) hslots)).trans hp1
              obtain ⟨n'', y', hn', hrest⟩ := callLoop_twin hu2 ht2 hf
                (fun _ => (Nat.zero_add _).le) h
              rw [← callFrame_twin ht ((p.regions R).hookDispatch i).block] at hn'
              have k' : q.callLoop ((q.regions R).hookDispatch i).count (n.callFrame retp reg i call R
                ((q.regions R).hookDispatch i).block ((q.regions R).hookDispatch i).count) =
                  .ok (n', y) := k
              rw [hcnt] at k'
              cases hn'.symm.trans k'
              exact hrest

end Twins
end Runtime
end Xylem

import Xylem.Runs.Vectors

namespace Xylem

open Xylem.Runtime

namespace Runtime
variable {E : Env} {s t : Runtime}

/-! ### Adapters as a call would find them -/

/-- The adapters that `xy_areg` remembers have their hook ids, as it leaves them. -/
def CanonicalHeld (s : Runtime) : Prop :=
  ∀ i c, s.adapterById i = some c → (s.adapters c).hookId ≠ none

def resolvedAs (s : Runtime) (a : Adapter) : Adapter :=
  match a.hookId with
  | some _ => a
  | none =>
      match s.hookIdHd.lookup a.name with
      | none => a
      | some i =>
          match s.canonical i, a.call with
          | some c, none =>
              { a with hookId := some i, call := c.call, retSize := c.retSize, argSize := c.argSize }
          | _, _ => { a with hookId := some i }

/-- The hook id and trampoline of a resolved adapter, or the error. -/
def trampolineOf (s : Runtime) (a : Adapter) : Except Int (Nat × Trampoline) :=
  match a.hookId with
  | none => .error xyErrNotFound
  | some i =>
      if xyMaxRetSize < a.retSize then .error xyErrTooBig
      else
        match a.call <|> (s.canonical i).bind (·.call) with
        | none => .error xyErrNotFound
        | some t => .ok (i, t)

def resolve (s : Runtime) (reg : AdapterPtr) : Runtime :=
  { s with adapters := Function.update s.adapters reg (s.resolvedAs (s.adapters reg)) }

theorem resolvedAs_held {a : Adapter} (h : a.hookId ≠ none) : s.resolvedAs a = a := by
  unfold resolvedAs
  cases ha : a.hookId with
  | none => exact absurd ha h
  | some i => rfl

theorem resolvedAs_idem (s : Runtime) (a : Adapter) : s.resolvedAs (s.resolvedAs a) = s.resolvedAs a := by
  cases ha : a.hookId with
  | some i =>
      have h : s.resolvedAs a = a := resolvedAs_held (by simp [ha])
      rw [h, h]
  | none =>
      cases hl : s.hookIdHd.lookup a.name with
      | none =>
          have h : s.resolvedAs a = a := by simp [resolvedAs, ha, hl]
          rw [h, h]
      | some i =>
          apply resolvedAs_held
          simp only [resolvedAs, ha, hl]
          split <;> simp

theorem resolve_canonical (hc : CanonicalHeld s) (reg : AdapterPtr) (i : Nat) :
    (s.resolve reg).canonical i = s.canonical i := by
  unfold canonical
  show (if i < s.adapterByIdCap then (s.adapterById i).map (s.resolve reg).adapters else none) = _
  cases hi : s.adapterById i with
  | none => rfl
  | some c =>
      have hcc : (s.resolve reg).adapters c = s.adapters c := by
        by_cases hr : c = reg
        · subst hr
          exact (Function.update_self ..).trans (resolvedAs_held (hc i c hi))
        · exact Function.update_of_ne hr _ _
      simp only [Option.map_some, hcc]

theorem callResolve_eq (hc : CanonicalHeld s) (reg : AdapterPtr) :
    s.callResolve reg = (s.resolve reg, s.trampolineOf (s.resolvedAs (s.adapters reg))) := by
  have hcan := resolve_canonical hc reg
  have htramp : ∀ i, (s.resolvedAs (s.adapters reg)).hookId = some i →
      (s.resolve reg).callTrampoline reg i = s.trampolineOf (s.resolvedAs (s.adapters reg)) := by
    intro i hi
    have hself : (s.resolve reg).adapters reg = s.resolvedAs (s.adapters reg) := Function.update_self ..
    cases hcall : (s.resolvedAs (s.adapters reg)).call <|> (s.canonical i).bind (·.call) with
    | none => simp only [callTrampoline, trampolineOf, hself, hi, hcan i, hcall]
    | some call => simp only [callTrampoline, trampolineOf, hself, hi, hcan i, hcall]
  have hid : ∀ a, s.resolvedAs (s.adapters reg) = a → s.resolveHookId reg =
      a.hookId.map fun i => ({ s with adapters := Function.update s.adapters reg a }, i) := by
    rintro a rfl
    unfold resolveHookId resolvedAs
    cases ha : (s.adapters reg).hookId with
    | some i =>
        simp only [ha, Option.map_some, update_adapter_self]
    | none =>
        cases hl : s.hookIdHd.lookup (s.adapters reg).name with
        | none => simp [ha, hl]
        | some i =>
            cases hcn : s.canonical i with
            | none => simp [ha, hl, hcn]
            | some c => cases hcall : (s.adapters reg).call <;> simp [ha, hl, hcn, hcall]
  have hres := hid _ rfl
  unfold callResolve
  rw [hres]
  cases hi : (s.resolvedAs (s.adapters reg)).hookId with
  | none =>
      have hsame : s.resolvedAs (s.adapters reg) = s.adapters reg := by
        cases ha : (s.adapters reg).hookId with
        | some i => exact resolvedAs_held (by simp [ha])
        | none =>
            cases hl : s.hookIdHd.lookup (s.adapters reg).name with
            | none => simp [resolvedAs, ha, hl]
            | some i =>
                exfalso
                simp only [resolvedAs, ha, hl] at hi
                split at hi <;> cases hi
      have hs : s.resolve reg = s := by
        unfold resolve
        rw [hsame, update_adapter_self]
      simp only [Option.map_none, hs, trampolineOf, hi]
  | some i => exact Prod.ext rfl (htramp i hi)

/-- Every adapter is, once resolved, the same in `s` and `t`. -/
structure SameAdapters (s t : Runtime) : Prop where
  held : CanonicalHeld s ∧ CanonicalHeld t
  canonical : ∀ i, t.canonical i = s.canonical i
  resolved : ∀ reg, t.resolvedAs (t.adapters reg) = s.resolvedAs (s.adapters reg)

theorem SameAdapters.symm (h : SameAdapters s t) : SameAdapters t s :=
  ⟨⟨h.held.2, h.held.1⟩, fun i => (h.canonical i).symm, fun reg => (h.resolved reg).symm⟩

theorem SameAdapters.trans {u : Runtime} (h : SameAdapters s t) (k : SameAdapters t u) :
    SameAdapters s u :=
  ⟨⟨h.held.1, k.held.2⟩, fun i => (k.canonical i).trans (h.canonical i),
    fun reg => (k.resolved reg).trans (h.resolved reg)⟩

theorem resolvedAs_congr (hh : t.hookIdHd = s.hookIdHd) (hc : ∀ i, t.canonical i = s.canonical i)
    (a : Adapter) : t.resolvedAs a = s.resolvedAs a := by
  unfold resolvedAs
  rw [hh]
  simp only [hc]

theorem SameAdapters.trampoline (h : SameAdapters s t) (a : Adapter) :
    t.trampolineOf a = s.trampolineOf a := by
  unfold trampolineOf
  simp only [h.canonical]

theorem resolve_sameAdapters (hc : CanonicalHeld s) (reg : AdapterPtr) :
    SameAdapters s (s.resolve reg) := by
  have hcan := resolve_canonical hc reg
  have hsame := resolvedAs_congr (s := s) (t := s.resolve reg) rfl hcan
  refine ⟨⟨hc, fun i c hi => ?_⟩, hcan, fun r => ?_⟩
  · by_cases hr : c = reg
    · subst hr
      have hself : (s.resolve c).adapters c = s.resolvedAs (s.adapters c) := Function.update_self ..
      rw [hself, resolvedAs_held (hc i c hi)]
      exact hc i c hi
    · have hother : (s.resolve reg).adapters c = s.adapters c := Function.update_of_ne hr _ _
      rw [hother]
      exact hc i c hi
  · rw [hsame]
    by_cases hr : r = reg
    · subst hr
      have hself : (s.resolve r).adapters r = s.resolvedAs (s.adapters r) := Function.update_self ..
      rw [hself, resolvedAs_idem]
    · have hother : (s.resolve reg).adapters r = s.adapters r := Function.update_of_ne hr _ _
      rw [hother]

/-! ### What a call can tell apart -/

/-- No call of any thread can tell `t` from `s`. -/
structure Unseen (E : Env) (s t : Runtime) : Prop where
  alike : Alike E s t
  adapters : SameAdapters s t
  entries : ∀ p, (t.entries p).map ModEntry.core = (s.entries p).map ModEntry.core
  ctxIds : ∀ c, (t.ctxs c).regionId = (s.ctxs c).regionId
  regionHd : t.regionHd = s.regionHd

theorem SameLists.symm (h : SameLists s t) : SameLists t s :=
  ⟨h.next.symm, h.entryNext.symm, fun p => (h.regionNext p).symm, fun r => (h.head r).symm,
    fun r => (h.children r).symm⟩

theorem Alike.symm (h : Alike E s t) : Alike E t s :=
  ⟨h.hooks.symm, h.lists.symm, fun r => (h.nodes r).symm, fun r => (h.listed r).symm,
    fun i name hi anc p => (h.slots i name (h.hooks ▸ hi) anc p).symm,
    fun i name hi r => (h.vectors i name (h.hooks ▸ hi) r).symm⟩

theorem Unseen.symm (h : Unseen E s t) : Unseen E t s :=
  ⟨h.alike.symm, h.adapters.symm, fun p => (h.entries p).symm, fun c => (h.ctxIds c).symm,
    h.regionHd.symm⟩

theorem Unseen.trans {u : Runtime} (h : Unseen E s t) (k : Unseen E t u) : Unseen E s u :=
  ⟨h.alike.trans k.alike, h.adapters.trans k.adapters, fun p => (k.entries p).trans (h.entries p),
    fun c => (k.ctxIds c).trans (h.ctxIds c), k.regionHd.trans h.regionHd⟩

structure TablesKept (s t : Runtime) : Prop where
  entries : t.entries = s.entries
  entryNext : t.entryNext = s.entryNext
  regions : t.regions = s.regions
  regionNext : t.regionNext = s.regionNext
  regionHd : t.regionHd = s.regionHd
  hookIdHd : t.hookIdHd = s.hookIdHd
  adapters : t.adapters = s.adapters
  adapterById : t.adapterById = s.adapterById
  adapterByIdCap : t.adapterByIdCap = s.adapterByIdCap
  ctxIds : ∀ c, (t.ctxs c).regionId = (s.ctxs c).regionId

theorem TablesKept.refl (s : Runtime) : TablesKept s s :=
  ⟨rfl, rfl, rfl, rfl, rfl, rfl, rfl, rfl, rfl, fun _ => rfl⟩

theorem TablesKept.trans {u : Runtime} (h : TablesKept s t) (k : TablesKept t u) : TablesKept s u :=
  ⟨k.entries.trans h.entries, k.entryNext.trans h.entryNext, k.regions.trans h.regions,
    k.regionNext.trans h.regionNext, k.regionHd.trans h.regionHd, k.hookIdHd.trans h.hookIdHd,
    k.adapters.trans h.adapters, k.adapterById.trans h.adapterById,
    k.adapterByIdCap.trans h.adapterByIdCap, fun c => (k.ctxIds c).trans (h.ctxIds c)⟩

theorem TablesKept.alike (h : TablesKept s t) (hc : CanonicalHeld s) : Unseen E s t := by
  have hlists : SameLists s t :=
    ⟨h.regionNext, h.entryNext, fun p => by rw [h.entries], fun r => by rw [h.regions],
      fun r => by rw [h.regions]⟩
  have hnodes : ∀ r, (t.regions r).toRegionNode = (s.regions r).toRegionNode := fun r => by rw [h.regions]
  have hcan : ∀ i, t.canonical i = s.canonical i := by
    intro i
    unfold canonical
    rw [h.adapterByIdCap, h.adapterById, h.adapters]
  refine ⟨Alike.of_caches h.hookIdHd hlists hnodes (fun r => ?_)
    (fun i name _ anc p => slotOf_congr hnodes (by rw [h.entries]) i name anc)
    (fun r => by rw [h.regions]) fun i name _ r => .inl (by rw [h.regions]),
    ⟨⟨hc, fun i c hi => ?_⟩, hcan, fun reg => ?_⟩, fun p => by rw [h.entries], h.ctxIds, h.regionHd⟩
  · unfold listed
    rw [h.regions, h.regionNext, hlists.collect]
  · rw [h.adapters]
    exact hc i c (h.adapterById ▸ hi)
  · rw [h.adapters, resolvedAs_congr h.hookIdHd hcan]

theorem callVector_unseen (hreg : Registry s) (hc : CanonicalHeld s) {r : RegionPtr} {i : Nat}
    {name : String} (hi : s.hookIdHd.lookup name = some i) (h : s.callVector E r i name = .ok t) :
    Unseen E s t ∧ s.vector E r i name =
      .ok ((t.regions r).hookDispatch i).walked := by
  obtain ⟨ha, hv⟩ := callVector_alike (fun name' hi' => hreg.inj name' name i hi' hi) hi h
  have hcore := callVector_core h
  have hhooks : t.hooks = s.hooks := congrArg Core.hooks hcore
  have h1 : t.adapters = s.adapters := congrArg Hooks.adapters hhooks
  have h2 : t.adapterById = s.adapterById := congrArg Hooks.adapterById hhooks
  have h3 : t.adapterByIdCap = s.adapterByIdCap := congrArg Hooks.adapterByIdCap hhooks
  have h4 : t.ctxs = s.ctxs := congrArg Core.ctxs hcore
  have hcan : ∀ i, t.canonical i = s.canonical i := by
    intro i
    unfold canonical
    rw [h1, h2, h3]
  refine ⟨⟨ha, ⟨⟨hc, fun i c hi => ?_⟩, hcan, fun reg => ?_⟩, fun p => ?_, fun c => by rw [h4], ?_⟩, hv⟩
  · rw [h1]
    exact hc i c (h2 ▸ hi)
  · rw [h1, resolvedAs_congr ha.hooks hcan]
  · exact congrFun (congrArg Core.entries hcore) p
  · exact congrArg (fun c => c.tree.hd) hcore

theorem callFail_tables (s : Runtime) (retp : Option BufPtr) (reg : AdapterPtr) (ret : Int) :
    TablesKept s (s.callFail retp reg ret) := by
  obtain ⟨bufs, p, b, h⟩ := callFail_eq s retp reg ret
  rw [h]
  exact ⟨rfl, rfl, rfl, rfl, rfl, rfl, rfl, rfl, rfl, fun _ => rfl⟩

theorem callFinish_tables (s : Runtime) (f : CallFrame) : TablesKept s (s.callFinish f).1 := by
  obtain ⟨bufs, p, b, e, h⟩ := callFinish_eq s f
  rw [h]
  exact ⟨rfl, rfl, rfl, rfl, rfl, rfl, rfl, rfl, rfl, fun _ => rfl⟩

theorem callEnter_tables (s : Runtime) (f : CallFrame) (p : EntryPtr) (me : ModEntry) (c : CtxPtr) :
    TablesKept s (s.callEnter f p me c).1 := by
  obtain ⟨id, r, h, -⟩ := callEnter_eq s f p me c
  rw [h]
  refine ⟨rfl, rfl, rfl, rfl, rfl, rfl, rfl, rfl, rfl, fun d => ?_⟩
  by_cases hd : d = c
  · subst hd
    simp
  · simp [hd]

theorem bodyLeft_tables (s : Runtime) (f : CallFrame) (result : Bytes) :
    TablesKept s (s.bodyLeft f result) := by
  unfold bodyLeft
  cases f.retp <;> cases f.regionChanged <;>
    exact ⟨rfl, rfl, rfl, rfl, rfl, rfl, rfl, rfl, rfl, fun _ => rfl⟩

theorem callLoop_tables {left : Nat} {f : CallFrame} {x : Int ⊕ CallFrame}
    (h : s.callLoop left f = .ok (t, x)) : TablesKept s t := by
  cases callLoop_way h with
  | ends hskip => exact callFinish_tables s f
  | enters k slot me c fn hk hk' hskip htaken => exact callEnter_tables s _ slot.me me c

theorem resolve_unseen (hc : CanonicalHeld s) (reg : AdapterPtr) : Unseen E s (s.resolve reg) := by
  have hlists : SameLists s (s.resolve reg) := ⟨rfl, rfl, fun _ => rfl, fun _ => rfl, fun _ => rfl⟩
  refine ⟨Alike.of_caches rfl hlists (fun _ => rfl) (fun r => ?_) (fun _ _ _ _ _ => rfl)
    (fun _ => rfl) fun _ _ _ _ => .inl rfl,
    resolve_sameAdapters hc reg, fun _ => rfl, fun _ => rfl, rfl⟩
  unfold listed
  rw [hlists.collect]
  rfl

theorem Unseen.tables (hu : Unseen E s t) {s' t' : Runtime} (hs : TablesKept s s')
    (ht : TablesKept t t') :
    Unseen E s' t' :=
  ((hs.alike hu.adapters.held.1).symm.trans hu).trans (ht.alike hu.adapters.held.2)

theorem xyCall_unseen (hreg : Registry s) (hc : CanonicalHeld s) {retp : Option BufPtr}
    {reg : Option AdapterPtr} {x : Int ⊕ CallFrame} (h : s.xyCall E retp reg = .ok (t, x)) :
    Unseen E s t := by
  cases reg with
  | none =>
      cases h
      exact TablesKept.alike ⟨rfl, rfl, rfl, rfl, rfl, rfl, rfl, rfl, rfl, fun _ => rfl⟩ hc
  | some reg =>
      have hres : (s.callResolve reg).1 = s.resolve reg := by rw [callResolve_eq hc]
      have h1 : Unseen E s (s.callResolve reg).1 := by
        rw [hres]
        exact resolve_unseen hc reg
      have hc1 := h1.adapters.held.2
      have hfail : ∀ ret, Unseen E s ((s.callResolve reg).1.callFail retp reg ret) := fun ret =>
        h1.trans ((callFail_tables _ retp reg ret).alike hc1)
      have hbegin : TablesKept (s.callResolve reg).1 ((s.callResolve reg).1.callBegin retp reg) :=
        ⟨rfl, rfl, rfl, rfl, rfl, rfl, rfl, rfl, rfl, fun _ => rfl⟩
      have h2 := h1.trans (hbegin.alike hc1)
      obtain ⟨⟨m, out⟩, hm, h⟩ := Res.bind_ok.mp h
      cases callPrepare_way hm with
      | fails ret he =>
          cases h
          exact hfail ret
      | denied i call he hd =>
          cases h
          exact hfail xyErrEperm
      | nowhere i call he hd hR => exact h2.trans ((callLoop_tables h).alike h2.adapters.held.2)
      | loops i call he hd R hR u hv =>
          have hregB : Registry ((s.callResolve reg).1.callBegin retp reg) := by
            obtain ⟨k1, k2, k3, k4⟩ := callResolve_registry hreg reg
            exact ⟨k1, k2, k3, k4⟩
          have hi : ((s.callResolve reg).1.callBegin retp reg).hookIdHd.lookup
              (s.adapters reg).name = some i := by
            rw [h2.alike.hooks]
            exact callResolve_lookup hreg he
          have h3 := h2.trans (callVector_unseen hregB h2.adapters.held.2 hi hv).1
          exact h3.trans ((callLoop_tables h).alike h3.adapters.held.2)

theorem bodyReturn_unseen (hc : CanonicalHeld s) {f : CallFrame} {result : Bytes}
    {x : Int ⊕ CallFrame} (h : s.bodyReturn f result = .ok (t, x)) : Unseen E s t :=
  ((bodyLeft_tables s f result).trans (callLoop_tables (bodyReturn_ok h))).alike hc

theorem xyLast_tables (s : Runtime) (ret : Option BufPtr) : TablesKept s (s.xyLast ret).1 := by
  unfold xyLast
  split
  · exact ⟨rfl, rfl, rfl, rfl, rfl, rfl, rfl, rfl, rfl, fun _ => rfl⟩
  · split
    · exact ⟨rfl, rfl, rfl, rfl, rfl, rfl, rfl, rfl, rfl, fun _ => rfl⟩
    · simp only
      split <;> exact ⟨rfl, rfl, rfl, rfl, rfl, rfl, rfl, rfl, rfl, fun _ => rfl⟩

end Runtime
end Xylem

import Xylem.Runs.Trampolines
import Xylem.Runs.HookDenies

namespace Xylem

open Xylem.Runtime

/-- Adapter 1 is the one of the listener; the definer and the host have adapters without a
trampoline, as Rust definers do. -/
def definerState : State :=
  { rt := { adapters := fun a =>
      { name := "h", retSize := 1, call := if a = 1 then some { retSize := 1 } else none } } }

theorem definerState_boot : Boot definerState :=
  { sampleState_boot with
    registry :=
      { lt := fun name id h => by simp [definerState] at h
        inj := fun name name' id h => by simp [definerState] at h
        sica := fun name => by simp [definerState]
        held := fun a id h => by simp [definerState] at h } }

/-- The adapter of this name that `xy_areg` is called on and does not refuse; `A` is what
the adapters were at the start. -/
def Event.registers (A : AdapterPtr → Adapter) (name : String) : Event → Option AdapterPtr
  | .areg a => if (A a).name = name ∧ (A a).retSize ≤ xyMaxRetSize then some a else none
  | _ => none

def firstRegistrant (A : AdapterPtr → Adapter) (name : String) (es : List Event) : Option AdapterPtr :=
  es.findSome? (Event.registers A name)

/-- An adapter resolved to hook id `i`, whose canonical adapter is `c`. -/
def Adapter.resolveTo (a c : Adapter) (i : Nat) : Adapter :=
  match a.call with
  | none => { a with call := c.call, retSize := c.retSize, argSize := c.argSize, hookId := some i }
  | some _ => { a with hookId := some i }

@[simp] theorem Adapter.resolveTo_hookId (a c : Adapter) (i : Nat) :
    (a.resolveTo c i).hookId = some i := by
  unfold Adapter.resolveTo
  split <;> rfl

theorem Adapter.resolveTo_self (a : Adapter) (i : Nat) :
    a.resolveTo a i = { a with hookId := some i } := by
  unfold Adapter.resolveTo
  split <;> rfl

/-- Name `name` is registered by `f` under hook id `i`; the adapters of that name are as
they were in `A`, or resolved. -/
structure Hooks.HeldBy (h : Hooks) (A : AdapterPtr → Adapter) (name : String) (f : AdapterPtr)
    (i : Nat) : Prop where
  sica : h.sicaHd name = some f
  lookup : h.hookIdHd.lookup name = some i
  byId : h.adapterById i = some f
  lt : i < h.adapterByIdCap
  fits : (A f).retSize ≤ xyMaxRetSize
  named : (A f).name = name
  first : h.adapters f = { A f with hookId := some i }
  others : ∀ b, (A b).name = name → h.adapters b = A b ∨ h.adapters b = (A b).resolveTo (A f) i

/-- What the registry knows of `name` after its first registrant, if it has had one. -/
structure Hooks.Follows (h : Hooks) (A : AdapterPtr → Adapter) (name : String)
    (first : Option AdapterPtr) : Prop where
  names : ∀ b, (h.adapters b).name = (A b).name
  free : first = none → h.sicaHd name = none ∧ ∀ b, (A b).name = name → h.adapters b = A b
  held : ∀ f, first = some f → ∃ i, h.HeldBy A name f i

section Registry
variable {E : Env} {s t : Runtime} {A : AdapterPtr → Adapter} {name : String}
  {first : Option AdapterPtr}

theorem Hooks.HeldBy.canonical {f : AdapterPtr} {i : Nat} (h : s.hooks.HeldBy A name f i) :
    s.canonical i = some { A f with hookId := some i } := by
  unfold Runtime.canonical
  rw [if_pos (show i < s.adapterByIdCap from h.lt), show s.adapterById i = some f from h.byId]
  exact congrArg some h.first

/-- Resolving an adapter of a registered name takes it from what it was to what it becomes. -/
theorem Hooks.HeldBy.resolve {f reg : AdapterPtr} {i : Nat} (h : s.hooks.HeldBy A name f i)
    (hA : ∀ b, (A b).name = name → (A b).hookId = none) (hreg : (A reg).name = name) :
    ∃ t, s.resolveHookId reg = some (t, i) ∧ ∃ a, (a = { A reg with hookId := some i } ∧ reg = f ∨
        a = (A reg).resolveTo (A f) i) ∧
      t = { s with adapters := Function.update s.adapters reg a } := by
  have hcan := h.canonical
  have held : ∀ a, s.adapters reg = a → a.hookId = some i →
      s.resolveHookId reg = some ({ s with adapters := Function.update s.adapters reg a }, i) := by
    intro a ha hi
    rw [← ha, update_adapter_self]
    simp only [resolveHookId, ha, hi]
  by_cases hf : reg = f
  · subst hf
    exact ⟨_, held _ h.first rfl, _, .inl ⟨rfl, rfl⟩, rfl⟩
  · rcases h.others reg hreg with ha | ha
    · refine ⟨_, ?_, _, .inr rfl, rfl⟩
      have ha : s.adapters reg = A reg := ha
      have hid : (s.adapters reg).hookId = none := by rw [ha, hA reg hreg]
      have hlook : s.hookIdHd.lookup (s.adapters reg).name = some i := by
        rw [ha, hreg]
        exact h.lookup
      rw [← ha]
      cases hc : (s.adapters reg).call with
      | none => simp only [resolveHookId, hid, hlook, hcan, hc, Adapter.resolveTo]
      | some call => simp only [resolveHookId, hid, hlook, hcan, hc, Adapter.resolveTo]
    · exact ⟨_, held _ ha (Adapter.resolveTo_hookId _ _ _), _, .inr rfl, rfl⟩

theorem Hooks.Follows.unresolved {reg : AdapterPtr} (h : s.hooks.Follows A name none)
    (hr : Registry s) (hA : ∀ b, (A b).name = name → (A b).hookId = none)
    (hreg : (A reg).name = name) : s.resolveHookId reg = none := by
  obtain ⟨hsica, hsame⟩ := h.free rfl
  have ha : s.adapters reg = A reg := hsame reg hreg
  have hid : (s.adapters reg).hookId = none := by rw [ha, hA reg hreg]
  have hlook : s.hookIdHd.lookup (s.adapters reg).name = none := by
    have hn := hr.sica (s.adapters reg).name
    rw [ha, hreg, show s.sicaHd name = none from hsica] at hn
    rw [ha, hreg]
    exact Option.isNone_iff_eq_none.mp (by simpa using hn.symm)
  simp only [resolveHookId, hid, hlook]

theorem Hooks.HeldBy.update {h : Hooks} {f reg : AdapterPtr} {i : Nat} {a : Adapter}
    (hi : h.HeldBy A name f i)
    (ha : a = { A reg with hookId := some i } ∧ reg = f ∨ a = (A reg).resolveTo (A f) i) :
    Hooks.HeldBy { h with adapters := Function.update h.adapters reg a } A name f i := by
  refine ⟨hi.sica, hi.lookup, hi.byId, hi.lt, hi.fits, hi.named, ?_, fun b hb => ?_⟩
  · by_cases hf : f = reg
    · subst hf
      refine (Function.update_self _ _ _).trans ?_
      rcases ha with ⟨ha, -⟩ | ha
      · exact ha
      · exact ha.trans (Adapter.resolveTo_self _ _)
    · exact (Function.update_of_ne hf _ _).trans hi.first
  · by_cases hbr : b = reg
    · subst hbr
      refine .inr ((Function.update_self _ _ _).trans ?_)
      rcases ha with ⟨ha, hf⟩ | ha
      · rw [ha, hf]
        exact (Adapter.resolveTo_self _ _).symm
      · exact ha
    · exact (hi.others b hb).imp (Function.update_of_ne hbr _ _).trans
        (Function.update_of_ne hbr _ _).trans

theorem update_unnamed {g : AdapterPtr → Adapter} {reg : AdapterPtr} {a : Adapter}
    (hreg : (A reg).name ≠ name) {b : AdapterPtr} (hb : (A b).name = name) :
    Function.update g reg a b = g b :=
  Function.update_of_ne (fun hc : b = reg => hreg (hc ▸ hb)) _ _

theorem Hooks.Follows.callResolve {reg : AdapterPtr} (h : s.hooks.Follows A name first)
    (hr : Registry s) (hA : ∀ b, (A b).name = name → (A b).hookId = none) :
    (s.callResolve reg).1.hooks.Follows A name first := by
  have hnames : ∀ b, ((s.callResolve reg).1.adapters b).name = (A b).name := by
    intro b
    rw [callResolve_name]
    exact h.names b
  obtain ⟨a, ht, -⟩ := callResolve_spec s reg
  by_cases hreg : (A reg).name = name
  · cases hfirst : first with
    | none =>
        subst hfirst
        have hsame : (s.callResolve reg).1 = s := by
          simp only [Runtime.callResolve, h.unresolved hr hA hreg]
        rw [hsame]
        exact h
    | some f =>
        obtain ⟨i, hi⟩ := h.held f hfirst
        obtain ⟨t, hres, a, ha, rfl⟩ := hi.resolve hA hreg
        have hs : (s.callResolve reg).1 = { s with adapters := Function.update s.adapters reg a } := by
          simp only [Runtime.callResolve, hres]
        rw [hs] at hnames ⊢
        refine ⟨hnames, fun hn => (by cases hn), fun f' hf' => ?_⟩
        cases hf'
        exact ⟨i, hi.update ha⟩
  · rw [ht] at hnames ⊢
    refine ⟨hnames, fun hn => ⟨(h.free hn).1, fun b hb =>
      (update_unnamed hreg hb).trans ((h.free hn).2 b hb)⟩, fun f hf => ?_⟩
    obtain ⟨i, hi⟩ := h.held f hf
    exact ⟨i, hi.sica, hi.lookup, hi.byId, hi.lt, hi.fits, hi.named,
      (update_unnamed hreg hi.named).trans hi.first,
      fun b hb => (hi.others b hb).imp (update_unnamed hreg hb).trans (update_unnamed hreg hb).trans⟩

theorem register_hooks (E : Env) (s : Runtime) (a : AdapterPtr) :
    (((s.register a).mapEntries (s.modEntries E)
      (ModEntry.fnCachePrewarm E (s.register a).hookIdHd.entries)).setErr xyOk).hooks =
      (s.register a).hooks := by
  have h : ((s.register a).mapEntries (s.modEntries E)
      (ModEntry.fnCachePrewarm E (s.register a).hookIdHd.entries)).core = (s.register a).core :=
    mapEntries_core fun e => ModEntry.fnCachePrewarm_core E _ e
  exact congrArg Core.hooks h

theorem xyAreg_new {a : AdapterPtr} (hfit : (s.adapters a).retSize ≤ xyMaxRetSize)
    (hs : s.sicaHd (s.adapters a).name = none) : (s.xyAreg E a).1 =
      ((s.register a).mapEntries (s.modEntries E)
        (ModEntry.fnCachePrewarm E (s.register a).hookIdHd.entries)).setErr xyOk := by
  unfold xyAreg
  simp only [not_lt.mpr hfit, if_false, hs]
  rfl

theorem register_name (s : Runtime) (a b : AdapterPtr) :
    ((s.register a).adapters b).name = (s.adapters b).name := by
  show (Function.update s.adapters a { s.adapters a with hookId := some s.hookIdCounter } b).name = _
  rw [Function.update_apply]
  split
  · rename_i hb
    rw [hb]
  · rfl

theorem Hooks.Follows.taken {a : AdapterPtr} (h : s.hooks.Follows A name none)
    (hreg : (A a).name = name) (hfit : (A a).retSize ≤ xyMaxRetSize) :
    (s.register a).hooks.Follows A name (some a) := by
  obtain ⟨-, hsame⟩ := h.free rfl
  have ha : s.adapters a = A a := hsame a hreg
  have hname : (s.adapters a).name = name := (h.names a).trans hreg
  have hadapters : (s.register a).adapters =
      Function.update s.adapters a { A a with hookId := some s.hookIdCounter } :=
    congrArg (fun x : Adapter =>
      Function.update s.adapters a { x with hookId := some s.hookIdCounter }) ha
  refine ⟨fun b => (register_name s a b).trans (h.names b), fun hn => (by cases hn), fun f hf => ?_⟩
  cases hf
  refine ⟨s.hookIdCounter, ?_, ?_, Function.update_self _ _ _, ?_, hfit, hreg, ?_, fun b hb => ?_⟩
  · show Function.update s.sicaHd (s.adapters a).name (some a) name = _
    rw [hname, Function.update_self]
  · show (s.hookIdHd.insert (s.adapters a).name s.hookIdCounter).lookup name = _
    rw [hname]
    exact AList.lookup_insert _
  · show s.hookIdCounter < if s.adapterByIdCap ≤ s.hookIdCounter then s.hookIdCounter + 16
      else s.adapterByIdCap
    split <;> omega
  · exact (congrFun hadapters a).trans (Function.update_self _ _ _)
  · by_cases hba : b = a
    · rw [hba, Adapter.resolveTo_self]
      exact .inr ((congrFun hadapters a).trans (Function.update_self _ _ _))
    · exact .inl ((congrFun hadapters b).trans ((Function.update_of_ne hba _ _).trans (hsame b hb)))

theorem Hooks.Follows.passed {a : AdapterPtr} (h : s.hooks.Follows A name first) (hr : Registry s)
    (hreg : (A a).name ≠ name) : (s.register a).hooks.Follows A name first := by
  have hne : name ≠ (s.adapters a).name := fun hn => hreg ((h.names a).symm.trans hn.symm)
  have hsica : (s.register a).sicaHd name = s.sicaHd name := Function.update_of_ne hne _ _
  refine ⟨fun b => (register_name s a b).trans (h.names b), fun hn => ⟨hsica.trans (h.free hn).1,
    fun b hb => (update_unnamed hreg hb).trans ((h.free hn).2 b hb)⟩, fun f hf => ?_⟩
  obtain ⟨i, hi⟩ := h.held f hf
  have hlt : i < s.hookIdCounter := hr.lt name i hi.lookup
  refine ⟨i, hsica.trans hi.sica, ?_, ?_, ?_, hi.fits, hi.named,
    (update_unnamed hreg hi.named).trans hi.first,
    fun b hb => (hi.others b hb).imp (update_unnamed hreg hb).trans (update_unnamed hreg hb).trans⟩
  · show (s.hookIdHd.insert (s.adapters a).name s.hookIdCounter).lookup name = _
    rw [AList.lookup_insert_ne hne]
    exact hi.lookup
  · exact (Function.update_of_ne (Nat.ne_of_lt hlt) _ _).trans hi.byId
  · have hcap : i < s.adapterByIdCap := hi.lt
    show i < if s.adapterByIdCap ≤ s.hookIdCounter then s.hookIdCounter + 16 else s.adapterByIdCap
    split <;> omega

/-- Registering an adapter: the first of the name takes it, any other changes nothing. -/
theorem Hooks.Follows.areg {a : AdapterPtr} (h : s.hooks.Follows A name first) (hr : Registry s) :
    (s.xyAreg E a).1.hooks.Follows A name (first.or ((Event.areg a).registers A name)) := by
  show (s.xyAreg E a).1.hooks.Follows A name
    (first.or (if (A a).name = name ∧ (A a).retSize ≤ xyMaxRetSize then some a else none))
  have hname : (s.adapters a).name = (A a).name := h.names a
  by_cases hreg : (A a).name = name
  · cases hfirst : first with
    | some f =>
        subst hfirst
        obtain ⟨i, hi⟩ := h.held f rfl
        have hsica : s.sicaHd (s.adapters a).name = some f := by
          rw [hname, hreg]
          exact hi.sica
        rcases xyAreg_cases E s a with ⟨e, he⟩ | ⟨hs, -⟩
        · rw [he]
          exact h
        · cases hsica.symm.trans hs
    | none =>
        subst hfirst
        obtain ⟨hsica, hsame⟩ := h.free rfl
        have ha : s.adapters a = A a := hsame a hreg
        by_cases hfit : (A a).retSize ≤ xyMaxRetSize
        · rw [if_pos ⟨hreg, hfit⟩, Option.none_or]
          have hs : s.sicaHd (s.adapters a).name = none := by
            rw [hname, hreg]
            exact hsica
          rw [xyAreg_new (ha ▸ hfit) hs, register_hooks]
          exact h.taken hreg hfit
        · rw [if_neg fun hc => hfit hc.2, Option.none_or]
          have he : (s.xyAreg E a).1 = s.setErr xyErrTooBig := by
            unfold xyAreg
            simp only [ha, not_le.mp hfit, if_true]
          rw [he]
          exact h
  · rw [if_neg fun hc => hreg hc.1, Option.or_none]
    rcases xyAreg_cases E s a with ⟨e, he⟩ | ⟨hs, he⟩
    · rw [he]
      exact h
    · rw [he, register_hooks]
      exact h.passed hr hreg

end Registry

section Runs
variable {E : Env} {s t s₀ : State} {tr : List (State × Event)} {name : String}

/-- What a call does to the adapters it does when it resolves its own. -/
theorem xyCall_hooks {retp : Option BufPtr} {reg : AdapterPtr} {r : Runtime × (Int ⊕ CallFrame)}
    (h : s.rt.xyCall E retp (some reg) = .ok r) : r.1.hooks = (s.rt.callResolve reg).1.hooks := by
  have loop : ∀ {m : Runtime} {left : Nat} {f : CallFrame}, m.callLoop left f = .ok r →
      r.1.hooks = m.hooks := by
    intro m left f hl
    have hturn : Turn m [] f (State.afterCall [] [] r) := callLoop_turn hl
    obtain ⟨ctxs, id, re, hc⟩ := hturn.core_eq
    rw [afterCall_rt] at hc
    exact congrArg Core.hooks hc
  obtain ⟨⟨m, out⟩, hm, h⟩ := Res.bind_ok.mp h
  cases callPrepare_way hm with
  | fails ret hr =>
      cases h
      exact congrArg Core.hooks (callFail_core _ _ _ _)
  | denied i call hr hd =>
      cases h
      exact congrArg Core.hooks (callFail_core _ _ _ _)
  | nowhere i call hr hd hc =>
      exact loop (m := (s.rt.callResolve reg).1.callBegin retp reg) h
  | loops i call hr hd r' hc t ht => exact (loop h).trans (congrArg Core.hooks (callVector_core ht))

inductive HooksWay (E : Env) (s t : State) : Event → Prop
  | areg (a : AdapterPtr) (h : t.rt = (s.rt.xyAreg E a).1) : HooksWay E s t (.areg a)
  | call (retp : Option BufPtr) (reg : AdapterPtr)
      (h : t.rt.hooks = (s.rt.callResolve reg).1.hooks) : HooksWay E s t (.call retp (some reg))
  | same {e : Event} (he : ∀ a, e ≠ .areg a) (h : t.rt.hooks = s.rt.hooks) : HooksWay E s t e

theorem step_hooks {e : Event} (hi : Inv E s) (h : Xylem.step E s e = .ok t) :
    HooksWay E s t e := by
  have heff := step_effect hi h
  cases e with
  | areg a =>
      cases h
      exact .areg a rfl
  | call retp reg =>
      obtain ⟨r, hr, rfl⟩ := Res.map_ok.mp h
      cases reg with
      | none =>
          cases hr
          exact .same (by simp) rfl
      | some reg => exact .call retp reg (by rw [afterCall_rt, xyCall_hooks hr])
  | load fname ch =>
      cases heff with
      | load out hl hs => exact .same (by simp) hl.frame.hooks
  | unload fname fuel =>
      cases heff with
      | unload m ret hu hc hs =>
          exact .same (by simp) ((congrArg Core.hooks hc).trans
            (congrArg Core.hooks (modUnload_unloaded fuel hu).core))
  | reload fname ch fuel =>
      cases heff with
      | reload out hr hs =>
          cases hr with
          | missing hl ht => exact .same (by simp) (congrArg Core.hooks ht)
          | back p e hl he m hu m' ret hload ht =>
              exact .same (by simp) ((congrArg Core.hooks ht).trans (hload.frame.hooks.trans
                (congrArg Core.hooks (modUnload_unloaded fuel hu).core)))
          | waits p e hl he m hu f hload =>
              exact .same (by simp) (hload.frame.hooks.trans
                (congrArg Core.hooks (modUnload_unloaded fuel hu).core))
  | selfInitCtx c =>
      cases heff with
      | selfInitCtx hc hs => exact .same (by simp) (congrArg Core.hooks hc)
  | deny what type =>
      cases heff with
      | deny r hr hc hs => exact .same (by simp) (congrArg Core.hooks hc)
  | requireClaim fn ud =>
      cases heff with
      | requireClaim r hr hc hs => exact .same (by simp) (congrArg Core.hooks hc)
  | last ret =>
      cases heff with
      | last hc hs => exact .same (by simp) (congrArg Core.hooks hc)
  | withRegion id =>
      cases heff with
      | noRegion hc hs => exact .same (by simp) (congrArg Core.hooks hc)
      | withRegion r hr hc hs => exact .same (by simp) (congrArg Core.hooks hc)
  | bodyRet result =>
      cases heff with
      | bodyRet f stack hst ht =>
          obtain ⟨ctxs, id, r, hc⟩ := ht.core_eq
          refine .same (by simp) ((congrArg Core.hooks hc).trans ?_)
          show (s.rt.bodyLeft f result).core.hooks = _
          rw [bodyLeft_core]
          split <;> rfl
  | installRet =>
      cases heff with
      | installRet f stack hst hc hs => exact .same (by simp) (congrArg Core.hooks hc)
  | scopeRet code =>
      cases heff with
      | scopeRet id r stack hst hc hs => exact .same (by simp) (congrArg Core.hooks hc)

theorem Hooks.Follows.step {A : AdapterPtr → Adapter} {first : Option AdapterPtr} {e : Event}
    (hf : s.rt.hooks.Follows A name first) (hi : Inv E s) (h : Xylem.step E s e = .ok t)
    (hA : ∀ b, (A b).name = name → (A b).hookId = none) :
    t.rt.hooks.Follows A name (first.or (e.registers A name)) := by
  cases step_hooks hi h with
  | areg a ht =>
      rw [ht]
      exact hf.areg hi.registry
  | call retp reg ht =>
      show Hooks.Follows _ A name (first.or none)
      rw [ht, Option.or_none]
      exact hf.callResolve hi.registry hA
  | same he ht =>
      have hnone : e.registers A name = none := by
        cases e with
        | areg a => exact absurd rfl (he a)
        | _ => rfl
      rw [ht, hnone, Option.or_none]
      exact hf

theorem unregistered (h : Registry s.rt) (hnew : s.rt.sicaHd name = none) :
    ∀ b, (s.rt.adapters b).name = name → (s.rt.adapters b).hookId = none := by
  intro b hb
  cases hid : (s.rt.adapters b).hookId with
  | none => rfl
  | some i =>
      have hlook := h.held b i hid
      have hsica := h.sica (s.rt.adapters b).name
      rw [hlook, hb, hnew] at hsica
      cases hsica

/-- After every run the registry follows the first registrant of its events. -/
theorem registry_follows (h : Runs E s₀ tr s) (hnew : s₀.rt.sicaHd name = none) :
    s.rt.hooks.Follows s₀.rt.adapters name (firstRegistrant s₀.rt.adapters name (tr.map (·.2))) := by
  have hA := unregistered h.1.registry hnew
  refine h.2.invariant_trace (C := fun _ _ _ => True)
    (P := fun tr s => Inv E s ∧
      s.rt.hooks.Follows s₀.rt.adapters name (firstRegistrant s₀.rt.adapters name (tr.map (·.2))))
    ?_ (fun _ _ _ _ => trivial) ⟨Inv.boot h.1, fun b => rfl, fun _ => ⟨hnew, fun b _ => rfl⟩,
      fun f hf => (by cases hf)⟩ |>.2
  intro tr m e t hs _ ⟨hi, hf⟩
  refine ⟨hi.step hs, ?_⟩
  rw [List.map_append, firstRegistrant, List.findSome?_append]
  have hone : List.findSome? (Event.registers s₀.rt.adapters name) ([(m, e)].map (·.2)) =
      e.registers s₀.rt.adapters name := by
    simp
  rw [hone]
  exact hf.step hi hs hA

end Runs

section Walk
variable {E : Env} {m : Runtime} {stack : List Frame} {f : CallFrame}

/-- The slots that the frame has not come to yet. -/
def Runtime.toWalk (m : Runtime) (f : CallFrame) : List Slot :=
  (((m.regions f.callerRegion).hookDispatch f.hookId).slots.drop f.mi).take (f.n - f.mi)

/-- The entry that a slot calls into. -/
def Runtime.callee (m : Runtime) (slot : Slot) : Option EntryPtr :=
  match m.entries slot.me, slot.cb with
  | some me, .fn _ => if me.ctx.isSome then some slot.me else none
  | _, _ => none

/-- The captured array is still the vector's, and no marker would be called as a function. -/
structure Runtime.Captured (m : Runtime) (f : CallFrame) : Prop where
  block : ((m.regions f.callerRegion).hookDispatch f.hookId).block = f.block
  n_le : f.n ≤ ((m.regions f.callerRegion).hookDispatch f.hookId).slots.length
  noMarker : ∀ slot ∈ m.toWalk f, slot.cb ≠ .notFound

/-- Every entry on it is live, too. -/
structure Runtime.CanWalk (m : Runtime) (f : CallFrame) : Prop extends m.Captured f where
  live : ∀ slot ∈ m.toWalk f, m.entries slot.me ≠ none

theorem toWalk_cons (hn : f.n ≤ ((m.regions f.callerRegion).hookDispatch f.hookId).slots.length)
    (hlt : f.mi < f.n) : ∃ slot,
      ((m.regions f.callerRegion).hookDispatch f.hookId).slots[f.mi]? = some slot ∧
        m.toWalk f = slot :: m.toWalk { f with mi := f.mi + 1 } := by
  have hlen := Nat.lt_of_lt_of_le hlt hn
  refine ⟨_, List.getElem?_eq_getElem hlen, ?_⟩
  unfold Runtime.toWalk
  rw [List.drop_eq_getElem_cons hlen, show f.n - f.mi = f.n - (f.mi + 1) + 1 by omega,
    List.take_succ_cons]

theorem Runtime.Captured.next {n : Runtime} {g : CallFrame} {slot : Slot} (h : m.Captured f)
    (hw : m.toWalk f = slot :: m.toWalk { f with mi := f.mi + 1 }) (hr : n.regions = m.regions)
    (he : n.entries = m.entries) (hg : g.callerRegion = f.callerRegion ∧ g.hookId = f.hookId ∧
      g.block = f.block ∧ g.n = f.n ∧ g.mi = f.mi + 1) :
    n.Captured g ∧ n.toWalk g = m.toWalk { f with mi := f.mi + 1 } ∧ n.callee = m.callee := by
  obtain ⟨h1, h2, h3, h4, h5⟩ := hg
  have hwalk : n.toWalk g = m.toWalk { f with mi := f.mi + 1 } := by
    simp only [Runtime.toWalk, h1, h2, h4, h5, hr]
  refine ⟨⟨?_, ?_, fun slot hs => ?_⟩, hwalk, ?_⟩
  · rw [hr, h1, h2, h3]
    exact h.block
  · rw [hr, h1, h2, h4]
    exact h.n_le
  · exact h.noMarker slot (hw ▸ List.mem_cons_of_mem _ (hwalk ▸ hs))
  · funext slot
    simp only [Runtime.callee, he]

theorem Runtime.CanWalk.next {n : Runtime} {g : CallFrame} {slot : Slot} (h : m.CanWalk f)
    (hw : m.toWalk f = slot :: m.toWalk { f with mi := f.mi + 1 }) (hr : n.regions = m.regions)
    (he : n.entries = m.entries) (hg : g.callerRegion = f.callerRegion ∧ g.hookId = f.hookId ∧
      g.block = f.block ∧ g.n = f.n ∧ g.mi = f.mi + 1) :
    n.CanWalk g ∧ n.toWalk g = m.toWalk { f with mi := f.mi + 1 } ∧ n.callee = m.callee := by
  obtain ⟨hc, hwalk, hcallee⟩ := h.toCaptured.next hw hr he hg
  refine ⟨⟨hc, fun slot hs => ?_⟩, hwalk, hcallee⟩
  rw [he]
  exact h.live slot (hw ▸ List.mem_cons_of_mem _ (hwalk ▸ hs))

theorem bodyLeft_same (m : Runtime) (f : CallFrame) (result : Bytes) :
    (m.bodyLeft f result).regions = m.regions ∧ (m.bodyLeft f result).entries = m.entries := by
  unfold bodyLeft
  cases f.retp <;> cases f.regionChanged <;> exact ⟨rfl, rfl⟩

theorem callEnter_entries (m : Runtime) (f : CallFrame) (p : EntryPtr) (me : ModEntry) (c : CtxPtr) :
    (m.callEnter f p me c).1.entries = m.entries := by
  simp only [callEnter]
  split <;> rfl

theorem bodyReturn_loop {result : Bytes} (h : result.length = f.dispatchCall.retSize) :
    m.bodyReturn f result = (m.bodyLeft f result).callLoop (f.n - (f.mi + 1))
      { f with mi := f.mi + 1, ran := f.ran + 1 } := by
  unfold bodyReturn
  rw [if_neg (not_not.mpr h)]
  rfl

theorem callLoop_skip {left : Nat} {slot : Slot} {me : ModEntry}
    (hb : ((m.regions f.callerRegion).hookDispatch f.hookId).block = f.block)
    (hslot : ((m.regions f.callerRegion).hookDispatch f.hookId).slots[f.mi]? = some slot)
    (hme : m.entries slot.me = some me) (hs : me.ctx = none ∨ slot.cb = .null) :
    m.callLoop (left + 1) f = m.callLoop left { f with mi := f.mi + 1 } := by
  have hd : m.deref slot.me = .ok me := deref_ok.mpr hme
  conv_lhs => unfold callLoop
  simp only [hb, ne_eq, not_true_eq_false, if_false, hslot, hd]
  rcases hs with hc | hc
  · simp only [bind, Except.bind, hc]
  · cases hctx : me.ctx with
    | none => simp only [bind, Except.bind, hctx]
    | some c => simp only [bind, Except.bind, hctx, hc]

theorem callLoop_enter {left : Nat} {slot : Slot} {me : ModEntry} {c : CtxPtr} {fn : Fn}
    (hb : ((m.regions f.callerRegion).hookDispatch f.hookId).block = f.block)
    (hslot : ((m.regions f.callerRegion).hookDispatch f.hookId).slots[f.mi]? = some slot)
    (hme : m.entries slot.me = some me) (hc : me.ctx = some c) (hcb : slot.cb = .fn fn) :
    m.callLoop (left + 1) f =
      .ok ((m.callEnter f slot.me me c).1, .inr (m.callEnter f slot.me me c).2) := by
  have hd : m.deref slot.me = .ok me := deref_ok.mpr hme
  unfold callLoop
  simp only [hb, ne_eq, not_true_eq_false, if_false, hslot, hd, bind, Except.bind, hc, hcb]

/-- When each body does nothing but return, the loop calls into every entry of `ran`, in
order, and comes to its end with the last return. -/
def Finishes (E : Env) (stack : List Frame) (m : Runtime) (left : Nat) (f : CallFrame)
    (ran : List EntryPtr) : Prop :=
  ∃ r, m.callLoop left f = .ok r ∧ ∀ results : List Bytes, results.length = ran.length →
    (∀ b ∈ results, b.length = f.dispatchCall.retSize) →
    ∃ u, Run.exec (step E) (State.afterCall stack f.invoked r) (results.map .bodyRet) = .ok u ∧
      u.stack = stack ∧ u.status =
        .returned (if f.ran + ran.length = 0 then xyErrNotFound else xyOk) (f.invoked ++ ran) ∧
      ∀ x ∈ Run.trace (step E) (State.afterCall stack f.invoked r) (results.map .bodyRet),
        x.1.stack ≠ stack

theorem walk_finishes {left : Nat} (hn : f.mi + left = f.n) (hw : m.CanWalk f) {ran : List EntryPtr}
    (hran : (m.toWalk f).filterMap m.callee = ran) : Finishes E stack m left f ran := by
  induction left generalizing m f ran with
  | zero =>
      have hnil : ran = [] := by
        rw [← hran, Runtime.toWalk, show f.n - f.mi = 0 by omega]
        rfl
      subst hnil
      refine ⟨_, rfl, fun results hr _ => ?_⟩
      rw [List.eq_nil_of_length_eq_zero hr]
      refine ⟨_, rfl, rfl, ?_, fun x hx => absurd hx List.not_mem_nil⟩
      have hret : (m.callFinish f).2 = if f.ran + 0 = 0 then xyErrNotFound else xyOk := by
        simp only [callFinish, Nat.add_zero]
        split <;> rfl
      rw [List.append_nil]
      exact congrArg (Status.returned · f.invoked) hret
  | succ left ih =>
      obtain ⟨slot, hslot, hcons⟩ := toWalk_cons hw.n_le (by omega)
      have hmem : slot ∈ m.toWalk f := hcons ▸ List.mem_cons_self
      obtain ⟨me, hme⟩ := Option.ne_none_iff_exists'.mp (hw.live slot hmem)
      have hnext : f.mi + 1 + left = f.n := by omega
      rw [hcons] at hran
      -- a slot that is passed over
      have skip : me.ctx = none ∨ slot.cb = .null → m.callee slot = none →
          Finishes E stack m (left + 1) f ran := by
        intro hs hnone
        obtain ⟨hw', -⟩ := hw.next (g := { f with mi := f.mi + 1 }) hcons rfl rfl
          ⟨rfl, rfl, rfl, rfl, rfl⟩
        rw [List.filterMap_cons_none hnone] at hran
        obtain ⟨r, hr, hall⟩ := ih (f := { f with mi := f.mi + 1 }) hnext hw' hran
        exact ⟨r, (callLoop_skip hw.block hslot hme hs).trans hr, hall⟩
      cases hctx : me.ctx with
      | none =>
          refine skip (.inl hctx) ?_
          cases hcb : slot.cb <;> simp [Runtime.callee, hme, hctx, hcb]
      | some c =>
          cases hfn : slot.cb with
          | null =>
              refine skip (.inr hfn) ?_
              simp only [Runtime.callee, hme, hfn]
          | notFound => exact absurd hfn (hw.noMarker slot hmem)
          | fn fn =>
              have hsome : m.callee slot = some slot.me := by
                simp only [Runtime.callee, hme, hfn, hctx, Option.isSome_some, if_true]
              rw [List.filterMap_cons_some hsome] at hran
              refine ⟨_, callLoop_enter hw.block hslot hme hctx hfn, fun results hlen hsize => ?_⟩
              have hents := callEnter_entries m f slot.me me c
              have hregs := callEnter_regions m f slot.me me c
              generalize hg : (m.callEnter f slot.me me c).2 = g
              generalize (m.callEnter f slot.me me c).1 = n at hents hregs
              obtain ⟨h1, h2, h3, h4, h5, h6, h7, h8⟩ : g.callerRegion = f.callerRegion ∧
                  g.hookId = f.hookId ∧ g.block = f.block ∧ g.n = f.n ∧ g.mi = f.mi ∧
                  g.dispatchCall = f.dispatchCall ∧ g.ran = f.ran ∧
                  g.invoked = f.invoked ++ [slot.me] := by
                rw [← hg]
                exact ⟨rfl, rfl, rfl, rfl, rfl, rfl, rfl, rfl⟩
              cases results with
              | nil =>
                  rw [← hran] at hlen
                  cases hlen
              | cons b results =>
                  -- the body returns, and the walk goes on from the slot after it
                  have hb : b.length = g.dispatchCall.retSize := by
                    rw [h6]
                    exact hsize b List.mem_cons_self
                  obtain ⟨hr, he⟩ := bodyLeft_same n g b
                  obtain ⟨hw', hwalk, hcallee⟩ := hw.next (n := n.bodyLeft g b)
                    (g := { g with mi := g.mi + 1, ran := g.ran + 1 }) hcons (hr.trans hregs)
                    (he.trans hents) ⟨h1, h2, h3, h4, congrArg (· + 1) h5⟩
                  rw [← hran] at hlen ⊢
                  obtain ⟨r, hloop, hall⟩ := ih (m := n.bodyLeft g b)
                    (f := { g with mi := g.mi + 1, ran := g.ran + 1 })
                    (show g.mi + 1 + left = g.n by omega) hw' (by rw [hwalk, hcallee])
                  obtain ⟨u, hu, hstack, hstatus, habove⟩ := hall results (by simpa using hlen)
                    fun b' hb' => by
                      show b'.length = g.dispatchCall.retSize
                      rw [h6]
                      exact hsize b' (List.mem_cons_of_mem _ hb')
                  have hnext : step E (State.afterCall stack f.invoked (n, .inr g)) (.bodyRet b) =
                      .ok (State.afterCall stack g.invoked r) := by
                    show (n.bodyReturn g b).map (State.afterCall stack g.invoked) = _
                    rw [bodyReturn_loop hb, show g.n - (g.mi + 1) = left by omega, hloop]
                    rfl
                  refine ⟨u, Run.exec_cons hnext hu, hstack, ?_, fun x hx => ?_⟩
                  · rw [hstatus]
                    have hcount : ∀ k, f.ran + 1 + k = f.ran + (k + 1) := fun k => by omega
                    simp only [h7, h8, List.append_assoc, List.singleton_append, List.length_cons,
                      hcount]
                  · rw [List.map_cons, Run.trace_cons hnext] at hx
                    rcases List.mem_cons.mp hx with rfl | hx
                    · exact List.cons_ne_self _ _
                    · exact habove x hx

end Walk

/-- The frame of a call that is about to walk the vector of hook `i` in region `r`. -/
def Runtime.vectorFrame (m : Runtime) (retp : Option BufPtr) (reg : AdapterPtr) (i : Nat)
    (tramp : Trampoline) (r : RegionPtr) : CallFrame :=
  m.callFrame retp reg i tramp r ((m.regions r).hookDispatch i).block
    ((m.regions r).hookDispatch i).count

end Xylem

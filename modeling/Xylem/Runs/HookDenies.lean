import Xylem.Runs.Reply
import Xylem.Runs.Trees

namespace Xylem

open Xylem.Runtime

/-- `xy_deny(what, type)` was executed while region `A` was current. -/
def DenyRan (tr : List (State × Event)) (A : RegionPtr) (what : String) (type : DenyType) : Prop :=
  ∃ m : State, (m, .deny what type) ∈ tr ∧ m.rt.regionHd m.rt.currentRegionId = some A

/-- What the tree records of the denies executed so far. -/
structure DenyLog (tr : List (State × Event)) (T : Tree) : Prop where
  region : ∀ A what type, DenyRan tr A what type → A < T.next
  hooks : ∀ A h, h ∈ (T.node A).deniedHooksSet ↔ DenyRan tr A h .hook
  flag : ∀ R, (T.node R).hasDeny = true ↔
    ∃ B what type, DenyRan tr B what type ∧ Forest.Anc T.parentOf R B

namespace DenyLog
variable {tr : List (State × Event)} {T T' : Tree}

theorem same (h : DenyLog tr T) (hn : T'.next = T.next) (hp : T'.parentOf = T.parentOf)
    (hr : ∀ r, (T'.node r).deniedHooksSet = (T.node r).deniedHooksSet ∧
      (T'.node r).hasDeny = (T.node r).hasDeny) : DenyLog tr T' := by
  refine ⟨fun A what type ha => hn ▸ h.region A what type ha, fun A x => ?_, fun R => ?_⟩
  · rw [(hr A).1]
    exact h.hooks A x
  · rw [(hr R).2, hp]
    exact h.flag R

theorem fewer (h : DenyLog tr T) (hf : Tree.FewerDenies T T') : DenyLog tr T' := by
  refine h.same hf.next hf.parentOf fun x => ?_
  obtain ⟨m, f, hx⟩ := hf.node x
  rw [hx]
  exact ⟨rfl, rfl⟩

theorem gate (h : DenyLog tr T) (r : RegionPtr) (fn : Option HandlerPtr) (ud : Nat) :
    DenyLog tr (T.gate r fn ud) := by
  refine h.same rfl (Tree.gate_parentOf T r fn ud) fun x => ?_
  obtain ⟨-, hflag, hhooks⟩ := Tree.gate_node T r x fn ud
  exact ⟨hhooks, hflag⟩

/-- A new region has no denies and no flag, and the regions above the others stay. -/
theorem claim (h : DenyLog tr T) (hok : T.Ok) {r : RegionPtr} {bits : UInt8} {k : Nat}
    (hc : T.Claims r bits k) : DenyLog tr (T.claim r (T.slotId r bits k) bits) := by
  have hnode := Tree.claim_node T hc.region (T.slotId r bits k) bits
  have hnew : ∀ A what type, DenyRan tr A what type → A ≠ T.next :=
    fun A what type ha => (h.region A what type ha).ne
  have hbeyond := hok.beyond T.next le_rfl
  have hrules : ∀ x, ((T.claim r (T.slotId r bits k) bits).node x).deniedHooksSet =
      (T.node x).deniedHooksSet ∧
      ((T.claim r (T.slotId r bits k) bits).node x).hasDeny = (T.node x).hasDeny := by
    intro x
    rw [hnode]
    by_cases hx : x = r
    · rw [if_pos hx, hx]
      exact ⟨rfl, rfl⟩
    · rw [if_neg hx]
      split
      · rename_i hn
        rw [hn, hbeyond]
        exact ⟨rfl, rfl⟩
      · exact ⟨rfl, rfl⟩
  refine ⟨fun A what type ha => (h.region A what type ha).trans (Nat.lt_succ_self _),
    fun A x => ?_, fun R => ?_⟩
  · rw [(hrules A).1]
    exact h.hooks A x
  · rw [(hrules R).2, h.flag R]
    refine exists_congr fun B => exists_congr fun what => exists_congr fun type =>
      and_congr_right fun hB => ?_
    exact (hok.claim_anc hc.region _ _ (hnew B what type hB)).symm

theorem congr (h : DenyLog tr T) {s : State} {e : Event} (he : ∀ what type, e ≠ .deny what type) :
    DenyLog (tr ++ [(s, e)]) T := by
  have hran : ∀ A what type, DenyRan (tr ++ [(s, e)]) A what type ↔ DenyRan tr A what type := by
    intro A what type
    refine exists_congr fun m => and_congr_left fun _ => ?_
    simp only [List.mem_append, List.mem_singleton, Prod.mk.injEq, or_iff_left_iff_imp]
    exact fun hm => absurd hm.2.symm (he what type)
  refine ⟨fun A what type ha => h.region A what type ((hran _ _ _).mp ha), fun A x => ?_, fun R => ?_⟩
  · rw [hran]
    exact h.hooks A x
  · simp only [hran]
    exact h.flag R

theorem deny (h : DenyLog tr T) (hok : T.Ok) (E : Env) {s : State} {what : String} {type : DenyType}
    {r : RegionPtr} (hr : s.rt.regionHd s.rt.currentRegionId = some r) (hrn : r < T.next) :
    DenyLog (tr ++ [(s, .deny what type)]) (T.deny E r what type) := by
  have hran : ∀ A w ty, DenyRan (tr ++ [(s, .deny what type)]) A w ty ↔
      DenyRan tr A w ty ∨ (A = r ∧ w = what ∧ ty = type) := by
    intro A w ty
    constructor
    · rintro ⟨m, hm, hA⟩
      rcases List.mem_append.mp hm with hm | hm
      · exact .inl ⟨m, hm, hA⟩
      · simp only [List.mem_singleton, Prod.mk.injEq, Event.deny.injEq] at hm
        obtain ⟨rfl, rfl, rfl⟩ := hm
        exact .inr ⟨Option.some.inj (hA.symm.trans hr), rfl, rfl⟩
    · rintro (⟨m, hm, hA⟩ | ⟨rfl, rfl, rfl⟩)
      · exact ⟨m, List.mem_append_left _ hm, hA⟩
      · exact ⟨s, by simp, hr⟩
  have hmem : ∀ x, x ∈ T.upward r ↔ Forest.Anc T.parentOf x r := fun x => hok.mem_upward hrn
  have hself : r ∈ T.upward r := (hmem r).mpr (.refl _)
  have hset : ∀ x y, y ∈ ((T.deny E r what type).node x).deniedHooksSet ↔
      y ∈ (T.node x).deniedHooksSet ∨ (x = r ∧ y = what ∧ type = .hook) := by
    intro x y
    by_cases hx : x = r
    · subst hx
      cases type <;> simp [Tree.deny, Tree.modify, Tree.addDeny, hself, or_comm]
    · by_cases hu : x ∈ T.upward r <;> simp [Tree.deny, Tree.modify, hx, hu]
  have hflag : ∀ x, ((T.deny E r what type).node x).hasDeny = true ↔
      (T.node x).hasDeny = true ∨ Forest.Anc T.parentOf x r := by
    intro x
    rw [← hmem]
    by_cases hu : x ∈ T.upward r
    · simp [Tree.deny, hu]
    · have hx : x ≠ r := fun hc => hu (hc ▸ hself)
      simp [Tree.deny, Tree.modify, hx, hu]
  have hpar := Tree.deny_parentOf E T r what type
  refine ⟨fun A w ty hA => ?_, fun A x => ?_, fun R => ?_⟩
  · rcases (hran A w ty).mp hA with hA | ⟨rfl, -, -⟩
    · exact h.region A w ty hA
    · exact hrn
  · rw [hset, hran, h.hooks]
    refine or_congr_right ⟨fun hx => ⟨hx.1, hx.2.1, hx.2.2.symm⟩, fun hx => ⟨hx.1, hx.2.1, hx.2.2.symm⟩⟩
  · rw [hflag, h.flag, hpar]
    constructor
    · rintro (⟨B, w, ty, hB, ha⟩ | ha)
      · exact ⟨B, w, ty, (hran _ _ _).mpr (.inl hB), ha⟩
      · exact ⟨r, what, type, (hran _ _ _).mpr (.inr ⟨rfl, rfl, rfl⟩), ha⟩
    · rintro ⟨B, w, ty, hB, ha⟩
      rcases (hran _ _ _).mp hB with hB | ⟨rfl, rfl, rfl⟩
      · exact .inl ⟨B, w, ty, hB, ha⟩
      · exact .inr ha

theorem boot {s : State} (h : Boot s) : DenyLog [] s.rt.tree := by
  have hran : ∀ A what type, ¬ DenyRan [] A what type := fun A what type ⟨m, hm, _⟩ => by cases hm
  have hnode := Inv.boot_node h
  refine ⟨fun A what type ha => absurd ha (hran A what type), fun A x => ?_, fun R => ?_⟩
  · rw [hnode]
    simp [hran]
  · rw [hnode]
    simp [hran]

end DenyLog

theorem Runs.denyLog {E : Env} {s₀ s : State} {tr : List (State × Event)} (h : Runs E s₀ tr s) :
    DenyLog tr s.rt.tree := by
  have key : Inv E s ∧ DenyLog tr s.rt.tree := by
    refine h.2.invariant_trace (C := fun _ _ _ => True) (P := fun tr s => Inv E s ∧ DenyLog tr s.rt.tree)
      ?_ (fun _ _ _ _ => trivial) ⟨Inv.boot h.1, DenyLog.boot h.1⟩
    rintro tr m e t hs - ⟨hi, hlog⟩
    obtain ⟨L, hw⟩ := hi.wf
    refine ⟨hi.step hs, ?_⟩
    cases step_tree hi hs with
    | deny what type r he hr hT =>
        subst he
        rw [hT]
        exact hlog.deny hw.tree E hr (hw.tree.hd_node _ _ hr).1
    | gate he r hr fn ud hT => exact hT ▸ (hlog.congr he).gate r fn ud
    | fewer he hT => exact (hlog.congr he).fewer hT
    | claims he m hm hok r bits k hg hk hT => exact hT ▸ ((hlog.congr he).fewer hm).claim hok hk
  exact key.2

namespace Runtime
variable {s : Runtime}

theorem mem_callChain (hok : s.tree.Ok) {R A : RegionPtr} :
    A ∈ s.callChain R ↔ (s.regions R).hasDeny = true ∧ Forest.Anc s.parentOf A R := by
  unfold callChain
  have hclimb : A ∈ s.regionAncestorChain R 65 ↔ Forest.Anc s.parentOf A R := by
    rw [regionAncestorChain, List.mem_reverse]
    refine Forest.mem_climb hok.plen_ranked ?_
    exact Nat.lt_succ_of_le (hok.plen_le R)
  split
  · rename_i hf
    rw [hclimb]
    exact (and_iff_right hf).symm
  · rename_i hf
    simp [hf]

/-- The adapter as `xy_call` uses it, with what it takes over when it is resolved. -/
def resolved (s : Runtime) (reg : AdapterPtr) (i : Nat) : Adapter :=
  let a := s.adapters reg
  match a.hookId, s.canonical i, a.call with
  | none, some c, none => { a with call := c.call, retSize := c.retSize, argSize := c.argSize }
  | _, _, _ => a

def withAdapter (s : Runtime) (reg : AdapterPtr) (a : Adapter) : Runtime :=
  { s with adapters := Function.update s.adapters reg a }

/-- The hook of this adapter is registered, and can be called. -/
def Callable (s : Runtime) (reg : AdapterPtr) : Prop :=
  ∃ i, ((s.adapters reg).hookId = some i ∨
      (s.adapters reg).hookId = none ∧ s.hookIdHd.lookup (s.adapters reg).name = some i) ∧
    (s.resolved reg i).retSize ≤ xyMaxRetSize ∧
    ((s.resolved reg i).call.isSome ∨ ∃ c, s.canonical i = some c ∧ c.call.isSome)

theorem callTrampoline_ok (s : Runtime) (reg : AdapterPtr) (i : Nat) :
    (∃ p, s.callTrampoline reg i = .ok p) ↔ (s.adapters reg).retSize ≤ xyMaxRetSize ∧
      ((s.adapters reg).call.isSome ∨ ∃ c, s.canonical i = some c ∧ c.call.isSome) := by
  unfold callTrampoline
  simp only
  split
  · rename_i hlt
    simp [not_le.mpr hlt]
  · rename_i hle
    rw [not_lt] at hle
    cases hcall : (s.adapters reg).call with
    | some t => simp [hle]
    | none =>
        cases hc : s.canonical i with
        | none => simp
        | some c => cases hcc : c.call <;> simp [hcc, hle]

theorem callable_iff (s : Runtime) (reg : AdapterPtr) :
    s.Callable reg ↔ ∃ p, (s.callResolve reg).2 = .ok p := by
  cases hid : (s.adapters reg).hookId with
  | some j =>
      have hres : s.callResolve reg = (s, s.callTrampoline reg j) := by
        simp only [callResolve, resolveHookId, hid]
      rw [hres, callTrampoline_ok]
      simp [Callable, resolved, hid]
  | none =>
      cases hl : s.hookIdHd.lookup (s.adapters reg).name with
      | none =>
          have hres : s.callResolve reg = (s, .error xyErrNotFound) := by
            simp only [callResolve, resolveHookId, hid, hl]
          simp [hres, Callable, hid, hl]
      | some j =>
          have hres : s.callResolve reg =
              (s.withAdapter reg { s.resolved reg j with hookId := some j },
                (s.withAdapter reg { s.resolved reg j with hookId := some j }).callTrampoline reg j) := by
            cases hc : s.canonical j with
            | none => simp only [callResolve, resolveHookId, hid, hl, resolved, hc, withAdapter]
            | some c =>
                cases hcall : (s.adapters reg).call <;>
                  simp only [callResolve, resolveHookId, hid, hl, resolved, hc, hcall, withAdapter]
          rw [hres, callTrampoline_ok]
          simp only [Callable, hid, hl, withAdapter, Function.update_self, reduceCtorEq, false_or,
            true_and, Option.some.injEq, exists_eq_left']
          refine and_congr_right fun _ => ?_
          cases hcall : (s.resolved reg j).call with
          | some t => simp
          | none =>
              simp only [Option.isSome_none, Bool.false_eq_true, false_or]
              have hself : (s.adapters reg).call = none := by
                cases hc : (s.adapters reg).call with
                | none => rfl
                | some t => simp [resolved, hid, hc] at hcall
              refine exists_congr fun c => and_congr_left fun hc => ?_
              simp only [canonical]
              split
              · cases hb : s.adapterById j with
                | none => simp
                | some b =>
                    by_cases hbr : b = reg
                    · subst hbr
                      simp only [Option.map_some, Function.update_self, Option.some.injEq]
                      constructor
                      · rintro rfl
                        simp [hself] at hc
                      · rintro rfl
                        simp at hc
                    · simp [Function.update_of_ne hbr]
              · simp

theorem callDenied_iff (hok : s.tree.Ok) {reg : AdapterPtr} {R : RegionPtr}
    (hR : s.callerRegion = some R) : s.callDenied reg = true ↔ (s.regions R).hasDeny = true ∧
      ∃ A, Forest.Anc s.parentOf A R ∧ (s.adapters reg).name ∈ (s.regions A).deniedHooksSet := by
  simp only [callDenied, hR, List.any_eq_true, decide_eq_true_eq, mem_callChain hok, and_assoc,
    exists_and_left]

/-- Resolving the adapter does not change whether its hook is denied. -/
theorem callDenied_resolve (s : Runtime) (reg : AdapterPtr) :
    (s.callResolve reg).1.callDenied reg = s.callDenied reg := by
  have hname := callResolve_name s reg reg
  obtain ⟨a, ha, -⟩ := callResolve_spec s reg
  rw [ha] at hname ⊢
  unfold callDenied
  rw [hname]
  rfl

theorem callFail_zeroed (s : Runtime) (b : BufPtr) (reg : AdapterPtr) (ret : Int) :
    let t := s.callFail (some b) reg ret
    (t.bufs b).take (t.adapters reg).retSize = List.replicate (t.adapters reg).retSize 0 := by
  simp [callFail, xySetLastRet, xyZeroRet, writeBuf]

end Runtime

/-- The call is refused: `XY_ERR_EPERM` at once, no body, and a cleared result. -/
def Refused (E : Env) (s : State) (retp : Option BufPtr) (reg : AdapterPtr) : Prop :=
  ∃ t, step E s (.call retp (some reg)) = .ok t ∧ t.stack = s.stack ∧
    t.status = .returned xyErrEperm [] ∧ ∀ b, retp = some b →
      (t.rt.bufs b).take (t.rt.adapters reg).retSize = List.replicate (t.rt.adapters reg).retSize 0

/-- Hook `h` has been denied in region `A` or above it. -/
def HookDenied (tr : List (State × Event)) (s : State) (R : RegionPtr) (h : String) : Prop :=
  ∃ A, DenyRan tr A h .hook ∧ Forest.Anc s.rt.parentOf A R

/-- A hook denied at or above the calling region is refused, and no other call
ever comes back with `XY_ERR_EPERM`. -/
def HookDenyReaches (E : Env) (tr : List (State × Event)) (s : State) (retp : Option BufPtr)
    (reg : AdapterPtr) : Prop :=
  (∀ R, s.rt.callerRegion = some R → HookDenied tr s R (s.rt.adapters reg).name →
      Refused E s retp reg) ∧
    ∀ R, s.rt.callerRegion = some R → ¬ HookDenied tr s R (s.rt.adapters reg).name →
      ∀ t ret ran, Replies E s retp (some reg) t ret ran → ret ≠ xyErrEperm

section Calls
variable {E : Env} {s₀ s : State} {tr : List (State × Event)}

/-- The loop of a call comes back with success or with `XY_ERR_NOTFOUND`. -/
theorem callLoop_ret {s : Runtime} {left : Nat} {f : CallFrame} {stack : List Frame}
    {ran ran' : List EntryPtr} {r : Runtime × (Int ⊕ CallFrame)} {ret : Int}
    (h : s.callLoop left f = .ok r)
    (hst : (State.afterCall stack ran r).status = .returned ret ran') : ret ≠ xyErrEperm := by
  obtain ⟨n, r⟩ := r
  cases callLoop_effect h with
  | ends hret ht =>
      simp only [State.afterCall, Status.returned.injEq] at hst
      rw [← hst.1]
      rcases hret with hr | hr <;> rw [hr] <;> decide
  | enters k p me c he hc ht => cases hst

theorem eperm_of_call {t : State} {retp : Option BufPtr} {reg : AdapterPtr} {ran : List EntryPtr}
    (h : step E s (.call retp (some reg)) = .ok t) (hst : t.status = .returned xyErrEperm ran) :
    s.rt.Callable reg ∧ s.rt.callDenied reg = true := by
  obtain ⟨r, hr, rfl⟩ := Res.map_ok.mp h
  obtain ⟨⟨m, out⟩, hm, hr⟩ := Res.bind_ok.mp hr
  cases callPrepare_way hm with
  | fails ret he =>
      cases hr
      simp only [State.afterCall, Status.returned.injEq] at hst
      rcases callResolve_error he with hr | hr <;> rw [hr] at hst <;>
        exact absurd hst.1 (by decide)
  | denied i call he hd => exact ⟨(callable_iff _ _).mpr ⟨_, he⟩, callDenied_resolve _ _ ▸ hd⟩
  | nowhere i call he hd hc => exact absurd rfl (callLoop_ret hr hst)
  | loops i call he hd R hR t ht => exact absurd rfl (callLoop_ret hr hst)

theorem refused_iff {retp : Option BufPtr} {reg : AdapterPtr} :
    Refused E s retp reg ↔ s.rt.Callable reg ∧ s.rt.callDenied reg = true := by
  constructor
  · rintro ⟨t, ht, -, hst, -⟩
    exact eperm_of_call ht hst
  · rintro ⟨hc, hd⟩
    obtain ⟨⟨i, call⟩, he⟩ := (callable_iff _ _).mp hc
    rw [← callDenied_resolve] at hd
    have hcall : s.rt.xyCall E retp (some reg) =
        .ok ((s.rt.callResolve reg).1.callFail retp reg xyErrEperm, .inl xyErrEperm) := by
      simp only [xyCall, callPrepare]
      rw [show s.rt.callResolve reg = ((s.rt.callResolve reg).1, .ok (i, call)) from
        Prod.ext rfl he]
      simp only [hd, if_true]
      rfl
    refine ⟨State.afterCall s.stack [] ((s.rt.callResolve reg).1.callFail retp reg xyErrEperm,
      .inl xyErrEperm), by rw [step, hcall]; rfl, rfl, rfl, fun b hb => ?_⟩
    subst hb
    exact callFail_zeroed _ b reg xyErrEperm

theorem bodyRet_not_eperm {m t : State} {result : Bytes} {ret : Int} {ran : List EntryPtr}
    (h : step E m (.bodyRet result) = .ok t) (hst : t.status = .returned ret ran) :
    ret ≠ xyErrEperm := by
  simp only [step] at h
  split at h
  · obtain ⟨r, hr, rfl⟩ := Res.map_ok.mp h
    exact callLoop_ret (bodyReturn_ok hr) hst
  · cases h

/-- A call comes back with `XY_ERR_EPERM` only when the walk it makes finds a deny. -/
theorem eperm_of_replies {t : State} {retp : Option BufPtr} {reg : AdapterPtr}
    {ran : List EntryPtr} (h : Replies E s retp (some reg) t xyErrEperm ran) :
    s.rt.callDenied reg = true := by
  have hst : t.status = .returned xyErrEperm ran := by
    obtain ⟨tr, -, -, -, hst⟩ := h
    exact hst
  rcases h.last with hs | ⟨m, f, result, -, -, -, -, hs⟩
  · exact (eperm_of_call hs hst).2
  · exact absurd rfl (bodyRet_not_eperm hs hst)

/-- What the walk of a call finds, in terms of the denies executed so far. -/
theorem callDenied_iff_ran (h : Runs E s₀ tr s) {reg : AdapterPtr} {R : RegionPtr}
    (hR : s.rt.callerRegion = some R) : s.rt.callDenied reg = true ↔
      (∃ B what type, DenyRan tr B what type ∧ Forest.Anc s.rt.parentOf R B) ∧
        HookDenied tr s R (s.rt.adapters reg).name := by
  obtain ⟨L, hw⟩ := h.inv.wf
  have hlog := h.denyLog
  rw [callDenied_iff hw.tree hR]
  refine and_congr (hlog.flag R) (exists_congr fun A => ?_)
  rw [and_comm]
  exact and_congr_left fun _ => hlog.hooks A _

/-- `xy_deny` of a hook reaches a call exactly when the hook can be called and
some deny was executed in the calling region itself or below it, since that is
what raises the flag there. -/
theorem hookDeny_reaches_iff (h : Runs E s₀ tr s) (retp : Option BufPtr) (reg : AdapterPtr) :
    HookDenyReaches E tr s retp reg ↔
      ∀ R, s.rt.callerRegion = some R → HookDenied tr s R (s.rt.adapters reg).name →
        s.rt.Callable reg ∧ ∃ B what type, DenyRan tr B what type ∧ Forest.Anc s.rt.parentOf R B := by
  constructor
  · intro hp R hR hd
    obtain ⟨h1, h2⟩ := refused_iff.mp (hp.1 R hR hd)
    exact ⟨h1, ((callDenied_iff_ran h hR).mp h2).1⟩
  · intro hc
    refine ⟨fun R hR hd => ?_, fun R hR hd t ret ran hrep hret => ?_⟩
    · obtain ⟨h1, h2⟩ := hc R hR hd
      exact refused_iff.mpr ⟨h1, (callDenied_iff_ran h hR).mpr ⟨h2, hd⟩⟩
    · subst hret
      exact hd ((callDenied_iff_ran h hR).mp (eperm_of_replies hrep)).2

theorem denyRan_of_any {A : RegionPtr} {what : String} {type : DenyType}
    (h : (tr.any fun x => decide (x.2 = .deny what type) &&
      decide (x.1.rt.regionHd x.1.rt.currentRegionId = some A)) = true) : DenyRan tr A what type := by
  obtain ⟨⟨m, e⟩, hm, hx⟩ := List.any_eq_true.mp h
  simp only [Bool.and_eq_true, decide_eq_true_eq] at hx
  obtain ⟨rfl, hA⟩ := hx
  exact ⟨m, hm, hA⟩

/-- A deny at the root reaches a call that a module makes in a region below, once the module
has denied anything there. -/
theorem hookDeny_reaches_child : ∃ s, Run.exec (step sampleEnv) sampleState
      [.areg 0, .deny "h" .hook, .requireClaim (some 0) 0,
        .load "m" { addr := 1, granted := 1 }, .deny "x" .hook] = .ok s ∧
    s.rt.callerRegion = some 1 ∧
    HookDenyReaches sampleEnv (Run.trace (step sampleEnv) sampleState
      [.areg 0, .deny "h" .hook, .requireClaim (some 0) 0,
        .load "m" { addr := 1, granted := 1 }, .deny "x" .hook]) s none 0 := by
  obtain ⟨s, hs, hobs⟩ := sample_check
    [.areg 0, .deny "h" .hook, .requireClaim (some 0) 0, .load "m" { addr := 1, granted := 1 },
      .deny "x" .hook]
    (fun s => decide (s.rt.callerRegion = some 1) && decide ((s.rt.adapters 0).hookId = some 0) &&
      decide ((s.rt.adapters 0).call = some { retSize := 1 }) && decide ((s.rt.adapters 0).retSize = 1))
    (by decide)
  simp only [Bool.and_eq_true, decide_eq_true_eq] at hobs
  obtain ⟨⟨⟨hR, hid⟩, hcall⟩, hsize⟩ := hobs
  refine ⟨s, hs, hR, (hookDeny_reaches_iff (sample_runs hs) none 0).mpr fun R hR' _ => ?_⟩
  obtain rfl : R = 1 := Option.some.inj (hR'.symm.trans hR)
  refine ⟨⟨0, .inl hid, ?_, .inl ?_⟩, 1, "x", .hook, denyRan_of_any (by decide), .refl _⟩
  · simp [resolved, hid, hsize, xyMaxRetSize]
  · simp [resolved, hid, hcall]

/-- The host denies `h` at the root; a module that claimed a region below calls
`h` from its `xy_install` all the same. -/
theorem hookDeny_misses_child : ∃ s, Run.exec (step sampleEnv) sampleState
      [.areg 0, .deny "h" .hook, .requireClaim (some 0) 0,
        .load "m" { addr := 1, granted := 1 }] = .ok s ∧
    ¬ HookDenyReaches sampleEnv (Run.trace (step sampleEnv) sampleState
      [.areg 0, .deny "h" .hook, .requireClaim (some 0) 0,
        .load "m" { addr := 1, granted := 1 }]) s none 0 := by
  obtain ⟨s, hs, hobs⟩ := sample_check
    [.areg 0, .deny "h" .hook, .requireClaim (some 0) 0, .load "m" { addr := 1, granted := 1 }]
    (fun s => decide (s.rt.callerRegion = some 1) && decide (s.rt.parentOf 1 = some 0) &&
      decide ((s.rt.adapters 0).name = "h") && decide (s.rt.callDenied 0 = false))
    (by decide)
  simp only [Bool.and_eq_true, decide_eq_true_eq] at hobs
  obtain ⟨⟨⟨hR, hparent⟩, hname⟩, hnot⟩ := hobs
  refine ⟨s, hs, fun h => ?_⟩
  have hran : HookDenied (Run.trace (step sampleEnv) sampleState [.areg 0, .deny "h" .hook,
      .requireClaim (some 0) 0, .load "m" { addr := 1, granted := 1 }]) s 1 (s.rt.adapters 0).name := by
    rw [hname]
    exact ⟨0, denyRan_of_any (by decide), .link hparent⟩
  have hd := (refused_iff.mp (h.1 1 hR hran)).2
  rw [hnot] at hd
  cases hd

end Calls
end Xylem

import Xylem.Runs.Trees
import Xylem.Runs.OwnState

/-!
# Who registered a deny

`module_remove_denies` goes by the path that is denied, not by who denied it. An entry of
a deny list is identified by the call of `xy_deny` that made it.
-/
namespace Xylem

open Xylem.Runtime

def denyTarget (E : Env) (what : String) : DenyType → String
  | .hook => what
  | .module => E.moduleLoadPath what

def Tree.Holds (T : Tree) (A : RegionPtr) (x : String) : DenyType → Prop
  | .hook => x ∈ (T.node A).deniedHooks
  | .module => x ∈ (T.node A).deniedModules

/-- A module whose code region and path a deny of type `type` on `x` in `A` names. -/
def ModEntry.DeniedBy (e : ModEntry) (A : RegionPtr) (x : String) (type : DenyType) : Prop :=
  type = .module ∧ e.regionEntry = some A ∧ e.loadPath = x

/-- `q` is live in `s` and gone in `t`. -/
def Removes (s t : Runtime) (q : EntryPtr) : Prop :=
  (∃ e, s.entries q = some e) ∧ t.entries q = none

namespace Runtime
variable {E : Env} {s t u : Runtime}

/-- What is left of the deny lists when entries go: the denies that do not name one of them. -/
structure DeniesLeft (s t : Runtime) : Prop where
  entry : ∀ q e', t.entries q = some e' →
    ∃ e, s.entries q = some e ∧ e'.regionEntry = e.regionEntry ∧ e'.loadPath = e.loadPath
  holds : ∀ A x type, t.tree.Holds A x type ↔ s.tree.Holds A x type ∧
    ¬ ∃ q e, s.entries q = some e ∧ t.entries q = none ∧ e.DeniedBy A x type

theorem DeniesLeft.of_core (h : t.core = s.core) : DeniesLeft s t := by
  have ht : t.tree = s.tree := core_tree h
  refine ⟨fun q e' he' => ?_, fun A x type => ?_⟩
  · obtain ⟨e, he, hc⟩ := entries_of_core h.symm he'
    exact ⟨e, he, (congrArg ModEntry.regionEntry hc : _).symm, (congrArg ModEntry.loadPath hc : _).symm⟩
  · rw [ht, iff_self_and]
    rintro - ⟨q, e, he, hgone, -⟩
    obtain ⟨e', he', -⟩ := entries_of_core h he
    rw [hgone] at he'
    cases he'

theorem DeniesLeft.trans (h : DeniesLeft s t) (k : DeniesLeft t u) : DeniesLeft s u := by
  refine ⟨fun q e' he' => ?_, fun A x type => ?_⟩
  · obtain ⟨e, he, h1, h2⟩ := k.entry q e' he'
    obtain ⟨e0, he0, h3, h4⟩ := h.entry q e he
    exact ⟨e0, he0, h1.trans h3, h2.trans h4⟩
  · rw [k.holds, h.holds, and_assoc]
    refine and_congr_right fun _ => ?_
    constructor
    · rintro ⟨hst, htu⟩ ⟨q, e, he, hgone, hd⟩
      cases hq : t.entries q with
      | none => exact hst ⟨q, e, he, hq, hd⟩
      | some e' =>
          obtain ⟨e0, he0, h1, h2⟩ := h.entry q e' hq
          cases he.symm.trans he0
          exact htu ⟨q, e', hq, hgone, hd.1, h1.trans hd.2.1, h2.trans hd.2.2⟩
    · intro hsu
      refine ⟨fun ⟨q, e, he, hgone, hd⟩ => ?_, fun ⟨q, e', he', hgone, hd⟩ => ?_⟩
      · apply hsu
        refine ⟨q, e, he, ?_, hd⟩
        cases hq : u.entries q with
        | none => rfl
        | some e' =>
            obtain ⟨e0, he0, -⟩ := k.entry q e' hq
            rw [hgone] at he0
            cases he0
      · obtain ⟨e, he, h1, h2⟩ := h.entry q e' he'
        exact hsu ⟨q, e, he, hgone, hd.1, h1.symm.trans hd.2.1, h2.symm.trans hd.2.2⟩

theorem unload_holds (T : Tree) (e : ModEntry) (A : RegionPtr) (x : String) (type : DenyType) :
    (T.unload e).Holds A x type ↔ T.Holds A x type ∧ ¬ e.DeniedBy A x type := by
  unfold Tree.unload
  cases hr : e.regionEntry with
  | none => simp [ModEntry.DeniedBy, hr]
  | some r =>
      by_cases hA : A = r
      · subst hA
        cases type with
        | hook =>
            simp only [ModEntry.DeniedBy, reduceCtorEq, false_and, not_false_eq_true, and_true]
            split
            · simp [Tree.Holds, Tree.removeDenies, Tree.modify]
            · rfl
        | module =>
            simp only [ModEntry.DeniedBy, hr, true_and]
            split
            · simp only [Tree.Holds, Tree.removeDenies, Tree.modify, Function.update_self,
                List.mem_filter, decide_eq_true_eq]
              exact and_congr_right fun _ => ne_comm
            · rename_i hno
              simp only [iff_self_and]
              rintro hx rfl
              exact hno hx
      · have hne : ¬ e.DeniedBy A x type := fun h => hA (Option.some.inj (h.2.1.symm.trans hr))
        simp only [hne, not_false_eq_true, and_true]
        split
        · cases type <;> simp [Tree.Holds, Tree.removeDenies, Tree.modify, hA]
        · rfl

theorem modUnloadEntry_deniesLeft {p : EntryPtr} (h : s.modUnloadEntry E p = .ok t) :
    DeniesLeft s t := by
  obtain ⟨e, he, -⟩ := Res.bind_ok.mp h
  have he := deref_ok.mp he
  have hc := modUnloadEntry_core he h
  have hents : ∀ q, (t.entries q).map ModEntry.core = if q = p then none else s.core.entries q := by
    intro q
    have hq := (congrFun (congrArg Core.entries hc) q).trans (Function.update_apply _ _ _ _)
    exact hq
  refine ⟨fun q e' he' => ?_, fun A x type => ?_⟩
  · have hq := hents q
    rw [he'] at hq
    split at hq
    · cases hq
    · obtain ⟨e0, he0, hce⟩ := Option.map_eq_some_iff.mp hq.symm
      exact ⟨e0, he0, (congrArg ModEntry.regionEntry hce : _).symm,
        (congrArg ModEntry.loadPath hce : _).symm⟩
  · rw [show t.tree = _ from congrArg Core.tree hc, unload_holds]
    refine and_congr_right fun _ => not_congr ?_
    constructor
    · intro hd
      refine ⟨p, e, he, ?_, hd⟩
      have hp := hents p
      rw [if_pos rfl] at hp
      exact Option.map_eq_none_iff.mp hp
    · rintro ⟨q, e', he', hgone, hd⟩
      by_cases hqp : q = p
      · subst hqp
        cases he.symm.trans he'
        exact hd
      · have hq := hents q
        rw [if_neg hqp, hgone] at hq
        have hlive : s.core.entries q = some e'.core := congrArg (Option.map ModEntry.core) he'
        rw [hlive] at hq
        cases hq

theorem modUnload_deniesLeft (fuel : Nat) {fname : String} {region : RegionId} {ret : Int}
    (h : s.modUnload E fuel fname region = .ok (t, ret)) : DeniesLeft s t := by
  refine modUnload_rel DeniesLeft (fun _ => .of_core rfl) (fun _ _ _ => .trans)
    (fun _ => .of_core (setErr_core _ _)) (fun s p e he => ?_) (fun _ _ _ => modUnloadEntry_deniesLeft)
    fuel h
  refine ⟨fun q e' he' => ?_, fun A x type => ?_⟩
  · obtain ⟨e0, he0, hc⟩ := (setEntry_unloaded he (e.refcount - 1)).entries q e' he'
    exact ⟨e0, he0, (congrArg ModEntry.regionEntry hc : _), (congrArg ModEntry.loadPath hc : _)⟩
  · rw [show (s.setEntry p _).tree = s.tree from rfl, iff_self_and]
    rintro - ⟨q, e', he', hgone, -⟩
    by_cases hqp : q = p
    · subst hqp
      simp [setEntry] at hgone
    · simp only [setEntry, Function.update_of_ne hqp] at hgone
      rw [hgone] at he'
      cases he'

/-- A load leaves the deny lists and the older entries in place. -/
structure DeniesKept (s t : Runtime) : Prop where
  gone : ∀ q, q ≠ s.entryNext → (t.entries q = none ↔ s.entries q = none)
  holds : ∀ A x type, t.tree.Holds A x type ↔ s.tree.Holds A x type

theorem DeniesKept.of_core {c : Core} (hc : t.core = c) (he : c.entries = s.core.entries)
    (ht : c.tree = s.tree) : DeniesKept s t := by
  subst hc
  refine ⟨fun q _ => ?_, fun A x type => ?_⟩
  · have hq : (t.entries q).map ModEntry.core = (s.entries q).map ModEntry.core := congrFun he q
    rw [← Option.map_eq_none_iff (f := ModEntry.core), hq, Option.map_eq_none_iff]
  · rw [show t.tree = s.tree from ht]

theorem claim_holds {T : Tree} (hok : T.Ok) {r : RegionPtr} (hr : r < T.next) (id : RegionId)
    (bits : UInt8) (A : RegionPtr) (x : String) (type : DenyType) :
    (T.claim r id bits).Holds A x type ↔ T.Holds A x type := by
  have hbeyond := hok.beyond T.next le_rfl
  have hnode := Tree.claim_node T hr id bits A
  have hsame : ((T.claim r id bits).node A).deniedHooks = (T.node A).deniedHooks ∧
      ((T.claim r id bits).node A).deniedModules = (T.node A).deniedModules := by
    rw [hnode]
    split
    · rename_i hA
      rw [hA]
      exact ⟨rfl, rfl⟩
    · split
      · rename_i hA
        rw [hA, hbeyond]
        exact ⟨rfl, rfl⟩
      · exact ⟨rfl, rfl⟩
  cases type with
  | hook => rw [Tree.Holds, Tree.Holds, hsame.1]
  | module => rw [Tree.Holds, Tree.Holds, hsame.2]

theorem loadEffect_denies {fname : String} {ch : LoadChoice} {reload : Option ReloadFrame}
    {out : Outcome LoadFrame} (hok : s.tree.Ok) (h : LoadEffect E s fname ch reload t out) :
    DeniesKept s t := by
  refine ⟨fun q hq => ?_, fun A x type => ?_⟩
  · have hcore : (t.core.entries q = none ↔ s.core.entries q = none) := by
      cases h with
      | same ret hret ht => rw [ht]
      | reuse p e hl he ht =>
          rw [ht, setEntry_core]
          by_cases hqp : q = p
          · subst hqp
            have hs : s.core.entries q = some e.core := congrArg (Option.map ModEntry.core) he
            simp [hs]
          · simp only [Function.update_of_ne hqp]
      | fresh out hl hmem him ha hf =>
          cases hf with
          | refused ret hret ht => rw [ht]; rfl
          | noInstall hi id r T index hp ht => rw [ht]; rfl
          | installs fn hi id r T index hp ht =>
              have he : t.core.entries = Function.update s.core.entries s.entryNext _ :=
                (congrArg Core.entries ht : _)
              rw [he, Function.update_of_ne hq]
    simpa [core] using hcore
  · rcases h.tree with ht | ⟨r, k, -, hk, ht⟩
    · rw [ht]
    · rw [ht]
      exact claim_holds hok hk.region _ _ A x type

end Runtime

structure StepDenies (E : Env) (s : State) (e : Event) (t : State) : Prop where
  kept : ∀ A x type, s.rt.tree.Holds A x type → (t.rt.tree.Holds A x type ↔
    ¬ ∃ q en, s.rt.entries q = some en ∧ t.rt.entries q = none ∧ en.DeniedBy A x type)
  made : ∀ A x type, t.rt.tree.Holds A x type → s.rt.tree.Holds A x type ∨ ∃ what,
    e = .deny what type ∧ x = denyTarget E what type ∧
      s.rt.regionHd s.rt.currentRegionId = some A

section Step
variable {E : Env} {s t : State} {e : Event}

theorem deny_holds {T : Tree} {r : RegionPtr} {what : String} {ty : DenyType} (A : RegionPtr)
    (x : String) (type : DenyType) : (T.deny E r what ty).Holds A x type ↔
      T.Holds A x type ∨ (A = r ∧ type = ty ∧ x = denyTarget E what ty) := by
  have hmodify : ∀ T' : Tree, T' = T.modify r (Tree.addDeny E what ty) →
      (T'.Holds A x type ↔ T.Holds A x type ∨ (A = r ∧ type = ty ∧ x = denyTarget E what ty)) := by
    rintro T' rfl
    by_cases hA : A = r
    · subst hA
      cases ty <;> cases type <;>
        simp [Tree.Holds, Tree.modify, Tree.addDeny, denyTarget, or_comm]
    · cases type <;> simp [Tree.Holds, Tree.modify, hA]
  rw [← hmodify _ rfl]
  simp only [Tree.deny]
  cases type with
  | hook =>
      simp only [Tree.Holds]
      split <;> rfl
  | module =>
      simp only [Tree.Holds]
      split <;> rfl

theorem StepDenies.of_kept (hi : Inv E s) (hk : DeniesKept s.rt t.rt) : StepDenies E s e t := by
  obtain ⟨L, hw⟩ := hi.wf
  refine ⟨fun A x type hx => ?_, fun A x type hx => .inl ((hk.holds A x type).mp hx)⟩
  refine iff_of_true ((hk.holds A x type).mpr hx) ?_
  rintro ⟨q, en, he, hgone, -⟩
  have hq : q ≠ s.rt.entryNext := by
    rintro rfl
    rw [hw.fresh _ le_rfl] at he
    cases he
  rw [(hk.gone q hq).mp hgone] at he
  cases he

theorem StepDenies.of_unload (hi : Inv E s) {fname : String} {fuel : Nat} {ret : Int} {m : Runtime}
    (hu : s.rt.modUnload E fuel fname s.rt.currentRegionId = .ok (m, ret))
    (hk : DeniesKept m t.rt) : StepDenies E s e t := by
  obtain ⟨L, hw⟩ := hi.wf
  have hleft := modUnload_deniesLeft fuel hu
  have hnext : m.entryNext = s.rt.entryNext :=
    congrArg Core.entryNext (modUnload_unloaded fuel hu).core
  refine ⟨fun A x type hx => ?_, fun A x type hx => ?_⟩
  · rw [hk.holds, hleft.holds, and_iff_right hx]
    refine not_congr (exists_congr fun q => exists_congr fun en => and_congr_right fun he => ?_)
    refine and_congr_left fun _ => (hk.gone q ?_).symm
    rintro rfl
    rw [hnext, hw.fresh _ le_rfl] at he
    cases he
  · rw [hk.holds, hleft.holds] at hx
    exact .inl hx.1

theorem step_denies (hi : Inv E s) (h : step E s e = .ok t) : StepDenies E s e t := by
  obtain ⟨L, hw⟩ := hi.wf
  cases step_effect hi h with
  | areg hooks hc hs => exact .of_kept hi (.of_core hc rfl rfl)
  | selfInitCtx hc hs => exact .of_kept hi (.of_core hc rfl rfl)
  | load out hl hs => exact .of_kept hi (loadEffect_denies hw.tree hl)
  | unload m ret hu hc hs => exact .of_unload hi hu (.of_core hc rfl rfl)
  | reload out hr hs =>
      have wf : ∀ {m : Runtime} {fname : String} {fuel : Nat} {ret : Int},
          s.rt.modUnload E fuel fname s.rt.currentRegionId = .ok (m, ret) → m.tree.Ok := by
        intro m fname fuel ret hu
        have hp : Prims E (fun _ _ => True) (s.rt, .none) (m, .none) := modUnload_prims fuel hu
        obtain ⟨L', hw'⟩ := (hp.keeps hi.wf hi.ctxs).wf
        exact hw'.tree
      cases hr with
      | missing hl ht => exact .of_kept hi (.of_core ht rfl rfl)
      | back p en hl he m hu m' ret hload ht =>
          have hok : m.tree.Ok := wf hu
          have hk := loadEffect_denies (s := { m with reloading := true }) hok hload
          have hk' : DeniesKept m' t.rt := .of_core ht rfl rfl
          have hsame : m'.core.entries = t.rt.core.entries := (congrArg Core.entries ht : _).symm
          refine .of_unload hi hu ⟨fun q hq => ?_, fun A x type => ?_⟩
          · have hgone : t.rt.core.entries q = none ↔ m'.core.entries q = none := by rw [hsame]
            simp only [core, Option.map_eq_none_iff] at hgone
            exact hgone.trans (hk.gone q hq)
          · exact (hk'.holds A x type).trans (hk.holds A x type)
      | waits p en hl he m hu f hload =>
          have hok : m.tree.Ok := wf hu
          have hk := loadEffect_denies (s := { m with reloading := true }) hok hload
          exact .of_unload hi hu ⟨hk.gone, hk.holds⟩
  | deny r hr hc hs =>
      have ht : t.rt.tree = _ := congrArg Core.tree hc
      refine ⟨fun A x type hx => iff_of_true ?_ ?_, fun A x type hx => ?_⟩
      · rw [ht, deny_holds]
        exact .inl hx
      · rintro ⟨q, en, he, hgone, -⟩
        have hcore : t.rt.core.entries q = s.rt.core.entries q := congrFun (congrArg Core.entries hc) q
        simp [core, he, hgone] at hcore
      · rw [ht, deny_holds] at hx
        refine hx.imp id ?_
        rintro ⟨rfl, rfl, rfl⟩
        exact ⟨_, rfl, rfl, hr⟩
  | requireClaim r hr hc hs =>
      have ht : t.rt.tree = _ := congrArg Core.tree hc
      have he : t.rt.core.entries = s.rt.core.entries := (congrArg Core.entries hc : _)
      refine .of_kept hi ⟨fun q _ => ?_, fun A x type => ?_⟩
      · have hq := congrFun he q
        simp only [core] at hq
        rw [← Option.map_eq_none_iff (f := ModEntry.core), hq, Option.map_eq_none_iff]
      · rw [ht]
        by_cases hA : A = r
        · subst hA
          cases type <;> simp [Tree.Holds, Tree.gate, Tree.modify]
        · cases type <;> simp [Tree.Holds, Tree.gate, Tree.modify, hA]
  | call m f hooks hm hid hturn =>
      obtain ⟨ctxs, id, r, hc⟩ := hturn.core_eq
      exact .of_kept hi (.of_core hc (congrArg Core.entries hm : _) (congrArg Core.tree hm : _))
  | last hc hs => exact .of_kept hi (.of_core hc rfl rfl)
  | noRegion hc hs => exact .of_kept hi (.of_core hc rfl rfl)
  | withRegion r hr hc hs => exact .of_kept hi (.of_core hc rfl rfl)
  | @bodyRet result _ f stack hst hturn =>
      have hleft := bodyLeft_core s.rt f result
      obtain ⟨ctxs, id, r, hc⟩ := hturn.core_eq
      refine .of_kept hi (.of_core hc ?_ ?_)
      · show (s.rt.bodyLeft f result).core.entries = _
        rw [hleft]
        split <;> rfl
      · show (s.rt.bodyLeft f result).core.tree = _
        rw [hleft]
        split <;> rfl
  | installRet f stack hst hc hs => exact .of_kept hi (.of_core hc rfl rfl)
  | scopeRet id r stack hst hc hs => exact .of_kept hi (.of_core hc rfl rfl)

end Step

/-- The module whose `xy_install` is in control; hook bodies that run inside it are not it. -/
def State.installer (s : State) : Option EntryPtr :=
  match s.stack.find? fun f => f.owner.isSome with
  | some (.install f) => some f.modEntry
  | _ => none

/-- A call of `xy_deny` in a run: the steps before it, and where and what it denies. -/
structure DenyCall where
  before : List (State × Event)
  state : State
  what : String
  type : DenyType
  region : RegionPtr

namespace DenyCall

def target (E : Env) (d : DenyCall) : String := denyTarget E d.what d.type

def event (d : DenyCall) : Event := .deny d.what d.type

/-- The entry that the call made is in the list of its region, and has been all along. -/
structure Present (E : Env) (tr : List (State × Event)) (s : State) (d : DenyCall) : Prop where
  region : d.state.rt.regionHd d.state.rt.currentRegionId = some d.region
  since : ∃ post, tr = d.before ++ (d.state, d.event) :: post ∧
    ∀ y ∈ post, y.1.rt.tree.Holds d.region (d.target E) d.type
  now : s.rt.tree.Holds d.region (d.target E) d.type

/-- The call was made by the `xy_install` of a module that goes. -/
def OfRemoved (s t : State) (d : DenyCall) : Prop :=
  ∃ q, Removes s.rt t.rt q ∧ d.state.installer = some q

/-- The call denies the path of a module that goes, in that module's region. -/
def NamesRemoved (E : Env) (s t : State) (d : DenyCall) : Prop :=
  ∃ q en, s.rt.entries q = some en ∧ t.rt.entries q = none ∧
    en.DeniedBy d.region (d.target E) d.type

variable {E : Env} {s t : State} {e : Event} {tr : List (State × Event)} {d : DenyCall}

/-- An entry outlives a step exactly if it names no module that goes. -/
theorem present_step (hi : Inv E s) (h : step E s e = .ok t) (hd : d.Present E tr s) :
    d.Present E (tr ++ [(s, e)]) t ↔ ¬ d.NamesRemoved E s t := by
  have hkept := (step_denies hi h).kept d.region (d.target E) d.type hd.now
  constructor
  · exact fun hp => hkept.mp hp.now
  · intro hno
    obtain ⟨post, htr, hpost⟩ := hd.since
    refine ⟨hd.region, ⟨post ++ [(s, e)], by rw [htr]; simp, fun y hy => ?_⟩, hkept.mpr hno⟩
    rcases List.mem_append.mp hy with hy | hy
    · exact hpost y hy
    · rw [List.mem_singleton.mp hy]
      exact hd.now

end DenyCall

section Main
variable {E : Env} {s₀ s : State} {tr : List (State × Event)}

theorem Runs.denyCalls (h : Runs E s₀ tr s) (A : RegionPtr) (x : String) (type : DenyType) :
    s.rt.tree.Holds A x type ↔
      ∃ d : DenyCall, d.Present E tr s ∧ d.region = A ∧ d.target E = x ∧ d.type = type := by
  constructor
  · have key : Inv E s ∧ ∀ A x type, s.rt.tree.Holds A x type →
        ∃ d : DenyCall, d.Present E tr s ∧ d.region = A ∧ d.target E = x ∧ d.type = type := by
      refine h.2.invariant_trace (C := fun _ _ _ => True) (P := fun tr s => Inv E s ∧
        ∀ A x type, s.rt.tree.Holds A x type →
          ∃ d : DenyCall, d.Present E tr s ∧ d.region = A ∧ d.target E = x ∧ d.type = type)
        ?_ (fun _ _ _ _ => trivial) ⟨Inv.boot h.1, fun A x type hx => ?_⟩
      · rintro tr m e t hs - ⟨hi, ih⟩
        refine ⟨hi.step hs, fun A x type hx => ?_⟩
        have hsd := step_denies hi hs
        rcases hsd.made A x type hx with hm | ⟨what, rfl, rfl, hr⟩
        · obtain ⟨d, hd, rfl, rfl, rfl⟩ := ih A x type hm
          exact ⟨d, (DenyCall.present_step hi hs hd).mpr ((hsd.kept _ _ _ hm).mp hx), rfl, rfl, rfl⟩
        · exact ⟨⟨tr, m, what, type, A⟩, ⟨hr, ⟨[], rfl, by simp⟩, hx⟩, rfl, rfl, rfl⟩
      · have hnode : s₀.rt.tree.node A = {} := by
          show (s₀.rt.regions A).toRegionNode = {}
          rcases Nat.eq_zero_or_pos A with rfl | hA
          · rw [h.1.root]
          · rw [h.1.fresh A hA]
        cases type <;> simp [Tree.Holds, hnode] at hx
    exact key.2 A x type
  · rintro ⟨d, hd, rfl, rfl, rfl⟩
    exact hd.now

/-- The deny lists hold what calls of `xy_deny` have put there. A step takes away just the
entries made by the installs of the modules that it removes if and only if these are the
ones that name such a module in its region. -/
theorem denies_left_iff (h : Runs E s₀ tr s) :
    (∀ A x type, s.rt.tree.Holds A x type ↔
      ∃ d : DenyCall, d.Present E tr s ∧ d.region = A ∧ d.target E = x ∧ d.type = type) ∧
    ∀ e t, step E s e = .ok t →
      ((∀ d : DenyCall, d.Present E tr s →
        (d.Present E (tr ++ [(s, e)]) t ↔ ¬ d.OfRemoved s t)) ↔
      ∀ d : DenyCall, d.Present E tr s → (d.OfRemoved s t ↔ d.NamesRemoved E s t)) := by
  refine ⟨h.denyCalls, fun e t hs => forall_congr' fun d => forall_congr' fun hd => ?_⟩
  rw [DenyCall.present_step h.inv hs hd, not_iff_not]
  exact ⟨Iff.symm, Iff.symm⟩

end Main

theorem trace_head {E : Env} {s t : State} {e : Event} {es : List Event} {pre post : List (State × Event)}
    {m : State} {what : String} {type : DenyType} (h : Run.exec (step E) s (e :: es) = .ok t)
    (hes : ∀ x ∈ es, ∀ what type, x ≠ .deny what type)
    (htr : Run.trace (step E) s (e :: es) = pre ++ (m, .deny what type) :: post) :
    pre = [] ∧ m = s ∧ e = .deny what type := by
  have hevents := Run.trace_events h
  rw [htr] at hevents
  cases pre with
  | nil =>
      have hhead := congrArg List.head? htr
      simp only [Run.trace, List.nil_append, List.head?_cons, Option.some.injEq, Prod.mk.injEq] at hhead
      exact ⟨rfl, hhead.1.symm, hhead.2⟩
  | cons x pre =>
      simp only [List.cons_append, List.map_cons, List.map_append, List.cons.injEq] at hevents
      refine absurd rfl (hes (.deny what type) ?_ what type)
      rw [← hevents.2]
      simp

/-- The host's deny of a hook stays when `p` is unloaded. -/
theorem denies_left_hook : ∃ s t, Run.exec (step sampleEnv) sampleState
      [.deny "h" .hook, .load "p" { addr := 1 }, .installRet] = .ok s ∧
    step sampleEnv s (.unload "p" 9) = .ok t ∧
    ∀ d : DenyCall, d.Present sampleEnv (Run.trace (step sampleEnv) sampleState
        [.deny "h" .hook, .load "p" { addr := 1 }, .installRet]) s →
      (d.Present sampleEnv (Run.trace (step sampleEnv) sampleState
        [.deny "h" .hook, .load "p" { addr := 1 }, .installRet] ++ [(s, .unload "p" 9)]) t ↔
      ¬ d.OfRemoved s t) := by
  obtain ⟨s, hs, hobs⟩ := sample_check [.deny "h" .hook, .load "p" { addr := 1 }, .installRet]
    (fun s => Run.check (step sampleEnv) s [.unload "p" 9] fun _ => true) (by decide)
  obtain ⟨t, ht, -⟩ := Run.of_check hobs
  have hstep := Run.exec_single ht
  refine ⟨s, t, hs, hstep, ((denies_left_iff (sample_runs hs)).2 _ t hstep).mpr fun d hd => ?_⟩
  obtain ⟨post, htr, -⟩ := hd.since
  obtain ⟨-, hm, he⟩ := trace_head hs (by simp) htr
  have htype : DenyType.hook = d.type := by
    injection he
  constructor
  · rintro ⟨q, -, hq⟩
    rw [hm] at hq
    cases hq
  · rintro ⟨q, en, -, -, hmod, -⟩
    rw [← htype] at hmod
    cases hmod

/-- The host's deny of the path of `p` goes when `p` is unloaded. -/
theorem hosts_deny_lost : ∃ s t, Run.exec (step sampleEnv) sampleState
      [.deny "p" .module, .load "p" { addr := 1 }, .installRet] = .ok s ∧
    step sampleEnv s (.unload "p" 9) = .ok t ∧
    ∃ d : DenyCall, d.Present sampleEnv (Run.trace (step sampleEnv) sampleState
        [.deny "p" .module, .load "p" { addr := 1 }, .installRet]) s ∧ d.state.installer = none ∧
      ¬ t.rt.tree.Holds d.region (d.target sampleEnv) d.type := by
  obtain ⟨s, hs, hobs⟩ := sample_check [.deny "p" .module, .load "p" { addr := 1 }, .installRet]
    (fun s => decide ("p" ∈ (s.rt.tree.node 0).deniedModules) &&
      Run.check (step sampleEnv) s [.unload "p" 9] fun t =>
        decide (∀ A < t.rt.regionNext, (t.rt.tree.node A).deniedModules = []) &&
        decide (t.rt.regionNext = 1)) (by decide)
  simp only [Bool.and_eq_true, decide_eq_true_eq] at hobs
  obtain ⟨hin, hunload⟩ := hobs
  obtain ⟨t, ht, hobs⟩ := Run.of_check hunload
  simp only [Bool.and_eq_true, decide_eq_true_eq] at hobs
  obtain ⟨hnone, hnext⟩ := hobs
  obtain ⟨d, hd, hreg, htarget, htype⟩ := ((sample_runs hs).denyCalls 0 "p" .module).mp hin
  obtain ⟨post, htr, -⟩ := hd.since
  obtain ⟨-, hm, -⟩ := trace_head hs (by simp) htr
  refine ⟨s, t, hs, Run.exec_single ht, d, hd, ?_, ?_⟩
  · rw [hm]
    rfl
  · rw [hreg, htype]
    show _ ∉ (t.rt.tree.node 0).deniedModules
    rw [hnone 0 (by rw [hnext]; exact Nat.one_pos)]
    exact List.not_mem_nil

end Xylem

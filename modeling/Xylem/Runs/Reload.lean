import Xylem.Runs.Contexts
import Xylem.Runs.OwnState
import Xylem.Runs.Reply
import Xylem.Heap.Cleanups
import Xylem.Heap.Topple

namespace Xylem

open Xylem.Runtime

/-- The reload made in `s` returns `XY_OK`; `tr` are the steps under the new `xy_install`,
and its return. -/
structure Reloads (E : Env) (s : State) (fname : String) (ch : LoadChoice) (fuel : Nat)
    (tr : List (State × Event)) (t : State) : Prop where
  steps : Run.Steps (step E) s ((s, .reload fname ch fuel) :: tr) t
  above : ∀ x ∈ tr, s.stack.length < x.1.stack.length
  stack : t.stack = s.stack
  status : t.status = .returned xyOk []

def reloadImage (E : Env) (s : Runtime) (fname : String) (ch : LoadChoice) : ImageId :=
  (({ s with reloading := true } : Runtime).modLoadImage (E.moduleLoadPath fname) ch).1

def reloadCopy (E : Env) (s : Runtime) (fname : String) (ch : LoadChoice) : Option ImageId :=
  (({ s with reloading := true } : Runtime).modLoadImage (E.moduleLoadPath fname) ch).2

/-- What a reload of the entry `e` at `p`, with its last reference, has done when the new
`xy_install` starts. -/
structure ReloadStarts (E : Env) (s : Runtime) (fname : String) (ch : LoadChoice) (p : EntryPtr)
    (e : ModEntry) (t : Runtime) (f : LoadFrame) : Prop where
  frame : f = ⟨s.entryNext, s.currentRegionId, s.currentRegionEntry, s.loadingMod,
    some ⟨fname, s.currentRegionId, e.regionPrev, e.regionEntry⟩⟩
  gone : t.entries p = none
  opened : ∃ im, E.dlopen (reloadImage E s fname ch) = some im
  install : ∃ fn, E.dlsym (reloadImage E s fname ch) "xy_install" = some fn
  next : t.entryNext = s.entryNext + 1
  cleaned : ∃ l, t.cleanups = s.cleanups ++ l ∧
    ∀ b, e.regionState = some b → (b, E.dlsym e.handle "xy_region_cleanup") ∈ l
  entry : ∃ x, t.entries s.entryNext = some x ∧ x.handle = reloadImage E s fname ch ∧
    x.loadPath = E.moduleLoadPath fname ∧ x.parentEntry = s.loadingMod ∧ x.refcount = 1 ∧
    x.tmpLoadPath = reloadCopy E s fname ch ∧ (x.regionId = s.currentRegionId ↔
      ¬ AsksClaim E s s.currentRegionId (reloadImage E s fname ch))

namespace Runtime
variable {E : Env} {s t : Runtime} {fname : String} {ch : LoadChoice} {fuel : Nat}
  {p : EntryPtr} {e : ModEntry} {L L' : RegionPtr → List EntryPtr}

theorem lookup_kept (hw : WF s none L) (hw' : WF t none L') (hk : OldKept s.entryNext s t)
    {k : ModKey} {q : EntryPtr} (hq : q < s.entryNext) (hl : t.modHd.lookup k = some q) :
    s.modHd.lookup k = some q := by
  obtain ⟨x, hx, rfl⟩ := hw'.table k q hl
  obtain ⟨y, hy, hid⟩ := hk q hq x hx
  have hkey : x.modKey = y.modKey := (congrArg ModEntry.modKey hid : _)
  rw [hkey]
  exact (hw.key q y hy).2

theorem modUnload_frees (hw : WF s none L) {region : RegionId} {ret : Int}
    (hl : s.moduleLookup E fname region = some p) (he : s.entries p = some e)
    (hone : e.refcount ≤ 1) (h : s.modUnload E fuel fname region = .ok (t, ret)) :
    t.entries p = none ∧ t.moduleLookup E fname region = none := by
  have hun := modUnload_unloaded fuel h
  obtain ⟨L', hw'⟩ := WF.prims (x := .none) (y := .none) hw
    (modUnload_prims (g := fun _ _ => True) fuel h)
  have hgone : t.entries p = none := by
    cases fuel with
    | zero => cases h
    | succ fuel =>
        rw [modUnload_last hl he hone] at h
        obtain ⟨u, -, h⟩ := Res.bind_ok.mp h
        obtain ⟨v, hv, h⟩ := Res.bind_ok.mp h
        cases h
        exact (modUnloadEntry_pruned hv).dead p rfl
  refine ⟨hgone, ?_⟩
  by_contra hne
  obtain ⟨q, hq⟩ := Option.ne_none_iff_exists'.mp hne
  obtain ⟨x, hx, -⟩ := hw'.table _ q hq
  have hlt : q < s.entryNext := (hw'.lt_next hx).trans_eq (congrArg Core.entryNext hun.core)
  have hqp : q = p := Option.some.inj ((lookup_kept hw hw' hun.sameState.old hlt hq).symm.trans hl)
  rw [hqp, hgone] at hx
  cases hx

theorem asksClaim_fewer (h : Tree.FewerDenies s.tree t.tree) (region : RegionId) (im : ImageId) :
    AsksClaim E t region im ↔ AsksClaim E s region im := by
  have hhd : t.regionHd = s.regionHd := h.hd
  have hgate : ∀ r, (t.regions r).claimHandler = (s.regions r).claimHandler ∧
      (t.regions r).requireClaim = (s.regions r).requireClaim := by
    intro r
    obtain ⟨mods, set, hr⟩ := h.node r
    exact ⟨(congrArg RegionNode.claimHandler hr : _), (congrArg RegionNode.requireClaim hr : _)⟩
  simp only [AsksClaim, hhd, (hgate _).1, (hgate _).2]

/-- Just a load that asks for no slot leaves its entry in the current region. -/
theorem Placed.stays_iff (hcur : (s.regionHd s.currentRegionId).isSome) {im : ImageId} {id : RegionId}
    {r : RegionPtr} {T : Tree} {index : RegionIndex} (hp : Placed E s im ch id r T index)
    (hasks : AsksClaim E s s.currentRegionId im ↔ T.next = s.regionNext + 1) :
    id = s.currentRegionId ↔ ¬ AsksClaim E s s.currentRegionId im := by
  rw [hasks]
  cases hp with
  | stays r hr => exact iff_of_true rfl (Nat.lt_succ_self _).ne
  | claims r k hslot hk =>
      refine iff_of_false (fun hid => ?_) (not_not.mpr rfl)
      have hfree : s.regionHd (s.tree.slotId r ch.granted k) = none := hk.first.free
      rw [hid] at hfree
      rw [hfree] at hcur
      cases hcur

theorem reloadImage_eq {m : Runtime} (hc : m.copyNext = s.copyNext) :
    (({ m with reloading := true } : Runtime).loading E fname ch).im = reloadImage E s fname ch := by
  unfold reloadImage loading modLoadImage
  simp only [hc]

theorem reloadCopy_eq {m : Runtime} (hc : m.copyNext = s.copyNext) :
    (({ m with reloading := true } : Runtime).loading E fname ch).tmp = reloadCopy E s fname ch := by
  unfold reloadCopy loading modLoadImage
  simp only [hc]

/-- The reload has a copy of its own just if the file could be copied and the name kept. -/
theorem reloadCopy_iff : reloadCopy E s fname ch = some (reloadImage E s fname ch) ↔
    ch.copied = true ∧ ch.named = true := by
  unfold reloadCopy reloadImage modLoadImage
  cases ch.copied <;> cases ch.named <;> simp

/-- A reload of the last reference fails, or starts the `xy_install` of a new entry. -/
theorem xyReload_starts (hw : WF s none L) (hc : s.CtxsKnown)
    (hcur : (s.regionHd s.currentRegionId).isSome) {out : Outcome LoadFrame}
    (hl : s.moduleLookup E fname s.currentRegionId = some p) (he : s.entries p = some e)
    (hone : e.refcount ≤ 1) (h : s.xyReload E fuel fname ch = .ok (t, out)) :
    (∃ ret, ret ≠ xyOk ∧ out = .done ret) ∨
      ∃ f, out = .wait f ∧ ReloadStarts E s fname ch p e t f := by
  simp only [xyReload, hl, Res.bind_ok, deref_ok] at h
  obtain ⟨e', he', ⟨m, ret⟩, hu, h⟩ := h
  cases he.symm.trans he'
  obtain rfl := modUnload_ret hl hu
  simp only [ne_eq, not_true_eq_false, if_false, Res.bind_ok] at h
  obtain ⟨⟨n, out'⟩, hload, h⟩ := h
  have hun := modUnload_unloaded fuel hu
  obtain ⟨hgone, hfree⟩ := modUnload_frees hw hl he hone hu
  have hid : m.currentRegionId = s.currentRegionId := congrArg Core.currentRegionId hun.core
  have hk := Prims.keeps (modUnload_prims (g := fun _ _ => True) fuel hu) ⟨L, hw⟩ hc
  obtain ⟨L', hwm⟩ := hk.wf
  have hwr : WF { m with reloading := true } none L' :=
    hwm.congr hwm.tree rfl rfl rfl (fun _ => rfl) (fun _ _ => rfl) (fun _ => rfl)
      (fun _ => rfl) fun _ _ => id
  have hcur' : (m.regionHd m.currentRegionId).isSome := by
    obtain ⟨r, hr⟩ := Option.isSome_iff_exists.mp hcur
    rw [hid]
    exact Option.isSome_iff_exists.mpr ⟨r, hk.regionHd _ _ hr⟩
  have failed : ∀ {ret : Int}, out' = .done ret → ret ≠ xyOk → out = .done ret := by
    rintro ret rfl hret
    simp only [if_pos hret, Except.ok.injEq, Prod.mk.injEq] at h
    exact h.2.symm
  cases modLoad_gated hwr hcur' hload with
  | same ret hret ht => exact .inl ⟨ret, hret, failed rfl hret⟩
  | reuse q x hl' he' ht =>
      have hl'' : m.moduleLookup E fname m.currentRegionId = some q := hl'
      rw [hid, hfree] at hl''
      cases hl''
  | fresh _ hl' hmem him hf =>
      cases hf with
      | refused ret hret hgate ht => exact .inl ⟨ret, hret, failed rfl hret⟩
      | noInstall hgate hi id r T index hp hasks ht =>
          exact .inl ⟨_, by decide, failed rfl (by decide)⟩
      | installs hgate fn hi id r T index hp hasks ht =>
          simp only [Except.ok.injEq, Prod.mk.injEq] at h
          obtain ⟨rfl, rfl⟩ := h
          have him' : (({ m with reloading := true } : Runtime).loading E fname ch).im =
              reloadImage E s fname ch := reloadImage_eq (modUnload_copyNext hu)
          have hnext : m.entryNext = s.entryNext := congrArg Core.entryNext hun.core
          have hents : n.core.entries = Function.update m.core.entries m.entryNext _ :=
            (congrArg Core.entries ht : _)
          have hlast : (n.entries s.entryNext).map ModEntry.core = _ :=
            (congrFun hents s.entryNext).trans (by rw [hnext, Function.update_self])
          obtain ⟨x, hx, hxc⟩ := Option.map_eq_some_iff.mp hlast
          refine .inr ⟨_, rfl, ?_, ?_, him' ▸ him, him' ▸ ⟨fn, hi⟩, ?_, ?_, x, hx, ?_, ?_, ?_, ?_, ?_, ?_⟩
          · rw [show ({ m with reloading := true } : Runtime).entryNext = s.entryNext from hnext,
              show ({ m with reloading := true } : Runtime).currentRegionId = s.currentRegionId from hid,
              show ({ m with reloading := true } : Runtime).currentRegionEntry = s.currentRegionEntry from
                congrArg Core.currentRegionEntry hun.core,
              show ({ m with reloading := true } : Runtime).loadingMod = s.loadingMod from
                congrArg Core.loadingMod hun.core]
          · have hp : (n.entries p).map ModEntry.core = (m.entries p).map ModEntry.core := by
              refine (congrFun hents p).trans (Function.update_of_ne ?_ _ _)
              exact fun hpe => (hw.lt_next he).ne (hpe.trans hnext)
            rw [hgone] at hp
            exact Option.map_eq_none_iff.mp hp
          · exact (congrArg Core.entryNext ht).trans (congrArg (· + 1) hnext)
          · obtain ⟨l, hl, hdone⟩ := (modUnload_cleaned fuel hu).done
            obtain ⟨l', hl'⟩ := (modLoad_prims hwr hcur' hload).cleanups
            refine ⟨l ++ l', ?_, fun b hb => List.mem_append_left _ (hdone p e b he hgone hb)⟩
            rw [← List.append_assoc, ← hl]
            exact hl'.symm
          · exact (congrArg ModEntry.handle hxc).trans him'
          · exact congrArg ModEntry.loadPath hxc
          · exact (congrArg ModEntry.parentEntry hxc).trans (congrArg Core.loadingMod hun.core)
          · exact congrArg ModEntry.refcount hxc
          · exact (congrArg ModEntry.tmpLoadPath hxc).trans (reloadCopy_eq (modUnload_copyNext hu))
          · have hxid : x.regionId = id := congrArg ModEntry.regionId hxc
            have hstays := Placed.stays_iff (s := { m with reloading := true }) hcur' hp hasks
            have hasks' : AsksClaim E { m with reloading := true } m.currentRegionId
                (({ m with reloading := true } : Runtime).loading E fname ch).im ↔
                  AsksClaim E s s.currentRegionId (reloadImage E s fname ch) := by
              rw [him', ← hid]
              exact asksClaim_fewer hun.tree _ _
            rw [hxid, ← hid]
            exact hid ▸ hstays.trans (not_congr hasks')

/-- A reload of a shared reference fails, or leaves the entries as they were. -/
theorem xyReload_shared (hw : WF s none L) (hc : s.CtxsKnown)
    (hcur : (s.regionHd s.currentRegionId).isSome) {out : Outcome LoadFrame}
    (hl : s.moduleLookup E fname s.currentRegionId = some p) (he : s.entries p = some e)
    (hs : 1 < e.refcount) (h : s.xyReload E fuel fname ch = .ok (t, out)) :
    (∃ ret, ret ≠ xyOk ∧ out = .done ret) ∨ out = .done xyOk ∧ t.core.entries = s.core.entries := by
  have unloaded : ∀ {m : Runtime}, s.modUnload E fuel fname s.currentRegionId = .ok (m, xyOk) →
      m = s.release p e := fun hu => congrArg Prod.fst (modUnload_shared hl he hs hu)
  cases (xyReload_spec hw hc hcur h).1 with
  | missing hl' ht =>
      rw [hl] at hl'
      cases hl'
  | back q x hl' he' m hu m' ret hload ht =>
      rw [unloaded hu] at hload
      cases hload with
      | same _ hret ht' => exact .inl ⟨ret, hret, rfl⟩
      | reuse q x hl' he' ht' =>
          refine .inr ⟨rfl, ?_⟩
          obtain rfl : p = q := Option.some.inj (hl.symm.trans hl')
          have hx : (s.release p e).entries p = some x := he'
          rw [release_entries, if_pos rfl, Option.some.injEq] at hx
          subst hx
          funext q
          have hq : t.core.entries q = m'.core.entries q := congrFun (congrArg Core.entries ht) q
          rw [hq, congrFun (congrArg Core.entries ht') q]
          show (Function.update (s.release p e).entries p _ q).map ModEntry.core = _
          by_cases hqp : q = p
          · subst hqp
            rw [Function.update_self]
            show _ = (s.entries q).map ModEntry.core
            rw [he]
            simp
          · rw [Function.update_of_ne hqp, release_entries, if_neg hqp]
            rfl
      | fresh _ hl' =>
          have hnone : s.moduleLookup E fname s.currentRegionId = none := hl'
          rw [hl] at hnone
          cases hnone
  | waits q x hl' he' m hu f hload =>
      rw [unloaded hu] at hload
      cases hload with
      | fresh _ hl' =>
          have hnone : s.moduleLookup E fname s.currentRegionId = none := hl'
          rw [hl] at hnone
          cases hnone

end Runtime

section
variable {E : Env} {s t u m : State} {e : Event} {tr : List (State × Event)} {f : LoadFrame}
  {stack : List Frame}

theorem step_install_returns (h : step E s e = .ok t) (hs : s.stack = .install f :: stack)
    (ht : t.stack = stack) : e = .installRet := by
  have hlen : s.stack.length = t.stack.length + 1 := by rw [hs, ht, List.length_cons]
  cases step_move h with
  | keeps hk =>
      rw [hk] at hlen
      omega
  | pushes g hk =>
      rw [hk, List.length_cons] at hlen
      omega
  | turns g g' rest hst hk hg =>
      rw [hs] at hst
      cases hst
  | pops g rest hst hk hbody hinstall => exact hinstall f (List.cons.inj (hst.symm.trans hs)).1

/-- While an `xy_install` waits, the frames above it are those of before, but for one that
has just been put there. -/
theorem step_above {above : List Frame} (h : step E s e = .ok t)
    (hs : s.stack = above ++ .install f :: stack) (ht : stack.length < t.stack.length) :
    ∃ above', t.stack = above' ++ .install f :: stack ∧
      ∀ g, .install g ∈ above' → .install g ∈ above ∨ t.stack = .install g :: s.stack := by
  cases step_move h with
  | keeps hk => exact ⟨above, hk.trans hs, fun g hg => .inl hg⟩
  | pushes k hk =>
      refine ⟨k :: above, by rw [hk, hs, List.cons_append], fun g hg => ?_⟩
      rcases List.mem_cons.mp hg with rfl | hg
      · exact .inr hk
      · exact .inl hg
  | turns c c' rest hst hk hc =>
      rcases top_cases hs hst with ⟨above', rfl, rfl⟩ | ⟨-, hf, -⟩
      · refine ⟨.body c' :: above', hk, fun g hg => ?_⟩
        rcases List.mem_cons.mp hg with hg | hg
        · cases hg
        · exact .inl (List.mem_cons_of_mem _ hg)
      · cases hf
  | pops k rest hst hk hbody hinstall =>
      rcases top_cases hs hst with ⟨above', rfl, rfl⟩ | ⟨-, -, rfl⟩
      · exact ⟨above', hk, fun g hg => .inl (List.mem_cons_of_mem k hg)⟩
      · rw [hk] at ht
        exact absurd ht (lt_irrefl _)

/-- While the `xy_install` of `f` lasts, its frame stays where it is. -/
theorem install_waits (h : Run.Steps (step E) s tr t) (hs : s.stack = .install f :: stack)
    (habove : ∀ x ∈ tr, stack.length < x.1.stack.length) (ht : stack.length < t.stack.length) :
    ∃ above, t.stack = above ++ .install f :: stack := by
  induction h with
  | nil => exact ⟨[], hs⟩
  | @snoc m t tr e hrun hstep ih =>
      obtain ⟨above, hm⟩ := ih (fun x hx => habove x (List.mem_append_left _ hx))
        (habove (m, e) (by simp))
      obtain ⟨above', hkeep, -⟩ := step_above hstep hm ht
      exact ⟨above', hkeep⟩

end

namespace Reloads
variable {E : Env} {s t : State} {fname : String} {ch : LoadChoice} {fuel : Nat}
  {tr : List (State × Event)} {p : EntryPtr} {e : ModEntry}

/-- A reload that does not wait has only its own step. -/
theorem at_once (hr : Reloads E s fname ch fuel tr t) {m : State}
    (hm : step E s (.reload fname ch fuel) = .ok m) (hs : m.stack = s.stack) : t = m := by
  obtain ⟨-, m', hm', hrun⟩ := hr.steps.head
  cases hm.symm.trans hm'
  cases tr with
  | nil => exact Run.steps_nil hrun
  | cons x tr =>
      obtain ⟨m', ev⟩ := x
      obtain ⟨rfl, -⟩ := hrun.head
      have hlen := hr.above _ List.mem_cons_self
      rw [hs] at hlen
      exact absurd hlen (lt_irrefl _)

/-- A successful reload of the last reference runs the new `xy_install` and ends with
its return. -/
theorem starts (hr : Reloads E s fname ch fuel tr t) (hi : Inv E s)
    (hl : s.rt.moduleLookup E fname s.rt.currentRegionId = some p) (he : s.rt.entries p = some e)
    (hone : e.refcount ≤ 1) : ∃ m f nested u, step E s (.reload fname ch fuel) = .ok m ∧
      m.stack = .install f :: s.stack ∧ m.status = .entered ∧
      ReloadStarts E s.rt fname ch p e m.rt f ∧ tr = nested ++ [(u, .installRet)] ∧
      Run.Steps (step E) m nested u ∧ u.stack = .install f :: s.stack ∧
      step E u .installRet = .ok t := by
  obtain ⟨-, m, hm, hrun⟩ := hr.steps.head
  obtain ⟨L, hw⟩ := hi.wf
  obtain ⟨⟨n, out⟩, hn, rfl⟩ := Res.map_ok.mp hm
  rcases xyReload_starts hw hi.ctxs hi.current.id hl he hone hn with ⟨ret, hret, rfl⟩ | ⟨f, rfl, hst⟩
  · have ht := hr.at_once hm rfl
    have hstatus := hr.status
    rw [ht] at hstatus
    cases hstatus
    exact absurd rfl hret
  · rcases List.eq_nil_or_concat tr with rfl | ⟨nested, ⟨u, ev⟩, rfl⟩
    · cases Run.steps_nil hrun
      exact absurd (congrArg List.length hr.stack) (Nat.succ_ne_self _)
    · rw [List.concat_eq_append] at hrun
      have habove := hr.above
      rw [List.concat_eq_append] at habove
      obtain ⟨hnested, hlast⟩ := Run.steps_snoc.mp hrun
      have him : Inv E (State.afterLoad s.stack (n, .wait f)) := hi.step hm
      obtain ⟨hiu, -⟩ := steps_old him hnested
      obtain ⟨above, hu⟩ := install_waits hnested rfl
        (fun x hx => habove x (List.mem_append_left _ hx)) (habove (u, ev) (by simp))
      rcases step_stack hlast hu with ⟨above', ht⟩ | ⟨rfl, -, -⟩
      · have hlen := congrArg List.length (ht.symm.trans hr.stack)
        rw [List.length_append, List.length_cons] at hlen
        omega
      · have hu : u.stack = .install f :: s.stack := hu
        obtain rfl := step_install_returns hlast hu hr.stack
        exact ⟨_, f, nested, u, hm, rfl, rfl, hst, List.concat_eq_append, hnested, hu, hlast⟩

/-- A successful reload of a shared reference leaves the entries as they were. -/
theorem shared (hr : Reloads E s fname ch fuel tr t) (hi : Inv E s)
    (hl : s.rt.moduleLookup E fname s.rt.currentRegionId = some p) (he : s.rt.entries p = some e)
    (hs : 1 < e.refcount) : t.rt.core.entries = s.rt.core.entries := by
  obtain ⟨-, m, hm, -⟩ := hr.steps.head
  obtain ⟨L, hw⟩ := hi.wf
  obtain ⟨⟨n, out⟩, hn, rfl⟩ := Res.map_ok.mp hm
  rcases xyReload_shared hw hi.ctxs hi.current.id hl he hs hn with ⟨ret, hret, rfl⟩ | ⟨rfl, hents⟩
  · have hstatus := hr.status
    rw [hr.at_once hm rfl] at hstatus
    cases hstatus
    exact absurd rfl hret
  · rw [hr.at_once hm rfl]
    exact hents

end Reloads
end Xylem

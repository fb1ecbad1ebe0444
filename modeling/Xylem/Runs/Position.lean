import Xylem.Heap.Reinsert
import Xylem.Runs.Order
import Xylem.Runs.Reload

/-!
# The place of a reloaded module

While the new `xy_install` runs, the lists only lose old entries and get new ones behind
them; what is moved within a list is an entry that a nested reload has made. So when it
returns, the entry before the old one still shows where that one was, if it is still there.
-/
namespace Xylem

open Xylem.Runtime

/-- The `xy_install` that the reload made in `s` has started is about to return. -/
structure ReloadReturns (E : Env) (s : State) (fname : String) (ch : LoadChoice) (fuel : Nat)
    (tr : List (State × Event)) (u : State) : Prop where
  steps : Run.Steps (step E) s ((s, .reload fname ch fuel) :: tr) u
  above : ∀ x ∈ tr, s.stack.length < x.1.stack.length
  top : ∃ f, u.stack = .install f :: s.stack

/-- The list of region `r` is in order, and `q` stands in it where `p` stood before: behind the
surviving modules that preceded `p`, and before those that followed it. -/
structure InPlace (s t : Runtime) (r : RegionPtr) (p q : EntryPtr) (l : List EntryPtr) : Prop where
  listed : Listed t r l
  live : ∀ x ∈ l, t.entries x ≠ none
  here : q ∈ l
  before : ∀ l₀ x, s.regionMods r = .ok l₀ → [x, p].Sublist l₀ → t.entries x ≠ none → [x, q].Sublist l
  behind : ∀ l₀ x, s.regionMods r = .ok l₀ → [p, x].Sublist l₀ → t.entries x ≠ none → [q, x].Sublist l

/-- If the frame is that of a reload, what is now under its key is an entry from `n` on. -/
def NewUnder (E : Env) (n : EntryPtr) (s : Runtime) (f : LoadFrame) : Prop :=
  ∀ rf, f.reload = some rf → ∀ q, s.moduleLookup E rf.fname rf.regionId = some q → n ≤ q

section
variable {E : Env} {s t u x y : State} {e : Event} {L : RegionPtr → List EntryPtr} {n : EntryPtr}
  {f g : LoadFrame} {stack above : List Frame}

theorem NewUnder.keeps {s t : Runtime} {L' : RegionPtr → List EntryPtr} (h : NewUnder E n s f)
    (hw : WF s none L) (hw' : WF t none L') (hk : OldKept s.entryNext s t) (hn : n ≤ s.entryNext) :
    NewUnder E n t f := by
  intro rf hrf q hq
  by_contra hlt
  have hold := lookup_kept hw hw' hk ((not_le.mp hlt).trans_le hn) hq
  exact hlt (h rf hrf q hold)

/-- The load under a reload that has only counted finds the entry, and counts it again. -/
theorem modLoad_shared {s v : Runtime} {fname : String} {ch : LoadChoice} {reload : Option ReloadFrame}
    {p : EntryPtr} {e : ModEntry} (hl : s.moduleLookup E fname s.currentRegionId = some p)
    (he : s.entries p = some e)
    (h : ({ s.release p e with reloading := true } : Runtime).modLoad E fname ch reload =
      .ok (v, .done xyOk)) :
    (∀ q, v.links q = s.links q) ∧ v.regions = s.regions ∧ v.modHd = s.modHd := by
  cases modLoad_way h with
  | noImage refs copy files bad err ht hout =>
      obtain ⟨ret, hret, hout⟩ := hout
      cases hout
      exact absurd rfl hret
  | reuse refs copy files bad q x hl' he' ht hout =>
      obtain rfl : p = q := Option.some.inj (hl.symm.trans hl')
      have hx : (s.release p e).entries p = some x := he'
      rw [release_entries, if_pos rfl, Option.some.injEq] at hx
      subst hx
      refine ⟨fun q => ?_, (congrArg Runtime.regions ht : _), (congrArg Runtime.modHd ht : _)⟩
      have hq : v.entries q = Function.update (s.release p e).entries p _ q :=
        congrFun (congrArg Runtime.entries ht) q
      rw [links, hq, links]
      by_cases hqp : q = p
      · subst hqp
        rw [Function.update_self, he]
        rfl
      · rw [Function.update_of_ne hqp, release_entries, if_neg hqp]
  | fresh refs copy files bad hl' =>
      have hnone : s.moduleLookup E fname s.currentRegionId = none := hl'
      rw [hl] at hnone
      cases hnone

/-- The end of a reload puts an entry that has not left its list back where it stands. -/
theorem xyReloadFinish_back {s t : Runtime} {rf : ReloadFrame} {p : EntryPtr} {e : ModEntry}
    (hw : WF s none L) (hok : s.ReloadOk E rf) (hl : s.moduleLookup E rf.fname rf.regionId = some p)
    (he : s.entries p = some e) (hprev : rf.insertAfter = e.regionPrev)
    (h : s.xyReloadFinish E rf = .ok t) : WF t none L := by
  rcases xyReloadFinish_lists hw hok h with ⟨hnone, -⟩ | ⟨q, r, a, b, a', b', hq, -, hab, hcut,
    hlast, hw'⟩
  · rw [hl] at hnone
    cases hnone
  · obtain rfl : p = q := Option.some.inj (hl.symm.trans hq)
    have hsame : a'.getLast? = a.getLast? :=
      hlast.symm.trans (hprev.trans (regionPrev_eq hw hab he))
    have hnd : (a ++ b).Nodup := by
      have hnd := (hw.lists r).nodup
      rw [hab] at hnd
      exact hnd.sublist (List.Sublist.append_left (List.sublist_cons_self p b) a)
    obtain ⟨rfl, rfl⟩ := cut_unique hnd hcut hsame
    rw [← hab, Function.update_eq_self] at hw'
    exact hw'

theorem xyReload_order {s t : Runtime} {fname : String} {ch : LoadChoice} {fuel : Nat}
    {out : Outcome LoadFrame} (hw : WF s none L) (hc : s.CtxsKnown)
    (hcur : (s.regionHd s.currentRegionId).isSome) (hn : n ≤ s.entryNext)
    (h : s.xyReload E fuel fname ch = .ok (t, out)) :
    ∃ L', WF t none L' ∧ ∀ r, OrderKept n (L r) (L' r) := by
  have straight : ∀ {grant : RegionPtr → UInt8 → Prop} {v : Runtime},
      Straights E grant (s, .none) (v, .none) → ∃ L', WF v none L' ∧ ∀ r, OrderKept n (L r) (L' r) := by
    intro grant v hv
    obtain ⟨L', hw', hg, -⟩ := hw.straights hn hv
    exact ⟨L', hw', fun r => (hg r).orderKept⟩
  have hstart := h
  unfold xyReload at h
  cases hl : s.moduleLookup E fname s.currentRegionId with
  | none =>
      simp only [hl, Except.ok.injEq, Prod.mk.injEq] at h
      obtain ⟨rfl, -⟩ := h
      exact ⟨L, hw.sameHeap (setErr_sameHeap _ _), fun r => .refl n _⟩
  | some p =>
      simp only [hl, Res.bind_ok, deref_ok] at h
      obtain ⟨e, he, ⟨m, ret⟩, hu, h⟩ := h
      obtain rfl := modUnload_ret hl hu
      have s1 : Straights E (fun _ _ => True) (s, .none) ({ m with reloading := true }, .none) :=
        (modUnload_straight fuel hu).tail (.scratch (reloading_sameHeap m true))
      have k1 := Prims.keeps s1.prims ⟨L, hw⟩ hc
      obtain ⟨L1, hw1⟩ := k1.wf
      have hcur1 : (m.regionHd m.currentRegionId).isSome := by
        have hid : m.currentRegionId = s.currentRegionId :=
          congrArg Core.currentRegionId (modUnload_unloaded fuel hu).core
        obtain ⟨r, hr⟩ := Option.isSome_iff_exists.mp hcur
        rw [hid]
        exact Option.isSome_iff_exists.mpr ⟨r, k1.regionHd _ _ hr⟩
      simp only [ne_eq, not_true_eq_false, if_false, Res.bind_ok] at h
      obtain ⟨⟨v, out'⟩, hload, h⟩ := h
      have s2 : Straights E (fun _ _ => True) (s, .none) (v, .none) :=
        s1.trans (Straights.mono (fun _ _ _ => trivial) (modLoad_straight hw1 hcur1 hload))
      cases out' with
      | wait f =>
          simp only [Except.ok.injEq, Prod.mk.injEq] at h
          obtain ⟨rfl, -⟩ := h
          exact straight s2
      | done ret =>
          have s3 : Straights E (fun _ _ => True) (s, .none) ({ v with reloading := false }, .none) :=
            s2.tail (.scratch (reloading_sameHeap v false))
          simp only at h
          split at h
          · simp only [Except.ok.injEq, Prod.mk.injEq] at h
            obtain ⟨rfl, -⟩ := h
            exact straight (s3.tail (.scratch (setErr_sameHeap _ _)))
          · rename_i hret
            simp only [Res.bind_ok, Except.ok.injEq, Prod.mk.injEq] at h
            obtain ⟨w, hfin, rfl, rfl⟩ := h
            -- the reload has only counted, and puts the entry back where it was
            have hshared : 1 < e.refcount := by
              by_contra hone
              rcases xyReload_starts hw hc hcur hl he (not_lt.mp hone) hstart with
                ⟨ret, hret, hout⟩ | ⟨f, hout, -⟩
              · cases hout
                exact hret rfl
              · cases hout
            have hm : m = s.release p e := congrArg Prod.fst (modUnload_shared hl he hshared hu)
            subst hm
            have k3 := Prims.keeps s3.prims ⟨L, hw⟩ hc
            obtain ⟨L3, hw3⟩ := k3.wf
            obtain rfl : ret = xyOk := not_not.mp hret
            obtain ⟨hlinks, hregions, hmods⟩ := modLoad_shared hl he hload
            have hL : L3 = L := hw.lists_eq hw3 hlinks fun r =>
              congrArg RegionEntry.modsHead (congrFun hregions r)
            subst hL
            have hlookup : v.moduleLookup E fname s.currentRegionId = some p := by
              rw [moduleLookup, hmods]
              exact hl
            obtain ⟨x, hx⟩ : ∃ x, v.entries p = some x := (hw3.table _ p hlookup).imp fun _ h => h.1
            have hprev : e.regionPrev = x.regionPrev := by
              have hlink := hlinks p
              rw [links, links, he, hx] at hlink
              exact (congrArg Thread.Link.prev (Option.some.inj hlink)).symm
            have hok := (reloadOk_start hw hl he).keeps k3
            have hback := xyReloadFinish_back hw3 hok hlookup hx hprev hfin
            exact ⟨L3, hback.sameHeap (setErr_sameHeap _ _), fun r => .refl n _⟩

/-- The return of a reload's `xy_install`, up to the end of the reload. -/
theorem installRet_reload {rf : ReloadFrame} (hs : u.stack = .install f :: stack)
    (hrf : f.reload = some rf) : step E u .installRet = .ok t ↔
      ∃ v, ({ u.rt.modLoadFinish f with reloading := false } : Runtime).xyReloadFinish E rf = .ok v ∧
        { rt := v.setErr xyOk, stack := stack, status := .returned xyOk [] } = t := by
  have hret : ∀ v, u.rt.installReturn E f = .ok v ↔
      ∃ w, ({ u.rt.modLoadFinish f with reloading := false } : Runtime).xyReloadFinish E rf = .ok w ∧
        w.setErr xyOk = v := by
    intro v
    simp only [Runtime.installReturn, hrf, Res.bind_ok, Except.ok.injEq]
  simp only [step, hs]
  constructor
  · intro h
    obtain ⟨v, hv, rfl⟩ := Res.map_ok.mp h
    obtain ⟨w, hw, rfl⟩ := (hret v).mp hv
    exact ⟨w, hw, rfl⟩
  · rintro ⟨w, hw, rfl⟩
    exact Res.map_ok.mpr ⟨_, (hret _).mpr ⟨w, hw, rfl⟩, rfl⟩

theorem finish_ready {rf : ReloadFrame} (hi : Inv E u) (hw : WF u.rt none L)
    (hs : u.stack = .install f :: stack) (hrf : f.reload = some rf) :
    WF ({ u.rt.modLoadFinish f with reloading := false } : Runtime) none L ∧
      ReloadOk E { u.rt.modLoadFinish f with reloading := false } rf := by
  obtain ⟨-, hrel⟩ := hi.frames (.install f) (by rw [hs]; exact List.mem_cons_self)
  refine ⟨?_, (hrel rf hrf).region, (hrel rf hrf).anchor⟩
  exact hw.congr hw.tree rfl rfl rfl (fun _ => rfl) (fun _ _ => rfl) (fun _ => rfl) (fun _ => rfl)
    fun _ _ => id

/-- A step keeps the order of old entries, as long as a reload that ends moves a newer one. -/
theorem step_order (hi : Inv E s) (hw : WF s.rt none L) (hn : n ≤ s.rt.entryNext)
    (h : step E s e = .ok t)
    (hnew : e = .installRet → ∀ f rest, s.stack = .install f :: rest → NewUnder E n s.rt f) :
    ∃ L', WF t.rt none L' ∧ ∀ r, OrderKept n (L r) (L' r) := by
  by_cases hre : Reinserts s e
  · cases e with
    | reload fname ch fuel =>
        obtain ⟨⟨m, out⟩, hm, rfl⟩ := Res.map_ok.mp h
        obtain ⟨L', hw', hL'⟩ := xyReload_order hw hi.ctxs hi.current.id hn hm
        refine ⟨L', ?_, hL'⟩
        cases out <;> exact hw'
    | installRet =>
        obtain ⟨f, rest, hs, hf⟩ := hre
        obtain ⟨rf, hrf⟩ := Option.ne_none_iff_exists'.mp hf
        obtain ⟨v, hv, rfl⟩ := (installRet_reload hs hrf).mp h
        obtain ⟨hw0, hok⟩ := finish_ready hi hw hs hrf
        rcases xyReloadFinish_lists hw0 hok hv with ⟨-, rfl⟩ | ⟨q, r, a, b, a', b', hq, -, hab,
          hcut, -, hw'⟩
        · exact ⟨L, hw0.sameHeap (setErr_sameHeap _ _), fun r => .refl n _⟩
        · refine ⟨_, hw'.sameHeap (setErr_sameHeap _ _), fun r' => ?_⟩
          by_cases hr : r' = r
          · subst hr
            rw [Function.update_self, hab]
            exact .moved (hnew rfl f rest hs rf hrf q hq) hcut
          · rw [Function.update_of_ne hr]
            exact .refl n _
    | _ => exact absurd hre id
  · obtain ⟨L', hw', hg⟩ := step_grown hi hw hn h hre
    exact ⟨L', hw', fun r => (hg r).orderKept⟩

theorem xyReload_newUnder {s t : Runtime} {L' : RegionPtr → List EntryPtr} {fname : String}
    {ch : LoadChoice} {fuel : Nat} (hw : WF s none L) (hw' : WF t none L') (hc : s.CtxsKnown)
    (hcur : (s.regionHd s.currentRegionId).isSome) (hk : OldKept s.entryNext s t)
    (hn : n ≤ s.entryNext) (h : s.xyReload E fuel fname ch = .ok (t, .wait f)) :
    NewUnder E n t f := by
  cases hl : s.moduleLookup E fname s.currentRegionId with
  | none =>
      simp only [xyReload, hl, Except.ok.injEq, Prod.mk.injEq] at h
      cases h.2
  | some p =>
      obtain ⟨x, hx, -⟩ := hw.table _ p hl
      by_cases hone : x.refcount ≤ 1
      · rcases xyReload_starts hw hc hcur hl hx hone h with ⟨ret, -, hout⟩ | ⟨g, hout, hst⟩
        · cases hout
        · obtain rfl : f = g := Outcome.wait.inj hout
          rintro rf hrf q hq
          rw [hst.frame, Option.some.injEq] at hrf
          subst hrf
          by_contra hlt
          have hold := lookup_kept hw hw' hk ((not_le.mp hlt).trans_le hn) hq
          obtain rfl : p = q := Option.some.inj (hl.symm.trans hold)
          obtain ⟨z, hz, -⟩ := hw'.table _ p hq
          rw [hst.gone] at hz
          cases hz
      · rcases xyReload_shared hw hc hcur hl hx (not_le.mp hone) h with ⟨ret, -, hout⟩ | ⟨hout, -⟩
        · cases hout
        · cases hout

theorem pushed_newUnder (hi : Inv E s) (hn : n ≤ s.rt.entryNext) (h : step E s e = .ok t)
    (hs : t.stack = .install f :: s.stack) : NewUnder E n t.rt f := by
  have none : f.reload = none → NewUnder E n t.rt f := by
    intro hf rf hrf
    rw [hf] at hrf
    cases hrf
  have kept : ∀ {l : List Frame}, t.stack = l → l.length ≤ s.stack.length → NewUnder E n t.rt f := by
    intro l hl hlen
    rw [← hl, hs, List.length_cons] at hlen
    exact absurd hlen (Nat.not_succ_le_self _)
  have turn : ∀ {m : Runtime} {c : CallFrame} {stack : List Frame}, stack.length ≤ s.stack.length →
      Turn m stack c t → NewUnder E n t.rt f := by
    intro m c stack hlen hturn
    cases hturn with
    | ends hc hs' hst => exact kept hs' hlen
    | enters k p me c he hctx hc hs' hst =>
        rw [hs] at hs'
        cases (List.cons.inj hs').1
  obtain ⟨L, hw⟩ := hi.wf
  have hi' := hi.step h
  obtain ⟨L', hw'⟩ := hi'.wf
  obtain ⟨-, hk⟩ := step_old hi h
  cases step_effect hi h with
  | areg hooks hc hs' => exact kept hs' le_rfl
  | selfInitCtx hc hs' => exact kept hs' le_rfl
  | load out hl hs' =>
      cases out with
      | done ret => exact kept hs' le_rfl
      | wait g =>
          obtain rfl : f = g := Frame.install.inj (List.cons.inj (hs.symm.trans hs')).1
          cases hl with
          | fresh _ hl hmem him ha hf =>
              cases hf
              exact none rfl
  | unload m ret hu hc hs' => exact kept hs' le_rfl
  | @reload fname ch fuel _ _ _ _ =>
      obtain ⟨⟨m, out⟩, hm, rfl⟩ := Res.map_ok.mp h
      cases out with
      | done ret => exact kept rfl le_rfl
      | wait g =>
          obtain rfl : g = f := Frame.install.inj (List.cons.inj hs).1
          exact xyReload_newUnder hw hw' hi.ctxs hi.current.id hk hn hm
  | deny r hr hc hs' => exact kept hs' le_rfl
  | requireClaim r hr hc hs' => exact kept hs' le_rfl
  | call m f hooks hm hid hturn => exact turn le_rfl hturn
  | last hc hs' => exact kept hs' le_rfl
  | noRegion hc hs' => exact kept hs' le_rfl
  | withRegion r hr hc hs' =>
      rw [hs] at hs'
      cases (List.cons.inj hs').1
  | bodyRet c stack hst hturn => exact turn (by rw [hst]; exact Nat.le_succ _) hturn
  | installRet g stack hst hc hs' => exact kept hs' (by rw [hst]; exact Nat.le_succ _)
  | scopeRet id r stack hst hc hs' => exact kept hs' (by rw [hst]; exact Nat.le_succ _)

/-- What holds while the `xy_install` of a reload waits, made when the next entry was `n` and
the lists were `L₀`. -/
structure Episode (E : Env) (n : EntryPtr) (f : LoadFrame) (stack : List Frame)
    (L₀ : RegionPtr → List EntryPtr) (s : State) : Prop where
  inv : Inv E s
  next : n ≤ s.rt.entryNext
  frames : ∃ above, s.stack = above ++ .install f :: stack ∧
    ∀ g, g = f ∨ .install g ∈ above → NewUnder E n s.rt g
  order : ∃ L, WF s.rt none L ∧ ∀ r, OrderKept n (L₀ r) (L r)

theorem Episode.step (h : Episode E n f stack L s) (hs : step E s e = .ok t)
    (ht : stack.length < t.stack.length) : Episode E n f stack L t := by
  obtain ⟨hi, hn, ⟨above, hst, hnew⟩, L₁, hw, hL⟩ := h
  have hi' := hi.step hs
  obtain ⟨hn', hk⟩ := step_old hi hs
  have htop : e = .installRet → ∀ g rest, s.stack = .install g :: rest → NewUnder E n s.rt g := by
    intro _ g rest hg
    rw [hst] at hg
    cases above with
    | nil => exact hnew g (.inl (Frame.install.inj (List.cons.inj hg).1).symm)
    | cons k above =>
        rw [(List.cons.inj hg).1] at hnew
        exact hnew g (.inr List.mem_cons_self)
  obtain ⟨L₂, hw', hL'⟩ := step_order hi hw hn hs htop
  obtain ⟨above', hst', hfrom⟩ := step_above hs hst ht
  refine ⟨hi', hn.trans hn', ⟨above', hst', fun g hg => ?_⟩, L₂, hw', fun r => (hL r).trans (hL' r)⟩
  rcases hg with rfl | hg
  · exact (hnew g (.inl rfl)).keeps hw hw' hk hn
  · rcases hfrom g hg with hg | hpush
    · exact (hnew g (.inr hg)).keeps hw hw' hk hn
    · exact pushed_newUnder hi hn hs hpush

theorem Episode.run {tr : List (State × Event)} (h : Episode E n f stack L s)
    (hrun : Run.Steps (Xylem.step E) s tr t) (habove : ∀ x ∈ tr, stack.length < x.1.stack.length)
    (ht : stack.length < t.stack.length) : Episode E n f stack L t := by
  induction hrun with
  | nil => exact h
  | @snoc m t tr e hrun hs ih =>
      refine (ih (fun x hx => habove x (List.mem_append_left _ hx)) ?_).step hs ht
      exact habove (m, e) (by simp)

end

section
variable {E : Env} {s₀ s t u : State} {fname : String} {ch : LoadChoice} {fuel : Nat}
  {tr₀ tr : List (State × Event)} {p q : EntryPtr} {e : ModEntry} {L : RegionPtr → List EntryPtr}

/-- When the new `xy_install` is about to return, old entries are in order. -/
theorem ReloadReturns.episode (h : ReloadReturns E s fname ch fuel tr u) (hi : Inv E s)
    (hw : WF s.rt none L) (hl : s.rt.moduleLookup E fname s.rt.currentRegionId = some p)
    (he : s.rt.entries p = some e) (hone : e.refcount ≤ 1) :
    ∃ f, Episode E s.rt.entryNext f s.stack L u ∧ u.stack = .install f :: s.stack ∧
      f.reload = some ⟨fname, s.rt.currentRegionId, e.regionPrev, e.regionEntry⟩ ∧
      OldKept s.rt.entryNext s.rt u.rt := by
  obtain ⟨g, hg⟩ := h.top
  obtain ⟨-, m, hm, hrun⟩ := h.steps.head
  have him := hi.step hm
  obtain ⟨hnext, hk⟩ := step_old hi hm
  obtain ⟨Lm, hwm, hLm⟩ := step_order hi hw le_rfl hm (fun hc => (by cases hc))
  obtain ⟨⟨n, out⟩, hn, rfl⟩ := Res.map_ok.mp hm
  rcases xyReload_starts hw hi.ctxs hi.current.id hl he hone hn with ⟨ret, hret, rfl⟩ | ⟨f, rfl, hst⟩
  · -- the reload has not waited, and the stack is as it was
    exfalso
    cases tr with
    | nil =>
        have hstack := congrArg State.stack (Run.steps_nil hrun)
        have hlen := congrArg List.length (hg.symm.trans hstack)
        exact absurd hlen (Nat.succ_ne_self _)
    | cons x tr =>
        obtain ⟨m, ev⟩ := x
        obtain ⟨rfl, -⟩ := hrun.head
        exact absurd (h.above _ List.mem_cons_self) (lt_irrefl _)
  · have hstart : Episode E s.rt.entryNext f s.stack L (State.afterLoad s.stack (n, .wait f)) := by
      refine ⟨him, hnext, ⟨[], rfl, fun g hg => ?_⟩, Lm, hwm, hLm⟩
      rcases hg with rfl | hg
      · exact pushed_newUnder hi le_rfl hm rfl
      · cases hg
    have hend := hstart.run hrun h.above (by rw [hg]; exact Nat.lt_succ_self _)
    obtain ⟨above, hstack, -⟩ := hend.frames
    have hgf : g = f := by
      cases above with
      | nil => exact Frame.install.inj (List.cons.inj (hg.symm.trans hstack)).1
      | cons k above =>
          have hlen := congrArg List.length (hg.symm.trans hstack)
          simp only [List.length_append, List.length_cons] at hlen
          omega
    subst hgf
    obtain ⟨-, hnext', hk'⟩ := steps_old him hrun
    have hold : OldKept s.rt.entryNext s.rt u.rt := hk.trans fun q hq => hk' q (hq.trans_le hnext)
    exact ⟨g, hend, hg, congrArg LoadFrame.reload hst.frame, hold⟩

theorem stays_listed {s t : Runtime} {L' : RegionPtr → List EntryPtr} (hw : WF s none L)
    (hw' : WF t none L') (hk : OldKept s.entryNext s t) {id : RegionId} {r : RegionPtr}
    (hr : s.regionHd id = some r) (hr' : t.regionHd id = some r) {x : EntryPtr} (hx : x ∈ L r)
    (hlive : t.entries x ≠ none) : x ∈ L' r := by
  obtain ⟨-, e, he, -, hre⟩ := hw.member r x hx
  obtain ⟨e', he'⟩ := Option.ne_none_iff_exists'.mp hlive
  obtain ⟨e0, he0, hid⟩ := hk x (hw.mem_lt hx) e' he'
  cases he.symm.trans he0
  have hregion : e'.regionId = e.regionId := (congrArg ModEntry.regionId hid : _)
  have hsame : e.regionId = id :=
    (hw.tree.hd_node _ _ hre).2.symm.trans (hw.tree.hd_node _ _ hr).2
  obtain ⟨r', -, hr'', hx'⟩ := hw'.region_of he' (by simp)
  rw [hregion, hsame, hr', Option.some.injEq] at hr''
  exact hr'' ▸ hx'

/-- An entry is in place when the survivors of what stood before the old one stand before it,
and the survivors of what stood behind stand behind. -/
theorem inPlace_of_cut {s t : Runtime} (hw : WF s none L) {r : RegionPtr} {c d a b : List EntryPtr}
    (hcd : L r = c ++ p :: d) (hlisted : Listed t r (a ++ q :: b))
    (hlive : ∀ x ∈ a ++ q :: b, t.entries x ≠ none) (hfront : ∀ x ∈ c, t.entries x ≠ none → x ∈ a)
    (hback : ∀ x ∈ d, t.entries x ≠ none → x ∈ b) : InPlace s t r p q (a ++ q :: b) := by
  have hnd : (c ++ p :: d).Nodup := hcd ▸ (hw.lists r).nodup
  have irrefl : ¬ [p, p].Sublist (c ++ p :: d) := fun h =>
    (List.nodup_cons.mp (hnd.sublist h)).1 List.mem_cons_self
  refine ⟨hlisted, hlive, by simp, fun l₀ x hl₀ hpair hx => ?_, fun l₀ x hl₀ hpair hx => ?_⟩
  · cases (hw.regionMods r).symm.trans hl₀
    rw [hcd] at hpair
    have hxc : x ∈ c := by
      have hpair' : [x, p].Sublist ((c ++ [p]) ++ d) := by simpa using hpair
      have hnd' : ((c ++ [p]) ++ d).Nodup := by simpa using hnd
      rcases List.mem_append.mp (mem_of_pair hnd' hpair' (by simp)) with hmem | hmem
      · exact hmem
      · exact absurd ((List.mem_singleton.mp hmem) ▸ hpair) irrefl
    exact List.Sublist.append (List.singleton_sublist.mpr (hfront x hxc hx))
      (List.singleton_sublist.mpr List.mem_cons_self)
  · cases (hw.regionMods r).symm.trans hl₀
    rw [hcd] at hpair
    have hxd : x ∈ d := by
      rcases List.mem_append.mp (hpair.subset (by simp : x ∈ [p, x])) with hmem | hmem
      · have hpc := mem_of_pair hnd hpair hmem
        exact absurd rfl ((List.nodup_append.mp hnd).2.2 p hpc p List.mem_cons_self)
      · rcases List.mem_cons.mp hmem with rfl | hmem
        · exact absurd hpair irrefl
        · exact hmem
    exact (List.Sublist.cons_cons q (List.singleton_sublist.mpr (hback x hxd hx))).trans
      (List.sublist_append_right a _)

/-- A reload with one reference puts the module in its place just if the entry that stood
before it, if there was one, is still there when the new `xy_install` returns. -/
theorem reload_in_place (h : Runs E s₀ tr₀ s) (hr : ReloadReturns E s fname ch fuel tr u)
    (hl : s.rt.moduleLookup E fname s.rt.currentRegionId = some p) (he : s.rt.entries p = some e)
    (hone : e.refcount = 1) {r : RegionPtr} (hreg : s.rt.regionHd s.rt.currentRegionId = some r)
    (hq : u.rt.moduleLookup E fname s.rt.currentRegionId = some q) :
    (∃ t l, step E u .installRet = .ok t ∧ InPlace s.rt t.rt r p q l) ↔
      ∀ a, e.regionPrev = some a → u.rt.entries a ≠ none := by
  have hi := h.inv
  obtain ⟨L, hw⟩ := hi.wf
  obtain ⟨f, hep, hu, hrf, hold⟩ := hr.episode hi hw hl he hone.le
  obtain ⟨L', hw', hL'⟩ := hep.order
  obtain ⟨hw0, hok⟩ := finish_ready hep.inv hw' hu hrf
  have hq0 : ({ u.rt.modLoadFinish f with reloading := false } : Runtime).moduleLookup E fname
      s.rt.currentRegionId = some q := hq
  constructor
  · rintro ⟨t, l, ht, -⟩ x hx
    obtain ⟨v, hv, -⟩ := (installRet_reload hu hrf).mp ht
    exact xyReloadFinish_anchor hw0 hok (fun hc => absurd (hq0.symm.trans hc) (by simp)) hv hx
  · intro halive
    obtain ⟨v, hv⟩ := xyReloadFinish_total hw0 hok halive
    rcases xyReloadFinish_lists hw0 hok hv with ⟨hnone, -⟩ | ⟨q', r', a, b, a', b', hq', hr', hab,
      hcut, hlast, hwv⟩
    · exact absurd (hq0.symm.trans hnone) (by simp)
    · obtain rfl : q = q' := Option.some.inj (hq0.symm.trans hq')
      have hid : e.regionId = s.rt.currentRegionId := hw.lookup_region hl he
      obtain ⟨r₀, hre, hr₀, hp⟩ := hw.region_of he (by simp)
      obtain rfl : r = r₀ := Option.some.inj (hreg.symm.trans (hid ▸ hr₀))
      obtain rfl : r = r' := Option.some.inj (hre.symm.trans hr')
      have hregu : u.rt.regionHd s.rt.currentRegionId = some r := by
        obtain ⟨r₁, hr₁, hre₁⟩ := hok.region
        obtain rfl : r = r₁ := Option.some.inj (hre.symm.trans hre₁)
        exact hr₁
      have hnew : s.rt.entryNext ≤ q := by
        obtain ⟨_, _, hnew⟩ := hep.frames
        exact hnew f (.inl rfl) _ hrf q hq
      obtain ⟨c, d, hcd⟩ := List.append_of_mem hp
      have hlast : e.regionPrev = a'.getLast? := hlast
      have hprev : a'.getLast? = c.getLast? := hlast.symm.trans (regionPrev_eq hw hcd he)
      have hnd : (c ++ p :: d).Nodup := hcd ▸ (hw.lists r).nodup
      have hlt : ∀ x ∈ c ++ p :: d, x < s.rt.entryNext := fun x hx => hw.mem_lt (hcd ▸ hx)
      -- without the new entry, the list is what is left of the old one and what came behind
      have hkept : OrderKept s.rt.entryNext (c ++ p :: d) (a' ++ b') := by
        have hdrop : OrderKept s.rt.entryNext (a ++ q :: b) (a ++ b) :=
          (Grown.of_sublist (List.Sublist.append_left (List.sublist_cons_self q b) a)).orderKept
        have hL := hL' r
        rw [hcd, hab] at hL
        rw [hcut]
        exact hL.trans hdrop
      obtain ⟨hfront, hback⟩ := cut_between hnd hlt hkept hprev
      have hents : ∀ x, (v.setErr xyOk).entries x ≠ none → u.rt.entries x ≠ none := by
        intro x hx hnone
        have hx' : (v.entries x).map ModEntry.core = (u.rt.entries x).map ModEntry.core :=
          congrFun (congrArg Core.entries (xyReloadFinish_core hw0 hok hv)) x
        rw [hnone] at hx'
        exact hx (Option.map_eq_none_iff.mp hx')
      have survives : ∀ x, x ∈ c ++ p :: d → (v.setErr xyOk).entries x ≠ none → x ∈ a' ++ b' := by
        intro x hx hlive
        have hmem := stays_listed hw hw' hold hreg hregu (hcd ▸ hx) (hents x hlive)
        rw [hab, List.mem_append, List.mem_cons] at hmem
        rw [hcut, List.mem_append]
        rcases hmem with hmem | rfl | hmem
        · exact .inl hmem
        · exact absurd (hlt x hx) (not_lt.mpr hnew)
        · exact .inr hmem
      have hwt := hwv.sameHeap (setErr_sameHeap v xyOk)
      have hlisted : Listed (v.setErr xyOk) r (a' ++ q :: b') := by
        have hlists := hwt.lists r
        rwa [Function.update_self] at hlists
      refine ⟨_, _, (installRet_reload hu hrf).mpr ⟨v, hv, rfl⟩, inPlace_of_cut hw hcd hlisted ?_ ?_ ?_⟩
      · intro x hx
        refine hwt.live_listed (r := r) ?_
        rwa [Function.update_self]
      · exact fun x hx hlive => hfront x hx (survives x (List.mem_append_left _ hx) hlive)
      · intro x hx hlive
        have hmem : x ∈ c ++ p :: d := List.mem_append_right _ (List.mem_cons_of_mem p hx)
        exact hback x hx (survives x hmem hlive)

/-- `q` is reloaded behind `p`, and its `xy_install` does nothing. -/
theorem reload_in_place_behind : ∃ s u t l, ReloadReturns sampleEnv s "q" { addr := 3 } 5 [] u ∧
    step sampleEnv u .installRet = .ok t ∧ InPlace s.rt t.rt 0 1 2 l := by
  obtain ⟨s, hs, hP⟩ := sample_check
    [.load "p" { addr := 1 }, .installRet, .load "q" { addr := 2 }, .installRet]
    (fun s => decide (s.rt.moduleLookup sampleEnv "q" s.rt.currentRegionId = some 1 ∧
      (s.rt.entries 1).map (fun e => (e.refcount, e.regionPrev)) = some (1, some 0) ∧
      s.rt.regionHd s.rt.currentRegionId = some 0) &&
      Run.check (step sampleEnv) s [.reload "q" { addr := 3 } 5] fun u =>
        decide (u.stack = .install ⟨2, 0, some 0, none, some ⟨"q", 0, some 0, some 0⟩⟩ :: s.stack ∧
          u.rt.moduleLookup sampleEnv "q" s.rt.currentRegionId = some 2 ∧ (u.rt.entries 0).isSome))
    (by decide)
  rw [Bool.and_eq_true] at hP
  obtain ⟨hl, he, hr⟩ := of_decide_eq_true hP.1
  obtain ⟨u, hu, hobs⟩ := Run.of_check hP.2
  obtain ⟨htop, hq, hlive⟩ := of_decide_eq_true hobs
  obtain ⟨e, he, hen⟩ := Option.map_eq_some_iff.mp he
  obtain ⟨hone, hprev⟩ := Prod.mk.inj hen
  have hret : ReloadReturns sampleEnv s "q" { addr := 3 } 5 [] u :=
    ⟨.cons (Run.exec_single hu) (.nil u), fun _ hx => absurd hx List.not_mem_nil, _, htop⟩
  have halive : ∀ a, e.regionPrev = some a → u.rt.entries a ≠ none := by
    intro a ha
    rw [hprev, Option.some.injEq] at ha
    exact ha ▸ Option.isSome_iff_ne_none.mp hlive
  obtain ⟨t, l, ht, hplace⟩ := (reload_in_place (sample_runs hs) hret hl he hone hr hq).mpr halive
  exact ⟨s, u, t, l, hret, ht, hplace⟩

/-- The new `xy_install` of `q` unloads `p`, which stands before it: `xy_reload` writes to the
freed entry. -/
theorem reload_anchor_freed : ∃ tr₀ s m u e, Runs sampleEnv sampleState tr₀ s ∧
    ReloadReturns sampleEnv s "q" { addr := 3 } 5 [(m, .unload "p" 5)] u ∧
    s.rt.moduleLookup sampleEnv "q" s.rt.currentRegionId = some 1 ∧ s.rt.entries 1 = some e ∧
    e.refcount = 1 ∧ u.rt.moduleLookup sampleEnv "q" s.rt.currentRegionId = some 2 ∧
    step sampleEnv u .installRet = .error .useAfterFree ∧
    ¬ ∃ t l, step sampleEnv u .installRet = .ok t ∧ InPlace s.rt t.rt 0 1 2 l := by
  obtain ⟨s, hs, hP⟩ := sample_check
    [.load "p" { addr := 1 }, .installRet, .load "q" { addr := 2 }, .installRet]
    (fun s => decide (s.rt.moduleLookup sampleEnv "q" s.rt.currentRegionId = some 1 ∧
      (s.rt.entries 1).map ModEntry.refcount = some 1) &&
      Run.check (step sampleEnv) s [.reload "q" { addr := 3 } 5] fun m =>
        decide (m.stack = .install ⟨2, 0, some 0, none, some ⟨"q", 0, some 0, some 0⟩⟩ :: s.stack) &&
        Run.check (step sampleEnv) m [.unload "p" 5] fun u =>
          decide (u.stack = m.stack ∧
            u.rt.moduleLookup sampleEnv "q" s.rt.currentRegionId = some 2 ∧
            (step sampleEnv u .installRet).map (fun _ => ()) = .error .useAfterFree))
    (by decide)
  rw [Bool.and_eq_true] at hP
  obtain ⟨hl, he⟩ := of_decide_eq_true hP.1
  obtain ⟨m, hm, hP⟩ := Run.of_check hP.2
  rw [Bool.and_eq_true] at hP
  have htop := of_decide_eq_true hP.1
  obtain ⟨u, hu, hobs⟩ := Run.of_check hP.2
  obtain ⟨hstack, hq, hfault⟩ := of_decide_eq_true hobs
  obtain ⟨e, he, hone⟩ := Option.map_eq_some_iff.mp he
  have herr : step sampleEnv u .installRet = .error .useAfterFree := by
    cases h : step sampleEnv u .installRet with
    | error f =>
        rw [h] at hfault
        cases hfault
        rfl
    | ok t =>
        rw [h] at hfault
        cases hfault
  have habove : ∀ x ∈ [(m, Event.unload "p" 5)], s.stack.length < x.1.stack.length := by
    intro x hx
    rw [List.mem_singleton.mp hx, htop]
    exact Nat.lt_succ_self _
  refine ⟨_, s, m, u, e, sample_runs hs,
    ⟨.cons (Run.exec_single hm) (.cons (Run.exec_single hu) (.nil u)),
    habove, _, hstack.trans htop⟩, hl, he, hone, hq, herr, ?_⟩
  rintro ⟨t, l, ht, -⟩
  rw [herr] at ht
  cases ht

end
end Xylem

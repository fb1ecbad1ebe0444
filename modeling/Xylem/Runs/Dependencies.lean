import Xylem.Runs.Order
import Xylem.Runs.Parents
import Xylem.Runs.Script

namespace Xylem

open Xylem.Runtime

/-- In the root region's dispatch order every module that the `xy_install` of another
module has loaded for the first time stands before that module. -/
def DependenciesFirst (s : Runtime) : Prop :=
  ∀ l c q, s.regionMods 0 = .ok l → s.loader c = some q → [c, q].Sublist l

/-- Whenever the host loads a module that is not loaded yet, the module's `xy_install` names
only modules that the host has loaded before, or the module itself. -/
def HostFirst (E : Env) (script : String → List String) : List String → List String → Prop
  | _, [] => True
  | known, fname :: names =>
      (E.moduleLoadPath fname ∈ known ∨ ∀ f ∈ script (E.moduleLoadPath fname),
        E.moduleLoadPath f ∈ E.moduleLoadPath fname :: known) ∧
      HostFirst E script (E.moduleLoadPath fname :: known) names

inductive LoadLinks (s t : State) : Prop
  | back (hst : t.status ≠ .entered) (hl : t.rt.loader = s.rt.loader)
      (hm : t.rt.loadingMod = s.rt.loadingMod) (hn : s.rt.entryNext ≤ t.rt.entryNext)
      (hs : t.stack = s.stack)
  | enters (hst : t.status = .entered)
      (hl : t.rt.loader = Function.update s.rt.loader s.rt.entryNext s.rt.loadingMod)
      (hm : t.rt.loadingMod = some s.rt.entryNext) (f : LoadFrame)
      (hs : t.stack = .install f :: s.stack) (hp : f.prevLoadingMod = s.rt.loadingMod)
      (hr : f.reload = none) (hn : s.rt.entryNext < t.rt.entryNext)

section
variable {E : Env} {s t : State} {fname : String} {ch : LoadChoice}

theorem loader_eq {m n : Runtime} (h : n.core.entries = m.core.entries) : n.loader = m.loader :=
  funext fun c => loader_congr (congrFun h c)

theorem load_links (hi : Inv E s) (h : step E s (.load fname ch) = .ok t) : LoadLinks s t := by
  obtain ⟨⟨n, out⟩, hr, rfl⟩ := Res.map_ok.mp h
  obtain ⟨⟨m, out'⟩, hm, hr⟩ := Res.bind_ok.mp hr
  obtain ⟨L, hw⟩ := hi.wf
  have heff := modLoad_effect hw hi.current.id hm
  have hn : s.rt.entryNext ≤ m.entryNext :=
    (Prims.keeps (modLoad_prims hw hi.current.id hm) ⟨L, hw⟩ hi.ctxs).entryNext
  cases out' with
  | done ret =>
      cases hr
      have same : m.core.entries = s.rt.core.entries → m.loadingMod = s.rt.loadingMod →
          LoadLinks s (State.afterLoad s.stack (m.setErr ret, .done ret)) :=
        fun he hm => .back (by simp [State.afterLoad]) (loader_eq he) hm hn rfl
      cases heff with
      | same ret hret ht => exact same (congrArg Core.entries ht : _) (congrArg Core.loadingMod ht : _)
      | reuse p e hl he ht =>
          refine .back (by simp [State.afterLoad]) ?_ (congrArg Core.loadingMod ht : _) hn rfl
          funext c
          have hent : m.core.entries c =
            (s.rt.setEntry p (some { e with refcount := e.refcount + 1 })).core.entries c :=
            congrFun (congrArg Core.entries ht) c
          refine (loader_congr hent).trans ?_
          by_cases hc : c = p
          · subst hc
            simp [loader, setEntry, he]
          · simp [loader, setEntry, Function.update_of_ne hc]
      | fresh out hl hmem him ha hf =>
          cases hf with
          | refused ret hret ht =>
              exact same (congrArg Core.entries ht : _) (congrArg Core.loadingMod ht : _)
          | noInstall hi id r T index hp ht =>
              exact same (congrArg Core.entries ht : _) (congrArg Core.loadingMod ht : _)
  | wait f =>
      cases hr
      cases heff with
      | fresh out hl hmem him ha hf =>
          cases hf with
          | installs fn hi id r T index hp ht =>
              refine .enters rfl ?_ (congrArg Core.loadingMod ht : _) _ rfl rfl rfl ?_
              · funext c
                have hent : n.core.entries = Function.update s.rt.core.entries s.rt.entryNext _ :=
                  congrArg Core.entries ht
                show n.loader c = _
                rw [loader_core, hent, Function.update_apply, Function.update_apply]
                split
                · rfl
                · exact (loader_core s.rt c).symm
              · have hnext : n.entryNext = s.rt.entryNext + 1 := congrArg Core.entryNext ht
                exact hnext ▸ Nat.lt_succ_self _

/-- Every entry is younger than its loader, and so will be the next one. -/
structure Rooted (s : State) : Prop where
  older : ∀ c q, s.rt.loader c = some q → q < c
  loading : ∀ q, s.rt.loadingMod = some q → q < s.rt.entryNext
  frames : ∀ f, .install f ∈ s.stack → f.reload = none ∧
    ∀ q, f.prevLoadingMod = some q → q < s.rt.entryNext
  ascending : ∃ L, WF s.rt none L ∧ WF.Ascending L

/-- Some module was loaded for the first time by another's `xy_install`. -/
def Pulled (s : State) : Prop := ∃ c q, s.rt.loader c = some q

theorem Rooted.not_reinserts (h : Rooted s) {fname : String} {ch : LoadChoice} :
    ¬ Reinserts s (.load fname ch) ∧ ¬ Reinserts s .installRet := by
  refine ⟨id, ?_⟩
  rintro ⟨f, rest, hs, hf⟩
  exact hf (h.frames f (by rw [hs]; exact List.mem_cons_self)).1

theorem Rooted.load (h : Rooted s) (hi : Inv E s) (hs : step E s (.load fname ch) = .ok t) :
    Rooted t := by
  obtain ⟨L, hw⟩ := hi.wf
  have hasc := step_ascending hi h.ascending hs h.not_reinserts.1
  cases load_links hi hs with
  | back hst hl hm hn hstack =>
      exact ⟨hl ▸ h.older, fun q hq => (h.loading q (hm ▸ hq)).trans_le hn,
        hstack ▸ fun f hf => ⟨(h.frames f hf).1, fun q hq => ((h.frames f hf).2 q hq).trans_le hn⟩, hasc⟩
  | enters hst hl hm f hstack hp hr hn =>
      refine ⟨fun c q hq => ?_, fun q hq => ?_, fun g hg => ?_, hasc⟩
      · rw [hl, Function.update_apply] at hq
        split at hq
        · rename_i hc
          exact hc ▸ h.loading q hq
        · exact h.older c q hq
      · rw [hm] at hq
        exact Option.some.inj hq ▸ hn
      · rw [hstack] at hg
        rcases List.mem_cons.mp hg with hg | hg
        · cases hg
          exact ⟨hr, fun q hq => (h.loading q (hp ▸ hq)).trans hn⟩
        · exact ⟨(h.frames g hg).1, fun q hq => ((h.frames g hg).2 q hq).trans hn⟩

theorem installRet_links (h : Rooted s) (hs : step E s .installRet = .ok t) :
    ∃ f, s.stack = .install f :: t.stack ∧ t.rt.loadingMod = f.prevLoadingMod ∧
      t.rt.entries = s.rt.entries ∧ t.rt.entryNext = s.rt.entryNext ∧ t.rt.modHd = s.rt.modHd := by
  simp only [step] at hs
  split at hs
  · rename_i f rest hst
    obtain ⟨r, hr, rfl⟩ := Res.map_ok.mp hs
    have hf := (h.frames f (by rw [hst]; exact List.mem_cons_self)).1
    simp only [installReturn, hf, Except.ok.injEq] at hr
    subst hr
    exact ⟨f, hst, rfl, rfl, rfl, rfl⟩
  · cases hs

theorem Rooted.installRet (h : Rooted s) (hi : Inv E s) (hs : step E s .installRet = .ok t) :
    Rooted t := by
  have hasc := step_ascending hi h.ascending hs (@Rooted.not_reinserts s h "" {}).2
  obtain ⟨f, hstack, hm, hents, hnext, -⟩ := installRet_links h hs
  have hl : t.rt.loader = s.rt.loader := by
    funext c
    rw [loader, loader, hents]
  refine ⟨hl ▸ h.older, fun q hq => ?_, fun g hg => ?_, hasc⟩
  · rw [hm] at hq
    exact hnext ▸ (h.frames f (by rw [hstack]; exact List.mem_cons_self)).2 q hq
  · rw [hnext]
    exact h.frames g (by rw [hstack]; exact List.mem_cons_of_mem _ hg)

end

namespace Progress
variable {E : Env} {malloc : Runtime → Addr} {script : String → List String} {p p' : Progress}
  {files : Finset String} {K : List String}

/-- A load comes straight back, or runs the `xy_install` to its end. -/
inductive LoadRun (E : Env) (malloc : Runtime → Addr) (script : String → List String) (fuel : Nat)
    (p p' : Progress) (fname : String) : Prop
  | back (hs : step E p.state (.load fname { addr := malloc p.state.rt }) = .ok p'.state)
      (hst : p'.state.status ≠ .entered)
  | installs (p₁ p₂ : Progress)
      (hs : step E p.state (.load fname { addr := malloc p.state.rt }) = .ok p₁.state)
      (hst : p₁.state.status = .entered)
      (h2 : loadAll E malloc script fuel p₁ (script (E.moduleLoadPath fname)) = .ok p₂)
      (ht : step E p₂.state .installRet = .ok p'.state)

theorem load_run {fuel : Nat} {fname : String}
    (h : load E malloc script fuel p fname = .ok p') :
    ∃ fuel', fuel = fuel' + 1 ∧ LoadRun E malloc script fuel' p p' fname := by
  cases fuel with
  | zero => cases h
  | succ fuel =>
      obtain ⟨s, hs, h⟩ := Res.bind_ok.mp h
      refine ⟨fuel, rfl, ?_⟩
      split at h
      · rename_i hst
        obtain ⟨p₂, h2, h⟩ := Res.bind_ok.mp h
        obtain ⟨t, ht, h⟩ := Res.bind_ok.mp h
        cases h
        exact .installs _ p₂ hs hst h2 ht
      · rename_i hst
        cases h
        exact .back hs hst

theorem loadAll_cons {fuel : Nat} {fname : String} {names : List String}
    (h : loadAll E malloc script fuel p (fname :: names) = .ok p') :
    ∃ p₁, load E malloc script fuel p fname = .ok p₁ ∧
      loadAll E malloc script fuel p₁ names = .ok p' := by
  rw [loadAll, List.foldlM_cons] at h
  exact Res.bind_ok.mp h

/-- What every load and every return from an `xy_install` keeps, whole loads keep. -/
theorem loadAll_keeps {P : State → Prop}
    (hload : ∀ s fname ch t, P s → step E s (.load fname ch) = .ok t → P t)
    (hret : ∀ s t, P s → step E s .installRet = .ok t → P t) (fuel : Nat) :
    ∀ {names : List String} {p p' : Progress}, P p.state →
      loadAll E malloc script fuel p names = .ok p' → P p'.state := by
  induction fuel with
  | zero =>
      intro names p p' hP h
      cases names with
      | nil =>
          cases h
          exact hP
      | cons fname names =>
          obtain ⟨p₁, h1, -⟩ := loadAll_cons h
          cases h1
  | succ fuel ih =>
      intro names
      induction names with
      | nil =>
          intro p p' hP h
          cases h
          exact hP
      | cons fname names ihn =>
          intro p p' hP h
          obtain ⟨p₁, h1, h⟩ := loadAll_cons h
          refine ihn ?_ h
          obtain ⟨fuel', hfuel, hrun⟩ := load_run h1
          cases hfuel
          cases hrun with
          | back hs hst => exact hload _ _ _ _ hP hs
          | installs q q' hs hst h2 ht => exact hret _ _ (ih (hload _ _ _ _ hP hs) h2) ht

/-- What holds between the loads: the paths of `K` are loaded, and no others. -/
structure Between (E : Env) (p : Progress) (K : List String) : Prop where
  calm : Calm E p.state
  rooted : Rooted p.state
  known : ∀ path, p.state.rt.Known path ↔ path ∈ K

theorem load_known {fuel : Nat} {fname : String} (hb : Between E p K)
    (him : ∃ im, E.dlopen ⟨E.moduleLoadPath fname, 0⟩ = some im)
    (hk : E.moduleLoadPath fname ∈ K) (h : load E malloc script fuel p fname = .ok p') :
    Between E p' K ∧ p'.state.rt.loader = p.state.rt.loader ∧
      p'.state.rt.loadingMod = p.state.rt.loadingMod ∧ p'.state.stack = p.state.stack := by
  obtain ⟨t, ht, hcalm, hstack, hst', hcount⟩ :=
    calm_load_known hb.calm { addr := malloc p.state.rt } him ((hb.known _).mpr hk)
  obtain ⟨fuel', -, hrun⟩ := load_run h
  cases hrun with
  | back hs hst =>
      cases hs.symm.trans ht
      have hknown : ∀ path, p'.state.rt.Known path ↔ path ∈ K := by
        intro path
        rw [hcount.known, hb.known]
        exact ⟨fun h => h.elim id fun hp => hp ▸ hk, .inl⟩
      refine ⟨⟨hcalm, hb.rooted.load hb.calm.inv hs, hknown⟩, ?_⟩
      cases load_links hb.calm.inv hs with
      | back _ hl hm _ hst => exact ⟨hl, hm, hst⟩
      | enters hst' => exact absurd hst' hst
  | installs p₁ p₂ hs hst =>
      cases hs.symm.trans ht
      exact absurd hst hst'

theorem loadAll_known {fuel : Nat} {names : List String} (hb : Between E p K)
    (him : ∀ f ∈ names, ∃ im, E.dlopen ⟨E.moduleLoadPath f, 0⟩ = some im)
    (hk : ∀ f ∈ names, E.moduleLoadPath f ∈ K)
    (h : loadAll E malloc script fuel p names = .ok p') :
    Between E p' K ∧ p'.state.rt.loader = p.state.rt.loader ∧
      p'.state.rt.loadingMod = p.state.rt.loadingMod ∧ p'.state.stack = p.state.stack := by
  induction names generalizing p with
  | nil =>
      cases h
      exact ⟨hb, rfl, rfl, rfl⟩
  | cons f names ih =>
      obtain ⟨p₁, h1, h⟩ := loadAll_cons h
      obtain ⟨hb1, l1, m1, s1⟩ := load_known hb (him f (by simp)) (hk f (by simp)) h1
      obtain ⟨hb2, l2, m2, s2⟩ := ih hb1 (fun g hg => him g (by simp [hg]))
        (fun g hg => hk g (by simp [hg])) h
      exact ⟨hb2, l2.trans l1, m2.trans m1, s2.trans s1⟩

theorem pulled_load {s t : State} {fname : String} {ch : LoadChoice} (h : Inv E s ∧ Rooted s ∧ Pulled s)
    (hs : step E s (.load fname ch) = .ok t) : Inv E t ∧ Rooted t ∧ Pulled t := by
  obtain ⟨hi, hr, c, q, hcq⟩ := h
  refine ⟨hi.step hs, hr.load hi hs, c, q, ?_⟩
  cases load_links hi hs with
  | back _ hl => rwa [hl]
  | enters _ hl =>
      obtain ⟨L, hw⟩ := hi.wf
      have hne : c ≠ s.rt.entryNext := by
        rintro rfl
        rw [loader, hw.fresh _ le_rfl] at hcq
        cases hcq
      rwa [hl, Function.update_of_ne hne]

theorem pulled_installRet {s t : State} (h : Inv E s ∧ Rooted s ∧ Pulled s)
    (hs : step E s .installRet = .ok t) : Inv E t ∧ Rooted t ∧ Pulled t := by
  obtain ⟨hi, hr, c, q, hcq⟩ := h
  obtain ⟨f, -, -, hents, -⟩ := installRet_links hr hs
  refine ⟨hi.step hs, hr.installRet hi hs, c, q, ?_⟩
  rwa [loader, hents]

theorem loadAll_pulled {fuel : Nat} {names : List String}
    (hp : Inv E p.state ∧ Rooted p.state ∧ Pulled p.state)
    (h : loadAll E malloc script fuel p names = .ok p') :
    Inv E p'.state ∧ Rooted p'.state ∧ Pulled p'.state :=
  loadAll_keeps (fun _ _ _ _ => pulled_load) (fun _ _ => pulled_installRet) fuel hp h

/-- A load of a new module runs its `xy_install`, with the module as loader. -/
theorem load_new {fuel : Nat} {fname : String} (hfiles : Closed E script files)
    (hmalloc : Allocates malloc) (hb : Between E p K) (hf : E.moduleLoadPath fname ∈ files)
    (hk : E.moduleLoadPath fname ∉ K) (h : load E malloc script fuel p fname = .ok p') :
    ∃ fuel' p₁ p₂ f, Between E p₁ (E.moduleLoadPath fname :: K) ∧
      p₁.state.rt.loader =
        Function.update p.state.rt.loader p.state.rt.entryNext p.state.rt.loadingMod ∧
      p₁.state.rt.loadingMod = some p.state.rt.entryNext ∧
      p₁.state.stack = .install f :: p.state.stack ∧ RootFrame f ∧
      f.prevLoadingMod = p.state.rt.loadingMod ∧
      loadAll E malloc script fuel' p₁ (script (E.moduleLoadPath fname)) = .ok p₂ ∧
      step E p₂.state .installRet = .ok p'.state := by
  obtain ⟨t, f, ht, hcalm, hstack, hframe, hst', hcount⟩ := calm_load_new hb.calm
    { addr := malloc p.state.rt } (hfiles.image _ hf) (hfiles.install _ hf) rfl
    (hmalloc p.state.rt) (fun hc => hk ((hb.known _).mp hc))
  obtain ⟨fuel', -, hrun⟩ := load_run h
  cases hrun with
  | back hs hst =>
      cases hs.symm.trans ht
      exact absurd hst' hst
  | installs p₁ p₂ hs hst h2 hret =>
      cases hs.symm.trans ht
      have hknown : ∀ path, p₁.state.rt.Known path ↔ path ∈ E.moduleLoadPath fname :: K := by
        intro path
        rw [hcount.known, hb.known, List.mem_cons, or_comm]
      cases load_links hb.calm.inv hs with
      | back hst'' => exact absurd hst hst''
      | enters _ hl hm g hstack' hp =>
          cases hstack.symm.trans hstack'
          exact ⟨fuel', p₁, p₂, f, ⟨hcalm, hb.rooted.load hb.calm.inv hs, hknown⟩, hl, hm, hstack,
            hframe, hp, h2, hret⟩

/-- An `xy_install` that names a module that is not loaded yet pulls it in. -/
theorem loadAll_pulls {fuel : Nat} {names : List String} (hfiles : Closed E script files)
    (hmalloc : Allocates malloc) {q : EntryPtr} (hb : Between E p K)
    (hq : p.state.rt.loadingMod = some q) (hf : ∀ f ∈ names, E.moduleLoadPath f ∈ files)
    (hnew : ∃ f ∈ names, E.moduleLoadPath f ∉ K)
    (h : loadAll E malloc script fuel p names = .ok p') :
    Inv E p'.state ∧ Rooted p'.state ∧ Pulled p'.state := by
  induction names generalizing p with
  | nil =>
      obtain ⟨f, hf', -⟩ := hnew
      cases hf'
  | cons f names ih =>
      obtain ⟨p₁, h1, h⟩ := loadAll_cons h
      by_cases hk : E.moduleLoadPath f ∈ K
      · obtain ⟨hb1, -, hm, -⟩ := load_known hb (hfiles.image _ (hf f (by simp))) hk h1
        refine ih hb1 (hm.trans hq) (fun g hg => hf g (by simp [hg])) ?_ h
        obtain ⟨g, hg, hgk⟩ := hnew
        rcases List.mem_cons.mp hg with rfl | hg
        · exact absurd hk hgk
        · exact ⟨g, hg, hgk⟩
      · obtain ⟨fuel', p₂, p₃, fr, hb2, hl, -, -, -, -, h2, hret⟩ :=
          load_new hfiles hmalloc hb (hf f (by simp)) hk h1
        have hpull : Pulled p₂.state :=
          ⟨p.state.rt.entryNext, q, by rw [hl, Function.update_self, hq]⟩
        have h3 := loadAll_pulled ⟨hb2.calm.inv, hb2.rooted, hpull⟩ h2
        exact loadAll_pulled (pulled_installRet h3 hret) h

theorem host_load {fuel : Nat} {fname : String} (hfiles : Closed E script files)
    (hmalloc : Allocates malloc) (hb : Between E p K) (hq : p.state.rt.loadingMod = none)
    (hno : ¬ Pulled p.state) (hf : E.moduleLoadPath fname ∈ files)
    (h : load E malloc script fuel p fname = .ok p') :
    if E.moduleLoadPath fname ∈ K ∨ ∀ f ∈ script (E.moduleLoadPath fname),
        E.moduleLoadPath f ∈ E.moduleLoadPath fname :: K
    then Between E p' (E.moduleLoadPath fname :: K) ∧ p'.state.rt.loadingMod = none ∧ ¬ Pulled p'.state
    else Inv E p'.state ∧ Rooted p'.state ∧ Pulled p'.state := by
  by_cases hk : E.moduleLoadPath fname ∈ K
  · rw [if_pos (.inl hk)]
    obtain ⟨hb1, hl, hm, -⟩ := load_known hb (hfiles.image _ hf) hk h
    refine ⟨⟨hb1.calm, hb1.rooted, fun path => ?_⟩, hm.trans hq, ?_⟩
    · rw [hb1.known, List.mem_cons]
      exact ⟨.inr, fun hp => hp.elim (fun hp => hp ▸ hk) id⟩
    · rwa [Pulled, hl]
  · obtain ⟨fuel', p₁, p₂, fr, hb1, hl, hm, hs1, hframe, hprev, h2, hret⟩ :=
      load_new hfiles hmalloc hb hf hk h
    have hf' := hfiles.loads _ hf
    split
    · rename_i hall
      have hall := hall.resolve_left hk
      obtain ⟨hb2, hl2, -, hs2⟩ := loadAll_known hb1 (fun g hg => hfiles.image _ (hf' g hg)) hall h2
      obtain ⟨t, ht, hcalm, -, hmods, hents⟩ := calm_installRet hb2.calm hframe (hs2.trans hs1)
      cases ht.symm.trans hret
      obtain ⟨g, hg, hmod, -⟩ := installRet_links hb2.rooted hret
      have hgfr : fr = g := Frame.install.inj (List.cons.inj ((hs2.trans hs1).symm.trans hg)).1
      subst hgfr
      refine ⟨⟨hcalm, hb2.rooted.installRet hb2.calm.inv hret, fun path => ?_⟩,
        hmod.trans (hprev.trans hq), ?_⟩
      · unfold Known
        rw [hmods]
        exact hb2.known path
      · rintro ⟨c, q, hcq⟩
        rw [loader, hents] at hcq
        have hcq' : p₂.state.rt.loader c = some q := hcq
        rw [hl2, hl, hq, Function.update_apply] at hcq'
        split at hcq'
        · cases hcq'
        · exact hno ⟨c, q, hcq'⟩
    · rename_i hall
      have hnew : ∃ f ∈ script (E.moduleLoadPath fname),
          E.moduleLoadPath f ∉ E.moduleLoadPath fname :: K := by
        by_contra hc
        refine hall (.inr fun f hf => ?_)
        by_contra hfk
        exact hc ⟨f, hf, hfk⟩
      exact pulled_installRet (loadAll_pulls hfiles hmalloc hb1 hm hf' hnew h2) hret

theorem host_loadAll {fuel : Nat} {names : List String} (hfiles : Closed E script files)
    (hmalloc : Allocates malloc) (hb : Between E p K) (hq : p.state.rt.loadingMod = none)
    (hno : ¬ Pulled p.state) (hf : ∀ f ∈ names, E.moduleLoadPath f ∈ files)
    (h : loadAll E malloc script fuel p names = .ok p') :
    Rooted p'.state ∧ (Pulled p'.state ↔ ¬ HostFirst E script K names) := by
  induction names generalizing p K with
  | nil =>
      cases h
      exact ⟨hb.rooted, iff_of_false hno (not_not.mpr trivial)⟩
  | cons f names ih =>
      obtain ⟨p₁, h1, h⟩ := loadAll_cons h
      have hone := host_load hfiles hmalloc hb hq hno (hf f (by simp)) h1
      rw [HostFirst]
      split at hone
      · rename_i hc
        obtain ⟨hb1, hq1, hno1⟩ := hone
        rw [and_iff_right hc]
        exact ih hb1 hq1 hno1 (fun g hg => hf g (by simp [hg])) h
      · rename_i hc
        obtain ⟨-, hr, hpull⟩ := loadAll_pulled hone h
        exact ⟨hr, iff_of_true hpull fun hh => hc hh.1⟩

end Progress

theorem dependenciesFirst_iff {s : State} (h : Rooted s) : DependenciesFirst s.rt ↔ ¬ Pulled s := by
  constructor
  · rintro hd ⟨c, q, hcq⟩
    obtain ⟨L, hw, hL⟩ := h.ascending
    have hsub := (hL 0).sublist (hd _ c q (hw.regionMods 0) hcq)
    have hlt : c < q := (List.pairwise_cons.mp hsub).1 q (List.mem_singleton_self q)
    exact absurd (hlt.trans (h.older c q hcq)) (lt_irrefl c)
  · intro hno l c q _ hcq
    exact absurd ⟨c, q, hcq⟩ hno

/-- After loads of any roots in a closed set of files, modules stand before their loaders
just if no `xy_install` was the first to load one. -/
theorem dependencies_first_iff {E : Env} {malloc : Runtime → Addr} {script : String → List String}
    {files : Finset String} (hfiles : Progress.Closed E script files)
    (hmalloc : Progress.Allocates malloc) {s₀ : State} (hboot : Boot s₀) {names : List String}
    (hnames : ∀ f ∈ names, E.moduleLoadPath f ∈ files) :
    ∃ p, Progress.loadAll E malloc script (files.card + 1) { state := s₀ } names = .ok p ∧
      (DependenciesFirst p.state.rt ↔ HostFirst E script [] names) := by
  have hcard : (Progress.unknown files s₀.rt).card < files.card + 1 :=
    Nat.lt_succ_of_le (Finset.card_le_card (Finset.filter_subset _ _))
  have hok := Progress.ok_boot (E := E) hboot
  obtain ⟨p, h, -, -⟩ := Progress.loadAll_spec names
    (fun p hp f hf => Progress.load_spec hfiles hmalloc _ p hp f (hnames f hf)) hok hcard
  have hnone : ∀ c, s₀.rt.loader c = none := fun c => by rw [loader, hboot.entries]; rfl
  have hrooted : Rooted s₀ := by
    refine ⟨fun c q hcq => ?_, fun q hq => ?_, fun f hf => ?_, ?_⟩
    · rw [hnone] at hcq
      cases hcq
    · rw [hboot.loadingMod] at hq
      cases hq
    · rw [hboot.stack] at hf
      cases hf
    · obtain ⟨L, hw⟩ := (Inv.boot (E := E) hboot).wf
      refine ⟨L, hw, fun r => ?_⟩
      have hnil : L r = [] := by
        rw [List.eq_nil_iff_forall_not_mem]
        intro q hq
        exact hw.live_listed hq (by rw [hboot.entries])
      rw [hnil]
      exact List.Pairwise.nil
  have hb : Progress.Between E { state := s₀ } [] :=
    ⟨hok.calm, hrooted, fun path => (hok.installed path).symm⟩
  have hno : ¬ Pulled s₀ := by
    rintro ⟨c, q, hcq⟩
    rw [hnone] at hcq
    cases hcq
  obtain ⟨hr, hpull⟩ := Progress.host_loadAll hfiles hmalloc hb hboot.loadingMod hno hnames h
  exact ⟨p, h, by rw [dependenciesFirst_iff hr, hpull, not_not]⟩

/-- `p` loads `q`. -/
def chainScript : String → List String
  | "p" => ["q"]
  | _ => []

theorem chain_closed : Progress.Closed sampleEnv chainScript {"p", "q"} := by
  refine ⟨fun path hp => ?_, fun path hp => ?_, fun path hp => ?_⟩ <;>
    rcases Finset.mem_insert.mp hp with rfl | hq
  · exact ⟨_, rfl⟩
  · rw [Finset.mem_singleton.mp hq]
    exact ⟨_, rfl⟩
  · exact ⟨⟨⟨"p", 0⟩, "xy_install"⟩, by decide⟩
  · rw [Finset.mem_singleton.mp hq]
    exact ⟨⟨⟨"q", 0⟩, "xy_install"⟩, by decide⟩
  · decide
  · rw [Finset.mem_singleton.mp hq]
    decide

/-- The host has loaded `q` before it loads `p`. -/
theorem dependencies_first_loaded : HostFirst sampleEnv chainScript [] ["q", "p"] ∧
    ∃ p, Progress.loadAll sampleEnv freshAddr chainScript 3 { state := sampleState } ["q", "p"] = .ok p ∧
      DependenciesFirst p.state.rt := by
  have hhost : HostFirst sampleEnv chainScript [] ["q", "p"] :=
    ⟨.inr (by decide), .inr (by decide), trivial⟩
  have hnames : ∀ f ∈ ["q", "p"], sampleEnv.moduleLoadPath f ∈ ({"p", "q"} : Finset String) := by decide
  obtain ⟨p, h, hiff⟩ :=
    dependencies_first_iff chain_closed freshAddr_allocates sampleState_boot hnames
  exact ⟨hhost, p, h, hiff.mpr hhost⟩

/-- The host loads `p`, which loads `q`. -/
theorem loader_before_dependency :
    ∃ p, Progress.loadAll sampleEnv freshAddr chainScript 3 { state := sampleState } ["p"] = .ok p ∧
      p.state.rt.loader 1 = some 0 ∧ p.state.rt.regionMods 0 = .ok [0, 1] ∧
      ¬ DependenciesFirst p.state.rt := by
  have hrun : (fun p => (p.state.rt.loader 1, p.state.rt.regionMods 0)) <$>
      Progress.loadAll sampleEnv freshAddr chainScript 3 { state := sampleState } ["p"] =
        .ok (some 0, .ok [0, 1]) := rfl
  obtain ⟨p, h, hp⟩ := Res.map_ok.mp hrun
  have hl : p.state.rt.loader 1 = some 0 := congrArg Prod.fst hp
  have hr : p.state.rt.regionMods 0 = .ok [0, 1] := congrArg Prod.snd hp
  have hnot : ¬ [1, 0].Sublist [0, 1] := by decide
  exact ⟨p, h, hl, hr, fun hd => hnot (hd _ 1 0 hr hl)⟩

end Xylem

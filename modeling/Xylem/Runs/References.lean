import Xylem.Runs.Elementary
import Xylem.Runs.Reload

namespace Xylem

open Xylem.Runtime

namespace Runtime

/-- What a round of the cascade gives back, if its unload gives back `give`. -/
def givesChild (give : Runtime → String → RegionId → Nat) (s : Runtime) (c : EntryPtr) : Nat :=
  match s.entries c with
  | none => 0
  | some child =>
      match child.ctx with
      | none => 0
      | some x =>
          match (s.ctxs x).modulePath with
          | .str path => give s path child.regionId
          | _ => 0

def givesAll (one : Runtime → EntryPtr → Nat) (next : Runtime → EntryPtr → Res Runtime) :
    Runtime → List EntryPtr → Nat
  | _, [] => 0
  | s, c :: l => one s c + match next s c with
      | .ok t => givesAll one next t l
      | .error _ => 0

/-- How often `_mod_unload` lowers the count of `q`, its cascade included. -/
def gives (E : Env) (q : EntryPtr) : Nat → Runtime → String → RegionId → Nat
  | 0, _, _, _ => 0
  | fuel+1, s, fname, region =>
    match s.moduleLookup E fname region with
    | none => 0
    | some p =>
        (if p = q then 1 else 0) + match s.entries p with
          | none => 0
          | some e =>
              if 0 < e.refcount - 1 then 0
              else
                let s := s.setEntry p (some { e with refcount := e.refcount - 1 })
                givesAll (givesChild (gives E q fuel)) (modUnloadChild (modUnload E fuel)) s
                  (s.childrenOf E p)

end Runtime

/-- The references on `q` that a call gives back. -/
def Event.gives (E : Env) (q : EntryPtr) (s : Runtime) : Event → Nat
  | .unload fname fuel => s.gives E q fuel fname s.currentRegionId
  | .reload fname _ fuel => s.gives E q fuel fname s.currentRegionId
  | _ => 0

/-- The references on `q` that a call takes: one if its load finds `q` and can open the file. -/
def Event.takes (E : Env) (q : EntryPtr) (s : Runtime) : Event → Nat
  | .load fname ch =>
      if s.moduleLookup E fname s.currentRegionId = some q ∧ (openedImage E s fname ch).isSome
      then 1 else 0
  | .reload fname ch _ =>
      if s.moduleLookup E fname s.currentRegionId = some q ∧ (s.entries q).any (1 < ·.refcount) ∧
        (openedImage E { s with reloading := true } fname ch).isSome
      then 1 else 0
  | _ => 0

/-- The references that the steps of a run take on `q`. -/
def took (E : Env) (q : EntryPtr) (tr : List (State × Event)) : Nat :=
  tr.foldl (fun n x => n + x.2.takes E q x.1.rt) 0

/-- The references on `q` that they give back. -/
def gave (E : Env) (q : EntryPtr) (tr : List (State × Event)) : Nat :=
  tr.foldl (fun n x => n + x.2.gives E q x.1.rt) 0

/-- As many references on `q` are given back as taken, and at no time more. -/
def Balanced (E : Env) (q : EntryPtr) (tr : List (State × Event)) : Prop :=
  took E q tr = gave E q tr ∧ ∀ pre, pre <+: tr → gave E q pre ≤ took E q pre

/-- From `s` to `t`, `g` references on `q` have been given back and `k` taken: the entry is
gone if that leaves none. -/
structure Tally (q : EntryPtr) (g k : Nat) (s t : Runtime) : Prop where
  gone : s.entries q = none → t.entries q = none
  live : ∀ x, s.entries q = some x → t.entries q = none ∧ x.refcount + k ≤ g ∨
    ∃ y, t.entries q = some y ∧ y.refcount + g = x.refcount + k ∧ (g = 0 ∨ 1 ≤ y.refcount)

namespace Tally
variable {q : EntryPtr} {g g' k : Nat} {s t u : Runtime}

theorem of_core (h : t.core.entries q = s.core.entries q) : Tally q 0 0 s t := by
  replace h : (t.entries q).map ModEntry.core = (s.entries q).map ModEntry.core := h
  refine ⟨fun hs => ?_, fun x hx => .inr ?_⟩
  · rw [hs] at h
    exact Option.map_eq_none_iff.mp h
  · rw [hx] at h
    obtain ⟨y, hy, hc⟩ := Option.map_eq_some_iff.mp h
    have hn : y.refcount = x.refcount := (congrArg ModEntry.refcount hc : _)
    exact ⟨y, hy, by rw [hn], .inl rfl⟩

theorem refl (s : Runtime) : Tally q 0 0 s s := of_core rfl

theorem trans (h : Tally q g 0 s t) (h' : Tally q g' 0 t u) : Tally q (g + g') 0 s u := by
  refine ⟨fun hs => h'.gone (h.gone hs), fun x hx => ?_⟩
  rcases h.live x hx with ⟨ht, hle⟩ | ⟨y, hy, heq, hpos⟩
  · exact .inl ⟨h'.gone ht, by omega⟩
  · rcases h'.live y hy with ⟨hu, hle⟩ | ⟨z, hz, heq', hpos'⟩
    · exact .inl ⟨hu, by omega⟩
    · exact .inr ⟨z, hz, by omega, by omega⟩

theorem takes (h : Tally q g 0 s t) (h' : Tally q 0 k t u) (hk : t.entries q = none → k = 0) :
    Tally q g k s u := by
  refine ⟨fun hs => h'.gone (h.gone hs), fun x hx => ?_⟩
  rcases h.live x hx with ⟨ht, hle⟩ | ⟨y, hy, heq, hpos⟩
  · exact .inl ⟨h'.gone ht, by have := hk ht; omega⟩
  · rcases h'.live y hy with ⟨hu, hle⟩ | ⟨z, hz, heq', hpos'⟩
    · exact .inl ⟨hu, by omega⟩
    · exact .inr ⟨z, hz, by omega, by omega⟩

theorem core_right (h : Tally q g k s t) (hc : u.core.entries q = t.core.entries q) :
    Tally q g k s u := by
  have h' : Tally q 0 0 t u := of_core hc
  refine ⟨fun hs => h'.gone (h.gone hs), fun x hx => ?_⟩
  rcases h.live x hx with ⟨ht, hle⟩ | ⟨y, hy, heq, hpos⟩
  · exact .inl ⟨h'.gone ht, hle⟩
  · rcases h'.live y hy with ⟨hu, hle⟩ | ⟨z, hz, heq', -⟩
    · exact .inl ⟨hu, by omega⟩
    · exact .inr ⟨z, hz, by omega, by omega⟩

theorem other {p : EntryPtr} {e : ModEntry} (hp : p ≠ q) : Tally q 0 0 s (s.setEntry p (some e)) :=
  of_core (by simp [core, setEntry, Function.update_of_ne hp.symm])

end Tally

namespace Runtime
variable {E : Env} {s t : Runtime} {p q : EntryPtr}

theorem modUnloadChild_tally {unload : Runtime → String → RegionId → Res (Runtime × Int)}
    {give : Runtime → String → RegionId → Nat}
    (hu : ∀ {s t : Runtime} {path : String} {id : RegionId} {ret : Int},
      unload s path id = .ok (t, ret) → Tally q (give s path id) 0 s t) {c : EntryPtr}
    (h : modUnloadChild unload s c = .ok t) : Tally q (givesChild give s c) 0 s t := by
  simp only [modUnloadChild, Res.bind_ok, deref_ok] at h
  obtain ⟨child, hc, h⟩ := h
  simp only [givesChild, hc]
  cases hx : child.ctx with
  | none =>
      simp only [hx, Except.ok.injEq] at h
      exact h ▸ .refl s
  | some x =>
      simp only [hx] at h ⊢
      cases hp : (s.ctxs x).modulePath with
      | null =>
          simp only [hp, Except.ok.injEq] at h
          exact h ▸ .refl s
      | freed => simp [hp] at h
      | str path =>
          simp only [hp] at h ⊢
          obtain ⟨r, hr, rfl⟩ := Res.map_ok.mp h
          exact hu hr

theorem foldlM_tally {one : Runtime → EntryPtr → Nat} {next : Runtime → EntryPtr → Res Runtime}
    (hn : ∀ {s t : Runtime} {c : EntryPtr}, next s c = .ok t → Tally q (one s c) 0 s t)
    {l : List EntryPtr} (h : l.foldlM next s = .ok t) : Tally q (givesAll one next s l) 0 s t := by
  induction l generalizing s with
  | nil =>
      cases h
      exact .refl _
  | cons c l ih =>
      rw [List.foldlM_cons] at h
      obtain ⟨m, hm, h⟩ := Res.bind_ok.mp h
      simp only [givesAll, hm]
      exact (hn hm).trans (ih h)

theorem modUnloadEntry_entries (h : s.modUnloadEntry E p = .ok t) (q : EntryPtr) :
    t.core.entries q = if q = p then none else s.core.entries q := by
  have h' := h
  obtain ⟨e, he, -⟩ := Res.bind_ok.mp h'
  exact (congrFun (congrArg Core.entries (modUnloadEntry_core (deref_ok.mp he) h)) q).trans
    (Function.update_apply ..)

theorem modUnload_tally (fuel : Nat) {fname : String} {region : RegionId} {ret : Int}
    (h : s.modUnload E fuel fname region = .ok (t, ret)) :
    Tally q (s.gives E q fuel fname region) 0 s t := by
  induction fuel generalizing s t fname region ret with
  | zero => cases h
  | succ fuel ih =>
      simp only [modUnload] at h
      simp only [gives]
      cases hl : s.moduleLookup E fname region with
      | none =>
          simp only [hl, Except.ok.injEq, Prod.mk.injEq] at h
          exact h.1 ▸ .of_core rfl
      | some p =>
          simp only [hl, Res.bind_ok, deref_ok] at h
          obtain ⟨e, he, h⟩ := h
          simp only [he]
          split at h
          · rename_i hpos
            simp only [Except.ok.injEq, Prod.mk.injEq] at h
            rw [if_pos hpos, ← h.1]
            by_cases hpq : p = q
            · subst hpq
              refine ⟨fun hs => by simp [he] at hs,
                fun x hx => .inr ⟨_, Function.update_self .., ?_, .inr ?_⟩⟩
              · cases he.symm.trans hx
                simp
              · show 1 ≤ e.refcount - 1
                omega
            · rw [if_neg hpq]
              exact .other hpq
          · rename_i hpos
            simp only [Res.bind_ok, Except.ok.injEq, Prod.mk.injEq] at h
            obtain ⟨m, hm, m', hm', rfl, -⟩ := h
            rw [if_neg hpos]
            have hcascade := foldlM_tally (q := q) (fun hc => modUnloadChild_tally ih hc) hm
            have hq := modUnloadEntry_entries hm' q
            by_cases hpq : p = q
            · subst hpq
              rw [if_pos rfl] at hq
              have hgone : m'.entries p = none := Option.map_eq_none_iff.mp hq
              refine ⟨fun _ => hgone, fun x hx => .inl ⟨hgone, ?_⟩⟩
              cases he.symm.trans hx
              simp only [↓reduceIte]
              omega
            · rw [if_neg (Ne.symm hpq)] at hq
              rw [if_neg hpq]
              exact ((Tally.other hpq).trans hcascade).trans (.of_core hq)

theorem modLoad_found {fname : String} {ch : LoadChoice} {reload : Option ReloadFrame}
    {out : Outcome LoadFrame} (hl : s.moduleLookup E fname s.currentRegionId = some p)
    (h : s.modLoad E fname ch reload = .ok (t, out)) :
    out = .done (if (openedImage E s fname ch).isSome then xyOk else xyErrNotFound) := by
  simp only [modLoad, hl, modLoadOpenHandle] at h
  rcases Option.eq_none_or_eq_some
    (E.dlopen (s.modLoadImage (E.moduleLoadPath fname) ch).1) with hd | ⟨im, hd⟩
  · simp only [hd, Except.ok.injEq, Prod.mk.injEq] at h
    simp [openedImage, hd, h.2.symm]
  · simp only [hd, Res.bind_ok, Except.ok.injEq, Prod.mk.injEq] at h
    obtain ⟨m, -, -, hout⟩ := h
    simp [openedImage, hd, hout.symm]

/-- A load counts a reference on the entry that it finds, if it succeeds. -/
theorem LoadEffect.tally {fname : String} {ch : LoadChoice} {reload : Option ReloadFrame}
    {out : Outcome LoadFrame} (hq : q < s.entryNext) (h : LoadEffect E s fname ch reload t out) :
    Tally q 0 (if s.moduleLookup E fname s.currentRegionId = some q ∧ out = .done xyOk then 1 else 0)
      s t := by
  cases h with
  | same ret hret ht =>
      rw [if_neg fun hc => hret (Outcome.done.inj hc.2)]
      exact .of_core (congrFun (congrArg Core.entries ht) q)
  | reuse p e hl he ht =>
      by_cases hpq : p = q
      · subst hpq
        rw [if_pos ⟨hl, rfl⟩]
        have hcore : (t.entries p).map ModEntry.core =
            (some { e with refcount := e.refcount + 1 }).map ModEntry.core :=
          (congrFun (congrArg Core.entries ht) p).trans
            (congrArg (Option.map ModEntry.core) (Function.update_self ..))
        obtain ⟨y, hy, hyc⟩ := Option.map_eq_some_iff.mp hcore
        have hn : y.refcount = e.refcount + 1 := (congrArg ModEntry.refcount hyc : _)
        refine ⟨fun hs => by simp [he] at hs, fun x hx => .inr ⟨y, hy, ?_, .inl rfl⟩⟩
        cases he.symm.trans hx
        rw [hn]
        simp
      · rw [if_neg fun hc => hpq (Option.some.inj (hl.symm.trans hc.1))]
        exact (Tally.other (e := { e with refcount := e.refcount + 1 }) hpq).trans
          (.of_core (congrFun (congrArg Core.entries ht) q))
  | fresh out hl hmem him ha hf =>
      have hnone : ¬ (s.moduleLookup E fname s.currentRegionId = some q ∧ out = .done xyOk) := by
        rw [hl]
        exact fun hc => nomatch hc.1
      rw [if_neg hnone]
      cases hf with
      | refused ret hret ht => exact .of_core (congrFun (congrArg Core.entries ht) q)
      | noInstall hi id r T index hp ht => exact .of_core (congrFun (congrArg Core.entries ht) q)
      | installs fn hi id r T index hp ht =>
          exact .of_core
            ((congrFun (congrArg Core.entries ht : _) q).trans (Function.update_of_ne hq.ne _ _))

theorem xyReload_loads {fname : String} {ch : LoadChoice} {fuel : Nat} {m : Runtime}
    {out : Outcome LoadFrame} (hl : s.moduleLookup E fname s.currentRegionId = some p)
    (hu : s.modUnload E fuel fname s.currentRegionId = .ok (m, xyOk))
    (h : s.xyReload E fuel fname ch = .ok (t, out)) :
    ∃ n rf, ({ m with reloading := true } : Runtime).modLoad E fname ch rf = .ok (n, out) := by
  simp only [xyReload, hl, Res.bind_ok] at h
  obtain ⟨e, -, ⟨m', ret⟩, hu', h⟩ := h
  cases hu.symm.trans hu'
  simp only [ne_eq, not_true_eq_false, if_false, Res.bind_ok] at h
  obtain ⟨⟨n, out'⟩, hload, h⟩ := h
  refine ⟨n, some ⟨fname, s.currentRegionId, e.regionPrev, e.regionEntry⟩, ?_⟩
  cases out' with
  | wait f =>
      simp only [Except.ok.injEq, Prod.mk.injEq] at h
      rw [hload, h.2]
  | done ret =>
      simp only at h
      split at h
      · simp only [Except.ok.injEq, Prod.mk.injEq] at h
        rw [hload, h.2]
      · rename_i hret
        simp only [Res.bind_ok, Except.ok.injEq, Prod.mk.injEq] at h
        obtain ⟨v, -, -, hout⟩ := h
        rw [hload, ← hout, not_not.mp hret]

theorem gives_missing {fname : String} {fuel : Nat} {region : RegionId}
    (hl : s.moduleLookup E fname region = none) : s.gives E q fuel fname region = 0 := by
  cases fuel with
  | zero => rfl
  | succ fuel => simp only [gives, hl]

theorem xyReload_tally {L : RegionPtr → List EntryPtr} (hw : WF s none L) (hc : s.CtxsKnown)
    (hcur : (s.regionHd s.currentRegionId).isSome) {fname : String} {ch : LoadChoice} {fuel : Nat}
    {out : Outcome LoadFrame} (hq : q < s.entryNext) (h : s.xyReload E fuel fname ch = .ok (t, out)) :
    Tally q (Event.gives E q s (.reload fname ch fuel))
      (Event.takes E q s (.reload fname ch fuel)) s t := by
  simp only [Event.gives, Event.takes]
  -- with one reference left nothing is found to take one on
  have last : ∀ {p e m}, s.moduleLookup E fname s.currentRegionId = some p → s.entries p = some e →
      s.modUnload E fuel fname s.currentRegionId = .ok (m, xyOk) → e.refcount ≤ 1 →
      m.moduleLookup E fname m.currentRegionId = none ∧
        ¬ (s.moduleLookup E fname s.currentRegionId = some q ∧ (s.entries q).any (1 < ·.refcount) ∧
          (openedImage E { s with reloading := true } fname ch).isSome) := by
    intro p e m hl he hu hone
    have hid : m.currentRegionId = s.currentRegionId :=
      congrArg Core.currentRegionId (modUnload_unloaded fuel hu).core
    refine ⟨hid ▸ (modUnload_frees hw hl he hone hu).2, fun hcond => ?_⟩
    obtain rfl : p = q := Option.some.inj (hl.symm.trans hcond.1)
    have hmany := hcond.2.1
    simp only [he, Option.any_some, decide_eq_true_eq] at hmany
    omega
  -- with more, the load finds the entry that the unload has left
  have shared : ∀ {p e m}, s.moduleLookup E fname s.currentRegionId = some p → s.entries p = some e →
      s.modUnload E fuel fname s.currentRegionId = .ok (m, xyOk) → 1 < e.refcount →
      m = s.release p e ∧
        out = .done
          (if (openedImage E
            { s with reloading := true } fname ch).isSome then xyOk else xyErrNotFound) := by
    intro p e m hl he hu hs
    obtain rfl : m = s.release p e := congrArg Prod.fst (modUnload_shared hl he hs hu)
    obtain ⟨n, rf, hload⟩ := xyReload_loads hl hu h
    have hl' : ({ s.release p e with reloading := true } : Runtime).moduleLookup E fname
        ({ s.release p e with reloading := true } : Runtime).currentRegionId = some p := hl
    have hout := modLoad_found hl' hload
    exact ⟨rfl, hout⟩
  cases (xyReload_spec hw hc hcur h).1 with
  | missing hl ht =>
      rw [gives_missing hl, if_neg (by simp [hl])]
      exact .of_core (congrFun (congrArg Core.entries ht) q)
  | back p e hl he m hu m' ret hload ht =>
      have hnext : q < ({ m with reloading := true } : Runtime).entryNext :=
        hq.trans_eq (congrArg Core.entryNext (modUnload_unloaded fuel hu).core).symm
      have hunload : Tally q _ 0 s { m with reloading := true } :=
        (modUnload_tally fuel hu).core_right rfl
      have hload' := hload.tally hnext
      refine Tally.core_right (t := m') ?_ (congrFun (congrArg Core.entries ht) q)
      rcases le_or_gt e.refcount 1 with hone | hs
      · obtain ⟨hnone, htakes⟩ := last hl he hu hone
        rw [if_neg htakes]
        have hnone' :
          ({ m with reloading := true } : Runtime).moduleLookup E fname m.currentRegionId = none :=
          hnone
        rw [hnone', if_neg (by simp)] at hload'
        exact hunload.takes hload' fun _ => rfl
      · obtain ⟨rfl, hret⟩ := shared hl he hu hs
        have hk : (if s.moduleLookup E fname s.currentRegionId = some q ∧
          (s.entries q).any (1 < ·.refcount) ∧
            (openedImage E { s with reloading := true } fname ch).isSome then 1 else 0) =
            if s.moduleLookup E fname s.currentRegionId = some q ∧
              (Outcome.done ret : Outcome LoadFrame) = .done xyOk then 1 else 0 := by
          refine if_congr (and_congr_right fun hlq => ?_) rfl rfl
          obtain rfl : p = q := Option.some.inj (hl.symm.trans hlq)
          rw [hret]
          split
          · rename_i hopen
            simp [he, hs, hopen]
          · rename_i hclosed
            simp [hclosed, xyErrNotFound, xyOk]
        rw [hk]
        refine hunload.takes hload' fun hgone => if_neg fun hc => ?_
        obtain rfl : p = q := Option.some.inj (hl.symm.trans hc.1)
        rw [release_entries, if_pos rfl] at hgone
        cases hgone
  | waits p e hl he m hu f hload =>
      have hnext : q < ({ m with reloading := true } : Runtime).entryNext :=
        hq.trans_eq (congrArg Core.entryNext (modUnload_unloaded fuel hu).core).symm
      have hload' := hload.tally hnext
      have hunload : Tally q _ 0 s { m with reloading := true } :=
        (modUnload_tally fuel hu).core_right rfl
      rw [if_neg (by simp)] at hload'
      rcases le_or_gt e.refcount 1 with hone | hs
      · rw [if_neg (last hl he hu hone).2]
        exact hunload.takes hload' fun _ => rfl
      · cases (shared hl he hu hs).2

end Runtime

section
variable {E : Env} {s t m : State} {e : Event} {tr : List (State × Event)} {q : EntryPtr}

theorem step_cleanups (hi : Inv E s) (h : step E s e = .ok t) : s.rt.cleanups <+: t.rt.cleanups := by
  rcases step_rules hi h with ⟨a, rfl⟩ | ⟨g, hp⟩ | ⟨what, type, rfl⟩ | ⟨fn, ud, rfl⟩
  · cases h
    rcases xyAreg_cases E s.rt a with ⟨err, he⟩ | ⟨-, he⟩
    all_goals
      rw [State.back, he]
      exact List.prefix_rfl
  · exact hp.cleanups
  · cases h
    obtain ⟨r, hr⟩ := Option.isSome_iff_exists.mp hi.current.id
    obtain ⟨R, hR, -⟩ := xyDeny_rules E s.rt what type hr
    rw [State.back, hR]
  · cases h
    obtain ⟨r, hr⟩ := Option.isSome_iff_exists.mp hi.current.id
    obtain ⟨-, R, hR, -⟩ := xyRequireClaim_rules s.rt fn ud hr
    rw [State.back, hR]

theorem steps_cleanups (hi : Inv E s) (h : Run.Steps (step E) s tr t) :
    s.rt.cleanups <+: t.rt.cleanups := by
  induction h with
  | nil => exact List.prefix_rfl
  | snoc hrun hs ih => exact ih.trans (step_cleanups (steps_old hi hrun).1 hs)

theorem step_tally (hi : Inv E s) (hq : q < s.rt.entryNext) (h : step E s e = .ok t) :
    Tally q (e.gives E q s.rt) (e.takes E q s.rt) s.rt t.rt := by
  obtain ⟨L, hw⟩ := hi.wf
  cases e with
  | load fname ch =>
      obtain ⟨r, hr, rfl⟩ := Res.map_ok.mp h
      obtain ⟨⟨n, out⟩, hm, hr⟩ := Res.bind_ok.mp hr
      have hcount := (modLoad_effect hw hi.current.id hm).tally hq
      have htakes : Event.takes E q s.rt (.load fname ch) =
          if s.rt.moduleLookup E fname s.rt.currentRegionId = some q ∧
            out = .done xyOk then 1 else 0 := by
        refine if_congr (and_congr_right fun hl => ?_) rfl rfl
        rw [modLoad_found hl hm]
        split <;> simp [*, xyErrNotFound, xyOk]
      rw [htakes]
      cases out with
      | done ret =>
          cases hr
          exact hcount.core_right rfl
      | wait f =>
          cases hr
          exact hcount
  | unload fname fuel =>
      obtain ⟨r, hr, rfl⟩ := Res.map_ok.mp h
      obtain ⟨⟨n, ret⟩, hu, hr⟩ := Res.bind_ok.mp hr
      cases hr
      exact (modUnload_tally fuel hu).core_right rfl
  | reload fname ch fuel =>
      obtain ⟨⟨n, out⟩, hr, rfl⟩ := Res.map_ok.mp h
      have hcount := xyReload_tally hw hi.ctxs hi.current.id hq hr
      cases out <;> exact hcount
  | _ =>
      have ht := step_tables hi h (by simp) (by simp) (by simp)
      exact .of_core (congrFun ht.entries q)

/-- An entry with one reference has one after the steps just if they are balanced. -/
theorem steps_balanced (hi : Inv E m) (hq : q < m.rt.entryNext) {x : ModEntry}
    (hx : m.rt.entries q = some x) (hone : x.refcount = 1) (h : Run.Steps (step E) m tr t) :
    (∃ y, t.rt.entries q = some y ∧ y.refcount = 1) ↔ Balanced E q tr := by
  have key : (∃ y, t.rt.entries q = some y ∧ y.refcount + gave E q tr = 1 + took E q tr ∧
        1 ≤ y.refcount ∧ ∀ pre, pre <+: tr → gave E q pre ≤ took E q pre) ∨
      t.rt.entries q = none ∧ ∃ pre, pre <+: tr ∧ took E q pre < gave E q pre := by
    induction h with
    | nil => exact .inl ⟨x, hx, by simp [hone, gave, took], hone.ge,
        fun pre hp => by simp [List.prefix_nil.mp hp, gave]⟩
    | @snoc u t tr e hrun hs ih =>
        obtain ⟨hiu, hn, -⟩ := steps_old hi hrun
        have hstep := step_tally hiu (hq.trans_le hn) hs
        have hgave : gave E q (tr ++ [(u, e)]) = gave E q tr + e.gives E q u.rt := by simp [gave]
        have htook : took E q (tr ++ [(u, e)]) = took E q tr + e.takes E q u.rt := by simp [took]
        rcases ih with ⟨y, hy, hcount, hpos, hpre⟩ | ⟨hgone, pre, hp, hlt⟩
        · rcases hstep.live y hy with ⟨hdead, hle⟩ | ⟨z, hz, heq, hz1⟩
          · refine .inr ⟨hdead, _, List.prefix_rfl, ?_⟩
            rw [hgave, htook]
            omega
          · have hzpos : 1 ≤ z.refcount := by omega
            refine .inl ⟨z, hz, by rw [hgave, htook]; omega, hzpos, fun pre hp => ?_⟩
            rcases List.prefix_concat_iff.mp hp with rfl | hp
            · rw [hgave, htook]
              omega
            · exact hpre pre hp
        · exact .inr ⟨hstep.gone hgone, pre, hp.trans (List.prefix_append _ _), hlt⟩
  rcases key with ⟨y, hy, hcount, hpos, hpre⟩ | ⟨hgone, pre, hp, hlt⟩
  · constructor
    · rintro ⟨z, hz, hz1⟩
      cases hy.symm.trans hz
      exact ⟨by omega, hpre⟩
    · rintro ⟨heq, -⟩
      exact ⟨y, hy, by omega⟩
  · refine iff_of_false ?_ fun hb => absurd (hb.2 pre hp) (not_le.mpr hlt)
    rintro ⟨z, hz, -⟩
    rw [hgone] at hz
    cases hz

end

end Xylem

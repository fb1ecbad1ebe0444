import Xylem.Runs.Elementary
import Xylem.Runs.HookIds
import Xylem.Runs.Vectors

/-!
# Laws of the symbol cells

The cells of an entry and the bits beside them change when a symbol is resolved, when a load
or a registration fills in what is missing, and when an unload clears an image. A law that
these keep and a new entry satisfies is satisfied by every live entry of every run.
-/
namespace Xylem

open Xylem.Runtime

/-- A property of the cells of one entry that every operation on them keeps. -/
structure CellLaw (E : Env) where
  P : AList (fun _ : String => Nat) → ModEntry → Prop
  congr : ∀ {hooks e e'}, e'.handle = e.handle → e'.fnCache = e.fnCache →
    e'.hookImplBits = e.hookImplBits → P hooks e → P hooks e'
  fresh : ∀ {hooks e}, e.fnCache = (fun _ => .null) → e.hookImplBits = (fun _ => false) → P hooks e
  slot : ∀ {hooks e i name}, hooks.lookup name = some i → P hooks e → P hooks (slotEntry E i name e)
  prewarm : ∀ {hooks e}, P hooks e → P hooks (e.fnCachePrewarm E hooks.entries)
  clear : ∀ {hooks e} (base : ImageId), P hooks e → P hooks (e.clearFnCache base)
  mono : ∀ {hooks hooks' e}, (∀ name i, hooks.lookup name = some i → hooks'.lookup name = some i) →
    P hooks e → P hooks' e

namespace CellLaw

def Held {E : Env} (Q : CellLaw E) (s : Runtime) : Prop :=
  ∀ p e, s.entries p = some e → Q.P s.hookIdHd e

namespace Held
variable {E : Env} {Q : CellLaw E} {s t : Runtime}

theorem of_entries (h : Q.Held s) (he : t.entries = s.entries) (hh : t.hookIdHd = s.hookIdHd) :
    Q.Held t := by
  intro p e hp
  rw [hh]
  exact h p e (he ▸ hp)

theorem setEntry (h : Q.Held s) {p : EntryPtr} {e : ModEntry} (he : Q.P s.hookIdHd e) :
    Q.Held (s.setEntry p (some e)) := by
  intro q f hq
  by_cases hqp : q = p
  · subst hqp
    simp only [Runtime.setEntry, Function.update_self, Option.some.injEq] at hq
    exact hq ▸ he
  · simp only [Runtime.setEntry, Function.update_of_ne hqp] at hq
    exact h q f hq

theorem mapEntries (h : Q.Held s) (l : List EntryPtr) {f : ModEntry → ModEntry}
    (hf : ∀ e, Q.P s.hookIdHd e → Q.P s.hookIdHd (f e)) : Q.Held (s.mapEntries l f) := by
  intro p e' he'
  simp only [Runtime.mapEntries] at he'
  split at he'
  · obtain ⟨e, he, rfl⟩ := Option.map_eq_some_iff.mp he'
    exact hf e (h p e he)
  · exact h p e' he'

theorem of_cells (h : Q.Held s) (hc : t.core = s.core) (hcells : t.cells = s.cells) :
    Q.Held t := by
  intro p e' he'
  obtain ⟨e, he, hcore⟩ := entries_of_core hc.symm he'
  have hcell := congrFun hcells p
  simp only [cells, he, he', Option.map_some, Option.some.injEq, Prod.mk.injEq] at hcell
  have hhandle : e'.handle = e.handle := (congrArg ModEntry.handle hcore : _).symm
  have hhooks : t.hookIdHd = s.hookIdHd := congrArg (fun c => c.hooks.hookIdHd) hc
  rw [hhooks]
  exact Q.congr hhandle hcell.1 hcell.2 (h p e he)

theorem rebuildFold {i : Nat} {name : String} {anc : List RegionPtr} {l : List EntryPtr}
    {acc acc' : Runtime × HookDispatchCache}
    (h : l.foldlM (regionRebuildSlot E i name anc) acc = .ok acc')
    (hk : acc.1.hookIdHd.lookup name = some i) (hc : Q.Held acc.1) : Q.Held acc'.1 := by
  have hstep : ∀ {m m' : Runtime × HookDispatchCache} {p : EntryPtr},
      regionRebuildSlot E i name anc m p = .ok m' →
      (m.1.hookIdHd.lookup name = some i ∧ Q.Held m.1 →
        m'.1.hookIdHd.lookup name = some i ∧ Q.Held m'.1) := by
    rintro ⟨m, c⟩ m' p hm ⟨hk, hc⟩
    obtain ⟨me, he, ⟨-, rfl⟩ | ⟨-, -, rfl⟩⟩ := regionRebuildSlot_cases hm
    · exact ⟨hk, hc⟩
    · exact ⟨hk, hc.setEntry (Q.slot hk (hc p me he))⟩
  exact (foldlM_rel (fun a b : Runtime × HookDispatchCache =>
    a.1.hookIdHd.lookup name = some i ∧ Q.Held a.1 →
      b.1.hookIdHd.lookup name = some i ∧ Q.Held b.1) (fun _ => id)
    (fun _ _ _ h k => k ∘ h) (fun _ _ _ => hstep) h ⟨hk, hc⟩).2

theorem ensureMods {r : RegionPtr} (h : Q.Held s) (hm : s.regionEnsureSubtreeMods r = .ok t) :
    Q.Held t := by
  rcases regionEnsureSubtreeMods_cases hm with ⟨-, hm⟩ | ⟨-, rfl⟩
  · obtain ⟨l, -, hm⟩ := Res.bind_ok.mp hm
    cases hm
    exact h.of_entries rfl rfl
  · exact h

theorem rebuildVector {r : RegionPtr} {i : Nat} {name : String} {anc : List RegionPtr}
    (hc : Q.Held s) (hk : s.hookIdHd.lookup name = some i)
    (h : s.regionRebuildHookDispatch E r i name anc = .ok t) : Q.Held t := by
  obtain ⟨m, hm, ⟨-, rfl⟩ | ⟨-, m', cache, hf, rfl⟩⟩ := regionRebuildHookDispatch_cases h
  · exact hc.ensureMods hm
  · have hk' : m.hookIdHd.lookup name = some i := by
      rcases regionEnsureSubtreeMods_cases hm with ⟨-, hm⟩ | ⟨-, rfl⟩
      · rw [(Cached.rebuildMods hm).hooks]
        exact hk
      · exact hk
    exact (rebuildFold hf hk' (hc.ensureMods hm)).of_entries rfl rfl

end Held

/-- A new id goes to a name that had none. -/
theorem Held.areg {E : Env} {Q : CellLaw E} {s : Runtime} (h : Q.Held s) (hr : Registry s)
    (a : AdapterPtr) :
    Q.Held (s.xyAreg E a).1 := by
  rcases xyAreg_cases E s a with ⟨err, he⟩ | ⟨hs, he⟩
  · rw [he]
    exact h.of_entries rfl rfl
  · rw [he]
    have hnew : s.hookIdHd.lookup (s.adapters a).name = none := by
      have h1 := hr.sica (s.adapters a).name
      rw [hs] at h1
      exact Option.isNone_iff_eq_none.mp (by simpa using h1.symm)
    have hreg : Q.Held (s.register a) := by
      intro p e he
      refine Q.mono (fun name id hid => ?_) (h p e he)
      have hne : name ≠ (s.adapters a).name := by
        rintro rfl
        rw [hnew] at hid
        cases hid
      exact (AList.lookup_insert_ne hne).trans hid
    exact (hreg.mapEntries _ fun e he => Q.prewarm he).of_entries rfl rfl

end CellLaw

section Prims
variable {E : Env} {Q : CellLaw E} {g : RegionPtr → UInt8 → Prop} {s t : Runtime} {x y : Transit}
  {L : RegionPtr → List EntryPtr}

theorem Prim.held (h : Prim E g (s, x) (t, y)) (hw : WF s x.entry L) (hm : Q.Held s) :
    Q.Held t := by
  cases h with
  | scratch hs => exact hm.of_entries hs.entries hs.hookIdHd
  | @count _ _ p e he n => exact hm.setEntry (Q.congr (e := e) rfl rfl rfl (hm p e he))
  | clear l base => exact hm.mapEntries l fun e he => Q.clear base he
  | @prewarm _ _ p e he =>
      exact hm.setEntry (Q.prewarm (hm p e he))
  | removeDenies r path =>
      refine hm.of_entries (moduleRemoveDenies_entries s r path) ?_
      unfold moduleRemoveDenies
      split <;> rfl
  | @detach _ _ p hd =>
      obtain ⟨r, a, b, hab, -⟩ := hw.detach hd
      obtain ⟨m, hm', hrel, -⟩ := hw.moduleRegionDetach_spec hab
      cases hd.symm.trans hm'
      obtain ⟨regions, hmark⟩ := regionMarkSubtreeDirty_eq m r
      rw [hmark]
      exact (hm.of_cells hrel.core hrel.cells).of_entries rfl rfl
  | @unlist _ _ p e he hu =>
      obtain ⟨r, hre, -, hp⟩ := hw.region_of he (by simp [Transit.entry])
      obtain ⟨a, b, hab⟩ := List.append_of_mem hp
      obtain ⟨m, hm', hrel, -⟩ := hw.regionUnlink_spec hab he
      simp only [modLoadUnlist, hre, Res.bind_ok, Except.ok.injEq] at hu
      obtain ⟨m', hm'', rfl⟩ := hu
      cases hm''.symm.trans hm'
      obtain ⟨regions, hmark⟩ := regionMarkSubtreeDirty_eq m r
      rw [hmark]
      exact (hm.of_cells hrel.core hrel.cells).of_entries rfl rfl
  | @insert _ _ _ p e r a hx he hr ha hi =>
      rw [hx] at hw
      obtain ⟨l, l', hl, rfl⟩ := hw.anchor_split ha hi
      obtain ⟨m, hm', hrel, -⟩ := hw.insertAfter_spec hl he hr
      cases hi.symm.trans hm'
      obtain ⟨regions, hmark⟩ := regionMarkSubtreeDirty_eq m r
      rw [hmark]
      have h0 : Q.Held (s.setEntry p (some { e with regionEntry := some r })) :=
        hm.setEntry (Q.congr (e := e) rfl rfl rfl (hm p e he))
      exact (h0.of_cells hrel.core hrel.cells).of_entries rfl rfl
  | @drop _ _ p e hx he =>
      intro q f hf
      simp only [dropEntry, Function.update_apply] at hf
      split at hf
      · cases hf
      · exact hm q f hf
  | publish hk hr im tmp addr ha =>
      exact hm.setEntry (Q.fresh rfl rfl)
  | @bind _ p e he c path =>
      exact (hm.of_entries rfl rfl : Q.Held (s.xyInitCtx c path e.regionId)).setEntry
        (Q.congr (e := e) rfl rfl rfl (hm p e he))
  | claim hcl hg =>
      obtain ⟨regions, heq⟩ := regionCreateChild_eq s _ _ _
      rw [heq]
      exact hm.of_entries rfl rfl
  | @rekey _ p e child he hch hn =>
      rw [rekeyEntry_eq]
      have h0 : Q.Held (s.setEntry p (some
          { e with regionId := child, modKey := ⟨e.modKey.path, child⟩ })) :=
        hm.setEntry (Q.congr (e := e) rfl rfl rfl (hm p e he))
      exact h0.of_entries rfl rfl
  | @state _ p e he =>
      have h0 : Q.Held (s.setEntry p (some { e with regionState := some s.stateNext })) :=
        hm.setEntry (Q.congr (e := e) rfl rfl rfl (hm p e he))
      exact h0.of_entries rfl rfl
  | freePath c => exact hm.of_entries rfl rfl
  | mods hmods =>
      obtain ⟨l, -, hmods⟩ := Res.bind_ok.mp hmods
      cases hmods
      exact hm.of_entries rfl rfl
  | vector hk hv => exact hm.rebuildVector hk hv
  | enter c a st => exact hm.of_entries rfl rfl

theorem Prims.held (h : Prims E g (s, .none) (t, .none)) (hw : WF s none L) (hm : Q.Held s) :
    Q.Held t := by
  have key : ∀ b, Prims E g (s, .none) b → (∃ L', WF b.1 b.2.entry L') ∧ Q.Held b.1 := by
    intro b hb
    induction hb with
    | refl => exact ⟨⟨L, hw⟩, hm⟩
    | tail _ hp ih =>
        obtain ⟨⟨L1, hw1⟩, hm1⟩ := ih
        exact ⟨hw1.prim hp, hp.held hw1 hm1⟩
  exact (key _ h).2

end Prims

section Runs
variable {E : Env} {Q : CellLaw E} {s₀ s t : State} {tr : List (State × Event)} {e : Event}

theorem CellLaw.Held.step (hm : Q.Held s.rt) (hi : Inv E s) (h : Xylem.step E s e = .ok t) :
    Q.Held t.rt := by
  rcases step_prims hi h with ⟨a, rfl⟩ | ⟨g, hp⟩ | hs
  · cases h
    exact hm.areg hi.registry a
  · obtain ⟨L, hw⟩ := hi.wf
    exact hp.held hw hm
  · exact hm.of_entries hs.entries hs.hookIdHd

/-- A law of the cells is a law of every run. -/
theorem CellLaw.holds (Q : CellLaw E) (h : Runs E s₀ tr s) : Q.Held s.rt := by
  obtain ⟨hb, hrun⟩ := h
  induction hrun with
  | nil =>
      intro p e he
      rw [hb.entries] at he
      cases he
  | snoc hrun hs ih => exact ih.step (Runs.inv ⟨hb, hrun⟩) hs

end Runs

end Xylem

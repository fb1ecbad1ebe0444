import Xylem.Runs.Elementary
import Xylem.Runs.Registered
import Xylem.Runs.Lifetimes

namespace Xylem

open Xylem.Runtime

/-- What the cell of hook id `i` may hold in a module with this handle. -/
def CellOk (E : Env) (hooks : AList (fun _ : String => Nat)) (h : ImageId) (i : Nat) : FnSlot → Prop
  | .null => True
  | .notFound => ∃ name, hooks.lookup name = some i ∧ E.dlsym h name = none
  | .fn f => ∃ name, hooks.lookup name = some i ∧ E.dlsym h name = some f

/-- Every filled cell is the answer of `dlsym` for the name of its id. -/
def Cached (E : Env) (s : Runtime) : Prop :=
  ∀ p e, s.entries p = some e → ∀ i, CellOk E s.hookIdHd e.handle i (e.fnCache i)

namespace ModEntry
variable {E : Env} {hooks : AList (fun _ : String => Nat)} {me : ModEntry}

theorem fnCacheResolve_handle (me : ModEntry) (i : Nat) (name : String) :
    (me.fnCacheResolve E i name).1.handle = me.handle := by
  unfold fnCacheResolve
  split
  · rfl
  · rfl
  · split <;> rfl

theorem fnCacheResolve_ok {i : Nat} {name : String} (hk : hooks.lookup name = some i)
    (h : ∀ j, CellOk E hooks me.handle j (me.fnCache j)) :
    ∀ j, CellOk E hooks me.handle j ((me.fnCacheResolve E i name).1.fnCache j) := by
  intro j
  unfold fnCacheResolve
  split
  · exact h j
  · exact h j
  · cases hf : E.dlsym me.handle name with
    | some f =>
        simp only [Function.update_apply]
        split
        · rename_i hj
          exact ⟨name, hj ▸ hk, hf⟩
        · exact h j
    | none =>
        simp only [Function.update_apply]
        split
        · rename_i hj
          exact ⟨name, hj ▸ hk, hf⟩
        · exact h j

theorem fnCachePrewarm_ok {l : List ((_ : String) × Nat)}
    (hl : ∀ x ∈ l, hooks.lookup x.1 = some x.2)
    (h : ∀ j, CellOk E hooks me.handle j (me.fnCache j)) :
    (me.fnCachePrewarm E l).handle = me.handle ∧
      ∀ j, CellOk E hooks me.handle j ((me.fnCachePrewarm E l).fnCache j) := by
  unfold fnCachePrewarm
  induction l generalizing me with
  | nil => exact ⟨rfl, h⟩
  | cons x l ih =>
      rw [List.foldl_cons]
      have hx := fnCacheResolve_ok (hl x List.mem_cons_self) h
      have hh := fnCacheResolve_handle (E := E) me x.2 x.1
      rw [← hh] at hx
      obtain ⟨h1, h2⟩ := ih (fun y hy => hl y (List.mem_cons_of_mem _ hy)) hx
      rw [hh] at h1 h2
      exact ⟨h1, h2⟩

end ModEntry

theorem CellOk.clear {E : Env} {hooks : AList (fun _ : String => Nat)} {h : ImageId} {i : Nat}
    {me : ModEntry} {base : ImageId} (hc : CellOk E hooks h i (me.fnCache i)) :
    CellOk E hooks h i ((me.clearFnCache base).fnCache i) := by
  simp only [ModEntry.clearFnCache]
  split
  · rename_i f hf
    split
    · trivial
    · rw [hf] at hc
      exact hc
  · exact hc

theorem CellOk.mono {E : Env} {hooks hooks' : AList (fun _ : String => Nat)} {h : ImageId} {i : Nat}
    {c : FnSlot} (hk : ∀ name id, hooks.lookup name = some id → hooks'.lookup name = some id)
    (hc : CellOk E hooks h i c) : CellOk E hooks' h i c := by
  cases c with
  | null => trivial
  | notFound =>
      obtain ⟨name, h1, h2⟩ := hc
      exact ⟨name, hk name i h1, h2⟩
  | fn f =>
      obtain ⟨name, h1, h2⟩ := hc
      exact ⟨name, hk name i h1, h2⟩

structure SameCells (s t : Runtime) : Prop where
  cells : ∀ p e', t.entries p = some e' →
    ∃ e, s.entries p = some e ∧ e'.handle = e.handle ∧ e'.fnCache = e.fnCache
  hooks : t.hookIdHd = s.hookIdHd

namespace SameCells
variable {s t u : Runtime}

theorem of_entries (he : t.entries = s.entries) (hh : t.hookIdHd = s.hookIdHd) : SameCells s t :=
  ⟨fun _ e' h => ⟨e', he ▸ h, rfl, rfl⟩, hh⟩

theorem refl (s : Runtime) : SameCells s s := of_entries rfl rfl

theorem trans (h : SameCells s t) (k : SameCells t u) : SameCells s u := by
  refine ⟨fun p e2 he2 => ?_, k.hooks.trans h.hooks⟩
  obtain ⟨e1, he1, h1, h2⟩ := k.cells p e2 he2
  obtain ⟨e0, he0, h3, h4⟩ := h.cells p e1 he1
  exact ⟨e0, he0, h1.trans h3, h2.trans h4⟩

theorem setEntry {p : EntryPtr} {e e' : ModEntry} (he : s.entries p = some e)
    (hh : e'.handle = e.handle) (hf : e'.fnCache = e.fnCache) :
    SameCells s (s.setEntry p (some e')) := by
  refine ⟨fun q f hq => ?_, rfl⟩
  by_cases hqp : q = p
  · subst hqp
    simp only [Runtime.setEntry, Function.update_self, Option.some.injEq] at hq
    subst hq
    exact ⟨e, he, hh, hf⟩
  · simp only [Runtime.setEntry, Function.update_of_ne hqp] at hq
    exact ⟨f, hq, rfl, rfl⟩

theorem store {p : EntryPtr} {f : ModEntry → ModEntry} (h : s.store p f = .ok t)
    (hf : ∀ e, (f e).handle = e.handle ∧ (f e).fnCache = e.fnCache) : SameCells s t := by
  obtain ⟨e, he, rfl⟩ := store_ok.mp h
  exact .setEntry he (hf e).1 (hf e).2

theorem markDirty (s : Runtime) (r : RegionPtr) : SameCells s (s.regionMarkSubtreeDirty r) := by
  obtain ⟨regions, h⟩ := regionMarkSubtreeDirty_eq s r
  rw [h]
  exact of_entries rfl rfl

theorem linkNext {r : RegionPtr} {q v : Option EntryPtr} (h : s.linkNext r q v = .ok t) :
    SameCells s t := by
  cases q with
  | some q => exact .store h fun _ => ⟨rfl, rfl⟩
  | none =>
      cases h
      exact of_entries rfl rfl

theorem linkPrev {r : RegionPtr} {q v : Option EntryPtr} (h : s.linkPrev r q v = .ok t) :
    SameCells s t := by
  cases q with
  | some q => exact .store h fun _ => ⟨rfl, rfl⟩
  | none =>
      cases h
      exact of_entries rfl rfl

theorem unlink {r : RegionPtr} {e : ModEntry} (h : s.regionUnlink r e = .ok t) : SameCells s t := by
  obtain ⟨m, h1, h2⟩ := Res.bind_ok.mp h
  exact (linkNext h1).trans (linkPrev h2)

theorem detach {p : EntryPtr} (h : s.moduleRegionDetach p = .ok t) : SameCells s t := by
  obtain ⟨e, -, h⟩ := Res.bind_ok.mp h
  split at h
  · cases h
    exact .refl s
  · obtain ⟨m, h1, h⟩ := Res.bind_ok.mp h
    obtain ⟨n, h2, h⟩ := Res.bind_ok.mp h
    cases h
    exact ((unlink h1).trans (store h2 fun _ => ⟨rfl, rfl⟩)).trans (markDirty _ _)

theorem unlist {e : ModEntry} (h : s.modLoadUnlist e = .ok t) : SameCells s t := by
  unfold modLoadUnlist at h
  split at h
  · obtain ⟨m, hm, h⟩ := Res.bind_ok.mp h
    cases h
    exact (unlink hm).trans (markDirty _ _)
  · cases h
    exact .refl s

theorem insertAfter {r : RegionPtr} {p : EntryPtr} {after : Option EntryPtr}
    (h : s.moduleRegionInsertAfter r p after = .ok t) : SameCells s t := by
  obtain ⟨m, h1, h⟩ := Res.bind_ok.mp h
  refine (store h1 fun _ => ⟨rfl, rfl⟩).trans ?_
  cases after with
  | none =>
      obtain ⟨n, h2, h⟩ := Res.bind_ok.mp h
      obtain ⟨o, h3, h⟩ := Res.bind_ok.mp h
      cases h
      refine ((store h2 fun _ => ⟨rfl, rfl⟩).trans (linkPrev h3)).trans ?_
      exact (of_entries rfl rfl : SameCells o (o.setRegion r _)).trans (markDirty _ r)
  | some a =>
      obtain ⟨e, -, h⟩ := Res.bind_ok.mp h
      obtain ⟨n, h2, h⟩ := Res.bind_ok.mp h
      obtain ⟨o, h3, h⟩ := Res.bind_ok.mp h
      obtain ⟨u, h4, h⟩ := Res.bind_ok.mp h
      cases h
      refine ((store h2 fun _ => ⟨rfl, rfl⟩).trans (linkPrev h3)).trans ?_
      exact (store h4 fun _ => ⟨rfl, rfl⟩).trans (markDirty _ r)

end SameCells

namespace Cached
variable {E : Env} {s t : Runtime}

theorem same (h : Cached E s) (hs : SameCells s t) : Cached E t := by
  intro p e' he' i
  obtain ⟨e, he, h1, h2⟩ := hs.cells p e' he'
  rw [hs.hooks, h1, h2]
  exact h p e he i

theorem setEntry (h : Cached E s) {p : EntryPtr} {e' : ModEntry}
    (he' : ∀ i, CellOk E s.hookIdHd e'.handle i (e'.fnCache i)) :
    Cached E (s.setEntry p (some e')) := by
  intro q f hq i
  by_cases hqp : q = p
  · subst hqp
    simp only [Runtime.setEntry, Function.update_self, Option.some.injEq] at hq
    subst hq
    exact he' i
  · simp only [Runtime.setEntry, Function.update_of_ne hqp] at hq
    exact h q f hq i

theorem mapEntries (h : Cached E s) (l : List EntryPtr) {f : ModEntry → ModEntry}
    (hf : ∀ e, (∀ i, CellOk E s.hookIdHd e.handle i (e.fnCache i)) →
      ∀ i, CellOk E s.hookIdHd (f e).handle i ((f e).fnCache i)) : Cached E (s.mapEntries l f) := by
  intro p e' he' i
  simp only [Runtime.mapEntries] at he'
  split at he'
  · obtain ⟨e, he, rfl⟩ := Option.map_eq_some_iff.mp he'
    exact hf e (h p e he) i
  · exact h p e' he' i

theorem prewarm {e : ModEntry} (h : ∀ i, CellOk E s.hookIdHd e.handle i (e.fnCache i)) :
    ∀ i, CellOk E s.hookIdHd (e.fnCachePrewarm E s.hookIdHd.entries).handle i
      ((e.fnCachePrewarm E s.hookIdHd.entries).fnCache i) := by
  obtain ⟨h1, h2⟩ := ModEntry.fnCachePrewarm_ok (E := E) (l := s.hookIdHd.entries)
    (fun x hx => AList.mem_lookup_iff.mpr hx) h
  rw [h1]
  exact h2

end Cached

namespace Cached
variable {E : Env} {s t : Runtime}

theorem slotEntry {i : Nat} {name : String} (hk : s.hookIdHd.lookup name = some i) {e : ModEntry}
    (h : ∀ j, CellOk E s.hookIdHd e.handle j (e.fnCache j)) :
    ∀ j, CellOk E s.hookIdHd (slotEntry E i name e).handle j ((slotEntry E i name e).fnCache j) := by
  unfold Runtime.slotEntry
  split
  · exact h
  · rw [ModEntry.fnCacheResolve_handle]
    exact ModEntry.fnCacheResolve_ok hk h

/-- Filling a vector resolves cells under the id of the hook's name. -/
theorem rebuildFold {i : Nat} {name : String} {anc : List RegionPtr} {l : List EntryPtr}
    {acc acc' : Runtime × HookDispatchCache}
    (h : l.foldlM (regionRebuildSlot E i name anc) acc = .ok acc')
    (hk : acc.1.hookIdHd.lookup name = some i) (hc : Cached E acc.1) : Cached E acc'.1 := by
  have hstep : ∀ {m m' : Runtime × HookDispatchCache} {p : EntryPtr},
      regionRebuildSlot E i name anc m p = .ok m' →
      (m.1.hookIdHd.lookup name = some i ∧ Cached E m.1 →
        m'.1.hookIdHd.lookup name = some i ∧ Cached E m'.1) := by
    rintro ⟨m, c⟩ m' p hm ⟨hk, hc⟩
    obtain ⟨me, he, ⟨-, rfl⟩ | ⟨-, -, rfl⟩⟩ := regionRebuildSlot_cases hm
    · exact ⟨hk, hc⟩
    · exact ⟨hk, hc.setEntry (slotEntry hk (hc p me he))⟩
  exact (foldlM_rel (fun a b : Runtime × HookDispatchCache =>
    a.1.hookIdHd.lookup name = some i ∧ Cached E a.1 →
      b.1.hookIdHd.lookup name = some i ∧ Cached E b.1) (fun _ => id)
    (fun _ _ _ h k => k ∘ h) (fun _ _ _ => hstep) h ⟨hk, hc⟩).2

theorem rebuildMods {r : RegionPtr} (h : s.regionRebuildSubtreeMods r = .ok t) : SameCells s t := by
  obtain ⟨l, -, h⟩ := Res.bind_ok.mp h
  cases h
  exact .of_entries rfl rfl

theorem rebuildVector {r : RegionPtr} {i : Nat} {name : String} {anc : List RegionPtr}
    (hk : s.hookIdHd.lookup name = some i) (hc : Cached E s)
    (h : s.regionRebuildHookDispatch E r i name anc = .ok t) : Cached E t := by
  have hmods : ∀ {m}, s.regionEnsureSubtreeMods r = .ok m → SameCells s m := by
    intro m hm
    rcases regionEnsureSubtreeMods_cases hm with ⟨-, hm⟩ | ⟨-, rfl⟩
    · exact rebuildMods hm
    · exact .refl _
  obtain ⟨m, hm, ⟨-, rfl⟩ | ⟨-, m', cache, hf, rfl⟩⟩ := regionRebuildHookDispatch_cases h
  · exact hc.same (hmods hm)
  · have hk' : m.hookIdHd.lookup name = some i := by
      rw [(hmods hm).hooks]
      exact hk
    exact (rebuildFold hf hk' (hc.same (hmods hm))).same (.of_entries rfl rfl)

end Cached

section Prims
variable {E : Env} {g : RegionPtr → UInt8 → Prop} {s t : Runtime} {x y : Transit}

/-- No elementary operation fills a cell with anything but the answer of `dlsym`. -/
theorem Prim.cached (h : Prim E g (s, x) (t, y)) (hc : Cached E s) : Cached E t := by
  cases h with
  | scratch hs => exact hc.same (.of_entries hs.entries hs.hookIdHd)
  | count he n => exact hc.same (.setEntry he rfl rfl)
  | clear l base => exact hc.mapEntries l fun e he i => (he i).clear
  | @prewarm _ _ p e he => exact hc.setEntry (Cached.prewarm (hc p e he))
  | removeDenies r path =>
      refine hc.same (.of_entries (moduleRemoveDenies_entries s r path) ?_)
      unfold moduleRemoveDenies
      split <;> rfl
  | detach hd => exact hc.same (.detach hd)
  | unlist he hu => exact hc.same (.unlist hu)
  | insert hx he hr ha hi => exact hc.same (.insertAfter hi)
  | @drop _ _ p e hx he =>
      intro q f hf i
      simp only [dropEntry, Function.update_apply] at hf
      split at hf
      · cases hf
      · exact hc q f hf i
  | publish hk hr im tmp addr ha => exact hc.setEntry fun i => trivial
  | @bind _ p e he c path =>
      have h1 : Cached E (s.xyInitCtx c path e.regionId) := hc
      exact h1.same (.setEntry he rfl rfl)
  | claim hcl hg =>
      obtain ⟨regions, heq⟩ := regionCreateChild_eq s _ _ _
      rw [heq]
      exact hc.same (.of_entries rfl rfl)
  | @rekey _ p e child he hch hn =>
      rw [rekeyEntry_eq]
      have h1 : SameCells s (s.setEntry p (some
          { e with regionId := child, modKey := ⟨e.modKey.path, child⟩ })) := .setEntry he rfl rfl
      exact (hc.same h1).same (.of_entries rfl rfl)
  | @state _ p e he =>
      have h1 : SameCells s (s.setEntry p (some { e with regionState := some s.stateNext })) :=
        .setEntry he rfl rfl
      exact (hc.same h1).same (.of_entries rfl rfl)
  | freePath c => exact hc.same (.of_entries rfl rfl)
  | mods hm => exact hc.same (Cached.rebuildMods hm)
  | vector hk hv => exact Cached.rebuildVector hk hc hv
  | enter c a st => exact hc.same (.of_entries rfl rfl)

theorem Prims.cached (h : Prims E g (s, .none) (t, .none)) (hc : Cached E s) : Cached E t := by
  have key : ∀ b, Prims E g (s, .none) b → Cached E b.1 := by
    intro b hb
    induction hb with
    | refl => exact hc
    | tail _ hp ih => exact hp.cached ih
  exact key _ h

end Prims

section Steps
variable {E : Env} {s t : State} {e : Event}

/-- A new id goes to a name that had none, and its cells are filled at once. -/
theorem Cached.areg {s : Runtime} (h : Cached E s) (hr : Registry s) (a : AdapterPtr) :
    Cached E (s.xyAreg E a).1 := by
  rcases xyAreg_cases E s a with ⟨err, he⟩ | ⟨hs, he⟩
  · rw [he]
    exact h.same (.of_entries rfl rfl)
  · rw [he]
    have hnew : s.hookIdHd.lookup (s.adapters a).name = none := by
      have h1 := hr.sica (s.adapters a).name
      rw [hs] at h1
      exact Option.isNone_iff_eq_none.mp (by simpa using h1.symm)
    have hreg : Cached E (s.register a) := by
      intro p e he i
      refine (h p e he i).mono fun name id hid => ?_
      have hne : name ≠ (s.adapters a).name := by
        rintro rfl
        rw [hnew] at hid
        cases hid
      exact (AList.lookup_insert_ne hne).trans hid
    exact (hreg.mapEntries _ fun e he => Cached.prewarm he).same (.of_entries rfl rfl)

theorem Cached.step (hc : Cached E s.rt) (hi : Inv E s) (h : Xylem.step E s e = .ok t) :
    Cached E t.rt := by
  rcases step_prims hi h with ⟨a, rfl⟩ | ⟨g, hp⟩ | hs
  · cases h
    exact hc.areg hi.registry a
  · exact hp.cached hc
  · exact hc.same (.of_entries hs.entries hs.hookIdHd)

theorem hookId_kept (hi : Inv E s) (h : Xylem.step E s e = .ok t) {name : String} {id : Nat}
    (hid : s.rt.hookIdHd.lookup name = some id) : t.rt.hookIdHd.lookup name = some id := by
  cases step_hooks hi h with
  | areg a ht =>
      rw [ht]
      rcases xyAreg_cases E s.rt a with ⟨err, he⟩ | ⟨hs, he⟩
      · rw [he]
        exact hid
      · rw [he]
        have hne : name ≠ (s.rt.adapters a).name := by
          rintro rfl
          have h1 := hi.registry.sica (s.rt.adapters a).name
          rw [hs, hid] at h1
          cases h1
        exact (AList.lookup_insert_ne hne).trans hid
  | call retp reg ht =>
      have h1 : t.rt.hookIdHd = (s.rt.callResolve reg).1.hookIdHd := congrArg Hooks.hookIdHd ht
      rw [h1, (callResolve_sameHeap s.rt reg).hookIdHd]
      exact hid
  | same he ht =>
      have h1 : t.rt.hookIdHd = s.rt.hookIdHd := congrArg Hooks.hookIdHd ht
      rw [h1]
      exact hid

end Steps

def calls (es : List LifeEvent) : List Event :=
  es.filterMap fun e => match e with
    | .call e => some e
    | _ => none

/-- The hook registry after the given events, where `A` is what the adapters were before them. -/
structure HookIds (E : Env) (A : AdapterPtr → Adapter) (es : List LifeEvent) (s : Runtime) : Prop where
  bounded : ∀ name id, s.hookIdHd.lookup name = some id → id < s.hookIdCounter
  injective : ∀ name name' id, s.hookIdHd.lookup name = some id →
    s.hookIdHd.lookup name' = some id → name = name'
  first : ∀ name id, s.hookIdHd.lookup name = some id → id < s.adapterByIdCap ∧
    ∃ f, firstRegistrant A name (calls es) = some f ∧ s.adapterById id = some f
  held : ∀ a id, (s.adapters a).hookId = some id →
    s.hookIdHd.lookup (s.adapters a).name = some id
  cells : Cached E s

/-- What a step of the process keeps. -/
structure HooksInv (E : Env) (A : AdapterPtr → Adapter) (es : List LifeEvent) (l : Life) : Prop where
  life : LifeInv E l
  follows : ∀ name, l.st.rt.hooks.Follows A name (firstRegistrant A name (calls es))
  cached : Cached E l.st.rt

section Lives
variable {E : Env} {A : AdapterPtr → Adapter} {es : List LifeEvent} {l m l₀ : Life} {e : LifeEvent}
  {tr : List (Life × LifeEvent)}

theorem LifeInv.registry (h : LifeInv E l) : Registry l.st.rt := by
  cases hu : l.up with
  | true => exact (h.inv hu).registry
  | false => exact (h.down hu).registry

theorem HooksInv.of_hooks (h : HooksInv E A es l) (hm : LifeInv E m)
    (he : ∀ c, e ≠ .call c) (hh : m.st.rt.hooks = l.st.rt.hooks) (hc : Cached E m.st.rt) :
    HooksInv E A (es ++ [e]) m := by
  have hcalls : calls (es ++ [e]) = calls es := by
    cases e with
    | call c => exact absurd rfl (he c)
    | init => simp [calls]
    | shutdown => simp [calls]
  refine ⟨hm, fun name => ?_, hc⟩
  rw [hh, hcalls]
  exact h.follows name

theorem hooksInv_step (hA : ∀ a, (A a).hookId = none) (h : HooksInv E A es l)
    (hs : lifeStep E l e = .ok m) : HooksInv E A (es ++ [e]) m := by
  have hm := lifeInv_step h.life hs
  cases e with
  | call c =>
      simp only [lifeStep] at hs
      split at hs
      · rename_i hup
        obtain ⟨t, ht, rfl⟩ := Res.map_ok.mp hs
        have hi := h.life.inv hup
        refine ⟨hm, fun name => ?_, h.cached.step hi ht⟩
        have hcalls : calls (es ++ [.call c]) = calls es ++ [c] := by simp [calls]
        rw [hcalls, firstRegistrant, List.findSome?_append]
        have hone : List.findSome? (Event.registers A name) [c] = c.registers A name := by simp
        rw [hone]
        exact (h.follows name).step hi ht fun b _ => hA b
      · cases hs
  | init =>
      simp only [lifeStep] at hs
      split at hs
      · cases hs
        exact h.of_hooks hm (by simp) rfl (h.cached.same (.of_entries rfl rfl))
      · rename_i hup
        cases hs
        have hb := (h.life.down (by simpa using hup)).bootstrap
        have hh : l.st.rt.xyRuntimeBootstrap.hooks = l.st.rt.hooks := by
          rw [hb]
          rfl
        have hcells : SameCells l.st.rt l.st.rt.xyRuntimeBootstrap := by
          rw [hb]
          exact .of_entries rfl rfl
        exact h.of_hooks hm (by simp) hh ((h.cached.same hcells).same (.of_entries rfl rfl))
  | shutdown =>
      simp only [lifeStep] at hs
      split at hs
      · split at hs
        · rename_i hup
          obtain ⟨t, ht, rfl⟩ := Res.map_ok.mp hs
          obtain ⟨L, hw⟩ := (h.life.inv hup).wf
          have hent := teardown_entries hw ht
          have hh : t.hooks = l.st.rt.hooks := teardown_hooks ht
          refine h.of_hooks hm (by simp) hh fun p e he => ?_
          have he' : t.entries p = some e := he
          rw [hent] at he'
          cases he'
        · cases hs
          exact h.of_hooks hm (by simp) rfl (h.cached.same (.of_entries rfl rfl))
      · cases hs

theorem Launch.hooksInv (h : Launch l) : HooksInv E l.st.rt.adapters [] l := by
  refine ⟨h.inv, fun name => ?_, fun p e he => ?_⟩
  · exact ⟨fun b => rfl, fun _ => ⟨congrFun h.sicaHd name, fun b _ => rfl⟩, fun f hf => by cases hf⟩
  · rw [h.entries] at he
    cases he

theorem HooksInv.hookIds (h : HooksInv E A es l) : HookIds E A es l.st.rt := by
  have hr := h.life.registry
  refine ⟨hr.lt, hr.inj, fun name id hid => ?_, hr.held, h.cached⟩
  cases hf : firstRegistrant A name (calls es) with
  | none =>
      have hsica := hr.sica name
      rw [hid, show l.st.rt.sicaHd name = none from ((h.follows name).free hf).1] at hsica
      cases hsica
  | some f =>
      obtain ⟨i, hi⟩ := (h.follows name).held f hf
      have hlook : l.st.rt.hookIdHd.lookup name = some i := hi.lookup
      cases hlook.symm.trans hid
      exact ⟨hi.lt, f, rfl, hi.byId⟩

theorem hookId_kept_life (h : LifeInv E l) (hs : lifeStep E l e = .ok m) {name : String} {id : Nat}
    (hid : l.st.rt.hookIdHd.lookup name = some id) : m.st.rt.hookIdHd.lookup name = some id := by
  cases e with
  | call c =>
      simp only [lifeStep] at hs
      split at hs
      · rename_i hup
        obtain ⟨t, ht, rfl⟩ := Res.map_ok.mp hs
        exact hookId_kept (h.inv hup) ht hid
      · cases hs
  | init =>
      simp only [lifeStep] at hs
      split at hs
      · cases hs
        exact hid
      · rename_i hup
        cases hs
        have hb : l.st.rt.xyRuntimeBootstrap.hookIdHd = l.st.rt.hookIdHd := by
          rw [(h.down (by simpa using hup)).bootstrap]
        exact (congrArg (AList.lookup name) hb).trans hid
  | shutdown =>
      simp only [lifeStep] at hs
      split at hs
      · split at hs
        · obtain ⟨t, ht, rfl⟩ := Res.map_ok.mp hs
          have hh : t.hookIdHd = l.st.rt.hookIdHd := congrArg Hooks.hookIdHd (teardown_hooks ht)
          exact (congrArg (AList.lookup name) hh).trans hid
        · cases hs
          exact hid
      · cases hs

/-- In every state of every run the hook ids are as they should be, and no name ever
changes its id. -/
theorem hook_ids_stable (h : Lives E l₀ tr l) :
    HookIds E l₀.st.rt.adapters (tr.map (·.2)) l.st.rt ∧
      ∀ u ∈ Run.states tr l, ∀ name id, u.st.rt.hookIdHd.lookup name = some id →
        l.st.rt.hookIdHd.lookup name = some id := by
  have key := h.2.invariant_trace (C := fun _ _ _ => True)
    (P := fun tr l => HooksInv E l₀.st.rt.adapters (tr.map (·.2)) l ∧
      ∀ u ∈ Run.states tr l, ∀ name id, u.st.rt.hookIdHd.lookup name = some id →
        l.st.rt.hookIdHd.lookup name = some id)
    ?_ (fun _ _ _ _ => trivial) ⟨h.1.hooksInv, fun u hu => ?_⟩
  · exact ⟨key.1.hookIds, key.2⟩
  · rintro tr m e t hs - ⟨hm, hkept⟩
    refine ⟨?_, fun u hu name id hid => ?_⟩
    · rw [List.map_append]
      exact hooksInv_step h.1.hookIds hm hs
    · rcases Run.mem_states_snoc.mp hu with hu | rfl
      · exact hookId_kept_life hm.life hs (hkept u hu name id hid)
      · exact hid
  · obtain rfl : u = l₀ := by simpa [Run.states] using hu
    exact fun _ _ hid => hid

end Lives

/-- Two lifetimes: hook `h` is registered and `p` loaded in the first, `q` in the second. -/
theorem hook_ids_two_lifetimes : ∃ l, Run.exec (lifeStep sampleEnv) sampleLife
      [.init, .call (.areg 0), .call (.load "p" {}), .call .installRet, .shutdown,
        .init, .call (.areg 1), .call (.load "q" {}), .call .installRet] = .ok l ∧
    l.st.rt.hookIdHd.lookup "h" = some 0 ∧
    HookIds sampleEnv sampleLife.st.rt.adapters
      [.init, .call (.areg 0), .call (.load "p" {}), .call .installRet, .shutdown,
        .init, .call (.areg 1), .call (.load "q" {}), .call .installRet] l.st.rt := by
  obtain ⟨l, hl, hobs⟩ := Run.exec_of_check (lifeStep sampleEnv) sampleLife
    [.init, .call (.areg 0), .call (.load "p" {}), .call .installRet, .shutdown,
      .init, .call (.areg 1), .call (.load "q" {}), .call .installRet]
    (fun l => decide (l.st.rt.hookIdHd.lookup "h" = some 0)) (by decide)
  have h := (hook_ids_stable ⟨sampleLife_launch, Run.exec_steps hl⟩).1
  rw [Run.trace_events hl] at h
  exact ⟨l, hl, of_decide_eq_true hobs, h⟩

end Xylem

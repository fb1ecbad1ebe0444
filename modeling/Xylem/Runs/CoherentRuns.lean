import Xylem.Runs.CoherentPrims

namespace Xylem

open Xylem.Runtime

/-- The event is no module deny of a path in `free`. -/
def Spares (E : Env) (free : String → Prop) (e : Event) : Prop :=
  ∀ what, e = .deny what .module → ¬ free (E.moduleLoadPath what)

namespace Runtime
variable {E : Env} {free : String → Prop} {s t : Runtime} {L : RegionPtr → List EntryPtr}

theorem setRegion_vec {r : RegionPtr} {f : RegionEntry → RegionEntry}
    (hf : ∀ re, (f re).subtreeMods = re.subtreeMods ∧ (f re).subtreeModsDirty = re.subtreeModsDirty ∧
      (f re).dispatchGen = re.dispatchGen ∧ (f re).hookDispatch = re.hookDispatch) :
    (s.setRegion r f).vec = s.vec := by
  funext x
  unfold vec
  rw [regions_setRegion]
  split
  · rename_i hx
    obtain ⟨h1, h2, h3, h4⟩ := hf (s.regions r)
    simp only [hx, h1, h2, h3, h4]
  · rfl

theorem foldl_setRegion_vec {f : RegionEntry → RegionEntry}
    (hf : ∀ re, (f re).subtreeMods = re.subtreeMods ∧ (f re).subtreeModsDirty = re.subtreeModsDirty ∧
      (f re).dispatchGen = re.dispatchGen ∧ (f re).hookDispatch = re.hookDispatch)
    (l : List RegionPtr) (s : Runtime) : (l.foldl (fun s e => s.setRegion e f) s).vec = s.vec := by
  induction l generalizing s with
  | nil => rfl
  | cons r l ih => exact (ih _).trans (setRegion_vec hf)

/-- A deny gives everything from its region upwards a new generation, and touches no list. -/
theorem xyDeny_vec (hok : s.tree.Ok) (what : String) (type : DenyType) {r : RegionPtr}
    (hr : s.regionLookup s.currentRegionId = some r) (x : RegionPtr) :
    (s.xyDeny E what type).1.vec x = if x ∈ s.upward r then bumpVec (s.vec x) false else s.vec x := by
  have hbump : ∀ m : Runtime, m.vec = s.vec → m.tree.Ok → m.tree.parentOf = s.tree.parentOf →
      m.regionNext = s.regionNext → (m.regionDispatchGenBump r).vec x =
        if x ∈ s.upward r then bumpVec (s.vec x) false else s.vec x := by
    intro m hv hmok hpar hn
    have hup : m.upward r = s.upward r := by
      rw [upward_tree, upward_tree]
      unfold Tree.upward
      rw [hpar]
      exact congrArg (fun n => Forest.climb s.tree.parentOf n (some r)) hn
    rw [regionDispatchGenBump_eq hmok, hup, ← hv]
    unfold vec bumpVec
    simp only [Bool.or_false]
    split <;> rfl
  obtain ⟨m, hm, hvec, heq⟩ : ∃ m : Runtime, RulesOnly s m ∧ m.vec = s.vec ∧
      (s.xyDeny E what type).1 = (m.regionDispatchGenBump r).setErr xyOk := by
    unfold xyDeny
    simp only [hr]
    cases type <;>
    · refine ⟨_, (setRegion_rules s r fun re => ⟨_, _, rfl⟩).trans
        (foldl_setRegion_rules (fun re => ⟨_, _, rfl⟩) _ _), ?_, rfl⟩
      exact (foldl_setRegion_vec (by intro re; exact ⟨rfl, rfl, rfl, rfl⟩) _ _).trans
        (setRegion_vec (by intro re; exact ⟨rfl, rfl, rfl, rfl⟩))
  have htree : m.tree = s.tree.deny E r what type := by
    have h1 := xyDeny_tree E s what type
    rw [heq, core_tree (setErr_core _ _), core_tree (regionDispatchGenBump_core _ _)] at h1
    simpa [hr] using h1
  have hmok : m.tree.Ok := htree ▸ hok.deny E (hok.hd_node _ _ hr).1 what type
  have hn : m.regionNext = s.regionNext := by
    obtain ⟨R, hR, -⟩ := hm
    rw [hR]
  rw [heq]
  exact hbump m hvec hmok (by rw [htree, Tree.deny_parentOf]) hn

end Runtime

namespace Tree
variable {T : Tree}

theorem deny_children (E : Env) (T : Tree) (r x : RegionPtr) (what : String) (type : DenyType) :
    ((T.deny E r what type).node x).children = (T.node x).children := by
  have hadd : ((T.modify r (addDeny E what type)).node x).children = (T.node x).children := by
    by_cases hx : x = r
    · subst hx
      cases type <;> simp [modify, addDeny]
    · simp [modify, hx]
  simp only [deny]
  split
  · exact hadd
  · exact hadd

theorem Denies.of_deny {E : Env} {r a : RegionPtr} {what path : String} {type : DenyType}
    (h : (T.deny E r what type).Denies a path) :
    T.Denies a path ∨ type = .module ∧ path = E.moduleLoadPath what := by
  have hadd : (T.modify r (addDeny E what type)).Denies a path := by
    unfold Denies at h ⊢
    simp only [deny] at h
    split at h
    · exact h
    · exact h
  by_cases ha : a = r
  · subst ha
    cases type with
    | hook => exact .inl (by simpa [Denies, modify, addDeny] using hadd)
    | module =>
        simp only [Denies, modify, addDeny, Function.update_self, Finset.mem_insert,
          List.mem_cons] at hadd
        rcases hadd with (hp | hp) | (hp | hp)
        · exact .inr ⟨rfl, hp⟩
        · exact .inl (.inl hp)
        · exact .inr ⟨rfl, hp⟩
        · exact .inl (.inr hp)
  · exact .inl (by simpa [Denies, modify, ha] using hadd)

end Tree

namespace ListsOk
variable {E : Env} {free : String → Prop} {m n : Runtime} {L : RegionPtr → List EntryPtr}

/-- Links and ends are as they were, and the regions differ in their rules. -/
theorem rules_wf (h : ListsOk E free m none L) (hok : n.tree.Ok) (hx : ∃ R g e,
      n = { m with regions := R, genBumps := g, errVal := e } ∧ ∀ x, OtherRules (m.regions x) (R x)) :
    WF n none L := by
  obtain ⟨R, g, e, rfl, hrules⟩ := hx
  refine h.wf.congr hok rfl rfl rfl (fun _ => rfl) (fun _ _ => rfl) ?_ ?_ fun _ _ => id
  · intro r
    obtain ⟨node, gen, hr⟩ := hrules r
    show (R r).modsHead = _
    rw [hr]
  · intro r
    obtain ⟨node, gen, hr⟩ := hrules r
    show (R r).modsTail = _
    rw [hr]

theorem deny (h : ListsOk E free m none L) {what : String} {type : DenyType}
    (hcur : (m.regionHd m.currentRegionId).isSome) (hs : Spares E free (.deny what type)) :
    ListsOk E free (m.xyDeny E what type).1 none L ∧ Moves E free m (m.xyDeny E what type).1 L L := by
  obtain ⟨r, hr⟩ := Option.isSome_iff_exists.mp hcur
  have hvec := xyDeny_vec (E := E) h.wf.tree what type hr
  have htree := xyDeny_tree E m what type
  simp only [regionLookup, hr] at htree
  have hok := h.wf.tree.deny E (h.wf.tree.hd_node _ _ hr).1 what type
  rw [← htree] at hok
  obtain ⟨R, hR, hrules⟩ := xyDeny_rules E m what type hr
  have hwf := h.rules_wf hok ⟨R, _, _, hR, hrules⟩
  generalize hn : (m.xyDeny E what type).1 = n at *
  have hrest : n.entries = m.entries ∧ n.hookIdHd = m.hookIdHd ∧ n.genBumps = m.genBumps + 1 ∧
      n.regionNext = m.regionNext := by
    rw [hR]
    exact ⟨rfl, rfl, rfl, rfl⟩
  obtain ⟨hents, hhooks, hg, hnext⟩ := hrest
  have hwalk : ∀ x, n.walk L x = m.walk L x := fun x => by
    refine h.wf.walk_congr hnext (fun y => ?_) fun _ _ => rfl
    have hy := congrArg (fun T : Tree => (T.node y).children) htree
    exact hy.trans (Tree.deny_children E m.tree r y what type)
  have hm : Moves E free m n L L := by
    refine ⟨fun x => ?_, by omega, fun _ _ hi => hhooks ▸ hi, fun _ _ hi => .inl (hhooks ▸ hi),
      fun _ p _ => face_of_entries (congrFun hents p)⟩
    have hx := hvec x
    split at hx
    · exact .bumped false hx (by omega) (.inr (hwalk x))
    · exact .same hx (hwalk x)
  refine ⟨⟨hwf, h.flat.move hm, h.cells.same (.of_entries hents hhooks),
    h.bits.of_entries hents hhooks, hhooks ▸ h.inj, fun path hp a => ?_⟩, hm⟩
  by_contra hd
  have hd' := moduleIsDenied_iff.mp (Bool.not_eq_false _ ▸ hd)
  rw [htree] at hd'
  rcases hd'.of_deny with hold | ⟨rfl, rfl⟩
  · rw [← moduleIsDenied_iff, h.undenied path hp a] at hold
    cases hold
  · exact hs what rfl hp

theorem requireClaim (h : ListsOk E free m none L) (fn : Option HandlerPtr) (ud : Nat)
    (hcur : (m.regionHd m.currentRegionId).isSome) :
    ListsOk E free (m.xyRequireClaim fn ud).1 none L ∧
      Moves E free m (m.xyRequireClaim fn ud).1 L L := by
  obtain ⟨r, hr⟩ := Option.isSome_iff_exists.mp hcur
  obtain ⟨htree, R, hR, hrules⟩ := xyRequireClaim_rules m fn ud hr
  have hok : (m.xyRequireClaim fn ud).1.tree.Ok :=
    htree ▸ h.wf.tree.gate (h.wf.tree.hd_node _ _ hr).1 fn ud
  have heq : (m.xyRequireClaim fn ud).1 = (m.setRegion r (gateEntry fn ud)).setErr xyOk := by
    simp only [xyRequireClaim, regionLookup, hr]
    cases fn <;> rfl
  have hvec : (m.xyRequireClaim fn ud).1.vec = m.vec := by
    rw [heq]
    exact setRegion_vec (f := gateEntry fn ud) fun _ => ⟨rfl, rfl, rfl, rfl⟩
  have hwf := h.rules_wf hok ⟨R, _, _, hR, hrules⟩
  have hnode : ∀ y, ((m.xyRequireClaim fn ud).1.regions y).children = (m.regions y).children := by
    intro y
    rw [heq]
    show ((m.setRegion r (gateEntry fn ud)).regions y).children = _
    rw [regions_setRegion]
    split
    · rename_i hy
      rw [hy]
      rfl
    · rfl
  have hden : ∀ a path, (m.xyRequireClaim fn ud).1.moduleIsDenied a path = m.moduleIsDenied a path := by
    intro a path
    rw [heq]
    show (m.setRegion r (gateEntry fn ud)).moduleIsDenied a path = _
    unfold moduleIsDenied
    rw [regions_setRegion]
    split
    · rename_i hy
      rw [hy]
      rfl
    · rfl
  have hents : (m.xyRequireClaim fn ud).1.entries = m.entries := by rw [hR]
  have hhooks : (m.xyRequireClaim fn ud).1.hookIdHd = m.hookIdHd := by rw [hR]
  have hm : Moves E free m (m.xyRequireClaim fn ud).1 L L := by
    refine .keep h.wf hvec ?_ ?_ hnode hhooks fun _ p _ => face_of_entries (congrFun hents p)
    all_goals rw [hR]
  refine ⟨⟨hwf, h.flat.move hm, h.cells.same (.of_entries hents hhooks),
    h.bits.of_entries hents hhooks, hhooks ▸ h.inj, fun path hp a => ?_⟩, hm⟩
  rw [hden]
  exact h.undenied path hp a

/-- A new hook: its id had no vector, and the symbols of all modules are looked up at once. -/
theorem areg (h : ListsOk E free m none L) (hreg : Registry m) (a : AdapterPtr) :
    ListsOk E free (m.xyAreg E a).1 none L ∧ Moves E free m (m.xyAreg E a).1 L L := by
  have hcells := h.cells.areg hreg a
  have hbits := h.bits.areg hreg a
  rcases xyAreg_cases E m a with ⟨err, he⟩ | ⟨hs, he⟩
  · rw [he] at hcells hbits ⊢
    have hm : Moves E free m (m.setErr err) L L :=
      .keep h.wf rfl rfl rfl (fun _ => rfl) rfl fun _ _ _ => rfl
    exact ⟨⟨h.wf.sameHeap (setErr_sameHeap _ _), h.flat.move hm, hcells, hbits, h.inj, h.undenied⟩, hm⟩
  · rw [he] at hcells hbits ⊢
    have hreg' := register_registry hreg hs
    have hnew : m.hookIdHd.lookup (m.adapters a).name = none := by
      have h1 := hreg.sica (m.adapters a).name
      rw [hs] at h1
      exact Option.isNone_iff_eq_none.mp (by simpa using h1.symm)
    have hold : ∀ name i, m.hookIdHd.lookup name = some i →
        (m.register a).hookIdHd.lookup name = some i := by
      intro name i hi
      refine (AList.lookup_insert_ne ?_).trans hi
      rintro rfl
      rw [hnew] at hi
      cases hi
    have hfresh : ∀ name i, (m.register a).hookIdHd.lookup name = some i →
        m.hookIdHd.lookup name = some i ∨ ∀ name', m.hookIdHd.lookup name' ≠ some i := by
      intro name i hi
      by_cases hn : name = (m.adapters a).name
      · subst hn
        have hid : some m.hookIdCounter = some i := (AList.lookup_insert _).symm.trans hi
        cases hid
        exact .inr fun name' hk => Nat.lt_irrefl _ (hreg.lt name' _ hk)
      · exact .inl ((AList.lookup_insert_ne hn).symm.trans hi)
    have hw1 : WF (m.register a) none L :=
      h.wf.congr h.wf.tree rfl rfl rfl (fun _ => rfl) (fun _ _ => rfl) (fun _ => rfl) (fun _ => rfl)
        fun _ _ => id
    have hw2 : WF ((m.register a).mapEntries (m.modEntries E)
        (ModEntry.fnCachePrewarm E (m.register a).hookIdHd.entries)) none L :=
      hw1.mapEntries_same fun e => by
        obtain ⟨h1, h2, h3⟩ := fnCachePrewarm_same (E := E) (m.register a).hookIdHd.entries e
        exact ⟨WF.stub_of_core h1, h2, h3⟩
    have hcore : ((m.register a).mapEntries (m.modEntries E)
        (ModEntry.fnCachePrewarm E (m.register a).hookIdHd.entries)).core = (m.register a).core :=
      mapEntries_core fun e => ModEntry.fnCachePrewarm_core E _ e
    have hm : Moves E free m (((m.register a).mapEntries (m.modEntries E)
        (ModEntry.fnCachePrewarm E (m.register a).hookIdHd.entries)).setErr xyOk) L L := by
      refine ⟨fun x => ?_, le_rfl, hold, hfresh, fun _ p _ => face_of_core hcore p⟩
      exact .same rfl (h.wf.walk_congr rfl (fun _ => rfl) fun _ _ => rfl)
    exact ⟨⟨hw2.sameHeap (setErr_sameHeap _ _), h.flat.move hm, hcells, hbits, hreg'.inj, h.undenied⟩, hm⟩

/-- A step keeps lists and cells in order, and the caches coherent while the generations last. -/
theorem step {s t : State} {e : Event} (h : ListsOk E free s.rt none L) (hi : Inv E s)
    (hst : Xylem.step E s e = .ok t) (hs : Spares E free e) : ∃ L', ListsOk E free t.rt none L' ∧
      (Coherent E free s.rt L → t.rt.genBumps + 1 < 2 ^ 64 → Coherent E free t.rt L') := by
  have once : ∀ {m : Runtime}, ListsOk E free m none L ∧ Moves E free s.rt m L L →
      ∃ L', ListsOk E free m none L' ∧
        (Coherent E free s.rt L → m.genBumps + 1 < 2 ^ 64 → Coherent E free m L') :=
    fun hm => ⟨L, hm.1, fun hc hlim => hc.move h.wf hm.2 hlim⟩
  rcases step_rules hi hst with ⟨a, rfl⟩ | ⟨g, hp⟩ | ⟨what, type, rfl⟩ | ⟨fn, ud, rfl⟩
  · cases hst
    exact once (h.areg hi.registry a)
  · exact hp.caches h
  · cases hst
    exact once (h.deny hi.current.id hs)
  · cases hst
    exact once (h.requireClaim fn ud hi.current.id)

end ListsOk

section Runs
variable {E : Env} {free : String → Prop} {s₀ s t : State} {e : Event} {tr : List (State × Event)}

theorem step_bumps (hi : Inv E s) (h : step E s e = .ok t) : s.rt.genBumps ≤ t.rt.genBumps := by
  rcases step_rules hi h with ⟨a, rfl⟩ | ⟨g, hp⟩ | ⟨what, type, rfl⟩ | ⟨fn, ud, rfl⟩
  · cases h
    rcases xyAreg_cases E s.rt a with ⟨err, he⟩ | ⟨-, he⟩
    all_goals
      rw [State.back, he]
      exact le_rfl
  · obtain ⟨L, hw⟩ := hi.wf
    exact hp.bumps_le hw
  · cases h
    obtain ⟨r, hr⟩ := Option.isSome_iff_exists.mp hi.current.id
    obtain ⟨R, hR, -⟩ := xyDeny_rules E s.rt what type hr
    rw [State.back, hR]
    exact Nat.le_succ _
  · cases h
    obtain ⟨r, hr⟩ := Option.isSome_iff_exists.mp hi.current.id
    obtain ⟨-, R, hR, -⟩ := xyRequireClaim_rules s.rt fn ud hr
    rw [State.back, hR]

/-- After `xy_init` there is the root with nothing in it, and it is due for no rebuild. -/
theorem boot_caches (h : Boot s) :
    ListsOk E free s.rt none (fun _ => []) ∧ Coherent E free s.rt fun _ => [] := by
  have hregion : ∀ r, s.rt.regions r = {} := by
    intro r
    rcases Nat.eq_zero_or_pos r with rfl | hr
    · exact h.root
    · exact h.fresh r hr
  have hvec : ∀ r, s.rt.vec r = ⟨[], false, 1, fun _ => {}⟩ := fun r => by rw [vec, hregion]
  have hwf : WF s.rt none fun _ => [] := by
    obtain ⟨L, hw⟩ := (Inv.boot (E := E) h).wf
    obtain rfl : L = fun _ => [] := by
      funext r
      refine List.eq_nil_iff_forall_not_mem.mpr fun p hp => ?_
      obtain ⟨-, e, he, -⟩ := hw.member r p hp
      rw [h.entries] at he
      cases he
    exact hw
  have hentry : ∀ {P : Prop} {p e}, s.rt.entries p = some e → P := by
    intro P p e he
    rw [h.entries] at he
    cases he
  have hflat : Flat s.rt fun _ => [] := by
    refine ⟨fun r _ => ?_, fun r i => ?_, fun r i slot hslot => ?_⟩
    · rw [hvec, hwf.walk_nil fun _ _ => rfl]
    · rw [hvec]
      exact Nat.zero_le _
    · rw [hvec] at hslot
      cases hslot
  refine ⟨⟨hwf, hflat, fun p e he => hentry he, fun p e he => hentry he, h.registry.inj,
    fun path _ a => ?_⟩, fun r => ?_, fun r => ?_, fun r i => ?_, fun r i _ => ?_, fun r i _ => ?_,
    fun r i name _ hcur => ?_⟩
  · unfold moduleIsDenied
    rw [hregion]
    simp
  · rw [hvec]
    decide
  · rw [hvec]
    exact Nat.succ_le_succ (Nat.zero_le _)
  · rw [hvec]
    exact Nat.zero_le _
  · rw [hvec]
  · rw [hvec]
  · rw [hvec] at hcur
    have hzero : (0 : BitVec 64) = 1 := hcur
    exact absurd hzero (by decide)

/-- Lists and cells are in order in every state of every run, and the caches are coherent as
long as the generations last. Paths in `free` are those that no `xy_deny` of the run names. -/
theorem runs_lists (h : Runs E s₀ tr s) (hfree : ∀ x ∈ tr, Spares E free x.2) :
    ∃ L, ListsOk E free s.rt none L ∧ (s.rt.genBumps + 1 < 2 ^ 64 → Coherent E free s.rt L) := by
  have key : Inv E s ∧ ∃ L, ListsOk E free s.rt none L ∧
      (s.rt.genBumps + 1 < 2 ^ 64 → Coherent E free s.rt L) := by
    refine Run.Steps.invariant (C := fun _ e _ => Spares E free e)
      (P := fun u => Inv E u ∧ ∃ L, ListsOk E free u.rt none L ∧
        (u.rt.genBumps + 1 < 2 ^ 64 → Coherent E free u.rt L))
      (fun m e t hst hs hm => ⟨hm.1.step hst, ?_⟩) h.2 (fun x hx _ _ => hfree x hx)
      ⟨Inv.boot h.1, _, (boot_caches h.1).1, fun _ => (boot_caches h.1).2⟩
    obtain ⟨L, hL, hco⟩ := hm.2
    have hle := step_bumps hm.1 hst
    obtain ⟨L', hL', hstep⟩ := hL.step hm.1 hst hs
    exact ⟨L', hL', fun hlim => hstep (hco (by omega)) hlim⟩
  exact key.2

/-- In a run that has not run out of generations the caches are coherent. -/
theorem runs_caches (h : Runs E s₀ tr s) (hfree : ∀ x ∈ tr, Spares E free x.2)
    (hlim : s.rt.genBumps + 1 < 2 ^ 64) : ∃ L, CachesOk E free s.rt none L := by
  obtain ⟨L, hL, hco⟩ := runs_lists h hfree
  exact ⟨L, hL, hco hlim⟩

end Runs
end Xylem

import Xylem.Runs.Served
import Xylem.Runs.ModuleDenies

namespace Xylem

open Xylem.Runtime

namespace Runtime
variable {E : Env} {s t m : Runtime} {x : Transit} {L : RegionPtr → List EntryPtr}
  {r R : RegionPtr} {p : EntryPtr}

/-- The caches of `R` name `p`, in the flat list or in a slot that has ever been written. -/
def Cites (s : Runtime) (R : RegionPtr) (p : EntryPtr) : Prop :=
  p ∈ (s.vec R).subtreeMods ∨ ∃ i, ∃ slot ∈ ((s.vec R).hookDispatch i).slots, slot.me = p

/-- `p` is on a list at or below `R`. -/
def ListedBelow (s : Runtime) (L : RegionPtr → List EntryPtr) (R : RegionPtr) (p : EntryPtr) : Prop :=
  ∃ r, Forest.Anc s.tree.parentOf R r ∧ p ∈ L r

/-- `p` has been listed, and as long as it lives its region is at or below `R`. -/
structure Below (s : Runtime) (x : Transit) (R : RegionPtr) (p : EntryPtr) : Prop where
  made : p < s.entryNext
  listed : x ≠ .fresh p
  region : ∀ e, s.entries p = some e →
    ∃ r, s.regionHd e.regionId = some r ∧ Forest.Anc s.tree.parentOf R r

/-- What the caches name is below them. The entry that is being loaded is the newest. -/
structure CitesBelow (s : Runtime) (x : Transit) : Prop where
  newest : ∀ p, x = .fresh p → s.entryNext ≤ p + 1
  below : ∀ R p, s.Cites R p → s.Below x R p

theorem Below.of_listed (hw : WF s x.entry L) (h : s.ListedBelow L R p) : s.Below x R p := by
  obtain ⟨r, hanc, hp⟩ := h
  obtain ⟨hx, e, he, -, hreg⟩ := hw.member r p hp
  refine ⟨hw.lt_next he, ?_, fun e' he' => ?_⟩
  · rintro rfl
    exact hx rfl
  · cases he.symm.trans he'
    exact ⟨r, hreg, hanc⟩

/-! ### What the caches name -/

def SameCites (s t : Runtime) : Prop :=
  ∀ R, (t.vec R).subtreeMods = (s.vec R).subtreeMods ∧ (t.vec R).hookDispatch = (s.vec R).hookDispatch

theorem SameCites.of_vec (h : t.vec = s.vec) : SameCites s t := fun R => by rw [h]; exact ⟨rfl, rfl⟩

theorem SameCites.cites (h : SameCites s t) (hc : t.Cites R p) : s.Cites R p := by
  obtain ⟨h1, h2⟩ := h R
  unfold Cites at hc
  rwa [h1, h2] at hc

theorem SameCites.markDirty (hok : m.tree.Ok) (hv : m.vec = s.vec) (r : RegionPtr) :
    SameCites s (m.regionMarkSubtreeDirty r) := by
  intro R
  rw [markDirty_vec hok, hv]
  split <;> exact ⟨rfl, rfl⟩

theorem rebuildMods_cites (hw : WF s x.entry L) (h : s.regionRebuildSubtreeMods r = .ok t)
    (hc : t.Cites R p) : s.Cites R p ∨ s.ListedBelow L R p := by
  obtain ⟨l, hl, h⟩ := Res.bind_ok.mp h
  cases h
  have hlw : l = s.walk L r := hw.collect_eq hl
  unfold Cites vec at hc
  rw [regions_setRegion] at hc
  split at hc
  · rename_i hR
    subst hR
    rcases hc with hc | hc
    · exact .inr (hw.mem_walk (hlw ▸ hc))
    · exact .inl (.inr hc)
  · exact .inl hc

theorem ensureMods_cites (hw : WF s x.entry L) (h : s.regionEnsureSubtreeMods r = .ok t)
    (hc : t.Cites R p) : s.Cites R p ∨ s.ListedBelow L R p := by
  rcases regionEnsureSubtreeMods_cases h with ⟨-, h⟩ | ⟨-, rfl⟩
  · exact rebuildMods_cites hw h hc
  · exact .inl hc

theorem rebuildFold_names {i : Nat} {name : String} {anc : List RegionPtr} {l : List EntryPtr}
    {c d : HookDispatchCache} (h : l.foldlM (regionRebuildSlot E i name anc) (s, c) = .ok (t, d)) :
    ∀ slot ∈ d.slots, slot ∈ c.slots ∨ slot.me ∈ l := by
  induction l generalizing s c with
  | nil =>
      cases h
      exact fun slot hslot => .inl hslot
  | cons q l ih =>
      rw [List.foldlM_cons] at h
      obtain ⟨⟨n, c'⟩, hn, h⟩ := Res.bind_ok.mp h
      intro slot hslot
      rcases ih h slot hslot with hold | hl
      · obtain ⟨me, -, ⟨-, hacc⟩ | ⟨-, -, hacc⟩⟩ := regionRebuildSlot_cases hn
        · cases hacc
          exact .inl hold
        · obtain ⟨-, rfl⟩ := Prod.mk.inj hacc
          split at hold
          · obtain ⟨k, hk⟩ := List.mem_iff_getElem?.mp hold
            rcases push_slots hk with rfl | ⟨hc, -⟩
            · exact .inr List.mem_cons_self
            · exact .inl (List.mem_of_getElem? hc)
          · exact .inl hold
      · exact .inr (List.mem_cons_of_mem _ hl)

theorem rebuildVector_cites (hw : WF s x.entry L) {i : Nat} {name : String} {anc : List RegionPtr}
    (h : s.regionRebuildHookDispatch E r i name anc = .ok t) (hc : t.Cites R p) :
    s.Cites R p ∨ s.ListedBelow L R p := by
  obtain ⟨m, hm, hcase⟩ := regionRebuildHookDispatch_cases h
  refine ensureMods_cites hw hm ?_
  rcases hcase with ⟨-, rfl⟩ | ⟨-, n, cache, hf, rfl⟩
  · exact hc
  obtain ⟨entries, hn⟩ := (rebuildFold_resolved hf).rest
  have hregions : n.regions = m.regions := (congrArg Runtime.regions hn : _)
  unfold Cites vec at hc
  rw [regions_setRegion, hregions] at hc
  split at hc
  · rename_i hR
    subst hR
    rcases hc with hc | ⟨j, slot, hslot, rfl⟩
    · exact .inl hc
    · by_cases hj : j = i
      · subst hj
        simp only [Function.update_self] at hslot
        rcases rebuildFold_names hf slot hslot with hold | hl
        · exact .inr ⟨j, slot, hold, rfl⟩
        · exact .inl hl
      · simp only [Function.update_of_ne hj] at hslot
        exact .inr ⟨j, slot, hslot, rfl⟩
  · exact hc

end Runtime

namespace Prim
variable {E : Env} {g : RegionPtr → UInt8 → Prop} {s t : Runtime} {x y : Transit}
  {L : RegionPtr → List EntryPtr} {R : RegionPtr} {p : EntryPtr}

theorem cites (h : Prim E g (s, x) (t, y)) (hw : WF s x.entry L) (hc : t.Cites R p) :
    s.Cites R p ∨ s.ListedBelow L R p := by
  have same : SameCites s t → s.Cites R p ∨ s.ListedBelow L R p := fun hs => .inl (hs.cites hc)
  cases h with
  | scratch hs => exact same (.of_vec (by funext r; simp only [vec, hs.regions]))
  | removeDenies r path =>
      refine same (.of_vec ?_)
      unfold moduleRemoveDenies
      split
      · exact setRegion_vec fun _ => ⟨rfl, rfl, rfl, rfl⟩
      · rfl
  | @detach _ _ p hd =>
      obtain ⟨r, a, b, hab, -⟩ := hw.detach hd
      obtain ⟨m, hm, hrel, hmw⟩ := hw.moduleRegionDetach_spec hab
      cases hd.symm.trans hm
      exact same (.markDirty hmw.tree hrel.vec r)
  | @unlist _ _ p e he hu =>
      obtain ⟨r, hre, hreg, hp⟩ := hw.region_of he (by simp [Transit.entry])
      obtain ⟨a, b, hab⟩ := List.append_of_mem hp
      obtain ⟨m, hm, hrel, hmw⟩ := hw.regionUnlink_spec hab he
      simp only [modLoadUnlist, hre, Res.bind_ok, Except.ok.injEq] at hu
      obtain ⟨m', hm', rfl⟩ := hu
      cases hm'.symm.trans hm
      exact same (.markDirty hmw.tree hrel.vec r)
  | @insert _ _ _ p e r a hx he hr ha hi =>
      rw [hx] at hw
      obtain ⟨l, l', hl, rfl⟩ := hw.anchor_split ha hi
      obtain ⟨m, hm, hrel, hmw⟩ := hw.insertAfter_spec hl he hr
      cases hi.symm.trans hm
      exact same (.markDirty hmw.tree hrel.vec r)
  | claim hcl hg =>
      refine .inl ?_
      unfold Cites at hc
      rw [createChild_vec hw hcl] at hc
      split at hc
      · rcases hc with hc | ⟨i, slot, hslot, -⟩
        · cases hc
        · cases hslot
      · split at hc
        · exact hc
        · exact hc
  | rekey he hch hn =>
      rw [rekeyEntry_eq] at hc
      exact .inl hc
  | mods hm => exact rebuildMods_cites hw hm hc
  | vector hk hv => exact rebuildVector_cites hw hv hc
  | count | clear | prewarm | drop | publish | bind | state | freePath | enter => exact .inl hc

theorem newest (h : Prim E g (s, x) (t, y)) (hx : ∀ p, x = .fresh p → s.entryNext ≤ p + 1) :
    ∀ p, y = .fresh p → t.entryNext ≤ p + 1 := by
  have of_core : ∀ {m : Runtime}, m.core = s.core → m.entryNext = s.entryNext := fun hc =>
    congrArg Core.entryNext hc
  cases h with
  | scratch hs => exact fun p hp => hs.entryNext.trans_le (hx p hp)
  | removeDenies r path =>
      intro p hp
      unfold moduleRemoveDenies
      split <;> exact hx p hp
  | detach | unlist | insert | drop => exact fun p hp => by cases hp
  | publish =>
      intro p hp
      cases hp
      exact le_rfl
  | claim hc hg =>
      obtain ⟨regions, heq⟩ := regionCreateChild_eq s _ _ _
      rw [heq]
      exact hx
  | rekey he hc hn =>
      rw [rekeyEntry_eq]
      exact hx
  | mods hm => exact fun p hp => (of_core (regionRebuildSubtreeMods_core hm)).trans_le (hx p hp)
  | vector hk hv => exact fun p hp => (of_core (regionRebuildHookDispatch_core hv)).trans_le (hx p hp)
  | count | clear | prewarm | bind | state | freePath | enter => exact hx

theorem anc_kept (h : Prim E g (s, x) (t, y)) (hok : s.tree.Ok) {r : RegionPtr}
    (hr : r < s.regionNext) (ha : Forest.Anc s.tree.parentOf R r) :
    Forest.Anc t.tree.parentOf R r := by
  rcases h.tree with ht | ⟨r', path, ht⟩ | ⟨r', bits, k, -, hc, ht⟩
  · rw [ht]
    exact ha
  · have hp : (s.tree.removeDenies r' path).parentOf = s.tree.parentOf :=
      funext fun y => (Tree.removeDenies_node s.tree r' y path).1
    rw [ht, hp]
    exact ha
  · rw [ht]
    exact (hok.claim_anc hc.region _ _ hr.ne).mpr ha

theorem below (h : Prim E g (s, x) (t, y)) (hok : s.tree.Ok)
    (hx : ∀ q, x = .fresh q → s.entryNext ≤ q + 1) (hb : s.Below x R p) : t.Below y R p := by
  have hnew : ∀ q, x = .fresh q → p + 1 ≤ q := by
    intro q hq
    have hle : s.entryNext ≤ q + 1 := hx q hq
    have hne : q ≠ p := fun hc => hb.listed (hc ▸ hq)
    exact Nat.lt_of_le_of_ne (Nat.le_of_lt_succ (hb.made.trans_le hle)) hne.symm
  obtain ⟨hnext, hfresh, hold⟩ := h.old hb.made hnew
  refine ⟨hnext, fun hy => Nat.not_succ_le_self p (hfresh p hy), fun e' he' => ?_⟩
  obtain ⟨e, he, hid⟩ := hold p (Nat.lt_succ_self p) e' he'
  have hreg : e'.regionId = e.regionId := (congrArg ModEntry.regionId hid : _)
  obtain ⟨r, hr, hanc⟩ := hb.region e he
  exact ⟨r, hreg ▸ h.regionHd hr, h.anc_kept hok (hok.hd_node _ _ hr).1 hanc⟩

theorem citesBelow (h : Prim E g (s, x) (t, y)) (hw : WF s x.entry L) (hb : s.CitesBelow x) :
    t.CitesBelow y := by
  refine ⟨h.newest hb.newest, fun R p hc => h.below hw.tree hb.newest ?_⟩
  rcases h.cites hw hc with hold | hl
  · exact hb.below R p hold
  · exact .of_listed hw hl

end Prim

theorem Prims.citesBelow {E : Env} {g : RegionPtr → UInt8 → Prop} {s t : Runtime}
    {L : RegionPtr → List EntryPtr} (h : Prims E g (s, .none) (t, .none)) (hw : WF s none L)
    (hb : s.CitesBelow .none) : t.CitesBelow .none := by
  have key : ∀ b, Prims E g (s, .none) b →
      (∃ L', WF b.1 b.2.entry L') ∧ b.1.CitesBelow b.2 := by
    intro b hb'
    induction hb' with
    | refl => exact ⟨⟨L, hw⟩, hb⟩
    | tail _ hp ih =>
        obtain ⟨⟨L1, hw1⟩, hb1⟩ := ih
        exact ⟨hw1.prim hp, hp.citesBelow hw1 hb1⟩
  exact (key _ h).2

section Steps
variable {E : Env} {s₀ s t : State} {e : Event} {tr : List (State × Event)}

theorem citesBelow_same {s t : Runtime} (hb : s.CitesBelow .none) (hc : SameCites s t)
    (hp : ∀ n ≤ s.entryNext, n ≤ t.entryNext ∧ OldKept n s t)
    (hhd : ∀ id r, s.regionHd id = some r → t.regionHd id = some r ∧
      ∀ R, Forest.Anc s.tree.parentOf R r → Forest.Anc t.tree.parentOf R r) :
    t.CitesBelow .none := by
  refine ⟨fun p hp => (by cases hp), fun R p hcite => ?_⟩
  have hold := hb.below R p (hc.cites hcite)
  obtain ⟨hnext, hkept⟩ := hp _ hold.made
  refine ⟨hnext, fun hy => (by cases hy), fun e' he' => ?_⟩
  obtain ⟨e, he, hid⟩ := hkept p (Nat.lt_succ_self p) e' he'
  have hreg : e'.regionId = e.regionId := (congrArg ModEntry.regionId hid : _)
  obtain ⟨r, hr, hanc⟩ := hold.region e he
  obtain ⟨hr', hanc'⟩ := hhd _ _ hr
  exact ⟨r, hreg ▸ hr', hanc' R hanc⟩

/-- A step is made of elementary operations, or leaves the caches and the old entries alone. -/
theorem step_sameCites (hi : Inv E s) (h : step E s e = .ok t) :
    (∃ g, Prims E g (s.rt, .none) (t.rt, .none)) ∨ SameCites s.rt t.rt ∧
      ∀ n ≤ s.rt.entryNext, n ≤ t.rt.entryNext ∧ OldKept n s.rt t.rt := by
  rcases step_prims hi h with ⟨a, rfl⟩ | ⟨g, hp⟩ | hs
  · cases h
    right
    rcases xyAreg_cases E s.rt a with ⟨err, ha⟩ | ⟨-, ha⟩
    · rw [State.back, ha]
      exact ⟨.of_vec rfl, fun n hn => ⟨hn, .refl n _⟩⟩
    · rw [State.back, ha]
      refine ⟨.of_vec rfl, fun n hn => ⟨hn, ?_⟩⟩
      have hc : ((s.rt.register a).mapEntries (s.rt.modEntries E)
          (ModEntry.fnCachePrewarm E (s.rt.register a).hookIdHd.entries)).core =
          (s.rt.register a).core := mapEntries_core (ModEntry.fnCachePrewarm_core E _)
      exact OldKept.of_core (s := s.rt.register a) hc
  · exact .inl ⟨g, hp⟩
  · refine .inr ⟨fun R => ?_, fun n hn => ⟨hs.entryNext ▸ hn, ?_⟩⟩
    · obtain ⟨node, gen, hx⟩ := hs.regions R
      unfold vec
      rw [hx]
      exact ⟨rfl, rfl⟩
    · exact fun q _ e' he' => ⟨e', hs.entries ▸ he', rfl⟩

theorem step_citesBelow (hi : Inv E s) (h : step E s e = .ok t) (hb : s.rt.CitesBelow .none) :
    t.rt.CitesBelow .none := by
  obtain ⟨L, hw⟩ := hi.wf
  have hhd : ∀ id r, s.rt.regionHd id = some r → t.rt.regionHd id = some r ∧
      ∀ R, Forest.Anc s.rt.tree.parentOf R r → Forest.Anc t.rt.tree.parentOf R r := fun id r hr =>
    ⟨step_regionHd hi h hr, fun R => (step_anc hi h (hw.tree.hd_node _ _ hr).1).mpr⟩
  rcases step_sameCites hi h with ⟨g, hp⟩ | ⟨hsame, hold⟩
  · exact hp.citesBelow hw hb
  · exact citesBelow_same hb hsame hold hhd

theorem runs_citesBelow (h : Runs E s₀ tr s) : s.rt.CitesBelow .none := by
  have key : Inv E s ∧ s.rt.CitesBelow .none := by
    refine Run.Steps.invariant (C := fun _ _ _ => True) (P := fun u => Inv E u ∧ u.rt.CitesBelow .none)
      (fun m e t hst _ hm => ⟨hm.1.step hst, step_citesBelow hm.1 hst hm.2⟩) h.2
      (fun _ _ _ _ => trivial) ⟨Inv.boot h.1, fun p hp => (by cases hp), fun R p hc => ?_⟩
    have hregion : s₀.rt.regions R = {} := by
      rcases Nat.eq_zero_or_pos R with rfl | hR
      · exact h.1.root
      · exact h.1.fresh R hR
    unfold Cites vec at hc
    rw [hregion] at hc
    rcases hc with hc | ⟨i, slot, hslot, -⟩
    · cases hc
    · cases hslot
  exact key.2

/-- A call that comes to a callback names its module in the vector it goes through. -/
theorem callLoop_into {m n : Runtime} {left : Nat} {f g : CallFrame}
    (h : m.callLoop left f = .ok (n, .inr g)) :
    g.callerRegion = f.callerRegion ∧ n.Cites g.callerRegion g.me ∧ ∃ me, n.entries g.me = some me := by
  generalize hr : (Sum.inr g : Int ⊕ CallFrame) = r at h
  cases callLoop_way h with
  | ends hskip => cases hr
  | enters k slot me c fn hk hk' hskip htaken =>
      cases hr
      refine ⟨rfl, .inr ⟨f.hookId, slot, ?_, rfl⟩, me, ?_⟩
      · unfold vec
        rw [callEnter_regions]
        exact List.mem_of_getElem? htaken.cell
      · rw [callEnter_entries]
        exact htaken.entry

/-- Where a body that has just been entered stands: its call began from its caller's region,
in this step or in one that its frame has kept. -/
theorem entering_cited {f : CallFrame} (h : step E s e = .ok t) (hf : t.entering = some f) :
    t.rt.Cites f.callerRegion f.me ∧ (∃ me, t.rt.entries f.me = some me) ∧
      ((∃ retp reg, e = .call retp reg ∧ s.rt.callerRegion = some f.callerRegion) ∨
        ∃ result g rest, e = .bodyRet result ∧ s.stack = .body g :: rest ∧
          g.callerRegion = f.callerRegion) := by
  obtain ⟨hst, stack, hstack⟩ := State.entering_iff.mp hf
  rcases step_entered h hst with ⟨retp, reg, rfl⟩ | ⟨result, rfl⟩ | ⟨g, hg⟩ | ⟨id, r, hg⟩
  · obtain ⟨⟨n, r⟩, hr, rfl⟩ := Res.map_ok.mp h
    obtain rfl := entering_afterCall hf
    cases reg with
    | none => cases hr
    | some reg =>
        rcases xyCall_loop hr with ⟨⟨ret, hret⟩, -⟩ | ⟨R, i, m, f', hgo, -, hloop, hR, -⟩
        · cases hret
        · obtain ⟨hc, hcite, hme⟩ := callLoop_into hloop
          exact ⟨hcite, hme, .inl ⟨retp, some reg, rfl, by rw [hc, hR]; exact hgo.region⟩⟩
  · simp only [step] at h
    split at h
    · rename_i g rest hs
      obtain ⟨⟨n, r⟩, hr, rfl⟩ := Res.map_ok.mp h
      obtain rfl := entering_afterCall hf
      obtain ⟨hc, hcite, hme⟩ := callLoop_into (bodyReturn_ok hr)
      exact ⟨hcite, hme, .inr ⟨result, g, rest, rfl, hs, hc.symm⟩⟩
    · cases h
  · cases hstack.symm.trans hg
  · cases hstack.symm.trans hg

/-- In every state the caches name modules at or below their region. Whenever a step enters a
hook body, the body's module is loaded and its region is at or below the region that the call
was made from. -/
theorem bodies_run_below (h : Runs E s₀ tr s) (hs : step E s e = .ok t) {f : CallFrame}
    (hf : t.entering = some f) :
    s.rt.CitesBelow .none ∧ (∃ me r, t.rt.entries f.me = some me ∧ t.rt.regionHd me.regionId = some r ∧
      Forest.Anc t.rt.parentOf f.callerRegion r) ∧
      ((∃ retp reg, e = .call retp reg ∧ s.rt.callerRegion = some f.callerRegion) ∨
        ∃ result g rest, e = .bodyRet result ∧ s.stack = .body g :: rest ∧
          g.callerRegion = f.callerRegion) := by
  obtain ⟨hcite, ⟨me, hme⟩, hfrom⟩ := entering_cited hs hf
  have hb := runs_citesBelow (show Runs E s₀ (tr ++ [(s, e)]) t from ⟨h.1, .snoc h.2 hs⟩)
  obtain ⟨r, hr, hanc⟩ := (hb.below _ _ hcite).region me hme
  exact ⟨runs_citesBelow h, ⟨me, r, hme, hr, hanc⟩, hfrom⟩

/-- A call from the root, between the body of `p` there and that of `m` in a child region. -/
def betweenBodies : List Event :=
  [.areg 0, .load "p" { addr := 1 }, .installRet, .requireClaim (some 0) 0,
    .load "m" { addr := 2, granted := 1 }, .installRet, .call none (some 0)]

theorem bodies_run_below_child : ∃ s t f, Run.exec (step sampleEnv) sampleState betweenBodies = .ok s ∧
    step sampleEnv s (.bodyRet [0]) = .ok t ∧ t.entering = some f ∧ f.callerRegion = 0 ∧
    ∃ me r, t.rt.entries f.me = some me ∧ t.rt.regionHd me.regionId = some r ∧
      Forest.Anc t.rt.parentOf f.callerRegion r := by
  obtain ⟨s, hs, hobs⟩ := sample_check betweenBodies (fun s =>
    decide (((step sampleEnv s (.bodyRet [0])).toOption.bind State.entering).map
      (·.callerRegion) = some 0))
    (by decide)
  obtain ⟨f, hf, hcaller⟩ := Option.map_eq_some_iff.mp (of_decide_eq_true hobs)
  obtain ⟨t, ht, hf⟩ := Option.bind_eq_some_iff.mp hf
  have ht : step sampleEnv s (.bodyRet [0]) = .ok t := toOption_some ht
  exact ⟨s, t, f, hs, ht, hf, hcaller, (bodies_run_below (sample_runs hs) ht hf).2.1⟩

end Steps
end Xylem

import Xylem.Runs.ClearSlots
import Xylem.Runs.Coherent

namespace Xylem

open Xylem.Runtime

namespace Runtime
variable {E : Env} {s t : Runtime} {p : EntryPtr} {r : RegionPtr}

/-! ### Faces and generations -/

theorem face_of_core (h : t.core = s.core) (p : EntryPtr) : t.face p = s.face p := by
  have hp := congrFun (congrArg Core.entries h) p
  simp only [core] at hp
  unfold face
  cases hs : s.entries p with
  | none =>
      rw [hs] at hp
      rw [Option.map_eq_none_iff.mp hp]
  | some e =>
      rw [hs] at hp
      obtain ⟨e', he', hc⟩ := Option.map_eq_some_iff.mp hp
      have h1 : e'.ctx = e.ctx := (congrArg ModEntry.ctx hc : _)
      have h2 : e'.handle = e.handle := (congrArg ModEntry.handle hc : _)
      have h3 : e'.loadPath = e.loadPath := (congrArg ModEntry.loadPath hc : _)
      rw [he', Option.map_some, Option.map_some, h1, h2, h3]

theorem face_setEntry {e e' : ModEntry} (he : s.entries p = some e) (h1 : e'.ctx = e.ctx)
    (h2 : e'.handle = e.handle) (h3 : e'.loadPath = e.loadPath) (q : EntryPtr) :
    (s.setEntry p (some e')).face q = s.face q := by
  unfold face
  by_cases hq : q = p
  · subst hq
    simp [setEntry, he, h1, h2, h3]
  · simp [setEntry, hq]

theorem face_of_entries (h : t.entries q = s.entries q) : t.face q = s.face q := by
  unfold face
  rw [h]

theorem store_bumps {f : ModEntry → ModEntry} (h : s.store p f = .ok t) :
    t.genBumps = s.genBumps := by
  obtain ⟨e, -, rfl⟩ := store_ok.mp h
  rfl

theorem linkNext_bumps {q v : Option EntryPtr} (h : s.linkNext r q v = .ok t) :
    t.genBumps = s.genBumps := by
  cases q with
  | some q => exact store_bumps h
  | none =>
      cases h
      rfl

theorem linkPrev_bumps {q v : Option EntryPtr} (h : s.linkPrev r q v = .ok t) :
    t.genBumps = s.genBumps := by
  cases q with
  | some q => exact store_bumps h
  | none =>
      cases h
      rfl

theorem regionUnlink_bumps {e : ModEntry} (h : s.regionUnlink r e = .ok t) :
    t.genBumps = s.genBumps := by
  obtain ⟨m, h1, h2⟩ := Res.bind_ok.mp h
  exact (linkPrev_bumps h2).trans (linkNext_bumps h1)

theorem markDirty_bumps (s : Runtime) (r : RegionPtr) :
    (s.regionMarkSubtreeDirty r).genBumps = s.genBumps + 1 := by
  obtain ⟨regions, h⟩ := regionMarkSubtreeDirty_eq s r
  rw [h]

theorem moduleRegionInsertAfter_bumps {a : Option EntryPtr}
    (h : s.moduleRegionInsertAfter r p a = .ok t) : t.genBumps = s.genBumps + 1 := by
  obtain ⟨m, h1, h⟩ := Res.bind_ok.mp h
  rw [← store_bumps h1]
  cases a with
  | none =>
      obtain ⟨n, h2, h⟩ := Res.bind_ok.mp h
      obtain ⟨o, h3, h⟩ := Res.bind_ok.mp h
      cases h
      rw [markDirty_bumps]
      exact congrArg (· + 1) ((linkPrev_bumps h3).trans (store_bumps h2))
  | some a =>
      obtain ⟨e, -, h⟩ := Res.bind_ok.mp h
      obtain ⟨n, h2, h⟩ := Res.bind_ok.mp h
      obtain ⟨o, h3, h⟩ := Res.bind_ok.mp h
      obtain ⟨u, h4, h⟩ := Res.bind_ok.mp h
      cases h
      rw [markDirty_bumps, store_bumps h4, linkPrev_bumps h3, store_bumps h2]

theorem moduleRegionDetach_bumps {m : Runtime}
    (h : s.moduleRegionDetach p = .ok (m.regionMarkSubtreeDirty r))
    (hlisted : ∃ e, s.entries p = some e ∧ e.regionEntry ≠ none) :
    (m.regionMarkSubtreeDirty r).genBumps = s.genBumps + 1 := by
  obtain ⟨e, he, hre⟩ := hlisted
  obtain ⟨e', he', h⟩ := Res.bind_ok.mp h
  cases he.symm.trans (deref_ok.mp he')
  obtain ⟨r', hr'⟩ := Option.ne_none_iff_exists'.mp hre
  simp only [hr', Res.bind_ok, Except.ok.injEq] at h
  obtain ⟨n, h1, o, h2, h⟩ := h
  rw [← h, markDirty_bumps, store_bumps h2, regionUnlink_bumps h1]

theorem ensureMods_bumps (h : s.regionEnsureSubtreeMods r = .ok t) : t.genBumps = s.genBumps := by
  rcases regionEnsureSubtreeMods_cases h with ⟨-, hm⟩ | ⟨-, rfl⟩
  · obtain ⟨l, -, hm⟩ := Res.bind_ok.mp hm
    cases hm
    rfl
  · rfl

theorem rebuildVector_bumps {i : Nat} {name : String} {anc : List RegionPtr}
    (h : s.regionRebuildHookDispatch E r i name anc = .ok t) : t.genBumps = s.genBumps := by
  obtain ⟨m, hm, hcase⟩ := regionRebuildHookDispatch_cases h
  have hms := ensureMods_bumps hm
  rcases hcase with ⟨-, rfl⟩ | ⟨-, u, cache, hf, rfl⟩
  · exact hms
  · obtain ⟨entries, hu⟩ := (rebuildFold_resolved hf).rest
    have hum := congrArg Runtime.genBumps hu
    exact hum.trans hms

theorem callVector_bumps {i : Nat} {name : String} (h : s.callVector E r i name = .ok t) :
    t.genBumps = s.genBumps := by
  obtain ⟨m, hm, h⟩ := Res.bind_ok.mp h
  split at h
  · exact (rebuildVector_bumps h).trans (ensureMods_bumps hm)
  · cases h
    exact ensureMods_bumps hm

/-- Marking dirty bumps the vectors from `r` to the root, and touches no other. -/
theorem markDirty_vec (h : s.tree.Ok) (r x : RegionPtr) :
    (s.regionMarkSubtreeDirty r).vec x =
      if x ∈ s.upward r then bumpVec (s.vec x) true else s.vec x := by
  rw [regionMarkSubtreeDirty_regions h]
  unfold vec bumpVec
  simp only
  split <;> simp

/-- A new region starts with empty caches, and everything above it is marked. -/
theorem createChild_vec {z : Option EntryPtr} {L : RegionPtr → List EntryPtr} (hw : WF s z L)
    {bits : UInt8} {k : Nat} (hc : s.tree.Claims r bits k) (x : RegionPtr) :
    (s.regionCreateChild r (s.tree.slotId r bits k) bits).vec x =
      if x = s.regionNext then ⟨[], false, 1, fun _ => {}⟩
      else if x ∈ s.upward r then bumpVec (s.vec x) true else s.vec x := by
  have hr : r < s.regionNext := hc.region
  have htree := regionCreateChild_tree s r (s.tree.slotId r bits k) bits
  have hok := (hw.createChild hc).tree
  generalize s.tree.slotId r bits k = id at *
  -- the caches of the state in which the child is wired in and nothing is marked yet
  unfold regionCreateChild at hok htree ⊢
  simp only at hok htree ⊢
  generalize hm : setRegion _ r _ = m at hok htree ⊢
  have hcore := core_tree (regionMarkSubtreeDirty_core m r)
  have hmok : m.tree.Ok := hcore ▸ hok
  have hmtree : m.tree = s.tree.claim r id bits := hcore.symm.trans htree
  rw [markDirty_vec hmok]
  have hup : x ∈ m.upward r ↔ Forest.Anc s.tree.parentOf x r := by
    rw [upward_tree, hmok.mem_upward (by rw [hmtree]; exact Nat.lt_succ_of_lt hr), hmtree,
      hw.tree.claim_anc hr id bits hr.ne]
  have hup' : x ∈ s.upward r ↔ Forest.Anc s.tree.parentOf x r := hw.tree.mem_upward hr
  have hmv : m.vec x = if x = s.regionNext then ⟨[], false, 1, fun _ => {}⟩ else s.vec x := by
    rw [← hm]
    unfold vec
    rw [regions_setRegion]
    by_cases hxr : x = r
    · rw [if_pos hxr, if_neg (hxr ▸ hr.ne), hxr]
      simp only [Function.update_of_ne hr.ne]
    · rw [if_neg hxr]
      by_cases hxn : x = s.regionNext
      · rw [if_pos hxn]
        simp only [hxn, Function.update_self]
      · rw [if_neg hxn]
        simp only [Function.update_of_ne hxn]
  by_cases hxn : x = s.regionNext
  · have hno : x ∉ m.upward r := by
      rw [hup]
      intro ha
      exact absurd (ha.rank_le hw.tree.ranked) (hxn ▸ hr).not_ge
    rw [if_neg hno, hmv, if_pos hxn, if_pos hxn]
  · rw [hmv, if_neg hxn, if_neg hxn]
    by_cases ha : Forest.Anc s.tree.parentOf x r
    · rw [if_pos (hup.mpr ha), if_pos (hup'.mpr ha)]
    · rw [if_neg (mt hup.mp ha), if_neg (mt hup'.mp ha)]

end Runtime

namespace Runtime.Moves
variable {E : Env} {free : String → Prop} {s t m : Runtime} {z : Option EntryPtr}
  {L L' : RegionPtr → List EntryPtr} {r : RegionPtr}

/-! ### Kinds of changes -/

theorem keep (hw : WF s z L) (hv : t.vec = s.vec) (hg : t.genBumps = s.genBumps)
    (hn : t.regionNext = s.regionNext) (hc : ∀ y, (t.regions y).children = (s.regions y).children)
    (hh : t.hookIdHd = s.hookIdHd) (hface : ∀ r p, p ∈ L r → t.face p = s.face p) :
    Moves E free s t L L := by
  refine ⟨fun x => .same (congrFun hv x) ?_, hg.ge, fun _ _ hi => hh ▸ hi,
    fun _ _ hi => .inl (hh ▸ hi), hface⟩
  exact hw.walk_congr hn hc fun _ _ => rfl

/-- The list of `r` changes, and everything from there up is marked. -/
theorem relist (hw : WF s z L) (hr : r < s.regionNext) (hv : m.vec = s.vec) (ht : m.tree = s.tree)
    (hh : m.hookIdHd = s.hookIdHd) (hg : (m.regionMarkSubtreeDirty r).genBumps = s.genBumps + 1)
    (hL : ∀ y, y ≠ r → L' y = L y) (hface : ∀ p, (m.regionMarkSubtreeDirty r).face p = s.face p) :
    Moves E free s (m.regionMarkSubtreeDirty r) L L' := by
  have htree : (m.regionMarkSubtreeDirty r).tree = s.tree :=
    (core_tree (regionMarkSubtreeDirty_core m r)).trans ht
  have hup : m.upward r = s.upward r := by rw [upward_tree, upward_tree, ht]
  have hhooks : (m.regionMarkSubtreeDirty r).hookIdHd = s.hookIdHd :=
    (congrArg (fun c => c.hooks.hookIdHd) (regionMarkSubtreeDirty_core m r)).trans hh
  refine ⟨fun x => ?_, by omega, fun _ _ hi => hhooks ▸ hi, fun _ _ hi => .inl (hhooks ▸ hi),
    fun _ p _ => hface p⟩
  have hvec := markDirty_vec (ht ▸ hw.tree) r x
  rw [hup, hv] at hvec
  by_cases hx : x ∈ s.upward r
  · rw [if_pos hx] at hvec
    exact .bumped true hvec (by omega) (.inl rfl)
  · rw [if_neg hx] at hvec
    refine .same hvec (hw.walk_congr (congrArg Tree.next htree) (fun y => ?_) fun y hy => hL y ?_)
    · exact congrArg (fun T : Tree => (T.node y).children) htree
    · rintro rfl
      exact hx ((hw.tree.mem_upward hr).mpr hy)

theorem claim (hw : WF s z L) {bits : UInt8} {k : Nat} (hc : s.tree.Claims r bits k) :
    Moves E free s (s.regionCreateChild r (s.tree.slotId r bits k) bits) L L := by
  have hw' := hw.createChild hc
  have hr : r < s.regionNext := hc.region
  have htree := regionCreateChild_tree s r (s.tree.slotId r bits k) bits
  have hok := hw'.tree
  obtain ⟨regions, heq⟩ := regionCreateChild_eq s r (s.tree.slotId r bits k) bits
  have hvec := createChild_vec hw hc
  generalize s.tree.slotId r bits k = id at *
  have hnode := fun x => congrArg (fun T : Tree => T.node x) htree
  simp only [Tree.claim_node s.tree hr] at hnode
  have hbeyond : ∀ y, s.regionNext ≤ y → L y = [] := by
    intro y hy
    refine List.eq_nil_iff_forall_not_mem.mpr fun p hp => ?_
    obtain ⟨-, e, -, -, hd⟩ := hw.member y p hp
    exact absurd (hw.tree.hd_node _ _ hd).1 hy.not_gt
  have hg : (s.regionCreateChild r id bits).genBumps = s.genBumps + 1 := by rw [heq]
  have hn : (s.regionCreateChild r id bits).regionNext = s.regionNext + 1 := by rw [heq]
  have hents : (s.regionCreateChild r id bits).entries = s.entries := by rw [heq]
  have hhooks : (s.regionCreateChild r id bits).hookIdHd = s.hookIdHd := by rw [heq]
  refine ⟨fun x => ?_, by omega, fun _ _ hi => hhooks ▸ hi, fun _ _ hi => .inl (hhooks ▸ hi),
    fun _ p _ => face_of_entries (congrFun hents p)⟩
  have hx := hvec x
  by_cases hxn : x = s.regionNext
  · rw [if_pos hxn] at hx
    refine .fresh hx (hw'.walk_nil fun y hy => hbeyond y ?_)
    rw [← hxn]
    exact hy.rank_le hok.ranked
  · rw [if_neg hxn] at hx
    by_cases hup : x ∈ s.upward r
    · rw [if_pos hup] at hx
      exact .bumped true hx (by omega) (.inl rfl)
    · rw [if_neg hup] at hx
      refine .same hx ?_
      have hdesc : Forest.descend (fun y => ((s.regionCreateChild r id bits).regions y).children) L
          (s.regionNext + 1) x = Forest.descend (fun y => (s.regions y).children) L
            (s.regionNext + 1) x := by
        refine Forest.descend_congr hw.children_parent fun y hy => ⟨?_, rfl⟩
        have hyr : y ≠ r := by
          rintro rfl
          exact hup ((hw.tree.mem_upward hr).mpr hy)
        have hyn : y ≠ s.tree.next := by
          rintro rfl
          rcases hy.cases_parent with hy | ⟨q, hq, -⟩
          · exact hxn hy
          · exact absurd (hw.tree.region_lt _ _ hq) (Nat.lt_irrefl _)
        have hy' := hnode y
        rw [if_neg hyr, if_neg hyn] at hy'
        exact congrArg (fun n : RegionNode => n.children) hy'
      unfold walk
      rw [hn, hdesc]
      have hlt : s.regionNext - 1 - x < s.regionNext :=
        (Nat.sub_le _ x).trans_lt (Nat.sub_one_lt_of_lt hr)
      exact Forest.descend_levels (fun y => s.regionNext - 1 - y) hw.children_height
        (Nat.lt_succ_of_lt hlt) hlt

theorem fill (hw : WF s z L) (ht : s.regionRebuildSubtreeMods r = .ok t) :
    Moves E free s t L L := by
  obtain ⟨l, hl, ht⟩ := Res.bind_ok.mp ht
  have hlw : l = s.walk L r := hw.collect_eq hl
  have ht' := (Except.ok.inj ht).symm
  have hchildren : ∀ y, (t.regions y).children = (s.regions y).children := by
    intro y
    rw [ht', regions_setRegion]
    split
    · rename_i hy
      rw [hy]
    · rfl
  have hn : t.regionNext = s.regionNext := by rw [ht']; rfl
  have hwalk : ∀ x, t.walk L x = s.walk L x := fun x =>
    hw.walk_congr hn hchildren fun _ _ => rfl
  refine ⟨fun x => ?_, by rw [ht']; exact le_rfl, fun _ _ hi => by rw [ht']; exact hi,
    fun _ _ hi => .inl (by rw [ht'] at hi; exact hi), fun _ p _ => by rw [ht']; rfl⟩
  by_cases hx : x = r
  · subst hx
    refine .filled ?_ (hwalk x)
    rw [← hlw, ht']
    simp [vec, regions_setRegion]
  · refine .same ?_ (hwalk x)
    rw [ht']
    simp [vec, regions_setRegion, hx]

/-- Bringing the flat list of `r` up to date leaves the plain walk there. -/
theorem ensure (h : Flat s L) (hw : WF s z L) (ht : s.regionEnsureSubtreeMods r = .ok t) (x : RegionPtr) :
    t.vec x = if x = r then { s.vec r with subtreeMods := s.walk L r, subtreeModsDirty := false }
      else s.vec x := by
  rcases regionEnsureSubtreeMods_cases ht with ⟨-, ht⟩ | ⟨hd, rfl⟩
  · obtain ⟨l, hl, ht⟩ := Res.bind_ok.mp ht
    obtain rfl : l = s.walk L r := hw.collect_eq hl
    cases ht
    unfold vec
    rw [regions_setRegion]
    split <;> rfl
  · split
    · rename_i hx
      have hlist := h.list r hd
      have hd' : (t.vec r).subtreeModsDirty = false := hd
      rw [hx, ← hlist, ← hd']
    · rfl

theorem vectorOf_slots {i : Nat} {name : String} {anc : List RegionPtr} {l : List EntryPtr}
    (hinj : ∀ name', s.hookIdHd.lookup name' = some i → name' = name) (hcells : Cached E s)
    (hbits : Marked E s) (hfree : ∀ path, free path → ∀ a, s.moduleIsDenied a path = false) :
    VectorOf E free s l name (l.filterMap (s.slotOf E i name anc)) := by
  have hslot : ∀ {p slot}, s.slotOf E i name anc p = some slot → slot.me = p ∧
      ∃ path f, s.Exports E name p path f ∧ (slot.cb = .fn f ∨ slot.cb = .null) := by
    intro p slot h
    unfold slotOf at h
    obtain ⟨e, he, h⟩ := Option.bind_eq_some_iff.mp h
    split at h
    · cases h
    · rename_i hno
      obtain ⟨c, hc, rfl⟩ := Option.map_eq_some_iff.mp h
      obtain ⟨f, hf, hcb⟩ := slotCell_some hinj (hbits p e he) (hcells p e he i) hc
      obtain ⟨x, hx⟩ : ∃ x, e.ctx = some x := by
        refine Option.ne_none_iff_exists'.mp fun hn => hno ?_
        rw [hn]
        rfl
      exact ⟨rfl, e.loadPath, f, ⟨x, e.handle, by rw [face, he, Option.map_some, hx], hf⟩, hcb⟩
  constructor
  · induction l with
    | nil => exact List.Sublist.slnil
    | cons p l ih =>
        cases hp : s.slotOf E i name anc p with
        | none =>
            rw [List.filterMap_cons_none hp]
            exact ih.cons p
        | some slot =>
            rw [List.filterMap_cons_some hp, List.map_cons, (hslot hp).1]
            exact ih.cons_cons p
  · intro slot hmem
    obtain ⟨p, -, hp⟩ := List.mem_filterMap.mp hmem
    obtain ⟨rfl, h⟩ := hslot hp
    exact h
  · rintro p hp path f ⟨x, h, hface, hf⟩ hpath
    obtain ⟨e, he, hh⟩ := Option.map_eq_some_iff.mp hface
    obtain ⟨hx, hh1, hh2⟩ := Face.mk.inj hh
    rw [← hh1] at hf
    obtain ⟨c, hc⟩ := slotCell_isSome hinj (hbits p e he) (hcells p e he i) hf
    have hsome : s.slotOf E i name anc p = some ⟨p, c⟩ := by
      unfold slotOf
      rw [he, Option.bind_some, if_neg, hc, Option.map_some]
      rw [hx, hh2, Bool.not_eq_true, Bool.or_eq_false_iff]
      exact ⟨rfl, List.any_eq_false.mpr fun a _ => by rw [hfree path hpath a]; simp⟩
    exact List.mem_map.mpr ⟨⟨p, c⟩, List.mem_filterMap.mpr ⟨p, hp, hsome⟩, rfl⟩

theorem rebuild (h : Flat s L) (hw : WF s z L) {i : Nat} {name : String}
    (hi : s.hookIdHd.lookup name = some i)
    (hinj : ∀ name name' i, s.hookIdHd.lookup name = some i → s.hookIdHd.lookup name' = some i →
      name = name')
    (hcells : Cached E s) (hbits : Marked E s)
    (hfree : ∀ path, free path → ∀ a, s.moduleIsDenied a path = false)
    (ht : s.regionRebuildHookDispatch E r i name (s.callChain r) = .ok t) : Moves E free s t L L := by
  obtain ⟨m, hm, hcase⟩ := regionRebuildHookDispatch_cases ht
  have hmv := ensure h hw hm
  have hmw := hw.ensureMods hm
  obtain ⟨hents, hnodes⟩ := regionEnsureSubtreeMods_rest hm
  obtain ⟨ha, -, -, -⟩ := ensureMods_alike (E := E) hm
  have hbumps := ensureMods_bumps hm
  have hnext : m.regionNext = s.regionNext := ha.lists.next
  have hmwalk : ∀ x, m.walk L x = s.walk L x := fun x =>
    hw.walk_congr hnext ha.lists.children fun _ _ => rfl
  rcases hcase with ⟨-, rfl⟩ | ⟨-, u, cache, hf, rfl⟩
  · refine ⟨fun x => ?_, hbumps.ge, fun _ _ hk => ha.hooks ▸ hk, fun _ _ hk => .inl (ha.hooks ▸ hk),
      fun _ p _ => face_of_entries (congrFun hents p)⟩
    have hx := hmv x
    split at hx
    · rename_i hxr
      subst hxr
      exact .filled hx (hmwalk x)
    · exact .same hx (hmwalk x)
  obtain ⟨htouch, hcount, hslots⟩ :=
    rebuildFold_slots (c := { (m.regions r).hookDispatch i with count := 0 })
    (Nat.zero_le _) hf
  rw [List.take_zero, List.nil_append] at hslots
  obtain ⟨entries, hu⟩ := htouch.rest
  have hflat : (m.regions r).subtreeMods = s.walk L r := by
    have hr := congrArg Vec.subtreeMods (hmv r)
    rwa [if_pos rfl] at hr
  rw [hflat] at hslots
  generalize ht : (u.setRegion r fun re => { re with
    hookDispatch := Function.update re.hookDispatch i
      { cache with regionGen := (m.regions r).dispatchGen } }) = v
  have hregions : ∀ y, v.regions y = if y = r then { m.regions r with
      hookDispatch := Function.update (m.regions r).hookDispatch i
        { cache with regionGen := (m.regions r).dispatchGen } } else m.regions y := by
    intro y
    rw [← ht, regions_setRegion, hu]
  have hrest : v.regionNext = m.regionNext ∧ v.genBumps = m.genBumps ∧ v.hookIdHd = m.hookIdHd ∧
      v.entries = u.entries := by
    rw [← ht]
    refine ⟨?_, ?_, ?_, rfl⟩ <;> rw [hu] <;> rfl
  obtain ⟨hn, hg, hh, hve⟩ := hrest
  have hh : v.hookIdHd = s.hookIdHd := hh.trans ha.hooks
  have hface : ∀ p, v.face p = s.face p := by
    intro p
    rw [← face_of_entries (congrFun hents p)]
    rcases htouch.entries p with hp | ⟨me, hme, hp⟩
    · exact face_of_entries ((congrFun hve p).trans hp)
    · have hcore := (slotEntry_same (E := E) i name me).1
      have h1 : (slotEntry E i name me).ctx = me.ctx := (congrArg ModEntry.ctx hcore : _)
      have h2 : (slotEntry E i name me).handle = me.handle := (congrArg ModEntry.handle hcore : _)
      have h3 : (slotEntry E i name me).loadPath = me.loadPath := (congrArg ModEntry.loadPath hcore : _)
      unfold face
      rw [hve, hp, hme, Option.map_some, Option.map_some, h1, h2, h3]
  have hwalk : ∀ x, v.walk L x = s.walk L x := fun x =>
    (hmw.walk_congr hn (fun y => by rw [hregions]; split <;> simp [*]) fun _ _ => rfl).trans (hmwalk x)
  refine ⟨fun x => ?_, (hg.trans hbumps).ge, fun _ _ hk => hh ▸ hk, fun _ _ hk => .inl (hh ▸ hk),
    fun _ p _ => hface p⟩
  have hx := hmv x
  by_cases hxr : x = r
  · subst hxr
    rw [if_pos rfl] at hx
    have hgen : (m.regions x).dispatchGen = (s.vec x).dispatchGen := congrArg Vec.dispatchGen hx
    refine .built i name { cache with regionGen := (m.regions x).dispatchGen } hi ?_ (hwalk x) hgen
      hcount fun name' hk => ?_
    · have hvx : v.vec x = ⟨(m.vec x).subtreeMods, (m.vec x).subtreeModsDirty, (m.vec x).dispatchGen,
          Function.update (m.vec x).hookDispatch i
            { cache with regionGen := (m.regions x).dispatchGen }⟩ := by
        unfold vec
        rw [hregions, if_pos rfl]
      rw [hvx, hx]
    · obtain rfl : name' = name := hinj name' name i (hh ▸ hk) hi
      rw [hwalk x]
      refine VectorOf.congr (fun p _ => hface p) ?_
      show VectorOf E free s (s.walk L x) name' (cache.slots.take cache.count)
      have hslot : m.slotOf E i name' (s.callChain x) = s.slotOf E i name' (s.callChain x) :=
        funext fun p => slotOf_congr ha.nodes (congrFun hents p) i name' _
      rw [hslots, hslot]
      exact vectorOf_slots (fun name'' hk => hinj name'' _ i hk hi) hcells hbits hfree
  · rw [if_neg hxr] at hx
    exact .same (Eq.trans (by simp [vec, hregions, hxr]) hx) (hwalk x)

end Runtime.Moves

namespace Prim
variable {E : Env} {g : RegionPtr → UInt8 → Prop} {s t : Runtime} {x y : Transit}
  {L : RegionPtr → List EntryPtr}

theorem bumps (h : Prim E g (s, x) (t, y)) (hw : WF s x.entry L) : s.genBumps ≤ t.genBumps := by
  cases h with
  | scratch hs => exact hs.genBumps.ge
  | removeDenies r path =>
      unfold moduleRemoveDenies
      split <;> exact le_rfl
  | detach hd =>
      obtain ⟨e, he, hd⟩ := Res.bind_ok.mp hd
      split at hd
      · cases hd
        exact le_rfl
      · obtain ⟨m, h1, hd⟩ := Res.bind_ok.mp hd
        obtain ⟨n, h2, hd⟩ := Res.bind_ok.mp hd
        cases hd
        rw [markDirty_bumps, store_bumps h2, regionUnlink_bumps h1]
        exact Nat.le_succ _
  | unlist he hu =>
      unfold modLoadUnlist at hu
      split at hu
      · obtain ⟨m, h1, hu⟩ := Res.bind_ok.mp hu
        cases hu
        rw [markDirty_bumps, regionUnlink_bumps h1]
        exact Nat.le_succ _
      · cases hu
        exact le_rfl
  | insert hx he hr ha hi =>
      rw [moduleRegionInsertAfter_bumps hi]
      exact Nat.le_succ _
  | claim hc hg =>
      obtain ⟨regions, heq⟩ := regionCreateChild_eq s _ _ _
      rw [heq]
      exact Nat.le_succ _
  | rekey he hc hn =>
      rw [rekeyEntry_eq]
  | mods hm =>
      obtain ⟨l, -, hm⟩ := Res.bind_ok.mp hm
      cases hm
      exact le_rfl
  | vector hk hv => exact (rebuildVector_bumps hv).ge
  | count | clear | prewarm | drop | publish | bind | state | freePath | enter => exact le_rfl

end Prim

/-- Lists and cells, with what filling the caches relies on. -/
structure ListsOk (E : Env) (free : String → Prop) (s : Runtime) (z : Option EntryPtr)
    (L : RegionPtr → List EntryPtr) : Prop where
  wf : WF s z L
  flat : Flat s L
  cells : Cached E s
  bits : Marked E s
  inj : ∀ name name' i, s.hookIdHd.lookup name = some i → s.hookIdHd.lookup name' = some i →
    name = name'
  undenied : ∀ path, free path → ∀ a, s.moduleIsDenied a path = false

/-- The caches, as long as the generations have not wrapped. -/
structure CachesOk (E : Env) (free : String → Prop) (s : Runtime) (z : Option EntryPtr)
    (L : RegionPtr → List EntryPtr) : Prop extends ListsOk E free s z L where
  coherent : Coherent E free s L

namespace Prim
variable {E : Env} {g : RegionPtr → UInt8 → Prop} {free : String → Prop} {s t : Runtime}
  {x y : Transit} {L : RegionPtr → List EntryPtr}

theorem hooks (h : Prim E g (s, x) (t, y)) : t.hookIdHd = s.hookIdHd := by
  have of_core : ∀ {m : Runtime}, m.core = s.core → m.hookIdHd = s.hookIdHd := fun hc =>
    congrArg (fun c => c.hooks.hookIdHd) hc
  cases h with
  | scratch hs => exact hs.hookIdHd
  | removeDenies r path =>
      unfold moduleRemoveDenies
      split <;> rfl
  | detach hd => exact of_core (moduleRegionDetach_core hd)
  | unlist he hu => exact of_core (modLoadUnlist_core hu)
  | insert hx he hr ha hi =>
      obtain ⟨e, -, hcore⟩ := moduleRegionInsertAfter_core hi
      exact (congrArg (fun c => c.hooks.hookIdHd) hcore : _)
  | claim hcl hg =>
      obtain ⟨regions, heq⟩ := regionCreateChild_eq s _ _ _
      rw [heq]
  | rekey he hch hn => rw [rekeyEntry_eq]
  | mods hm => exact of_core (regionRebuildSubtreeMods_core hm)
  | vector hk hv => exact of_core (regionRebuildHookDispatch_core hv)
  | count | clear | prewarm | drop | publish | bind | state | freePath | enter => rfl

theorem moves (h : Prim E g (s, x) (t, y)) (hc : ListsOk E free s x.entry L) :
    ∃ L', WF t y.entry L' ∧ Moves E free s t L L' := by
  have hw := hc.wf
  cases h with
  | scratch hs =>
      exact ⟨L, hw.sameHeap hs, .keep hw (by funext r; simp only [vec, hs.regions]) hs.genBumps
        hs.regionNext (fun y => by rw [hs.regions]) hs.hookIdHd
        fun _ p _ => face_of_entries (congrFun hs.entries p)⟩
  | count he n =>
      exact ⟨L, hw.setEntry_same he rfl rfl rfl, .keep hw rfl rfl rfl (fun _ => rfl) rfl
        fun _ p _ => face_setEntry he (by rfl) (by rfl) (by rfl) p⟩
  | clear l base =>
      exact ⟨L, hw.mapEntries_same fun e => ⟨rfl, rfl, rfl⟩, .keep hw rfl rfl rfl
        (fun _ => rfl) rfl fun _ p _ => face_of_core (mapEntries_core (by intro e; rfl)) p⟩
  | @prewarm _ _ p e he =>
      obtain ⟨h1, h2, h3⟩ := fnCachePrewarm_same (E := E) s.hookIdHd.entries e
      exact ⟨L, hw.setEntry_same he (WF.stub_of_core h1) h2 h3, .keep hw rfl rfl rfl
        (fun _ => rfl) rfl fun _ p _ => face_of_core (setEntry_core_same he h1) p⟩
  | removeDenies r path =>
      refine ⟨L, hw.removeDenies r path, ?_⟩
      unfold moduleRemoveDenies
      split
      · refine .keep hw ?_ rfl rfl ?_ rfl fun _ _ _ => rfl
        · funext x
          simp only [vec, regions_setRegion]
          split <;> simp [*]
        · intro y
          rw [regions_setRegion]
          split <;> simp [*]
      · exact .keep hw rfl rfl rfl (fun _ => rfl) rfl fun _ _ _ => rfl
  | @detach _ _ p hd =>
      obtain ⟨r, a, b, hab, -⟩ := hw.detach hd
      obtain ⟨m, hm, hrel, hmw⟩ := hw.moduleRegionDetach_spec hab
      cases hd.symm.trans hm
      obtain ⟨-, e, he, hre, hreg⟩ := hw.member r p (by simp [hab])
      refine ⟨_, hmw.markDirty r, .relist hw (hw.tree.hd_node _ _ hreg).1 hrel.vec
        (core_tree hrel.core) (congrArg (fun c => c.hooks.hookIdHd) hrel.core)
        (moduleRegionDetach_bumps hd ⟨e, he, by simp [hre]⟩)
        (fun y hy => Function.update_of_ne hy _ _) fun q => ?_⟩
      exact (face_of_core (regionMarkSubtreeDirty_core m r) q).trans (face_of_core hrel.core q)
  | @unlist _ _ p e he hu =>
      obtain ⟨r, hre, hreg, hp⟩ := hw.region_of he (by simp [Transit.entry])
      obtain ⟨a, b, hab⟩ := List.append_of_mem hp
      obtain ⟨m, hm, hrel, hmw⟩ := hw.regionUnlink_spec hab he
      simp only [modLoadUnlist, hre, Res.bind_ok, Except.ok.injEq] at hu
      obtain ⟨m', hm', rfl⟩ := hu
      cases hm'.symm.trans hm
      refine ⟨_, hmw.markDirty r, .relist hw (hw.tree.hd_node _ _ hreg).1 hrel.vec
        (core_tree hrel.core) (congrArg (fun c => c.hooks.hookIdHd) hrel.core)
        ((markDirty_bumps m r).trans (congrArg (· + 1) (regionUnlink_bumps hm)))
        (fun y hy => Function.update_of_ne hy _ _) fun q => ?_⟩
      exact (face_of_core (regionMarkSubtreeDirty_core m r) q).trans (face_of_core hrel.core q)
  | @insert _ _ _ p e r a hx he hr ha hi =>
      rw [hx] at hw
      obtain ⟨l, l', hl, rfl⟩ := hw.anchor_split ha hi
      obtain ⟨m, hm, hrel, hmw⟩ := hw.insertAfter_spec hl he hr
      cases hi.symm.trans hm
      have hself : (s.setEntry p (some { e with regionEntry := some r })).tree = s.tree := rfl
      refine ⟨_, hmw.markDirty r, .relist hw (hw.tree.hd_node _ _ hr).1 hrel.vec
        ((core_tree hrel.core).trans hself) (congrArg (fun c => c.hooks.hookIdHd) hrel.core)
        (moduleRegionInsertAfter_bumps hi) (fun y hy => Function.update_of_ne hy _ _) fun q => ?_⟩
      exact ((face_of_core (regionMarkSubtreeDirty_core m r) q).trans (face_of_core hrel.core q)).trans
        (face_setEntry he (by rfl) (by rfl) (by rfl) q)
  | @drop _ _ p e hx he =>
      rw [hx] at hw
      refine ⟨L, hw.dropEntry he, .keep hw rfl rfl rfl (fun _ => rfl) rfl fun r q hq => ?_⟩
      have hqp : q ≠ p := fun hc => hw.not_listed r (hc ▸ hq)
      exact face_of_entries (Function.update_of_ne hqp _ _)
  | publish hk hr im tmp addr ha =>
      refine ⟨L, hw.publish hk hr im tmp addr ha, .keep hw rfl rfl rfl (fun _ => rfl) rfl
        fun r q hq => ?_⟩
      exact face_of_entries (Function.update_of_ne (hw.mem_lt hq).ne _ _)
  | @bind _ p e he c path =>
      refine ⟨L, (hw.setCtx c _).setEntry_same he rfl rfl rfl, .keep hw rfl rfl rfl
        (fun _ => rfl) rfl fun r q hq => ?_⟩
      have hqp : q ≠ p := fun hc => hw.not_listed r (hc ▸ hq)
      exact face_of_entries (Function.update_of_ne hqp _ _)
  | claim hcl hg => exact ⟨L, hw.createChild hcl, .claim hw hcl⟩
  | @rekey _ p e child he hch hn =>
      refine ⟨L, hw.rekeyEntry he hch hn, ?_⟩
      rw [rekeyEntry_eq]
      refine .keep hw rfl rfl rfl (fun _ => rfl) rfl fun r q hq => ?_
      have hqp : q ≠ p := fun hc => hw.not_listed r (hc ▸ hq)
      exact face_of_entries (Function.update_of_ne hqp _ _)
  | @state _ p e he =>
      have h1 : WF (s.setEntry p (some { e with regionState := some s.stateNext })) (some p) L :=
        hw.setEntry_same he rfl rfl rfl
      refine ⟨L, h1.congr h1.tree rfl rfl rfl (fun _ => rfl) (fun _ _ => rfl) (fun _ => rfl)
        (fun _ => rfl) fun _ _ => id, .keep hw rfl rfl rfl (fun _ => rfl) rfl fun r q hq => ?_⟩
      have hqp : q ≠ p := fun hc => hw.not_listed r (hc ▸ hq)
      exact face_of_entries (Function.update_of_ne hqp _ _)
  | freePath c => exact ⟨L, hw.setCtx c _, .keep hw rfl rfl rfl (fun _ => rfl) rfl fun _ _ _ => rfl⟩
  | mods hm => exact ⟨L, hw.rebuildMods hm, .fill hw hm⟩
  | vector hk hv =>
      exact ⟨L, hw.rebuildVector hv, .rebuild hc.flat hw hk hc.inj hc.cells hc.bits hc.undenied hv⟩
  | enter c a st => exact ⟨L, hw.setCtx c _, .keep hw rfl rfl rfl (fun _ => rfl) rfl fun _ _ _ => rfl⟩

theorem lists (h : Prim E g (s, x) (t, y)) (hc : ListsOk E free s x.entry L) :
    ∃ L', ListsOk E free t y.entry L' ∧ Moves E free s t L L' := by
  obtain ⟨L', hw, hm⟩ := h.moves hc
  refine ⟨L', ⟨hw, hc.flat.move hm, h.cached hc.cells, h.held hc.wf hc.bits, h.hooks ▸ hc.inj,
    fun path hp a => ?_⟩, hm⟩
  by_contra hd
  have hold := h.denies (moduleIsDenied_iff.mp (Bool.not_eq_false _ ▸ hd))
  rw [← moduleIsDenied_iff, hc.undenied path hp a] at hold
  cases hold

end Prim

theorem Prims.bumps_le {E : Env} {g : RegionPtr → UInt8 → Prop} {s t : Runtime}
    {L : RegionPtr → List EntryPtr} (h : Prims E g (s, .none) (t, .none)) (hw : WF s none L) :
    s.genBumps ≤ t.genBumps := by
  have key : ∀ b, Prims E g (s, .none) b → (∃ L', WF b.1 b.2.entry L') ∧ s.genBumps ≤ b.1.genBumps := by
    intro b hb
    induction hb with
    | refl => exact ⟨⟨L, hw⟩, le_rfl⟩
    | tail _ hp ih =>
        obtain ⟨⟨L1, hw1⟩, hle⟩ := ih
        exact ⟨hw1.prim hp, hle.trans (hp.bumps hw1)⟩
  exact (key _ h).2

/-- Elementary operations keep lists and cells in order, and the caches coherent while the
generations last. -/
theorem Prims.caches {E : Env} {g : RegionPtr → UInt8 → Prop} {free : String → Prop} {s t : Runtime}
    {L : RegionPtr → List EntryPtr} (h : Prims E g (s, .none) (t, .none))
    (hc : ListsOk E free s none L) : ∃ L', ListsOk E free t none L' ∧
      (Coherent E free s L → t.genBumps + 1 < 2 ^ 64 → Coherent E free t L') := by
  have key : ∀ b, Prims E g (s, .none) b → ∃ L', ListsOk E free b.1 b.2.entry L' ∧
      (Coherent E free s L → b.1.genBumps + 1 < 2 ^ 64 → Coherent E free b.1 L') := by
    intro b hb
    induction hb with
    | refl => exact ⟨L, hc, fun h _ => h⟩
    | tail _ hp ih =>
        obtain ⟨L1, h1, hco⟩ := ih
        have hle := hp.bumps h1.wf
        obtain ⟨L2, h2, hm⟩ := hp.lists h1
        exact ⟨L2, h2, fun h hlim => (hco h (by omega)).move h1.wf hm hlim⟩
  exact key _ h

end Xylem

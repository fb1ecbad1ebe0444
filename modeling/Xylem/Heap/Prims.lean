import Xylem.Heap.WF

namespace Xylem

namespace Runtime
variable {s t : Runtime} {E : Env}

/-- A pass over regions without repetition updates each of them once. -/
theorem foldl_setRegion_nodup (f : RegionEntry → RegionEntry) {l : List RegionPtr} (hl : l.Nodup)
    (s : Runtime) : l.foldl (fun s e => s.setRegion e f) s =
      { s with regions := fun x => if x ∈ l then f (s.regions x) else s.regions x } := by
  induction l generalizing s with
  | nil => simp
  | cons r l ih =>
      obtain ⟨hr, hl⟩ := List.nodup_cons.mp hl
      rw [List.foldl_cons, ih hl]
      simp only [setRegion]
      congr 1
      funext x
      by_cases hx : x = r
      · subst hx
        simp [hr]
      · simp [hx]

theorem regionDispatchGenBump_eq (h : s.tree.Ok) (r : RegionPtr) :
    s.regionDispatchGenBump r =
      { s with
        regions := fun x => if x ∈ s.upward r then
          { s.regions x with dispatchGen := genSucc (s.regions x).dispatchGen } else s.regions x
        genBumps := s.genBumps + 1 } := by
  rw [regionDispatchGenBump,
    foldl_setRegion_nodup (fun re => { re with dispatchGen := genSucc re.dispatchGen })]
  exact Forest.climb_nodup h.ranked _ _

/-- Marking dirty: the flag and a new generation from `r` up to the root. -/
theorem regionMarkSubtreeDirty_regions (h : s.tree.Ok) (r : RegionPtr) :
    s.regionMarkSubtreeDirty r =
      { s with
        regions := fun x => if x ∈ s.upward r then
          { s.regions x with
            dispatchGen := genSucc (s.regions x).dispatchGen, subtreeModsDirty := true }
          else s.regions x
        genBumps := s.genBumps + 1 } := by
  have hup : (s.regionDispatchGenBump r).upward r = s.upward r := by
    rw [upward_tree, upward_tree, core_tree (regionDispatchGenBump_core s r)]
  rw [regionMarkSubtreeDirty, hup,
    foldl_setRegion (fun re => { re with subtreeModsDirty := true }) fun _ => rfl,
    regionDispatchGenBump_eq h]
  congr 1
  funext x
  by_cases hx : x ∈ s.upward r <;> simp [hx]

end Runtime

namespace WF
variable {s t : Runtime} {x : Option EntryPtr} {L : RegionPtr → List EntryPtr} {E : Env}
open Xylem.Runtime

theorem markDirty (h : WF s x L) (r : RegionPtr) : WF (s.regionMarkSubtreeDirty r) x L := by
  refine h.congr_core (regionMarkSubtreeDirty_core s r) ?_ ?_ ?_
  · intro p _
    rw [regionMarkSubtreeDirty_regions h.tree]
    rfl
  · intro r'
    rw [regionMarkSubtreeDirty_regions h.tree]
    simp only
    split <;> rfl
  · intro r'
    rw [regionMarkSubtreeDirty_regions h.tree]
    simp only
    split <;> rfl

theorem setEntry_same {p : EntryPtr} {e e' : ModEntry} (h : WF s x L) (he : s.entries p = some e)
    (hst : e'.stub = e.stub) (hp : e'.regionPrev = e.regionPrev)
    (hn : e'.regionNext = e.regionNext) : WF (s.setEntry p (some e')) x L := by
  refine h.congr h.tree rfl rfl rfl ?_ ?_ (fun _ => rfl) (fun _ => rfl) fun _ _ => id
  · intro q
    by_cases hq : q = p
    · subst hq
      simp [setEntry, he, hst]
    · simp [setEntry, hq]
  · intro q _
    rw [links_setEntry]
    by_cases hq : q = p
    · subst hq
      simp [links, he, hp, hn]
    · simp [hq]

theorem mapEntries_same {l : List EntryPtr} {f : ModEntry → ModEntry} (h : WF s x L)
    (hf : ∀ e, (f e).stub = e.stub ∧ (f e).regionPrev = e.regionPrev ∧
      (f e).regionNext = e.regionNext) : WF (s.mapEntries l f) x L := by
  refine h.congr h.tree rfl rfl rfl ?_ ?_ (fun _ => rfl) (fun _ => rfl) fun _ _ => id
  · intro q
    simp only [mapEntries]
    split
    · cases s.entries q <;> simp [hf]
    · rfl
  · intro q _
    simp only [links, mapEntries]
    split
    · cases s.entries q <;> simp [hf]
    · rfl

theorem setRegions (h : WF s x L) (htree : t.tree.Ok) (hs : ∃ R hd n g,
      t = { s with regions := R, regionHd := hd, regionNext := n, genBumps := g })
    (hh : ∀ r, (t.regions r).modsHead = (s.regions r).modsHead)
    (ht : ∀ r, (t.regions r).modsTail = (s.regions r).modsTail)
    (hreg : ∀ id r, s.regionHd id = some r → t.regionHd id = some r) : WF t x L := by
  obtain ⟨R, hd, n, g, rfl⟩ := hs
  exact h.congr htree rfl rfl rfl (fun _ => rfl) (fun _ _ => rfl) hh ht hreg

theorem moduleRegionDetach_spec (h : WF s none L) {r : RegionPtr} {p : EntryPtr}
    {a b : List EntryPtr} (hr : L r = a ++ p :: b) :
    ∃ m, s.moduleRegionDetach p = .ok (m.regionMarkSubtreeDirty r) ∧ Relinked s m ∧
      WF m (some p) (Function.update L r (a ++ b)) := by
  obtain ⟨-, e, he, hre, -⟩ := h.member r p (by simp [hr])
  obtain ⟨m, hm, hrel, hw⟩ := h.regionUnlink_spec hr he
  obtain ⟨e', he', -⟩ := entries_of_core hrel.core he
  have hrel2 : Relinked m (m.setEntry p (some { e' with regionPrev := none, regionNext := none })) :=
    ⟨setEntry_core_same he' rfl, cells_setEntry he' rfl rfl, rfl⟩
  refine ⟨m.setEntry p (some { e' with regionPrev := none, regionNext := none }), ?_,
    hrel.trans hrel2, hw.setEntry_pending he' rfl rfl rfl⟩
  refine Res.bind_ok.mpr ⟨e, deref_ok.mpr he, ?_⟩
  simp only [hre]
  exact Res.bind_ok.mpr ⟨m, hm, Res.bind_ok.mpr ⟨_, store_ok.mpr ⟨e', he', rfl⟩, rfl⟩⟩

theorem dropEntry {p : EntryPtr} {e : ModEntry} (h : WF s (some p) L) (he : s.entries p = some e) :
    WF (s.dropEntry E p e) none L := by
  have hs : ∀ q, (s.dropEntry E p e).entries q = if q = p then none else s.entries q := by
    intro q
    simp [Runtime.dropEntry, Function.update_apply]
  have hne : ∀ {q f}, (s.dropEntry E p e).entries q = some f → q ≠ p ∧ s.entries q = some f := by
    intro q f hf
    rw [hs] at hf
    split at hf
    · cases hf
    · exact ⟨‹_›, hf⟩
  have hself := h.key p e he
  refine ⟨h.tree, ?_, ?_, ?_, ?_, ?_, ?_, ?_, ?_, fun q hq => by cases hq⟩
  · intro q hq
    rw [hs, h.fresh q hq]
    simp
  · intro q f hf
    obtain ⟨hq, hf⟩ := hne hf
    obtain ⟨h1, h2⟩ := h.key q f hf
    refine ⟨h1, ?_⟩
    have hk : f.modKey ≠ e.modKey := by
      intro hc
      rw [hc] at h2
      exact hq (Option.some.inj (h2.symm.trans hself.2))
    exact (AList.lookup_erase_ne hk).trans h2
  · intro k q hk
    have hke : k ≠ e.modKey := by
      rintro rfl
      simp [Runtime.dropEntry] at hk
    have hk' : s.modHd.lookup k = some q := (AList.lookup_erase_ne hke).symm.trans hk
    obtain ⟨f, hf, hfk⟩ := h.table k q hk'
    refine ⟨f, ?_, hfk⟩
    rw [hs, if_neg]
    · exact hf
    · rintro rfl
      cases he.symm.trans hf
      exact hke hfk.symm
  · exact fun q f hf => h.region q f (hne hf).2
  · intro q q' hq hq'
    obtain ⟨f, hf⟩ := Option.ne_none_iff_exists'.mp hq
    obtain ⟨f', hf'⟩ := Option.ne_none_iff_exists'.mp hq'
    exact h.addrs q q' (by simp [(hne hf).2]) (by simp [(hne hf').2])
  · intro r
    have hl := h.lists r
    refine ⟨hl.nodup, hl.head, hl.tail, hl.seg.congr fun q hq => ?_⟩
    have hqp : q ≠ p := fun hc => h.not_listed r (hc ▸ hq)
    simp only [links, hs, if_neg hqp]
  · intro r q hq
    obtain ⟨-, f, hf, h2⟩ := h.member r q hq
    have hqp : q ≠ p := fun hc => h.not_listed r (hc ▸ hq)
    refine ⟨by simp, f, ?_, h2⟩
    rw [hs, if_neg hqp]
    exact hf
  · intro q hq _
    obtain ⟨f, hf⟩ := Option.ne_none_iff_exists'.mp hq
    obtain ⟨hqp, hf⟩ := hne hf
    exact h.listed q (by simp [hf]) fun hc => hqp (Option.some.inj hc).symm

theorem publish (h : WF s none L) {key : ModKey} (hk : s.modHd.lookup key = none)
    (hr : (s.regionHd key.region).isSome) (im : ImageId) (tmp : Option ImageId) (addr : Addr)
    (ha : ∀ k p, s.modHd.lookup k = some p → s.addr p ≠ addr) :
    WF (s.modLoadPublishEntry key im tmp addr) (some s.entryNext) L := by
  generalize he0 : (
    { handle := im, regionId := key.region, parentEntry := s.loadingMod, modKey := key,
      loadPath := key.path, tmpLoadPath := tmp } : ModEntry) = e0
  have hs : ∀ q, (s.modLoadPublishEntry key im tmp addr).entries q =
      if q = s.entryNext then some e0 else s.entries q := by
    intro q
    simp [modLoadPublishEntry, setEntry, Function.update_apply, he0]
  have haddr : ∀ q, (s.modLoadPublishEntry key im tmp addr).addr q =
      if q = s.entryNext then addr else s.addr q := by
    intro q
    simp [modLoadPublishEntry, setEntry, Function.update_apply]
  have hm : (s.modLoadPublishEntry key im tmp addr).modHd = s.modHd.insert key s.entryNext := rfl
  have hself : s.entries s.entryNext = none := h.fresh _ le_rfl
  have hnot : ∀ {r q}, q ∈ L r → q ≠ s.entryNext := fun hq => (h.mem_lt hq).ne
  have hlook : ∀ k, k ≠ key → (s.modHd.insert key s.entryNext).lookup k = s.modHd.lookup k :=
    fun k hne => AList.lookup_insert_ne hne
  have hold : ∀ {q f}, s.entries q = some f → s.addr q ≠ addr := fun {q f} hf =>
    ha _ _ (h.key q f hf).2
  refine ⟨h.tree, ?_, ?_, ?_, ?_, ?_, ?_, ?_, ?_, ?_⟩
  · intro q hq
    have hlt : s.entryNext < q := hq
    rw [hs, if_neg hlt.ne', h.fresh q hlt.le]
  · intro q f hf
    rw [hs] at hf
    rw [hm]
    split at hf
    · rename_i hq
      cases hf
      rw [← he0, hq]
      exact ⟨rfl, AList.lookup_insert _⟩
    · obtain ⟨h1, h2⟩ := h.key q f hf
      have hne : f.modKey ≠ key := by
        intro hc
        rw [hc, hk] at h2
        cases h2
      exact ⟨h1, (hlook _ hne).trans h2⟩
  · intro k q hkq
    rw [hm] at hkq
    rw [hs]
    by_cases hkk : k = key
    · subst hkk
      rw [AList.lookup_insert] at hkq
      cases hkq
      exact ⟨e0, if_pos rfl, by rw [← he0]⟩
    · obtain ⟨f, hf, hfk⟩ := h.table k q ((hlook k hkk).symm.trans hkq)
      refine ⟨f, ?_, hfk⟩
      rw [if_neg (h.lt_next hf).ne]
      exact hf
  · intro q f hf
    rw [hs] at hf
    split at hf
    · cases hf
      rw [← he0]
      exact hr
    · exact h.region q f hf
  · intro q q' hq hq' haq
    rw [haddr, haddr] at haq
    obtain ⟨f, hf⟩ := Option.ne_none_iff_exists'.mp hq
    obtain ⟨f', hf'⟩ := Option.ne_none_iff_exists'.mp hq'
    rw [hs] at hf hf'
    by_cases h1 : q = s.entryNext <;> by_cases h2 : q' = s.entryNext
    · rw [h1, h2]
    · rw [if_neg h2] at hf'
      rw [if_pos h1, if_neg h2] at haq
      exact absurd haq.symm (hold hf')
    · rw [if_neg h1] at hf
      rw [if_neg h1, if_pos h2] at haq
      exact absurd haq (hold hf)
    · rw [if_neg h1] at hf
      rw [if_neg h2] at hf'
      rw [if_neg h1, if_neg h2] at haq
      exact h.addrs q q' (by simp [hf]) (by simp [hf']) haq
  · intro r
    have hl := h.lists r
    refine ⟨hl.nodup, hl.head, hl.tail, hl.seg.congr fun q hq => ?_⟩
    simp only [links, hs, if_neg (hnot hq)]
  · intro r q hq
    obtain ⟨-, f, hf, h2⟩ := h.member r q hq
    refine ⟨fun hc => hnot hq (Option.some.inj hc).symm, f, ?_, h2⟩
    rw [hs, if_neg (hnot hq)]
    exact hf
  · intro q hq hqp
    rw [hs, if_neg fun hc => hqp (by rw [hc])] at hq
    exact h.listed q hq (by simp)
  · intro q hq
    cases hq
    rw [hs, if_pos rfl]
    simp

theorem rekeyEntry {p : EntryPtr} {e : ModEntry} {child : RegionId} (h : WF s (some p) L)
    (he : s.entries p = some e) (hc : (s.regionHd child).isSome)
    (hn : ∀ k, s.modHd.lookup k ≠ none → k.region ≠ child) :
    WF (s.rekeyEntry p e e.modKey e.regionId child) (some p) L := by
  have hself := h.key p e he
  have hs : ∀ q, (s.rekeyEntry p e e.modKey e.regionId child).entries q =
      if q = p then some { e with regionId := child, modKey := ⟨e.modKey.path, child⟩ }
      else s.entries q := by
    intro q
    rw [rekeyEntry_entry, Function.update_apply]
  have hm : (s.rekeyEntry p e e.modKey e.regionId child).modHd =
      (s.modHd.insert (⟨e.modKey.path, child⟩ : ModKey) p).erase e.modKey := by
    rw [rekeyEntry_eq]
  have hother : (s.rekeyEntry p e e.modKey e.regionId child).entryNext = s.entryNext ∧
      (s.rekeyEntry p e e.modKey e.regionId child).addr = s.addr ∧
      (s.rekeyEntry p e e.modKey e.regionId child).regions = s.regions ∧
      (s.rekeyEntry p e e.modKey e.regionId child).regionHd = s.regionHd := by
    rw [rekeyEntry_eq]
    exact ⟨rfl, rfl, rfl, rfl⟩
  have htree := rekeyEntry_tree s p e e.modKey e.regionId child
  generalize s.rekeyEntry p e e.modKey e.regionId child = t at *
  obtain ⟨h1, h2, h3, h4⟩ := hother
  have live : ∀ q, t.entries q ≠ none ↔ s.entries q ≠ none := by
    intro q
    rw [hs]
    split
    · rename_i hq
      simp [hq, he]
    · rfl
  have hne : e.modKey.region ≠ child := hn _ (by rw [hself.2]; simp)
  have hlook : ∀ k, t.modHd.lookup k = if k = e.modKey then none
      else if k = ⟨e.modKey.path, child⟩ then some p else s.modHd.lookup k := by
    intro k
    rw [hm]
    split
    · rename_i hk
      rw [hk, AList.lookup_erase]
    · rename_i hk
      rw [AList.lookup_erase_ne hk]
      split
      · rename_i hk'
        rw [hk', AList.lookup_insert]
      · rename_i hk'
        rw [AList.lookup_insert_ne hk']
  have hqp : ∀ {r q}, q ∈ L r → q ≠ p := fun {r q} hq hc => h.not_listed r (hc ▸ hq)
  refine ⟨htree ▸ h.tree, ?_, ?_, ?_, ?_, ?_, ?_, ?_, ?_, ?_⟩
  · intro q hq
    by_contra hcon
    exact (live q).mp hcon (h.fresh q (h1 ▸ hq))
  · intro q f hf
    rw [hs] at hf
    rw [hlook]
    split at hf
    · rename_i hq
      cases hf
      refine ⟨by rw [hself.1], ?_⟩
      rw [if_neg fun hc => hne (congrArg ModKey.region hc).symm, if_pos rfl, hq]
    · rename_i hq
      obtain ⟨k1, k2⟩ := h.key q f hf
      have hk : f.modKey ≠ e.modKey := fun hc => hq (Option.some.inj (k2.symm.trans (hc ▸ hself.2)))
      have hk' : f.modKey.region ≠ child := hn _ (by rw [k2]; simp)
      refine ⟨k1, ?_⟩
      rw [if_neg hk, if_neg fun hc => hk' (congrArg ModKey.region hc)]
      exact k2
  · intro k q hk
    rw [hlook] at hk
    split at hk
    · cases hk
    · rename_i hke
      rw [hs]
      split at hk
      · rename_i hkn
        cases hk
        exact ⟨_, if_pos rfl, hkn.symm⟩
      · obtain ⟨f, hf, hfk⟩ := h.table k q hk
        have hq : q ≠ p := by
          rintro rfl
          cases he.symm.trans hf
          exact hke hfk.symm
        rw [if_neg hq]
        exact ⟨f, hf, hfk⟩
  · intro q f hf
    rw [h4]
    rw [hs] at hf
    split at hf
    · cases hf
      exact hc
    · exact h.region q f hf
  · intro q q' hq hq'
    rw [h2]
    exact h.addrs q q' ((live q).mp hq) ((live q').mp hq')
  · intro r
    have hl := h.lists r
    refine ⟨hl.nodup, h3 ▸ hl.head, h3 ▸ hl.tail, hl.seg.congr fun q hq => ?_⟩
    simp only [links, hs, if_neg (hqp hq)]
  · intro r q hq
    obtain ⟨k1, f, hf, k2, k3⟩ := h.member r q hq
    refine ⟨k1, f, ?_, k2, h4 ▸ k3⟩
    rw [hs, if_neg (hqp hq)]
    exact hf
  · exact fun q hq => h.listed q ((live q).mp hq)
  · exact fun q hq => (live q).mpr (h.pending q hq)

theorem createChild {r : RegionPtr} {bits : UInt8} {k : Nat} (h : WF s x L)
    (hc : s.tree.Claims r bits k) :
    WF (s.regionCreateChild r (s.tree.slotId r bits k) bits) x L := by
  have hr : r < s.regionNext := hc.region
  have hnext : (s.regions s.regionNext).modsHead = none ∧ (s.regions s.regionNext).modsTail = none := by
    have hnil : L s.regionNext = [] := by
      rw [List.eq_nil_iff_forall_not_mem]
      intro q hq
      obtain ⟨-, f, -, -, h3⟩ := h.member _ q hq
      exact (lt_irrefl _ (h.tree.hd_node _ _ h3).1)
    have hl := h.lists s.regionNext
    rw [hnil] at hl
    exact ⟨hl.head, hl.tail⟩
  have htree := regionCreateChild_tree s r (s.tree.slotId r bits k) bits
  have hok := h.tree.claim hc
  rw [← htree] at hok
  generalize hid : s.tree.slotId r bits k = id at *
  have hfree : s.regionHd id = none := hid ▸ hc.first.free
  unfold regionCreateChild
  simp only
  generalize hm : setRegion _ r _ = m
  have hmok : m.tree.Ok := by
    have := regionMarkSubtreeDirty_core m r
    rw [regionCreateChild, hm] at hok
    rw [← core_tree this]
    exact hok
  refine WF.markDirty ?_ r
  refine h.setRegions hmok ⟨_, _, _, _, hm.symm⟩ ?_ ?_ ?_
  · intro r'
    rw [← hm, regions_setRegion]
    by_cases h1 : r' = r
    · subst h1
      simp [hr.ne]
    · by_cases h2 : r' = s.regionNext
      · subst h2
        simp [h1, hnext.1]
      · simp [h1, h2]
  · intro r'
    rw [← hm, regions_setRegion]
    by_cases h1 : r' = r
    · subst h1
      simp [hr.ne]
    · by_cases h2 : r' = s.regionNext
      · subst h2
        simp [h1, hnext.2]
      · simp [h1, h2]
  · intro i r' hi
    rw [← hm]
    have hne : i ≠ id := by
      rintro rfl
      rw [hfree] at hi
      cases hi
    exact (Function.update_of_ne hne _ _).trans hi

theorem removeDenies (h : WF s x L) (r : RegionPtr) (path : String) :
    WF (s.moduleRemoveDenies r path) x L := by
  have htree : (s.moduleRemoveDenies r path).tree.Ok := by
    rcases moduleRemoveDenies_tree s r path with ht | ht
    · exact ht ▸ h.tree
    · exact ht ▸ h.tree.removeDenies r path
  unfold moduleRemoveDenies at *
  split
  · rename_i hmem
    rw [if_pos hmem] at htree
    refine h.setRegions htree ⟨_, _, _, _, rfl⟩ ?_ ?_ fun _ _ => id
    · intro r'
      rw [regions_setRegion]
      split
      · rename_i hr
        rw [hr]
      · rfl
    · intro r'
      rw [regions_setRegion]
      split
      · rename_i hr
        rw [hr]
      · rfl
  · exact h

theorem rebuildMods {r : RegionPtr} (h : WF s x L) (ht : s.regionRebuildSubtreeMods r = .ok t) :
    WF t x L := by
  have hcore := regionRebuildSubtreeMods_core ht
  simp only [regionRebuildSubtreeMods, Res.bind_ok, Except.ok.injEq] at ht
  obtain ⟨l, -, rfl⟩ := ht
  refine h.congr_core hcore (fun _ _ => rfl) ?_ ?_
  · intro r'
    rw [regions_setRegion]
    split
    · rename_i hr
      rw [hr]
    · rfl
  · intro r'
    rw [regions_setRegion]
    split
    · rename_i hr
      rw [hr]
    · rfl

end WF
end Xylem

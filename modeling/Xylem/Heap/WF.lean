import Xylem.Ops.Load
import Xylem.Lib.Thread

/-!
# Well-formed heaps

The intrusive lists of the regions, the module table and the entries agree with
each other. `x` is the entry between two lists, `L` the list of each region.
-/
namespace Xylem

namespace Runtime

def links (s : Runtime) (p : EntryPtr) : Option (Thread.Link EntryPtr) :=
  (s.entries p).map fun e => ⟨e.regionPrev, e.regionNext⟩

end Runtime

structure Vec where
  subtreeMods : List EntryPtr
  subtreeModsDirty : Bool
  dispatchGen : BitVec 64
  hookDispatch : Nat → HookDispatchCache

namespace Runtime

def cells (s : Runtime) (p : EntryPtr) : Option ((Nat → FnSlot) × (Nat → Bool)) :=
  (s.entries p).map fun e => (e.fnCache, e.hookImplBits)

def vec (s : Runtime) (r : RegionPtr) : Vec :=
  let re := s.regions r
  ⟨re.subtreeMods, re.subtreeModsDirty, re.dispatchGen, re.hookDispatch⟩

end Runtime

/-- What the table and the lists have to know of an entry. -/
structure Stub where
  loadPath : String
  regionId : RegionId
  modKey : ModKey
  regionEntry : Option RegionPtr

def ModEntry.stub (e : ModEntry) : Stub := ⟨e.loadPath, e.regionId, e.modKey, e.regionEntry⟩

/-- The intrusive list of region `r` is `l`. -/
structure Listed (s : Runtime) (r : RegionPtr) (l : List EntryPtr) : Prop where
  nodup : l.Nodup
  head : (s.regions r).modsHead = l.head?
  tail : (s.regions r).modsTail = l.getLast?
  seg : Thread.Seg s.links none l none

structure WF (s : Runtime) (x : Option EntryPtr) (L : RegionPtr → List EntryPtr) : Prop where
  tree : s.tree.Ok
  fresh : ∀ p, s.entryNext ≤ p → s.entries p = none
  key : ∀ p e, s.entries p = some e →
    e.modKey = ⟨e.loadPath, e.regionId⟩ ∧ s.modHd.lookup e.modKey = some p
  table : ∀ k p, s.modHd.lookup k = some p → ∃ e, s.entries p = some e ∧ e.modKey = k
  region : ∀ p e, s.entries p = some e → (s.regionHd e.regionId).isSome
  addrs : ∀ p q, s.entries p ≠ none → s.entries q ≠ none → s.addr p = s.addr q → p = q
  lists : ∀ r, Listed s r (L r)
  member : ∀ r p, p ∈ L r → x ≠ some p ∧
    ∃ e, s.entries p = some e ∧ e.regionEntry = some r ∧ s.regionHd e.regionId = some r
  listed : ∀ p, s.entries p ≠ none → x ≠ some p → ∃ r, p ∈ L r
  pending : ∀ p, x = some p → s.entries p ≠ none

namespace WF
variable {s t : Runtime} {x : Option EntryPtr} {L : RegionPtr → List EntryPtr}

theorem lt_next (h : WF s x L) {p : EntryPtr} {e : ModEntry} (he : s.entries p = some e) :
    p < s.entryNext := by
  by_contra hp
  rw [h.fresh p (not_lt.mp hp)] at he
  cases he

theorem modEntries_nodup (h : WF s x L) (E : Env) : (s.modEntries E).Nodup := by
  refine (E.iterOrder_perm _).nodup_iff.mpr (List.Nodup.map_on ?_ s.modHd.nodupKeys.nodup)
  rintro ⟨k, p⟩ hk ⟨k', p'⟩ hk' rfl
  obtain ⟨e, he, rfl⟩ := h.table k p (AList.mem_lookup_iff.mpr hk)
  obtain ⟨e', he', rfl⟩ := h.table k' p (AList.mem_lookup_iff.mpr hk')
  cases he.symm.trans he'
  rfl

theorem modEntries_live (h : WF s x L) {E : Env} {p : EntryPtr} (hp : p ∈ s.modEntries E) :
    s.entries p ≠ none := by
  obtain ⟨⟨k, q⟩, hk, rfl⟩ := List.mem_map.mp ((E.iterOrder_perm _).mem_iff.mp hp)
  obtain ⟨e, he, -⟩ := h.table k q (AList.mem_lookup_iff.mpr hk)
  rw [he]
  exact Option.some_ne_none e

theorem member_unique (h : WF s x L) {r r' : RegionPtr} {p : EntryPtr} (hr : p ∈ L r)
    (hr' : p ∈ L r') : r = r' := by
  obtain ⟨_, e, he, hre, _⟩ := h.member r p hr
  obtain ⟨_, e', he', hre', _⟩ := h.member r' p hr'
  cases he.symm.trans he'
  exact Option.some.inj (hre.symm.trans hre')

theorem region_of (h : WF s x L) {p : EntryPtr} {e : ModEntry} (he : s.entries p = some e)
    (hx : x ≠ some p) :
    ∃ r, e.regionEntry = some r ∧ s.regionHd e.regionId = some r ∧ p ∈ L r := by
  obtain ⟨r, hr⟩ := h.listed p (by rw [he]; simp) hx
  obtain ⟨_, e', he', h1, h2⟩ := h.member r p hr
  cases he.symm.trans he'
  exact ⟨r, h1, h2, hr⟩

theorem lookup_region (h : WF s x L) {k : ModKey} {p : EntryPtr} {e : ModEntry}
    (hl : s.modHd.lookup k = some p) (he : s.entries p = some e) : e.regionId = k.region := by
  obtain ⟨e', he', hk⟩ := h.table k p hl
  cases he.symm.trans he'
  exact congrArg ModKey.region ((h.key p e he).1.symm.trans hk)

theorem seg_mods {n : Nat} {l : List EntryPtr} {q : Option EntryPtr}
    (h : Thread.Seg s.links q l none) (hn : l.length ≤ n) :
    s.regionModsFrom n l.head? = .ok l := by
  induction l generalizing n q with
  | nil => cases n <;> rfl
  | cons p l ih =>
      obtain ⟨n, rfl⟩ : ∃ m, n = m + 1 := ⟨n - 1, by simp at hn; omega⟩
      obtain ⟨hp, h⟩ := h
      simp only [Runtime.links, Option.map_eq_some_iff] at hp
      obtain ⟨e, he, hl⟩ := hp
      have hnext : e.regionNext = l.head? := by
        have := congrArg Thread.Link.next hl
        simpa using this
      simp only [List.head?_cons, Runtime.regionModsFrom]
      refine Res.bind_ok.mpr ⟨e, Runtime.deref_ok.mpr he, Res.bind_ok.mpr ⟨l, ?_, rfl⟩⟩
      rw [hnext]
      exact ih h (by simpa using hn)

theorem mem_lt (h : WF s x L) {r : RegionPtr} {p : EntryPtr} (hp : p ∈ L r) : p < s.entryNext :=
  have ⟨_, _, he, _⟩ := h.member r p hp
  h.lt_next he

theorem live_listed (h : WF s x L) {r : RegionPtr} {p : EntryPtr} (hp : p ∈ L r) :
    s.entries p ≠ none := by
  obtain ⟨-, e, he, -⟩ := h.member r p hp
  rw [he]
  exact Option.some_ne_none e

theorem list_length (h : WF s x L) (r : RegionPtr) : (L r).length ≤ s.entryNext := by
  have hsub : L r ⊆ List.range s.entryNext := fun p hp => List.mem_range.mpr (h.mem_lt hp)
  simpa using (List.subperm_of_subset (h.lists r).nodup hsub).length_le

theorem regionMods (h : WF s x L) (r : RegionPtr) : s.regionMods r = .ok (L r) := by
  rw [Runtime.regionMods, (h.lists r).head]
  exact seg_mods (h.lists r).seg (h.list_length r)

theorem congr (h : WF s x L) (htree : t.tree.Ok) (hn : t.entryNext = s.entryNext)
    (ha : t.addr = s.addr) (hm : t.modHd = s.modHd)
    (hst : ∀ p, (t.entries p).map ModEntry.stub = (s.entries p).map ModEntry.stub)
    (hl : ∀ p, x ≠ some p → t.links p = s.links p)
    (hh : ∀ r, (t.regions r).modsHead = (s.regions r).modsHead)
    (ht : ∀ r, (t.regions r).modsTail = (s.regions r).modsTail)
    (hreg : ∀ id r, s.regionHd id = some r → t.regionHd id = some r) : WF t x L := by
  have back : ∀ {p e}, t.entries p = some e → ∃ e', s.entries p = some e' ∧ e'.stub = e.stub := by
    intro p e he
    have := hst p
    rw [he] at this
    exact Option.map_eq_some_iff.mp this.symm
  have forth : ∀ {p e}, s.entries p = some e → ∃ e', t.entries p = some e' ∧ e'.stub = e.stub := by
    intro p e he
    have := hst p
    rw [he] at this
    exact Option.map_eq_some_iff.mp this
  have live : ∀ {p}, t.entries p ≠ none ↔ s.entries p ≠ none := by
    intro p
    have h1 := hst p
    cases hs : s.entries p <;> cases ht : t.entries p <;> simp [hs, ht] at h1 ⊢
  constructor
  · exact htree
  · intro p hp
    by_contra hne
    exact live.mp hne (h.fresh p (hn ▸ hp))
  · intro p e he
    obtain ⟨e', he', hs⟩ := back he
    simp only [ModEntry.stub, Stub.mk.injEq] at hs
    obtain ⟨h1, h2⟩ := h.key p e' he'
    rw [hm, ← hs.1, ← hs.2.1, ← hs.2.2.1]
    exact ⟨h1, h2⟩
  · intro k p hk
    obtain ⟨e, he, hek⟩ := h.table k p (hm ▸ hk)
    obtain ⟨e', he', hs⟩ := forth he
    simp only [ModEntry.stub, Stub.mk.injEq] at hs
    exact ⟨e', he', hs.2.2.1.trans hek⟩
  · intro p e he
    obtain ⟨e', he', hs⟩ := back he
    simp only [ModEntry.stub, Stub.mk.injEq] at hs
    obtain ⟨r, hr⟩ := Option.isSome_iff_exists.mp (h.region p e' he')
    exact Option.isSome_iff_exists.mpr ⟨r, hreg _ _ (hs.2.1 ▸ hr)⟩
  · intro p q hp hq
    rw [ha]
    exact h.addrs p q (live.mp hp) (live.mp hq)
  · intro r
    have := h.lists r
    exact ⟨this.nodup, (hh r).trans this.head, (ht r).trans this.tail,
      this.seg.congr fun p hp => hl p (h.member r p hp).1⟩
  · intro r p hp
    obtain ⟨hx, e, he, h1, h2⟩ := h.member r p hp
    obtain ⟨e', he', hs⟩ := forth he
    simp only [ModEntry.stub, Stub.mk.injEq] at hs
    exact ⟨hx, e', he', hs.2.2.2.trans h1, hreg _ _ (hs.2.1 ▸ h2)⟩
  · exact fun p hp => h.listed p (live.mp hp)
  · exact fun p hp => live.mpr (h.pending p hp)

theorem congr_core (h : WF s x L) (hc : t.core = s.core)
    (hl : ∀ p, x ≠ some p → t.links p = s.links p)
    (hh : ∀ r, (t.regions r).modsHead = (s.regions r).modsHead)
    (ht : ∀ r, (t.regions r).modsTail = (s.regions r).modsTail) : WF t x L := by
  have htree := Runtime.core_tree hc
  refine h.congr (htree ▸ h.tree) (congrArg Core.entryNext hc) (congrArg Core.addr hc)
    (congrArg Core.modHd hc) (fun p => ?_) hl hh ht fun id r hr => ?_
  · have h1 := congrArg (Option.map ModEntry.stub) (congrFun (congrArg Core.entries hc) p)
    have h2 : ModEntry.stub ∘ ModEntry.core = ModEntry.stub := rfl
    simpa only [Runtime.core, Option.map_map, h2] using h1
  · exact (congrFun (congrArg Tree.hd htree) id).trans hr

end WF

namespace Runtime
variable {s t : Runtime}

theorem links_setEntry (s : Runtime) (p : EntryPtr) (e : ModEntry) :
    (s.setEntry p (some e)).links =
      Function.update s.links p (some ⟨e.regionPrev, e.regionNext⟩) := by
  funext q
  by_cases h : q = p
  · subst h
    simp [links, setEntry]
  · simp [links, setEntry, h]

theorem cells_setEntry {p : EntryPtr} {e e' : ModEntry} (h : s.entries p = some e)
    (hf : e'.fnCache = e.fnCache) (hb : e'.hookImplBits = e.hookImplBits) :
    (s.setEntry p (some e')).cells = s.cells := by
  funext q
  by_cases hq : q = p
  · subst hq
    simp [cells, setEntry, h, hf, hb]
  · simp [cells, setEntry, hq]

theorem regions_setRegion (s : Runtime) (r x : RegionPtr) (f : RegionEntry → RegionEntry) :
    (s.setRegion r f).regions x = if x = r then f (s.regions r) else s.regions x := by
  simp [setRegion, Function.update_apply]

/-- What redirecting one link or one end of a list leaves alone. -/
structure Relinked (s t : Runtime) : Prop where
  core : t.core = s.core
  cells : t.cells = s.cells
  vec : t.vec = s.vec

theorem Relinked.trans {u : Runtime} (h : Relinked s t) (k : Relinked t u) : Relinked s u :=
  ⟨k.core.trans h.core, k.cells.trans h.cells, k.vec.trans h.vec⟩

theorem setHead_relinked (s : Runtime) (r : RegionPtr) (v : Option EntryPtr) :
    Relinked s (s.setRegion r fun re => { re with modsHead := v }) := by
  refine ⟨setRegion_core fun _ => rfl, rfl, ?_⟩
  funext x
  simp only [vec, regions_setRegion]
  split
  · rename_i h
    rw [h]
  · rfl

theorem setTail_relinked (s : Runtime) (r : RegionPtr) (v : Option EntryPtr) :
    Relinked s (s.setRegion r fun re => { re with modsTail := v }) := by
  refine ⟨setRegion_core fun _ => rfl, rfl, ?_⟩
  funext x
  simp only [vec, regions_setRegion]
  split
  · rename_i h
    rw [h]
  · rfl

theorem linkNext_spec {r : RegionPtr} {q v : Option EntryPtr}
    (hq : ∀ q', q = some q' → s.entries q' ≠ none) :
    ∃ t, s.linkNext r q v = .ok t ∧ Relinked s t ∧ t.links = Thread.setNext s.links q v ∧
      (∀ x, (t.regions x).modsHead = if x = r ∧ q = none then v else (s.regions x).modsHead) ∧
      ∀ x, (t.regions x).modsTail = (s.regions x).modsTail := by
  cases q with
  | none =>
      refine ⟨_, rfl, setHead_relinked s r v, rfl, fun x => ?_, fun x => ?_⟩
      · rw [regions_setRegion]
        by_cases h : x = r <;> simp [h]
      · rw [regions_setRegion]
        split
        · rename_i h
          rw [h]
        · rfl
  | some q =>
      obtain ⟨e, he⟩ := Option.ne_none_iff_exists'.mp (hq q rfl)
      refine ⟨_, store_ok.mpr ⟨e, he, rfl⟩, ⟨setEntry_core_same he rfl,
        cells_setEntry he rfl rfl, rfl⟩, ?_, by simp [setEntry], fun x => rfl⟩
      rw [links_setEntry, Thread.setNext]
      simp [links, he]

theorem linkPrev_spec {r : RegionPtr} {q v : Option EntryPtr}
    (hq : ∀ q', q = some q' → s.entries q' ≠ none) :
    ∃ t, s.linkPrev r q v = .ok t ∧ Relinked s t ∧ t.links = Thread.setPrev s.links q v ∧
      (∀ x, (t.regions x).modsTail = if x = r ∧ q = none then v else (s.regions x).modsTail) ∧
      ∀ x, (t.regions x).modsHead = (s.regions x).modsHead := by
  cases q with
  | none =>
      refine ⟨_, rfl, setTail_relinked s r v, rfl, fun x => ?_, fun x => ?_⟩
      · rw [regions_setRegion]
        by_cases h : x = r <;> simp [h]
      · rw [regions_setRegion]
        split
        · rename_i h
          rw [h]
        · rfl
  | some q =>
      obtain ⟨e, he⟩ := Option.ne_none_iff_exists'.mp (hq q rfl)
      refine ⟨_, store_ok.mpr ⟨e, he, rfl⟩, ⟨setEntry_core_same he rfl,
        cells_setEntry he rfl rfl, rfl⟩, ?_, by simp [setEntry], fun x => rfl⟩
      rw [links_setEntry, Thread.setPrev]
      simp [links, he]

end Runtime

namespace WF
variable {s t : Runtime} {x : Option EntryPtr} {L : RegionPtr → List EntryPtr}
open Xylem.Runtime

theorem live_of_core (hc : t.core = s.core) (p : EntryPtr) :
    t.entries p ≠ none ↔ s.entries p ≠ none := by
  have h := congrFun (congrArg Core.entries hc) p
  simp only [Runtime.core] at h
  cases hs : s.entries p <;> cases ht : t.entries p <;> simp [hs, ht] at h ⊢

theorem of_core (h : WF s x L) {y : Option EntryPtr} {L' : RegionPtr → List EntryPtr}
    (hc : t.core = s.core) (hlists : ∀ r, Listed t r (L' r))
    (hmember : ∀ r p, p ∈ L' r → y ≠ some p ∧
      ∃ e, s.entries p = some e ∧ e.regionEntry = some r ∧ s.regionHd e.regionId = some r)
    (hlisted : ∀ p, s.entries p ≠ none → y ≠ some p → ∃ r, p ∈ L' r)
    (hpending : ∀ p, y = some p → s.entries p ≠ none) : WF t y L' := by
  have htree := core_tree hc
  have hhd : t.regionHd = s.regionHd := congrArg Tree.hd htree
  have hm : t.modHd = s.modHd := congrArg Core.modHd hc
  have hn : t.entryNext = s.entryNext := congrArg Core.entryNext hc
  have ha : t.addr = s.addr := congrArg Core.addr hc
  constructor
  · exact htree ▸ h.tree
  · intro p hp
    by_contra hne
    exact (live_of_core hc p).mp hne (h.fresh p (hn ▸ hp))
  · intro p e he
    obtain ⟨e', he', hce⟩ := entries_of_core hc.symm he
    obtain ⟨h1, h2⟩ := h.key p e' he'
    have hst : e'.core.stub = e.core.stub := congrArg _ hce
    simp only [ModEntry.core, ModEntry.stub, Stub.mk.injEq] at hst
    rw [hm, ← hst.1, ← hst.2.1, ← hst.2.2.1]
    exact ⟨h1, h2⟩
  · intro k p hk
    obtain ⟨e, he, hek⟩ := h.table k p (hm ▸ hk)
    obtain ⟨e', he', hce⟩ := entries_of_core hc he
    have hst : e'.core.stub = e.core.stub := congrArg _ hce
    simp only [ModEntry.core, ModEntry.stub, Stub.mk.injEq] at hst
    exact ⟨e', he', hst.2.2.1.trans hek⟩
  · intro p e he
    obtain ⟨e', he', hce⟩ := entries_of_core hc.symm he
    have hst : e'.core.stub = e.core.stub := congrArg _ hce
    simp only [ModEntry.core, ModEntry.stub, Stub.mk.injEq] at hst
    rw [hhd, ← hst.2.1]
    exact h.region p e' he'
  · intro p q hp hq
    rw [ha]
    exact h.addrs p q ((live_of_core hc p).mp hp) ((live_of_core hc q).mp hq)
  · exact hlists
  · intro r p hp
    obtain ⟨hy, e, he, h1, h2⟩ := hmember r p hp
    obtain ⟨e', he', hce⟩ := entries_of_core hc he
    have hst : e'.core.stub = e.core.stub := congrArg _ hce
    simp only [ModEntry.core, ModEntry.stub, Stub.mk.injEq] at hst
    exact ⟨hy, e', he', hst.2.2.2.trans h1, by rw [hhd, hst.2.1]; exact h2⟩
  · exact fun p hp => hlisted p ((live_of_core hc p).mp hp)
  · exact fun p hp => (live_of_core hc p).mpr (hpending p hp)

theorem regionUnlink_spec (h : WF s none L) {r : RegionPtr} {p : EntryPtr} {e : ModEntry}
    {a b : List EntryPtr} (hr : L r = a ++ p :: b) (he : s.entries p = some e) :
    ∃ t, s.regionUnlink r e = .ok t ∧ Relinked s t ∧
      WF t (some p) (Function.update L r (a ++ b)) := by
  have hl := h.lists r
  rw [hr] at hl
  have hmem : ∀ q ∈ a ++ b, q ∈ L r := fun q hq => by
    rw [hr]
    simp only [List.mem_append, List.mem_cons] at hq ⊢
    tauto
  have hlive : ∀ q ∈ a ++ b, s.entries q ≠ none := fun q hq => by
    obtain ⟨_, f, hf, _⟩ := h.member r q (hmem q hq)
    rw [hf]
    simp
  have hlink : e.regionPrev = a.getLast? ∧ e.regionNext = b.head? := by
    have := hl.seg.at_mid
    simp only [links, he, Option.map_some, Option.some.injEq, Thread.Link.mk.injEq] at this
    exact this
  obtain ⟨m, hm, hrel, hml, hmh, hmt⟩ := linkNext_spec (r := r) (q := a.getLast?) (v := b.head?)
    fun q hq => hlive q (by simp [List.mem_of_getLast? hq])
  obtain ⟨t, ht, hrel', htl, htt, hth⟩ := linkPrev_spec (s := m) (r := r) (q := b.head?)
    (v := a.getLast?) fun q hq =>
      (live_of_core hrel.core q).mpr (hlive q (by simp [List.mem_of_head? hq]))
  have hnd := hl.nodup
  obtain ⟨_, hnd2, hnd3⟩ := List.nodup_append.mp hnd
  have hpa : p ∉ a ++ b := by
    have := (List.nodup_cons.mp hnd2).1
    simp only [List.mem_append, not_or]
    exact ⟨fun hpa => hnd3 p hpa p (by simp) rfl, this⟩
  refine ⟨t, ?_, hrel.trans hrel', h.of_core (hrel.trans hrel').core ?_ ?_ ?_ ?_⟩
  · rw [regionUnlink, hlink.1, hlink.2]
    exact Res.bind_ok.mpr ⟨m, hm, ht⟩
  · intro r'
    by_cases hrr : r' = r
    · subst hrr
      rw [Function.update_self]
      refine ⟨?_, ?_, ?_, ?_⟩
      · exact (List.nodup_middle.mp hnd).of_cons
      · rw [hth, hmh, hl.head]
        cases a with
        | nil => simp
        | cons y a => simp
      · rw [htt, hmt, hl.tail]
        cases b with
        | nil => simp
        | cons y b => simp [List.getLast?_append]
      · rw [htl, hml]
        exact hl.seg.unlink hnd
    · rw [Function.update_of_ne hrr]
      have hl' := h.lists r'
      refine ⟨hl'.nodup, ?_, ?_, ?_⟩
      · rw [hth, hmh, if_neg fun hc => hrr hc.1, hl'.head]
      · rw [htt, hmt, if_neg fun hc => hrr hc.1, hl'.tail]
      · rw [htl, hml]
        refine hl'.seg.congr fun y hy => ?_
        have hyr : y ∉ a ++ b := fun hc => hrr (h.member_unique hy (hmem y hc))
        rw [Thread.setPrev_of_ne, Thread.setNext_of_ne]
        · exact fun hc => hyr (by simp [List.mem_of_getLast? hc])
        · exact fun hc => hyr (by simp [List.mem_of_head? hc])
  · intro r' q hq
    have hq' : q ∈ L r' ∧ q ≠ p := by
      by_cases hrr : r' = r
      · subst hrr
        rw [Function.update_self] at hq
        exact ⟨hmem q hq, fun hc => hpa (hc ▸ hq)⟩
      · rw [Function.update_of_ne hrr] at hq
        refine ⟨hq, fun hc => hrr (h.member_unique hq ?_)⟩
        rw [hc, hr]
        simp
    exact ⟨fun hc => hq'.2 (Option.some.inj hc).symm, (h.member r' q hq'.1).2⟩
  · intro q hq hqp
    obtain ⟨r', hr'⟩ := h.listed q hq (by simp)
    refine ⟨r', ?_⟩
    by_cases hrr : r' = r
    · subst hrr
      rw [Function.update_self]
      rw [hr] at hr'
      have hne : q ≠ p := fun hc => hqp (by rw [hc])
      simp only [List.mem_append, List.mem_cons, hne, false_or] at hr' ⊢
      exact hr'
    · rw [Function.update_of_ne hrr]
      exact hr'
  · intro q hq
    cases hq
    rw [he]
    simp

theorem not_listed {p : EntryPtr} (h : WF s (some p) L) (r : RegionPtr) : p ∉ L r :=
  fun hp => (h.member r p hp).1 rfl

/-- The entry in transit may change, as long as the table still finds it. -/
theorem setEntry_pending {p : EntryPtr} {e e' : ModEntry} (h : WF s (some p) L)
    (he : s.entries p = some e) (hkey : e'.modKey = e.modKey) (hpath : e'.loadPath = e.loadPath)
    (hid : e'.regionId = e.regionId) : WF (s.setEntry p (some e')) (some p) L := by
  have hs : ∀ q, (s.setEntry p (some e')).entries q =
      if q = p then some e' else s.entries q := by
    intro q
    simp [setEntry, Function.update_apply]
  have live : ∀ q, (s.setEntry p (some e')).entries q ≠ none ↔ s.entries q ≠ none := by
    intro q
    rw [hs]
    split
    · rename_i hq
      simp [hq, he]
    · rfl
  have hself := h.key p e he
  refine ⟨h.tree, ?_, ?_, ?_, ?_, ?_, ?_, ?_, ?_, ?_⟩
  · intro q hq
    by_contra hne
    exact (live q).mp hne (h.fresh q hq)
  · intro q f hf
    rw [hs] at hf
    split at hf
    · rename_i hq
      cases hf
      rw [hq, hkey, hpath, hid]
      exact hself
    · exact h.key q f hf
  · intro k q hk
    obtain ⟨f, hf, hfk⟩ := h.table k q hk
    rw [hs]
    split
    · rename_i hq
      rw [hq] at hf
      cases he.symm.trans hf
      exact ⟨e', rfl, hkey.trans hfk⟩
    · exact ⟨f, hf, hfk⟩
  · intro q f hf
    rw [hs] at hf
    split at hf
    · cases hf
      rw [hid]
      exact h.region p e he
    · exact h.region q f hf
  · exact fun q q' hq hq' => h.addrs q q' ((live q).mp hq) ((live q').mp hq')
  · intro r
    have hl := h.lists r
    refine ⟨hl.nodup, hl.head, hl.tail, hl.seg.congr fun q hq => ?_⟩
    have hne : q ≠ p := fun hc => h.not_listed r (hc ▸ hq)
    rw [links_setEntry, Function.update_of_ne hne]
  · intro r q hq
    obtain ⟨h1, f, hf, h2⟩ := h.member r q hq
    have hne : q ≠ p := fun hc => h.not_listed r (hc ▸ hq)
    refine ⟨h1, f, ?_, h2⟩
    rw [hs, if_neg hne]
    exact hf
  · exact fun q hq => h.listed q ((live q).mp hq)
  · exact fun q hq => (live q).mpr (h.pending q hq)

/-- The entry in transit becomes a member of the list of its region, once the
links say so. -/
theorem relist {p : EntryPtr} (h : WF s (some p) L) {r : RegionPtr} {e : ModEntry}
    {a b : List EntryPtr} (hr : L r = a ++ b) (he : s.entries p = some e)
    (hre : e.regionEntry = some r) (hreg : s.regionHd e.regionId = some r)
    (hc : t.core = s.core)
    (hl : ∀ q, t.links q = if q = p then some ⟨a.getLast?, b.head?⟩
      else Thread.setNext (Thread.setPrev s.links b.head? (some p)) a.getLast? (some p) q)
    (hh : ∀ x, (t.regions x).modsHead =
      if x = r then (a ++ p :: b).head? else (s.regions x).modsHead)
    (ht : ∀ x, (t.regions x).modsTail =
      if x = r then (a ++ p :: b).getLast? else (s.regions x).modsTail) :
    WF t none (Function.update L r (a ++ p :: b)) := by
  have hpab : p ∉ a ++ b := hr ▸ h.not_listed r
  have hnd : (a ++ p :: b).Nodup :=
    List.nodup_middle.mpr (List.nodup_cons.mpr ⟨hpab, hr ▸ (h.lists r).nodup⟩)
  have hmem : ∀ r' q, q ∈ Function.update L r (a ++ p :: b) r' ↔ q ∈ L r' ∨ q = p ∧ r' = r := by
    intro r' q
    by_cases hrr : r' = r
    · subst hrr
      simp only [Function.update_self, hr, List.mem_append, List.mem_cons, and_true]
      tauto
    · simp [hrr]
  refine h.of_core hc ?_ ?_ ?_ fun q hq => by cases hq
  · intro r'
    have hl' := h.lists r'
    by_cases hrr : r' = r
    · subst hrr
      rw [hr] at hl'
      rw [Function.update_self]
      refine ⟨hnd, by rw [hh, if_pos rfl], by rw [ht, if_pos rfl], hl'.seg.link_in hnd ?_ ?_⟩
      · rw [hl, if_pos rfl]
      · intro q hq
        have hne : q ≠ p := fun hc => hpab (hc ▸ hq)
        rw [hl, if_neg hne]
    · rw [Function.update_of_ne hrr]
      refine ⟨hl'.nodup, ?_, ?_, hl'.seg.congr fun q hq => ?_⟩
      · rw [hh, if_neg hrr, hl'.head]
      · rw [ht, if_neg hrr, hl'.tail]
      · have hqr : q ∉ a ++ b := fun hc => hrr (h.member_unique hq (hr ▸ hc))
        have hne : q ≠ p := fun hc => h.not_listed r' (hc ▸ hq)
        rw [hl, if_neg hne, Thread.setNext_of_ne, Thread.setPrev_of_ne]
        · exact fun hc => hqr (by simp [List.mem_of_head? hc])
        · exact fun hc => hqr (by simp [List.mem_of_getLast? hc])
  · intro r' q hq
    refine ⟨by simp, ?_⟩
    rcases (hmem r' q).mp hq with hq | ⟨rfl, rfl⟩
    · exact (h.member r' q hq).2
    · exact ⟨e, he, hre, hreg⟩
  · intro q hq _
    by_cases hqp : q = p
    · exact ⟨r, (hmem r q).mpr (.inr ⟨hqp, rfl⟩)⟩
    · obtain ⟨r', hr'⟩ := h.listed q hq fun hc => hqp (Option.some.inj hc).symm
      exact ⟨r', (hmem r' q).mpr (.inl hr')⟩

/-- Putting the entry in transit between `a` and `b` into the list of `r`. -/
theorem insertAfter_spec {p : EntryPtr} (h : WF s (some p) L) {r : RegionPtr} {e : ModEntry}
    {a b : List EntryPtr} (hr : L r = a ++ b) (he : s.entries p = some e)
    (hreg : s.regionHd e.regionId = some r) :
    ∃ m, s.moduleRegionInsertAfter r p a.getLast? = .ok (m.regionMarkSubtreeDirty r) ∧
      Relinked (s.setEntry p (some { e with regionEntry := some r })) m ∧
      WF m none (Function.update L r (a ++ p :: b)) := by
  have h0 : WF (s.setEntry p (some { e with regionEntry := some r })) (some p) L :=
    h.setEntry_pending he rfl rfl rfl
  have he0 : (s.setEntry p (some { e with regionEntry := some r })).entries p =
      some { e with regionEntry := some r } := by simp [setEntry]
  have hstore : s.store p (fun m => { m with regionEntry := some r }) =
      .ok (s.setEntry p (some { e with regionEntry := some r })) := store_ok.mpr ⟨e, he, rfl⟩
  have hreg0 : (s.setEntry p (some { e with regionEntry := some r })).regionHd e.regionId = some r :=
    hreg
  generalize s.setEntry p (some { e with regionEntry := some r }) = s0 at *
  have hl := h0.lists r
  rw [hr] at hl
  have hlive : ∀ q ∈ a ++ b, ∃ f, s0.entries q = some f ∧ q ≠ p := fun q hq => by
    obtain ⟨_, f, hf, _⟩ := h0.member r q (hr ▸ hq)
    have hne : q ≠ p := fun hc => h0.not_listed r (hr ▸ hc ▸ hq)
    exact ⟨f, hf, hne⟩
  -- the entry's own links, in either case
  let s1 := s0.setEntry p (some
    { e with regionEntry := some r, regionPrev := a.getLast?, regionNext := b.head? })
  have h1c : Relinked s0 s1 := ⟨setEntry_core_same he0 rfl, cells_setEntry he0 rfl rfl, rfl⟩
  have h1s : s0.store p (fun m =>
      { m with regionPrev := a.getLast?, regionNext := b.head? }) = .ok s1 :=
    store_ok.mpr ⟨_, he0, rfl⟩
  obtain ⟨m, hm, hrel, hml, hmt, hmh⟩ := linkPrev_spec (s := s1) (r := r) (q := b.head?)
    (v := some p) fun q hq => (live_of_core h1c.core q).mpr (by
      obtain ⟨f, hf, _⟩ := hlive q (by simp [List.mem_of_head? hq])
      rw [hf]
      simp)
  have hlinks : ∀ q, m.links q = if q = p then some ⟨a.getLast?, b.head?⟩
      else Thread.setPrev s0.links b.head? (some p) q := by
    intro q
    have hbp : b.head? ≠ some p := fun hc => h0.not_listed r (by
      rw [hr]
      simp [List.mem_of_head? hc])
    rw [hml, Thread.setPrev_apply, Thread.setPrev_apply, links_setEntry, Function.update_apply]
    by_cases hq : q = p
    · rw [if_pos hq, if_pos hq, if_neg (hq ▸ hbp)]
    · rw [if_neg hq, if_neg hq]
  have htails : ∀ x, (m.regions x).modsTail =
      if x = r then (a ++ p :: b).getLast? else (s0.regions x).modsTail := by
    intro x
    rw [hmt]
    by_cases hx : x = r
    · subst hx
      rw [if_pos rfl]
      cases b with
      | nil => simp
      | cons y b =>
          have htail : (s0.regions x).modsTail = (a ++ y :: b).getLast? := hl.tail
          rw [if_neg (by simp)]
          exact htail.trans (by simp [List.getLast?_append])
    · rw [if_neg hx, if_neg fun hc => hx hc.1]
      rfl
  have hrel0 : Relinked s0 m := h1c.trans hrel
  cases hlast : a.getLast? with
  | none =>
      have ha : a = [] := List.getLast?_eq_none_iff.mp hlast
      subst ha
      have hhead : (s0.regions r).modsHead = b.head? := hl.head
      refine ⟨m.setRegion r fun re => { re with modsHead := some p }, ?_, ?_, ?_⟩
      · refine Res.bind_ok.mpr ⟨s0, hstore, ?_⟩
        refine Res.bind_ok.mpr ⟨s1, ?_, Res.bind_ok.mpr ⟨m, ?_, rfl⟩⟩
        · rw [hhead]
          exact h1s
        · rw [hhead]
          exact hm
      · exact hrel0.trans (setHead_relinked m r (some p))
      · refine h0.relist hr he0 rfl hreg0 (hrel0.trans (setHead_relinked m r (some p))).core ?_ ?_ ?_
        · exact hlinks
        · intro x
          rw [regions_setRegion]
          split
          · simp
          · exact hmh x
        · intro x
          rw [regions_setRegion]
          split
          · exact (htails r).trans (if_pos rfl)
          · rename_i hx
            exact (htails x).trans (if_neg hx)
  | some q =>
      obtain ⟨a', ha⟩ : ∃ a', a = a' ++ [q] := List.getLast?_eq_some_iff.mp hlast
      have hqa : q ∈ a := by simp [ha]
      obtain ⟨f, hf, hqp⟩ := hlive q (by simp [hqa])
      have hnext : f.regionNext = b.head? := by
        have hseg := hl.seg
        rw [ha, List.append_assoc, List.singleton_append] at hseg
        have := hseg.at_mid
        simp only [links, hf, Option.map_some, Option.some.injEq, Thread.Link.mk.injEq] at this
        exact this.2
      obtain ⟨f', hf', -⟩ := entries_of_core hrel0.core hf
      have hrel2 : Relinked m (m.setEntry q (some { f' with regionNext := some p })) :=
        ⟨setEntry_core_same hf' rfl, cells_setEntry hf' rfl rfl, rfl⟩
      refine ⟨m.setEntry q (some { f' with regionNext := some p }), ?_, hrel0.trans hrel2, ?_⟩
      · refine Res.bind_ok.mpr ⟨s0, hstore, ?_⟩
        refine Res.bind_ok.mpr ⟨f, deref_ok.mpr hf, Res.bind_ok.mpr ⟨s1, ?_, Res.bind_ok.mpr ⟨m, ?_,
          Res.bind_ok.mpr ⟨_, store_ok.mpr ⟨f', hf', rfl⟩, rfl⟩⟩⟩⟩
        · rw [hnext, ← hlast]
          exact h1s
        · rw [hnext]
          exact hm
      · refine h0.relist hr he0 rfl hreg0 (hrel0.trans hrel2).core ?_ ?_ ?_
        · intro y
          have hlf : m.links q = some ⟨f'.regionPrev, f'.regionNext⟩ := by simp [links, hf']
          rw [links_setEntry, Function.update_apply, Thread.setNext_apply, hlast]
          by_cases hy : y = q
          · subst hy
            rw [if_pos rfl, if_neg hqp, if_pos rfl]
            rw [hlinks, if_neg hqp] at hlf
            rw [hlf]
            rfl
          · rw [if_neg hy, hlinks, hlast]
            by_cases hyp : y = p
            · rw [if_pos hyp, if_pos hyp]
            · rw [if_neg hyp, if_neg hyp, if_neg fun hc => hy (Option.some.inj hc).symm]
        · intro x
          show (m.regions x).modsHead = _
          rw [hmh x]
          split
          · rename_i hx
            subst hx
            have : (s1.regions x).modsHead = (a ++ b).head? := hl.head
            rw [this, ha]
            cases a' <;> simp
          · rfl
        · intro x
          exact htails x

end WF
end Xylem

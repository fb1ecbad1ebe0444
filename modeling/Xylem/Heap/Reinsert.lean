import Xylem.Heap.Order
import Xylem.Heap.Reloaded
import Xylem.Heap.Topple

namespace Xylem

open Xylem.Runtime

/-- What is left of the entries below `n` of `l` stands in `l'` in the same order. -/
def OrderKept (n : EntryPtr) (l l' : List EntryPtr) : Prop :=
  (l'.filter (· < n)).Sublist (l.filter (· < n))

section
variable {n q x y : EntryPtr} {l l' l'' a b a' b' : List EntryPtr}

theorem OrderKept.refl (n : EntryPtr) (l : List EntryPtr) : OrderKept n l l := List.Sublist.refl _

theorem OrderKept.trans (h : OrderKept n l l') (k : OrderKept n l' l'') : OrderKept n l l'' :=
  List.Sublist.trans k h

theorem Grown.orderKept (h : Grown n l l') : OrderKept n l l' := by
  have hs := h.old.filter (· < n)
  simp only [List.filter_filter, Bool.and_self] at hs
  exact hs

theorem OrderKept.moved (hq : n ≤ q) (h : a' ++ b' = a ++ b) :
    OrderKept n (a ++ q :: b) (a' ++ q :: b') := by
  have hdrop : ∀ c d : List EntryPtr, (c ++ q :: d).filter (· < n) = (c ++ d).filter (· < n) := by
    intro c d
    rw [List.filter_append, List.filter_cons_of_neg (by simpa using hq), ← List.filter_append]
  rw [OrderKept, hdrop, hdrop, h]

theorem OrderKept.pair (h : OrderKept n l l') (hx : x < n) (hy : y < n) (hs : [x, y].Sublist l') :
    [x, y].Sublist l := by
  have hpair := hs.filter (· < n)
  rw [List.filter_cons_of_pos (by simpa using hx), List.filter_cons_of_pos (by simpa using hy),
    List.filter_nil] at hpair
  exact (hpair.trans h).trans List.filter_sublist

theorem mem_of_pair (hnd : (a ++ b).Nodup) (hs : [x, y].Sublist (a ++ b)) (hy : y ∈ a) : x ∈ a := by
  obtain ⟨c, d, hcd, hc, hd⟩ := List.sublist_append_iff.mp hs
  cases c with
  | nil =>
      have hyb : y ∈ b := hd.subset (by rw [← List.nil_append d, ← hcd]; simp)
      exact absurd rfl ((List.nodup_append.mp hnd).2.2 y hy y hyb)
  | cons z c =>
      obtain rfl : x = z := (List.cons.inj hcd).1
      exact hc.subset List.mem_cons_self

/-- A list without repetitions is cut at its last entry before the cut. -/
theorem cut_unique (hnd : (a ++ b).Nodup) (h : a' ++ b' = a ++ b) (hl : a'.getLast? = a.getLast?) :
    a' = a ∧ b' = b := by
  rcases List.eq_nil_or_concat a with rfl | ⟨c, x, rfl⟩
  · obtain rfl : a' = [] := List.getLast?_eq_none_iff.mp hl
    exact ⟨rfl, h⟩
  · rw [List.concat_eq_append] at *
    rw [List.getLast?_append, List.getLast?_singleton, Option.some_or] at hl
    obtain ⟨c', rfl⟩ := List.getLast?_eq_some_iff.mp hl
    rw [List.append_assoc, List.append_assoc, List.singleton_append] at h
    rw [List.append_assoc, List.singleton_append] at hnd
    obtain ⟨-, hxb, hdisj⟩ := List.nodup_append.mp hnd
    have hxc : x ∉ c := fun hx => hdisj x hx x List.mem_cons_self rfl
    obtain ⟨rfl, -, rfl⟩ := (List.append_cons_inj_of_notMem hxc (List.nodup_cons.mp hxb).1).mp h.symm
    exact ⟨rfl, rfl⟩

/-- A list that is cut at the entry before `p` is cut where `p` stood. -/
theorem cut_between {c d : List EntryPtr} {p : EntryPtr} (hnd : (c ++ p :: d).Nodup)
    (hlt : ∀ x ∈ c ++ p :: d, x < n) (hk : OrderKept n (c ++ p :: d) (a ++ b))
    (hl : a.getLast? = c.getLast?) :
    (∀ x ∈ c, x ∈ a ++ b → x ∈ a) ∧ ∀ x ∈ d, x ∈ a ++ b → x ∈ b := by
  have below : ∀ {x}, x ∈ c ∨ x ∈ d → x < n := by
    rintro x (hx | hx)
    · exact hlt x (List.mem_append_left _ hx)
    · exact hlt x (List.mem_append_right _ (List.mem_cons_of_mem p hx))
  constructor
  · intro x hx hmem
    rcases List.eq_nil_or_concat c with rfl | ⟨c, z, rfl⟩
    · cases hx
    · rw [List.concat_eq_append] at *
      have hz : z ∈ a := List.mem_of_getLast? (hl.trans (by simp))
      rcases List.mem_append.mp hmem with ha | hb
      · exact ha
      · rcases List.mem_append.mp hx with hxc | hxz
        · -- `x` stands before `z` in the old list, and would stand behind it in the new one
          have hpair : [z, x].Sublist (a ++ b) :=
            List.Sublist.append (List.singleton_sublist.mpr hz) (List.singleton_sublist.mpr hb)
          have hold := hk.pair (below (.inl (by simp))) (below (.inl hx)) hpair
          rw [List.append_assoc] at hold hnd
          have hzc : z ∈ c := mem_of_pair hnd hold hxc
          exact absurd rfl ((List.nodup_append.mp hnd).2.2 z hzc z (by simp))
        · exact (List.mem_singleton.mp hxz) ▸ hz
  · intro x hx hmem
    rcases List.mem_append.mp hmem with ha | hb
    · exfalso
      rcases List.eq_nil_or_concat a with rfl | ⟨a, z, rfl⟩
      · cases ha
      · rw [List.concat_eq_append] at *
        have hz : z ∈ c := List.mem_of_getLast? (hl.symm.trans (by simp))
        have hdisj := (List.nodup_append.mp hnd).2.2
        rcases List.mem_append.mp ha with hxa | hxz
        · have hpair : [x, z].Sublist (a ++ [z] ++ b) :=
            (List.Sublist.append (List.singleton_sublist.mpr hxa) (List.Sublist.refl [z])).trans
              (List.sublist_append_left _ _)
          have hold := hk.pair (below (.inr hx)) (below (.inl hz)) hpair
          exact hdisj x (mem_of_pair hnd hold hz) x (List.mem_cons_of_mem p hx) rfl
        · exact hdisj z hz x (List.mem_cons_of_mem p hx) (List.mem_singleton.mp hxz).symm
    · exact hb

end

namespace Runtime
variable {s t : Runtime} {E : Env} {L : RegionPtr → List EntryPtr}

theorem finish_detaches (hw : WF s none L) {rf : ReloadFrame} (hok : s.ReloadOk E rf) {q : EntryPtr}
    (hl : s.moduleLookup E rf.fname rf.regionId = some q) :
    ∃ r a b m e, rf.regionEntry = some r ∧ L r = a ++ q :: b ∧ s.moduleRegionDetach q = .ok m ∧
      WF m (some q) (Function.update L r (a ++ b)) ∧ m.core = s.core ∧ m.entries q = some e ∧
      m.regionHd e.regionId = some r ∧ s.regionHd rf.regionId = some r := by
  obtain ⟨r, hr, hre⟩ := hok.region
  obtain ⟨e, he, -⟩ := hw.table _ q hl
  have hid : e.regionId = rf.regionId := hw.lookup_region hl he
  obtain ⟨r', -, hr', hq⟩ := hw.region_of he (by simp)
  rw [hid, hr, Option.some.injEq] at hr'
  subst hr'
  obtain ⟨a, b, hab⟩ := List.append_of_mem hq
  obtain ⟨m, hm, -, hwm⟩ := hw.moduleRegionDetach_spec hab
  have hcore : (m.regionMarkSubtreeDirty r).core = s.core := moduleRegionDetach_core hm
  obtain ⟨e1, he1, hc1⟩ := entries_of_core hcore he
  have hid1 : e1.regionId = e.regionId := (congrArg ModEntry.regionId hc1 : _)
  have hhd : (m.regionMarkSubtreeDirty r).regionHd = s.regionHd := congrArg Tree.hd (core_tree hcore)
  exact ⟨r, a, b, _, e1, hre, hab, hm, hwm.markDirty r, hcore, he1, by rw [hhd, hid1, hid, hr], hr⟩

theorem anchor_listed (hw : WF s none L) {rf : ReloadFrame} (hok : s.ReloadOk E rf) {q x : EntryPtr}
    {r : RegionPtr} {f : ModEntry} (hl : s.moduleLookup E rf.fname rf.regionId = some q)
    (hr : s.regionHd rf.regionId = some r) (hx : rf.insertAfter = some x) (hf : s.entries x = some f) :
    x ≠ q ∧ f.regionEntry = some r ∧ x ∈ L r := by
  obtain ⟨-, hfok⟩ := hok.anchor x hx
  obtain ⟨hfid, hfkey⟩ := hfok f hf
  obtain ⟨r', hre', hr', hxr⟩ := hw.region_of hf (by simp)
  rw [hfid, hr, Option.some.injEq] at hr'
  subst hr'
  refine ⟨?_, hre', hxr⟩
  rintro rfl
  obtain ⟨e, he, hek⟩ := hw.table _ x hl
  cases he.symm.trans hf
  exact hfkey hek

/-- The end of a reload finds no entry, or moves the one it finds behind the anchor. -/
theorem xyReloadFinish_lists (hw : WF s none L) {rf : ReloadFrame} (hok : s.ReloadOk E rf)
    (h : s.xyReloadFinish E rf = .ok t) :
    s.moduleLookup E rf.fname rf.regionId = none ∧ t = s ∨
      ∃ q r a b a' b', s.moduleLookup E rf.fname rf.regionId = some q ∧ rf.regionEntry = some r ∧
        L r = a ++ q :: b ∧ a' ++ b' = a ++ b ∧ rf.insertAfter = a'.getLast? ∧
        WF t none (Function.update L r (a' ++ q :: b')) := by
  unfold xyReloadFinish at h
  cases hl : s.moduleLookup E rf.fname rf.regionId with
  | none =>
      simp only [hl, Except.ok.injEq] at h
      exact .inl ⟨rfl, h.symm⟩
  | some q =>
      obtain ⟨r, a, b, m, e, hre, hab, hm, hwm, hcore, he, hhd, hr⟩ := finish_detaches hw hok hl
      simp only [hl, hre, Res.bind_ok, Except.ok.injEq] at h
      obtain ⟨m', hm', t', ht, rfl⟩ := h
      cases hm.symm.trans hm'
      have hanchor : ∀ x, rf.insertAfter = some x → x ≠ q ∧
          ∀ f, m.entries x = some f → f.regionEntry = some r := by
        intro x hx
        obtain ⟨-, hfok⟩ := hok.anchor x hx
        constructor
        · rintro rfl
          obtain ⟨e0, he0, hek⟩ := hw.table _ x hl
          exact (hfok e0 he0).2 hek
        · intro f hf
          obtain ⟨f0, hf0, hfc⟩ := entries_of_core hcore.symm hf
          obtain ⟨-, hf0r, -⟩ := anchor_listed hw hok hl hr hx hf0
          exact (congrArg ModEntry.regionEntry hfc : _).symm.trans hf0r
      obtain ⟨a', b', hcut, hlast⟩ := hwm.anchor_split (.inr hanchor) ht
      obtain ⟨m1, hm1, -, hw1⟩ := hwm.insertAfter_spec hcut he hhd
      rw [hlast] at ht
      cases hm1.symm.trans ht
      rw [Function.update_idem] at hw1
      rw [Function.update_self] at hcut
      exact .inr ⟨q, r, a, b, a', b', rfl, hre, hab, hcut.symm, hlast, hw1.markDirty r⟩

/-- The end of a reload that moves an entry has found its anchor alive. -/
theorem xyReloadFinish_anchor (hw : WF s none L) {rf : ReloadFrame} (hok : s.ReloadOk E rf)
    (hl : s.moduleLookup E rf.fname rf.regionId ≠ none) (h : s.xyReloadFinish E rf = .ok t)
    {x : EntryPtr} (hx : rf.insertAfter = some x) : s.entries x ≠ none := by
  rcases xyReloadFinish_lists hw hok h with ⟨hnone, -⟩ | ⟨q, r, a, b, a', b', -, -, hab, hcut, hlast, -⟩
  · exact absurd hnone hl
  · have hmem : x ∈ a ++ b := by
      rw [← hcut]
      exact List.mem_append_left b' (List.mem_of_getLast? (hlast.symm.trans hx))
    have hsub : (a ++ b).Sublist (L r) := by
      rw [hab]
      exact List.Sublist.append_left (List.sublist_cons_self q b) a
    exact hw.live_listed (hsub.subset hmem)

theorem xyReloadFinish_total (hw : WF s none L) {rf : ReloadFrame} (hok : s.ReloadOk E rf)
    (ha : ∀ x, rf.insertAfter = some x → s.entries x ≠ none) : ∃ t, s.xyReloadFinish E rf = .ok t := by
  unfold xyReloadFinish
  cases hl : s.moduleLookup E rf.fname rf.regionId with
  | none => exact ⟨s, rfl⟩
  | some q =>
      obtain ⟨r, a, b, m, e, hre, hab, hm, hwm, -, he, hhd, hr⟩ := finish_detaches hw hok hl
      have hsplit : ∃ a' b', a ++ b = a' ++ b' ∧ rf.insertAfter = a'.getLast? := by
        cases hx : rf.insertAfter with
        | none => exact ⟨[], a ++ b, rfl, rfl⟩
        | some x =>
            obtain ⟨f, hf⟩ := Option.ne_none_iff_exists'.mp (ha x hx)
            obtain ⟨hxq, -, hxr⟩ := anchor_listed hw hok hl hr hx hf
            have hmem : x ∈ a ++ b := by
              rw [hab, List.mem_append, List.mem_cons] at hxr
              rw [List.mem_append]
              exact hxr.imp_right fun h => h.resolve_left hxq
            obtain ⟨c, d, hcd⟩ := List.append_of_mem hmem
            exact ⟨c ++ [x], d, by rw [hcd, List.append_assoc, List.singleton_append], by simp⟩
      obtain ⟨a', b', hcut, hlast⟩ := hsplit
      have hcut' : Function.update L r (a ++ b) r = a' ++ b' := by rw [Function.update_self, hcut]
      obtain ⟨m1, hm1, -, -⟩ := hwm.insertAfter_spec hcut' he hhd
      rw [← hlast] at hm1
      simp only [hre]
      exact ⟨_, Res.bind_ok.mpr ⟨_, hm, Res.bind_ok.mpr ⟨_, hm1, rfl⟩⟩⟩

theorem regionPrev_eq (hw : WF s none L) {r : RegionPtr} {p : EntryPtr} {e : ModEntry}
    {a b : List EntryPtr} (hab : L r = a ++ p :: b) (he : s.entries p = some e) :
    e.regionPrev = a.getLast? := by
  have hseg := (hw.lists r).seg
  rw [hab] at hseg
  have hlink := hseg.at_mid
  rw [links, he] at hlink
  exact congrArg Thread.Link.prev (Option.some.inj hlink)

end Runtime
end Xylem

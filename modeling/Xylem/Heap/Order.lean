import Xylem.Heap.Inv

namespace Xylem

open Xylem.Runtime

/-- `l'` is what is left of `l`, with entries from `n` on behind it. -/
def Grown (n : EntryPtr) (l l' : List EntryPtr) : Prop :=
  ∃ old new, l' = old ++ new ∧ old.Sublist l ∧ ∀ p ∈ new, n ≤ p

section
variable {n : EntryPtr} {l l' l'' : List EntryPtr}

theorem Grown.refl (n : EntryPtr) (l : List EntryPtr) : Grown n l l :=
  ⟨l, [], (List.append_nil l).symm, List.Sublist.refl l, fun _ hp => (by cases hp)⟩

theorem Grown.of_sublist (h : l'.Sublist l) : Grown n l l' :=
  ⟨l', [], (List.append_nil l').symm, h, fun _ hp => (by cases hp)⟩

theorem Grown.trans (h : Grown n l l') (k : Grown n l' l'') : Grown n l l'' := by
  obtain ⟨old, new, rfl, hold, hnew⟩ := h
  obtain ⟨old', new', rfl, hold', hnew'⟩ := k
  obtain ⟨o, m, rfl, ho, hm⟩ := List.sublist_append_iff.mp hold'
  refine ⟨o, m ++ new', List.append_assoc _ _ _, ho.trans hold, fun p hp => ?_⟩
  rcases List.mem_append.mp hp with hp | hp
  · exact hnew p (hm.subset hp)
  · exact hnew' p hp

theorem Grown.old (h : Grown n l l') : (l'.filter (· < n)).Sublist l := by
  obtain ⟨old, new, rfl, hold, hnew⟩ := h
  have hnil : new.filter (· < n) = [] := by
    rw [List.filter_eq_nil_iff]
    intro p hp
    simpa using hnew p hp
  rw [List.filter_append, hnil, List.append_nil]
  exact List.filter_sublist.trans hold

end

namespace WF
variable {E : Env} {grant : RegionPtr → UInt8 → Prop} {s t : Runtime} {x y : Transit}
  {L : RegionPtr → List EntryPtr} {n : EntryPtr}

theorem grown_update {l : List EntryPtr} {r : RegionPtr} (h : Grown n (L r) l) :
    ∀ r', Grown n (L r') (Function.update L r l r') := by
  intro r'
  by_cases hr : r' = r
  · subst hr
    rwa [Function.update_self]
  · rw [Function.update_of_ne hr]
    exact .refl n _

theorem lists_eq {L' : RegionPtr → List EntryPtr} (h : WF s none L) (h' : WF t none L')
    (hlinks : ∀ p, t.links p = s.links p)
    (hhead : ∀ r, (t.regions r).modsHead = (s.regions r).modsHead) : L' = L := by
  funext r
  refine (h.lists r).seg.unique ((h'.lists r).seg.congr fun p _ => (hlinks p).symm) ?_
  rw [← (h.lists r).head, ← (h'.lists r).head, hhead]

/-- A straight operation takes from the lists, or puts the new entry in transit at the end
of one. -/
theorem straight (h : WF s x.entry L) (hp : Straight E grant (s, x) (t, y)) :
    ∃ L', WF t y.entry L' ∧ ((∀ r, (L' r).Sublist (L r)) ∨
      ∃ p r, x = .fresh p ∧ y = .none ∧ L' = Function.update L r (L r ++ [p])) := by
  rcases h.prim_lists hp.prim with hw | ⟨p, rfl, r, a, b, hab, hw⟩ |
    ⟨r, p, a, b, hxp, rfl, hab, hw⟩
  · exact ⟨L, hw, .inl fun r => List.Sublist.refl _⟩
  · refine ⟨_, hw, .inl fun r' => ?_⟩
    by_cases hr : r' = r
    · subst hr
      rw [Function.update_self, hab]
      exact List.Sublist.append_left (List.sublist_cons_self p b) a
    · rw [Function.update_of_ne hr]
  · have hlive : t.entries p ≠ none := hw.live_listed (r := r) (by simp)
    cases x with
    | none => cases hxp
    | leaving q =>
        cases hxp
        exact absurd (hp.gone p rfl rfl) hlive
    | fresh q =>
        cases hxp
        obtain ⟨e, r', he, hr', happ⟩ := (hp.last p rfl rfl).resolve_left hlive
        obtain ⟨m, hm, -, hw'⟩ := h.insertAfter_spec (List.append_nil (L r')).symm he hr'
        rw [moduleRegionAppend, (h.lists r').tail] at happ
        cases happ.symm.trans hm
        exact ⟨_, hw'.markDirty r', .inr ⟨p, r', rfl, rfl, rfl⟩⟩

theorem straights {b : Runtime × Transit} (h : WF s none L) (hn : n ≤ s.entryNext)
    (hp : Straights E grant (s, .none) b) :
    ∃ L', WF b.1 b.2.entry L' ∧ (∀ r, Grown n (L r) (L' r)) ∧ n ≤ b.1.entryNext ∧
      ∀ p, b.2 = .fresh p → n ≤ p := by
  induction hp with
  | refl => exact ⟨L, h, fun r => .refl n _, hn, fun p hp => (by cases hp)⟩
  | @tail m b _ hs ih =>
      obtain ⟨L1, h1, hg, hn1, hf1⟩ := ih
      obtain ⟨k1, k2, -⟩ := hs.prim.old hn1 hf1
      obtain ⟨L2, h2, hg'⟩ := h1.straight hs
      refine ⟨L2, h2, fun r => (hg r).trans ?_, k1, k2⟩
      rcases hg' with hg' | ⟨p, r', hx, -, rfl⟩
      · exact .of_sublist (hg' r)
      · refine grown_update ⟨L1 r', [p], rfl, List.Sublist.refl _, ?_⟩ r
        exact fun q hq => (List.mem_singleton.mp hq) ▸ hf1 p hx

/-- Every list is in the order in which its entries were made. -/
def Ascending (L : RegionPtr → List EntryPtr) : Prop := ∀ r, (L r).Pairwise (· < ·)

theorem straights_ascending {b : Runtime × Transit} (h : WF s none L) (hL : Ascending L)
    (hp : Straights E grant (s, .none) b) :
    ∃ L', WF b.1 b.2.entry L' ∧ Ascending L' ∧ ∀ p, b.2 = .fresh p → ∀ r, ∀ q ∈ L' r, q < p := by
  induction hp with
  | refl => exact ⟨L, h, hL, fun p hp => (by cases hp)⟩
  | @tail m b _ hs ih =>
      obtain ⟨L1, h1, hL1, hf1⟩ := ih
      obtain ⟨L2, h2, hg⟩ := h1.straight hs
      obtain ⟨m, x⟩ := m
      obtain ⟨u, y⟩ := b
      rcases hg with hg | ⟨p, r', rfl, rfl, rfl⟩
      · refine ⟨L2, h2, fun r => (hL1 r).sublist (hg r), fun p hy r q hq => ?_⟩
        have hq1 := (hg r).subset hq
        obtain rfl : y = .fresh p := hy
        -- an entry that was in transit before is above the list, and so is one made just now
        cases hs.prim <;> first | exact hf1 p rfl r q hq1 | exact h1.mem_lt hq1
      · refine ⟨_, h2, fun r => ?_, fun p hy => (by cases hy)⟩
        by_cases hr : r = r'
        · subst hr
          rw [Function.update_self]
          refine List.pairwise_append.mpr ⟨hL1 r, List.pairwise_singleton _ _, fun q hq p' hp' => ?_⟩
          exact (List.mem_singleton.mp hp') ▸ hf1 p rfl r q hq
        · rw [Function.update_of_ne hr]
          exact hL1 r

end WF
end Xylem

import Xylem.Heap.Rollback

namespace Xylem
namespace Runtime
open Forest

variable {s t u : Runtime} {E : Env}

def LastRef (s : Runtime) (q : EntryPtr) : Prop := ∃ e, s.core.entries q = some e ∧ e.refcount ≤ 1

def SharedRef (s : Runtime) (q : EntryPtr) : Prop :=
  ∃ e, s.core.entries q = some e ∧ 1 < e.refcount

/-- The entries that go with `p`. -/
inductive Falls (s : Runtime) (p : EntryPtr) : EntryPtr → Prop
  | root : Falls s p p
  | child {y c : EntryPtr} (hy : Falls s p y) (hc : s.loader c = some y) (h : s.LastRef c) :
      Falls s p c

def Loses (s : Runtime) (p q : EntryPtr) : Prop :=
  s.SharedRef q ∧ ∃ y, s.loader q = some y ∧ Falls s p y

/-- The cascade finds this entry again by the path its context holds. -/
def Found (E : Env) (s : Runtime) (c : EntryPtr) : Prop :=
  ∃ e x path, s.core.entries c = some e ∧ e.ctx = some x ∧ (s.ctxs x).modulePath = .str path ∧
    E.moduleLoadPath path = e.loadPath

/-- The children that the cascade collects by address are those the falling entries have
loaded, and it finds them all. -/
def Topples (E : Env) (s : Runtime) (p : EntryPtr) : Prop :=
  ∀ y, Falls s p y → ∀ c ∈ s.childrenOf E y, s.loader c = some y ∧ Found E s c

def Older (s : Runtime) : Prop := ∀ c p, s.loader c = some p → p < c

theorem Older.ranked (h : Older s) : Ranked s.loader id := h

/-- `t` is `s` without the entries in `gone` and with one reference less to those in `lost`. -/
structure Hit (s t : Runtime) (gone lost : EntryPtr → Prop) : Prop where
  dead : ∀ q, gone q → t.core.entries q = none
  less : ∀ q, lost q → t.core.entries q =
    (s.core.entries q).map fun e => { e with refcount := e.refcount - 1 }
  kept : ∀ q, ¬ gone q → ¬ lost q → t.core.entries q = s.core.entries q
  ctxs : t.ctxs = s.ctxs
  addr : t.addr = s.addr
  next : t.entryNext = s.entryNext

theorem Hit.refl (s : Runtime) {gone lost : EntryPtr → Prop} (h : ∀ q, ¬ gone q)
    (k : ∀ q, ¬ lost q) : Hit s s gone lost :=
  ⟨fun q hq => absurd hq (h q), fun q hq => absurd hq (k q), fun _ _ _ => rfl, rfl, rfl, rfl⟩

/-- Two hits on different entries. -/
theorem Hit.trans {gone lost gone' lost' gone'' lost'' : EntryPtr → Prop} (h : Hit s t gone lost)
    (k : Hit t u gone' lost') (hapart : ∀ q, gone q ∨ lost q → ¬ (gone' q ∨ lost' q))
    (hg : ∀ q, gone'' q ↔ gone q ∨ gone' q) (hl : ∀ q, lost'' q ↔ lost q ∨ lost' q) :
    Hit s u gone'' lost'' := by
  refine ⟨fun q hq => ?_, fun q hq => ?_, fun q hq hq' => ?_, k.ctxs.trans h.ctxs,
    k.addr.trans h.addr, k.next.trans h.next⟩
  · rcases (hg q).mp hq with hq | hq
    · have hnot := not_or.mp (hapart q (.inl hq))
      exact (k.kept q hnot.1 hnot.2).trans (h.dead q hq)
    · exact k.dead q hq
  · rcases (hl q).mp hq with hq | hq
    · have hnot := not_or.mp (hapart q (.inr hq))
      exact (k.kept q hnot.1 hnot.2).trans (h.less q hq)
    · rw [k.less q hq, h.kept q (fun hc => hapart q (.inl hc) (.inr hq))
        fun hc => hapart q (.inr hc) (.inr hq)]
  · rw [hg, not_or] at hq
    rw [hl, not_or] at hq'
    exact (k.kept q hq.2 hq'.2).trans (h.kept q hq.1 hq'.1)

theorem Hit.loader {gone lost : EntryPtr → Prop} (h : Hit s t gone lost) {q y : EntryPtr}
    (hq : t.loader q = some y) : s.loader q = some y ∧ ¬ gone q := by
  rw [loader_core] at hq ⊢
  by_cases hg : gone q
  · rw [h.dead q hg] at hq
    cases hq
  · refine ⟨?_, hg⟩
    by_cases hl : lost q
    · rw [h.less q hl] at hq
      cases hs : s.core.entries q with
      | none =>
          rw [hs] at hq
          cases hq
      | some e =>
          rw [hs] at hq
          exact hq
    · rw [h.kept q hg hl] at hq
      exact hq

theorem Hit.older {gone lost : EntryPtr → Prop} (h : Hit s t gone lost) (ho : Older s) : Older t :=
  fun c p hcp => ho c p (h.loader hcp).1

theorem mem_childrenOf_addr {L : RegionPtr → List EntryPtr} (hw : WF s none L) {p c : EntryPtr} :
    c ∈ s.childrenOf E p ↔ c ≠ p ∧ ∃ q, s.loader c = some q ∧ s.addr q = s.addr p := by
  simp only [childrenOf, modEntries, List.mem_filter, (E.iterOrder_perm _).mem_iff]
  constructor
  · rintro ⟨-, hc⟩
    split at hc
    · rename_i e he
      simp only [Bool.and_eq_true, decide_eq_true_eq] at hc
      refine ⟨hc.1, ?_⟩
      have hq := hc.2
      split at hq
      · rename_i q hpar
        refine ⟨q, ?_, of_decide_eq_true hq⟩
        rw [loader, he]
        exact hpar
      · cases hq
    · cases hc
  · rintro ⟨hne, q, hl, haddr⟩
    obtain ⟨e, he, hpar⟩ := live_of_loader hl
    have hkey := AList.mem_lookup_iff.mp (hw.key c e he).2
    refine ⟨List.mem_map.mpr ⟨_, hkey, rfl⟩, ?_⟩
    simp only [he, hpar, haddr, decide_true, Bool.and_true, decide_eq_true_eq]
    exact hne

theorem Falls.anc {p q : EntryPtr} (h : Falls s p q) : Anc s.loader p q := by
  induction h with
  | root => exact .refl p
  | child hy hc hl ih => exact ih.of_parent hc

/-- An entry that falls is the unloaded one, or goes with a child of it. -/
theorem falls_iff {p q : EntryPtr} : Falls s p q ↔
    q = p ∨ ∃ c, s.loader c = some p ∧ s.LastRef c ∧ Falls s c q := by
  constructor
  · intro h
    induction h with
    | root => exact .inl rfl
    | @child y c hy hc hl ih =>
        rcases ih with rfl | ⟨d, hd, hld, hyd⟩
        · exact .inr ⟨c, hc, hl, .root⟩
        · exact .inr ⟨d, hd, hld, .child hyd hc hl⟩
  · rintro (rfl | ⟨c, hc, hl, hq⟩)
    · exact .root
    · induction hq with
      | root => exact .child .root hc hl
      | child hy hc' hl' ih => exact .child ih hc' hl'

theorem loses_iff {p q : EntryPtr} : s.Loses p q ↔ ∃ c, s.loader c = some p ∧
    (s.LastRef c ∧ s.Loses c q ∨ s.SharedRef c ∧ q = c) := by
  constructor
  · rintro ⟨hs, y, hy, hf⟩
    rcases falls_iff.mp hf with rfl | ⟨c, hc, hl, hyc⟩
    · exact ⟨q, hy, .inr ⟨hs, rfl⟩⟩
    · exact ⟨c, hc, .inl ⟨hl, hs, y, hy, hyc⟩⟩
  · rintro ⟨c, hc, ⟨hl, hs, y, hy, hyc⟩ | ⟨hs, rfl⟩⟩
    · exact ⟨hs, y, hy, falls_iff.mpr (.inr ⟨c, hc, hl, hyc⟩)⟩
    · exact ⟨hs, p, hc, .root⟩

theorem Loses.anc {p q : EntryPtr} (h : s.Loses p q) : Anc s.loader p q := by
  obtain ⟨-, y, hy, hf⟩ := h
  exact hf.anc.of_parent hy

/-- `t` has the subtree of `c` that `s` has. -/
structure SameBelow (s t : Runtime) (c : EntryPtr) : Prop where
  entries : ∀ q, Anc s.loader c q → t.core.entries q = s.core.entries q
  loader : ∀ q y, t.loader q = some y → s.loader q = some y
  ctxs : t.ctxs = s.ctxs
  addr : t.addr = s.addr

namespace SameBelow
variable {c q : EntryPtr}

theorem link (h : SameBelow s t c) (hq : Anc s.loader c q) : t.loader q = s.loader q :=
  loader_congr (h.entries q hq)

theorem falls (h : SameBelow s t c) : Falls t c q ↔ Falls s c q := by
  constructor
  · intro hf
    induction hf with
    | root => exact .root
    | @child y d hy hd hl ih =>
        have hds := h.loader d y hd
        obtain ⟨e, he, hone⟩ := hl
        exact .child ih hds ⟨e, (h.entries d (ih.anc.of_parent hds)).symm.trans he, hone⟩
  · intro hf
    induction hf with
    | root => exact .root
    | @child y d hy hd hl ih =>
        have hanc := hy.anc.of_parent hd
        obtain ⟨e, he, hone⟩ := hl
        exact .child ih ((h.link hanc).trans hd) ⟨e, (h.entries d hanc).trans he, hone⟩

theorem loses (h : SameBelow s t c) : t.Loses c q ↔ s.Loses c q := by
  constructor
  · rintro ⟨⟨e, he, hs⟩, y, hy, hf⟩
    have hys := h.loader q y hy
    have hfs := h.falls.mp hf
    exact ⟨⟨e, (h.entries q (hfs.anc.of_parent hys)).symm.trans he, hs⟩, y, hys, hfs⟩
  · rintro ⟨⟨e, he, hs⟩, y, hy, hf⟩
    have hanc := hf.anc.of_parent hy
    exact ⟨⟨e, (h.entries q hanc).trans he, hs⟩, y, (h.link hanc).trans hy, h.falls.mpr hf⟩

theorem found (h : SameBelow s t c) (hq : Anc s.loader c q) (hf : Found E s q) : Found E t q := by
  obtain ⟨e, x, path, he, hx, hpath, hload⟩ := hf
  refine ⟨e, x, path, (h.entries q hq).trans he, hx, ?_, hload⟩
  rw [h.ctxs]
  exact hpath

theorem topples {L L' : RegionPtr → List EntryPtr} (h : SameBelow s t c) (hs : WF s none L)
    (ht : WF t none L') (hc : Topples E s c) : Topples E t c := by
  intro y hy d hd
  obtain ⟨hne, q, hq, haddr⟩ := (mem_childrenOf_addr ht).mp hd
  rw [h.addr] at haddr
  obtain ⟨hdy, hfound⟩ := hc y (h.falls.mp hy) d
    ((mem_childrenOf_addr hs).mpr ⟨hne, q, h.loader d q hq, haddr⟩)
  have hanc := (h.falls.mp hy).anc.of_parent hdy
  exact ⟨(h.link hanc).trans hdy, h.found hanc hfound⟩

end SameBelow

/-- What an unload with this much fuel leaves, when it ends. -/
def ToppleSpec (E : Env) (n : Nat) : Prop :=
  ∀ {s t : Runtime} {fname : String} {region : RegionId} {p : EntryPtr} {e : ModEntry} {ret : Int},
    (∃ L, WF s none L) → Older s → s.moduleLookup E fname region = some p →
    s.entries p = some e → e.refcount ≤ 1 → Topples E s p →
    s.modUnload E n fname region = .ok (t, ret) → Hit s t (Falls s p) (s.Loses p)

theorem release_hit {p : EntryPtr} {e : ModEntry} (he : s.entries p = some e) :
    Hit s (s.release p e) (fun _ => False) (· = p) := by
  refine ⟨nofun, fun q hq => ?_, fun q _ hq => release_kept e hq, rfl, rfl, rfl⟩
  subst hq
  show ((s.release q e).entries q).map ModEntry.core = ((s.entries q).map ModEntry.core).map _
  rw [release_entries, if_pos rfl, he]
  rfl

theorem modUnload_shared {n : Nat} {fname : String} {region : RegionId} {p : EntryPtr} {e : ModEntry}
    {r : Runtime × Int} (hl : s.moduleLookup E fname region = some p) (he : s.entries p = some e)
    (hs : 1 < e.refcount) (h : s.modUnload E n fname region = .ok r) : r = (s.release p e, xyOk) := by
  cases n with
  | zero => cases h
  | succ n =>
      simp only [modUnload, hl, deref_ok.mpr he] at h
      have hpos : 0 < e.refcount - 1 := Int.sub_pos_of_lt hs
      have h' : .ok (s.release p e, xyOk) = (.ok r : Res (Runtime × Int)) := (if_pos hpos).symm.trans h
      exact (Except.ok.inj h').symm

theorem lastRef_not_shared {q : EntryPtr} (h : s.LastRef q) : ¬ s.SharedRef q := by
  rintro ⟨e, he, hs⟩
  obtain ⟨e', he', hone⟩ := h
  cases he.symm.trans he'
  omega

theorem modUnloadChild_hit {n : Nat} (spec : ToppleSpec E n) {L L' : RegionPtr → List EntryPtr}
    (hs : WF s none L) (hu : WF u none L') (ho : Older u) {c : EntryPtr} (hb : SameBelow s u c)
    (hfound : Found E s c) (htop : s.LastRef c → Topples E s c)
    (h : modUnloadChild (modUnload E n) u c = .ok t) :
    Hit u t (fun q => s.LastRef c ∧ Falls s c q)
      fun q => s.LastRef c ∧ s.Loses c q ∨ s.SharedRef c ∧ q = c := by
  obtain ⟨e, x, path, he, hx, hpath, hload⟩ := hb.found (.refl c) hfound
  obtain ⟨child, hchild, rfl⟩ :=
    Option.map_eq_some_iff.mp (show (u.entries c).map ModEntry.core = some e from he)
  have hx : child.ctx = some x := hx
  have hload : E.moduleLoadPath path = child.loadPath := hload
  have hes : s.core.entries c = some child.core := (hb.entries c (.refl c)).symm.trans he
  have hlook : u.moduleLookup E path child.regionId = some c := by
    rw [moduleLookup, hload, ← (hu.key c child hchild).1]
    exact (hu.key c child hchild).2
  simp only [modUnloadChild, Res.bind_ok, deref_ok] at h
  obtain ⟨child', hchild', h⟩ := h
  cases hchild.symm.trans hchild'
  simp only [hx, hpath] at h
  obtain ⟨r, hr, rfl⟩ := Res.map_ok.mp h
  by_cases hone : child.refcount ≤ 1
  · have hlast : s.LastRef c := ⟨_, hes, hone⟩
    have hit := spec ⟨L', hu⟩ ho hlook hchild hone (hb.topples hs hu (htop hlast)) hr
    refine ⟨fun q hq => hit.dead q (hb.falls.mpr hq.2), fun q hq => ?_, fun q hq hq' => ?_, hit.ctxs,
      hit.addr, hit.next⟩
    · rcases hq with ⟨-, hq⟩ | ⟨hq, -⟩
      · exact hit.less q (hb.loses.mpr hq)
      · exact absurd hq (lastRef_not_shared hlast)
    · exact hit.kept q (fun hf => hq ⟨hlast, hb.falls.mp hf⟩)
        fun hl => hq' (.inl ⟨hlast, hb.loses.mp hl⟩)
  · have hshared : s.SharedRef c := ⟨_, hes, not_le.mp hone⟩
    have hnot : ¬ s.LastRef c := fun hl => lastRef_not_shared hl hshared
    rw [modUnload_shared hlook hchild (not_le.mp hone) hr]
    have hit := release_hit hchild
    exact ⟨fun q hq => absurd hq.1 hnot, fun q hq => hit.less q (hq.resolve_left fun hc => hnot hc.1).2,
      fun q _ hq => hit.kept q id fun hc => hq (.inr ⟨hshared, hc⟩), hit.ctxs, hit.addr, hit.next⟩

/-- The cascade over the children `l` of `p`, once it is through with `past`. -/
theorem cascade_hit {n : Nat} (spec : ToppleSpec E n) {L : RegionPtr → List EntryPtr}
    (hs : WF s none L) (ho : Older s) {p : EntryPtr}
    (htop : ∀ c, s.loader c = some p → c ∈ s.childrenOf E p →
      Found E s c ∧ (s.LastRef c → Topples E s c))
    {l : List EntryPtr} (past : List EntryPtr)
    (hl : ∀ c ∈ l, s.loader c = some p ∧ c ∈ s.childrenOf E p)
    (hpast : ∀ c ∈ past, s.loader c = some p) (hnd : (past ++ l).Nodup) (hu : ∃ L, WF u none L)
    (hh : Hit s u (fun q => ∃ c ∈ past, s.LastRef c ∧ Falls s c q)
      fun q => ∃ c ∈ past, s.LastRef c ∧ s.Loses c q ∨ s.SharedRef c ∧ q = c)
    (h : l.foldlM (modUnloadChild (modUnload E n)) u = .ok t) :
    Hit s t (fun q => ∃ c ∈ past ++ l, s.LastRef c ∧ Falls s c q)
      fun q => ∃ c ∈ past ++ l, s.LastRef c ∧ s.Loses c q ∨ s.SharedRef c ∧ q = c := by
  induction l generalizing past u with
  | nil =>
      cases h
      rw [List.append_nil]
      exact hh
  | cons c l ih =>
      rw [List.foldlM_cons] at h
      obtain ⟨v, hv, h⟩ := Res.bind_ok.mp h
      obtain ⟨hc, hmem⟩ := hl c List.mem_cons_self
      obtain ⟨hfound, hfall⟩ := htop c hc hmem
      obtain ⟨L', hwu⟩ := hu
      -- the rounds before this one were about other subtrees
      have apart : ∀ q, Anc s.loader c q →
          ¬ ((∃ d ∈ past, s.LastRef d ∧ Falls s d q) ∨
            ∃ d ∈ past, s.LastRef d ∧ s.Loses d q ∨ s.SharedRef d ∧ q = d) := by
        intro q hq hpq
        have hd : ∃ d ∈ past, Anc s.loader d q := by
          rcases hpq with ⟨d, hd, -, hf⟩ | ⟨d, hd, ⟨-, hf⟩ | ⟨-, rfl⟩⟩
          · exact ⟨d, hd, hf.anc⟩
          · exact ⟨d, hd, hf.anc⟩
          · exact ⟨q, hd, .refl q⟩
        obtain ⟨d, hd, hdq⟩ := hd
        obtain rfl := siblings_apart ho.ranked hc (hpast d hd) hq hdq
        exact (List.nodup_append.mp hnd).2.2 c hd c List.mem_cons_self rfl
      have hb : SameBelow s u c :=
        ⟨fun q hq => hh.kept q (fun hg => apart q hq (.inl hg)) fun hg => apart q hq (.inr hg),
          fun q y hqy => (hh.loader hqy).1, hh.ctxs, hh.addr⟩
      have hround := modUnloadChild_hit spec hs hwu (hh.older ho) hb hfound hfall hv
      have hbelow : ∀ q, (s.LastRef c ∧ Falls s c q) ∨
          (s.LastRef c ∧ s.Loses c q ∨ s.SharedRef c ∧ q = c) → Anc s.loader c q := by
        rintro q (⟨-, hf⟩ | ⟨-, hf⟩ | ⟨-, rfl⟩)
        · exact hf.anc
        · exact hf.anc
        · exact .refl q
      have hnext : Hit s v (fun q => ∃ d ∈ past ++ [c], s.LastRef d ∧ Falls s d q)
          fun q => ∃ d ∈ past ++ [c], s.LastRef d ∧ s.Loses d q ∨ s.SharedRef d ∧ q = d := by
        refine hh.trans hround (fun q hq hq' => apart q (hbelow q hq') hq) (fun q => ?_) fun q => ?_
        · simp only [List.mem_append, List.mem_singleton, or_and_right, exists_or, exists_eq_left]
        · simp only [List.mem_append, List.mem_singleton, or_and_right, exists_or, exists_eq_left]
      have hprims : Prims E (fun _ _ => True) (u, .none) (v, .none) := modUnloadChild_prims hv
      have hall := ih (past ++ [c]) (fun d hd => hl d (List.mem_cons_of_mem c hd)) ?_
        (by simpa using hnd) (WF.prims (x := .none) (y := .none) hwu hprims) hnext h
      · simpa using hall
      · intro d hd
        rcases List.mem_append.mp hd with hd | hd
        · exact hpast d hd
        · rw [List.mem_singleton.mp hd]
          exact hc

/-- Below a child of `p`, giving back a reference of `p` changes nothing. -/
theorem release_below (ho : Older s) {p c : EntryPtr} {e : ModEntry} (he : s.entries p = some e)
    (hc : s.loader c = some p) : SameBelow s (s.release p e) c := by
  refine ⟨fun q hq => release_kept e ?_, fun q y hqy => ?_, rfl, rfl⟩
  · rintro rfl
    exact absurd (hq.rank_le ho.ranked) (not_le.mpr (ho c q hc))
  · rw [release_loader he] at hqy
    exact hqy

theorem modUnload_topples (E : Env) (n : Nat) : ToppleSpec E n := by
  induction n with
  | zero =>
      intro s t fname region p e ret _ _ _ _ _ _ h
      cases h
  | succ n ih =>
      rintro s t fname region p e ret ⟨L, hw⟩ ho hlook he hone htop h
      rw [modUnload_last hlook he hone] at h
      obtain ⟨u, hu, h⟩ := Res.bind_ok.mp h
      obtain ⟨v, hv, h⟩ := Res.bind_ok.mp h
      cases h
      have hw1 : WF (s.release p e) none L := hw.setEntry_same he rfl rfl rfl
      have hloader : (s.release p e).loader = s.loader := release_loader he
      have ho1 : Older (s.release p e) := fun c q hcq => ho c q (hloader ▸ hcq)
      have hmem : ∀ {y c}, c ∈ (s.release p e).childrenOf E y ↔ c ∈ s.childrenOf E y := by
        intro y c
        rw [mem_childrenOf_addr hw1, mem_childrenOf_addr hw, hloader]
        rfl
      have hlast : ∀ {c}, s.loader c = some p → ((s.release p e).LastRef c ↔ s.LastRef c) ∧
          ((s.release p e).SharedRef c ↔ s.SharedRef c) := by
        intro c hc
        have hk := (release_below ho he hc).entries c (.refl c)
        simp only [LastRef, SharedRef, hk, and_self]
      have hchild : ∀ c ∈ (s.release p e).childrenOf E p, s.loader c = some p ∧ Found E s c :=
        fun c hc => htop p .root c (hmem.mp hc)
      have hall := cascade_hit ih hw1 ho1 (p := p) (fun c hc hcm => ?_) []
        (fun c hc => ⟨by rw [hloader]; exact (hchild c hc).1, hc⟩) (List.forall_mem_nil _)
        (childrenOf_nodup hw1 p) ⟨L, hw1⟩ (.refl _ (by simp) (by simp)) hu
      · rw [List.nil_append] at hall
        have hend := modUnloadEntry_pruned hv
        -- the children by address are the children
        have hkids : ∀ c, c ∈ (s.release p e).childrenOf E p ↔ s.loader c = some p := by
          intro c
          refine ⟨fun hc => (hchild c hc).1, fun hc => ?_⟩
          exact (mem_childrenOf_addr hw1).mpr ⟨(ho c p hc).ne', p, by rw [hloader]; exact hc, rfl⟩
        have hfalls : ∀ q, Falls s p q ↔ q = p ∨ ∃ c ∈ (s.release p e).childrenOf E p,
            (s.release p e).LastRef c ∧ Falls (s.release p e) c q := by
          intro q
          rw [falls_iff]
          refine or_congr_right (exists_congr fun c => ?_)
          rw [hkids]
          exact and_congr_right fun hc => and_congr (hlast hc).1.symm (release_below ho he hc).falls.symm
        have hloses : ∀ q, s.Loses p q ↔ ∃ c ∈ (s.release p e).childrenOf E p,
            (s.release p e).LastRef c ∧ (s.release p e).Loses c q ∨
              (s.release p e).SharedRef c ∧ q = c := by
          intro q
          rw [loses_iff]
          refine exists_congr fun c => ?_
          rw [hkids]
          refine and_congr_right fun hc => or_congr ?_ (and_congr_left fun _ => (hlast hc).2.symm)
          exact and_congr (hlast hc).1.symm (release_below ho he hc).loses.symm
        have hne : ∀ c q, s.loader c = some p → Anc s.loader c q → q ≠ p := by
          rintro c q hc hq rfl
          exact absurd (hq.rank_le ho.ranked) (not_le.mpr (ho c q hc))
        refine ⟨fun q hq => ?_, fun q hq => ?_, fun q hq hq' => ?_, hend.ctxs.trans hall.ctxs,
          hend.addr.trans hall.addr, hend.next.trans hall.next⟩
        · by_cases hqp : q = p
          · show (t.entries q).map ModEntry.core = none
            rw [hend.dead q hqp]
            rfl
          · rw [hend.kept q hqp]
            exact hall.dead q (((hfalls q).mp hq).resolve_left hqp)
        · obtain ⟨c, hc, hcq⟩ := loses_iff.mp hq
          have hqp : q ≠ p := by
            rcases hcq with ⟨-, hcq⟩ | ⟨-, rfl⟩
            · exact hne c q hc hcq.anc
            · exact hne q q hc (.refl q)
          rw [hend.kept q hqp, hall.less q ((hloses q).mp hq), release_kept e hqp]
        · have hqp : q ≠ p := fun hqp => hq ((hfalls q).mpr (.inl hqp))
          rw [hend.kept q hqp, hall.kept q (fun hf => hq ((hfalls q).mpr (.inr hf)))
            fun hl => hq' ((hloses q).mpr hl), release_kept e hqp]
      · rw [hloader] at hc
        have hb := release_below ho he hc
        refine ⟨hb.found (.refl c) (hchild c hcm).2, fun hl => ?_⟩
        refine hb.topples hw hw1 fun y hy => htop y ?_
        exact falls_iff.mpr (.inr ⟨c, hc, (hlast hc).1.mp hl, hy⟩)

end Runtime
end Xylem

import Xylem.Heap.Denied
import Xylem.Runs.Elementary
import Xylem.Runs.HookDenies

namespace Xylem

open Xylem.Runtime

namespace Tree
variable {T T' : Tree} {A R : RegionPtr} {path : String}

/-- Calls from `R`, at or below `A`, look at the denies in `A` when they build a vector. -/
structure Looks (T : Tree) (A R : RegionPtr) : Prop where
  lt : R < T.next
  anc : Forest.Anc T.parentOf A R
  flag : (T.node R).hasDeny = true

def Denies (T : Tree) (A : RegionPtr) (path : String) : Prop :=
  path ∈ (T.node A).deniedModulesSet ∨ path ∈ (T.node A).deniedModules

theorem Looks.same (h : T.Looks A R) (hn : T'.next = T.next) (hp : T'.parentOf = T.parentOf)
    (hf : (T'.node R).hasDeny = (T.node R).hasDeny) : T'.Looks A R :=
  ⟨hn ▸ h.lt, hp ▸ h.anc, hf ▸ h.flag⟩

theorem Looks.removeDenies (h : T.Looks A R) (r : RegionPtr) (p : String) :
    (T.removeDenies r p).Looks A R :=
  h.same rfl (funext fun x => (removeDenies_node T r x p).1) (removeDenies_node T r R p).2

theorem Denies.of_removeDenies {r : RegionPtr} {p : String}
    (h : (T.removeDenies r p).Denies A path) : T.Denies A path := by
  by_cases hA : A = r
  · subst hA
    simp only [Denies, Tree.removeDenies, Tree.modify, Function.update_self] at h
    exact h.imp Finset.mem_of_mem_erase fun hm => (List.mem_filter.mp hm).1
  · simpa [Denies, Tree.removeDenies, Tree.modify, hA] using h

theorem Looks.claim (h : T.Looks A R) (hok : T.Ok) {r : RegionPtr} (hr : r < T.next) (id : RegionId)
    (bits : UInt8) : (T.claim r id bits).Looks A R := by
  refine ⟨h.lt.trans (Nat.lt_succ_self _), (hok.claim_anc hr id bits h.lt.ne).mpr h.anc, ?_⟩
  rw [claim_node T hr]
  split
  · rename_i hR
    exact hR ▸ h.flag
  · rw [if_neg h.lt.ne]
    exact h.flag

theorem Denies.of_claim {r : RegionPtr} (hr : r < T.next) {id : RegionId} {bits : UInt8}
    (h : (T.claim r id bits).Denies A path) : T.Denies A path := by
  unfold Denies at h ⊢
  rw [claim_node T hr] at h
  split at h
  · rename_i hA
    exact hA ▸ h
  · split at h
    · simp at h
    · exact h

theorem Looks.fewer (h : T.Looks A R) (hf : FewerDenies T T') : T'.Looks A R := by
  obtain ⟨mods, set, hx⟩ := hf.node R
  exact h.same hf.next hf.parentOf (by rw [hx])

theorem Looks.gate (h : T.Looks A R) (r : RegionPtr) (fn : Option HandlerPtr) (ud : Nat) :
    (T.gate r fn ud).Looks A R := h.same rfl (gate_parentOf T r fn ud) (gate_node T r R fn ud).2.1

theorem Looks.deny (h : T.Looks A R) (E : Env) (r : RegionPtr) (what : String) (type : DenyType) :
    (T.deny E r what type).Looks A R := by
  refine ⟨h.lt, (deny_parentOf E T r what type).symm ▸ h.anc, ?_⟩
  simp only [Tree.deny]
  split
  · rfl
  · exact (addDeny_node E T r R what type).2.trans h.flag

end Tree

namespace Runtime
variable {s t u : Runtime} {E : Env} {A R : RegionPtr} {path : String} {i k : Nat}
  {L : RegionPtr → List EntryPtr}

theorem moduleIsDenied_iff : s.moduleIsDenied A path = true ↔ s.tree.Denies A path := by
  unfold moduleIsDenied
  rw [Bool.or_eq_true, decide_eq_true_eq, decide_eq_true_eq]
  exact Iff.rfl

/-- Every slot names an entry that has been made. -/
def SlotsMade (s : Runtime) : Prop :=
  ∀ R i (k : Nat) slot, ((s.regions R).hookDispatch i).slots[k]? = some slot → slot.me < s.entryNext

/-- Slot `k` of this vector names no module of this path. -/
def SlotClear (s : Runtime) (path : String) (R : RegionPtr) (i k : Nat) : Prop :=
  ∀ slot, ((s.regions R).hookDispatch i).slots[k]? = some slot →
    ∀ e, s.entries slot.me = some e → e.loadPath ≠ path

def VectorClear (s : Runtime) (path : String) (R : RegionPtr) (i : Nat) : Prop :=
  ∀ k < ((s.regions R).hookDispatch i).count, s.SlotClear path R i k

theorem SlotsMade.over (h : s.SlotsMade) (hv : VectorsOver s t) (hp : PathsKept s t)
    (hlt : ∀ p e, s.entries p = some e → p < s.entryNext) : t.SlotsMade := by
  intro R i k slot hk
  refine lt_of_lt_of_le ?_ hp.next
  rcases hv R i with hsame | hnew | hb
  · exact h R i k slot (hsame ▸ hk)
  · rw [hnew] at hk
    simp at hk
  · rcases hb.each k slot hk with hold | ⟨me, hme, -⟩
    · exact h R i k slot hold
    · exact hlt _ me hme

/-- A slot allowed where the path is denied does not name a module of that path, now or later. -/
theorem Allowed.clear (hp : PathsKept s t) (hlt : ∀ p e, s.entries p = some e → p < s.entryNext)
    {anc : List RegionPtr} (hA : A ∈ anc) (hd : s.moduleIsDenied A path = true) {slot : Slot}
    (h : s.Allowed anc slot) {e : ModEntry} (he : t.entries slot.me = some e) : e.loadPath ≠ path := by
  obtain ⟨me, hme, hden⟩ := h
  obtain ⟨e0, he0, hpath⟩ := hp.path _ (hlt _ me hme) e he
  cases hme.symm.trans he0
  rw [hpath]
  rintro rfl
  rw [hden A hA] at hd
  cases hd

theorem SlotClear.kept (h : s.SlotClear path R i k) (hm : s.SlotsMade) (hp : PathsKept s t)
    {slot : Slot} (hk : ((s.regions R).hookDispatch i).slots[k]? = some slot) {e : ModEntry}
    (he : t.entries slot.me = some e) : e.loadPath ≠ path := by
  obtain ⟨e0, he0, hpath⟩ := hp.path _ (hm R i k slot hk) e he
  rw [hpath]
  exact h slot hk e0 he0

theorem SlotClear.over (h : s.SlotClear path R i k) (hm : s.SlotsMade) (hv : VectorsOver s t)
    (hp : PathsKept s t) (hlt : ∀ p e, s.entries p = some e → p < s.entryNext)
    (hA : A ∈ s.callChain R) (hd : s.moduleIsDenied A path = true) : t.SlotClear path R i k := by
  intro slot hk e he
  rcases hv R i with hsame | hnew | hb
  · rw [hsame] at hk
    exact h.kept hm hp hk he
  · rw [hnew] at hk
    simp at hk
  · rcases hb.each k slot hk with hold | hallowed
    · exact h.kept hm hp hold he
    · exact hallowed.clear hp hlt hA hd he

theorem VectorClear.over (h : s.VectorClear path R i) (hm : s.SlotsMade) (hv : VectorsOver s t)
    (hp : PathsKept s t) (hlt : ∀ p e, s.entries p = some e → p < s.entryNext)
    (hA : A ∈ s.callChain R) (hd : s.moduleIsDenied A path = true) : t.VectorClear path R i := by
  intro k hk
  rcases hv R i with hsame | hnew | hb
  · rw [hsame] at hk
    exact (h k hk).over hm hv hp hlt hA hd
  · rw [hnew] at hk
    exact absurd hk (Nat.not_lt_zero k)
  · exact fun slot hslot e he => (hb.all k hk slot hslot).clear hp hlt hA hd he

end Runtime

section Prims
variable {E : Env} {g : RegionPtr → UInt8 → Prop} {s t : Runtime} {x y : Transit} {A R : RegionPtr}
  {path : String} {L : RegionPtr → List EntryPtr}

theorem Prim.looks (h : Prim E g (s, x) (t, y)) (hok : s.tree.Ok) (hl : s.tree.Looks A R) :
    t.tree.Looks A R := by
  rcases h.tree with ht | ⟨r, p, ht⟩ | ⟨r, bits, k, -, hc, ht⟩
  · exact ht ▸ hl
  · exact ht ▸ hl.removeDenies r p
  · exact ht ▸ hl.claim hok hc.region _ _

theorem Prim.denies (h : Prim E g (s, x) (t, y)) (hd : t.tree.Denies A path) : s.tree.Denies A path := by
  rcases h.tree with ht | ⟨r, p, ht⟩ | ⟨r, bits, k, -, hc, ht⟩
  · exact ht ▸ hd
  · exact Tree.Denies.of_removeDenies (ht ▸ hd)
  · exact Tree.Denies.of_claim hc.region (ht ▸ hd)

theorem Prims.slotsMade (h : Prims E g (s, .none) (t, .none)) (hw : WF s none L) (hm : s.SlotsMade) :
    t.SlotsMade := by
  have key : ∀ b, Prims E g (s, .none) b → (∃ L, WF b.1 b.2.entry L) ∧ b.1.SlotsMade := by
    intro b hb
    induction hb with
    | refl => exact ⟨⟨L, hw⟩, hm⟩
    | tail _ hs ih =>
        obtain ⟨⟨L1, hw1⟩, hm1⟩ := ih
        exact ⟨hw1.prim hs, hm1.over hs.vectors hs.paths fun p e he => hw1.lt_next he⟩
  exact (key _ h).2

/-- What elementary operations keep clear, up to where the deny is still there. -/
structure KeptClear (s t : Runtime) (A : RegionPtr) (path : String) : Prop where
  looks : ∀ R, s.tree.Looks A R → t.tree.Looks A R
  slot : ∀ R i k, s.tree.Looks A R → s.SlotClear path R i k → t.SlotClear path R i k
  vector : ∀ R i, s.tree.Looks A R → s.VectorClear path R i → t.VectorClear path R i

theorem Prims.keptClear (h : Prims E g (s, .none) (t, .none)) (hw : WF s none L) (hm : s.SlotsMade)
    (hd : t.tree.Denies A path) : KeptClear s t A path := by
  have key : ∀ b, Prims E g (s, .none) b → b.1.tree.Denies A path →
      (∃ L, WF b.1 b.2.entry L) ∧ b.1.SlotsMade ∧ KeptClear s b.1 A path := by
    intro b hb
    induction hb with
    | refl => exact fun _ => ⟨⟨L, hw⟩, hm, fun _ hl => hl, fun _ _ _ _ h => h, fun _ _ _ h => h⟩
    | @tail m b _ hs ih =>
        intro hdb
        have hdm := hs.denies hdb
        obtain ⟨⟨L1, hw1⟩, hmade, hk⟩ := ih hdm
        have hlt : ∀ p e, m.1.entries p = some e → p < m.1.entryNext := fun p e he => hw1.lt_next he
        have hden := moduleIsDenied_iff.mpr hdm
        have hchain : ∀ R, s.tree.Looks A R → A ∈ m.1.callChain R := fun R hl =>
          (mem_callChain hw1.tree).mpr ⟨(hk.looks R hl).flag, (hk.looks R hl).anc⟩
        refine ⟨hw1.prim hs, hmade.over hs.vectors hs.paths hlt,
          fun R hl => hs.looks hw1.tree (hk.looks R hl), fun R i k hl hc => ?_, fun R i hl hc => ?_⟩
        · exact (hk.slot R i k hl hc).over hmade hs.vectors hs.paths hlt (hchain R hl) hden
        · exact (hk.vector R i hl hc).over hmade hs.vectors hs.paths hlt (hchain R hl) hden
  exact (key _ h hd).2.2

theorem KeptClear.same (hm : s.SlotsMade) (hv : SameVectors s t) (hp : PathsKept s t)
    (hl : ∀ R, s.tree.Looks A R → t.tree.Looks A R) : KeptClear s t A path := by
  have slot : ∀ R i k, s.SlotClear path R i k → t.SlotClear path R i k := by
    intro R i k hc x hk e he
    rw [hv R i] at hk
    exact hc.kept hm hp hk he
  refine ⟨hl, fun R i k _ hc => slot R i k hc, fun R i _ hc k hk => ?_⟩
  rw [hv R i] at hk
  exact slot R i k (hc k hk)

end Prims

section Steps
variable {E : Env} {s t : State} {e : Event} {A R : RegionPtr} {path : String}

theorem step_looks (hi : Inv E s) (h : step E s e = .ok t) (hl : s.rt.tree.Looks A R) :
    t.rt.tree.Looks A R := by
  cases step_tree hi h with
  | deny what type r he hr hT => exact hT ▸ hl.deny E r what type
  | gate he r hr fn ud hT => exact hT ▸ hl.gate r fn ud
  | fewer he hT => exact hl.fewer hT
  | claims he m hm hok r bits k hs hk hT => exact hT ▸ (hl.fewer hm).claim hok hk.region _ _

/-- A step is made of elementary operations, or leaves the vectors and the paths alone. -/
theorem step_vectors (hi : Inv E s) (h : step E s e = .ok t) :
    (∃ g, Prims E g (s.rt, .none) (t.rt, .none)) ∨ SameVectors s.rt t.rt ∧ PathsKept s.rt t.rt := by
  rcases step_prims hi h with ⟨a, rfl⟩ | hp | hs
  · cases h
    rcases xyAreg_cases E s.rt a with ⟨err, ha⟩ | ⟨-, ha⟩
    · refine .inr ⟨?_, ?_⟩ <;> rw [State.back, ha]
      · exact .of_regions rfl
      · exact .of_entries rfl rfl
    · refine .inr ⟨?_, ?_⟩ <;> rw [State.back, ha]
      · exact .of_regions rfl
      · have hc : ((s.rt.register a).mapEntries (s.rt.modEntries E)
            (ModEntry.fnCachePrewarm E (s.rt.register a).hookIdHd.entries)).core =
            (s.rt.register a).core := mapEntries_core (ModEntry.fnCachePrewarm_core E _)
        have hp : PathsKept (s.rt.register a) _ := .of_core hc
        exact ⟨hp.next, hp.path⟩
  · exact .inl hp
  · refine .inr ⟨fun R i => ?_, .of_entries hs.entries hs.entryNext⟩
    obtain ⟨node, gen, hx⟩ := hs.regions R
    exact congrFun (congrArg RegionEntry.hookDispatch hx) i

theorem step_slotsMade (hi : Inv E s) (h : step E s e = .ok t) (hm : s.rt.SlotsMade) :
    t.rt.SlotsMade := by
  obtain ⟨L, hw⟩ := hi.wf
  rcases step_vectors hi h with ⟨g, hp⟩ | ⟨hv, hp⟩
  · exact hp.slotsMade hw hm
  · exact hm.over hv.over hp fun p e he => hw.lt_next he

theorem step_keptClear (hi : Inv E s) (h : step E s e = .ok t) (hm : s.rt.SlotsMade)
    (hd : t.rt.tree.Denies A path) : KeptClear s.rt t.rt A path := by
  obtain ⟨L, hw⟩ := hi.wf
  rcases step_vectors hi h with ⟨g, hp⟩ | ⟨hv, hp⟩
  · exact hp.keptClear hw hm hd
  · exact .same hm hv hp fun R => step_looks hi h

theorem step_anc (hi : Inv E s) (h : step E s e = .ok t) (hR : R < s.rt.regionNext) :
    Forest.Anc t.rt.parentOf A R ↔ Forest.Anc s.rt.parentOf A R := by
  have same : t.rt.tree.parentOf = s.rt.tree.parentOf →
      (Forest.Anc t.rt.parentOf A R ↔ Forest.Anc s.rt.parentOf A R) := fun hp =>
    (Iff.of_eq (congrArg (fun p => Forest.Anc p A R) hp) :)
  cases step_tree hi h with
  | deny what type r he hr hT => exact same (hT ▸ Tree.deny_parentOf E s.rt.tree r what type)
  | gate he r hr fn ud hT => exact same (hT ▸ Tree.gate_parentOf s.rt.tree r fn ud)
  | fewer he hT => exact same hT.parentOf
  | claims he m hm hok r bits k hs hk hT =>
      have hne : R ≠ m.next := (hR.trans_eq hm.next.symm).ne
      have hclaim := hok.claim_anc hk.region (m.slotId r bits k) bits (a := A) hne
      rw [← hT, hm.parentOf] at hclaim
      exact hclaim

end Steps

end Xylem

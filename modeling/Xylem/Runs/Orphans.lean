import Xylem.Heap.Topple
import Xylem.Runs.Parents
import Xylem.Runs.Tables

namespace Xylem

open Xylem.Runtime Forest

/-- The entry that a load of this event has counted or made. -/
def State.loads (E : Env) (s : State) : Event → Option EntryPtr
  | .load fname ch =>
      match step E s (.load fname ch) with
      | .ok t =>
          match t.status with
          | .entered => some s.rt.entryNext
          | .returned ret _ =>
              if ret = xyOk then s.rt.moduleLookup E fname s.rt.currentRegionId else none
      | .error _ => none
  | _ => none

/-- The entry that an `xy_unload` of this event is about. -/
def State.unloads (E : Env) (s : State) : Event → Option EntryPtr
  | .unload fname _ => s.rt.moduleLookup E fname s.rt.currentRegionId
  | _ => none

/-- A load of `c` while no `xy_install` is in progress. -/
def HostLoads (E : Env) (c : EntryPtr) (x : State × Event) : Prop :=
  x.1.loads E x.2 = some c ∧ x.1.rt.loadingMod = none

def InstallLoads (E : Env) (c q : EntryPtr) (x : State × Event) : Prop :=
  x.1.loads E x.2 = some c ∧ x.1.rt.loadingMod = some q

instance (E : Env) (c : EntryPtr) (x : State × Event) : Decidable (HostLoads E c x) :=
  inferInstanceAs (Decidable (_ ∧ _))

def hostLoads (E : Env) (tr : List (State × Event)) (c : EntryPtr) : Nat :=
  tr.countP fun x => HostLoads E c x

def unloadsOf (E : Env) (tr : List (State × Event)) (c : EntryPtr) : Nat :=
  tr.countP fun x => x.1.unloads E x.2 = some c

/-- The loads and unloads after which the count of an entry and its one parent link tell
who holds it. -/
def KeepsHolders (E : Env) (s : State) : Event → Prop
  | .load fname ch => LoadsUnderLive E s.rt fname ch ∧
      ∀ c q, s.rt.moduleLookup E fname s.rt.currentRegionId = some c → s.rt.loadingMod = some q →
        s.rt.loader c = none ∨ s.rt.SharedRef c
  | .unload fname _ => ∀ p, s.rt.moduleLookup E fname s.rt.currentRegionId = some p →
      s.rt.LastRef p → Topples E s.rt p
  | _ => True

def Runtime.Nested (s : Runtime) (e : ModEntry) : Prop :=
  ∃ q, e.parentEntry = some q ∧ s.core.entries q ≠ none

/-- Each entry has a holder, and its count covers the host's loads and its parent's. -/
structure Ledger (E : Env) (tr : List (State × Event)) (s : Runtime) : Prop where
  older : Older s
  held : ∀ c e, s.core.entries c = some e → (∃ x ∈ tr, HostLoads E c x) ∨
    e.refcount ≤ 1 ∧ ∃ q, e.parentEntry = some q ∧ s.core.entries q ≠ none ∧
      ∃ x ∈ tr, InstallLoads E c q x
  covered : ∀ c e, s.core.entries c = some e →
    (hostLoads E tr c : Int) ≤ e.refcount + unloadsOf E tr c ∧
      (s.Nested e → (hostLoads E tr c : Int) < e.refcount + unloadsOf E tr c)
  gone : ∀ c, s.core.entries c = none → hostLoads E tr c ≤ unloadsOf E tr c

section Counts
variable {E : Env} {tr : List (State × Event)} {x : State × Event} {c : EntryPtr}

theorem hostLoads_snoc {l : Option EntryPtr} (hl : x.1.loads E x.2 = l) :
    hostLoads E (tr ++ [x]) c =
      hostLoads E tr c + if l = some c ∧ x.1.rt.loadingMod = none then 1 else 0 := by
  have hx : HostLoads E c x ↔ l = some c ∧ x.1.rt.loadingMod = none := by rw [HostLoads, hl]
  simp [hostLoads, List.countP_append, List.countP_singleton, hx]

theorem hostLoads_other (hl : x.1.loads E x.2 = none) :
    hostLoads E (tr ++ [x]) c = hostLoads E tr c := by
  rw [hostLoads_snoc hl, if_neg fun hc => Option.some_ne_none c hc.1.symm, Nat.add_zero]

theorem unloadsOf_snoc {u : Option EntryPtr} (hu : x.1.unloads E x.2 = u) :
    unloadsOf E (tr ++ [x]) c = unloadsOf E tr c + if u = some c then 1 else 0 := by
  subst hu
  simp [unloadsOf, List.countP_append, List.countP_singleton]

theorem unloadsOf_other (hu : x.1.unloads E x.2 = none) :
    unloadsOf E (tr ++ [x]) c = unloadsOf E tr c := by
  rw [unloadsOf_snoc hu, if_neg (Option.some_ne_none c).symm, Nat.add_zero]

theorem held_snoc {P : State × Event → Prop} (h : ∃ y ∈ tr, P y) : ∃ y ∈ tr ++ [x], P y := by
  obtain ⟨y, hy, hp⟩ := h
  exact ⟨y, List.mem_append_left _ hy, hp⟩

/-- A step that neither loads nor unloads leaves the ledger as it is. -/
theorem Ledger.same {s t : Runtime} (h : Ledger E tr s) (hents : t.core.entries = s.core.entries)
    (hl : x.1.loads E x.2 = none) (hu : x.1.unloads E x.2 = none) : Ledger E (tr ++ [x]) t := by
  refine ⟨fun c p hcp => ?_, fun c e he => ?_, fun c e he => ?_, fun c hc => ?_⟩
  · rw [loader_congr (congrFun hents c)] at hcp
    exact h.older c p hcp
  · rw [hents] at he ⊢
    rcases h.held c e he with hh | ⟨hone, q, hq, hlive, hh⟩
    · exact .inl (held_snoc hh)
    · exact .inr ⟨hone, q, hq, hlive, held_snoc hh⟩
  · rw [hents] at he
    rw [hostLoads_other hl, unloadsOf_other hu]
    refine ⟨(h.covered c e he).1, fun hn => (h.covered c e he).2 ?_⟩
    obtain ⟨q, hq, hlive⟩ := hn
    exact ⟨q, hq, hents ▸ hlive⟩
  · rw [hents] at hc
    rw [hostLoads_other hl, unloadsOf_other hu]
    exact h.gone c hc

theorem Ledger.reuse {m : State} {ev : Event} {t : Runtime} {p : EntryPtr} {e : ModEntry}
    (h : Ledger E tr m.rt) (he : m.rt.core.entries p = some e)
    (hents : t.core.entries = Function.update m.rt.core.entries p
      (some { e with refcount := e.refcount + 1 }))
    (hl : m.loads E ev = some p) (hu : m.unloads E ev = none)
    (hheld : ∀ q, m.rt.loadingMod = some q → m.rt.loader p = none ∨ m.rt.SharedRef p) :
    Ledger E (tr ++ [(m, ev)]) t := by
  have hsome : ∀ q, t.core.entries q ≠ none ↔ m.rt.core.entries q ≠ none := by
    intro q
    rw [hents, Function.update_apply]
    split
    · rename_i hq
      simp [hq, he]
    · exact Iff.rfl
  have hparent : ∀ {c e'}, t.core.entries c = some e' → ∃ e0, m.rt.core.entries c = some e0 ∧
      e'.parentEntry = e0.parentEntry ∧
      e'.refcount = e0.refcount + if c = p then 1 else 0 := by
    intro c e' he'
    rw [hents, Function.update_apply] at he'
    split at he'
    · rename_i hc
      cases he'
      exact ⟨e, hc ▸ he, rfl, by rw [if_pos hc]⟩
    · rename_i hc
      exact ⟨e', he', rfl, by rw [if_neg hc, Int.add_zero]⟩
  have hhost : ∀ c, hostLoads E (tr ++ [(m, ev)]) c ≤ hostLoads E tr c + if c = p then 1 else 0 := by
    intro c
    rw [hostLoads_snoc hl]
    refine Nat.add_le_add_left ?_ _
    split
    · rename_i hc
      rw [if_pos (Option.some.inj hc.1).symm]
    · exact Nat.zero_le _
  refine ⟨fun c q hcq => ?_, fun c e' he' => ?_, fun c e' he' => ?_, fun c hc => ?_⟩
  · refine h.older c q ?_
    rw [loader_core] at hcq ⊢
    cases hc : t.core.entries c with
    | none =>
        rw [hc] at hcq
        cases hcq
    | some e' =>
        obtain ⟨e0, he0, hpar, -⟩ := hparent hc
        rw [hc] at hcq
        rw [he0]
        exact hpar.symm.trans hcq
  · obtain ⟨e0, he0, hpar, hcount⟩ := hparent he'
    by_cases hcp : c = p
    · subst hcp
      cases hmod : m.rt.loadingMod with
      | none => exact .inl ⟨(m, ev), by simp, hl, hmod⟩
      | some q =>
          rcases h.held c e0 he0 with hh | ⟨hone, q', hq', -⟩
          · exact .inl (held_snoc hh)
          · rcases hheld q hmod with hnone | ⟨e1, he1, hshared⟩
            · rw [loader_core, he0] at hnone
              cases hq'.symm.trans hnone
            · cases he0.symm.trans he1
              omega
    · rw [if_neg hcp, Int.add_zero] at hcount
      rcases h.held c e0 he0 with hh | ⟨hone, q, hq, hlive, hh⟩
      · exact .inl (held_snoc hh)
      · exact .inr ⟨hcount ▸ hone, q, hpar.trans hq, (hsome q).mpr hlive, held_snoc hh⟩
  · obtain ⟨e0, he0, hpar, hcount⟩ := hparent he'
    obtain ⟨h1, h2⟩ := h.covered c e0 he0
    have hle : (hostLoads E (tr ++ [(m, ev)]) c : Int) ≤ hostLoads E tr c + if c = p then 1 else 0 := by
      have hle := hhost c
      by_cases hcp : c = p
      · rw [if_pos hcp] at hle ⊢
        omega
      · rw [if_neg hcp] at hle ⊢
        omega
    rw [unloadsOf_other hu, hcount]
    refine ⟨by omega, ?_⟩
    rintro ⟨q, hq, hlive⟩
    have h2 := h2 ⟨q, hpar.symm.trans hq, (hsome q).mp hlive⟩
    omega
  · have hcp : c ≠ p := by
      rintro rfl
      exact (hsome c).mpr (by simp [he]) hc
    have hc' : m.rt.core.entries c = none := by
      by_contra hne
      exact (hsome c).mpr hne hc
    have hle := hhost c
    rw [if_neg hcp, Nat.add_zero] at hle
    rw [unloadsOf_other hu]
    exact hle.trans (h.gone c hc')

theorem Ledger.fresh {m : State} {ev : Event} {t : Runtime} {e : ModEntry} (h : Ledger E tr m.rt)
    (hw : ∃ L, WF m.rt none L)
    (hents : t.core.entries = Function.update m.rt.core.entries m.rt.entryNext (some e))
    (hone : e.refcount = 1) (hpar : e.parentEntry = m.rt.loadingMod)
    (hl : m.loads E ev = some m.rt.entryNext) (hu : m.unloads E ev = none)
    (hlive : ∀ q, m.rt.loadingMod = some q → m.rt.entries q ≠ none) :
    Ledger E (tr ++ [(m, ev)]) t := by
  obtain ⟨L, hw⟩ := hw
  have hnew : m.rt.core.entries m.rt.entryNext = none :=
    congrArg (Option.map ModEntry.core) (hw.fresh _ le_rfl)
  have hlt : ∀ q, m.rt.core.entries q ≠ none → q < m.rt.entryNext := by
    intro q hq
    by_contra hge
    exact hq (congrArg (Option.map ModEntry.core) (hw.fresh q (not_lt.mp hge)))
  have hcore : ∀ q, m.rt.entries q ≠ none → m.rt.core.entries q ≠ none := by
    intro q hq hnone
    exact hq (Option.map_eq_none_iff.mp hnone)
  have hmod : ∀ q, m.rt.loadingMod = some q → q < m.rt.entryNext :=
    fun q hq => hlt q (hcore q (hlive q hq))
  have hself : t.core.entries m.rt.entryNext = some e := by rw [hents, Function.update_self]
  have hother : ∀ q, q ≠ m.rt.entryNext → t.core.entries q = m.rt.core.entries q := by
    intro q hq
    rw [hents, Function.update_of_ne hq]
  have hkeep : ∀ q, m.rt.core.entries q ≠ none → t.core.entries q ≠ none := by
    intro q hq
    rw [hother q (hlt q hq).ne]
    exact hq
  have hhost : ∀ c, hostLoads E (tr ++ [(m, ev)]) c =
      hostLoads E tr c + if c = m.rt.entryNext ∧ m.rt.loadingMod = none then 1 else 0 := by
    intro c
    rw [hostLoads_snoc hl]
    simp only [Option.some.injEq, eq_comm]
  have hzero := h.gone m.rt.entryNext hnew
  refine ⟨fun c q hcq => ?_, fun c e' he' => ?_, fun c e' he' => ?_, fun c hc => ?_⟩
  · by_cases hcn : c = m.rt.entryNext
    · rw [loader_core, hcn, hself] at hcq
      rw [hcn]
      exact hmod q (hpar.symm.trans hcq)
    · rw [loader_congr (hother c hcn)] at hcq
      exact h.older c q hcq
  · by_cases hcn : c = m.rt.entryNext
    · subst hcn
      cases hself.symm.trans he'
      cases hm : m.rt.loadingMod with
      | none => exact .inl ⟨(m, ev), by simp, hl, hm⟩
      | some q =>
          refine .inr ⟨hone.le, q, hpar.trans hm, hkeep q (hcore q (hlive q hm)), (m, ev), by simp,
            hl, hm⟩
    · rw [hother c hcn] at he'
      rcases h.held c e' he' with hh | ⟨hle, q, hq, hlq, hh⟩
      · exact .inl (held_snoc hh)
      · exact .inr ⟨hle, q, hq, hkeep q hlq, held_snoc hh⟩
  · rw [unloadsOf_other hu, hhost]
    by_cases hcn : c = m.rt.entryNext
    · subst hcn
      cases hself.symm.trans he'
      refine ⟨?_, ?_⟩
      · split <;> omega
      · rintro ⟨q, hq, -⟩
        rw [if_neg fun hc => by rw [hc.2] at hpar; cases hq.symm.trans hpar]
        omega
    · rw [if_neg fun hc => hcn hc.1]
      rw [hother c hcn] at he'
      obtain ⟨h1, h2⟩ := h.covered c e' he'
      refine ⟨h1, ?_⟩
      rintro ⟨q, hq, hlq⟩
      have hloader : m.rt.loader c = some q := by
        rw [loader_core, he']
        exact hq
      have hqc := (h.older c q hloader).trans (hlt c (by rw [he']; nofun))
      exact h2 ⟨q, hq, hother q hqc.ne ▸ hlq⟩
  · have hcn : c ≠ m.rt.entryNext := by
      rintro rfl
      rw [hself] at hc
      cases hc
    rw [unloadsOf_other hu, hhost, if_neg fun hc => hcn hc.1]
    rw [hother c hcn] at hc
    exact h.gone c hc

theorem live_of_falls {s : Runtime} {p y : EntryPtr} (hp : s.core.entries p ≠ none)
    (h : Falls s p y) : s.core.entries y ≠ none := by
  cases h with
  | root => exact hp
  | child hy hc hl =>
      obtain ⟨e, he, -⟩ := hl
      rw [he]
      nofun

/-- The last reference of `p` has been given back, with what hangs on it. -/
theorem Ledger.topple {m : State} {ev : Event} {t : Runtime} {p : EntryPtr} (h : Ledger E tr m.rt)
    (hlast : m.rt.LastRef p) (hit : Hit m.rt t (Falls m.rt p) (m.rt.Loses p))
    (hl : m.loads E ev = none) (hu : m.unloads E ev = some p) : Ledger E (tr ++ [(m, ev)]) t := by
  have hp : m.rt.core.entries p ≠ none := by
    obtain ⟨e, he, -⟩ := hlast
    rw [he]
    nofun
  -- a live child of what falls had its parent
  have nested : ∀ {c y e}, m.rt.core.entries c = some e → m.rt.loader c = some y → Falls m.rt p y →
      m.rt.Nested e := by
    intro c y e he hy hf
    rw [loader_core, he] at hy
    exact ⟨y, hy, live_of_falls hp hf⟩
  have dead : ∀ q, m.rt.core.entries q = none → t.core.entries q = none := by
    intro q hq
    refine (hit.kept q (fun hf => live_of_falls hp hf hq) fun hs => ?_).trans hq
    obtain ⟨⟨e, he, -⟩, -⟩ := hs
    rw [hq] at he
    cases he
  have left : ∀ {c e'}, t.core.entries c = some e' → ∃ e, m.rt.core.entries c = some e ∧
      e'.parentEntry = e.parentEntry ∧
      (m.rt.Loses p c ∧ 1 < e.refcount ∧ e'.refcount = e.refcount - 1 ∧
          (∀ q, e.parentEntry = some q → t.core.entries q = none) ∨
        e'.refcount = e.refcount ∧
          ∀ q, e.parentEntry = some q → m.rt.core.entries q ≠ none → t.core.entries q ≠ none) := by
    intro c e' he'
    have hnf : ¬ Falls m.rt p c := by
      intro hf
      rw [hit.dead c hf] at he'
      cases he'
    by_cases hls : m.rt.Loses p c
    · obtain ⟨⟨e, he, hs⟩, y, hy, hf⟩ := hls
      rw [hit.less c ⟨⟨e, he, hs⟩, y, hy, hf⟩, he] at he'
      cases he'
      refine ⟨e, he, rfl, .inl ⟨⟨⟨e, he, hs⟩, y, hy, hf⟩, hs, rfl, fun q hq => ?_⟩⟩
      rw [loader_core, he] at hy
      have hqy : y = q := Option.some.inj (hy.symm.trans hq)
      exact hqy ▸ hit.dead y hf
    · have hsame := hit.kept c hnf hls
      rw [hsame] at he'
      refine ⟨e', he', rfl, .inr ⟨rfl, fun q hq hlive => ?_⟩⟩
      have hloader : m.rt.loader c = some q := by
        rw [loader_core, he']
        exact hq
      have hnq : ¬ Falls m.rt p q := by
        intro hf
        rcases le_or_gt e'.refcount 1 with hone | hs
        · exact hnf (.child hf hloader ⟨e', he', hone⟩)
        · exact hls ⟨⟨e', he', hs⟩, q, hloader, hf⟩
      by_cases hlq : m.rt.Loses p q
      · rw [hit.less q hlq]
        obtain ⟨⟨e, he, -⟩, -⟩ := hlq
        rw [he]
        nofun
      · rw [hit.kept q hnq hlq]
        exact hlive
  have hpc : ∀ {c e'}, t.core.entries c = some e' → p ≠ c := by
    rintro c e' he' rfl
    rw [hit.dead p .root] at he'
    cases he'
  refine ⟨hit.older h.older, fun c e' he' => ?_, fun c e' he' => ?_, fun c hc => ?_⟩
  · obtain ⟨e, he, hpar, ⟨-, hs, -⟩ | ⟨hcount, hlive⟩⟩ := left he'
    · rcases h.held c e he with hh | ⟨hone, -⟩
      · exact .inl (held_snoc hh)
      · omega
    · rcases h.held c e he with hh | ⟨hone, q, hq, hql, hh⟩
      · exact .inl (held_snoc hh)
      · exact .inr ⟨hcount ▸ hone, q, hpar.trans hq, hlive q hq hql, held_snoc hh⟩
  · rw [hostLoads_other hl, unloadsOf_snoc hu, if_neg fun hc => hpc he' (Option.some.inj hc),
      Nat.add_zero]
    obtain ⟨e, he, hpar, ⟨⟨-, y, hy, hf⟩, -, hcount, hdead⟩ | ⟨hcount, -⟩⟩ := left he'
    · have h2 := (h.covered c e he).2 (nested he hy hf)
      refine ⟨by omega, ?_⟩
      rintro ⟨q, hq, hlive⟩
      exact absurd (hdead q (hpar.symm.trans hq)) hlive
    · obtain ⟨h1, h2⟩ := h.covered c e he
      rw [hcount]
      refine ⟨h1, ?_⟩
      rintro ⟨q, hq, hlive⟩
      exact h2 ⟨q, hpar.symm.trans hq, fun hnone => hlive (dead q hnone)⟩
  · rw [hostLoads_other hl, unloadsOf_snoc hu]
    by_cases hf : Falls m.rt p c
    · cases hf with
      | root =>
          obtain ⟨e, he, hone⟩ := hlast
          have h1 := (h.covered p e he).1
          rw [if_pos rfl]
          omega
      | child hy hcy hlc =>
          obtain ⟨e, he, hone⟩ := hlc
          have h2 := (h.covered c e he).2 (nested he hcy hy)
          omega
    · have hls : ¬ m.rt.Loses p c := by
        intro hls
        rw [hit.less c hls] at hc
        obtain ⟨⟨e, he, -⟩, -⟩ := hls
        rw [he] at hc
        cases hc
      rw [hit.kept c hf hls] at hc
      exact (h.gone c hc).trans (Nat.le_add_right _ _)

theorem Ledger.release {m : State} {ev : Event} {t : Runtime} {p : EntryPtr} (h : Ledger E tr m.rt)
    (hit : Hit m.rt t (fun _ => False) (· = p)) (hl : m.loads E ev = none)
    (hu : m.unloads E ev = some p) : Ledger E (tr ++ [(m, ev)]) t := by
  have hun : ∀ c, unloadsOf E (tr ++ [(m, ev)]) c = unloadsOf E tr c + if c = p then 1 else 0 := by
    intro c
    rw [unloadsOf_snoc hu]
    simp only [Option.some.injEq, eq_comm]
  have left : ∀ {c e'}, t.core.entries c = some e' → ∃ e, m.rt.core.entries c = some e ∧
      e'.parentEntry = e.parentEntry ∧ e'.refcount = e.refcount - if c = p then 1 else 0 := by
    intro c e' he'
    by_cases hcp : c = p
    · rw [hit.less c hcp] at he'
      obtain ⟨e, he, rfl⟩ := Option.map_eq_some_iff.mp he'
      exact ⟨e, he, rfl, by rw [if_pos hcp]⟩
    · rw [hit.kept c id hcp] at he'
      exact ⟨e', he', rfl, by rw [if_neg hcp, Int.sub_zero]⟩
  have hsome : ∀ q, t.core.entries q = none ↔ m.rt.core.entries q = none := by
    intro q
    by_cases hqp : q = p
    · rw [hit.less q hqp]
      exact Option.map_eq_none_iff
    · rw [hit.kept q id hqp]
  refine ⟨hit.older h.older, fun c e' he' => ?_, fun c e' he' => ?_, fun c hc => ?_⟩
  · obtain ⟨e, he, hpar, hcount⟩ := left he'
    rcases h.held c e he with hh | ⟨hone, q, hq, hql, hh⟩
    · exact .inl (held_snoc hh)
    · have hle : e'.refcount ≤ 1 := by
        rw [hcount]
        split <;> omega
      exact .inr ⟨hle, q, hpar.trans hq, fun hnone => hql ((hsome q).mp hnone), held_snoc hh⟩
  · obtain ⟨e, he, hpar, hcount⟩ := left he'
    obtain ⟨h1, h2⟩ := h.covered c e he
    rw [hostLoads_other hl, hun, hcount]
    refine ⟨by split <;> omega, ?_⟩
    rintro ⟨q, hq, hlive⟩
    have h2 := h2 ⟨q, hpar.symm.trans hq, fun hnone => hlive ((hsome q).mpr hnone)⟩
    split <;> omega
  · rw [hostLoads_other hl, hun]
    exact (h.gone c ((hsome c).mp hc)).trans (Nat.le_add_right _ _)

end Counts

section Step
variable {E : Env} {s t : State} {tr : List (State × Event)}

theorem ledger_load {fname : String} {ch : LoadChoice} (hi : Inv E s) (h : Ledger E tr s.rt)
    (hs : step E s (.load fname ch) = .ok t) (hk : KeepsHolders E s (.load fname ch)) :
    Ledger E (tr ++ [(s, .load fname ch)]) t.rt := by
  obtain ⟨out, heff, -, hstatus⟩ := step_load hi hs
  -- what the load has loaded, by how it came back
  have hdone : ∀ ret, out = .done ret → s.loads E (.load fname ch) =
      if ret = xyOk then s.rt.moduleLookup E fname s.rt.currentRegionId else none := by
    intro ret hret
    rcases hstatus with ⟨ret', hr, hst⟩ | ⟨f, hf, -⟩
    · cases hret.symm.trans hr
      simp only [State.loads, hs, hst]
    · cases hret.symm.trans hf
  have hfail : ∀ ret, out = .done ret → ret ≠ xyOk → s.loads E (.load fname ch) = none :=
    fun ret hret hne => (hdone ret hret).trans (if_neg hne)
  cases heff with
  | same ret hret ht => exact h.same (congrArg Core.entries ht : _) (hfail ret rfl hret) rfl
  | reuse p e hl he ht =>
      refine h.reuse (p := p) (e := e.core) (congrArg (Option.map ModEntry.core) he) ?_
        ((hdone xyOk rfl).trans ((if_pos rfl).trans hl)) rfl fun q hq => hk.2 p q hl hq
      exact (congrArg Core.entries ht).trans (congrArg Core.entries (setEntry_core _ _ _))
  | fresh out hl hmem him hf =>
      cases hf with
      | refused ret hret hg ht =>
          exact h.same (congrArg Core.entries ht : _) (hfail ret rfl hret) rfl
      | noInstall hg hinst id r T index hp hasks ht =>
          exact h.same (congrArg Core.entries ht : _) (hfail xyErrNotFound rfl (by decide)) rfl
      | installs hg fn hinst id r T index hp hasks ht =>
          refine h.fresh hi.wf (congrArg Core.entries ht : _) rfl rfl ?_ rfl (hk.1 hl hmem him)
          rcases hstatus with ⟨ret, hr, -⟩ | ⟨f, -, hst⟩
          · cases hr
          · simp only [State.loads, hs, hst]

theorem ledger_unload {fname : String} {fuel : Nat} (hi : Inv E s) (h : Ledger E tr s.rt)
    (hs : step E s (.unload fname fuel) = .ok t) (hk : KeepsHolders E s (.unload fname fuel)) :
    Ledger E (tr ++ [(s, .unload fname fuel)]) t.rt := by
  obtain ⟨L, hw⟩ := hi.wf
  cases step_effect hi hs with
  | unload m ret hu hc hst =>
      cases hl : s.rt.moduleLookup E fname s.rt.currentRegionId with
      | none =>
          refine h.same (x := (s, .unload fname fuel)) ((congrArg Core.entries hc : _).trans ?_) rfl hl
          cases fuel with
          | zero => cases hu
          | succ fuel =>
              simp only [modUnload, hl, Except.ok.injEq, Prod.mk.injEq] at hu
              rw [← hu.1]
              rfl
      | some p =>
          obtain ⟨e, he, -⟩ := hw.table _ p hl
          have hcore : s.rt.core.entries p = some e.core := congrArg (Option.map ModEntry.core) he
          have hit_of : ∀ {gone lost : EntryPtr → Prop}, Hit s.rt m gone lost →
              Hit s.rt t.rt gone lost := by
            intro gone lost hit
            have hents : t.rt.core.entries = m.core.entries := (congrArg Core.entries hc : _)
            refine ⟨fun q hq => ?_, fun q hq => ?_, fun q hq hq' => ?_,
              (congrArg Core.ctxs hc : _).trans hit.ctxs, (congrArg Core.addr hc : _).trans hit.addr,
              (congrArg Core.entryNext hc : _).trans hit.next⟩
            · rw [hents]
              exact hit.dead q hq
            · rw [hents]
              exact hit.less q hq
            · rw [hents]
              exact hit.kept q hq hq'
          by_cases hone : e.refcount ≤ 1
          · have hlast : s.rt.LastRef p := ⟨_, hcore, hone⟩
            exact h.topple hlast (hit_of (modUnload_topples E fuel hi.wf h.older hl he hone
              (hk p hl hlast) hu)) rfl hl
          · have hr := modUnload_shared hl he (not_le.mp hone) hu
            have hm : m = s.rt.release p e := congrArg Prod.fst hr
            exact h.release (hit_of (hm ▸ release_hit he)) rfl hl

theorem step_ledger {e : Event} (hi : Inv E s) (h : Ledger E tr s.rt) (hs : step E s e = .ok t)
    (hk : KeepsHolders E s e) (hreload : ∀ fname ch fuel, e ≠ .reload fname ch fuel) :
    Ledger E (tr ++ [(s, e)]) t.rt := by
  cases e with
  | load fname ch => exact ledger_load hi h hs hk
  | unload fname fuel => exact ledger_unload hi h hs hk
  | reload fname ch fuel => exact absurd rfl (hreload fname ch fuel)
  | _ =>
      exact h.same (step_tables hi hs (fun _ _ => nofun) (fun _ _ => nofun) fun _ _ _ => nofun).entries
        rfl rfl

theorem boot_ledger (h : Boot s) : Ledger E [] s.rt := by
  have hnone : ∀ c, s.rt.core.entries c = none := by
    intro c
    show (s.rt.entries c).map ModEntry.core = none
    rw [h.entries]
    rfl
  refine ⟨fun c p hcp => ?_, fun c e he => ?_, fun c e he => ?_, fun c _ => le_rfl⟩
  · rw [loader_core, hnone] at hcp
    cases hcp
  · rw [hnone] at he
    cases he
  · rw [hnone] at he
    cases he

end Step

/-- Nothing leads to the entry any more: the table, the lists of the regions, and what the
dispatch lists are collected from. -/
structure Runtime.Removed (s : Runtime) (c : EntryPtr) : Prop where
  freed : s.entries c = none
  table : ∀ k, s.modHd.lookup k ≠ some c
  listed : ∀ r l, s.regionMods r = .ok l → c ∉ l
  dispatch : ∀ n r l, s.regionCollectSubtreeMods n r = .ok l → c ∉ l

section Removed
variable {s : Runtime} {L : RegionPtr → List EntryPtr}

theorem regionMods_live (hw : WF s none L) {r : RegionPtr} {l : List EntryPtr}
    (h : s.regionMods r = .ok l) : ∀ q ∈ l, s.entries q ≠ none := by
  intro q hq
  cases (hw.regionMods r).symm.trans h
  exact hw.live_listed hq

theorem collect_live (hw : WF s none L) {n : Nat} {r : RegionPtr} {l : List EntryPtr}
    (h : s.regionCollectSubtreeMods n r = .ok l) : ∀ q ∈ l, s.entries q ≠ none := by
  intro q hq
  rw [hw.collect_eq h] at hq
  obtain ⟨y, -, hq⟩ := mem_descend_anc (fun x y => (hw.tree.children x y).mp) hq
  exact hw.live_listed hq

theorem removed_of_freed (hw : WF s none L) {c : EntryPtr} (h : s.entries c = none) :
    s.Removed c := by
  refine ⟨h, fun k hk => ?_, fun r l hl hc => regionMods_live hw hl c hc h,
    fun n r l hl hc => collect_live hw hl c hc h⟩
  obtain ⟨e, he, -⟩ := hw.table k c hk
  rw [h] at he
  cases he

end Removed

section Runs
variable {E : Env} {s₀ s : State} {tr : List (State × Event)}

theorem Runs.ledger (h : Runs E s₀ tr s)
    (hreload : ∀ x ∈ tr, ∀ fname ch fuel, x.2 ≠ .reload fname ch fuel)
    (hC : Run.Every (step E) (fun m e _ => KeepsHolders E m e) tr) : Ledger E tr s.rt := by
  have key : Inv E s ∧ Ledger E tr s.rt :=
    h.2.invariant_trace (P := fun tr s => Inv E s ∧ Ledger E tr s.rt)
      (C := fun m e _ => KeepsHolders E m e ∧ ∀ fname ch fuel, e ≠ .reload fname ch fuel)
      (fun tr m e t hs hc hm => ⟨hm.1.step hs, step_ledger hm.1 hm.2 hs hc.1 hc.2⟩)
      (fun x hx t ht => ⟨hC x hx t ht, hreload x hx⟩) ⟨Inv.boot h.1, boot_ledger h.1⟩
  exact key.2

/-- In every state reached by such steps, a module that only installs of removed modules
have loaded is removed, and one that the host has loaded more often than it was unloaded
is there. -/
theorem no_orphans (h : Runs E s₀ tr s)
    (hreload : ∀ x ∈ tr, ∀ fname ch fuel, x.2 ≠ .reload fname ch fuel)
    (hC : Run.Every (step E) (fun m e _ => KeepsHolders E m e) tr) (c : EntryPtr) :
    ((∀ x ∈ tr, x.1.loads E x.2 = some c →
        ∃ q, x.1.rt.loadingMod = some q ∧ s.rt.entries q = none) → s.rt.Removed c) ∧
      (unloadsOf E tr c < hostLoads E tr c → ∃ k, s.rt.modHd.lookup k = some c) := by
  obtain ⟨L, hw⟩ := h.inv.wf
  have hled := h.ledger hreload hC
  constructor
  · intro hall
    refine removed_of_freed hw ?_
    by_contra hlive
    obtain ⟨e, he⟩ := Option.ne_none_iff_exists'.mp hlive
    rcases hled.held c e.core (congrArg (Option.map ModEntry.core) he) with
      ⟨x, hx, hloads, hnone⟩ | ⟨-, q, -, hq, x, hx, hloads, hmod⟩
    · obtain ⟨q, hq, -⟩ := hall x hx hloads
      rw [hnone] at hq
      cases hq
    · obtain ⟨q', hq', hdead⟩ := hall x hx hloads
      cases hmod.symm.trans hq'
      exact hq (congrArg (Option.map ModEntry.core) hdead)
  · intro hlt
    have hlive : s.rt.entries c ≠ none := fun hnone =>
      absurd (hled.gone c (congrArg (Option.map ModEntry.core) hnone)) (not_le.mpr hlt)
    obtain ⟨e, he⟩ := Option.ne_none_iff_exists'.mp hlive
    exact ⟨e.modKey, (hw.key c e he).2⟩

/-- `p` loads `q` and is unloaded: `q` goes with it. -/
theorem no_orphans_cascade : ∃ s, Run.exec (step sampleEnv) sampleState
      [.load "p" { addr := 1 }, .load "q" { addr := 2 }, .installRet, .installRet,
        .unload "p" 3] = .ok s ∧ s.rt.Removed 1 := by
  obtain ⟨s, hs, hobs⟩ := sample_check [.load "p" { addr := 1 }, .load "q" { addr := 2 },
    .installRet, .installRet, .unload "p" 3] (fun s => (s.rt.entries 0).isNone) (by decide)
  have hgone : s.rt.entries 0 = none := Option.isNone_iff_eq_none.mp hobs
  have hall : (Run.trace (step sampleEnv) sampleState [.load "p" { addr := 1 },
      .load "q" { addr := 2 }, .installRet, .installRet, .unload "p" 3]).all (fun x =>
        decide (x.1.loads sampleEnv x.2 = some 1 → x.1.rt.loadingMod = some 0)) = true := by decide
  have hevents := Run.trace_events hs
  refine ⟨s, hs, (no_orphans (sample_runs hs) (fun x hx fname ch fuel hr => ?_) ?_ 1).1
    fun x hx hl => ⟨0, of_decide_eq_true (List.all_eq_true.mp hall x hx) hl, hgone⟩⟩
  · have hx := List.mem_map_of_mem (f := (·.2)) hx
    rw [hevents, hr] at hx
    simp at hx
  refine Run.every_trace fun m₁ h₁ =>
    ⟨⟨fun _ _ _ p hp => (by cases hp), fun _ _ _ hq => (by cases hq)⟩, ?_⟩
  refine Run.every_trace fun m₂ h₂ => ⟨?_, ?_⟩
  · have hobs :=
      Run.check_at (P := fun s => decide (s.rt.loadingMod = some 0) && (s.rt.entries 0).isSome &&
        decide (s.rt.moduleLookup sampleEnv "q" s.rt.currentRegionId = none))
      (by decide) (Run.exec_cons h₁ (Run.exec_nil _ _))
    simp only [Bool.and_eq_true, decide_eq_true_eq] at hobs
    refine ⟨fun _ _ _ p hp => ?_, fun c q hl => ?_⟩
    · cases hobs.1.1.symm.trans hp
      exact Option.isSome_iff_ne_none.mp hobs.1.2
    · cases hobs.2.symm.trans hl
  refine Run.every_trace fun m₃ h₃ => ⟨trivial, Run.every_trace fun m₄ h₄ => ⟨trivial, ?_⟩⟩
  refine Run.every_trace fun m₅ h₅ => ⟨?_, fun _ hx => by simp [Run.trace] at hx⟩
  have hm₄ := Run.exec_cons h₁ (Run.exec_cons h₂ (Run.exec_cons h₃ (Run.exec_cons h₄ (Run.exec_nil _ _))))
  have hobs := Run.check_at (P := fun s =>
      decide (s.rt.moduleLookup sampleEnv "p" s.rt.currentRegionId = some 0) &&
      decide (s.rt.loader 1 = some 0) && decide (s.rt.childrenOf sampleEnv 0 = [1]) &&
      decide (s.rt.childrenOf sampleEnv 1 = []) &&
      (s.rt.entries 1).any fun e => decide (e.ctx = some 3) &&
        decide ((s.rt.ctxs 3).modulePath = .str "q") && decide (e.loadPath = "q"))
    (by decide) hm₄
  simp only [Bool.and_eq_true, decide_eq_true_eq, Option.any_eq_true_iff_get] at hobs
  obtain ⟨⟨⟨⟨hp, hlink⟩, hkids⟩, hnone⟩, hlive, ⟨hx, hpath⟩, hload⟩ := hobs
  have hw := (sample_runs hm₄).inv.wf
  intro p hl _ y hy
  cases hl.symm.trans hp
  have hcases : y = 0 ∨ y = 1 := by
    induction hy with
    | root => exact .inl rfl
    | @child y c hy hc hlast ih =>
        obtain ⟨L, hw⟩ := hw
        -- a child is among those collected for its parent
        have hmem : c ∈ m₄.rt.childrenOf sampleEnv y ∨ c = y := by
          by_cases hcy : c = y
          · exact .inr hcy
          · exact .inl ((mem_childrenOf_addr hw).mpr ⟨hcy, y, hc, rfl⟩)
        rcases ih with rfl | rfl
        · rw [hkids, List.mem_singleton] at hmem
          exact hmem.symm
        · rw [hnone] at hmem
          exact .inr (hmem.resolve_left (List.not_mem_nil))
  rcases hcases with rfl | rfl
  · intro c hc
    rw [hkids, List.mem_singleton] at hc
    subst hc
    exact ⟨hlink, _, 3, "q", congrArg (Option.map ModEntry.core) (Option.some_get hlive).symm, hx, hpath,
      hload.symm⟩
  · intro c hc
    rw [hnone] at hc
    cases hc

/-- `p` loads `q` twice. Once `p` is unloaded, nobody is left who has loaded `q`, and `q`
stays. -/
theorem orphan_loaded_twice : ∃ s, Run.exec (step sampleEnv) sampleState
      [.load "p" { addr := 1 }, .load "q" { addr := 2 }, .installRet, .load "q" { addr := 3 },
        .installRet, .unload "p" 3] = .ok s ∧
    (∀ x ∈ Run.trace (step sampleEnv) sampleState
        [.load "p" { addr := 1 }, .load "q" { addr := 2 }, .installRet, .load "q" { addr := 3 },
          .installRet, .unload "p" 3],
      x.1.loads sampleEnv x.2 = some 1 →
        ∃ q, x.1.rt.loadingMod = some q ∧ s.rt.entries q = none) ∧
    s.rt.moduleLookup sampleEnv "q" xyRegionRoot = some 1 := by
  obtain ⟨s, hs, hobs⟩ := sample_check [.load "p" { addr := 1 }, .load "q" { addr := 2 },
      .installRet, .load "q" { addr := 3 }, .installRet, .unload "p" 3]
    (fun s => (s.rt.entries 0).isNone &&
      decide (s.rt.moduleLookup sampleEnv "q" xyRegionRoot = some 1)) (by decide)
  simp only [Bool.and_eq_true, decide_eq_true_eq, Option.isNone_iff_eq_none] at hobs
  have hloads : ∀ x ∈ Run.trace (step sampleEnv) sampleState
      [.load "p" { addr := 1 }, .load "q" { addr := 2 }, .installRet, .load "q" { addr := 3 },
        .installRet, .unload "p" 3],
      x.1.loads sampleEnv x.2 = some 1 → x.1.rt.loadingMod = some 0 := by
    have hall : (Run.trace (step sampleEnv) sampleState
        [.load "p" { addr := 1 }, .load "q" { addr := 2 }, .installRet, .load "q" { addr := 3 },
          .installRet, .unload "p" 3]).all (fun x =>
        decide (x.1.loads sampleEnv x.2 = some 1 → x.1.rt.loadingMod = some 0)) = true := by decide
    exact fun x hx => of_decide_eq_true (List.all_eq_true.mp hall x hx)
  exact ⟨s, hs, fun x hx hl => ⟨0, hloads x hx hl, hobs.1⟩, hobs.2⟩

end Runs

end Xylem

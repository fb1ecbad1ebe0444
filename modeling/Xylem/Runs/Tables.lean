import Xylem.Runs.Step

namespace Xylem

open Xylem.Runtime

/-- The module table and the lists of the regions agree. -/
structure TablesAgree (s : Runtime) : Prop where
  /-- each list can be walked, and its links, its head and its tail are those of what the
  walk finds -/
  lists : ∀ r, ∃ l, s.regionMods r = .ok l ∧ Listed s r l
  table : ∀ k p, s.modHd.lookup k = some p → ∃ e, s.entries p = some e ∧ e.modKey = k
  listed : ∀ p, (∃ k, s.modHd.lookup k = some p) ↔ ∃ r l, s.regionMods r = .ok l ∧ p ∈ l
  unique : ∀ p r l r' l', s.regionMods r = .ok l → p ∈ l → s.regionMods r' = .ok l' → p ∈ l' →
    r = r'
  member : ∀ r l p, s.regionMods r = .ok l → p ∈ l → ∃ e, s.entries p = some e ∧
    s.regionLookup e.regionId = some r ∧ e.regionEntry = some r ∧
    e.modKey = ⟨e.loadPath, e.regionId⟩ ∧ s.modHd.lookup e.modKey = some p

theorem WF.tablesAgree {s : Runtime} {L : RegionPtr → List EntryPtr} (h : WF s none L) :
    TablesAgree s := by
  have walk : ∀ {r l}, s.regionMods r = .ok l → l = L r := by
    intro r l hl
    exact Except.ok.inj (hl.symm.trans (h.regionMods r))
  constructor
  · exact fun r => ⟨L r, h.regionMods r, h.lists r⟩
  · exact h.table
  · intro p
    constructor
    · rintro ⟨k, hk⟩
      obtain ⟨e, he, -⟩ := h.table k p hk
      obtain ⟨r, -, -, hp⟩ := h.region_of he (by simp)
      exact ⟨r, L r, h.regionMods r, hp⟩
    · rintro ⟨r, l, hl, hp⟩
      rw [walk hl] at hp
      obtain ⟨-, e, he, -⟩ := h.member r p hp
      exact ⟨e.modKey, (h.key p e he).2⟩
  · intro p r l r' l' hl hp hl' hp'
    rw [walk hl] at hp
    rw [walk hl'] at hp'
    exact h.member_unique hp hp'
  · intro r l p hl hp
    rw [walk hl] at hp
    obtain ⟨-, e, he, hre, hid⟩ := h.member r p hp
    obtain ⟨hkey, hlook⟩ := h.key p e he
    exact ⟨e, he, hid, hre, hkey, hlook⟩

/-- In every state of every run, also while an install script is running. -/
theorem tables_agree {E : Env} {s₀ s : State} {tr : List (State × Event)} (h : Runs E s₀ tr s) :
    TablesAgree s.rt := by
  obtain ⟨L, hw⟩ := h.inv.wf
  exact hw.tablesAgree

/-- A claiming load whose install loads two modules and unloads one, and a load that fails. -/
theorem tables_agree_claim : ∃ s, Run.exec (step sampleEnv) sampleState
      [.areg 0, .load "q" { addr := 1 }, .installRet, .requireClaim (some 0) 0,
        .load "m" { addr := 2, granted := 1 }, .load "p" { addr := 3 }, .installRet,
        .load "bad" { addr := 4 }, .load "r" { addr := 5 }, .installRet, .unload "p" 9,
        .installRet] = .ok s ∧ s.rt.modHd.keys.length = 3 ∧ TablesAgree s.rt := by
  obtain ⟨s, hs, hobs⟩ := sample_check [.areg 0, .load "q" { addr := 1 }, .installRet,
      .requireClaim (some 0) 0, .load "m" { addr := 2, granted := 1 }, .load "p" { addr := 3 },
      .installRet, .load "bad" { addr := 4 }, .load "r" { addr := 5 }, .installRet, .unload "p" 9,
      .installRet]
    (fun s => decide (s.rt.modHd.keys.length = 3)) (by decide)
  exact ⟨s, hs, of_decide_eq_true hobs, tables_agree (sample_runs hs)⟩

end Xylem

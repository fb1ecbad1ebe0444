import Xylem.Tree.Tree

namespace Xylem

namespace Runtime
variable {s t : Runtime} {E : Env}

theorem core_tree (h : t.core = s.core) : t.tree = s.tree := congrArg Core.tree h

theorem upward_tree (s : Runtime) (r : RegionPtr) : s.upward r = s.tree.upward r := rfl

theorem setRegion_tree (s : Runtime) (r : RegionPtr) (f : RegionEntry → RegionEntry)
    (g : RegionNode → RegionNode) (h : ∀ re, (f re).toRegionNode = g re.toRegionNode) :
    (s.setRegion r f).tree = s.tree.modify r g := by
  simp only [tree, setRegion, Tree.modify, Tree.mk.injEq, and_true]
  funext x
  by_cases hx : x = r
  · subst hx
    simp [h]
  · simp [hx]

theorem foldl_setRegion (f : RegionEntry → RegionEntry) (hf : ∀ re, f (f re) = f re)
    (l : List RegionPtr) (s : Runtime) :
    l.foldl (fun s e => s.setRegion e f) s =
      { s with regions := fun x => if x ∈ l then f (s.regions x) else s.regions x } := by
  induction l generalizing s with
  | nil => simp
  | cons r l ih =>
      rw [List.foldl_cons, ih]
      simp only [setRegion]
      congr 1
      funext x
      by_cases hx : x = r
      · subst hx
        simp [hf]
      · simp [hx]

theorem regionPropagateDeny_tree (s : Runtime) (r : RegionPtr) :
    (s.regionPropagateDeny r).tree =
      { s.tree with node := fun x =>
          if x ∈ s.upward r then { s.tree.node x with hasDeny := true } else s.tree.node x } := by
  rw [regionPropagateDeny,
    foldl_setRegion (fun re => { re with hasDeny := true }) (fun _ => rfl)]
  simp only [tree, Tree.mk.injEq, and_true]
  funext x
  split <;> rfl

theorem xyDeny_tree (E : Env) (s : Runtime) (what : String) (type : DenyType) :
    (s.xyDeny E what type).1.tree =
      match s.regionLookup s.currentRegionId with
      | none => s.tree
      | some r => s.tree.deny E r what type := by
  unfold xyDeny
  cases hr : s.regionLookup s.currentRegionId with
  | none => rfl
  | some r =>
      have hup : ∀ f, (s.tree.modify r (Tree.addDeny E what f)).upward r = s.tree.upward r := by
        intro f
        have : (s.tree.modify r (Tree.addDeny E what f)).parentOf = s.tree.parentOf := by
          funext x
          simp only [Tree.parentOf, Tree.modify, Function.update_apply]
          split
          · rename_i hx
            rw [hx]
            cases f <;> rfl
          · rfl
        simp only [Tree.upward, this]
        rfl
      simp only
      rw [core_tree (setErr_core _ _), core_tree (regionDispatchGenBump_core _ _),
        regionPropagateDeny_tree]
      cases type with
      | hook =>
          rw [upward_tree, setRegion_tree s r _ (Tree.addDeny E what .hook) fun _ => rfl, hup]
          rfl
      | module =>
          rw [upward_tree, setRegion_tree s r _ (Tree.addDeny E what .module) fun _ => rfl, hup]
          rfl

theorem moduleRemoveDenies_tree (s : Runtime) (r : RegionPtr) (path : String) :
    (s.moduleRemoveDenies r path).tree = s.tree ∨
      (s.moduleRemoveDenies r path).tree = s.tree.removeDenies r path := by
  unfold moduleRemoveDenies
  split
  · exact .inr (setRegion_tree s r _ _ fun _ => rfl)
  · exact .inl rfl

theorem regionCreateChild_tree (s : Runtime) (r : RegionPtr) (id : RegionId) (bits : UInt8) :
    (s.regionCreateChild r id bits).tree = s.tree.claim r id bits := by
  rw [regionCreateChild, core_tree (regionMarkSubtreeDirty_core _ _),
    setRegion_tree _ r _ (fun re => { re with children := s.regionNext :: re.children }) fun _ => rfl]
  simp only [Tree.claim, tree, Tree.modify, Tree.mk.injEq, and_true]
  funext x
  by_cases hx : x = s.regionNext
  · subst hx
    by_cases hr : s.regionNext = r <;> simp [hr]
  · by_cases hr : x = r
    · subst hr
      simp [hx]
    · simp [hx, hr]

theorem regionAllocFrom_spec (s : Runtime) (base : RegionId) (shift n : Nat) (j : Nat) (id : RegionId)
    (h : s.regionAllocFrom base shift n (BitVec.ofNat 64 j) = id) (hid : id ≠ xyRegionInvalid) :
    ∃ k, j ≤ k ∧ k < j + n ∧ id = base ||| (BitVec.ofNat 64 k <<< shift) ∧ s.regionHd id = none ∧
      ∀ i, j ≤ i → i < k → s.regionHd (base ||| (BitVec.ofNat 64 i <<< shift)) ≠ none := by
  induction n generalizing j with
  | zero => exact absurd h.symm hid
  | succ n ih =>
      simp only [regionAllocFrom, regionLookup] at h
      cases hl : s.regionHd (base ||| BitVec.ofNat 64 j <<< shift) with
      | none =>
          simp only [hl] at h
          exact ⟨j, le_rfl, by omega, h.symm, h ▸ hl, fun i h1 h2 => by omega⟩
      | some r =>
          simp only [hl] at h
          have hj : BitVec.ofNat 64 j + 1 = BitVec.ofNat 64 (j + 1) := (BitVec.ofNat_add j 1).symm
          rw [hj] at h
          obtain ⟨k, h1, h2, h3, h4, h5⟩ := ih (j + 1) h
          refine ⟨k, by omega, by omega, h3, h4, fun i hi hk => ?_⟩
          rcases Nat.lt_or_ge j i with hji | hji
          · exact h5 i hji hk
          · have : i = j := by omega
            subst this
            simp [hl]

/-- A slot handed out is the first free one, within what the loop probes. -/
theorem regionAllocSlot_claims {r : RegionPtr} {bits : UInt8} (hr : r < s.regionNext)
    (h0 : bits ≠ 0) (h64 : bits ≤ 64)
    (hid : s.regionAllocSlot r bits ≠ xyRegionInvalid) :
    ∃ k, s.tree.Claims r bits k ∧ s.regionAllocSlot r bits = s.tree.slotId r bits k := by
  have hfit : ¬ 64 < (s.regions r).plen + bits := by
    intro hlt
    exact hid (by simp only [regionAllocSlot, if_pos hlt])
  have hslot : s.regionAllocSlot r bits =
      s.regionAllocFrom (s.regions r).id (64 - ((s.regions r).plen + bits).toNat)
        (if (s.regions r).plen + bits = 64 then 2 ^ 64 else 2 ^ bits.toNat)
        (BitVec.ofNat 64 0) := by
    simp only [regionAllocSlot, if_neg hfit]
    rfl
  obtain ⟨k, -, hk, hk', hfree, htaken⟩ := regionAllocFrom_spec s _ _ _ _ _ hslot.symm hid
  refine ⟨k, ⟨hr, h0, h64, ?_, ⟨?_, ?_⟩, ?_, ?_⟩, hk'⟩
  · exact UInt8.not_lt.mp hfit
  · rw [hk'] at hfree
    exact hfree
  · exact fun j hj => htaken j (Nat.zero_le j) hj
  · exact (Nat.zero_add (if (s.regions r).plen + bits = 64 then 2 ^ 64 else 2 ^ bits.toNat)) ▸ hk
  · rw [hk'] at hid
    exact hid

end Runtime
end Xylem

import Xylem.Ops.Result

namespace Xylem

abbrev Holding := ImageId × Option ImageId

namespace Files

def copied (F : Files) : Option ImageId → Files
  | some f => { F with copyNext := F.copyNext + 1, tmpFiles := f :: F.tmpFiles }
  | none => F

def opened (F : Files) (h : ImageId) : Files :=
  { F with dlRefs := Function.update F.dlRefs h (F.dlRefs h + 1) }

/-- All references and copies are held by `l`, and nothing was released that was not held. -/
structure Holds (F : Files) (l : List Holding) : Prop where
  refs : ∀ h, F.dlRefs h = (l.countP fun x => decide (x.1 = h) : Nat)
  copies : F.tmpFiles.Perm (l.filterMap (·.2))
  nodup : F.tmpFiles.Nodup
  fresh : ∀ f ∈ F.tmpFiles, f.copy < F.copyNext
  released : F.badReleases = 0

section
variable {F : Files} {l l' : List Holding} {h : ImageId} {tmp : Option ImageId}

theorem Holds.perm (hh : Holds F l) (hl : l.Perm l') : Holds F l' := by
  refine ⟨fun h => ?_, hh.copies.trans (hl.filterMap _), hh.nodup, hh.fresh, hh.released⟩
  rw [hh.refs h, hl.countP_eq]

theorem Holds.tried (hh : Holds F l) : Holds ((F.copied tmp).unlink tmp) l := by
  cases tmp with
  | none => exact hh
  | some f =>
      refine ⟨hh.refs, ?_, ?_, fun g hg => ?_, ?_⟩
      · simpa [unlink, copied] using hh.copies
      · simpa [unlink, copied] using hh.nodup
      · have hlt := hh.fresh g (by simpa [unlink, copied] using hg)
        exact Nat.lt_succ_of_lt hlt
      · simpa [unlink, copied] using hh.released

/-- A load takes a reference, and a copy with a number that no other has. -/
theorem Holds.taken (hh : Holds F l) (ht : ∀ f, tmp = some f → f.copy = F.copyNext) :
    Holds ((F.copied tmp).opened h) ((h, tmp) :: l) := by
  have hrefs : ∀ g, Function.update F.dlRefs h (F.dlRefs h + 1) g =
      (((h, tmp) :: l).countP fun x => decide (x.1 = g) : Nat) := by
    intro g
    by_cases hg : g = h
    · subst hg
      simp [hh.refs g]
    · simp [hg, Ne.symm hg, hh.refs g]
  cases tmp with
  | none => exact ⟨hrefs, by simpa [opened, copied] using hh.copies, hh.nodup, hh.fresh, hh.released⟩
  | some f =>
      have hf := ht f rfl
      have hnew : f ∉ F.tmpFiles := fun hm => (hh.fresh f hm).ne hf
      refine ⟨hrefs, ?_, ?_, fun g hg => ?_, hh.released⟩
      · simpa [opened, copied] using hh.copies
      · simpa [opened, copied] using ⟨hnew, hh.nodup⟩
      · rcases List.mem_cons.mp hg with rfl | hg
        · exact hf.trans_lt (Nat.lt_succ_self _)
        · exact Nat.lt_succ_of_lt (hh.fresh g hg)

theorem Holds.release (hh : Holds F ((h, tmp) :: l)) : Holds (F.release h tmp) l := by
  have hpos : 0 < F.dlRefs h := by
    rw [hh.refs h]
    simp
  have hrefs : ∀ g, Function.update F.dlRefs h (F.dlRefs h - 1) g =
      (l.countP fun x => decide (x.1 = g) : Nat) := by
    intro g
    have hg := hh.refs g
    by_cases hgh : g = h
    · subst hgh
      simp [hg]
    · simpa [hgh, Ne.symm hgh] using hg
  cases tmp with
  | none =>
      refine ⟨hrefs, by simpa [Files.release, close, unlink] using hh.copies, hh.nodup, hh.fresh, ?_⟩
      simpa [Files.release, close, unlink, hpos] using hh.released
  | some f =>
      have hcopies : F.tmpFiles.Perm (f :: l.filterMap (·.2)) := by simpa using hh.copies
      have hmem : f ∈ F.tmpFiles := hcopies.mem_iff.mpr List.mem_cons_self
      refine ⟨hrefs, ?_, hh.nodup.erase f, fun g hg => ?_, ?_⟩
      · have herase := hcopies.erase f
        simpa [Files.release, close, unlink] using herase
      · exact hh.fresh g (List.mem_of_mem_erase hg)
      · simpa [Files.release, close, unlink, hpos, hmem] using hh.released

end
end Files

namespace Holdings
variable {o : Holdings} {p : EntryPtr} {x : Holding}

/-- What the live entries hold, in the order in which they were made. -/
def holders (o : Holdings) : List Holding := (List.range o.next).filterMap o.own

theorem filterMap_set {α β : Type} [DecidableEq α] {f : α → Option β} {l : List α} {a : α} {b : β}
    (hl : l.Nodup) (ha : a ∈ l) (hb : f a = some b) :
    (l.filterMap f).Perm (b :: l.filterMap (Function.update f a none)) := by
  have hp := List.perm_cons_erase ha
  have hrest : (l.erase a).filterMap (Function.update f a none) = (l.erase a).filterMap f := by
    apply List.filterMap_congr
    intro c hc
    exact Function.update_of_ne (fun h => hl.not_mem_erase (h ▸ hc)) _ _
  have h1 := hp.filterMap f
  have h2 := hp.filterMap (Function.update f a none)
  rw [List.filterMap_cons_some hb] at h1
  rw [List.filterMap_cons_none (Function.update_self ..), hrest] at h2
  exact h1.trans (h2.symm.cons b)

theorem holders_set (hp : p < o.next) (hx : o.own p = some x) :
    o.holders.Perm (x :: (o.set p none).holders) :=
  filterMap_set List.nodup_range (List.mem_range.mpr hp) hx

theorem holders_add (o : Holdings) (x : Holding) : (o.add x).holders = o.holders ++ [x] := by
  have hrest : (List.range o.next).filterMap (o.add x).own = o.holders := by
    apply List.filterMap_congr
    intro p hp
    exact Function.update_of_ne (List.mem_range.mp hp).ne _ _
  have hlast : (o.add x).own o.next = some x := Function.update_self ..
  rw [holders]
  simp only [add, List.range_succ, List.filterMap_append] at hrest hlast ⊢
  rw [hrest, List.filterMap_cons_some hlast, List.filterMap_nil]

theorem holders_add_set (o : Holdings) (x : Holding) :
    ((o.add x).set o.next none).holders.Perm o.holders := by
  have h := holders_set (o := o.add x) (p := o.next) (Nat.lt_succ_self _) (Function.update_self ..)
  rw [holders_add] at h
  exact ((List.perm_append_singleton x o.holders).symm.trans h).cons_inv.symm

theorem add_below (h : ∀ p x, o.own p = some x → p < o.next) :
    ∀ p y, (o.add x).own p = some y → p < (o.add x).next := by
  intro p y hp
  by_cases hpn : p = o.next
  · exact hpn.trans_lt (Nat.lt_succ_self _)
  · exact Nat.lt_succ_of_lt (h p y (by simpa [add, set, hpn] using hp))

theorem set_below (h : ∀ p x, o.own p = some x → p < o.next) :
    ∀ q y, (o.set p none).own q = some y → q < (o.set p none).next := by
  intro q y hq
  by_cases hqp : q = p
  · subst hqp
    simp [set] at hq
  · exact h q y (by simpa [set, hqp] using hq)

end Holdings
end Xylem

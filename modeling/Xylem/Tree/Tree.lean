import Xylem.View.Core

/-!
# The region tree on its own

What the library does to the tree: create a child in a free slot, deny, take
denies back, set the gate. `Tree.Ok` is what holds of every tree so reached.
-/
namespace Xylem

namespace Tree

def parentOf (T : Tree) (r : RegionPtr) : Option RegionPtr := (T.node r).parent

def upward (T : Tree) (r : RegionPtr) : List RegionPtr :=
  Forest.climb T.parentOf T.next (some r)

def modify (T : Tree) (r : RegionPtr) (f : RegionNode → RegionNode) : Tree :=
  { T with node := Function.update T.node r (f (T.node r)) }

def claim (T : Tree) (parent : RegionPtr) (id : RegionId) (granted : UInt8) : Tree :=
  let re := T.node parent
  let child : RegionNode :=
    { id := id, plen := re.plen + granted, depth := re.depth + 1, childBits := granted,
      parent := some parent }
  let T' : Tree :=
    ⟨Function.update T.node T.next child, T.next + 1, Function.update T.hd id (some T.next)⟩
  T'.modify parent fun re => { re with children := T.next :: re.children }

def addDeny (E : Env) (what : String) (type : DenyType) (re : RegionNode) : RegionNode :=
  match type with
  | .hook => { re with
      deniedHooks := what :: re.deniedHooks, deniedHooksSet := insert what re.deniedHooksSet }
  | .module => { re with
      deniedModules := E.moduleLoadPath what :: re.deniedModules
      deniedModulesSet := insert (E.moduleLoadPath what) re.deniedModulesSet }

/-- Record the deny in `r` and raise the flag from `r` up to the root. -/
def deny (E : Env) (T : Tree) (r : RegionPtr) (what : String) (type : DenyType) : Tree :=
  let T' := T.modify r (addDeny E what type)
  { T' with node := fun x =>
      if x ∈ T.upward r then { T'.node x with hasDeny := true } else T'.node x }

def removeDenies (T : Tree) (r : RegionPtr) (path : String) : Tree :=
  T.modify r fun re => { re with
    deniedModules := re.deniedModules.filter (· ≠ path)
    deniedModulesSet := re.deniedModulesSet.erase path }

def gate (T : Tree) (r : RegionPtr) (fn : Option HandlerPtr) (ud : Nat) : Tree :=
  T.modify r fun re => { re with
    claimHandler := fn, claimHandlerUd := if fn.isSome then ud else 0, requireClaim := fn.isSome }

def slotId (T : Tree) (r : RegionPtr) (bits : UInt8) (k : Nat) : RegionId :=
  (T.node r).id ||| (BitVec.ofNat 64 k <<< (64 - ((T.node r).plen + bits).toNat))

/-- Slot `k` is the first one whose id no region has. -/
structure FirstFree (T : Tree) (r : RegionPtr) (bits : UInt8) (k : Nat) : Prop where
  free : T.hd (T.slotId r bits k) = none
  taken : ∀ j < k, T.hd (T.slotId r bits j) ≠ none

/-- A claim that succeeds: the width is in range, the prefix fits, and the slot
is the first free one of those probed. -/
structure Claims (T : Tree) (r : RegionPtr) (bits : UInt8) (k : Nat) : Prop where
  region : r < T.next
  pos : bits ≠ 0
  le : bits ≤ 64
  fits : (T.node r).plen + bits ≤ 64
  first : T.FirstFree r bits k
  probed : k < if (T.node r).plen + bits = 64 then 2 ^ 64 else 2 ^ bits.toNat
  valid : T.slotId r bits k ≠ xyRegionInvalid

/-- What holds of every region tree the library builds. -/
structure Ok (T : Tree) : Prop where
  parent_lt : ∀ r p, T.parentOf r = some p → p < r
  region_lt : ∀ r p, T.parentOf r = some p → r < T.next
  beyond : ∀ r, T.next ≤ r → T.node r = {}
  hd_node : ∀ id r, T.hd id = some r → r < T.next ∧ (T.node r).id = id
  node_hd : ∀ r < T.next, T.hd (T.node r).id = some r
  root_only : ∀ r < T.next, T.parentOf r = none → r = 0
  children : ∀ x y, y ∈ (T.node x).children ↔ T.parentOf y = some x
  children_nodup : ∀ x, (T.node x).children.Nodup
  plen : ∀ r p, T.parentOf r = some p →
    (T.node r).plen.toNat = (T.node p).plen.toNat + (T.node r).childBits.toNat ∧
      0 < (T.node r).childBits.toNat
  plen_le : ∀ r, (T.node r).plen.toNat ≤ 64
  flag_up : ∀ r p, T.parentOf r = some p → (T.node r).hasDeny = true → (T.node p).hasDeny = true
  flag_hooks : ∀ r, (T.node r).deniedHooksSet.Nonempty → (T.node r).hasDeny = true
  flag_modules : ∀ r, (T.node r).deniedModules ≠ [] → (T.node r).hasDeny = true
  modules_set : ∀ r, (T.node r).deniedModulesSet = (T.node r).deniedModules.toFinset

/-! ### Rules -/

theorem removeDenies_node (T : Tree) (r x : RegionPtr) (path : String) :
    ((T.removeDenies r path).node x).parent = (T.node x).parent ∧
      ((T.removeDenies r path).node x).hasDeny = (T.node x).hasDeny := by
  by_cases hx : x = r
  · subst hx
    simp [removeDenies, modify]
  · simp [removeDenies, modify, hx]

theorem gate_node (T : Tree) (r x : RegionPtr) (fn : Option HandlerPtr) (ud : Nat) :
    ((T.gate r fn ud).node x).parent = (T.node x).parent ∧
      ((T.gate r fn ud).node x).hasDeny = (T.node x).hasDeny ∧
      ((T.gate r fn ud).node x).deniedHooksSet = (T.node x).deniedHooksSet := by
  by_cases hx : x = r
  · subst hx
    simp [gate, modify]
  · simp [gate, modify, hx]

theorem gate_parentOf (T : Tree) (r : RegionPtr) (fn : Option HandlerPtr) (ud : Nat) :
    (T.gate r fn ud).parentOf = T.parentOf := funext fun x => (gate_node T r x fn ud).1

theorem addDeny_node (E : Env) (T : Tree) (r x : RegionPtr) (what : String) (type : DenyType) :
    ((T.modify r (addDeny E what type)).node x).parent = (T.node x).parent ∧
      ((T.modify r (addDeny E what type)).node x).hasDeny = (T.node x).hasDeny := by
  by_cases hx : x = r
  · subst hx
    cases type <;> simp [modify, addDeny]
  · simp [modify, hx]

theorem deny_parentOf (E : Env) (T : Tree) (r : RegionPtr) (what : String) (type : DenyType) :
    (T.deny E r what type).parentOf = T.parentOf := by
  funext x
  refine Eq.trans ?_ (addDeny_node E T r x what type).1
  simp only [parentOf, deny]
  split <;> rfl

section Ok
variable {T : Tree}

theorem Ok.ranked (h : T.Ok) : Forest.Ranked T.parentOf id := fun r p hp => h.parent_lt r p hp

theorem Ok.plen_lt (h : T.Ok) {r p : RegionPtr} (hp : T.parentOf r = some p) :
    (T.node p).plen.toNat < (T.node r).plen.toNat := by
  have := h.plen r p hp
  omega

theorem Ok.plen_ranked (h : T.Ok) :
    Forest.Ranked T.parentOf fun r => (T.node r).plen.toNat :=
  fun _ _ hp => h.plen_lt hp

theorem Ok.parentOf_beyond (h : T.Ok) {r : RegionPtr} (hr : T.next ≤ r) : T.parentOf r = none := by
  rw [parentOf, h.beyond r hr]

theorem Ok.mem_upward (h : T.Ok) {a r : RegionPtr} (hr : r < T.next) :
    a ∈ T.upward r ↔ Forest.Anc T.parentOf a r :=
  Forest.mem_climb h.ranked (show id r < T.next from hr)

theorem Ok.of_shape (h : T.Ok) {T' : Tree} (hn : T'.next = T.next) (hhd : T'.hd = T.hd)
    (hs : ∀ r, (T'.node r).toRegionShape = (T.node r).toRegionShape)
    (hb : ∀ r, T.next ≤ r → T'.node r = {})
    (up : ∀ r p, T.parentOf r = some p → (T'.node r).hasDeny = true → (T'.node p).hasDeny = true)
    (hooks : ∀ r, (T'.node r).deniedHooksSet.Nonempty → (T'.node r).hasDeny = true)
    (mods : ∀ r, (T'.node r).deniedModules ≠ [] → (T'.node r).hasDeny = true)
    (set : ∀ r, (T'.node r).deniedModulesSet = (T'.node r).deniedModules.toFinset) : T'.Ok := by
  have hp : T'.parentOf = T.parentOf := by
    funext r
    simp only [parentOf, hs]
  constructor
  · simpa only [hp] using h.parent_lt
  · simpa only [hp, hn] using h.region_lt
  · simpa only [hn] using hb
  · simpa only [hhd, hn, hs] using h.hd_node
  · simpa only [hhd, hn, hs] using h.node_hd
  · simpa only [hp, hn] using h.root_only
  · simpa only [hp, hs] using h.children
  · simpa only [hs] using h.children_nodup
  · simpa only [hp, hs] using h.plen
  · simpa only [hs] using h.plen_le
  · simpa only [hp] using up
  · exact hooks
  · exact mods
  · exact set

theorem Ok.modify (h : T.Ok) {r : RegionPtr} {f : RegionNode → RegionNode} (hr : r < T.next)
    (hs : (f (T.node r)).toRegionShape = (T.node r).toRegionShape)
    (hd : (f (T.node r)).hasDeny = (T.node r).hasDeny)
    (hh : (f (T.node r)).deniedHooksSet = (T.node r).deniedHooksSet)
    (hm : (f (T.node r)).deniedModules.Sublist (T.node r).deniedModules)
    (set : (f (T.node r)).deniedModulesSet = (f (T.node r)).deniedModules.toFinset) :
    (T.modify r f).Ok := by
  have hx : ∀ x, (T.modify r f).node x = if x = r then f (T.node r) else T.node x := by
    intro x
    simp [Tree.modify, Function.update_apply]
  have hflag : ∀ x, ((T.modify r f).node x).hasDeny = (T.node x).hasDeny := by
    intro x
    rw [hx]
    split
    · rename_i he
      rw [hd, he]
    · rfl
  refine h.of_shape rfl rfl ?_ ?_ ?_ ?_ ?_ ?_
  · intro x
    rw [hx]
    split
    · rename_i he
      rw [hs, he]
    · rfl
  · intro x hle
    rw [hx, if_neg (hr.trans_le hle).ne', h.beyond x hle]
  · intro x p hp
    rw [hflag, hflag]
    exact h.flag_up x p hp
  · intro x
    rw [hflag, hx]
    split
    · rename_i he
      rw [hh, he]
      exact h.flag_hooks r
    · exact h.flag_hooks x
  · intro x
    rw [hflag, hx]
    split
    · rename_i he
      subst he
      intro hne
      refine h.flag_modules x fun h0 => hne ?_
      rw [h0] at hm
      exact List.sublist_nil.mp hm
    · exact h.flag_modules x
  · intro x
    rw [hx]
    split
    · exact set
    · exact h.modules_set x

theorem Ok.removeDenies (h : T.Ok) (r : RegionPtr) (path : String) : (T.removeDenies r path).Ok := by
  by_cases hr : r < T.next
  · refine h.modify hr rfl rfl rfl List.filter_sublist ?_
    ext x
    simp [h.modules_set r]
    tauto
  · have hb : T.removeDenies r path = T := by
      have : T.node r = {} := h.beyond r (not_lt.mp hr)
      simp only [Tree.removeDenies, Tree.modify, this, List.filter_nil, Finset.erase_empty]
      rw [Function.update_eq_self_iff.mpr]
      exact this.symm
    rw [hb]
    exact h

theorem Ok.gate (h : T.Ok) {r : RegionPtr} (hr : r < T.next) (fn : Option HandlerPtr) (ud : Nat) :
    (T.gate r fn ud).Ok :=
  h.modify hr rfl rfl rfl (List.Sublist.refl _) (h.modules_set r)

theorem Ok.deny (h : T.Ok) (E : Env) {r : RegionPtr} (hr : r < T.next) (what : String)
    (type : DenyType) : (T.deny E r what type).Ok := by
  have hmem : ∀ {x}, x ∈ T.upward r ↔ Forest.Anc T.parentOf x r := h.mem_upward hr
  have hself : r ∈ T.upward r := hmem.mpr (.refl _)
  have hx : ∀ x, (T.deny E r what type).node x =
      if x ∈ T.upward r then
        { (if x = r then addDeny E what type (T.node r) else T.node x) with hasDeny := true }
      else T.node x := by
    intro x
    simp only [Tree.deny, Tree.modify, Function.update_apply]
    by_cases hu : x ∈ T.upward r
    · simp [hu]
    · have : x ≠ r := fun he => hu (he ▸ hself)
      simp [hu, this]
  have hshape : (addDeny E what type (T.node r)).toRegionShape = (T.node r).toRegionShape := by
    cases type <;> rfl
  refine h.of_shape rfl rfl ?_ ?_ ?_ ?_ ?_ ?_
  · intro x
    rw [hx]
    split
    · split
      · rename_i he
        rw [he]
        exact hshape
      · rfl
    · rfl
  · intro x hle
    rw [hx, if_neg, h.beyond x hle]
    intro hu
    have hle' : x ≤ r := (hmem.mp hu).rank_le h.ranked
    exact absurd hr (hle.trans hle').not_gt
  · intro x p hp hf
    rw [hx] at hf ⊢
    split at hf
    · rename_i hu
      rw [if_pos (hmem.mpr ((Forest.Anc.link hp).trans (hmem.mp hu)))]
    · split
      · rfl
      · exact h.flag_up x p hp hf
  · intro x hne
    rw [hx] at hne ⊢
    split
    · rfl
    · rename_i hu
      rw [if_neg hu] at hne
      exact h.flag_hooks x hne
  · intro x hne
    rw [hx] at hne ⊢
    split
    · rfl
    · rename_i hu
      rw [if_neg hu] at hne
      exact h.flag_modules x hne
  · intro x
    rw [hx]
    split
    · split
      · cases type with
        | hook => exact h.modules_set r
        | module =>
            simp only [addDeny, h.modules_set r, List.toFinset_cons]
      · exact h.modules_set x
    · exact h.modules_set x

theorem claim_node (T : Tree) {r : RegionPtr} (hr : r < T.next) (id : RegionId) (bits : UInt8)
    (x : RegionPtr) : (T.claim r id bits).node x =
      if x = r then { T.node r with children := T.next :: (T.node r).children }
      else if x = T.next then
        { id := id, plen := (T.node r).plen + bits, depth := (T.node r).depth + 1,
          childBits := bits, parent := some r }
      else T.node x := by
  simp only [Tree.claim, Tree.modify, Function.update_apply, if_neg hr.ne]

theorem claim_parentOf (T : Tree) {r : RegionPtr} (hr : r < T.next) (id : RegionId) (bits : UInt8)
    (x : RegionPtr) : (T.claim r id bits).parentOf x =
      if x = T.next then some r else T.parentOf x := by
  rw [parentOf, claim_node T hr]
  by_cases hx : x = r
  · subst hx
    rw [if_pos rfl, if_neg hr.ne]
    rfl
  · rw [if_neg hx]
    split <;> rfl

theorem Ok.claim_anc (h : T.Ok) {r : RegionPtr} (hr : r < T.next) (id : RegionId) (bits : UInt8)
    {a x : RegionPtr} (hx : x ≠ T.next) :
    Forest.Anc (T.claim r id bits).parentOf a x ↔ Forest.Anc T.parentOf a x := by
  constructor
  · intro ha
    induction ha with
    | refl => exact .refl _
    | tail _ hy ih =>
        rw [claim_parentOf T hr, if_neg hx] at hy
        exact (ih ((h.parent_lt _ _ hy).trans (h.region_lt _ _ hy)).ne).of_parent hy
  · intro ha
    refine Forest.anc_congr (fun b hb => ?_) ha
    rw [claim_parentOf T hr, if_neg]
    rintro rfl
    rcases hb.cases_parent with hb | ⟨p, hp, hb⟩
    · exact hx hb.symm
    · have h1 : T.next ≤ p := hb.rank_le h.ranked
      have h2 : p < x := h.parent_lt _ _ hp
      exact absurd (h1.trans_lt h2) (h.region_lt _ _ hp).not_gt

theorem Claims.plen_add {r : RegionPtr} {bits : UInt8} {k : Nat} (h : T.Ok)
    (hc : T.Claims r bits k) :
    ((T.node r).plen + bits).toNat = (T.node r).plen.toNat + bits.toNat := by
  have h1 := h.plen_le r
  have h2 : bits.toNat ≤ 64 := hc.le
  rw [UInt8.toNat_add]
  omega

theorem Ok.claim (h : T.Ok) {r : RegionPtr} {bits : UInt8} {k : Nat} (hc : T.Claims r bits k) :
    (T.claim r (T.slotId r bits k) bits).Ok := by
  have hr := hc.region
  have hnode := claim_node T hr (T.slotId r bits k) bits
  have hpar := claim_parentOf T hr (T.slotId r bits k) bits
  have hnext : (T.claim r (T.slotId r bits k) bits).next = T.next + 1 := rfl
  have hhd : ∀ id, (T.claim r (T.slotId r bits k) bits).hd id =
      if id = T.slotId r bits k then some T.next else T.hd id := by
    intro id
    simp [Tree.claim, Tree.modify, Function.update_apply]
  generalize hid : T.slotId r bits k = id at *
  generalize T.claim r id bits = T' at *
  have hkeep : ∀ x, x ≠ T.next → (T'.node x).id = (T.node x).id ∧
      (T'.node x).plen = (T.node x).plen ∧ (T'.node x).childBits = (T.node x).childBits ∧
      (T'.node x).hasDeny = (T.node x).hasDeny ∧
      (T'.node x).deniedHooksSet = (T.node x).deniedHooksSet ∧
      (T'.node x).deniedModules = (T.node x).deniedModules ∧
      (T'.node x).deniedModulesSet = (T.node x).deniedModulesSet := by
    intro x hx
    rw [hnode]
    by_cases he : x = r
    · subst he
      rw [if_pos rfl]
      exact ⟨rfl, rfl, rfl, rfl, rfl, rfl, rfl⟩
    · rw [if_neg he, if_neg hx]
      exact ⟨rfl, rfl, rfl, rfl, rfl, rfl, rfl⟩
  have hnew : T'.node T.next =
      { id := id, plen := (T.node r).plen + bits, depth := (T.node r).depth + 1,
        childBits := bits, parent := some r } := by
    rw [hnode, if_neg hr.ne', if_pos rfl]
  have hbeyond := h.beyond T.next le_rfl
  have hlt : T.next < T'.next := hnext ▸ Nat.lt_succ_self _
  have hle : ∀ {x}, x < T'.next → x < T.next ∨ x = T.next := fun hx =>
    Nat.lt_succ_iff_lt_or_eq.mp (hx.trans_eq hnext)
  constructor
  · intro x p hp
    rw [hpar] at hp
    split at hp
    · rename_i he
      cases hp
      rw [he]
      exact hr
    · exact h.parent_lt x p hp
  · intro x p hp
    rw [hnext]
    rw [hpar] at hp
    split at hp
    · rename_i he
      rw [he]
      exact Nat.lt_succ_self _
    · exact (h.region_lt x p hp).trans (Nat.lt_succ_self _)
  · intro x hx
    have hlt : T.next < x := hlt.trans_le hx
    rw [hnode, if_neg (hr.trans hlt).ne', if_neg hlt.ne']
    exact h.beyond x hlt.le
  · intro i x hx
    rw [hhd] at hx
    split at hx
    · rename_i he
      cases hx
      refine ⟨hlt, ?_⟩
      rw [hnew, he]
    · obtain ⟨h1, h2⟩ := h.hd_node i x hx
      exact ⟨h1.trans hlt, (hkeep x h1.ne).1.trans h2⟩
  · intro x hx
    rcases hle hx with hx | hx
    · rw [(hkeep x hx.ne).1, hhd, if_neg]
      · exact h.node_hd x hx
      · intro he
        have h1 := h.node_hd x hx
        have h2 := hc.first.free
        rw [he, ← hid, h2] at h1
        cases h1
    · subst hx
      rw [hnew, hhd, if_pos rfl]
  · intro x hx hp
    rw [hpar] at hp
    split at hp
    · cases hp
    · rename_i hne
      exact h.root_only x ((hle hx).resolve_right hne) hp
  · intro x y
    rw [hnode, hpar]
    have hfresh : ∀ x, T.next ∉ (T.node x).children := by
      intro x hm
      have := (h.children x _).mp hm
      rw [h.parentOf_beyond le_rfl] at this
      cases this
    by_cases hy : y = T.next
    · subst hy
      rw [if_pos rfl]
      by_cases hx : x = r
      · simp [hx]
      · rw [if_neg hx]
        split
        · simp [Ne.symm hx]
        · simp [hfresh x, Ne.symm hx]
    · rw [if_neg hy, ← h.children]
      by_cases hx : x = r
      · subst hx
        simp [hy]
      · rw [if_neg hx]
        split
        · rename_i he
          subst he
          rw [hbeyond]
        · rfl
  · intro x
    rw [hnode]
    split
    · refine List.nodup_cons.mpr ⟨fun hm => ?_, h.children_nodup r⟩
      have := (h.children r _).mp hm
      rw [h.parentOf_beyond le_rfl] at this
      cases this
    · split
      · exact List.nodup_nil
      · exact h.children_nodup x
  · intro x p hp
    rw [hpar] at hp
    have hpos : 0 < bits.toNat :=
      Nat.pos_of_ne_zero fun h0 => hc.pos (UInt8.toNat_inj.mp h0)
    split at hp
    · rename_i he
      cases hp
      rw [he, hnew, (hkeep r hr.ne).2.1]
      exact ⟨hc.plen_add h, hpos⟩
    · rename_i hne
      have hpn := ((h.parent_lt x p hp).trans (h.region_lt x p hp)).ne
      rw [(hkeep x hne).2.1, (hkeep p hpn).2.1, (hkeep x hne).2.2.1]
      exact h.plen x p hp
  · intro x
    by_cases hx : x = T.next
    · rw [hx, hnew]
      exact hc.fits
    · rw [(hkeep x hx).2.1]
      exact h.plen_le x
  · intro x p hp hf
    rw [hpar] at hp
    split at hp
    · rename_i he
      rw [he, hnew] at hf
      cases hf
    · rename_i hne
      have hpn := ((h.parent_lt x p hp).trans (h.region_lt x p hp)).ne
      rw [(hkeep x hne).2.2.2.1] at hf
      rw [(hkeep p hpn).2.2.2.1]
      exact h.flag_up x p hp hf
  · intro x hx
    by_cases hn : x = T.next
    · rw [hn, hnew] at hx
      exact absurd hx (by simp)
    · rw [(hkeep x hn).2.2.2.2.1] at hx
      rw [(hkeep x hn).2.2.2.1]
      exact h.flag_hooks x hx
  · intro x hx
    by_cases hn : x = T.next
    · rw [hn, hnew] at hx
      exact absurd rfl hx
    · rw [(hkeep x hn).2.2.2.2.2.1] at hx
      rw [(hkeep x hn).2.2.2.1]
      exact h.flag_modules x hx
  · intro x
    by_cases hn : x = T.next
    · rw [hn, hnew]
      rfl
    · rw [(hkeep x hn).2.2.2.2.2.1, (hkeep x hn).2.2.2.2.2.2]
      exact h.modules_set x

end Ok
end Tree
end Xylem

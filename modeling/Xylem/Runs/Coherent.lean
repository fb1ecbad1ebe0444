import Xylem.Lib.Walk
import Xylem.Runs.Marked

/-!
# Caches agree with the walk

The flat list of a region and its dispatch vectors are filled when a call needs them, and
thrown away by a flag and a generation. A list that is not due for a rebuild is the plain
walk of the subtree, and a vector whose generation is current lists modules of that walk, in
its order, that export the hook.
-/
namespace Xylem

open Xylem.Runtime

namespace Runtime
variable {E : Env} {s t : Runtime} {L L' : RegionPtr → List EntryPtr} {r x : RegionPtr}

/-- The plain walk: the modules of `r`, then those of each child's subtree in turn. -/
def walk (s : Runtime) (L : RegionPtr → List EntryPtr) (r : RegionPtr) : List EntryPtr :=
  Forest.descend (fun y => (s.regions y).children) L s.regionNext r

/-- What decides whether a module listens to a hook. -/
structure Face where
  ctx : Option CtxPtr
  handle : ImageId
  path : String
  deriving DecidableEq

def face (s : Runtime) (p : EntryPtr) : Option Face :=
  (s.entries p).map fun e => ⟨e.ctx, e.handle, e.loadPath⟩

/-- Module `p`, of this path, has a context and exports `name` as `f`. -/
def Exports (E : Env) (s : Runtime) (name : String) (p : EntryPtr) (path : String) (f : Fn) : Prop :=
  ∃ c h, s.face p = some ⟨some c, h, path⟩ ∧ E.dlsym h name = some f

/-- The vector `v` over the walk `l`, for a hook of this name. Paths in `free` are denied
nowhere. -/
structure VectorOf (E : Env) (free : String → Prop) (s : Runtime) (l : List EntryPtr)
    (name : String) (v : List Slot) : Prop where
  order : (v.map Slot.me).Sublist l
  each : ∀ slot ∈ v, ∃ path f, s.Exports E name slot.me path f ∧ (slot.cb = .fn f ∨ slot.cb = .null)
  all : ∀ p ∈ l, ∀ path f, s.Exports E name p path f → free path → p ∈ v.map Slot.me

/-- What holds of the caches whatever has become of the generations. -/
structure Flat (s : Runtime) (L : RegionPtr → List EntryPtr) : Prop where
  list : ∀ r, (s.vec r).subtreeModsDirty = false → (s.vec r).subtreeMods = s.walk L r
  fits : ∀ r i, ((s.vec r).hookDispatch i).count ≤ ((s.vec r).hookDispatch i).slots.length
  noMarker : ∀ r i, ∀ slot ∈ ((s.vec r).hookDispatch i).walked.1, slot.cb ≠ .notFound

/-- The generations and the current vectors against the lists `L`. -/
structure Coherent (E : Env) (free : String → Prop) (s : Runtime) (L : RegionPtr → List EntryPtr) :
    Prop where
  gen_pos : ∀ r, 0 < (s.vec r).dispatchGen.toNat
  gen_le : ∀ r, (s.vec r).dispatchGen.toNat ≤ s.genBumps + 1
  stamp_le : ∀ r i, ((s.vec r).hookDispatch i).regionGen.toNat ≤ (s.vec r).dispatchGen.toNat
  unbuilt : ∀ r i, (∀ name, s.hookIdHd.lookup name ≠ some i) →
    ((s.vec r).hookDispatch i).regionGen = 0
  clean : ∀ r i, ((s.vec r).hookDispatch i).regionGen = (s.vec r).dispatchGen →
    (s.vec r).subtreeModsDirty = false
  vectors : ∀ r i name, s.hookIdHd.lookup name = some i →
    ((s.vec r).hookDispatch i).regionGen = (s.vec r).dispatchGen →
    VectorOf E free s (s.walk L r) name ((s.vec r).hookDispatch i).walked.1

end Runtime

namespace WF
variable {s t : Runtime} {z : Option EntryPtr} {L L' : RegionPtr → List EntryPtr} {r x : RegionPtr}

theorem children_parent (h : WF s z L) (x y : RegionPtr) (hy : y ∈ (s.regions x).children) :
    s.tree.parentOf y = some x := (h.tree.children x y).mp hy

theorem children_height (h : WF s z L) (x : RegionPtr) : ∀ y ∈ (s.regions x).children,
    s.regionNext - 1 - y < s.regionNext - 1 - x := by
  intro y hy
  have hp := h.children_parent x y hy
  have h1 := h.tree.parent_lt y x hp
  have h2 : y ≤ s.regionNext - 1 := Nat.le_sub_one_of_lt (h.tree.region_lt y x hp)
  exact Nat.sub_lt_sub_left (h1.trans_le h2) h1

/-- A walk does not change while the lists at and below its start do not. -/
theorem walk_congr (h : WF s z L) (hn : t.regionNext = s.regionNext)
    (hc : ∀ y, (t.regions y).children = (s.regions y).children)
    (hL : ∀ y, Forest.Anc s.tree.parentOf x y → L' y = L y) : t.walk L' x = s.walk L x := by
  unfold Runtime.walk
  rw [hn]
  exact Forest.descend_congr h.children_parent fun y hy => ⟨hc y, hL y hy⟩

theorem mem_walk (h : WF s z L) {p : EntryPtr} (hp : p ∈ s.walk L x) :
    ∃ y, Forest.Anc s.tree.parentOf x y ∧ p ∈ L y :=
  Forest.mem_descend_anc h.children_parent hp

theorem walk_live (h : WF s z L) {p : EntryPtr} (hp : p ∈ s.walk L x) : s.entries p ≠ none := by
  obtain ⟨y, -, hy⟩ := h.mem_walk hp
  obtain ⟨-, e, he, -⟩ := h.member y p hy
  rw [he]
  exact Option.some_ne_none e

theorem walk_nil (h : WF s z L) (hL : ∀ y, Forest.Anc s.tree.parentOf x y → L y = []) :
    s.walk L x = [] := by
  refine List.eq_nil_iff_forall_not_mem.mpr fun p hp => ?_
  obtain ⟨y, hy, hp⟩ := h.mem_walk hp
  rw [hL y hy] at hp
  cases hp

end WF

namespace Runtime
variable {E : Env} {free : String → Prop} {s t : Runtime} {L L' : RegionPtr → List EntryPtr}
  {x : RegionPtr}

/-! ### Vectors -/

theorem Exports.congr {name path : String} {p : EntryPtr} {f : Fn} (hp : t.face p = s.face p)
    (h : s.Exports E name p path f) : t.Exports E name p path f := by
  obtain ⟨c, im, hf, hd⟩ := h
  exact ⟨c, im, hp.trans hf, hd⟩

theorem VectorOf.congr {l : List EntryPtr} {name : String} {v : List Slot}
    (hface : ∀ p ∈ l, t.face p = s.face p) (h : VectorOf E free s l name v) :
    VectorOf E free t l name v := by
  refine ⟨h.order, fun slot hslot => ?_, fun p hp path f hf => ?_⟩
  · obtain ⟨path, f, hf, hcb⟩ := h.each slot hslot
    have hmem : slot.me ∈ l := h.order.subset (List.mem_map_of_mem hslot)
    exact ⟨path, f, hf.congr (hface _ hmem), hcb⟩
  · exact h.all p hp path f (hf.congr (hface p hp).symm)

/-- `region_dispatch_gen_bump` at one region, and the flag if `d` says so. -/
def bumpVec (v : Vec) (d : Bool) : Vec :=
  { v with subtreeModsDirty := v.subtreeModsDirty || d, dispatchGen := genSucc v.dispatchGen }

/-- What one change of the heap may do to the caches of region `x`. -/
inductive VecMove (E : Env) (free : String → Prop) (s t : Runtime) (L L' : RegionPtr → List EntryPtr)
    (x : RegionPtr) : Prop
  | same (hv : t.vec x = s.vec x) (hw : t.walk L' x = s.walk L x)
  | fresh (hv : t.vec x = ⟨[], false, 1, fun _ => {}⟩) (hw : t.walk L' x = [])
  | bumped (d : Bool) (hv : t.vec x = bumpVec (s.vec x) d) (hg : s.genBumps < t.genBumps)
      (hw : d = true ∨ t.walk L' x = s.walk L x)
  | filled (hv : t.vec x = { s.vec x with subtreeMods := s.walk L x, subtreeModsDirty := false })
      (hw : t.walk L' x = s.walk L x)
  | built (i : Nat) (name : String) (c : HookDispatchCache) (hi : s.hookIdHd.lookup name = some i)
      (hv : t.vec x = { s.vec x with
        subtreeMods := s.walk L x, subtreeModsDirty := false,
        hookDispatch := Function.update (s.vec x).hookDispatch i c })
      (hw : t.walk L' x = s.walk L x)
      (hgen : c.regionGen = (s.vec x).dispatchGen) (hfits : c.count ≤ c.slots.length)
      (hc : ∀ name', t.hookIdHd.lookup name' = some i →
        VectorOf E free t (t.walk L' x) name' c.walked.1)

/-- Below the largest generation the next one is one more, and is not zero. -/
theorem genSucc_toNat {g : BitVec 64} (h : g.toNat + 1 < 2 ^ 64) : (genSucc g).toNat = g.toNat + 1 := by
  have hsum : (g + 1).toNat = g.toNat + 1 := by
    rw [BitVec.toNat_add]
    exact Nat.mod_eq_of_lt h
  have hne : g + 1 ≠ 0 := by
    intro hc
    rw [hc] at hsum
    simp at hsum
  rw [genSucc, if_neg hne, hsum]

/-- One change of the heap, for the caches of all regions. -/
structure Moves (E : Env) (free : String → Prop) (s t : Runtime) (L L' : RegionPtr → List EntryPtr) :
    Prop where
  each : ∀ x, VecMove E free s t L L' x
  bumps : s.genBumps ≤ t.genBumps
  old : ∀ name i, s.hookIdHd.lookup name = some i → t.hookIdHd.lookup name = some i
  new : ∀ name i, t.hookIdHd.lookup name = some i →
    s.hookIdHd.lookup name = some i ∨ ∀ name', s.hookIdHd.lookup name' ≠ some i
  faces : ∀ r p, p ∈ L r → t.face p = s.face p

/-- A slot of a vector that has just been built has a function or nothing. -/
theorem VectorOf.noMarker {l : List EntryPtr} {name : String} {v : List Slot}
    (h : VectorOf E free s l name v) {slot : Slot} (hs : slot ∈ v) : slot.cb ≠ .notFound := by
  obtain ⟨path, f, -, hcb | hcb⟩ := h.each slot hs
  all_goals
    rw [hcb]
    exact FnSlot.noConfusion

theorem Flat.move (h : Flat s L) (hm : Moves E free s t L L') : Flat t L' := by
  refine ⟨fun x hd => ?_, fun x i => ?_, fun x i => ?_⟩
  · cases hm.each x with
    | same hv hx => rw [hv] at hd ⊢; exact (h.list x hd).trans hx.symm
    | fresh hv hx => rw [hv, hx]
    | bumped d hv _ hx =>
        rw [hv, bumpVec, Bool.or_eq_false_iff] at hd
        rcases hx with hx | hx
        · rw [hx] at hd
          cases hd.2
        · rw [hv, hx]
          exact h.list x hd.1
    | filled hv hx => rw [hv, hx]
    | built i name c hi hv hx => rw [hv, hx]
  · have hx := h.fits x i
    cases hm.each x with
    | same hv => rw [hv]; exact hx
    | fresh hv => rw [hv]; exact Nat.zero_le _
    | bumped d hv => rw [hv]; exact hx
    | filled hv => rw [hv]; exact hx
    | built j name c hj hv hwalk hgen hfits =>
        rw [hv]
        by_cases hji : i = j
        · simp only [hji, Function.update_self]
          exact hfits
        · simp only [Function.update_of_ne hji]
          exact hx
  · have hx := h.noMarker x i
    cases hm.each x with
    | same hv => rw [hv]; exact hx
    | fresh hv =>
        rw [hv]
        exact fun slot hs => absurd hs List.not_mem_nil
    | bumped d hv => rw [hv]; exact hx
    | filled hv => rw [hv]; exact hx
    | built j name c hj hv hwalk hgen hfits hc =>
        rw [hv]
        by_cases hji : i = j
        · simp only [hji, Function.update_self]
          exact fun slot hs => (hc name (hm.old name j hj)).noMarker hs
        · simp only [Function.update_of_ne hji]
          exact hx

/-- One change of the heap keeps the caches coherent, while the generations do not wrap. -/
theorem Coherent.move {z : Option EntryPtr} (h : Coherent E free s L) (hw : WF s z L)
    (hm : Moves E free s t L L') (hlim : t.genBumps + 1 < 2 ^ 64) : Coherent E free t L' := by
  obtain ⟨hmove, hg, hold, hnew, hface⟩ := hm
  have hsucc : ∀ x, s.genBumps < t.genBumps →
      (genSucc (s.vec x).dispatchGen).toNat = (s.vec x).dispatchGen.toNat + 1 := by
    intro x hlt
    have := h.gen_le x
    exact genSucc_toNat (by omega)
  have hcarry : ∀ {x name v}, VectorOf E free s (s.walk L x) name v →
      VectorOf E free t (s.walk L x) name v := by
    intro x name v hv
    refine hv.congr fun p hp => ?_
    obtain ⟨y, -, hy⟩ := hw.mem_walk hp
    exact hface y p hy
  -- a hook that is known now was known before, where its vector is current
  have hknown : ∀ x name i, t.hookIdHd.lookup name = some i →
      ((s.vec x).hookDispatch i).regionGen = (s.vec x).dispatchGen →
      s.hookIdHd.lookup name = some i := by
    intro x name i hi hgen
    refine (hnew name i hi).resolve_right fun hno => ?_
    have hpos := h.gen_pos x
    rw [← hgen, h.unbuilt x i hno] at hpos
    exact absurd hpos (Nat.lt_irrefl 0)
  have hunreg : ∀ i, (∀ name, t.hookIdHd.lookup name ≠ some i) →
      ∀ name, s.hookIdHd.lookup name ≠ some i := fun i hno name hs => hno name (hold name i hs)
  have hbehind : ∀ x i, s.genBumps < t.genBumps →
      ((s.vec x).hookDispatch i).regionGen ≠ genSucc (s.vec x).dispatchGen := by
    intro x i hlt hc
    have h1 := congrArg BitVec.toNat hc
    have h2 := h.stamp_le x i
    have h3 := hsucc x hlt
    omega
  constructor
  · intro x
    cases hmove x with
    | same hv => rw [hv]; exact h.gen_pos x
    | fresh hv => rw [hv]; decide
    | bumped d hv hlt => rw [hv, bumpVec, hsucc x hlt]; exact Nat.succ_pos _
    | filled hv => rw [hv]; exact h.gen_pos x
    | built i name c hi hv => rw [hv]; exact h.gen_pos x
  · intro x
    have hx := h.gen_le x
    cases hmove x with
    | same hv => rw [hv]; omega
    | fresh hv => rw [hv]; simp
    | bumped d hv hlt => rw [hv, bumpVec, hsucc x hlt]; omega
    | filled hv => rw [hv]; simp only; omega
    | built i name c hi hv => rw [hv]; simp only; omega
  · intro x i
    have hx := h.stamp_le x i
    cases hmove x with
    | same hv => rw [hv]; exact hx
    | fresh hv => rw [hv]; exact Nat.zero_le _
    | bumped d hv hlt => rw [hv, bumpVec, hsucc x hlt]; exact hx.trans (Nat.le_succ _)
    | filled hv => rw [hv]; exact hx
    | built j name c hj hv hwalk hgen =>
        rw [hv]
        by_cases hji : i = j
        · simp only [hji, Function.update_self, hgen, le_refl]
        · simp only [Function.update_of_ne hji]
          exact hx
  · intro x i hno
    have hx := h.unbuilt x i (hunreg i hno)
    cases hmove x with
    | same hv => rw [hv]; exact hx
    | fresh hv => rw [hv]
    | bumped d hv => rw [hv]; exact hx
    | filled hv => rw [hv]; exact hx
    | built j name c hj hv =>
        have hij : i ≠ j := fun hc => hno name (hold name i (hc ▸ hj))
        rw [hv]
        simp only [Function.update_of_ne hij]
        exact hx
  · intro x i hcur
    cases hmove x with
    | same hv => rw [hv] at hcur ⊢; exact h.clean x i hcur
    | fresh hv => rw [hv]
    | bumped d hv hlt =>
        rw [hv] at hcur
        exact absurd hcur (hbehind x i hlt)
    | filled hv => rw [hv]
    | built j name c hj hv => rw [hv]
  · intro x i name hi hcur
    cases hmove x with
    | same hv hx =>
        rw [hv] at hcur ⊢
        rw [hx]
        exact hcarry (h.vectors x i name (hknown x name i hi hcur) hcur)
    | fresh hv =>
        rw [hv] at hcur
        have hzero : (0 : BitVec 64) = 1 := hcur
        exact absurd hzero (by decide)
    | bumped d hv hlt =>
        rw [hv] at hcur
        exact absurd hcur (hbehind x i hlt)
    | filled hv hx =>
        rw [hv] at hcur ⊢
        rw [hx]
        exact hcarry (h.vectors x i name (hknown x name i hi hcur) hcur)
    | built j name' c hj hv hx hgen hfits hc =>
        rw [hv] at hcur ⊢
        by_cases hji : i = j
        · subst hji
          simp only [Function.update_self]
          exact hc name hi
        · simp only [Function.update_of_ne hji] at hcur ⊢
          rw [hx]
          exact hcarry (h.vectors x i name (hknown x name i hi hcur) hcur)

end Runtime
end Xylem

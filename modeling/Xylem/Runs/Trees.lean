import Xylem.Runs.Effect

namespace Xylem

open Xylem.Runtime

def StepClaims (E : Env) (s : State) (r : RegionPtr) (bits : UInt8) : Event → Prop
  | .load fname ch => s.rt.LoadClaims E fname ch r bits
  | .reload fname ch fuel => s.rt.ReloadClaims E fname ch fuel r bits
  | _ => False

/-- What a step does to the tree. -/
inductive TreeMove (E : Env) (s : State) (e : Event) (T : Tree) : Prop
  | deny (what : String) (type : DenyType) (r : RegionPtr) (he : e = .deny what type)
      (hr : s.rt.regionHd s.rt.currentRegionId = some r) (hT : T = s.rt.tree.deny E r what type)
  | gate (he : ∀ what type, e ≠ .deny what type) (r : RegionPtr) (hr : r < s.rt.tree.next)
      (fn : Option HandlerPtr) (ud : Nat) (hT : T = s.rt.tree.gate r fn ud)
  | fewer (he : ∀ what type, e ≠ .deny what type) (hT : Tree.FewerDenies s.rt.tree T)
  | claims (he : ∀ what type, e ≠ .deny what type) (m : Tree) (hm : Tree.FewerDenies s.rt.tree m)
      (hok : m.Ok) (r : RegionPtr) (bits : UInt8) (k : Nat) (hs : StepClaims E s r bits e)
      (hk : m.Claims r bits k) (hT : T = m.claim r (m.slotId r bits k) bits)

namespace Runtime
variable {E : Env} {s t : Runtime}

/-- A load claims at most one region, under the region and of the width it says. -/
theorem LoadEffect.tree {fname : String} {ch : LoadChoice} {reload : Option ReloadFrame}
    {out : Outcome LoadFrame} (h : LoadEffect E s fname ch reload t out) :
    t.tree = s.tree ∨ ∃ r k, s.LoadClaims E fname ch r ch.granted ∧ s.tree.Claims r ch.granted k ∧
      t.tree = s.tree.claim r (s.tree.slotId r ch.granted k) ch.granted := by
  cases h with
  | same ret hret ht => exact .inl (core_tree ht)
  | reuse p e hl he ht => exact .inl (congrArg Core.tree ht)
  | fresh out hl hmem him ha hf =>
      have placed : ∀ {id r T index}, Placed E s (s.loading E fname ch).im ch id r T index →
          t.tree = T → t.tree = s.tree ∨ ∃ r k, s.LoadClaims E fname ch r ch.granted ∧
            s.tree.Claims r ch.granted k ∧
            t.tree = s.tree.claim r (s.tree.slotId r ch.granted k) ch.granted := by
        intro id r T index hp ht
        cases hp with
        | stays r hr => exact .inl ht
        | claims r k hasks hk => exact .inr ⟨r, k, ⟨hl, hmem, him, hasks, rfl⟩, hk, ht⟩
      cases hf with
      | refused ret hret ht => exact .inl (congrArg Core.tree ht)
      | noInstall hi id r T index hp ht => exact placed hp (congrArg Core.tree ht)
      | installs fn hi id r T index hp ht => exact placed hp (congrArg Core.tree ht)

end Runtime

theorem reload_treeMove {E : Env} {s : State} (hi : Inv E s) {m n : Runtime} {fname : String}
    {ch : LoadChoice} {fuel : Nat} {reload : Option ReloadFrame} {out : Outcome LoadFrame}
    (hu : s.rt.modUnload E fuel fname s.rt.currentRegionId = .ok (m, xyOk))
    (hl : LoadEffect E { m with reloading := true } fname ch reload n out) :
    TreeMove E s (.reload fname ch fuel) n.tree := by
  have hf : Tree.FewerDenies s.rt.tree m.tree := (modUnload_unloaded fuel hu).tree
  rcases hl.tree with hT | ⟨r, k, hcl, hk, hT⟩
  · exact .fewer (by simp) (hT ▸ hf)
  · have hp : Prims E (fun _ _ => True) (s.rt, .none) (m, .none) := modUnload_prims fuel hu
    obtain ⟨L, hw⟩ := (Prims.keeps hp hi.wf hi.ctxs).wf
    exact .claims (by simp) m.tree hf hw.tree r ch.granted k ⟨m, hu, hcl⟩ hk hT

theorem step_tree {E : Env} {s t : State} {e : Event} (hi : Inv E s) (h : step E s e = .ok t) :
    TreeMove E s e t.rt.tree := by
  have same : (∀ what type, e ≠ .deny what type) → t.rt.tree = s.rt.tree →
      TreeMove E s e t.rt.tree := fun he hT => .fewer he (hT ▸ .refl _)
  have turn : (∀ what type, e ≠ .deny what type) → ∀ {m : Runtime} {stack f},
      m.tree = s.rt.tree → Turn m stack f t → TreeMove E s e t.rt.tree := by
    intro he m stack f hm ht
    refine same he (.trans ?_ hm)
    cases ht with
    | ends hc hs => exact core_tree hc
    | enters k p me c hp hctx hc hs =>
        obtain ⟨id, r, heq, -⟩ := callEnter_eq m { f with mi := k } p me c
        rw [hc, heq]
        rfl
  cases step_effect hi h with
  | areg hooks hc hs => exact same (by simp) (congrArg Core.tree hc)
  | selfInitCtx hc hs => exact same (by simp) (congrArg Core.tree hc)
  | load out hl hs =>
      obtain ⟨L, hw⟩ := hi.wf
      rcases hl.tree with hT | ⟨r, k, hcl, hk, hT⟩
      · exact same (by simp) hT
      · exact .claims (by simp) _ (.refl _) hw.tree r _ k hcl hk hT
  | unload m ret hu hc hs =>
      refine .fewer (by simp) ?_
      rw [core_tree hc]
      exact (modUnload_unloaded _ hu).tree
  | reload out hr hs =>
      cases hr with
      | missing hl ht => exact same (by simp) (core_tree ht)
      | back p e hl he m hu m' ret hload ht =>
          have h1 : t.rt.tree = m'.tree := congrArg Core.tree ht
          rw [h1]
          exact reload_treeMove hi hu hload
      | waits p e hl he m hu f hload => exact reload_treeMove hi hu hload
  | deny r hr hc hs => exact .deny _ _ r rfl hr (congrArg Core.tree hc)
  | requireClaim r hr hc hs =>
      obtain ⟨L, hw⟩ := hi.wf
      exact .gate (by simp) r (hw.tree.hd_node _ _ hr).1 _ _ (congrArg Core.tree hc)
  | call m f hooks hm hid ht => exact turn (by simp) (congrArg Core.tree hm) ht
  | last hc hs => exact same (by simp) (congrArg Core.tree hc)
  | noRegion hc hs => exact same (by simp) (congrArg Core.tree hc)
  | withRegion r hr hc hs => exact same (by simp) (congrArg Core.tree hc)
  | bodyRet f stack hst ht =>
      refine turn (by simp) ?_ ht
      refine (congrArg Core.tree (bodyLeft_core s.rt f _)).trans ?_
      split <;> rfl
  | installRet f stack hst hc hs => exact same (by simp) (congrArg Core.tree hc)
  | scopeRet id r stack hst hc hs => exact same (by simp) (congrArg Core.tree hc)

theorem TreeMove.shapes {E : Env} {s : State} {e : Event} {T : Tree} (h : TreeMove E s e T) :
    (∀ x, (T.node x).toRegionShape = (s.rt.tree.node x).toRegionShape) ∨
      ∃ m r bits k, Tree.FewerDenies s.rt.tree m ∧ m.Ok ∧ StepClaims E s r bits e ∧
        m.Claims r bits k ∧ T = m.claim r (m.slotId r bits k) bits := by
  cases h with
  | deny what type r he hr hT =>
      refine .inl fun x => ?_
      rw [hT]
      by_cases hx : x = r
      · subst hx
        cases type <;> by_cases hu : x ∈ s.rt.tree.upward x <;>
          simp [Tree.deny, Tree.modify, Tree.addDeny, hu]
      · by_cases hu : x ∈ s.rt.tree.upward r <;> simp [Tree.deny, Tree.modify, hx, hu]
  | gate he r hr fn ud hT =>
      refine .inl fun x => ?_
      rw [hT]
      by_cases hx : x = r
      · subst hx
        simp [Tree.gate, Tree.modify]
      · simp [Tree.gate, Tree.modify, hx]
  | fewer he hT => exact .inl hT.shape
  | claims he m hm hok r bits k hg hk hT => exact .inr ⟨m, r, bits, k, hm, hok, hg, hk, hT⟩

theorem TreeMove.hd {E : Env} {s : State} {e : Event} {T : Tree} (h : TreeMove E s e T)
    {id : RegionId} {r : RegionPtr} (hr : s.rt.regionHd id = some r) : T.hd id = some r := by
  cases h with
  | deny what type r' he hr' hT =>
      rw [hT]
      exact hr
  | gate he r' hr' fn ud hT =>
      rw [hT]
      exact hr
  | fewer he hT =>
      rw [hT.hd]
      exact hr
  | claims he m hm hok r' bits k hs hk hT =>
      have hm' : m.hd id = some r := by
        rw [hm.hd]
        exact hr
      have hne : id ≠ m.slotId r' bits k := by
        rintro rfl
        rw [hk.first.free] at hm'
        cases hm'
      rw [hT]
      exact (Function.update_of_ne hne _ _).trans hm'

theorem step_regionHd {E : Env} {s t : State} {e : Event} (hi : Inv E s) (h : step E s e = .ok t)
    {id : RegionId} {r : RegionPtr} (hr : s.rt.regionHd id = some r) : t.rt.regionHd id = some r :=
  (step_tree hi h).hd hr

end Xylem

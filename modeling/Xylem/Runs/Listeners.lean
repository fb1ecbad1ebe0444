import Xylem.Runs.Served

namespace Xylem

open Xylem.Runtime

section Walk
variable {E : Env} {m : Runtime} {stack : List Frame} {f : CallFrame}

/-- A walk whose bodies only return has found every entry alive when it comes to its end, and
has called into those that have a context and a function. -/
theorem walk_served {left : Nat} (hn : f.mi + left = f.n) (hc : m.Captured f)
    {r : Runtime × (Int ⊕ CallFrame)} (hloop : m.callLoop left f = .ok r) {results : List Bytes}
    {u : State}
      (hu : Run.exec (step E) (State.afterCall stack f.invoked r) (results.map .bodyRet) = .ok u)
    (hstack : u.stack = stack)
    (habove : ∀ x ∈ Run.trace (step E) (State.afterCall stack f.invoked r) (results.map .bodyRet),
      x.1.stack ≠ stack) :
    (∀ slot ∈ m.toWalk f, m.entries slot.me ≠ none) ∧
      ∃ ret, u.status = .returned ret (f.invoked ++ (m.toWalk f).filterMap m.callee) := by
  induction left generalizing m f r results with
  | zero =>
      have hnil : m.toWalk f = [] := by
        rw [Runtime.toWalk, show f.n - f.mi = 0 by omega]
        rfl
      rw [hnil]
      refine ⟨fun slot hs => absurd hs List.not_mem_nil, ?_⟩
      cases hloop
      cases results with
      | nil =>
          cases hu
          exact ⟨_, by rw [List.filterMap_nil, List.append_nil]; rfl⟩
      | cons b results => exact absurd rfl (habove _ List.mem_cons_self)
  | succ left ih =>
      obtain ⟨slot, hslot, hcons⟩ := toWalk_cons hc.n_le (by omega)
      have hnext : f.mi + 1 + left = f.n := by omega
      obtain ⟨me, hme⟩ : ∃ me, m.entries slot.me = some me := by
        refine Option.ne_none_iff_exists'.mp fun hnone => ?_
        unfold callLoop at hloop
        simp [hc.block, hslot, deref, hnone, bind, Except.bind] at hloop
      have hlive : ∀ {l : List Slot}, (∀ x ∈ l, m.entries x.me ≠ none) →
          ∀ x ∈ slot :: l, m.entries x.me ≠ none := fun hl x hx => by
        rcases List.mem_cons.mp hx with rfl | hx
        · rw [hme]
          exact Option.some_ne_none me
        · exact hl x hx
      rw [hcons]
      -- a slot that is passed over
      have skip : me.ctx = none ∨ slot.cb = .null → m.callee slot = none →
          (∀ x ∈ slot :: m.toWalk { f with mi := f.mi + 1 }, m.entries x.me ≠ none) ∧
            ∃ ret, u.status = .returned ret (f.invoked ++
              (slot :: m.toWalk { f with mi := f.mi + 1 }).filterMap m.callee) := by
        intro hs hnone
        obtain ⟨hc', -⟩ := hc.next (g := { f with mi := f.mi + 1 }) hcons rfl rfl
          ⟨rfl, rfl, rfl, rfl, rfl⟩
        rw [callLoop_skip hc.block hslot hme hs] at hloop
        obtain ⟨hl, hret⟩ := ih (f := { f with mi := f.mi + 1 }) hnext hc' hloop hu habove
        rw [List.filterMap_cons_none hnone]
        exact ⟨hlive hl, hret⟩
      cases hctx : me.ctx with
      | none =>
          refine skip (.inl hctx) ?_
          cases hcb : slot.cb <;> simp [Runtime.callee, hme, hctx, hcb]
      | some c =>
          cases hfn : slot.cb with
          | null =>
              refine skip (.inr hfn) ?_
              simp only [Runtime.callee, hme, hfn]
          | notFound => exact absurd hfn (hc.noMarker slot (hcons ▸ List.mem_cons_self))
          | fn fn =>
              have hsome : m.callee slot = some slot.me := by
                simp only [Runtime.callee, hme, hfn, hctx, Option.isSome_some, if_true]
              rw [callLoop_enter hc.block hslot hme hctx hfn] at hloop
              cases hloop
              have hents := callEnter_entries m f slot.me me c
              have hregs := callEnter_regions m f slot.me me c
              cases results with
              | nil =>
                  cases hu
                  exact absurd hstack (List.cons_ne_self _ _)
              | cons b results =>
                  rw [List.map_cons] at hu habove
                  generalize hg : (m.callEnter f slot.me me c).2 = g at hu habove
                  generalize (m.callEnter f slot.me me c).1 = n at hents hregs hu habove
                  obtain ⟨h1, h2, h3, h4, h5, h6⟩ : g.callerRegion = f.callerRegion ∧
                      g.hookId = f.hookId ∧ g.block = f.block ∧ g.n = f.n ∧ g.mi = f.mi ∧
                      g.invoked = f.invoked ++ [slot.me] := by
                    rw [← hg]
                    exact ⟨rfl, rfl, rfl, rfl, rfl, rfl⟩
                  -- the body returns, and the walk goes on from the slot after it
                  obtain ⟨w, hw, hu⟩ := Run.exec_head hu
                  have hw' : (n.bodyReturn g b).map (State.afterCall stack g.invoked) = .ok w := hw
                  obtain ⟨r, hr, rfl⟩ := Res.map_ok.mp hw'
                  rw [Run.trace_cons hw] at habove
                  obtain ⟨hbr, hbe⟩ := bodyLeft_same n g b
                  obtain ⟨hc', hwalk, hcallee⟩ := hc.next (n := n.bodyLeft g b)
                    (g := { g with mi := g.mi + 1, ran := g.ran + 1 }) hcons (hbr.trans hregs)
                    (hbe.trans hents) ⟨h1, h2, h3, h4, congrArg (· + 1) h5⟩
                  have hr' := bodyReturn_ok hr
                  rw [show g.n - (g.mi + 1) = left by omega] at hr'
                  obtain ⟨hl, ret, hret⟩ := ih (m := n.bodyLeft g b)
                    (f := { g with mi := g.mi + 1, ran := g.ran + 1 })
                    (show g.mi + 1 + left = g.n by omega) hc' hr' hu
                    fun x hx => habove x (List.mem_cons_of_mem _ hx)
                  rw [hwalk, hbe.trans hents] at hl
                  refine ⟨hlive hl, ret, ?_⟩
                  rw [hret, hwalk, hcallee, List.filterMap_cons_some hsome]
                  show Status.returned ret (g.invoked ++ _) = _
                  rw [h6, List.append_assoc, List.singleton_append]

end Walk

section Answers
variable {E : Env} {s s₀ : State} {tr : List (State × Event)} {name : String}

/-- `xy_call` through `reg` finds a trampoline; when the bodies do nothing but return, it
comes back with `XY_OK` after the last of them and has run `p`. -/
def State.Answers (E : Env) (s : State) (retp : Option BufPtr) (reg : AdapterPtr) (p : EntryPtr) : Prop :=
  ∃ i tramp, (s.rt.callResolve reg).2 = .ok (i, tramp) ∧ ∃ n, ∀ results : List Bytes,
    results.length = n → (∀ b ∈ results, b.length = tramp.retSize) →
    ∃ m u ran, step E s (.call retp (some reg)) = .ok m ∧
      Run.exec (step E) m (results.map .bodyRet) = .ok u ∧
      (∀ x ∈ Run.trace (step E) m (results.map .bodyRet), x.1.stack ≠ s.stack) ∧
      u.stack = s.stack ∧ u.status = .returned xyOk ran ∧ p ∈ ran

/-- Module `p` is loaded at or below region `r`, has a context and exports the hook. -/
structure Runtime.Listener (E : Env) (s : Runtime) (name : String) (r : RegionPtr) (p : EntryPtr)
    (e : ModEntry) : Prop where
  entry : s.entries p = some e
  ctx : e.ctx ≠ none
  symbol : E.dlsym e.handle name ≠ none
  below : ∃ x, s.regionHd e.regionId = some x ∧ Forest.Anc s.parentOf r x

/-- The walk of hook `i` from region `r` comes to `p` and calls it. A vector that is current
has a slot with a function for it, and no slot of a freed entry. One that is due for a rebuild
will have the slot, unless the cell has been emptied under a set bit or the module is denied. -/
def Runtime.Reaches (s : Runtime) (r : RegionPtr) (i : Nat) (p : EntryPtr) (e : ModEntry) : Prop :=
  if ((s.regions r).hookDispatch i).regionGen = (s.regions r).dispatchGen then
    (∀ slot ∈ ((s.regions r).hookDispatch i).walked.1, s.entries slot.me ≠ none) ∧
      ∃ slot ∈ ((s.regions r).hookDispatch i).walked.1, slot.me = p ∧ slot.cb ≠ .null
  else
    (e.hookImplBits i = true → e.fnCache i ≠ .null) ∧
      ∀ a ∈ s.callChain r, s.moduleIsDenied a e.loadPath = false

/-- An adapter of a registered name is callable when it has a trampoline or the first
registrant has. -/
theorem Hooks.HeldBy.callable {s : Runtime} {A : AdapterPtr → Adapter} {f reg : AdapterPtr}
    {i : Nat} (h : s.hooks.HeldBy A name f i) (hA : ∀ b, (A b).name = name → (A b).hookId = none)
    (hreg : (A reg).name = name) (hfit : (A reg).call = none ∨ (A reg).retSize ≤ xyMaxRetSize) :
    s.Callable reg ↔ (A reg).call ≠ none ∨ (A f).call ≠ none := by
  have hcan := h.canonical
  have hfits := h.fits
  have hid := hA reg hreg
  rcases h.others reg hreg with ha | ha
  · have ha : s.adapters reg = A reg := ha
    have hlook : s.hookIdHd.lookup (s.adapters reg).name = some i := by
      rw [ha, hreg]
      exact h.lookup
    cases hc : (A reg).call with
    | none =>
        have hres : (s.resolved reg i).retSize = (A f).retSize ∧
            (s.resolved reg i).call = (A f).call := by
          simp only [resolved, ha, hid, hcan, hc, and_self]
        simp [Callable, ha, hid, hlook, hcan, hres, hfits, Option.isSome_iff_ne_none]
    | some call =>
        have hle : (A reg).retSize ≤ xyMaxRetSize := hfit.resolve_left (by simp [hc])
        simp [Callable, resolved, ha, hid, hlook, hc, hle]
  · have ha : s.adapters reg = (A reg).resolveTo (A f) i := ha
    cases hc : (A reg).call with
    | none =>
        simp [Callable, resolved, ha, Adapter.resolveTo, hcan, hc, hfits, Option.isSome_iff_ne_none]
    | some call =>
        have hle : (A reg).retSize ≤ xyMaxRetSize := hfit.resolve_left (by simp [hc])
        simp [Callable, resolved, ha, Adapter.resolveTo, hc, hle]

/-- The slot of a module that exports the hook is empty when its cell is, under a set bit. -/
theorem slotCell_null {hooks : AList (fun _ : String => Nat)} {e : ModEntry} {i : Nat} {c : FnSlot}
    (hinj : ∀ name', hooks.lookup name' = some i → name' = name) (h : BitsOk E hooks e)
    (hc : CellOk E hooks e.handle i (e.fnCache i)) (hs : slotCell E i name e = some c) :
    c = .null ↔ e.hookImplBits i = true ∧ e.fnCache i = .null := by
  obtain ⟨f, hf, -⟩ := slotCell_some hinj h hc hs
  unfold slotCell slotEntry at hs
  cases hb : e.hookImplBits i with
  | true =>
      simp only [hb, if_true, Option.some.injEq] at hs
      simp [hs]
  | false =>
      have hcell : e.fnCache i = .null ∨ e.fnCache i = .notFound := by
        cases hcell : e.fnCache i with
        | fn g =>
            rw [h.fn i g hcell] at hb
            cases hb
        | null => exact .inl rfl
        | notFound => exact .inr rfl
      rcases hcell with hcell | hcell
      · simp only [hb, Bool.false_eq_true, if_false, ModEntry.fnCacheResolve, hcell, hf,
          Function.update_self, if_true, Option.some.injEq] at hs
        simp [← hs]
      · simp [hb, ModEntry.fnCacheResolve, hcell] at hs

/-- A rebuilt vector calls a listener on its walk unless it has been silenced or is denied. -/
theorem ListsOk.rebuilt {free : String → Prop} {m : Runtime} {L : RegionPtr → List EntryPtr}
    {r : RegionPtr} {i : Nat} {p : EntryPtr} {e : ModEntry} (h : ListsOk E free m none L)
    (hi : m.hookIdHd.lookup name = some i) (hp : m.Listener E name r p e) (anc : List RegionPtr)
    {l : List EntryPtr} (hl : p ∈ l) :
    (∃ slot ∈ l.filterMap (m.slotOf E i name anc), slot.me = p ∧ slot.cb ≠ .null) ↔
      (e.hookImplBits i = true → e.fnCache i ≠ .null) ∧
        ∀ a ∈ anc, m.moduleIsDenied a e.loadPath = false := by
  have hinj : ∀ name', m.hookIdHd.lookup name' = some i → name' = name := fun name' hk =>
    h.inj name' name i hk hi
  have hbits := h.bits p e hp.entry
  have hcell := h.cells p e hp.entry i
  obtain ⟨f, hf⟩ := Option.ne_none_iff_exists'.mp hp.symbol
  obtain ⟨c, hc⟩ := slotCell_isSome hinj hbits hcell hf
  have hnull := slotCell_null hinj hbits hcell hc
  obtain ⟨x, hx⟩ := Option.ne_none_iff_exists'.mp hp.ctx
  have hslot : m.slotOf E i name anc p =
      if anc.any fun a => m.moduleIsDenied a e.loadPath then none else some ⟨p, c⟩ := by
    unfold slotOf
    rw [hp.entry, Option.bind_some, hx, hc]
    rfl
  have hden : (anc.any fun a => m.moduleIsDenied a e.loadPath) = false ↔
      ∀ a ∈ anc, m.moduleIsDenied a e.loadPath = false := by
    rw [List.any_eq_false]
    exact forall₂_congr fun a _ => Bool.not_eq_true _ ▸ Iff.rfl
  constructor
  · rintro ⟨slot, hmem, hme, hcb⟩
    obtain ⟨q, -, hq⟩ := List.mem_filterMap.mp hmem
    have hqp : q = p := (slotOf_me hq).symm.trans hme
    rw [hqp, hslot] at hq
    split at hq
    · cases hq
    · rename_i hany
      cases hq
      refine ⟨fun hb hn => hcb (hnull.mpr ⟨hb, hn⟩), hden.mp (Bool.eq_false_iff.mpr hany)⟩
  · rintro ⟨hlive, hfree⟩
    rw [← hden] at hfree
    rw [hfree, if_neg Bool.false_ne_true] at hslot
    refine ⟨_, List.mem_filterMap.mpr ⟨p, hl, hslot⟩, rfl, fun hn => ?_⟩
    obtain ⟨hb, hempty⟩ := hnull.mp hn
    exact hlive hb hempty

theorem ListsOk.listed {free : String → Prop} {m : Runtime} {L : RegionPtr → List EntryPtr}
    {r : RegionPtr} {l : List EntryPtr} (h : ListsOk E free m none L) (hl : m.listed r = .ok l) :
    l = m.walk L r := by
  unfold Runtime.listed at hl
  split at hl
  · exact h.wf.collect_eq hl
  · rename_i hd
    cases hl
    exact h.flat.list r (Bool.eq_false_iff.mpr hd)

theorem ListsOk.listener_walked {free : String → Prop} {m : Runtime} {L : RegionPtr → List EntryPtr}
    {r : RegionPtr} {p : EntryPtr} {e : ModEntry} (h : ListsOk E free m none L)
    (hr : r < m.regionNext) (hp : m.Listener E name r p e) : p ∈ m.walk L r := by
  obtain ⟨l, hl, -, hmem⟩ := h.wf.collect_spec hr
  obtain ⟨x, hx, hanc⟩ := hp.below
  obtain ⟨y, -, hy, hpy⟩ := h.wf.region_of hp.entry (by simp)
  cases hy.symm.trans hx
  have hlw : l = m.walk L r := h.wf.collect_eq hl
  exact hlw ▸ (hmem p).mpr ⟨x, hanc, hpy⟩

theorem Prepared.reaches {free : String → Prop} {n m : Runtime} {L L' : RegionPtr → List EntryPtr}
    {r : RegionPtr} {i : Nat} {p : EntryPtr} {e : ModEntry} (h : Prepared E free n m L L' name r i)
    (hn : ListsOk E free n none L) (hi : n.hookIdHd.lookup name = some i) (hr : r < n.regionNext)
    (hp : n.Listener E name r p e) : n.Reaches r i p e ↔
      (∀ slot ∈ ((m.regions r).hookDispatch i).walked.1, m.entries slot.me ≠ none) ∧
        p ∈ ((m.regions r).hookDispatch i).walked.1.filterMap m.callee := by
  have hlive : ∀ q, m.entries q ≠ none ↔ n.entries q ≠ none := by
    intro q
    have hq := h.face q
    unfold Runtime.face at hq
    rw [not_iff_not, ← Option.map_eq_none_iff, hq, Option.map_eq_none_iff]
  have hcallee : p ∈ ((m.regions r).hookDispatch i).walked.1.filterMap m.callee ↔
      ∃ slot ∈ ((m.regions r).hookDispatch i).walked.1, slot.me = p ∧ slot.cb ≠ .null := by
    have hface := h.face p
    unfold Runtime.face at hface
    rw [hp.entry] at hface
    obtain ⟨e', he', hf⟩ := Option.map_eq_some_iff.mp hface
    have hctx : e'.ctx.isSome := by
      rw [(Face.mk.inj hf).1]
      exact Option.isSome_iff_ne_none.mpr hp.ctx
    rw [List.mem_filterMap]
    refine exists_congr fun slot => and_congr_right fun hslot => ?_
    have hmark := h.lists.flat.noMarker r i slot hslot
    constructor
    · intro hs
      unfold Runtime.callee at hs
      split at hs
      · rename_i hcb
        split at hs
        · refine ⟨Option.some.inj hs, ?_⟩
          rw [hcb]
          exact FnSlot.noConfusion
        · cases hs
      · cases hs
    · rintro ⟨hme, hcb⟩
      cases hfn : slot.cb with
      | null => exact absurd hfn hcb
      | notFound => exact absurd hfn hmark
      | fn f => simp [Runtime.callee, hme, he', hfn, hctx]
  rw [hcallee]
  have hvec := h.vector
  unfold Runtime.vector at hvec
  unfold Runtime.Reaches
  split
  · rename_i hcur
    simp only [hcur, if_true] at hvec
    rw [← Except.ok.inj hvec]
    simp only [hlive]
  · rename_i hstale
    simp only [hstale, if_false] at hvec
    obtain ⟨l, hl, hvec⟩ := Res.map_ok.mp hvec
    obtain rfl := hn.listed hl
    rw [← hn.rebuilt hi hp (n.callChain r) (hn.listener_walked hr hp)]
    have hv := congrArg Prod.fst hvec
    simp only at hv
    rw [← hv]
    refine (and_iff_right fun slot hslot => ?_).symm
    obtain ⟨q, hq, hs⟩ := List.mem_filterMap.mp hslot
    rw [slotOf_me hs, hlive]
    exact hn.wf.walk_live hq

/-- Once a call has resolved and is not denied, it runs the listeners that its walk reaches. -/
theorem ListsOk.answers {free : String → Prop} {L : RegionPtr → List EntryPtr} {retp : Option BufPtr}
    {reg : AdapterPtr} {i : Nat} {tramp : Trampoline} {r : RegionPtr} {p : EntryPtr} {e : ModEntry}
    (hc : ListsOk E free s.rt none L) (hi : Inv E s)
    (hres : (s.rt.callResolve reg).2 = .ok (i, tramp)) (hdeny : s.rt.callDenied reg = false)
    (hr : s.rt.callerRegion = some r) (hp : s.rt.Listener E (s.rt.adapters reg).name r p e) :
    s.Answers E retp reg p ↔ s.rt.Reaches r i p e := by
  obtain ⟨r', m, L', hr', hlt, hpre, hprep⟩ := hc.call_prepared retp hi hres hdeny
  cases hr.symm.trans hr'
  have hcapt := hprep.captured retp reg tramp
  have hcall : s.rt.xyCall E retp (some reg) = m.callLoop ((m.regions r).hookDispatch i).count
      (m.vectorFrame retp reg i tramp r) := by
    simp only [xyCall, hpre, bind, Except.bind]
    rfl
  have hstep : Xylem.step E s (.call retp (some reg)) =
      (m.callLoop ((m.regions r).hookDispatch i).count (m.vectorFrame retp reg i tramp r)).map
        (State.afterCall s.stack []) := congrArg (Except.map (State.afterCall s.stack [])) hcall
  rw [hprep.reaches hc (callResolve_lookup hi.registry hres) hlt hp]
  constructor
  · rintro ⟨j, tramp', hres', n, hall⟩
    cases hres.symm.trans hres'
    obtain ⟨t, u, ran, ht, hu, habove, hstack, hstatus, hmem⟩ :=
      hall (List.replicate n (List.replicate tramp.retSize 0)) (List.length_replicate ..)
        fun b hb => by rw [List.eq_of_mem_replicate hb, List.length_replicate]
    rw [hstep] at ht
    obtain ⟨x, hx, rfl⟩ := Res.map_ok.mp ht
    obtain ⟨hlive, ret, hret⟩ := walk_served (f := m.vectorFrame retp reg i tramp r)
      (Nat.zero_add _) hcapt hx hu hstack habove
    cases hstatus.symm.trans hret
    exact ⟨hlive, hmem⟩
  · rintro ⟨hlive, hmem⟩
    have hfin : Finishes E s.stack m ((m.regions r).hookDispatch i).count
        (m.vectorFrame retp reg i tramp r) _ := walk_finishes (Nat.zero_add _) ⟨hcapt, hlive⟩ rfl
    obtain ⟨x, hx, hall⟩ := hfin
    let ran := ((m.regions r).hookDispatch i).walked.1.filterMap m.callee
    refine ⟨i, tramp, hres, ran.length, fun results hlen hsize => ?_⟩
    obtain ⟨u, hu, hstack, hstatus, habove⟩ := hall results hlen hsize
    refine ⟨State.afterCall s.stack [] x, u, _, ?_, hu, habove, hstack, ?_, hmem⟩
    · rw [hstep, hx]
      rfl
    · have hpos := List.length_pos_of_mem hmem
      rw [hstatus, if_neg]
      · rfl
      · exact Nat.ne_of_gt (Nat.lt_of_lt_of_le hpos (Nat.le_add_left _ _))

/-- Adapters of one name have been registered in some order. A call through any of them runs a
listener in the caller's subtree if its own trampoline, or the one of the adapter registered
first, is there, and the vector that it walks reaches the listener. -/
theorem listeners_answer (h : Runs E s₀ tr s) {reg f : AdapterPtr} {i : Nat} {r : RegionPtr}
    {p : EntryPtr} {e : ModEntry} {retp : Option BufPtr} (hnew : s₀.rt.sicaHd name = none)
    (hfirst : firstRegistrant s₀.rt.adapters name (tr.map (·.2)) = some f)
    (hreg : (s₀.rt.adapters reg).name = name)
    (hfit : (s₀.rt.adapters reg).call = none ∨ (s₀.rt.adapters reg).retSize ≤ xyMaxRetSize)
    (hdeny : s.rt.callDenied reg = false) (hid : s.rt.hookIdHd.lookup name = some i)
    (hr : s.rt.callerRegion = some r) (hp : s.rt.Listener E name r p e) :
    s.Answers E retp reg p ↔
      ((s₀.rt.adapters reg).call ≠ none ∨ (s₀.rt.adapters f).call ≠ none) ∧
        s.rt.Reaches r i p e := by
  have hA := unregistered h.1.registry hnew
  obtain ⟨j, hj⟩ := (registry_follows h hnew).held f hfirst
  obtain rfl : j = i := Option.some.inj (hj.lookup.symm.trans hid)
  have hname : (s.rt.adapters reg).name = name := ((registry_follows h hnew).names reg).trans hreg
  have hspare : ∀ x ∈ tr, Spares E (fun _ => False) x.2 := fun _ _ _ _ => id
  obtain ⟨L, hc, -⟩ := runs_lists h hspare
  rw [← hj.callable hA hreg hfit, callable_iff]
  constructor
  · intro hans
    have ⟨k, tramp, hres, _⟩ := hans
    have hlook := callResolve_lookup h.inv.registry hres
    rw [hname] at hlook
    cases hid.symm.trans hlook
    exact ⟨⟨_, hres⟩, (hc.answers h.inv hres hdeny hr (hname ▸ hp)).mp hans⟩
  · rintro ⟨⟨⟨k, tramp⟩, hres⟩, hreach⟩
    have hlook := callResolve_lookup h.inv.registry hres
    rw [hname] at hlook
    cases hid.symm.trans hlook
    exact (hc.answers h.inv hres hdeny hr (hname ▸ hp)).mpr hreach

/-- The listener's adapter has registered before the definer's. The listener `m` has claimed a
region of its own, and the host calls from the root through an adapter that it has declared. -/
theorem listeners_answer_definer : ∃ s e, Run.exec (step sampleEnv) definerState
      [.areg 1, .areg 0, .requireClaim (some 0) 0, .load "m" { addr := 1, granted := 1 },
        .installRet] = .ok s ∧
    s.rt.entries 0 = some e ∧ e.regionId ≠ xyRegionRoot ∧ s.Answers sampleEnv none 2 0 ∧
    (s.Answers sampleEnv none 2 0 ↔
      ((definerState.rt.adapters 2).call ≠ none ∨ (definerState.rt.adapters 1).call ≠ none) ∧
        s.rt.Reaches 0 0 0 e) := by
  obtain ⟨s, hs, hobs⟩ := Run.exec_of_check (step sampleEnv) definerState
    [.areg 1, .areg 0, .requireClaim (some 0) 0, .load "m" { addr := 1, granted := 1 }, .installRet]
    (fun s : State => decide (s.rt.callDenied 2 = false) &&
      decide (s.rt.hookIdHd.lookup "h" = some 0) &&
      decide (s.rt.callerRegion = some 0) && decide (s.rt.parentOf 1 = some 0) &&
      decide (((s.rt.regions 0).hookDispatch 0).regionGen ≠ (s.rt.regions 0).dispatchGen) &&
      decide (s.rt.callChain 0 = []) &&
      (s.rt.entries 0).any fun e : ModEntry => decide (e.ctx ≠ none) &&
        decide (sampleEnv.dlsym e.handle "h" ≠ none) && decide (e.regionId ≠ xyRegionRoot) &&
        decide (s.rt.regionLookup e.regionId = some 1) && decide (e.fnCache 0 ≠ .null)) (by decide)
  have hruns : Runs sampleEnv definerState _ s := ⟨definerState_boot, Run.exec_steps hs⟩
  have hfirst : firstRegistrant definerState.rt.adapters "h"
      ((Run.trace (step sampleEnv) definerState
        [.areg 1, .areg 0, .requireClaim (some 0) 0, .load "m" { addr := 1, granted := 1 },
          .installRet]).map (·.2)) = some 1 := by
    rw [Run.trace_events hs]
    decide
  simp only [Bool.and_eq_true, decide_eq_true_eq] at hobs
  obtain ⟨⟨⟨⟨⟨⟨hdeny, hid⟩, hr⟩, hparent⟩, hstale⟩, hchain⟩, hobs⟩ := hobs
  obtain ⟨e, he, hobs⟩ := (Option.any_eq_true _ _).mp hobs
  simp only [Bool.and_eq_true, decide_eq_true_eq] at hobs
  obtain ⟨⟨⟨⟨hctx, hsym⟩, hregion⟩, hhd⟩, hcell⟩ := hobs
  have hp : s.rt.Listener sampleEnv "h" 0 0 e := ⟨he, hctx, hsym, 1, hhd, .link hparent⟩
  have hiff : s.Answers sampleEnv none 2 0 ↔ _ :=
    listeners_answer hruns rfl hfirst rfl (.inl rfl) hdeny hid hr hp
  refine ⟨s, e, hs, he, hregion, hiff.mpr ⟨.inr (by decide), ?_⟩, hiff⟩
  rw [Runtime.Reaches, if_neg hstale, hchain]
  exact ⟨fun _ => hcell, fun a ha => absurd ha List.not_mem_nil⟩

/-- The definer of the hook has registered first, without a trampoline. The listener `p`
registers after it and is loaded, and a call finds no trampoline to reach it by. -/
theorem definer_first_unanswered : ∃ s, Run.exec (step sampleEnv) definerState
      [.areg 0, .areg 1, .load "p" { addr := 1 }, .installRet] = .ok s ∧
    firstRegistrant definerState.rt.adapters "h"
      [.areg 0, .areg 1, .load "p" { addr := 1 }, .installRet] = some 0 ∧
    (definerState.rt.adapters 1).call ≠ none ∧ s.rt.callDenied 2 = false ∧
    Run.check (step sampleEnv) s [.call none (some 2)]
      (fun u => decide (u.status = .returned xyErrNotFound [])) = true ∧
    Run.check (step sampleEnv) s [.call none (some 1), .bodyRet [7]]
      (fun u => decide (u.status = .returned xyOk [0])) = true := by
  obtain ⟨s, hs, hobs⟩ := Run.exec_of_check (step sampleEnv) definerState
    [.areg 0, .areg 1, .load "p" { addr := 1 }, .installRet]
    (fun s => decide (s.rt.callDenied 2 = false) &&
      Run.check (step sampleEnv) s [.call none (some 2)]
        (fun u => decide (u.status = .returned xyErrNotFound [])) &&
      Run.check (step sampleEnv) s [.call none (some 1), .bodyRet [7]]
        (fun u => decide (u.status = .returned xyOk [0]))) (by decide)
  simp only [Bool.and_eq_true, decide_eq_true_eq] at hobs
  exact ⟨s, hs, by decide, by decide, hobs.1.1, hobs.1.2, hobs.2⟩

set_option maxRecDepth 1000 in
/-- Two instances of `m` have regions of their own. The unload of one empties the cell of the
other, and a call with a trampoline does not run it. -/
theorem twin_unanswered : ∃ s e, Run.exec (step sampleEnv) definerState
      [.areg 1, .requireClaim (some 0) 0, .load "m" { addr := 1, granted := 1 }, .installRet,
        .load "m" { addr := 2, granted := 2 }, .installRet, .withRegion 0x8000000000000000, .unload "m" 9,
        .scopeRet 0] = .ok s ∧
    s.rt.Listener sampleEnv "h" 0 1 e ∧
    Run.check (step sampleEnv) s [.call none (some 1)]
      (fun u => decide (u.status = .returned xyErrNotFound [])) = true := by
  obtain ⟨s, hs, hobs⟩ := Run.exec_of_check (step sampleEnv) definerState
    [.areg 1, .requireClaim (some 0) 0, .load "m" { addr := 1, granted := 1 }, .installRet,
      .load "m" { addr := 2, granted := 2 }, .installRet, .withRegion 0x8000000000000000, .unload "m" 9,
      .scopeRet 0]
    (fun s : State => decide (s.rt.parentOf 2 = some 0) &&
      Run.check (step sampleEnv) s [.call none (some 1)]
        (fun u => decide (u.status = .returned xyErrNotFound [])) &&
      (s.rt.entries 1).any fun e : ModEntry => decide (e.ctx ≠ none) &&
        decide (sampleEnv.dlsym e.handle "h" ≠ none) &&
        decide (s.rt.regionLookup e.regionId = some 2)) (by decide)
  simp only [Bool.and_eq_true, decide_eq_true_eq] at hobs
  obtain ⟨⟨hparent, hcall⟩, hobs⟩ := hobs
  obtain ⟨e, he, hobs⟩ := (Option.any_eq_true _ _).mp hobs
  simp only [Bool.and_eq_true, decide_eq_true_eq] at hobs
  exact ⟨s, e, hs, ⟨he, hobs.1.1, hobs.1.2, 2, hobs.2, .link hparent⟩, hcall⟩

end Answers
end Xylem

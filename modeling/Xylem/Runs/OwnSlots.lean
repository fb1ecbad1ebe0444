import Xylem.Runs.Below
import Xylem.Runs.HookIds

namespace Xylem

open Xylem.Runtime

namespace Runtime
variable {E : Env} {s t : Runtime} {x y : Transit} {L : RegionPtr → List EntryPtr} {i : Nat}
  {slot : Slot}

/-- In a vector of hook `i`, the slot holds what a cell of its module may hold. -/
def SlotOwn (E : Env) (s : Runtime) (i : Nat) (slot : Slot) : Prop :=
  ∀ e, s.entries slot.me = some e → CellOk E s.hookIdHd e.handle i slot.cb

/-- So does every slot that has ever been written. -/
def SlotsOwn (E : Env) (s : Runtime) : Prop :=
  ∀ R i, ∀ slot ∈ ((s.regions R).hookDispatch i).slots, s.SlotOwn E i slot

theorem SlotOwn.kept {n : EntryPtr} (h : s.SlotOwn E i slot) (hlt : slot.me < n) (ho : OldKept n s t)
    (hk : ∀ name id, s.hookIdHd.lookup name = some id → t.hookIdHd.lookup name = some id) :
    t.SlotOwn E i slot := by
  intro e' he'
  obtain ⟨e, he, hid⟩ := ho _ hlt e' he'
  have hhandle : e'.handle = e.handle := (congrArg ModEntry.handle hid : _)
  rw [hhandle]
  exact (h e he).mono hk

theorem SlotOwn.of_core (h : s.SlotOwn E i slot) (hc : t.core = s.core) : t.SlotOwn E i slot :=
  h.kept (Nat.lt_succ_self _) (.of_core hc) fun name _ hid =>
    (congrArg (fun c : Core => c.hooks.hookIdHd.lookup name) hc).trans hid

theorem SlotsOwn.same (h : s.SlotsOwn E) (hb : s.CitesBelow x) (hs : SameCites s t)
    (ho : OldKept s.entryNext s t)
    (hk : ∀ name id, s.hookIdHd.lookup name = some id → t.hookIdHd.lookup name = some id) :
    t.SlotsOwn E := by
  intro R i slot hslot
  have hvec : (t.regions R).hookDispatch = (s.regions R).hookDispatch := (hs R).2
  rw [hvec] at hslot
  exact (h R i slot hslot).kept (hb.below R _ (.inr ⟨i, slot, hslot, rfl⟩)).made ho hk

theorem rebuildFold_own {name : String} {anc : List RegionPtr} {l : List EntryPtr}
    {c d : HookDispatchCache} (hk : s.hookIdHd.lookup name = some i) (hc : Cached E s)
    (h : l.foldlM (regionRebuildSlot E i name anc) (s, c) = .ok (t, d)) :
    ∀ slot ∈ d.slots, slot ∈ c.slots ∨ t.SlotOwn E i slot := by
  induction l generalizing s c with
  | nil =>
      cases h
      exact fun slot hslot => .inl hslot
  | cons q l ih =>
      rw [List.foldlM_cons] at h
      obtain ⟨⟨n, c'⟩, hn, h⟩ := Res.bind_ok.mp h
      obtain ⟨me, he, ⟨-, hacc⟩ | ⟨-, -, hacc⟩⟩ := regionRebuildSlot_cases hn
      · cases hacc
        exact ih hk hc h
      · obtain ⟨rfl, rfl⟩ := Prod.mk.inj hacc
        have hcell := Cached.slotEntry hk (hc q me he)
        have hc' : Cached E (s.setEntry q (some (slotEntry E i name me))) := hc.setEntry hcell
        have hk' : (s.setEntry q (some (slotEntry E i name me))).hookIdHd.lookup name = some i := hk
        intro slot hslot
        rcases ih hk' hc' h slot hslot with hold | hown
        · split at hold
          · obtain ⟨k, hget⟩ := List.mem_iff_getElem?.mp hold
            rcases push_slots hget with rfl | ⟨hold, -⟩
            · refine .inr (SlotOwn.of_core (fun e he' => ?_) (rebuildFold_resolved h).core)
              simp only [Runtime.setEntry, Function.update_self, Option.some.injEq] at he'
              subst he'
              exact hcell i
            · exact .inl (List.mem_of_getElem? hold)
          · exact .inl hold
        · exact .inr hown

end Runtime

namespace Prim
variable {E : Env} {g : RegionPtr → UInt8 → Prop} {s t : Runtime} {x y : Transit}
  {L : RegionPtr → List EntryPtr}

/-- A slot of a vector was there, or has been filled from a cell of its module. -/
theorem slots (h : Prim E g (s, x) (t, y)) (hc : Cached E s) {R : RegionPtr} {i : Nat} {slot : Slot}
    (hslot : slot ∈ ((t.regions R).hookDispatch i).slots) :
    slot ∈ ((s.regions R).hookDispatch i).slots ∨ t.SlotOwn E i slot := by
  have same (hs : SameVectors s t) :
      slot ∈ ((s.regions R).hookDispatch i).slots ∨ t.SlotOwn E i slot := by
    rw [hs R i] at hslot
    exact .inl hslot
  cases h with
  | scratch hs => exact same (SameVectors.of_regions hs.regions)
  | removeDenies r path => exact same (moduleRemoveDenies_vectors s r path)
  | detach hd => exact same (moduleRegionDetach_vectors hd)
  | unlist he hu => exact same (modLoadUnlist_vectors hu)
  | insert hx he hr ha hi => exact same (moduleRegionInsertAfter_vectors hi)
  | claim hcl hg =>
      rcases regionCreateChild_vectors s _ _ _ R i with hs | hs
      · rw [hs] at hslot
        exact .inl hslot
      · rw [hs] at hslot
        cases hslot
  | rekey he hch hn =>
      rw [rekeyEntry_eq] at hslot
      exact .inl hslot
  | mods hm => exact same (regionRebuildSubtreeMods_vectors hm)
  | @vector _ _ _ r j name hk hv =>
      obtain ⟨m, hm, hcase⟩ := regionRebuildHookDispatch_cases hv
      have hsame := regionEnsureSubtreeMods_vectors hm
      have hcells : SameCells s m := by
        rcases regionEnsureSubtreeMods_cases hm with ⟨-, hm⟩ | ⟨-, rfl⟩
        · exact Cached.rebuildMods hm
        · exact .refl _
      rcases hcase with ⟨-, rfl⟩ | ⟨-, n, cache, hf, rfl⟩
      · exact same hsame
      obtain ⟨entries, hn⟩ := (rebuildFold_resolved hf).rest
      have hregions : n.regions = m.regions := (congrArg Runtime.regions hn : _)
      have hold := hsame R i
      rw [regions_setRegion, hregions] at hslot
      split at hslot
      · rename_i hR
        subst hR
        by_cases hj : i = j
        · subst hj
          simp only [Function.update_self] at hslot
          rcases rebuildFold_own (hcells.hooks ▸ hk) (hc.same hcells) hf slot hslot with h1 | h1
          · exact .inl (hold ▸ h1)
          · exact .inr fun e he => h1 e he
        · simp only [Function.update_of_ne hj] at hslot
          exact .inl (hold ▸ hslot)
      · exact .inl (hold ▸ hslot)
  | count | clear | prewarm | drop | publish | bind | state | freePath | enter => exact .inl hslot

theorem slotsOwn (h : Prim E g (s, x) (t, y)) (hc : Cached E s) (hb : s.CitesBelow x)
    (ho : s.SlotsOwn E) : t.SlotsOwn E := by
  intro R i slot hslot
  rcases h.slots hc hslot with hold | hown
  · have hbelow := hb.below R _ (.inr ⟨i, slot, hold, rfl⟩)
    have hnew : ∀ q, x = .fresh q → slot.me + 1 ≤ q := by
      intro q hq
      have hle : s.entryNext ≤ q + 1 := hb.newest q hq
      have hne : q ≠ slot.me := fun hcon => hbelow.listed (hcon ▸ hq)
      exact Nat.lt_of_le_of_ne (Nat.le_of_lt_succ (hbelow.made.trans_le hle)) hne.symm
    obtain ⟨-, -, hkept⟩ := h.old hbelow.made hnew
    exact (ho R i slot hold).kept (Nat.lt_succ_self _) hkept fun name id hid =>
      h.hooks ▸ hid
  · exact hown

end Prim

theorem Prims.slotsOwn {E : Env} {g : RegionPtr → UInt8 → Prop} {s t : Runtime}
    {L : RegionPtr → List EntryPtr} (h : Prims E g (s, .none) (t, .none)) (hw : WF s none L)
    (hc : Cached E s) (hb : s.CitesBelow .none) (ho : s.SlotsOwn E) : t.SlotsOwn E := by
  have key : ∀ b, Prims E g (s, .none) b →
      (∃ L', WF b.1 b.2.entry L') ∧ Cached E b.1 ∧ b.1.CitesBelow b.2 ∧ b.1.SlotsOwn E := by
    intro b hb'
    induction hb' with
    | refl => exact ⟨⟨L, hw⟩, hc, hb, ho⟩
    | tail _ hp ih =>
        obtain ⟨⟨L1, hw1⟩, hc1, hb1, ho1⟩ := ih
        exact ⟨hw1.prim hp, hp.cached hc1, hp.citesBelow hw1 hb1, hp.slotsOwn hc1 hb1 ho1⟩
  exact (key _ h).2.2.2

section Steps
variable {E : Env} {s₀ s t : State} {e : Event} {tr : List (State × Event)}

theorem step_slotsOwn (hi : Inv E s) (h : step E s e = .ok t) (hc : Cached E s.rt)
    (hb : s.rt.CitesBelow .none) (ho : s.rt.SlotsOwn E) : t.rt.SlotsOwn E := by
  obtain ⟨L, hw⟩ := hi.wf
  rcases step_sameCites hi h with ⟨g, hp⟩ | ⟨hsame, hold⟩
  · exact hp.slotsOwn hw hc hb ho
  · exact ho.same hb hsame (hold _ le_rfl).2 fun _ _ => hookId_kept hi h

/-- In every run the function of a slot is what `dlsym` finds in the image of the slot's module,
while that lives, for the hook of the vector. -/
theorem runs_slotsOwn (h : Runs E s₀ tr s) : s.rt.SlotsOwn E := by
  have key : Inv E s ∧ Cached E s.rt ∧ s.rt.CitesBelow .none ∧ s.rt.SlotsOwn E := by
    refine Run.Steps.invariant (C := fun _ _ _ => True)
      (P := fun u => Inv E u ∧ Cached E u.rt ∧ u.rt.CitesBelow .none ∧ u.rt.SlotsOwn E)
      (fun m e t hst _ hm => ⟨hm.1.step hst, hm.2.1.step hm.1 hst,
        step_citesBelow hm.1 hst hm.2.2.1, step_slotsOwn hm.1 hst hm.2.1 hm.2.2.1 hm.2.2.2⟩) h.2
      (fun _ _ _ _ => trivial)
      ⟨Inv.boot h.1, ?_, runs_citesBelow (E := E) ⟨h.1, .nil _⟩, fun R i slot hslot => ?_⟩
    · intro p e he
      rw [h.1.entries] at he
      cases he
    · have hregion : s₀.rt.regions R = {} := by
        rcases Nat.eq_zero_or_pos R with rfl | hR
        · exact h.1.root
        · exact h.1.fresh R hR
      rw [hregion] at hslot
      cases hslot
  exact key.2.2.2

/-- The module of a body that has just been entered is alive. -/
theorem entered_live {x : State × Event} (h : Run.Steps (step E) s (x :: tr) t) {f : CallFrame}
    {stack : List Frame} (ht : t.stack = .body f :: stack) (hent : t.status = .entered) :
    ∃ me, t.rt.entries f.me = some me := by
  obtain ⟨pre, y, hpre⟩ : ∃ pre y, x :: tr = pre ++ [y] :=
    ⟨_, _, (List.dropLast_append_getLast (List.cons_ne_nil x tr)).symm⟩
  rw [hpre] at h
  exact (entering_cited (Run.steps_snoc.mp h).2 (State.entering_iff.mpr ⟨hent, stack, ht⟩)).2.1

end Steps

/-- Whenever a call enters a slot, the trampoline it has resolved is handed the slot's
function; it runs that one if it is not a Rust listener's, or is that listener's own. The call
has entered no slot from this one on before. In a run, the function is the module's own. -/
theorem slots_run_own {E : Env} {s u : State} {tr : List (State × Event)} {retp : Option BufPtr}
    {reg : AdapterPtr} {i : Nat} {tramp : Trampoline}
    (hres : (s.rt.callResolve reg).2 = .ok (i, tramp))
    (h : Run.Steps (step E) s ((s, .call retp (some reg)) :: tr) u)
    (habove : ∀ x ∈ tr, s.stack.length < x.1.stack.length) {f : CallFrame}
    (hu : u.stack = .body f :: s.stack) (hent : u.status = .entered) :
    (∃ slot fn, u.rt.slotAt f = some slot ∧ slot.me = f.me ∧ slot.cb = .fn fn ∧
      (f.dispatchCall.RunsSlot fn ↔ ∀ l, tramp.kind = .rustImpl l → l = fn) ∧
      ∀ s₀ pre, Runs E s₀ pre s → ∃ me name, u.rt.entries f.me = some me ∧
        u.rt.hookIdHd.lookup name = some f.hookId ∧ E.dlsym me.handle name = some fn) ∧
      ∀ x ∈ tr, ∀ g, x.1.stack = .body g :: s.stack → g.mi < f.mi := by
  rcases call_frame hres h habove with hk | ⟨above, g, hk, hg, -, hat⟩
  · have hlen := congrArg List.length (hu.symm.trans hk)
    simp only [List.length_cons] at hlen
    omega
  · obtain ⟨rfl, rfl⟩ := body_alone (hk.symm.trans hu)
    obtain ⟨⟨slot, fn, hslot, hme, hcb⟩, hbefore⟩ := hat rfl hent
    rw [hg]
    refine ⟨⟨slot, fn, hslot, hme, hcb, Trampoline.runsSlot_iff, fun s₀ pre hr => ?_⟩, hbefore⟩
    have hrun : Runs E s₀ (pre ++ (s, .call retp (some reg)) :: tr) u := ⟨hr.1, hr.2.trans h⟩
    obtain ⟨me, hlive⟩ := entered_live h hu hent
    have hown := runs_slotsOwn hrun _ _ slot (List.mem_of_getElem? hslot) me (hme ▸ hlive)
    rw [hcb] at hown
    obtain ⟨name, hid, hsym⟩ := hown
    exact ⟨me, name, hlive, hid, hsym⟩

/-- A call by way of the adapter of `q`, which is written in C: the body of `p` has returned and
the slot of `q` is entered. -/
theorem slots_run_own_second : ∃ s m u g f, Run.exec (step sampleEnv) mixedState
      [.areg 0, .load "p" { addr := 1 }, .installRet, .areg 1, .load "q" { addr := 2 }, .installRet] =
        .ok s ∧
    step sampleEnv s (.call none (some 1)) = .ok m ∧ m.stack = .body g :: s.stack ∧
    step sampleEnv m (.bodyRet [7]) = .ok u ∧ u.stack = .body f :: s.stack ∧ g.mi < f.mi ∧
    ∃ slot fn, u.rt.slotAt f = some slot ∧ slot.me = f.me ∧ slot.cb = .fn fn ∧
      f.dispatchCall.RunsSlot fn ∧ ∃ me name, u.rt.entries f.me = some me ∧
        u.rt.hookIdHd.lookup name = some f.hookId ∧ sampleEnv.dlsym me.handle name = some fn := by
  let events : List Event :=
    [.areg 0, .load "p" { addr := 1 }, .installRet, .areg 1, .load "q" { addr := 2 }, .installRet]
  let tramp : Trampoline := { retSize := 1 }
  obtain ⟨s, hs, hobs⟩ := Run.exec_of_check (step sampleEnv) mixedState events
    (fun s => decide (s.stack = []) &&
      (s.rt.callResolve 1).2.toOption.any (fun r => decide (r = (0, tramp))) &&
      Run.check (step sampleEnv) s [.call none (some 1)] (fun m => decide (m.status = .entered)) &&
      Run.check (step sampleEnv) s [.call none (some 1), .bodyRet [7]] fun u =>
        decide (u.status = .entered) && decide (u.stack.length = 1))
    (by decide)
  simp only [Bool.and_eq_true, decide_eq_true_eq] at hobs
  obtain ⟨⟨⟨hnil, hres⟩, hcall⟩, hbody⟩ := hobs
  obtain ⟨m, hm, hm'⟩ := Run.of_check hcall
  obtain ⟨u, hu, hobs⟩ := Run.of_check hbody
  simp only [Bool.and_eq_true, decide_eq_true_eq] at hobs
  have hcall := Run.exec_single hm
  have hret : step sampleEnv m (.bodyRet [7]) = .ok u := by
    obtain ⟨m', h1, h2⟩ := Run.exec_head hu
    cases hcall.symm.trans h1
    exact Run.exec_single h2
  have hres : (s.rt.callResolve 1).2 = .ok (0, tramp) := by
    cases hr : (s.rt.callResolve 1).2 with
    | error c =>
        rw [hr] at hres
        cases hres
    | ok r =>
        rw [hr] at hres
        exact congrArg Except.ok (of_decide_eq_true hres)
  obtain ⟨g, hg⟩ : ∃ g, m.stack = .body g :: s.stack := by
    obtain ⟨r, -, rfl⟩ := Res.map_ok.mp hcall
    exact afterCall_pushes (of_decide_eq_true hm')
  obtain ⟨f, hf⟩ : ∃ f, u.stack = .body f :: s.stack := by
    rcases step_entered_stack hret hobs.1 with ⟨f, hf⟩ | ⟨-, f₀, f, rest, -, hm₀, hf⟩
    · have hlen := hobs.2
      rw [hf, hg] at hlen
      simp at hlen
    · rw [(List.cons.inj (hm₀.symm.trans hg)).2] at hf
      exact ⟨f, hf⟩
  have hsteps : Run.Steps (step sampleEnv) s [(s, .call none (some 1)), (m, .bodyRet [7])] u :=
    .snoc (.snoc (.nil s) hcall) hret
  obtain ⟨⟨slot, fn, hslot, hme, hcb, hruns, hown⟩, hbefore⟩ :=
    slots_run_own hres hsteps (fun x hx => by rw [List.mem_singleton.mp hx, hg]; exact Nat.lt_succ_self _)
      hf hobs.1
  have hrun : Runs sampleEnv mixedState _ s := ⟨mixedState_boot, Run.exec_steps hs⟩
  exact ⟨s, m, u, g, f, hs, hcall, hg, hret, hf, hbefore _ (List.mem_singleton_self _) g hg, slot, fn,
    hslot, hme, hcb, hruns.mpr nofun, hown _ _ hrun⟩

/-- The Rust listener `p` has registered first; a call of the host's adapter hands its
trampoline the function of `q`, and it runs the one of `p`. -/
theorem runs_other_listener : Boot mixedState ∧ ∃ s f slot fn, Run.exec (step sampleEnv) mixedState
      [.areg 0, .load "p" { addr := 1 }, .installRet, .areg 1, .load "q" { addr := 2 }, .installRet,
        .call none (some 2), .bodyRet [7]] = .ok s ∧
    s.stack = [.body f] ∧ s.rt.slotAt f = some slot ∧ slot.cb = .fn fn ∧ fn.image.path = "q" ∧
    ¬ f.dispatchCall.RunsSlot fn := by
  let own : Fn := ⟨⟨"p", 0⟩, "h"⟩
  obtain ⟨s, hs, hobs⟩ := Run.exec_of_check (step sampleEnv) mixedState
    [.areg 0, .load "p" { addr := 1 }, .installRet, .areg 1, .load "q" { addr := 2 },
      .installRet, .call none (some 2), .bodyRet [7]]
    (fun s => s.entering.any fun f => decide (s.stack = [.body f]) &&
      decide (f.dispatchCall.kind = .rustImpl own) &&
      decide (s.rt.slotAt f = some ⟨f.me, .fn ⟨⟨"q", 0⟩, "h"⟩⟩)) (by decide)
  obtain ⟨f, -, hf⟩ := (Option.any_eq_true _ _).mp hobs
  simp only [Bool.and_eq_true, decide_eq_true_eq] at hf
  obtain ⟨⟨hstack, hkind⟩, hslot⟩ := hf
  refine ⟨mixedState_boot, s, f, _, ⟨⟨"q", 0⟩, "h"⟩, hs, hstack, hslot, rfl, rfl, fun hrun => ?_⟩
  have hown := Trampoline.runsSlot_iff.mp hrun own hkind
  exact absurd hown (by decide)

end Xylem

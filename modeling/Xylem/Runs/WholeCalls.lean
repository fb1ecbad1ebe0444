import Xylem.Runs.Twins
import Xylem.Runs.Threads

namespace Xylem

open Xylem.Runtime

section Calls
variable {E : Env} {s t s' t' : State} {retp : Option BufPtr} {reg : Option AdapterPtr}
  {results : List Bytes}

namespace Runtime
variable {m n : Runtime}

theorem callFinish_off (s : Runtime) (f : CallFrame) {b : BufPtr} (hb : f.retp ≠ some b) :
    (s.callFinish f).1.bufs b = s.bufs b := by
  unfold callFinish
  simp only
  split
  · cases hr : f.retp with
    | none => rfl
    | some c =>
        have hbc : b ≠ c := fun h => hb (hr.trans (congrArg some h.symm))
        exact Function.update_of_ne hbc _ _
  · obtain ⟨p, buf, h⟩ := xySetLastRet_eq { s with lastRan := f.ran } f.retp (s.adapters f.reg).retSize
    rw [h]
    rfl

theorem callLoop_off {left : Nat} {f : CallFrame} {x : Int ⊕ CallFrame}
    (h : m.callLoop left f = .ok (n, x)) :
    (∀ b, f.retp ≠ some b → n.bufs b = m.bufs b) ∧ ∀ g, x = .inr g → g.retp = f.retp := by
  cases callLoop_way h with
  | ends hskip => exact ⟨fun b hb => callFinish_off m f hb, fun g hg => by cases hg⟩
  | enters k slot me c fn hk hk' hskip htaken =>
      obtain ⟨id, r, heq, -⟩ := callEnter_eq m { f with mi := k } slot.me me c
      refine ⟨fun b _ => ?_, fun g hg => ?_⟩
      · rw [heq]
      · cases hg
        rfl

theorem bodyReturn_off {f : CallFrame} {result : Bytes} {x : Int ⊕ CallFrame}
    (h : m.bodyReturn f result = .ok (n, x)) :
    (∀ b, f.retp ≠ some b → n.bufs b = m.bufs b) ∧ ∀ g, x = .inr g → g.retp = f.retp := by
  obtain ⟨hb, hg⟩ := callLoop_off (bodyReturn_ok h)
  refine ⟨fun b hne => (hb b hne).trans ?_, hg⟩
  unfold bodyLeft
  cases hr : f.retp with
  | none => cases f.regionChanged <;> rfl
  | some c =>
      have hbc : b ≠ c := fun h => hne (hr.trans (congrArg some h.symm))
      cases f.regionChanged <;> exact Function.update_of_ne hbc _ _

theorem callFail_off (s : Runtime) (retp : Option BufPtr) (reg : AdapterPtr) (ret : Int) {b : BufPtr}
    (hb : retp ≠ some b) : (s.callFail retp reg ret).bufs b = s.bufs b := by
  cases retp with
  | none => rfl
  | some c =>
      have hbc : b ≠ c := fun h => hb (congrArg some h.symm)
      exact Function.update_of_ne hbc _ _

theorem xyCall_off {x : Int ⊕ CallFrame} (h : m.xyCall E retp reg = .ok (n, x)) :
    (∀ b, retp ≠ some b → n.bufs b = m.bufs b) ∧ ∀ g, x = .inr g → g.retp = retp := by
  cases reg with
  | none =>
      cases h
      exact ⟨fun _ _ => rfl, fun g hg => by cases hg⟩
  | some reg =>
      have hres : (m.callResolve reg).1.bufs = m.bufs := by
        obtain ⟨a, hs, -⟩ := callResolve_spec m reg
        rw [hs]
      have hfail : ∀ ret b, retp ≠ some b →
          ((m.callResolve reg).1.callFail retp reg ret).bufs b = m.bufs b := fun ret b hb =>
        (callFail_off _ retp reg ret hb).trans (congrFun hres b)
      obtain ⟨⟨p, out⟩, hp, h⟩ := Res.bind_ok.mp h
      cases callPrepare_way hp with
      | fails ret he =>
          cases h
          exact ⟨hfail ret, fun g hg => by cases hg⟩
      | denied i call he hd =>
          cases h
          exact ⟨hfail xyErrEperm, fun g hg => by cases hg⟩
      | nowhere i call he hd hR =>
          obtain ⟨hb, hg⟩ := callLoop_off h
          exact ⟨fun b hne => (hb b hne).trans (congrFun hres b), hg⟩
      | loops i call he hd R hR u hv =>
          obtain ⟨hb, hg⟩ := callLoop_off h
          exact ⟨fun b hne => (hb b hne).trans
            ((congrFun (callVector_tls hv).2 b).trans (congrFun hres b)), hg⟩

def Settled (s : Runtime) : Prop := ∀ b, s.lastRetp ≠ .caller b

theorem setLastRet_settled (s : Runtime) (retp : Option BufPtr) (size : Nat) :
    Settled (s.xySetLastRet retp size) := by
  intro b
  cases retp with
  | none => exact LastRet.noConfusion
  | some c =>
      unfold xySetLastRet
      simp only
      split <;> exact LastRet.noConfusion

theorem zeroRet_settled (h : Settled m) (retp : Option BufPtr) (size : Nat) :
    Settled (m.xyZeroRet retp size) := by
  cases retp <;> exact h

theorem callFail_settled (s : Runtime) (retp : Option BufPtr) (reg : AdapterPtr) (ret : Int) :
    Settled (s.callFail retp reg ret) :=
  zeroRet_settled (setLastRet_settled { s with lastRan := 0 } none (s.adapters reg).retSize) retp
    (s.adapters reg).retSize

theorem callFinish_settled (s : Runtime) (f : CallFrame) : Settled (s.callFinish f).1 := by
  unfold callFinish
  simp only
  split
  · exact zeroRet_settled (setLastRet_settled { s with lastRan := f.ran } none _) f.retp _
  · exact setLastRet_settled { s with lastRan := f.ran } f.retp _

theorem callLoop_settled {left : Nat} {f : CallFrame} {ret : Int}
    (h : m.callLoop left f = .ok (n, .inl ret)) : Settled n := by
  cases callLoop_way h with
  | ends hskip => exact callFinish_settled m f

theorem xyCall_settled {ret : Int} (hs : Settled m) (h : m.xyCall E retp reg = .ok (n, .inl ret)) :
    Settled n := by
  cases reg with
  | none =>
      cases h
      exact hs
  | some reg =>
      obtain ⟨⟨p, out⟩, hp, h⟩ := Res.bind_ok.mp h
      cases callPrepare_way hp with
      | fails ret he =>
          cases h
          exact callFail_settled _ retp reg _
      | denied i call he hd =>
          cases h
          exact callFail_settled _ retp reg _
      | nowhere i call he hd hR => exact callLoop_settled h
      | loops i call he hd R hR u hv => exact callLoop_settled h

end Runtime

/-- Only bodies of calls that return into `retp` are running. -/
def Within (retp : Option BufPtr) (s : State) : Prop :=
  ∀ f ∈ s.stack, ∃ g, f = .body g ∧ g.retp = retp

theorem bodyRet_step {result : Bytes} (h : step E s (.bodyRet result) = .ok t) :
    ∃ f rest r, s.stack = .body f :: rest ∧ s.rt.bodyReturn f result = .ok r ∧
      t = State.afterCall rest f.invoked r := by
  simp only [step] at h
  split at h
  · rename_i f rest hst
    obtain ⟨r, hr, rfl⟩ := Res.map_ok.mp h
    exact ⟨f, rest, r, hst, hr, rfl⟩
  · cases h

theorem bodies_unseen (hc : CanonicalHeld s.rt) (hw : Within retp s)
    (h : Run.exec (step E) s (results.map .bodyRet) = .ok t) :
    Unseen E s.rt t.rt ∧ ∀ b, retp ≠ some b → t.rt.bufs b = s.rt.bufs b := by
  induction results generalizing s with
  | nil =>
      cases h
      exact ⟨(TablesKept.refl _).alike hc, fun _ _ => rfl⟩
  | cons result results ih =>
      simp only [List.map_cons, Run.exec] at h
      split at h
      · rename_i m hm
        obtain ⟨f, rest, ⟨p, x⟩, hst, hp, rfl⟩ := bodyRet_step hm
        obtain ⟨g, hfg, hg⟩ := hw (.body f) (by rw [hst]; exact List.mem_cons_self ..)
        cases hfg
        have h1 := bodyReturn_unseen (E := E) hc hp
        obtain ⟨hb, hretp⟩ := bodyReturn_off hp
        rw [hg] at hb hretp
        have hrest : ∀ f ∈ rest, ∃ g, f = .body g ∧ g.retp = retp := fun f hf =>
          hw f (by rw [hst]; exact List.mem_cons_of_mem _ hf)
        have hrt : (State.afterCall rest f.invoked (p, x)).rt = p := by cases x <;> rfl
        have hw' : Within retp (State.afterCall rest f.invoked (p, x)) := by
          cases x with
          | inl ret => exact hrest
          | inr g =>
              intro f' hf'
              rcases List.mem_cons.mp hf' with rfl | hf'
              · exact ⟨g, rfl, hretp g rfl⟩
              · exact hrest f' hf'
        obtain ⟨h2, h3⟩ := ih (by rw [hrt]; exact h1.adapters.held.2) hw' h
        rw [hrt] at h2 h3
        exact ⟨h1.trans h2, fun b hne => (h3 b hne).trans (hb b hne)⟩
      · cases h

theorem wholeCall_unseen (hreg : Registry s.rt) (hc : CanonicalHeld s.rt) (hs : s.stack = [])
    (h : Run.exec (step E) s (.call retp reg :: results.map .bodyRet) = .ok t) :
    Unseen E s.rt t.rt ∧ ∀ b, retp ≠ some b → t.rt.bufs b = s.rt.bufs b := by
  simp only [Run.exec] at h
  split at h
  · rename_i m hm
    obtain ⟨⟨p, x⟩, hp, rfl⟩ := Res.map_ok.mp hm
    have h1 := xyCall_unseen hreg hc hp
    obtain ⟨hb, hretp⟩ := xyCall_off hp
    have hrt : (State.afterCall s.stack [] (p, x)).rt = p := by cases x <;> rfl
    have hw : Within retp (State.afterCall s.stack [] (p, x)) := by
      rw [hs]
      cases x with
      | inl ret => exact fun f hf => by cases hf
      | inr g =>
          intro f hf
          obtain rfl := List.mem_singleton.mp hf
          exact ⟨g, rfl, hretp g rfl⟩
    obtain ⟨h2, h3⟩ := bodies_unseen (by rw [hrt]; exact h1.adapters.held.2) hw h
    rw [hrt] at h2 h3
    exact ⟨h1.trans h2, fun b hne => (h3 b hne).trans (hb b hne)⟩
  · cases h

theorem bodies_settled (hs : s.stack = [] → Settled s.rt)
    (h : Run.exec (step E) s (results.map .bodyRet) = .ok t) : t.stack = [] → Settled t.rt := by
  induction results generalizing s with
  | nil =>
      cases h
      exact hs
  | cons result results ih =>
      simp only [List.map_cons, Run.exec] at h
      split at h
      · rename_i m hm
        obtain ⟨f, rest, ⟨p, x⟩, hst, hp, rfl⟩ := bodyRet_step hm
        refine ih (fun hnil => ?_) h
        cases x with
        | inl ret => exact callLoop_settled (bodyReturn_ok hp)
        | inr g => cases hnil
      · cases h

/-- When a whole call has returned, the saved result is the thread's own copy or none. -/
theorem wholeCall_settled (hs : Settled s.rt)
    (h : Run.exec (step E) s (.call retp reg :: results.map .bodyRet) = .ok t) (ht : t.stack = []) :
    Settled t.rt := by
  simp only [Run.exec] at h
  split at h
  · rename_i m hm
    obtain ⟨⟨p, x⟩, hp, rfl⟩ := Res.map_ok.mp hm
    refine bodies_settled (fun hnil => ?_) h ht
    cases x with
    | inl ret => exact xyCall_settled hs hp
    | inr g => cases hnil
  · cases h

/-- The same call under way in `s` and `t`, as their threads see it. -/
structure Lock (E : Env) (B : BufPtr → Prop) (reg : Option AdapterPtr) (s t : State) : Prop where
  unseen : Unseen E s.rt t.rt
  twin : Twin B s.rt t.rt
  status : t.status = s.status
  adapter : ∀ a, reg = some a → s.rt.adapter = some a ∧ t.rt.adapter = some a
  size : ∀ a, reg = some a → (t.rt.adapters a).retSize = (s.rt.adapters a).retSize
  turn : s.stack = [] ∧ t.stack = [] ∧ t.rt.errVal = s.rt.errVal ∨
    ∃ f block, s.stack = [.body f] ∧ t.stack = [.body { f with block := block }] ∧
      SameFrame B s.rt t.rt f block

section Locks
variable {B : BufPtr → Prop}

theorem Lock.after {m n : Runtime} {x y : Int ⊕ CallFrame} {ran : List EntryPtr}
    (hu : Unseen E m n) (ht : Twin B m n) (hturn : SameTurn B m n x y)
    (ha : ∀ a, reg = some a → m.adapter = some a ∧ n.adapter = some a)
    (hsize : ∀ a, reg = some a → (n.adapters a).retSize = (m.adapters a).retSize) :
    Lock E B reg (State.afterCall [] ran (m, x)) (State.afterCall [] ran (n, y)) := by
  cases hturn with
  | ends ret herr => exact ⟨hu, ht, rfl, ha, hsize, .inl ⟨rfl, rfl, herr⟩⟩
  | enters hf => exact ⟨hu, ht, rfl, ha, hsize, .inr ⟨_, _, rfl, rfl, hf⟩⟩

theorem lock_call (hs : Registry s.rt) (ht : Registry t.rt) (hu : Unseen E s.rt t.rt)
    (hb : Twin B s.rt t.rt) (hown : ∀ b, retp = some b → B b) (hss : s.stack = []) (hts : t.stack = [])
    (h : step E s (.call retp reg) = .ok s') (k : step E t (.call retp reg) = .ok t') :
    Lock E B reg s' t' := by
  obtain ⟨⟨m, x⟩, hm, rfl⟩ := Res.map_ok.mp h
  obtain ⟨⟨n, y⟩, hn, rfl⟩ := Res.map_ok.mp k
  rw [hss, hts]
  obtain ⟨h1, h2⟩ := xyCall_twin hs ht hu hb hown hm hn
  have hsm := xyCall_unseen hs hu.adapters.held.1 hm
  have htn := xyCall_unseen ht hu.adapters.held.2 hn
  refine Lock.after ((hsm.symm.trans hu).trans htn) h1 h2 (fun a ha => ?_) fun a ha => ?_
  · subst ha
    exact ⟨xyCall_adapter hm, xyCall_adapter hn⟩
  · subst ha
    have hooks : ∀ {s : State} {r : Runtime × (Int ⊕ CallFrame)}, s.rt.xyCall E retp (some a) = .ok r →
        r.1.adapters = (s.rt.callResolve a).1.adapters := fun hr =>
      congrArg Hooks.adapters (xyCall_hooks hr)
    rw [hooks hm, hooks hn, (callResolve_twin hu hb a).2.2.1]

theorem lock_body {result : Bytes} (hl : Lock E B reg s t)
    (h : step E s (.bodyRet result) = .ok s') (k : step E t (.bodyRet result) = .ok t') :
    Lock E B reg s' t' := by
  obtain ⟨f, rest, ⟨m, x⟩, hst, hm, rfl⟩ := bodyRet_step h
  obtain ⟨g, rest', ⟨n, y⟩, htt, hn, rfl⟩ := bodyRet_step k
  rcases hl.turn with ⟨hnil, -⟩ | ⟨f', block, hsf, htf, hframe⟩
  · rw [hnil] at hst
    cases hst
  · rw [hsf] at hst
    rw [htf] at htt
    cases hst
    cases htt
    obtain ⟨h1, h2⟩ := bodyReturn_twin hl.unseen hl.twin hframe hm hn
    have hsm := bodyReturn_unseen (E := E) hl.unseen.adapters.held.1 hm
    have htn := bodyReturn_unseen (E := E) hl.unseen.adapters.held.2 hn
    have kept : ∀ {s m : Runtime} {f : CallFrame} {x : Int ⊕ CallFrame},
        s.bodyReturn f result = .ok (m, x) → m.adapter = s.adapter ∧ m.adapters = s.adapters := by
      intro s m f x hr
      have hleft : (s.bodyLeft f result).adapter = s.adapter := by
        unfold bodyLeft
        cases f.retp <;> cases f.regionChanged <;> rfl
      exact ⟨(callLoop_adapter (bodyReturn_ok hr)).trans hleft,
        ((bodyLeft_tables s f result).trans (callLoop_tables (bodyReturn_ok hr))).adapters⟩
    obtain ⟨km, km'⟩ := kept hm
    obtain ⟨kn, kn'⟩ := kept hn
    refine Lock.after ((hsm.symm.trans hl.unseen).trans htn) h1 h2 (fun a ha => ?_) fun a ha => ?_
    · rw [km, kn]
      exact hl.adapter a ha
    · rw [km', kn']
      exact hl.size a ha

theorem lock_bodies (hl : Lock E B reg s t) (h : Run.exec (step E) s (results.map .bodyRet) = .ok s')
    (k : Run.exec (step E) t (results.map .bodyRet) = .ok t') : Lock E B reg s' t' := by
  induction results generalizing s t with
  | nil =>
      cases h
      cases k
      exact hl
  | cons result results ih =>
      simp only [List.map_cons, Run.exec] at h k
      split at h
      · rename_i m hm
        split at k
        · rename_i n hn
          exact ih (lock_body hl hm hn) h k
        · cases k
      · cases h

/-- A whole call goes the same way in both: it returns the same and runs the same bodies. -/
theorem wholeCall_lock (hs : Registry s.rt) (ht : Registry t.rt) (hu : Unseen E s.rt t.rt)
    (hb : Twin B s.rt t.rt) (hown : ∀ b, retp = some b → B b) (hss : s.stack = []) (hts : t.stack = [])
    (h : Run.exec (step E) s (.call retp reg :: results.map .bodyRet) = .ok s')
    (k : Run.exec (step E) t (.call retp reg :: results.map .bodyRet) = .ok t') :
    Lock E B reg s' t' := by
  simp only [Run.exec] at h k
  split at h
  · rename_i m hm
    split at k
    · rename_i n hn
      exact lock_bodies (lock_call hs ht hu hb hown hss hts hm hn) h k
    · cases k
  · cases h

end Locks
end Calls

end Xylem

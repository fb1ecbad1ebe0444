import Xylem.Runs.WholeCalls

/-!
# What other threads leave of a last result

Threads make whole calls in any order. What `xy_last` and `xy_errno` tell one of them
is compared with what they tell it in the run of its own calls alone.
-/
namespace Xylem

open Xylem.Runtime

/-! ### Threads that call and ask -/

/-- A whole call of a thread, for the modules that are loaded. -/
inductive CallerEvent where
  /-- `xy_call`; the bodies it runs return `results`, in their order -/
  | call (t : Nat) (retp : Option BufPtr) (reg : Option AdapterPtr) (results : List Bytes)
  | last (t : Nat) (ret : Option BufPtr)
  | errno (t : Nat)
  deriving DecidableEq, Repr

namespace CallerEvent

def thread : CallerEvent → Nat
  | .call t .. => t
  | .last t _ => t
  | .errno t => t

/-- What the machine does for it. `xy_errno` only reads. -/
def event : CallerEvent → ProcessEvent
  | .call t retp reg results => .call t (.call retp reg :: results.map .bodyRet)
  | .last t ret => .call t [.last ret]
  | .errno t => .call t []

def buffer : CallerEvent → Option BufPtr
  | .call _ retp .. => retp
  | .last _ ret => ret
  | .errno _ => none

def setsAdapter : CallerEvent → Bool
  | .call _ _ reg _ => reg.isSome
  | _ => false

def setsErr : CallerEvent → Bool
  | .errno _ => false
  | _ => true

end CallerEvent

/-- The process, and history: what size `xy.adapter` had when the latest call of each thread
had returned, and the code that the latest `xy_call` or `xy_last` of each had left. -/
structure Callers where
  process : Process
  size : Nat → Option Nat
  errVal : Nat → Int

def Callers.start (p : Process) : Callers :=
  { process := p, size := fun _ => p.rt.lastSize, errVal := fun _ => p.rt.errVal }

def callerStep (E : Env) (c : Callers) (e : CallerEvent) : Res Callers :=
  (processStep E c.process e.event).map fun q =>
    { process := q
      size := if e.setsAdapter then Function.update c.size e.thread q.rt.lastSize else c.size
      errVal := if e.setsErr then Function.update c.errVal e.thread q.rt.errVal else c.errVal }

/-- What a thread is told: the result of `xy_last` and what its buffer holds then, or the code. -/
inductive Answer where
  | last (ret : Int) (written : Option Bytes)
  | errno (err : Int)
  deriving DecidableEq, Repr

def answer (c : Callers) : CallerEvent → Option Answer
  | .call .. => none
  | .last t ret =>
      let r := (c.process.view t).xyLast ret
      some (.last r.2 (ret.map r.1.bufs))
  | .errno _ => some (.errno c.process.rt.errVal)

/-- All that thread `t` is told in a run. -/
def answersTo (t : Nat) (tr : List (Callers × CallerEvent)) : List Answer :=
  tr.filterMap fun x => if x.2.thread = t then answer x.1 x.2 else none

/-- The thread passes a buffer of its own, and the shared variable that the call reads says
what the thread's own calls left in it, as far as the call goes by it. -/
structure Undisturbed (owner : BufPtr → Nat) (c : Callers) (e : CallerEvent) (_ : Callers) : Prop where
  buffer : ∀ b, e.buffer = some b → owner b = e.thread
  called : ∀ t ret, e = .last t ret → c.process.rt.lastSize.isSome = (c.size t).isSome
  size : ∀ t ret, e = .last t ret → ret ≠ none → (c.process.tls t).lastRan ≠ 0 →
    (c.process.tls t).lastRetp ≠ .null → c.process.rt.lastSize = c.size t
  errVal : ∀ t, e = .errno t → c.process.rt.errVal = c.errVal t

/-! ### The run of one thread alone -/

section Alone
variable {E : Env} {owner : BufPtr → Nat} {t : Nat} {c c' d d' : Callers} {e : CallerEvent}

/-- `d` is where thread `t` has come on its own, while all threads have come to `c`. -/
structure Alone (E : Env) (owner : BufPtr → Nat) (t : Nat) (c d : Callers) : Prop where
  okc : ProcessOk E c.process
  okd : ProcessOk E d.process
  unseen : Unseen E c.process.rt d.process.rt
  tls : d.process.tls t = c.process.tls t
  lifetime : d.process.lifetime = c.process.lifetime
  bufs : ∀ b, owner b = t → d.process.rt.bufs b = c.process.rt.bufs b
  size : d.process.rt.lastSize = c.size t
  errVal : d.process.rt.errVal = c.errVal t
  settled : ∀ b, (c.process.tls t).lastRetp ≠ .caller b

theorem Runtime.withTls_tables (s : Runtime) (x : Tls) : TablesKept s (s.withTls x) :=
  ⟨rfl, rfl, rfl, rfl, rfl, rfl, rfl, rfl, rfl, fun _ => rfl⟩

theorem Runtime.xyLast_lastSize (s : Runtime) (ret : Option BufPtr) :
    (s.xyLast ret).1.lastSize = s.lastSize := by
  have ha : (s.xyLast ret).1.adapter = s.adapter := by
    unfold xyLast
    split
    · rfl
    · split
      · rfl
      · simp only
        split <;> rfl
  unfold lastSize
  rw [ha, (xyLast_tables s ret).adapters]

theorem Runtime.xyLast_settled {s : Runtime} (h : Settled s) (ret : Option BufPtr) :
    Settled (s.xyLast ret).1 := by
  unfold xyLast
  split
  · exact h
  · split
    · exact h
    · simp only
      split <;> exact h

theorem Runtime.xyLast_off (s : Runtime) {ret : Option BufPtr} {b : BufPtr} (hb : ret ≠ some b) :
    (s.xyLast ret).1.bufs b = s.bufs b := by
  unfold xyLast
  split
  · rfl
  · split
    · rfl
    · cases ret with
      | none => rfl
      | some c =>
          have hbc : b ≠ c := fun h => hb (congrArg some h.symm)
          cases s.lastRetp <;> first | rfl | exact Function.update_of_ne hbc _ _

theorem callerStep_call (h : callerStep E c e = .ok c') :
    ∃ es s, e.event = .call e.thread es ∧ c.process.up = true ∧
      Run.exec (step E) { rt := c.process.view e.thread } es = .ok s ∧ s.stack = [] ∧
      c'.process = c.process.save e.thread s.rt c.process.lifetime := by
  obtain ⟨q, hq, rfl⟩ := Res.map_ok.mp h
  obtain ⟨es, he⟩ : ∃ es, e.event = .call e.thread es := by
    cases e <;> exact ⟨_, rfl⟩
  rw [he] at hq
  simp only [processStep] at hq
  split at hq
  · cases hq
  · rename_i hup
    split at hq
    · cases hq
    · split at hq
      · cases hq
      · rename_i s hs
        split at hq
        · rename_i hstack
          cases hq
          exact ⟨es, s, he, by simpa using hup, hs, hstack, rfl⟩
        · cases hq

theorem Alone.canonical (h : Alone E owner t c d) :
    CanonicalHeld c.process.rt ∧ CanonicalHeld d.process.rt := h.unseen.adapters.held

theorem Alone.view (h : Alone E owner t c d) :
    Unseen E (c.process.view t) (d.process.view t) ∧
      Twin (fun b => owner b = t) (c.process.view t) (d.process.view t) := by
  refine ⟨h.unseen.tables (withTls_tables _ _) (withTls_tables _ _), ?_, h.bufs⟩
  show (d.process.rt.withTls (d.process.tls t)).tls 0 = (c.process.rt.withTls (c.process.tls t)).tls 0
  rw [h.tls]
  rfl

theorem other_unseen (hok : ProcessOk E c.process) (hc : CanonicalHeld c.process.rt)
    (h : callerStep E c e = .ok c') (hown : ∀ b, e.buffer = some b → owner b = e.thread)
    (ht : e.thread ≠ t) : Unseen E c.process.rt c'.process.rt ∧
      ∀ b, owner b = t → c'.process.rt.bufs b = c.process.rt.bufs b := by
  obtain ⟨es, s, he, hup, hs, hstack, hq⟩ := callerStep_call h
  have hoff : ∀ b, owner b = t → e.buffer ≠ some b := fun b hb hbuf => ht ((hown b hbuf).symm.trans hb)
  have hview := (withTls_tables c.process.rt (c.process.tls e.thread)).alike (E := E) hc
  have key : Unseen E (c.process.view e.thread) s.rt ∧
      ∀ b, e.buffer ≠ some b → s.rt.bufs b = (c.process.view e.thread).bufs b := by
    cases e with
    | call u retp reg results =>
        cases he
        exact wholeCall_unseen (hok.up hup u).registry hview.adapters.held.2 rfl hs
    | last u ret =>
        cases he
        cases Run.exec_single hs
        exact ⟨(xyLast_tables _ ret).alike hview.adapters.held.2, fun b hb => xyLast_off _ hb⟩
    | errno u =>
        cases he
        cases hs
        exact ⟨(TablesKept.refl _).alike hview.adapters.held.2, fun _ _ => rfl⟩
  rw [hq]
  exact ⟨hview.trans key.1, fun b hb => key.2 b (hoff b hb)⟩

/-- `xy_last` in both, when the shared adapter does not matter or has the same size. -/
theorem xyLast_twin {B : BufPtr → Prop} {m n : Runtime} (ht : Twin B m n) (hs : Settled m)
    {ret : Option BufPtr} (hown : ∀ b, ret = some b → B b)
    (hcalled : m.lastSize.isSome = n.lastSize.isSome)
    (hsize : ret ≠ none → m.lastRan ≠ 0 → m.lastRetp ≠ .null → m.lastSize = n.lastSize) :
    Twin B (m.xyLast ret).1 (n.xyLast ret).1 ∧ (n.xyLast ret).2 = (m.xyLast ret).2 ∧
      (n.xyLast ret).1.errVal = (m.xyLast ret).1.errVal := by
  have hran : n.lastRan = m.lastRan := congrArg Tls.lastRan ht.tls
  have hretp : n.lastRetp = m.lastRetp := congrArg Tls.lastRetp ht.tls
  have hbuf : n.lastRetbuf = m.lastRetbuf := congrArg Tls.lastRetbuf ht.tls
  unfold lastSize at hcalled hsize
  unfold xyLast
  cases hm : m.adapter with
  | none =>
      cases hn : n.adapter with
      | none => exact ⟨ht.setErr _ _, rfl, rfl⟩
      | some a' =>
          rw [hm, hn] at hcalled
          cases hcalled
  | some a =>
      cases hn : n.adapter with
      | none =>
          rw [hm, hn] at hcalled
          cases hcalled
      | some a' =>
          by_cases h0 : m.lastRan = 0
          · simp only [hran, h0, if_true]
            exact ⟨ht.setErr _ _, trivial, rfl⟩
          · simp only [hran, h0, if_false, hretp]
            refine ⟨?_, trivial, rfl⟩
            cases ret with
            | none => exact ht.setErr _ _
            | some b =>
                cases hr : m.lastRetp with
                | null => exact ht.setErr _ _
                | caller c => exact absurd hr (hs c)
                | retbuf =>
                    have heq := hsize (Option.some_ne_none b) h0 (by rw [hr]; exact LastRet.noConfusion)
                    rw [hm, hn] at heq
                    simp only [hbuf, ← Option.some.inj heq]
                    exact (ht.writeBuf (hown b rfl) _).setErr _ _

theorem callerStep_ghost (h : callerStep E c e = .ok c') :
    c'.size = (if e.setsAdapter then Function.update c.size e.thread c'.process.rt.lastSize
      else c.size) ∧
    c'.errVal = (if e.setsErr then Function.update c.errVal e.thread c'.process.rt.errVal
      else c.errVal) := by
  obtain ⟨q, hq, rfl⟩ := Res.map_ok.mp h
  exact ⟨rfl, rfl⟩

theorem callerStep_ok (hok : ProcessOk E c.process) (h : callerStep E c e = .ok c') :
    ProcessOk E c'.process := by
  obtain ⟨q, hq, rfl⟩ := Res.map_ok.mp h
  refine processOk_step hok hq fun u hu => ?_
  cases e <;> cases hu

theorem Alone.other (h : Alone E owner t c d) (hs : callerStep E c e = .ok c')
    (hc : Undisturbed owner c e c') (ht : e.thread ≠ t) : Alone E owner t c' d := by
  obtain ⟨es, s, he, hup, hexec, hstack, hq⟩ := callerStep_call hs
  obtain ⟨hu, hb⟩ := other_unseen h.okc h.canonical.1 hs hc.buffer ht
  obtain ⟨hsize, herr⟩ := callerStep_ghost hs
  have htls : c'.process.tls t = c.process.tls t := by
    rw [hq]
    exact Process.save_ne c.process (Ne.symm ht) ..
  have hlife : c'.process.lifetime = c.process.lifetime := by
    rw [hq]
    rfl
  refine ⟨callerStep_ok h.okc hs, h.okd, hu.symm.trans h.unseen, ?_, ?_, fun b hown => ?_, ?_, ?_, ?_⟩
  · rw [htls]
    exact h.tls
  · rw [hlife]
    exact h.lifetime
  · rw [hb b hown]
    exact h.bufs b hown
  · have ht' : c'.size t = c.size t := by
      rw [hsize]
      split
      · exact Function.update_of_ne (Ne.symm ht) _ _
      · rfl
    rw [ht']
    exact h.size
  · have ht' : c'.errVal t = c.errVal t := by
      rw [herr]
      split
      · exact Function.update_of_ne (Ne.symm ht) _ _
      · rfl
    rw [ht']
    exact h.errVal
  · rw [htls]
    exact h.settled

/-- What a whole call of the thread leaves in the two processes. -/
structure Finished (E : Env) (B : BufPtr → Prop) (e : CallerEvent) (m n m' n' : Runtime) : Prop where
  unseen : Unseen E m' n'
  twin : Twin B m' n'
  size : if e.setsAdapter then n'.lastSize = m'.lastSize else n'.lastSize = n.lastSize
  errVal : if e.setsErr then n'.errVal = m'.errVal else n'.errVal = n.errVal
  settled : Settled m'

theorem bodies_idle {s s' : State} {results : List Bytes} (hs : s.stack = [])
    (h : Run.exec (step E) s (results.map .bodyRet) = .ok s') : s' = s := by
  cases results with
  | nil =>
      cases h
      rfl
  | cons result results =>
      simp only [List.map_cons, Run.exec] at h
      split at h
      · rename_i m hm
        obtain ⟨f, rest, r, hst, -⟩ := bodyRet_step hm
        rw [hs] at hst
        cases hst
      · cases h

theorem Alone.finished (h : Alone E owner t c d) (hc : Undisturbed owner c e c') (ht : e.thread = t)
    {es : List Event} {s s' : State} (he : e.event = .call e.thread es) (hup : c.process.up = true)
    (hup' : d.process.up = true)
    (hs : Run.exec (step E) { rt := c.process.view t } es = .ok s) (hstack : s.stack = [])
    (hs' : Run.exec (step E) { rt := d.process.view t } es = .ok s') :
    Finished E (fun b => owner b = t) e (c.process.view t) (d.process.view t) s.rt s'.rt ∧
      answer d e = answer c e := by
  obtain ⟨hu, hb⟩ := h.view
  have hm := (h.okc.up hup t).registry
  have hn := (h.okd.up hup' t).registry
  have hset : Settled (c.process.view t) := h.settled
  have hown : ∀ b, e.buffer = some b → owner b = t := fun b hbuf => (hc.buffer b hbuf).trans ht
  cases e with
  | call u retp reg results =>
      cases he
      have hset' := wholeCall_settled (s := { rt := c.process.view t }) hset hs hstack
      have hl := wholeCall_lock (s := { rt := c.process.view t }) (t := { rt := d.process.view t })
        hm hn hu hb hown rfl rfl hs hs'
      refine ⟨⟨hl.unseen, hl.twin, ?_, ?_, hset'⟩, rfl⟩
      · cases reg with
        | some a =>
            obtain ⟨ha, ha'⟩ := hl.adapter a rfl
            show s'.rt.lastSize = s.rt.lastSize
            simp only [lastSize, ha, ha', Option.map_some, hl.size a rfl]
        | none =>
            have hcall : step E { rt := d.process.view t } (.call retp none) =
                .ok { rt := (d.process.view t).setErr xyErrNotFound,
                      status := .returned xyErrNotFound [] } := rfl
            simp only [Run.exec, hcall] at hs'
            rw [bodies_idle rfl hs']
            rfl
      · show s'.rt.errVal = s.rt.errVal
        rcases hl.turn with ⟨-, -, herr⟩ | ⟨f, block, hst, -⟩
        · exact herr
        · rw [hstack] at hst
          cases hst
  | last u ret =>
      cases he
      obtain rfl : u = t := ht
      cases Run.exec_single hs
      cases Run.exec_single hs'
      have hsize : (d.process.view u).lastSize = c.size u := h.size
      change ∀ b, ret = some b → owner b = u at hown
      obtain ⟨h1, h2, h3⟩ := xyLast_twin hb hset hown
        (by rw [hsize]; exact hc.called u ret rfl) fun k1 k2 k3 => by
          rw [hsize]
          exact hc.size u ret rfl k1 k2 k3
      refine ⟨⟨?_, h1, ?_, h3, ?_⟩, ?_⟩
      · exact hu.tables (xyLast_tables _ ret) (xyLast_tables _ ret)
      · show (d.process.view u).xyLast ret |>.1.lastSize = _
        exact xyLast_lastSize _ ret
      · exact xyLast_settled hset ret
      · show some (Answer.last _ _) = some (Answer.last _ _)
        rw [h2]
        cases ret with
        | none => rfl
        | some b =>
            simp only [Option.map_some]
            rw [h1.bufs b (hown b rfl)]
  | errno u =>
      cases he
      cases hs
      cases hs'
      refine ⟨⟨hu, hb, rfl, rfl, hset⟩, ?_⟩
      show some (Answer.errno d.process.rt.errVal) = some (Answer.errno c.process.rt.errVal)
      obtain rfl : u = t := ht
      rw [hc.errVal u rfl, h.errVal]

theorem Alone.own (h : Alone E owner t c d) (hs : callerStep E c e = .ok c')
    (hs' : callerStep E d e = .ok d') (hc : Undisturbed owner c e c') (ht : e.thread = t) :
    Alone E owner t c' d' ∧ answer d e = answer c e := by
  obtain ⟨es, s, he, hup, hexec, hstack, hq⟩ := callerStep_call hs
  obtain ⟨es', s', he', hup', hexec', hstack', hq'⟩ := callerStep_call hs'
  rw [he] at he'
  cases he'
  rw [ht] at hexec hexec' hq hq'
  obtain ⟨hf, hans⟩ := h.finished hc ht (ht ▸ he) hup hup' hexec hstack hexec'
  obtain ⟨hsize, herr⟩ := callerStep_ghost hs
  rw [ht] at hsize herr
  have hrt : c'.process.rt = s.rt := by rw [hq]; rfl
  have hrt' : d'.process.rt = s'.rt := by rw [hq']; rfl
  refine ⟨⟨callerStep_ok h.okc hs, callerStep_ok h.okd hs', ?_, ?_, ?_, ?_, ?_, ?_, ?_⟩, hans⟩
  · rw [hrt, hrt']
    exact hf.unseen
  · rw [hq, hq', Process.save_self, Process.save_self, h.lifetime]
    have htls : s'.rt.tls 0 = s.rt.tls 0 := hf.twin.tls
    exact congrArg (fun x : Tls => { x with entryLife := c.process.lifetime }) htls
  · rw [hq, hq']
    exact h.lifetime
  · rw [hrt, hrt']
    exact hf.twin.bufs
  · have hfs := hf.size
    rw [hrt', hsize]
    split at hfs
    · rename_i hset
      rw [if_pos hset, Function.update_self, hrt]
      exact hfs
    · rename_i hset
      rw [if_neg hset, hfs]
      exact h.size
  · have hfe := hf.errVal
    rw [hrt', herr]
    split at hfe
    · rename_i hset
      rw [if_pos hset, Function.update_self, hrt]
      exact hfe
    · rename_i hset
      rw [if_neg hset, hfe]
      exact h.errVal
  · rw [hq, Process.save_self]
    exact hf.settled

theorem answersTo_snoc (t : Nat) (tr : List (Callers × CallerEvent)) (c : Callers) (e : CallerEvent) :
    answersTo t (tr ++ [(c, e)]) =
      answersTo t tr ++ (if e.thread = t then answer c e else none).toList := by
  unfold answersTo
  rw [List.filterMap_append]
  congr 1

/-- The events of `t` alone, taken one by one beside those of all threads. -/
theorem Alone.run {c₀ d₀ : Callers} {tr tr' : List (Callers × CallerEvent)}
    (hrun : Run.Steps (callerStep E) c₀ tr c)
    (hC : Run.Every (callerStep E) (Undisturbed owner) tr)
    (hrun' : Run.Steps (callerStep E) d₀ tr' d)
    (hev : tr'.map (·.2) = (tr.map (·.2)).filter fun e => e.thread = t)
    (h₀ : Alone E owner t c₀ d₀) : Alone E owner t c d ∧ answersTo t tr' = answersTo t tr := by
  induction hrun generalizing tr' d with
  | nil =>
      obtain rfl : tr' = [] := List.map_eq_nil_iff.mp hev
      obtain rfl := Run.steps_nil hrun'
      exact ⟨h₀, rfl⟩
  | @snoc m c tr e hsteps hs ih =>
      rw [List.map_append, List.filter_append] at hev
      by_cases ht : e.thread = t
      · have hlast : ([(m, e)].map (·.2)).filter (fun e => e.thread = t) = [e] := by simp [ht]
        rw [hlast] at hev
        obtain ⟨tr₁, l, rfl, h1, h2⟩ := List.map_eq_append_iff.mp hev
        obtain ⟨⟨m', e'⟩, rfl, rfl⟩ := List.map_eq_singleton_iff.mp h2
        obtain ⟨hsteps', hs'⟩ := Run.steps_snoc.mp hrun'
        obtain ⟨ha, hans⟩ := ih hC.left hsteps' h1
        obtain ⟨hown, hsame⟩ := ha.own hs hs' (hC.last hs) ht
        refine ⟨hown, ?_⟩
        rw [answersTo_snoc, answersTo_snoc, hans, hsame]
      · have hlast : ([(m, e)].map (·.2)).filter (fun e => e.thread = t) = [] := by simp [ht]
        rw [hlast, List.append_nil] at hev
        obtain ⟨ha, hans⟩ := ih hC.left hrun' hev
        refine ⟨ha.other hs (hC.last hs) ht, ?_⟩
        rw [answersTo_snoc, if_neg ht, hans]
        simp

/-- The process between two calls, with the adapters as `xy_areg` leaves them. -/
structure Quiet (E : Env) (p : Process) : Prop where
  ok : ProcessOk E p
  canonical : CanonicalHeld p.rt
  settled : ∀ t b, (p.tls t).lastRetp ≠ .caller b

theorem CanonicalHeld.of_hooks {m n : Runtime} (hh : n.hooks = m.hooks) (hm : CanonicalHeld m) :
    CanonicalHeld n := by
  intro i c hi
  have h1 : n.adapterById = m.adapterById := congrArg Hooks.adapterById hh
  have h2 : n.adapters = m.adapters := congrArg Hooks.adapters hh
  rw [h2]
  exact hm i c (h1 ▸ hi)

theorem CanonicalHeld.step {s s' : State} {e : Event} (hi : Inv E s) (hc : CanonicalHeld s.rt)
    (h : Xylem.step E s e = .ok s') : CanonicalHeld s'.rt := by
  cases step_hooks hi h with
  | areg a ha =>
      rcases xyAreg_cases E s.rt a with ⟨err, he⟩ | ⟨-, he⟩
      · rw [ha, he]
        exact hc
      · refine CanonicalHeld.of_hooks (m := s.rt.register a) (by rw [ha, he, register_hooks]) ?_
        intro i c hic
        show (Function.update s.rt.adapters a _ c).hookId ≠ none
        by_cases hca : c = a
        · subst hca
          rw [Function.update_self]
          exact Option.some_ne_none _
        · rw [Function.update_of_ne hca]
          change Function.update s.rt.adapterById s.rt.hookIdCounter (some a) i = some c at hic
          by_cases hid : i = s.rt.hookIdCounter
          · subst hid
            rw [Function.update_self] at hic
            exact absurd (Option.some.inj hic).symm hca
          · rw [Function.update_of_ne hid] at hic
            exact hc i c hic
  | call retp reg hr =>
      refine CanonicalHeld.of_hooks hr ?_
      rw [callResolve_eq hc]
      exact (resolve_sameAdapters hc reg).held.2
  | same he hsame => exact CanonicalHeld.of_hooks hsame hc

theorem step_bodies {s s' : State} {e : Event} {f : CallFrame} (h : step E s e = .ok s')
    (he : ∀ result, e ≠ .bodyRet result) (hf : .body f ∈ s.stack) : .body f ∈ s'.stack := by
  cases e with
  | areg | selfInitCtx | deny | requireClaim | last =>
      cases h
      exact hf
  | load | reload =>
      obtain ⟨⟨m, out⟩, -, rfl⟩ := Res.map_ok.mp h
      cases out with
      | done ret => exact hf
      | wait g => exact List.mem_cons_of_mem _ hf
  | unload fname fuel =>
      obtain ⟨r, -, rfl⟩ := Res.map_ok.mp h
      exact hf
  | call retp reg =>
      obtain ⟨⟨p, x⟩, -, rfl⟩ := Res.map_ok.mp h
      cases x with
      | inl ret => exact hf
      | inr g => exact List.mem_cons_of_mem _ hf
  | withRegion id =>
      cases h
      unfold xyWithRegion
      split
      · exact hf
      · exact List.mem_cons_of_mem _ hf
  | bodyRet result => exact absurd rfl (he result)
  | installRet =>
      simp only [step] at h
      split at h
      · rename_i g rest hst
        obtain ⟨m, -, rfl⟩ := Res.map_ok.mp h
        rw [hst] at hf
        exact (List.mem_cons.mp hf).resolve_left Frame.noConfusion
      · cases h
  | scopeRet code =>
      simp only [step] at h
      split at h
      · rename_i id entry rest hst
        cases h
        rw [hst] at hf
        exact (List.mem_cons.mp hf).resolve_left Frame.noConfusion
      · cases h

theorem settled_step {s s' : State} {e : Event} (h : step E s e = .ok s')
    (hs : (∀ f, .body f ∉ s.stack) → Settled s.rt) :
    (∀ f, .body f ∉ s'.stack) → Settled s'.rt := by
  intro hno
  have same : s'.rt.result = s.rt.result → (∀ f, .body f ∉ s.stack) → Settled s'.rt := by
    intro hres hno' b
    have hl : s'.rt.lastRetp = s.rt.lastRetp := congrArg Result.lastRetp hres
    rw [hl]
    exact hs hno' b
  cases e with
  | call retp reg =>
      obtain ⟨⟨p, x⟩, hp, rfl⟩ := Res.map_ok.mp h
      cases x with
      | inl ret => exact xyCall_settled (hs hno) hp
      | inr g => exact absurd (List.mem_cons_self ..) (hno g)
  | last ret =>
      cases h
      exact xyLast_settled (hs hno) ret
  | bodyRet result =>
      obtain ⟨f, rest, ⟨p, x⟩, hst, hp, rfl⟩ := bodyRet_step h
      cases x with
      | inl ret => exact callLoop_settled (bodyReturn_ok hp)
      | inr g => exact absurd (List.mem_cons_self ..) (hno g)
  | areg | selfInitCtx | load | unload | reload | deny | requireClaim | withRegion | installRet
  | scopeRet =>
      exact same (step_result h (fun _ _ => Event.noConfusion) (fun _ => Event.noConfusion)
        fun _ => Event.noConfusion) fun f hf => hno f (step_bodies h (fun _ => Event.noConfusion) hf)

theorem Quiet.call {p q : Process} {es : List Event} (h : Quiet E p)
    (hs : processStep E p (.call t es) = .ok q) : Quiet E q := by
  have hok : ProcessOk E q := processOk_step h.ok hs fun u hu => by cases hu
  simp only [processStep] at hs
  split at hs
  · cases hs
  · rename_i hup
    split at hs
    · cases hs
    · split at hs
      · cases hs
      · rename_i s hexec
        split at hs
        · rename_i hstack
          cases hs
          have hi : Inv E { rt := p.view t } := h.ok.up (by simpa using hup) t
          have hc : CanonicalHeld (p.view t) := h.canonical
          have hset : Settled (p.view t) := h.settled t
          obtain ⟨-, hcs, hss⟩ := (Run.exec_steps hexec).invariant (C := fun _ _ _ => True)
            (P := fun u => Inv E u ∧ CanonicalHeld u.rt ∧ ((∀ f, .body f ∉ u.stack) → Settled u.rt))
            (fun m e u hu _ hm => ⟨hm.1.step hu, CanonicalHeld.step hm.1 hm.2.1 hu,
              settled_step hu hm.2.2⟩)
            (fun _ _ _ _ => trivial) ⟨hi, hc, fun _ => hset⟩
          refine ⟨hok, hcs, fun u => ?_⟩
          by_cases hu : u = t
          · subst hu
            rw [Process.save_self]
            exact hss (by rw [hstack]; exact fun f hf => by cases hf)
          · rw [Process.save_ne p hu]
            exact h.settled u
        · cases hs

/-- A process that has just started: what `xy_areg` remembers is empty. -/
theorem ProcessLaunch.quiet {p q : Process} (h : ProcessLaunch p)
    (hnone : p.rt.adapterById = fun _ => none) (hs : processStep E p (.init t) = .ok q) :
    Quiet E q := by
  have hok : ProcessOk E q := processOk_step h.ok hs fun u hu => by cases hu
  have hboot := ((h.ok (E := E)).down h.up t).bootstrap
  simp only [processStep, h.up, Bool.false_eq_true, if_false, hboot] at hs
  cases hs
  refine ⟨hok, fun i c hi => ?_, fun u b => ?_⟩
  · change p.rt.adapterById i = some c at hi
    rw [hnone] at hi
    cases hi
  · by_cases hu : u = t
    · subst hu
      show ((p.save u _ _).tls u).lastRetp ≠ _
      rw [Process.save_self]
      show (p.tls u).lastRetp ≠ _
      rw [h.tls]
      exact LastRet.noConfusion
    · show ((p.save t _ _).tls u).lastRetp ≠ _
      rw [Process.save_ne p hu, h.tls]
      exact LastRet.noConfusion

theorem Quiet.alone {p : Process} (h : Quiet E p) (t : Nat) : Alone E owner t (.start p) (.start p) :=
  ⟨h.ok, h.ok, (TablesKept.refl _).alike h.canonical, rfl, rfl, fun _ _ => rfl, rfl, rfl, h.settled t⟩

/-- In a run in which no thread reads another thread's adapter size or code, every thread is
told what it is told in the run of its own calls alone. -/
theorem answers_own {p : Process} (hp : Quiet E p) {tr tr' : List (Callers × CallerEvent)}
    (hrun : Run.Steps (callerStep E) (.start p) tr c)
    (hC : Run.Every (callerStep E) (Undisturbed owner) tr)
    (hrun' : Run.Steps (callerStep E) (.start p) tr' d)
    (hev : tr'.map (·.2) = (tr.map (·.2)).filter fun e => e.thread = t) :
    answersTo t tr' = answersTo t tr :=
  (Alone.run hrun hC hrun' hev (hp.alone t)).2

/-- The condition, with the sizes equal whether or not they are used. -/
def undisturbed (owner : BufPtr → Nat) (c : Callers) (e : CallerEvent) : Bool :=
  (e.buffer.all fun b => decide (owner b = e.thread)) &&
    match e with
    | .call .. => true
    | .last t _ => decide (c.process.rt.lastSize = c.size t)
    | .errno t => decide (c.process.rt.errVal = c.errVal t)

theorem undisturbed_enough (owner : BufPtr → Nat) (c : Callers) (e : CallerEvent) (c' : Callers)
    (h : undisturbed owner c e = true) : Undisturbed owner c e c' := by
  obtain ⟨hb, hv⟩ := Bool.and_eq_true_iff.mp h
  refine ⟨fun b hbuf => ?_, ?_, ?_, ?_⟩
  · rw [hbuf] at hb
    exact of_decide_eq_true hb
  · rintro t ret rfl
    rw [of_decide_eq_true hv]
  · rintro t ret rfl - - -
    exact of_decide_eq_true hv
  · rintro t rfl
    exact of_decide_eq_true hv

end Alone

/-- A process with the hooks `h` and `g`, of one result byte and of eight. -/
def callersProcess : Process :=
  { rt := { sampleLife.st.rt with adapters := sizesState.rt.adapters } }

theorem callersProcess_launch : ProcessLaunch callersProcess :=
  ⟨rfl, rfl, ⟨rfl, rfl, rfl, rfl, rfl, rfl, rfl, rfl, rfl,
    fun a => by
      show (if a = 0 then _ else _ : Adapter).hookId = none
      split <;> rfl, rfl, rfl, rfl⟩⟩

/-- Both hooks are registered and a module that implements `h` is loaded. -/
def callersSetup : List ProcessEvent :=
  [.init 0, .call 0 [.areg 0, .areg 1, .load "p" { addr := 1 }, .installRet]]

theorem callersSetup_quiet {p : Process}
    (hp : Run.exec (processStep sampleEnv) callersProcess callersSetup = .ok p) :
    Quiet sampleEnv p := by
  simp only [callersSetup, Run.exec] at hp
  split at hp
  · rename_i m hm
    split at hp
    · rename_i q hq
      cases hp
      exact (callersProcess_launch.quiet rfl hm).call hq
    · cases hp
  · cases hp

/-- Thread 1 calls the same hook between the call of thread 0 and its questions. -/
theorem answers_own_same_hook : ∃ p c d,
    Run.exec (processStep sampleEnv) callersProcess callersSetup = .ok p ∧
    Run.exec (callerStep sampleEnv) (.start p) [.call 0 (some 0) (some 0) [[7]],
      .call 1 (some 1) (some 0) [[9]], .last 0 (some 2), .errno 0] = .ok c ∧
    Run.exec (callerStep sampleEnv) (.start p) [.call 0 (some 0) (some 0) [[7]],
      .last 0 (some 2), .errno 0] = .ok d ∧
    answersTo 0 (Run.trace (callerStep sampleEnv) (.start p) [.call 0 (some 0) (some 0) [[7]],
      .last 0 (some 2), .errno 0]) =
    answersTo 0 (Run.trace (callerStep sampleEnv) (.start p) [.call 0 (some 0) (some 0) [[7]],
      .call 1 (some 1) (some 0) [[9]], .last 0 (some 2), .errno 0]) := by
  obtain ⟨p, hp, hobs⟩ := Run.exec_of_check (processStep sampleEnv) callersProcess callersSetup
    (fun p => Run.check (callerStep sampleEnv) (.start p) [.call 0 (some 0) (some 0) [[7]],
        .call 1 (some 1) (some 0) [[9]], .last 0 (some 2), .errno 0] (fun _ => true) &&
      Run.check (callerStep sampleEnv) (.start p) [.call 0 (some 0) (some 0) [[7]],
        .last 0 (some 2), .errno 0] (fun _ => true) &&
      (Run.trace (callerStep sampleEnv) (.start p) [.call 0 (some 0) (some 0) [[7]],
        .call 1 (some 1) (some 0) [[9]], .last 0 (some 2), .errno 0]).all fun x =>
          undisturbed (fun b => if b = 1 then 1 else 0) x.1 x.2) (by decide +kernel)
  simp only [Bool.and_eq_true] at hobs
  obtain ⟨⟨hc, hd⟩, hall⟩ := hobs
  obtain ⟨c, hc, -⟩ := Run.of_check hc
  obtain ⟨d, hd, -⟩ := Run.of_check hd
  refine ⟨p, c, d, hp, hc, hd, answers_own (callersSetup_quiet hp) (Run.exec_steps hc)
    (Run.every_of_all (undisturbed_enough fun b => if b = 1 then 1 else 0) hall)
    (Run.exec_steps hd) ?_⟩
  rw [Run.trace_events hc, Run.trace_events hd]
  decide

/-- Thread 1 calls `g`, which nothing implements, and thread 0 asks for the byte of `h`: it gets
eight, and the code of the other call. -/
theorem last_result_disturbed : ∃ p c d,
    Run.exec (processStep sampleEnv) callersProcess callersSetup = .ok p ∧ Quiet sampleEnv p ∧
    Run.exec (callerStep sampleEnv) (.start p) [.call 0 (some 0) (some 0) [[7]],
      .call 1 none (some 1) [], .errno 0, .last 0 (some 2)] = .ok c ∧
    Run.exec (callerStep sampleEnv) (.start p) [.call 0 (some 0) (some 0) [[7]],
      .errno 0, .last 0 (some 2)] = .ok d ∧
    answersTo 0 (Run.trace (callerStep sampleEnv) (.start p) [.call 0 (some 0) (some 0) [[7]],
      .errno 0, .last 0 (some 2)]) = [.errno xyOk, .last xyOk (some [7])] ∧
    answersTo 0 (Run.trace (callerStep sampleEnv) (.start p) [.call 0 (some 0) (some 0) [[7]],
      .call 1 none (some 1) [], .errno 0, .last 0 (some 2)]) =
      [.errno xyErrNotFound, .last xyOk (some [7, 0, 0, 0, 0, 0, 0, 0])] := by
  obtain ⟨p, hp, hobs⟩ := Run.exec_of_check (processStep sampleEnv) callersProcess callersSetup
    (fun p => Run.check (callerStep sampleEnv) (.start p) [.call 0 (some 0) (some 0) [[7]],
        .call 1 none (some 1) [], .errno 0, .last 0 (some 2)] (fun _ => true) &&
      Run.check (callerStep sampleEnv) (.start p) [.call 0 (some 0) (some 0) [[7]],
        .errno 0, .last 0 (some 2)] (fun _ => true) &&
      decide (answersTo 0 (Run.trace (callerStep sampleEnv) (.start p)
        [.call 0 (some 0) (some 0) [[7]], .errno 0, .last 0 (some 2)]) =
          [.errno xyOk, .last xyOk (some [7])]) &&
      decide (answersTo 0 (Run.trace (callerStep sampleEnv) (.start p)
        [.call 0 (some 0) (some 0) [[7]], .call 1 none (some 1) [], .errno 0, .last 0 (some 2)]) =
          [.errno xyErrNotFound, .last xyOk (some [7, 0, 0, 0, 0, 0, 0, 0])])) (by decide +kernel)
  simp only [Bool.and_eq_true, decide_eq_true_eq] at hobs
  obtain ⟨⟨⟨hc, hd⟩, halone⟩, hall⟩ := hobs
  obtain ⟨c, hc, -⟩ := Run.of_check hc
  obtain ⟨d, hd, -⟩ := Run.of_check hd
  exact ⟨p, c, d, hp, callersSetup_quiet hp, hc, hd, halone, hall⟩

end Xylem

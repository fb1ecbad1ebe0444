import Xylem.Model.Watch
import Xylem.Lib.Run

/-!
# The watcher and its lock

Threads as lists of actions on `g_mu`, which is not recursive. The watcher holds
it while `xy_reload` runs whatever the reloaded module does, calls of the watch
interface among them.
-/
namespace Xylem.Watch

inductive Tid where
  | caller (n : Nat)
  | watcher (w : WatcherId)
  deriving DecidableEq, Repr

/-- What a thread does next: take or give back `g_mu`, a piece of code under it,
`pthread_join`, or the reload of a module. -/
inductive Act where
  | lock
  | unlock
  | start (ch : StartChoice)
  | stop
  | join
  | stopped
  | add (fname : String) (noMem : Bool)
  | remove (fname : String)
  | find (wd : Wd) (movedTo noMem : Bool)
  | reload
  deriving DecidableEq, Repr

inductive ApiCall where
  | start (ch : StartChoice)
  | stop
  | add (fname : Option String) (noMem : Bool)
  | remove (fname : Option String)
  deriving DecidableEq, Repr

/-- The actions of a call; a null path returns before the lock. What follows the
first section of `xy_watch_stop` is decided there. -/
def ApiCall.acts : ApiCall → List Act
  | .start ch => [.lock, .start ch, .unlock]
  | .stop => [.lock, .stop]
  | .add (some fname) noMem => [.lock, .add fname noMem, .unlock]
  | .remove (some fname) => [.lock, .remove fname, .unlock]
  | .add none _ => []
  | .remove none => []

/-- The statics, the lock, and what each thread has still to do. -/
structure Locked where
  statics : Statics := {}
  owner : Option Tid := none
  todo : Tid → List Act := fun _ => []
  exited : WatcherId → Bool := fun _ => false

inductive LockEvent where
  /-- a thread of the host makes a call -/
  | call (n : Nat) (c : ApiCall)
  /-- the watcher has read an event -/
  | event (w : WatcherId) (wd : Wd) (movedTo noMem : Bool)
  /-- `xy_reload` runs code that makes these calls -/
  | reload (w : WatcherId) (calls : List ApiCall)
  /-- the watcher leaves its loop -/
  | exit (w : WatcherId)
  /-- a thread does its next action -/
  | run (t : Tid)
  deriving DecidableEq, Repr

namespace Locked

def setTodo (s : Locked) (t : Tid) (l : List Act) : Locked :=
  { s with todo := Function.update s.todo t l }

/-- A watcher that exists and is in its loop, between two events. -/
def idle (s : Locked) (w : WatcherId) : Bool :=
  decide (w < s.statics.watcherNext) && !s.exited w && decide (s.todo (.watcher w) = [])

/-- The next action of `t`, with `rest` after it. An action that has to wait cannot be done. -/
def act (s : Locked) (t : Tid) (a : Act) (rest : List Act) : Res Locked :=
  match a with
  | .lock =>
      if s.owner = none then .ok { s.setTodo t rest with owner := some t } else .error .refused
  | .unlock =>
      if s.owner = some t then .ok { s.setTodo t rest with owner := none } else .error .refused
  | .start ch => .ok { s.setTodo t rest with statics := (s.statics.watchStart ch).1 }
  | .stop =>
      let (u, joins) := s.statics.watchStop
      let next := if joins then [.unlock, .join, .lock, .stopped, .unlock] else [.unlock]
      .ok { s.setTodo t (next ++ rest) with statics := u }
  | .join =>
      match s.statics.thread with
      | some w => if s.exited w then .ok (s.setTodo t rest) else .error .refused
      | none => .error .refused
  | .stopped => .ok { s.setTodo t rest with statics := s.statics.watchStopped }
  | .add fname noMem => .ok { s.setTodo t rest with statics := (s.statics.watchAdd (some fname) noMem).1 }
  | .remove fname => .ok { s.setTodo t rest with statics := s.statics.watchRemove (some fname) }
  | .find wd movedTo noMem =>
      let (u, found) := s.statics.watcherEvent wd movedTo
      let next := if found.isSome && !noMem then [.unlock, .lock, .reload, .unlock] else [.unlock]
      .ok { s.setTodo t (next ++ rest) with statics := u }
  | .reload => .error .refused

end Locked

def lockStep (s : Locked) : LockEvent → Res Locked
  | .call n c =>
      if s.todo (.caller n) = [] then .ok (s.setTodo (.caller n) c.acts) else .error .refused
  | .event w wd movedTo noMem =>
      if s.idle w then .ok (s.setTodo (.watcher w) [.lock, .find wd movedTo noMem])
      else .error .refused
  | .reload w calls =>
      match s.todo (.watcher w) with
      | .reload :: rest => .ok (s.setTodo (.watcher w) (calls.flatMap ApiCall.acts ++ rest))
      | _ => .error .refused
  | .exit w =>
      if s.idle w then .ok { s with exited := Function.update s.exited w true } else .error .refused
  | .run t =>
      match s.todo t with
      | a :: rest => s.act t a rest
      | [] => .error .refused

/-- Thread `t` asks for the lock it holds, or waits for itself to exit. -/
def WaitsForItself (s : Locked) (t : Tid) : Prop :=
  ((s.todo t).head? = some .lock ∧ s.owner = some t) ∨
    (s.todo t).head? = some .join ∧ ∃ w, t = .watcher w ∧ s.statics.thread = some w

/-- The code that a reload runs makes no call that takes the lock. -/
def ReloadsQuietly (_ : Locked) (e : LockEvent) (_ : Locked) : Prop :=
  ∀ w calls, e = .reload w calls → ∀ c ∈ calls, c.acts = []

/-- What a thread may still have to do, when it holds the lock and when it does not. -/
inductive Bracketed : Tid → Bool → List Act → Prop
  | done (t : Tid) : Bracketed t false []
  | lock {t : Tid} {l : List Act} (h : Bracketed t true l) : Bracketed t false (.lock :: l)
  | unlock {t : Tid} {l : List Act} (h : Bracketed t false l) : Bracketed t true (.unlock :: l)
  | start {t : Tid} {l : List Act} (ch : StartChoice) (h : Bracketed t true l) :
      Bracketed t true (.start ch :: l)
  | stop (n : Nat) : Bracketed (.caller n) true [.stop]
  | join {n : Nat} {l : List Act} (h : Bracketed (.caller n) false l) :
      Bracketed (.caller n) false (.join :: l)
  | stopped {t : Tid} {l : List Act} (h : Bracketed t true l) : Bracketed t true (.stopped :: l)
  | add {t : Tid} {l : List Act} (fname : String) (noMem : Bool) (h : Bracketed t true l) :
      Bracketed t true (.add fname noMem :: l)
  | remove {t : Tid} {l : List Act} (fname : String) (h : Bracketed t true l) :
      Bracketed t true (.remove fname :: l)
  | find (w : WatcherId) (wd : Wd) (movedTo noMem : Bool) :
      Bracketed (.watcher w) true [.find wd movedTo noMem]
  | reload {w : WatcherId} {l : List Act} (h : Bracketed (.watcher w) true l) :
      Bracketed (.watcher w) true (.reload :: l)

/-- Every thread is where its hold of the lock allows. -/
def Orderly (s : Locked) : Prop := ∀ t, Bracketed t (decide (s.owner = some t)) (s.todo t)

section
variable {s t : Locked} {e : LockEvent}

theorem ApiCall.bracketed (n : Nat) (c : ApiCall) : Bracketed (.caller n) false c.acts := by
  cases c with
  | start ch => exact .lock (.start ch (.unlock (.done _)))
  | stop => exact .lock (.stop n)
  | add fname noMem =>
      cases fname with
      | none => exact .done _
      | some f => exact .lock (.add f noMem (.unlock (.done _)))
  | remove fname =>
      cases fname with
      | none => exact .done _
      | some f => exact .lock (.remove f (.unlock (.done _)))

theorem ApiCall.acts_head (c : ApiCall) : c.acts = [] ∨ c.acts.head? = some .lock := by
  cases c with
  | start ch => exact .inr rfl
  | stop => exact .inr rfl
  | add fname noMem => cases fname <;> simp [ApiCall.acts]
  | remove fname => cases fname <;> simp [ApiCall.acts]

theorem ApiCall.flatMap_head {c : ApiCall} {calls : List ApiCall} (hc : c ∈ calls)
    (hacts : c.acts ≠ []) (rest : List Act) :
    (calls.flatMap ApiCall.acts ++ rest).head? = some .lock := by
  induction calls with
  | nil => cases hc
  | cons d ds ih =>
      rw [List.flatMap_cons, List.append_assoc]
      rcases d.acts_head with hd | hd
      · rw [hd, List.nil_append]
        refine ih ?_
        rcases List.mem_cons.mp hc with rfl | hc
        · exact absurd hd hacts
        · exact hc
      · rw [List.head?_append, hd]
        rfl

/-- A thread in order holds the lock when it may give it back, and asks for it otherwise. -/
theorem Orderly.not_waits (h : Orderly s) (t : Tid) : ¬ WaitsForItself s t := by
  have ht := h t
  rintro (⟨hhead, hown⟩ | ⟨hhead, w, rfl, -⟩)
  · rw [decide_eq_true hown] at ht
    generalize s.todo t = l at ht hhead
    cases ht <;> cases hhead
  · generalize decide (s.owner = some (Tid.watcher w)) = b at ht
    generalize s.todo (.watcher w) = l at ht hhead
    cases ht <;> cases hhead

theorem Orderly.setTodo (h : Orderly s) {t : Tid} {l : List Act} {u : Locked}
    (hl : Bracketed t (decide (s.owner = some t)) l) (howner : u.owner = s.owner)
    (htodo : u.todo = Function.update s.todo t l) : Orderly u := by
  intro x
  rw [howner, htodo]
  by_cases hx : x = t
  · subst hx
    rw [Function.update_self]
    exact hl
  · rw [Function.update_of_ne hx]
    exact h x

theorem Orderly.pass (h : Orderly s) {t : Tid} {l : List Act} {u : Locked}
    (hl : Bracketed t (decide (u.owner = some t)) l) (htodo : u.todo = Function.update s.todo t l)
    (hs : ∀ x, x ≠ t → s.owner ≠ some x) (hu : ∀ x, x ≠ t → u.owner ≠ some x) : Orderly u := by
  intro x
  rw [htodo]
  by_cases hx : x = t
  · subst hx
    rw [Function.update_self]
    exact hl
  · have hx' := h x
    rw [decide_eq_false (hs x hx)] at hx'
    rw [Function.update_of_ne hx, decide_eq_false (hu x hx)]
    exact hx'

theorem Orderly.act (h : Orderly s) {t : Tid} {a : Act} {rest : List Act} {u : Locked}
    (htodo : s.todo t = a :: rest) (hs : s.act t a rest = .ok u) : Orderly u := by
  have ht := h t
  rw [htodo] at ht
  generalize hb : decide (s.owner = some t) = b at ht
  -- an action under the lock that leaves it with the thread
  have held : ∀ {l : List Act} {v : Statics}, b = true → Bracketed t true l →
      Orderly { s.setTodo t l with statics := v } := by
    intro l v hbt hl
    refine h.setTodo (t := t) (l := l) ?_ rfl rfl
    rw [hb, hbt]
    exact hl
  cases ht with
  | lock hl =>
      simp only [Locked.act] at hs
      split at hs
      · rename_i hnone
        cases hs
        refine h.pass (t := t) (l := rest) ?_ rfl ?_ ?_
        · simpa using hl
        · intro x _
          rw [hnone]
          simp
        · intro x hx
          simpa using Ne.symm hx
      · cases hs
  | unlock hl =>
      simp only [Locked.act] at hs
      split at hs
      · rename_i hown
        cases hs
        refine h.pass (t := t) (l := rest) ?_ rfl ?_ ?_
        · simpa using hl
        · intro x hx
          rw [hown]
          simpa using Ne.symm hx
        · intro x _
          simp
      · cases hs
  | start ch hl =>
      cases hs
      exact held rfl hl
  | stop n =>
      simp only [Locked.act] at hs
      cases hs
      refine held rfl ?_
      cases (s.statics.watchStop).2 with
      | true => exact .unlock (.join (.lock (.stopped (.unlock (.done _)))))
      | false => exact .unlock (.done _)
  | join hl =>
      simp only [Locked.act] at hs
      split at hs
      · split at hs
        · cases hs
          exact h.setTodo (by rw [hb]; exact hl) rfl rfl
        · cases hs
      · cases hs
  | stopped hl =>
      cases hs
      exact held rfl hl
  | add f noMem hl =>
      cases hs
      exact held rfl hl
  | remove f hl =>
      cases hs
      exact held rfl hl
  | find w wd movedTo noMem =>
      simp only [Locked.act] at hs
      cases hs
      refine held rfl ?_
      cases ((s.statics.watcherEvent wd movedTo).2.isSome && !noMem) with
      | true => exact .unlock (.lock (.reload (.unlock (.done _))))
      | false => exact .unlock (.done _)
  | reload hl => cases hs

theorem orderly_step (h : Orderly s) (hs : lockStep s e = .ok t) (hc : ReloadsQuietly s e t) :
    Orderly t := by
  cases e with
  | call n c =>
      simp only [lockStep] at hs
      split at hs
      · rename_i hidle
        cases hs
        refine h.setTodo ?_ rfl rfl
        have hn := h (.caller n)
        rw [hidle] at hn
        generalize decide (s.owner = some (Tid.caller n)) = b at hn
        cases hn
        exact c.bracketed n
      · cases hs
  | event w wd movedTo noMem =>
      simp only [lockStep] at hs
      split at hs
      · rename_i hidle
        cases hs
        refine h.setTodo ?_ rfl rfl
        have hw := h (.watcher w)
        have hnil : s.todo (.watcher w) = [] := by
          simp only [Locked.idle, Bool.and_eq_true, decide_eq_true_eq] at hidle
          exact hidle.2
        rw [hnil] at hw
        generalize decide (s.owner = some (Tid.watcher w)) = b at hw
        cases hw
        exact .lock (.find w wd movedTo noMem)
      · cases hs
  | reload w calls =>
      simp only [lockStep] at hs
      split at hs
      · rename_i rest htodo
        cases hs
        refine h.setTodo ?_ rfl rfl
        have hw := h (.watcher w)
        rw [htodo] at hw
        have hnil : calls.flatMap ApiCall.acts = [] :=
          List.flatMap_eq_nil_iff.mpr (hc w calls rfl)
        rw [hnil, List.nil_append]
        generalize decide (s.owner = some (Tid.watcher w)) = b at hw
        cases hw with
        | reload hl => exact hl
      · cases hs
  | exit w =>
      simp only [lockStep] at hs
      split at hs
      · cases hs
        exact h
      · cases hs
  | run u =>
      simp only [lockStep] at hs
      split at hs
      · rename_i a rest htodo
        exact h.act htodo hs
      · cases hs

/-- A reload is the next action of a watcher that holds the lock, and what the
module calls comes before everything else that the watcher has to do. -/
theorem Orderly.reload_waits (h : Orderly s) {w : WatcherId} {calls : List ApiCall}
    (hs : lockStep s (.reload w calls) = .ok t) {c : ApiCall} (hc : c ∈ calls)
    (hacts : c.acts ≠ []) : WaitsForItself t (.watcher w) := by
  simp only [lockStep] at hs
  split at hs
  · rename_i rest htodo
    cases hs
    left
    constructor
    · simp only [Locked.setTodo, Function.update_self]
      exact ApiCall.flatMap_head hc hacts rest
    · have hw := h (.watcher w)
      rw [htodo] at hw
      generalize hb : decide (s.owner = some (Tid.watcher w)) = b at hw
      cases hw with
      | reload hl => exact of_decide_eq_true hb
  · cases hs

end

variable {s : Locked} {tr : List (Locked × LockEvent)} {fs : String → Option Inode}

theorem orderly_fresh (fs : String → Option Inode) : Orderly { statics := { inode := fs } } :=
  fun t => .done t

/-- No thread waits for itself in a state of the run exactly when no code that the
watcher's reloads run makes a call that takes the lock. -/
theorem never_waits_iff (h : Run.Steps lockStep { statics := { inode := fs } } tr s) :
    (∀ u ∈ Run.states tr s, ∀ t, ¬ WaitsForItself u t) ↔ Run.Every lockStep ReloadsQuietly tr := by
  constructor
  · intro hall
    generalize h0 : ({ statics := { inode := fs } } : Locked) = s0 at h
    induction h with
    | nil => exact .nil
    | snoc hrun hs ih =>
        have hq := ih (fun u hu => hall u (Run.mem_states_snoc.mpr (.inl hu)))
        have hm := hrun.invariant (P := Orderly)
          (fun _ _ _ hst hc ho => orderly_step ho hst hc) hq (h0 ▸ orderly_fresh fs)
        refine hq.snoc fun u hu => ?_
        rintro w calls rfl c hc
        by_contra hacts
        exact hall _ (Run.mem_states_snoc.mpr (.inr rfl)) _ (hm.reload_waits hs hc hacts)
  · intro hq u hu
    have ho := h.invariant_states (P := Orderly)
      (fun _ _ _ hst hc ho => orderly_step ho hst hc) hq (orderly_fresh fs) u hu
    exact ho.not_waits

def reloadsQuietly (_ : Locked) : LockEvent → Bool
  | .reload _ calls => calls.all fun c => decide (c.acts = [])
  | _ => true

theorem reloadsQuietly_ok (s : Locked) (e : LockEvent) (t : Locked) (h : reloadsQuietly s e = true) :
    ReloadsQuietly s e t := by
  rintro w calls rfl c hc
  exact of_decide_eq_true (List.all_eq_true.mp h c hc)

def oneFile (path : String) : Option Inode := if path = "a.so" then some 0 else none

/-- One module is watched, and the watcher has read an event for it. -/
def reloadPath : List LockEvent :=
  [.call 0 (.start {}), .run (.caller 0), .run (.caller 0), .run (.caller 0),
    .call 0 (.add (some "a") false), .run (.caller 0), .run (.caller 0), .run (.caller 0),
    .event 0 1 false false, .run (.watcher 0), .run (.watcher 0), .run (.watcher 0),
    .run (.watcher 0)]

/-- The module makes a call with a null path, and the watcher goes on. -/
theorem never_waits_quiet : ∃ s, Run.exec lockStep { statics := { inode := oneFile } }
      (reloadPath ++ [.reload 0 [.remove none], .run (.watcher 0)]) = .ok s ∧
    ∀ u ∈ Run.states (Run.trace lockStep { statics := { inode := oneFile } }
      (reloadPath ++ [.reload 0 [.remove none], .run (.watcher 0)])) s, ∀ t, ¬ WaitsForItself u t := by
  obtain ⟨s, hs, -⟩ := Run.exec_of_check lockStep { statics := { inode := oneFile } }
    (reloadPath ++ [.reload 0 [.remove none], .run (.watcher 0)]) (fun _ => true) (by decide)
  refine ⟨s, hs, (never_waits_iff (Run.exec_steps hs)).mpr ?_⟩
  exact Run.every_of_all reloadsQuietly_ok (by decide)

/-- The module adds another path, and the watcher asks for the lock it holds. -/
theorem watcher_waits : ∃ s, Run.exec lockStep { statics := { inode := oneFile } }
      (reloadPath ++ [.reload 0 [.add (some "b") false]]) = .ok s ∧
    WaitsForItself s (.watcher 0) := by
  obtain ⟨s, hs, hobs⟩ := Run.exec_of_check lockStep { statics := { inode := oneFile } }
    (reloadPath ++ [.reload 0 [.add (some "b") false]])
    (fun s => decide ((s.todo (.watcher 0)).head? = some .lock) &&
      decide (s.owner = some (.watcher 0))) (by decide)
  simp only [Bool.and_eq_true, decide_eq_true_eq] at hobs
  exact ⟨s, hs, .inl hobs⟩

end Xylem.Watch

import Xylem.Watch.Paths

/-!
# Starting and stopping from several threads

`xy_watch_start` and `xy_watch_stop` of any number of threads, with the loop of each
watcher. A section under `g_mu` is one step; between the two sections of a stop, and
between two turns of a watcher, the others go on.
-/
namespace Xylem.Watch

/-- Where a stop stands between its two sections. -/
inductive StopAt where
  | unlocked
  /-- in `pthread_join` -/
  | waits (w : WatcherId)
  | joined
  deriving DecidableEq, Repr

/-- A thread of the host. `found` are the watchers alive when it called `xy_watch_stop`,
`session` is the start that its first section ended. -/
inductive Caller where
  | idle
  | called (found : List WatcherId)
  | stopping (at' : StopAt) (session : Nat) (found : List WatcherId)
  deriving DecidableEq, Repr

/-- A watcher: at the top of its loop, in `select` on the descriptors it read there,
at the events it has read, or gone. -/
inductive Watcher where
  | top
  | select (fd r : Fd)
  | reading
  | exited
  deriving DecidableEq, Repr

structure Sessions where
  statics : Statics := {}
  callers : Nat → Caller := fun _ => .idle
  watchers : WatcherId → Watcher := fun _ => .top

inductive SessionEvent where
  | start (t : Nat) (ch : StartChoice)
  | callStop (t : Nat)
  /-- the first section of `xy_watch_stop` -/
  | stopSection (t : Nat)
  /-- the thread enters `pthread_join` -/
  | join (t : Nat)
  /-- `pthread_join` returns -/
  | joined (t : Nat)
  /-- the second section of `xy_watch_stop` -/
  | stopEnd (t : Nat)
  | add (t : Nat) (fname : Option String) (noMem : Bool)
  | remove (t : Nat) (fname : Option String)
  /-- the watcher reads the descriptors and enters `select` -/
  | turn (w : WatcherId)
  /-- `select` returns, with or without input from inotify -/
  | wake (w : WatcherId) (input : Bool)
  /-- a signal ends `select` -/
  | interrupt (w : WatcherId)
  /-- one of the events that the watcher has read -/
  | event (w : WatcherId) (wd : Wd) (movedTo : Bool)
  /-- no more events -/
  | next (w : WatcherId)
  deriving DecidableEq, Repr

namespace Sessions

def setCaller (s : Sessions) (t : Nat) (c : Caller) : Sessions :=
  { s with callers := Function.update s.callers t c }

def setWatcher (s : Sessions) (w : WatcherId) (x : Watcher) : Sessions :=
  { s with watchers := Function.update s.watchers w x }

/-- A watcher that was created and has not exited. -/
def Alive (s : Sessions) (w : WatcherId) : Prop := w < s.statics.watcherNext ∧ s.watchers w ≠ .exited

instance (s : Sessions) (w : WatcherId) : Decidable (s.Alive w) := inferInstanceAs (Decidable (_ ∧ _))

def aliveNow (s : Sessions) : List WatcherId :=
  (List.range s.statics.watcherNext).filter fun w => decide (s.Alive w)

/-- The thread is between the two sections of a stop. -/
def Between (s : Sessions) (t : Nat) : Prop := ∃ a n ws, s.callers t = .stopping a n ws

/-- The top of the loop. `select` fails on a descriptor that is not open. -/
def watcherTurn (s : Sessions) : Watcher :=
  match s.statics.ifd, s.statics.pipeR with
  | some fd, some r => if s.statics.isOpen fd && s.statics.isOpen r then .select fd r else .exited
  | _, _ => .exited

/-- What follows `select (fd, r)`. The tests read the static variables again. -/
def watcherWake (s : Sessions) (fd r : Fd) (input : Bool) : Watcher :=
  if s.statics.readable r && decide (s.statics.pipeR = some r) then .exited
  else if input && decide (s.statics.ifd = some fd) then
    if s.statics.isOpen fd then .reading else .exited
  else .top

end Sessions

def sessionStep (s : Sessions) : SessionEvent → Res Sessions
  | .start t ch =>
      if s.callers t = .idle then .ok { s with statics := (s.statics.watchStart ch).1 }
      else .error .refused
  | .callStop t =>
      if s.callers t = .idle then .ok (s.setCaller t (.called s.aliveNow)) else .error .refused
  | .stopSection t =>
      match s.callers t with
      | .called ws =>
          let (u, joins) := s.statics.watchStop
          let c := if joins then .stopping .unlocked s.statics.starts ws else .idle
          .ok { s.setCaller t c with statics := u }
      | _ => .error .refused
  | .join t =>
      match s.callers t, s.statics.thread with
      | .stopping .unlocked n ws, some w => .ok (s.setCaller t (.stopping (.waits w) n ws))
      | _, _ => .error .refused
  | .joined t =>
      match s.callers t with
      | .stopping (.waits w) n ws =>
          if s.watchers w = .exited then .ok (s.setCaller t (.stopping .joined n ws))
          else .error .refused
      | _ => .error .refused
  | .stopEnd t =>
      match s.callers t with
      | .stopping .joined _ _ =>
          .ok { s.setCaller t .idle with statics := s.statics.watchStopped }
      | _ => .error .refused
  | .add t fname noMem =>
      if s.callers t = .idle then .ok { s with statics := (s.statics.watchAdd fname noMem).1 }
      else .error .refused
  | .remove t fname =>
      if s.callers t = .idle then .ok { s with statics := s.statics.watchRemove fname }
      else .error .refused
  | .turn w =>
      if s.Alive w ∧ s.watchers w = .top then .ok (s.setWatcher w s.watcherTurn)
      else .error .refused
  | .wake w input =>
      match s.watchers w with
      | .select fd r =>
          if s.statics.readable r || input then
            .ok (s.setWatcher w (s.watcherWake fd r input))
          else .error .refused
      | _ => .error .refused
  | .interrupt w =>
      match s.watchers w with
      | .select _ _ => .ok (s.setWatcher w .top)
      | _ => .error .refused
  | .event w wd movedTo =>
      if s.Alive w ∧ s.watchers w = .reading then
        .ok { s with statics := (s.statics.watcherEvent wd movedTo).1 }
      else .error .refused
  | .next w =>
      if s.Alive w ∧ s.watchers w = .reading then .ok (s.setWatcher w .top) else .error .refused

def Statics.Held (s : Statics) (fd : Fd) : Prop :=
  s.ifd = some fd ∨ s.pipeR = some fd ∨ s.pipeW = some fd

/-- While `g_running` is set, the descriptors are open and of the latest start, and one
watcher is alive, which uses no others. -/
structure Watching (s : Sessions) (w : WatcherId) (fd r p : Fd) : Prop where
  ifd : s.statics.ifd = some fd
  pipeR : s.statics.pipeR = some r
  pipeW : s.statics.pipeW = some p
  held : ∀ x ∈ [fd, r, p], s.statics.isOpen x = true ∧ s.statics.session x = s.statics.starts
  alive : s.Alive w
  only : ∀ w', s.Alive w' → w' = w
  uses : ∀ x y, s.watchers w = .select x y → x = fd ∧ y = r

def WatchesOnce (s : Sessions) : Prop :=
  s.statics.running = true → ∃ w fd r p, Watching s w fd r p

/-- The second section of a stop closes what the variables hold, which are open descriptors
of the session it stopped. -/
def ClosesOwn (s : Sessions) (e : SessionEvent) (s' : Sessions) : Prop :=
  ∀ t a n ws, e = .stopEnd t → s.callers t = .stopping a n ws → ∀ fd,
    (s.statics.Held fd → s.statics.isOpen fd = true ∧ s.statics.session fd = n) ∧
      (¬ s.statics.Held fd → s'.statics.isOpen fd = s.statics.isOpen fd)

def Caller.found : Caller → List WatcherId
  | .idle => []
  | .called ws => ws
  | .stopping _ _ ws => ws

/-- A stop that returns leaves none of the watchers it has found. -/
def StopsFound (s : Sessions) (e : SessionEvent) (s' : Sessions) : Prop :=
  ∀ t, e = .stopSection t ∨ e = .stopEnd t → s'.callers t = .idle →
    ∀ w ∈ (s.callers t).found, ¬ s'.Alive w

/-- While a stop is between its two sections no start gets as far as its pipe, and no other
stop comes to its first section that has found a watcher which is still alive. -/
def LeavesStops (s : Sessions) (e : SessionEvent) (_ : Sessions) : Prop :=
  (∀ t ch, e = .start t ch → s.statics.running = false → ch.noInotify = false →
    ch.noPipe = false → ∀ u, ¬ s.Between u) ∧
  (∀ t, e = .stopSection t → ∀ u, s.Between u → ∀ w ∈ (s.callers t).found, ¬ s.Alive w)

/-! ### What a step of the interface does to the descriptors -/

namespace Statics

def SameSession (s t : Statics) : Prop :=
  ∃ w n es, t = { s with watches := w, wdNext := n, entries := es }

section
variable {s t u : Statics}

theorem SameSession.refl (s : Statics) : SameSession s s := ⟨s.watches, s.wdNext, s.entries, rfl⟩

theorem SameSession.trans (h : SameSession s t) (k : SameSession t u) : SameSession s u := by
  obtain ⟨w, n, es, rfl⟩ := h
  obtain ⟨w', n', es', rfl⟩ := k
  exact ⟨w', n', es', rfl⟩

theorem inotifyAddWatch_same (s : Statics) (fd : Fd) (path : String) :
    SameSession s (s.inotifyAddWatch fd path).1 := by
  unfold inotifyAddWatch
  split
  · split
    · exact .refl s
    · exact ⟨_, _, s.entries, rfl⟩
  · exact .refl s

theorem entryRewatch_same (s : Statics) (i : Nat) : SameSession s (s.entryRewatch i) := by
  unfold entryRewatch
  split
  · rename_i fd e _ _
    split
    · exact .refl s
    · rename_i path _
      obtain ⟨w, n, es, h⟩ := inotifyAddWatch_same s fd path
      simp only [h]
      exact ⟨w, n, _, rfl⟩
  · exact .refl s

theorem rewatchAll_same (s : Statics) (l : List Nat) : SameSession s (l.foldl entryRewatch s) := by
  induction l generalizing s with
  | nil => exact .refl s
  | cons i l ih => exact (entryRewatch_same s i).trans (ih _)

theorem watchAdd_same (s : Statics) (fname : Option String) (noMem : Bool) :
    SameSession s (s.watchAdd fname noMem).1 := by
  unfold watchAdd
  split
  · exact .refl s
  · rename_i f
    split
    · exact .refl s
    · split
      · exact .refl s
      · split
        · exact .refl s
        · have hnew : SameSession s { s with entries := s.entries ++ [{ fname := f }] } :=
            ⟨s.watches, s.wdNext, _, rfl⟩
          simp only
          split
          · exact hnew.trans (entryRewatch_same _ _)
          · exact hnew

theorem watchRemove_same (s : Statics) (fname : Option String) :
    SameSession s (s.watchRemove fname) := by
  unfold watchRemove
  split
  · exact .refl s
  · simp only
    split
    · exact ⟨_, s.wdNext, _, rfl⟩
    · exact ⟨s.watches, s.wdNext, _, rfl⟩

theorem watcherEvent_same (s : Statics) (wd : Wd) (movedTo : Bool) :
    SameSession s (s.watcherEvent wd movedTo).1 := by
  unfold watcherEvent
  split
  · exact .refl s
  · simp only
    split
    · exact entryRewatch_same s _
    · exact .refl s

theorem watchStop_stopped (hr : s.running = false) : s.watchStop = (s, false) := by
  unfold watchStop
  rw [if_neg (by simp [hr])]

theorem closeAll_isOpen {fd : Fd} (h : ¬ s.Held fd) : s.closeAll.isOpen fd = s.isOpen fd := by
  have hclose : ∀ (v : Statics) (x : Option Fd), x ≠ some fd →
      (v.closeFd x).isOpen fd = v.isOpen fd := by
    intro v x hx
    cases x with
    | none => rfl
    | some y => exact Function.update_of_ne (fun e => hx (congrArg some e.symm)) ..
  simp only [Held, not_or] at h
  simp only [closeAll]
  rw [hclose _ _ h.2.2, hclose _ _ h.2.1, hclose _ _ h.1]

structure StartFailed (s t : Statics) : Prop where
  running : t.running = false
  thread : t.thread = s.thread
  watcherNext : t.watcherNext = s.watcherNext
  starts : t.starts = s.starts
  readable : t.readable = s.readable
  fdNext : s.fdNext ≤ t.fdNext
  held : ∀ fd, t.Held fd → s.Held fd ∧
    (fd < s.fdNext → t.isOpen fd = s.isOpen fd ∧ t.session fd = s.session fd)

/-- A start that succeeds: three new descriptors and a new watcher. -/
structure StartDone (s t : Statics) : Prop where
  running : t.running = true
  thread : t.thread = some s.watcherNext
  watcherNext : t.watcherNext = s.watcherNext + 1
  starts : t.starts = s.starts + 1
  readable : t.readable = s.readable
  fdNext : t.fdNext = s.fdNext + 3
  ifd : t.ifd = some s.fdNext
  pipeR : t.pipeR = some (s.fdNext + 1)
  pipeW : t.pipeW = some (s.fdNext + 2)
  readEnd : t.readEnd (s.fdNext + 2) = s.fdNext + 1
  opened : ∀ x ∈ [s.fdNext, s.fdNext + 1, s.fdNext + 2],
    t.isOpen x = true ∧ t.session x = s.starts + 1

theorem watchStart_cases (hr : s.running = false) (ch : StartChoice) :
    StartFailed s (s.watchStart ch).1 ∨
      ch.noInotify = false ∧ ch.noPipe = false ∧ StartDone s (s.watchStart ch).1 := by
  obtain ⟨noInotify, noPipe, noThread⟩ := ch
  unfold watchStart
  rw [hr]
  cases noInotify with
  | true =>
      left
      refine ⟨rfl, rfl, rfl, rfl, rfl, le_rfl, fun fd h => ?_⟩
      exact ⟨h.elim (fun e => by cases e) .inr, fun _ => ⟨rfl, rfl⟩⟩
  | false =>
      cases noPipe with
      | true =>
          left
          refine ⟨hr, rfl, rfl, rfl, rfl, Nat.le_succ _, fun fd h => ?_⟩
          refine ⟨h.elim (fun e => by cases e) .inr, fun hlt => ?_⟩
          have hne : fd ≠ s.fdNext := Nat.ne_of_lt hlt
          simp [openFd, closeFd, hne]
      | false =>
          simp only [Bool.false_eq_true, if_false]
          obtain ⟨w, n, es, h⟩ := rewatchAll_same
            (({ s.openFd.1 with ifd := some s.fdNext } : Statics).openPipe) (List.range s.entries.length)
          have hents : (({ s.openFd.1 with ifd := some s.openFd.2 } : Statics).openPipe).entries =
            s.entries := rfl
          have hfd : s.openFd.2 = s.fdNext := rfl
          rw [hents, hfd, h]
          cases noThread with
          | true =>
              left
              refine ⟨hr, rfl, rfl, rfl, rfl, Nat.le_add_right _ 3, fun fd hheld => ?_⟩
              rcases hheld with e | e | e <;> cases e
          | false =>
              right
              refine ⟨trivial, trivial, rfl, rfl, rfl, rfl, rfl, rfl, rfl, rfl, rfl, ?_, ?_⟩
              · simp [openPipe, openFd]
              · clear h
                simp [openPipe, openFd, Function.update_apply]

end
end Statics

/-- The watcher that a stop still has to wait for. -/
def StopAt.target (s : Sessions) : StopAt → Option WatcherId
  | .unlocked => s.statics.thread
  | .waits w => some w
  | .joined => none

/-- The state between two steps, in runs that leave every stop alone. -/
structure SessionsOk (s : Sessions) : Prop where
  alone : ∀ t u, s.Between t → s.Between u → t = u
  stops : ∀ t a n ws, s.callers t = .stopping a n ws → s.statics.running = false ∧
    n = s.statics.starts ∧ ∀ w, s.Alive w → a.target s = some w
  held : ∀ fd, s.statics.Held fd → fd < s.statics.fdNext ∧ s.statics.isOpen fd = true ∧
    s.statics.session fd = s.statics.starts
  fresh : ∀ fd, s.statics.fdNext ≤ fd → s.statics.readable fd = false
  unborn : ∀ w, s.statics.watcherNext ≤ w → s.watchers w = .top
  runs : s.statics.running = true → ∃ w fd r p, Watching s w fd r p ∧
    s.statics.thread = some w ∧ s.statics.readEnd p = r ∧ s.statics.readable r = false
  quiet : s.statics.running = false → (∀ t, ¬ s.Between t) → ∀ w, ¬ s.Alive w

section
variable {s t : Sessions} {e : SessionEvent}

theorem SessionsOk.fresh_state (fs : String → Option Inode) :
    SessionsOk { statics := { inode := fs } } where
  alone t u h := by
    obtain ⟨a, n, ws, hc⟩ := h
    cases hc
  stops t a n ws h := by cases h
  held fd h := by rcases h with h | h | h <;> cases h
  fresh fd _ := rfl
  unborn w _ := rfl
  runs h := by cases h
  quiet _ _ w h := absurd h.1 (Nat.not_lt_zero w)

/-- A step that keeps the descriptors, the watchers and the threads between two sections. -/
theorem SessionsOk.same (h : SessionsOk s) (hsame : s.statics.SameSession t.statics)
    (hw : t.watchers = s.watchers)
    (hc : ∀ u a n ws, t.callers u = .stopping a n ws ↔ s.callers u = .stopping a n ws) :
    SessionsOk t := by
  have hb : ∀ x, t.Between x ↔ s.Between x := fun x => by simp only [Sessions.Between, hc]
  obtain ⟨u, callers, watchers⟩ := t
  obtain ⟨w, n, es, rfl⟩ := hsame
  subst hw
  exact {
    alone := fun x y hx hy => h.alone x y ((hb x).mp hx) ((hb y).mp hy)
    stops := fun x a m ws hx => by
      obtain ⟨h1, h2, h3⟩ := h.stops x a m ws ((hc x a m ws).mp hx)
      refine ⟨h1, h2, fun v hv => ?_⟩
      cases a <;> exact h3 v hv
    held := h.held
    fresh := h.fresh
    unborn := h.unborn
    runs := fun hr => by
      obtain ⟨v, fd, r, p, hwatch, hrest⟩ := h.runs hr
      exact ⟨v, fd, r, p, ⟨hwatch.ifd, hwatch.pipeR, hwatch.pipeW, hwatch.held, hwatch.alive,
        hwatch.only, hwatch.uses⟩, hrest⟩
    quiet := fun hr hq => h.quiet hr fun x hx => hq x ((hb x).mpr hx) }

/-- A thread that is not between two sections goes on to a place that is not either. -/
theorem stopping_setCaller {x : Nat} {c : Caller} (hx : ¬ s.Between x)
    (hc : ∀ a n ws, c ≠ .stopping a n ws) (u : Nat) (a : StopAt) (n : Nat) (ws : List WatcherId) :
    (s.setCaller x c).callers u = .stopping a n ws ↔ s.callers u = .stopping a n ws := by
  by_cases hu : u = x
  · subst hu
    simp only [Sessions.setCaller, Function.update_self]
    exact ⟨fun h => absurd h (hc a n ws), fun h => absurd ⟨a, n, ws, h⟩ hx⟩
  · simp only [Sessions.setCaller, Function.update_of_ne hu]

theorem SessionsOk.moveWatcher (h : SessionsOk s) {w : WatcherId} {x : Watcher}
    (hw : s.Alive w)
    (hx : s.statics.running = true → x ≠ .exited ∧
      ∀ fd r, x = .select fd r → s.statics.ifd = some fd ∧ s.statics.pipeR = some r) :
    SessionsOk (s.setWatcher w x) := by
  have hold : ∀ v, (s.setWatcher w x).Alive v → s.Alive v := by
    rintro v ⟨hlt, hv⟩
    by_cases hvw : v = w
    · rw [hvw]
      exact hw
    · refine ⟨hlt, ?_⟩
      simpa only [Sessions.setWatcher, Function.update_of_ne hvw] using hv
  exact {
    alone := h.alone
    stops := fun y a n ws hy => by
      obtain ⟨h1, h2, h3⟩ := h.stops y a n ws hy
      refine ⟨h1, h2, fun v hv => ?_⟩
      cases a <;> exact h3 v (hold v hv)
    held := h.held
    fresh := h.fresh
    unborn := fun v hv => by
      have hne : v ≠ w := fun e => absurd hw.1 (Nat.not_lt.mpr (e ▸ hv))
      simp only [Sessions.setWatcher, Function.update_of_ne hne]
      exact h.unborn v hv
    runs := fun hr => by
      obtain ⟨v, fd, r, p, hwatch, hrest⟩ := h.runs hr
      obtain ⟨hx1, hx2⟩ := hx hr
      obtain rfl := hwatch.only w hw
      refine ⟨w, fd, r, p, ⟨hwatch.ifd, hwatch.pipeR, hwatch.pipeW, hwatch.held, ⟨hw.1, ?_⟩,
        fun v hv => hwatch.only v (hold v hv), fun y z hyz => ?_⟩, hrest⟩
      · simpa only [Sessions.setWatcher, Function.update_self] using hx1
      · simp only [Sessions.setWatcher, Function.update_self] at hyz
        obtain ⟨h1, h2⟩ := hx2 y z hyz
        rw [hwatch.ifd] at h1
        rw [hwatch.pipeR] at h2
        cases h1
        cases h2
        exact ⟨rfl, rfl⟩
    quiet := fun hr hq v hv => h.quiet hr hq v (hold v hv) }

/-- A start, when one that gets its descriptors meets no thread inside a stop. -/
theorem SessionsOk.start (h : SessionsOk s) {ch : StartChoice}
    (hclear : s.statics.running = false → ch.noInotify = false → ch.noPipe = false →
      ∀ u, ¬ s.Between u) : SessionsOk { s with statics := (s.statics.watchStart ch).1 } := by
  cases hr : s.statics.running with
  | true =>
      have hnoop : (s.statics.watchStart ch).1 = s.statics := by
        unfold Statics.watchStart
        rw [if_pos hr]
      rw [hnoop]
      exact h
  | false =>
      rcases Statics.watchStart_cases hr ch with hf | ⟨hi, hp, hd⟩
      · exact {
          alone := h.alone
          stops := fun x a n ws hx => by
            obtain ⟨-, h2, h3⟩ := h.stops x a n ws hx
            refine ⟨hf.running, h2.trans hf.starts.symm, fun v hv => ?_⟩
            have hv' := h3 v ⟨hf.watcherNext ▸ hv.1, hv.2⟩
            cases a with
            | unlocked => exact hf.thread.trans hv'
            | waits w => exact hv'
            | joined => exact hv'
          held := fun fd hfd => by
            obtain ⟨hs, hk⟩ := hf.held fd hfd
            obtain ⟨h1, h2, h3⟩ := h.held fd hs
            obtain ⟨hk1, hk2⟩ := hk h1
            exact ⟨h1.trans_le hf.fdNext, hk1.trans h2, hk2.trans (h3.trans hf.starts.symm)⟩
          fresh := fun fd hfd => by
            rw [hf.readable]
            exact h.fresh fd (hf.fdNext.trans hfd)
          unborn := fun w hw => h.unborn w (hf.watcherNext ▸ hw)
          runs := fun hrun => by
            rw [hf.running] at hrun
            cases hrun
          quiet := fun _ hq w hw => h.quiet hr hq w ⟨hf.watcherNext ▸ hw.1, hw.2⟩ }
      · have hnone := hclear hr hi hp
        have hdead := h.quiet hr hnone
        have hnew : ∀ w, Sessions.Alive { s with statics := (s.statics.watchStart ch).1 } w →
            w = s.statics.watcherNext := by
          intro w hw
          by_contra hne
          have hlt : w < s.statics.watcherNext + 1 := hd.watcherNext ▸ hw.1
          exact hdead w ⟨Nat.lt_of_le_of_ne (Nat.le_of_lt_succ hlt) hne, hw.2⟩
        have hheld : ∀ fd, (s.statics.watchStart ch).1.Held fd →
            fd ∈ [s.statics.fdNext, s.statics.fdNext + 1, s.statics.fdNext + 2] := by
          rintro fd (hx | hx | hx)
          · rw [hd.ifd] at hx
            cases hx
            simp
          · rw [hd.pipeR] at hx
            cases hx
            simp
          · rw [hd.pipeW] at hx
            cases hx
            simp
        exact {
          alone := h.alone
          stops := fun x a n ws hx => absurd ⟨a, n, ws, hx⟩ (hnone x)
          held := fun fd hfd => by
            have hmem := hheld fd hfd
            obtain ⟨h1, h2⟩ := hd.opened fd hmem
            refine ⟨?_, h1, h2.trans hd.starts.symm⟩
            rw [hd.fdNext]
            simp only [List.mem_cons, List.not_mem_nil, or_false] at hmem
            rcases hmem with rfl | rfl | rfl
            · exact Nat.lt_add_of_pos_right (Nat.succ_pos 2)
            · exact Nat.add_lt_add_left (by decide) _
            · exact Nat.add_lt_add_left (by decide) _
          fresh := fun fd hfd => by
            rw [hd.readable]
            rw [hd.fdNext] at hfd
            exact h.fresh fd ((Nat.le_add_right _ 3).trans hfd)
          unborn := fun w hw => by
            rw [hd.watcherNext] at hw
            exact h.unborn w ((Nat.le_succ _).trans hw)
          runs := fun _ => by
            have htop := h.unborn _ le_rfl
            refine ⟨s.statics.watcherNext, _, _, _, ⟨hd.ifd, hd.pipeR, hd.pipeW, ?_, ?_, hnew, ?_⟩,
              hd.thread, hd.readEnd, ?_⟩
            · intro x hx
              obtain ⟨h1, h2⟩ := hd.opened x hx
              exact ⟨h1, h2.trans hd.starts.symm⟩
            · refine ⟨hd.watcherNext ▸ Nat.lt_succ_self _, ?_⟩
              rw [htop]
              exact fun e => by cases e
            · intro x y hxy
              rw [htop] at hxy
              cases hxy
            · rw [hd.readable]
              exact h.fresh _ (Nat.le_succ _)
          quiet := fun hrun => by
            rw [hd.running] at hrun
            cases hrun }

theorem SessionsOk.stopSection (h : SessionsOk s) (hr : s.statics.running = true) (x : Nat)
    (ws : List WatcherId) :
    SessionsOk { s.setCaller x (.stopping .unlocked s.statics.starts ws) with
      statics := s.statics.watchStop.1 } := by
  obtain ⟨w, fd, r, p, hwatch, hthread, hend, -⟩ := h.runs hr
  have hnone : ∀ u, ¬ s.Between u := by
    rintro u ⟨a, n, ws', hu⟩
    have hf := (h.stops u a n ws' hu).1
    rw [hr] at hf
    cases hf
  have hstop : s.statics.watchStop.1 =
      { s.statics with readable := Function.update s.statics.readable r true, running := false } := by
    simp only [Statics.watchStop, hr, if_true, hwatch.pipeW, hend]
  have hrlt : r < s.statics.fdNext := (h.held r (.inr (.inl hwatch.pipeR))).1
  have hself : ∀ u a n ws', (s.setCaller x (.stopping .unlocked s.statics.starts ws)).callers u =
      .stopping a n ws' → u = x ∧ a = .unlocked ∧ n = s.statics.starts := by
    intro u a n ws' hu
    by_cases hux : u = x
    · rw [hux] at hu
      simp only [Sessions.setCaller, Function.update_self] at hu
      cases hu
      exact ⟨hux, rfl, rfl⟩
    · simp only [Sessions.setCaller, Function.update_of_ne hux] at hu
      exact absurd ⟨a, n, ws', hu⟩ (hnone u)
  rw [hstop]
  exact {
    alone := fun u v hu hv => by
      obtain ⟨a, n, ws', hu⟩ := hu
      obtain ⟨b, m, ws'', hv⟩ := hv
      exact (hself u a n ws' hu).1.trans (hself v b m ws'' hv).1.symm
    stops := fun u a n ws' hu => by
      obtain ⟨-, rfl, rfl⟩ := hself u a n ws' hu
      refine ⟨rfl, rfl, fun v hv => ?_⟩
      rw [hwatch.only v hv]
      exact hthread
    held := h.held
    fresh := fun y hy => by
      have hne : y ≠ r := fun e => absurd hrlt (Nat.not_lt.mpr (e ▸ hy))
      simp only [Function.update_of_ne hne]
      exact h.fresh y hy
    unborn := h.unborn
    runs := fun hrun => by cases hrun
    quiet := fun _ hq => by
      refine absurd ⟨.unlocked, s.statics.starts, ws, ?_⟩ (hq x)
      simp only [Sessions.setCaller, Function.update_self] }

/-- A thread goes on inside its stop, with nothing else to wait for. -/
theorem SessionsOk.advance (h : SessionsOk s) {x : Nat} {a b : StopAt} {n : Nat}
    {ws : List WatcherId} (hx : s.callers x = .stopping a n ws)
    (hb : ∀ w, s.Alive w → b.target s = some w) :
    SessionsOk (s.setCaller x (.stopping b n ws)) := by
  have hbetween : ∀ u, (s.setCaller x (.stopping b n ws)).Between u ↔ s.Between u := by
    intro u
    by_cases hu : u = x
    · subst hu
      simp only [Sessions.Between, Sessions.setCaller, Function.update_self]
      exact ⟨fun _ => ⟨a, n, ws, hx⟩, fun _ => ⟨b, n, ws, rfl⟩⟩
    · simp only [Sessions.Between, Sessions.setCaller, Function.update_of_ne hu]
  exact {
    alone := fun u v hu hv => h.alone u v ((hbetween u).mp hu) ((hbetween v).mp hv)
    stops := fun u c m ws' hu => by
      by_cases hux : u = x
      · rw [hux] at hu
        simp only [Sessions.setCaller, Function.update_self] at hu
        cases hu
        obtain ⟨h1, h2, -⟩ := h.stops x a n ws hx
        refine ⟨h1, h2, fun v hv => ?_⟩
        cases b <;> exact hb v hv
      · simp only [Sessions.setCaller, Function.update_of_ne hux] at hu
        obtain ⟨h1, h2, h3⟩ := h.stops u c m ws' hu
        refine ⟨h1, h2, fun v hv => ?_⟩
        cases c <;> exact h3 v hv
    held := h.held
    fresh := h.fresh
    unborn := h.unborn
    runs := fun hr => by
      have hf := (h.stops x a n ws hx).1
      have hr' : s.statics.running = true := hr
      rw [hr'] at hf
      cases hf
    quiet := fun hr hq => h.quiet hr fun u hu => hq u ((hbetween u).mpr hu) }

theorem SessionsOk.stopEnd (h : SessionsOk s) {x n : Nat} {ws : List WatcherId}
    (hx : s.callers x = .stopping .joined n ws) :
    SessionsOk { s.setCaller x .idle with statics := s.statics.watchStopped } := by
  obtain ⟨hr, -, hdead⟩ := h.stops x .joined n ws hx
  have hnone : ∀ u a m ws', (s.setCaller x .idle).callers u ≠ .stopping a m ws' := by
    intro u a m ws' hu
    by_cases hux : u = x
    · rw [hux] at hu
      simp only [Sessions.setCaller, Function.update_self] at hu
      cases hu
    · simp only [Sessions.setCaller, Function.update_of_ne hux] at hu
      exact hux (h.alone u x ⟨a, m, ws', hu⟩ ⟨.joined, n, ws, hx⟩)
  obtain ⟨o, hclose⟩ := s.statics.closeAll_eq
  rw [Statics.watchStopped, hclose]
  exact {
    alone := fun u v hu _ => by
      obtain ⟨a, m, ws', hu⟩ := hu
      exact absurd hu (hnone u a m ws')
    stops := fun u a m ws' hu => absurd hu (hnone u a m ws')
    held := fun fd hfd => by rcases hfd with hf | hf | hf <;> cases hf
    fresh := h.fresh
    unborn := h.unborn
    runs := fun hrun => by
      have hrun' : s.statics.running = true := hrun
      rw [hr] at hrun'
      cases hrun'
    quiet := fun _ _ w hw => by cases hdead w hw }

theorem SessionsOk.alive_select (h : SessionsOk s) {w : WatcherId} {fd r : Fd}
    (hw : s.watchers w = .select fd r) : s.Alive w := by
  constructor
  · by_contra hge
    rw [h.unborn w (Nat.le_of_not_lt hge)] at hw
    cases hw
  · rw [hw]
    exact fun e => by cases e

theorem SessionsOk.turn (h : SessionsOk s) {w : WatcherId} (hw : s.Alive w) :
    SessionsOk (s.setWatcher w s.watcherTurn) := by
  refine h.moveWatcher hw fun hr => ?_
  obtain ⟨v, fd, r, p, hwatch, -⟩ := h.runs hr
  have hturn : s.watcherTurn = .select fd r := by
    have hfd := (hwatch.held fd (by simp)).1
    have hr' := (hwatch.held r (by simp)).1
    simp [Sessions.watcherTurn, hwatch.ifd, hwatch.pipeR, hfd, hr']
  rw [hturn]
  refine ⟨by simp, fun x y hxy => ?_⟩
  cases hxy
  exact ⟨hwatch.ifd, hwatch.pipeR⟩

theorem SessionsOk.wake (h : SessionsOk s) {w : WatcherId} {fd r : Fd}
    (hw : s.watchers w = .select fd r) (input : Bool) :
    SessionsOk (s.setWatcher w (s.watcherWake fd r input)) := by
  refine h.moveWatcher (h.alive_select hw) fun hr => ?_
  obtain ⟨v, fd', r', p, hwatch, -, -, hquiet⟩ := h.runs hr
  obtain rfl := hwatch.only w (h.alive_select hw)
  obtain ⟨rfl, rfl⟩ := hwatch.uses fd r hw
  have hopen := (hwatch.held fd (by simp)).1
  simp only [Sessions.watcherWake, hquiet, Bool.false_and, Bool.false_eq_true, if_false, hopen, if_true]
  split
  · exact ⟨by simp, by simp⟩
  · exact ⟨by simp, by simp⟩

theorem SessionsOk.backToTop (h : SessionsOk s) {w : WatcherId} (hw : s.Alive w) :
    SessionsOk (s.setWatcher w .top) :=
  h.moveWatcher hw fun _ => ⟨by simp, by simp⟩

theorem not_between {x : Nat} (h : ∀ a n ws, s.callers x ≠ .stopping a n ws) : ¬ s.Between x := by
  rintro ⟨a, n, ws, hx⟩
  exact h a n ws hx

theorem sessionsOk_step (h : SessionsOk s) (hs : sessionStep s e = .ok t)
    (hc : LeavesStops s e t) : SessionsOk t := by
  cases e with
  | start x ch =>
      simp only [sessionStep] at hs
      split at hs
      · cases hs
        exact h.start (hc.1 x ch rfl)
      · cases hs
  | callStop x =>
      simp only [sessionStep] at hs
      split at hs
      · rename_i hx
        cases hs
        have hout : ¬ s.Between x := not_between fun a n ws e => by
          rw [hx] at e
          cases e
        exact h.same (.refl _) rfl (stopping_setCaller hout fun _ _ _ e => by cases e)
      · cases hs
  | stopSection x =>
      simp only [sessionStep] at hs
      split at hs
      · rename_i ws hx
        cases hs
        cases hr : s.statics.running with
        | true =>
            have hjoins : (s.statics.watchStop).2 = true := by
              unfold Statics.watchStop
              rw [if_pos hr]
            rw [hjoins, if_pos rfl]
            exact h.stopSection hr x ws
        | false =>
            rw [Statics.watchStop_stopped hr]
            have hout : ¬ s.Between x := not_between fun a n ws' e => by
              rw [hx] at e
              cases e
            exact h.same (.refl _) rfl (stopping_setCaller hout fun _ _ _ e => by cases e)
      · cases hs
  | join x =>
      simp only [sessionStep] at hs
      split at hs
      · rename_i n ws w hx hw
        cases hs
        refine h.advance hx fun v hv => ?_
        exact hw.symm.trans ((h.stops x _ n ws hx).2.2 v hv)
      · cases hs
  | joined x =>
      simp only [sessionStep] at hs
      split at hs
      · rename_i w n ws hx
        split at hs
        · rename_i hexit
          cases hs
          refine h.advance hx fun v hv => ?_
          have hvw := (h.stops x _ n ws hx).2.2 v hv
          cases hvw
          exact absurd hexit hv.2
        · cases hs
      · cases hs
  | stopEnd x =>
      simp only [sessionStep] at hs
      split at hs
      · rename_i n ws hx
        cases hs
        exact h.stopEnd hx
      · cases hs
  | add x fname noMem =>
      simp only [sessionStep] at hs
      split at hs
      · cases hs
        exact h.same (Statics.watchAdd_same _ _ _) rfl fun _ _ _ _ => Iff.rfl
      · cases hs
  | remove x fname =>
      simp only [sessionStep] at hs
      split at hs
      · cases hs
        exact h.same (Statics.watchRemove_same _ _) rfl fun _ _ _ _ => Iff.rfl
      · cases hs
  | turn w =>
      simp only [sessionStep] at hs
      split at hs
      · rename_i hw
        cases hs
        exact h.turn hw.1
      · cases hs
  | wake w input =>
      simp only [sessionStep] at hs
      split at hs
      · rename_i fd r hw
        split at hs
        · cases hs
          exact h.wake hw input
        · cases hs
      · cases hs
  | interrupt w =>
      simp only [sessionStep] at hs
      split at hs
      · rename_i fd r hw
        cases hs
        exact h.backToTop (h.alive_select hw)
      · cases hs
  | event w wd movedTo =>
      simp only [sessionStep] at hs
      split at hs
      · cases hs
        exact h.same (Statics.watcherEvent_same _ _ _) rfl fun _ _ _ _ => Iff.rfl
      · cases hs
  | next w =>
      simp only [sessionStep] at hs
      split at hs
      · rename_i hw
        cases hs
        exact h.backToTop hw.1
      · cases hs

theorem SessionsOk.watchesOnce (h : SessionsOk s) : WatchesOnce s := fun hr => by
  obtain ⟨w, fd, r, p, hwatch, -⟩ := h.runs hr
  exact ⟨w, fd, r, p, hwatch⟩

theorem SessionsOk.closesOwn (h : SessionsOk s) (hs : sessionStep s e = .ok t) :
    ClosesOwn s e t := by
  rintro x a n ws rfl hx fd
  constructor
  · intro hfd
    obtain ⟨-, h2, h3⟩ := h.held fd hfd
    exact ⟨h2, h3.trans (h.stops x a n ws hx).2.1.symm⟩
  · intro hfd
    simp only [sessionStep] at hs
    split at hs
    · cases hs
      exact Statics.closeAll_isOpen hfd
    · cases hs

/-- The watchers that a returning stop has found are gone: none is alive after a join,
and the first section returns only when no stop is under way or they have exited. -/
theorem SessionsOk.stopsFound (h : SessionsOk s) (hs : sessionStep s e = .ok t)
    (hc : LeavesStops s e t) : StopsFound s e t := by
  rintro x (rfl | rfl) hidle w hw hlive
  · simp only [sessionStep] at hs
    split at hs
    · rename_i ws hx
      cases hs
      cases hr : s.statics.running with
      | true =>
          simp only [Statics.watchStop, hr, if_true, Sessions.setCaller, Function.update_self] at hidle
          cases hidle
      | false =>
          rw [Statics.watchStop_stopped hr] at hlive
          have hlive' : s.Alive w := hlive
          by_cases hq : ∀ u, ¬ s.Between u
          · exact h.quiet hr hq w hlive'
          · obtain ⟨u, hu⟩ := not_forall_not.mp hq
            exact hc.2 x rfl u hu w hw hlive'
    · cases hs
  · simp only [sessionStep] at hs
    split at hs
    · rename_i n ws hx
      cases hs
      have hdead := (h.stops x _ n ws hx).2.2 w
      obtain ⟨o, hclose⟩ := s.statics.closeAll_eq
      rw [Statics.watchStopped, hclose] at hlive
      cases hdead hlive
    · cases hs

end

/-- In every run that leaves the stops alone, at every moment a running session has its own
descriptors and one watcher, every stop closes what is its own and returns after the
watchers it has found. -/
theorem sessions_kept {fs : String → Option Inode} {tr : List (Sessions × SessionEvent)}
    {s : Sessions} (h : Run.Steps sessionStep { statics := { inode := fs } } tr s)
    (hc : Run.Every sessionStep LeavesStops tr) :
    (∀ u ∈ Run.states tr s, WatchesOnce u) ∧ Run.Every sessionStep ClosesOwn tr ∧
      Run.Every sessionStep StopsFound tr := by
  have hok := h.invariant_states (P := SessionsOk)
    (fun _ _ _ hs hl hm => sessionsOk_step hm hs hl) hc (.fresh_state fs)
  have hbefore : ∀ x ∈ tr, SessionsOk x.1 := fun x hx =>
    hok x.1 (List.mem_append_left _ (List.mem_map_of_mem hx))
  refine ⟨fun u hu => (hok u hu).watchesOnce, fun x hx t ht => (hbefore x hx).closesOwn ht, ?_⟩
  exact fun x hx t ht => (hbefore x hx).stopsFound ht (hc x hx t ht)

theorem leavesStops_clear {s t : Sessions} {e : SessionEvent} (h : ∀ u, ¬ s.Between u) :
    LeavesStops s e t := ⟨fun _ _ _ _ _ _ => h, fun _ _ u hu => absurd hu (h u)⟩

theorem leavesStops_other {s t : Sessions} {e : SessionEvent} (h1 : ∀ x ch, e ≠ .start x ch)
    (h2 : ∀ x, e ≠ .stopSection x) : LeavesStops s e t :=
  ⟨fun x ch he => absurd he (h1 x ch), fun x he => absurd he (h2 x)⟩

def oneSession : List SessionEvent :=
  [.start 0 {}, .turn 0, .callStop 0, .stopSection 0, .join 0, .wake 0 false, .joined 0, .stopEnd 0]

theorem oneSession_leaves :
    Run.Every sessionStep LeavesStops (Run.trace sessionStep {} oneSession) := by
  refine Run.every_trace fun m hm => ⟨leavesStops_clear fun u hu => ?_, ?_⟩
  · obtain ⟨a, n, ws, hu⟩ := hu
    cases hu
  cases hm
  refine Run.every_trace fun m hm => ⟨leavesStops_other (by simp) (by simp), ?_⟩
  cases hm
  refine Run.every_trace fun m hm => ⟨leavesStops_other (by simp) (by simp), ?_⟩
  cases hm
  refine Run.every_trace fun m hm => ⟨leavesStops_clear fun u hu => ?_, ?_⟩
  · obtain ⟨a, n, ws, hu⟩ := hu
    by_cases h0 : u = 0
    · subst h0
      cases hu
    · simp [Sessions.setCaller, Sessions.setWatcher, Function.update_of_ne h0] at hu
  refine Run.every_of_events fun e he m t => ?_
  simp only [List.mem_cons, List.not_mem_nil, or_false] at he
  rcases he with rfl | rfl | rfl | rfl <;> exact leavesStops_other (by simp) (by simp)

theorem sessions_kept_one : ∃ s, Run.exec sessionStep {} oneSession = .ok s ∧
    (∀ u ∈ Run.states (Run.trace sessionStep {} oneSession) s, WatchesOnce u) ∧
      Run.Every sessionStep ClosesOwn (Run.trace sessionStep {} oneSession) ∧
      Run.Every sessionStep StopsFound (Run.trace sessionStep {} oneSession) := by
  obtain ⟨s, hs, -⟩ := Run.exec_of_check sessionStep {} oneSession (fun _ => true) (by decide)
  exact ⟨s, hs, sessions_kept (Run.exec_steps hs) oneSession_leaves⟩

/-- A second stop returns while the first waits for the watcher that both have found. A start
between the two sections of a stop leaves two watchers, and when the stop goes on it closes
the descriptors of the new session. -/
theorem stop_overtaken :
    (∃ m s, Run.exec sessionStep {} [.start 0 {}, .callStop 0, .stopSection 0, .callStop 1] = .ok m ∧
      sessionStep m (.stopSection 1) = .ok s ∧ ¬ StopsFound m (.stopSection 1) s) ∧
    (∃ s, Run.exec sessionStep {} [.start 0 {}, .callStop 0, .stopSection 0, .start 1 {}] = .ok s ∧
      ¬ WatchesOnce s) ∧
    ∃ m s, Run.exec sessionStep {} [.start 0 {}, .turn 0, .callStop 0, .stopSection 0, .join 0,
        .wake 0 false, .start 1 {}, .joined 0] = .ok m ∧
      sessionStep m (.stopEnd 0) = .ok s ∧ ¬ ClosesOwn m (.stopEnd 0) s := by
  refine ⟨?_, ?_, ?_⟩
  · obtain ⟨m, hm, hobs⟩ := Run.exec_of_check sessionStep {}
      [.start 0 {}, .callStop 0, .stopSection 0, .callStop 1]
      (fun m => Run.check sessionStep m [.stopSection 1] fun s =>
        decide (s.callers 1 = .idle) && decide (0 ∈ (m.callers 1).found) && decide (s.Alive 0))
      (by decide)
    obtain ⟨s, hs, hobs⟩ := Run.of_check hobs
    simp only [Bool.and_eq_true, decide_eq_true_eq] at hobs
    obtain ⟨⟨hidle, hfound⟩, hlive⟩ := hobs
    exact ⟨m, s, hm, Run.exec_single hs, fun h => h 1 (.inl rfl) hidle 0 hfound hlive⟩
  · obtain ⟨s, hs, hobs⟩ := Run.exec_of_check sessionStep {}
      [.start 0 {}, .callStop 0, .stopSection 0, .start 1 {}]
      (fun s => s.statics.running && decide (s.Alive 0) && decide (s.Alive 1)) (by decide)
    simp only [Bool.and_eq_true, decide_eq_true_eq] at hobs
    obtain ⟨⟨hrun, h0⟩, h1⟩ := hobs
    refine ⟨s, hs, fun h => ?_⟩
    obtain ⟨w, fd, r, p, hwatch⟩ := h hrun
    have h01 := (hwatch.only 0 h0).trans (hwatch.only 1 h1).symm
    cases h01
  · obtain ⟨m, hm, hobs⟩ := Run.exec_of_check sessionStep {}
      [.start 0 {}, .turn 0, .callStop 0, .stopSection 0, .join 0, .wake 0 false, .start 1 {},
        .joined 0]
      (fun m => Run.check sessionStep m [.stopEnd 0] (fun _ => true) &&
        decide (m.callers 0 = .stopping .joined 1 [0]) && decide (m.statics.ifd = some 3) &&
        decide (m.statics.session 3 = 2)) (by decide)
    simp only [Bool.and_eq_true, decide_eq_true_eq] at hobs
    obtain ⟨⟨⟨hend, hcaller⟩, hifd⟩, hsession⟩ := hobs
    obtain ⟨s, hs, -⟩ := Run.of_check hend
    refine ⟨m, s, hm, Run.exec_single hs, fun h => ?_⟩
    have hown := ((h 0 _ _ _ rfl hcaller 3).1 (.inl hifd)).2
    rw [hsession] at hown
    cases hown

end Xylem.Watch

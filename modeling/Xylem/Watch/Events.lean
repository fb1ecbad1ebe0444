import Xylem.Model.Watch
import Xylem.Lib.Records
import Xylem.Lib.Run
import Mathlib.Data.List.ReduceOption

namespace Xylem.Watch

open Records

def inCloseWrite : BitVec 32 := 0x8
def inMovedTo : BitVec 32 := 0x80

def xyWatchMask : BitVec 32 := inCloseWrite ||| inMovedTo

/-- An event as the kernel has it. A full queue is reported under descriptor `-1`. -/
structure InotifyEvent where
  wd : Option Wd
  mask : BitVec 32
  cookie : BitVec 32 := 0
  name : List UInt8 := []
  wd_lt : ∀ w, wd = some w → w < 2 ^ 31
  name_lt : name.length < 2 ^ 32

structure EventHead where
  wd : Option Wd
  mask : BitVec 32
  len : Nat
  deriving DecidableEq, Repr

def eventSize : Nat := 16

def wdWord (wd : Option Wd) : Nat := wd.getD (2 ^ 32 - 1)
def wordWd (n : Nat) : Option Wd := if n = 2 ^ 32 - 1 then none else some n

def InotifyEvent.write (e : InotifyEvent) : List UInt8 :=
  bytes 4 (wdWord e.wd) ++ (bytes 4 e.mask.toNat ++ (bytes 4 e.cookie.toNat ++
    (bytes 4 e.name.length ++ e.name)))

/-- The event at the start of `data`, with the step that the loop takes over it. There is
none where the struct would reach beyond the buffer. -/
def readEvent (data : List UInt8) : Option (EventHead × Nat) :=
  if data.length < eventSize then none
  else
    let len := number ((data.drop 12).take 4)
    some (⟨wordWd (number (data.take 4)), .ofNat 32 (number ((data.drop 4).take 4)), len⟩,
      eventSize + len)

def InotifyEvent.head (e : InotifyEvent) : EventHead := ⟨e.wd, e.mask, e.name.length⟩

theorem wordWd_wdWord {wd : Option Nat} (h : ∀ w, wd = some w → w < 2 ^ 31) :
    wordWd (wdWord wd) = wd := by
  cases wd with
  | none => rfl
  | some w =>
      have hw : w < 2 ^ 31 := h w rfl
      exact if_neg (show w ≠ 2 ^ 32 - 1 by omega)

theorem wdWord_lt {wd : Option Nat} (h : ∀ w, wd = some w → w < 2 ^ 31) : wdWord wd < 256 ^ 4 := by
  cases wd with
  | none =>
      show 2 ^ 32 - 1 < 256 ^ 4
      omega
  | some w =>
      have hw : w < 2 ^ 31 := h w rfl
      show w < 256 ^ 4
      omega

theorem readEvent_write (e : InotifyEvent) (after : List UInt8) :
    readEvent (e.write ++ after) = some (e.head, e.write.length) := by
  have hlen : e.write.length = eventSize + e.name.length := by
    simp only [InotifyEvent.write, eventSize, List.length_append, bytes_length]
    omega
  have h0 : (e.write ++ after).take 4 = bytes 4 (wdWord e.wd) := by
    rw [InotifyEvent.write, List.append_assoc]
    exact List.take_left' (bytes_length _ _)
  have h4 : ((e.write ++ after).drop 4).take 4 = bytes 4 e.mask.toNat := by
    rw [InotifyEvent.write, List.append_assoc, List.drop_left' (bytes_length _ _), List.append_assoc]
    exact List.take_left' (bytes_length _ _)
  have h12 : ((e.write ++ after).drop 12).take 4 = bytes 4 e.name.length := by
    rw [InotifyEvent.write, List.append_assoc, show (12 : Nat) = 4 + (4 + 4) from rfl,
      ← List.drop_drop, List.drop_left' (bytes_length _ _), ← List.drop_drop, List.append_assoc,
      List.drop_left' (bytes_length _ _), List.append_assoc, List.drop_left' (bytes_length _ _),
      List.append_assoc]
    exact List.take_left' (bytes_length _ _)
  have hname : number (bytes 4 e.name.length) = e.name.length := number_bytes e.name_lt
  have hmask : number (bytes 4 e.mask.toNat) = e.mask.toNat := number_bytes e.mask.isLt
  have hwd : number (bytes 4 (wdWord e.wd)) = wdWord e.wd := number_bytes (wdWord_lt e.wd_lt)
  have hlong : ¬ (e.write ++ after).length < eventSize := by
    rw [List.length_append, hlen]
    omega
  rw [readEvent, if_neg hlong, h0, h4, h12, hwd, hmask, hname, hlen, wordWd_wdWord e.wd_lt,
    BitVec.ofNat_toNat, BitVec.setWidth_eq]
  rfl

def eventFormat : Format InotifyEvent EventHead where
  write := InotifyEvent.write
  head := InotifyEvent.head
  read := readEvent
  read_write := readEvent_write
  write_ne e h := by
    have := congrArg List.length h
    simp [InotifyEvent.write] at this

/-- The watcher between `select` and the end of its inner loop: the static variables, its
local ones, and as history the paths it has given to `xy_reload`. -/
structure Batch where
  statics : Statics
  evbuf : List UInt8
  len : Nat := 0
  p : Nat := 0
  fnameCopy : Option String := none
  reloads : List String := []

inductive BatchEvent where
  /-- other threads have been at the static variables -/
  | others (s : Statics)
  /-- `read` has stored `data` -/
  | read (data : List UInt8)
  /-- a turn of the loop up to its second section; `noMem` says that `strdup` fails -/
  | turn (noMem : Bool)
  /-- the second section -/
  | reload

/-- Why the watcher cannot go on: it would read beyond its buffer, or the event is not its next. -/
inductive BatchFault where
  | outOfBounds
  | refused
  deriving DecidableEq, Repr

namespace Batch

def turn (s : Batch) (noMem : Bool) : Except BatchFault Batch :=
  match readEvent (s.evbuf.drop s.p) with
  | none => .error .outOfBounds
  | some (ev, size) =>
      let s := { s with p := s.p + size }
      if ev.mask &&& xyWatchMask = 0 then .ok s
      else
        match s.statics.entries.findIdx? fun e => e.wd = ev.wd with
        | none => .ok s
        | some idx =>
            .ok { s with
              statics := if ev.mask &&& inMovedTo ≠ 0 then s.statics.entryRewatch idx else s.statics
              fnameCopy := if noMem then none else s.statics.entries[idx]?.map (·.fname) }

end Batch

def batchStep (s : Batch) : BatchEvent → Except BatchFault Batch
  | .others t => .ok { s with statics := t }
  | .read data =>
      if s.fnameCopy = none ∧ s.len ≤ s.p ∧ data.length ≤ s.evbuf.length then
        .ok { s with evbuf := data ++ s.evbuf.drop data.length, len := data.length, p := 0 }
      else .error .refused
  | .turn noMem =>
      if s.fnameCopy = none ∧ s.p < s.len then s.turn noMem else .error .refused
  | .reload =>
      match s.fnameCopy with
      | some fname => .ok { s with fnameCopy := none, reloads := s.reloads ++ [fname] }
      | none => .error .refused

/-! ### What the watcher makes of the events -/

def readsOf (tr : List (Batch × BatchEvent)) : List (List UInt8) :=
  tr.filterMap fun x => match x.2 with
    | .read data => some data
    | _ => none

/-- The turns of a run: the static variables each began with, and whether `strdup` failed. -/
def turnsOf (tr : List (Batch × BatchEvent)) : List (Statics × Bool) :=
  tr.filterMap fun x => match x.2 with
    | .turn noMem => some (x.1.statics, noMem)
    | _ => none

/-- The path to reload for an event: the first of those stored under its descriptor. -/
def answer (x : Statics × Bool) (ev : InotifyEvent) : Option String :=
  if ev.mask &&& xyWatchMask = 0 ∨ x.2 then none
  else (x.1.entries.find? fun e => e.wd = ev.wd).map (·.fname)

/-- The events `evs` have been read so far; the turns have taken them in order, and what
they have not come to is still in the buffer. -/
structure InOrder (evs : List InotifyEvent) (tr : List (Batch × BatchEvent)) (s : Batch) : Prop where
  taken : (turnsOf tr).length ≤ evs.length
  left : eventFormat.At s.evbuf s.len s.p (evs.drop (turnsOf tr).length)
  reloads : s.reloads ++ s.fnameCopy.toList =
    (List.zipWith answer (turnsOf tr) evs).reduceOption

section
variable {tr : List (Batch × BatchEvent)} {s t : Batch} {evs : List InotifyEvent}

theorem InOrder.more (h : InOrder evs tr s) : s.p < s.len ↔ (turnsOf tr).length < evs.length := by
  rw [h.left.more, ne_eq, List.drop_eq_nil_iff, Nat.not_le]

theorem find_map_findIdx (l : List WatchEntry) (q : WatchEntry → Bool) :
    (l.find? q).map (·.fname) = (l.findIdx? q).bind fun i => l[i]?.map (·.fname) := by
  induction l with
  | nil => rfl
  | cons a l ih =>
      cases hq : q a with
      | true => simp [List.findIdx?_cons, hq]
      | false =>
          rw [List.find?_cons, hq, List.findIdx?_cons, hq, ih]
          simp only [Bool.false_eq_true, if_false]
          cases l.findIdx? q <;> rfl

theorem zipWith_snoc {α β γ : Type} (f : α → β → γ) {l : List α} (a : α) {m : List β}
    (h : l.length < m.length) :
    List.zipWith f (l ++ [a]) m = List.zipWith f l m ++ [f a m[l.length]] := by
  induction l generalizing m with
  | nil =>
      cases m with
      | nil => cases h
      | cons b m => simp
  | cons c l ih =>
      cases m with
      | nil => cases h
      | cons b m =>
          rw [List.cons_append, List.zipWith_cons_cons, ih (Nat.lt_of_succ_lt_succ h)]
          rfl

theorem turn_spec {ev : InotifyEvent} {size : Nat} (noMem : Bool)
    (hc : s.fnameCopy = none) (hr : readEvent (s.evbuf.drop s.p) = some (ev.head, size)) :
    ∃ t, s.turn noMem = .ok t ∧ t.evbuf = s.evbuf ∧ t.len = s.len ∧ t.p = s.p + size ∧
      t.reloads = s.reloads ∧ t.fnameCopy = answer (s.statics, noMem) ev := by
  have hwd : ev.head.wd = ev.wd := rfl
  have hmask : ev.head.mask = ev.mask := rfl
  unfold Batch.turn
  rw [hr]
  dsimp only
  rw [hwd, hmask]
  by_cases hm : ev.mask &&& xyWatchMask = 0
  · rw [if_pos hm]
    exact ⟨_, rfl, rfl, rfl, rfl, rfl, by rw [answer, if_pos (.inl hm)]; exact hc⟩
  · rw [if_neg hm]
    have ha : noMem = false → answer (s.statics, noMem) ev =
        (s.statics.entries.findIdx? fun e => e.wd = ev.wd).bind fun i =>
          s.statics.entries[i]?.map (·.fname) := by
      intro hn
      have hgo : ¬ (ev.mask &&& xyWatchMask = 0 ∨ noMem = true) := fun h =>
        h.elim hm fun h => Bool.noConfusion (hn.symm.trans h)
      rw [answer, if_neg hgo, find_map_findIdx]
    have hnone : noMem = true → answer (s.statics, noMem) ev = none := fun hn => by
      rw [answer, if_pos (.inr hn)]
    cases hf : s.statics.entries.findIdx? fun e => e.wd = ev.wd with
    | none =>
        refine ⟨_, rfl, rfl, rfl, rfl, rfl, ?_⟩
        cases noMem with
        | true => rw [hnone rfl]; exact hc
        | false => rw [ha rfl, hf]; exact hc
    | some idx =>
        refine ⟨_, rfl, rfl, rfl, rfl, rfl, ?_⟩
        cases noMem with
        | true => exact (hnone rfl).symm
        | false => rw [ha rfl, hf]; rfl

/-- For an event the mask lets through, the first section of a turn is `watcherEvent`. -/
theorem turn_watcherEvent {ev : InotifyEvent} {size : Nat} {w : Wd}
    (hr : readEvent (s.evbuf.drop s.p) = some (ev.head, size)) (hwd : ev.wd = some w)
    (hm : ev.mask &&& xyWatchMask ≠ 0) (hc : s.fnameCopy = none) :
    s.turn false = .ok { s with
      p := s.p + size
      statics := (s.statics.watcherEvent w (decide (ev.mask &&& inMovedTo ≠ 0))).1
      fnameCopy := (s.statics.watcherEvent w (decide (ev.mask &&& inMovedTo ≠ 0))).2 } := by
  have hmask : ev.head.mask = ev.mask := rfl
  have hwd' : ev.head.wd = some w := hwd
  unfold Batch.turn Statics.watcherEvent Statics.entryFindByWd
  rw [hr]
  dsimp only
  rw [hwd', hmask, if_neg hm]
  cases s.statics.entries.findIdx? fun e => e.wd = some w with
  | none =>
      dsimp only
      rw [hc]
  | some idx => simp only [decide_eq_true_eq, Bool.false_eq_true, if_false]

theorem InOrder.turn (h : InOrder evs tr s) (hc : s.fnameCopy = none) (hp : s.p < s.len)
    (noMem : Bool) :
    ∃ t, s.turn noMem = .ok t ∧ InOrder evs (tr ++ [(s, .turn noMem)]) t := by
  have hlt := h.more.mp hp
  have hdrop : evs.drop (turnsOf tr).length =
      evs[(turnsOf tr).length] :: evs.drop ((turnsOf tr).length + 1) := List.drop_eq_getElem_cons hlt
  have hl := h.left
  rw [hdrop] at hl
  obtain ⟨t, ht, hbuf, hlen, hpt, hre, hcopy⟩ := turn_spec noMem hc hl.read
  have hts : turnsOf (tr ++ [(s, .turn noMem)]) = turnsOf tr ++ [(s.statics, noMem)] := by
    simp [turnsOf]
  refine ⟨t, ht, ?_, ?_, ?_⟩
  · rw [hts, List.length_append]
    exact hlt
  · rw [hts, List.length_append, hbuf, hlen, hpt]
    exact hl.next
  · have hz : List.zipWith answer (turnsOf tr ++ [(s.statics, noMem)]) evs =
        List.zipWith answer (turnsOf tr) evs ++
          [answer (s.statics, noMem) evs[(turnsOf tr).length]] := zipWith_snoc answer _ hlt
    have hold := h.reloads
    rw [hc, Option.toList_none, List.append_nil] at hold
    rw [hts, hz, List.reduceOption_append, ← hold, hre, hcopy]
    cases answer (s.statics, noMem) evs[(turnsOf tr).length] <;> rfl

/-- One step. A `read` brings the events `new`, any other step none. -/
theorem InOrder.next (h : InOrder evs tr s) {e : BatchEvent} (hs : batchStep s e = .ok t)
    {new : List InotifyEvent} (hread : ∀ data, e = .read data → data = eventFormat.writeAll new)
    (hother : (∀ data, e ≠ .read data) → new = []) : InOrder (evs ++ new) (tr ++ [(s, e)]) t := by
  cases e with
  | others x =>
      obtain rfl := hother fun data hd => by cases hd
      cases hs
      have hts : turnsOf (tr ++ [(s, .others x)]) = turnsOf tr := by simp [turnsOf]
      rw [List.append_nil]
      exact ⟨hts ▸ h.taken, hts ▸ h.left, hts ▸ h.reloads⟩
  | reload =>
      obtain rfl := hother fun data hd => by cases hd
      have hts : turnsOf (tr ++ [(s, .reload)]) = turnsOf tr := by simp [turnsOf]
      have hold := h.reloads
      rw [batchStep] at hs
      rw [List.append_nil]
      cases hc : s.fnameCopy with
      | none =>
          rw [hc] at hs
          cases hs
      | some fname =>
          rw [hc] at hs hold
          cases hs
          exact ⟨hts ▸ h.taken, hts ▸ h.left, by rw [hts, ← hold]; exact List.append_nil _⟩
  | turn noMem =>
      obtain rfl := hother fun data hd => by cases hd
      rw [batchStep] at hs
      split at hs
      · rename_i hgo
        obtain ⟨u, hu, hok⟩ := h.turn hgo.1 hgo.2 noMem
        obtain rfl := Except.ok.inj (hu.symm.trans hs)
        rw [List.append_nil]
        exact hok
      · cases hs
  | read data =>
      obtain rfl := hread data rfl
      rw [batchStep] at hs
      split at hs
      · rename_i hgo
        cases hs
        -- the inner loop is left with an empty buffer only
        have hall : (turnsOf tr).length = evs.length :=
          le_antisymm h.taken (Nat.not_lt.mp fun hlt => Nat.not_lt.mpr hgo.2.1 (h.more.mpr hlt))
        have hts : turnsOf (tr ++ [(s, .read (eventFormat.writeAll new))]) = turnsOf tr := by
          simp [turnsOf]
        refine ⟨?_, ?_, ?_⟩
        · rw [hts, hall, List.length_append]
          exact Nat.le_add_right _ _
        · rw [hts, hall, List.drop_left]
          exact Format.at_start new _
        · have hz : List.zipWith answer (turnsOf tr) (evs ++ new) =
              List.zipWith answer (turnsOf tr) evs := by
            conv_lhs => rw [← List.append_nil (turnsOf tr), List.zipWith_append hall]
            rw [List.zipWith_nil_left, List.append_nil]
          rw [hts, hz]
          exact h.reloads
      · cases hs

theorem inOrder_run {hands : List (List InotifyEvent)} {st : Statics} {buf : List UInt8}
    (h : Run.Steps batchStep { statics := st, evbuf := buf } tr s)
    (hr : readsOf tr = hands.map eventFormat.writeAll) : InOrder hands.flatten tr s := by
  generalize hu : ({ statics := st, evbuf := buf } : Batch) = u at h
  induction h generalizing hands with
  | nil =>
      subst hu
      obtain rfl : hands = [] := List.map_eq_nil_iff.mp hr.symm
      exact ⟨Nat.le_refl _, Format.at_start [] buf, rfl⟩
  | @snoc m t tr e _ hs ih =>
      have happ : readsOf (tr ++ [(m, e)]) = readsOf tr ++ readsOf [(m, e)] :=
        List.filterMap_append
      rw [happ] at hr
      obtain ⟨old, new, rfl, ho, hn⟩ := List.map_eq_append_iff.mp hr.symm
      rw [List.flatten_append]
      refine (ih ho.symm).next hs (fun data hd => ?_) (fun hd => ?_)
      · subst hd
        obtain ⟨x, rest, rfl, hx, hrest⟩ := List.map_eq_cons_iff.mp hn
        obtain rfl := List.map_eq_nil_iff.mp hrest
        rw [List.flatten_singleton]
        exact hx.symm
      · have hnil : readsOf [(m, e)] = [] := by
          cases e with
          | read data => exact absurd rfl (hd data)
          | _ => rfl
        rw [hnil] at hn
        obtain rfl := List.map_eq_nil_iff.mp hn
        rfl

/-- Whatever the other threads do in between: the turns of the loop take the events that
`read` has brought, each once and in the order of their arrival; the loop ends when it has
taken all of them; it never reads beyond its buffer; and the paths it gives to `xy_reload`
are those stored first under the events' descriptors when their turns came. -/
theorem events_answered {hands : List (List InotifyEvent)} {st : Statics} {buf : List UInt8}
    (h : Run.Steps batchStep { statics := st, evbuf := buf } tr s)
    (hr : readsOf tr = hands.map eventFormat.writeAll) :
    (turnsOf tr).length ≤ hands.flatten.length ∧
      (s.p < s.len ↔ (turnsOf tr).length < hands.flatten.length) ∧
      s.reloads ++ s.fnameCopy.toList =
        (List.zipWith answer (turnsOf tr) hands.flatten).reduceOption ∧
      ∀ noMem, batchStep s (.turn noMem) ≠ .error .outOfBounds := by
  have hok := inOrder_run h hr
  refine ⟨hok.taken, hok.more, hok.reloads, fun noMem => ?_⟩
  rw [batchStep]
  split
  · rename_i hgo
    obtain ⟨t, ht, -⟩ := hok.turn hgo.1 hgo.2 noMem
    rw [ht]
    exact fun hf => by cases hf
  · exact fun hf => by cases hf

end

/-- A file moved into place, a queue that has run full, and a file closed after writing. -/
def sampleEvents : List InotifyEvent :=
  [⟨some 1, inMovedTo, 0, [97, 0], by simp, by decide⟩, ⟨none, 0x4000, 0, [], by simp, by decide⟩,
    ⟨some 1, inCloseWrite, 0, [], by simp, by decide⟩]

def sampleBatch : Batch :=
  { statics := { entries := [{ fname := "a", wd := some 1 }] }, evbuf := List.replicate 64 0 }

def sampleBatchEvents : List BatchEvent :=
  [.read (eventFormat.writeAll sampleEvents), .turn false, .reload, .turn false, .turn false]

theorem events_answered_three : ∃ s, Run.exec batchStep sampleBatch sampleBatchEvents = .ok s ∧
    s.len ≤ s.p ∧ s.reloads ++ s.fnameCopy.toList = ["a", "a"] := by
  have hrun : Run.check batchStep sampleBatch sampleBatchEvents
    (fun s => decide (s.len ≤ s.p)) = true := by
    decide
  obtain ⟨s, hs, hp⟩ := Run.of_check hrun
  have hreads : readsOf (Run.trace batchStep sampleBatch sampleBatchEvents) =
      [sampleEvents].map eventFormat.writeAll := rfl
  obtain ⟨-, -, h, -⟩ := events_answered (Run.exec_steps hs) hreads
  exact ⟨s, hs, of_decide_eq_true hp, h⟩

end Xylem.Watch

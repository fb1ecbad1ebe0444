import Xylem.Model.Watch
import Xylem.Lib.Run

namespace Xylem.Watch

def Statics.xyWatchStop (s : Statics) : Statics :=
  let (s, joins) := s.watchStop
  if joins then s.watchStopped else s

inductive PathEvent where
  | add (fname : Option String) (noMem : Bool)
  | remove (fname : Option String)
  | start (ch : StartChoice)
  | stop
  /-- a file comes into being; it may be a link to one that is there -/
  | create (path : String) (n : Inode)
  /-- the watcher handles an event -/
  | event (wd : Wd) (movedTo : Bool)
  deriving DecidableEq, Repr

def pathStep (s : Statics) : PathEvent → Res Statics
  | .add fname noMem => .ok (s.watchAdd fname noMem).1
  | .remove fname => .ok (s.watchRemove fname)
  | .start ch => .ok (s.watchStart ch).1
  | .stop => .ok s.xyWatchStop
  | .create path n =>
      if s.inode path = none then .ok { s with inode := Function.update s.inode path (some n) }
      else .error .refused
  | .event wd movedTo =>
      if s.running then .ok (s.watcherEvent wd movedTo).1 else .error .refused

namespace Statics

def stored (s : Statics) : List String := s.entries.map (·.fname)

/-- The kernel watches the file of this entry under the entry's descriptor. -/
def Live (s : Statics) (e : WatchEntry) : Prop :=
  ∃ fd wd n, s.ifd = some fd ∧ s.isOpen fd = true ∧ e.wd = some wd ∧ s.file e.fname = some n ∧
    (wd, n) ∈ s.watches fd

/-- `t` is `s` with more watches and other descriptors in the entries. -/
def Rewatched (s t : Statics) : Prop :=
  ∃ w n es, t = { s with watches := w, wdNext := n, entries := es } ∧
    es.map (·.fname) = s.entries.map (·.fname) ∧ ∀ fd, s.watches fd ⊆ w fd

section
variable {s t u : Statics}

theorem Rewatched.refl (s : Statics) : Rewatched s s :=
  ⟨s.watches, s.wdNext, s.entries, rfl, rfl, fun _ => List.Subset.refl _⟩

theorem Rewatched.trans (h : Rewatched s t) (k : Rewatched t u) : Rewatched s u := by
  obtain ⟨w, n, es, rfl, hes, hw⟩ := h
  obtain ⟨w', n', es', rfl, hes', hw'⟩ := k
  exact ⟨w', n', es', rfl, hes'.trans hes, fun fd x hx => hw' fd (hw fd hx)⟩

theorem Rewatched.live (h : Rewatched s t) {e : WatchEntry} (hl : s.Live e) : t.Live e := by
  obtain ⟨w, n, es, rfl, -, hw⟩ := h
  obtain ⟨fd, wd, i, h1, h2, h3, h4, h5⟩ := hl
  exact ⟨fd, wd, i, h1, h2, h3, h4, hw fd h5⟩

theorem inotifyAddWatch_spec {fd : Fd} (path : String) (ho : s.isOpen fd = true) :
    ∃ w n, (s.inotifyAddWatch fd path).1 = { s with watches := w, wdNext := n } ∧
      (∀ fd, s.watches fd ⊆ w fd) ∧
      ∀ i, s.inode path = some i →
        ∃ wd, (s.inotifyAddWatch fd path).2 = some wd ∧ (wd, i) ∈ w fd := by
  unfold inotifyAddWatch
  cases hi : s.inode path with
  | none =>
      refine ⟨s.watches, s.wdNext, ?_, fun _ => List.Subset.refl _, fun i h => by cases h⟩
      simp only [ho]
  | some i =>
      simp only [ho]
      cases hf : (s.watches fd).find? fun x => decide (x.2 = i) with
      | some x =>
          refine ⟨s.watches, s.wdNext, rfl, fun _ => List.Subset.refl _, fun j hj => ?_⟩
          cases hj
          have hx : x.2 = i := by simpa using List.find?_some hf
          exact ⟨x.1, rfl, hx ▸ List.mem_of_find?_eq_some hf⟩
      | none =>
          refine ⟨_, _, rfl, fun fd' => ?_, fun j hj => ?_⟩
          · by_cases h : fd' = fd
            · subst h
              rw [Function.update_self]
              exact List.subset_cons_self _ _
            · rw [Function.update_of_ne h]
              exact List.Subset.refl _
          · cases hj
            refine ⟨s.wdNext fd, rfl, ?_⟩
            rw [Function.update_self]
            exact List.mem_cons_self

theorem map_set {es : List WatchEntry} {i : Nat} {e e' : WatchEntry} (he : es[i]? = some e)
    (hf : e'.fname = e.fname) : (es.set i e').map (·.fname) = es.map (·.fname) := by
  rw [List.map_set, hf]
  refine List.ext_getElem? fun j => ?_
  by_cases hj : i = j
  · subst hj
    obtain ⟨hlt, -⟩ := List.getElem?_eq_some_iff.mp he
    rw [List.getElem?_set_self (by rwa [List.length_map]), List.getElem?_map, he]
    rfl
  · rw [List.getElem?_set_ne hj]

theorem entryRewatch_rewatched {fd : Fd} (hfd : s.ifd = some fd) (ho : s.isOpen fd = true) (i : Nat) :
    Rewatched s (s.entryRewatch i) := by
  unfold entryRewatch
  rw [hfd]
  cases he : s.entries[i]? with
  | none => exact .refl s
  | some e =>
      cases hp : makeSoPath e.fname with
      | none =>
          simp only [hp]
          exact .refl s
      | some path =>
          obtain ⟨w, n, hs, hw, -⟩ := inotifyAddWatch_spec path ho
          simp only [hp, hs]
          exact ⟨w, n, _, rfl, map_set he rfl, hw⟩

theorem inotifyAddWatch_entries (s : Statics) (fd : Fd) (path : String) :
    (s.inotifyAddWatch fd path).1.entries = s.entries := by
  unfold inotifyAddWatch
  split
  · split <;> rfl
  · rfl

theorem entryRewatch_other {i j : Nat} (h : j ≠ i) : (s.entryRewatch i).entries[j]? = s.entries[j]? := by
  unfold entryRewatch
  split
  · rename_i fd e hfd he
    split
    · rfl
    · rename_i path hp
      show ((s.inotifyAddWatch fd path).1.entries.set i _)[j]? = s.entries[j]?
      rw [inotifyAddWatch_entries, List.getElem?_set_ne h.symm]
  · rfl

theorem entryRewatch_live {fd : Fd} (hfd : s.ifd = some fd) (ho : s.isOpen fd = true) {i : Nat}
    {e e' : WatchEntry} (he : s.entries[i]? = some e) (hfile : s.file e.fname ≠ none)
    (he' : (s.entryRewatch i).entries[i]? = some e') : (s.entryRewatch i).Live e' := by
  obtain ⟨n, hn⟩ := Option.ne_none_iff_exists'.mp hfile
  obtain ⟨path, hp, hpn⟩ := Option.bind_eq_some_iff.mp hn
  obtain ⟨w, next, hs, -, hw⟩ := inotifyAddWatch_spec path ho
  obtain ⟨wd, hwd, hmem⟩ := hw n hpn
  have hr : s.entryRewatch i =
      { s with watches := w, wdNext := next, entries := s.entries.set i { e with wd := some wd } } := by
    simp only [entryRewatch, hfd, he, hp, hs, hwd]
  rw [hr] at he' ⊢
  have hlt : i < s.entries.length := (List.getElem?_eq_some_iff.mp he).1
  rw [List.getElem?_set_self hlt] at he'
  cases he'
  exact ⟨fd, wd, n, hfd, ho, rfl, hn, hmem⟩

theorem rewatchAll_spec {fd : Fd} (hfd : s.ifd = some fd) (ho : s.isOpen fd = true) (k : Nat) :
    Rewatched s ((List.range k).foldl entryRewatch s) ∧
      ∀ j < k, ∀ e, ((List.range k).foldl entryRewatch s).entries[j]? = some e →
        s.file e.fname ≠ none → ((List.range k).foldl entryRewatch s).Live e := by
  induction k with
  | zero => exact ⟨.refl s, fun j hj => absurd hj (Nat.not_lt_zero j)⟩
  | succ k ih =>
      obtain ⟨hr, hl⟩ := ih
      rw [List.range_succ, List.foldl_append, List.foldl_cons, List.foldl_nil]
      generalize (List.range k).foldl entryRewatch s = t at hr hl
      have ht : t.ifd = some fd ∧ t.isOpen fd = true ∧ t.file = s.file := by
        obtain ⟨w, n, es, rfl, -, -⟩ := hr
        exact ⟨hfd, ho, rfl⟩
      obtain ⟨h1, h2, h3⟩ := ht
      have hk := entryRewatch_rewatched h1 h2 k
      refine ⟨hr.trans hk, fun j hj e he hfile => ?_⟩
      by_cases hjk : j = k
      · subst hjk
        cases hold : t.entries[j]? with
        | none =>
            rw [entryRewatch, h1, hold] at he
            rw [hold] at he
            cases he
        | some e' =>
            have hname : e.fname = e'.fname := by
              obtain ⟨w, n, es, heq, hes, -⟩ := hk
              rw [heq] at he
              have h4 := congrArg (·[j]?) hes
              simp only [List.getElem?_map, he, hold, Option.map_some] at h4
              exact Option.some.inj h4
            refine entryRewatch_live h1 h2 hold ?_ he
            rw [h3, ← hname]
            exact hfile
      · rw [entryRewatch_other hjk] at he
        exact hk.live (hl j (by omega) e he hfile)

/-- Rewatching one entry keeps the others live, and makes this one live if its file is there. -/
theorem entryRewatch_all {fd : Fd} (hfd : s.ifd = some fd) (ho : s.isOpen fd = true) {i : Nat}
    {P : String → Prop}
    (hother : ∀ j e, j ≠ i → s.entries[j]? = some e → P e.fname → s.Live e)
    (hself : ∀ e, s.entries[i]? = some e → P e.fname → s.file e.fname ≠ none) :
    ∀ e ∈ (s.entryRewatch i).entries, P e.fname → (s.entryRewatch i).Live e := by
  intro e he hP
  have hr := entryRewatch_rewatched hfd ho i
  obtain ⟨j, hj⟩ := List.mem_iff_getElem?.mp he
  by_cases hji : j = i
  · subst hji
    have hnames : (s.entryRewatch j).entries.map (·.fname) = s.entries.map (·.fname) := by
      obtain ⟨w, n, es, heq, hes, -⟩ := hr
      rw [heq]
      exact hes
    have hget := congrArg (·[j]?) hnames
    simp only [List.getElem?_map, hj, Option.map_some] at hget
    obtain ⟨e', he', hname⟩ := Option.map_eq_some_iff.mp hget.symm
    exact entryRewatch_live hfd ho he' (hself e' he' (hname ▸ hP)) hj
  · have hold := (entryRewatch_other hji).symm.trans hj
    exact hr.live (hother j e hji hold hP)

theorem mem_stored {f : String} : f ∈ s.stored ↔ ∃ e ∈ s.entries, e.fname = f := List.mem_map

theorem entryFind_none {f : String} : s.entryFind f = none ↔ f ∉ s.stored := by
  rw [entryFind, List.findIdx?_eq_none_iff, mem_stored]
  simp

/-- `xy_watch_remove` of a stored path takes out its entry and its watch. -/
theorem watchRemove_spec (hn : s.stored.Nodup) (f : String) :
    f ∉ s.stored ∧ s.watchRemove (some f) = s ∨
      ∃ e w, e ∈ s.entries ∧ e.fname = f ∧
        s.watchRemove (some f) =
          { s with watches := w, entries := s.entries.filter fun x => x.fname ≠ f } ∧
        ∀ fd wd i, (wd, i) ∈ s.watches fd → e.wd ≠ some wd → (wd, i) ∈ w fd := by
  cases hf : s.entryFind f with
  | none =>
      refine .inl ⟨entryFind_none.mp hf, ?_⟩
      simp only [watchRemove, Option.bind_some, hf]
  | some idx =>
      obtain ⟨hlt, hname, -⟩ := List.findIdx?_eq_some_iff_getElem.mp hf
      have hname : s.entries[idx].fname = f := by simpa using hname
      have hsplit : s.entries = s.entries.take idx ++ s.entries[idx] :: s.entries.drop (idx + 1) := by
        rw [List.getElem_cons_drop, List.take_append_drop]
      have herase : s.entries.eraseIdx idx = s.entries.filter fun x => x.fname ≠ f := by
        have hnd := hn
        rw [stored, hsplit, List.map_append, List.map_cons, hname] at hnd
        obtain ⟨-, hb, hd⟩ := List.nodup_append.mp hnd
        have ha : ∀ x ∈ s.entries.take idx, x.fname ≠ f := fun x hx hxf =>
          hd f (hxf ▸ List.mem_map_of_mem hx) f List.mem_cons_self rfl
        have hb : ∀ x ∈ s.entries.drop (idx + 1), x.fname ≠ f := fun x hx hxf =>
          (List.nodup_cons.mp hb).1 (hxf ▸ List.mem_map_of_mem hx)
        conv_rhs => rw [hsplit]
        rw [List.eraseIdx_eq_take_drop_succ, List.filter_append,
          List.filter_cons_of_neg (by simp [hname]),
          List.filter_eq_self.mpr (by simpa using ha), List.filter_eq_self.mpr (by simpa using hb)]
      refine .inr ⟨s.entries[idx], ?_⟩
      have hget : s.entries[idx]? = some s.entries[idx] := List.getElem?_eq_getElem hlt
      have hmem : s.entries[idx] ∈ s.entries := List.getElem_mem hlt
      cases hfd : s.ifd with
      | none =>
          refine ⟨s.watches, hmem, hname, ?_, fun _ _ _ h _ => h⟩
          simp only [watchRemove, Option.bind_some, hf, hfd, herase]
      | some fd =>
          cases hwd : s.entries[idx].wd with
          | none =>
              refine ⟨s.watches, hmem, hname, ?_, fun _ _ _ h _ => h⟩
              simp only [watchRemove, Option.bind_some, hf, hfd, hget, hwd, herase]
          | some wd =>
              refine ⟨Function.update s.watches fd ((s.watches fd).filter fun x => x.1 ≠ wd), hmem,
                hname, ?_, fun fd' wd' i h hne => ?_⟩
              · simp only [watchRemove, Option.bind_some, hf, hfd, hget, hwd, herase, inotifyRmWatch]
              · by_cases hfd' : fd' = fd
                · subst hfd'
                  rw [Function.update_self]
                  refine List.mem_filter.mpr ⟨h, ?_⟩
                  have : wd' ≠ wd := fun he => hne (congrArg some he.symm)
                  simpa using this
                · rw [Function.update_of_ne hfd']
                  exact h

theorem watchAdd_spec (f : String) (noMem : Bool) :
    (f ∈ s.stored ∧ s.watchAdd (some f) noMem = (s, 0)) ∨
      (f ∉ s.stored ∧ s.watchAdd (some f) noMem = (s, -1)) ∨
      (f ∉ s.stored ∧ s.entries.length < xyWatchMax ∧
        s.watchAdd (some f) noMem = (if s.ifd.isSome then
          ({ s with entries := s.entries ++ [{ fname := f }] } : Statics).entryRewatch s.entries.length
          else { s with entries := s.entries ++ [{ fname := f }] }, 0)) := by
  cases hf : s.entryFind f with
  | some idx =>
      refine .inl ⟨?_, ?_⟩
      · by_contra hnot
        rw [entryFind_none.mpr hnot] at hf
        cases hf
      · simp only [watchAdd, hf]
  | none =>
      right
      by_cases hfull : xyWatchMax ≤ s.entries.length
      · refine .inl ⟨entryFind_none.mp hf, ?_⟩
        simp only [watchAdd, hf, if_pos hfull]
      · cases noMem with
        | true =>
            refine .inl ⟨entryFind_none.mp hf, ?_⟩
            simp only [watchAdd, hf, if_neg hfull, if_true]
        | false =>
            refine .inr ⟨entryFind_none.mp hf, not_le.mp hfull, ?_⟩
            simp only [watchAdd, hf, if_neg hfull]
            rfl

theorem closeAll_eq (s : Statics) :
    ∃ o, s.closeAll = { s with isOpen := o, ifd := none, pipeR := none, pipeW := none } := by
  have hclose : ∀ (u : Statics) fd, ∃ o, u.closeFd fd = { u with isOpen := o } := by
    intro u fd
    cases fd with
    | none => exact ⟨u.isOpen, rfl⟩
    | some fd => exact ⟨_, rfl⟩
  unfold closeAll
  obtain ⟨o1, h1⟩ := hclose s s.ifd
  rw [h1]
  obtain ⟨o2, h2⟩ := hclose { s with isOpen := o1 } s.pipeR
  rw [h2]
  obtain ⟨o3, h3⟩ := hclose { s with isOpen := o2 } s.pipeW
  rw [h3]
  exact ⟨o3, rfl⟩

/-- A start that fails leaves no instance; one that succeeds rewatches every entry. -/
theorem watchStart_spec (hr : s.running = false) (ch : StartChoice) :
    let t := (s.watchStart ch).1
    t.stored = s.stored ∧ t.inode = s.inode ∧ ((t.running = false ∧ t.ifd = none) ∨
      (t.running = true ∧ (∃ fd, t.ifd = some fd ∧ t.isOpen fd = true) ∧
        ∀ e ∈ t.entries, s.file e.fname ≠ none → t.Live e)) := by
  have hnot : ¬ s.running = true := by simp [hr]
  simp only [watchStart, if_neg hnot]
  by_cases h1 : ch.noInotify = true
  · rw [if_pos h1]
    exact ⟨rfl, rfl, .inl ⟨hr, rfl⟩⟩
  rw [if_neg h1]
  by_cases h2 : ch.noPipe = true
  · rw [if_pos h2]
    exact ⟨rfl, rfl, .inl ⟨hr, rfl⟩⟩
  rw [if_neg h2]
  have hu : ∃ fd, (({ s.openFd.1 with ifd := some s.openFd.2 } : Statics).openPipe).ifd = some fd ∧
      (({ s.openFd.1 with ifd := some s.openFd.2 } : Statics).openPipe).isOpen fd = true := by
    refine ⟨s.fdNext, rfl, ?_⟩
    simp [openPipe, openFd, Function.update_apply]
  have hinode : (({ s.openFd.1 with ifd := some s.openFd.2 } : Statics).openPipe).inode = s.inode := rfl
  have hents :
    (({ s.openFd.1 with ifd := some s.openFd.2 } : Statics).openPipe).entries = s.entries := rfl
  have hrun : (({ s.openFd.1 with ifd := some s.openFd.2 } : Statics).openPipe).running = false := hr
  have hlen : s.openFd.1.entries.length = s.entries.length := rfl
  generalize ({ s.openFd.1 with ifd := some s.openFd.2 } : Statics).openPipe = u at hu hinode hents hrun
  obtain ⟨fd, hfd, ho⟩ := hu
  obtain ⟨hrw, hlive⟩ := rewatchAll_spec hfd ho u.entries.length
  generalize (List.range u.entries.length).foldl entryRewatch u = v at hrw hlive
  have hstored : v.stored = s.stored := by
    obtain ⟨w, n, es, rfl, hes, -⟩ := hrw
    exact hes.trans (congrArg _ hents)
  have hv : v.ifd = some fd ∧ v.isOpen fd = true ∧ v.inode = s.inode ∧ v.running = false := by
    obtain ⟨w, n, es, rfl, -, -⟩ := hrw
    exact ⟨hfd, ho, hinode, hrun⟩
  by_cases h3 : ch.noThread = true
  · rw [if_pos h3]
    obtain ⟨o, heq⟩ := closeAll_eq v
    rw [heq]
    exact ⟨hstored, hv.2.2.1, .inl ⟨hv.2.2.2, rfl⟩⟩
  · rw [if_neg h3]
    refine ⟨hstored, hv.2.2.1, .inr ⟨rfl, ⟨fd, hv.1, hv.2.1⟩, fun e he hfile => ?_⟩⟩
    obtain ⟨j, hj⟩ := List.mem_iff_getElem?.mp he
    have hlt : j < u.entries.length := by
      have hl := congrArg List.length hstored
      simp only [stored, List.length_map] at hl
      rw [hents, ← hl]
      exact (List.getElem?_eq_some_iff.mp hj).1
    have hfile' : u.file e.fname ≠ none := by
      rw [Kernel.file, hinode]
      exact hfile
    exact hlive j hlt e hj hfile'

theorem xyWatchStop_spec (s : Statics) : s.running = false ∧ s.xyWatchStop = s ∨
    s.running = true ∧ s.xyWatchStop.stored = s.stored ∧ s.xyWatchStop.inode = s.inode ∧
      s.xyWatchStop.running = false ∧ s.xyWatchStop.ifd = none := by
  cases hr : s.running with
  | false =>
      refine .inl ⟨rfl, ?_⟩
      simp [xyWatchStop, watchStop, hr]
  | true =>
      have hs : s.xyWatchStop = s.watchStop.1.watchStopped := by simp [xyWatchStop, watchStop, hr]
      have hw : s.watchStop.1.entries = s.entries ∧ s.watchStop.1.inode = s.inode ∧
          s.watchStop.1.running = false := by
        simp [watchStop, hr]
      obtain ⟨o, heq⟩ := closeAll_eq s.watchStop.1
      rw [hs, watchStopped, heq]
      refine .inr ⟨rfl, ?_, hw.2.1, hw.2.2, rfl⟩
      simp only [stored, List.map_map, hw.1]
      rfl

end
end Statics

def Added (tr : List (Statics × PathEvent)) (f : String) : Prop :=
  ∃ pre m noMem post, tr = pre ++ (m, .add (some f) noMem) :: post ∧
    (m.watchAdd (some f) noMem).2 = 0 ∧ ∀ x ∈ post, x.2 ≠ .remove (some f)

/-- The file of `f` existed when `f` was added or when the watcher started. -/
def Due (tr : List (Statics × PathEvent)) (f : String) : Prop :=
  ∃ m e, (m, e) ∈ tr ∧ m.file f ≠ none ∧
    ((∃ noMem, e = .add (some f) noMem ∧ f ∉ m.stored) ∨ ∃ ch, e = .start ch ∧ m.running = false)

/-- The stored paths are those added and not removed. -/
structure StoredPaths (tr : List (Statics × PathEvent)) (s : Statics) : Prop where
  distinct : s.stored.Nodup
  bound : s.stored.length ≤ xyWatchMax
  exactly : ∀ f, f ∈ s.stored ↔ Added tr f

/-- While the watcher runs, every stored path that is due is watched. -/
def Watched (tr : List (Statics × PathEvent)) (s : Statics) : Prop :=
  s.running = true → ∀ e ∈ s.entries, Due tr e.fname → s.Live e

/-- A path removed while the watcher runs shares its watch with no other stored path. -/
def RemovesOwn (s : Statics) (e : PathEvent) (_ : Statics) : Prop :=
  ∀ f, e = .remove (some f) → s.running = true →
    ∀ x ∈ s.entries, ∀ y ∈ s.entries, x.fname = f → y.fname ≠ f → x.wd ≠ none → y.wd ≠ x.wd

section
variable {tr : List (Statics × PathEvent)} {s t m : Statics} {e : PathEvent} {f : String}

theorem added_snoc : Added (tr ++ [(m, e)]) f ↔
    (∃ noMem, e = .add (some f) noMem ∧ (m.watchAdd (some f) noMem).2 = 0) ∨
      Added tr f ∧ e ≠ .remove (some f) := by
  constructor
  · rintro ⟨pre, n, noMem, post, heq, hret, hpost⟩
    rcases List.eq_nil_or_concat post with rfl | ⟨post, x, rfl⟩
    · obtain ⟨-, hx⟩ := List.append_inj' heq rfl
      cases hx
      exact .inl ⟨noMem, rfl, hret⟩
    · rw [List.concat_eq_append, ← List.cons_append, ← List.append_assoc] at heq
      obtain ⟨h1, hx⟩ := List.append_inj' heq rfl
      cases hx
      refine .inr ⟨⟨pre, n, noMem, post, h1, hret, fun y hy => hpost y ?_⟩, hpost (m, e) ?_⟩
      · simp [hy]
      · simp
  · rintro (⟨noMem, rfl, hret⟩ | ⟨⟨pre, n, noMem, post, rfl, hret, hpost⟩, hne⟩)
    · exact ⟨tr, m, noMem, [], rfl, hret, fun x hx => by cases hx⟩
    · refine ⟨pre, n, noMem, post ++ [(m, e)], by simp, hret, fun x hx => ?_⟩
      rcases List.mem_append.mp hx with hx | hx
      · exact hpost x hx
      · obtain rfl := List.mem_singleton.mp hx
        exact hne

theorem due_snoc : Due (tr ++ [(m, e)]) f ↔ Due tr f ∨ m.file f ≠ none ∧
    ((∃ noMem, e = .add (some f) noMem ∧ f ∉ m.stored) ∨ ∃ ch, e = .start ch ∧ m.running = false) := by
  constructor
  · rintro ⟨n, e', hx, h⟩
    rcases List.mem_append.mp hx with hx | hx
    · exact .inl ⟨n, e', hx, h⟩
    · cases List.mem_singleton.mp hx
      exact .inr h
  · rintro (⟨n, e', hx, h⟩ | h)
    · exact ⟨n, e', List.mem_append_left _ hx, h⟩
    · exact ⟨m, e, by simp, h⟩

/-- What holds of the watch set in every run: an instance exactly while the watcher
runs, no file gone, and nothing unwatched as long as removals take their own watch. -/
structure PathsOk (tr : List (Statics × PathEvent)) (s : Statics) : Prop
    extends StoredPaths tr s where
  live : Run.Every pathStep RemovesOwn tr → Watched tr s
  quiet : s.running = false → s.ifd = none
  opened : s.running = true → ∃ fd, s.ifd = some fd ∧ s.isOpen fd = true
  exist : ∀ f, Due tr f → s.file f ≠ none

/-- What a step has to show, once what it does to the stored paths is known. -/
theorem PathsOk.next (h : PathsOk tr m) (hn : s.stored.Nodup) (hb : s.stored.length ≤ xyWatchMax)
    (hstored : ∀ f, f ∈ s.stored ↔
      (∃ noMem, e = .add (some f) noMem ∧ (m.watchAdd (some f) noMem).2 = 0) ∨
        f ∈ m.stored ∧ e ≠ .remove (some f))
    (hfile : ∀ f, m.file f ≠ none → s.file f ≠ none)
    (hquiet : s.running = false → s.ifd = none)
    (hopen : s.running = true → ∃ fd, s.ifd = some fd ∧ s.isOpen fd = true)
    (hlive : Run.Every pathStep RemovesOwn (tr ++ [(m, e)]) → Watched (tr ++ [(m, e)]) s) :
    PathsOk (tr ++ [(m, e)]) s := by
  refine ⟨⟨hn, hb, fun f => ?_⟩, hlive, hquiet, hopen, fun f hd => ?_⟩
  · rw [added_snoc, hstored, h.exactly]
  · rcases due_snoc.mp hd with hd | hd
    · exact hfile f (h.exist f hd)
    · exact hfile f hd.1

/-- A step that stores no path and starts nothing leaves the same files due. -/
theorem due_same (h1 : ∀ f noMem, e = .add (some f) noMem → f ∈ m.stored)
    (h2 : ∀ ch, e = .start ch → m.running = true) (hd : Due (tr ++ [(m, e)]) f) : Due tr f := by
  rcases due_snoc.mp hd with hd | ⟨-, ⟨noMem, he, hf⟩ | ⟨ch, he, hr⟩⟩
  · exact hd
  · exact absurd (h1 f noMem he) hf
  · rw [h2 ch he] at hr
    cases hr

theorem pathsOk_add (h : PathsOk tr m) (f : String) (noMem : Bool) :
    PathsOk (tr ++ [(m, .add (some f) noMem)]) (m.watchAdd (some f) noMem).1 := by
  have hadd : ∀ g, (∃ noMem', PathEvent.add (some f) noMem = .add (some g) noMem' ∧
      (m.watchAdd (some g) noMem').2 = 0) ↔ g = f ∧ (m.watchAdd (some f) noMem).2 = 0 := by
    intro g
    constructor
    · rintro ⟨n, he, hret⟩
      cases he
      exact ⟨rfl, hret⟩
    · rintro ⟨rfl, hret⟩
      exact ⟨noMem, rfl, hret⟩
  have hkeep : ∀ g, PathEvent.add (some f) noMem ≠ .remove (some g) := fun g => by simp
  rcases m.watchAdd_spec f noMem with ⟨hf, heq⟩ | ⟨hf, heq⟩ | ⟨hf, hlt, heq⟩
  · rw [heq]
    refine h.next h.distinct h.bound (fun g => ?_) (fun _ => id) h.quiet h.opened ?_
    · rw [hadd, heq]
      constructor
      · exact fun hg => .inr ⟨hg, hkeep g⟩
      · rintro (⟨rfl, -⟩ | ⟨hg, -⟩)
        · exact hf
        · exact hg
    · intro hc hr x hx hd
      refine h.live hc.left hr x hx (due_same (fun g n he => ?_) (fun ch he => by cases he) hd)
      cases he
      exact hf
  · rw [heq]
    refine h.next h.distinct h.bound (fun g => ?_) (fun _ => id) h.quiet h.opened ?_
    · rw [hadd, heq]
      constructor
      · exact fun hg => .inr ⟨hg, hkeep g⟩
      · rintro (⟨rfl, h0⟩ | ⟨hg, -⟩)
        · exact absurd h0 (by simp)
        · exact hg
    · intro hc hr x hx hd
      have hxf : x.fname ≠ f := fun he => hf (Statics.mem_stored.mpr ⟨x, hx, he⟩)
      rcases due_snoc.mp hd with hd | ⟨-, ⟨n, he, -⟩ | ⟨ch, he, -⟩⟩
      · exact h.live hc.left hr x hx hd
      · cases he
        exact absurd rfl hxf
      · cases he
  · -- the new path at the end, rewatched at once if there is an instance
    have hbase : ({ m with entries := m.entries ++ [{ fname := f }] } : Statics).stored =
        m.stored ++ [f] := by
      simp [Statics.stored]
    have hnd : (m.stored ++ [f]).Nodup := by
      rw [List.nodup_append]
      refine ⟨h.distinct, List.nodup_singleton f, fun a ha b hb hab => hf ?_⟩
      rw [← List.mem_singleton.mp hb, ← hab]
      exact ha
    have hlen : (m.stored ++ [f]).length ≤ xyWatchMax := by
      rw [List.length_append, Statics.stored, List.length_map]
      exact hlt
    have hmem : ∀ g, g ∈ m.stored ++ [f] ↔
        (∃ noMem', PathEvent.add (some f) noMem = .add (some g) noMem' ∧
          (m.watchAdd (some g) noMem').2 = 0) ∨
        g ∈ m.stored ∧ PathEvent.add (some f) noMem ≠ .remove (some g) := by
      intro g
      rw [hadd, heq, List.mem_append, List.mem_singleton, and_iff_left rfl, and_iff_left (hkeep g)]
      exact or_comm
    rw [heq]
    rcases Option.eq_none_or_eq_some m.ifd with hifd | ⟨fd, hifd⟩
    · have hrun : m.running = true → False := fun hr => by
        obtain ⟨fd, hfd, -⟩ := h.opened hr
        rw [hifd] at hfd
        cases hfd
      rw [if_neg (by simp [hifd])]
      exact h.next (hbase ▸ hnd) (hbase ▸ hlen) (fun g => hbase ▸ hmem g) (fun _ => id) h.quiet
        h.opened fun _ hr => absurd hr hrun
    · have hrun : m.running = true := by
        by_contra hr
        have := h.quiet (by simpa using hr)
        rw [hifd] at this
        cases this
      have ho : m.isOpen fd = true := by
        obtain ⟨fd', hfd', ho⟩ := h.opened hrun
        rw [hifd] at hfd'
        cases hfd'
        exact ho
      rw [if_pos (by simp [hifd])]
      have hfd : ({ m with entries := m.entries ++ [{ fname := f }] } : Statics).ifd = some fd := hifd
      have hother : Run.Every pathStep RemovesOwn (tr ++ [(m, .add (some f) noMem)]) →
          ∀ j x, j ≠ m.entries.length → (m.entries ++ [{ fname := f }])[j]? = some x →
            Due (tr ++ [(m, .add (some f) noMem)]) x.fname → m.Live x := by
        intro hc j x hj hx hd
        rcases Nat.lt_or_ge j m.entries.length with hlt | hge
        · rw [List.getElem?_append_left hlt] at hx
          have hxm := List.mem_of_getElem? hx
          have hxf : x.fname ≠ f := fun he => hf (Statics.mem_stored.mpr ⟨x, hxm, he⟩)
          rcases due_snoc.mp hd with hd | ⟨-, ⟨n, he, -⟩ | ⟨ch, he, -⟩⟩
          · exact h.live hc.left hrun x hxm hd
          · cases he
            exact absurd rfl hxf
          · cases he
        · obtain ⟨hl, -⟩ := List.getElem?_eq_some_iff.mp hx
          rw [List.length_append, List.length_singleton] at hl
          omega
      have hself : ∀ x, (m.entries ++ [{ fname := f }])[m.entries.length]? = some x →
          Due (tr ++ [(m, .add (some f) noMem)]) x.fname → m.file x.fname ≠ none := by
        intro x hx hd
        rcases due_snoc.mp hd with hd | ⟨hfile, -⟩
        · exact h.exist _ hd
        · exact hfile
      have hrw := Statics.entryRewatch_rewatched hfd ho m.entries.length
      have hall := fun hc => Statics.entryRewatch_all hfd ho (i := m.entries.length)
        (P := Due (tr ++ [(m, .add (some f) noMem)])) (hother hc) hself
      generalize Statics.entryRewatch _ m.entries.length = u at hrw hall ⊢
      have hu : u.stored = m.stored ++ [f] ∧ u.file = m.file ∧ u.running = true ∧
          u.ifd = some fd ∧ u.isOpen fd = true := by
        obtain ⟨w, n, es, rfl, hes, -⟩ := hrw
        exact ⟨hes.trans hbase, rfl, hrun, hifd, ho⟩
      obtain ⟨h1, h2, h3, h4, h5⟩ := hu
      exact h.next (h1 ▸ hnd) (h1 ▸ hlen) (fun g => h1 ▸ hmem g) (fun g => by rw [h2]; exact id)
        (fun hr => by rw [h3] at hr; cases hr) (fun _ => ⟨fd, h4, h5⟩) fun hc _ => hall hc

theorem pathsOk_remove (h : PathsOk tr m) (f : String) :
    PathsOk (tr ++ [(m, .remove (some f))]) (m.watchRemove (some f)) := by
  have hdue : ∀ g, Due (tr ++ [(m, .remove (some f))]) g → Due tr g := fun g =>
    due_same (fun _ _ he => by cases he) fun _ he => by cases he
  have hmem : ∀ {u : Statics}, (∀ g, g ∈ u.stored ↔ g ∈ m.stored ∧ g ≠ f) → ∀ g, g ∈ u.stored ↔
      (∃ noMem, PathEvent.remove (some f) = .add (some g) noMem ∧
        (m.watchAdd (some g) noMem).2 = 0) ∨
      g ∈ m.stored ∧ PathEvent.remove (some f) ≠ .remove (some g) := by
    intro u hu g
    rw [hu]
    simp [eq_comm]
  rcases Statics.watchRemove_spec h.distinct f with ⟨hf, heq⟩ | ⟨x, w, hx, hxf, heq, hw⟩
  · rw [heq]
    refine h.next h.distinct h.bound (hmem fun g => ?_) (fun _ => id) h.quiet h.opened
      fun hc hr y hy hd => h.live hc.left hr y hy (hdue _ hd)
    exact ⟨fun hg => ⟨hg, fun he => hf (he ▸ hg)⟩, And.left⟩
  · rw [heq]
    have hsub : ((m.entries.filter fun y => y.fname ≠ f).map (·.fname)).Sublist m.stored :=
      List.filter_sublist.map _
    refine h.next (hsub.nodup h.distinct) (hsub.length_le.trans h.bound) (hmem fun g => ?_)
      (fun _ => id) h.quiet h.opened fun hc hr y hy hd => ?_
    · simp only [Statics.stored, List.mem_map, List.mem_filter, decide_eq_true_eq]
      constructor
      · rintro ⟨y, ⟨hy, hyf⟩, rfl⟩
        exact ⟨⟨y, hy, rfl⟩, hyf⟩
      · rintro ⟨⟨y, hy, rfl⟩, hyf⟩
        exact ⟨y, ⟨hy, hyf⟩, rfl⟩
    · obtain ⟨hy, hyf⟩ := List.mem_filter.mp hy
      have hyf : y.fname ≠ f := by simpa using hyf
      obtain ⟨fd, wd, n, h1, h2, h3, h4, h5⟩ := h.live hc.left hr y hy (hdue _ hd)
      refine ⟨fd, wd, n, h1, h2, h3, h4, hw fd wd n h5 fun hxw => ?_⟩
      exact hc.last rfl f rfl hr x hx y hy hxf hyf (by simp [hxw]) (h3.trans hxw.symm)

theorem pathsOk_step (h : PathsOk tr m) (hs : pathStep m e = .ok t) :
    PathsOk (tr ++ [(m, e)]) t := by
  -- a step that keeps the paths, the files and the entries
  have idle : (∀ f noMem, e = .add (some f) noMem → False) → (∀ f, e ≠ .remove (some f)) →
      (∀ ch, e = .start ch → m.running = true) → t = m → PathsOk (tr ++ [(m, e)]) t := by
    rintro h1 h2 h3 rfl
    refine h.next h.distinct h.bound (fun f => ?_) (fun _ => id) h.quiet h.opened
      fun hc hr x hx hd => ?_
    · constructor
      · exact fun hf => .inr ⟨hf, h2 f⟩
      · rintro (⟨n, he, -⟩ | ⟨hf, -⟩)
        · exact (h1 f n he).elim
        · exact hf
    · exact h.live hc.left hr x hx (due_same (fun f n he => (h1 f n he).elim) h3 hd)
  have kept : ∀ {u : Statics}, (∀ f noMem, e = .add (some f) noMem → False) →
      (∀ f, e ≠ .remove (some f)) → u.stored = m.stored → ∀ f, f ∈ u.stored ↔
        (∃ noMem, e = .add (some f) noMem ∧ (m.watchAdd (some f) noMem).2 = 0) ∨
          f ∈ m.stored ∧ e ≠ .remove (some f) := by
    intro u h1 h2 hu f
    rw [hu]
    constructor
    · exact fun hf => .inr ⟨hf, h2 f⟩
    · rintro (⟨n, he, -⟩ | ⟨hf, -⟩)
      · exact (h1 f n he).elim
      · exact hf
  cases e with
  | add fname noMem =>
      cases hs
      cases fname with
      | none => exact idle (by simp) (by simp) (by simp) rfl
      | some f => exact pathsOk_add h f noMem
  | remove fname =>
      cases hs
      cases fname with
      | none => exact idle (by simp) (by simp) (by simp) rfl
      | some f => exact pathsOk_remove h f
  | start ch =>
      cases hs
      cases hr : m.running with
      | true =>
          refine idle (by simp) (by simp) (fun _ _ => hr) ?_
          simp [Statics.watchStart, hr]
      | false =>
          obtain ⟨hst, hin, hway⟩ := Statics.watchStart_spec hr ch
          generalize (m.watchStart ch).1 = u at hst hin hway
          have hfile : u.file = m.file := by
            funext f
            rw [Kernel.file, hin]
            rfl
          refine h.next (hst ▸ h.distinct) (hst ▸ h.bound) (kept (by simp) (by simp) hst)
            (fun f => by rw [hfile]; exact id) ?_ ?_ ?_
          · rintro hu
            rcases hway with ⟨-, hifd⟩ | ⟨hu', -⟩
            · exact hifd
            · rw [hu] at hu'
              cases hu'
          · rintro hu
            rcases hway with ⟨hu', -⟩ | ⟨-, hopen, -⟩
            · rw [hu] at hu'
              cases hu'
            · exact hopen
          · rintro - hu x hx hd
            rcases hway with ⟨hu', -⟩ | ⟨-, -, hlive⟩
            · rw [hu] at hu'
              cases hu'
            · refine hlive x hx ?_
              rcases due_snoc.mp hd with hd | ⟨hf, -⟩
              · exact h.exist _ hd
              · exact hf
  | stop =>
      cases hs
      rcases m.xyWatchStop_spec with ⟨-, heq⟩ | ⟨-, hst, hin, hrun, hifd⟩
      · exact idle (by simp) (by simp) (by simp) heq
      · have hfile : m.xyWatchStop.file = m.file := by
          funext f
          rw [Kernel.file, hin]
          rfl
        refine h.next (hst ▸ h.distinct) (hst ▸ h.bound) (kept (by simp) (by simp) hst)
          (fun f => by rw [hfile]; exact id) (fun _ => hifd) (fun hr => ?_) fun _ hr => ?_ <;>
        · rw [hrun] at hr
          cases hr
  | create path n =>
      simp only [pathStep] at hs
      split at hs
      · rename_i hfree
        cases hs
        have hfile : ∀ f i, m.file f = some i →
            Kernel.file
              { m.toKernel with inode := Function.update m.inode path (some n) } f = some i := by
          intro f i hf
          obtain ⟨p, hp, hi⟩ := Option.bind_eq_some_iff.mp hf
          have hpp : p ≠ path := by
            rintro rfl
            rw [hfree] at hi
            cases hi
          refine Option.bind_eq_some_iff.mpr ⟨p, hp, ?_⟩
          exact (Function.update_of_ne hpp _ _).trans hi
        refine h.next h.distinct h.bound (kept (by simp) (by simp) rfl) (fun f hf => ?_) h.quiet
          h.opened fun hc hr x hx hd => ?_
        · obtain ⟨i, hi⟩ := Option.ne_none_iff_exists'.mp hf
          intro hnone
          have := hfile f i hi
          rw [show Kernel.file _ f = none from hnone] at this
          cases this
        · obtain ⟨fd, wd, i, h1, h2, h3, h4, h5⟩ := h.live hc.left hr x hx
            (due_same (fun f n he => by cases he) (fun ch he => by cases he) hd)
          exact ⟨fd, wd, i, h1, h2, h3, hfile _ _ h4, h5⟩
      · cases hs
  | event wd movedTo =>
      simp only [pathStep] at hs
      split at hs
      · rename_i hrun
        cases hs
        have hdue : ∀ g, Due (tr ++ [(m, .event wd movedTo)]) g → Due tr g := fun g =>
          due_same (fun _ _ he => by cases he) fun _ he => by cases he
        cases hidx : m.entryFindByWd wd with
        | none => exact idle (by simp) (by simp) (by simp) (by simp [Statics.watcherEvent, hidx])
        | some i =>
            cases movedTo with
            | false => exact idle (by simp) (by simp) (by simp) (by simp [Statics.watcherEvent, hidx])
            | true =>
                obtain ⟨fd, hfd, ho⟩ := h.opened hrun
                have hrw := Statics.entryRewatch_rewatched hfd ho i
                have hall := fun hc : Run.Every pathStep RemovesOwn (tr ++ [(m, .event wd true)]) =>
                  Statics.entryRewatch_all hfd ho (i := i) (P := Due (tr ++ [(m, .event wd true)]))
                    (fun j x _ hx hd =>
                      h.live hc.left hrun x (List.mem_of_getElem? hx) (hdue _ hd))
                    fun x _ hd => h.exist _ (hdue _ hd)
                have heq : (m.watcherEvent wd true).1 = m.entryRewatch i := by
                  simp [Statics.watcherEvent, hidx]
                rw [heq]
                generalize m.entryRewatch i = u at hrw hall ⊢
                have hu : u.stored = m.stored ∧ u.file = m.file ∧ u.running = true ∧
                    u.ifd = some fd ∧ u.isOpen fd = true := by
                  obtain ⟨w, n, es, rfl, hes, -⟩ := hrw
                  exact ⟨hes, rfl, hrun, hfd, ho⟩
                obtain ⟨h1, h2, h3, h4, h5⟩ := hu
                exact h.next (h1 ▸ h.distinct) (h1 ▸ h.bound) (kept (by simp) (by simp) h1)
                  (fun g => by rw [h2]; exact id) (fun hr => by rw [h3] at hr; cases hr)
                  (fun _ => ⟨fd, h4, h5⟩) fun hc _ => hall hc
      · cases hs

end

/-- The stored paths are kept in every run from a fresh process, and as long as each
removal takes a watch of its own they stay watched. -/
theorem watch_set_kept {fs : String → Option Inode} {tr : List (Statics × PathEvent)} {s : Statics}
    (h : Run.Steps pathStep { inode := fs } tr s) :
    StoredPaths tr s ∧ (Run.Every pathStep RemovesOwn tr → Watched tr s) := by
  have hok : PathsOk tr s := by
    refine h.invariant_trace (C := fun _ _ _ => True) (P := PathsOk)
      (fun tr m e t hs _ hp => pathsOk_step hp hs) (fun _ _ _ _ => trivial) ?_
    refine ⟨⟨List.nodup_nil, Nat.zero_le _, fun f => ?_⟩, fun _ hr => (by cases hr), fun _ => rfl,
      fun hr => (by cases hr), fun f hd => ?_⟩
    · refine ⟨fun hf => (by cases hf), ?_⟩
      rintro ⟨pre, m, noMem, post, heq, -⟩
      cases pre <;> cases heq
    · obtain ⟨m, e, hx, -⟩ := hd
      cases hx
  exact ⟨hok.toStoredPaths, hok.live⟩

/-- Whether the step takes a watch of its own, if it removes a path. -/
def removesOwn (s : Statics) : PathEvent → Bool
  | .remove (some f) => s.entries.all fun x => s.entries.all fun y =>
      decide (x.fname = f → y.fname ≠ f → x.wd ≠ none → y.wd ≠ x.wd)
  | _ => true

theorem removesOwn_ok (s : Statics) (e : PathEvent) (t : Statics) (h : removesOwn s e = true) :
    RemovesOwn s e t := by
  rintro f rfl - x hx y hy
  simp only [removesOwn, List.all_eq_true, decide_eq_true_eq] at h
  exact h x hx y hy

/-- `a.so` and `c.so` are one file, `b.so` is another. -/
def linkedFiles : String → Option Inode
  | "a.so" => some 1
  | "b.so" => some 2
  | "c.so" => some 1
  | _ => none

/-- Two files watched, one of them removed again. -/
theorem watch_set_kept_two : ∃ s, Run.exec pathStep { inode := linkedFiles }
      [.start {}, .add (some "a") false, .add (some "b") false, .remove (some "b")] = .ok s ∧
    Watched (Run.trace pathStep { inode := linkedFiles }
      [.start {}, .add (some "a") false, .add (some "b") false, .remove (some "b")]) s := by
  obtain ⟨s, hs, -⟩ := Run.exec_of_check pathStep { inode := linkedFiles }
    [.start {}, .add (some "a") false, .add (some "b") false, .remove (some "b")]
    (fun s => s.running) (by decide)
  exact ⟨s, hs, (watch_set_kept (Run.exec_steps hs)).2 (Run.every_of_all removesOwn_ok (by decide))⟩

/-- The same with two paths to one file: `a` is stored but no longer watched. -/
theorem watch_set_aliased : ∃ s, Run.exec pathStep { inode := linkedFiles }
      [.start {}, .add (some "a") false, .add (some "c") false, .remove (some "c")] = .ok s ∧
    ¬ Watched (Run.trace pathStep { inode := linkedFiles }
      [.start {}, .add (some "a") false, .add (some "c") false, .remove (some "c")]) s := by
  obtain ⟨s, hs, hobs⟩ := Run.exec_of_check pathStep { inode := linkedFiles }
    [.start {}, .add (some "a") false, .add (some "c") false, .remove (some "c")]
    (fun s => s.running && decide (s.ifd = some 0) && decide (s.watches 0 = []) &&
      decide (s.entries = [{ fname := "a", wd := some 1 }])) (by decide)
  simp only [Bool.and_eq_true, decide_eq_true_eq] at hobs
  obtain ⟨⟨⟨hrun, hifd⟩, hnone⟩, hents⟩ := hobs
  have hdue : ∃ x ∈ Run.trace pathStep { inode := linkedFiles }
      [.start {}, .add (some "a") false, .add (some "c") false, .remove (some "c")],
      x.1.file "a" ≠ none ∧ x.2 = .add (some "a") false ∧ "a" ∉ x.1.stored := by decide
  refine ⟨s, hs, fun h => ?_⟩
  obtain ⟨⟨m, e⟩, hx, hfile, he, hnew⟩ := hdue
  have hlive := h hrun { fname := "a", wd := some 1 } (by rw [hents]; exact List.mem_singleton_self _)
    ⟨m, e, hx, hfile, .inl ⟨false, he, hnew⟩⟩
  obtain ⟨fd, wd, n, hfd, -, -, -, hmem⟩ := hlive
  rw [hifd] at hfd
  cases hfd
  rw [hnone] at hmem
  cases hmem

end Xylem.Watch

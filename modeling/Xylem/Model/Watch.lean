import Xylem.Model.Types

/-!
# The watcher's module

`libxylem-watch.c`: its static variables, with what the kernel keeps for them,
and the code that runs under `g_mu`. A descriptor is the number of its opening,
so a closed one never comes back under its old number; `-1` is `none`.
-/
namespace Xylem.Watch

abbrev Fd := Nat
abbrev Wd := Nat
abbrev Inode := Nat
abbrev WatcherId := Nat

def xyWatchMax : Nat := 256

structure WatchEntry where
  fname : String
  wd : Option Wd := none
  deriving DecidableEq, Repr

/-- What the kernel keeps: the files, the open descriptors, the watches of each
inotify instance and the pipes. `session` is history: the start that opened it. -/
structure Kernel where
  inode : String → Option Inode := fun _ => none
  fdNext : Fd := 0
  isOpen : Fd → Bool := fun _ => false
  session : Fd → Nat := fun _ => 0
  watches : Fd → List (Wd × Inode) := fun _ => []
  wdNext : Fd → Wd := fun _ => 1
  /-- the read end of the pipe with this write end -/
  readEnd : Fd → Fd := fun fd => fd
  readable : Fd → Bool := fun _ => false
  watcherNext : WatcherId := 0

/-- The static variables. `starts` is history: how many starts have succeeded. -/
structure Statics extends Kernel where
  thread : Option WatcherId := none
  ifd : Option Fd := none
  running : Bool := false
  entries : List WatchEntry := []
  pipeR : Option Fd := none
  pipeW : Option Fd := none
  starts : Nat := 0

/-- `make_so_path`, with the buffer of 4096 bytes that `entry_rewatch` gives it. -/
def makeSoPath (fname : String) : Option String :=
  let path := fname ++ ".so"
  if path.utf8ByteSize < 4096 then some path else none

/-- The file behind a stored path, if it exists. -/
def Kernel.file (k : Kernel) (fname : String) : Option Inode :=
  (makeSoPath fname).bind k.inode

namespace Statics

/-- A new descriptor, opened by the start that is under way. -/
def openFd (s : Statics) : Statics × Fd :=
  ({ s with
      fdNext := s.fdNext + 1
      isOpen := Function.update s.isOpen s.fdNext true
      session := Function.update s.session s.fdNext (s.starts + 1) }, s.fdNext)

/-- `close`; closing `-1` does nothing. -/
def closeFd (s : Statics) (fd : Option Fd) : Statics :=
  match fd with
  | some fd => { s with isOpen := Function.update s.isOpen fd false }
  | none => s

/-- `inotify_add_watch`: one watch per inode and instance. -/
def inotifyAddWatch (s : Statics) (fd : Fd) (path : String) : Statics × Option Wd :=
  match s.isOpen fd, s.inode path with
  | true, some n =>
      match (s.watches fd).find? fun x => decide (x.2 = n) with
      | some x => (s, some x.1)
      | none =>
          ({ s with
              watches := Function.update s.watches fd ((s.wdNext fd, n) :: s.watches fd)
              wdNext := Function.update s.wdNext fd (s.wdNext fd + 1) }, some (s.wdNext fd))
  | _, _ => (s, none)

def inotifyRmWatch (s : Statics) (fd : Fd) (wd : Wd) : Statics :=
  { s with watches := Function.update s.watches fd ((s.watches fd).filter fun x => x.1 ≠ wd) }

def entryFind (s : Statics) (fname : String) : Option Nat :=
  s.entries.findIdx? fun e => e.fname = fname

def entryFindByWd (s : Statics) (wd : Wd) : Option Nat :=
  s.entries.findIdx? fun e => e.wd = some wd

def entryRewatch (s : Statics) (i : Nat) : Statics :=
  match s.ifd, s.entries[i]? with
  | some fd, some e =>
      match makeSoPath e.fname with
      | none => s
      | some path =>
          let (s, wd) := s.inotifyAddWatch fd path
          { s with entries := s.entries.set i { e with wd := wd } }
  | _, _ => s

end Statics

structure StartChoice where
  noInotify : Bool := false
  noPipe : Bool := false
  noThread : Bool := false
  deriving DecidableEq, Repr

namespace Statics

def closeAll (s : Statics) : Statics :=
  let s := ((s.closeFd s.ifd).closeFd s.pipeR).closeFd s.pipeW
  { s with ifd := none, pipeR := none, pipeW := none }

def openPipe (s : Statics) : Statics :=
  let (s, r) := s.openFd
  let (s, w) := s.openFd
  { s with pipeR := some r, pipeW := some w, readEnd := Function.update s.readEnd w r }

def watchStart (s : Statics) (ch : StartChoice) : Statics × Int :=
  if s.running then (s, 0)
  else if ch.noInotify then ({ s with ifd := none }, -1)
  else
    let (s, fd) := s.openFd
    if ch.noPipe then ({ s.closeFd (some fd) with ifd := none }, -1)
    else
      let s := ({ s with ifd := some fd } : Statics).openPipe
      let s := (List.range s.entries.length).foldl entryRewatch s
      if ch.noThread then (s.closeAll, -1)
      else
        ({ s with
            thread := some s.watcherNext, watcherNext := s.watcherNext + 1
            running := true, starts := s.starts + 1 }, 0)

/-- The first critical section of `xy_watch_stop`, and whether it goes on to join. -/
def watchStop (s : Statics) : Statics × Bool :=
  if s.running then
    ({ s with
        readable := match s.pipeW with
          | some w => Function.update s.readable (s.readEnd w) true
          | none => s.readable
        running := false }, true)
  else (s, false)

/-- The second critical section of `xy_watch_stop`, after the join. -/
def watchStopped (s : Statics) : Statics :=
  let s := s.closeAll
  { s with entries := s.entries.map fun e => { e with wd := none } }

/-- `xy_watch_add`; `noMem` says that `strdup` fails. -/
def watchAdd (s : Statics) (fname : Option String) (noMem : Bool) : Statics × Int :=
  match fname with
  | none => (s, -1)
  | some fname =>
      match s.entryFind fname with
      | some _ => (s, 0)
      | none =>
          if xyWatchMax ≤ s.entries.length then (s, -1)
          else if noMem then (s, -1)
          else
            let idx := s.entries.length
            let s : Statics := { s with entries := s.entries ++ [{ fname := fname }] }
            (if s.ifd.isSome then s.entryRewatch idx else s, 0)

def watchRemove (s : Statics) (fname : Option String) : Statics :=
  match fname.bind s.entryFind with
  | none => s
  | some idx =>
      let s := match s.ifd, s.entries[idx]?.bind (·.wd) with
        | some fd, some wd => s.inotifyRmWatch fd wd
        | _, _ => s
      { s with entries := s.entries.eraseIdx idx }

/-- The watcher's critical section for an event on `wd`, and the path it will reload. -/
def watcherEvent (s : Statics) (wd : Wd) (movedTo : Bool) : Statics × Option String :=
  match s.entryFindByWd wd with
  | none => (s, none)
  | some idx =>
      (if movedTo then s.entryRewatch idx else s, s.entries[idx]?.map (·.fname))

end Statics
end Xylem.Watch

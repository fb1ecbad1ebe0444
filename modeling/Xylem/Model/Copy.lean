import Mathlib.Logic.Function.Basic
import Mathlib.Data.List.Basic

/-!
# The copy that a reload opens

`copy_one` and `copy_to_tmp`. A schedule gives the outcome of every call into the
kernel that one copy makes; the transfer loops count their calls to look it up.
-/
namespace Xylem.Copy

/-- The files there are, with their bytes. -/
abbrev Files := String → Option (List UInt8)

/-- What the kernel and the allocator answer during one `copy_one`. -/
structure CopyChoice where
  /-- the letters `mkstemps` tries; none if it fails -/
  letters : Option String
  opens : Bool
  /-- how much the i-th `read` transfers at most, or its failure -/
  read : Nat → Option Nat
  /-- how much the i-th `write` transfers at most, or its failure -/
  write : Nat → Option Nat
  fchmod : Bool
  fsync : Bool
  strdup : Bool

/-- `mkstemps(tmpl, 3)`: the six X's before the suffix are replaced, and the name is new. -/
def mkstemps (files : Files) (tmpl letters : String) : Option String :=
  let cs := tmpl.toList
  let n := cs.length - 9
  if cs.drop n = "XXXXXX.so".toList ∧ letters.length = 6 then
    let name := String.ofList (cs.take n ++ letters.toList ++ ".so".toList)
    if files name = none then some name else none
  else none

/-- The inner loop: `p` is what is left of the buffer, `i` the writes done so far, `out`
what the file holds. The result says whether all of it was written. -/
def writeLoop (write : Nat → Option Nat) (i : Nat) (p out : List UInt8) :
    Bool × Nat × List UInt8 :=
  if p = [] then (true, i, out)
  else
    match write i with
    | none => (false, i + 1, out)
    | some w =>
        let w := min w p.length
        -- `w <= 0` leaves the loop
        if w = 0 then (false, i + 1, out)
        else writeLoop write (i + 1) (p.drop w) (out ++ p.take w)
termination_by p.length
decreasing_by
  have : 0 < p.length := List.length_pos_iff.mpr ‹p ≠ []›
  simp only [List.length_drop]
  omega

def bufSize : Nat := 8192

/-- The outer loop: `rest` is the source from the offset on, `j` the reads done so far.
A `read` before the end of the file transfers at least one byte. -/
def readLoop (ch : CopyChoice) (j i : Nat) (rest out : List UInt8) : Bool × List UInt8 :=
  match ch.read j with
  | none => (false, out)
  | some k =>
      if rest = [] then (true, out)
      else
        let n := min (max k 1) (min bufSize rest.length)
        match writeLoop ch.write i (rest.take n) out with
        | (false, _, out) => (false, out)
        | (true, i, out) => readLoop ch (j + 1) i (rest.drop n) out
termination_by rest.length
decreasing_by
  have : 0 < rest.length := List.length_pos_iff.mpr ‹rest ≠ []›
  simp only [List.length_drop, bufSize]
  omega

/-- The status a copy returns, the files after it and what it left in `*out_tmp`. -/
structure CopyResult where
  rc : Int
  files : Files
  outTmp : Option String

/-- What comes between a created file and the label `out`: whether all went well, and
the bytes in the file. -/
def copyBody (files : Files) (src : String) (ch : CopyChoice) : Bool × List UInt8 :=
  if ch.opens then
    match files src with
    | none => (false, [])
    | some bytes =>
        let (done, out) := readLoop ch 0 0 bytes []
        (done && ch.fchmod && ch.fsync, out)
  else (false, [])

def copyOne (files : Files) (src tmplIn : String) (outTmp : Option String) (ch : CopyChoice) :
    CopyResult :=
  if 512 ≤ tmplIn.utf8ByteSize then ⟨-1, files, outTmp⟩
  else
    match ch.letters.bind (mkstemps files tmplIn) with
    | none => ⟨-1, files, outTmp⟩
    | some tmpl =>
        let (ok, out) := copyBody files src ch
        let files := Function.update files tmpl (some out)
        if ok then ⟨0, files, if ch.strdup then some tmpl else none⟩
        else ⟨-1, Function.update files tmpl none, outTmp⟩

def dirName (src : String) : Option String :=
  let rev := src.toList.reverse.dropWhile (· ≠ '/')
  if rev = [] then none else some (String.ofList rev.tail.reverse)

def templates (src : String) : List String :=
  (match dirName src with
  | some dir => if dir.utf8ByteSize + 32 < 512 then [dir ++ "/.xylem-XXXXXX.so"] else []
  | none => []) ++ ["/tmp/xylem-XXXXXX.so", "./tmp/xylem-XXXXXX.so"]

/-- One `copy_one` after the other until one succeeds; the k-th one gets `ch k`. -/
def copyFirst (src : String) (files : Files) (outTmp : Option String) (ch : Nat → CopyChoice) :
    Nat → List String → CopyResult
  | _, [] => ⟨-1, files, outTmp⟩
  | k, tmpl :: rest =>
      let r := copyOne files src tmpl outTmp (ch k)
      if r.rc = 0 then r else copyFirst src r.files r.outTmp ch (k + 1) rest

def copyToTmp (files : Files) (src : String) (outTmp : Option String) (ch : Nat → CopyChoice) :
    CopyResult :=
  copyFirst src files outTmp ch 0 (templates src)

end Xylem.Copy

import Xylem.Watch.Paths

/-!
# The watch set in memory

`g_entries` is an array of `XY_WATCH_MAX` cells whose paths are copies made by `strdup`. The
loops over it are run cell by cell: an access outside the array, a read of a path that is not
there and a second `free` have no result.
-/
namespace Xylem.Watch

/-- A cell of `g_entries`: the address of its path, and its descriptor. -/
structure Cell where
  fname : Option Nat := none
  wd : Option Wd := none
  deriving DecidableEq, Repr

/-- `g_entries` and `g_entry_count`, with the strings that `strdup` has allocated. -/
structure WatchMemory where
  cells : List Cell := List.replicate xyWatchMax {}
  count : Nat := 0
  strings : Nat → Option String := fun _ => none
  stringNext : Nat := 0

namespace WatchMemory

def text (m : WatchMemory) (c : Cell) : Option String := c.fname.bind m.strings

def entryFindFrom (m : WatchMemory) (fname : String) : Nat → Nat → Option (Option Nat)
  | 0, _ => some none
  | left + 1, i => do
      let c ← m.cells[i]?
      let text ← m.text c
      if text = fname then some (some i) else m.entryFindFrom fname left (i + 1)

def entryFind (m : WatchMemory) (fname : String) : Option (Option Nat) :=
  m.entryFindFrom fname m.count 0

/-- The stores of `xy_watch_add`, for a path that it has not found. -/
def append (m : WatchMemory) (fname : String) : Option WatchMemory :=
  if m.count < m.cells.length then
    some { cells := m.cells.set m.count { fname := some m.stringNext }
           count := m.count + 1
           strings := Function.update m.strings m.stringNext (some fname)
           stringNext := m.stringNext + 1 }
  else none

def add (m : WatchMemory) (fname : String) (noMem : Bool) : Option WatchMemory := do
  match ← m.entryFind fname with
  | some _ => some m
  | none => if xyWatchMax ≤ m.count ∨ noMem then some m else m.append fname

/-- The loop of `xy_watch_remove`: `g_entries[i] = g_entries[i + 1]`, for `left` cells from `i` on. -/
def compact : Nat → Nat → List Cell → Option (List Cell)
  | 0, _, cells => some cells
  | left + 1, i, cells => do
      let c ← cells[i + 1]?
      compact left (i + 1) (cells.set i c)

def removeAt (m : WatchMemory) (idx : Nat) : Option WatchMemory := do
  let c ← m.cells[idx]?
  let p ← c.fname
  let _ ← m.strings p
  let cells ← compact (m.count - 1 - idx) idx m.cells
  some { m with cells := cells, count := m.count - 1, strings := Function.update m.strings p none }

def remove (m : WatchMemory) (fname : String) : Option WatchMemory := do
  match ← m.entryFind fname with
  | none => some m
  | some idx => m.removeAt idx

/-- The accesses of `entry_rewatch`: the path is read, and the descriptor stored. -/
def setWd (m : WatchMemory) (i : Nat) (wd : Option Wd) : Option WatchMemory := do
  let c ← m.cells[i]?
  let _ ← m.text c
  some { m with cells := m.cells.set i { c with wd := wd } }

end WatchMemory

/-- What the module does to its set. `setWd` is `entry_rewatch`, or a turn of the loop in
`xy_watch_stop`, which reads no path. Cells from `g_entry_count` on get no descriptor: the
loops end before them. -/
inductive SetOp where
  | add (fname : String) (noMem : Bool)
  | remove (fname : String)
  | setWd (i : Nat) (wd : Option Wd)
  deriving DecidableEq, Repr

def SetOp.run (m : WatchMemory) : SetOp → Option WatchMemory
  | .add fname noMem => m.add fname noMem
  | .remove fname => m.remove fname
  | .setWd i wd => if i < m.count then m.setWd i wd else some m

def SetOp.apply (l : List WatchEntry) : SetOp → List WatchEntry
  | .add fname noMem =>
      match l.findIdx? fun e => e.fname = fname with
      | some _ => l
      | none => if xyWatchMax ≤ l.length ∨ noMem then l else l ++ [{ fname := fname }]
  | .remove fname =>
      match l.findIdx? fun e => e.fname = fname with
      | none => l
      | some idx => l.eraseIdx idx
  | .setWd i wd => l.modify i fun e => { e with wd := wd }

/-- The memory holds these entries, each with the address of its path: the cells in use are
theirs, and the strings that are allocated are their paths, each once. -/
structure Holds (m : WatchMemory) (v : List (Nat × WatchEntry)) : Prop where
  size : m.cells.length = xyWatchMax
  count : m.count = v.length
  bound : v.length ≤ xyWatchMax
  cells : ∀ i < v.length, m.cells[i]? = v[i]?.map fun x => ⟨some x.1, x.2.wd⟩
  strings : ∀ p f, m.strings p = some f ↔ ∃ e, (p, e) ∈ v ∧ e.fname = f
  once : (v.map (·.1)).Nodup
  fresh : ∀ x ∈ v, x.1 < m.stringNext

theorem map_modify_same {α β : Type} (g : α → β) {f : α → α} (h : ∀ a, g (f a) = g a) (l : List α)
    (i : Nat) : (l.modify i f).map g = l.map g := by
  refine List.ext_getElem? fun j => ?_
  rw [List.getElem?_map, List.getElem?_modify, List.getElem?_map]
  cases l[j]? with
  | none => rfl
  | some a => by_cases hij : i = j <;> simp [h, hij]

theorem compact_spec (left i : Nat) (cells : List Cell) (h : i + left < cells.length) :
    ∃ cells', WatchMemory.compact left i cells = some cells' ∧ cells'.length = cells.length ∧
      ∀ j, cells'[j]? = if i ≤ j ∧ j < i + left then cells[j + 1]? else cells[j]? := by
  induction left generalizing i cells with
  | zero =>
      refine ⟨cells, rfl, rfl, fun j => ?_⟩
      rw [if_neg (by omega)]
  | succ left ih =>
      have hi : i + 1 < cells.length := by omega
      have hset : (cells.set i cells[i + 1]).length = cells.length := List.length_set ..
      obtain ⟨cells', hc, hlen, hj⟩ := ih (i + 1) (cells.set i cells[i + 1])
        (by rw [hset]; omega)
      refine ⟨cells', ?_, hlen.trans hset, fun j => ?_⟩
      · rw [WatchMemory.compact, List.getElem?_eq_getElem hi]
        exact hc
      · rw [hj j]
        by_cases hij : j = i
        · subst hij
          rw [if_neg (by omega), if_pos (by omega), List.getElem?_set_self (by omega),
            List.getElem?_eq_getElem hi]
        · by_cases hin : i ≤ j ∧ j < i + (left + 1)
          · rw [if_pos (by omega), if_pos hin, List.getElem?_set_ne (by omega)]
          · rw [if_neg (by omega), if_neg hin, List.getElem?_set_ne (Ne.symm hij)]

namespace Holds
variable {m n : WatchMemory} {v : List (Nat × WatchEntry)} {i : Nat} {f : String}

theorem text (h : Holds m v) {x : Nat × WatchEntry} (hx : v[i]? = some x) :
    ∃ c, m.cells[i]? = some c ∧ c.fname = some x.1 ∧ c.wd = x.2.wd ∧ m.text c = some x.2.fname := by
  have hi : i < v.length := (List.getElem?_eq_some_iff.mp hx).1
  refine ⟨⟨some x.1, x.2.wd⟩, by rw [h.cells i hi, hx]; rfl, rfl, rfl, ?_⟩
  exact (h.strings _ _).mpr ⟨x.2, List.mem_of_getElem? hx, rfl⟩

theorem entryFindFrom (h : Holds m v) (f : String) (left i : Nat) (hi : i + left = v.length) :
    m.entryFindFrom f left i =
      some (((v.drop i).findIdx? fun x => x.2.fname = f).map (· + i)) := by
  induction left generalizing i with
  | zero =>
      rw [List.drop_eq_nil_of_le (by omega)]
      rfl
  | succ left ih =>
      have hlt : i < v.length := by omega
      obtain ⟨c, hc, -, -, ht⟩ := h.text (List.getElem?_eq_getElem hlt)
      rw [WatchMemory.entryFindFrom, hc]
      simp only [Option.bind_eq_bind, Option.bind_some, ht]
      rw [List.drop_eq_getElem_cons hlt, List.findIdx?_cons]
      by_cases hf : v[i].2.fname = f
      · simp [hf]
      · rw [if_neg hf, ih (i + 1) (by omega)]
        simp only [hf, decide_false, Bool.false_eq_true, if_false, Option.map_map]
        congr 2
        funext k
        simp only [Function.comp_apply]
        omega

theorem entryFind (h : Holds m v) (f : String) :
    m.entryFind f = some ((v.map (·.2)).findIdx? fun e => e.fname = f) := by
  rw [WatchMemory.entryFind, h.entryFindFrom f m.count 0 (by rw [h.count, Nat.zero_add]),
    List.findIdx?_map, List.drop_zero]
  simp [Function.comp_def]

theorem append (h : Holds m v) (f : String) (hlt : v.length < xyWatchMax) :
    ∃ n, m.append f = some n ∧ Holds n (v ++ [(m.stringNext, { fname := f })]) := by
  have hcell : m.count < m.cells.length := by rw [h.count, h.size]; exact hlt
  refine ⟨_, if_pos hcell, ?_, ?_, ?_, ?_, ?_, ?_, ?_⟩
  · exact (List.length_set ..).trans h.size
  · rw [List.length_append, ← h.count]
    rfl
  · rw [List.length_append]
    exact hlt
  · intro i hi
    rw [List.length_append] at hi
    show (m.cells.set m.count _)[i]? = _
    by_cases hic : i = m.count
    · subst hic
      rw [List.getElem?_set_self hcell, h.count, List.getElem?_concat_length]
      rfl
    · have hiv : i < v.length := by
        have h1 : i < v.length + 1 := hi
        have h2 := h.count
        omega
      rw [List.getElem?_set_ne (Ne.symm hic), h.cells i hiv, List.getElem?_append_left hiv]
  · intro p g
    show Function.update m.strings m.stringNext (some f) p = some g ↔ _
    by_cases hp : p = m.stringNext
    · subst hp
      rw [Function.update_self]
      constructor
      · intro hg
        cases hg
        exact ⟨{ fname := f }, by simp, rfl⟩
      · rintro ⟨e, he, rfl⟩
        rcases List.mem_append.mp he with he | he
        · exact absurd (h.fresh _ he) (Nat.lt_irrefl _)
        · cases List.mem_singleton.mp he
          rfl
    · rw [Function.update_of_ne hp, h.strings]
      constructor
      · rintro ⟨e, he, hf⟩
        exact ⟨e, List.mem_append_left _ he, hf⟩
      · rintro ⟨e, he, hf⟩
        rcases List.mem_append.mp he with he | he
        · exact ⟨e, he, hf⟩
        · cases List.mem_singleton.mp he
          exact absurd rfl hp
  · rw [List.map_append, List.nodup_append]
    refine ⟨h.once, List.nodup_singleton _, fun a ha b hb => ?_⟩
    obtain ⟨x, hx, rfl⟩ := List.mem_map.mp ha
    rw [List.mem_singleton.mp hb]
    exact (h.fresh x hx).ne
  · intro x hx
    rcases List.mem_append.mp hx with hx | hx
    · exact (h.fresh x hx).trans (Nat.lt_succ_self _)
    · cases List.mem_singleton.mp hx
      exact Nat.lt_succ_self _

theorem setWd (h : Holds m v) (hi : i < v.length) (wd : Option Wd) :
    ∃ n, m.setWd i wd = some n ∧ Holds n (v.modify i fun x => (x.1, { x.2 with wd := wd })) := by
  obtain ⟨c, hc, hname, -, ht⟩ := h.text (List.getElem?_eq_getElem hi)
  refine ⟨{ m with cells := m.cells.set i { c with wd := wd } }, ?_, ?_, ?_, ?_, ?_, ?_, ?_, ?_⟩
  · simp [WatchMemory.setWd, hc, ht]
  · exact (List.length_set ..).trans h.size
  · rw [List.length_modify]
    exact h.count
  · rw [List.length_modify]
    exact h.bound
  · intro j hj
    rw [List.length_modify] at hj
    show (m.cells.set i _)[j]? = _
    rw [List.getElem?_modify]
    by_cases hij : i = j
    · subst hij
      rw [List.getElem?_set_self (by rw [h.size]; exact hi.trans_le h.bound),
        List.getElem?_eq_getElem hi, hname]
      simp
    · rw [List.getElem?_set_ne hij, h.cells j hj]
      simp [hij]
  · intro p f
    rw [show ({ m with cells := m.cells.set i { c with wd := wd } } : WatchMemory).strings = m.strings
      from rfl, h.strings]
    -- the path of an entry does not depend on its descriptor
    have hmap := map_modify_same (fun x : Nat × WatchEntry => (x.1, x.2.fname))
      (f := fun x => (x.1, { x.2 with wd := wd })) (fun _ => rfl) v i
    have hmem : ∀ l : List (Nat × WatchEntry),
        (∃ e, (p, e) ∈ l ∧ e.fname = f) ↔ (p, f) ∈ l.map fun x => (x.1, x.2.fname) := by
      intro l
      simp [List.mem_map]
    rw [hmem, hmem, hmap]
  · rw [map_modify_same _ (by intro x; rfl)]
    exact h.once
  · intro x hx
    have hmem := List.mem_map_of_mem (f := fun x : Nat × WatchEntry => x.1) hx
    rw [map_modify_same _ (by intro x; rfl)] at hmem
    obtain ⟨y, hy, hxy⟩ := List.mem_map.mp hmem
    exact hxy ▸ h.fresh y hy

theorem removeAt (h : Holds m v) (hi : i < v.length) :
    ∃ n, m.removeAt i = some n ∧ Holds n (v.eraseIdx i) := by
  have hv : v[i]? = some v[i] := List.getElem?_eq_getElem hi
  obtain ⟨c, hc, hname, -, ht⟩ := h.text hv
  have hstr : m.strings v[i].1 = some v[i].2.fname := by
    rw [WatchMemory.text, hname] at ht
    exact ht
  have hsize := h.size
  have hbound := h.bound
  have hcount := h.count
  obtain ⟨cells, hcells, hlen, hget⟩ := compact_spec (m.count - 1 - i) i m.cells (by omega)
  have hrest : (v.eraseIdx i).length = v.length - 1 := List.length_eraseIdx_of_lt hi
  refine ⟨{ m with cells := cells, count := m.count - 1,
                   strings := Function.update m.strings v[i].1 none }, ?_, ?_, ?_, ?_, ?_, ?_, ?_, ?_⟩
  · simp [WatchMemory.removeAt, hc, hname, hstr, hcells]
  · exact hlen.trans h.size
  · rw [hrest, ← hcount]
  · omega
  · intro j hj
    rw [hrest] at hj
    show cells[j]? = _
    rw [hget, List.getElem?_eraseIdx]
    by_cases hji : j < i
    · rw [if_neg (by omega), if_pos hji, h.cells j (by omega)]
    · rw [if_pos (by omega), if_neg hji, h.cells (j + 1) (by omega)]
  · intro p f
    show Function.update m.strings v[i].1 none p = some f ↔ _
    by_cases hp : p = v[i].1
    · subst hp
      rw [Function.update_self]
      refine ⟨fun hf => (by cases hf), ?_⟩
      rintro ⟨e, he, -⟩
      obtain ⟨k, hk, hve⟩ := List.mem_eraseIdx_iff_getElem?.mp he
      -- every path has an address of its own
      have hlt : i < (v.map (·.1)).length := by
        rw [List.length_map]
        exact hi
      refine absurd ((List.getElem?_inj hlt h.once).mp ?_).symm hk
      rw [List.getElem?_map, List.getElem?_map, hv, hve]
      rfl
    · rw [Function.update_of_ne hp, h.strings]
      constructor
      · rintro ⟨e, he, hf⟩
        obtain ⟨k, hk⟩ := List.mem_iff_getElem?.mp he
        refine ⟨e, List.mem_eraseIdx_iff_getElem?.mpr ⟨k, ?_, hk⟩, hf⟩
        rintro rfl
        rw [hv] at hk
        exact hp (congrArg Prod.fst (Option.some.inj hk)).symm
      · rintro ⟨e, he, hf⟩
        exact ⟨e, List.mem_of_mem_eraseIdx he, hf⟩
  · exact (List.Sublist.map _ (List.eraseIdx_sublist v i)).nodup h.once
  · exact fun x hx => h.fresh x (List.mem_of_mem_eraseIdx hx)

theorem step (h : Holds m v) (op : SetOp) :
    ∃ n w, op.run m = some n ∧ Holds n w ∧ w.map (·.2) = op.apply (v.map (·.2)) := by
  have hlen : (v.map (·.2)).length = m.count := (List.length_map ..).trans h.count.symm
  cases op with
  | add f noMem =>
      simp only [SetOp.run, SetOp.apply, WatchMemory.add, h.entryFind f]
      cases hf : (v.map (·.2)).findIdx? fun e => e.fname = f with
      | some i => exact ⟨m, v, rfl, h, rfl⟩
      | none =>
          by_cases hno : xyWatchMax ≤ m.count ∨ noMem = true
          · refine ⟨m, v, if_pos hno, h, ?_⟩
            rw [if_pos (hlen ▸ hno)]
          · have hroom : v.length < xyWatchMax := h.count ▸ Nat.lt_of_not_le fun hc => hno (.inl hc)
            obtain ⟨n, hn, hw⟩ := h.append f hroom
            refine ⟨n, _, (if_neg hno).trans hn, hw, ?_⟩
            rw [if_neg (hlen ▸ hno), List.map_append]
            rfl
  | remove f =>
      simp only [SetOp.run, SetOp.apply, WatchMemory.remove, h.entryFind f]
      cases hf : (v.map (·.2)).findIdx? fun e => e.fname = f with
      | none => exact ⟨m, v, rfl, h, rfl⟩
      | some i =>
          have hi : i < v.length := by
            rw [← List.length_map (f := fun x : Nat × WatchEntry => x.2)]
            exact (List.findIdx?_eq_some_iff_getElem.mp hf).1
          obtain ⟨n, hn, hw⟩ := h.removeAt hi
          exact ⟨n, _, hn, hw, (List.eraseIdx_map ..).symm⟩
  | setWd i wd =>
      by_cases hi : i < m.count
      · obtain ⟨n, hn, hw⟩ := h.setWd (h.count ▸ hi) wd
        refine ⟨n, _, (if_pos hi).trans hn, hw, List.ext_getElem? fun j => ?_⟩
        simp only [SetOp.apply, List.getElem?_map, List.getElem?_modify]
        cases v[j]? with
        | none => rfl
        | some x => by_cases hij : i = j <;> simp [hij]
      · refine ⟨m, v, if_neg hi, h, ?_⟩
        rw [SetOp.apply, List.modify_eq_self (by omega)]

end Holds

theorem holds_empty : Holds {} [] where
  size := List.length_replicate ..
  count := rfl
  bound := Nat.zero_le _
  cells i hi := absurd hi (Nat.not_lt_zero i)
  strings p f := by simp
  once := List.nodup_nil
  fresh x hx := by cases hx

theorem run_holds (ops : List SetOp) {m : WatchMemory} {v : List (Nat × WatchEntry)} (h : Holds m v) :
    ∃ n w, ops.foldlM SetOp.run m = some n ∧ Holds n w ∧
      w.map (·.2) = ops.foldl SetOp.apply (v.map (·.2)) := by
  induction ops generalizing m v with
  | nil => exact ⟨m, v, rfl, h, rfl⟩
  | cons op ops ih =>
      obtain ⟨m1, v1, h1, hv1, he1⟩ := h.step op
      obtain ⟨n, w, hn, hw, he⟩ := ih hv1
      refine ⟨n, w, ?_, hw, ?_⟩
      · rw [List.foldlM_cons, h1]
        exact hn
      · rw [List.foldl_cons, ← he1]
        exact he

/-- Whatever is done to the watch set, no loop leaves the array, no freed path is read or
freed again, and afterwards the cells in use are the entries of the list, in its order, and
the strings allocated are exactly their paths. -/
theorem watch_memory_safe (ops : List SetOp) :
    ∃ m v, ops.foldlM SetOp.run {} = some m ∧ Holds m v ∧
      v.map (·.2) = ops.foldl SetOp.apply [] := run_holds ops holds_empty

/-! ### The set of a running module -/

def Made (l l' : List WatchEntry) : Prop := ∃ ops : List SetOp, l' = ops.foldl SetOp.apply l

namespace Made
variable {l l' l'' : List WatchEntry}

theorem refl (l : List WatchEntry) : Made l l := ⟨[], rfl⟩

theorem one (op : SetOp) (l : List WatchEntry) : Made l (op.apply l) := ⟨[op], rfl⟩

theorem trans (h : Made l l') (k : Made l' l'') : Made l l'' := by
  obtain ⟨ops, rfl⟩ := h
  obtain ⟨ops', rfl⟩ := k
  exact ⟨ops ++ ops', List.foldl_append.symm⟩

theorem rewatch (s : Statics) (i : Nat) : Made s.entries (s.entryRewatch i).entries := by
  unfold Statics.entryRewatch
  split
  · rename_i fd e hfd he
    split
    · exact .refl _
    · rename_i path hp
      have hents := Statics.inotifyAddWatch_entries s fd path
      generalize s.inotifyAddWatch fd path = r at hents
      obtain ⟨u, wd⟩ := r
      have hset : u.entries.set i { e with wd := wd } = SetOp.apply s.entries (.setWd i wd) := by
        rw [show u.entries = s.entries from hents]
        refine List.ext_getElem? fun j => ?_
        rw [SetOp.apply, List.getElem?_modify]
        by_cases hij : i = j
        · subst hij
          rw [List.getElem?_set_self (List.getElem?_eq_some_iff.mp he).1, he]
          simp
        · rw [List.getElem?_set_ne hij]
          simp [hij]
      show Made s.entries (u.entries.set i { e with wd := wd })
      rw [hset]
      exact .one _ _
  · exact .refl _

theorem rewatchAll (l : List Nat) (s : Statics) :
    Made s.entries (l.foldl Statics.entryRewatch s).entries := by
  induction l generalizing s with
  | nil => exact .refl _
  | cons i l ih => exact (rewatch s i).trans (ih _)

theorem unwatchAll (l : List WatchEntry) : Made l (l.map fun e => { e with wd := none }) := by
  refine ⟨(List.range l.length).map fun i => .setWd i none, ?_⟩
  have key : ∀ n j, (((List.range n).map fun i => SetOp.setWd i none).foldl SetOp.apply l)[j]? =
      l[j]?.map fun e => if j < n then { e with wd := none } else e := by
    intro n j
    induction n with
    | zero => cases hl : l[j]? <;> simpa using hl
    | succ n ih =>
        rw [List.range_succ, List.map_append, List.foldl_append]
        simp only [List.map_cons, List.map_nil, List.foldl_cons, List.foldl_nil, SetOp.apply]
        rw [List.getElem?_modify, ih]
        cases l[j]? with
        | none => rfl
        | some e =>
            by_cases hj : n = j
            · subst hj
              simp
            · have hlt : j < n + 1 ↔ j < n := by omega
              simp [hj, hlt]
  refine List.ext_getElem? fun j => ?_
  rw [key, List.getElem?_map]
  by_cases hj : j < l.length
  · simp only [hj, if_true]
  · rw [List.getElem?_eq_none (Nat.not_lt.mp hj)]
    rfl

end Made

theorem pathStep_made {s t : Statics} {e : PathEvent} (h : pathStep s e = .ok t) :
    Made s.entries t.entries := by
  cases e with
  | add fname noMem =>
      cases h
      cases fname with
      | none => exact .refl _
      | some f =>
          have hone := Made.one (.add f noMem) s.entries
          unfold Statics.watchAdd Statics.entryFind
          rw [SetOp.apply] at hone
          dsimp only
          cases hf : s.entries.findIdx? fun e => e.fname = f with
          | some i => exact .refl _
          | none =>
              rw [hf] at hone
              dsimp only at hone ⊢
              by_cases hfull : xyWatchMax ≤ s.entries.length
              · rw [if_pos hfull]
                exact .refl _
              · rw [if_neg hfull]
                cases noMem with
                | true => exact .refl _
                | false =>
                    rw [if_neg (by simp [hfull])] at hone
                    simp only [Bool.false_eq_true, if_false]
                    split
                    · exact hone.trans (.rewatch _ _)
                    · exact hone
  | remove fname =>
      cases h
      cases fname with
      | none => exact .refl _
      | some f =>
          have hone := Made.one (.remove f) s.entries
          unfold Statics.watchRemove Statics.entryFind
          rw [SetOp.apply] at hone
          rw [Option.bind_some]
          cases hf : s.entries.findIdx? fun e => e.fname = f with
          | none => exact .refl _
          | some i =>
              rw [hf] at hone
              dsimp only at hone ⊢
              split <;> exact hone
  | start ch =>
      cases h
      have hclose : ∀ u : Statics, u.closeAll.entries = u.entries := fun u => by
        obtain ⟨o, ho⟩ := Statics.closeAll_eq u
        rw [ho]
      unfold Statics.watchStart
      split
      · exact .refl _
      · split
        · exact .refl _
        · dsimp only
          split
          · exact .refl _
          · have hall := Made.rewatchAll (List.range s.entries.length)
              (({ s.openFd.1 with ifd := some s.openFd.2 } : Statics).openPipe)
            split
            · rw [show _ = _ from hclose _]
              exact hall
            · exact hall
  | stop =>
      cases h
      cases hr : s.running with
      | false =>
          have hs : s.xyWatchStop = s := by simp [Statics.xyWatchStop, Statics.watchStop, hr]
          rw [hs]
          exact .refl _
      | true =>
          have hs : s.xyWatchStop = s.watchStop.1.watchStopped := by
            simp [Statics.xyWatchStop, Statics.watchStop, hr]
          have hents : s.watchStop.1.entries = s.entries := by simp [Statics.watchStop, hr]
          obtain ⟨o, ho⟩ := Statics.closeAll_eq s.watchStop.1
          rw [hs, Statics.watchStopped, ho]
          show Made s.entries (s.watchStop.1.entries.map _)
          rw [hents]
          exact .unwatchAll _
  | create path n =>
      simp only [pathStep] at h
      split at h
      · cases h
        exact .refl _
      · cases h
  | event wd movedTo =>
      simp only [pathStep] at h
      split at h
      · cases h
        unfold Statics.watcherEvent
        split
        · exact .refl _
        · dsimp only
          split
          · exact .rewatch _ _
          · exact .refl _
      · cases h

/-- In every run of the module some operations have made the set what it is, and in memory
they have made the same. -/
theorem entries_in_memory {fs : String → Option Inode} {tr : List (Statics × PathEvent)}
    {s : Statics} (h : Run.Steps pathStep { inode := fs } tr s) :
    ∃ (ops : List SetOp) (m : WatchMemory) (v : List (Nat × WatchEntry)),
      ops.foldlM SetOp.run {} = some m ∧ Holds m v ∧ v.map (·.2) = s.entries := by
  have hmade : Made [] s.entries :=
    Run.Steps.invariant (C := fun _ _ _ => True) (P := fun u : Statics => Made [] u.entries)
      (fun m e t hst _ hm => hm.trans (pathStep_made hst)) h (fun _ _ _ _ => trivial) (.refl _)
  obtain ⟨ops, hops⟩ := hmade
  obtain ⟨m, v, hm, hv, he⟩ := run_holds ops holds_empty
  exact ⟨ops, m, v, hm, hv, he.trans hops.symm⟩

end Xylem.Watch

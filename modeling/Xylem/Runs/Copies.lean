import Xylem.Model.Copy

namespace Xylem.Copy

section
variable {write : Nat → Option Nat} {ch : CopyChoice} {files : Files} {src tmpl : String}

/-- What is in the file and what is left in the buffer make up the same bytes throughout. -/
theorem writeLoop_spec {i j : Nat} {p out out' : List UInt8}
    (h : writeLoop write i p out = (true, j, out')) : out' = out ++ p := by
  fun_induction writeLoop write i p out with
  | case1 i out =>
      obtain ⟨-, -, rfl⟩ : True ∧ i = j ∧ out = out' := by simpa using h
      rw [List.append_nil]
  | case2 | case3 => cases h
  | case4 i p out hp w hwi w' hw ih =>
      rw [ih h, List.append_assoc, List.take_append_drop]

/-- The same over the file, the source from the offset on, and any number of buffers. -/
theorem readLoop_spec {j i : Nat} {rest out out' : List UInt8}
    (h : readLoop ch j i rest out = (true, out')) : out' = out ++ rest := by
  fun_induction readLoop ch j i rest out with
  | case1 => cases h
  | case2 j i out k hk =>
      cases h
      rw [List.append_nil]
  | case3 => cases h
  | case4 j i rest out k hk hr n i' out₁ hw ih =>
      rw [ih h, writeLoop_spec hw, List.append_assoc, List.take_append_drop]

-- three bytes read two at a time and written one at a time
example :
    readLoop ⟨none, true, fun _ => some 2, fun _ => some 1, true, true, true⟩ 0 0 [1, 2, 3] [] =
      (true, [1, 2, 3]) := by
  simp [readLoop, writeLoop, bufSize]

theorem copyBody_spec {out : List UInt8} (h : copyBody files src ch = (true, out)) :
    files src = some out := by
  unfold copyBody at h
  split at h
  · cases hf : files src with
    | none =>
        rw [hf] at h
        cases h
    | some bytes =>
        rw [hf] at h
        cases hr : readLoop ch 0 0 bytes [] with
        | mk done out' =>
            simp only [hr, Prod.mk.injEq, Bool.and_eq_true] at h
            obtain ⟨⟨⟨rfl, -⟩, -⟩, rfl⟩ := h
            rw [readLoop_spec hr, List.nil_append]
  · cases h

theorem mkstemps_new {letters name : String} (h : mkstemps files tmpl letters = some name) :
    files name = none := by
  simp only [mkstemps] at h
  split at h
  · split at h
    · cases h
      assumption
    · cases h
  · cases h

/-- The outcome of one copy: a new file with the bytes of `src`, or the files as before. -/
structure CopyResult.Faithful (r : CopyResult) (files : Files) (src : String) (outTmp : Option String)
    (named : Bool) : Prop where
  rc : r.rc = 0 ∨ r.rc = -1
  copied : r.rc = 0 → ∃ name bytes, files src = some bytes ∧ files name = none ∧
    r.files = Function.update files name (some bytes) ∧
    r.outTmp = if named then some name else none
  undone : r.rc = -1 → r.files = files ∧ r.outTmp = outTmp

theorem CopyResult.Faithful.failed (files : Files) (src : String) (outTmp : Option String)
    (named : Bool) :
    CopyResult.Faithful ⟨-1, files, outTmp⟩ files src outTmp named :=
  ⟨.inr rfl, fun h => (by cases h), fun _ => ⟨rfl, rfl⟩⟩

theorem copyOne_faithful (files : Files) (src tmplIn : String) (outTmp : Option String)
    (ch : CopyChoice) :
    (copyOne files src tmplIn outTmp ch).Faithful files src outTmp ch.strdup := by
  unfold copyOne
  split
  · exact .failed files src outTmp _
  · cases hm : ch.letters.bind (mkstemps files tmplIn) with
    | none => exact .failed files src outTmp _
    | some name =>
        obtain ⟨letters, -, hname⟩ := Option.bind_eq_some_iff.mp hm
        have hnew := mkstemps_new hname
        cases hb : copyBody files src ch with
        | mk ok out =>
            cases ok with
            | true =>
                exact ⟨.inl rfl, fun _ => ⟨name, out, copyBody_spec hb, hnew, rfl, rfl⟩,
                  fun h => (by cases h)⟩
            | false =>
                refine ⟨.inr rfl, fun h => (by cases h), fun _ => ⟨?_, rfl⟩⟩
                -- the created file is unlinked, and there was none of its name before
                change Function.update (Function.update files name (some out)) name none = files
                rw [Function.update_idem, ← hnew, Function.update_eq_self]

/-- `copy_to_tmp` under any schedules: what the last copy tried has left. -/
theorem copyFirst_faithful (files : Files) (src : String) (outTmp : Option String)
    (ch : Nat → CopyChoice) (k : Nat) (tmpls : List String) :
    ∃ named, ((∀ k, (ch k).strdup = true) → named = true) ∧
      (copyFirst src files outTmp ch k tmpls).Faithful files src outTmp named := by
  induction tmpls generalizing k with
  | nil => exact ⟨true, fun _ => rfl, .failed files src outTmp true⟩
  | cons tmpl rest ih =>
      have hone := copyOne_faithful files src tmpl outTmp (ch k)
      rw [copyFirst]
      split
      · exact ⟨(ch k).strdup, fun hd => hd k, hone⟩
      · rename_i hrc
        obtain ⟨hfiles, hout⟩ := hone.undone (hone.rc.resolve_left hrc)
        simp only [hfiles, hout]
        exact ih (k + 1)

/-- A copy that succeeds leaves one new file, with the bytes of the source, and the name of it;
a copy that fails leaves no file, whichever of the places it was tried in. The name is missing
only for want of memory. -/
theorem copies_faithful (files : Files) (src : String) (outTmp : Option String) :
    (∀ tmplIn ch, (copyOne files src tmplIn outTmp ch).Faithful files src outTmp ch.strdup) ∧
      ∀ ch : Nat → CopyChoice, ∃ named, ((∀ k, (ch k).strdup = true) → named = true) ∧
        (copyToTmp files src outTmp ch).Faithful files src outTmp named :=
  ⟨fun tmplIn ch => copyOne_faithful files src tmplIn outTmp ch,
    fun ch => copyFirst_faithful files src outTmp ch 0 (templates src)⟩

end
end Xylem.Copy

import Xylem.Runs.CellLaws

namespace Xylem

open Xylem.Runtime

/-- A found symbol has its bit up, and a bit stands for a symbol that is there. -/
structure BitsOk (E : Env) (hooks : AList (fun _ : String => Nat)) (e : ModEntry) : Prop where
  fn : ∀ i f, e.fnCache i = .fn f → e.hookImplBits i = true
  bit : ∀ i, e.hookImplBits i = true →
    ∃ name f, hooks.lookup name = some i ∧ E.dlsym e.handle name = some f

section Entries
variable {E : Env} {hooks : AList (fun _ : String => Nat)} {e : ModEntry}

theorem BitsOk.resolve {i : Nat} {name : String} (hk : hooks.lookup name = some i)
    (h : BitsOk E hooks e) : BitsOk E hooks (e.fnCacheResolve E i name).1 := by
  unfold ModEntry.fnCacheResolve
  split
  · exact h
  · exact h
  · cases hf : E.dlsym e.handle name with
    | none =>
        refine ⟨fun j g hg => ?_, h.bit⟩
        simp only [Function.update_apply] at hg
        split at hg
        · cases hg
        · exact h.fn j g hg
    | some f =>
        constructor
        · intro j g hg
          simp only [Function.update_apply] at hg ⊢
          split at hg
          · rename_i hj
            rw [if_pos hj]
          · rename_i hj
            rw [if_neg hj]
            exact h.fn j g hg
        · intro j hj
          simp only [Function.update_apply] at hj
          split at hj
          · rename_i hji
            exact ⟨name, f, hji ▸ hk, hf⟩
          · exact h.bit j hj

theorem BitsOk.prewarm {l : List ((_ : String) × Nat)} (hl : ∀ x ∈ l, hooks.lookup x.1 = some x.2)
    (h : BitsOk E hooks e) : BitsOk E hooks (e.fnCachePrewarm E l) := by
  unfold ModEntry.fnCachePrewarm
  induction l generalizing e with
  | nil => exact h
  | cons x l ih =>
      rw [List.foldl_cons]
      exact ih (fun y hy => hl y (List.mem_cons_of_mem _ hy)) (h.resolve (hl x List.mem_cons_self))

theorem BitsOk.clear (base : ImageId) (h : BitsOk E hooks e) :
    BitsOk E hooks (e.clearFnCache base) := by
  refine ⟨fun i f hf => ?_, h.bit⟩
  cases hc : e.fnCache i with
  | null => simp [ModEntry.clearFnCache, hc] at hf
  | notFound => simp [ModEntry.clearFnCache, hc] at hf
  | fn g => exact h.fn i g hc

theorem BitsOk.slotEntry {i : Nat} {name : String} (hk : hooks.lookup name = some i)
    (h : BitsOk E hooks e) : BitsOk E hooks (slotEntry E i name e) := by
  unfold Runtime.slotEntry
  split
  · exact h
  · exact h.resolve hk

theorem BitsOk.mono {hooks' : AList (fun _ : String => Nat)}
    (hk : ∀ name i, hooks.lookup name = some i → hooks'.lookup name = some i)
    (h : BitsOk E hooks e) : BitsOk E hooks' e := by
  refine ⟨h.fn, fun i hi => ?_⟩
  obtain ⟨name, f, h1, h2⟩ := h.bit i hi
  exact ⟨name, f, hk name i h1, h2⟩

/-- A vector gets a slot for exactly the modules that export the hook. A slot without a
function is for a cell that has been cleared. -/
theorem slotCell_some {i : Nat} {name : String}
    (hinj : ∀ name', hooks.lookup name' = some i → name' = name) (h : BitsOk E hooks e)
    (hc : CellOk E hooks e.handle i (e.fnCache i)) {c : FnSlot} (hs : slotCell E i name e = some c) :
    ∃ f, E.dlsym e.handle name = some f ∧ (c = .fn f ∨ c = .null) := by
  unfold slotCell slotEntry at hs
  cases hb : e.hookImplBits i with
  | true =>
      simp only [hb, if_true, Option.some.injEq] at hs
      obtain ⟨name', f, hk', hf⟩ := h.bit i hb
      rw [hinj name' hk'] at hf
      refine ⟨f, hf, ?_⟩
      rw [← hs]
      cases hcell : e.fnCache i with
      | null => exact .inr rfl
      | notFound =>
          rw [hcell] at hc
          obtain ⟨name', h1, h2⟩ := hc
          rw [hinj name' h1, hf] at h2
          cases h2
      | fn g =>
          rw [hcell] at hc
          obtain ⟨name', h1, h2⟩ := hc
          rw [hinj name' h1, hf] at h2
          exact .inl (congrArg _ (Option.some.inj h2).symm)
  | false =>
      simp only [hb, Bool.false_eq_true, if_false] at hs
      unfold ModEntry.fnCacheResolve at hs
      cases hcell : e.fnCache i with
      | fn g => rw [h.fn i g hcell] at hb; cases hb
      | notFound => simp [hcell, hb] at hs
      | null =>
          cases hf : E.dlsym e.handle name with
          | none => simp [hcell, hf, hb] at hs
          | some f =>
              simp only [hcell, hf, Function.update_self, if_true, Option.some.injEq] at hs
              exact ⟨f, rfl, .inl hs.symm⟩

theorem slotCell_isSome {i : Nat} {name : String}
    (hinj : ∀ name', hooks.lookup name' = some i → name' = name) (h : BitsOk E hooks e)
    (hc : CellOk E hooks e.handle i (e.fnCache i)) {f : Fn} (hf : E.dlsym e.handle name = some f) :
    ∃ c, slotCell E i name e = some c := by
  unfold slotCell slotEntry
  cases hb : e.hookImplBits i with
  | true => exact ⟨e.fnCache i, by simp [hb]⟩
  | false =>
      unfold ModEntry.fnCacheResolve
      cases hcell : e.fnCache i with
      | fn g => rw [h.fn i g hcell] at hb; cases hb
      | notFound =>
          rw [hcell] at hc
          obtain ⟨name', h1, h2⟩ := hc
          rw [hinj name' h1, hf] at h2
          cases h2
      | null => exact ⟨.fn f, by simp [hf]⟩

end Entries

def bitsLaw (E : Env) : CellLaw E where
  P := BitsOk E
  congr hh hf hb h := by
    refine ⟨?_, ?_⟩
    · rw [hf, hb]
      exact h.fn
    · rw [hb, hh]
      exact h.bit
  fresh hf hb := by
    refine ⟨fun i f hi => ?_, fun i hi => ?_⟩
    · rw [hf] at hi
      cases hi
    · rw [hb] at hi
      cases hi
  slot hk h := h.slotEntry hk
  prewarm h := h.prewarm fun x hx => AList.mem_lookup_iff.mpr hx
  clear base h := h.clear base
  mono hk h := h.mono hk

abbrev Marked (E : Env) (s : Runtime) : Prop := (bitsLaw E).Held s

end Xylem

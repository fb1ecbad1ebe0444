import Xylem.Model.Storage
import Xylem.Runs.CellLaws

namespace Xylem

open Xylem.Runtime

namespace ModStore

def cell (st : ModStore) : Nat → FnSlot := Cells.view .null st.fnCache

def bit (st : ModStore) : Nat → Bool := Cells.bit st.hookImplBits

/-- The recorded sizes are those of the arrays, and a hook that is marked has a cell. -/
structure Ok (st : ModStore) : Prop where
  cap : st.fnCache.length = st.fnCacheCap
  words : st.hookImplBits.length = st.hookImplWords
  inside : ∀ i, st.bit i = true → i < st.fnCacheCap

structure Views (st : ModStore) (e : ModEntry) : Prop where
  cell : st.cell = e.fnCache
  bit : st.bit = e.hookImplBits

/-- Every cell holds nothing or an answer of `dlsym` for the hook of its number. -/
def Right (E : Env) (hooks : AList (fun _ : String => Nat)) (h : ImageId) (st : ModStore) : Prop :=
  ∀ i, CellOk E hooks h i (st.cell i)

variable {E : Env} {a : Alloc} {h : ImageId} {st st' : ModStore} {i n : Nat} {name : String}
  {hooks : AList (fun _ : String => Nat)} {e : ModEntry}

theorem Ok.has (hok : st.Ok) (i : Nat) : st.moduleHasHookImplemented i = some (st.bit i) := by
  unfold moduleHasHookImplemented
  split
  · rename_i hle
    have hz : Cells.view 0#64 st.hookImplBits (i / 64) = 0#64 := Cells.view_of_le (hok.words ▸ hle)
    simp [bit, Cells.bit, hz]
  · rename_i hlt
    have hlt : i / 64 < st.hookImplBits.length := by rw [hok.words]; omega
    rw [Cells.getElem?_eq_view 0 hlt]
    exact congrArg some (Cells.and_mask_ne_zero (Nat.mod_lt _ (by decide)) _)

theorem Ok.read (hok : st.Ok) (hi : i < st.fnCacheCap) : st.fnCache[i]? = some (st.cell i) :=
  Cells.getElem?_eq_view .null (hok.cap ▸ hi)

theorem cell_of_le (hok : st.Ok) (hi : st.fnCacheCap ≤ i) : st.cell i = .null :=
  Cells.view_of_le (hok.cap ▸ hi)

/-- Growing `fn_cache` changes no cell. It fails only for want of memory. -/
theorem ensureFnCacheCap_spec (a : Alloc) (hok : st.Ok) (n : Nat) :
    (∃ st', st.moduleEnsureFnCacheCap a n = some st' ∧ st'.Ok ∧ n ≤ st'.fnCacheCap ∧
      st'.cell = st.cell ∧ st'.bit = st.bit) ∨
    st.moduleEnsureFnCacheCap a n = none ∧ a .fnCache = false := by
  unfold moduleEnsureFnCacheCap
  split
  · rename_i hle
    exact .inl ⟨st, rfl, hok, hle, rfl, rfl⟩
  · rename_i hlt
    split
    · refine .inl ⟨_, rfl, ⟨Cells.length_grow _ _ ?_, hok.words, fun i hi => ?_⟩, le_rfl, ?_, rfl⟩
      · rw [hok.cap]
        omega
      · have hlt' : i < st.fnCacheCap := hok.inside i hi
        exact (by omega : i < n)
      · exact Cells.view_grow ..
    · rename_i ha
      exact .inr ⟨rfl, by simpa using ha⟩

theorem raise_spec (hok : st.Ok) (hi : i < st.fnCacheCap) (hw : i / 64 < st.hookImplWords) :
    ∃ st', st.raise i = some st' ∧ st'.Ok ∧ st'.fnCacheCap = st.fnCacheCap ∧ st'.cell = st.cell ∧
      st'.bit = Function.update st.bit i true := by
  have hlt : i / 64 < st.hookImplBits.length := by rw [hok.words]; exact hw
  have hb : Cells.bit (st.hookImplBits.set (i / 64)
      (Cells.view 0 st.hookImplBits (i / 64) ||| 1#64 <<< (i % 64))) = Function.update st.bit i true :=
    Cells.bit_set (by decide) hlt
  unfold raise
  rw [Cells.getElem?_eq_view 0 hlt]
  refine ⟨_, rfl, ⟨hok.cap, by simp [hok.words], fun j hj => ?_⟩, rfl, rfl, hb⟩
  have hj' := (congrFun hb j).symm.trans hj
  rw [Function.update_apply] at hj'
  split at hj'
  · rename_i hji
    exact hji ▸ hi
  · exact hok.inside j hj'

/-- Growing `hook_impl_bits` changes no bit. It fails only for want of memory. -/
theorem ensureHookImplWords_spec (a : Alloc) (hok : st.Ok) (i : Nat) :
    (∃ st', st.moduleEnsureHookImplWords a i = some st' ∧ st'.Ok ∧ i / 64 < st'.hookImplWords ∧
      st'.fnCacheCap = st.fnCacheCap ∧ st'.cell = st.cell ∧ st'.bit = st.bit) ∨
    st.moduleEnsureHookImplWords a i = none ∧ a (.hookImplBits i) = false := by
  dsimp only [moduleEnsureHookImplWords]
  split
  · rename_i hle
    exact .inl ⟨st, rfl, hok, hle, rfl, rfl, rfl⟩
  · rename_i hlt
    split
    · have hgrow : Cells.bit (Cells.grow 0 st.hookImplBits (i / 64 + 1)) = st.bit := Cells.bit_grow _ _
      refine .inl ⟨_, rfl, ⟨hok.cap, Cells.length_grow _ _ ?_, fun j hj => ?_⟩, Nat.lt_succ_self _,
        rfl, rfl, hgrow⟩
      · rw [hok.words]
        omega
      · exact hok.inside j ((congrFun hgrow j).symm.trans hj)
    · rename_i ha
      exact .inr ⟨rfl, by simpa using ha⟩

theorem mark_spec (a : Alloc) (hok : st.Ok) (hi : i < st.fnCacheCap) :
    ∃ st', st.moduleMarkHookImplemented a i = some st' ∧ st'.Ok ∧
      st'.fnCacheCap = st.fnCacheCap ∧ st'.cell = st.cell ∧
      (st'.bit = Function.update st.bit i true ∨ a (.hookImplBits i) = false ∧ st'.bit = st.bit) := by
  unfold moduleMarkHookImplemented
  rcases ensureHookImplWords_spec a hok i with ⟨u, hu, huok, hw, hcap, hcell, hbit⟩ | ⟨hu, ha⟩
  · obtain ⟨st', h1, h2, h3, h4, h5⟩ := raise_spec huok (hcap ▸ hi) hw
    rw [hu]
    exact ⟨st', h1, h2, h3.trans hcap, h4.trans hcell, .inl (hbit ▸ h5)⟩
  · rw [hu]
    exact ⟨st, rfl, hok, rfl, rfl, .inr ⟨ha, rfl⟩⟩

def answer (E : Env) (h : ImageId) (name : String) : FnSlot :=
  match E.dlsym h name with
  | some f => .fn f
  | none => .notFound

/-- Filling a cell inside the array. The bit goes up with a function, if there is memory. -/
theorem fill_spec (E : Env) (h : ImageId) (name : String) (a : Alloc) (hok : st.Ok)
    (hi : i < st.fnCacheCap) :
    ∃ st', st.fill E a h i name = some st' ∧ st'.Ok ∧ st'.fnCacheCap = st.fnCacheCap ∧
      st'.cell = Function.update st.cell i (answer E h name) ∧
      (st'.bit = (if (E.dlsym h name).isSome then Function.update st.bit i true else st.bit) ∨
        a (.hookImplBits i) = false ∧ st'.bit = st.bit) := by
  have hlt : i < st.fnCache.length := by rw [hok.cap]; exact hi
  have hset : ∀ c, Cells.view .null (st.fnCache.set i c) = Function.update st.cell i c :=
    fun c => Cells.view_set .null hlt c
  have hok' : ∀ c, ({ st with fnCache := st.fnCache.set i c } : ModStore).Ok :=
    fun c => ⟨by simp [hok.cap], hok.words, hok.inside⟩
  unfold fill answer
  rw [if_pos hlt]
  cases E.dlsym h name with
  | none => exact ⟨_, rfl, hok' _, rfl, hset _, .inl rfl⟩
  | some f =>
      obtain ⟨st', h1, h2, h3, h4, h5⟩ := mark_spec a (hok' (.fn f)) (i := i) hi
      exact ⟨st', h1, h2, h3, h4.trans (hset _), h5⟩

/-- A filled cell is right, and views what the entry's own resolving does. -/
theorem fill_right (a : Alloc) (hok : st.Ok) (hi : i < st.fnCacheCap)
    (hk : hooks.lookup name = some i) (hr : st.Right E hooks h) :
    ∃ st', st.fill E a h i name = some st' ∧ st'.Ok ∧ st'.fnCacheCap = st.fnCacheCap ∧
      st'.Right E hooks h ∧ ((∀ g, a g = true) → ∀ e, e.handle = h → st.Views e →
        st.cell i = .null → st'.Views (e.fnCacheResolve E i name).1) := by
  obtain ⟨st', h1, h2, h3, h4, h5⟩ := fill_spec E h name a hok hi
  refine ⟨st', h1, h2, h3, fun j => ?_, fun ha e he hv hn => ?_⟩
  · rw [h4, Function.update_apply]
    split
    · rename_i hj
      subst hj
      unfold answer
      cases hf : E.dlsym h name with
      | none => exact ⟨name, hk, hf⟩
      | some f => exact ⟨name, hk, hf⟩
    · exact hr j
  · have hbit : st'.bit = if (E.dlsym h name).isSome then Function.update st.bit i true else st.bit := by
      rcases h5 with h5 | ⟨h5, -⟩
      · exact h5
      · rw [ha] at h5
        cases h5
    have hnull : e.fnCache i = .null := (congrFun hv.cell i).symm.trans hn
    unfold ModEntry.fnCacheResolve
    simp only [hnull, he]
    unfold answer at h4
    cases hf : E.dlsym h name with
    | none =>
        rw [hf] at h4 hbit
        exact ⟨h4.trans (by rw [hv.cell]), hbit.trans hv.bit⟩
    | some f =>
        rw [hf] at h4 hbit
        exact ⟨h4.trans (by rw [hv.cell]), hbit.trans (by rw [hv.bit]; rfl)⟩

/-- Resolving a hook: in bounds whatever happens, and as the entry does it while there is memory. -/
theorem fnCacheResolve_spec (a : Alloc) (hok : st.Ok) (hk : hooks.lookup name = some i)
    (hr : st.Right E hooks h) :
    ∃ st' r, st.fnCacheResolve E a h i name = some (st', r) ∧ st'.Ok ∧ st'.Right E hooks h ∧
      ((∀ g, a g = true) → ∀ e, e.handle = h → st.Views e →
        st'.Views (e.fnCacheResolve E i name).1 ∧ r = some (e.fnCacheResolve E i name).2) := by
  have hfill : ∀ u : ModStore, u.Ok → i < u.fnCacheCap → u.cell = st.cell → u.bit = st.bit →
      st.cell i = .null → ∃ st' r, ((u.fill E a h i name).map fun st => (st, some (E.dlsym h name))) =
          some (st', r) ∧ st'.Ok ∧ st'.Right E hooks h ∧
        ((∀ g, a g = true) → ∀ e, e.handle = h → st.Views e →
          st'.Views (e.fnCacheResolve E i name).1 ∧ r = some (e.fnCacheResolve E i name).2) := by
    intro u hu hlt hcell hbit hn
    obtain ⟨st', h1, h2, -, h4, h5⟩ := fill_right a hu hlt hk (fun j => hcell ▸ hr j)
    rw [h1]
    refine ⟨st', _, rfl, h2, h4, fun ha e he hv => ⟨?_, ?_⟩⟩
    · exact h5 ha e he ⟨hcell.trans hv.cell, hbit.trans hv.bit⟩ (hcell ▸ hn)
    · have hnull : e.fnCache i = .null := (congrFun hv.cell i).symm.trans hn
      unfold ModEntry.fnCacheResolve
      simp only [hnull, he]
      cases E.dlsym h name <;> rfl
  unfold fnCacheResolve
  split
  · rename_i hlt
    rw [hok.read hlt]
    cases hc : st.cell i with
    | null => exact hfill st hok hlt rfl rfl hc
    | notFound =>
        refine ⟨st, _, rfl, hok, hr, fun ha e he hv => ?_⟩
        have hcell : e.fnCache i = .notFound := (congrFun hv.cell i).symm.trans hc
        simp only [ModEntry.fnCacheResolve, hcell]
        exact ⟨hv, trivial⟩
    | fn f =>
        refine ⟨st, _, rfl, hok, hr, fun ha e he hv => ?_⟩
        have hcell : e.fnCache i = .fn f := (congrFun hv.cell i).symm.trans hc
        simp only [ModEntry.fnCacheResolve, hcell]
        exact ⟨hv, trivial⟩
  · rename_i hge
    rcases ensureFnCacheCap_spec a hok (i + 16) with ⟨u, hu, huok, hlt, hcell, hbit⟩ | ⟨hu, ha⟩
    · rw [hu]
      exact hfill u huok (by omega) hcell hbit (cell_of_le hok (by omega))
    · rw [hu]
      exact ⟨st, none, rfl, hok, hr, fun hall => by rw [hall] at ha; cases ha⟩

theorem prewarmHook_spec (a : Alloc) (hok : st.Ok) {x : (_ : String) × Nat}
    (hk : hooks.lookup x.1 = some x.2) (hlt : x.2 < st.fnCacheCap) (hr : st.Right E hooks h) :
    ∃ st', st.prewarmHook E a h x = some st' ∧ st'.Ok ∧ st'.fnCacheCap = st.fnCacheCap ∧
      st'.Right E hooks h ∧ ((∀ g, a g = true) → ∀ e, e.handle = h → st.Views e →
        st'.Views (e.fnCacheResolve E x.2 x.1).1) := by
  unfold prewarmHook
  rw [if_neg (by omega), hok.read hlt]
  cases hc : st.cell x.2 with
  | null =>
      obtain ⟨st', h1, h2, h3, h4, h5⟩ := fill_right a hok hlt hk hr
      exact ⟨st', h1, h2, h3, h4, fun ha e he hv => h5 ha e he hv hc⟩
  | notFound =>
      refine ⟨st, rfl, hok, rfl, hr, fun ha e he hv => ?_⟩
      have hcell : e.fnCache x.2 = .notFound := (congrFun hv.cell x.2).symm.trans hc
      simp only [ModEntry.fnCacheResolve, hcell]
      exact hv
  | fn f =>
      refine ⟨st, rfl, hok, rfl, hr, fun ha e he hv => ?_⟩
      have hcell : e.fnCache x.2 = .fn f := (congrFun hv.cell x.2).symm.trans hc
      simp only [ModEntry.fnCacheResolve, hcell]
      exact hv

theorem prewarmHooks_spec (a : Alloc) {l : List ((_ : String) × Nat)} (hok : st.Ok)
    (hk : ∀ x ∈ l, hooks.lookup x.1 = some x.2) (hlt : ∀ x ∈ l, x.2 < st.fnCacheCap)
    (hr : st.Right E hooks h) :
    ∃ st', l.foldlM (prewarmHook E a h) st = some st' ∧ st'.Ok ∧ st'.Right E hooks h ∧
      ((∀ g, a g = true) → ∀ e, e.handle = h → st.Views e → st'.Views (e.fnCachePrewarm E l)) := by
  induction l generalizing st with
  | nil => exact ⟨st, rfl, hok, hr, fun _ e _ hv => hv⟩
  | cons x l ih =>
      obtain ⟨u, h1, h2, h3, h4, h5⟩ := prewarmHook_spec a hok (hk x List.mem_cons_self)
        (hlt x List.mem_cons_self) hr
      obtain ⟨st', k1, k2, k3, k4⟩ := ih h2 (fun y hy => hk y (List.mem_cons_of_mem _ hy))
        (fun y hy => h3 ▸ hlt y (List.mem_cons_of_mem _ hy)) h4
      refine ⟨st', ?_, k2, k3, fun ha e he hv => ?_⟩
      · rw [List.foldlM_cons, h1]
        exact k1
      · exact k4 ha _ ((ModEntry.fnCacheResolve_handle e _ _).trans he) (h5 ha e he hv)

theorem fnCachePrewarm_spec (a : Alloc) {l : List ((_ : String) × Nat)} (hok : st.Ok)
    (hk : ∀ x ∈ l, hooks.lookup x.1 = some x.2) (hlt : ∀ x ∈ l, x.2 < n) (hr : st.Right E hooks h) :
    ∃ st', st.fnCachePrewarm E a h n l = some st' ∧ st'.Ok ∧ st'.Right E hooks h ∧
      ((∀ g, a g = true) → ∀ e, e.handle = h → st.Views e → st'.Views (e.fnCachePrewarm E l)) := by
  unfold fnCachePrewarm
  split
  · rename_i hn
    have hl : l = [] := List.eq_nil_iff_forall_not_mem.mpr fun x hx => by
      have := hlt x hx
      omega
    subst hl
    exact ⟨st, rfl, hok, hr, fun _ e _ hv => hv⟩
  · rcases ensureFnCacheCap_spec a hok (n + 16) with ⟨u, hu, huok, hcap, hcell, hbit⟩ | ⟨hu, ha⟩
    · rw [hu]
      obtain ⟨st', k1, k2, k3, k4⟩ := prewarmHooks_spec a huok hk
        (fun x hx => by have := hlt x hx; omega) (fun j => hcell ▸ hr j : u.Right E hooks h)
      exact ⟨st', k1, k2, k3, fun hall e he hv =>
        k4 hall e he ⟨hcell.trans hv.cell, hbit.trans hv.bit⟩⟩
    · rw [hu]
      exact ⟨st, rfl, hok, hr, fun hall => by rw [hall] at ha; cases ha⟩

theorem clearFnCache_spec (base : ImageId) (hok : st.Ok) (hr : st.Right E hooks h) :
    ∃ st', st.clearFnCache base = some st' ∧ st'.Ok ∧ st'.Right E hooks h ∧
      ∀ e, st.Views e → st'.Views (e.clearFnCache base) := by
  unfold clearFnCache
  rw [if_pos hok.cap.ge]
  have hview := Cells.view_map FnSlot.null st.fnCache (f := clearCell base) rfl
  refine ⟨_, rfl, ⟨by simp [hok.cap], hok.words, hok.inside⟩, fun i => ?_, fun e hv => ⟨?_, hv.bit⟩⟩
  · have hcell : CellOk E hooks h i (clearCell base (st.cell i)) := by
      have hi := hr i
      unfold clearCell
      split
      · rename_i f hf
        split
        · trivial
        · exact hf ▸ hi
      · exact hi
    exact (congrArg (CellOk E hooks h i) (congrFun hview i)).mpr hcell
  · have hclear : (e.clearFnCache base).fnCache = fun i => clearCell base (e.fnCache i) := by
      funext i
      cases hc : e.fnCache i <;> simp [ModEntry.clearFnCache, clearCell, hc]
    rw [hclear, ← hv.cell]
    exact hview

theorem readSlot_spec (hok : st.Ok) (i : Nat) :
    st.readSlot i = some (if st.bit i then .slot (st.cell i) else .skip) := by
  unfold readSlot
  rw [hok.has]
  cases hb : st.bit i with
  | false => rfl
  | true =>
      rw [hok.read (hok.inside i hb)]
      rfl

theorem resolve_none_bits (e : ModEntry) (hn : (e.fnCacheResolve E i name).2 = none) :
    (e.fnCacheResolve E i name).1.hookImplBits = e.hookImplBits := by
  unfold ModEntry.fnCacheResolve at hn ⊢
  split
  · rfl
  · rfl
  · rename_i hc
    rw [hc] at hn
    cases hf : E.dlsym e.handle name with
    | none => rfl
    | some f =>
        rw [hf] at hn
        cases hn

/-- The slot the rebuild writes is read inside `fn_cache`, and is the entry's own. -/
theorem pick_spec (a : Alloc) (hok : st.Ok) (hk : hooks.lookup name = some i)
    (hr : st.Right E hooks h) :
    ∃ st' r, st.pick E a h i name = some (st', r) ∧ st'.Ok ∧ st'.Right E hooks h ∧
      ((∀ g, a g = true) → ∀ e, e.handle = h → st.Views e → st'.Views (slotEntry E i name e) ∧
        r = match slotCell E i name e with
          | some c => .slot c
          | none => .skip) := by
  unfold pick slotCell slotEntry
  rw [hok.has]
  cases hb : st.bit i with
  | true =>
      simp only [readSlot_spec hok]
      refine ⟨st, _, rfl, hok, hr, fun ha e he hv => ?_⟩
      have hbit : e.hookImplBits i = true := (congrFun hv.bit i).symm.trans hb
      rw [hb, hv.cell]
      simp [hbit, hv]
  | false =>
      obtain ⟨st', r, h1, h2, h3, h4⟩ := fnCacheResolve_spec a hok hk hr
      have hbit : ∀ e : ModEntry, st.Views e → e.hookImplBits i = false :=
        fun e hv => (congrFun hv.bit i).symm.trans hb
      simp only [h1]
      cases r with
      | none =>
          refine ⟨st', _, rfl, h2, h3, fun ha e he hv => ?_⟩
          cases (h4 ha e he hv).2
      | some r =>
          cases r with
          | none =>
              refine ⟨st', _, rfl, h2, h3, fun ha e he hv => ?_⟩
              obtain ⟨k1, k2⟩ := h4 ha e he hv
              have hsame := resolve_none_bits e (Option.some.inj k2).symm
              simp only [hbit e hv, hsame, Bool.false_eq_true, if_false]
              exact ⟨k1, trivial⟩
          | some f =>
              simp only [readSlot_spec h2]
              refine ⟨st', _, rfl, h2, h3, fun ha e he hv => ?_⟩
              obtain ⟨k1, -⟩ := h4 ha e he hv
              simp only [hbit e hv, Bool.false_eq_true, if_false]
              refine ⟨k1, ?_⟩
              rw [k1.cell, k1.bit]
              split <;> rfl

theorem run_spec (a : Alloc) {op : StoreOp} (hop : op.Valid hooks) (hok : st.Ok)
    (hr : st.Right E hooks h) :
    ∃ st', op.run E a h st = some st' ∧ st'.Ok ∧ st'.Right E hooks h ∧
      ((∀ g, a g = true) → ∀ e, e.handle = h → st.Views e → st'.Views (op.apply E e)) := by
  cases op with
  | prewarm n l =>
      exact fnCachePrewarm_spec a hok (fun x hx => (hop x hx).1) (fun x hx => (hop x hx).2) hr
  | clear base =>
      obtain ⟨st', h1, h2, h3, h4⟩ := clearFnCache_spec base hok hr
      exact ⟨st', h1, h2, h3, fun _ e _ hv => h4 e hv⟩
  | pick i name =>
      obtain ⟨st', r, h1, h2, h3, h4⟩ := pick_spec a hok hop hr
      exact ⟨st', by simp only [StoreOp.run, h1, Option.map_some], h2, h3,
        fun ha e he hv => (h4 ha e he hv).1⟩

theorem empty_ok : ({} : ModStore).Ok :=
  ⟨rfl, rfl, fun i hi => by simp [bit, Cells.bit, Cells.view] at hi⟩

theorem empty_cell (i : Nat) : ({} : ModStore).cell i = .null := Cells.view_of_le (Nat.zero_le _)

theorem empty_views (hf : e.fnCache = fun _ => .null) (hb : e.hookImplBits = fun _ => false) :
    ({} : ModStore).Views e := by
  refine ⟨(funext empty_cell).trans hf.symm, Eq.trans ?_ hb.symm⟩
  funext i
  simp [bit, Cells.bit, Cells.view]

end ModStore

namespace StoreOp
variable {E : Env} {hooks : AList (fun _ : String => Nat)} {h : ImageId}

theorem apply_handle (e : ModEntry) (op : StoreOp) : (op.apply E e).handle = e.handle := by
  cases op with
  | prewarm n l => exact (congrArg ModEntry.handle (ModEntry.fnCachePrewarm_core E l e) : _)
  | clear base => rfl
  | pick i name => exact (congrArg ModEntry.handle (slotEntry_same i name e).1 : _)

/-- Any sequence of operations, each with its own answers of the allocator. -/
theorem runs_spec {ops : List (Alloc × StoreOp)} (hops : ∀ x ∈ ops, x.2.Valid hooks)
    {st : ModStore} (hok : st.Ok) (hr : st.Right E hooks h) :
    ∃ st', ops.foldlM (fun st x => x.2.run E x.1 h st) st = some st' ∧ st'.Ok ∧ st'.Right E hooks h ∧
      ((∀ x ∈ ops, ∀ g, x.1 g = true) → ∀ e, e.handle = h → st.Views e →
        st'.Views (ops.foldl (fun e x => x.2.apply E e) e)) := by
  induction ops generalizing st with
  | nil => exact ⟨st, rfl, hok, hr, fun _ e _ hv => hv⟩
  | cons x ops ih =>
      obtain ⟨u, h1, h2, h3, h4⟩ := ModStore.run_spec x.1 (hops x List.mem_cons_self) hok hr
      obtain ⟨st', k1, k2, k3, k4⟩ := ih (fun y hy => hops y (List.mem_cons_of_mem _ hy)) h2 h3
      refine ⟨st', ?_, k2, k3, fun ha e he hv => ?_⟩
      · rw [List.foldlM_cons, h1]
        exact k1
      · exact k4 (fun y hy => ha y (List.mem_cons_of_mem _ hy)) _ ((apply_handle e x.2).trans he)
          (h4 (ha x List.mem_cons_self) e he hv)

end StoreOp

/-- From empty arrays no sequence of operations reaches outside, whatever the allocator answers
in each: the sizes are right, a marked hook has a cell, and a filled cell holds the answer of
`dlsym` for its hook. While the allocator always answers, the arrays read as the cells of an
entry that went through the same operations. -/
theorem arrays_hold_cells (E : Env) (h : ImageId) {hooks : AList (fun _ : String => Nat)}
    {ops : List (Alloc × StoreOp)} (hops : ∀ x ∈ ops, x.2.Valid hooks) :
    ∃ st, ops.foldlM (fun st x => x.2.run E x.1 h st) {} = some st ∧ st.Ok ∧ st.Right E hooks h ∧
      ((∀ x ∈ ops, ∀ g, x.1 g = true) → ∀ e, e.handle = h → e.fnCache = (fun _ => .null) →
        e.hookImplBits = (fun _ => false) → st.Views (ops.foldl (fun e x => x.2.apply E e) e)) := by
  obtain ⟨st, h1, h2, h3, h4⟩ := StoreOp.runs_spec (E := E) (h := h) hops ModStore.empty_ok
    fun i => by
      rw [ModStore.empty_cell]
      trivial
  exact ⟨st, h1, h2, h3, fun ha e he hf hb => h4 ha e he (ModStore.empty_views hf hb)⟩

/-- A hook past the first word, filled by a load, cleared with its image and looked at again. -/
theorem arrays_hold_cells_cleared : ∃ st : ModStore,
    [((fun _ => true : Alloc), StoreOp.prewarm 71 [⟨"h", 70⟩]),
      ((fun _ => true : Alloc), .clear ⟨"p", 0⟩),
      ((fun g => g = .fnCache : Alloc), .pick 70 "h")].foldlM
        (fun st x => x.2.run sampleEnv x.1 ⟨"p", 0⟩ st) {} = some st ∧ st.Ok := by
  have hops : ∀ x ∈ [((fun _ => true : Alloc), StoreOp.prewarm 71 [⟨"h", 70⟩]),
      ((fun _ => true : Alloc), .clear ⟨"p", 0⟩), ((fun g => g = .fnCache : Alloc), .pick 70 "h")],
      x.2.Valid (AList.insert "h" 70 ∅) := by
    have hlook : AList.lookup "h" (AList.insert "h" 70 ∅ : AList fun _ : String => Nat) = some 70 :=
      AList.lookup_insert _
    intro x hx
    simp only [List.mem_cons, List.not_mem_nil, or_false] at hx
    rcases hx with rfl | rfl | rfl
    · intro y hy
      obtain rfl := List.mem_singleton.mp hy
      exact ⟨hlook, by decide⟩
    · trivial
    · exact hlook
  obtain ⟨st, h1, h2, -⟩ := arrays_hold_cells sampleEnv ⟨"p", 0⟩ hops
  exact ⟨st, h1, h2⟩

section Entries
variable {E : Env} {hooks : AList (fun _ : String => Nat)} {e : ModEntry} {s₀ s : State}
  {tr : List (State × Event)} {p : EntryPtr}

/-- Arrays that operations with enough memory have made of empty ones, and that read as the
cells of the entry. -/
structure ModStore.Backs (E : Env) (hooks : AList (fun _ : String => Nat)) (e : ModEntry)
    (st : ModStore) : Prop where
  made : ∃ ops : List StoreOp, (∀ op ∈ ops, op.Valid hooks) ∧
    ops.foldlM (fun st op => op.run E (fun _ => true) e.handle st) {} = some st
  ok : st.Ok
  right : st.Right E hooks e.handle
  views : st.Views e

/-- One more operation on the entry is one more operation on its arrays. -/
theorem ModStore.Backs.apply {st : ModStore} (h : st.Backs E hooks e) {op : StoreOp}
    (hop : op.Valid hooks) : ∃ st', ModStore.Backs E hooks (op.apply E e) st' := by
  obtain ⟨ops, hops, hrun⟩ := h.made
  obtain ⟨st', h1, h2, h3, h4⟩ := ModStore.run_spec (fun _ => true) hop h.ok h.right
  have hh := StoreOp.apply_handle (E := E) e op
  refine ⟨st', ⟨ops ++ [op], fun x hx => ?_, ?_⟩, h2, hh ▸ h3, h4 (fun _ => rfl) e rfl h.views⟩
  · rcases List.mem_append.mp hx with hx | hx
    · exact hops x hx
    · exact List.mem_singleton.mp hx ▸ hop
  · rw [hh, List.foldlM_append, hrun]
    simp [h1]

theorem exists_bound (l : List ((_ : String) × Nat)) : ∃ n, ∀ x ∈ l, x.2 < n := by
  induction l with
  | nil => exact ⟨0, fun x hx => by cases hx⟩
  | cons y l ih =>
      obtain ⟨n, hn⟩ := ih
      refine ⟨max n (y.2 + 1), fun x hx => ?_⟩
      rcases List.mem_cons.mp hx with rfl | hx
      · omega
      · have := hn x hx
        omega

/-- To be backed by arrays, as a law of the cells. -/
def storedLaw (E : Env) : CellLaw E where
  P hooks e := ∃ st, ModStore.Backs E hooks e st
  congr := by
    rintro hooks e e' hh hf hb ⟨st, h⟩
    refine ⟨st, ?_, h.ok, ?_, h.views.cell.trans hf.symm, h.views.bit.trans hb.symm⟩
    · rw [hh]
      exact h.made
    · rw [hh]
      exact h.right
  fresh hf hb := by
    refine ⟨{}, ⟨[], fun _ hx => (by cases hx), rfl⟩, ModStore.empty_ok, fun i => ?_,
      ModStore.empty_views hf hb⟩
    rw [ModStore.empty_cell]
    trivial
  slot := by
    rintro hooks e i name hk ⟨st, h⟩
    exact h.apply (show StoreOp.Valid hooks (.pick i name) from hk)
  prewarm := by
    rintro hooks e ⟨st, h⟩
    obtain ⟨n, hn⟩ := exists_bound hooks.entries
    have hop : StoreOp.Valid hooks (.prewarm n hooks.entries) :=
      fun x hx => ⟨AList.mem_lookup_iff.mpr hx, hn x hx⟩
    exact h.apply hop
  clear := by
    rintro hooks e base ⟨st, h⟩
    exact h.apply (show StoreOp.Valid hooks (.clear base) from trivial)
  mono := by
    rintro hooks hooks' e hk ⟨st, h⟩
    obtain ⟨ops, hops, hrun⟩ := h.made
    refine ⟨st, ⟨ops, fun op hop => ?_, hrun⟩, h.ok, fun i => (h.right i).mono hk, h.views⟩
    have hv := hops op hop
    cases op with
    | prewarm n l => exact fun x hx => ⟨hk _ _ (hv x hx).1, (hv x hx).2⟩
    | clear base => trivial
    | pick i name => exact hk _ _ hv

/-- In every state the cells of every entry are in arrays made by operations that stayed
inside. Asking them for the slot of any registered hook stays inside too, whatever the
allocator answers, and with enough memory gives the slot that the rebuild writes. -/
theorem entries_backed (h : Runs E s₀ tr s) (he : s.rt.entries p = some e) :
    ∃ st, ModStore.Backs E s.rt.hookIdHd e st ∧
      ∀ i name, s.rt.hookIdHd.lookup name = some i → ∀ a, ∃ st' r,
        st.pick E a e.handle i name = some (st', r) ∧ st'.Ok ∧
        ((∀ g, a g = true) → st'.Views (slotEntry E i name e) ∧
          r = match slotCell E i name e with
            | some c => .slot c
            | none => .skip) := by
  obtain ⟨st, hst⟩ := (storedLaw E).holds h p e he
  refine ⟨st, hst, fun i name hk a => ?_⟩
  obtain ⟨st', r, h1, h2, -, h4⟩ := ModStore.pick_spec a hst.ok hk hst.right
  exact ⟨st', r, h1, h2, fun ha => h4 ha e rfl hst.views⟩

/-- A module with the cell of one hook. -/
theorem entries_backed_loaded : ∃ s e, Run.exec (step sampleEnv) sampleState
      [.areg 0, .load "p" { addr := 1 }, .installRet] = .ok s ∧ s.rt.entries 0 = some e ∧
    ∃ st, ModStore.Backs sampleEnv s.rt.hookIdHd e st := by
  obtain ⟨s, hs, hobs⟩ := sample_check [.areg 0, .load "p" { addr := 1 }, .installRet]
    (fun s => (s.rt.entries 0).isSome) (by decide)
  obtain ⟨e, he⟩ := Option.isSome_iff_exists.mp hobs
  obtain ⟨st, hst, -⟩ := entries_backed (sample_runs hs) he
  exact ⟨s, e, hs, he, st, hst⟩

end Entries

end Xylem

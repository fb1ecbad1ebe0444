import Xylem.Ops.Dispatch

/-!
# The invariant of the machine

What holds in every state of every run: the heap is well formed, the hook
registry is consistent, and whatever names a region names one that exists.
-/
namespace Xylem

theorem Prim.mono {E : Env} {g g' : RegionPtr → UInt8 → Prop} (hg : ∀ r b, g r b → g' r b)
    {a b : Runtime × Transit} (h : Prim E g a b) : Prim E g' a b := by
  cases h with
  | scratch h => exact .scratch h
  | count h n => exact .count h n
  | clear l base => exact .clear l base
  | prewarm h => exact .prewarm h
  | removeDenies r path => exact .removeDenies r path
  | detach h => exact .detach h
  | unlist he h => exact .unlist he h
  | insert hx he hr ha h => exact .insert hx he hr ha h
  | drop hx he => exact .drop hx he
  | publish hk hr h tmp addr ha => exact .publish hk hr h tmp addr ha
  | bind he c path => exact .bind he c path
  | claim h hgr => exact .claim h (hg _ _ hgr)
  | rekey he hc hn => exact .rekey he hc hn
  | state he => exact .state he
  | freePath c => exact .freePath c
  | mods h => exact .mods h
  | vector hk h => exact .vector hk h
  | enter c a st => exact .enter c a st

theorem Prims.mono {E : Env} {g g' : RegionPtr → UInt8 → Prop} (hg : ∀ r b, g r b → g' r b)
    {a b : Runtime × Transit} (h : Prims E g a b) : Prims E g' a b :=
  Relation.ReflTransGen.mono (fun _ _ => Prim.mono hg) a b h

theorem Straights.mono {E : Env} {g g' : RegionPtr → UInt8 → Prop} (hg : ∀ r b, g r b → g' r b)
    {a b : Runtime × Transit} (h : Straights E g a b) : Straights E g' a b :=
  Relation.ReflTransGen.mono (fun _ _ h => ⟨h.prim.mono hg, h.gone, h.last⟩) a b h

/-- What a sequence of elementary operations keeps. -/
structure Keeps (s t : Runtime) : Prop where
  wf : ∃ L, WF t none L
  ctxs : t.CtxsKnown
  regionHd : ∀ id r, s.regionHd id = some r → t.regionHd id = some r
  regionNext : s.regionNext ≤ t.regionNext
  entryNext : s.entryNext ≤ t.entryNext
  old : Runtime.OldKept s.entryNext s t

theorem Prims.keeps {E : Env} {g : RegionPtr → UInt8 → Prop} {s t : Runtime}
    (h : Prims E g (s, .none) (t, .none)) (hw : ∃ L, WF s none L) (hc : s.CtxsKnown) :
    Keeps s t := by
  have key : ∀ b, Prims E g (s, .none) b → (∃ L, WF b.1 b.2.entry L) ∧ b.1.CtxsKnown ∧
      (∀ id r, s.regionHd id = some r → b.1.regionHd id = some r) ∧
      s.regionNext ≤ b.1.regionNext ∧ s.entryNext ≤ b.1.entryNext ∧
        (∀ p, b.2 = .fresh p → s.entryNext ≤ p) ∧
      Runtime.OldKept s.entryNext s b.1 := by
    intro b hb
    induction hb with
    | refl => exact ⟨hw, hc, fun _ _ => id, le_rfl, le_rfl, by simp, .refl _ _⟩
    | @tail m b _ hs ih =>
        obtain ⟨⟨L, h1⟩, h2, h3, h3', h4, h5, h6⟩ := ih
        obtain ⟨k1, k2, k3⟩ := hs.old h4 h5
        exact ⟨h1.prim hs, hs.ctxsKnown h1 h2, fun id r hr => hs.regionHd (h3 id r hr),
          h3'.trans hs.regionNext, k1, k2, h6.trans k3⟩
  obtain ⟨h1, h2, h3, h3', h4, -, h6⟩ := key _ h
  exact ⟨h1, h2, h3, h3', h4, h6⟩

namespace Runtime
variable {s t : Runtime} {E : Env}

/-- The load of `fname` opens an image that claims region width `bits` below `r`. -/
structure LoadClaims (E : Env) (s : Runtime) (fname : String) (ch : LoadChoice) (r : RegionPtr)
    (bits : UInt8) : Prop where
  new : s.moduleLookup E fname s.currentRegionId = none
  mem : ch.noMem = false
  image : ∃ im, E.dlopen (s.modLoadImage (E.moduleLoadPath fname) ch).1 = some im
  asks : s.AsksSlot E s.currentRegionId (s.modLoadImage (E.moduleLoadPath fname) ch).1 ch r
  granted : bits = ch.granted

theorem modLoad_straight {L : RegionPtr → List EntryPtr} (hw : WF s none L)
    (hcur : (s.regionHd s.currentRegionId).isSome) {fname : String} {ch : LoadChoice}
    {reload : Option ReloadFrame} {out : Outcome LoadFrame}
    (h : s.modLoad E fname ch reload = .ok (t, out)) :
    Straights E (s.LoadClaims E fname ch) (s, .none) (t, .none) := by
  cases modLoad_way h with
  | noImage refs copy files bad err ht hout =>
      rw [ht]
      exact .single
        (.scratch ⟨rfl, rfl, rfl, rfl, rfl, rfl, rfl, rfl, rfl, rfl, rfl, rfl, List.prefix_rfl⟩)
  | reuse refs copy files bad p e hl he ht hout =>
      rw [ht]
      have h1 : Straights E (s.LoadClaims E fname ch) (s, .none) _ :=
        .single (.same (.count he (e.refcount + 1)))
      exact h1.tail
        (.scratch ⟨rfl, rfl, rfl, rfl, rfl, rfl, rfl, rfl, rfl, rfl, rfl, rfl, List.prefix_rfl⟩)
  | fresh refs copy files bad hl hmem him ha hf =>
      have h1 : Straights E (s.LoadClaims E fname ch) (s, .none)
          ({ s with dlRefs := refs, copyNext := copy, tmpFiles := files, badReleases := bad }, .none) :=
        .single (.scratch ⟨rfl, rfl, rfl, rfl, rfl, rfl, rfl, rfl, rfl, rfl, rfl, rfl, List.prefix_rfl⟩)
      refine h1.trans (Straights.mono ?_ (modLoadFresh_straight hw.tree hcur hl ?_ ha hf))
      · rintro r b ⟨hasks, hb⟩
        exact ⟨hl, hmem, him, ⟨hasks.region, hasks.width, hasks.handler, hasks.accepted,
          hasks.granted_pos, hasks.granted_le⟩, hb⟩
      · intro k hk
        obtain ⟨p, hp⟩ := Option.ne_none_iff_exists'.mp hk
        obtain ⟨e, he, rfl⟩ := hw.table k p hp
        have hreg := hw.region p e he
        rw [(hw.key p e he).1]
        exact Option.isSome_iff_ne_none.mp hreg

theorem modLoad_prims {L : RegionPtr → List EntryPtr} (hw : WF s none L)
    (hcur : (s.regionHd s.currentRegionId).isSome) {fname : String} {ch : LoadChoice}
    {reload : Option ReloadFrame} {out : Outcome LoadFrame}
    (h : s.modLoad E fname ch reload = .ok (t, out)) :
    Prims E (s.LoadClaims E fname ch) (s, .none) (t, .none) :=
  (modLoad_straight hw hcur h).prims

/-- What the rest of a reload relies on: the region still is what it was, and
the anchor, if it lives, is another module of that region. -/
structure ReloadOk (E : Env) (s : Runtime) (rf : ReloadFrame) : Prop where
  region : ∃ r, s.regionHd rf.regionId = some r ∧ rf.regionEntry = some r
  anchor : ∀ q, rf.insertAfter = some q → q < s.entryNext ∧
    ∀ f, s.entries q = some f → f.regionId = rf.regionId ∧
      f.modKey ≠ ⟨E.moduleLoadPath rf.fname, rf.regionId⟩

theorem ReloadOk.keeps {rf : ReloadFrame} (h : s.ReloadOk E rf) (hk : Keeps s t) :
    t.ReloadOk E rf := by
  obtain ⟨r, hr, hre⟩ := h.region
  refine ⟨⟨r, hk.regionHd _ _ hr, hre⟩, fun q hq => ?_⟩
  obtain ⟨hlt, ha⟩ := h.anchor q hq
  refine ⟨hlt.trans_le hk.entryNext, fun f hf => ?_⟩
  obtain ⟨e, he, hi⟩ := hk.old q hlt f hf
  have h1 : f.ident.regionId = e.ident.regionId := congrArg _ hi
  have h2 : f.ident.modKey = e.ident.modKey := congrArg _ hi
  simp only [ModEntry.ident, ModEntry.core] at h1 h2
  rw [h1, h2]
  exact ha e he

theorem xyReloadFinish_prims {L : RegionPtr → List EntryPtr} (hw : WF s none L)
    {rf : ReloadFrame} (hok : s.ReloadOk E rf) {grant : RegionPtr → UInt8 → Prop}
    (h : s.xyReloadFinish E rf = .ok t) : Prims E grant (s, .none) (t, .none) := by
  obtain ⟨r, hr, hre⟩ := hok.region
  unfold xyReloadFinish at h
  cases hl : s.moduleLookup E rf.fname rf.regionId with
  | none =>
      simp only [hl, Except.ok.injEq] at h
      rw [h]
  | some p =>
      simp only [hl, hre, Res.bind_ok, Except.ok.injEq] at h
      obtain ⟨m, hm, t', ht, rfl⟩ := h
      obtain ⟨e, he, hek⟩ := hw.table _ p hl
      have hid : e.regionId = rf.regionId := hw.lookup_region hl he
      have hcore := moduleRegionDetach_core hm
      obtain ⟨e', he', hc⟩ := entries_of_core hcore he
      have hid' : e'.core.regionId = e.core.regionId := congrArg _ hc
      simp only [ModEntry.core] at hid'
      have hhd : m.regionHd = s.regionHd := congrArg Tree.hd (core_tree hcore)
      have h1 : Prims E grant (s, .none) (m, .leaving p) := .single (.detach hm)
      refine h1.tail (.insert rfl he' (by rw [hhd, hid', hid]; exact hr) (.inr ?_) ht)
      intro q hq
      obtain ⟨hlt, ha⟩ := hok.anchor q hq
      constructor
      · rintro rfl
        exact (ha e he).2 hek
      · intro f hf
        obtain ⟨f0, hf0, hfc⟩ := entries_of_core hcore.symm hf
        obtain ⟨r', hre', hr', -⟩ := hw.region_of hf0 (by simp)
        have h2 : f.core.regionEntry = f0.core.regionEntry := (congrArg _ hfc).symm
        simp only [ModEntry.core] at h2
        rw [(ha f0 hf0).1, hr] at hr'
        rw [h2, hre', ← hr']

end Runtime
end Xylem

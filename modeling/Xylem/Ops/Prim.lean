import Xylem.Tree.Steps

/-!
# Elementary operations

The interface functions of the library taken apart into elementary changes of
the heap. A state of this relation is a runtime together with the entry that is
on no list at the moment, if there is one.
-/
namespace Xylem

/-- `t` differs from `s` in scratch variables, thread-local context and history only. -/
structure SameHeap (s t : Runtime) : Prop where
  entries : t.entries = s.entries
  entryNext : t.entryNext = s.entryNext
  addr : t.addr = s.addr
  regions : t.regions = s.regions
  regionNext : t.regionNext = s.regionNext
  regionHd : t.regionHd = s.regionHd
  stateNext : t.stateNext = s.stateNext
  ctxs : t.ctxs = s.ctxs
  modHd : t.modHd = s.modHd
  modByRegionHd : t.modByRegionHd = s.modByRegionHd
  hookIdHd : t.hookIdHd = s.hookIdHd
  genBumps : t.genBumps = s.genBumps
  cleanups : s.cleanups <+: t.cleanups

namespace SameHeap
variable {s t u : Runtime}

theorem refl (s : Runtime) : SameHeap s s :=
  ⟨rfl, rfl, rfl, rfl, rfl, rfl, rfl, rfl, rfl, rfl, rfl, rfl, List.prefix_rfl⟩

theorem trans (h : SameHeap s t) (k : SameHeap t u) : SameHeap s u := by
  constructor
  · exact k.entries.trans h.entries
  · exact k.entryNext.trans h.entryNext
  · exact k.addr.trans h.addr
  · exact k.regions.trans h.regions
  · exact k.regionNext.trans h.regionNext
  · exact k.regionHd.trans h.regionHd
  · exact k.stateNext.trans h.stateNext
  · exact k.ctxs.trans h.ctxs
  · exact k.modHd.trans h.modHd
  · exact k.modByRegionHd.trans h.modByRegionHd
  · exact k.hookIdHd.trans h.hookIdHd
  · exact k.genBumps.trans h.genBumps
  · exact h.cleanups.trans k.cleanups

theorem tree (h : SameHeap s t) : t.tree = s.tree := by
  simp only [Runtime.tree, h.regions, h.regionNext, h.regionHd]

end SameHeap

namespace Runtime

def dropEntry (E : Env) (s : Runtime) (p : EntryPtr) (e : ModEntry) : Runtime :=
  { s with
    modByRegionHd := E.qmapDel s.modByRegionHd e.regionId
    modHd := s.modHd.erase e.modKey
    entries := Function.update s.entries p none }

/-- Give entry `p` context `c`, filled in for `path` in the entry's region. -/
def bindCtx (s : Runtime) (p : EntryPtr) (e : ModEntry) (c : CtxPtr) (path : String) : Runtime :=
  (s.xyInitCtx c path e.regionId).setEntry p (some { e with ctx := some c })

end Runtime

/-- The entry on no list: published and not yet listed, or taken off its list
to be freed or put elsewhere. -/
inductive Transit where
  | none
  | fresh (p : EntryPtr)
  | leaving (p : EntryPtr)
  deriving DecidableEq

def Transit.entry : Transit → Option EntryPtr
  | .none => Option.none
  | .fresh p => some p
  | .leaving p => some p

/-- One elementary operation. Claims are limited to what `grant` allows. -/
inductive Prim (E : Env) (grant : RegionPtr → UInt8 → Prop) :
    Runtime × Transit → Runtime × Transit → Prop
  | scratch {s t : Runtime} {x : Transit} (h : SameHeap s t) : Prim E grant (s, x) (t, x)
  | count {s : Runtime} {x : Transit} {p : EntryPtr} {e : ModEntry}
      (h : s.entries p = some e) (n : Int) :
      Prim E grant (s, x) (s.setEntry p (some { e with refcount := n }), x)
  | clear {s : Runtime} {x : Transit} (l : List EntryPtr) (base : ImageId) :
      Prim E grant (s, x) (s.mapEntries l (ModEntry.clearFnCache base), x)
  | prewarm {s : Runtime} {x : Transit} {p : EntryPtr} {e : ModEntry}
      (h : s.entries p = some e) :
      Prim E grant (s, x) (s.setEntry p (some (e.fnCachePrewarm E s.hookIdHd.entries)), x)
  | removeDenies {s : Runtime} {x : Transit} (r : RegionPtr) (path : String) :
      Prim E grant (s, x) (s.moduleRemoveDenies r path, x)
  | detach {s t : Runtime} {p : EntryPtr} (h : s.moduleRegionDetach p = .ok t) :
      Prim E grant (s, .none) (t, .leaving p)
  | unlist {s t : Runtime} {p : EntryPtr} {e : ModEntry} (he : s.entries p = some e)
      (h : s.modLoadUnlist e = .ok t) : Prim E grant (s, .none) (t, .leaving p)
  | insert {s t : Runtime} {x : Transit} {p : EntryPtr} {e : ModEntry} {r : RegionPtr}
      {a : Option EntryPtr}
      (hx : x.entry = some p) (he : s.entries p = some e) (hr : s.regionHd e.regionId = some r)
      (ha : a = (s.regions r).modsTail ∨ ∀ q, a = some q → q ≠ p ∧
        ∀ f, s.entries q = some f → f.regionEntry = some r)
      (h : s.moduleRegionInsertAfter r p a = .ok t) : Prim E grant (s, x) (t, .none)
  | drop {s : Runtime} {x : Transit} {p : EntryPtr} {e : ModEntry} (hx : x.entry = some p)
      (he : s.entries p = some e) : Prim E grant (s, x) (s.dropEntry E p e, .none)
  | publish {s : Runtime} {key : ModKey} (hk : s.modHd.lookup key = none)
      (hr : (s.regionHd key.region).isSome) (h : ImageId) (tmp : Option ImageId) (addr : Addr)
      (ha : ∀ k p, s.modHd.lookup k = some p → s.addr p ≠ addr) :
      Prim E grant (s, .none) (s.modLoadPublishEntry key h tmp addr, .fresh s.entryNext)
  | bind {s : Runtime} {p : EntryPtr} {e : ModEntry} (he : s.entries p = some e)
      (c : CtxPtr) (path : String) : Prim E grant (s, .fresh p) (s.bindCtx p e c path, .fresh p)
  | claim {s : Runtime} {p : EntryPtr} {r : RegionPtr} {bits : UInt8} {k : Nat}
      (h : s.tree.Claims r bits k) (hg : grant r bits) :
      Prim E grant (s, .fresh p) (s.regionCreateChild r (s.tree.slotId r bits k) bits, .fresh p)
  | rekey {s : Runtime} {p : EntryPtr} {e : ModEntry} {child : RegionId}
      (he : s.entries p = some e) (hc : (s.regionHd child).isSome)
      (hn : ∀ k, s.modHd.lookup k ≠ none → k.region ≠ child) :
      Prim E grant (s, .fresh p) (s.rekeyEntry p e e.modKey e.regionId child, .fresh p)
  | state {s : Runtime} {p : EntryPtr} {e : ModEntry} (he : s.entries p = some e) :
      Prim E grant (s, .fresh p)
        ({ s.setEntry p (some { e with regionState := some s.stateNext }) with
          stateNext := s.stateNext + 1 }, .fresh p)
  | freePath {s : Runtime} {x : Transit} (c : CtxPtr) :
      Prim E grant (s, x) (s.setCtx c fun v => { v with modulePath := .freed }, x)
  | mods {s t : Runtime} {x : Transit} {r : RegionPtr}
      (h : s.regionRebuildSubtreeMods r = .ok t) : Prim E grant (s, x) (t, x)
  | vector {s t : Runtime} {x : Transit} {r : RegionPtr} {i : Nat} {name : String}
      (hk : s.hookIdHd.lookup name = some i)
      (h : s.regionRebuildHookDispatch E r i name (s.callChain r) = .ok t) :
      Prim E grant (s, x) (t, x)
  | enter {s : Runtime} {x : Transit} (c : CtxPtr) (a : AdapterPtr)
      (st : Option StatePtr) :
      Prim E grant (s, x) (s.setCtx c fun v => { v with adapter := some a, regionState := st }, x)

abbrev Prims (E : Env) (grant : RegionPtr → UInt8 → Prop) :
    Runtime × Transit → Runtime × Transit → Prop :=
  Relation.ReflTransGen (Prim E grant)

/-- An elementary operation that puts no entry back on a list, and a new entry at
the end of its list only. -/
structure Straight (E : Env) (grant : RegionPtr → UInt8 → Prop) (a b : Runtime × Transit) : Prop where
  prim : Prim E grant a b
  gone : ∀ p, a.2 = .leaving p → b.2 = .none → b.1.entries p = none
  last : ∀ p, a.2 = .fresh p → b.2 = .none →
    b.1.entries p = none ∨ ∃ e r, a.1.entries p = some e ∧ a.1.regionHd e.regionId = some r ∧
      a.1.moduleRegionAppend r p = .ok b.1

abbrev Straights (E : Env) (grant : RegionPtr → UInt8 → Prop) :
    Runtime × Transit → Runtime × Transit → Prop :=
  Relation.ReflTransGen (Straight E grant)

section
variable {E : Env} {grant : RegionPtr → UInt8 → Prop} {s t : Runtime} {x : Transit}

theorem Straights.prims {a b : Runtime × Transit} (h : Straights E grant a b) : Prims E grant a b :=
  Relation.ReflTransGen.mono (fun _ _ h => h.prim) a b h

theorem Straight.same (h : Prim E grant (s, x) (t, x)) : Straight E grant (s, x) (t, x) :=
  ⟨h, fun _ hx hn => (by cases hx.symm.trans hn), fun _ hx hn => (by cases hx.symm.trans hn)⟩

theorem Straight.scratch (h : SameHeap s t) : Straight E grant (s, x) (t, x) := .same (.scratch h)

theorem Straight.of_none {b : Runtime × Transit} (h : Prim E grant (s, .none) b) :
    Straight E grant (s, .none) b :=
  ⟨h, fun _ hx => (by cases hx), fun _ hx => (by cases hx)⟩

theorem Straight.append {p : EntryPtr} {e : ModEntry} {r : RegionPtr} (he : s.entries p = some e)
    (hr : s.regionHd e.regionId = some r) (h : s.moduleRegionAppend r p = .ok t) :
    Straight E grant (s, .fresh p) (t, .none) := by
  refine ⟨.insert rfl he hr (.inl rfl) h, fun _ hx => (by cases hx), fun q hq _ => .inr ⟨e, r, ?_⟩⟩
  cases hq
  exact ⟨he, hr, h⟩

theorem Straight.drop {p : EntryPtr} {e : ModEntry} (hx : x.entry = some p)
    (he : s.entries p = some e) : Straight E grant (s, x) (s.dropEntry E p e, .none) := by
  have hgone : (s.dropEntry E p e).entries p = none := Function.update_self _ _ _
  refine ⟨.drop hx he, fun q hq _ => ?_, fun q hq _ => .inl ?_⟩ <;>
  · replace hq : x = _ := hq
    subst hq
    cases hx
    exact hgone

end
end Xylem

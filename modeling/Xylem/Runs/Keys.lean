import Xylem.Model.Key
import Xylem.Runs.Prefixes

namespace Xylem

namespace Key

theorem strlen_append_zero (p : CString) (rest : List UInt8) :
    strlen (p.bytes ++ 0 :: rest) = p.bytes.length := by
  have hp : ∀ b ∈ p.bytes, (decide (b ≠ 0)) = true := fun b hb =>
    decide_eq_true fun h => p.nulFree (h ▸ hb)
  rw [strlen, List.takeWhile_append_of_pos hp, List.takeWhile_cons_of_neg (by simp), List.append_nil]

theorem modKeyLen_eq (p : CString) : modKeyLen p = p.bytes.length + 17 := by
  rw [modKeyLen, strlen_append_zero, modKeySuffixLen]

/-- The bytes of a key: the NUL that ends the text takes the place of the last digit. -/
theorem blob_eq (p : CString) (buf : Vector UInt8 (modKeyLen p)) (r : RegionId) :
    blob p buf r = p.bytes ++ 0 :: (Hex.pad 15 (r.toNat / 16) ++ [0]) := by
  have hlen : buf.toList.length = p.bytes.length + 17 := by
    rw [Vector.length_toList, modKeyLen_eq]
  have hcut : (p.bytes ++ 0 :: Hex.pad 16 r.toNat).take (p.bytes.length + 16) =
      p.bytes ++ 0 :: Hex.pad 15 (r.toNat / 16) := by
    rw [List.take_length_add_append, List.take_succ_cons, Hex.take_pad]
  have hdrop : buf.toList.drop (p.bytes.length + 16 + 1) = [] :=
    List.drop_eq_nil_of_le (by omega)
  have hkey : modKey buf.toList p r = p.bytes ++ 0 :: (Hex.pad 15 (r.toNat / 16) ++ [0]) := by
    rw [modKey, snprintf, if_neg (by omega), hlen]
    simp only [hcut, show p.bytes.length + 17 - 1 = p.bytes.length + 16 from rfl]
    rw [show (p.bytes ++ 0 :: Hex.pad 15 (r.toNat / 16)).length = p.bytes.length + 16 by simp,
      hdrop, List.append_assoc, List.cons_append]
  rw [blob, hkey]
  refine List.take_of_length_le ?_
  rw [modKeyMeasure, strlen_append_zero, modKeySuffixLen]
  simp

theorem append_zero_inj {p q : CString} {a b : List UInt8}
    (h : p.bytes ++ 0 :: a = q.bytes ++ 0 :: b) : p = q ∧ a = b := by
  have hlen : p.bytes.length = q.bytes.length := by
    rw [← strlen_append_zero p a, h, strlen_append_zero]
  obtain ⟨hp, hrest⟩ := List.append_inj h hlen
  refine ⟨?_, (List.cons.inj hrest).2⟩
  cases p
  cases q
  cases hp
  rfl

theorem ushiftRight_eq_iff (r s : RegionId) : r >>> 4 = s >>> 4 ↔ r.toNat / 16 = s.toNat / 16 := by
  rw [← BitVec.toNat_inj, BitVec.toNat_ushiftRight, BitVec.toNat_ushiftRight,
    Nat.shiftRight_eq_div_pow, Nat.shiftRight_eq_div_pow]

/-- Two keys are the same bytes just if the paths are the same and the ids are,
up to their last hexadecimal digit. -/
theorem blob_eq_iff {p q : CString} (b : Vector UInt8 (modKeyLen p)) (c : Vector UInt8 (modKeyLen q))
    (r s : RegionId) : blob p b r = blob q c s ↔ p = q ∧ r >>> 4 = s >>> 4 := by
  rw [blob_eq, blob_eq, ushiftRight_eq_iff]
  constructor
  · intro h
    obtain ⟨hpq, hrest⟩ := append_zero_inj h
    refine ⟨hpq, Hex.pad_inj (w := 15) ?_ ?_ (List.append_cancel_right hrest)⟩
    · have := r.isLt
      omega
    · have := s.isLt
      omega
  · rintro ⟨rfl, hrs⟩
    rw [hrs]

theorem Table.under_rekey {t : Table} {me : EntryPtr} {old new : List UInt8} (h : t.Under me old) :
    (t.rekey me new old).Under me new ↔ new ≠ old := by
  constructor
  · rintro hu rfl
    have hl := (hu new).mpr rfl
    rw [Table.rekey, AList.lookup_erase] at hl
    cases hl
  · intro hne k
    by_cases hk : k = old
    · subst hk
      rw [Table.rekey, AList.lookup_erase]
      exact ⟨fun hc => (by cases hc), fun hc => absurd hc.symm hne⟩
    · rw [Table.rekey, AList.lookup_erase_ne hk]
      by_cases hn : k = new
      · subst hn
        rw [AList.lookup_insert]
        exact ⟨fun _ => rfl, fun _ => rfl⟩
      · rw [AList.lookup_insert_ne hn, h k]
        exact ⟨fun hc => absurd hc hk, fun hc => absurd hc hn⟩

/-- Keys tell two regions apart, and re-keying from one to the other keeps the entry
in the map, just if the ids differ above their last hexadecimal digit. -/
theorem keys_distinguish (p q : CString) (b : Vector UInt8 (modKeyLen p))
    (c : Vector UInt8 (modKeyLen q)) (r s : RegionId) :
    ((blob p b r = blob q c s ↔ p = q ∧ r = s) ↔ (p = q → r ≠ s → r >>> 4 ≠ s >>> 4)) ∧
    ∀ (t : Table) (me : EntryPtr) (d : Vector UInt8 (modKeyLen p)), t.Under me (blob p b r) →
      ((t.rekey me (blob p d s) (blob p b r)).Under me (blob p d s) ↔ r >>> 4 ≠ s >>> 4) := by
  constructor
  · rw [blob_eq_iff]
    constructor
    · rintro h rfl hne heq
      exact hne (h.mp ⟨rfl, heq⟩).2
    · intro h
      constructor
      · rintro ⟨rfl, heq⟩
        refine ⟨rfl, ?_⟩
        by_contra hne
        exact h rfl hne heq
      · rintro ⟨rfl, rfl⟩
        exact ⟨rfl, rfl⟩
  · intro t me d h
    rw [Table.under_rekey h, ne_eq, blob_eq_iff]
    constructor
    · intro hne heq
      exact hne ⟨rfl, heq.symm⟩
    · rintro hne ⟨-, heq⟩
      exact hne heq.symm

theorem Table.under_insert (k : List UInt8) (p : EntryPtr) :
    Table.Under ((∅ : Table).insert k p) p k := by
  intro j
  by_cases hj : j = k
  · subst hj
    rw [AList.lookup_insert]
    exact ⟨fun _ => rfl, fun _ => rfl⟩
  · rw [AList.lookup_insert_ne hj, AList.lookup_empty]
    exact ⟨fun hc => (by cases hc), fun hc => absurd hc hj⟩

/-- A child that takes half of the root. -/
theorem keys_distinguish_halves : ∃ (p : CString) (b : Vector UInt8 (modKeyLen p)) (t : Table)
    (me : EntryPtr), (blob p b 0 = blob p b (1 <<< 63) ↔ p = p ∧ (0 : RegionId) = 1 <<< 63) ∧
      (t.rekey me (blob p b (1 <<< 63)) (blob p b 0)).Under me (blob p b (1 <<< 63)) := by
  let p : CString := ⟨[109], by decide⟩
  let b : Vector UInt8 (modKeyLen p) := Vector.replicate _ 0
  refine ⟨p, b, (∅ : Table).insert (blob p b 0) 7, 7, ?_, ?_⟩
  · exact (keys_distinguish p p b b 0 (1 <<< 63)).1.mpr fun _ _ => by decide
  · exact ((keys_distinguish p p b b 0 (1 <<< 63)).2 _ 7 b (Table.under_insert _ _)).mpr (by decide)

/-- A root gate that grants all 64 bits gives its first child the id 1: the same bytes
as the root's, and re-keying to it drops the entry. -/
theorem keys_collide : ∃ (p : CString) (b : Vector UInt8 (modKeyLen p)) (t : Table) (me : EntryPtr),
    ¬(blob p b 0 = blob p b 1 ↔ p = p ∧ (0 : RegionId) = 1) ∧ t.Under me (blob p b 0) ∧
      ¬(t.rekey me (blob p b 1) (blob p b 0)).Under me (blob p b 1) := by
  let p : CString := ⟨[109], by decide⟩
  let b : Vector UInt8 (modKeyLen p) := Vector.replicate _ 0
  have heq : blob p b 0 = blob p b 1 := by decide
  have hu := Table.under_insert (blob p b 0) 7
  refine ⟨p, b, (∅ : Table).insert (blob p b 0) 7, 7, fun h => ?_, hu, fun h => ?_⟩
  · exact absurd (h.mp heq).2 (by decide)
  · exact (Table.under_rekey hu).mp h heq.symm

end Key

/-! ## The exact keys of the model -/

namespace ModKey

def bytes (k : ModKey) : List UInt8 := k.path.toUTF8.data.toList

/-- A key whose id has nothing in the digit that is cut off. -/
structure Clean (k : ModKey) : Prop where
  nulFree : 0 ∉ k.bytes
  low : k.region <<< 60 = 0

def blob (k : ModKey) (h : 0 ∉ k.bytes) : List UInt8 :=
  Key.blob ⟨k.bytes, h⟩ (Vector.replicate _ 0) k.region

theorem toNat_mod_of_low {r : RegionId} (h : r <<< 60 = 0) : r.toNat % 16 = 0 := by
  have := congrArg BitVec.toNat h
  rw [BitVec.toNat_shiftLeft, Nat.shiftLeft_eq] at this
  simp only [BitVec.ofNat_eq_ofNat, BitVec.toNat_ofNat, Nat.zero_mod] at this
  omega

theorem blob_inj {k l : ModKey} (hk : k.Clean) (hl : l.Clean)
    (h : k.blob hk.nulFree = l.blob hl.nulFree) : k = l := by
  obtain ⟨hp, hr⟩ := (Key.blob_eq_iff _ _ _ _).mp h
  rw [Key.ushiftRight_eq_iff] at hr
  have hregion : k.region = l.region := by
    have h1 := toNat_mod_of_low hk.low
    have h2 := toNat_mod_of_low hl.low
    exact BitVec.eq_of_toNat_eq (by omega)
  have hbytes : k.bytes = l.bytes := congrArg CString.bytes hp
  have hpath : k.path = l.path :=
    String.toByteArray_inj.mp (ByteArray.ext (Array.toList_inj.mp hbytes))
  cases k
  cases l
  cases hregion
  cases hpath
  rfl

/-- The map with bytes finds what the map with exact keys finds. -/
structure Mirrors (m : AList fun _ : ModKey => EntryPtr) (t : Key.Table) : Prop where
  clean : ∀ k ∈ m, k.Clean
  lookup : ∀ (k : ModKey) (h : k.Clean), t.lookup (k.blob h.nulFree) = m.lookup k

section
variable {m : AList fun _ : ModKey => EntryPtr} {t : Key.Table}

theorem Mirrors.insert (h : Mirrors m t) {k : ModKey} (hk : k.Clean) (p : EntryPtr) :
    Mirrors (m.insert k p) (t.insert (k.blob hk.nulFree) p) := by
  constructor
  · intro l hl
    rcases (AList.mem_insert _).mp hl with rfl | hl
    · exact hk
    · exact h.clean l hl
  · intro l hl
    by_cases hlk : l = k
    · subst hlk
      rw [AList.lookup_insert, AList.lookup_insert]
    · rw [AList.lookup_insert_ne hlk, AList.lookup_insert_ne fun hc => hlk (blob_inj hl hk hc),
        h.lookup l hl]

theorem Mirrors.erase (h : Mirrors m t) {k : ModKey} (hk : k.Clean) :
    Mirrors (m.erase k) (t.erase (k.blob hk.nulFree)) := by
  constructor
  · intro l hl
    exact h.clean l (AList.mem_erase.mp hl).2
  · intro l hl
    by_cases hlk : l = k
    · subst hlk
      rw [AList.lookup_erase, AList.lookup_erase]
    · rw [AList.lookup_erase_ne hlk, AList.lookup_erase_ne fun hc => hlk (blob_inj hl hk hc),
        h.lookup l hl]

end
end ModKey

/-- Re-keying an entry does to the bytes what the model does to the exact keys. -/
theorem rekeyEntry_mirrors {s : Runtime} {t : Key.Table} (h : ModKey.Mirrors s.modHd t) {me : EntryPtr}
    {e : ModEntry} {old : ModKey} (ho : old.Clean) {parent child : RegionId}
    (hn : (⟨old.path, child⟩ : ModKey).Clean) :
    ModKey.Mirrors (s.rekeyEntry me e old parent child).modHd
      (t.rekey me (ModKey.blob ⟨old.path, child⟩ hn.nulFree) (old.blob ho.nulFree)) := by
  rw [Runtime.rekeyEntry_eq]
  exact (h.insert hn me).erase ho

namespace Tree

/-- A prefix of at most 60 bits leaves the last digit of an id at zero. -/
def LowClear (T : Tree) : Prop := ∀ r, (T.node r).plen.toNat ≤ 60 → (T.node r).id <<< 60 = 0

section
variable {T T' : Tree}

theorem LowClear.congr (hl : T.LowClear)
    (hs : ∀ r, (T'.node r).toRegionShape = (T.node r).toRegionShape) : T'.LowClear := by
  intro r
  rw [hs]
  exact hl r

theorem slotId_low {r : RegionPtr} {bits : UInt8} (k : Nat) (hr : (T.node r).id <<< 60 = 0)
    (hle : ((T.node r).plen + bits).toNat ≤ 60) : (T.slotId r bits k) <<< 60 = 0 := by
  rw [slotId, BitVec.shiftLeft_or_distrib, hr, ← BitVec.shiftLeft_add, BitVec.shiftLeft_eq_zero]
  · rfl
  · omega

theorem LowClear.claim (hl : T.LowClear) (h : T.Ok) {r : RegionPtr} {bits : UInt8} {k : Nat}
    (hc : T.Claims r bits k) : (T.claim r (T.slotId r bits k) bits).LowClear := by
  have hplen := hc.plen_add h
  intro x
  rw [claim_node T hc.region]
  split
  · exact hl r
  · split
    · intro hx
      replace hx : ((T.node r).plen + bits).toNat ≤ 60 := hx
      exact slotId_low k (hl r (by omega)) hx
    · exact hl x

end
end Tree

theorem lowClear_step {E : Env} {s t : State} {e : Event} (hi : Inv E s) (h : step E s e = .ok t)
    (hl : s.rt.tree.LowClear) : t.rt.tree.LowClear := by
  rcases (step_tree hi h).shapes with hs | ⟨m, r, bits, k, hm, hok, hg, hk, hT⟩
  · exact hl.congr hs
  · rw [hT]
    exact (hl.congr hm.shape).claim hok hk

/-- A key cuts no bit off the id of a region whose prefix has at most 60 bits. -/
theorem region_low_clear {E : Env} {s₀ s : State} {tr : List (State × Event)} (h : Runs E s₀ tr s) :
    s.rt.tree.LowClear := by
  obtain ⟨hb, hrun⟩ := h
  induction hrun with
  | nil =>
      intro r _
      rw [Inv.boot_node hb]
      rfl
  | snoc hrun hs ih => exact lowClear_step (Runs.inv ⟨hb, hrun⟩) hs ih

/-- While prefixes have at most 60 bits, the keys of live entries differ as bytes too. -/
theorem live_keys_differ {E : Env} {s₀ s : State} {tr : List (State × Event)} (h : Runs E s₀ tr s)
    (hlow : ∀ r, (s.rt.tree.node r).plen.toNat ≤ 60) {p q : EntryPtr} {e f : ModEntry}
    (he : s.rt.entries p = some e) (hf : s.rt.entries q = some f) (hp : 0 ∉ e.modKey.bytes)
    (hq : 0 ∉ f.modKey.bytes) (hne : p ≠ q) : e.modKey.blob hp ≠ f.modKey.blob hq := by
  obtain ⟨L, hw⟩ := h.inv.wf
  have clean : ∀ {p e}, s.rt.entries p = some e → 0 ∉ e.modKey.bytes → e.modKey.Clean := by
    intro p e he hp
    obtain ⟨r, hr⟩ := Option.isSome_iff_exists.mp (hw.region p e he)
    have hid : (s.rt.tree.node r).id = e.regionId := (hw.tree.hd_node _ r hr).2
    refine ⟨hp, ?_⟩
    rw [(hw.key p e he).1]
    exact hid ▸ region_low_clear h r (hlow r)
  intro hb
  have hk := ModKey.blob_inj (clean he hp) (clean hf hq) hb
  have hl := (hw.key p e he).2
  rw [hk, (hw.key q f hf).2] at hl
  exact hne (Option.some.inj hl).symm

end Xylem

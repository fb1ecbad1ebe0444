import Mathlib.Logic.Relation
import Mathlib.Data.List.Nodup
import Mathlib.Data.List.Infix
import Mathlib.Data.List.Perm.Basic
import Mathlib.Data.List.Chain

/-!
# Forests given by parent links

A parent function with a rank that falls along it. `climb` follows the links
for a bounded number of steps, `Anc` is ancestor-or-self, and `descend` lists
what hangs below a node in preorder.
-/
namespace Forest

variable {α : Type*} {β : Type*}

/-- At most `n` nodes, from `x` along the parent links. -/
def climb (parent : α → Option α) : Nat → Option α → List α
  | 0, _ => []
  | _+1, none => []
  | n+1, some x => x :: climb parent n (parent x)

/-- `Anc parent a x`: `a` is `x` or one of its ancestors. -/
def Anc (parent : α → Option α) (a x : α) : Prop :=
  Relation.ReflTransGen (fun y z => parent z = some y) a x

/-- A rank that falls along every parent link. -/
def Ranked (parent : α → Option α) (rank : α → Nat) : Prop :=
  ∀ x y, parent x = some y → rank y < rank x

section Climb
variable {parent : α → Option α} {rank : α → Nat}

theorem Anc.refl (a : α) : Anc parent a a := Relation.ReflTransGen.refl

theorem Anc.link {a x : α} (h : parent x = some a) : Anc parent a x := .single h

theorem Anc.trans {a b c : α} (h : Anc parent a b) (k : Anc parent b c) : Anc parent a c :=
  Relation.ReflTransGen.trans h k

/-- An ancestor other than the node itself is an ancestor of its parent. -/
theorem Anc.cases_parent {a x : α} (h : Anc parent a x) :
    a = x ∨ ∃ p, parent x = some p ∧ Anc parent a p := by
  rcases Relation.ReflTransGen.cases_tail h with h | ⟨p, hp, hx⟩
  · exact .inl h.symm
  · exact .inr ⟨p, hx, hp⟩

theorem Anc.of_parent {a p x : α} (h : Anc parent a p) (hx : parent x = some p) :
    Anc parent a x := h.trans (.link hx)

theorem anc_iff {a x p : α} (hx : parent x = some p) :
    Anc parent a x ↔ a = x ∨ Anc parent a p := by
  constructor
  · intro h
    rcases h.cases_parent with h | ⟨q, hq, ha⟩
    · exact .inl h
    · rw [hx] at hq
      cases hq
      exact .inr ha
  · rintro (rfl | h)
    · exact .refl _
    · exact h.of_parent hx

theorem anc_root {a x : α} (hx : parent x = none) : Anc parent a x ↔ a = x := by
  constructor
  · intro h
    rcases h.cases_parent with h | ⟨q, hq, _⟩
    · exact h
    · rw [hx] at hq
      cases hq
  · rintro rfl
    exact .refl _

theorem Anc.rank_le (hr : Ranked parent rank) {a x : α} (h : Anc parent a x) :
    rank a ≤ rank x := by
  induction h with
  | refl => exact le_rfl
  | tail _ hx ih => exact ih.trans (hr _ _ hx).le

theorem Anc.linear {a b x : α} (ha : Anc parent a x) (hb : Anc parent b x) :
    Anc parent a b ∨ Anc parent b a := by
  induction ha with
  | refl => exact .inr hb
  | tail hay hx ih =>
      rcases hb.cases_parent with rfl | ⟨p, hp, hbp⟩
      · exact .inl (Anc.of_parent hay hx)
      · rw [hx] at hp
        cases hp
        exact ih hbp

theorem siblings_apart (hr : Ranked parent rank) {c c' p x : α} (hc : parent c = some p)
    (hc' : parent c' = some p) (h : Anc parent c x) (h' : Anc parent c' x) : c = c' := by
  have below : ∀ {a b : α}, parent a = some p → parent b = some p → Anc parent a b → a = b := by
    intro a b ha hb hab
    rcases hab.cases_parent with rfl | ⟨q, hq, haq⟩
    · rfl
    · rw [hb] at hq
      cases hq
      exact absurd (haq.rank_le hr) (not_le.mpr (hr a p ha))
  rcases h.linear h' with hab | hba
  · exact below hc hc' hab
  · exact (below hc' hc hba).symm

theorem Anc.cases_child {a b : α} (h : Anc parent a b) :
    a = b ∨ ∃ y, parent y = some a ∧ Anc parent y b := by
  rcases Relation.ReflTransGen.cases_head h with h | ⟨y, hy, hb⟩
  · exact .inl h
  · exact .inr ⟨y, hy, hb⟩

theorem Anc.mono {parent' : α → Option α} (sub : ∀ x p, parent' x = some p → parent x = some p)
    {a x : α} (h : Anc parent' a x) : Anc parent a x :=
  Relation.ReflTransGen.mono (fun _ _ hx => sub _ _ hx) _ _ h

theorem Anc.keep {parent' : α → Option α} {a x : α}
    (hk : ∀ y, Anc parent a y → y ≠ a → parent' y = parent y) (h : Anc parent a x) :
    Anc parent' a x := by
  induction h with
  | refl => exact .refl a
  | @tail y z hy hz ih =>
      by_cases hza : z = a
      · rw [hza]
        exact .refl a
      · exact ih.of_parent ((hk z (Anc.of_parent hy hz) hza).trans hz)

theorem mem_climb_anc {n : Nat} {x a : α} (h : a ∈ climb parent n (some x)) :
    Anc parent a x := by
  induction n generalizing x with
  | zero => simp [climb] at h
  | succ n ih =>
      simp only [climb, List.mem_cons] at h
      rcases h with rfl | h
      · exact .refl _
      · cases hp : parent x with
        | none => cases n <;> simp [hp, climb] at h
        | some p =>
            rw [hp] at h
            exact (ih h).of_parent hp

/-- With a step for every rank up to that of the start, nothing is cut off. -/
theorem mem_climb (hr : Ranked parent rank) {n : Nat} {x a : α} (hn : rank x < n) :
    a ∈ climb parent n (some x) ↔ Anc parent a x := by
  refine ⟨mem_climb_anc, ?_⟩
  induction n generalizing x with
  | zero => omega
  | succ n ih =>
      intro h
      simp only [climb, List.mem_cons]
      rcases h.cases_parent with rfl | ⟨p, hp, ha⟩
      · exact .inl rfl
      · rw [hp]
        have hlt := hr _ _ hp
        exact .inr (ih (by omega) ha)

theorem climb_nodup (hr : Ranked parent rank) (n : Nat) (x : α) :
    (climb parent n (some x)).Nodup := by
  induction n generalizing x with
  | zero => exact List.nodup_nil
  | succ n ih =>
      cases hp : parent x with
      | none => cases n <;> simp [climb, hp]
      | some p =>
          simp only [climb, hp, List.nodup_cons]
          refine ⟨fun h => ?_, ih p⟩
          have h1 := (mem_climb_anc h).rank_le hr
          have h2 := hr _ _ hp
          omega

theorem climb_linked (n : Nat) (x : α) :
    (climb parent n (some x)).IsChain fun y z => parent y = some z := by
  induction n generalizing x with
  | zero => exact .nil
  | succ n ih =>
      rw [climb, List.isChain_cons]
      cases hp : parent x with
      | none => cases n <;> simp [climb]
      | some p =>
          refine ⟨fun y hy => ?_, ih p⟩
          cases n with
          | zero => simp [climb] at hy
          | succ n =>
              cases hy
              rfl

theorem climb_last (hr : Ranked parent rank) {n : Nat} {x : α} (hn : rank x < n) :
    ∃ a, (climb parent n (some x)).getLast? = some a ∧ parent a = none := by
  induction n generalizing x with
  | zero => omega
  | succ n ih =>
      rw [climb]
      cases hp : parent x with
      | none =>
          refine ⟨x, ?_, hp⟩
          cases n <;> simp [climb]
      | some p =>
          have hlt := hr _ _ hp
          obtain ⟨a, ha, hroot⟩ := ih (x := p) (by omega)
          refine ⟨a, ?_, hroot⟩
          rw [List.getLast?_cons, ha]
          rfl

/-- `l` is the path from `a` down to `x`, with every ancestor of `x` on it once. -/
structure Path (parent : α → Option α) (a : α) (l : List α) (x : α) : Prop where
  head : l.head? = some a
  last : l.getLast? = some x
  linked : l.IsChain fun y z => parent z = some y
  once : l.Nodup
  all : ∀ b, b ∈ l ↔ Anc parent b x

/-- Climbing with enough steps finds the whole path to the only root. -/
theorem climb_path (hr : Ranked parent rank) {n : Nat} {a x : α} (hn : rank x < n)
    (hroot : ∀ b, Anc parent b x → parent b = none → b = a) :
    Path parent a (climb parent n (some x)).reverse x := by
  have hmem : ∀ b, b ∈ climb parent n (some x) ↔ Anc parent b x := fun b => mem_climb hr hn
  constructor
  · obtain ⟨b, hb, hnone⟩ := climb_last hr hn
    rw [List.head?_reverse, hb, hroot b ((hmem b).mp (List.mem_of_getLast? hb)) hnone]
  · rw [List.getLast?_reverse]
    cases n with
    | zero => omega
    | succ n => rfl
  · exact List.isChain_reverse.mpr (climb_linked n x)
  · exact List.nodup_reverse.mpr (climb_nodup hr n x)
  · intro b
    rw [List.mem_reverse, hmem]

theorem anc_congr {parent' : α → Option α} {x : α}
    (h : ∀ a, Anc parent a x → parent' a = parent a) {a : α} (ha : Anc parent a x) :
    Anc parent' a x := by
  induction ha with
  | refl => exact .refl _
  | tail hay hx ih =>
      exact Anc.of_parent (ih fun b hb => h b (hb.of_parent hx)) ((h _ (.refl _)).trans hx)

end Climb

/-- The items of `x` and, below it, of its children in turn, `n` levels deep. -/
def descend (children : α → List α) (items : α → List β) : Nat → α → List β
  | 0, _ => []
  | n+1, x => items x ++ (children x).flatMap (descend children items n)

section Descend
variable {parent : α → Option α} {children : α → List α} {items : α → List β}

theorem mem_descend_anc (hc : ∀ x y, y ∈ children x → parent y = some x) {n : Nat} {x : α}
    {b : β} (h : b ∈ descend children items n x) : ∃ y, Anc parent x y ∧ b ∈ items y := by
  induction n generalizing x with
  | zero => simp [descend] at h
  | succ n ih =>
      simp only [descend, List.mem_append, List.mem_flatMap] at h
      rcases h with h | ⟨y, hy, h⟩
      · exact ⟨x, .refl _, h⟩
      · obtain ⟨z, hz, hb⟩ := ih h
        exact ⟨z, (Anc.link (hc _ _ hy)).trans hz, hb⟩

theorem mem_descend (height : α → Nat)
    (hc : ∀ x y, y ∈ children x ↔ parent y = some x)
    (hh : ∀ x y, parent y = some x → height y < height x) {n : Nat} {x : α}
    (hn : height x < n) {b : β} :
    b ∈ descend children items n x ↔ ∃ y, Anc parent x y ∧ b ∈ items y := by
  refine ⟨mem_descend_anc fun x y => (hc x y).mp, ?_⟩
  rintro ⟨y, hxy, hb⟩
  induction hxy using Relation.ReflTransGen.head_induction_on generalizing n with
  | refl =>
      obtain ⟨m, rfl⟩ : ∃ m, n = m + 1 := ⟨n - 1, by omega⟩
      simp [descend, hb]
  | head hx _ ih =>
      obtain ⟨m, rfl⟩ : ∃ m, n = m + 1 := ⟨n - 1, by omega⟩
      have hlt := hh _ _ hx
      simp only [descend, List.mem_append, List.mem_flatMap]
      exact .inr ⟨_, (hc _ _).mpr hx, ih (by omega)⟩

/-- Disjoint items without repetition are listed without repetition. -/
theorem descend_nodup {rank : α → Nat} (hr : Ranked parent rank)
    (hc : ∀ x y, y ∈ children x → parent y = some x) (hcn : ∀ x, (children x).Nodup)
    (hi : ∀ x, (items x).Nodup) (hd : ∀ x y b, b ∈ items x → b ∈ items y → x = y)
    (n : Nat) (x : α) : (descend children items n x).Nodup := by
  induction n generalizing x with
  | zero => exact List.nodup_nil
  | succ n ih =>
      rw [descend, List.nodup_append, List.nodup_flatMap]
      refine ⟨hi x, ⟨fun y _ => ih y, ?_⟩, ?_⟩
      · refine (hcn x).pairwise_of_forall_ne fun y hy z hz hne => ?_
        intro b hby hbz
        obtain ⟨u, hu, hbu⟩ := mem_descend_anc hc hby
        obtain ⟨v, hv, hbv⟩ := mem_descend_anc hc hbz
        cases hd u v b hbu hbv
        have hy' := hc _ _ hy
        have hz' := hc _ _ hz
        rcases hu.linear hv with h | h
        · rcases (anc_iff hz').mp h with h | h
          · exact hne h
          · have h1 := h.rank_le hr
            have h2 := hr _ _ hy'
            omega
        · rcases (anc_iff hy').mp h with h | h
          · exact hne h.symm
          · have h1 := h.rank_le hr
            have h2 := hr _ _ hz'
            omega
      · rintro b hb c hbc rfl
        obtain ⟨y, hy, hby⟩ := List.mem_flatMap.mp hbc
        obtain ⟨u, hu, hbu⟩ := mem_descend_anc hc hby
        cases hd x u b hb hbu
        have h1 := hu.rank_le hr
        have h2 := hr _ _ (hc _ _ hy)
        omega

end Descend
end Forest

import Mathlib.Data.List.Nodup
import Mathlib.Logic.Function.Basic

/-!
# Intrusive doubly linked lists

A heap gives each node its two links. `Seg link p l n` says that `l` is a
segment of a list whose neighbours outside are `p` and `n`; a whole list is the
segment between `none` and `none`.
-/
namespace Thread

variable {α : Type*}

structure Link (α : Type*) where
  prev : Option α
  next : Option α

def Seg (link : α → Option (Link α)) : Option α → List α → Option α → Prop
  | _, [], _ => True
  | p, x :: l, n => link x = some ⟨p, l.head? <|> n⟩ ∧ Seg link (some x) l n

def setNext [DecidableEq α] (link : α → Option (Link α)) (q v : Option α) : α → Option (Link α) :=
  match q with
  | some q => Function.update link q ((link q).map fun k => { k with next := v })
  | none => link

/-- Point the backward link of `q`, if there is one, to `v`. -/
def setPrev [DecidableEq α] (link : α → Option (Link α)) (q v : Option α) : α → Option (Link α) :=
  match q with
  | some q => Function.update link q ((link q).map fun k => { k with prev := v })
  | none => link

section
variable {link link' : α → Option (Link α)} {p n : Option α} {l a b : List α} {x : α}

theorem Seg.congr (h : Seg link p l n) (hl : ∀ x ∈ l, link' x = link x) : Seg link' p l n := by
  induction l generalizing p with
  | nil => trivial
  | cons x l ih =>
      obtain ⟨hx, h⟩ := h
      exact ⟨(hl x (by simp)).trans hx, ih h fun y hy => hl y (by simp [hy])⟩

theorem Seg.unique {l' : List α} (h : Seg link p l none) (h' : Seg link p l' none)
    (hh : l'.head? = l.head?) : l' = l := by
  induction l generalizing p l' with
  | nil => exact List.head?_eq_none_iff.mp hh
  | cons x l ih =>
      cases l' with
      | nil => cases hh
      | cons y l' =>
          obtain rfl : y = x := Option.some.inj hh
          obtain ⟨hx, h⟩ := h
          obtain ⟨hx', h'⟩ := h'
          have hnext := congrArg Link.next (Option.some.inj (hx'.symm.trans hx))
          rw [ih h h' (by simpa using hnext)]

theorem seg_append : Seg link p (a ++ b) n ↔
    Seg link p a (b.head? <|> n) ∧ Seg link (a.getLast? <|> p) b n := by
  induction a generalizing p with
  | nil => simp [Seg]
  | cons x a ih =>
      have hhead : ((a ++ b).head? <|> n) = (a.head? <|> (b.head? <|> n)) := by
        cases a <;> simp
      have hlast : ((x :: a).getLast? <|> p) = (a.getLast? <|> some x) := by
        cases ha : a.getLast? with
        | none => simp [List.getLast?_eq_none_iff.mp ha]
        | some y => simp [List.getLast?_cons, ha]
      simp only [List.cons_append, Seg, ih, hhead, hlast, and_assoc]

theorem Seg.at_mid (h : Seg link none (a ++ x :: b) none) :
    link x = some ⟨a.getLast?, b.head?⟩ := by
  obtain ⟨_, hx, _⟩ := seg_append.mp h
  simpa using hx

variable [DecidableEq α]

theorem setNext_apply (q v : Option α) : setNext link q v x =
    if q = some x then (link x).map fun k => { k with next := v } else link x := by
  cases q with
  | none => rfl
  | some q =>
      simp only [setNext, Function.update_apply, Option.some.injEq]
      by_cases h : x = q
      · simp [h]
      · simp [h, Ne.symm h]

theorem setPrev_apply (q v : Option α) : setPrev link q v x =
    if q = some x then (link x).map fun k => { k with prev := v } else link x := by
  cases q with
  | none => rfl
  | some q =>
      simp only [setPrev, Function.update_apply, Option.some.injEq]
      by_cases h : x = q
      · simp [h]
      · simp [h, Ne.symm h]

theorem setNext_of_ne {q v : Option α} (h : q ≠ some x) : setNext link q v x = link x := by
  rw [setNext_apply, if_neg h]

theorem setPrev_of_ne {q v : Option α} (h : q ≠ some x) : setPrev link q v x = link x := by
  rw [setPrev_apply, if_neg h]

theorem Seg.setNext_last (h : Seg link p a n) (hn : a.Nodup) (n' : Option α) :
    Seg (setNext link a.getLast? n') p a n' := by
  induction a generalizing p with
  | nil => trivial
  | cons x a ih =>
      obtain ⟨hx, h⟩ := h
      rw [List.nodup_cons] at hn
      cases ha : a with
      | nil =>
          subst ha
          simp [Seg, setNext, hx]
      | cons y c =>
          have hlast : (x :: a).getLast? = a.getLast? := by simp [ha]
          rw [← ha, hlast]
          refine ⟨?_, ih h hn.2⟩
          rw [setNext_of_ne, hx, ha]
          · simp
          · intro he
            exact hn.1 (List.mem_of_getLast? he)

/-- Redirecting the first node gives the segment another predecessor. -/
theorem Seg.setPrev_head (h : Seg link p b n) (hn : b.Nodup) (p' : Option α) :
    Seg (setPrev link b.head? p') p' b n := by
  cases b with
  | nil => trivial
  | cons x b =>
      obtain ⟨hx, h⟩ := h
      rw [List.nodup_cons] at hn
      refine ⟨by simp [setPrev, hx], h.congr fun y hy => setPrev_of_ne ?_⟩
      rintro ⟨rfl⟩
      exact hn.1 hy

/-- Taking the node between `a` and `b` out of its neighbours' links. -/
theorem Seg.unlink (h : Seg link none (a ++ x :: b) none) (hn : (a ++ x :: b).Nodup) :
    Seg (setPrev (setNext link a.getLast? b.head?) b.head? a.getLast?) none (a ++ b) none := by
  obtain ⟨ha, _, hb⟩ := seg_append.mp h
  obtain ⟨hna, hnxb, hd⟩ := List.nodup_append.mp hn
  have hnb := (List.nodup_cons.mp hnxb).2
  refine seg_append.mpr ⟨?_, ?_⟩
  · have h1 : Seg (setPrev (setNext link a.getLast? b.head?) b.head? a.getLast?) none a b.head? :=
      (ha.setNext_last hna b.head?).congr fun y hy =>
        setPrev_of_ne fun he => hd y hy y (by simp [List.mem_of_head? he]) rfl
    simpa using h1
  · have h1 : Seg (setNext link a.getLast? b.head?) (some x) b none :=
      hb.congr fun y hy => setNext_of_ne fun he =>
        hd y (List.mem_of_getLast? he) y (by simp [hy]) rfl
    simpa using h1.setPrev_head hnb a.getLast?

theorem Seg.link_in (h : Seg link none (a ++ b) none) (hn : (a ++ x :: b).Nodup)
    (hx : link' x = some ⟨a.getLast?, b.head?⟩)
    (hl : ∀ y ∈ a ++ b,
      link' y = setNext (setPrev link b.head? (some x)) a.getLast? (some x) y) :
    Seg link' none (a ++ x :: b) none := by
  obtain ⟨ha, hb⟩ := seg_append.mp h
  obtain ⟨hna, hnxb, hd⟩ := List.nodup_append.mp hn
  have hnb := (List.nodup_cons.mp hnxb).2
  refine seg_append.mpr ⟨?_, by simpa using hx, ?_⟩
  · have h1 : Seg (setPrev link b.head? (some x)) none a (b.head? <|> none) :=
      ha.congr fun y hy => setPrev_of_ne fun he =>
        hd y hy y (by simp [List.mem_of_head? he]) rfl
    have h2 : Seg link' none a (some x) :=
      (h1.setNext_last hna (some x)).congr fun y hy => hl y (by simp [hy])
    simpa using h2
  · refine (hb.setPrev_head hnb (some x)).congr fun y hy => (hl y (by simp [hy])).trans ?_
    exact setNext_of_ne fun he => hd y (List.mem_of_getLast? he) y (by simp [hy]) rfl

end
end Thread

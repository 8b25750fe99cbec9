import Mathlib.Data.List.Nodup

/-!
# Stable sorting by a key

Elements of one key stay in the order that they have, so the result is ordered by the
key and, under one key, by any relation that the list is ordered by.
-/

namespace Jhc.Lib

variable {α : Type} (f : α → ℕ)

def insertUnder (x : α) : List α → List α
  | [] => [x]
  | y :: ys => if f x ≤ f y then x :: y :: ys else y :: insertUnder x ys

def sortUnder : List α → List α
  | [] => []
  | x :: xs => insertUnder f x (sortUnder xs)

variable {f} {x y : α} {l : List α}

theorem insertUnder_perm : (insertUnder f x l).Perm (x :: l) := by
  induction l with
  | nil => exact .refl _
  | cons y ys ih =>
    unfold insertUnder
    split
    · exact .refl _
    · exact (ih.cons y).trans (.swap x y ys)

theorem sortUnder_perm : (sortUnder f l).Perm l := by
  induction l with
  | nil => exact .refl _
  | cons x xs ih => exact insertUnder_perm.trans (ih.cons x)

/-- First by the key, then by the order that was there. -/
def Under (f : α → ℕ) (R : α → α → Prop) (x y : α) : Prop := f x < f y ∨ f x = f y ∧ R x y

variable {R : α → α → Prop}

theorem insertUnder_pairwise (hx : ∀ y ∈ l, R x y) (hl : l.Pairwise (Under f R)) :
    (insertUnder f x l).Pairwise (Under f R) := by
  induction l with
  | nil => exact List.pairwise_singleton _ _
  | cons y ys ih =>
    obtain ⟨hy, hys⟩ := List.pairwise_cons.1 hl
    unfold insertUnder
    split
    · next hle =>
      refine List.pairwise_cons.2 ⟨fun z hz => ?_, hl⟩
      have hyz : f y ≤ f z := by
        cases List.mem_cons.1 hz with
        | inl h => exact Nat.le_of_eq (by rw [h])
        | inr h =>
          rcases hy z h with hlt | ⟨heq, -⟩ <;> omega
      have hR := hx z hz
      rcases Nat.lt_or_ge (f x) (f z) with hlt | hge
      · exact .inl hlt
      · exact .inr ⟨by omega, hR⟩
    · next hgt =>
      refine List.pairwise_cons.2 ⟨fun z hz => ?_, ih (fun z hz => hx z (List.mem_cons_of_mem _ hz)) hys⟩
      cases List.mem_cons.1 (insertUnder_perm.mem_iff.1 hz) with
      | inl h =>
        rw [h]
        exact .inl (by omega)
      | inr h => exact hy z h

theorem sortUnder_pairwise (hl : l.Pairwise R) : (sortUnder f l).Pairwise (Under f R) := by
  induction l with
  | nil => exact List.Pairwise.nil
  | cons x xs ih =>
    obtain ⟨hx, hxs⟩ := List.pairwise_cons.1 hl
    exact insertUnder_pairwise (fun y hy => hx y (sortUnder_perm.mem_iff.1 hy)) (ih hxs)

theorem under_asymm (hR : ∀ x y, R x y → ¬ R y x) (h : Under f R x y) : ¬ Under f R y x := by
  intro h'
  rcases h with h | ⟨heq, hr⟩ <;> rcases h' with h' | ⟨heq', hr'⟩
  · omega
  · omega
  · omega
  · exact hR x y hr hr'

/-- What holds of all pairs in the order of the result can be checked on the list. -/
theorem sortUnder_pairwise_iff (hR : ∀ x y, R x y → ¬ R y x) (hl : l.Pairwise R) {S : α → α → Prop} :
    (sortUnder f l).Pairwise S ↔ ∀ x ∈ l, ∀ y ∈ l, Under f R x y → S x y := by
  have hsorted := sortUnder_pairwise (f := f) hl
  constructor
  · intro hS x hx y hy hxy
    obtain ⟨i, hi, rfl⟩ := List.getElem_of_mem (sortUnder_perm.mem_iff.2 hx : x ∈ sortUnder f l)
    obtain ⟨j, hj, rfl⟩ := List.getElem_of_mem (sortUnder_perm.mem_iff.2 hy : y ∈ sortUnder f l)
    rcases Nat.lt_trichotomy i j with hij | rfl | hij
    · exact List.pairwise_iff_getElem.1 hS i j hi hj hij
    · exact absurd hxy (under_asymm hR hxy)
    · exact absurd (List.pairwise_iff_getElem.1 hsorted j i hj hi hij) (under_asymm hR hxy)
  · intro h
    refine hsorted.imp_of_mem fun hx hy hxy => ?_
    exact h _ (sortUnder_perm.mem_iff.1 hx) _ (sortUnder_perm.mem_iff.1 hy) hxy

/-- As many elements from the front as the predicate holds of are those that it holds
of, when none that it fails on comes before one that it holds of. -/
theorem take_countP_iff {p : α → Bool} (hl : l.Nodup) :
    (∀ x ∈ l, x ∈ l.take (l.countP p) ↔ p x = true) ↔ l.Pairwise fun x y => p y = true → p x = true := by
  constructor
  · intro h
    refine List.pairwise_iff_getElem.2 fun i j hi hj hij hpy => ?_
    have hy := (h l[j] (List.getElem_mem hj)).2 hpy
    obtain ⟨k, hk, heq⟩ := List.getElem_of_mem hy
    rw [List.length_take] at hk
    rw [List.getElem_take] at heq
    have hkj : k = j := (List.Nodup.getElem_inj_iff hl).1 heq
    refine (h l[i] (List.getElem_mem hi)).1 (List.mem_take_iff_getElem.2 ⟨i, ?_, rfl⟩)
    omega
  · intro h
    induction l with
    | nil => simp
    | cons x xs ih =>
      obtain ⟨hx, hxs⟩ := List.pairwise_cons.1 h
      obtain ⟨hnot, hnd⟩ := List.nodup_cons.1 hl
      cases hp : p x with
      | true =>
        rw [List.countP_cons_of_pos hp, List.take_succ_cons]
        intro y hy
        cases List.mem_cons.1 hy with
        | inl heq =>
          rw [heq]
          simp [hp]
        | inr hmem =>
          have hne : y ≠ x := fun heq => hnot (heq ▸ hmem)
          rw [List.mem_cons, or_iff_right hne]
          exact ih hnd hxs y hmem
      | false =>
        have hnone : ∀ y ∈ x :: xs, p y = false := by
          intro y hy
          cases List.mem_cons.1 hy with
          | inl heq => rw [heq, hp]
          | inr hmem =>
            cases hpy : p y with
            | false => rfl
            | true =>
              rw [hx y hmem hpy] at hp
              cases hp
        have hzero : (x :: xs).countP p = 0 := by
          rw [List.countP_eq_zero]
          intro y hy
          simp [hnone y hy]
        rw [hzero]
        intro y hy
        simp [hnone y hy]

end Jhc.Lib

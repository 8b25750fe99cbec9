import Mathlib.Data.Set.Basic
import Mathlib.Logic.Relation
import Mathlib.Order.Bounds.Basic
import Jhc.UnionSolve.Solve

/-!
# What the constraints say

A list of constraints has a solution just when each constant that it puts below a
variable is below each constant that it puts above it.
-/

namespace Jhc.UnionSolve
open Relation

variable {l v : Type}

/-! ### The order of the variables -/

/-- The pairs `x <= y` that a constraint states. -/
def CL.Pairs : CL l v → v → v → Prop
  | .cv x .lte y => fun a b => a = x ∧ b = y
  | .cv x .gte y => fun a b => a = y ∧ b = x
  | .cv x .eq y => fun a b => (a = x ∧ b = y) ∨ (a = y ∧ b = x)
  | .cl .. => fun _ _ => False

def Below (cs : List (CL l v)) (a b : v) : Prop := ∃ c ∈ cs, c.Pairs a b

theorem below_concat (cs : List (CL l v)) (c : CL l v) :
    Below (cs ++ [c]) = fun a b => Below cs a b ∨ c.Pairs a b := by
  funext a b
  apply propext
  constructor
  · rintro ⟨d, hd, hab⟩
    cases List.mem_append.mp hd with
    | inl hd => exact Or.inl ⟨d, hd, hab⟩
    | inr hd => exact Or.inr (List.mem_singleton.mp hd ▸ hab)
  · rintro (⟨d, hd, hab⟩ | hab)
    · exact ⟨d, List.mem_append_left _ hd, hab⟩
    · exact ⟨c, List.mem_append_right _ List.mem_cons_self, hab⟩


/-! ### The constants around a variable -/

/-- The constants that the constraints put below `x`. -/
def lowers (cs : List (CL l v)) (x : v) : Set l :=
  {a | ∃ u, ReflTransGen (Below cs) u x ∧ (.cl u .gte a ∈ cs ∨ .cl u .eq a ∈ cs)}

/-- The constants that the constraints put above `x`. -/
def uppers (cs : List (CL l v)) (x : v) : Set l :=
  {b | ∃ u, ReflTransGen (Below cs) x u ∧ (.cl u .lte b ∈ cs ∨ .cl u .eq b ∈ cs)}

variable {cs : List (CL l v)}

theorem lowers_mono {x y : v} (h : ReflTransGen (Below cs) x y) : lowers cs x ⊆ lowers cs y :=
  fun _ ⟨u, hu, ha⟩ => ⟨u, hu.trans h, ha⟩

theorem uppers_mono {x y : v} (h : ReflTransGen (Below cs) x y) : uppers cs y ⊆ uppers cs x :=
  fun _ ⟨u, hu, ha⟩ => ⟨u, h.trans hu, ha⟩

def CL.consts : CL l v → List l
  | .cv .. => []
  | .cl _ _ c => [c]

/-- The constants of the constraints. -/
def consts (cs : List (CL l v)) : List l := cs.flatMap CL.consts

theorem mem_consts {x : v} {op : Op} {a : l} (h : .cl x op a ∈ cs) : a ∈ consts cs :=
  List.mem_flatMap.mpr ⟨_, h, List.mem_cons_self⟩

theorem lowers_consts {x : v} {a : l} (ha : a ∈ lowers cs x) : a ∈ consts cs := by
  obtain ⟨u, -, hor⟩ := ha
  cases hor with
  | inl h => exact mem_consts h
  | inr h => exact mem_consts h

theorem uppers_consts {x : v} {b : l} (hb : b ∈ uppers cs x) : b ∈ consts cs := by
  obtain ⟨u, -, hor⟩ := hb
  cases hor with
  | inl h => exact mem_consts h
  | inr h => exact mem_consts h

/-! ### Solutions -/

section Lattice

variable [Lattice l]

def CL.Holds (σ : v → l) : CL l v → Prop
  | .cv x .lte y => σ x ≤ σ y
  | .cv x .eq y => σ x = σ y
  | .cv x .gte y => σ y ≤ σ x
  | .cl x .lte c => σ x ≤ c
  | .cl x .eq c => σ x = c
  | .cl x .gte c => c ≤ σ x

def Satisfies (σ : v → l) (cs : List (CL l v)) : Prop := ∀ c ∈ cs, c.Holds σ

def Satisfiable (cs : List (CL l v)) : Prop := ∃ σ : v → l, Satisfies σ cs

def Agree (cs : List (CL l v)) : Prop := ∀ x, ∀ a ∈ lowers cs x, ∀ b ∈ uppers cs x, a ≤ b

/-- The constants below and above `x` disagree, and the solver can see it: all that is
below the upper ones is below all that is above the lower ones. -/
def Crossed (cs : List (CL l v)) (x : v) : Prop :=
  (∃ a ∈ lowers cs x, ∃ b ∈ uppers cs x, ¬a ≤ b) ∧
    ∀ y ∈ lowerBounds (uppers cs x), ∀ z ∈ upperBounds (lowers cs x), y ≤ z

variable {σ : v → l}

theorem CL.Holds.pairs {c : CL l v} (h : c.Holds σ) {a b : v} (hab : c.Pairs a b) : σ a ≤ σ b := by
  match c, h, hab with
  | .cv x .lte y, h, ⟨ha, hb⟩ => exact ha ▸ hb ▸ h
  | .cv x .gte y, h, ⟨ha, hb⟩ => exact ha ▸ hb ▸ h
  | .cv x .eq y, h, .inl ⟨ha, hb⟩ => exact ha ▸ hb ▸ le_of_eq h
  | .cv x .eq y, h, .inr ⟨ha, hb⟩ => exact ha ▸ hb ▸ ge_of_eq h

theorem Satisfies.below (h : Satisfies σ cs) {x y : v} (hxy : ReflTransGen (Below cs) x y) :
    σ x ≤ σ y := by
  induction hxy with
  | refl => exact le_rfl
  | tail _ hstep ih =>
    obtain ⟨c, hc, hab⟩ := hstep
    exact ih.trans ((h c hc).pairs hab)

theorem Satisfies.lower (h : Satisfies σ cs) {x : v} {a : l} (ha : a ∈ lowers cs x) : a ≤ σ x := by
  obtain ⟨u, hux, hor⟩ := ha
  apply le_trans _ (h.below hux)
  cases hor with
  | inl hc => exact h _ hc
  | inr hc => exact ge_of_eq (h _ hc)

theorem Satisfies.upper (h : Satisfies σ cs) {x : v} {b : l} (hb : b ∈ uppers cs x) : σ x ≤ b := by
  obtain ⟨u, hxu, hor⟩ := hb
  apply (h.below hxu).trans
  cases hor with
  | inl hc => exact h _ hc
  | inr hc => exact le_of_eq (h _ hc)

theorem Satisfies.agree (h : Satisfies σ cs) : Agree cs := fun _ _ ha _ hb =>
  (h.lower ha).trans (h.upper hb)

theorem Crossed.not_agree {x : v} (h : Crossed cs x) : ¬Agree cs := fun hagree => by
  obtain ⟨⟨a, ha, b, hb, hnot⟩, -⟩ := h
  exact hnot (hagree x a ha b hb)

/-! ### The least solution -/

/-- A value below all constants. -/
theorem exists_bottom [Nonempty l] (xs : List l) : ∃ m, ∀ a ∈ xs, m ≤ a := by
  induction xs with
  | nil => exact ⟨Classical.arbitrary l, fun _ ha => absurd ha List.not_mem_nil⟩
  | cons x xs ih =>
    obtain ⟨m, hm⟩ := ih
    refine ⟨x ⊓ m, fun a ha => ?_⟩
    cases List.mem_cons.mp ha with
    | inl heq => exact heq ▸ inf_le_left
    | inr hmem => exact inf_le_right.trans (hm a hmem)

/-- The join of the values of a list that have a property, above a value `m`. -/
theorem exists_join (m : l) (p : l → Prop) (xs : List l) :
    ∃ j, m ≤ j ∧ (∀ a ∈ xs, p a → a ≤ j) ∧ ∀ y, m ≤ y → (∀ a ∈ xs, p a → a ≤ y) → j ≤ y := by
  induction xs with
  | nil => exact ⟨m, le_rfl, fun _ ha => absurd ha List.not_mem_nil, fun _ hy _ => hy⟩
  | cons x xs ih =>
    obtain ⟨j, hm, hle, hleast⟩ := ih
    by_cases hx : p x
    · refine ⟨x ⊔ j, hm.trans le_sup_right, fun a ha hp => ?_, fun y hy hall => ?_⟩
      · cases List.mem_cons.mp ha with
        | inl heq => exact heq ▸ le_sup_left
        | inr hmem => exact (hle a hmem hp).trans le_sup_right
      · exact sup_le (hall x List.mem_cons_self hx)
          (hleast y hy fun a ha => hall a (List.mem_cons_of_mem x ha))
    · refine ⟨j, hm, fun a ha hp => ?_, fun y hy hall => ?_⟩
      · cases List.mem_cons.mp ha with
        | inl heq => exact absurd (heq ▸ hp) hx
        | inr hmem => exact hle a hmem hp
      · exact hleast y hy fun a ha => hall a (List.mem_cons_of_mem x ha)

theorem Agree.satisfiable [Nonempty l] (h : Agree cs) : Satisfiable cs := by
  obtain ⟨m, hm⟩ := exists_bottom (consts cs)
  have hjoin := fun x => exists_join m (· ∈ lowers cs x) (consts cs)
  choose σ hbot hlower hleast using hjoin
  have hle : ∀ x y, Below cs x y → σ x ≤ σ y := fun x y hxy =>
    hleast x (σ y) (hbot y) fun a ha hax => hlower y a ha (lowers_mono (.single hxy) hax)
  have hupper : ∀ x, ∀ b ∈ uppers cs x, σ x ≤ b := fun x b hb =>
    hleast x b (hm b (uppers_consts hb)) fun a _ hax => h x a hax b hb
  have hlow : ∀ x, ∀ a ∈ lowers cs x, a ≤ σ x := fun x a ha => hlower x a (lowers_consts ha) ha
  refine ⟨σ, fun c hc => ?_⟩
  match c, hc with
  | .cv x .lte y, hc => exact hle x y ⟨_, hc, rfl, rfl⟩
  | .cv x .gte y, hc => exact hle y x ⟨_, hc, rfl, rfl⟩
  | .cv x .eq y, hc =>
    exact le_antisymm (hle x y ⟨_, hc, Or.inl ⟨rfl, rfl⟩⟩) (hle y x ⟨_, hc, Or.inr ⟨rfl, rfl⟩⟩)
  | .cl x .lte a, hc => exact hupper x a ⟨x, .refl, Or.inl hc⟩
  | .cl x .gte a, hc => exact hlow x a ⟨x, .refl, Or.inl hc⟩
  | .cl x .eq a, hc =>
    exact le_antisymm (hupper x a ⟨x, .refl, Or.inr hc⟩) (hlow x a ⟨x, .refl, Or.inr hc⟩)

/-- There is a solution just when no lower constant exceeds an upper one. -/
theorem satisfiable_iff_agree [Nonempty l] : Satisfiable cs ↔ Agree cs :=
  ⟨fun ⟨_, hσ⟩ => hσ.agree, Agree.satisfiable⟩

end Lattice

end Jhc.UnionSolve

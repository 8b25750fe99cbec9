import Mathlib

/-!
# Lattices of the constraint solver (src/Util/UnionSolve.hs:25-43, 300-388)

The class of the values that constraints are about, its instances, and what the
solver relies on.
-/

namespace Jhc.UnionSolve

class Fixable (α : Type) where
  isBottom : α → Bool := fun _ => false
  isTop : α → Bool := fun _ => false
  join : α → α → α
  meet : α → α → α
  lte : α → α → Bool
  eq : α → α → Bool := fun x y => lte x y && lte y x

open Fixable

/-! ### Instances -/

instance {α : Type} [DecidableEq α] : Fixable (Finset α) where
  isBottom s := s = ∅
  join a b := a ∪ b
  meet a b := a ∩ b
  lte a b := a ⊆ b
  eq a b := a = b

instance : Fixable Bool where
  isBottom x := !x
  isTop x := x
  join a b := a || b
  meet a b := a && b
  eq a b := a == b
  lte a b := a ≤ b

instance : Fixable ℤ where
  join a b := max a b
  meet a b := min a b
  lte a b := a ≤ b
  eq a b := a == b

instance {α β : Type} [Fixable α] [Fixable β] : Fixable (α × β) where
  isBottom x := isBottom x.1 && isBottom x.2
  isTop x := isTop x.1 && isTop x.2
  join x y := (join x.1 y.1, join x.2 y.2)
  meet x y := (meet x.1 y.1, meet x.2 y.2)
  lte x y := lte x.1 y.1 && lte x.2 y.2
  eq x y := eq x.1 y.1 && eq x.2 y.2

/-- The instance of `Maybe`: `Nothing` is a new bottom. -/
instance {α : Type} [Fixable α] : Fixable (WithBot α) where
  isBottom
    | none => true
    | some _ => false
  isTop
    | none => false
    | some x => isTop x
  join
    | none, b => b
    | a, none => a
    | some a, some b => some (join a b)
  meet
    | none, _ => none
    | _, none => none
    | some a, some b => some (meet a b)
  lte
    | none, _ => true
    | _, none => false
    | some x, some y => lte x y

/-- The instance of `Topped`: `Top` is a new top. -/
instance {α : Type} [Fixable α] : Fixable (WithTop α) where
  isBottom
    | some x => isBottom x
    | none => false
  isTop
    | none => true
    | some _ => false
  meet
    | none, b => b
    | a, none => a
    | some a, some b => some (meet a b)
  join
    | none, _ => none
    | _, none => none
    | some a, some b => some (join a b)
  eq
    | none, none => true
    | some x, some y => eq x y
    | _, _ => false
  lte
    | _, none => true
    | none, _ => false
    | some x, some y => lte x y

/-! ### Laws -/

/-- The operations are those of a lattice; `isBottom` and `isTop` may miss the
ends of it, but find nothing else. -/
class LawfulFixable (α : Type) [Fixable α] [Lattice α] : Prop where
  join_eq : ∀ x y : α, join x y = x ⊔ y
  meet_eq : ∀ x y : α, meet x y = x ⊓ y
  lte_iff : ∀ x y : α, lte x y = true ↔ x ≤ y
  eq_iff : ∀ x y : α, eq x y = true ↔ x = y
  bottom_le : ∀ x : α, isBottom x = true → ∀ y, x ≤ y
  top_ge : ∀ x : α, isTop x = true → ∀ y, y ≤ x

open LawfulFixable

instance {α : Type} [DecidableEq α] : LawfulFixable (Finset α) where
  join_eq _ _ := rfl
  meet_eq _ _ := rfl
  lte_iff _ _ := decide_eq_true_iff
  eq_iff _ _ := decide_eq_true_iff
  bottom_le x hx y := by
    have hempty : x = ∅ := of_decide_eq_true hx
    rw [hempty]
    exact Finset.empty_subset y
  top_ge _ hx _ := Bool.noConfusion hx

instance : LawfulFixable Bool where
  join_eq := by decide
  meet_eq := by decide
  lte_iff := by decide
  eq_iff := by decide
  bottom_le := by decide
  top_ge := by decide

instance : LawfulFixable ℤ where
  join_eq _ _ := rfl
  meet_eq _ _ := rfl
  lte_iff _ _ := decide_eq_true_iff
  eq_iff _ _ := beq_iff_eq
  bottom_le _ hx _ := Bool.noConfusion hx
  top_ge _ hx _ := Bool.noConfusion hx

instance {α β : Type} [Fixable α] [Lattice α] [LawfulFixable α] [Fixable β] [Lattice β]
    [LawfulFixable β] : LawfulFixable (α × β) where
  join_eq x y := Prod.ext (join_eq x.1 y.1) (join_eq x.2 y.2)
  meet_eq x y := Prod.ext (meet_eq x.1 y.1) (meet_eq x.2 y.2)
  lte_iff x y := by
    show (lte x.1 y.1 && lte x.2 y.2) = true ↔ x ≤ y
    rw [Bool.and_eq_true, lte_iff, lte_iff]
    exact Prod.le_def.symm
  eq_iff x y := by
    show (eq x.1 y.1 && eq x.2 y.2) = true ↔ x = y
    rw [Bool.and_eq_true, eq_iff, eq_iff]
    exact Prod.ext_iff.symm
  bottom_le x hx y := by
    obtain ⟨h1, h2⟩ := Bool.and_eq_true_iff.mp hx
    exact ⟨bottom_le x.1 h1 y.1, bottom_le x.2 h2 y.2⟩
  top_ge x hx y := by
    obtain ⟨h1, h2⟩ := Bool.and_eq_true_iff.mp hx
    exact ⟨top_ge x.1 h1 y.1, top_ge x.2 h2 y.2⟩

section Ends

variable {α : Type} [Fixable α] [Lattice α] [LawfulFixable α]

theorem maybe_lte (x y : WithBot α) : lte x y = true ↔ x ≤ y := by
  match x, y with
  | ⊥, y => exact iff_of_true rfl bot_le
  | some x, ⊥ => exact iff_of_false Bool.false_ne_true (WithBot.not_coe_le_bot x)
  | some x, some y => exact (lte_iff x y).trans WithBot.coe_le_coe.symm

instance : LawfulFixable (WithBot α) where
  join_eq x y := by
    match x, y with
    | ⊥, y => exact (bot_sup_eq y).symm
    | some x, ⊥ => rfl
    | some x, some y => exact congrArg WithBot.some (join_eq x y)
  meet_eq x y := by
    match x, y with
    | ⊥, y => exact (bot_inf_eq y).symm
    | some x, ⊥ => exact (inf_bot_eq _).symm
    | some x, some y => exact congrArg WithBot.some (meet_eq x y)
  lte_iff := maybe_lte
  eq_iff x y := by
    show (lte x y && lte y x) = true ↔ x = y
    rw [Bool.and_eq_true, maybe_lte, maybe_lte]
    exact le_antisymm_iff.symm
  bottom_le x hx y := by
    match x with
    | ⊥ => exact bot_le
    | some x => exact Bool.noConfusion hx
  top_ge x hx y := by
    match x, y with
    | ⊥, y => exact Bool.noConfusion hx
    | some x, ⊥ => exact bot_le
    | some x, some y => exact WithBot.coe_le_coe.mpr (top_ge x hx y)

instance : LawfulFixable (WithTop α) where
  join_eq x y := by
    match x, y with
    | ⊤, y => exact (top_sup_eq y).symm
    | some x, ⊤ => exact (sup_top_eq _).symm
    | some x, some y => exact congrArg WithTop.some (join_eq x y)
  meet_eq x y := by
    match x, y with
    | ⊤, y => exact (top_inf_eq y).symm
    | some x, ⊤ => rfl
    | some x, some y => exact congrArg WithTop.some (meet_eq x y)
  lte_iff x y := by
    match x, y with
    | ⊤, ⊤ => exact iff_of_true rfl le_rfl
    | some x, ⊤ => exact iff_of_true rfl le_top
    | ⊤, some y => exact iff_of_false Bool.false_ne_true (WithTop.not_top_le_coe y)
    | some x, some y => exact (lte_iff x y).trans WithTop.coe_le_coe.symm
  eq_iff x y := by
    match x, y with
    | ⊤, ⊤ => exact iff_of_true rfl rfl
    | some x, ⊤ => exact iff_of_false Bool.false_ne_true (WithTop.coe_ne_top)
    | ⊤, some y => exact iff_of_false Bool.false_ne_true (WithTop.top_ne_coe)
    | some x, some y => exact (eq_iff x y).trans WithTop.coe_inj.symm
  bottom_le x hx y := by
    match x, y with
    | ⊤, y => exact Bool.noConfusion hx
    | some x, ⊤ => exact le_top
    | some x, some y => exact WithTop.coe_le_coe.mpr (bottom_le x hx y)
  top_ge x hx y := by
    match x with
    | ⊤ => exact le_top
    | some x => exact Bool.noConfusion hx

end Ends

end Jhc.UnionSolve

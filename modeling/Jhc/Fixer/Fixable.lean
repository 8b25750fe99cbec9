import Mathlib

/-!
# Fixable lattices (src/Fixer/Fixer.hs:58-78, 258-301)

The class of the values that the solver handles, its instances, and the laws
that the solver relies on.
-/

namespace Jhc.Fixpoint

class Fixable (α : Type) where
  bottom : α
  isBottom : α → Bool
  lub : α → α → α
  minus : α → α → α
  lte : α → α → Bool := fun x y => isBottom (minus x y)

open Fixable

/-! ### Instances (Fixer.hs:262-301) -/

instance {α : Type} [DecidableEq α] : Fixable (Finset α) where
  bottom := ∅
  isBottom s := s = ∅
  lub a b := a ∪ b
  minus a b := a \ b

instance : Fixable Bool where
  bottom := false
  isBottom x := x == false
  lub a b := a || b
  minus
    | true, false => true
    | false, true => false
    | true, true => false
    | false, false => false

instance : Fixable ℤ where
  bottom := 0
  isBottom x := 0 == x
  lub a b := max a b
  minus a b := if a > b then a else 0

instance {α β : Type} [Fixable α] [Fixable β] : Fixable (α × β) where
  bottom := (bottom, bottom)
  isBottom x := isBottom x.1 && isBottom x.2
  lub x y := (lub x.1 y.1, lub x.2 y.2)
  minus x y := (minus x.1 y.1, minus x.2 y.2)

instance {α : Type} [Fixable α] : Fixable (Option α) where
  bottom := none
  isBottom x := x.isNone
  lub
    | none, b => b
    | a, none => a
    | some a, some b => some (lub a b)
  minus
    | some a, some b => some (minus a b)
    | some a, none => some a
    | none, _ => none

/-! ### Laws -/

/-- The laws in the comment of the class, over the order of the lattice. The law of
`minus` stands there as `x minus y == z --> y lub z == x`, which is for `y` below `x`. -/
class LawfulFixable (α : Type) [Fixable α] [SemilatticeSup α] [OrderBot α] : Prop where
  bottom_eq : (bottom : α) = ⊥
  isBottom_iff : ∀ x : α, isBottom x = true ↔ x = ⊥
  lub_eq : ∀ x y : α, lub x y = x ⊔ y
  sup_minus : ∀ x y : α, y ⊔ minus x y = y ⊔ x
  minus_bottom : ∀ x y : α, isBottom (minus x y) = true ↔ x ≤ y
  lte_iff : ∀ x y : α, lte x y = true ↔ x ≤ y

instance {α : Type} [DecidableEq α] : LawfulFixable (Finset α) where
  bottom_eq := rfl
  isBottom_iff s := decide_eq_true_iff
  lub_eq _ _ := rfl
  sup_minus s t := Finset.union_sdiff_self_eq_union
  minus_bottom s t := by
    show decide (s \ t = ∅) = true ↔ s ≤ t
    rw [decide_eq_true_iff]
    exact Finset.sdiff_eq_empty_iff_subset
  lte_iff s t := by
    show decide (s \ t = ∅) = true ↔ s ≤ t
    rw [decide_eq_true_iff]
    exact Finset.sdiff_eq_empty_iff_subset

instance : LawfulFixable Bool where
  bottom_eq := rfl
  isBottom_iff := by decide
  lub_eq := by decide
  sup_minus := by decide
  minus_bottom := by decide
  lte_iff := by decide

section Pairs

variable {α β : Type} [Fixable α] [SemilatticeSup α] [OrderBot α] [LawfulFixable α]
  [Fixable β] [SemilatticeSup β] [OrderBot β] [LawfulFixable β]

open LawfulFixable

theorem pair_minus (x y : α × β) : isBottom (minus x y) = true ↔ x ≤ y := by
  show (isBottom (minus x.1 y.1) && isBottom (minus x.2 y.2)) = true ↔ x ≤ y
  rw [Bool.and_eq_true, minus_bottom, minus_bottom]
  exact Prod.le_def.symm

instance : LawfulFixable (α × β) where
  bottom_eq := Prod.ext bottom_eq bottom_eq
  isBottom_iff x := by
    show (isBottom x.1 && isBottom x.2) = true ↔ x = ⊥
    rw [Bool.and_eq_true, isBottom_iff, isBottom_iff, Prod.ext_iff]
    rfl
  lub_eq x y := Prod.ext (lub_eq x.1 y.1) (lub_eq x.2 y.2)
  sup_minus x y := Prod.ext (sup_minus x.1 y.1) (sup_minus x.2 y.2)
  minus_bottom := pair_minus
  lte_iff := pair_minus

end Pairs

/-- No value of a `Maybe` lattice but `Nothing` is below another, not even below itself. -/
theorem maybe_lte {α : Type} [Fixable α] (a : α) (y : Option α) : lte (some a) y = false := by
  cases y with
  | none => rfl
  | some b => rfl

end Jhc.Fixpoint

/-!
# Tree-like values (src/Fixer/VMap.hs)

The map of arguments is the list of its bindings in the order of the keys.
-/

namespace Jhc.Fixpoint
open Fixable

inductive Proxy (p : Type) where
  | proxy (x : p)
  | depthExceeded

inductive VMap (p n : Type) where
  | mk (vmapArgs : List ((n × ℤ) × VMap p n)) (vmapNodes : Proxy p ⊕ Finset n)

namespace VMap

variable {p n : Type}

def emptyVMap : VMap p n := .mk [] (.inr ∅)

def vmapPlaceholder (x : p) : VMap p n := .mk [] (.inl (.proxy x))

section Operations

variable [LinearOrder n]

protected def isBottom : VMap p n → Bool
  | .mk m (.inr s) => m.isEmpty && decide (s = ∅)
  | .mk _ (.inl _) => false

/-- The helper `f` of `pruneVMap`, which counts the levels. -/
def pruneVMap.f : ℕ → VMap p n → VMap p n
  | 0, _ => .mk [] (.inl .depthExceeded)
  | _ + 1, .mk _ (.inl x) => .mk [] (.inl x)
  | k + 1, .mk map (.inr set) =>
    .mk ((map.map fun a => (a.1, f k a.2)).filter fun a => !a.2.isBottom) (.inr set)

def pruneVMap (vmap : VMap p n) : VMap p n := pruneVMap.f 7 vmap

/-- `Map.insert`, with the keys in the order of pairs. -/
def insertArg (k : n × ℤ) (v : VMap p n) : List ((n × ℤ) × VMap p n) → List ((n × ℤ) × VMap p n)
  | [] => [(k, v)]
  | (k', v') :: as =>
    if k = k' then (k, v) :: as
    else if k.1 < k'.1 ∨ k.1 = k'.1 ∧ k.2 < k'.2 then (k, v) :: (k', v') :: as
    else (k', v') :: insertArg k v as

mutual

protected def lte : VMap p n → VMap p n → Bool
  | _, .mk _ (.inl _) => true
  | .mk _ (.inl _), .mk _ (.inr _) => false
  | .mk as (.inr ns), .mk as' (.inr ns') => decide (ns \ ns' = ∅) && lteArgs as as'

/-- No argument is left over by `Map.differenceWith`. -/
def lteArgs : List ((n × ℤ) × VMap p n) → List ((n × ℤ) × VMap p n) → Bool
  | [], _ => true
  | (k, a) :: as, as' =>
    (match as'.lookup k with
      | some b => a.lte b
      | none => false) && lteArgs as as'

end

mutual

protected def lub : VMap p n → VMap p n → VMap p n
  | x@(.mk as ns), y@(.mk as' ns') =>
    if x.lte y then y
    else if y.lte x then x
    else match ns, ns' with
      | .inl q, _ => .mk [] (.inl q)
      | _, .inl q => .mk [] (.inl q)
      | .inr ns, .inr ns' => pruneVMap (.mk (unionArgs as as') (.inr (ns ∪ ns')))

/-- `Map.unionWith lub` -/
def unionArgs : List ((n × ℤ) × VMap p n) → List ((n × ℤ) × VMap p n) → List ((n × ℤ) × VMap p n)
  | [], as' => as'
  | (k, a) :: as, as' =>
    insertArg k (match as'.lookup k with
      | some b => a.lub b
      | none => a) (unionArgs as as')

end

mutual

protected def minus : VMap p n → VMap p n → VMap p n
  | _, .mk _ (.inl _) => emptyVMap
  | .mk as (.inl q), .mk _ (.inr _) => .mk as (.inl q)
  | .mk n1 (.inr w1), .mk n2 (.inr w2) => pruneVMap (.mk (minusArgs n1 n2) (.inr (w1 \ w2)))

def minusArgs : List ((n × ℤ) × VMap p n) → List ((n × ℤ) × VMap p n) → List ((n × ℤ) × VMap p n)
  | [], _ => []
  | (k, v) :: n1, n2 =>
    (k, match n2.lookup k with
      | some v' => v.minus v'
      | none => v) :: minusArgs n1 n2

end

attribute [local grind =] pruneVMap.f

end Operations

instance [LinearOrder n] : Fixable (VMap p n) where
  bottom := emptyVMap
  isBottom := VMap.isBottom
  lub := VMap.lub
  minus := VMap.minus
  lte := VMap.lte

end VMap

end Jhc.Fixpoint

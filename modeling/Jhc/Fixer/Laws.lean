import Jhc.Fixer.Fixable

/-!
# The laws of the instances (src/Fixer/Fixer.hs:58-78, 258-301, src/Fixer/VMap.hs:87-109)

The instances are closed under pairs and `Maybe`, so that a shape stands for
each of them.
-/

namespace Jhc.Fixpoint
open Fixable

/-- The laws of the class, where `minus` only has to give what is missing. -/
structure Laws (α : Type) [Fixable α] : Prop where
  isBottom_iff : ∀ x : α, isBottom x = true ↔ x = bottom
  lub_self : ∀ x : α, lub x x = x
  lub_comm : ∀ x y : α, lub x y = lub y x
  lub_assoc : ∀ x y z : α, lub (lub x y) z = lub x (lub y z)
  lub_bottom : ∀ x : α, lub x bottom = x
  lte_iff : ∀ x y : α, lte x y = true ↔ lub x y = y
  minus_lub : ∀ x y : α, lub (minus x y) y = lub x y
  minus_of_lte : ∀ x y : α, lte x y = true → minus x y = bottom
  minus_bottom : ∀ x : α, minus x bottom = x
  bottom_minus : ∀ x : α, minus bottom x = bottom

section Order

variable {α : Type} [Fixable α]

theorem Laws.isBottom_minus (h : Laws α) (x y : α) : isBottom (minus x y) = true ↔ lub x y = y := by
  constructor
  · intro hbot
    have hminus : minus x y = bottom := (h.isBottom_iff _).1 hbot
    rw [← h.minus_lub, hminus, h.lub_comm, h.lub_bottom]
  · intro hlub
    rw [h.isBottom_iff]
    exact h.minus_of_lte x y ((h.lte_iff x y).2 hlub)

/-- The lattice that the laws make of a type. -/
abbrev Laws.lattice (h : Laws α) : SemilatticeSup α where
  le x y := lub x y = y
  le_refl := h.lub_self
  le_trans x y z hxy hyz := by
    rw [← hyz, ← h.lub_assoc, hxy]
  le_antisymm x y hxy hyx := by
    rw [← hyx, h.lub_comm, hxy]
  sup := lub
  le_sup_left x y := by
    rw [← h.lub_assoc, h.lub_self]
  le_sup_right x y := by
    rw [h.lub_comm x y, ← h.lub_assoc, h.lub_self]
  sup_le x y z hxz hyz := by
    rw [h.lub_assoc, hyz, hxz]

theorem Laws.bottom_lub (h : Laws α) (x : α) : lub bottom x = x := by
  rw [h.lub_comm, h.lub_bottom]

end Order

/-! ### Shapes -/

/-- The instances of the class. -/
inductive Shape : Type 1 where
  | bool
  | set (n : Type) [DecidableEq n]
  | int
  | pair (a b : Shape)
  | maybe (a : Shape)
  | vmap (p n : Type) [Inhabited p] [LinearOrder n]

namespace Shape

def Den : Shape → Type
  | .bool => Bool
  | @set n _ => Finset n
  | .int => ℤ
  | .pair a b => a.Den × b.Den
  | .maybe a => Option a.Den
  | @vmap p n _ _ => VMap p n

@[reducible] def fixable : (s : Shape) → Fixable s.Den
  | .bool => inferInstanceAs (Fixable Bool)
  | @set n _ => inferInstanceAs (Fixable (Finset n))
  | .int => inferInstanceAs (Fixable ℤ)
  | .pair a b =>
    letI := a.fixable
    letI := b.fixable
    inferInstanceAs (Fixable (a.Den × b.Den))
  | .maybe a =>
    letI := a.fixable
    inferInstanceAs (Fixable (Option a.Den))
  | @vmap p n _ _ => inferInstanceAs (Fixable (VMap p n))

instance (s : Shape) : Fixable s.Den := s.fixable

/-- Put together from `Bool`, sets and pairs. -/
def Plain : Shape → Prop
  | .bool => True
  | @set _ _ => True
  | .int => False
  | .pair a b => a.Plain ∧ b.Plain
  | .maybe _ => False
  | @vmap _ _ _ _ => False

end Shape

/-! ### The plain shapes -/

theorem laws_bool : Laws Bool where
  isBottom_iff := by decide
  lub_self := by decide
  lub_comm := by decide
  lub_assoc := by decide
  lub_bottom := by decide
  lte_iff := by decide
  minus_lub := by decide
  minus_of_lte := by decide
  minus_bottom := by decide
  bottom_minus := by decide

theorem laws_set (n : Type) [DecidableEq n] : Laws (Finset n) := by
  have hlte : ∀ s t : Finset n, lte s t = true ↔ s ⊆ t := by
    intro s t
    show decide (s \ t = ∅) = true ↔ s ⊆ t
    rw [decide_eq_true_iff]
    exact Finset.sdiff_eq_empty_iff_subset
  exact {
    isBottom_iff := fun s => decide_eq_true_iff
    lub_self := Finset.union_self
    lub_comm := Finset.union_comm
    lub_assoc := Finset.union_assoc
    lub_bottom := Finset.union_empty
    lte_iff := fun s t => (hlte s t).trans Finset.union_eq_right.symm
    minus_lub := fun s t => Finset.sdiff_union_self_eq_union
    minus_of_lte := fun s t h => Finset.sdiff_eq_empty_iff_subset.2 ((hlte s t).1 h)
    minus_bottom := fun s => Finset.sdiff_empty
    bottom_minus := fun s => Finset.empty_sdiff s }

section Pair

variable {α β : Type} [Fixable α] [Fixable β]

theorem laws_pair (ha : Laws α) (hb : Laws β) : Laws (α × β) := by
  have hlte : ∀ x y : α × β, lte x y = true ↔ lub x.1 y.1 = y.1 ∧ lub x.2 y.2 = y.2 := by
    intro x y
    show (isBottom (minus x.1 y.1) && isBottom (minus x.2 y.2)) = true ↔ _
    rw [Bool.and_eq_true, ha.isBottom_minus, hb.isBottom_minus]
  refine ⟨fun x => ?_, fun x => Prod.ext (ha.lub_self _) (hb.lub_self _),
    fun x y => Prod.ext (ha.lub_comm _ _) (hb.lub_comm _ _),
    fun x y z => Prod.ext (ha.lub_assoc _ _ _) (hb.lub_assoc _ _ _),
    fun x => Prod.ext (ha.lub_bottom _) (hb.lub_bottom _), fun x y => ?_,
    fun x y => Prod.ext (ha.minus_lub _ _) (hb.minus_lub _ _), fun x y h => ?_,
    fun x => Prod.ext (ha.minus_bottom _) (hb.minus_bottom _),
    fun x => Prod.ext (ha.bottom_minus _) (hb.bottom_minus _)⟩
  · show (isBottom x.1 && isBottom x.2) = true ↔ _
    rw [Bool.and_eq_true, ha.isBottom_iff, hb.isBottom_iff]
    exact (Prod.ext_iff (x := x) (y := bottom)).symm
  · rw [hlte]
    exact (Prod.ext_iff (x := lub x y) (y := y)).symm
  · obtain ⟨h1, h2⟩ := (hlte x y).1 h
    exact Prod.ext (ha.minus_of_lte _ _ ((ha.lte_iff _ _).2 h1)) (hb.minus_of_lte _ _ ((hb.lte_iff _ _).2 h2))

end Pair

theorem laws_of_plain (s : Shape) (h : s.Plain) : Laws s.Den := by
  induction s with
  | bool => exact laws_bool
  | set n => exact laws_set n
  | int => exact h.elim
  | pair a b iha ihb => exact laws_pair (iha h.1) (ihb h.2)
  | maybe a => exact h.elim
  | vmap p n => exact h.elim

/-- Below a value of a plain shape there are finitely many. -/
theorem finite_below (s : Shape) (h : s.Plain) (t : s.Den) : {x : s.Den | lub x t = t}.Finite := by
  induction s with
  | bool => exact Set.toFinite (α := Bool) _
  | set n =>
    refine (Finset.finite_toSet (Finset.powerset t)).subset fun x hx => ?_
    exact Finset.mem_coe.2 (Finset.mem_powerset.2 (Finset.union_eq_right.1 hx))
  | int => exact h.elim
  | pair a b iha ihb =>
    obtain ⟨t, u⟩ := t
    refine ((iha h.1 t).prod (ihb h.2 u)).subset fun x hx => ?_
    exact ⟨congrArg Prod.fst hx, congrArg Prod.snd hx⟩
  | maybe a => exact h.elim
  | vmap p n => exact h.elim

/-! ### The other shapes -/

/-- What the laws say of every value alone, and of the order of two. -/
structure WeakLaws (α : Type) [Fixable α] : Prop where
  lub_comm : ∀ x y : α, lub x y = lub y x
  lub_bottom : ∀ x : α, lub x bottom = x
  minus_self : ∀ x : α, isBottom (minus x x) = true

theorem Laws.weak {α : Type} [Fixable α] (h : Laws α) : WeakLaws α :=
  ⟨h.lub_comm, h.lub_bottom, fun x => (h.isBottom_minus x x).2 (h.lub_self x)⟩

/-- Each of the other shapes breaks one of them. -/
theorem plain_of_weakLaws (s : Shape) (h : WeakLaws s.Den) : s.Plain := by
  induction s with
  | bool => trivial
  | set n => trivial
  | int =>
    have hneg : lub (-1 : ℤ) bottom = -1 := h.lub_bottom (-1 : ℤ)
    exact absurd hneg (by decide)
  | pair a b iha ihb =>
    have hself : ∀ (x : a.Den) (y : b.Den), isBottom (minus x x) = true ∧ isBottom (minus y y) = true := by
      intro x y
      have hand : (isBottom (minus x x) && isBottom (minus y y)) = true := h.minus_self (x, y)
      exact Bool.and_eq_true_iff.1 hand
    refine ⟨iha ⟨fun x y => ?_, fun x => ?_, fun x => (hself x bottom).1⟩,
      ihb ⟨fun x y => ?_, fun x => ?_, fun x => (hself bottom x).2⟩⟩
    · exact congrArg Prod.fst (h.lub_comm (x, bottom) (y, bottom))
    · exact congrArg Prod.fst (h.lub_bottom (x, bottom))
    · exact congrArg Prod.snd (h.lub_comm (bottom, x) (bottom, y))
    · exact congrArg Prod.snd (h.lub_bottom (bottom, x))
  | maybe a =>
    have hself := h.minus_self (some bottom : Option a.Den)
    cases hself
  | vmap p n =>
    -- each of two placeholders is above the other
    have hcomm := h.lub_comm (VMap.vmapPlaceholder default : VMap p n) (.mk [] (.inl .depthExceeded))
    have hright : lub (VMap.vmapPlaceholder default : VMap p n) (.mk [] (.inl .depthExceeded)) =
        .mk [] (.inl .depthExceeded) := by
      simp [lub, VMap.lub, VMap.vmapPlaceholder, VMap.lte]
    have hleft : lub (.mk [] (.inl .depthExceeded)) (VMap.vmapPlaceholder default : VMap p n) =
        VMap.vmapPlaceholder default := by
      simp [lub, VMap.lub, VMap.vmapPlaceholder, VMap.lte]
    have heq : (.mk [] (.inl .depthExceeded) : VMap p n) = VMap.vmapPlaceholder default := by
      rw [← hright, ← hleft]
      exact hcomm
    cases heq

theorem laws_iff (s : Shape) : Laws s.Den ↔ s.Plain :=
  ⟨fun h => plain_of_weakLaws s h.weak, laws_of_plain s⟩

end Jhc.Fixpoint

import Mathlib
import Jhc.FrontEnd.Tc.ByInst

/-!
# Entailment and simplification of contexts (src/FrontEnd/Tc/Class.hs:86-117)

`entails` looks among the superclasses of the given predicates and otherwise reduces by an
instance; `simplify` drops a predicate that the others entail.
-/

namespace Jhc.FrontEnd.Representation

open Ty

/-- The superclasses and the instances of each class, with a place for the class that shows that no class
is above itself. -/
structure ClassHierarchy where
  supersOf : Class → List Class
  instsOf : Class → List Inst
  rank : Class → ℕ
  acyclic : ∀ c, ∀ c' ∈ supersOf c, rank c' < rank c

/-- The `Eq` instance of `Type`: quantified and associated types are not equal to any type. -/
def Ty.same : Ty → Ty → Bool
  | tVar a, tVar b => a = b
  | tMetaVar a, tMetaVar b => a = b
  | tCon a, tCon b => a = b
  | tAp a' a, tAp b' b => a'.same b' && a.same b
  | tArrow a' a, tArrow b' b => a'.same b' && a.same b
  | _, _ => false

def Pred.same : Pred → Pred → Bool
  | .isIn c t, .isIn c' t' => c = c' && t.same t'
  | .isEq t1 t2, .isEq t1' t2' => t1.same t1' && t2.same t2'
  | _, _ => false

variable (K : Kinds) (h : ClassHierarchy)

/-- `bySuper` below a class of this rank. -/
def bySuperFrom (t : Ty) : ℕ → Class → List Pred
  | 0, c => [.isIn c t]
  | n + 1, c => .isIn c t :: (h.supersOf c).flatMap (bySuperFrom t n)

def bySuper : Pred → List Pred
  | .isEq t1 t2 => [.isEq t1 t2]
  | .isIn c t => bySuperFrom h t (h.rank c) c

def reducePred : Pred → Option (List Pred)
  | .isEq _ _ => none
  | .isIn c t => (h.instsOf c).findSome? (byInst K (.isIn c t))

/-- `entails`, none where the instances are nested deeper than `n`. -/
def entails : ℕ → List Pred → Pred → Option Bool
  | 0, _, _ => none
  | n + 1, ps, p =>
    if (ps.flatMap (bySuper h)).any p.same then some true
    else match reducePred K h p with
      | none => some false
      | some qs => qs.allM (entails n ps)

/-- `loop` of `simplify`. -/
def simplifyLoop (n : ℕ) : List Pred → List Pred → Option (List Pred)
  | rs, [] => some rs
  | rs, p :: ps => do
    if ← entails K h n (rs ++ ps) p then simplifyLoop n rs ps else simplifyLoop n (p :: rs) ps

def simplify (n : ℕ) (ps : List Pred) : Option (List Pred) := simplifyLoop K h n [] ps

/-! ### Types without quantifiers -/

def Ty.Mono : Ty → Prop
  | tVar _ => True
  | tMetaVar _ => True
  | tCon _ => True
  | tAp l r => l.Mono ∧ r.Mono
  | tArrow l r => l.Mono ∧ r.Mono
  | _ => False

def Pred.Mono : Pred → Prop
  | .isIn _ t => t.Mono
  | .isEq t1 t2 => t1.Mono ∧ t2.Mono

attribute [local grind =] Pred.same entails Ty.Mono

theorem Ty.same_iff {s t : Ty} : s.same t = true ↔ s = t ∧ s.Mono := by
  fun_induction Ty.same s t with
  | case1 a b => simp [Ty.Mono]
  | case2 a b => simp [Ty.Mono]
  | case3 a b => simp [Ty.Mono]
  | case4 a' a b' b ih1 ih2 =>
    rw [Bool.and_eq_true, ih1, ih2, Ty.Mono, tAp.injEq]
    constructor
    · intro heq
      obtain ⟨⟨rfl, h1⟩, rfl, h2⟩ := heq
      exact ⟨⟨rfl, rfl⟩, h1, h2⟩
    · intro heq
      obtain ⟨⟨rfl, rfl⟩, h1, h2⟩ := heq
      exact ⟨⟨rfl, h1⟩, rfl, h2⟩
  | case5 a' a b' b ih1 ih2 =>
    rw [Bool.and_eq_true, ih1, ih2, Ty.Mono, tArrow.injEq]
    constructor
    · intro heq
      obtain ⟨⟨rfl, h1⟩, rfl, h2⟩ := heq
      exact ⟨⟨rfl, rfl⟩, h1, h2⟩
    · intro heq
      obtain ⟨⟨rfl, rfl⟩, h1, h2⟩ := heq
      exact ⟨⟨rfl, h1⟩, rfl, h2⟩
  | case6 s t h1 h2 h3 h4 h5 =>
    simp only [Bool.false_eq_true, false_iff, not_and]
    intro heq
    subst heq
    cases s with
    | tVar a => exact absurd rfl (h1 a a rfl)
    | tMetaVar a => exact absurd rfl (h2 a a rfl)
    | tCon a => exact absurd rfl (h3 a a rfl)
    | tAp a b => exact absurd rfl (h4 a b a b rfl)
    | tArrow a b => exact absurd rfl (h5 a b a b rfl)
    | _ => exact not_false

theorem Pred.same_iff {p q : Pred} : p.same q = true ↔ p = q ∧ p.Mono := by
  cases p with
  | isIn c t =>
    cases q with
    | isIn c' t' => simp [Pred.same, Pred.Mono, Ty.same_iff, and_assoc]
    | isEq t1 t2 => simp [Pred.same]
  | isEq t1 t2 =>
    cases q with
    | isIn c' t' => simp [Pred.same]
    | isEq t1' t2' =>
      simp only [Pred.same, Bool.and_eq_true, Ty.same_iff, Pred.Mono, isEq.injEq]
      tauto

end Jhc.FrontEnd.Representation

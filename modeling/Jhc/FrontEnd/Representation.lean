import Mathlib

/-!
# Types and predicates (src/FrontEnd/Representation.hs, src/FrontEnd/Tc/Kind.hs)

The types with their quantifiers and kinds, and the predicates of contexts.
-/

namespace Jhc.FrontEnd.Representation

abbrev Name := String

abbrev Class := Name

inductive KBase where
  | star
  | kHash
  | kUTuple
  | kQuestQuest
  | kQuest
  | kNamed (n : Name)
  deriving DecidableEq

inductive Kind where
  | kBase (k : KBase)
  | kfun (a b : Kind)
  | kVar (kindvarUniq : ℕ)
  deriving DecidableEq

def kindStar : Kind := .kBase .star

/-- The kind of an application. -/
def Kind.result : Kind → Option Kind
  | .kfun _ k => some k
  | _ => none

structure Tycon where
  tyconName : Name
  tyconKind : Kind
  deriving DecidableEq

mutual

/-- `Type`. Type variables are compared by their names and metavariables by their numbers, so that these
stand for them. -/
inductive Ty where
  | tVar (tyvarName : Name)
  | tCon (typeCon : Tycon)
  | tAp (l r : Ty)
  | tArrow (l r : Ty)
  | tForAll (typeArgs : List Name) (ps : List Pred) (t : Ty)
  | tExists (typeArgs : List Name) (ps : List Pred) (t : Ty)
  | tMetaVar (metaUniq : ℕ)
  | tAssoc (typeCon : Tycon) (typeClassArgs typeExtraArgs : List Ty)

inductive Pred where
  | isIn (c : Class) (t : Ty)
  | isEq (t1 t2 : Ty)

end

/-- The kinds of the variables. -/
structure Kinds where
  tyvarKind : Name → Kind
  metaKind : ℕ → Kind

open Ty

/-- `tArrow` of the source, the constructor without arguments. -/
def arrowCon : Ty :=
  tCon ⟨"Jhc.Prim.Prim.->", .kfun (.kBase .kQuestQuest) (.kfun (.kBase .kQuest) kindStar)⟩

def Ty.isArrowCon : Ty → Bool
  | tCon c => c = ⟨"Jhc.Prim.Prim.->", .kfun (.kBase .kQuestQuest) (.kfun (.kBase .kQuest) kindStar)⟩
  | _ => false

/-- `tAp` of the source: type application, with no fully applied `tArrow` among what it builds. -/
def Ty.app : Ty → Ty → Ty
  | tAp c a, b => if c.isArrowCon then tArrow a b else tAp (tAp c a) b
  | a, b => tAp a b

/-- `getType`; none is its error. An associated type is applied to all of its arguments. -/
def getType (K : Kinds) : Ty → Option Kind
  | tCon tc => some tc.tyconKind
  | tVar u => some (K.tyvarKind u)
  | tAp t _ => (getType K t).bind Kind.result
  | tArrow _ _ => some kindStar
  | tForAll _ _ t => getType K t
  | tExists _ _ t => getType K t
  | tMetaVar mv => some (K.metaKind mv)
  | tAssoc tc cas eas => (cas ++ eas).foldl (fun k _ => k.bind Kind.result) (some tc.tyconKind)

/-! ### Instantiation (src/FrontEnd/Tc/Monad.hs:324-348) -/

abbrev Subst := Name → Option Ty

def Subst.delete (ts : Subst) (as : List Name) : Subst := fun v => if v ∈ as then none else ts v

mutual

def Ty.inst (ts : Subst) : Ty → Ty
  | tAp l r => (l.inst ts).app (r.inst ts)
  | tArrow l r => tArrow (l.inst ts) (r.inst ts)
  | tCon c => tCon c
  | tVar tv => (ts tv).getD (tVar tv)
  | tForAll as ps t => tForAll as (instPreds (ts.delete as) ps) (t.inst (ts.delete as))
  | tExists as ps t => tExists as (instPreds (ts.delete as) ps) (t.inst (ts.delete as))
  | tMetaVar mv => tMetaVar mv
  | tAssoc tc as bs => tAssoc tc (instTys ts as) (instTys ts bs)

def instTys (ts : Subst) : List Ty → List Ty
  | [] => []
  | t :: rest => t.inst ts :: instTys ts rest

def Pred.inst (ts : Subst) : Pred → Pred
  | .isIn c t => .isIn c (t.inst ts)
  | .isEq t1 t2 => .isEq (t1.inst ts) (t2.inst ts)

def instPreds (ts : Subst) : List Pred → List Pred
  | [] => []
  | p :: ps => p.inst ts :: instPreds ts ps

end

attribute [local grind =] Ty.app Ty.inst Pred.inst

theorem instPreds_eq_map (ts : Subst) (ps : List Pred) : instPreds ts ps = ps.map (Pred.inst ts) := by
  induction ps with
  | nil => rfl
  | cons p ps ih => rw [instPreds, ih, List.map_cons]

/-- The invariant that `tAp` keeps: the arrow constructor is not fully applied. -/
def Ty.ArrowFree : Ty → Prop
  | tAp l r => (∀ c a, l = tAp c a → c.isArrowCon = false) ∧ l.ArrowFree ∧ r.ArrowFree
  | tArrow l r => l.ArrowFree ∧ r.ArrowFree
  | _ => True

theorem app_eq_tAp {l r : Ty} (h : ∀ c a, l = tAp c a → c.isArrowCon = false) : l.app r = tAp l r := by
  cases l with
  | tAp c a => simp [Ty.app, h c a rfl]
  | _ => rfl

/-- An application that `tAp` has built as such. -/
theorem of_app_eq_tAp {l r l' r' : Ty} (h : l.app r = tAp l' r') : l = l' ∧ r = r' := by
  cases l with
  | tAp c a =>
    rw [Ty.app] at h
    split_ifs at h
    exact tAp.inj h
  | _ => exact tAp.inj h

end Jhc.FrontEnd.Representation

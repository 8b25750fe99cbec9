import Jhc.Cmm.Op
import Jhc.FrontEnd.Exports

/-!
# Expressions of E (E/Type.hs:105-250; E/FreeVars.hs:60-98; Name/Id.hs)

Types are expressions. The alias that a literal of an erased newtype carries, the info of a
variable and the set of free variables cached at a case are not represented.
-/

namespace Jhc.E
open Jhc.FrontEnd.Exports (Name)

inductive Id where
  | emptyId
  | toId (n : Name)
  | anonymous (i : ℕ)
  deriving DecidableEq

inductive ESort where
  | eStar | eBang | eHash | eTuple | eHashHash | eStarStar
  | eSortNamed (n : Name)
  deriving DecidableEq

mutual

inductive E where
  | eAp (f a : E)
  | eLam (t : TVr) (e : E)
  | ePi (t : TVr) (e : E)
  | eVar (t : TVr)
  | unknown
  | eSort (s : ESort)
  | eLitInt (n : ℤ) (t : E)
  | eLit (litName : Name) (litArgs : List E) (litType : E)
  | eLetRec (eDefs : List Def) (eBody : E)
  | ePrim (p : C.Prim) (es : List E) (t : E)
  | eError (s : String) (t : E)
  | eCase (eCaseScrutinee eCaseType : E) (eCaseBind : TVr) (eCaseAlts : List Alt) (eCaseDefault : Option E)

inductive TVr where
  | mk (tvrIdent : Id) (tvrType : E)

inductive Def where
  | mk (t : TVr) (e : E)

inductive Alt where
  | litInt (n : ℤ) (t : E) (e : E)
  | litCons (litName : Name) (litArgs : List TVr) (litType : E) (e : E)

end

namespace TVr

def tvrIdent : TVr → Id
  | .mk x _ => x

def tvrType : TVr → E
  | .mk _ t => t

end TVr

def Def.var : Def → TVr
  | .mk t _ => t

def Def.rhs : Def → E
  | .mk _ e => e

/-! ### Free variables (FreeVars.hs:60-98) -/

mutual

def freeIds : E → List Id
  | .eAp e₁ e₂ => freeIds e₁ ++ freeIds e₂
  | .eVar t => [t.tvrIdent]
  | .eLam t e => (freeIds e ++ freeIdsVar t).filter (· ≠ t.tvrIdent)
  | .ePi t e => (freeIds e ++ freeIdsVar t).filter (· ≠ t.tvrIdent)
  | .eLetRec ds e => (freeIdsDefs ds ++ freeIds e).filter (· ∉ ds.map fun d => d.var.tvrIdent)
  | .eError _ t => freeIds t
  | .eLit _ es t => freeIds t ++ freeIdsArgs es
  | .eLitInt _ t => freeIds t
  | .ePrim _ es t => freeIds t ++ freeIdsArgs es
  | .eCase e ty b as d => freeIds e ++ freeIdsVar b ++ freeIds ty ++
      (freeIdsDefault d ++ freeIdsAlts as).filter (· ≠ b.tvrIdent)
  | .unknown => []
  | .eSort _ => []

/-- The free variables of the type of a variable. -/
def freeIdsVar : TVr → List Id
  | .mk _ t => freeIds t

def freeIdsVars : List TVr → List Id
  | [] => []
  | t :: ts => freeIdsVar t ++ freeIdsVars ts

def freeIdsArgs : List E → List Id
  | [] => []
  | e :: es => freeIds e ++ freeIdsArgs es

def freeIdsDef : Def → List Id
  | .mk t e => freeIdsVar t ++ freeIds e

def freeIdsDefs : List Def → List Id
  | [] => []
  | d :: ds => freeIdsDef d ++ freeIdsDefs ds

def freeIdsAlt : Alt → List Id
  | .litInt _ t e => freeIds t ++ freeIds e
  | .litCons _ xs t e => freeIds t ++ (freeIds e).filter (· ∉ xs.map TVr.tvrIdent) ++ freeIdsVars xs

def freeIdsAlts : List Alt → List Id
  | [] => []
  | a :: as => freeIdsAlt a ++ freeIdsAlts as

def freeIdsDefault : Option E → List Id
  | none => []
  | some e => freeIds e

end

attribute [local grind =] freeIds freeIdsVar freeIdsDefs freeIdsAlt

end Jhc.E

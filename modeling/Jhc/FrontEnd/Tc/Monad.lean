import Mathlib
import Jhc.Lib.Settles

/-!
# Types of the type checker (src/FrontEnd/Representation.hs, src/FrontEnd/Tc/Type.hs)

The types without quantifiers and associated types. Kinds are left out: a kind is taken
to agree wherever `kindCombine` compares two.
-/

namespace Jhc.FrontEnd.Tc

abbrev Name := String

inductive MetaVarType where
  | tau
  | rho
  | sigma
  deriving DecidableEq

structure MetaVar where
  metaUniq : ℕ
  metaType : MetaVarType
  deriving DecidableEq

inductive Ty where
  | tVar (tyvarName : Name)
  | tCon (tyconName : Name)
  | tAp (f a : Ty)
  | tArrow (a b : Ty)
  | tMetaVar (mv : MetaVar)
  deriving DecidableEq

open Ty

def tc_Arrow : Name := "Jhc.Prim.Prim.->"

/-- `tArrow` of the source, the constructor without arguments. -/
def arrowCon : Ty := tCon tc_Arrow

/-- `tAp` of the source: there is no fully applied `tArrow` among what it builds. -/
def Ty.app : Ty → Ty → Ty
  | tAp (tCon c) a, b => if c = tc_Arrow then tArrow a b else tAp (tAp (tCon c) a) b
  | a, b => tAp a b

/-- The worker of `fromTAp`; an arrow counts as an application of its constructor. -/
def fromTApGo : Ty → List Ty → Ty × List Ty
  | tArrow a b, rs => (arrowCon, a :: b :: rs)
  | tAp a b, rs => fromTApGo a (b :: rs)
  | t, rs => (t, rs)

def fromTAp (t : Ty) : Ty × List Ty := fromTApGo t []

def isBoxyMetaVar (mv : MetaVar) : Bool := mv.metaType != .tau

def isTau : Ty → Bool
  | tMetaVar mv => mv.metaType = .tau
  | tAp a b => isTau a && isTau b
  | tArrow a b => isTau a && isTau b
  | _ => true

/-- Metavariables are compared by their number. -/
def freeMetaVars : Ty → Finset ℕ
  | tMetaVar mv => {mv.metaUniq}
  | tAp l r => freeMetaVars l ∪ freeMetaVars r
  | tArrow l r => freeMetaVars l ∪ freeMetaVars r
  | _ => ∅

attribute [local grind =] Ty.app freeMetaVars

end Jhc.FrontEnd.Tc

/-!
# Metavariables and their bindings (src/FrontEnd/Tc/Monad.hs:317-322, 472-531, 548-618; Type.hs:169-178)

The references of the metavariables are a list of bindings, newest first. `findType` also
writes the end of a chain back into the references of the chain; that is left out, as it
changes no type. The recursions take fuel.
-/

namespace Jhc.FrontEnd.Tc
open Ty

structure TcState where
  refs : List (ℕ × Ty)
  uniq : ℕ
  deriving DecidableEq

inductive TcError where
  | unificationError (t1 t2 : Ty)
  | occursCheck (t1 t2 : Ty)
  | fail (msg : String)
  | outOfFuel
  deriving DecidableEq

abbrev Tc := StateT TcState (Except TcError)

def readRef (u : ℕ) : Tc (Option Ty) := fun s => .ok (s.refs.lookup u, s)

def writeRef (u : ℕ) (t : Ty) : Tc Unit := fun s => .ok ((), { s with refs := (u, t) :: s.refs })

def newMetaVar (k : MetaVarType) : Tc MetaVar :=
  fun s => .ok ({ metaUniq := s.uniq, metaType := k }, { s with uniq := s.uniq + 1 })

def newBox : Tc MetaVar := newMetaVar .sigma

def findType : ℕ → Ty → Tc Ty
  | 0, _ => throw .outOfFuel
  | n + 1, tMetaVar mv => do
    match ← readRef mv.metaUniq with
    | none => return tMetaVar mv
    | some t => findType n t
  | _ + 1, t => return t

def evalArrowApp : Ty → Ty
  | tAp (tAp (tCon c) ta) tb => if c = tc_Arrow then tArrow ta tb else tAp (tAp (tCon c) ta) tb
  | t => t

def evalType (n : ℕ) (t : Ty) : Tc Ty := do
  return evalArrowApp (← findType n t)

/-- The common body of `evalFullType` and `unBox`: a type is evaluated all the way down, and
`leaf` says what becomes of a free metavariable. -/
def evalDown (leaf : ℕ → MetaVar → Tc Ty) : ℕ → Ty → Tc Ty
  | 0, _ => throw .outOfFuel
  | n + 1, t => do
    match ← evalType n t with
    | tAp l r => return Ty.app (← evalDown leaf n l) (← evalDown leaf n r)
    | tArrow l r => return tArrow (← evalDown leaf n l) (← evalDown leaf n r)
    | tMetaVar mv => leaf n mv
    | t => return t

def evalFullType (n : ℕ) (t : Ty) : Tc Ty :=
  evalDown (fun _ mv => return tMetaVar mv) n t

/-- What `varBind` does once the boxes of the type are filled in. -/
def bindFull (n : ℕ) (u : MetaVar) (t : Ty) : Tc Unit := do
  let tt ← evalFullType n t
  if u.metaUniq ∈ freeMetaVars tt then
    let t1 ← evalFullType n (tMetaVar u)
    let t2 ← evalFullType n tt
    throw (.occursCheck t1 t2)
  match ← readRef u.metaUniq with
  | some _ => throw (.fail "varBind: binding unfree")
  | none => writeRef u.metaUniq tt

/-- A box is bound to a new tau variable. -/
def fillBox (n : ℕ) (mv : MetaVar) : Tc Ty := do
  if isBoxyMetaVar mv then
    let tmv ← newMetaVar .tau
    bindFull n mv (tMetaVar tmv)
    return tMetaVar tmv
  else return tMetaVar mv

def unBox (n : ℕ) (t : Ty) : Tc Ty := evalDown fillBox n t

def varBind (n : ℕ) (u : MetaVar) (t : Ty) : Tc Unit := do
  bindFull n u (← unBox n t)

def zonkBox (n : ℕ) (mv : MetaVar) : Tc Ty :=
  if isBoxyMetaVar mv then findType n (tMetaVar mv) else throw (.fail "zonkBox: nonboxy")

def readFilledBox (n : ℕ) (mv : MetaVar) : Tc Ty := do
  match ← zonkBox n mv with
  | tMetaVar mv' =>
    if mv.metaUniq = mv'.metaUniq then throw (.fail "readFilledBox") else return tMetaVar mv'
  | t => return t

/-- `ks` is how many variables the structure has; their kinds are left out. -/
def withMetaVars (n : ℕ) (mv : MetaVar) (ks : ℕ) (sfunc : List Ty → Ty) (bsfunc : List Ty → Tc Unit) :
    Tc Unit := do
  if isBoxyMetaVar mv then
    let boxes ← (List.replicate ks ()).mapM fun _ => newBox
    bsfunc (boxes.map tMetaVar)
    let tys ← boxes.mapM (readFilledBox n)
    varBind n mv (sfunc tys)
  else
    let taus ← (List.replicate ks ()).mapM fun _ => newMetaVar .tau
    varBind n mv (sfunc (taus.map tMetaVar))
    bsfunc (taus.map tMetaVar)

attribute [local grind =] evalArrowApp

end Jhc.FrontEnd.Tc

/-!
# Matching and unification of types (src/FrontEnd/Tc/Unify.hs:118-333)

The clauses for types without quantifiers and associated types. `bm` and `mgu` are written
over the recursive function they call.
-/

namespace Jhc.FrontEnd.Tc
open Ty

def unificationError {α : Type} (n : ℕ) (t1 t2 : Ty) : Tc α := do
  let t1 ← evalFullType n t1
  let t2 ← evalFullType n t2
  throw (.unificationError t1 t2)

/-- The check is skipped for boxes. -/
def occursCheck (n : ℕ) (u : MetaVar) (t : Ty) : Tc Ty := do
  if u.metaType = .tau then
    let tt ← evalFullType n t
    if u.metaUniq ∈ freeMetaVars tt then unificationError n (tMetaVar u) tt
    return tt
  else return t

def var_meets_var (n : ℕ) (tv1 tv2 : MetaVar) : Tc Unit := do
  if tv1.metaUniq = tv2.metaUniq then return ()
  else if isBoxyMetaVar tv1 && isBoxyMetaVar tv2 then
    let tt ← newMetaVar .tau
    varBind n tv1 (tMetaVar tt)
    varBind n tv2 (tMetaVar tt)
  else if isBoxyMetaVar tv1 then varBind n tv1 (tMetaVar tv2)
  else varBind n tv2 (tMetaVar tv1)

def mgu (unify : Ty → Ty → Tc Unit) (n : ℕ) : Ty → Ty → Tc Unit
  | tAp l r, tAp l' r' => do unify l l'; unify r r'
  | tArrow l r, tArrow l' r' => do unify l l'; unify r r'
  | t1, t2 =>
    match t1, t2 with
    | tMetaVar u, t =>
      if !isBoxyMetaVar u then varBind n u t
      else match t with
        | tMetaVar v => if !isBoxyMetaVar v then varBind n v (tMetaVar u)
            else unificationError n (tMetaVar u) t
        | t => unificationError n (tMetaVar u) t
    | t, tMetaVar u => if !isBoxyMetaVar u then varBind n u t else unificationError n t (tMetaVar u)
    | tVar a, tVar b => if a = b then return () else unificationError n (tVar a) (tVar b)
    | tCon a, tCon b => if a = b then return () else unificationError n (tCon a) (tCon b)
    | t1, t2 => unificationError n t1 t2

def unify : ℕ → Ty → Ty → Tc Unit
  | 0, _, _ => throw .outOfFuel
  | n + 1, t1, t2 => do
    let t1' ← evalType n t1
    let t2' ← evalType n t2
    mgu (unify n) n t1' t2'

/-- The clauses MEQ1 and MEQ2; the result says whether the types are to be swapped. -/
def meq (n : ℕ) (a b : Ty) : Tc Bool := do
  match isTau a, b with
  | true, tMetaVar mv => varBind n mv a; return false
  | _, _ => if isTau a && isTau b then unify n a b; return false else return true

def matchArgs (boxyMatch : Ty → Ty → Tc Unit) (as ts : List Ty) : Tc Unit :=
  (as.zip ts).forM fun p => boxyMatch p.1 p.2

/-- The last clauses of `bm`: CEQ2, APP, MEQ1 and MEQ2. -/
def ceq2 (boxyMatch : Ty → Ty → Tc Unit) (n : ℕ) (a b : Ty) : Tc Bool := do
  match fromTAp a, fromTAp b with
  | (tCon ca, as), (tCon cb, bs) =>
    if ca = cb ∧ as.length = bs.length then
      matchArgs boxyMatch as bs
      return false
    else unificationError n a b
  | _, _ =>
    match a, b with
    | tAp a b, tAp c d => -- APP
      boxyMatch a c
      boxyMatch b d
      return false
    | a, b => meq n a b

def bm (boxyMatch : Ty → Ty → Tc Unit) (n : ℕ) : Ty → Ty → Tc Bool
  | tMetaVar v1, tMetaVar v2 => do
    var_meets_var n v1 v2
    return false
  | tArrow s1 s2, tMetaVar mv => do -- AEQ1
    let _ ← occursCheck n mv (tArrow s1 s2)
    withMetaVars n mv 2 (fun ts => match ts with | [t1, t2] => tArrow t1 t2 | _ => tArrow s1 s2)
      (matchArgs boxyMatch [s1, s2])
    return false
  | tArrow s1 s2, tArrow s3 s4 => do -- AEQ2
    boxyMatch s1 s3
    boxyMatch s2 s4
    return false
  | tArrow s1 s2, tAp (tAp arr a1) a2 => do -- AF2-arrow
    boxyMatch arrowCon arr
    boxyMatch s1 a1
    boxyMatch s2 a2
    return false
  | tArrow s1 s2, tAp a1 a2 => do -- AF1-arrow
    boxyMatch (Ty.app arrowCon s1) a1
    boxyMatch s2 a2
    return false
  | a, tMetaVar mv => do
    match fromTAp a with
    | (tCon ca, as) => -- CEQ1
      let _ ← occursCheck n mv a
      withMetaVars n mv as.length (fun ts => ts.foldl Ty.app (tCon ca)) (matchArgs boxyMatch as)
      return false
    | (_, []) => meq n a (tMetaVar mv)
    | (x, xs) =>
      let _ ← occursCheck n mv a
      withMetaVars n mv (x :: xs).length (fun ts => match ts with | t :: ts => ts.foldl Ty.app t | [] => x)
        (matchArgs boxyMatch (x :: xs))
      return false
  | a, b => ceq2 boxyMatch n a b

def boxyMatch : ℕ → Ty → Ty → Tc Unit
  | 0, _, _ => throw .outOfFuel
  | n + 1, s1, s2 => do
    let s1 ← evalType n s1
    let s2 ← evalType n s2
    if ← bm (boxyMatch n) n s1 s2 then
      if ← bm (boxyMatch n) n s2 s1 then throw (.fail "boxyMatch failure")

attribute [local grind =] mgu ceq2 bm

end Jhc.FrontEnd.Tc

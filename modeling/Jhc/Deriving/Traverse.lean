import Jhc.Deriving.Clauses

/-!
# Derived Functor, Foldable and Traversable (Deriving/Traverse.hs; Deriving/Util.hs:18-46)

What the three functions generate, with the warnings that they give on the way. The
place of a warning and its kind are left out.
-/

namespace Jhc.Deriving
open Jhc.Text (Str)

/-! ### Types (FrontEnd/HsSyn.hs:226-249) -/

mutual

inductive HsType where
  | HsTyFun (a b : HsType)
  | HsTyTuple (ts : List HsType)
  | HsTyUnboxedTuple (ts : List HsType)
  | HsTyApp (a b : HsType)
  | HsTyVar (n : Name)
  | HsTyCon (n : Name)
  | HsTyForall (vs : List Name) (context : List HsAsst) (t : HsType)
  | HsTyExists (vs : List Name) (context : List HsAsst) (t : HsType)
  | HsTyExpKind (t : HsType)
  | HsTyStrictType (strict : Bool) (t : HsType)
  | HsTyAssoc
  | HsTyEq (a b : HsType)

inductive HsAsst where
  | HsAsst (c : Name) (vs : List Name)
  | HsAsstEq (a b : HsType)

end

inductive HsBangType where
  | HsBangedTy (t : HsType)
  | HsUnBangedTy (t : HsType)

def HsBangType.hsBangType : HsBangType → HsType
  | HsBangedTy t => t
  | HsUnBangedTy t => t

/-- The name that a type is itself. -/
def HsType.own : HsType → List Name
  | HsTyVar v => [v]
  | HsTyCon v => [v]
  | _ => []

mutual

/-- `traverseHsType_ freeVars` (FrontEnd/Syn/Traverse.hs:44-75): the names of the parts. The body of a
quantified type is not visited itself, its parts are. -/
def HsType.under : HsType → List Name
  | .HsTyFun a b => (a.own ++ a.under) ++ (b.own ++ b.under)
  | .HsTyTuple ts => HsType.underAll ts
  | .HsTyUnboxedTuple ts => HsType.underAll ts
  | .HsTyApp a b => (a.own ++ a.under) ++ (b.own ++ b.under)
  | .HsTyVar _ => []
  | .HsTyCon _ => []
  | .HsTyForall _ context t => HsType.underContext context ++ t.under
  | .HsTyExists _ context t => HsType.underContext context ++ t.under
  | .HsTyExpKind t => t.own ++ t.under
  | .HsTyStrictType _ t => t.own ++ t.under
  | .HsTyAssoc => []
  | .HsTyEq a b => (a.own ++ a.under) ++ (b.own ++ b.under)

def HsType.underAll : List HsType → List Name
  | [] => []
  | t :: ts => (t.own ++ t.under) ++ HsType.underAll ts

def HsAsst.under : HsAsst → List Name
  | .HsAsst _ _ => []
  | .HsAsstEq a b => a.under ++ b.under

def HsType.underContext : List HsAsst → List Name
  | [] => []
  | a :: as => a.under ++ HsType.underContext as

end

/-- FrontEnd/Syn/Traverse.hs:15-19 -/
def freeVars (t : HsType) : List Name := t.own ++ t.under

/-! ### Declarations -/

/-- `D` (Deriving/Type.hs:6-13). -/
structure DataDecl extends Data HsBangType where
  name : Name
  vars : List Name

structure HsClassHead where
  hsClassHeadContext : List (Name × List Name)
  hsClassHead : Name
  hsClassHeadArgs : List HsType

structure Derive where
  deriveHead : HsClassHead
  standAlone : Bool

/-- A match and the functions that it binds, each with one match. -/
structure HsClause extends HsMatch where
  hsMatchDecls : List HsMatch

abbrev HsFunBind := List HsClause

structure HsInstDecl where
  hsDeclClassHead : HsClassHead
  hsDeclDecls : List HsFunBind

/-! ### Names (data/names.txt) -/

def v_fmap : Name := ⟨"Jhc.Monad".toList, "fmap".toList⟩
def v_fmap_const : Name := ⟨"Jhc.Monad".toList, "<$".toList⟩
def v_foldMap : Name := ⟨"Data.Foldable".toList, "foldMap".toList⟩
def v_fold : Name := ⟨"Data.Foldable".toList, "fold".toList⟩
def v_mempty : Name := ⟨"Data.Monoid".toList, "mempty".toList⟩
def v_mappend : Name := ⟨"Data.Monoid".toList, "mappend".toList⟩
def v_traverse : Name := ⟨"Data.Traversable".toList, "traverse".toList⟩
def v_sequenceA : Name := ⟨"Data.Traversable".toList, "sequenceA".toList⟩
def v_lstar : Name := ⟨"Control.Applicative".toList, "<*>".toList⟩
def v_pure : Name := ⟨"Control.Applicative".toList, "pure".toList⟩
def class_Functor : Name := ⟨"Jhc.Monad".toList, "Functor".toList⟩
def class_Foldable : Name := ⟨"Data.Foldable".toList, "Foldable".toList⟩
def class_Traversable : Name := ⟨"Data.Traversable".toList, "Traversable".toList⟩

/-! ### Q with warnings (FrontEnd/Syn/Q.hs:14-33) -/

/-- The next unique number and the warnings so far. -/
abbrev QW := StateM (ℕ × List Str)

def liftQ {α : Type} (q : Q α) : QW α := fun s => ((q s.1).1, ((q s.1).2, s.2))

def warn (t : Str) : QW Unit := fun s => ((), (s.1, s.2 ++ [t]))

/-- A name of the module that is compiled. -/
def newVarIn (m : Str) (s : Str) : Q Name := fun u => (⟨m, s ++ Nat.toDigits 10 u⟩, u + 1)

/-- The class that is given is not looked at; `none` is `undefined`. -/
def mkInstN (num : ℕ) (der : Derive) (m : Str) (d : DataDecl) (_cn : Option Name) (ms : List HsFunBind) :
    QW HsInstDecl :=
  if der.standAlone then return { hsDeclClassHead := der.deriveHead, hsDeclDecls := ms }
  else do
    let tvars ← liftQ ((d.vars.drop num).mapM fun _ => newVarIn m ['t'])
    return {
      hsDeclClassHead := {
        hsClassHead := der.deriveHead.hsClassHead
        hsClassHeadArgs := [(tvars.map HsType.HsTyVar).foldl .HsTyApp (.HsTyCon d.name)]
        hsClassHeadContext := tvars.map fun t => (der.deriveHead.hsClassHead, [t]) }
      hsDeclDecls := ms }

/-! ### The field of a constructor -/

/-- What `dt` of the three functions makes of a field: `param` of the last parameter, `cont` of a
container applied to it, `keep` of a type without it, `bad` of any other. -/
structure FieldCases (α : Type) where
  param : HsExp → α
  cont : HsExp → α
  keep : HsExp → α
  bad : HsExp → α
  text : Str

def dtRest {α : Type} (c : FieldCases α) (fv : Name) (e : HsExp) (t : HsType) : QW α :=
  if fv ∉ freeVars t then return c.keep e
  else do
    warn c.text
    return c.bad e

def dt {α : Type} (c : FieldCases α) (fv : Name) : HsExp × HsType → QW α
  | (e, .HsTyVar t) => if t = fv then return c.param e else dtRest c fv e (.HsTyVar t)
  | (e, .HsTyApp x (.HsTyVar t)) =>
    if t = fv ∧ fv ∉ freeVars x then return c.cont e else dtRest c fv e (.HsTyApp x (.HsTyVar t))
  | (e, t) => dtRest c fv e t

def dtFields {α : Type} (c : FieldCases α) (fv : Name) (b : Body HsBangType) (es : List HsExp) : QW (List α) :=
  (es.zip (b.types.map HsBangType.hsBangType)).mapM (dt c fv)

/-! ### deriveFunctor (Traverse.hs:17-50) -/

def functorCases (func : Name) (fe : HsExp) : FieldCases HsExp where
  param e := if func = v_fmap then .HsApp fe e else fe
  cont e := app2 (.HsVar func) fe e
  keep e := e
  bad e := e
  text := "Cannot Derive Functor class for type".toList

def functorMatch (func fv : Name) (b : Body HsBangType) : QW HsClause := do
  let f ← liftQ (newVarN ['f'])
  let p ← liftQ (mkPat b)
  let as ← dtFields (functorCases func (.HsVar f)) fv b p.2
  return {
    hsMatchName := func
    hsMatchPats := [.HsPVar f, p.1]
    hsMatchRhs :=
      if b.types.isEmpty then .HsCon b.constructor else as.foldl .HsApp (.HsCon b.constructor)
    hsMatchDecls := [] }

def deriveFunctor (der : Derive) (mod : Str) (d : DataDecl) : QW HsInstDecl :=
  match d.vars.reverse, d.body with
  | [], _ => do
    warn "Attempt to derive Functor for type without parameters".toList
    mkInstN 1 der mod d none []
  | _ :: _, [] => do
    let x ← liftQ (newVarN ['x'])
    let f := fun name => {
      hsMatchName := name
      hsMatchPats := [.HsPWildCard, .HsPVar x]
      hsMatchRhs := .HsVar x
      hsMatchDecls := [] }
    mkInstN 1 der mod d class_Functor [[f v_fmap], [f v_fmap_const]]
  | fv :: _, body => do
    let bs ← body.mapM (functorMatch v_fmap fv)
    let bsc ← body.mapM (functorMatch v_fmap_const fv)
    mkInstN 1 der mod d class_Functor [bs, bsc]

/-! ### deriveFoldable (Traverse.hs:52-89) -/

def foldableCases (func : Name) (fe : HsExp) : FieldCases (List HsExp) where
  param e := if func = v_foldMap then [.HsApp fe e] else [e]
  cont e := if func = v_foldMap then [app2 (.HsVar func) fe e] else [.HsApp (.HsVar func) e]
  keep _ := []
  bad e := [e]
  text := "Cannot Derive Foldable class for type".toList

def foldableMatch (func fv : Name) (b : Body HsBangType) : QW HsClause := do
  let f ← liftQ (newVarN ['f'])
  let p ← liftQ (mkPat b)
  let as ← dtFields (foldableCases func (.HsVar f)) fv b p.2
  return {
    hsMatchName := func
    hsMatchPats := if func = v_foldMap then [.HsPVar f, p.1] else [p.1]
    hsMatchRhs := (foldr1 (app2 (.HsVar v_mappend)) as.flatten).getD (.HsVar v_mempty)
    hsMatchDecls := [] }

/-- The one clause for a type without constructors, in both functions that have it. -/
def emptyFun : HsFunBind :=
  [{ hsMatchName := v_foldMap
     hsMatchPats := [.HsPWildCard, .HsPWildCard]
     hsMatchRhs := .HsVar v_mempty
     hsMatchDecls := [] }]

def deriveFoldable (der : Derive) (mod : Str) (d : DataDecl) : QW HsInstDecl :=
  match d.vars.reverse, d.body with
  | [], _ => do
    warn "Attempt to derive Foldable for type without parameters".toList
    mkInstN 1 der mod d none []
  | _ :: _, [] => mkInstN 1 der mod d class_Functor [emptyFun]
  | fv :: _, body => do
    let bs ← body.mapM (foldableMatch v_foldMap fv)
    let bsc ← body.mapM (foldableMatch v_fold fv)
    mkInstN 1 der mod d class_Functor [bs, bsc]

/-! ### deriveTraversable (Traverse.hs:91-153) -/

/-- `inr` is an effect, `inl` a field that is put back. -/
def traversableCases (func : Name) (fe : HsExp) : FieldCases (HsExp ⊕ HsExp) where
  param e := .inr (if func = v_traverse then .HsApp fe e else e)
  cont e := .inr (if func = v_traverse then app2 (.HsVar func) fe e else .HsApp (.HsVar func) e)
  keep e := .inl e
  bad e := .inl e
  text := "Cannot Derive Traversable class for type".toList

/-- The fields in front of the first effect, and the rest. -/
def pullLeft : List (HsExp ⊕ HsExp) → List HsExp → List HsExp × List (HsExp ⊕ HsExp)
  | .inl x :: xs, rs => pullLeft xs (x :: rs)
  | xs, rs => (rs.reverse, xs)

def rights {α β : Type} (xs : List (α ⊕ β)) : List β := xs.filterMap Sum.getRight?

/-- `fmap bv x <*> y <*> ..`, where `xs` starts with an effect. -/
def appxs (bv : HsExp) (xs : List (HsExp ⊕ HsExp)) : HsExp :=
  match xs with
  | .inr x :: xs => (rights xs).foldl (app2 (.HsVar v_lstar)) (app2 (.HsVar v_fmap) bv x)
  | _ => .HsVar v_lstar

/-- The local function that takes the results of the effects. -/
def gMatch (g : Name) (bval : HsExp) (vs : List Name) (xs : List (HsExp ⊕ HsExp)) : HsMatch where
  hsMatchName := g
  hsMatchPats := (vs.zip xs).filterMap fun x => x.2.getRight?.map fun _ => .HsPVar x.1
  hsMatchRhs := (List.zipWith (fun n x => x.elim id fun _ => .HsVar n) vs xs).foldl .HsApp bval

/-- The three ways to put the fields `as` together. -/
def traversableRhs (func : Name) (pats : List HsPat) (c : Name) (as : List (HsExp ⊕ HsExp)) : QW HsClause :=
  let (rs, xs) := pullLeft as []
  let bval := rs.foldl .HsApp (.HsCon c)
  let scont := fun rhs => pure {
    hsMatchName := func
    hsMatchPats := pats
    hsMatchRhs := rhs
    hsMatchDecls := [] }
  if xs.isEmpty then scont (.HsApp (.HsVar v_pure) bval)
  else if xs.all Sum.isRight then scont (appxs bval xs)
  else do
    let g ← liftQ (newVarN ['g'])
    let vs ← liftQ (xs.mapM fun _ => newVarN ['v'])
    return {
      hsMatchName := func
      hsMatchPats := pats
      hsMatchRhs := appxs (.HsVar g) xs
      hsMatchDecls := [gMatch g bval vs xs] }

def traversableMatch (func fv : Name) (b : Body HsBangType) : QW HsClause := do
  let f ← liftQ (newVarN ['f'])
  let p ← liftQ (mkPat b)
  let as ← dtFields (traversableCases func (.HsVar f)) fv b p.2
  traversableRhs func (if func = v_traverse then [.HsPVar f, p.1] else [p.1]) b.constructor as

def deriveTraversable (der : Derive) (mod : Str) (d : DataDecl) : QW HsInstDecl :=
  match d.vars.reverse, d.body with
  | [], _ => do
    warn "Attempt to derive Traversable for type without parameters".toList
    mkInstN 1 der mod d none []
  | _ :: _, [] => mkInstN 1 der mod d class_Functor [emptyFun]
  | fv :: _, body => do
    let bs ← body.mapM (traversableMatch v_traverse fv)
    let bsc ← body.mapM (traversableMatch v_sequenceA fv)
    mkInstN 1 der mod d class_Functor [bs, bsc]

end Jhc.Deriving

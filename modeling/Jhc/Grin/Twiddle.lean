import Jhc.Grin.Syntax

/-!
# Garbage collection roots (Grin/Devolve.hs:67-172)

`twiddleGrin` gives the name `v0` to bound variables that are not used and, for the
collector of the run-time system (`jgc`), puts a `GcRoots` with the heap variables that
are used later around the operations that `isAllocing` knows to allocate.
-/

namespace Jhc.Grin

/-! ### isUsing, isAllocing, isNode (Devolve.hs:114-141) -/

def Exp.isUsing : Exp → Bool
  | .baseOp (.storeNode _) _ => true
  | .alloc _ _ _ => true
  | _ => false

mutual

def Exp.isAllocing : Exp → Bool
  | .baseOp (.storeNode _) _ => true
  | .baseOp .eval _ => true
  | .ret [.var _ _] => false
  | .ret [.nodeC _ _] => true
  | .app _ _ _ => true
  | .call _ _ _ _ => true
  | .lett _ _ _ => true
  | .case _ as => Lam.isAllocingAny as
  | .alloc _ _ _ => true
  | .bind e l => e.isAllocing || l.isAllocing
  | _ => false

def Lam.isAllocing : Lam → Bool
  | .mk _ e => e.isAllocing

def Lam.isAllocingAny : List Lam → Bool
  | [] => false
  | l :: ls => l.isAllocing || Lam.isAllocingAny ls

end

def Ty.isNode : Ty → Bool
  | .tyNode => true
  | .tyINode => true
  | .tyPtr .tyNode => true
  | .tyPtr .tyINode => true
  | _ => false

/-- A variable that holds a pointer into the heap. -/
def isHeap (x : Var × Ty) : Bool := x.2.isNode && decide (v0 < x.1)

/-! ### twiddleVal, twiddle (Devolve.hs:70-110, 143-172) -/

/-- `envRoots` holds variables only. -/
structure Env where
  envMap : List (Var × Var)
  envRoots : VarSet

mutual

/-- The second result is what the writer collects: the variables that are used. -/
def twiddleVal (em : List (Var × Var)) : Val → Val × Finset Var
  | .var v ty =>
    match em.lookup v with
    | some n => (.var n ty, {n})
    | none => (.var v ty, {v})
  | .nodeC t vs => ((twiddleVals em vs).map (.nodeC t) id)
  | .index a b => (.index (twiddleVal em a).1 (twiddleVal em b).1, (twiddleVal em a).2 ∪ (twiddleVal em b).2)
  | .const v => (twiddleVal em v).map .const id
  | .valPrim p vs ty => (twiddleVals em vs).map (fun vs => .valPrim p vs ty) id
  | x => (x, ∅)

def twiddleVals (em : List (Var × Var)) : List Val → List Val × Finset Var
  | [] => ([], ∅)
  | v :: vs => ((twiddleVal em v).1 :: (twiddleVals em vs).1, (twiddleVal em v).2 ∪ (twiddleVals em vs).2)

end

/-- `mapExpVal twiddleVal` -/
def mapExpVal (em : List (Var × Var)) : Exp → Exp × Finset Var
  | .app a vs t => (twiddleVals em vs).map (fun vs => .app a vs t) id
  | .baseOp a vs => (twiddleVals em vs).map (.baseOp a) id
  | .ret vs => (twiddleVals em vs).map .ret id
  | .prim p vs t => (twiddleVals em vs).map (fun vs => .prim p vs t) id
  | .alloc v c r => (.alloc (twiddleVal em v).1 (twiddleVal em c).1 r, (twiddleVal em v).2 ∪ (twiddleVal em c).2)
  | .case v as => (twiddleVal em v).map (fun v => .case v as) id
  | e => (e, ∅)

/-- The roots for `xs` that are not roots already. -/
def newRoots (env : Env) (xs : VarSet) : VarSet := VarSet.diff (xs.filter isHeap) env.envRoots

def Env.root (env : Env) (xs : VarSet) : Env := { env with envRoots := VarSet.union env.envRoots xs }

def gcRoots (xs : VarSet) (e : Exp) : Exp :=
  match xs with
  | [] => e
  | _ => .gcRoots (xs.map fun x => .var x.1 x.2) e

/-- The variables whose names a list of patterns binds. -/
def boundVars (vs : List Val) : List Var := (Val.freeVarsOf vs).map Prod.fst

/-- The instance for `Lam`, given its body as the instance for `Exp` leaves it. -/
def twiddleBind (vs : List Val) (y : Exp × Finset Var) : Lam × Finset Var :=
  let fvp := ((boundVars vs).filter fun v => v ∉ y.2).map fun v => (v, v0)
  (.mk (twiddleVals fvp vs).1 y.1, y.2.filter fun v => v ∉ boundVars vs)

mutual

def twiddleExp (jgc : Bool) (env : Env) : Exp → Exp × Finset Var
  | .bind x lam =>
    if jgc && x.isAllocing then
      let nroots := newRoots env (if x.isUsing then (Exp.bind x lam).freeVars else lam.freeVars)
      let x' := twiddleExp jgc (env.root nroots) x
      let lam' := twiddleLam jgc (env.root nroots) lam
      (gcRoots nroots (.bind x'.1 lam'.1), x'.2 ∪ lam'.2)
    else
      let x' := twiddleExp jgc env x
      let lam' := twiddleLam jgc env lam
      (.bind x'.1 lam'.1, x'.2 ∪ lam'.2)
  | .lett ds b p =>
    let ds' := twiddleDefs jgc env ds
    let b' := twiddleExp jgc env b
    (updateLetProps (.lett ds'.1 b'.1 p), ds'.2 ∪ b'.2)
  | .case v as =>
    let v' := twiddleVal env.envMap v
    let as' := twiddleAlts jgc env as
    (.case v'.1 as'.1, v'.2 ∪ as'.2)
  | .newRegion (.mk vs y) =>
    let y' := twiddleExp jgc env y
    (.newRegion (.mk vs y'.1), y'.2)
  | .mkCont (.mk vs y) (.mk ws z) =>
    let y' := twiddleExp jgc env y
    let z' := twiddleExp jgc env z
    (.mkCont (.mk vs y'.1) (.mk ws z'.1), y'.2 ∪ z'.2)
  | .gcRoots vs y =>
    let y' := twiddleExp jgc env y
    (.gcRoots vs y'.1, y'.2)
  | x =>
    let x' := mapExpVal env.envMap x
    if jgc && x.isUsing && x.isAllocing then (gcRoots (newRoots env x.freeVars) x'.1, x'.2)
    else x'

def twiddleLam (jgc : Bool) (env : Env) : Lam → Lam × Finset Var
  | .mk vs y => twiddleBind vs (twiddleExp jgc env y)

def twiddleAlts (jgc : Bool) (env : Env) : List Lam → List Lam × Finset Var
  | [] => ([], ∅)
  | l :: ls => ((twiddleLam jgc env l).1 :: (twiddleAlts jgc env ls).1,
      (twiddleLam jgc env l).2 ∪ (twiddleAlts jgc env ls).2)

def twiddleDefs (jgc : Bool) (env : Env) : List FuncDef → List FuncDef × Finset Var
  | [] => ([], ∅)
  | .mk n l p :: ds => ((FuncDef.mk n (twiddleLam jgc env l).1 p).updateFuncDefProps :: (twiddleDefs jgc env ds).1,
      (twiddleLam jgc env l).2 ∪ (twiddleDefs jgc env ds).2)

end

/-- The functions of a program after the pass. -/
def twiddleGrin (jgc : Bool) (grinFunctions : List FuncDef) : List FuncDef :=
  (twiddleDefs jgc ⟨[], []⟩ grinFunctions).1

attribute [local grind =] twiddleExp twiddleLam twiddleAlts twiddleDefs twiddleVal twiddleVals mapExpVal Exp.isAllocing Exp.isUsing

end Jhc.Grin

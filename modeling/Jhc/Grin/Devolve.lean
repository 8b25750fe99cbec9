import Jhc.Grin.Syntax

/-!
# Lifting local functions (Grin/Devolve.hs:28-65)

`devolveGrin` makes a top-level function of every local function that is called in a
non-tail position. The lifted function gets its free variables as extra parameters,
and its calls pass them. The type environment of the program is not modelled.
-/

namespace Jhc.Grin

/-! ### The extra parameters of each function: pmap, iterZ -/

abbrev PMap := List (Atom × VarSet)

namespace PMap

def insert (name : Atom) (xs : VarSet) : PMap → PMap
  | [] => [(name, xs)]
  | p :: ps => if p.1 = name then (name, xs) :: ps else p :: insert name xs ps

/-- `maybe Set.empty id (Map.lookup name pmap)` -/
def get (pmap : PMap) (name : Atom) : VarSet := (pmap.lookup name).getD []

end PMap

/-- The set that `iterZ` computes for one function: `xs` of its first equation. -/
def iterSet (pmap : PMap) (fd : FuncDef) : VarSet :=
  VarSet.unions (PMap.get pmap fd.name ::
    ((pmap.map Prod.fst).filter fun t => t ∈ fd.props.funcTags).map (PMap.get pmap))

/-- One pass of `iterZ` over a list of functions. -/
def iterPass : Bool → PMap → List FuncDef → Bool × PMap
  | b, pmap, [] => (b, pmap)
  | b, pmap, fd :: fs =>
    let xs := iterSet pmap fd
    iterPass (b || !VarSet.same (PMap.get pmap fd.name) xs) (PMap.insert fd.name xs pmap) fs

/-- `iterZ` after its first pass, with at most `fuel` more passes. -/
def iterZ (defs : List FuncDef) : ℕ → Bool × PMap → Option PMap
  | _, (false, pmap) => some pmap
  | 0, (true, _) => none
  | fuel + 1, (true, pmap) => iterZ defs fuel (iterPass false pmap defs)

/-- The free variables that a local function gets as parameters. -/
def paramVars (l : Lam) : VarSet := l.freeVars.filter fun x => v0 < x.1

/-- Enough passes: each but the last puts a variable into the set of a function. -/
def iterFuel (defs : List FuncDef) (pmap : PMap) : ℕ :=
  defs.length * (VarSet.unions (pmap.map Prod.snd)).length + 1

def makePMap (defs nndefs : List FuncDef) : Option PMap :=
  let pmap := nndefs.foldl (fun pmap fd => PMap.insert fd.name (paramVars fd.body) pmap) []
  iterZ defs (iterFuel defs pmap) (iterPass false pmap nndefs)

/-! ### proc, devolveGrin (Devolve.hs:35-65) -/

def VarSet.toVals (xs : VarSet) : List Val := xs.map fun x => .var x.1 x.2

def proc (pmap : PMap) : Exp → Exp
  | .app a as t =>
    match pmap.lookup a with
    | some xs => .app a (as ++ xs.toVals) t
    | none => .app a as t
  | e => e.withBlocks (e.blocks.attach.map fun b => proc pmap b.1.2)
termination_by e => sizeOf e
decreasing_by exact Exp.sizeOf_block b.2

/-- Lifted functions, in the order in which `devolveGrin` collects them. -/
abbrev Col := List (Atom × Lam)

/-- `mapM` of a function that lifts functions. -/
def mapCol (fn : Exp → Option (Exp × Col)) : List Exp → Option (List Exp × Col)
  | [] => some ([], [])
  | e :: es => do
    let (e', col) ← fn e
    let (es', col') ← mapCol fn es
    some (e' :: es', col ++ col')

/-- `f` of `devolveGrin`; each call spends one unit of fuel. -/
def devolve : ℕ → Exp → Option (Exp × Col)
  | 0, _ => none
  | n + 1, .lett defs body props => do
    let props' ← props
    let nndefs := defs.filter fun fd => fd.name ∈ props'.nonNormal
    let pmap ← makePMap defs nndefs
    let (rs, col) ← mapCol (devolve n) (nndefs.map fun fd => proc pmap fd.body.exp)
    let nmaps := List.zipWith
      (fun fd r => (fd.name, Lam.mk (fd.body.bind ++ (PMap.get pmap fd.name).toVals) r)) nndefs rs
    let rmaps := (defs.filter fun fd => fd.name ∉ props'.nonNormal).map fun fd =>
      .mk fd.name (.mk fd.body.bind (proc pmap fd.body.exp)) fd.props
    let lt := Exp.lett rmaps (proc pmap body) props
    let (cs, col') ← mapCol (devolve n) (lt.blocks.map Prod.snd)
    some (updateLetProps (lt.withBlocks cs), col ++ nmaps ++ col')
  | n + 1, e => do
    let (cs, col) ← mapCol (devolve n) (e.blocks.map Prod.snd)
    some (e.withBlocks cs, col)

def devolveFuncs : List (Atom × Lam) → Option (List (Atom × Lam) × Col)
  | [] => some ([], [])
  | (n, l) :: fs => do
    let (r, col) ← devolve l.exp.size l.exp
    let (fs', col') ← devolveFuncs fs
    some ((n, .mk l.bind r) :: fs', col ++ col')

/-- The functions of the program after the pass: the lifted ones and the others. -/
def devolveGrin (grinFuncs : List (Atom × Lam)) : Option (List (Atom × Lam)) := do
  let (nf, lf) ← devolveFuncs grinFuncs
  some (lf ++ nf)

end Jhc.Grin

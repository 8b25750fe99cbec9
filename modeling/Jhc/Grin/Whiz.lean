import Jhc.Grin.EvalInline

/-!
# The traversal of Grin code (Grin/Whiz.hs; Grin/Noodle.hs:60-90; Grin/Grin.hs:442-480)

`whiz` and `fizz` re-associate binds to the right and rename the variables that are bound.
They differ in when the callbacks run, and `fizz` drops what follows an `Error`.
-/

namespace Jhc.Grin

/-! ### getType (Grin.hs:442-480) -/

/-- A type that the source has an error for is unknown. -/
def Val.typeOf (v : Val) : Ty := v.getType.getD .tyUnknown

def BaseOp.getType : BaseOp → List Val → List Ty
  | .overwrite, _ => []
  | .gcTouch, _ => []
  | .coerce t, _ => [t]
  | .redirect, _ => []
  | .promote, _ => [.tyNode]
  | .demote, _ => [.tyINode]
  | .eval, _ => [.tyNode]
  | .storeNode b, _ => if b then [.tyNode] else [.tyINode]
  | .newRegister, xs => xs.map fun x => .tyRegister x.typeOf
  | .writeRegister, _ => []
  | .readRegister, [r] =>
    match r.typeOf with
    | .tyRegister t => [t]
    | _ => [.tyUnknown]
  | .apply ty, _ => ty
  | .peekVal, [v] =>
    match v.typeOf with
    | .tyPtr t => [t]
    | _ => [.tyUnknown]
  | _, _ => [.tyUnknown]

mutual

def Exp.getType : Exp → List Ty
  | .bind _ l => l.getType
  | .prim _ _ ty => ty
  | .app _ _ ty => ty
  | .baseOp op vs => op.getType vs
  | .ret vs => vs.map Val.typeOf
  | .error _ ty => ty
  | .case _ [] => [.tyUnknown]
  | .case _ (l :: _) => l.getType
  | .newRegion l => l.getType
  | .alloc v _ _ => [.tyPtr v.typeOf]
  | .lett _ b _ => b.getType
  | .mkCont _ l => l.getType
  | .call _ _ ty _ => ty
  | .mkClosure _ _ _ ty => ty
  | .gcRoots _ b => b.getType

def Lam.getType : Lam → List Ty
  | .mk _ e => e.getType

end

namespace Whiz

inductive Order where
  | whiz | fizz

/-! ### Names (Whiz.hs:19-24, 196-209) -/

inductive WhizState where
  | left (s : Finset Var)
  | right (n : Var)

def whizState : WhizState := .left ∅

/-- The first of `n`, `n + size s`, … that is not in the set. -/
def newVarName.v (s : Finset ℤ) (n : ℤ) : ℤ :=
  if n ∈ s then newVarName.v s (n + s.card) else n
termination_by (s.filter (n ≤ ·)).card
decreasing_by
  rename_i hn
  have hpos : 0 < s.card := Finset.card_pos.2 ⟨n, hn⟩
  refine Finset.card_lt_card ⟨fun x hx => ?_, fun hsub => ?_⟩
  · rw [Finset.mem_filter] at hx ⊢
    exact ⟨hx.1, by omega⟩
  · have hmem := hsub (Finset.mem_filter.2 ⟨hn, le_refl n⟩)
    rw [Finset.mem_filter] at hmem
    omega

def newVarName (sv : Var) : WhizState → Var × WhizState
  | .left s =>
    let nv := newVarName.v s sv
    (nv, .left (insert nv s))
  | .right n => (n, .right (n + 1))

abbrev WhizEnv := Var → Option Val

/-- `mappend`, where the first map has precedence. -/
def WhizEnv.append (env env' : WhizEnv) : WhizEnv := fun x => (env x).or (env' x)

mutual

/-- The pattern with new names, and what `tell` has collected: the old name of each variable
and the new variable. -/
def renameVal : Val → WhizState → (Val × List (Var × Val)) × WhizState
  | .var v t, s =>
    let (v', s) := newVarName v s
    ((.var v' t, [(v, .var v' t)]), s)
  | .nodeC t vs, s =>
    let ((vs', ns), s) := renameVals vs s
    ((.nodeC t vs', ns), s)
  | .index a b, s =>
    let ((a', ns), s) := renameVal a s
    let ((b', ns'), s) := renameVal b s
    ((.index a' b', ns ++ ns'), s)
  | x, s => ((x, []), s)

def renameVals : List Val → WhizState → (List Val × List (Var × Val)) × WhizState
  | [], s => (([], []), s)
  | p :: ps, s =>
    let ((p', ns), s) := renameVal p s
    let ((ps', ns'), s) := renameVals ps s
    ((p' :: ps', ns ++ ns'), s)

end

def renamePattern (x : List Val) (s : WhizState) : (List Val × WhizEnv) × WhizState :=
  let ((x', ns), s) := renameVals x s
  ((x', fun v => ns.lookup v), s)

/-! ### Substitution (Whiz.hs:183-190, Noodle.hs:60-83) -/

mutual

def applySubst (env : WhizEnv) : Val → Val
  | .var v t => (env v).getD (.var v t)
  | .nodeC t vs => .nodeC t (applySubsts env vs)
  | .index a b => .index (applySubst env a) (applySubst env b)
  | .const v => .const (applySubst env v)
  | .valPrim p vs ty => .valPrim p (applySubsts env vs) ty
  | .lit n ty => .lit n ty
  | .unit => .unit
  | .item a ty => .item a ty
  | .valUnknown ty => .valUnknown ty

def applySubsts (env : WhizEnv) : List Val → List Val
  | [] => []
  | v :: vs => applySubst env v :: applySubsts env vs

end

/-- `mapExpVal (applySubst env)`, which leaves calls, closures, regions and continuations as
they are, and the region of an allocation. -/
def applySubstE (env : WhizEnv) : Exp → Exp
  | .app a vs t => .app a (applySubsts env vs) t
  | .baseOp a vs => .baseOp a (applySubsts env vs)
  | .ret vs => .ret (applySubsts env vs)
  | .prim x vs t => .prim x (applySubsts env vs) t
  | .alloc v c r => .alloc (applySubst env v) (applySubst env c) r
  | .case v as => .case (applySubst env v) as
  | e => e

/-! ### whiz and fizz (Whiz.hs:46-181) -/

/-- The rests of the blocks around a statement: the variables, what is bound and the body. -/
abbrev Stack := List (WhizEnv × List Val × Exp)

def Stack.size (xs : Stack) : ℕ := (xs.map fun x => x.2.2.size).sum

/-- The operands of a `Return` that is assigned to as many patterns, at least two. -/
def tupleOf (p : List Val) : Exp → Option (List Val)
  | .ret xs => if 2 ≤ xs.length ∧ xs.length = p.length then some xs else none
  | _ => none

/-- The helper `h` of the assignments of a tuple. -/
def binds (z : Exp) : List (Option (List Val × Exp)) → Exp
  | [] => z
  | some (p, v) :: rs => .bind v (.mk p (binds z rs))
  | none :: rs => binds z rs

def lamSizes (ls : List Lam) : ℕ := (ls.map fun l => l.exp.size).sum

def defSizes (ds : List FuncDef) : ℕ := (ds.map fun d => d.body.exp.size).sum

attribute [local grind =] applySubstE

theorem size_pos (e : Exp) : 0 < e.size := by
  rw [Exp.size_eq]
  omega

theorem size_bind (e : Exp) (l : Lam) : (Exp.bind e l).size = e.size + l.exp.size + 1 := by
  rw [Exp.size_eq]
  simp [Exp.blocks]

theorem size_case (v : Val) (as : List Lam) : (Exp.case v as).size = lamSizes as + 1 := by
  rw [Exp.size_eq]
  simp [Exp.blocks, lamSizes, Function.comp_def]

theorem size_lett (ds : List FuncDef) (b : Exp) (p : Option LetProps) :
    (Exp.lett ds b p).size = b.size + defSizes ds + 1 := by
  rw [Exp.size_eq]
  simp [Exp.blocks, defSizes, Function.comp_def]

theorem size_gcRoots (vs : List Val) (b : Exp) : (Exp.gcRoots vs b).size = b.size + 1 := by
  rw [Exp.size_eq]
  simp [Exp.blocks]

theorem size_error (msg : String) (ty : List Ty) : (Exp.error msg ty).size = 1 := by
  rw [Exp.size_eq]
  simp [Exp.blocks]

theorem lamSizes_cons (l : Lam) (ls : List Lam) : lamSizes (l :: ls) = l.exp.size + lamSizes ls := by
  simp [lamSizes]

theorem defSizes_cons (d : FuncDef) (ds : List FuncDef) : defSizes (d :: ds) = d.body.exp.size + defSizes ds := by
  simp [defSizes]

theorem stack_size_cons (x : WhizEnv × List Val × Exp) (xs : Stack) :
    Stack.size (x :: xs) = x.2.2.size + Stack.size xs := by
  simp [Stack.size]

theorem stack_size_nil : Stack.size [] = 0 := rfl

section Traversal

variable {m : Type → Type} [Monad m] (o : Order) (sub : ∀ {α : Type}, List Val → m α → m α)
  (te : List Val × Exp → m (Option (List Val × Exp))) (tf : Exp → m Exp)

mutual

def f (env : WhizEnv) (a : Exp) (xs : Stack) : StateT WhizState m Exp :=
  match a, xs with
  | .bind a l, xs => f env a ((env, l.bind, l.exp) :: xs)
  | a, [] => do
    let x ← g env a
    tf x
  | a, (senv, p, b) :: rs =>
    match o, a with
    | .fizz, .error msg _ => f env (.error msg b.getType) rs
    | o, a =>
      match tupleOf p a with
      | some xs => do
        let xs := applySubsts env xs
        let (ys, env') ← modifyGet (renamePattern p)
        let ts := List.zipWith (fun x y => ([y], Exp.ret [x])) xs ys
        match o with
        | .whiz => do
          let ts ← (ts.mapM te : m (List (Option (List Val × Exp))))
          let z ← f (env'.append senv) b rs
          return binds z ts
        | .fizz => do
          let z ← f (env'.append senv) b rs
          let ts ← (ts.reverse.mapM te : m (List (Option (List Val × Exp))))
          return binds z ts.reverse
      | none => do
        let a ← g env a
        let (p, env') ← modifyGet (renamePattern p)
        let (x, z) ← match o with
          | .whiz => do
            let x ← te (p, a)
            let z ← f (env'.append senv) b rs
            pure (x, z)
          | .fizz => do
            let z ← f (env'.append senv) b rs
            let x ← te (p, a)
            pure (x, z)
        return match x with
          | some (p', a') => .bind a' (.mk p' z)
          | none => z
termination_by (a.size + xs.size, 1)
decreasing_by
  all_goals
    simp only [Prod.lex_def, size_bind, size_error, stack_size_cons, stack_size_nil]
    grind [size_pos]

def g (env : WhizEnv) (x : Exp) : StateT WhizState m Exp :=
  match x with
  | .case v as => do
    let as ← dcs env as
    return .case (applySubst env v) as
  | .gcRoots vs body => do
    let body ← f env body []
    return .gcRoots (applySubsts env vs) body
  | .lett defs body props => do
    let body ← f env body []
    let defs ← dcDefs env defs
    return updateLetProps (.lett defs body props)
  | x => pure (applySubstE env x)
termination_by (x.size, 0)
decreasing_by
  all_goals
    simp only [Prod.lex_def, size_case, size_lett, size_gcRoots, stack_size_nil]
    grind [size_pos]

def dc (env : WhizEnv) (l : Lam) : StateT WhizState m Lam := do
  let (p, env') ← modifyGet (renamePattern l.bind)
  let s ← get
  let (z, s) ← sub p ((f (env'.append env) l.exp []).run s)
  set s
  return .mk p z
termination_by (l.exp.size, 2)
decreasing_by
  all_goals
    simp only [Prod.lex_def, stack_size_nil]
    grind [size_pos]

def dcs (env : WhizEnv) (ls : List Lam) : StateT WhizState m (List Lam) :=
  match ls with
  | [] => pure []
  | l :: ls => do
    let l ← dc env l
    let ls ← dcs env ls
    return l :: ls
termination_by (lamSizes ls, 3)
decreasing_by
  all_goals
    simp only [Prod.lex_def, lamSizes_cons]
    grind [size_pos]

def dcDefs (env : WhizEnv) (ds : List FuncDef) : StateT WhizState m (List FuncDef) :=
  match ds with
  | [] => pure []
  | d :: ds => do
    let b ← dc env d.body
    let ds ← dcDefs env ds
    return createFuncDef d.name b :: ds
termination_by (defSizes ds, 3)
decreasing_by
  all_goals
    simp only [Prod.lex_def, defSizes_cons]
    grind [size_pos]

end

variable (inState : WhizState) (start : Lam)

def whiz : m (Lam × WhizState) := (dc (m := m) .whiz sub te tf (fun _ => none) start).run inState

def fizz : m (Lam × WhizState) := (dc (m := m) .fizz sub te tf (fun _ => none) start).run inState

def whizExps (f : Exp → m Exp) (l : Lam) : m Lam :=
  Prod.fst <$> whiz (m := m) (fun _ x => x) (fun pe => do
    let e' ← f pe.2
    return some (pe.1, e')) f whizState l

end Traversal

end Whiz

end Jhc.Grin

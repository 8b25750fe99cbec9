import Jhc.Grin.Syntax

/-!
# What Grin code means in a monad (Grin/Grin.hs:78-165)

Sequencing is "the same as >>= for monads". The meaning of an expression in any monad, given
what its values are and what its operations do there. Where no pattern matches the meaning
is `stuck`.
-/

namespace Jhc.Grin
open Jhc.C (Prim)

/-- The values and operations of a monad that Grin code is run in. -/
structure Machine (M : Type → Type) [Monad M] (V : Type) where
  nodeC : Tag → List V → V
  const : V → V
  lit : ℚ → Ty → V
  unit : V
  valPrim : Prim → List V → Ty → V
  index : V → V → V
  item : Atom → Ty → V
  valUnknown : Ty → V
  /-- The parts of a value that a pattern of a node or of an index takes it apart into. -/
  fields : Tag → V → Option (List V)
  parts : V → Option (V × V)
  /-- The value is that of a pattern without variables. -/
  is : Val → V → Bool
  baseOp : BaseOp → List V → M (List V)
  app : Atom → List V → List Ty → M (List V)
  prim : Prim → List V → List Ty → M (List V)
  error : String → M (List V)
  stuck : M (List V)
  call : V → List V → List Ty → Bool → M (List V)
  newRegion : (List V → M (List V)) → M (List V)
  alloc : V → V → V → M (List V)
  /-- The functions that call each other as the bodies say. -/
  letrec : ((Atom → List V → M (List V)) → Atom → List V → M (List V)) → Atom → List V → M (List V)
  mkClosure : V → List V → V → List Ty → M (List V)
  mkCont : (List V → M (List V)) → (List V → M (List V)) → M (List V)
  gcRoots : List V → M (List V) → M (List V)
  error_bind : ∀ (msg : String) (k : List V → M (List V)), error msg >>= k = error msg
  stuck_bind : ∀ k : List V → M (List V), stuck >>= k = stuck

namespace Machine

variable {M : Type → Type} [Monad M] {V : Type} (S : Machine M V)

/-- The local functions in scope. -/
abbrev Funs (M : Type → Type) (V : Type) := Atom → Option (List V → M (List V))

/-! ### Values and patterns -/

mutual

def val (ρ : Var → V) : Val → V
  | .nodeC t vs => S.nodeC t (vals ρ vs)
  | .const v => S.const (val ρ v)
  | .lit n ty => S.lit n ty
  | .var x _ => ρ x
  | .unit => S.unit
  | .valPrim p vs ty => S.valPrim p (vals ρ vs) ty
  | .index a b => S.index (val ρ a) (val ρ b)
  | .item a ty => S.item a ty
  | .valUnknown ty => S.valUnknown ty

def vals (ρ : Var → V) : List Val → List V
  | [] => []
  | v :: vs => val ρ v :: vals ρ vs

end

mutual

/-- What a pattern binds when it matches. -/
def matchVal : Val → V → Option (List (Var × V))
  | .var x _, w => some [(x, w)]
  | .nodeC t ps, w => (S.fields t w).bind fun ws => matchVals ps ws
  | .index a b, w => (S.parts w).bind fun u =>
    (matchVal a u.1).bind fun xs => (matchVal b u.2).map fun ys => xs ++ ys
  | p, w => if S.is p w then some [] else none

def matchVals : List Val → List V → Option (List (Var × V))
  | [], [] => some []
  | p :: ps, w :: ws => (matchVal p w).bind fun xs => (matchVals ps ws).map fun ys => xs ++ ys
  | _, _ => none

end

/-- Of two variables of one name the first one counts. -/
def extend (ρ : Var → V) (bs : List (Var × V)) : Var → V := fun x => (bs.lookup x).getD (ρ x)

/-- The local functions `ds` are `F`. -/
def Funs.extend (φ : Funs M V) (ds : List FuncDef) (F : Atom → List V → M (List V)) : Funs M V :=
  fun a => if a ∈ ds.map FuncDef.name then some (F a) else φ a

/-! ### Expressions -/

mutual

def exp (φ : Funs M V) (ρ : Var → V) : Exp → M (List V)
  | .bind e l => exp φ ρ e >>= lam φ ρ l
  | .baseOp op vs => S.baseOp op (S.vals ρ vs)
  | .app a vs ty =>
    match φ a with
    | some k => k (S.vals ρ vs)
    | none => S.app a (S.vals ρ vs) ty
  | .prim p vs ty => S.prim p (S.vals ρ vs) ty
  | .case v as => alts φ ρ (S.val ρ v) as
  | .ret vs => pure (S.vals ρ vs)
  | .error msg _ => S.error msg
  | .call v vs ty jump => S.call (S.val ρ v) (S.vals ρ vs) ty jump
  | .newRegion l => S.newRegion (lam φ ρ l)
  | .alloc v c r => S.alloc (S.val ρ v) (S.val ρ c) (S.val ρ r)
  | .lett ds b _ => exp (φ.extend ds (S.letrec fun F => defs (φ.extend ds F) ρ ds)) ρ b
  | .mkClosure v vs r ty => S.mkClosure (S.val ρ v) (S.vals ρ vs) (S.val ρ r) ty
  | .mkCont c l => S.mkCont (lam φ ρ c) (lam φ ρ l)
  | .gcRoots vs b => S.gcRoots (S.vals ρ vs) (exp φ ρ b)

def lam (φ : Funs M V) (ρ : Var → V) : Lam → List V → M (List V)
  | .mk ps e, ws =>
    match S.matchVals ps ws with
    | some bs => exp φ (extend ρ bs) e
    | none => S.stuck

/-- The first alternative that matches. -/
def alts (φ : Funs M V) (ρ : Var → V) (w : V) : List Lam → M (List V)
  | [] => S.stuck
  | .mk ps e :: as =>
    match S.matchVals ps [w] with
    | some bs => exp φ (extend ρ bs) e
    | none => alts φ ρ w as

/-- The first function of a name. -/
def defs (φ : Funs M V) (ρ : Var → V) : List FuncDef → Atom → List V → M (List V)
  | [], _, _ => S.stuck
  | .mk n b _ :: ds, a, ws => if a = n then lam φ ρ b ws else defs φ ρ ds a ws

end

end Machine

end Jhc.Grin

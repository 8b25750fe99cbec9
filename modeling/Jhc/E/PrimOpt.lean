import Mathlib.Algebra.Order.Ring.Rat
import Mathlib.Tactic.Linarith
import Jhc.Cmm.OpEval
import Jhc.C.PrimOps

/-!
# Folding of primitives in E (E/PrimOpt.hs:70-130)

The expressions of E as far as the instance of `Expression` looks at them. A type of
E stands as the type that it has for the code generator (Grin/FromE.hs:109).
-/

namespace Jhc.E
open Jhc.Cmm

/-- `other` is any expression of another form. -/
inductive PExp where
  | litInt (n : Number) (t : Ty)
  | binPrim (op : BinOp) (t₁ t₂ tr : Ty) (e₁ e₂ : PExp) (t : Ty)
  | unPrim (op : UnOp) (t₁ tr : Ty) (e₁ : PExp) (t : Ty)
  | eCase (scrut : PExp) (n : Number) (t : Ty) (e₁ e₂ : PExp)
  | other (i : ℕ)
  deriving DecidableEq

namespace PExp

/-- The literals of `Bool__`. -/
def lTruezh : PExp := litInt 1 .tyBool
def lFalsezh : PExp := litInt 0 .tyBool

instance : Expression Ty PExp where
  toConstant
    | litInt n t => some (n, t)
    | _ => none
  toExpression n t := litInt n t
  toBool b := if b then lTruezh else lFalsezh
  createBinOp bop t₁ t₂ tr e₁ e₂ str := binPrim bop t₁ t₂ tr e₁ e₂ str
  fromBinOp
    | binPrim bop t₁ t₂ tr e₁ e₂ str => some (bop, t₁, t₂, tr, e₁, e₂, str)
    | _ => none
  caseEquals scrut c e₁ e₂ := eCase scrut c.1 c.2 e₁ e₂
  equalsExpression e₁ e₂ := e₁ == e₂

/-- `primopt` of `primOpt'`, for binary and unary operators. -/
def primopt : PExp → Option PExp
  | binPrim bop t₁ t₂ tr e₁ e₂ rt => binOp bop t₁ t₂ tr e₁ e₂ rt
  | unPrim bop _ _ e₁ rt => unOp bop e₁ rt
  | _ => none

end PExp

end Jhc.E

/-!
# What folded expressions denote

An expression denotes the word that C computes for it. A fold of two literals computes
with the numbers that are written, where C computes with the numbers that it reads.
-/

namespace Jhc.E
open Jhc.Cmm Jhc.C

/-- The width of the words of a type. -/
def typeWidth (g : Target) : Ty → Option ℕ
  | .tyBool => some 1
  | t => g.width t

namespace PExp

/-- The number that C computes; `none` where it is undefined. -/
def eval (g : Target) (env : ℕ → ℤ) : PExp → Option ℤ
  | litInt n _ => Number.toInteger n
  | binPrim op t₁ t₂ _ e₁ e₂ _ => do
    let a ← e₁.eval g env
    let b ← e₂.eval g env
    evalBinOp g op t₁ t₂ a b
  | unPrim op t₁ _ e₁ _ => do
    let a ← e₁.eval g env
    evalUnOp g op t₁ a
  | eCase scrut n t e₁ e₂ => do
    let v ← scrut.eval g env
    let w ← typeWidth g t
    let m ← Number.toInteger n
    if v % 2 ^ w = m % 2 ^ w then e₁.eval g env else e₂.eval g env
  | other i => some (env i)

attribute [local grind =] eval

end PExp

open PExp

/-! ### Types -/

def isShift : BinOp → Bool
  | .shl => true
  | .shr => true
  | .shra => true
  | .rotl => true
  | .rotr => true
  | _ => false

/-- The operands have the same integer type, a shift aside, and the operator has the
result type that it determines (Cmm/Op.hs:28-36). -/
structure OpTyped (g : Target) (op : BinOp) (t₁ t₂ tr : Ty) : Prop where
  left : (g.width t₁).isSome
  right : (g.width t₂).isSome
  same : isShift op = false → t₂ = t₁
  result : tr = binopType op t₁ t₂

/-- An operand of a type; a literal is written as a signed or as an unsigned number. -/
def HasType (g : Target) : PExp → Ty → Prop
  | .litInt n t, ty => t = ty ∧ ∃ (k : ℤ) (w : ℕ), n = k ∧ g.width t = some w ∧ -2 ^ (w - 1) ≤ k ∧ k < 2 ^ w
  | .binPrim op t₁ t₂ tr e₁ e₂ str, ty => str = ty ∧ tr = ty ∧ OpTyped g op t₁ t₂ tr ∧ HasType g e₁ t₁ ∧ HasType g e₂ t₂
  | .unPrim _ t₁ tr e₁ str, ty => str = ty ∧ tr = ty ∧ HasType g e₁ t₁
  | .eCase scrut _ t e₁ e₂, ty => HasType g scrut t ∧ HasType g e₁ ty ∧ HasType g e₂ ty
  | .other _, _ => True

/-- Where C gives the first expression a word of the width `w`, it gives the second
one the same word. -/
def Refines (g : Target) (w : ℕ) (e e' : PExp) : Prop :=
  ∀ env r, e.eval g env = some r → ∃ r', e'.eval g env = some r' ∧ SameWord w r' r

/-- The expression that `binOp` returns denotes the word that C computes. -/
def Sound (g : Target) (op : BinOp) (t₁ t₂ tr : Ty) (e₁ e₂ : PExp) : Prop :=
  ∀ e', binOp op t₁ t₂ tr e₁ e₂ tr = some e' → ∀ w, typeWidth g tr = some w →
    Refines g w (.binPrim op t₁ t₂ tr e₁ e₂ tr) e'

/-- The same for `unOp`. -/
def UnSound (g : Target) (op : UnOp) (t₁ tr : Ty) (e₁ : PExp) : Prop :=
  ∀ e', unOp op e₁ tr = some e' → ∀ w, typeWidth g tr = some w → Refines g w (.unPrim op t₁ tr e₁ tr) e'

/-! ### When the fold of two literals is right -/

/-- The operators whose fold depends on how the literals are written. -/
def readsLiterals : BinOp → Bool
  | .quot => true
  | .rem => true
  | .uDiv => true
  | .uMod => true
  | .eq => true
  | .nEq => true
  | .lt => true
  | .gt => true
  | .lte => true
  | .gte => true
  | _ => false

/-- For literals `a` and `b`: those of a division are written as the numbers that C
reads, those that are compared are written in the same way. -/
def LiteralsOk (op : BinOp) (w : ℕ) (a b : ℤ) : Prop :=
  match op with
  | .quot => readC true w a = a ∧ readC true w b = b
  | .rem => readC true w a = a ∧ readC true w b = b
  | .uDiv => readC false w a = a ∧ readC false w b = b
  | .uMod => readC false w a = a ∧ readC false w b = b
  | .eq => SameWord w a b → a = b
  | .nEq => SameWord w a b → a = b
  | .lt => readC true w a - a = readC true w b - b
  | .gt => readC true w a - a = readC true w b - b
  | .lte => readC true w a - a = readC true w b - b
  | .gte => readC true w a - a = readC true w b - b
  | _ => True

def FoldOk (g : Target) (op : BinOp) (t₁ : Ty) (e₁ e₂ : PExp) : Prop :=
  ∀ (a b : ℤ) ta tb w, e₁ = litInt a ta → e₂ = litInt b tb → g.width t₁ = some w → LiteralsOk op w a b

/-! ### Evaluation -/

section eval

variable {g : Target} {env : ℕ → ℤ}

theorem toInteger_intCast (k : ℤ) : Number.toInteger (k : ℚ) = some k := by
  simp [Number.toInteger]

theorem eval_lit (k : ℤ) (t : Ty) : (litInt k t).eval g env = some k := toInteger_intCast k

theorem eval_zero (t : Ty) : (litInt 0 t).eval g env = some 0 := eval_lit 0 t

theorem eval_toBool (b : Bool) : (Expression.toBool b : PExp).eval g env = some (if b then 1 else 0) := by
  cases b
  · exact eval_lit 0 .tyBool
  · exact eval_lit 1 .tyBool

theorem eval_binPrim {op : BinOp} {t₁ t₂ tr t : Ty} {e₁ e₂ : PExp} {r : ℤ} :
    (binPrim op t₁ t₂ tr e₁ e₂ t).eval g env = some r ↔
      ∃ a b, e₁.eval g env = some a ∧ e₂.eval g env = some b ∧ evalBinOp g op t₁ t₂ a b = some r := by
  simp [eval, Option.bind_eq_some_iff]

theorem evalBinOp_eq {op : BinOp} {t₁ t₂ : Ty} {w₁ w₂ : ℕ} {signed : Bool} {o : COperator}
    (h₁ : g.width t₁ = some w₁) (h₂ : g.width t₂ = some w₂) (hop : primBinOp op = some (signed, o)) (a b : ℤ) :
    evalBinOp g op t₁ t₂ a b = o.eval w₁ (readC signed w₁ a) (readC signed w₂ b) := by
  simp [evalBinOp, h₁, h₂, hop]

theorem evalBinOp_none {op : BinOp} {t₁ t₂ : Ty} (hop : primBinOp op = none) (a b : ℤ) :
    evalBinOp g op t₁ t₂ a b = none := by
  simp [evalBinOp, hop]

theorem typeWidth_of_width {t : Ty} {w : ℕ} (h : g.width t = some w) : typeWidth g t = some w := by
  cases t with
  | tyBool => cases h
  | _ => exact h

end eval

end Jhc.E

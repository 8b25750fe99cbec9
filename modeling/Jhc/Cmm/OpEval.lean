import Mathlib.Data.Rat.Defs
import Jhc.Cmm.Op

/-!
# Folding of operators (Cmm/OpEval.hs:14-202, Cmm/Number.hs)

`binOp` and `unOp` simplify an operator applied to expressions, for any type of
expressions with an instance of `Expression`. Folds that go through floating point
(`FPwr` and the unary functions) are left out.
-/

namespace Jhc.Cmm

/-! ### Number (Cmm/Number.hs) -/

abbrev Number := ℚ

/-- `none` where the source raises an error. -/
def Number.toInteger (x : Number) : Option ℤ := if x.den = 1 then some x.num else none

/-- An operation of the `Integral` instance. -/
def Number.integral (op : ℤ → ℤ → ℤ) (x y : Number) : Option Number := do
  let a ← Number.toInteger x
  let b ← Number.toInteger y
  some (op a b)

/-! ### Expression (OpEval.hs:14-32) -/

class Expression (t : outParam Type) (e : Type) where
  toConstant : e → Option (Number × t)
  toExpression : Number → t → e
  toBool : Bool → e
  createBinOp : BinOp → Ty → Ty → Ty → e → e → t → e
  fromBinOp : e → Option (BinOp × Ty × Ty × Ty × e × e × t)
  caseEquals : e → Number × t → e → e → e
  equalsExpression : e → e → Bool

export Expression (toConstant toExpression toBool createBinOp fromBinOp caseEquals equalsExpression)

/-! ### binOp, unOp (OpEval.hs:75-202) -/

section

variable {t e : Type} [Expression t e]

/-- A division, with a divisor that is not zero. -/
def foldDivision (op : ℤ → ℤ → ℤ) (v₁ v₂ : Number) (str : t) : Option e :=
  if v₂ = 0 then none else (Number.integral op v₁ v₂).map fun v => toExpression v str

/-- Both operands are constants. -/
def foldConstants (bop : BinOp) (v₁ v₂ : Number) (str : t) : Option e :=
  match bop with
  | .add => some (toExpression (v₁ + v₂) str)
  | .sub => some (toExpression (v₁ - v₂) str)
  | .mul => some (toExpression (v₁ * v₂) str)
  | .div => foldDivision Int.fdiv v₁ v₂ str
  | .mod => foldDivision Int.fmod v₁ v₂ str
  | .quot => foldDivision Int.tdiv v₁ v₂ str
  | .rem => foldDivision Int.tmod v₁ v₂ str
  | .uDiv => foldDivision Int.fdiv v₁ v₂ str
  | .uMod => foldDivision Int.fmod v₁ v₂ str
  | .fDiv => if v₂ = 0 then none else some (toExpression (v₁ / v₂) str)
  | .fMul => some (toExpression (v₁ * v₂) str)
  | .fAdd => some (toExpression (v₁ + v₂) str)
  | .fSub => some (toExpression (v₁ - v₂) str)
  | .lt => some (toBool (v₁ < v₂))
  | .gt => some (toBool (v₁ > v₂))
  | .lte => some (toBool (v₁ ≤ v₂))
  | .gte => some (toBool (v₁ ≥ v₂))
  | .fLt => some (toBool (v₁ < v₂))
  | .fGt => some (toBool (v₁ > v₂))
  | .fLte => some (toBool (v₁ ≤ v₂))
  | .fGte => some (toBool (v₁ ≥ v₂))
  | .eq => some (toBool (v₁ = v₂))
  | .nEq => some (toBool (v₁ ≠ v₂))
  | .uLt => if 0 ≤ v₁ ∧ 0 ≤ v₂ then some (toBool (v₁ < v₂)) else none
  | .uGt => if 0 ≤ v₁ ∧ 0 ≤ v₂ then some (toBool (v₁ > v₂)) else none
  | .uLte => if 0 ≤ v₁ ∧ 0 ≤ v₂ then some (toBool (v₁ ≤ v₂)) else none
  | .uGte => if 0 ≤ v₁ ∧ 0 ≤ v₂ then some (toBool (v₁ ≥ v₂)) else none
  | _ => none

/-- The right operand is a constant and the operator does not commute. -/
def foldRight (op : BinOp) (e₁ : e) (v : Number) (str : t) : Option e :=
  if v = 0 then
    match op with
    | .shr => some e₁
    | .shra => some e₁
    | .shl => some e₁
    | .rotl => some e₁
    | .rotr => some e₁
    | .sub => some e₁
    | .fSub => some e₁
    | .fPwr => some (toExpression 1 str)
    | _ => none
  else if v = 1 then
    match op with
    | .div => some e₁
    | .mod => some (toExpression 0 str)
    | .uDiv => some e₁
    | .uMod => some (toExpression 0 str)
    | .quot => some e₁
    | .rem => some (toExpression 0 str)
    | .fPwr => some e₁
    | .fDiv => some e₁
    | .mul => some e₁
    | .fMul => some e₁
    | _ => none
  else none

/-- The left operand is the constant zero. -/
def foldLeftZero (op : BinOp) (t₁ : t) (e₂ : e) (str : t) : Option e :=
  match op with
  | .shr => some (toExpression 0 str)
  | .shra => some (toExpression 0 str)
  | .shl => some (toExpression 0 str)
  | .rotl => some (toExpression 0 str)
  | .rotr => some (toExpression 0 str)
  | .and => some (toExpression 0 str)
  | .or => some e₂
  | .xor => some e₂
  | .add => some e₂
  | .mul => some (toExpression 0 str)
  | .uGt => some (toBool false)
  | .uLte => some (toBool true)
  | .fAdd => some e₂
  | .uGte => some (caseEquals e₂ (0, t₁) (toBool true) (toBool false))
  | .uLt => some (caseEquals e₂ (0, t₁) (toBool false) (toBool true))
  | _ => none

/-- The left operand is the constant one. -/
def foldLeftOne (op : BinOp) (t₁ : t) (e₂ : e) : Option e :=
  match op with
  | .mul => some e₂
  | .fMul => some e₂
  | .uGt => some (caseEquals e₂ (0, t₁) (toBool true) (toBool false))
  | _ => none

/-- The left operand is the constant `v₁`. -/
def foldLeft (op : BinOp) (v₁ : Number) (t₁ : t) (e₂ : e) (str : t) : Option e :=
  match op with
  | .eq => some (caseEquals e₂ (v₁, t₁) (toBool true) (toBool false))
  | .nEq => some (caseEquals e₂ (v₁, t₁) (toBool false) (toBool true))
  | op => if v₁ = 0 then foldLeftZero op t₁ e₂ str else if v₁ = 1 then foldLeftOne op t₁ e₂ else none

/-- Both operands are the same expression. -/
def foldSame (op : BinOp) (e₁ : e) (str : t) : Option e :=
  match op with
  | .eq => some (toBool true)
  | .nEq => some (toBool false)
  | .lte => some (toBool true)
  | .gte => some (toBool true)
  | .lt => some (toBool false)
  | .gt => some (toBool false)
  | .uLte => some (toBool true)
  | .uGte => some (toBool true)
  | .uLt => some (toBool false)
  | .uGt => some (toBool false)
  | .sub => some (toExpression 0 str)
  | .xor => some (toExpression 0 str)
  | .and => some e₁
  | .or => some e₁
  | _ => none

/-- `(e₁' op e₂') op e₂` becomes `e₁' op (e₂' op e₂)`. -/
def reassociate (bop : BinOp) (tr : Ty) (e₁ e₂ : e) (str : t) : Option e :=
  match fromBinOp e₁ with
  | some (bop', _, _, _, e₁', e₂', _) =>
    if isAssociative bop && bop == bop' then
      some (createBinOp bop tr tr tr e₁' (createBinOp bop tr tr tr e₂' e₂ str) str)
    else none
  | none => none

def binOp (bop : BinOp) (t₁ t₂ tr : Ty) (e₁ e₂ : e) (str : t) : Option e :=
  match toConstant e₁, toConstant e₂ with
  | some (v₁, _), some (v₂, _) => foldConstants bop v₁ v₂ str
  | none, some (v₂, _) =>
    match commuteBinOp bop with
    | some bop' => some (createBinOp bop' t₂ t₁ tr e₂ e₁ str)
    | none => foldRight bop e₁ v₂ str
  | some (v₁, ty), none => foldLeft bop v₁ ty e₂ str
  | none, none => (if equalsExpression e₁ e₂ then foldSame bop e₁ str else none).orElse fun _ =>
      reassociate bop tr e₁ e₂ str

def unOp (op : UnOp) (e₁ : e) (str : t) : Option e :=
  match toConstant e₁, op with
  | some (v, _), .neg => some (toExpression (-v) str)
  | some (v, _), .fNeg => some (toExpression (-v) str)
  | some (v, _), .fAbs => some (toExpression (if v < 0 then -v else v) str)
  | _, _ => none

attribute [local grind =] foldConstants

end

end Jhc.Cmm

/-!
# Conversions (Cmm/OpEval.hs:34-73)
-/

namespace Jhc.Cmm

/-- The order of the widths, as far as it is the same on every machine. -/
def tyLte : Ty → Ty → Bool
  | .tyBool, _ => true
  | .tyBits (.bits x) _, .tyBits (.bits y) _ => x ≤ y
  | _, .tyBits (.bitsArch .bitsMax) _ => true
  | .tyBits (.bits x) _, .tyBits (.bitsArch .bitsPtr) _ => x ≤ 32
  | x, y => x = y

def tyEq (x y : Ty) : Bool := tyLte x y && tyLte y x

/-- `none` where the conversion does nothing. -/
def convOp : ConvOp → Ty → Ty → Option ConvOp
  | .f2I, _, _ => some .f2I
  | .i2F, _, _ => some .i2F
  | .f2U, _, _ => some .f2U
  | .u2F, _, _ => some .u2F
  | .u2U, t₁, t₂ =>
      if t₁ = t₂ then none
      else if tyLte t₂ t₁ then some .lobits
      else if tyLte t₁ t₂ then some .zx
      else some .u2U
  | .i2I, t₁, t₂ =>
      if t₁ = t₂ then none
      else if tyLte t₂ t₁ then some .lobits
      else if tyLte t₁ t₂ then some .sx
      else some .i2I
  | n, t₁, t₂ => if t₁ = t₂ then none else some n

/-- The number of a literal after a conversion. -/
def convNumber (_ : ConvOp) (_ _ : Ty) (n : Number) : Number := n

def isFloatConv : ConvOp → Bool
  | .f2I => true
  | .i2F => true
  | .u2F => true
  | .f2U => true
  | _ => false

/-- The one conversion for `c₁` and, from `t₂`, `c₂` after it. -/
def convCombine (_ : Ty) (c₁ : ConvOp) (t₂ : Ty) (c₂ : ConvOp) (t₃ : Ty) : Option ConvOp :=
  if isFloatConv c₁ || isFloatConv c₂ then none
  else if tyEq t₂ t₃ && c₁ = c₂ then some c₂
  else none

attribute [local grind =] tyLte

end Jhc.Cmm

import Mathlib.Tactic.Common

/-!
# Operators of the code generator (Cmm/Op.hs:23-170, 240-310, 367-410)

The operators, the types of their arguments and results, and the predicates on
operators that the Grin and E passes ask for.
-/

namespace Jhc.Cmm

inductive BinOp where
  | add | sub | mul | mulx | uMulx
  | div | mod | quot | rem | uDiv | uMod
  | and | or | xor | shl | shr | shra | rotl | rotr
  | fAdd | fSub | fDiv | fMul | fPwr | fAtan2
  | eq | nEq | gt | gte | lt | lte | uGt | uGte | uLt | uLte
  | fEq | fNEq | fGt | fGte | fLt | fLte | fOrdered
  deriving DecidableEq, Ord, Repr

inductive UnOp where
  | neg | com
  | fAbs | fNeg | sin | cos | tan | sinh | cosh | tanh | asin | acos | atan | log | exp | sqrt
  | bswap | ffs | clz | ctz | popcount | parity
  deriving DecidableEq, Ord, Repr

inductive ConvOp where
  | f2I | f2U | u2F | i2F | f2F | lobits | sx | zx | i2I | u2U | b2B
  deriving DecidableEq, Ord, Repr

inductive ValOp where
  | naN | pInf | nInf | pZero | nZero
  deriving DecidableEq, Ord, Repr

inductive ArchBits where
  | bitsMax | bitsPtr | bitsUnknown
  deriving DecidableEq, Ord, Repr

inductive TyBits where
  | bits (n : Nat)
  | bitsArch (a : ArchBits)
  | bitsExt (s : String)
  deriving DecidableEq, Ord, Repr

inductive TyHint where
  | hintSigned | hintUnsigned | hintFloat | hintCharacter | hintNone
  deriving DecidableEq, Ord, Repr

inductive Ty where
  | tyBits (b : TyBits) (h : TyHint)
  | tyBool
  | tyComplex (t : Ty)
  | tyVector (n : Int) (t : Ty)
  deriving DecidableEq, Ord, Repr

inductive Op (v : Type) where
  | binOp (o : BinOp) (a b : v)
  | unOp (o : UnOp) (a : v)
  | valOp (o : ValOp)
  | convOp (o : ConvOp) (a : v)
  deriving DecidableEq, Ord, Repr

/-! ### Types and laws of the operators (Cmm/Op.hs:247-310) -/

def binopType : BinOp → Ty → Ty → Ty
  | .mulx, .tyBits (.bits i) h, _ => .tyBits (.bits (i * 2)) h
  | .uMulx, .tyBits (.bits i) h, _ => .tyBits (.bits (i * 2)) h
  | .eq, _, _ => .tyBool
  | .nEq, _, _ => .tyBool
  | .gt, _, _ => .tyBool
  | .gte, _, _ => .tyBool
  | .lt, _, _ => .tyBool
  | .lte, _, _ => .tyBool
  | .uGt, _, _ => .tyBool
  | .uGte, _, _ => .tyBool
  | .uLt, _, _ => .tyBool
  | .uLte, _, _ => .tyBool
  | .fEq, _, _ => .tyBool
  | .fNEq, _, _ => .tyBool
  | .fGt, _, _ => .tyBool
  | .fGte, _, _ => .tyBool
  | .fLt, _, _ => .tyBool
  | .fLte, _, _ => .tyBool
  | .fOrdered, _, _ => .tyBool
  | _, t₁, _ => t₁

def isCommutable : BinOp → Bool
  | .add => true
  | .mul => true
  | .and => true
  | .or => true
  | .xor => true
  | .eq => true
  | .nEq => true
  | .fAdd => true
  | .fMul => true
  | .fEq => true
  | .fNEq => true
  | .fOrdered => true
  | _ => false

def commuteBinOp (x : BinOp) : Option BinOp :=
  if isCommutable x then some x
  else match x with
    | .lt => some .gt
    | .gt => some .lt
    | .lte => some .gte
    | .gte => some .lte
    | .uLt => some .uGt
    | .uGt => some .uLt
    | .uLte => some .uGte
    | .uGte => some .uLte
    | .fLt => some .fGt
    | .fGt => some .fLt
    | .fLte => some .fGte
    | .fGte => some .fLte
    | _ => none

def isAssociative : BinOp → Bool
  | .add => true
  | .mul => true
  | .and => true
  | .or => true
  | .xor => true
  | _ => false

/-! ### IsOperator (Cmm/Op.hs:376-410) -/

def BinOp.isCheap : BinOp → Bool
  | fAtan2 => false
  | _ => true

def Op.isCheap {v : Type} : Op v → Bool
  | .binOp o _ _ => o.isCheap
  | .unOp _ _ => true
  | .convOp _ _ => true
  | .valOp _ => false

end Jhc.Cmm

/-!
# Primitives (C/Prims.hs:20-117)

The primitive operations of E and Grin, less what they need from the linker.
-/

namespace Jhc.C
open Jhc.Cmm (Op)

inductive DotNetPrim where
  | dotNetField | dotNetCtor | dotNetMethod
  deriving DecidableEq, Repr

inductive PrimTypeInfo where
  | primSizeOf | primMaxBound | primMinBound | primAlignmentOf | primUMaxBound
  deriving DecidableEq, Repr

inductive Safety where
  | safe | notSafe
  deriving DecidableEq, Repr

inductive Prim where
  | primPrim (name : String)
  | cConst (primConst : String)
  | func (funcName : String) (primArgTypes : List String) (primRetType : String)
      (primRetArgs : List String) (primSafety : Safety)
  | iFunc (primArgTypes : List String) (primRetType : String)
  | addrOf (primConst : String)
  | peek (primArgTy : Cmm.Ty)
  | poke (primArgTy : Cmm.Ty)
  | primTypeInfo (primArgTy primRetTy : Cmm.Ty) (primTypeInfo : PrimTypeInfo)
  | primString (s : String)
  | primDotNet (primStatic : Bool) (primDotNet : DotNetPrim) (primIOLike : Bool)
      (primAssembly primDotNetName : String)
  | op (primCOp : Op Cmm.Ty) (primRetTy : Cmm.Ty)
  deriving DecidableEq, Repr

def primIsCheap : Prim → Bool
  | .addrOf _ => true
  | .cConst _ => true
  | .primString _ => true
  | .primTypeInfo _ _ _ => true
  | .op op _ => op.isCheap
  | _ => false

end Jhc.C

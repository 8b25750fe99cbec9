import Jhc.Grin.Syntax

/-!
# Tags and the type environment (Grin/Grin.hs:205-225, 335-420; Grin/Val.hs:27-29)

The names of tags, which encode what a node is, and what the type environment knows of
functions and constructors.
-/

namespace Jhc.Grin

/-! ### Tags (Grin.hs:335-400) -/

def tagIsSuspFunction (t : Tag) : Bool :=
  match t.toList with
  | 'F' :: _ => true
  | 'B' :: _ => true
  | _ => false

/-- The digits of a number and the rest. -/
def spanDigits (cs : List Char) : List Char × List Char := cs.span Char.isDigit

def readDigits (cs : List Char) : ℕ := cs.foldl (fun n c => 10 * n + (c.toNat - '0'.toNat)) 0

def tagFlipFunction (t : Tag) : Option Tag :=
  match t.toList with
  | 'F' :: xs => some (String.ofList ('f' :: xs))
  | 'B' :: xs => some (String.ofList ('b' :: xs))
  | 'f' :: xs => some (String.ofList ('F' :: xs))
  | 'b' :: xs => some (String.ofList ('B' :: xs))
  | _ => none

def tagIsFunction (t : Tag) : Bool :=
  match t.toList with
  | 'f' :: _ => true
  | 'b' :: _ => true
  | _ => false

def tagUnfunction (t : Tag) : Option (ℕ × Tag) :=
  if tagIsSuspFunction t then (tagFlipFunction t).map fun f => (0, f)
  else if tagIsFunction t then some (0, t)
  else match t.toList with
    | 'P' :: zs =>
      match spanDigits zs with
      | (n, '_' :: rs) => if n = [] then none else some (readDigits n, String.ofList ('f' :: rs))
      | _ => none
    | _ => none

def partialTag (v : Tag) (c : ℕ) : Option Tag :=
  match v.toList with
  | 'f' :: xs => if c = 0 then some (String.ofList ('F' :: xs))
      else some (String.ofList ('P' :: (toString c).toList ++ '_' :: xs))
  | 'T' :: xs => if c = 0 then some v
      else some (String.ofList ('Y' :: (toString c).toList ++ '_' :: xs))
  | 'b' :: xs => if c = 0 then some (String.ofList ('B' :: xs)) else none
  | _ => none

/-! ### TyTy, TyEnv (Grin.hs:205-222, 416-421) -/

inductive TyThunk where
  | tyNotThunk
  | tyPApp (t : Option Ty) (f : Atom)
  | tySusp (f : Atom)
  deriving DecidableEq

structure TyTy where
  tySlots : List Ty
  tyReturn : List Ty
  tyThunk : TyThunk
  tySiblings : Option (List Atom)
  deriving DecidableEq

def tyTy : TyTy := ⟨[], [], .tyNotThunk, none⟩

abbrev TyEnv := List (Atom × TyTy)

def findTyTy (m : TyEnv) (a : Atom) : Option TyTy :=
  match m.lookup a with
  | some tyty => some tyty
  | none =>
    match a.toList with
    | 'Y' :: rs =>
      match spanDigits rs with
      | (ns, '_' :: rs) =>
        (m.lookup (String.ofList ('T' :: rs))).map fun t =>
          { tyTy with tySlots := t.tySlots.take (t.tySlots.length - readDigits ns), tyReturn := t.tyReturn }
      | _ => none
    | _ => if "@hole".toList.isPrefixOf a.toList then some { tyTy with tyReturn := [.tyNode] } else none

/-- Grin.hs:481-493; `none` where the source has an error. -/
def Val.getType : Val → Option Ty
  | .var _ t => some t
  | .lit _ t => some t
  | .index v _ => v.getType
  | .unit => some .tyUnit
  | .const v =>
    match v.getType with
    | some .tyNode => some .tyINode
    | _ => none
  | .nodeC _ _ => some .tyNode
  | .valPrim _ _ t => some t
  | .valUnknown t => some t
  | .item _ t => some t

def cChar : Atom := "CJhc.Type.Basic.Char"
def cWord : Atom := "CJhc.Type.Word.Word"
def cInt : Atom := "CJhc.Type.Word.Int"

end Jhc.Grin

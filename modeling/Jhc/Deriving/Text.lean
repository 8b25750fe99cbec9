import Jhc.Text.Read

/-!
# Derived Show and Read (Deriving/Text.hs; Deriving/Type.hs; Name/Name.hs:71-74, 126-128)

The methods that `deriveShow` and `deriveRead` generate. A generated expression is
represented by its value, so that `gshowString t` is the function that puts `t` in front.
`T` are the types of fields, `X` the values of types that are not declared here.
-/

namespace Jhc.Deriving
open Jhc.Text (Str ReadS comp lex readParen)

/-! ### Data, Body (Type.hs:6-20) -/

structure Name where
  modName : Str
  ident : Str
  deriving DecidableEq

def getIdent (n : Name) : Str := n.ident

def isOpLike (n : Name) : Bool :=
  match n.ident with
  | x :: _ => x ∈ "!#$%&*+./<=>?@\\^-~:|".toList
  | [] => false

structure Body (T : Type) where
  constructor : Name
  labels : List Name
  types : List T

structure Data (T : Type) where
  body : List (Body T)

/-! ### Values and instances -/

inductive Value (X : Type) where
  | con (c : Name) (args : List (Value X))
  | ext (x : X) (parts : List (Value X))

abbrev ShowS := Str → Str

/-- The methods of `Show` and `Read`; `none` where a method does not end. -/
structure Inst (V : Type) where
  showsPrec : ℤ → V → Option ShowS
  readsPrec : ℤ → ReadS V

def Inst.bottom {V : Type} : Inst V := ⟨fun _ _ => none, fun _ _ => none⟩

def showString (t : Str) : ShowS := fun s => t ++ s

def showParen (b : Bool) (p : ShowS) : ShowS := if b then ('(' :: ·) ∘ p ∘ (')' :: ·) else p

/-! ### deriveShow (Text.hs:57-86) -/

section
variable {T V : Type} (inst : T → Inst V)

def foldr1 {α : Type} (f : α → α → α) : List α → Option α
  | [] => none
  | [x] => some x
  | x :: xs => (foldr1 f xs).map (f x)

def gshowString (t : Str) : Option ShowS := some (showString t)
def gdot (a b : Option ShowS) : Option ShowS := do return (← a) ∘ (← b)
def gcomp (a b : Option ShowS) : Option ShowS := do return (← a) ∘ (' ' :: ·) ∘ (← b)
def gpar (a b : Option ShowS) : Option ShowS := gdot a (gdot (gshowString ", ".toList) b)
def gshowParen (n : ℤ) (e : Option ShowS) : Option ShowS := e.map (showParen (decide (n ≥ 10)))
def gshowsPrec (e : T × V) : Option ShowS := (inst e.1).showsPrec 10 e.2
def gshows (e : T × V) : Option ShowS := (inst e.1).showsPrec 0 e.2

def showField (lab : Name) (e : T × V) : Option ShowS :=
  gdot (gshowString (getIdent lab ++ " = ".toList)) (gshows inst e)

/-- The right side of the equation for a constructor with fields `es`. -/
def mkMatch (b : Body T) (ne : ℤ) (es : List (T × V)) : Option ShowS :=
  let gid := getIdent b.constructor
  match b.labels, es with
  | f :: fs, e :: es =>
    gdot ((foldr1 gpar
        (gdot (gshowString (gid ++ " \x7b ".toList ++ getIdent f ++ " = ".toList)) (gshowsPrec inst e) ::
          List.zipWith (showField inst) fs es)).join)
      (gshowString " \x7d".toList)
  | _, _ =>
    if isOpLike b.constructor then
      match es with
      | [e1, e2] => gshowParen ne (gcomp (gcomp (gshowsPrec inst e1) (gshowString gid)) (gshowsPrec inst e2))
      | _ => gshowParen ne (foldr1 gcomp (gshowString ('(' :: (gid ++ [')'])) :: es.map (gshowsPrec inst))).join
    else if b.types.isEmpty then gshowString gid
    else gshowParen ne (gdot (gshowString (gid ++ [' '])) (foldr1 gcomp (es.map (gshowsPrec inst))).join)

attribute [local grind =] foldr1

end

section
variable {T X : Type} (inst : T → Inst (Value X))

def deriveShow (d : Data T) : ℤ → Value X → Option ShowS
  | ne, .con c args => do
    let b ← d.body.find? fun b => decide (b.constructor = c ∧ b.types.length = args.length)
    mkMatch inst b ne (b.types.zip args)
  | _, .ext _ _ => none

/-! ### deriveRead (Text.hs:15-55) -/

/-- The generators for the fields: each reads from what the one before leaves. -/
def readFields : List T → ReadS (List (Value X))
  | [], r => some [([], r)]
  | t :: ts, r => do
    comp (← (inst t).readsPrec 10 r) fun (v, r') =>
      return (← readFields ts r').map fun (vs, fre) => (v :: vs, fre)

def readBody (n : ℕ) (b : Body T) (de : ℤ) : ReadS (Value X) :=
  let con := fun input => (lex input).filter fun (tok, _) => tok = getIdent b.constructor
  if b.types.isEmpty then fun inpute => some ((con inpute).map fun (_, reste) => (.con b.constructor [], reste))
  else readParen n (decide (de > 9)) fun ine => comp (con ine) fun (_, r) =>
    return (← readFields inst b.types r).map fun (vs, fre) => (.con b.constructor vs, fre)

def deriveRead (n : ℕ) (d : Data T) (de : ℤ) : ReadS (Value X) := fun input =>
  match d.body with
  | [] => some []
  | bodies => (bodies.mapM fun b => readBody inst n b de input).map List.flatten

/-! ### The instances of a program -/

variable (decls : T → Option (Data T)) (own : T → (T → Inst (Value X)) → Inst (Value X))

/-- The instances, which use one another; `n` bounds the depth of their use. -/
def instances : ℕ → T → Inst (Value X)
  | 0, _ => .bottom
  | n + 1, t =>
    match decls t with
    | some d => ⟨deriveShow (instances n) d, deriveRead (instances n) (n + 1) d⟩
    | none => own t (instances n)

end

end Jhc.Deriving

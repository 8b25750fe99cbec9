import Mathlib.Logic.Function.Basic
import Jhc.FrontEnd.ListComp
import Jhc.Lib.PartialList

/-!
# What list comprehensions mean

An expression has a meaning at every type it is used at: as a value, a truth value, a list, or a
function. The forms that a translated comprehension is made of are taken apart; values and the
meaning of the other forms are arbitrary.
-/

namespace Jhc.ListComp

open Jhc.FrontEnd.Exports (Name)
open Jhc.Lib

/-- What matching a pattern comes to. -/
inductive Outcome (Env : Type) where
  | diverges
  | fails
  | binds (ρ : Env)

def Outcome.andThen {Env : Type} : Outcome Env → (Env → Outcome Env) → Outcome Env
  | .diverges, _ => .diverges
  | .fails, _ => .fails
  | .binds ρ, k => k ρ

/-- The values of a program. What diverges is none; `D` holds `bot` for an undefined value. -/
structure Values (Decl Other : Type) where
  D : Type
  bot : D
  asBool : D → Option Bool
  asList : D → Approximations D
  apply : D → D → D
  evaluates : D → Bool
  uncon : Name → ℕ → D → Option (Option (List D))
  uncon_length : ∀ {c : Name} {n : ℕ} {x : D} {xs : List D}, uncon c n x = some (some xs) → xs.length = n
  untuple : ℕ → D → Option (List D)
  untuple_length : ∀ {n : ℕ} {x : D} {xs : List D}, untuple n x = some xs → xs.length = n
  isLit : HsLiteral → D → Option Bool
  negate : D → D
  other : HsExp Decl Other → (Name → D) → D
  declare : List Decl → (Name → D) → Name → D
  declare_nil : ∀ ρ : Name → D, declare [] ρ = ρ

def dc_Cons : Name := ⟨.DataConstructor, some "Jhc.Prim.Prim".toList, ":".toList⟩
def dc_EmptyList : Name := ⟨.DataConstructor, some "Jhc.Prim.Prim".toList, "[]".toList⟩

mutual

def patVars : HsPat → List Name
  | .hsPVar n => [n]
  | .hsPApp _ ps => patsVars ps
  | .hsPAsPat n p => n :: patVars p
  | .hsPBangPat p => patVars p
  | .hsPIrrPat p => patVars p
  | .hsPLit _ => []
  | .hsPInfixApp a _ b => patVars a ++ patVars b
  | .hsPList ps => patsVars ps
  | .hsPNeg p => patVars p
  | .hsPParen p => patVars p
  | .hsPTuple ps => patsVars ps
  | .hsPUnboxedTuple ps => patsVars ps
  | .hsPWildCard => []
  | .hsPTypeSig p => patVars p

def patsVars : List HsPat → List Name
  | [] => []
  | p :: ps => patVars p ++ patsVars ps

end

namespace Values

variable {Decl Other : Type} (V : Values Decl Other)

abbrev Env := Name → V.D

/-- A value against a constructor with `n` arguments. -/
def matchCon (c : Name) (n : ℕ) (x : V.D) (k : List V.D → Outcome V.Env) : Outcome V.Env :=
  match V.uncon c n x with
  | none => .diverges
  | some none => .fails
  | some (some xs) => k xs

/-- The variables of an irrefutable pattern are matched when they are used. -/
def lazily (vs : List Name) (r : Outcome V.Env) (ρ : V.Env) : V.Env := fun v =>
  if v ∈ vs then
    match r with
    | .binds σ => σ v
    | _ => V.bot
  else ρ v

mutual

def matchPat : HsPat → V.D → V.Env → Outcome V.Env
  | .hsPVar n, x, ρ => .binds (Function.update ρ n x)
  | .hsPApp n ps, x, ρ => V.matchCon n ps.length x fun xs => matchPats ps xs ρ
  | .hsPAsPat n p, x, ρ => matchPat p x (Function.update ρ n x)
  | .hsPBangPat p, x, ρ => if V.evaluates x then matchPat p x ρ else .diverges
  | .hsPIrrPat p, x, ρ => .binds (V.lazily (patVars p) (matchPat p x ρ) ρ)
  | .hsPLit l, x, ρ =>
    match V.isLit l x with
    | none => .diverges
    | some b => bif b then .binds ρ else .fails
  | .hsPInfixApp a n b, x, ρ => V.matchCon n 2 x fun xs =>
    match xs with
    | [y, z] => (matchPat a y ρ).andThen (matchPat b z)
    | _ => .fails
  | .hsPList ps, x, ρ => matchList ps x ρ
  | .hsPNeg p, x, ρ => matchPat p (V.negate x) ρ
  | .hsPParen p, x, ρ => matchPat p x ρ
  | .hsPTuple ps, x, ρ =>
    match V.untuple ps.length x with
    | none => .diverges
    | some xs => matchPats ps xs ρ
  | .hsPUnboxedTuple ps, x, ρ =>
    match V.untuple ps.length x with
    | none => .diverges
    | some xs => matchPats ps xs ρ
  | .hsPWildCard, _, ρ => .binds ρ
  | .hsPTypeSig p, x, ρ => matchPat p x ρ

def matchPats : List HsPat → List V.D → V.Env → Outcome V.Env
  | [], [], ρ => .binds ρ
  | p :: ps, x :: xs, ρ => (matchPat p x ρ).andThen (matchPats ps xs)
  | _, _, _ => .fails

def matchList : List HsPat → V.D → V.Env → Outcome V.Env
  | [], x, ρ => V.matchCon dc_EmptyList 0 x fun _ => .binds ρ
  | p :: ps, x, ρ => V.matchCon dc_Cons 2 x fun xs =>
    match xs with
    | [y, ys] => (matchPat p y ρ).andThen (matchList ps ys)
    | _ => .fails

end

/-! ### Expressions -/

inductive Ty where
  | val
  | bool
  | list
  | fn (t : Ty)

/-- The meanings of a type. -/
@[reducible] def Den : Ty → Type
  | .val => V.D
  | .bool => Option Bool
  | .list => Approximations V.D
  | .fn t => V.D → Den t

def undefined : (t : Ty) → V.Den t
  | .val => V.bot
  | .bool => none
  | .list => .const .bot
  | .fn t => fun _ => undefined t

def ofVal : (t : Ty) → V.D → V.Den t
  | .val, x => x
  | .bool, x => V.asBool x
  | .list, x => V.asList x
  | .fn t, x => fun y => ofVal t (V.apply x y)

def choose (t : Ty) : Option Bool → V.Den t → V.Den t → V.Den t
  | none, _, _ => V.undefined t
  | some b, x, y => bif b then x else y

/-- A function at a type of functions. -/
def onFn (t : Ty) (d : V.Den t) (k : (t : Ty) → V.D → V.Den t) : V.Den t :=
  match t with
  | .fn t => k t
  | _ => d

def onList (t : Ty) (d : V.Den t) (l : Approximations V.D) : V.Den t :=
  match t with
  | .list => l
  | _ => d

def onBool (t : Ty) (d : V.Den t) (b : Option Bool) : V.Den t :=
  match t with
  | .bool => b
  | _ => d

mutual

def den : (t : Ty) → HsExp Decl Other → V.Env → V.Den t
  | t, .hsVar n, ρ => V.ofVal t (ρ n)
  | t, .hsParen e, ρ => den t e ρ
  | t, .hsLet ds e, ρ => den t e (V.declare ds ρ)
  | t, .hsIf c a b, ρ => V.choose t (den .bool c ρ) (den t a ρ) (den t b ρ)
  | t, .hsLambda [p] e, ρ => V.onFn t (V.ofVal t (V.other (.hsLambda [p] e) ρ)) fun t x =>
    match V.matchPat p x ρ with
    | .binds σ => den t e σ
    | _ => V.undefined t
  | t, .hsLCase as, ρ =>
    V.onFn t (V.ofVal t (V.other (.hsLCase as) ρ)) fun t x => denAlts t as x ρ
  | t, .hsList es, ρ =>
    V.onList t (V.ofVal t (V.other (.hsList es) ρ)) (.const (.ofList (denArgs es ρ)))
  | t, .hsApp (.hsApp (.hsVar n) a) b, ρ =>
    let d := V.ofVal t (V.other (.hsApp (.hsApp (.hsVar n) a) b) ρ)
    if n = v_and then
      V.onBool t d (V.choose .bool (den .bool a ρ) (den .bool b ρ) (some false))
    else if n = v_map then
      V.onList t d (.map (den (.fn .val) a ρ) (den .list b ρ))
    else if n = v_concatMap then
      V.onList t d (.bind (den .list b ρ) (den (.fn .list) a ρ))
    else if n = v_filter then
      V.onList t d (.filter (den (.fn .bool) a ρ) (den .list b ρ))
    else d
  | t, .hsApp (.hsVar n) a, ρ =>
    let d := V.ofVal t (V.other (.hsApp (.hsVar n) a) ρ)
    if n = v_concat then V.onList t d (.bind (den .list a ρ) V.asList) else d
  | t, e, ρ => V.ofVal t (V.other e ρ)

def denArgs : List (HsExp Decl Other) → V.Env → List V.D
  | [], _ => []
  | e :: es, ρ => den .val e ρ :: denArgs es ρ

/-- The first alternative that matches. -/
def denAlts (t : Ty) : List (HsAlt Decl Other) → V.D → V.Env → V.Den t
  | [], _, _ => V.undefined t
  | a :: as, x, ρ => denAlt t a x ρ (denAlts t as x ρ)

def denAlt (t : Ty) : HsAlt Decl Other → V.D → V.Env → V.Den t → V.Den t
  | .mk p rhs ds, x, ρ, rest =>
    match V.matchPat p x ρ with
    | .diverges => V.undefined t
    | .fails => rest
    | .binds σ => denRhs t rhs (V.declare ds σ) rest

def denRhs (t : Ty) : HsRhs Decl Other → V.Env → V.Den t → V.Den t
  | .hsUnGuardedRhs e, ρ, _ => den t e ρ
  | .hsGuardedRhss gs, ρ, rest => denComps t gs ρ rest

def denComps (t : Ty) : List (HsComp Decl Other) → V.Env → V.Den t → V.Den t
  | [], _, rest => rest
  | c :: cs, ρ, rest => denComp t c ρ (denComps t cs ρ rest)

def denComp (t : Ty) : HsComp Decl Other → V.Env → V.Den t → V.Den t
  | .mk ss e, ρ, rest =>
    match denGuards ss ρ with
    | .diverges => V.undefined t
    | .fails => rest
    | .binds σ => den t e σ

def denGuards : List (HsStmt Decl Other) → V.Env → Outcome V.Env
  | [], ρ => .binds ρ
  | s :: ss, ρ => (denGuard s ρ).andThen (denGuards ss)

def denGuard : HsStmt Decl Other → V.Env → Outcome V.Env
  | .hsGenerator p e, ρ => V.matchPat p (den .val e ρ) ρ
  | .hsQualifier q, ρ =>
    match den .bool q ρ with
    | none => .diverges
    | some b => bif b then .binds ρ else .fails
  | .hsLetStmt ds, ρ => .binds (V.declare ds ρ)

end

attribute [local grind =] matchPat den

end Values

end Jhc.ListComp

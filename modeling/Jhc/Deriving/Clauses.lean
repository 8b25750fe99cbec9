import Jhc.Deriving.Text

/-!
# Generated clauses (Deriving/Util.hs:42-51; FrontEnd/Syn/Q.hs:14-33)

The part of the syntax that derived comparisons are written in, and what it
means. Values may be undefined, also inside a constructor.
-/

namespace Jhc.Deriving
open Jhc.Text (Str)

/-! ### Syntax (FrontEnd/HsSyn.hs) -/

inductive HsPat where
  | HsPVar (n : Name)
  | HsPApp (c : Name) (ps : List HsPat)
  | HsPWildCard

inductive HsExp where
  | HsVar (n : Name)
  | HsCon (c : Name)
  | HsApp (f a : HsExp)
  | HsParen (e : HsExp)
  | HsCase (e : HsExp) (alts : List (HsPat × HsExp))

structure HsMatch where
  hsMatchName : Name
  hsMatchPats : List HsPat
  hsMatchRhs : HsExp

def app2 (e a b : HsExp) : HsExp := .HsApp (.HsApp e a) b

/-! ### Names and fresh names -/

def v_equals : Name := ⟨"Jhc.Class.Ord".toList, "==".toList⟩
def v_and : Name := ⟨"Jhc.Order".toList, "&&".toList⟩
def v_compare : Name := ⟨"Jhc.Class.Ord".toList, "compare".toList⟩
def dc_True : Name := ⟨"Jhc.Prim.Prim".toList, "True".toList⟩
def dc_False : Name := ⟨"Jhc.Prim.Prim".toList, "False".toList⟩
def dc_LT : Name := ⟨"Jhc.Prim.Prim".toList, "LT".toList⟩
def dc_EQ : Name := ⟨"Jhc.Prim.Prim".toList, "EQ".toList⟩
def dc_GT : Name := ⟨"Jhc.Prim.Prim".toList, "GT".toList⟩

/-- The next unique number. -/
abbrev Q := StateM ℕ

def newVarN (s : Str) : Q Name := fun u => (⟨[], s ++ Nat.toDigits 10 u⟩, u + 1)

def mkPat {T : Type} (b : Body T) : Q (HsPat × List HsExp) := do
  let pvars ← b.types.mapM fun _ => newVarN ['p']
  return (.HsPApp b.constructor (pvars.map .HsPVar), pvars.map .HsVar)

/-! ### Values -/

inductive V (X : Type) where
  | bot
  | con (c : Name) (args : List (V X))
  | ext (x : X)

variable {X : Type}

def V.bool : Option Bool → V X
  | none => .bot
  | some true => .con dc_True []
  | some false => .con dc_False []

def V.ordering : Option Ordering → V X
  | none => .bot
  | some .lt => .con dc_LT []
  | some .eq => .con dc_EQ []
  | some .gt => .con dc_GT []

/-- The instances at the types of the fields; `none` is undefined. -/
structure Compares (X : Type) where
  equals : V X → V X → Option Bool
  compare : V X → V X → Option Ordering

/-- `True && x = x; False && _ = False` (lib/jhc/Jhc/Order.hs:69-70). -/
def V.and (v w : V X) : V X :=
  match v with
  | .con c [] => if c = dc_True then w else if c = dc_False then .con dc_False [] else .bot
  | _ => .bot

/-- What becomes of a value at a pattern. -/
inductive Matched (X : Type) where
  | diverges
  | fails
  | binds (ρ : List (Name × V X))

def Matched.andThen : Matched X → Matched X → Matched X
  | .binds ρ, .binds ρ' => .binds (ρ ++ ρ')
  | .binds _, m => m
  | m, _ => m

mutual

def matchPat : HsPat → V X → Matched X
  | .HsPVar n, v => .binds [(n, v)]
  | .HsPWildCard, _ => .binds []
  | .HsPApp c ps, .con c' vs => if c = c' then matchPats ps vs else .fails
  | .HsPApp _ _, _ => .diverges

/-- From left to right. -/
def matchPats : List HsPat → List (V X) → Matched X
  | p :: ps, v :: vs => (matchPat p v).andThen (matchPats ps vs)
  | [], [] => .binds []
  | _, _ => .fails

end

@[simp] theorem fails_andThen (m : Matched X) : Matched.fails.andThen m = .fails := rfl

@[simp] theorem diverges_andThen (m : Matched X) : Matched.diverges.andThen m = .diverges := rfl

@[simp] theorem binds_andThen_fails (ρ : List (Name × V X)) :
    (Matched.binds ρ).andThen .fails = .fails := rfl

@[simp] theorem binds_andThen_diverges (ρ : List (Name × V X)) :
    (Matched.binds ρ).andThen .diverges = .diverges := rfl

@[simp] theorem binds_andThen_binds (ρ ρ' : List (Name × V X)) :
    (Matched.binds ρ).andThen (.binds ρ') = .binds (ρ ++ ρ') := rfl

@[simp] theorem matchPats_nil : matchPats [] ([] : List (V X)) = .binds [] := by
  rw [matchPats]

@[simp] theorem matchPats_cons (p : HsPat) (ps : List HsPat) (v : V X) (vs : List (V X)) :
    matchPats (p :: ps) (v :: vs) = (matchPat p v).andThen (matchPats ps vs) := by
  rw [matchPats]

@[simp] theorem matchPat_bot (c : Name) (ps : List HsPat) :
    matchPat (.HsPApp c ps) (V.bot : V X) = .diverges := by
  rw [matchPat]
  intro c' vs h
  cases h

@[simp] theorem matchPat_con (c : Name) (ps : List HsPat) (vs : List (V X)) :
    matchPat (.HsPApp c ps) (.con c vs) = matchPats ps vs := by
  rw [matchPat, if_pos rfl]

theorem matchPat_con_ne {c c' : Name} (h : c ≠ c') (ps : List HsPat) (vs : List (V X)) :
    matchPat (.HsPApp c ps) (.con c' vs) = .fails := by
  rw [matchPat, if_neg h]

def lookupVar (ρ : List (Name × V X)) (n : Name) : V X := (ρ.lookup n).getD .bot

mutual

def eval (I : Compares X) (ρ : List (Name × V X)) : HsExp → V X
  | .HsVar n => lookupVar ρ n
  | .HsCon c => .con c []
  | .HsParen e => eval I ρ e
  | .HsCase e alts => evalAlts I ρ (eval I ρ e) alts
  | .HsApp (.HsApp (.HsVar n) a) b =>
    if n = v_and then V.and (eval I ρ a) (eval I ρ b)
    else if n = v_equals then V.bool (I.equals (eval I ρ a) (eval I ρ b))
    else if n = v_compare then V.ordering (I.compare (eval I ρ a) (eval I ρ b))
    else .bot
  | .HsApp f a =>
    match eval I ρ f with
    | .con c args => .con c (args ++ [eval I ρ a])
    | _ => .bot

def evalAlts (I : Compares X) (ρ : List (Name × V X)) (v : V X) : List (HsPat × HsExp) → V X
  | [] => .bot
  | (p, e) :: alts =>
    match matchPat p v with
    | .diverges => .bot
    | .fails => evalAlts I ρ v alts
    | .binds ρ' => eval I (ρ' ++ ρ) e

end

attribute [local grind =] eval evalAlts

theorem eval_op (I : Compares X) (ρ : List (Name × V X)) (n : Name) (a b : HsExp) :
    eval I ρ (app2 (.HsVar n) a b) =
      if n = v_and then V.and (eval I ρ a) (eval I ρ b)
      else if n = v_equals then V.bool (I.equals (eval I ρ a) (eval I ρ b))
      else if n = v_compare then V.ordering (I.compare (eval I ρ a) (eval I ρ b))
      else .bot := by
  rw [app2, eval]

/-- The first clause that matches; an error where there is none. -/
def call (I : Compares X) : List HsMatch → List (V X) → V X
  | [], _ => .bot
  | m :: ms, vs =>
    match matchPats m.hsMatchPats vs with
    | .diverges => .bot
    | .fails => call I ms vs
    | .binds ρ => eval I ρ m.hsMatchRhs

attribute [local grind =] call

end Jhc.Deriving

import Mathlib

/-!
# The precedence parser (FrontEnd/Lex/Fixity.hs:9-13, 31-118)

Two stacks, of operators and of expressions. A token that is an operand after an operand
pushes the application, which has no token.
-/

namespace Jhc.FrontEnd

inductive Fixity where
  | L
  | R
  | N
  | Prefix
  | Prefixy
  | Postfix
  deriving DecidableEq, Repr

abbrev Prec := Fixity × ℤ

/-- Where the source calls `fail`, or has no case. -/
inductive Failure (t : Type) where
  | unspecified
  | emptyInput
  | trailingOps (op : t)
  | equalFixity (p : Prec) (ops : List (Option t))
  | noCase
  deriving Repr

structure S (t e : Type) where
  stack : List (Option t × Prec)
  output : List e
  lastWasOp : Bool

def initialState {t e : Type} : S t e := ⟨[], [], true⟩

structure ShuntSpec (t e : Type) where
  appPrec : Prec
  lookupToken : t → Except (Failure t) (e ⊕ Prec)
  lookupUnary : t → Except (Failure t) (Option ℤ)
  application : e → e → Except (Failure t) e
  operator : t → List e → Except (Failure t) e
  emptyInput : Except (Failure t) e
  trailingOps : e → t → Except (Failure t) e
  equalFixity : Prec → List (Option t) → Except (Failure t) e

def shuntSpec {t e : Type} : ShuntSpec t e where
  appPrec := (.L, 10)
  lookupToken _ := .error .unspecified
  lookupUnary _ := .error .unspecified
  application _ _ := .error .unspecified
  operator _ _ := .error .unspecified
  emptyInput := .error .emptyInput
  trailingOps _ t := .error (.trailingOps t)
  equalFixity p ts := .error (.equalFixity p ts)

/-- Whether the operator on the stack takes its operands before the one that follows. -/
def gt : Prec → Prec → Bool
  | _, (.Prefix, _) => false
  | (.Prefix, x), (_, y) => decide (x ≥ y)
  | (.L, x), (_, y) => decide (x ≥ y)
  | (_, x), (_, y) => decide (x > y)

section
variable {t e : Type} (spec : ShuntSpec t e)

def apop : Option t → List e → Except (Failure t) e
  | none, [x, y] => spec.application x y
  | some t', xs => spec.operator t' xs
  | none, _ => .error .noCase

/-- `k` is the call of `f` after the push. -/
def op (o : Option t × Prec) (me : Option e)
    (k : List (Option t × Prec) → List e → Except (Failure t) e) :
    List (Option t × Prec) → List e → Except (Failure t) e
  | [], output => k [o] (me.toList ++ output)
  | (t, prec') :: ss, output =>
    let prec := o.2
    let push := k (o :: (t, prec') :: ss) (me.toList ++ output)
    match output with
    | x :: rs =>
      if prec'.1 = .Prefix then
        if gt prec' prec then do
          let ne ← apop spec t [x]
          op o me k ss (ne :: rs)
        else push
      else
        match rs with
        | y :: rs =>
          if prec'.1 = .N ∧ prec' = prec then spec.equalFixity prec [t]
          else if gt prec' prec then do
            let ne ← apop spec t [y, x]
            op o me k ss (ne :: rs)
          else push
        | [] => push
    | [] => push

/-- `f` of the source, at the end of the tokens. -/
def finish : List (Option t × Prec) → List e → Except (Failure t) e
  | [], [e] => pure e
  | [], [] => spec.emptyInput
  | (t, p) :: ss, x :: os =>
    if p.1 = .Prefix then do
      let ne ← apop spec t [x]
      finish ss (ne :: os)
    else
      match os with
      | y :: os => do
        let ne ← apop spec t [y, x]
        finish ss (ne :: os)
      | [] =>
        match t with
        | some t => do
          let ne ← spec.trailingOps x t
          finish ss [ne]
        | none => .error .noCase
  | _, _ => .error .noCase

def f (s : S t e) : List t → Except (Failure t) e
  | [] => finish spec s.stack s.output
  | t :: ts => do
    let x ← spec.lookupToken t
    match x, _h : s.lastWasOp with
    | .inl o, true => f { s with output := o :: s.output, lastWasOp := false } ts
    | .inl _, false =>
      op spec (none, spec.appPrec) none (fun stack output => f ⟨stack, output, true⟩ (t :: ts)) s.stack s.output
    | .inr (.Prefix, _), false =>
      op spec (none, spec.appPrec) none (fun stack output => f ⟨stack, output, true⟩ (t :: ts)) s.stack s.output
    | .inr p, false =>
      op spec (some t, p) none (fun stack output => f ⟨stack, output, true⟩ ts) s.stack s.output
    | .inr (.Prefix, n), true =>
      op spec (some t, (.Prefix, n)) none (fun stack output => f ⟨stack, output, true⟩ ts) s.stack s.output
    | .inr (_, n), true => do
      let mn ← spec.lookupUnary t
      op spec (some t, (.Prefix, mn.getD n)) none (fun stack output => f ⟨stack, output, true⟩ ts)
        s.stack s.output
  termination_by ts => 2 * ts.length + if s.lastWasOp then 0 else 1
  decreasing_by all_goals first | (simp_all; done) | (simp_all; omega)

def shunt (xs : List t) : Except (Failure t) e := f spec initialState xs

attribute [local grind =] gt op finish

end

end Jhc.FrontEnd

/-!
# Infix expressions (FrontEnd/Infix.hs:17-74; FrontEnd/HsSyn.hs:294-334, 465-472)

What the precedence parser does with the tokens of an expression.
-/

namespace Jhc.FrontEnd

abbrev Name := String

/-- `other` stands for the forms that are operands and that no function here looks into. -/
inductive HsExp where
  | hsVar (n : Name)
  | hsCon (n : Name)
  | hsLit (l : String)
  | hsApp (f x : HsExp)
  | hsTuple (es : List HsExp)
  | hsUnboxedTuple (es : List HsExp)
  | hsAsPat (n : Name) (e : HsExp)
  | hsLocatedExp (sl : ℕ) (e : HsExp)
  | hsNegApp (e : HsExp)
  | hsLeftSection (op e : HsExp)
  | hsRightSection (e op : HsExp)
  | hsParen (e : HsExp)
  | hsBackTick (e : HsExp)
  | other (form : String)

def hsParen : HsExp → HsExp
  | .hsVar n => .hsVar n
  | .hsCon n => .hsCon n
  | .hsParen e => .hsParen e
  | .hsLit l => .hsLit l
  | .hsTuple es => .hsTuple es
  | .hsUnboxedTuple es => .hsUnboxedTuple es
  | .hsBackTick e => .hsBackTick e
  | e => .hsParen e

inductive HsAssoc where
  | hsAssocNone
  | hsAssocLeft
  | hsAssocRight
  | hsAssocPrefix
  | hsAssocPrefixy
  deriving DecidableEq, Repr

abbrev FixityInfo := ℤ × HsAssoc

abbrev SymbolMap := List (Name × FixityInfo)

def v_sub : Name := "Jhc.Class.Num.-"

section
variable (ism : SymbolMap)

def backtick : HsExp → Except (Failure HsExp) (HsExp ⊕ Prec)
  | .hsVar v => g v
  | .hsCon v => g v
  | _ => .error .noCase
where
  g (v : Name) : Except (Failure HsExp) (HsExp ⊕ Prec) := pure <|
    match ism.lookup v with
    | some (n, .hsAssocLeft) => .inr (.L, n)
    | some (n, .hsAssocRight) => .inr (.R, n)
    | some (n, .hsAssocNone) => .inr (.N, n)
    | some (n, .hsAssocPrefix) => .inr (.Prefix, n)
    | some (n, .hsAssocPrefixy) => .inr (.Prefixy, n)
    | none => .inr (.L, 9)

/-- `mr` puts back what stands around an operand. -/
def lookupToken : HsExp → Except (Failure HsExp) (HsExp ⊕ Prec)
  | .hsBackTick bt => backtick ism bt
  | .hsAsPat x v => do
    match ← lookupToken v with
    | .inl v => pure (.inl (.hsAsPat x v))
    | .inr p => pure (.inr p)
  | .hsLocatedExp sl v => do
    match ← lookupToken v with
    | .inl v => pure (.inl (.hsLocatedExp sl v))
    | .inr p => pure (.inr p)
  | t => pure (.inl t)

def application (e1 e2 : HsExp) : Except (Failure HsExp) HsExp := pure (.hsApp e1 (hsParen e2))

def operator : HsExp → List HsExp → Except (Failure HsExp) HsExp
  | .hsBackTick t, as => operator t as
  | .hsVar v, [e] => pure <| if v = v_sub then .hsNegApp (hsParen e) else .hsApp (.hsVar v) (hsParen e)
  | t, as => pure ((as.map hsParen).foldl .hsApp t)

def paren_operator : HsExp → List HsExp → Except (Failure HsExp) HsExp
  | .hsBackTick t, as => paren_operator t as
  | .hsVar v, [e] => pure <| if v = v_sub then .hsNegApp (hsParen e) else .hsRightSection (hsParen e) (.hsVar v)
  | t, [e] => pure (.hsRightSection (hsParen e) t)
  | t, as => operator t as

def trailingOps : HsExp → HsExp → Except (Failure HsExp) HsExp
  | e, .hsBackTick t => trailingOps e t
  | e, t => pure (.hsLeftSection t (hsParen e))

def expShuntSpec : ShuntSpec HsExp HsExp :=
  { shuntSpec with
    lookupToken := lookupToken ism
    lookupUnary := fun _ => pure none
    application := application
    operator := operator }

def pexpShuntSpec : ShuntSpec HsExp HsExp :=
  { expShuntSpec ism with
    operator := paren_operator
    trailingOps := trailingOps }

attribute [local grind =] lookupToken

end

end Jhc.FrontEnd

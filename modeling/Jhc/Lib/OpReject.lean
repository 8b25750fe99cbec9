import Jhc.Lib.OpResolve

/-!
# Lists of operators that are rejected

The algorithm of the Haskell 2010 report, section 10.6, with the reason for which it stops.
-/

namespace Jhc.Lib
universe u v
variable {α : Type u} {o : Type v}

inductive Reject where
  /-- adjacent operators of one precedence that are not both left- or both right-associative -/
  | illegalMix
  | operatorAsOperand
  | negUnderTighter
  | missingOperand
  | noOperator
  deriving DecidableEq, Repr

mutual

def parseNegOr (info : o → OpInfo) (op1 : OpInfo) : List (Token α o) → Except Reject (OpExp α o × List (Token α o))
  | .tExp e1 :: rest => parse1Or info op1 e1 rest
  | .tNeg :: rest =>
    if op1.prec < 6 then do
      let (r, rest') ← parseNegOr info ⟨6, .leftfix⟩ rest
      if _h : rest'.length ≤ rest.length then parse1Or info op1 (.neg r) rest' else .error .noOperator
    else .error .negUnderTighter
  | .tOp _ :: _ => .error .operatorAsOperand
  | [] => .error .missingOperand
  termination_by ts => ts.length

def parse1Or (info : o → OpInfo) (op1 : OpInfo) (e1 : OpExp α o) :
    List (Token α o) → Except Reject (OpExp α o × List (Token α o))
  | [] => .ok (e1, [])
  | .tOp op2 :: rest =>
    match order op1 (info op2) with
    | .illegal => .error .illegalMix
    | .left => .ok (e1, .tOp op2 :: rest)
    | .right => do
      let (r, rest') ← parseNegOr info (info op2) rest
      if _h : rest'.length ≤ rest.length then parse1Or info op1 (.opApp e1 op2 r) rest' else .error .noOperator
  | _ => .error .noOperator
  termination_by ts => ts.length

end

def resolveOr (info : o → OpInfo) (tokens : List (Token α o)) : Except Reject (OpExp α o) :=
  (parseNegOr info ⟨-1, .nonfix⟩ tokens).map Prod.fst

theorem toOption_bind {ε : Type} {β γ : Type u} (x : Except ε β) (k : β → Except ε γ) :
    (x >>= k).toOption = x.toOption.bind fun b => (k b).toOption := by
  cases x <;> rfl

theorem parseOr_toOption (info : o → OpInfo) (n : ℕ) :
    (∀ op1 (ts : List (Token α o)), ts.length < n → (parseNegOr info op1 ts).toOption = parseNeg info op1 ts) ∧
      ∀ op1 e₁ (ts : List (Token α o)), ts.length < n →
        (parse1Or info op1 e₁ ts).toOption = parse1 info op1 e₁ ts := by
  induction n with
  | zero => exact ⟨fun _ _ h => absurd h (Nat.not_lt_zero _), fun _ _ _ h => absurd h (Nat.not_lt_zero _)⟩
  | succ n ih =>
    constructor
    · intro op1 ts hts
      rw [parseNegOr.eq_def, parseNeg.eq_def]
      cases ts with
      | nil => rfl
      | cons t ts =>
        rw [List.length_cons] at hts
        cases t with
        | tExp e => exact ih.2 _ _ _ (by omega)
        | tOp op => rfl
        | tNeg =>
          simp only
          split
          · refine (toOption_bind _ _).trans ?_
            rw [ih.1 _ _ (by omega)]
            refine Option.bind_congr fun x hx => ?_
            have hlen := Nat.le_of_lt (parse_length.1 _ _ _ _ hx)
            rw [dif_pos hlen, dif_pos hlen]
            exact ih.2 _ _ _ (by omega)
          · rfl
    · intro op1 e₁ ts hts
      rw [parse1Or.eq_def, parse1.eq_def]
      cases ts with
      | nil => rfl
      | cons t ts =>
        rw [List.length_cons] at hts
        cases t with
        | tExp e => rfl
        | tNeg => rfl
        | tOp op =>
          simp only
          cases order op1 (info op) with
          | illegal => rfl
          | left => rfl
          | right =>
            refine (toOption_bind _ _).trans ?_
            rw [ih.1 _ _ (by omega)]
            refine Option.bind_congr fun x hx => ?_
            have hlen := Nat.le_of_lt (parse_length.1 _ _ _ _ hx)
            rw [dif_pos hlen, dif_pos hlen]
            exact ih.2 _ _ _ (by omega)

/-- A reason is given exactly where the algorithm has no result. -/
theorem resolveOr_toOption (info : o → OpInfo) (ts : List (Token α o)) :
    (resolveOr info ts).toOption = resolve info ts := by
  rw [resolve, ← (parseOr_toOption info (ts.length + 1)).1 _ _ (Nat.lt_succ_self _), resolveOr]
  cases parseNegOr info ⟨-1, .nonfix⟩ ts <;> rfl

/-! ### Operands and operators by position -/

/-- `true` where an operand is awaited: there the operator of negation is a negation. -/
def readWords (isNeg : o → Bool) : Bool → List (α ⊕ o) → List (Word α o)
  | _, [] => []
  | _, .inl x :: xs => .operand x :: readWords isNeg false xs
  | true, .inr op :: xs => (if isNeg op then .neg else .op op) :: readWords isNeg true xs
  | false, .inr op :: xs => .op op :: readWords isNeg true xs

attribute [local grind =] readWords

end Jhc.Lib

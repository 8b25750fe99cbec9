import Mathlib.Tactic.Common
import Mathlib.Tactic.SplitIfs
import Mathlib.Data.Int.Notation
import Mathlib.Data.List.Basic

/-!
# Resolution of operators

The algorithm of the Haskell 2010 report, section 10.6, over any operands and operators:
a list of operands, operators and negations, in which adjacent operands are an
application, is read as a tree.
-/

namespace Jhc.Lib
universe u v
variable {α : Type u} {o : Type v}

inductive Assoc where
  | leftfix
  | rightfix
  | nonfix
  deriving DecidableEq, Repr

structure OpInfo where
  prec : ℤ
  fix : Assoc

/-- The tree; operands keep their order. -/
inductive OpExp (α : Type u) (o : Type v) where
  | var (x : α)
  | app (f x : OpExp α o)
  | opApp (e₁ : OpExp α o) (op : o) (e₂ : OpExp α o)
  | neg (e : OpExp α o)

inductive Word (α : Type u) (o : Type v) where
  | operand (x : α)
  | op (op : o)
  | neg

/-- A token of the report, whose operands are applications already. -/
inductive Token (α : Type u) (o : Type v) where
  | tExp (e : OpExp α o)
  | tOp (op : o)
  | tNeg

/-- Adjacent operands are an application; `f` is what was read of one. -/
def applications : Option (OpExp α o) → List (Word α o) → List (Token α o)
  | none, [] => []
  | some f, [] => [.tExp f]
  | none, .operand x :: ws => applications (some (.var x)) ws
  | some f, .operand x :: ws => applications (some (.app f (.var x))) ws
  | none, .op op :: ws => .tOp op :: applications none ws
  | some f, .op op :: ws => .tExp f :: .tOp op :: applications none ws
  | none, .neg :: ws => .tNeg :: applications none ws
  | some f, .neg :: ws => .tExp f :: .tNeg :: applications none ws

attribute [local grind =] applications

theorem applications_some (f : OpExp α o) (ws : List (Word α o)) :
    ∃ e r, applications (some f) ws = .tExp e :: r := by
  induction ws generalizing f with
  | nil => exact ⟨f, [], rfl⟩
  | cons w ws ih =>
    cases w with
    | operand x => exact ih (.app f (.var x))
    | op op => exact ⟨f, _, rfl⟩
    | neg => exact ⟨f, _, rfl⟩

section
variable {ws : List (Word α o)} {r : List (Token α o)}

theorem applications_tExp {e : OpExp α o} (h : applications none ws = .tExp e :: r) :
    ∃ x ws', ws = .operand x :: ws' := by
  cases ws with
  | nil => cases h
  | cons w ws =>
    cases w with
    | operand x => exact ⟨x, ws, rfl⟩
    | op op => cases h
    | neg => cases h

theorem applications_tOp {op : o} (h : applications none ws = .tOp op :: r) :
    ∃ ws', ws = .op op :: ws' ∧ applications none ws' = r := by
  cases ws with
  | nil => cases h
  | cons w ws =>
    cases w with
    | operand x =>
      obtain ⟨e, r', he⟩ := applications_some (.var x) ws
      cases he.symm.trans h
    | op op =>
      cases h
      exact ⟨ws, rfl, rfl⟩
    | neg => cases h

theorem applications_tNeg (h : applications none ws = .tNeg :: r) :
    ∃ ws', ws = .neg :: ws' ∧ applications none ws' = r := by
  cases ws with
  | nil => cases h
  | cons w ws =>
    cases w with
    | operand x =>
      obtain ⟨e, r', he⟩ := applications_some (.var x) ws
      cases he.symm.trans h
    | op op => cases h
    | neg =>
      cases h
      exact ⟨ws, rfl, rfl⟩

theorem applications_nil (h : applications none ws = []) : ws = [] := by
  cases ws with
  | nil => rfl
  | cons w ws =>
    cases w with
    | operand x =>
      obtain ⟨e, r', he⟩ := applications_some (.var x) ws
      cases he.symm.trans h
    | op op => cases h
    | neg => cases h

end

/-! ### The algorithm -/

section
variable (info : o → OpInfo)

/-- What is done at an operator `op2` when `op1` is the one before. -/
inductive Order where
  | illegal
  | left
  | right
  deriving DecidableEq

def order (op1 op2 : OpInfo) : Order :=
  if op1.prec = op2.prec ∧ (op1.fix ≠ op2.fix ∨ op1.fix = .nonfix) then .illegal
  else if op1.prec > op2.prec ∨ (op1.prec = op2.prec ∧ op1.fix = .leftfix) then .left
  else .right

theorem order_left {op1 op2 : OpInfo} (h : order op1 op2 = .left) :
    op1.prec > op2.prec ∨ (op1.prec = op2.prec ∧ op1.fix = .leftfix) := by
  unfold order at h
  split_ifs at h with _ hleft
  exact hleft

theorem order_right {op1 op2 : OpInfo} (h : order op1 op2 = .right) :
    op1.prec < op2.prec ∨ (op1.prec = op2.prec ∧ op1.fix = .rightfix ∧ op2.fix = .rightfix) := by
  unfold order at h
  split_ifs at h with hill hleft
  by_cases heq : op1.prec = op2.prec
  · have hfix : op1.fix = op2.fix ∧ op1.fix ≠ .nonfix := by
      constructor
      · by_contra hne
        exact hill ⟨heq, .inl hne⟩
      · exact fun hnon => hill ⟨heq, .inr hnon⟩
    have hnot : op1.fix ≠ .leftfix := fun hl => hleft (.inr ⟨heq, hl⟩)
    cases hfix₁ : op1.fix with
    | leftfix => exact absurd hfix₁ hnot
    | rightfix => exact .inr ⟨heq, rfl, by rw [← hfix.1, hfix₁]⟩
    | nonfix => exact absurd hfix₁ hfix.2
  · have hle : ¬ op1.prec > op2.prec := fun h => hleft (.inl h)
    exact .inl (by omega)

-- the rest is never longer (`parse_length`), so the test for termination never fails
mutual

def parseNeg (op1 : OpInfo) : List (Token α o) → Option (OpExp α o × List (Token α o))
  | .tExp e1 :: rest => parse1 op1 e1 rest
  | .tNeg :: rest =>
    if op1.prec < 6 then do
      let (r, rest') ← parseNeg ⟨6, .leftfix⟩ rest
      if _h : rest'.length ≤ rest.length then parse1 op1 (.neg r) rest' else none
    else none
  | _ => none
  termination_by ts => ts.length

def parse1 (op1 : OpInfo) (e1 : OpExp α o) : List (Token α o) → Option (OpExp α o × List (Token α o))
  | [] => some (e1, [])
  | .tOp op2 :: rest =>
    match order op1 (info op2) with
    | .illegal => none
    | .left => some (e1, .tOp op2 :: rest)
    | .right => do
      let (r, rest') ← parseNeg (info op2) rest
      if _h : rest'.length ≤ rest.length then parse1 op1 (.opApp e1 op2 r) rest' else none
  | _ => none
  termination_by ts => ts.length

end

end

def resolve (info : o → OpInfo) (tokens : List (Token α o)) : Option (OpExp α o) :=
  (parseNeg info ⟨-1, .nonfix⟩ tokens).map Prod.fst

section
variable {info : o → OpInfo} {op1 : OpInfo} {e e₁ : OpExp α o} {ts rest : List (Token α o)}

theorem parseNeg_some (h : parseNeg info op1 ts = some (e, rest)) :
    (∃ e₁ r, ts = .tExp e₁ :: r ∧ parse1 info op1 e₁ r = some (e, rest)) ∨
      ∃ r x r', ts = .tNeg :: r ∧ op1.prec < 6 ∧ parseNeg info ⟨6, .leftfix⟩ r = some (x, r') ∧
        r'.length ≤ r.length ∧ parse1 info op1 (.neg x) r' = some (e, rest) := by
  rw [parseNeg.eq_def] at h
  split at h
  · exact .inl ⟨_, _, rfl, h⟩
  · split at h
    · next hprec =>
      simp only [Option.bind_eq_bind, Option.bind_eq_some_iff] at h
      obtain ⟨⟨x, r'⟩, hx, h⟩ := h
      split at h
      · next hlen => exact .inr ⟨_, x, r', rfl, hprec, hx, hlen, h⟩
      · cases h
    · cases h
  · cases h

theorem parse1_some (h : parse1 info op1 e₁ ts = some (e, rest)) :
    (ts = [] ∧ e = e₁ ∧ rest = []) ∨
      (∃ op2 r, ts = .tOp op2 :: r ∧ order op1 (info op2) = .left ∧ e = e₁ ∧ rest = .tOp op2 :: r) ∨
      ∃ op2 r x r', ts = .tOp op2 :: r ∧ order op1 (info op2) = .right ∧
        parseNeg info (info op2) r = some (x, r') ∧ r'.length ≤ r.length ∧
        parse1 info op1 (.opApp e₁ op2 x) r' = some (e, rest) := by
  rw [parse1.eq_def] at h
  split at h
  · cases h
    exact .inl ⟨rfl, rfl, rfl⟩
  · split at h
    · cases h
    · next horder =>
      cases h
      exact .inr (.inl ⟨_, _, rfl, horder, rfl, rfl⟩)
    · next horder =>
      simp only [Option.bind_eq_bind, Option.bind_eq_some_iff] at h
      obtain ⟨⟨x, r'⟩, hx, h⟩ := h
      split at h
      · next hlen => exact .inr (.inr ⟨_, _, x, r', rfl, horder, hx, hlen, h⟩)
      · cases h
  · cases h

/-- What each step of the algorithm keeps holds of all that it reads. -/
theorem parse_induct {P : OpInfo → List (Token α o) → OpExp α o → List (Token α o) → Prop}
    {Q : OpInfo → OpExp α o → List (Token α o) → OpExp α o → List (Token α o) → Prop}
    (exp : ∀ op1 e₁ r e rest, Q op1 e₁ r e rest → P op1 (.tExp e₁ :: r) e rest)
    (neg : ∀ op1 r x r' e rest, op1.prec < 6 → P ⟨6, .leftfix⟩ r x r' → Q op1 (.neg x) r' e rest →
      P op1 (.tNeg :: r) e rest)
    (nil : ∀ op1 e₁, Q op1 e₁ [] e₁ [])
    (left : ∀ op1 e₁ op2 r, order op1 (info op2) = .left → Q op1 e₁ (.tOp op2 :: r) e₁ (.tOp op2 :: r))
    (right : ∀ op1 e₁ op2 r x r' e rest, order op1 (info op2) = .right → P (info op2) r x r' →
      Q op1 (.opApp e₁ op2 x) r' e rest → Q op1 e₁ (.tOp op2 :: r) e rest) :
    (∀ op1 ts e rest, parseNeg info op1 ts = some (e, rest) → P op1 ts e rest) ∧
      ∀ op1 e₁ ts e rest, parse1 info op1 e₁ ts = some (e, rest) → Q op1 e₁ ts e rest := by
  have main : ∀ n, (∀ op1 ts e rest, ts.length < n → parseNeg info op1 ts = some (e, rest) → P op1 ts e rest) ∧
      ∀ op1 e₁ ts e rest, ts.length < n → parse1 info op1 e₁ ts = some (e, rest) → Q op1 e₁ ts e rest := by
    intro n
    induction n with
    | zero => exact ⟨fun _ _ _ _ h => absurd h (Nat.not_lt_zero _), fun _ _ _ _ _ h => absurd h (Nat.not_lt_zero _)⟩
    | succ n ih =>
      constructor
      · intro op1 ts e rest hlt h
        rcases parseNeg_some h with ⟨e₁, r, rfl, h'⟩ | ⟨r, x, r', rfl, hprec, hx, hlen, h'⟩
        · rw [List.length_cons] at hlt
          exact exp _ _ _ _ _ (ih.2 _ _ _ _ _ (by omega) h')
        · rw [List.length_cons] at hlt
          exact neg _ _ _ _ _ _ hprec (ih.1 _ _ _ _ (by omega) hx) (ih.2 _ _ _ _ _ (by omega) h')
      · intro op1 e₁ ts e rest hlt h
        rcases parse1_some h with ⟨rfl, rfl, rfl⟩ | ⟨op2, r, rfl, horder, rfl, rfl⟩ |
          ⟨op2, r, x, r', rfl, horder, hx, hlen, h'⟩
        · exact nil _ _
        · exact left _ _ _ _ horder
        · rw [List.length_cons] at hlt
          exact right _ _ _ _ _ _ _ _ horder (ih.1 _ _ _ _ (by omega) hx) (ih.2 _ _ _ _ _ (by omega) h')
  exact ⟨fun op1 ts e rest => (main _).1 op1 ts e rest (Nat.lt_succ_self _),
    fun op1 e₁ ts e rest => (main _).2 op1 e₁ ts e rest (Nat.lt_succ_self _)⟩

/-- What is left is empty or starts with an operator that ends the operand of `op1`. -/
def Stops (info : o → OpInfo) (op1 : OpInfo) (rest : List (Token α o)) : Prop :=
  rest = [] ∨ ∃ op r, rest = .tOp op :: r ∧ order op1 (info op) = .left

theorem parse_stops :
    (∀ op1 ts e (rest : List (Token α o)), parseNeg info op1 ts = some (e, rest) → Stops info op1 rest) ∧
      ∀ op1 e₁ ts e (rest : List (Token α o)), parse1 info op1 e₁ ts = some (e, rest) → Stops info op1 rest :=
  parse_induct (fun _ _ _ _ _ h => h) (fun _ _ _ _ _ _ _ _ h => h) (fun _ _ => .inl rfl)
    (fun _ _ op2 r horder => .inr ⟨op2, r, rfl, horder⟩) (fun _ _ _ _ _ _ _ _ _ _ h => h)

/-- The rest is shorter, as the test for termination has it. -/
theorem parse_length :
    (∀ op1 ts e (rest : List (Token α o)), parseNeg info op1 ts = some (e, rest) → rest.length < ts.length) ∧
      ∀ op1 e₁ ts e (rest : List (Token α o)), parse1 info op1 e₁ ts = some (e, rest) →
        rest.length ≤ ts.length := by
  refine parse_induct ?_ ?_ (fun _ _ => Nat.le_refl _) (fun _ _ _ _ _ => Nat.le_refl _) ?_
  · intro _ _ _ _ _ h
    exact Nat.lt_succ_of_le h
  · intro _ _ _ _ _ _ _ hr h
    rw [List.length_cons]
    omega
  · intro _ _ _ _ _ _ _ _ _ hr h
    rw [List.length_cons]
    omega

theorem parseNeg_neg {r : List (Token α o)} (h : op1.prec < 6) :
    parseNeg info op1 (.tNeg :: r) =
      (parseNeg info ⟨6, .leftfix⟩ r).bind fun x => parse1 info op1 (.neg x.1) x.2 := by
  rw [parseNeg.eq_def]
  simp only [if_pos h, Option.bind_eq_bind]
  refine Option.bind_congr fun x hx => ?_
  rw [dif_pos (Nat.le_of_lt (parse_length.1 _ _ _ _ hx))]

theorem parse1_right {op2 : o} {r : List (Token α o)} (h : order op1 (info op2) = .right) :
    parse1 info op1 e₁ (.tOp op2 :: r) =
      (parseNeg info (info op2) r).bind fun x => parse1 info op1 (.opApp e₁ op2 x.1) x.2 := by
  rw [parse1.eq_def]
  simp only [h, Option.bind_eq_bind]
  refine Option.bind_congr fun x hx => ?_
  rw [dif_pos (Nat.le_of_lt (parse_length.1 _ _ _ _ hx))]

end

/-! ### Order of the words -/

def OpExp.inorder : OpExp α o → List (Word α o)
  | .var x => [.operand x]
  | .app f x => f.inorder ++ x.inorder
  | .opApp e₁ op e₂ => e₁.inorder ++ .op op :: e₂.inorder
  | .neg e => .neg :: e.inorder

def Token.words : Token α o → List (Word α o)
  | .tExp e => e.inorder
  | .tOp op => [.op op]
  | .tNeg => [.neg]

theorem words_applications (ws : List (Word α o)) (f : Option (OpExp α o)) :
    (applications f ws).flatMap Token.words = f.elim [] OpExp.inorder ++ ws := by
  induction ws generalizing f with
  | nil => cases f <;> simp [applications, Token.words]
  | cons w ws ih => cases f <;> cases w <;> simp [applications, Token.words, OpExp.inorder, ih]

theorem inorder_parse {info : o → OpInfo} :
    (∀ op1 (ts : List (Token α o)) e rest, parseNeg info op1 ts = some (e, rest) →
        e.inorder ++ rest.flatMap Token.words = ts.flatMap Token.words) ∧
      ∀ op1 e₁ (ts : List (Token α o)) e rest, parse1 info op1 e₁ ts = some (e, rest) →
        e.inorder ++ rest.flatMap Token.words = e₁.inorder ++ ts.flatMap Token.words := by
  refine parse_induct ?_ ?_ (fun _ _ => rfl) (fun _ _ _ _ _ => rfl) ?_
  · intro _ _ _ _ _ h
    exact h
  · intro _ r x r' _ _ _ hr h
    rw [h, OpExp.inorder, List.cons_append, hr]
    rfl
  · intro _ e₁ op2 r x r' _ _ _ hr h
    rw [h, OpExp.inorder, List.append_assoc, List.cons_append, hr]
    rfl

/-- Where no operator has the precedence of the one that is put before, nothing is left. -/
theorem resolve_some {info : o → OpInfo} {ts : List (Token α o)} {e : OpExp α o}
    (hinfo : ∀ op, 0 ≤ (info op).prec) (h : resolve info ts = some e) :
    parseNeg info ⟨-1, .nonfix⟩ ts = some (e, []) := by
  obtain ⟨⟨e', rest⟩, hparse, rfl⟩ := Option.map_eq_some_iff.1 h
  rcases parse_stops.1 _ _ _ _ hparse with hrest | ⟨op, r, -, horder⟩
  · rw [hparse, hrest]
  · have hop := hinfo op
    rcases order_left horder with hgt | ⟨-, hfix⟩
    · simp only at hgt
      omega
    · cases hfix

/-- A tree that is resolved has the words of the list in their order. -/
theorem inorder_resolve {info : o → OpInfo} {ws : List (Word α o)} {e : OpExp α o}
    (hinfo : ∀ op, 0 ≤ (info op).prec) (h : resolve info (applications none ws) = some e) : e.inorder = ws := by
  have hwords := inorder_parse.1 _ _ _ _ (resolve_some hinfo h)
  rwa [words_applications, List.flatMap_nil, List.append_nil] at hwords

end Jhc.Lib

/-!
# Sections

An operator section takes an expression that binds tighter on the side of the operator: what
stands there is the spine of its tree, and each operator of the spine is compared.
-/

namespace Jhc.Lib
universe u v
variable {α : Type u} {o : Type v}

/-- The operators at the left end of the tree, `none` for a negation. -/
def OpExp.leftSpine : OpExp α o → List (Option o)
  | .opApp e₁ op _ => some op :: e₁.leftSpine
  | .neg _ => [none]
  | _ => []

/-- The operators at the right end of the tree. -/
def OpExp.rightSpine : OpExp α o → List (Option o)
  | .opApp _ op e₂ => some op :: e₂.rightSpine
  | .neg e => none :: e.rightSpine
  | _ => []

def spineInfo (info : o → OpInfo) : Option o → OpInfo
  | some op => info op
  | none => ⟨6, .leftfix⟩

variable (info : o → OpInfo)

/-- `(e op)` -/
def LegalLeft (ts : List (Token α o)) (op : o) (e : OpExp α o) : Prop :=
  resolve info ts = some e ∧ ∀ s ∈ e.rightSpine, order (spineInfo info s) (info op) = .left

/-- `(op e)` -/
def LegalRight (op : o) (ts : List (Token α o)) (e : OpExp α o) : Prop :=
  resolve info ts = some e ∧ ∀ s ∈ e.leftSpine, order (info op) (spineInfo info s) = .right

variable {info}

theorem applications_spine {x y : OpExp α o} {ws : List (Word α o)} {r : List (Token α o)}
    (h : applications (some x) ws = .tExp y :: r) (hx : x.leftSpine = []) : y.leftSpine = [] := by
  induction ws generalizing x with
  | nil =>
    cases h
    exact hx
  | cons w ws ih =>
    cases w with
    | operand z => exact ih h rfl
    | op op =>
      cases h
      exact hx
    | neg =>
      cases h
      exact hx

end Jhc.Lib

import Mathlib
import Jhc.Lib.JumpSteps

/-!
# Statements of the generated C

A sequence of statements is put together with `mappend`, which looks at the two statements that
meet, and the labels that a block ends with are pulled out of it.
-/

namespace Jhc.Generate

open Jhc.Lib.Jumps

/-- A block, an `if` or a `switch`, whose sequences of statements are the branches. -/
inductive Head (E K : Type) where
  | block
  | cif (exp : E)
  | switch (e : E) (cs : List (Option K))

/-- `Stmt` of the source: `SGoto`, `SLabel` and `SReturn` are the jumps of the library, `SD` is an
action, `SBlock`, `SIf` and `SSwitch` have branches. -/
abbrev CStmt (Act E K Name : Type) := Stmt Act (Head E K) E Name

abbrev Statement (Act E K Name : Type) := List (CStmt Act E K Name)

variable {Act E K Name σ : Type}

def sBlock (s : Statement Act E K Name) : CStmt Act E K Name := .branch .block [s]

def sIf (exp : E) (thn els : Statement Act E K Name) : CStmt Act E K Name := .branch (.cif exp) [thn, els]

def sSwitch (e : E) (es : List (Option K × Statement Act E K Name)) : CStmt Act E K Name :=
  .branch (.switch e (es.map Prod.fst)) (es.map Prod.snd)

/-! ### What the C does -/

/-- The drawn text of a statement changes the state; an expression is a condition, or it is compared
with the constants of a `switch`. -/
structure Machine (Act E K σ : Type) where
  act : Act → σ → σ
  truth : E → σ → Bool
  isCase : E → K → σ → Bool

/-- The `case` of the value, else the `default`; behind all of them where there is neither, which is
the call of `jhc_case_fell_off` that is drawn there. -/
def switchIndex (p : K → Bool) (cs : List (Option K)) : ℕ :=
  if cs.any (Option.any p) then cs.findIdx (Option.any p) else cs.findIdx Option.isNone

def Machine.choose (M : Machine Act E K σ) : Head E K → σ → ℕ
  | .block, _ => 0
  | .cif exp, s => if M.truth exp s then 0 else 1
  | .switch e cs, s => switchIndex (M.isCase e · s) cs

def Machine.interp (M : Machine Act E K σ) : Interp Act (Head E K) σ where
  act := M.act
  choose := M.choose

/-! ### Two sequences -/

section
variable {s : Type}

/-- `f` of `pairOpt`, with so many steps. -/
def pairOptSteps (peep : s → s → Option s) : ℕ → List s → List s → List s
  | 0, as, bs => as ++ bs
  | n + 1, as, bs =>
    match as.getLast?, bs with
    | some a, b :: bs' =>
      match peep a b with
      | some ab => pairOptSteps peep n (pairOptSteps peep n as.dropLast [ab]) bs'
      | none => as ++ bs
    | _, _ => as ++ bs

/-- Combine two sequences, attempting pairwise peephole optimizations. -/
def pairOpt (peep : s → s → Option s) (as bs : List s) : List s := pairOptSteps peep (as.length + bs.length) as bs

end

/-! ### Labels and blocks -/

/-- `f` of `labelPull`, with the sequence from its end. -/
def labelPullFrom : Statement Act E K Name → Statement Act E K Name → Statement Act E K Name × Statement Act E K Name
  | .label l :: ss, rr => labelPullFrom ss (.label l :: rr)
  | ss, rr => (ss.reverse, rr)

def labelPull (ss : Statement Act E K Name) : Statement Act E K Name × Statement Act E K Name := labelPullFrom ss.reverse []

section
variable [DecidableEq Name]

def stmtPairOpt : CStmt Act E K Name → CStmt Act E K Name → Option (CStmt Act E K Name)
  | .goto l, .label l' => if l = l' then some (.label l') else none
  | .ret _, .label _ => none
  | .goto l, _ => some (.goto l)
  | .ret e, _ => some (.ret e)
  | _, _ => none

def mappend (as bs : Statement Act E K Name) : Statement Act E K Name := pairOpt stmtPairOpt as bs

def mconcat (ss : List (Statement Act E K Name)) : Statement Act E K Name := ss.foldr mappend []

def switch' (e : E) (es : List (Option K × Statement Act E K Name)) : Statement Act E K Name :=
  mappend [sSwitch e (es.map fun cs => (cs.1, (labelPull cs.2).1))] (mconcat (es.map fun cs => (labelPull cs.2).2))

def cif (exp : E) (thn els : Statement Act E K Name) : Statement Act E K Name :=
  mappend (mappend [sIf exp (labelPull thn).1 (labelPull els).1] (labelPull thn).2) (labelPull els).2

def subBlock (st : Statement Act E K Name) : Statement Act E K Name :=
  mappend [sBlock (labelPull st).1] (labelPull st).2

end

/-! ### How a statement was built -/

/-- A statement, as the calls that it is built with. -/
inductive Term (Act E K Name : Type) where
  | mempty
  | sd (a : Act)
  | label (n : Name)
  | goto (n : Name)
  | creturn (e : E)
  | mappend (s t : Term Act E K Name)
  | cif (exp : E) (thn els : Term Act E K Name)
  | switch' (e : E) (es : List (Option K × Term Act E K Name))
  | subBlock (st : Term Act E K Name)

mutual

/-- The statement with plain concatenation, and with each label where it was put. -/
def Term.plain : Term Act E K Name → Statement Act E K Name
  | .mempty => []
  | .sd a => [.act a]
  | .label n => [.label n]
  | .goto n => [.goto n]
  | .creturn e => [.ret e]
  | .mappend s t => s.plain ++ t.plain
  | .cif exp thn els => [sIf exp thn.plain els.plain]
  | .switch' e es => [sSwitch e (plainCases es)]
  | .subBlock st => [sBlock st.plain]

def plainCases : List (Option K × Term Act E K Name) → List (Option K × Statement Act E K Name)
  | [] => []
  | (c, t) :: es => (c, t.plain) :: plainCases es

end

/-- A place in the calls. -/
inductive Hole (Act E K Name : Type) where
  | here
  | mappendLeft (C : Hole Act E K Name) (t : Term Act E K Name)
  | mappendRight (s : Term Act E K Name) (C : Hole Act E K Name)
  | cifThen (exp : E) (C : Hole Act E K Name) (els : Term Act E K Name)
  | cifElse (exp : E) (thn : Term Act E K Name) (C : Hole Act E K Name)
  | switchCase (e : E) (es : List (Option K × Term Act E K Name)) (c : Option K) (C : Hole Act E K Name) (fs : List (Option K × Term Act E K Name))
  | subBlock (C : Hole Act E K Name)

def Hole.fill : Hole Act E K Name → Term Act E K Name → Term Act E K Name
  | .here, x => x
  | .mappendLeft C t, x => .mappend (C.fill x) t
  | .mappendRight s C, x => .mappend s (C.fill x)
  | .cifThen exp C els, x => .cif exp (C.fill x) els
  | .cifElse exp thn C, x => .cif exp thn (C.fill x)
  | .switchCase e es c C fs, x => .switch' e (es ++ (c, C.fill x) :: fs)
  | .subBlock C, x => .subBlock (C.fill x)

section
variable [DecidableEq Name]

mutual

/-- The statement that the calls give. -/
def Term.opt : Term Act E K Name → Statement Act E K Name
  | .mempty => []
  | .sd a => [.act a]
  | .label n => [.label n]
  | .goto n => [.goto n]
  | .creturn e => [.ret e]
  | .mappend s t => Generate.mappend s.opt t.opt
  | .cif exp thn els => Generate.cif exp thn.opt els.opt
  | .switch' e es => Generate.switch' e (optCases es)
  | .subBlock st => Generate.subBlock st.opt

def optCases : List (Option K × Term Act E K Name) → List (Option K × Statement Act E K Name)
  | [] => []
  | (c, t) :: es => (c, t.opt) :: optCases es

end

attribute [local grind =] Term.plain Hole.fill

end

attribute [local simp] pairOptSteps

end Jhc.Generate

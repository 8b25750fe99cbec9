import Mathlib

/-!
# The layout algorithm (FrontEnd/Lex/Layout.hs:31-35, 104-114, FrontEnd/Lex/Layout2.hs)

`fixupLets` renames the `let` tokens for which no `in` is left to their right; `layout` reads
the annotated tokens and inserts braces and semicolons. Its loop rewrites a state of remaining
tokens, output and contexts, and one turn of it is `step`.
-/

namespace Jhc.FrontEnd.Lex

/-- Lexer.x:172-199 -/
inductive LexemeClass where
  | LInteger | LInteger_ | LFloat | LFloat_ | LChar | LChar_ | LString | LString_ | LSpecial
  | LReservedId | LReservedOp | LVarId | LQVarId | LConId | LQConId | LVarSym | LQVarSym | LConSym
  | LQConSym | LPragmaStart | LQReservedId | LLexError | LEOF
  deriving DecidableEq, Repr

structure SrcLoc where
  fileName : String
  line : ℤ
  column : ℤ
  deriving DecidableEq, Repr

def bogusASrcLoc : SrcLoc := ⟨"(unknown)", -1, -1⟩

structure Lexeme where
  loc : SrcLoc
  cls : LexemeClass
  text : String
  deriving DecidableEq, Repr

inductive Token (t : Type) where
  | token (l : t)
  | vlCurly (l : t) (column : ℤ)
  | nl (column : ℤ)
  deriving DecidableEq, Repr

/-! ### Lets without in -/

def Lexeme.letHash (l : Lexeme) : Lexeme := { l with text := "let#" }

def fixupLets.f : ℕ → List (Token Lexeme) → List (Token Lexeme) → List (Token Lexeme)
  | n, .token l :: xs, rs =>
    if l.text = "let" then
      match n with
      | 0 => f 0 xs (.token l.letHash :: rs)
      | n + 1 => f n xs (.token l :: rs)
    else if l.text = "in" then f (n + 1) xs (.token l :: rs)
    else f n xs (.token l :: rs)
  | n, x :: xs, rs => f n xs (x :: rs)
  | _, [], rs => rs

def fixupLets (xs : List (Token Lexeme)) : List (Token Lexeme) := fixupLets.f 0 xs.reverse []

/-! ### Contexts -/

inductive Loc where
  | InHead | InGuard | InRhs | InRhsGuard | InCaseGuard | InCaseHead | InCaseRhsGuard | InCaseRhs
  | InDo | InIgnore
  deriving DecidableEq, Repr

/-- A layout block, with the word that opened it, or a bracket, with the word that closes it. -/
inductive Context where
  | LO (opener : String) (loc : Loc) (column : ℤ)
  | NL (close : String)
  deriving DecidableEq, Repr

inductive Action where
  | newLoc (loc : Loc)
  | rBrace
  deriving DecidableEq, Repr

def actionList : List (List Loc × List String × Action) :=
  [([.InHead], ["type", "data", "instance", "deriving"], .newLoc .InIgnore),
   ([.InHead], ["::"], .newLoc .InRhs),
   ([.InHead], ["="], .newLoc .InRhs),
   ([.InHead], ["|"], .newLoc .InGuard),
   ([.InGuard], ["="], .newLoc .InRhsGuard),
   ([.InRhsGuard], ["|"], .newLoc .InGuard),
   ([.InCaseHead], ["->"], .newLoc .InCaseRhs),
   ([.InCaseHead], ["|"], .newLoc .InCaseGuard),
   ([.InCaseGuard], ["->"], .newLoc .InCaseRhsGuard),
   ([.InCaseRhsGuard], ["|"], .newLoc .InCaseGuard),
   ([.InRhsGuard, .InRhs, .InIgnore], [";"], .newLoc .InHead),
   ([.InCaseRhsGuard, .InCaseRhs], [";"], .newLoc .InCaseHead),
   ([.InRhs, .InCaseRhs], ["|"], .rBrace),
   ([.InRhs], [","], .rBrace)]

-- no key of the list occurs twice
def actionMap (loc : Loc) (ident : String) : Option Action :=
  actionList.findSome? fun (ls, ss, a) => if loc ∈ ls ∧ ident ∈ ss then some a else none

def layoutBrackets : List (String × String) :=
  [("case", "of"), ("if", "then"), ("(", ")"), ("let", "in"), ("(#", "#)"), ("[", "]"), ("\x7b", "\x7d")]

def closingBrackets : List (String × String) := layoutBrackets.map fun (x, y) => (y, x)

/-! ### The loop -/

structure R where
  is : List (Token Lexeme)
  os : List Lexeme
  ctx : List Context

namespace R

/-- `sloc`, the place of what is inserted: that of the last lexeme that was written. -/
def sloc (r : R) : SrcLoc := (r.os.map Lexeme.loc).headD bogusASrcLoc

def semi (r : R) : Lexeme := ⟨r.sloc, .LSpecial, ";"⟩
def rbrace (r : R) : Lexeme := ⟨r.sloc, .LSpecial, "\x7d"⟩
def lbrace (r : R) : Lexeme := ⟨r.sloc, .LSpecial, "\x7b"⟩

/-- The text of an error is not kept. -/
def err (r : R) : List Lexeme := (⟨r.sloc, .LLexError, ""⟩ :: r.os).reverse

attribute [local grind =] fixupLets.f

end R

def sl (s : String) : Loc := if s = "do" then .InDo else if s = "of" then .InCaseHead else .InHead

def startsWhere : List (Token Lexeme) → Bool
  | .token l :: _ => l.text == "where"
  | _ => false

/-- `let#` is written as `let`, any other lexeme as it is. -/
def written (m : Lexeme) : Lexeme := if m.text = "let#" then { m with text := "let" } else m

-- The guards of the loop for a token, from the last to the first: each definition is called
-- where the guards above it have failed.

def stepAction (r : R) (m : Lexeme) (is : List (Token Lexeme)) : R :=
  match r.ctx with
  | .LO opener loc n :: ctx =>
    match actionMap loc m.text with
    | some .rBrace => ⟨is, m :: r.rbrace :: r.os, ctx⟩
    | some (.newLoc loc') => ⟨is, m :: r.os, .LO opener loc' n :: ctx⟩
    | none => ⟨is, written m :: r.os, r.ctx⟩
  | _ => ⟨is, written m :: r.os, r.ctx⟩

def stepClosing (r : R) (m : Lexeme) (is : List (Token Lexeme)) : R ⊕ List Lexeme :=
  match closingBrackets.lookup m.text with
  | some opener =>
    match r.ctx with
    | .NL opened :: ctx => if opener = opened then .inl ⟨is, m :: r.os, ctx⟩ else .inr r.err
    | .LO .. :: ctx => .inl ⟨r.is, r.rbrace :: r.os, ctx⟩
    | [] => .inr r.err
  | none => .inl (stepAction r m is)

def stepBracket (r : R) (m : Lexeme) (is : List (Token Lexeme)) : R ⊕ List Lexeme :=
  match layoutBrackets.lookup m.text with
  | some close => .inl ⟨is, m :: r.os, .NL close :: r.ctx⟩
  | none => stepClosing r m is

def stepToken (r : R) (m : Lexeme) (is : List (Token Lexeme)) : R ⊕ List Lexeme :=
  match r.ctx with
  | .NL close :: ctx =>
    if m.text = "then" ∧ close = "then" then .inl ⟨is, m :: r.os, .NL "else" :: ctx⟩
    else if m.text = close then .inl ⟨is, m :: r.os, ctx⟩
    else stepBracket r m is
  | .LO _ loc _ :: ctx =>
    if loc = .InDo ∧ m.text = "where" then .inl ⟨r.is, r.rbrace :: r.os, ctx⟩
    else stepBracket r m is
  | [] => stepBracket r m is

def stepNL (r : R) (m : ℤ) (is : List (Token Lexeme)) : R :=
  match r.ctx with
  | .LO _ _ n :: ctx =>
    if m = n then
      -- a semicolon is invalid before a `where`, so the block is closed
      if startsWhere is then ⟨r.is, r.rbrace :: r.os, ctx⟩
      else ⟨.token r.semi :: is, r.os, r.ctx⟩
    else if m < n then ⟨r.is, r.rbrace :: r.os, ctx⟩
    else ⟨is, r.os, r.ctx⟩
  | _ => ⟨is, r.os, r.ctx⟩

def stepVLCurly (r : R) (l : Lexeme) (n : ℤ) (is : List (Token Lexeme)) : R :=
  let opened : R := ⟨is, r.lbrace :: r.os, .LO l.text (sl l.text) n :: r.ctx⟩
  match r.ctx with
  | .LO opener _ c :: _ =>
    if opener = "do" ∧ n ≥ c then opened
    else if n > c then opened
    else if n = c then ⟨is, r.rbrace :: r.lbrace :: r.os, r.ctx⟩
    else opened
  | _ => opened

/-- One turn of the loop: the next state, or the output. -/
def step (r : R) : R ⊕ List Lexeme :=
  match r.is with
  | .nl m :: is => .inl (stepNL r m is)
  | .vlCurly l n :: is => .inl (stepVLCurly r l n is)
  | .token m :: is => stepToken r m is
  | [] =>
    match r.ctx with
    | .NL _ :: _ => .inr r.err
    | .LO .. :: ctx => .inl ⟨[], r.rbrace :: r.os, ctx⟩
    | [] => .inr r.os.reverse

/-! ### It ends -/

/-- A newline can become a semicolon, and what a token opens is closed later. -/
def Token.weight {t : Type} : Token t → ℕ
  | .token _ => 2
  | .vlCurly .. => 2
  | .nl _ => 3

def R.weight (r : R) : ℕ := (r.is.map Token.weight).sum + r.ctx.length

theorem stepAction_weight (r : R) (m : Lexeme) (is : List (Token Lexeme)) :
    (stepAction r m is).weight ≤ (is.map Token.weight).sum + r.ctx.length := by
  unfold stepAction
  split
  · next opener loc n ctx hctx =>
    split <;> simp only [R.weight, hctx, List.length_cons] <;> omega
  · exact le_refl _

theorem stepNL_weight {r : R} {m : ℤ} {is : List (Token Lexeme)} (h : r.is = .nl m :: is) :
    (stepNL r m is).weight < r.weight := by
  unfold stepNL
  split
  · next ctx hctx =>
    split_ifs <;> simp [R.weight, h, hctx, Token.weight]
  · simp [R.weight, h, Token.weight]

theorem stepVLCurly_weight {r : R} {l : Lexeme} {n : ℤ} {is : List (Token Lexeme)} (h : r.is = .vlCurly l n :: is) :
    (stepVLCurly r l n is).weight < r.weight := by
  unfold stepVLCurly
  split
  · split_ifs <;> simp [R.weight, h, Token.weight] <;> omega
  · simp [R.weight, h, Token.weight]
    omega

theorem stepBracket_weight {r r' : R} {m : Lexeme} {is : List (Token Lexeme)} (h : r.is = .token m :: is)
    (hr : stepBracket r m is = .inl r') : r'.weight < r.weight := by
  unfold stepBracket stepClosing at hr
  split at hr
  · obtain rfl := Sum.inl.inj hr
    simp [R.weight, h, Token.weight]
    omega
  · split at hr
    · split at hr
      · next hctx =>
        split_ifs at hr
        obtain rfl := Sum.inl.inj hr
        simp [R.weight, h, hctx, Token.weight]
        omega
      · next hctx =>
        obtain rfl := Sum.inl.inj hr
        simp [R.weight, hctx]
      · cases hr
    · obtain rfl := Sum.inl.inj hr
      have hle := stepAction_weight r m is
      simp [R.weight, h, Token.weight] at hle ⊢
      omega

theorem step_weight {r r' : R} (h : step r = .inl r') : r'.weight < r.weight := by
  unfold step at h
  split at h
  · next his =>
    obtain rfl := Sum.inl.inj h
    exact stepNL_weight his
  · next his =>
    obtain rfl := Sum.inl.inj h
    exact stepVLCurly_weight his
  · next m is his =>
    unfold stepToken at h
    split at h
    · next hctx =>
      split_ifs at h
      · obtain rfl := Sum.inl.inj h
        simp [R.weight, his, hctx, Token.weight]
      · obtain rfl := Sum.inl.inj h
        simp [R.weight, his, hctx, Token.weight]
        omega
      · exact stepBracket_weight his h
    · next hctx =>
      split_ifs at h
      · obtain rfl := Sum.inl.inj h
        simp [R.weight, hctx]
      · exact stepBracket_weight his h
    · exact stepBracket_weight his h
  · next his =>
    split at h
    · cases h
    · next hctx =>
      obtain rfl := Sum.inl.inj h
      simp [R.weight, his, hctx]
    · cases h

def run (r : R) : List Lexeme :=
  match _h : step r with
  | .inl r' => run r'
  | .inr out => out
termination_by r.weight
decreasing_by exact step_weight _h

def layout (ls : List (Token Lexeme)) : List Lexeme := run ⟨ls, [], []⟩

end Jhc.FrontEnd.Lex

import Jhc.FrontEnd.Exports

/-!
# List comprehensions (FrontEnd/Desugar.hs:141-231; FrontEnd/HsSyn.hs:295-380, 465-472)

The renamer has taken record patterns away and the fixity pass the forms that wait for it. Source
locations and the types of signatures are left out.
-/

namespace Jhc.ListComp

open Jhc.FrontEnd.Exports (Name)

inductive HsLiteral where
  | hsInt (n : ℤ)
  | hsChar (c : Char)
  | hsString (s : String)
  | hsFrac (num den : ℤ)
  | hsCharPrim (c : Char)
  | hsStringPrim (s : String)
  | hsIntPrim (n : ℤ)
  | hsFloatPrim (num den : ℤ)
  | hsDoublePrim (num den : ℤ)
  | hsLitLit (s : String)

inductive HsPat where
  | hsPVar (n : Name)
  | hsPApp (n : Name) (ps : List HsPat)
  | hsPAsPat (n : Name) (p : HsPat)
  | hsPBangPat (p : HsPat)
  | hsPIrrPat (p : HsPat)
  | hsPLit (l : HsLiteral)
  | hsPInfixApp (a : HsPat) (n : Name) (b : HsPat)
  | hsPList (ps : List HsPat)
  | hsPNeg (p : HsPat)
  | hsPParen (p : HsPat)
  | hsPTuple (ps : List HsPat)
  | hsPUnboxedTuple (ps : List HsPat)
  | hsPWildCard
  | hsPTypeSig (p : HsPat)

mutual

/-- The other forms are those that `hsParen` leaves as they are and those that it puts in parentheses. -/
inductive HsExp (Decl Other : Type) where
  | hsVar (n : Name)
  | hsApp (f x : HsExp Decl Other)
  | hsLambda (ps : List HsPat) (e : HsExp Decl Other)
  | hsLet (ds : List Decl) (e : HsExp Decl Other)
  | hsIf (c a b : HsExp Decl Other)
  | hsLCase (alts : List (HsAlt Decl Other))
  | hsList (es : List (HsExp Decl Other))
  | hsParen (e : HsExp Decl Other)
  | atom (e : Other)
  | compound (e : Other)

inductive HsAlt (Decl Other : Type) where
  | mk (pat : HsPat) (rhs : HsRhs Decl Other) (wheres : List Decl)

inductive HsRhs (Decl Other : Type) where
  | hsUnGuardedRhs (e : HsExp Decl Other)
  | hsGuardedRhss (gs : List (HsComp Decl Other))

inductive HsComp (Decl Other : Type) where
  | mk (hsCompStmts : List (HsStmt Decl Other)) (hsCompBody : HsExp Decl Other)

inductive HsStmt (Decl Other : Type) where
  | hsGenerator (pat : HsPat) (e : HsExp Decl Other)
  | hsQualifier (e : HsExp Decl Other)
  | hsLetStmt (ds : List Decl)

end

variable {Decl Other : Type}

def hsParen : HsExp Decl Other → HsExp Decl Other
  | .hsVar n => .hsVar n
  | .hsParen e => .hsParen e
  | .atom e => .atom e
  | e => .hsParen e

def hsApp (e : HsExp Decl Other) (es : List (HsExp Decl Other)) : HsExp Decl Other :=
  hsParen ((es.map hsParen).foldl .hsApp (hsParen e))

/-! ### Patterns (Desugar.hs:198-231) -/

def openPat : HsPat → HsPat
  | .hsPParen p => openPat p
  | .hsPNeg p => openPat p
  | .hsPAsPat _ p => openPat p
  | .hsPTypeSig p => openPat p
  | .hsPInfixApp a n b => .hsPApp n [a, b]
  | p => p

/-- `openPat` leaves no as-pattern and no parentheses. -/
def isStrictPat (p : HsPat) : Bool :=
  match openPat p with
  | .hsPVar _ => false
  | .hsPWildCard => false
  | .hsPIrrPat _ => false
  | _ => true

def isLazyPat (p : HsPat) : Bool := !isStrictPat p

theorem sizeOf_openPat (p : HsPat) :
    (∃ n ps, openPat p = .hsPApp n ps) ∨ sizeOf (openPat p) ≤ sizeOf p := by
  induction p using openPat.induct with
  | case1 p ih => exact ih.imp id fun h => h.trans (by simp)
  | case2 p ih => exact ih.imp id fun h => h.trans (by simp)
  | case3 n p ih => exact ih.imp id fun h => h.trans (by simp)
  | case4 p ih => exact ih.imp id fun h => h.trans (by simp)
  | case5 a n b => exact Or.inl ⟨n, [a, b], rfl⟩
  | case6 p h₁ h₂ h₃ h₄ h₅ =>
    right
    rw [openPat.eq_6 p h₁ h₂ h₃ h₄ h₅]

theorem sizeOf_of_openPat {p q : HsPat} (h : openPat p = q) (hq : ∀ n ps, q ≠ .hsPApp n ps) :
    sizeOf q ≤ sizeOf p := by
  rcases sizeOf_openPat p with ⟨n, ps, hp⟩ | hp
  · exact absurd (h.symm.trans hp) (hq n ps)
  · rw [← h]
    exact hp

def isFailablePat (p : HsPat) : Bool :=
  isStrictPat p &&
    match h : openPat p with
    | .hsPTuple ps => ps.attach.any fun q => isFailablePat q.1
    | .hsPUnboxedTuple ps => ps.attach.any fun q => isFailablePat q.1
    | .hsPBangPat q => isFailablePat q
    | _ => true
termination_by sizeOf p
decreasing_by
  · have hq := List.sizeOf_lt_of_mem q.2
    have hp := sizeOf_of_openPat h (fun _ _ => HsPat.noConfusion)
    simp only [HsPat.hsPTuple.sizeOf_spec] at hp
    omega
  · have hq := List.sizeOf_lt_of_mem q.2
    have hp := sizeOf_of_openPat h (fun _ _ => HsPat.noConfusion)
    simp only [HsPat.hsPUnboxedTuple.sizeOf_spec] at hp
    omega
  · have hp := sizeOf_of_openPat h (fun _ _ => HsPat.noConfusion)
    simp only [HsPat.hsPBangPat.sizeOf_spec] at hp
    omega

/-! ### The functions of the result (src/data/names.txt:135-144) -/

def listFunction (s : String) : Name := ⟨.Val, some "Jhc.Prim.List".toList, s.toList⟩

def v_map : Name := listFunction "map"
def v_filter : Name := listFunction "filter"
def v_concat : Name := listFunction "concat"
def v_concatMap : Name := listFunction "concatMap"
def v_and : Name := ⟨.Val, some "Jhc.Order".toList, "&&".toList⟩

def app (x y : HsExp Decl Other) : HsExp Decl Other := .hsApp x y

def do_map : HsExp Decl Other → HsExp Decl Other → HsExp Decl Other
  | .hsLambda [.hsPVar v] (.hsVar v'), xs =>
    if v = v' then xs else app (app (.hsVar v_map) (.hsLambda [.hsPVar v] (.hsVar v'))) xs
  | f, xs => app (app (.hsVar v_map) f) xs

def do_concat (xs : HsExp Decl Other) : HsExp Decl Other := app (.hsVar v_concat) xs

def do_filter (f xs : HsExp Decl Other) : HsExp Decl Other := app (app (.hsVar v_filter) f) xs

def do_concatMap : HsExp Decl Other → HsExp Decl Other → HsExp Decl Other
  | .hsLambda [.hsPVar v] (.hsIf cond (.hsList [.hsVar v']) (.hsList [])), xs =>
    if v = v' then do_filter (.hsLambda [.hsPVar v] cond) xs
    else app (app (.hsVar v_concatMap)
      (.hsLambda [.hsPVar v] (.hsIf cond (.hsList [.hsVar v']) (.hsList [])))) xs
  | .hsLambda [.hsPVar v] (.hsVar v'), xs =>
    if v = v' then do_concat xs
    else app (app (.hsVar v_concatMap) (.hsLambda [.hsPVar v] (.hsVar v'))) xs
  | f, xs => app (app (.hsVar v_concatMap) f) xs

/-! ### Statements (Desugar.hs:141-196) -/

/-- The case with one alternative more, whose value is the empty list. -/
def kase (pat : HsPat) (rhs : HsRhs Decl Other) : HsExp Decl Other :=
  .hsLCase [.mk pat rhs [], .mk .hsPWildCard (.hsUnGuardedRhs (.hsList [])) []]

def guardedBy (q e : HsExp Decl Other) : HsRhs Decl Other := .hsGuardedRhss [.mk [.hsQualifier q] e]

variable (exp : HsExp Decl Other)

def g : List (HsStmt Decl Other) → Option (HsExp Decl Other)
  | [] => some exp
  | .hsLetStmt ds :: ss => (g ss).map (.hsLet ds)
  | _ => none

/-- `g` of a qualifier is nothing, so of the generators that a qualifier follows none is mapped. -/
def f : List (HsStmt Decl Other) → HsExp Decl Other
  | [] => .hsList [exp]
  | gen :: .hsQualifier q1 :: .hsQualifier q2 :: ss =>
    f (gen :: .hsQualifier (hsApp (.hsVar v_and) [q1, q2]) :: ss)
  | .hsLetStmt ds :: ss => .hsLet ds (f ss)
  | .hsQualifier e :: ss => .hsIf e (f ss) (.hsList [])
  | .hsGenerator pat e :: .hsQualifier q :: ss =>
    if isFailablePat pat || (g exp ss).isNone then
      do_concatMap (kase pat (guardedBy q (f ss))) e
    else if isLazyPat pat then
      do_concatMap (.hsLambda [pat] (f (.hsQualifier q :: ss))) e
    else
      do_concatMap (kase pat (guardedBy q (.hsList [(g exp ss).getD exp]))) e
  | .hsGenerator pat e :: ss =>
    if isLazyPat pat && (g exp ss).isSome then
      do_map (.hsLambda [pat] ((g exp ss).getD exp)) e
    else if isLazyPat pat then
      do_concatMap (.hsLambda [pat] (f ss)) e
    else if isFailablePat pat || (g exp ss).isNone then
      do_concatMap (kase pat (.hsUnGuardedRhs (f ss))) e
    else
      do_map (.hsLCase [.mk pat (.hsUnGuardedRhs ((g exp ss).getD exp)) []]) e
termination_by ss => ss.length

def listCompToExp (ss : List (HsStmt Decl Other)) : HsExp Decl Other := hsParen (f exp ss)

/-! ### The report's translation -/

/-- The local function of the report's third rule is written as a case. -/
def reportExp : List (HsStmt Decl Other) → HsExp Decl Other
  | [] => .hsList [exp]
  | .hsQualifier b :: ss => .hsIf b (reportExp ss) (.hsList [])
  | .hsGenerator pat e :: ss =>
    app (app (.hsVar v_concatMap) (kase pat (.hsUnGuardedRhs (reportExp ss)))) e
  | .hsLetStmt ds :: ss => .hsLet ds (reportExp ss)

attribute [local grind =] g f

end Jhc.ListComp

import Mathlib
import Jhc.Lib.GroupUnder

/-!
# Record syntax (FrontEnd/Rename.hs:90-99, 153-163, 535-545, 639-692)

Construction, patterns and update of records are rewritten with the map of the field labels.
One function finds the constructors and the positions for all three.
-/

namespace Jhc.FrontEnd.Rename

open Jhc.Lib

variable {Name Exp Pat : Type} [LinearOrder Name]

/-! ### Expressions and patterns -/

inductive HsErrorType where
  | hsErrorUninitializedField
  | hsErrorRecordUpdate
  | hsErrorFieldSelect
  deriving DecidableEq, Repr

inductive HsPat (Name Pat : Type) where
  | hsPVar (n : Name)
  | hsPApp (c : Name) (ps : List (HsPat Name Pat))
  | hsPWildCard
  | hsPParen (p : HsPat Name Pat)
  | other (p : Pat)

/-- The other forms are those that `hsParen` leaves as they are and those that it puts in parentheses. -/
inductive HsExp (Name Exp : Type) where
  | hsVar (n : Name)
  | hsCon (n : Name)
  | hsApp (f x : HsExp Name Exp)
  | hsParen (e : HsExp Name Exp)
  | hsError (sl : ℕ) (type : HsErrorType) (text : String)
  | atom (e : Exp)
  | compound (e : Exp)

def hsParen : HsExp Name Exp → HsExp Name Exp
  | .hsVar n => .hsVar n
  | .hsCon n => .hsCon n
  | .hsParen e => .hsParen e
  | .atom e => .atom e
  | e => .hsParen e

structure HsAlt (Name Exp Pat : Type) where
  pat : HsPat Name Pat
  rhs : HsExp Name Exp

structure HsCase (Name Exp Pat : Type) where
  scrutinee : HsExp Name Exp
  alts : List (HsAlt Name Exp Pat)

structure HsField (Name α : Type) where
  name : Name
  value : α

/-! ### The renamer's monad -/

/-- What the renamer makes of a number (`mkComplexName`), and the name that stands for `..`. -/
structure Names (Name : Type) where
  var : ℕ → Name
  var_injective : Function.Injective var
  u_DotDot : Name

inductive Warning (Name : Type) where
  | duplicateLabels
  | wildcard
  | noLabel (n : Name)
  | unknownConstructor (c : Name)
  deriving DecidableEq, Repr

def Warning.text (tshow : Name → String) : Warning Name → String
  | .duplicateLabels => "Duplicate field labels in pattern"
  | .wildcard => "Wildcard pattern not yet supported"
  | .noLabel n => "Field Label does not exist: " ++ tshow n
  | .unknownConstructor c => "Unknown Constructor: " ++ tshow c

structure ScopeState (Name : Type) where
  unique : ℕ
  warnings : List (Warning Name)

abbrev RM (Name : Type) := StateT (ScopeState Name) Option

def failRename (w : Warning Name) : RM Name Unit :=
  modify fun s => { s with warnings := s.warnings ++ [w] }

def newVar (names : Names Name) : RM Name Name := do
  let s ← get
  set { s with unique := s.unique + 1 }
  return names.var s.unique

def createError (sl : ℕ) (et : HsErrorType) (s : String) : HsExp Name Exp :=
  .hsError sl et (toString sl ++ ": " ++ s)

/-! ### Field labels -/

/-- Constructors with their arities, and labels with the constructors and positions. -/
structure FieldMap (names : Names Name) where
  arity : Name → Option ℕ
  labels : Name → Option (List (Name × ℕ))
  positioned : ∀ n cs c i, labels n = some cs → (c, i) ∈ cs → ∃ a, arity c = some a ∧ i < a
  once : ∀ n cs, labels n = some cs → (cs.map Prod.fst).Nodup
  dotDot : labels names.u_DotDot = none
  apart : ∀ n m cs ds c i, labels n = some cs → labels m = some ds → (c, i) ∈ cs → (c, i) ∈ ds → n = m

variable {α : Type} {names : Names Name} (fm : FieldMap names) (sl : ℕ)

def occurrences (constructorName : Option Name) (b : HsField Name α) : RM Name (List (Name × ℕ × Name × α)) :=
  if b.name = names.u_DotDot then return []
  else
    match fm.labels b.name with
    | none => do
      failRename (.noLabel b.name)
      return []
    | some cs =>
      return (cs.filter fun x => constructorName.all fun c => x.1 = c).map fun x => (x.1, x.2, b.name, b.value)

def withArity (g : Name × List (ℕ × Name × α)) : RM Name (Name × ℕ × List (ℕ × Name × α)) :=
  match fm.arity g.1 with
  | none => do
    failRename (.unknownConstructor g.1)
    return (g.1, 0, g.2)
  | some arity => return (g.1, arity, g.2)

/-- `fm''` of `getRecInfo`: a constructor that is named is there also without fields. -/
def withConstructor (constructorName : Option Name) (fm' : List (Name × List (ℕ × Name × α))) :
    List (Name × List (ℕ × Name × α)) :=
  match constructorName with
  | none => fm'
  | some t => if t ∈ fm'.map Prod.fst then fm' else (t, []) :: fm'

def getRecInfo (constructorName : Option Name) (fields : List (HsField Name α)) :
    RM Name (List (Name × ℕ × List (ℕ × Name × α))) := do
  let fieldNames := fields.map HsField.name
  if ¬ (fieldNames.filter (· ≠ names.u_DotDot)).Nodup then failRename .duplicateLabels
  if names.u_DotDot ∈ fieldNames then failRename .wildcard
  let found ← fields.mapM (occurrences fm constructorName)
  let fm' := sortGroupUnderFG Prod.fst Prod.snd found.flatten
  (withConstructor constructorName fm').mapM (withArity fm)

/-- `lookup i fs` and the second component of what it finds. -/
def valueAt (fs : List (ℕ × Name × α)) (i : ℕ) : Option α := (fs.lookup i).map Prod.snd

/-- The pattern at one position. -/
def patternAt (names : Names Name) (fs : List (ℕ × Name × HsPat Name Pat)) (i : ℕ) : RM Name (HsPat Name Pat) :=
  match valueAt fs i with
  | some e => return .hsPParen e
  | none => do
    let v ← newVar names
    return .hsPVar v

def buildRecPat (n : Name) (us : List (HsField Name (HsPat Name Pat))) : RM Name (HsPat Name Pat) := do
  match ← getRecInfo fm (some n) us with
  | [(_, arity, fs)] =>
    let rs ← (List.range arity).mapM (patternAt names fs)
    return .hsPApp n rs
  | _ => failure

def buildRecConstr (n : Name) (us : List (HsField Name (HsExp Name Exp))) : RM Name (HsExp Name Exp) := do
  let undef := createError sl .hsErrorUninitializedField "Uninitialized Field"
  match ← getRecInfo fm (some n) us with
  | [(_, arity, fs)] =>
    let rs := (List.range arity).map fun i =>
      match valueAt fs i with
      | some e => hsParen e
      | none => undef
    return rs.foldl .hsApp (.hsCon n)
  | _ => failure

/-- The alternative for one constructor. -/
def updateAlt (names : Names Name) (g : Name × ℕ × List (ℕ × Name × HsExp Name Exp)) : RM Name (HsAlt Name Exp Pat) := do
  let vars ← (List.range g.2.1).mapM fun _ => newVar names
  let x := (vars.zipIdx.map fun v => (valueAt g.2.2 v.2).getD (.hsVar v.1)).foldl HsExp.hsApp (.hsCon g.1)
  return ⟨.hsPApp g.1 (vars.map .hsPVar), x⟩

def buildRecUpdate (n : HsExp Name Exp) (us : List (HsField Name (HsExp Name Exp))) : RM Name (HsCase Name Exp Pat) := do
  let rs ← getRecInfo fm none us
  let as ← rs.mapM (updateAlt names)
  let pe := createError sl .hsErrorRecordUpdate "Record Update Error"
  return ⟨n, as ++ [⟨.hsPWildCard, pe⟩]⟩

/-! ### The warnings of a walk over the bindings -/

def missing {α : Type} {names : Names Name} (fm : FieldMap names) (b : HsField Name α) : List (Warning Name) :=
  if b.name = names.u_DotDot then [] else if fm.labels b.name = none then [.noLabel b.name] else []

def errors {α : Type} {names : Names Name} (fm : FieldMap names) (us : List (HsField Name α)) : List (Warning Name) :=
  (if ((us.map HsField.name).filter (· ≠ names.u_DotDot)).Nodup then [] else [.duplicateLabels]) ++
    (if names.u_DotDot ∈ us.map HsField.name then [.wildcard] else []) ++ us.flatMap (missing fm)

end Jhc.FrontEnd.Rename

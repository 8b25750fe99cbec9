import Jhc.E.Syntax

/-!
# Checking the scope of a term (E/Traverse.hs:36-78, 162-183)
-/

namespace Jhc.E

/-! ### The comparison of types (the derived `Eq E`; E/Type.hs:189-191)

Variables are compared by their identifiers only. -/

def TVr.same (t u : TVr) : Bool := decide (t.tvrIdent = u.tvrIdent)

def sameVars : List TVr → List TVr → Bool
  | [], [] => true
  | t :: ts, u :: us => t.same u && sameVars ts us
  | _, _ => false

mutual

def same : E → E → Bool
  | .eAp f a, .eAp f' a' => same f f' && same a a'
  | .eLam t e, .eLam t' e' => t.same t' && same e e'
  | .ePi t e, .ePi t' e' => t.same t' && same e e'
  | .eVar t, .eVar t' => t.same t'
  | .unknown, .unknown => true
  | .eSort s, .eSort s' => decide (s = s')
  | .eLitInt n t, .eLitInt n' t' => decide (n = n') && same t t'
  | .eLit n es t, .eLit n' es' t' => decide (n = n') && sameArgs es es' && same t t'
  | .eLetRec ds e, .eLetRec ds' e' => sameDefs ds ds' && same e e'
  | .ePrim p es t, .ePrim p' es' t' => decide (p = p') && sameArgs es es' && same t t'
  | .eError s t, .eError s' t' => decide (s = s') && same t t'
  | .eCase e t b as d, .eCase e' t' b' as' d' =>
      same e e' && same t t' && b.same b' && sameAlts as as' && sameDefault d d'
  | _, _ => false

def sameArgs : List E → List E → Bool
  | [], [] => true
  | e :: es, e' :: es' => same e e' && sameArgs es es'
  | _, _ => false

def sameDef : Def → Def → Bool
  | .mk t e, .mk t' e' => t.same t' && same e e'

def sameDefs : List Def → List Def → Bool
  | [], [] => true
  | d :: ds, d' :: ds' => sameDef d d' && sameDefs ds ds'
  | _, _ => false

def sameAlt : Alt → Alt → Bool
  | .litInt n t e, .litInt n' t' e' => decide (n = n') && same t t' && same e e'
  | .litCons n xs t e, .litCons n' xs' t' e' =>
      decide (n = n') && sameVars xs xs' && same t t' && same e e'
  | _, _ => false

def sameAlts : List Alt → List Alt → Bool
  | [], [] => true
  | a :: as, a' :: as' => sameAlt a a' && sameAlts as as'
  | _, _ => false

def sameDefault : Option E → Option E → Bool
  | none, none => true
  | some e, some e' => same e e'
  | _, _ => false

end

/-! ### The check -/

/-- The binder an identifier stands for (`IdMap TVr`). -/
def Scope := Id → Option TVr

namespace Scope

def empty : Scope := fun _ => none

def minsert (m : Scope) (t : TVr) : Scope := fun x => if x = t.tvrIdent then some t else m x

/-- `fromList [ (tvrIdent t,t) | t <- ts ] mappend m`: the last of two equal keys counts. -/
def insertAll (m : Scope) (ts : List TVr) : Scope := ts.foldl minsert m

end Scope

inductive ScopeError where
  | notInScope (t : TVr)
  | typeMismatch (t : TVr)

/-- The text and the variable whose name follows it. -/
def ScopeError.message : ScopeError → String × Id
  | .notInScope t => ("scopeCheck: found variable not in scope ", t.tvrIdent)
  | .typeMismatch t => ("scopeCheck: found variable whose type does not match ", t.tvrIdent)

def scopeVar (checkFvs : Bool) (m : Scope) (t : TVr) : Except ScopeError Unit :=
  match m t.tvrIdent with
  | none => if checkFvs then .error (.notInScope t) else .ok ()
  | some t' => if same t.tvrType t'.tvrType then .ok () else .error (.typeMismatch t)

mutual

/-- The constructors without a case of their own go through `emapE_`. -/
def scopeCheck (checkFvs : Bool) (m : Scope) : E → Except ScopeError Unit
  | .eLam t e => do
      scopeBinder checkFvs m t
      scopeCheck checkFvs (m.minsert t) e
  | .ePi t e => do
      scopeBinder checkFvs m t
      scopeCheck checkFvs (m.minsert t) e
  | .eVar t => scopeVar checkFvs m t
  | .eCase e t b as _ => do
      scopeCheck checkFvs m e
      scopeCheck checkFvs m t
      scopeBinder checkFvs m b
      scopeAlts checkFvs (m.minsert b) as
  | .eLetRec ds e => do
      scopeBinders checkFvs m ds
      scopeCheck checkFvs (m.insertAll (ds.map Def.var)) e
  | .eAp e₁ e₂ => do
      scopeCheck checkFvs m e₁
      scopeCheck checkFvs m e₂
  | .unknown => .ok ()
  | .eSort _ => .ok ()
  | .eLit _ es t => do
      scopeCheck checkFvs m t
      scopeArgs checkFvs m es
  | .eLitInt _ t => scopeCheck checkFvs m t
  | .ePrim _ es t => do
      scopeArgs checkFvs m es
      scopeCheck checkFvs m t
  | .eError _ t => scopeCheck checkFvs m t

/-- `f (tvrType t)` -/
def scopeBinder (checkFvs : Bool) (m : Scope) : TVr → Except ScopeError Unit
  | .mk _ t => scopeCheck checkFvs m t

def scopeDefBinder (checkFvs : Bool) (m : Scope) : Def → Except ScopeError Unit
  | .mk t _ => scopeBinder checkFvs m t

def scopeBinders (checkFvs : Bool) (m : Scope) : List Def → Except ScopeError Unit
  | [] => .ok ()
  | d :: ds => do
      scopeDefBinder checkFvs m d
      scopeBinders checkFvs m ds

def scopeArgs (checkFvs : Bool) (m : Scope) : List E → Except ScopeError Unit
  | [] => .ok ()
  | e :: es => do
      scopeCheck checkFvs m e
      scopeArgs checkFvs m es

/-- `doAlt` -/
def scopeAlt (checkFvs : Bool) (m : Scope) : Alt → Except ScopeError Unit
  | .litCons _ xs t e => do
      scopeCheck checkFvs m t
      scopeCheck checkFvs (m.insertAll xs) e
  | .litInt _ t e => do
      scopeCheck checkFvs m t
      scopeCheck checkFvs m e

def scopeAlts (checkFvs : Bool) (m : Scope) : List Alt → Except ScopeError Unit
  | [] => .ok ()
  | a :: as => do
      scopeAlt checkFvs m a
      scopeAlts checkFvs m as

end

/-! ### The occurrences of variables in a term -/

/-- An occurrence with the scope it stands in. `visited` is off in the places that the check does
not look at. -/
structure Occurrence where
  visited : Bool
  scope : Scope
  var : TVr

def Occurrence.WellScoped (o : Occurrence) : Prop :=
  ∃ t, o.scope o.var.tvrIdent = some t ∧ same o.var.tvrType t.tvrType = true

mutual

def occurrences (v : Bool) (m : Scope) : E → List Occurrence
  | .eLam t e => occurrencesBinder v m t ++ occurrences v (m.minsert t) e
  | .ePi t e => occurrencesBinder v m t ++ occurrences v (m.minsert t) e
  | .eVar t => ⟨v, m, t⟩ :: occurrencesBinder false m t
  | .eCase e t b as d => occurrences v m e ++ occurrences v m t ++ occurrencesBinder v m b ++
      occurrencesAlts v (m.minsert b) as ++ occurrencesDefault (m.minsert b) d
  | .eLetRec ds e => occurrencesBinders v m ds ++
      occurrencesRhss (m.insertAll (ds.map Def.var)) ds ++
      occurrences v (m.insertAll (ds.map Def.var)) e
  | .eAp e₁ e₂ => occurrences v m e₁ ++ occurrences v m e₂
  | .unknown => []
  | .eSort _ => []
  | .eLit _ es t => occurrences v m t ++ occurrencesArgs v m es
  | .eLitInt _ t => occurrences v m t
  | .ePrim _ es t => occurrencesArgs v m es ++ occurrences v m t
  | .eError _ t => occurrences v m t

/-- The occurrences in the type of a variable. -/
def occurrencesBinder (v : Bool) (m : Scope) : TVr → List Occurrence
  | .mk _ t => occurrences v m t

def occurrencesDefBinder (v : Bool) (m : Scope) : Def → List Occurrence
  | .mk t _ => occurrencesBinder v m t

def occurrencesBinders (v : Bool) (m : Scope) : List Def → List Occurrence
  | [] => []
  | d :: ds => occurrencesDefBinder v m d ++ occurrencesBinders v m ds

def occurrencesRhs (m : Scope) : Def → List Occurrence
  | .mk _ e => occurrences false m e

def occurrencesRhss (m : Scope) : List Def → List Occurrence
  | [] => []
  | d :: ds => occurrencesRhs m d ++ occurrencesRhss m ds

def occurrencesArgs (v : Bool) (m : Scope) : List E → List Occurrence
  | [] => []
  | e :: es => occurrences v m e ++ occurrencesArgs v m es

/-- A variable of a pattern is in scope in the types of the later ones. -/
def occurrencesPattern (m : Scope) : List TVr → List Occurrence
  | [] => []
  | t :: ts => occurrencesBinder false m t ++ occurrencesPattern (m.minsert t) ts

def occurrencesAlt (v : Bool) (m : Scope) : Alt → List Occurrence
  | .litCons _ xs t e =>
      occurrences v m t ++ occurrencesPattern m xs ++ occurrences v (m.insertAll xs) e
  | .litInt _ t e => occurrences v m t ++ occurrences v m e

def occurrencesAlts (v : Bool) (m : Scope) : List Alt → List Occurrence
  | [] => []
  | a :: as => occurrencesAlt v m a ++ occurrencesAlts v m as

def occurrencesDefault (m : Scope) : Option E → List Occurrence
  | none => []
  | some e => occurrences false m e

end

attribute [local grind =] scopeCheck occurrences occurrencesBinders occurrencesAlt occurrencesAlts

end Jhc.E

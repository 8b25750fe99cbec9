import Jhc.E.Annotate

/-!
# Substitution at two levels (E/Subst.hs:153-163, 178-279)

`eAp`, which reduces an application that it builds, is a parameter. An `IdMap E` is the list
of its entries. Of the free variables that `typeSubst'` tracks only the names are used. The
binder of a lambda is opened by `ntvr`, which leaves an empty one as `lp` does.
-/

namespace Jhc.E

/-- `IdMap E` -/
abbrev Entries := List (Id × E)

namespace Entries

def keys (m : Entries) : List Id := m.map Prod.fst

def find (m : Entries) (i : Id) : Option E := (List.find? (fun p => p.1 = i) m).map Prod.snd

end Entries

namespace TypeSubst

/-- What the traversal carries: whether it is inside of a type, and the two maps. -/
structure Maps where
  wh : Bool
  trm : VarMap
  tp : Id → Option E

namespace Maps

def inType (r : Maps) : Maps := { r with wh := true }

/-- What is put for a variable. -/
def look (r : Maps) (i : Id) : Option E := if r.wh then r.tp i else (r.trm.mlookup i).join

def addMap (i : Id) : Option E → Maps → Maps
  | some e, r => ⟨r.wh, r.trm.minsert i (some e), Function.update r.tp i (some e)⟩
  | none, r => ⟨r.wh, r.trm.minsert i none, r.tp⟩

end Maps

def mnv (xs : List Id) (i : Id) (ss : VarMap) : Id :=
  if i = .emptyId ∨ i ∈ ss.keys then
    newId (mixInt (mixInt (BitVec.ofNat 64 xs.toFinset.card) 0) (BitVec.ofNat 64 ss.size)) (ss.keys ∪ xs.toFinset)
  else i

variable (eAp : E → E → E)

mutual

def f (r : Maps) : E → E
  | .eVar tvr => (r.look tvr.tvrIdent).getD (.eVar tvr)
  | .eLam tvr e =>
    let b := ntvr [] r tvr
    .eLam b.1 (f (b.2 r) e)
  | .ePi tvr e =>
    let b := ntvr [] r tvr
    .ePi b.1 (f (b.2 r) e)
  | .eAp a b => eAp (f r a) (f r b)
  | .eError x e => .eError x (f r.inType e)
  | .ePrim x es e => .ePrim x (fs r es) (f r.inType e)
  | .eLetRec dl e =>
    let rs := mapMntvrDefs (idents (dl.map Def.var)) r dl
    let r' := (rs.map Prod.snd).foldr (· ∘ ·) id r
    .eLetRec (List.zipWith Def.mk (rs.map Prod.fst) (fRhss r' dl)) (f r' e)
  | .eLitInt n t => .eLitInt n (f r.inType t)
  | .eLit n es t => .eLit n (fs r es) (f r.inType t)
  | .unknown => .unknown
  | .eSort s => .eSort s
  | .eCase e ty b as d =>
    let b' := ntvr [] r b
    .eCase (f r e) (f r.inType ty) b'.1 (das r as) (fDefault (b'.2 r) d)

def ntvr (xs : List Id) (r : Maps) : TVr → TVr × (Maps → Maps)
  | .mk i t =>
    if i = .emptyId then (.mk i (f r.inType t), id)
    else
      let i' := mnv xs i r.trm
      let nvr := TVr.mk i' (f r.inType t)
      if i = i' then (nvr, Maps.addMap i (some (.eVar nvr)))
      else (nvr, Maps.addMap i (some (.eVar nvr)) ∘ Maps.addMap i' none)

def mapMntvr (vs : List Id) (r : Maps) : List TVr → List (TVr × (Maps → Maps))
  | [] => []
  | t :: ts =>
    let b := ntvr vs r t
    b :: mapMntvr vs (b.2 r) ts

def ntvrDef (xs : List Id) (r : Maps) : Def → TVr × (Maps → Maps)
  | .mk t _ => ntvr xs r t

def mapMntvrDefs (vs : List Id) (r : Maps) : List Def → List (TVr × (Maps → Maps))
  | [] => []
  | d :: ds =>
    let b := ntvrDef vs r d
    b :: mapMntvrDefs vs (b.2 r) ds

def fRhs (r : Maps) : Def → E
  | .mk _ e => f r e

def fRhss (r : Maps) : List Def → List E
  | [] => []
  | d :: ds => fRhs r d :: fRhss r ds

def fs (r : Maps) : List E → List E
  | [] => []
  | e :: es => f r e :: fs r es

-- the alternatives stay outside of the scope of the case binder
def da (r : Maps) : Alt → Alt
  | .litCons s vs t e =>
    let rs := mapMntvr (idents vs) r vs
    .litCons s (rs.map Prod.fst) (f r.inType t) (f ((rs.map Prod.snd).foldr (· ∘ ·) id r) e)
  | .litInt n t e => .litInt n (f r.inType t) (f r e)

def das (r : Maps) : List Alt → List Alt
  | [] => []
  | a :: as => da r a :: das r as

def fDefault (r : Maps) : Option E → Option E
  | none => none
  | some e => some (f r e)

end

end TypeSubst

open TypeSubst in
def typeSubst (eAp : E → E → E) (termSubst : VarMap) (typeSubst : Entries) (e : E) : E :=
  if termSubst.keys = ∅ ∧ typeSubst = [] then e
  else f eAp ⟨false, ⟨termSubst.keys ∪ typeSubst.keys.toFinset,
    fun i => if i ∈ termSubst.keys then termSubst.val i else none⟩, typeSubst.find⟩ e

/-- The names that `typeSubst'` puts into the map of the variables in scope. -/
def tracked (termSub typeSub : Entries) (e : E) : List Id :=
  freeIds e ++ termSub.flatMap (fun p => freeIds p.2) ++ typeSub.flatMap fun p => freeIds p.2

def typeSubst' (eAp : E → E → E) (termSub typeSub : Entries) (e : E) : E :=
  if termSub = [] ∧ typeSub = [] then e
  else typeSubst eAp ⟨(termSub.keys ++ tracked termSub typeSub e).toFinset, termSub.find⟩ typeSub e

end Jhc.E

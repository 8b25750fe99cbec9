import Jhc.E.Alpha
import Jhc.E.NameSupply

/-!
# Annotation (E/Annotate.hs:74-156)

The annotation functions take the info of a variable to an info, which variables do not carry here.
-/

namespace Jhc.E

/-- `IdMap (Maybe E)` -/
structure VarMap where
  keys : Finset Id
  val : Id → Option E

namespace VarMap

def mlookup (i : Id) (m : VarMap) : Option (Option E) := if i ∈ m.keys then some (m.val i) else none

def minsert (i : Id) (v : Option E) (m : VarMap) : VarMap :=
  ⟨insert i m.keys, Function.update m.val i v⟩

def size (m : VarMap) : ℕ := m.keys.card

end VarMap

/-- `newId (size ss) isOkay` where the name clashes, or is no name at all. -/
def mnv (xs : List Id) (i : Id) (ss : VarMap) : Id :=
  if i = .emptyId ∨ i ∈ ss.keys then newId (BitVec.ofNat 64 ss.size) (ss.keys ∪ xs.toFinset) else i

namespace Annotate

mutual

def f (im : VarMap) : E → E
  | .eVar tvr =>
    match im.mlookup tvr.tvrIdent with
    | some (some v) => v
    | _ => .eVar tvr
  | .eLam tvr e =>
    let r := lp im tvr
    .eLam r.1 (f (r.2 im) e)
  | .ePi tvr e =>
    let r := lp im tvr
    .ePi r.1 (f (r.2 im) e)
  | .eAp a b => .eAp (f im a) (f im b)
  | .eError x e => .eError x (f im e)
  | .ePrim x es e => .ePrim x (fs im es) (f im e)
  | .eLetRec dl e =>
    let rs := mapMntvrDefs (idents (dl.map Def.var)) im dl
    let im' := (rs.map Prod.snd).foldr (· ∘ ·) id im
    .eLetRec (List.zipWith Def.mk (rs.map Prod.fst) (fRhss im' dl)) (f im' e)
  | .eLitInt n t => .eLitInt n (f im t)
  | .eLit n es t => .eLit n (fs im es) (f im t)
  | .unknown => .unknown
  | .eSort s => .eSort s
  | .eCase e t b as d =>
    let r := ntvr [] im b
    .eCase (f im e) (f im t) r.1 (das (r.2 im) as) (fDefault (r.2 im) d)

/-- The binder of a lambda, and what becomes of the map under it. -/
def lp (im : VarMap) : TVr → TVr × (VarMap → VarMap)
  | .mk n t =>
    if n = .emptyId then (.mk .emptyId (f im t), VarMap.minsert n none)
    else
      let i' := mnv [] n im
      let nvr := TVr.mk i' (f im t)
      if n = i' then (nvr, VarMap.minsert n (some (.eVar nvr)))
      else (nvr, VarMap.minsert n (some (.eVar nvr)) ∘ VarMap.minsert i' none)

def ntvr (xs : List Id) (im : VarMap) : TVr → TVr × (VarMap → VarMap)
  | .mk i t =>
    if i = .emptyId then (.mk i (f im t), id)
    else
      let i' := mnv xs i im
      let nvr := TVr.mk i' (f im t)
      if i = i' then (nvr, VarMap.minsert i (some (.eVar nvr)))
      else (nvr, VarMap.minsert i (some (.eVar nvr)) ∘ VarMap.minsert i' none)

def mapMntvr (vs : List Id) (im : VarMap) : List TVr → List (TVr × (VarMap → VarMap))
  | [] => []
  | t :: ts =>
    let r := ntvr vs im t
    r :: mapMntvr vs (r.2 im) ts

def ntvrDef (xs : List Id) (im : VarMap) : Def → TVr × (VarMap → VarMap)
  | .mk t _ => ntvr xs im t

def mapMntvrDefs (vs : List Id) (im : VarMap) : List Def → List (TVr × (VarMap → VarMap))
  | [] => []
  | d :: ds =>
    let r := ntvrDef vs im d
    r :: mapMntvrDefs vs (r.2 im) ds

def fRhs (im : VarMap) : Def → E
  | .mk _ e => f im e

def fRhss (im : VarMap) : List Def → List E
  | [] => []
  | d :: ds => fRhs im d :: fRhss im ds

def fs (im : VarMap) : List E → List E
  | [] => []
  | e :: es => f im e :: fs im es

def da (im : VarMap) : Alt → Alt
  | .litCons s vs t e =>
    let rs := mapMntvr (idents vs) im vs
    .litCons s (rs.map Prod.fst) (f im t) (f ((rs.map Prod.snd).foldr (· ∘ ·) id im) e)
  | .litInt n t e => .litInt n (f im t) (f im e)

def das (im : VarMap) : List Alt → List Alt
  | [] => []
  | a :: as => da im a :: das im as

def fDefault (im : VarMap) : Option E → Option E
  | none => none
  | some e => some (f im e)

end

attribute [local grind =] f ntvr mapMntvr mapMntvrDefs fRhss da das

end Annotate

def annotate (imap : VarMap) (e : E) : E := Annotate.f imap e

end Jhc.E

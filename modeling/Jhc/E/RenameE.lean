import Jhc.E.Alpha
import Jhc.E.NameSupply

/-!
# Unique names for the binders of a term (E/Traverse.hs:33-34, 91-160)
-/

namespace Jhc.E
open Jhc.FrontEnd.Exports (Name)

def Id.isNamed : Id → Bool
  | .toId _ => true
  | _ => false

/-- `IdMap E` -/
def IdMap := Id → Option E

namespace IdMap

def mempty : IdMap := fun _ => none

def msingleton (x : Id) (e : E) : IdMap := fun y => if y = x then some e else none

/-- The entries of the first map count. -/
def mappend (a b : IdMap) : IdMap := fun y => (a y).or (b y)

def mconcat (as : List IdMap) : IdMap := as.foldr mappend mempty

end IdMap

def Alt.litBinds : Alt → List TVr
  | .litInt _ _ _ => []
  | .litCons _ xs _ _ => xs

def caseBinds (b : TVr) (as : List Alt) : List TVr := b :: as.flatMap Alt.litBinds

namespace Rename

def chooseName (ralways : Bool) (n : Id) : IdNameT Id :=
  if !ralways || n.isNamed then uniqueName n else newName

mutual

def f (im : IdMap) : E → IdNameT E
  | .eAp a b => do
      let a' ← f im a
      let b' ← f im b
      return .eAp a' b'
  | .eLit n xs t => do
      let xs' ← fs im xs
      let t' ← f im t
      return .eLit n xs' t'
  | .eLitInt n t => do
      let t' ← f im t
      return .eLitInt n t'
  | .eError x t => do
      let t' ← f im t
      return .eError x t'
  | .ePrim n es t => do
      let es' ← fs im es
      let t' ← f im t
      return .ePrim n es' t'
  | .eLam tvr e => do
      let r ← ntvr true im tvr
      let e' ← f (r.1.mappend im) e
      return .eLam r.2 e'
  | .ePi tvr e => do
      let r ← ntvr true im tvr
      let e' ← f (r.1.mappend im) e
      return .ePi r.2 e'
  | .eVar tvr => return (im tvr.tvrIdent).getD (.eVar tvr)
  | .eSort s => return .eSort s
  | .unknown => return .unknown
  | .eCase e t b as d => do
      let e' ← f im e
      let t' ← f im t
      addNames (idents (caseBinds b as))
      let r ← ntvr false im b
      let as' ← das (r.1.mappend im) as
      let d' ← fDefault (r.1.mappend im) d
      return .eCase e' t' r.2 as' d'
  | .eLetRec ds e => do
      addNames (idents (ds.map Def.var))
      let ds' ← ntvrDefs im ds
      let es ← fRhss ((IdMap.mconcat (ds'.map Prod.fst)).mappend im) ds
      let e' ← f ((IdMap.mconcat (ds'.map Prod.fst)).mappend im) e
      return .eLetRec (List.zipWith Def.mk (ds'.map Prod.snd) es) e'

/-- A binder under its new name, with the substitution that it asks for. -/
def ntvr (ralways : Bool) (im : IdMap) : TVr → IdNameT (IdMap × TVr)
  | .mk n t =>
      if n = .emptyId then do
        let t' ← f im t
        return (IdMap.mempty, .mk n t')
      else do
        let n' ← chooseName ralways n
        let t' ← f im t
        return (IdMap.msingleton n (.eVar (.mk n' t')), .mk n' t')

def ntvrs (im : IdMap) : List TVr → IdNameT (List (IdMap × TVr))
  | [] => return []
  | t :: ts => do
      let r ← ntvr false im t
      let rs ← ntvrs im ts
      return r :: rs

def ntvrDef (im : IdMap) : Def → IdNameT (IdMap × TVr)
  | .mk t _ => ntvr false im t

def ntvrDefs (im : IdMap) : List Def → IdNameT (List (IdMap × TVr))
  | [] => return []
  | d :: ds => do
      let r ← ntvrDef im d
      let rs ← ntvrDefs im ds
      return r :: rs

def fRhs (im : IdMap) : Def → IdNameT E
  | .mk _ e => f im e

def fRhss (im : IdMap) : List Def → IdNameT (List E)
  | [] => return []
  | d :: ds => do
      let e' ← fRhs im d
      let es' ← fRhss im ds
      return e' :: es'

def fs (im : IdMap) : List E → IdNameT (List E)
  | [] => return []
  | e :: es => do
      let e' ← f im e
      let es' ← fs im es
      return e' :: es'

def da (im : IdMap) : Alt → IdNameT Alt
  | .litCons n xs t l => do
      let t' ← f im t
      let xs' ← ntvrs im xs
      let l' ← f ((IdMap.mconcat (xs'.map Prod.fst)).mappend im) l
      return .litCons n (xs'.map Prod.snd) t' l'
  | .litInt n t l => do
      let t' ← f im t
      let l' ← f im l
      return .litInt n t' l'

def das (im : IdMap) : List Alt → IdNameT (List Alt)
  | [] => return []
  | a :: as => do
      let a' ← da im a
      let as' ← das im as
      return a' :: as'

def fDefault (im : IdMap) : Option E → IdNameT (Option E)
  | none => return none
  | some e => do
      let e' ← f im e
      return some e'

end

end Rename

/-- The term and the names bound at the end. -/
def runRename (s : Finset Id) (e : E) : E × Finset Id :=
  let r := Rename.f IdMap.mempty e ⟨s, s, Finset.Subset.refl s⟩
  (r.1, r.2.bound)

end Jhc.E

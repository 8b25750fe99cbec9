import Jhc.E.Syntax
import Jhc.Lib.Nameless

/-!
# Terms of E up to the names of their binders

The types of the binders of a letrec stand outside the group, and the variables of a pattern are in
scope in the types of the later ones (as in E/Traverse.hs:162-183 and E/Annotate.hs:128-133). Of two
equal binders of one group the first counts.
-/

namespace Jhc.E
open Jhc.FrontEnd.Exports (Name)
open Jhc.Nameless

/-- The constructors with what they carry besides terms and binders. -/
inductive Label where
  | ap | lam | pi | unknown | letRec | group | case
  | sort (s : ESort)
  | litInt (n : ℤ)
  | lit (litName : Name)
  | prim (p : C.Prim)
  | error (s : String)
  | altInt (n : ℤ)
  | altCons (litName : Name)

def idents (ts : List TVr) : List Id := ts.map TVr.tvrIdent

def group (ts : List (Skeleton Id Label)) : Skeleton Id Label := .node .group ts

theorem group_inj {ts us : List (Skeleton Id Label)} : group ts = group us ↔ ts = us := by
  constructor
  · intro h
    injection h
  · intro h
    rw [h]

theorem node_inj {l : Label} {ts us : List (Skeleton Id Label)} :
    Skeleton.node l ts = Skeleton.node l us ↔ ts = us := by
  constructor
  · intro h
    injection h
  · intro h
    rw [h]

theorem node_one {l : Label} {a b : Skeleton Id Label} : Skeleton.node l [a] = .node l [b] ↔ a = b := by
  rw [node_inj,List.cons.injEq,and_iff_left rfl]

theorem node_two {l : Label} {a a' b b' : Skeleton Id Label} :
    Skeleton.node l [a, b] = .node l [a', b'] ↔ a = a' ∧ b = b' := by
  rw [node_inj,List.cons.injEq,List.cons.injEq]
  exact and_congr_right fun _ => and_iff_left rfl

theorem node_three {l : Label} {a a' b b' c c' : Skeleton Id Label} :
    Skeleton.node l [a, b, c] = .node l [a', b', c'] ↔ a = a' ∧ b = b' ∧ c = c' := by
  rw [node_inj,List.cons.injEq,← node_inj (l := l),node_two]

theorem node_five {l : Label} {a a' b b' c c' d d' e e' : Skeleton Id Label} :
    Skeleton.node l [a, b, c, d, e] = .node l [a', b', c', d', e'] ↔
      a = a' ∧ b = b' ∧ c = c' ∧ d = d' ∧ e = e' := by
  rw [node_inj,List.cons.injEq,List.cons.injEq,← node_inj (l := l),node_three]

theorem filter_singleton (x : Id) (ys : List Id) :
    ys.filter (· ∉ [x]) = ys.filter (· ≠ x) := by
  simp only [List.mem_singleton]

mutual

/-- The term under the binders `Γ`, without names. -/
def nameless (Γ : List Id) : E → Skeleton Id Label
  | .eAp f a => .node .ap [nameless Γ f, nameless Γ a]
  | .eLam t e => .node .lam [namelessVar Γ t, nameless (t.tvrIdent :: Γ) e]
  | .ePi t e => .node .pi [namelessVar Γ t, nameless (t.tvrIdent :: Γ) e]
  | .eVar t => .var (ref Γ t.tvrIdent)
  | .unknown => .node .unknown []
  | .eSort s => .node (.sort s) []
  | .eLitInt n t => .node (.litInt n) [nameless Γ t]
  | .eLit n es t => .node (.lit n) [group (namelessArgs Γ es), nameless Γ t]
  | .eLetRec ds e => .node .letRec [group (namelessBinders Γ ds),
      group (namelessRhss (idents (ds.map Def.var) ++ Γ) ds),
      nameless (idents (ds.map Def.var) ++ Γ) e]
  | .ePrim p es t => .node (.prim p) [group (namelessArgs Γ es), nameless Γ t]
  | .eError s t => .node (.error s) [nameless Γ t]
  | .eCase e t b as d => .node .case [nameless Γ e, nameless Γ t, namelessVar Γ b,
      group (namelessAlts (b.tvrIdent :: Γ) as), group (namelessDefault (b.tvrIdent :: Γ) d)]

/-- The type of a binder. -/
def namelessVar (Γ : List Id) : TVr → Skeleton Id Label
  | .mk _ t => nameless Γ t

def namelessBinder (Γ : List Id) : Def → Skeleton Id Label
  | .mk t _ => namelessVar Γ t

def namelessBinders (Γ : List Id) : List Def → List (Skeleton Id Label)
  | [] => []
  | d :: ds => namelessBinder Γ d :: namelessBinders Γ ds

def namelessRhs (Γ : List Id) : Def → Skeleton Id Label
  | .mk _ e => nameless Γ e

def namelessRhss (Γ : List Id) : List Def → List (Skeleton Id Label)
  | [] => []
  | d :: ds => namelessRhs Γ d :: namelessRhss Γ ds

def namelessArgs (Γ : List Id) : List E → List (Skeleton Id Label)
  | [] => []
  | e :: es => nameless Γ e :: namelessArgs Γ es

def namelessPattern (Γ : List Id) : List TVr → List (Skeleton Id Label)
  | [] => []
  | t :: ts => namelessVar Γ t :: namelessPattern (t.tvrIdent :: Γ) ts

def namelessAlt (Γ : List Id) : Alt → Skeleton Id Label
  | .litInt n t e => .node (.altInt n) [nameless Γ t, nameless Γ e]
  | .litCons n xs t e => .node (.altCons n) [nameless Γ t, group (namelessPattern Γ xs),
      nameless (idents xs ++ Γ) e]

def namelessAlts (Γ : List Id) : List Alt → List (Skeleton Id Label)
  | [] => []
  | a :: as => namelessAlt Γ a :: namelessAlts Γ as

def namelessDefault (Γ : List Id) : Option E → List (Skeleton Id Label)
  | none => []
  | some e => [nameless Γ e]

end

/-- The terms differ in the names of their binders only. -/
def AlphaEquiv (e e' : E) : Prop := nameless [] e = nameless [] e'

/-! ### Groups of a letrec, put together from their binders and right-hand sides -/

variable {Γ : List Id}

attribute [local grind =] nameless namelessVar namelessBinders namelessRhss namelessArgs namelessPattern namelessAlt namelessAlts namelessDefault

theorem namelessBinders_zip {ts : List TVr} {es : List E} (h : ts.length = es.length) :
    namelessBinders Γ (List.zipWith Def.mk ts es) = ts.map (namelessVar Γ) := by
  induction ts generalizing es with
  | nil => rfl
  | cons t ts ih =>
    cases es with
    | nil => cases h
    | cons e es => exact congrArg (namelessVar Γ t :: ·) (ih (Nat.succ.inj h))

theorem namelessRhss_zip {ts : List TVr} {es : List E} (h : ts.length = es.length) :
    namelessRhss Γ (List.zipWith Def.mk ts es) = namelessArgs Γ es := by
  induction ts generalizing es with
  | nil =>
    cases es with
    | nil => rfl
    | cons e es => cases h
  | cons t ts ih =>
    cases es with
    | nil => cases h
    | cons e es => exact congrArg (nameless Γ e :: ·) (ih (Nat.succ.inj h))

theorem vars_zip {ts : List TVr} {es : List E} (h : ts.length = es.length) :
    (List.zipWith Def.mk ts es).map Def.var = ts := by
  induction ts generalizing es with
  | nil => rfl
  | cons t ts ih =>
    cases es with
    | nil => cases h
    | cons e es => exact congrArg (t :: ·) (ih (Nat.succ.inj h))

theorem nameless_letrec {ts : List TVr} {es : List E} {e : E} (h : ts.length = es.length) :
    nameless Γ (.eLetRec (List.zipWith Def.mk ts es) e) =
      .node .letRec [group (ts.map (namelessVar Γ)), group (namelessArgs (idents ts ++ Γ) es),
        nameless (idents ts ++ Γ) e] := by
  rw [nameless,namelessBinders_zip h,namelessRhss_zip h,vars_zip h]

/-! ### Free variables -/

mutual

def free : E → List Id
  | .eAp f a => free f ++ free a
  | .eLam t e => freeVar t ++ (free e).filter (· ≠ t.tvrIdent)
  | .ePi t e => freeVar t ++ (free e).filter (· ≠ t.tvrIdent)
  | .eVar t => [t.tvrIdent]
  | .unknown => []
  | .eSort _ => []
  | .eLitInt _ t => free t
  | .eLit _ es t => freeArgs es ++ free t
  | .eLetRec ds e => freeBinders ds ++
      (freeRhss ds ++ free e).filter (· ∉ idents (ds.map Def.var))
  | .ePrim _ es t => freeArgs es ++ free t
  | .eError _ t => free t
  | .eCase e t b as d => free e ++ free t ++ freeVar b ++
      (freeAlts as ++ freeDefault d).filter (· ≠ b.tvrIdent)

def freeVar : TVr → List Id
  | .mk _ t => free t

def freeBinder : Def → List Id
  | .mk t _ => freeVar t

def freeBinders : List Def → List Id
  | [] => []
  | d :: ds => freeBinder d ++ freeBinders ds

def freeRhs : Def → List Id
  | .mk _ e => free e

def freeRhss : List Def → List Id
  | [] => []
  | d :: ds => freeRhs d ++ freeRhss ds

def freeArgs : List E → List Id
  | [] => []
  | e :: es => free e ++ freeArgs es

def freePattern : List TVr → List Id
  | [] => []
  | t :: ts => freeVar t ++ (freePattern ts).filter (· ≠ t.tvrIdent)

def freeAlt : Alt → List Id
  | .litInt _ t e => free t ++ free e
  | .litCons _ xs t e => free t ++ freePattern xs ++ (free e).filter (· ∉ idents xs)

def freeAlts : List Alt → List Id
  | [] => []
  | a :: as => freeAlt a ++ freeAlts as

def freeDefault : Option E → List Id
  | none => []
  | some e => free e

end

/-! ### Binders -/

/-- A binder; the empty identifier marks an unused binding site (Name/Id.hs:60-76). -/
def named (x : Id) : List Id := if x = .emptyId then [] else [x]

mutual

def binders : E → List Id
  | .eAp f a => binders f ++ binders a
  | .eLam t e => bindersVar t ++ binders e
  | .ePi t e => bindersVar t ++ binders e
  | .eVar _ => []
  | .unknown => []
  | .eSort _ => []
  | .eLitInt _ t => binders t
  | .eLit _ es t => bindersArgs es ++ binders t
  | .eLetRec ds e => bindersBinders ds ++ bindersRhss ds ++ binders e
  | .ePrim _ es t => bindersArgs es ++ binders t
  | .eError _ t => binders t
  | .eCase e t b as d =>
      binders e ++ binders t ++ bindersVar b ++ bindersAlts as ++ bindersDefault d

/-- A variable that is bound, and the binders in its type. -/
def bindersVar : TVr → List Id
  | .mk x t => named x ++ binders t

def bindersBinder : Def → List Id
  | .mk t _ => bindersVar t

def bindersBinders : List Def → List Id
  | [] => []
  | d :: ds => bindersBinder d ++ bindersBinders ds

def bindersRhs : Def → List Id
  | .mk _ e => binders e

def bindersRhss : List Def → List Id
  | [] => []
  | d :: ds => bindersRhs d ++ bindersRhss ds

def bindersArgs : List E → List Id
  | [] => []
  | e :: es => binders e ++ bindersArgs es

def bindersVars : List TVr → List Id
  | [] => []
  | t :: ts => bindersVar t ++ bindersVars ts

def bindersAlt : Alt → List Id
  | .litInt _ t e => binders t ++ binders e
  | .litCons _ xs t e => binders t ++ bindersVars xs ++ binders e

def bindersAlts : List Alt → List Id
  | [] => []
  | a :: as => bindersAlt a ++ bindersAlts as

def bindersDefault : Option E → List Id
  | none => []
  | some e => binders e

end

attribute [local grind =] free freeBinders freeRhss freeArgs freePattern freeAlt freeAlts

end Jhc.E

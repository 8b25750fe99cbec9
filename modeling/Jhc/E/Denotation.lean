import Jhc.E.Syntax
import Jhc.Lib.Information

/-!
# What an expression of E means

`Den prim ρ e b` derives a fact `b` of the value of `e` where the variables have the values
`ρ`; `prim` are the finite facts of the primitives: from facts of the arguments, each with
the place of its argument, to a fact of the result. The value of a recursive definition is
the least one, a fact of it being one that is derived by unfolding it finitely often.
-/

namespace Jhc.E
open Jhc.Lib Jhc.Lib.Value
open Jhc.FrontEnd.Exports (Name)

/-- What a value in head normal form that is not a function is built by. -/
inductive Head where
  | con (n : Name)
  | int (n : ℤ)
  | sort (s : ESort)
  deriving DecidableEq

abbrev Inf := Fact Head
abbrev Val := Value Head
abbrev PrimTable := C.Prim → List (ℕ × Inf) → Inf → Prop

def tc_Arrow : Name := ⟨.TypeConstructor, some "Jhc@".toList, "->".toList⟩

/-! ### Environments -/

abbrev Env := Id → Val

namespace Env

def set (ρ : Env) (t : TVr) (v : Val) : Env := fun x => if x = t.tvrIdent then v else ρ x

def sets (ρ : Env) : List TVr → List Val → Env
  | t :: ts, v :: vs => sets (ρ.set t v) ts vs
  | _, _ => ρ

end Env

def lookupDef (ds : List Def) (x : Id) : Option E := (ds.find? fun d => d.var.tvrIdent = x).map Def.rhs

def Env.recs (ρ : Env) (ds : List Def) (v : Id → Val) : Env := fun x => if (lookupDef ds x).isSome then v x else ρ x

/-! ### Alternatives -/

def Alt.accepts : Alt → Option Head → Bool
  | .litInt n _ _, some (.int m) => n = m
  | .litCons c _ _ _, some (.con d) => c = d
  | _, _ => false

/-- The variables and the expression of the alternative that is taken for a value of form `k`. -/
def selects (as : List Alt) (d : Option E) (k : Option Head) : Option (List TVr × E) :=
  match as.find? (·.accepts k) with
  | some (.litInt _ _ e) => some ([], e)
  | some (.litCons _ xs _ e) => some (xs, e)
  | none => d.map ([], ·)

/-! ### Facts of the value of an expression -/

inductive Den (prim : PrimTable) : Env → E → Inf → Prop
  | var {ρ : Env} {t : TVr} {b : Inf} (h : b ∈ ρ t.tvrIdent) : Den prim ρ (.eVar t) b
  | fn {ρ : Env} {t : TVr} {e : E} : Den prim ρ (.eLam t e) .fn
  | lam {ρ : Env} {t : TVr} {e : E} {β : List Inf} {b : Inf} (h : Den prim (ρ.set t (ofList β)) e b) :
      Den prim ρ (.eLam t e) (.arrow β b)
  | ap {ρ : Env} {f a : E} {β : List Inf} {b : Inf} (hf : Den prim ρ f (.arrow β b)) (ha : ∀ c ∈ β, Den prim ρ a c) :
      Den prim ρ (.eAp f a) b
  | piCon {ρ : Env} {t : TVr} {e : E} : Den prim ρ (.ePi t e) (.con (.con tc_Arrow))
  | piFrom {ρ : Env} {t : TVr} {e : E} {b : Inf} (h : Den prim (ρ.set t ∅) t.tvrType b) :
      Den prim ρ (.ePi t e) (.field (.con tc_Arrow) 0 b)
  | piTo {ρ : Env} {t : TVr} {e : E} {b : Inf} (h : Den prim (ρ.set t ∅) e b) :
      Den prim ρ (.ePi t e) (.field (.con tc_Arrow) 1 b)
  | sort {ρ : Env} {s : ESort} : Den prim ρ (.eSort s) (.con (.sort s))
  | int {ρ : Env} {n : ℤ} {t : E} : Den prim ρ (.eLitInt n t) (.con (.int n))
  | con {ρ : Env} {c : Name} {es : List E} {t : E} : Den prim ρ (.eLit c es t) (.con (.con c))
  | field {ρ : Env} {c : Name} {es : List E} {t e : E} {i : ℕ} {b : Inf} (hi : es[i]? = some e) (h : Den prim ρ e b) :
      Den prim ρ (.eLit c es t) (.field (.con c) i b)
  | letRec {ρ : Env} {ds : List Def} {e : E} {b : Inf} (β : List (Id × Inf))
      (hβ : ∀ p ∈ β, ∀ e, lookupDef ds p.1 = some e → Den prim ρ (.eLetRec ds e) p.2)
      (h : Den prim (ρ.recs ds fun x => {c | (x, c) ∈ β}) e b) : Den prim ρ (.eLetRec ds e) b
  | prim {ρ : Env} {p : C.Prim} {es : List E} {t : E} {b : Inf} (β : List (ℕ × Inf))
      (hlt : ∀ q ∈ β, q.1 < es.length) (hβ : ∀ q ∈ β, ∀ e, es[q.1]? = some e → Den prim ρ e q.2) (h : prim p β b) :
      Den prim ρ (.ePrim p es t) b
  | caseOf {ρ : Env} {e ty : E} {t : TVr} {as : List Alt} {d : Option E} {h : Inf} {k : Option Head} {xs : List TVr}
      {e' : E} {b : Inf} (β : List Inf) (βs : List (List Inf)) (hh : Den prim ρ e h) (hk : h.head? = some k)
      (hsel : selects as d k = some (xs, e')) (hβ : ∀ c ∈ β, Den prim ρ e c) (hlen : βs.length = xs.length)
      (hβs : ∀ p ∈ βs.zipIdx, ∀ c ∈ p.1, ∀ n, k = some n → Den prim ρ e (.field n p.2 c))
      (hb : Den prim ((ρ.set t (ofList β)).sets xs (βs.map ofList)) e' b) : Den prim ρ (.eCase e ty t as d) b

def den (prim : PrimTable) (ρ : Env) (e : E) : Val := {b | Den prim ρ e b}

end Jhc.E

/-!
# What an expression means where arguments have the types of their parameters

`DenOn ok` is `Den` with functions that answer only to arguments whose facts are `ok` of the
parameter: calls that a program with correct types does not make have no value.
-/

namespace Jhc.E
open Jhc.Lib Jhc.Lib.Value
open Jhc.FrontEnd.Exports (Name)

inductive DenOn (ok : TVr → Inf → Prop) (prim : PrimTable) : Env → E → Inf → Prop
  | var {ρ : Env} {t : TVr} {b : Inf} (h : b ∈ ρ t.tvrIdent) : DenOn ok prim ρ (.eVar t) b
  | fn {ρ : Env} {t : TVr} {e : E} : DenOn ok prim ρ (.eLam t e) .fn
  | lam {ρ : Env} {t : TVr} {e : E} {β : List Inf} {b : Inf} (hok : ∀ c ∈ β, ok t c)
      (h : DenOn ok prim (ρ.set t (ofList β)) e b) : DenOn ok prim ρ (.eLam t e) (.arrow β b)
  | ap {ρ : Env} {f a : E} {β : List Inf} {b : Inf} (hf : DenOn ok prim ρ f (.arrow β b)) (ha : ∀ c ∈ β, DenOn ok prim ρ a c) :
      DenOn ok prim ρ (.eAp f a) b
  | piCon {ρ : Env} {t : TVr} {e : E} : DenOn ok prim ρ (.ePi t e) (.con (.con tc_Arrow))
  | piFrom {ρ : Env} {t : TVr} {e : E} {b : Inf} (h : DenOn ok prim (ρ.set t ∅) t.tvrType b) :
      DenOn ok prim ρ (.ePi t e) (.field (.con tc_Arrow) 0 b)
  | piTo {ρ : Env} {t : TVr} {e : E} {b : Inf} (h : DenOn ok prim (ρ.set t ∅) e b) :
      DenOn ok prim ρ (.ePi t e) (.field (.con tc_Arrow) 1 b)
  | sort {ρ : Env} {s : ESort} : DenOn ok prim ρ (.eSort s) (.con (.sort s))
  | int {ρ : Env} {n : ℤ} {t : E} : DenOn ok prim ρ (.eLitInt n t) (.con (.int n))
  | con {ρ : Env} {c : Name} {es : List E} {t : E} : DenOn ok prim ρ (.eLit c es t) (.con (.con c))
  | field {ρ : Env} {c : Name} {es : List E} {t e : E} {i : ℕ} {b : Inf} (hi : es[i]? = some e) (h : DenOn ok prim ρ e b) :
      DenOn ok prim ρ (.eLit c es t) (.field (.con c) i b)
  | letRec {ρ : Env} {ds : List Def} {e : E} {b : Inf} (β : List (Id × Inf))
      (hβ : ∀ p ∈ β, ∀ e, lookupDef ds p.1 = some e → DenOn ok prim ρ (.eLetRec ds e) p.2)
      (h : DenOn ok prim (ρ.recs ds fun x => {c | (x, c) ∈ β}) e b) : DenOn ok prim ρ (.eLetRec ds e) b
  | prim {ρ : Env} {p : C.Prim} {es : List E} {t : E} {b : Inf} (β : List (ℕ × Inf))
      (hlt : ∀ q ∈ β, q.1 < es.length) (hβ : ∀ q ∈ β, ∀ e, es[q.1]? = some e → DenOn ok prim ρ e q.2) (h : prim p β b) :
      DenOn ok prim ρ (.ePrim p es t) b
  | caseOf {ρ : Env} {e ty : E} {t : TVr} {as : List Alt} {d : Option E} {h : Inf} {k : Option Head} {xs : List TVr}
      {e' : E} {b : Inf} (β : List Inf) (βs : List (List Inf)) (hh : DenOn ok prim ρ e h) (hk : h.head? = some k)
      (hsel : selects as d k = some (xs, e')) (hβ : ∀ c ∈ β, DenOn ok prim ρ e c) (hlen : βs.length = xs.length)
      (hβs : ∀ p ∈ βs.zipIdx, ∀ c ∈ p.1, ∀ n, k = some n → DenOn ok prim ρ e (.field n p.2 c))
      (hb : DenOn ok prim ((ρ.set t (ofList β)).sets xs (βs.map ofList)) e' b) : DenOn ok prim ρ (.eCase e ty t as d) b


theorem DenOn.den {ok : TVr → Inf → Prop} {prim : PrimTable} {ρ : Env} {e : E} {b : Inf} (h : DenOn ok prim ρ e b) :
    Den prim ρ e b := by
  induction h with
  | var h => exact .var h
  | fn => exact .fn
  | lam _ _ ih => exact .lam ih
  | ap _ _ ihf iha => exact .ap ihf iha
  | piCon => exact .piCon
  | piFrom _ ih => exact .piFrom ih
  | piTo _ ih => exact .piTo ih
  | sort => exact .sort
  | int => exact .int
  | con => exact .con
  | field hi _ ih => exact .field hi ih
  | letRec β _ _ ihβ ih => exact .letRec β ihβ ih
  | prim β hlt _ h ihβ => exact .prim β hlt ihβ h
  | caseOf β βs _ hk hsel _ hlen _ _ ihh ihβ ihβs ih => exact .caseOf β βs ihh hk hsel ihβ hlen ihβs ih

/-- Where every argument will do, `DenOn` is `Den`. -/
theorem Den.denOn {prim : PrimTable} {ρ : Env} {e : E} {b : Inf} (h : Den prim ρ e b) :
    DenOn (fun _ _ => True) prim ρ e b := by
  induction h with
  | var h => exact .var h
  | fn => exact .fn
  | lam _ ih => exact .lam (fun _ _ => trivial) ih
  | ap _ _ ihf iha => exact .ap ihf iha
  | piCon => exact .piCon
  | piFrom _ ih => exact .piFrom ih
  | piTo _ ih => exact .piTo ih
  | sort => exact .sort
  | int => exact .int
  | con => exact .con
  | field hi _ ih => exact .field hi ih
  | letRec β _ _ ihβ ih => exact .letRec β ihβ ih
  | prim β hlt _ h ihβ => exact .prim β hlt ihβ h
  | caseOf β βs _ hk hsel _ hlen _ _ ihh ihβ ihβs ih => exact .caseOf β βs ihh hk hsel ihβ hlen ihβs ih

end Jhc.E

import Jhc.E.CprSound

/-!
# Calls of annotated functions

A function with a constructed product as its annotation is called with as many arguments
as the annotation has lambdas: where the call returns, it returns the product.
-/

namespace Jhc.E.Cpr
open Jhc.Lib Jhc.Lib.Value
open Jhc.FrontEnd.Exports (Name)
open Jhc.Util (IsScc)

variable {T : Tables} {env : Env} {ds : List Def} {v : Val} {u : E.Val} {args : List E.Val} {b : Inf}

def funs : ℕ → Val → Val
  | 0, v => v
  | k + 1, v => .fun (funs k v)

/-- The `i`-th component of a value built by the constructor. -/
def component (u : E.Val) (n : Name) (i : ℕ) : E.Val := {b | .field (.con n) i b ∈ u}

/-- The value is built by the constructor, with components that the values describe. -/
structure Returns (n : Name) (vs : List Val) (u : E.Val) : Prop where
  con : .con (.con n) ∈ u
  only : ∀ h ∈ u, h.head?.isSome → h = .con (.con n)
  components : ∀ i v, vs[i]? = some v → ∀ b ∈ component u n i, Fits v b

/-- What a function annotated with a constructed product returns when it is called with all
its arguments. -/
def Honest (u : E.Val) (a : Val) : Prop :=
  ∀ k n vs, a = funs k (.tup n vs) → ∀ args : List E.Val, args.length = k → (applies u args).Defined →
    Returns n vs (applies u args)

/-- The value of a variable of the group. -/
def valueOf (T : Tables) (prim : PrimTable) (ρ : E.Env) (ds : List Def) (t : TVr) : E.Val :=
  {b | DenOn (OfType T) prim ρ (.eLetRec ds (.eVar t)) b}

/-- Each function of the group that is annotated with a constructed product returns it. -/
def Sound (T : Tables) (prim : PrimTable) (ρ : E.Env) (env : Env) (ds : List Def) : Prop :=
  ∀ p ∈ (cprAnalyzeBinds T env ds).1, Honest (valueOf T prim ρ ds p.1.var) p.2

/-- The group binds distinct variables, which nothing in it binds again; what its cases bind
carries no value from elsewhere, and what is bound outside of it has one that the
environment describes. -/
structure Admissible (T : Tables) (ρ : E.Env) (env : Env) (ds : List Def) : Prop where
  nodup : (ds.map fun d => d.var.tvrIdent).Nodup
  apart : ∀ d ∈ ds, d.var.tvrIdent ∉ caseVarsDefs ds
  hygienic : HygienicDefs ds
  plain : ∀ x ∈ caseVarsDefs ds, Plain T env x
  describes : ∀ v : TVr, v.tvrIdent ∈ freeIdsDefs ds → v.tvrIdent ∉ ds.map (fun d => d.var.tvrIdent) →
    ∀ b ∈ ρ v.tvrIdent, Fits (cprAnalyze T (.eVar v) env) b

/-- One more round of any recursive group of the let, or of a let inside, would change no value. -/
def SettledBinds (T : Tables) (env : Env) (ds : List Def) : Prop :=
  GroupsSettled env (decomposeDs T (nodes T ds)) ∧ SettledDefs T ds (cprAnalyzeBinds T env ds).2

/-! ### Calls -/

theorem fits_applies {k : ℕ} (hu : ∀ b ∈ u, Fits (funs k v) b) (hlen : args.length = k) (hb : b ∈ applies u args) :
    Fits v b := by
  induction k generalizing u args with
  | zero =>
    cases List.length_eq_zero_iff.1 hlen
    exact hu b hb
  | succ k ih =>
    cases args with
    | nil => cases hlen
    | cons a args =>
      rw [applies_cons] at hb
      refine ih (fun c hc => ?_) (by simpa using hlen) hb
      obtain ⟨β, hβ, -⟩ := hc
      have hfit := hu _ hβ
      rwa [funs, Fits] at hfit

theorem honest_of_fits {a : Val} (hu : ∀ b ∈ u, Fits a b) : Honest u a := by
  rintro k n vs rfl args hlen ⟨h, hh, hsome⟩
  have hfit : ∀ b ∈ applies u args, Fits (.tup n vs) b := fun b hb => fits_applies hu hlen hb
  have honly : ∀ h ∈ applies u args, h.head?.isSome → h = .con (.con n) := by
    intro h hh hsome
    have hfit := hfit h hh
    cases h with
    | con k =>
      rw [Fits] at hfit
      rw [hfit]
    | fn => simp [Fits] at hfit
    | _ => cases hsome
  refine ⟨?_, honly, fun i v hv b hb => ?_⟩
  · rw [← honly h hh hsome]
    exact hh
  · have hfield := hfit _ hb
    rw [Fits] at hfield
    exact fitsAt_iff.1 hfield.2 v hv

theorem hygienic_eVar {t : TVr} : Hygienic (.eVar t) := by
  rw [Hygienic] <;> simp

theorem settled_eVar {t : TVr} : Settled T (.eVar t) env := by
  rw [Settled] <;> simp

theorem caseVars_eVar {t : TVr} : caseVars (.eVar t) = [] := by
  rw [caseVars] <;> simp

namespace Calls

def x : TVr := .mk (.anonymous 2) .unknown

def f : TVr := .mk (.anonymous 4) .unknown

def dc_Cons : Name := ⟨.DataConstructor, some "Jhc.Prim.Prim".toList, ":".toList⟩

def tables : Tables where
  getConstructor _ := none
  followAliases := id
  lt _ _ := false
  isStrict _ := false
  info _ := none
  gscc es := match List.range es.length with
    | [] => []
    | v :: vs => [.node v (vs.map fun v => .node v [])]

theorem decs_leaves (vs : List ℕ) : Util.decs (vs.map fun v => .node v []) = vs := by
  induction vs with
  | nil => rfl
  | cons v vs ih =>
    rw [List.map_cons, Util.decs, ih, Util.Tree.dec, Util.decs]
    rfl

theorem isScc (es : List (List ℕ)) : IsScc es (tables.gscc es) := by
  unfold tables
  dsimp only
  split
  · rename_i heq
    refine ⟨?_, .nil⟩
    rw [heq]
    exact .refl _
  · rename_i v vs heq
    refine ⟨List.Perm.of_eq ?_, List.pairwise_singleton _ _⟩
    rw [heq, List.flatMap_singleton, Util.Tree.dec, decs_leaves]

/-- `f = \x -> 1 : f x` -/
def ones : Def := .mk f (.eLam x (.eLit dc_Cons [.eLitInt 1 .unknown, .eAp (.eVar f) (.eVar x)] .unknown))

/-- `f = \x -> case x of { 0 -> 1 : x; _ -> f x }` -/
def once : Def := .mk f (.eLam x (.eCase (.eVar x) .unknown (.mk .emptyId .unknown)
  [.litInt 0 .unknown (.eLit dc_Cons [.eLitInt 1 .unknown, .eVar x] .unknown)] (some (.eAp (.eVar f) (.eVar x)))))

def empty : Env := fun _ => none

def rho : E.Env := fun _ => ∅

def noPrims : PrimTable := fun _ _ _ => False

theorem admissible_ones : Admissible tables rho empty [ones] where
  nodup := by decide
  apart := by decide
  hygienic := by simp [HygienicDefs, HygienicDef, ones, Hygienic, HygienicArgs, caseVars, caseVarsArgs]
  plain := by
    intro x hx
    cases hx
  describes := by
    intro v _ _ b hb
    cases hb

theorem admissible_once : Admissible tables rho empty [once] where
  nodup := by decide
  apart := by decide
  hygienic := by
    simp [HygienicDefs, HygienicDef, once, Hygienic, HygienicArgs, HygienicAlts, HygienicAlt, HygienicDefault, caseVars,
      caseVarsArgs, caseVarsAlts, caseVarsAlt, caseVarsDefault, usedOf]
    decide
  plain := by
    intro x hx
    cases hx
  describes := by
    intro v _ _ b hb
    cases hb

example : (cprAnalyzeBinds tables empty [once]).1.map Prod.snd = [.fun (.tup dc_Cons [.vInt 1, .top])] := by rfl

theorem settled_once : SettledBinds tables empty [once] := by
  constructor
  · have hgroup : decomposeDs tables (nodes tables [once]) = [.inr (nodes tables [once])] := rfl
    rw [hgroup]
    refine ⟨fun p hp => ?_, trivial⟩
    cases List.mem_singleton.1 hp
    rfl
  · simp [SettledDefs, SettledDef, once, Settled, SettledArgs, SettledAlts, SettledAlt, SettledDefault]

/-- The three rounds leave `1 : 1 : 1 : ⊥`. -/
theorem analyze_ones : (cprAnalyzeBinds tables empty [ones]).1 =
    [(ones, .fun (.tup dc_Cons [.vInt 1, .tup dc_Cons [.vInt 1, .tup dc_Cons [.vInt 1, .bot]]]))] := by
  rfl

theorem ones_cons {b : Inf} (h : DenOn (OfType tables) noPrims rho (.eLetRec [ones] ones.rhs) (.arrow [] b)) :
    DenOn (OfType tables) noPrims rho (.eLetRec [ones] ones.rhs) (.arrow [] (.field (.con dc_Cons) 1 b)) := by
  refine .letRec [(f.tvrIdent, .arrow [] b)] ?_ (.lam (by simp) (.field rfl (.ap (β := []) (.var ?_) (by simp))))
  · intro p hp e he
    cases List.mem_singleton.1 hp
    cases he
    exact h
  · rw [E.Env.set_of_not (by decide), E.Env.recs_of_def (by decide)]
    exact List.mem_singleton.2 rfl

theorem ones_returns {b : Inf} (h : DenOn (OfType tables) noPrims rho (.eLetRec [ones] ones.rhs) (.arrow [] b)) :
    b ∈ applies (valueOf tables noPrims rho [ones] f) [∅] := by
  refine ⟨[], .letRec [(f.tvrIdent, .arrow [] b)] ?_ (.var ?_), fun _ hc => absurd hc List.not_mem_nil⟩
  · intro p hp e he
    cases List.mem_singleton.1 hp
    cases he
    exact h
  · rw [E.Env.recs_of_def (by decide)]
    exact List.mem_singleton.2 rfl

end Calls

end Jhc.E.Cpr

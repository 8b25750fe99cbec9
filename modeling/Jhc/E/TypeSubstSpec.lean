import Jhc.E.TypeSubstScope

/-!
# What a substitution at two levels is to return

`substituted` is the term under the binders `Γ` without names, with what the substitutions have
for its free variables: in the types that an expression carries what `τ` has, elsewhere what
`σ` has. A bound variable is a distance, so that nothing can be captured.
-/

namespace Jhc.E
open Jhc.Nameless

/-- An equivalence that the constructors respect. -/
structure Congruence {α β : Type} (R : Skeleton α β → Skeleton α β → Prop) : Prop where
  equiv : Equivalence R
  node : ∀ l ts us, List.Forall₂ R ts us → R (.node l ts) (.node l us)

namespace TypeSubst

variable {σ τ : Id → Option E} {Γ Γ' : List Id}

def reference (σ τ : Id → Option E) (w : Bool) (Γ : List Id) (x : Id) : Skeleton Id Label :=
  match ref Γ x with
  | .bound i => .var (.bound i)
  | .free _ => nameless [] (image σ τ w x)

mutual

def substituted (σ τ : Id → Option E) (w : Bool) (Γ : List Id) : E → Skeleton Id Label
  | .eAp f a => .node .ap [substituted σ τ w Γ f, substituted σ τ w Γ a]
  | .eLam t e => .node .lam [substitutedVar σ τ Γ t, substituted σ τ w (t.tvrIdent :: Γ) e]
  | .ePi t e => .node .pi [substitutedVar σ τ Γ t, substituted σ τ w (t.tvrIdent :: Γ) e]
  | .eVar t => reference σ τ w Γ t.tvrIdent
  | .unknown => .node .unknown []
  | .eSort s => .node (.sort s) []
  | .eLitInt n t => .node (.litInt n) [substituted σ τ true Γ t]
  | .eLit n es t => .node (.lit n) [group (substitutedArgs σ τ w Γ es), substituted σ τ true Γ t]
  | .eLetRec ds e => .node .letRec [group (substitutedBinders σ τ Γ ds),
      group (substitutedRhss σ τ w (idents (ds.map Def.var) ++ Γ) ds),
      substituted σ τ w (idents (ds.map Def.var) ++ Γ) e]
  | .ePrim p es t => .node (.prim p) [group (substitutedArgs σ τ w Γ es), substituted σ τ true Γ t]
  | .eError s t => .node (.error s) [substituted σ τ true Γ t]
  | .eCase e t b as d => .node .case [substituted σ τ w Γ e, substituted σ τ true Γ t, substitutedVar σ τ Γ b,
      group (substitutedAlts σ τ w (b.tvrIdent :: Γ) as), group (substitutedDefault σ τ w (b.tvrIdent :: Γ) d)]

def substitutedVar (σ τ : Id → Option E) (Γ : List Id) : TVr → Skeleton Id Label
  | .mk _ t => substituted σ τ true Γ t

def substitutedBinder (σ τ : Id → Option E) (Γ : List Id) : Def → Skeleton Id Label
  | .mk t _ => substitutedVar σ τ Γ t

def substitutedBinders (σ τ : Id → Option E) (Γ : List Id) : List Def → List (Skeleton Id Label)
  | [] => []
  | d :: ds => substitutedBinder σ τ Γ d :: substitutedBinders σ τ Γ ds

def substitutedRhs (σ τ : Id → Option E) (w : Bool) (Γ : List Id) : Def → Skeleton Id Label
  | .mk _ e => substituted σ τ w Γ e

def substitutedRhss (σ τ : Id → Option E) (w : Bool) (Γ : List Id) : List Def → List (Skeleton Id Label)
  | [] => []
  | d :: ds => substitutedRhs σ τ w Γ d :: substitutedRhss σ τ w Γ ds

def substitutedArgs (σ τ : Id → Option E) (w : Bool) (Γ : List Id) : List E → List (Skeleton Id Label)
  | [] => []
  | e :: es => substituted σ τ w Γ e :: substitutedArgs σ τ w Γ es

def substitutedPattern (σ τ : Id → Option E) (Γ : List Id) : List TVr → List (Skeleton Id Label)
  | [] => []
  | t :: ts => substitutedVar σ τ Γ t :: substitutedPattern σ τ (t.tvrIdent :: Γ) ts

def substitutedAlt (σ τ : Id → Option E) (w : Bool) (Γ : List Id) : Alt → Skeleton Id Label
  | .litInt n t e => .node (.altInt n) [substituted σ τ true Γ t, substituted σ τ w Γ e]
  | .litCons n xs t e => .node (.altCons n) [substituted σ τ true Γ t, group (substitutedPattern σ τ Γ xs),
      substituted σ τ w (idents xs ++ Γ) e]

def substitutedAlts (σ τ : Id → Option E) (w : Bool) (Γ : List Id) : List Alt → List (Skeleton Id Label)
  | [] => []
  | a :: as => substitutedAlt σ τ w Γ a :: substitutedAlts σ τ w Γ as

def substitutedDefault (σ τ : Id → Option E) (w : Bool) (Γ : List Id) : Option E → List (Skeleton Id Label)
  | none => []
  | some e => [substituted σ τ w Γ e]

end

/-! ### Nothing to substitute -/

attribute [local grind =] substituted substitutedVar substitutedBinders substitutedRhss substitutedArgs substitutedPattern substitutedAlt substitutedAlts substitutedDefault

theorem reference_none {w : Bool} {x : Id} : reference (fun _ => none) (fun _ => none) w Γ x = .var (ref Γ x) := by
  unfold reference
  cases h : ref Γ x with
  | bound i => rfl
  | free z =>
    have hz : z = x := (ref_eq_free h).2
    rw [hz]
    cases w <;> rfl

mutual

theorem substituted_none (w : Bool) : ∀ (Γ : List Id) (e : E),
    substituted (fun _ => none) (fun _ => none) w Γ e = nameless Γ e
  | Γ, .eAp f a => by
    rw [substituted, nameless, substituted_none w Γ f, substituted_none w Γ a]
  | Γ, .eLam t e => by
    rw [substituted, nameless, substitutedVar_none Γ t, substituted_none w _ e]
  | Γ, .ePi t e => by
    rw [substituted, nameless, substitutedVar_none Γ t, substituted_none w _ e]
  | Γ, .eVar t => by
    rw [substituted, nameless, reference_none]
  | Γ, .unknown => by
    rw [substituted, nameless]
  | Γ, .eSort s => by
    rw [substituted, nameless]
  | Γ, .eLitInt n t => by
    rw [substituted, nameless, substituted_none true Γ t]
  | Γ, .eLit n es t => by
    rw [substituted, nameless, substitutedArgs_none w Γ es, substituted_none true Γ t]
  | Γ, .eLetRec ds e => by
    rw [substituted, nameless, substitutedBinders_none Γ ds, substitutedRhss_none w _ ds, substituted_none w _ e]
  | Γ, .ePrim p es t => by
    rw [substituted, nameless, substitutedArgs_none w Γ es, substituted_none true Γ t]
  | Γ, .eError s t => by
    rw [substituted, nameless, substituted_none true Γ t]
  | Γ, .eCase e t b as d => by
    rw [substituted, nameless, substituted_none w Γ e, substituted_none true Γ t, substitutedVar_none Γ b,
      substitutedAlts_none w _ as, substitutedDefault_none w _ d]

theorem substitutedVar_none : ∀ (Γ : List Id) (t : TVr),
    substitutedVar (fun _ => none) (fun _ => none) Γ t = namelessVar Γ t
  | Γ, .mk _ t => by
    rw [substitutedVar, namelessVar, substituted_none true Γ t]

theorem substitutedBinders_none : ∀ (Γ : List Id) (ds : List Def),
    substitutedBinders (fun _ => none) (fun _ => none) Γ ds = namelessBinders Γ ds
  | Γ, [] => by
    rw [substitutedBinders, namelessBinders]
  | Γ, .mk t e :: ds => by
    rw [substitutedBinders, namelessBinders, substitutedBinder, namelessBinder, substitutedVar_none Γ t,
      substitutedBinders_none Γ ds]

theorem substitutedRhss_none (w : Bool) : ∀ (Γ : List Id) (ds : List Def),
    substitutedRhss (fun _ => none) (fun _ => none) w Γ ds = namelessRhss Γ ds
  | Γ, [] => by
    rw [substitutedRhss, namelessRhss]
  | Γ, .mk t e :: ds => by
    rw [substitutedRhss, namelessRhss, substitutedRhs, namelessRhs, substituted_none w Γ e, substitutedRhss_none w Γ ds]

theorem substitutedArgs_none (w : Bool) : ∀ (Γ : List Id) (es : List E),
    substitutedArgs (fun _ => none) (fun _ => none) w Γ es = namelessArgs Γ es
  | Γ, [] => by
    rw [substitutedArgs, namelessArgs]
  | Γ, e :: es => by
    rw [substitutedArgs, namelessArgs, substituted_none w Γ e, substitutedArgs_none w Γ es]

theorem substitutedPattern_none : ∀ (Γ : List Id) (ts : List TVr),
    substitutedPattern (fun _ => none) (fun _ => none) Γ ts = namelessPattern Γ ts
  | Γ, [] => by
    rw [substitutedPattern, namelessPattern]
  | Γ, t :: ts => by
    rw [substitutedPattern, namelessPattern, substitutedVar_none Γ t, substitutedPattern_none _ ts]

theorem substitutedAlts_none (w : Bool) : ∀ (Γ : List Id) (as : List Alt),
    substitutedAlts (fun _ => none) (fun _ => none) w Γ as = namelessAlts Γ as
  | Γ, [] => by
    rw [substitutedAlts, namelessAlts]
  | Γ, .litInt n t e :: as => by
    rw [substitutedAlts, namelessAlts, substitutedAlt, namelessAlt, substituted_none true Γ t, substituted_none w Γ e,
      substitutedAlts_none w Γ as]
  | Γ, .litCons n xs t e :: as => by
    rw [substitutedAlts, namelessAlts, substitutedAlt, namelessAlt, substituted_none true Γ t,
      substitutedPattern_none Γ xs, substituted_none w _ e, substitutedAlts_none w Γ as]

theorem substitutedDefault_none (w : Bool) : ∀ (Γ : List Id) (d : Option E),
    substitutedDefault (fun _ => none) (fun _ => none) w Γ d = namelessDefault Γ d
  | Γ, none => by
    rw [substitutedDefault, namelessDefault]
  | Γ, some e => by
    rw [substitutedDefault, namelessDefault, substituted_none w Γ e]

end

end TypeSubst

/-! ### A term under binders that it does not mention -/

/-- The names stand for the same under `Γ` and under `Δ`. -/
def SameRefs (Γ Δ ys : List Id) : Prop := ∀ y ∈ ys, ref Γ y = ref Δ y

namespace SameRefs

variable {Γ Δ xs ys zs : List Id} {x : Id}

theorem left (h : SameRefs Γ Δ (ys ++ zs)) : SameRefs Γ Δ ys := fun y hy => h y (List.mem_append_left zs hy)

theorem right (h : SameRefs Γ Δ (ys ++ zs)) : SameRefs Γ Δ zs := fun y hy => h y (List.mem_append_right ys hy)

theorem push (h : SameRefs Γ Δ (ys.filter (· ≠ x))) : SameRefs (x :: Γ) (x :: Δ) ys := by
  intro y hy
  by_cases hyx : y = x
  · rw [hyx, ref_self, ref_self]
  · rw [ref_of_ne hyx, ref_of_ne hyx, h y (List.mem_filter.2 ⟨hy, decide_eq_true hyx⟩)]

theorem pushes (h : SameRefs Γ Δ (ys.filter (· ∉ xs))) : SameRefs (xs ++ Γ) (xs ++ Δ) ys := by
  induction xs generalizing ys with
  | nil => exact fun y hy => h y (List.mem_filter.2 ⟨hy, by simp⟩)
  | cons x xs ih =>
    refine push (ih fun y hy => h y ?_)
    simp only [List.mem_filter, List.mem_cons, decide_eq_true_eq] at hy ⊢
    exact ⟨hy.1.1, fun hor => hor.elim hy.1.2 hy.2⟩

end SameRefs

mutual

theorem nameless_congr : ∀ (Γ Δ : List Id) (e : E), SameRefs Γ Δ (free e) → nameless Γ e = nameless Δ e
  | Γ, Δ, .eAp f a, h => by
    rw [free] at h
    rw [nameless, nameless, nameless_congr Γ Δ f h.left, nameless_congr Γ Δ a h.right]
  | Γ, Δ, .eLam t e, h => by
    rw [free] at h
    rw [nameless, nameless, namelessVar_congr Γ Δ t h.left, nameless_congr _ _ e h.right.push]
  | Γ, Δ, .ePi t e, h => by
    rw [free] at h
    rw [nameless, nameless, namelessVar_congr Γ Δ t h.left, nameless_congr _ _ e h.right.push]
  | Γ, Δ, .eVar t, h => by
    rw [nameless, nameless, h t.tvrIdent (by simp [free])]
  | Γ, Δ, .unknown, _ => by
    rw [nameless, nameless]
  | Γ, Δ, .eSort s, _ => by
    rw [nameless, nameless]
  | Γ, Δ, .eLitInt n t, h => by
    rw [free] at h
    rw [nameless, nameless, nameless_congr Γ Δ t h]
  | Γ, Δ, .eLit n es t, h => by
    rw [free] at h
    rw [nameless, nameless, namelessArgs_congr Γ Δ es h.left, nameless_congr Γ Δ t h.right]
  | Γ, Δ, .eLetRec ds e, h => by
    rw [free, List.filter_append] at h
    rw [nameless, nameless, namelessBinders_congr Γ Δ ds h.left, namelessRhss_congr _ _ ds h.right.left.pushes,
      nameless_congr _ _ e h.right.right.pushes]
  | Γ, Δ, .ePrim p es t, h => by
    rw [free] at h
    rw [nameless, nameless, namelessArgs_congr Γ Δ es h.left, nameless_congr Γ Δ t h.right]
  | Γ, Δ, .eError s t, h => by
    rw [free] at h
    rw [nameless, nameless, nameless_congr Γ Δ t h]
  | Γ, Δ, .eCase e t b as d, h => by
    rw [free, List.filter_append] at h
    rw [nameless, nameless, nameless_congr Γ Δ e h.left.left.left, nameless_congr Γ Δ t h.left.left.right,
      namelessVar_congr Γ Δ b h.left.right, namelessAlts_congr _ _ as h.right.left.push,
      namelessDefault_congr _ _ d h.right.right.push]

theorem namelessVar_congr : ∀ (Γ Δ : List Id) (t : TVr), SameRefs Γ Δ (freeVar t) → namelessVar Γ t = namelessVar Δ t
  | Γ, Δ, .mk _ t, h => by
    rw [freeVar] at h
    rw [namelessVar, namelessVar, nameless_congr Γ Δ t h]

theorem namelessBinders_congr : ∀ (Γ Δ : List Id) (ds : List Def), SameRefs Γ Δ (freeBinders ds) →
    namelessBinders Γ ds = namelessBinders Δ ds
  | Γ, Δ, [], _ => by
    rw [namelessBinders, namelessBinders]
  | Γ, Δ, .mk t e :: ds, h => by
    rw [freeBinders, freeBinder] at h
    rw [namelessBinders, namelessBinders, namelessBinder, namelessBinder, namelessVar_congr Γ Δ t h.left,
      namelessBinders_congr Γ Δ ds h.right]

theorem namelessRhss_congr : ∀ (Γ Δ : List Id) (ds : List Def), SameRefs Γ Δ (freeRhss ds) →
    namelessRhss Γ ds = namelessRhss Δ ds
  | Γ, Δ, [], _ => by
    rw [namelessRhss, namelessRhss]
  | Γ, Δ, .mk t e :: ds, h => by
    rw [freeRhss, freeRhs] at h
    rw [namelessRhss, namelessRhss, namelessRhs, namelessRhs, nameless_congr Γ Δ e h.left,
      namelessRhss_congr Γ Δ ds h.right]

theorem namelessArgs_congr : ∀ (Γ Δ : List Id) (es : List E), SameRefs Γ Δ (freeArgs es) →
    namelessArgs Γ es = namelessArgs Δ es
  | Γ, Δ, [], _ => by
    rw [namelessArgs, namelessArgs]
  | Γ, Δ, e :: es, h => by
    rw [freeArgs] at h
    rw [namelessArgs, namelessArgs, nameless_congr Γ Δ e h.left, namelessArgs_congr Γ Δ es h.right]

theorem namelessPattern_congr : ∀ (Γ Δ : List Id) (ts : List TVr), SameRefs Γ Δ (freePattern ts) →
    namelessPattern Γ ts = namelessPattern Δ ts
  | Γ, Δ, [], _ => by
    rw [namelessPattern, namelessPattern]
  | Γ, Δ, t :: ts, h => by
    rw [freePattern] at h
    rw [namelessPattern, namelessPattern, namelessVar_congr Γ Δ t h.left, namelessPattern_congr _ _ ts h.right.push]

theorem namelessAlts_congr : ∀ (Γ Δ : List Id) (as : List Alt), SameRefs Γ Δ (freeAlts as) →
    namelessAlts Γ as = namelessAlts Δ as
  | Γ, Δ, [], _ => by
    rw [namelessAlts, namelessAlts]
  | Γ, Δ, .litInt n t e :: as, h => by
    rw [freeAlts, freeAlt] at h
    rw [namelessAlts, namelessAlts, namelessAlt, namelessAlt, nameless_congr Γ Δ t h.left.left,
      nameless_congr Γ Δ e h.left.right, namelessAlts_congr Γ Δ as h.right]
  | Γ, Δ, .litCons n xs t e :: as, h => by
    rw [freeAlts, freeAlt] at h
    rw [namelessAlts, namelessAlts, namelessAlt, namelessAlt, nameless_congr Γ Δ t h.left.left.left,
      namelessPattern_congr Γ Δ xs h.left.left.right, nameless_congr _ _ e h.left.right.pushes,
      namelessAlts_congr Γ Δ as h.right]

theorem namelessDefault_congr : ∀ (Γ Δ : List Id) (d : Option E), SameRefs Γ Δ (freeDefault d) →
    namelessDefault Γ d = namelessDefault Δ d
  | Γ, Δ, none, _ => by
    rw [namelessDefault, namelessDefault]
  | Γ, Δ, some e, h => by
    rw [freeDefault] at h
    rw [namelessDefault, namelessDefault, nameless_congr Γ Δ e h]

end

theorem nameless_of_disjoint {Γ : List Id} {e : E} (h : ∀ y ∈ free e, y ∉ Γ) : nameless Γ e = nameless [] e := by
  refine nameless_congr Γ [] e fun y hy => ?_
  rw [ref_of_notMem (h y hy)]
  rfl

end Jhc.E

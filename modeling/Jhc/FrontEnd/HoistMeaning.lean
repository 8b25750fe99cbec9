import Jhc.FrontEnd.HoistMoves

/-!
# The meaning of a type is kept

Types are read in a complete Heyting algebra: an arrow as an implication, a quantifier as the meet or the
join over the values of its variables, where a context is assumed of a universal and part of an existential.
All else (constructors, application, classes) is whatever the model takes it to be.
-/

namespace Jhc.FrontEnd.Representation
universe u
open Ty

structure TyModel (V : Type u) where
  con : Tycon → V
  metaVar : ℕ → V
  app : V → V → V
  assoc : Tycon → List V → List V → V
  isIn : Class → V → V
  isEq : V → V → V

/-- The variables of a quantifier take other values. -/
def rebind {V : Type u} (vs : List Name) (σ ρ : Name → V) : Name → V := fun v => if v ∈ vs then σ v else ρ v

/-- Under a quantifier the environments agree on its variables as well. -/
theorem rebind_congr {vs : List Name} {free : Finset Name} {σ ρ ρ' : Name → V}
    (h : ∀ v ∈ free \ vs.toFinset, ρ v = ρ' v) : ∀ v ∈ free, rebind vs σ ρ v = rebind vs σ ρ' v := by
  intro v hv
  by_cases hvs : v ∈ vs
  · simp only [rebind, if_pos hvs]
  · simp only [rebind, if_neg hvs]
    exact h v (Finset.mem_sdiff.mpr ⟨hv, fun h => hvs (List.mem_toFinset.mp h)⟩)

theorem rebind_append (vs vs' : List Name) (σ τ ρ : Name → V) :
    rebind (vs ++ vs') (rebind vs' τ σ) ρ = rebind vs' τ (rebind vs σ ρ) := by
  funext v
  simp only [rebind, List.mem_append]
  split_ifs <;> first | rfl | tauto

theorem rebind_append_self (vs vs' : List Name) (σ ρ : Name → V) :
    rebind vs' σ (rebind vs σ ρ) = rebind (vs ++ vs') σ ρ := by
  funext v
  simp only [rebind, List.mem_append]
  split_ifs <;> first | rfl | tauto

section
variable {V : Type u} [Order.Frame V] (M : TyModel V)

mutual

noncomputable def den : Ty → (Name → V) → V
  | tVar v, ρ => ρ v
  | tCon c, _ => M.con c
  | tMetaVar m, _ => M.metaVar m
  | tAp a b, ρ => M.app (den a ρ) (den b ρ)
  | tArrow a b, ρ => den a ρ ⇨ den b ρ
  | tForAll vs ps t, ρ => ⨅ σ : Name → V, denPreds ps (rebind vs σ ρ) ⇨ den t (rebind vs σ ρ)
  | tExists vs ps t, ρ => ⨆ σ : Name → V, denPreds ps (rebind vs σ ρ) ⊓ den t (rebind vs σ ρ)
  | tAssoc c cas eas, ρ => M.assoc c (denTys cas ρ) (denTys eas ρ)

noncomputable def denTys : List Ty → (Name → V) → List V
  | [], _ => []
  | t :: ts, ρ => den t ρ :: denTys ts ρ

noncomputable def denPred : Pred → (Name → V) → V
  | .isIn c t, ρ => M.isIn c (den t ρ)
  | .isEq t1 t2, ρ => M.isEq (den t1 ρ) (den t2 ρ)

noncomputable def denPreds : List Pred → (Name → V) → V
  | [], _ => ⊤
  | p :: ps, ρ => denPred p ρ ⊓ denPreds ps ρ

end

variable {M}

attribute [local grind =] den denTys denPreds

theorem denTys_append (l r : List Ty) (ρ : Name → V) :
    denTys M (l ++ r) ρ = denTys M l ρ ++ denTys M r ρ := by
  induction l with
  | nil => rfl
  | cons t ts ih => rw [List.cons_append, denTys, denTys, ih, List.cons_append]

theorem denPreds_append (l r : List Pred) (ρ : Name → V) :
    denPreds M (l ++ r) ρ = denPreds M l ρ ⊓ denPreds M r ρ := by
  induction l with
  | nil => rw [List.nil_append, denPreds, top_inf_eq]
  | cons p ps ih => rw [List.cons_append, denPreds, denPreds, ih, inf_assoc]

/-! ### Only the values of the free variables matter -/

/-- The meaning of `t` depends on its free variables only. -/
def Local (M : TyModel V) (t : Ty) : Prop :=
  ∀ ρ ρ' : Name → V, (∀ v ∈ freeVars t, ρ v = ρ' v) → den M t ρ = den M t ρ'

theorem denPreds_local {ps : List Pred} (h : ∀ p ∈ ps, ∀ s ∈ Pred.types p, Local M s) {ρ ρ' : Name → V}
    (hρ : ∀ v ∈ freeVarsPreds ps, ρ v = ρ' v) : denPreds M ps ρ = denPreds M ps ρ' := by
  induction ps with
  | nil => rfl
  | cons p ps ih =>
    have hps := ih (fun q hq => h q (List.mem_cons_of_mem p hq))
      fun v hv => hρ v (Finset.mem_union_right _ hv)
    have hp : ∀ v ∈ freeVarsPred p, ρ v = ρ' v := fun v hv => hρ v (Finset.mem_union_left _ hv)
    have hs := h p (List.mem_cons_self ..)
    rw [denPreds, denPreds, hps]
    cases p with
    | isIn c t => rw [denPred, denPred, hs t (List.mem_singleton_self t) ρ ρ' hp]
    | isEq t1 t2 =>
      have h1 := hs t1 (List.mem_cons_self ..) ρ ρ' fun v hv => hp v (Finset.mem_union_left _ hv)
      have h2 := hs t2 (List.mem_cons_of_mem _ (List.mem_singleton_self t2)) ρ ρ'
        fun v hv => hp v (Finset.mem_union_right _ hv)
      rw [denPred, denPred, h1, h2]

theorem denTys_local {ts : List Ty} (h : ∀ s ∈ ts, Local M s) {ρ ρ' : Name → V}
    (hρ : ∀ v ∈ freeVarsTys ts, ρ v = ρ' v) : denTys M ts ρ = denTys M ts ρ' := by
  induction ts with
  | nil => rfl
  | cons t ts ih =>
    have ht := h t (List.mem_cons_self ..) ρ ρ' fun v hv => hρ v (Finset.mem_union_left _ hv)
    have hts := ih (fun s hs => h s (List.mem_cons_of_mem t hs)) fun v hv => hρ v (Finset.mem_union_right _ hv)
    rw [denTys, denTys, ht, hts]

theorem den_local (t : Ty) : Local M t := by
  induction t using Ty.induct with
  | var v => exact fun ρ ρ' h => h v (Finset.mem_singleton_self v)
  | con c => exact fun ρ ρ' _ => rfl
  | metaVar m => exact fun ρ ρ' _ => rfl
  | ap a b iha ihb =>
    intro ρ ρ' h
    rw [den, den, iha ρ ρ' fun v hv => h v (Finset.mem_union_left _ hv),
      ihb ρ ρ' fun v hv => h v (Finset.mem_union_right _ hv)]
  | arrow a b iha ihb =>
    intro ρ ρ' h
    rw [den, den, iha ρ ρ' fun v hv => h v (Finset.mem_union_left _ hv),
      ihb ρ ρ' fun v hv => h v (Finset.mem_union_right _ hv)]
  | all vs ps t ihp iht =>
    intro ρ ρ' h
    rw [den, den]
    refine iInf_congr fun σ => ?_
    have hσ := rebind_congr (σ := σ) h
    rw [denPreds_local ihp fun v hv => hσ v (Finset.mem_union_left _ hv),
      iht _ _ fun v hv => hσ v (Finset.mem_union_right _ hv)]
  | ex vs ps t ihp iht =>
    intro ρ ρ' h
    rw [den, den]
    refine iSup_congr fun σ => ?_
    have hσ := rebind_congr (σ := σ) h
    rw [denPreds_local ihp fun v hv => hσ v (Finset.mem_union_left _ hv),
      iht _ _ fun v hv => hσ v (Finset.mem_union_right _ hv)]
  | assoc c cas eas ihc ihe =>
    intro ρ ρ' h
    rw [den, den, denTys_local ihc fun v hv => h v (Finset.mem_union_left _ hv),
      denTys_local ihe fun v hv => h v (Finset.mem_union_right _ hv)]

theorem den_rebind {vs : List Name} {t : Ty} (h : ∀ v ∈ vs, v ∉ freeVars t) (σ ρ : Name → V) :
    den M t (rebind vs σ ρ) = den M t ρ :=
  den_local t _ _ fun v hv => if_neg fun hvs => h v hvs hv

theorem denPreds_rebind {vs : List Name} {ps : List Pred} (h : ∀ v ∈ vs, v ∉ freeVarsPreds ps)
    (σ ρ : Name → V) : denPreds M ps (rebind vs σ ρ) = denPreds M ps ρ :=
  denPreds_local (fun _ _ s _ => den_local s) fun v hv => if_neg fun hvs => h v hvs hv

/-! ### Quantifiers one under the other -/

theorem iInf_rebind (F : (Name → V) → V) (vs vs' : List Name) (ρ : Name → V) :
    (⨅ σ, ⨅ τ, F (rebind vs' τ (rebind vs σ ρ))) = ⨅ σ, F (rebind (vs ++ vs') σ ρ) := by
  refine le_antisymm (le_iInf fun σ => ?_) (le_iInf fun σ => le_iInf fun τ => ?_)
  · exact iInf_le_of_le σ (iInf_le_of_le σ (le_of_eq (congrArg F (rebind_append_self vs vs' σ ρ))))
  · exact iInf_le_of_le (rebind vs' τ σ) (le_of_eq (congrArg F (rebind_append vs vs' σ τ ρ)))

theorem iSup_rebind (F : (Name → V) → V) (vs vs' : List Name) (ρ : Name → V) :
    (⨆ σ, ⨆ τ, F (rebind vs' τ (rebind vs σ ρ))) = ⨆ σ, F (rebind (vs ++ vs') σ ρ) := by
  refine le_antisymm (iSup_le fun σ => iSup_le fun τ => ?_) (iSup_le fun σ => ?_)
  · exact le_iSup_of_le (rebind vs' τ σ) (le_of_eq (congrArg F (rebind_append vs vs' σ τ ρ).symm))
  · exact le_iSup_of_le σ (le_iSup_of_le σ (le_of_eq (congrArg F (rebind_append_self vs vs' σ ρ).symm)))

/-- A move does not change the meaning. -/
theorem Moves.den_eq {s t : Ty} (h : Moves s t) (ρ : Name → V) : den M t ρ = den M s ρ := by
  induction h generalizing ρ with
  | refl t => rfl
  | trans _ _ ih ih' => rw [ih' ρ, ih ρ]
  | ap _ _ iha ihb => rw [den, den, iha ρ, ihb ρ]
  | arrow _ _ iha ihb => rw [den, den, iha ρ, ihb ρ]
  | all _ ih =>
    rw [den, den]
    exact iInf_congr fun σ => by rw [ih]
  | ex _ ih =>
    rw [den, den]
    exact iSup_congr fun σ => by rw [ih]
  | classArg _ ih => rw [den, den, denTys_append, denTys_append, denTys, denTys, ih ρ]
  | extraArg _ ih => rw [den, den, denTys_append, denTys_append, denTys, denTys, ih ρ]
  | arrowAll h =>
    -- the operand on the left does not depend on the variables that pass it
    rw [den, den, den, himp_iInf_eq]
    refine iInf_congr fun σ => ?_
    rw [den, den_rebind h, himp_left_comm]
  | arrowEx h =>
    rw [den, den, den, iSup_himp_eq]
    refine iInf_congr fun σ => ?_
    rw [den, den_rebind h, himp_himp]
  | @allAll vs vs' ps ps' t h =>
    have hps (σ τ : Name → V) :
        denPreds M ps (rebind vs' τ (rebind vs σ ρ)) = denPreds M ps (rebind vs σ ρ) :=
      denPreds_rebind (fun v hv => (h v hv).2) τ _
    rw [den, den, ← iInf_rebind (fun ρ' => denPreds M (ps ++ ps') ρ' ⇨ den M t ρ')]
    refine iInf_congr fun σ => ?_
    rw [den, himp_iInf_eq]
    refine iInf_congr fun τ => ?_
    rw [denPreds_append, hps, himp_himp]
  | @exEx vs vs' ps ps' t h =>
    have hps (σ τ : Name → V) :
        denPreds M ps (rebind vs' τ (rebind vs σ ρ)) = denPreds M ps (rebind vs σ ρ) :=
      denPreds_rebind (fun v hv => (h v hv).2) τ _
    rw [den, den, ← iSup_rebind (fun ρ' => denPreds M (ps ++ ps') ρ' ⊓ den M t ρ')]
    refine iSup_congr fun σ => ?_
    rw [den, inf_iSup_eq]
    refine iSup_congr fun τ => ?_
    rw [denPreds_append, hps, inf_assoc]

end

/-! ### The result -/

/-- `r` is the input with its quantifiers moved to where they can go. -/
structure HoistedForm (t r : Ty) : Prop where
  hoisted : Hoisted False r
  /-- Where the types in predicates have the form, as `hsAsstToPred` builds them, all of the result has it. -/
  within : (∀ p ∈ contexts t, ∀ s ∈ Pred.types p, Hoisted True s) → Hoisted True r
  again : HoistsTo r r
  moves : Moves t r
  distinct : Distinct r
  free : freeVars r = freeVars t
  kept : (contexts r).Perm (contexts t)
  meaning : ∀ (V : Type u) [Order.Frame V] (M : TyModel V) (ρ : Name → V), den M r ρ = den M t ρ

theorem hoistType_form (t : Ty) (h : Distinct t) : ∃ r, HoistsTo t r ∧ HoistedForm.{u} t r := by
  have hm := hoist_moves t h
  have hr : Hoisted False (hoist t) := hoist_hoisted t False.elim
  exact ⟨hoist t, hoistsTo_hoist t, {
    hoisted := hr
    within := fun hp => hoist_hoisted t fun _ => hp
    again := hr.hoistsTo
    moves := hm
    distinct := hm.distinct h
    free := hm.freeVars_eq
    kept := hm.contexts_perm
    meaning := fun V _ M ρ => hm.den_eq ρ }⟩

/-- `(exists b. Show b => b) -> (forall a. Eq a => a -> (forall c. c))`. -/
def nestedQuantifiers : Ty :=
  tArrow (tExists ["b"] [.isIn "Show" (tVar "b")] (tVar "b"))
    (tForAll ["a"] [.isIn "Eq" (tVar "a")] (tArrow (tVar "a") (tForAll ["c"] [] (tVar "c"))))

/-- `forall a c b. (Eq a, Show b) => b -> a -> c`. -/
example : hoistType 9 nestedQuantifiers = some (tForAll ["a", "c", "b"]
    [.isIn "Eq" (tVar "a"), .isIn "Show" (tVar "b")] (tArrow (tVar "b") (tArrow (tVar "a") (tVar "c")))) :=
  rfl

theorem nestedQuantifiers_form : ∃ r, HoistsTo nestedQuantifiers r ∧ HoistedForm.{0} nestedQuantifiers r :=
  hoistType_form nestedQuantifiers ⟨by decide, by decide⟩

end Jhc.FrontEnd.Representation

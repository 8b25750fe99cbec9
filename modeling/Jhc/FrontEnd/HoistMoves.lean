import Jhc.FrontEnd.HoistType

/-!
# What hoisting moves

The moves of quantifiers with their contexts that `hoistType` makes, each under the condition that nothing is
captured. When every quantified variable has a name of its own, the conditions hold at each move.
-/

namespace Jhc.FrontEnd.Representation
open Ty

mutual

def freeVars : Ty → Finset Name
  | tVar v => {v}
  | tCon _ | tMetaVar _ => ∅
  | tAp a b | tArrow a b => freeVars a ∪ freeVars b
  | tForAll vs ps t | tExists vs ps t => (freeVarsPreds ps ∪ freeVars t) \ vs.toFinset
  | tAssoc _ cas eas => freeVarsTys cas ∪ freeVarsTys eas

def freeVarsTys : List Ty → Finset Name
  | [] => ∅
  | t :: ts => freeVars t ∪ freeVarsTys ts

def freeVarsPred : Pred → Finset Name
  | .isIn _ t => freeVars t
  | .isEq t1 t2 => freeVars t1 ∪ freeVars t2

def freeVarsPreds : List Pred → Finset Name
  | [] => ∅
  | p :: ps => freeVarsPred p ∪ freeVarsPreds ps

end

mutual

/-- The quantified variables, those in predicates among them. -/
def boundVars : Ty → List Name
  | tVar _ | tCon _ | tMetaVar _ => []
  | tAp a b | tArrow a b => boundVars a ++ boundVars b
  | tForAll vs ps t | tExists vs ps t => vs ++ (boundVarsPreds ps ++ boundVars t)
  | tAssoc _ cas eas => boundVarsTys cas ++ boundVarsTys eas

def boundVarsTys : List Ty → List Name
  | [] => []
  | t :: ts => boundVars t ++ boundVarsTys ts

def boundVarsPred : Pred → List Name
  | .isIn _ t => boundVars t
  | .isEq t1 t2 => boundVars t1 ++ boundVars t2

def boundVarsPreds : List Pred → List Name
  | [] => []
  | p :: ps => boundVarsPred p ++ boundVarsPreds ps

end

attribute [local grind =] freeVars freeVarsTys boundVars boundVarsTys

theorem freeVarsTys_append (l r : List Ty) : freeVarsTys (l ++ r) = freeVarsTys l ∪ freeVarsTys r := by
  induction l with
  | nil => rw [List.nil_append, freeVarsTys, Finset.empty_union]
  | cons t ts ih => rw [List.cons_append, freeVarsTys, freeVarsTys, ih, Finset.union_assoc]

theorem freeVarsPreds_append (l r : List Pred) : freeVarsPreds (l ++ r) = freeVarsPreds l ∪ freeVarsPreds r := by
  induction l with
  | nil => rw [List.nil_append, freeVarsPreds, Finset.empty_union]
  | cons t ts ih => rw [List.cons_append, freeVarsPreds, freeVarsPreds, ih, Finset.union_assoc]

theorem boundVarsTys_append (l r : List Ty) : boundVarsTys (l ++ r) = boundVarsTys l ++ boundVarsTys r := by
  induction l with
  | nil => rfl
  | cons t ts ih => rw [List.cons_append, boundVarsTys, boundVarsTys, ih, List.append_assoc]

theorem boundVarsPreds_append (l r : List Pred) :
    boundVarsPreds (l ++ r) = boundVarsPreds l ++ boundVarsPreds r := by
  induction l with
  | nil => rfl
  | cons t ts ih => rw [List.cons_append, boundVarsPreds, boundVarsPreds, ih, List.append_assoc]

theorem contextsTys_append (l r : List Ty) : contextsTys (l ++ r) = contextsTys l ++ contextsTys r := by
  rw [contextsTys_eq, contextsTys_eq, contextsTys_eq, List.flatMap_append]

/-- The quantified variables are pairwise distinct and distinct from the free ones. -/
structure Distinct (t : Ty) : Prop where
  nodup : (boundVars t).Nodup
  fresh : ∀ v ∈ boundVars t, v ∉ freeVars t

/-! ### Moves of quantifiers -/

/-- Quantifiers with their contexts are moved across arrows and into the quantifiers around them, anywhere
outside predicates; no move captures a variable. -/
inductive Moves : Ty → Ty → Prop
  | refl (t) : Moves t t
  | trans {r s t} : Moves r s → Moves s t → Moves r t
  | ap {a a' b b'} : Moves a a' → Moves b b' → Moves (tAp a b) (tAp a' b')
  | arrow {a a' b b'} : Moves a a' → Moves b b' → Moves (tArrow a b) (tArrow a' b')
  | all {vs ps t t'} : Moves t t' → Moves (tForAll vs ps t) (tForAll vs ps t')
  | ex {vs ps t t'} : Moves t t' → Moves (tExists vs ps t) (tExists vs ps t')
  | classArg {c l r eas t t'} : Moves t t' → Moves (tAssoc c (l ++ t :: r) eas) (tAssoc c (l ++ t' :: r) eas)
  | extraArg {c l r cas t t'} : Moves t t' → Moves (tAssoc c cas (l ++ t :: r)) (tAssoc c cas (l ++ t' :: r))
  | arrowAll {vs ps a b} : (∀ v ∈ vs, v ∉ freeVars a) →
      Moves (tArrow a (tForAll vs ps b)) (tForAll vs ps (tArrow a b))
  | arrowEx {vs ps a b} : (∀ v ∈ vs, v ∉ freeVars b) →
      Moves (tArrow (tExists vs ps a) b) (tForAll vs ps (tArrow a b))
  | allAll {vs vs' ps ps' t} : (∀ v ∈ vs', v ∉ vs ∧ v ∉ freeVarsPreds ps) →
      Moves (tForAll vs ps (tForAll vs' ps' t)) (tForAll (vs ++ vs') (ps ++ ps') t)
  | exEx {vs vs' ps ps' t} : (∀ v ∈ vs', v ∉ vs ∧ v ∉ freeVarsPreds ps) →
      Moves (tExists vs ps (tExists vs' ps' t)) (tExists (vs ++ vs') (ps ++ ps') t)

theorem Moves.freeVars_eq {s t : Ty} (h : Moves s t) : freeVars t = freeVars s := by
  induction h with
  | refl t => rfl
  | trans _ _ ih ih' => rw [ih', ih]
  | ap _ _ iha ihb => rw [freeVars, freeVars, iha, ihb]
  | arrow _ _ iha ihb => rw [freeVars, freeVars, iha, ihb]
  | all _ ih => rw [freeVars, freeVars, ih]
  | ex _ ih => rw [freeVars, freeVars, ih]
  | classArg _ ih => simp only [freeVars, freeVarsTys, freeVarsTys_append, ih]
  | extraArg _ ih => simp only [freeVars, freeVarsTys, freeVarsTys_append, ih]
  | arrowAll h =>
    ext v
    have := h v
    simp only [freeVars, Finset.mem_union, Finset.mem_sdiff, List.mem_toFinset]
    tauto
  | arrowEx h =>
    ext v
    have := h v
    simp only [freeVars, Finset.mem_union, Finset.mem_sdiff, List.mem_toFinset]
    tauto
  | allAll h =>
    ext v
    have := h v
    simp only [freeVars, freeVarsPreds_append, Finset.mem_union, Finset.mem_sdiff, List.mem_toFinset,
      List.mem_append]
    tauto
  | exEx h =>
    ext v
    have := h v
    simp only [freeVars, freeVarsPreds_append, Finset.mem_union, Finset.mem_sdiff, List.mem_toFinset,
      List.mem_append]
    tauto

/-- Every predicate is kept. -/
theorem Moves.contexts_perm {s t : Ty} (h : Moves s t) : (contexts t).Perm (contexts s) := by
  induction h with
  | refl t => exact .refl _
  | trans _ _ ih ih' => exact ih'.trans ih
  | ap _ _ iha ihb => exact iha.append ihb
  | arrow _ _ iha ihb => exact iha.append ihb
  | all _ ih => exact ih.append_left _
  | ex _ ih => exact ih.append_left _
  | classArg _ ih =>
    simp only [contexts, contextsTys, contextsTys_append]
    exact ((ih.append_right _).append_left _).append_right _
  | extraArg _ ih =>
    simp only [contexts, contextsTys, contextsTys_append]
    exact ((ih.append_right _).append_left _).append_left _
  | arrowAll _ =>
    simp only [contexts]
    exact List.perm_append_comm_assoc _ _ _
  | arrowEx _ => simp only [contexts, List.append_assoc, List.Perm.refl]
  | allAll _ => simp only [contexts, List.append_assoc, List.Perm.refl]
  | exEx _ => simp only [contexts, List.append_assoc, List.Perm.refl]

theorem Moves.boundVars_perm {s t : Ty} (h : Moves s t) : (boundVars t).Perm (boundVars s) := by
  induction h with
  | refl t => exact .refl _
  | trans _ _ ih ih' => exact ih'.trans ih
  | ap _ _ iha ihb => exact iha.append ihb
  | arrow _ _ iha ihb => exact iha.append ihb
  | all _ ih => exact (ih.append_left _).append_left _
  | ex _ ih => exact (ih.append_left _).append_left _
  | classArg _ ih =>
    simp only [boundVars, boundVarsTys, boundVarsTys_append]
    exact ((ih.append_right _).append_left _).append_right _
  | extraArg _ ih =>
    simp only [boundVars, boundVarsTys, boundVarsTys_append]
    exact ((ih.append_right _).append_left _).append_left _
  | @arrowAll vs ps a b _ =>
    simp only [boundVars]
    exact ((List.perm_append_comm_assoc _ _ _).append_left vs).trans (List.perm_append_comm_assoc _ _ _)
  | arrowEx _ => simp only [boundVars, List.append_assoc, List.Perm.refl]
  | allAll _ =>
    simp only [boundVars, boundVarsPreds_append, List.append_assoc]
    exact (List.perm_append_comm_assoc _ _ _).append_left _
  | exEx _ =>
    simp only [boundVars, boundVarsPreds_append, List.append_assoc]
    exact (List.perm_append_comm_assoc _ _ _).append_left _

theorem Moves.distinct {s t : Ty} (h : Moves s t) (hs : Distinct s) : Distinct t where
  nodup := h.boundVars_perm.nodup_iff.mpr hs.nodup
  fresh v hv := by
    rw [h.freeVars_eq]
    exact hs.fresh v (h.boundVars_perm.mem_iff.mp hv)

/-- The arguments of an associated type, one after the other. -/
theorem Moves.classArgs {f : Ty → Ty} {c : Tycon} {eas : List Ty} (cas l : List Ty)
    (h : ∀ s ∈ cas, Moves s (f s)) : Moves (tAssoc c (l ++ cas) eas) (tAssoc c (l ++ cas.map f) eas) := by
  induction cas generalizing l with
  | nil => exact .refl _
  | cons s cas ih =>
    have hs : Moves (tAssoc c (l ++ s :: cas) eas) (tAssoc c (l ++ f s :: cas) eas) :=
      .classArg (h s (List.mem_cons_self ..))
    have hcas := ih (l ++ [f s]) fun s' hs' => h s' (List.mem_cons_of_mem s hs')
    simp only [List.append_assoc, List.singleton_append] at hcas
    exact hs.trans hcas

theorem Moves.extraArgs {f : Ty → Ty} {c : Tycon} {cas : List Ty} (eas l : List Ty)
    (h : ∀ s ∈ eas, Moves s (f s)) : Moves (tAssoc c cas (l ++ eas)) (tAssoc c cas (l ++ eas.map f)) := by
  induction eas generalizing l with
  | nil => exact .refl _
  | cons s eas ih =>
    have hs : Moves (tAssoc c cas (l ++ s :: eas)) (tAssoc c cas (l ++ f s :: eas)) :=
      .extraArg (h s (List.mem_cons_self ..))
    have heas := ih (l ++ [f s]) fun s' hs' => h s' (List.mem_cons_of_mem s hs')
    simp only [List.append_assoc, List.singleton_append] at heas
    exact hs.trans heas

/-! ### Parts of a type with distinct variables -/

section
variable {vs : List Name} {ps : List Pred} {a b t na nb nt : Ty}

/-- The two parts of a type whose variables stand side by side. -/
theorem Distinct.parts (h : Distinct t) (hb : boundVars t = boundVars a ++ boundVars b)
    (hf : freeVars t = freeVars a ∪ freeVars b) : Distinct a ∧ Distinct b := by
  have hn := h.nodup
  have hfresh := h.fresh
  rw [hb] at hn hfresh
  rw [hf] at hfresh
  exact ⟨⟨hn.of_append_left, fun v hv ha => hfresh v (List.mem_append_left _ hv) (Finset.mem_union_left _ ha)⟩,
    ⟨hn.of_append_right, fun v hv hb => hfresh v (List.mem_append_right _ hv) (Finset.mem_union_right _ hb)⟩⟩

/-- The type under a quantifier of either kind. -/
theorem Distinct.body (h : Distinct t) (hb : boundVars t = vs ++ (boundVarsPreds ps ++ boundVars a))
    (hf : freeVars t = (freeVarsPreds ps ∪ freeVars a) \ vs.toFinset) : Distinct a := by
  have hn := h.nodup
  have hfresh := h.fresh
  rw [hb] at hn hfresh
  rw [hf] at hfresh
  refine ⟨hn.of_append_right.of_append_right, fun v hv ha => ?_⟩
  have hmem : v ∈ boundVarsPreds ps ++ boundVars a := List.mem_append_right _ hv
  refine hfresh v (List.mem_append_right vs hmem) (Finset.mem_sdiff.mpr ⟨Finset.mem_union_right _ ha, ?_⟩)
  exact fun hvs => List.disjoint_of_nodup_append hn (List.mem_toFinset.mp hvs) hmem

/-- The variables of a quantifier directly under another are new to that and to its context. -/
theorem Distinct.inner {vs' : List Name} {r : List Name} (h : Distinct t)
    (hb : boundVars t = vs ++ (boundVarsPreds ps ++ (vs' ++ r)))
    (hf : freeVars t = (freeVarsPreds ps ∪ freeVars a) \ vs.toFinset) :
    ∀ v ∈ vs', v ∉ vs ∧ v ∉ freeVarsPreds ps := by
  have hn := h.nodup
  have hfresh := h.fresh
  rw [hb] at hn hfresh
  rw [hf] at hfresh
  intro v hv
  have hmem : v ∈ boundVarsPreds ps ++ (vs' ++ r) := List.mem_append_right _ (List.mem_append_left r hv)
  have hvs : v ∉ vs := fun hvs => List.disjoint_of_nodup_append hn hvs hmem
  refine ⟨hvs, fun hp => hfresh v (List.mem_append_right vs hmem) (Finset.mem_sdiff.mpr ?_)⟩
  exact ⟨Finset.mem_union_left _ hp, fun hvs' => hvs (List.mem_toFinset.mp hvs')⟩

theorem boundVars_of_mem {s : Ty} {l : List Ty} (hs : s ∈ l) : (boundVars s).Sublist (boundVarsTys l) ∧
    freeVars s ⊆ freeVarsTys l := by
  induction l with
  | nil => cases hs
  | cons t ts ih =>
    rw [boundVarsTys, freeVarsTys]
    rcases List.mem_cons.mp hs with rfl | hs
    · exact ⟨List.sublist_append_left _ _, Finset.subset_union_left⟩
    · exact ⟨(ih hs).1.trans (List.sublist_append_right _ _), (ih hs).2.trans Finset.subset_union_right⟩

theorem Distinct.of_sublist (h : Distinct t) (hb : (boundVars a).Sublist (boundVars t))
    (hf : freeVars a ⊆ freeVars t) : Distinct a :=
  ⟨h.nodup.sublist hb, fun v hv ha => h.fresh v (hb.subset hv) (hf ha)⟩

/-! ### Hoisting is a sequence of moves -/

theorem mergeForAll_moves (h : Distinct (tForAll vs ps nt)) :
    Moves (tForAll vs ps nt) (mergeForAll vs ps nt) := by
  cases nt with
  | tForAll vs' ps' t' => exact .allAll (h.inner rfl rfl)
  | _ => exact .refl _

theorem mergeExists_moves (h : Distinct (tExists vs ps nt)) :
    Moves (tExists vs ps nt) (mergeExists vs ps nt) := by
  cases nt with
  | tExists vs' ps' t' => exact .exEx (h.inner rfl rfl)
  | _ => exact .refl _

theorem moveLeft_moves (h : Distinct (tArrow na nb)) : Moves (tArrow na nb) (moveLeft na nb) := by
  cases na with
  | tExists vs ps t =>
    refine .arrowEx fun v hv hb => h.fresh v ?_ (Finset.mem_union_right _ hb)
    exact List.mem_append_left _ (List.mem_append_left _ hv)
  | _ => exact .refl _

theorem moveArrow_moves (h : Distinct (tArrow na nb)) : Moves (tArrow na nb) (moveArrow na nb) := by
  cases nb with
  | tForAll vs ps t =>
    have hall : Moves (tArrow na (tForAll vs ps t)) (tForAll vs ps (tArrow na t)) := by
      refine .arrowAll fun v hv ha => h.fresh v ?_ (Finset.mem_union_left _ ha)
      exact List.mem_append_right _ (List.mem_append_left _ hv)
    have harrow := (hall.distinct h).body rfl rfl
    have hleft : Moves (tForAll vs ps (tArrow na t)) (tForAll vs ps (moveLeft na t)) :=
      .all (moveLeft_moves harrow)
    have hmoved := hall.trans hleft
    exact hmoved.trans (mergeForAll_moves (hmoved.distinct h))
  | _ => exact moveLeft_moves h

end

/-- No variable is captured when a type with distinct variables is hoisted. -/
theorem hoist_moves (t : Ty) (h : Distinct t) : Moves t (hoist t) := by
  induction t using Ty.induct with
  | var v => exact .refl _
  | con c => exact .refl _
  | metaVar m => exact .refl _
  | ap a b iha ihb =>
    obtain ⟨ha, hb⟩ := h.parts rfl rfl
    exact .ap (iha ha) (ihb hb)
  | arrow a b iha ihb =>
    obtain ⟨ha, hb⟩ := h.parts rfl rfl
    have hparts : Moves (tArrow a b) (tArrow (hoist a) (hoist b)) := .arrow (iha ha) (ihb hb)
    exact hparts.trans (moveArrow_moves (hparts.distinct h))
  | all vs ps t _ ih =>
    have hbody : Moves (tForAll vs ps t) (tForAll vs ps (hoist t)) := .all (ih (h.body rfl rfl))
    exact hbody.trans (mergeForAll_moves (hbody.distinct h))
  | ex vs ps t _ ih =>
    have hbody : Moves (tExists vs ps t) (tExists vs ps (hoist t)) := .ex (ih (h.body rfl rfl))
    exact hbody.trans (mergeExists_moves (hbody.distinct h))
  | assoc c cas eas ihc ihe =>
    rw [hoist, hoistTys_eq_map, hoistTys_eq_map]
    have hcas : Moves (tAssoc c cas eas) (tAssoc c (cas.map hoist) eas) := by
      refine .classArgs cas [] fun s hs => ihc s hs (h.of_sublist ?_ ?_)
      · exact (boundVars_of_mem hs).1.trans (List.sublist_append_left _ _)
      · exact (boundVars_of_mem hs).2.trans Finset.subset_union_left
    refine hcas.trans (.extraArgs eas [] fun s hs => ihe s hs (h.of_sublist ?_ ?_))
    · exact (boundVars_of_mem hs).1.trans (List.sublist_append_right _ _)
    · exact (boundVars_of_mem hs).2.trans Finset.subset_union_right

end Jhc.FrontEnd.Representation

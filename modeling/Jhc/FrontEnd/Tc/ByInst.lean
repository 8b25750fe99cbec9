import Mathlib
import Jhc.FrontEnd.Representation

/-!
# Instances for a predicate (src/FrontEnd/Tc/Class.hs:115-144)

`byInst` matches the head of an instance with a predicate and instantiates the context with the
bindings. Where a type variable of the head is bound twice, the last binding is used for all.
-/

namespace Jhc.FrontEnd.Representation

open Ty

variable (K : Kinds)

/-- The first guard of the variable case. -/
def isVar (u : Name) : Ty → Bool
  | tVar t => u = t
  | _ => false

def match' : Ty → Ty → Option (List (Name × Ty))
  | tAp l r, tAp l' r' => do
    let sl ← match' l l'
    let sr ← match' r r'
    return sl ++ sr
  | tArrow l r, tArrow l' r' => do
    let sl ← match' l l'
    let sr ← match' r r'
    return sl ++ sr
  | tVar u, t =>
    if isVar u t then some []
    else if getType K t = some (K.tyvarKind u) then some [(u, t)]
    else none
  | tCon tc1, tCon tc2 => if tc1 = tc2 then some [] else none
  | _, _ => none

def matchPred : Pred → Pred → Option (List (Name × Ty))
  | .isIn c t, .isIn c' t' => if c = c' then match' K t t' else none
  | _, _ => none

/-- `Map.fromList`: the last of the bindings of a name. -/
def fromBindings : List (Name × Ty) → Subst
  | [], _ => none
  | (v, t) :: u, w => (fromBindings u w).or (if v = w then some t else none)

/-- `instHead`, a context and a predicate. -/
structure Inst where
  ps : List Pred
  h : Pred

def byInst (p : Pred) (i : Inst) : Option (List Pred) :=
  (matchPred K i.h p).map fun u => i.ps.map (Pred.inst (fromBindings u))

/-! ### The types that stand opposite to the variables -/

def faces : Ty → Ty → List (Name × Ty)
  | tAp l r, tAp l' r' => faces l l' ++ faces r r'
  | tArrow l r, tArrow l' r' => faces l l' ++ faces r r'
  | tVar u, t => [(u, t)]
  | _, _ => []

def predFaces : Pred → Pred → List (Name × Ty)
  | .isIn _ t, .isIn _ t' => faces t t'
  | _, _ => []

/-- Wherever a type variable occurs in the head, the same type is opposite to it. -/
def Agrees (h p : Pred) : Prop := ∀ v t1 t2, (v, t1) ∈ predFaces h p → (v, t2) ∈ predFaces h p → t1 = t2

def Pred.ArrowFree : Pred → Prop
  | .isIn _ t => t.ArrowFree
  | .isEq t1 t2 => t1.ArrowFree ∧ t2.ArrowFree

variable {K}

attribute [local grind =] match' faces

theorem isVar_iff {u : Name} {t : Ty} : isVar u t = true ↔ t = tVar u := by
  cases t with
  | tVar v => simp [isVar, eq_comm]
  | _ => simp [isVar]

theorem fromBindings_mem {u : List (Name × Ty)} {v : Name} {t : Ty} (h : fromBindings u v = some t) : (v, t) ∈ u := by
  induction u with
  | nil => cases h
  | cons b u ih =>
    obtain ⟨w, s⟩ := b
    rw [fromBindings, Option.or_eq_some_iff] at h
    rcases h with h | ⟨-, h⟩
    · exact List.mem_cons_of_mem _ (ih h)
    · split_ifs at h with hw
      obtain rfl := Option.some.inj h
      exact hw ▸ List.mem_cons_self

theorem fromBindings_none {u : List (Name × Ty)} {v : Name} (h : fromBindings u v = none) (t : Ty) : (v, t) ∉ u := by
  induction u with
  | nil => exact List.not_mem_nil
  | cons b u ih =>
    obtain ⟨w, s⟩ := b
    rw [fromBindings, Option.or_eq_none_iff] at h
    intro hmem
    rcases List.mem_cons.1 hmem with heq | hmem
    · obtain ⟨rfl, rfl⟩ := Prod.mk.inj heq
      simp at h
    · exact ih h.1 hmem

/-- The bindings are what the variables face, without the variables that face themselves. -/
theorem match'_faces {h p : Ty} {u : List (Name × Ty)} (hm : match' K h p = some u) (v : Name) (t : Ty) :
    (v, t) ∈ u ↔ (v, t) ∈ faces h p ∧ t ≠ tVar v := by
  fun_induction match' K h p generalizing u with
  | case1 l r l' r' ihl ihr =>
    simp only [Option.bind_eq_bind, Option.bind_eq_some_iff, Option.pure_def, Option.some.injEq] at hm
    obtain ⟨sl, hsl, sr, hsr, rfl⟩ := hm
    rw [faces, List.mem_append, List.mem_append, ihl hsl, ihr hsr, or_and_right]
  | case2 l r l' r' ihl ihr =>
    simp only [Option.bind_eq_bind, Option.bind_eq_some_iff, Option.pure_def, Option.some.injEq] at hm
    obtain ⟨sl, hsl, sr, hsr, rfl⟩ := hm
    rw [faces, List.mem_append, List.mem_append, ihl hsl, ihr hsr, or_and_right]
  | case3 w s hvar =>
    obtain rfl := Option.some.inj hm
    rw [isVar_iff] at hvar
    simp +contextual [faces, hvar]
  | case4 w s hvar hkind =>
    obtain rfl := Option.some.inj hm
    rw [isVar_iff] at hvar
    simp only [List.mem_singleton, Prod.mk.injEq, faces]
    constructor
    · intro hvt
      obtain ⟨rfl, rfl⟩ := hvt
      exact ⟨⟨rfl, rfl⟩, hvar⟩
    · exact fun hvt => hvt.1
  | case5 w s hvar hkind => cases hm
  | case6 tc =>
    obtain rfl := Option.some.inj hm
    simp [faces]
  | case7 tc1 tc2 hne => cases hm
  | case8 => cases hm

/-- An instantiation of a matching type is right if it is at the variables. -/
theorem inst_eq_iff {h p : Ty} {u : List (Name × Ty)} (ts : Subst) (hm : match' K h p = some u) (hp : p.ArrowFree) :
    h.inst ts = p ↔ ∀ v t, (v, t) ∈ faces h p → (ts v).getD (tVar v) = t := by
  fun_induction match' K h p generalizing u with
  | case1 l r l' r' ihl ihr =>
    simp only [Option.bind_eq_bind, Option.bind_eq_some_iff, Option.pure_def, Option.some.injEq] at hm
    obtain ⟨sl, hsl, sr, hsr, rfl⟩ := hm
    obtain ⟨hfull, hl', hr'⟩ := hp
    have hparts : (tAp l r).inst ts = tAp l' r' ↔ l.inst ts = l' ∧ r.inst ts = r' := by
      constructor
      · exact of_app_eq_tAp
      · intro heq
        obtain ⟨rfl, rfl⟩ := heq
        exact app_eq_tAp hfull
    rw [hparts, ihl hsl hl', ihr hsr hr']
    simp only [faces, List.mem_append, or_imp, forall_and]
  | case2 l r l' r' ihl ihr =>
    simp only [Option.bind_eq_bind, Option.bind_eq_some_iff, Option.pure_def, Option.some.injEq] at hm
    obtain ⟨sl, hsl, sr, hsr, rfl⟩ := hm
    rw [Ty.inst, tArrow.injEq, ihl hsl hp.1, ihr hsr hp.2]
    simp only [faces, List.mem_append, or_imp, forall_and]
  | case3 w s hvar => simp [faces, Ty.inst]
  | case4 w s hvar hkind => simp [faces, Ty.inst]
  | case5 w s hvar hkind => cases hm
  | case6 tc => simp [faces, Ty.inst]
  | case7 tc1 tc2 hne => cases hm
  | case8 => cases hm

theorem fromBindings_faces {h p : Ty} {u : List (Name × Ty)} (hm : match' K h p = some u)
    (hagree : ∀ v t1 t2, (v, t1) ∈ faces h p → (v, t2) ∈ faces h p → t1 = t2) (v : Name) (t : Ty) (ht : (v, t) ∈ faces h p) :
    (fromBindings u v).getD (tVar v) = t := by
  cases hv : fromBindings u v with
  | none =>
    have hnot := fromBindings_none hv t
    rw [match'_faces hm] at hnot
    exact (not_not.1 fun hne => hnot ⟨ht, Ne.symm hne⟩)
  | some s =>
    have hs := ((match'_faces hm v s).1 (fromBindings_mem hv)).1
    exact hagree v s t hs ht

theorem matchPred_isIn {h p : Pred} {u : List (Name × Ty)} (hm : matchPred K h p = some u) :
    ∃ c t t', h = .isIn c t ∧ p = .isIn c t' ∧ match' K t t' = some u := by
  cases h with
  | isEq t1 t2 => cases hm
  | isIn c t =>
    cases p with
    | isEq t1 t2 => cases hm
    | isIn c' t' =>
      rw [matchPred] at hm
      split_ifs at hm with hc
      exact ⟨c, t, t', rfl, hc ▸ rfl, hm⟩

/-- The predicates that are left come from one instantiation of the instance, if and only if the predicate
has the same type wherever the head has the same variable. -/
theorem byInst_sound_iff {p : Pred} {i : Inst} {qs : List Pred} (h : byInst K p i = some qs) (hp : p.ArrowFree) :
    (∃ u : Subst, i.h.inst u = p ∧ qs = i.ps.map (Pred.inst u)) ↔ Agrees i.h p := by
  obtain ⟨u, hm, rfl⟩ := Option.map_eq_some_iff.1 h
  obtain ⟨ctx, head⟩ := i
  obtain ⟨c, t, t', rfl, rfl, hmatch⟩ := matchPred_isIn hm
  constructor
  · intro hu v t1 t2 h1 h2
    obtain ⟨ts, hts, -⟩ := hu
    have hfaces := (inst_eq_iff ts hmatch hp).1 (Pred.isIn.inj hts).2
    rw [← hfaces v t1 h1, ← hfaces v t2 h2]
  · intro hagree
    refine ⟨fromBindings u, ?_, rfl⟩
    rw [Pred.inst, (inst_eq_iff (fromBindings u) hmatch hp).2 (fromBindings_faces hmatch hagree)]

/-! ### A head with a repeated variable -/

/-- `instance C a => C (P a a)`. -/
def pairInst : Inst where
  ps := [.isIn "C" (tVar "a")]
  h := .isIn "C" (tAp (tAp (tCon ⟨"P", .kfun kindStar (.kfun kindStar kindStar)⟩) (tVar "a")) (tVar "a"))

def starKinds : Kinds := ⟨fun _ => kindStar, fun _ => kindStar⟩

/-- `C (P s t)` for two types. -/
def pairPred (s t : Name) : Pred :=
  .isIn "C" (tAp (tAp (tCon ⟨"P", .kfun kindStar (.kfun kindStar kindStar)⟩) (tCon ⟨s, kindStar⟩)) (tCon ⟨t, kindStar⟩))

theorem pairInst_same :
    (∃ u : Subst, pairInst.h.inst u = pairPred "Int" "Int" ∧
      [Pred.isIn "C" (tCon ⟨"Int", kindStar⟩)] = pairInst.ps.map (Pred.inst u)) ↔ Agrees pairInst.h (pairPred "Int" "Int") :=
  byInst_sound_iff (K := starKinds) (i := pairInst) rfl (by simp [pairPred, Pred.ArrowFree, Ty.ArrowFree, Ty.isArrowCon])

/-- `C (P Int Bool)` is reduced to `C Bool`, although it is no instance of the head. -/
theorem pairInst_different :
    byInst starKinds (pairPred "Int" "Bool") pairInst = some [.isIn "C" (tCon ⟨"Bool", kindStar⟩)] ∧
    ¬ ∃ u : Subst, pairInst.h.inst u = pairPred "Int" "Bool" ∧
      [Pred.isIn "C" (tCon ⟨"Bool", kindStar⟩)] = pairInst.ps.map (Pred.inst u) := by
  refine ⟨rfl, ?_⟩
  intro hu
  obtain ⟨u, hu, -⟩ := hu
  have harg : (u "a").getD (tVar "a") = tCon ⟨"Int", kindStar⟩ := by
    simp only [pairInst, pairPred, Pred.inst, Pred.isIn.injEq, Ty.inst] at hu
    exact (of_app_eq_tAp (of_app_eq_tAp hu.2).1).2
  have hres : (u "a").getD (tVar "a") = tCon ⟨"Bool", kindStar⟩ := by
    simp only [pairInst, pairPred, Pred.inst, Pred.isIn.injEq, Ty.inst] at hu
    exact (of_app_eq_tAp hu.2).2
  rw [harg] at hres
  simp at hres

end Jhc.FrontEnd.Representation

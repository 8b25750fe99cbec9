import Jhc.FrontEnd.Representation

/-!
# Quantifiers moved to the front (src/FrontEnd/KindInfer.hs:610-626)

`hoistType` starts again on the type it has built after every move, so that it takes fuel here. `hoist`
is its result by recursion on the type alone: an operand that is hoisted already needs one move at most.
-/

namespace Jhc.FrontEnd.Representation
open Ty

/-- `hoistType`; none is fuel that has run out. -/
def hoistType : ℕ → Ty → Option Ty
  | 0, _ => none
  | _ + 1, tVar v => some (tVar v)
  | _ + 1, tCon c => some (tCon c)
  | _ + 1, tMetaVar m => some (tMetaVar m)
  | n + 1, tAssoc c cas eas => do
    let cas' ← cas.mapM (hoistType n)
    let eas' ← eas.mapM (hoistType n)
    some (tAssoc c cas' eas')
  | n + 1, tAp a b => do
    let a' ← hoistType n a
    let b' ← hoistType n b
    some (tAp a' b')
  | n + 1, tForAll vs ps t => do
    let nt ← hoistType n t
    match nt with
    | tForAll vs' ps' t' => hoistType n (tForAll (vs ++ vs') (ps ++ ps') t')
    | _ => some (tForAll vs ps nt)
  | n + 1, tExists vs ps t => do
    let nt ← hoistType n t
    match nt with
    | tExists vs' ps' t' => hoistType n (tExists (vs ++ vs') (ps ++ ps') t')
    | _ => some (tExists vs ps nt)
  | n + 1, tArrow a b => do
    let na ← hoistType n a
    let nb ← hoistType n b
    match nb, na with
    | tForAll vs ps t, na => hoistType n (tForAll vs ps (tArrow na t))
    | nb, tExists vs ps t => hoistType n (tForAll vs ps (tArrow t nb))
    | nb, na => some (tArrow na nb)

def Ty.isForAll : Ty → Bool
  | tForAll .. => true
  | _ => false

def Ty.isExists : Ty → Bool
  | tExists .. => true
  | _ => false

attribute [local grind =] hoistType

theorem exists_tForAll {t : Ty} (h : t.isForAll = true) : ∃ vs ps s, t = tForAll vs ps s := by
  cases t with
  | tForAll vs ps s => exact ⟨vs, ps, s, rfl⟩
  | _ => exact absurd h Bool.false_ne_true

theorem exists_tExists {t : Ty} (h : t.isExists = true) : ∃ vs ps s, t = tExists vs ps s := by
  cases t with
  | tExists vs ps s => exact ⟨vs, ps, s, rfl⟩
  | _ => exact absurd h Bool.false_ne_true

/-! ### The types of a predicate, and induction -/

def Pred.types : Pred → List Ty
  | .isIn _ t => [t]
  | .isEq t1 t2 => [t1, t2]

mutual

/-- The predicates of the contexts, from left to right. -/
def contexts : Ty → List Pred
  | tVar _ | tCon _ | tMetaVar _ => []
  | tAp a b | tArrow a b => contexts a ++ contexts b
  | tForAll _ ps t | tExists _ ps t => ps ++ contexts t
  | tAssoc _ cas eas => contextsTys cas ++ contextsTys eas

def contextsTys : List Ty → List Pred
  | [] => []
  | t :: ts => contexts t ++ contextsTys ts

end

attribute [local grind =] contexts

theorem contextsTys_eq (ts : List Ty) : contextsTys ts = ts.flatMap contexts := by
  induction ts with
  | nil => rfl
  | cons t ts ih => rw [contextsTys, ih, List.flatMap_cons]

/-- Induction on a type, with the types of its predicates among its parts. -/
theorem Ty.induct {P : Ty → Prop} (var : ∀ v, P (tVar v)) (con : ∀ c, P (tCon c)) (metaVar : ∀ m, P (tMetaVar m))
    (ap : ∀ a b, P a → P b → P (tAp a b)) (arrow : ∀ a b, P a → P b → P (tArrow a b))
    (all : ∀ vs ps t, (∀ p ∈ ps, ∀ s ∈ Pred.types p, P s) → P t → P (tForAll vs ps t))
    (ex : ∀ vs ps t, (∀ p ∈ ps, ∀ s ∈ Pred.types p, P s) → P t → P (tExists vs ps t))
    (assoc : ∀ c cas eas, (∀ s ∈ cas, P s) → (∀ s ∈ eas, P s) → P (tAssoc c cas eas)) (t : Ty) : P t := by
  refine @Ty.rec P (fun p => ∀ s ∈ Pred.types p, P s) (fun ps => ∀ p ∈ ps, ∀ s ∈ Pred.types p, P s)
    (fun ts => ∀ s ∈ ts, P s) var con ap arrow all ex metaVar assoc ?_ ?_ ?_ ?_ ?_ ?_ t
  all_goals simp_all [Pred.types]

/-! ### The result, by recursion on the type -/

/-- A quantifier in front of a hoisted type. -/
def mergeForAll (vs : List Name) (ps : List Pred) : Ty → Ty
  | tForAll vs' ps' t' => tForAll (vs ++ vs') (ps ++ ps') t'
  | nt => tForAll vs ps nt

def mergeExists (vs : List Name) (ps : List Pred) : Ty → Ty
  | tExists vs' ps' t' => tExists (vs ++ vs') (ps ++ ps') t'
  | nt => tExists vs ps nt

/-- An arrow from a hoisted type to one that has no quantifier in front. -/
def moveLeft (na nb : Ty) : Ty :=
  match na with
  | tExists vs ps t => tForAll vs ps (tArrow t nb)
  | _ => tArrow na nb

/-- An arrow between hoisted types. -/
def moveArrow (na nb : Ty) : Ty :=
  match nb with
  | tForAll vs ps t => mergeForAll vs ps (moveLeft na t)
  | _ => moveLeft na nb

mutual

def hoist : Ty → Ty
  | tVar v => tVar v
  | tCon c => tCon c
  | tMetaVar m => tMetaVar m
  | tAssoc c cas eas => tAssoc c (hoistTys cas) (hoistTys eas)
  | tAp a b => tAp (hoist a) (hoist b)
  | tForAll vs ps t => mergeForAll vs ps (hoist t)
  | tExists vs ps t => mergeExists vs ps (hoist t)
  | tArrow a b => moveArrow (hoist a) (hoist b)

def hoistTys : List Ty → List Ty
  | [] => []
  | t :: ts => hoist t :: hoistTys ts

end

section
variable {vs : List Name} {ps : List Pred} {na nb nt : Ty}

attribute [local grind =] hoist

theorem mergeForAll_eq (h : nt.isForAll = false) : mergeForAll vs ps nt = tForAll vs ps nt := by
  cases nt with
  | tForAll => exact absurd h.symm Bool.false_ne_true
  | _ => rfl

theorem mergeExists_eq (h : nt.isExists = false) : mergeExists vs ps nt = tExists vs ps nt := by
  cases nt with
  | tExists => exact absurd h.symm Bool.false_ne_true
  | _ => rfl

theorem moveLeft_eq (h : na.isExists = false) : moveLeft na nb = tArrow na nb := by
  cases na with
  | tExists => exact absurd h.symm Bool.false_ne_true
  | _ => rfl

theorem moveArrow_eq (h : nb.isForAll = false) : moveArrow na nb = moveLeft na nb := by
  cases nb with
  | tForAll => exact absurd h.symm Bool.false_ne_true
  | _ => rfl

end

theorem hoistTys_eq_map (ts : List Ty) : hoistTys ts = ts.map hoist := by
  induction ts with
  | nil => rfl
  | cons t ts ih => rw [hoistTys, ih, List.map_cons]

/-! ### The form of the result -/

/-- No arrow has a universal type right of it or an existential type left of it, and no quantifier stands
directly under its like; `within` asks the same of the types in predicates. -/
inductive Hoisted (within : Prop) : Ty → Prop
  | var (v) : Hoisted within (tVar v)
  | con (c) : Hoisted within (tCon c)
  | metaVar (m) : Hoisted within (tMetaVar m)
  | ap {a b} : Hoisted within a → Hoisted within b → Hoisted within (tAp a b)
  | assoc {c cas eas} : (∀ s ∈ cas, Hoisted within s) → (∀ s ∈ eas, Hoisted within s) →
      Hoisted within (tAssoc c cas eas)
  | arrow {a b} : a.isExists = false → b.isForAll = false → Hoisted within a → Hoisted within b →
      Hoisted within (tArrow a b)
  | all {vs ps t} : (within → ∀ p ∈ ps, ∀ s ∈ Pred.types p, Hoisted within s) → t.isForAll = false →
      Hoisted within t → Hoisted within (tForAll vs ps t)
  | ex {vs ps t} : (within → ∀ p ∈ ps, ∀ s ∈ Pred.types p, Hoisted within s) → t.isExists = false →
      Hoisted within t → Hoisted within (tExists vs ps t)

section
variable {within : Prop} {vs : List Name} {ps : List Pred} {na nb nt : Ty}

theorem Hoisted.mergeForAll (h : Hoisted within nt)
    (hps : within → ∀ p ∈ ps, ∀ s ∈ Pred.types p, Hoisted within s) :
    Hoisted within (mergeForAll vs ps nt) := by
  cases h with
  | all hps' hf h => exact .all (fun hw => List.forall_mem_append.mpr ⟨hps hw, hps' hw⟩) hf h
  | _ => exact .all hps rfl (by constructor <;> assumption)

theorem Hoisted.mergeExists (h : Hoisted within nt)
    (hps : within → ∀ p ∈ ps, ∀ s ∈ Pred.types p, Hoisted within s) :
    Hoisted within (mergeExists vs ps nt) := by
  cases h with
  | ex hps' hf h => exact .ex (fun hw => List.forall_mem_append.mpr ⟨hps hw, hps' hw⟩) hf h
  | _ => exact .ex hps rfl (by constructor <;> assumption)

theorem Hoisted.moveLeft (ha : Hoisted within na) (hf : nb.isForAll = false) (hb : Hoisted within nb) :
    Hoisted within (moveLeft na nb) := by
  cases ha with
  | ex hps he ht => exact .all hps rfl (.arrow he hf ht hb)
  | _ => exact .arrow rfl hf (by constructor <;> assumption) hb

theorem Hoisted.moveArrow (ha : Hoisted within na) (hb : Hoisted within nb) :
    Hoisted within (moveArrow na nb) := by
  cases hb with
  | all hps hf ht => exact (ha.moveLeft hf ht).mergeForAll hps
  | _ => exact ha.moveLeft rfl (by constructor <;> assumption)

end

/-- A hoisted type stays as it is. -/
theorem Hoisted.hoist_eq {within : Prop} {t : Ty} (h : Hoisted within t) : hoist t = t := by
  induction h with
  | var v => rfl
  | con c => rfl
  | metaVar m => rfl
  | ap _ _ iha ihb => rw [hoist, iha, ihb]
  | assoc _ _ ihc ihe =>
    rw [hoist, hoistTys_eq_map, hoistTys_eq_map, List.map_congr_left ihc, List.map_congr_left ihe, List.map_id',
      List.map_id']
  | arrow he hf _ _ iha ihb => rw [hoist, iha, ihb, moveArrow_eq hf, moveLeft_eq he]
  | all _ hf _ _ ih => rw [hoist, ih, mergeForAll_eq hf]
  | ex _ he _ _ ih => rw [hoist, ih, mergeExists_eq he]

/-- The hoisted type is in that form. Predicates are kept as they are. -/
theorem hoist_hoisted {within : Prop} (t : Ty)
    (h : within → ∀ p ∈ contexts t, ∀ s ∈ Pred.types p, Hoisted within s) : Hoisted within (hoist t) := by
  induction t using Ty.induct with
  | var v => exact .var v
  | con c => exact .con c
  | metaVar m => exact .metaVar m
  | ap a b iha ihb =>
    exact .ap (iha fun hw p hp => h hw p (List.mem_append_left _ hp))
      (ihb fun hw p hp => h hw p (List.mem_append_right _ hp))
  | arrow a b iha ihb =>
    exact (iha fun hw p hp => h hw p (List.mem_append_left _ hp)).moveArrow
      (ihb fun hw p hp => h hw p (List.mem_append_right _ hp))
  | all vs ps t _ ih =>
    exact (ih fun hw p hp => h hw p (List.mem_append_right _ hp)).mergeForAll
      fun hw p hp => h hw p (List.mem_append_left _ hp)
  | ex vs ps t _ ih =>
    exact (ih fun hw p hp => h hw p (List.mem_append_right _ hp)).mergeExists
      fun hw p hp => h hw p (List.mem_append_left _ hp)
  | assoc c cas eas ihc ihe =>
    rw [hoist, hoistTys_eq_map, hoistTys_eq_map]
    rw [contexts, contextsTys_eq, contextsTys_eq] at h
    refine .assoc (List.forall_mem_map.mpr fun s hs => ihc s hs fun hw p hp => h hw p ?_)
      (List.forall_mem_map.mpr fun s hs => ihe s hs fun hw p hp => h hw p ?_)
    · exact List.mem_append_left _ (List.mem_flatMap.mpr ⟨s, hs, hp⟩)
    · exact List.mem_append_right _ (List.mem_flatMap.mpr ⟨s, hs, hp⟩)

/-! ### The rewriting stops -/

/-- From some amount of fuel on, `hoistType` returns this type. -/
def HoistsTo (t r : Ty) : Prop := ∃ N, ∀ n, N ≤ n → hoistType n t = some r

theorem HoistsTo.unique {t r r' : Ty} (h : HoistsTo t r) (h' : HoistsTo t r') : r = r' := by
  obtain ⟨N, hN⟩ := h
  obtain ⟨M, hM⟩ := h'
  have hr := hN (max N M) (le_max_left N M)
  rw [hM (max N M) (le_max_right N M)] at hr
  exact (Option.some.inj hr).symm

/-- One unfolding of the recursion. -/
theorem HoistsTo.of_succ {t r : Ty} (h : ∃ N, ∀ n, N ≤ n → hoistType (n + 1) t = some r) : HoistsTo t r := by
  obtain ⟨N, hN⟩ := h
  refine ⟨N + 1, fun n hn => ?_⟩
  obtain ⟨m, rfl⟩ : ∃ m, n = m + 1 := ⟨n - 1, by omega⟩
  exact hN m (by omega)

theorem hoistsTo_list {f : Ty → Ty} (ts : List Ty) (h : ∀ t ∈ ts, HoistsTo t (f t)) :
    ∃ N, ∀ n, N ≤ n → ts.mapM (hoistType n) = some (ts.map f) := by
  induction ts with
  | nil => exact ⟨0, fun n _ => rfl⟩
  | cons t ts ih =>
    obtain ⟨N, hN⟩ := h t (List.mem_cons_self ..)
    obtain ⟨M, hM⟩ := ih fun s hs => h s (List.mem_cons_of_mem t hs)
    refine ⟨max N M, fun n hn => ?_⟩
    rw [List.mapM_cons, hN n (le_of_max_le_left hn), hM n (le_of_max_le_right hn)]
    rfl

section
variable {vs : List Name} {ps : List Pred} {a b t na nb nt r : Ty}

theorem HoistsTo.ap (ha : HoistsTo a na) (hb : HoistsTo b nb) : HoistsTo (tAp a b) (tAp na nb) := by
  obtain ⟨N, hN⟩ := ha
  obtain ⟨M, hM⟩ := hb
  refine .of_succ ⟨max N M, fun n hn => ?_⟩
  rw [hoistType, hN n (le_of_max_le_left hn), hM n (le_of_max_le_right hn)]
  rfl

theorem HoistsTo.assoc {f : Ty → Ty} {c : Tycon} {cas eas : List Ty} (hc : ∀ s ∈ cas, HoistsTo s (f s))
    (he : ∀ s ∈ eas, HoistsTo s (f s)) : HoistsTo (tAssoc c cas eas) (tAssoc c (cas.map f) (eas.map f)) := by
  obtain ⟨N, hN⟩ := hoistsTo_list cas hc
  obtain ⟨M, hM⟩ := hoistsTo_list eas he
  refine .of_succ ⟨max N M, fun n hn => ?_⟩
  rw [hoistType, hN n (le_of_max_le_left hn), hM n (le_of_max_le_right hn)]
  rfl

theorem HoistsTo.forAll (ht : HoistsTo t nt) (hf : nt.isForAll = false) :
    HoistsTo (tForAll vs ps t) (tForAll vs ps nt) := by
  obtain ⟨N, hN⟩ := ht
  refine .of_succ ⟨N, fun n hn => ?_⟩
  rw [hoistType, hN n hn]
  cases nt with
  | tForAll => exact absurd hf.symm Bool.false_ne_true
  | _ => rfl

theorem HoistsTo.forAll_forAll {vs' : List Name} {ps' : List Pred} (ht : HoistsTo t (tForAll vs' ps' nt))
    (h : HoistsTo (tForAll (vs ++ vs') (ps ++ ps') nt) r) : HoistsTo (tForAll vs ps t) r := by
  obtain ⟨N, hN⟩ := ht
  obtain ⟨M, hM⟩ := h
  refine .of_succ ⟨max N M, fun n hn => ?_⟩
  rw [hoistType, hN n (le_of_max_le_left hn)]
  exact hM n (le_of_max_le_right hn)

theorem HoistsTo.exists (ht : HoistsTo t nt) (hf : nt.isExists = false) :
    HoistsTo (tExists vs ps t) (tExists vs ps nt) := by
  obtain ⟨N, hN⟩ := ht
  refine .of_succ ⟨N, fun n hn => ?_⟩
  rw [hoistType, hN n hn]
  cases nt with
  | tExists => exact absurd hf.symm Bool.false_ne_true
  | _ => rfl

theorem HoistsTo.exists_exists {vs' : List Name} {ps' : List Pred} (ht : HoistsTo t (tExists vs' ps' nt))
    (h : HoistsTo (tExists (vs ++ vs') (ps ++ ps') nt) r) : HoistsTo (tExists vs ps t) r := by
  obtain ⟨N, hN⟩ := ht
  obtain ⟨M, hM⟩ := h
  refine .of_succ ⟨max N M, fun n hn => ?_⟩
  rw [hoistType, hN n (le_of_max_le_left hn)]
  exact hM n (le_of_max_le_right hn)

theorem HoistsTo.arrow (ha : HoistsTo a na) (hb : HoistsTo b nb) (he : na.isExists = false)
    (hf : nb.isForAll = false) : HoistsTo (tArrow a b) (tArrow na nb) := by
  obtain ⟨N, hN⟩ := ha
  obtain ⟨M, hM⟩ := hb
  refine .of_succ ⟨max N M, fun n hn => ?_⟩
  rw [hoistType, hN n (le_of_max_le_left hn), hM n (le_of_max_le_right hn)]
  cases nb with
  | tForAll => exact absurd hf.symm Bool.false_ne_true
  | _ =>
    cases na with
    | tExists => exact absurd he.symm Bool.false_ne_true
    | _ => rfl

theorem HoistsTo.arrow_forAll (ha : HoistsTo a na) (hb : HoistsTo b (tForAll vs ps nb))
    (h : HoistsTo (tForAll vs ps (tArrow na nb)) r) : HoistsTo (tArrow a b) r := by
  obtain ⟨N, hN⟩ := ha
  obtain ⟨M, hM⟩ := hb
  obtain ⟨K, hK⟩ := h
  refine .of_succ ⟨max (max N M) K, fun n hn => ?_⟩
  rw [hoistType, hN n (by omega), hM n (by omega)]
  exact hK n (by omega)

theorem HoistsTo.arrow_exists (ha : HoistsTo a (tExists vs ps na)) (hb : HoistsTo b nb)
    (hf : nb.isForAll = false) (h : HoistsTo (tForAll vs ps (tArrow na nb)) r) : HoistsTo (tArrow a b) r := by
  obtain ⟨N, hN⟩ := ha
  obtain ⟨M, hM⟩ := hb
  obtain ⟨K, hK⟩ := h
  refine .of_succ ⟨max (max N M) K, fun n hn => ?_⟩
  rw [hoistType, hN n (by omega), hM n (by omega)]
  cases nb with
  | tForAll => exact absurd hf.symm Bool.false_ne_true
  | _ => exact hK n (by omega)

end

/-- A type that is hoisted already is given back. -/
theorem Hoisted.hoistsTo {within : Prop} {t : Ty} (h : Hoisted within t) : HoistsTo t t := by
  induction h with
  | var v => exact .of_succ ⟨0, fun n _ => rfl⟩
  | con c => exact .of_succ ⟨0, fun n _ => rfl⟩
  | metaVar m => exact .of_succ ⟨0, fun n _ => rfl⟩
  | ap _ _ iha ihb => exact iha.ap ihb
  | assoc _ _ ihc ihe => simpa using HoistsTo.assoc (f := id) ihc ihe
  | arrow he hf _ _ iha ihb => exact iha.arrow ihb he hf
  | all _ hf _ _ ih => exact ih.forAll hf
  | ex _ he _ _ ih => exact ih.exists he

section
variable {within : Prop} {vs : List Name} {ps : List Pred} {a b t na nb nt : Ty}

theorem HoistsTo.mergeForAll (ht : HoistsTo t nt) (h : Hoisted False nt) :
    HoistsTo (tForAll vs ps t) (mergeForAll vs ps nt) := by
  cases hf : nt.isForAll with
  | false =>
    rw [mergeForAll_eq hf]
    exact ht.forAll hf
  | true =>
    obtain ⟨vs', ps', s, rfl⟩ := exists_tForAll hf
    exact ht.forAll_forAll (h.mergeForAll False.elim).hoistsTo

theorem HoistsTo.mergeExists (ht : HoistsTo t nt) (h : Hoisted False nt) :
    HoistsTo (tExists vs ps t) (mergeExists vs ps nt) := by
  cases he : nt.isExists with
  | false =>
    rw [mergeExists_eq he]
    exact ht.exists he
  | true =>
    obtain ⟨vs', ps', s, rfl⟩ := exists_tExists he
    exact ht.exists_exists (h.mergeExists False.elim).hoistsTo

theorem HoistsTo.moveLeft (ha : HoistsTo a na) (hb : HoistsTo b nb) (hna : Hoisted False na)
    (hnb : Hoisted False nb) (hf : nb.isForAll = false) : HoistsTo (tArrow a b) (moveLeft na nb) := by
  cases he : na.isExists with
  | false =>
    rw [moveLeft_eq he]
    exact ha.arrow hb he hf
  | true =>
    obtain ⟨vs, ps, s, rfl⟩ := exists_tExists he
    exact ha.arrow_exists hb hf (hna.moveLeft hf hnb).hoistsTo

/-- After the universal quantifiers on the right, those of the left operand are what is left to move. -/
theorem HoistsTo.moveArrow (ha : HoistsTo a na) (hb : HoistsTo b nb) (hna : Hoisted False na)
    (hnb : Hoisted False nb) : HoistsTo (tArrow a b) (moveArrow na nb) := by
  cases hf : nb.isForAll with
  | false =>
    rw [moveArrow_eq hf]
    exact ha.moveLeft hb hna hnb hf
  | true =>
    obtain ⟨vs, ps, s, rfl⟩ := exists_tForAll hf
    cases hnb with
    | all _ hs hns =>
      have hmove : HoistsTo (tArrow na s) (Representation.moveLeft na s) :=
        hna.hoistsTo.moveLeft hns.hoistsTo hna hns hs
      exact ha.arrow_forAll hb (hmove.mergeForAll (hna.moveLeft hs hns))

end

theorem hoistsTo_hoist (t : Ty) : HoistsTo t (hoist t) := by
  have hoisted (s : Ty) : Hoisted False (hoist s) := hoist_hoisted s False.elim
  induction t using Ty.induct with
  | var v => exact .of_succ ⟨0, fun n _ => rfl⟩
  | con c => exact .of_succ ⟨0, fun n _ => rfl⟩
  | metaVar m => exact .of_succ ⟨0, fun n _ => rfl⟩
  | ap a b iha ihb => exact iha.ap ihb
  | arrow a b iha ihb => exact iha.moveArrow ihb (hoisted a) (hoisted b)
  | all vs ps t _ ih => exact ih.mergeForAll (hoisted t)
  | ex vs ps t _ ih => exact ih.mergeExists (hoisted t)
  | assoc c cas eas ihc ihe =>
    rw [hoist, hoistTys_eq_map, hoistTys_eq_map]
    exact .assoc ihc ihe

end Jhc.FrontEnd.Representation

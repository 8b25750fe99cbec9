import Jhc.E.Alpha
import Jhc.E.NameSupply

/-!
# Eta expansion (E/Eta.hs:38-80, 99-103, 136-186)

The infos of variables, the type checker and the substitution into types are taken as they are.
-/

namespace Jhc.E

inductive ArityType where
  | aFun (oneShot : Bool) (a : ArityType)
  | aBottom
  | aTop

/-- What the expansion takes from elsewhere: the one-shot property and the arity in the info of a
variable, two classes of expressions (E/Values.hs:194-232), the type of an expression with its
aliases followed (`expandPis dataTable . infertype dataTable`) and substitution (E/Subst.hs). -/
structure Tables where
  isOneShot : TVr → Bool
  arityInfo : TVr → Option ArityType
  isCheap : E → Bool
  isAtomic : E → Bool
  typeOf : E → E
  subst : TVr → E → E → E

def andArityType : ArityType → ArityType → ArityType
  | .aBottom, at2 => at2
  | .aTop, _ => .aTop
  | .aFun t1 at1, .aFun t2 at2 => .aFun (t1 && t2) (andArityType at1 at2)
  | .aFun t at1, .aBottom => .aFun t at1
  | .aFun _ _, .aTop => .aTop

/-- `foldr1 andArityType`; a case has a body. -/
def andArityTypes : List ArityType → ArityType
  | [] => .aBottom
  | [a] => a
  | a :: as => andArityType a (andArityTypes as)

namespace Tables

variable (T : Tables)

/-- The arity where the work of the rest may be repeated, or is done once only. -/
def guardArity (cheap : Bool) : ArityType → ArityType
  | .aFun true a => .aFun true a
  | xs => if cheap then xs else .aTop

mutual

def arityType : E → ArityType
  | .eError _ _ => .aBottom
  | .eLam x e => .aFun (T.isOneShot x) (arityType e)
  | .eAp a b =>
    match arityType a with
    | .aFun _ xs => if T.isCheap b then xs else .aTop
    | _ => .aTop
  | .eCase scrut _ _ as d =>
    guardArity (T.isCheap scrut) (andArityTypes (arityAlts as ++ arityDefault d))
  | .eLetRec ds e => guardArity ((ds.map Def.rhs).all T.isCheap) (arityType e)
  | .eVar tvr => (T.arityInfo tvr).getD .aTop
  | _ => .aTop

def arityAlt : Alt → ArityType
  | .litInt _ _ e => arityType e
  | .litCons _ _ _ e => arityType e

def arityAlts : List Alt → List ArityType
  | [] => []
  | a :: as => arityAlt a :: arityAlts as

def arityDefault : Option E → List ArityType
  | none => []
  | some e => [arityType e]

end

/-- The expansion of `e` at the type given last; `min` counts down to nothing. -/
def f : ArityType → ℕ → E → E → IdNameT (E × Bool)
  | .aFun _ a, min, .eLam tvr e, .ePi tvr' rt => do
      let r ← f a (min - 1) e (T.subst tvr' (.eVar tvr) rt)
      return (.eLam tvr r.1, r.2)
  | .aFun _ a, min, e, .ePi tt rt => do
      let n ← newName
      let nv := TVr.mk n tt.tvrType
      let r ← f a (min - 1) (.eAp e (.eVar nv)) (T.subst tt (.eVar nv) rt)
      return (.eLam nv r.1, true)
  | a, min + 1, e, .ePi tt rt => do
      let n ← newName
      let nv := TVr.mk n tt.tvrType
      let r ← f a min (.eAp e (.eVar nv)) (T.subst tt (.eVar nv) rt)
      return (.eLam nv r.1, true)
  | _, _, e, _ => return (e, false)
termination_by a min => (sizeOf a, min)

def etaExpandDef (min : ℕ) (t : TVr) (e : E) : IdNameT (Option (TVr × E)) :=
  if T.isAtomic e then return none
  else do
    let r ← f T (arityType T e) min e (T.typeOf e)
    return if r.2 then some (t, r.1) else none

def etaExpandDef' (min : ℕ) : Def → IdNameT Def
  | .mk t e => do
      let r ← etaExpandDef T min t e
      return (r.map fun p => Def.mk p.1 p.2).getD (.mk t e)

/-- The definitions of a program, one after the other. -/
def etaExpandDefs : List Def → IdNameT (List Def)
  | [] => return []
  | d :: ds => do
      let d' ← etaExpandDef' T 0 d
      let ds' ← etaExpandDefs ds
      return d' :: ds'

/-- `runNameMT`: every run starts without names. -/
def etaExpandProgram (ds : List Def) : List Def :=
  (etaExpandDefs T ds ⟨∅, ∅, Finset.Subset.refl ∅⟩).1

end Tables

end Jhc.E

/-!
# When eta expansion is hygienic (E/Eta.hs:99-103, 144-186)
-/

namespace Jhc.E

/-! ### Eta expansion at a type -/

def E.isLam : E → Bool
  | .eLam _ _ => true
  | _ => false

/-- `EtaAt S ty e e'`: at the type `ty`, the body of `e` under its lambdas becomes that of `e'` by
eta expansion. A new variable is free neither in the expression that is applied to it nor in the type
of that application; `S` substitutes into types. -/
inductive EtaAt (S : TVr → E → E → E) : E → E → E → Prop where
  | refl (ty e : E) : EtaAt S ty e e
  | lam {tvr tvr' : TVr} {rt e e' : E} (h : EtaAt S (S tvr' (.eVar tvr) rt) e e') :
      EtaAt S (.ePi tvr' rt) (.eLam tvr e) (.eLam tvr e')
  | eta {n : Id} {tt : TVr} {rt e e' : E} (hlam : e.isLam = false) (he : n ∉ free e)
      (ht : n ∉ (free rt).filter (· ≠ tt.tvrIdent))
      (h : EtaAt S (S tt (.eVar (.mk n tt.tvrType)) rt) (.eAp e (.eVar (.mk n tt.tvrType))) e') :
      EtaAt S (.ePi tt rt) e (.eLam (.mk n tt.tvrType) e')

/-! ### The names of a run

As many names are bound as are used, so the seed is always the same. -/

/-- The names after `k` of them were handed out. -/
def supply (k : ℕ) : Names where
  used := (Finset.range k).image (candidateIds 0)
  bound := (Finset.range k).image (candidateIds 0)
  bound_used := Finset.Subset.refl _

theorem supply_seed (k : ℕ) : (supply k).seed = 0 := by
  unfold Names.seed supply mixInt
  exact BitVec.sub_self _

theorem candidate_mem_supply {j k : ℕ} : candidateIds 0 j ∈ (supply k).used ↔ j < k := by
  unfold supply
  rw [Finset.mem_image]
  constructor
  · intro h
    obtain ⟨i, hi, hij⟩ := h
    rw [← candidateIds_injective 0 hij]
    exact Finset.mem_range.mp hi
  · intro h
    exact ⟨j, Finset.mem_range.mpr h, rfl⟩

theorem newId_supply (k : ℕ) : newId (supply k).seed (supply k).used = candidateIds 0 k := by
  rw [supply_seed]
  unfold newId
  congr 1
  rw [Nat.find_eq_iff]
  constructor
  · rw [candidate_mem_supply]
    exact lt_irrefl k
  · intro j hj
    rw [not_not,candidate_mem_supply]
    exact hj

theorem supply_bind (k : ℕ) : (supply k).bind (candidateIds 0 k) = supply (k + 1) := by
  unfold Names.bind supply
  simp only [Finset.range_add_one,Finset.image_insert]

theorem newName_supply (k : ℕ) : newName (supply k) = (candidateIds 0 k, supply (k + 1)) := by
  have h : newName (supply k) = (newId (supply k).seed (supply k).used,
    (supply k).bind (newId (supply k).seed (supply k).used)) := rfl
  rw [h,newId_supply,supply_bind]

namespace Tables

variable (T : Tables)

/-! ### The lambdas that are added -/

/-- What is left under the lambdas that stand already: the arity, the body and its type. -/
def passed : ArityType → E → E → ArityType × E × E
  | .aFun _ a, .eLam tvr e, .ePi tvr' rt => passed a e (T.subst tvr' (.eVar tvr) rt)
  | a, e, ty => (a, e, ty)

/-- A new variable, and the binder and the rest of the type it comes from. -/
structure NewBinder where
  var : TVr
  binder : TVr
  rest : E

/-- The binders that are added at a type after `k` names were handed out. -/
def newBinders : ℕ → ArityType → E → List NewBinder
  | k, .aFun _ a, .ePi tt rt =>
    let nv := TVr.mk (candidateIds 0 k) tt.tvrType
    ⟨nv, tt, rt⟩ :: newBinders (k + 1) a (T.subst tt (.eVar nv) rt)
  | _, _, _ => []

/-- The type of the application does not mention the new variable. -/
def NewBinder.Outside (b : NewBinder) : Prop :=
  b.var.tvrIdent ∉ (free b.rest).filter (· ≠ b.binder.tvrIdent)

def expand : E → List NewBinder → E
  | e, [] => e
  | e, b :: bs => .eLam b.var (expand (.eAp e (.eVar b.var)) bs)

theorem newBinders_ident (k : ℕ) (a : ArityType) (ty : E) :
    ∀ b ∈ newBinders T k a ty, ∃ j, k ≤ j ∧ b.var.tvrIdent = candidateIds 0 j := by
  induction a generalizing k ty with
  | aBottom =>
    intro b hb
    cases hb
  | aTop =>
    intro b hb
    cases hb
  | aFun o a ih =>
    intro b hb
    cases ty with
    | ePi tt rt =>
      rcases List.mem_cons.mp hb with rfl | hb
      · exact ⟨k, le_refl k, rfl⟩
      · obtain ⟨j, hj, hid⟩ := ih (k + 1) _ b hb
        exact ⟨j, Nat.le_of_succ_le hj, hid⟩
    | _ => cases hb

theorem etaAt_pi {S : TVr → E → E → E} {tt : TVr} {rt e e' : E} {n : Id} (hlam : e.isLam = false) :
    EtaAt S (.ePi tt rt) e (.eLam (.mk n tt.tvrType) e') ↔
      n ∉ free e ∧ n ∉ (free rt).filter (· ≠ tt.tvrIdent) ∧
        EtaAt S (S tt (.eVar (.mk n tt.tvrType)) rt) (.eAp e (.eVar (.mk n tt.tvrType))) e' := by
  constructor
  · intro h
    cases h with
    | refl => cases hlam
    | lam => cases hlam
    | eta _ he ht h => exact ⟨he, ht, h⟩
  · intro h
    exact .eta hlam h.1 h.2.1 h.2.2

theorem etaAt_nothing (ty e : E) : EtaAt T.subst ty e e ↔
    ∀ b ∈ ([] : List NewBinder), b.var.tvrIdent ∉ free e ∧ b.Outside :=
  ⟨fun _ _ hb => absurd hb List.not_mem_nil, fun _ => .refl ty e⟩

theorem etaAt_expand (k : ℕ) (a : ArityType) {e : E} (ty : E) (hlam : e.isLam = false) :
    EtaAt T.subst ty e (expand e (newBinders T k a ty)) ↔
      ∀ b ∈ newBinders T k a ty, b.var.tvrIdent ∉ free e ∧ b.Outside := by
  induction a generalizing k e ty with
  | aBottom => exact etaAt_nothing T ty e
  | aTop => exact etaAt_nothing T ty e
  | aFun o a ih =>
    cases ty with
    | ePi tt rt =>
      obtain ⟨nv, hnv⟩ : ∃ nv, nv = TVr.mk (candidateIds 0 k) tt.tvrType := ⟨_, rfl⟩
      have hrest := ih (k + 1) (e := .eAp e (.eVar nv)) (T.subst tt (.eVar nv) rt) rfl
      have hids := newBinders_ident T (k + 1) a (T.subst tt (.eVar nv) rt)
      rw [newBinders,← hnv,expand,List.forall_mem_cons,and_assoc]
      rw [hnv] at hrest hids ⊢
      refine (etaAt_pi hlam).trans (and_congr Iff.rfl (and_congr Iff.rfl (hrest.trans ?_)))
      constructor
      · intro h b hb
        refine ⟨fun hf => (h b hb).1 ?_, (h b hb).2⟩
        exact List.mem_append_left _ hf
      · intro h b hb
        refine ⟨fun hf => ?_, (h b hb).2⟩
        rcases List.mem_append.mp hf with hf | hf
        · exact (h b hb).1 hf
        · -- the new names of one run differ
          obtain ⟨j, hj, hid⟩ := hids b hb
          have heq : b.var.tvrIdent = candidateIds 0 k := List.mem_singleton.mp hf
          have hjk := candidateIds_injective 0 (hid.symm.trans heq)
          omega
    | _ => exact etaAt_nothing T _ e

/-! ### Runs from a supply -/

theorem f_stops (k : ℕ) {a : ArityType} (e ty : E)
    (h : ∀ o a' tt rt, a = .aFun o a' → ty = .ePi tt rt → False) :
    f T a 0 e ty (supply k) = ((e, false), supply k) ∧ newBinders T k a ty = [] := by
  constructor
  · rw [f]
    · rfl
    · exact h
    · intro m _ _ hm
      cases hm
    · intro o a' _ _ tvr' rt ha _ hty
      exact h o a' tvr' rt ha hty
  · cases a with
    | aFun o a =>
      cases ty with
      | ePi tt rt => exact (h o a tt rt rfl rfl).elim
      | _ => rfl
    | _ => rfl

theorem f_lam (o : Bool) (a : ArityType) (m : ℕ) (tvr tvr' : TVr) (e rt : E) (st : Names) :
    f T (.aFun o a) m (.eLam tvr e) (.ePi tvr' rt) st =
      let r := f T a (m - 1) e (T.subst tvr' (.eVar tvr) rt) st
      ((.eLam tvr r.1.1, r.1.2), r.2) := by
  rw [f]
  rfl

theorem f_pi (o : Bool) (a : ArityType) (m : ℕ) {e : E} (tt : TVr) (rt : E) (st : Names)
    (hlam : e.isLam = false) :
    f T (.aFun o a) m e (.ePi tt rt) st =
      let n := newName st
      let nv := TVr.mk n.1 tt.tvrType
      let r := f T a (m - 1) (.eAp e (.eVar nv)) (T.subst tt (.eVar nv) rt) n.2
      ((.eLam nv r.1.1, true), r.2) := by
  rw [f]
  · rfl
  · intro tvr b he
    rw [he] at hlam
    cases hlam

theorem f_run_nonlam (k : ℕ) (a : ArityType) {e : E} (ty : E) (hlam : e.isLam = false) :
    f T a 0 e ty (supply k) = ((expand e (newBinders T k a ty), !(newBinders T k a ty).isEmpty),
      supply (k + (newBinders T k a ty).length)) := by
  induction a generalizing k e ty with
  | aBottom => exact (f_stops T k e ty fun _ _ _ _ h => by cases h).1
  | aTop => exact (f_stops T k e ty fun _ _ _ _ h => by cases h).1
  | aFun o a ih =>
    by_cases hty : ∃ tt rt, ty = .ePi tt rt
    · obtain ⟨tt, rt, rfl⟩ := hty
      rw [f_pi T o a 0 tt rt _ hlam,newName_supply]
      have hr := ih (k + 1) (e := .eAp e (.eVar (.mk (candidateIds 0 k) tt.tvrType)))
        (T.subst tt (.eVar (.mk (candidateIds 0 k) tt.tvrType)) rt) rfl
      simp only [newBinders,expand,hr,List.length_cons,List.isEmpty_cons,Bool.not_false]
      rw [Nat.add_right_comm,Nat.add_assoc]
    · obtain ⟨hf, hb⟩ := f_stops T k (a := .aFun o a) e ty
        fun _ _ tt rt _ h => hty ⟨tt, rt, h⟩
      rw [hf,hb]
      rfl

theorem passed_nonlam (a : ArityType) {e : E} (ty : E) (hlam : e.isLam = false) :
    passed T a e ty = (a, e, ty) := by
  cases a with
  | aFun o a =>
    cases e with
    | eLam tvr b => cases hlam
    | _ => rfl
  | _ => rfl

theorem passed_nonpi (a : ArityType) (e : E) {ty : E} (hty : ∀ tt rt, ty ≠ .ePi tt rt) :
    passed T a e ty = (a, e, ty) := by
  cases a with
  | aFun o a =>
    cases e with
    | eLam tvr b =>
      cases ty with
      | ePi tt rt => exact absurd rfl (hty tt rt)
      | _ => rfl
    | _ => rfl
  | _ => rfl

theorem etaAt_lam {S : TVr → E → E → E} {tvr tvr' : TVr} {rt e e' : E} :
    EtaAt S (.ePi tvr' rt) (.eLam tvr e) (.eLam tvr e') ↔ EtaAt S (S tvr' (.eVar tvr) rt) e e' := by
  constructor
  · intro h
    cases h with
    | refl => exact .refl _ _
    | lam h => exact h
    | eta hlam => cases hlam
  · exact .lam

/-- What a run adds to `e` at the type `ty`, after `k` names were handed out. -/
def RunsTo (k : ℕ) (e ty : E) : Prop :=
  let p := passed T (arityType T e) e ty
  let bs := newBinders T k p.1 p.2.2
  ∃ e', f T (arityType T e) 0 e ty (supply k) = ((e', !bs.isEmpty), supply (k + bs.length)) ∧
    (bs = [] → e' = e) ∧
    (EtaAt T.subst ty e e' ↔ ∀ b ∈ bs, b.var.tvrIdent ∉ free p.2.1 ∧ b.Outside)

theorem runsTo_nonlam (k : ℕ) {e : E} (ty : E) (hlam : e.isLam = false) : RunsTo T k e ty := by
  unfold RunsTo
  rw [passed_nonlam T _ ty hlam]
  refine ⟨_, f_run_nonlam T k _ ty hlam, ?_, etaAt_expand T k _ ty hlam⟩
  intro hb
  rw [hb]
  rfl

theorem runsTo_nonpi (k : ℕ) (e : E) {ty : E} (hty : ∀ tt rt, ty ≠ .ePi tt rt) :
    RunsTo T k e ty := by
  obtain ⟨hf, hb⟩ := f_stops T k (a := arityType T e) e ty fun _ _ tt rt _ h => hty tt rt h
  unfold RunsTo
  rw [passed_nonpi T _ e hty]
  refine ⟨e, ?_, fun _ => rfl, ?_⟩
  · rw [hf,hb]
    rfl
  · rw [hb]
    exact etaAt_nothing T ty e

theorem f_run (k : ℕ) : (e : E) → ∀ ty, RunsTo T k e ty
  | .eLam tvr e => by
      intro ty
      by_cases hty : ∃ tt rt, ty = .ePi tt rt
      · obtain ⟨tvr', rt, rfl⟩ := hty
        obtain ⟨e', hf, hb, hiff⟩ := f_run k e (T.subst tvr' (.eVar tvr) rt)
        refine ⟨.eLam tvr e', ?_, fun h => congrArg (E.eLam tvr) (hb h), etaAt_lam.trans hiff⟩
        have hstep := f_lam T (T.isOneShot tvr) (arityType T e) 0 tvr tvr' e rt (supply k)
        rw [Nat.zero_sub,hf] at hstep
        exact hstep
      · exact runsTo_nonpi T k _ fun tt rt h => hty ⟨tt, rt, h⟩
  | .eAp _ _ => fun ty => runsTo_nonlam T k ty rfl
  | .ePi _ _ => fun ty => runsTo_nonlam T k ty rfl
  | .eVar _ => fun ty => runsTo_nonlam T k ty rfl
  | .unknown => fun ty => runsTo_nonlam T k ty rfl
  | .eSort _ => fun ty => runsTo_nonlam T k ty rfl
  | .eLitInt _ _ => fun ty => runsTo_nonlam T k ty rfl
  | .eLit _ _ _ => fun ty => runsTo_nonlam T k ty rfl
  | .eLetRec _ _ => fun ty => runsTo_nonlam T k ty rfl
  | .ePrim _ _ _ => fun ty => runsTo_nonlam T k ty rfl
  | .eError _ _ => fun ty => runsTo_nonlam T k ty rfl
  | .eCase _ _ _ _ _ => fun ty => runsTo_nonlam T k ty rfl

/-! ### Programs -/

/-- The body of a definition under its lambdas. -/
def core (e : E) : E := (passed T (arityType T e) e (T.typeOf e)).2.1

/-- The binders that are added to a definition after `k` names were handed out. -/
def added (k : ℕ) (e : E) : List NewBinder :=
  if T.isAtomic e then []
  else newBinders T k (passed T (arityType T e) e (T.typeOf e)).1
    (passed T (arityType T e) e (T.typeOf e)).2.2

/-- No name that is handed out for the definition is free in its body under the lambdas, or in the
type that the name is put into. -/
def NamesFree (k : ℕ) (e : E) : Prop :=
  ∀ b ∈ added T k e, b.var.tvrIdent ∉ free (core T e) ∧ b.Outside

/-- The definitions with the number of names handed out before each. -/
def starts : ℕ → List Def → List (ℕ × Def)
  | _, [] => []
  | k, d :: ds => (k, d) :: starts (k + (added T k d.rhs).length) ds

/-- Every body is expanded at the type of its definition. -/
def Expands (ds ds' : List Def) : Prop :=
  List.Forall₂ (fun d d' => EtaAt T.subst (T.typeOf d.rhs) d.rhs d'.rhs) ds ds'

theorem etaExpandDef_atomic {e : E} (hat : T.isAtomic e = true) (m : ℕ) (t : TVr) :
    etaExpandDef T m t e = pure none := by
  unfold etaExpandDef
  rw [if_pos hat]

theorem etaExpandDef_nonatomic {e : E} (hat : ¬T.isAtomic e = true) (m : ℕ) (t : TVr) (st : Names) :
    etaExpandDef T m t e st =
      let r := f T (arityType T e) m e (T.typeOf e) st
      (if r.1.2 then some (t, r.1.1) else none, r.2) := by
  unfold etaExpandDef
  rw [if_neg hat]
  rfl

/-- A definition keeps its body when nothing is put over it. -/
theorem etaExpandDef'_eq (m : ℕ) (t : TVr) (e : E) (st : Names) :
    etaExpandDef' T m (.mk t e) st =
      let r := etaExpandDef T m t e st
      ((r.1.map fun p => Def.mk p.1 p.2).getD (.mk t e), r.2) := rfl

theorem etaExpandDef'_run (k : ℕ) (t : TVr) (e : E) :
    ∃ e', etaExpandDef' T 0 (.mk t e) (supply k) = (.mk t e', supply (k + (added T k e).length)) ∧
      (EtaAt T.subst (T.typeOf e) e e' ↔ NamesFree T k e) := by
  by_cases hat : T.isAtomic e
  · have hadd : added T k e = [] := if_pos hat
    refine ⟨e, ?_, ?_⟩
    · rw [etaExpandDef'_eq,etaExpandDef_atomic T hat,hadd]
      rfl
    · unfold NamesFree
      rw [hadd]
      exact ⟨fun _ b hb => absurd hb List.not_mem_nil, fun _ => .refl _ e⟩
  · obtain ⟨e', hf, hb, hiff⟩ := f_run T k e (T.typeOf e)
    have hadd : added T k e = newBinders T k (passed T (arityType T e) e (T.typeOf e)).1
      (passed T (arityType T e) e (T.typeOf e)).2.2 := if_neg hat
    rw [← hadd] at hf hb hiff
    refine ⟨e', ?_, hiff⟩
    rw [etaExpandDef'_eq,etaExpandDef_nonatomic T hat,hf]
    cases hl : added T k e with
    | nil =>
      rw [hb hl]
      rfl
    | cons b bs => rfl

theorem etaExpandDefs_iff (k : ℕ) (ds : List Def) :
    Expands T ds (etaExpandDefs T ds (supply k)).1 ↔
      ∀ p ∈ starts T k ds, NamesFree T p.1 p.2.rhs := by
  unfold Expands
  induction ds generalizing k with
  | nil => exact ⟨fun _ p hp => absurd hp List.not_mem_nil, fun _ => List.Forall₂.nil⟩
  | cons d ds ih =>
    cases d with
    | mk t e =>
      obtain ⟨e', hrun, hiff⟩ := etaExpandDef'_run T k t e
      have hstep : (etaExpandDefs T (.mk t e :: ds) (supply k)).1 =
          (etaExpandDef' T 0 (.mk t e) (supply k)).1 ::
            (etaExpandDefs T ds (etaExpandDef' T 0 (.mk t e) (supply k)).2).1 := rfl
      rw [hstep,hrun,List.forall₂_cons,ih,starts,List.forall_mem_cons]
      exact and_congr hiff Iff.rfl

theorem supply_zero : supply 0 = ⟨∅, ∅, Finset.Subset.refl ∅⟩ := rfl

theorem etaExpandProgram_iff (ds : List Def) :
    Expands T ds (etaExpandProgram T ds) ↔ ∀ p ∈ starts T 0 ds, NamesFree T p.1 p.2.rhs :=
  etaExpandDefs_iff T 0 ds

/-! ### A body that an earlier run expanded -/

def tInt : E := .eLit ⟨.TypeConstructor, none, ['I', 'n', 't']⟩ [] (.eSort .eStar)

/-- `Int -> ty`. -/
def fromInt (ty : E) : E := .ePi (.mk .emptyId tInt) ty

def tvrG : TVr := .mk (.anonymous 1) (fromInt (fromInt tInt))

/-- The variable that is new first in every run. -/
def firstNew : TVr := .mk (candidateIds 0 0) tInt

/-- `\n -> g n`. -/
def expandedOnce : E := .eLam firstNew (.eAp (.eVar tvrG) (.eVar firstNew))

/-- `g` takes two arguments, as does what is defined. -/
def arityTwo : Tables where
  isOneShot := fun _ => false
  arityInfo := fun t => if t.tvrIdent = .anonymous 1 then some (.aFun false (.aFun false .aTop)) else none
  isCheap := fun _ => true
  isAtomic := fun _ => false
  typeOf := fun _ => fromInt (fromInt tInt)
  subst := fun _ _ ty => ty

/-- The run makes `\n -> \n -> g n n` of it. -/
theorem etaExpandProgram_expandedOnce :
    ¬ Expands arityTwo [.mk (.mk (.anonymous 2) (fromInt (fromInt tInt))) expandedOnce]
      (etaExpandProgram arityTwo [.mk (.mk (.anonymous 2) (fromInt (fromInt tInt))) expandedOnce]) := by
  intro h
  have hfree := (etaExpandDefs_iff arityTwo 0 _).mp h (0, _) List.mem_cons_self
  have hadd : added arityTwo 0 expandedOnce = [⟨firstNew, .mk .emptyId tInt, tInt⟩] := rfl
  have hcore : core arityTwo expandedOnce = .eAp (.eVar tvrG) (.eVar firstNew) := rfl
  have hnew := (hfree ⟨firstNew, .mk .emptyId tInt, tInt⟩ (hadd ▸ List.mem_singleton_self _)).1
  change firstNew.tvrIdent ∉ free (core arityTwo expandedOnce) at hnew
  rw [hcore] at hnew
  exact hnew (List.mem_append_right _ (List.mem_singleton_self _))

end Tables

end Jhc.E

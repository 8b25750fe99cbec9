import Jhc.FrontEnd.Tc.Monad
import Jhc.Lib.FirstOrder
import Mathlib.Tactic.DefEqTransformations
import Mathlib.Tactic.NthRewrite

/-!
# The types that the references stand for

A type is read as a first-order term, in which an arrow is the application of its
constructor; the bindings of a proper state are a triangular system.
-/

namespace Jhc.FrontEnd.Tc
open Ty
open Jhc.Lib (Settles FOTerm)
open Jhc.Lib.FOTerm

inductive Sym where
  | con (n : Name)
  | var (n : Name)
  deriving DecidableEq

abbrev Tm := FOTerm Sym ℕ

def den : Ty → Tm
  | tVar v => con (.var v)
  | tCon c => con (.con c)
  | tAp f a => ap (den f) (den a)
  | tArrow a b => ap (ap (con (.con tc_Arrow)) (den a)) (den b)
  | tMetaVar mv => var mv.metaUniq

attribute [local grind =] den

theorem occurs_den {t : Ty} {x : ℕ} : (den t).Occurs x ↔ x ∈ freeMetaVars t := by
  induction t with
  | tVar v => simp [den, Occurs, freeMetaVars]
  | tCon c => simp [den, Occurs, freeMetaVars]
  | tAp f a ihf iha => simp only [den, Occurs, freeMetaVars, Finset.mem_union, ihf, iha]
  | tArrow a b iha ihb => simp only [den, Occurs, freeMetaVars, Finset.mem_union, false_or, iha, ihb]
  | tMetaVar mv => simp only [den, Occurs, freeMetaVars, Finset.mem_singleton]

theorem den_arrow (a b : Ty) : den (tArrow a b) = den (tAp (tAp arrowCon a) b) := rfl

@[simp] theorem den_app (a b : Ty) : den (Ty.app a b) = ap (den a) (den b) := by
  unfold Ty.app
  split
  · split
    · next h => subst h; rfl
    · rfl
  · rfl

theorem den_evalArrowApp (t : Ty) : den (evalArrowApp t) = den t := by
  unfold evalArrowApp
  split
  · split
    · next h => subst h; rfl
    · rfl
  · rfl

/-! ### Monotypes -/

/-- A type of unboxed metavariables below `n`. -/
def Fits (n : ℕ) (t : Ty) : Prop := isTau t = true ∧ ∀ x ∈ freeMetaVars t, x < n

@[simp] theorem fits_tVar (n : ℕ) (v : Name) : Fits n (tVar v) := ⟨rfl, by simp [freeMetaVars]⟩

@[simp] theorem fits_tCon (n : ℕ) (c : Name) : Fits n (tCon c) := ⟨rfl, by simp [freeMetaVars]⟩

@[simp] theorem fits_tMetaVar {n : ℕ} {mv : MetaVar} :
    Fits n (tMetaVar mv) ↔ mv.metaType = .tau ∧ mv.metaUniq < n := by
  simp [Fits, isTau, freeMetaVars]

@[simp] theorem fits_tAp {n : ℕ} {a b : Ty} : Fits n (tAp a b) ↔ Fits n a ∧ Fits n b := by
  simp only [Fits, isTau, freeMetaVars, Bool.and_eq_true, Finset.mem_union, or_imp, forall_and]
  exact and_and_and_comm

@[simp] theorem fits_tArrow {n : ℕ} {a b : Ty} : Fits n (tArrow a b) ↔ Fits n a ∧ Fits n b := by
  simp only [Fits, isTau, freeMetaVars, Bool.and_eq_true, Finset.mem_union, or_imp, forall_and]
  exact and_and_and_comm

@[simp] theorem fits_app {n : ℕ} {a b : Ty} : Fits n (Ty.app a b) ↔ Fits n a ∧ Fits n b := by
  unfold Ty.app
  split
  · split <;> simp
  · simp

@[simp] theorem fits_evalArrowApp {n : ℕ} {t : Ty} : Fits n (evalArrowApp t) ↔ Fits n t := by
  unfold evalArrowApp
  split
  · split <;> simp
  · rfl

theorem Fits.mono {n m : ℕ} {t : Ty} (h : Fits n t) (hnm : n ≤ m) : Fits m t :=
  ⟨h.1, fun x hx => Nat.lt_of_lt_of_le (h.2 x hx) hnm⟩

theorem Fits.lt {n x : ℕ} {t : Ty} (h : Fits n t) (hx : (den t).Occurs x) : x < n :=
  h.2 x (occurs_den.1 hx)

/-! ### Proper states -/

def TcState.sys (s : TcState) : Bindings Sym ℕ := s.refs.map fun p => (p.1, den p.2)

def TcState.full (s : TcState) (t : Ty) : Tm := (den t).subst (solution s.sys)

structure Proper (s : TcState) : Prop where
  triangular : Triangular s.sys
  bound_lt : ∀ p ∈ s.refs, p.1 < s.uniq
  fits : ∀ p ∈ s.refs, Fits s.uniq p.2

theorem proper_nil (n : ℕ) : Proper { refs := [], uniq := n } :=
  ⟨trivial, (fun _ hp => nomatch hp), fun _ hp => nomatch hp⟩

variable {s : TcState}

theorem lookup_eq_none {u : ℕ} : s.refs.lookup u = none ↔ ¬ Bound s.sys u := by
  simp only [List.lookup_eq_none_iff, Bound, TcState.sys, List.mem_map, bne_iff_ne, ne_eq,
    exists_exists_and_eq_and, not_exists, not_and]
  exact ⟨fun h p hp he => h p hp he.symm, fun h p hp he => h p hp he.symm⟩

theorem mem_of_lookup {refs : List (ℕ × Ty)} {u : ℕ} {t : Ty} (h : refs.lookup u = some t) :
    (u, t) ∈ refs := by
  induction refs with
  | nil => cases h
  | cons p r ih =>
    obtain ⟨v, t'⟩ := p
    rw [List.lookup_cons] at h
    by_cases hv : u == v
    · simp only [hv] at h
      cases h
      cases eq_of_beq hv
      exact List.mem_cons_self
    · simp only [hv] at h
      exact List.mem_cons_of_mem _ (ih h)

theorem Proper.bound_lt_uniq (hs : Proper s) {u : ℕ} (h : Bound s.sys u) : u < s.uniq := by
  obtain ⟨p, hp, rfl⟩ := h
  obtain ⟨q, hq, rfl⟩ := List.mem_map.1 hp
  exact hs.bound_lt q hq

@[simp] theorem full_tAp (a b : Ty) : s.full (tAp a b) = ap (s.full a) (s.full b) := rfl

@[simp] theorem full_tArrow (a b : Ty) :
    s.full (tArrow a b) = ap (ap (con (.con tc_Arrow)) (s.full a)) (s.full b) := rfl

theorem full_of_lookup (hs : Proper s) {mv : MetaVar} {t : Ty}
    (h : s.refs.lookup mv.metaUniq = some t) : s.full (tMetaVar mv) = s.full t := by
  have hmem : (mv.metaUniq, den t) ∈ s.sys := List.mem_map.2 ⟨_, mem_of_lookup h, rfl⟩
  exact solution_solves hs.triangular _ hmem

theorem full_unbound {mv : MetaVar} (h : ¬ Bound s.sys mv.metaUniq) :
    s.full (tMetaVar mv) = var mv.metaUniq :=
  solution_of_not_bound h

/-- The metavariables of a resolved type are unbound ones of the state. -/
theorem Proper.full_occurs (hs : Proper s) {t : Ty} (ht : Fits s.uniq t) {x : ℕ}
    (h : (s.full t).Occurs x) : x < s.uniq ∧ ¬ Bound s.sys x := by
  have hlt : ∀ r : List (ℕ × Ty), (∀ p ∈ r, Fits s.uniq p.2) → ∀ y < s.uniq, ∀ z,
      (solution (r.map fun p => (p.1, den p.2)) y).Occurs z → z < s.uniq := by
    intro r
    induction r with
    | nil => intro _ y hy z hz; cases hz; exact hy
    | cons p r ih =>
      intro hr y hy z hz
      obtain ⟨w, hw, hoz⟩ := occurs_subst.1 hz
      have hw := ih (fun q hq => hr q (List.mem_cons_of_mem p hq)) y hy w hw
      by_cases hwp : w = p.1
      · subst hwp
        rw [Function.update_self] at hoz
        exact (hr p List.mem_cons_self).lt hoz
      · rw [Function.update_of_ne hwp] at hoz
        cases hoz
        exact hw
  obtain ⟨y, hy, hx⟩ := occurs_subst.1 h
  exact ⟨hlt s.refs hs.fits y (ht.lt hy) x hx, fun hb => not_occurs_solution hs.triangular hb y hx⟩

/-! ### Evaluation -/

/-- What `evalType` leaves: no bound metavariable, no arrow in its other form. -/
def Evaluated (s : TcState) : Ty → Prop
  | tMetaVar mv => ¬ Bound s.sys mv.metaUniq
  | tAp (tAp (tCon c) _) _ => c ≠ tc_Arrow
  | _ => True

def Evals (s : TcState) (t t' : Ty) : Prop := Settles (fun n => evalType n t) s (.ok (t', s))

theorem findType_spec (hs : Proper s) {t : Ty} (ht : Fits s.uniq t) :
    ∃ t', Settles (fun n => findType n t) s (.ok (t', s)) ∧ Fits s.uniq t' ∧ s.full t' = s.full t ∧
      ∀ mv, t' = tMetaVar mv → ¬ Bound s.sys mv.metaUniq := by
  obtain ⟨rank, hrank⟩ := exists_rank hs.triangular
  have hmeta : ∀ (k : ℕ) (mv : MetaVar), rank mv.metaUniq = k → Fits s.uniq (tMetaVar mv) →
      ∃ t', Settles (fun n => findType n (tMetaVar mv)) s (.ok (t', s)) ∧ Fits s.uniq t' ∧
        s.full t' = s.full (tMetaVar mv) ∧ ∀ mv', t' = tMetaVar mv' → ¬ Bound s.sys mv'.metaUniq := by
    -- a chain of references goes down in rank
    intro k
    induction k using Nat.strong_induction_on with
    | _ k ih =>
      intro mv hk hfit
      cases hl : s.refs.lookup mv.metaUniq with
      | none =>
        refine ⟨tMetaVar mv, Settles.of_succ (Settles.const fun n => ?_), hfit, rfl, ?_⟩
        · simp only [findType, readRef, bind, StateT.bind, Except.bind, hl]
          rfl
        · intro mv' he
          cases he
          exact lookup_eq_none.1 hl
      | some t =>
        have hmem := mem_of_lookup hl
        have hstep : ∀ n, findType (n + 1) (tMetaVar mv) s = findType n t s := by
          intro n
          simp only [findType, readRef, bind, StateT.bind, Except.bind, hl]
        have hfull := full_of_lookup hs hl
        have hsucc : ∀ {t' : Ty}, Settles (fun n => findType n t) s (.ok (t', s)) →
            Settles (fun n => findType n (tMetaVar mv)) s (.ok (t', s)) := by
          intro t' h
          obtain ⟨N, hN⟩ := h
          exact Settles.of_succ ⟨N, fun n hn => (hstep n).trans (hN n hn)⟩
        have hconst : (∀ mv', t ≠ tMetaVar mv') → ∀ n, findType (n + 1) t s = .ok (t, s) := by
          intro hne n
          cases t with
          | tMetaVar mv' => exact absurd rfl (hne mv')
          | _ => rfl
        by_cases hm : ∃ mv', t = tMetaVar mv'
        · obtain ⟨mv', rfl⟩ := hm
          have hlt := hrank _ (List.mem_map.2 ⟨_, hmem, rfl⟩) mv'.metaUniq rfl
          obtain ⟨t', hset, hfit', hf', hub⟩ := ih _ (hk ▸ hlt) mv' rfl (hs.fits _ hmem)
          exact ⟨t', hsucc hset, hfit', hf'.trans hfull.symm, hub⟩
        · have hne : ∀ mv', t ≠ tMetaVar mv' := fun mv' he => hm ⟨mv', he⟩
          refine ⟨t, hsucc ⟨1, fun n hn => ?_⟩, hs.fits _ hmem, hfull.symm,
            fun mv' he => absurd he (hne mv')⟩
          obtain ⟨m, rfl⟩ : ∃ m, n = m + 1 := ⟨n - 1, by omega⟩
          exact hconst hne m
  cases t with
  | tMetaVar mv => exact hmeta _ mv rfl ht
  | _ =>
    exact ⟨_, Settles.of_succ (Settles.const fun _ => rfl), ht, rfl, fun mv he => nomatch he⟩

theorem evalType_spec (hs : Proper s) {t : Ty} (ht : Fits s.uniq t) :
    ∃ t', Evals s t t' ∧ Fits s.uniq t' ∧ s.full t' = s.full t ∧ Evaluated s t' := by
  obtain ⟨t', hset, hfit, hfull, hub⟩ := findType_spec hs ht
  refine ⟨evalArrowApp t', Settles.bind hset (Settles.pure _ _), fits_evalArrowApp.2 hfit, ?_, ?_⟩
  · simp only [TcState.full, den_evalArrowApp]
    exact hfull
  · unfold evalArrowApp
    split
    · split
      · trivial
      · next h => exact h
    · next hne =>
      cases t' with
      | tMetaVar mv => exact hub mv rfl
      | tAp f b =>
        unfold Evaluated
        split
        · next h => cases h
        · next h => cases h; exact (hne _ _ _ rfl).elim
        · trivial
      | _ => trivial

section
variable {leaf : ℕ → MetaVar → Tc Ty}

/-- Where the leaves stay, a type is evaluated to the type it stands for. -/
theorem evalDown_spec (hs : Proper s)
    (hleaf : ∀ n mv, mv.metaType = .tau → leaf n mv s = .ok (tMetaVar mv, s))
    {t : Ty} (ht : Fits s.uniq t) :
    ∃ t', Settles (fun n => evalDown leaf n t) s (.ok (t', s)) ∧ Fits s.uniq t' ∧ den t' = s.full t := by
  induction hk : (s.full t).size using Nat.strong_induction_on generalizing t with
  | _ k ih =>
    subst hk
    obtain ⟨t₁, heval, hfit, hfull, hev⟩ := evalType_spec hs ht
    rw [← hfull] at ih ⊢
    cases t₁ with
    | tVar v => exact ⟨_, .of_succ (.bind heval (.pure _ _)), hfit, rfl⟩
    | tCon c => exact ⟨_, .of_succ (.bind heval (.pure _ _)), hfit, rfl⟩
    | tMetaVar mv =>
      have hm := fun n => hleaf n mv (fits_tMetaVar.1 hfit).1
      exact ⟨_, .of_succ (.bind heval (.const hm)), hfit, (full_unbound hev).symm⟩
    | tAp l r =>
      obtain ⟨hl, hr⟩ := fits_tAp.1 hfit
      obtain ⟨l', hsl, hfl, hdl⟩ := ih (s.full l).size (by simp only [full_tAp, size]; omega) hl rfl
      obtain ⟨r', hsr, hfr, hdr⟩ := ih (s.full r).size (by simp only [full_tAp, size]; omega) hr rfl
      refine ⟨Ty.app l' r', .of_succ (.bind heval (.bind hsl (.bind hsr (.pure _ _)))), ?_, ?_⟩
      · exact fits_app.2 ⟨hfl, hfr⟩
      · rw [den_app, hdl, hdr, full_tAp]
    | tArrow l r =>
      obtain ⟨hl, hr⟩ := fits_tArrow.1 hfit
      obtain ⟨l', hsl, hfl, hdl⟩ := ih (s.full l).size (by simp only [full_tArrow, size]; omega) hl rfl
      obtain ⟨r', hsr, hfr, hdr⟩ := ih (s.full r).size (by simp only [full_tArrow, size]; omega) hr rfl
      refine ⟨tArrow l' r', .of_succ (.bind heval (.bind hsl (.bind hsr (.pure _ _)))), ?_, ?_⟩
      · exact fits_tArrow.2 ⟨hfl, hfr⟩
      · simp only [den, hdl, hdr, full_tArrow]

end

theorem evalFullType_spec (hs : Proper s) {t : Ty} (ht : Fits s.uniq t) :
    ∃ t', Settles (fun n => evalFullType n t) s (.ok (t', s)) ∧ Fits s.uniq t' ∧ den t' = s.full t :=
  evalDown_spec hs (fun _ _ _ => rfl) ht

theorem unBox_spec (hs : Proper s) {t : Ty} (ht : Fits s.uniq t) :
    ∃ t', Settles (fun n => unBox n t) s (.ok (t', s)) ∧ Fits s.uniq t' ∧ den t' = s.full t := by
  refine evalDown_spec hs (fun n mv hmv => ?_) ht
  have hbox : isBoxyMetaVar mv = false := by simp [isBoxyMetaVar, hmv]
  simp only [fillBox, hbox]
  rfl

end Jhc.FrontEnd.Tc

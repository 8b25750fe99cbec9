import Jhc.FrontEnd.Tc.Resolve
import Jhc.FrontEnd.Tc.Monad
import Mathlib.Data.Finset.Range
import Mathlib.Data.Finset.Card

/-!
# Binding a metavariable

What `varBind` and `occursCheck` do on monotypes, and what a step of the matching says
about the solutions of a state.
-/

namespace Jhc.FrontEnd.Tc
open Ty
open Jhc.Lib (Settles FOTerm)
open Jhc.Lib.FOTerm

variable {s s' : TcState}

theorem evals_unbound {mv : MetaVar} (h : ¬ Bound s.sys mv.metaUniq) :
    Evals s (tMetaVar mv) (tMetaVar mv) := by
  have hl := lookup_eq_none.2 h
  have hfind : Settles (fun n => findType n (tMetaVar mv)) s (.ok (tMetaVar mv, s)) := by
    refine .of_succ (.const fun n => ?_)
    simp only [findType, readRef, bind, StateT.bind, Except.bind, hl]
    rfl
  exact .bind hfind (.pure _ _)

/-- The state with one binding more. -/
def TcState.extend (s : TcState) (u : ℕ) (t : Ty) : TcState := { s with refs := (u, t) :: s.refs }

@[simp] theorem sys_extend (u : ℕ) (t : Ty) : (s.extend u t).sys = (u, den t) :: s.sys := rfl

@[simp] theorem uniq_extend (u : ℕ) (t : Ty) : (s.extend u t).uniq = s.uniq := rfl

section
variable {u : ℕ} {t tt : Ty}

theorem Proper.extend (hs : Proper s) (hu : u < s.uniq) (hub : ¬ Bound s.sys u) (ht : Fits s.uniq t)
    (hfit : Fits s.uniq tt) (hden : den tt = s.full t) (hocc : ¬ (s.full t).Occurs u) :
    Proper (s.extend u tt) := by
  refine ⟨⟨⟨hub, ?_, fun x hx => ?_⟩, hs.triangular⟩, fun p hp => ?_, fun p hp => ?_⟩
  · rw [← hden] at hocc
    exact hocc
  · have hden' : (den tt).Occurs x → (s.full t).Occurs x := by rw [hden]; exact id
    exact fun h => (hs.full_occurs ht (hden' h)).2 hx
  · rcases List.mem_cons.1 hp with rfl | hp
    · exact hu
    · exact hs.bound_lt p hp
  · rcases List.mem_cons.1 hp with rfl | hp
    · exact hfit
    · exact hs.fits p hp

/-- A solution of the state takes a type and what it stands for to the same term. -/
theorem subst_full {θ : ℕ → Tm} (h : Solves θ s.sys) (t : Ty) :
    (s.full t).subst θ = (den t).subst θ :=
  subst_solution_term h (den t)

theorem solves_extend {θ : ℕ → Tm} (hden : den tt = s.full t) :
    Solves θ (s.extend u tt).sys ↔ Solves θ s.sys ∧ θ u = (den t).subst θ := by
  rw [sys_extend, solves_cons]
  refine ⟨fun h => ⟨h.2, ?_⟩, fun h => ⟨?_, h.1⟩⟩
  · rw [h.1, hden, subst_full h.2]
  · rw [hden, subst_full h.1]
    exact h.2

end

section
variable {mv : MetaVar} {t : Ty}

theorem bindFull_spec (hs : Proper s) (hmv : ¬ Bound s.sys mv.metaUniq) (hu : Fits s.uniq (tMetaVar mv))
    (ht : Fits s.uniq t) :
    ((s.full t).Occurs mv.metaUniq → ∃ e, Settles (fun n => bindFull n mv t) s (.error e)) ∧
    (¬ (s.full t).Occurs mv.metaUniq → ∃ tt, Fits s.uniq tt ∧ den tt = s.full t ∧
      Settles (fun n => bindFull n mv t) s (.ok ((), s.extend mv.metaUniq tt))) := by
  obtain ⟨tt, hset, hfit, hden⟩ := evalFullType_spec hs ht
  refine ⟨fun hocc => ?_, fun hocc => ?_⟩
  · rw [← hden, occurs_den] at hocc
    obtain ⟨t₁, hset₁, _⟩ := evalFullType_spec hs hu
    obtain ⟨t₂, hset₂, _⟩ := evalFullType_spec hs hfit
    refine ⟨.occursCheck t₁ t₂, .bind hset ?_⟩
    simp only [if_pos hocc]
    exact .bind hset₁ (.bind hset₂ (.throw _ _))
  · have hden' := hden
    rw [← hden, occurs_den] at hocc
    refine ⟨tt, hfit, hden', .bind hset ?_⟩
    simp only [if_neg hocc]
    refine .const fun n => ?_
    simp only [readRef, bind, StateT.bind, Except.bind, lookup_eq_none.2 hmv]
    rfl

theorem varBind_spec (hs : Proper s) (hmv : ¬ Bound s.sys mv.metaUniq) (hu : Fits s.uniq (tMetaVar mv))
    (ht : Fits s.uniq t) :
    ((s.full t).Occurs mv.metaUniq → ∃ e, Settles (fun n => varBind n mv t) s (.error e)) ∧
    (¬ (s.full t).Occurs mv.metaUniq → ∃ tt, Fits s.uniq tt ∧ den tt = s.full t ∧
      Settles (fun n => varBind n mv t) s (.ok ((), s.extend mv.metaUniq tt))) := by
  obtain ⟨t', hset, hfit, hden⟩ := unBox_spec hs ht
  have hfull : s.full t' = s.full t := by
    have hfix : (s.full t).subst (solution s.sys) = s.full t :=
      subst_fixed fun x hx => solution_of_not_bound (hs.full_occurs ht hx).2
    simp only [TcState.full, hden] at hfix ⊢
    exact hfix
  obtain ⟨hbad, hgood⟩ := bindFull_spec hs hmv hu hfit
  rw [hfull] at hbad hgood
  refine ⟨fun hocc => ?_, fun hocc => ?_⟩
  · obtain ⟨e, he⟩ := hbad hocc
    exact ⟨e, .bind hset he⟩
  · obtain ⟨tt, hfit', hden', hset'⟩ := hgood hocc
    exact ⟨tt, hfit', hden', .bind hset hset'⟩

theorem unificationError_spec {α : Type} (hs : Proper s) {t₁ t₂ : Ty} (h₁ : Fits s.uniq t₁)
    (h₂ : Fits s.uniq t₂) : ∃ e, Settles (fun n => unificationError (α := α) n t₁ t₂) s (.error e) := by
  obtain ⟨t₁', hset₁, _⟩ := evalFullType_spec hs h₁
  obtain ⟨t₂', hset₂, _⟩ := evalFullType_spec hs h₂
  exact ⟨_, .bind hset₁ (.bind hset₂ (.throw _ _))⟩

theorem occursCheck_spec (hs : Proper s) (hu : Fits s.uniq (tMetaVar mv)) (ht : Fits s.uniq t) :
    ((s.full t).Occurs mv.metaUniq → ∃ e, Settles (fun n => occursCheck n mv t) s (.error e)) ∧
    (¬ (s.full t).Occurs mv.metaUniq → ∃ tt, Settles (fun n => occursCheck n mv t) s (.ok (tt, s))) := by
  have htau := (fits_tMetaVar.1 hu).1
  obtain ⟨tt, hset, hfit, hden⟩ := evalFullType_spec hs ht
  rw [← hden, occurs_den]
  simp only [occursCheck, if_pos htau]
  refine ⟨fun hocc => ?_, fun hocc => ⟨tt, .bind hset ?_⟩⟩
  · obtain ⟨e, he⟩ := unificationError_spec (α := PUnit) hs hu hfit
    refine ⟨e, .bind hset ?_⟩
    simp only [if_pos hocc]
    exact .bind_error he
  · simp only [if_neg hocc]
    exact .pure _ _

end

/-! ### Steps -/

/-- How many metavariables are not bound yet. -/
def TcState.free (s : TcState) : ℕ :=
  ((Finset.range s.uniq).filter fun x => (s.refs.lookup x).isNone).card

theorem mem_free {x : ℕ} :
    x ∈ ((Finset.range s.uniq).filter fun x => (s.refs.lookup x).isNone) ↔
      x < s.uniq ∧ ¬ Bound s.sys x := by
  rw [Finset.mem_filter, Finset.mem_range, Option.isNone_iff_eq_none, lookup_eq_none]

theorem free_lt {u : ℕ} (hu : u < s.uniq) (hub : ¬ Bound s.sys u)
    (h : ∀ x < s'.uniq, ¬ Bound s'.sys x → x ≠ u ∧ x < s.uniq ∧ ¬ Bound s.sys x) : s'.free < s.free := by
  refine Finset.card_lt_card (Finset.ssubset_iff_subset_ne.2 ⟨fun x hx => ?_, fun heq => ?_⟩)
  · obtain ⟨hlt, hb⟩ := mem_free.1 hx
    exact mem_free.2 (h x hlt hb).2
  · have hmem := mem_free.2 ⟨hu, hub⟩
    rw [← heq] at hmem
    obtain ⟨hlt, hb⟩ := mem_free.1 hmem
    exact (h u hlt hb).1 rfl

/-- From `s` to `s'` exactly the solutions are kept that satisfy `E`. -/
structure Step (s s' : TcState) (E : (ℕ → Tm) → Prop) : Prop where
  proper : Proper s'
  uniq_le : s.uniq ≤ s'.uniq
  progress : s' = s ∨ s'.free < s.free
  sound : ∀ θ, Solves θ s'.sys → Solves θ s.sys ∧ E θ
  complete : ∀ θ, Solves θ s.sys → E θ → ∃ θ', Solves θ' s'.sys ∧ ∀ x < s.uniq, θ' x = θ x

theorem Step.refl (hs : Proper s) {E : (ℕ → Tm) → Prop} (hE : ∀ θ, Solves θ s.sys → E θ) : Step s s E where
  proper := hs
  uniq_le := Nat.le_refl _
  progress := .inl rfl
  sound θ h := ⟨h, hE θ h⟩
  complete θ h _ := ⟨θ, h, fun _ _ => rfl⟩

/-- The equations of the second step speak of metavariables of the first state only. -/
theorem Step.trans {s₁ : TcState} {E F : (ℕ → Tm) → Prop} (h : Step s s₁ E) (h' : Step s₁ s' F)
    (hF : ∀ θ θ', (∀ x < s.uniq, θ' x = θ x) → F θ → F θ') : Step s s' fun θ => E θ ∧ F θ where
  proper := h'.proper
  uniq_le := Nat.le_trans h.uniq_le h'.uniq_le
  progress := by
    rcases h'.progress with rfl | hlt
    · exact h.progress
    · rcases h.progress with rfl | hlt'
      · exact .inr hlt
      · exact .inr (Nat.lt_trans hlt hlt')
  sound θ hθ := by
    obtain ⟨h₁, hf⟩ := h'.sound θ hθ
    obtain ⟨h₀, he⟩ := h.sound θ h₁
    exact ⟨h₀, he, hf⟩
  complete θ hθ hE := by
    obtain ⟨θ₁, h₁, heq₁⟩ := h.complete θ hθ hE.1
    obtain ⟨θ₂, h₂, heq₂⟩ := h'.complete θ₁ h₁ (hF θ θ₁ heq₁ hE.2)
    refine ⟨θ₂, h₂, fun x hx => ?_⟩
    rw [heq₂ x (Nat.lt_of_lt_of_le hx h.uniq_le), heq₁ x hx]

theorem Step.congr {E F : (ℕ → Tm) → Prop} (h : Step s s' E)
    (hEF : ∀ θ, Solves θ s.sys → (E θ ↔ F θ)) : Step s s' F where
  proper := h.proper
  uniq_le := h.uniq_le
  progress := h.progress
  sound θ hθ := ⟨(h.sound θ hθ).1, (hEF θ (h.sound θ hθ).1).1 (h.sound θ hθ).2⟩
  complete θ hθ hE := h.complete θ hθ ((hEF θ hθ).2 hE)

/-- The substitution makes the two types equal. -/
def Unifies (θ : ℕ → Tm) (t₁ t₂ : Ty) : Prop := (den t₁).subst θ = (den t₂).subst θ

theorem Unifies.symm {θ : ℕ → Tm} {t₁ t₂ : Ty} (h : Unifies θ t₁ t₂) : Unifies θ t₂ t₁ := Eq.symm h

theorem subst_eq_of_fits {n : ℕ} {t : Ty} (ht : Fits n t) {θ θ' : ℕ → Tm} (h : ∀ x < n, θ' x = θ x) :
    (den t).subst θ' = (den t).subst θ :=
  subst_congr fun x hx => h x (ht.lt hx)

theorem unifies_of_agree {n : ℕ} {t₁ t₂ : Ty} (h₁ : Fits n t₁) (h₂ : Fits n t₂) {θ θ' : ℕ → Tm}
    (h : ∀ x < n, θ' x = θ x) (hu : Unifies θ t₁ t₂) : Unifies θ' t₁ t₂ := by
  rw [Unifies, subst_eq_of_fits h₁ h, subst_eq_of_fits h₂ h]
  exact hu

theorem step_extend (hs : Proper s) {mv : MetaVar} {t tt : Ty} (hu : Fits s.uniq (tMetaVar mv))
    (hub : ¬ Bound s.sys mv.metaUniq) (ht : Fits s.uniq t) (hfit : Fits s.uniq tt)
    (hden : den tt = s.full t) (hocc : ¬ (s.full t).Occurs mv.metaUniq) :
    Step s (s.extend mv.metaUniq tt) fun θ => Unifies θ (tMetaVar mv) t where
  proper := hs.extend (fits_tMetaVar.1 hu).2 hub ht hfit hden hocc
  uniq_le := Nat.le_refl _
  progress := by
    refine .inr (free_lt (fits_tMetaVar.1 hu).2 hub fun x hx hb => ?_)
    rw [sys_extend, bound_cons, not_or] at hb
    exact ⟨Ne.symm hb.1, hx, hb.2⟩
  sound θ h := (solves_extend hden).1 h
  complete θ h hE := ⟨θ, (solves_extend hden).2 ⟨h, hE⟩, fun _ _ => rfl⟩

end Jhc.FrontEnd.Tc

import Mathlib

/-!
# Terms without names

A variable bound by an enclosing binder stands as its distance from that binder, a free one as
its name. Two terms that have the same skeleton differ in the names of their binders only.
-/

namespace Jhc.Nameless

variable {α β : Type} [DecidableEq α]

inductive Ref (α : Type) where
  | bound (i : ℕ)
  | free (x : α)

/-- What a name stands for under the enclosing binders, the innermost first. -/
def ref : List α → α → Ref α
  | [], x => .free x
  | y :: Γ, x =>
    if x = y then .bound 0
    else match ref Γ x with
      | .bound i => .bound (i + 1)
      | .free z => .free z

/-- A reference seen from under one more binder. -/
def Ref.lift : Ref α → Ref α
  | .bound i => .bound (i + 1)
  | .free x => .free x

theorem Ref.lift_injective {r s : Ref α} (h : r.lift = s.lift) : r = s := by
  cases r with
  | bound i =>
    cases s with
    | bound j =>
      injection h with hij
      rw [Nat.succ.inj hij]
    | free x => cases h
  | free x =>
    cases s with
    | bound j => cases h
    | free y => exact h

theorem Ref.lift_ne_zero (r : Ref α) : r.lift ≠ .bound 0 := by
  intro h
  cases r with
  | bound i =>
    injection h with hi
    exact Nat.succ_ne_zero i hi
  | free x => cases h

theorem ref_self (x : α) (Γ : List α) : ref (x :: Γ) x = .bound 0 := if_pos rfl

theorem ref_of_ne {x y : α} (h : y ≠ x) (Γ : List α) : ref (x :: Γ) y = (ref Γ y).lift := by
  rw [ref,if_neg h]
  cases ref Γ y with
  | bound i => rfl
  | free z => rfl

theorem ref_of_notMem {Γ : List α} {x : α} (h : x ∉ Γ) : ref Γ x = .free x := by
  induction Γ with
  | nil => rfl
  | cons y Γ ih =>
    rw [ref_of_ne (List.ne_of_not_mem_cons h),ih (List.not_mem_of_not_mem_cons h)]
    rfl

/-- A name that is found is found at a binder. -/
theorem ref_eq_free {Γ : List α} {x z : α} (h : ref Γ x = .free z) : x ∉ Γ ∧ z = x := by
  by_cases hx : x ∈ Γ
  · exfalso
    induction Γ with
    | nil => cases hx
    | cons y Γ ih =>
      by_cases hxy : x = y
      · rw [hxy,ref_self] at h
        cases h
      · rw [ref_of_ne hxy] at h
        refine ih ?_ ((List.mem_cons.mp hx).resolve_left hxy)
        cases hr : ref Γ x with
        | bound i =>
          rw [hr] at h
          cases h
        | free w =>
          rw [hr] at h
          exact h
  · rw [ref_of_notMem hx] at h
    injection h with hz
    exact ⟨hx, hz.symm⟩

/-- A term: its variables, and the constructors with what they carry. -/
inductive Skeleton (α β : Type) where
  | var (r : Ref α)
  | node (label : β) (children : List (Skeleton α β))

/-! ### Names that agree under a renaming -/

/-- `y` stands under `Γ` for what its new name stands for under `Γ'`. -/
def Agrees (Γ Γ' : List α) (σ : α → α) (y : α) : Prop := ref Γ' (σ y) = ref Γ y

/-- Under one more binder, with a renaming that does not know it. -/
theorem agrees_push {Γ Γ' : List α} {σ : α → α} {x x' y : α} (h : y ≠ x → σ y ≠ x') :
    Agrees (x :: Γ) (x' :: Γ') σ y ↔ if y = x then σ y = x' else Agrees Γ Γ' σ y := by
  unfold Agrees
  by_cases hy : y = x
  · subst hy
    rw [if_pos rfl,ref_self]
    constructor
    · intro hr
      by_contra hne
      rw [ref_of_ne hne] at hr
      exact Ref.lift_ne_zero _ hr
    · intro hr
      rw [hr,ref_self]
  · rw [if_neg hy,ref_of_ne hy,ref_of_ne (h hy)]
    exact ⟨Ref.lift_injective, fun hr => congrArg Ref.lift hr⟩

/-- Under one more binder, with its renaming. -/
theorem agrees_update {Γ Γ' : List α} {σ : α → α} {x x' y : α} (h : y ≠ x → σ y ≠ x') :
    Agrees (x :: Γ) (x' :: Γ') (Function.update σ x x') y ↔ (y ≠ x → Agrees Γ Γ' σ y) := by
  unfold Agrees
  by_cases hy : y = x
  · subst hy
    rw [Function.update_self,ref_self,ref_self]
    exact ⟨fun _ hn => absurd rfl hn, fun _ => rfl⟩
  · rw [Function.update_of_ne hy,ref_of_ne hy,ref_of_ne (h hy)]
    exact ⟨fun hr _ => Ref.lift_injective hr, fun hr => congrArg Ref.lift (hr hy)⟩

/-- The renaming of a group of binders; of two equal ones the first counts. -/
def updates (σ : α → α) : List (α × α) → α → α
  | [] => σ
  | p :: ps => Function.update (updates σ ps) p.1 p.2

attribute [local grind =] updates

theorem updates_of_notMem {σ : α → α} {ps : List (α × α)} {y : α} (h : y ∉ ps.map Prod.fst) :
    updates σ ps y = σ y := by
  induction ps with
  | nil => rfl
  | cons p ps ih =>
    rw [List.map_cons] at h
    rw [updates,Function.update_of_ne (List.ne_of_not_mem_cons h)]
    exact ih (List.not_mem_of_not_mem_cons h)

theorem updates_cases (σ : α → α) (ps : List (α × α)) (y : α) :
    updates σ ps y = σ y ∧ y ∉ ps.map Prod.fst ∨ ∃ p ∈ ps, y = p.1 ∧ updates σ ps y = p.2 := by
  induction ps with
  | nil => exact Or.inl ⟨rfl, List.not_mem_nil⟩
  | cons p ps ih =>
    by_cases hy : y = p.1
    · right
      refine ⟨p, List.mem_cons_self .., hy, ?_⟩
      rw [hy,updates,Function.update_self]
    · rw [updates,Function.update_of_ne hy]
      rcases ih with ⟨he, hn⟩ | ⟨q, hq, hyq, he⟩
      · left
        refine ⟨he, ?_⟩
        rw [List.map_cons,List.mem_cons,not_or]
        exact ⟨hy, hn⟩
      · exact Or.inr ⟨q, List.mem_cons_of_mem p hq, hyq, he⟩

/-- New names of a group that do not meet: two different old names get different new ones. -/
def Apart (ps : List (α × α)) : Prop := ps.Pairwise fun p q => p.1 ≠ q.1 → p.2 ≠ q.2

/-- Under a group of binders, with their renaming. -/
theorem agrees_updates {Γ Γ' : List α} {σ : α → α} {y : α} {ps : List (α × α)} (hps : Apart ps)
    (h : y ∉ ps.map Prod.fst → ∀ p ∈ ps, σ y ≠ p.2) :
    Agrees (ps.map Prod.fst ++ Γ) (ps.map Prod.snd ++ Γ') (updates σ ps) y ↔
      (y ∉ ps.map Prod.fst → Agrees Γ Γ' σ y) := by
  induction ps with
  | nil => simp [updates]
  | cons p ps ih =>
    have hps' := List.pairwise_cons.mp hps
    rw [List.map_cons] at h
    rw [updates,List.map_cons,List.map_cons,List.cons_append,List.cons_append]
    by_cases hy : y = p.1
    · rw [agrees_update fun hne => absurd hy hne]
      exact ⟨fun _ hn => absurd (hy ▸ List.mem_cons_self ..) hn, fun _ hne => absurd hy hne⟩
    · have hrest : y ∉ ps.map Prod.fst → ∀ q ∈ p :: ps, σ y ≠ q.2 :=
        fun hn => h (List.not_mem_cons_of_ne_of_not_mem hy hn)
      have hfresh : y ≠ p.1 → updates σ ps y ≠ p.2 := by
        intro _
        rcases updates_cases σ ps y with ⟨he, hn⟩ | ⟨q, hq, hyq, he⟩
        · rw [he]
          exact hrest hn p (List.mem_cons_self ..)
        · rw [he]
          exact (hps'.1 q hq (hyq ▸ Ne.symm hy)).symm
      have hih := ih hps'.2 fun hn q hq => hrest hn q (List.mem_cons_of_mem p hq)
      rw [agrees_update hfresh,hih,List.mem_cons,not_or]
      exact ⟨fun hs hn => hs hn.1 hn.2, fun hs h₁ h₂ => hs ⟨h₁, h₂⟩⟩

end Jhc.Nameless

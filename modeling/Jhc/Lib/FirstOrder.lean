import Mathlib.Tactic.Common
import Mathlib.Data.List.Induction

/-!
# First-order terms, substitutions and triangular systems

Terms are built from constants and variables by application. A triangular system lists
bindings, newest first; a binding mentions no variable bound before it. Such a system has
a solution through which every other solution factors.
-/

namespace Jhc.Lib
universe u v

inductive FOTerm (κ : Type u) (ν : Type v) where
  | con (k : κ)
  | var (x : ν)
  | ap (f a : FOTerm κ ν)

namespace FOTerm

variable {κ : Type u} {ν : Type v}

def subst (θ : ν → FOTerm κ ν) : FOTerm κ ν → FOTerm κ ν
  | con k => con k
  | var x => θ x
  | ap f a => ap (f.subst θ) (a.subst θ)

def Occurs (x : ν) : FOTerm κ ν → Prop
  | con _ => False
  | var y => x = y
  | ap f a => f.Occurs x ∨ a.Occurs x

def size : FOTerm κ ν → ℕ
  | con _ => 1
  | var _ => 1
  | ap f a => f.size + a.size + 1

attribute [local grind =] subst Occurs size

theorem size_pos (t : FOTerm κ ν) : 0 < t.size := by
  cases t with
  | con k => exact Nat.one_pos
  | var x => exact Nat.one_pos
  | ap f a => simp only [size]; omega

theorem subst_congr {θ θ' : ν → FOTerm κ ν} {t : FOTerm κ ν}
    (h : ∀ x, t.Occurs x → θ x = θ' x) : t.subst θ = t.subst θ' := by
  induction t with
  | con k => rfl
  | var x => exact h x rfl
  | ap f a ihf iha =>
    have hf := ihf fun x hx => h x (.inl hx)
    have ha := iha fun x hx => h x (.inr hx)
    simp only [subst, hf, ha]

theorem subst_var (t : FOTerm κ ν) : t.subst var = t := by
  induction t with
  | con k => rfl
  | var x => rfl
  | ap f a ihf iha => simp only [subst, ihf, iha]

theorem subst_subst (θ θ' : ν → FOTerm κ ν) (t : FOTerm κ ν) :
    (t.subst θ).subst θ' = t.subst fun x => (θ x).subst θ' := by
  induction t with
  | con k => rfl
  | var x => rfl
  | ap f a ihf iha => simp only [subst, ihf, iha]

theorem subst_fixed {θ : ν → FOTerm κ ν} {t : FOTerm κ ν} (h : ∀ x, t.Occurs x → θ x = var x) :
    t.subst θ = t := by
  have hcongr := subst_congr h
  rw [hcongr, subst_var]

theorem occurs_subst {θ : ν → FOTerm κ ν} {t : FOTerm κ ν} {x : ν} :
    (t.subst θ).Occurs x ↔ ∃ y, t.Occurs y ∧ (θ y).Occurs x := by
  induction t with
  | con k => simp [subst, Occurs]
  | var y => simp [subst, Occurs]
  | ap f a ihf iha =>
    simp only [subst, Occurs, ihf, iha, or_and_right, exists_or]

theorem size_le_of_occurs {θ : ν → FOTerm κ ν} {t : FOTerm κ ν} {x : ν} (h : t.Occurs x) :
    (θ x).size ≤ (t.subst θ).size := by
  induction t with
  | con k => exact h.elim
  | var y => cases h; exact Nat.le_refl _
  | ap f a ihf iha =>
    simp only [subst, size]
    rcases h with h | h
    · have hf := ihf h
      omega
    · have ha := iha h
      omega

/-- The occurs check: a variable in a proper subterm position has no solution. -/
theorem ne_of_occurs {θ : ν → FOTerm κ ν} {t : FOTerm κ ν} {x : ν} (h : t.Occurs x)
    (hne : t ≠ var x) : θ x ≠ t.subst θ := by
  intro heq
  have hsize := congrArg size heq
  cases t with
  | con k => exact h
  | var y => cases h; exact hne rfl
  | ap f a =>
    simp only [subst, size] at hsize
    rcases h with h | h
    · have hf := size_le_of_occurs (θ := θ) h
      omega
    · have ha := size_le_of_occurs (θ := θ) h
      omega

/-! ### Spines -/

def apps (f : FOTerm κ ν) (as : List (FOTerm κ ν)) : FOTerm κ ν := as.foldl ap f

theorem subst_apps (θ : ν → FOTerm κ ν) (f : FOTerm κ ν) (as : List (FOTerm κ ν)) :
    (apps f as).subst θ = apps (f.subst θ) (as.map (subst θ)) := by
  induction as generalizing f with
  | nil => rfl
  | cons a as ih => exact ih (ap f a)

theorem apps_concat (f a : FOTerm κ ν) (as : List (FOTerm κ ν)) :
    apps f (as ++ [a]) = ap (apps f as) a := by
  simp only [apps, List.foldl_append, List.foldl_cons, List.foldl_nil]

theorem occurs_apps {f : FOTerm κ ν} {as : List (FOTerm κ ν)} {x : ν} :
    (apps f as).Occurs x ↔ f.Occurs x ∨ ∃ a ∈ as, a.Occurs x := by
  induction as generalizing f with
  | nil => simp [apps]
  | cons a as ih =>
    have h : apps f (a :: as) = apps (ap f a) as := rfl
    simp only [h, ih, Occurs, List.mem_cons, exists_eq_or_imp, or_assoc]

theorem size_le_apps (f : FOTerm κ ν) (as : List (FOTerm κ ν)) : f.size ≤ (apps f as).size := by
  induction as generalizing f with
  | nil => exact Nat.le_refl _
  | cons a as ih =>
    have ha := ih (ap f a)
    simp only [size] at ha
    show f.size ≤ (apps (ap f a) as).size
    omega

theorem size_lt_apps {f a : FOTerm κ ν} {as : List (FOTerm κ ν)} (h : a ∈ as) :
    a.size < (apps f as).size := by
  induction as generalizing f with
  | nil => cases h
  | cons b bs ih =>
    rcases List.mem_cons.1 h with rfl | h
    · have hb := size_le_apps (ap f a) bs
      simp only [size] at hb
      show a.size < (apps (ap f a) bs).size
      omega
    · exact ih h

/-- The constant at the head of a spine and its arguments are determined by the term. -/
theorem apps_con_inj {c d : κ} {as bs : List (FOTerm κ ν)}
    (h : apps (con c) as = apps (con d) bs) : c = d ∧ as = bs := by
  induction as using List.reverseRecOn generalizing bs with
  | nil =>
    cases bs using List.reverseRecOn with
    | nil => cases h; exact ⟨rfl, rfl⟩
    | append_singleton bs b => rw [apps_concat] at h; cases h
  | append_singleton as a ih =>
    cases bs using List.reverseRecOn with
    | nil => rw [apps_concat] at h; cases h
    | append_singleton bs b =>
      rw [apps_concat, apps_concat] at h
      injection h with hf ha
      obtain ⟨hc, has⟩ := ih hf
      exact ⟨hc, by rw [has, ha]⟩

theorem apps_inj {f g : FOTerm κ ν} {as bs : List (FOTerm κ ν)} (hlen : as.length = bs.length)
    (h : apps f as = apps g bs) : f = g ∧ as = bs := by
  induction as generalizing f g bs with
  | nil =>
    cases bs with
    | nil => exact ⟨h, rfl⟩
    | cons b bs => cases hlen
  | cons a as ih =>
    cases bs with
    | nil => cases hlen
    | cons b bs =>
      obtain ⟨hap, has⟩ := ih (Nat.succ.inj hlen) h
      injection hap with hf ha
      exact ⟨hf, by rw [ha, has]⟩

/-- The application of the first of a list to the others. -/
def spine (d : FOTerm κ ν) : List (FOTerm κ ν) → FOTerm κ ν
  | [] => d
  | t :: ts => apps t ts

/-- A structure with `k` places for terms. -/
structure Frame (k : ℕ) (ctx : List (FOTerm κ ν) → FOTerm κ ν) : Prop where
  subst_ctx : ∀ θ l, l.length = k → (ctx l).subst θ = ctx (l.map (subst θ))
  occurs_ctx : ∀ l x, l.length = k → ((ctx l).Occurs x ↔ ∃ t ∈ l, t.Occurs x)
  size_lt : ∀ l, l.length = k → ∀ t ∈ l, t.size < (ctx l).size
  inj : ∀ l l', l.length = k → l'.length = k → ctx l = ctx l' → l = l'

theorem frame_con (c : κ) (k : ℕ) : Frame k (apps (con c : FOTerm κ ν)) where
  subst_ctx θ l _ := subst_apps θ _ l
  occurs_ctx l x _ := by simp only [occurs_apps, Occurs, false_or]
  size_lt l _ t ht := size_lt_apps ht
  inj l l' h h' heq := (apps_inj (h.trans h'.symm) heq).2

theorem frame_spine (d : FOTerm κ ν) (k : ℕ) : Frame (k + 2) (spine d) where
  subst_ctx θ l h := by
    cases l with
    | nil => cases h
    | cons t l => exact subst_apps θ t l
  occurs_ctx l x h := by
    cases l with
    | nil => cases h
    | cons t l => simp only [spine, occurs_apps, List.mem_cons, exists_eq_or_imp]
  size_lt l h t ht := by
    obtain _ | ⟨a, _ | ⟨b, l⟩⟩ := l
    · cases h
    · simp at h
    · have happ : spine d (a :: b :: l) = apps (ap a b) l := rfl
      rcases List.mem_cons.1 ht with rfl | ht
      · have hle := size_le_apps (ap t b) l
        rw [happ]
        simp only [size] at hle
        omega
      · exact size_lt_apps ht
  inj l l' h h' heq := by
    cases l with
    | nil => cases h
    | cons t l =>
      cases l' with
      | nil => cases h'
      | cons t' l' =>
        have hlen : l.length = l'.length := Nat.succ.inj (h.trans h'.symm)
        obtain ⟨ht, hl⟩ := apps_inj hlen heq
        rw [ht, hl]

/-! ### Triangular systems -/

abbrev Bindings (κ : Type u) (ν : Type v) := List (ν × FOTerm κ ν)

def Solves (θ : ν → FOTerm κ ν) (r : Bindings κ ν) : Prop :=
  ∀ p ∈ r, θ p.1 = p.2.subst θ

def Bound (r : Bindings κ ν) (x : ν) : Prop := ∃ p ∈ r, p.1 = x

def Triangular : Bindings κ ν → Prop
  | [] => True
  | p :: r => (¬ Bound r p.1 ∧ ¬ p.2.Occurs p.1 ∧ ∀ x, Bound r x → ¬ p.2.Occurs x) ∧ Triangular r

@[simp] theorem solves_nil (θ : ν → FOTerm κ ν) : Solves θ [] := by
  intro p hp
  cases hp

@[simp] theorem solves_cons {θ : ν → FOTerm κ ν} {p : ν × FOTerm κ ν} {r : Bindings κ ν} :
    Solves θ (p :: r) ↔ θ p.1 = p.2.subst θ ∧ Solves θ r := by
  simp only [Solves, List.mem_cons, forall_eq_or_imp]

@[simp] theorem bound_cons {p : ν × FOTerm κ ν} {r : Bindings κ ν} {x : ν} :
    Bound (p :: r) x ↔ p.1 = x ∨ Bound r x := by
  simp only [Bound, List.mem_cons, exists_eq_or_imp]

@[simp] theorem not_bound_nil (x : ν) : ¬ Bound ([] : Bindings κ ν) x := by
  intro h
  obtain ⟨p, hp, _⟩ := h
  cases hp

variable [DecidableEq ν]

/-- A triangular system is acyclic. -/
theorem exists_rank {r : Bindings κ ν} (ht : Triangular r) :
    ∃ rank : ν → ℕ, ∀ p ∈ r, ∀ x, p.2.Occurs x → rank x < rank p.1 := by
  classical
  induction r with
  | nil => exact ⟨fun _ => 0, fun p hp => by cases hp⟩
  | cons p r ih =>
    obtain ⟨⟨hnew, hself, hold⟩, ht⟩ := ht
    obtain ⟨rank, hrank⟩ := ih ht
    -- an unbound variable is at 0, the new one at 1, the older ones above
    refine ⟨fun x => if x = p.1 then 1 else if Bound r x then rank x + 2 else 0, fun q hq x hx => ?_⟩
    rcases List.mem_cons.1 hq with rfl | hq
    · have hxq : x ≠ q.1 := fun h => hself (h ▸ hx)
      have hxr : ¬ Bound r x := fun h => hold x h hx
      simp only [if_neg hxq, if_neg hxr, if_true]
      omega
    · have hbound : Bound r q.1 := ⟨q, hq, rfl⟩
      have hqp : q.1 ≠ p.1 := fun h => hnew (h ▸ hbound)
      have hlt := hrank q hq x hx
      simp only [if_neg hqp, if_pos hbound]
      split
      · omega
      · split <;> omega

/-- The substitution of a system: the bindings one after the other, the oldest first. -/
def solution : Bindings κ ν → ν → FOTerm κ ν
  | [], x => var x
  | p :: r, x => (solution r x).subst (Function.update var p.1 p.2)

attribute [local grind =] solution

theorem solution_of_not_bound {r : Bindings κ ν} {x : ν} (h : ¬ Bound r x) :
    solution r x = var x := by
  induction r with
  | nil => rfl
  | cons p r ih =>
    rw [bound_cons, not_or] at h
    simp only [solution, ih h.2, subst]
    exact Function.update_of_ne (Ne.symm h.1) _ _

theorem not_occurs_solution {r : Bindings κ ν} (ht : Triangular r) {x : ν} (hx : Bound r x) (y : ν) :
    ¬ (solution r y).Occurs x := by
  induction r with
  | nil => exact (not_bound_nil x hx).elim
  | cons p r ih =>
    obtain ⟨⟨hnew, hself, hold⟩, ht⟩ := ht
    intro hocc
    obtain ⟨z, hz, hoz⟩ := occurs_subst.1 hocc
    by_cases hzp : z = p.1
    · subst hzp
      rw [Function.update_self] at hoz
      rcases bound_cons.1 hx with rfl | hx
      · exact hself hoz
      · exact hold x hx hoz
    · rw [Function.update_of_ne hzp] at hoz
      cases hoz
      rcases bound_cons.1 hx with rfl | hx
      · exact hzp rfl
      · exact ih ht hx hz

theorem solution_solves {r : Bindings κ ν} (ht : Triangular r) : Solves (solution r) r := by
  induction r with
  | nil => exact solves_nil _
  | cons p r ih =>
    obtain ⟨⟨hnew, hself, hold⟩, ht⟩ := ht
    have hfix : p.2.subst (solution (p :: r)) = p.2 := by
      refine subst_fixed fun y hy => solution_of_not_bound fun hb => ?_
      rcases bound_cons.1 hb with rfl | hb
      · exact hself hy
      · exact hold y hb hy
    refine solves_cons.2 ⟨?_, fun q hq => ?_⟩
    · rw [hfix]
      simp only [solution, solution_of_not_bound hnew, subst, Function.update_self]
    · simp only [solution]
      rw [ih ht q hq, subst_subst]

/-- Every solution factors through the system's own. -/
theorem subst_solution {θ : ν → FOTerm κ ν} {r : Bindings κ ν} (h : Solves θ r) (x : ν) :
    (solution r x).subst θ = θ x := by
  induction r with
  | nil => rfl
  | cons p r ih =>
    obtain ⟨hp, hr⟩ := solves_cons.1 h
    simp only [solution, subst_subst]
    rw [← ih hr]
    refine subst_congr fun y _ => ?_
    by_cases hy : y = p.1
    · subst hy
      rw [Function.update_self, hp]
    · rw [Function.update_of_ne hy]
      rfl

theorem subst_solution_term {θ : ν → FOTerm κ ν} {r : Bindings κ ν} (h : Solves θ r)
    (t : FOTerm κ ν) : (t.subst (solution r)).subst θ = t.subst θ := by
  rw [subst_subst]
  exact subst_congr fun x _ => subst_solution h x

/-- Bindings of variables that are not in the resolved term leave it as it is. -/
theorem solution_append {r new : Bindings κ ν} {t : FOTerm κ ν}
    (h : ∀ x, Bound new x → ¬ (t.subst (solution r)).Occurs x) :
    t.subst (solution (new ++ r)) = t.subst (solution r) := by
  induction new with
  | nil => rfl
  | cons p new ih =>
    have ih := ih fun x hx => h x (bound_cons.2 (.inr hx))
    have hp := h p.1 (bound_cons.2 (.inl rfl))
    have hstep : t.subst (solution (p :: (new ++ r)))
        = (t.subst (solution (new ++ r))).subst (Function.update var p.1 p.2) := by
      rw [subst_subst]
      rfl
    rw [List.cons_append, hstep, ih]
    refine subst_fixed fun y hy => Function.update_of_ne (fun hyp => ?_) _ _
    subst hyp
    exact hp hy

end FOTerm

end Jhc.Lib

import Mathlib.Data.Set.Finite.Lattice
import Mathlib.Data.Set.Finite.List

/-!
# Values as sets of finite information

A value of a lazy language is the set of the finite facts that hold of it: that it is a
function, that as a function it answers `b` whenever its argument has the facts `β`, that
it is built by `c`, that the `i`-th component of what `c` built has the fact `b`. The
value without a fact is the one of a computation that does not end.
-/

namespace Jhc.Lib

inductive Fact (κ : Type) where
  | fn
  | arrow (β : List (Fact κ)) (b : Fact κ)
  | con (c : κ)
  | field (c : κ) (i : ℕ) (b : Fact κ)

abbrev Value (κ : Type) := Set (Fact κ)

variable {κ ι : Type} {c d : κ} {v w f a : Value κ} {vs ws : List (Value κ)} {i : ℕ} {b : Fact κ}

/-- What a fact says about the form of its value: a function, or built by a constructor. -/
def Fact.head? : Fact κ → Option (Option κ)
  | .fn => some none
  | .con c => some (some c)
  | _ => none

namespace Value

def ofList (β : List (Fact κ)) : Value κ := {t | t ∈ β}

def apply (f a : Value κ) : Value κ := {b | ∃ β, .arrow β b ∈ f ∧ ofList β ⊆ a}

def construct (c : κ) (vs : List (Value κ)) : Value κ :=
  {t | t = .con c ∨ ∃ i v b, vs[i]? = some v ∧ b ∈ v ∧ t = .field c i b}

/-- The value has been evaluated to a head normal form. -/
def Defined (v : Value κ) : Prop := ∃ t ∈ v, t.head?.isSome

/-! ### Constructed values -/

@[simp] theorem con_mem_construct : .con d ∈ construct c vs ↔ d = c := by
  simp [construct]

@[simp] theorem fn_notMem_construct : .fn ∉ construct c vs := by
  simp [construct]

@[simp] theorem arrow_notMem_construct {β : List (Fact κ)} : .arrow β b ∉ construct c vs := by
  simp [construct]

@[simp] theorem field_mem_construct : .field d i b ∈ construct c vs ↔ d = c ∧ ∃ v, vs[i]? = some v ∧ b ∈ v := by
  simp only [construct, Set.mem_ofPred_eq, reduceCtorEq, false_or, Fact.field.injEq]
  constructor
  · rintro ⟨j, v, t, hv, ht, rfl, rfl, rfl⟩
    exact ⟨rfl, v, hv, ht⟩
  · rintro ⟨rfl, v, hv, hb⟩
    exact ⟨i, v, b, hv, hb, rfl, rfl, rfl⟩

theorem construct_ne_empty : construct c vs ≠ ∅ := by
  intro h
  have hcon : .con c ∈ construct c vs := con_mem_construct.2 rfl
  rw [h] at hcon
  exact hcon

theorem head_of_construct {t : Fact κ} {k : Option κ} (ht : t ∈ construct c vs) (hk : t.head? = some k) :
    k = some c := by
  cases t with
  | fn => exact absurd ht fn_notMem_construct
  | con d =>
    cases hk
    rw [con_mem_construct.1 ht]
  | _ => cases hk

theorem defined_construct : (construct c vs).Defined := ⟨.con c, con_mem_construct.2 rfl, rfl⟩

theorem not_defined_empty : ¬ (∅ : Value κ).Defined := by
  rintro ⟨t, ht, -⟩
  exact ht

/-- A constructed value determines its components. -/
theorem construct_inj (hlen : vs.length = ws.length) (h : construct c vs = construct d ws) : c = d ∧ vs = ws := by
  have hc : c = d := by
    have hcon : .con c ∈ construct d ws := h ▸ con_mem_construct.2 rfl
    exact con_mem_construct.1 hcon
  subst hc
  refine ⟨rfl, List.ext_getElem hlen fun i hi hi' => ?_⟩
  ext b
  have hfield : .field c i b ∈ construct c vs ↔ .field c i b ∈ construct c ws := by rw [h]
  simpa [hi, hi'] using hfield

/-! ### Application -/

theorem apply_mono (hf : f ⊆ v) (ha : a ⊆ w) : apply f a ⊆ apply v w := by
  rintro b ⟨β, hβ, hsub⟩
  exact ⟨β, hf hβ, hsub.trans ha⟩

@[simp] theorem apply_empty : apply (∅ : Value κ) a = ∅ := by
  ext b
  simp [apply]

@[simp] theorem apply_construct : apply (construct c vs) a = ∅ := by
  ext b
  simp [apply]

def applies (f : Value κ) (as : List (Value κ)) : Value κ := as.foldl apply f

@[simp] theorem applies_nil : applies f [] = f := rfl

@[simp] theorem applies_cons {as : List (Value κ)} : applies f (a :: as) = applies (apply f a) as := rfl

end Value

/-! ### Finite approximations of an assignment of values -/

/-- `σ` gives each variable finitely many facts, all among those of `ρ`. -/
structure Approximates (σ ρ : ι → Value κ) : Prop where
  finite (x : ι) : (σ x).Finite
  le : σ ≤ ρ

theorem Approximates.bot (ρ : ι → Value κ) : Approximates (fun _ => ∅) ρ :=
  ⟨fun _ => Set.finite_empty, fun x => Set.empty_subset (ρ x)⟩

theorem Approximates.sup {σ τ ρ : ι → Value κ} (h : Approximates σ ρ) (h' : Approximates τ ρ) :
    Approximates (fun x => σ x ∪ τ x) ρ :=
  ⟨fun x => (h.finite x).union (h'.finite x), fun x => Set.union_subset (h.le x) (h'.le x)⟩

/-- What finitely many approximations show, one of them shows alone. -/
theorem Approximates.forall_mem {α : Type} {ρ : ι → Value κ} {l : List α} {p : (ι → Value κ) → α → Prop}
    (hmono : ∀ a σ τ, σ ≤ τ → p σ a → p τ a) (h : ∀ a ∈ l, ∃ σ, Approximates σ ρ ∧ p σ a) :
    ∃ σ, Approximates σ ρ ∧ ∀ a ∈ l, p σ a := by
  induction l with
  | nil => exact ⟨_, .bot ρ, fun a ha => absurd ha List.not_mem_nil⟩
  | cons a l ih =>
    obtain ⟨σ, hσ, hall⟩ := ih fun b hb => h b (List.mem_cons_of_mem a hb)
    obtain ⟨τ, hτ, ha⟩ := h a List.mem_cons_self
    refine ⟨_, hτ.sup hσ, fun b hb => ?_⟩
    rcases List.mem_cons.1 hb with rfl | hb
    · exact hmono b τ _ (fun x => Set.subset_union_left) ha
    · exact hmono b σ _ (fun x => Set.subset_union_right) (hall b hb)

theorem Approximates.option {α : Type} {ρ : ι → Value κ} {o : Option α} {p : (ι → Value κ) → α → Prop}
    (h : ∀ a, o = some a → ∃ σ, Approximates σ ρ ∧ p σ a) : ∃ σ, Approximates σ ρ ∧ ∀ a, o = some a → p σ a := by
  cases o with
  | none => exact ⟨_, .bot ρ, fun a ha => by cases ha⟩
  | some a =>
    obtain ⟨σ, hσ, hp⟩ := h a rfl
    exact ⟨σ, hσ, fun b hb => by cases hb; exact hp⟩

/-- A finite value as a list of its facts. -/
theorem Value.exists_ofList (h : v.Finite) : ∃ β, ofList β = v := by
  obtain ⟨s, rfl⟩ := h.exists_finset_coe
  refine ⟨s.toList, ?_⟩
  ext t
  simp [ofList]

end Jhc.Lib

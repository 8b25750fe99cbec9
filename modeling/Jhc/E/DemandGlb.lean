import Mathlib.Data.List.OfFn
import Jhc.E.DemandLub

/-!
# glb of the demands in normal form
-/

namespace Jhc.E.Demand
open SubDemand (product)

/-! ### The clauses of glb -/

theorem glbs_clauses (x y : Demand) (xs ys : List Demand) :
    (glbsLazyLeft [] = [] ∧ glbsLazyLeft (x :: xs) = glb lazy x :: glbsLazyLeft xs) ∧
      (glbsLazyRight [] = [] ∧ glbsLazyRight (x :: xs) = glb x lazy :: glbsLazyRight xs) ∧
      (glbs [] ys = [] ∧ glbs xs [] = [] ∧ glbs (x :: xs) (y :: ys) = glb x y :: glbs xs ys) ∧
      (glbSub .none .none = .none ∧ glbSub .none (product ys) = product (glbsLazyLeft ys)) ∧
      glbSub (product xs) .none = product (glbsLazyRight xs) ∧
      glbSub (product xs) (product ys) = product (glbs xs ys) := by
  refine ⟨⟨?_, ?_⟩, ⟨?_, ?_⟩, ⟨?_, ?_, ?_⟩, ⟨?_, ?_⟩, ?_, ?_⟩
  · rw [glbsLazyLeft]
  · rw [glbsLazyLeft]
    rfl
  · rw [glbsLazyRight]
  · rw [glbsLazyRight]
    rfl
  · rw [glbs]
    simp
  · rw [glbs]
    simp
  · rw [glbs]
  · rw [glbSub]
  · rw [glbSub]
  · rw [glbSub]
  · rw [glbSub]

theorem glbsLazyLeft_eq (xs : List Demand) :
    glbsLazyLeft xs = List.zipWith glb (List.replicate xs.length lazy) xs := by
  induction xs with
  | nil => exact (glbs_clauses absent absent [] []).1.1
  | cons x xs ih => exact (glbs_clauses x absent xs []).1.2.trans (congrArg (glb lazy x :: ·) ih)

theorem glbsLazyRight_eq (xs : List Demand) :
    glbsLazyRight xs = List.zipWith glb xs (List.replicate xs.length lazy) := by
  induction xs with
  | nil => exact (glbs_clauses absent absent [] []).2.1.1
  | cons x xs ih => exact (glbs_clauses x absent xs []).2.1.2.trans (congrArg (glb x lazy :: ·) ih)

theorem glbs_eq (xs ys : List Demand) : glbs xs ys = List.zipWith glb xs ys := by
  induction xs generalizing ys with
  | nil => exact (glbs_clauses absent absent [] ys).2.2.1.1
  | cons x xs ih =>
    cases ys with
    | nil => exact (glbs_clauses absent absent (x :: xs) []).2.2.1.2.1
    | cons y ys => exact (glbs_clauses x y xs ys).2.2.1.2.2.trans (congrArg (glb x y :: ·) (ih ys))

theorem glbSub_eq (x y : SubDemand) : glbSub x y = comb glb x y := by
  have hsub := fun xs ys => (glbs_clauses absent absent xs ys).2.2.2
  cases x with
  | none =>
    cases y with
    | none => exact (hsub [] []).1.1
    | product ys => exact (hsub [] ys).1.2.trans (congrArg product (glbsLazyLeft_eq ys))
  | product xs =>
    cases y with
    | none => exact (hsub xs []).2.1.trans (congrArg product (glbsLazyRight_eq xs))
    | product ys => exact (hsub xs ys).2.2.trans (congrArg product (glbs_eq xs ys))

theorem glb_clauses (x y : SubDemand) :
    (glb (S x) (S y) = S (norm (comb glb x y)) ∧ glb (S x) (L y) = S (norm (comb glb x y)) ∧
        glb (L x) (S y) = S (norm (comb glb x y)) ∧
        glb (L x) (L y) = L (norm (lpSub (comb glb x y)))) ∧
      (∀ d, glb absent d = d ∧ glb d absent = d) ∧
      (glb bottom bottom = bottom ∧ glb bottom (S x) = err ∧ glb (S x) bottom = err ∧
        glb bottom (L x) = err ∧ glb (L x) bottom = err ∧ glb bottom err = err ∧
        glb err bottom = err) ∧
      glb err err = err ∧ glb err (S x) = err ∧ glb (S x) err = err ∧ glb err (L x) = err ∧
        glb (L x) err = err := by
  refine ⟨⟨?_, ?_, ?_, ?_⟩, ?_, ⟨?_, ?_, ?_, ?_, ?_, ?_, ?_⟩, ?_, ?_, ?_, ?_, ?_⟩
  · rw [glb,glbSub_eq,s_eq]
  · rw [glb,glbSub_eq,s_eq]
  · rw [glb,glbSub_eq,s_eq]
  · rw [glb,glbSub_eq,l_eq]
  · intro d
    cases d <;> simp [glb]
  · rw [glb]
  · simp [glb]
  · simp [glb]
  · simp [glb]
  · simp [glb]
  · simp [glb,err]
  · simp [glb,err]
  · unfold err
    rw [glb,glbSub_eq]
    rfl
  · simp [glb,err]
  · simp [glb,err]
  · simp [glb,err]
  · simp [glb,err]

theorem absent_glb (d : Demand) : glb absent d = d := ((glb_clauses .none .none).2.1 d).1

theorem glb_absent (d : Demand) : glb d absent = d := ((glb_clauses .none .none).2.1 d).2

theorem glb_S_S (x y : SubDemand) : glb (S x) (S y) = S (norm (comb glb x y)) := (glb_clauses x y).1.1

theorem glb_S_L (x y : SubDemand) : glb (S x) (L y) = S (norm (comb glb x y)) := (glb_clauses x y).1.2.1

theorem glb_L_S (x y : SubDemand) : glb (L x) (S y) = S (norm (comb glb x y)) := (glb_clauses x y).1.2.2.1

theorem glb_L_L (x y : SubDemand) : glb (L x) (L y) = L (norm (lpSub (comb glb x y))) :=
  (glb_clauses x y).1.2.2.2

theorem glb_bottom_bottom : glb bottom bottom = bottom := (glb_clauses .none .none).2.2.1.1

theorem glb_bottom_S (x : SubDemand) : glb bottom (S x) = err := (glb_clauses x .none).2.2.1.2.1

theorem glb_S_bottom (x : SubDemand) : glb (S x) bottom = err := (glb_clauses x .none).2.2.1.2.2.1

theorem glb_bottom_L (x : SubDemand) : glb bottom (L x) = err := (glb_clauses x .none).2.2.1.2.2.2.1

theorem glb_L_bottom (x : SubDemand) : glb (L x) bottom = err := (glb_clauses x .none).2.2.1.2.2.2.2.1

theorem glb_bottom_err : glb bottom err = err := (glb_clauses .none .none).2.2.1.2.2.2.2.2.1

theorem glb_err_bottom : glb err bottom = err := (glb_clauses .none .none).2.2.1.2.2.2.2.2.2

theorem glb_err_err : glb err err = err := (glb_clauses .none .none).2.2.2.1

theorem glb_err_S (x : SubDemand) : glb err (S x) = err := (glb_clauses x .none).2.2.2.2.1

theorem glb_S_err (x : SubDemand) : glb (S x) err = err := (glb_clauses x .none).2.2.2.2.2.1

theorem glb_err_L (x : SubDemand) : glb err (L x) = err := (glb_clauses x .none).2.2.2.2.2.2.1

theorem glb_L_err (x : SubDemand) : glb (L x) err = err := (glb_clauses x .none).2.2.2.2.2.2.2

theorem glb_lazy_lazy : glb lazy lazy = lazy := glb_L_L .none .none

theorem glb_comm {n : ℕ} {a b : Demand} (ha : NF n a) (hb : NF n b) : glb a b = glb b a := by
  induction n generalizing a b with
  | zero =>
    rcases nf_zero_cases ha with rfl | rfl | rfl | rfl | rfl
    · rw [absent_glb,glb_absent]
    · rcases nf_zero_cases hb with rfl | rfl | rfl | rfl | rfl
      · rw [absent_glb,glb_absent]
      · rfl
      · rw [glb_bottom_err,glb_err_bottom]
      · exact (glb_bottom_S .none).trans (glb_S_bottom .none).symm
      · exact (glb_bottom_L .none).trans (glb_L_bottom .none).symm
    · rcases nf_zero_cases hb with rfl | rfl | rfl | rfl | rfl
      · rw [absent_glb,glb_absent]
      · rw [glb_bottom_err,glb_err_bottom]
      · rfl
      · exact (glb_err_S .none).trans (glb_S_err .none).symm
      · exact (glb_err_L .none).trans (glb_L_err .none).symm
    · rcases nf_zero_cases hb with rfl | rfl | rfl | rfl | rfl
      · rw [absent_glb,glb_absent]
      · exact (glb_S_bottom .none).trans (glb_bottom_S .none).symm
      · exact (glb_S_err .none).trans (glb_err_S .none).symm
      · rfl
      · exact (glb_S_L .none .none).trans (glb_L_S .none .none).symm
    · rcases nf_zero_cases hb with rfl | rfl | rfl | rfl | rfl
      · rw [absent_glb,glb_absent]
      · exact (glb_L_bottom .none).trans (glb_bottom_L .none).symm
      · exact (glb_L_err .none).trans (glb_err_L .none).symm
      · exact (glb_L_S .none .none).trans (glb_S_L .none .none).symm
      · rfl
  | succ n ih =>
    have hcomb : ∀ {x y}, Comps (NF n) x → Comps (NF n) y → comb glb x y = comb glb y x :=
      fun hx hy => comb_comm hx hy (nf_lazy n) fun a b => ih
    rcases nf_cases ha with rfl | rfl | rfl | ⟨x, rfl, hx, hcx⟩ | ⟨x, rfl, hx, hcx, hlx⟩
    · rw [absent_glb,glb_absent]
    · rcases nf_cases hb with rfl | rfl | rfl | ⟨y, rfl, hy, hcy⟩ | ⟨y, rfl, hy, hcy, hly⟩
      · rw [absent_glb,glb_absent]
      · rfl
      · rw [glb_bottom_err,glb_err_bottom]
      · rw [glb_bottom_S,glb_S_bottom]
      · rw [glb_bottom_L,glb_L_bottom]
    · rcases nf_cases hb with rfl | rfl | rfl | ⟨y, rfl, hy, hcy⟩ | ⟨y, rfl, hy, hcy, hly⟩
      · rw [absent_glb,glb_absent]
      · rw [glb_bottom_err,glb_err_bottom]
      · rfl
      · rw [glb_err_S,glb_S_err]
      · rw [glb_err_L,glb_L_err]
    · rcases nf_cases hb with rfl | rfl | rfl | ⟨y, rfl, hy, hcy⟩ | ⟨y, rfl, hy, hcy, hly⟩
      · rw [absent_glb,glb_absent]
      · rw [glb_bottom_S,glb_S_bottom]
      · rw [glb_err_S,glb_S_err]
      · rw [glb_S_S,glb_S_S,hcomb hcx hcy]
      · rw [glb_S_L,glb_L_S,hcomb hcx hcy]
    · rcases nf_cases hb with rfl | rfl | rfl | ⟨y, rfl, hy, hcy⟩ | ⟨y, rfl, hy, hcy, hly⟩
      · rw [absent_glb,glb_absent]
      · rw [glb_bottom_L,glb_L_bottom]
      · rw [glb_err_L,glb_L_err]
      · rw [glb_S_L,glb_L_S,hcomb hcx hcy]
      · rw [glb_L_L,glb_L_L,hcomb hcx hcy]

theorem glb_self {n : ℕ} {d : Demand} (h : NF n d) : glb d d = d := by
  induction n generalizing d with
  | zero =>
    rcases nf_zero_cases h with rfl | rfl | rfl | rfl | rfl
    · exact absent_glb absent
    · exact glb_bottom_bottom
    · exact glb_err_err
    · exact glb_S_S .none .none
    · exact glb_lazy_lazy
  | succ n ih =>
    have hcomb : ∀ {x}, Comps (NF n) x → comb glb x x = x := by
      intro x hx
      cases x with
      | none => rfl
      | product xs =>
        refine congrArg product ?_
        induction xs with
        | nil => rfl
        | cons a xs ihx =>
          rw [List.zipWith_cons_cons,ih (hx a List.mem_cons_self),
            ihx fun b hb => hx b (List.mem_cons_of_mem a hb)]
    rcases nf_cases h with rfl | rfl | rfl | ⟨x, rfl, hx, hcx⟩ | ⟨x, rfl, hx, hcx, hlx⟩
    · exact absent_glb absent
    · exact glb_bottom_bottom
    · exact glb_err_err
    · rw [glb_S_S,hcomb hcx,hx]
    · rw [glb_L_L,hcomb hcx,hlx,hx]

theorem nf_glb {n : ℕ} {a b : Demand} (ha : NF n a) (hb : NF n b) : NF n (glb a b) := by
  induction n generalizing a b with
  | zero =>
    rcases nf_zero_cases ha with rfl | rfl | rfl | rfl | rfl
    · rw [absent_glb]
      exact hb
    · rcases nf_zero_cases hb with rfl | rfl | rfl | rfl | rfl
      · rw [glb_absent]
        exact ha
      · exact glb_bottom_bottom.symm ▸ nf_bottom 0
      · exact glb_bottom_err.symm ▸ nf_err 0
      · exact (glb_bottom_S .none).symm ▸ nf_err 0
      · exact (glb_bottom_L .none).symm ▸ nf_err 0
    · rcases nf_zero_cases hb with rfl | rfl | rfl | rfl | rfl
      · rw [glb_absent]
        exact ha
      · exact glb_err_bottom.symm ▸ nf_err 0
      · exact glb_err_err.symm ▸ nf_err 0
      · exact (glb_err_S .none).symm ▸ nf_err 0
      · exact (glb_err_L .none).symm ▸ nf_err 0
    · rcases nf_zero_cases hb with rfl | rfl | rfl | rfl | rfl
      · rw [glb_absent]
        exact ha
      · exact (glb_S_bottom .none).symm ▸ nf_err 0
      · exact (glb_S_err .none).symm ▸ nf_err 0
      · exact (glb_S_S .none .none).symm ▸ nf_strict 0
      · exact (glb_S_L .none .none).symm ▸ nf_strict 0
    · rcases nf_zero_cases hb with rfl | rfl | rfl | rfl | rfl
      · rw [glb_absent]
        exact ha
      · exact (glb_L_bottom .none).symm ▸ nf_err 0
      · exact (glb_L_err .none).symm ▸ nf_err 0
      · exact (glb_L_S .none .none).symm ▸ nf_strict 0
      · exact glb_lazy_lazy.symm ▸ nf_lazy 0
  | succ n ih =>
    have hcomb : ∀ {x y}, Comps (NF n) x → Comps (NF n) y → Comps (NF n) (comb glb x y) :=
      fun hx hy => hx.comb hy (nf_lazy n) (nf_lazy n) fun a b => ih
    rcases nf_cases ha with rfl | rfl | rfl | ⟨x, rfl, hx, hcx⟩ | ⟨x, rfl, hx, hcx, hlx⟩
    · rw [absent_glb]
      exact hb
    · rcases nf_cases hb with rfl | rfl | rfl | ⟨y, rfl, hy, hcy⟩ | ⟨y, rfl, hy, hcy, hly⟩
      · rw [glb_absent]
        exact ha
      · exact glb_bottom_bottom.symm ▸ nf_bottom _
      · exact glb_bottom_err.symm ▸ nf_err _
      · exact (glb_bottom_S y).symm ▸ nf_err _
      · exact (glb_bottom_L y).symm ▸ nf_err _
    · rcases nf_cases hb with rfl | rfl | rfl | ⟨y, rfl, hy, hcy⟩ | ⟨y, rfl, hy, hcy, hly⟩
      · rw [glb_absent]
        exact ha
      · exact glb_err_bottom.symm ▸ nf_err _
      · exact glb_err_err.symm ▸ nf_err _
      · exact (glb_err_S y).symm ▸ nf_err _
      · exact (glb_err_L y).symm ▸ nf_err _
    · rcases nf_cases hb with rfl | rfl | rfl | ⟨y, rfl, hy, hcy⟩ | ⟨y, rfl, hy, hcy, hly⟩
      · rw [glb_absent]
        exact ha
      · exact (glb_S_bottom x).symm ▸ nf_err _
      · exact (glb_S_err x).symm ▸ nf_err _
      · exact (glb_S_S x y).symm ▸ nf_S (hcomb hcx hcy)
      · exact (glb_S_L x y).symm ▸ nf_S (hcomb hcx hcy)
    · rcases nf_cases hb with rfl | rfl | rfl | ⟨y, rfl, hy, hcy⟩ | ⟨y, rfl, hy, hcy, hly⟩
      · rw [glb_absent]
        exact ha
      · exact (glb_L_bottom x).symm ▸ nf_err _
      · exact (glb_L_err x).symm ▸ nf_err _
      · exact (glb_L_S x y).symm ▸ nf_S (hcomb hcx hcy)
      · exact (glb_L_L x y).symm ▸ nf_L (hcomb hcx hcy)

/-! ### Products of one length -/

section length

variable {k : ℕ} {x y : SubDemand} {f : Demand → Demand → Demand}

/-- The products that fit a product type with `k` components. -/
def Len (k : ℕ) : SubDemand → Prop
  | .none => True
  | product xs => xs.length = k

def get (x : SubDemand) (i : ℕ) : Demand :=
  match x with
  | .none => lazy
  | product xs => xs.getD i lazy

def toSub (k : ℕ) (g : ℕ → Demand) : SubDemand := norm (product ((List.range k).map g))

theorem toSub_congr {g h : ℕ → Demand} (hgh : ∀ i < k, g i = h i) : toSub k g = toSub k h := by
  unfold toSub
  rw [List.map_congr_left fun i hi => hgh i (List.mem_range.mp hi)]

theorem get_toSub {g : ℕ → Demand} {i : ℕ} (hi : i < k) : get (toSub k g) i = g i := by
  unfold toSub
  by_cases h : Comps (· = lazy) (product ((List.range k).map g))
  · rw [norm_lazy h]
    exact (h _ (List.mem_map_of_mem (List.mem_range.mpr hi))).symm
  · rw [norm_not_lazy h]
    simp [get,hi]

theorem toSub_inj {g h : ℕ → Demand} : toSub k g = toSub k h ↔ ∀ i < k, g i = h i := by
  constructor
  · intro he i hi
    calc g i = get (toSub k g) i := (get_toSub hi).symm
      _ = get (toSub k h) i := by rw [he]
      _ = h i := get_toSub hi
  · exact toSub_congr

theorem norm_eq_toSub (hx : Len k x) : norm x = toSub k (get x) := by
  cases x with
  | none =>
    refine (norm_lazy ?_).symm
    intro d hd
    obtain ⟨i, _, rfl⟩ := List.mem_map.mp hd
    rfl
  | product xs =>
    unfold toSub
    congr 2
    refine List.ext_getElem (by simpa [Len] using hx) ?_
    intro i h₁ h₂
    simp [get,h₁]

theorem len_comb (hx : Len k x) (hy : Len k y) : Len k (comb f x y) := by
  cases x with
  | none =>
    cases y with
    | none => trivial
    | product ys => simpa [comb,Len] using hy
  | product xs =>
    cases y with
    | none => simpa [comb,Len] using hx
    | product ys =>
      have hxs : xs.length = k := hx
      have hys : ys.length = k := hy
      simp [comb,Len,hxs,hys]

theorem len_lpSub (hx : Len k x) : Len k (lpSub x) := by
  cases x with
  | none => trivial
  | product xs => simpa [lpSub,Len] using hx

theorem get_comb (hf : f lazy lazy = lazy) (hx : Len k x) (hy : Len k y) {i : ℕ} (hi : i < k) :
    get (comb f x y) i = f (get x i) (get y i) := by
  cases x with
  | none =>
    cases y with
    | none => exact hf.symm
    | product ys =>
      have hys : ys.length = k := hy
      rw [comb_none_left]
      simp [get,hys,hi]
  | product xs =>
    have hxs : xs.length = k := hx
    cases y with
    | none =>
      rw [comb_none_right]
      simp [get,hxs,hi]
    | product ys =>
      have hys : ys.length = k := hy
      simp [comb,get,hxs,hys,hi]

theorem get_lpSub (hx : Len k x) {i : ℕ} (hi : i < k) : get (lpSub x) i = lpArg (get x i) := by
  cases x with
  | none => exact (lpArg_L .none).symm
  | product xs =>
    have hxs : xs.length = k := hx
    simp [lpSub,get,hxs,hi]

theorem norm_comb (hf : f lazy lazy = lazy) (hx : Len k x) (hy : Len k y) :
    norm (comb f x y) = toSub k fun i => f (get x i) (get y i) := by
  rw [norm_eq_toSub (len_comb hx hy)]
  exact toSub_congr fun i hi => get_comb hf hx hy hi

theorem norm_lpSub_comb (hf : f lazy lazy = lazy) (hx : Len k x) (hy : Len k y) :
    norm (lpSub (comb f x y)) = toSub k fun i => lpArg (f (get x i) (get y i)) := by
  rw [norm_eq_toSub (len_lpSub (len_comb hx hy))]
  refine toSub_congr ?_
  intro i hi
  rw [get_lpSub (len_comb hx hy) hi,get_comb hf hx hy hi]

theorem len_toSub (g : ℕ → Demand) : Len k (toSub k g) := by
  unfold toSub
  by_cases h : Comps (· = lazy) (product ((List.range k).map g))
  · rw [norm_lazy h]
    trivial
  · rw [norm_not_lazy h]
    simp [Len]

theorem norm_toSub (g : ℕ → Demand) : norm (toSub k g) = toSub k g := norm_norm _

variable {g h : ℕ → Demand}

theorem comb_toSub (hf : f lazy lazy = lazy) :
    norm (comb f (toSub k g) (toSub k h)) = toSub k fun i => f (g i) (h i) := by
  rw [norm_comb hf (len_toSub g) (len_toSub h)]
  refine toSub_congr ?_
  intro i hi
  rw [get_toSub hi,get_toSub hi]

theorem lpSub_comb_toSub (hf : f lazy lazy = lazy) :
    norm (lpSub (comb f (toSub k g) (toSub k h))) = toSub k fun i => lpArg (f (g i) (h i)) := by
  rw [norm_lpSub_comb hf (len_toSub g) (len_toSub h)]
  refine toSub_congr ?_
  intro i hi
  rw [get_toSub hi,get_toSub hi]

end length

/-! ### Demands on values of one type -/

/-- In normal form of a depth of at most `n`, on the values of a type whose product types have `ar p`
components at the path `p`. -/
def Typed : ℕ → (List ℕ → ℕ) → Demand → Prop
  | _, _, absent => True
  | _, _, bottom => True
  | _, _, error x => x = .none
  | 0, _, S x => x = .none
  | 0, _, L x => x = .none
  | n + 1, ar, S x => ∃ g, x = toSub (ar []) g ∧ ∀ i < ar [], Typed n (fun p => ar (i :: p)) (g i)
  | n + 1, ar, L x => ∃ g, x = toSub (ar []) g ∧
      ∀ i < ar [], Typed n (fun p => ar (i :: p)) (g i) ∧ lpArg (g i) = g i

theorem typed_cases {n : ℕ} {ar : List ℕ → ℕ} {d : Demand} (h : Typed (n + 1) ar d) :
    d = absent ∨ d = bottom ∨ d = err ∨
      (∃ g, d = S (toSub (ar []) g) ∧ ∀ i < ar [], Typed n (fun p => ar (i :: p)) (g i)) ∨
      ∃ g, d = L (toSub (ar []) g) ∧
        ∀ i < ar [], Typed n (fun p => ar (i :: p)) (g i) ∧ lpArg (g i) = g i := by
  cases d with
  | absent => exact Or.inl rfl
  | bottom => exact Or.inr (Or.inl rfl)
  | error x =>
    have hx : x = .none := h
    rw [hx]
    exact Or.inr (Or.inr (Or.inl rfl))
  | S x =>
    obtain ⟨g, rfl, hg⟩ := h
    exact Or.inr (Or.inr (Or.inr (Or.inl ⟨g, rfl, hg⟩)))
  | L x =>
    obtain ⟨g, rfl, hg⟩ := h
    exact Or.inr (Or.inr (Or.inr (Or.inr ⟨g, rfl, hg⟩)))

theorem typed_zero {ar : List ℕ → ℕ} {d : Demand} (h : Typed 0 ar d) : NF 0 d := by
  cases d <;> exact h

theorem typed_nf {n : ℕ} {ar : List ℕ → ℕ} {d : Demand} (h : Typed n ar d) : NF n d := by
  induction n generalizing ar d with
  | zero => exact typed_zero h
  | succ n ih =>
    have hcomps : ∀ {k : ℕ} {g : ℕ → Demand} {P : Demand → Prop}, (∀ i < k, P (g i)) →
        Comps P (toSub k g) := by
      intro k g P hg
      refine Comps.norm ?_
      intro d hd
      obtain ⟨i, hi, rfl⟩ := List.mem_map.mp hd
      exact hg i (List.mem_range.mp hi)
    rcases typed_cases h with rfl | rfl | rfl | ⟨g, rfl, hg⟩ | ⟨g, rfl, hg⟩
    · exact nf_absent _
    · exact nf_bottom _
    · exact nf_err _
    · exact ⟨norm_toSub g, hcomps fun i hi => ih (hg i hi)⟩
    · exact ⟨norm_toSub g, hcomps fun i hi => ih (hg i hi).1, hcomps fun i hi => (hg i hi).2⟩

theorem lpArg_glb {a b : Demand} (ha : lpArg a = a) (hb : lpArg b = b) :
    lpArg (glb a b) = glb a b := by
  rcases lpArg_shape a with h | ⟨x, h⟩
  · rw [← ha,h,absent_glb]
    exact hb
  · rcases lpArg_shape b with h' | ⟨y, h'⟩
    · rw [← hb,h',glb_absent]
      exact ha
    · rw [← ha,← hb,h,h',glb_L_L,lpArg_L]

section glb

variable {k : ℕ} {g h : ℕ → Demand}

theorem glb_SS : glb (S (toSub k g)) (S (toSub k h)) = S (toSub k fun i => glb (g i) (h i)) := by
  rw [glb_S_S,comb_toSub glb_lazy_lazy]

theorem glb_SL : glb (S (toSub k g)) (L (toSub k h)) = S (toSub k fun i => glb (g i) (h i)) := by
  rw [glb_S_L,comb_toSub glb_lazy_lazy]

theorem glb_LS : glb (L (toSub k g)) (S (toSub k h)) = S (toSub k fun i => glb (g i) (h i)) := by
  rw [glb_L_S,comb_toSub glb_lazy_lazy]

theorem glb_LL (hg : ∀ i < k, lpArg (g i) = g i) (hh : ∀ i < k, lpArg (h i) = h i) :
    glb (L (toSub k g)) (L (toSub k h)) = L (toSub k fun i => glb (g i) (h i)) := by
  rw [glb_L_L,lpSub_comb_toSub glb_lazy_lazy]
  exact congrArg L (toSub_congr fun i hi => lpArg_glb (hg i hi) (hh i hi))

end glb

theorem typed_S {n k : ℕ} {ar : List ℕ → ℕ} {g : ℕ → Demand} (hk : k = ar [])
    (h : ∀ i < k, Typed n (fun p => ar (i :: p)) (g i)) : Typed (n + 1) ar (S (toSub k g)) := by
  subst hk
  exact ⟨g, rfl, h⟩

theorem typed_L {n k : ℕ} {ar : List ℕ → ℕ} {g : ℕ → Demand} (hk : k = ar [])
    (h : ∀ i < k, Typed n (fun p => ar (i :: p)) (g i) ∧ lpArg (g i) = g i) :
    Typed (n + 1) ar (L (toSub k g)) := by
  subst hk
  exact ⟨g, rfl, h⟩

theorem typed_err (n : ℕ) (ar : List ℕ → ℕ) : Typed n ar err := by
  cases n <;> rfl

theorem typed_bottom (n : ℕ) (ar : List ℕ → ℕ) : Typed n ar bottom := by
  cases n <;> trivial

theorem typed_zero_iff {ar : List ℕ → ℕ} {d : Demand} : Typed 0 ar d ↔ NF 0 d := by
  cases d <;> rfl

theorem typed_glb {n : ℕ} {ar : List ℕ → ℕ} {a b : Demand} (ha : Typed n ar a) (hb : Typed n ar b) :
    Typed n ar (glb a b) := by
  induction n generalizing ar a b with
  | zero => exact typed_zero_iff.mpr (nf_glb (typed_zero ha) (typed_zero hb))
  | succ n ih =>
    rcases typed_cases ha with rfl | rfl | rfl | ⟨g, rfl, hg⟩ | ⟨g, rfl, hg⟩
    · rw [absent_glb]
      exact hb
    · rcases typed_cases hb with rfl | rfl | rfl | ⟨h, rfl, hh⟩ | ⟨h, rfl, hh⟩
      · rw [glb_absent]
        exact ha
      · rw [glb_bottom_bottom]
        exact ha
      · rw [glb_bottom_err]
        exact typed_err _ ar
      · rw [glb_bottom_S]
        exact typed_err _ ar
      · rw [glb_bottom_L]
        exact typed_err _ ar
    · rcases typed_cases hb with rfl | rfl | rfl | ⟨h, rfl, hh⟩ | ⟨h, rfl, hh⟩
      · rw [glb_absent]
        exact ha
      · rw [glb_err_bottom]
        exact ha
      · rw [glb_err_err]
        exact ha
      · rw [glb_err_S]
        exact ha
      · rw [glb_err_L]
        exact ha
    · rcases typed_cases hb with rfl | rfl | rfl | ⟨h, rfl, hh⟩ | ⟨h, rfl, hh⟩
      · rw [glb_absent]
        exact ha
      · rw [glb_S_bottom]
        exact typed_err _ ar
      · rw [glb_S_err]
        exact hb
      · rw [glb_SS]
        exact typed_S rfl fun i hi => ih (hg i hi) (hh i hi)
      · rw [glb_SL]
        exact typed_S rfl fun i hi => ih (hg i hi) (hh i hi).1
    · rcases typed_cases hb with rfl | rfl | rfl | ⟨h, rfl, hh⟩ | ⟨h, rfl, hh⟩
      · rw [glb_absent]
        exact ha
      · rw [glb_L_bottom]
        exact typed_err _ ar
      · rw [glb_L_err]
        exact hb
      · rw [glb_LS]
        exact typed_S rfl fun i hi => ih (hg i hi).1 (hh i hi)
      · have hlg := fun i hi => (hg i hi).2
        have hlh := fun i hi => (hh i hi).2
        rw [glb_LL hlg hlh]
        exact typed_L rfl fun i hi => ⟨ih (hg i hi).1 (hh i hi).1, lpArg_glb (hlg i hi) (hlh i hi)⟩

theorem err_glb {n : ℕ} {ar : List ℕ → ℕ} {d : Demand} (h : Typed (n + 1) ar d) : glb err d = err := by
  rcases typed_cases h with rfl | rfl | rfl | ⟨g, rfl, hg⟩ | ⟨g, rfl, hg⟩
  · exact glb_absent err
  · exact glb_err_bottom
  · exact glb_err_err
  · exact glb_err_S _
  · exact glb_err_L _

/-- A diverging demand absorbs the others, the absent one aside. -/
theorem glb_bottom_assoc {n : ℕ} {ar : List ℕ → ℕ} {b c : Demand} (hb : Typed (n + 1) ar b)
    (hc : Typed (n + 1) ar c) : glb (glb bottom b) c = glb bottom (glb b c) := by
  rcases typed_cases hb with rfl | rfl | rfl | ⟨h, rfl, hh⟩ | ⟨h, rfl, hh⟩
  · rw [glb_absent,absent_glb]
  · rw [glb_bottom_bottom]
    rcases typed_cases hc with rfl | rfl | rfl | ⟨k, rfl, hk⟩ | ⟨k, rfl, hk⟩
    · rw [glb_absent,glb_bottom_bottom]
    · rw [glb_bottom_bottom,glb_bottom_bottom]
    · rw [glb_bottom_err,glb_bottom_err]
    · rw [glb_bottom_S,glb_bottom_err]
    · rw [glb_bottom_L,glb_bottom_err]
  · rw [glb_bottom_err]
    rcases typed_cases hc with rfl | rfl | rfl | ⟨k, rfl, hk⟩ | ⟨k, rfl, hk⟩
    · rw [glb_absent,glb_bottom_err]
    · rw [glb_err_bottom,glb_bottom_err]
    · rw [glb_err_err,glb_bottom_err]
    · rw [glb_err_S,glb_bottom_err]
    · rw [glb_err_L,glb_bottom_err]
  · rw [glb_bottom_S]
    rcases typed_cases hc with rfl | rfl | rfl | ⟨k, rfl, hk⟩ | ⟨k, rfl, hk⟩
    · rw [glb_absent,glb_absent,glb_bottom_S]
    · rw [glb_err_bottom,glb_S_bottom,glb_bottom_err]
    · rw [glb_err_err,glb_S_err,glb_bottom_err]
    · rw [glb_err_S,glb_S_S,glb_bottom_S]
    · rw [glb_err_L,glb_S_L,glb_bottom_S]
  · rw [glb_bottom_L]
    rcases typed_cases hc with rfl | rfl | rfl | ⟨k, rfl, hk⟩ | ⟨k, rfl, hk⟩
    · rw [glb_absent,glb_absent,glb_bottom_L]
    · rw [glb_err_bottom,glb_L_bottom,glb_bottom_err]
    · rw [glb_err_err,glb_L_err,glb_bottom_err]
    · rw [glb_err_S,glb_L_S,glb_bottom_S]
    · rw [glb_err_L,glb_L_L,glb_bottom_L]

/-- The law for demands that are strict or lazy, from the law for the components. -/
theorem glb_assoc_products {k : ℕ} {g h m : ℕ → Demand}
    (hassoc : ∀ i < k, glb (glb (g i) (h i)) (m i) = glb (g i) (glb (h i) (m i))) {a b c : Demand}
    (ha : a = S (toSub k g) ∨ a = L (toSub k g) ∧ ∀ i < k, lpArg (g i) = g i)
    (hb : b = S (toSub k h) ∨ b = L (toSub k h) ∧ ∀ i < k, lpArg (h i) = h i)
    (hc : c = S (toSub k m) ∨ c = L (toSub k m) ∧ ∀ i < k, lpArg (m i) = m i) :
    glb (glb a b) c = glb a (glb b c) := by
  have hS : toSub k (fun i => glb (glb (g i) (h i)) (m i)) =
      toSub k fun i => glb (g i) (glb (h i) (m i)) := toSub_congr hassoc
  rcases ha with rfl | ⟨rfl, hlg⟩
  · rcases hb with rfl | ⟨rfl, hlh⟩
    · rcases hc with rfl | ⟨rfl, hlm⟩
      · rw [glb_SS,glb_SS,glb_SS,glb_SS,hS]
      · rw [glb_SS,glb_SL,glb_SL,glb_SS,hS]
    · rcases hc with rfl | ⟨rfl, hlm⟩
      · rw [glb_SL,glb_SS,glb_LS,glb_SS,hS]
      · rw [glb_SL,glb_SL,glb_LL hlh hlm,glb_SL,hS]
  · rcases hb with rfl | ⟨rfl, hlh⟩
    · rcases hc with rfl | ⟨rfl, hlm⟩
      · rw [glb_LS,glb_SS,glb_SS,glb_LS,hS]
      · rw [glb_LS,glb_SL,glb_SL,glb_LS,hS]
    · have hlgh := fun i hi => lpArg_glb (hlg i hi) (hlh i hi)
      rcases hc with rfl | ⟨rfl, hlm⟩
      · rw [glb_LL hlg hlh,glb_LS,glb_LS,glb_LS,hS]
      · have hlhm := fun i hi => lpArg_glb (hlh i hi) (hlm i hi)
        rw [glb_LL hlg hlh,glb_LL hlgh hlm,glb_LL hlh hlm,glb_LL hlg hlhm,hS]

theorem glb_assoc_step {n : ℕ} {ar : List ℕ → ℕ}
    (hcomps : ∀ i < ar [], ∀ a b c, Typed n (fun p => ar (i :: p)) a →
      Typed n (fun p => ar (i :: p)) b → Typed n (fun p => ar (i :: p)) c →
      glb (glb a b) c = glb a (glb b c)) {a b c : Demand} (ha : Typed (n + 1) ar a)
    (hb : Typed (n + 1) ar b) (hc : Typed (n + 1) ar c) : glb (glb a b) c = glb a (glb b c) := by
  have hcomm : ∀ {d e}, Typed (n + 1) ar d → Typed (n + 1) ar e → glb d e = glb e d :=
    fun hd he => glb_comm (typed_nf hd) (typed_nf he)
  have hbot : ∀ {d e}, Typed (n + 1) ar d → Typed (n + 1) ar e →
      glb (glb d bottom) e = glb d (glb bottom e) ∧ glb (glb d e) bottom = glb d (glb e bottom) :=
    fun hd he => assoc_of_left (f := glb) (P := Typed (n + 1) ar) hcomm typed_glb (typed_bottom _ ar)
      (fun _ _ => glb_bottom_assoc) hd he
  have herrl : ∀ d e, Typed (n + 1) ar d → Typed (n + 1) ar e →
      glb (glb err d) e = glb err (glb d e) := by
    intro d e hd he
    rw [err_glb hd,err_glb he,err_glb (typed_glb hd he)]
  have herr : ∀ {d e}, Typed (n + 1) ar d → Typed (n + 1) ar e →
      glb (glb d err) e = glb d (glb err e) ∧ glb (glb d e) err = glb d (glb e err) :=
    fun hd he => assoc_of_left (f := glb) (P := Typed (n + 1) ar) hcomm typed_glb (typed_err _ ar)
      herrl hd he
  rcases typed_cases ha with rfl | rfl | rfl | ⟨g, rfl, hg⟩ | ⟨g, rfl, hg⟩
  · rw [absent_glb,absent_glb]
  · exact glb_bottom_assoc hb hc
  · exact herrl b c hb hc
  · rcases typed_cases hb with rfl | rfl | rfl | ⟨h, rfl, hh⟩ | ⟨h, rfl, hh⟩
    · rw [glb_absent,absent_glb]
    · exact (hbot ha hc).1
    · exact (herr ha hc).1
    · rcases typed_cases hc with rfl | rfl | rfl | ⟨m, rfl, hm⟩ | ⟨m, rfl, hm⟩
      · rw [glb_absent,glb_absent]
      · exact (hbot ha hb).2
      · exact (herr ha hb).2
      · exact glb_assoc_products (fun i hi => hcomps i hi _ _ _ (hg i hi) (hh i hi) (hm i hi))
          (Or.inl rfl) (Or.inl rfl) (Or.inl rfl)
      · exact glb_assoc_products (fun i hi => hcomps i hi _ _ _ (hg i hi) (hh i hi) (hm i hi).1)
          (Or.inl rfl) (Or.inl rfl) (Or.inr ⟨rfl, fun i hi => (hm i hi).2⟩)
    · rcases typed_cases hc with rfl | rfl | rfl | ⟨m, rfl, hm⟩ | ⟨m, rfl, hm⟩
      · rw [glb_absent,glb_absent]
      · exact (hbot ha hb).2
      · exact (herr ha hb).2
      · exact glb_assoc_products (fun i hi => hcomps i hi _ _ _ (hg i hi) (hh i hi).1 (hm i hi))
          (Or.inl rfl) (Or.inr ⟨rfl, fun i hi => (hh i hi).2⟩) (Or.inl rfl)
      · exact glb_assoc_products (fun i hi => hcomps i hi _ _ _ (hg i hi) (hh i hi).1 (hm i hi).1)
          (Or.inl rfl) (Or.inr ⟨rfl, fun i hi => (hh i hi).2⟩) (Or.inr ⟨rfl, fun i hi => (hm i hi).2⟩)
  · rcases typed_cases hb with rfl | rfl | rfl | ⟨h, rfl, hh⟩ | ⟨h, rfl, hh⟩
    · rw [glb_absent,absent_glb]
    · exact (hbot ha hc).1
    · exact (herr ha hc).1
    · rcases typed_cases hc with rfl | rfl | rfl | ⟨m, rfl, hm⟩ | ⟨m, rfl, hm⟩
      · rw [glb_absent,glb_absent]
      · exact (hbot ha hb).2
      · exact (herr ha hb).2
      · exact glb_assoc_products (fun i hi => hcomps i hi _ _ _ (hg i hi).1 (hh i hi) (hm i hi))
          (Or.inr ⟨rfl, fun i hi => (hg i hi).2⟩) (Or.inl rfl) (Or.inl rfl)
      · exact glb_assoc_products (fun i hi => hcomps i hi _ _ _ (hg i hi).1 (hh i hi) (hm i hi).1)
          (Or.inr ⟨rfl, fun i hi => (hg i hi).2⟩) (Or.inl rfl) (Or.inr ⟨rfl, fun i hi => (hm i hi).2⟩)
    · rcases typed_cases hc with rfl | rfl | rfl | ⟨m, rfl, hm⟩ | ⟨m, rfl, hm⟩
      · rw [glb_absent,glb_absent]
      · exact (hbot ha hb).2
      · exact (herr ha hb).2
      · exact glb_assoc_products (fun i hi => hcomps i hi _ _ _ (hg i hi).1 (hh i hi).1 (hm i hi))
          (Or.inr ⟨rfl, fun i hi => (hg i hi).2⟩) (Or.inr ⟨rfl, fun i hi => (hh i hi).2⟩) (Or.inl rfl)
      · exact glb_assoc_products (fun i hi => hcomps i hi _ _ _ (hg i hi).1 (hh i hi).1 (hm i hi).1)
          (Or.inr ⟨rfl, fun i hi => (hg i hi).2⟩) (Or.inr ⟨rfl, fun i hi => (hh i hi).2⟩)
          (Or.inr ⟨rfl, fun i hi => (hm i hi).2⟩)

/-- A demand that is no product is one on a type without components. -/
theorem typed_one {d : Demand} (h : NF 0 d) : Typed 1 (fun _ => 0) d := by
  rcases nf_zero_cases h with rfl | rfl | rfl | rfl | rfl
  · trivial
  · trivial
  · rfl
  · exact ⟨fun _ => lazy, rfl, fun i hi => absurd hi (Nat.not_lt_zero i)⟩
  · exact ⟨fun _ => lazy, rfl, fun i hi => absurd hi (Nat.not_lt_zero i)⟩

theorem glb_assoc {n : ℕ} {ar : List ℕ → ℕ} {a b c : Demand} (ha : Typed n ar a) (hb : Typed n ar b)
    (hc : Typed n ar c) : glb (glb a b) c = glb a (glb b c) := by
  induction n generalizing ar a b c with
  | zero =>
    exact glb_assoc_step (fun i hi => absurd hi (Nat.not_lt_zero i)) (typed_one (typed_zero ha))
      (typed_one (typed_zero hb)) (typed_one (typed_zero hc))
  | succ n ih => exact glb_assoc_step (fun i _ _ _ _ h₁ h₂ h₃ => ih h₁ h₂ h₃) ha hb hc

/-! ### glb in the order of lub -/

/-- Without divergence, of a depth of at most `n`. -/
def Live : ℕ → Demand → Prop
  | _, absent => True
  | _, bottom => False
  | _, error _ => False
  | 0, S x => x = .none
  | 0, L x => x = .none
  | n + 1, S x => Comps (Live n) x
  | n + 1, L x => Comps (Live n) x

/-- `a` is at least as precise as `b`. -/
def Below (a b : Demand) : Prop := lub a b = b

theorem live_get {n k : ℕ} {g : ℕ → Demand} (h : Comps (Live n) (toSub k g)) (hn : Live n lazy) {i : ℕ}
    (hi : i < k) : Live n (g i) := by
  rw [← get_toSub (g := g) hi]
  cases hx : toSub k g with
  | none => exact hn
  | product xs =>
    rw [hx] at h
    have hlen : xs.length = k := by
      have hl := len_toSub (k := k) g
      rw [hx] at hl
      exact hl
    have hmem : xs.getD i lazy ∈ xs := by
      rw [List.getD_eq_getElem?_getD,List.getElem?_eq_getElem (by omega)]
      exact List.getElem_mem _
    exact h _ hmem

theorem live_lazy (n : ℕ) : Live n lazy := by
  cases n with
  | zero => rfl
  | succ n => trivial

section below

variable {k : ℕ} {g h : ℕ → Demand}

theorem lub_lazy_lazy : lub lazy lazy = lazy := (lub_lazy (nf_lazy 0)).1

theorem below_SS : Below (S (toSub k g)) (S (toSub k h)) ↔ ∀ i < k, Below (g i) (h i) := by
  unfold Below
  rw [lub_S_S,comb_toSub lub_lazy_lazy,S.injEq]
  exact toSub_inj

/-- A lazy component absorbs the laziness of the join. -/
theorem lpArg_lub_eq {n : ℕ} {a b : Demand} (ha : NF n a) (hb : NF n b) (hl : lpArg b = b) :
    lpArg (lub a b) = lub a b := by
  have hb' : lub b absent = b := by
    rw [← lpArg_eq_lub (nf_succ hb)]
    exact hl
  rw [lpArg_eq_lub (nf_succ (nf_lub ha hb)),lub_assoc a b absent ha hb (nf_absent n),hb']

theorem below_SL {n : ℕ} (hg : ∀ i < k, NF n (g i)) (hh : ∀ i < k, NF n (h i))
    (hl : ∀ i < k, lpArg (h i) = h i) :
    Below (S (toSub k g)) (L (toSub k h)) ↔ ∀ i < k, Below (g i) (h i) := by
  have hcongr : toSub k (fun i => lpArg (lub (g i) (h i))) = toSub k fun i => lub (g i) (h i) :=
    toSub_congr fun i hi => lpArg_lub_eq (hg i hi) (hh i hi) (hl i hi)
  unfold Below
  rw [lub_S_L,lpSub_comb_toSub lub_lazy_lazy,hcongr,L.injEq]
  exact toSub_inj

theorem below_LL {n : ℕ} (hg : ∀ i < k, NF n (g i)) (hh : ∀ i < k, NF n (h i))
    (hl : ∀ i < k, lpArg (h i) = h i) :
    Below (L (toSub k g)) (L (toSub k h)) ↔ ∀ i < k, Below (g i) (h i) := by
  have hcongr : toSub k (fun i => lpArg (lub (g i) (h i))) = toSub k fun i => lub (g i) (h i) :=
    toSub_congr fun i hi => lpArg_lub_eq (hg i hi) (hh i hi) (hl i hi)
  unfold Below
  rw [lub_L_L,lpSub_comb_toSub lub_lazy_lazy,hcongr,L.injEq]
  exact toSub_inj

theorem below_absent_of_lpArg {n : ℕ} {d : Demand} (hd : NF n d) (hl : lpArg d = d) : Below absent d := by
  unfold Below
  rw [lub_comm (nf_absent n) hd,← lpArg_eq_lub (nf_succ hd)]
  exact hl

end below

/-- glb keeps the order, from the law for the components. -/
theorem glb_below_step {n : ℕ} {ar : List ℕ → ℕ}
    (hcomps : ∀ i < ar [], ∀ a b c, Typed n (fun p => ar (i :: p)) a →
      Typed n (fun p => ar (i :: p)) b → Typed n (fun p => ar (i :: p)) c → Live n a → Live n b →
      Live n c → Below a b → Below (glb a c) (glb b c)) {a b c : Demand} (ha : Typed (n + 1) ar a)
    (hb : Typed (n + 1) ar b) (hc : Typed (n + 1) ar c) (hla : Live (n + 1) a)
    (hlb : Live (n + 1) b) (hlc : Live (n + 1) c) (hle : Below a b) : Below (glb a c) (glb b c) := by
  have hget : ∀ {g : ℕ → Demand}, Comps (Live n) (toSub (ar []) g) → ∀ i < ar [], Live n (g i) :=
    fun hg i hi => live_get hg (live_lazy n) hi
  have hbelow : ∀ {g h m : ℕ → Demand}, (∀ i < ar [], Typed n (fun p => ar (i :: p)) (g i)) →
      (∀ i < ar [], Typed n (fun p => ar (i :: p)) (h i)) →
      (∀ i < ar [], Typed n (fun p => ar (i :: p)) (m i)) → (∀ i < ar [], Live n (g i)) →
      (∀ i < ar [], Live n (h i)) → (∀ i < ar [], Live n (m i)) → (∀ i < ar [], Below (g i) (h i)) →
      ∀ i < ar [], Below (glb (g i) (m i)) (glb (h i) (m i)) :=
    fun hg hh hm lg lh lm h i hi =>
      hcomps i hi _ _ _ (hg i hi) (hh i hi) (hm i hi) (lg i hi) (lh i hi) (lm i hi) (h i hi)
  rcases typed_cases ha with rfl | rfl | rfl | ⟨g, rfl, hg⟩ | ⟨g, rfl, hg⟩
  · rw [absent_glb]
    rcases typed_cases hb with rfl | rfl | rfl | ⟨h, rfl, hh⟩ | ⟨h, rfl, hh⟩
    · rw [absent_glb]
      exact lub_self (typed_nf hc)
    · cases hlb
    · cases hlb
    · rw [Below,lub_absent_S] at hle
      cases hle
    · have hlazy : ∀ i < ar [], Below absent (h i) :=
        fun i hi => below_absent_of_lpArg (typed_nf (hh i hi).1) (hh i hi).2
      have habs : ∀ i < ar [], Typed n (fun p => ar (i :: p)) absent := by
        intro i _
        cases n <;> trivial
      have hlabs : ∀ i < ar [], Live n absent := by
        intro i _
        cases n <;> trivial
      rcases typed_cases hc with rfl | rfl | rfl | ⟨m, rfl, hm⟩ | ⟨m, rfl, hm⟩
      · rw [glb_absent]
        exact hle
      · cases hlc
      · cases hlc
      · have hcomp := hbelow habs (fun i hi => (hh i hi).1) hm hlabs (hget hlb) (hget hlc) hlazy
        simp only [absent_glb] at hcomp
        rw [glb_LS]
        exact below_SS.mpr hcomp
      · have hcomp := hbelow habs (fun i hi => (hh i hi).1) (fun i hi => (hm i hi).1) hlabs (hget hlb)
          (hget hlc) hlazy
        simp only [absent_glb] at hcomp
        have hlh := fun i hi => (hh i hi).2
        have hlm := fun i hi => (hm i hi).2
        rw [glb_LL hlh hlm]
        exact (below_LL (fun i hi => typed_nf (hm i hi).1)
          (fun i hi => typed_nf (typed_glb (hh i hi).1 (hm i hi).1))
          fun i hi => lpArg_glb (hlh i hi) (hlm i hi)).mpr hcomp
  · cases hla
  · cases hla
  · rcases typed_cases hb with rfl | rfl | rfl | ⟨h, rfl, hh⟩ | ⟨h, rfl, hh⟩
    · rw [Below,lub_S_absent] at hle
      cases hle
    · cases hlb
    · cases hlb
    · have hgh := below_SS.mp hle
      rcases typed_cases hc with rfl | rfl | rfl | ⟨m, rfl, hm⟩ | ⟨m, rfl, hm⟩
      · rw [glb_absent,glb_absent]
        exact hle
      · cases hlc
      · cases hlc
      · rw [glb_SS,glb_SS]
        exact below_SS.mpr (hbelow hg hh hm (hget hla) (hget hlb) (hget hlc) hgh)
      · rw [glb_SL,glb_SL]
        exact below_SS.mpr (hbelow hg hh (fun i hi => (hm i hi).1) (hget hla) (hget hlb) (hget hlc) hgh)
    · have hlh := fun i hi => (hh i hi).2
      have hgh := (below_SL (fun i hi => typed_nf (hg i hi)) (fun i hi => typed_nf (hh i hi).1) hlh).mp hle
      have hh₁ := fun i hi => (hh i hi).1
      rcases typed_cases hc with rfl | rfl | rfl | ⟨m, rfl, hm⟩ | ⟨m, rfl, hm⟩
      · rw [glb_absent,glb_absent]
        exact hle
      · cases hlc
      · cases hlc
      · rw [glb_SS,glb_LS]
        exact below_SS.mpr (hbelow hg hh₁ hm (hget hla) (hget hlb) (hget hlc) hgh)
      · have hlm := fun i hi => (hm i hi).2
        have hcomp := hbelow hg hh₁ (fun i hi => (hm i hi).1) (hget hla) (hget hlb) (hget hlc) hgh
        rw [glb_SL,glb_LL hlh hlm]
        exact (below_SL (fun i hi => typed_nf (typed_glb (hg i hi) (hm i hi).1))
          (fun i hi => typed_nf (typed_glb (hh₁ i hi) (hm i hi).1))
          fun i hi => lpArg_glb (hlh i hi) (hlm i hi)).mpr hcomp
  · have hg₁ := fun i hi => (hg i hi).1
    have hlg := fun i hi => (hg i hi).2
    rcases typed_cases hb with rfl | rfl | rfl | ⟨h, rfl, hh⟩ | ⟨h, rfl, hh⟩
    · rw [Below,lub_L_absent] at hle
      cases hle
    · cases hlb
    · cases hlb
    · rw [Below,lub_L_S] at hle
      cases hle
    · have hlh := fun i hi => (hh i hi).2
      have hh₁ := fun i hi => (hh i hi).1
      have hgh := (below_LL (fun i hi => typed_nf (hg₁ i hi)) (fun i hi => typed_nf (hh₁ i hi)) hlh).mp hle
      rcases typed_cases hc with rfl | rfl | rfl | ⟨m, rfl, hm⟩ | ⟨m, rfl, hm⟩
      · rw [glb_absent,glb_absent]
        exact hle
      · cases hlc
      · cases hlc
      · rw [glb_LS,glb_LS]
        exact below_SS.mpr (hbelow hg₁ hh₁ hm (hget hla) (hget hlb) (hget hlc) hgh)
      · have hlm := fun i hi => (hm i hi).2
        have hcomp := hbelow hg₁ hh₁ (fun i hi => (hm i hi).1) (hget hla) (hget hlb) (hget hlc) hgh
        rw [glb_LL hlg hlm,glb_LL hlh hlm]
        exact (below_LL (fun i hi => typed_nf (typed_glb (hg₁ i hi) (hm i hi).1))
          (fun i hi => typed_nf (typed_glb (hh₁ i hi) (hm i hi).1))
          fun i hi => lpArg_glb (hlh i hi) (hlm i hi)).mpr hcomp

theorem live_one {d : Demand} (h : Live 0 d) : Live 1 d := by
  cases d with
  | S x =>
    have hx : x = .none := h
    rw [hx]
    trivial
  | L x =>
    have hx : x = .none := h
    rw [hx]
    trivial
  | _ => exact h

theorem glb_below {n : ℕ} {ar : List ℕ → ℕ} {a b c : Demand} (ha : Typed n ar a) (hb : Typed n ar b)
    (hc : Typed n ar c) (hla : Live n a) (hlb : Live n b) (hlc : Live n c) (h : Below a b) :
    Below (glb a c) (glb b c) := by
  induction n generalizing ar a b c with
  | zero =>
    exact glb_below_step (fun i hi => absurd hi (Nat.not_lt_zero i)) (typed_one (typed_zero ha))
      (typed_one (typed_zero hb)) (typed_one (typed_zero hc)) (live_one hla) (live_one hlb)
      (live_one hlc) h
  | succ n ih =>
    exact glb_below_step (fun i _ _ _ _ h₁ h₂ h₃ l₁ l₂ l₃ hl => ih h₁ h₂ h₃ l₁ l₂ l₃ hl) ha hb hc hla
      hlb hlc h

end Jhc.E.Demand

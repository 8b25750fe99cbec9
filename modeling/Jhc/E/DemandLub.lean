import Jhc.E.Demand

/-!
# lub of the demands in normal form

The products of a demand in normal form are not all lazy; those of a lazy demand hold no strict
component.
-/

namespace Jhc.E.Demand
open SubDemand (product)

/-! ### Products in normal form -/

def norm : SubDemand → SubDemand
  | .none => .none
  | product xs => allLazy xs

/-- What a lazy demand makes of the components. -/
def lpSub : SubDemand → SubDemand
  | .none => .none
  | product xs => product (xs.map lpArg)

/-- Every component has the property. -/
def Comps (P : Demand → Prop) : SubDemand → Prop
  | .none => True
  | product xs => ∀ x ∈ xs, P x

theorem Comps.mono {P Q : Demand → Prop} (h : ∀ d, P d → Q d) : {x : SubDemand} → Comps P x → Comps Q x
  | .none, _ => trivial
  | product _, hx => fun d hd => h d (hx d hd)

theorem isLazy_iff {d : Demand} : isLazy d = true ↔ d = lazy := by
  constructor
  · intro h
    unfold isLazy at h
    split at h
    · rfl
    · cases h
  · intro h
    rw [h]
    rfl

theorem all_isLazy {xs : List Demand} : xs.all isLazy = true ↔ ∀ x ∈ xs, x = lazy := by
  simp only [List.all_eq_true,isLazy_iff]

theorem norm_lazy {x : SubDemand} (h : Comps (· = lazy) x) : norm x = .none := by
  cases x with
  | none => rfl
  | product xs => exact if_pos (all_isLazy.mpr h)

theorem norm_not_lazy {x : SubDemand} (h : ¬ Comps (· = lazy) x) : norm x = x := by
  cases x with
  | none => exact absurd trivial h
  | product xs =>
    refine if_neg ?_
    intro hl
    exact h (all_isLazy.mp hl)

theorem norm_norm (x : SubDemand) : norm (norm x) = norm x := by
  by_cases h : Comps (· = lazy) x
  · rw [norm_lazy h]
    rfl
  · rw [norm_not_lazy h,norm_not_lazy h]

theorem Comps.norm {P : Demand → Prop} {x : SubDemand} (h : Comps P x) : Comps P (norm x) := by
  by_cases hl : Comps (· = lazy) x
  · rw [norm_lazy hl]
    trivial
  · rw [norm_not_lazy hl]
    exact h

theorem lp_clauses (x : Demand) (xs : List Demand) (y : SubDemand) :
    (lp [] = L .none ∧ lp (x :: xs) = L (allLazy (lpArgs (x :: xs)))) ∧
      (lpArgs [] = [] ∧ lpArgs (x :: xs) = lpArg x :: lpArgs xs) ∧
      (lpArg absent = absent ∧ lpArg bottom = absent ∧ lpArg (L y) = L y) ∧
      (lpArg (S .none) = lazy ∧ lpArg (S (product xs)) = lp xs) ∧
      lpArg (error .none) = lazy ∧ lpArg (error (product xs)) = lp xs := by
  refine ⟨⟨?_, ?_⟩, ⟨?_, ?_⟩, ⟨?_, ?_, ?_⟩, ⟨?_, ?_⟩, ?_, ?_⟩
  · rw [lp]
  · rw [lp]
    intro h
    cases h
  · rw [lpArgs]
  · rw [lpArgs]
  · rw [lpArg] <;> simp
  · rw [lpArg]
  · rw [lpArg] <;> simp
  · rw [lpArg]
  · rw [lpArg]
  · rw [lpArg]
  · rw [lpArg]

theorem lpArgs_eq (xs : List Demand) : lpArgs xs = xs.map lpArg := by
  induction xs with
  | nil => exact (lp_clauses absent [] .none).2.1.1
  | cons x xs ih => exact ((lp_clauses x xs .none).2.1.2).trans (congrArg (lpArg x :: ·) ih)

theorem s_eq (x : SubDemand) : s x = S (norm x) := by
  cases x with
  | none => rfl
  | product xs =>
    cases xs with
    | nil => rfl
    | cons d ds => rfl

theorem lp_eq (xs : List Demand) : lp xs = L (allLazy (xs.map lpArg)) := by
  cases xs with
  | nil => exact (lp_clauses absent [] .none).1.1
  | cons d ds =>
    rw [← lpArgs_eq]
    exact (lp_clauses d ds .none).1.2

theorem l_eq (x : SubDemand) : l x = L (norm (lpSub x)) := by
  cases x with
  | none => rfl
  | product xs => exact lp_eq xs

theorem lpArg_absent : lpArg absent = absent := (lp_clauses absent [] .none).2.2.1.1

theorem lpArg_bottom : lpArg bottom = absent := (lp_clauses absent [] .none).2.2.1.2.1

theorem lpArg_L (x : SubDemand) : lpArg (L x) = L x := (lp_clauses absent [] x).2.2.1.2.2

theorem lpArg_S (x : SubDemand) : lpArg (S x) = L (norm (lpSub x)) := by
  cases x with
  | none => exact (lp_clauses absent [] .none).2.2.2.1.1
  | product xs => exact ((lp_clauses absent xs .none).2.2.2.1.2).trans (lp_eq xs)

theorem lpArg_error (x : SubDemand) : lpArg (error x) = L (norm (lpSub x)) := by
  cases x with
  | none => exact (lp_clauses absent [] .none).2.2.2.2.1
  | product xs => exact ((lp_clauses absent xs .none).2.2.2.2.2).trans (lp_eq xs)

theorem lpArg_err : lpArg err = lazy := lpArg_error .none

/-- A component of a lazy product is lazy or absent. -/
theorem lpArg_shape (d : Demand) : lpArg d = absent ∨ ∃ x, lpArg d = L x := by
  cases d with
  | bottom => exact Or.inl lpArg_bottom
  | absent => exact Or.inl lpArg_absent
  | L x => exact Or.inr ⟨x, lpArg_L x⟩
  | S x => exact Or.inr ⟨_, lpArg_S x⟩
  | error x => exact Or.inr ⟨_, lpArg_error x⟩

theorem lpArg_lpArg (d : Demand) : lpArg (lpArg d) = lpArg d := by
  rcases lpArg_shape d with h | ⟨x, h⟩
  · rw [h,lpArg_absent]
  · rw [h,lpArg_L]

/-- A lazy demand without more than that is made of lazy components. -/
theorem lpSub_lazy {x : SubDemand} (h : Comps (· = lazy) x) : Comps (· = lazy) (lpSub x) := by
  cases x with
  | none => trivial
  | product xs =>
    intro d hd
    obtain ⟨a, ha, rfl⟩ := List.mem_map.mp hd
    rw [h a ha]
    exact lpArg_L _

/-! ### comb -/

section comb

variable {f : Demand → Demand → Demand} {P P' : Demand → Prop}

theorem lubs_clauses (x y : Demand) (xs ys : List Demand) :
    (lubsLazyLeft [] = [] ∧ lubsLazyLeft (x :: xs) = lub lazy x :: lubsLazyLeft xs) ∧
      (lubsLazyRight [] = [] ∧ lubsLazyRight (x :: xs) = lub x lazy :: lubsLazyRight xs) ∧
      (lubs [] ys = [] ∧ lubs xs [] = [] ∧ lubs (x :: xs) (y :: ys) = lub x y :: lubs xs ys) ∧
      (lubSub .none .none = .none ∧ lubSub .none (product ys) = product (lubsLazyLeft ys)) ∧
      lubSub (product xs) .none = product (lubsLazyRight xs) ∧
      lubSub (product xs) (product ys) = product (lubs xs ys) := by
  refine ⟨⟨?_, ?_⟩, ⟨?_, ?_⟩, ⟨?_, ?_, ?_⟩, ⟨?_, ?_⟩, ?_, ?_⟩
  · rw [lubsLazyLeft]
  · rw [lubsLazyLeft]
    rfl
  · rw [lubsLazyRight]
  · rw [lubsLazyRight]
    rfl
  · rw [lubs]
    simp
  · rw [lubs]
    simp
  · rw [lubs]
  · rw [lubSub]
  · rw [lubSub]
  · rw [lubSub]
  · rw [lubSub]

theorem lubsLazyLeft_eq (xs : List Demand) :
    lubsLazyLeft xs = List.zipWith lub (List.replicate xs.length lazy) xs := by
  induction xs with
  | nil => exact (lubs_clauses absent absent [] []).1.1
  | cons x xs ih => exact (lubs_clauses x absent xs []).1.2.trans (congrArg (lub lazy x :: ·) ih)

theorem lubsLazyRight_eq (xs : List Demand) :
    lubsLazyRight xs = List.zipWith lub xs (List.replicate xs.length lazy) := by
  induction xs with
  | nil => exact (lubs_clauses absent absent [] []).2.1.1
  | cons x xs ih => exact (lubs_clauses x absent xs []).2.1.2.trans (congrArg (lub x lazy :: ·) ih)

theorem lubs_eq (xs ys : List Demand) : lubs xs ys = List.zipWith lub xs ys := by
  induction xs generalizing ys with
  | nil => exact (lubs_clauses absent absent [] ys).2.2.1.1
  | cons x xs ih =>
    cases ys with
    | nil => exact (lubs_clauses absent absent (x :: xs) []).2.2.1.2.1
    | cons y ys => exact (lubs_clauses x y xs ys).2.2.1.2.2.trans (congrArg (lub x y :: ·) (ih ys))

/-- The clauses for products are those of `comb`. -/
theorem lubSub_eq (x y : SubDemand) : lubSub x y = comb lub x y := by
  have hsub := fun xs ys => (lubs_clauses absent absent xs ys).2.2.2
  cases x with
  | none =>
    cases y with
    | none => exact (hsub [] []).1.1
    | product ys => exact (hsub [] ys).1.2.trans (congrArg product (lubsLazyLeft_eq ys))
  | product xs =>
    cases y with
    | none => exact (hsub xs []).2.1.trans (congrArg product (lubsLazyRight_eq xs))
    | product ys => exact (hsub xs ys).2.2.trans (congrArg product (lubs_eq xs ys))

/-- The components of a combined product. -/
theorem Comps.comb {x y : SubDemand} {Q : Demand → Prop} (hx : Comps P x) (hy : Comps P' y)
    (hlazy : P lazy) (hlazy' : P' lazy) (hf : ∀ a b, P a → P' b → Q (f a b)) :
    Comps Q (comb f x y) := by
  have hzip : ∀ xs ys : List Demand, (∀ a ∈ xs, P a) → (∀ b ∈ ys, P' b) →
      ∀ d ∈ List.zipWith f xs ys, Q d := by
    intro xs ys hxs hys d hd
    obtain ⟨i, hi, rfl⟩ := List.mem_iff_getElem.mp hd
    rw [List.getElem_zipWith]
    exact hf _ _ (hxs _ (List.getElem_mem _)) (hys _ (List.getElem_mem _))
  cases x with
  | none =>
    cases y with
    | none => trivial
    | product ys =>
      refine hzip _ ys ?_ hy
      intro a ha
      rw [List.eq_of_mem_replicate ha]
      exact hlazy
  | product xs =>
    cases y with
    | none =>
      refine hzip xs _ hx ?_
      intro a ha
      rw [List.eq_of_mem_replicate ha]
      exact hlazy'
    | product ys => exact hzip xs ys hx hy

theorem zipWith_comm_on (hf : ∀ a b, P a → P b → f a b = f b a) {xs ys : List Demand}
    (hx : ∀ a ∈ xs, P a) (hy : ∀ b ∈ ys, P b) : List.zipWith f xs ys = List.zipWith f ys xs := by
  induction xs generalizing ys with
  | nil => simp
  | cons x xs ih =>
    cases ys with
    | nil => rfl
    | cons y ys =>
      rw [List.zipWith_cons_cons,List.zipWith_cons_cons,
        hf x y (hx x List.mem_cons_self) (hy y List.mem_cons_self),
        ih (fun a ha => hx a (List.mem_cons_of_mem x ha)) fun b hb => hy b (List.mem_cons_of_mem y hb)]

theorem comb_comm {x y : SubDemand} (hx : Comps P x) (hy : Comps P y) (hlazy : P lazy)
    (hf : ∀ a b, P a → P b → f a b = f b a) : comb f x y = comb f y x := by
  have hrep : ∀ n, ∀ a ∈ List.replicate n lazy, P a := by
    intro n a ha
    rw [List.eq_of_mem_replicate ha]
    exact hlazy
  cases x with
  | none =>
    cases y with
    | none => rfl
    | product ys => exact congrArg product (zipWith_comm_on hf (hrep _) hy)
  | product xs =>
    cases y with
    | none => exact congrArg product (zipWith_comm_on hf hx (hrep _))
    | product ys => exact congrArg product (zipWith_comm_on hf hx hy)

theorem zipWith_assoc_on (hf : ∀ a b c, P a → P b → P c → f (f a b) c = f a (f b c))
    {xs ys zs : List Demand} (hx : ∀ a ∈ xs, P a) (hy : ∀ b ∈ ys, P b) (hz : ∀ c ∈ zs, P c) :
    List.zipWith f (List.zipWith f xs ys) zs = List.zipWith f xs (List.zipWith f ys zs) := by
  induction xs generalizing ys zs with
  | nil => simp
  | cons x xs ih =>
    cases ys with
    | nil => simp
    | cons y ys =>
      cases zs with
      | nil => simp
      | cons z zs =>
        simp only [List.zipWith_cons_cons]
        rw [hf x y z (hx x List.mem_cons_self) (hy y List.mem_cons_self) (hz z List.mem_cons_self),
          ih (fun a ha => hx a (List.mem_cons_of_mem x ha)) (fun b hb => hy b (List.mem_cons_of_mem y hb))
            fun c hc => hz c (List.mem_cons_of_mem z hc)]

theorem zipWith_congr_on {g h : Demand → Demand → Demand} (hf : ∀ a b, P a → P' b → g a b = h a b)
    {xs ys : List Demand} (hx : ∀ a ∈ xs, P a) (hy : ∀ b ∈ ys, P' b) :
    List.zipWith g xs ys = List.zipWith h xs ys := by
  induction xs generalizing ys with
  | nil => simp
  | cons x xs ih =>
    cases ys with
    | nil => rfl
    | cons y ys =>
      rw [List.zipWith_cons_cons,List.zipWith_cons_cons,
        hf x y (hx x List.mem_cons_self) (hy y List.mem_cons_self),
        ih (fun a ha => hx a (List.mem_cons_of_mem x ha)) fun b hb => hy b (List.mem_cons_of_mem y hb)]

theorem comb_none_left (xs : List Demand) : comb f .none (product xs) = product (xs.map (f lazy)) := by
  refine congrArg product ?_
  induction xs with
  | nil => rfl
  | cons x xs ih => exact congrArg (f lazy x :: ·) ih

theorem comb_none_right (xs : List Demand) :
    comb f (product xs) .none = product (xs.map fun x => f x lazy) := by
  refine congrArg product ?_
  induction xs with
  | nil => rfl
  | cons x xs ih => exact congrArg (f x lazy :: ·) ih

theorem comb_products (xs ys : List Demand) :
    comb f (product xs) (product ys) = product (List.zipWith f xs ys) := rfl

theorem comb_assoc {x y z : SubDemand} (hx : Comps P x) (hy : Comps P y) (hz : Comps P z)
    (hlazy : P lazy) (hid : f lazy lazy = lazy)
    (hf : ∀ a b c, P a → P b → P c → f (f a b) c = f a (f b c)) :
    comb f (comb f x y) z = comb f x (comb f y z) := by
  have hmap : ∀ {zs : List Demand} (g h : Demand → Demand), (∀ c ∈ zs, P c) →
      (∀ c, P c → g c = h c) → zs.map g = zs.map h :=
    fun g h hzs hgh => List.map_congr_left fun c hc => hgh c (hzs c hc)
  cases x with
  | none =>
    cases y with
    | none =>
      cases z with
      | none => rfl
      | product zs =>
        change comb f .none (product zs) = _
        rw [comb_none_left,comb_none_left,List.map_map]
        refine congrArg product (hmap _ _ hz ?_)
        intro c hc
        rw [Function.comp_apply,← hf lazy lazy c hlazy hlazy hc,hid]
    | product ys =>
      cases z with
      | none =>
        rw [comb_none_left,comb_none_right,comb_none_right,comb_none_left,List.map_map,List.map_map]
        exact congrArg product (hmap _ _ hy fun b hb => hf lazy b lazy hlazy hb hlazy)
      | product zs =>
        rw [comb_none_left,comb_products,comb_products,comb_none_left,List.zipWith_map_left,
          List.map_zipWith]
        exact congrArg product (zipWith_congr_on (fun b c hb hc => hf lazy b c hlazy hb hc) hy hz)
  | product xs =>
    cases y with
    | none =>
      cases z with
      | none =>
        change comb f (comb f (product xs) .none) .none = comb f (product xs) .none
        rw [comb_none_right,comb_none_right,List.map_map]
        refine congrArg product (hmap _ _ hx ?_)
        intro a ha
        rw [Function.comp_apply,hf a lazy lazy ha hlazy hlazy,hid]
      | product zs =>
        rw [comb_none_right,comb_products,comb_none_left,comb_products,List.zipWith_map_left,
          List.zipWith_map_right]
        exact congrArg product (zipWith_congr_on (fun a c ha hc => hf a lazy c ha hlazy hc) hx hz)
    | product ys =>
      cases z with
      | none =>
        rw [comb_products,comb_none_right,comb_none_right,comb_products,List.zipWith_map_right,
          List.map_zipWith]
        exact congrArg product (zipWith_congr_on (fun a b ha hb => hf a b lazy ha hb hlazy) hx hy)
      | product zs =>
        rw [comb_products,comb_products,comb_products,comb_products]
        exact congrArg product (zipWith_assoc_on hf hx hy hz)

end comb

/-! ### Normal form -/

/-- In normal form, with products of a depth of at most `n`. -/
def NF : ℕ → Demand → Prop
  | _, absent => True
  | _, bottom => True
  | _, error x => x = .none
  | 0, S x => x = .none
  | 0, L x => x = .none
  | n + 1, S x => norm x = x ∧ Comps (NF n) x
  | n + 1, L x => norm x = x ∧ Comps (NF n) x ∧ Comps (fun d => lpArg d = d) x

theorem nf_absent (n : ℕ) : NF n absent := by
  cases n <;> trivial

theorem nf_bottom (n : ℕ) : NF n bottom := by
  cases n <;> trivial

theorem nf_err (n : ℕ) : NF n err := by
  cases n <;> rfl

theorem nf_lazy (n : ℕ) : NF n lazy := by
  cases n with
  | zero => rfl
  | succ n => exact ⟨rfl, trivial, trivial⟩

theorem nf_strict (n : ℕ) : NF n strict := by
  cases n with
  | zero => rfl
  | succ n => exact ⟨rfl, trivial⟩

theorem nf_error {n : ℕ} {x : SubDemand} (h : NF n (error x)) : x = .none := by
  cases n <;> exact h

theorem nf_succ {n : ℕ} {d : Demand} (h : NF n d) : NF (n + 1) d := by
  induction n generalizing d with
  | zero =>
    cases d with
    | absent => trivial
    | bottom => trivial
    | error x => exact h
    | S x =>
      have hx : x = .none := h
      rw [hx]
      exact nf_strict 1
    | L x =>
      have hx : x = .none := h
      rw [hx]
      exact nf_lazy 1
  | succ n ih =>
    cases d with
    | absent => trivial
    | bottom => trivial
    | error x => exact h
    | S x => exact ⟨h.1, h.2.mono fun d => ih⟩
    | L x => exact ⟨h.1, h.2.1.mono fun d => ih, h.2.2⟩

theorem nf_le {n m : ℕ} {d : Demand} (h : NF n d) (hnm : n ≤ m) : NF m d := by
  induction hnm with
  | refl => exact h
  | step _ ih => exact nf_succ ih

theorem nf_S {n : ℕ} {x : SubDemand} (h : Comps (NF n) x) : NF (n + 1) (S (norm x)) :=
  ⟨norm_norm x, h.norm⟩

theorem nf_lpArg {n : ℕ} {d : Demand} (h : NF n d) : NF n (lpArg d) := by
  induction n generalizing d with
  | zero =>
    cases d with
    | absent =>
      rw [lpArg_absent]
      exact nf_absent 0
    | bottom =>
      rw [lpArg_bottom]
      exact nf_absent 0
    | error x =>
      have hx : x = .none := h
      rw [hx]
      exact lpArg_err.symm ▸ nf_lazy 0
    | S x =>
      have hx : x = .none := h
      rw [hx,lpArg_S]
      exact nf_lazy 0
    | L x =>
      rw [lpArg_L]
      exact h
  | succ n ih =>
    cases d with
    | absent =>
      rw [lpArg_absent]
      exact nf_absent _
    | bottom =>
      rw [lpArg_bottom]
      exact nf_absent _
    | error x =>
      have hx : x = .none := h
      rw [hx]
      exact lpArg_err.symm ▸ nf_lazy _
    | S x =>
      rw [lpArg_S]
      refine ⟨norm_norm _, Comps.norm ?_, Comps.norm ?_⟩
      · cases x with
        | none => trivial
        | product xs =>
          intro d hd
          obtain ⟨a, ha, rfl⟩ := List.mem_map.mp hd
          exact ih (h.2 a ha)
      · cases x with
        | none => trivial
        | product xs =>
          intro d hd
          obtain ⟨a, _, rfl⟩ := List.mem_map.mp hd
          exact lpArg_lpArg a
    | L x =>
      rw [lpArg_L]
      exact h

theorem nf_L {n : ℕ} {x : SubDemand} (h : Comps (NF n) x) : NF (n + 1) (L (norm (lpSub x))) := by
  have hx : NF (n + 1) (S (norm x)) := nf_S h
  refine ⟨norm_norm _, Comps.norm ?_, Comps.norm ?_⟩
  · cases x with
    | none => trivial
    | product xs =>
      intro d hd
      obtain ⟨a, ha, rfl⟩ := List.mem_map.mp hd
      exact nf_lpArg (h a ha)
  · cases x with
    | none => trivial
    | product xs =>
      intro d hd
      obtain ⟨a, _, rfl⟩ := List.mem_map.mp hd
      exact lpArg_lpArg a

/-! ### The clauses of lub -/

theorem lub_clauses (x y : SubDemand) :
    (lub (S x) (S y) = S (norm (comb lub x y)) ∧ lub (L x) (L y) = L (norm (lpSub (comb lub x y))) ∧
        lub (S x) (L y) = L (norm (lpSub (comb lub x y))) ∧
        lub (L x) (S y) = L (norm (lpSub (comb lub x y)))) ∧
      (lub absent absent = absent ∧ lub (S x) absent = L (norm (lpSub x)) ∧
        lub absent (S x) = L (norm (lpSub x)) ∧ lub (L x) absent = L (norm (lpSub x)) ∧
        lub absent (L x) = L (norm (lpSub x)) ∧ lub absent err = lazy ∧ lub err absent = lazy) ∧
      (lub (S x) err = S (norm (comb lub x .none)) ∧ lub err (S x) = S (norm (comb lub .none x)) ∧
        lub (L x) err = lazy ∧ lub err (L x) = lazy ∧ lub err err = err) ∧
      ∀ d, lub bottom d = d ∧ lub d bottom = d := by
  refine ⟨⟨?_, ?_, ?_, ?_⟩, ⟨?_, ?_, ?_, ?_, ?_, ?_, ?_⟩, ⟨?_, ?_, ?_, ?_, ?_⟩, ?_⟩
  · rw [lub,lubSub_eq,s_eq]
  · rw [lub,lubSub_eq,l_eq]
  · rw [lub,lubSub_eq,l_eq]
  · rw [lub,lubSub_eq,l_eq]
  · rw [lub]
  · rw [lub,l_eq]
  · rw [lub,l_eq]
  · rw [lub,l_eq]
  · rw [lub,l_eq]
  · unfold err
    rw [lub] <;> simp
  · unfold err
    rw [lub] <;> simp
  · unfold err
    rw [lub,lubSub_eq,s_eq]
  · unfold err
    rw [lub,lubSub_eq,s_eq]
  · unfold err
    rw [lub]
  · unfold err
    rw [lub]
  · unfold err
    rw [lub,lubSub_eq]
    rfl
  · intro d
    cases d <;> simp [lub]

theorem bottom_lub (d : Demand) : lub bottom d = d := ((lub_clauses .none .none).2.2.2 d).1

theorem lub_bottom (d : Demand) : lub d bottom = d := ((lub_clauses .none .none).2.2.2 d).2

theorem lub_S_S (x y : SubDemand) : lub (S x) (S y) = S (norm (comb lub x y)) := (lub_clauses x y).1.1

theorem lub_L_L (x y : SubDemand) : lub (L x) (L y) = L (norm (lpSub (comb lub x y))) :=
  (lub_clauses x y).1.2.1

theorem lub_S_L (x y : SubDemand) : lub (S x) (L y) = L (norm (lpSub (comb lub x y))) :=
  (lub_clauses x y).1.2.2.1

theorem lub_L_S (x y : SubDemand) : lub (L x) (S y) = L (norm (lpSub (comb lub x y))) :=
  (lub_clauses x y).1.2.2.2

theorem lub_absent_absent : lub absent absent = absent := (lub_clauses .none .none).2.1.1

theorem lub_S_absent (x : SubDemand) : lub (S x) absent = L (norm (lpSub x)) :=
  (lub_clauses x .none).2.1.2.1

theorem lub_absent_S (x : SubDemand) : lub absent (S x) = L (norm (lpSub x)) :=
  (lub_clauses x .none).2.1.2.2.1

theorem lub_L_absent (x : SubDemand) : lub (L x) absent = L (norm (lpSub x)) :=
  (lub_clauses x .none).2.1.2.2.2.1

theorem lub_absent_L (x : SubDemand) : lub absent (L x) = L (norm (lpSub x)) :=
  (lub_clauses x .none).2.1.2.2.2.2.1

theorem lub_absent_err : lub absent err = lazy := (lub_clauses .none .none).2.1.2.2.2.2.2.1

theorem lub_err_absent : lub err absent = lazy := (lub_clauses .none .none).2.1.2.2.2.2.2.2

theorem lub_S_err (x : SubDemand) : lub (S x) err = S (norm (comb lub x .none)) :=
  (lub_clauses x .none).2.2.1.1

theorem lub_err_S (x : SubDemand) : lub err (S x) = S (norm (comb lub .none x)) :=
  (lub_clauses x .none).2.2.1.2.1

theorem lub_L_err (x : SubDemand) : lub (L x) err = lazy := (lub_clauses x .none).2.2.1.2.2.1

theorem lub_err_L (x : SubDemand) : lub err (L x) = lazy := (lub_clauses x .none).2.2.1.2.2.2.1

theorem lub_err_err : lub err err = err := (lub_clauses .none .none).2.2.1.2.2.2.2

/-! ### lub on normal forms -/

/-- A lazy demand of a whole value is the greatest. -/
theorem lub_lazy {n : ℕ} {d : Demand} (h : NF n d) : lub lazy d = lazy ∧ lub d lazy = lazy := by
  induction n generalizing d with
  | zero =>
    cases d with
    | absent => exact ⟨lub_L_absent .none, lub_absent_L .none⟩
    | bottom => exact ⟨lub_bottom lazy, bottom_lub lazy⟩
    | error x =>
      have hx : x = .none := h
      rw [hx]
      exact ⟨lub_L_err .none, lub_err_L .none⟩
    | S x =>
      have hx : x = .none := h
      rw [hx]
      exact ⟨lub_L_S .none .none, lub_S_L .none .none⟩
    | L x =>
      have hx : x = .none := h
      rw [hx]
      exact ⟨lub_L_L .none .none, lub_L_L .none .none⟩
  | succ n ih =>
    have hleft : ∀ {x}, Comps (NF n) x → L (norm (lpSub (comb lub .none x))) = lazy := by
      intro x hx
      have hall : Comps (· = lazy) (comb lub .none x) := by
        cases x with
        | none => trivial
        | product xs =>
          rw [comb_none_left]
          intro d hd
          obtain ⟨a, ha, rfl⟩ := List.mem_map.mp hd
          exact (ih (hx a ha)).1
      rw [norm_lazy (lpSub_lazy hall)]
      rfl
    have hright : ∀ {x}, Comps (NF n) x → L (norm (lpSub (comb lub x .none))) = lazy := by
      intro x hx
      have hall : Comps (· = lazy) (comb lub x .none) := by
        cases x with
        | none => trivial
        | product xs =>
          rw [comb_none_right]
          intro d hd
          obtain ⟨a, ha, rfl⟩ := List.mem_map.mp hd
          exact (ih (hx a ha)).2
      rw [norm_lazy (lpSub_lazy hall)]
      rfl
    cases d with
    | absent => exact ⟨lub_L_absent .none, lub_absent_L .none⟩
    | bottom => exact ⟨lub_bottom lazy, bottom_lub lazy⟩
    | error x =>
      have hx : x = .none := h
      rw [hx]
      exact ⟨lub_L_err .none, lub_err_L .none⟩
    | S x => exact ⟨(lub_L_S .none x).trans (hleft h.2), (lub_S_L x .none).trans (hright h.2)⟩
    | L x => exact ⟨(lub_L_L .none x).trans (hleft h.2.1), (lub_L_L x .none).trans (hright h.2.1)⟩

/-- Two demands in normal form that are no products, or the products of which are one level lower. -/
theorem nf_cases {n : ℕ} {d : Demand} (h : NF (n + 1) d) :
    d = absent ∨ d = bottom ∨ d = err ∨ (∃ x, d = S x ∧ norm x = x ∧ Comps (NF n) x) ∨
      ∃ x, d = L x ∧ norm x = x ∧ Comps (NF n) x ∧ lpSub x = x := by
  cases d with
  | absent => exact Or.inl rfl
  | bottom => exact Or.inr (Or.inl rfl)
  | error x =>
    have hx : x = .none := h
    rw [hx]
    exact Or.inr (Or.inr (Or.inl rfl))
  | S x => exact Or.inr (Or.inr (Or.inr (Or.inl ⟨x, rfl, h.1, h.2⟩)))
  | L x =>
    refine Or.inr (Or.inr (Or.inr (Or.inr ⟨x, rfl, h.1, h.2.1, ?_⟩)))
    cases x with
    | none => rfl
    | product xs =>
      refine congrArg product ?_
      calc xs.map lpArg = xs.map id := List.map_congr_left h.2.2
        _ = xs := List.map_id xs

theorem comb_allLazy_left {n : ℕ} {x z : SubDemand} (hx : Comps (· = lazy) x) (hz : Comps (NF n) z) :
    Comps (· = lazy) (comb lub x z) := by
  refine hx.comb hz rfl (nf_lazy n) ?_
  intro a b ha hb
  rw [ha]
  exact (lub_lazy hb).1

theorem comb_allLazy_right {n : ℕ} {x z : SubDemand} (hx : Comps (NF n) x) (hz : Comps (· = lazy) z) :
    Comps (· = lazy) (comb lub x z) := by
  refine hx.comb hz (nf_lazy n) rfl ?_
  intro a b ha hb
  rw [hb]
  exact (lub_lazy ha).2

theorem strict_lub {n : ℕ} {x : SubDemand} (hx : Comps (NF n) x) :
    lub err (S x) = strict ∧ lub (S x) err = strict := by
  have hnone : Comps (· = lazy) .none := trivial
  rw [lub_err_S,lub_S_err,norm_lazy (comb_allLazy_left hnone hx),
    norm_lazy (comb_allLazy_right hx hnone)]
  exact ⟨rfl, rfl⟩

theorem nf_zero_cases {d : Demand} (h : NF 0 d) :
    d = absent ∨ d = bottom ∨ d = err ∨ d = strict ∨ d = lazy := by
  cases d with
  | absent => exact Or.inl rfl
  | bottom => exact Or.inr (Or.inl rfl)
  | error x =>
    have hx : x = .none := h
    rw [hx]
    exact Or.inr (Or.inr (Or.inl rfl))
  | S x =>
    have hx : x = .none := h
    rw [hx]
    exact Or.inr (Or.inr (Or.inr (Or.inl rfl)))
  | L x =>
    have hx : x = .none := h
    rw [hx]
    exact Or.inr (Or.inr (Or.inr (Or.inr rfl)))

theorem lub_strict_absent : lub strict absent = lazy := lub_S_absent .none

theorem lub_strict_strict : lub strict strict = strict := lub_S_S .none .none

theorem atoms_comm {a b : Demand}
    (ha : a = absent ∨ a = bottom ∨ a = err ∨ a = strict ∨ a = lazy)
    (hb : b = absent ∨ b = bottom ∨ b = err ∨ b = strict ∨ b = lazy) : lub a b = lub b a := by
  have hsa : lub absent strict = lub strict absent := (lub_absent_S .none).trans lub_strict_absent.symm
  have hse : lub err strict = lub strict err := (lub_err_S .none).trans (lub_S_err .none).symm
  have hea : lub err absent = lub absent err := lub_err_absent.trans lub_absent_err.symm
  have hlazy : ∀ {d}, NF 0 d → lub lazy d = lub d lazy :=
    fun h => (lub_lazy h).1.trans (lub_lazy h).2.symm
  have hbot : ∀ d, lub bottom d = lub d bottom := fun d => (bottom_lub d).trans (lub_bottom d).symm
  rcases ha with rfl | rfl | rfl | rfl | rfl
  · rcases hb with rfl | rfl | rfl | rfl | rfl
    · rfl
    · exact (hbot _).symm
    · exact hea.symm
    · exact hsa
    · exact (hlazy (nf_absent 0)).symm
  · exact hbot b
  · rcases hb with rfl | rfl | rfl | rfl | rfl
    · exact hea
    · exact (hbot _).symm
    · rfl
    · exact hse
    · exact (hlazy (nf_err 0)).symm
  · rcases hb with rfl | rfl | rfl | rfl | rfl
    · exact hsa.symm
    · exact (hbot _).symm
    · exact hse.symm
    · rfl
    · exact (hlazy (nf_strict 0)).symm
  · rcases hb with rfl | rfl | rfl | rfl | rfl
    · exact hlazy (nf_absent 0)
    · exact (hbot _).symm
    · exact hlazy (nf_err 0)
    · exact hlazy (nf_strict 0)
    · rfl

theorem lub_comm {n : ℕ} {a b : Demand} (ha : NF n a) (hb : NF n b) : lub a b = lub b a := by
  induction n generalizing a b with
  | zero => exact atoms_comm (nf_zero_cases ha) (nf_zero_cases hb)
  | succ n ih =>
    have hcomb : ∀ {x y}, Comps (NF n) x → Comps (NF n) y → comb lub x y = comb lub y x :=
      fun hx hy => comb_comm hx hy (nf_lazy n) fun a b => ih
    rcases nf_cases ha with rfl | rfl | rfl | ⟨x, rfl, hx, hcx⟩ | ⟨x, rfl, hx, hcx, hlx⟩
    · rcases nf_cases hb with rfl | rfl | rfl | ⟨y, rfl, hy, hcy⟩ | ⟨y, rfl, hy, hcy, hly⟩
      · rfl
      · rw [lub_bottom,bottom_lub]
      · rw [lub_absent_err,lub_err_absent]
      · rw [lub_absent_S,lub_S_absent]
      · rw [lub_absent_L,lub_L_absent]
    · rw [lub_bottom,bottom_lub]
    · rcases nf_cases hb with rfl | rfl | rfl | ⟨y, rfl, hy, hcy⟩ | ⟨y, rfl, hy, hcy, hly⟩
      · rw [lub_absent_err,lub_err_absent]
      · rw [lub_bottom,bottom_lub]
      · rfl
      · rw [(strict_lub hcy).1,(strict_lub hcy).2]
      · rw [lub_L_err,lub_err_L]
    · rcases nf_cases hb with rfl | rfl | rfl | ⟨y, rfl, hy, hcy⟩ | ⟨y, rfl, hy, hcy, hly⟩
      · rw [lub_absent_S,lub_S_absent]
      · rw [lub_bottom,bottom_lub]
      · rw [(strict_lub hcx).1,(strict_lub hcx).2]
      · rw [lub_S_S,lub_S_S,hcomb hcx hcy]
      · rw [lub_S_L,lub_L_S,hcomb hcx hcy]
    · rcases nf_cases hb with rfl | rfl | rfl | ⟨y, rfl, hy, hcy⟩ | ⟨y, rfl, hy, hcy, hly⟩
      · rw [lub_absent_L,lub_L_absent]
      · rw [lub_bottom,bottom_lub]
      · rw [lub_L_err,lub_err_L]
      · rw [lub_S_L,lub_L_S,hcomb hcx hcy]
      · rw [lub_L_L,lub_L_L,hcomb hcx hcy]

theorem nf_lub {n : ℕ} {a b : Demand} (ha : NF n a) (hb : NF n b) : NF n (lub a b) := by
  induction n generalizing a b with
  | zero =>
    rcases nf_zero_cases ha with rfl | rfl | rfl | rfl | rfl
    · rcases nf_zero_cases hb with rfl | rfl | rfl | rfl | rfl
      · exact lub_absent_absent.symm ▸ nf_absent 0
      · exact (lub_bottom absent).symm ▸ nf_absent 0
      · exact lub_absent_err ▸ nf_lazy 0
      · rw [lub_comm ha hb,lub_strict_absent]
        exact nf_lazy 0
      · rw [(lub_lazy ha).2]
        exact nf_lazy 0
    · rw [bottom_lub]
      exact hb
    · rcases nf_zero_cases hb with rfl | rfl | rfl | rfl | rfl
      · exact lub_err_absent ▸ nf_lazy 0
      · exact (lub_bottom err).symm ▸ nf_err 0
      · exact lub_err_err.symm ▸ nf_err 0
      · exact (lub_err_S .none).symm ▸ nf_strict 0
      · rw [(lub_lazy ha).2]
        exact nf_lazy 0
    · rcases nf_zero_cases hb with rfl | rfl | rfl | rfl | rfl
      · exact lub_strict_absent ▸ nf_lazy 0
      · exact (lub_bottom strict).symm ▸ nf_strict 0
      · exact (lub_S_err .none).symm ▸ nf_strict 0
      · exact lub_strict_strict.symm ▸ nf_strict 0
      · rw [(lub_lazy ha).2]
        exact nf_lazy 0
    · rw [(lub_lazy hb).1]
      exact nf_lazy 0
  | succ n ih =>
    have hcomb : ∀ {x y}, Comps (NF n) x → Comps (NF n) y → Comps (NF n) (comb lub x y) :=
      fun hx hy => hx.comb hy (nf_lazy n) (nf_lazy n) fun a b => ih
    rcases nf_cases ha with rfl | rfl | rfl | ⟨x, rfl, hx, hcx⟩ | ⟨x, rfl, hx, hcx, hlx⟩
    · rcases nf_cases hb with rfl | rfl | rfl | ⟨y, rfl, hy, hcy⟩ | ⟨y, rfl, hy, hcy, hly⟩
      · exact lub_absent_absent.symm ▸ nf_absent _
      · exact (lub_bottom absent).symm ▸ nf_absent _
      · exact lub_absent_err ▸ nf_lazy _
      · exact (lub_absent_S y).symm ▸ nf_L hcy
      · exact (lub_absent_L y).symm ▸ nf_L hcy
    · rw [bottom_lub]
      exact hb
    · rcases nf_cases hb with rfl | rfl | rfl | ⟨y, rfl, hy, hcy⟩ | ⟨y, rfl, hy, hcy, hly⟩
      · exact lub_err_absent ▸ nf_lazy _
      · exact (lub_bottom err).symm ▸ nf_err _
      · exact lub_err_err.symm ▸ nf_err _
      · exact (strict_lub hcy).1.symm ▸ nf_strict _
      · exact (lub_err_L y).symm ▸ nf_lazy _
    · rcases nf_cases hb with rfl | rfl | rfl | ⟨y, rfl, hy, hcy⟩ | ⟨y, rfl, hy, hcy, hly⟩
      · exact (lub_S_absent x).symm ▸ nf_L hcx
      · exact (lub_bottom (S x)).symm ▸ ha
      · exact (strict_lub hcx).2.symm ▸ nf_strict _
      · exact (lub_S_S x y).symm ▸ nf_S (hcomb hcx hcy)
      · exact (lub_S_L x y).symm ▸ nf_L (hcomb hcx hcy)
    · rcases nf_cases hb with rfl | rfl | rfl | ⟨y, rfl, hy, hcy⟩ | ⟨y, rfl, hy, hcy, hly⟩
      · exact (lub_L_absent x).symm ▸ nf_L hcx
      · exact (lub_bottom (L x)).symm ▸ ha
      · exact (lub_L_err x).symm ▸ nf_lazy _
      · exact (lub_L_S x y).symm ▸ nf_L (hcomb hcx hcy)
      · exact (lub_L_L x y).symm ▸ nf_L (hcomb hcx hcy)

/-- A lazy component is the component joined with the absent demand. -/
theorem lpArg_eq_lub {n : ℕ} {d : Demand} (h : NF (n + 1) d) : lpArg d = lub d absent := by
  rcases nf_cases h with rfl | rfl | rfl | ⟨x, rfl, hx, hcx⟩ | ⟨x, rfl, hx, hcx, hlx⟩
  · rw [lpArg_absent,lub_absent_absent]
  · rw [lpArg_bottom,bottom_lub]
  · rw [lpArg_err,lub_err_absent]
  · rw [lpArg_S,lub_S_absent]
  · rw [lpArg_L,lub_L_absent,hlx,hx]

theorem lub_self {n : ℕ} {d : Demand} (h : NF n d) : lub d d = d := by
  induction n generalizing d with
  | zero =>
    rcases nf_zero_cases h with rfl | rfl | rfl | rfl | rfl
    · exact lub_absent_absent
    · exact bottom_lub bottom
    · exact lub_err_err
    · exact lub_strict_strict
    · exact (lub_lazy (nf_lazy 0)).1
  | succ n ih =>
    have hcomb : ∀ {x}, Comps (NF n) x → comb lub x x = x := by
      intro x hx
      cases x with
      | none => rfl
      | product xs =>
        refine congrArg product ?_
        induction xs with
        | nil => rfl
        | cons a xs ihx =>
          rw [List.zipWith_cons_cons,ih (hx a List.mem_cons_self),
            ihx fun b hb => hx b (List.mem_cons_of_mem a hb)]
    rcases nf_cases h with rfl | rfl | rfl | ⟨x, rfl, hx, hcx⟩ | ⟨x, rfl, hx, hcx, hlx⟩
    · exact lub_absent_absent
    · exact bottom_lub bottom
    · exact lub_err_err
    · rw [lub_S_S,hcomb hcx,hx]
    · rw [lub_L_L,hcomb hcx,hlx,hx]

/-! ### Associativity -/

section assoc

variable {n : ℕ} {x y z : SubDemand}

/-- The components below a product that is put into normal form first. -/
theorem norm_comb_norm (hz : Comps (NF n) z) :
    norm (comb lub (norm x) z) = norm (comb lub x z) := by
  by_cases hl : Comps (· = lazy) x
  · rw [norm_lazy hl,norm_lazy (comb_allLazy_left (x := .none) trivial hz),
      norm_lazy (comb_allLazy_left hl hz)]
  · rw [norm_not_lazy hl]

theorem norm_lpSub_norm (x : SubDemand) : norm (lpSub (norm x)) = norm (lpSub x) := by
  by_cases hl : Comps (· = lazy) x
  · rw [norm_lazy hl,norm_lazy (lpSub_lazy hl)]
    rfl
  · rw [norm_not_lazy hl]

theorem norm_lpSub_comb_norm (hx : Comps (NF n) x) (hz : Comps (NF n) z) :
    norm (lpSub (comb lub (norm x) z)) = norm (lpSub (comb lub x z)) := by
  rw [← norm_lpSub_norm,norm_comb_norm hz,norm_lpSub_norm]

theorem lpSub_lpSub (x : SubDemand) : lpSub (lpSub x) = lpSub x := by
  cases x with
  | none => rfl
  | product xs =>
    refine congrArg product ?_
    rw [List.map_map]
    exact List.map_congr_left fun d _ => lpArg_lpArg d

theorem comps_lpSub (hx : Comps (NF n) x) : Comps (NF n) (lpSub x) := by
  cases x with
  | none => trivial
  | product xs =>
    intro d hd
    obtain ⟨a, ha, rfl⟩ := List.mem_map.mp hd
    exact nf_lpArg (hx a ha)

/-- The law on the components. -/
def AssocAt (n : ℕ) : Prop := ∀ a b c, NF n a → NF n b → NF n c → lub (lub a b) c = lub a (lub b c)

theorem lpArg_lub_lpArg (h : AssocAt n) {a b : Demand} (ha : NF n a) (hb : NF n b) :
    lpArg (lub (lpArg a) b) = lpArg (lub a b) := by
  have hA := nf_absent n
  have hab := nf_lub ha hb
  rw [lpArg_eq_lub (nf_succ ha),lpArg_eq_lub (nf_succ hab),
    lpArg_eq_lub (nf_succ (nf_lub (nf_lub ha hA) hb))]
  calc lub (lub (lub a absent) b) absent = lub (lub a (lub absent b)) absent := by rw [h a _ b ha hA hb]
    _ = lub (lub a (lub b absent)) absent := by rw [lub_comm hA hb]
    _ = lub (lub (lub a b) absent) absent := by rw [h a b _ ha hb hA]
    _ = lub (lub a b) (lub absent absent) := h _ _ _ hab hA hA
    _ = lub (lub a b) absent := by rw [lub_absent_absent]

theorem lpSub_comb_lpSub (h : AssocAt n) (hx : Comps (NF n) x) (hz : Comps (NF n) z) :
    lpSub (comb lub (lpSub x) z) = lpSub (comb lub x z) := by
  cases x with
  | none => rfl
  | product xs =>
    cases z with
    | none =>
      change lpSub (comb lub (product (xs.map lpArg)) .none) = _
      rw [comb_none_right,comb_none_right]
      refine congrArg product ?_
      rw [List.map_map,List.map_map,List.map_map]
      exact List.map_congr_left fun a ha => lpArg_lub_lpArg h (hx a ha) (nf_lazy n)
    | product zs =>
      change product ((List.zipWith lub (xs.map lpArg) zs).map lpArg) =
        product ((List.zipWith lub xs zs).map lpArg)
      rw [List.zipWith_map_left,List.map_zipWith,List.map_zipWith]
      have hzip : ∀ a b, NF n a → NF n b → lpArg (lub (lpArg a) b) = lpArg (lub a b) :=
        fun a b => lpArg_lub_lpArg h
      exact congrArg product (zipWith_congr_on hzip hx hz)

theorem lazy_comb_lazy (h : AssocAt n) (hx : Comps (NF n) x) (hz : Comps (NF n) z) :
    norm (lpSub (comb lub (norm (lpSub x)) z)) = norm (lpSub (comb lub x z)) := by
  rw [norm_lpSub_comb_norm (comps_lpSub hx) hz,lpSub_comb_lpSub h hx hz]

theorem comb_lub_comm (hx : Comps (NF n) x) (hy : Comps (NF n) y) : comb lub x y = comb lub y x :=
  comb_comm hx hy (nf_lazy n) fun _ _ => lub_comm

theorem comb_lub_assoc (h : AssocAt n) (hx : Comps (NF n) x) (hy : Comps (NF n) y)
    (hz : Comps (NF n) z) : comb lub (comb lub x y) z = comb lub x (comb lub y z) :=
  comb_assoc hx hy hz (nf_lazy n) (lub_self (nf_lazy n)) h

theorem comps_comb_lub (hx : Comps (NF n) x) (hy : Comps (NF n) y) : Comps (NF n) (comb lub x y) :=
  hx.comb hy (nf_lazy n) (nf_lazy n) fun _ _ => nf_lub

/-- The law with the special demand on the left gives it at every place. -/
theorem assoc_of_left {f : Demand → Demand → Demand} {P : Demand → Prop}
    (hcomm : ∀ {a b}, P a → P b → f a b = f b a) (hclosed : ∀ {a b}, P a → P b → P (f a b))
    {e : Demand} (he : P e) (h : ∀ b c, P b → P c → f (f e b) c = f e (f b c)) {a b : Demand}
    (ha : P a) (hb : P b) : f (f a e) b = f a (f e b) ∧ f (f a b) e = f a (f b e) := by
  constructor
  · calc f (f a e) b = f e (f a b) := by rw [hcomm ha he,h a b ha hb]
      _ = f e (f b a) := by rw [hcomm ha hb]
      _ = f (f e b) a := (h b a hb ha).symm
      _ = f a (f e b) := hcomm (hclosed he hb) ha
  · calc f (f a b) e = f e (f a b) := hcomm (hclosed ha hb) he
      _ = f e (f b a) := by rw [hcomm ha hb]
      _ = f (f e b) a := (h b a hb ha).symm
      _ = f a (f e b) := hcomm (hclosed he hb) ha
      _ = f a (f b e) := by rw [hcomm he hb]

theorem assoc_err {b c : Demand} (hb : NF (n + 1) b) (hc : NF (n + 1) c) :
    lub (lub err b) c = lub err (lub b c) := by
  have hlazy : lub lazy c = lazy := (lub_lazy hc).1
  rcases nf_cases hb with rfl | rfl | rfl | ⟨y, rfl, hy, hcy⟩ | ⟨y, rfl, hy, hcy, hly⟩
  · rw [lub_err_absent,hlazy]
    rcases nf_cases hc with rfl | rfl | rfl | ⟨z, rfl, hz, hcz⟩ | ⟨z, rfl, hz, hcz, hlz⟩
    · rw [lub_absent_absent,lub_err_absent]
    · rw [lub_bottom,lub_err_absent]
    · rw [lub_absent_err]
      exact (lub_err_L .none).symm
    · rw [lub_absent_S,lub_err_L]
    · rw [lub_absent_L,lub_err_L]
  · rw [lub_bottom,bottom_lub]
  · rw [lub_err_err]
    rcases nf_cases hc with rfl | rfl | rfl | ⟨z, rfl, hz, hcz⟩ | ⟨z, rfl, hz, hcz, hlz⟩
    · rw [lub_err_absent]
      exact (lub_err_L .none).symm
    · rw [lub_bottom,lub_err_err]
    · rw [lub_err_err,lub_err_err]
    · rw [(strict_lub hcz).1]
      exact (lub_err_S .none).symm
    · rw [lub_err_L]
      exact (lub_err_L .none).symm
  · rw [(strict_lub hcy).1]
    rcases nf_cases hc with rfl | rfl | rfl | ⟨z, rfl, hz, hcz⟩ | ⟨z, rfl, hz, hcz, hlz⟩
    · rw [lub_S_absent,lub_err_L]
      exact lub_S_absent .none
    · rw [lub_bottom,lub_bottom,(strict_lub hcy).1]
    · rw [(strict_lub hcy).2]
      exact (lub_S_err .none).trans (lub_err_S .none).symm
    · rw [lub_S_S,(strict_lub (comps_comb_lub hcy hcz).norm).1]
      refine (lub_S_S .none z).trans ?_
      rw [norm_lazy (comb_allLazy_left (x := .none) trivial hcz)]
      rfl
    · rw [lub_S_L,lub_err_L]
      refine (lub_S_L .none z).trans ?_
      rw [norm_lazy (lpSub_lazy (comb_allLazy_left (x := .none) trivial hcz))]
      rfl
  · rw [lub_err_L,hlazy]
    rcases nf_cases hc with rfl | rfl | rfl | ⟨z, rfl, hz, hcz⟩ | ⟨z, rfl, hz, hcz, hlz⟩
    · rw [lub_L_absent,lub_err_L]
    · rw [lub_bottom,lub_err_L]
    · rw [lub_L_err]
      exact (lub_err_L .none).symm
    · rw [lub_L_S,lub_err_L]
    · rw [lub_L_L,lub_err_L]

theorem comb_lazy (h : AssocAt n) (hx : Comps (NF n) x) (hz : Comps (NF n) z) :
    norm (lpSub (comb lub x (norm (lpSub z)))) = norm (lpSub (comb lub x z)) := by
  rw [comb_lub_comm hx (comps_lpSub hz).norm,lazy_comb_lazy h hz hx,comb_lub_comm hz hx]

theorem comb_norm (hx : Comps (NF n) x) (hz : Comps (NF n) z) :
    norm (comb lub x (norm z)) = norm (comb lub x z) := by
  rw [comb_lub_comm hx hz.norm,norm_comb_norm hx,comb_lub_comm hz hx]

theorem lpSub_comb_norm (hx : Comps (NF n) x) (hz : Comps (NF n) z) :
    norm (lpSub (comb lub x (norm z))) = norm (lpSub (comb lub x z)) := by
  rw [comb_lub_comm hx hz.norm,norm_lpSub_comb_norm hz hx,comb_lub_comm hz hx]

theorem lazy_twice (x : SubDemand) : norm (lpSub (norm (lpSub x))) = norm (lpSub x) := by
  rw [norm_lpSub_norm,lpSub_lpSub]

theorem assoc_absent (h : AssocAt n) {b c : Demand} (hb : NF (n + 1) b) (hc : NF (n + 1) c) :
    lub (lub absent b) c = lub absent (lub b c) := by
  have herr : ∀ {d e}, NF (n + 1) d → NF (n + 1) e → lub (lub d err) e = lub d (lub err e) :=
    fun hd he => (assoc_of_left (P := NF (n + 1)) lub_comm nf_lub (nf_err _) (fun _ _ => assoc_err) hd he).1
  rcases nf_cases hb with rfl | rfl | rfl | ⟨y, rfl, hy, hcy⟩ | ⟨y, rfl, hy, hcy, hly⟩
  · rw [lub_absent_absent]
    rcases nf_cases hc with rfl | rfl | rfl | ⟨z, rfl, hz, hcz⟩ | ⟨z, rfl, hz, hcz, hlz⟩
    · rw [lub_absent_absent,lub_absent_absent]
    · rw [lub_bottom,lub_absent_absent]
    · rw [lub_absent_err]
      exact (lub_absent_L .none).symm
    · rw [lub_absent_S,lub_absent_L,lazy_twice]
    · rw [lub_absent_L,lub_absent_L,lazy_twice]
  · rw [lub_bottom,bottom_lub]
  · exact herr (nf_absent _) hc
  · rw [lub_absent_S]
    rcases nf_cases hc with rfl | rfl | rfl | ⟨z, rfl, hz, hcz⟩ | ⟨z, rfl, hz, hcz, hlz⟩
    · rw [lub_L_absent,lub_S_absent,lub_absent_L]
    · rw [lub_bottom,lub_bottom,lub_absent_S]
    · rw [lub_L_err,(strict_lub hcy).2]
      exact (lub_absent_S .none).symm
    · rw [lub_L_S,lub_S_S,lub_absent_S,lazy_comb_lazy h hcy hcz,norm_lpSub_norm]
    · rw [lub_L_L,lub_S_L,lub_absent_L,lazy_comb_lazy h hcy hcz,lazy_twice]
  · rw [lub_absent_L]
    rcases nf_cases hc with rfl | rfl | rfl | ⟨z, rfl, hz, hcz⟩ | ⟨z, rfl, hz, hcz, hlz⟩
    · rw [lub_L_absent,lub_L_absent,lub_absent_L]
    · rw [lub_bottom,lub_bottom,lub_absent_L]
    · rw [lub_L_err,lub_L_err]
      exact (lub_absent_L .none).symm
    · rw [lub_L_S,lub_L_S,lub_absent_L,lazy_comb_lazy h hcy hcz,lazy_twice]
    · rw [lub_L_L,lub_L_L,lub_absent_L,lazy_comb_lazy h hcy hcz,lazy_twice]

/-- The law for demands that are strict or lazy. -/
theorem assoc_products (h : AssocAt n) (hx : Comps (NF n) x) (hy : Comps (NF n) y)
    (hz : Comps (NF n) z) {a b c : Demand} (ha : a = S x ∨ a = L x) (hb : b = S y ∨ b = L y)
    (hc : c = S z ∨ c = L z) : lub (lub a b) c = lub a (lub b c) := by
  have hassoc := comb_lub_assoc h hx hy hz
  have hxy := comps_comb_lub hx hy
  have hyz := comps_comb_lub hy hz
  have hstrict : norm (lpSub (comb lub (norm (comb lub x y)) z)) =
      norm (lpSub (comb lub (comb lub x y) z)) := norm_lpSub_comb_norm hxy hz
  have hstrict' : norm (lpSub (comb lub x (norm (comb lub y z)))) =
      norm (lpSub (comb lub x (comb lub y z))) := lpSub_comb_norm hx hyz
  have hlazy : norm (lpSub (comb lub (norm (lpSub (comb lub x y))) z)) =
      norm (lpSub (comb lub (comb lub x y) z)) := lazy_comb_lazy h hxy hz
  have hlazy' : norm (lpSub (comb lub x (norm (lpSub (comb lub y z))))) =
      norm (lpSub (comb lub x (comb lub y z))) := comb_lazy h hx hyz
  rcases ha with rfl | rfl
  · rcases hb with rfl | rfl
    · rcases hc with rfl | rfl
      · rw [lub_S_S,lub_S_S,lub_S_S,lub_S_S,norm_comb_norm hz,comb_norm hx hyz,hassoc]
      · rw [lub_S_S,lub_S_L,lub_S_L,lub_S_L,hstrict,hlazy',hassoc]
    · rcases hc with rfl | rfl
      · rw [lub_S_L,lub_L_S,lub_L_S,lub_S_L,hlazy,hlazy',hassoc]
      · rw [lub_S_L,lub_L_L,lub_L_L,lub_S_L,hlazy,hlazy',hassoc]
  · rcases hb with rfl | rfl
    · rcases hc with rfl | rfl
      · rw [lub_L_S,lub_L_S,lub_S_S,lub_L_S,hlazy,hstrict',hassoc]
      · rw [lub_L_S,lub_L_L,lub_S_L,lub_L_L,hlazy,hlazy',hassoc]
    · rcases hc with rfl | rfl
      · rw [lub_L_L,lub_L_S,lub_L_S,lub_L_L,hlazy,hlazy',hassoc]
      · rw [lub_L_L,lub_L_L,lub_L_L,lub_L_L,hlazy,hlazy',hassoc]

theorem assoc_succ (h : AssocAt n) : AssocAt (n + 1) := by
  intro a b c ha hb hc
  have herr : ∀ {d e}, NF (n + 1) d → NF (n + 1) e →
      lub (lub d err) e = lub d (lub err e) ∧ lub (lub d e) err = lub d (lub e err) :=
    fun hd he => assoc_of_left (P := NF (n + 1)) lub_comm nf_lub (nf_err _) (fun _ _ => assoc_err) hd he
  have habs : ∀ {d e}, NF (n + 1) d → NF (n + 1) e →
      lub (lub d absent) e = lub d (lub absent e) ∧ lub (lub d e) absent = lub d (lub e absent) :=
    fun hd he => assoc_of_left (P := NF (n + 1)) lub_comm nf_lub (nf_absent _) (fun _ _ => assoc_absent h) hd he
  rcases nf_cases ha with rfl | rfl | rfl | ⟨x, rfl, hx, hcx⟩ | ⟨x, rfl, hx, hcx, hlx⟩
  · exact assoc_absent h hb hc
  · rw [bottom_lub,bottom_lub]
  · exact assoc_err hb hc
  · rcases nf_cases hb with rfl | rfl | rfl | ⟨y, rfl, hy, hcy⟩ | ⟨y, rfl, hy, hcy, hly⟩
    · exact (habs ha hc).1
    · rw [lub_bottom,bottom_lub]
    · exact (herr ha hc).1
    · rcases nf_cases hc with rfl | rfl | rfl | ⟨z, rfl, hz, hcz⟩ | ⟨z, rfl, hz, hcz, hlz⟩
      · exact (habs ha hb).2
      · rw [lub_bottom,lub_bottom]
      · exact (herr ha hb).2
      · exact assoc_products h hcx hcy hcz (Or.inl rfl) (Or.inl rfl) (Or.inl rfl)
      · exact assoc_products h hcx hcy hcz (Or.inl rfl) (Or.inl rfl) (Or.inr rfl)
    · rcases nf_cases hc with rfl | rfl | rfl | ⟨z, rfl, hz, hcz⟩ | ⟨z, rfl, hz, hcz, hlz⟩
      · exact (habs ha hb).2
      · rw [lub_bottom,lub_bottom]
      · exact (herr ha hb).2
      · exact assoc_products h hcx hcy hcz (Or.inl rfl) (Or.inr rfl) (Or.inl rfl)
      · exact assoc_products h hcx hcy hcz (Or.inl rfl) (Or.inr rfl) (Or.inr rfl)
  · rcases nf_cases hb with rfl | rfl | rfl | ⟨y, rfl, hy, hcy⟩ | ⟨y, rfl, hy, hcy, hly⟩
    · exact (habs ha hc).1
    · rw [lub_bottom,bottom_lub]
    · exact (herr ha hc).1
    · rcases nf_cases hc with rfl | rfl | rfl | ⟨z, rfl, hz, hcz⟩ | ⟨z, rfl, hz, hcz, hlz⟩
      · exact (habs ha hb).2
      · rw [lub_bottom,lub_bottom]
      · exact (herr ha hb).2
      · exact assoc_products h hcx hcy hcz (Or.inr rfl) (Or.inl rfl) (Or.inl rfl)
      · exact assoc_products h hcx hcy hcz (Or.inr rfl) (Or.inl rfl) (Or.inr rfl)
    · rcases nf_cases hc with rfl | rfl | rfl | ⟨z, rfl, hz, hcz⟩ | ⟨z, rfl, hz, hcz, hlz⟩
      · exact (habs ha hb).2
      · rw [lub_bottom,lub_bottom]
      · exact (herr ha hb).2
      · exact assoc_products h hcx hcy hcz (Or.inr rfl) (Or.inr rfl) (Or.inl rfl)
      · exact assoc_products h hcx hcy hcz (Or.inr rfl) (Or.inr rfl) (Or.inr rfl)

end assoc

theorem assoc_zero : AssocAt 0 := by
  intro a b c ha hb hc
  have hsa : lub strict absent = lazy := lub_strict_absent
  have has : lub absent strict = lazy := lub_absent_S .none
  have hse : lub strict err = strict := lub_S_err .none
  have hes : lub err strict = strict := lub_err_S .none
  have hlazy := fun d (h : NF 0 d) => (lub_lazy h).1
  have hlazy' := fun d (h : NF 0 d) => (lub_lazy h).2
  rcases nf_zero_cases ha with rfl | rfl | rfl | rfl | rfl <;>
    rcases nf_zero_cases hb with rfl | rfl | rfl | rfl | rfl <;>
    rcases nf_zero_cases hc with rfl | rfl | rfl | rfl | rfl <;>
    simp only [bottom_lub,lub_bottom,lub_absent_absent,lub_absent_err,lub_err_absent,lub_err_err,
      lub_strict_strict,hsa,has,hse,hes,hlazy _ (nf_absent 0),hlazy _ (nf_err 0),
      hlazy _ (nf_strict 0),hlazy _ (nf_lazy 0),hlazy' _ (nf_absent 0),hlazy' _ (nf_err 0),
      hlazy' _ (nf_strict 0)]

theorem lub_assoc {n : ℕ} : AssocAt n := by
  induction n with
  | zero => exact assoc_zero
  | succ n ih => exact assoc_succ ih

end Jhc.E.Demand

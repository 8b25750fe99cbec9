import Jhc.E.DemandGlb

/-!
# Joining and combining the demands of the analysis (E/Demand.hs:128-182, 316-326)
-/

namespace Jhc.E
open SubDemand (product)

namespace Demand

/-! ### The demands of the analysis are in normal form -/

theorem nf_sp {n : ℕ} {xs : List Demand} (h : ∀ x ∈ xs, NF n x) : NF (n + 1) (sp xs) := by
  have hs : sp xs = S (norm (product xs)) := s_eq (product xs)
  rw [hs]
  exact nf_S h

theorem nf_lazify {n : ℕ} {d : Demand} (h : NF (n + 1) d) : NF (n + 1) (lazify d) := by
  rcases nf_cases h with rfl | rfl | rfl | ⟨x, rfl, hx, hcx⟩ | ⟨x, rfl, hx, hcx, hlx⟩
  · exact nf_absent _
  · exact nf_absent _
  · exact nf_lazy _
  · change NF (n + 1) (l x)
    rw [l_eq]
    exact nf_L hcx
  · change NF (n + 1) (l x)
    rw [l_eq]
    exact nf_L hcx

/-- A depth for all the demands of a list. -/
theorem nf_list {xs : List Demand} (h : ∀ x ∈ xs, ∃ n, NF n x) : ∃ n, ∀ x ∈ xs, NF n x := by
  induction xs with
  | nil => exact ⟨0, fun x hx => absurd hx List.not_mem_nil⟩
  | cons x xs ih =>
    obtain ⟨n, hn⟩ := h x List.mem_cons_self
    obtain ⟨m, hm⟩ := ih fun y hy => h y (List.mem_cons_of_mem x hy)
    refine ⟨max n m, ?_⟩
    intro y hy
    rcases List.mem_cons.mp hy with rfl | hy
    · exact nf_le hn (le_max_left n m)
    · exact nf_le (hm y hy) (le_max_right n m)

theorem nf_two {a b : Demand} (ha : ∃ n, NF n a) (hb : ∃ n, NF n b) : ∃ n, NF n a ∧ NF n b := by
  obtain ⟨n, hn⟩ := ha
  obtain ⟨m, hm⟩ := hb
  exact ⟨max n m, nf_le hn (le_max_left n m), nf_le hm (le_max_right n m)⟩

theorem nf_three {a b c : Demand} (ha : ∃ n, NF n a) (hb : ∃ n, NF n b) (hc : ∃ n, NF n c) :
    ∃ n, NF n a ∧ NF n b ∧ NF n c := by
  obtain ⟨n, hna, hnb⟩ := nf_two ha hb
  obtain ⟨m, hm⟩ := hc
  exact ⟨max n m, nf_le hna (le_max_left n m), nf_le hnb (le_max_left n m), nf_le hm (le_max_right n m)⟩

theorem Built.nf {d : Demand} (h : Built d) : ∃ n, NF n d := by
  induction h with
  | absent => exact ⟨0, nf_absent 0⟩
  | bottom => exact ⟨0, nf_bottom 0⟩
  | lazy => exact ⟨0, nf_lazy 0⟩
  | strict => exact ⟨0, nf_strict 0⟩
  | err => exact ⟨0, nf_err 0⟩
  | sp _ ih =>
    obtain ⟨n, hn⟩ := nf_list ih
    exact ⟨n + 1, nf_sp hn⟩
  | lub _ _ iha ihb =>
    obtain ⟨n, ha, hb⟩ := nf_two iha ihb
    exact ⟨n, nf_lub ha hb⟩
  | glb _ _ iha ihb =>
    obtain ⟨n, ha, hb⟩ := nf_two iha ihb
    exact ⟨n, nf_glb ha hb⟩
  | lazify _ ih =>
    obtain ⟨n, hn⟩ := ih
    exact ⟨n + 1, nf_lazify (nf_succ hn)⟩
  | strictComponent _ hd ih =>
    obtain ⟨n, hn⟩ := ih
    exact ⟨n, (nf_succ hn).2 _ hd⟩
  | lazyComponent _ hd ih =>
    obtain ⟨n, hn⟩ := ih
    exact ⟨n, (nf_succ hn).2.1 _ hd⟩

section lub

variable {a b c : Demand}

theorem Built.lub_comm (ha : Built a) (hb : Built b) : Demand.lub a b = Demand.lub b a := by
  obtain ⟨n, hna, hnb⟩ := nf_two ha.nf hb.nf
  exact Demand.lub_comm hna hnb

theorem Built.lub_assoc (ha : Built a) (hb : Built b) (hc : Built c) :
    Demand.lub (Demand.lub a b) c = Demand.lub a (Demand.lub b c) := by
  obtain ⟨n, hna, hnb, hnc⟩ := nf_three ha.nf hb.nf hc.nf
  exact Demand.lub_assoc a b c hna hnb hnc

theorem Built.lub_self (ha : Built a) : Demand.lub a a = a := by
  obtain ⟨n, hna⟩ := ha.nf
  exact Demand.lub_self hna

theorem Built.below_lub (ha : Built a) (hb : Built b) : Below a (Demand.lub a b) := by
  unfold Below
  rw [← Built.lub_assoc ha ha hb,Built.lub_self ha]

theorem Built.lub_below (ha : Built a) (hb : Built b) (hc : Built c) (hac : Below a c) (hbc : Below b c) :
    Below (Demand.lub a b) c := by
  unfold Below at hac hbc ⊢
  rw [Built.lub_assoc ha hb hc,hbc,hac]

theorem Built.lub_mono (ha : Built a) (hb : Built b) (hc : Built c) (h : Below a b) :
    Below (Demand.lub a c) (Demand.lub b c) := by
  have hbelow : Below a (Demand.lub b c) := by
    unfold Below at h ⊢
    rw [← Built.lub_assoc ha hb hc,h]
  have hc' : Below c (Demand.lub b c) := by
    rw [Built.lub_comm hb hc]
    exact Built.below_lub hc hb
  exact Built.lub_below ha hc (Built.lub hb hc) hbelow hc'

theorem Built.glb_comm (ha : Built a) (hb : Built b) : Demand.glb a b = Demand.glb b a := by
  obtain ⟨n, hna, hnb⟩ := nf_two ha.nf hb.nf
  exact Demand.glb_comm hna hnb

theorem Built.glb_self (ha : Built a) : Demand.glb a a = a := by
  obtain ⟨n, hna⟩ := ha.nf
  exact Demand.glb_self hna

end lub

/-! ### Demands on the values of one type -/

/-- The products have the lengths that the type gives to the paths; `ar p` is the number of
components at the path `p`. -/
inductive Shaped : (List ℕ → ℕ) → Demand → Prop where
  | absent (ar) : Shaped ar absent
  | bottom (ar) : Shaped ar bottom
  | error (ar) : Shaped ar (error .none)
  | strict (ar) : Shaped ar (S .none)
  | lazy (ar) : Shaped ar (L .none)
  | strictProduct {ar : List ℕ → ℕ} {xs : List Demand} (hl : xs.length = ar [])
      (h : ∀ i < xs.length, Shaped (fun p => ar (i :: p)) (xs.getD i Demand.lazy)) :
      Shaped ar (S (product xs))
  | lazyProduct {ar : List ℕ → ℕ} {xs : List Demand} (hl : xs.length = ar [])
      (h : ∀ i < xs.length, Shaped (fun p => ar (i :: p)) (xs.getD i Demand.lazy)) :
      Shaped ar (L (product xs))

/-- Neither the demand nor a component diverges. -/
inductive Converging : Demand → Prop where
  | absent : Converging absent
  | strict : Converging (S .none)
  | lazy : Converging (L .none)
  | strictProduct {xs : List Demand} (h : ∀ x ∈ xs, Converging x) : Converging (S (product xs))
  | lazyProduct {xs : List Demand} (h : ∀ x ∈ xs, Converging x) : Converging (L (product xs))

theorem Comps.get {P : Demand → Prop} {k i : ℕ} {xs : List Demand} (h : Comps P (product xs))
    (hx : Len k (product xs)) (hi : i < k) : P (get (product xs) i) := by
  have hlen : xs.length = k := hx
  change P (xs.getD i lazy)
  rw [List.getD_eq_getElem?_getD,List.getElem?_eq_getElem (by omega)]
  exact h _ (List.getElem_mem _)

theorem toSub_lazy (k : ℕ) : toSub k (fun _ => lazy) = .none := by
  refine norm_lazy ?_
  intro d hd
  obtain ⟨i, _, rfl⟩ := List.mem_map.mp hd
  rfl

theorem typed_lazy (n : ℕ) (ar : List ℕ → ℕ) : Typed n ar lazy := by
  induction n generalizing ar with
  | zero => rfl
  | succ n ih => exact ⟨fun _ => lazy, (toSub_lazy _).symm, fun i _ => ⟨ih _, lpArg_L .none⟩⟩

theorem typed_strict (n : ℕ) (ar : List ℕ → ℕ) : Typed n ar strict := by
  cases n with
  | zero => rfl
  | succ n => exact ⟨fun _ => lazy, (toSub_lazy _).symm, fun i _ => typed_lazy n _⟩

theorem Shaped.typed {n : ℕ} {ar : List ℕ → ℕ} {d : Demand} (h : Shaped ar d) (hn : NF n d) :
    Typed n ar d := by
  induction n generalizing ar d with
  | zero => exact typed_zero_iff.mpr hn
  | succ n ih =>
    cases h with
    | absent => trivial
    | bottom => trivial
    | error => rfl
    | strict => exact typed_strict _ ar
    | lazy => exact typed_lazy _ ar
    | strictProduct hl hx =>
      rename_i xs
      have hlen : Len (ar []) (product xs) := hl
      refine ⟨Demand.get (product xs), ?_, ?_⟩
      · rw [← norm_eq_toSub hlen]
        exact hn.1.symm
      · intro i hi
        exact ih (hx i (by omega)) (hn.2.get hlen hi)
    | lazyProduct hl hx =>
      rename_i xs
      have hlen : Len (ar []) (product xs) := hl
      refine ⟨Demand.get (product xs), ?_, ?_⟩
      · rw [← norm_eq_toSub hlen]
        exact hn.1.symm
      · intro i hi
        exact ⟨ih (hx i (by omega)) (hn.2.1.get hlen hi), hn.2.2.get hlen hi⟩

theorem Converging.live {n : ℕ} {d : Demand} (h : Converging d) (hn : NF n d) : Live n d := by
  induction n generalizing d with
  | zero =>
    cases h with
    | absent => trivial
    | strict => rfl
    | lazy => rfl
    | strictProduct hx => cases hn
    | lazyProduct hx => cases hn
  | succ n ih =>
    cases h with
    | absent => trivial
    | strict => trivial
    | lazy => trivial
    | strictProduct hx => exact fun x hm => ih (hx x hm) (hn.2 x hm)
    | lazyProduct hx => exact fun x hm => ih (hx x hm) (hn.2.1 x hm)

theorem Built.glb_assoc {ar : List ℕ → ℕ} {a b c : Demand} (ha : Built a) (hb : Built b) (hc : Built c)
    (sa : Shaped ar a) (sb : Shaped ar b) (sc : Shaped ar c) :
    Demand.glb (Demand.glb a b) c = Demand.glb a (Demand.glb b c) := by
  obtain ⟨n, hna, hnb, hnc⟩ := nf_three ha.nf hb.nf hc.nf
  exact Demand.glb_assoc (sa.typed hna) (sb.typed hnb) (sc.typed hnc)

theorem Built.glb_mono {ar : List ℕ → ℕ} {a b c : Demand} (ha : Built a) (hb : Built b) (hc : Built c)
    (sa : Shaped ar a) (sb : Shaped ar b) (sc : Shaped ar c) (ca : Converging a) (cb : Converging b)
    (cc : Converging c) (h : Below a b) : Below (Demand.glb a c) (Demand.glb b c) := by
  obtain ⟨n, hna, hnb, hnc⟩ := nf_three ha.nf hb.nf hc.nf
  exact glb_below (sa.typed hna) (sb.typed hnb) (sc.typed hnc) (ca.live hna) (cb.live hnb) (cc.live hnc) h

end Demand

/-! ### The demand type of a case -/

namespace DemandType
open Demand

theorem getD_built {ts : List Demand} (h : ∀ d ∈ ts, Demand.Built d) (i : ℕ) :
    Demand.Built (ts.getD i Demand.lazy) := by
  rw [List.getD_eq_getElem?_getD]
  by_cases hi : i < ts.length
  · rw [List.getElem?_eq_getElem hi]
    exact h _ (List.getElem_mem _)
  · rw [List.getElem?_eq_none (by omega)]
    exact Demand.Built.lazy

/-- The arguments at each place, where both lists go on with lazy demands. -/
theorem combineArgs_eq (f : Demand → Demand → Demand) (ts ts' : List Demand) :
    combineArgs f ts ts' = (List.range (max ts.length ts'.length)).map fun i =>
      f (ts.getD i Demand.lazy) (ts'.getD i Demand.lazy) := by
  unfold combineArgs
  split
  · rename_i hlt
    refine List.ext_getElem (by simp; omega) ?_
    intro i h₁ h₂
    have hi : i < ts'.length := by
      simp at h₂
      omega
    by_cases hit : i < ts.length
    · simp [hit,hi]
    · simp [List.getElem_append,hit,hi]
  · rename_i hlt
    refine List.ext_getElem (by simp; omega) ?_
    intro i h₁ h₂
    have hi : i < ts.length := by
      simp at h₂
      omega
    by_cases hit : i < ts'.length
    · simp [hit,hi]
    · simp [List.getElem_append,hit,hi]

theorem getD_combineArgs {f : Demand → Demand → Demand} (hf : f Demand.lazy Demand.lazy = Demand.lazy)
    (ts ts' : List Demand) (i : ℕ) : (combineArgs f ts ts').getD i Demand.lazy =
      f (ts.getD i Demand.lazy) (ts'.getD i Demand.lazy) := by
  rw [combineArgs_eq]
  by_cases hi : i < max ts.length ts'.length
  · simp [hi]
  · have h₁ : ts.length ≤ i := by omega
    have h₂ : ts'.length ≤ i := by omega
    simp [h₁,h₂,hf]

theorem length_combineArgs (f : Demand → Demand → Demand) (ts ts' : List Demand) :
    (combineArgs f ts ts').length = max ts.length ts'.length := by
  rw [combineArgs_eq,List.length_map,List.length_range]

theorem lenv_lub (x : Id) (d₁ d₂ : DemandEnv) :
    lenv x (d₁.lub d₂) = Demand.lub (lenv x d₁) (lenv x d₂) := by
  unfold DemandEnv.lub DemandEnv.combine
  by_cases h : (d₁.map x).isSome || (d₂.map x).isSome
  · simp [lenv,h]
  · have h₁ : d₁.map x = none := by
      cases hm : d₁.map x with
      | none => rfl
      | some d => simp [hm] at h
    have h₂ : d₂.map x = none := by
      cases hm : d₂.map x with
      | none => rfl
      | some d => simp [hm] at h
    simp [lenv,h₁,h₂]

/-- Two environments with the same entries. -/
theorem env_ext {d₁ d₂ : DemandEnv} (hdom : ∀ x, (d₁.map x).isSome = (d₂.map x).isSome)
    (hl : ∀ x, lenv x d₁ = lenv x d₂) (hr : d₁.rest = d₂.rest) : d₁ = d₂ := by
  cases d₁ with
  | mk m₁ r₁ =>
    cases d₂ with
    | mk m₂ r₂ =>
      have hm : m₁ = m₂ := by
        funext x
        have hx := hl x
        have hd := hdom x
        unfold lenv at hx
        dsimp only at hx hd
        cases h₁ : m₁ x with
        | none =>
          rw [h₁] at hd
          cases h₂ : m₂ x with
          | none => rfl
          | some d => simp [h₂] at hd
        | some d =>
          rw [h₁] at hd hx
          cases h₂ : m₂ x with
          | none => simp [h₂] at hd
          | some e =>
            rw [h₂] at hx
            exact congrArg some hx
      dsimp only at hr
      rw [hm,hr]

theorem isSome_lub (x : Id) (d₁ d₂ : DemandEnv) :
    ((d₁.lub d₂).map x).isSome = ((d₁.map x).isSome || (d₂.map x).isSome) := by
  unfold DemandEnv.lub DemandEnv.combine
  by_cases h : (d₁.map x).isSome || (d₂.map x).isSome
  · simp [h]
  · simp [h]

theorem ext {t t' : DemandType} (he : t.env = t'.env) (ha : t.args = t'.args) : t = t' := by
  cases t
  cases t'
  dsimp only at he ha
  rw [he,ha]

theorem args_ext {ts ts' : List Demand} (hl : ts.length = ts'.length)
    (h : ∀ i, ts.getD i Demand.lazy = ts'.getD i Demand.lazy) : ts = ts' := by
  refine List.ext_getElem hl ?_
  intro i h₁ h₂
  have hi := h i
  simpa [h₁,h₂] using hi

theorem Built.lenv {t : DemandType} (h : t.Built) (x : Id) : Demand.Built (lenv x t.env) := by
  unfold Jhc.E.lenv
  cases hm : t.env.map x with
  | none => exact h.rest
  | some d => exact h.map x d hm

theorem Built.lub {t t' : DemandType} (h : t.Built) (h' : t'.Built) : (t.lub t').Built := by
  constructor
  · intro x d hd
    have hl := lenv_lub x t.env t'.env
    change (t.env.lub t'.env).map x = some d at hd
    unfold Jhc.E.lenv at hl
    rw [hd] at hl
    have hb := Demand.Built.lub (h.lenv x) (h'.lenv x)
    change d = _ at hl
    rw [hl]
    exact hb
  · exact Demand.Built.lub h.rest h'.rest
  · intro d hd
    change d ∈ combineArgs Demand.lub t.args t'.args at hd
    rw [combineArgs_eq] at hd
    obtain ⟨i, _, rfl⟩ := List.mem_map.mp hd
    exact Demand.Built.lub (getD_built h.args i) (getD_built h'.args i)

section lub

variable {t t' t'' : DemandType}

theorem lub_comm (h : t.Built) (h' : t'.Built) : t.lub t' = t'.lub t := by
  refine ext (env_ext ?_ ?_ ?_) (args_ext ?_ ?_)
  · intro x
    exact (isSome_lub x t.env t'.env).trans ((Bool.or_comm _ _).trans (isSome_lub x t'.env t.env).symm)
  · intro x
    exact (lenv_lub x t.env t'.env).trans
      ((Demand.Built.lub_comm (h.lenv x) (h'.lenv x)).trans (lenv_lub x t'.env t.env).symm)
  · exact Demand.Built.lub_comm h.rest h'.rest
  · exact (length_combineArgs _ t.args t'.args).trans
      ((max_comm _ _).trans (length_combineArgs _ t'.args t.args).symm)
  · intro i
    exact (getD_combineArgs lub_lazy_lazy t.args t'.args i).trans
      ((Demand.Built.lub_comm (getD_built h.args i) (getD_built h'.args i)).trans
        (getD_combineArgs lub_lazy_lazy t'.args t.args i).symm)

theorem lub_assoc (h : t.Built) (h' : t'.Built) (h'' : t''.Built) :
    (t.lub t').lub t'' = t.lub (t'.lub t'') := by
  refine ext (env_ext ?_ ?_ ?_) (args_ext ?_ ?_)
  · intro x
    change (((t.env.lub t'.env).lub t''.env).map x).isSome = ((t.env.lub (t'.env.lub t''.env)).map x).isSome
    rw [isSome_lub,isSome_lub,isSome_lub,isSome_lub,Bool.or_assoc]
  · intro x
    change lenv x ((t.env.lub t'.env).lub t''.env) = lenv x (t.env.lub (t'.env.lub t''.env))
    rw [lenv_lub,lenv_lub,lenv_lub,lenv_lub]
    exact Demand.Built.lub_assoc (h.lenv x) (h'.lenv x) (h''.lenv x)
  · exact Demand.Built.lub_assoc h.rest h'.rest h''.rest
  · change (combineArgs _ (combineArgs _ t.args t'.args) t''.args).length =
      (combineArgs _ t.args (combineArgs _ t'.args t''.args)).length
    rw [length_combineArgs,length_combineArgs,length_combineArgs,length_combineArgs,max_assoc]
  · intro i
    change (combineArgs _ (combineArgs _ t.args t'.args) t''.args).getD i Demand.lazy =
      (combineArgs _ t.args (combineArgs _ t'.args t''.args)).getD i Demand.lazy
    rw [getD_combineArgs lub_lazy_lazy,getD_combineArgs lub_lazy_lazy,getD_combineArgs lub_lazy_lazy,
      getD_combineArgs lub_lazy_lazy]
    exact Demand.Built.lub_assoc (getD_built h.args i) (getD_built h'.args i) (getD_built h''.args i)

theorem lub_self (h : t.Built) : t.lub t = t := by
  refine ext (env_ext ?_ ?_ ?_) (args_ext ?_ ?_)
  · intro x
    exact (isSome_lub x t.env t.env).trans (Bool.or_self _)
  · intro x
    exact (lenv_lub x t.env t.env).trans (Demand.Built.lub_self (h.lenv x))
  · exact Demand.Built.lub_self h.rest
  · exact (length_combineArgs _ t.args t.args).trans (max_self _)
  · intro i
    exact (getD_combineArgs lub_lazy_lazy t.args t.args i).trans
      (Demand.Built.lub_self (getD_built h.args i))

end lub

/-! `foldr1 lub` -/

theorem foldr1_cons (f : DemandType → DemandType → DemandType) (t : DemandType) {ts : List DemandType}
    (h : ts ≠ []) : foldr1 f (t :: ts) = (foldr1 f ts).map (f t) := by
  cases ts with
  | nil => exact absurd rfl h
  | cons u us => rfl

theorem foldr1_built {ts : List DemandType} (h : ∀ t ∈ ts, t.Built) {r : DemandType}
    (hr : foldr1 lub ts = some r) : r.Built := by
  induction ts generalizing r with
  | nil => cases hr
  | cons t ts ih =>
    cases ts with
    | nil =>
      cases hr
      exact h _ List.mem_cons_self
    | cons u us =>
      rw [foldr1_cons lub t (List.cons_ne_nil u us)] at hr
      obtain ⟨r', hr', rfl⟩ := Option.map_eq_some_iff.mp hr
      exact Built.lub (h t List.mem_cons_self) (ih (fun v hv => h v (List.mem_cons_of_mem t hv)) hr')

theorem foldr1_some {ts : List DemandType} (h : ts ≠ []) (f : DemandType → DemandType → DemandType) :
    ∃ r, foldr1 f ts = some r := by
  induction ts with
  | nil => exact absurd rfl h
  | cons t ts ih =>
    cases ts with
    | nil => exact ⟨t, rfl⟩
    | cons u us =>
      obtain ⟨r, hr⟩ := ih (List.cons_ne_nil u us)
      exact ⟨f t r, by rw [foldr1_cons f t (List.cons_ne_nil u us),hr,Option.map_some]⟩

/-- Two groups of alternatives join like all of them. -/
theorem foldr1_append {ts us : List DemandType} (ht : ∀ t ∈ ts, t.Built) (hu : ∀ t ∈ us, t.Built)
    {r s : DemandType} (hr : foldr1 lub ts = some r) (hs : foldr1 lub us = some s) :
    foldr1 lub (ts ++ us) = some (r.lub s) := by
  induction ts generalizing r with
  | nil => cases hr
  | cons t ts ih =>
    have hus : us ≠ [] := by
      intro he
      rw [he] at hs
      cases hs
    cases ts with
    | nil =>
      cases hr
      rw [List.singleton_append,foldr1_cons lub _ hus,hs,Option.map_some]
    | cons v vs =>
      rw [foldr1_cons lub t (List.cons_ne_nil v vs)] at hr
      obtain ⟨r', hr', rfl⟩ := Option.map_eq_some_iff.mp hr
      have htail : ∀ w ∈ v :: vs, w.Built := fun w hw => ht w (List.mem_cons_of_mem t hw)
      have hne : (v :: vs) ++ us ≠ [] := by simp
      rw [List.cons_append,foldr1_cons lub t hne,ih htail hr',Option.map_some,
        lub_assoc (ht t List.mem_cons_self) (foldr1_built htail hr') (foldr1_built hu hs)]

theorem foldr1_perm {ts us : List DemandType} (h : ts.Perm us) (ht : ∀ t ∈ ts, t.Built) :
    foldr1 lub ts = foldr1 lub us := by
  induction h with
  | nil => rfl
  | cons t hp ih =>
    rename_i l₁ l₂
    have htail := ih fun v hv => ht v (List.mem_cons_of_mem t hv)
    cases l₁ with
    | nil =>
      rw [hp.symm.eq_nil]
    | cons v vs =>
      have hne : l₂ ≠ [] := by
        intro he
        rw [he] at hp
        exact absurd hp.eq_nil (List.cons_ne_nil v vs)
      rw [foldr1_cons lub t (List.cons_ne_nil v vs),foldr1_cons lub t hne,htail]
  | swap t u l =>
    have hbt := ht t (List.mem_cons_of_mem u List.mem_cons_self)
    have hbu := ht u List.mem_cons_self
    cases l with
    | nil => exact congrArg some (lub_comm hbu hbt)
    | cons v vs =>
      have hvs : ∀ w ∈ v :: vs, w.Built :=
        fun w hw => ht w (List.mem_cons_of_mem u (List.mem_cons_of_mem t hw))
      obtain ⟨r, hr⟩ := foldr1_some (List.cons_ne_nil v vs) lub
      have hbr := foldr1_built hvs hr
      rw [foldr1_cons lub u (List.cons_ne_nil t _),foldr1_cons lub t (List.cons_ne_nil v vs),
        foldr1_cons lub t (List.cons_ne_nil u _),foldr1_cons lub u (List.cons_ne_nil v vs),hr]
      refine congrArg some ?_
      calc u.lub (t.lub r) = (u.lub t).lub r := (lub_assoc hbu hbt hbr).symm
        _ = (t.lub u).lub r := by rw [lub_comm hbu hbt]
        _ = t.lub (u.lub r) := lub_assoc hbt hbu hbr
  | trans hp _ ih₁ ih₂ =>
    rw [ih₁ ht]
    exact ih₂ fun t hm => ht t (hp.mem_iff.mpr hm)

/-- The type of an alternative is below that of the case. -/
theorem lub_foldr1 {ts : List DemandType} (h : ∀ t ∈ ts, t.Built) {r t : DemandType}
    (hr : foldr1 lub ts = some r) (ht : t ∈ ts) : t.lub r = r := by
  have hself : ∀ {us : List DemandType}, (∀ u ∈ us, u.Built) → ∀ {s}, foldr1 lub (t :: us) = some s →
      t.Built → t.lub s = s := by
    intro us hus s hs hbt
    cases us with
    | nil =>
      cases hs
      exact lub_self hbt
    | cons u us =>
      rw [foldr1_cons lub t (List.cons_ne_nil u us)] at hs
      obtain ⟨s', hs', rfl⟩ := Option.map_eq_some_iff.mp hs
      rw [← lub_assoc hbt hbt (foldr1_built hus hs'),lub_self hbt]
  obtain ⟨us, vs, rfl⟩ := List.append_of_mem ht
  have hp : (us ++ t :: vs).Perm (t :: (us ++ vs)) := List.perm_middle
  rw [foldr1_perm hp h] at hr
  refine hself ?_ hr (h t ht)
  intro u hu
  exact h u (hp.mem_iff.mpr (List.mem_cons_of_mem t hu))

end DemandType

/-! ### The laws -/

open Demand

/-- lub joins: it is commutative, associative, idempotent, the least upper bound in its order and
monotone. glb is commutative and idempotent; on the demands of one type it is associative, and
monotone where nothing diverges. The type of a case is that of its alternatives in any order and
grouping, and none of them is above it. -/
theorem demand_laws :
    ((∀ a b, Built a → Built b → Demand.lub a b = Demand.lub b a) ∧
      (∀ a b c, Built a → Built b → Built c →
        Demand.lub (Demand.lub a b) c = Demand.lub a (Demand.lub b c)) ∧
      (∀ a, Built a → Demand.lub a a = a) ∧
      (∀ a b c, Built a → Built b → Built c → (Below (Demand.lub a b) c ↔ Below a c ∧ Below b c)) ∧
      ∀ a b c, Built a → Built b → Built c → Below a b → Below (Demand.lub a c) (Demand.lub b c)) ∧
    ((∀ a b, Built a → Built b → Demand.glb a b = Demand.glb b a) ∧
      (∀ a, Built a → Demand.glb a a = a) ∧
      (∀ ar a b c, Built a → Built b → Built c → Shaped ar a → Shaped ar b → Shaped ar c →
        Demand.glb (Demand.glb a b) c = Demand.glb a (Demand.glb b c)) ∧
      ∀ ar a b c, Built a → Built b → Built c → Shaped ar a → Shaped ar b → Shaped ar c →
        Converging a → Converging b → Converging c → Below a b →
        Below (Demand.glb a c) (Demand.glb b c)) ∧
    (∀ ts us, (∀ t ∈ ts, DemandType.Built t) → ts.Perm us →
      DemandType.foldr1 DemandType.lub ts = DemandType.foldr1 DemandType.lub us) ∧
    (∀ ts us r s, (∀ t ∈ ts, DemandType.Built t) → (∀ t ∈ us, DemandType.Built t) →
      DemandType.foldr1 DemandType.lub ts = some r → DemandType.foldr1 DemandType.lub us = some s →
      DemandType.foldr1 DemandType.lub (ts ++ us) = some (r.lub s)) ∧
    ∀ ts r t, (∀ t ∈ ts, DemandType.Built t) → DemandType.foldr1 DemandType.lub ts = some r → t ∈ ts →
      t.lub r = r := by
  refine ⟨⟨?_, ?_, ?_, ?_, ?_⟩, ⟨?_, ?_, ?_, ?_⟩, ?_, ?_, ?_⟩
  · exact fun a b ha hb => ha.lub_comm hb
  · exact fun a b c ha hb hc => ha.lub_assoc hb hc
  · exact fun a ha => ha.lub_self
  · intro a b c ha hb hc
    constructor
    · intro h
      constructor
      · unfold Below at h ⊢
        rw [← h,← ha.lub_assoc (Built.lub ha hb) hc,ha.below_lub hb]
      · unfold Below at h ⊢
        have hba : Below b (Demand.lub a b) := by
          rw [ha.lub_comm hb]
          exact hb.below_lub ha
        rw [← h,← hb.lub_assoc (Built.lub ha hb) hc,hba]
    · exact fun h => ha.lub_below hb hc h.1 h.2
  · exact fun a b c ha hb hc h => ha.lub_mono hb hc h
  · exact fun a b ha hb => ha.glb_comm hb
  · exact fun a ha => ha.glb_self
  · exact fun ar a b c ha hb hc sa sb sc => ha.glb_assoc hb hc sa sb sc
  · exact fun ar a b c ha hb hc sa sb sc ca cb cc h => ha.glb_mono hb hc sa sb sc ca cb cc h
  · exact fun ts us h hp => DemandType.foldr1_perm hp h
  · exact fun ts us r s ht hu hr hs => DemandType.foldr1_append ht hu hr hs
  · exact fun ts r t h hr ht => DemandType.lub_foldr1 h hr ht

/-- The law at the demands of an unused, a strict and a lazy variable. -/
theorem demand_laws_at :
    Demand.lub absent strict = Demand.lub strict absent ∧
      Demand.lub (Demand.lub absent strict) lazy = Demand.lub absent (Demand.lub strict lazy) ∧
      Demand.glb (Demand.glb absent strict) lazy = Demand.glb absent (Demand.glb strict lazy) ∧
      Below (Demand.glb absent lazy) (Demand.glb lazy lazy) ∧
      (DemandType.lub ⟨⟨fun _ => none, absent⟩, []⟩ ⟨⟨fun _ => none, absent⟩, []⟩) =
        ⟨⟨fun _ => none, absent⟩, []⟩ := by
  obtain ⟨⟨hcomm, hassoc, _, _, _⟩, ⟨_, _, hglb, hmono⟩, _, _, hup⟩ := demand_laws
  have habs : DemandType.Built ⟨⟨fun _ => none, absent⟩, []⟩ :=
    ⟨fun _ _ h => absurd h (Option.some_ne_none _).symm, Built.absent,
      fun _ h => absurd h List.not_mem_nil⟩
  have hall : ∀ t ∈ [(⟨⟨fun _ => none, absent⟩, []⟩ : DemandType)], t.Built := by
    intro t ht
    rw [List.mem_singleton.mp ht]
    exact habs
  refine ⟨hcomm _ _ Built.absent Built.strict, hassoc _ _ _ Built.absent Built.strict Built.lazy, ?_, ?_,
    hup _ _ _ hall rfl List.mem_cons_self⟩
  · exact hglb (fun _ => 0) _ _ _ Built.absent Built.strict Built.lazy (Shaped.absent _) (Shaped.strict _)
      (Shaped.lazy _)
  · exact hmono (fun _ => 0) _ _ _ Built.absent Built.lazy Built.lazy (Shaped.absent _) (Shaped.lazy _)
      (Shaped.lazy _) Converging.absent Converging.lazy Converging.lazy (lub_absent_L .none)

theorem glb_lazy_strict : Demand.glb lazy strict = strict := glb_L_S .none .none

theorem glb_lazy_absent : Demand.glb lazy absent = lazy := Demand.glb_absent lazy

theorem lub_lazy_strict : Demand.lub lazy strict = lazy := lub_L_S .none .none

/-- A demand that diverges is below the lazy one, and what it combines to with the demand on a pair is
not below what the lazy one does. The absent demand is no meet, and combining demands on values of
different types depends on the grouping. -/
theorem glb_no_meet :
    (Below err lazy ∧ ¬ Below (Demand.glb err (sp [strict])) (Demand.glb lazy (sp [strict]))) ∧
      Demand.glb absent (Demand.lub absent lazy) ≠ absent ∧
      Demand.glb (Demand.glb lazy (lazify (sp [absent]))) (sp [absent, strict]) ≠
        Demand.glb lazy (Demand.glb (lazify (sp [absent])) (sp [absent, strict])) := by
  have hpair : sp [strict] = S (product [strict]) := rfl
  have htwo : sp [absent, strict] = S (product [absent, strict]) := rfl
  have hone : lazify (sp [absent]) = L (product [absent]) := by
    change l (product [absent]) = _
    rw [l_eq]
    change L (norm (product [lpArg absent])) = _
    rw [lpArg_absent]
    rfl
  refine ⟨⟨lub_err_L .none, ?_⟩, ?_, ?_⟩
  · unfold Below
    have hlazy : Demand.glb lazy (S (product [strict])) = S (product [strict]) := by
      refine (glb_L_S .none (product [strict])).trans ?_
      rw [comb_none_left]
      change S (norm (product [Demand.glb lazy strict])) = _
      rw [glb_lazy_strict]
      rfl
    have hjoin : Demand.lub err (S (product [strict])) = strict := by
      rw [lub_err_S,comb_none_left]
      change S (norm (product [Demand.lub lazy strict])) = _
      rw [lub_lazy_strict]
      rfl
    rw [hpair,glb_err_S,hlazy,hjoin]
    intro h
    cases h
  · have hjoin : Demand.lub absent lazy = lazy := lub_absent_L .none
    rw [Demand.absent_glb,hjoin]
    intro h
    cases h
  · have hleft : Demand.glb (Demand.glb lazy (L (product [absent]))) (S (product [absent, strict])) =
        S (product [lazy, strict]) := by
      have hin : Demand.glb lazy (L (product [absent])) = lazy := by
        refine (glb_L_L .none (product [absent])).trans ?_
        rw [comb_none_left]
        change L (norm (product [lpArg (Demand.glb lazy absent)])) = _
        rw [glb_lazy_absent]
        change L (norm (product [lpArg (L .none)])) = _
        rw [lpArg_L]
        rfl
      rw [hin]
      refine (glb_L_S .none (product [absent, strict])).trans ?_
      rw [comb_none_left]
      change S (norm (product [Demand.glb lazy absent, Demand.glb lazy strict])) = _
      rw [glb_lazy_absent,glb_lazy_strict]
      rfl
    have hright : Demand.glb lazy (Demand.glb (L (product [absent])) (S (product [absent, strict]))) =
        strict := by
      have hin : Demand.glb (L (product [absent])) (S (product [absent, strict])) = S (product [absent]) := by
        rw [glb_L_S]
        change S (norm (product [Demand.glb absent absent])) = _
        rw [Demand.absent_glb]
        rfl
      rw [hin]
      refine (glb_L_S .none (product [absent])).trans ?_
      rw [comb_none_left]
      change S (norm (product [Demand.glb lazy absent])) = _
      rw [glb_lazy_absent]
      rfl
    rw [hone,htwo,hleft,hright]
    intro h
    cases h

end Jhc.E

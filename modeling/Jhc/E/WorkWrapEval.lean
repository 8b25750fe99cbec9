import Jhc.E.WorkWrapSplit

/-!
# What wrapper and worker compute

The wrapper's cases bind the variables of the fields (`cases_splits`) or end nowhere
(`cases_stops`); the worker's definitions give every argument the value that the worker can
build (`lets_splits`).
-/

namespace Jhc.E.WorkerWrapper
open Jhc.Lib Jhc.Lib.Value
open Jhc.FrontEnd.Exports (Name)

/-! ### The variables of arguments -/

mutual

/-- All variables of an argument, those of fields included. -/
def names : Arg → List Id
  | .absent t => [t.tvrIdent]
  | .plain t => [t.tvrIdent]
  | .cons _ ts t => t.tvrIdent :: namess ts

def namess : List Arg → List Id
  | [] => []
  | a :: as => names a ++ namess as

end

/-- The variables of fields. -/
def temps : Arg → List Id
  | .cons _ ts _ => namess ts
  | _ => []

def tempss (as : List Arg) : List Id := as.flatMap temps

mutual

/-- The variables that the wrapper unpacks. -/
def unpacked : Arg → List TVr
  | .cons _ ts t => t :: unpackeds ts
  | _ => []

def unpackeds : List Arg → List TVr
  | [] => []
  | a :: as => unpacked a ++ unpackeds as

end

/-- The names in the list that are not the empty one are pairwise different. -/
def Distinct (xs : List Id) : Prop := (xs.filter (· ≠ .emptyId)).Nodup

section
variable {T : Terms} {prim : PrimTable} {ρ σ τ μ : Env} {as ts : List Arg} {a : Arg} {vs ws rs : List Val} {e k : E}
  {x : Id} {xs ys : List Id} {tvr : TVr} {t : TVr} {v : Val} {vars : List TVr}

attribute [local grind =] names namess

theorem Distinct.left (h : Distinct (xs ++ ys)) : Distinct xs := by
  rw [Distinct, List.filter_append] at h
  exact (List.nodup_append.1 h).1

theorem Distinct.right (h : Distinct (xs ++ ys)) : Distinct ys := by
  rw [Distinct, List.filter_append] at h
  exact (List.nodup_append.1 h).2.1

theorem Distinct.disjoint (h : Distinct (xs ++ ys)) (hx : x ∈ xs) (hne : x ≠ .emptyId) : x ∉ ys := by
  rw [Distinct, List.filter_append] at h
  intro hy
  exact (List.nodup_append.1 h).2.2 x (by simp [hx, hne]) x (by simp [hy, hne]) rfl

theorem Distinct.perm (h : Distinct xs) (hp : xs.Perm ys) : Distinct ys := (hp.filter _).nodup_iff.1 h

/-! ### Environments -/

theorem sets_of_not (h : x ∉ vars.map TVr.tvrIdent) : ρ.sets vars vs x = ρ x := by
  induction vars generalizing ρ vs with
  | nil => rfl
  | cons t vars ih =>
    cases vs with
    | nil => rfl
    | cons v vs =>
      simp only [List.map_cons, List.mem_cons, not_or] at h
      rw [Env.sets, ih h.2, Env.set_of_not h.1]

theorem sets_get (hd : Distinct (vars.map TVr.tvrIdent)) (hlen : vars.length = vs.length) :
    List.Forall₂ (fun t v => t.tvrIdent ≠ .emptyId → ρ.sets vars vs t.tvrIdent = v) vars vs := by
  induction vars generalizing ρ vs with
  | nil =>
    obtain rfl := List.length_eq_zero_iff.1 hlen.symm
    exact .nil
  | cons t vars ih =>
    cases vs with
    | nil => cases hlen
    | cons v vs =>
      have hd' : Distinct ([t.tvrIdent] ++ vars.map TVr.tvrIdent) := hd
      refine .cons (fun ht => ?_) (ih hd'.right (by simpa using hlen))
      rw [Env.sets, sets_of_not (hd'.disjoint (List.mem_singleton_self _) ht), Env.set_of_binds rfl]

theorem sets_append {vars' : List TVr} {vs' : List Val} (hlen : vars.length = vs.length) :
    ρ.sets (vars ++ vars') (vs ++ vs') = (ρ.sets vars vs).sets vars' vs' := by
  induction vars generalizing ρ vs with
  | nil =>
    obtain rfl := List.length_eq_zero_iff.1 hlen.symm
    rfl
  | cons t vars ih =>
    cases vs with
    | nil => cases hlen
    | cons v vs => exact ih (by simpa using hlen)

/-- A function of several arguments applied. -/
theorem applies_lams (hlen : vars.length = vs.length) :
    applies (den prim ρ (lams vars e)) vs = den prim (ρ.sets vars vs) e := by
  induction vars generalizing ρ vs with
  | nil =>
    obtain rfl := List.length_eq_zero_iff.1 hlen.symm
    rfl
  | cons t vars ih =>
    cases vs with
    | nil => cases hlen
    | cons v vs =>
      rw [applies_cons, lams, List.foldr_cons, apply_den_eLam]
      exact ih (by simpa using hlen)

theorem den_aps {f : E} {es : List E} : den prim ρ (aps f es) = applies (den prim ρ f) (es.map (den prim ρ)) := by
  induction es generalizing f with
  | nil => rfl
  | cons e es ih =>
    rw [aps, List.foldl_cons]
    have hstep := ih (f := .eAp f e)
    rw [aps] at hstep
    rw [hstep, den_eAp]
    rfl

theorem den_eVars : (eVars vars).map (den prim ρ) = vars.map fun t => ρ t.tvrIdent := by
  rw [eVars, List.map_map]
  exact List.map_congr_left fun t _ => den_eVar

/-! ### The cases of the wrapper -/

/-- The variables of the arguments have the values `vs`. -/
def Holds (σ : Env) (as : List Arg) (vs : List Val) : Prop :=
  List.Forall₂ (fun a v => a.var.tvrIdent ≠ .emptyId → σ a.var.tvrIdent = v) as vs

theorem Holds.congr (h : Holds σ as vs)
    (hτ : ∀ a ∈ as, a.var.tvrIdent ≠ .emptyId → τ a.var.tvrIdent = σ a.var.tvrIdent) : Holds τ as vs := by
  induction h with
  | nil => exact .nil
  | cons hv _ ih =>
    exact .cons (fun ha => (hτ _ List.mem_cons_self ha).trans (hv ha)) (ih fun a ha => hτ a (List.mem_cons_of_mem _ ha))

theorem Holds.map_eq (h : Holds σ as vs) (hnamed : ∀ a ∈ as, a.var.tvrIdent ≠ .emptyId) :
    (as.map Arg.var).map (fun t => σ t.tvrIdent) = vs := by
  induction h with
  | nil => rfl
  | cons hv _ ih =>
    simp only [List.map_cons, List.cons.injEq]
    exact ⟨hv (hnamed _ List.mem_cons_self), ih fun a ha => hnamed a (List.mem_cons_of_mem _ ha)⟩

theorem var_mem_names (a : Arg) : a.var.tvrIdent ∈ names a := by
  cases a <;> simp [names, Arg.var]

theorem mem_namess (h : a ∈ as) (hx : x ∈ names a) : x ∈ namess as := by
  induction as with
  | nil => cases h
  | cons b as ih =>
    rw [namess]
    rcases List.mem_cons.1 h with rfl | h
    · exact List.mem_append_left _ hx
    · exact List.mem_append_right _ (ih h)

theorem vars_subset_namess (h : x ∈ (as.map Arg.var).map TVr.tvrIdent) : x ∈ namess as := by
  rw [List.map_map] at h
  obtain ⟨a, ha, rfl⟩ := List.mem_map.1 h
  exact mem_namess ha (var_mem_names a)

theorem tempss_subset_namess (h : x ∈ tempss as) : x ∈ namess as := by
  obtain ⟨a, ha, hx⟩ := List.mem_flatMap.1 h
  refine mem_namess ha ?_
  cases a with
  | cons c ts t => exact List.mem_cons_of_mem _ hx
  | _ => cases hx

mutual

theorem workerArgs_subset : (a : Arg) → ∀ t ∈ workerArgs a, t.tvrIdent ∈ names a
  | .absent t, _, h => by cases h
  | .plain t, _, h => by
    rw [workerArgs, List.mem_singleton] at h
    rw [h]
    exact List.mem_singleton_self _
  | .cons c ts t, t', h => by
    rw [workerArgs] at h
    exact List.mem_cons_of_mem _ (workerArgss_subset ts t' h)

theorem workerArgss_subset : (as : List Arg) → ∀ t ∈ workerArgss as, t.tvrIdent ∈ namess as
  | [], _, h => by cases h
  | a :: as, t, h => by
    rw [workerArgss] at h
    rw [namess]
    rcases List.mem_append.1 h with h | h
    · exact List.mem_append_left _ (workerArgs_subset a t h)
    · exact List.mem_append_right _ (workerArgss_subset as t h)

end

theorem distinct_vars (h : Distinct (namess as)) : Distinct ((as.map Arg.var).map TVr.tvrIdent) := by
  induction as with
  | nil => exact List.nodup_nil
  | cons a as ih =>
    rw [namess] at h
    by_cases ha : a.var.tvrIdent = .emptyId
    · have := ih h.right
      simpa [Distinct, ha] using this
    · have hnot : a.var.tvrIdent ∉ (as.map Arg.var).map TVr.tvrIdent :=
        fun hmem => h.disjoint (var_mem_names a) ha (vars_subset_namess hmem)
      have := ih h.right
      simp only [Distinct, List.map_cons, List.filter_cons, ne_eq, ha, not_false_eq_true, decide_true, if_true] at this ⊢
      refine List.nodup_cons.2 ⟨fun hmem => hnot (List.mem_filter.1 hmem).1, this⟩

/-- What the cases have bound when the values split: the fields, and nothing else. -/
structure Unpacked (prim : PrimTable) (T : Terms) (σ σ' : Env) (as : List Arg) (ws : List Val) : Prop where
  cases : ∀ k, den prim σ (cases T k as) = den prim σ' k
  frame : ∀ x, x ∉ tempss as → x ≠ .emptyId → σ' x = σ x
  args : List.Forall₂ (fun t w => t.tvrIdent ≠ .emptyId ∧ σ' t.tvrIdent = w) (workerArgss as) ws

theorem Unpacked.outside {σ' : Env} (h : Unpacked prim T σ σ' as ws) (hx : x ∉ namess as) (hne : x ≠ .emptyId) :
    σ' x = σ x := h.frame x (fun hmem => hx (tempss_subset_namess hmem)) hne

theorem map_eq_of_forall₂ {l : List TVr} {p : TVr → Prop}
    (h : List.Forall₂ (fun t w => p t ∧ σ t.tvrIdent = w) l ws) : l.map (fun t => σ t.tvrIdent) = ws := by
  induction h with
  | nil => rfl
  | cons h _ ih => rw [List.map_cons, ih, h.2]

/-- The environment of the alternative that unpacks `t`. -/
def bound (T : Terms) (σ : Env) (t : TVr) (c : Constructor) (ts : List Arg) (us : List Val) : Env :=
  (σ.set (.mk .emptyId (T.getType (.eVar t))) (construct (.con c.conName) us)).sets (ts.map Arg.var) us

theorem den_casesArg {c : Constructor} {us : List Val} (hσ : σ t.tvrIdent = construct (.con c.conName) us)
    (hlen : ts.length = us.length) :
    den prim σ (casesArg T k (.cons c ts t)) = den prim (bound T σ t c ts us) (cases T k ts) := by
  rw [casesArg, eCase]
  exact den_eCase_construct (by rw [den_eVar, hσ]) (by simp [selects, Alt.accepts]) (by simp [hlen])

theorem bound_outside {c : Constructor} {us : List Val} (hx : x ∉ namess ts) (hne : x ≠ .emptyId) :
    bound T σ t c ts us x = σ x := by
  rw [bound, sets_of_not fun hmem => hx (vars_subset_namess hmem), Env.set_of_not hne]

theorem bound_holds {c : Constructor} {us : List Val} (hd : Distinct (namess ts)) (hlen : ts.length = us.length) :
    Holds (bound T σ t c ts us) ts us := by
  have hget := sets_get (ρ := σ.set (.mk .emptyId (T.getType (.eVar t))) (construct (.con c.conName) us))
    (distinct_vars hd) (by simpa using hlen)
  exact List.forall₂_map_left_iff.1 hget

theorem cases_splits (prim : PrimTable) (h : Splits T as vs ws rs) (hd : Distinct (namess as)) (hσ : Holds σ as vs) :
    ∃ σ', Unpacked prim T σ σ' as ws := by
  induction h generalizing σ with
  | nil => exact ⟨σ, ⟨fun k => by rw [cases], fun x _ _ => rfl, .nil⟩⟩
  | absent _ _ ih =>
    cases hσ with
    | cons _ hσ =>
      rw [namess] at hd
      obtain ⟨σ', h'⟩ := ih hd.right hσ
      exact ⟨σ', fun k => by rw [cases, casesArg, h'.cases], h'.frame, h'.args⟩
  | @plain t as v vs ws rs ht _ ih =>
    cases hσ with
    | cons hv hσ =>
      rw [namess] at hd
      obtain ⟨σ', h'⟩ := ih hd.right hσ
      refine ⟨σ', fun k => by rw [cases, casesArg, h'.cases], h'.frame, .cons ⟨ht, ?_⟩ h'.args⟩
      exact (h'.outside (hd.disjoint (var_mem_names (.plain t)) ht) ht).trans (hv ht)
  | @cons c ts as t us us' vs ws ws' rs ht hnamed hts _ ihts ih =>
    cases hσ with
    | cons hv hσ =>
      rw [namess, names, List.cons_append] at hd
      have hd' : Distinct ([t.tvrIdent] ++ (namess ts ++ namess as)) := hd
      have ht' : σ t.tvrIdent = construct (.con c.conName) us := hv ht
      obtain ⟨σ₁, h₁⟩ := ihts hd'.right.left (bound_holds (T := T) (t := t) (c := c) (σ := σ) hd'.right.left hts.length.1)
      have hσ₁ : Holds σ₁ as vs := by
        refine Holds.congr hσ fun a ha hne => ?_
        have hnot : a.var.tvrIdent ∉ namess ts :=
          fun hmem => hd'.right.disjoint hmem hne (mem_namess ha (var_mem_names a))
        rw [h₁.outside hnot hne, bound_outside hnot hne]
      obtain ⟨σ₂, h₂⟩ := ih hd'.right.right hσ₁
      refine ⟨σ₂, fun k => ?_, fun x hx hne => ?_, ?_⟩
      · rw [cases, den_casesArg ht' hts.length.1, h₁.cases, h₂.cases]
      · have hts' : x ∉ namess ts := fun hmem => hx (List.mem_flatMap.2 ⟨_, List.mem_cons_self, hmem⟩)
        have has' : x ∉ tempss as := fun hmem => hx (by
          obtain ⟨a, ha, hmem⟩ := List.mem_flatMap.1 hmem
          exact List.mem_flatMap.2 ⟨a, List.mem_cons_of_mem _ ha, hmem⟩)
        rw [h₂.frame x has' hne, h₁.outside hts' hne, bound_outside hts' hne]
      · rw [workerArgss, workerArgs]
        have hargs : List.Forall₂ (fun t w => t.tvrIdent ≠ .emptyId ∧ σ₂ t.tvrIdent = w) (workerArgss ts) ws' := by
          refine List.forall₂_iff_get.2 ⟨h₁.args.length_eq, fun i hi hi' => ?_⟩
          obtain ⟨hne, hget⟩ := h₁.args.get hi hi'
          refine ⟨hne, (h₂.outside (hd'.right.disjoint (workerArgss_subset ts _ (List.get_mem _ _)) hne) hne).trans hget⟩
        exact List.rel_append hargs h₂.args

theorem cases_stops (h : Stops T as vs) (hd : Distinct (namess as)) (hσ : Holds σ as vs) (k : E) :
    den prim σ (cases T k as) = ∅ := by
  induction h generalizing σ k with
  | @here c ts as t vs ht =>
    cases hσ with
    | cons hv hσ =>
      rw [cases, casesArg, eCase]
      refine den_eCase_undefined ?_
      have hempty : σ t.tvrIdent = ∅ := hv ht
      rw [den_eVar, hempty]
      exact not_defined_empty
  | @inside c ts as t us vs ht hnamed hlen _ ih =>
    cases hσ with
    | cons hv hσ =>
      rw [namess, names, List.cons_append] at hd
      have hd' : Distinct ([t.tvrIdent] ++ (namess ts ++ namess as)) := hd
      have ht' : σ t.tvrIdent = construct (.con c.conName) us := hv ht
      rw [cases, den_casesArg ht' hlen]
      exact ih hd'.right.left (bound_holds hd'.right.left hlen) _
  | @later a as v r vs ws ha _ ih =>
    cases hσ with
    | cons hv hσ =>
      have hd₁ : Distinct (names a ++ namess as) := by
        rw [namess] at hd
        exact hd
      obtain ⟨σ', h'⟩ := cases_splits (σ := σ) prim ha (by simpa [namess] using hd₁.left) (.cons hv .nil)
      have hcases : cases T k (a :: as) = cases T (cases T k as) [a] := by simp only [cases]
      rw [hcases, h'.cases]
      refine ih hd₁.right (Holds.congr hσ fun b hb hne => h'.outside (fun hmem => ?_) hne) k
      exact hd₁.disjoint (by simpa [namess] using hmem) hne (mem_namess hb (var_mem_names b))

/-! ### The definitions of the worker -/

theorem Splits.args_length (h : Splits T as vs ws rs) : (workerArgss as).length = ws.length := by
  induction h with
  | nil => rfl
  | absent _ _ ih => simpa [workerArgss, workerArgs] using ih
  | plain _ _ ih => simpa [workerArgss, workerArgs] using ih
  | cons _ _ _ _ ihts ih => simp [workerArgss, workerArgs, ihts, ih]

/-- Where the worker's arguments have the values it gets and its definitions hold, it has built the arguments again. -/
theorem lets_splits (h : Splits T as vs ws rs) (n : String) (i : ℕ)
    (hlets : ∀ d ∈ letss tvr n i as, d.var.tvrIdent ≠ .emptyId → μ d.var.tvrIdent = den prim μ d.rhs)
    (hargs : (workerArgss as).map (fun t => μ t.tvrIdent) = ws) : Holds μ as rs := by
  induction h generalizing n i with
  | nil => exact .nil
  | @absent t as v r vs ws rs hr _ ih =>
    simp only [letss, lets, List.singleton_append, List.mem_cons, forall_eq_or_imp] at hlets
    refine .cons (fun ht => ?_) (ih n (i + 1) hlets.2 hargs)
    exact (hlets.1 ht).trans (by rw [Def.rhs, den_eError, (hr ht).1])
  | plain _ _ ih =>
    simp only [letss, lets, List.nil_append] at hlets
    obtain ⟨hv, hargs⟩ := List.cons.inj hargs
    exact .cons (fun _ => hv) (ih n (i + 1) hlets hargs)
  | @cons c ts as t us us' vs ws ws' rs ht hnamed hts _ ihts ih =>
    simp only [letss, lets, List.cons_append, List.mem_cons, forall_eq_or_imp, List.mem_append] at hlets
    rw [workerArgss, workerArgs, List.map_append] at hargs
    obtain ⟨hargs₁, hargs₂⟩ := List.append_inj hargs (by simpa using hts.args_length)
    have hfields : Holds μ ts us' := ihts _ 0 (fun d hd => hlets.2 d (.inl hd)) hargs₁
    refine .cons (fun _ => ?_) (ih n (i + 1) (fun d hd => hlets.2 d (.inr hd)) hargs₂)
    refine (hlets.1 ht).trans ?_
    rw [Def.rhs, den_eLit, den_eVars, hfields.map_eq hnamed]

mutual

theorem names_perm (tvr : TVr) (n : String) : (a : Arg) →
    ((lets tvr n a).map (fun d => d.var.tvrIdent) ++ (workerArgs a).map TVr.tvrIdent).Perm (names a)
  | .absent t => by simp [lets, workerArgs, names, Def.var]
  | .plain t => by simp [lets, workerArgs, names]
  | .cons c ts t => by
    simp only [lets, workerArgs, names, List.map_cons, List.cons_append, Def.var]
    exact (namess_perm tvr (n ++ ".") 0 ts).cons _

theorem namess_perm (tvr : TVr) (n : String) (i : ℕ) : (as : List Arg) →
    ((letss tvr n i as).map (fun d => d.var.tvrIdent) ++ (workerArgss as).map TVr.tvrIdent).Perm (namess as)
  | [] => by simp [letss, workerArgss, namess]
  | a :: as => by
    have ha := names_perm tvr (n ++ toString i) a
    have has := namess_perm tvr n (i + 1) as
    simp only [letss, workerArgss, namess, List.map_append]
    refine List.Perm.trans ?_ (ha.append has)
    simp only [List.append_assoc]
    refine List.Perm.append_left _ ?_
    simp only [← List.append_assoc]
    exact List.Perm.append_right _ List.perm_append_comm

end

/-- The definitions are of no unboxed value and of no type. -/
theorem letss_lifted (h : Splits T as vs ws rs) (hboxed : ∀ t ∈ unpackeds as, isLifted T (.eVar t) = true) (n : String)
    (i : ℕ) : ∀ d ∈ letss tvr n i as, d.var.tvrIdent = .emptyId ∨ isLifted T (.eVar d.var) = true := by
  induction h generalizing n i with
  | nil =>
    intro d hd
    cases hd
  | @absent t as v r vs ws rs hr _ ih =>
    simp only [letss, lets, List.singleton_append, List.mem_cons, forall_eq_or_imp]
    refine ⟨?_, ih (by simpa [unpackeds, unpacked] using hboxed) n (i + 1)⟩
    by_cases ht : t.tvrIdent = .emptyId
    · exact .inl ht
    · exact .inr (hr ht).2
  | plain _ _ ih =>
    simp only [letss, lets, List.nil_append]
    exact ih (by simpa [unpackeds, unpacked] using hboxed) n (i + 1)
  | cons ht _ _ _ ihts ih =>
    simp only [unpackeds, unpacked, List.cons_append, List.mem_cons, forall_eq_or_imp, List.mem_append] at hboxed
    simp only [letss, lets, List.cons_append, List.mem_cons, forall_eq_or_imp, List.mem_append]
    refine ⟨.inr hboxed.1, fun d hd => hd.elim ?_ ?_⟩
    · exact ihts (fun t ht => hboxed.2 t (.inl ht)) _ 0 d
    · exact ih (fun t ht => hboxed.2 t (.inr ht)) n (i + 1) d

/-- The definitions with a name. -/
def named (ds : List Def) : List Def := ds.filter fun d => d.var.tvrIdent ≠ .emptyId

theorem recEnv_nil : recEnv prim ρ [] = ρ := by
  funext x
  exact recEnv_of_not (by simp)

theorem eLet_emptyId {ds : List Def} (h : ∀ d ∈ ds, d.var.tvrIdent = .emptyId) :
    ds.foldr (fun d e => eLet T d.var d.rhs e) e = e := by
  induction ds with
  | nil => rfl
  | cons d ds ih =>
    rw [List.foldr_cons, ih fun d hd => h d (List.mem_cons_of_mem _ hd), eLet, if_pos (h d List.mem_cons_self)]

theorem den_eLetRec_named {ds : List Def}
    (h : ∀ d ∈ ds, d.var.tvrIdent = .emptyId ∨ isLifted T (.eVar d.var) = true) :
    den prim ρ (eLetRec T ds e) = den prim (recEnv prim ρ (named ds)) e := by
  have hlift : ∀ d ∈ ds, d.var.tvrIdent ≠ .emptyId →
      isUnboxed T d.var.tvrType = false ∧ sortKindLike T d.var.tvrType = false :=
    fun d hd hne => isLifted_var ((h d hd).resolve_left hne)
  have hhh : ∀ d ∈ ds.filter (fun d => isUnboxed T d.var.tvrType), d.var.tvrIdent = .emptyId := by
    intro d hd
    obtain ⟨hd, hun⟩ := List.mem_filter.1 hd
    by_contra hne
    rw [(hlift d hd hne).1] at hun
    cases hun
  have hnas : (ds.filter fun d => !isUnboxed T d.var.tvrType).filter (fun d => d.var.tvrIdent ≠ .emptyId) = named ds := by
    rw [List.filter_filter, named]
    refine List.filter_congr fun d hd => ?_
    by_cases hne : d.var.tvrIdent = .emptyId
    · simp [hne]
    · simp [hne, (hlift d hd hne).1]
  have htas : (named ds).filter (fun d => sortKindLike T d.var.tvrType) = [] := by
    refine List.filter_eq_nil_iff.2 fun d hd => ?_
    obtain ⟨hd, hne⟩ := List.mem_filter.1 hd
    simp [(hlift d hd (by simpa using hne)).2]
  simp only [eLetRec, hnas, htas]
  cases hn : named ds with
  | nil => rw [eLet_emptyId hhh, recEnv_nil]
  | cons d ds =>
    simp only
    rw [eLet_emptyId hhh, den_eLetRec]

theorem lookupDef_of_mem {ds : List Def} (hnd : (ds.map fun d => d.var.tvrIdent).Nodup) {d : Def} (hd : d ∈ ds) :
    lookupDef ds d.var.tvrIdent = some d.rhs := by
  induction ds with
  | nil => cases hd
  | cons d' ds ih =>
    rw [List.map_cons, List.nodup_cons] at hnd
    rcases List.mem_cons.1 hd with rfl | hd
    · simp [lookupDef]
    · have hne : d'.var.tvrIdent ≠ d.var.tvrIdent := fun heq => hnd.1 (heq ▸ List.mem_map_of_mem hd)
      have := ih hnd.2 hd
      simpa [lookupDef, List.find?_cons, hne] using this

end

end Jhc.E.WorkerWrapper

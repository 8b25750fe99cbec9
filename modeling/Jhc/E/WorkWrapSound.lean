import Jhc.E.WorkWrapEval

/-!
# The wrapper is the function (E/WorkerWrapper.hs:70-118)

With pairwise different names and a signature that holds, the wrapper around the worker
gives on every argument what the function gives. Where the worker gets no argument its dummy
argument has the name of the function, which a recursive function then does not find.
-/

namespace Jhc.E.WorkerWrapper
open Jhc.Lib Jhc.Lib.Value
open Jhc.FrontEnd.Exports (Name)

/-- The names that the pass needs apart are apart: those of the arguments and of the fields it unpacks, the name of
the worker, and where the worker gets no argument the name of the function. -/
structure Hygienic (T : Terms) (b : Binder) (body : E) (sargs : List Arg) : Prop where
  distinct : Distinct (namess sargs)
  worker : workerName b.tvr.tvrIdent ∉ namess sargs
  fields : ∀ x ∈ tempss sargs, x ∉ freeIds body
  unused : .emptyId ∉ freeIds body
  lifted : ∀ t ∈ unpackeds sargs, isLifted T (.eVar t) = true
  self : workerArgss sargs = [] → b.tvr.tvrIdent ∈ freeIds body →
    b.tvr.tvrIdent ∈ (sargs.map Arg.var).map TVr.tvrIdent

section
variable {T : Terms} {prim : PrimTable} {ρ σ μ : Env} {b : Binder} {e body bodyTyp k : E} {cname : Option Name} {n : Name}
  {sargs acc as : List Arg} {vs ws rs us : List Val} {ss : List Demand} {cpr : CPR} {x : Id} {vars : List TVr} {v : Val}
  {tvr tvr' : TVr}

/-! ### What wrappable returns -/

theorem wrapPlain_spec (h : wrapPlain e acc = some (cname, body, sargs)) :
    e = body ∧ sargs = acc.reverse ∧ cname = none := by
  unfold wrapPlain at h
  split at h
  · cases h
    exact ⟨rfl, rfl, rfl⟩
  · cases h

theorem wrapBody_spec (h : wrapBody T e cpr acc = some (cname, body, sargs)) :
    e = body ∧ sargs = acc.reverse ∧ ∀ n, cname = some n → resultOf cpr 0 = some n := by
  have hplain : wrapPlain e acc = some (cname, body, sargs) →
      e = body ∧ sargs = acc.reverse ∧ ∀ n, cname = some n → resultOf cpr 0 = some n := by
    intro h
    obtain ⟨he, hs, rfl⟩ := wrapPlain_spec h
    exact ⟨he, hs, fun n hn => by cases hn⟩
  cases cpr with
  | tup m vs =>
    rw [wrapBody] at h
    split at h
    · cases h
      exact ⟨rfl, rfl, fun n hn => hn⟩
    · exact hplain h
  | tag ns =>
    match ns with
    | [m] =>
      rw [wrapBody] at h
      split at h
      · cases h
        exact ⟨rfl, rfl, fun n hn => hn⟩
      · exact hplain h
    | [] => exact hplain h
    | _ :: _ :: _ => exact hplain h
  | _ => exact hplain h

theorem gZip_cons (t : TVr) (ts : List TVr) : gZip T (t :: ts) ss = g T t (ss.headD lazy) :: gZip T ts ss.tail := by
  cases ss with
  | nil =>
    have hg : g T t lazy = gLazy t := by rw [lazy, g]
    simp [gZip, hg]
  | cons d ss => simp [gZip]

theorem wrapArgs_spec (h : wrapArgs T e ss cpr acc = some (cname, body, sargs)) :
    ∃ ts, e = lams ts body ∧ sargs = acc.reverse ++ gZip T ts ss ∧ ∀ n, cname = some n → resultOf cpr ts.length = some n := by
  fun_induction wrapArgs T e ss cpr acc with
  | case1 t e ss x acc ih =>
    obtain ⟨ts, rfl, rfl, hres⟩ := ih h
    refine ⟨t :: ts, rfl, ?_, hres⟩
    rw [gZip_cons, List.reverse_cons, List.append_assoc, List.singleton_append]
  | case2 e ss cpr acc _ =>
    obtain ⟨rfl, rfl, hres⟩ := wrapBody_spec h
    refine ⟨[], rfl, ?_, hres⟩
    cases ss <;> simp [gZip]

theorem wrappable_spec (h : wrappable T b e = some (cname, body, sargs)) :
    ∃ ts, e = lams ts body ∧ sargs = gZip T ts (b.demand.getD []) ∧
      ∀ n, cname = some n → resultOf (b.cpr.getD .top) ts.length = some n := by
  unfold wrappable at h
  split at h
  · obtain ⟨ts, he, hs, hres⟩ := wrapArgs_spec h
    exact ⟨ts, he, by simpa using hs, hres⟩
  · cases h

/-! ### The variables of the result -/

theorem newIds_length (ids : List Id) (k : ℕ) : (newIds T ids k).length = k := by
  have hnd : (((List.range (k + ids.length)).map fun i => Id.anonymous (T.candidate ids + i))).Nodup :=
    List.nodup_range.map fun i j h => by simpa using h
  have hin : ((((List.range (k + ids.length)).map fun i => Id.anonymous (T.candidate ids + i))).filter (· ∈ ids)).length ≤
      ids.length := by
    refine (List.Nodup.subperm (hnd.filter _) fun x hx => ?_).length_le
    simpa using (List.mem_filter.1 hx).2
  have hsum := List.length_eq_length_filter_add (l := ((List.range (k + ids.length)).map fun i =>
    Id.anonymous (T.candidate ids + i))) (· ∈ ids)
  simp only [List.length_map, List.length_range] at hsum
  simp only [newIds, List.length_take, decide_not]
  omega

theorem newIds_nodup (ids : List Id) (k : ℕ) : (newIds T ids k).Nodup := by
  refine List.Nodup.sublist (List.take_sublist _ _) (List.Nodup.filter _ ?_)
  exact List.nodup_range.map fun i j h => by simpa using h

theorem newIds_ne_emptyId {ids : List Id} {k : ℕ} (h : x ∈ newIds T ids k) : x ≠ .emptyId := by
  obtain ⟨i, -, rfl⟩ := List.mem_map.1 (List.mem_filter.1 (List.mem_of_mem_take h)).1
  exact fun h => by cases h

theorem resultVars_ids (T : Terms) (tvr : TVr) (n : Name) (ty : E) :
    (resultVars T tvr n ty).map TVr.tvrIdent = newIds T (freeIds tvr.tvrType ++ freeIds ty) (T.slotTypes n ty).length := by
  have hlen := newIds_length (T := T) (freeIds tvr.tvrType ++ freeIds ty) (T.slotTypes n ty).length
  refine List.ext_getElem (by simp [resultVars, hlen]) fun i h₁ h₂ => ?_
  simp [resultVars, TVr.tvrIdent]

theorem resultVars_types (T : Terms) (tvr : TVr) (n : Name) (ty : E) :
    (resultVars T tvr n ty).map TVr.tvrType = T.slotTypes n ty := by
  have hlen := newIds_length (T := T) (freeIds tvr.tvrType ++ freeIds ty) (T.slotTypes n ty).length
  refine List.ext_getElem (by simp [resultVars, hlen]) fun i h₁ h₂ => ?_
  simp [resultVars, TVr.tvrType]

/-- Bound to values, different variables have these values. -/
theorem map_sets (hnd : (vars.map TVr.tvrIdent).Nodup) (hlen : vars.length = vs.length) :
    vars.map (fun t => ρ.sets vars vs t.tvrIdent) = vs := by
  induction vars generalizing ρ vs with
  | nil => exact (List.length_eq_zero_iff.1 hlen.symm).symm
  | cons t vars ih =>
    cases vs with
    | nil => cases hlen
    | cons v vs =>
      rw [List.map_cons, List.nodup_cons] at hnd
      rw [List.map_cons, Env.sets, ih hnd.2 (by simpa using hlen), sets_of_not hnd.1, Env.set_of_binds rfl]

/-- A case that takes a constructed value apart. -/
theorem den_eCase_alt {c : Name} (ty k : E) (hnd : (vars.map TVr.tvrIdent).Nodup) (hlen : vars.length = us.length)
    (he : den prim ρ e = construct (.con c) us) :
    ∃ ρ', den prim ρ (eCase T e (.litCons c vars ty k)) = den prim ρ' k ∧
      vars.map (fun t => ρ' t.tvrIdent) = us := by
  refine ⟨_, den_eCase_construct he (by simp [selects, Alt.accepts]) (by simp [hlen]), map_sets hnd hlen⟩

theorem den_eCase_empty {alt : Alt} (he : den prim ρ e = ∅) : den prim ρ (eCase T e alt) = ∅ := by
  refine den_eCase_undefined ?_
  rw [he]
  exact not_defined_empty

/-! ### The two halves -/

/-- The worker's view of the arguments: its own variables have what it gets, the dummy argument the empty tuple. -/
theorem worker_env (prim : PrimTable) (ρ : Env) (hd : Distinct (namess sargs)) (h : Splits T sargs vs ws rs)
    (hlifted : ∀ t ∈ unpackeds sargs, isLifted T (.eVar t) = true) {f : TVr} {e : E} {us : List Val}
    (hus : us.length = (navar f (workerArgss sargs)).length) :
    ∃ μ, applies (den prim ρ (lams (workerArgss sargs ++ navar f (workerArgss sargs))
        (eLetRec T (letss f "" 0 sargs) e))) (ws ++ us) = den prim μ e ∧ Holds μ sargs rs ∧
      ∀ x, x ∉ namess sargs → (workerArgss sargs = [] → x ≠ f.tvrIdent) → μ x = ρ x := by
  have hperm := namess_perm f "" 0 sargs
  have hd' : Distinct ((letss f "" 0 sargs).map (fun d => d.var.tvrIdent) ++ (workerArgss sargs).map TVr.tvrIdent) :=
    hd.perm hperm.symm
  have hnamed : ((named (letss f "" 0 sargs)).map fun d => d.var.tvrIdent).Nodup := by
    have := hd'.left
    rwa [Distinct, List.filter_map] at this
  have hargs : ∀ t ∈ workerArgss sargs, t.tvrIdent ≠ .emptyId := by
    have hne : ∀ {as vs ws rs}, Splits T as vs ws rs → ∀ t ∈ workerArgss as, t.tvrIdent ≠ .emptyId := by
      intro as vs ws rs h
      induction h with
      | nil => exact fun t ht => by cases ht
      | absent _ _ ih => simpa [workerArgss, workerArgs] using ih
      | plain ht _ ih => simpa [workerArgss, workerArgs] using ⟨ht, ih⟩
      | cons _ _ _ _ ihts ih =>
        intro t ht
        rw [workerArgss, workerArgs] at ht
        exact (List.mem_append.1 ht).elim (ihts t) (ih t)
    exact hne h
  have hnd : ((workerArgss sargs).map TVr.tvrIdent).Nodup := by
    have := hd'.right
    rwa [Distinct, List.filter_eq_self.2] at this
    intro x hx
    obtain ⟨t, ht, rfl⟩ := List.mem_map.1 hx
    simpa using hargs t ht
  let τ := ρ.sets (workerArgss sargs ++ navar f (workerArgss sargs)) (ws ++ us)
  have hτ : τ = (ρ.sets (workerArgss sargs) ws).sets (navar f (workerArgss sargs)) us := sets_append h.args_length
  have hget : (workerArgss sargs).map (fun t => τ t.tvrIdent) = ws := by
    rw [hτ]
    cases hw : workerArgss sargs with
    | nil =>
      have hlen := h.args_length
      rw [hw] at hlen
      exact (List.length_eq_zero_iff.1 hlen.symm).symm
    | cons t ts =>
      rw [← hw]
      have hnavar : navar f (workerArgss sargs) = [] := by rw [hw]; rfl
      rw [hnavar]
      exact map_sets hnd h.args_length
  refine ⟨recEnv prim τ (named (letss f "" 0 sargs)), ?_, ?_, fun x hx hself => ?_⟩
  · rw [applies_lams (by simp [h.args_length, hus]), den_eLetRec_named (letss_lifted h hlifted "" 0)]
  · have hdefs : ∀ d ∈ letss f "" 0 sargs, d.var.tvrIdent ≠ .emptyId →
        recEnv prim τ (named (letss f "" 0 sargs)) d.var.tvrIdent =
          den prim (recEnv prim τ (named (letss f "" 0 sargs))) d.rhs := fun d hdef hne =>
      recEnv_of_def (lookupDef_of_mem hnamed (List.mem_filter.2 ⟨hdef, by simpa using hne⟩))
    refine lets_splits h "" 0 hdefs ?_
    rw [← hget]
    refine List.map_congr_left fun t ht => recEnv_of_not fun hmem => ?_
    obtain ⟨d, hdef, heq⟩ := List.mem_map.1 hmem
    refine hd'.disjoint (x := t.tvrIdent) (heq ▸ List.mem_map_of_mem (List.mem_filter.1 hdef).1) (hargs t ht) ?_
    exact List.mem_map_of_mem ht
  · have hdefs : x ∉ (named (letss f "" 0 sargs)).map fun d => d.var.tvrIdent := by
      intro hmem
      obtain ⟨d, hdef, heq⟩ := List.mem_map.1 hmem
      exact hx (hperm.subset (List.mem_append_left _ (heq ▸ List.mem_map_of_mem (List.mem_filter.1 hdef).1)))
    have hworker : x ∉ (workerArgss sargs).map TVr.tvrIdent :=
      fun hmem => hx (hperm.subset (List.mem_append_right _ hmem))
    rw [recEnv_of_not hdefs, hτ, sets_of_not, sets_of_not hworker]
    intro hmem
    unfold navar at hmem
    split at hmem
    · rename_i hnil
      exact hself (List.isEmpty_iff.1 hnil) (by simpa [TVr.tvrIdent] using hmem)
    · cases hmem

theorem mem_vars_or_temps (h : x ∈ namess as) : x ∈ (as.map Arg.var).map TVr.tvrIdent ∨ x ∈ tempss as := by
  induction as with
  | nil => cases h
  | cons a as ih =>
    rw [namess] at h
    rcases List.mem_append.1 h with h | h
    · cases a with
      | cons c ts t =>
        rcases List.mem_cons.1 h with rfl | h
        · exact .inl List.mem_cons_self
        · exact .inr (List.mem_flatMap.2 ⟨_, List.mem_cons_self, h⟩)
      | absent t => exact .inl (List.mem_singleton.1 h ▸ List.mem_cons_self)
      | plain t => exact .inl (List.mem_singleton.1 h ▸ List.mem_cons_self)
    · refine (ih h).imp (fun h => List.mem_cons_of_mem _ h) fun h => ?_
      obtain ⟨a', ha', h⟩ := List.mem_flatMap.1 h
      exact List.mem_flatMap.2 ⟨a', List.mem_cons_of_mem _ ha', h⟩

/-- Environments in which the arguments have the same values agree on the body. -/
theorem den_body (hyg : Hygienic T b body sargs) (hμ : Holds μ sargs rs) (hσ : Holds σ sargs rs)
    (hout : ∀ x ∈ freeIds body, x ∉ namess sargs → μ x = σ x) : den prim μ body = den prim σ body := by
  refine den_congr fun x hx => ?_
  have hne : x ≠ .emptyId := fun h => hyg.unused (h ▸ hx)
  by_cases hmem : x ∈ namess sargs
  · have hvar := (mem_vars_or_temps hmem).resolve_right fun htemp => hyg.fields x htemp hx
    rw [List.map_map] at hvar
    obtain ⟨a, ha, rfl⟩ := List.mem_map.1 hvar
    obtain ⟨i, hi, rfl⟩ := List.getElem_of_mem ha
    have h₁ := hμ.get hi (hμ.length_eq ▸ hi) hne
    have h₂ := hσ.get hi (hσ.length_eq ▸ hi) hne
    exact h₁.trans h₂.symm
  · exact hout x hx hmem

theorem isSingleton_spec (h : isSingleton T vars = some tvr) :
    vars = [tvr] ∧ isUnboxed T tvr.tvrType = true ∧ sortKindLike T tvr.tvrType = false := by
  match vars with
  | [v] =>
    rw [isSingleton] at h
    split at h
    · rename_i hhash
      cases h
      refine ⟨rfl, ?_, ?_⟩
      · unfold isUnboxed
        split
        · rename_i t e he
          rw [he, T.getType_pi] at hhash
          cases hhash
        · exact hhash
      · unfold sortKindLike
        split
        · rename_i s hs
          rw [hs, T.getType_sort] at hhash
          cases hhash
        · cases hk : T.getType tvr.tvrType with
          | eSort s =>
            rw [hk] at hhash
            cases s <;> first | rfl | cases hhash
          | _ => rfl
    · cases h
  | [] => cases h
  | _ :: _ :: _ => cases h

/-- The worker's result of a body. -/
def workerResult (T : Terms) (tvr : TVr) (cname : Option Name) (bodyTyp body : E) : E :=
  match cname with
  | some n => eCase T body (.litCons n (resultVars T tvr n bodyTyp) bodyTyp
      (match isSingleton T (resultVars T tvr n bodyTyp) with
      | some sv => .eVar sv
      | none => unboxedTuple (resultVars T tvr n bodyTyp)))
  | none => body

/-- What the wrapper makes of the worker's result. -/
def wrapperResult (T : Terms) (tvr : TVr) (cname : Option Name) (bodyTyp workerCall : E) : E :=
  match cname with
  | some n => match isSingleton T (resultVars T tvr n bodyTyp) with
    | some sv => eStrictLet T sv workerCall (.eLit n [.eVar sv] bodyTyp)
    | none => eCase T workerCall (.litCons (unboxedNameTuple .DataConstructor (resultVars T tvr n bodyTyp).length)
        (resultVars T tvr n bodyTyp) (ltTuple' ((resultVars T tvr n bodyTyp).map TVr.tvrType))
        (.eLit n (eVars (resultVars T tvr n bodyTyp)) bodyTyp))
  | none => workerCall

/-- Taken apart by the worker and put together by the wrapper, the result is that of the body. -/
theorem den_result {workerCall : E} (hcall : den prim σ workerCall = den prim μ (workerResult T tvr cname bodyTyp body))
    (hbody : den prim μ body = v) (hres : ∀ n, cname = some n →
      v = ∅ ∨ ∃ us, v = construct (.con n) us ∧ List.Forall₂ (Inhabits T) (T.slotTypes n bodyTyp) us) :
    den prim σ (wrapperResult T tvr cname bodyTyp workerCall) = v := by
  cases cname with
  | none => exact hcall.trans hbody
  | some n =>
    have hids : ((resultVars T tvr n bodyTyp).map TVr.tvrIdent).Nodup := by
      rw [resultVars_ids]
      exact newIds_nodup _ _
    simp only [workerResult] at hcall
    simp only [wrapperResult]
    rcases hres n rfl with rfl | ⟨us, rfl, hus⟩
    · rw [den_eCase_empty hbody] at hcall
      cases hs : isSingleton T (resultVars T tvr n bodyTyp) with
      | none => exact den_eCase_empty hcall
      | some sv =>
        simp only [eStrictLet, (isSingleton_spec hs).2.2, strictCase]
        refine den_eCase_undefined ?_
        rw [hcall]
        exact not_defined_empty
    · have hlen : (resultVars T tvr n bodyTyp).length = us.length := by
        rw [← hus.length_eq, ← resultVars_types T tvr n bodyTyp, List.length_map]
      obtain ⟨μ', hcase, hvars⟩ := den_eCase_alt (T := T) bodyTyp
        (match isSingleton T (resultVars T tvr n bodyTyp) with
        | some sv => .eVar sv
        | none => unboxedTuple (resultVars T tvr n bodyTyp)) hids hlen hbody
      rw [hcase] at hcall
      cases hs : isSingleton T (resultVars T tvr n bodyTyp) with
      | none =>
        simp only [hs, unboxedTuple, den_eLit, den_eVars, hvars] at hcall
        obtain ⟨σ', hcase', hvars'⟩ := den_eCase_alt (T := T) (ltTuple' ((resultVars T tvr n bodyTyp).map TVr.tvrType))
          (.eLit n (eVars (resultVars T tvr n bodyTyp)) bodyTyp) hids hlen hcall
        simp only
        rw [hcase', den_eLit, den_eVars, hvars']
      | some sv =>
        obtain ⟨hsv, hun, hkind⟩ := isSingleton_spec hs
        simp only [hs, den_eVar] at hcall
        rw [hsv] at hvars
        simp only [List.map_cons, List.map_nil] at hvars
        subst hvars
        have htypes := resultVars_types T tvr n bodyTyp
        rw [hsv] at htypes
        rw [← htypes] at hus
        have hdef : (den prim σ workerCall).Defined := by
          rw [hcall]
          cases hus with
          | cons hu _ => exact hu.defined hun
        simp only [eStrictLet, hkind, strictCase, Bool.false_eq_true, if_false]
        rw [den_eCase_default hdef, den_eLit, hcall]
        simp [Env.set]

end

/-! ### The pair -/

/-- The call in the wrapper gives the worker one argument for each of its parameters, in their order: the variable
itself, or for the dummy the empty tuple. -/
def SameArguments (T : Terms) (w : TVr) (wr wk : E) (sargs : List Arg) : Prop :=
  ∃ (ps : List TVr) (es : List E) (k : E) (result : E → E), wk = lams ps k ∧
    wr = lams (sargs.map Arg.var) (cases T (result (aps (.eVar w) es)) sargs) ∧
    List.Forall₂ (fun p q => q = .eVar p ∨ p.tvrType = ltTuple' [] ∧ q = unboxedTuple []) ps es

def bodyType (T : Terms) (body : E) : E := (T.typecheck body).getD .unknown

theorem workWrap'_spec {T : Terms} {b : Binder} {e body : E} {cname : Option Name} {sargs : List Arg}
    (hw : wrappable T b e = some (cname, body, sargs)) {f w : Marked} {wr wk : E}
    (hpair : workWrap' T b e = some ((f, wr), (w, wk))) :
    ∃ bodyTyp wt, (cname ≠ none → bodyTyp = bodyType T body) ∧ w.tvr = .mk (workerName b.tvr.tvrIdent) wt ∧
      wr = wrapper T b.tvr w.tvr cname bodyTyp sargs ∧ wk = worker T b.tvr cname bodyTyp body sargs := by
  unfold workWrap' at hpair
  rw [hw] at hpair
  simp only [Option.bind_eq_bind, Option.bind_eq_some_iff, Option.pure_def, Option.some.injEq] at hpair
  obtain ⟨_, -, _, hr, bodyTyp, hbodyTyp, wt, -, heq⟩ := hpair
  subst hr
  cases heq
  refine ⟨bodyTyp, wt, fun hne => ?_, rfl, rfl, rfl⟩
  obtain ⟨n, rfl⟩ := Option.ne_none_iff_exists'.1 hne
  have htype : T.typecheck body = some bodyTyp := hbodyTyp
  rw [bodyType, htype]
  rfl

theorem sameArguments {T : Terms} {tvr w : TVr} {cname : Option Name} {bodyTyp body : E} {sargs : List Arg} :
    SameArguments T w (wrapper T tvr w cname bodyTyp sargs) (worker T tvr cname bodyTyp body sargs) sargs := by
  refine ⟨workerArgss sargs ++ navar tvr (workerArgss sargs), eVars (workerArgss sargs) ++ navalue (workerArgss sargs),
    _, wrapperResult T tvr cname bodyTyp, rfl, ?_, List.rel_append ?_ ?_⟩
  · cases cname <;> rfl
  · exact List.forall₂_map_right_iff.2 (List.forall₂_same.2 fun t _ => .inl rfl)
  · unfold navar navalue
    split
    · exact .cons (.inr ⟨rfl, rfl⟩) .nil
    · exact .nil

/-- The wrapper is the function: on every argument, also one that does not end, in every environment in which the
signature holds of the function. -/
theorem workWrap'_wraps (T : Terms) (b : Binder) (e body : E) (cname : Option Name) (sargs : List Arg)
    (hw : wrappable T b e = some (cname, body, sargs)) (hyg : Hygienic T b body sargs) (f w : Marked) (wr wk : E)
    (hpair : workWrap' T b e = some ((f, wr), (w, wk))) :
    SameArguments T w.tvr wr wk sargs ∧ ∀ (prim : PrimTable) (ρ : Env), ρ w.tvr.tvrIdent = den prim ρ wk →
      Sound T b (sargs.map fun a => a.var.tvrType) (bodyType T body) (applies (den prim ρ e)) →
      ∀ as, List.Forall₂ (Inhabits T) (sargs.map fun a => a.var.tvrType) as →
        applies (den prim ρ wr) as = applies (den prim ρ e) as := by
  obtain ⟨bodyTyp, wt, hbodyTyp, hwtvr, rfl, rfl⟩ := workWrap'_spec hw hpair
  refine ⟨sameArguments, fun prim ρ hρ hsound as has => ?_⟩
  obtain ⟨ts, rfl, hsargs, hcname⟩ := wrappable_spec hw
  have hvars : sargs.map Arg.var = ts := hsargs ▸ vars_gZip T ts _
  have htypes : (sargs.map fun a => a.var.tvrType) = ts.map TVr.tvrType := by rw [← hvars, List.map_map]; rfl
  have hlen : ts.length = as.length := by simpa [htypes] using has.length_eq
  have hσ : ∀ vs : List Val, ts.length = vs.length → Holds (ρ.sets ts vs) sargs vs := by
    intro vs hvs
    have hget := sets_get (ρ := ρ) (distinct_vars hyg.distinct) (by rw [hvars]; exact hvs)
    rw [hvars, ← hvars] at hget
    exact hvars ▸ List.forall₂_map_left_iff.1 hget
  have hwr : applies (den prim ρ (wrapper T b.tvr w.tvr cname bodyTyp sargs)) as =
      den prim (ρ.sets ts as) (cases T (wrapperResult T b.tvr cname bodyTyp
        (aps (.eVar w.tvr) (eVars (workerArgss sargs) ++ navalue (workerArgss sargs)))) sargs) := by
    have hdef : wrapper T b.tvr w.tvr cname bodyTyp sargs = lams ts (cases T (wrapperResult T b.tvr cname bodyTyp
        (aps (.eVar w.tvr) (eVars (workerArgss sargs) ++ navalue (workerArgss sargs)))) sargs) := by
      rw [← hvars]
      cases cname <;> rfl
    rw [hdef, applies_lams hlen]
  rw [hwr]
  have hanswer := gZip_answer ts (b.demand.getD []) as (htypes ▸ has)
  rw [← hsargs] at hanswer
  rcases hanswer with ⟨hstop, i, v, hi, hlack⟩ | ⟨ws, rs, hsplit, hsame, hrs⟩
  · rw [cases_stops hstop hyg.distinct (hσ as hlen), hsound.strict as has i v hi hlack]
  · obtain ⟨σ', hunp⟩ := cases_splits prim hsplit hyg.distinct (hσ as hlen)
    rw [hunp.cases]
    have hus : ((navalue (workerArgss sargs)).map (den prim σ')).length = (navar b.tvr (workerArgss sargs)).length := by
      cases workerArgss sargs <;> rfl
    obtain ⟨μ, hworker, hμ, hout⟩ := worker_env (e := workerResult T b.tvr cname bodyTyp body) prim ρ
      hyg.distinct hsplit hyg.lifted hus
    have hrslen : ts.length = rs.length := by simpa [htypes] using hrs.length_eq
    have hbody : den prim μ body = applies (den prim ρ (lams ts body)) as := by
      rw [hsound.absent as rs has (htypes ▸ hrs) hsame, applies_lams hrslen]
      refine den_body hyg hμ (hσ rs hrslen) fun x hx hmem => ?_
      have hts : x ∉ ts.map TVr.tvrIdent := fun hmem' => hmem (vars_subset_namess (hvars ▸ hmem'))
      rw [sets_of_not hts]
      refine hout x hmem fun hnil heq => ?_
      exact hmem (vars_subset_namess (heq ▸ hyg.self hnil (heq ▸ hx)))
    have hW : σ' w.tvr.tvrIdent = ρ w.tvr.tvrIdent := by
      have hname : w.tvr.tvrIdent = workerName b.tvr.tvrIdent := by rw [hwtvr]; rfl
      have hmem : w.tvr.tvrIdent ∉ namess sargs := hname ▸ hyg.worker
      rw [hunp.outside hmem (by rw [hname]; exact fun h => by cases h), sets_of_not]
      exact fun hmem' => hmem (vars_subset_namess (hvars ▸ hmem'))
    refine den_result (μ := μ) ?_ hbody fun n hn => ?_
    · rw [← hworker, den_aps, List.map_append, den_eVars, den_eVar, hW, hρ]
      rw [map_eq_of_forall₂ hunp.args]
      cases cname <;> rfl
    · have hres := hsound.result as has n (by simpa [htypes, ← hvars] using hcname n hn)
      rw [hbodyTyp (by rw [hn]; exact fun h => by cases h)]
      exact hres

/-! ### A pair and a stream -/

/-- The type of an expression as far as the examples have it. -/
def typeOf : E → E
  | .eSort .eStar => .eSort .eStarStar
  | .eSort _ => .eSort .eHashHash
  | .ePi _ _ => .eSort .eStar
  | .eVar t => t.tvrType
  | .eLitInt _ t => t
  | .eLit _ _ t => t
  | .eError _ t => t
  | .ePrim _ _ t => t
  | .eCase _ t _ _ _ => t
  | .eLam t e => .ePi t (typeOf e)
  | .eLetRec _ e => typeOf e
  | .eAp f _ => match typeOf f with
    | .ePi _ t => t
    | _ => .unknown
  | .unknown => .unknown

def conS : Name := ⟨.TypeConstructor, none, ['S']⟩
def conC : Name := ⟨.DataConstructor, none, ['C']⟩
def conD : Name := ⟨.DataConstructor, none, ['D']⟩
def conP : Name := ⟨.TypeConstructor, none, ['P']⟩
def conMkP : Name := ⟨.DataConstructor, none, ['M', 'k', 'P']⟩

def tyS : E := .eLit conS [] (.eSort .eStar)
def tyP : E := .eLit conP [] (.eSort .eStar)

/-- `data S = C S | D; data P = MkP S S`. -/
def terms : Terms where
  getConstructor n :=
    if n = conS then some ⟨conS, s_Star, .dataNormal [conC, conD]⟩
    else if n = conC then some ⟨conC, conS, .dataNone⟩
    else if n = conD then some ⟨conD, conS, .dataNone⟩
    else if n = conP then some ⟨conP, s_Star, .dataNormal [conMkP]⟩
    else if n = conMkP then some ⟨conMkP, conP, .dataNone⟩
    else none
  slotTypes n _ := if n = conC then [tyS] else if n = conMkP then [tyS, tyS] else []
  followAliases := id
  getType := typeOf
  typecheck e := some (typeOf e)
  isAtomic _ := false
  subst _ _ e := e
  typeSubst _ e := e
  candidate _ := 1
  getType_sort s := by cases s <;> rfl
  getType_pi _ _ := rfl
  getType_var _ := rfl

def varF (ty : E) : TVr := .mk (.toId ⟨.Val, none, ['f']⟩) ty
def varX (ty : E) : TVr := .mk (.toId ⟨.Val, none, ['x']⟩) ty

/-- `f x = C (f D)`. -/
def streamF : TVr := varF (.ePi (.mk .emptyId tyS) tyS)
def streamBody : E := .eLit conC [.eAp (.eVar streamF) (.eLit conD [] tyS)] tyS
def stream : E := .eLam (varX tyS) streamBody
def streamBinder : Binder := ⟨streamF, [], some [.absent], some (.fun .top)⟩

/-- Without primitives. -/
def noPrims : PrimTable := fun _ _ _ => False

/-- The function is its own recursive definition. -/
def streamVal : Val := den noPrims (fun _ => ∅) (.eLetRec [.mk streamF stream] (.eVar streamF))

def streamWorker : E := worker terms streamF none .unknown streamBody [.absent (varX tyS)]
def streamW : TVr := .mk (workerName streamF.tvrIdent) (typeOf streamWorker)

def streamEnv : Env := fun x =>
  if x = streamF.tvrIdent then streamVal
  else if x = streamW.tvrIdent then den noPrims (fun _ => ∅) streamWorker
  else ∅

theorem wrappable_stream : wrappable terms streamBinder stream = some (none, streamBody, [.absent (varX tyS)]) := rfl

theorem applies_stream {ρ : Env} {v : Val} : applies (den noPrims ρ stream) [v] =
    construct (.con conC) [apply (ρ streamF.tvrIdent) (construct (.con conD) [])] := by
  rw [applies_cons, applies_nil, stream, apply_den_eLam, streamBody, den_eLit]
  simp only [List.map_cons, List.map_nil, den_eAp, den_eVar, den_eLit]
  rw [Env.set_of_not (by decide)]

theorem freeIds_stream : freeIds stream = [streamF.tvrIdent] := by rfl

theorem freeIds_streamWorker : freeIds streamWorker = [] := by rfl

theorem streamVal_eq : streamVal = den noPrims streamEnv stream := by
  rw [streamVal, den_eLetRec, den_eVar, recEnv_of_def rfl]
  refine den_congr fun x hx => ?_
  have hx' : x ∈ freeIds stream := hx
  rw [freeIds_stream, List.mem_singleton] at hx'
  subst hx'
  have hfix : den noPrims (fun _ => ∅) (.eLetRec [.mk streamF stream] (.eVar streamF)) =
      den noPrims (recEnv noPrims (fun _ => ∅) [.mk streamF stream]) (.eVar streamF) := den_eLetRec
  rw [den_eVar] at hfix
  exact hfix.symm

theorem streamWorker_eq : streamWorker = .eLam (.mk streamF.tvrIdent (ltTuple' []))
    (.eLetRec [.mk (varX tyS) (.eError "WorkWrap.Absent.f.0" tyS)] streamBody) := rfl

/-- In the worker the function is the empty tuple, whose call does not end. -/
theorem apply_streamWorker {ρ : Env} :
    apply (den noPrims ρ streamWorker) (den noPrims ρ (unboxedTuple [])) = construct (.con conC) [∅] := by
  rw [streamWorker_eq, apply_den_eLam, den_eLetRec, streamBody, den_eLit]
  simp only [List.map_cons, List.map_nil, den_eAp, den_eVar]
  have hf : (ρ.set (.mk streamF.tvrIdent (ltTuple' [])) (den noPrims ρ (unboxedTuple []))) streamF.tvrIdent =
      den noPrims ρ (unboxedTuple []) := Env.set_of_binds rfl
  rw [recEnv_of_not (by decide), hf, unboxedTuple, den_eLit, apply_construct]

/-- A sound signature, a function that is called recursively, and no argument left for the worker. -/
theorem stream_sound (ρ : Env) : Sound terms streamBinder [tyS] tyS (applies (den noPrims ρ stream)) where
  absent as bs has hbs _ := by
    obtain ⟨v, rfl⟩ := List.length_eq_one_iff.1 has.length_eq.symm
    obtain ⟨w, rfl⟩ := List.length_eq_one_iff.1 hbs.length_eq.symm
    rw [applies_stream, applies_stream]
  strict as has i v hi hlack := by
    obtain ⟨w, rfl⟩ := List.length_eq_one_iff.1 has.length_eq.symm
    cases i with
    | zero => cases hlack
    | succ i => cases hi
  result as _ n hn := by cases hn

/-- The worker of a recursive function calls its dummy argument: the wrapper is not the function. -/
theorem stream_not_wrapped : ∃ f w wr wk, workWrap' terms streamBinder stream = some ((f, wr), (w, wk)) ∧
    streamEnv w.tvr.tvrIdent = den noPrims streamEnv wk ∧
    streamEnv streamF.tvrIdent = den noPrims streamEnv stream ∧
    Sound terms streamBinder [tyS] tyS (applies (den noPrims streamEnv stream)) ∧ Inhabits terms tyS ∅ ∧
    applies (den noPrims streamEnv wr) [∅] ≠ applies (den noPrims streamEnv stream) [∅] := by
  have hW : streamEnv streamW.tvrIdent = den noPrims (fun _ => ∅) streamWorker := rfl
  have hclosed : ∀ ρ, den noPrims ρ streamWorker = den noPrims (fun _ => ∅) streamWorker :=
    fun ρ => den_congr fun x hx => by
      rw [freeIds_streamWorker] at hx
      cases hx
  refine ⟨_, _, _, _, rfl, hW.trans (hclosed _).symm, streamVal_eq, stream_sound _, inhabits_empty rfl, fun heq => ?_⟩
  have hfun : .field (.con conC) 0 (.con (.con conC)) ∈ applies (den noPrims streamEnv stream) [∅] := by
    rw [applies_stream]
    refine field_mem_construct.2 ⟨rfl, _, rfl, ?_⟩
    have hcall : streamEnv streamF.tvrIdent = den noPrims streamEnv stream := streamVal_eq
    have happ := applies_stream (ρ := streamEnv) (v := construct (.con conD) [])
    rw [applies_cons, applies_nil] at happ
    rw [hcall, happ]
    exact con_mem_construct.2 rfl
  rw [← heq] at hfun
  have hwr : applies (den noPrims streamEnv (wrapper terms streamF streamW none .unknown [.absent (varX tyS)])) [∅] =
      construct (.con conC) [∅] := by
    have hdef : wrapper terms streamF streamW none .unknown [.absent (varX tyS)] =
        .eLam (varX tyS) (.eAp (.eVar streamW) (unboxedTuple [])) := rfl
    rw [hdef, applies_cons, applies_nil, apply_den_eLam, den_eAp, den_eVar, Env.set_of_not (by decide), hW,
      ← hclosed (streamEnv.set (varX tyS) ∅), apply_streamWorker]
  obtain ⟨-, v, hv, hmem⟩ := field_mem_construct.1 (hwr.subset hfun)
  cases hv
  exact hmem

/-! A function of a pair that uses its first component. -/

def varP : TVr := .mk (.toId ⟨.Val, none, ['p']⟩) tyP
def varA : TVr := .mk (.toId ⟨.Val, none, ['a']⟩) tyS
def varB : TVr := .mk (.toId ⟨.Val, none, ['b']⟩) tyS

def firstF : TVr := varF (.ePi (.mk .emptyId tyP) tyS)
def firstBody : E := .eCase (.eVar varP) tyS (.mk .emptyId tyP) [.litCons conMkP [varA, varB] tyP (.eVar varA)] none
def first : E := .eLam varP firstBody
def firstBinder : Binder := ⟨firstF, [], some [.s (.product [lazy, .absent])], some (.fun .top)⟩

def firstArgs : List Arg :=
  [.cons ⟨conMkP, conP, .dataNone⟩ [.plain (.mk (tmpName .Val varP.tvrIdent 1) tyS),
    .absent (.mk (tmpName .Val varP.tvrIdent 2) tyS)] varP]

def firstWorker : E := worker terms firstF none .unknown firstBody firstArgs
def firstW : TVr := .mk (workerName firstF.tvrIdent) (typeOf firstWorker)
def firstEnv : Env := fun _ => den noPrims (fun _ => ∅) firstWorker

theorem first_hygienic : Hygienic terms firstBinder firstBody firstArgs where
  distinct := by unfold Distinct; decide
  worker := by decide
  fields := by decide
  unused := by decide
  lifted t ht := by
    rw [List.mem_singleton.1 ht]
    rfl
  self h := by cases h

theorem applies_first {ρ : Env} {v : Val} (hv : Inhabits terms tyP v) :
    v = ∅ ∧ applies (den noPrims ρ first) [v] = ∅ ∨
      ∃ a b, v = construct (.con conMkP) [a, b] ∧ applies (den noPrims ρ first) [v] = a := by
  have happ : applies (den noPrims ρ first) [v] = den noPrims (ρ.set varP v) firstBody := by
    rw [applies_cons, applies_nil, first, apply_den_eLam]
  have hscrut : den noPrims (ρ.set varP v) (.eVar varP) = v := by rw [den_eVar, Env.set_of_binds rfl]
  rcases hv.product (c := ⟨conMkP, conP, .dataNone⟩) rfl with rfl | ⟨vs, rfl, hvs⟩
  · refine .inl ⟨rfl, happ.trans (den_eCase_undefined ?_)⟩
    rw [hscrut]
    exact not_defined_empty
  · match vs, hvs with
    | [a, b], _ =>
      have hsel : selects [.litCons conMkP [varA, varB] tyP (.eVar varA)] none (some (.con conMkP)) =
          some ([varA, varB], .eVar varA) := rfl
      refine .inr ⟨a, b, rfl, happ.trans ?_⟩
      rw [firstBody, den_eCase_construct hscrut hsel (by simp), den_eVar]
      simp [Env.sets, Env.set, varA, varB, TVr.tvrIdent]

/-- Values that differ in an absent second component have the same first component. -/
theorem first_field {a b v : Val} {s : SubDemand} (hlazy : demandAt s 0 = lazy)
    (h : SameBut (.s s) (construct (.con conMkP) [a, b]) v) (f : Inf) (hf : f ∈ a) : .field (.con conMkP) 0 f ∈ v := by
  have hmem : .field (.con conMkP) 0 f ∈ construct (.con conMkP) [a, b] := field_mem_construct.2 ⟨rfl, a, rfl, hf⟩
  generalize construct (.con conMkP) [a, b] = u at h hmem
  cases h with
  | refl => exact hmem
  | @fields s c vs ws hlen h =>
    obtain ⟨hc, x, hx, hfx⟩ := field_mem_construct.1 hmem
    have hlt : 0 < ws.length := hlen ▸ (List.getElem?_eq_some_iff.1 hx).1
    have hsame := h 0 x ws[0] hx (List.getElem?_eq_getElem hlt)
    rw [hlazy] at hsame
    refine field_mem_construct.2 ⟨hc, ws[0], List.getElem?_eq_getElem hlt, ?_⟩
    cases hsame
    exact hfx

theorem SameBut.symm {d : Demand} {v w : Val} (h : SameBut d v w) : SameBut d w v := by
  induction h with
  | refl => exact .refl _ _
  | absent => exact .absent _ _
  | fields hlen _ ih => exact .fields hlen.symm fun i v w hv hw => ih i w v hw hv

theorem first_sound (ρ : Env) : Sound terms firstBinder [tyP] tyS (applies (den noPrims ρ first)) where
  absent as bs has hbs h := by
    obtain ⟨v, rfl⟩ := List.length_eq_one_iff.1 has.length_eq.symm
    obtain ⟨w, rfl⟩ := List.length_eq_one_iff.1 hbs.length_eq.symm
    have hsame : SameBut (.s (.product [lazy, .absent])) v w := h 0 v w rfl rfl
    cases has with
    | cons hv _ =>
      cases hbs with
      | cons hw _ =>
        rcases applies_first (ρ := ρ) hv with ⟨rfl, hv⟩ | ⟨a, b, rfl, hv⟩
        · rcases applies_first (ρ := ρ) hw with ⟨rfl, hw⟩ | ⟨a', b', rfl, hw⟩
          · rfl
          · generalize he : (∅ : Val) = u at hsame
            generalize hc : construct (.con conMkP) [a', b'] = u' at hsame
            cases hsame with
            | refl => exact absurd (hc.trans he.symm) construct_ne_empty
            | fields => exact absurd he.symm construct_ne_empty
        · rcases applies_first (ρ := ρ) hw with ⟨rfl, hw⟩ | ⟨a', b', rfl, hw⟩
          · generalize he : (∅ : Val) = u at hsame
            generalize hc : construct (.con conMkP) [a, b] = u' at hsame
            cases hsame with
            | refl => exact absurd (hc.trans he.symm) construct_ne_empty
            | fields => exact absurd he.symm construct_ne_empty
          · rw [hv, hw]
            ext f
            refine ⟨fun hf => ?_, fun hf => ?_⟩
            · obtain ⟨-, x, hx, hfx⟩ := field_mem_construct.1 (first_field rfl hsame f hf)
              cases hx
              exact hfx
            · obtain ⟨-, x, hx, hfx⟩ := field_mem_construct.1 (first_field rfl hsame.symm f hf)
              cases hx
              exact hfx
  strict as has i v hi hlack := by
    obtain ⟨w, rfl⟩ := List.length_eq_one_iff.1 has.length_eq.symm
    cases i with
    | succ i => cases hi
    | zero =>
      cases hi
      cases has with
      | cons hv _ =>
        rcases applies_first (ρ := ρ) hv with ⟨-, hv⟩ | ⟨a, b, rfl, hv⟩
        · exact hv
        · generalize hc : construct (.con conMkP) [a, b] = u at hlack
          cases hlack with
          | bot => exact absurd hc construct_ne_empty
          | @field s c vs i v hi h =>
            match i, h with
            | 0, h => cases h
            | 1, h => cases h
            | _ + 2, h => cases h
  result as _ n hn := by cases hn

/-- The wrapper of `first` at a pair whose second component does not end. -/
theorem first_wrapped :
    applies (den noPrims firstEnv (wrapper terms firstF firstW none .unknown firstArgs))
        [construct (.con conMkP) [construct (.con conD) [], ∅]] =
      applies (den noPrims firstEnv first) [construct (.con conMkP) [construct (.con conD) [], ∅]] := by
  have hclosed : freeIds firstWorker = [] := by decide +kernel
  have hW : firstEnv firstW.tvrIdent = den noPrims firstEnv firstWorker := by
    refine den_congr fun x hx => ?_
    rw [hclosed] at hx
    cases hx
  have htyS : ∀ v, Inhabits terms tyS v := fun v => .intro (fun h => by cases h) fun c hc => by cases hc
  have harg : Inhabits terms tyP (construct (.con conMkP) [construct (.con conD) [], ∅]) := by
    refine .intro (fun h => by cases h) fun c hc => ?_
    cases hc
    exact .inr ⟨_, rfl, .cons (htyS _) (.cons (htyS _) .nil)⟩
  exact (workWrap'_wraps terms firstBinder first firstBody none firstArgs rfl first_hygienic ⟨firstF, [.wrapper]⟩
    ⟨firstW, [.worker]⟩ _ firstWorker rfl).2 noPrims firstEnv hW (first_sound firstEnv) _ (.cons harg .nil)

end Jhc.E.WorkerWrapper

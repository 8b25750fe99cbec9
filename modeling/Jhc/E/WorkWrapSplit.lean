import Jhc.E.Compositional
import Jhc.E.WorkerWrapper

/-!
# Sound signatures and the values that are taken apart

What a signature of demands and of the constructed result says of a function, and what the
worker gets of the values of the arguments.
-/

namespace Jhc.E.WorkerWrapper
open Jhc.Lib Jhc.Lib.Value
open Jhc.FrontEnd.Exports (Name)

/-! ### Values of a type -/

/-- The value has the form that its type requires as far as unpacking sees it. -/
def Inhabits (T : Terms) (ty : E) (v : Val) : Prop :=
  ∃ R : E → Val → Prop, R ty v ∧ ∀ ty v, R ty v → (isUnboxed T ty = true → v.Defined) ∧
    ∀ c, getProduct T ty = some c →
      v = ∅ ∨ ∃ vs, v = construct (.con c.conName) vs ∧ List.Forall₂ R (T.slotTypes c.conName ty) vs

/-! ### Signatures -/

def demandAt : SubDemand → ℕ → Demand
  | .none, _ => lazy
  | .product ds, i => ds.getD i lazy

/-- The values differ in absent parts only. -/
inductive SameBut : Demand → Val → Val → Prop
  | refl (d : Demand) (v : Val) : SameBut d v v
  | absent (v w : Val) : SameBut .absent v w
  | fields {s : SubDemand} {c : Head} {vs ws : List Val} (hlen : vs.length = ws.length)
      (h : ∀ i v w, vs[i]? = some v → ws[i]? = some w → SameBut (demandAt s i) v w) :
      SameBut (.s s) (construct c vs) (construct c ws)

/-- A part that is demanded strictly does not end. -/
inductive Lacks : Demand → Val → Prop
  | bot (s : SubDemand) : Lacks (.s s) ∅
  | field {s : SubDemand} {c : Head} {vs : List Val} {i : ℕ} {v : Val} (hi : vs[i]? = some v)
      (h : Lacks (demandAt s i) v) : Lacks (.s s) (construct c vs)

/-- The constructed result of a function after `n` arguments. -/
def resultOf : CPR → ℕ → Option Name
  | .fun v, n + 1 => resultOf v n
  | .tup n _, 0 => some n
  | .tag [n], 0 => some n
  | _, _ => none

/-- The signature of `b` holds of the function `F` of arguments of types `ts` with results of type `ty`. -/
structure Sound (T : Terms) (b : Binder) (ts : List E) (ty : E) (F : List Val → Val) : Prop where
  absent : ∀ as bs, List.Forall₂ (Inhabits T) ts as → List.Forall₂ (Inhabits T) ts bs →
    (∀ i v w, as[i]? = some v → bs[i]? = some w → SameBut ((b.demand.getD []).getD i lazy) v w) → F as = F bs
  strict : ∀ as, List.Forall₂ (Inhabits T) ts as →
    ∀ i v, as[i]? = some v → Lacks ((b.demand.getD []).getD i lazy) v → F as = ∅
  result : ∀ as, List.Forall₂ (Inhabits T) ts as → ∀ n, resultOf (b.cpr.getD .top) ts.length = some n →
    F as = ∅ ∨ ∃ vs, F as = construct (.con n) vs ∧ List.Forall₂ (Inhabits T) (T.slotTypes n ty) vs

section
variable {T : Terms} {ty : E} {v : Val} {t : TVr} {c : Constructor} {as ts : List Arg} {vs ws rs : List Val}

theorem Inhabits.product (h : Inhabits T ty v) (hc : getProduct T ty = some c) :
    v = ∅ ∨ ∃ vs, v = construct (.con c.conName) vs ∧ List.Forall₂ (Inhabits T) (T.slotTypes c.conName ty) vs := by
  obtain ⟨R, hR, hstep⟩ := h
  rcases (hstep ty v hR).2 c hc with hv | ⟨vs, hv, hvs⟩
  · exact .inl hv
  · exact .inr ⟨vs, hv, hvs.imp fun ty v h => ⟨R, h, hstep⟩⟩

theorem Inhabits.defined (h : Inhabits T ty v) (hty : isUnboxed T ty = true) : v.Defined := by
  obtain ⟨R, hR, hstep⟩ := h
  exact (hstep ty v hR).1 hty

theorem Inhabits.intro (hun : isUnboxed T ty = true → v.Defined)
    (h : ∀ c, getProduct T ty = some c →
      v = ∅ ∨ ∃ vs, v = construct (.con c.conName) vs ∧ List.Forall₂ (Inhabits T) (T.slotTypes c.conName ty) vs) :
    Inhabits T ty v := by
  refine ⟨fun ty' v' => Inhabits T ty' v' ∨ ty' = ty ∧ v' = v, .inr ⟨rfl, rfl⟩, ?_⟩
  have hlift : ∀ c ty', (v = ∅ ∨ ∃ vs, v = construct (.con c) vs ∧ List.Forall₂ (Inhabits T) (T.slotTypes c ty') vs) → 
      v = ∅ ∨ ∃ vs, v = construct (.con c) vs ∧
        List.Forall₂ (fun ty' v' => Inhabits T ty' v' ∨ ty' = ty ∧ v' = v) (T.slotTypes c ty') vs :=
    fun c ty' h => h.imp_right fun ⟨vs, hv, hvs⟩ => ⟨vs, hv, hvs.imp fun _ _ h => .inl h⟩
  rintro ty' v' (h' | ⟨rfl, rfl⟩)
  · refine ⟨h'.defined, fun c hc => ?_⟩
    exact (h'.product hc).imp_right fun ⟨vs, hv, hvs⟩ => ⟨vs, hv, hvs.imp fun _ _ h => .inl h⟩
  · exact ⟨hun, fun c hc => hlift _ _ (h c hc)⟩

/-- Of a lifted type the computation that does not end is a value. -/
theorem inhabits_empty (h : isUnboxed T ty = false) : Inhabits T ty ∅ :=
  .intro (fun hun => by rw [h] at hun; cases hun) fun _ _ => .inl rfl

/-! ### What the worker gets -/

/-- Of the values `vs` of the arguments the worker gets `ws`, of which it builds `rs` again. -/
inductive Splits (T : Terms) : List Arg → List Val → List Val → List Val → Prop
  | nil : Splits T [] [] [] []
  | absent {t : TVr} {as : List Arg} {v r : Val} {vs ws rs : List Val}
      (hr : t.tvrIdent ≠ .emptyId → r = ∅ ∧ isLifted T (.eVar t) = true)
      (h : Splits T as vs ws rs) : Splits T (.absent t :: as) (v :: vs) ws (r :: rs)
  | plain {t : TVr} {as : List Arg} {v : Val} {vs ws rs : List Val} (ht : t.tvrIdent ≠ .emptyId)
      (h : Splits T as vs ws rs) : Splits T (.plain t :: as) (v :: vs) (v :: ws) (v :: rs)
  | cons {c : Constructor} {ts as : List Arg} {t : TVr} {us us' vs ws ws' rs : List Val} (ht : t.tvrIdent ≠ .emptyId)
      (hnamed : ∀ a ∈ ts, a.var.tvrIdent ≠ .emptyId) (hts : Splits T ts us ws' us') (h : Splits T as vs ws rs) :
      Splits T (.cons c ts t :: as) (construct (.con c.conName) us :: vs) (ws' ++ ws)
        (construct (.con c.conName) us' :: rs)

/-- Unpacking the values meets a computation that does not end. -/
inductive Stops (T : Terms) : List Arg → List Val → Prop
  | here {c : Constructor} {ts as : List Arg} {t : TVr} {vs : List Val} (ht : t.tvrIdent ≠ .emptyId) :
      Stops T (.cons c ts t :: as) (∅ :: vs)
  | inside {c : Constructor} {ts as : List Arg} {t : TVr} {us vs : List Val} (ht : t.tvrIdent ≠ .emptyId)
      (hnamed : ∀ a ∈ ts, a.var.tvrIdent ≠ .emptyId) (hlen : ts.length = us.length) (h : Stops T ts us) :
      Stops T (.cons c ts t :: as) (construct (.con c.conName) us :: vs)
  | later {a : Arg} {as : List Arg} {v r : Val} {vs ws : List Val} (ha : Splits T [a] [v] ws [r]) (h : Stops T as vs) :
      Stops T (a :: as) (v :: vs)

theorem Splits.length (h : Splits T as vs ws rs) : as.length = vs.length ∧ as.length = rs.length := by
  induction h with
  | nil => exact ⟨rfl, rfl⟩
  | absent _ _ ih => exact ⟨congrArg (· + 1) ih.1, congrArg (· + 1) ih.2⟩
  | plain _ _ ih => exact ⟨congrArg (· + 1) ih.1, congrArg (· + 1) ih.2⟩
  | cons _ _ _ _ _ ih => exact ⟨congrArg (· + 1) ih.1, congrArg (· + 1) ih.2⟩

theorem Splits.push {a : Arg} {v r : Val} {us : List Val} (ha : Splits T [a] [v] us [r]) (h : Splits T as vs ws rs) :
    Splits T (a :: as) (v :: vs) (us ++ ws) (r :: rs) := by
  cases ha with
  | absent hr h' =>
    cases h'
    exact .absent hr h
  | plain ht h' =>
    cases h'
    exact .plain ht h
  | cons ht hnamed hts h' =>
    cases h'
    rw [List.append_nil]
    exact .cons ht hnamed hts h

theorem Stops.push {a : Arg} {v : Val} (h : Stops T [a] [v]) : Stops T (a :: as) (v :: vs) := by
  cases h with
  | here ht => exact .here ht
  | inside ht hnamed hlen h => exact .inside ht hnamed hlen h
  | later _ h => cases h

/-! ### The arguments of a signature -/

theorem gLazy_splits (T : Terms) (t : TVr) (v : Val) : ∃ ws, Splits T [gLazy t] [v] ws [v] := by
  unfold gLazy
  by_cases ht : t.tvrIdent = .emptyId
  · rw [if_pos ht]
    exact ⟨[], .absent (fun h => absurd ht h) .nil⟩
  · rw [if_neg ht]
    exact ⟨[v], .plain ht .nil⟩

theorem map_gLazy_splits (T : Terms) {ts : List TVr} (hlen : ts.length = vs.length) : ∃ ws, Splits T (ts.map gLazy) vs ws vs := by
  induction ts generalizing vs with
  | nil =>
    obtain rfl := List.length_eq_zero_iff.1 hlen.symm
    exact ⟨[], .nil⟩
  | cons t ts ih =>
    cases vs with
    | nil => cases hlen
    | cons v vs =>
      obtain ⟨ws, hsplit⟩ := gLazy_splits T t v
      obtain ⟨ws', hsplit'⟩ := ih (by simpa using hlen)
      exact ⟨ws ++ ws', hsplit.push hsplit'⟩

@[simp] theorem var_gLazy : (gLazy t).var = t := by
  unfold gLazy
  split <;> rfl

@[simp] theorem var_g {d : Demand} : (g T t d).var = t := by
  cases d with
  | s subs =>
    rw [g]
    split
    · rfl
    · split <;> rfl
  | absent =>
    rw [g]
    split
    · rfl
    · split <;> rfl
  | bottom => rw [g, var_gLazy]
  | l s => rw [g, var_gLazy]
  | error s => rw [g, var_gLazy]

theorem vars_gZip (T : Terms) (ts : List TVr) (ds : List Demand) : (gZip T ts ds).map Arg.var = ts := by
  induction ds generalizing ts with
  | nil =>
    rw [gZip, List.map_map]
    exact List.map_id'' (fun t => var_gLazy) ts
  | cons d ds ih =>
    cases ts with
    | nil => rfl
    | cons t ts => simp only [gZip, List.map_cons, var_g, ih]

theorem vars_gFields (T : Terms) (ts : List TVr) (s : SubDemand) : (gFields T ts s).map Arg.var = ts := by
  cases s with
  | none =>
    rw [gFields, List.map_map]
    exact List.map_id'' (fun t => var_gLazy) ts
  | product ds => rw [gFields, vars_gZip]

theorem named_gFields {s : SubDemand} : ∀ a ∈ gFields T (fieldVars T c t) s, a.var.tvrIdent ≠ .emptyId := by
  intro a ha
  have hvar : a.var ∈ fieldVars T c t := by
    rw [← vars_gFields T (fieldVars T c t) s]
    exact List.mem_map_of_mem ha
  obtain ⟨i, hi, hvar⟩ := List.getElem_of_mem hvar
  rw [← hvar]
  simp [fieldVars, TVr.tvrIdent, tmpName]

theorem fieldVars_types : (fieldVars T c t).map TVr.tvrType = T.slotTypes c.conName t.tvrType := by
  refine List.ext_getElem (by simp [fieldVars]) fun i h₁ h₂ => ?_
  simp [fieldVars, TVr.tvrType]

/-- What is said of an argument whose demand is `d`, of the arguments of a constructor, of all arguments. -/
def Answer (T : Terms) (as : List Arg) (d : ℕ → Demand) (tys : List E) (vs : List Val) : Prop :=
  (Stops T as vs ∧ ∃ i v, vs[i]? = some v ∧ Lacks (d i) v) ∨
    ∃ ws, ∃ rs : List Val, Splits T as vs ws rs ∧ (∀ i v r, vs[i]? = some v → rs[i]? = some r → SameBut (d i) v r) ∧
      List.Forall₂ (Inhabits T) tys rs

/-- The worker gets the values as they are. -/
theorem Answer.same {d : ℕ → Demand} {tys : List E} (h : Splits T as vs ws vs) (hvs : List.Forall₂ (Inhabits T) tys vs) :
    Answer T as d tys vs := by
  refine .inr ⟨ws, vs, h, fun i v r hv hr => ?_, hvs⟩
  cases hv.symm.trans hr
  exact .refl _ _

theorem map_gLazy_answer {ts : List TVr} {d : ℕ → Demand} (hvs : List.Forall₂ (Inhabits T) (ts.map TVr.tvrType) vs) :
    Answer T (ts.map gLazy) d (ts.map TVr.tvrType) vs := by
  obtain ⟨ws, hsplit⟩ := map_gLazy_splits T (by simpa using hvs.length_eq)
  exact .same hsplit hvs

theorem gLazy_answer {d : ℕ → Demand} (hv : Inhabits T t.tvrType v) : Answer T [gLazy t] d [t.tvrType] [v] := by
  have hone : Answer T ([t].map gLazy) d ([t].map TVr.tvrType) [v] := map_gLazy_answer (.cons hv .nil)
  exact hone

theorem isLifted_var (h : isLifted T (.eVar t) = true) :
    isUnboxed T t.tvrType = false ∧ sortKindLike T t.tvrType = false := by
  simp only [isLifted, T.getType_var, Bool.and_eq_true, Bool.not_eq_true'] at h
  refine ⟨h.2, ?_⟩
  have hsort : sortTypeLike T t.tvrType = true := by simpa [sortTermLike, T.getType_var] using h.1
  unfold sortTypeLike at hsort
  split at hsort
  · cases hsort
  · rename_i ty hty
    unfold sortKindLike at hsort ⊢
    split
    · rename_i s hs
      exact absurd hs (hty s)
    · split at hsort
      · rename_i s hs
        rw [hs]
        simpa using hsort
      · rename_i hs
        generalize hk : T.getType t.tvrType = k at hs ⊢
        cases k with
        | eSort s => exact absurd rfl (hs s)
        | _ => rfl

mutual

theorem g_answer (t : TVr) : (d : Demand) → (v : Val) → Inhabits T t.tvrType v →
    Answer T [g T t d] (fun _ => d) [t.tvrType] [v]
  | .s subs, v, hv => by
    rw [g]
    by_cases ht : t.tvrIdent = .emptyId
    · rw [if_pos ht]
      exact .same (.absent (fun h => absurd ht h) .nil) (.cons hv .nil)
    · rw [if_neg ht]
      cases hc : getProduct T t.tvrType with
      | none =>
        exact .same (.plain ht .nil) (.cons hv .nil)
      | some c =>
        rcases hv.product hc with rfl | ⟨vs, rfl, hvs⟩
        · exact .inl ⟨.here ht, 0, ∅, rfl, .bot subs⟩
        · rcases gFields_answer (fieldVars T c t) subs vs (by rwa [fieldVars_types]) with
            ⟨hstop, i, u, hu, hlack⟩ | ⟨ws, rs, hsplit, hsame, hrs⟩
          · have hlen : (gFields T (fieldVars T c t) subs).length = vs.length := by
              have hvars := congrArg List.length (vars_gFields T (fieldVars T c t) subs)
              rw [List.length_map] at hvars
              rw [hvars, ← hvs.length_eq, ← fieldVars_types, List.length_map]
            exact .inl ⟨.inside ht named_gFields hlen hstop, 0, _, rfl, .field hu hlack⟩
          · refine .inr ⟨ws, [construct (.con c.conName) rs], by simpa using Splits.cons ht named_gFields hsplit .nil, ?_, .cons ?_ .nil⟩
            · intro i v r hv hr
              cases i <;> cases hv
              cases hr
              exact .fields (hsplit.length.1.symm.trans hsplit.length.2) hsame
            · refine .intro (fun _ => defined_construct) fun c' hc' => ?_
              cases hc.symm.trans hc'
              rw [fieldVars_types] at hrs
              exact .inr ⟨rs, rfl, hrs⟩
  | .absent, v, hv => by
    rw [g]
    by_cases ht : t.tvrIdent = .emptyId
    · rw [if_pos ht]
      exact .same (.absent (fun h => absurd ht h) .nil) (.cons hv .nil)
    · rw [if_neg ht]
      by_cases hl : isLifted T (.eVar t) = true
      · rw [if_pos hl]
        exact .inr ⟨[], [∅], .absent (fun _ => ⟨rfl, hl⟩) .nil, fun i v r _ _ => .absent v r,
          .cons (inhabits_empty (isLifted_var hl).1) .nil⟩
      · rw [if_neg hl]
        exact .same (.plain ht .nil) (.cons hv .nil)
  | .bottom, v, hv => by
    rw [g]
    exact gLazy_answer hv
  | .l _, v, hv => by
    rw [g]
    exact gLazy_answer hv
  | .error _, v, hv => by
    rw [g]
    exact gLazy_answer hv

theorem gFields_answer (ts : List TVr) : (s : SubDemand) → (vs : List Val) →
    List.Forall₂ (Inhabits T) (ts.map TVr.tvrType) vs → Answer T (gFields T ts s) (demandAt s) (ts.map TVr.tvrType) vs
  | .none, vs, hvs => by
    rw [gFields]
    exact map_gLazy_answer hvs
  | .product ds, vs, hvs => by
    rw [gFields]
    exact gZip_answer ts ds vs hvs

theorem gZip_answer (ts : List TVr) : (ds : List Demand) → (vs : List Val) →
    List.Forall₂ (Inhabits T) (ts.map TVr.tvrType) vs →
    Answer T (gZip T ts ds) (fun i => ds.getD i lazy) (ts.map TVr.tvrType) vs
  | [], vs, hvs => by
    rw [gZip]
    exact map_gLazy_answer hvs
  | d :: ds, vs, hvs => by
    cases ts with
    | nil =>
      cases hvs
      exact .same .nil .nil
    | cons t ts =>
      cases hvs with
      | @cons _ v _ vs hv hvs =>
        simp only [gZip]
        rcases g_answer t d v hv with ⟨hstop, i, u, hu, hlack⟩ | ⟨ws, rs, hsplit, hsame, hrs⟩
        · refine .inl ⟨hstop.push, 0, v, rfl, ?_⟩
          cases i <;> cases hu
          exact hlack
        · obtain ⟨r, rfl⟩ : ∃ r, rs = [r] := List.length_eq_one_iff.1 hsplit.length.2.symm
          have hr : Inhabits T t.tvrType r := by
            cases hrs with
            | cons hr _ => exact hr
          rcases gZip_answer ts ds vs hvs with ⟨hstop, i, u, hu, hlack⟩ | ⟨ws', rs', hsplit', hsame', hrs'⟩
          · exact .inl ⟨.later hsplit hstop, i + 1, u, hu, hlack⟩
          · refine .inr ⟨ws ++ ws', r :: rs', hsplit.push hsplit', fun i v r hv hr => ?_, .cons hr hrs'⟩
            cases i with
            | zero => exact hsame 0 v r hv hr
            | succ i => exact hsame' i v r hv hr

end

end

end Jhc.E.WorkerWrapper

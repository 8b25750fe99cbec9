import Jhc.E.ScopeCheck

/-!
# What a passed scope check says (E/Traverse.hs:162-183)
-/

namespace Jhc.E

theorem ok_bind {ε : Type} (x y : Except ε Unit) :
    (do x; y) = .ok () ↔ x = .ok () ∧ y = .ok () := by
  cases x with
  | error e =>
    constructor
    · intro h
      cases h
    · intro h
      cases h.1
  | ok u => exact ⟨fun h => ⟨rfl, h⟩, fun h => h.2⟩

theorem scopeVar_ok (m : Scope) (t : TVr) :
    scopeVar true m t = .ok () ↔ Occurrence.WellScoped ⟨true, m, t⟩ := by
  unfold scopeVar Occurrence.WellScoped
  cases hm : m t.tvrIdent with
  | none => simp [hm]
  | some t' => simp [hm]

/-- The occurrences that the check looks at are in scope. -/
def Passed (os : List Occurrence) : Prop := ∀ o ∈ os, o.visited = true → o.WellScoped

@[simp] theorem passed_nil : Passed [] := by
  intro o ho
  cases ho

@[simp] theorem passed_append (os ps : List Occurrence) :
    Passed (os ++ ps) ↔ Passed os ∧ Passed ps := by
  simp only [Passed,List.mem_append,or_imp,forall_and]

@[simp] theorem passed_cons (o : Occurrence) (os : List Occurrence) :
    Passed (o :: os) ↔ (o.visited = true → o.WellScoped) ∧ Passed os := by
  simp only [Passed,List.mem_cons,forall_eq_or_imp]

theorem passed_of_unvisited {os : List Occurrence} (h : ∀ o ∈ os, o.visited = false) : Passed os := by
  intro o ho hv
  rw [h o ho] at hv
  cases hv

/-! ### The places without a visit -/

mutual

theorem unvisited (m : Scope) : (e : E) → ∀ o ∈ occurrences false m e, o.visited = false
  | .eLam t e => by
      have ht := unvisited_binder m t
      have he := unvisited (m.minsert t) e
      simpa only [occurrences,List.forall_mem_append] using And.intro ht he
  | .ePi t e => by
      have ht := unvisited_binder m t
      have he := unvisited (m.minsert t) e
      simpa only [occurrences,List.forall_mem_append] using And.intro ht he
  | .eVar t => by
      have ht := unvisited_binder m t
      rw [occurrences,List.forall_mem_cons]
      exact ⟨rfl, ht⟩
  | .eCase e t b as d => by
      have he := unvisited m e
      have ht := unvisited m t
      have hb := unvisited_binder m b
      have has := unvisited_alts (m.minsert b) as
      have hd := unvisited_default (m.minsert b) d
      simpa only [occurrences,List.forall_mem_append] using
        And.intro (And.intro (And.intro (And.intro he ht) hb) has) hd
  | .eLetRec ds e => by
      have hb := unvisited_binders m ds
      have hr := unvisited_rhss (m.insertAll (ds.map Def.var)) ds
      have he := unvisited (m.insertAll (ds.map Def.var)) e
      simpa only [occurrences,List.forall_mem_append] using And.intro (And.intro hb hr) he
  | .eAp e₁ e₂ => by
      have h₁ := unvisited m e₁
      have h₂ := unvisited m e₂
      simpa only [occurrences,List.forall_mem_append] using And.intro h₁ h₂
  | .unknown => by
      intro o ho
      cases ho
  | .eSort _ => by
      intro o ho
      cases ho
  | .eLit _ es t => by
      have ht := unvisited m t
      have hes := unvisited_args m es
      simpa only [occurrences,List.forall_mem_append] using And.intro ht hes
  | .eLitInt _ t => unvisited m t
  | .ePrim _ es t => by
      have hes := unvisited_args m es
      have ht := unvisited m t
      simpa only [occurrences,List.forall_mem_append] using And.intro hes ht
  | .eError _ t => unvisited m t

theorem unvisited_binder (m : Scope) :
    (t : TVr) → ∀ o ∈ occurrencesBinder false m t, o.visited = false
  | .mk _ t => unvisited m t

theorem unvisited_defBinder (m : Scope) :
    (d : Def) → ∀ o ∈ occurrencesDefBinder false m d, o.visited = false
  | .mk t _ => unvisited_binder m t

theorem unvisited_binders (m : Scope) :
    (ds : List Def) → ∀ o ∈ occurrencesBinders false m ds, o.visited = false
  | [] => by
      intro o ho
      cases ho
  | d :: ds => by
      have hd := unvisited_defBinder m d
      have hds := unvisited_binders m ds
      simpa only [occurrencesBinders,List.forall_mem_append] using And.intro hd hds

theorem unvisited_rhs (m : Scope) : (d : Def) → ∀ o ∈ occurrencesRhs m d, o.visited = false
  | .mk _ e => unvisited m e

theorem unvisited_rhss (m : Scope) :
    (ds : List Def) → ∀ o ∈ occurrencesRhss m ds, o.visited = false
  | [] => by
      intro o ho
      cases ho
  | d :: ds => by
      have hd := unvisited_rhs m d
      have hds := unvisited_rhss m ds
      simpa only [occurrencesRhss,List.forall_mem_append] using And.intro hd hds

theorem unvisited_args (m : Scope) :
    (es : List E) → ∀ o ∈ occurrencesArgs false m es, o.visited = false
  | [] => by
      intro o ho
      cases ho
  | e :: es => by
      have he := unvisited m e
      have hes := unvisited_args m es
      simpa only [occurrencesArgs,List.forall_mem_append] using And.intro he hes

theorem unvisited_pattern (m : Scope) :
    (ts : List TVr) → ∀ o ∈ occurrencesPattern m ts, o.visited = false
  | [] => by
      intro o ho
      cases ho
  | t :: ts => by
      have ht := unvisited_binder m t
      have hts := unvisited_pattern (m.minsert t) ts
      simpa only [occurrencesPattern,List.forall_mem_append] using And.intro ht hts

theorem unvisited_alt (m : Scope) :
    (a : Alt) → ∀ o ∈ occurrencesAlt false m a, o.visited = false
  | .litCons _ xs t e => by
      have ht := unvisited m t
      have hxs := unvisited_pattern m xs
      have he := unvisited (m.insertAll xs) e
      simpa only [occurrencesAlt,List.forall_mem_append] using And.intro (And.intro ht hxs) he
  | .litInt _ t e => by
      have ht := unvisited m t
      have he := unvisited m e
      simpa only [occurrencesAlt,List.forall_mem_append] using And.intro ht he

theorem unvisited_alts (m : Scope) :
    (as : List Alt) → ∀ o ∈ occurrencesAlts false m as, o.visited = false
  | [] => by
      intro o ho
      cases ho
  | a :: as => by
      have ha := unvisited_alt m a
      have has := unvisited_alts m as
      simpa only [occurrencesAlts,List.forall_mem_append] using And.intro ha has

theorem unvisited_default (m : Scope) :
    (d : Option E) → ∀ o ∈ occurrencesDefault m d, o.visited = false
  | none => by
      intro o ho
      cases ho
  | some e => unvisited m e

end

/-! ### The check passes exactly on the places it visits -/

mutual

theorem scopeCheck_ok (m : Scope) :
    (e : E) → (scopeCheck true m e = .ok () ↔ Passed (occurrences true m e))
  | .eLam t e => by
      rw [scopeCheck,ok_bind,scopeBinder_ok m t,scopeCheck_ok (m.minsert t) e,occurrences,
        passed_append]
  | .ePi t e => by
      rw [scopeCheck,ok_bind,scopeBinder_ok m t,scopeCheck_ok (m.minsert t) e,occurrences,
        passed_append]
  | .eVar t => by
      have hu := passed_of_unvisited (unvisited_binder m t)
      rw [scopeCheck,scopeVar_ok,occurrences,passed_cons]
      exact ⟨fun h => ⟨fun _ => h, hu⟩, fun h => h.1 rfl⟩
  | .eCase e t b as d => by
      have hu := passed_of_unvisited (unvisited_default (m.minsert b) d)
      rw [scopeCheck,ok_bind,ok_bind,ok_bind,scopeCheck_ok m e,scopeCheck_ok m t,
        scopeBinder_ok m b,scopeAlts_ok (m.minsert b) as,occurrences]
      simp only [passed_append,hu,and_true,and_assoc]
  | .eLetRec ds e => by
      have hu := passed_of_unvisited (unvisited_rhss (m.insertAll (ds.map Def.var)) ds)
      rw [scopeCheck,ok_bind,scopeBinders_ok m ds,scopeCheck_ok _ e,occurrences]
      simp only [passed_append,hu,and_true]
  | .eAp e₁ e₂ => by
      rw [scopeCheck,ok_bind,scopeCheck_ok m e₁,scopeCheck_ok m e₂,occurrences,passed_append]
  | .unknown => by simp [scopeCheck,occurrences]
  | .eSort _ => by simp [scopeCheck,occurrences]
  | .eLit _ es t => by
      rw [scopeCheck,ok_bind,scopeCheck_ok m t,scopeArgs_ok m es,occurrences,passed_append]
  | .eLitInt _ t => scopeCheck_ok m t
  | .ePrim _ es t => by
      rw [scopeCheck,ok_bind,scopeArgs_ok m es,scopeCheck_ok m t,occurrences,passed_append]
  | .eError _ t => scopeCheck_ok m t

theorem scopeBinder_ok (m : Scope) :
    (t : TVr) → (scopeBinder true m t = .ok () ↔ Passed (occurrencesBinder true m t))
  | .mk _ t => scopeCheck_ok m t

theorem scopeDefBinder_ok (m : Scope) :
    (d : Def) → (scopeDefBinder true m d = .ok () ↔ Passed (occurrencesDefBinder true m d))
  | .mk t _ => scopeBinder_ok m t

theorem scopeBinders_ok (m : Scope) :
    (ds : List Def) → (scopeBinders true m ds = .ok () ↔ Passed (occurrencesBinders true m ds))
  | [] => by simp [scopeBinders,occurrencesBinders]
  | d :: ds => by
      rw [scopeBinders,ok_bind,scopeDefBinder_ok m d,scopeBinders_ok m ds,occurrencesBinders,
        passed_append]

theorem scopeArgs_ok (m : Scope) :
    (es : List E) → (scopeArgs true m es = .ok () ↔ Passed (occurrencesArgs true m es))
  | [] => by simp [scopeArgs,occurrencesArgs]
  | e :: es => by
      rw [scopeArgs,ok_bind,scopeCheck_ok m e,scopeArgs_ok m es,occurrencesArgs,passed_append]

theorem scopeAlt_ok (m : Scope) :
    (a : Alt) → (scopeAlt true m a = .ok () ↔ Passed (occurrencesAlt true m a))
  | .litCons _ xs t e => by
      have hu := passed_of_unvisited (unvisited_pattern m xs)
      rw [scopeAlt,ok_bind,scopeCheck_ok m t,scopeCheck_ok _ e,occurrencesAlt]
      simp only [passed_append,hu,and_true]
  | .litInt _ t e => by
      rw [scopeAlt,ok_bind,scopeCheck_ok m t,scopeCheck_ok m e,occurrencesAlt,passed_append]

theorem scopeAlts_ok (m : Scope) :
    (as : List Alt) → (scopeAlts true m as = .ok () ↔ Passed (occurrencesAlts true m as))
  | [] => by simp [scopeAlts,occurrencesAlts]
  | a :: as => by
      rw [scopeAlts,ok_bind,scopeAlt_ok m a,scopeAlts_ok m as,occurrencesAlts,passed_append]

end

/-! ### Whether the check is exact -/

/-- Every occurrence is bound, at the type of its binder. -/
def AllScoped (m : Scope) (e : E) : Prop := ∀ o ∈ occurrences true m e, o.WellScoped

/-- The occurrences the check does not look at are bound, at the type of their binder. They stand
in the default of a case, the right-hand sides of a letrec, the types of the variables of a pattern
and the types that occurrences carry. -/
def UnvisitedScoped (m : Scope) (e : E) : Prop :=
  ∀ o ∈ occurrences true m e, o.visited = false → o.WellScoped

theorem allScoped_iff (m : Scope) (e : E) :
    AllScoped m e ↔ Passed (occurrences true m e) ∧ UnvisitedScoped m e := by
  constructor
  · intro h
    exact ⟨fun o ho _ => h o ho, fun o ho _ => h o ho⟩
  · intro h o ho
    cases hv : o.visited with
    | true => exact h.1 o ho hv
    | false => exact h.2 o ho hv

/-- A term in which everything is in scope passes. -/
theorem scopeCheck_of_allScoped {m : Scope} {e : E} (h : AllScoped m e) :
    scopeCheck true m e = .ok () :=
  (scopeCheck_ok m e).mpr ((allScoped_iff m e).mp h).1

theorem scopeCheck_exact_iff (m : Scope) (e : E) :
    (scopeCheck true m e = .ok () ↔ AllScoped m e) ↔
      (UnvisitedScoped m e ∨ ∃ o ∈ occurrences true m e, o.visited = true ∧ ¬ o.WellScoped) := by
  rw [scopeCheck_ok,allScoped_iff]
  constructor
  · intro h
    by_cases hp : Passed (occurrences true m e)
    · exact Or.inl (h.mp hp).2
    · right
      simpa only [Passed,not_forall,exists_prop] using hp
  · intro h
    constructor
    · intro hp
      rcases h with hu | ⟨o, ho, hv, hn⟩
      · exact ⟨hp, hu⟩
      · exact absurd (hp o ho hv) hn
    · intro hp
      exact hp.1

/-- `case 1 of { _ -> x }` and `let y = x in 1`, with nothing in scope. -/
def unboundDefault : E :=
  .eCase (.eLitInt 1 .unknown) .unknown (.mk .emptyId .unknown) []
    (some (.eVar (.mk (.anonymous 2) .unknown)))

def unboundRhs : E :=
  .eLetRec [.mk (.mk (.anonymous 4) .unknown) (.eVar (.mk (.anonymous 2) .unknown))]
    (.eLitInt 1 .unknown)

theorem scopeCheck_unbound :
    (scopeCheck true Scope.empty unboundDefault = .ok () ∧ ¬ AllScoped Scope.empty unboundDefault) ∧
      scopeCheck true Scope.empty unboundRhs = .ok () ∧ ¬ AllScoped Scope.empty unboundRhs := by
  refine ⟨⟨rfl, ?_⟩, rfl, ?_⟩
  · intro h
    have hx := h ⟨false, Scope.empty.minsert (.mk .emptyId .unknown), .mk (.anonymous 2) .unknown⟩
      (by simp [unboundDefault,occurrences,occurrencesBinder,occurrencesAlts,occurrencesDefault])
    obtain ⟨t, ht, _⟩ := hx
    simp [Scope.minsert,Scope.empty,TVr.tvrIdent] at ht
  · intro h
    have hx := h ⟨false, Scope.empty.insertAll [.mk (.anonymous 4) .unknown],
      .mk (.anonymous 2) .unknown⟩
      (by simp [unboundRhs,occurrences,occurrencesBinder,occurrencesBinders,occurrencesDefBinder,
        occurrencesRhss,occurrencesRhs,Def.var])
    obtain ⟨t, ht, _⟩ := hx
    simp [Scope.insertAll,Scope.minsert,Scope.empty,TVr.tvrIdent] at ht

end Jhc.E

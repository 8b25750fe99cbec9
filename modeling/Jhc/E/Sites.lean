import Jhc.E.Syntax

/-!
# Where a variable occurs (E/Subst.hs:101-163; E/FreeVars.hs:60-81)

A site is an occurrence with the binders whose scope it stands in, as the substitution opens them,
and the variables that the collector of free variables removes around it. The two differ in the
types of binders.
-/

namespace Jhc.E
open Jhc.FrontEnd.Exports (Name)

structure Site where
  var : Id
  bound : List Id
  removed : List Id

namespace Site

def Free (o : Site) : Prop := o.var ∉ o.bound

def Kept (o : Site) : Prop := o.var ∉ o.removed

instance (o : Site) : Decidable o.Free := inferInstanceAs (Decidable (o.var ∉ o.bound))

instance (o : Site) : Decidable o.Kept := inferInstanceAs (Decidable (o.var ∉ o.removed))

end Site

/-- What the binder of a letrec, a case or a pattern brings into scope (`ntvr`). -/
def ntvr (t : TVr) (Γ : List Id) : List Id :=
  if t.tvrIdent = .emptyId then Γ else t.tvrIdent :: Γ

/-- The scope after the binders of a group (`mapMntvr`). -/
def mapMntvr : List TVr → List Id → List Id
  | [], Γ => Γ
  | t :: ts, Γ => mapMntvr ts (ntvr t Γ)

mutual

/-- The occurrences in a term that stands in the scope of `Γ` and below the removal of `Δ`. -/
def sites (Γ Δ : List Id) : E → List Site
  | .eAp f a => sites Γ Δ f ++ sites Γ Δ a
  | .eVar t => [⟨t.tvrIdent, Γ, Δ⟩]
  | .eLam t e => sitesVar Γ (t.tvrIdent :: Δ) t ++ sites (t.tvrIdent :: Γ) (t.tvrIdent :: Δ) e
  | .ePi t e => sitesVar Γ (t.tvrIdent :: Δ) t ++ sites (t.tvrIdent :: Γ) (t.tvrIdent :: Δ) e
  | .eLetRec ds e =>
      sitesBinders Γ (ds.map (fun d => d.var.tvrIdent) ++ Δ) ds ++
        sitesRhss (mapMntvr (ds.map Def.var) Γ) (ds.map (fun d => d.var.tvrIdent) ++ Δ) ds ++
        sites (mapMntvr (ds.map Def.var) Γ) (ds.map (fun d => d.var.tvrIdent) ++ Δ) e
  | .eError _ t => sites Γ Δ t
  | .eLit _ es t => sites Γ Δ t ++ sitesArgs Γ Δ es
  | .eLitInt _ t => sites Γ Δ t
  | .ePrim _ es t => sites Γ Δ t ++ sitesArgs Γ Δ es
  | .eCase e ty b as d => sites Γ Δ e ++ sitesVar Γ Δ b ++ sites Γ Δ ty ++
      sitesDefault (ntvr b Γ) (b.tvrIdent :: Δ) d ++ sitesAlts (ntvr b Γ) (b.tvrIdent :: Δ) as
  | .unknown => []
  | .eSort _ => []

/-- In the type of a variable. -/
def sitesVar (Γ Δ : List Id) : TVr → List Site
  | .mk _ t => sites Γ Δ t

/-- In the types of the variables of a pattern, each in the scope of the earlier ones. -/
def sitesVars (Γ Δ : List Id) : List TVr → List Site
  | [] => []
  | t :: ts => sitesVar Γ Δ t ++ sitesVars (ntvr t Γ) Δ ts

def sitesArgs (Γ Δ : List Id) : List E → List Site
  | [] => []
  | e :: es => sites Γ Δ e ++ sitesArgs Γ Δ es

def sitesBinder (Γ Δ : List Id) : Def → List Site
  | .mk t _ => sitesVar Γ Δ t

/-- In the types of the binders of a letrec, each in the scope of the earlier ones. -/
def sitesBinders (Γ Δ : List Id) : List Def → List Site
  | [] => []
  | d :: ds => sitesBinder Γ Δ d ++ sitesBinders (ntvr d.var Γ) Δ ds

def sitesRhs (Γ Δ : List Id) : Def → List Site
  | .mk _ e => sites Γ Δ e

def sitesRhss (Γ Δ : List Id) : List Def → List Site
  | [] => []
  | d :: ds => sitesRhs Γ Δ d ++ sitesRhss Γ Δ ds

def sitesAlt (Γ Δ : List Id) : Alt → List Site
  | .litInt _ t e => sites Γ Δ t ++ sites Γ Δ e
  | .litCons _ xs t e => sites Γ Δ t ++ sitesVars Γ Δ xs ++
      sites (mapMntvr xs Γ) (xs.map TVr.tvrIdent ++ Δ) e

def sitesAlts (Γ Δ : List Id) : List Alt → List Site
  | [] => []
  | a :: as => sitesAlt Γ Δ a ++ sitesAlts Γ Δ as

def sitesDefault (Γ Δ : List Id) : Option E → List Site
  | none => []
  | some e => sites Γ Δ e

end

/-! ### The collector keeps the sites that it does not remove -/

/-- The variables that the list `ids` gains from the sites `os`, below the removal of `Δ`. -/
def Collects (os : List Site) (Δ ids : List Id) : Prop :=
  ∀ x, (x ∈ ids ∧ x ∉ Δ) ↔ ∃ o ∈ os, o.var = x ∧ o.Kept

attribute [local grind =] mapMntvr

theorem Collects.nil (Δ : List Id) : Collects [] Δ [] := by
  intro x
  constructor
  · intro h
    cases h.1
  · intro h
    obtain ⟨o, ho, _⟩ := h
    cases ho

theorem Collects.append {os ps : List Site} {Δ ids jds : List Id} (ho : Collects os Δ ids)
    (hp : Collects ps Δ jds) : Collects (os ++ ps) Δ (ids ++ jds) := by
  intro x
  constructor
  · intro h
    rcases List.mem_append.mp h.1 with hx | hx
    · obtain ⟨o, hm, hk⟩ := (ho x).mp ⟨hx, h.2⟩
      exact ⟨o, List.mem_append_left _ hm, hk⟩
    · obtain ⟨o, hm, hk⟩ := (hp x).mp ⟨hx, h.2⟩
      exact ⟨o, List.mem_append_right _ hm, hk⟩
  · intro h
    obtain ⟨o, hm, hk⟩ := h
    rcases List.mem_append.mp hm with hm | hm
    · have hx := (ho x).mpr ⟨o, hm, hk⟩
      exact ⟨List.mem_append_left _ hx.1, hx.2⟩
    · have hx := (hp x).mpr ⟨o, hm, hk⟩
      exact ⟨List.mem_append_right _ hx.1, hx.2⟩

theorem Collects.congr {os : List Site} {Δ ids jds : List Id} (h : Collects os Δ ids)
    (he : ∀ x, x ∈ jds ↔ x ∈ ids) : Collects os Δ jds := by
  intro x
  rw [he x]
  exact h x

/-- Removing variables from the list removes them from the sites. -/
theorem Collects.remove {os : List Site} {Δ ids : List Id} (xs : List Id)
    (h : Collects os (xs ++ Δ) ids) : Collects os Δ (ids.filter (· ∉ xs)) := by
  intro x
  rw [← h x]
  simp only [List.mem_filter,decide_eq_true_eq,List.mem_append,not_or,and_assoc]

theorem Collects.remove_one {os : List Site} {Δ ids : List Id} {y : Id}
    (h : Collects os (y :: Δ) ids) : Collects os Δ (ids.filter (· ≠ y)) := by
  have hr := Collects.remove [y] h
  simpa only [List.mem_singleton] using hr

/-- The definitions of a letrec, the types of the binders before the right-hand sides. -/
theorem mem_freeIdsDefs_parts (x : Id) (ds : List Def) : x ∈ freeIdsDefs ds ↔
    x ∈ ds.flatMap (fun d => freeIdsVar d.var) ∨ x ∈ ds.flatMap (fun d => freeIds d.rhs) := by
  induction ds with
  | nil => simp only [freeIdsDefs,List.flatMap_nil,or_self]
  | cons d ds ih =>
    have hd : freeIdsDef d = freeIdsVar d.var ++ freeIds d.rhs := by
      cases d
      rfl
    simp only [freeIdsDefs,hd,List.mem_append,List.flatMap_cons,ih]
    tauto

mutual

theorem collects (Γ Δ : List Id) : (e : E) → Collects (sites Γ Δ e) Δ (freeIds e)
  | .eAp f a => (collects Γ Δ f).append (collects Γ Δ a)
  | .eVar t => by
      intro x
      simp only [freeIds,sites,List.mem_singleton,exists_eq_left,Site.Kept]
      constructor
      · intro h
        exact ⟨h.1.symm, by rw [← h.1]; exact h.2⟩
      · intro h
        exact ⟨h.1.symm, by rw [← h.1]; exact h.2⟩
  | .eLam t e => by
      have ht := collectsVar Γ (t.tvrIdent :: Δ) t
      have he := collects (t.tvrIdent :: Γ) (t.tvrIdent :: Δ) e
      refine ((ht.append he).congr ?_).remove_one
      intro x
      rw [List.mem_append,List.mem_append,or_comm]
  | .ePi t e => by
      have ht := collectsVar Γ (t.tvrIdent :: Δ) t
      have he := collects (t.tvrIdent :: Γ) (t.tvrIdent :: Δ) e
      refine ((ht.append he).congr ?_).remove_one
      intro x
      rw [List.mem_append,List.mem_append,or_comm]
  | .eLetRec ds e => by
      have hb := collectsBinders Γ (ds.map (fun d => d.var.tvrIdent) ++ Δ) ds
      have hr := collectsRhss (mapMntvr (ds.map Def.var) Γ)
        (ds.map (fun d => d.var.tvrIdent) ++ Δ) ds
      have he := collects (mapMntvr (ds.map Def.var) Γ)
        (ds.map (fun d => d.var.tvrIdent) ++ Δ) e
      refine (((hb.append hr).append he).congr ?_).remove _
      intro x
      rw [List.mem_append,List.mem_append,mem_freeIdsDefs_parts,List.mem_append]
  | .eError _ t => collects Γ Δ t
  | .eLit _ es t => (collects Γ Δ t).append (collectsArgs Γ Δ es)
  | .eLitInt _ t => collects Γ Δ t
  | .ePrim _ es t => (collects Γ Δ t).append (collectsArgs Γ Δ es)
  | .eCase e ty b as d => by
      have hd := collectsDefault (ntvr b Γ) (b.tvrIdent :: Δ) d
      have has := collectsAlts (ntvr b Γ) (b.tvrIdent :: Δ) as
      have hs := ((collects Γ Δ e).append (collectsVar Γ Δ b)).append (collects Γ Δ ty)
      have hall := hs.append (hd.append has).remove_one
      rw [sites,List.append_assoc _ (sitesDefault _ _ _)]
      exact hall
  | .unknown => Collects.nil Δ
  | .eSort _ => Collects.nil Δ

theorem collectsVar (Γ Δ : List Id) : (t : TVr) → Collects (sitesVar Γ Δ t) Δ (freeIdsVar t)
  | .mk _ t => collects Γ Δ t

theorem collectsVars (Γ Δ : List Id) :
    (ts : List TVr) → Collects (sitesVars Γ Δ ts) Δ (freeIdsVars ts)
  | [] => Collects.nil Δ
  | t :: ts => (collectsVar Γ Δ t).append (collectsVars (ntvr t Γ) Δ ts)

theorem collectsArgs (Γ Δ : List Id) :
    (es : List E) → Collects (sitesArgs Γ Δ es) Δ (freeIdsArgs es)
  | [] => Collects.nil Δ
  | e :: es => (collects Γ Δ e).append (collectsArgs Γ Δ es)

theorem collectsBinder (Γ Δ : List Id) :
    (d : Def) → Collects (sitesBinder Γ Δ d) Δ (freeIdsVar d.var)
  | .mk t _ => collectsVar Γ Δ t

theorem collectsBinders (Γ Δ : List Id) :
    (ds : List Def) → Collects (sitesBinders Γ Δ ds) Δ (ds.flatMap fun d => freeIdsVar d.var)
  | [] => Collects.nil Δ
  | d :: ds => (collectsBinder Γ Δ d).append (collectsBinders (ntvr d.var Γ) Δ ds)

theorem collectsRhs (Γ Δ : List Id) : (d : Def) → Collects (sitesRhs Γ Δ d) Δ (freeIds d.rhs)
  | .mk _ e => collects Γ Δ e

theorem collectsRhss (Γ Δ : List Id) :
    (ds : List Def) → Collects (sitesRhss Γ Δ ds) Δ (ds.flatMap fun d => freeIds d.rhs)
  | [] => Collects.nil Δ
  | d :: ds => (collectsRhs Γ Δ d).append (collectsRhss Γ Δ ds)

theorem collectsAlt (Γ Δ : List Id) : (a : Alt) → Collects (sitesAlt Γ Δ a) Δ (freeIdsAlt a)
  | .litInt _ t e => (collects Γ Δ t).append (collects Γ Δ e)
  | .litCons _ xs t e => by
      have he := (collects (mapMntvr xs Γ) (xs.map TVr.tvrIdent ++ Δ) e).remove
      have ht := (collects Γ Δ t).append (collectsVars Γ Δ xs)
      refine (ht.append he).congr ?_
      intro x
      simp only [freeIdsAlt,List.mem_append]
      tauto

theorem collectsAlts (Γ Δ : List Id) :
    (as : List Alt) → Collects (sitesAlts Γ Δ as) Δ (freeIdsAlts as)
  | [] => Collects.nil Δ
  | a :: as => (collectsAlt Γ Δ a).append (collectsAlts Γ Δ as)

theorem collectsDefault (Γ Δ : List Id) :
    (d : Option E) → Collects (sitesDefault Γ Δ d) Δ (freeIdsDefault d)
  | none => Collects.nil Δ
  | some e => collects Γ Δ e

end

/-! ### When the collected variables are the free ones -/

/-- The list holds exactly the variables with a site outside the scope of their binder. -/
def Exact (os : List Site) (ids : List Id) : Prop := ∀ x, x ∈ ids ↔ ∃ o ∈ os, o.var = x ∧ o.Free

/-- A free site that the collector removes is in the type of a binder of the same name, or in the
type of a letrec binder whose group binds the name later; a bound site that it keeps is in the type
of a variable of a pattern that binds the name earlier. The variable of each has another site that
makes up for it. -/
def Covered (os : List Site) : Prop :=
  (∀ o ∈ os, o.Free → ¬ o.Kept → ∃ o' ∈ os, o'.var = o.var ∧ o'.Kept) ∧
    ∀ o ∈ os, o.Kept → ¬ o.Free → ∃ o' ∈ os, o'.var = o.var ∧ o'.Free

theorem exact_iff {os : List Site} {ids : List Id} (h : Collects os [] ids) :
    Exact os ids ↔ Covered os := by
  have hk : ∀ x, x ∈ ids ↔ ∃ o ∈ os, o.var = x ∧ o.Kept := by
    intro x
    rw [← h x]
    exact (and_iff_left (List.not_mem_nil)).symm
  constructor
  · intro he
    constructor
    · intro o ho hf _
      exact (hk o.var).mp ((he o.var).mpr ⟨o, ho, rfl, hf⟩)
    · intro o ho hkept _
      exact (he o.var).mp ((hk o.var).mpr ⟨o, ho, rfl, hkept⟩)
  · intro hc x
    rw [hk x]
    constructor
    · intro hx
      obtain ⟨o, ho, hv, hkept⟩ := hx
      by_cases hf : o.Free
      · exact ⟨o, ho, hv, hf⟩
      · rw [← hv]
        exact hc.2 o ho hkept hf
    · intro hx
      obtain ⟨o, ho, hv, hf⟩ := hx
      by_cases hkept : o.Kept
      · exact ⟨o, ho, hv, hkept⟩
      · rw [← hv]
        exact hc.1 o ho hf hkept

/-- The free variables of a pattern (the instance for `Lit TVr E`): nothing is removed. -/
def freeIdsLit (xs : List TVr) (t : E) : List Id := freeIds t ++ freeIdsVars xs

/-- The sites of a pattern. -/
def sitesLit (xs : List TVr) (t : E) : List Site := sites [] [] t ++ sitesVars [] [] xs

theorem collectsLit (xs : List TVr) (t : E) : Collects (sitesLit xs t) [] (freeIdsLit xs t) :=
  (collects [] [] t).append (collectsVars [] [] xs)

theorem freeIds_exact_iff (e : E) (b : TVr) (xs : List TVr) (t : E) (a : Alt) :
    (Exact (sites [] [] e) (freeIds e) ↔ Covered (sites [] [] e)) ∧
      (Exact (sitesVar [] [] b) (freeIdsVar b) ↔ Covered (sitesVar [] [] b)) ∧
      (Exact (sitesLit xs t) (freeIdsLit xs t) ↔ Covered (sitesLit xs t)) ∧
      (Exact (sitesAlt [] [] a) (freeIdsAlt a) ↔ Covered (sitesAlt [] [] a)) :=
  ⟨exact_iff (collects [] [] e), exact_iff (collectsVar [] [] b), exact_iff (collectsLit xs t),
    exact_iff (collectsAlt [] [] a)⟩

def conK : Name := ⟨.DataConstructor, none, ['K']⟩

/-- `case s of K (a :: Star) (x :: a) -> x`, of a type without variables. -/
def existentialCase : E :=
  .eCase (.eVar (.mk (.anonymous 2) .unknown)) .unknown (.mk .emptyId .unknown)
    [.litCons conK [.mk (.anonymous 4) (.eSort .eStar),
        .mk (.anonymous 6) (.eVar (.mk (.anonymous 4) (.eSort .eStar)))] .unknown
      (.eVar (.mk (.anonymous 6) .unknown))] none

/-- The collector reports the type variable of the pattern, which is bound. It loses the free
variable in the type of `\(x :: x) -> 1`. -/
theorem freeIds_inexact :
    (Id.anonymous 4 ∈ freeIds existentialCase ∧
        ¬ ∃ o ∈ sites [] [] existentialCase, o.var = Id.anonymous 4 ∧ o.Free) ∧
      freeIds (.eLam (.mk (.anonymous 4) (.eVar (.mk (.anonymous 4) .unknown)))
          (.eLitInt 1 .unknown)) = [] ∧
      ∃ o ∈ sites [] [] (.eLam (.mk (.anonymous 4) (.eVar (.mk (.anonymous 4) .unknown)))
          (.eLitInt 1 .unknown)), o.var = Id.anonymous 4 ∧ o.Free := by
  refine ⟨⟨by decide, by decide⟩, by decide, by decide⟩

end Jhc.E

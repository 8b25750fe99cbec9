import Jhc.E.Denotation

/-!
# The value of an expression from the values of its parts

Facts of a value rest on finitely many facts of the environment (`Den.compact`). From this
come the equations of application, abstraction, recursive definitions and case.
-/

namespace Jhc.E
open Jhc.Lib Jhc.Lib.Value
open Jhc.FrontEnd.Exports (Name)

variable {prim : PrimTable} {ρ ρ' σ : Env} {t : TVr} {ts xs : List TVr} {e e' f a ty : E} {b : Inf} {v v' : Val}
  {vs : List Val} {ds : List Def} {as : List Alt} {d : Option E} {k : Head}

/-! ### Environments -/

namespace Env

theorem set_of_binds {x : Id} (hx : x = t.tvrIdent) : ρ.set t v x = v := if_pos hx

theorem set_of_not {x : Id} (hx : x ≠ t.tvrIdent) : ρ.set t v x = ρ x := if_neg hx

theorem recs_of_def {x : Id} {v : Id → Val} (hx : (lookupDef ds x).isSome = true) : ρ.recs ds v x = v x := if_pos hx

theorem recs_of_not {x : Id} {v : Id → Val} (hx : ¬ (lookupDef ds x).isSome = true) : ρ.recs ds v x = ρ x := if_neg hx

theorem set_mono (h : ρ ≤ ρ') (hv : v ⊆ v') : ρ.set t v ≤ ρ'.set t v' := by
  intro x
  by_cases hx : x = t.tvrIdent
  · rw [set_of_binds hx, set_of_binds hx]
    exact hv
  · rw [set_of_not hx, set_of_not hx]
    exact h x

theorem sets_mono {ts : List TVr} {vs vs' : List Val} (h : ρ ≤ ρ') (hvs : List.Forall₂ (· ⊆ ·) vs vs') :
    ρ.sets ts vs ≤ ρ'.sets ts vs' := by
  induction ts generalizing ρ ρ' vs vs' with
  | nil => exact h
  | cons t ts ih =>
    cases hvs with
    | nil => exact h
    | cons hv hvs => exact ih (set_mono h hv) hvs

theorem recs_mono {v v' : Id → Val} (h : ρ ≤ ρ') (hv : ∀ x, v x ⊆ v' x) : ρ.recs ds v ≤ ρ'.recs ds v' := by
  intro x
  by_cases hx : (lookupDef ds x).isSome = true
  · rw [recs_of_def hx, recs_of_def hx]
    exact hv x
  · rw [recs_of_not hx, recs_of_not hx]
    exact h x

end Env

theorem subset_refl_list (vs : List Val) : List.Forall₂ (· ⊆ ·) vs vs := by
  induction vs with
  | nil => exact .nil
  | cons v vs ih => exact .cons (Set.Subset.refl v) ih

theorem Den.mono (h : Den prim ρ e b) (hρ : ρ ≤ ρ') : Den prim ρ' e b := by
  induction h generalizing ρ' with
  | var h => exact .var (hρ _ h)
  | fn => exact .fn
  | lam _ ih => exact .lam (ih (Env.set_mono hρ (Set.Subset.refl _)))
  | ap _ _ ihf iha => exact .ap (ihf hρ) fun c hc => iha c hc hρ
  | piCon => exact .piCon
  | piFrom _ ih => exact .piFrom (ih (Env.set_mono hρ (Set.Subset.refl _)))
  | piTo _ ih => exact .piTo (ih (Env.set_mono hρ (Set.Subset.refl _)))
  | sort => exact .sort
  | int => exact .int
  | con => exact .con
  | field hi _ ih => exact .field hi (ih hρ)
  | letRec β _ _ ihβ ih =>
    exact .letRec β (fun p hp e he => ihβ p hp e he hρ) (ih (Env.recs_mono hρ fun _ => Set.Subset.refl _))
  | prim β hlt _ h ihβ => exact .prim β hlt (fun q hq e he => ihβ q hq e he hρ) h
  | caseOf β βs _ hk hsel _ hlen _ _ ihh ihβ ihβs ih =>
    exact .caseOf β βs (ihh hρ) hk hsel (fun c hc => ihβ c hc hρ) hlen (fun p hp c hc n hn => ihβs p hp c hc n hn hρ)
      (ih (Env.sets_mono (Env.set_mono hρ (Set.Subset.refl _)) (subset_refl_list _)))

theorem den_mono (hρ : ρ ≤ ρ') : den prim ρ e ⊆ den prim ρ' e := fun _ h => Den.mono h hρ

/-! ### Finite parts of an environment -/

/-- Of an approximation below a binder the part outside of it. -/
theorem approximates_outside {p : Id → Prop} (h : Approximates σ ρ') (hρ : ∀ x, ¬ p x → ρ' x ⊆ ρ x) :
    ∃ τ, Approximates τ ρ ∧ ∀ x, ¬ p x → σ x ⊆ τ x := by
  classical
  refine ⟨fun x => if p x then ∅ else σ x, ⟨fun x => ?_, fun x => ?_⟩, fun x hx => ?_⟩
  · by_cases hx : p x
    · simp [hx]
    · simpa [hx] using h.finite x
  · by_cases hx : p x
    · simp [hx]
    · simpa [hx] using (h.le x).trans (hρ x hx)
  · simp [hx]

theorem approximates_set (h : Approximates σ (ρ.set t v)) : ∃ τ : Env, Approximates τ ρ ∧ σ ≤ τ.set t v := by
  obtain ⟨τ, hτ, hσ⟩ := approximates_outside (p := fun x => x = t.tvrIdent) h fun x hx =>
    (Env.set_of_not hx).subset
  refine ⟨τ, hτ, fun x => ?_⟩
  by_cases hx : x = t.tvrIdent
  · rw [Env.set_of_binds hx]
    exact (h.le x).trans (Env.set_of_binds hx).subset
  · rw [Env.set_of_not hx]
    exact hσ x hx

theorem approximates_sets {ts : List TVr} {vs : List Val} (h : Approximates σ (ρ.sets ts vs)) :
    ∃ τ : Env, Approximates τ ρ ∧ σ ≤ τ.sets ts vs := by
  induction ts generalizing ρ vs with
  | nil => exact ⟨σ, h, le_refl σ⟩
  | cons t ts ih =>
    cases vs with
    | nil => exact ⟨σ, h, le_refl σ⟩
    | cons v vs =>
      obtain ⟨τ, hτ, hσ⟩ := ih h
      obtain ⟨τ', hτ', hle⟩ := approximates_set hτ
      exact ⟨τ', hτ', hσ.trans (Env.sets_mono hle (subset_refl_list vs))⟩

theorem approximates_recs {v : Id → Val} (h : Approximates σ (ρ.recs ds v)) :
    ∃ τ : Env, Approximates τ ρ ∧ σ ≤ τ.recs ds v := by
  obtain ⟨τ, hτ, hσ⟩ := approximates_outside (p := fun x => (lookupDef ds x).isSome = true) h fun x hx =>
    (Env.recs_of_not hx).subset
  refine ⟨τ, hτ, fun x => ?_⟩
  by_cases hx : (lookupDef ds x).isSome = true
  · rw [Env.recs_of_def hx]
    exact (h.le x).trans (Env.recs_of_def hx).subset
  · rw [Env.recs_of_not hx]
    exact hσ x hx

/-- A fact of a value needs finitely many facts of the environment. -/
theorem Den.compact (h : Den prim ρ e b) : ∃ σ, Approximates σ ρ ∧ Den prim σ e b := by
  induction h with
  | @var ρ t b h =>
    refine ⟨fun x => {c | c = b ∧ x = t.tvrIdent}, ⟨fun x => ?_, ?_⟩, .var ⟨rfl, rfl⟩⟩
    · exact (Set.finite_singleton b).subset fun c hc => hc.1
    · rintro x c ⟨rfl, rfl⟩
      exact h
  | fn => exact ⟨_, .bot _, .fn⟩
  | lam _ ih =>
    obtain ⟨σ, hσ, hden⟩ := ih
    obtain ⟨τ, hτ, hle⟩ := approximates_set hσ
    exact ⟨τ, hτ, .lam (hden.mono hle)⟩
  | ap _ _ ihf iha =>
    obtain ⟨σ, hσ, hf⟩ := ihf
    obtain ⟨τ, hτ, ha⟩ := Approximates.forall_mem
      (p := fun σ c => Den prim σ _ c) (fun c σ τ hle h => Den.mono h hle) iha
    exact ⟨_, hσ.sup hτ, .ap (hf.mono fun x => Set.subset_union_left)
      fun c hc => (ha c hc).mono fun x => Set.subset_union_right⟩
  | piCon => exact ⟨_, .bot _, .piCon⟩
  | piFrom _ ih =>
    obtain ⟨σ, hσ, hden⟩ := ih
    obtain ⟨τ, hτ, hle⟩ := approximates_set hσ
    exact ⟨τ, hτ, .piFrom (hden.mono hle)⟩
  | piTo _ ih =>
    obtain ⟨σ, hσ, hden⟩ := ih
    obtain ⟨τ, hτ, hle⟩ := approximates_set hσ
    exact ⟨τ, hτ, .piTo (hden.mono hle)⟩
  | sort => exact ⟨_, .bot _, .sort⟩
  | int => exact ⟨_, .bot _, .int⟩
  | con => exact ⟨_, .bot _, .con⟩
  | field hi _ ih =>
    obtain ⟨σ, hσ, hden⟩ := ih
    exact ⟨σ, hσ, .field hi hden⟩
  | @letRec ρ ds e b β _ _ ihβ ih =>
    obtain ⟨σ, hσ, hden⟩ := ih
    obtain ⟨τ, hτ, hle⟩ := approximates_recs hσ
    obtain ⟨τ', hτ', hβ⟩ := Approximates.forall_mem (l := β)
      (p := fun σ p => ∀ e, lookupDef ds p.1 = some e → Den prim σ (.eLetRec ds e) p.2)
      (fun p σ τ hle h e he => (h e he).mono hle) fun p hp =>
        Approximates.option (p := fun σ e => Den prim σ (.eLetRec ds e) p.2) (ihβ p hp)
    refine ⟨_, hτ.sup hτ', .letRec β (fun p hp e he => (hβ p hp e he).mono fun x => Set.subset_union_right) ?_⟩
    exact hden.mono (hle.trans (Env.recs_mono (fun x => Set.subset_union_left) fun x => Set.Subset.refl _))
  | @prim ρ p es t b β hlt _ h ihβ =>
    obtain ⟨τ, hτ, hβ⟩ := Approximates.forall_mem (l := β)
      (p := fun σ q => ∀ e, es[q.1]? = some e → Den prim σ e q.2)
      (fun p σ τ hle h e he => (h e he).mono hle) fun q hq =>
        Approximates.option (p := fun σ e => Den prim σ e q.2) (ihβ q hq)
    exact ⟨τ, hτ, .prim β hlt hβ h⟩
  | @caseOf ρ e ty t as d h k xs e' b β βs _ hk hsel _ hlen _ _ ihh ihβ ihβs ih =>
    obtain ⟨σ₁, hσ₁, hh⟩ := ihh
    obtain ⟨σ₂, hσ₂, hβ⟩ := Approximates.forall_mem
      (p := fun σ c => Den prim σ e c) (fun c σ τ hle h => Den.mono h hle) ihβ
    obtain ⟨σ₃, hσ₃, hβs⟩ := Approximates.forall_mem (l := βs.zipIdx)
      (p := fun σ p => ∀ c ∈ p.1, ∀ n, k = some n → Den prim σ e (.field n p.2 c))
      (fun p σ τ hle h c hc n hn => (h c hc n hn).mono hle) fun p hp =>
        Approximates.forall_mem (p := fun σ c => ∀ n, k = some n → Den prim σ e (.field n p.2 c))
          (fun c σ τ hle h n hn => (h n hn).mono hle) fun c hc =>
            Approximates.option (p := fun σ n => Den prim σ e (.field n p.2 c)) (ihβs p hp c hc)
    obtain ⟨σ, hσ, hden⟩ := ih
    obtain ⟨τ', hτ', hle'⟩ := approximates_sets hσ
    obtain ⟨τ, hτ, hle⟩ := approximates_set hτ'
    have h1 : σ₁ ≤ fun x => σ₁ x ∪ (σ₂ x ∪ (σ₃ x ∪ τ x)) := fun x => Set.subset_union_left
    have h2 : σ₂ ≤ fun x => σ₁ x ∪ (σ₂ x ∪ (σ₃ x ∪ τ x)) :=
      fun x => Set.subset_union_left.trans Set.subset_union_right
    have h3 : σ₃ ≤ fun x => σ₁ x ∪ (σ₂ x ∪ (σ₃ x ∪ τ x)) :=
      fun x => (Set.subset_union_left.trans Set.subset_union_right).trans Set.subset_union_right
    have h4 : τ ≤ fun x => σ₁ x ∪ (σ₂ x ∪ (σ₃ x ∪ τ x)) :=
      fun x => (Set.subset_union_right.trans Set.subset_union_right).trans Set.subset_union_right
    refine ⟨_, hσ₁.sup (hσ₂.sup (hσ₃.sup hτ)), .caseOf β βs (hh.mono h1) hk hsel (fun c hc => (hβ c hc).mono h2) hlen
      (fun p hp c hc n hn => (hβs p hp c hc n hn).mono h3) ?_⟩
    exact hden.mono (hle'.trans (Env.sets_mono (hle.trans (Env.set_mono h4 (Set.Subset.refl _))) (subset_refl_list _)))

/-! ### Coincidence -/

theorem lookupDef_mem {x : Id} (h : lookupDef ds x = some e) : ∃ def' ∈ ds, def'.var.tvrIdent = x ∧ def'.rhs = e := by
  obtain ⟨def', hfind, rfl⟩ := Option.map_eq_some_iff.1 h
  exact ⟨def', List.mem_of_find?_eq_some hfind, by simpa using List.find?_some hfind, rfl⟩

theorem lookupDef_isSome {x : Id} : (lookupDef ds x).isSome = true ↔ x ∈ ds.map fun d => d.var.tvrIdent := by
  simp [lookupDef]

theorem mem_freeIdsDefs {def' : Def} (h : def' ∈ ds) {x : Id} (hx : x ∈ freeIds def'.rhs) : x ∈ freeIdsDefs ds := by
  induction ds with
  | nil => cases h
  | cons d ds ih =>
    rw [freeIdsDefs]
    rcases List.mem_cons.1 h with rfl | h
    · refine List.mem_append_left _ ?_
      cases def' with
      | mk t e =>
        rw [freeIdsDef]
        exact List.mem_append_right _ hx
    · exact List.mem_append_right _ (ih h)

theorem mem_freeIdsArgs {es : List E} {i : ℕ} (h : es[i]? = some e) {x : Id} (hx : x ∈ freeIds e) :
    x ∈ freeIdsArgs es := by
  induction es generalizing i with
  | nil => cases h
  | cons e' es ih =>
    rw [freeIdsArgs]
    cases i with
    | zero =>
      cases h
      exact List.mem_append_left _ hx
    | succ i => exact List.mem_append_right _ (ih h)

theorem mem_freeIdsAlts {alt : Alt} (h : alt ∈ as) {x : Id} (hx : x ∈ freeIdsAlt alt) : x ∈ freeIdsAlts as := by
  induction as with
  | nil => cases h
  | cons a as ih =>
    rw [freeIdsAlts]
    rcases List.mem_cons.1 h with rfl | h
    · exact List.mem_append_left _ hx
    · exact List.mem_append_right _ (ih h)

theorem mem_freeIds_selects {k : Option Head} (h : selects as d k = some (xs, e')) {x : Id} (hx : x ∈ freeIds e')
    (hxs : x ∉ xs.map TVr.tvrIdent) : x ∈ freeIdsDefault d ++ freeIdsAlts as := by
  unfold selects at h
  split at h
  · rename_i n t e hfind
    cases h
    refine List.mem_append_right _ (mem_freeIdsAlts (List.mem_of_find?_eq_some hfind) ?_)
    rw [freeIdsAlt]
    exact List.mem_append_right _ hx
  · rename_i c xs t e hfind
    cases h
    refine List.mem_append_right _ (mem_freeIdsAlts (List.mem_of_find?_eq_some hfind) ?_)
    rw [freeIdsAlt]
    exact List.mem_append_left _ (List.mem_append_right _ (List.mem_filter.2 ⟨hx, by simpa using hxs⟩))
  · obtain ⟨e, rfl, he⟩ := Option.map_eq_some_iff.1 h
    cases he
    refine List.mem_append_left _ ?_
    rw [freeIdsDefault]
    exact hx

theorem set_congr {x : Id} (h : x ≠ t.tvrIdent → ρ x = ρ' x) : ρ.set t v x = ρ'.set t v x := by
  by_cases hx : x = t.tvrIdent
  · rw [Env.set_of_binds hx, Env.set_of_binds hx]
  · rw [Env.set_of_not hx, Env.set_of_not hx]
    exact h hx

theorem sets_congr {ts : List TVr} {vs : List Val} (hlen : ts.length = vs.length) {x : Id}
    (h : x ∉ ts.map TVr.tvrIdent → ρ x = ρ' x) : ρ.sets ts vs x = ρ'.sets ts vs x := by
  induction ts generalizing ρ ρ' vs with
  | nil => exact h (by simp)
  | cons t ts ih =>
    cases vs with
    | nil => cases hlen
    | cons v vs =>
      exact ih (by simpa using hlen) fun hx => set_congr fun hxt => h (by simpa [hxt] using hx)

theorem Den.congr (h : Den prim ρ e b) (hρ : ∀ x ∈ freeIds e, ρ x = ρ' x) : Den prim ρ' e b := by
  induction h generalizing ρ' with
  | @var ρ t b h =>
    have ht : ρ t.tvrIdent = ρ' t.tvrIdent := hρ _ (by simp [freeIds])
    exact .var (ht ▸ h)
  | fn => exact .fn
  | @lam ρ t e β b _ ih =>
    exact .lam (ih fun x hx => set_congr fun hxt => hρ x (by simp [freeIds, hx, hxt]))
  | ap _ _ ihf iha =>
    exact .ap (ihf fun x hx => hρ x (by simp [freeIds, hx])) fun c hc => iha c hc fun x hx => hρ x (by simp [freeIds, hx])
  | piCon => exact .piCon
  | @piFrom ρ t e b _ ih =>
    refine .piFrom (ih fun x hx => set_congr fun hxt => hρ x ?_)
    have hvar : x ∈ freeIdsVar t := by
      cases t
      rw [freeIdsVar]
      exact hx
    simp [freeIds, hvar, hxt]
  | @piTo ρ t e b _ ih =>
    exact .piTo (ih fun x hx => set_congr fun hxt => hρ x (by simp [freeIds, hx, hxt]))
  | sort => exact .sort
  | int => exact .int
  | con => exact .con
  | field hi _ ih =>
    exact .field hi (ih fun x hx => hρ x (by simp [freeIds, mem_freeIdsArgs hi hx]))
  | @letRec ρ ds e b β _ _ ihβ ih =>
    refine .letRec β (fun p hp e' he' => ihβ p hp e' he' fun x hx => hρ x ?_) (ih fun x hx => ?_)
    · obtain ⟨def', hdef, -, rfl⟩ := lookupDef_mem he'
      rw [freeIds, List.mem_filter, List.mem_append] at hx ⊢
      exact ⟨.inl (hx.1.elim id (mem_freeIdsDefs hdef)), hx.2⟩
    · by_cases hds : (lookupDef ds x).isSome = true
      · rw [Env.recs_of_def hds, Env.recs_of_def hds]
      · rw [Env.recs_of_not hds, Env.recs_of_not hds]
        rw [lookupDef_isSome] at hds
        refine hρ x ?_
        rw [freeIds]
        exact List.mem_filter.2 ⟨List.mem_append_right _ hx, by simpa using hds⟩
  | prim β hlt _ h ihβ =>
    exact .prim β hlt (fun q hq e he => ihβ q hq e he fun x hx => hρ x (by simp [freeIds, mem_freeIdsArgs he hx])) h
  | @caseOf ρ e ty t as d h k xs e' b β βs _ hk hsel _ hlen _ _ ihh ihβ ihβs ih =>
    have hscrut : ∀ x ∈ freeIds e, ρ x = ρ' x := fun x hx => hρ x (by simp [freeIds, hx])
    refine .caseOf β βs (ihh hscrut) hk hsel (fun c hc => ihβ c hc hscrut) hlen
      (fun p hp c hc n hn => ihβs p hp c hc n hn hscrut) (ih fun x hx => ?_)
    refine sets_congr (by simpa using hlen.symm) fun hxs => set_congr fun hxt => hρ x ?_
    rw [freeIds]
    exact List.mem_append_right _ (List.mem_filter.2 ⟨mem_freeIds_selects hsel hx hxs, by simpa using hxt⟩)

theorem den_congr (hρ : ∀ x ∈ freeIds e, ρ x = ρ' x) : den prim ρ e = den prim ρ' e := by
  ext b
  exact ⟨fun h => Den.congr h hρ, fun h => Den.congr h fun x hx => (hρ x hx).symm⟩

/-! ### The equations -/

@[simp] theorem den_eVar : den prim ρ (.eVar t) = ρ t.tvrIdent := by
  ext b
  refine ⟨fun h => ?_, .var⟩
  cases h with
  | var h => exact h

@[simp] theorem den_eError {s : String} : den prim ρ (.eError s ty) = ∅ := by
  ext b
  refine ⟨fun h => ?_, fun h => absurd h (Set.notMem_empty b)⟩
  cases h

@[simp] theorem den_eAp : den prim ρ (.eAp f a) = apply (den prim ρ f) (den prim ρ a) := by
  ext b
  refine ⟨fun h => ?_, fun h => ?_⟩
  · cases h with
    | ap hf ha => exact ⟨_, hf, ha⟩
  · obtain ⟨β, hf, ha⟩ := h
    exact .ap hf ha

theorem den_eLit {c : Name} {es : List E} : den prim ρ (.eLit c es ty) = construct (.con c) (es.map (den prim ρ)) := by
  ext b
  refine ⟨fun h => ?_, fun h => ?_⟩
  · cases h with
    | con => exact con_mem_construct.2 rfl
    | @field _ _ _ _ e i b hi h => exact field_mem_construct.2 ⟨rfl, den prim ρ e, by simp [hi], h⟩
  · rcases h with rfl | ⟨i, v, b, hi, hb, rfl⟩
    · exact .con
    · rw [List.getElem?_map] at hi
      obtain ⟨e, he, rfl⟩ := Option.map_eq_some_iff.1 hi
      exact .field he hb

/-- Of an approximation below a binder, what the binder gets is finite. -/
theorem approximates_bind (h : Approximates σ (ρ.set t v)) : ∃ β, ofList β ⊆ v ∧ σ ≤ ρ.set t (ofList β) := by
  obtain ⟨β, hβ⟩ := exists_ofList ((h.finite t.tvrIdent).inter_of_left v)
  refine ⟨β, hβ ▸ Set.inter_subset_right, fun x => ?_⟩
  by_cases hx : x = t.tvrIdent
  · rw [Env.set_of_binds hx, hβ, hx]
    exact Set.subset_inter (Set.Subset.refl _) ((h.le _).trans (Env.set_of_binds rfl).subset)
  · rw [Env.set_of_not hx]
    exact (h.le x).trans (Env.set_of_not hx).subset

/-- An abstraction applied. -/
theorem apply_den_eLam : apply (den prim ρ (.eLam t e)) v = den prim (ρ.set t v) e := by
  ext b
  refine ⟨fun h => ?_, fun h => ?_⟩
  · obtain ⟨β, hf, ha⟩ := h
    cases hf with
    | lam h => exact h.mono (Env.set_mono (le_refl ρ) ha)
  · obtain ⟨σ, hσ, hden⟩ := Den.compact h
    obtain ⟨β, hβ, hle⟩ := approximates_bind hσ
    exact ⟨β, .lam (hden.mono hle), hβ⟩

/-- The values of recursive definitions. -/
def recEnv (prim : PrimTable) (ρ : Env) (ds : List Def) : Env :=
  ρ.recs ds fun x => {c | ∃ e, lookupDef ds x = some e ∧ Den prim ρ (.eLetRec ds e) c}

theorem den_eLetRec : den prim ρ (.eLetRec ds e) = den prim (recEnv prim ρ ds) e := by
  ext b
  refine ⟨fun h => ?_, fun h => ?_⟩
  · cases h with
    | letRec β hβ h =>
      refine h.mono fun x => ?_
      by_cases hx : (lookupDef ds x).isSome = true
      · rw [recEnv, Env.recs_of_def hx, Env.recs_of_def hx]
        intro c hc
        obtain ⟨e, he⟩ := Option.isSome_iff_exists.1 hx
        exact ⟨e, he, hβ _ hc e he⟩
      · rw [recEnv, Env.recs_of_not hx, Env.recs_of_not hx]
  · obtain ⟨σ, hσ, hden⟩ := Den.compact h
    have hfin : {p : Id × Inf | p.1 ∈ ds.map (fun d => d.var.tvrIdent) ∧ p.2 ∈ σ p.1}.Finite := by
      refine ((ds.map fun d => d.var.tvrIdent).finite_toSet.biUnion fun x _ =>
        ((hσ.finite x).image fun c => (x, c))).subset ?_
      rintro ⟨x, c⟩ ⟨hx, hc⟩
      exact Set.mem_biUnion (show x ∈ {x | x ∈ ds.map fun d => d.var.tvrIdent} from hx) ⟨c, hc, rfl⟩
    have hmem : ∀ p, p ∈ hfin.toFinset.toList ↔ p.1 ∈ ds.map (fun d => d.var.tvrIdent) ∧ p.2 ∈ σ p.1 := by
      intro p
      simp
    refine .letRec hfin.toFinset.toList (fun p hp e he => ?_) (hden.mono fun x => ?_)
    · have hx : (lookupDef ds p.1).isSome = true := Option.isSome_of_mem he
      obtain ⟨e', he', h⟩ := (Env.recs_of_def hx).subset (hσ.le p.1 ((hmem p).1 hp).2)
      cases he.symm.trans he'
      exact h
    · by_cases hx : (lookupDef ds x).isSome = true
      · rw [Env.recs_of_def hx]
        exact fun c hc => (hmem (x, c)).2 ⟨lookupDef_isSome.1 hx, hc⟩
      · rw [Env.recs_of_not hx]
        exact (hσ.le x).trans (Env.recs_of_not hx).subset

theorem recEnv_of_def {x : Id} (h : lookupDef ds x = some e) : recEnv prim ρ ds x = den prim (recEnv prim ρ ds) e := by
  rw [← den_eLetRec, recEnv, Env.recs_of_def (Option.isSome_of_mem h)]
  ext c
  refine ⟨fun hc => ?_, fun hc => ⟨e, h, hc⟩⟩
  obtain ⟨e', he', hden⟩ := hc
  cases h.symm.trans he'
  exact hden

theorem recEnv_of_not {x : Id} (h : x ∉ ds.map fun d => d.var.tvrIdent) : recEnv prim ρ ds x = ρ x := by
  rw [recEnv, Env.recs_of_not]
  rwa [lookupDef_isSome]

/-! ### Case -/

theorem den_eCase_undefined (h : ¬ (den prim ρ e).Defined) : den prim ρ (.eCase e ty t as d) = ∅ := by
  refine Set.eq_empty_of_forall_notMem fun b hb => h ?_
  cases hb with
  | caseOf β βs hh hk _ _ _ _ _ => exact ⟨_, hh, Option.isSome_of_mem hk⟩

/-- A case without alternatives evaluates its scrutinee. -/
theorem den_eCase_default (h : (den prim ρ e).Defined) :
    den prim ρ (.eCase e ty t [] (some e')) = den prim (ρ.set t (den prim ρ e)) e' := by
  ext b
  refine ⟨fun hb => ?_, fun hb => ?_⟩
  · cases hb with
    | caseOf β βs hh hk hsel hβ hlen hβs hb =>
      cases hsel
      exact hb.mono (Env.set_mono (le_refl ρ) hβ)
  · obtain ⟨σ, hσ, hden⟩ := Den.compact hb
    obtain ⟨β, hβ, hle⟩ := approximates_bind hσ
    obtain ⟨h, hh, hk⟩ := h
    obtain ⟨k, hk⟩ := Option.isSome_iff_exists.1 hk
    exact .caseOf β [] hh hk rfl hβ rfl (fun p hp => by cases hp) (hden.mono hle)

theorem sets_take (ρ : Env) (xs : List TVr) (vs : List Val) : ρ.sets xs (vs.take xs.length) = ρ.sets xs vs := by
  induction xs generalizing ρ vs with
  | nil => rfl
  | cons x xs ih =>
    cases vs with
    | nil => rfl
    | cons v vs => exact ih _ vs

/-- Of an approximation below the variables of a pattern, what these get is finite. -/
theorem approximates_binds (hlen : xs.length ≤ vs.length) (h : Approximates σ (ρ.sets xs vs)) :
    ∃ βs : List (List Inf), List.Forall₂ (fun β v => ofList β ⊆ v) βs (vs.take xs.length) ∧
      σ ≤ ρ.sets xs (βs.map ofList) := by
  induction xs generalizing ρ vs with
  | nil => exact ⟨[], .nil, h.le⟩
  | cons x xs ih =>
    cases vs with
    | nil => cases hlen
    | cons v vs =>
      obtain ⟨βs, hβs, hle⟩ := ih (by simpa using hlen) h
      have hx : Approximates (fun y => σ y ∩ ρ.set x v y) (ρ.set x v) :=
        ⟨fun y => (h.finite y).inter_of_left _, fun y => Set.inter_subset_right⟩
      obtain ⟨β, hβ, hlex⟩ := approximates_bind hx
      refine ⟨β :: βs, .cons hβ hβs, fun y c hc => ?_⟩
      -- what `c` says of `y` comes from the last of the variables that is `y`
      have hset : ∀ (ρ₁ ρ₂ : Env), σ y ∩ ρ₁ y ⊆ ρ₂ y → σ y ∩ ρ₁.sets xs (βs.map ofList) y ⊆ ρ₂.sets xs (βs.map ofList) y := by
        intro ρ₁ ρ₂ h₁₂
        clear hle hβs ih h hx hlex
        generalize βs.map ofList = ws
        induction xs generalizing ρ₁ ρ₂ ws with
        | nil => exact h₁₂
        | cons x' xs ih =>
          cases ws with
          | nil => exact h₁₂
          | cons w ws =>
            refine ih (by simp at hlen ⊢; omega) _ _ ?_ ws
            by_cases hy : y = x'.tvrIdent
            · rw [Env.set_of_binds hy, Env.set_of_binds hy]
              exact Set.inter_subset_right
            · rw [Env.set_of_not hy, Env.set_of_not hy]
              exact h₁₂
      exact hset _ _ (fun c hc => hlex y hc) ⟨hc, hle y hc⟩

theorem zipIdx_subset {βs : List (List Inf)} (hβs : ∀ p ∈ βs.zipIdx, ∀ c ∈ p.1, ∃ v, vs[p.2]? = some v ∧ c ∈ v)
    (hlen : βs.length ≤ vs.length) : List.Forall₂ (· ⊆ ·) (βs.map ofList) (vs.take βs.length) := by
  refine List.forall₂_iff_get.2 ⟨by simpa using hlen, fun i h₁ h₂ c hc => ?_⟩
  simp only [List.length_map] at h₁
  have hc' : c ∈ βs[i] := by simpa [ofList] using hc
  obtain ⟨v, hv, hcv⟩ := hβs (βs[i], i) (by simp [List.mem_zipIdx_iff_getElem?]) c hc'
  obtain ⟨hi, rfl⟩ := List.getElem?_eq_some_iff.1 hv
  simpa using hcv

/-- A case takes the alternative of the constructor and binds the components. -/
theorem den_eCase_construct (hscrut : den prim ρ e = construct k vs) (hsel : selects as d (some k) = some (xs, e'))
    (hlen : xs.length ≤ vs.length) :
    den prim ρ (.eCase e ty t as d) = den prim ((ρ.set t (construct k vs)).sets xs vs) e' := by
  ext b
  refine ⟨fun hb => ?_, fun hb => ?_⟩
  · cases hb with
    | @caseOf _ _ _ _ _ _ h k' xs' e'' _ β βs hh hk hsel' hβ hlen' hβs hb =>
      have hk' : k' = some k := head_of_construct (hscrut.subset hh) hk
      subst hk'
      cases hsel.symm.trans hsel'
      have hset : List.Forall₂ (· ⊆ ·) (βs.map ofList) (vs.take βs.length) := by
        refine zipIdx_subset (fun p hp c hc => ?_) (hlen' ▸ hlen)
        exact (field_mem_construct.1 (hscrut.subset (hβs p hp c hc k rfl))).2
      rw [hlen'] at hset
      have hβ' : ofList β ⊆ construct k vs := fun c hc => hscrut.subset (hβ c hc)
      refine hb.mono ?_
      rw [← sets_take _ xs vs]
      exact Env.sets_mono (Env.set_mono (le_refl ρ) hβ') hset
  · obtain ⟨σ, hσ, hden⟩ := Den.compact hb
    obtain ⟨βs, hβs, hle⟩ := approximates_binds hlen hσ
    obtain ⟨σ', hσ', hden'⟩ := Den.compact (hden.mono hle)
    obtain ⟨τ, hτ, hle'⟩ := approximates_sets hσ'
    obtain ⟨β, hβ, hleβ⟩ := approximates_bind hτ
    have hlenβ : βs.length = xs.length := by
      have hlen' := hβs.length_eq
      simp only [List.length_take] at hlen'
      omega
    have hcon : Den prim ρ e (.con k) := hscrut.superset (con_mem_construct.2 rfl)
    refine .caseOf β βs hcon rfl hsel (fun c hc => hscrut.superset (hβ hc)) hlenβ (fun p hp c hc n hn => ?_)
      (hden'.mono (hle'.trans (Env.sets_mono hleβ (subset_refl_list _))))
    cases hn
    have hp' : βs[p.2]? = some p.1 := List.mem_zipIdx_iff_getElem?.1 hp
    obtain ⟨hi, hget⟩ := List.getElem?_eq_some_iff.1 hp'
    have hi' : p.2 < (vs.take xs.length).length := hβs.length_eq ▸ hi
    have hsub := hβs.get hi hi'
    simp only [List.get_eq_getElem, hget, List.getElem_take] at hsub
    have hi'' : p.2 < vs.length := by
      simp only [List.length_take] at hi'
      omega
    exact hscrut.superset (field_mem_construct.2 ⟨rfl, vs[p.2], List.getElem?_eq_getElem hi'', hsub hc⟩)

end Jhc.E

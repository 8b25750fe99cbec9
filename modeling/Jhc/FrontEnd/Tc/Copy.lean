import Jhc.FrontEnd.Tc.Bind
import Mathlib.Data.List.Range

/-!
# Matching a type against a free metavariable

The clauses AEQ1, CEQ1 and MEQ1 give the metavariable the outermost structure of the type
over new metavariables and match the parts against those. On monotypes this never fails
once the occurs check has passed, and it binds nothing of the type itself.
-/

namespace Jhc.FrontEnd.Tc
open Ty
open Jhc.Lib (Settles FOTerm)
open Jhc.Lib.FOTerm

variable {s s' : TcState}

theorem boxyMatch_of_bm {a b a' b' : Ty} (ha : Evals s a a') (hb : Evals s b b')
    (h : Settles (fun n => bm (boxyMatch n) n a' b') s (.ok (false, s'))) :
    Settles (fun n => boxyMatch n a b) s (.ok ((), s')) :=
  .of_succ (.bind ha (.bind hb (.bind h (.pure _ _))))

theorem boxyMatch_error {a b a' b' : Ty} {e : TcError} (ha : Evals s a a') (hb : Evals s b b')
    (h : Settles (fun n => bm (boxyMatch n) n a' b') s (.error e)) :
    Settles (fun n => boxyMatch n a b) s (.error e) :=
  .of_succ (.bind ha (.bind hb (.bind_error h)))

/-! ### New metavariables -/

def freshVars (n k : ℕ) : List MetaVar :=
  (List.range' n k).map fun i => { metaUniq := i, metaType := .tau }

theorem newMetaVars_eq (k : ℕ) (s : TcState) :
    ((List.replicate k ()).mapM fun _ => newMetaVar .tau) s
      = .ok (freshVars s.uniq k, { s with uniq := s.uniq + k }) := by
  induction k generalizing s with
  | zero => rfl
  | succ k ih =>
    have hk := ih { s with uniq := s.uniq + 1 }
    have huniq : s.uniq + 1 + k = s.uniq + (k + 1) := by omega
    rw [List.replicate_succ, List.mapM_cons]
    simp only [bind, StateT.bind, Except.bind, newMetaVar, hk, freshVars, List.range'_succ,
      List.map_cons, huniq]
    rfl

theorem mem_freshVars {n k : ℕ} {mv : MetaVar} :
    mv ∈ freshVars n k ↔ (n ≤ mv.metaUniq ∧ mv.metaUniq < n + k) ∧ mv.metaType = .tau := by
  obtain ⟨u, t⟩ := mv
  simp only [freshVars, List.mem_map, List.mem_range'_1, MetaVar.mk.injEq]
  constructor
  · intro h
    obtain ⟨i, hi, rfl, rfl⟩ := h
    exact ⟨hi, rfl⟩
  · intro h
    exact ⟨u, h.1, rfl, h.2.symm⟩

theorem length_freshVars (n k : ℕ) : (freshVars n k).length = k := by
  simp only [freshVars, List.length_map, List.length_range']

/-! ### Structures over parts -/

/-- `mk` builds the same structure from types as `ctx` does from terms. -/
structure Shape (k : ℕ) (mk : List Ty → Ty) (ctx : List Tm → Tm) : Prop where
  frame : Frame k ctx
  den_mk : ∀ ts, ts.length = k → den (mk ts) = ctx (ts.map den)
  fits_mk : ∀ n ts, ts.length = k → (∀ t ∈ ts, Fits n t) → Fits n (mk ts)

theorem den_foldl_app (h : Ty) (ts : List Ty) : den (ts.foldl Ty.app h) = apps (den h) (ts.map den) := by
  induction ts generalizing h with
  | nil => rfl
  | cons t ts ih =>
    have ht := ih (Ty.app h t)
    rw [den_app] at ht
    exact ht

theorem fits_foldl_app {n : ℕ} {h : Ty} {ts : List Ty} (hh : Fits n h) (hts : ∀ t ∈ ts, Fits n t) :
    Fits n (ts.foldl Ty.app h) := by
  induction ts generalizing h with
  | nil => exact hh
  | cons t ts ih =>
    have ht := fits_app.2 ⟨hh, hts t List.mem_cons_self⟩
    exact ih ht fun t' ht' => hts t' (List.mem_cons_of_mem t ht')

theorem shape_con (c : Name) (k : ℕ) :
    Shape k (fun ts => ts.foldl Ty.app (tCon c)) (apps (con (.con c))) where
  frame := frame_con _ k
  den_mk ts _ := den_foldl_app (tCon c) ts
  fits_mk n ts _ h := fits_foldl_app (fits_tCon n c) h

/-- The structure of an arrow, whose list has two elements. -/
theorem shape_arrow (d : Ty) :
    Shape 2 (fun ts => match ts with | [t1, t2] => tArrow t1 t2 | _ => d)
      (apps (con (.con tc_Arrow))) where
  frame := frame_con _ 2
  den_mk ts h := by
    obtain ⟨t₁, t₂, rfl⟩ := List.length_eq_two.1 h
    rfl
  fits_mk n ts h hts := by
    obtain ⟨t₁, t₂, rfl⟩ := List.length_eq_two.1 h
    exact fits_tArrow.2 ⟨hts t₁ (by simp), hts t₂ (by simp)⟩

theorem shape_head (d : Ty) (k : ℕ) :
    Shape (k + 2) (fun ts => match ts with | t :: ts => ts.foldl Ty.app t | [] => d) (spine (den d)) where
  frame := frame_spine _ k
  den_mk ts h := by
    cases ts with
    | nil => cases h
    | cons t ts => exact den_foldl_app t ts
  fits_mk n ts h hts := by
    cases ts with
    | nil => cases h
    | cons t ts =>
      exact fits_foldl_app (hts t List.mem_cons_self) fun t' ht' => hts t' (List.mem_cons_of_mem t ht')

/-! ### Copies -/

/-- From `s` to `s'` the metavariables `us` are bound, and new ones, all of them bound. -/
structure Copies (s s' : TcState) (us : List ℕ) (E : (ℕ → Tm) → Prop) : Prop where
  proper : Proper s'
  uniq_le : s.uniq ≤ s'.uniq
  grows : ∃ new, s'.sys = new ++ s.sys ∧ ∀ x, Bound new x ↔ x ∈ us ∨ (s.uniq ≤ x ∧ x < s'.uniq)
  sound : ∀ θ, Solves θ s'.sys → Solves θ s.sys ∧ E θ
  complete : ∀ θ, Solves θ s.sys → E θ → ∃ θ', Solves θ' s'.sys ∧ ∀ x < s.uniq, θ' x = θ x

section
variable {us : List ℕ} {E F : (ℕ → Tm) → Prop}

theorem bound_append {r r' : Bindings Sym ℕ} {x : ℕ} : Bound (r ++ r') x ↔ Bound r x ∨ Bound r' x := by
  simp only [Bound, List.mem_append, or_and_right, exists_or]

theorem Copies.step (h : Copies s s' us E) {u : ℕ} (hmem : u ∈ us) (hu : u < s.uniq)
    (hub : ¬ Bound s.sys u) : Step s s' E where
  proper := h.proper
  uniq_le := h.uniq_le
  progress := by
    obtain ⟨new, hsys, hnew⟩ := h.grows
    refine .inr (free_lt hu hub fun x hx hb => ?_)
    rw [hsys, bound_append, hnew, not_or, not_or, not_and] at hb
    obtain ⟨⟨hxu, hxlt⟩, hxb⟩ := hb
    refine ⟨fun he => hxu (he ▸ hmem), ?_, hxb⟩
    exact Nat.lt_of_not_le fun hle => hxlt hle hx
  sound := h.sound
  complete := h.complete

theorem Copies.congr (h : Copies s s' us E) (hEF : ∀ θ, Solves θ s.sys → (E θ ↔ F θ)) :
    Copies s s' us F where
  proper := h.proper
  uniq_le := h.uniq_le
  grows := h.grows
  sound θ hθ := ⟨(h.sound θ hθ).1, (hEF θ (h.sound θ hθ).1).1 (h.sound θ hθ).2⟩
  complete θ hθ hE := h.complete θ hθ ((hEF θ hθ).2 hE)

theorem Copies.trans {s₁ : TcState} {us' : List ℕ} (h : Copies s s₁ us E) (h' : Copies s₁ s' us' F)
    (hF : ∀ θ θ', (∀ x < s.uniq, θ' x = θ x) → F θ → F θ') :
    Copies s s' (us ++ us') fun θ => E θ ∧ F θ where
  proper := h'.proper
  uniq_le := Nat.le_trans h.uniq_le h'.uniq_le
  grows := by
    obtain ⟨new, hsys, hnew⟩ := h.grows
    obtain ⟨new', hsys', hnew'⟩ := h'.grows
    refine ⟨new' ++ new, by rw [hsys', hsys, List.append_assoc], fun x => ?_⟩
    have hle := h.uniq_le
    have hle' := h'.uniq_le
    rw [bound_append, hnew, hnew', List.mem_append]
    constructor
    · rintro ((h | h) | (h | h))
      · exact .inl (.inr h)
      · exact .inr (by omega)
      · exact .inl (.inl h)
      · exact .inr (by omega)
    · rintro ((h | h) | h)
      · exact .inr (.inl h)
      · exact .inl (.inl h)
      · by_cases hx : x < s₁.uniq
        · exact .inr (.inr ⟨h.1, hx⟩)
        · exact .inl (.inr ⟨by omega, h.2⟩)
  sound θ hθ := by
    obtain ⟨h₁, hf⟩ := h'.sound θ hθ
    obtain ⟨h₀, he⟩ := h.sound θ h₁
    exact ⟨h₀, he, hf⟩
  complete θ hθ hE := by
    obtain ⟨θ₁, h₁, heq₁⟩ := h.complete θ hθ hE.1
    obtain ⟨θ₂, h₂, heq₂⟩ := h'.complete θ₁ h₁ (hF θ θ₁ heq₁ hE.2)
    refine ⟨θ₂, h₂, fun x hx => ?_⟩
    rw [heq₂ x (Nat.lt_of_lt_of_le hx h.uniq_le), heq₁ x hx]

end

/-- A type in which no metavariable is bound stands for the same afterwards. -/
theorem Copies.full_eq {us : List ℕ} {E : (ℕ → Tm) → Prop} (hs : Proper s) (h : Copies s s' us E) {t : Ty}
    (ht : Fits s.uniq t) (hus : ∀ u ∈ us, ¬ (s.full t).Occurs u) : s'.full t = s.full t := by
  obtain ⟨new, hsys, hnew⟩ := h.grows
  rw [TcState.full, hsys]
  refine solution_append fun x hx hocc => ?_
  rcases (hnew x).1 hx with hx | hx
  · exact hus x hx hocc
  · have hlt := (hs.full_occurs ht hocc).1
    omega

/-- What matching against a free metavariable comes to. -/
def CopiesOver (K : ℕ) : Prop :=
  ∀ (s : TcState) (a : Ty) (mv : MetaVar), Proper s → Fits s.uniq a → Fits s.uniq (tMetaVar mv) →
    ¬ Bound s.sys mv.metaUniq → ¬ (s.full a).Occurs mv.metaUniq → (s.full a).size < K →
    ∃ s', Settles (fun n => boxyMatch n a (tMetaVar mv)) s (.ok ((), s')) ∧
      Copies s s' [mv.metaUniq] fun θ => Unifies θ a (tMetaVar mv)

def images (θ : ℕ → Tm) (as : List Ty) : List Tm := as.map fun a => (den a).subst θ

theorem copy_list {K : ℕ} (ih : CopiesOver K) (as : List Ty) (vs : List MetaVar) (s : TcState)
    (hlen : as.length = vs.length) (hs : Proper s) (has : ∀ a ∈ as, Fits s.uniq a)
    (hsize : ∀ a ∈ as, (s.full a).size < K)
    (hvs : ∀ v ∈ vs, Fits s.uniq (tMetaVar v) ∧ ¬ Bound s.sys v.metaUniq)
    (hocc : ∀ a ∈ as, ∀ v ∈ vs, ¬ (s.full a).Occurs v.metaUniq) (hnodup : (vs.map MetaVar.metaUniq).Nodup) :
    ∃ s', Settles (fun n => matchArgs (boxyMatch n) as (vs.map tMetaVar)) s (.ok ((), s')) ∧
      Copies s s' (vs.map MetaVar.metaUniq) fun θ => images θ as = images θ (vs.map tMetaVar) := by
  induction as generalizing vs s with
  | nil =>
    cases vs with
    | cons v vs => cases hlen
    | nil =>
      refine ⟨s, .pure _ _, hs, Nat.le_refl _, ⟨[], rfl, fun x => ?_⟩, fun θ h => ⟨h, rfl⟩,
        fun θ h _ => ⟨θ, h, fun _ _ => rfl⟩⟩
      have hx : ¬ (s.uniq ≤ x ∧ x < s.uniq) := by omega
      simp [hx]
  | cons a as iha =>
    cases vs with
    | nil => cases hlen
    | cons v vs =>
      have ha := has a List.mem_cons_self
      have hv := hvs v List.mem_cons_self
      obtain ⟨s₁, hset₁, hc₁⟩ := ih s a v hs ha hv.1 hv.2
        (hocc a List.mem_cons_self v List.mem_cons_self) (hsize a List.mem_cons_self)
      have hfull : ∀ b ∈ as, s₁.full b = s.full b := fun b hb =>
        hc₁.full_eq hs (has b (List.mem_cons_of_mem a hb)) fun u hu => by
          cases List.mem_singleton.1 hu
          exact hocc b (List.mem_cons_of_mem a hb) v List.mem_cons_self
      have hvs₁ : ∀ w ∈ vs, Fits s₁.uniq (tMetaVar w) ∧ ¬ Bound s₁.sys w.metaUniq := by
        intro w hw
        have hw' := hvs w (List.mem_cons_of_mem v hw)
        have hne : w.metaUniq ≠ v.metaUniq := fun he =>
          (List.nodup_cons.1 hnodup).1 (he ▸ List.mem_map_of_mem hw)
        have hlt := (fits_tMetaVar.1 hw'.1).2
        obtain ⟨new, hsys, hnew⟩ := hc₁.grows
        refine ⟨hw'.1.mono hc₁.uniq_le, ?_⟩
        rw [hsys, bound_append, hnew, List.mem_singleton]
        rintro ((h | h) | h)
        · exact hne h
        · omega
        · exact hw'.2 h
      obtain ⟨s₂, hset₂, hc₂⟩ := iha vs s₁ (Nat.succ.inj hlen) hc₁.proper
        (fun b hb => (has b (List.mem_cons_of_mem a hb)).mono hc₁.uniq_le)
        (fun b hb => by rw [hfull b hb]; exact hsize b (List.mem_cons_of_mem a hb)) hvs₁
        (fun b hb w hw => by
          rw [hfull b hb]
          exact hocc b (List.mem_cons_of_mem a hb) w (List.mem_cons_of_mem v hw))
        (List.nodup_cons.1 hnodup).2
      refine ⟨s₂, .bind hset₁ hset₂, (hc₁.trans hc₂ fun θ θ' hagree h => ?_).congr fun θ _ => ?_⟩
      · have hmap : ∀ ts : List Ty, (∀ t ∈ ts, Fits s.uniq t) → images θ' ts = images θ ts :=
          fun ts hts => List.map_congr_left fun t ht => subst_eq_of_fits (hts t ht) hagree
        rw [hmap as fun b hb => has b (List.mem_cons_of_mem a hb), hmap (vs.map tMetaVar) fun t ht => by
          obtain ⟨w, hw, rfl⟩ := List.mem_map.1 ht
          exact (hvs w (List.mem_cons_of_mem v hw)).1]
        exact h
      · simp only [images, List.map_cons, List.cons.injEq, Unifies]

/-! ### One structure -/

def TcState.alloc (s : TcState) (k : ℕ) : TcState := { s with uniq := s.uniq + k }

theorem Proper.alloc (hs : Proper s) (k : ℕ) : Proper (s.alloc k) where
  triangular := hs.triangular
  bound_lt p hp := Nat.lt_add_right k (hs.bound_lt p hp)
  fits p hp := (hs.fits p hp).mono (Nat.le_add_right s.uniq k)

theorem solves_agree (hs : Proper s) {θ θ' : ℕ → Tm} (h : ∀ x < s.uniq, θ' x = θ x)
    (hθ : Solves θ s.sys) : Solves θ' s.sys := by
  intro p hp
  obtain ⟨q, hq, rfl⟩ := List.mem_map.1 hp
  have hbind := hθ _ hp
  show θ' q.1 = (den q.2).subst θ'
  rw [h q.1 (hs.bound_lt q hq), subst_eq_of_fits (hs.fits q hq) h]
  exact hbind

/-- A substitution on new metavariables, given the terms for them. -/
def assign (n : ℕ) (l : List Tm) (θ : ℕ → Tm) (x : ℕ) : Tm :=
  if x < n then θ x else (l[x - n]?).getD (var x)

theorem assign_fresh (n : ℕ) (l : List Tm) (θ : ℕ → Tm) :
    images (assign n l θ) ((freshVars n l.length).map tMetaVar) = l := by
  refine List.ext_getElem? fun i => ?_
  by_cases hi : i < l.length
  · have hlt : ¬ n + i < n := by omega
    simp [images, freshVars, den, subst, assign, hi, hlt]
  · have hl : l[i]? = none := List.getElem?_eq_none (by omega)
    have himg : (images (assign n l θ) ((freshVars n l.length).map tMetaVar))[i]? = none := by
      refine List.getElem?_eq_none ?_
      simp only [images, List.length_map, length_freshVars]
      omega
    rw [hl, himg]

/-- A metavariable bound to a structure over new metavariables, matched against the parts. -/
theorem copy_parts {k : ℕ} {mk : List Ty → Ty} {ctx : List Tm → Tm} (hshape : Shape k mk ctx)
    {as : List Ty} (hlen : as.length = k) {mv : MetaVar} (hs : Proper s)
    (has : ∀ a ∈ as, Fits s.uniq a) (hmv : Fits s.uniq (tMetaVar mv)) (hub : ¬ Bound s.sys mv.metaUniq)
    (hocc : ¬ (ctx (as.map s.full)).Occurs mv.metaUniq) (ih : CopiesOver (ctx (as.map s.full)).size) :
    ∃ s', Settles (fun n => withMetaVars n mv k mk (matchArgs (boxyMatch n) as)) s (.ok ((), s')) ∧
      Copies s s' [mv.metaUniq] fun θ => θ mv.metaUniq = ctx (images θ as) := by
  subst hlen
  obtain ⟨htau, hlt⟩ := fits_tMetaVar.1 hmv
  have hlenmap : ∀ f : Ty → Tm, (as.map f).length = as.length := fun f => List.length_map f
  have hus : ∀ a ∈ as, ¬ (s.full a).Occurs mv.metaUniq := fun a ha hx =>
    hocc ((hshape.frame.occurs_ctx _ _ (hlenmap _)).2 ⟨_, List.mem_map_of_mem ha, hx⟩)
  have hsize : ∀ a ∈ as, (s.full a).size < (ctx (as.map s.full)).size := fun a ha =>
    hshape.frame.size_lt _ (hlenmap _) _ (List.mem_map_of_mem ha)
  -- the new metavariables, and the structure over them
  let vs := freshVars s.uniq as.length
  have hvs : ∀ v ∈ vs, s.uniq ≤ v.metaUniq ∧ v.metaUniq < s.uniq + as.length ∧ v.metaType = .tau :=
    fun v hv => ⟨(mem_freshVars.1 hv).1.1, (mem_freshVars.1 hv).1.2, (mem_freshVars.1 hv).2⟩
  have hlenvs : (vs.map tMetaVar).length = as.length := by
    rw [List.length_map, length_freshVars]
  have hs₁ := hs.alloc as.length
  have hfresh : ∀ v ∈ vs, ¬ Bound s.sys v.metaUniq := fun v hv hb => by
    have hle := (hvs v hv).1
    have hblt := hs.bound_lt_uniq hb
    omega
  have hfitmk : Fits (s.alloc as.length).uniq (mk (vs.map tMetaVar)) := by
    refine hshape.fits_mk _ _ hlenvs fun t ht => ?_
    obtain ⟨v, hv, rfl⟩ := List.mem_map.1 ht
    exact fits_tMetaVar.2 ⟨(hvs v hv).2.2, (hvs v hv).2.1⟩
  have hfullmk : (s.alloc as.length).full (mk (vs.map tMetaVar)) = ctx ((vs.map tMetaVar).map den) := by
    rw [TcState.full, hshape.den_mk _ hlenvs]
    refine subst_fixed fun x hx => solution_of_not_bound ?_
    obtain ⟨t, ht, hxt⟩ := (hshape.frame.occurs_ctx _ _ (by rw [List.length_map, hlenvs])).1 hx
    obtain ⟨_, htv, rfl⟩ := List.mem_map.1 ht
    obtain ⟨v, hv, rfl⟩ := List.mem_map.1 htv
    cases hxt
    exact hfresh v hv
  have hoccmk : ¬ ((s.alloc as.length).full (mk (vs.map tMetaVar))).Occurs mv.metaUniq := by
    rw [hfullmk, hshape.frame.occurs_ctx _ _ (by rw [List.length_map, hlenvs])]
    rintro ⟨t, ht, hxt⟩
    obtain ⟨_, htv, rfl⟩ := List.mem_map.1 ht
    obtain ⟨v, hv, rfl⟩ := List.mem_map.1 htv
    have hle := (hvs v hv).1
    have heq : mv.metaUniq = v.metaUniq := hxt
    omega
  have hmv₁ := hmv.mono (Nat.le_add_right s.uniq as.length)
  obtain ⟨tt, hfittt, hdentt, hbind⟩ := (varBind_spec hs₁ hub hmv₁ hfitmk).2 hoccmk
  have hs₂ := hs₁.extend (Nat.lt_add_right _ hlt) hub hfitmk hfittt hdentt hoccmk
  -- the parts against them
  have hfull₂ : ∀ a ∈ as, ((s.alloc as.length).extend mv.metaUniq tt).full a = s.full a := fun a ha => by
    show (den a).subst (solution ([(mv.metaUniq, den tt)] ++ s.sys)) = s.full a
    refine solution_append fun x hx => ?_
    rw [bound_cons, or_iff_left (not_bound_nil x)] at hx
    exact hx ▸ hus a ha
  obtain ⟨s', hset, hc⟩ := copy_list ih as vs _ (length_freshVars _ _).symm hs₂
    (fun a ha => (has a ha).mono (Nat.le_add_right s.uniq as.length))
    (fun a ha => by rw [hfull₂ a ha]; exact hsize a ha)
    (fun v hv => ⟨fits_tMetaVar.2 ⟨(hvs v hv).2.2, (hvs v hv).2.1⟩, by
      rw [sys_extend, bound_cons, not_or]
      have hle := (hvs v hv).1
      exact ⟨by show mv.metaUniq ≠ v.metaUniq; omega, hfresh v hv⟩⟩)
    (fun a ha v hv => by
      rw [hfull₂ a ha]
      intro hx
      have hxlt := (hs.full_occurs (has a ha) hx).1
      have hle := (hvs v hv).1
      omega)
    (by simp only [vs, freshVars, List.map_map]; exact (List.nodup_range' ..).map fun _ _ h => h)
  have hmk : ∀ θ : ℕ → Tm, (den (mk (vs.map tMetaVar))).subst θ = ctx (images θ (vs.map tMetaVar)) :=
    fun θ => by
      rw [hshape.den_mk _ hlenvs, hshape.frame.subst_ctx _ _ (by rw [List.length_map, hlenvs]), List.map_map]
      rfl
  have hbox : isBoxyMetaVar mv = false := by simp [isBoxyMetaVar, htau]
  refine ⟨s', ?_, hc.proper, ?_, ?_, fun θ hθ => ?_, fun θ hθ hE => ?_⟩
  · simp only [withMetaVars, hbox, Bool.false_eq_true, if_false]
    exact .bind (.const fun _ => newMetaVars_eq as.length s) (.bind hbind hset)
  · exact Nat.le_trans (Nat.le_add_right s.uniq as.length) hc.uniq_le
  · obtain ⟨new, hsys, hnew⟩ := hc.grows
    refine ⟨new ++ [(mv.metaUniq, den tt)], by rw [hsys, sys_extend, List.append_assoc]; rfl, fun x => ?_⟩
    have hle := hc.uniq_le
    have hmem : x ∈ vs.map MetaVar.metaUniq ↔ s.uniq ≤ x ∧ x < s.uniq + as.length := by
      simp only [vs, freshVars, List.map_map, List.mem_map, List.mem_range'_1, Function.comp_apply,
        exists_eq_right]
    rw [bound_append, hnew, bound_cons, or_iff_left (not_bound_nil x), hmem, List.mem_singleton]
    simp only [uniq_extend, TcState.alloc] at hle ⊢
    omega
  · obtain ⟨h₂, himg⟩ := hc.sound θ hθ
    obtain ⟨h₁, hbnd⟩ := (solves_extend hdentt).1 h₂
    refine ⟨h₁, ?_⟩
    rw [hbnd, hmk, himg]
  · -- the new metavariables take what the parts come to
    have hagree : ∀ x < s.uniq, assign s.uniq (images θ as) θ x = θ x := fun x hx => if_pos hx
    have himgas : images (assign s.uniq (images θ as) θ) as = images θ as :=
      List.map_congr_left fun a ha => subst_eq_of_fits (has a ha) hagree
    have himgvs : images (assign s.uniq (images θ as) θ) (vs.map tMetaVar) = images θ as := by
      have hf := assign_fresh s.uniq (images θ as) θ
      have hl : (images θ as).length = as.length := List.length_map _
      rwa [hl] at hf
    obtain ⟨θ', hθ', hagree'⟩ := hc.complete (assign s.uniq (images θ as) θ)
      ((solves_extend hdentt).2 ⟨solves_agree hs hagree hθ, by rw [hmk, himgvs, hagree _ hlt, hE]⟩)
      (by rw [himgas, himgvs])
    refine ⟨θ', hθ', fun x hx => ?_⟩
    rw [hagree' x (Nat.lt_add_right _ hx), hagree x hx]

/-! ### Any type -/

theorem fromTApGo_spec (t : Ty) (rs : List Ty) :
    apps (den (fromTApGo t rs).1) ((fromTApGo t rs).2.map den) = apps (den t) (rs.map den) ∧
      rs.length ≤ (fromTApGo t rs).2.length ∧
      ∀ n, Fits n t → (∀ r ∈ rs, Fits n r) →
        Fits n (fromTApGo t rs).1 ∧ ∀ x ∈ (fromTApGo t rs).2, Fits n x := by
  induction t generalizing rs with
  | tAp a b iha ihb =>
    obtain ⟨happs, hlen, hfit⟩ := iha (b :: rs)
    refine ⟨happs, Nat.le_of_succ_le hlen, fun n hn hrs => ?_⟩
    obtain ⟨ha, hb⟩ := fits_tAp.1 hn
    exact hfit n ha (List.forall_mem_cons.2 ⟨hb, hrs⟩)
  | tArrow a b iha ihb =>
    refine ⟨rfl, by simp only [fromTApGo, List.length_cons]; omega, fun n hn hrs => ?_⟩
    obtain ⟨ha, hb⟩ := fits_tArrow.1 hn
    exact ⟨fits_tCon n _, List.forall_mem_cons.2 ⟨ha, List.forall_mem_cons.2 ⟨hb, hrs⟩⟩⟩
  | tVar v => exact ⟨rfl, Nat.le_refl _, fun n hn hrs => ⟨hn, hrs⟩⟩
  | tCon c => exact ⟨rfl, Nat.le_refl _, fun n hn hrs => ⟨hn, hrs⟩⟩
  | tMetaVar mv => exact ⟨rfl, Nat.le_refl _, fun n hn hrs => ⟨hn, hrs⟩⟩

theorem apps_fromTAp (t : Ty) : apps (den (fromTAp t).1) ((fromTAp t).2.map den) = den t :=
  (fromTApGo_spec t []).1

theorem fits_fromTAp {n : ℕ} {t : Ty} (h : Fits n t) :
    Fits n (fromTAp t).1 ∧ ∀ x ∈ (fromTAp t).2, Fits n x :=
  (fromTApGo_spec t []).2.2 n h (by simp)

theorem CopiesOver.mono {K K' : ℕ} (h : CopiesOver K') (hK : K ≤ K') : CopiesOver K :=
  fun s a mv hs ha hmv hub hocc hsize => h s a mv hs ha hmv hub hocc (Nat.lt_of_lt_of_le hsize hK)

section
variable {mv : MetaVar} {a : Ty}

theorem copy_structure {k : ℕ} {mk : List Ty → Ty} {ctx : List Tm → Tm} (hshape : Shape k mk ctx)
    {as : List Ty} (hlen : as.length = k) (hden : den a = ctx (as.map den)) (hs : Proper s)
    (ha : Fits s.uniq a) (has : ∀ x ∈ as, Fits s.uniq x) (hmv : Fits s.uniq (tMetaVar mv))
    (hub : ¬ Bound s.sys mv.metaUniq) (hocc : ¬ (s.full a).Occurs mv.metaUniq)
    (ih : CopiesOver (s.full a).size)
    (hbm : ∀ n, bm (boxyMatch n) n a (tMetaVar mv) = (do
      let _ ← occursCheck n mv a
      withMetaVars n mv k mk (matchArgs (boxyMatch n) as)
      return false)) :
    ∃ s', Settles (fun n => bm (boxyMatch n) n a (tMetaVar mv)) s (.ok (false, s')) ∧
      Copies s s' [mv.metaUniq] fun θ => Unifies θ a (tMetaVar mv) := by
  have hctx : ∀ θ : ℕ → Tm, (den a).subst θ = ctx (images θ as) := fun θ => by
    rw [hden, hshape.frame.subst_ctx _ _ (by rw [List.length_map, hlen]), List.map_map]
    rfl
  have hfull : s.full a = ctx (as.map s.full) := hctx _
  obtain ⟨tt, hcheck⟩ := (occursCheck_spec hs hmv ha).2 hocc
  rw [hfull] at hocc ih
  obtain ⟨s', hset, hc⟩ := copy_parts hshape hlen hs has hmv hub hocc ih
  refine ⟨s', ?_, hc.congr fun θ _ => ?_⟩
  · simp only [hbm]
    exact .bind hcheck (.bind hset (.pure _ _))
  · rw [Unifies, hctx]
    exact eq_comm

theorem copies_extend (hs : Proper s) (ha : Fits s.uniq a) (hmv : Fits s.uniq (tMetaVar mv))
    (hub : ¬ Bound s.sys mv.metaUniq) {tt : Ty} (hfit : Fits s.uniq tt) (hden : den tt = s.full a)
    (hocc : ¬ (s.full a).Occurs mv.metaUniq) :
    Copies s (s.extend mv.metaUniq tt) [mv.metaUniq] fun θ => Unifies θ a (tMetaVar mv) := by
  have hstep := step_extend hs hmv hub ha hfit hden hocc
  refine ⟨hstep.proper, hstep.uniq_le, ⟨[(mv.metaUniq, den tt)], rfl, fun x => ?_⟩,
    fun θ hθ => ⟨(hstep.sound θ hθ).1, (hstep.sound θ hθ).2.symm⟩,
    fun θ hθ hE => hstep.complete θ hθ hE.symm⟩
  have hx : ¬ (s.uniq ≤ x ∧ x < s.uniq) := by omega
  rw [bound_cons, or_iff_left (not_bound_nil x), List.mem_singleton, uniq_extend, or_iff_left hx]
  exact eq_comm

end

/-- The clauses of `bm` for a metavariable on the right. -/
theorem bm_copies {a : Ty} {mv : MetaVar} (hs : Proper s) (hfit : Fits s.uniq a) (hev : Evaluated s a)
    (hmv : Fits s.uniq (tMetaVar mv)) (hub : ¬ Bound s.sys mv.metaUniq)
    (hocc : ¬ (s.full a).Occurs mv.metaUniq) (ih : CopiesOver (s.full a).size) :
    ∃ s', Settles (fun n => bm (boxyMatch n) n a (tMetaVar mv)) s (.ok (false, s')) ∧
      Copies s s' [mv.metaUniq] fun θ => Unifies θ a (tMetaVar mv) := by
  obtain ⟨hfith, hfitas⟩ := fits_fromTAp hfit
  have happs := apps_fromTAp a
  obtain ⟨tt, hfittt, hdentt, hbind⟩ := (varBind_spec hs hub hmv hfit).2 hocc
  cases a with
  | tMetaVar v =>
    have hne : v.metaUniq ≠ mv.metaUniq := by
      intro he
      rw [full_unbound hev] at hocc
      exact hocc he.symm
    have hbox : isBoxyMetaVar v = false := by simp [isBoxyMetaVar, (fits_tMetaVar.1 hfit).1]
    refine ⟨_, ?_, copies_extend hs hfit hmv hub hfittt hdentt hocc⟩
    have hset : Settles (fun n => var_meets_var n v mv) s (.ok ((), s.extend mv.metaUniq tt)) := by
      simp only [var_meets_var, hne, hbox, if_false, Bool.false_and, Bool.false_eq_true]
      exact hbind
    exact .bind hset (.pure _ _)
  | tVar v =>
    refine ⟨_, ?_, copies_extend hs hfit hmv hub hfittt hdentt hocc⟩
    exact .bind hbind (.pure _ _)
  | tCon c =>
    exact copy_structure (shape_con c 0) rfl rfl hs hfit (by simp) hmv hub hocc ih fun _ => rfl
  | tArrow s1 s2 =>
    obtain ⟨h1, h2⟩ := fits_tArrow.1 hfit
    exact copy_structure (shape_arrow (tArrow s1 s2)) rfl rfl hs hfit (by simp [h1, h2]) hmv hub hocc ih
      fun _ => rfl
  | tAp l r =>
    have hlen : 1 ≤ (fromTAp (tAp l r)).2.length := (fromTApGo_spec l [r]).2.1
    cases hta : fromTAp (tAp l r) with
    | mk h xs =>
      rw [hta] at hfith hfitas happs hlen
      by_cases hc : ∃ c, h = tCon c
      · obtain ⟨c, rfl⟩ := hc
        refine copy_structure (shape_con c xs.length) rfl happs.symm hs hfit hfitas hmv hub hocc ih
          fun n => ?_
        simp only [bm, hta]
      · cases xs with
        | nil => cases hlen
        | cons x xs =>
          have hden : den (tAp l r) = spine (den h) ((h :: x :: xs).map den) := happs.symm
          refine copy_structure (shape_head h xs.length) rfl hden hs hfit
            (List.forall_mem_cons.2 ⟨hfith, hfitas⟩) hmv hub hocc ih fun n => ?_
          simp only [bm, hta]
          cases h with
          | tCon c => exact absurd ⟨c, rfl⟩ hc
          | _ => rfl

/-- Matching against a free metavariable that does not occur in the type succeeds. -/
theorem boxyMatch_copies (K : ℕ) : CopiesOver K := by
  induction K with
  | zero => exact fun s a mv _ _ _ _ _ hsize => absurd hsize (Nat.not_lt_zero _)
  | succ K ih =>
    intro s a mv hs ha hmv hub hocc hsize
    obtain ⟨a', heval, hfit, hfull, hev⟩ := evalType_spec hs ha
    rw [← hfull] at hocc hsize
    obtain ⟨s', hset, hc⟩ := bm_copies hs hfit hev hmv hub hocc (ih.mono (Nat.le_of_lt_succ hsize))
    refine ⟨s', boxyMatch_of_bm heval (evals_unbound hub) hset, hc.congr fun θ hθ => ?_⟩
    rw [Unifies, Unifies, ← subst_full hθ a', ← subst_full hθ a, hfull]

end Jhc.FrontEnd.Tc

import Jhc.FrontEnd.Tc.Match

/-!
# Unification of monotypes

The matching either extends the state by a most general solution or fails; it fails on
types that have a common instance only where it comes to a pair with an application that
is not headed by a constructor on the left and an arrow on the right.
-/

namespace Jhc.FrontEnd.Tc
open Ty
open Jhc.Lib (Settles FOTerm)
open Jhc.Lib.FOTerm

variable {s s' : TcState}

/-- The matching of `a` and `b` comes to a pair that has no clause: `AF1-arrow` and `AF2-arrow`
take an arrow apart on the left only. -/
inductive Misses : TcState → Ty → Ty → Prop
  | here {s : TcState} {a b a' c d : Ty} (ha : Evals s a a') (hb : Evals s b (tArrow c d))
      (hless : Headless a') : Misses s a b
  | part {s s₁ : TcState} {a b a' b' x y : Ty} {pre post : List (Ty × Ty)} (ha : Evals s a a')
      (hb : Evals s b b') (hparts : parts a' b' = some (pre ++ (x, y) :: post))
      (hpre : Settles (fun n => matchAll n pre) s (.ok ((), s₁))) (hmiss : Misses s₁ x y) : Misses s a b

/-- No substitution that solves the state makes the types equal. -/
def NotUnifiable (s : TcState) (a b : Ty) : Prop := ∀ θ, Solves θ s.sys → ¬ Unifies θ a b

/-- A run succeeds with exactly the solutions of the equation kept, or fails for a reason. -/
def Outcome {α : Type} (s : TcState) (f : ℕ → Tc α) (r : α) (E : (ℕ → Tm) → Prop) (why : Prop) : Prop :=
  (∃ s', Settles f s (.ok (r, s')) ∧ Step s s' E) ∨
    ∃ e, Settles f s (.error e) ∧ ((∀ θ, Solves θ s.sys → ¬ E θ) ∨ why)

/-! ### Metavariables -/

section
variable {a b : Ty} {mv : MetaVar}

theorem not_unifiable_occurs {t : Ty} (hev : Evaluated s (tMetaVar mv)) (h : (s.full t).Occurs mv.metaUniq)
    (hne : s.full t ≠ var mv.metaUniq) : NotUnifiable s (tMetaVar mv) t := by
  intro θ hθ hu
  refine ne_of_occurs h hne (θ := θ) ?_
  rw [subst_full hθ]
  exact hu

theorem full_ne_var {t : Ty} (ht : ∀ mv, t ≠ tMetaVar mv) (x : ℕ) : s.full t ≠ var x := by
  cases t with
  | tMetaVar mv => exact absurd rfl (ht mv)
  | _ => exact fun h => nomatch h

theorem bm_left (hs : Proper s) (hfa : Fits s.uniq (tMetaVar mv)) (hfb : Fits s.uniq b)
    (hea : Evaluated s (tMetaVar mv)) (heb : Evaluated s b) (hb : ∀ mv, b ≠ tMetaVar mv) :
    Outcome s (fun n => bm (boxyMatch n) n (tMetaVar mv) b) false (Unifies · (tMetaVar mv) b) False := by
  have htau : isBoxyMetaVar mv = false := by simp [isBoxyMetaVar, (fits_tMetaVar.1 hfa).1]
  have hbm : ∀ n, bm (boxyMatch n) n (tMetaVar mv) b = (do
      unify n (tMetaVar mv) b
      return false) := by
    intro n
    have harr : ¬ ArrowClause (tMetaVar mv) b := by
      intro h
      obtain ⟨_, _, h, _⟩ := h
      cases h
    rw [bm_ceq2 hb harr, ← meq_unify hfa.1 hfb.1 hb]
    rfl
  have hmgu : ∀ n, mgu (unify n) n (tMetaVar mv) b = varBind n mv b := by
    intro n
    cases b with
    | tMetaVar mv => exact absurd rfl (hb mv)
    | _ => simp only [mgu, htau, Bool.not_false, if_true]
  obtain ⟨hbad, hgood⟩ := varBind_spec hs hea hfa hfb
  simp only [hbm]
  by_cases hocc : (s.full b).Occurs mv.metaUniq
  · obtain ⟨e, he⟩ := hbad hocc
    refine .inr ⟨e, .bind_error (unify_mgu hea heb ?_),
      .inl (not_unifiable_occurs hea hocc (full_ne_var hb _))⟩
    simp only [hmgu]
    exact he
  · obtain ⟨tt, hfit, hden, hset⟩ := hgood hocc
    refine .inl ⟨_, .bind (a := ()) (unify_mgu hea heb ?_) (.pure _ _), step_extend hs hfa hea hfb hfit hden hocc⟩
    simp only [hmgu]
    exact hset

theorem bm_right_occurs (hs : Proper s) (hfa : Fits s.uniq a) (hfb : Fits s.uniq (tMetaVar mv))
    (ha : ∀ mv, a ≠ tMetaVar mv) (hocc : (s.full a).Occurs mv.metaUniq) :
    ∃ e, Settles (fun n => bm (boxyMatch n) n a (tMetaVar mv)) s (.error e) := by
  obtain ⟨e, he⟩ := (occursCheck_spec hs hfb hfa).1 hocc
  refine ⟨e, ?_⟩
  cases a with
  | tMetaVar v => exact absurd rfl (ha v)
  | tVar v => exact hocc.elim
  | tCon c => exact hocc.elim
  | tArrow s1 s2 => exact .bind_error he
  | tAp l r =>
    have hlen : 1 ≤ (fromTAp (tAp l r)).2.length := (fromTApGo_spec l [r]).2.1
    cases hta : fromTAp (tAp l r) with
    | mk h xs =>
      rw [hta] at hlen
      cases xs with
      | nil => cases hlen
      | cons x xs =>
        simp only [bm, hta]
        cases h <;> exact .bind_error he

theorem bm_right (hs : Proper s) (hfa : Fits s.uniq a) (hfb : Fits s.uniq (tMetaVar mv))
    (hea : Evaluated s a) (heb : Evaluated s (tMetaVar mv)) :
    Outcome s (fun n => bm (boxyMatch n) n a (tMetaVar mv)) false (Unifies · a (tMetaVar mv)) False := by
  by_cases hocc : (s.full a).Occurs mv.metaUniq
  · by_cases ha : ∃ v, a = tMetaVar v
    · obtain ⟨v, rfl⟩ := ha
      rw [full_unbound hea] at hocc
      have heq : mv.metaUniq = v.metaUniq := hocc
      refine .inl ⟨s, .bind (a := ()) (.const fun n => ?_) (.pure _ _), .refl hs fun θ _ => ?_⟩
      · simp only [var_meets_var, heq, if_true]
        rfl
      · simp only [Unifies, den, heq]
    · have ha : ∀ v, a ≠ tMetaVar v := fun v hv => ha ⟨v, hv⟩
      obtain ⟨e, he⟩ := bm_right_occurs hs hfa hfb ha hocc
      exact .inr ⟨e, he, .inl fun θ hθ hu =>
        not_unifiable_occurs heb hocc (full_ne_var ha _) θ hθ hu.symm⟩
  · obtain ⟨s', hset, hc⟩ := bm_copies hs hfa hea hfb heb hocc (boxyMatch_copies _)
    exact .inl ⟨s', hset, hc.step (List.mem_singleton.2 rfl) (fits_tMetaVar.1 hfb).2 heb⟩

end

/-! ### Structures -/

/-- What is known of the matchings that are smaller: fewer free metavariables, or the same
state and a smaller type. -/
def SmallerOutcomes (s : TcState) (K : ℕ) : Prop :=
  ∀ (s₁ : TcState) (x y : Ty), Proper s₁ → Fits s₁.uniq x → Fits s₁.uniq y →
    (s₁ = s ∧ (s.full x).size < K ∨ s₁.free < s.free) →
    Outcome s₁ (fun n => boxyMatch n x y) () (Unifies · x y) (Misses s₁ x y)

theorem matchAll_outcome {K : ℕ} (ih : SmallerOutcomes s K) (ps : List (Ty × Ty)) (s₁ : TcState)
    (hs₁ : Proper s₁) (hps : ∀ p ∈ ps, Fits s₁.uniq p.1 ∧ Fits s₁.uniq p.2)
    (hsize : ∀ p ∈ ps, (s.full p.1).size < K) (hprog : s₁ = s ∨ s₁.free < s.free) :
    Outcome s₁ (fun n => matchAll n ps) () (fun θ => ∀ p ∈ ps, Unifies θ p.1 p.2)
      (∃ pre x y post s₂, ps = pre ++ (x, y) :: post ∧
        Settles (fun n => matchAll n pre) s₁ (.ok ((), s₂)) ∧ Misses s₂ x y) := by
  induction ps generalizing s₁ with
  | nil => exact .inl ⟨s₁, .pure _ _, .refl hs₁ fun _ _ p hp => nomatch hp⟩
  | cons p ps iha =>
    obtain ⟨hp, hps⟩ := List.forall_mem_cons.1 hps
    obtain ⟨hsp, hsps⟩ := List.forall_mem_cons.1 hsize
    have hmeas : s₁ = s ∧ (s.full p.1).size < K ∨ s₁.free < s.free := by
      rcases hprog with h | h
      · exact .inl ⟨h, hsp⟩
      · exact .inr h
    rcases ih s₁ p.1 p.2 hs₁ hp.1 hp.2 hmeas with ⟨s₂, hset, hstep⟩ | ⟨e, he, hwhy⟩
    · have hprog₂ : s₂ = s ∨ s₂.free < s.free := by
        rcases hstep.progress with rfl | hlt
        · exact hprog
        · rcases hprog with rfl | hlt'
          · exact .inr hlt
          · exact .inr (Nat.lt_trans hlt hlt')
      have hps₂ : ∀ q ∈ ps, Fits s₂.uniq q.1 ∧ Fits s₂.uniq q.2 := fun q hq =>
        ⟨(hps q hq).1.mono hstep.uniq_le, (hps q hq).2.mono hstep.uniq_le⟩
      have hagree : ∀ θ θ' : ℕ → Tm, (∀ x < s₁.uniq, θ' x = θ x) →
          (∀ q ∈ ps, Unifies θ q.1 q.2) → ∀ q ∈ ps, Unifies θ' q.1 q.2 := fun θ θ' hθ h q hq =>
        unifies_of_agree (hps q hq).1 (hps q hq).2 hθ (h q hq)
      rcases iha s₂ hstep.proper hps₂ hsps hprog₂ with ⟨s', hset', hstep'⟩ | ⟨e, he, hwhy⟩
      · refine .inl ⟨s', .bind hset hset', (hstep.trans hstep' hagree).congr fun θ _ => ?_⟩
        simp only [List.forall_mem_cons]
      · refine .inr ⟨e, .bind hset he, ?_⟩
        rcases hwhy with hno | ⟨pre, x, y, post, s₃, rfl, hpre, hmiss⟩
        · refine .inl fun θ hθ h => ?_
          obtain ⟨hup, hups⟩ := List.forall_mem_cons.1 h
          obtain ⟨θ', hθ', heq⟩ := hstep.complete θ hθ hup
          exact hno θ' hθ' (hagree θ θ' heq hups)
        · exact .inr ⟨p :: pre, x, y, post, s₃, rfl, .bind hset hpre, hmiss⟩
    · refine .inr ⟨e, .bind_error he, ?_⟩
      rcases hwhy with hno | hmiss
      · exact .inl fun θ hθ h => hno θ hθ (h p List.mem_cons_self)
      · exact .inr ⟨[], p.1, p.2, ps, s₁, rfl, .pure _ _, hmiss⟩

theorem bm_outcome {a b a' b' : Ty} (hs : Proper s) (ha : Evals s a a') (hb : Evals s b b')
    (hfa : Fits s.uniq a') (hfb : Fits s.uniq b') (hea : Evaluated s a') (heb : Evaluated s b')
    (ih : SmallerOutcomes s (s.full a').size) :
    Outcome s (fun n => bm (boxyMatch n) n a' b') false (Unifies · a' b') (Misses s a b) := by
  have hfalse : ∀ {E}, Outcome s (fun n => bm (boxyMatch n) n a' b') false E False →
      Outcome s (fun n => bm (boxyMatch n) n a' b') false E (Misses s a b) :=
    fun h => h.imp_right fun ⟨e, he, hwhy⟩ => ⟨e, he, hwhy.imp_right False.elim⟩
  by_cases hbm : ∃ mv, b' = tMetaVar mv
  · obtain ⟨mv, rfl⟩ := hbm
    exact hfalse (bm_right hs hfa hfb hea heb)
  have hb' : ∀ mv, b' ≠ tMetaVar mv := fun mv h => hbm ⟨mv, h⟩
  by_cases ham : ∃ mv, a' = tMetaVar mv
  · obtain ⟨mv, rfl⟩ := ham
    exact hfalse (bm_left hs hfa hfb hea heb hb')
  have ha' : ∀ mv, a' ≠ tMetaVar mv := fun mv h => ham ⟨mv, h⟩
  cases hparts : parts a' b' with
  | some ps =>
    simp only [bm_parts hparts hb']
    have hunif : ∀ θ, (∀ p ∈ ps, Unifies θ p.1 p.2) ↔ Unifies θ a' b' := fun θ =>
      (parts_unifies hparts θ).symm
    rcases matchAll_outcome ih ps s hs (parts_fits hparts hfa hfb) (fun p hp => parts_size hparts hp)
      (.inl rfl) with ⟨s', hset, hstep⟩ | ⟨e, he, hwhy⟩
    · exact .inl ⟨s', .bind hset (.pure _ _), hstep.congr fun θ _ => hunif θ⟩
    · refine .inr ⟨e, .bind_error he, ?_⟩
      rcases hwhy with hno | ⟨pre, x, y, post, s₂, rfl, hpre, hmiss⟩
      · exact .inl fun θ hθ hu => hno θ hθ ((hunif θ).2 hu)
      · exact .inr (.part ha hb hparts hpre hmiss)
  | none =>
    by_cases hv : ∃ v, a' = tVar v ∧ b' = tVar v
    · obtain ⟨v, rfl, rfl⟩ := hv
      refine .inl ⟨s, ?_, .refl hs fun _ _ => rfl⟩
      have hmgu : ∀ n, mgu (unify n) n (tVar v) (tVar v) = pure () := fun n => by simp only [mgu, if_true]
      have hbm : ∀ n, bm (boxyMatch n) n (tVar v) (tVar v) = (do
          unify n (tVar v) (tVar v)
          return false) := fun _ => rfl
      simp only [hbm]
      refine .bind (a := ()) (unify_mgu hea heb ?_) (.pure _ _)
      simp only [hmgu]
      exact .pure _ _
    · have hv : ∀ v, ¬ (a' = tVar v ∧ b' = tVar v) := fun v h => hv ⟨v, h⟩
      obtain ⟨e, he⟩ := bm_clash hs hfa hfb hea heb hparts ha' hb' hv
      refine .inr ⟨e, he, ?_⟩
      rcases parts_none hparts ha' hb' with ⟨v, h⟩ | ⟨hless, c, d, rfl⟩ | hno
      · exact absurd h (hv v)
      · exact .inr (.here ha hb hless)
      · exact .inl fun θ _ => hno θ

/-- What one matching comes to. -/
theorem boxyMatch_outcome (hs : Proper s) {a b : Ty} (hfa : Fits s.uniq a) (hfb : Fits s.uniq b) :
    Outcome s (fun n => boxyMatch n a b) () (Unifies · a b) (Misses s a b) := by
  -- on the free metavariables, and on the left type for one state
  induction hfree : s.free using Nat.strong_induction_on generalizing s a b with
  | _ k ihfree =>
    induction hsize : (s.full a).size using Nat.strong_induction_on generalizing a b with
    | _ m ihsize =>
      obtain ⟨a', ha, hfa', hfulla, hea⟩ := evalType_spec hs hfa
      obtain ⟨b', hb, hfb', hfullb, heb⟩ := evalType_spec hs hfb
      have hunif : ∀ θ, Solves θ s.sys → (Unifies θ a' b' ↔ Unifies θ a b) := fun θ hθ => by
        rw [Unifies, Unifies, ← subst_full hθ a', ← subst_full hθ b', hfulla, hfullb, subst_full hθ,
          subst_full hθ]
      have ih : SmallerOutcomes s (s.full a').size := by
        intro s₁ x y hs₁ hx hy hmeas
        rcases hmeas with ⟨rfl, hlt⟩ | hlt
        · rw [hfulla, hsize] at hlt
          exact ihsize _ hlt hx hy rfl
        · exact ihfree _ (hfree ▸ hlt) hs₁ hx hy rfl
      rcases bm_outcome hs ha hb hfa' hfb' hea heb ih with ⟨s', hset, hstep⟩ | ⟨e, he, hwhy⟩
      · exact .inl ⟨s', boxyMatch_of_bm ha hb hset, hstep.congr hunif⟩
      · refine .inr ⟨e, boxyMatch_error ha hb he, hwhy.imp_left fun hno θ hθ hu => ?_⟩
        exact hno θ hθ ((hunif θ hθ).2 hu)

/-! ### Failure at a missing clause -/

theorem parts_meta (a : Ty) (mv : MetaVar) : parts a (tMetaVar mv) = none := by
  rw [parts_ceq2 (by rintro ⟨_, _, _, ⟨_, _, h⟩ | ⟨_, _, h⟩⟩ <;> cases h)]
  unfold ceq2Parts
  split
  · next heq => cases heq
  · split
    · next heq _ => cases heq
    · rfl

theorem Headless.ne_meta {a : Ty} (h : Headless a) (mv : MetaVar) : a ≠ tMetaVar mv := by
  obtain ⟨⟨f, x, rfl⟩, _⟩ := h
  exact fun heq => nomatch heq

theorem parts_headless {a c d : Ty} (h : Headless a) : parts a (tArrow c d) = none := by
  obtain ⟨⟨f, x, rfl⟩, hcon⟩ := h
  show ceq2Parts (tAp f x) (tArrow c d) = none
  unfold ceq2Parts
  split
  · next ca as _ _ heq _ =>
    have hca := hcon ca
    rw [heq] at hca
    exact absurd rfl hca
  · rfl

theorem evals_spec (hs : Proper s) {t t' : Ty} (ht : Fits s.uniq t) (h : Evals s t t') :
    Fits s.uniq t' ∧ Evaluated s t' := by
  obtain ⟨t₁, h₁, hfit, _, hev⟩ := evalType_spec hs ht
  have heq := Settles.unique h h₁
  cases heq
  exact ⟨hfit, hev⟩

theorem matchAll_append (n : ℕ) (ps qs : List (Ty × Ty)) :
    matchAll n (ps ++ qs) = (do
      matchAll n ps
      matchAll n qs) := by
  simp [matchAll]

theorem misses_fails {a b : Ty} (h : Misses s a b) (hs : Proper s) (hfa : Fits s.uniq a)
    (hfb : Fits s.uniq b) : ∃ e, Settles (fun n => boxyMatch n a b) s (.error e) := by
  induction h with
  | here ha hb hless =>
    obtain ⟨hfa', hea⟩ := evals_spec hs hfa ha
    obtain ⟨hfb', heb⟩ := evals_spec hs hfb hb
    obtain ⟨e, he⟩ := bm_clash hs hfa' hfb' hea heb (parts_headless hless) hless.ne_meta
      (fun _ h => nomatch h) (fun _ h => nomatch h.2)
    exact ⟨e, boxyMatch_error ha hb he⟩
  | @part s s₁ a b a' b' x y pre post ha hb hparts hpre _ ih =>
    obtain ⟨hfa', hea⟩ := evals_spec hs hfa ha
    obtain ⟨hfb', heb⟩ := evals_spec hs hfb hb
    have hfits := parts_fits hparts hfa' hfb'
    have hsmall : SmallerOutcomes s (s.full a').size := fun s₁ x y hs₁ hx hy _ => boxyMatch_outcome hs₁ hx hy
    rcases matchAll_outcome hsmall _ _ hs (fun p hp => hfits p (List.mem_append_left _ hp))
      (fun p hp => parts_size hparts (List.mem_append_left _ hp)) (.inl rfl)
      with ⟨s₂, hset, hstep⟩ | ⟨e, he, _⟩
    · have heq := Settles.unique hpre hset
      cases heq
      obtain ⟨hx, hy⟩ := hfits (x, y) (List.mem_append_right _ List.mem_cons_self)
      obtain ⟨e, he⟩ := ih hstep.proper (hx.mono hstep.uniq_le) (hy.mono hstep.uniq_le)
      refine ⟨e, boxyMatch_error ha hb ?_⟩
      have hmeta : ∀ mv, b' ≠ tMetaVar mv := by
        rintro mv rfl
        rw [parts_meta] at hparts
        cases hparts
      simp only [bm_parts hparts hmeta, matchAll_append, bind_assoc]
      exact .bind hpre (.bind_error (.bind_error he))
    · cases Settles.unique hpre he

theorem eq_of_mem_zip_self {as : List Ty} {p : Ty × Ty} (h : p ∈ as.zip as) : p.1 = p.2 := by
  induction as with
  | nil => cases h
  | cons a as ih =>
    rcases List.mem_cons.1 h with rfl | h
    · rfl
    · exact ih h

theorem parts_self {a : Ty} {ps : List (Ty × Ty)} (h : parts a a = some ps) : ∀ p ∈ ps, p.1 = p.2 := by
  by_cases harr : ArrowClause a a
  · obtain ⟨s1, s2, rfl, _⟩ := harr
    cases h
    simp
  · rw [parts_ceq2 harr] at h
    unfold ceq2Parts at h
    split at h
    · next heq heq' =>
      rw [heq] at heq'
      cases heq'
      split at h
      · cases h
        exact fun p hp => eq_of_mem_zip_self hp
      · cases h
    · split at h
      · cases h
        simp
      · cases h

theorem not_misses_self {a b : Ty} (h : Misses s a b) : a ≠ b := by
  induction h with
  | here ha hb hless =>
    rintro rfl
    cases Settles.unique ha hb
    obtain ⟨⟨f, x, hfx⟩, _⟩ := hless
    cases hfx
  | part ha hb hparts _ _ ih =>
    rintro rfl
    cases Settles.unique ha hb
    exact ih (parts_self hparts _ (List.mem_append_right _ List.mem_cons_self))

/-! ### Symmetry and completeness -/

def Succeeds (s : TcState) (a b : Ty) : Prop := ∃ s', Settles (fun n => boxyMatch n a b) s (.ok ((), s'))

def Unifiable (s : TcState) (a b : Ty) : Prop := ∃ θ, Solves θ s.sys ∧ Unifies θ a b

/-- A solution of the state that unifies the types and through which all others factor. -/
def IsMgu (s : TcState) (a b : Ty) (σ : ℕ → Tm) : Prop :=
  Solves σ s.sys ∧ Unifies σ a b ∧
    ∀ θ, Solves θ s.sys → Unifies θ a b → ∃ ρ, ∀ x < s.uniq, θ x = (σ x).subst ρ

/-- Either order succeeds on the types that have a unifier, and binds a most general one. -/
structure UnifiesBothWays (s : TcState) (a b : Ty) : Prop where
  left : Succeeds s a b ↔ Unifiable s a b
  right : Succeeds s b a ↔ Unifiable s a b
  left_mgu : ∀ s', Settles (fun n => boxyMatch n a b) s (.ok ((), s')) → IsMgu s a b (solution s'.sys)
  right_mgu : ∀ s', Settles (fun n => boxyMatch n b a) s (.ok ((), s')) → IsMgu s a b (solution s'.sys)

section
variable {a b : Ty}

theorem Unifiable.symm (h : Unifiable s a b) : Unifiable s b a := by
  obtain ⟨θ, hθ, hu⟩ := h
  exact ⟨θ, hθ, hu.symm⟩

theorem IsMgu.symm {σ : ℕ → Tm} (h : IsMgu s a b σ) : IsMgu s b a σ :=
  ⟨h.1, h.2.1.symm, fun θ hθ hu => h.2.2 θ hθ hu.symm⟩

theorem Step.isMgu (h : Step s s' (Unifies · a b)) : IsMgu s a b (solution s'.sys) := by
  obtain ⟨hsolves, hunif⟩ := h.sound _ (solution_solves h.proper.triangular)
  refine ⟨hsolves, hunif, fun θ hθ hu => ?_⟩
  obtain ⟨θ', hθ', hagree⟩ := h.complete θ hθ hu
  refine ⟨θ', fun x hx => ?_⟩
  rw [subst_solution hθ', hagree x hx]

theorem boxyMatch_mgu (hs : Proper s) (ha : Fits s.uniq a) (hb : Fits s.uniq b)
    (h : Settles (fun n => boxyMatch n a b) s (.ok ((), s'))) : IsMgu s a b (solution s'.sys) := by
  rcases boxyMatch_outcome hs ha hb with ⟨s₁, hset, hstep⟩ | ⟨e, he, _⟩
  · cases Settles.unique h hset
    exact hstep.isMgu
  · cases Settles.unique h he

theorem succeeds_iff (hs : Proper s) (ha : Fits s.uniq a) (hb : Fits s.uniq b) :
    Succeeds s a b ↔ Unifiable s a b ∧ ¬ Misses s a b := by
  constructor
  · intro h
    obtain ⟨s', hset⟩ := h
    have hmgu := boxyMatch_mgu hs ha hb hset
    refine ⟨⟨_, hmgu.1, hmgu.2.1⟩, fun hmiss => ?_⟩
    obtain ⟨e, he⟩ := misses_fails hmiss hs ha hb
    cases Settles.unique hset he
  · intro h
    obtain ⟨⟨θ, hθ, hu⟩, hmiss⟩ := h
    rcases boxyMatch_outcome hs ha hb with ⟨s', hset, _⟩ | ⟨e, _, hno | hwhy⟩
    · exact ⟨s', hset⟩
    · exact absurd hu (hno θ hθ)
    · exact absurd hwhy hmiss

theorem boxyMatch_self (hs : Proper s) (ha : Fits s.uniq a) : Succeeds s a a :=
  (succeeds_iff hs ha ha).2 ⟨⟨_, solution_solves hs.triangular, rfl⟩, fun h => not_misses_self h rfl⟩

end

end Jhc.FrontEnd.Tc

import Jhc.FrontEnd.Tc.Copy

/-!
# What matching two monotypes comes to

The matching succeeds with a most general solution, or it fails and there is no solution,
or it comes to a pair that `bm` has no clause for: an application that is not headed by a
constructor on the left and an arrow on the right.
-/

namespace Jhc.FrontEnd.Tc
open Ty
open Jhc.Lib (Settles FOTerm)
open Jhc.Lib.FOTerm

variable {s s' : TcState}

def ceq2Parts (a b : Ty) : Option (List (Ty × Ty)) :=
  match fromTAp a, fromTAp b with
  | (tCon ca, as), (tCon cb, bs) =>
    if ca = cb ∧ as.length = bs.length then some (as.zip bs) else none
  | _, _ =>
    match a, b with
    | tAp a b, tAp c d => some [(a, c), (b, d)]
    | _, _ => none

/-- The pairs that a clause of `bm` for two structures matches, in its order. -/
def parts : Ty → Ty → Option (List (Ty × Ty))
  | tArrow s1 s2, tArrow s3 s4 => some [(s1, s3), (s2, s4)]
  | tArrow s1 s2, tAp (tAp arr a1) a2 => some [(arrowCon, arr), (s1, a1), (s2, a2)]
  | tArrow s1 s2, tAp a1 a2 => some [(Ty.app arrowCon s1, a1), (s2, a2)]
  | a, b => ceq2Parts a b

/-- The clauses that come before CEQ2 when the right side is no metavariable. -/
def ArrowClause (a b : Ty) : Prop :=
  ∃ s1 s2, a = tArrow s1 s2 ∧ ((∃ s3 s4, b = tArrow s3 s4) ∨ ∃ a1 a2, b = tAp a1 a2)

attribute [local grind =] ceq2Parts parts

theorem parts_ceq2 {a b : Ty} (harr : ¬ ArrowClause a b) : parts a b = ceq2Parts a b := by
  cases a with
  | tArrow s1 s2 =>
    cases b with
    | tArrow s3 s4 => exact absurd ⟨s1, s2, rfl, .inl ⟨s3, s4, rfl⟩⟩ harr
    | tAp a1 a2 => exact absurd ⟨s1, s2, rfl, .inr ⟨a1, a2, rfl⟩⟩ harr
    | _ => rfl
  | _ => rfl

theorem parts_arrowClause {a b : Ty} (harr : ArrowClause a b) : parts a b ≠ none := by
  obtain ⟨s1, s2, rfl, ⟨s3, s4, rfl⟩ | ⟨a1, a2, rfl⟩⟩ := harr
  · simp [parts]
  · cases a1 <;> simp [parts]

theorem ceq2Parts_heads {a b : Ty} {ca cb : Name} {as bs : List Ty} (ha : fromTAp a = (tCon ca, as))
    (hb : fromTAp b = (tCon cb, bs)) :
    ceq2Parts a b = if ca = cb ∧ as.length = bs.length then some (as.zip bs) else none := by
  simp only [ceq2Parts, ha, hb]

def matchAll (n : ℕ) (ps : List (Ty × Ty)) : Tc Unit := ps.forM fun p => boxyMatch n p.1 p.2

theorem bm_ceq2 {a b : Ty} (hb : ∀ mv, b ≠ tMetaVar mv) (harr : ¬ ArrowClause a b)
    (f : Ty → Ty → Tc Unit) (n : ℕ) : bm f n a b = ceq2 f n a b := by
  cases b with
  | tMetaVar mv => exact absurd rfl (hb mv)
  | tArrow s3 s4 =>
    cases a with
    | tArrow s1 s2 => exact absurd ⟨s1, s2, rfl, .inl ⟨s3, s4, rfl⟩⟩ harr
    | _ => rfl
  | tAp a1 a2 =>
    cases a with
    | tArrow s1 s2 => exact absurd ⟨s1, s2, rfl, .inr ⟨a1, a2, rfl⟩⟩ harr
    | _ => rfl
  | _ => cases a <;> rfl

theorem ceq2_app {a b c d : Ty}
    (hcon : ∀ ca as cb bs, fromTAp (tAp a b) = (tCon ca, as) →
      fromTAp (tAp c d) = (tCon cb, bs) → False)
    (f : Ty → Ty → Tc Unit) (n : ℕ) :
    ceq2 f n (tAp a b) (tAp c d) = (do
      f a c
      f b d
      return false) := by
  unfold ceq2
  split
  · next ha hb => exact (hcon _ _ _ _ ha hb).elim
  · rfl

theorem ceq2_parts {a b : Ty} {ps : List (Ty × Ty)} (h : ceq2Parts a b = some ps) (n : ℕ) :
    ceq2 (boxyMatch n) n a b = (do
      matchAll n ps
      return false) := by
  unfold ceq2Parts at h
  split at h
  · next heqa heqb =>
    split at h
    · next hc =>
      cases h
      unfold ceq2
      simp only [heqa, heqb, if_pos hc]
      rfl
    · cases h
  · next hcon =>
    split at h
    · cases h
      rw [ceq2_app hcon]
      simp [matchAll]
    · cases h

theorem bm_parts {a b : Ty} {ps : List (Ty × Ty)} (h : parts a b = some ps) (hb : ∀ mv, b ≠ tMetaVar mv)
    (n : ℕ) : bm (boxyMatch n) n a b = (do
      matchAll n ps
      return false) := by
  by_cases harr : ArrowClause a b
  · obtain ⟨s1, s2, rfl, ⟨s3, s4, rfl⟩ | ⟨a1, a2, rfl⟩⟩ := harr
    · cases h
      simp [bm, matchAll]
    · cases a1 <;> cases h <;> simp [bm, matchAll]
  · rw [parts_ceq2 harr] at h
    rw [bm_ceq2 hb harr, ceq2_parts h]

theorem zip_den {as bs : List Ty} (h : as.length = bs.length) :
    (as.zip bs).map (fun p => den p.1) = as.map den ∧ (as.zip bs).map (fun p => den p.2) = bs.map den := by
  have hf := List.map_fst_zip (Nat.le_of_eq h)
  have hs := List.map_snd_zip (Nat.le_of_eq h.symm)
  refine ⟨?_, ?_⟩
  · rw [← hf, List.map_map, List.map_fst_zip (Nat.le_of_eq h)]
    rfl
  · rw [← hs, List.map_map, List.map_snd_zip (Nat.le_of_eq h.symm)]
    rfl

/-- Both types are the same structure over the two sides of the pairs. -/
theorem parts_frame {a b : Ty} {ps : List (Ty × Ty)} (h : parts a b = some ps) :
    ∃ ctx, Frame ps.length ctx ∧ den a = ctx (ps.map fun p => den p.1) ∧
      den b = ctx (ps.map fun p => den p.2) := by
  unfold parts at h
  split at h
  · cases h
    exact ⟨_, frame_con (.con tc_Arrow) 2, rfl, rfl⟩
  · cases h
    exact ⟨_, frame_spine (con (.con tc_Arrow)) 1, rfl, rfl⟩
  · cases h
    refine ⟨_, frame_spine (con (.con tc_Arrow)) 0, ?_, rfl⟩
    simp only [List.map_cons, List.map_nil, den_app]
    rfl
  · unfold ceq2Parts at h
    split at h
    · next ca as cb bs heqa heqb =>
      split at h
      · next hc =>
        cases h
        have ha := apps_fromTAp a
        have hb := apps_fromTAp b
        rw [heqa] at ha
        rw [heqb, ← hc.1] at hb
        refine ⟨_, frame_con (.con ca) _, ?_, ?_⟩
        · rw [(zip_den hc.2).1]
          exact ha.symm
        · rw [(zip_den hc.2).2]
          exact hb.symm
      · cases h
    · split at h
      · cases h
        exact ⟨_, frame_spine (con (.con tc_Arrow)) 0, rfl, rfl⟩
      · cases h

theorem parts_unifies {a b : Ty} {ps : List (Ty × Ty)} (h : parts a b = some ps) (θ : ℕ → Tm) :
    Unifies θ a b ↔ ∀ p ∈ ps, Unifies θ p.1 p.2 := by
  obtain ⟨ctx, hframe, ha, hb⟩ := parts_frame h
  have hl : ∀ f : Ty × Ty → Tm, (ps.map f).length = ps.length := fun f => List.length_map f
  have hmap : (∀ p ∈ ps, Unifies θ p.1 p.2) ↔
      (ps.map fun p => den p.1).map (subst θ) = (ps.map fun p => den p.2).map (subst θ) := by
    rw [List.map_map, List.map_map]
    exact List.map_inj_left.symm
  rw [hmap, Unifies, ha, hb, hframe.subst_ctx _ _ (hl _), hframe.subst_ctx _ _ (hl _)]
  refine ⟨fun heq => hframe.inj _ _ ?_ ?_ heq, fun heq => by rw [heq]⟩
  · rw [List.length_map, hl]
  · rw [List.length_map, hl]

theorem parts_size {a b : Ty} {ps : List (Ty × Ty)} (h : parts a b = some ps) {p : Ty × Ty} (hp : p ∈ ps) :
    (s.full p.1).size < (s.full a).size := by
  obtain ⟨ctx, hframe, ha, _⟩ := parts_frame h
  have hl : (ps.map fun p => den p.1).length = ps.length := List.length_map _
  rw [TcState.full, TcState.full, ha, hframe.subst_ctx _ _ hl]
  refine hframe.size_lt _ (by rw [List.length_map, hl]) _ ?_
  exact List.mem_map_of_mem (List.mem_map_of_mem (f := fun p => den p.1) hp)

theorem parts_fits {a b : Ty} {ps : List (Ty × Ty)} (h : parts a b = some ps) {n : ℕ} (ha : Fits n a)
    (hb : Fits n b) : ∀ p ∈ ps, Fits n p.1 ∧ Fits n p.2 := by
  unfold parts at h
  split at h
  · cases h
    simp only [fits_tArrow] at ha hb
    simp [ha, hb]
  · cases h
    simp only [fits_tArrow, fits_tAp] at ha hb
    simp [ha, hb, arrowCon]
  · cases h
    simp only [fits_tArrow, fits_tAp] at ha hb
    simp [ha, hb, arrowCon]
  · unfold ceq2Parts at h
    split at h
    · next heqa heqb =>
      split at h
      · cases h
        have hfa := (fits_fromTAp ha).2
        have hfb := (fits_fromTAp hb).2
        rw [heqa] at hfa
        rw [heqb] at hfb
        exact fun p hp => ⟨hfa _ (List.of_mem_zip hp).1, hfb _ (List.of_mem_zip hp).2⟩
      · cases h
    · split at h
      · cases h
        simp only [fits_tAp] at ha hb
        simp [ha, hb]
      · cases h

/-! ### Pairs without parts -/

/-- An application that is not headed by a constructor. -/
def Headless (t : Ty) : Prop := (∃ f x, t = tAp f x) ∧ ∀ c, (fromTAp t).1 ≠ tCon c

theorem not_unifies_heads {a b : Ty} {ca cb : Name} {as bs : List Ty} (ha : fromTAp a = (tCon ca, as))
    (hb : fromTAp b = (tCon cb, bs)) (h : ¬ (ca = cb ∧ as.length = bs.length)) (θ : ℕ → Tm) :
    ¬ Unifies θ a b := by
  have hda := apps_fromTAp a
  have hdb := apps_fromTAp b
  rw [ha] at hda
  rw [hb] at hdb
  intro hu
  rw [Unifies, ← hda, ← hdb, subst_apps, subst_apps] at hu
  obtain ⟨hc, hl⟩ := apps_con_inj hu
  have hlen := congrArg List.length hl
  simp only [List.length_map] at hlen
  injection hc with hc
  exact h ⟨hc, hlen⟩

theorem parts_none {a b : Ty} (h : parts a b = none) (ha : ∀ mv, a ≠ tMetaVar mv)
    (hb : ∀ mv, b ≠ tMetaVar mv) :
    (∃ v, a = tVar v ∧ b = tVar v) ∨ (Headless a ∧ ∃ c d, b = tArrow c d) ∨ ∀ θ, ¬ Unifies θ a b := by
  have harr : ¬ ArrowClause a b := fun harr => parts_arrowClause harr h
  rw [parts_ceq2 harr] at h
  have hclash : ∀ {ca cb as bs}, fromTAp a = (tCon ca, as) → fromTAp b = (tCon cb, bs) →
      ∀ θ, ¬ Unifies θ a b := by
    intro ca cb as bs heqa heqb θ
    refine not_unifies_heads heqa heqb (fun hc => ?_) θ
    rw [ceq2Parts_heads heqa heqb, if_pos hc] at h
    cases h
  cases a with
  | tMetaVar mv => exact absurd rfl (ha mv)
  | tVar v =>
    cases b with
    | tMetaVar mv => exact absurd rfl (hb mv)
    | tVar w =>
      by_cases hv : v = w
      · exact .inl ⟨v, rfl, by rw [hv]⟩
      · refine .inr (.inr fun θ hu => ?_)
        simp only [Unifies, den, subst, con.injEq, Sym.var.injEq] at hu
        exact hv hu
    | _ => exact .inr (.inr fun θ hu => by simp [Unifies, den, subst] at hu)
  | tCon c =>
    cases b with
    | tMetaVar mv => exact absurd rfl (hb mv)
    | tCon d => exact .inr (.inr (hclash rfl rfl))
    | _ => exact .inr (.inr fun θ hu => by simp [Unifies, den, subst] at hu)
  | tAp f x =>
    cases b with
    | tMetaVar mv => exact absurd rfl (hb mv)
    | tVar w => exact .inr (.inr fun θ hu => by simp [Unifies, den, subst] at hu)
    | tCon d => exact .inr (.inr fun θ hu => by simp [Unifies, den, subst] at hu)
    | tAp g y =>
      refine .inr (.inr ?_)
      have h' := h
      unfold ceq2Parts at h'
      split at h'
      · next heqa heqb => exact hclash heqa heqb
      · cases h'
    | tArrow s3 s4 =>
      by_cases hhead : ∃ c, (fromTAp (tAp f x)).1 = tCon c
      · obtain ⟨c, hc⟩ := hhead
        have heqa : fromTAp (tAp f x) = (tCon c, (fromTAp (tAp f x)).2) := by rw [← hc]
        exact .inr (.inr (hclash heqa rfl))
      · exact .inr (.inl ⟨⟨⟨f, x, rfl⟩, fun c hc => hhead ⟨c, hc⟩⟩, s3, s4, rfl⟩)
  | tArrow s1 s2 =>
    cases b with
    | tMetaVar mv => exact absurd rfl (hb mv)
    | tVar w => exact .inr (.inr fun θ hu => by simp [Unifies, den, subst] at hu)
    | tCon d => exact .inr (.inr (hclash rfl rfl))
    | tAp g y => exact absurd ⟨s1, s2, rfl, .inr ⟨g, y, rfl⟩⟩ harr
    | tArrow s3 s4 => exact absurd ⟨s1, s2, rfl, .inl ⟨s3, s4, rfl⟩⟩ harr

theorem mgu_clash {a b : Ty} (h : parts a b = none) (ha : ∀ mv, a ≠ tMetaVar mv)
    (hb : ∀ mv, b ≠ tMetaVar mv) (happ : ∀ f x g y, ¬ (a = tAp f x ∧ b = tAp g y))
    (hv : ∀ v, ¬ (a = tVar v ∧ b = tVar v)) (u : Ty → Ty → Tc Unit) (n : ℕ) :
    mgu u n a b = unificationError n a b := by
  cases a with
  | tMetaVar mv => exact absurd rfl (ha mv)
  | tVar v =>
    cases b with
    | tMetaVar mv => exact absurd rfl (hb mv)
    | tVar w =>
      have hne : v ≠ w := fun he => hv v ⟨rfl, by rw [he]⟩
      simp only [mgu, if_neg hne]
    | _ => rfl
  | tCon c =>
    cases b with
    | tMetaVar mv => exact absurd rfl (hb mv)
    | tCon d =>
      have hne : c ≠ d := by
        rintro rfl
        simp [parts, ceq2Parts, fromTAp, fromTApGo] at h
      simp only [mgu, if_neg hne]
    | _ => rfl
  | tAp f x =>
    cases b with
    | tMetaVar mv => exact absurd rfl (hb mv)
    | tAp g y => exact absurd ⟨rfl, rfl⟩ (happ f x g y)
    | _ => rfl
  | tArrow s1 s2 =>
    cases b with
    | tMetaVar mv => exact absurd rfl (hb mv)
    | tArrow s3 s4 => cases h
    | _ => rfl

theorem evals_self {t : Ty} (h : Evaluated s t) : Evals s t t := by
  cases t with
  | tMetaVar mv => exact evals_unbound h
  | tAp f x =>
    have happ : evalArrowApp (tAp f x) = tAp f x := by
      unfold evalArrowApp
      split
      · next heq =>
        cases heq
        exact if_neg h
      · rfl
    refine .bind (.of_succ (.const fun _ => rfl)) (.const fun _ => ?_)
    rw [happ]
    rfl
  | _ => exact .bind (.of_succ (.const fun _ => rfl)) (.const fun _ => rfl)

theorem meq_unify {a b : Ty} (ha : isTau a = true) (hb : isTau b = true) (hm : ∀ mv, b ≠ tMetaVar mv)
    (n : ℕ) : meq n a b = (do
      unify n a b
      return false) := by
  unfold meq
  cases b with
  | tMetaVar mv => exact absurd rfl (hm mv)
  | _ => simp only [ha, hb, Bool.and_self, if_true]

theorem unify_mgu {a b : Ty} (ha : Evaluated s a) (hb : Evaluated s b) {r : Except TcError (Unit × TcState)}
    (h : Settles (fun n => mgu (unify n) n a b) s r) : Settles (fun n => unify n a b) s r :=
  .of_succ (.bind (evals_self ha) (.bind (evals_self hb) h))

/-- A pair of structures that `bm` does not take apart is an error. -/
theorem bm_clash (hs : Proper s) {a b : Ty} (hfa : Fits s.uniq a) (hfb : Fits s.uniq b)
    (hea : Evaluated s a) (heb : Evaluated s b) (h : parts a b = none) (ha : ∀ mv, a ≠ tMetaVar mv)
    (hb : ∀ mv, b ≠ tMetaVar mv) (hv : ∀ v, ¬ (a = tVar v ∧ b = tVar v)) :
    ∃ e, Settles (fun n => bm (boxyMatch n) n a b) s (.error e) := by
  have harr : ¬ ArrowClause a b := fun harr => parts_arrowClause harr h
  obtain ⟨e, he⟩ := unificationError_spec (α := Bool) hs hfa hfb
  obtain ⟨e', he'⟩ := unificationError_spec (α := Unit) hs hfa hfb
  have hmgu := mgu_clash h ha hb
  simp only [bm_ceq2 hb harr]
  rw [parts_ceq2 harr] at h
  unfold ceq2Parts at h
  split at h
  · next heqa heqb =>
    split at h
    · cases h
    · next hc =>
      simp only [ceq2, heqa, heqb, if_neg hc]
      exact ⟨e, he⟩
  · next hcon =>
    split at h
    · cases h
    · next happ =>
      have hunify : Settles (fun n => unify n a b) s (.error e') := by
        refine unify_mgu hea heb ?_
        simp only [hmgu (fun f x g y hab => happ f x g y hab.1 hab.2) hv]
        exact he'
      refine ⟨e', ?_⟩
      have hmeq : ∀ n, ceq2 (boxyMatch n) n a b = meq n a b := by
        intro n
        unfold ceq2
        split
        · next heqa heqb => exact (hcon _ _ _ _ heqa heqb).elim
        · split
          · exact (happ _ _ _ _ rfl rfl).elim
          · rfl
      simp only [hmeq, meq_unify hfa.1 hfb.1 hb]
      exact .bind_error hunify

end Jhc.FrontEnd.Tc

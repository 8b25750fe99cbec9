import Jhc.FrontEnd.ListCompMeaning

/-!
# When a translated comprehension is the report's (FrontEnd/Desugar.hs:141-231)
-/

namespace Jhc.ListComp

open Jhc.FrontEnd.Exports (Name)
open Jhc.Lib

namespace Values

variable {Decl Other : Type} (V : Values Decl Other)

/-! ### Patterns that cannot fail -/

theorem andThen_binds {Env : Type} (r : Outcome Env) : r.andThen .binds = r := by
  cases r with
  | diverges => rfl
  | fails => rfl
  | binds ρ => rfl

theorem matchCon_congr (c : Name) (n : ℕ) (x : V.D) {k k' : List V.D → Outcome V.Env}
    (h : ∀ xs, xs.length = n → k xs = k' xs) : V.matchCon c n x k = V.matchCon c n x k' := by
  unfold matchCon
  cases hx : V.uncon c n x with
  | none => rfl
  | some r =>
    cases r with
    | none => rfl
    | some xs => exact h xs (V.uncon_length hx)

theorem matchPat_infix (a b : HsPat) (n : Name) (x : V.D) (ρ : V.Env) :
    V.matchPat (.hsPInfixApp a n b) x ρ = V.matchPat (.hsPApp n [a, b]) x ρ := by
  refine V.matchCon_congr n 2 x fun xs hlen => ?_
  obtain ⟨y, z, rfl⟩ := List.length_eq_two.mp hlen
  have hb : V.matchPats [b] [z] = V.matchPat b z := funext fun σ => andThen_binds _
  exact congrArg (Outcome.andThen (V.matchPat a y ρ)) hb.symm

/-- A pattern matches as what is under its names, signs and parentheses does. -/
theorem matchPat_openPat (p : HsPat) (x : V.D) (ρ : V.Env) :
    ∃ x' ρ', V.matchPat p x ρ = V.matchPat (openPat p) x' ρ' := by
  induction p using openPat.induct generalizing x ρ with
  | case1 p ih => exact ih x ρ
  | case2 p ih => exact ih (V.negate x) ρ
  | case3 n p ih => exact ih x (Function.update ρ n x)
  | case4 p ih => exact ih x ρ
  | case5 a n b => exact ⟨x, ρ, V.matchPat_infix a b n x ρ⟩
  | case6 p h₁ h₂ h₃ h₄ h₅ =>
    rw [openPat.eq_6 p h₁ h₂ h₃ h₄ h₅]
    exact ⟨x, ρ, rfl⟩

theorem matchPat_of_lazy {p : HsPat} (h : isStrictPat p = false) (x : V.D) (ρ : V.Env) :
    ∃ σ, V.matchPat p x ρ = .binds σ := by
  obtain ⟨x', ρ', hopen⟩ := V.matchPat_openPat p x ρ
  rw [hopen]
  unfold isStrictPat at h
  cases hp : openPat p with
  | hsPVar n => exact ⟨_, rfl⟩
  | hsPWildCard => exact ⟨_, rfl⟩
  | hsPIrrPat q => exact ⟨_, rfl⟩
  | _ =>
    rw [hp] at h
    cases h

theorem diverges_ne_fails {Env : Type} : (.diverges : Outcome Env) ≠ .fails := by
  intro h
  cases h

theorem binds_ne_fails {Env : Type} (ρ : Env) : (.binds ρ : Outcome Env) ≠ .fails := by
  intro h
  cases h

theorem andThen_ne_fails {Env : Type} {r : Outcome Env} {k : Env → Outcome Env} (h : r ≠ .fails)
    (hk : ∀ ρ, k ρ ≠ .fails) : r.andThen k ≠ .fails := by
  cases r with
  | diverges => exact diverges_ne_fails
  | fails => exact h
  | binds ρ => exact hk ρ

theorem matchPats_ne_fails {ps : List HsPat} (h : ∀ q ∈ ps, ∀ x ρ, V.matchPat q x ρ ≠ .fails)
    {xs : List V.D} (hlen : xs.length = ps.length) (ρ : V.Env) : V.matchPats ps xs ρ ≠ .fails := by
  induction ps generalizing xs ρ with
  | nil =>
    cases xs with
    | nil => exact binds_ne_fails ρ
    | cons x xs => cases hlen
  | cons p ps ih =>
    cases xs with
    | nil => cases hlen
    | cons x xs =>
      exact andThen_ne_fails (h p List.mem_cons_self x ρ)
        (ih (fun q hq => h q (List.mem_cons_of_mem p hq)) (Nat.succ.inj hlen))

theorem untuple_ne_fails {ps : List HsPat} (h : ∀ q ∈ ps, ∀ x ρ, V.matchPat q x ρ ≠ .fails)
    (x : V.D) (ρ : V.Env) : V.matchPat (.hsPTuple ps) x ρ ≠ .fails := by
  rw [matchPat]
  cases hx : V.untuple ps.length x with
  | none => exact diverges_ne_fails
  | some xs => exact V.matchPats_ne_fails h (V.untuple_length hx) ρ

theorem forall_of_any_attach {ps : List HsPat} (h : (ps.attach.any fun q => isFailablePat q.1) = false) :
    ∀ q ∈ ps, isFailablePat q = false := by
  intro q hq
  rw [List.any_eq_false] at h
  exact Bool.eq_false_iff.mpr (h ⟨q, hq⟩ (List.mem_attach ps ⟨q, hq⟩))

theorem matchPat_ne_fails (p : HsPat) (h : isFailablePat p = false) (x : V.D) (ρ : V.Env) :
    V.matchPat p x ρ ≠ .fails := by
  cases hs : isStrictPat p with
  | false =>
    obtain ⟨σ, hσ⟩ := V.matchPat_of_lazy hs x ρ
    rw [hσ]
    exact binds_ne_fails σ
  | true =>
    obtain ⟨x', ρ', hopen⟩ := V.matchPat_openPat p x ρ
    rw [hopen]
    rw [isFailablePat,hs,Bool.true_and] at h
    split at h
    · rename_i ps hp
      have hsize := sizeOf_of_openPat hp fun _ _ => HsPat.noConfusion
      rw [hp]
      refine V.untuple_ne_fails (fun q hq y σ => ?_) x' ρ'
      have hq' := List.sizeOf_lt_of_mem hq
      have : sizeOf q < sizeOf p := by
        simp only [HsPat.hsPTuple.sizeOf_spec] at hsize
        omega
      exact matchPat_ne_fails q (forall_of_any_attach h q hq) y σ
    · rename_i ps hp
      have hsize := sizeOf_of_openPat hp fun _ _ => HsPat.noConfusion
      rw [hp]
      refine V.untuple_ne_fails (fun q hq y σ => ?_) x' ρ'
      have hq' := List.sizeOf_lt_of_mem hq
      have : sizeOf q < sizeOf p := by
        simp only [HsPat.hsPUnboxedTuple.sizeOf_spec] at hsize
        omega
      exact matchPat_ne_fails q (forall_of_any_attach h q hq) y σ
    · rename_i q hp
      have hsize := sizeOf_of_openPat hp fun _ _ => HsPat.noConfusion
      have : sizeOf q < sizeOf p := by
        simp only [HsPat.hsPBangPat.sizeOf_spec] at hsize
        omega
      rw [hp]
      change (if V.evaluates x' then V.matchPat q x' ρ' else .diverges) ≠ .fails
      split
      · exact matchPat_ne_fails q h x' ρ'
      · exact diverges_ne_fails
    · cases h
termination_by sizeOf p

/-! ### The calls that are made -/

theorem den_hsParen (t : Ty) (e : HsExp Decl Other) (ρ : V.Env) :
    V.den t (hsParen e) ρ = V.den t e ρ := by
  cases e with
  | _ => rfl

/-- A call of a function of two arguments. -/
theorem den_call (t : Ty) (n : Name) (a b : HsExp Decl Other) (ρ : V.Env) :
    V.den t (.hsApp (.hsApp (.hsVar n) a) b) ρ =
      let d := V.ofVal t (V.other (.hsApp (.hsApp (.hsVar n) a) b) ρ)
      if n = v_and then
        V.onBool t d (V.choose .bool (V.den .bool a ρ) (V.den .bool b ρ) (some false))
      else if n = v_map then
        V.onList t d (.map (V.den (.fn .val) a ρ) (V.den .list b ρ))
      else if n = v_concatMap then
        V.onList t d (.bind (V.den .list b ρ) (V.den (.fn .list) a ρ))
      else if n = v_filter then
        V.onList t d (.filter (V.den (.fn .bool) a ρ) (V.den .list b ρ))
      else d := rfl

theorem den_map (F xs : HsExp Decl Other) (ρ : V.Env) :
    V.den .list (app (app (.hsVar v_map) F) xs) ρ =
      .map (V.den (.fn .val) F ρ) (V.den .list xs ρ) := by
  unfold app
  rw [den_call,if_neg (by decide),if_pos rfl]
  rfl

theorem den_concatMap (F xs : HsExp Decl Other) (ρ : V.Env) :
    V.den .list (app (app (.hsVar v_concatMap) F) xs) ρ =
      .bind (V.den .list xs ρ) (V.den (.fn .list) F ρ) := by
  unfold app
  rw [den_call,if_neg (by decide),if_neg (by decide),if_pos rfl]
  rfl

theorem den_do_filter (F xs : HsExp Decl Other) (ρ : V.Env) :
    V.den .list (do_filter F xs) ρ = .filter (V.den (.fn .bool) F ρ) (V.den .list xs ρ) := by
  unfold do_filter app
  rw [den_call,if_neg (by decide),if_neg (by decide),if_neg (by decide),if_pos rfl]
  rfl

theorem den_do_concat (xs : HsExp Decl Other) (ρ : V.Env) :
    V.den .list (do_concat xs) ρ = .bind (V.den .list xs ρ) V.asList := by
  have h : V.den .list (do_concat xs) ρ =
      if v_concat = v_concat then .bind (V.den .list xs ρ) V.asList
      else V.asList (V.other (.hsApp (.hsVar v_concat) xs) ρ) := rfl
  rw [h,if_pos rfl]

theorem den_and (q1 q2 : HsExp Decl Other) (ρ : V.Env) :
    V.den .bool (hsApp (.hsVar v_and) [q1, q2]) ρ =
      V.choose .bool (V.den .bool q1 ρ) (V.den .bool q2 ρ) (some false) := by
  have h : hsApp (.hsVar v_and) [q1, q2] =
      hsParen (.hsApp (.hsApp (.hsVar v_and) (hsParen q1)) (hsParen q2)) := rfl
  rw [h,den_hsParen,den_call,if_pos rfl,den_hsParen,den_hsParen]
  rfl

theorem den_lambda_var (t : Ty) (v : Name) (e : HsExp Decl Other) (ρ : V.Env) :
    V.den (.fn t) (.hsLambda [.hsPVar v] e) ρ = fun x => V.den t e (Function.update ρ v x) := rfl

/-- Mapping the identity is left out. -/
theorem den_do_map (F xs : HsExp Decl Other) (ρ : V.Env) :
    V.den .list (do_map F xs) ρ = .map (V.den (.fn .val) F ρ) (V.den .list xs ρ) := by
  unfold do_map
  split
  · rename_i v v'
    split
    · rename_i hv
      have hid : V.den (.fn .val) (.hsLambda [.hsPVar v] (.hsVar v')) ρ = fun x => x := by
        rw [den_lambda_var,← hv]
        funext x
        exact Function.update_self v x ρ
      rw [hid]
      exact (Approximations.map_id _).symm
    · exact V.den_map _ xs ρ
  · exact V.den_map F xs ρ

/-- The elements that a condition keeps. -/
theorem den_keep (v : Name) (cond : HsExp Decl Other) (ρ : V.Env) (x : V.D) :
    V.den .list (.hsIf cond (.hsList [.hsVar v]) (.hsList [])) (Function.update ρ v x) =
      .const (((V.den .bool cond (Function.update ρ v x)).map
        fun b => bif b then .single x else .nil).getD .bot) := by
  have hif : V.den .list (.hsIf cond (.hsList [.hsVar v]) (.hsList [])) (Function.update ρ v x) =
      V.choose .list (V.den .bool cond (Function.update ρ v x))
        (.const (.single (Function.update ρ v x v))) (.const .nil) := rfl
  rw [hif,Function.update_self]
  cases V.den .bool cond (Function.update ρ v x) with
  | none => rfl
  | some b =>
    cases b with
    | true => rfl
    | false => rfl

/-- Filters and the concatenation of the elements are calls of their own. -/
theorem den_do_concatMap (F xs : HsExp Decl Other) (ρ : V.Env) :
    V.den .list (do_concatMap F xs) ρ = .bind (V.den .list xs ρ) (V.den (.fn .list) F ρ) := by
  unfold do_concatMap
  split
  · rename_i v cond v'
    split
    · rename_i hv
      rw [den_do_filter,Approximations.filter_eq_bind,den_lambda_var,den_lambda_var,← hv]
      exact congrArg (Approximations.bind _) (funext fun x => (V.den_keep v cond ρ x).symm)
    · exact V.den_concatMap _ xs ρ
  · rename_i v v'
    split
    · rename_i hv
      rw [den_do_concat,den_lambda_var,← hv]
      refine congrArg (Approximations.bind _) (funext fun x => ?_)
      exact congrArg V.asList (Function.update_self v x ρ).symm
    · exact V.den_concatMap _ xs ρ
  · exact V.den_concatMap F xs ρ

/-! ### The generators -/

/-- The lists after a match. -/
def matched (r : Outcome V.Env) (k : V.Env → Approximations V.D) : Approximations V.D :=
  match r with
  | .diverges => .const .bot
  | .fails => .const .nil
  | .binds σ => k σ

theorem denAlt_eq (t : Ty) (p : HsPat) (rhs : HsRhs Decl Other) (ds : List Decl) (x : V.D)
    (ρ : V.Env) (rest : V.Den t) :
    V.denAlt t (.mk p rhs ds) x ρ rest =
      match V.matchPat p x ρ with
      | .diverges => V.undefined t
      | .fails => rest
      | .binds σ => V.denRhs t rhs (V.declare ds σ) rest := rfl

theorem den_kase (pat : HsPat) (e : HsExp Decl Other) (ρ : V.Env) :
    V.den (.fn .list) (kase pat (.hsUnGuardedRhs e)) ρ =
      fun x => V.matched (V.matchPat pat x ρ) (V.den .list e) := by
  funext x
  have hk : V.den (.fn .list) (kase pat (.hsUnGuardedRhs e)) ρ x =
      V.denAlt .list (.mk pat (.hsUnGuardedRhs e) []) x ρ
        (V.den .list (.hsList []) (V.declare [] ρ)) := rfl
  rw [hk,denAlt_eq]
  cases V.matchPat pat x ρ with
  | diverges => rfl
  | fails => rfl
  | binds σ => exact congrArg (V.den .list e) (V.declare_nil σ)

/-- A guard that does not hold gives the empty list, as a condition does. -/
theorem den_kase_guarded (pat : HsPat) (q e : HsExp Decl Other) (ρ : V.Env) :
    V.den (.fn .list) (kase pat (guardedBy q e)) ρ =
      fun x => V.matched (V.matchPat pat x ρ) fun σ =>
        V.choose .list (V.den .bool q σ) (V.den .list e σ) (.const .nil) := by
  funext x
  have hk : V.den (.fn .list) (kase pat (guardedBy q e)) ρ x =
      V.denAlt .list (.mk pat (guardedBy q e) []) x ρ
        (V.den .list (.hsList []) (V.declare [] ρ)) := rfl
  rw [hk,denAlt_eq]
  cases V.matchPat pat x ρ with
  | diverges => rfl
  | fails => rfl
  | binds σ =>
    change V.denRhs .list (guardedBy q e) (V.declare [] σ) _ = V.choose .list (V.den .bool q σ) _ _
    rw [V.declare_nil]
    have hguards : V.denGuards [.hsQualifier q] σ = V.denGuard (.hsQualifier q) σ := andThen_binds _
    simp only [guardedBy, denRhs, denComps, denComp, hguards, denGuard]
    cases V.den .bool q σ with
    | none => rfl
    | some b =>
      cases b with
      | true => rfl
      | false => rfl

end Values

end Jhc.ListComp

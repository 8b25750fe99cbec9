import Jhc.E.PrimOptFolds

/-!
# Folding against the C operations (Cmm/OpEval.hs:75-202, E/PrimOpt.hs:70-130)

The folds of an operator whose operands are not both literals are right, and those of two
literals when the literals are written as they should be.
-/

namespace Jhc.E
open Jhc.Cmm Jhc.C PExp

/-! ### The folds -/

section folds

variable {g : Target} {op : BinOp} {t₁ t₂ tr : Ty} {e₁ e₂ : PExp}

theorem toConstant_some {e : PExp} {n : Number} {t : Ty} (h : toConstant e = some (n, t)) : e = litInt n t := by
  cases e <;> cases h
  rfl

theorem hasType_lit {n : Number} {t ty : Ty} {w : ℕ} (h : HasType g (litInt n t) ty) (hw : g.width ty = some w) :
    t = ty ∧ ∃ k : ℤ, n = k ∧ -2 ^ (w - 1) ≤ k ∧ k < 2 ^ w := by
  obtain ⟨rfl, k, w', hn, hw', hrange⟩ := h
  rw [hw] at hw'
  cases hw'
  exact ⟨rfl, k, hn, hrange⟩

/-- A fold is right unless it is one of two literals that are not written as they
should be. -/
theorem sound_of_foldOk (h : OpTyped g op t₁ t₂ tr) (he₁ : HasType g e₁ t₁) (he₂ : HasType g e₂ t₂)
    (hok : FoldOk g op t₁ e₁ e₂) : Sound g op t₁ t₂ tr e₁ e₂ := by
  intro e' hfold w' hw'
  obtain ⟨w, hw⟩ := Option.isSome_iff_exists.1 h.left
  obtain ⟨w₂, hw₂⟩ := Option.isSome_iff_exists.1 h.right
  unfold binOp at hfold
  split at hfold
  · next v₁ s₁ v₂ s₂ hc₁ hc₂ =>
    obtain rfl := toConstant_some hc₁
    obtain rfl := toConstant_some hc₂
    obtain ⟨rfl, a, rfl, _, ha⟩ := hasType_lit he₁ hw
    obtain ⟨rfl, b, rfl, _, hb⟩ := hasType_lit he₂ hw₂
    by_cases hshift : isShift op = true
    · cases op <;> first | (cases hfold; done) | (cases hshift; done)
    · have hsame := h.same (Bool.eq_false_iff.2 hshift)
      rw [hsame, hw] at hw₂
      cases hw₂
      exact sound_constants h hw ha hb (hok a b _ _ w rfl rfl hw) hfold hw'
  · next v₂ s₂ hc₁ hc₂ =>
    obtain rfl := toConstant_some hc₂
    obtain ⟨rfl, b, rfl, _, _⟩ := hasType_lit he₂ hw₂
    split at hfold
    · next op' hop =>
      cases hfold
      exact sound_commute h hop w'
    · next hcomm => exact sound_right h hcomm hfold hw'
  · next v₁ s₁ hc₁ hc₂ =>
    obtain rfl := toConstant_some hc₁
    obtain ⟨rfl, a, rfl, _, _⟩ := hasType_lit he₁ hw
    exact sound_left h hw hfold hw'
  · cases hs : (if equalsExpression e₁ e₂ then foldSame op e₁ tr else none) with
    | some e'' =>
      rw [hs] at hfold
      cases hfold
      split at hs
      · next hsame =>
        have heq : e₁ = e₂ := by simpa [equalsExpression] using hsame
        subst heq
        exact sound_same h hw hs hw'
      · cases hs
    | none =>
      rw [hs] at hfold
      exact sound_reassociate h hw he₁ hfold hw'

theorem unSound (op : UnOp) (hw : (g.width t₁).isSome) (he₁ : HasType g e₁ t₁) : UnSound g op t₁ t₁ e₁ := by
  intro e' hfold w' hw'
  obtain ⟨w, hw⟩ := Option.isSome_iff_exists.1 hw
  have hsame : w' = w := result_width hw rfl hw'
  subst hsame
  intro env r hr
  unfold unOp at hfold
  split at hfold
  · next v s hc =>
    obtain rfl := toConstant_some hc
    obtain ⟨rfl, a, rfl, _, _⟩ := hasType_lit he₁ hw
    cases hfold
    simp only [eval, toInteger_intCast, Option.bind_eq_bind, Option.bind_some, evalUnOp, hw] at hr
    split at hr
    · cases hr
    · cases hr
      refine ⟨-a, ?_, (readC_word true w' a).symm.neg⟩
      have hneg : (litInt ((-a : ℤ) : ℚ) s).eval g env = some (-a) := eval_lit (-a) s
      rw [Int.cast_neg] at hneg
      exact hneg
  · next v s hc =>
    obtain rfl := toConstant_some hc
    obtain ⟨rfl, a, rfl, _, _⟩ := hasType_lit he₁ hw
    simp [eval, toInteger_intCast, evalUnOp, hw] at hr
  · next v s hc =>
    obtain rfl := toConstant_some hc
    obtain ⟨rfl, a, rfl, _, _⟩ := hasType_lit he₁ hw
    simp [eval, toInteger_intCast, evalUnOp, hw] at hr
  · cases hfold

/-! ### Literals for which a fold is wrong -/

/-- Two literals whose fold is the number `k`, where C computes another word. -/
theorem not_sound_lit {w w' : ℕ} (h : OpTyped g op t₁ t₂ tr) (hw : g.width t₁ = some w) (hshift : isShift op = false)
    (hw' : typeWidth g tr = some w') {a b k r : ℤ} {signed : Bool} {o : COperator}
    (hop : primBinOp op = some (signed, o))
    (hfold : foldConstants op (a : ℚ) (b : ℚ) tr = some (litInt (k : ℚ) tr))
    (hr : o.eval w (readC signed w a) (readC signed w b) = some r) (hne : ¬ SameWord w' k r) :
    ¬ Sound g op t₁ t₂ tr (litInt (a : ℚ) t₁) (litInt (b : ℚ) t₂) := by
  intro hsound
  have hw₂ : g.width t₂ = some w := by rw [h.same hshift, hw]
  have heval : (binPrim op t₁ t₂ tr (litInt (a : ℚ) t₁) (litInt (b : ℚ) t₂) tr).eval g (fun _ => 0) = some r := by
    rw [eval_binPrim]
    exact ⟨a, b, eval_lit a t₁, eval_lit b t₂, by rw [evalBinOp_eq hw hw₂ hop, hr]⟩
  obtain ⟨r', hr', hword⟩ := hsound _ hfold w' hw' _ r heval
  rw [eval_lit] at hr'
  cases hr'
  exact hne hword

/-- Two literals whose fold is the wrong truth value. -/
theorem not_sound_bool {w : ℕ} (h : OpTyped g op t₁ t₂ tr) (hw : g.width t₁ = some w) (hshift : isShift op = false)
    (htr : tr = .tyBool) {a b : ℤ} {c : Bool} {signed : Bool} {o : COperator}
    (hop : primBinOp op = some (signed, o))
    (hfold : foldConstants op (a : ℚ) (b : ℚ) tr = some (Expression.toBool c : PExp))
    (hr : o.eval w (readC signed w a) (readC signed w b) = some (if c then 0 else 1)) :
    ¬ Sound g op t₁ t₂ tr (litInt (a : ℚ) t₁) (litInt (b : ℚ) t₂) := by
  subst htr
  cases c with
  | true =>
    have hlit : (Expression.toBool true : PExp) = litInt ((1 : ℤ) : ℚ) .tyBool := by rw [Int.cast_one]; rfl
    rw [hlit] at hfold
    exact not_sound_lit h hw hshift rfl hop hfold hr (by unfold SameWord; decide)
  | false =>
    have hlit : (Expression.toBool false : PExp) = litInt ((0 : ℤ) : ℚ) .tyBool := by rw [Int.cast_zero]; rfl
    rw [hlit] at hfold
    exact not_sound_lit h hw hshift rfl hop hfold hr (by unfold SameWord; decide)

theorem lits_typed {w : ℕ} (hw : g.width t₁ = some w) {a : ℤ} (ha : -2 ^ (w - 1) ≤ a ∧ a < 2 ^ w) :
    HasType g (litInt (a : ℚ) t₁) t₁ :=
  ⟨rfl, a, w, rfl, hw, ha⟩

section literals

variable {w : ℕ} (hw : 2 ≤ w)
include hw

theorem four_le_pow : (4 : ℤ) ≤ 2 ^ w := by
  have hpow : (2 : ℕ) ^ 2 ≤ 2 ^ w := Nat.pow_le_pow_right (by decide) hw
  exact_mod_cast hpow

/-- The largest unsigned number is read as `-1` by a signed type. -/
theorem readC_true_max : readC true w (2 ^ w - 1) = -1 := by
  have hfour := four_le_pow hw
  have hword : SameWord w (2 ^ w - 1) (-1) := by
    unfold SameWord
    rw [sub_eq_add_neg, add_comm, Int.add_emod_right]
  rw [readC_congr true hword]
  unfold readC
  rw [if_pos rfl]
  apply Int.bmod_eq_of_le
  · push_cast
    omega
  · push_cast
    omega

theorem readC_false_neg : readC false w (-1) = 2 ^ w - 1 := by
  have hfour := four_le_pow hw
  have hword : SameWord w (-1) (2 ^ w - 1) := by
    unfold SameWord
    rw [sub_eq_add_neg, add_comm, Int.add_emod_right]
  rw [readC_congr false hword]
  exact readC_of_range (by omega) (by omega)

theorem not_sameWord {x y : ℤ} (hx : -1 ≤ x) (hx' : x ≤ 1) (hy : -1 ≤ y) (hy' : y ≤ 1) (h : x ≠ y) :
    ¬ SameWord w x y := by
  intro hword
  have hfour := four_le_pow hw
  have hdvd := Int.ModEq.dvd hword
  obtain ⟨m, hm⟩ := hdvd
  have hm₀ : m = 0 := by nlinarith
  rw [hm₀] at hm
  omega

end literals

/-- For each operator that reads its literals there are two literals whose fold is wrong. -/
theorem exists_not_sound (h : OpTyped g op t₁ t₂ tr) (hop : readsLiterals op = true) :
    ∃ e₁ e₂, HasType g e₁ t₁ ∧ HasType g e₂ t₂ ∧ ¬ Sound g op t₁ t₂ tr e₁ e₂ := by
  obtain ⟨w, hw⟩ := Option.isSome_iff_exists.1 h.left
  have htwo := Target.two_le_width hw
  have hfour := four_le_pow htwo
  have hhalf : (1 : ℤ) ≤ 2 ^ (w - 1) := by
    exact_mod_cast Nat.one_le_two_pow
  have hshift : isShift op = false := by
    cases op <;> first | rfl | cases hop
  have hw₂ : g.width t₂ = some w := by rw [h.same hshift, hw]
  have hmax := readC_true_max htwo
  have hneg := readC_false_neg htwo
  have hone : ∀ signed, readC signed w 1 = 1 := fun signed => readC_one signed htwo
  have hmaxOk : -2 ^ (w - 1) ≤ (2 ^ w - 1 : ℤ) ∧ (2 ^ w - 1 : ℤ) < 2 ^ w := ⟨by omega, by omega⟩
  have honeOk : -2 ^ (w - 1) ≤ (1 : ℤ) ∧ (1 : ℤ) < 2 ^ w := ⟨by omega, by omega⟩
  have hzeroOk : -2 ^ (w - 1) ≤ (0 : ℤ) ∧ (0 : ℤ) < 2 ^ w := ⟨by omega, by omega⟩
  have hnegOk : -2 ^ (w - 1) ≤ (-1 : ℤ) ∧ (-1 : ℤ) < 2 ^ w := ⟨by omega, by omega⟩
  have hdivision : ∀ (f : ℤ → ℤ → ℤ) (a b : ℤ), b ≠ 0 →
      foldDivision f (a : ℚ) (b : ℚ) tr = some (litInt (f a b : ℤ) tr) := by
    intro f a b hb
    have hb' : (b : ℚ) ≠ 0 := by exact_mod_cast hb
    unfold foldDivision
    rw [if_neg hb']
    simp only [Number.integral, toInteger_intCast, Option.bind_eq_bind, Option.bind_some, Option.map_some]
    rfl
  have hdiv : (1 : ℤ).tdiv (2 ^ w - 1) = 0 := Int.tdiv_eq_zero_of_lt (by omega) (by omega)
  have hmod : (1 : ℤ).tmod (2 ^ w - 1) = 1 := Int.tmod_eq_of_lt (by omega) (by omega)
  have hword : tr = t₁ → typeWidth g tr = some w := fun htr => htr ▸ typeWidth_of_width hw
  have hcast : (((2 ^ w - 1 : ℤ)) : ℚ) = 2 ^ w - 1 := by push_cast; rfl
  have hlarge : (0 : ℚ) < (2 ^ w - 1 : ℤ) := by
    have hpos : (0 : ℤ) < 2 ^ w - 1 := by omega
    exact_mod_cast hpos
  have hzero : ∀ signed, readC signed w 0 = 0 := fun signed => readC_zero signed w
  cases op with
  | quot =>
    refine ⟨_, _, lits_typed hw honeOk, lits_typed hw₂ hmaxOk, ?_⟩
    apply not_sound_lit h hw rfl (hword h.result) rfl (hdivision Int.tdiv 1 (2 ^ w - 1) (by omega))
      (r := -1) _ (by rw [hdiv]; exact not_sameWord htwo (by omega) (by omega) (by omega) (by omega) (by omega))
    rw [hone, hmax]
    simp only [COperator.eval]
    rw [if_neg (by omega)]
    rfl
  | rem =>
    refine ⟨_, _, lits_typed hw honeOk, lits_typed hw₂ hmaxOk, ?_⟩
    apply not_sound_lit h hw rfl (hword h.result) rfl (hdivision Int.tmod 1 (2 ^ w - 1) (by omega))
      (r := 0) _ (by rw [hmod]; exact not_sameWord htwo (by omega) (by omega) (by omega) (by omega) (by omega))
    rw [hone, hmax]
    simp only [COperator.eval]
    rw [if_neg (by omega)]
    rfl
  | uDiv =>
    refine ⟨_, _, lits_typed hw honeOk, lits_typed hw₂ hnegOk, ?_⟩
    apply not_sound_lit h hw rfl (hword h.result) rfl (hdivision Int.fdiv 1 (-1) (by omega))
      (r := 0) _ (not_sameWord htwo (by decide) (by decide) (by decide) (by decide) (by decide))
    rw [hone, hneg]
    simp only [COperator.eval]
    rw [if_neg (by omega), hdiv]
  | uMod =>
    refine ⟨_, _, lits_typed hw honeOk, lits_typed hw₂ hnegOk, ?_⟩
    apply not_sound_lit h hw rfl (hword h.result) rfl (hdivision Int.fmod 1 (-1) (by omega))
      (r := 1) _ (not_sameWord htwo (by decide) (by decide) (by decide) (by decide) (by decide))
    rw [hone, hneg]
    simp only [COperator.eval]
    rw [if_neg (by omega), hmod]
  | eq =>
    refine ⟨_, _, lits_typed hw hnegOk, lits_typed hw₂ hmaxOk, ?_⟩
    apply not_sound_bool h hw rfl h.result rfl (c := false)
    · have hne : ((-1 : ℤ) : ℚ) ≠ (2 ^ w - 1 : ℤ) := by
        rw [Ne, Int.cast_inj]
        omega
      simp only [foldConstants, hne, decide_false]
    · rw [hneg, readC_of_range (by omega) (by omega)]
      simp [COperator.eval]
  | nEq =>
    refine ⟨_, _, lits_typed hw hnegOk, lits_typed hw₂ hmaxOk, ?_⟩
    apply not_sound_bool h hw rfl h.result rfl (c := true)
    · have hne : ((-1 : ℤ) : ℚ) ≠ (2 ^ w - 1 : ℤ) := by
        rw [Ne, Int.cast_inj]
        omega
      simp only [foldConstants, ne_eq, hne, not_false_eq_true, decide_true]
    · rw [hneg, readC_of_range (by omega) (by omega)]
      simp [COperator.eval]
  | lt =>
    refine ⟨_, _, lits_typed hw hmaxOk, lits_typed hw₂ hzeroOk, ?_⟩
    apply not_sound_bool h hw rfl h.result rfl (c := false)
    · rw [Int.cast_zero]
      simp only [foldConstants, not_lt.2 hlarge.le, decide_false]
    · rw [hmax, hzero]
      simp [COperator.eval]
  | gt =>
    refine ⟨_, _, lits_typed hw hmaxOk, lits_typed hw₂ hzeroOk, ?_⟩
    apply not_sound_bool h hw rfl h.result rfl (c := true)
    · rw [Int.cast_zero]
      simp only [foldConstants, gt_iff_lt, hlarge, decide_true]
    · rw [hmax, hzero]
      simp [COperator.eval]
  | lte =>
    refine ⟨_, _, lits_typed hw hmaxOk, lits_typed hw₂ hzeroOk, ?_⟩
    apply not_sound_bool h hw rfl h.result rfl (c := false)
    · rw [Int.cast_zero]
      simp only [foldConstants, not_le.2 hlarge, decide_false]
    · rw [hmax, hzero]
      simp [COperator.eval]
  | gte =>
    refine ⟨_, _, lits_typed hw hmaxOk, lits_typed hw₂ hzeroOk, ?_⟩
    apply not_sound_bool h hw rfl h.result rfl (c := true)
    · rw [Int.cast_zero]
      simp only [foldConstants, ge_iff_le, hlarge.le, decide_true]
    · rw [hmax, hzero]
      simp [COperator.eval]
  | _ => cases hop

theorem foldOk_of_not_reads (hop : readsLiterals op = false) : FoldOk g op t₁ e₁ e₂ := by
  intro a b ta tb w _ _ _
  cases op <;> first | exact trivial | cases hop

theorem two_le_bits64 : 2 ≤ 64 := by decide

def linux64 : Target := ⟨64, 64, two_le_bits64, two_le_bits64⟩

def bits8 : Ty := .tyBits (.bits 8) .hintNone

theorem lt_bits8_typed : OpTyped linux64 .lt bits8 bits8 .tyBool := ⟨rfl, rfl, fun _ => rfl, rfl⟩

end folds

end Jhc.E

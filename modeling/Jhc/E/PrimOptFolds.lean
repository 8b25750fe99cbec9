import Jhc.E.PrimOpt

/-!
# The folds one by one (Cmm/OpEval.hs:75-180)

Each kind of fold of `binOp`: of two literals, with a literal on one side, of an operand
with itself, of nested operators.
-/

namespace Jhc.E
open Jhc.Cmm Jhc.C PExp

/-! ### Two literals -/

section constants

variable {g : Target} {op : BinOp} {t₁ t₂ tr : Ty} {w : ℕ} {a b : ℤ}

theorem refines_literals {ta tb : Ty} {e' : PExp} {w' : ℕ}
    (h : ∀ env r, evalBinOp g op t₁ t₂ a b = some r → ∃ r', e'.eval g env = some r' ∧ SameWord w' r' r) :
    Refines g w' (binPrim op t₁ t₂ tr (litInt a ta) (litInt b tb) tr) e' := by
  intro env r hr
  obtain ⟨a', b', ha, hb, hr⟩ := eval_binPrim.1 hr
  rw [eval_lit] at ha hb
  cases ha
  cases hb
  exact h env r hr

/-- A fold to a literal that is the number that C computes, up to the word. -/
theorem refines_lit {ta tb : Ty} {w' : ℕ} {k : ℤ}
    (h : ∀ r, evalBinOp g op t₁ t₂ a b = some r → SameWord w' k r) :
    Refines g w' (binPrim op t₁ t₂ tr (litInt a ta) (litInt b tb) tr) (litInt k tr) :=
  refines_literals fun _ r hr => ⟨k, eval_lit k tr, h r hr⟩

theorem refines_toBool {ta tb : Ty} {w' : ℕ} {c : Bool}
    (h : ∀ r, evalBinOp g op t₁ t₂ a b = some r → r = if c then 1 else 0) :
    Refines g w' (binPrim op t₁ t₂ tr (litInt a ta) (litInt b tb) tr) (Expression.toBool c) :=
  refines_literals fun _ r hr => ⟨_, eval_toBool c, by rw [h r hr]; rfl⟩

theorem foldDivision_int {f : ℤ → ℤ → ℤ} {e' : PExp} (h : foldDivision f (a : ℚ) (b : ℚ) tr = some e') :
    b ≠ 0 ∧ e' = litInt (f a b : ℤ) tr := by
  unfold foldDivision at h
  split at h
  · cases h
  · next hb =>
    simp only [Number.integral, toInteger_intCast, Option.bind_eq_bind, Option.bind_some, Option.map_some,
      Option.some.injEq] at h
    exact ⟨by simpa using hb, h.symm⟩

theorem div_eq_of_nonneg (ha : 0 ≤ a) (hb : 0 ≤ b) : a.fdiv b = a.tdiv b := by
  rw [Int.fdiv_eq_ediv_of_nonneg a hb, Int.tdiv_eq_ediv_of_nonneg ha]

theorem mod_eq_of_nonneg (ha : 0 ≤ a) (hb : 0 ≤ b) : a.fmod b = a.tmod b := by
  rw [Int.fmod_eq_emod_of_nonneg a hb, Int.tmod_eq_emod_of_nonneg ha]

theorem eval_div_some {x y r : ℤ} (h : COperator.div.eval w x y = some r) : r = x.tdiv y := by
  simp only [COperator.eval] at h
  split at h
  · cases h
  · cases h
    rfl

theorem eval_mod_some {x y r : ℤ} (h : COperator.mod.eval w x y = some r) : r = x.tmod y := by
  simp only [COperator.eval] at h
  split at h
  · cases h
  · cases h
    rfl

theorem readC_nonneg (w : ℕ) (a : ℤ) : 0 ≤ readC false w a :=
  Int.emod_nonneg a (by positivity)

/-- A word that is written as an unsigned number is read as it is written. -/
theorem readC_of_range (h₀ : 0 ≤ a) (h : a < 2 ^ w) : readC false w a = a :=
  Int.emod_eq_of_lt h₀ h

theorem unsigned_fold {c : Bool} {e' : PExp}
    (h : (if 0 ≤ (a : ℚ) ∧ 0 ≤ (b : ℚ) then some (Expression.toBool c : PExp) else none) = some e') :
    (0 ≤ a ∧ 0 ≤ b) ∧ e' = Expression.toBool c := by
  split at h
  · next hab =>
    cases h
    exact ⟨⟨by exact_mod_cast hab.1, by exact_mod_cast hab.2⟩, rfl⟩
  · cases h

theorem toBool_compare {r : ℤ} {p q : Prop} [Decidable p] [Decidable q] (hpq : p ↔ q)
    (h : some (if q then (1 : ℤ) else 0) = some r) : r = if decide p then 1 else 0 := by
  cases h
  by_cases hq : q
  · have hp := hpq.2 hq
    simp [hp, hq]
  · have hp : ¬ p := fun hp => hq (hpq.1 hp)
    simp [hp, hq]

/-- The fold of two literals that are written as they should be. -/
theorem sound_constants (h : OpTyped g op t₁ t₂ tr) (hw : g.width t₁ = some w) (ha : a < 2 ^ w) (hb : b < 2 ^ w)
    (hok : LiteralsOk op w a b) {ta tb : Ty} {e' : PExp}
    (hfold : foldConstants op (a : ℚ) (b : ℚ) tr = some e') {w' : ℕ} (hw' : typeWidth g tr = some w') :
    Refines g w' (binPrim op t₁ t₂ tr (litInt a ta) (litInt b tb) tr) e' := by
  have hvac : primBinOp op = none → Refines g w' (binPrim op t₁ t₂ tr (litInt a ta) (litInt b tb) tr) e' := by
    intro hnone
    apply refines_literals
    intro env r hr
    rw [evalBinOp_none hnone] at hr
    cases hr
  have hword : tr = t₁ → w' = w := by
    intro htr
    rw [htr, typeWidth_of_width hw] at hw'
    exact (Option.some.inj hw').symm
  have heval : ∀ {signed o}, isShift op = false → primBinOp op = some (signed, o) → ∀ {r},
      evalBinOp g op t₁ t₂ a b = some r → o.eval w (readC signed w a) (readC signed w b) = some r := by
    intro signed o hshift hop r hr
    have hw₂ : g.width t₂ = some w := by rw [h.same hshift, hw]
    rwa [evalBinOp_eq hw hw₂ hop] at hr
  cases op with
  | add =>
    rw [hword h.result]
    cases hfold
    rw [← Int.cast_add]
    apply refines_lit
    intro r hr
    cases heval rfl rfl hr
    exact ((readC_word _ _ _).add (readC_word _ _ _)).symm
  | sub =>
    rw [hword h.result]
    cases hfold
    rw [← Int.cast_sub]
    apply refines_lit
    intro r hr
    cases heval rfl rfl hr
    exact ((readC_word _ _ _).sub (readC_word _ _ _)).symm
  | mul =>
    rw [hword h.result]
    cases hfold
    rw [← Int.cast_mul]
    apply refines_lit
    intro r hr
    cases heval rfl rfl hr
    exact ((readC_word _ _ _).mul (readC_word _ _ _)).symm
  | quot =>
    obtain ⟨_, rfl⟩ := foldDivision_int hfold
    apply refines_lit
    intro r hr
    rw [eval_div_some (heval rfl rfl hr), hok.1, hok.2]
    exact sameWord_rfl
  | rem =>
    obtain ⟨_, rfl⟩ := foldDivision_int hfold
    apply refines_lit
    intro r hr
    rw [eval_mod_some (heval rfl rfl hr), hok.1, hok.2]
    exact sameWord_rfl
  | uDiv =>
    obtain ⟨_, rfl⟩ := foldDivision_int hfold
    have ha₀ : 0 ≤ a := hok.1 ▸ readC_nonneg w a
    have hb₀ : 0 ≤ b := hok.2 ▸ readC_nonneg w b
    apply refines_lit
    intro r hr
    rw [eval_div_some (heval rfl rfl hr), hok.1, hok.2, div_eq_of_nonneg ha₀ hb₀]
    exact sameWord_rfl
  | uMod =>
    obtain ⟨_, rfl⟩ := foldDivision_int hfold
    have ha₀ : 0 ≤ a := hok.1 ▸ readC_nonneg w a
    have hb₀ : 0 ≤ b := hok.2 ▸ readC_nonneg w b
    apply refines_lit
    intro r hr
    rw [eval_mod_some (heval rfl rfl hr), hok.1, hok.2, mod_eq_of_nonneg ha₀ hb₀]
    exact sameWord_rfl
  | lt =>
    cases hfold
    apply refines_toBool
    intro r hr
    apply toBool_compare _ (heval rfl rfl hr)
    have hsame : readC true w a - a = readC true w b - b := hok
    rw [Int.cast_lt]
    omega
  | gt =>
    cases hfold
    apply refines_toBool
    intro r hr
    apply toBool_compare _ (heval rfl rfl hr)
    have hsame : readC true w a - a = readC true w b - b := hok
    rw [gt_iff_lt, Int.cast_lt]
    omega
  | lte =>
    cases hfold
    apply refines_toBool
    intro r hr
    apply toBool_compare _ (heval rfl rfl hr)
    have hsame : readC true w a - a = readC true w b - b := hok
    rw [Int.cast_le]
    omega
  | gte =>
    cases hfold
    apply refines_toBool
    intro r hr
    apply toBool_compare _ (heval rfl rfl hr)
    have hsame : readC true w a - a = readC true w b - b := hok
    rw [ge_iff_le, Int.cast_le]
    omega
  | eq =>
    cases hfold
    apply refines_toBool
    intro r hr
    apply toBool_compare _ (heval rfl rfl hr)
    rw [Int.cast_inj]
    exact ⟨fun heq => by rw [heq], hok⟩
  | nEq =>
    cases hfold
    apply refines_toBool
    intro r hr
    apply toBool_compare _ (heval rfl rfl hr)
    rw [Ne, Int.cast_inj]
    exact not_congr ⟨fun heq => by rw [heq], hok⟩
  | uLt =>
    obtain ⟨⟨ha₀, hb₀⟩, rfl⟩ := unsigned_fold hfold
    apply refines_toBool
    intro r hr
    apply toBool_compare _ (heval rfl rfl hr)
    rw [readC_of_range ha₀ ha, readC_of_range hb₀ hb, Int.cast_lt]
  | uGt =>
    obtain ⟨⟨ha₀, hb₀⟩, rfl⟩ := unsigned_fold hfold
    apply refines_toBool
    intro r hr
    apply toBool_compare _ (heval rfl rfl hr)
    rw [readC_of_range ha₀ ha, readC_of_range hb₀ hb, gt_iff_lt, Int.cast_lt]
  | uLte =>
    obtain ⟨⟨ha₀, hb₀⟩, rfl⟩ := unsigned_fold hfold
    apply refines_toBool
    intro r hr
    apply toBool_compare _ (heval rfl rfl hr)
    rw [readC_of_range ha₀ ha, readC_of_range hb₀ hb, Int.cast_le]
  | uGte =>
    obtain ⟨⟨ha₀, hb₀⟩, rfl⟩ := unsigned_fold hfold
    apply refines_toBool
    intro r hr
    apply toBool_compare _ (heval rfl rfl hr)
    rw [readC_of_range ha₀ ha, readC_of_range hb₀ hb, ge_iff_le, Int.cast_le]
  | _ => first | exact hvac rfl | cases hfold

end constants

/-! ### One literal, or none -/

section identities

variable {g : Target} {op : BinOp} {t₁ t₂ tr : Ty} {e₁ e₂ : PExp} {w : ℕ}

theorem refines_of_eval {e' : PExp} {w' : ℕ}
    (h : ∀ env a b r, e₁.eval g env = some a → e₂.eval g env = some b → evalBinOp g op t₁ t₂ a b = some r →
      ∃ r', e'.eval g env = some r' ∧ SameWord w' r' r) :
    Refines g w' (binPrim op t₁ t₂ tr e₁ e₂ tr) e' := by
  intro env r hr
  obtain ⟨a, b, ha, hb, hr⟩ := eval_binPrim.1 hr
  exact h env a b r ha hb hr

/-- The operators that `commuteBinOp` exchanges have C operators that do the same on
exchanged operands. -/
theorem commute_operator {op' : BinOp} (h : commuteBinOp op = some op') :
    (primBinOp op = none ∧ primBinOp op' = none) ∨ ∃ signed o o', primBinOp op = some (signed, o) ∧
      primBinOp op' = some (signed, o') ∧ ∀ w x y, COperator.eval w x y o = COperator.eval w y x o' := by
  have hadd : ∀ w x y, COperator.eval w x y .add = COperator.eval w y x .add := fun _ x y =>
    congrArg some (add_comm x y)
  have hmul : ∀ w x y, COperator.eval w x y .mul = COperator.eval w y x .mul := fun _ x y =>
    congrArg some (mul_comm x y)
  have hand : ∀ w x y, COperator.eval w x y .and = COperator.eval w y x .and := fun w x y =>
    congrArg (fun v => some (BitVec.toInt v)) (BitVec.and_comm (BitVec.ofInt w x) (BitVec.ofInt w y))
  have hor : ∀ w x y, COperator.eval w x y .or = COperator.eval w y x .or := fun w x y =>
    congrArg (fun v => some (BitVec.toInt v)) (BitVec.or_comm (BitVec.ofInt w x) (BitVec.ofInt w y))
  have hxor : ∀ w x y, COperator.eval w x y .xor = COperator.eval w y x .xor := fun w x y =>
    congrArg (fun v => some (BitVec.toInt v)) (BitVec.xor_comm (BitVec.ofInt w x) (BitVec.ofInt w y))
  have heq : ∀ w x y, COperator.eval w x y .eq = COperator.eval w y x .eq := fun _ x y => by
    simp only [COperator.eval, eq_comm]
  have hne : ∀ w x y, COperator.eval w x y .ne = COperator.eval w y x .ne := fun _ x y => by
    simp only [COperator.eval, ne_comm]
  cases op with
  | add => cases h; exact .inr ⟨_, _, _, rfl, rfl, hadd⟩
  | mul => cases h; exact .inr ⟨_, _, _, rfl, rfl, hmul⟩
  | and => cases h; exact .inr ⟨_, _, _, rfl, rfl, hand⟩
  | or => cases h; exact .inr ⟨_, _, _, rfl, rfl, hor⟩
  | xor => cases h; exact .inr ⟨_, _, _, rfl, rfl, hxor⟩
  | eq => cases h; exact .inr ⟨_, _, _, rfl, rfl, heq⟩
  | nEq => cases h; exact .inr ⟨_, _, _, rfl, rfl, hne⟩
  | gt => cases h; exact .inr ⟨_, _, _, rfl, rfl, fun _ _ _ => rfl⟩
  | gte => cases h; exact .inr ⟨_, _, _, rfl, rfl, fun _ _ _ => rfl⟩
  | lt => cases h; exact .inr ⟨_, _, _, rfl, rfl, fun _ _ _ => rfl⟩
  | lte => cases h; exact .inr ⟨_, _, _, rfl, rfl, fun _ _ _ => rfl⟩
  | uGt => cases h; exact .inr ⟨_, _, _, rfl, rfl, fun _ _ _ => rfl⟩
  | uGte => cases h; exact .inr ⟨_, _, _, rfl, rfl, fun _ _ _ => rfl⟩
  | uLt => cases h; exact .inr ⟨_, _, _, rfl, rfl, fun _ _ _ => rfl⟩
  | uLte => cases h; exact .inr ⟨_, _, _, rfl, rfl, fun _ _ _ => rfl⟩
  | _ => first | (cases h; exact .inl ⟨rfl, rfl⟩) | cases h

theorem commute_eval {op' : BinOp} (h : commuteBinOp op = some op') (a b : ℤ) :
    evalBinOp g op t₁ t₁ a b = evalBinOp g op' t₁ t₁ b a := by
  obtain ⟨hop, hop'⟩ | ⟨signed, o, o', hop, hop', hflip⟩ := commute_operator h
  · rw [evalBinOp_none hop, evalBinOp_none hop']
  · cases hw : g.width t₁ with
    | none => simp [evalBinOp, hop, hop', hw]
    | some w => rw [evalBinOp_eq hw hw hop, evalBinOp_eq hw hw hop', hflip]

theorem commute_shift {op' : BinOp} (h : commuteBinOp op = some op') : isShift op = false := by
  cases op <;> cases h <;> rfl

theorem sound_commute (h : OpTyped g op t₁ t₂ tr) {op' : BinOp} (hop : commuteBinOp op = some op') (w' : ℕ) :
    Refines g w' (binPrim op t₁ t₂ tr e₁ e₂ tr) (binPrim op' t₂ t₁ tr e₂ e₁ tr) := by
  obtain rfl : t₂ = t₁ := h.same (commute_shift hop)
  apply refines_of_eval
  intro env a b r ha hb hr
  rw [commute_eval hop] at hr
  exact ⟨r, eval_binPrim.2 ⟨b, a, hb, ha, hr⟩, sameWord_rfl⟩

theorem readC_zero (signed : Bool) (w : ℕ) : readC signed w 0 = 0 := by
  cases signed <;> simp [readC]

theorem readC_one (signed : Bool) {w : ℕ} (h : 2 ≤ w) : readC signed w 1 = 1 := by
  have hpow : (2 : ℕ) ^ 2 ≤ 2 ^ w := Nat.pow_le_pow_right (by decide) h
  have hmod : (1 : ℤ) % ((2 ^ w : ℕ) : ℤ) = 1 := Int.emod_eq_of_lt (by decide) (by omega)
  cases signed with
  | false =>
    unfold readC
    push_cast at hmod
    exact hmod
  | true =>
    unfold readC Int.bmod
    rw [if_pos rfl, hmod, if_pos (by omega)]

/-- What C computes, by the numbers that it reads. -/
theorem eval_some (h : OpTyped g op t₁ t₂ tr) {signed : Bool} {o : COperator} (hop : primBinOp op = some (signed, o))
    {a b r : ℤ} (hr : evalBinOp g op t₁ t₂ a b = some r) :
    ∃ w₁ w₂, g.width t₁ = some w₁ ∧ g.width t₂ = some w₂ ∧
      o.eval w₁ (readC signed w₁ a) (readC signed w₂ b) = some r := by
  obtain ⟨w₁, hw₁⟩ := Option.isSome_iff_exists.1 h.left
  obtain ⟨w₂, hw₂⟩ := Option.isSome_iff_exists.1 h.right
  rw [evalBinOp_eq hw₁ hw₂ hop] at hr
  exact ⟨w₁, w₂, hw₁, hw₂, hr⟩

theorem eval_shr_zero {w : ℕ} {x r : ℤ} (h : COperator.shr.eval w x 0 = some r) : r = x := by
  simp only [COperator.eval] at h
  split at h
  · cases h
    simp
  · cases h

theorem eval_shl_zero {w : ℕ} {x r : ℤ} (h : COperator.shl.eval w x 0 = some r) : r = x := by
  simp only [COperator.eval] at h
  split at h
  · cases h
    simp
  · cases h

/-- The fold of an operator with a literal `0` or `1` on the right. -/
theorem sound_right (h : OpTyped g op t₁ t₂ tr) (hcomm : commuteBinOp op = none) {k : ℤ} {tb : Ty} {e' : PExp}
    (hfold : foldRight op e₁ (k : ℚ) tr = some e') {w' : ℕ} (hw' : typeWidth g tr = some w') :
    Refines g w' (binPrim op t₁ t₂ tr e₁ (litInt k tb) tr) e' := by
  have hvac : primBinOp op = none → Refines g w' (binPrim op t₁ t₂ tr e₁ (litInt k tb) tr) e' := by
    intro hnone
    apply refines_of_eval
    intro env a b r _ _ hr
    rw [evalBinOp_none hnone] at hr
    cases hr
  -- the result is the left operand
  have hleft : e' = e₁ → tr = t₁ → (∀ signed o, primBinOp op = some (signed, o) → ∀ w₁ w₂ x r, 2 ≤ w₂ →
      o.eval w₁ x (readC signed w₂ k) = some r → r = x) → primBinOp op ≠ none →
      Refines g w' (binPrim op t₁ t₂ tr e₁ (litInt k tb) tr) e' := by
    intro he htr hid hsome
    obtain ⟨⟨signed, o⟩, hop⟩ := Option.ne_none_iff_exists'.1 hsome
    apply refines_of_eval
    intro env a b r ha hb hr
    rw [eval_lit] at hb
    cases hb
    obtain ⟨w₁, w₂, hw₁, hw₂, hr⟩ := eval_some h hop hr
    have hw : w' = w₁ := by
      rw [htr, typeWidth_of_width hw₁] at hw'
      exact (Option.some.inj hw').symm
    rw [hid signed o hop w₁ w₂ _ r (Target.two_le_width hw₂) hr, he, hw]
    exact ⟨a, ha, (readC_word _ _ _).symm⟩
  -- the result is zero
  have hzero : e' = litInt 0 tr → (∀ signed o, primBinOp op = some (signed, o) → ∀ w₁ w₂ x r, 2 ≤ w₂ →
      o.eval w₁ x (readC signed w₂ k) = some r → r = 0) → primBinOp op ≠ none →
      Refines g w' (binPrim op t₁ t₂ tr e₁ (litInt k tb) tr) e' := by
    intro he hid hsome
    obtain ⟨⟨signed, o⟩, hop⟩ := Option.ne_none_iff_exists'.1 hsome
    apply refines_of_eval
    intro env a b r ha hb hr
    rw [eval_lit] at hb
    cases hb
    obtain ⟨w₁, w₂, _, hw₂, hr⟩ := eval_some h hop hr
    rw [hid signed o hop w₁ w₂ _ r (Target.two_le_width hw₂) hr, he]
    exact ⟨0, eval_zero tr, sameWord_rfl⟩
  unfold foldRight at hfold
  split at hfold
  · next hk =>
    have hk : k = 0 := by exact_mod_cast hk
    subst hk
    cases op with
    | shr =>
      cases hfold
      apply hleft rfl h.result _ (by decide)
      intro signed o hop w₁ w₂ x r _ hr
      cases hop
      rw [readC_zero] at hr
      exact eval_shr_zero hr
    | shra =>
      cases hfold
      apply hleft rfl h.result _ (by decide)
      intro signed o hop w₁ w₂ x r _ hr
      cases hop
      rw [readC_zero] at hr
      exact eval_shr_zero hr
    | shl =>
      cases hfold
      apply hleft rfl h.result _ (by decide)
      intro signed o hop w₁ w₂ x r _ hr
      cases hop
      rw [readC_zero] at hr
      exact eval_shl_zero hr
    | sub =>
      cases hfold
      apply hleft rfl h.result _ (by decide)
      intro signed o hop w₁ w₂ x r _ hr
      cases hop
      rw [readC_zero] at hr
      simp only [COperator.eval, Option.some.injEq] at hr
      omega
    | _ => first | exact hvac rfl | cases hfold
  · split at hfold
    · next hk =>
      have hk : k = 1 := by exact_mod_cast hk
      subst hk
      cases op with
      | uDiv =>
        cases hfold
        apply hleft rfl h.result _ (by decide)
        intro signed o hop w₁ w₂ x r hw₂ hr
        cases hop
        rw [readC_one _ hw₂] at hr
        rw [eval_div_some hr, Int.tdiv_one]
      | quot =>
        cases hfold
        apply hleft rfl h.result _ (by decide)
        intro signed o hop w₁ w₂ x r hw₂ hr
        cases hop
        rw [readC_one _ hw₂] at hr
        rw [eval_div_some hr, Int.tdiv_one]
      | uMod =>
        cases hfold
        apply hzero rfl _ (by decide)
        intro signed o hop w₁ w₂ x r hw₂ hr
        cases hop
        rw [readC_one _ hw₂] at hr
        rw [eval_mod_some hr, Int.tmod_one]
      | rem =>
        cases hfold
        apply hzero rfl _ (by decide)
        intro signed o hop w₁ w₂ x r hw₂ hr
        cases hop
        rw [readC_one _ hw₂] at hr
        rw [eval_mod_some hr, Int.tmod_one]
      | mul => cases hcomm
      | fMul => cases hcomm
      | _ => first | exact hvac rfl | cases hfold
    · cases hfold

/-- `caseEquals`, with literals for the two results. -/
theorem eval_caseEquals {k : ℤ} {t : Ty} {c d : Bool} {env : ℕ → ℤ} {v : ℤ} (hw : typeWidth g t = some w)
    (hv : e₂.eval g env = some v) :
    (caseEquals e₂ ((k : ℚ), t) (Expression.toBool c) (Expression.toBool d) : PExp).eval g env =
      some (if (v % 2 ^ w = k % 2 ^ w) then (if c then 1 else 0) else (if d then 1 else 0)) := by
  change (eCase e₂ (k : ℚ) t (Expression.toBool c) (Expression.toBool d)).eval g env = _
  simp only [eval, hv, hw, toInteger_intCast, Option.bind_eq_bind, Option.bind_some, eval_toBool]
  split <;> rfl

theorem ofInt_zero (w : ℕ) : BitVec.ofInt w 0 = 0#w := by
  simp

theorem word_case {w : ℕ} {p q : Prop} [Decidable p] [Decidable q] (h : q ↔ p) :
    SameWord w (if p then if true = true then 1 else 0 else if false = true then 1 else 0) (if q then 1 else 0) := by
  simp only [h, if_true, Bool.false_eq_true, if_false]
  exact sameWord_rfl

theorem word_case_not {w : ℕ} {p q : Prop} [Decidable p] [Decidable q] (h : q ↔ ¬ p) :
    SameWord w (if p then if false = true then 1 else 0 else if true = true then 1 else 0) (if q then 1 else 0) := by
  simp only [h, ite_not, if_true, Bool.false_eq_true, if_false]
  exact sameWord_rfl

/-- The value of the right operand decides what the operator computes. -/
theorem refines_left (h : OpTyped g op t₁ t₂ tr) (hw : g.width t₁ = some w) {k : ℤ} {e' : PExp} {w' : ℕ}
    {signed : Bool} {o : COperator} (hshift : isShift op = false) (hop : primBinOp op = some (signed, o))
    (hstep : ∀ env b r, e₂.eval g env = some b → o.eval w (readC signed w k) (readC signed w b) = some r →
      ∃ r', e'.eval g env = some r' ∧ SameWord w' r' r) :
    Refines g w' (binPrim op t₁ t₂ tr (litInt k t₁) e₂ tr) e' := by
  apply refines_of_eval
  intro env a b r ha hb hr
  rw [eval_lit] at ha
  cases ha
  have hw₂ : g.width t₂ = some w := by rw [h.same hshift, hw]
  rw [evalBinOp_eq hw hw₂ hop] at hr
  exact hstep env b r hb hr

/-- A shift of zero is zero. -/
theorem refines_left_shift (h : OpTyped g op t₁ t₂ tr) {w' : ℕ} {signed : Bool} {o : COperator}
    (hop : primBinOp op = some (signed, o)) (hid : ∀ w y r, o.eval w 0 y = some r → r = 0) :
    Refines g w' (binPrim op t₁ t₂ tr (litInt (0 : ℤ) t₁) e₂ tr) (litInt 0 tr) := by
  apply refines_of_eval
  intro env a b r ha hb hr
  rw [eval_lit] at ha
  cases ha
  obtain ⟨w₁, w₂, _, _, hr⟩ := eval_some h hop hr
  rw [readC_zero] at hr
  rw [hid _ _ r hr]
  exact ⟨0, eval_zero tr, sameWord_rfl⟩

theorem eval_zero_shr (w : ℕ) (y r : ℤ) (h : COperator.shr.eval w 0 y = some r) : r = 0 := by
  simp only [COperator.eval, Int.zero_ediv] at h
  split at h
  · cases h
    rfl
  · cases h

theorem eval_zero_shl (w : ℕ) (y r : ℤ) (h : COperator.shl.eval w 0 y = some r) : r = 0 := by
  simp only [COperator.eval, zero_mul] at h
  split at h
  · cases h
    rfl
  · cases h

theorem refines_vacuous (hop : primBinOp op = none) {e' : PExp} {w' : ℕ} :
    Refines g w' (binPrim op t₁ t₂ tr e₁ e₂ tr) e' := by
  apply refines_of_eval
  intro env a b r _ _ hr
  rw [evalBinOp_none hop] at hr
  cases hr

theorem result_width (hw : g.width t₁ = some w) (htr : tr = t₁) {w' : ℕ} (hw' : typeWidth g tr = some w') :
    w' = w := by
  rw [htr, typeWidth_of_width hw] at hw'
  exact (Option.some.inj hw').symm

theorem sound_leftZero (h : OpTyped g op t₁ t₂ tr) (hw : g.width t₁ = some w) {e' : PExp}
    (hfold : foldLeftZero op t₁ e₂ tr = some e') {w' : ℕ} (hw' : typeWidth g tr = some w') :
    Refines g w' (binPrim op t₁ t₂ tr (litInt (0 : ℤ) t₁) e₂ tr) e' := by
  have hwidth := typeWidth_of_width hw
  cases op with
  | shr =>
    cases hfold
    exact refines_left_shift h rfl eval_zero_shr
  | shra =>
    cases hfold
    exact refines_left_shift h rfl eval_zero_shr
  | shl =>
    cases hfold
    exact refines_left_shift h rfl eval_zero_shl
  | and =>
    cases hfold
    apply refines_left h hw rfl rfl
    intro env b r _ hr
    simp only [readC_zero, COperator.eval, ofInt_zero, BitVec.zero_and, BitVec.toInt_zero, Option.some.injEq] at hr
    exact ⟨0, eval_zero tr, by rw [hr]; exact sameWord_rfl⟩
  | or =>
    cases hfold
    rw [result_width hw h.result hw']
    apply refines_left h hw rfl rfl
    intro env b r hb hr
    simp only [readC_zero, COperator.eval, ofInt_zero, BitVec.zero_or, ofInt_readC, Option.some.injEq] at hr
    exact ⟨b, hb, by rw [← hr]; exact (toInt_ofInt_word w b).symm⟩
  | xor =>
    cases hfold
    rw [result_width hw h.result hw']
    apply refines_left h hw rfl rfl
    intro env b r hb hr
    simp only [readC_zero, COperator.eval, ofInt_zero, BitVec.zero_xor, ofInt_readC, Option.some.injEq] at hr
    exact ⟨b, hb, by rw [← hr]; exact (toInt_ofInt_word w b).symm⟩
  | add =>
    cases hfold
    rw [result_width hw h.result hw']
    apply refines_left h hw rfl rfl
    intro env b r hb hr
    simp only [readC_zero, COperator.eval, zero_add, Option.some.injEq] at hr
    exact ⟨b, hb, by rw [← hr]; exact (readC_word _ _ _).symm⟩
  | mul =>
    cases hfold
    apply refines_left h hw rfl rfl
    intro env b r _ hr
    simp only [readC_zero, COperator.eval, zero_mul, Option.some.injEq] at hr
    exact ⟨0, eval_zero tr, by rw [hr]; exact sameWord_rfl⟩
  | uGt =>
    cases hfold
    apply refines_left h hw rfl rfl
    intro env b r _ hr
    have hb := readC_nonneg w b
    rw [readC_zero, COperator.eval, if_neg (by omega)] at hr
    cases hr
    exact ⟨_, eval_toBool false, sameWord_rfl⟩
  | uLte =>
    cases hfold
    apply refines_left h hw rfl rfl
    intro env b r _ hr
    rw [readC_zero, COperator.eval, if_pos (readC_nonneg w b)] at hr
    cases hr
    exact ⟨_, eval_toBool true, sameWord_rfl⟩
  | uGte =>
    cases hfold
    apply refines_left h hw rfl rfl
    intro env b r hb hr
    refine ⟨_, eval_caseEquals (k := 0) hwidth hb, ?_⟩
    rw [readC_zero, COperator.eval] at hr
    cases hr
    have hnonneg := readC_nonneg w b
    have hiff : 0 ≥ readC false w b ↔ b % 2 ^ w = 0 % 2 ^ w := by
      rw [Int.zero_emod]
      exact ⟨fun hle => le_antisymm hle hnonneg, fun heq => le_of_eq heq⟩
    exact word_case hiff
  | uLt =>
    cases hfold
    apply refines_left h hw rfl rfl
    intro env b r hb hr
    refine ⟨_, eval_caseEquals (k := 0) hwidth hb, ?_⟩
    rw [readC_zero, COperator.eval] at hr
    cases hr
    have hnonneg := readC_nonneg w b
    have hiff : 0 < readC false w b ↔ ¬ b % 2 ^ w = 0 % 2 ^ w := by
      rw [Int.zero_emod]
      exact ⟨fun hlt heq => absurd heq (ne_of_gt hlt), fun hne => lt_of_le_of_ne hnonneg (Ne.symm hne)⟩
    exact word_case_not hiff
  | _ => first | exact refines_vacuous rfl | cases hfold

theorem sound_leftOne (h : OpTyped g op t₁ t₂ tr) (hw : g.width t₁ = some w) {e' : PExp}
    (hfold : foldLeftOne op t₁ e₂ = some e') {w' : ℕ} (hw' : typeWidth g tr = some w') :
    Refines g w' (binPrim op t₁ t₂ tr (litInt (1 : ℤ) t₁) e₂ tr) e' := by
  have hone := readC_one false (Target.two_le_width hw)
  cases op with
  | mul =>
    cases hfold
    rw [result_width hw h.result hw']
    apply refines_left h hw rfl rfl
    intro env b r hb hr
    simp only [hone, COperator.eval, one_mul, Option.some.injEq] at hr
    exact ⟨b, hb, by rw [← hr]; exact (readC_word _ _ _).symm⟩
  | uGt =>
    cases hfold
    apply refines_left h hw rfl rfl
    intro env b r hb hr
    refine ⟨_, eval_caseEquals (k := 0) (typeWidth_of_width hw) hb, ?_⟩
    rw [hone, COperator.eval] at hr
    cases hr
    have hnonneg := readC_nonneg w b
    have hiff : 1 > readC false w b ↔ b % 2 ^ w = 0 % 2 ^ w := by
      rw [Int.zero_emod]
      change 1 > readC false w b ↔ readC false w b = 0
      omega
    exact word_case hiff
  | _ => first | exact refines_vacuous rfl | cases hfold

/-- The fold of an operator with a literal on the left. -/
theorem sound_left (h : OpTyped g op t₁ t₂ tr) (hw : g.width t₁ = some w) {k : ℤ} {e' : PExp}
    (hfold : foldLeft op (k : ℚ) t₁ e₂ tr = some e') {w' : ℕ} (hw' : typeWidth g tr = some w') :
    Refines g w' (binPrim op t₁ t₂ tr (litInt k t₁) e₂ tr) e' := by
  unfold foldLeft at hfold
  split at hfold
  · cases hfold
    apply refines_left h hw rfl rfl
    intro env b r hb hr
    cases hr
    refine ⟨_, eval_caseEquals (typeWidth_of_width hw) hb, ?_⟩
    have hiff : readC false w k = readC false w b ↔ b % 2 ^ w = k % 2 ^ w := eq_comm
    exact word_case hiff
  · cases hfold
    apply refines_left h hw rfl rfl
    intro env b r hb hr
    cases hr
    refine ⟨_, eval_caseEquals (typeWidth_of_width hw) hb, ?_⟩
    have hiff : readC false w k ≠ readC false w b ↔ ¬ b % 2 ^ w = k % 2 ^ w := not_congr eq_comm
    exact word_case_not hiff
  · split at hfold
    · next hk =>
      have hk : k = 0 := by exact_mod_cast hk
      subst hk
      exact sound_leftZero h hw hfold hw'
    · split at hfold
      · next hk =>
        have hk : k = 1 := by exact_mod_cast hk
        subst hk
        exact sound_leftOne h hw hfold hw'
      · cases hfold

/-! ### The same operand twice, nested operators -/

theorem sound_same (h : OpTyped g op t₁ t₂ tr) (hw : g.width t₁ = some w) {e' : PExp}
    (hfold : foldSame op e₁ tr = some e') {w' : ℕ} (hw' : typeWidth g tr = some w') :
    Refines g w' (binPrim op t₁ t₂ tr e₁ e₁ tr) e' := by
  -- both operands are read as the same number
  have hread : ∀ {signed o}, isShift op = false → primBinOp op = some (signed, o) →
      (∀ env a r, e₁.eval g env = some a → o.eval w (readC signed w a) (readC signed w a) = some r →
        ∃ r', e'.eval g env = some r' ∧ SameWord w' r' r) →
      Refines g w' (binPrim op t₁ t₂ tr e₁ e₁ tr) e' := by
    intro signed o hshift hop hstep
    apply refines_of_eval
    intro env a b r ha hb hr
    rw [ha] at hb
    cases hb
    have hw₂ : g.width t₂ = some w := by rw [h.same hshift, hw]
    rw [evalBinOp_eq hw hw₂ hop] at hr
    exact hstep env a r ha hr
  have htrue : ∀ {signed o}, isShift op = false → primBinOp op = some (signed, o) →
      e' = Expression.toBool true → (∀ x, o.eval w x x = some 1) →
      Refines g w' (binPrim op t₁ t₂ tr e₁ e₁ tr) e' := by
    intro signed o hshift hop he hone
    apply hread hshift hop
    intro env a r _ hr
    rw [hone] at hr
    cases hr
    rw [he]
    exact ⟨_, eval_toBool true, sameWord_rfl⟩
  have hfalse : ∀ {signed o}, isShift op = false → primBinOp op = some (signed, o) →
      e' = Expression.toBool false → (∀ x, o.eval w x x = some 0) →
      Refines g w' (binPrim op t₁ t₂ tr e₁ e₁ tr) e' := by
    intro signed o hshift hop he hzero
    apply hread hshift hop
    intro env a r _ hr
    rw [hzero] at hr
    cases hr
    rw [he]
    exact ⟨_, eval_toBool false, sameWord_rfl⟩
  cases op with
  | eq => cases hfold; exact htrue rfl rfl rfl fun x => by simp [COperator.eval]
  | nEq => cases hfold; exact hfalse rfl rfl rfl fun x => by simp [COperator.eval]
  | lte => cases hfold; exact htrue rfl rfl rfl fun x => by simp [COperator.eval]
  | gte => cases hfold; exact htrue rfl rfl rfl fun x => by simp [COperator.eval]
  | lt => cases hfold; exact hfalse rfl rfl rfl fun x => by simp [COperator.eval]
  | gt => cases hfold; exact hfalse rfl rfl rfl fun x => by simp [COperator.eval]
  | uLte => cases hfold; exact htrue rfl rfl rfl fun x => by simp [COperator.eval]
  | uGte => cases hfold; exact htrue rfl rfl rfl fun x => by simp [COperator.eval]
  | uLt => cases hfold; exact hfalse rfl rfl rfl fun x => by simp [COperator.eval]
  | uGt => cases hfold; exact hfalse rfl rfl rfl fun x => by simp [COperator.eval]
  | sub =>
    cases hfold
    apply hread rfl rfl
    intro env a r _ hr
    simp only [COperator.eval, sub_self, Option.some.injEq] at hr
    exact ⟨0, eval_zero tr, by rw [hr]; exact sameWord_rfl⟩
  | xor =>
    cases hfold
    apply hread rfl rfl
    intro env a r _ hr
    simp only [COperator.eval, BitVec.xor_self, BitVec.toInt_zero, Option.some.injEq] at hr
    exact ⟨0, eval_zero tr, by rw [hr]; exact sameWord_rfl⟩
  | and =>
    cases hfold
    apply hread rfl rfl
    intro env a r ha hr
    rw [result_width hw h.result hw']
    simp only [COperator.eval, BitVec.and_self, ofInt_readC, Option.some.injEq] at hr
    exact ⟨a, ha, by rw [← hr]; exact (toInt_ofInt_word w a).symm⟩
  | or =>
    cases hfold
    apply hread rfl rfl
    intro env a r ha hr
    rw [result_width hw h.result hw']
    simp only [COperator.eval, BitVec.or_self, ofInt_readC, Option.some.injEq] at hr
    exact ⟨a, ha, by rw [← hr]; exact (toInt_ofInt_word w a).symm⟩
  | _ => first | exact refines_vacuous rfl | cases hfold

/-- An associative operator is one of C on words that is total and associative. -/
theorem assoc_operator (hop : isAssociative op = true) : ∃ o, primBinOp op = some (false, o) ∧
    ∀ w a b c, ∃ ab bc r r', COperator.eval w (readC false w a) (readC false w b) o = some ab ∧
      COperator.eval w (readC false w ab) (readC false w c) o = some r ∧
      COperator.eval w (readC false w b) (readC false w c) o = some bc ∧
      COperator.eval w (readC false w a) (readC false w bc) o = some r' ∧ SameWord w r' r := by
  cases op with
  | add =>
    refine ⟨_, rfl, fun w a b c => ⟨_, _, _, _, rfl, rfl, rfl, rfl, ?_⟩⟩
    have ha := readC_word false w a
    have hb := readC_word false w b
    have hc := readC_word false w c
    have hleft := ((readC_word false w _).trans (ha.add hb)).add hc
    have hright := ha.add ((readC_word false w _).trans (hb.add hc))
    rw [add_assoc] at hleft
    exact hright.trans hleft.symm
  | mul =>
    refine ⟨_, rfl, fun w a b c => ⟨_, _, _, _, rfl, rfl, rfl, rfl, ?_⟩⟩
    have ha := readC_word false w a
    have hb := readC_word false w b
    have hc := readC_word false w c
    have hleft := ((readC_word false w _).trans (ha.mul hb)).mul hc
    have hright := ha.mul ((readC_word false w _).trans (hb.mul hc))
    rw [mul_assoc] at hleft
    exact hright.trans hleft.symm
  | and =>
    refine ⟨_, rfl, fun w a b c => ⟨_, _, _, _, rfl, rfl, rfl, rfl, ?_⟩⟩
    simp only [ofInt_readC, BitVec.ofInt_toInt, BitVec.and_assoc]
    exact sameWord_rfl
  | or =>
    refine ⟨_, rfl, fun w a b c => ⟨_, _, _, _, rfl, rfl, rfl, rfl, ?_⟩⟩
    simp only [ofInt_readC, BitVec.ofInt_toInt, BitVec.or_assoc]
    exact sameWord_rfl
  | xor =>
    refine ⟨_, rfl, fun w a b c => ⟨_, _, _, _, rfl, rfl, rfl, rfl, ?_⟩⟩
    simp only [ofInt_readC, BitVec.ofInt_toInt, BitVec.xor_assoc]
    exact sameWord_rfl
  | _ => cases hop

theorem sound_reassociate (h : OpTyped g op t₁ t₂ tr) (hw : g.width t₁ = some w) (he₁ : HasType g e₁ t₁) {e' : PExp}
    (hfold : reassociate op tr e₁ e₂ tr = some e') {w' : ℕ} (hw' : typeWidth g tr = some w') :
    Refines g w' (binPrim op t₁ t₂ tr e₁ e₂ tr) e' := by
  unfold reassociate at hfold
  split at hfold
  · next bop' s₁ s₂ sr e₁' e₂' str hfrom =>
    split at hfold
    · next hcond =>
      cases hfold
      simp only [Bool.and_eq_true, beq_iff_eq] at hcond
      obtain ⟨hassoc, rfl⟩ := hcond
      have he : e₁ = binPrim op s₁ s₂ sr e₁' e₂' str := by
        cases e₁ <;> cases hfrom
        rfl
      subst he
      obtain ⟨_, hsr, hinner, _⟩ := he₁
      have hnoshift : isShift op = false := by
        cases op <;> first | rfl | cases hassoc
      have hresult : tr = t₁ := by
        rw [h.result]
        cases op <;> first | rfl | cases hassoc
      have hs₁ : s₁ = t₁ := by
        rw [← hsr, hinner.result]
        cases op <;> first | rfl | cases hassoc
      obtain rfl := hs₁
      obtain rfl := hinner.same hnoshift
      obtain rfl := h.same hnoshift
      obtain rfl := hresult
      obtain ⟨o, hop, hlaw⟩ := assoc_operator hassoc
      rw [result_width hw rfl hw']
      intro env r hr
      obtain ⟨ab, c, hab, hc, hr⟩ := eval_binPrim.1 hr
      obtain ⟨a, b, ha, hb, hab⟩ := eval_binPrim.1 hab
      obtain ⟨ab', bc, r₁, r', h₁, h₂, h₃, h₄, hword⟩ := hlaw w a b c
      rw [evalBinOp_eq hw hw hop, h₁] at hab
      cases hab
      rw [evalBinOp_eq hw hw hop, h₂] at hr
      cases hr
      refine ⟨r', ?_, hword⟩
      change (binPrim op tr tr tr e₁' (binPrim op tr tr tr e₂' e₂ tr) tr).eval g env = some r'
      rw [eval_binPrim]
      refine ⟨a, bc, ha, ?_, by rw [evalBinOp_eq hw hw hop, h₄]⟩
      rw [eval_binPrim]
      exact ⟨b, c, hb, hc, by rw [evalBinOp_eq hw hw hop, h₃]⟩
    · cases hfold
  · cases hfold

end identities

end Jhc.E

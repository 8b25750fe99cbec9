import Mathlib.Data.Rat.Cast.Order
import Mathlib.Tactic.Linarith
import Jhc.Cmm.OpEval
import Jhc.C.Casts

/-!
# Folding of conversions in E (E/PrimOpt.hs:70-103)

The expressions of E as far as the clauses for conversions look at them. A type of E stands as the
type that it has for the code generator.
-/

namespace Jhc.E.Conv
open Jhc.Cmm Jhc.C Jhc.C.Casts

/-- `other` is any expression of another form. -/
inductive CExp where
  | litInt (n : Number) (t : Ty)
  | convPrim (cop : ConvOp) (t₁ t₂ : Ty) (e₁ : CExp) (rt : Ty)
  | other (i : ℕ) (t : Ty)
  deriving DecidableEq

namespace CExp

def getType : CExp → Ty
  | litInt _ t => t
  | convPrim _ _ _ _ rt => rt
  | other _ t => t

def primConv (cop : ConvOp) (t₁ t₂ : Ty) (e : CExp) (rt : Ty) : CExp := convPrim cop t₁ t₂ e rt

/-- `primopt` of `primOpt'`, for conversions. -/
def primopt : CExp → Option CExp
  | convPrim cop t₁ t₂ (litInt n _) rt => some (litInt (convNumber cop t₁ t₂ n) rt)
  | convPrim cop t₁ t₂ e₁ rt =>
    match convOp cop t₁ t₂ with
    | none => if e₁.getType = rt then some e₁ else none
    | some cop' => if cop' ≠ cop then some (primConv cop' t₁ t₂ e₁ rt) else none
  | _ => none

end CExp

/-! ### The order of the types -/

section

variable {fl : Floating} {g : Machine}

theorem ofType_int {t : Ty} {w : ℕ} (h : IntWidth g.toTarget t w) {v : CValue fl}
    (hv : OfType g.toTarget t v) : ∃ n, v = .int n ∧ readC (isSigned .hintUnsigned t) w n = n := by
  unfold OfType castTo at hv
  rw [h.tyToC (Or.inl rfl),Option.bind_some] at hv
  cases v with
  | int n =>
    refine ⟨n, rfl, ?_⟩
    injection hv with hv
    injection hv
  | float x =>
    obtain ⟨k, _, hk⟩ := Option.bind_eq_some_iff.mp hv
    split at hk <;> cases hk

theorem bitsWidth_bits {n m : ℕ} (h : bitsWidth g.toTarget (.bits n) = some m) :
    m = n ∧ 8 ≤ n ∧ n ≤ 64 := by
  change (if n = 8 ∨ n = 16 ∨ n = 32 ∨ n = 64 then some n else none) = some m at h
  split at h
  · injection h with h
    omega
  · cases h

theorem bitsWidth_le_max {b : TyBits} {w : ℕ} (h : bitsWidth g.toTarget b = some w) :
    w ≤ g.bitsMax := by
  have hmax := g.max_ge
  have hpm := g.ptr_le_max
  cases b with
  | bits n =>
    have hb := bitsWidth_bits h
    omega
  | bitsArch a =>
    cases a with
    | bitsMax =>
      injection h with h
      omega
    | bitsPtr =>
      injection h with h
      omega
    | bitsUnknown => cases h
  | bitsExt s => cases h

theorem bitsWidth_pos {b : TyBits} {w : ℕ} (h : bitsWidth g.toTarget b = some w) : 8 ≤ w := by
  have hmax := g.max_ge
  have hptr := g.ptr_ge
  cases b with
  | bits n =>
    have hb := bitsWidth_bits h
    omega
  | bitsArch a =>
    cases a with
    | bitsMax =>
      injection h with h
      omega
    | bitsPtr =>
      injection h with h
      omega
    | bitsUnknown => cases h
  | bitsExt s => cases h

/-- The order of two types is the order of their widths. -/
theorem width_le {t t' : Ty} {w w' : ℕ} (h : IntWidth g.toTarget t w)
    (h' : IntWidth g.toTarget t' w') (hle : tyLte t t' = true) : w ≤ w' := by
  have hself : t = t' → w ≤ w' := by
    intro he
    subst he
    exact (h.unique h').le
  obtain ⟨b, k, rfl, _, _, hb⟩ := h
  obtain ⟨b', k', rfl, _, _, hb'⟩ := h'
  cases b' with
  | bitsExt s => cases hb'
  | bits m =>
    cases b with
    | bits n =>
      have hn := bitsWidth_bits hb
      have hm := bitsWidth_bits hb'
      have hnm : n ≤ m := by simpa [tyLte] using hle
      omega
    | bitsArch a => exact hself (by simpa [tyLte] using hle)
    | bitsExt s => cases hb
  | bitsArch a' =>
    cases a' with
    | bitsUnknown => cases hb'
    | bitsMax =>
      injection hb' with hb'
      have hw := bitsWidth_le_max hb
      omega
    | bitsPtr =>
      cases b with
      | bits n =>
        have hn := bitsWidth_bits hb
        have hle : n ≤ 32 := by simpa [tyLte] using hle
        have hptr := g.ptr_ge
        injection hb' with hb'
        omega
      | bitsArch a => exact hself (by simpa [tyLte] using hle)
      | bitsExt s => cases hb

/-! ### convOp and convCombine -/

/-- The conversion of the operator that `convOp` gives; a value stays when it gives none. -/
def chosen (g : Target) (co : Option ConvOp) (t₁ t₂ : Ty) (v : CValue fl) : Option (CValue fl) :=
  match co with
  | none => some v
  | some co => convert g co t₁ t₂ v

theorem convert_self {t : Ty} {v : CValue fl} (co : ConvOp) (hv : OfType g.toTarget t v) :
    convert g.toTarget co t t v = some v := by
  unfold convert castFunc
  rw [if_pos rfl,Option.bind_some]
  exact hv

theorem convert_lobits {t₁ t₂ : Ty} {w₁ w₂ : ℕ} (h₁ : IntWidth g.toTarget t₁ w₁)
    (h₂ : IntWidth g.toTarget t₂ w₂) (hw : w₂ ≤ w₁) (co : ConvOp) (hc : isIntConv co = true) (n : ℤ) :
    convert g.toTarget .lobits t₁ t₂ (.int n : CValue fl) = convert g.toTarget co t₁ t₂ (.int n) := by
  rw [convert_int rfl h₁ h₂,convert_int hc h₁ h₂]
  have hlobits : source .lobits t₁ t₂ w₁ n = n := source_unsigned rfl t₁ t₂ w₁ n
  have hsame : SameWord w₂ (source .lobits t₁ t₂ w₁ n) (source co t₁ t₂ w₁ n) := by
    rw [hlobits]
    exact (SameWord.mono hw (source_word co t₁ t₂ w₁ n)).symm
  rw [readC_congr _ hsame]

theorem chosen_convOp {co : ConvOp} {t₁ t₂ : Ty} {v : CValue fl} (ht : ConvTyped g.toTarget co t₁ t₂)
    (hv : OfType g.toTarget t₁ v) :
    chosen g.toTarget (convOp co t₁ t₂) t₁ t₂ v = convert g.toTarget co t₁ t₂ v := by
  have hsame : t₁ = t₂ → some v = convert g.toTarget co t₁ t₂ v := by
    intro he
    subst he
    exact (convert_self co hv).symm
  have hnarrow : isIntConv co = true → IsInt g.toTarget t₁ → IsInt g.toTarget t₂ →
      tyLte t₂ t₁ = true →
      convert g.toTarget .lobits t₁ t₂ v = convert g.toTarget co t₁ t₂ v := by
    intro hc h₁ h₂ hle
    obtain ⟨w₁, hw₁⟩ := isInt_iff.mp h₁
    obtain ⟨w₂, hw₂⟩ := isInt_iff.mp h₂
    obtain ⟨n, rfl, _⟩ := ofType_int hw₁ hv
    exact convert_lobits hw₁ hw₂ (width_le hw₂ hw₁ hle) co hc n
  have hother : convOp co t₁ t₂ = (if t₁ = t₂ then none else some co) →
      chosen g.toTarget (convOp co t₁ t₂) t₁ t₂ v = convert g.toTarget co t₁ t₂ v := by
    intro he
    rw [he]
    split
    · rename_i he
      exact hsame he
    · rfl
  cases co with
  | u2U =>
    change chosen _ (if t₁ = t₂ then none else if tyLte t₂ t₁ then some .lobits
      else if tyLte t₁ t₂ then some .zx else some .u2U) _ _ _ = _
    split
    · rename_i he
      exact hsame he
    · split
      · rename_i hle
        exact hnarrow rfl ht.1 ht.2 hle
      · split <;> rfl
  | i2I =>
    change chosen _ (if t₁ = t₂ then none else if tyLte t₂ t₁ then some .lobits
      else if tyLte t₁ t₂ then some .sx else some .i2I) _ _ _ = _
    split
    · rename_i he
      exact hsame he
    · split
      · rename_i hle
        exact hnarrow rfl ht.1 ht.2 hle
      · split <;> rfl
  | f2I => rfl
  | f2U => rfl
  | u2F => rfl
  | i2F => rfl
  | f2F => exact hother rfl
  | lobits => exact hother rfl
  | sx => exact hother rfl
  | zx => exact hother rfl
  | b2B => exact hother rfl

/-- Two conversions of integers, the second one at the width of the first. -/
theorem convert_twice {co : ConvOp} {t₁ t₂ t₃ : Ty} {w₁ w : ℕ} (hc : isIntConv co = true)
    (h₁ : IntWidth g.toTarget t₁ w₁) (h₂ : IntWidth g.toTarget t₂ w)
    (h₃ : IntWidth g.toTarget t₃ w) (n : ℤ) :
    (convert g.toTarget co t₁ t₂ (.int n : CValue fl)).bind (convert g.toTarget co t₂ t₃) =
      convert g.toTarget co t₁ t₃ (.int n) := by
  rw [convert_int hc h₁ h₂,Option.bind_some,convert_int hc h₂ h₃,convert_int hc h₁ h₃]
  have hinner : SameWord w (source co t₁ t₂ w₁ n) (source co t₁ t₃ w₁ n) := by
    cases hr : readsSigned co with
    | false =>
      rw [source_unsigned hr,source_unsigned hr]
      exact sameWord_rfl
    | true =>
      by_cases he₂ : t₁ = t₂
      · rw [he₂] at h₁ ⊢
        rw [source_self,h₁.unique h₂]
        exact (source_word co t₂ t₃ w n).symm
      · by_cases he₃ : t₁ = t₃
        · rw [he₃] at h₁ ⊢
          rw [source_self,h₁.unique h₃]
          exact source_word co t₃ t₂ w n
        · rw [source_signed hr he₂,source_signed hr he₃]
          exact sameWord_rfl
  have hword := ((source_word co t₂ t₃ w _).trans (readC_word (isSigned .hintUnsigned t₂) w _)).trans hinner
  rw [readC_congr _ hword]

theorem tyEq_float {t₂ t₃ : Ty} (h₂ : IsFloat g.toTarget t₂) (h₃ : IsFloat g.toTarget t₃)
    (he : tyEq t₂ t₃ = true) : t₂ = t₃ := by
  have hfloat : ∀ {t}, IsFloat g.toTarget t → ∃ n, t = .tyBits (.bits n) .hintFloat := by
    intro t ht
    obtain ⟨w, ht⟩ := ht
    cases t with
    | tyBits b h =>
      cases b with
      | bits n =>
        refine ⟨n, ?_⟩
        cases h <;> simp_all [tyToC]
      | _ => cases h <;> simp_all [tyToC,floatWidth]
    | _ => cases ht
  obtain ⟨n, rfl⟩ := hfloat h₂
  obtain ⟨m, rfl⟩ := hfloat h₃
  have hnm : n ≤ m ∧ m ≤ n := by simpa [tyEq,tyLte] using he
  rw [Nat.le_antisymm hnm.1 hnm.2]

/-- What a cast to a floating type gives stays under a second cast to it. -/
theorem castTo_float {t : Ty} (h : IsFloat g.toTarget t) {v r : CValue fl}
    (hr : castTo g.toTarget .hintUnsigned t v = some r) : OfType g.toTarget t r := by
  obtain ⟨w, ht⟩ := h
  unfold OfType
  unfold castTo at hr ⊢
  rw [ht,Option.bind_some] at hr ⊢
  cases v with
  | int n =>
    injection hr with hr
    rw [← hr]
    exact congrArg (fun x => some (CValue.float x)) (fl.toWidth_ofNumber w n)
  | float x =>
    injection hr with hr
    rw [← hr]
    exact congrArg (fun x => some (CValue.float x)) (fl.toWidth_toWidth w x)

theorem convert_combine {t₁ t₂ t₃ : Ty} {c₁ c₂ c : ConvOp} {v : CValue fl}
    (ht₁ : ConvTyped g.toTarget c₁ t₁ t₂) (ht₂ : ConvTyped g.toTarget c₂ t₂ t₃)
    (hv : OfType g.toTarget t₁ v) (hc : convCombine t₁ c₁ t₂ c₂ t₃ = some c) :
    (convert g.toTarget c₁ t₁ t₂ v).bind (convert g.toTarget c₂ t₂ t₃) =
      convert g.toTarget c t₁ t₃ v := by
  unfold convCombine at hc
  split at hc
  · cases hc
  · rename_i hfloat
    split at hc
    · rename_i he
      rw [Bool.and_eq_true,decide_eq_true_eq] at he
      injection hc with hc
      obtain ⟨he, rfl⟩ := he
      subst hc
      have hint : isIntConv c₁ = true → IsInt g.toTarget t₁ → IsInt g.toTarget t₂ →
          IsInt g.toTarget t₃ →
          (convert g.toTarget c₁ t₁ t₂ v).bind (convert g.toTarget c₁ t₂ t₃) =
            convert g.toTarget c₁ t₁ t₃ v := by
        intro hcon h₁ h₂ h₃
        obtain ⟨w₁, hw₁⟩ := isInt_iff.mp h₁
        obtain ⟨w₂, hw₂⟩ := isInt_iff.mp h₂
        obtain ⟨w₃, hw₃⟩ := isInt_iff.mp h₃
        obtain ⟨n, rfl, _⟩ := ofType_int hw₁ hv
        unfold tyEq at he
        rw [Bool.and_eq_true] at he
        have hw := Nat.le_antisymm (width_le hw₂ hw₃ he.1) (width_le hw₃ hw₂ he.2)
        subst hw
        exact convert_twice hcon hw₁ hw₂ hw₃ n
      cases c₁ with
      | f2I => exact absurd rfl hfloat
      | f2U => exact absurd rfl hfloat
      | u2F => exact absurd rfl hfloat
      | i2F => exact absurd rfl hfloat
      | f2F =>
        have heq := tyEq_float ht₁.2 ht₂.2 he
        subst heq
        cases hr : convert g.toTarget .f2F t₁ t₂ v with
        | none => rfl
        | some r =>
          obtain ⟨x, _, hx⟩ := Option.bind_eq_some_iff.mp hr
          rw [Option.bind_some]
          exact convert_self .f2F (castTo_float ht₁.2 hx)
      | lobits => exact hint rfl ht₁.1 ht₁.2 ht₂.2
      | sx => exact hint rfl ht₁.1 ht₁.2 ht₂.2
      | zx => exact hint rfl ht₁.1 ht₁.2 ht₂.2
      | i2I => exact hint rfl ht₁.1 ht₁.2 ht₂.2
      | u2U => exact hint rfl ht₁.1 ht₁.2 ht₂.2
      | b2B => exact hint rfl ht₁.1 ht₁.2 ht₂.2
    · cases hc

end

/-! ### Conversions of literals -/

/-- The numbers that a type of the width `w` has, signed or unsigned. -/
def InWidth (w : ℕ) (k : ℤ) : Prop := -2 ^ (w - 1) ≤ k ∧ k < 2 ^ w

instance (w : ℕ) (k : ℤ) : Decidable (InWidth w k) :=
  inferInstanceAs (Decidable (-2 ^ (w - 1) ≤ k ∧ k < 2 ^ w))

/-- A literal of an integer type is written as a signed or as an unsigned number. -/
def IsLiteral (g : Target) (t : Ty) (n : Number) : Prop :=
  match tyToC g .hintUnsigned t with
  | some (.int _ w) => ∃ k : ℤ, n = k ∧ InWidth w k
  | some (.float _) => True
  | _ => False

/-- Where C converts the literal, the fold gives the literal of the converted value. -/
def FoldRight (fl : Floating) (g : Target) (co : ConvOp) (t₁ t₂ : Ty) (n : Number) : Prop :=
  ∀ v r : CValue fl, litValue g t₁ n = some v → convert g co t₁ t₂ v = some r →
    ∃ n', CExp.primopt (.convPrim co t₁ t₂ (.litInt n t₁) t₂) = some (.litInt n' t₂) ∧
      IsLiteral g t₂ n' ∧ litValue g t₂ n' = some r

/-- Whether a conversion reads its operand as a signed number, by the type of the operand. -/
def readSign (co : ConvOp) (t : Ty) : Bool :=
  isSigned (if readsSigned co then .hintSigned else .hintUnsigned) t

/-- When the number that is written is the one for the converted value. To a wider type it is the
number that the conversion reads, to a narrower one it has that width; to a floating type it is
rounded like the number that the conversion reads. -/
def FoldOk (fl : Floating) (g : Target) (co : ConvOp) (t₁ t₂ : Ty) (n : Number) : Prop :=
  match tyToC g .hintUnsigned t₁, tyToC g .hintUnsigned t₂ with
  | some (.int _ w₁), some (.int _ w₂) => ∀ k : ℤ, n = k →
      (w₁ < w₂ → readC (readSign co t₁) w₁ k = k) ∧ (w₂ < w₁ → InWidth w₂ k)
  | some (.int _ w₁), some (.float w₂) => ∀ k : ℤ, n = k →
      fl.ofNumber w₂ k = fl.ofNumber w₂ (readC (readSign co t₁) w₁ k : ℤ)
  | some (.float w₁), some (.int _ w₂) => ∀ k, fl.truncate (fl.ofNumber w₁ n) = some k →
      inRange (isSigned (if co = .f2I then .hintSigned else .hintUnsigned) t₂) w₂ k →
      ∃ m : ℤ, n = m ∧ InWidth w₂ m ∧ SameWord w₂ m k
  | some (.float w₁), some (.float w₂) =>
      t₁ ≠ t₂ → fl.toWidth w₂ (fl.ofNumber w₁ n) = fl.ofNumber w₂ n
  | _, _ => True

theorem readC_inWidth (s : Bool) {w : ℕ} (hw : 1 ≤ w) (a : ℤ) : InWidth w (readC s w a) := by
  obtain ⟨m, rfl⟩ := Nat.exists_eq_add_of_le' hw
  have hpow : (2 : ℤ) ^ (m + 1) = 2 * 2 ^ m := by rw [pow_succ,mul_comm]
  have hpos : (0 : ℤ) < 2 ^ m := by positivity
  unfold InWidth readC
  rw [Nat.add_sub_cancel]
  cases s with
  | true =>
    have hle := Int.le_bmod (x := a) (m := 2 ^ (m + 1)) (by positivity)
    have hlt := Int.bmod_lt (x := a) (m := 2 ^ (m + 1)) (by positivity)
    push_cast at hle hlt
    rw [if_pos rfl]
    omega
  | false =>
    have hle := Int.emod_nonneg a (b := 2 ^ (m + 1)) (by positivity)
    have hlt := Int.emod_lt_of_pos a (b := 2 ^ (m + 1)) (by positivity)
    rw [if_neg Bool.false_ne_true]
    omega

theorem InWidth.mono {w w' : ℕ} {k : ℤ} (h : InWidth w k) (hw : w ≤ w') : InWidth w' k := by
  have hup : (2 : ℤ) ^ w ≤ 2 ^ w' := pow_le_pow_right₀ (by norm_num) hw
  have hlow : (2 : ℤ) ^ (w - 1) ≤ 2 ^ (w' - 1) := pow_le_pow_right₀ (by norm_num) (by omega)
  unfold InWidth at h ⊢
  omega

/-- Two numbers of a narrower width are the same word only if they are equal. -/
theorem eq_of_sameWord {w w' : ℕ} (hw : 1 ≤ w) (hlt : w < w') {a b : ℤ} (ha : InWidth w a)
    (hb : InWidth w b) (h : SameWord w' a b) : a = b := by
  obtain ⟨m, rfl⟩ := Nat.exists_eq_add_of_le' hw
  have hpow : (2 : ℤ) ^ (m + 1) = 2 * 2 ^ m := by rw [pow_succ,mul_comm]
  have hwide : (2 : ℤ) ^ (m + 1 + 1) ≤ 2 ^ w' := pow_le_pow_right₀ (by norm_num) hlt
  have hpow' : (2 : ℤ) ^ (m + 1 + 1) = 2 * 2 ^ (m + 1) := by rw [pow_succ,mul_comm]
  have hpos : (0 : ℤ) < 2 ^ m := by positivity
  unfold InWidth at ha hb
  rw [Nat.add_sub_cancel] at ha hb
  obtain ⟨c, hc⟩ := Int.ModEq.dvd h
  have hsmall : -2 ^ w' < b - a ∧ b - a < 2 ^ w' := by omega
  have hzero : b - a = 0 := Int.eq_zero_of_abs_lt_dvd ⟨c, hc⟩ (abs_lt.mpr hsmall)
  omega

section

variable {fl : Floating} {g : Machine} {t₁ t₂ : Ty} {w₁ w₂ : ℕ}

theorem litValue_int (h : IntWidth g.toTarget t₁ w₁) (k : ℤ) :
    litValue g.toTarget t₁ k = some (.int (readC (isSigned .hintUnsigned t₁) w₁ k) : CValue fl) := by
  unfold litValue
  rw [h.tyToC (Or.inl rfl)]
  simp [Number.toInteger]

theorem isLiteral_int (h : IntWidth g.toTarget t₁ w₁) (n : Number) :
    IsLiteral g.toTarget t₁ n ↔ ∃ k : ℤ, n = k ∧ InWidth w₁ k := by
  unfold IsLiteral
  rw [h.tyToC (Or.inl rfl)]

theorem isLiteral_cast (h : IntWidth g.toTarget t₁ w₁) (k : ℤ) :
    IsLiteral g.toTarget t₁ k ↔ InWidth w₁ k := by
  rw [isLiteral_int h]
  constructor
  · intro hk
    obtain ⟨m, hm, hw⟩ := hk
    rw [Int.cast_inj.mp hm]
    exact hw
  · intro hk
    exact ⟨k, rfl, hk⟩

theorem width_pos (h : IntWidth g.toTarget t₁ w₁) : 1 ≤ w₁ := by
  obtain ⟨b, _, _, _, _, hb⟩ := h
  have hw := bitsWidth_pos hb
  omega

/-- The fold of a literal, once its conversion in C is known. -/
theorem foldRight_iff {co : ConvOp} {n : Number} {v : CValue fl} (hv : litValue g.toTarget t₁ n = some v) :
    FoldRight fl g.toTarget co t₁ t₂ n ↔ ∀ r, convert g.toTarget co t₁ t₂ v = some r →
      IsLiteral g.toTarget t₂ n ∧ litValue g.toTarget t₂ n = some r := by
  constructor
  · intro h r hr
    obtain ⟨n', hn, hres⟩ := h v r hv hr
    change some (CExp.litInt n t₂) = some (CExp.litInt n' t₂) at hn
    injection hn with hn
    injection hn with hn
    rw [hn]
    exact hres
  · intro h v' r hv' hr
    rw [hv] at hv'
    injection hv' with hv'
    rw [← hv'] at hr
    exact ⟨n, rfl, h r hr⟩

/-- The number that a conversion reads from a literal. -/
theorem source_literal {co : ConvOp} (hne : t₁ ≠ t₂) (k : ℤ) :
    source co t₁ t₂ w₁ (readC (isSigned .hintUnsigned t₁) w₁ k) = readC (readSign co t₁) w₁ k := by
  unfold readSign
  cases hr : readsSigned co with
  | false =>
    rw [source_unsigned hr]
    rfl
  | true =>
    rw [source_signed hr hne]
    exact readC_congr _ (readC_word _ w₁ k)

theorem foldRight_int {co : ConvOp} (hc : isIntConv co = true) (h₁ : IntWidth g.toTarget t₁ w₁)
    (h₂ : IntWidth g.toTarget t₂ w₂) {k : ℤ} (hk : InWidth w₁ k) :
    FoldRight fl g.toTarget co t₁ t₂ k ↔
      (w₁ < w₂ → readC (readSign co t₁) w₁ k = k) ∧ (w₂ < w₁ → InWidth w₂ k) := by
  have hword := (source_word co t₁ t₂ w₁ _).trans (readC_word (isSigned .hintUnsigned t₁) w₁ k)
  have hiff : FoldRight fl g.toTarget co t₁ t₂ k ↔ InWidth w₂ k ∧
      SameWord w₂ k (source co t₁ t₂ w₁ (readC (isSigned .hintUnsigned t₁) w₁ k)) := by
    rw [foldRight_iff (litValue_int h₁ k),convert_int hc h₁ h₂,litValue_int h₂,isLiteral_cast h₂]
    constructor
    · intro h
      have hr := h _ rfl
      have hv := hr.2
      injection hv with hv
      injection hv with hv
      exact ⟨hr.1, readC_inj.mp hv⟩
    · intro h r hr
      rw [← hr,readC_congr _ h.2]
      exact ⟨h.1, rfl⟩
  rw [hiff]
  rcases Nat.lt_trichotomy w₁ w₂ with hlt | heq | hgt
  · have hne : t₁ ≠ t₂ := by
      intro he
      rw [he] at h₁
      have hw := h₁.unique h₂
      omega
    have hin := InWidth.mono hk hlt.le
    rw [source_literal hne]
    constructor
    · intro h
      refine ⟨fun _ => ?_, fun h => absurd h (Nat.lt_asymm hlt)⟩
      exact (eq_of_sameWord (width_pos h₁) hlt hk (readC_inWidth _ (width_pos h₁) k) h.2).symm
    · intro h
      rw [h.1 hlt]
      exact ⟨hin, sameWord_rfl⟩
  · subst heq
    constructor
    · intro _
      exact ⟨fun h => absurd h (Nat.lt_irrefl _), fun h => absurd h (Nat.lt_irrefl _)⟩
    · intro _
      exact ⟨hk, hword.symm⟩
  · constructor
    · intro h
      exact ⟨fun hlt => absurd hlt (Nat.lt_asymm hgt), fun _ => h.1⟩
    · intro h
      exact ⟨h.2 hgt, (SameWord.mono hgt.le hword).symm⟩

/-! Conversions with a floating type. -/

variable {f₁ f₂ : ℕ}

theorem litValue_float (h : tyToC g.toTarget .hintUnsigned t₁ = some (.float f₁)) (n : Number) :
    litValue g.toTarget t₁ n = some (.float (fl.ofNumber f₁ n) : CValue fl) := by
  unfold litValue
  rw [h]

theorem castTo_eq {dh : TyHint} {t : Ty} {c : CType} (h : tyToC g.toTarget dh t = some c)
    (v : CValue fl) : castTo g.toTarget dh t v = castC c v := by
  unfold castTo
  rw [h,Option.bind_some]

theorem int_ne_float (h₁ : IntWidth g.toTarget t₁ w₁)
    (h₂ : tyToC g.toTarget .hintUnsigned t₂ = some (.float f₂)) : t₁ ≠ t₂ := by
  intro he
  rw [← he,h₁.tyToC (Or.inl rfl)] at h₂
  cases h₂

theorem float_ne_bool (h : tyToC g.toTarget .hintUnsigned t₂ = some (.float f₂)) : t₂ ≠ .tyBool := by
  intro he
  rw [he] at h
  cases h

theorem isLiteral_float (h : tyToC g.toTarget .hintUnsigned t₂ = some (.float f₂)) (n : Number) :
    IsLiteral g.toTarget t₂ n := by
  unfold IsLiteral
  rw [h]
  trivial

/-- From an integer to a floating type. -/
theorem foldRight_toFloat {co : ConvOp} (hc : co = .u2F ∨ co = .i2F)
    (h₁ : IntWidth g.toTarget t₁ w₁) (h₂ : tyToC g.toTarget .hintUnsigned t₂ = some (.float f₂))
    (k : ℤ) : FoldRight fl g.toTarget co t₁ t₂ k ↔
      fl.ofNumber f₂ k = fl.ofNumber f₂ (readC (readSign co t₁) w₁ k : ℤ) := by
  have hconv : convert g.toTarget co t₁ t₂ (.int (readC (isSigned .hintUnsigned t₁) w₁ k)) =
      some (.float (fl.ofNumber f₂ (readC (readSign co t₁) w₁ k : ℤ)) : CValue fl) := by
    have htwice := fl.toWidth_ofNumber f₂ (readC (readSign co t₁) w₁ k : ℤ)
    unfold convert castFunc
    rw [if_neg (int_ne_float h₁ h₂),if_neg (float_ne_bool h₂),if_neg h₁.ne_bool]
    rcases hc with rfl | rfl
    · change (castTo _ _ _ _).bind _ = _
      rw [castTo_eq h₂,castC,Option.bind_some,castTo_eq h₂,castC]
      exact congrArg (fun x => some (CValue.float x)) htwice
    · change ((castTo _ _ _ _).bind _).bind _ = _
      have hread := readC_congr (readSign .i2F t₁) (readC_word (isSigned .hintUnsigned t₁) w₁ k)
      rw [castTo_int h₁ (Or.inr rfl),Option.bind_some,castTo_eq h₂,castC,Option.bind_some,
        castTo_eq h₂,castC]
      change readC (isSigned .hintSigned t₁) w₁ _ = _ at hread
      rw [hread]
      exact congrArg (fun x => some (CValue.float x)) htwice
  rw [foldRight_iff (litValue_int h₁ k),hconv,litValue_float h₂]
  constructor
  · intro h
    have hr := (h _ rfl).2
    injection hr with hr
    injection hr
  · intro h r hr
    rw [← hr,h]
    exact ⟨isLiteral_float h₂ _, rfl⟩

/-- From a floating to an integer type. -/
theorem foldRight_toInt {co : ConvOp} (hc : co = .f2U ∨ co = .f2I)
    (h₁ : tyToC g.toTarget .hintUnsigned t₁ = some (.float f₁)) (h₂ : IntWidth g.toTarget t₂ w₂)
    (n : Number) : FoldRight fl g.toTarget co t₁ t₂ n ↔
      ∀ k, fl.truncate (fl.ofNumber f₁ n) = some k →
        inRange (isSigned (if co = .f2I then .hintSigned else .hintUnsigned) t₂) w₂ k →
        ∃ m : ℤ, n = m ∧ InWidth w₂ m ∧ SameWord w₂ m k := by
  have hdh : (if co = .f2I then TyHint.hintSigned else .hintUnsigned) = .hintUnsigned ∨
      (if co = .f2I then TyHint.hintSigned else .hintUnsigned) = .hintSigned := by
    split
    · exact Or.inr rfl
    · exact Or.inl rfl
  have hconv : convert g.toTarget co t₁ t₂ (.float (fl.ofNumber f₁ n) : CValue fl) =
      ((fl.truncate (fl.ofNumber f₁ n)).bind fun k =>
        if inRange (isSigned (if co = .f2I then .hintSigned else .hintUnsigned) t₂) w₂ k
        then some (CValue.int k) else none).bind (castTo g.toTarget .hintUnsigned t₂) := by
    have hcast := h₂.tyToC hdh
    unfold convert castFunc
    rw [if_neg (int_ne_float h₂ h₁).symm,if_neg h₂.ne_bool,if_neg (float_ne_bool h₁)]
    rcases hc with rfl | rfl
    · exact congrArg (fun x => Option.bind x _) (castTo_eq hcast _)
    · exact congrArg (fun x => Option.bind x _) (castTo_eq hcast _)
  have hlit : ∀ k, (IsLiteral g.toTarget t₂ n ∧ litValue g.toTarget t₂ n =
      some (CValue.int (readC (isSigned .hintUnsigned t₂) w₂ k) : CValue fl)) ↔
      ∃ m : ℤ, n = m ∧ InWidth w₂ m ∧ SameWord w₂ m k := by
    intro k
    rw [isLiteral_int h₂]
    constructor
    · intro h
      obtain ⟨⟨m, rfl, hm⟩, hv⟩ := h
      rw [litValue_int h₂] at hv
      injection hv with hv
      injection hv with hv
      exact ⟨m, rfl, hm, readC_inj.mp hv⟩
    · intro h
      obtain ⟨m, rfl, hm, hw⟩ := h
      rw [litValue_int h₂,readC_congr _ hw]
      exact ⟨⟨m, rfl, hm⟩, rfl⟩
  rw [foldRight_iff (litValue_float h₁ n),hconv]
  constructor
  · intro h k hk hr
    refine (hlit k).mp (h _ ?_)
    rw [hk,Option.bind_some,if_pos hr,Option.bind_some,castTo_int h₂ (Or.inl rfl)]
  · intro h r hr
    obtain ⟨x, hx, hr⟩ := Option.bind_eq_some_iff.mp hr
    obtain ⟨k, hk, hx⟩ := Option.bind_eq_some_iff.mp hx
    by_cases hin : inRange (isSigned (if co = .f2I then .hintSigned else .hintUnsigned) t₂) w₂ k
    · rw [if_pos hin] at hx
      injection hx with hx
      rw [← hx,castTo_int h₂ (Or.inl rfl)] at hr
      rw [← hr]
      exact (hlit k).mpr (h k hk hin)
    · rw [if_neg hin] at hx
      cases hx

/-- Between floating types. -/
theorem foldRight_float (h₁ : tyToC g.toTarget .hintUnsigned t₁ = some (.float f₁))
    (h₂ : tyToC g.toTarget .hintUnsigned t₂ = some (.float f₂)) (n : Number) :
    FoldRight fl g.toTarget .f2F t₁ t₂ n ↔
      (t₁ ≠ t₂ → fl.toWidth f₂ (fl.ofNumber f₁ n) = fl.ofNumber f₂ n) := by
  rw [foldRight_iff (litValue_float h₁ n),litValue_float h₂]
  by_cases he : t₁ = t₂
  · subst he
    have hf : f₁ = f₂ := by
      rw [h₁] at h₂
      injection h₂ with h₂
      injection h₂
    subst hf
    have hself : convert g.toTarget .f2F t₁ t₁ (.float (fl.ofNumber f₁ n) : CValue fl) =
        some (.float (fl.ofNumber f₁ n)) :=
      convert_self .f2F (castTo_float ⟨f₁, h₁⟩ (v := .float (fl.ofNumber f₁ n))
        (by rw [castTo_eq h₁,castC,fl.toWidth_ofNumber]))
    rw [hself]
    constructor
    · intro _ hne
      exact absurd rfl hne
    · intro _ r hr
      exact ⟨isLiteral_float h₁ n, hr⟩
  · have hconv : convert g.toTarget .f2F t₁ t₂ (.float (fl.ofNumber f₁ n) : CValue fl) =
        some (.float (fl.toWidth f₂ (fl.ofNumber f₁ n))) := by
      unfold convert castFunc
      rw [if_neg he,if_neg (float_ne_bool h₂),if_neg (float_ne_bool h₁)]
      change (castTo _ .hintUnsigned _ _).bind _ = _
      rw [castTo_eq h₂,castC,Option.bind_some,castTo_eq h₂,castC,fl.toWidth_toWidth]
    rw [hconv]
    constructor
    · intro h _
      have hr := (h _ rfl).2
      injection hr with hr
      injection hr with hr
      exact hr.symm
    · intro h r hr
      rw [← hr,h he]
      exact ⟨isLiteral_float h₂ n, rfl⟩

theorem foldRight_iff_foldOk {co : ConvOp} {n : Number} (ht : ConvTyped g.toTarget co t₁ t₂)
    (hn : IsLiteral g.toTarget t₁ n) :
    FoldRight fl g.toTarget co t₁ t₂ n ↔ FoldOk fl g.toTarget co t₁ t₂ n := by
  have hint : isIntConv co = true → IsInt g.toTarget t₁ → IsInt g.toTarget t₂ →
      (FoldRight fl g.toTarget co t₁ t₂ n ↔ FoldOk fl g.toTarget co t₁ t₂ n) := by
    intro hc h₁ h₂
    obtain ⟨w₁, h₁⟩ := isInt_iff.mp h₁
    obtain ⟨w₂, h₂⟩ := isInt_iff.mp h₂
    obtain ⟨k, rfl, hk⟩ := (isLiteral_int h₁ n).mp hn
    rw [foldRight_int hc h₁ h₂ hk,FoldOk,h₁.tyToC (Or.inl rfl),h₂.tyToC (Or.inl rfl)]
    constructor
    · intro h m hm
      rw [← Int.cast_inj.mp hm]
      exact h
    · intro h
      exact h k rfl
  have htoFloat : (co = .u2F ∨ co = .i2F) → IsInt g.toTarget t₁ → IsFloat g.toTarget t₂ →
      (FoldRight fl g.toTarget co t₁ t₂ n ↔ FoldOk fl g.toTarget co t₁ t₂ n) := by
    intro hc h₁ h₂
    obtain ⟨w₁, h₁⟩ := isInt_iff.mp h₁
    obtain ⟨f₂, h₂⟩ := h₂
    obtain ⟨k, rfl, hk⟩ := (isLiteral_int h₁ n).mp hn
    rw [foldRight_toFloat hc h₁ h₂,FoldOk,h₁.tyToC (Or.inl rfl),h₂]
    constructor
    · intro h m hm
      rw [← Int.cast_inj.mp hm]
      exact h
    · intro h
      exact h k rfl
  have htoInt : (co = .f2U ∨ co = .f2I) → IsFloat g.toTarget t₁ → IsInt g.toTarget t₂ →
      (FoldRight fl g.toTarget co t₁ t₂ n ↔ FoldOk fl g.toTarget co t₁ t₂ n) := by
    intro hc h₁ h₂
    obtain ⟨f₁, h₁⟩ := h₁
    obtain ⟨w₂, h₂⟩ := isInt_iff.mp h₂
    rw [foldRight_toInt hc h₁ h₂,FoldOk,h₁,h₂.tyToC (Or.inl rfl)]
  cases co with
  | f2I => exact htoInt (Or.inr rfl) ht.1 ht.2
  | f2U => exact htoInt (Or.inl rfl) ht.1 ht.2
  | u2F => exact htoFloat (Or.inl rfl) ht.1 ht.2
  | i2F => exact htoFloat (Or.inr rfl) ht.1 ht.2
  | f2F =>
    obtain ⟨f₁, h₁⟩ := ht.1
    obtain ⟨f₂, h₂⟩ := ht.2
    rw [foldRight_float h₁ h₂,FoldOk,h₁,h₂]
  | lobits => exact hint rfl ht.1 ht.2
  | sx => exact hint rfl ht.1 ht.2
  | zx => exact hint rfl ht.1 ht.2
  | i2I => exact hint rfl ht.1 ht.2
  | u2U => exact hint rfl ht.1 ht.2
  | b2B => exact hint rfl ht.1 ht.2

end

/-- The chosen and the combined operators convert like the original ones. The fold of a literal is
right on the literals whose number is also the one for the converted value. -/
theorem conversions_iff (fl : Floating) (g : Machine) :
    (∀ co t₁ t₂ (v : CValue fl), ConvTyped g.toTarget co t₁ t₂ → OfType g.toTarget t₁ v →
        chosen g.toTarget (convOp co t₁ t₂) t₁ t₂ v = convert g.toTarget co t₁ t₂ v) ∧
      (∀ t₁ c₁ t₂ c₂ t₃ c (v : CValue fl), ConvTyped g.toTarget c₁ t₁ t₂ →
        ConvTyped g.toTarget c₂ t₂ t₃ → OfType g.toTarget t₁ v →
        convCombine t₁ c₁ t₂ c₂ t₃ = some c →
        (convert g.toTarget c₁ t₁ t₂ v).bind (convert g.toTarget c₂ t₂ t₃) =
          convert g.toTarget c t₁ t₃ v) ∧
      ∀ co t₁ t₂ n, ConvTyped g.toTarget co t₁ t₂ → IsLiteral g.toTarget t₁ n →
        (FoldRight fl g.toTarget co t₁ t₂ n ↔ FoldOk fl g.toTarget co t₁ t₂ n) :=
  ⟨fun _ _ _ _ ht hv => chosen_convOp ht hv,
    fun _ _ _ _ _ _ _ ht₁ ht₂ hv hc => convert_combine ht₁ ht₂ hv hc,
    fun _ _ _ _ ht hn => foldRight_iff_foldOk ht hn⟩

/-- A machine with words of 64 bits, and a floating arithmetic without rounding. -/
def machine64 : Machine where
  bitsMax := 64
  bitsPtr := 64
  two_le_max := by decide
  two_le_ptr := by decide
  ptr_ge := by decide
  ptr_le_max := by decide
  max_ge := by decide

def exactFloating : Floating where
  F := ℚ
  ofNumber _ n := n
  toWidth _ x := x
  truncate x := some (x.num.tdiv x.den)
  isZero x := x = 0
  toWidth_ofNumber _ _ := rfl
  toWidth_toWidth _ _ := rfl

def bitsTy (n : ℕ) : Ty := .tyBits (.bits n) .hintNone

theorem bits8_width : IntWidth machine64.toTarget (bitsTy 8) 8 :=
  ⟨.bits 8, .hintNone, rfl, by decide, by decide, rfl⟩

theorem bits32_width : IntWidth machine64.toTarget (bitsTy 32) 32 :=
  ⟨.bits 32, .hintNone, rfl, by decide, by decide, rfl⟩

/-- The literal 200 of eight bits is the signed number -56, and 300 has more than eight bits. -/
theorem foldRight_fails :
    ¬ FoldRight exactFloating machine64.toTarget .sx (bitsTy 8) (bitsTy 32) (200 : ℤ) ∧
      ¬ FoldRight exactFloating machine64.toTarget .lobits (bitsTy 32) (bitsTy 8) (300 : ℤ) := by
  constructor
  · intro h
    have hread := (foldRight_int rfl bits8_width bits32_width (by decide)).mp h
    exact absurd (hread.1 (by decide)) (by decide)
  · intro h
    have hread := (foldRight_int rfl bits32_width bits8_width (by decide)).mp h
    exact absurd (hread.2 (by decide)) (by decide)

theorem conversions_at_bits :
    chosen machine64.toTarget (convOp .i2I (bitsTy 8) (bitsTy 32)) (bitsTy 8) (bitsTy 32)
        (.int 200 : CValue exactFloating) =
      convert machine64.toTarget .i2I (bitsTy 8) (bitsTy 32) (.int 200) ∧
    (convert machine64.toTarget .sx (bitsTy 8) (bitsTy 32) (.int 200 : CValue exactFloating)).bind
        (convert machine64.toTarget .sx (bitsTy 32) (bitsTy 32)) =
      convert machine64.toTarget .sx (bitsTy 8) (bitsTy 32) (.int 200) ∧
    (FoldRight exactFloating machine64.toTarget .zx (bitsTy 8) (bitsTy 32) (200 : ℤ) ↔
      FoldOk exactFloating machine64.toTarget .zx (bitsTy 8) (bitsTy 32) (200 : ℤ)) := by
  have hint : IsInt machine64.toTarget (bitsTy 8) ∧ IsInt machine64.toTarget (bitsTy 32) :=
    ⟨isInt_iff.mpr ⟨8, bits8_width⟩, isInt_iff.mpr ⟨32, bits32_width⟩⟩
  have hlit : IsLiteral machine64.toTarget (bitsTy 8) (200 : ℤ) :=
    (isLiteral_cast bits8_width 200).mpr (by decide)
  obtain ⟨hchosen, hcombine, hfold⟩ := conversions_iff exactFloating machine64
  exact ⟨hchosen .i2I (bitsTy 8) (bitsTy 32) (.int 200) hint rfl,
    hcombine (bitsTy 8) .sx (bitsTy 32) .sx (bitsTy 32) .sx (.int 200) hint ⟨hint.2, hint.2⟩ rfl (by decide),
    hfold .zx (bitsTy 8) (bitsTy 32) (200 : ℤ) hint hlit⟩

end Jhc.E.Conv

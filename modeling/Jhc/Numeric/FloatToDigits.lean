import Mathlib
import Jhc.Numeric.Decimal

/-!
# Digits of floating point numbers (lib/jhc/Numeric.hs:245-309)

`floatToDigits` in base 10 for a number that is not zero, of radix 2. `fuel` bounds the
recursions of `fixup` and `gen`.
-/

namespace Jhc.Numeric
open Jhc.Lib.Decimal

/-- `floatDigits` and the first component of `floatRange`. -/
structure Format where
  p : ℕ
  minExp0 : ℤ
  pos : 0 < p
  small : minExp0 < p

/-- The real minimum exponent. -/
def Format.minExp (F : Format) : ℤ := F.minExp0 - F.p

def Format.float : Format := ⟨24, -125, by decide, by decide⟩

def Format.double : Format := ⟨53, -1021, by decide, by decide⟩

/-- What `decodeFloat` gives of a positive number; a denormalised one has an exponent below
the minimum and zeros at the end of the mantissa. -/
structure Decoded (F : Format) where
  f0 : ℕ
  e0 : ℤ
  lower : 2 ^ (F.p - 1) ≤ f0
  upper : f0 < 2 ^ F.p
  exact : e0 < F.minExp → 2 ^ (F.minExp - e0).toNat ∣ f0

section
variable (F : Format)

/-- `f` and `e` -/
def adjust (f0 : ℕ) (e0 : ℤ) : ℕ × ℤ :=
  let n := F.minExp - e0
  if n > 0 then (f0 / 2 ^ n.toNat, e0 + n) else (f0, e0)

structure Scaled where
  r : ℕ
  s : ℕ
  mUp : ℕ
  mDn : ℕ

def scaled (f : ℕ) (e : ℤ) : Scaled :=
  if e ≥ 0 then
    let be := 2 ^ e.toNat
    if f = 2 ^ (F.p - 1) then ⟨f * be * 2 * 2, 2 * 2, be * 2, 2⟩ else ⟨f * be * 2, 2, be, be⟩
  else if e > F.minExp ∧ f = 2 ^ (F.p - 1) then ⟨f * 2 * 2, 2 ^ (-e + 1).toNat * 2, 2, 1⟩
  else ⟨f * 2, 2 ^ (-e).toNat * 2, 1, 1⟩

def k0 (e0 : ℤ) : ℤ := (F.p - 1 + e0) * 3 / 10

def fixup (r s mUp : ℕ) : ℕ → ℤ → Option ℤ
  | 0, _ => none
  | fuel + 1, n =>
    if n ≥ 0 then
      if r + mUp ≤ 10 ^ n.toNat * s then some n else fixup r s mUp fuel (n + 1)
    else if 10 ^ (-n).toNat * (r + mUp) ≤ s then some n
    else fixup r s mUp fuel (n + 1)

def gen (base : ℕ) : ℕ → List ℕ → ℕ → ℕ → ℕ → ℕ → Option (List ℕ)
  | 0, _, _, _, _, _ => none
  | fuel + 1, ds, rn, sN, mUpN, mDnN =>
    let dn := rn * base / sN
    let rn' := rn * base % sN
    let mUpN' := mUpN * base
    let mDnN' := mDnN * base
    match decide (rn' < mDnN'), decide (rn' + mUpN' > sN) with
    | true, false => some (dn :: ds)
    | false, true => some ((dn + 1) :: ds)
    | true, true => if rn' * 2 < sN then some (dn :: ds) else some ((dn + 1) :: ds)
    | false, false => gen base fuel (dn :: ds) rn' sN mUpN' mDnN'

def floatToDigits (fuel : ℕ) (f0 : ℕ) (e0 : ℤ) : Option (List ℕ × ℤ) := do
  let (f, e) := adjust F f0 e0
  let ⟨r, s, mUp, mDn⟩ := scaled F f e
  let k ← fixup r s mUp fuel (k0 F e0)
  let rds ←
    if k ≥ 0 then gen 10 fuel [] r (s * 10 ^ k.toNat) mUp mDn
    else
      let bk := 10 ^ (-k).toNat
      gen 10 fuel [] (r * bk) s (mUp * bk) (mDn * bk)
  return (rds.reverse, k)

end

/-! ### The recursions -/

section
variable {B R S U D : ℕ} {ds ds' : List ℕ} {rn u d : ℕ}

theorem gen_shortest (hB : 0 < B) (fuel : ℕ) (h : Generated B R S U D ds rn u d) (hU : 0 < u)
    (hgen : gen B fuel ds rn S u d = some ds') : Shortest B R S U D ds.length ds' := by
  induction fuel generalizing ds rn u d with
  | zero => cases hgen
  | succ fuel ih =>
    simp only [gen] at hgen
    split at hgen
    · next hlow _ =>
      cases hgen
      exact h.stop_low hU hB (of_decide_eq_true hlow)
    · next _ hhigh =>
      cases hgen
      exact h.stop_high hU hB (of_decide_eq_true hhigh)
    · next hlow hhigh =>
      split at hgen
      · cases hgen
        exact h.stop_low hU hB (of_decide_eq_true hlow)
      · cases hgen
        exact h.stop_high hU hB (of_decide_eq_true hhigh)
    · next hlow hhigh =>
      have hstep := h.step hU hB (of_decide_eq_false hlow) (of_decide_eq_false hhigh)
      have hlater := ih hstep (Nat.mul_pos hU hB) hgen
      rw [List.length_cons] at hlater
      refine ⟨hlater.lt, hlater.last, hlater.between, Nat.lt_of_succ_lt hlater.longer, fun j hj hlt => ?_⟩
      rcases Nat.eq_or_lt_of_le hj with rfl | hj
      · exact h.none_between
      · exact hlater.least j hj hlt

theorem gen_some (hB : 0 < B) (fuel : ℕ) (h : Generated B R S U D ds rn u d) (hU : 0 < u)
    (hfuel : S < u * B ^ fuel) : ∃ ds', gen B fuel ds rn S u d = some ds' := by
  induction fuel generalizing ds rn u d with
  | zero =>
    have hroom := h.room
    rw [pow_zero, Nat.mul_one] at hfuel
    omega
  | succ fuel ih =>
    simp only [gen]
    split
    · exact ⟨_, rfl⟩
    · exact ⟨_, rfl⟩
    · split <;> exact ⟨_, rfl⟩
    · next hlow hhigh =>
      refine ih (h.step hU hB (of_decide_eq_false hlow) (of_decide_eq_false hhigh)) (Nat.mul_pos hU hB) ?_
      rw [pow_succ, Nat.mul_comm (B ^ fuel), ← Nat.mul_assoc] at hfuel
      exact hfuel

end

section
variable {r s mUp : ℕ}

/-- The test of `fixup` -/
theorem fixup_test (r mUp : ℕ) (hs : 0 < s) (n : ℤ) :
    (if n ≥ 0 then r + mUp ≤ 10 ^ n.toNat * s else 10 ^ (-n).toNat * (r + mUp) ≤ s) ↔
      ((r + mUp : ℕ) : ℚ) / s ≤ 10 ^ n := by
  have hspos : (0 : ℚ) < s := by exact_mod_cast hs
  split
  · next hn =>
    obtain ⟨m, rfl⟩ := Int.eq_ofNat_of_zero_le hn
    rw [div_le_iff₀ hspos, Int.toNat_natCast, zpow_natCast]
    exact_mod_cast Iff.rfl
  · next hn =>
    obtain ⟨m, hm⟩ := Int.eq_ofNat_of_zero_le (by omega : 0 ≤ -n)
    have hneg : n = -(m : ℤ) := by omega
    have hten : (0 : ℚ) < 10 ^ m := by positivity
    rw [hneg, neg_neg, Int.toNat_natCast, zpow_neg, zpow_natCast, div_le_iff₀ hspos, inv_mul_eq_div,
      le_div_iff₀ hten, mul_comm]
    exact_mod_cast Iff.rfl

theorem fixup_eq (hs : 0 < s) (fuel : ℕ) (n : ℤ) :
    fixup r s mUp (fuel + 1) n =
      if ((r + mUp : ℕ) : ℚ) / s ≤ 10 ^ n then some n else fixup r s mUp fuel (n + 1) := by
  have htest := fixup_test r mUp hs n
  simp only [fixup]
  by_cases hn : n ≥ 0
  · rw [if_pos hn] at htest ⊢
    by_cases hle : r + mUp ≤ 10 ^ n.toNat * s
    · rw [if_pos hle, if_pos (htest.1 hle)]
    · rw [if_neg hle, if_neg fun h => hle (htest.2 h)]
  · rw [if_neg hn] at htest ⊢
    by_cases hle : 10 ^ (-n).toNat * (r + mUp) ≤ s
    · rw [if_pos hle, if_pos (htest.1 hle)]
    · rw [if_neg hle, if_neg fun h => hle (htest.2 h)]

theorem fixup_spec (hs : 0 < s) (fuel : ℕ) {n k : ℤ} (h : fixup r s mUp fuel n = some k) :
    n ≤ k ∧ ((r + mUp : ℕ) : ℚ) / s ≤ 10 ^ k ∧ (k = n ∨ (10 : ℚ) ^ (k - 1) < ((r + mUp : ℕ) : ℚ) / s) := by
  induction fuel generalizing n with
  | zero => cases h
  | succ fuel ih =>
    rw [fixup_eq hs] at h
    split at h
    · next hle =>
      cases h
      exact ⟨le_refl _, hle, .inl rfl⟩
    · next hgt =>
      obtain ⟨hk, hle, hor⟩ := ih h
      refine ⟨by omega, hle, .inr ?_⟩
      rcases hor with rfl | hlt
      · rw [Int.add_sub_cancel]
        exact not_le.1 hgt
      · exact hlt

theorem fixup_mono (hs : 0 < s) {fuel : ℕ} {n k : ℤ} (h : fixup r s mUp fuel n = some k) (m : ℕ) :
    fixup r s mUp (fuel + m) n = some k := by
  induction fuel generalizing n with
  | zero => cases h
  | succ fuel ih =>
    rw [fixup_eq hs] at h
    rw [show fuel + 1 + m = fuel + m + 1 by omega, fixup_eq hs]
    split at h
    · next hle => rw [if_pos hle, h]
    · next hgt => rw [if_neg hgt, ih h]

theorem fixup_some (hs : 0 < s) (fuel : ℕ) {n : ℤ} (h : ((r + mUp : ℕ) : ℚ) / s ≤ 10 ^ (n + fuel)) :
    ∃ k, fixup r s mUp (fuel + 1) n = some k := by
  induction fuel generalizing n with
  | zero =>
    rw [fixup_eq hs, if_pos (by simpa using h)]
    exact ⟨n, rfl⟩
  | succ fuel ih =>
    rw [fixup_eq hs]
    split
    · exact ⟨n, rfl⟩
    · refine ih ?_
      rw [show n + 1 + fuel = n + (fuel + 1 : ℕ) by push_cast; ring]
      exact h

end

/-! ### The number and its rounding interval -/

namespace Decoded
variable {F : Format} (x : Decoded F)

def value : ℚ := x.f0 * 2 ^ x.e0

/-- The distance to the next number above -/
def ulp : ℚ := 2 ^ max x.e0 F.minExp

/-- A power of two, but for the least normal number: the next number below is at half the distance. -/
def IsPower : Prop := x.f0 = 2 ^ (F.p - 1) ∧ F.minExp < x.e0

instance : Decidable x.IsPower := inferInstanceAs (Decidable (_ ∧ _))

def pred : ℚ := x.value - if x.IsPower then x.ulp / 2 else x.ulp

def succ : ℚ := x.value + x.ulp

def lo : ℚ := (x.pred + x.value) / 2

def hi : ℚ := (x.value + x.succ) / 2

/-- The lower end that the code takes: for a power of two above the precision it is `1 / 2` below. -/
def low : ℚ := if x.IsPower ∧ 0 ≤ x.e0 then x.value - 1 / 2 else x.lo

theorem lo_eq : x.lo = x.value - if x.IsPower then x.ulp / 4 else x.ulp / 2 := by
  unfold lo pred
  split <;> ring

theorem hi_eq : x.hi = x.value + x.ulp / 2 := by
  unfold hi succ
  ring

theorem ulp_pos : 0 < x.ulp := zpow_pos (by norm_num) _

theorem value_pos : 0 < x.value :=
  mul_pos (by exact_mod_cast lt_of_lt_of_le (by positivity) x.lower) (zpow_pos (by norm_num) _)

theorem adjust_spec {f : ℕ} {e : ℤ} (h : adjust F x.f0 x.e0 = (f, e)) :
    (f : ℚ) * 2 ^ e = x.value ∧ e = max x.e0 F.minExp ∧ (f = 2 ^ (F.p - 1) ∧ e > F.minExp ↔ x.IsPower) := by
  unfold adjust at h
  by_cases hn : F.minExp - x.e0 > 0
  · rw [if_pos hn] at h
    obtain ⟨rfl, rfl⟩ := Prod.mk.inj h
    obtain ⟨c, hc⟩ := x.exact (by omega)
    have hexp : x.e0 + (F.minExp - x.e0) = F.minExp := by ring
    have hpow : 0 < 2 ^ (F.minExp - x.e0).toNat := by positivity
    refine ⟨?_, by omega, ⟨fun hp => absurd hp.2 (by omega), fun hp => absurd hp.2 (by omega)⟩⟩
    rw [hc, Nat.mul_div_cancel_left _ hpow, value, hc, hexp]
    have hcast : ((2 : ℕ) ^ (F.minExp - x.e0).toNat : ℚ) = 2 ^ (F.minExp - x.e0) := by
      rw [← zpow_natCast, Int.toNat_of_nonneg (by omega)]
      norm_num
    push_cast at hcast ⊢
    rw [hcast, mul_comm ((2 : ℚ) ^ _) (c : ℚ), mul_assoc, ← zpow_add₀ (by norm_num)]
    congr 2
    ring
  · rw [if_neg hn] at h
    obtain ⟨rfl, rfl⟩ := Prod.mk.inj h
    exact ⟨rfl, by omega, Iff.rfl⟩

theorem minExp_neg (F : Format) : F.minExp < 0 := by
  have hsmall := F.small
  unfold Format.minExp
  omega

/-- `r / s` is the number, and the other two are the distances to the ends of the interval. -/
structure Scales (c : Scaled) : Prop where
  pos : 0 < c.s
  up_pos : 0 < c.mUp
  away : c.mDn ≤ c.r
  number : (c.r : ℚ) = x.value * c.s
  up : (c.mUp : ℚ) = (x.hi - x.value) * c.s
  down : (c.mDn : ℚ) = (x.value - x.low) * c.s

theorem value_sub_low :
    x.value - x.low = if x.IsPower then if 0 ≤ x.e0 then 1 / 2 else x.ulp / 4 else x.ulp / 2 := by
  rw [low, lo_eq]
  by_cases hp : x.IsPower
  · by_cases he : 0 ≤ x.e0
    · rw [if_pos ⟨hp, he⟩, if_pos hp, if_pos he]
      ring
    · rw [if_neg fun h => he h.2, if_pos hp, if_pos hp, if_neg he]
      ring
  · rw [if_neg fun h => hp h.1, if_neg hp, if_neg hp]
    ring

theorem hi_sub_value : x.hi - x.value = x.ulp / 2 := by
  rw [hi_eq]
  ring

section
variable {f : ℕ} {e : ℤ}

theorem mantissa_pos (h : (f : ℚ) * 2 ^ e = x.value) : 0 < f := by
  have hpos := x.value_pos
  rw [← h] at hpos
  rcases Nat.eq_zero_or_pos f with rfl | hf
  · simp at hpos
  · exact hf

theorem scales_nonneg (n : ℕ) (hf : 0 < f) (hvalue : (f : ℚ) * 2 ^ n = x.value) (hulp : x.ulp = 2 ^ n)
    (he : 0 ≤ x.e0) (hpower : f = 2 ^ (F.p - 1) ↔ x.IsPower) : x.Scales (scaled F f n) := by
  have hbe : 0 < 2 ^ n := by positivity
  have hfbe : 0 < f * 2 ^ n := Nat.mul_pos hf hbe
  unfold scaled
  rw [if_pos (Int.natCast_nonneg n), Int.toNat_natCast]
  by_cases hp : f = 2 ^ (F.p - 1)
  · rw [if_pos hp]
    refine ⟨by norm_num, by positivity, by simp only; omega, ?_, ?_, ?_⟩
    · push_cast
      rw [← hvalue]
      ring
    · push_cast
      rw [hi_sub_value, hulp]
      ring
    · push_cast
      rw [value_sub_low, if_pos (hpower.1 hp), if_pos he]
      norm_num
  · rw [if_neg hp]
    refine ⟨by norm_num, by positivity, ?_, ?_, ?_, ?_⟩
    · calc 2 ^ n ≤ f * 2 ^ n := Nat.le_mul_of_pos_left _ hf
        _ ≤ f * 2 ^ n * 2 := Nat.le_mul_of_pos_right _ (by norm_num)
    · push_cast
      rw [← hvalue]
    · push_cast
      rw [hi_sub_value, hulp]
      ring
    · push_cast
      rw [value_sub_low, if_neg fun h => hp (hpower.2 h), hulp]
      ring

theorem scales_neg (n : ℕ) (hn : 0 < n) (hf : 0 < f) (hvalue : (f : ℚ) * ((2 : ℚ) ^ n)⁻¹ = x.value)
    (hulp : x.ulp = ((2 : ℚ) ^ n)⁻¹) (he : ¬ 0 ≤ x.e0) (hpower : -(n : ℤ) > F.minExp ∧ f = 2 ^ (F.p - 1) ↔ x.IsPower) :
    x.Scales (scaled F f (-n)) := by
  have hpow : (2 : ℚ) ^ n ≠ 0 := by positivity
  unfold scaled
  rw [if_neg (by omega), neg_neg, Int.toNat_natCast, show ((n : ℤ) + 1).toNat = n + 1 by omega]
  by_cases hp : -(n : ℤ) > F.minExp ∧ f = 2 ^ (F.p - 1)
  · rw [if_pos hp]
    refine ⟨by positivity, by norm_num, by simp only; omega, ?_, ?_, ?_⟩
    · push_cast
      rw [← hvalue]
      field_simp
      ring
    · push_cast
      rw [hi_sub_value, hulp]
      field_simp
      ring
    · push_cast
      rw [value_sub_low, if_pos (hpower.1 hp), if_neg he, hulp]
      field_simp
      ring
  · rw [if_neg hp]
    refine ⟨by positivity, by norm_num, by simp only; omega, ?_, ?_, ?_⟩
    · push_cast
      rw [← hvalue]
      field_simp
    · push_cast
      rw [hi_sub_value, hulp]
      field_simp
    · push_cast
      rw [value_sub_low, if_neg fun h => hp (hpower.2 h), hulp]
      field_simp

theorem scales (h : adjust F x.f0 x.e0 = (f, e)) : x.Scales (scaled F f e) := by
  obtain ⟨hvalue, he, hpower⟩ := x.adjust_spec h
  have hneg := minExp_neg F
  have hf := x.mantissa_pos hvalue
  have hulp : x.ulp = 2 ^ e := by rw [ulp, he]
  by_cases hnonneg : 0 ≤ e
  · obtain ⟨n, rfl⟩ := Int.eq_ofNat_of_zero_le hnonneg
    refine x.scales_nonneg n hf hvalue hulp (by omega) ?_
    rw [← hpower]
    exact ⟨fun hp => ⟨hp, by omega⟩, fun hp => hp.1⟩
  · obtain ⟨n, hn⟩ := Int.eq_ofNat_of_zero_le (by omega : 0 ≤ -e)
    obtain rfl : e = -(n : ℤ) := by omega
    rw [zpow_neg, zpow_natCast] at hvalue hulp
    refine x.scales_neg n (by omega) hf hvalue hulp (by omega) ?_
    rw [← hpower]
    exact and_comm

end

/-! ### The result -/

end Decoded

/-- The fraction of the first digit, as `gen` is called. -/
def Scaled.shift (c : Scaled) (k : ℤ) : Scaled :=
  if k ≥ 0 then ⟨c.r, c.s * 10 ^ k.toNat, c.mUp, c.mDn⟩
  else ⟨c.r * 10 ^ (-k).toNat, c.s, c.mUp * 10 ^ (-k).toNat, c.mDn * 10 ^ (-k).toNat⟩

theorem floatToDigits_eq (F : Format) (fuel f0 : ℕ) (e0 : ℤ) {f : ℕ} {e : ℤ} (h : adjust F f0 e0 = (f, e)) :
    floatToDigits F fuel f0 e0 =
      (fixup (scaled F f e).r (scaled F f e).s (scaled F f e).mUp fuel (k0 F e0)).bind fun k =>
        (gen 10 fuel [] ((scaled F f e).shift k).r ((scaled F f e).shift k).s ((scaled F f e).shift k).mUp
          ((scaled F f e).shift k).mDn).map fun rds => (rds.reverse, k) := by
  simp only [floatToDigits, h, Scaled.shift]
  refine Option.bind_congr fun k _ => ?_
  split <;> cases gen .. <;> rfl

namespace Decoded
variable {F : Format} (x : Decoded F)

/-- What the call of `gen` is given, with `t` for the power of ten. -/
structure Shifted (c : Scaled) (t : ℚ) : Prop where
  pos : 0 < c.s
  up_pos : 0 < c.mUp
  away : c.mDn ≤ c.r
  number : (c.r : ℚ) * t = x.value * c.s
  up : ((c.r + c.mUp : ℕ) : ℚ) * t = x.hi * c.s
  down : (c.mDn : ℚ) * t = (x.value - x.low) * c.s

theorem Scales.shift {x : Decoded F} {c : Scaled} (h : x.Scales c) (k : ℤ) : x.Shifted (c.shift k) (10 ^ k) := by
  have hsum : (c.r : ℚ) + c.mUp = x.hi * c.s := by rw [h.number, h.up]; ring
  unfold Scaled.shift
  split
  · next hk =>
    obtain ⟨n, rfl⟩ := Int.eq_ofNat_of_zero_le hk
    rw [Int.toNat_natCast, zpow_natCast]
    refine ⟨Nat.mul_pos h.pos (by positivity), h.up_pos, h.away, ?_, ?_, ?_⟩
    · push_cast
      rw [h.number]
      ring
    · push_cast
      rw [hsum]
      ring
    · push_cast
      rw [h.down]
      ring
  · next hk =>
    obtain ⟨n, hn⟩ := Int.eq_ofNat_of_zero_le (by omega : 0 ≤ -k)
    obtain rfl : k = -(n : ℤ) := by omega
    have hten : (10 : ℚ) ^ n ≠ 0 := by positivity
    rw [neg_neg, Int.toNat_natCast, zpow_neg, zpow_natCast]
    refine ⟨h.pos, Nat.mul_pos h.up_pos (by positivity), Nat.mul_le_mul_right _ h.away, ?_, ?_, ?_⟩
    · push_cast
      rw [h.number]
      field_simp
    · push_cast
      rw [← hsum]
      field_simp
    · push_cast
      rw [h.down]
      field_simp

section
variable {x} {c : Scaled}

theorem Shifted.between_iff {k : ℤ} (h : x.Shifted c (10 ^ k)) (j m : ℕ) :
    Between 10 c.r c.s c.mUp c.mDn j m ↔ x.low < m * 10 ^ (k - j) ∧ m * 10 ^ (k - j) < x.hi := by
  have hs : (0 : ℚ) < c.s := by exact_mod_cast h.pos
  have hk : (0 : ℚ) < 10 ^ k := zpow_pos (by norm_num) _
  have hj : (0 : ℚ) < 10 ^ j := by positivity
  have hnumber := h.number
  have hup := h.up
  have hdown := h.down
  have hpow : (10 : ℚ) ^ (k - j) = 10 ^ k / 10 ^ j := by rw [zpow_sub₀ (by norm_num), zpow_natCast]
  rw [hpow, mul_div_assoc', lt_div_iff₀ hj, div_lt_iff₀ hj]
  refine and_congr ?_ ?_
  · have hscale : x.low * 10 ^ j < m * 10 ^ k ↔ (10 : ℚ) ^ j * c.r < m * c.s + 10 ^ j * c.mDn := by
      rw [← mul_lt_mul_iff_of_pos_right hs, ← mul_lt_mul_iff_of_pos_right (b := (10 : ℚ) ^ j * c.r) hk]
      have hleft : x.low * 10 ^ j * c.s = 10 ^ j * (c.r * 10 ^ k - c.mDn * 10 ^ k) := by
        rw [hnumber, hdown]
        ring
      rw [hleft]
      constructor <;> intro hlt <;> linarith
    rw [hscale]
    exact_mod_cast Iff.rfl
  · have hscale : (m : ℚ) * 10 ^ k < x.hi * 10 ^ j ↔ (m : ℚ) * c.s < 10 ^ j * ((c.r + c.mUp : ℕ) : ℚ) := by
      rw [← mul_lt_mul_iff_of_pos_right hs, ← mul_lt_mul_iff_of_pos_right (b := (m : ℚ) * c.s) hk]
      have hright : x.hi * 10 ^ j * c.s = 10 ^ j * (((c.r + c.mUp : ℕ) : ℚ) * 10 ^ k) := by
        rw [hup]
        ring
      rw [hright]
      constructor <;> intro hlt <;> linarith
    rw [hscale]
    exact_mod_cast Iff.rfl

theorem Shifted.room {k : ℤ} (h : x.Shifted c (10 ^ k)) (hle : x.hi ≤ 10 ^ k) : c.r + c.mUp ≤ c.s := by
  have hs : (0 : ℚ) < c.s := by exact_mod_cast h.pos
  have hk : (0 : ℚ) < 10 ^ k := zpow_pos (by norm_num) _
  have hmul : ((c.r + c.mUp : ℕ) : ℚ) * 10 ^ k ≤ c.s * 10 ^ k := by
    rw [h.up, mul_comm (c.s : ℚ)]
    exact mul_le_mul_of_nonneg_right hle hs.le
  exact_mod_cast le_of_mul_le_mul_right hmul hk

theorem Shifted.reach {k : ℤ} (h : x.Shifted c (10 ^ k)) (hlt : 10 ^ (k - 1) < x.hi) : c.s < 10 * (c.r + c.mUp) := by
  have hs : (0 : ℚ) < c.s := by exact_mod_cast h.pos
  have hk : (0 : ℚ) < 10 ^ k := zpow_pos (by norm_num) _
  have hpow : (10 : ℚ) ^ k = 10 * 10 ^ (k - 1) := by rw [zpow_sub_one₀ (by norm_num)]; ring
  have hmul : (c.s : ℚ) * 10 ^ k < (10 * ((c.r + c.mUp : ℕ) : ℚ)) * 10 ^ k := by
    calc (c.s : ℚ) * 10 ^ k = 10 * (10 ^ (k - 1) * c.s) := by rw [hpow]; ring
      _ < 10 * (x.hi * c.s) := by
        have hstep := mul_lt_mul_of_pos_right hlt hs
        linarith
      _ = _ := by rw [← h.up]; ring
  exact_mod_cast lt_of_mul_lt_mul_right hmul hk.le

end

/-- What every result is, with the interval that the code takes. -/
structure Output (ds : List ℕ) (k : ℤ) : Prop where
  ge : k0 F x.e0 ≤ k
  le : x.hi ≤ 10 ^ k
  least : k = k0 F x.e0 ∨ 10 ^ (k - 1) < x.hi
  between : x.low < val 10 ds k ∧ val 10 ds k < x.hi
  shortest : ∀ j < ds.length, ∀ m : ℕ, ¬ (x.low < m * 10 ^ (k - j) ∧ m * 10 ^ (k - j) < x.hi)
  digits : 10 ^ (k - 1) < x.hi → Digits 10 ds

theorem fixup_iff {c : Scaled} (h : x.Scales c) : ((c.r + c.mUp : ℕ) : ℚ) / c.s = x.hi := by
  have hs : (c.s : ℚ) ≠ 0 := by exact_mod_cast h.pos.ne'
  push_cast
  rw [h.number, h.up, div_eq_iff hs]
  ring

theorem output {fuel : ℕ} {ds : List ℕ} {k : ℤ} (hrun : floatToDigits F fuel x.f0 x.e0 = some (ds, k)) :
    x.Output ds k := by
  obtain ⟨⟨f, e⟩, hadjust⟩ : ∃ fe, adjust F x.f0 x.e0 = fe := ⟨_, rfl⟩
  rw [floatToDigits_eq F fuel _ _ hadjust] at hrun
  have hscales := x.scales hadjust
  obtain ⟨k', hfix, hmap⟩ := Option.bind_eq_some_iff.1 hrun
  obtain ⟨rds, hgen, heq⟩ := Option.map_eq_some_iff.1 hmap
  obtain ⟨rfl, rfl⟩ := Prod.mk.inj heq
  obtain ⟨hge, hle, hleast⟩ := fixup_spec hscales.pos fuel hfix
  rw [x.fixup_iff hscales] at hle hleast
  have hshift := hscales.shift k'
  have hshort := gen_shortest (by norm_num) fuel (Generated.start (hshift.room hle) hshift.away) hshift.up_pos hgen
  refine ⟨hge, hle, hleast, ?_, ?_, fun hlt => hshort.digits (by norm_num) (hshift.reach hlt)⟩
  · have hbetween := (hshift.between_iff _ _).1 hshort.between
    rwa [val, numeral, List.reverse_reverse, List.length_reverse]
  · intro j hj m hm
    rw [List.length_reverse] at hj
    exact hshort.least j (Nat.zero_le _) hj m ((hshift.between_iff j m).2 hm)

theorem terminates : ∃ fuel ds k, floatToDigits F fuel x.f0 x.e0 = some (ds, k) := by
  obtain ⟨⟨f, e⟩, hadjust⟩ : ∃ fe, adjust F x.f0 x.e0 = fe := ⟨_, rfl⟩
  have hscales := x.scales hadjust
  set c := scaled F f e
  have hten : (0 : ℚ) < 10 ^ k0 F x.e0 := zpow_pos (by norm_num) _
  obtain ⟨n, hn⟩ := pow_unbounded_of_one_lt (x.hi / 10 ^ k0 F x.e0) (by norm_num : (1 : ℚ) < 10)
  have hreach : ((c.r + c.mUp : ℕ) : ℚ) / c.s ≤ 10 ^ (k0 F x.e0 + n) := by
    rw [x.fixup_iff hscales, zpow_add₀ (by norm_num), zpow_natCast, mul_comm]
    exact (div_le_iff₀ hten).1 hn.le
  obtain ⟨k, hk⟩ := fixup_some hscales.pos n hreach
  have hshift := hscales.shift k
  obtain ⟨-, hle, -⟩ := fixup_spec hscales.pos _ hk
  rw [x.fixup_iff hscales] at hle
  -- the digits need as much fuel as the denominator has digits
  have hfuel : (c.shift k).s < (c.shift k).mUp * 10 ^ (n + 1 + (c.shift k).s) := by
    calc (c.shift k).s < 10 ^ (c.shift k).s := Nat.lt_pow_self (by norm_num)
      _ ≤ 10 ^ (n + 1 + (c.shift k).s) := Nat.pow_le_pow_right (by norm_num) (by omega)
      _ ≤ _ := Nat.le_mul_of_pos_left _ hshift.up_pos
  obtain ⟨rds, hrds⟩ := gen_some (by norm_num) _ (Generated.start (hshift.room hle) hshift.away) hshift.up_pos hfuel
  refine ⟨n + 1 + (c.shift k).s, rds.reverse, k, ?_⟩
  rw [floatToDigits_eq F _ _ _ hadjust, fixup_mono hscales.pos hk, Option.bind_some, hrds, Option.map_some]

/-- Shortest and correct digits of the number -/
structure Correct (ds : List ℕ) (k : ℤ) : Prop where
  digits : Digits 10 ds
  between : x.lo < val 10 ds k ∧ val 10 ds k < x.hi
  shortest : ∀ ds' k', Digits 10 ds' → x.lo < val 10 ds' k' → val 10 ds' k' < x.hi → ds.length ≤ ds'.length

/-- The estimate of the exponent is below the exponent of the upper end. -/
def Estimated : Prop := (10 : ℚ) ^ (((F.p : ℤ) - 1 + x.e0) * 3 / 10 - 1) < x.hi

/--
Where the number is a power of two above the precision, no number with fewer digits is
between the lower end and `1 / 2` below the number.
-/
def Covered : Prop :=
  x.IsPower → 0 ≤ x.e0 → ∀ ds' k', Digits 10 ds' → x.lo < val 10 ds' k' → val 10 ds' k' ≤ x.value - 1 / 2 →
    ∃ ds k, Digits 10 ds ∧ x.value - 1 / 2 < val 10 ds k ∧ val 10 ds k < x.hi ∧ ds.length ≤ ds'.length

section
variable {x} {ds : List ℕ} {k : ℤ}

theorem Output.estimated (h : x.Output ds k) (hcorrect : x.Correct ds k) : x.Estimated := by
  have hge := val_ge (by norm_num) hcorrect.digits k
  have hlt := hcorrect.between.2
  have hmono : (10 : ℚ) ^ (k0 F x.e0 - 1) ≤ 10 ^ (k - 1) := zpow_le_zpow_right₀ (by norm_num) (by have hk := h.ge; omega)
  exact hmono.trans_lt (lt_of_le_of_lt (by exact_mod_cast hge) hlt)

theorem Output.covered (h : x.Output ds k) (hcorrect : x.Correct ds k) : x.Covered := by
  intro hp he ds' k' hds' hlo hle
  have hlow : x.low = x.value - 1 / 2 := if_pos ⟨hp, he⟩
  have hvalue : x.value < x.hi := by
    rw [hi_eq]
    linarith [x.ulp_pos]
  refine ⟨ds, k, hcorrect.digits, hlow ▸ h.between.1, h.between.2, hcorrect.shortest ds' k' hds' hlo ?_⟩
  linarith

theorem Output.reach (h : x.Output ds k) (hest : x.Estimated) : (10 : ℚ) ^ (k - 1) < x.hi := by
  rcases h.least with heq | hlt
  · rw [heq]
    exact hest
  · exact hlt

/-- No shorter digits are in the interval that the code takes. -/
theorem Output.length_le (h : x.Output ds k) (hest : x.Estimated) {ds' : List ℕ} {k' : ℤ} (hds' : Digits 10 ds')
    (hlow : x.low < val 10 ds' k') (hhi : val 10 ds' k' < x.hi) : ds.length ≤ ds'.length := by
  by_contra hlt
  obtain ⟨m, hm⟩ := multiple_of_digits (by norm_num) (by exact_mod_cast h.le) (by exact_mod_cast h.reach hest) hds'
    hlow hhi (le_refl ds'.length)
  exact h.shortest ds'.length (not_le.1 hlt) m (by exact_mod_cast hm)

/-- Digits within `1 / 2` of a whole number are the number. -/
theorem Output.val_eq (h : x.Output ds k) {v : ℕ} (hv : x.value = v) (hlow : x.low = v - 1 / 2) (hhi : x.hi = v + 1 / 2) :
    val 10 ds k = x.value := by
  have hone : (1 : ℚ) ≤ v := by
    have hpos := x.value_pos
    rw [hv] at hpos
    exact_mod_cast hpos
  have hk : 0 < k := by
    have hle := h.le
    rw [hhi] at hle
    by_contra hneg
    have hpow : (10 : ℚ) ^ k ≤ 10 ^ (0 : ℤ) := zpow_le_zpow_right₀ (by norm_num) (by omega)
    rw [zpow_zero] at hpow
    linarith
  obtain ⟨n, rfl⟩ := Int.eq_ofNat_of_zero_le hk.le
  have hlen : ds.length ≤ n := by
    by_contra hlt
    refine h.shortest n (not_le.1 hlt) v ?_
    rw [sub_self, zpow_zero, mul_one, hlow, hhi]
    constructor <;> linarith
  have hval : val 10 ds n = ((numeral 10 ds * 10 ^ (n - ds.length) : ℕ) : ℚ) := by
    rw [val, show (n : ℤ) - ds.length = ((n - ds.length : ℕ) : ℤ) by omega, zpow_natCast]
    push_cast
    rfl
  obtain ⟨hlo, hlt⟩ := h.between
  rw [hval, hlow] at hlo
  rw [hval, hhi] at hlt
  rw [hval, hv]
  generalize numeral 10 ds * 10 ^ (n - ds.length) = m at hlo hlt ⊢
  have hle : m ≤ v := by
    by_contra hgt
    have hcast : (v : ℚ) + 1 ≤ m := by exact_mod_cast not_le.1 hgt
    linarith
  have hge : v ≤ m := by
    by_contra hgt
    have hcast : (m : ℚ) + 1 ≤ v := by exact_mod_cast not_le.1 hgt
    linarith
  rw [Nat.le_antisymm hle hge]

theorem Output.correct (h : x.Output ds k) (hest : x.Estimated) (hcov : x.Covered) : x.Correct ds k := by
  have hdigits := h.digits (h.reach hest)
  have hhi := x.hi_eq
  have hlo := x.lo_eq
  have hulp := x.ulp_pos
  by_cases hcase : x.IsPower ∧ 0 ≤ x.e0
  · obtain ⟨hp, he⟩ := hcase
    have hlow : x.low = x.value - 1 / 2 := if_pos ⟨hp, he⟩
    have hneg := minExp_neg F
    obtain ⟨n, hn⟩ := Int.eq_ofNat_of_zero_le he
    have hpow : x.ulp = 2 ^ n := by
      rw [ulp, show max x.e0 F.minExp = n by omega, zpow_natCast]
    rw [if_pos hp] at hlo
    cases n with
    | zero =>
      rw [pow_zero] at hpow
      have hv : x.value = (x.f0 : ℕ) := by
        rw [value, hn]
        norm_num
      have heq := h.val_eq hv (by rw [hlow, hv]) (by rw [hhi, hpow, hv])
      refine ⟨hdigits, by rw [heq]; constructor <;> linarith, fun ds' k' hds' hlo' hhi' => ?_⟩
      exact h.length_le hest hds' (by linarith) hhi'
    | succ n =>
      have htwo : (2 : ℚ) ≤ x.ulp := by
        have hge : (1 : ℚ) ≤ 2 ^ n := one_le_pow₀ (by norm_num)
        rw [hpow, pow_succ]
        linarith
      refine ⟨hdigits, ⟨by linarith [h.between.1], h.between.2⟩, fun ds' k' hds' hlo' hhi' => ?_⟩
      by_cases habove : x.low < val 10 ds' k'
      · exact h.length_le hest hds' habove hhi'
      · obtain ⟨ds'', k'', hds'', hlow'', hhi'', hlen⟩ := hcov hp he ds' k' hds' hlo' (hlow ▸ not_lt.1 habove)
        exact (h.length_le hest hds'' (hlow ▸ hlow'') hhi'').trans hlen
  · have hlow : x.low = x.lo := if_neg hcase
    exact ⟨hdigits, hlow ▸ h.between, fun ds' k' hds' hlo' hhi' => h.length_le hest hds' (hlow ▸ hlo') hhi'⟩

end

/-- The digits are correct and shortest exactly under the two conditions. -/
theorem floatToDigits_correct_iff :
    (∃ fuel ds k, floatToDigits F fuel x.f0 x.e0 = some (ds, k) ∧ x.Correct ds k) ↔ x.Estimated ∧ x.Covered := by
  constructor
  · rintro ⟨fuel, ds, k, hrun, hcorrect⟩
    have hout := x.output hrun
    exact ⟨hout.estimated hcorrect, hout.covered hcorrect⟩
  · rintro ⟨hest, hcov⟩
    obtain ⟨fuel, ds, k, hrun⟩ := x.terminates
    exact ⟨fuel, ds, k, hrun, (x.output hrun).correct hest hcov⟩

end Decoded

/-- `2 ^ 29 :: Float`: the lower end is `1 / 2` below and not 16, which leaves out the shorter `536870900`. -/
example : floatToDigits Format.float 20 (2 ^ 23) 6 = some ([5, 3, 6, 8, 7, 0, 9, 2], 9) := by decide +kernel

/-- The double `2 ^ -1020` -/
def tiny : Decoded Format.double := ⟨2 ^ 52, -1072, by decide, by decide, fun h => absurd h (by decide)⟩

theorem tiny_hi_le : tiny.hi ≤ 10 ^ (-307 : ℤ) := by
  have hulp : tiny.ulp = ((2 : ℚ) ^ 1072)⁻¹ := by
    rw [← zpow_natCast, ← zpow_neg]
    rfl
  have hvalue : tiny.value = 2 ^ 52 * tiny.ulp := rfl
  -- compared in parts, as the powers are large
  have hten : (10 : ℚ) ^ 307 = (10 ^ 59) ^ 5 * 10 ^ 12 := by rw [← pow_mul, ← pow_add]
  have htwo : (2 : ℚ) ^ 1072 = (2 ^ 196) ^ 5 * 2 ^ 92 := by rw [← pow_mul, ← pow_add]
  have hpart : ((10 : ℚ) ^ 59) ^ 5 ≤ (2 ^ 196) ^ 5 := pow_le_pow_left₀ (by norm_num) (by norm_num) 5
  rw [Decoded.hi_eq, hvalue, hulp, zpow_neg, show (307 : ℤ) = (307 : ℕ) from rfl, zpow_natCast]
  calc (2 : ℚ) ^ 52 * (2 ^ 1072)⁻¹ + (2 ^ 1072)⁻¹ / 2 = (2 ^ 52 + 1 / 2) / 2 ^ 1072 := by ring
    _ ≤ (10 ^ 307)⁻¹ := by
      rw [div_le_iff₀ (by positivity), inv_mul_eq_div, le_div_iff₀ (by positivity), hten, htwo]
      calc ((2 : ℚ) ^ 52 + 1 / 2) * ((10 ^ 59) ^ 5 * 10 ^ 12) = (10 ^ 59) ^ 5 * ((2 ^ 52 + 1 / 2) * 10 ^ 12) := by ring
        _ ≤ (2 ^ 196) ^ 5 * 2 ^ 92 := mul_le_mul hpart (by norm_num) (by norm_num) (by positivity)

/-- The estimate is above the exponent, so the first digit is a zero. -/
theorem tiny_not_correct :
    ¬ ∃ fuel ds k, floatToDigits Format.double fuel tiny.f0 tiny.e0 = some (ds, k) ∧ tiny.Correct ds k := by
  rintro ⟨fuel, ds, k, hrun, hcorrect⟩
  have hest : (10 : ℚ) ^ (-307 : ℤ) < tiny.hi := (tiny.output hrun).estimated hcorrect
  exact absurd hest (not_lt.2 tiny_hi_le)

end Jhc.Numeric

import Mathlib.Algebra.Order.Group.Abs
import Jhc.C.Casts
import Jhc.Inst.Word

/-!
# Conversions between integral types (lib/jhc/Jhc/Num.m4, Jhc/Num.hs:13-33, Jhc/Inst/Num.hs)
-/

namespace Jhc.Inst
open Jhc.Cmm Jhc.C Jhc.C.Casts

/-- `I2I` and `U2U`: a part of the word, or the word with its sign or with zeros before it
(src/Cmm/Op.hs:137-138). -/
def convWord (signed : Bool) {m : ℕ} (n : ℕ) (x : BitVec m) : BitVec n :=
  if signed then x.signExtend n else x.setWidth n

/-- The width of `BitsMax_`; `intmax_t` has at least 64 bits. -/
structure Words where
  bitsMax : ℕ
  min : 64 ≤ bitsMax

/-- `SIGNED` or `UNSIGNED` at a type of some width. -/
structure NumType where
  width : ℕ
  signed : Bool

abbrev intType : NumType := { width := 32, signed := true }

abbrev integerType (M : Words) : NumType := { width := M.bitsMax, signed := true }

section Methods

variable (M : Words) (t : NumType)

/-- The target says whether the sign is kept. -/
def fromInt (i : BitVec 32) : BitVec t.width := convWord t.signed t.width i

def fromInteger (i : BitVec M.bitsMax) : BitVec t.width := convWord t.signed t.width i

def toInt (x : BitVec t.width) : BitVec 32 := convWord t.signed 32 x

def toInteger (x : BitVec t.width) : BitVec M.bitsMax := convWord t.signed M.bitsMax x

def fromIntegral (s t : NumType) (x : BitVec s.width) : BitVec t.width :=
  fromInteger M t (toInteger M s x)

/-! ### Literals (src/E/FromHs.hs:757-767, 877-878) -/

def integer_cutoff : ℤ := 500000000

def intConvert (i : ℤ) : BitVec t.width :=
  if |i| > integer_cutoff then fromInteger M t (BitVec.ofInt M.bitsMax i)
  else fromInt t (BitVec.ofInt 32 i)

end Methods

/-! ### The primitives in C -/

/-- What the code generator writes for the primitive computes it. -/
theorem convert_convWord {fl : Floating} {g : Target} {ta tb : Ty} {m n : ℕ} (signed : Bool)
    (ha : IntWidth g ta m) (hb : IntWidth g tb n)
    (hsa : isSigned .hintSigned ta = true) (hsb : isSigned .hintUnsigned tb = false)
    (hne : ta ≠ tb) (x : BitVec m) :
    convert g (if signed then .i2I else .u2U) ta tb (.int x.toNat : CValue fl) =
      some (.int (convWord signed n x).toNat) := by
  have hpow : ∀ k, ((2 ^ k : ℕ) : ℤ) = 2 ^ k := fun k => by push_cast; rfl
  cases signed with
  | true =>
    have hread : readC true m x.toNat = x.toInt := by
      simp only [readC, if_true]
      rw [BitVec.toInt_eq_toNat_bmod]
    have hword : ((x.signExtend n).toNat : ℤ) = x.toInt % 2 ^ n := by
      have hpos : (0 : ℤ) ≤ x.toInt % 2 ^ n := Int.emod_nonneg _ (pow_ne_zero n two_ne_zero)
      change (((BitVec.ofInt n x.toInt).toNat : ℕ) : ℤ) = _
      rw [BitVec.toNat_ofInt, hpow, Int.toNat_of_nonneg hpos]
    simp only [if_true, convWord]
    rw [convert_int rfl ha hb, source_signed rfl hne, hsa, hsb, hread, hword]
    rfl
  | false =>
    have hword : ((x.setWidth n).toNat : ℤ) = x.toNat % 2 ^ n := by
      rw [BitVec.toNat_setWidth]
      push_cast
      rfl
    simp only [Bool.false_eq_true, if_false, convWord]
    rw [convert_int rfl ha hb, source_unsigned rfl, hsb, hword]
    rfl

/-! ### Words -/

theorem signExtend_signExtend_wide {w m n : ℕ} (x : BitVec w) (h : w ≤ n) :
    (x.signExtend n).signExtend m = x.signExtend m := by
  have hsign : ∀ {k} (y : BitVec k), y.signExtend m = BitVec.ofInt m y.toInt := fun _ => rfl
  rw [hsign, hsign, BitVec.toInt_signExtend_of_le h]

theorem signExtend_signExtend {w m n : ℕ} (x : BitVec w) (h : m ≤ n) :
    (x.signExtend n).signExtend m = x.signExtend m := by
  apply BitVec.eq_of_getLsbD_eq
  intro i hi
  rw [BitVec.signExtend_eq_setWidth_of_le _ h, BitVec.getLsbD_setWidth, BitVec.getLsbD_signExtend,
    BitVec.getLsbD_signExtend]
  have hn : i < n := by omega
  simp only [hi, hn, decide_true, Bool.true_and]

theorem setWidth_signExtend_of_le {w m n : ℕ} (x : BitVec w) (h : m ≤ n) :
    (x.setWidth n).signExtend m = x.setWidth m := by
  rw [BitVec.signExtend_eq_setWidth_of_le _ h, BitVec.setWidth_setWidth_of_le _ h]

/-- A sign in front of the word is kept by the wider conversion alone. -/
theorem signExtend_setWidth_iff {w m n : ℕ} (hn : w < n) (x : BitVec w) :
    (x.signExtend n).setWidth m = x.setWidth m ↔ 0 ≤ x.toInt ∨ m ≤ w := by
  constructor
  · intro h
    by_contra hor
    obtain ⟨hneg, hm⟩ := not_or.1 hor
    have hmsb : x.msb = true := by
      rw [BitVec.msb_eq_toInt, decide_eq_true_eq]
      omega
    have hbit := congrArg (fun y : BitVec m => y.getLsbD w) h
    simp only [BitVec.getLsbD_setWidth, BitVec.getLsbD_signExtend] at hbit
    have hout : x.getLsbD w = false := BitVec.getLsbD_of_ge x w le_rfl
    have hlt : w < m := by omega
    simp [hmsb, hout, hlt, hn] at hbit
  · intro h
    rcases h with hpos | hm
    · have hmsb : x.msb = false := by
        rw [BitVec.msb_eq_toInt, decide_eq_false_iff_not]
        omega
      rw [BitVec.signExtend_eq_setWidth_of_msb_false hmsb]
      apply BitVec.eq_of_toNat_eq
      rw [BitVec.toNat_setWidth, BitVec.toNat_setWidth, BitVec.toNat_setWidth]
      have hx : x.toNat < 2 ^ n := lt_trans x.isLt (Nat.pow_lt_pow_right (by omega) hn)
      rw [Nat.mod_eq_of_lt hx]
    · apply BitVec.eq_of_getLsbD_eq
      intro i hi
      have hin : i < n := by omega
      have hiw : i < w := by omega
      simp only [BitVec.getLsbD_setWidth, BitVec.getLsbD_signExtend, hi, hin, hiw, decide_true,
        Bool.true_and, if_true]

/-! ### The methods -/

variable (M : Words)

theorem fromIntegral_intType (t : NumType) (i : BitVec 32) :
    fromIntegral M intType t i = fromInt t i ↔
      t.signed = true ∨ 0 ≤ i.toInt ∨ t.width ≤ 32 := by
  have hM := M.min
  unfold fromIntegral fromInteger toInteger fromInt convWord intType
  cases t.signed with
  | true => simpa using signExtend_signExtend_wide i (show 32 ≤ M.bitsMax by omega)
  | false => simpa using signExtend_setWidth_iff (show 32 < M.bitsMax by omega) i

theorem fromIntegral_toInt (t : NumType) (x : BitVec t.width) :
    fromIntegral M t intType x = toInt t x := by
  have hM := M.min
  unfold fromIntegral fromInteger toInteger toInt convWord intType
  cases t.signed with
  | true => exact signExtend_signExtend x (show 32 ≤ M.bitsMax by omega)
  | false => exact setWidth_signExtend_of_le x (show 32 ≤ M.bitsMax by omega)

theorem toInteger_integerType (x : BitVec M.bitsMax) : toInteger M (integerType M) x = x := by
  simp [toInteger, convWord, integerType]

theorem fromInteger_integerType (x : BitVec M.bitsMax) : fromInteger M (integerType M) x = x := by
  simp [fromInteger, convWord, integerType]

theorem toInt_intType (x : BitVec 32) : toInt intType x = x := by
  simp [toInt, convWord, intType]

theorem intConvert_iff (t : NumType) (i : ℤ) :
    intConvert M t i = fromInteger M t (BitVec.ofInt M.bitsMax i) ↔
      |i| > integer_cutoff ∨ t.signed = true ∨ 0 ≤ i ∨ t.width ≤ 32 := by
  unfold intConvert
  by_cases hbig : |i| > integer_cutoff
  · simp [hbig]
  · -- a small literal has the same value as an `Int` and as an `Integer`
    have hsmall : -500000000 ≤ i ∧ i ≤ 500000000 := abs_le.1 (not_lt.1 hbig)
    have hint : (BitVec.ofInt 32 i).toInt = i :=
      BitVec.toInt_ofInt_eq_self (by omega) (by omega) (by omega)
    have hinteger : toInteger M intType (BitVec.ofInt 32 i) = BitVec.ofInt M.bitsMax i := by
      change BitVec.ofInt M.bitsMax (BitVec.ofInt 32 i).toInt = _
      rw [hint]
    have hlit := fromIntegral_intType M t (BitVec.ofInt 32 i)
    unfold fromIntegral at hlit
    rw [hinteger, hint] at hlit
    rw [if_neg hbig, eq_comm, hlit]
    simp [hbig]

/-- Each rule for `fromIntegral`, and the choice of a method for a literal, keep the value of
`fromInteger . toInteger`, but for `fromInt` of a negative number at a wider unsigned type. -/
theorem numeric_conversions_iff (s t : NumType) :
    (∀ i : BitVec 32, fromInt t i = fromInteger M t (toInteger M intType i) ↔
      t.signed = true ∨ 0 ≤ i.toInt ∨ t.width ≤ 32) ∧
    (∀ x, toInt s x = fromInteger M intType (toInteger M s x)) ∧
    -- the rules "Int", "Integer", "toInt", "fromInt", "toInteger" and "fromInteger"
    (∀ x, fromIntegral M intType intType x = x) ∧
    (∀ x, fromIntegral M (integerType M) (integerType M) x = x) ∧
    (∀ x, fromIntegral M s intType x = toInt s x) ∧
    (∀ i, fromIntegral M intType t i = fromInt t i ↔
      t.signed = true ∨ 0 ≤ i.toInt ∨ t.width ≤ 32) ∧
    (∀ x, fromIntegral M s (integerType M) x = toInteger M s x) ∧
    (∀ x, fromIntegral M (integerType M) t x = fromInteger M t x) ∧
    (∀ i : ℤ, intConvert M t i = fromInteger M t (BitVec.ofInt M.bitsMax i) ↔
      |i| > integer_cutoff ∨ t.signed = true ∨ 0 ≤ i ∨ t.width ≤ 32) := by
  refine ⟨fun i => ?_, fun x => (fromIntegral_toInt M s x).symm, fun x => ?_, fun x => ?_,
    fromIntegral_toInt M s, fromIntegral_intType M t, fun x => ?_, fun x => ?_,
    intConvert_iff M t⟩
  · rw [eq_comm]
    exact fromIntegral_intType M t i
  · rw [fromIntegral_toInt, toInt_intType]
  · unfold fromIntegral
    rw [toInteger_integerType, fromInteger_integerType]
  · unfold fromIntegral
    rw [fromInteger_integerType]
  · unfold fromIntegral
    rw [toInteger_integerType]

/-- `fromIntegral (-1 :: Int) :: Word64`, and the pattern `-1` at `Word64`. -/
theorem fromInt_loses_sign :
    let M : Words := { bitsMax := 64, min := le_rfl }
    let word64 : NumType := { width := 64, signed := false }
    fromInt word64 (-1) = 4294967295#64 ∧
      fromInteger M word64 (toInteger M intType (-1)) = 18446744073709551615#64 ∧
      intConvert M word64 (-1) = 4294967295#64 ∧
      fromInteger M word64 (BitVec.ofInt 64 (-1)) = 18446744073709551615#64 := by
  decide

end Jhc.Inst

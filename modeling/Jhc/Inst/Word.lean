import Mathlib.Algebra.Order.Ring.Int
import Mathlib.Data.BitVec
import Mathlib.Tactic.Ring

/-!
# Words and the integers they stand for
-/

namespace Jhc.Inst

def readWord (signed : Bool) {w : ℕ} (x : BitVec w) : ℤ := if signed then x.toInt else x.toNat

def least (signed : Bool) (w : ℕ) : ℤ := if signed then -(2 ^ w / 2) else 0

def greatest (signed : Bool) (w : ℕ) : ℤ := least signed w + (2 ^ w - 1)

/-- The integers that have a word of their own. -/
def Representable (signed : Bool) (w : ℕ) (a : ℤ) : Prop :=
  least signed w ≤ a ∧ a ≤ greatest signed w

instance (signed : Bool) (w : ℕ) (a : ℤ) : Decidable (Representable signed w a) :=
  inferInstanceAs (Decidable (_ ∧ _))

variable {s : Bool} {w : ℕ}

/-- Half of the words, apart from the word without bits. -/
theorem two_pow_cases (w : ℕ) : w = 0 ∨ (2 : ℤ) ^ w = 2 * (2 ^ w / 2) := by
  cases w with
  | zero => exact .inl rfl
  | succ w =>
    right
    rw [pow_succ]
    omega

theorem representable_readWord (x : BitVec w) : Representable s w (readWord s x) := by
  unfold Representable greatest least readWord
  cases s with
  | false =>
    have h : ((x.toNat : ℕ) : ℤ) < 2 ^ w := by exact_mod_cast x.isLt
    simp only [Bool.false_eq_true, if_false]
    omega
  | true =>
    have hlt := BitVec.two_mul_toInt_lt (x := x)
    have hle := BitVec.le_two_mul_toInt (x := x)
    simp only [if_true]
    obtain rfl | h := two_pow_cases w
    · simp at hlt hle ⊢
      omega
    · omega

theorem ofInt_readWord (x : BitVec w) : BitVec.ofInt w (readWord s x) = x := by
  unfold readWord
  cases s with
  | false => simp
  | true => simp

theorem readWord_injective : Function.Injective (readWord s (w := w)) :=
  Function.LeftInverse.injective ofInt_readWord

theorem readWord_ofInt {a : ℤ} (h : Representable s w a) : readWord s (BitVec.ofInt w a) = a := by
  unfold Representable greatest least at h
  unfold readWord
  cases s with
  | false =>
    simp only [Bool.false_eq_true, if_false] at h ⊢
    have hpow : ((2 ^ w : ℕ) : ℤ) = 2 ^ w := by push_cast; rfl
    rw [BitVec.toNat_ofInt, hpow, Int.emod_eq_of_lt h.1 (by omega), Int.toNat_of_nonneg h.1]
  | true =>
    simp only [if_true] at h ⊢
    obtain rfl | hw := two_pow_cases w
    · simp at h ⊢
      omega
    · rw [BitVec.toInt_ofInt]
      exact Int.bmod_eq_of_le_mul_two (by push_cast; omega) (by push_cast; omega)

/-- What is read of an integer is off by a multiple of the number of words. -/
theorem readWord_ofInt_add {a k : ℤ} (h : Representable s w (a + k * 2 ^ w)) :
    readWord s (BitVec.ofInt w a) = a + k * 2 ^ w := by
  have hword : BitVec.ofInt w a = BitVec.ofInt w (a + k * 2 ^ w) := by
    apply BitVec.eq_of_toInt_eq
    have hpow : ((2 ^ w : ℕ) : ℤ) = 2 ^ w := by push_cast; rfl
    rw [BitVec.toInt_ofInt, BitVec.toInt_ofInt, ← hpow, Int.add_mul_bmod_self_right]
  rw [hword, readWord_ofInt h]

theorem readWord_intMin (w : ℕ) : readWord true (BitVec.intMin w) = least true w := by
  cases w with
  | zero => rfl
  | succ w =>
    simp only [readWord, least, if_true]
    rw [BitVec.toInt_intMin_of_pos (by omega), Nat.add_sub_cancel, pow_succ]
    omega

theorem readWord_intMax (w : ℕ) : readWord true (BitVec.intMax w) = greatest true w := by
  cases w with
  | zero => rfl
  | succ w =>
    have hpow : (2 : ℤ) ^ (w + 1) = 2 * 2 ^ w := by ring
    have hpos : (0 : ℤ) < 2 ^ w := pow_pos two_pos w
    have hrep : Representable true (w + 1) (2 ^ w - 1) := by
      simp only [Representable, greatest, least, if_true]
      omega
    have hcast : (((2 ^ w - 1 : ℕ) : ℕ) : ℤ) = 2 ^ w - 1 := by
      push_cast [Nat.cast_sub Nat.one_le_two_pow]
      rfl
    have hword : BitVec.intMax (w + 1) = BitVec.ofInt (w + 1) (2 ^ w - 1) := by
      rw [← hcast, BitVec.ofInt_natCast]
      apply BitVec.eq_of_toNat_eq
      rw [BitVec.toNat_intMax, BitVec.toNat_ofNat, Nat.add_sub_cancel, Nat.mod_eq_of_lt]
      exact lt_of_le_of_lt (Nat.sub_le _ _) (Nat.pow_lt_pow_succ Nat.one_lt_two)
    rw [hword, readWord_ofInt hrep]
    simp only [greatest, least, if_true]
    omega

theorem readWord_allOnes (w : ℕ) : readWord false (BitVec.allOnes w) = greatest false w := by
  have hpos : 1 ≤ 2 ^ w := Nat.one_le_two_pow
  simp only [readWord, greatest, least, BitVec.toNat_allOnes, Bool.false_eq_true, if_false]
  push_cast [Nat.cast_sub hpos]
  omega

theorem iterate_add {a e : BitVec w} {v d : ℤ} (ha : BitVec.ofInt w v = a)
    (he : BitVec.ofInt w d = e) (i : ℕ) : (· + e)^[i] a = BitVec.ofInt w (v + i * d) := by
  induction i generalizing a v with
  | zero => simp [ha]
  | succ i ih =>
    have hstep : BitVec.ofInt w (v + d) = a + e := by rw [BitVec.ofInt_add, ha, he]
    rw [Function.iterate_succ_apply, ih hstep]
    push_cast
    congr 1
    ring

end Jhc.Inst

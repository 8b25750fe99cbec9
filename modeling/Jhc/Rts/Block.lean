import Mathlib

/-!
# Blocks and bit arrays (rts/gc_jgc_internal.h, sys/bitarray.h)

The header of a block of the collected heap, the bit array `used` at its end
and the constants that the C sources share. A `Target` fixes what the C
compiler fixes: the width of a machine word and the block sizes.
-/

namespace Jhc.Rts

abbrev Addr := ℕ

/-! ### Flags (rts/constants.h) -/

def SLAB_FLAG_NONE : ℕ := 0
def SLAB_FLAG_FINALIZER : ℕ := 1
def SLAB_MONOLITH : ℕ := 16

def hasFlag (flags f : ℕ) : Bool := flags &&& f != 0

/-! ### Target: BLOCK_SIZE, MEGABLOCK_SIZE (gc_jgc.h:22-27), BITS_PER_UNIT and the
BITARRAY sizes (bitarray.h:9-11) -/

/-- What the C compiler and the build flags fix: `sizeof(uintptr_t)`, which is
also `sizeof(bitarray_t)`, `_JHC_JGC_BLOCK_SHIFT` and `_JHC_JGC_MEGABLOCK_SHIFT`. -/
structure Target where
  wordBytes : ℕ
  blockShift : ℕ
  megablockShift : ℕ
  word_pos : 0 < wordBytes
  word_dvd : 4 ∣ wordBytes
  shift_pos : 2 ≤ blockShift
  shift_lt : blockShift < megablockShift

namespace Target

def lp64 : Target := ⟨8, 12, 20, by decide, by decide, by decide, by decide⟩

def ilp32 : Target := ⟨4, 12, 20, by decide, by decide, by decide, by decide⟩

variable (T : Target)

def bitsPerUnit : ℕ := 8 * T.wordBytes

def blockSize : ℕ := 2 ^ T.blockShift

def megablockSize : ℕ := 2 ^ T.megablockShift

def align (a n : ℕ) : ℕ := (n + (a - 1)) / a * a

/-- `sizeof(struct s_block)`: the link, two bytes, the eight bytes of the union
aligned to four, then the alignment of the flexible array `used`. -/
def headerBytes : ℕ := align T.wordBytes (align 4 (T.wordBytes + 2) + 8)

def bitarraySize (bits : ℕ) : ℕ := (bits + (T.bitsPerUnit - 1)) / T.bitsPerUnit

def bitarrayBytes (bits : ℕ) : ℕ := T.wordBytes * T.bitarraySize bits

theorem bitsPerUnit_pos : 0 < T.bitsPerUnit := by
  have h := T.word_pos
  unfold bitsPerUnit
  omega

theorem one_ne_zero : 1#T.bitsPerUnit ≠ 0#T.bitsPerUnit := by
  have hw := T.bitsPerUnit_pos
  intro heq
  have hbit := congrArg (fun v => v.getLsbD 0) heq
  simp [hw] at hbit

theorem blockSize_pos : 0 < T.blockSize := Nat.two_pow_pos _

theorem bitarraySize_spec (n : ℕ) (hn : 0 < n) :
    T.bitsPerUnit * (T.bitarraySize n - 1) < n ∧ n ≤ T.bitsPerUnit * T.bitarraySize n ∧
      0 < T.bitarraySize n := by
  have hw := T.bitsPerUnit_pos
  unfold bitarraySize
  generalize T.bitsPerUnit = w at *
  have hdiv := Nat.div_add_mod (n + (w - 1)) w
  have hmod := Nat.mod_lt (n + (w - 1)) hw
  have hpos : 0 < (n + (w - 1)) / w := Nat.div_pos (by omega) hw
  refine ⟨?_, by omega, hpos⟩
  rw [Nat.mul_sub]
  omega

theorem bitarraySize_last (n : ℕ) (hn : n % T.bitsPerUnit ≠ 0) :
    T.bitsPerUnit * (T.bitarraySize n - 1) + n % T.bitsPerUnit = n := by
  have hw := T.bitsPerUnit_pos
  have hn0 : 0 < n := by
    rcases Nat.eq_zero_or_pos n with h | h
    · rw [h, Nat.zero_mod] at hn
      exact absurd rfl hn
    · exact h
  obtain ⟨hlo, hhi, hpos⟩ := T.bitarraySize_spec n hn0
  have hdiv := Nat.div_add_mod n T.bitsPerUnit
  have hmod := Nat.mod_lt n hw
  have hq : T.bitarraySize n - 1 = n / T.bitsPerUnit := by
    symm
    rw [Nat.div_eq_iff hw]
    have hlast : T.bitsPerUnit * T.bitarraySize n =
        T.bitsPerUnit * (T.bitarraySize n - 1) + T.bitsPerUnit := by
      rw [← Nat.mul_succ]
      congr 1
      omega
    have hne : n ≠ T.bitsPerUnit * T.bitarraySize n := by
      intro h
      rw [h, Nat.mul_mod_right] at hn
      exact hn rfl
    constructor
    · rw [Nat.mul_comm]
      omega
    · rw [Nat.mul_comm]
      omega
  rw [hq]
  exact hdiv

end Target

/-! ### Bit arrays: BIT_IS_SET, BIT_SET (bitarray.h:19-26) -/

section Bits

variable {w : ℕ}

def bitIsSet (used : ℕ → BitVec w) (i : ℕ) : Bool := (used (i / w)).getLsbD (i % w)

def bitSet (used : ℕ → BitVec w) (i : ℕ) : ℕ → BitVec w :=
  Function.update used (i / w) (used (i / w) ||| 1#w <<< (i % w))

theorem getLsbD_one_shiftLeft {i j : ℕ} (hi : i < w) :
    (1#w <<< i).getLsbD j = decide (j = i) := by
  rw [BitVec.getLsbD_shiftLeft, BitVec.getLsbD_one]
  by_cases hj : j = i
  · subst hj
    simp [hi]
    omega
  · rcases Nat.lt_or_gt_of_ne hj with h | h
    · simp [h, hj]
    · have hne : ¬ j - i = 0 := by omega
      simp [hj, hne]

theorem bitIsSet_bitSet (used : ℕ → BitVec w) (hw : 0 < w) (i j : ℕ) :
    bitIsSet (bitSet used i) j = (decide (j = i) || bitIsSet used j) := by
  have hi := Nat.mod_lt i hw
  unfold bitIsSet bitSet
  by_cases hword : j / w = i / w
  · rw [hword, Function.update_self, BitVec.getLsbD_or, getLsbD_one_shiftLeft hi, Bool.or_comm]
    congr 1
    have hij : j = i ↔ j % w = i % w := by
      constructor
      · intro h
        rw [h]
      · intro h
        rw [← Nat.div_add_mod j w, ← Nat.div_add_mod i w, hword, h]
    simp [hij]
  · rw [Function.update_of_ne hword]
    have hne : j ≠ i := fun h => hword (by rw [h])
    simp [hne]

/-- The word `~((1UL << excess) - 1)`: the bits from `excess` on. -/
theorem getLsbD_excess {e j : ℕ} (he : e < w) (hj : j < w) :
    (~~~(1#w <<< e - 1#w)).getLsbD j = decide (e ≤ j) := by
  have hone : (1#w <<< e - 1#w).toNat = 2 ^ e - 1 := by
    have hpow : 2 ^ e < 2 ^ w := Nat.pow_lt_pow_right (by omega) he
    have hpos := Nat.two_pow_pos e
    have h1 : 1 % 2 ^ w = 1 := Nat.mod_eq_of_lt (by omega)
    rw [BitVec.toNat_sub, BitVec.toNat_shiftLeft, BitVec.toNat_ofNat, h1, Nat.shiftLeft_eq,
      Nat.one_mul, Nat.mod_eq_of_lt hpow]
    have hsum : 2 ^ w - 1 + 2 ^ e = 2 ^ e - 1 + 2 ^ w := by omega
    rw [hsum, Nat.add_mod_right, Nat.mod_eq_of_lt (by omega)]
  rw [BitVec.getLsbD_not, BitVec.getLsbD, hone, Nat.testBit_two_pow_sub_one]
  by_cases hej : e ≤ j
  · have hlt : ¬ j < e := by omega
    simp [hj, hej, hlt]
  · have hlt : j < e := by omega
    simp [hej, hlt]

end Bits

/-! ### Block headers (gc_jgc_internal.h:28-46) -/

inductive BlockU where
  | pi (numPtrs size numFree nextFree : ℕ)
  | m (numPtrs : ℕ)
  deriving DecidableEq, Repr

/-- `struct s_block` without its link: `flags`, `color`, `u` and `used`. -/
structure SBlock (w : ℕ) where
  flags : ℕ
  color : ℕ
  u : BlockU
  used : ℕ → BitVec w

namespace BlockU

def numPtrs : BlockU → ℕ
  | .pi p _ _ _ => p
  | .m p => p

/-- `u.pi.size`. In a monolithic block it overlays the second byte of
`u.m.num_ptrs` (little endian). -/
def size : BlockU → ℕ
  | .pi _ s _ _ => s
  | .m p => p / 256 % 256

def numFree : BlockU → ℕ
  | .pi _ _ f _ => f
  | .m p => p / 65536 % 65536

/-- `u.pi.next_free` lies beyond `u.m`, so a monolithic block has none. -/
def nextFree : BlockU → ℕ
  | .pi _ _ _ x => x
  | .m _ => 0

def setNumFree : BlockU → ℕ → BlockU
  | .pi p s _ x, n => .pi p s n x
  | .m p, n => .m (p % 65536 + 65536 * n)

def setNextFree : BlockU → ℕ → BlockU
  | .pi p s f _, x => .pi p s f x
  | .m p, _ => .m p

end BlockU

end Jhc.Rts

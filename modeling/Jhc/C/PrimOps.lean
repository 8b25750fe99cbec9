import Mathlib.Data.Int.ModEq
import Mathlib.Algebra.Order.Ring.Int
import Jhc.Cmm.Op

/-!
# The C operations for the integer operators (C/FromGrin2.hs:733-775, Cmm/Op.hs:342-362)

The C operator that the code generator takes for a binary operator, whether it casts
the operands to the signed type, and what the C operator computes. An operand is any
number that stands for the bits of the word; C reads it by the type of the operand.
-/

namespace Jhc.C
open Jhc.Cmm

/-! ### primBinOp (FromGrin2.hs:733-768) -/

inductive COperator where
  | div | mul | mod | sub | add | shr | shl | and | xor | or | ge | gt | le | lt | eq | ne
  deriving DecidableEq, Repr

def binopInfix : BinOp → Option COperator
  | .uDiv => some .div
  | .mul => some .mul
  | .uMod => some .mod
  | .sub => some .sub
  | .add => some .add
  | .shr => some .shr
  | .shl => some .shl
  | .and => some .and
  | .xor => some .xor
  | .or => some .or
  | .uGte => some .ge
  | .uGt => some .gt
  | .uLte => some .le
  | .uLt => some .lt
  | .eq => some .eq
  | .nEq => some .ne
  | _ => none

/-- `signedOps` -/
def binopSigned : BinOp → Option COperator
  | .quot => some .div
  | .rem => some .mod
  | .shra => some .shr
  | .gt => some .gt
  | .lt => some .lt
  | .gte => some .ge
  | .lte => some .le
  | _ => none

/-- The operator and whether the operands are cast to the signed type; `none` where the
generator has no operation on integers. -/
def primBinOp (n : BinOp) : Option (Bool × COperator) :=
  match binopInfix n with
  | some o => some (false, o)
  | none => (binopSigned n).map fun o => (true, o)

/-! ### Widths -/

/-- The widths of the types that depend on the machine. -/
structure Target where
  bitsMax : ℕ
  bitsPtr : ℕ
  two_le_max : 2 ≤ bitsMax
  two_le_ptr : 2 ≤ bitsPtr

/-- The width of an integer type; `stdint.h` has those of 8, 16, 32 and 64 bits. -/
def Target.width (g : Target) : Ty → Option ℕ
  | .tyBits (.bits n) .hintNone => if n = 8 ∨ n = 16 ∨ n = 32 ∨ n = 64 then some n else none
  | .tyBits (.bitsArch .bitsMax) .hintNone => some g.bitsMax
  | .tyBits (.bitsArch .bitsPtr) .hintNone => some g.bitsPtr
  | _ => none

theorem Target.two_le_width {g : Target} {t : Ty} {w : ℕ} (h : g.width t = some w) : 2 ≤ w := by
  unfold Target.width at h
  split at h
  · split at h
    · cases h
      omega
    · cases h
  · cases h
    exact g.two_le_max
  · cases h
    exact g.two_le_ptr
  · cases h

/-! ### What C computes -/

/-- The number that a word holds, as a signed or an unsigned type. -/
def readC (signed : Bool) (w : ℕ) (a : ℤ) : ℤ := if signed then a.bmod (2 ^ w) else a % 2 ^ w

/-- The operands of a narrow type are promoted to `int`. -/
def shiftLimit (w : ℕ) : ℕ := max w 32

/-- `none` where C leaves the result undefined: a division by zero, the quotient of the
smallest number and `-1` unless `int` holds it, a shift that is too far. -/
def COperator.eval (w : ℕ) (x y : ℤ) : COperator → Option ℤ
  | div => if y = 0 ∨ (32 ≤ w ∧ x = -2 ^ (w - 1) ∧ y = -1) then none else some (x.tdiv y)
  | mod => if y = 0 ∨ (32 ≤ w ∧ x = -2 ^ (w - 1) ∧ y = -1) then none else some (x.tmod y)
  | mul => some (x * y)
  | sub => some (x - y)
  | add => some (x + y)
  | shr => if 0 ≤ y ∧ y < shiftLimit w then some (x / 2 ^ y.toNat) else none
  | shl => if 0 ≤ y ∧ y < shiftLimit w then some (x * 2 ^ y.toNat) else none
  | and => some (BitVec.ofInt w x &&& BitVec.ofInt w y).toInt
  | xor => some (BitVec.ofInt w x ^^^ BitVec.ofInt w y).toInt
  | or => some (BitVec.ofInt w x ||| BitVec.ofInt w y).toInt
  | ge => some (if x ≥ y then 1 else 0)
  | gt => some (if x > y then 1 else 0)
  | le => some (if x ≤ y then 1 else 0)
  | lt => some (if x < y then 1 else 0)
  | eq => some (if x = y then 1 else 0)
  | ne => some (if x ≠ y then 1 else 0)

/-- The C operation for a binary operator on operands of the types `ta` and `tb`. -/
def evalBinOp (g : Target) (n : BinOp) (ta tb : Ty) (a b : ℤ) : Option ℤ := do
  let (signed, o) ← primBinOp n
  let wa ← g.width ta
  let wb ← g.width tb
  o.eval wa (readC signed wa a) (readC signed wb b)

/-- The C operation for a unary operator: `-` on the signed type. -/
def evalUnOp (g : Target) (n : UnOp) (ta : Ty) (a : ℤ) : Option ℤ := do
  let w ← g.width ta
  match n with
  | .neg => if 32 ≤ w ∧ readC true w a = -2 ^ (w - 1) then none else some (-readC true w a)
  | .com => some (-readC false w a - 1)
  | _ => none

/-! ### Words -/

/-- Two numbers stand for the same word. -/
def SameWord (w : ℕ) (a b : ℤ) : Prop := a % 2 ^ w = b % 2 ^ w

attribute [local grind =] COperator.eval

theorem readC_word (signed : Bool) (w : ℕ) (a : ℤ) : SameWord w (readC signed w a) a := by
  unfold SameWord readC
  split
  · have h := Int.bmod_emod (x := a) (m := 2 ^ w)
    push_cast at h
    exact h
  · exact Int.emod_emod_of_dvd a (dvd_refl _)

theorem bmod_congr {w : ℕ} {a b : ℤ} (h : SameWord w a b) : a.bmod (2 ^ w) = b.bmod (2 ^ w) := by
  have hmod : a % ((2 ^ w : ℕ) : ℤ) = b % ((2 ^ w : ℕ) : ℤ) := by
    push_cast
    exact h
  unfold Int.bmod
  rw [hmod]

theorem readC_congr (signed : Bool) {w : ℕ} {a b : ℤ} (h : SameWord w a b) : readC signed w a = readC signed w b := by
  unfold SameWord at h
  unfold readC
  split
  · exact bmod_congr h
  · exact h

theorem SameWord.add {w : ℕ} {a b c d : ℤ} (h : SameWord w a c) (h' : SameWord w b d) : SameWord w (a + b) (c + d) :=
  Int.ModEq.add h h'

theorem SameWord.sub {w : ℕ} {a b c d : ℤ} (h : SameWord w a c) (h' : SameWord w b d) : SameWord w (a - b) (c - d) :=
  Int.ModEq.sub h h'

theorem SameWord.mul {w : ℕ} {a b c d : ℤ} (h : SameWord w a c) (h' : SameWord w b d) : SameWord w (a * b) (c * d) :=
  Int.ModEq.mul h h'

theorem SameWord.neg {w : ℕ} {a b : ℤ} (h : SameWord w a b) : SameWord w (-a) (-b) :=
  Int.ModEq.neg h

theorem SameWord.trans {w : ℕ} {a b c : ℤ} (h : SameWord w a b) (h' : SameWord w b c) : SameWord w a c :=
  Eq.trans h h'

theorem SameWord.symm {w : ℕ} {a b : ℤ} (h : SameWord w a b) : SameWord w b a :=
  Eq.symm h

theorem sameWord_rfl {w : ℕ} {a : ℤ} : SameWord w a a := rfl

theorem ofInt_readC (signed : Bool) (w : ℕ) (a : ℤ) : BitVec.ofInt w (readC signed w a) = BitVec.ofInt w a := by
  apply BitVec.eq_of_toInt_eq
  rw [BitVec.toInt_ofInt, BitVec.toInt_ofInt]
  exact bmod_congr (readC_word signed w a)

theorem toInt_ofInt_word (w : ℕ) (a : ℤ) : SameWord w (BitVec.ofInt w a).toInt a := by
  rw [BitVec.toInt_ofInt]
  have h := Int.bmod_emod (x := a) (m := 2 ^ w)
  push_cast at h
  exact h

end Jhc.C

import Mathlib.Tactic.Common
import Mathlib.Data.BitVec
import Jhc.Grin.TyEnv

/-!
# Representations of nodes (C/FromGrin2.hs:55-115, 840-882)

How the nodes of a tag are stored, and when a node is a word and not a pointer to memory.
-/

namespace Jhc.C
open Jhc.Grin (Atom Tag TyTy TyEnv Val tagIsSuspFunction cChar cWord cInt)

inductive TyRep where
  | tyRepRawTag
  | tyRepUntagged
  | tyRepRawVal (signed : Bool)
  deriving DecidableEq, Repr

/-- An unboxed value that fits into a word with its tag bits. -/
def good : Grin.Ty → Bool
  | .tyPrim (.tyBits (.bits b) h) => decide (b ≤ 30) && h == .hintNone
  | _ => false

def triv (tmap : TyEnv) (x : Atom) : Bool :=
  match tmap.lookup x with
  | some t => t.tySlots.isEmpty
  | none => false

def rawSlot (k : Atom) (tyty : TyTy) : Bool :=
  match tyty.tySlots, tyty.tySiblings with
  | [s], some [k'] => k == k' && good s
  | _, _ => false

/-- `fullInt` is the flag of that name. -/
def tyRep (fullInt : Bool) (tmap : TyEnv) (k : Atom) (tyty : TyTy) : Option TyRep :=
  if k = cChar then some (.tyRepRawVal false)
  else if !fullInt ∧ k = cWord then some (.tyRepRawVal false)
  else if !fullInt ∧ k = cInt then some (.tyRepRawVal true)
  else if rawSlot k tyty then some (.tyRepRawVal false)
  else if tyty.tySlots = [] then some .tyRepRawTag
  else match tyty.tySiblings with
    | some xs => if (xs.filter (· ≠ k)).all (triv tmap) then some .tyRepUntagged else none
    | none => none

/-- `rCPR` -/
def cpr (fullInt : Bool) (tmap : TyEnv) (k : Atom) : Option TyRep :=
  (tmap.lookup k).bind (tyRep fullInt tmap k)

/-- A node that needs no memory. -/
inductive Basic where
  | setRawTag (t : Tag)
  | rawSet (signed : Bool) (v : Val)

def basicNode (fullInt : Bool) (tmap : TyEnv) (a : Atom) (vs : List Val) : Option Basic :=
  if tagIsSuspFunction a then none
  else match vs with
    | [] => some (.setRawTag a)
    | [v] =>
      match cpr fullInt tmap a with
      | some (.tyRepRawVal signed) => some (.rawSet signed v)
      | _ => none
    | _ => none

attribute [local grind =] basicNode

end Jhc.C

/-!
# Tagged words (rts/jhc_rts.h:33-66)

A node is a pointer, whose two low bits are clear, or a word that holds a tag or an
unboxed value above its two low bits. `w` is the width of `uintptr_t`.
-/

namespace Jhc.C
variable {w : ℕ}

def P_VALUE : BitVec w := 2#w

def IS_PTR (x : BitVec w) : Bool := x &&& 2#w == 0#w

def RAW_SET_F (n : BitVec w) : BitVec w := n <<< 2 ||| P_VALUE
def RAW_SET_UF (n : BitVec w) : BitVec w := n <<< 2 ||| P_VALUE

def RAW_SET_16 (n : BitVec w) : BitVec w := n <<< 16 ||| P_VALUE
def RAW_GET_U16 (n : BitVec w) : BitVec w := n >>> 16

def SET_RAW_TAG (x : BitVec w) : BitVec w := RAW_SET_16 x

/-- `mem` is the first word of a node in memory. -/
def FETCH_MEM_TAG (mem : BitVec w → BitVec w) (x : BitVec w) : BitVec w := mem x

def FETCH_TAG (mem : BitVec w → BitVec w) (x : BitVec w) : BitVec w :=
  RAW_GET_U16 (if IS_PTR x then FETCH_MEM_TAG mem x else x)

/-- The word that `SET_MEM_TAG` stores. -/
def SET_MEM_TAG (v : BitVec w) : BitVec w := RAW_SET_16 v

theorem isPtr_value (hw : 2 ≤ w) (x : BitVec w) : IS_PTR (x ||| P_VALUE) = false := by
  unfold IS_PTR P_VALUE
  rw [beq_eq_false_iff_ne]
  intro h
  have hbit := congrArg (fun y : BitVec w => y.getLsbD 1) h
  have htwo : (2#w).getLsbD 1 = true := by
    rw [BitVec.getLsbD_ofNat]
    simp only [Bool.and_eq_true, decide_eq_true_eq]
    exact ⟨by omega, by decide⟩
  simp [htwo] at hbit

theorem isPtr_aligned {x : BitVec w} (h : x &&& 3#w = 0#w) : IS_PTR x = true := by
  have hmask : (2#w) = 3#w &&& 2#w := BitVec.ofNat_and (x := 3) (y := 2)
  unfold IS_PTR
  rw [beq_iff_eq, hmask, ← BitVec.and_assoc, h, BitVec.zero_and]

/-- A tag that has room above the low bits is read back. -/
theorem get_set_16 {n : ℕ} (hw : 18 ≤ w) (hn : n < 2 ^ (w - 16)) :
    RAW_GET_U16 (RAW_SET_16 (BitVec.ofNat w n)) = BitVec.ofNat w n := by
  have hsplit : 2 ^ w = 2 ^ (w - 16) * 2 ^ 16 := by
    rw [← Nat.pow_add]
    congr 1
    omega
  have hshift : n * 2 ^ 16 < 2 ^ w := by
    rw [hsplit]
    exact Nat.mul_lt_mul_of_pos_right hn (by decide)
  have hnw : n < 2 ^ w := by omega
  have htwo : 2 < 2 ^ w := by
    calc 2 < 2 ^ 18 := by decide
      _ ≤ 2 ^ w := Nat.pow_le_pow_right (by decide) hw
  apply BitVec.eq_of_toNat_eq
  unfold RAW_GET_U16 RAW_SET_16 P_VALUE
  rw [BitVec.toNat_ushiftRight, BitVec.toNat_or, BitVec.toNat_shiftLeft, BitVec.toNat_ofNat, BitVec.toNat_ofNat,
    Nat.mod_eq_of_lt hnw, Nat.shiftLeft_eq, Nat.mod_eq_of_lt hshift, Nat.mod_eq_of_lt htwo,
    Nat.shiftRight_or_distrib, Nat.shiftRight_eq_div_pow, Nat.mul_div_cancel _ (by decide)]
  exact Nat.or_zero n

/-- An unboxed value can have any number where a tag would be. -/
theorem raw_set_uf_16 (n : ℕ) : RAW_SET_UF (BitVec.ofNat w (n * 2 ^ 14)) = RAW_SET_16 (BitVec.ofNat w n) := by
  have hshift : BitVec.ofNat w (n * 2 ^ 14) <<< 2 = BitVec.ofNat w n <<< 16 := by
    apply BitVec.eq_of_toNat_eq
    rw [BitVec.toNat_shiftLeft, BitVec.toNat_shiftLeft, BitVec.toNat_ofNat, BitVec.toNat_ofNat, Nat.shiftLeft_eq,
      Nat.shiftLeft_eq, Nat.mul_mod, Nat.mod_mod, ← Nat.mul_mod, Nat.mul_assoc, ← Nat.pow_add, Nat.mul_mod (n % 2 ^ w), Nat.mod_mod, ← Nat.mul_mod]
  unfold RAW_SET_UF RAW_SET_16
  rw [hshift]

end Jhc.C

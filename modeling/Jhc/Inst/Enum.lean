import Jhc.Inst.Word
import Jhc.Lib.Progression

/-!
# Enumerations of machine integers (lib/jhc/Jhc/Enum.m4, Jhc/Enum.hs:38-58)

The comparisons, the values and the bounds of a type come from three lists of
instances, each with a signedness of its own.
-/

namespace Jhc.Inst
open Jhc.Lib

/-- A type of words with the signedness of its `Ord`, `Integral` and `Bounded` instances. -/
structure IntType where
  width : ℕ
  signedOrder : Bool
  signedValue : Bool
  signedBounds : Bool

/-- `Int` and the types of `ENUMINST`. -/
inductive EnumInst where
  | int
  | word | word8 | word16 | word32 | word64 | wordPtr | wordMax
  | int8 | int16 | int32 | int64 | intPtr | intMax | integer
  | cChar | cSChar | cUChar | cSize | cInt | cUInt | cWchar | cLong | cULong
  deriving DecidableEq, Repr

namespace EnumInst

/-- `INST_EQORDER` without a `U` (Jhc/Order.hs:60-62, Jhc/Inst/Order.hs). -/
def signedOrder : EnumInst → Bool
  | word | word8 | word16 | word32 | word64 | wordPtr | wordMax | cULong => false
  | _ => true

/-- `SIGNED` (Jhc/Inst/Num.hs). -/
def signedValue : EnumInst → Bool
  | word | word8 | word16 | word32 | word64 | wordPtr | wordMax => false
  | cUChar | cULong | cUInt | cWchar => false
  | _ => true

/-- `BOUNDED` (Jhc/Enum.hs, Jhc/Inst/Enum.hs). -/
def signedBounds : EnumInst → Bool
  | word | word8 | word16 | word32 | word64 | wordPtr | wordMax => false
  | cUChar | cUInt | cWchar | cULong => false
  | _ => true

def type (i : EnumInst) (w : ℕ) : IntType :=
  { width := w
    signedOrder := i.signedOrder
    signedValue := i.signedValue
    signedBounds := i.signedBounds }

end EnumInst

namespace IntType

variable (T : IntType)

/-- `toInteger`. -/
def val (x : BitVec T.width) : ℤ := readWord T.signedValue x

def ord (x : BitVec T.width) : ℤ := readWord T.signedOrder x

def lt (x y : BitVec T.width) : Bool := T.ord x < T.ord y

def lte (x y : BitVec T.width) : Bool := T.ord x ≤ T.ord y

def gt (x y : BitVec T.width) : Bool := T.ord x > T.ord y

def gte (x y : BitVec T.width) : Bool := T.ord x ≥ T.ord y

def maxBound : BitVec T.width :=
  if T.signedBounds then BitVec.intMax T.width else BitVec.allOnes T.width

def minBound : BitVec T.width := if T.signedBounds then BitVec.intMin T.width else 0

/-! ### The methods; no list where there is always one more value to look at -/

def enumFromTo (x y : BitVec T.width) (fuel : ℕ) : Option (List (BitVec T.width)) :=
  walk (fun x => T.gt x y) (fun x => x + 1) fuel x

def enumFromThenTo (x y z : BitVec T.width) (fuel : ℕ) : Option (List (BitVec T.width)) :=
  if T.gte y x then
    let inc := y - x
    walk (fun x => !T.lte x z) (fun x => x + inc) fuel x
  else
    let dec := x - y
    walk (fun x => !T.gte x z) (fun x => x - dec) fuel x

def enumFrom (c : BitVec T.width) (fuel : ℕ) : Option (List (BitVec T.width)) :=
  T.enumFromTo c T.maxBound fuel

def enumFromThen (c c' : BitVec T.width) (fuel : ℕ) : Option (List (BitVec T.width)) :=
  let last := if T.lt c' c then T.minBound else T.maxBound
  T.enumFromThenTo c c' last fuel

/-! ### `instance Enum Int` -/

def intEnumFromTo (x y : BitVec T.width) (fuel : ℕ) : Option (List (BitVec T.width)) :=
  walk (fun x => T.gt x y) (fun x => x + 1) fuel x

def intEnumFromThenTo (x y z : BitVec T.width) (fuel : ℕ) : Option (List (BitVec T.width)) :=
  let inc := y - x
  if T.gte y x then walk (fun x => !T.lte x z) (fun x => x + inc) fuel x
  else walk (fun x => !T.gte x z) (fun x => x + inc) fuel x

def intEnumFrom (x : BitVec T.width) (fuel : ℕ) : Option (List (BitVec T.width)) :=
  T.intEnumFromTo x T.maxBound fuel

def intEnumFromThen (c c' : BitVec T.width) (fuel : ℕ) : Option (List (BitVec T.width)) :=
  let lastInt := if T.lt c' c then T.minBound else T.maxBound
  T.intEnumFromThenTo c c' lastInt fuel

/-! ### What the methods should list -/

/-- The list ends, and its values are `x`, `x + d` and so on up to `z`. -/
def Lists (code : ℕ → Option (List (BitVec T.width))) (x d z : ℤ) : Prop :=
  ∃ l, (∃ fuel, code fuel = some l) ∧ Enumerates x d z (l.map T.val)

/-- The test of the loop lets every value of the progression pass and stops at the word after
the last of them. -/
def Follows (stop : BitVec T.width → Bool) (x d z : ℤ) : Prop :=
  (∀ i < steps x d z, stop (BitVec.ofInt T.width (x + i * d)) = false) ∧
    stop (BitVec.ofInt T.width (x + steps x d z * d)) = true

instance (stop : BitVec T.width → Bool) (x d z : ℤ) : Decidable (T.Follows stop x d z) :=
  inferInstanceAs (Decidable (_ ∧ _))

/-- The test of `enumFromThenTo x y z`. -/
def pastEnd (x y z : BitVec T.width) (v : BitVec T.width) : Bool :=
  if T.gte y x then !T.lte v z else !T.gte v z

/-- The three instances agree. -/
def Consistent : Prop := T.signedOrder = T.signedValue ∧ T.signedBounds = T.signedValue

instance : Decidable T.Consistent := inferInstanceAs (Decidable (_ ∧ _))

variable {T}

theorem ofInt_val (x : BitVec T.width) : BitVec.ofInt T.width (T.val x) = x := ofInt_readWord x

theorem representable_val (x : BitVec T.width) : Representable T.signedValue T.width (T.val x) :=
  representable_readWord x

theorem val_ne {x y : BitVec T.width} (h : x ≠ y) : T.val y - T.val x ≠ 0 := by
  intro hv
  have hxy : T.val x = T.val y := by omega
  exact h (readWord_injective hxy)

theorem ofInt_sub_val (x y : BitVec T.width) :
    BitVec.ofInt T.width (T.val y - T.val x) = y - x := by
  rw [Int.sub_eq_add_neg, BitVec.ofInt_add, BitVec.ofInt_neg, ofInt_val, ofInt_val,
    BitVec.sub_eq_add_neg]

/-! ### One loop -/

theorem sub_step_eq {w : ℕ} (x y : BitVec w) : (fun v => v - (x - y)) = fun v => v + (y - x) := by
  funext v
  ring

theorem representable_within {s : Bool} {w : ℕ} {x d z v : ℤ} (hx : Representable s w x)
    (hz : Representable s w z) {i : ℕ} (hv : v = x + i * d) (h : Within d v z) :
    Representable s w v := by
  unfold Within at h
  unfold Representable at *
  split at h
  · have : (i : ℤ) * d ≤ 0 := mul_nonpos_of_nonneg_of_nonpos (by positivity) (by omega)
    omega
  · have : 0 ≤ (i : ℤ) * d := mul_nonneg (by positivity) (by omega)
    omega

/-- A loop that tests as it likes and goes on by `e`. -/
theorem lists_iff (stop : BitVec T.width → Bool) {a e : BitVec T.width} {d z : ℤ} (hd : d ≠ 0)
    (he : BitVec.ofInt T.width d = e) (hz : Representable T.signedValue T.width z) :
    T.Lists (fun fuel => walk stop (· + e) fuel a) (T.val a) d z ↔
      T.Follows stop (T.val a) d z := by
  have hiter : ∀ i, (· + e)^[i] a = BitVec.ofInt T.width (T.val a + i * d) :=
    iterate_add (ofInt_val a) he
  have hval : ∀ i < steps (T.val a) d z, T.val ((· + e)^[i] a) = T.val a + i * d := by
    intro i hi
    rw [hiter]
    exact readWord_ofInt (representable_within (representable_val a) hz rfl
      ((within_iff_lt_steps hd i).2 hi))
  have hwalk := walks_enumerates stop hd hval
  simp only [hiter] at hwalk
  exact hwalk

theorem enumFromTo_lists (x z : BitVec T.width) :
    T.Lists (T.enumFromTo x z) (T.val x) 1 (T.val z) ↔
      T.Follows (fun v => T.gt v z) (T.val x) 1 (T.val z) :=
  lists_iff _ one_ne_zero (by simp) (representable_val z)

theorem enumFromThenTo_lists {x y : BitVec T.width} (h : x ≠ y) (z : BitVec T.width) {e : ℤ}
    (he : Representable T.signedValue T.width e) :
    T.Lists (T.enumFromThenTo x y z) (T.val x) (T.val y - T.val x) e ↔
      T.Follows (T.pastEnd x y z) (T.val x) (T.val y - T.val x) e := by
  have hup := lists_iff (T.pastEnd x y z) (a := x) (val_ne h)
    (ofInt_sub_val x y) he
  have hcode : (fun fuel => walk (T.pastEnd x y z) (· + (y - x)) fuel x) =
      T.enumFromThenTo x y z := by
    funext fuel
    unfold enumFromThenTo pastEnd
    simp only [sub_step_eq]
    split
    · rfl
    · rfl
  rw [← hcode]
  exact hup

/-- The word after the last value is past the end where it stands for the integer after it. -/
theorem within_next_iff {s : Bool} {w : ℕ} {x d z : ℤ} (hx : Representable s w x)
    (hz : Representable s w z) (hd : d ≠ 0) (hle : |d| ≤ 2 ^ w) :
    ¬ Within d (readWord s (BitVec.ofInt w (x + steps x d z * d))) z ↔
      Representable s w (x + steps x d z * d) := by
  have hend : ¬ Within d (x + steps x d z * d) z := by
    rw [within_iff_lt_steps hd]
    exact lt_irrefl _
  constructor
  · intro h
    by_contra hout
    cases hn : steps x d z with
    | zero => exact hout (by simpa [hn] using hx)
    | succ m =>
      have hlast : Within d (x + m * d) z := (within_iff_lt_steps hd m).2 (by omega)
      have hrep : Representable s w (x + m * d) := representable_within hx hz rfl hlast
      have hnext : x + steps x d z * d = x + m * d + d := by
        rw [hn]
        push_cast
        ring
      rw [hnext] at h hout hend
      generalize x + (m : ℤ) * d = v at h hout hend hlast hrep
      obtain ⟨hlo, hhi⟩ := abs_le.1 hle
      unfold Within at hlast hend h
      split at hlast
      · -- downwards: the word is a whole turn above
        have hwrap : Representable s w (v + d + 1 * 2 ^ w) := by
          unfold Representable greatest at *
          omega
        rw [readWord_ofInt_add hwrap, if_pos (by omega)] at h
        unfold Representable greatest at *
        omega
      · have hwrap : Representable s w (v + d + (-1) * 2 ^ w) := by
          unfold Representable greatest at *
          omega
        rw [readWord_ofInt_add hwrap, if_neg (by omega)] at h
        unfold Representable greatest at *
        omega
  · intro h
    rwa [readWord_ofInt h]

/-- Where the ends compare as what they stand for, the loop is right if the integer after the
last value has a word for the comparison. -/
theorem follows_iff {stop : BitVec T.width → Bool} {x z : BitVec T.width} {d : ℤ} (hd : d ≠ 0)
    (hle : |d| ≤ 2 ^ T.width) (hx : T.ord x = T.val x) (hz : T.ord z = T.val z)
    (hstop : ∀ v, stop v = true ↔ ¬ Within d (T.ord v) (T.ord z)) :
    T.Follows stop (T.val x) d (T.val z) ↔
      Representable T.signedOrder T.width (T.val x + steps (T.val x) d (T.val z) * d) := by
  have hrx : Representable T.signedOrder T.width (T.val x) := hx ▸ representable_readWord x
  have hrz : Representable T.signedOrder T.width (T.val z) := hz ▸ representable_readWord z
  rw [hz] at hstop
  have hall : ∀ i < steps (T.val x) d (T.val z),
      stop (BitVec.ofInt T.width (T.val x + i * d)) = false := by
    intro i hi
    have hw : Within d (T.val x + i * d) (T.val z) := (within_iff_lt_steps hd i).2 hi
    rw [Bool.eq_false_iff, Ne, hstop, not_not]
    have hord := readWord_ofInt (representable_within hrx hrz rfl hw)
    rwa [← hord] at hw
  rw [← within_next_iff hrx hrz hd hle]
  exact ⟨fun h => (hstop _).1 h.2, fun h => ⟨hall, (hstop _).2 h⟩⟩

theorem abs_sub_val_le (x y : BitVec T.width) : |T.val y - T.val x| ≤ 2 ^ T.width := by
  have hx := representable_val x
  have hy := representable_val y
  unfold Representable greatest at hx hy
  rw [abs_le]
  omega

theorem ord_eq_val (hc : T.Consistent) (x : BitVec T.width) : T.ord x = T.val x := by
  unfold ord val
  rw [hc.1]

theorem gt_iff (v z : BitVec T.width) :
    T.gt v z = true ↔ ¬ Within 1 (T.ord v) (T.ord z) := by
  simp [gt, Within]

theorem pastEnd_iff {x y : BitVec T.width} (hx : T.ord x = T.val x) (hy : T.ord y = T.val y)
    (z v : BitVec T.width) :
    T.pastEnd x y z v = true ↔ ¬ Within (T.val y - T.val x) (T.ord v) (T.ord z) := by
  unfold pastEnd Within gte lte
  rw [hx, hy]
  simp only [decide_eq_true_eq, ge_iff_le]
  by_cases h : T.val x ≤ T.val y
  · rw [if_pos h, if_neg (by omega)]
    simp
  · rw [if_neg h, if_pos (by omega)]
    simp

theorem enumFromTo_agree {x z : BitVec T.width} (hx : T.ord x = T.val x)
    (hz : T.ord z = T.val z) :
    T.Lists (T.enumFromTo x z) (T.val x) 1 (T.val z) ↔
      T.val z < T.val x ∨ T.val z < greatest T.signedOrder T.width := by
  have hone : |(1 : ℤ)| ≤ 2 ^ T.width := one_le_pow₀ one_le_two
  rw [enumFromTo_lists, follows_iff one_ne_zero hone hx hz fun v => gt_iff v z]
  have hrx : Representable T.signedOrder T.width (T.val x) := hx ▸ representable_readWord x
  have hrz : Representable T.signedOrder T.width (T.val z) := hz ▸ representable_readWord z
  unfold Representable steps at *
  rw [if_neg (by omega)]
  omega

theorem enumFromThenTo_agree {x y z : BitVec T.width} (h : x ≠ y) (hx : T.ord x = T.val x)
    (hy : T.ord y = T.val y) (hz : T.ord z = T.val z) :
    T.Lists (T.enumFromThenTo x y z) (T.val x) (T.val y - T.val x) (T.val z) ↔
      Representable T.signedOrder T.width (T.val x +
        steps (T.val x) (T.val y - T.val x) (T.val z) * (T.val y - T.val x)) := by
  rw [enumFromThenTo_lists h z (representable_val z),
    follows_iff (val_ne h) (abs_sub_val_le x y) hx hz (pastEnd_iff hx hy z)]

/-! ### Types whose instances agree -/

theorem val_maxBound (hc : T.Consistent) : T.val T.maxBound = greatest T.signedValue T.width := by
  unfold val maxBound
  rw [hc.2]
  cases T.signedValue with
  | false => exact readWord_allOnes _
  | true => exact readWord_intMax _

theorem val_minBound (hc : T.Consistent) : T.val T.minBound = least T.signedValue T.width := by
  unfold val minBound
  rw [hc.2]
  cases T.signedValue with
  | false => simp [readWord, least]
  | true => exact readWord_intMin _

theorem enumFromTo_consistent (hc : T.Consistent) (x z : BitVec T.width) :
    T.Lists (T.enumFromTo x z) (T.val x) 1 (T.val z) ↔
      T.val z < T.val x ∨ T.val z < greatest T.signedValue T.width := by
  rw [enumFromTo_agree (ord_eq_val hc x) (ord_eq_val hc z), hc.1]

theorem enumFrom_consistent (hc : T.Consistent) (x : BitVec T.width) :
    ¬ T.Lists (T.enumFrom x) (T.val x) 1 (T.val T.maxBound) := by
  change ¬ T.Lists (T.enumFromTo x T.maxBound) _ _ _
  rw [enumFromTo_consistent hc, val_maxBound hc]
  have := (representable_val x).2
  omega

theorem enumFromThenTo_consistent (hc : T.Consistent) {x y : BitVec T.width} (h : x ≠ y)
    (z : BitVec T.width) :
    T.Lists (T.enumFromThenTo x y z) (T.val x) (T.val y - T.val x) (T.val z) ↔
      Representable T.signedValue T.width (T.val x +
        steps (T.val x) (T.val y - T.val x) (T.val z) * (T.val y - T.val x)) := by
  rw [enumFromThenTo_agree h (ord_eq_val hc x) (ord_eq_val hc y) (ord_eq_val hc z), hc.1]

/-- The end of `[x, y ..]`. -/
def limit (x y : BitVec T.width) : ℤ :=
  if T.val y < T.val x then T.val T.minBound else T.val T.maxBound

theorem representable_limit (x y : BitVec T.width) :
    Representable T.signedValue T.width (limit x y) := by
  unfold limit
  split
  · exact representable_val _
  · exact representable_val _

theorem lt_eq (hc : T.Consistent) (x y : BitVec T.width) : T.lt x y = decide (T.val x < T.val y) := by
  unfold lt ord val
  rw [hc.1]

theorem enumFromThen_consistent (hc : T.Consistent) {x y : BitVec T.width} (h : x ≠ y) :
    ¬ T.Lists (T.enumFromThen x y) (T.val x) (T.val y - T.val x) (limit x y) := by
  have hlimit : limit x y = T.val (if T.lt y x then T.minBound else T.maxBound) := by
    unfold limit
    rw [lt_eq hc]
    by_cases hlt : T.val y < T.val x <;> simp [hlt]
  have hcode : T.enumFromThen x y =
      T.enumFromThenTo x y (if T.lt y x then T.minBound else T.maxBound) := rfl
  rw [hcode, hlimit, enumFromThenTo_consistent hc h, ← hlimit]
  intro hrep
  -- the integer after the last value is past the bound of the type
  have hend := mt (within_iff_lt_steps (x := T.val x) (z := limit x y) (val_ne h)
    (steps (T.val x) (T.val y - T.val x) (limit x y))).1 (lt_irrefl _)
  unfold Within at hend
  have hbound : limit x y = if T.val y - T.val x < 0 then least T.signedValue T.width
      else greatest T.signedValue T.width := by
    unfold limit
    rw [val_maxBound hc, val_minBound hc]
    by_cases hlt : T.val y < T.val x
    · rw [if_pos hlt, if_pos (by omega)]
    · rw [if_neg hlt, if_neg (by omega)]
  unfold Representable at hrep
  generalize (steps (T.val x) (T.val y - T.val x) (limit x y) : ℤ) * (T.val y - T.val x) = k at *
  split at hbound
  · rw [if_pos (by omega)] at hend
    omega
  · rw [if_neg (by omega)] at hend
    omega

end IntType

/-! ### The instances -/

structure EnumMethods (w : ℕ) where
  enumFrom : BitVec w → ℕ → Option (List (BitVec w))
  enumFromThen : BitVec w → BitVec w → ℕ → Option (List (BitVec w))
  enumFromTo : BitVec w → BitVec w → ℕ → Option (List (BitVec w))
  enumFromThenTo : BitVec w → BitVec w → BitVec w → ℕ → Option (List (BitVec w))

open IntType

def ENUMINST (T : IntType) : EnumMethods T.width :=
  { enumFrom := T.enumFrom
    enumFromThen := T.enumFromThen
    enumFromTo := T.enumFromTo
    enumFromThenTo := T.enumFromThenTo }

def enumInt (T : IntType) : EnumMethods T.width :=
  { enumFrom := T.intEnumFrom
    enumFromThen := T.intEnumFromThen
    enumFromTo := T.intEnumFromTo
    enumFromThenTo := T.intEnumFromThenTo }

def EnumInst.methods (i : EnumInst) (w : ℕ) : EnumMethods (i.type w).width :=
  match i with
  | .int => enumInt (EnumInst.int.type w)
  | i => ENUMINST (i.type w)

theorem intEnumFromThenTo_eq (T : IntType) : T.intEnumFromThenTo = T.enumFromThenTo := by
  funext x y z fuel
  unfold intEnumFromThenTo enumFromThenTo
  simp only [sub_step_eq]

theorem methods_eq (i : EnumInst) (w : ℕ) : i.methods w = ENUMINST (i.type w) := by
  have hint : enumInt (EnumInst.int.type w) = ENUMINST (EnumInst.int.type w) := by
    unfold enumInt ENUMINST
    rw [← intEnumFromThenTo_eq]
    congr 1
    funext c c'
    unfold intEnumFromThen enumFromThen
    rw [intEnumFromThenTo_eq]
  cases i <;> first | exact hint | rfl

/-- When the methods list what they should. Where order, value and bounds have one signedness,
that is when the integer after the last value still has a word; elsewhere, when the comparisons
of the loop follow the progression. -/
theorem enumerations_iff (i : EnumInst) (w : ℕ) (x y z : BitVec (i.type w).width) :
    let T := i.type w
    let m := i.methods w
    (T.Lists (m.enumFromTo x z) (T.val x) 1 (T.val z) ↔
      T.Follows (fun v => T.gt v z) (T.val x) 1 (T.val z)) ∧
    (T.Lists (m.enumFrom x) (T.val x) 1 (T.val T.maxBound) ↔
      T.Follows (fun v => T.gt v T.maxBound) (T.val x) 1 (T.val T.maxBound)) ∧
    (x ≠ y →
      (T.Lists (m.enumFromThenTo x y z) (T.val x) (T.val y - T.val x) (T.val z) ↔
        T.Follows (T.pastEnd x y z) (T.val x) (T.val y - T.val x) (T.val z)) ∧
      (T.Lists (m.enumFromThen x y) (T.val x) (T.val y - T.val x) (limit x y) ↔
        T.Follows (T.pastEnd x y (if T.lt y x then T.minBound else T.maxBound)) (T.val x)
          (T.val y - T.val x) (limit x y))) ∧
    (T.Consistent →
      (T.Lists (m.enumFromTo x z) (T.val x) 1 (T.val z) ↔
        T.val z < T.val x ∨ T.val z < greatest T.signedValue T.width) ∧
      ¬ T.Lists (m.enumFrom x) (T.val x) 1 (T.val T.maxBound) ∧
      (x ≠ y →
        (T.Lists (m.enumFromThenTo x y z) (T.val x) (T.val y - T.val x) (T.val z) ↔
          Representable T.signedValue T.width (T.val x +
            steps (T.val x) (T.val y - T.val x) (T.val z) * (T.val y - T.val x))) ∧
        ¬ T.Lists (m.enumFromThen x y) (T.val x) (T.val y - T.val x) (limit x y))) := by
  intro T m
  have hm : m = ENUMINST T := methods_eq i w
  rw [hm]
  refine ⟨enumFromTo_lists x z, enumFromTo_lists x T.maxBound,
    fun h => ⟨enumFromThenTo_lists h z (representable_val z),
      enumFromThenTo_lists h _ (representable_limit x y)⟩, fun hc => ⟨enumFromTo_consistent hc x z,
      enumFrom_consistent hc x,
      fun h => ⟨enumFromThenTo_consistent hc h z, enumFromThen_consistent hc h⟩⟩⟩

/-- `[0 .. 10]` and `[0, 3 .. 10]` at `Word8`. -/
theorem enumerations_word8 :
    let T := EnumInst.word8.type 8
    let m := EnumInst.word8.methods 8
    T.Lists (m.enumFromTo 0#8 10#8) (T.val 0#8) 1 (T.val 10#8) ∧
      T.Lists (m.enumFromThenTo 0#8 3#8 10#8) (T.val 0#8) (T.val 3#8 - T.val 0#8) (T.val 10#8) := by
  intro T m
  have h := (enumerations_iff .word8 8 0#8 3#8 10#8).2.2.2 (by decide)
  have hne : (0#8 : BitVec 8) ≠ 3#8 := by decide
  exact ⟨h.1.2 (by decide), (h.2.2 hne).1.2 (by decide)⟩

/-- `[250 .. 255]` and `[0, 100 .. 250]` at `Word8` have no end. -/
theorem word8_endless :
    ¬ (EnumInst.word8.type 8).Lists ((EnumInst.word8.methods 8).enumFromTo 250#8 255#8)
        ((EnumInst.word8.type 8).val 250#8) 1 ((EnumInst.word8.type 8).val 255#8) ∧
      ¬ (EnumInst.word8.type 8).Lists ((EnumInst.word8.methods 8).enumFromThenTo 0#8 100#8 250#8)
        ((EnumInst.word8.type 8).val 0#8)
        ((EnumInst.word8.type 8).val 100#8 - (EnumInst.word8.type 8).val 0#8)
        ((EnumInst.word8.type 8).val 250#8) := by
  have hne : (0#8 : BitVec 8) ≠ 100#8 := by decide
  rw [methods_eq]
  constructor
  · exact mt (enumFromTo_consistent (T := EnumInst.word8.type 8) (by decide) 250#8 255#8).1
      (by decide)
  · exact mt (enumFromThenTo_consistent (T := EnumInst.word8.type 8) (by decide)
      hne 250#8).1 (by decide)

end Jhc.Inst

import Jhc.Inst.Enum

/-!
# Helpers for derived enumerations (lib/jhc/Jhc/Inst/PrimEnum.hs)

`Enum__` is `Bits16_`; its comparisons are the signed ones while constructors are
numbered from zero.
-/

namespace Jhc.Inst
open Jhc.Lib IntType

abbrev Enum__ := BitVec 16

def enumGt (x y : Enum__) : Bool := x.toInt > y.toInt

def enumGte (x y : Enum__) : Bool := x.toInt ≥ y.toInt

def enumLt (x y : Enum__) : Bool := x.toInt < y.toInt

def enumLte (x y : Enum__) : Bool := x.toInt ≤ y.toInt

section Helpers

variable {α : Type} (box : Enum__ → α) (debox : α → Enum__)

def enum_from (max : Enum__) (x : α) (fuel : ℕ) : Option (List α) :=
  (walk (fun x => enumGt x max) (fun x => x + 1) fuel (debox x)).map (List.map box)

def enum_fromTo (x y : α) (fuel : ℕ) : Option (List α) := enum_from box debox (debox y) x fuel

def enum_fromThenToUp' (x y z : Enum__) (fuel : ℕ) : Option (List α) :=
  let inc := y - x
  (walk (fun x => enumGt x z) (fun x => x + inc) fuel x).map (List.map box)

def enum_fromThenToDown' (x y z : Enum__) (fuel : ℕ) : Option (List α) :=
  let inc := y - x
  (walk (fun x => enumLt x z) (fun x => x + inc) fuel x).map (List.map box)

def enum_fromThen (max : Enum__) (x y : α) (fuel : ℕ) : Option (List α) :=
  if enumGt (debox x) (debox y) then enum_fromThenToDown' box (debox x) (debox y) 0 fuel
  else enum_fromThenToUp' box (debox x) (debox y) max fuel

def enum_fromThenTo (x y z : α) (fuel : ℕ) : Option (List α) :=
  if enumGt (debox x) (debox y) then
    enum_fromThenToDown' box (debox x) (debox y) (debox z) fuel
  else enum_fromThenToUp' box (debox x) (debox y) (debox z) fuel

def ix_range (x y : α) (fuel : ℕ) : Option (List α) := enum_fromTo box debox x y fuel

/-- `none` is `ixIndexError`; the difference becomes an `Int` by `U2U`. -/
def ix_index (x y v : α) : Option ℤ :=
  if enumLte (debox v) (debox x) then
    if enumLte (debox v) (debox y) then some (debox v - debox x).toNat else none
  else none

def ix_inRange (x y v : α) : Bool :=
  if enumGte (debox v) (debox x) then enumLte (debox v) (debox y) else false

end Helpers

/-- A constructor of an enumeration: the type's one constructor applied to a number
(src/DataConstructors.hs:517-519). -/
structure Constr where
  tag : Enum__
  deriving DecidableEq, Repr

namespace Constr

def box (i : Enum__) : Constr := ⟨i⟩

def debox (e : Constr) : Enum__ := e.tag

/-- The position in the data declaration. -/
def position (e : Constr) : ℤ := e.tag.toNat

end Constr

open Constr

/-- The list ends, and it is `x`, `x + d` and so on up to `z`. -/
def ListsConstrs (code : ℕ → Option (List Constr)) (x d z : ℤ) : Prop :=
  ∃ l, (∃ fuel, code fuel = some l) ∧ Enumerates x d z (l.map position)

/-- `Enum__` as a type with signed comparisons of unsigned values. -/
abbrev enumType : IntType :=
  { width := 16, signedOrder := true, signedValue := false, signedBounds := false }

theorem listsConstrs_iff (c : ℕ → Option (List Enum__)) (x d z : ℤ) :
    ListsConstrs (fun fuel => (c fuel).map (List.map box)) x d z ↔ enumType.Lists c x d z := by
  constructor
  · rintro ⟨l, ⟨fuel, hc⟩, hl⟩
    obtain ⟨l', hl', rfl⟩ := Option.map_eq_some_iff.1 hc
    rw [List.map_map] at hl
    exact ⟨l', ⟨fuel, hl'⟩, hl⟩
  · rintro ⟨l, ⟨fuel, hc⟩, hl⟩
    refine ⟨l.map box, ⟨fuel, by simp only [hc, Option.map_some]⟩, ?_⟩
    rw [List.map_map]
    exact hl

theorem enum_fromTo_eq (x z : Constr) :
    enum_fromTo box debox x z = fun fuel => (enumType.enumFromTo x.tag z.tag fuel).map (List.map box) :=
  rfl

/-- The test of the loop from `x` by way of `y`. -/
def past (x y z v : Enum__) : Bool := if enumGt x y then enumLt v z else enumGt v z

theorem not_lte_eq (x y : Enum__) : (!enumType.lte x y) = enumGt x y := by
  have h : (!decide (x.toInt ≤ y.toInt)) = decide (y.toInt < x.toInt) := by
    rw [Bool.eq_iff_iff]
    simp
  exact h

theorem not_gte_eq (x y : Enum__) : (!enumType.gte x y) = enumLt x y := by
  have h : (!decide (y.toInt ≤ x.toInt)) = decide (x.toInt < y.toInt) := by
    rw [Bool.eq_iff_iff]
    simp
  exact h

theorem gte_eq (x y : Enum__) : enumType.gte y x = !enumGt x y := by
  have h : decide (x.toInt ≤ y.toInt) = !decide (y.toInt < x.toInt) := by
    rw [Bool.eq_iff_iff]
    simp
  exact h

theorem pastEnd_eq (x y z : Enum__) : enumType.pastEnd x y z = past x y z := by
  funext v
  unfold IntType.pastEnd past
  rw [gte_eq, not_lte_eq, not_gte_eq]
  cases enumGt x y with
  | false => simp only [Bool.not_false, if_true, Bool.false_eq_true, if_false]
  | true => simp only [Bool.not_true, if_true, Bool.false_eq_true, if_false]

theorem fromThenTo_eq (x y z : Enum__) (fuel : ℕ) :
    (if enumGt x y then enum_fromThenToDown' box x y z fuel
      else enum_fromThenToUp' box x y z fuel) =
      (walk (past x y z) (fun v => v + (y - x)) fuel x).map (List.map box) := by
  unfold past enum_fromThenToDown' enum_fromThenToUp'
  cases enumGt x y with
  | false => rfl
  | true => rfl

/-- As `Follows`; a loop that stays where it is must not begin. -/
def FollowsStep (stop : Enum__ → Bool) (x d z : ℤ) : Prop :=
  if d = 0 then stop (BitVec.ofInt 16 x) = true ∧ z < x else enumType.Follows stop x d z

theorem position_bounds (e : Constr) : 0 ≤ e.position ∧ e.position < 2 ^ 16 := by
  have := e.tag.isLt
  unfold position
  omega

theorem ofInt_position (e : Constr) : BitVec.ofInt 16 e.position = e.tag := ofInt_val (T := enumType) e.tag

theorem fromTo_follows (x z : Constr) :
    ListsConstrs (enum_fromTo box debox x z) x.position 1 z.position ↔
      enumType.Follows (enumGt · z.tag) x.position 1 z.position := by
  rw [enum_fromTo_eq, listsConstrs_iff]
  exact enumFromTo_lists (T := enumType) x.tag z.tag

theorem fromThenTo_follows (x y : Constr) (z : Enum__) {e : ℤ}
    (he : Representable false 16 e) :
    ListsConstrs (fun fuel => if enumGt x.tag y.tag then enum_fromThenToDown' box x.tag y.tag z fuel
        else enum_fromThenToUp' box x.tag y.tag z fuel) x.position (y.position - x.position) e ↔
      FollowsStep (past x.tag y.tag z) x.position (y.position - x.position) e := by
  simp only [fromThenTo_eq]
  rw [listsConstrs_iff]
  unfold FollowsStep
  by_cases hxy : x.tag = y.tag
  · have hpos : y.position - x.position = 0 := by
      unfold position
      rw [hxy]
      omega
    have hstill : (fun v => v + (y.tag - x.tag)) x.tag = x.tag := by
      rw [hxy]
      simp
    rw [if_pos hpos, hpos, ofInt_position]
    constructor
    · rintro ⟨l, hwalk, hl⟩
      obtain ⟨rfl, hstop⟩ := (walks_still hstill).1 hwalk
      exact ⟨hstop, enumerates_zero_nil.1 hl⟩
    · rintro ⟨hstop, hlt⟩
      exact ⟨[], (walks_still hstill).2 ⟨rfl, hstop⟩, enumerates_zero_nil.2 hlt⟩
  · have hd : y.position - x.position ≠ 0 := val_ne (T := enumType) hxy
    rw [if_neg hd]
    exact lists_iff (T := enumType) _ hd (ofInt_sub_val (T := enumType) x.tag y.tag) he

/-! ### Enumerations of at most 2^15 constructors -/

theorem ord_eq_val_small {e : Enum__} (h : e.toNat < 2 ^ 15) : enumType.ord e = enumType.val e :=
  BitVec.toInt_eq_toNat_of_lt (show 2 * e.toNat < 2 ^ 16 by omega)

theorem fromTo_small {x z : Constr} (hx : x.tag.toNat < 2 ^ 15) (hz : z.tag.toNat < 2 ^ 15) :
    ListsConstrs (enum_fromTo box debox x z) x.position 1 z.position ↔
      z.position < x.position ∨ z.position < 2 ^ 15 - 1 := by
  rw [enum_fromTo_eq, listsConstrs_iff]
  exact enumFromTo_agree (T := enumType) (ord_eq_val_small hx) (ord_eq_val_small hz)

/-- The integer after the last value, seen from the values' own range. -/
theorem next_small {x d z : ℤ} (hd : d ≠ 0) (hx : 0 ≤ x ∧ x < 2 ^ 15) (hz : 0 ≤ z)
    (hle : -2 ^ 15 < d) :
    Representable true 16 (x + steps x d z * d) ↔ d < 0 ∨ x + steps x d z * d < 2 ^ 15 := by
  simp only [Representable, greatest, least, if_true]
  by_cases hneg : d < 0
  · have hback : x + steps x d z * d ≤ x := by
      have := mul_nonpos_of_nonneg_of_nonpos (Int.natCast_nonneg (steps x d z)) hneg.le
      omega
    have hlow : -2 ^ 15 ≤ x + steps x d z * d := by
      cases hn : steps x d z with
      | zero => simp; omega
      | succ m =>
        have hlast : Within d (x + m * d) z := (within_iff_lt_steps hd m).2 (by omega)
        unfold Within at hlast
        rw [if_pos hneg] at hlast
        push_cast
        have hexp : ((m : ℤ) + 1) * d = m * d + d := by ring
        omega
    omega
  · have hforth : 0 ≤ (steps x d z : ℤ) * d :=
      mul_nonneg (Int.natCast_nonneg _) (by omega)
    omega

theorem past_small {x y z : Constr} (hx : x.tag.toNat < 2 ^ 15) (hy : y.tag.toNat < 2 ^ 15)
    (hz : z.tag.toNat < 2 ^ 15) :
    FollowsStep (past x.tag y.tag z.tag) x.position (y.position - x.position) z.position ↔
      (x.position = y.position ∧ z.position < x.position) ∨ y.position < x.position ∨
      (x.position < y.position ∧ x.position + steps x.position (y.position - x.position) z.position *
        (y.position - x.position) < 2 ^ 15) := by
  unfold FollowsStep
  have hox := ord_eq_val_small hx
  have hoy := ord_eq_val_small hy
  have hoz := ord_eq_val_small hz
  have hpx : x.position < 2 ^ 15 := by unfold position; omega
  have hpy : y.position < 2 ^ 15 := by unfold position; omega
  have hp := position_bounds x
  have hq := position_bounds y
  have hr := position_bounds z
  by_cases hd : y.position - x.position = 0
  · have hxy : y.position = x.position := by omega
    have hstop : past x.tag y.tag z.tag x.tag = true ↔ z.position < x.position := by
      rw [← pastEnd_eq, pastEnd_iff hox hoy, hox, hoz]
      change ¬ Within (y.position - x.position) x.position z.position ↔ _
      simp [Within, hd]
    rw [if_pos hd, ofInt_position, hstop, hxy]
    simp
  · have hle : |y.position - x.position| ≤ 2 ^ 16 := by
      rw [abs_le]
      omega
    rw [if_neg hd, ← pastEnd_eq]
    have hfollows := follows_iff hd hle hox hoz (pastEnd_iff hox hoy z.tag)
    rw [show enumType.val x.tag = x.position from rfl, show enumType.val z.tag = z.position from rfl]
      at hfollows
    rw [hfollows, next_small hd ⟨hp.1, hpx⟩ hr.1 (by omega)]
    omega

theorem toInt_eq (e : Enum__) :
    e.toInt = if e.toNat < 2 ^ 15 then (e.toNat : ℤ) else e.toNat - 2 ^ 16 := by
  rw [BitVec.toInt_eq_toNat_cond]
  split <;> split <;> omega

theorem ix_inRange_eq (l u v : Constr) :
    ix_inRange debox l u v = true ↔ l.tag.toInt ≤ v.tag.toInt ∧ v.tag.toInt ≤ u.tag.toInt := by
  unfold ix_inRange enumGte enumLte debox
  by_cases h : l.tag.toInt ≤ v.tag.toInt
  · rw [if_pos (decide_eq_true h), decide_eq_true_eq]
    exact ⟨fun h' => ⟨h, h'⟩, fun h' => h'.2⟩
  · rw [if_neg (by simpa using h)]
    exact ⟨fun h' => absurd h' Bool.false_ne_true, fun h' => absurd h'.1 h⟩

/-- Signed comparisons find the interval from `l` to `u` where both ends are in one half, and
otherwise for what is outside of it on the way around. -/
theorem ix_inRange_iff (l u v : Constr) :
    (ix_inRange debox l u v = true ↔ l.position ≤ v.position ∧ v.position ≤ u.position) ↔
      ((l.tag.toNat < 2 ^ 15 ↔ u.tag.toNat < 2 ^ 15) ∨ u.tag - l.tag < v.tag - l.tag) := by
  rw [ix_inRange_eq, toInt_eq, toInt_eq, toInt_eq, BitVec.lt_def, BitVec.toNat_sub, BitVec.toNat_sub]
  unfold position
  have hl := l.tag.isLt
  have hu := u.tag.isLt
  have hv := v.tag.isLt
  split <;> split <;> split <;> omega

theorem ix_index_eq (l u v : Constr) :
    ix_index debox l u v = if v.tag.toInt ≤ l.tag.toInt ∧ v.tag.toInt ≤ u.tag.toInt
      then some ((v.tag - l.tag).toNat : ℤ) else none := by
  unfold ix_index enumLte debox
  by_cases h : v.tag.toInt ≤ l.tag.toInt
  · rw [if_pos (decide_eq_true h)]
    simp only [h, true_and, decide_eq_true_eq]
  · rw [if_neg (by simpa using h), if_neg fun h' => h h'.1]

/-- The position of `v` between `l` and `u`; `none` where it is not there. -/
def indexIn (l u v : Constr) : Option ℤ :=
  if l.position ≤ v.position ∧ v.position ≤ u.position then some (v.position - l.position) else none

theorem ix_index_iff (l u v : Constr) :
    ix_index debox l u v = indexIn l u v ↔
      ((v.tag.toInt ≤ l.tag.toInt ∧ v.tag.toInt ≤ u.tag.toInt) ↔
        (l.position ≤ v.position ∧ v.position ≤ u.position)) := by
  rw [ix_index_eq]
  unfold indexIn
  by_cases hin : l.position ≤ v.position ∧ v.position ≤ u.position
  · have hsub : (((v.tag - l.tag).toNat : ℕ) : ℤ) = v.position - l.position := by
      have hl := l.tag.isLt
      have hv := v.tag.isLt
      rw [BitVec.toNat_sub]
      unfold position at *
      omega
    rw [if_pos hin, hsub]
    simp [hin]
  · rw [if_neg hin]
    simp [hin]

theorem ix_index_small {l u v : Constr} (hl : l.tag.toNat < 2 ^ 15) (hu : u.tag.toNat < 2 ^ 15)
    (hv : v.tag.toNat < 2 ^ 15) :
    ix_index debox l u v = indexIn l u v ↔ v = l ∨ u.position < v.position := by
  have heq : v = l ↔ v.tag.toNat = l.tag.toNat := by
    rw [← BitVec.toNat_eq]
    exact ⟨congrArg Constr.tag, fun h => by cases v; cases l; cases h; rfl⟩
  rw [ix_index_iff, heq, toInt_eq, toInt_eq, toInt_eq, if_pos hl, if_pos hu, if_pos hv]
  unfold position
  omega

/-- The end of `[x, y ..]` in an enumeration up to `max`. -/
def lastFrom (max : Enum__) (x y : Constr) : ℤ := if y.position < x.position then 0 else max.toNat

/-- The last constructor that `[x, y ..]` may reach, as the machine compares. -/
def lastTag (max x y : Enum__) : Enum__ := if enumGt x y then 0 else max

theorem enum_fromThen_eq (max : Enum__) (x y : Constr) :
    enum_fromThen box debox max x y = fun fuel =>
      if enumGt x.tag y.tag then enum_fromThenToDown' box x.tag y.tag (lastTag max x.tag y.tag) fuel
      else enum_fromThenToUp' box x.tag y.tag (lastTag max x.tag y.tag) fuel := by
  funext fuel
  unfold enum_fromThen lastTag debox
  cases enumGt x.tag y.tag with
  | false => simp only [Bool.false_eq_true, if_false]
  | true => simp only [if_true]

theorem fromThen_follows (max : Enum__) (x y : Constr) :
    ListsConstrs (enum_fromThen box debox max x y) x.position (y.position - x.position)
        (lastFrom max x y) ↔
      FollowsStep (past x.tag y.tag (lastTag max x.tag y.tag)) x.position
        (y.position - x.position) (lastFrom max x y) := by
  have hlast : Representable false 16 (lastFrom max x y) := by
    have := max.isLt
    simp only [Representable, greatest, least, lastFrom, Bool.false_eq_true, if_false]
    split <;> omega
  rw [enum_fromThen_eq, fromThenTo_follows x y _ hlast]

theorem fromThen_small {max : Enum__} {x y : Constr} (hmax : max.toNat < 2 ^ 15)
    (hx : x.tag.toNat ≤ max.toNat) (hy : y.tag.toNat ≤ max.toNat) :
    ListsConstrs (enum_fromThen box debox max x y) x.position (y.position - x.position)
        (lastFrom max x y) ↔
      y.position < x.position ∨ (x.position < y.position ∧
        x.position + steps x.position (y.position - x.position) max.toNat *
          (y.position - x.position) < 2 ^ 15) := by
  have hgt : enumGt x.tag y.tag = true ↔ y.position < x.position := by
    unfold enumGt position
    rw [decide_eq_true_eq, toInt_eq, toInt_eq, if_pos (by omega), if_pos (by omega)]
  let z : Constr := ⟨lastTag max x.tag y.tag⟩
  have hlast : lastFrom max x y = z.position := by
    unfold lastFrom
    by_cases h : y.position < x.position
    · rw [if_pos h]
      simp only [z, lastTag, hgt.2 h, if_true, position]
      rfl
    · rw [if_neg h]
      simp only [z, lastTag, mt hgt.1 h, Bool.false_eq_true, if_false, position]
  have hz : z.tag.toNat < 2 ^ 15 := by
    simp only [z, lastTag]
    split
    · simp
    · exact hmax
  rw [fromThen_follows, hlast]
  change FollowsStep (past x.tag y.tag z.tag) _ _ _ ↔ _
  rw [past_small (by omega) (by omega) hz, ← hlast]
  unfold lastFrom
  by_cases h : y.position < x.position
  · simp [h]
  · rw [if_neg h]
    unfold position at *
    omega

/-- When the helpers obey the laws. For an enumeration of at most 2^15 constructors the second half
says it without the comparisons of the machine. -/
theorem enumeration_laws_iff (max : Enum__) (x y z l u v : Constr) :
    ((ListsConstrs (enum_from box debox max x) x.position 1 max.toNat ↔
        enumType.Follows (enumGt · max) x.position 1 max.toNat) ∧
      (ListsConstrs (enum_fromTo box debox x z) x.position 1 z.position ↔
        enumType.Follows (enumGt · z.tag) x.position 1 z.position) ∧
      (ListsConstrs (enum_fromThen box debox max x y) x.position (y.position - x.position)
          (lastFrom max x y) ↔
        FollowsStep (past x.tag y.tag (lastTag max x.tag y.tag)) x.position
          (y.position - x.position) (lastFrom max x y)) ∧
      (ListsConstrs (enum_fromThenTo box debox x y z) x.position (y.position - x.position)
          z.position ↔
        FollowsStep (past x.tag y.tag z.tag) x.position (y.position - x.position) z.position) ∧
      (ListsConstrs (ix_range box debox l u) l.position 1 u.position ↔
        enumType.Follows (enumGt · u.tag) l.position 1 u.position) ∧
      ((ix_inRange debox l u v = true ↔ l.position ≤ v.position ∧ v.position ≤ u.position) ↔
        ((l.tag.toNat < 2 ^ 15 ↔ u.tag.toNat < 2 ^ 15) ∨ u.tag - l.tag < v.tag - l.tag)) ∧
      (ix_index debox l u v = indexIn l u v ↔
        ((v.tag.toInt ≤ l.tag.toInt ∧ v.tag.toInt ≤ u.tag.toInt) ↔
          (l.position ≤ v.position ∧ v.position ≤ u.position)))) ∧
    (max.toNat < 2 ^ 15 → (∀ e ∈ [x, y, z, l, u, v], e.tag.toNat ≤ max.toNat) →
      (ListsConstrs (enum_from box debox max x) x.position 1 max.toNat ↔ max.toNat < 2 ^ 15 - 1) ∧
      (ListsConstrs (enum_fromTo box debox x z) x.position 1 z.position ↔
        z.position < x.position ∨ z.position < 2 ^ 15 - 1) ∧
      (ListsConstrs (enum_fromThen box debox max x y) x.position (y.position - x.position)
          (lastFrom max x y) ↔
        y.position < x.position ∨ (x.position < y.position ∧
          x.position + steps x.position (y.position - x.position) max.toNat *
            (y.position - x.position) < 2 ^ 15)) ∧
      (ListsConstrs (enum_fromThenTo box debox x y z) x.position (y.position - x.position)
          z.position ↔
        (x.position = y.position ∧ z.position < x.position) ∨ y.position < x.position ∨
        (x.position < y.position ∧
          x.position + steps x.position (y.position - x.position) z.position *
            (y.position - x.position) < 2 ^ 15)) ∧
      (ListsConstrs (ix_range box debox l u) l.position 1 u.position ↔
        u.position < l.position ∨ u.position < 2 ^ 15 - 1) ∧
      (ix_inRange debox l u v = true ↔ l.position ≤ v.position ∧ v.position ≤ u.position) ∧
      (ix_index debox l u v = indexIn l u v ↔ v = l ∨ u.position < v.position)) := by
  refine ⟨⟨?_, ?_, fromThen_follows max x y, ?_, ?_, ix_inRange_iff l u v, ix_index_iff l u v⟩,
    fun hmax hall => ?_⟩
  · exact fromTo_follows x ⟨max⟩
  · exact fromTo_follows x z
  · exact fromThenTo_follows x y z.tag (representable_val (T := enumType) z.tag)
  · exact fromTo_follows l u
  · simp only [List.forall_mem_cons, List.not_mem_nil, false_implies, implies_true, and_true] at hall
    obtain ⟨hx, hy, hz, hl, hu, hv⟩ := hall
    have hsmall : ∀ {e : Constr}, e.tag.toNat ≤ max.toNat → e.tag.toNat < 2 ^ 15 :=
      fun h => lt_of_le_of_lt h hmax
    have hin := (ix_inRange_iff l u v).2 (.inl (by simp only [hsmall hl, hsmall hu]))
    refine ⟨?_, fromTo_small (hsmall hx) (hsmall hz), fromThen_small hmax hx hy, ?_,
      fromTo_small (hsmall hl) (hsmall hu), hin, ix_index_small (hsmall hl) (hsmall hu) (hsmall hv)⟩
    · have hfrom := fromTo_small (z := ⟨max⟩) (hsmall hx) hmax
      refine hfrom.trans ?_
      have hle : x.position ≤ (max.toNat : ℤ) := by
        unfold position
        omega
      change (max.toNat : ℤ) < x.position ∨ (max.toNat : ℤ) < 2 ^ 15 - 1 ↔ _
      omega
    · rw [← past_small (hsmall hx) (hsmall hy) (hsmall hz)]
      exact fromThenTo_follows x y z.tag (representable_val (T := enumType) z.tag)

/-- `[x ..]`, `[x, y ..]`, `range` and the rest at an enumeration of six constructors. -/
theorem enumeration_laws_six :
    ListsConstrs (enum_from box debox 5#16 (box 2#16)) (box 2#16).position 1 (5#16).toNat ∧
      ListsConstrs (enum_fromThen box debox 5#16 (box 0#16) (box 2#16)) (box 0#16).position
        ((box 2#16).position - (box 0#16).position) (lastFrom 5#16 (box 0#16) (box 2#16)) := by
  have h := (enumeration_laws_iff 5#16 (box 2#16) (box 2#16) (box 2#16) (box 2#16) (box 2#16)
    (box 2#16)).2 (by decide) (by decide)
  have h' := (enumeration_laws_iff 5#16 (box 0#16) (box 2#16) (box 2#16) (box 2#16) (box 2#16)
    (box 2#16)).2 (by decide) (by decide)
  exact ⟨h.1.2 (by decide), h'.2.2.1.2 (by decide)⟩

/-- `index (0, 5) 1` is an error, and `index (3, 5) 1` is the number 65534. -/
theorem ix_index_wrong :
    ix_index debox (box 0#16) (box 5#16) (box 1#16) = none ∧
      ix_inRange debox (box 0#16) (box 5#16) (box 1#16) = true ∧
      ix_index debox (box 3#16) (box 5#16) (box 1#16) = some 65534 ∧
      ix_inRange debox (box 3#16) (box 5#16) (box 1#16) = false := by
  decide

end Jhc.Inst

import Mathlib.Data.List.Sort
import Mathlib.Logic.Function.Iterate
import Mathlib.Tactic.Linarith
import Mathlib.Tactic.Ring

/-!
# Loops that list their values, and arithmetic progressions

`walk` lists the values of a loop that tests before each of them. The values of
an arithmetic progression of integers are counted by `steps`.
-/

namespace Jhc.Lib

section Walks

variable {α β : Type*}

/-- `f x | stop x = [] | True = x : f (next x)`, where `fuel` values are looked at. -/
def walk (stop : α → Bool) (next : α → α) : ℕ → α → Option (List α)
  | 0, _ => none
  | fuel + 1, x => if stop x then some [] else (walk stop next fuel (next x)).map (x :: ·)

/-- Where the loop ends, and with what list. -/
def Walks (stop : α → Bool) (next : α → α) (x : α) (l : List α) : Prop :=
  ∃ fuel, walk stop next fuel x = some l

variable {stop : α → Bool} {next : α → α}

attribute [local grind =] walk

theorem walks_nil {x : α} : Walks stop next x [] ↔ stop x = true := by
  constructor
  · rintro ⟨fuel, h⟩
    cases fuel with
    | zero => cases h
    | succ fuel =>
      rw [walk] at h
      split at h
      · assumption
      · simp at h
  · intro h
    exact ⟨1, by simp [walk, h]⟩

theorem walks_cons {x a : α} {l : List α} :
    Walks stop next x (a :: l) ↔ stop x = false ∧ a = x ∧ Walks stop next (next x) l := by
  constructor
  · rintro ⟨fuel, h⟩
    cases fuel with
    | zero => cases h
    | succ fuel =>
      rw [walk] at h
      split at h
      · simp at h
      · rename_i hx
        simp only [Option.map_eq_some_iff, List.cons.injEq] at h
        obtain ⟨l', hl, rfl, rfl⟩ := h
        exact ⟨by simpa using hx, rfl, fuel, hl⟩
  · rintro ⟨hx, rfl, fuel, hl⟩
    exact ⟨fuel + 1, by simp [walk, hx, hl]⟩

/-- What a loop lists: its values up to the first at which it stops. -/
theorem walks_iff {x : α} {l : List α} :
    Walks stop next x l ↔ l = (List.range l.length).map (fun i => next^[i] x) ∧
      (∀ i < l.length, stop (next^[i] x) = false) ∧ stop (next^[l.length] x) = true := by
  induction l generalizing x with
  | nil => simp [walks_nil]
  | cons a l ih =>
    simp only [walks_cons, ih, List.length_cons, List.range_succ_eq_map, List.map_cons, List.map_map,
      List.cons.injEq, Function.iterate_zero, id_eq, Function.iterate_succ, Function.comp_def]
    constructor
    · rintro ⟨hx, rfl, hl, hall, hend⟩
      refine ⟨⟨rfl, hl⟩, fun i hi => ?_, hend⟩
      cases i with
      | zero => exact hx
      | succ i => exact hall i (by omega)
    · rintro ⟨⟨rfl, hl⟩, hall, hend⟩
      exact ⟨hall 0 (by omega), rfl, hl, fun i hi => hall (i + 1) (by omega), hend⟩

theorem Walks.unique {x : α} {l l' : List α} (h : Walks stop next x l) (h' : Walks stop next x l') :
    l = l' := by
  induction l generalizing x l' with
  | nil =>
    cases l' with
    | nil => rfl
    | cons a l' =>
      rw [walks_nil] at h
      rw [walks_cons, h] at h'
      cases h'.1
  | cons a l ih =>
    cases l' with
    | nil =>
      rw [walks_nil] at h'
      rw [walks_cons, h'] at h
      cases h.1
    | cons b l' =>
      rw [walks_cons] at h h'
      rw [h.2.1, h'.2.1, ih h.2.2 h'.2.2]

/-- A loop that does not move ends at once or never. -/
theorem walks_still {x : α} (hx : next x = x) {l : List α} :
    Walks stop next x l ↔ l = [] ∧ stop x = true := by
  induction l with
  | nil => simp [walks_nil]
  | cons a l ih =>
    rw [walks_cons, hx, ih]
    constructor
    · rintro ⟨hgo, -, -, hstop⟩
      rw [hgo] at hstop
      cases hstop
    · rintro ⟨hcons, -⟩
      cases hcons

end Walks

/-! ### Arithmetic progressions -/

/-- `v` is not beyond `z` for one who goes by `d`. -/
def Within (d v z : ℤ) : Prop := if d < 0 then z ≤ v else v ≤ z

instance (d v z : ℤ) : Decidable (Within d v z) := by unfold Within; infer_instance

def Before (d a b : ℤ) : Prop := if d < 0 then b < a else a < b

/-- The values `x`, `x + d`, and so on that are not beyond `z`, in this order. -/
structure Enumerates (x d z : ℤ) (l : List ℤ) : Prop where
  ordered : l.Pairwise (Before d)
  mem_iff : ∀ v, v ∈ l ↔ ∃ k : ℕ, v = x + k * d ∧ Within d v z

/-- How many they are. -/
def steps (x d z : ℤ) : ℕ := if d < 0 then ((x - z) / -d + 1).toNat else ((z - x) / d + 1).toNat

theorem within_iff_lt_steps {x d z : ℤ} (hd : d ≠ 0) (k : ℕ) :
    Within d (x + k * d) z ↔ k < steps x d z := by
  unfold Within steps
  split
  · have hpos : 0 < -d := by omega
    have hdiv : z ≤ x + k * d ↔ (k : ℤ) ≤ (x - z) / -d := by
      rw [Int.le_ediv_iff_mul_le hpos]
      constructor <;> intro h <;> linarith
    rw [hdiv]
    omega
  · have hpos : 0 < d := by omega
    have hdiv : x + k * d ≤ z ↔ (k : ℤ) ≤ (z - x) / d := by
      rw [Int.le_ediv_iff_mul_le hpos]
      constructor <;> intro h <;> linarith
    rw [hdiv]
    omega

theorem before_progression {x d : ℤ} (hd : d ≠ 0) {i j : ℕ} (h : i < j) :
    Before d (x + i * d) (x + j * d) := by
  have hij : (i : ℤ) < j := by exact_mod_cast h
  unfold Before
  split
  · have := mul_lt_mul_of_neg_right hij (by omega : d < 0)
    omega
  · have := mul_lt_mul_of_pos_right hij (by omega : 0 < d)
    omega

instance (d : ℤ) : Std.Irrefl (Before d) where
  irrefl a := by
    unfold Before
    split <;> omega

instance (d : ℤ) : Std.Antisymm (Before d) where
  antisymm a b := by
    unfold Before
    split <;> omega

theorem enumerates_progression {x d z : ℤ} (hd : d ≠ 0) :
    Enumerates x d z ((List.range (steps x d z)).map fun i : ℕ => x + i * d) := by
  constructor
  · rw [List.pairwise_map]
    exact List.pairwise_lt_range.imp (before_progression hd)
  · intro v
    simp only [List.mem_map, List.mem_range]
    constructor
    · rintro ⟨i, hi, rfl⟩
      exact ⟨i, rfl, (within_iff_lt_steps hd i).2 hi⟩
    · rintro ⟨i, rfl, hi⟩
      exact ⟨i, (within_iff_lt_steps hd i).1 hi, rfl⟩

theorem enumerates_iff {x d z : ℤ} (hd : d ≠ 0) {l : List ℤ} :
    Enumerates x d z l ↔ l = (List.range (steps x d z)).map fun i : ℕ => x + i * d := by
  constructor
  · intro h
    have h' := enumerates_progression (x := x) (z := z) hd
    exact h.ordered.eq_of_mem_iff h'.ordered fun a => (h.mem_iff a).trans (h'.mem_iff a).symm
  · rintro rfl
    exact enumerates_progression hd

theorem enumerates_zero_nil {x z : ℤ} : Enumerates x 0 z [] ↔ z < x := by
  constructor
  · intro h
    by_contra hx
    have hmem := (h.mem_iff x).2 ⟨0, by simp, by simpa [Within] using hx⟩
    simp at hmem
  · intro h
    refine ⟨List.Pairwise.nil, fun v => ?_⟩
    constructor
    · intro hv
      simp at hv
    · rintro ⟨k, rfl, hv⟩
      simp [Within] at hv
      omega

/-- A loop over representations lists a progression where it goes on at each of its values and
stops at the next. -/
theorem walks_enumerates {α : Type*} (stop : α → Bool) {next : α → α} {val : α → ℤ}
    {a : α} {d z : ℤ} (hd : d ≠ 0)
    (hval : ∀ i < steps (val a) d z, val (next^[i] a) = val a + i * d) :
    (∃ l, Walks stop next a l ∧ Enumerates (val a) d z (l.map val)) ↔
      (∀ i < steps (val a) d z, stop (next^[i] a) = false) ∧
        stop (next^[steps (val a) d z] a) = true := by
  simp only [walks_iff, enumerates_iff hd]
  constructor
  · rintro ⟨l, ⟨-, hall, hend⟩, hl⟩
    have hlen : l.length = steps (val a) d z := by simpa using congrArg List.length hl
    rw [hlen] at hall hend
    exact ⟨hall, hend⟩
  · rintro ⟨hall, hend⟩
    refine ⟨(List.range (steps (val a) d z)).map fun i => next^[i] a, ⟨?_, ?_, ?_⟩, ?_⟩
    · simp
    · simpa using hall
    · simpa using hend
    · rw [List.map_map]
      exact List.map_congr_left fun i hi => hval i (List.mem_range.1 hi)

end Jhc.Lib

import Mathlib.Data.Nat.Digits.Lemmas
import Mathlib.Data.Rat.Floor
import Mathlib.Tactic.Linarith
import Mathlib.Tactic.Positivity
import Mathlib.Tactic.FieldSimp
import Mathlib.Tactic.Ring

/-!
# Shortest digits

Numbers `0.d₁…dₙ · Bᵏ` in an interval, and the generation of the digits of a fraction `R / S`
one by one until what is written lies in the interval from `(R - D) / S` to `(R + U) / S`.
-/

namespace Jhc.Lib.Decimal
variable {B : ℕ}

/-! ### Digits and their value -/

structure Digits (B : ℕ) (ds : List ℕ) : Prop where
  ne_nil : ds ≠ []
  lt : ∀ d ∈ ds, d < B
  head : ds.head? ≠ some 0
  last : ds.getLast? ≠ some 0

def numeral (B : ℕ) (ds : List ℕ) : ℕ := Nat.ofDigits B ds.reverse

def val (B : ℕ) (ds : List ℕ) (k : ℤ) : ℚ := numeral B ds * (B : ℚ) ^ (k - ds.length)

theorem numeral_lt (hB : 1 < B) {ds : List ℕ} (h : ∀ d ∈ ds, d < B) : numeral B ds < B ^ ds.length := by
  have hlt := Nat.ofDigits_lt_base_pow_length hB (fun d hd => h d (List.mem_reverse.1 hd))
  rwa [List.length_reverse] at hlt

theorem numeral_ge {ds : List ℕ} (hne : ds ≠ []) (hhead : ds.head? ≠ some 0) :
    B ^ (ds.length - 1) ≤ numeral B ds := by
  cases ds with
  | nil => exact absurd rfl hne
  | cons d ds =>
    have hd : 1 ≤ d := Nat.pos_of_ne_zero fun h => hhead (by rw [h]; rfl)
    rw [numeral, Nat.ofDigits_reverse_cons, List.length_cons, Nat.add_sub_cancel]
    calc B ^ ds.length = B ^ ds.length * 1 := (Nat.mul_one _).symm
      _ ≤ B ^ ds.length * d := Nat.mul_le_mul_left _ hd
      _ ≤ _ := Nat.le_add_left _ _

section
variable {ds : List ℕ} {k : ℤ}

theorem length_pos (h : Digits B ds) : 1 ≤ ds.length := List.length_pos_of_ne_nil h.ne_nil

theorem val_lt (hB : 1 < B) (h : ∀ d ∈ ds, d < B) (k : ℤ) : val B ds k < (B : ℚ) ^ k := by
  have hpos : (0 : ℚ) < B := by exact_mod_cast Nat.zero_lt_of_lt hB
  have hnum : (numeral B ds : ℚ) < (B : ℚ) ^ (ds.length : ℤ) := by exact_mod_cast numeral_lt hB h
  calc val B ds k < (B : ℚ) ^ (ds.length : ℤ) * (B : ℚ) ^ (k - ds.length) :=
        mul_lt_mul_of_pos_right hnum (zpow_pos hpos _)
    _ = (B : ℚ) ^ k := by rw [← zpow_add₀ hpos.ne']; congr 1; omega

theorem val_ge (hB : 1 < B) (h : Digits B ds) (k : ℤ) : (B : ℚ) ^ (k - 1) ≤ val B ds k := by
  have hpos : (0 : ℚ) < B := by exact_mod_cast Nat.zero_lt_of_lt hB
  have hlen := length_pos h
  have hnum : (B : ℚ) ^ ((ds.length - 1 : ℕ) : ℤ) ≤ numeral B ds := by
    exact_mod_cast numeral_ge h.ne_nil h.head
  calc (B : ℚ) ^ (k - 1) = (B : ℚ) ^ ((ds.length - 1 : ℕ) : ℤ) * (B : ℚ) ^ (k - ds.length) := by
        rw [← zpow_add₀ hpos.ne']; congr 1; omega
    _ ≤ val B ds k := mul_le_mul_of_nonneg_right hnum (zpow_pos hpos _).le

/-- A number of at most `j` digits in the interval gives a multiple of `B ^ (K - j)` there. -/
theorem multiple_of_digits (hB : 1 < B) {lo hi : ℚ} {K : ℤ} (hle : hi ≤ (B : ℚ) ^ K) (hlt : (B : ℚ) ^ (K - 1) < hi)
    (h : Digits B ds) (hlo : lo < val B ds k) (hhi : val B ds k < hi) {j : ℕ} (hj : ds.length ≤ j) :
    ∃ m : ℕ, lo < m * (B : ℚ) ^ (K - j) ∧ m * (B : ℚ) ^ (K - j) < hi := by
  have hpos : (0 : ℚ) < B := by exact_mod_cast Nat.zero_lt_of_lt hB
  have hone : (1 : ℚ) < B := by exact_mod_cast hB
  have hlen := length_pos h
  by_cases hsmall : val B ds k < (B : ℚ) ^ (K - 1)
  · -- the power of the base itself is in the interval
    have hpow : ((B ^ (j - 1) : ℕ) : ℚ) * (B : ℚ) ^ (K - j) = (B : ℚ) ^ (K - 1) := by
      push_cast
      rw [← zpow_natCast, ← zpow_add₀ hpos.ne']
      congr 1
      omega
    exact ⟨B ^ (j - 1), by rw [hpow]; exact hlo.trans hsmall, by rw [hpow]; exact hlt⟩
  · have hkK : k - 1 < K := (zpow_lt_zpow_iff_right₀ hone).1 ((val_ge hB h k).trans_lt (hhi.trans_le hle))
    have hKk : K - 1 < k := (zpow_lt_zpow_iff_right₀ hone).1 ((not_lt.1 hsmall).trans_lt (val_lt hB h.lt k))
    have hk : k = K := by omega
    have hval : ((numeral B ds * B ^ (j - ds.length) : ℕ) : ℚ) * (B : ℚ) ^ (K - j) = val B ds k := by
      push_cast
      rw [mul_assoc, ← zpow_natCast, ← zpow_add₀ hpos.ne', val, hk]
      congr 2
      omega
    exact ⟨numeral B ds * B ^ (j - ds.length), by rw [hval]; exact hlo, by rw [hval]; exact hhi⟩

end

/-! ### Generation of digits -/

/-- `m / B ^ j` lies strictly between `(R - D) / S` and `(R + U) / S`. -/
def Between (B R S U D j m : ℕ) : Prop := B ^ j * R < m * S + B ^ j * D ∧ m * S < B ^ j * (R + U)

/-- What holds while digits are generated; they are kept in reverse. -/
structure Generated (B R S U D : ℕ) (ds : List ℕ) (rn u d : ℕ) : Prop where
  lt : ∀ x ∈ ds, x < B
  sum : B ^ ds.length * R = Nat.ofDigits B ds * S + rn
  up : u = B ^ ds.length * U
  down : d = B ^ ds.length * D
  room : rn + u ≤ S
  away : d ≤ rn

section
variable {R S U D : ℕ} {ds : List ℕ} {rn u d : ℕ}

theorem Generated.start (hroom : R + U ≤ S) (haway : D ≤ R) : Generated B R S U D [] R U D where
  lt x hx := absurd hx List.not_mem_nil
  sum := by simp
  up := by simp
  down := by simp
  room := hroom
  away := haway

theorem Generated.digit_lt (h : Generated B R S U D ds rn u d) (hU : 0 < u) (hB : 0 < B) : rn * B / S < B := by
  have hlt : rn < S := by have hroom := h.room; omega
  have hS : 0 < S := by omega
  rw [Nat.div_lt_iff_lt_mul hS, Nat.mul_comm]
  exact Nat.mul_lt_mul_of_pos_left hlt hB

/-- One more digit. -/
theorem Generated.sum_cons (h : Generated B R S U D ds rn u d) :
    B ^ (ds.length + 1) * R = Nat.ofDigits B (rn * B / S :: ds) * S + rn * B % S := by
  have hdiv := Nat.div_add_mod (rn * B) S
  have hsum := h.sum
  rw [Nat.ofDigits_cons, pow_succ]
  calc B ^ ds.length * B * R = B * (B ^ ds.length * R) := by ring
    _ = B * (Nat.ofDigits B ds * S) + rn * B := by rw [hsum]; ring
    _ = B * (Nat.ofDigits B ds * S) + (S * (rn * B / S) + rn * B % S) := by rw [hdiv]
    _ = _ := by push_cast; ring

theorem Generated.step (h : Generated B R S U D ds rn u d) (hU : 0 < u) (hB : 0 < B)
    (haway : ¬ rn * B % S < d * B) (hroom : ¬ rn * B % S + u * B > S) :
    Generated B R S U D (rn * B / S :: ds) (rn * B % S) (u * B) (d * B) where
  lt x hx := by
    rcases List.mem_cons.1 hx with rfl | hx
    · exact h.digit_lt hU hB
    · exact h.lt x hx
  sum := h.sum_cons
  up := by rw [h.up, List.length_cons, pow_succ]; ring
  down := by rw [h.down, List.length_cons, pow_succ]; ring
  room := not_lt.1 hroom
  away := not_lt.1 haway

/-- While digits are generated no fraction of their number lies in the interval. -/
theorem Generated.none_between (h : Generated B R S U D ds rn u d) (m : ℕ) : ¬ Between B R S U D ds.length m := by
  rintro ⟨hlo, hhi⟩
  have hsum := h.sum
  have haway := h.away
  have hroom := h.room
  rw [h.down] at haway
  rw [h.up] at hroom
  have hgt : Nat.ofDigits B ds * S < m * S := by omega
  have hlt : Nat.ofDigits B ds < m := lt_of_mul_lt_mul_right hgt (Nat.zero_le S)
  have hnext : (Nat.ofDigits B ds + 1) * S ≤ m * S := Nat.mul_le_mul_right _ hlt
  rw [Nat.add_mul, Nat.one_mul] at hnext
  rw [Nat.mul_add] at hhi
  omega

/-- What the generated digits are, kept in reverse, where more than `n` are generated. -/
structure Shortest (B R S U D n : ℕ) (ds : List ℕ) : Prop where
  lt : ∀ x ∈ ds, x < B
  last : ds.head? ≠ some 0
  between : Between B R S U D ds.length (Nat.ofDigits B ds)
  longer : n < ds.length
  least : ∀ j, n ≤ j → j < ds.length → ∀ m, ¬ Between B R S U D j m

theorem Generated.least_cons (h : Generated B R S U D ds rn u d) {x : ℕ} (j : ℕ) (hj : ds.length ≤ j)
    (hlt : j < (x :: ds).length) (m : ℕ) : ¬ Between B R S U D j m := by
  rw [List.length_cons] at hlt
  have heq : j = ds.length := by omega
  rw [heq]
  exact h.none_between m

theorem Generated.stop_low (h : Generated B R S U D ds rn u d) (hU : 0 < u) (hB : 0 < B) (hlow : rn * B % S < d * B) :
    Shortest B R S U D ds.length (rn * B / S :: ds) where
  lt x hx := by
    rcases List.mem_cons.1 hx with rfl | hx
    · exact h.digit_lt hU hB
    · exact h.lt x hx
  last hzero := by
    -- a digit zero would leave the remainder at least `d`
    have hdiv : rn * B / S = 0 := Option.some.inj hzero
    have hmod := Nat.div_add_mod (rn * B) S
    have haway : d * B ≤ rn * B := Nat.mul_le_mul_right _ h.away
    rw [hdiv, Nat.mul_zero, Nat.zero_add] at hmod
    omega
  between := by
    have hsum := h.sum_cons
    have hup : u * B = B ^ (ds.length + 1) * U := by rw [h.up, pow_succ]; ring
    have hdown : d * B = B ^ (ds.length + 1) * D := by rw [h.down, pow_succ]; ring
    have hpos : 0 < u * B := Nat.mul_pos hU hB
    rw [Between, List.length_cons, Nat.mul_add]
    omega
  longer := Nat.lt_succ_self _
  least := h.least_cons

theorem Generated.stop_high (h : Generated B R S U D ds rn u d) (hU : 0 < u) (hB : 0 < B)
    (hhigh : rn * B % S + u * B > S) : Shortest B R S U D ds.length ((rn * B / S + 1) :: ds) where
  lt x hx := by
    rcases List.mem_cons.1 hx with rfl | hx
    · have hdigit := h.digit_lt hU hB
      have hroom : (rn + u) * B ≤ S * B := Nat.mul_le_mul_right _ h.room
      have hmod := Nat.div_add_mod (rn * B) S
      by_contra hge
      -- the largest digit leaves room for the rest
      have htop : rn * B / S + 1 = B := by omega
      have hfull : S * (rn * B / S) + S = S * B := by rw [← Nat.mul_succ, Nat.succ_eq_add_one, htop]
      rw [Nat.add_mul] at hroom
      omega
    · exact h.lt x hx
  last hzero := absurd (Option.some.inj hzero) (Nat.succ_ne_zero _)
  between := by
    have hsum := h.sum_cons
    have hup : u * B = B ^ (ds.length + 1) * U := by rw [h.up, pow_succ]; ring
    have hS : 0 < S := by have hroom := h.room; omega
    have hmod := Nat.mod_lt (rn * B) hS
    have hsucc : Nat.ofDigits B ((rn * B / S + 1) :: ds) * S = Nat.ofDigits B (rn * B / S :: ds) * S + S := by
      simp only [Nat.ofDigits_cons]
      push_cast
      ring
    rw [Between, List.length_cons, Nat.mul_add, hsucc]
    omega
  longer := Nat.lt_succ_self _
  least := h.least_cons

/-- The first digit is not zero where the interval reaches `1 / B`. -/
theorem Shortest.digits {ds : List ℕ} (hB : 1 < B) (h : Shortest B R S U D 0 ds) (hreach : S < B * (R + U)) :
    Digits B ds.reverse where
  ne_nil hnil := by
    have hlong := h.longer
    rw [List.reverse_eq_nil_iff.1 hnil] at hlong
    exact absurd hlong (Nat.lt_irrefl _)
  lt x hx := h.lt x (List.mem_reverse.1 hx)
  last hlast := h.last (by rwa [List.getLast?_reverse] at hlast)
  head hhead := by
    rw [List.head?_reverse] at hhead
    obtain ⟨ys, rfl⟩ := List.getLast?_eq_some_iff.1 hhead
    have hlt : Nat.ofDigits B ys < B ^ ys.length :=
      Nat.ofDigits_lt_base_pow_length hB fun x hx => h.lt x (List.mem_append_left _ hx)
    have hnum : Nat.ofDigits B (ys ++ [0]) = Nat.ofDigits B ys := Nat.ofDigits_append_zero ys
    have hlo := h.between.1
    rw [hnum, List.length_append, List.length_singleton] at hlo
    cases ys with
    | nil => exact h.last rfl
    | cons y ys =>
      -- the fraction is below `1 / B`, which lies in the interval and has one digit
      refine h.least 1 (Nat.zero_le 1) (by simp) 1 ⟨?_, by simpa using hreach⟩
      set n := (y :: ys).length
      have hS : Nat.ofDigits B (y :: ys) * S ≤ B ^ n * S := Nat.mul_le_mul_right _ hlt.le
      have hle : B ^ n * (B * R) < B ^ n * (S + B * D) := by
        calc B ^ n * (B * R) = B ^ (n + 1) * R := by rw [pow_succ]; ring
          _ < B ^ n * S + B ^ (n + 1) * D := lt_of_lt_of_le hlo (Nat.add_le_add_right hS _)
          _ = B ^ n * (S + B * D) := by rw [pow_succ]; ring
      simpa using lt_of_mul_lt_mul_left hle (Nat.zero_le _)

end

end Jhc.Lib.Decimal

import Mathlib.Data.Finset.Card
import Mathlib.Data.List.Range
import Jhc.Rts.Block

/-!
# The bit array of one slab block (rts/gc_jgc.c:303-322, 493-504)

`clear_block_used_bits`, `bitset_find_free` and the relation between `num_free`
and the bits of `used` that every routine of the slab allocator keeps.
-/

namespace Jhc.Rts

/-! ### clear_block_used_bits (gc_jgc.c:493-504) -/

section Clear

variable (T : Target)

def clear_block_used_bits (numEntries : ℕ) (pg : SBlock T.bitsPerUnit) : SBlock T.bitsPerUnit :=
  let last := T.bitarraySize numEntries - 1
  let excess := numEntries % T.bitsPerUnit
  { pg with
    u := pg.u.setNumFree numEntries
    used := Function.update (fun i => if i < last then 0#_ else pg.used i) last
      (~~~(1#_ <<< excess - 1#_)) }

variable {T}

theorem clear_block_bits {n i : ℕ} (hn : n % T.bitsPerUnit ≠ 0)
    (hi : i < T.bitsPerUnit * T.bitarraySize n) (pg : SBlock T.bitsPerUnit) :
    bitIsSet (clear_block_used_bits T n pg).used i = decide (n ≤ i) := by
  have hw := T.bitsPerUnit_pos
  have hlast := T.bitarraySize_last n hn
  have hmod := Nat.mod_lt n hw
  have himod := Nat.mod_lt i hw
  have hdiv := Nat.div_add_mod i T.bitsPerUnit
  have hq : i / T.bitsPerUnit < T.bitarraySize n := Nat.div_lt_of_lt_mul hi
  simp only [bitIsSet, clear_block_used_bits]
  by_cases hword : i / T.bitsPerUnit = T.bitarraySize n - 1
  · rw [hword, Function.update_self, getLsbD_excess hmod himod]
    rw [hword] at hdiv
    congr 1
    apply propext
    omega
  · rw [Function.update_of_ne hword, if_pos (by omega)]
    have hle : T.bitsPerUnit * (i / T.bitsPerUnit + 1) ≤
        T.bitsPerUnit * (T.bitarraySize n - 1) := Nat.mul_le_mul_left _ (by omega)
    rw [Nat.mul_succ] at hle
    have hlt : ¬ n ≤ i := by omega
    simp [hlt]

end Clear

/-! ### bitset_find_free (gc_jgc.c:303-322) -/

section Find

variable {w : ℕ}

/-- `__builtin_ffsl`: one plus the index of the lowest set bit, zero if there is none. -/
def ffsl (x : BitVec w) : ℕ :=
  match (List.range w).find? fun j => x.getLsbD j with
  | some j => j + 1
  | none => 0

theorem ffsl_zero {x : BitVec w} (h : ffsl x = 0) {j : ℕ} (hj : j < w) : x.getLsbD j = false := by
  unfold ffsl at h
  cases hf : (List.range w).find? fun j => x.getLsbD j with
  | some k =>
    rw [hf] at h
    exact absurd h (Nat.succ_ne_zero k)
  | none =>
    have hall := List.find?_eq_none.mp hf j (List.mem_range.mpr hj)
    simpa using hall

theorem ffsl_succ {x : BitVec w} {o : ℕ} (h : ffsl x = o + 1) :
    o < w ∧ x.getLsbD o = true ∧ ∀ j < o, x.getLsbD j = false := by
  unfold ffsl at h
  cases hf : (List.range w).find? fun j => x.getLsbD j with
  | none =>
    rw [hf] at h
    exact absurd h.symm (Nat.succ_ne_zero o)
  | some k =>
    rw [hf] at h
    have hk : k = o := Nat.succ_injective h
    subst hk
    obtain ⟨hset, hmem, hlow⟩ := List.find?_range_eq_some.mp hf
    exact ⟨List.mem_range.mp hmem, hset, fun j hj => by simpa using hlow j hj⟩

/-- The loop, where a failed assertion gives `none`. It asserts that `i` does
not come back to `start`, so it runs at most `n` times. -/
def findFreeLoop (start n : ℕ) : ℕ → ℕ → (ℕ → BitVec w) → Option (ℕ × ℕ × (ℕ → BitVec w))
  | 0, _, _ => none
  | fuel + 1, i, ba =>
    match ffsl (~~~ ba i) with
    | o + 1 => some (i * w + o, i, Function.update ba i (ba i ||| 1#w <<< o))
    | 0 =>
      let i' := (i + 1) % n
      if i' = start then none else findFreeLoop start n fuel i' ba

def bitset_find_free (nextFree n : ℕ) (ba : ℕ → BitVec w) :
    Option (ℕ × ℕ × (ℕ → BitVec w)) :=
  if nextFree < n then findFreeLoop nextFree n n nextFree ba else none

/-- Bit `found` is the lowest clear bit of its word `found / w`. -/
def FreeIn (ba : ℕ → BitVec w) (found : ℕ) : Prop :=
  bitIsSet ba found = false ∧ ∀ j < found % w, (ba (found / w)).getLsbD j = true

theorem findFree_hit {ba : ℕ → BitVec w} {i o : ℕ} (h : ffsl (~~~ ba i) = o + 1) :
    FreeIn ba (i * w + o) ∧ (i * w + o) / w = i ∧
      Function.update ba i (ba i ||| 1#w <<< o) = bitSet ba (i * w + o) := by
  obtain ⟨ho, hclear, hlow⟩ := ffsl_succ h
  have hdiv : (i * w + o) / w = i := by
    rw [Nat.mul_comm, Nat.mul_add_div (by omega), Nat.div_eq_of_lt ho, Nat.add_zero]
  have hmod : (i * w + o) % w = o := by
    rw [Nat.mul_comm, Nat.mul_add_mod, Nat.mod_eq_of_lt ho]
  have hbit : ∀ j < w, (~~~ ba i).getLsbD j = !(ba i).getLsbD j := by
    intro j hj
    simp [hj]
  refine ⟨⟨?_, ?_⟩, hdiv, ?_⟩
  · rw [hbit o ho] at hclear
    unfold bitIsSet
    rw [hdiv, hmod]
    simpa using hclear
  · intro j hj
    rw [hmod] at hj
    have h := hlow j hj
    rw [hbit j (by omega)] at h
    rw [hdiv]
    simpa using h
  · unfold bitSet
    rw [hdiv, hmod]

theorem findFreeLoop_spec {start n : ℕ} {ba : ℕ → BitVec w} (hstart : start < n)
    (hfree : ∃ q < n, ffsl (~~~ ba q) ≠ 0) (fuel d : ℕ) (hd : d + fuel = n)
    (hfull : ∀ e < d, ffsl (~~~ ba ((start + e) % n)) = 0) :
    ∃ found, findFreeLoop start n fuel ((start + d) % n) ba =
        some (found, found / w, bitSet ba found) ∧ FreeIn ba found ∧ found / w < n := by
  induction fuel generalizing d with
  | zero =>
    -- every word has been visited, so none is left to hold the free bit
    obtain ⟨q, hq, hne⟩ := hfree
    exfalso
    apply hne
    by_cases hle : start ≤ q
    · have h := hfull (q - start) (by omega)
      rwa [Nat.add_sub_cancel' hle, Nat.mod_eq_of_lt hq] at h
    · have h := hfull (n - start + q) (by omega)
      have heq : start + (n - start + q) = q + n := by omega
      rwa [heq, Nat.add_mod_right, Nat.mod_eq_of_lt hq] at h
  | succ fuel ih =>
    have hlt : (start + d) % n < n := Nat.mod_lt _ (by omega)
    cases ho : ffsl (~~~ ba ((start + d) % n)) with
    | succ o =>
      obtain ⟨hfree, hdiv, hset⟩ := findFree_hit ho
      refine ⟨(start + d) % n * w + o, ?_, hfree, by rw [hdiv]; exact hlt⟩
      simp only [findFreeLoop, ho, hdiv, hset]
    | zero =>
      have hnext : ((start + d) % n + 1) % n = (start + (d + 1)) % n := by
        rw [Nat.mod_add_mod, Nat.add_assoc]
      have hfull' : ∀ e < d + 1, ffsl (~~~ ba ((start + e) % n)) = 0 := by
        intro e he
        by_cases hed : e = d
        · rw [hed]
          exact ho
        · exact hfull e (by omega)
      obtain ⟨found, hrun, hrest⟩ := ih (d + 1) (by omega) hfull'
      refine ⟨found, ?_, hrest⟩
      have hne : (start + (d + 1)) % n ≠ start := by
        intro heq
        cases fuel with
        | zero => simp [findFreeLoop] at hrun
        | succ fuel =>
          have hstep : (start + (d + 1)) % n = start := heq
          by_cases hwrap : start + (d + 1) < n
          · rw [Nat.mod_eq_of_lt hwrap] at hstep
            omega
          · have hsub : start + (d + 1) = (start + (d + 1) - n) + n := by omega
            rw [hsub, Nat.add_mod_right, Nat.mod_eq_of_lt (by omega)] at hstep
            omega
      simp only [findFreeLoop, ho, hnext, if_neg hne]
      exact hrun

theorem bitset_find_free_spec {nextFree n : ℕ} {ba : ℕ → BitVec w} (hnext : nextFree < n)
    {j : ℕ} (hj : j < w * n) (hclear : bitIsSet ba j = false) :
    ∃ found, bitset_find_free nextFree n ba = some (found, found / w, bitSet ba found) ∧
      FreeIn ba found ∧ found / w < n := by
  have hw : 0 < w := Nat.pos_of_mul_pos_right (by omega : 0 < w * n)
  have hfree : ∃ q < n, ffsl (~~~ ba q) ≠ 0 := by
    refine ⟨j / w, Nat.div_lt_of_lt_mul hj, ?_⟩
    intro hzero
    have hbit := ffsl_zero hzero (Nat.mod_lt j hw)
    unfold bitIsSet at hclear
    rw [BitVec.getLsbD_not, hclear, Bool.not_false, Bool.and_true] at hbit
    exact absurd (Nat.mod_lt j hw) (by simpa using hbit)
  have hloop := findFreeLoop_spec hnext hfree n 0 (Nat.zero_add n) (fun e he => absurd he (by omega))
  rw [Nat.add_zero, Nat.mod_eq_of_lt hnext] at hloop
  simpa only [bitset_find_free, if_pos hnext] using hloop

end Find

/-! ### num_free counts the clear bits -/

section Count

variable {w : ℕ}

def clearBits (n : ℕ) (used : ℕ → BitVec w) : Finset ℕ :=
  (Finset.range n).filter fun i => bitIsSet used i = false

theorem mem_clearBits {n i : ℕ} {used : ℕ → BitVec w} :
    i ∈ clearBits n used ↔ i < n ∧ bitIsSet used i = false := by
  simp [clearBits]

theorem clearBits_bitSet {n i : ℕ} {used : ℕ → BitVec w} (hw : 0 < w) :
    clearBits n (bitSet used i) = (clearBits n used).erase i := by
  ext j
  rw [Finset.mem_erase, mem_clearBits, mem_clearBits, bitIsSet_bitSet used hw]
  by_cases hj : j = i
  · simp [hj]
  · simp [hj]

theorem card_clearBits_bitSet {n i : ℕ} {used : ℕ → BitVec w} (hw : 0 < w) (hi : i < n)
    (hclear : bitIsSet used i = false) :
    (clearBits n (bitSet used i)).card + 1 = (clearBits n used).card := by
  have hmem : i ∈ clearBits n used := mem_clearBits.mpr ⟨hi, hclear⟩
  rw [clearBits_bitSet hw]
  exact Finset.card_erase_add_one hmem

theorem card_clearBits_le (n : ℕ) (used : ℕ → BitVec w) : (clearBits n used).card ≤ n := by
  have h := Finset.card_filter_le (Finset.range n) fun i => bitIsSet used i = false
  rwa [Finset.card_range] at h

theorem all_clear {n : ℕ} {used : ℕ → BitVec w} (h : (clearBits n used).card = n) {i : ℕ}
    (hi : i < n) : bitIsSet used i = false := by
  have hsub : clearBits n used ⊆ Finset.range n := Finset.filter_subset ..
  have heq : clearBits n used = Finset.range n :=
    Finset.eq_of_subset_of_card_le hsub (by rw [h, Finset.card_range])
  have hmem : i ∈ clearBits n used := by
    rw [heq]
    exact Finset.mem_range.mpr hi
  exact (mem_clearBits.mp hmem).2

end Count

section Inv

variable (T : Target)

def ExcessSet (n : ℕ) (used : ℕ → BitVec T.bitsPerUnit) : Prop :=
  ∀ i, n ≤ i → i < T.bitsPerUnit * T.bitarraySize n → bitIsSet used i = true

/-- What holds of every block of a cache with `n` entries. When `n` is below the
word size the excess bits may be clear, and then the single word of `used` keeps
`bitset_find_free` below `n`. -/
structure BlockInv (n : ℕ) (b : SBlock T.bitsPerUnit) : Prop where
  count : (clearBits n b.used).card = b.u.numFree
  excess : n < T.bitsPerUnit ∨ ExcessSet T n b.used

variable {T}

@[simp] theorem numFree_setNumFree_pi (p s f x n : ℕ) :
    (BlockU.setNumFree (.pi p s f x) n).numFree = n := rfl

theorem clear_block_inv {n : ℕ} (hn : n % T.bitsPerUnit ≠ 0) {b : SBlock T.bitsPerUnit}
    {p s f x : ℕ} (hu : b.u = .pi p s f x) :
    BlockInv T n (clear_block_used_bits T n b) ∧
      (clear_block_used_bits T n b).u = .pi p s n x ∧
      ExcessSet T n (clear_block_used_bits T n b).used := by
  have hw := T.bitsPerUnit_pos
  have hn0 : 0 < n := by
    rcases Nat.eq_zero_or_pos n with h | h
    · rw [h, Nat.zero_mod] at hn
      exact absurd rfl hn
    · exact h
  have hcap := (T.bitarraySize_spec n hn0).2.1
  have hexc : ExcessSet T n (clear_block_used_bits T n b).used := by
    intro i hle hlt
    rw [clear_block_bits hn hlt]
    simpa using hle
  have hfree : (clear_block_used_bits T n b).u = .pi p s n x := by
    simp [clear_block_used_bits, hu, BlockU.setNumFree]
  refine ⟨⟨?_, Or.inr hexc⟩, hfree, hexc⟩
  have hall : clearBits n (clear_block_used_bits T n b).used = Finset.range n := by
    ext i
    rw [mem_clearBits, Finset.mem_range]
    constructor
    · intro h
      exact h.1
    · intro hi
      refine ⟨hi, ?_⟩
      rw [clear_block_bits hn (by omega)]
      simpa using hi
  rw [hall, Finset.card_range, hfree]
  rfl

theorem BlockInv.mark {n i : ℕ} {b b' : SBlock T.bitsPerUnit} (h : BlockInv T n b) (hi : i < n)
    (hclear : bitIsSet b.used i = false) (hused : b'.used = bitSet b.used i)
    (hu : b'.u.numFree + 1 = b.u.numFree) : BlockInv T n b' := by
  have hw := T.bitsPerUnit_pos
  have hcard := card_clearBits_bitSet hw hi hclear
  have hcount := h.count
  constructor
  · rw [hused]
    omega
  · refine h.excess.imp_right fun hexc j hle hlt => ?_
    rw [hused, bitIsSet_bitSet _ hw, hexc j hle hlt, Bool.or_true]

/-- The bit that `bitset_find_free` picks in a block with free entries is one of
the first `n`. -/
theorem BlockInv.find {n nextFree : ℕ} {b : SBlock T.bitsPerUnit} (h : BlockInv T n b)
    (hfree : b.u.numFree ≠ 0) (hnext : nextFree < T.bitarraySize n) :
    ∃ found, bitset_find_free nextFree (T.bitarraySize n) b.used =
        some (found, found / T.bitsPerUnit, bitSet b.used found) ∧
      found < n ∧ bitIsSet b.used found = false ∧
      found / T.bitsPerUnit < T.bitarraySize n := by
  have hw := T.bitsPerUnit_pos
  have hcount := h.count
  have hne : (clearBits n b.used).Nonempty := by
    rw [← Finset.card_pos]
    omega
  obtain ⟨j, hj⟩ := hne
  obtain ⟨hjn, hjclear⟩ := mem_clearBits.mp hj
  obtain ⟨-, hcap, -⟩ := T.bitarraySize_spec n (by omega)
  obtain ⟨found, hrun, ⟨hclear, hlow⟩, hword⟩ :=
    bitset_find_free_spec hnext (by omega : j < T.bitsPerUnit * T.bitarraySize n) hjclear
  refine ⟨found, hrun, ?_, hclear, hword⟩
  by_contra hge
  have hlt : found < T.bitsPerUnit * T.bitarraySize n := by
    have hdiv := Nat.div_add_mod found T.bitsPerUnit
    have hmod := Nat.mod_lt found hw
    have hle : T.bitsPerUnit * (found / T.bitsPerUnit + 1) ≤ T.bitsPerUnit * T.bitarraySize n :=
      Nat.mul_le_mul_left _ hword
    rw [Nat.mul_succ] at hle
    omega
  rcases h.excess with hsmall | hexc
  · -- one word: its lowest clear bit is at most `j`
    have hone : T.bitarraySize n = 1 := by
      unfold Target.bitarraySize
      rw [Nat.div_eq_iff hw]
      omega
    rw [hone, Nat.lt_one_iff] at hword
    rw [hone, Nat.mul_one] at hlt
    rw [Nat.mod_eq_of_lt hlt, hword] at hlow
    have hset := hlow j (by omega)
    unfold bitIsSet at hjclear
    rw [Nat.div_eq_of_lt (by omega), Nat.mod_eq_of_lt (by omega : j < T.bitsPerUnit)] at hjclear
    rw [hset] at hjclear
    exact Bool.noConfusion hjclear
  · have hset := hexc found (by omega) hlt
    rw [hset] at hclear
    exact Bool.noConfusion hclear

end Inv

end Jhc.Rts

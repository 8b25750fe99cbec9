import Jhc.Rts.GcSafety

/-!
# Marking any block of the arena (rts/gc_jgc.c:604-621, gc_jgc_internal.h:28-46)

`s_set_used_bit` divides by `u.pi.size` before it looks at the flags. In a
monolithic block that byte belongs to `u.m.num_ptrs`, and which of its four bytes
it is depends on the byte order of the machine.
-/

namespace Jhc.Rts
open Jhc.Lib

inductive Endian where
  | little | big
  deriving DecidableEq, Repr

/-- `u.pi.size` as it is read: the second of the four bytes of `u.m.num_ptrs`. -/
def BlockU.sizeAt (e : Endian) : BlockU → ℕ
  | .pi _ s _ _ => s
  | .m p =>
    match e with
    | .little => p / 256 % 256
    | .big => p / 65536 % 256

/-- What `s_monoblock` writes and no routine changes, for any number of pointers. -/
structure MonoHeader (T : Target) (m : Addr) (b : SBlock T.bitsPerUnit) : Prop where
  flag : hasFlag b.flags SLAB_MONOLITH = true
  color : b.color = Arena.colorOf T 1
  aligned : T.blockSize ∣ m
  word : b.used 0 = 0#_ ∨ b.used 0 = 1#_

namespace Arena

variable {T : Target} {P : ℕ → Prop}

def set_used_bit (e : Endian) (val : Addr) (a : Arena T) : Option (Bool × Arena T) :=
  let pg := S_BLOCK T val
  let b := a.block pg
  let offset := (val - pg) / T.wordBytes - b.color
  if b.u.sizeAt e = 0 then none
  else if bitIsSet b.used (offset / b.u.sizeAt e) then some (false, a)
  else if hasFlag b.flags SLAB_MONOLITH then
    some (b.u.numPtrs != 0, a.setBlock pg { b with used := Function.update b.used 0 1#_ })
  else
    some (b.u.numPtrs != 0, a.setBlock pg
      { b with
        used := bitSet b.used (offset / b.u.sizeAt e)
        u := b.u.setNumFree ((b.u.numFree + (2 ^ 16 - 1)) % 2 ^ 16) })

theorem set_used_bit_little (val : Addr) (a : Arena T) :
    set_used_bit .little val a = s_set_used_bit val a := by
  have hsize : ∀ u : BlockU, u.sizeAt .little = u.size := fun u => by cases u <;> rfl
  simp only [set_used_bit, s_set_used_bit, hsize]

/-! ### The blocks on the lists of an arena -/

/-- `Core` with the headers of monolithic blocks of any number of pointers. -/
structure Listed (P : ℕ → Prop) (a : Arena T) : Prop extends Core P [] a where
  monos : ∀ xs, a.MonoList xs → ∀ m ∈ xs, MonoHeader T m (a.block m)

theorem Heap.listed {a : Arena T} (h : Heap P a) : Listed P a := by
  refine ⟨h.toCore, fun xs hxs m hm => ?_⟩
  have hold := h.monos xs hxs m hm
  exact ⟨hold.flag, hold.color, hold.aligned, hold.word⟩

/-- `v` points at a word of object `i` of the block `pg`. -/
inductive Into (a : Arena T) : Addr → Addr → ℕ → Prop where
  | slot {sc : ℕ} {pg : Addr} {i k : ℕ} (hsc : sc ∈ a.caches) (hpg : pg ∈ (a.cache sc).lists)
      (hi : i < (a.cache sc).numEntries) (hk : k < (a.cache sc).size) :
      Into a (slotAddr T (a.cache sc) pg i + k * T.wordBytes) pg i
  | mono {xs : List Addr} {m : Addr} {k : ℕ} (hxs : a.MonoList xs) (hm : m ∈ xs)
      (hk : k = 0 ∨ k < (a.block m).u.numPtrs) : Into a (monoAddr T m + k * T.wordBytes) m 0

/-- The pointer stays in the first `BLOCK_SIZE` bytes of a monolith, and the
number of words before it is below the byte that `s_set_used_bit` divides by. -/
def ByteOk (e : Endian) (a : Arena T) (v pg : Addr) : Prop :=
  ∀ xs, a.MonoList xs → pg ∈ xs →
    v < pg + T.blockSize ∧ (v - monoAddr T pg) / T.wordBytes < (a.block pg).u.sizeAt e

/-- The call on `v` sets bit `i` of the block `pg` and writes nothing else but
the free count of that block. -/
structure Marks (e : Endian) (P : ℕ → Prop) (a : Arena T) (v pg : Addr) (i : ℕ) (grey : Bool)
    (b : SBlock T.bitsPerUnit) : Prop where
  run : set_used_bit e v a = some (grey, a.setBlock pg b)
  bits : ∀ j, bitIsSet b.used j = true ↔ bitIsSet (a.block pg).used j = true ∨ j = i
  header : b.flags = (a.block pg).flags ∧ b.color = (a.block pg).color ∧
    b.u.numPtrs = (a.block pg).u.numPtrs ∧ b.u.sizeAt e = (a.block pg).u.sizeAt e
  whole : ∀ xs, a.MonoList xs → pg ∈ xs → b.used 0 = 1#_
  listed : Listed P (a.setBlock pg b)

theorem setBlock_self (a : Arena T) (pg : Addr) : a.setBlock pg (a.block pg) = a := by
  unfold setBlock
  rw [Function.update_eq_self]

/-! ### Entries of cache blocks -/

theorem entry_word_index {a : Arena T} (h : Core P [] a) {sc : ℕ} {pg : Addr} {i k : ℕ}
    (hsc : sc ∈ a.caches) (hpg : pg ∈ (a.cache sc).lists) (hi : i < (a.cache sc).numEntries)
    (hk : k < (a.cache sc).size) :
    ((slotAddr T (a.cache sc) pg i + k * T.wordBytes - pg) / T.wordBytes - (a.cache sc).color) /
      (a.cache sc).size = i := by
  obtain ⟨haddr, -⟩ := slot_word h hsc hpg hi hk
  rw [haddr, Nat.add_sub_cancel_left, Nat.mul_div_cancel _ T.word_pos, Nat.add_sub_cancel_left,
    Nat.mul_comm i, Nat.mul_add_div (h.wf sc hsc).size_pos, Nat.div_eq_of_lt hk, Nat.add_zero]

/-- For the rest of the call any word of an entry is as good as its first. -/
theorem set_used_bit_word (e : Endian) {a : Arena T} (h : Core P [] a) {sc : ℕ} {pg : Addr}
    {i k : ℕ} (hsc : sc ∈ a.caches) (hpg : pg ∈ (a.cache sc).lists)
    (hi : i < (a.cache sc).numEntries) (hk : k < (a.cache sc).size) :
    set_used_bit e (slotAddr T (a.cache sc) pg i + k * T.wordBytes) a =
      s_set_used_bit (slotAddr T (a.cache sc) pg i) a := by
  have hwf := h.wf sc hsc
  have hal := h.aligned hsc hpg
  have hold := h.block sc hsc pg hpg
  obtain ⟨f, x, hu, -⟩ := hold.header
  have hsize : (a.block pg).u.size = (a.cache sc).size := by rw [hu]; rfl
  have hsizeAt : (a.block pg).u.sizeAt e = (a.cache sc).size := by rw [hu]; rfl
  have hblk := (slot_word h hsc hpg hi hk).2
  have hidx := entry_word_index h hsc hpg hi hk
  have hblk₀ := hwf.slot_block hal hi
  have hidx₀ := hwf.slot_index pg i
  simp only [set_used_bit, s_set_used_bit, hblk, hblk₀, hold.color, hsize, hsizeAt, hidx, hidx₀]

theorem listed_slot {a : Arena T} (h : Listed P a) {sc : ℕ} {pg : Addr} (hsc : sc ∈ a.caches)
    (hpg : pg ∈ (a.cache sc).lists) {b : SBlock T.bitsPerUnit} (hb : (a.cache sc).Holds b) :
    Listed P (a.setBlock pg b) := by
  refine ⟨h.toCore.setBlock hsc hpg hb, fun xs hxs m hm => ?_⟩
  have hne : m ≠ pg := fun heq => h.not_mono hxs (Core.mem_placed hsc hpg) (heq ▸ hm)
  have hsame : (a.setBlock pg b).block m = a.block m := Function.update_of_ne hne ..
  rw [hsame]
  exact h.monos xs hxs m hm

theorem marks_slot (e : Endian) {a : Arena T} (h : Listed P a) {sc : ℕ} {pg : Addr} {i k : ℕ}
    (hsc : sc ∈ a.caches) (hpg : pg ∈ (a.cache sc).lists) (hi : i < (a.cache sc).numEntries)
    (hk : k < (a.cache sc).size) :
    ∃ grey b, Marks e P a (slotAddr T (a.cache sc) pg i + k * T.wordBytes) pg i grey b ∧
      (grey = true ↔ bitIsSet (a.block pg).used i = false ∧ (a.block pg).u.numPtrs ≠ 0) := by
  have hold := h.block sc hsc pg hpg
  obtain ⟨f, x, hu, -⟩ := hold.header
  have hnot : ∀ xs, a.MonoList xs → pg ∉ xs :=
    fun xs hxs => h.not_mono hxs (Core.mem_placed hsc hpg)
  have hrun := set_used_bit_word e h.toCore hsc hpg hi hk
  rcases s_set_used_bit_slot h.toCore hsc hpg hi with ⟨hset, hbit⟩ | ⟨hclear, b, hbit, hb, hused⟩
  · refine ⟨false, a.block pg, ⟨?_, fun j => ?_, ⟨rfl, rfl, rfl, rfl⟩,
      fun xs hxs hin => absurd hin (hnot xs hxs), ?_⟩, by simp [hset]⟩
    · rw [hrun, hbit, setBlock_self]
    · constructor
      · exact Or.inl
      · rintro (hj | rfl)
        · exact hj
        · exact hset
    · rw [setBlock_self]
      exact h
  · obtain ⟨f', x', hu', -⟩ := hb.header
    refine ⟨_, b, ⟨hrun.trans hbit, fun j => ?_, ⟨?_, ?_, ?_, ?_⟩,
      fun xs hxs hin => absurd hin (hnot xs hxs), listed_slot h hsc hpg hb⟩, ?_⟩
    · rw [hused, bitIsSet_bitSet _ T.bitsPerUnit_pos, Bool.or_eq_true, decide_eq_true_eq, or_comm]
    · rw [hb.flags, hold.flags]
    · rw [hb.color, hold.color]
    · rw [hu, hu']
      rfl
    · rw [hu, hu']
      rfl
    · have hptrs : (a.block pg).u.numPtrs = (a.cache sc).numPtrs := by rw [hu]; rfl
      rw [hptrs, hclear]
      simp

/-! ### Monolithic blocks -/

theorem mono_bits {w : ℕ} (hw : 0 < w) {used : ℕ → BitVec w} (hword : used 0 = 0#w ∨ used 0 = 1#w)
    (j : ℕ) :
    bitIsSet (Function.update used 0 1#w) j = true ↔ bitIsSet used j = true ∨ j = 0 := by
  unfold bitIsSet
  by_cases hj : j / w = 0
  · have hlt : j < w := by
      rcases Nat.div_eq_zero_iff.mp hj with h | h
      · omega
      · exact h
    have hone : (1#w).getLsbD j = decide (j = 0) := by
      simpa using getLsbD_one_shiftLeft (j := j) hw
    rw [hj, Function.update_self, Nat.mod_eq_of_lt hlt]
    rcases hword with h | h
    · rw [h, hone]
      simp
    · rw [h, hone]
      simp
  · rw [Function.update_of_ne hj]
    have hne : j ≠ 0 := fun heq => hj (by rw [heq, Nat.zero_div])
    simp [hne]

theorem bitIsSet_zero {w : ℕ} (hw : 0 < w) {used : ℕ → BitVec w}
    (hword : used 0 = 0#w ∨ used 0 = 1#w) : bitIsSet used 0 = true ↔ used 0 = 1#w := by
  have hone : (1#w).getLsbD 0 = true := by
    simpa using getLsbD_one_shiftLeft (j := 0) hw
  unfold bitIsSet
  rw [Nat.zero_div, Nat.zero_mod]
  rcases hword with h | h
  · rw [h]
    simp only [BitVec.getLsbD_zero, Bool.false_eq_true, false_iff]
    intro heq
    rw [← heq] at hone
    simp at hone
  · rw [h]
    simpa using hone

theorem listed_mono {a : Arena T} (h : Listed P a) {xs : List Addr} {m : Addr}
    (hxs : a.MonoList xs) (hm : m ∈ xs) {b : SBlock T.bitsPerUnit}
    (hb : MonoHeader T m b) : Listed P (a.setBlock m b) := by
  have hnot : m ∉ a.placed := fun hin => h.not_mono hxs hin hm
  refine ⟨?_, fun ys hys m' hm' => ?_⟩
  · rw [setBlock_eq]
    refine h.toCore.withBlocks (fun sc hsc pg hpg => ?_) fun pg hpg => ?_
    · have hne : pg ≠ m := fun heq => hnot (heq ▸ Core.mem_placed hsc hpg)
      rw [Function.update_of_ne hne]
      exact h.block sc hsc pg hpg
    · have hne : pg ≠ m := fun heq => hnot (heq ▸ List.mem_append_right _ hpg)
      exact Function.update_of_ne hne ..
  · by_cases hmm : m' = m
    · subst hmm
      show MonoHeader T m' (Function.update a.block m' b m')
      rw [Function.update_self]
      exact hb
    · show MonoHeader T m' (Function.update a.block m b m')
      rw [Function.update_of_ne hmm]
      exact h.monos ys hys m' hm'

theorem mono_word_index {m : Addr} {b : SBlock T.bitsPerUnit} (h : MonoHeader T m b) {k : ℕ}
    (hk : monoAddr T m + k * T.wordBytes < m + T.blockSize) :
    S_BLOCK T (monoAddr T m + k * T.wordBytes) = m ∧
      (monoAddr T m + k * T.wordBytes - m) / T.wordBytes - b.color = k := by
  have hsum : monoAddr T m + k * T.wordBytes = m + (colorOf T 1 + k) * T.wordBytes := by
    unfold monoAddr
    ring
  rw [hsum] at hk ⊢
  refine ⟨?_, ?_⟩
  · obtain ⟨q, rfl⟩ := h.aligned
    unfold S_BLOCK
    have hlt := Nat.add_lt_add_iff_left.mp hk
    rw [Nat.mul_add_div T.blockSize_pos, Nat.div_eq_of_lt hlt, Nat.add_zero, Nat.mul_comm]
  · rw [Nat.add_sub_cancel_left, Nat.mul_div_cancel _ T.word_pos, h.color, Nat.add_sub_cancel_left]

theorem marks_mono (e : Endian) {a : Arena T} (h : Listed P a) {xs : List Addr} {m : Addr} {k : ℕ}
    (hxs : a.MonoList xs) (hm : m ∈ xs)
    (hbyte : ByteOk e a (monoAddr T m + k * T.wordBytes) m) :
    ∃ grey b, Marks e P a (monoAddr T m + k * T.wordBytes) m 0 grey b ∧
      (grey = true ↔ bitIsSet (a.block m).used 0 = false ∧ (a.block m).u.numPtrs ≠ 0) := by
  have hw := T.bitsPerUnit_pos
  have hold := h.monos xs hxs m hm
  obtain ⟨hin, hlt⟩ := hbyte xs hxs hm
  rw [Nat.add_sub_cancel_left, Nat.mul_div_cancel _ T.word_pos] at hlt
  obtain ⟨hblk, hoff⟩ := mono_word_index hold hin
  have hdiv : k / (a.block m).u.sizeAt e = 0 := Nat.div_eq_of_lt hlt
  have hsize : (a.block m).u.sizeAt e ≠ 0 := Nat.ne_of_gt (Nat.zero_lt_of_lt hlt)
  have hbits := mono_bits hw hold.word
  by_cases hbit : bitIsSet (a.block m).used 0 = true
  · refine ⟨false, a.block m, ⟨?_, fun j => ?_, ⟨rfl, rfl, rfl, rfl⟩,
      fun _ _ _ => (bitIsSet_zero hw hold.word).mp hbit, ?_⟩, by simp [hbit]⟩
    · simp only [set_used_bit, hblk, hoff, hdiv, if_neg hsize, hbit, if_true, setBlock_self]
    · constructor
      · exact Or.inl
      · rintro (hj | rfl)
        · exact hj
        · exact hbit
    · rw [setBlock_self]
      exact h
  · have hone : Function.update (a.block m).used 0 1#_ 0 = 1#_ := Function.update_self ..
    refine ⟨(a.block m).u.numPtrs != 0,
      { a.block m with used := Function.update (a.block m).used 0 1#_ },
      ⟨?_, hbits, ⟨rfl, rfl, rfl, rfl⟩, fun _ _ _ => hone, listed_mono h hxs hm ?_⟩, ?_⟩
    · simp only [set_used_bit, hblk, hoff, hdiv, if_neg hsize, hbit, Bool.false_eq_true, if_false,
        hold.flag, if_true]
    · exact ⟨hold.flag, hold.color, hold.aligned, Or.inr hone⟩
    · simp [hbit]

/-! ### A new monolithic block -/

theorem monolith_flag (flags : ℕ) : hasFlag (flags ||| SLAB_MONOLITH) SLAB_MONOLITH = true := by
  have hle : SLAB_MONOLITH ≤ (flags ||| SLAB_MONOLITH) &&& SLAB_MONOLITH := by
    rw [Nat.and_or_distrib_right, Nat.and_self]
    exact Nat.right_le_or
  have hne : (flags ||| SLAB_MONOLITH) &&& SLAB_MONOLITH ≠ 0 :=
    Nat.ne_of_gt (lt_of_lt_of_le (by decide) hle)
  exact bne_iff_ne.mpr hne

/-- `s_monoblock` for any number of pointers and any flags. -/
def addMonolith (a : Arena T) (base : Addr) (nptrs flags : ℕ) : Arena T :=
  { a with toMonoArena := MonoArena.s_monoblock T a.toMonoArena base nptrs flags (a.words base) }

theorem addMonolith_self (a : Arena T) (base : Addr) (nptrs flags : ℕ) :
    ((a.addMonolith base nptrs flags).block base).flags = flags ||| SLAB_MONOLITH ∧
      ((a.addMonolith base nptrs flags).block base).color = colorOf T 1 ∧
      ((a.addMonolith base nptrs flags).block base).u = .m nptrs ∧
      ((a.addMonolith base nptrs flags).block base).used 0 = 1#_ := by
  simp [addMonolith, MonoArena.s_monoblock, MonoArena.setUsed0, MonoArena.insertHead, colorOf]

theorem addMonolith_other {a : Arena T} {base nptrs flags : ℕ} {pg : Addr} (hpg : pg ≠ base) :
    (a.addMonolith base nptrs flags).block pg = a.block pg := by
  simp [addMonolith, MonoArena.s_monoblock, MonoArena.setUsed0, MonoArena.insertHead, hpg]

theorem addMonolith_list {a : Arena T} {base : Addr} (nptrs flags : ℕ) {xs : List Addr}
    (hxs : a.MonoList xs) (hbase : base ∉ xs) :
    (a.addMonolith base nptrs flags).MonoList (base :: xs) :=
  ⟨SList.Chain.insertHead hxs.1 hbase, List.nodup_cons.mpr ⟨hbase, hxs.2⟩⟩

theorem addMonolith_listed {a : Arena T} (h : Listed P a) {base : Addr} (hbase : a.FreshBase base)
    (nptrs flags : ℕ) : Listed P (a.addMonolith base nptrs flags) := by
  obtain ⟨xs, hxs, hfar⟩ := h.mono
  have hnot := hbase.not_placed h.toCore
  have hlisted := hbase.not_listed hxs
  have hxs' := addMonolith_list nptrs flags hxs hlisted
  have hblocks : ∀ pg ∈ a.placed, (a.addMonolith base nptrs flags).block pg = a.block pg :=
    fun pg hpg => addMonolith_other fun heq => hnot (heq ▸ hpg)
  refine ⟨⟨h.nodup, h.handles, h.wf, h.admits, fun sc hsc pg hpg => ?_, fun pg hpg => ?_, h.place,
    h.once, ⟨h.mega.aligned, h.mega.bound, h.mega.current, h.mega.disjoint⟩,
    base :: xs, hxs', fun m hm => ?_⟩, fun ys hys m hm => ?_⟩
  · rw [hblocks pg (Core.mem_placed hsc hpg)]
    exact h.block sc hsc pg hpg
  · rw [hblocks pg (List.mem_append_right _ hpg)]
    exact h.free pg hpg
  · rcases List.mem_cons.mp hm with rfl | hold
    · exact fun mb hmb x hx hin => hbase.mega mb hmb x hin hx
    · exact hfar m hold
  · rw [hys.1.unique hxs'.1] at hm
    rcases List.mem_cons.mp hm with rfl | hold
    · obtain ⟨hflags, hcolor, -, hused⟩ := addMonolith_self a m nptrs flags
      exact ⟨by rw [hflags]; exact monolith_flag flags, hcolor, hbase.aligned, Or.inr hused⟩
    · have hne : m ≠ base := fun heq => hlisted (heq ▸ hold)
      rw [addMonolith_other hne]
      exact h.monos xs hxs m hold

/-- Marking through a pointer to any word of an object. -/
theorem set_used_bit_exact (e : Endian) (a : Arena T) (v pg : Addr) (i : ℕ) (h : Listed P a)
    (hv : a.Into v pg i) (hbyte : a.ByteOk e v pg) :
    ∃ grey b, Marks e P a v pg i grey b ∧
      (grey = true ↔ bitIsSet (a.block pg).used i = false ∧ (a.block pg).u.numPtrs ≠ 0) := by
  cases hv with
  | slot hsc hpg hi hk => exact marks_slot e h hsc hpg hi hk
  | mono hxs hm hk => exact marks_mono e h hxs hm hbyte

theorem emptyArena_ok : Ok P emptyArena := ok_init ⟨_, _, rfl⟩

theorem emptyArena_list : emptyArena.MonoList [] := ⟨rfl, List.nodup_nil⟩

theorem emptyArena_listed : Listed P emptyArena := by
  refine ⟨emptyArena_ok.toCore, fun xs hxs m hm => ?_⟩
  rw [hxs.1.unique emptyArena_list.1] at hm
  exact absurd hm List.not_mem_nil

theorem emptyArena_fresh : emptyArena.FreshBase 1048576 := by
  refine ⟨by decide, fun mb hmb => absurd hmb List.not_mem_nil, fun xs hxs m hm => ?_⟩
  rw [hxs.1.unique emptyArena_list.1] at hm
  exact absurd hm List.not_mem_nil

/-- The only block is a monolith of `n` pointers. -/
def oneMonolith (n : ℕ) : Arena Target.lp64 := emptyArena.addMonolith 1048576 n 0

theorem oneMonolith_list (n : ℕ) : (oneMonolith n).MonoList [1048576] :=
  addMonolith_list n 0 emptyArena_list List.not_mem_nil

theorem oneMonolith_listed (n : ℕ) : Listed P (oneMonolith n) :=
  addMonolith_listed emptyArena_listed emptyArena_fresh n 0

theorem oneMonolith_into (n : ℕ) : (oneMonolith n).Into (1048576 + 32) 1048576 0 := by
  exact Into.mono (k := 0) (oneMonolith_list n) List.mem_cons_self (Or.inl rfl)

theorem set_used_bit_exact_300 : ∃ grey b,
    Marks .little (fun _ => True) (oneMonolith 300) (1048576 + 32) 1048576 0 grey b ∧
      (grey = true ↔ bitIsSet ((oneMonolith 300).block 1048576).used 0 = false ∧
        ((oneMonolith 300).block 1048576).u.numPtrs ≠ 0) := by
  refine set_used_bit_exact .little (oneMonolith 300) (1048576 + 32) 1048576 0
    (oneMonolith_listed 300) (oneMonolith_into 300) fun xs _ _ => ?_
  decide

/-- LP64, a cache for objects of three words and no pointer, and one object from it. -/
def atomicAlloc : Arena Target.lp64 :=
  ((s_alloc (collect 0 []) 1048576 0 (find_cache none emptyArena 3 0).2).getD (0, emptyArena)).2

theorem atomicAlloc_ok : Ok (WideEntries Target.lp64) atomicAlloc := by
  have hcache : Guarded SlabOk SlabStep emptyArena (.cache 3 0)
      (find_cache none emptyArena 3 0).2 := ⟨trivial, by decide, rfl⟩
  refine ok_reach (.step (.step (.start ⟨_, _, rfl⟩) hcache)
    (show Guarded SlabOk SlabStep _ (.alloc 0 1048576 0 []) _ from
      ⟨⟨by decide, by decide⟩, List.mem_cons_self, ⟨by decide, ?_, ?_⟩, by simp, _, rfl⟩))
  · intro mb hmb
    exact absurd hmb List.not_mem_nil
  · intro xs hxs m hm
    have hnil : xs = [] := hxs.1.unique (show SList.Chain _ none [] from rfl)
    rw [hnil] at hm
    exact absurd hm List.not_mem_nil

theorem atomicAlloc_listed : Listed (WideEntries Target.lp64) atomicAlloc := by
  refine ⟨atomicAlloc_ok.toCore, fun xs hxs m hm => ?_⟩
  have hnil : xs = [] := hxs.1.unique (show SList.Chain _ none [] from rfl)
  rw [hnil] at hm
  exact absurd hm List.not_mem_nil

/-- The second entry of a block without pointers is marked and the call says
`false`; a monolith of 200 pointers makes it divide by zero. -/
theorem set_used_bit_newly_wrong :
    (Listed (WideEntries Target.lp64) atomicAlloc ∧ atomicAlloc.Into (1048576 + 72) 1048576 1 ∧
      bitIsSet (atomicAlloc.block 1048576).used 1 = false ∧
      (set_used_bit .little (1048576 + 72) atomicAlloc).map Prod.fst = some false) ∧
    Listed (WideEntries Target.lp64) (oneMonolith 200) ∧
      (oneMonolith 200).Into (1048576 + 32) 1048576 0 ∧
      set_used_bit .little (1048576 + 32) (oneMonolith 200) = none := by
  have hsc : 0 ∈ atomicAlloc.caches := List.mem_cons_self
  have hpg : 1048576 ∈ (atomicAlloc.cache 0).lists := List.mem_cons_self
  have hi : 1 < (atomicAlloc.cache 0).numEntries := by decide
  have hk : 0 < (atomicAlloc.cache 0).size := by decide
  exact ⟨⟨atomicAlloc_listed, Into.slot hsc hpg hi hk, by decide, by decide⟩,
    oneMonolith_listed 200, oneMonolith_into 200, by decide⟩

end Arena

end Jhc.Rts

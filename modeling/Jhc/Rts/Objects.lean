import Jhc.Rts.SlabAlloc

/-!
# Heap objects (rts/gc_jgc.c:260-271, 604-621)

The two kinds of heap objects, entries of slab blocks and monolithic arrays, and
what `s_set_used_bit`, `clear_used_bits` and `s_cleanup_blocks` do to their used
bits. The marking phase needs nothing else about blocks.
-/

namespace Jhc.Rts

/-! ### Monolithic arrays -/

/-- The address that `s_monoblock` returns for the block `m`. -/
def monoAddr (T : Target) (m : Addr) : Addr := m + Arena.colorOf T 1 * T.wordBytes

/-- The header of a monolithic block. The byte of `num_ptrs` that `u.pi.size`
overlays is not zero, or `s_set_used_bit` would divide by zero. -/
structure MonoHolds (T : Target) (m : Addr) (b : SBlock T.bitsPerUnit) : Prop where
  flag : hasFlag b.flags SLAB_MONOLITH = true
  color : b.color = Arena.colorOf T 1
  size : b.u.size ≠ 0
  aligned : T.blockSize ∣ m
  fits : Arena.colorOf T 1 * T.wordBytes < T.blockSize
  bound : (Arena.colorOf T 1 + b.u.numPtrs) * T.wordBytes ≤ T.megablockSize
  word : b.used 0 = 0#_ ∨ b.used 0 = 1#_

namespace Arena

variable {T : Target} {P : ℕ → Prop}

def IsMono (a : Arena T) (v : Addr) : Prop :=
  ∃ xs, a.MonoList xs ∧ ∃ m ∈ xs, v = monoAddr T m

def IsObj (a : Arena T) (v : Addr) : Prop := a.IsSlot v ∨ a.IsMono v

/-- The bit that `s_set_used_bit` tests for the object `v`. -/
def usedIndex (a : Arena T) (v : Addr) : ℕ :=
  ((v - S_BLOCK T v) / T.wordBytes - (a.block (S_BLOCK T v)).color) / (a.block (S_BLOCK T v)).u.size

def Marked (a : Arena T) (v : Addr) : Prop :=
  bitIsSet (a.block (S_BLOCK T v)).used (a.usedIndex v) = true

def ptrs (a : Arena T) (v : Addr) : ℕ := (a.block (S_BLOCK T v)).u.numPtrs

/-- `Core` with the headers of the monolithic blocks. -/
structure Heap (P : ℕ → Prop) (a : Arena T) : Prop extends Core P [] a where
  monos : ∀ xs, a.MonoList xs → ∀ m ∈ xs, MonoHolds T m (a.block m)

theorem mono_block {m : Addr} {b : SBlock T.bitsPerUnit} (h : MonoHolds T m b) :
    S_BLOCK T (monoAddr T m) = m := by
  obtain ⟨k, hk⟩ := h.aligned
  have hfits := h.fits
  subst hk
  unfold S_BLOCK monoAddr
  rw [Nat.mul_add_div T.blockSize_pos, Nat.div_eq_of_lt hfits, Nat.add_zero, Nat.mul_comm]

theorem slot_usedIndex {a : Arena T} {taken : List Addr} (h : Core P taken a) {sc : ℕ} {pg : Addr}
    {i : ℕ} (hsc : sc ∈ a.caches) (hpg : pg ∈ (a.cache sc).lists)
    (hi : i < (a.cache sc).numEntries) :
    S_BLOCK T (slotAddr T (a.cache sc) pg i) = pg ∧
      a.usedIndex (slotAddr T (a.cache sc) pg i) = i := by
  have hwf := h.wf sc hsc
  have hold := h.block sc hsc pg hpg
  have hblk := hwf.slot_block (h.aligned hsc hpg) hi
  obtain ⟨f, x, hu, -⟩ := hold.header
  have hsize : (a.block pg).u.size = (a.cache sc).size := by rw [hu]; rfl
  refine ⟨hblk, ?_⟩
  unfold usedIndex
  rw [hblk, hold.color, hsize]
  exact hwf.slot_index pg i

theorem mono_usedIndex {a : Arena T} {m : Addr} (h : MonoHolds T m (a.block m)) :
    S_BLOCK T (monoAddr T m) = m ∧ a.usedIndex (monoAddr T m) = 0 := by
  have hblk := mono_block h
  refine ⟨hblk, ?_⟩
  unfold usedIndex
  rw [hblk, h.color]
  unfold monoAddr
  rw [Nat.add_sub_cancel_left, Nat.mul_div_cancel _ T.word_pos, Nat.sub_self, Nat.zero_div]

/-- An object of a cache is marked when it is allocated. -/
theorem slot_marked {a : Arena T} {taken : List Addr} (h : Core P taken a) {v : Addr} :
    a.Allocated v ↔ a.IsSlot v ∧ a.Marked v := by
  constructor
  · intro ⟨sc, hsc, pg, hpg, i, hi, hv, hbit⟩
    subst hv
    obtain ⟨hblk, hidx⟩ := slot_usedIndex h hsc hpg hi
    refine ⟨⟨sc, hsc, pg, hpg, i, hi, rfl⟩, ?_⟩
    unfold Marked
    rw [hblk, hidx]
    exact hbit
  · intro ⟨⟨sc, hsc, pg, hpg, i, hi, hv⟩, hmark⟩
    subst hv
    obtain ⟨hblk, hidx⟩ := slot_usedIndex h hsc hpg hi
    unfold Marked at hmark
    rw [hblk, hidx] at hmark
    exact ⟨sc, hsc, pg, hpg, i, hi, rfl, hmark⟩

theorem slot_placed {a : Arena T} {taken : List Addr} (h : Core P taken a) {v : Addr}
    (hv : a.IsSlot v) : S_BLOCK T v ∈ a.placed := by
  obtain ⟨sc, hsc, pg, hpg, i, hi, rfl⟩ := hv
  rw [(slot_usedIndex h hsc hpg hi).1]
  exact Core.mem_placed hsc hpg

theorem mono_listed {a : Arena T} (h : Heap P a) {v : Addr} {xs : List Addr} (hxs : a.MonoList xs)
    (hv : a.IsMono v) : S_BLOCK T v ∈ xs ∧ v = monoAddr T (S_BLOCK T v) := by
  obtain ⟨ys, hys, m, hm, rfl⟩ := hv
  have hblk := mono_block (h.monos ys hys m hm)
  rw [hblk, hxs.1.unique hys.1]
  exact ⟨hm, rfl⟩

/-- A slot is no monolithic array. -/
theorem slot_not_mono {a : Arena T} (h : Heap P a) {v : Addr} (hv : a.IsSlot v) :
    ¬ a.IsMono v := by
  intro hm
  obtain ⟨xs, hxs, -⟩ := h.mono
  exact h.not_mono hxs (slot_placed h.toCore hv) (mono_listed h hxs hm).1

/-! ### s_set_used_bit -/

/-- What one call of `s_set_used_bit` does: `grey` is its result. -/
structure MarkSpec (P : ℕ → Prop) (a : Arena T) (v : Addr) (grey : Bool)
    (f : Addr → SBlock T.bitsPerUnit) : Prop where
  run : s_set_used_bit v a = some (grey, a.withBlocks f)
  heap : Heap P (a.withBlocks f)
  marked : ∀ u, a.IsObj u → ((a.withBlocks f).Marked u ↔ a.Marked u ∨ u = v)
  ptrs : ∀ u, a.IsObj u → (a.withBlocks f).ptrs u = a.ptrs u
  grey_new : grey = true → ¬ a.Marked v
  black : grey = false → a.Marked v ∨ a.ptrs v = 0

theorem Heap.withBlocks {a : Arena T} (h : Heap P a) {f : Addr → SBlock T.bitsPerUnit}
    (hcore : Core P [] (a.withBlocks f))
    (hmono : ∀ xs, a.MonoList xs → ∀ m ∈ xs, (f m).flags = (a.block m).flags ∧
      (f m).color = (a.block m).color ∧ (f m).u = (a.block m).u ∧
      ((f m).used 0 = 0#_ ∨ (f m).used 0 = 1#_)) : Heap P (a.withBlocks f) := by
  refine ⟨hcore, fun xs hxs m hm => ?_⟩
  obtain ⟨hflags, hcolor, hu, hword⟩ := hmono xs hxs m hm
  have hold := h.monos xs hxs m hm
  show MonoHolds T m (f m)
  exact ⟨by rw [hflags]; exact hold.flag, by rw [hcolor]; exact hold.color,
    by rw [hu]; exact hold.size, hold.aligned, hold.fits, by rw [hu]; exact hold.bound, hword⟩

theorem mark_slot {a : Arena T} (h : Heap P a) {v : Addr} (hv : a.IsSlot v) :
    ∃ grey f, MarkSpec P a v grey f := by
  obtain ⟨sc, hsc, pg, hpg, i, hi, rfl⟩ := hv
  have hcore := h.toCore
  obtain ⟨hblk, hidx⟩ := slot_usedIndex hcore hsc hpg hi
  have hold := h.block sc hsc pg hpg
  obtain ⟨p₀, x₀, hu₀, -⟩ := hold.header
  have hptrs₀ : a.ptrs (slotAddr T (a.cache sc) pg i) = (a.cache sc).numPtrs := by
    unfold ptrs
    rw [hblk, hu₀]
    rfl
  rcases s_set_used_bit_slot hcore hsc hpg hi with ⟨hset, hrun⟩ | ⟨hclear, b, hrun, hb, hused⟩
  · have hmark : a.Marked (slotAddr T (a.cache sc) pg i) := by
      unfold Marked
      rw [hblk, hidx]
      exact hset
    refine ⟨false, a.block, hrun, h, fun u _ => ?_, fun _ _ => rfl, fun hg => Bool.noConfusion hg,
      fun _ => Or.inl hmark⟩
    constructor
    · exact Or.inl
    · intro hor
      rcases hor with hu | rfl
      · exact hu
      · exact hmark
  · refine ⟨_, Function.update a.block pg b, hrun, ?_, ?_, ?_, ?_, ?_⟩
    · refine h.withBlocks (hcore.setBlock hsc hpg hb) fun xs hxs m hm => ?_
      have hne : m ≠ pg := fun heq => h.not_mono hxs (Core.mem_placed hsc hpg) (heq ▸ hm)
      rw [Function.update_of_ne hne]
      exact ⟨rfl, rfl, rfl, (h.monos xs hxs m hm).word⟩
    · intro u hu
      have hcore' := hcore.setBlock hsc hpg hb
      rcases hu with ⟨sc', hsc', pg', hpg', i', hi', rfl⟩ | hmono
      · obtain ⟨hblk', hidx'⟩ := slot_usedIndex hcore hsc' hpg' hi'
        obtain ⟨-, hidx''⟩ := slot_usedIndex hcore' hsc' hpg' hi'
        have hnew : ((a.withBlocks (Function.update a.block pg b)).Marked
            (slotAddr T (a.cache sc') pg' i')) ↔
            bitIsSet (Function.update a.block pg b pg').used i' = true := by
          unfold Marked
          rw [hblk']
          have hsame : (a.withBlocks (Function.update a.block pg b)).usedIndex
            (slotAddr T (a.cache sc') pg' i') = i' := hidx''
          rw [hsame]
          rfl
        have hprev : a.Marked (slotAddr T (a.cache sc') pg' i') ↔
            bitIsSet (a.block pg').used i' = true := by
          unfold Marked
          rw [hblk', hidx']
        rw [hnew, hprev]
        by_cases hpp : pg' = pg
        · subst hpp
          have hscs := h.cache_unique hsc' hsc hpg' hpg
          subst hscs
          rw [Function.update_self, hused, bitIsSet_bitSet _ T.bitsPerUnit_pos, Bool.or_eq_true,
            decide_eq_true_eq, or_comm]
          refine or_congr_right ?_
          constructor
          · intro heq
            rw [heq]
          · intro heq
            have hii := (h.wf sc' hsc).slot_index pg' i'
            rw [heq, (h.wf sc' hsc).slot_index] at hii
            exact hii.symm
        · rw [Function.update_of_ne hpp]
          constructor
          · exact Or.inl
          · intro hor
            rcases hor with hbit | heq
            · exact hbit
            · exact absurd ((h.wf sc' hsc').slot_inj (h.wf sc hsc) (h.aligned hsc' hpg')
                (h.aligned hsc hpg) hi' hi heq) hpp
      · obtain ⟨xs, hxs, hfar⟩ := h.mono
        obtain ⟨hin, -⟩ := mono_listed h hxs hmono
        have hne : S_BLOCK T u ≠ pg :=
          fun heq => h.not_mono hxs (Core.mem_placed hsc hpg) (heq ▸ hin)
        have hsame : (a.withBlocks (Function.update a.block pg b)).block (S_BLOCK T u) =
            a.block (S_BLOCK T u) := Function.update_of_ne hne ..
        unfold Marked usedIndex
        rw [hsame]
        constructor
        · exact Or.inl
        · intro hor
          rcases hor with hbit | heq
          · exact hbit
          · rw [heq, hblk] at hne
            exact absurd rfl hne
    · intro u _
      unfold ptrs
      by_cases hpp : S_BLOCK T u = pg
      · obtain ⟨p₁, x₁, hu₁, -⟩ := hb.header
        rw [hpp]
        show (Function.update a.block pg b pg).u.numPtrs = _
        rw [Function.update_self, hu₁, hu₀]
        rfl
      · show (Function.update a.block pg b (S_BLOCK T u)).u.numPtrs = _
        rw [Function.update_of_ne hpp]
    · intro _ hmark
      unfold Marked at hmark
      rw [hblk, hidx, hclear] at hmark
      exact Bool.noConfusion hmark
    · intro hgrey
      refine Or.inr ?_
      rw [hptrs₀]
      simpa using hgrey

theorem mark_mono {a : Arena T} (h : Heap P a) {v : Addr} (hv : a.IsMono v) :
    ∃ grey f, MarkSpec P a v grey f := by
  obtain ⟨xs, hxs, m, hm, rfl⟩ := hv
  have hold := h.monos xs hxs m hm
  obtain ⟨hblk, hidx⟩ := mono_usedIndex hold
  have hw := T.bitsPerUnit_pos
  have hoff : ((monoAddr T m - m) / T.wordBytes - (a.block m).color) / (a.block m).u.size = 0 := by
    unfold usedIndex at hidx
    rwa [hblk] at hidx
  by_cases hbit : bitIsSet (a.block m).used 0 = true
  · have hmark : a.Marked (monoAddr T m) := by
      unfold Marked
      rw [hblk, hidx]
      exact hbit
    have hrun : s_set_used_bit (monoAddr T m) a = some (false, a) := by
      simp only [s_set_used_bit, hblk, hoff, if_neg hold.size, hbit, if_true]
    refine ⟨false, a.block, hrun, h, fun u _ => ?_, fun _ _ => rfl, fun hg => Bool.noConfusion hg,
      fun _ => Or.inl hmark⟩
    constructor
    · exact Or.inl
    · intro hor
      rcases hor with hu | rfl
      · exact hu
      · exact hmark
  · set b : SBlock T.bitsPerUnit :=
      { a.block m with used := Function.update (a.block m).used 0 1#_ } with hb
    have hrun : s_set_used_bit (monoAddr T m) a =
        some ((a.block m).u.numPtrs != 0, a.setBlock m b) := by
      simp only [s_set_used_bit, hblk, hoff, if_neg hold.size, hbit, Bool.false_eq_true,
        if_false, hold.flag, if_true, hb]
    have hnot : m ∉ a.placed := fun hin => h.not_mono hxs hin hm
    have hcore : Core P [] (a.withBlocks (Function.update a.block m b)) := by
      refine h.toCore.withBlocks (fun sc hsc pg hpg => ?_) fun pg hpg => ?_
      · have hne : pg ≠ m := fun heq => hnot (heq ▸ Core.mem_placed hsc hpg)
        rw [Function.update_of_ne hne]
        exact h.block sc hsc pg hpg
      · have hne : pg ≠ m := fun heq => hnot (heq ▸ List.mem_append_right _ hpg)
        exact Function.update_of_ne hne ..
    have hself : ∀ u, S_BLOCK T u = m → (a.withBlocks (Function.update a.block m b)).block
        (S_BLOCK T u) = b := by
      intro u hu
      rw [hu]
      exact Function.update_self ..
    have hother : ∀ u, S_BLOCK T u ≠ m → (a.withBlocks (Function.update a.block m b)).block
        (S_BLOCK T u) = a.block (S_BLOCK T u) := fun u hu => Function.update_of_ne hu ..
    refine ⟨_, _, hrun, h.withBlocks hcore fun ys hys m' hm' => ?_, fun u hu => ?_, fun u _ => ?_,
      ?_, ?_⟩
    · by_cases hmm : m' = m
      · subst hmm
        rw [Function.update_self]
        exact ⟨rfl, rfl, rfl, Or.inr (by simp [hb])⟩
      · rw [Function.update_of_ne hmm]
        exact ⟨rfl, rfl, rfl, (h.monos ys hys m' hm').word⟩
    · by_cases hmm : S_BLOCK T u = m
      · have huv : u = monoAddr T m := by
          rcases hu with hslot | hmono
          · exact absurd (hmm ▸ slot_placed h.toCore hslot) hnot
          · rw [← hmm]
            exact (mono_listed h hxs hmono).2
        have hset : (a.withBlocks (Function.update a.block m b)).Marked u := by
          unfold Marked usedIndex
          rw [hself u hmm, huv, hblk]
          show bitIsSet b.used (((monoAddr T m - m) / T.wordBytes - (a.block m).color) /
            (a.block m).u.size) = true
          have hone := getLsbD_one_shiftLeft (j := 0) hw
          rw [hoff]
          unfold bitIsSet
          rw [Nat.zero_div, Nat.zero_mod]
          simpa [hb] using hone
        exact iff_of_true hset (Or.inr huv)
      · unfold Marked usedIndex
        rw [hother u hmm]
        constructor
        · exact Or.inl
        · intro hor
          rcases hor with hu' | heq
          · exact hu'
          · exact absurd (heq ▸ hblk) hmm
    · unfold ptrs
      by_cases hmm : S_BLOCK T u = m
      · rw [hself u hmm, hmm]
      · rw [hother u hmm]
    · intro _ hmark
      unfold Marked at hmark
      rw [hblk, hidx] at hmark
      exact hbit hmark
    · intro hgrey
      refine Or.inr ?_
      unfold ptrs
      rw [hblk]
      simpa using hgrey

theorem mark_obj {a : Arena T} (h : Heap P a) {v : Addr} (hv : a.IsObj v) :
    ∃ grey f, MarkSpec P a v grey f := by
  rcases hv with hslot | hmono
  · exact mark_slot h hslot
  · exact mark_mono h hmono

/-! ### clear_used_bits -/

theorem clear_heap (hP : ∀ n, P n → n % T.bitsPerUnit ≠ 0) {a : Arena T} (h : Heap P a)
    {fuel : ℕ} {a' : Arena T} (hrun : clear_used_bits fuel a = some a') :
    ∃ f, a' = a.withBlocks f ∧ Heap P (a.withBlocks f) ∧
      (∀ u, a.IsObj u → ¬ (a.withBlocks f).Marked u) ∧
      ∀ u, a.IsObj u → (a.withBlocks f).ptrs u = a.ptrs u := by
  have hw := T.bitsPerUnit_pos
  obtain ⟨f, ha', hcore, hclear, hmono⟩ := clear_used_bits_spec hP h.toCore hrun
  have hheap : Heap P (a.withBlocks f) := by
    refine h.withBlocks hcore fun xs hxs m hm => ?_
    rw [hmono xs hxs m hm]
    exact ⟨rfl, rfl, rfl, Or.inl (by simp)⟩
  refine ⟨f, ha', hheap, fun u hu hmark => ?_, fun u hu => ?_⟩
  · unfold Marked at hmark
    rcases hu with ⟨sc, hsc, pg, hpg, i, hi, rfl⟩ | ⟨xs, hxs, m, hm, rfl⟩
    · obtain ⟨-, hcap, -⟩ := T.bitarraySize_spec (a.cache sc).numEntries (by omega)
      obtain ⟨hblk, hidx⟩ := slot_usedIndex hcore hsc hpg hi
      have hidx' : (a.withBlocks f).usedIndex (slotAddr T (a.cache sc) pg i) = i := hidx
      have hblk' : S_BLOCK T (slotAddr T (a.cache sc) pg i) = pg := hblk
      rw [hblk', hidx'] at hmark
      have hbit : bitIsSet (f pg).used i = true := hmark
      rw [hclear sc hsc pg hpg, clear_block_bits (hP _ (h.admits sc hsc pg hpg)) (by omega)] at hbit
      have hle : (a.cache sc).numEntries ≤ i := by simpa using hbit
      omega
    · obtain ⟨hblk, hidx⟩ := mono_usedIndex (hheap.monos xs hxs m hm)
      rw [hblk, hidx] at hmark
      have hbit : bitIsSet (f m).used 0 = true := hmark
      rw [hmono xs hxs m hm] at hbit
      simp [bitIsSet] at hbit
  · unfold ptrs
    rcases hu with ⟨sc, hsc, pg, hpg, i, hi, rfl⟩ | ⟨xs, hxs, m, hm, rfl⟩
    · rw [(slot_usedIndex h.toCore hsc hpg hi).1]
      obtain ⟨p, x, hu, -⟩ := (h.block sc hsc pg hpg).header
      obtain ⟨p', x', hu', -⟩ := (hcore.block sc hsc pg hpg).header
      rw [hu, hu']
      rfl
    · rw [mono_block (h.monos xs hxs m hm)]
      show (f m).u.numPtrs = _
      rw [hmono xs hxs m hm]

/-! ### s_cleanup_blocks -/

/-- No monolithic block before the last one of the list is marked. -/
def MonoOk (a : Arena T) : Prop :=
  ∀ xs, a.MonoList xs → ∀ m ∈ xs.dropLast, ¬ a.Marked (monoAddr T m)

theorem mono_marked {a : Arena T} {m : Addr} (h : MonoHolds T m (a.block m)) :
    a.Marked (monoAddr T m) ↔ a.toMonoArena.marked m = true := by
  have hw := T.bitsPerUnit_pos
  obtain ⟨hblk, hidx⟩ := mono_usedIndex h
  unfold Marked MonoArena.marked bitIsSet
  rw [hblk, hidx, Nat.zero_div, Nat.zero_mod]
  rcases h.word with hzero | hone
  · rw [hzero]
    simp
  · have hbit := getLsbD_one_shiftLeft (j := 0) hw
    rw [hone]
    simp [hw, T.one_ne_zero]

/-- After the sweep the objects in use are the marked ones. -/
theorem cleanup_heap {a : Arena T} (h : Heap P a) (hok : a.MonoOk) {fuel : ℕ} {a' : Arena T}
    (hrun : s_cleanup_blocks fuel a = some a') :
    Heap P a' ∧ Ok P a' ∧ Frame a a' ∧ a'.block = a.block ∧ a'.mem = a.mem ∧
      ∀ v, a'.IsObj v ∧ a'.Marked v ↔ a.IsObj v ∧ a.Marked v := by
  obtain ⟨hcore, hframe, hblock, hswept⟩ := s_cleanup_blocks_spec h.toCore hrun
  obtain ⟨xs, hxs, -⟩ := h.mono
  obtain ⟨hmono, hmem⟩ := s_cleanup_blocks_rest hxs hrun
  have hsweep : MonoArena.SweepCorrect a.toMonoArena a'.toMonoArena xs := by
    rw [hmono, MonoArena.sweepCorrect_iff hxs.2]
    intro m hm hmark
    exact hok xs hxs m hm
      ((mono_marked (h.monos xs hxs m (List.dropLast_subset _ hm))).mpr hmark)
  obtain ⟨⟨ys, hys, hkept⟩, -⟩ := hsweep
  have hheap : Heap P a' := by
    refine ⟨hcore, fun zs hzs m hm => ?_⟩
    rw [hzs.1.unique hys.1] at hm
    rw [hblock]
    exact h.monos xs hxs m ((hkept m).mp hm).1
  have hmark : ∀ v, a'.Marked v ↔ a.Marked v := by
    intro v
    unfold Marked usedIndex
    rw [hblock]
  refine ⟨hheap, ok_of_swept hcore hframe hblock hswept, hframe, hblock, hmem, fun v => ?_⟩
  have hslot : a'.IsSlot v ∧ a'.Marked v ↔ a.IsSlot v ∧ a.Marked v := by
    rw [← slot_marked hcore, ← slot_marked h.toCore]
    exact swept_allocated h.toCore hframe hblock hswept v
  have hmonos : a'.IsMono v ∧ a'.Marked v ↔ a.IsMono v ∧ a.Marked v := by
    rw [hmark v]
    constructor
    · intro ⟨⟨zs, hzs, m, hm, hv⟩, hmk⟩
      rw [hzs.1.unique hys.1] at hm
      exact ⟨⟨xs, hxs, m, ((hkept m).mp hm).1, hv⟩, hmk⟩
    · intro ⟨⟨zs, hzs, m, hm, hv⟩, hmk⟩
      have hmk' := hmk
      rw [hv, mono_marked (h.monos zs hzs m hm)] at hmk'
      rw [hzs.1.unique hxs.1] at hm
      exact ⟨⟨ys, hys, m, (hkept m).mpr ⟨hm, hmk'⟩, hv⟩, hmk⟩
  unfold IsObj
  rw [or_and_right, or_and_right, hslot, hmonos]

/-! ### The objects are finitely many, and apart from new memory -/

theorem objects_finite {a : Arena T} (h : Heap P a) : ∃ os : Finset Addr, ∀ v, a.IsObj v ↔ v ∈ os := by
  obtain ⟨xs, hxs, -⟩ := h.mono
  refine ⟨((a.caches.flatMap fun sc => (a.cache sc).lists.flatMap fun pg =>
    (List.range (a.cache sc).numEntries).map (slotAddr T (a.cache sc) pg)) ++
      xs.map (monoAddr T)).toFinset, fun v => ?_⟩
  rw [List.mem_toFinset, List.mem_append]
  refine or_congr ?_ ?_
  · simp only [IsSlot, List.mem_flatMap, List.mem_map, List.mem_range]
    constructor
    · intro ⟨sc, hsc, pg, hpg, i, hi, hv⟩
      exact ⟨sc, hsc, pg, hpg, i, hi, hv.symm⟩
    · intro ⟨sc, hsc, pg, hpg, i, hi, hv⟩
      exact ⟨sc, hsc, pg, hpg, i, hi, hv.symm⟩
  · rw [List.mem_map]
    constructor
    · intro ⟨ys, hys, m, hm, hv⟩
      exact ⟨m, hys.1.unique hxs.1 ▸ hm, hv.symm⟩
    · intro ⟨m, hm, hv⟩
      exact ⟨xs, hxs, m, hm, hv.symm⟩

/-- The words of a slot, in the block of the slot. -/
theorem slot_word {taken : List Addr} {a : Arena T} (h : Core P taken a) {sc : ℕ} {pg : Addr}
    (hsc : sc ∈ a.caches) (hpg : pg ∈ (a.cache sc).lists) {i : ℕ}
    (hi : i < (a.cache sc).numEntries) {k : ℕ} (hk : k < (a.cache sc).size) :
    slotAddr T (a.cache sc) pg i + k * T.wordBytes =
        pg + ((a.cache sc).color + (i * (a.cache sc).size + k)) * T.wordBytes ∧
      S_BLOCK T (slotAddr T (a.cache sc) pg i + k * T.wordBytes) = pg := by
  have hwf := h.wf sc hsc
  have hlast : (a.cache sc).color + (i * (a.cache sc).size + k) <
      (a.cache sc).color + (a.cache sc).numEntries * (a.cache sc).size := by
    have hle : (i + 1) * (a.cache sc).size ≤ (a.cache sc).numEntries * (a.cache sc).size :=
      Nat.mul_le_mul_right _ hi
    rw [Nat.succ_mul] at hle
    omega
  have haddr : slotAddr T (a.cache sc) pg i + k * T.wordBytes =
      pg + ((a.cache sc).color + (i * (a.cache sc).size + k)) * T.wordBytes := by
    unfold slotAddr
    ring
  refine ⟨haddr, ?_⟩
  have hlt := lt_of_lt_of_le (Nat.mul_lt_mul_of_pos_right hlast T.word_pos) hwf.fits
  obtain ⟨q, rfl⟩ := h.aligned hsc hpg
  rw [haddr]
  unfold S_BLOCK
  rw [Nat.mul_add_div T.blockSize_pos, Nat.div_eq_of_lt hlt, Nat.add_zero, Nat.mul_comm]

theorem slot_words_apart {taken : List Addr} {a : Arena T} (h : Core P taken a) {sc sc' : ℕ}
    {pg pg' : Addr} (hsc : sc ∈ a.caches) (hsc' : sc' ∈ a.caches) (hpg : pg ∈ (a.cache sc).lists)
    (hpg' : pg' ∈ (a.cache sc').lists) {i i' : ℕ} (hi : i < (a.cache sc).numEntries)
    (hi' : i' < (a.cache sc').numEntries) {k k' : ℕ} (hk : k < (a.cache sc).size)
    (hk' : k' < (a.cache sc').size)
    (heq : slotAddr T (a.cache sc) pg i + k * T.wordBytes =
      slotAddr T (a.cache sc') pg' i' + k' * T.wordBytes) :
    slotAddr T (a.cache sc) pg i = slotAddr T (a.cache sc') pg' i' := by
  obtain ⟨haddr, hblk⟩ := slot_word h hsc hpg hi hk
  obtain ⟨haddr', hblk'⟩ := slot_word h hsc' hpg' hi' hk'
  have hpp : pg = pg' := by rw [← hblk, heq, hblk']
  subst hpp
  have hscs := h.cache_unique hsc hsc' hpg hpg'
  subst hscs
  rw [haddr, haddr'] at heq
  have hmul := Nat.eq_of_mul_eq_mul_right T.word_pos (Nat.add_left_cancel heq)
  have hsize := (h.wf sc hsc).size_pos
  have hword : i * (a.cache sc).size + k = i' * (a.cache sc).size + k' := Nat.add_left_cancel hmul
  have hii : i = i' := by
    have hq : (i * (a.cache sc).size + k) / (a.cache sc).size =
        (i' * (a.cache sc).size + k') / (a.cache sc).size := by rw [hword]
    rwa [Nat.mul_comm i, Nat.mul_comm i', Nat.mul_add_div hsize, Nat.mul_add_div hsize,
      Nat.div_eq_of_lt hk, Nat.div_eq_of_lt hk', Nat.add_zero, Nat.add_zero] at hq
  rw [hii]

theorem megablock_blocks (T : Target) :
    T.blockSize * (T.megablockSize / T.blockSize) = T.megablockSize :=
  Nat.mul_div_cancel' (Nat.pow_dvd_pow 2 T.shift_lt.le)

/-- The block of an address in the memory of `base`. -/
theorem block_inChunk {base x : ℕ} (hbase : T.blockSize ∣ base) (hle : base ≤ x)
    (hlt : x < base + T.megablockSize) : InChunk T base (S_BLOCK T x) := by
  obtain ⟨k, rfl⟩ := hbase
  have hB := T.blockSize_pos
  have hM := megablock_blocks T
  refine ⟨x / T.blockSize - k, ?_, ?_⟩
  · have hdiv : x / T.blockSize < k + T.megablockSize / T.blockSize := by
      rw [Nat.div_lt_iff_lt_mul hB, Nat.mul_comm, Nat.mul_add, hM]
      exact hlt
    have hpos := blocks_pos T
    omega
  · have hk : k ≤ x / T.blockSize := by
      rw [Nat.le_div_iff_mul_le hB, Nat.mul_comm]
      exact hle
    unfold S_BLOCK
    rw [← Nat.mul_add, Nat.add_sub_cancel' hk, Nat.mul_comm]

/-- A pointer word of a monolithic array lies in the memory of its block. -/
theorem mono_word {m : ℕ} {b : SBlock T.bitsPerUnit} (h : MonoHolds T m b) {k : ℕ}
    (hk : k = 0 ∨ k < b.u.numPtrs) :
    InChunk T m (S_BLOCK T (monoAddr T m + k * T.wordBytes)) := by
  have hw := T.word_pos
  have hfits := h.fits
  have hbound := h.bound
  have hle : T.blockSize ≤ T.megablockSize := Nat.pow_le_pow_right (by omega) T.shift_lt.le
  have haddr : monoAddr T m + k * T.wordBytes = m + (colorOf T 1 + k) * T.wordBytes := by
    unfold monoAddr
    ring
  refine block_inChunk h.aligned (by rw [haddr]; exact Nat.le_add_right _ _) ?_
  rw [haddr]
  rcases hk with rfl | hlt
  · rw [Nat.add_zero]
    omega
  · have hmul : (colorOf T 1 + k) * T.wordBytes < (colorOf T 1 + b.u.numPtrs) * T.wordBytes :=
      Nat.mul_lt_mul_of_pos_right (by omega) hw
    omega

theorem slot_ptrs {taken : List Addr} {a : Arena T} (h : Core P taken a) {sc : ℕ} {pg : Addr}
    (hsc : sc ∈ a.caches) (hpg : pg ∈ (a.cache sc).lists) {i : ℕ}
    (hi : i < (a.cache sc).numEntries) :
    a.ptrs (slotAddr T (a.cache sc) pg i) = (a.cache sc).numPtrs := by
  obtain ⟨f, x, hu, -⟩ := (h.block sc hsc pg hpg).header
  unfold ptrs
  rw [(slot_usedIndex h hsc hpg hi).1, hu]
  rfl

theorem slot_ptr_lt {taken : List Addr} {a : Arena T} (h : Core P taken a) {sc : ℕ} {pg : Addr}
    (hsc : sc ∈ a.caches) (hpg : pg ∈ (a.cache sc).lists) {i : ℕ}
    (hi : i < (a.cache sc).numEntries) {j : ℕ}
    (hj : j = 0 ∨ j < a.ptrs (slotAddr T (a.cache sc) pg i)) : j < (a.cache sc).size := by
  have hwf := h.wf sc hsc
  have hsize := hwf.size_pos
  rcases hj with rfl | hlt
  · exact hsize
  · rw [slot_ptrs h hsc hpg hi] at hlt
    exact lt_of_lt_of_le hlt hwf.ptrs_le

/-- The words of one slot are not the pointer words of another object. -/
theorem slot_obj_apart {a : Arena T} (h : Heap P a) {sc : ℕ} {pg : Addr} (hsc : sc ∈ a.caches)
    (hpg : pg ∈ (a.cache sc).lists) {i : ℕ} (hi : i < (a.cache sc).numEntries) {v : Addr}
    (hv : a.IsObj v) (hne : v ≠ slotAddr T (a.cache sc) pg i) {j k : ℕ}
    (hj : j = 0 ∨ j < a.ptrs v) (hk : k < (a.cache sc).size) :
    v + j * T.wordBytes ≠ slotAddr T (a.cache sc) pg i + k * T.wordBytes := by
  intro heq
  rcases hv with ⟨sc', hsc', pg', hpg', i', hi', rfl⟩ | ⟨xs, hxs, m, hm, rfl⟩
  · have hj' := slot_ptr_lt h.toCore hsc' hpg' hi' hj
    exact hne (slot_words_apart h.toCore hsc' hsc hpg' hpg hi' hi hj' hk heq)
  · have hold := h.monos xs hxs m hm
    have hj' : j = 0 ∨ j < (a.block m).u.numPtrs := by
      unfold ptrs at hj
      rwa [mono_block hold] at hj
    have hin := mono_word hold hj'
    rw [heq, (slot_word h.toCore hsc hpg hi hk).2] at hin
    obtain ⟨-, mb, hmb, hmega⟩ := h.placed_chunk (Core.mem_placed hsc hpg)
    obtain ⟨ys, hys, hfar⟩ := h.mono
    rw [hxs.1.unique hys.1] at hm
    exact hfar m hm mb hmb pg hmega hin

end Arena

end Jhc.Rts

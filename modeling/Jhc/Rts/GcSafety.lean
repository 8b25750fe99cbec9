import Jhc.Rts.GcRun

/-!
# Safety of the collector (rts/gc_jgc.c:84-203, 246-286)

Allocation of slots and of monolithic arrays makes new objects, and every step of
the mutator and of the collector keeps the invariant. In every run a collection
then keeps each object that is reachable from the roots.
-/

namespace Jhc.Rts
open Jhc.Lib
namespace Arena

variable {T : Target} {P : ℕ → Prop}

/-! ### A new slot -/

/-- A megablock or a monolithic block lies outside of the static area. -/
def HeapMemory (T : Target) (r : Roots) (base : Addr) : Prop :=
  ∀ x, base ≤ x → x < base + T.megablockSize → gc_check_heap r x = true

theorem inUse_iff {a : Arena T} (h : Heap P a) {v : Addr} :
    a.InUse v ↔ a.Allocated v ∨ a.IsMono v ∧ a.Marked v := by
  unfold InUse IsObj
  rw [slot_marked h.toCore, or_and_right]

theorem mono_inUse_congr {a a' : Arena T} (h : Heap P a) {v : Addr}
    (hmono : a'.IsMono v ↔ a.IsMono v)
    (hblock : ∀ xs, a.MonoList xs → ∀ m ∈ xs, a'.block m = a.block m) :
    a'.IsMono v ∧ a'.Marked v ↔ a.IsMono v ∧ a.Marked v := by
  rw [hmono]
  refine and_congr_right fun hv => ?_
  obtain ⟨xs, hxs, -⟩ := h.mono
  have hsame := hblock xs hxs _ (mono_listed h hxs hv).1
  unfold Marked usedIndex
  rw [hsame]

theorem mono_ptrs_congr {a a' : Arena T} (h : Heap P a) {v : Addr} (hv : a.IsMono v)
    (hblock : ∀ xs, a.MonoList xs → ∀ m ∈ xs, a'.block m = a.block m) : a'.ptrs v = a.ptrs v := by
  obtain ⟨xs, hxs, -⟩ := h.mono
  unfold ptrs
  rw [hblock xs hxs _ (mono_listed h hxs hv).1]

theorem four_dvd_slot {pg : ℕ} (c : Cache) (i : ℕ) (hpg : T.blockSize ∣ pg) :
    4 ∣ slotAddr T c pg i := by
  have hblock : 4 ∣ T.blockSize := Nat.pow_dvd_pow 2 T.shift_pos
  exact Nat.dvd_add (hblock.trans hpg) (T.word_dvd.mul_left _)

theorem chunk_memory {base pg x : ℕ} (h : InChunk T base pg) (hle : pg ≤ x)
    (hlt : x < pg + T.blockSize) : base ≤ x ∧ x < base + T.megablockSize := by
  obtain ⟨k, hk, rfl⟩ := h
  have hM := megablock_blocks T
  have hmul : T.blockSize * (k + 1) ≤ T.blockSize * (T.megablockSize / T.blockSize) :=
    Nat.mul_le_mul_left _ hk
  rw [Nat.mul_add, Nat.mul_one] at hmul
  exact ⟨by omega, by omega⟩

section Slot

variable {base : Addr} {sc : ℕ} {a₁ a' : Arena T} {val : Addr}

theorem AllocSpec.monoList (h : AllocSpec P base sc a₁ a' val) (xs : List Addr) :
    a'.MonoList xs ↔ a₁.MonoList xs := by
  unfold MonoArena.MonoList
  rw [h.rest.2.1, h.rest.2.2]

theorem AllocSpec.monoBlock (h : AllocSpec P base sc a₁ a' val) (xs : List Addr)
    (hxs : a₁.MonoList xs) (m : Addr) (hm : m ∈ xs) : a'.block m = a₁.block m :=
  h.block m fun hin => h.ok.not_mono ((h.monoList xs).mpr hxs) hin hm

theorem AllocSpec.isMono (h : AllocSpec P base sc a₁ a' val) (v : Addr) :
    a'.IsMono v ↔ a₁.IsMono v := exists_congr fun xs => and_congr_left fun _ => h.monoList xs

theorem AllocSpec.heap (h : AllocSpec P base sc a₁ a' val) (h₁ : Heap P a₁) : Heap P a' := by
  refine ⟨h.ok.toCore, fun xs hxs m hm => ?_⟩
  have hxs₁ := (h.monoList xs).mp hxs
  rw [h.monoBlock xs hxs₁ m hm]
  exact h₁.monos xs hxs₁ m hm

theorem AllocSpec.ptrs_slot (h : AllocSpec P base sc a₁ a' val) (h₁ : Heap P a₁) {v : Addr}
    (hv : a₁.IsSlot v) : a'.ptrs v = a₁.ptrs v := by
  obtain ⟨sc', hsc', pg, hpg, i, hi, rfl⟩ := hv
  obtain ⟨blocks, fullBlocks, hstatic⟩ := h.static sc'
  have hn : (a'.cache sc').numEntries = (a₁.cache sc').numEntries := by rw [hstatic]
  have hnew := slot_ptrs h.ok.toCore (h.caches ▸ hsc') (h.lists sc' pg hpg) (hn ▸ hi)
  have haddr : slotAddr T (a'.cache sc') pg i = slotAddr T (a₁.cache sc') pg i := by
    rw [hstatic]
    rfl
  rw [haddr, hstatic] at hnew
  rw [hnew, slot_ptrs h₁.toCore hsc' hpg hi]

theorem AllocSpec.inUse (h : AllocSpec P base sc a₁ a' val) (h₁ : Heap P a₁) (v : Addr) :
    a'.InUse v ↔ v = val ∨ a₁.InUse v := by
  rw [inUse_iff (h.heap h₁), inUse_iff h₁, h.allocated v,
    mono_inUse_congr h₁ (h.isMono v) h.monoBlock, or_assoc]

theorem AllocSpec.not_inUse (h : AllocSpec P base sc a₁ a' val) (h₁ : Heap P a₁)
    (hsc : sc ∈ a₁.caches) : ¬ a₁.InUse val := by
  intro huse
  obtain ⟨pg, hpg, i, hi, hval⟩ := h.slot
  have hslot : a'.IsSlot val := ⟨sc, h.caches ▸ hsc, pg, hpg, i, hi, hval⟩
  rcases (inUse_iff h₁).mp huse with halloc | ⟨hmono, -⟩
  · exact h.free halloc
  · exact slot_not_mono (h.heap h₁) hslot ((h.isMono val).mpr hmono)

/-- `s_alloc` makes a new object. -/
theorem AllocSpec.newObject (h : AllocSpec P base sc a₁ a' val) (h₁ : Heap P a₁)
    (hsc : sc ∈ a₁.caches) {r : Roots} (hmem : ∀ mb ∈ a'.allMegablocks, HeapMemory T r mb.base) :
    NewObject r a₁ a' val (a'.cache sc).size := by
  have hheap := h.heap h₁
  have hsc' : sc ∈ a'.caches := h.caches ▸ hsc
  have hwf := h.ok.wf sc hsc'
  have hw := T.word_pos
  have hptrs : ∀ v, a₁.InUse v → a'.ptrs v = a₁.ptrs v := by
    intro v hv
    rcases hv.1 with hslot | hmono
    · exact h.ptrs_slot h₁ hslot
    · exact mono_ptrs_congr h₁ hmono h.monoBlock
  obtain ⟨pg, hpg, i, hi, hval⟩ := h.slot
  have hfresh := h.not_inUse h₁ hsc
  have haligned := h.ok.aligned hsc' hpg
  refine ⟨h.rest.1, h.inUse h₁, hfresh, hptrs, ?_, hwf.size_pos, ?_, fun v hv j hj k hk => ?_,
    fun k hk => ?_⟩
  · rw [hval, slot_ptrs h.ok.toCore hsc' hpg hi]
    exact hwf.ptrs_le
  · rw [hval]
    exact four_dvd_slot _ _ haligned
  · have hobj : a'.IsObj v := ((h.inUse h₁ v).mpr (Or.inr hv)).1
    have hne : v ≠ val := fun heq => hfresh (heq ▸ hv)
    rw [← hptrs v hv] at hj
    rw [hval] at hne ⊢
    exact slot_obj_apart hheap hsc' hpg hi hobj hne hj hk
  · obtain ⟨haddr, hblk⟩ := slot_word h.ok.toCore hsc' hpg hi hk
    obtain ⟨-, mb, hmb, hchunk⟩ := h.ok.placed_chunk (Core.mem_placed hsc' hpg)
    have hmod := Nat.div_add_mod (slotAddr T (a'.cache sc) pg i + k * T.wordBytes) T.blockSize
    have hlt := Nat.mod_lt (slotAddr T (a'.cache sc) pg i + k * T.wordBytes) T.blockSize_pos
    unfold S_BLOCK at hblk
    rw [Nat.mul_comm] at hblk
    rw [hblk] at hmod
    rw [hval]
    have hin := chunk_memory (T := T) hchunk (by omega) (Nat.lt_of_le_of_lt (Nat.le_of_eq hmod.symm)
      (Nat.add_lt_add_left hlt pg))
    exact hmem mb hmb _ hin.1 hin.2

end Slot

/-! ### A new monolithic array -/

/-- `gc_array_alloc` beyond the entries of a block: `s_monoblock` at the memory
`base`. -/
def monoblock (a : Arena T) (base : Addr) (count : ℕ) : Arena T :=
  { a with toMonoArena := MonoArena.s_monoblock T a.toMonoArena base count 0 (a.words base) }

/-- The sizes of arrays for which the header fields are as the collector reads them. -/
structure ArrayFits (T : Target) (count : ℕ) : Prop where
  byte : count / 256 % 256 ≠ 0
  header : colorOf T 1 * T.wordBytes < T.blockSize
  bound : (colorOf T 1 + count) * T.wordBytes ≤ T.megablockSize

section Array

variable {a : Arena T} {base : Addr} {count : ℕ}

theorem monoblock_self (a : Arena T) (base : Addr) (count : ℕ) :
    ((a.monoblock base count).block base).flags = SLAB_MONOLITH ∧
      ((a.monoblock base count).block base).color = colorOf T 1 ∧
      ((a.monoblock base count).block base).u = .m count ∧
      ((a.monoblock base count).block base).used 0 = 1#_ := by
  simp [monoblock, MonoArena.s_monoblock, MonoArena.setUsed0, MonoArena.insertHead, colorOf]

theorem monoblock_other {pg : Addr} (hpg : pg ≠ base) :
    (a.monoblock base count).block pg = a.block pg := by
  simp [monoblock, MonoArena.s_monoblock, MonoArena.setUsed0, MonoArena.insertHead, hpg]

theorem monoblock_list (n : ℕ) {xs : List Addr} (hxs : a.MonoList xs) (hbase : base ∉ xs) :
    (a.monoblock base n).MonoList (base :: xs) :=
  ⟨SList.Chain.insertHead hxs.1 hbase, List.nodup_cons.mpr ⟨hbase, hxs.2⟩⟩

theorem FreshBase.not_listed (h : a.FreshBase base) {xs : List Addr} (hxs : a.MonoList xs) :
    base ∉ xs := fun hin =>
  h.mono xs hxs base hin base (inChunk_self T base) (inChunk_self T base)

theorem FreshBase.not_placed (h : a.FreshBase base) (hcore : Core P [] a) : base ∉ a.placed := by
  intro hin
  obtain ⟨-, mb, hmb, hchunk⟩ := hcore.placed_chunk hin
  exact h.mega mb hmb base (inChunk_self T base) hchunk

theorem monoblock_heap (h : Heap P a) (hbase : a.FreshBase base) (hfits : ArrayFits T count) :
    Heap P (a.monoblock base count) := by
  obtain ⟨xs, hxs, hfar⟩ := h.mono
  have hnot := hbase.not_placed h.toCore
  have hlisted := hbase.not_listed hxs
  have hxs' := monoblock_list count hxs hlisted
  have hblocks : ∀ pg ∈ a.placed, (a.monoblock base count).block pg = a.block pg :=
    fun pg hpg => monoblock_other fun heq => hnot (heq ▸ hpg)
  refine ⟨⟨h.nodup, h.handles, h.wf, h.admits, fun sc hsc pg hpg => ?_, fun pg hpg => ?_, h.place,
    h.once, ⟨h.mega.aligned, h.mega.bound, h.mega.current, h.mega.disjoint⟩,
    base :: xs, hxs', fun m hm => ?_⟩, fun ys hys m hm => ?_⟩
  · rw [hblocks pg (Core.mem_placed hsc hpg)]
    exact h.block sc hsc pg hpg
  · rw [hblocks pg (List.mem_append_right _ hpg)]
    exact h.free pg hpg
  · rcases List.mem_cons.mp hm with rfl | hold
    · exact fun mb hmb x hx hin => hbase.mega mb hmb x hin hx
    · exact hfar m hold
  · rw [hys.1.unique hxs'.1] at hm
    rcases List.mem_cons.mp hm with rfl | hold
    · obtain ⟨hflags, hcolor, hu, hused⟩ := monoblock_self a m count
      refine ⟨by rw [hflags]; decide, hcolor, ?_, hbase.aligned, hfits.header, ?_, Or.inr hused⟩
      · rw [hu]
        exact hfits.byte
      · rw [hu]
        exact hfits.bound
    · have hne : m ≠ base := fun heq => hlisted (heq ▸ hold)
      rw [monoblock_other hne]
      exact h.monos xs hxs m hold

theorem monoblock_isMono (h : Heap P a) (hbase : a.FreshBase base) (v : Addr) :
    (a.monoblock base count).IsMono v ↔ v = monoAddr T base ∨ a.IsMono v := by
  obtain ⟨xs, hxs, -⟩ := h.mono
  have hxs' := monoblock_list count hxs (hbase.not_listed hxs)
  constructor
  · intro ⟨ys, hys, m, hm, hv⟩
    rw [hys.1.unique hxs'.1] at hm
    rcases List.mem_cons.mp hm with rfl | hold
    · exact Or.inl hv
    · exact Or.inr ⟨xs, hxs, m, hold, hv⟩
  · intro hor
    rcases hor with hv | ⟨ys, hys, m, hm, hv⟩
    · exact ⟨_, hxs', base, List.mem_cons_self, hv⟩
    · rw [hys.1.unique hxs.1] at hm
      exact ⟨_, hxs', m, List.mem_cons_of_mem _ hm, hv⟩

theorem monoblock_marked (h : Heap P a) (hbase : a.FreshBase base) (hfits : ArrayFits T count) :
    (a.monoblock base count).Marked (monoAddr T base) := by
  obtain ⟨xs, hxs, -⟩ := h.mono
  have hxs' := monoblock_list count hxs (hbase.not_listed hxs)
  obtain ⟨-, -, -, hused⟩ := monoblock_self a base count
  have hholds := (monoblock_heap h hbase hfits).monos _ hxs' base List.mem_cons_self
  rw [mono_marked hholds]
  have hone : (a.monoblock base count).toMonoArena.marked base =
      ((1#T.bitsPerUnit) != 0#T.bitsPerUnit) := by
    unfold MonoArena.marked
    rw [hused]
  rw [hone]
  exact bne_iff_ne.mpr T.one_ne_zero

/-- The objects of before are not in the new block. -/
theorem FreshBase.apart (h : Heap P a) (hbase : a.FreshBase base) {v : Addr} (hv : a.IsObj v)
    {j : ℕ} (hj : j = 0 ∨ j < a.ptrs v) :
    ¬ InChunk T base (S_BLOCK T (v + j * T.wordBytes)) := by
  intro hin
  rcases hv with ⟨sc, hsc, pg, hpg, i, hi, rfl⟩ | ⟨xs, hxs, m, hm, rfl⟩
  · have hj' := slot_ptr_lt h.toCore hsc hpg hi hj
    rw [(slot_word h.toCore hsc hpg hi hj').2] at hin
    obtain ⟨-, mb, hmb, hchunk⟩ := h.placed_chunk (Core.mem_placed hsc hpg)
    exact hbase.mega mb hmb pg hin hchunk
  · have hold := h.monos xs hxs m hm
    have hj' : j = 0 ∨ j < (a.block m).u.numPtrs := by
      unfold ptrs at hj
      rwa [mono_block hold] at hj
    exact hbase.mono xs hxs m hm _ hin (mono_word hold hj')

/-- `s_monoblock` makes a new object. -/
theorem monoblock_newObject (h : Heap P a) (hbase : a.FreshBase base) (hfits : ArrayFits T count)
    {r : Roots} (hmem : HeapMemory T r base) (hpos : 0 < count) :
    NewObject r a (a.monoblock base count) (monoAddr T base) count := by
  have hheap := monoblock_heap h hbase hfits
  obtain ⟨xs, hxs, -⟩ := h.mono
  have hlisted := hbase.not_listed hxs
  have hxs' := monoblock_list count hxs hlisted
  have hholds := hheap.monos _ hxs' base List.mem_cons_self
  obtain ⟨-, -, hu, -⟩ := monoblock_self a base count
  have hnum : ((a.monoblock base count).block base).u.numPtrs = count := by
    rw [hu]
    rfl
  have hw := T.word_pos
  have hplaced : ∀ pg ∈ a.placed, (a.monoblock base count).block pg = a.block pg :=
    fun pg hpg => monoblock_other fun heq => hbase.not_placed h.toCore (heq ▸ hpg)
  have hmonos : ∀ ys, a.MonoList ys → ∀ m ∈ ys, (a.monoblock base count).block m = a.block m := by
    intro ys hys m hm
    exact monoblock_other fun heq => hbase.not_listed hys (heq ▸ hm)
  have hblock : S_BLOCK T (monoAddr T base) = base := mono_block hholds
  have hnotobj : ¬ a.IsObj (monoAddr T base) := by
    intro hobj
    have hfar := FreshBase.apart h hbase hobj (j := 0) (Or.inl rfl)
    rw [Nat.zero_mul, Nat.add_zero, hblock] at hfar
    exact hfar (inChunk_self T base)
  have hword : ∀ k < count, InChunk T base (S_BLOCK T (monoAddr T base + k * T.wordBytes)) :=
    fun k hk => mono_word hholds (Or.inr (hnum.symm ▸ hk))
  refine ⟨rfl, fun v => ?_, fun huse => hnotobj huse.1, fun v hv => ?_, ?_, hpos, ?_,
    fun v hv j hj k hk heq => ?_, fun k hk => ?_⟩
  · have hslots : (a.monoblock base count).Allocated v ↔ a.Allocated v := by
      refine exists_congr fun sc => and_congr_right fun hsc => exists_congr fun pg =>
        and_congr_right fun hpg => ?_
      rw [hplaced pg (Core.mem_placed hsc hpg)]
      exact Iff.rfl
    rw [inUse_iff hheap, inUse_iff h, hslots, monoblock_isMono h hbase]
    by_cases hval : v = monoAddr T base
    · subst hval
      exact iff_of_true (Or.inr ⟨Or.inl rfl, monoblock_marked h hbase hfits⟩) (Or.inl rfl)
    · have hkeep : (a.monoblock base count).IsMono v ↔ a.IsMono v :=
        (monoblock_isMono h hbase v).trans (or_iff_right hval)
      have hold := mono_inUse_congr h hkeep hmonos
      rw [monoblock_isMono h hbase] at hold
      rw [hold, or_iff_right hval]
  · rcases hv.1 with ⟨sc, hsc, pg, hpg, i, hi, rfl⟩ | hmono
    · unfold ptrs
      rw [(slot_usedIndex h.toCore hsc hpg hi).1, hplaced pg (Core.mem_placed hsc hpg)]
    · exact mono_ptrs_congr h hmono hmonos
  · unfold ptrs
    rw [hblock, hnum]
  · have hblock4 : 4 ∣ T.blockSize := Nat.pow_dvd_pow 2 T.shift_pos
    exact Nat.dvd_add (hblock4.trans hbase.aligned) (T.word_dvd.mul_left _)
  · have hfar := FreshBase.apart h hbase hv.1 hj
    rw [heq] at hfar
    exact hfar (hword k hk)
  · have hbound := hfits.bound
    have hmul : (colorOf T 1 + k) * T.wordBytes < (colorOf T 1 + count) * T.wordBytes :=
      Nat.mul_lt_mul_of_pos_right (Nat.add_lt_add_left hk _) hw
    have haddr : monoAddr T base + k * T.wordBytes = base + (colorOf T 1 + k) * T.wordBytes := by
      unfold monoAddr
      ring
    rw [haddr]
    exact hmem _ (Nat.le_add_right _ _) (Nat.add_lt_add_left (lt_of_lt_of_le hmul hbound) _)

end Array

/-! ### Runs -/

theorem Heap.counters {a : Arena T} (h : Heap P a) (x y : BitVec 32) :
    Heap P { a with blockUsed := x, blockThreshold := y } := ⟨h.toCore.counters x y, h.monos⟩

theorem Frame.allMegablocks {a a' : Arena T} (h : Frame a a') :
    a'.allMegablocks = a.allMegablocks := by
  unfold Arena.allMegablocks
  rw [h.current, h.megablocks]

theorem new_cache_allocated {a : Arena T} (h : Core P [] a) {size numPtrs : ℕ} (v : Addr) :
    (a.new_cache size numPtrs).2.Allocated v ↔ a.Allocated v := by
  have hold : ∀ sc ∈ a.caches, (a.new_cache size numPtrs).2.cache sc = a.cache sc := by
    intro sc hsc
    exact Function.update_of_ne (fun heq => Nat.lt_irrefl _ (heq ▸ h.handles sc hsc)) ..
  have hnil : ((a.new_cache size numPtrs).2.cache a.caches.length).lists = [] := by
    simp [new_cache, setCache, Cache.lists]
  constructor
  · intro hv
    obtain ⟨sc, hsc, pg, hpg, hslot⟩ := hv
    rcases List.mem_cons.mp hsc with rfl | hin
    · rw [hnil] at hpg
      exact absurd hpg List.not_mem_nil
    · rw [hold sc hin] at hpg hslot
      exact ⟨sc, hin, pg, hpg, hslot⟩
  · intro hv
    obtain ⟨sc, hsc, pg, hpg, hslot⟩ := hv
    rw [← hold sc hsc] at hpg hslot
    exact ⟨sc, List.mem_cons_of_mem _ hsc, pg, hpg, hslot⟩

theorem new_cache_heap {a : Arena T} (h : Heap P a) (hok : Ok P a) {size numPtrs : ℕ}
    (hsize : Admits T size numPtrs) : Heap P (a.new_cache size numPtrs).2 :=
  ⟨(new_cache_core hok hsize).toCore, h.monos⟩

theorem new_cache_inUse {a : Arena T} (h : Heap P a) (hok : Ok P a) {size numPtrs : ℕ}
    (hsize : Admits T size numPtrs) (v : Addr) :
    (a.new_cache size numPtrs).2.InUse v ↔ a.InUse v := by
  rw [inUse_iff (new_cache_heap h hok hsize), inUse_iff h, new_cache_allocated h.toCore]
  exact Iff.rfl

end Arena

/-- The heap, the roots and the locations that are lazy. -/
structure GcState (T : Target) where
  arena : Arena T
  roots : Roots
  lazyAt : Addr → Bool

inductive GcEvent where
  | cache (size numPtrs : ℕ)
  | alloc (sc : ℕ) (base : Addr) (fuel : ℕ) (isLazy : Bool) (ws : List ℕ)
  | array (base : Addr) (ws : List ℕ)
  | store (p : Addr) (w : ℕ)
  | roots (vs : List Addr) (ps : List ℕ)
  | newStablePtr (sp : Addr) (contents : ℕ)
  | collect (fuel : ℕ)

namespace GcState
open Arena

variable {T : Target}

/-- `s_alloc` of a block whose number of entries is one, or a multiple of the
bits of a word, goes wrong. -/
def GcEntries (T : Target) (n : ℕ) : Prop := 2 ≤ n ∧ n % T.bitsPerUnit ≠ 0

def Init (s : GcState T) : Prop :=
  SlabInit s.arena ∧ s.roots.rootStack = [] ∧ s.roots.stablePtrs = [] ∧ s.roots.gcStack = [] ∧
    ∀ p, s.lazyAt p = true → GET_PTYPE (s.arena.mem p) ≠ P_LAZY

/-- A new object is filled at once, and a pointer to it goes onto the GC stack. -/
def fill (s : GcState T) (a : Arena T) (val : Addr) (isLazy : Bool) (ws : List ℕ) : GcState T where
  arena := a.init val ws
  roots := s.roots.push (val + isLazy.toNat)
  lazyAt := initLazy T s.lazyAt val ws.length isLazy

/-- The mutator stores words that it can reach; only a word in weak head normal
form goes into the head of a lazy location. -/
def Step (s : GcState T) : GcEvent → GcState T → Prop
  | .cache size numPtrs, s' =>
    Admits T size numPtrs ∧ s' = { s with arena := (find_cache none s.arena size numPtrs).2 }
  | .alloc sc base fuel isLazy ws, s' =>
    sc ∈ s.arena.caches ∧ s.arena.FreshBase base ∧ HeapMemory T s.roots base ∧
      ∃ val a, s_alloc (gc_perform_gc fuel s.roots) base sc s.arena = some (val, a) ∧
        ws.length = (a.cache sc).size ∧ WordsOk s.roots s.lazyAt a val isLazy ws ∧
        s' = s.fill a val isLazy ws
  | .array base ws, s' =>
    s.arena.FreshBase base ∧ HeapMemory T s.roots base ∧ 0 < ws.length ∧
      WordsOk s.roots s.lazyAt (s.arena.monoblock base ws.length) (monoAddr T base) false ws ∧
      s' = s.fill (s.arena.monoblock base ws.length) (monoAddr T base) false ws
  | .store p w, s' =>
    Avail s.roots s.lazyAt s.arena w ∧ (s.lazyAt p = true → IS_LAZY w = false) ∧
      s' = { s with arena := s.arena.store p w }
  | .roots vs ps, s' =>
    (∀ v ∈ vs, gc_check_heap s.roots v = true →
      v ∈ s.roots.rootStack ∨ Reachable s.roots s.arena v ∧ s.lazyAt v = false) ∧
    (∀ p ∈ ps, p ∈ s.roots.gcStack ∨
      Avail s.roots s.lazyAt s.arena p ∧ (IS_LAZY p = true → GET_PTYPE p = P_LAZY)) ∧
    s' = { s with roots := { s.roots with rootStack := vs, gcStack := ps } }
  | .newStablePtr sp contents, s' =>
    s' = { s with roots := { s.roots with stablePtrs := (sp, contents) :: s.roots.stablePtrs } }
  | .collect fuel, s' =>
    ∃ a, gc_perform_gc fuel s.roots s.arena = some a ∧ s' = { s with arena := a }

/-- No stable pointer is made, a collection finds no held monolithic array but
the last one of the list, and the sizes are those the allocator is right for. -/
def GcOk (s : GcState T) : GcEvent → Prop
  | .alloc sc .. => GcEntries T (s.arena.cache sc).numEntries ∧ MonoHeld s.roots s.arena
  | .array _ ws => ArrayFits T ws.length
  | .newStablePtr .. => False
  | .collect _ => MonoHeld s.roots s.arena
  | _ => True

structure Inv (s : GcState T) : Prop where
  ok : Ok (GcEntries T) s.arena
  heap : Heap (GcEntries T) s.arena
  live : Live s.roots s.lazyAt s.arena
  stable : s.roots.stablePtrs = []
  outside : ∀ mb ∈ s.arena.allMegablocks, HeapMemory T s.roots mb.base

theorem gcEntries_mod (n : ℕ) (h : GcEntries T n) : n % T.bitsPerUnit ≠ 0 := h.2

theorem inv_init {s : GcState T} (h : s.Init) : s.Inv := by
  obtain ⟨hinit, hroots, hstable, hstack, hheads⟩ := h
  have hok : Ok (GcEntries T) s.arena := ok_init hinit
  have hnone : ∀ v, ¬ Reachable s.roots s.arena v := by
    intro v hv
    induction hv with
    | root hm hheap =>
      rw [hroots] at hm
      exact absurd hm List.not_mem_nil
    | stack hp hpt =>
      rw [hstack] at hp
      exact absurd hp List.not_mem_nil
    | field hu hi hpt ih => exact ih
  obtain ⟨block, mem, harena⟩ := hinit
  refine ⟨hok, ⟨hok.toCore, fun xs hxs m hm => ?_⟩, ⟨hheads, ?_, ?_, fun u hu => absurd hu (hnone u)⟩,
    hstable, ?_⟩
  · have hnil : xs = [] := by
      refine hxs.1.unique (show SList.Chain _ _ [] from ?_)
      rw [harena]
      rfl
    rw [hnil] at hm
    exact absurd hm List.not_mem_nil
  · rw [hroots]
    simp
  · rw [hstack]
    simp
  · rw [harena]
    simp [new_arena, allMegablocks]

theorem inv_cache {s : GcState T} (h : s.Inv) {size numPtrs : ℕ} (hsize : Admits T size numPtrs) :
    Inv { s with arena := (find_cache none s.arena size numPtrs).2 } := by
  unfold find_cache
  dsimp only
  split
  · exact h
  · exact ⟨new_cache_core h.ok hsize, new_cache_heap h.heap h.ok hsize,
      h.live.swept rfl rfl (new_cache_inUse h.heap h.ok hsize), h.stable, h.outside⟩

/-- A collection that `get_free_block` starts. -/
theorem gcCall_spec {s : GcState T} (h : s.Inv) (hmono : MonoHeld s.roots s.arena) {fuel : ℕ}
    {a : Arena T} (hrun : gcCall (gc_perform_gc fuel s.roots) s.arena = some a) :
    Ok (GcEntries T) a ∧ Heap (GcEntries T) a ∧ Frame s.arena a ∧ Live s.roots s.lazyAt a := by
  have hlive : Live s.roots s.lazyAt { s.arena with blockUsed := s.arena.blockUsed + 1 } :=
    h.live.swept rfl rfl fun _ => Iff.rfl
  have hcol := gc_spec gcEntries_mod (h.heap.counters _ _) hlive h.stable hmono hrun
  have hframe := hcol.frame
  exact ⟨hcol.ok, hcol.heap, ⟨hframe.caches, hframe.static, hframe.megablocks, hframe.current,
    hframe.mono⟩, hcol.live⟩

theorem inv_fill {s : GcState T} {a₁ a : Arena T} {val : Addr} {isLazy : Bool} {ws : List ℕ}
    (hlive : Live s.roots s.lazyAt a₁) (hnew : NewObject s.roots a₁ a val ws.length)
    (hok : Ok (GcEntries T) a) (hheap : Heap (GcEntries T) a)
    (hout : ∀ mb ∈ a.allMegablocks, HeapMemory T s.roots mb.base)
    (hws : WordsOk s.roots s.lazyAt a val isLazy ws) (hstable : s.roots.stablePtrs = []) :
    (s.fill a val isLazy ws).Inv :=
  ⟨⟨(hheap.withMem _).toCore, hok.partly⟩, hheap.withMem _, init_live hlive hnew hws, hstable, hout⟩

theorem inv_alloc {s s' : GcState T} (h : s.Inv) {sc : ℕ} {base : Addr} {fuel : ℕ} {isLazy : Bool}
    {ws : List ℕ} (hok : s.GcOk (.alloc sc base fuel isLazy ws))
    (hstep : s.Step (.alloc sc base fuel isLazy ws) s') : s'.Inv := by
  obtain ⟨hn, hmono⟩ := hok
  obtain ⟨hsc, hbase, hmem, val, a, hrun, hlen, hws, rfl⟩ := hstep
  obtain ⟨a₁, hor, hspec⟩ := s_alloc_spec (fun _ hP => hP) h.ok hsc hn hbase
    (fun a' hg => ⟨(gcCall_spec h hmono hg).1, (gcCall_spec h hmono hg).2.2.1⟩) hrun
  obtain ⟨hheap₁, hframe, hlive₁⟩ : Heap (GcEntries T) a₁ ∧ Frame s.arena a₁ ∧
      Live s.roots s.lazyAt a₁ := by
    rcases hor with rfl | hg
    · exact ⟨h.heap, Frame.refl _, h.live⟩
    · exact (gcCall_spec h hmono hg).2
  have hout : ∀ mb ∈ a.allMegablocks, HeapMemory T s.roots mb.base := by
    intro mb hmb
    rcases hspec.mega mb hmb with heq | ⟨mb', hmb', heq⟩
    · rw [heq]
      exact hmem
    · rw [heq]
      exact h.outside mb' (hframe.allMegablocks ▸ hmb')
  have hnew := hspec.newObject hheap₁ (hframe.caches ▸ hsc) hout
  rw [← hlen] at hnew
  exact inv_fill hlive₁ hnew hspec.ok (hspec.heap hheap₁) hout hws h.stable

theorem inv_array {s s' : GcState T} (h : s.Inv) {base : Addr} {ws : List ℕ}
    (hok : s.GcOk (.array base ws)) (hstep : s.Step (.array base ws) s') : s'.Inv := by
  have hfits : ArrayFits T ws.length := hok
  obtain ⟨hbase, hmem, hpos, hws, rfl⟩ := hstep
  have hheap := monoblock_heap h.heap hbase hfits
  have hnew := monoblock_newObject h.heap hbase hfits hmem hpos
  refine inv_fill h.live hnew ⟨hheap.toCore, fun sc hsc pg hpg => ?_⟩ hheap h.outside hws h.stable
  have hplaced := Core.mem_placed hsc (List.mem_append_left _ hpg)
  have hne : pg ≠ base := fun heq => hbase.not_placed h.ok.toCore (heq ▸ hplaced)
  rw [monoblock_other hne]
  exact h.ok.partly sc hsc pg hpg

theorem inv_step {s s' : GcState T} {e : GcEvent} (h : s.Inv) (hstep : Guarded GcOk Step s e s') :
    s'.Inv := by
  obtain ⟨hok, hstep⟩ := hstep
  cases e with
  | cache size numPtrs =>
    obtain ⟨hsize, rfl⟩ := hstep
    exact inv_cache h hsize
  | alloc sc base fuel isLazy ws => exact inv_alloc h hok hstep
  | array base ws => exact inv_array h hok hstep
  | store p w =>
    obtain ⟨hw, hhead, rfl⟩ := hstep
    exact ⟨⟨(h.heap.withMem _).toCore, h.ok.partly⟩, h.heap.withMem _,
      store_live h.live hw hhead, h.stable, h.outside⟩
  | roots vs ps =>
    obtain ⟨hvs, hps, rfl⟩ := hstep
    exact ⟨h.ok, h.heap, roots_live h.live hvs hps, h.stable, h.outside⟩
  | newStablePtr sp contents => exact absurd hok not_false
  | collect fuel =>
    obtain ⟨a, hrun, rfl⟩ := hstep
    have hcol := gc_spec gcEntries_mod h.heap h.live h.stable hok hrun
    refine ⟨hcol.ok, hcol.heap, hcol.live, h.stable, fun mb hmb => ?_⟩
    exact h.outside mb (hcol.frame.allMegablocks ▸ hmb)

theorem inv_reach {s : GcState T} (h : Reach Init (Guarded GcOk Step) s) : s.Inv :=
  h.invariant (fun _ hinit => inv_init hinit) fun _ _ _ hinv hstep => inv_step hinv hstep

/-- No block of an object in use is free. -/
theorem inUse_not_free {P : ℕ → Prop} {a : Arena T} (hok : Ok P a) (h : Heap P a) {v : Addr}
    (hv : a.InUse v) : S_BLOCK T v ∉ a.freeBlocks := by
  rcases (inUse_iff h).mp hv with halloc | ⟨hmono, -⟩
  · exact marked_not_free hok halloc
  · obtain ⟨xs, hxs, -⟩ := h.mono
    intro hfree
    exact h.not_mono hxs (List.mem_append_right _ hfree) (mono_listed h hxs hmono).1

end GcState

open Arena GcState

/-- Reachable through the pointer words as they stand in memory. -/
inductive RawReaches {T : Target} (r : Roots) (a : Arena T) : Addr → Prop where
  | root {v : Addr} : v ∈ r.rootStack → gc_check_heap r v = true → RawReaches r a v
  | stable {sp v : Addr} {c : ℕ} : (sp, c) ∈ r.stablePtrs → PointsTo r c v → RawReaches r a v
  | stack {p : ℕ} {v : Addr} : p ∈ r.gcStack → PointsTo r p v → RawReaches r a v
  | field {u v : Addr} {i : ℕ} : RawReaches r a u → i < a.ptrs u →
      PointsTo r (a.mem (u + i * T.wordBytes)) v → RawReaches r a v

def allocWord (s : GcState Target.lp64) (base : Addr) : ℕ × Arena Target.lp64 :=
  (s_alloc (gc_perform_gc 0 s.roots) base 0 s.arena).getD (0, s.arena)

theorem allocWord_run {s : GcState Target.lp64} {base : Addr}
    (h : (s_alloc (gc_perform_gc 0 s.roots) base 0 s.arena).isSome = true) :
    s_alloc (gc_perform_gc 0 s.roots) base 0 s.arena =
      some ((allocWord s base).1, (allocWord s base).2) := by
  obtain ⟨r, hr⟩ := Option.isSome_iff_exists.mp h
  unfold allocWord
  rw [hr]
  rfl

/-- LP64 with a cache for objects of one word, and nothing else. -/
def oneWordCache : GcState Target.lp64 where
  arena := (find_cache none emptyArena 1 1).2
  roots := ⟨0, 0, [], [], []⟩
  lazyAt _ := false

def cell : ℕ := (allocWord oneWordCache 1048576).1

/-- A lazy location with a code pointer. -/
def withCell : GcState Target.lp64 :=
  oneWordCache.fill (allocWord oneWordCache 1048576).2 cell true [P_FUNC]

def box : ℕ := (allocWord withCell 2097152).1

/-- An object that points to the lazy location. -/
def withBox : GcState Target.lp64 :=
  withCell.fill (allocWord withCell 2097152).2 box false [cell + P_LAZY]

/-- The lazy location is evaluated to a raw value, and only the other object
stays on the GC stack. -/
def evaluatedCell : GcState Target.lp64 where
  arena := withBox.arena.store cell P_VALUE
  roots := { withBox.roots with gcStack := [box] }
  lazyAt := withBox.lazyAt

theorem not_pointsTo {r : Roots} {w : ℕ} (hw : IS_PTR w = false) (v : Addr) : ¬ PointsTo r w v :=
  fun h => Bool.noConfusion (hw.symm.trans h.1)

/-- A word that is no pointer can always be stored. -/
theorem avail_raw {T : Target} (r : Roots) (lazyAt : Addr → Bool) (a : Arena T) {w : ℕ}
    (hw : IS_PTR w = false) : Avail r lazyAt a w := by
  have hptype : GET_PTYPE w ≠ P_LAZY := by
    intro hlazy
    rw [(ptype_lazy hlazy).2] at hw
    exact Bool.noConfusion hw
  have hsame : redirect a.mem w = w := if_neg fun h => hptype h.1
  refine ⟨⟨fun v hv => absurd hv (not_pointsTo hw v), fun h => absurd h hptype, fun v hv => ?_⟩,
    fun v hv => ?_⟩
  · rw [hsame] at hv
    exact absurd hv (not_pointsTo hw v)
  · rw [hsame] at hv
    exact absurd hv (not_pointsTo hw v)

theorem noMono {a : Arena Target.lp64} (h : a.monolithicBlocks = none) {xs : List Addr}
    (hxs : a.MonoList xs) : xs = [] :=
  hxs.1.unique (show SList.Chain _ _ [] from h)

theorem noMono_held (r : Roots) {a : Arena Target.lp64} (h : a.monolithicBlocks = none) :
    MonoHeld r a := by
  intro xs hxs m hm
  rw [noMono h hxs] at hm
  exact absurd hm List.not_mem_nil

theorem heapMemory_pos {r : Roots} (hr : r.nhStart = 0 ∧ r.nhEnd = 0) {base : ℕ} (hbase : 0 < base) :
    HeapMemory Target.lp64 r base := by
  intro x hx _
  have hpos : 0 < x := Nat.lt_of_lt_of_le hbase hx
  unfold gc_check_heap
  rw [hr.1, hr.2]
  simpa using hpos

theorem oneWordCache_reach : Reach GcState.Init (Guarded GcOk GcState.Step) oneWordCache := by
  have hstart : GcState.Init
      (⟨emptyArena, ⟨0, 0, [], [], []⟩, fun _ => false⟩ : GcState Target.lp64) :=
    ⟨⟨_, _, rfl⟩, rfl, rfl, rfl, fun p hp => Bool.noConfusion hp⟩
  exact .step (.start hstart) (show Guarded GcOk GcState.Step _ (.cache 1 1) _ from
    ⟨trivial, by decide, rfl⟩)

theorem withCell_reach : Reach GcState.Init (Guarded GcOk GcState.Step) withCell := by
  have hok : GcOk oneWordCache (.alloc 0 1048576 0 true [P_FUNC]) :=
    ⟨⟨by decide, by decide⟩, noMono_held _ rfl⟩
  refine .step oneWordCache_reach ⟨hok, List.mem_cons_self, ⟨by decide, ?_, ?_⟩,
    heapMemory_pos ⟨rfl, rfl⟩ (by decide), cell, (allocWord oneWordCache 1048576).2,
    allocWord_run (by decide), rfl, ⟨?_, ?_⟩, rfl⟩
  · intro mb hmb
    exact absurd hmb List.not_mem_nil
  · intro xs hxs m hm
    rw [noMono rfl hxs] at hm
    exact absurd hm List.not_mem_nil
  · intro i hi w hw
    have hfunc : w = P_FUNC := List.mem_singleton.mp (List.mem_of_getElem? hw)
    subst hfunc
    exact ⟨avail_raw _ _ _ rfl, not_pointsTo rfl _⟩
  · intro _ w hw
    have hfunc : w = P_FUNC := List.mem_singleton.mp (List.mem_of_getElem? hw)
    rw [hfunc]
    rfl

theorem withBox_reach : Reach GcState.Init (Guarded GcOk GcState.Step) withBox := by
  have hok : GcOk withCell (.alloc 0 2097152 0 false [cell + P_LAZY]) :=
    ⟨⟨by decide, by decide⟩, noMono_held _ rfl⟩
  have hmegas : withCell.arena.allMegablocks = [⟨1048576, 1⟩] := by decide
  refine .step withCell_reach ⟨hok, List.mem_cons_self, ⟨by decide, ?_, ?_⟩,
    heapMemory_pos ⟨rfl, rfl⟩ (by decide), box, (allocWord withCell 2097152).2,
    allocWord_run (by decide), by decide, ⟨?_, fun hlazy => Bool.noConfusion hlazy⟩, rfl⟩
  · intro mb hmb x hx hx'
    rw [hmegas, List.mem_singleton] at hmb
    subst hmb
    obtain ⟨k, hk, heq⟩ := hx
    obtain ⟨k', hk', heq'⟩ := hx'
    have hblocks : Target.lp64.megablockSize / Target.lp64.blockSize = 256 := by decide
    have hsize : Target.lp64.blockSize = 4096 := by decide
    rw [hblocks] at hk hk'
    rw [hsize] at heq heq'
    have hsame : 2097152 + 4096 * k = 1048576 + 4096 * k' := heq.symm.trans heq'
    omega
  · intro xs hxs m hm
    rw [noMono rfl hxs] at hm
    exact absurd hm List.not_mem_nil
  · intro i hi w hw
    have hcell : w = cell + P_LAZY := List.mem_singleton.mp (List.mem_of_getElem? hw)
    subst hcell
    have hhead : (allocWord withCell 2097152).2.mem cell = P_FUNC := by decide
    have hfrom : FROM_SPTR (cell + P_LAZY) = cell := by decide
    have hsame : redirect (allocWord withCell 2097152).2.mem (cell + P_LAZY) = cell + P_LAZY := by
      refine if_neg fun h => ?_
      rw [hfrom, hhead] at h
      exact Bool.noConfusion h.2
    have huse : (allocWord withCell 2097152).2.InUse cell :=
      ⟨Or.inl ⟨0, List.mem_cons_self, 1048576, by decide, 0, by decide, by decide⟩, by
        unfold Marked
        decide⟩
    have htarget : ∀ v, PointsTo withCell.roots (cell + P_LAZY) v → v = cell := fun v hv =>
      hv.2.2.symm.trans hfrom
    have hlazy : withCell.lazyAt cell = true := by decide
    refine ⟨⟨⟨fun v hv => ?_, fun _ => ?_, fun v hv => ?_⟩, fun v hv => ?_⟩, fun hv => ?_⟩
    · rw [htarget v hv]
      exact ⟨huse, hlazy⟩
    · rw [hfrom]
      exact hlazy
    · rw [hsame] at hv ⊢
      rw [htarget v hv]
      exact ⟨huse, hlazy⟩
    · rw [hsame] at hv
      refine .stack (p := cell + P_LAZY) List.mem_cons_self ?_
      rw [hsame]
      exact hv
    · have hne : box ≠ cell := by decide
      exact hne (htarget box hv)

theorem evaluatedCell_reach : Reach GcState.Init (Guarded GcOk GcState.Step) evaluatedCell := by
  have hstore : Guarded GcOk GcState.Step withBox (.store cell P_VALUE)
      { withBox with arena := withBox.arena.store cell P_VALUE } :=
    ⟨trivial, avail_raw _ _ _ rfl, fun _ => rfl, rfl⟩
  refine .step (.step withBox_reach hstore) (e := .roots [] [box]) ⟨trivial, ?_, ?_, rfl⟩
  · intro v hv
    exact absurd hv List.not_mem_nil
  · intro p hp
    rw [List.mem_singleton.mp hp]
    exact Or.inl List.mem_cons_self

/-- The other object is all that the collector sees. -/
theorem evaluatedCell_held {v : Addr} (hv : Held evaluatedCell.roots evaluatedCell.arena v) :
    v = box := by
  have hbox : ∀ v, PointsTo evaluatedCell.roots box v → v = box := by
    intro v hpt
    have hfrom : FROM_SPTR box = box := by decide
    exact hpt.2.2.symm.trans hfrom
  have hreach : ∀ v, Reachable evaluatedCell.roots evaluatedCell.arena v → v = box := by
    intro v hv
    induction hv with
    | root hm hheap => exact absurd hm List.not_mem_nil
    | stack hp hpt =>
      rw [List.mem_singleton.mp hp] at hpt
      have hsame : redirect evaluatedCell.arena.mem box = box :=
        redirect_of_not_lazy (by decide)
      rw [hsame] at hpt
      exact hbox _ hpt
    | field hu hi hpt ih =>
      subst ih
      have hone : evaluatedCell.arena.ptrs box = 1 := by
        unfold ptrs
        decide
      rw [hone, Nat.lt_one_iff] at hi
      subst hi
      have hword : evaluatedCell.arena.mem (box + 0 * Target.lp64.wordBytes) = cell + P_LAZY := by
        decide
      have hhead : evaluatedCell.arena.mem cell = P_VALUE := by decide
      have hfrom : FROM_SPTR (cell + P_LAZY) = cell := by decide
      have hred : redirect evaluatedCell.arena.mem (cell + P_LAZY) = P_VALUE := by
        unfold redirect
        rw [hfrom, hhead]
        rfl
      rw [hword, hred] at hpt
      exact absurd hpt (not_pointsTo rfl _)
  rcases hv with hr | ⟨p, hp, hpt⟩
  · exact hreach v hr
  · rw [List.mem_singleton.mp hp] at hpt
    exact hbox v hpt

end Jhc.Rts

import Jhc.Lib.Reach
import Jhc.Rts.SlabSweep

/-!
# Allocation from the slab caches (rts/gc_jgc.c:369-405, 510-563)

`get_free_block` and `s_alloc` keep the invariant of the arena, and `s_alloc`
returns a slot that was not allocated. Runs of allocations and collections
follow, with the condition on the caches under which the invariant holds.
-/

namespace Jhc.Rts
open Jhc.Lib

namespace Arena

variable {T : Target} {P : ℕ → Prop}

/-! ### get_free_block -/

/-- Memory that `jhc_aligned_alloc` may return: aligned and not in use. -/
structure FreshBase (a : Arena T) (base : Addr) : Prop where
  aligned : T.blockSize ∣ base
  mega : ∀ mb ∈ a.allMegablocks, ∀ x, InChunk T base x → ¬ InChunk T mb.base x
  mono : ∀ xs, a.MonoList xs → ∀ m ∈ xs, ∀ x, InChunk T base x → ¬ InChunk T m x

theorem FreshBase.frame {a a' : Arena T} {base : Addr} (h : a.FreshBase base)
    (hframe : Frame a a') (hmono : ∃ xs, a.MonoList xs) : a'.FreshBase base := by
  refine ⟨h.aligned, ?_, ?_⟩
  · have hall : a'.allMegablocks = a.allMegablocks := by
      unfold allMegablocks
      rw [hframe.current, hframe.megablocks]
    rw [hall]
    exact h.mega
  · intro ys hys m hm
    obtain ⟨xs, hxs⟩ := hmono
    obtain ⟨zs, hzs, hsub⟩ := hframe.mono xs hxs
    rw [hys.1.unique hzs.1] at hm
    exact h.mono xs hxs m (hsub m hm)

/-- The blocks that are free to be put on the list of a cache. -/
def Spare (P : ℕ → Prop) (b : SBlock T.bitsPerUnit) : Prop :=
  b.u.numFree = 0 ∨ FreeBlock P b

theorem carve_all (base : Addr) (a : Arena T) :
    (carveBlock base a).2.allMegablocks =
      ⟨(a.currentMegablock.getD ⟨base, 0⟩).base,
        (a.currentMegablock.getD ⟨base, 0⟩).nextFree + 1⟩ :: a.megablocks := by
  unfold carveBlock allMegablocks
  simp only
  split_ifs
  · rfl
  · rfl

theorem handed_current (base : Addr) (a : Arena T) :
    a.handed = ((List.range (a.currentMegablock.getD ⟨base, 0⟩).nextFree).map fun k =>
        (a.currentMegablock.getD ⟨base, 0⟩).base + T.blockSize * k) ++
      a.megablocks.flatMap fun mb =>
        (List.range mb.nextFree).map fun k => mb.base + T.blockSize * k := by
  unfold handed allMegablocks
  cases a.currentMegablock with
  | none => simp
  | some mb => simp

theorem carve_handed (base : Addr) (a : Arena T) :
    (carveBlock base a).2.handed.Perm ((carveBlock base a).1 :: a.handed) := by
  have hpg : (carveBlock base a).1 = (a.currentMegablock.getD ⟨base, 0⟩).base +
      T.blockSize * (a.currentMegablock.getD ⟨base, 0⟩).nextFree := rfl
  rw [handed, carve_all, handed_current base a, hpg, List.flatMap_cons, List.range_succ,
    List.map_append, List.append_assoc, List.map_singleton, List.singleton_append]
  exact List.perm_middle

/-- The megablock that `carveBlock` takes from. -/
theorem current_spec {taken : List Addr} {a : Arena T} (h : Core P taken a) {base : Addr}
    (hbase : a.FreshBase base) :
    T.blockSize ∣ (a.currentMegablock.getD ⟨base, 0⟩).base ∧
      (a.currentMegablock.getD ⟨base, 0⟩).nextFree < T.megablockSize / T.blockSize ∧
      (∀ mb ∈ a.megablocks, ∀ x, InChunk T (a.currentMegablock.getD ⟨base, 0⟩).base x →
        ¬ InChunk T mb.base x) ∧
      ∀ xs, a.MonoList xs → ∀ m ∈ xs, ∀ x,
        InChunk T (a.currentMegablock.getD ⟨base, 0⟩).base x → ¬ InChunk T m x := by
  cases hcur : a.currentMegablock with
  | none =>
    refine ⟨hbase.aligned, blocks_pos T, fun mb hmb => ?_, hbase.mono⟩
    exact hbase.mega mb (List.mem_append_right _ hmb)
  | some mb =>
    have hmem : mb ∈ a.allMegablocks := by simp [allMegablocks, hcur]
    refine ⟨h.mega.aligned mb hmem, h.mega.current mb hcur, ?_, ?_⟩
    · have hdis := h.mega.disjoint
      unfold allMegablocks at hdis
      rw [hcur, Option.toList_some, List.singleton_append, List.pairwise_cons] at hdis
      exact hdis.1
    · intro xs hxs m hm
      obtain ⟨ys, hys, hfar⟩ := h.mono
      rw [hxs.1.unique hys.1] at hm
      exact hfar m hm mb hmem

theorem carve_not_handed {taken : List Addr} {a : Arena T} (h : Core P taken a) {base : Addr}
    (hbase : a.FreshBase base) : (carveBlock base a).1 ∉ a.handed := by
  obtain ⟨-, hlt, hdis, -⟩ := current_spec h hbase
  rw [handed_current base a]
  intro hmem
  have hpg : (carveBlock base a).1 = (a.currentMegablock.getD ⟨base, 0⟩).base +
      T.blockSize * (a.currentMegablock.getD ⟨base, 0⟩).nextFree := rfl
  rw [hpg] at hmem
  rcases List.mem_append.mp hmem with hcur | hold
  · obtain ⟨k, hk, heq⟩ := List.mem_map.mp hcur
    have hmul := Nat.eq_of_mul_eq_mul_left T.blockSize_pos (Nat.add_left_cancel heq)
    rw [List.mem_range] at hk
    omega
  · obtain ⟨mb, hmb, hin⟩ := List.mem_flatMap.mp hold
    obtain ⟨k, hk, heq⟩ := List.mem_map.mp hin
    rw [List.mem_range] at hk
    have hbound := h.mega.bound mb (List.mem_append_right _ hmb)
    exact hdis mb hmb _ ⟨_, hlt, rfl⟩ ⟨k, by omega, heq.symm⟩

theorem carve_spec {a : Arena T} (h : Core P [] a) {base : Addr} (hbase : a.FreshBase base) :
    Core P [(carveBlock base a).1] (carveBlock base a).2 ∧
      Spare P ((carveBlock base a).2.block (carveBlock base a).1) := by
  obtain ⟨halign, hlt, hdis, hmono⟩ := current_spec h hbase
  have hnot := carve_not_handed h hbase
  have hsame : ∀ pg ∈ a.placed, (carveBlock base a).2.block pg = a.block pg := by
    intro pg hpg
    have hne : pg ≠ (carveBlock base a).1 := fun heq =>
      hnot (heq ▸ h.place.mem_iff.mp (List.mem_append_right _ hpg))
    exact Function.update_of_ne hne ..
  have hall := carve_all base a
  refine ⟨⟨h.nodup, h.handles, h.wf, h.admits, ?_, ?_, ?_, ?_, ⟨?_, ?_, ?_, ?_⟩, ?_⟩, ?_⟩
  · intro sc hsc pg hpg
    rw [hsame pg (Core.mem_placed hsc hpg)]
    exact h.block sc hsc pg hpg
  · intro pg hpg
    rw [hsame pg (List.mem_append_right _ hpg)]
    exact h.free pg hpg
  · have hold : (carveBlock base a).2.placed = a.placed := rfl
    rw [hold]
    exact (h.place.cons _).trans (carve_handed base a).symm
  · rw [(carve_handed base a).nodup_iff]
    exact List.nodup_cons.mpr ⟨hnot, h.once⟩
  · rw [hall]
    intro mb hmb
    rcases List.mem_cons.mp hmb with rfl | hold
    · exact halign
    · exact h.mega.aligned mb (List.mem_append_right _ hold)
  · rw [hall]
    intro mb hmb
    rcases List.mem_cons.mp hmb with rfl | hold
    · exact hlt
    · exact h.mega.bound mb (List.mem_append_right _ hold)
  · intro mb hmb
    simp only [carveBlock] at hmb
    split_ifs at hmb with hfull
    · have hne : (a.currentMegablock.getD ⟨base, 0⟩).nextFree + 1 ≠
          T.megablockSize / T.blockSize := by simpa using hfull
      rw [← Option.some_inj.mp hmb]
      show (a.currentMegablock.getD ⟨base, 0⟩).nextFree + 1 < _
      omega
  · rw [hall, List.pairwise_cons]
    refine ⟨hdis, ?_⟩
    have hpair := h.mega.disjoint
    unfold allMegablocks at hpair
    exact (List.pairwise_append.mp hpair).2.1
  · obtain ⟨xs, hxs, hfar⟩ := h.mono
    refine ⟨xs, hxs, fun m hm => ?_⟩
    rw [hall]
    intro mb hmb
    rcases List.mem_cons.mp hmb with rfl | hold
    · exact hmono xs hxs m hm
    · exact hfar m hm mb (List.mem_append_right _ hold)
  · refine Or.inl ?_
    have hself : (carveBlock base a).2.block (carveBlock base a).1 =
        { a.block (carveBlock base a).1 with
          u := (a.block (carveBlock base a).1).u.setNumFree 0 } := Function.update_self ..
    rw [hself]
    cases (a.block (carveBlock base a).1).u with
    | pi p s f x => rfl
    | m p =>
      show (p % 65536 + 65536 * 0) / 65536 % 65536 = 0
      omega

theorem Core.counters {taken : List Addr} {a : Arena T} (h : Core P taken a) (x y : BitVec 32) :
    Core P taken { a with blockUsed := x, blockThreshold := y } :=
  ⟨h.nodup, h.handles, h.wf, h.admits, h.block, h.free, h.place, h.once,
    ⟨h.mega.aligned, h.mega.bound, h.mega.current, h.mega.disjoint⟩, h.mono⟩

theorem Core.popFree {a : Arena T} (h : Core P [] a) {pg : Addr} {rest : List Addr}
    (hfree : a.freeBlocks = pg :: rest) : Core P [pg] { a with freeBlocks := rest } := by
  refine ⟨h.nodup, h.handles, h.wf, h.admits, h.block, ?_, ?_, h.once,
    ⟨h.mega.aligned, h.mega.bound, h.mega.current, h.mega.disjoint⟩, h.mono⟩
  · intro x hx
    exact h.free x (hfree ▸ List.mem_cons_of_mem _ hx)
  · have hplace := h.place
    have hold : a.placed = (a.caches.flatMap fun sc => (a.cache sc).lists) ++ pg :: rest := by
      rw [← hfree]
      rfl
    rw [List.nil_append, hold] at hplace
    have hmove : (pg :: ((a.caches.flatMap fun sc => (a.cache sc).lists) ++ rest)).Perm
        ((a.caches.flatMap fun sc => (a.cache sc).lists) ++ pg :: rest) := List.perm_middle.symm
    exact hmove.trans hplace

/-- What `get_free_block` does: `a₁` is the arena after the collection, if there
was one, and only a block on no list of `a₁` may have been written. -/
structure GotBlock (P : ℕ → Prop) (base : Addr) (a₁ a₂ : Arena T) (pg : Addr) : Prop where
  core : Core P [pg] a₂
  spare : Spare P (a₂.block pg)
  caches : a₂.caches = a₁.caches
  cache : a₂.cache = a₁.cache
  block : ∀ p ≠ pg, a₂.block p = a₁.block p
  rest : a₂.mem = a₁.mem ∧ a₂.link = a₁.link ∧ a₂.monolithicBlocks = a₁.monolithicBlocks
  mega : ∀ mb ∈ a₂.allMegablocks, mb.base = base ∨ ∃ mb' ∈ a₁.allMegablocks, mb.base = mb'.base

theorem carve_got {a a₂ : Arena T} {base pg : Addr} (h : Core P [] a) (hbase : a.FreshBase base)
    (x y : BitVec 32)
    (hrun : carveBlock base { a with blockUsed := x, blockThreshold := y } = (pg, a₂)) :
    GotBlock P base a a₂ pg := by
  obtain ⟨hcore, hspare⟩ := carve_spec (h.counters x y) ⟨hbase.aligned, hbase.mega, hbase.mono⟩
  have hall := carve_all base { a with blockUsed := x, blockThreshold := y }
  have ha₂ : a₂ = (carveBlock base { a with blockUsed := x, blockThreshold := y }).2 := by
    rw [hrun]
  have hpg : pg = (carveBlock base { a with blockUsed := x, blockThreshold := y }).1 := by
    rw [hrun]
  rw [hrun] at hcore hspare hall
  refine ⟨hcore, hspare, ?_, ?_, fun p hp => ?_, ⟨?_, ?_, ?_⟩, fun mb hmb => ?_⟩
  · rw [ha₂]
    rfl
  · rw [ha₂]
    rfl
  · rw [ha₂]
    rw [hpg] at hp
    exact Function.update_of_ne hp ..
  · rw [ha₂]
    rfl
  · rw [ha₂]
    rfl
  · rw [ha₂]
    rfl
  · rw [hall] at hmb
    rcases List.mem_cons.mp hmb with rfl | hold
    · cases hcur : a.currentMegablock with
      | none => exact Or.inl rfl
      | some mb' => exact Or.inr ⟨mb', by simp [allMegablocks, hcur], rfl⟩
    · exact Or.inr ⟨mb, List.mem_append_right _ hold, rfl⟩

/-- The collector as `get_free_block` calls it. -/
def gcCall (gc : Arena T → Option (Arena T)) (a : Arena T) : Option (Arena T) :=
  gc { a with blockUsed := a.blockUsed + 1 }

theorem get_free_block_spec {gc : Arena T → Option (Arena T)} {base : Addr} {a : Arena T}
    (h : Core P [] a) (hbase : a.FreshBase base)
    (hgc : ∀ a', gcCall gc a = some a' → Core P [] a' ∧ Frame a a') {pg : Addr} {a₂ : Arena T}
    (hrun : get_free_block gc base a = some (pg, a₂)) :
    ∃ a₁, (a₁ = a ∨ gcCall gc a = some a₁) ∧ GotBlock P base a₁ a₂ pg := by
  have hmono : ∃ xs, a.MonoList xs := by
    obtain ⟨xs, hxs, -⟩ := h.mono
    exact ⟨xs, hxs⟩
  simp only [get_free_block] at hrun
  split at hrun
  case h_1 x rest hfree =>
    simp only [Option.some.injEq, Prod.mk.injEq] at hrun
    obtain ⟨rfl, rfl⟩ := hrun
    refine ⟨a, Or.inl rfl, (h.popFree hfree).counters _ _, Or.inr (h.free _ ?_), rfl, rfl,
      fun _ _ => rfl, ⟨rfl, rfl, rfl⟩, fun mb hmb => Or.inr ⟨mb, hmb, rfl⟩⟩
    rw [hfree]
    exact List.mem_cons_self
  case h_2 hfree =>
    split_ifs at hrun
    · obtain ⟨a₁, hg, hcarve⟩ := Option.map_eq_some_iff.mp hrun
      have hcall : gcCall gc a = some a₁ := hg
      obtain ⟨hcore, hframe⟩ := hgc a₁ hcall
      exact ⟨a₁, Or.inr hcall, carve_got hcore (hbase.frame hframe hmono) _ _ hcarve⟩
    · exact ⟨a, Or.inl rfl, carve_got h hbase _ _ (Option.some_inj.mp hrun)⟩

theorem get_free_block_total {gc : Arena T → Option (Arena T)} (base : Addr) {a : Arena T}
    (hgc : ∃ a', gcCall gc a = some a') : ∃ r, get_free_block gc base a = some r := by
  obtain ⟨a', hgc⟩ := hgc
  unfold gcCall at hgc
  simp only [get_free_block, hgc]
  split
  · exact ⟨_, rfl⟩
  · split_ifs
    · exact ⟨_, rfl⟩
    · exact ⟨_, rfl⟩

/-! ### The block that s_alloc initialises -/

theorem initBlock_spec {c : Cache} (hsmall : c.numEntries < 2 ^ 16) (hpos : 2 ≤ c.numEntries)
    (hmod : c.numEntries % T.bitsPerUnit ≠ 0) {b : SBlock T.bitsPerUnit} (hb : Spare P b) :
    c.Holds (initBlock c b) ∧ (initBlock c b).u.numFree ≠ 0 ∧
      ∀ i < c.numEntries, bitIsSet (initBlock c b).used i = decide (i = 0) := by
  have hw := T.bitsPerUnit_pos
  obtain ⟨-, hcap, -⟩ := T.bitarraySize_spec c.numEntries (by omega)
  -- the block before its first bit is set: all entries clear, the excess set
  obtain ⟨b', hinit, hflags, hcolor, hu, hclear, hexc⟩ : ∃ b' : SBlock T.bitsPerUnit,
      initBlock c b = { b' with
        used := Function.update b'.used 0 1#_
        u := b'.u.setNumFree ((c.numEntries + (2 ^ 16 - 1)) % 2 ^ 16) } ∧
      b'.flags = c.flags ∧ b'.color = c.color ∧
      b'.u = .pi c.numPtrs c.size c.numEntries 0 ∧
      (∀ i < c.numEntries, bitIsSet b'.used i = false) ∧
      (c.numEntries < T.bitsPerUnit ∨ ExcessSet T c.numEntries b'.used) := by
    by_cases hsame : c.numEntries = b.u.numFree
    · refine ⟨⟨c.flags, c.color, .pi c.numPtrs c.size b.u.numFree 0, b.used⟩, ?_, rfl, rfl, ?_,
        ?_, ?_⟩
      · simp only [initBlock, if_neg (not_not.mpr hsame)]
      · rw [hsame]
      · rcases hb with hzero | hfree
        · omega
        · intro i hi
          have hcount := hfree.inv.count
          rw [← hsame] at hcount
          exact all_clear hcount hi
      · rcases hb with hzero | hfree
        · omega
        · rw [hsame]
          exact hfree.inv.excess
    · obtain ⟨-, hu, hexc⟩ := clear_block_inv hmod
        (b := ⟨c.flags, c.color, .pi c.numPtrs c.size b.u.numFree 0, b.used⟩) rfl
      refine ⟨clear_block_used_bits T c.numEntries
        ⟨c.flags, c.color, .pi c.numPtrs c.size b.u.numFree 0, b.used⟩, ?_, rfl, rfl, hu, ?_,
        Or.inr hexc⟩
      · simp only [initBlock, if_pos hsame]
      · intro i hi
        rw [clear_block_bits hmod (by omega)]
        simpa using hi
  rw [hinit]
  have hdec : (c.numEntries + (2 ^ 16 - 1)) % 2 ^ 16 = c.numEntries - 1 := by omega
  have hnew : ∀ i, bitIsSet (Function.update b'.used 0 1#_) i =
      if i < T.bitsPerUnit then decide (i = 0) else bitIsSet b'.used i := by
    intro i
    unfold bitIsSet
    by_cases hi : i < T.bitsPerUnit
    · have hone := getLsbD_one_shiftLeft (j := i) hw
      rw [if_pos hi, Nat.div_eq_of_lt hi, Nat.mod_eq_of_lt hi, Function.update_self]
      simpa using hone
    · have hword : i / T.bitsPerUnit ≠ 0 := by
        intro hzero
        rcases Nat.div_eq_zero_iff.mp hzero with h | h
        · omega
        · exact hi h
      rw [if_neg hi, Function.update_of_ne hword]
  have hbits : ∀ i < c.numEntries,
      bitIsSet (Function.update b'.used 0 1#_) i = decide (i = 0) := by
    intro i hi
    rw [hnew i]
    split_ifs with hlt
    · rfl
    · rw [hclear i hi]
      have hne : i ≠ 0 := by omega
      simp [hne]
  refine ⟨⟨hflags, hcolor, ⟨c.numEntries - 1, 0, ?_, ?_⟩, ⟨?_, ?_⟩⟩, ?_, hbits⟩
  · simp only [hu, hdec, BlockU.setNumFree]
  · obtain ⟨-, -, hsize⟩ := T.bitarraySize_spec c.numEntries (by omega)
    exact hsize
  · have herase : clearBits c.numEntries (Function.update b'.used 0 1#_) =
        (Finset.range c.numEntries).erase 0 := by
      ext i
      rw [mem_clearBits, Finset.mem_erase, Finset.mem_range]
      constructor
      · intro hmem
        obtain ⟨hi, hbit⟩ := hmem
        rw [hbits i hi] at hbit
        exact ⟨by simpa using hbit, hi⟩
      · intro hmem
        obtain ⟨hne, hi⟩ := hmem
        refine ⟨hi, ?_⟩
        rw [hbits i hi]
        simpa using hne
    rw [herase, Finset.card_erase_of_mem (Finset.mem_range.mpr (by omega)), Finset.card_range]
    simp only [hu, hdec, BlockU.setNumFree, BlockU.numFree]
  · rcases hexc with hlt | hexc
    · exact Or.inl hlt
    · refine (Nat.lt_or_ge c.numEntries T.bitsPerUnit).imp id fun hge i hle hlt => ?_
      have hne : c.numEntries ≠ T.bitsPerUnit := by
        intro heq
        rw [heq, Nat.mod_self] at hmod
        exact hmod rfl
      show bitIsSet (Function.update b'.used 0 1#_) i = true
      rw [hnew i, if_neg (by omega)]
      exact hexc i hle hlt
  · simp only [hu, hdec, BlockU.setNumFree, BlockU.numFree]
    omega

/-! ### s_alloc -/

/-- The arena `a'` is `a` with the entry `found` of the block `pg` of `sc` taken. -/
structure Put (a a' : Arena T) (sc : ℕ) (pg : Addr) (found : ℕ) : Prop where
  caches : a'.caches = a.caches
  other : ∀ sc' ≠ sc, a'.cache sc' = a.cache sc'
  static : ∃ blocks fullBlocks,
    a'.cache sc = { a.cache sc with blocks := blocks, fullBlocks := fullBlocks }
  lists : ∀ x, x ∈ (a'.cache sc).lists ↔ x = pg ∨ x ∈ (a.cache sc).lists
  only : ∀ sc' ∈ a.caches, pg ∈ (a.cache sc').lists → sc' = sc
  found_lt : found < (a.cache sc).numEntries
  clear : pg ∈ (a.cache sc).lists → bitIsSet (a.block pg).used found = false
  bits : ∀ i < (a.cache sc).numEntries, bitIsSet (a'.block pg).used i = true ↔
    i = found ∨ pg ∈ (a.cache sc).lists ∧ bitIsSet (a.block pg).used i = true
  block : ∀ sc' ∈ a.caches, ∀ p ∈ (a.cache sc').lists, p ≠ pg → a'.block p = a.block p

theorem Put.allocated {a a' : Arena T} {sc found : ℕ} {pg : Addr} (h : Put a a' sc pg found)
    (hsc : sc ∈ a.caches) (v : Addr) :
    a'.Allocated v ↔ v = slotAddr T (a.cache sc) pg found ∨ a.Allocated v := by
  obtain ⟨blocks, fullBlocks, hstatic⟩ := h.static
  have hn : (a'.cache sc).numEntries = (a.cache sc).numEntries := by rw [hstatic]
  have haddr : ∀ p i, slotAddr T (a'.cache sc) p i = slotAddr T (a.cache sc) p i := by
    intro p i
    rw [hstatic]
    rfl
  constructor
  · intro ⟨sc', hsc', p, hp, i, hi, hv, hbit⟩
    rw [h.caches] at hsc'
    by_cases heq : sc' = sc
    · subst heq
      rw [hn] at hi
      rw [haddr] at hv
      by_cases hpg : p = pg
      · subst hpg
        rcases (h.bits i hi).mp hbit with rfl | ⟨hin, hold⟩
        · exact Or.inl hv
        · exact Or.inr ⟨sc', hsc, p, hin, i, hi, hv, hold⟩
      · have hin : p ∈ (a.cache sc').lists := ((h.lists p).mp hp).resolve_left hpg
        rw [h.block sc' hsc p hin hpg] at hbit
        exact Or.inr ⟨sc', hsc, p, hin, i, hi, hv, hbit⟩
    · rw [h.other sc' heq] at hp hi hv
      have hpg : p ≠ pg := fun hpp => heq (h.only sc' hsc' (hpp ▸ hp))
      rw [h.block sc' hsc' p hp hpg] at hbit
      exact Or.inr ⟨sc', hsc', p, hp, i, hi, hv, hbit⟩
  · intro hor
    rcases hor with rfl | ⟨sc', hsc', p, hp, i, hi, hv, hbit⟩
    · refine ⟨sc, by rw [h.caches]; exact hsc, pg, (h.lists pg).mpr (Or.inl rfl), found, ?_, ?_,
        (h.bits found h.found_lt).mpr (Or.inl rfl)⟩
      · rw [hn]
        exact h.found_lt
      · exact (haddr pg found).symm
    · by_cases heq : sc' = sc
      · subst heq
        refine ⟨sc', by rw [h.caches]; exact hsc, p, (h.lists p).mpr (Or.inr hp), i, ?_, ?_, ?_⟩
        · rw [hn]
          exact hi
        · rw [haddr]
          exact hv
        · by_cases hpg : p = pg
          · subst hpg
            exact (h.bits i hi).mpr (Or.inr ⟨hp, hbit⟩)
          · rw [h.block sc' hsc p hp hpg]
            exact hbit
      · have hpg : p ≠ pg := fun hpp => heq (h.only sc' hsc' (hpp ▸ hp))
        refine ⟨sc', by rw [h.caches]; exact hsc', p, ?_, i, ?_, ?_, ?_⟩
        · rw [h.other sc' heq]
          exact hp
        · rw [h.other sc' heq]
          exact hi
        · rw [h.other sc' heq]
          exact hv
        · rw [h.block sc' hsc' p hp hpg]
          exact hbit

theorem Put.not_allocated {taken : List Addr} {a a' : Arena T} (hcore : Core P taken a)
    {sc found : ℕ} {pg : Addr} (h : Put a a' sc pg found) (hsc : sc ∈ a.caches)
    (hpg : T.blockSize ∣ pg) : ¬ a.Allocated (slotAddr T (a.cache sc) pg found) := by
  intro ⟨sc', hsc', p, hp, i, hi, hv, hbit⟩
  have hpgs := (hcore.wf sc hsc).slot_inj (hcore.wf sc' hsc') hpg (hcore.aligned hsc' hp)
    h.found_lt hi hv
  subst hpgs
  have hscs := h.only sc' hsc' hp
  subst hscs
  have hidx := (hcore.wf sc' hsc).slot_index pg found
  rw [hv, (hcore.wf sc' hsc).slot_index] at hidx
  rw [hidx, h.clear hp] at hbit
  exact Bool.noConfusion hbit

/-- What `s_alloc` does to the arena `a₁` in which it takes the entry. -/
structure AllocSpec (P : ℕ → Prop) (base : Addr) (sc : ℕ) (a₁ a' : Arena T) (val : Addr) : Prop where
  ok : Ok P a'
  caches : a'.caches = a₁.caches
  static : ∀ sc, ∃ blocks fullBlocks,
    a'.cache sc = { a₁.cache sc with blocks := blocks, fullBlocks := fullBlocks }
  lists : ∀ sc', ∀ p ∈ (a₁.cache sc').lists, p ∈ (a'.cache sc').lists
  block : ∀ p ∉ a'.placed, a'.block p = a₁.block p
  rest : a'.mem = a₁.mem ∧ a'.link = a₁.link ∧ a'.monolithicBlocks = a₁.monolithicBlocks
  mega : ∀ mb ∈ a'.allMegablocks, mb.base = base ∨ ∃ mb' ∈ a₁.allMegablocks, mb.base = mb'.base
  slot : ∃ pg ∈ (a'.cache sc).lists, ∃ i < (a'.cache sc).numEntries,
    val = slotAddr T (a'.cache sc) pg i
  free : ¬ a₁.Allocated val
  allocated : ∀ v, a'.Allocated v ↔ v = val ∨ a₁.Allocated v

theorem Put.lists_all {a a' : Arena T} {sc found : ℕ} {pg : Addr} (h : Put a a' sc pg found)
    (sc' : ℕ) (p : Addr) (hp : p ∈ (a.cache sc').lists) : p ∈ (a'.cache sc').lists := by
  by_cases heq : sc' = sc
  · subst heq
    exact (h.lists p).mpr (Or.inr hp)
  · rw [h.other sc' heq]
    exact hp

theorem Put.static_all {a a' : Arena T} {sc found : ℕ} {pg : Addr} (h : Put a a' sc pg found)
    (sc' : ℕ) : ∃ blocks fullBlocks,
      a'.cache sc' = { a.cache sc' with blocks := blocks, fullBlocks := fullBlocks } := by
  by_cases heq : sc' = sc
  · subst heq
    exact h.static
  · exact ⟨(a.cache sc').blocks, (a.cache sc').fullBlocks, h.other sc' heq⟩

/-- The branch of `s_alloc` for a cache without a partly filled block. -/
theorem alloc_fresh (hP : ∀ n, P n → 2 ≤ n ∧ n % T.bitsPerUnit ≠ 0) {a₁ a₂ : Arena T} {sc : ℕ}
    {base pg : Addr} (h : Ok P a₁) (hsc : sc ∈ a₁.caches) (hn : P (a₁.cache sc).numEntries)
    (hgot : GotBlock P base a₁ a₂ pg) :
    AllocSpec P base sc a₁ ((a₂.setCache sc
        { a₂.cache sc with blocks := pg :: (a₂.cache sc).blocks }).setBlock pg
          (initBlock (a₂.cache sc) (a₂.block pg)))
      (slotAddr T (a₁.cache sc) pg 0) := by
  obtain ⟨hcore, hspare, hcaches, hcache, hblock, hrest, hmega⟩ := hgot
  obtain ⟨hpos, hmod⟩ := hP _ hn
  have hsc₂ : sc ∈ a₂.caches := hcaches ▸ hsc
  have hwf := h.wf sc hsc
  have hinit := initBlock_spec hwf.entries_lt hpos hmod hspare
  rw [← hcache] at hinit hn
  obtain ⟨hhold, hnz, hbits⟩ := hinit
  have hnot : pg ∉ a₂.placed := by
    have hnd := hcore.place.nodup_iff.mpr hcore.once
    exact (List.nodup_cons.mp hnd).1
  have hne : ∀ sc' ∈ a₂.caches, ∀ p ∈ (a₂.cache sc').lists, p ≠ pg :=
    fun sc' hsc' p hp heq => hnot (heq ▸ Core.mem_placed hsc' hp)
  have halign : T.blockSize ∣ pg := by
    obtain ⟨mb, hmb, k, -, rfl⟩ :=
      Core.mem_handed.mp (hcore.place.mem_iff.mp (List.mem_append_left _ List.mem_cons_self))
    exact Nat.dvd_add (hcore.mega.aligned mb hmb) (Dvd.intro _ rfl)
  have hupd : ∀ sc' ∈ a₂.caches, ∀ p ∈ (a₂.cache sc').lists,
      Function.update a₂.block pg (initBlock (a₂.cache sc) (a₂.block pg)) p = a₂.block p :=
    fun sc' hsc' p hp => Function.update_of_ne (hne sc' hsc' p hp) ..
  set a' := (a₂.setCache sc { a₂.cache sc with blocks := pg :: (a₂.cache sc).blocks }).setBlock pg
    (initBlock (a₂.cache sc) (a₂.block pg)) with ha'
  have hself : a'.block pg = initBlock (a₂.cache sc) (a₂.block pg) := Function.update_self ..
  have hnew : Core P [] a' := by
    refine hcore.relist hsc₂ a₂.blockUsed (List.Perm.refl _) (fun _ _ => hn) ?_ ?_
      fun sc' hsc' _ p hp => hupd sc' hsc' p hp
    · intro p hp
      rcases List.mem_cons.mp hp with rfl | hold
      · rw [Function.update_self]
        exact hhold
      · show (a₂.cache sc).Holds (Function.update a₂.block pg _ p)
        rw [hupd sc hsc₂ p hold]
        exact hcore.block sc hsc₂ p hold
    · intro p hp
      have hpp : p ≠ pg := fun heq => hnot (heq ▸ List.mem_append_right _ hp)
      rw [Function.update_of_ne hpp]
      exact hcore.free p hp
  have hcache' : a'.cache sc = { a₂.cache sc with blocks := pg :: (a₂.cache sc).blocks } :=
    Function.update_self ..
  have hput : Put a₁ a' sc pg 0 := by
    rw [← hcaches] at hsc
    refine ⟨hcaches, fun sc' hne' => ?_, ⟨_, _, by rw [hcache', hcache]⟩, fun x => ?_, ?_, ?_, ?_,
      fun i hi => ?_, fun sc' hsc' p hp hpp => ?_⟩
    · rw [← hcache]
      exact Function.update_of_ne hne' ..
    · rw [hcache', hcache]
      exact List.mem_cons
    · intro sc' hsc' hp
      rw [← hcaches] at hsc'
      rw [← hcache] at hp
      exact absurd rfl (hne sc' hsc' pg hp)
    · omega
    · intro hp
      rw [← hcache] at hp
      exact absurd rfl (hne sc hsc pg hp)
    · rw [← hcache] at hi ⊢
      rw [hself, hbits i hi, decide_eq_true_eq]
      constructor
      · exact Or.inl
      · intro hor
        rcases hor with hzero | ⟨hp, -⟩
        · exact hzero
        · exact absurd rfl (hne sc hsc pg hp)
    · rw [← hcaches] at hsc'
      have hsame := hblock p hpp
      rw [← hcache] at hp
      rw [← hsame]
      exact hupd sc' hsc' p hp
  have hin : pg ∈ (a'.cache sc).lists := (hput.lists pg).mpr (Or.inl rfl)
  refine ⟨⟨hnew, ?_⟩, hput.caches, hput.static_all, hput.lists_all,
    fun p hp => ?_, hrest, hmega,
    ⟨pg, hin, 0, ?_, ?_⟩, ?_, hput.allocated hsc⟩
  · intro sc' hsc' p hp
    have hsc₁ : sc' ∈ a₁.caches := hput.caches ▸ hsc'
    by_cases hpp : p = pg
    · rw [hpp, hself]
      exact hnz
    · have hold : p ∈ (a₁.cache sc').blocks := by
        by_cases heq : sc' = sc
        · subst heq
          rw [hcache', hcache] at hp
          exact (List.mem_cons.mp hp).resolve_left hpp
        · rwa [hput.other sc' heq] at hp
      rw [hput.block sc' hsc₁ p (List.mem_append_left _ hold) hpp]
      exact h.partly sc' hsc₁ p hold
  · have hne' : p ≠ pg := fun heq => hp (heq ▸ Core.mem_placed (hput.caches ▸ hsc) hin)
    rw [← hblock p hne']
    exact Function.update_of_ne hne' ..
  · rw [hcache', hcache]
    show 0 < (a₁.cache sc).numEntries
    omega
  · rw [hcache', hcache]
    rfl
  · exact hput.not_allocated h.toCore hsc halign

/-- The branch of `s_alloc` for a cache with a partly filled block. -/
theorem alloc_partly (gc : Arena T → Option (Arena T)) (base : Addr) {a : Arena T} {sc : ℕ}
    {pg : Addr} {rest : List Addr} (h : Ok P a) (hsc : sc ∈ a.caches)
    (hblocks : (a.cache sc).blocks = pg :: rest) :
    ∃ val a', s_alloc gc base sc a = some (val, a') ∧ AllocSpec P base sc a a' val := by
  have hwf := h.wf sc hsc
  have hpg : pg ∈ (a.cache sc).blocks := by
    rw [hblocks]
    exact List.mem_cons_self
  have hin : pg ∈ (a.cache sc).lists := List.mem_append_left _ hpg
  have hold := h.block sc hsc pg hin
  have hnz := h.partly sc hsc pg hpg
  obtain ⟨f, x, hu, hx⟩ := hold.header
  have hnf : (a.block pg).u.nextFree = x := by rw [hu]; rfl
  have hfree : (a.block pg).u.numFree = f := by rw [hu]; rfl
  obtain ⟨found, hfind, hlt, hclear, hword⟩ := hold.inv.find hnz hx
  have hcard := card_clearBits_bitSet T.bitsPerUnit_pos hlt hclear
  have hcount := hold.inv.count
  have hle := card_clearBits_le (a.cache sc).numEntries (a.block pg).used
  have hlt₁₆ := hwf.entries_lt
  have hdec : (f + (2 ^ 16 - 1)) % 2 ^ 16 = f - 1 := by omega
  have hsize : T.bitarraySize (a.cache sc).numEntries ≤ (a.cache sc).numEntries := by
    have hw := T.bitsPerUnit_pos
    obtain ⟨hlo, -, hpos⟩ := T.bitarraySize_spec (a.cache sc).numEntries (by omega)
    have hmul := Nat.le_mul_of_pos_left (T.bitarraySize (a.cache sc).numEntries - 1) hw
    omega
  have hnext : found / T.bitsPerUnit % 2 ^ 16 = found / T.bitsPerUnit := by
    rw [Nat.mod_eq_of_lt (by omega)]
  -- the header that is written back
  set b : SBlock T.bitsPerUnit := ⟨(a.block pg).flags, (a.block pg).color,
    .pi (a.cache sc).numPtrs (a.cache sc).size (f - 1) (found / T.bitsPerUnit),
    bitSet (a.block pg).used found⟩ with hb
  have hhold : (a.cache sc).Holds b :=
    ⟨hold.flags, hold.color, ⟨_, _, rfl, hword⟩, hold.inv.mark hlt hclear rfl (by
      rw [hfree]
      show f - 1 + 1 = f
      omega)⟩
  set c : Cache := if f - 1 = 0 then
      { a.cache sc with blocks := rest, fullBlocks := pg :: (a.cache sc).fullBlocks }
    else a.cache sc with hc
  have hrun : s_alloc gc base sc a =
      some (slotAddr T (a.cache sc) pg found, (a.setCache sc c).setBlock pg b) := by
    have hu' : ((a.block pg).u.setNumFree (f - 1)).setNextFree (found / T.bitsPerUnit) =
        .pi (a.cache sc).numPtrs (a.cache sc).size (f - 1) (found / T.bitsPerUnit) := by
      rw [hu]
      rfl
    have hval : pg + ((a.block pg).color + found * (a.cache sc).size) * T.wordBytes =
        slotAddr T (a.cache sc) pg found := by
      rw [hold.color]
      rfl
    simp only [s_alloc, hblocks, hnf, hfind, hfree, hdec, hnext, hu', Option.bind_eq_bind,
      Option.bind_some, BlockU.size, hval, Option.pure_def, Option.some.injEq, Prod.mk.injEq,
      true_and, hc]
    split_ifs
    · rfl
    · rw [setCache, Function.update_eq_self]
  obtain ⟨blocks, fullBlocks, hcache, hperm, hleft⟩ : ∃ blocks fullBlocks,
      c = { a.cache sc with blocks := blocks, fullBlocks := fullBlocks } ∧
      (blocks ++ fullBlocks).Perm (a.cache sc).lists ∧
      ∀ p ∈ blocks, p ∈ (a.cache sc).blocks ∧ (p = pg → f - 1 ≠ 0) := by
    by_cases hlast : f - 1 = 0
    · refine ⟨rest, pg :: (a.cache sc).fullBlocks, by rw [hc, if_pos hlast], ?_, ?_⟩
      · unfold Cache.lists
        rw [hblocks]
        exact List.perm_middle
      · intro p hp
        have hnd := h.lists_nodup hsc
        unfold Cache.lists at hnd
        rw [hblocks] at hnd ⊢
        refine ⟨List.mem_cons_of_mem _ hp, fun heq => ?_⟩
        exact absurd (List.mem_append_left _ (heq ▸ hp)) (List.nodup_cons.mp hnd).1
    · exact ⟨(a.cache sc).blocks, (a.cache sc).fullBlocks, by rw [hc, if_neg hlast],
        List.Perm.refl _, fun p hp => ⟨hp, fun _ => hlast⟩⟩
  set a' := (a.setCache sc c).setBlock pg b with ha'
  have hcache' : a'.cache sc = { a.cache sc with blocks := blocks, fullBlocks := fullBlocks } := by
    rw [← hcache]
    exact Function.update_self ..
  have hself : a'.block pg = b := Function.update_self ..
  have hother : ∀ p, p ≠ pg → a'.block p = a.block p := fun p hne => Function.update_of_ne hne ..
  have honly : ∀ sc' ∈ a.caches, pg ∈ (a.cache sc').lists → sc' = sc :=
    fun sc' hsc' hp => h.cache_unique hsc' hsc hp hin
  have hnew : Core P [] a' := by
    rw [ha', hcache]
    refine h.relist hsc a.blockUsed (hperm.append_right _) ?_ ?_ ?_ ?_
    · exact fun p hp => h.admits sc hsc p (hperm.mem_iff.mp hp)
    · intro p hp
      by_cases hpp : p = pg
      · subst hpp
        rw [Function.update_self]
        exact hhold
      · rw [Function.update_of_ne hpp]
        exact h.block sc hsc p (hperm.mem_iff.mp hp)
    · intro p hp
      have hpp : p ≠ pg := fun heq => h.free_disjoint hsc hin (heq ▸ hp)
      rw [Function.update_of_ne hpp]
      exact h.free p hp
    · intro sc' hsc' hne p hp
      have hpp : p ≠ pg := fun heq => hne (honly sc' hsc' (heq ▸ hp))
      exact Function.update_of_ne hpp ..
  have hput : Put a a' sc pg found := by
    refine ⟨rfl, fun sc' hne => Function.update_of_ne hne .., ⟨_, _, hcache'⟩, fun p => ?_, honly,
      hlt, fun _ => hclear, fun i hi => ?_, fun sc' hsc' p hp hpp => hother p hpp⟩
    · have hmem : p ∈ (a'.cache sc).lists ↔ p ∈ (a.cache sc).lists := by
        rw [hcache']
        exact hperm.mem_iff
      rw [hmem]
      constructor
      · exact Or.inr
      · intro hor
        rcases hor with rfl | hp
        · exact hin
        · exact hp
    · rw [hself, bitIsSet_bitSet _ T.bitsPerUnit_pos, Bool.or_eq_true, decide_eq_true_eq]
      exact or_congr_right ⟨fun hbit => ⟨hin, hbit⟩, fun hbit => hbit.2⟩
  have hin' : pg ∈ (a'.cache sc).lists := (hput.lists pg).mpr (Or.inl rfl)
  refine ⟨_, _, hrun, ⟨hnew, ?_⟩, hput.caches, hput.static_all,
    hput.lists_all, fun p hp => hother p fun heq => hp (heq ▸ Core.mem_placed hsc hin'), ⟨rfl, rfl, rfl⟩,
    fun mb hmb => Or.inr ⟨mb, hmb, rfl⟩, ⟨pg, hin', found, ?_, ?_⟩,
    hput.not_allocated h.toCore hsc (h.aligned hsc hin), hput.allocated hsc⟩
  rotate_left
  · rw [hcache']
    exact hlt
  · rw [hcache']
    rfl
  intro sc' hsc' p hp
  by_cases hpp : p = pg
  · subst hpp
    rw [hself]
    by_cases heq : sc' = sc
    · subst heq
      rw [hcache'] at hp
      exact (hleft p hp).2 rfl
    · rw [hput.other sc' heq] at hp
      exact absurd (honly sc' hsc' (List.mem_append_left _ hp)) heq
  · rw [hother p hpp]
    by_cases heq : sc' = sc
    · subst heq
      rw [hcache'] at hp
      exact h.partly sc' hsc p (hleft p hp).1
    · rw [hput.other sc' heq] at hp
      exact h.partly sc' hsc' p hp

theorem s_alloc_spec (hP : ∀ n, P n → 2 ≤ n ∧ n % T.bitsPerUnit ≠ 0)
    {gc : Arena T → Option (Arena T)} {base : Addr} {a : Arena T} {sc : ℕ} (h : Ok P a)
    (hsc : sc ∈ a.caches) (hn : P (a.cache sc).numEntries) (hbase : a.FreshBase base)
    (hgc : ∀ a', gcCall gc a = some a' → Ok P a' ∧ Frame a a') {val : Addr} {a' : Arena T}
    (hrun : s_alloc gc base sc a = some (val, a')) :
    ∃ a₁, (a₁ = a ∨ gcCall gc a = some a₁) ∧ AllocSpec P base sc a₁ a' val := by
  cases hblocks : (a.cache sc).blocks with
  | cons pg rest =>
    obtain ⟨val', a'', hrun', hspec⟩ := alloc_partly gc base h hsc hblocks
    rw [hrun'] at hrun
    obtain ⟨rfl, rfl⟩ := Prod.mk.inj (Option.some_inj.mp hrun)
    exact ⟨a, Or.inl rfl, hspec⟩
  | nil =>
    simp only [s_alloc, hblocks] at hrun
    obtain ⟨⟨pg, a₂⟩, hget, hres⟩ := Option.bind_eq_some_iff.mp hrun
    obtain ⟨rfl, rfl⟩ := Prod.mk.inj (Option.some_inj.mp hres)
    obtain ⟨a₁, hor, hgot⟩ := get_free_block_spec h.toCore hbase
      (fun a' hg => ⟨(hgc a' hg).1.toCore, (hgc a' hg).2⟩) hget
    refine ⟨a₁, hor, ?_⟩
    have hok : Ok P a₁ ∧ Frame a a₁ := by
      rcases hor with rfl | hg
      · exact ⟨h, Frame.refl _⟩
      · exact hgc a₁ hg
    have hsc₁ : sc ∈ a₁.caches := hok.2.caches ▸ hsc
    have hn₁ : P (a₁.cache sc).numEntries := by
      rw [(hok.2.slot sc).1]
      exact hn
    have hfresh := alloc_fresh hP hok.1 hsc₁ hn₁ hgot
    have hval : slotAddr T (a₁.cache sc) pg 0 = pg + (a₂.cache sc).color * T.wordBytes := by
      rw [hgot.cache, slotAddr, Nat.zero_mul, Nat.add_zero]
    rw [hval] at hfresh
    exact hfresh

theorem s_alloc_total (gc : Arena T → Option (Arena T)) (base : Addr) {a : Arena T} {sc : ℕ} (h : Ok P a)
    (hsc : sc ∈ a.caches) (hgc : ∃ a', gcCall gc a = some a') :
    ∃ r, s_alloc gc base sc a = some r := by
  cases hblocks : (a.cache sc).blocks with
  | cons pg rest =>
    obtain ⟨val, a', hrun, -⟩ := alloc_partly gc base h hsc hblocks
    exact ⟨_, hrun⟩
  | nil =>
    obtain ⟨⟨pg, a₂⟩, hget⟩ := get_free_block_total base hgc
    simp only [s_alloc, hblocks, hget]
    exact ⟨_, rfl⟩

/-! ### New caches -/

theorem new_cache_core {a : Arena T} (h : Ok P a) {size numPtrs : ℕ} (hsize : Admits T size numPtrs) :
    Ok P (a.new_cache size numPtrs).2 := by
  have hnot : a.caches.length ∉ a.caches := fun hin => Nat.lt_irrefl _ (h.handles _ hin)
  have hnil : ((a.new_cache size numPtrs).2.cache a.caches.length).lists = [] := by
    simp [new_cache, setCache, Cache.lists]
  have hold : ∀ sc ∈ a.caches, (a.new_cache size numPtrs).2.cache sc = a.cache sc := by
    intro sc hsc
    have hne : sc ≠ a.caches.length := fun heq => hnot (heq ▸ hsc)
    exact Function.update_of_ne hne ..
  have hmem : ∀ sc ∈ (a.new_cache size numPtrs).2.caches, sc = a.caches.length ∨ sc ∈ a.caches :=
    fun sc hsc => List.mem_cons.mp hsc
  refine ⟨⟨List.nodup_cons.mpr ⟨hnot, h.nodup⟩, ?_, ?_, ?_, ?_, h.free, ?_, h.once,
    ⟨h.mega.aligned, h.mega.bound, h.mega.current, h.mega.disjoint⟩, h.mono⟩, ?_⟩
  · intro sc hsc
    show sc < a.caches.length + 1
    rcases hmem sc hsc with rfl | hin
    · omega
    · have hlt := h.handles sc hin
      omega
  · intro sc hsc
    rcases hmem sc hsc with rfl | hin
    · exact new_cache_wf a hsize
    · rw [hold sc hin]
      exact h.wf sc hin
  · intro sc hsc pg hpg
    rcases hmem sc hsc with rfl | hin
    · rw [hnil] at hpg
      exact absurd hpg List.not_mem_nil
    · rw [hold sc hin] at hpg ⊢
      exact h.admits sc hin pg hpg
  · intro sc hsc pg hpg
    rcases hmem sc hsc with rfl | hin
    · rw [hnil] at hpg
      exact absurd hpg List.not_mem_nil
    · rw [hold sc hin] at hpg ⊢
      exact h.block sc hin pg hpg
  · have hsame : a.caches.flatMap (fun sc => ((a.new_cache size numPtrs).2.cache sc).lists) =
        a.caches.flatMap fun sc => (a.cache sc).lists :=
      List.flatMap_congr fun sc hsc => by rw [hold sc hsc]
    have hplaced : (a.new_cache size numPtrs).2.placed = a.placed := by
      show (List.flatMap _ (a.caches.length :: a.caches)) ++ a.freeBlocks = _
      rw [List.flatMap_cons, hnil, hsame, List.nil_append]
      rfl
    rw [hplaced]
    exact h.place
  · intro sc hsc pg hpg
    rcases hmem sc hsc with rfl | hin
    · have hin : pg ∈ ((a.new_cache size numPtrs).2.cache a.caches.length).lists :=
        List.mem_append_left _ hpg
      rw [hnil] at hin
      exact absurd hin List.not_mem_nil
    · rw [hold sc hin] at hpg
      exact h.partly sc hin pg hpg

theorem find_cache_ok {a : Arena T} (h : Ok P a) {size numPtrs : ℕ} (hsize : Admits T size numPtrs) :
    Ok P (find_cache none a size numPtrs).2 := by
  unfold find_cache
  split
  · exact h
  · split
    · exact h
    · exact new_cache_core h hsize

/-! ### Runs -/

inductive SlabEvent where
  | cache (size numPtrs : ℕ)
  | alloc (sc : ℕ) (base : Addr) (fuel : ℕ) (marks : List Addr)
  | collect (fuel : ℕ) (marks : List Addr)

/-- The arena of `new_arena` (gc_jgc.c:641-653). -/
def new_arena (T : Target) (block : Addr → SBlock T.bitsPerUnit) (mem : Addr → ℕ) : Arena T where
  block := block
  words _ := ⟨0, none⟩
  link _ := none
  monolithicBlocks := none
  finalized := []
  freed := []
  mem := mem
  cache _ := ⟨[], [], 0, 0, 0, 0, 0⟩
  caches := []
  freeBlocks := []
  megablocks := []
  currentMegablock := none
  blockUsed := 0
  blockThreshold := 8

def SlabInit (a : Arena T) : Prop := ∃ block mem, a = new_arena T block mem

/-- An allocation whose `get_free_block` may collect with any marks on allocated
objects, and a collection by itself. -/
def SlabStep (a : Arena T) : SlabEvent → Arena T → Prop
  | .cache size numPtrs, a' => Admits T size numPtrs ∧ a' = (find_cache none a size numPtrs).2
  | .alloc sc base fuel marks, a' =>
    sc ∈ a.caches ∧ a.FreshBase base ∧ (∀ v ∈ marks, a.Allocated v) ∧
      ∃ val, s_alloc (collect fuel marks) base sc a = some (val, a')
  | .collect fuel marks, a' => (∀ v ∈ marks, a.Allocated v) ∧ collect fuel marks a = some a'

/-- More entries than one word of `used` has bits, and a last word that is not full. -/
def WideEntries (T : Target) (n : ℕ) : Prop := T.bitsPerUnit < n ∧ n % T.bitsPerUnit ≠ 0

def SlabOk (a : Arena T) : SlabEvent → Prop
  | .alloc sc .. => WideEntries T (a.cache sc).numEntries
  | _ => True

/-- The arena as the allocator means to keep it. -/
structure SlabCorrect (a : Arena T) : Prop where
  cached : ∀ sc ∈ a.caches, ∀ pg ∈ (a.cache sc).lists,
    (clearBits (a.cache sc).numEntries (a.block pg).used).card = (a.block pg).u.numFree ∧
      ExcessSet T (a.cache sc).numEntries (a.block pg).used
  free : ∀ pg ∈ a.freeBlocks,
    (clearBits (a.block pg).u.numFree (a.block pg).used).card = (a.block pg).u.numFree ∧
      ExcessSet T (a.block pg).u.numFree (a.block pg).used
  placed : ∀ pg, a.placed.count pg = if pg ∈ a.handed then 1 else 0

theorem wide_entries (n : ℕ) (h : WideEntries T n) : 2 ≤ n ∧ n % T.bitsPerUnit ≠ 0 := by
  have hw := T.bitsPerUnit_pos
  have hlt := h.1
  exact ⟨by omega, h.2⟩

theorem ok_init {a : Arena T} (h : SlabInit a) : Ok P a := by
  obtain ⟨block, mem, rfl⟩ := h
  refine ⟨⟨List.nodup_nil, ?_, ?_, ?_, ?_, ?_, List.Perm.refl _, List.nodup_nil,
    ⟨?_, ?_, ?_, List.Pairwise.nil⟩, [], ⟨rfl, List.nodup_nil⟩, ?_⟩, ?_⟩ <;>
  simp [new_arena, allMegablocks]

theorem gc_frame (hP : ∀ n, P n → n % T.bitsPerUnit ≠ 0) {a : Arena T} (h : Ok P a) {fuel : ℕ}
    {marks : List Addr} (hmarks : ∀ v ∈ marks, a.Allocated v) (a' : Arena T)
    (hg : gcCall (collect fuel marks) a = some a') : Ok P a' ∧ Frame a a' := by
  have hcore := h.toCore.counters (a.blockUsed + 1) a.blockThreshold
  obtain ⟨hok, hframe, -⟩ := collect_spec hP hcore (fun v hv => (hmarks v hv).isSlot) hg
  exact ⟨hok, ⟨hframe.caches, hframe.static, hframe.megablocks, hframe.current, hframe.mono⟩⟩

theorem ok_step {a a' : Arena T} {e : SlabEvent} (h : Ok (WideEntries T) a)
    (hstep : Guarded SlabOk SlabStep a e a') : Ok (WideEntries T) a' := by
  have hP : ∀ n, WideEntries T n → n % T.bitsPerUnit ≠ 0 := fun n hn => hn.2
  obtain ⟨hok, hstep⟩ := hstep
  cases e with
  | cache size numPtrs =>
    obtain ⟨hsize, rfl⟩ := hstep
    exact find_cache_ok h hsize
  | alloc sc base fuel marks =>
    obtain ⟨hsc, hbase, hmarks, val, hrun⟩ := hstep
    obtain ⟨a₁, -, hspec⟩ := s_alloc_spec wide_entries h hsc hok hbase (gc_frame hP h hmarks) hrun
    exact hspec.ok
  | collect fuel marks =>
    obtain ⟨hmarks, hrun⟩ := hstep
    exact (collect_spec hP h.toCore (fun v hv => (hmarks v hv).isSlot) hrun).1

theorem ok_reach {a : Arena T} (h : Reach SlabInit (Guarded SlabOk SlabStep) a) :
    Ok (WideEntries T) a :=
  h.invariant (fun _ hinit => ok_init hinit) fun _ _ _ hok hstep => ok_step hok hstep

theorem Ok.correct {a : Arena T} (h : Ok (WideEntries T) a) : SlabCorrect a := by
  refine ⟨fun sc hsc pg hpg => ?_, fun pg hpg => ?_, fun pg => ?_⟩
  · have hinv := (h.block sc hsc pg hpg).inv
    have hwide := (h.admits sc hsc pg hpg).1
    exact ⟨hinv.count, hinv.excess.resolve_left (by omega)⟩
  · have hfree := h.free pg hpg
    have hwide := hfree.entries.1
    exact ⟨hfree.inv.count, hfree.inv.excess.resolve_left (by omega)⟩
  · have hperm : a.placed.Perm a.handed := h.place
    rw [hperm.count_eq]
    split_ifs with hin
    · exact List.count_eq_one_of_mem h.once hin
    · exact List.count_eq_zero_of_not_mem hin

theorem marked_not_free {a : Arena T} (h : Ok P a) {v : Addr} (hv : a.Allocated v) :
    S_BLOCK T v ∉ a.freeBlocks := by
  obtain ⟨sc, hsc, pg, hpg, i, hi, rfl, -⟩ := hv
  rw [(h.wf sc hsc).slot_block (h.aligned hsc hpg) hi]
  exact h.free_disjoint hsc hpg

end Arena

open Arena

/-- In a run whose allocations are all from caches with more entries than a word
of `used` has bits, and not a multiple of that, the arena is as it should be,
a collection keeps exactly the marked objects, and `s_alloc` returns a slot that
was not allocated. -/
theorem slab_invariant (T : Target) (a : Arena T)
    (h : Reach SlabInit (Guarded SlabOk SlabStep) a) :
    SlabCorrect a ∧
    (∀ marks, (∀ v ∈ marks, a.Allocated v) → ∃ N, ∀ fuel ≥ N, ∃ a', collect fuel marks a = some a' ∧
      (∀ v, a'.Allocated v ↔ v ∈ marks) ∧ ∀ v ∈ marks, S_BLOCK T v ∉ a'.freeBlocks) ∧
    ∀ sc base marks, sc ∈ a.caches → WideEntries T (a.cache sc).numEntries → a.FreshBase base →
      (∀ v ∈ marks, a.Allocated v) → ∃ N, ∀ fuel ≥ N, ∃ val a',
        s_alloc (collect fuel marks) base sc a = some (val, a') ∧
        ∃ a₁, (a₁ = a ∨ gcCall (collect fuel marks) a = some a₁) ∧ ¬ a₁.Allocated val ∧
          ∀ v, a'.Allocated v ↔ v = val ∨ a₁.Allocated v := by
  have hok := ok_reach h
  have hP : ∀ n, WideEntries T n → n % T.bitsPerUnit ≠ 0 := fun n hn => hn.2
  refine ⟨hok.correct, fun marks hmarks => ?_, fun sc base marks hsc hn hbase hmarks => ?_⟩
  · have hslots : ∀ v ∈ marks, a.IsSlot v := fun v hv => (hmarks v hv).isSlot
    obtain ⟨N, hN⟩ := collect_total hP hok.toCore hslots
    refine ⟨N, fun fuel hfuel => ?_⟩
    obtain ⟨a', hrun⟩ := hN fuel hfuel
    obtain ⟨hok', -, hkept⟩ := collect_spec hP hok.toCore hslots hrun
    exact ⟨a', hrun, hkept, fun v hv => marked_not_free hok' ((hkept v).mpr hv)⟩
  · obtain ⟨N, hN⟩ := collect_total hP (hok.toCore.counters (a.blockUsed + 1) a.blockThreshold)
      fun v hv => (hmarks v hv).isSlot
    refine ⟨N, fun fuel hfuel => ?_⟩
    obtain ⟨⟨val, a'⟩, hrun⟩ := s_alloc_total (collect fuel marks) base hok hsc (hN fuel hfuel)
    obtain ⟨a₁, hor, hspec⟩ :=
      s_alloc_spec wide_entries hok hsc hn hbase (gc_frame hP hok hmarks) hrun
    exact ⟨val, a', hrun, a₁, hor, hspec.free, hspec.allocated⟩

/-! ### A first allocation -/

def emptyArena : Arena Target.lp64 :=
  new_arena Target.lp64 (fun _ => ⟨0, 0, .pi 0 0 0 0, fun _ => 0⟩) fun _ => 0

/-- LP64, one cache for objects of `size` words and one object from it. -/
def firstAlloc (size : ℕ) : Arena Target.lp64 :=
  ((s_alloc (collect 0 []) 1048576 0 (find_cache none emptyArena size size).2).getD
    (0, emptyArena)).2

theorem firstAlloc_step (size : ℕ) :
    SlabStep (find_cache none emptyArena size size).2 (.alloc 0 1048576 0 []) (firstAlloc size) := by
  refine ⟨List.mem_cons_self, ⟨by decide, ?_, ?_⟩, by simp, _, rfl⟩
  · intro mb hmb
    exact absurd hmb List.not_mem_nil
  · intro xs hxs m hm
    have hnil : xs = [] := hxs.1.unique (show SList.Chain _ none [] from rfl)
    rw [hnil] at hm
    exact absurd hm List.not_mem_nil

theorem firstAlloc_reach {size : ℕ} (hsize : Admits Target.lp64 size size) :
    Reach SlabInit SlabStep (firstAlloc size) :=
  .step (.step (.start ⟨_, _, rfl⟩)
    (show SlabStep emptyArena (.cache size size) _ from ⟨hsize, rfl⟩)) (firstAlloc_step size)

theorem slab_invariant_three : SlabCorrect (firstAlloc 3) := by
  have hcache : Guarded SlabOk SlabStep emptyArena (.cache 3 3)
      (find_cache none emptyArena 3 3).2 := ⟨trivial, by decide, rfl⟩
  have hwide : SlabOk (find_cache none emptyArena 3 3).2 (.alloc 0 1048576 0 []) :=
    ⟨by decide, by decide⟩
  exact (slab_invariant Target.lp64 (firstAlloc 3)
    (.step (.step (.start ⟨_, _, rfl⟩) hcache) ⟨hwide, firstAlloc_step 3⟩)).1

/-- With objects of eight words a block has 62 entries, and the first `s_alloc`
clears the two excess bits. -/
theorem firstAlloc_eight_wrong :
    Reach SlabInit SlabStep (firstAlloc 8) ∧ ¬ SlabCorrect (firstAlloc 8) := by
  refine ⟨firstAlloc_reach (by decide), fun h => ?_⟩
  have hexc := (h.cached 0 List.mem_cons_self 1048576 List.mem_cons_self).2
  have hbit : bitIsSet ((firstAlloc 8).block 1048576).used 62 = true := hexc 62 (by decide) (by decide)
  exact absurd hbit (by decide)

end Jhc.Rts

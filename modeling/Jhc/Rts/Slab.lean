import Mathlib.Data.List.Nodup
import Mathlib.Data.List.Perm.Basic
import Mathlib.Tactic.Linarith
import Jhc.Rts.Arena

/-!
# The invariant of the slab arena

Every block that `get_free_block` has handed out is on one list, and a block of
a cache has as many free entries as clear bits. Each routine of the allocator
keeps this; a parameter `P` says which numbers of entries a run allocates from.
-/

namespace Jhc.Rts

/-! ### Cache geometry (gc_jgc.c:565-582) -/

def slotAddr (T : Target) (sc : Cache) (pg : Addr) (i : ℕ) : Addr :=
  pg + (sc.color + i * sc.size) * T.wordBytes

/-- The fields of a cache hold their values untruncated and the entries fit. -/
structure Cache.Wf (T : Target) (sc : Cache) : Prop where
  size_pos : 0 < sc.size
  ptrs_le : sc.numPtrs ≤ sc.size
  flags : sc.flags = 0
  entries_lt : sc.numEntries < 2 ^ 16
  fits : (sc.color + sc.numEntries * sc.size) * T.wordBytes ≤ T.blockSize

/-- The object sizes that a cache admits: the values that `new_cache` computes
are at least one entry and fit the fields of `struct s_cache`. -/
def Admits (T : Target) (size numPtrs : ℕ) : Prop :=
  0 < size ∧ size < 2 ^ 8 ∧ numPtrs ≤ size ∧
    2 ≤ 8 * (T.blockSize - T.headerBytes) / (8 * T.wordBytes * size + 1) ∧
    8 * (T.blockSize - T.headerBytes) / (8 * T.wordBytes * size + 1) ≤ 2 ^ 16 ∧
    Arena.colorOf T (8 * (T.blockSize - T.headerBytes) / (8 * T.wordBytes * size + 1) - 1) < 2 ^ 8

instance (T : Target) (size numPtrs : ℕ) : Decidable (Admits T size numPtrs) := by
  unfold Admits
  infer_instance

theorem headerBytes_words (T : Target) : T.wordBytes ∣ T.headerBytes := by
  unfold Target.headerBytes Target.align
  exact Dvd.intro_left _ rfl

theorem entriesOf_mod {T : Target} {size numPtrs : ℕ} (h : Admits T size numPtrs) :
    Arena.entriesOf T size % 2 ^ 16 =
      8 * (T.blockSize - T.headerBytes) / (8 * T.wordBytes * size + 1) - 1 := by
  obtain ⟨-, -, -, hlo, hhi, -⟩ := h
  unfold Arena.entriesOf
  generalize 8 * (T.blockSize - T.headerBytes) / (8 * T.wordBytes * size + 1) = q at *
  omega

theorem colorOf_words (T : Target) (n : ℕ) :
    Arena.colorOf T n * T.wordBytes = T.headerBytes + T.bitarrayBytes n := by
  have hw := T.word_pos
  obtain ⟨k, hk⟩ := headerBytes_words T
  unfold Arena.colorOf Target.bitarrayBytes
  have hsum : T.headerBytes + T.wordBytes * T.bitarraySize n + T.wordBytes - 1 =
      T.wordBytes * (k + T.bitarraySize n) + (T.wordBytes - 1) := by
    rw [hk, Nat.mul_add]
    omega
  rw [hsum, Nat.mul_add_div hw, Nat.div_eq_of_lt (by omega : T.wordBytes - 1 < T.wordBytes), hk]
  ring

theorem bitarrayBytes_le (T : Target) (n : ℕ) : 8 * T.bitarrayBytes n ≤ n + 8 * T.wordBytes - 1 := by
  have hw := T.bitsPerUnit_pos
  have hq := Nat.div_mul_le_self (n + (T.bitsPerUnit - 1)) T.bitsPerUnit
  have heq : 8 * T.bitarrayBytes n = (n + (T.bitsPerUnit - 1)) / T.bitsPerUnit * T.bitsPerUnit := by
    unfold Target.bitarrayBytes Target.bitarraySize Target.bitsPerUnit
    ring
  have hunit : T.bitsPerUnit = 8 * T.wordBytes := rfl
  omega

theorem entries_fit {T : Target} {size n : ℕ} (hsize : 0 < size)
    (hn : n + 1 = 8 * (T.blockSize - T.headerBytes) / (8 * T.wordBytes * size + 1)) :
    (Arena.colorOf T n + n * size) * T.wordBytes ≤ T.blockSize := by
  have hw := T.word_pos
  have hdiv : (n + 1) * (8 * T.wordBytes * size + 1) ≤ 8 * (T.blockSize - T.headerBytes) := by
    rw [hn]
    exact Nat.div_mul_le_self _ _
  have hbits := bitarrayBytes_le T n
  have hcolor := colorOf_words T n
  have hword : T.wordBytes ≤ T.wordBytes * size := Nat.le_mul_of_pos_right _ hsize
  have hexpand : (n + 1) * (8 * T.wordBytes * size + 1) =
      8 * (n * size * T.wordBytes) + 8 * (T.wordBytes * size) + n + 1 := by ring
  have hgoal : (Arena.colorOf T n + n * size) * T.wordBytes =
      Arena.colorOf T n * T.wordBytes + n * size * T.wordBytes := by ring
  rw [hgoal, hcolor]
  rw [hexpand] at hdiv
  omega

theorem new_cache_wf {T : Target} (a : Arena T) {size numPtrs : ℕ} (h : Admits T size numPtrs) :
    ((a.new_cache size numPtrs).2.cache a.caches.length).Wf T := by
  have hmod := entriesOf_mod h
  obtain ⟨hpos, hsize, hptrs, hlo, hhi, hcolor⟩ := h
  have hentries : 8 * (T.blockSize - T.headerBytes) / (8 * T.wordBytes * size + 1) - 1 + 1 =
      8 * (T.blockSize - T.headerBytes) / (8 * T.wordBytes * size + 1) := by omega
  have hfit := entries_fit hpos hentries
  have hbyte := Nat.mod_eq_of_lt hsize
  constructor
  · simp only [Arena.new_cache, Arena.setCache, Function.update_self, hbyte]
    exact hpos
  · simp only [Arena.new_cache, Arena.setCache, Function.update_self, hbyte]
    exact (Nat.mod_le _ _).trans hptrs
  · simp [Arena.new_cache, Arena.setCache]
  · simp [Arena.new_cache, Arena.setCache]
    omega
  · simp only [Arena.new_cache, Arena.setCache, Function.update_self, hmod,
      Nat.mod_eq_of_lt hsize, Nat.mod_eq_of_lt hcolor]
    exact hfit

/-- On LP64 the caches admit every size up to 254 words. -/
example : ∀ size ∈ List.range' 1 254, Admits Target.lp64 size size := by decide +kernel

namespace Cache

variable {T : Target}

theorem Wf.slot_lt {sc : Cache} (h : sc.Wf T) {i : ℕ} (hi : i < sc.numEntries) :
    (sc.color + i * sc.size) * T.wordBytes < T.blockSize := by
  have hw := T.word_pos
  have hsize := h.size_pos
  have hfits := h.fits
  have hle : i * sc.size + sc.size ≤ sc.numEntries * sc.size := by
    rw [← Nat.succ_mul]
    exact Nat.mul_le_mul_right _ hi
  have hlt : sc.color + i * sc.size < sc.color + sc.numEntries * sc.size := by omega
  exact lt_of_lt_of_le (Nat.mul_lt_mul_of_pos_right hlt hw) hfits

theorem Wf.slot_block {sc : Cache} (h : sc.Wf T) {pg i : ℕ} (hpg : T.blockSize ∣ pg)
    (hi : i < sc.numEntries) : Arena.S_BLOCK T (slotAddr T sc pg i) = pg := by
  have hlt := h.slot_lt hi
  obtain ⟨k, rfl⟩ := hpg
  unfold Arena.S_BLOCK slotAddr
  rw [Nat.mul_add_div T.blockSize_pos, Nat.div_eq_of_lt hlt, Nat.add_zero, Nat.mul_comm]

theorem Wf.slot_index {sc : Cache} (h : sc.Wf T) (pg i : ℕ) :
    ((slotAddr T sc pg i - pg) / T.wordBytes - sc.color) / sc.size = i := by
  unfold slotAddr
  rw [Nat.add_sub_cancel_left, Nat.mul_div_cancel _ T.word_pos, Nat.add_sub_cancel_left,
    Nat.mul_div_cancel _ h.size_pos]

theorem Wf.slot_inj {sc sc' : Cache} (h : sc.Wf T) (h' : sc'.Wf T) {pg pg' i i' : ℕ}
    (hpg : T.blockSize ∣ pg) (hpg' : T.blockSize ∣ pg') (hi : i < sc.numEntries)
    (hi' : i' < sc'.numEntries) (heq : slotAddr T sc pg i = slotAddr T sc' pg' i') :
    pg = pg' := by
  rw [← h.slot_block hpg hi, heq, h'.slot_block hpg' hi']

end Cache

/-! ### The invariant -/

/-- The addresses of the blocks of a megablock. -/
def InChunk (T : Target) (base x : Addr) : Prop :=
  ∃ k < T.megablockSize / T.blockSize, x = base + T.blockSize * k

theorem blocks_pos (T : Target) : 0 < T.megablockSize / T.blockSize := by
  have hle : T.blockSize ≤ T.megablockSize := Nat.pow_le_pow_right (by omega) T.shift_lt.le
  exact Nat.div_pos hle T.blockSize_pos

theorem inChunk_self (T : Target) (base : Addr) : InChunk T base base :=
  ⟨0, blocks_pos T, by rw [Nat.mul_zero, Nat.add_zero]⟩

/-- A block on a list of the cache `sc`. -/
structure Cache.Holds {T : Target} (sc : Cache) (b : SBlock T.bitsPerUnit) : Prop where
  flags : b.flags = sc.flags
  color : b.color = sc.color
  header : ∃ f x, b.u = .pi sc.numPtrs sc.size f x ∧ x < T.bitarraySize sc.numEntries
  inv : BlockInv T sc.numEntries b

structure FreeBlock {T : Target} (P : ℕ → Prop) (b : SBlock T.bitsPerUnit) : Prop where
  header : ∃ p s f x, b.u = .pi p s f x
  entries : P b.u.numFree
  inv : BlockInv T b.u.numFree b

namespace Arena

variable {T : Target}

def allMegablocks (a : Arena T) : List Megablock := a.currentMegablock.toList ++ a.megablocks

/-- The blocks that `get_free_block` has taken from megablocks. -/
def handed (a : Arena T) : List Addr :=
  a.allMegablocks.flatMap fun mb =>
    (List.range mb.nextFree).map fun k => mb.base + T.blockSize * k

/-- The blocks on the lists of the caches and on the free list. -/
def placed (a : Arena T) : List Addr :=
  (a.caches.flatMap fun sc => (a.cache sc).lists) ++ a.freeBlocks

structure MegaOk (a : Arena T) : Prop where
  aligned : ∀ mb ∈ a.allMegablocks, T.blockSize ∣ mb.base
  bound : ∀ mb ∈ a.allMegablocks, mb.nextFree ≤ T.megablockSize / T.blockSize
  current : ∀ mb, a.currentMegablock = some mb → mb.nextFree < T.megablockSize / T.blockSize
  disjoint : a.allMegablocks.Pairwise fun mb mb' => ∀ x, InChunk T mb.base x → ¬ InChunk T mb'.base x

/-- What every routine keeps, between collections and in their middle; `taken`
are the blocks that `s_alloc` holds and has not put on a list yet. -/
structure Core (P : ℕ → Prop) (taken : List Addr) (a : Arena T) : Prop where
  nodup : a.caches.Nodup
  handles : ∀ sc ∈ a.caches, sc < a.caches.length
  wf : ∀ sc ∈ a.caches, (a.cache sc).Wf T
  admits : ∀ sc ∈ a.caches, ∀ pg ∈ (a.cache sc).lists, P (a.cache sc).numEntries
  block : ∀ sc ∈ a.caches, ∀ pg ∈ (a.cache sc).lists, (a.cache sc).Holds (a.block pg)
  free : ∀ pg ∈ a.freeBlocks, FreeBlock P (a.block pg)
  place : (taken ++ a.placed).Perm a.handed
  once : a.handed.Nodup
  mega : a.MegaOk
  mono : ∃ xs, a.MonoList xs ∧ ∀ m ∈ xs, ∀ mb ∈ a.allMegablocks,
    ∀ x, InChunk T mb.base x → ¬ InChunk T m x

/-- Between collections the head of `blocks` has a free entry. -/
structure Ok (P : ℕ → Prop) (a : Arena T) : Prop extends Core P [] a where
  partly : ∀ sc ∈ a.caches, ∀ pg ∈ (a.cache sc).blocks, (a.block pg).u.numFree ≠ 0

def IsSlot (a : Arena T) (v : Addr) : Prop :=
  ∃ sc ∈ a.caches, ∃ pg ∈ (a.cache sc).lists, ∃ i < (a.cache sc).numEntries,
    v = slotAddr T (a.cache sc) pg i

/-- An object is a slot whose used bit is set. -/
def Allocated (a : Arena T) (v : Addr) : Prop :=
  ∃ sc ∈ a.caches, ∃ pg ∈ (a.cache sc).lists, ∃ i < (a.cache sc).numEntries,
    v = slotAddr T (a.cache sc) pg i ∧ bitIsSet (a.block pg).used i = true

theorem Allocated.isSlot {a : Arena T} {v : Addr} (h : a.Allocated v) : a.IsSlot v := by
  obtain ⟨sc, hsc, pg, hpg, i, hi, hv, -⟩ := h
  exact ⟨sc, hsc, pg, hpg, i, hi, hv⟩

namespace Core

variable {P : ℕ → Prop} {taken : List Addr} {a : Arena T}

theorem placed_nodup (h : Core P taken a) : a.placed.Nodup := (h.place.nodup_iff.mpr h.once).of_append_right

theorem lists_nodup (h : Core P taken a) {sc : ℕ} (hsc : sc ∈ a.caches) : (a.cache sc).lists.Nodup :=
  (List.nodup_flatMap.mp (List.nodup_append.mp h.placed_nodup).1).1 sc hsc

theorem cache_unique (h : Core P taken a) {sc sc' : ℕ} {pg : Addr} (hsc : sc ∈ a.caches)
    (hsc' : sc' ∈ a.caches) (hpg : pg ∈ (a.cache sc).lists) (hpg' : pg ∈ (a.cache sc').lists) :
    sc = sc' := by
  by_contra hne
  have hpair := (List.nodup_flatMap.mp (List.nodup_append.mp h.placed_nodup).1).2
  have hsymm : Std.Symm (Function.onFun List.Disjoint fun sc => (a.cache sc).lists) :=
    ⟨fun x y hxy => List.Disjoint.symm hxy⟩
  exact hpair.forall hsc hsc' hne hpg hpg'

theorem free_disjoint (h : Core P taken a) {sc : ℕ} {pg : Addr} (hsc : sc ∈ a.caches)
    (hpg : pg ∈ (a.cache sc).lists) : pg ∉ a.freeBlocks := by
  intro hfree
  have hmem : pg ∈ a.caches.flatMap fun sc => (a.cache sc).lists :=
    List.mem_flatMap.mpr ⟨sc, hsc, hpg⟩
  exact (List.nodup_append.mp h.placed_nodup).2.2 pg hmem pg hfree rfl

theorem mem_handed {pg : Addr} : pg ∈ a.handed ↔
    ∃ mb ∈ a.allMegablocks, ∃ k < mb.nextFree, pg = mb.base + T.blockSize * k := by
  simp only [handed, List.mem_flatMap, List.mem_map, List.mem_range]
  constructor
  · intro ⟨mb, hmb, k, hk, hpg⟩
    exact ⟨mb, hmb, k, hk, hpg.symm⟩
  · intro ⟨mb, hmb, k, hk, hpg⟩
    exact ⟨mb, hmb, k, hk, hpg.symm⟩

theorem placed_chunk (h : Core P taken a) {pg : Addr} (hpg : pg ∈ a.placed) :
    T.blockSize ∣ pg ∧ ∃ mb ∈ a.allMegablocks, InChunk T mb.base pg := by
  obtain ⟨mb, hmb, k, hk, rfl⟩ := mem_handed.mp (h.place.mem_iff.mp (List.mem_append_right _ hpg))
  have hbound := h.mega.bound mb hmb
  refine ⟨Nat.dvd_add (h.mega.aligned mb hmb) (Dvd.intro _ rfl), mb, hmb, k, by omega, rfl⟩

theorem mem_placed {sc : ℕ} {pg : Addr} (hsc : sc ∈ a.caches) (hpg : pg ∈ (a.cache sc).lists) :
    pg ∈ a.placed :=
  List.mem_append_left _ (List.mem_flatMap.mpr ⟨sc, hsc, hpg⟩)

theorem aligned (h : Core P taken a) {sc : ℕ} {pg : Addr} (hsc : sc ∈ a.caches)
    (hpg : pg ∈ (a.cache sc).lists) : T.blockSize ∣ pg :=
  (h.placed_chunk (mem_placed hsc hpg)).1

theorem not_mono (h : Core P taken a) {xs : List Addr} (hxs : a.MonoList xs) {pg : Addr}
    (hpg : pg ∈ a.placed) : pg ∉ xs := by
  intro hmem
  obtain ⟨ys, hys, hfar⟩ := h.mono
  rw [hxs.1.unique hys.1] at hmem
  obtain ⟨-, mb, hmb, hin⟩ := h.placed_chunk hpg
  exact hfar pg hmem mb hmb pg hin (inChunk_self T pg)

end Core

/-! ### Routines that only write block headers -/

def withBlocks (a : Arena T) (f : Addr → SBlock T.bitsPerUnit) : Arena T := { a with block := f }

theorem setBlock_eq (a : Arena T) (pg : Addr) (b : SBlock T.bitsPerUnit) :
    a.setBlock pg b = a.withBlocks (Function.update a.block pg b) := rfl

theorem Core.withBlocks {P : ℕ → Prop} {taken : List Addr} {a : Arena T} (h : Core P taken a)
    {f : Addr → SBlock T.bitsPerUnit}
    (hblock : ∀ sc ∈ a.caches, ∀ pg ∈ (a.cache sc).lists, (a.cache sc).Holds (f pg))
    (hfree : ∀ pg ∈ a.freeBlocks, f pg = a.block pg) : Core P taken (a.withBlocks f) where
  nodup := h.nodup
  handles := h.handles
  wf := h.wf
  admits := h.admits
  block := hblock
  free pg hpg := by
    show FreeBlock P (f pg)
    rw [hfree pg hpg]
    exact h.free pg hpg
  place := h.place
  once := h.once
  mega := ⟨h.mega.aligned, h.mega.bound, h.mega.current, h.mega.disjoint⟩
  mono := h.mono

/-- Writing the header of one block of the cache `sc`. -/
theorem Core.setBlock {P : ℕ → Prop} {taken : List Addr} {a : Arena T} (h : Core P taken a) {sc : ℕ} {pg : Addr}
    (hsc : sc ∈ a.caches) (hpg : pg ∈ (a.cache sc).lists) {b : SBlock T.bitsPerUnit}
    (hb : (a.cache sc).Holds b) : Core P taken (a.setBlock pg b) := by
  rw [setBlock_eq]
  refine h.withBlocks (fun sc' hsc' pg' hpg' => ?_) fun pg' hpg' => ?_
  · by_cases heq : pg' = pg
    · subst heq
      rw [Function.update_self, h.cache_unique hsc' hsc hpg' hpg]
      exact hb
    · rw [Function.update_of_ne heq]
      exact h.block sc' hsc' pg' hpg'
  · have hne : pg' ≠ pg := fun heq => h.free_disjoint hsc hpg (heq ▸ hpg')
    exact Function.update_of_ne hne ..

/-! ### clear_used_bits -/

theorem clearBlocks_eq (n : ℕ) (pgs : List Addr) (hnd : pgs.Nodup) (a : Arena T) :
    clearBlocks n pgs a = a.withBlocks fun pg =>
      if pg ∈ pgs then clear_block_used_bits T n (a.block pg) else a.block pg := by
  induction pgs generalizing a with
  | nil => simp [clearBlocks, withBlocks]
  | cons x pgs ih =>
    obtain ⟨hx, hnd⟩ := List.nodup_cons.mp hnd
    have hcons : clearBlocks n (x :: pgs) a =
        clearBlocks n pgs (a.setBlock x (clear_block_used_bits T n (a.block x))) := rfl
    rw [hcons, ih hnd]
    show a.withBlocks _ = _
    congr 1
    funext pg
    by_cases hpx : pg = x
    · subst hpx
      simp [hx, setBlock]
    · simp [hpx, setBlock]

theorem clearCaches_eq {P : ℕ → Prop} {taken : List Addr} (l : List ℕ) (hl : l.Nodup) (a : Arena T) (h : Core P taken a)
    (hsub : ∀ sc ∈ l, sc ∈ a.caches) (hP : ∀ n, P n → n % T.bitsPerUnit ≠ 0) :
    ∃ f, l.foldl clearCache a = a.withBlocks f ∧ Core P taken (a.withBlocks f) ∧
      (∀ sc ∈ l, ∀ pg ∈ (a.cache sc).lists,
        f pg = clear_block_used_bits T (a.cache sc).numEntries (a.block pg)) ∧
      ∀ pg, (∀ sc ∈ l, pg ∉ (a.cache sc).lists) → f pg = a.block pg := by
  induction l generalizing a with
  | nil => exact ⟨a.block, rfl, h, by simp, fun _ _ => rfl⟩
  | cons sc l ih =>
    obtain ⟨hnot, hl⟩ := List.nodup_cons.mp hl
    have hsc := hsub sc List.mem_cons_self
    have hstep := clearBlocks_eq (a.cache sc).numEntries _ (h.lists_nodup hsc) a
    set g : Addr → SBlock T.bitsPerUnit := fun pg =>
      if pg ∈ (a.cache sc).lists then clear_block_used_bits T (a.cache sc).numEntries (a.block pg)
      else a.block pg with hg
    have hcore : Core P taken (a.withBlocks g) := by
      refine h.withBlocks (fun sc' hsc' pg hpg => ?_) fun pg hpg => ?_
      · by_cases hmem : pg ∈ (a.cache sc).lists
        · have heq := h.cache_unique hsc' hsc hpg hmem
          subst heq
          have hold := h.block sc' hsc pg hmem
          obtain ⟨f, x, hu, hx⟩ := hold.header
          obtain ⟨hinv, hclear, -⟩ := clear_block_inv (hP _ (h.admits sc' hsc pg hmem)) hu
          simp only [hg, if_pos hmem]
          exact ⟨hold.flags, hold.color, ⟨_, x, hclear, hx⟩, hinv⟩
        · simp only [hg, if_neg hmem]
          exact h.block sc' hsc' pg hpg
      · have hmem : pg ∉ (a.cache sc).lists := fun hin => h.free_disjoint hsc hin hpg
        simp only [hg, if_neg hmem]
    obtain ⟨f, hrun, hcore', hclear, hrest⟩ :=
      ih hl (a.withBlocks g) hcore fun sc' hsc' => hsub sc' (List.mem_cons_of_mem _ hsc')
    refine ⟨f, ?_, hcore', ?_, ?_⟩
    · show l.foldl clearCache (clearBlocks (a.cache sc).numEntries (a.cache sc).lists a) = _
      rw [hstep]
      exact hrun
    · intro sc' hsc' pg hpg
      rcases List.mem_cons.mp hsc' with rfl | htail
      · have hother : ∀ sc'' ∈ l, pg ∉ (a.cache sc'').lists := by
          intro sc'' hsc'' hin
          have heq := h.cache_unique hsc (hsub sc'' (List.mem_cons_of_mem _ hsc'')) hpg hin
          exact hnot (heq ▸ hsc'')
        rw [hrest pg hother]
        exact if_pos hpg
      · have hne : pg ∉ (a.cache sc).lists := by
          intro hin
          have heq := h.cache_unique hsc (hsub sc' hsc') hin hpg
          exact hnot (heq ▸ htail)
        rw [hclear sc' htail pg hpg]
        show clear_block_used_bits T _ (g pg) = _
        simp only [hg, if_neg hne]
        rfl
    · intro pg hpg
      have hhead := hpg sc List.mem_cons_self
      rw [hrest pg fun sc' hsc' => hpg sc' (List.mem_cons_of_mem _ hsc')]
      exact if_neg hhead

theorem setAll_eq {w : ℕ} (m : MonoArena w) (v : BitVec w) (bs : List Addr) :
    ∃ f, m.setAll v bs = { m with block := f } ∧ (∀ pg ∉ bs, f pg = m.block pg) ∧
      ∀ pg ∈ bs, f pg = { m.block pg with used := Function.update (m.block pg).used 0 v } := by
  induction bs generalizing m with
  | nil => exact ⟨m.block, rfl, fun _ _ => rfl, by simp⟩
  | cons x bs ih =>
    obtain ⟨f, hrun, hout, hin⟩ := ih (m.setUsed0 x v)
    have hsame : ∀ pg, pg ≠ x → (m.setUsed0 x v).block pg = m.block pg :=
      fun pg hne => Function.update_of_ne hne ..
    have hx : (m.setUsed0 x v).block x =
        { m.block x with used := Function.update (m.block x).used 0 v } := Function.update_self ..
    refine ⟨f, hrun, fun pg hpg => ?_, fun pg hpg => ?_⟩
    · rw [hout pg (List.not_mem_of_not_mem_cons hpg), hsame pg (List.ne_of_not_mem_cons hpg)]
    · by_cases hpx : pg = x
      · subst hpx
        by_cases htail : pg ∈ bs
        · rw [hin pg htail, hx]
          simp
        · rw [hout pg htail, hx]
      · have htail := List.mem_of_ne_of_mem hpx hpg
        rw [hin pg htail, hsame pg hpx]

theorem clear_used_bits_spec {P : ℕ → Prop} (hP : ∀ n, P n → n % T.bitsPerUnit ≠ 0)
    {taken : List Addr} {a : Arena T} (h : Core P taken a) {fuel : ℕ} {a' : Arena T}
    (hrun : clear_used_bits fuel a = some a') :
    ∃ f, a' = a.withBlocks f ∧ Core P taken (a.withBlocks f) ∧
      (∀ sc ∈ a.caches, ∀ pg ∈ (a.cache sc).lists,
        f pg = clear_block_used_bits T (a.cache sc).numEntries (a.block pg)) ∧
      ∀ xs, a.MonoList xs → ∀ m ∈ xs,
        f m = { a.block m with used := Function.update (a.block m).used 0 0#_ } := by
  obtain ⟨xs, hxs, hfar⟩ := h.mono
  unfold clear_used_bits at hrun
  cases hmono : MonoArena.clear_used_bits fuel a.toMonoArena with
  | none => simp [hmono] at hrun
  | some m =>
    simp only [hmono, Option.bind_eq_bind, Option.bind_some] at hrun
    have hm := MonoArena.clear_used_bits_some hxs hmono
    obtain ⟨g, hg, hout, hin⟩ := setAll_eq a.toMonoArena 0#_ xs
    rw [hg] at hm
    subst hm
    have hplaced : ∀ pg ∈ a.placed, g pg = a.block pg :=
      fun pg hpg => hout pg (h.not_mono hxs hpg)
    have hcore : Core P taken (a.withBlocks g) := by
      refine h.withBlocks (fun sc hsc pg hpg => ?_) fun pg hpg => ?_
      · rw [hplaced pg (Core.mem_placed hsc hpg)]
        exact h.block sc hsc pg hpg
      · exact hplaced pg (List.mem_append_right _ hpg)
    obtain ⟨f, hcaches, hcore', hclear, hrest⟩ :=
      clearCaches_eq a.caches h.nodup (a.withBlocks g) hcore (fun _ hsc => hsc) hP
    refine ⟨f, ?_, hcore', fun sc hsc pg hpg => ?_, fun ys hys m hm => ?_⟩
    · have hres : some (a.caches.foldl clearCache (a.withBlocks g)) = some a' := hrun
      rw [hcaches] at hres
      exact (Option.some_inj.mp hres).symm
    · rw [hclear sc hsc pg hpg]
      show clear_block_used_bits T _ (g pg) = _
      rw [hplaced pg (Core.mem_placed hsc hpg)]
      rfl
    · have hmx : m ∈ xs := hxs.1.unique hys.1 ▸ hm
      rw [hrest m fun sc hsc hin => h.not_mono hxs (Core.mem_placed hsc hin) hmx]
      exact hin m hmx

theorem clear_used_bits_total {P : ℕ → Prop} {taken : List Addr} {a : Arena T} (h : Core P taken a) :
    ∃ N, ∀ fuel ≥ N, ∃ a', clear_used_bits fuel a = some a' := by
  obtain ⟨xs, hxs, -⟩ := h.mono
  refine ⟨xs.length, fun fuel hfuel => ?_⟩
  have hmono := MonoArena.clear_used_bits_eq hxs hfuel
  exact ⟨a.caches.foldl clearCache { a with toMonoArena := a.setAll 0#_ xs },
    by simp [clear_used_bits, hmono]⟩

/-! ### s_set_used_bit -/

theorem hasFlag_zero (f : ℕ) : hasFlag 0 f = false := by
  simp [hasFlag]

/-- Marking an entry of a cache block. -/
theorem s_set_used_bit_slot {P : ℕ → Prop} {taken : List Addr} {a : Arena T} (h : Core P taken a) {sc : ℕ} {pg : Addr}
    {i : ℕ} (hsc : sc ∈ a.caches) (hpg : pg ∈ (a.cache sc).lists)
    (hi : i < (a.cache sc).numEntries) :
    (bitIsSet (a.block pg).used i = true ∧
      s_set_used_bit (slotAddr T (a.cache sc) pg i) a = some (false, a)) ∨
    (bitIsSet (a.block pg).used i = false ∧
      ∃ b, s_set_used_bit (slotAddr T (a.cache sc) pg i) a =
          some ((a.cache sc).numPtrs != 0, a.setBlock pg b) ∧
        (a.cache sc).Holds b ∧ b.used = bitSet (a.block pg).used i) := by
  have hw := T.bitsPerUnit_pos
  have hwf := h.wf sc hsc
  have hold := h.block sc hsc pg hpg
  obtain ⟨f, x, hu, hx⟩ := hold.header
  have hblk := hwf.slot_block (h.aligned hsc hpg) hi
  have hidx := hwf.slot_index pg i
  have hsize : (a.block pg).u.size = (a.cache sc).size := by rw [hu]; rfl
  have hpos := hwf.size_pos
  unfold s_set_used_bit
  simp only [hblk, hold.color, hsize, hidx, if_neg (by omega : ¬ (a.cache sc).size = 0)]
  cases hbit : bitIsSet (a.block pg).used i with
  | true => exact Or.inl ⟨rfl, rfl⟩
  | false =>
    refine Or.inr ⟨rfl, ?_⟩
    have hmono : hasFlag (a.block pg).flags SLAB_MONOLITH = false := by
      rw [hold.flags, hwf.flags]
      exact hasFlag_zero _
    have hptrs : (a.block pg).u.numPtrs = (a.cache sc).numPtrs := by rw [hu]; rfl
    simp only [hmono, Bool.false_eq_true, if_false, hptrs]
    refine ⟨_, rfl, ?_, rfl⟩
    have hcard := card_clearBits_bitSet hw hi hbit
    have hcount := hold.inv.count
    have hf : (a.block pg).u.numFree = f := by rw [hu]; rfl
    have hle := card_clearBits_le (a.cache sc).numEntries (a.block pg).used
    have hlt := hwf.entries_lt
    have hdec : (f + (2 ^ 16 - 1)) % 2 ^ 16 = f - 1 := by omega
    refine ⟨hold.flags, rfl, ⟨f - 1, x, ?_, hx⟩, hold.inv.mark hi hbit rfl ?_⟩
    · simp only [hu]
      show BlockU.pi _ _ ((f + (2 ^ 16 - 1)) % 2 ^ 16) x = _
      rw [hdec]
    · rw [hu]
      show (f + (2 ^ 16 - 1)) % 2 ^ 16 + 1 = f
      omega

def markAll (marks : List Addr) (a : Arena T) : Option (Arena T) :=
  marks.foldlM (fun a v => (s_set_used_bit v a).map Prod.snd) a

/-- One mark sets the bit of its entry and no other. -/
theorem mark_spec {P : ℕ → Prop} {taken : List Addr} {a : Arena T} (h : Core P taken a) {v : Addr} (hv : a.IsSlot v) :
    ∃ grey f, s_set_used_bit v a = some (grey, a.withBlocks f) ∧ Core P taken (a.withBlocks f) ∧
      ∀ sc ∈ a.caches, ∀ pg ∈ (a.cache sc).lists, ∀ i < (a.cache sc).numEntries,
        (bitIsSet (f pg).used i = true ↔
          bitIsSet (a.block pg).used i = true ∨ slotAddr T (a.cache sc) pg i = v) := by
  have hw := T.bitsPerUnit_pos
  obtain ⟨sc, hsc, pg, hpg, i, hi, rfl⟩ := hv
  have hslot : ∀ sc' ∈ a.caches, ∀ pg' ∈ (a.cache sc').lists, ∀ i' < (a.cache sc').numEntries,
      slotAddr T (a.cache sc') pg' i' = slotAddr T (a.cache sc) pg i → pg' = pg ∧ i' = i := by
    intro sc' hsc' pg' hpg' i' hi' heq
    have hpgs := (h.wf sc' hsc').slot_inj (h.wf sc hsc) (h.aligned hsc' hpg') (h.aligned hsc hpg)
      hi' hi heq
    subst hpgs
    have hscs := h.cache_unique hsc' hsc hpg' hpg
    subst hscs
    have hidx := (h.wf sc' hsc).slot_index pg' i'
    rw [heq, (h.wf sc' hsc).slot_index] at hidx
    exact ⟨rfl, hidx.symm⟩
  rcases s_set_used_bit_slot h hsc hpg hi with ⟨hset, hrun⟩ | ⟨-, b, hrun, hb, hused⟩
  · refine ⟨false, a.block, hrun, h, fun sc' hsc' pg' hpg' i' hi' => ?_⟩
    constructor
    · exact Or.inl
    · intro hor
      rcases hor with hbit | heq
      · exact hbit
      · obtain ⟨rfl, rfl⟩ := hslot sc' hsc' pg' hpg' i' hi' heq
        exact hset
  · refine ⟨_, _, hrun, h.setBlock hsc hpg hb, fun sc' hsc' pg' hpg' i' hi' => ?_⟩
    by_cases hpgs : pg' = pg
    · subst hpgs
      rw [Function.update_self, hused, bitIsSet_bitSet _ hw, Bool.or_eq_true, decide_eq_true_eq,
        or_comm]
      have hscs := h.cache_unique hsc' hsc hpg' hpg
      subst hscs
      refine or_congr_right ?_
      constructor
      · intro heq
        rw [heq]
      · intro heq
        exact (hslot sc' hsc' pg' hpg' i' hi' heq).2
    · rw [Function.update_of_ne hpgs]
      constructor
      · exact Or.inl
      · intro hor
        rcases hor with hbit | heq
        · exact hbit
        · exact absurd (hslot sc' hsc' pg' hpg' i' hi' heq).1 hpgs

theorem markAll_spec {P : ℕ → Prop} {taken : List Addr} (marks : List Addr) {a : Arena T} (h : Core P taken a)
    (hmarks : ∀ v ∈ marks, a.IsSlot v) :
    ∃ f, markAll marks a = some (a.withBlocks f) ∧ Core P taken (a.withBlocks f) ∧
      ∀ sc ∈ a.caches, ∀ pg ∈ (a.cache sc).lists, ∀ i < (a.cache sc).numEntries,
        (bitIsSet (f pg).used i = true ↔
          bitIsSet (a.block pg).used i = true ∨ slotAddr T (a.cache sc) pg i ∈ marks) := by
  induction marks generalizing a with
  | nil => exact ⟨a.block, rfl, h, by simp⟩
  | cons v marks ih =>
    obtain ⟨grey, g, hrun, hcore, hbits⟩ := mark_spec h (hmarks v List.mem_cons_self)
    obtain ⟨f, hruns, hcore', hbits'⟩ :=
      ih hcore fun u hu => hmarks u (List.mem_cons_of_mem _ hu)
    refine ⟨f, ?_, hcore', fun sc hsc pg hpg i hi => ?_⟩
    · unfold markAll
      rw [List.foldlM_cons, hrun]
      exact hruns
    · have hlater := hbits' sc hsc pg hpg i hi
      have hnow := hbits sc hsc pg hpg i hi
      rw [List.mem_cons, hlater]
      show bitIsSet (g pg).used i = true ∨ _ ↔ _
      rw [hnow, or_assoc]
      rfl

end Arena

end Jhc.Rts

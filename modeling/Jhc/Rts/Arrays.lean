import Jhc.Rts.MarkBit

/-!
# Arrays (rts/gc_jgc.c:206-227, 260-301)

`gc_array_alloc` and `gc_array_alloc_atomic`: the caches of the small sizes,
`find_cache` below `GC_MAX_BLOCK_ENTRIES` and `s_monoblock` from there on.
`jhc_aligned_alloc` returns `MEGABLOCK_SIZE` bytes whatever size it is asked for.
-/

namespace Jhc.Rts
open Jhc.Lib

def GC_STATIC_ARRAY_NUM : ℕ := 7

def GC_MAX_BLOCK_ENTRIES : ℕ := 150

/-- `array_caches` and `array_caches_atomic`. -/
structure ArrayCaches where
  array_caches : ℕ → ℕ
  array_caches_atomic : ℕ → ℕ

/-- What the sizes of a build have to admit: the caches of the arrays below
`GC_MAX_BLOCK_ENTRIES`, and the header of a monolith in its first block. -/
structure ArrayGeometry (T : Target) : Prop where
  slabs : ∀ n < GC_MAX_BLOCK_ENTRIES, n ≠ 0 → Admits T n n ∧ Admits T n 0
  header : Arena.colorOf T 1 * T.wordBytes < T.blockSize

theorem lp64_geometry : ArrayGeometry Target.lp64 := ⟨by decide +kernel, by decide⟩

theorem ilp32_geometry : ArrayGeometry Target.ilp32 := ⟨by decide +kernel, by decide⟩

namespace Arena

variable {T : Target} {P : ℕ → Prop}

/-! ### The functions -/

/-- The body of the last loop of `jhc_alloc_init`. -/
def initArrays (s : ArrayCaches × Arena T) (i : ℕ) : ArrayCaches × Arena T :=
  let (sc, a) := find_cache none s.2 (i + 1) (i + 1)
  let (sc', a) := find_cache none a (i + 1) 0
  (⟨Function.update s.1.array_caches i sc, Function.update s.1.array_caches_atomic i sc'⟩, a)

def jhc_alloc_init (a : Arena T) : ArrayCaches × Arena T :=
  (List.range GC_STATIC_ARRAY_NUM).foldl initArrays (⟨fun _ => 0, fun _ => 0⟩, a)

def gc_array_alloc (gc : Arena T → Option (Arena T)) (base : Addr) (st : ArrayCaches) (count : ℕ)
    (a : Arena T) : Option (Addr × Arena T) :=
  if count = 0 then some (0, a)
  else if count ≤ GC_STATIC_ARRAY_NUM then s_alloc gc base (st.array_caches (count - 1)) a
  else if count < GC_MAX_BLOCK_ENTRIES then
    let (sc, a) := find_cache none a count count
    s_alloc gc base sc a
  else some (monoAddr T base, a.addMonolith base count 0)

def gc_array_alloc_atomic (gc : Arena T → Option (Arena T)) (base : Addr) (st : ArrayCaches)
    (count flags : ℕ) (a : Arena T) : Option (Addr × Arena T) :=
  if count = 0 then some (0, a)
  else if count ≤ GC_STATIC_ARRAY_NUM ∧ flags = 0 then
    s_alloc gc base (st.array_caches_atomic (count - 1)) a
  else if count < GC_MAX_BLOCK_ENTRIES ∧ flags = 0 then
    let (sc, a) := find_cache none a count 0
    s_alloc gc base sc a
  else some (monoAddr T base, a.addMonolith base count flags)

/-! ### Where objects lie -/

/-- The memory that was obtained for the object `v`. -/
def memoryOf (a : Arena T) (v : ℕ) : ℕ × ℕ :=
  let pg := S_BLOCK T v
  if hasFlag (a.block pg).flags SLAB_MONOLITH then (pg, pg + T.megablockSize)
  else (v, v + (a.block pg).u.size * T.wordBytes)

def wordsOf (a : Arena T) (v : ℕ) : ℕ :=
  let b := a.block (S_BLOCK T v)
  if hasFlag b.flags SLAB_MONOLITH then b.u.numPtrs else b.u.size

/-- A block of a cache or a monolith. -/
def IsBlock (a : Arena T) (pg : Addr) : Prop :=
  (∃ sc ∈ a.caches, pg ∈ (a.cache sc).lists) ∨ ∃ xs, a.MonoList xs ∧ pg ∈ xs

/-- `a₁` is the arena before the allocation and `a` the one after it: the `count`
words at `val` lie in the memory of the new object and overlap no object and no
header, and `val` was no object before. -/
structure HasRoom (a₁ a : Arena T) (val count : ℕ) : Prop where
  inside : (a.memoryOf val).1 ≤ val ∧ val + count * T.wordBytes ≤ (a.memoryOf val).2
  apart : ∀ u : ℕ, a.IsObj u → u ≠ val →
    u + a.wordsOf u * T.wordBytes ≤ val ∨ val + count * T.wordBytes ≤ u
  headers : ∀ pg : ℕ, a.IsBlock pg →
    pg + (a.block pg).color * T.wordBytes ≤ val ∨ val + count * T.wordBytes ≤ pg
  fresh : ¬ (a₁.Allocated val ∨ a₁.IsMono val)

/-- No word of `v` is one that the loop of `gc_mark_deeper` looks at. -/
def Unscanned (a : Arena T) (v : Addr) : Prop := ∀ i, ¬ i < a.ptrs v

/-- The loop does nothing at such an object. -/
theorem gc_mark_deeper_unscanned (r : Roots) (fuel : ℕ) {e : Addr} {stack : List Addr}
    {a : Arena T} (h : a.Unscanned e) :
    gc_mark_deeper r (fuel + 1) (e :: stack, a) = gc_mark_deeper r fuel (stack, a) := by
  have hzero : a.ptrs e = 0 := Nat.eq_zero_of_not_pos fun hpos => h 0 hpos
  simp [gc_mark_deeper, hzero]

/-! ### The positions of the blocks -/

/-- What `Core` says about where the blocks are and about their headers, with
the monoliths inside their memory. -/
structure Layout (a : Arena T) : Prop where
  wf : ∀ sc ∈ a.caches, (a.cache sc).Wf T
  block : ∀ sc ∈ a.caches, ∀ pg ∈ (a.cache sc).lists, (a.block pg).flags = (a.cache sc).flags ∧
    (a.block pg).color = (a.cache sc).color ∧
    ∃ f x, (a.block pg).u = .pi (a.cache sc).numPtrs (a.cache sc).size f x
  chunk : ∀ sc ∈ a.caches, ∀ pg ∈ (a.cache sc).lists,
    T.blockSize ∣ pg ∧ ∃ mb ∈ a.allMegablocks, InChunk T mb.base pg
  unique : ∀ sc ∈ a.caches, ∀ sc' ∈ a.caches, ∀ pg ∈ (a.cache sc).lists,
    pg ∈ (a.cache sc').lists → sc = sc'
  mono : ∃ xs, a.MonoList xs ∧ ∀ m ∈ xs, ∀ mb ∈ a.allMegablocks,
    ∀ x, InChunk T mb.base x → ¬ InChunk T m x
  monos : ∀ xs, a.MonoList xs → ∀ m ∈ xs, MonoHeader T m (a.block m)

/-- No monolith is longer than the memory it was given. -/
def Bounded (a : Arena T) : Prop :=
  ∀ xs, a.MonoList xs → ∀ m ∈ xs,
    (colorOf T 1 + (a.block m).u.numPtrs) * T.wordBytes ≤ T.megablockSize

theorem Listed.layout {a : Arena T} (h : Listed P a) : Layout a where
  wf := h.wf
  block sc hsc pg hpg := by
    have hold := h.block sc hsc pg hpg
    obtain ⟨f, x, hu, -⟩ := hold.header
    exact ⟨hold.flags, hold.color, f, x, hu⟩
  chunk _ hsc _ hpg := h.placed_chunk (Core.mem_placed hsc hpg)
  unique _ hsc _ hsc' _ hpg hpg' := h.cache_unique hsc hsc' hpg hpg'
  mono := h.mono
  monos := h.monos

theorem aligned_apart {x y : ℕ} (hx : T.blockSize ∣ x) (hy : T.blockSize ∣ y) (hne : x ≠ y) :
    x + T.blockSize ≤ y ∨ y + T.blockSize ≤ x := by
  obtain ⟨k, rfl⟩ := hx
  obtain ⟨l, rfl⟩ := hy
  rcases Nat.lt_or_gt_of_ne fun heq : k = l => hne (by rw [heq]) with hlt | hlt
  · refine Or.inl ?_
    rw [← Nat.mul_succ]
    exact Nat.mul_le_mul_left _ hlt
  · refine Or.inr ?_
    rw [← Nat.mul_succ]
    exact Nat.mul_le_mul_left _ hlt

/-- A block outside the chunk of a monolith. -/
theorem block_mono_apart {pg m : ℕ} (hpg : T.blockSize ∣ pg) (hm : T.blockSize ∣ m)
    (hout : ¬ InChunk T m pg) : pg + T.blockSize ≤ m ∨ m + T.megablockSize ≤ pg := by
  rcases Nat.lt_or_ge pg m with hlt | hge
  · rcases aligned_apart hpg hm (Nat.ne_of_lt hlt) with h | h
    · exact Or.inl h
    · omega
  · refine Or.inr ?_
    by_contra hnot
    have hin := block_inChunk hm hge (by omega)
    have hself : S_BLOCK T pg = pg := Nat.div_mul_cancel hpg
    rw [hself] at hin
    exact hout hin

theorem monos_apart {m m' : ℕ} (hm : T.blockSize ∣ m) (hm' : T.blockSize ∣ m')
    (hout : ∀ x, InChunk T m x → ¬ InChunk T m' x) :
    m + T.megablockSize ≤ m' ∨ m' + T.megablockSize ≤ m := by
  have hle : T.blockSize ≤ T.megablockSize := Nat.pow_le_pow_right (by omega) T.shift_lt.le
  rcases block_mono_apart hm hm' (hout m (inChunk_self T m)) with h | h
  · rcases block_mono_apart hm' hm (fun hin => hout m' hin (inChunk_self T m')) with h' | h'
    · have hpos := T.blockSize_pos
      omega
    · exact Or.inl h'
  · exact Or.inr h

/-- Where an entry starts and ends in its block. -/
theorem slot_end {c : Cache} (hwf : c.Wf T) {pg i v : ℕ} (hi : i < c.numEntries)
    (hv : v = slotAddr T c pg i) :
    pg + c.color * T.wordBytes ≤ v ∧ v + c.size * T.wordBytes ≤ pg + T.blockSize := by
  have hfits := hwf.fits
  have hlast : i * c.size + c.size ≤ c.numEntries * c.size := by
    rw [← Nat.succ_mul]
    exact Nat.mul_le_mul_right _ hi
  have hle := Nat.mul_le_mul_right T.wordBytes
    (by omega : c.color + i * c.size + c.size ≤ c.color + c.numEntries * c.size)
  have hmul : (c.color + i * c.size + c.size) * T.wordBytes =
      c.color * T.wordBytes + i * c.size * T.wordBytes + c.size * T.wordBytes := by ring
  have hval : v = pg + (c.color * T.wordBytes + i * c.size * T.wordBytes) := by
    rw [hv]
    unfold slotAddr
    ring
  have hend := hle.trans hfits
  omega

theorem slots_apart {c : Cache} {pg i j v u : ℕ} (hlt : i < j) (hv : v = slotAddr T c pg i)
    (hu : u = slotAddr T c pg j) : v + c.size * T.wordBytes ≤ u := by
  have hmul := Nat.mul_le_mul_right (c.size * T.wordBytes) (show i + 1 ≤ j from hlt)
  have hi : v + c.size * T.wordBytes =
      pg + c.color * T.wordBytes + (i + 1) * (c.size * T.wordBytes) := by
    rw [hv]
    unfold slotAddr
    ring
  have hj : u = pg + c.color * T.wordBytes + j * (c.size * T.wordBytes) := by
    rw [hu]
    unfold slotAddr
    ring
  rw [hi, hj]
  exact Nat.add_le_add_left hmul _

section Room

variable {a : Arena T}

theorem Layout.slot_block (h : Layout a) {sc : ℕ} {pg : Addr} {i : ℕ} (hsc : sc ∈ a.caches)
    (hpg : pg ∈ (a.cache sc).lists) (hi : i < (a.cache sc).numEntries) :
    S_BLOCK T (slotAddr T (a.cache sc) pg i) = pg ∧
      hasFlag (a.block pg).flags SLAB_MONOLITH = false ∧
      (a.block pg).u.size = (a.cache sc).size ∧ (a.block pg).u.numPtrs = (a.cache sc).numPtrs := by
  obtain ⟨hflags, -, f, x, hu⟩ := h.block sc hsc pg hpg
  refine ⟨(h.wf sc hsc).slot_block (h.chunk sc hsc pg hpg).1 hi, ?_, by rw [hu]; rfl,
    by rw [hu]; rfl⟩
  rw [hflags, (h.wf sc hsc).flags]
  exact hasFlag_zero _

theorem Layout.mono_block (h : Layout a) (hgeo : ArrayGeometry T) {xs : List Addr}
    (hxs : a.MonoList xs) {m : Addr} (hm : m ∈ xs) : S_BLOCK T (monoAddr T m) = m := by
  obtain ⟨k, hk⟩ := (h.monos xs hxs m hm).aligned
  have hfits := hgeo.header
  subst hk
  unfold S_BLOCK monoAddr
  rw [Nat.mul_add_div T.blockSize_pos, Nat.div_eq_of_lt hfits, Nat.add_zero, Nat.mul_comm]

theorem Layout.far (h : Layout a) {sc pg : ℕ} (hsc : sc ∈ a.caches)
    (hpg : pg ∈ (a.cache sc).lists) {xs : List Addr} (hxs : a.MonoList xs) {m : ℕ}
    (hm : m ∈ xs) : pg + T.blockSize ≤ m ∨ m + T.megablockSize ≤ pg := by
  obtain ⟨hal, mb, hmb, hin⟩ := h.chunk sc hsc pg hpg
  obtain ⟨ys, hys, hfar⟩ := h.mono
  rw [hxs.1.unique hys.1] at hm
  exact block_mono_apart hal (h.monos ys hys m hm).aligned (hfar m hm mb hmb pg hin)

/-- The words of a monolith end in its memory. -/
theorem Layout.mono_end (h : Layout a) (hgeo : ArrayGeometry T) (hbound : a.Bounded)
    {xs : List Addr} (hxs : a.MonoList xs) {m u : ℕ} (hm : m ∈ xs) (hu : u = monoAddr T m) :
    m + colorOf T 1 * T.wordBytes ≤ u ∧ u + a.wordsOf u * T.wordBytes ≤ m + T.megablockSize := by
  have hb := hbound xs hxs m hm
  have hwords : a.wordsOf u = (a.block m).u.numPtrs := by
    unfold wordsOf
    simp only [hu, h.mono_block hgeo hxs hm, (h.monos xs hxs m hm).flag, if_true]
  have hval : u = m + colorOf T 1 * T.wordBytes := hu
  rw [Nat.add_mul] at hb
  rw [hwords]
  omega

theorem Layout.slot_words (h : Layout a) {sc pg i u : ℕ} (hsc : sc ∈ a.caches)
    (hpg : pg ∈ (a.cache sc).lists) (hi : i < (a.cache sc).numEntries)
    (hu : u = slotAddr T (a.cache sc) pg i) : a.wordsOf u = (a.cache sc).size := by
  obtain ⟨hblk, hflag, hsize, -⟩ := h.slot_block hsc hpg hi
  unfold wordsOf
  simp only [hu, hblk, hflag, hsize]
  rfl

/-- An entry of a block has room for as many words as the objects of its cache. -/
theorem slot_room (h : Layout a) (hgeo : ArrayGeometry T) (hbound : a.Bounded) {a₁ : Arena T}
    {sc pg i val : ℕ} (hsc : sc ∈ a.caches) (hpg : pg ∈ (a.cache sc).lists)
    (hi : i < (a.cache sc).numEntries) (hval : val = slotAddr T (a.cache sc) pg i)
    (hfresh : ¬ (a₁.Allocated val ∨ a₁.IsMono val)) :
    HasRoom a₁ a val (a.cache sc).size := by
  have hwf := h.wf sc hsc
  have hle : T.blockSize ≤ T.megablockSize := Nat.pow_le_pow_right (by omega) T.shift_lt.le
  have hheader := hgeo.header
  obtain ⟨hblk, hflag, hsize, -⟩ := h.slot_block hsc hpg hi
  obtain ⟨hlo, hhi⟩ := slot_end hwf hi hval
  have hpgA := (h.chunk sc hsc pg hpg).1
  refine ⟨?_, fun u hu hne => ?_, fun p hp => ?_, hfresh⟩
  · unfold memoryOf
    simp only [hval, hblk, hflag, hsize]
    exact ⟨le_rfl, le_rfl⟩
  · rcases hu with ⟨sc', hsc', pg', hpg', i', hi', hu⟩ | ⟨xs, hxs, m, hm, hu⟩
    · rw [h.slot_words hsc' hpg' hi' hu]
      by_cases hpp : pg' = pg
      · subst hpp
        have hscs := h.unique sc' hsc' sc hsc pg' hpg' hpg
        subst hscs
        have hii : i' ≠ i := fun heq => hne (by rw [hu, hval, heq])
        rcases Nat.lt_or_gt_of_ne hii with hlt | hlt
        · exact Or.inl (slots_apart hlt hu hval)
        · exact Or.inr (slots_apart hlt hval hu)
      · obtain ⟨hlo', hhi'⟩ := slot_end (h.wf sc' hsc') hi' hu
        rcases aligned_apart (h.chunk sc' hsc' pg' hpg').1 hpgA hpp with hd | hd
        · omega
        · omega
    · obtain ⟨hlo', hhi'⟩ := h.mono_end hgeo hbound hxs hm hu
      rcases h.far hsc hpg hxs hm with hd | hd
      · omega
      · omega
  · rcases hp with ⟨sc', hsc', hp⟩ | ⟨xs, hxs, hm⟩
    · obtain ⟨hpA, -⟩ := h.chunk sc' hsc' p hp
      obtain ⟨-, hcolor, -⟩ := h.block sc' hsc' p hp
      rw [hcolor]
      by_cases hpp : p = pg
      · subst hpp
        have hscs := h.unique sc' hsc' sc hsc p hp hpg
        subst hscs
        exact Or.inl hlo
      · have hfits := (h.wf sc' hsc').fits
        have hcol : (a.cache sc').color * T.wordBytes ≤
            ((a.cache sc').color + (a.cache sc').numEntries * (a.cache sc').size) * T.wordBytes :=
          Nat.mul_le_mul_right _ (Nat.le_add_right _ _)
        rcases aligned_apart hpA hpgA hpp with hd | hd
        · omega
        · omega
    · rw [(h.monos xs hxs p hm).color]
      rcases h.far hsc hpg hxs hm with hd | hd
      · omega
      · omega

/-- A monolith that was put onto the list, in so far as it fits. -/
theorem mono_room (h : Layout a) (hgeo : ArrayGeometry T) (hbound : a.Bounded) {a₁ : Arena T}
    {xs : List Addr} {m val count : ℕ} (hxs : a.MonoList xs) (hm : m ∈ xs)
    (hval : val = monoAddr T m) (hcount : (a.block m).u.numPtrs = count)
    (hapart : ∀ m' : ℕ, m' ∈ xs → m' ≠ m → m' + T.megablockSize ≤ m ∨ m + T.megablockSize ≤ m')
    (hfresh : ¬ (a₁.Allocated val ∨ a₁.IsMono val)) : HasRoom a₁ a val count := by
  have hle : T.blockSize ≤ T.megablockSize := Nat.pow_le_pow_right (by omega) T.shift_lt.le
  have hheader := hgeo.header
  have hblk := h.mono_block hgeo hxs hm
  have hflag := (h.monos xs hxs m hm).flag
  have hwords : a.wordsOf val = count := by
    unfold wordsOf
    simp only [hval, hblk, hflag, if_true]
    exact hcount
  obtain ⟨hlo, hhi⟩ := h.mono_end hgeo hbound hxs hm hval
  rw [hwords] at hhi
  refine ⟨?_, fun u hu hne => ?_, fun p hp => ?_, hfresh⟩
  · unfold memoryOf
    simp only [hval, hblk, hflag, if_true]
    rw [← hval]
    omega
  · rcases hu with ⟨sc', hsc', pg', hpg', i', hi', hu⟩ | ⟨ys, hys, m', hm', hu⟩
    · rw [h.slot_words hsc' hpg' hi' hu]
      obtain ⟨hlo', hhi'⟩ := slot_end (h.wf sc' hsc') hi' hu
      rcases h.far hsc' hpg' hxs hm with hd | hd
      · omega
      · omega
    · have hne' : m' ≠ m := fun heq => hne (by rw [hu, hval, heq])
      obtain ⟨hlo', hhi'⟩ := h.mono_end hgeo hbound hys hm' hu
      rcases hapart m' (hxs.1.unique hys.1 ▸ hm') hne' with hd | hd
      · omega
      · omega
  · rcases hp with ⟨sc', hsc', hp⟩ | ⟨ys, hys, hm'⟩
    · obtain ⟨-, hcolor, -⟩ := h.block sc' hsc' p hp
      have hfits := (h.wf sc' hsc').fits
      have hcol : (a.cache sc').color * T.wordBytes ≤
          ((a.cache sc').color + (a.cache sc').numEntries * (a.cache sc').size) * T.wordBytes :=
        Nat.mul_le_mul_right _ (Nat.le_add_right _ _)
      rw [hcolor]
      rcases h.far hsc' hp hxs hm with hd | hd
      · omega
      · omega
    · rw [(h.monos ys hys p hm').color]
      by_cases hpm : p = m
      · subst hpm
        omega
      · rcases hapart p (hxs.1.unique hys.1 ▸ hm') hpm with hd | hd
        · omega
        · omega

theorem Layout.slot_not_mono (h : Layout a) (hgeo : ArrayGeometry T) {sc pg i val : ℕ}
    (hsc : sc ∈ a.caches) (hpg : pg ∈ (a.cache sc).lists) (hi : i < (a.cache sc).numEntries)
    (hval : val = slotAddr T (a.cache sc) pg i) : ¬ a.IsMono val := by
  rintro ⟨xs, hxs, m, hm, hmono⟩
  have hslot := (h.slot_block hsc hpg hi).1
  rw [← hval, hmono, h.mono_block hgeo hxs hm] at hslot
  have hpos := T.blockSize_pos
  have hle : T.blockSize ≤ T.megablockSize := Nat.pow_le_pow_right (by omega) T.shift_lt.le
  subst hslot
  rcases h.far hsc hpg hxs hm with hd | hd
  · omega
  · omega

theorem Layout.slot_ptrs (h : Layout a) {sc pg i val : ℕ} (hsc : sc ∈ a.caches)
    (hpg : pg ∈ (a.cache sc).lists) (hi : i < (a.cache sc).numEntries)
    (hval : val = slotAddr T (a.cache sc) pg i) : a.ptrs val = (a.cache sc).numPtrs := by
  obtain ⟨hblk, -, -, hptrs⟩ := h.slot_block hsc hpg hi
  unfold ptrs
  rw [hval, hblk, hptrs]

end Room

/-! ### Allocation from a cache -/

def MonosOk (a : Arena T) : Prop :=
  (∀ xs, a.MonoList xs → ∀ m ∈ xs, MonoHeader T m (a.block m)) ∧ a.Bounded

theorem MonosOk.same {a a' : Arena T} (h : a.MonosOk)
    (hrest : a'.link = a.link ∧ a'.monolithicBlocks = a.monolithicBlocks)
    (hblock : ∀ xs, a'.MonoList xs → ∀ m ∈ xs, a'.block m = a.block m) : a'.MonosOk := by
  have hlist : ∀ xs, a'.MonoList xs → a.MonoList xs := by
    intro xs hxs
    unfold MonoArena.MonoList at hxs ⊢
    rwa [hrest.1, hrest.2] at hxs
  refine ⟨fun xs hxs m hm => ?_, fun xs hxs m hm => ?_⟩
  · rw [hblock xs hxs m hm]
    exact h.1 xs (hlist xs hxs) m hm
  · rw [hblock xs hxs m hm]
    exact h.2 xs (hlist xs hxs) m hm

/-- What the allocation relies on when it calls the collector. -/
structure GcKept (P : ℕ → Prop) (a a₁ : Arena T) : Prop where
  ok : Ok P a₁
  frame : Frame a a₁
  monos : a₁.MonosOk

/-- The arena after the branch of `s_alloc` that takes a new block. -/
def putBlock (a : Arena T) (sc : ℕ) (pg : Addr) : Arena T :=
  (a.setCache sc { a.cache sc with blocks := pg :: (a.cache sc).blocks }).setBlock pg
    (initBlock (a.cache sc) (a.block pg))

section Fresh

variable {a : Arena T} {sc : ℕ} {pg : Addr}

theorem putBlock_cache (a : Arena T) (sc : ℕ) (pg : Addr) (sc' : ℕ) : ∃ blocks, (a.putBlock sc pg).cache sc' =
    { a.cache sc' with blocks := blocks } ∧ ∀ p, p ∈ ((a.putBlock sc pg).cache sc').lists ↔
      (sc' = sc ∧ p = pg) ∨ p ∈ (a.cache sc').lists := by
  by_cases hsc : sc' = sc
  · subst hsc
    have hself : (a.putBlock sc' pg).cache sc' =
        { a.cache sc' with blocks := pg :: (a.cache sc').blocks } := Function.update_self ..
    refine ⟨_, hself, fun p => ?_⟩
    rw [hself]
    simp [Cache.lists]
  · have hother : (a.putBlock sc pg).cache sc' = a.cache sc' := Function.update_of_ne hsc ..
    refine ⟨(a.cache sc').blocks, hother, fun p => ?_⟩
    rw [hother]
    simp [hsc]

theorem taken_chunk (h : Core P [pg] a) :
    T.blockSize ∣ pg ∧ (∃ mb ∈ a.allMegablocks, InChunk T mb.base pg) ∧ pg ∉ a.placed := by
  have hnd := h.place.nodup_iff.mpr h.once
  have hin : pg ∈ a.handed := h.place.mem_iff.mp (List.mem_append_left _ List.mem_cons_self)
  obtain ⟨mb, hmb, k, hk, heq⟩ := Core.mem_handed.mp hin
  have hbound := h.mega.bound mb hmb
  refine ⟨?_, ⟨mb, hmb, k, by omega, heq⟩, (List.nodup_cons.mp hnd).1⟩
  rw [heq]
  exact Nat.dvd_add (h.mega.aligned mb hmb) (Dvd.intro _ rfl)

theorem initBlock_header (c : Cache) (b : SBlock T.bitsPerUnit) :
    (initBlock c b).flags = c.flags ∧ (initBlock c b).color = c.color ∧
      ∃ f x, (initBlock c b).u = .pi c.numPtrs c.size f x := by
  unfold initBlock
  dsimp only
  split_ifs
  · exact ⟨rfl, rfl, _, _, rfl⟩
  · exact ⟨rfl, rfl, _, _, rfl⟩

theorem putBlock_layout (sc : ℕ) (h : Core P [pg] a) (hmonos : a.MonosOk) :
    Layout (a.putBlock sc pg) ∧ (a.putBlock sc pg).MonosOk := by
  obtain ⟨hal, hchunk, hnot⟩ := taken_chunk h
  have hout : ∀ sc' ∈ a.caches, pg ∉ (a.cache sc').lists :=
    fun sc' hsc' hin => hnot (Core.mem_placed hsc' hin)
  have hmono : ∀ xs, a.MonoList xs → pg ∉ xs := by
    intro xs hxs hin
    obtain ⟨ys, hys, hfar⟩ := h.mono
    obtain ⟨mb, hmb, hk⟩ := hchunk
    rw [hxs.1.unique hys.1] at hin
    exact hfar pg hin mb hmb pg hk (inChunk_self T pg)
  have hsame : ∀ p, p ≠ pg → (a.putBlock sc pg).block p = a.block p :=
    fun p hp => Function.update_of_ne hp ..
  have hself : (a.putBlock sc pg).block pg = initBlock (a.cache sc) (a.block pg) :=
    Function.update_self ..
  have hkept : (a.putBlock sc pg).MonosOk :=
    hmonos.same ⟨rfl, rfl⟩ fun xs hxs m hm => hsame m fun heq => hmono xs hxs (heq ▸ hm)
  refine ⟨⟨fun sc' hsc' => ?_, fun sc' hsc' p hp => ?_, fun sc' hsc' p hp => ?_,
    fun sc₁ hsc₁ sc₂ hsc₂ p hp₁ hp₂ => ?_, h.mono, hkept.1⟩, hkept⟩
  · obtain ⟨blocks, hcache, -⟩ := putBlock_cache a sc pg sc'
    have hwf := h.wf sc' hsc'
    rw [hcache]
    exact ⟨hwf.size_pos, hwf.ptrs_le, hwf.flags, hwf.entries_lt, hwf.fits⟩
  · obtain ⟨blocks, hcache, hmem⟩ := putBlock_cache a sc pg sc'
    rcases (hmem p).mp hp with ⟨rfl, rfl⟩ | hold
    · rw [hcache, hself]
      exact initBlock_header _ _
    · have hpp : p ≠ pg := fun heq => hout sc' hsc' (heq ▸ hold)
      have hblk := h.block sc' hsc' p hold
      obtain ⟨f, x, hu, -⟩ := hblk.header
      rw [hcache, hsame p hpp]
      exact ⟨hblk.flags, hblk.color, f, x, hu⟩
  · obtain ⟨blocks, -, hmem⟩ := putBlock_cache a sc pg sc'
    rcases (hmem p).mp hp with ⟨rfl, rfl⟩ | hold
    · exact ⟨hal, hchunk⟩
    · exact h.placed_chunk (Core.mem_placed hsc' hold)
  · obtain ⟨-, -, hmem₁⟩ := putBlock_cache a sc pg sc₁
    obtain ⟨-, -, hmem₂⟩ := putBlock_cache a sc pg sc₂
    rcases (hmem₁ p).mp hp₁ with ⟨rfl, rfl⟩ | hold₁
    · rcases (hmem₂ p).mp hp₂ with ⟨rfl, -⟩ | hold₂
      · rfl
      · exact absurd hold₂ (hout sc₂ hsc₂)
    · rcases (hmem₂ p).mp hp₂ with ⟨rfl, rfl⟩ | hold₂
      · exact absurd hold₁ (hout sc₁ hsc₁)
      · exact h.cache_unique hsc₁ hsc₂ hold₁ hold₂

end Fresh

/-- `s_alloc` from a cache whose objects have `size` words, `numPtrs` of them pointers. -/
theorem s_alloc_room (hgeo : ArrayGeometry T) {gc : Arena T → Option (Arena T)} {base : Addr}
    {a : Arena T} {sc : ℕ} (h : Ok P a) (hmonos : a.MonosOk) (hsc : sc ∈ a.caches)
    (hpos : 0 < (a.cache sc).numEntries) (hbase : a.FreshBase base)
    (hgc : ∃ a₁, gcCall gc a = some a₁ ∧ GcKept P a a₁) :
    ∃ val a' a₁, s_alloc gc base sc a = some (val, a') ∧ (a₁ = a ∨ gcCall gc a = some a₁) ∧
      HasRoom a₁ a' val (a.cache sc).size ∧ a'.ptrs val = (a.cache sc).numPtrs := by
  obtain ⟨g, hg, hkept⟩ := hgc
  cases hblocks : (a.cache sc).blocks with
  | cons pg rest =>
    obtain ⟨val, a', hrun, hspec⟩ := alloc_partly gc base h hsc hblocks
    have hlist : ∀ xs, a'.MonoList xs → ∀ m ∈ xs, a'.block m = a.block m :=
      fun xs hxs m hm => hspec.block m fun hin => hspec.ok.not_mono hxs hin hm
    have hmonos' := hmonos.same ⟨hspec.rest.2.1, hspec.rest.2.2⟩ hlist
    have hlay : Layout a' := Listed.layout ⟨hspec.ok.toCore, hmonos'.1⟩
    have hsc' : sc ∈ a'.caches := hspec.caches ▸ hsc
    obtain ⟨pg', hpg', i, hi, hval⟩ := hspec.slot
    have hmono : ¬ a.IsMono val := by
      rintro ⟨xs, hxs, hin⟩
      refine hlay.slot_not_mono hgeo hsc' hpg' hi hval ⟨xs, ?_, hin⟩
      unfold MonoArena.MonoList at hxs ⊢
      rwa [hspec.rest.2.1, hspec.rest.2.2]
    have hfresh : ¬ (a.Allocated val ∨ a.IsMono val) := not_or.mpr ⟨hspec.free, hmono⟩
    have hroom := slot_room hlay hgeo hmonos'.2 hsc' hpg' hi hval hfresh
    have hptrs := hlay.slot_ptrs hsc' hpg' hi hval
    obtain ⟨blocks, fullBlocks, hcache⟩ := hspec.static sc
    rw [hcache] at hroom hptrs
    exact ⟨val, a', a, hrun, Or.inl rfl, hroom, hptrs⟩
  | nil =>
    obtain ⟨⟨pg, a₂⟩, hget⟩ := get_free_block_total base ⟨g, hg⟩
    have hgc' : ∀ a', gcCall gc a = some a' → GcKept P a a' := by
      intro a' ha'
      rw [hg] at ha'
      rw [← Option.some_inj.mp ha']
      exact hkept
    obtain ⟨a₁, hor, hgot⟩ := get_free_block_spec h.toCore hbase
      (fun a' ha' => ⟨(hgc' a' ha').ok.toCore, (hgc' a' ha').frame⟩) hget
    have hfirst : MonosOk a₁ ∧ Frame a a₁ := by
      rcases hor with rfl | ha₁
      · exact ⟨hmonos, Frame.refl _⟩
      · exact ⟨(hgc' a₁ ha₁).monos, (hgc' a₁ ha₁).frame⟩
    obtain ⟨-, ⟨mb, hmb, hchunk⟩, hnot⟩ := taken_chunk hgot.core
    have hmono : ∀ xs, a₂.MonoList xs → pg ∉ xs := by
      intro xs hxs hin
      obtain ⟨ys, hys, hfar⟩ := hgot.core.mono
      rw [hxs.1.unique hys.1] at hin
      exact hfar pg hin mb hmb pg hchunk (inChunk_self T pg)
    have hmonos₂ : a₂.MonosOk := hfirst.1.same ⟨hgot.rest.2.1, hgot.rest.2.2⟩
      fun xs hxs m hm => hgot.block m fun heq => hmono xs hxs (heq ▸ hm)
    obtain ⟨hlay, hmonos'⟩ := putBlock_layout sc hgot.core hmonos₂
    obtain ⟨blocks, hcache, hmem⟩ := putBlock_cache a₂ sc pg sc
    obtain ⟨blocks₁, fullBlocks₁, hstatic⟩ := hfirst.2.static sc
    have hc : (a₂.putBlock sc pg).cache sc = { a.cache sc with
        blocks := blocks, fullBlocks := fullBlocks₁ } := by
      rw [hcache, hgot.cache, hstatic]
    have hsc' : sc ∈ (a₂.putBlock sc pg).caches := by
      show sc ∈ a₂.caches
      rw [hgot.caches, hfirst.2.caches]
      exact hsc
    have hpg : pg ∈ ((a₂.putBlock sc pg).cache sc).lists := (hmem pg).mpr (Or.inl ⟨rfl, rfl⟩)
    have hi : 0 < ((a₂.putBlock sc pg).cache sc).numEntries := by
      rw [hc]
      exact hpos
    have hval : pg + (a₂.cache sc).color * T.wordBytes =
        slotAddr T ((a₂.putBlock sc pg).cache sc) pg 0 := by
      rw [hcache, slotAddr, Nat.zero_mul, Nat.add_zero]
    have hfresh : ¬ (a₁.Allocated (pg + (a₂.cache sc).color * T.wordBytes) ∨
        a₁.IsMono (pg + (a₂.cache sc).color * T.wordBytes)) := by
      rintro (⟨sc', hsc₁, p, hp, j, hj, heq, -⟩ | ⟨xs, hxs, hin⟩)
      · -- an entry of another block
        rw [← hgot.caches] at hsc₁
        rw [← hgot.cache] at hp hj heq
        have hblk := (hgot.core.wf sc' hsc₁).slot_block (hgot.core.aligned hsc₁ hp) hj
        rw [← heq, hval, (hlay.slot_block hsc' hpg hi).1] at hblk
        exact hnot (hblk ▸ Core.mem_placed hsc₁ hp)
      · refine hlay.slot_not_mono hgeo hsc' hpg hi hval ⟨xs, ?_, hin⟩
        unfold MonoArena.MonoList at hxs ⊢
        show SList.Chain a₂.link a₂.monolithicBlocks xs ∧ _
        rwa [hgot.rest.2.1, hgot.rest.2.2]
    have hroom := slot_room hlay hgeo hmonos'.2 hsc' hpg hi hval hfresh
    have hptrs := hlay.slot_ptrs hsc' hpg hi hval
    rw [hc] at hroom hptrs
    refine ⟨_, a₂.putBlock sc pg, a₁, ?_, hor, hroom, hptrs⟩
    simp only [s_alloc, hblocks, hget]
    rfl

/-! ### The caches of arrays -/

/-- What holds between the calls: the lists are in order and the static arrays
hold the caches that `jhc_alloc_init` put there. -/
structure ArrayInv (P : ℕ → Prop) (st : ArrayCaches) (a : Arena T) : Prop extends Ok P a where
  monos : a.MonosOk
  entries : ∀ sc ∈ a.caches, 0 < (a.cache sc).numEntries
  arrays : ∀ i < GC_STATIC_ARRAY_NUM, st.array_caches i ∈ a.caches ∧
    (a.cache (st.array_caches i)).size = i + 1 ∧ (a.cache (st.array_caches i)).numPtrs = i + 1
  atomics : ∀ i < GC_STATIC_ARRAY_NUM, st.array_caches_atomic i ∈ a.caches ∧
    (a.cache (st.array_caches_atomic i)).size = i + 1 ∧
    (a.cache (st.array_caches_atomic i)).numPtrs = 0

/-- The result of `find_cache`. -/
structure Found (P : ℕ → Prop) (a : Arena T) (size numPtrs sc : ℕ) (a' : Arena T) : Prop where
  ok : Ok P a'
  monos : a'.MonosOk
  entries : ∀ sc ∈ a'.caches, 0 < (a'.cache sc).numEntries
  mem : sc ∈ a'.caches
  size_eq : (a'.cache sc).size = size
  ptrs_eq : (a'.cache sc).numPtrs = numPtrs
  old : ∀ sc' ∈ a.caches, sc' ∈ a'.caches ∧ a'.cache sc' = a.cache sc'
  base : ∀ base, a.FreshBase base → a'.FreshBase base

theorem find_cache_found {a : Arena T} (h : Ok P a) (hmonos : a.MonosOk)
    (hentries : ∀ sc ∈ a.caches, 0 < (a.cache sc).numEntries) {size numPtrs : ℕ}
    (hsize : Admits T size numPtrs) :
    Found P a size numPtrs (find_cache none a size numPtrs).1
      (find_cache none a size numPtrs).2 := by
  simp only [find_cache]
  split
  case h_1 sc hfind =>
    have hmem := List.mem_of_find?_eq_some hfind
    have hspec : (a.cache sc).size = size ∧ (a.cache sc).numPtrs = numPtrs := by
      simpa using List.find?_some hfind
    exact ⟨h, hmonos, hentries, hmem, hspec.1, hspec.2, fun _ hsc => ⟨hsc, rfl⟩, fun _ hb => hb⟩
  case h_2 =>
    have hnot : a.caches.length ∉ a.caches := fun hin => Nat.lt_irrefl _ (h.handles _ hin)
    have hself : (a.new_cache size numPtrs).2.cache a.caches.length =
        ⟨[], [], colorOf T (entriesOf T size % 2 ^ 16) % 2 ^ 8, size % 2 ^ 8, numPtrs % 2 ^ 8, 0,
          entriesOf T size % 2 ^ 16⟩ := Function.update_self ..
    have hold : ∀ sc ∈ a.caches, (a.new_cache size numPtrs).2.cache sc = a.cache sc := by
      intro sc hsc
      have hne : sc ≠ a.caches.length := fun heq => hnot (heq ▸ hsc)
      exact Function.update_of_ne hne ..
    have hmod := entriesOf_mod hsize
    have hok := new_cache_core h hsize
    obtain ⟨hpos, hlt, hptrs, hlo, -, -⟩ := hsize
    refine ⟨hok, hmonos, fun sc hsc => ?_, List.mem_cons_self, ?_, ?_,
      fun sc hsc => ⟨List.mem_cons_of_mem _ hsc, hold sc hsc⟩,
      fun base hb => ⟨hb.aligned, hb.mega, hb.mono⟩⟩
    · rcases List.mem_cons.mp hsc with rfl | hin
      · show 0 < ((a.new_cache size numPtrs).2.cache a.caches.length).numEntries
        rw [hself, hmod]
        show 0 < _ - 1
        omega
      · rw [hold sc hin]
        exact hentries sc hin
    · show ((a.new_cache size numPtrs).2.cache a.caches.length).size = size
      rw [hself]
      exact Nat.mod_eq_of_lt hlt
    · show ((a.new_cache size numPtrs).2.cache a.caches.length).numPtrs = numPtrs
      rw [hself]
      exact Nat.mod_eq_of_lt (by omega)

/-- The cache of an array below `GC_MAX_BLOCK_ENTRIES` and the arena in which
`s_alloc` is called; `statics` is one of the static arrays. -/
def arrayCache (statics : ℕ → ℕ) (count numPtrs : ℕ) (a : Arena T) : ℕ × Arena T :=
  if count ≤ GC_STATIC_ARRAY_NUM then (statics (count - 1), a)
  else if count < GC_MAX_BLOCK_ENTRIES then find_cache none a count numPtrs
  else (0, a)

theorem arrayCache_found {a : Arena T} (hgeo : ArrayGeometry T) (h : Ok P a) (hmonos : a.MonosOk)
    (hentries : ∀ sc ∈ a.caches, 0 < (a.cache sc).numEntries) (statics : ℕ → ℕ)
    {count numPtrs : ℕ} (hptrs : numPtrs = count ∨ numPtrs = 0) (hne : count ≠ 0)
    (hlt : count < GC_MAX_BLOCK_ENTRIES)
    (hstat : count ≤ GC_STATIC_ARRAY_NUM → statics (count - 1) ∈ a.caches ∧
      (a.cache (statics (count - 1))).size = count ∧
      (a.cache (statics (count - 1))).numPtrs = numPtrs) :
    Found P a count numPtrs (arrayCache statics count numPtrs a).1
      (arrayCache statics count numPtrs a).2 := by
  unfold arrayCache
  rw [if_pos hlt]
  split_ifs with hsmall
  · obtain ⟨hmem, hsize, hnum⟩ := hstat hsmall
    exact ⟨h, hmonos, hentries, hmem, hsize, hnum, fun _ hsc => ⟨hsc, rfl⟩, fun _ hb => hb⟩
  · obtain ⟨hfull, hzero⟩ := hgeo.slabs count hlt hne
    refine find_cache_found h hmonos hentries ?_
    rcases hptrs with rfl | rfl
    · exact hfull
    · exact hzero

theorem gc_array_alloc_slab (gc : Arena T → Option (Arena T)) (base : Addr) (st : ArrayCaches)
    {count : ℕ} (a : Arena T) (hne : count ≠ 0) (hlt : count < GC_MAX_BLOCK_ENTRIES) :
    gc_array_alloc gc base st count a =
      s_alloc gc base (arrayCache st.array_caches count count a).1
        (arrayCache st.array_caches count count a).2 := by
  unfold gc_array_alloc arrayCache
  simp only [if_neg hne, hlt, if_true]
  split_ifs
  · rfl
  · rfl

theorem gc_array_alloc_atomic_slab (gc : Arena T → Option (Arena T)) (base : Addr)
    (st : ArrayCaches) {count : ℕ} (a : Arena T) (hne : count ≠ 0)
    (hlt : count < GC_MAX_BLOCK_ENTRIES) :
    gc_array_alloc_atomic gc base st count 0 a =
      s_alloc gc base (arrayCache st.array_caches_atomic count 0 a).1
        (arrayCache st.array_caches_atomic count 0 a).2 := by
  unfold gc_array_alloc_atomic arrayCache
  simp only [if_neg hne, hlt, and_true, if_true]
  split_ifs
  · rfl
  · rfl

/-! ### jhc_alloc_init -/

/-- The first `n` entries of the static arrays are set; `a` is the arena at the
start of the loop. -/
structure InitInv (P : ℕ → Prop) (a : Arena T) (n : ℕ) (s : ArrayCaches × Arena T) : Prop where
  ok : Ok P s.2
  fresh : ∀ base, a.FreshBase base → s.2.FreshBase base
  monos : s.2.MonosOk
  entries : ∀ sc ∈ s.2.caches, 0 < (s.2.cache sc).numEntries
  arrays : ∀ i < n, s.1.array_caches i ∈ s.2.caches ∧
    (s.2.cache (s.1.array_caches i)).size = i + 1 ∧
    (s.2.cache (s.1.array_caches i)).numPtrs = i + 1
  atomics : ∀ i < n, s.1.array_caches_atomic i ∈ s.2.caches ∧
    (s.2.cache (s.1.array_caches_atomic i)).size = i + 1 ∧
    (s.2.cache (s.1.array_caches_atomic i)).numPtrs = 0

theorem initArrays_inv (hgeo : ArrayGeometry T) {a : Arena T} {n : ℕ}
    (hn : n < GC_STATIC_ARRAY_NUM) {s : ArrayCaches × Arena T} (h : InitInv P a n s) :
    InitInv P a (n + 1) (initArrays s n) := by
  have hlt : n + 1 < GC_MAX_BLOCK_ENTRIES := by
    unfold GC_STATIC_ARRAY_NUM at hn
    unfold GC_MAX_BLOCK_ENTRIES
    omega
  obtain ⟨hfull, hzero⟩ := hgeo.slabs (n + 1) hlt (Nat.succ_ne_zero n)
  have h₁ := find_cache_found h.ok h.monos h.entries hfull
  have h₂ := find_cache_found h₁.ok h₁.monos h₁.entries hzero
  have hold : ∀ sc ∈ s.2.caches, sc ∈ (initArrays s n).2.caches ∧
      (initArrays s n).2.cache sc = s.2.cache sc := by
    intro sc hsc
    obtain ⟨hin, hsame⟩ := h₁.old sc hsc
    obtain ⟨hin', hsame'⟩ := h₂.old sc hin
    exact ⟨hin', hsame'.trans hsame⟩
  refine ⟨h₂.ok, fun base hb => h₂.base base (h₁.base base (h.fresh base hb)), h₂.monos,
    h₂.entries, fun i hi => ?_, fun i hi => ?_⟩
  · by_cases hin : i = n
    · subst hin
      have hself : (initArrays s i).1.array_caches i =
          (find_cache none s.2 (i + 1) (i + 1)).1 := Function.update_self ..
      obtain ⟨hmem, hsame⟩ := h₂.old _ h₁.mem
      rw [hself]
      refine ⟨hmem, ?_, ?_⟩
      · exact (congrArg Cache.size hsame).trans h₁.size_eq
      · exact (congrArg Cache.numPtrs hsame).trans h₁.ptrs_eq
    · have hother : (initArrays s n).1.array_caches i = s.1.array_caches i :=
        Function.update_of_ne hin ..
      obtain ⟨hmem, hsize, hptrs⟩ := h.arrays i (by omega)
      rw [hother, (hold _ hmem).2]
      exact ⟨(hold _ hmem).1, hsize, hptrs⟩
  · by_cases hin : i = n
    · subst hin
      have hself : (initArrays s i).1.array_caches_atomic i =
          (find_cache none (find_cache none s.2 (i + 1) (i + 1)).2 (i + 1) 0).1 :=
        Function.update_self ..
      rw [hself]
      exact ⟨h₂.mem, h₂.size_eq, h₂.ptrs_eq⟩
    · have hother : (initArrays s n).1.array_caches_atomic i = s.1.array_caches_atomic i :=
        Function.update_of_ne hin ..
      obtain ⟨hmem, hsize, hptrs⟩ := h.atomics i (by omega)
      rw [hother, (hold _ hmem).2]
      exact ⟨(hold _ hmem).1, hsize, hptrs⟩

theorem jhc_alloc_init_inv (hgeo : ArrayGeometry T) {a : Arena T} (h : SlabInit a) :
    ArrayInv P (jhc_alloc_init a).1 (jhc_alloc_init a).2 ∧
      ∀ base, a.FreshBase base → (jhc_alloc_init a).2.FreshBase base := by
  have hnil : ∀ xs, a.MonoList xs → xs = [] := by
    obtain ⟨block, mem, rfl⟩ := h
    exact fun xs hxs => hxs.1.unique (show SList.Chain _ none [] from rfl)
  have hcaches : a.caches = [] := by
    obtain ⟨block, mem, rfl⟩ := h
    rfl
  have hinit : ∀ n ≤ GC_STATIC_ARRAY_NUM,
      InitInv P a n ((List.range n).foldl initArrays (⟨fun _ => 0, fun _ => 0⟩, a)) := by
    intro n
    induction n with
    | zero =>
      intro _
      refine ⟨ok_init h, fun _ hb => hb, ⟨fun xs hxs m hm => ?_, fun xs hxs m hm => ?_⟩, fun sc hsc => ?_,
        fun i hi => absurd hi (Nat.not_lt_zero i), fun i hi => absurd hi (Nat.not_lt_zero i)⟩
      · rw [hnil xs hxs] at hm
        exact absurd hm List.not_mem_nil
      · rw [hnil xs hxs] at hm
        exact absurd hm List.not_mem_nil
      · have hsc' : sc ∈ a.caches := hsc
        rw [hcaches] at hsc'
        exact absurd hsc' List.not_mem_nil
    | succ n ih =>
      intro hn
      rw [List.range_succ, List.foldl_append]
      exact initArrays_inv hgeo hn (ih (by omega))
  have hall : InitInv P a GC_STATIC_ARRAY_NUM (jhc_alloc_init a) := by
    unfold jhc_alloc_init
    exact hinit _ le_rfl
  generalize jhc_alloc_init a = s at hall ⊢
  exact ⟨⟨hall.ok, hall.monos, hall.entries, hall.arrays, hall.atomics⟩, hall.fresh⟩

/-! ### Arrays of any size -/

theorem addMonolith_bounded {a : Arena T} (hmonos : a.MonosOk) {base : Addr}
    (hbase : a.FreshBase base) {xs : List Addr} (hxs : a.MonoList xs) {nptrs flags : ℕ}
    (hfits : (colorOf T 1 + nptrs) * T.wordBytes ≤ T.megablockSize) :
    (a.addMonolith base nptrs flags).Bounded := by
  intro ys hys m hm
  have hlisted := hbase.not_listed hxs
  rw [hys.1.unique (addMonolith_list nptrs flags hxs hlisted).1] at hm
  rcases List.mem_cons.mp hm with rfl | hold
  · rw [(addMonolith_self a m nptrs flags).2.2.1]
    exact hfits
  · have hne : m ≠ base := fun heq => hlisted (heq ▸ hold)
    rw [addMonolith_other hne]
    exact hmonos.2 xs hxs m hold

theorem addMonolith_fresh (hgeo : ArrayGeometry T) {a : Arena T} (h : Listed P a) {base : Addr}
    (hbase : a.FreshBase base) :
    ¬ (a.Allocated (monoAddr T base) ∨ a.IsMono (monoAddr T base)) := by
  obtain ⟨xs, hxs, -⟩ := h.mono
  have hlay := (addMonolith_listed h hbase 0 0).layout
  have hxs' := addMonolith_list 0 0 hxs (hbase.not_listed hxs)
  have hblk := hlay.mono_block hgeo hxs' List.mem_cons_self
  rintro (⟨sc, hsc, pg, hpg, i, hi, heq, -⟩ | ⟨ys, hys, m, hm, heq⟩)
  · have hslot := (h.layout.slot_block hsc hpg hi).1
    rw [← heq, hblk] at hslot
    exact hbase.not_placed h.toCore (hslot ▸ Core.mem_placed hsc hpg)
  · have hslot := h.layout.mono_block hgeo hys hm
    rw [← heq, hblk] at hslot
    exact hbase.not_listed hys (hslot ▸ hm)

/-- An array as a monolith has room exactly when it ends in the memory of one
`jhc_aligned_alloc`. -/
theorem monolith_fits (hgeo : ArrayGeometry T) {a a₁ : Arena T} (h : Listed P a) {base : Addr}
    (hbase : a.FreshBase base) {count flags : ℕ}
    (hroom : HasRoom a₁ (a.addMonolith base count flags) (monoAddr T base) count) :
    (colorOf T 1 + count) * T.wordBytes ≤ T.megablockSize := by
  obtain ⟨xs, hxs, -⟩ := h.mono
  have hxs' := addMonolith_list count flags hxs (hbase.not_listed hxs)
  have hlay := (addMonolith_listed h hbase count flags).layout
  have hblk := hlay.mono_block hgeo hxs' List.mem_cons_self
  have hin := hroom.inside.2
  unfold memoryOf at hin
  simp only [hblk, (addMonolith_self a base count flags).1, monolith_flag, if_true] at hin
  unfold monoAddr at hin
  rw [Nat.add_assoc, ← Nat.add_mul] at hin
  exact Nat.add_le_add_iff_left.mp hin

theorem monolith_room (hgeo : ArrayGeometry T) {a : Arena T} (h : Listed P a)
    (hmonos : a.MonosOk) {base : Addr} (hbase : a.FreshBase base) {count : ℕ} (flags : ℕ)
    (hfits : (colorOf T 1 + count) * T.wordBytes ≤ T.megablockSize) :
    HasRoom a (a.addMonolith base count flags) (monoAddr T base) count := by
  obtain ⟨xs, hxs, -⟩ := h.mono
  have hxs' := addMonolith_list count flags hxs (hbase.not_listed hxs)
  have hlay := (addMonolith_listed h hbase count flags).layout
  refine mono_room hlay hgeo (addMonolith_bounded hmonos hbase hxs hfits) hxs'
    List.mem_cons_self rfl ?_ (fun m hm hne => ?_) (addMonolith_fresh hgeo h hbase)
  · rw [(addMonolith_self a base count flags).2.2.1]
    rfl
  · have hold := (List.mem_cons.mp hm).resolve_left hne
    have hal := (hmonos.1 xs hxs m hold).aligned
    exact (monos_apart hbase.aligned hal (hbase.mono xs hxs m hold)).symm

/-- `s_monoblock` is told that every word of an atomic array is a pointer. -/
theorem monolith_scanned (hgeo : ArrayGeometry T) {a : Arena T} (h : Listed P a) {base : Addr}
    (hbase : a.FreshBase base) {count : ℕ} (hne : count ≠ 0) (flags : ℕ) :
    ¬ (a.addMonolith base count flags).Unscanned (monoAddr T base) := by
  intro hscan
  obtain ⟨xs, hxs, -⟩ := h.mono
  have hxs' := addMonolith_list count flags hxs (hbase.not_listed hxs)
  have hblk := (addMonolith_listed h hbase count flags).layout.mono_block hgeo hxs'
    List.mem_cons_self
  refine hscan 0 ?_
  unfold ptrs
  rw [hblk, (addMonolith_self a base count flags).2.2.1]
  exact Nat.pos_of_ne_zero hne

/-- What the call promises, where it took the object in `prepared` or in the
arena of a collection. -/
def RoomFor (gc : Arena T → Option (Arena T)) (prepared a' : Arena T) (val count : ℕ) : Prop :=
  ∃ a₁, (a₁ = prepared ∨ gcCall gc prepared = some a₁) ∧ HasRoom a₁ a' val count

theorem gc_array_alloc_room (hgeo : ArrayGeometry T) {gc : Arena T → Option (Arena T)}
    {base : Addr} {st : ArrayCaches} {count : ℕ} {a : Arena T} (h : ArrayInv P st a)
    (hbase : a.FreshBase base)
    (hgc : ∃ a₁, gcCall gc (arrayCache st.array_caches count count a).2 = some a₁ ∧
      GcKept P (arrayCache st.array_caches count count a).2 a₁) :
    ∃ val a', gc_array_alloc gc base st count a = some (val, a') ∧
      ((count = 0 ∨ RoomFor gc (arrayCache st.array_caches count count a).2 a' val count) ↔
        count < GC_MAX_BLOCK_ENTRIES ∨
          (colorOf T 1 + count) * T.wordBytes ≤ T.megablockSize) := by
  have hmax : 0 < GC_MAX_BLOCK_ENTRIES := by decide
  by_cases hzero : count = 0
  · subst hzero
    exact ⟨0, a, rfl, iff_of_true (Or.inl rfl) (Or.inl hmax)⟩
  by_cases hlt : count < GC_MAX_BLOCK_ENTRIES
  · have hfound := arrayCache_found hgeo h.toOk h.monos h.entries
      st.array_caches (Or.inl rfl) hzero hlt fun hsmall => by
        obtain ⟨hmem, hsize, hptrs⟩ := h.arrays (count - 1) (by omega)
        exact ⟨hmem, by omega, by omega⟩
    obtain ⟨val, a', a₁, hrun, hor, hroom, -⟩ := s_alloc_room hgeo hfound.ok hfound.monos
      hfound.mem (hfound.entries _ hfound.mem) (hfound.base base hbase) hgc
    rw [hfound.size_eq] at hroom
    refine ⟨val, a', ?_, iff_of_true (Or.inr ⟨a₁, hor, hroom⟩) (Or.inl hlt)⟩
    rw [gc_array_alloc_slab gc base st a hzero hlt]
    exact hrun
  · have hbig : ¬ count ≤ GC_STATIC_ARRAY_NUM := by
      unfold GC_MAX_BLOCK_ENTRIES at hlt
      unfold GC_STATIC_ARRAY_NUM
      omega
    have hprep : (arrayCache st.array_caches count count a).2 = a := by
      unfold arrayCache
      rw [if_neg hbig, if_neg hlt]
    have hlisted : Listed P a := ⟨h.toCore, h.monos.1⟩
    refine ⟨monoAddr T base, a.addMonolith base count 0, ?_, ?_⟩
    · unfold gc_array_alloc
      rw [if_neg hzero, if_neg hbig, if_neg hlt]
    · rw [hprep, or_iff_right hzero, or_iff_right hlt]
      constructor
      · rintro ⟨a₁, -, hroom⟩
        exact monolith_fits hgeo hlisted hbase hroom
      · intro hfits
        exact ⟨a, Or.inl rfl, monolith_room hgeo hlisted h.monos hbase 0 hfits⟩

theorem gc_array_alloc_atomic_room (hgeo : ArrayGeometry T) {gc : Arena T → Option (Arena T)}
    {base : Addr} {st : ArrayCaches} {count : ℕ} (flags : ℕ) {a : Arena T} (h : ArrayInv P st a)
    (hbase : a.FreshBase base)
    (hgc : ∃ a₁, gcCall gc (arrayCache st.array_caches_atomic count 0 a).2 = some a₁ ∧
      GcKept P (arrayCache st.array_caches_atomic count 0 a).2 a₁) :
    ∃ val a', gc_array_alloc_atomic gc base st count flags a = some (val, a') ∧
      ((count = 0 ∨ RoomFor gc (arrayCache st.array_caches_atomic count 0 a).2 a' val count ∧
          a'.Unscanned val) ↔
        count = 0 ∨ count < GC_MAX_BLOCK_ENTRIES ∧ flags = 0) := by
  by_cases hzero : count = 0
  · subst hzero
    exact ⟨0, a, rfl, iff_of_true (Or.inl rfl) (Or.inl rfl)⟩
  by_cases hslab : count < GC_MAX_BLOCK_ENTRIES ∧ flags = 0
  · obtain ⟨hlt, rfl⟩ := hslab
    have hfound := arrayCache_found hgeo h.toOk h.monos
      h.entries st.array_caches_atomic (Or.inr rfl) hzero hlt fun hsmall => by
        obtain ⟨hmem, hsize, hptrs⟩ := h.atomics (count - 1) (by omega)
        exact ⟨hmem, by omega, hptrs⟩
    obtain ⟨val, a', a₁, hrun, hor, hroom, hptrs⟩ := s_alloc_room hgeo hfound.ok hfound.monos
      hfound.mem (hfound.entries _ hfound.mem) (hfound.base base hbase) hgc
    rw [hfound.size_eq] at hroom
    rw [hfound.ptrs_eq] at hptrs
    have hscan : a'.Unscanned val := fun i hi => Nat.not_lt_zero i (hptrs ▸ hi)
    refine ⟨val, a', ?_, iff_of_true (Or.inr ⟨⟨a₁, hor, hroom⟩, hscan⟩) (Or.inr ⟨hlt, rfl⟩)⟩
    rw [gc_array_alloc_atomic_slab gc base st a hzero hlt]
    exact hrun
  · have hsmall : ¬ (count ≤ GC_STATIC_ARRAY_NUM ∧ flags = 0) := by
      rintro ⟨hle, hflags⟩
      refine hslab ⟨?_, hflags⟩
      unfold GC_STATIC_ARRAY_NUM at hle
      unfold GC_MAX_BLOCK_ENTRIES
      omega
    refine ⟨monoAddr T base, a.addMonolith base count flags, ?_, ?_⟩
    · unfold gc_array_alloc_atomic
      rw [if_neg hzero, if_neg hsmall, if_neg hslab]
    · refine iff_of_false ?_ (not_or.mpr ⟨hzero, hslab⟩)
      rintro (h0 | ⟨-, hscan⟩)
      · exact hzero h0
      · exact monolith_scanned hgeo ⟨h.toCore, h.monos.1⟩ hbase hzero flags hscan

theorem gcKept_some {a : Arena T} (h : Ok P a) (hmonos : a.MonosOk) :
    ∃ a₁, gcCall some a = some a₁ ∧ GcKept P a a₁ :=
  ⟨_, rfl, ⟨h.toCore.counters _ _, h.partly⟩,
    ⟨rfl, fun _ => ⟨_, _, rfl⟩, rfl, rfl, fun xs hxs => ⟨xs, hxs, fun _ hy => hy⟩⟩, hmonos⟩

theorem started_inv : ArrayInv P (jhc_alloc_init emptyArena).1 (jhc_alloc_init emptyArena).2 :=
  (jhc_alloc_init_inv lp64_geometry ⟨_, _, rfl⟩).1

theorem started_fresh : (jhc_alloc_init emptyArena).2.FreshBase 1048576 :=
  (jhc_alloc_init_inv (P := fun _ => True) lp64_geometry ⟨_, _, rfl⟩).2 _ emptyArena_fresh

theorem started_kept {statics : ℕ → ℕ} {count numPtrs : ℕ}
    (hfound : Found P (jhc_alloc_init emptyArena).2 count numPtrs
      (arrayCache statics count numPtrs (jhc_alloc_init emptyArena).2).1
      (arrayCache statics count numPtrs (jhc_alloc_init emptyArena).2).2) :
    ∃ a₁, gcCall some (arrayCache statics count numPtrs (jhc_alloc_init emptyArena).2).2 =
      some a₁ ∧ GcKept P (arrayCache statics count numPtrs (jhc_alloc_init emptyArena).2).2 a₁ :=
  gcKept_some hfound.ok hfound.monos

end Arena

end Jhc.Rts

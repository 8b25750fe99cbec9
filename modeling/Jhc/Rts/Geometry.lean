import Jhc.Rts.SlabAlloc

/-!
# The geometry of caches (rts/gc_jgc.c:565-582, 623-639, rts/gc_jgc_internal.h:28-61)

Which requests of generated code the cache that `new_cache` makes can serve: the fields of a
cache and of a block are narrower than the parameters.
-/

namespace Jhc.Rts

/-- The objects of a request have a place of their own in each block of the cache. -/
structure Cache.Serves (T : Target) (sc : Cache) (size numPtrs : ℕ) : Prop where
  entries : 1 ≤ sc.numEntries
  disjoint : ∀ pg, ∀ i < sc.numEntries, ∀ j < i,
    slotAddr T sc pg j + size * T.wordBytes ≤ slotAddr T sc pg i
  inside : ∀ pg, ∀ i < sc.numEntries, slotAddr T sc pg i + size * T.wordBytes ≤ pg + T.blockSize
  bits : sc.numEntries ≤ T.bitsPerUnit * T.bitarraySize sc.numEntries
  bitmap : ∀ pg, pg + T.headerBytes + T.bitarrayBytes sc.numEntries ≤ slotAddr T sc pg 0
  size_eq : sc.size = size
  ptrs_eq : sc.numPtrs = numPtrs
  header : ∀ b : SBlock T.bitsPerUnit, ∃ f x, (Arena.initBlock sc b).u = .pi numPtrs size f x

/-- The objects that the block has room for, each with its bit. -/
def room (T : Target) (size : ℕ) : ℕ :=
  8 * (T.blockSize - T.headerBytes) / (8 * T.wordBytes * size + 1)

/-- There is room for two objects, and the number of all but one of them and their
first word fit an `unsigned short` and an `unsigned char`. -/
def Roomy (T : Target) (size : ℕ) : Prop :=
  2 ≤ room T size ∧ (room T size - 1) % 2 ^ 16 ≠ 0 ∧ Arena.colorOf T ((room T size - 1) % 2 ^ 16) < 2 ^ 8

instance (T : Target) (size : ℕ) : Decidable (Roomy T size) := by
  unfold Roomy
  infer_instance

theorem colorOf_mono (T : Target) {n m : ℕ} (h : n ≤ m) : Arena.colorOf T n ≤ Arena.colorOf T m := by
  have hwords : T.bitarraySize n ≤ T.bitarraySize m := Nat.div_le_div_right (by omega)
  have hbytes : T.bitarrayBytes n ≤ T.bitarrayBytes m := Nat.mul_le_mul_left _ hwords
  exact Nat.div_le_div_right (by omega)

theorem headerBytes_le (T : Target) : T.headerBytes ≤ 5 * T.wordBytes := by
  have hpos := T.word_pos
  obtain ⟨k, hk⟩ := T.word_dvd
  have hin := Nat.div_mul_le_self (T.wordBytes + 2 + 3) 4
  have hout := Nat.div_mul_le_self (Target.align 4 (T.wordBytes + 2) + 8 + (T.wordBytes - 1)) T.wordBytes
  unfold Target.headerBytes
  rw [Target.align]
  unfold Target.align at hout ⊢
  omega

theorem entriesOf_room (T : Target) {size : ℕ} (h : room T size ≠ 0) :
    Arena.entriesOf T size % 2 ^ 16 = (room T size - 1) % 2 ^ 16 := by
  unfold Arena.entriesOf
  change (room T size + (2 ^ 16 - 1)) % 2 ^ 16 = _
  omega

theorem entriesOf_full (T : Target) {size : ℕ} (h : room T size = 0) :
    Arena.entriesOf T size % 2 ^ 16 = 2 ^ 16 - 1 := by
  unfold Arena.entriesOf
  change (room T size + (2 ^ 16 - 1)) % 2 ^ 16 = _
  omega

theorem room_fits {T : Target} {size n : ℕ} (hsize : 0 < size) (hn : n + 1 ≤ room T size) :
    (Arena.colorOf T n + n * size) * T.wordBytes ≤ T.blockSize := by
  have hle : n ≤ room T size - 1 := by omega
  have hfit : (Arena.colorOf T (room T size - 1) + (room T size - 1) * size) * T.wordBytes ≤ T.blockSize :=
    entries_fit hsize (by change room T size - 1 + 1 = room T size; omega)
  refine le_trans (Nat.mul_le_mul_right _ ?_) hfit
  exact Nat.add_le_add (colorOf_mono T hle) (Nat.mul_le_mul_right _ hle)

/-- Without room for an object the block ends before the last entry. -/
theorem room_ne_zero {T : Target} {size : ℕ} (hsize : 0 < size)
    (hfit : (2 ^ 16 - 1) * (size * T.wordBytes) ≤ T.blockSize) : room T size ≠ 0 := by
  intro hzero
  have hlt : 8 * (T.blockSize - T.headerBytes) < 8 * T.wordBytes * size + 1 := by
    rcases Nat.div_eq_zero_iff.mp hzero with h | h
    · omega
    · exact h
  have hheader := headerBytes_le T
  have hword : T.wordBytes ≤ size * T.wordBytes := Nat.le_mul_of_pos_left _ hsize
  have hpos := T.word_pos
  have hcomm : 8 * T.wordBytes * size = 8 * (size * T.wordBytes) := by ring
  rw [hcomm] at hlt
  omega

theorem initBlock_header (T : Target) (sc : Cache) (b : SBlock T.bitsPerUnit) :
    ∃ f x, (Arena.initBlock sc b).u = .pi sc.numPtrs sc.size f x := by
  unfold Arena.initBlock
  split <;> exact ⟨_, _, rfl⟩

/-- Entries of a number for which the block has room. -/
theorem serves_of_room {T : Target} {size numPtrs n : ℕ} (hsize : 0 < size) (hpos : 0 < n)
    (hn : n + 1 ≤ room T size) : Cache.Serves T ⟨[], [], Arena.colorOf T n, size, numPtrs, 0, n⟩ size numPtrs := by
  have hfits := room_fits hsize hn
  have hexpand : ∀ i, (Arena.colorOf T n + (i + 1) * size) * T.wordBytes =
      (Arena.colorOf T n + i * size) * T.wordBytes + size * T.wordBytes := fun i => by ring
  have hmono : ∀ i j, i ≤ j →
      (Arena.colorOf T n + i * size) * T.wordBytes ≤ (Arena.colorOf T n + j * size) * T.wordBytes :=
    fun i j hij => Nat.mul_le_mul_right _ (Nat.add_le_add_left (Nat.mul_le_mul_right _ hij) _)
  refine ⟨hpos, ?_, ?_, (T.bitarraySize_spec n hpos).2.1, ?_, rfl, rfl, initBlock_header T _⟩
  · intro pg i _ j hj
    have hle := hmono (j + 1) i hj
    rw [hexpand] at hle
    change (_ : ℕ) ≤ _
    simp only [slotAddr]
    omega
  · intro pg i hi
    have hle := hmono (i + 1) n hi
    rw [hexpand] at hle
    change (_ : ℕ) ≤ _
    simp only [slotAddr]
    omega
  · intro pg
    have hcolor := colorOf_words T n
    change (_ : ℕ) ≤ _
    simp only [slotAddr, Nat.zero_mul, Nat.add_zero, hcolor]
    omega

/-- A cache of `new_cache` that serves its request has the room. -/
theorem Cache.Serves.roomy {T : Target} {size numPtrs n : ℕ} {sc : Cache} (hsize : 0 < size)
    (hn : n = Arena.entriesOf T size % 2 ^ 16) (hentries : sc.numEntries = n)
    (hcolor : sc.color = Arena.colorOf T n % 2 ^ 8) (h : sc.Serves T size numPtrs) : Roomy T size := by
  have hroom : room T size ≠ 0 := by
    intro hzero
    have hfull := entriesOf_full T hzero
    have hin : (_ : ℕ) ≤ _ := h.inside 0 (2 ^ 16 - 2) (by omega)
    have hexpand : (sc.color + (2 ^ 16 - 2) * size) * T.wordBytes =
        sc.color * T.wordBytes + (2 ^ 16 - 2) * (size * T.wordBytes) := by ring
    rw [slotAddr, h.size_eq, hexpand] at hin
    exact room_ne_zero hsize (by omega) hzero
  have hmod := entriesOf_room T hroom
  have hpos := h.entries
  have hbitmap := h.bitmap 0
  have hwords := colorOf_words T n
  rw [slotAddr, Nat.zero_mul, Nat.add_zero, Nat.zero_add, Nat.zero_add, hcolor, hentries, ← hwords] at hbitmap
  have hcol := Nat.le_of_mul_le_mul_right hbitmap T.word_pos
  have hlt := Nat.mod_lt (Arena.colorOf T n) (by decide : 2 ^ 8 > 0)
  rw [hn, hmod] at hentries hcol hlt
  exact ⟨by omega, by omega, by omega⟩

/-- In blocks of up to 32 KiB the fields hold every number of entries. -/
theorem roomy_iff {T : Target} (hshift : T.blockShift ≤ 15) {size : ℕ} (hsize : 0 < size) :
    Roomy T size ↔ 2 * (8 * T.wordBytes * size + 1) ≤ 8 * (T.blockSize - T.headerBytes) := by
  have hroom : 2 ≤ room T size ↔ 2 * (8 * T.wordBytes * size + 1) ≤ 8 * (T.blockSize - T.headerBytes) :=
    Nat.le_div_iff_mul_le (Nat.succ_pos _)
  rw [← hroom]
  refine ⟨fun h => h.1, fun htwo => ?_⟩
  have hblock : T.blockSize ≤ 2 ^ 15 := Nat.pow_le_pow_right (by omega) hshift
  have hword : 4 ≤ T.wordBytes := Nat.le_of_dvd T.word_pos T.word_dvd
  have hwide : T.wordBytes ≤ T.wordBytes * size := Nat.le_mul_of_pos_right _ hsize
  have hobject : 33 ≤ 8 * T.wordBytes * size + 1 := by
    rw [Nat.mul_assoc]
    omega
  have hmul : room T size * (8 * T.wordBytes * size + 1) ≤ 8 * (T.blockSize - T.headerBytes) := Nat.div_mul_le_self _ _
  have hcount : room T size * 33 ≤ room T size * (8 * T.wordBytes * size + 1) := Nat.mul_le_mul_left _ hobject
  have hmod : (room T size - 1) % 2 ^ 16 = room T size - 1 := Nat.mod_eq_of_lt (by omega)
  rw [Roomy, hmod]
  have hcolor := colorOf_words T (room T size - 1)
  have hheader := headerBytes_le T
  have hbits := bitarrayBytes_le T (room T size - 1)
  have hle : Arena.colorOf T (room T size - 1) * T.wordBytes ≤ 255 * T.wordBytes := by omega
  have hcol := Nat.le_of_mul_le_mul_right hle T.word_pos
  exact ⟨htwo, by omega, by omega⟩

/--
The cache that a call makes serves the request exactly when its two values fit an
`unsigned char` and the block has the room. The parameters of the call are `unsigned short`.
-/
theorem new_cache_serves_iff (T : Target) (a : Arena T) (size numPtrs : ℕ) (hsize : 0 < size) :
    (((a.new_cache (size % 2 ^ 16) (numPtrs % 2 ^ 16)).2.cache a.caches.length).Serves T size numPtrs ↔
        size < 2 ^ 8 ∧ numPtrs < 2 ^ 8 ∧ Roomy T size) ∧
      (T.blockShift ≤ 15 →
        (Roomy T size ↔ 2 * (8 * T.wordBytes * size + 1) ≤ 8 * (T.blockSize - T.headerBytes))) := by
  refine ⟨?_, fun hshift => roomy_iff hshift hsize⟩
  have hcache : (a.new_cache (size % 2 ^ 16) (numPtrs % 2 ^ 16)).2.cache a.caches.length =
      ⟨[], [], Arena.colorOf T (Arena.entriesOf T (size % 2 ^ 16) % 2 ^ 16) % 2 ^ 8,
        size % 2 ^ 16 % 2 ^ 8, numPtrs % 2 ^ 16 % 2 ^ 8, 0, Arena.entriesOf T (size % 2 ^ 16) % 2 ^ 16⟩ := by
    simp [Arena.new_cache, Arena.setCache]
  rw [hcache]
  constructor
  · intro h
    have hsz : size % 2 ^ 16 % 2 ^ 8 = size := h.size_eq
    have hptrs : numPtrs % 2 ^ 16 % 2 ^ 8 = numPtrs := h.ptrs_eq
    have hid : size % 2 ^ 16 = size := by omega
    refine ⟨by omega, by omega, h.roomy hsize ?_ rfl rfl⟩
    rw [hid]
  · rintro ⟨hsz, hptrs, hroomy⟩
    have htwo := hroomy.1
    have hentries : Arena.entriesOf T size % 2 ^ 16 = (room T size - 1) % 2 ^ 16 := entriesOf_room T (by omega)
    rw [show size % 2 ^ 16 = size by omega, show numPtrs % 2 ^ 16 = numPtrs by omega, Nat.mod_eq_of_lt hsz,
      Nat.mod_eq_of_lt hptrs, hentries, Nat.mod_eq_of_lt hroomy.2.2]
    have hle := Nat.mod_le (room T size - 1) (2 ^ 16)
    exact serves_of_room hsize (Nat.pos_of_ne_zero hroomy.2.1) (by omega)

/-- Two objects of 254 words -/
theorem new_cache_serves_254 :
    ((emptyArena.new_cache (254 % 2 ^ 16) (254 % 2 ^ 16)).2.cache 0).Serves Target.lp64 254 254 ∧
      (Roomy Target.lp64 254 ↔
        2 * (8 * Target.lp64.wordBytes * 254 + 1) ≤ 8 * (Target.lp64.blockSize - Target.lp64.headerBytes)) :=
  ⟨(new_cache_serves_iff Target.lp64 emptyArena 254 254 (by decide)).1.2 (by decide),
    (new_cache_serves_iff Target.lp64 emptyArena 254 254 (by decide)).2 (by decide)⟩

/-- No object of 255 words: the cache has no entry. -/
theorem new_cache_not_serves_255 :
    ¬ ((emptyArena.new_cache (255 % 2 ^ 16) (255 % 2 ^ 16)).2.cache 0).Serves Target.lp64 255 255 := by
  intro h
  have hentries := h.entries
  revert hentries
  decide

end Jhc.Rts

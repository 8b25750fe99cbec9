import Jhc.Rts.Slab

/-!
# Sweeping the slab caches (rts/gc_jgc.c:439-491)

What `s_cleanup_blocks` does to the lists of the caches, and what a whole
collection leaves allocated.
-/

namespace Jhc.Rts

/-! ### Moving blocks between the lists of one cache and the free list -/

theorem flatMap_update_perm {f : ℕ → List Addr} {caches : List ℕ} {sc : ℕ}
    {l t t' x x' : List Addr} (hnd : caches.Nodup) (hsc : sc ∈ caches)
    (h : (t' ++ (l ++ x')).Perm (t ++ (f sc ++ x))) :
    (t' ++ (caches.flatMap (Function.update f sc l) ++ x')).Perm (t ++ (caches.flatMap f ++ x)) := by
  obtain ⟨l₁, l₂, rfl⟩ := List.append_of_mem hsc
  obtain ⟨-, hnd₂, hdis⟩ := List.nodup_append.mp hnd
  have hold : ∀ ys : List ℕ, sc ∉ ys → ys.flatMap (Function.update f sc l) = ys.flatMap f := by
    intro ys hys
    refine List.flatMap_congr fun y hy => ?_
    have hne : y ≠ sc := fun heq => hys (heq ▸ hy)
    exact Function.update_of_ne hne ..
  have h₁ : sc ∉ l₁ := fun hin => hdis sc hin sc List.mem_cons_self rfl
  have h₂ : sc ∉ l₂ := (List.nodup_cons.mp hnd₂).1
  rw [List.flatMap_append, List.flatMap_cons, hold l₁ h₁, hold l₂ h₂, Function.update_self,
    List.flatMap_append, List.flatMap_cons]
  rw [List.perm_iff_count] at h ⊢
  intro y
  have hy := h y
  simp only [List.count_append] at hy ⊢
  omega

namespace Arena

variable {T : Target} {P : ℕ → Prop}

/-- New lists for the cache `sc`, a new free list and new headers for blocks
that are on no other list. -/
theorem Core.relist {taken taken' : List Addr} {a : Arena T} (h : Core P taken a) {sc : ℕ}
    (hsc : sc ∈ a.caches) {blocks fullBlocks freeBlocks : List Addr}
    {f : Addr → SBlock T.bitsPerUnit} (used : BitVec 32)
    (hperm : (taken' ++ ((blocks ++ fullBlocks) ++ freeBlocks)).Perm
      (taken ++ ((a.cache sc).lists ++ a.freeBlocks)))
    (hadm : ∀ pg ∈ blocks ++ fullBlocks, P (a.cache sc).numEntries)
    (hhold : ∀ pg ∈ blocks ++ fullBlocks, (a.cache sc).Holds (f pg))
    (hfree : ∀ pg ∈ freeBlocks, FreeBlock P (f pg))
    (hsame : ∀ sc' ∈ a.caches, sc' ≠ sc → ∀ pg ∈ (a.cache sc').lists, f pg = a.block pg) :
    Core P taken' { a with
      block := f
      cache := Function.update a.cache sc
        { a.cache sc with blocks := blocks, fullBlocks := fullBlocks }
      freeBlocks := freeBlocks
      blockUsed := used } := by
  have hcache : ∀ sc', sc' ≠ sc → Function.update a.cache sc
      { a.cache sc with blocks := blocks, fullBlocks := fullBlocks } sc' = a.cache sc' :=
    fun sc' hne => Function.update_of_ne hne ..
  constructor
  · exact h.nodup
  · exact h.handles
  · intro sc' hsc'
    by_cases heq : sc' = sc
    · subst heq
      have hwf := h.wf sc' hsc
      simp only [Function.update_self]
      exact ⟨hwf.size_pos, hwf.ptrs_le, hwf.flags, hwf.entries_lt, hwf.fits⟩
    · simp only [hcache sc' heq]
      exact h.wf sc' hsc'
  · intro sc' hsc' pg hpg
    by_cases heq : sc' = sc
    · subst heq
      simp only [Function.update_self] at hpg ⊢
      exact hadm pg hpg
    · simp only [hcache sc' heq] at hpg ⊢
      exact h.admits sc' hsc' pg hpg
  · intro sc' hsc' pg hpg
    by_cases heq : sc' = sc
    · subst heq
      simp only [Function.update_self] at hpg ⊢
      have hh := hhold pg hpg
      exact ⟨hh.flags, hh.color, hh.header, hh.inv⟩
    · simp only [hcache sc' heq] at hpg ⊢
      rw [hsame sc' hsc' heq pg hpg]
      exact h.block sc' hsc' pg hpg
  · exact hfree
  · have hupd : (fun sc' => (Function.update a.cache sc
        { a.cache sc with blocks := blocks, fullBlocks := fullBlocks } sc').lists) =
        Function.update (fun sc' => (a.cache sc').lists) sc (blocks ++ fullBlocks) := by
      funext sc'
      by_cases heq : sc' = sc
      · subst heq
        simp [Cache.lists]
      · simp [heq]
    have hnew := flatMap_update_perm (f := fun sc' => (a.cache sc').lists) h.nodup hsc hperm
    rw [← hupd] at hnew
    exact hnew.trans h.place
  · exact h.once
  · exact ⟨h.mega.aligned, h.mega.bound, h.mega.current, h.mega.disjoint⟩
  · exact h.mono

/-! ### The loop over the blocks of one cache -/

def Sweep.all (s : Sweep) : List Addr :=
  (s.best.toList ++ s.blocks) ++ s.fullBlocks ++ s.freeBlocks

/-- What the loop has done to the blocks it has seen. -/
structure SweepInv (numFree : Addr → ℕ) (n : ℕ) (free : List Addr) (s : Sweep) : Prop where
  partly : ∀ pg ∈ s.best.toList ++ s.blocks, numFree pg ≠ 0
  freed : ∀ pg ∈ s.freeBlocks, pg ∈ free ∨ numFree pg = n
  grown : ∀ pg ∈ free, pg ∈ s.freeBlocks

theorem sweepBlock_spec {numFree : Addr → ℕ} {n : ℕ} {free : List Addr} {s : Sweep}
    (h : SweepInv numFree n free s) (pg : Addr) :
    SweepInv numFree n free (sweepBlock numFree n s pg) ∧
      (sweepBlock numFree n s pg).all.Perm (pg :: s.all) := by
  have hpartly := h.partly
  unfold sweepBlock
  by_cases hfull : numFree pg = 0
  · rw [if_pos hfull]
    refine ⟨⟨h.partly, h.freed, h.grown⟩, ?_⟩
    rw [List.perm_iff_count]
    intro x
    simp only [Sweep.all, List.count_append, List.count_cons]
    omega
  · rw [if_neg hfull]
    by_cases hempty : numFree pg = n
    · rw [if_pos hempty]
      refine ⟨⟨h.partly, ?_, fun x hx => List.mem_cons_of_mem _ (h.grown x hx)⟩, ?_⟩
      · intro x hx
        rcases List.mem_cons.mp hx with rfl | htail
        · exact Or.inr hempty
        · exact h.freed x htail
      · rw [List.perm_iff_count]
        intro x
        simp only [Sweep.all, List.count_append, List.count_cons]
        omega
    · rw [if_neg hempty]
      cases hbest : s.best with
      | none =>
        refine ⟨⟨?_, h.freed, h.grown⟩, ?_⟩
        · intro x hx
          simp only [Option.toList_some, List.singleton_append, List.mem_cons] at hx
          rcases hx with rfl | htail
          · exact hfull
          · exact h.partly x (List.mem_append_right _ htail)
        · simp [Sweep.all, hbest]
      | some best =>
        have hb : numFree best ≠ 0 := h.partly best (by simp [hbest])
        by_cases hless : numFree pg < s.freeBest
        · simp only [if_pos hless]
          refine ⟨⟨?_, h.freed, h.grown⟩, ?_⟩
          · intro x hx
            simp only [Option.toList_some, List.singleton_append, List.mem_cons] at hx
            rcases hx with rfl | rfl | htail
            · exact hfull
            · exact hb
            · exact h.partly x (List.mem_append_right _ htail)
          · simp [Sweep.all, hbest]
        · simp only [if_neg hless]
          refine ⟨⟨?_, h.freed, h.grown⟩, ?_⟩
          · intro x hx
            simp only [Option.toList_some, List.singleton_append, List.mem_cons] at hx
            rcases hx with rfl | rfl | htail
            · exact hb
            · exact hfull
            · exact h.partly x (List.mem_append_right _ htail)
          · rw [List.perm_iff_count]
            intro x
            simp only [Sweep.all, hbest, List.count_append, List.count_cons]
            omega

theorem sweepBlocks_spec {numFree : Addr → ℕ} {n : ℕ} {free : List Addr} (pgs : List Addr)
    {s : Sweep} (h : SweepInv numFree n free s) :
    SweepInv numFree n free (pgs.foldl (sweepBlock numFree n) s) ∧
      (pgs.foldl (sweepBlock numFree n) s).all.Perm (pgs ++ s.all) := by
  induction pgs generalizing s with
  | nil => exact ⟨h, List.Perm.refl _⟩
  | cons pg pgs ih =>
    obtain ⟨hstep, hperm⟩ := sweepBlock_spec h pg
    obtain ⟨hinv, hall⟩ := ih hstep
    refine ⟨hinv, hall.trans ?_⟩
    exact (hperm.append_left pgs).trans List.perm_middle

/-! ### The loop over the caches -/

/-- The parts of the arena that a collection leaves alone. -/
structure Frame (a a' : Arena T) : Prop where
  caches : a'.caches = a.caches
  static : ∀ sc, ∃ blocks fullBlocks,
    a'.cache sc = { a.cache sc with blocks := blocks, fullBlocks := fullBlocks }
  megablocks : a'.megablocks = a.megablocks
  current : a'.currentMegablock = a.currentMegablock
  mono : ∀ xs, a.MonoList xs → ∃ ys, a'.MonoList ys ∧ ∀ y ∈ ys, y ∈ xs

theorem Frame.refl (a : Arena T) : Frame a a :=
  ⟨rfl, fun sc => ⟨(a.cache sc).blocks, (a.cache sc).fullBlocks, rfl⟩, rfl, rfl,
    fun xs hxs => ⟨xs, hxs, fun _ hy => hy⟩⟩

theorem Frame.trans {a b c : Arena T} (h : Frame a b) (h' : Frame b c) : Frame a c := by
  refine ⟨h'.caches.trans h.caches, fun sc => ?_, h'.megablocks.trans h.megablocks,
    h'.current.trans h.current, fun xs hxs => ?_⟩
  · obtain ⟨b₁, f₁, h₁⟩ := h.static sc
    obtain ⟨b₂, f₂, h₂⟩ := h'.static sc
    refine ⟨b₂, f₂, ?_⟩
    rw [h₂, h₁]
  · obtain ⟨ys, hys, hsub⟩ := h.mono xs hxs
    obtain ⟨zs, hzs, hsub'⟩ := h'.mono ys hys
    exact ⟨zs, hzs, fun z hz => hsub z (hsub' z hz)⟩

theorem Frame.slot {a a' : Arena T} (h : Frame a a') (sc : ℕ) :
    (a'.cache sc).numEntries = (a.cache sc).numEntries ∧
      ∀ pg i, slotAddr T (a'.cache sc) pg i = slotAddr T (a.cache sc) pg i := by
  obtain ⟨blocks, fullBlocks, heq⟩ := h.static sc
  rw [heq]
  exact ⟨rfl, fun _ _ => rfl⟩

/-- What sweeping does to the lists of a cache and to the free list. -/
structure Swept (a a' : Arena T) (sc : ℕ) : Prop where
  partly : ∀ pg ∈ (a'.cache sc).blocks, (a.block pg).u.numFree ≠ 0
  sub : ∀ pg ∈ (a'.cache sc).lists, pg ∈ (a.cache sc).lists
  kept : ∀ pg ∈ (a.cache sc).lists, (a.block pg).u.numFree ≠ (a.cache sc).numEntries →
    pg ∈ (a'.cache sc).lists

theorem cleanupCache_spec {taken : List Addr} {a : Arena T} (h : Core P taken a) {sc : ℕ}
    (hsc : sc ∈ a.caches) :
    Core P taken (a.cleanupCache sc) ∧ Frame a (a.cleanupCache sc) ∧
      Swept a (a.cleanupCache sc) sc ∧ (a.cleanupCache sc).block = a.block ∧
      (∀ sc' ≠ sc, (a.cleanupCache sc).cache sc' = a.cache sc') := by
  set numFree : Addr → ℕ := fun pg => (a.block pg).u.numFree with hnf
  have hinit : SweepInv numFree (a.cache sc).numEntries a.freeBlocks
      ⟨none, 4096, [], [], a.freeBlocks, a.blockUsed⟩ :=
    ⟨by simp, fun pg hpg => Or.inl hpg, fun pg hpg => hpg⟩
  obtain ⟨hinv, hperm⟩ := sweepBlocks_spec (a.cache sc).lists hinit
  set s := (a.cache sc).lists.foldl (sweepBlock numFree (a.cache sc).numEntries)
    ⟨none, 4096, [], [], a.freeBlocks, a.blockUsed⟩ with hs
  have hall : (((s.best.toList ++ s.blocks) ++ s.fullBlocks) ++ s.freeBlocks).Perm
      ((a.cache sc).lists ++ a.freeBlocks) := hperm
  have hnd : ((a.cache sc).lists ++ a.freeBlocks).Nodup := by
    refine List.nodup_append.mpr ⟨h.lists_nodup hsc, ?_, ?_⟩
    · exact (List.nodup_append.mp h.placed_nodup).2.1
    · intro x hx y hy hxy
      exact h.free_disjoint hsc hx (hxy ▸ hy)
  have hnew := hall.nodup_iff.mpr hnd
  have hdis := (List.nodup_append.mp hnew).2.2
  have hsub : ∀ pg ∈ (s.best.toList ++ s.blocks) ++ s.fullBlocks, pg ∈ (a.cache sc).lists := by
    intro pg hpg
    have hmem := hall.mem_iff.mp (List.mem_append_left _ hpg)
    rcases List.mem_append.mp hmem with hl | hf
    · exact hl
    · exact absurd rfl (hdis pg hpg pg (hinv.grown pg hf))
  have hfreed : ∀ pg ∈ s.freeBlocks, FreeBlock P (a.block pg) := by
    intro pg hpg
    rcases hinv.freed pg hpg with hold | hn
    · exact h.free pg hold
    · have hmem := hall.mem_iff.mp (List.mem_append_right _ hpg)
      rcases List.mem_append.mp hmem with hl | hf
      · have hold := h.block sc hsc pg hl
        obtain ⟨f, x, hu, -⟩ := hold.header
        refine ⟨⟨_, _, _, _, hu⟩, ?_, ?_⟩
        · have hn' : (a.block pg).u.numFree = (a.cache sc).numEntries := hn
          rw [hn']
          exact h.admits sc hsc pg hl
        · have hn' : (a.block pg).u.numFree = (a.cache sc).numEntries := hn
          rw [hn']
          exact hold.inv
      · exact h.free pg hf
  have hcore := h.relist hsc s.blockUsed (hall.append_left taken)
    (fun pg hpg => h.admits sc hsc pg (hsub pg hpg))
    (fun pg hpg => h.block sc hsc pg (hsub pg hpg)) hfreed (fun _ _ _ _ _ => rfl)
  refine ⟨hcore, ⟨rfl, fun sc' => ?_, rfl, rfl, fun xs hxs => ⟨xs, hxs, fun _ hy => hy⟩⟩,
    ⟨?_, ?_, ?_⟩, rfl, fun sc' hne => Function.update_of_ne hne ..⟩
  · by_cases heq : sc' = sc
    · subst heq
      exact ⟨s.best.toList ++ s.blocks, s.fullBlocks, Function.update_self ..⟩
    · exact ⟨(a.cache sc').blocks, (a.cache sc').fullBlocks, Function.update_of_ne heq ..⟩
  · intro pg hpg
    simp only [cleanupCache, Function.update_self] at hpg
    exact hinv.partly pg hpg
  · intro pg hpg
    simp only [cleanupCache, Function.update_self, Cache.lists] at hpg
    exact hsub pg hpg
  · intro pg hpg hne
    simp only [cleanupCache, Function.update_self, Cache.lists]
    have hmem := hall.mem_iff.mpr (List.mem_append_left a.freeBlocks hpg)
    rcases List.mem_append.mp hmem with hl | hf
    · exact hl
    · rcases hinv.freed pg hf with hold | hn
      · exact absurd hold (h.free_disjoint hsc hpg)
      · exact absurd hn hne

theorem Swept.congr {a b a' b' : Arena T} {sc : ℕ} (h : Swept a a' sc) (hblock : b.block = a.block)
    (hcache : b.cache sc = a.cache sc) (hcache' : b'.cache sc = a'.cache sc) : Swept b b' sc := by
  constructor
  · rw [hblock, hcache']
    exact h.partly
  · rw [hcache, hcache']
    exact h.sub
  · rw [hblock, hcache, hcache']
    exact h.kept

theorem cleanupCaches_spec {taken : List Addr} (l : List ℕ) (hl : l.Nodup) {a : Arena T}
    (h : Core P taken a) (hsub : ∀ sc ∈ l, sc ∈ a.caches) :
    Core P taken (l.foldl cleanupCache a) ∧ Frame a (l.foldl cleanupCache a) ∧
      (l.foldl cleanupCache a).block = a.block ∧
      (∀ sc ∈ l, Swept a (l.foldl cleanupCache a) sc) ∧
      ∀ sc ∉ l, (l.foldl cleanupCache a).cache sc = a.cache sc := by
  induction l generalizing a with
  | nil => exact ⟨h, Frame.refl a, rfl, by simp, fun _ _ => rfl⟩
  | cons sc l ih =>
    obtain ⟨hnot, hl⟩ := List.nodup_cons.mp hl
    have hsc := hsub sc List.mem_cons_self
    obtain ⟨hcore, hframe, hswept, hblock, hother⟩ := cleanupCache_spec h hsc
    obtain ⟨hcore', hframe', hblock', hswept', hother'⟩ := ih hl hcore fun sc' hsc' => by
      rw [hframe.caches]
      exact hsub sc' (List.mem_cons_of_mem _ hsc')
    rw [List.foldl_cons]
    refine ⟨hcore', hframe.trans hframe', hblock'.trans hblock, ?_, ?_⟩
    · intro sc' hsc'
      rcases List.mem_cons.mp hsc' with rfl | htail
      · exact hswept.congr rfl rfl (hother' _ hnot)
      · have hne : sc' ≠ sc := fun heq => hnot (heq ▸ htail)
        exact (hswept' sc' htail).congr hblock.symm (hother sc' hne).symm rfl
    · intro sc' hsc'
      rw [hother' sc' (List.not_mem_of_not_mem_cons hsc'),
        hother sc' (List.ne_of_not_mem_cons hsc')]

/-! ### s_cleanup_blocks -/

theorem swept_core {taken : List Addr} {a : Arena T} (h : Core P taken a) {xs : List Addr}
    (hxs : a.MonoList xs) :
    Core P taken { a with toMonoArena := a.toMonoArena.swept xs } ∧
      Frame a { a with toMonoArena := a.toMonoArena.swept xs } := by
  have hlist := MonoArena.swept_list a.toMonoArena xs
  have hsub : ∀ m ∈ (xs.find? a.toMonoArena.marked).toList, m ∈ xs := by
    intro m hm
    exact List.mem_of_find?_eq_some (Option.mem_toList.mp hm)
  obtain ⟨ys, hys, hfar⟩ := h.mono
  have heq := hxs.1.unique hys.1
  subst heq
  refine ⟨⟨h.nodup, h.handles, h.wf, h.admits, h.block, h.free, h.place, h.once,
    ⟨h.mega.aligned, h.mega.bound, h.mega.current, h.mega.disjoint⟩,
    _, hlist, fun m hm => hfar m (hsub m hm)⟩,
    rfl, fun sc => ⟨(a.cache sc).blocks, (a.cache sc).fullBlocks, rfl⟩, rfl, rfl, ?_⟩
  intro zs hzs
  refine ⟨_, hlist, fun m hm => ?_⟩
  rw [hzs.1.unique hxs.1]
  exact hsub m hm

theorem s_cleanup_blocks_spec {taken : List Addr} {a : Arena T} (h : Core P taken a) {fuel : ℕ}
    {a' : Arena T} (hrun : s_cleanup_blocks fuel a = some a') :
    Core P taken a' ∧ Frame a a' ∧ a'.block = a.block ∧ ∀ sc ∈ a.caches, Swept a a' sc := by
  obtain ⟨xs, hxs, -⟩ := h.mono
  unfold s_cleanup_blocks at hrun
  cases hmono : MonoArena.s_cleanup_blocks fuel a.toMonoArena with
  | none => simp [hmono] at hrun
  | some m =>
    simp only [hmono, Option.bind_eq_bind, Option.bind_some] at hrun
    have hm := MonoArena.s_cleanup_blocks_some hxs hmono
    subst hm
    obtain ⟨hcore, hframe⟩ := swept_core h hxs
    obtain ⟨hcore', hframe', hblock, hswept, -⟩ :=
      cleanupCaches_spec a.caches h.nodup hcore fun _ hsc => hsc
    have hres := Option.some_inj.mp hrun
    subst hres
    exact ⟨hcore', hframe.trans hframe', hblock,
      fun sc hsc => (hswept sc hsc).congr rfl rfl rfl⟩

theorem cleanupCaches_rest (l : List ℕ) (a : Arena T) :
    (l.foldl cleanupCache a).toMonoArena = a.toMonoArena ∧ (l.foldl cleanupCache a).mem = a.mem := by
  induction l generalizing a with
  | nil => exact ⟨rfl, rfl⟩
  | cons sc l ih => exact ih (a.cleanupCache sc)

theorem s_cleanup_blocks_rest {a : Arena T} {xs : List Addr} (hxs : a.MonoList xs) {fuel : ℕ}
    {a' : Arena T} (hrun : s_cleanup_blocks fuel a = some a') :
    a'.toMonoArena = a.toMonoArena.swept xs ∧ a'.mem = a.mem := by
  unfold s_cleanup_blocks at hrun
  cases hmono : MonoArena.s_cleanup_blocks fuel a.toMonoArena with
  | none => simp [hmono] at hrun
  | some m =>
    simp only [hmono, Option.bind_eq_bind, Option.bind_some] at hrun
    have hm := MonoArena.s_cleanup_blocks_some hxs hmono
    subst hm
    have hres := Option.some_inj.mp hrun
    subst hres
    exact cleanupCaches_rest a.caches { a with toMonoArena := a.toMonoArena.swept xs }

theorem s_cleanup_blocks_total {taken : List Addr} {a : Arena T} (h : Core P taken a) :
    ∃ N, ∀ fuel ≥ N, ∃ a', s_cleanup_blocks fuel a = some a' := by
  obtain ⟨xs, hxs, -⟩ := h.mono
  refine ⟨xs.length, fun fuel hfuel => ?_⟩
  have hmono := MonoArena.s_cleanup_blocks_eq hxs hfuel
  exact ⟨a.caches.foldl cleanupCache { a with toMonoArena := a.toMonoArena.swept xs },
    by simp [s_cleanup_blocks, hmono]⟩

/-! ### A whole collection (gc_jgc.c:127-203 with any marks) -/

/-- `clear_used_bits`, one `s_set_used_bit` for each of `marks`, `s_cleanup_blocks`. -/
def collect (fuel : ℕ) (marks : List Addr) (a : Arena T) : Option (Arena T) := do
  let a ← clear_used_bits fuel a
  let a ← markAll marks a
  s_cleanup_blocks fuel a

/-- After the sweep the allocated objects are the slots whose bit was set. -/
theorem swept_allocated {taken : List Addr} {a a' : Arena T} (h : Core P taken a)
    (hframe : Frame a a') (hblock : a'.block = a.block)
    (hswept : ∀ sc ∈ a.caches, Swept a a' sc) (v : Addr) : a'.Allocated v ↔ a.Allocated v := by
  constructor
  · intro ⟨sc, hsc, pg, hpg, i, hi, hv, hbit⟩
    obtain ⟨hn, haddr⟩ := hframe.slot sc
    rw [hframe.caches] at hsc
    rw [hn] at hi
    rw [haddr] at hv
    rw [hblock] at hbit
    exact ⟨sc, hsc, pg, (hswept sc hsc).sub pg hpg, i, hi, hv, hbit⟩
  · intro ⟨sc, hsc, pg, hpg, i, hi, hv, hbit⟩
    obtain ⟨hn, haddr⟩ := hframe.slot sc
    have hused : (a.block pg).u.numFree ≠ (a.cache sc).numEntries := by
      intro hfree
      have hcount := (h.block sc hsc pg hpg).inv.count
      have hclear := all_clear (hcount.trans hfree) hi
      rw [hclear] at hbit
      exact Bool.noConfusion hbit
    refine ⟨sc, ?_, pg, (hswept sc hsc).kept pg hpg hused, i, ?_, ?_, ?_⟩
    · rw [hframe.caches]
      exact hsc
    · rw [hn]
      exact hi
    · rw [haddr]
      exact hv
    · rw [hblock]
      exact hbit

theorem ok_of_swept {a a' : Arena T} (hcore : Core P [] a') (hframe : Frame a a')
    (hblock : a'.block = a.block) (hswept : ∀ sc ∈ a.caches, Swept a a' sc) : Ok P a' := by
  refine ⟨hcore, fun sc hsc pg hpg => ?_⟩
  rw [hframe.caches] at hsc
  rw [hblock]
  exact (hswept sc hsc).partly pg hpg

theorem collect_spec (hP : ∀ n, P n → n % T.bitsPerUnit ≠ 0) {a : Arena T} (h : Core P [] a)
    {marks : List Addr} (hmarks : ∀ v ∈ marks, a.IsSlot v) {fuel : ℕ} {a' : Arena T}
    (hrun : collect fuel marks a = some a') :
    Ok P a' ∧ Frame a a' ∧ ∀ v, a'.Allocated v ↔ v ∈ marks := by
  unfold collect at hrun
  cases hc : clear_used_bits fuel a with
  | none => simp [hc] at hrun
  | some a₁ =>
    obtain ⟨f, rfl, hcore, hclear, -⟩ := clear_used_bits_spec hP h hc
    obtain ⟨g, hmark, hcore', hbits⟩ := markAll_spec marks hcore hmarks
    simp only [hc, hmark, Option.bind_eq_bind, Option.bind_some] at hrun
    obtain ⟨hcore'', hframe, hblock, hswept⟩ := s_cleanup_blocks_spec hcore' hrun
    refine ⟨ok_of_swept hcore'' hframe hblock hswept, ⟨hframe.caches, hframe.static,
      hframe.megablocks, hframe.current, hframe.mono⟩, fun v => ?_⟩
    rw [swept_allocated hcore' hframe hblock hswept v]
    have hnone : ∀ sc ∈ a.caches, ∀ pg ∈ (a.cache sc).lists, ∀ i < (a.cache sc).numEntries,
        bitIsSet (f pg).used i = false := by
      intro sc hsc pg hpg i hi
      obtain ⟨-, hcap, -⟩ := T.bitarraySize_spec (a.cache sc).numEntries (by omega)
      rw [hclear sc hsc pg hpg, clear_block_bits (hP _ (h.admits sc hsc pg hpg)) (by omega)]
      simpa using hi
    constructor
    · intro ⟨sc, hsc, pg, hpg, i, hi, hv, hbit⟩
      rcases (hbits sc hsc pg hpg i hi).mp hbit with hset | hmem
      · have hfalse : bitIsSet (f pg).used i = false := hnone sc hsc pg hpg i hi
        have hset' : bitIsSet (f pg).used i = true := hset
        rw [hfalse] at hset'
        exact Bool.noConfusion hset'
      · rw [hv]
        exact hmem
    · intro hmem
      obtain ⟨sc, hsc, pg, hpg, i, hi, hv⟩ := hmarks v hmem
      refine ⟨sc, hsc, pg, hpg, i, hi, hv, (hbits sc hsc pg hpg i hi).mpr (Or.inr ?_)⟩
      rw [hv] at hmem
      exact hmem

theorem collect_total (hP : ∀ n, P n → n % T.bitsPerUnit ≠ 0) {a : Arena T} (h : Core P [] a)
    {marks : List Addr} (hmarks : ∀ v ∈ marks, a.IsSlot v) :
    ∃ N, ∀ fuel ≥ N, ∃ a', collect fuel marks a = some a' := by
  obtain ⟨xs, hxs, -⟩ := h.mono
  refine ⟨xs.length, fun fuel hfuel => ?_⟩
  have hrun := MonoArena.clear_used_bits_eq hxs hfuel
  have hclear : ∃ a₁, clear_used_bits fuel a = some a₁ :=
    ⟨a.caches.foldl clearCache { a with toMonoArena := a.setAll 0#_ xs },
      by simp [clear_used_bits, hrun]⟩
  obtain ⟨a₁, hc⟩ := hclear
  obtain ⟨f, rfl, hcore, -⟩ := clear_used_bits_spec hP h hc
  obtain ⟨g, hmark, -⟩ := markAll_spec marks hcore hmarks
  have hlist : ((a.withBlocks f).withBlocks g).MonoList xs := hxs
  have hsweep := MonoArena.s_cleanup_blocks_eq hlist hfuel
  exact ⟨_, by simp only [collect, hc, hmark, s_cleanup_blocks, hsweep, Option.bind_eq_bind,
    Option.bind_some, Option.pure_def]; rfl⟩

end Arena

end Jhc.Rts

import Mathlib.Data.List.TakeWhile
import Jhc.Lib.Reach
import Jhc.Lib.SList
import Jhc.Rts.Block

/-!
# Monolithic blocks (rts/gc_jgc.c:246-258, 410-439, 584-591)

Allocation, clearing and sweeping of the blocks on `arena->monolithic_blocks`.
The list is the intrusive one of sys/queue.h: `link` is the field of that name
in `struct s_block`, and the sweep relinks the list that it is walking.
-/

namespace Jhc.Rts
open Jhc.Lib Jhc.Lib.SList

/-- The first two words of an object with `SLAB_FLAG_FINALIZER`: the managed
pointer, and the null-terminated finalizer array or `NULL`. -/
structure ForeignWords where
  ptr : ℕ
  finalizers : Option (ℕ × List ℕ)
  deriving DecidableEq, Repr

/-- The arena as far as monolithic blocks go. `finalized` logs the finalizer
calls (function and argument), `freed` the calls of `free`. -/
structure MonoArena (w : ℕ) where
  block : Addr → SBlock w
  words : Addr → ForeignWords
  link : Addr → Option Addr
  monolithicBlocks : Option Addr
  finalized : List (ℕ × ℕ)
  freed : List Addr

namespace MonoArena

variable {w : ℕ}

def marked (a : MonoArena w) (pg : Addr) : Bool := (a.block pg).used 0 != 0#w

def setUsed0 (a : MonoArena w) (pg : Addr) (v : BitVec w) : MonoArena w :=
  let b : SBlock w := { a.block pg with used := Function.update (a.block pg).used 0 v }
  { a with block := Function.update a.block pg b }

def insertHead (a : MonoArena w) (pg : Addr) : MonoArena w :=
  { a with link := Function.update a.link pg a.monolithicBlocks, monolithicBlocks := some pg }

def finalizerCalls (a : MonoArena w) (pg : Addr) : List (ℕ × ℕ) :=
  if hasFlag (a.block pg).flags SLAB_FLAG_FINALIZER then
    match (a.words pg).finalizers with
    | none => []
    | some (fp, fps) => (fp :: fps).map fun f => (f, (a.words pg).ptr)
  else []

def release (a : MonoArena w) (pg : Addr) : MonoArena w :=
  { a with finalized := a.finalized ++ a.finalizerCalls pg, freed := a.freed ++ [pg] }

/-- The loop of `s_cleanup_blocks` over the monolithic blocks (gc_jgc.c:417-438).
The next block is read after the insertion, from the link just written. -/
def cleanupLoop : ℕ → Option Addr → MonoArena w → Option (MonoArena w)
  | _, none, a => some a
  | 0, some _, _ => none
  | fuel + 1, some pg, a =>
    if a.marked pg then
      let a' := a.insertHead pg
      cleanupLoop fuel (a'.link pg) a'
    else
      cleanupLoop fuel (a.link pg) (a.release pg)

def s_cleanup_blocks (fuel : ℕ) (a : MonoArena w) : Option (MonoArena w) :=
  cleanupLoop fuel a.monolithicBlocks { a with monolithicBlocks := none }

def clearLoop : ℕ → Option Addr → MonoArena w → Option (MonoArena w)
  | _, none, a => some a
  | 0, some _, _ => none
  | fuel + 1, some pg, a => clearLoop fuel (a.link pg) (a.setUsed0 pg 0#w)

def clear_used_bits (fuel : ℕ) (a : MonoArena w) : Option (MonoArena w) :=
  clearLoop fuel a.monolithicBlocks a

/-- `s_monoblock` (gc_jgc.c:246-258) at the address that `jhc_aligned_alloc`
returned. -/
def s_monoblock (T : Target) (a : MonoArena w) (base : Addr) (nptrs flags : ℕ)
    (words : ForeignWords) : MonoArena w :=
  let color := (T.headerBytes + T.bitarrayBytes 1 + T.wordBytes - 1) / T.wordBytes
  let b : SBlock w := ⟨flags ||| SLAB_MONOLITH, color, .m nptrs, (a.block base).used⟩
  let a' : MonoArena w := { a with
    block := Function.update a.block base b
    words := Function.update a.words base words }
  (a'.insertHead base).setUsed0 base 1#w

def MonoList (a : MonoArena w) (xs : List Addr) : Prop :=
  Chain a.link a.monolithicBlocks xs ∧ xs.Nodup

/-! ### What one sweep does -/

/-- What the sweep should do to the list `xs`: keep the marked blocks, each
once, and finalize and free the others, each once. -/
def SweepCorrect (a a' : MonoArena w) (xs : List Addr) : Prop :=
  (∃ ys, a'.MonoList ys ∧ ∀ b, b ∈ ys ↔ b ∈ xs ∧ a.marked b) ∧
  ∃ ds, ds.Nodup ∧ (∀ b, b ∈ ds ↔ b ∈ xs ∧ ¬ a.marked b) ∧
    a'.freed = a.freed ++ ds ∧ a'.finalized = a.finalized ++ ds.flatMap a.finalizerCalls

def deadPrefix (a : MonoArena w) (xs : List Addr) : List Addr :=
  xs.takeWhile fun b => !a.marked b

/-- The arena the sweep leaves: the dead prefix is released, the first marked
block becomes the whole list. -/
def swept (a : MonoArena w) (xs : List Addr) : MonoArena w :=
  { a with
    link := match xs.find? a.marked with
      | none => a.link
      | some m => Function.update a.link m none
    monolithicBlocks := xs.find? a.marked
    finalized := a.finalized ++ (a.deadPrefix xs).flatMap a.finalizerCalls
    freed := a.freed ++ a.deadPrefix xs }

attribute [local grind =] cleanupLoop clearLoop

/-- The loop stops after the first marked block: the link it follows there is
the head of the new list, which is still empty. -/
theorem cleanupLoop_eq (a : MonoArena w) (xs : List Addr) (head : Option Addr)
    (hnil : a.monolithicBlocks = none) (hxs : Chain a.link head xs) {fuel : ℕ}
    (hfuel : xs.length ≤ fuel) : cleanupLoop fuel head a = some (a.swept xs) := by
  induction xs generalizing a head fuel with
  | nil =>
    rw [chain_nil] at hxs
    subst hxs
    cases a with
    | mk block words link head finalized freed =>
      simp only at hnil
      subst hnil
      simp [cleanupLoop, swept, deadPrefix]
  | cons x xs ih =>
    obtain ⟨hhead, htail⟩ := hxs
    subst hhead
    cases fuel with
    | zero => simp at hfuel
    | succ fuel =>
      by_cases hm : a.marked x
      · have hnext : (a.insertHead x).link x = none := by
          simp [insertHead, hnil]
        simp only [cleanupLoop, hm, if_true, hnext]
        simp [swept, deadPrefix, hm, insertHead, hnil]
      · have hrel : ∀ b, (a.release x).marked b = a.marked b := fun _ => rfl
        simp only [cleanupLoop, hm, Bool.false_eq_true, if_false]
        rw [ih (a.release x) (a.link x) hnil htail (by simpa using hfuel)]
        have hfind : (x :: xs).find? a.marked = xs.find? a.marked := by simp [hm]
        have hpre : a.deadPrefix (x :: xs) = x :: a.deadPrefix xs := by
          simp [deadPrefix, hm]
        have hfun : (a.release x).marked = a.marked := funext hrel
        have hcalls : (a.release x).finalizerCalls = a.finalizerCalls := rfl
        have hdead : (a.release x).deadPrefix xs = a.deadPrefix xs := by
          simp only [deadPrefix, hfun]
        simp only [swept, hfun, hcalls, hdead, hfind, hpre, List.flatMap_cons]
        simp [release]

theorem s_cleanup_blocks_eq {a : MonoArena w} {xs : List Addr} (h : a.MonoList xs) {fuel : ℕ}
    (hfuel : xs.length ≤ fuel) :
    s_cleanup_blocks fuel a = some (a.swept xs) := by
  have hloop := cleanupLoop_eq { a with monolithicBlocks := none } xs a.monolithicBlocks rfl h.1
    hfuel
  exact hloop

theorem cleanupLoop_mono (more : ℕ) {fuel : ℕ} {head : Option Addr} {a r : MonoArena w}
    (h : cleanupLoop fuel head a = some r) : cleanupLoop (fuel + more) head a = some r := by
  induction fuel generalizing head a with
  | zero =>
    cases head with
    | none => simpa [cleanupLoop] using h
    | some pg => simp [cleanupLoop] at h
  | succ fuel ih =>
    cases head with
    | none => simpa [cleanupLoop] using h
    | some pg =>
      rw [Nat.add_right_comm]
      simp only [cleanupLoop] at h ⊢
      split_ifs at h ⊢
      · exact ih h
      · exact ih h

theorem s_cleanup_blocks_some {a r : MonoArena w} {xs : List Addr} (h : a.MonoList xs) {fuel : ℕ}
    (hr : s_cleanup_blocks fuel a = some r) : r = a.swept xs := by
  have hmore := cleanupLoop_mono xs.length hr
  have heq := s_cleanup_blocks_eq h (Nat.le_add_left xs.length fuel)
  exact Option.some_inj.mp (hmore.symm.trans heq)

theorem swept_list (a : MonoArena w) (xs : List Addr) :
    (a.swept xs).MonoList (xs.find? a.marked).toList := by
  cases hf : xs.find? a.marked with
  | none => simp [MonoList, swept, hf]
  | some m => simp [MonoList, swept, hf]

theorem marked_split (a : MonoArena w) (xs : List Addr) :
    (∀ b ∈ xs, ¬ a.marked b) ∨
      ∃ pre m post, xs = pre ++ m :: post ∧ (∀ b ∈ pre, ¬ a.marked b) ∧ a.marked m := by
  induction xs with
  | nil => exact Or.inl (by simp)
  | cons x xs ih =>
    by_cases hx : a.marked x
    · exact Or.inr ⟨[], x, xs, rfl, by simp, hx⟩
    · rcases ih with hall | ⟨pre, m, post, rfl, hpre, hm⟩
      · exact Or.inl (by simpa [hx] using hall)
      · exact Or.inr ⟨x :: pre, m, post, rfl, by simpa [hx] using hpre, hm⟩

theorem find_split {a : MonoArena w} {pre : List Addr} {m : Addr} (post : List Addr)
    (hpre : ∀ b ∈ pre, ¬ a.marked b) (hm : a.marked m) :
    (pre ++ m :: post).find? a.marked = some m := by
  have hnone : pre.find? a.marked = none := List.find?_eq_none.mpr hpre
  simp [List.find?_append, hnone, hm]

theorem deadPrefix_split {a : MonoArena w} {pre : List Addr} {m : Addr} (post : List Addr)
    (hpre : ∀ b ∈ pre, ¬ a.marked b) (hm : a.marked m) :
    a.deadPrefix (pre ++ m :: post) = pre := by
  unfold deadPrefix
  rw [List.takeWhile_append_of_pos (by simpa using hpre)]
  simp [hm]

theorem deadPrefix_all {a : MonoArena w} {xs : List Addr} (h : ∀ b ∈ xs, ¬ a.marked b) :
    a.deadPrefix xs = xs :=
  List.takeWhile_eq_self_iff.mpr (by simpa using h)

theorem sweepCorrect_of_dead {a : MonoArena w} {xs : List Addr} (hnd : xs.Nodup)
    (hall : ∀ b ∈ xs, ¬ a.marked b) : SweepCorrect a (a.swept xs) xs := by
  have hfind : xs.find? a.marked = none := List.find?_eq_none.mpr hall
  refine ⟨⟨[], ?_, ?_⟩, xs, hnd, ?_, ?_, ?_⟩
  · simpa [hfind] using swept_list a xs
  · intro b
    simpa using hall b
  · intro b
    exact ⟨fun hb => ⟨hb, hall b hb⟩, fun hb => hb.1⟩
  · simp [swept, deadPrefix_all hall]
  · simp [swept, deadPrefix_all hall]

theorem sweepCorrect_split {a : MonoArena w} {pre post : List Addr} {m : Addr}
    (hnd : (pre ++ m :: post).Nodup) (hpre : ∀ b ∈ pre, ¬ a.marked b) (hm : a.marked m) :
    SweepCorrect a (a.swept (pre ++ m :: post)) (pre ++ m :: post) ↔ post = [] := by
  have hfind := find_split post hpre hm
  have hdead := deadPrefix_split post hpre hm
  have hlist := swept_list a (pre ++ m :: post)
  rw [hfind, Option.toList_some] at hlist
  obtain ⟨hpn, hmn, hdis⟩ := List.nodup_append.mp hnd
  have hmpost : m ∉ post := (List.nodup_cons.mp hmn).1
  constructor
  · rintro ⟨⟨ys, hys, hkept⟩, ds, -, hds, hfreed, -⟩
    have hyx : ys = [m] := hys.1.unique hlist.1
    have hdp : ds = pre := by
      have h : a.freed ++ pre = a.freed ++ ds := by
        rw [← hfreed]
        simp only [swept, hdead]
      exact (List.append_cancel_left h).symm
    refine List.eq_nil_iff_forall_not_mem.mpr fun p hp => ?_
    have hpx : p ∈ pre ++ m :: post := by simp [hp]
    by_cases hpm : a.marked p
    · have hpy : p ∈ ys := (hkept p).mpr ⟨hpx, hpm⟩
      rw [hyx, List.mem_singleton] at hpy
      exact hmpost (hpy ▸ hp)
    · have hpd : p ∈ ds := (hds p).mpr ⟨hpx, hpm⟩
      rw [hdp] at hpd
      exact hdis p hpd p (List.mem_cons_of_mem _ hp) rfl
  · rintro rfl
    refine ⟨⟨[m], hlist, ?_⟩, pre, hpn, ?_, ?_, ?_⟩
    · intro b
      by_cases hb : b = m
      · subst hb
        simp [hm]
      · simpa [hb] using hpre b
    · intro b
      by_cases hb : b = m
      · subst hb
        simpa [hm] using fun h => hpre b h hm
      · simpa [hb] using hpre b
    · simp only [swept, hdead]
    · simp only [swept, hdead]

theorem sweepCorrect_iff {a : MonoArena w} {xs : List Addr} (hnd : xs.Nodup) :
    SweepCorrect a (a.swept xs) xs ↔ ∀ b ∈ xs.dropLast, ¬ a.marked b := by
  rcases a.marked_split xs with hall | ⟨pre, m, post, rfl, hpre, hm⟩
  · exact iff_of_true (sweepCorrect_of_dead hnd hall)
      fun b hb => hall b (List.dropLast_subset _ hb)
  · rw [sweepCorrect_split hnd hpre hm]
    constructor
    · rintro rfl
      simpa using hpre
    · intro h
      by_contra hpost
      refine h m ?_ hm
      rw [List.dropLast_append_of_ne_nil (by simp), List.dropLast_cons_of_ne_nil hpost]
      simp

/-! ### Clearing and marking -/

def setAll (a : MonoArena w) (v : BitVec w) (bs : List Addr) : MonoArena w :=
  bs.foldl (fun a b => a.setUsed0 b v) a

theorem setUsed0_marked (a : MonoArena w) (pg b : Addr) (v : BitVec w) :
    (a.setUsed0 pg v).marked b = if b = pg then v != 0#w else a.marked b := by
  unfold marked setUsed0
  by_cases hb : b = pg
  · subst hb
    simp
  · simp [hb]

theorem setAll_marked (a : MonoArena w) (v : BitVec w) (bs : List Addr) (b : Addr) :
    (a.setAll v bs).marked b = if b ∈ bs then v != 0#w else a.marked b := by
  induction bs generalizing a with
  | nil => simp [setAll]
  | cons x bs ih =>
    have hcons : a.setAll v (x :: bs) = (a.setUsed0 x v).setAll v bs := rfl
    rw [hcons, ih, setUsed0_marked]
    by_cases hb : b ∈ bs
    · simp [hb]
    · by_cases hx : b = x
      · simp [hx]
      · simp [hb, hx]

theorem setAll_frame (a : MonoArena w) (v : BitVec w) (bs : List Addr) :
    (a.setAll v bs).link = a.link ∧ (a.setAll v bs).monolithicBlocks = a.monolithicBlocks ∧
      (a.setAll v bs).freed = a.freed := by
  induction bs generalizing a with
  | nil => exact ⟨rfl, rfl, rfl⟩
  | cons x bs ih => exact ih (a.setUsed0 x v)

theorem setAll_list {a : MonoArena w} {xs : List Addr} (h : a.MonoList xs) (v : BitVec w)
    (bs : List Addr) : (a.setAll v bs).MonoList xs := by
  obtain ⟨hlink, hhead, -⟩ := setAll_frame a v bs
  unfold MonoList
  rw [hlink, hhead]
  exact h

theorem clearLoop_eq (a : MonoArena w) (xs : List Addr) (head : Option Addr)
    (hxs : Chain a.link head xs) {fuel : ℕ} (hfuel : xs.length ≤ fuel) :
    clearLoop fuel head a = some (a.setAll 0#w xs) := by
  induction xs generalizing a head fuel with
  | nil =>
    rw [chain_nil] at hxs
    subst hxs
    simp [clearLoop, setAll]
  | cons x xs ih =>
    obtain ⟨hhead, htail⟩ := hxs
    subst hhead
    cases fuel with
    | zero => simp at hfuel
    | succ fuel => exact ih (a.setUsed0 x 0#w) (a.link x) htail (by simpa using hfuel)

theorem clear_used_bits_eq {a : MonoArena w} {xs : List Addr} (h : a.MonoList xs) {fuel : ℕ}
    (hfuel : xs.length ≤ fuel) : clear_used_bits fuel a = some (a.setAll 0#w xs) :=
  clearLoop_eq a xs _ h.1 hfuel

theorem clearLoop_mono (more : ℕ) {fuel : ℕ} {head : Option Addr} {a r : MonoArena w}
    (h : clearLoop fuel head a = some r) : clearLoop (fuel + more) head a = some r := by
  induction fuel generalizing head a with
  | zero =>
    cases head with
    | none => simpa [clearLoop] using h
    | some pg => simp [clearLoop] at h
  | succ fuel ih =>
    cases head with
    | none => simpa [clearLoop] using h
    | some pg =>
      rw [Nat.add_right_comm]
      exact ih h

theorem clear_used_bits_some {a r : MonoArena w} {xs : List Addr} (h : a.MonoList xs) {fuel : ℕ}
    (hr : clear_used_bits fuel a = some r) : r = a.setAll 0#w xs := by
  have hmore := clearLoop_mono xs.length hr
  have heq := clear_used_bits_eq h (Nat.le_add_left xs.length fuel)
  exact Option.some_inj.mp (hmore.symm.trans heq)

end MonoArena

/-! ### Runs -/

/-- The arena together with the monoliths that are allocated and not freed. -/
structure MonoState (w : ℕ) where
  arena : MonoArena w
  live : List Addr

inductive MonoEvent where
  | alloc (base nptrs flags : ℕ) (words : ForeignWords)
  | collect (marks : List Addr)

namespace MonoState
open MonoArena

variable (T : Target)

def Init (s : MonoState T.bitsPerUnit) : Prop :=
  s.arena.monolithicBlocks = none ∧ s.live = []

/-- `malloc` returns no block that is still in use; a collection clears, marks
any set of live blocks and sweeps. -/
def Step (s : MonoState T.bitsPerUnit) : MonoEvent → MonoState T.bitsPerUnit → Prop
  | .alloc base nptrs flags words, s' =>
    base ∉ s.live ∧ s' = ⟨s_monoblock T s.arena base nptrs flags words, base :: s.live⟩
  | .collect marks, s' =>
    (∀ m ∈ marks, m ∈ s.live) ∧
    ∃ fuel a₁ a₂, clear_used_bits fuel s.arena = some a₁ ∧
      s_cleanup_blocks fuel (a₁.setAll 1#T.bitsPerUnit marks) = some a₂ ∧
      s' = ⟨a₂, s.live.filter fun b => b ∉ a₂.freed.drop s.arena.freed.length⟩

/-- A collection marks no block of the list except possibly the last one. -/
def SweepOk (s : MonoState T.bitsPerUnit) : MonoEvent → Prop
  | .alloc .. => True
  | .collect marks => ∀ xs, s.arena.MonoList xs → ∀ b ∈ xs.dropLast, b ∉ marks

def Inv (s : MonoState T.bitsPerUnit) : Prop :=
  ∃ xs, s.arena.MonoList xs ∧ ∀ b, b ∈ s.live ↔ b ∈ xs

variable {T}

theorem inv_init {s : MonoState T.bitsPerUnit} (h : s.Init T) : s.Inv T := by
  obtain ⟨hnil, hlive⟩ := h
  exact ⟨[], ⟨by simpa using hnil, List.nodup_nil⟩, by simp [hlive]⟩

theorem inv_alloc {s : MonoState T.bitsPerUnit} (h : s.Inv T) {base nptrs flags : ℕ}
    {words : ForeignWords} (hfresh : base ∉ s.live) :
    Inv T ⟨s_monoblock T s.arena base nptrs flags words, base :: s.live⟩ := by
  obtain ⟨xs, ⟨hchain, hnd⟩, hlive⟩ := h
  have hb : base ∉ xs := fun hx => hfresh ((hlive base).mpr hx)
  refine ⟨base :: xs, ⟨hchain.insertHead hb, List.nodup_cons.mpr ⟨hb, hnd⟩⟩, ?_⟩
  intro b
  simp [hlive b]

theorem collect_marked {a : MonoArena T.bitsPerUnit} {xs marks : List Addr} {b : Addr}
    (hb : b ∈ xs) :
    ((a.setAll 0#_ xs).setAll 1#_ marks).marked b ↔ b ∈ marks := by
  have hone : (1#T.bitsPerUnit != 0#T.bitsPerUnit) = true := bne_iff_ne.mpr T.one_ne_zero
  rw [setAll_marked, setAll_marked]
  by_cases hm : b ∈ marks
  · simp [hm, hone]
  · simp [hm, hb]

theorem inv_collect {s s' : MonoState T.bitsPerUnit} (h : s.Inv T) {marks : List Addr}
    (hstep : s.Step T (.collect marks) s') : s'.Inv T ↔ s.SweepOk T (.collect marks) := by
  obtain ⟨xs, hlist, hlive⟩ := h
  obtain ⟨-, fuel, a₁, a₂, hclear, hsweep, rfl⟩ := hstep
  have ha₁ := clear_used_bits_some hlist hclear
  have hlist₁ : (a₁.setAll 1#_ marks).MonoList xs := ha₁ ▸ setAll_list (setAll_list hlist _ _) _ _
  have ha₂ := s_cleanup_blocks_some hlist₁ hsweep
  have hmarked : ∀ b ∈ xs, ((a₁.setAll 1#_ marks).marked b ↔ b ∈ marks) :=
    fun b hb => ha₁ ▸ collect_marked hb
  have hfreed : (a₁.setAll 1#_ marks).freed = s.arena.freed := by
    rw [(setAll_frame a₁ _ _).2.2, ha₁, (setAll_frame s.arena _ _).2.2]
  have hok : s.SweepOk T (.collect marks) ↔
      ∀ b ∈ xs.dropLast, ¬ (a₁.setAll 1#_ marks).marked b := by
    constructor
    · intro h b hb hm
      exact h xs hlist b hb ((hmarked b (List.dropLast_subset _ hb)).mp hm)
    · intro h ys hys b hb hm
      rw [hys.1.unique hlist.1] at hb
      exact h b hb ((hmarked b (List.dropLast_subset _ hb)).mpr hm)
  rw [hok, ← sweepCorrect_iff hlist.2]
  generalize a₁.setAll 1#_ marks = a at *
  subst ha₂
  have hdrop : (a.swept xs).freed.drop s.arena.freed.length = a.deadPrefix xs := by
    rw [← hfreed]
    simp [swept]
  constructor
  · rintro ⟨ys, hys, hkept⟩
    rcases a.marked_split xs with hall | ⟨pre, m, post, rfl, hpre, hm⟩
    · exact sweepCorrect_of_dead hlist.2 hall
    · rw [sweepCorrect_split hlist.2 hpre hm]
      refine List.eq_nil_iff_forall_not_mem.mpr fun p hp => ?_
      obtain ⟨-, hmpost, hdis⟩ := List.nodup_append.mp hlist.2
      have hyx := hys.1.unique (swept_list a (pre ++ m :: post)).1
      rw [find_split post hpre hm, Option.toList_some] at hyx
      have hpl : p ∈ s.live := (hlive p).mpr (by simp [hp])
      have hpd : p ∉ pre := fun h => hdis p h p (List.mem_cons_of_mem _ hp) rfl
      have hpy : p ∈ ys := by
        rw [← hkept p, List.mem_filter, hdrop, deadPrefix_split post hpre hm]
        exact ⟨hpl, by simpa using hpd⟩
      rw [hyx, List.mem_singleton] at hpy
      exact (List.nodup_cons.mp hmpost).1 (hpy ▸ hp)
  · rintro ⟨⟨ys, hys, hkept⟩, ds, -, hds, hfr, -⟩
    have hdp : ds = a.deadPrefix xs := by
      have h : a.freed ++ a.deadPrefix xs = a.freed ++ ds := hfr
      exact (List.append_cancel_left h).symm
    refine ⟨ys, hys, fun b => ?_⟩
    rw [hkept b, List.mem_filter, hlive b, hdrop, ← hdp]
    simp only [decide_eq_true_eq, hds b]
    tauto

theorem inv_reach {s : MonoState T.bitsPerUnit}
    (h : Reach (Init T) (Guarded (SweepOk T) (Step T)) s) : s.Inv T := by
  refine h.invariant (fun s hs => inv_init hs) ?_
  rintro s e s' hinv ⟨hok, hstep⟩
  cases e with
  | alloc base nptrs flags words =>
    obtain ⟨hfresh, rfl⟩ := hstep
    exact inv_alloc hinv hfresh
  | collect marks => exact (inv_collect hinv hstep).mpr hok

theorem clears_live {s : MonoState T.bitsPerUnit} (h : s.Inv T) :
    ∃ fuel a', clear_used_bits fuel s.arena = some a' ∧ ∀ b ∈ s.live, ¬ a'.marked b := by
  obtain ⟨xs, hlist, hlive⟩ := h
  refine ⟨xs.length, _, clear_used_bits_eq hlist le_rfl, fun b hb => ?_⟩
  rw [setAll_marked, if_pos ((hlive b).mp hb)]
  simp

end MonoState

open MonoArena MonoState

/-- The sweep of the monolithic list, for one call and for whole runs. A call
keeps the marked blocks and releases the others exactly when no block before the
last is marked; in a run all of whose collections are of this kind,
`clear_used_bits` reaches every live monolith. -/
theorem monolith_sweep_exact (T : Target) :
    (∀ (a : MonoArena T.bitsPerUnit) (xs : List Addr), a.MonoList xs → ∀ fuel ≥ xs.length,
      ∃ a', s_cleanup_blocks fuel a = some a' ∧
        (SweepCorrect a a' xs ↔ ∀ b ∈ xs.dropLast, ¬ a.marked b)) ∧
    ∀ s : MonoState T.bitsPerUnit, Reach (Init T) (Guarded (SweepOk T) (Step T)) s →
      ∃ fuel a', clear_used_bits fuel s.arena = some a' ∧ ∀ b ∈ s.live, ¬ a'.marked b := by
  refine ⟨fun a xs hlist fuel hfuel => ?_, fun s hs => clears_live (inv_reach hs)⟩
  exact ⟨a.swept xs, s_cleanup_blocks_eq hlist hfuel, sweepCorrect_iff hlist.2⟩

def twoMonoliths (u₁ u₂ : BitVec 64) : MonoArena 64 where
  block a := ⟨SLAB_MONOLITH, 4, .m 200, fun _ => if a = 8192 then u₁ else u₂⟩
  words _ := ⟨0, none⟩
  link a := if a = 8192 then some 4096 else none
  monolithicBlocks := some 8192
  finalized := []
  freed := []

theorem twoMonoliths_list (u₁ u₂ : BitVec 64) : (twoMonoliths u₁ u₂).MonoList [8192, 4096] :=
  ⟨⟨rfl, rfl, rfl⟩, by decide⟩

/-- With only the last one marked the sweep is right. -/
theorem monolith_sweep_exact_last :
    ∃ a', s_cleanup_blocks 2 (twoMonoliths 0 1) = some a' ∧
      SweepCorrect (twoMonoliths 0 1) a' [8192, 4096] := by
  obtain ⟨a', hrun, hiff⟩ :=
    (monolith_sweep_exact Target.lp64).1 (twoMonoliths 0 1) _ (twoMonoliths_list 0 1) 2 le_rfl
  exact ⟨a', hrun, hiff.mpr (by decide)⟩

/-- With both marked the second is dropped from the list and never freed. -/
theorem twoMonoliths_sweep_wrong :
    (twoMonoliths 1 1).MonoList [8192, 4096] ∧
      ∃ a', s_cleanup_blocks 2 (twoMonoliths 1 1) = some a' ∧
        ¬ SweepCorrect (twoMonoliths 1 1) a' [8192, 4096] := by
  have hlist := twoMonoliths_list 1 1
  refine ⟨hlist, _, s_cleanup_blocks_eq hlist le_rfl, ?_⟩
  rw [sweepCorrect_iff hlist.2]
  intro h
  exact h 8192 (by decide) rfl

end Jhc.Rts

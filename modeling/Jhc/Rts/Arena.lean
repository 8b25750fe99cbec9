import Jhc.Rts.Monolith
import Jhc.Rts.SlabBlock

/-!
# The slab arena (rts/gc_jgc.c:348-405, 439-653)

Caches, megablocks and the routines that allocate, clear, mark and sweep the
blocks of caches, in the default build (no naive collector, no fixed megablock).
The lists of a cache and the free list are Lean lists: the loops over them read
the next link before they relink a block. Monolithic blocks keep their links.
-/

namespace Jhc.Rts

/-! ### Data (gc_jgc_internal.h:10-26, 48-61) -/

structure Cache where
  blocks : List Addr
  fullBlocks : List Addr
  color : ℕ
  size : ℕ
  numPtrs : ℕ
  flags : ℕ
  numEntries : ℕ
  deriving DecidableEq, Repr

def Cache.lists (sc : Cache) : List Addr := sc.blocks ++ sc.fullBlocks

structure Megablock where
  base : Addr
  nextFree : ℕ
  deriving DecidableEq, Repr

/-- `struct s_arena` with the memory it manages: the block headers `block`, the
words `mem` of the objects and the caches by their handle. -/
structure Arena (T : Target) extends MonoArena T.bitsPerUnit where
  mem : Addr → ℕ
  cache : ℕ → Cache
  caches : List ℕ
  freeBlocks : List Addr
  megablocks : List Megablock
  currentMegablock : Option Megablock
  blockUsed : BitVec 32
  blockThreshold : BitVec 32

namespace Arena

variable {T : Target}

def setBlock (a : Arena T) (pg : Addr) (b : SBlock T.bitsPerUnit) : Arena T :=
  { a with block := Function.update a.block pg b }

def setCache (a : Arena T) (sc : ℕ) (c : Cache) : Arena T :=
  { a with cache := Function.update a.cache sc c }

/-! ### Caches (gc_jgc.c:565-582, 623-639) -/

/-- `num_entries` before it is stored in an `unsigned short`; the subtraction of
one is that of `size_t`. -/
def entriesOf (T : Target) (size : ℕ) : ℕ :=
  8 * (T.blockSize - T.headerBytes) / (8 * T.wordBytes * size + 1) + (2 ^ 16 - 1)

def colorOf (T : Target) (numEntries : ℕ) : ℕ :=
  (T.headerBytes + T.bitarrayBytes numEntries + T.wordBytes - 1) / T.wordBytes

def new_cache (a : Arena T) (size numPtrs : ℕ) : ℕ × Arena T :=
  let numEntries := entriesOf T size % 2 ^ 16
  let sc : Cache :=
    { blocks := []
      fullBlocks := []
      color := colorOf T numEntries % 2 ^ 8
      size := size % 2 ^ 8
      numPtrs := numPtrs % 2 ^ 8
      flags := 0
      numEntries := numEntries }
  let handle := a.caches.length
  (handle, { a.setCache handle sc with caches := handle :: a.caches })

def find_cache (rsc : Option ℕ) (a : Arena T) (size numPtrs : ℕ) : ℕ × Arena T :=
  match rsc with
  | some sc => (sc, a)
  | none =>
    match a.caches.find? fun sc => (a.cache sc).size = size ∧ (a.cache sc).numPtrs = numPtrs with
    | some sc => (sc, a)
    | none => a.new_cache size numPtrs

/-! ### clear_used_bits and s_set_used_bit (gc_jgc.c:584-621) -/

def clearBlocks (numEntries : ℕ) (pgs : List Addr) (a : Arena T) : Arena T :=
  pgs.foldl (fun a pg => a.setBlock pg (clear_block_used_bits T numEntries (a.block pg))) a

def clearCache (a : Arena T) (sc : ℕ) : Arena T :=
  clearBlocks (a.cache sc).numEntries (a.cache sc).lists a

def clear_used_bits (fuel : ℕ) (a : Arena T) : Option (Arena T) := do
  let m ← MonoArena.clear_used_bits fuel a.toMonoArena
  return a.caches.foldl clearCache { a with toMonoArena := m }

def S_BLOCK (T : Target) (val : Addr) : Addr := val / T.blockSize * T.blockSize

/-- `s_set_used_bit`; `none` is the division by zero. -/
def s_set_used_bit (val : Addr) (a : Arena T) : Option (Bool × Arena T) :=
  let pg := S_BLOCK T val
  let b := a.block pg
  let offset := (val - pg) / T.wordBytes - b.color
  if b.u.size = 0 then none
  else if bitIsSet b.used (offset / b.u.size) then some (false, a)
  else if hasFlag b.flags SLAB_MONOLITH then
    some (b.u.numPtrs != 0, a.setBlock pg { b with used := Function.update b.used 0 1#_ })
  else
    some (b.u.numPtrs != 0, a.setBlock pg
      { b with
        used := bitSet b.used (offset / b.u.size)
        u := b.u.setNumFree ((b.u.numFree + (2 ^ 16 - 1)) % 2 ^ 16) })

/-! ### s_cleanup_blocks (gc_jgc.c:439-490) -/

/-- The state of the loop over the blocks of one cache. -/
structure Sweep where
  best : Option Addr
  freeBest : ℕ
  blocks : List Addr
  fullBlocks : List Addr
  freeBlocks : List Addr
  blockUsed : BitVec 32

def sweepBlock (numFree : Addr → ℕ) (numEntries : ℕ) (s : Sweep) (pg : Addr) : Sweep :=
  if numFree pg = 0 then { s with fullBlocks := pg :: s.fullBlocks }
  else if numFree pg = numEntries then
    { s with blockUsed := s.blockUsed - 1, freeBlocks := pg :: s.freeBlocks }
  else
    match s.best with
    | none => { s with best := some pg, freeBest := numFree pg }
    | some best =>
      if numFree pg < s.freeBest then
        -- free_best is read after the swap, from the block that was the best
        { s with best := some pg, freeBest := numFree best, blocks := best :: s.blocks }
      else { s with blocks := pg :: s.blocks }

def cleanupCache (a : Arena T) (sc : ℕ) : Arena T :=
  let c := a.cache sc
  let s := c.lists.foldl (sweepBlock (fun pg => (a.block pg).u.numFree) c.numEntries)
    ⟨none, 4096, [], [], a.freeBlocks, a.blockUsed⟩
  { a with
    cache := Function.update a.cache sc
      { c with blocks := s.best.toList ++ s.blocks, fullBlocks := s.fullBlocks }
    freeBlocks := s.freeBlocks
    blockUsed := s.blockUsed }

def s_cleanup_blocks (fuel : ℕ) (a : Arena T) : Option (Arena T) := do
  let m ← MonoArena.s_cleanup_blocks fuel a.toMonoArena
  return a.caches.foldl cleanupCache { a with toMonoArena := m }

/-! ### get_free_block and s_alloc (gc_jgc.c:348-405, 510-563) -/

/-- The end of `get_free_block`: the next block of the current megablock, or of
a new one, which `jhc_aligned_alloc` put at `base`. -/
def carveBlock (base : Addr) (a : Arena T) : Addr × Arena T :=
  let mb := a.currentMegablock.getD ⟨base, 0⟩
  let pg := mb.base + T.blockSize * mb.nextFree
  let mb' : Megablock := ⟨mb.base, mb.nextFree + 1⟩
  let full := mb'.nextFree == T.megablockSize / T.blockSize
  let b := a.block pg
  let a := a.setBlock pg { b with u := b.u.setNumFree 0 }
  (pg, { a with
    megablocks := if full then mb' :: a.megablocks else a.megablocks
    currentMegablock := if full then none else some mb' })

/-- A collection that leaves nine tenths of the threshold in use doubles it. -/
def raiseThreshold (a : Arena T) : Arena T :=
  { a with blockThreshold :=
      if a.blockThreshold * 9 ≤ a.blockUsed * 10 then a.blockThreshold * 2
      else a.blockThreshold }

def get_free_block (gc : Arena T → Option (Arena T)) (base : Addr) (a : Arena T) :
    Option (Addr × Arena T) :=
  let a := { a with blockUsed := a.blockUsed + 1 }
  match a.freeBlocks with
  | pg :: rest => some (pg, { a with freeBlocks := rest })
  | [] =>
    if a.blockThreshold ≤ a.blockUsed then (gc a).map fun a => carveBlock base a.raiseThreshold
    else some (carveBlock base a)

def initBlock (c : Cache) (pg : SBlock T.bitsPerUnit) : SBlock T.bitsPerUnit :=
  let b : SBlock T.bitsPerUnit :=
    ⟨c.flags, c.color, .pi c.numPtrs c.size pg.u.numFree 0, pg.used⟩
  let b := if c.numEntries ≠ pg.u.numFree then clear_block_used_bits T c.numEntries b else b
  { b with
    used := Function.update b.used 0 1#_
    u := b.u.setNumFree ((c.numEntries + (2 ^ 16 - 1)) % 2 ^ 16) }

/-- `s_alloc`: the address it returns. In this build `get_free_block` never
returns `NULL`, so there is no retry. -/
def s_alloc (gc : Arena T → Option (Arena T)) (base : Addr) (sc : ℕ) (a : Arena T) :
    Option (Addr × Arena T) :=
  match (a.cache sc).blocks with
  | [] => do
    let (pg, a) ← get_free_block gc base a
    let c := a.cache sc
    let a := a.setCache sc { c with blocks := pg :: c.blocks }
    return (pg + c.color * T.wordBytes, a.setBlock pg (initBlock c (a.block pg)))
  | pg :: rest => do
    let c := a.cache sc
    let b := a.block pg
    let numFree := (b.u.numFree + (2 ^ 16 - 1)) % 2 ^ 16
    let (found, nextFree, used) ←
      bitset_find_free b.u.nextFree (T.bitarraySize c.numEntries) b.used
    let u := (b.u.setNumFree numFree).setNextFree (nextFree % 2 ^ 16)
    let a := a.setBlock pg { b with u := u, used := used }
    let a :=
      if numFree = 0 then a.setCache sc { c with blocks := rest, fullBlocks := pg :: c.fullBlocks }
      else a
    return (pg + (b.color + found * u.size) * T.wordBytes, a)

end Arena

end Jhc.Rts

import Mathlib
import Jhc.Lib.Ensures

/-!
# The atom table (src/StringTable/StringTable_cbits.c)

Strings are stored in chunks, each after a byte with its length, and found through a
cuckoo hash table of two halves with two buckets for each hash. An atom is the chunk
and the offset of its string; memory is never refused, but the process exits when the
chunks are used up, and a table of 2^31 entries has no size in an `int`.
-/

namespace Jhc.StringTable
open Jhc.Lib

abbrev Byte := BitVec 8
abbrev Hash := BitVec 32

/-! ### Atoms (StringTable_cbits.c:32-42, StringTable_cbits.h) -/

def NUM_CHUNKS : ℕ := 256
def CHUNK_SIZE : ℕ := 16384
def MAX_ENTRY_SIZE : ℕ := 256
def ATOM_EMPTY : ℕ := 0

def CHUNK_INDEX (c : ℕ) : ℕ := c &&& 0xFF

def CHUNK_OFFSET (c : ℕ) : ℕ := (c >>> 8) &&& 0x3FFF

def MAKE_ATOM (ci co : ℕ) : ℕ := (ci &&& 0xff) ||| ((co &&& 0x3FFF) <<< 8)

structure HEntry where
  hashes : Fin 2 → Hash
  atom : ℕ
  len : ℕ

def HEntry.empty : HEntry := ⟨fun _ => 0, 0, 0⟩

def HEntry.Valid (e : HEntry) : Prop := e.atom ≠ 0

instance (e : HEntry) : Decidable e.Valid := inferInstanceAs (Decidable (e.atom ≠ 0))

structure Table where
  stringtable_chunks : ℕ → ℕ → Byte
  next_free_offset : ℕ
  current_chunk : ℕ
  hsize : ℕ
  htable : ℕ → HEntry

def Table.init : Table where
  stringtable_chunks _ _ := 0
  next_free_offset := 1
  current_chunk := 0
  hsize := 2
  htable _ := .empty

def Table.atomLen (s : Table) (a : ℕ) : ℕ :=
  (s.stringtable_chunks (CHUNK_INDEX a) (CHUNK_OFFSET a)).toNat

/-- `n` bytes of a chunk. -/
def Table.bytes (s : Table) (ci co n : ℕ) : List Byte :=
  (List.range n).map fun k => s.stringtable_chunks ci (co + k)

/-- The `n` bytes behind the length of an atom. -/
def Table.atomBytes (s : Table) (a n : ℕ) : List Byte :=
  s.bytes (CHUNK_INDEX a) (CHUNK_OFFSET a + 1) n

/-- `stringtable_get` -/
def Table.stringtable_get (s : Table) (a : ℕ) : List Byte := s.atomBytes a (s.atomLen a)

/-! ### add_string (StringTable_cbits.c:50-78) -/

/-- `memcpy` of a string into a chunk. -/
def Table.store (s : Table) (ci co : ℕ) (cs : List Byte) : Table :=
  { s with stringtable_chunks := fun i j =>
      if i = ci ∧ co ≤ j ∧ j < co + cs.length then cs.getD (j - co) 0
      else s.stringtable_chunks i j }

def add_string (cs : List Byte) (s : Table) : Except Stop (ℕ × Table) := do
  let s ←
    if s.next_free_offset + 1 > CHUNK_SIZE - MAX_ENTRY_SIZE then
      if s.current_chunk ≥ NUM_CHUNKS - 1 then throw .fail
      else pure { s with current_chunk := s.current_chunk + 1, next_free_offset := 0 }
    else pure s
  let ci := s.current_chunk
  let co := s.next_free_offset
  let s := s.store ci co [BitVec.ofNat 8 cs.length]
  let s := s.store ci (co + 1) cs
  let r := MAKE_ATOM ci co
  return (r, { s with next_free_offset := co + (cs.length + 1) })

/-! ### The hash table (StringTable_cbits.c:80-116, 164-222) -/

def Table.HASHSIZE (s : Table) : ℕ := 2 ^ s.hsize

/-- `HASH_INDEX(i, x)`, with `HASHMASK` of the size. -/
def Table.HASH_INDEX (s : Table) (i : Fin 2) (x : Hash) : ℕ :=
  i * s.HASHSIZE + ((s.HASHSIZE - 1) &&& x.toNat)

/-- The slots that are tried for a hash entry, in order: hash and bucket. -/
def buckets : List (Fin 2 × Fin 2) := [(0, 0), (0, 1), (1, 0), (1, 1)]

def Table.slot (s : Table) (h : Fin 2 → Hash) (b : Fin 2 × Fin 2) : ℕ :=
  s.HASH_INDEX b.1 (h b.1 + BitVec.ofNat 32 b.2)

def Table.write (s : Table) (t : ℕ) (x : HEntry) : Table :=
  { s with htable := Function.update s.htable t x }

/-- An insertion that has found a free slot, or still has an entry in hand. -/
inductive Placing where
  | placed (s : Table)
  | inHand (x : HEntry) (s : Table)

def Placing.andThen (f : HEntry → Table → Placing) : Placing → Placing
  | .placed s => .placed s
  | .inHand x s => f x s

def tryBucket (b : Fin 2 × Fin 2) (x : HEntry) (s : Table) : Placing :=
  let t := s.slot x.hashes b
  if (s.htable t).Valid then .inHand (s.htable t) (s.write t x) else .placed (s.write t x)

/-- One pass of the loop of `hash_insert` over the hashes and buckets. -/
def tryAll (x : HEntry) (s : Table) : Placing :=
  buckets.foldl (fun p b => p.andThen (tryBucket b)) (.inHand x s)

def DEPTH_LIMIT : ℕ := 512

def insertLoop (start : ℕ) : ℕ → HEntry → Table → Placing
  | 0 => .inHand
  | n + 1 => fun x s => (tryAll x s).andThen fun x s =>
    if x.atom = start then .inHand x s else insertLoop start n x s

/-- The table that `calloc` returns for the next size. -/
def Table.grown (s : Table) : Table := { s with hsize := s.hsize + 1, htable := fun _ => .empty }

/-- `grow_table`; `insert` is `hash_insert`. -/
def grow_table (insert : HEntry → Table → Except Stop Table) (s : Table) : Except Stop Table :=
  if 30 ≤ s.hsize then .error .fail
  else
    let os := 2 * s.HASHSIZE
    let ot := s.htable
    (List.range os).foldlM (fun s i => if (ot i).Valid then insert (ot i) s else .ok s) s.grown

def hash_insert : ℕ → HEntry → Table → Except Stop Table
  | 0, _, _ => .error .outOfFuel
  | fuel + 1, x, s =>
    match insertLoop x.atom DEPTH_LIMIT x s with
    | .placed s => .ok s
    | .inHand x s => do
      let s ← grow_table (hash_insert fuel) s
      hash_insert fuel x s

/-! ### stringtable_lookup (StringTable_cbits.c:236-283) -/

section Lookup

-- `hashlittle`, with its initial value as the first argument
variable (hashlittle : Fin 2 → List Byte → Hash)

/-- The bucket holds the string. -/
def Table.Holds (s : Table) (cs : List Byte) (b : Fin 2 × Fin 2) : Prop :=
  let e := s.htable (s.slot (fun i => hashlittle i cs) b)
  e.Valid ∧ hashlittle b.1 cs = e.hashes b.1 ∧ cs.length = e.len ∧
    s.atomBytes e.atom cs.length = cs

instance (s : Table) (cs : List Byte) (b : Fin 2 × Fin 2) : Decidable (s.Holds hashlittle cs b) :=
  inferInstanceAs (Decidable (_ ∧ _))

def stringtable_lookup (fuel : ℕ) (cs : List Byte) (s : Table) : Except Stop (ℕ × Table) :=
  if cs.length = 0 then .ok (ATOM_EMPTY, s)
  else
    let h := fun i => hashlittle i cs
    match buckets.find? (fun b => s.Holds hashlittle cs b) with
    | some b => .ok ((s.htable (s.slot h b)).atom, s)
    | none => do
      let (na, s) ← add_string cs s
      let s ← hash_insert fuel ⟨h, na % 2 ^ 24, cs.length % 2 ^ 8⟩ s
      return (na, s)

/-- The atoms of a sequence of calls. -/
def lookups (fuel : ℕ) : List (List Byte) → Table → Except Stop (List ℕ × Table)
  | [], s => .ok ([], s)
  | cs :: css, s => do
    let (a, s) ← stringtable_lookup hashlittle fuel cs s
    let (as, s) ← lookups fuel css s
    return (a :: as, s)

end Lookup

end Jhc.StringTable

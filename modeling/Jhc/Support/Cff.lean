import Mathlib

/-!
# Chunked files (src/Support/CFF.hs)

A file is a header with three bytes of the file id, and chunks: length, type, data
and an unused checksum. It is decoded from a strict or a lazy byte string, or from a
handle.
-/

namespace Jhc.Cff

abbrev Byte := BitVec 8
abbrev Word32 := BitVec 32

structure ChunkType where
  w : Word32
  deriving DecidableEq

abbrev FileType := ChunkType

/-! ### Bytes and words (CFF.hs:250-285) -/

def word32ToBytes (w : Word32) : Byte × Byte × Byte × Byte :=
  let b n : Byte := ((w >>> (8 * n)) &&& 0xFF).setWidth 8
  (b 3, b 2, b 1, b 0)

def bytesToWord32 (b1 b2 b3 b4 : Byte) : Word32 :=
  let b (n : ℕ) (c : Byte) : Word32 := c.setWidth 32 <<< (8 * n)
  b 3 b1 ||| b 2 b2 ||| b 1 b3 ||| b 0 b4

def bytesToChunkType (b1 b2 b3 b4 : Byte) : ChunkType := ⟨bytesToWord32 b1 b2 b3 b4⟩

/-- `ord ' '` -/
def space : Byte := 0x20

/-! ### Writing (CFF.hs:129-131, 196-204) -/

def mkCFFHeader (ft : FileType) : List Byte :=
  let (b1, b2, b3, _) := word32ToBytes ft.w
  [0x89, b1, b2, b3, 0x0d, 0x0a, 0x1a, 0x0a]

def zero : List Byte := [0, 0, 0, 0]

/-- The bytes of one chunk, the function `f` of `mkCFFfile`. -/
def chunkBytes (c : ChunkType × List Byte) : List Byte :=
  let (b1, b2, b3, b4) := word32ToBytes c.1.w
  let (l1, l2, l3, l4) := word32ToBytes (BitVec.ofNat 32 c.2.length)
  [l1, l2, l3, l4, b1, b2, b3, b4] ++ c.2 ++ zero

def mkCFFfile (ft : FileType) (cs : List (ChunkType × List Byte)) : List Byte :=
  mkCFFHeader ft ++ cs.flatMap chunkBytes

/-! ### Decoding byte strings (CFF.hs:68-127) -/

inductive Failure where
  | fail (msg : String)
  | index
  | eof
  | outOfFuel
  deriving DecidableEq

def index (bs : List Byte) (n : ℕ) : Except Failure Byte :=
  match bs[n]? with
  | some b => .ok b
  | none => .error .index

def checkByte (bs : List Byte) (n : ℕ) (b : Byte) : Except Failure Unit := do
  let c ← index bs n
  if c = b then return () else throw (.fail "bsCFF: invalid chunked file")

def bsWord32 (bs : List Byte) : Except Failure Word32 := do
  let b1 ← index bs 0
  let b2 ← index bs 1
  let b3 ← index bs 2
  let b4 ← index bs 3
  return bytesToWord32 b1 b2 b3 b4

/-- The chunks of a file; an index out of range is a failure of the whole list. -/
def readRest (bs : List Byte) : Except Failure (List (ChunkType × List Byte)) :=
  if bs = [] then .ok []
  else do
    let len ← bsWord32 bs
    let ct ← bsWord32 (bs.drop 4)
    let split := (bs.drop 8).splitAt len.toNat
    let xs ← readRest (split.2.drop 4)
    return (⟨ct⟩, split.1) :: xs
termination_by bs.length
decreasing_by
  have hpos : 0 < bs.length := List.length_pos_of_ne_nil ‹_›
  simp only [List.splitAt_eq, List.length_drop]
  omega

def bsCFF (bs : List Byte) : Except Failure (FileType × List (ChunkType × List Byte)) := do
  if bs.length < 8 then throw (.fail "bsCFF: chunked file is too short")
  checkByte bs 0 0x89
  checkByte bs 4 0x0d
  let b1 ← index bs 1
  let b2 ← index bs 2
  let b3 ← index bs 3
  checkByte bs 5 0x0a
  checkByte bs 6 0x1a
  checkByte bs 7 0x0a
  let header := bytesToChunkType b1 b2 b3 space
  let xs ← readRest (bs.drop 8)
  return (header, xs)

def lbsCFF (bs' : List Byte) : Except Failure (FileType × List (ChunkType × List Byte)) := do
  let bs := bs'.take 8
  if bs.length < 8 then throw (.fail "bsCFF: chunked file is too short")
  checkByte bs 0 0x89
  checkByte bs 4 0x0d
  let b1 ← index bs 1
  let b2 ← index bs 2
  let b3 ← index bs 3
  checkByte bs 5 0x0a
  checkByte bs 6 0x1a
  checkByte bs 7 0x0a
  let header := bytesToChunkType b1 b2 b3 space
  let xs ← readRest (bs'.drop 8)
  return (header, xs)

/-! ### Handles (CFF.hs:133-193, 244-275)

The file of a handle is in binary mode, so that characters are bytes. -/

structure Handle where
  contents : List Byte
  pos : ℕ

def hIsEOF (h : Handle) : Bool := h.contents.length ≤ h.pos

def getByte (h : Handle) : Except Failure (Byte × Handle) :=
  match h.contents[h.pos]? with
  | some b => .ok (b, { h with pos := h.pos + 1 })
  | none => .error .eof

def hGet (h : Handle) (n : ℕ) : List Byte × Handle :=
  let bs := (h.contents.drop h.pos).take n
  (bs, { h with pos := h.pos + bs.length })

/-- `hSeek` relative to the position; it may go beyond the end. -/
def hSeek (h : Handle) (n : ℕ) : Handle := { h with pos := h.pos + n }

def readWord32 (h : Handle) : Except Failure (Word32 × Handle) := do
  let (b1, h) ← getByte h
  let (b2, h) ← getByte h
  let (b3, h) ← getByte h
  let (b4, h) ← getByte h
  return (bytesToWord32 b1 b2 b3 b4, h)

def readChunkType (h : Handle) : Except Failure (ChunkType × Handle) := do
  let (w, h) ← readWord32 h
  return (⟨w⟩, h)

def hCheckByte (h : Handle) (b : Byte) : Except Failure Handle := do
  let (z, h) ← getByte h
  if z = b then return h else throw (.fail "readCFFInfo: invalid chunked file")

def readCFFHeader (h : Handle) : Except Failure (ChunkType × Handle) := do
  let h ← hCheckByte h 0x89
  let (b1, h) ← getByte h
  let (b2, h) ← getByte h
  let (b3, h) ← getByte h
  let h ← hCheckByte h 0x0d
  let h ← hCheckByte h 0x0a
  let h ← hCheckByte h 0x1a
  let h ← hCheckByte h 0x0a
  return (bytesToChunkType b1 b2 b3 space, h)

abbrev FileOffset := BitVec 64
abbrev ChunkLength := BitVec 64

/-- The function `readChunk` of `readCFFInfo`. -/
def infoChunks : ℕ → Handle → FileOffset →
    Except Failure (List (ChunkType × FileOffset × ChunkLength))
  | 0, _, _ => .error .outOfFuel
  | fuel + 1, h, fo => do
    if hIsEOF h then return []
    let (len, h) ← readWord32 h
    let (ct, h) ← readChunkType h
    let h := hSeek h len.toNat
    let (_csum, h) ← readWord32 h
    let xs ← infoChunks fuel h (fo + len.setWidth 64 + 12)
    return (ct, fo + 8, len.setWidth 64) :: xs

def readCFFInfo (fuel : ℕ) (h : Handle) :
    Except Failure (ChunkType × List (ChunkType × FileOffset × ChunkLength)) := do
  let (cffType, h) ← readCFFHeader h
  let xs ← infoChunks fuel h 8
  return (cffType, xs)

/-- The function `readChunk` of `readCFF`. -/
def fileChunks : ℕ → Handle → Except Failure (List (ChunkType × List Byte))
  | 0, _ => .error .outOfFuel
  | fuel + 1, h => do
    if hIsEOF h then return []
    let (len, h) ← readWord32 h
    let (ct, h) ← readChunkType h
    let (bs, h) := hGet h len.toNat
    let (_csum, h) ← readWord32 h
    let xs ← fileChunks fuel h
    return (ct, bs) :: xs

def readCFF (fuel : ℕ) (h : Handle) :
    Except Failure (ChunkType × List (ChunkType × List Byte)) := do
  let (cffType, h) ← readCFFHeader h
  let xs ← fileChunks fuel h
  return (cffType, xs)

/-- The function `readChunk` of `readChunk`. -/
def findChunk (ect : ChunkType) : ℕ → Handle → Except Failure (List Byte)
  | 0, _ => .error .outOfFuel
  | fuel + 1, h => do
    if hIsEOF h then throw (.fail "readChunk: specified chunk was not found")
    let (len, h) ← readWord32 h
    let (ct, h) ← readChunkType h
    if ct = ect then return (hGet h len.toNat).1
    else findChunk ect fuel (hSeek h (len.toNat + 4))

def readChunk (fuel : ℕ) (h : Handle) (eft ect : ChunkType) : Except Failure (List Byte) := do
  let (cffType, h) ← readCFFHeader h
  if cffType ≠ eft then throw (.fail "readChunk: CFF file of incorrect type")
  findChunk ect fuel h

end Jhc.Cff

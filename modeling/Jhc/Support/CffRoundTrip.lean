import Mathlib.Data.List.Basic
import Mathlib.Data.List.Forall2
import Jhc.Support.Cff

/-!
# Decoding what mkCFFfile writes (src/Support/CFF.hs)

All decoders find the chunks of an encoded file, with the fourth byte of the file id
read as a space.
-/

namespace Jhc.Cff

/-! ### Words -/

theorem getLsbD_ff (j : ℕ) : (0xFF : Word32).getLsbD j = decide (j < 8) := by
  have hpow : (0xFF : Word32) = BitVec.ofNat 32 (2 ^ 8 - 1) := rfl
  rw [hpow, BitVec.getLsbD_ofNat, Nat.testBit_two_pow_sub_one]
  by_cases hj : j < 8
  · simp only [hj, decide_true, Bool.and_true, decide_eq_true_eq]
    omega
  · simp only [hj, decide_false, Bool.and_false]

theorem byte_getLsbD (w : Word32) (n i : ℕ) (hi : i < 32) :
    ((((w >>> (8 * n)) &&& 0xFF).setWidth 8).setWidth 32 <<< (8 * n)).getLsbD i =
      (decide (8 * n ≤ i ∧ i < 8 * n + 8) && w.getLsbD i) := by
  simp only [BitVec.getLsbD_shiftLeft, BitVec.getLsbD_setWidth, BitVec.getLsbD_and,
    BitVec.getLsbD_ushiftRight, getLsbD_ff]
  by_cases hle : 8 * n ≤ i
  · have hadd : 8 * n + (i - 8 * n) = i := by omega
    rw [hadd]
    by_cases hlt : i - 8 * n < 8
    · have hlt' : i < 8 * n + 8 := by omega
      have hlt'' : i - 8 * n < 32 := by omega
      simp [hle, hlt, hlt', hlt'', hi]
    · have hnot : ¬i < 8 * n + 8 := by omega
      simp [hlt, hnot]
  · have hlt : i < 8 * n := by omega
    simp [hle, hlt]

theorem bytes_word {w : Word32} {b1 b2 b3 b4 : Byte} (h : word32ToBytes w = (b1, b2, b3, b4)) :
    bytesToWord32 b1 b2 b3 b4 = w := by
  cases h
  unfold bytesToWord32
  apply BitVec.eq_of_getLsbD_eq
  intro i hi
  simp only [BitVec.getLsbD_or, byte_getLsbD w _ i hi]
  cases w.getLsbD i
  · simp
  · simp
    omega

/-- The file id as the header keeps it. -/
def spaced (ft : FileType) : FileType := ⟨(ft.w &&& ~~~0xFF) ||| 0x20⟩

theorem spaced_self {ft : FileType} (h : ft.w &&& 0xFF = 0x20) : spaced ft = ft := by
  unfold spaced
  rw [← h]
  cases ft
  congr 1
  apply BitVec.eq_of_getLsbD_eq
  intro i hi
  simp only [BitVec.getLsbD_or, BitVec.getLsbD_and, BitVec.getLsbD_not, getLsbD_ff, hi]
  by_cases hlt : i < 8
  · simp [hlt]
  · simp [hlt]

theorem header_word (ft : FileType) {b1 b2 b3 b4 : Byte} (h : word32ToBytes ft.w = (b1, b2, b3, b4)) :
    bytesToChunkType b1 b2 b3 space = spaced ft := by
  cases h
  unfold bytesToChunkType bytesToWord32 spaced
  congr 1
  apply BitVec.eq_of_getLsbD_eq
  intro i hi
  simp only [BitVec.getLsbD_or, byte_getLsbD ft.w _ i hi, BitVec.getLsbD_and, BitVec.getLsbD_not,
    getLsbD_ff, hi]
  have hspace : (space.setWidth 32 <<< (8 * 0) : Word32) = 0x20 := rfl
  rw [hspace]
  cases ft.w.getLsbD i with
  | false => simp
  | true =>
    cases (0x20 : Word32).getLsbD i with
    | true => simp
    | false =>
      by_cases hlt : i < 8
      · have hnot : ¬8 ≤ i ∧ ¬16 ≤ i ∧ ¬24 ≤ i := by omega
        simp [hlt, hnot]
      · have hor : 24 ≤ i ∨ 16 ≤ i ∧ i < 24 ∨ 8 ≤ i ∧ i < 16 := by omega
        simp [hlt]
        omega

/-! ### Byte strings -/

/-- The bytes of a chunk before its data. -/
theorem chunkBytes_eq (c : ChunkType × List Byte) : ∃ l1 l2 l3 l4 b1 b2 b3 b4,
    chunkBytes c = l1 :: l2 :: l3 :: l4 :: b1 :: b2 :: b3 :: b4 :: (c.2 ++ zero) ∧
      bytesToWord32 l1 l2 l3 l4 = BitVec.ofNat 32 c.2.length ∧
      bytesToWord32 b1 b2 b3 b4 = c.1.w := by
  exact ⟨_, _, _, _, _, _, _, _, rfl, bytes_word rfl, bytes_word rfl⟩

theorem length_word {n : ℕ} (h : n < 2 ^ 32) : (BitVec.ofNat 32 n).toNat = n := by
  rw [BitVec.toNat_ofNat]
  exact Nat.mod_eq_of_lt h

theorem readRest_nil : readRest [] = .ok [] := by
  rw [readRest, if_pos rfl]

theorem readRest_chunk (c : ChunkType × List Byte) (hlen : c.2.length < 2 ^ 32) (rest : List Byte) :
    readRest (chunkBytes c ++ rest) = do
      let xs ← readRest rest
      return c :: xs := by
  obtain ⟨l1, l2, l3, l4, b1, b2, b3, b4, heq, hl, hb⟩ := chunkBytes_eq c
  rw [heq]
  show readRest (l1 :: l2 :: l3 :: l4 :: b1 :: b2 :: b3 :: b4 :: (c.2 ++ zero ++ rest)) = _
  have hlen' : bsWord32 (l1 :: l2 :: l3 :: l4 :: b1 :: b2 :: b3 :: b4 :: (c.2 ++ zero ++ rest)) =
      .ok (BitVec.ofNat 32 c.2.length) := congrArg Except.ok hl
  have hct : bsWord32 (b1 :: b2 :: b3 :: b4 :: (c.2 ++ zero ++ rest)) = .ok c.1.w :=
    congrArg Except.ok hb
  have hsplit : (c.2 ++ zero ++ rest).splitAt c.2.length = (c.2, zero ++ rest) := by
    rw [List.append_assoc, List.splitAt_eq, List.take_left, List.drop_left]
  rw [readRest, if_neg (List.cons_ne_nil _ _), hlen']
  show (do
    let ct ← bsWord32 (b1 :: b2 :: b3 :: b4 :: (c.2 ++ zero ++ rest))
    let split := (c.2 ++ zero ++ rest).splitAt (BitVec.ofNat 32 c.2.length).toNat
    let xs ← readRest (split.2.drop 4)
    return ((⟨ct⟩ : ChunkType), split.1) :: xs) = _
  rw [hct, length_word hlen, hsplit]
  rfl

theorem readRest_chunks {cs : List (ChunkType × List Byte)} (hlen : ∀ c ∈ cs, c.2.length < 2 ^ 32) :
    readRest (cs.flatMap chunkBytes) = .ok cs := by
  induction cs with
  | nil => exact readRest_nil
  | cons c cs ih =>
    rw [List.flatMap_cons, readRest_chunk c (hlen c List.mem_cons_self),
      ih fun d hd => hlen d (List.mem_cons_of_mem c hd)]
    rfl

theorem bsCFF_header (ft : FileType) (bs : List Byte) : bsCFF (mkCFFHeader ft ++ bs) = do
    let xs ← readRest bs
    return (spaced ft, xs) := by
  rw [← header_word ft rfl]
  rfl

theorem lbsCFF_header (ft : FileType) (bs : List Byte) : lbsCFF (mkCFFHeader ft ++ bs) = do
    let xs ← readRest bs
    return (spaced ft, xs) := by
  rw [← header_word ft rfl]
  rfl

/-! ### Handles -/

section Handles

theorem ok_bind {α β : Type} (a : α) (f : α → Except Failure β) : (Except.ok a >>= f) = f a := rfl

variable {file : List Byte} {p : ℕ}

theorem drop_cons {b : Byte} {r : List Byte} (h : file.drop p = b :: r) :
    file[p]? = some b ∧ file.drop (p + 1) = r := by
  constructor
  · rw [← List.head?_drop, h]
    rfl
  · rw [← List.drop_drop, h]
    rfl

theorem getByte_of {b : Byte} {r : List Byte} (h : file.drop p = b :: r) :
    getByte ⟨file, p⟩ = .ok (b, ⟨file, p + 1⟩) := by
  unfold getByte
  rw [(drop_cons h).1]

theorem readWord32_of {b1 b2 b3 b4 : Byte} {r : List Byte}
    (h : file.drop p = b1 :: b2 :: b3 :: b4 :: r) :
    readWord32 ⟨file, p⟩ = .ok (bytesToWord32 b1 b2 b3 b4, ⟨file, p + 4⟩) ∧
      file.drop (p + 4) = r := by
  have h1 := (drop_cons h).2
  have h2 := (drop_cons h1).2
  have h3 := (drop_cons h2).2
  refine ⟨?_, (drop_cons h3).2⟩
  simp only [readWord32, getByte_of h, getByte_of h1, getByte_of h2, getByte_of h3, ok_bind]
  rfl

theorem readChunkType_of {b1 b2 b3 b4 : Byte} {r : List Byte}
    (h : file.drop p = b1 :: b2 :: b3 :: b4 :: r) :
    readChunkType ⟨file, p⟩ = .ok (bytesToChunkType b1 b2 b3 b4, ⟨file, p + 4⟩) := by
  simp only [readChunkType, (readWord32_of h).1, ok_bind]
  rfl

theorem hCheckByte_of {b : Byte} {r : List Byte} (h : file.drop p = b :: r) :
    hCheckByte ⟨file, p⟩ b = .ok ⟨file, p + 1⟩ := by
  simp only [hCheckByte, getByte_of h, ok_bind, if_true]
  rfl

theorem readCFFHeader_of {ft : FileType} {r : List Byte} (h : file = mkCFFHeader ft ++ r) :
    readCFFHeader ⟨file, 0⟩ = .ok (spaced ft, ⟨file, 8⟩) := by
  subst h
  rw [← header_word ft rfl]
  rfl

/-- Reading a chunk that stands at the position. -/
theorem chunk_at {c : ChunkType × List Byte} {r : List Byte}
    (h : file.drop p = chunkBytes c ++ r) :
    hIsEOF ⟨file, p⟩ = false ∧
      readWord32 ⟨file, p⟩ = .ok (BitVec.ofNat 32 c.2.length, ⟨file, p + 4⟩) ∧
      readChunkType ⟨file, p + 4⟩ = .ok (c.1, ⟨file, p + 8⟩) ∧
      hGet ⟨file, p + 8⟩ c.2.length = (c.2, ⟨file, p + 8 + c.2.length⟩) ∧
      readWord32 ⟨file, p + 8 + c.2.length⟩ = .ok (0, ⟨file, p + 12 + c.2.length⟩) ∧
      file.drop (p + 12 + c.2.length) = r := by
  obtain ⟨l1, l2, l3, l4, b1, b2, b3, b4, heq, hl, hb⟩ := chunkBytes_eq c
  have hfile : file.drop p = l1 :: l2 :: l3 :: l4 :: b1 :: b2 :: b3 :: b4 :: (c.2 ++ zero ++ r) := by
    rw [h, heq]
    rfl
  obtain ⟨hword, hdrop4⟩ := readWord32_of hfile
  have hdrop8 := (readWord32_of hdrop4).2
  rw [Nat.add_assoc, List.append_assoc] at hdrop8
  have hdata : file.drop (p + 8 + c.2.length) = zero ++ r := by
    rw [← List.drop_drop, hdrop8, List.drop_left]
  obtain ⟨hsum, hrest⟩ := readWord32_of hdata
  have hpos : p + 8 + c.2.length + 4 = p + 12 + c.2.length := by omega
  rw [hpos] at hsum hrest
  refine ⟨?_, hl ▸ hword, ?_, ?_, hsum, hrest⟩
  · have hlt : p < file.length := by
      by_contra hge
      rw [List.drop_eq_nil_of_le (Nat.le_of_not_lt hge)] at hfile
      cases hfile
    exact decide_eq_false (Nat.not_le.mpr hlt)
  · rw [readChunkType_of hdrop4]
    unfold bytesToChunkType
    rw [hb]
  · unfold hGet
    simp only [hdrop8, List.take_left]

/-- The end of the file, where no chunk is left. -/
theorem eof_of (h : file.drop p = []) : hIsEOF ⟨file, p⟩ = true :=
  decide_eq_true (List.drop_eq_nil_iff.mp h)

theorem fileChunks_spec {cs : List (ChunkType × List Byte)} (hlen : ∀ c ∈ cs, c.2.length < 2 ^ 32)
    {fuel : ℕ} (hfuel : cs.length < fuel) (h : file.drop p = cs.flatMap chunkBytes) :
    fileChunks fuel ⟨file, p⟩ = .ok cs := by
  induction cs generalizing p fuel with
  | nil =>
    cases fuel with
    | zero => exact absurd hfuel (Nat.not_lt_zero _)
    | succ fuel =>
      unfold fileChunks
      rw [eof_of h]
      rfl
  | cons c cs ih =>
    cases fuel with
    | zero => exact absurd hfuel (Nat.not_lt_zero _)
    | succ fuel =>
      obtain ⟨heof, hword, hct, hdata, hsum, hrest⟩ := chunk_at h
      have hnum := length_word (hlen c List.mem_cons_self)
      have hih := ih (fun d hd => hlen d (List.mem_cons_of_mem c hd)) (Nat.lt_of_succ_lt_succ hfuel)
        hrest
      simp only [fileChunks, heof, hword, hct, hnum, hdata, hsum, hih, ok_bind]
      rfl

/-- Where the chunks of a file are written, from offset `fo` on. -/
def written : ℕ → List (ChunkType × List Byte) → List (ChunkType × ℕ × ℕ)
  | _, [] => []
  | fo, c :: cs => (c.1, fo + 8, c.2.length) :: written (fo + 12 + c.2.length) cs

/-- The offsets and lengths as words. -/
def words (i : ChunkType × ℕ × ℕ) : ChunkType × FileOffset × ChunkLength :=
  (i.1, BitVec.ofNat 64 i.2.1, BitVec.ofNat 64 i.2.2)

theorem written_data {cs : List (ChunkType × List Byte)} (h : file.drop p = cs.flatMap chunkBytes) :
    List.Forall₂ (fun i c => i.1 = c.1 ∧ i.2.2 = c.2.length ∧
      (file.drop i.2.1).take i.2.2 = c.2) (written p cs) cs := by
  induction cs generalizing p with
  | nil => exact .nil
  | cons c cs ih =>
    obtain ⟨-, -, -, hdata, -, hrest⟩ := chunk_at h
    exact .cons ⟨rfl, rfl, congrArg Prod.fst hdata⟩ (ih hrest)

theorem infoChunks_spec {cs : List (ChunkType × List Byte)} (hlen : ∀ c ∈ cs, c.2.length < 2 ^ 32)
    {fuel : ℕ} (hfuel : cs.length < fuel) (h : file.drop p = cs.flatMap chunkBytes) :
    infoChunks fuel ⟨file, p⟩ (BitVec.ofNat 64 p) = .ok ((written p cs).map words) := by
  induction cs generalizing p fuel with
  | nil =>
    cases fuel with
    | zero => exact absurd hfuel (Nat.not_lt_zero _)
    | succ fuel =>
      unfold infoChunks
      rw [eof_of h]
      rfl
  | cons c cs ih =>
    cases fuel with
    | zero => exact absurd hfuel (Nat.not_lt_zero _)
    | succ fuel =>
      obtain ⟨heof, hword, hct, -, hsum, hrest⟩ := chunk_at h
      have hlt := hlen c List.mem_cons_self
      have hnum := length_word hlt
      have hih := ih (fun d hd => hlen d (List.mem_cons_of_mem c hd)) (Nat.lt_of_succ_lt_succ hfuel)
        hrest
      have hwide : (BitVec.ofNat 32 c.2.length).setWidth 64 = BitVec.ofNat 64 c.2.length := by
        apply BitVec.eq_of_toNat_eq
        rw [BitVec.toNat_setWidth, hnum, BitVec.toNat_ofNat]
      have hnext : BitVec.ofNat 64 p + BitVec.ofNat 64 c.2.length + 12 =
          BitVec.ofNat 64 (p + 12 + c.2.length) := by
        rw [BitVec.ofNat_add, BitVec.ofNat_add, BitVec.add_assoc, BitVec.add_assoc,
          BitVec.add_comm (BitVec.ofNat 64 c.2.length)]
        rfl
      have hstart : BitVec.ofNat 64 p + 8 = BitVec.ofNat 64 (p + 8) := (BitVec.ofNat_add p 8).symm
      simp only [infoChunks, heof, hword, hct, hnum, hwide, hnext, hstart, hSeek, hsum, hih, ok_bind]
      rfl

/-- `readChunk` returns the first chunk of the type. -/
theorem findChunk_spec (ect : ChunkType) {cs : List (ChunkType × List Byte)}
    (hlen : ∀ c ∈ cs, c.2.length < 2 ^ 32) {fuel : ℕ} (hfuel : cs.length < fuel)
    (h : file.drop p = cs.flatMap chunkBytes) : findChunk ect fuel ⟨file, p⟩ =
      match cs.find? (fun c => c.1 = ect) with
      | some c => .ok c.2
      | none => .error (.fail "readChunk: specified chunk was not found") := by
  induction cs generalizing p fuel with
  | nil =>
    cases fuel with
    | zero => exact absurd hfuel (Nat.not_lt_zero _)
    | succ fuel =>
      unfold findChunk
      rw [eof_of h]
      rfl
  | cons c cs ih =>
    cases fuel with
    | zero => exact absurd hfuel (Nat.not_lt_zero _)
    | succ fuel =>
      obtain ⟨heof, hword, hct, hdata, -, hrest⟩ := chunk_at h
      have hnum := length_word (hlen c List.mem_cons_self)
      have hih := ih (fun d hd => hlen d (List.mem_cons_of_mem c hd)) (Nat.lt_of_succ_lt_succ hfuel)
        hrest
      by_cases hect : c.1 = ect
      · simp only [findChunk, heof, hword, hct, hnum, hdata, ok_bind, hect, List.find?_cons_of_pos,
          decide_true, if_true]
        rfl
      · have hseek : p + 8 + (c.2.length + 4) = p + 12 + c.2.length := by omega
        simp only [findChunk, heof, hword, hct, hnum, ok_bind, hect, hSeek, hseek, if_false,
          decide_false, Bool.false_eq_true, not_false_eq_true, List.find?_cons_of_neg, hih]

end Handles

/-! ### The round trip -/

/-- The file id of the source for `.ho` files. -/
def jhcMagic : FileType := bytesToChunkType 0x4a 0x48 0x43 space

/-- Two chunks, the second without data. -/
def twoChunks : List (ChunkType × List Byte) := [(⟨1⟩, [7, 8]), (⟨2⟩, [])]

end Jhc.Cff

import Jhc.StringTable.Lookup

/-!
# Concatenation of atoms (src/StringTable/StringTable_cbits.c:294-312)

`atom_append` copies both strings into a buffer of `MAX_ENTRY_SIZE` bytes and looks the result
up. Lengths are only checked by assertions that are compiled out.
-/

namespace Jhc.StringTable
open Jhc.Lib

/-- `memcpy` into `buf[MAX_ENTRY_SIZE]`, with `none` for a write behind its end. -/
def memcpy (buf : ℕ → Byte) (off : ℕ) (cs : List Byte) : Option (ℕ → Byte) :=
  if off + cs.length ≤ MAX_ENTRY_SIZE then
    some fun k => if off ≤ k ∧ k < off + cs.length then cs.getD (k - off) 0 else buf k
  else none

section Append

variable (hashlittle : Fin 2 → List Byte → Hash)

/-- `buf` is what the buffer holds at the start. -/
def atom_append (fuel : ℕ) (buf : ℕ → Byte) (x y : ℕ) (s : Table) : Option (Except Stop (ℕ × Table)) :=
  if x = ATOM_EMPTY then some (.ok (y, s))
  else if y = ATOM_EMPTY then some (.ok (x, s))
  else do
    let xl := s.atomLen x
    let yl := s.atomLen y
    let buf ← memcpy buf 0 (s.stringtable_get x)
    let buf ← memcpy buf xl (s.stringtable_get y)
    return stringtable_lookup hashlittle fuel ((List.range (xl + yl)).map buf) s

/-- `x` is the empty atom or one of the table. -/
def Table.HasAtom (s : Table) (x : ℕ) : Prop := ∃ cs, Interned s x cs

/-- `add_string` dies, as all chunks are used. -/
def Table.Full (s : Table) : Prop :=
  s.next_free_offset + 1 > CHUNK_SIZE - MAX_ENTRY_SIZE ∧ s.current_chunk ≥ NUM_CHUNKS - 1

/-- What `atom_append` is to do. The length that is recorded is the one that `add_string`
writes when the new string is not in the table. -/
structure AppendCorrect (s : Table) (x y : ℕ) : Prop where
  inside : ∀ fuel buf, atom_append hashlittle fuel buf x y s ≠ none
  returned : ∀ fuel buf a t, atom_append hashlittle fuel buf x y s = some (.ok (a, t)) →
    t.stringtable_get a = s.stringtable_get x ++ s.stringtable_get y ∧
      ∀ c, s.HasAtom c → t.HasAtom c ∧ t.stringtable_get c = s.stringtable_get c
  recorded : ∀ a t, add_string (s.stringtable_get x ++ s.stringtable_get y) s = .ok (a, t) →
    t.atomLen a = s.atomLen x + s.atomLen y

/-- When it does so. -/
def Appendable (s : Table) (x y : ℕ) : Prop :=
  x = ATOM_EMPTY ∨ y = ATOM_EMPTY ∨ s.atomLen x + s.atomLen y < MAX_ENTRY_SIZE ∨
    s.atomLen x + s.atomLen y = MAX_ENTRY_SIZE ∧ s.Full

/-- The tables of runs of lookups and concatenations that do so. -/
inductive Reached : Table → Prop
  | init : Reached Table.init
  | lookup {s t : Table} {fuel a : ℕ} {cs : List Byte} (h : Reached s) (hlen : cs.length < MAX_ENTRY_SIZE)
      (hrun : stringtable_lookup hashlittle fuel cs s = .ok (a, t)) : Reached t
  | append {s t : Table} {fuel a x y : ℕ} {buf : ℕ → Byte} (h : Reached s) (hx : s.HasAtom x) (hy : s.HasAtom y)
      (hok : Appendable s x y) (hrun : atom_append hashlittle fuel buf x y s = some (.ok (a, t))) : Reached t

variable {hashlittle} {s t : Table} {x y a fuel : ℕ} {cs ds : List Byte} {buf : ℕ → Byte}

/-! ### The buffer -/

theorem get_length (s : Table) (x : ℕ) : (s.stringtable_get x).length = s.atomLen x := bytes_length ..

theorem memcpy_some {off : ℕ} (h : off + cs.length ≤ MAX_ENTRY_SIZE) :
    memcpy buf off cs = some fun k => if off ≤ k ∧ k < off + cs.length then cs.getD (k - off) 0 else buf k :=
  if_pos h

theorem memcpy_none {off : ℕ} (h : MAX_ENTRY_SIZE < off + cs.length) : memcpy buf off cs = none := if_neg (by omega)

/-- Two strings one behind the other. -/
theorem copied (cs ds : List Byte) (buf : ℕ → Byte) :
    (List.range (cs.length + ds.length)).map (fun k =>
      if cs.length ≤ k ∧ k < cs.length + ds.length then ds.getD (k - cs.length) 0
      else if 0 ≤ k ∧ k < 0 + cs.length then cs.getD (k - 0) 0 else buf k) = cs ++ ds := by
  apply List.ext_getElem
  · simp
  · intro k hk hk'
    rw [List.getElem_map, List.getElem_range]
    rw [List.length_append] at hk'
    by_cases hlt : k < cs.length
    · rw [if_neg (by omega), if_pos (by omega), List.getElem_append_left hlt]
      exact List.getD_eq_getElem _ _ hlt
    · have hin : k - cs.length < ds.length := by omega
      rw [if_pos (by omega), List.getElem_append_right (by omega)]
      exact List.getD_eq_getElem _ _ hin

theorem atom_append_eq (hx : x ≠ ATOM_EMPTY) (hy : y ≠ ATOM_EMPTY)
    (hlen : s.atomLen x + s.atomLen y ≤ MAX_ENTRY_SIZE) :
    atom_append hashlittle fuel buf x y s =
      some (stringtable_lookup hashlittle fuel (s.stringtable_get x ++ s.stringtable_get y) s) := by
  have hxl := get_length s x
  have hyl := get_length s y
  unfold atom_append
  rw [if_neg hx, if_neg hy]
  dsimp only
  rw [memcpy_some (by omega), Option.bind_eq_bind, Option.bind_some, memcpy_some (by omega), Option.bind_some,
    ← hxl, ← hyl, copied]
  rfl

theorem atom_append_none (hx : x ≠ ATOM_EMPTY) (hy : y ≠ ATOM_EMPTY)
    (hlen : MAX_ENTRY_SIZE < s.atomLen x + s.atomLen y) : atom_append hashlittle fuel buf x y s = none := by
  have hyl := get_length s y
  unfold atom_append
  rw [if_neg hx, if_neg hy]
  dsimp only
  rw [Option.bind_eq_bind, Option.bind_eq_none_iff]
  intro buf' _
  rw [memcpy_none (by omega)]
  rfl

/-! ### What is recorded -/

theorem add_string_full (h : s.Full) : add_string cs s = .error .fail := by
  rw [add_string_eq, if_pos h.1, if_pos h.2]
  rfl

/-- The length is recorded in one byte. -/
theorem recorded_length (h : Inv hashlittle s) (hrun : add_string cs s = .ok (a, t)) :
    t.atomLen a = cs.length % 2 ^ 8 := by
  have hspec : Ensures (add_string cs s) (fun p => p.2.atomLen p.1 = cs.length % 2 ^ 8) True True := by
    rw [add_string_eq]
    refine Ensures.bind (put_room h) fun u hroom => ?_
    have hchunk := hroom.chunk
    have hoffset := hroom.offset
    unfold NUM_CHUNKS at hchunk
    unfold CHUNK_SIZE MAX_ENTRY_SIZE at hoffset
    show (u.put cs).atomLen (MAKE_ATOM u.current_chunk u.next_free_offset) = _
    unfold Table.atomLen
    rw [chunk_index_make hchunk (by omega), chunk_offset_make hchunk (by omega)]
    exact congrArg BitVec.toNat (put_length u cs)
  exact hspec.ok hrun

theorem add_string_returns (hfull : ¬ s.Full) : ∃ a t, add_string cs s = .ok (a, t) := by
  rw [add_string_eq]
  by_cases hoff : s.next_free_offset + 1 > CHUNK_SIZE - MAX_ENTRY_SIZE
  · rw [if_pos hoff, if_neg fun hchunk => hfull ⟨hoff, hchunk⟩]
    exact ⟨_, _, rfl⟩
  · rw [if_neg hoff]
    exact ⟨_, _, rfl⟩

/-! ### Runs -/

theorem atomLen_lt (s : Table) (x : ℕ) : s.atomLen x < MAX_ENTRY_SIZE := BitVec.isLt _

theorem Inv.get_empty (h : Inv hashlittle s) : s.stringtable_get ATOM_EMPTY = [] := h.get (.inl ⟨rfl, rfl⟩)

theorem Inv.atomLen_empty (h : Inv hashlittle s) : s.atomLen ATOM_EMPTY = 0 := congrArg BitVec.toNat h.empty

/-- A lookup of a string of at most 255 bytes keeps the invariant and the strings. -/
theorem lookup_keeps (h : Inv hashlittle s) (hlen : cs.length < MAX_ENTRY_SIZE)
    (hrun : stringtable_lookup hashlittle fuel cs s = .ok (a, t)) :
    Inv hashlittle t ∧ t.stringtable_get a = cs ∧
      ∀ c, s.HasAtom c → t.HasAtom c ∧ t.stringtable_get c = s.stringtable_get c := by
  obtain ⟨hinv, hatom, hkeep, -⟩ := (lookup_spec fuel h hlen).ok hrun
  refine ⟨hinv, hinv.get hatom, fun c hc => ?_⟩
  obtain ⟨ds, hds⟩ := hc
  exact ⟨⟨ds, hkeep c ds hds⟩, (hinv.get (hkeep c ds hds)).trans (h.get hds).symm⟩

/-- A lookup of a string of 256 bytes in a full table dies. -/
theorem lookup_full (h : Inv hashlittle s) (hfull : s.Full) (hlen : cs.length = MAX_ENTRY_SIZE) :
    stringtable_lookup hashlittle fuel cs s = .error .fail := by
  unfold stringtable_lookup
  rw [if_neg (by rw [hlen]; decide)]
  dsimp only
  split
  · next b hfind =>
    have hb : s.Holds hashlittle cs b := by
      have hdec := List.find?_some hfind
      exact of_decide_eq_true hdec
    obtain ⟨hvalid, -, heq, -⟩ := hb
    obtain ⟨ci, co, hok⟩ := h.entry _ (mem_entries.2 ⟨_, slot_lt s _ b, rfl, hvalid⟩)
    have hlt : (s.stringtable_chunks ci co).toNat < 2 ^ 8 := BitVec.isLt _
    have hrec := hok.length
    unfold MAX_ENTRY_SIZE at hlen
    omega
  · rw [add_string_full hfull]
    rfl

theorem append_keeps (h : Inv hashlittle s) (hok : Appendable s x y)
    (hrun : atom_append hashlittle fuel buf x y s = some (.ok (a, t))) :
    Inv hashlittle t ∧ t.stringtable_get a = s.stringtable_get x ++ s.stringtable_get y ∧
      ∀ c, s.HasAtom c → t.HasAtom c ∧ t.stringtable_get c = s.stringtable_get c := by
  by_cases hx : x = ATOM_EMPTY
  · unfold atom_append at hrun
    rw [if_pos hx] at hrun
    cases hrun
    rw [hx, h.get_empty]
    exact ⟨h, rfl, fun c hc => ⟨hc, rfl⟩⟩
  by_cases hy : y = ATOM_EMPTY
  · unfold atom_append at hrun
    rw [if_neg hx, if_pos hy] at hrun
    cases hrun
    rw [hy, h.get_empty]
    exact ⟨h, (List.append_nil _).symm, fun c hc => ⟨hc, rfl⟩⟩
  have hlen : (s.stringtable_get x ++ s.stringtable_get y).length = s.atomLen x + s.atomLen y := by
    rw [List.length_append, get_length, get_length]
  rcases hok with hx' | hy' | hlt | ⟨heq, hfull⟩
  · exact absurd hx' hx
  · exact absurd hy' hy
  · rw [atom_append_eq hx hy hlt.le] at hrun
    exact lookup_keeps h (hlen ▸ hlt) (Option.some_inj.1 hrun)
  · rw [atom_append_eq hx hy heq.le, lookup_full h hfull (hlen.trans heq)] at hrun
    cases hrun

theorem append_inside (hok : Appendable s x y) : atom_append hashlittle fuel buf x y s ≠ none := by
  by_cases hx : x = ATOM_EMPTY
  · unfold atom_append
    rw [if_pos hx]
    exact Option.some_ne_none _
  by_cases hy : y = ATOM_EMPTY
  · unfold atom_append
    rw [if_neg hx, if_pos hy]
    exact Option.some_ne_none _
  rw [atom_append_eq hx hy]
  · exact Option.some_ne_none _
  · rcases hok with hx' | hy' | hlt | ⟨heq, -⟩
    · exact absurd hx' hx
    · exact absurd hy' hy
    · exact hlt.le
    · exact heq.le

theorem Reached.inv (h : Reached hashlittle s) : Inv hashlittle s := by
  induction h with
  | init => exact inv_init
  | lookup _ hlen hrun ih => exact (lookup_keeps ih hlen hrun).1
  | append _ _ _ hok hrun ih => exact (append_keeps ih hok hrun).1

end Append

/-- The first string gets the atom at offset 1 of the first chunk. -/
theorem lookup_init (hashlittle : Fin 2 → List Byte → Hash) {cs : List Byte} (hcs : cs.length ≠ 0) :
    ∃ s, stringtable_lookup hashlittle 1 cs Table.init = .ok (256, s) ∧ s.current_chunk = 0 := by
  unfold stringtable_lookup
  rw [if_neg hcs]
  exact ⟨_, rfl, rfl⟩

end Jhc.StringTable

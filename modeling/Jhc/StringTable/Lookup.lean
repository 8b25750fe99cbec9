import Mathlib.Data.Nat.Bitwise
import Mathlib.Data.Multiset.UnionInter
import Jhc.StringTable.Cuckoo

/-!
# Atoms and strings (src/StringTable/StringTable_cbits.c:50-78, 236-283)

The table holds one entry for each string, so that atoms and strings determine each
other, in every sequence of lookups.
-/

namespace Jhc.StringTable
open Jhc.Lib

/-! ### Atoms -/

theorem make_atom_eq {ci co : ℕ} (hci : ci < 256) (hco : co < 16384) :
    MAKE_ATOM ci co = co * 256 + ci := by
  unfold MAKE_ATOM
  have hci' : ci &&& 0xff = ci := by
    rw [show (0xff : ℕ) = 2 ^ 8 - 1 from rfl, Nat.and_two_pow_sub_one_eq_mod]
    exact Nat.mod_eq_of_lt hci
  have hco' : co &&& 0x3FFF = co := by
    rw [show (0x3FFF : ℕ) = 2 ^ 14 - 1 from rfl, Nat.and_two_pow_sub_one_eq_mod]
    exact Nat.mod_eq_of_lt hco
  rw [hci', hco', Nat.lor_comm, ← Nat.shiftLeft_add_eq_or_of_lt (i := 8) hci, Nat.shiftLeft_eq]

theorem chunk_index_make {ci co : ℕ} (hci : ci < 256) (hco : co < 16384) :
    CHUNK_INDEX (MAKE_ATOM ci co) = ci := by
  unfold CHUNK_INDEX
  rw [make_atom_eq hci hco, show (0xFF : ℕ) = 2 ^ 8 - 1 from rfl, Nat.and_two_pow_sub_one_eq_mod]
  omega

theorem chunk_offset_make {ci co : ℕ} (hci : ci < 256) (hco : co < 16384) :
    CHUNK_OFFSET (MAKE_ATOM ci co) = co := by
  unfold CHUNK_OFFSET
  rw [make_atom_eq hci hco, show (0x3FFF : ℕ) = 2 ^ 14 - 1 from rfl, Nat.and_two_pow_sub_one_eq_mod,
    Nat.shiftRight_eq_div_pow]
  omega

/-! ### Chunks -/

theorem store_at (s : Table) (ci co k : ℕ) (cs : List Byte) (hk : k < cs.length) :
    (s.store ci co cs).stringtable_chunks ci (co + k) = cs.getD k 0 := by
  show (if ci = ci ∧ co ≤ co + k ∧ co + k < co + cs.length then _ else _) = _
  rw [if_pos ⟨rfl, by omega, by omega⟩, Nat.add_sub_cancel_left]

theorem store_other (s : Table) {ci co i j : ℕ} {cs : List Byte}
    (h : i ≠ ci ∨ j < co ∨ co + cs.length ≤ j) :
    (s.store ci co cs).stringtable_chunks i j = s.stringtable_chunks i j := by
  show (if i = ci ∧ co ≤ j ∧ j < co + cs.length then _ else _) = _
  rw [if_neg]
  omega

/-- A string with its length, as `add_string` writes it. -/
def Table.put (s : Table) (cs : List Byte) : Table :=
  { (s.store s.current_chunk s.next_free_offset [BitVec.ofNat 8 cs.length]).store s.current_chunk
      (s.next_free_offset + 1) cs with
    next_free_offset := s.next_free_offset + (cs.length + 1) }

theorem put_other (s : Table) {cs : List Byte} {i j : ℕ}
    (h : i ≠ s.current_chunk ∨ j < s.next_free_offset ∨ s.next_free_offset + 1 + cs.length ≤ j) :
    (s.put cs).stringtable_chunks i j = s.stringtable_chunks i j := by
  show (Table.store _ _ _ cs).stringtable_chunks i j = _
  rw [store_other, store_other]
  · simp only [List.length_singleton]
    omega
  · omega

theorem put_length (s : Table) (cs : List Byte) :
    (s.put cs).stringtable_chunks s.current_chunk s.next_free_offset = BitVec.ofNat 8 cs.length := by
  show (Table.store _ _ _ cs).stringtable_chunks _ _ = _
  rw [store_other _ (Or.inr (Or.inl (Nat.lt_succ_self _)))]
  exact store_at s s.current_chunk s.next_free_offset 0 [BitVec.ofNat 8 cs.length] (by simp)

theorem put_bytes (s : Table) (cs : List Byte) :
    (s.put cs).bytes s.current_chunk (s.next_free_offset + 1) cs.length = cs := by
  apply List.ext_getElem
  · simp [Table.bytes]
  · intro k hk hk'
    simp only [Table.bytes, List.getElem_map, List.getElem_range]
    show (Table.store _ _ _ cs).stringtable_chunks _ _ = _
    rw [store_at _ _ _ _ _ hk']
    exact List.getD_eq_getElem _ _ hk'

theorem bytes_congr {s s' : Table} {ci co n : ℕ}
    (h : ∀ j, co ≤ j → j < co + n → s'.stringtable_chunks ci j = s.stringtable_chunks ci j) :
    s'.bytes ci co n = s.bytes ci co n := by
  unfold Table.bytes
  apply List.map_congr_left
  intro k hk
  have hlt := List.mem_range.mp hk
  exact h _ (by omega) (by omega)

theorem bytes_length (s : Table) (ci co n : ℕ) : (s.bytes ci co n).length = n := by
  simp [Table.bytes]

/-! ### The invariant -/

def Table.string (s : Table) (e : HEntry) : List Byte := s.atomBytes e.atom e.len

section Inv

variable (hashlittle : Fin 2 → List Byte → Hash)

/-- The string of an entry lies in the used part of the chunks. -/
structure EntryOk (s : Table) (e : HEntry) (ci co : ℕ) : Prop where
  atom : e.atom = MAKE_ATOM ci co
  chunk : ci ≤ s.current_chunk
  offset : co + 1 + e.len ≤ CHUNK_SIZE
  used : ci = s.current_chunk → co + 1 + e.len ≤ s.next_free_offset
  length : (s.stringtable_chunks ci co).toNat = e.len
  pos : e.len ≠ 0
  hashes : e.hashes = fun i => hashlittle i (s.bytes ci (co + 1) e.len)

structure Inv (s : Table) : Prop where
  placed : s.Placed
  chunk : s.current_chunk < NUM_CHUNKS
  offset : s.next_free_offset < CHUNK_SIZE
  first : s.current_chunk = 0 → 1 ≤ s.next_free_offset
  empty : s.stringtable_chunks 0 0 = 0
  entry : ∀ e ∈ s.entries, ∃ ci co, EntryOk hashlittle s e ci co
  distinct : (s.entries.map s.string).Nodup

/-- The atom stands for the string. -/
def Interned (s : Table) (a : ℕ) (cs : List Byte) : Prop :=
  (a = ATOM_EMPTY ∧ cs = []) ∨ ∃ e ∈ s.entries, e.atom = a ∧ s.string e = cs

variable {hashlittle} {s s' : Table} {e : HEntry} {ci co : ℕ}

theorem EntryOk.bounds (h : EntryOk hashlittle s e ci co) (hs : s.current_chunk < NUM_CHUNKS) :
    ci < 256 ∧ co < 16384 := by
  have hchunk := h.chunk
  have hoffset := h.offset
  unfold NUM_CHUNKS at hs
  unfold CHUNK_SIZE at hoffset
  omega

theorem EntryOk.string (h : EntryOk hashlittle s e ci co) (hs : s.current_chunk < NUM_CHUNKS)
    (s' : Table) : s'.string e = s'.bytes ci (co + 1) e.len ∧
      s'.atomLen e.atom = (s'.stringtable_chunks ci co).toNat := by
  obtain ⟨hci, hco⟩ := h.bounds hs
  unfold Table.string Table.atomBytes Table.atomLen
  rw [h.atom, chunk_index_make hci hco, chunk_offset_make hci hco]
  exact ⟨rfl, rfl⟩

theorem Inv.get (h : Inv hashlittle s) {a : ℕ} {cs : List Byte} (ha : Interned s a cs) :
    s.stringtable_get a = cs := by
  rcases ha with ⟨rfl, rfl⟩ | ⟨e, he, rfl, rfl⟩
  · have hlen : s.atomLen ATOM_EMPTY = 0 := congrArg BitVec.toNat h.empty
    unfold Table.stringtable_get Table.atomBytes
    rw [hlen]
    rfl
  · obtain ⟨ci, co, hok⟩ := h.entry e he
    unfold Table.stringtable_get
    rw [(hok.string h.chunk s).2, hok.length]
    rfl

theorem Inv.string_ne (h : Inv hashlittle s) (he : e ∈ s.entries) : s.string e ≠ [] := by
  obtain ⟨ci, co, hok⟩ := h.entry e he
  intro heq
  have hlen := bytes_length s ci (co + 1) e.len
  rw [← (hok.string h.chunk s).1, heq] at hlen
  exact hok.pos hlen.symm

/-- A string has one atom. -/
theorem Inv.unique (h : Inv hashlittle s) {a a' : ℕ} {cs : List Byte} (ha : Interned s a cs)
    (ha' : Interned s a' cs) : a = a' := by
  rcases ha with ⟨rfl, rfl⟩ | ⟨e, he, rfl, rfl⟩
  · rcases ha' with ⟨rfl, -⟩ | ⟨e, he, -, heq⟩
    · rfl
    · exact absurd heq (h.string_ne he)
  · rcases ha' with ⟨-, heq⟩ | ⟨e', he', rfl, heq⟩
    · exact absurd heq (h.string_ne he)
    · rw [Multiset.inj_on_of_nodup_map h.distinct e he e' he' heq.symm]

/-! ### New strings -/

/-- Strings that are in the chunks stay as they are when others are added. -/
structure Keeps (s s' : Table) : Prop where
  chunk : s.current_chunk ≤ s'.current_chunk
  used : s.current_chunk = s'.current_chunk → s.next_free_offset ≤ s'.next_free_offset
  bytes : ∀ i j, i ≤ s.current_chunk → (i = s.current_chunk → j < s.next_free_offset) →
    s'.stringtable_chunks i j = s.stringtable_chunks i j

theorem EntryOk.keep (h : EntryOk hashlittle s e ci co) (hk : Keeps s s') :
    EntryOk hashlittle s' e ci co ∧
      s'.bytes ci (co + 1) e.len = s.bytes ci (co + 1) e.len := by
  have hbytes : s'.bytes ci (co + 1) e.len = s.bytes ci (co + 1) e.len := by
    apply bytes_congr
    intro j _ hj
    exact hk.bytes ci j h.chunk fun hci => by have := h.used hci; omega
  have hlen : s'.stringtable_chunks ci co = s.stringtable_chunks ci co :=
    hk.bytes ci co h.chunk fun hci => by have := h.used hci; omega
  refine ⟨⟨h.atom, h.chunk.trans hk.chunk, h.offset, fun hci => ?_, hlen ▸ h.length, h.pos, ?_⟩, hbytes⟩
  · have hchunk := h.chunk
    have hle := hk.chunk
    have hcur : ci = s.current_chunk := by omega
    exact (h.used hcur).trans (hk.used (by omega))
  · rw [hbytes]
    exact h.hashes

theorem Keeps.trans {s t u : Table} (h : Keeps s t) (h' : Keeps t u) : Keeps s u := by
  refine ⟨h.chunk.trans h'.chunk, fun heq => ?_, fun i j hi hj => ?_⟩
  · have hst := h.chunk
    have htu := h'.chunk
    exact (h.used (by omega)).trans (h'.used (by omega))
  · rw [h'.bytes i j (hi.trans h.chunk), h.bytes i j hi hj]
    intro hit
    have hchunk := h.chunk
    have hcur : i = s.current_chunk := by omega
    have hused := h.used (by omega)
    have hlt := hj hcur
    omega

theorem put_keeps (s : Table) (cs : List Byte) : Keeps s (s.put cs) := by
  refine ⟨le_rfl, fun _ => Nat.le_add_right _ _, fun i j _ hj => put_other s ?_⟩
  by_cases hi : i = s.current_chunk
  · exact Or.inr (Or.inl (hj hi))
  · exact Or.inl hi

/-- The table after the first test of `add_string`. -/
structure Room (s s' : Table) : Prop where
  hsize : s'.hsize = s.hsize
  htable : s'.htable = s.htable
  keeps : Keeps s s'
  chunk : s'.current_chunk < NUM_CHUNKS
  offset : s'.next_free_offset < CHUNK_SIZE - MAX_ENTRY_SIZE
  first : s'.current_chunk = 0 → 1 ≤ s'.next_free_offset
  empty : s'.stringtable_chunks 0 0 = 0

theorem Keeps.refl (s : Table) : Keeps s s := ⟨le_rfl, fun _ => le_rfl, fun _ _ _ _ => rfl⟩

theorem put_room (h : Inv hashlittle s) : Ensures
    (if s.next_free_offset + 1 > CHUNK_SIZE - MAX_ENTRY_SIZE then
      if s.current_chunk ≥ NUM_CHUNKS - 1 then throw .fail
      else pure { s with current_chunk := s.current_chunk + 1, next_free_offset := 0 }
    else pure s : Except Stop Table) (Room s) True True := by
  split_ifs with hfull hlast
  · trivial
  · refine ⟨rfl, rfl, ⟨Nat.le_succ _, fun heq => absurd heq (by simp), fun _ _ _ _ => rfl⟩, ?_,
      (by decide : 0 < CHUNK_SIZE - MAX_ENTRY_SIZE), fun heq => absurd heq (Nat.succ_ne_zero _), h.empty⟩
    show s.current_chunk + 1 < NUM_CHUNKS
    omega
  · exact ⟨rfl, rfl, Keeps.refl s, h.chunk, by omega, h.first, h.empty⟩

/-- What `add_string` does for a string that is not in the table. -/
structure Added (hashlittle : Fin 2 → List Byte → Hash) (s : Table) (cs : List Byte) (a : ℕ)
    (s' : Table) : Prop where
  hsize : s'.hsize = s.hsize
  htable : s'.htable = s.htable
  keeps : Keeps s s'
  chunk : s'.current_chunk < NUM_CHUNKS
  offset : s'.next_free_offset < CHUNK_SIZE
  first : s'.current_chunk = 0 → 1 ≤ s'.next_free_offset
  empty : s'.stringtable_chunks 0 0 = 0
  fits : a % 2 ^ 24 = a
  valid : a ≠ 0
  entry : ∃ ci co, EntryOk hashlittle s' ⟨fun i => hashlittle i cs, a, cs.length⟩ ci co ∧
    s'.bytes ci (co + 1) cs.length = cs

theorem add_string_eq (cs : List Byte) (s : Table) : add_string cs s =
    ((if s.next_free_offset + 1 > CHUNK_SIZE - MAX_ENTRY_SIZE then
      if s.current_chunk ≥ NUM_CHUNKS - 1 then throw .fail
      else pure { s with current_chunk := s.current_chunk + 1, next_free_offset := 0 }
    else pure s : Except Stop Table) >>= fun t =>
      .ok (MAKE_ATOM t.current_chunk t.next_free_offset, t.put cs)) := by
  unfold add_string
  split_ifs
  · rfl
  · rfl
  · rfl

theorem add_string_spec (h : Inv hashlittle s) {cs : List Byte} (hne : cs.length ≠ 0)
    (hlen : cs.length < MAX_ENTRY_SIZE) :
    Ensures (add_string cs s) (fun p => Added hashlittle s cs p.1 p.2) True True := by
  rw [add_string_eq]
  refine Ensures.bind (put_room h) fun t ht => ?_
  show Added hashlittle s cs (MAKE_ATOM t.current_chunk t.next_free_offset) (t.put cs)
  have hchunk := ht.chunk
  have hoffset := ht.offset
  have hbound : t.current_chunk < 256 ∧ t.next_free_offset + 1 + cs.length < 16384 := by
    unfold NUM_CHUNKS at hchunk
    unfold CHUNK_SIZE MAX_ENTRY_SIZE at hoffset
    unfold MAX_ENTRY_SIZE at hlen
    omega
  have hatom := make_atom_eq hbound.1 (by omega : t.next_free_offset < 16384)
  have hfirst := ht.first
  refine ⟨ht.hsize, ht.htable, ht.keeps.trans (put_keeps t cs), hchunk, ?_, fun _ => ?_, ?_, ?_, ?_,
    t.current_chunk, t.next_free_offset, ⟨rfl, le_rfl, ?_, fun _ => ?_, ?_, hne, ?_⟩, put_bytes t cs⟩
  · show t.next_free_offset + (cs.length + 1) < 16384
    omega
  · show 1 ≤ t.next_free_offset + (cs.length + 1)
    omega
  · rw [put_other]
    · exact ht.empty
    · omega
  · rw [hatom]
    omega
  · rw [hatom]
    omega
  · show t.next_free_offset + 1 + cs.length ≤ 16384
    omega
  · show t.next_free_offset + 1 + cs.length ≤ t.next_free_offset + (cs.length + 1)
    omega
  · rw [put_length, BitVec.toNat_ofNat]
    apply Nat.mod_eq_of_lt
    unfold MAX_ENTRY_SIZE at hlen
    show cs.length < 2 ^ 8
    omega
  · show _ = fun i => hashlittle i ((t.put cs).bytes t.current_chunk (t.next_free_offset + 1) cs.length)
    rw [put_bytes]

/-! ### stringtable_lookup -/

/-- What is found has the string. -/
theorem find_interned {cs : List Byte} {b : Fin 2 × Fin 2}
    (hb : s.Holds hashlittle cs b) :
    Interned s (s.htable (s.slot (fun i => hashlittle i cs) b)).atom cs := by
  obtain ⟨hvalid, -, hlen, hbytes⟩ := hb
  refine Or.inr ⟨_, mem_entries.mpr ⟨_, slot_lt s _ b, rfl, hvalid⟩, rfl, ?_⟩
  unfold Table.string
  rw [← hlen]
  exact hbytes

/-- A string of the table is found in one of the buckets. -/
theorem find_complete (h : Inv hashlittle s) {cs : List Byte} {e : HEntry} (he : e ∈ s.entries)
    (hcs : s.string e = cs) : ∃ b, s.Holds hashlittle cs b := by
  obtain ⟨ci, co, hok⟩ := h.entry e he
  obtain ⟨t, ht, rfl, hvalid⟩ := mem_entries.mp he
  obtain ⟨b, hb⟩ := h.placed t ht hvalid
  have hstring := (hok.string h.chunk s).1
  have hlen : cs.length = (s.htable t).len := by
    rw [← hcs, hstring, bytes_length]
  have hhash : (s.htable t).hashes = fun i => hashlittle i cs := by
    rw [hok.hashes, ← hstring, hcs]
  have hslot : s.slot (fun i => hashlittle i cs) b = t := by
    rw [← hhash]
    exact hb.symm
  refine ⟨b, ?_⟩
  unfold Table.Holds
  rw [hslot]
  exact ⟨hvalid, by rw [hhash], hlen, by rw [hlen]; exact hcs⟩

theorem placed_congr (hsize : s'.hsize = s.hsize) (hh : s'.htable = s.htable) (h : s.Placed) :
    s'.Placed := by
  intro t ht hvalid
  rw [hh] at hvalid ⊢
  unfold Table.slot Table.HASH_INDEX Table.HASHSIZE
  rw [hsize]
  unfold Table.HASHSIZE at ht
  rw [hsize] at ht
  exact h t ht hvalid

theorem entries_congr (hsize : s'.hsize = s.hsize) (hh : s'.htable = s.htable) :
    s'.entries = s.entries := by
  unfold Table.entries Table.HASHSIZE
  rw [hsize, hh]

theorem SameStore.keeps (h : SameStore s s') : Keeps s s' :=
  ⟨h.chunk.ge, fun _ => h.offset.ge, fun i j _ _ => by rw [h.chunks]⟩

/-- A new string and its entry are in the table. -/
theorem inserted {cs : List Byte} {na : ℕ} {t u : Table} (h : Inv hashlittle s)
    (hp : Added hashlittle s cs na t) (hnew : ∀ e ∈ s.entries, s.string e ≠ cs)
    (hentries : u.entries = {⟨fun i => hashlittle i cs, na, cs.length⟩} + s.entries)
    (hplaced : u.Placed) (hsame : SameStore t u) : Inv hashlittle u ∧ Interned u na cs ∧
      (∀ a cs', Interned s a cs' → Interned u a cs') ∧
      ∀ a cs', Interned u a cs' → Interned s a cs' ∨ cs' = cs := by
  obtain ⟨ci, co, hok, hbytes⟩ := hp.entry
  have hkeep := hp.keeps.trans hsame.keeps
  have hmem : ∀ e, e ∈ u.entries ↔ e = ⟨fun i => hashlittle i cs, na, cs.length⟩ ∨ e ∈ s.entries := by
    intro e
    rw [hentries, Multiset.mem_add, Multiset.mem_singleton]
  have hu : u.current_chunk < NUM_CHUNKS := hsame.chunk ▸ hp.chunk
  have hcs : u.string ⟨fun i => hashlittle i cs, na, cs.length⟩ = cs := by
    rw [(hok.string hp.chunk u).1]
    exact (hok.keep hsame.keeps).2.trans hbytes
  have hold : ∀ e ∈ s.entries, u.string e = s.string e := by
    intro e he
    obtain ⟨ci', co', hok'⟩ := h.entry e he
    rw [(hok'.string h.chunk u).1, (hok'.string h.chunk s).1]
    exact (hok'.keep hkeep).2
  refine ⟨⟨hplaced, hu, hsame.offset ▸ hp.offset, ?_, ?_, fun e he => ?_, ?_⟩, ?_, ?_, ?_⟩
  · rw [hsame.chunk, hsame.offset]
    exact hp.first
  · rw [hsame.chunks]
    exact hp.empty
  · cases (hmem e).mp he with
    | inl heq => exact ⟨ci, co, heq ▸ (hok.keep hsame.keeps).1⟩
    | inr hin =>
      obtain ⟨ci', co', hok'⟩ := h.entry e hin
      exact ⟨ci', co', (hok'.keep hkeep).1⟩
  · rw [hentries, Multiset.map_add, Multiset.map_singleton, hcs, Multiset.singleton_add,
      Multiset.map_congr rfl hold, Multiset.nodup_cons]
    refine ⟨fun hin => ?_, h.distinct⟩
    obtain ⟨e, he, heq⟩ := Multiset.mem_map.mp hin
    exact hnew e he heq
  · exact Or.inr ⟨_, (hmem _).mpr (Or.inl rfl), rfl, hcs⟩
  · intro a cs' ha
    rcases ha with hempty | ⟨e, he, hatom, hstring⟩
    · exact Or.inl hempty
    · exact Or.inr ⟨e, (hmem e).mpr (Or.inr he), hatom, (hold e he).trans hstring⟩
  · intro a cs' ha
    rcases ha with hempty | ⟨e, he, hatom, hstring⟩
    · exact Or.inl (Or.inl hempty)
    · cases (hmem e).mp he with
      | inl heq =>
        subst heq
        exact Or.inr (hstring.symm.trans hcs)
      | inr hin => exact Or.inl (Or.inr ⟨e, hin, hatom, (hold e hin).symm.trans hstring⟩)

theorem lookup_spec (fuel : ℕ) (h : Inv hashlittle s) {cs : List Byte}
    (hlen : cs.length < MAX_ENTRY_SIZE) :
    Ensures (stringtable_lookup hashlittle fuel cs s) (fun p => Inv hashlittle p.2 ∧
      Interned p.2 p.1 cs ∧ (∀ a cs', Interned s a cs' → Interned p.2 a cs') ∧
      ∀ a cs', Interned p.2 a cs' → Interned s a cs' ∨ cs' = cs) True True := by
  unfold stringtable_lookup
  split_ifs with hempty
  · have hnil : cs = [] := List.length_eq_zero_iff.mp hempty
    exact ⟨h, Or.inl ⟨rfl, hnil⟩, fun _ _ ha => ha, fun _ _ ha => Or.inl ha⟩
  · dsimp only
    split
    · next b hfind =>
      have hb : s.Holds hashlittle cs b := by
        have := List.find?_some hfind
        exact of_decide_eq_true this
      exact ⟨h, find_interned hb, fun _ _ ha => ha, fun _ _ ha => Or.inl ha⟩
    · next hnone =>
      have hnew : ∀ e ∈ s.entries, s.string e ≠ cs := by
        intro e he hcs
        obtain ⟨b, hb⟩ := find_complete h he hcs
        have := List.find?_eq_none.mp hnone b (mem_buckets b)
        exact this (decide_eq_true hb)
      refine Ensures.bind (add_string_spec h hempty hlen) fun p hp => ?_
      obtain ⟨na, t⟩ := p
      have hsmall : cs.length % 2 ^ 8 = cs.length := by
        apply Nat.mod_eq_of_lt
        unfold MAX_ENTRY_SIZE at hlen
        omega
      rw [hsmall, hp.fits]
      have hplaced : t.Placed := placed_congr hp.hsize hp.htable h.placed
      have hentries : t.entries = s.entries := entries_congr hp.hsize hp.htable
      refine Ensures.bind (hash_insert_spec fuel _ t hp.valid hplaced) fun u hu => ?_
      rw [hentries] at hu
      exact inserted h hp hnew hu.1 hu.2.1 hu.2.2

/-! ### Sequences of lookups -/

theorem inv_init : Inv hashlittle Table.init := by
  have hnone : Table.init.entries = 0 := by
    apply Multiset.eq_zero_of_forall_notMem
    intro e he
    obtain ⟨t, -, rfl, hvalid⟩ := mem_entries.mp he
    exact hvalid rfl
  refine ⟨fun t _ hvalid => absurd rfl hvalid, by decide, by decide, fun _ => by decide, rfl,
    fun e he => ?_, ?_⟩
  · rw [hnone] at he
    exact absurd he (Multiset.notMem_zero e)
  · rw [hnone]
    exact Multiset.nodup_zero

theorem lookups_spec (fuel : ℕ) {css : List (List Byte)} (h : Inv hashlittle s)
    (hlen : ∀ cs ∈ css, cs.length + 1 < MAX_ENTRY_SIZE) :
    Ensures (lookups hashlittle fuel css s) (fun p => Inv hashlittle p.2 ∧
      List.Forall₂ (Interned p.2) p.1 css ∧ (∀ a cs, Interned s a cs → Interned p.2 a cs) ∧
      ∀ a cs, Interned p.2 a cs → Interned s a cs ∨ cs ∈ css) True True := by
  induction css generalizing s with
  | nil => exact ⟨h, .nil, fun _ _ ha => ha, fun _ _ ha => Or.inl ha⟩
  | cons cs css ih =>
    refine Ensures.bind (lookup_spec fuel h (Nat.lt_of_succ_lt (hlen cs List.mem_cons_self))) fun p hp => ?_
    obtain ⟨hinv, hatom, hkeep, hback⟩ := hp
    refine Ensures.bind (ih hinv fun d hd => hlen d (List.mem_cons_of_mem cs hd)) fun q hq => ?_
    obtain ⟨hinv', hatoms, hkeep', hback'⟩ := hq
    refine ⟨hinv', .cons (hkeep' _ _ hatom) hatoms, fun a d ha => hkeep' a d (hkeep a d ha),
      fun a d ha => ?_⟩
    cases hback' a d ha with
    | inr hmem => exact Or.inr (List.mem_cons_of_mem cs hmem)
    | inl hin =>
      cases hback a d hin with
      | inl hold => exact Or.inl hold
      | inr heq => exact Or.inr (heq ▸ List.mem_cons_self)

/-- A string of the table is in one slot. -/
theorem Inv.one_slot (h : Inv hashlittle s) (he : e ∈ s.entries) :
    ∃! t, t < 2 * s.HASHSIZE ∧ (s.htable t).Valid ∧ s.string (s.htable t) = s.string e := by
  obtain ⟨t, ht, rfl, hvalid⟩ := mem_entries.mp he
  refine ⟨t, ⟨ht, hvalid, rfl⟩, ?_⟩
  rintro u ⟨hu, huvalid, hstring⟩
  have hnodup := h.distinct
  unfold Table.entries at hnodup
  rw [Multiset.filter_map, Multiset.map_map] at hnodup
  refine Multiset.inj_on_of_nodup_map hnodup u ?_ t ?_ hstring
  · exact Multiset.mem_filter.mpr ⟨Multiset.mem_range.mpr hu, huvalid⟩
  · exact Multiset.mem_filter.mpr ⟨Multiset.mem_range.mpr ht, hvalid⟩

/-- A string that has an atom is found, whatever the hash functions. -/
theorem Inv.found (h : Inv hashlittle s) {a : ℕ} {cs : List Byte} (ha : Interned s a cs)
    (fuel : ℕ) : stringtable_lookup hashlittle fuel cs s = .ok (a, s) := by
  unfold stringtable_lookup
  split_ifs with hempty
  · have hnil : cs = [] := List.length_eq_zero_iff.mp hempty
    rw [h.unique ha (Or.inl ⟨rfl, hnil⟩)]
  · have hmem : ∃ b, s.Holds hashlittle cs b := by
      rcases ha with ⟨-, rfl⟩ | ⟨e, he, -, hcs⟩
      · exact absurd rfl hempty
      · exact find_complete h he hcs
    dsimp only
    split
    · next b hfind =>
      have hb : s.Holds hashlittle cs b := by
        have := List.find?_some hfind
        exact of_decide_eq_true this
      rw [h.unique ha (find_interned hb)]
    · next hnone =>
      obtain ⟨b, hb⟩ := hmem
      exact absurd (decide_eq_true hb) (List.find?_eq_none.mp hnone b (mem_buckets b))

theorem exists_atom {R : ℕ → List Byte → Prop} {as : List ℕ} {css : List (List Byte)}
    (h : List.Forall₂ R as css) : ∀ cs ∈ css, ∃ a, R a cs := by
  induction h with
  | nil => exact fun cs hcs => absurd hcs List.not_mem_nil
  | cons hab _ ih =>
    intro cs hcs
    cases List.mem_cons.mp hcs with
    | inl heq => exact ⟨_, heq ▸ hab⟩
    | inr hmem => exact ih cs hmem

end Inv

/-- In every sequence of calls that return, atoms and strings determine each other, the
strings stay stored, and the table has one entry for each of them. -/
theorem atoms_and_strings (hashlittle : Fin 2 → List Byte → Hash) (fuel : ℕ)
    (css : List (List Byte)) (hlen : ∀ cs ∈ css, cs.length + 1 < MAX_ENTRY_SIZE) (as : List ℕ)
    (s : Table) (hrun : lookups hashlittle fuel css Table.init = .ok (as, s)) :
    as.length = css.length ∧
      (∀ p ∈ as.zip css, ∀ q ∈ as.zip css, p.1 = q.1 ↔ p.2 = q.2) ∧
      (∀ p ∈ as.zip css, s.stringtable_get p.1 = p.2 ∧
        ∀ fuel', stringtable_lookup hashlittle fuel' p.2 s = .ok (p.1, s)) ∧
      (∀ cs ∈ css, cs ≠ [] → ∃! t, t < 2 * s.HASHSIZE ∧ (s.htable t).Valid ∧
        s.string (s.htable t) = cs) ∧
      ∀ t < 2 * s.HASHSIZE, (s.htable t).Valid → s.string (s.htable t) ∈ css := by
  obtain ⟨hinv, hatoms, -, hback⟩ := (lookups_spec fuel inv_init hlen).ok hrun
  have hzip : ∀ p ∈ as.zip css, Interned s p.1 p.2 := fun p hp =>
    (List.forall₂_iff_zip.mp hatoms).2 hp
  refine ⟨hatoms.length_eq, fun p hp q hq => ⟨fun heq => ?_, fun heq => ?_⟩, fun p hp => ?_,
    fun cs hcs hne => ?_, fun t ht hvalid => ?_⟩
  · have hget := hinv.get (hzip p hp)
    rw [← hget, ← hinv.get (hzip q hq), heq]
  · have ha := hzip p hp
    rw [heq] at ha
    exact hinv.unique ha (hzip q hq)
  · exact ⟨hinv.get (hzip p hp), hinv.found (hzip p hp)⟩
  · obtain ⟨a, ha⟩ := exists_atom hatoms cs hcs
    rcases ha with ⟨-, heq⟩ | ⟨e, he, -, rfl⟩
    · exact absurd heq hne
    · exact hinv.one_slot he
  · have hmem := mem_entries.mpr ⟨t, ht, rfl, hvalid⟩
    cases hback _ _ (Or.inr ⟨_, hmem, rfl, rfl⟩) with
    | inr hin => exact hin
    | inl hold =>
      rcases hold with ⟨-, heq⟩ | ⟨e, he, -⟩
      · exact absurd heq (hinv.string_ne hmem)
      · obtain ⟨u, -, heq, huvalid⟩ := mem_entries.mp he
        exact absurd (congrArg HEntry.atom heq).symm huvalid

/-- Sums of bytes, as hash functions for a small run. -/
def sumHash (i : Fin 2) (cs : List Byte) : Hash := BitVec.ofNat 32 ((cs.map BitVec.toNat).sum + i)

def threeCalls : List (List Byte) := [[1], [2], [1]]

theorem atoms_and_strings_run : ∃ s : Table,
    lookups sumHash 1 threeCalls Table.init = .ok ([256, 768, 256], s) ∧
      (∀ p ∈ [256, 768, 256].zip threeCalls, ∀ q ∈ [256, 768, 256].zip threeCalls,
        p.1 = q.1 ↔ p.2 = q.2) ∧
      ∀ p ∈ [256, 768, 256].zip threeCalls, s.stringtable_get p.1 = p.2 := by
  have hrun : ∃ s, lookups sumHash 1 threeCalls Table.init = .ok ([256, 768, 256], s) := ⟨_, rfl⟩
  obtain ⟨s, hs⟩ := hrun
  obtain ⟨-, huniq, hget, -⟩ := atoms_and_strings sumHash 1 threeCalls (by decide) _ s hs
  exact ⟨s, hs, huniq, fun p hp => (hget p hp).1⟩

end Jhc.StringTable

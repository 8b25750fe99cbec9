import Mathlib.Algebra.Order.Group.Multiset
import Jhc.StringTable.Table

/-!
# The hash table keeps its entries (src/StringTable/StringTable_cbits.c:164-222)

Whatever is displaced, and however often the table grows, an insertion leaves the
entries that were there and the new one, each in a slot of its own hashes.
-/

namespace Jhc.StringTable
open Jhc.Lib

/-! ### Entries and slots -/

def Table.entries (s : Table) : Multiset HEntry :=
  ((Multiset.range (2 * s.HASHSIZE)).map s.htable).filter HEntry.Valid

/-- Each entry is where a lookup would find it. -/
def Table.Placed (s : Table) : Prop :=
  ∀ t < 2 * s.HASHSIZE, (s.htable t).Valid → ∃ b, t = s.slot (s.htable t).hashes b

/-- The strings are the same. -/
structure SameStore (s s' : Table) : Prop where
  chunks : s'.stringtable_chunks = s.stringtable_chunks
  offset : s'.next_free_offset = s.next_free_offset
  chunk : s'.current_chunk = s.current_chunk

theorem SameStore.refl (s : Table) : SameStore s s := ⟨rfl, rfl, rfl⟩

theorem SameStore.trans {s t u : Table} (h : SameStore s t) (h' : SameStore t u) : SameStore s u :=
  ⟨h'.chunks.trans h.chunks, h'.offset.trans h.offset, h'.chunk.trans h.chunk⟩

theorem slot_lt (s : Table) (h : Fin 2 → Hash) (b : Fin 2 × Fin 2) : s.slot h b < 2 * s.HASHSIZE := by
  have hand : ((s.HASHSIZE - 1) &&& (h b.1 + BitVec.ofNat 32 b.2).toNat) ≤ s.HASHSIZE - 1 :=
    Nat.and_le_left
  have hpos : 0 < s.HASHSIZE := Nat.two_pow_pos _
  have hle : (b.1 : ℕ) * s.HASHSIZE ≤ 1 * s.HASHSIZE := Nat.mul_le_mul_right _ (by omega)
  show (b.1 : ℕ) * s.HASHSIZE + _ < _
  omega

theorem mem_entries {s : Table} {e : HEntry} :
    e ∈ s.entries ↔ ∃ t < 2 * s.HASHSIZE, s.htable t = e ∧ e.Valid := by
  unfold Table.entries
  rw [Multiset.mem_filter, Multiset.mem_map]
  constructor
  · rintro ⟨⟨t, ht, heq⟩, hvalid⟩
    exact ⟨t, Multiset.mem_range.mp ht, heq, hvalid⟩
  · rintro ⟨t, ht, heq, hvalid⟩
    exact ⟨⟨t, Multiset.mem_range.mpr ht, heq⟩, hvalid⟩

theorem mem_buckets (b : Fin 2 × Fin 2) : b ∈ buckets := by
  obtain ⟨i, j⟩ := b
  revert i j
  decide

section Write

variable {s : Table} {t : ℕ} {x : HEntry}

/-- The other slots of the table. -/
def Table.others (s : Table) (t : ℕ) : Multiset HEntry :=
  (((Multiset.range (2 * s.HASHSIZE)).erase t).map s.htable).filter HEntry.Valid

theorem entries_split (ht : t < 2 * s.HASHSIZE) :
    s.entries = (if (s.htable t).Valid then {s.htable t} else 0) + s.others t := by
  unfold Table.entries Table.others
  rw [← Multiset.cons_erase (Multiset.mem_range.mpr ht), Multiset.map_cons]
  rw [Multiset.cons_erase (Multiset.mem_range.mpr ht)]
  split_ifs with hvalid
  · rw [Multiset.filter_cons_of_pos _ hvalid]
    rfl
  · rw [Multiset.filter_cons_of_neg _ hvalid, zero_add]

theorem others_write : (s.write t x).others t = s.others t := by
  unfold Table.others
  congr 1
  apply Multiset.map_congr rfl
  intro u hu
  have hne : u ≠ t := ((Multiset.nodup_range _).mem_erase_iff.mp hu).1
  exact Function.update_of_ne hne ..

theorem write_entries (ht : t < 2 * s.HASHSIZE) (hx : x.Valid) :
    (s.write t x).entries = {x} + s.others t := by
  rw [entries_split (s := s.write t x) ht, others_write]
  show (if (Function.update s.htable t x t).Valid then {Function.update s.htable t x t} else 0) + _ = _
  rw [Function.update_self, if_pos hx]

theorem write_placed (hs : s.Placed) (hx : ∃ b, t = s.slot x.hashes b) : (s.write t x).Placed := by
  intro u hu hvalid
  show ∃ b, u = s.slot (Function.update s.htable t x u).hashes b
  have hval : (Function.update s.htable t x u).Valid := hvalid
  by_cases heq : u = t
  · subst heq
    rw [Function.update_self]
    exact hx
  · rw [Function.update_of_ne heq] at hval ⊢
    exact hs u hu hval

end Write

/-! ### One insertion -/

/-- What an attempt to place `x` may leave. -/
def Placing.From (x : HEntry) (s : Table) : Placing → Prop
  | .placed s' => s'.entries = {x} + s.entries ∧ s'.Placed ∧ SameStore s s'
  | .inHand x' s' => x'.Valid ∧ {x'} + s'.entries = {x} + s.entries ∧ s'.Placed ∧ SameStore s s'

theorem Placing.From.andThen {x : HEntry} {s : Table} {p : Placing} {f : HEntry → Table → Placing}
    (h : p.From x s) (hf : ∀ x' s', x'.Valid → s'.Placed → (f x' s').From x' s') :
    (p.andThen f).From x s := by
  cases p with
  | placed s' => exact h
  | inHand x' s' =>
    obtain ⟨hvalid, hentries, hplaced, hsame⟩ := h
    have hnext := hf x' s' hvalid hplaced
    show (f x' s').From x s
    cases hp : f x' s' with
    | placed s'' =>
      rw [hp] at hnext
      exact ⟨hnext.1.trans hentries, hnext.2.1, hsame.trans hnext.2.2⟩
    | inHand x'' s'' =>
      rw [hp] at hnext
      exact ⟨hnext.1, hnext.2.1.trans hentries, hnext.2.2.1, hsame.trans hnext.2.2.2⟩

theorem tryBucket_from (b : Fin 2 × Fin 2) {x : HEntry} {s : Table} (hx : x.Valid) (hs : s.Placed) :
    (tryBucket b x s).From x s := by
  have ht := slot_lt s x.hashes b
  have hsplit := entries_split ht
  have hwrite := write_entries ht hx
  have hplaced : (s.write (s.slot x.hashes b) x).Placed := write_placed hs ⟨b, rfl⟩
  unfold tryBucket
  dsimp only
  split_ifs with hvalid
  · rw [if_pos hvalid] at hsplit
    refine ⟨hvalid, ?_, hplaced, rfl, rfl, rfl⟩
    rw [hwrite, hsplit]
    exact add_left_comm ..
  · rw [if_neg hvalid, zero_add] at hsplit
    exact ⟨hwrite.trans (by rw [hsplit]), hplaced, rfl, rfl, rfl⟩

theorem tryAll_from {x : HEntry} {s : Table} (hx : x.Valid) (hs : s.Placed) :
    (tryAll x s).From x s := by
  have hfold : ∀ (bs : List (Fin 2 × Fin 2)) (p : Placing), p.From x s →
      (bs.foldl (fun p b => p.andThen (tryBucket b)) p).From x s := by
    intro bs
    induction bs with
    | nil => exact fun p hp => hp
    | cons b bs ih =>
      exact fun p hp => ih _ (hp.andThen fun x' s' hx' hs' => tryBucket_from b hx' hs')
  exact hfold buckets _ ⟨hx, rfl, hs, SameStore.refl s⟩

theorem insertLoop_from (start n : ℕ) {x : HEntry} {s : Table} (hx : x.Valid) (hs : s.Placed) :
    (insertLoop start n x s).From x s := by
  induction n generalizing x s with
  | zero => exact ⟨hx, rfl, hs, SameStore.refl s⟩
  | succ n ih =>
    refine (tryAll_from hx hs).andThen fun x' s' hx' hs' => ?_
    split_ifs
    · exact ⟨hx', rfl, hs', SameStore.refl s'⟩
    · exact ih hx' hs'

/-! ### Growing -/

/-- What an insertion that returns has done. -/
def Inserts (insert : HEntry → Table → Except Stop Table) : Prop :=
  ∀ x s, x.Valid → s.Placed → Ensures (insert x s)
    (fun s' => s'.entries = {x} + s.entries ∧ s'.Placed ∧ SameStore s s') True True

/-- The valid ones of some slots. -/
def validOf (ot : ℕ → HEntry) (ts : List ℕ) : Multiset HEntry :=
  ((Multiset.ofList ts).map ot).filter HEntry.Valid

theorem validOf_cons (ot : ℕ → HEntry) (t : ℕ) (ts : List ℕ) :
    validOf ot (t :: ts) = (if (ot t).Valid then {ot t} else 0) + validOf ot ts := by
  unfold validOf
  rw [← Multiset.cons_coe, Multiset.map_cons]
  split_ifs with hvalid
  · rw [Multiset.filter_cons_of_pos _ hvalid]
    rfl
  · rw [Multiset.filter_cons_of_neg _ hvalid, zero_add]

theorem grow_table_spec {insert : HEntry → Table → Except Stop Table} (hins : Inserts insert)
    (s : Table) : Ensures (grow_table insert s)
      (fun s' => s'.entries = s.entries ∧ s'.Placed ∧ SameStore s s') True True := by
  unfold grow_table
  split_ifs
  · trivial
  · have hempty : s.grown.entries + validOf s.htable (List.range (2 * s.HASHSIZE)) = s.entries := by
      have hnone : s.grown.entries = 0 := by
        apply Multiset.eq_zero_of_forall_notMem
        intro e he
        obtain ⟨t, -, rfl, hvalid⟩ := mem_entries.mp he
        exact hvalid rfl
      rw [hnone, zero_add]
      rfl
    have hstart : s.grown.Placed :=
      fun t _ hvalid => absurd rfl hvalid
    refine (Ensures.foldlM (F := True) (O := True) (a := s.grown) (fun rest t =>
      t.entries + validOf s.htable rest = s.entries ∧ t.Placed ∧ SameStore s t) ?_
      ⟨hempty, hstart, rfl, rfl, rfl⟩).mono (fun t ht => ?_) id id
    · intro i rest t ⟨hentries, hplaced, hsame⟩
      rw [validOf_cons] at hentries
      split_ifs with hvalid
      · rw [if_pos hvalid] at hentries
        refine (hins _ t hvalid hplaced).mono (fun u hu => ?_) id id
        refine ⟨?_, hu.2.1, hsame.trans hu.2.2⟩
        rw [hu.1, ← hentries, add_assoc, add_left_comm]
      · rw [if_neg hvalid, zero_add] at hentries
        exact ⟨hentries, hplaced, hsame⟩
    · obtain ⟨hentries, hplaced, hsame⟩ := ht
      exact ⟨(add_zero _).symm.trans hentries, hplaced, hsame⟩

theorem hash_insert_spec (fuel : ℕ) : Inserts (hash_insert fuel) := by
  induction fuel with
  | zero => exact fun _ _ _ _ => trivial
  | succ fuel ih =>
    intro x s hx hs
    have hloop := insertLoop_from x.atom DEPTH_LIMIT hx hs
    unfold hash_insert
    cases hp : insertLoop x.atom DEPTH_LIMIT x s with
    | placed s' =>
      rw [hp] at hloop
      exact hloop
    | inHand x' s' =>
      rw [hp] at hloop
      obtain ⟨hvalid, hentries, hplaced, hsame⟩ := hloop
      refine Ensures.bind (grow_table_spec ih s') fun t ht => ?_
      refine (ih x' t hvalid ht.2.1).mono (fun u hu => ?_) id id
      refine ⟨?_, hu.2.1, hsame.trans (ht.2.2.trans hu.2.2)⟩
      rw [hu.1, ht.1]
      exact hentries

end Jhc.StringTable

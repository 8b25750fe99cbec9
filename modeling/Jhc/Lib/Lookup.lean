import Mathlib.Data.List.Nodup
import Mathlib.Order.Defs.LinearOrder
import Mathlib.Order.Basic
import Mathlib.Order.Lattice

/-!
# Association lists, and maps as lists in the order of their keys
-/

namespace Jhc.Lib

section
variable {α β : Type} [BEq α] [LawfulBEq α]

theorem mem_of_lookup {l : List (α × β)} {k : α} {b : β} (h : l.lookup k = some b) : (k, b) ∈ l := by
  obtain ⟨l₁, l₂, rfl, hne⟩ := List.lookup_eq_some_iff.1 h
  simp

theorem lookup_eq_none {l : List (α × β)} {k : α} : l.lookup k = none ↔ k ∉ l.map Prod.fst := by
  rw [List.lookup_eq_none_iff]
  constructor
  · intro h hk
    obtain ⟨p, hp, rfl⟩ := List.mem_map.1 hk
    simpa using h p hp
  · intro h p hp
    have hne : k ≠ p.1 := fun heq => h (heq ▸ List.mem_map_of_mem hp)
    simpa using hne

theorem lookup_of_mem {l : List (α × β)} (hl : (l.map Prod.fst).Nodup) {k : α} {b : β} (h : (k, b) ∈ l) :
    l.lookup k = some b := by
  induction l with
  | nil => cases h
  | cons p ps ih =>
    rw [List.map_cons, List.nodup_cons] at hl
    obtain rfl | htail := List.mem_cons.1 h
    · simp
    · have hne : k ≠ p.1 := fun heq => hl.1 (heq ▸ List.mem_map_of_mem htail)
      have hbeq : (k == p.1) = false := by simpa using hne
      rw [List.lookup_cons, hbeq]
      exact ih hl.2 htail

end

section
variable {κ β : Type} [LinearOrder κ]

def insertKey (k : κ) (v : β) : List (κ × β) → List (κ × β)
  | [] => [(k, v)]
  | (k', v') :: m =>
    if k = k' then (k, v) :: m
    else if k < k' then (k, v) :: (k', v') :: m
    else (k', v') :: insertKey k v m

attribute [local grind =] insertKey

theorem lookup_insertKey (k k' : κ) (v : β) (m : List (κ × β)) :
    (insertKey k v m).lookup k' = if k' = k then some v else m.lookup k' := by
  induction m with
  | nil =>
    rw [insertKey, List.lookup_cons, List.lookup_nil]
    by_cases h : k' = k
    · simp only [h, beq_self_eq_true, if_true]
    · simp only [h, beq_eq_false_iff_ne.mpr h, if_false]
  | cons p m ih =>
    obtain ⟨k₀, v₀⟩ := p
    rw [insertKey]
    by_cases h : k' = k
    · subst h
      rw [if_pos rfl] at ih ⊢
      split_ifs with h0 h1
      · rw [List.lookup_cons, beq_self_eq_true]
      · rw [List.lookup_cons, beq_self_eq_true]
      · rw [List.lookup_cons, beq_eq_false_iff_ne.mpr h0, ih]
    · rw [if_neg h] at ih ⊢
      split_ifs with h0 h1
      · subst h0
        rw [List.lookup_cons, List.lookup_cons, beq_eq_false_iff_ne.mpr h]
      · rw [List.lookup_cons, beq_eq_false_iff_ne.mpr h]
      · rw [List.lookup_cons, List.lookup_cons, ih]

theorem mem_insertKey {k : κ} {v : β} {m : List (κ × β)} {p : κ × β} (h : p ∈ insertKey k v m) :
    p = (k, v) ∨ p ∈ m := by
  induction m with
  | nil => exact .inl (List.mem_singleton.mp h)
  | cons q m ih =>
    rw [insertKey] at h
    split_ifs at h
    · exact (List.mem_cons.mp h).imp_right (List.mem_cons_of_mem q)
    · exact List.mem_cons.mp h
    · rcases List.mem_cons.mp h with rfl | h
      · exact .inr (List.mem_cons_self ..)
      · exact (ih h).imp_right (List.mem_cons_of_mem q)

theorem mem_keys_insertKey {k k' : κ} {v : β} {m : List (κ × β)} :
    k' ∈ (insertKey k v m).map Prod.fst ↔ k' = k ∨ k' ∈ m.map Prod.fst := by
  induction m with
  | nil => exact List.mem_cons
  | cons q m ih =>
    rw [insertKey]
    split_ifs with h0 h1
    · subst h0
      simp only [List.map_cons, List.mem_cons, or_self_left]
    · exact List.mem_cons
    · rw [List.map_cons, List.map_cons, List.mem_cons, List.mem_cons, ih]
      exact or_left_comm

theorem insertKey_sorted {k : κ} {v : β} {m : List (κ × β)} (h : m.Pairwise fun p q => p.1 < q.1) :
    (insertKey k v m).Pairwise fun p q => p.1 < q.1 := by
  induction m with
  | nil => exact List.pairwise_singleton ..
  | cons q m ih =>
    obtain ⟨hq, hm⟩ := List.pairwise_cons.mp h
    rw [insertKey]
    split_ifs with h0 h1
    · subst h0
      exact List.pairwise_cons.mpr ⟨hq, hm⟩
    · refine List.pairwise_cons.mpr ⟨fun p hp => ?_, h⟩
      rcases List.mem_cons.mp hp with rfl | hp
      · exact h1
      · exact h1.trans (hq p hp)
    · refine List.pairwise_cons.mpr ⟨fun p hp => ?_, ih hm⟩
      rcases mem_insertKey hp with rfl | hp
      · exact lt_of_le_of_ne (not_lt.mp h1) (Ne.symm h0)
      · exact hq p hp

end

end Jhc.Lib

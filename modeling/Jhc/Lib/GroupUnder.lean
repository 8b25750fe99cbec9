import Mathlib

/-!
# Groups of one key

A list sorted by a key is cut where the key changes: each key comes once, with its
elements in the order that they had in the list.
-/

namespace Jhc.Lib

variable {α κ β : Type} [LinearOrder κ] (f : α → κ)

/-- The runs of equal keys. -/
def runsOf : List α → List (κ × List α)
  | [] => []
  | x :: xs =>
    match runsOf xs with
    | [] => [(f x, [x])]
    | (k, ys) :: rest => if f x = k then (k, x :: ys) :: rest else (f x, [x]) :: (k, ys) :: rest

def sortGroupUnderFG (g : α → β) (xs : List α) : List (κ × List β) :=
  (runsOf f (xs.insertionSort fun x y => f x ≤ f y)).map fun p => (p.1, p.2.map g)

variable {f} {xs : List α}

attribute [local grind =] runsOf

theorem mem_runsOf_keys {k : κ} : k ∈ (runsOf f xs).map Prod.fst ↔ ∃ x ∈ xs, f x = k := by
  induction xs with
  | nil => simp [runsOf]
  | cons x xs ih =>
    rw [List.exists_mem_cons_iff, ← ih, runsOf]
    split
    · next hnil => simp [hnil, eq_comm]
    · next hruns =>
      rw [hruns]
      split
      · next heq => simp [heq, eq_comm]
      · simp [eq_comm]

theorem runsOf_keys_sorted (hxs : xs.Pairwise fun x y => f x ≤ f y) : ((runsOf f xs).map Prod.fst).Pairwise (· < ·) := by
  induction xs with
  | nil => exact List.Pairwise.nil
  | cons x xs ih =>
    obtain ⟨hx, hxs⟩ := List.pairwise_cons.1 hxs
    have hkeys := ih hxs
    unfold runsOf
    split
    · exact List.pairwise_singleton _ _
    · next k ys rest hruns =>
      rw [hruns] at hkeys
      split
      · exact hkeys
      · next hne =>
        have hle : ∀ k' ∈ (runsOf f xs).map Prod.fst, f x ≤ k' := by
          intro k' hk'
          obtain ⟨y, hy, rfl⟩ := mem_runsOf_keys.1 hk'
          exact hx y hy
        rw [hruns] at hle
        have hlt : f x < k := lt_of_le_of_ne (hle k List.mem_cons_self) hne
        refine List.pairwise_cons.2 ⟨fun k' hk' => ?_, hkeys⟩
        cases List.mem_cons.1 hk' with
        | inl h => rwa [h]
        | inr h => exact hlt.trans ((List.pairwise_cons.1 hkeys).1 k' h)

/-- In a sorted list the run of a key has every element of the key. -/
theorem runsOf_filter (hxs : xs.Pairwise fun x y => f x ≤ f y) {p : κ × List α} (hp : p ∈ runsOf f xs) :
    p.2 = xs.filter fun x => f x = p.1 := by
  induction xs generalizing p with
  | nil => cases hp
  | cons x xs ih =>
    have hsorted := runsOf_keys_sorted hxs
    obtain ⟨hx, hxs⟩ := List.pairwise_cons.1 hxs
    have hother : ∀ q ∈ runsOf f xs, f x < q.1 → q.2 = (x :: xs).filter fun y => f y = q.1 := by
      intro q hq hlt
      rw [List.filter_cons_of_neg (by simpa using hlt.ne), ih hxs hq]
    unfold runsOf at hp hsorted
    split at hp
    · next hnil =>
      have hxs : xs = [] := by
        refine List.eq_nil_iff_forall_not_mem.2 fun y hy => ?_
        have hkey : f y ∈ (runsOf f xs).map Prod.fst := mem_runsOf_keys.2 ⟨y, hy, rfl⟩
        rw [hnil] at hkey
        cases hkey
      rw [List.mem_singleton.1 hp, hxs]
      simp
    · next k ys rest hruns =>
      rw [hruns] at hsorted hother
      dsimp only at hsorted
      split at hp
      · next heq =>
        rw [if_pos heq, List.map_cons, List.pairwise_cons] at hsorted
        cases List.mem_cons.1 hp with
        | inl h =>
          rw [h, List.filter_cons_of_pos (by simpa using heq), ← ih hxs (p := (k, ys)) (by rw [hruns]; exact List.mem_cons_self)]
        | inr h =>
          exact hother p (List.mem_cons_of_mem _ h) (by rw [heq]; exact hsorted.1 _ (List.mem_map_of_mem h))
      · next hne =>
        rw [if_neg hne, List.map_cons, List.pairwise_cons] at hsorted
        cases List.mem_cons.1 hp with
        | inl h =>
          have hnone : (xs.filter fun y => f y = f x) = [] := by
            rw [List.filter_eq_nil_iff]
            intro y hy hyx
            have hkey : f y ∈ (runsOf f xs).map Prod.fst := mem_runsOf_keys.2 ⟨y, hy, rfl⟩
            rw [hruns] at hkey
            exact absurd (of_decide_eq_true hyx) (hsorted.1 _ hkey).ne'
          rw [h, List.filter_cons_of_pos (by simp), hnone]
        | inr h => exact hother p h (hsorted.1 _ (List.mem_map_of_mem h))

variable (f) (xs)

theorem filter_insertionSort (k : κ) :
    (xs.insertionSort fun x y => f x ≤ f y).filter (fun x => f x = k) = xs.filter fun x => f x = k := by
  have hsub : (xs.filter fun x => f x = k).Sublist (xs.insertionSort fun x y => f x ≤ f y) := by
    refine List.sublist_insertionSort ?_ List.filter_sublist
    refine List.Pairwise.imp_of_mem (R := fun _ _ => True) (fun hx hy _ => ?_) (List.pairwise_of_forall fun _ _ => trivial)
    rw [List.mem_filter, decide_eq_true_eq] at hx hy
    rw [hx.2, hy.2]
  have hfilter := hsub.filter fun x => f x = k
  rw [List.filter_filter] at hfilter
  simp only [Bool.and_self] at hfilter
  refine (hfilter.eq_of_length ?_).symm
  exact ((List.perm_insertionSort _ xs).filter _).length_eq.symm

variable {f} {xs} {g : α → β}

theorem sortGroupUnderFG_keys : ((sortGroupUnderFG f g xs).map Prod.fst).Nodup := by
  have hsorted := runsOf_keys_sorted (List.pairwise_insertionSort (fun x y => f x ≤ f y) xs)
  rw [sortGroupUnderFG, List.map_map]
  exact hsorted.imp fun h => h.ne

theorem mem_sortGroupUnderFG {k : κ} {vs : List β} :
    (k, vs) ∈ sortGroupUnderFG f g xs ↔ (∃ x ∈ xs, f x = k) ∧ vs = (xs.filter fun x => f x = k).map g := by
  have hruns : ∀ p ∈ runsOf f (xs.insertionSort fun x y => f x ≤ f y), p.2 = xs.filter fun x => f x = p.1 := by
    intro p hp
    rw [runsOf_filter (List.pairwise_insertionSort (fun x y => f x ≤ f y) xs) hp, filter_insertionSort]
  have hkeys : k ∈ (runsOf f (xs.insertionSort fun x y => f x ≤ f y)).map Prod.fst ↔ ∃ x ∈ xs, f x = k := by
    rw [mem_runsOf_keys]
    simp
  rw [← hkeys, sortGroupUnderFG, List.mem_map, List.mem_map]
  constructor
  · intro h
    obtain ⟨p, hp, heq⟩ := h
    obtain ⟨rfl, rfl⟩ := Prod.mk.inj heq
    exact ⟨⟨p, hp, rfl⟩, by rw [hruns p hp]⟩
  · intro h
    obtain ⟨⟨p, hp, rfl⟩, rfl⟩ := h
    exact ⟨p, hp, by rw [hruns p hp]⟩

end Jhc.Lib

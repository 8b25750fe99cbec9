import Mathlib.Data.Finset.Card
import Mathlib.Data.List.Induction
import Mathlib.Data.List.Nodup
import Mathlib.Logic.Relation

/-!
# Paths and postorder of a graph

Paths by what they pass, and the covering pairs of a finite order. Depth first search from
a list of nodes, with the nodes in the order in which it leaves them: in a graph without
cycles each node comes after all that it has edges to.
-/

namespace Jhc.Lib

section Paths
open Relation

variable {α : Type} {r : α → α → Prop} {p q : α → Prop} {a b c k : α}

/-- A path of one step or more that passes on its way only what meets `p`. -/
inductive Through (r : α → α → Prop) (p : α → Prop) : α → α → Prop where
  | single {a b : α} : r a b → Through r p a b
  | cons {a b c : α} : r a c → p c → Through r p c b → Through r p a b

theorem Through.append (h₁ : Through r p a c) (hc : p c) (h₂ : Through r p c b) : Through r p a b := by
  induction h₁ with
  | single hr => exact .cons hr hc h₂
  | cons hr hp _ ih => exact .cons hr hp (ih hc h₂)

theorem Through.mono (hpq : ∀ x, p x → q x) (h : Through r p a b) : Through r q a b := by
  induction h with
  | single hr => exact .single hr
  | cons hr hp _ ih => exact .cons hr (hpq _ hp) ih

theorem through_none (hp : ∀ x, ¬ p x) : Through r p a b ↔ r a b := by
  constructor
  · intro h
    cases h with
    | single hr => exact hr
    | cons _ hc _ => exact absurd hc (hp _)
  · exact Through.single

/-- Where every point with a way out may be passed, these are all the paths. -/
theorem through_all (hp : ∀ x y, r x y → p x) : Through r p a b ↔ TransGen r a b := by
  constructor
  · intro h
    induction h with
    | single hr => exact .single hr
    | cons hr _ _ ih => exact .head hr ih
  · intro h
    induction h using TransGen.head_induction_on with
    | single hr => exact .single hr
    | head hr hrest ih =>
      obtain ⟨d, hd, -⟩ := TransGen.head'_iff.1 hrest
      exact .cons hr (hp _ d hd) ih

/-- A path that may pass `k` as well does so once at most: what is between two visits can be
left out. -/
theorem through_or_iff : Through r (fun x => p x ∨ x = k) a b ↔
    Through r p a b ∨ Through r p a k ∧ Through r p k b := by
  constructor
  · intro h
    induction h with
    | single hr => exact .inl (.single hr)
    | @cons a b c hr hc _ ih =>
      rcases hc with hc | rfl
      · rcases ih with ih | ⟨hck, hkb⟩
        · exact .inl (.cons hr hc ih)
        · exact .inr ⟨.cons hr hc hck, hkb⟩
      · rcases ih with ih | ⟨-, hkb⟩
        · exact .inr ⟨.single hr, ih⟩
        · exact .inr ⟨.single hr, hkb⟩
  · rintro (h | ⟨hak, hkb⟩)
    · exact h.mono fun _ => Or.inl
    · exact (hak.mono fun _ => Or.inl).append (Or.inr rfl) (hkb.mono fun _ => Or.inl)

/-- The pairs of a relation with nothing between them. -/
def Covers (r : α → α → Prop) (a b : α) : Prop := r a b ∧ ¬ ∃ c, r a c ∧ r c b

/-- A transitive relation without loops, on finitely many points, is what its covering pairs
lead to. -/
theorem transGen_covers (s : Finset α) (hs : ∀ x y, r x y → y ∈ s) (htrans : ∀ x y z, r x y → r y z → r x z)
    (hirr : ∀ x, ¬ r x x) (h : r a b) : TransGen (Covers r) a b := by
  classical
  -- on the number of points in between
  induction hn : (s.filter fun x => r a x ∧ r x b).card using Nat.strong_induction_on generalizing a b with
  | _ n ih =>
    by_cases hc : ∃ c, r a c ∧ r c b
    · obtain ⟨c, hac, hcb⟩ := hc
      have hmem : c ∈ s.filter fun x => r a x ∧ r x b := Finset.mem_filter.2 ⟨hs a c hac, hac, hcb⟩
      have hleft : (s.filter fun x => r a x ∧ r x c).card < n := by
        rw [← hn]
        refine Finset.card_lt_card ⟨fun x hx => ?_, fun hsub => ?_⟩
        · obtain ⟨hxs, hax, hxc⟩ := Finset.mem_filter.1 hx
          exact Finset.mem_filter.2 ⟨hxs, hax, htrans x c b hxc hcb⟩
        · exact hirr c (Finset.mem_filter.1 (hsub hmem)).2.2
      have hright : (s.filter fun x => r c x ∧ r x b).card < n := by
        rw [← hn]
        refine Finset.card_lt_card ⟨fun x hx => ?_, fun hsub => ?_⟩
        · obtain ⟨hxs, hcx, hxb⟩ := Finset.mem_filter.1 hx
          exact Finset.mem_filter.2 ⟨hxs, htrans a c x hac hcx, hxb⟩
        · exact hirr c (Finset.mem_filter.1 (hsub hmem)).2.1
      exact (ih _ hleft hac rfl).trans (ih _ hright hcb rfl)
    · exact .single ⟨h, hc⟩

end Paths

variable {α : Type} [DecidableEq α] (next : α → List α)

/-- The nodes left so far, after a search from one more node, to a depth. -/
def visit : ℕ → List α → α → List α
  | 0, done, _ => done
  | n + 1, done, k => if k ∈ done then done else (next k).foldl (visit n) done ++ [k]

def postOrd (n : ℕ) (ks : List α) : List α := ks.foldl (visit next n) []

/-- Each node of the list comes after all that it has edges to. -/
def Ordered (l : List α) : Prop := ∀ l₁ k l₂, l = l₁ ++ k :: l₂ → ∀ c ∈ next k, c ∈ l₁

variable {next}

omit [DecidableEq α] in
theorem ordered_snoc {l : List α} {k : α} (hl : Ordered next l) (hk : ∀ c ∈ next k, c ∈ l) :
    Ordered next (l ++ [k]) := by
  intro l₁ k' l₂ heq c hc
  cases l₂ using List.reverseRecOn with
  | nil =>
    obtain ⟨rfl, hk'⟩ := List.append_inj' heq rfl
    cases hk'
    exact hk c hc
  | append_singleton l₂ k'' =>
    rw [← List.cons_append, ← List.append_assoc] at heq
    obtain ⟨hinit, -⟩ := List.append_inj' heq rfl
    exact hl l₁ k' l₂ hinit c hc

omit [DecidableEq α] in
theorem ordered_closed {l : List α} {k x : α} (hl : Ordered next l) (hk : k ∈ l)
    (hx : Relation.ReflTransGen (fun a b => b ∈ next a) k x) : x ∈ l := by
  induction hx with
  | refl => exact hk
  | tail _ hstep ih =>
    obtain ⟨l₁, l₂, heq⟩ := List.append_of_mem ih
    have hmem := hl l₁ _ l₂ heq _ hstep
    rw [heq]
    exact List.mem_append_left _ hmem

/-- What a search adds: the list grows, stays ordered and without repetitions, and has
the nodes that are reached. -/
structure Visited (next : α → List α) (done : List α) (ks : List α) (res : List α) : Prop where
  le : ∀ x ∈ done, x ∈ res
  ordered : Ordered next res
  nodup : res.Nodup
  mem : ∀ k ∈ ks, k ∈ res
  reached : ∀ x ∈ res, x ∈ done ∨ ∃ k ∈ ks, Relation.ReflTransGen (fun a b => b ∈ next a) k x

theorem visited_foldl {n : ℕ} {ks done : List α} (hvisit : ∀ done, ∀ k ∈ ks, Ordered next done →
    done.Nodup → Visited next done [k] (visit next n done k)) (hord : Ordered next done) (hnd : done.Nodup) :
    Visited next done ks (ks.foldl (visit next n) done) := by
  induction ks generalizing done with
  | nil => exact ⟨fun _ h => h, hord, hnd, by simp, fun x hx => .inl hx⟩
  | cons k ks ih =>
    have hone := hvisit done k List.mem_cons_self hord hnd
    have hrest := ih (fun done k' hk' => hvisit done k' (List.mem_cons_of_mem _ hk')) hone.ordered hone.nodup
    refine ⟨fun x hx => hrest.le x (hone.le x hx), hrest.ordered, hrest.nodup, ?_, ?_⟩
    · intro x hx
      cases List.mem_cons.1 hx with
      | inl h => exact h ▸ hrest.le k (hone.mem k List.mem_cons_self)
      | inr h => exact hrest.mem x h
    · intro x hx
      rcases hrest.reached x hx with hx' | ⟨k', hk', hreach⟩
      · rcases hone.reached x hx' with hx'' | ⟨k', hk', hreach⟩
        · exact .inl hx''
        · rw [List.mem_singleton.1 hk'] at hreach
          exact .inr ⟨k, List.mem_cons_self, hreach⟩
      · exact .inr ⟨k', List.mem_cons_of_mem _ hk', hreach⟩

/-- The depth is enough when every edge goes down in some rank. -/
theorem visited_visit {rank : α → ℕ} (hrank : ∀ k, ∀ c ∈ next k, rank c < rank k) {n : ℕ} {done : List α}
    {k : α} (hn : rank k < n) (hord : Ordered next done) (hnd : done.Nodup) :
    Visited next done [k] (visit next n done k) := by
  induction n generalizing done k with
  | zero => omega
  | succ n ih =>
    unfold visit
    split
    · next hk =>
      refine ⟨fun _ h => h, hord, hnd, fun x hx => ?_, fun x hx => .inl hx⟩
      rw [List.mem_singleton.1 hx]
      exact hk
    · next hk =>
      have hchild := visited_foldl (fun done c hc hord hnd => by
        have hlt := hrank k c hc
        exact ih (by omega) hord hnd) hord hnd
      have hnew : k ∉ (next k).foldl (visit next n) done := by
        intro hmem
        rcases hchild.reached k hmem with h | ⟨c, hc, hreach⟩
        · exact hk h
        · have hdown : rank k ≤ rank c := by
            have hle : ∀ x, Relation.ReflTransGen (fun a b => b ∈ next a) c x → rank x ≤ rank c := by
              intro x hx
              induction hx with
              | refl => exact Nat.le_refl _
              | tail _ hstep ih =>
                have hlt := hrank _ _ hstep
                omega
            exact hle k hreach
          have hlt := hrank k c hc
          omega
      refine ⟨fun x hx => List.mem_append_left _ (hchild.le x hx), ordered_snoc hchild.ordered hchild.mem,
        ?_, ?_, ?_⟩
      · refine List.nodup_append.2 ⟨hchild.nodup, List.nodup_singleton k, ?_⟩
        intro x hx y hy heq
        rw [List.mem_singleton.1 hy] at heq
        exact hnew (heq ▸ hx)
      · intro x hx
        rw [List.mem_singleton.1 hx]
        simp
      · intro x hx
        rcases List.mem_append.1 hx with hx | hx
        · rcases hchild.reached x hx with h | ⟨c, hc, hreach⟩
          · exact .inl h
          · exact .inr ⟨k, List.mem_singleton_self k, .head hc hreach⟩
        · exact .inr ⟨k, List.mem_singleton_self k, by rw [List.mem_singleton.1 hx]⟩

theorem visited_postOrd {rank : α → ℕ} (hrank : ∀ k, ∀ c ∈ next k, rank c < rank k) {n : ℕ} {ks : List α}
    (hn : ∀ k ∈ ks, rank k < n) : Visited next [] ks (postOrd next n ks) := by
  refine visited_foldl (fun done k hk hord hnd => visited_visit hrank (hn k hk) hord hnd) ?_ List.nodup_nil
  intro l₁ k l₂ heq
  cases l₁ <;> cases heq

/-- A postorder has what is reached from its roots. -/
theorem mem_postOrd {rank : α → ℕ} (hrank : ∀ k, ∀ c ∈ next k, rank c < rank k) {n : ℕ} {ks : List α}
    (hn : ∀ k ∈ ks, rank k < n) {x : α} :
    x ∈ postOrd next n ks ↔ ∃ k ∈ ks, Relation.ReflTransGen (fun a b => b ∈ next a) k x := by
  have hv := visited_postOrd hrank hn
  constructor
  · intro hx
    rcases hv.reached x hx with h | h
    · cases h
    · exact h
  · intro h
    obtain ⟨k, hk, hreach⟩ := h
    exact ordered_closed hv.ordered (hv.mem k hk) hreach

end Jhc.Lib

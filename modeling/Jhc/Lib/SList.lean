import Mathlib.Logic.Function.Basic
import Mathlib.Data.List.Nodup

/-!
# Intrusive singly linked lists

A list whose links are a field of its elements: `next a` is the element after
`a`. `Chain next head xs` says that following the links from `head` visits
exactly `xs` and then meets the null link.
-/

namespace Jhc.Lib.SList

variable {α : Type*}

/-- Following `next` from `head` visits `xs`, in this order, and ends. -/
def Chain (next : α → Option α) : Option α → List α → Prop
  | head, [] => head = none
  | head, x :: xs => head = some x ∧ Chain next (next x) xs

@[simp] theorem chain_nil {next : α → Option α} {head : Option α} :
    Chain next head [] ↔ head = none := Iff.rfl

@[simp] theorem chain_cons {next : α → Option α} {head : Option α} {x : α} {xs : List α} :
    Chain next head (x :: xs) ↔ head = some x ∧ Chain next (next x) xs := Iff.rfl

theorem Chain.unique {next : α → Option α} {head : Option α} {xs ys : List α}
    (hx : Chain next head xs) (hy : Chain next head ys) : xs = ys := by
  induction xs generalizing head ys with
  | nil =>
    cases ys with
    | nil => rfl
    | cons y ys =>
      rw [chain_nil] at hx
      simp [hx] at hy
  | cons x xs ih =>
    cases ys with
    | nil =>
      rw [chain_nil] at hy
      simp [hy] at hx
    | cons y ys =>
      obtain ⟨hhead, htail⟩ := hx
      obtain ⟨hhead', htail'⟩ := hy
      have hxy : x = y := Option.some_inj.mp (hhead.symm.trans hhead')
      subst hxy
      rw [ih htail htail']

theorem Chain.congr {next next' : α → Option α} {head : Option α} {xs : List α}
    (h : Chain next head xs) (heq : ∀ x ∈ xs, next' x = next x) : Chain next' head xs := by
  induction xs generalizing head with
  | nil => exact h
  | cons x xs ih =>
    obtain ⟨hhead, htail⟩ := h
    refine ⟨hhead, ?_⟩
    rw [heq x (List.mem_cons_self ..)]
    exact ih htail fun y hy => heq y (List.mem_cons_of_mem _ hy)

theorem Chain.insertHead [DecidableEq α] {next : α → Option α} {head : Option α} {xs : List α}
    {a : α} (h : Chain next head xs) (ha : a ∉ xs) :
    Chain (Function.update next a head) (some a) (a :: xs) := by
  refine ⟨rfl, ?_⟩
  rw [Function.update_self]
  refine h.congr fun x hx => ?_
  have hne : x ≠ a := fun hxa => ha (hxa ▸ hx)
  exact Function.update_of_ne hne ..

end Jhc.Lib.SList

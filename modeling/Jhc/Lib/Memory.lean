import Mathlib.Data.Set.Lattice
import Mathlib.Logic.Function.Basic

/-!
# Traces of memory actions

A run of a program as the list of what it does to a store: reads with what they
found, writes, allocations, and events that the outside sees. The trace is possible
from a store when each read finds its content, and what a trace does there can be
told from the list alone: which actions may change places, which may be left out,
and which cells a program can reach that starts with some of them.
-/

namespace Jhc.Lib.Memory

inductive Act (C E : Type) where
  | read (a : ℕ) (c : C)
  | write (a : ℕ) (c : C)
  | alloc (a : ℕ) (c : C)
  | emit (e : E)

abbrev Store (C : Type) := ℕ → Option C

/-- The kind of a cell, which no write changes, the cells that it points to, and the
cells that an event hands out and takes in. -/
class Layout (C E : Type) (K : outParam Type) where
  kind : C → K
  ptrs : C → Set ℕ
  sent : E → Set ℕ
  got : E → Set ℕ

open Layout

variable {C E K : Type} [Layout C E K]

/-! ### What an action does, when it is possible -/

namespace Act

def run (σ : Store C) : Act C E → Store C
  | write a c => Function.update σ a (some c)
  | alloc a c => Function.update σ a (some c)
  | _ => σ

def Ok (σ : Store C) : Act C E → Prop
  | read a c => σ a = some c
  | write a c => ∃ d, σ a = some d ∧ kind E d = kind E c
  | alloc a _ => σ a = none
  | emit _ => True

def addr : Act C E → Option ℕ
  | read a _ => some a
  | write a _ => some a
  | alloc a _ => some a
  | emit _ => none

/-- A read or an allocation. -/
def Quiet : Act C E → Prop
  | read _ _ => True
  | alloc _ _ => True
  | _ => False

end Act

def after (σ : Store C) : List (Act C E) → Store C
  | [] => σ
  | x :: xs => after (x.run σ) xs

def Ok (σ : Store C) : List (Act C E) → Prop
  | [] => True
  | x :: xs => x.Ok σ ∧ Ok (x.run σ) xs

/-- The cells that a trace allocates. -/
def allocs (xs : List (Act C E)) : Set ℕ := {a | ∃ c, Act.alloc a c ∈ xs}

def Quiet (xs : List (Act C E)) : Prop := ∀ x ∈ xs, x.Quiet

/-- No action is at one of the addresses. -/
def Avoids (Z : Set ℕ) (xs : List (Act C E)) : Prop := ∀ x ∈ xs, ∀ a ∈ x.addr, a ∉ Z

/-- The events of a trace. -/
def events : List (Act C E) → List E
  | [] => []
  | .emit e :: xs => e :: events xs
  | _ :: xs => events xs

section
variable {σ σ' : Store C} {x y : Act C E} {xs ys zs : List (Act C E)} {a : ℕ} {c d : C} {Z : Set ℕ}

omit [Layout C E K] in
theorem after_append : after σ (xs ++ ys) = after (after σ xs) ys := by
  induction xs generalizing σ with
  | nil => rfl
  | cons x xs ih => exact ih

theorem ok_append : Ok σ (xs ++ ys) ↔ Ok σ xs ∧ Ok (after σ xs) ys := by
  induction xs generalizing σ with
  | nil => simp [Ok, after]
  | cons x xs ih => simp only [List.cons_append, Ok, after, ih, and_assoc]

omit [Layout C E K] in
theorem events_append : events (xs ++ ys) = events xs ++ events ys := by
  induction xs with
  | nil => rfl
  | cons x xs ih => cases x <;> simp [events, ih]

omit [Layout C E K] in
theorem events_quiet (h : Quiet xs) : events xs = [] := by
  induction xs with
  | nil => rfl
  | cons x xs ih =>
    have hxs := ih fun y hy => h y (List.mem_cons_of_mem _ hy)
    have hx := h x List.mem_cons_self
    cases x with
    | read a c => exact hxs
    | alloc a c => exact hxs
    | write a c => exact absurd hx id
    | emit e => exact absurd hx id

omit [Layout C E K] in
theorem allocs_append : allocs (xs ++ ys) = allocs xs ∪ allocs ys := by
  ext a
  simp only [allocs, List.mem_append, Set.mem_ofPred_eq, Set.mem_union, exists_or]

omit [Layout C E K] in
theorem quiet_append : Quiet (xs ++ ys) ↔ Quiet xs ∧ Quiet ys := by
  simp only [Quiet, List.mem_append, or_imp, forall_and]

omit [Layout C E K] in
theorem avoids_append : Avoids Z (xs ++ ys) ↔ Avoids Z xs ∧ Avoids Z ys := by
  simp only [Avoids, List.mem_append, or_imp, forall_and]

omit [Layout C E K] in
theorem run_other (h : ∀ b ∈ x.addr, b ≠ a) : x.run σ a = σ a := by
  cases x with
  | write b c => exact Function.update_of_ne (h b rfl).symm _ _
  | alloc b c => exact Function.update_of_ne (h b rfl).symm _ _
  | _ => rfl

/-- Cells stay, and keep their kind. -/
theorem kind_after (hok : Ok σ xs) (h : σ a = some c) :
    ∃ d, after σ xs a = some d ∧ kind E d = kind E c := by
  induction xs generalizing σ c with
  | nil => exact ⟨c, h, rfl⟩
  | cons x xs ih =>
    have hstep : ∃ d, x.run σ a = some d ∧ kind E d = kind E c := by
      by_cases hx : ∀ b ∈ x.addr, b ≠ a
      · exact ⟨c, (run_other hx).trans h, rfl⟩
      · cases x with
        | read b e => exact ⟨c, h, rfl⟩
        | emit e => exact ⟨c, h, rfl⟩
        | write b e =>
          have hb : b = a := by simpa [Act.addr] using hx
          subst hb
          obtain ⟨d, hd, hkind⟩ := hok.1
          rw [h] at hd
          cases hd
          exact ⟨e, Function.update_self _ _ _, hkind.symm⟩
        | alloc b e =>
          have hb : b = a := by simpa [Act.addr] using hx
          subst hb
          have hnone : σ b = none := hok.1
          rw [h] at hnone
          cases hnone
    obtain ⟨d, hd, hkind⟩ := hstep
    obtain ⟨e, he, hkind'⟩ := ih hok.2 hd
    exact ⟨e, he, hkind'.trans hkind⟩

theorem none_of_after (hok : Ok σ xs) (h : after σ xs a = none) : σ a = none := by
  cases hs : σ a with
  | none => rfl
  | some c =>
    obtain ⟨d, hd, -⟩ := kind_after hok hs
    rw [h] at hd
    cases hd

/-- Every address of a trace is that of a cell in the end. -/
theorem addr_after (hok : Ok σ xs) (hx : x ∈ xs) (ha : a ∈ x.addr) : after σ xs a ≠ none := by
  induction xs generalizing σ with
  | nil => cases hx
  | cons y ys ih =>
    cases List.mem_cons.1 hx with
    | inl h =>
      subst h
      intro hnone
      have hrun : x.run σ a = none := none_of_after hok.2 hnone
      cases x with
      | read b c =>
        cases ha
        have hread : σ a = some c := hok.1
        rw [show (Act.read a c : Act C E).run σ = σ from rfl, hread] at hrun
        cases hrun
      | write b c =>
        cases ha
        rw [show (Act.write a c : Act C E).run σ a = some c from Function.update_self _ _ _] at hrun
        cases hrun
      | alloc b c =>
        cases ha
        rw [show (Act.alloc a c : Act C E).run σ a = some c from Function.update_self _ _ _] at hrun
        cases hrun
      | emit e => cases ha
    | inr h => exact ih hok.2 h

theorem allocs_after (hok : Ok σ xs) (h : a ∈ allocs xs) : after σ xs a ≠ none := by
  obtain ⟨c, hc⟩ := h
  exact addr_after hok hc rfl

/-- What a trace allocates was not there. -/
theorem allocs_fresh (hok : Ok σ xs) (h : a ∈ allocs xs) : σ a = none := by
  induction xs generalizing σ with
  | nil =>
    obtain ⟨c, hc⟩ := h
    cases hc
  | cons x xs ih =>
    obtain ⟨c, hc⟩ := h
    cases List.mem_cons.1 hc with
    | inl heq =>
      subst heq
      exact hok.1
    | inr hmem =>
      have hrun := ih hok.2 ⟨c, hmem⟩
      have hone : Ok σ [x] := ⟨hok.1, trivial⟩
      exact none_of_after hone hrun

/-- Outside of its addresses a trace changes nothing. -/
theorem after_other (h : ∀ x ∈ xs, ∀ b ∈ x.addr, b ≠ a) : after σ xs a = σ a := by
  induction xs generalizing σ with
  | nil => rfl
  | cons x xs ih =>
    have hxs := ih (σ := x.run σ) fun y hy => h y (List.mem_cons_of_mem _ hy)
    exact hxs.trans (run_other (h x List.mem_cons_self))

/-- A trace that only reads and allocates changes no cell. -/
theorem after_quiet (hq : Quiet xs) (hok : Ok σ xs) (h : a ∉ allocs xs) : after σ xs a = σ a := by
  induction xs generalizing σ with
  | nil => rfl
  | cons x xs ih =>
    have hxs := ih (fun y hy => hq y (List.mem_cons_of_mem _ hy)) hok.2
      fun hmem => h (by
        obtain ⟨c, hc⟩ := hmem
        exact ⟨c, List.mem_cons_of_mem _ hc⟩)
    have hx := hq x List.mem_cons_self
    refine hxs.trans ?_
    cases x with
    | read b c => rfl
    | alloc b c =>
      have hne : b ≠ a := by
        intro heq
        subst heq
        exact h ⟨c, List.mem_cons_self⟩
      exact run_other fun b' hb' => by
        cases hb'
        exact hne
    | write b c => exact absurd hx id
    | emit e => exact absurd hx id

/-- A cell that a quiet trace finds in the end and does not allocate was there before. -/
theorem after_quiet_some (hq : Quiet xs) (hok : Ok σ xs) (h : σ a = some c) : after σ xs a = some c := by
  have hnot : a ∉ allocs xs := by
    intro hmem
    rw [allocs_fresh hok hmem] at h
    cases h
  rw [after_quiet hq hok hnot, h]

end

/-! ### Stores that agree -/

section
variable {σ σ' : Store C} {xs : List (Act C E)} {Z : Set ℕ}

theorem run_agree {x : Act C E} (hz : ∀ a ∈ x.addr, a ∉ Z) (hagree : ∀ a, a ∉ Z → σ' a = σ a) (a : ℕ)
    (ha : a ∉ Z) : x.run σ' a = x.run σ a := by
  cases x with
  | read b c => exact hagree a ha
  | emit e => exact hagree a ha
  | write b c =>
    simp only [Act.run, Function.update_apply, hagree a ha]
  | alloc b c =>
    simp only [Act.run, Function.update_apply, hagree a ha]

/-- A trace is possible from every store that agrees with its own where it is. -/
theorem ok_agree (hz : Avoids Z xs) (hagree : ∀ a, a ∉ Z → σ' a = σ a) (hok : Ok σ xs) :
    Ok σ' xs ∧ ∀ a, a ∉ Z → after σ' xs a = after σ xs a := by
  induction xs generalizing σ σ' with
  | nil => exact ⟨trivial, hagree⟩
  | cons x xs ih =>
    have hx := hz x List.mem_cons_self
    have hrun := run_agree hx hagree
    obtain ⟨hokxs, hafter⟩ := ih (fun y hy => hz y (List.mem_cons_of_mem _ hy)) hrun hok.2
    refine ⟨⟨?_, hokxs⟩, hafter⟩
    have hstep := hok.1
    cases x with
    | read b c => exact (hagree b (hx b rfl)).trans hstep
    | write b c =>
      obtain ⟨d, hd, hkind⟩ := hstep
      exact ⟨d, (hagree b (hx b rfl)).trans hd, hkind⟩
    | alloc b c => exact (hagree b (hx b rfl)).trans hstep
    | emit e => trivial

/-- What is not read or written can be left out. -/
theorem ok_drop {P : List (Act C E)} (hq : Quiet P) (hok : Ok σ (P ++ xs)) (hz : Avoids (allocs P) xs) :
    Ok σ xs ∧ ∀ a, a ∉ allocs P → after σ xs a = after σ (P ++ xs) a := by
  obtain ⟨hP, hxs⟩ := ok_append.1 hok
  rw [after_append]
  exact ok_agree hz (fun a ha => (after_quiet hq hP ha).symm) hxs

end

/-! ### Actions that change places -/

section
variable {σ : Store C} {x y : Act C E} {xs ys P B : List (Act C E)}

/-- The second action neither touches what the first allocates nor writes what it reads. -/
def Apart (x y : Act C E) : Prop :=
  (∀ a c, x = .alloc a c → a ∉ y.addr) ∧ ∀ a c d, x = .read a c → y ≠ .write a d

theorem ok_swap (hq : x.Quiet) (hapart : Apart x y) (hok : Ok σ (x :: y :: xs)) :
    Ok σ (y :: x :: xs) ∧ y.run (x.run σ) = x.run (y.run σ) := by
  obtain ⟨hx, hy, hrest⟩ := hok
  cases x with
  | read a c =>
    refine ⟨⟨hy, ?_, hrest⟩, rfl⟩
    have hread : σ a = some c := hx
    cases y with
    | read b d => exact hread
    | emit e => exact hread
    | write b d =>
      have hne : b ≠ a := fun heq => hapart.2 a c d rfl (by rw [heq])
      exact (Function.update_of_ne hne.symm _ _).trans hread
    | alloc b d =>
      have hne : b ≠ a := by
        intro heq
        subst heq
        have hnone : σ b = none := hy
        rw [hread] at hnone
        cases hnone
      exact (Function.update_of_ne hne.symm _ _).trans hread
  | alloc a c =>
    have hnone : σ a = none := hx
    have hnot : a ∉ y.addr := hapart.1 a c rfl
    have hyok : y.Ok σ := by
      cases y with
      | read b d =>
        have hne : b ≠ a := fun heq => hnot (by rw [heq]; rfl)
        have hread : Function.update σ a (some c) b = some d := hy
        rwa [Function.update_of_ne hne] at hread
      | write b d =>
        have hne : b ≠ a := fun heq => hnot (by rw [heq]; rfl)
        obtain ⟨d', hd', hkind⟩ := hy
        have hwrite : Function.update σ a (some c) b = some d' := hd'
        rw [Function.update_of_ne hne] at hwrite
        exact ⟨d', hwrite, hkind⟩
      | alloc b d =>
        have hne : b ≠ a := fun heq => hnot (by rw [heq]; rfl)
        have hfree : Function.update σ a (some c) b = none := hy
        rwa [Function.update_of_ne hne] at hfree
      | emit e => trivial
    have hcomm : y.run ((Act.alloc a c : Act C E).run σ) = (Act.alloc a c : Act C E).run (y.run σ) := by
      cases y with
      | read b d => rfl
      | emit e => rfl
      | write b d =>
        have hne : b ≠ a := fun heq => hnot (by rw [heq]; rfl)
        exact Function.update_comm hne.symm _ _ _
      | alloc b d =>
        have hne : b ≠ a := fun heq => hnot (by rw [heq]; rfl)
        exact Function.update_comm hne.symm _ _ _
    refine ⟨⟨hyok, ?_, ?_⟩, hcomm⟩
    · exact (run_other fun b hb heq => hnot (by rw [← heq]; exact hb)).trans hnone
    · rw [← hcomm]
      exact hrest
  | write a c => exact absurd hq id
  | emit e => exact absurd hq id

theorem ok_front (hq : Quiet P) (hapart : ∀ x ∈ P, Apart x y) (hok : Ok σ (P ++ y :: xs)) :
    Ok σ (y :: (P ++ xs)) ∧ after σ (P ++ [y]) = after σ (y :: P) := by
  induction P generalizing σ with
  | nil => exact ⟨hok, rfl⟩
  | cons x P ih =>
    obtain ⟨hrest, hafter⟩ := ih (fun z hz => hq z (List.mem_cons_of_mem _ hz))
      (fun z hz => hapart z (List.mem_cons_of_mem _ hz)) hok.2
    have hswap := ok_swap (hq x List.mem_cons_self) (hapart x List.mem_cons_self)
      (show Ok σ (x :: y :: (P ++ xs)) from ⟨hok.1, hrest⟩)
    refine ⟨hswap.1, ?_⟩
    calc after σ (x :: P ++ [y]) = after (x.run σ) (P ++ [y]) := rfl
      _ = after (y.run (x.run σ)) P := hafter
      _ = after (x.run (y.run σ)) P := by rw [hswap.2]

/-- Actions that only read and allocate can be done later. -/
theorem ok_later (hq : Quiet P) (hapart : ∀ x ∈ P, ∀ y ∈ B, Apart x y) (hok : Ok σ (P ++ B)) :
    Ok σ (B ++ P) ∧ after σ (B ++ P) = after σ (P ++ B) := by
  induction B generalizing σ with
  | nil => simpa using hok
  | cons y B ih =>
    obtain ⟨hrest, hafter⟩ := ok_front hq (fun x hx => hapart x hx y List.mem_cons_self) hok
    obtain ⟨hok', hafter'⟩ := ih (fun x hx z hz => hapart x hx z (List.mem_cons_of_mem _ hz)) hrest.2
    refine ⟨⟨hrest.1, hok'⟩, ?_⟩
    calc after σ (y :: B ++ P) = after (y.run σ) (P ++ B) := hafter'
      _ = after (after σ (y :: P)) B := after_append
      _ = after (after σ (P ++ [y])) B := by rw [hafter]
      _ = after σ (P ++ y :: B) := by rw [← after_append, List.append_assoc, List.singleton_append]

end

/-! ### What a program can reach -/

section
variable {σ : Store C} {xs ys : List (Act C E)} {D D' W : Set ℕ}

/-- Given what the program knows, it only names cells that it knows. -/
def Act.Safe (D : Set ℕ) : Act C E → Prop
  | read a _ => a ∈ D
  | write a c => a ∈ D ∧ ptrs E c ⊆ D
  | alloc _ c => ptrs E c ⊆ D
  | emit e => sent C e ⊆ D

def Act.known (D : Set ℕ) : Act C E → Set ℕ
  | read _ c => D ∪ ptrs E c
  | write _ _ => D
  | alloc a _ => insert a D
  | emit e => D ∪ got C e

def Safe (D : Set ℕ) : List (Act C E) → Prop
  | [] => True
  | x :: xs => x.Safe D ∧ Safe (x.known D) xs

def known (D : Set ℕ) : List (Act C E) → Set ℕ
  | [] => D
  | x :: xs => known (x.known D) xs

/-- The outside takes in no cells but those it has or was handed before. -/
def Honest (W : Set ℕ) : List (Act C E) → Prop
  | [] => True
  | .emit e :: xs => got C e ⊆ W ∪ sent C e ∧ Honest (W ∪ sent C e) xs
  | _ :: xs => Honest W xs

/-- The cells that the outside has in the end. -/
def handed (W : Set ℕ) : List (Act C E) → Set ℕ
  | [] => W
  | .emit e :: xs => handed (W ∪ sent C e) xs
  | _ :: xs => handed W xs

theorem safe_append : Safe D (xs ++ ys) ↔ Safe D xs ∧ Safe (known D xs) ys := by
  induction xs generalizing D with
  | nil => simp [Safe, known]
  | cons x xs ih => simp only [List.cons_append, Safe, known, ih, and_assoc]

theorem known_append : known D (xs ++ ys) = known (known D xs) ys := by
  induction xs generalizing D with
  | nil => rfl
  | cons x xs ih => exact ih

theorem honest_append : Honest W (xs ++ ys) ↔ Honest W xs ∧ Honest (handed W xs) ys := by
  induction xs generalizing W with
  | nil => simp [Honest, handed]
  | cons x xs ih => cases x <;> simp only [List.cons_append, Honest, handed, ih, and_assoc]

theorem handed_append : handed W (xs ++ ys) = handed (handed W xs) ys := by
  induction xs generalizing W with
  | nil => rfl
  | cons x xs ih => cases x <;> exact ih

theorem Act.known_mono {x : Act C E} (h : D ⊆ D') : x.known D ⊆ x.known D' := by
  cases x with
  | read a c => exact Set.union_subset_union_left _ h
  | write a c => exact h
  | alloc a c => exact Set.insert_subset_insert h
  | emit e => exact Set.union_subset_union_left _ h

theorem Act.le_known {x : Act C E} : D ⊆ x.known D := by
  cases x with
  | read a c => exact Set.subset_union_left
  | write a c => exact subset_rfl
  | alloc a c => exact Set.subset_insert a D
  | emit e => exact Set.subset_union_left

theorem le_known : D ⊆ known D xs := by
  induction xs generalizing D with
  | nil => exact subset_rfl
  | cons x xs ih => exact Act.le_known.trans ih

theorem le_known_append : D ⊆ known (known D xs) ys := le_known.trans le_known

theorem known_mono (h : D ⊆ D') : known D xs ⊆ known D' xs := by
  induction xs generalizing D D' with
  | nil => exact h
  | cons x xs ih => exact ih (Act.known_mono h)

theorem Act.safe_mono {x : Act C E} (h : D ⊆ D') (hs : x.Safe D) : x.Safe D' := by
  cases x with
  | read a c => exact h hs
  | write a c => exact ⟨h hs.1, hs.2.trans h⟩
  | alloc a c => exact hs.trans h
  | emit e => exact hs.trans h

theorem safe_mono (h : D ⊆ D') (hs : Safe D xs) : Safe D' xs := by
  induction xs generalizing D D' with
  | nil => trivial
  | cons x xs ih => exact ⟨Act.safe_mono h hs.1, ih (Act.known_mono h) hs.2⟩

/-- The cells of a set point to cells of the set only. -/
def Closed (σ : Store C) (D : Set ℕ) : Prop := ∀ a ∈ D, ∀ c, σ a = some c → ptrs E c ⊆ D

/-- A program that starts with a closed set of cells stays in it and in what it
allocates. -/
theorem confined (hok : Ok σ xs) (hsafe : Safe D xs) (hhonest : Honest W xs) (hW : W ⊆ D)
    (hclosed : Closed (E := E) σ D) :
    (∀ x ∈ xs, ∀ a ∈ x.addr, a ∈ D ∪ allocs xs) ∧ known D xs ⊆ D ∪ allocs xs ∧
      Closed (E := E) (after σ xs) (D ∪ allocs xs) ∧ handed W xs ⊆ D ∪ allocs xs := by
  induction xs generalizing σ D W with
  | nil =>
    have hnil : D ⊆ D ∪ allocs ([] : List (Act C E)) := Set.subset_union_left
    refine ⟨?_, hnil, ?_, hW.trans hnil⟩
    · intro x hx
      cases hx
    · intro a ha c hc
      cases ha with
      | inl ha => exact (hclosed a ha c hc).trans hnil
      | inr ha =>
        obtain ⟨c', hc'⟩ := ha
        cases hc'
  | cons x xs ih =>
    -- all that follows holds of one set, with what the first action makes known
    have hnext : ∀ D₁ W₁ : Set ℕ, D₁ ⊆ D ∪ allocs [x] → x.known D ⊆ D₁ → Honest W₁ xs → W₁ ⊆ D₁ →
        Closed (E := E) (x.run σ) D₁ → handed W₁ xs = handed W (x :: xs) → (∀ a ∈ x.addr, a ∈ D₁) →
        (∀ y ∈ x :: xs, ∀ a ∈ y.addr, a ∈ D ∪ allocs (x :: xs)) ∧
          known D (x :: xs) ⊆ D ∪ allocs (x :: xs) ∧
          Closed (E := E) (after σ (x :: xs)) (D ∪ allocs (x :: xs)) ∧
          handed W (x :: xs) ⊆ D ∪ allocs (x :: xs) := by
      intro D₁ W₁ hle hknown hhon hW₁ hcl hhanded haddr
      obtain ⟨haddrs, hk, hc, hh⟩ := ih hok.2 (safe_mono hknown hsafe.2) hhon hW₁ hcl
      have happ : allocs ([x] ++ xs) = allocs [x] ∪ allocs xs := allocs_append
      have hset : D₁ ∪ allocs xs ⊆ D ∪ allocs (x :: xs) := by
        rw [← List.singleton_append, happ, ← Set.union_assoc]
        exact Set.union_subset_union_left _ hle
      have hset' : D ∪ allocs (x :: xs) ⊆ D₁ ∪ allocs xs := by
        rw [← List.singleton_append, happ, ← Set.union_assoc]
        refine Set.union_subset_union_left _ (Set.union_subset (Act.le_known.trans hknown) ?_)
        intro a ha
        obtain ⟨c, hc⟩ := ha
        rw [← List.mem_singleton.1 hc] at haddr
        exact haddr a rfl
      refine ⟨?_, (known_mono hknown).trans (hk.trans hset), ?_, hhanded ▸ hh.trans hset⟩
      · intro y hy a ha
        cases List.mem_cons.1 hy with
        | inl heq => exact hset (Or.inl (haddr a (heq ▸ ha)))
        | inr hmem => exact hset (haddrs y hmem a ha)
      · intro a ha c hc'
        exact (hc a (hset' ha) c hc').trans hset
    cases x with
    | read a c =>
      have ha : a ∈ D := hsafe.1
      have hread : σ a = some c := hok.1
      refine hnext D W Set.subset_union_left ?_ hhonest hW hclosed rfl fun b hb => ?_
      · exact Set.union_subset subset_rfl (hclosed a ha c hread)
      · cases hb
        exact ha
    | write a c =>
      obtain ⟨ha, hptrs⟩ := hsafe.1
      refine hnext D W Set.subset_union_left subset_rfl hhonest hW ?_ rfl fun b hb => ?_
      · intro b hb d hd
        by_cases hba : b = a
        · subst hba
          rw [show (Act.write b c : Act C E).run σ b = some c from Function.update_self _ _ _] at hd
          cases hd
          exact hptrs
        · rw [show (Act.write a c : Act C E).run σ b = σ b from Function.update_of_ne hba _ _] at hd
          exact hclosed b hb d hd
      · cases hb
        exact ha
    | alloc a c =>
      have hptrs : ptrs E c ⊆ D := hsafe.1
      refine hnext (insert a D) W ?_ subset_rfl hhonest (hW.trans (Set.subset_insert a D)) ?_ rfl fun b hb => ?_
      · exact Set.insert_subset (Or.inr ⟨c, List.mem_singleton_self _⟩) Set.subset_union_left
      · intro b hb d hd
        by_cases hba : b = a
        · subst hba
          rw [show (Act.alloc b c : Act C E).run σ b = some c from Function.update_self _ _ _] at hd
          cases hd
          exact hptrs.trans (Set.subset_insert b D)
        · rw [show (Act.alloc a c : Act C E).run σ b = σ b from Function.update_of_ne hba _ _] at hd
          have hbD : b ∈ D := (Set.mem_insert_iff.1 hb).resolve_left hba
          exact (hclosed b hbD d hd).trans (Set.subset_insert a D)
      · cases hb
        exact Set.mem_insert a D
    | emit e =>
      have hsent : sent C e ⊆ D := hsafe.1
      have hW' : W ∪ sent C e ⊆ D := Set.union_subset hW hsent
      refine hnext D (W ∪ sent C e) Set.subset_union_left ?_ hhonest.2 hW' hclosed rfl fun b hb => ?_
      · exact Set.union_subset subset_rfl (hhonest.1.trans hW')
      · cases hb

end

end Jhc.Lib.Memory

/-!
# Traces that read again

A trace that reads some cells again right after they were read does the same. What holds
of the cells of a store, and of each cell that is written if it held of those read
before, holds of all cells that are read.
-/

namespace Jhc.Lib.Memory
variable {C E K : Type} [Layout C E K]

inductive Rereads : List (Act C E) → List (Act C E) → Prop where
  | nil : Rereads [] []
  | cons {x xs ys} (h : Rereads xs ys) : Rereads (x :: xs) (x :: ys)
  | again {a c xs ys} (h : Rereads (.read a c :: xs) ys) : Rereads (.read a c :: xs) (.read a c :: ys)

section
variable {xs xs' ys ys' : List (Act C E)} {σ : Store C} {a : ℕ} {c : C}

omit [Layout C E K] in
theorem rereads_refl : Rereads xs xs := by
  induction xs with
  | nil => exact .nil
  | cons x xs ih => exact .cons ih

omit [Layout C E K] in
theorem rereads_append (h : Rereads xs ys) (h' : Rereads xs' ys') : Rereads (xs ++ xs') (ys ++ ys') := by
  induction h with
  | nil => exact h'
  | cons _ ih => exact .cons ih
  | again _ ih => exact .again ih

omit [Layout C E K] in
theorem rereads_replicate (n : ℕ) : Rereads [Act.read (E := E) a c] (List.replicate (n + 1) (.read a c)) := by
  induction n with
  | zero => exact rereads_refl
  | succ n ih => exact .again ih

theorem rereads_ok (h : Rereads xs ys) : Ok σ ys ↔ Ok σ xs := by
  induction h generalizing σ with
  | nil => rfl
  | cons _ ih => simp only [Ok, ih]
  | @again a c xs ys _ ih =>
    have hread : Ok σ (Act.read a c :: ys) ↔ σ a = some c ∧ Ok σ ys := Iff.rfl
    rw [hread, ih]
    exact ⟨fun h => h.2, fun h => ⟨h.1, h⟩⟩

omit [Layout C E K] in
theorem rereads_after (h : Rereads xs ys) : after σ ys = after σ xs := by
  induction h generalizing σ with
  | nil => rfl
  | cons _ ih => exact ih
  | again _ ih => exact ih

omit [Layout C E K] in
theorem rereads_events (h : Rereads xs ys) : events ys = events xs := by
  induction h with
  | nil => rfl
  | @cons x xs ys _ ih => cases x <;> simp [events, ih]
  | again _ ih => exact ih

/-- If the cells that were read before have the property, each cell that is written has. -/
def Trusts (Q : C → Prop) : List (Act C E) → Prop
  | [] => True
  | .read _ c :: xs => Q c → Trusts Q xs
  | .write _ c :: xs => Q c ∧ Trusts Q xs
  | .alloc _ c :: xs => Q c ∧ Trusts Q xs
  | .emit _ :: xs => Trusts Q xs

variable {Q : C → Prop}

omit [Layout C E K] in
theorem trusts_append (h : Trusts Q xs) (h' : Trusts Q ys) : Trusts Q (xs ++ ys) := by
  induction xs with
  | nil => exact h'
  | cons x xs ih =>
    cases x with
    | read a c => exact fun hc => ih (h hc)
    | write a c => exact ⟨h.1, ih h.2⟩
    | alloc a c => exact ⟨h.1, ih h.2⟩
    | emit e => exact ih h

/-- All cells that a possible trace reads have the property. -/
theorem trusts_reads (h : Trusts Q xs) (hok : Ok σ xs) (hσ : ∀ a c, σ a = some c → Q c) :
    ∀ a c, .read a c ∈ xs → Q c := by
  have hupdate : ∀ (σ : Store C) b d, (∀ a c, σ a = some c → Q c) → Q d →
      ∀ a c, Function.update σ b (some d) a = some c → Q c := by
    intro σ b d hσ hd a c hac
    by_cases hab : a = b
    · subst hab
      rw [Function.update_self] at hac
      cases hac
      exact hd
    · rw [Function.update_of_ne hab] at hac
      exact hσ a c hac
  induction xs generalizing σ with
  | nil => exact fun a c h => absurd h List.not_mem_nil
  | cons x xs ih =>
    intro a c hmem
    cases x with
    | read b d =>
      have hd : Q d := hσ b d hok.1
      rcases List.mem_cons.1 hmem with heq | hmem
      · cases heq
        exact hd
      · exact ih (h hd) hok.2 hσ a c hmem
    | write b d =>
      exact ih h.2 hok.2 (hupdate σ b d hσ h.1) a c ((List.mem_cons.1 hmem).resolve_left nofun)
    | alloc b d =>
      exact ih h.2 hok.2 (hupdate σ b d hσ h.1) a c ((List.mem_cons.1 hmem).resolve_left nofun)
    | emit e => exact ih h hok.2 hσ a c ((List.mem_cons.1 hmem).resolve_left nofun)

end

end Jhc.Lib.Memory

import Mathlib.Logic.Basic

/-!
# Results of functions that fail or run out of fuel

`Ensures r P F O` says that a result satisfies `P`, that a failure implies `F` and
that a lack of fuel implies `O`. One statement so covers what a loop returns, when
it fails and how much fuel it needs. `Avoids` is the weaker statement for any type
of errors: some of them do not occur.
-/

namespace Jhc.Lib

/-- A failure, or a recursion that has not ended within the fuel. -/
inductive Stop where
  | fail
  | outOfFuel
  deriving DecidableEq

def Ensures {α : Type} (r : Except Stop α) (P : α → Prop) (F O : Prop) : Prop :=
  match r with
  | .ok a => P a
  | .error .fail => F
  | .error .outOfFuel => O

namespace Ensures

variable {α β : Type} {F O : Prop}

theorem mono {r : Except Stop α} {P Q : α → Prop} {F' O' : Prop} (h : Ensures r P F O)
    (hP : ∀ a, P a → Q a) (hF : F → F') (hO : O → O') : Ensures r Q F' O' := by
  match r with
  | .ok a => exact hP a h
  | .error .fail => exact hF h
  | .error .outOfFuel => exact hO h

theorem bind {r : Except Stop α} {f : α → Except Stop β} {P : α → Prop} {Q : β → Prop}
    (h : Ensures r P F O) (hf : ∀ a, P a → Ensures (f a) Q F O) : Ensures (r >>= f) Q F O := by
  match r with
  | .ok a => exact hf a h
  | .error .fail => exact h
  | .error .outOfFuel => exact h

/-- The rule for a loop over a list; the invariant sees what is left of the list. -/
theorem foldlM {f : α → β → Except Stop α} (I : List β → α → Prop)
    (hf : ∀ x xs a, I (x :: xs) a → Ensures (f a x) (I xs) F O) {xs : List β} {a : α}
    (h : I xs a) : Ensures (xs.foldlM f a) (I []) F O := by
  induction xs generalizing a with
  | nil => exact h
  | cons x xs ih =>
    rw [List.foldlM_cons]
    exact bind (hf x xs a h) fun b hb => ih hb

theorem ok {r : Except Stop α} {P : α → Prop} (h : Ensures r P F O) {a : α} (hr : r = .ok a) : P a := by
  subst hr
  exact h

theorem returns {r : Except Stop α} {P : α → Prop} (h : Ensures r P False False) :
    ∃ a, r = .ok a ∧ P a := by
  match r with
  | .ok a => exact ⟨a, rfl, h⟩
  | .error .fail => exact absurd h not_false
  | .error .outOfFuel => exact absurd h not_false

end Ensures

/-- A result that satisfies `P`, or an error that is not one of `bad`. -/
def Avoids {ε α : Type} (bad : ε → Prop) (r : Except ε α) (P : α → Prop) : Prop :=
  match r with
  | .ok a => P a
  | .error e => ¬ bad e

namespace Avoids

variable {ε α β : Type} {bad : ε → Prop}

theorem mono {r : Except ε α} {P Q : α → Prop} (h : Avoids bad r P) (hP : ∀ a, P a → Q a) :
    Avoids bad r Q := by
  match r with
  | .ok a => exact hP a h
  | .error _ => exact h

theorem bind {r : Except ε α} {f : α → Except ε β} {P : α → Prop} {Q : β → Prop}
    (h : Avoids bad r P) (hf : ∀ a, P a → Avoids bad (f a) Q) : Avoids bad (r >>= f) Q := by
  match r with
  | .ok a => exact hf a h
  | .error _ => exact h

/-- The rule for a loop over a list; the invariant sees what is left of the list. -/
theorem foldlM {f : α → β → Except ε α} (I : List β → α → Prop)
    (hf : ∀ x xs a, I (x :: xs) a → Avoids bad (f a x) (I xs)) {xs : List β} {a : α}
    (h : I xs a) : Avoids bad (xs.foldlM f a) (I []) := by
  induction xs generalizing a with
  | nil => exact h
  | cons x xs ih =>
    rw [List.foldlM_cons]
    exact bind (hf x xs a h) fun b hb => ih hb

/-- Every error is avoided that is not the result. -/
theorem of_ne {r : Except ε α} {P : α → Prop} {e : ε} (h : Avoids (fun _ => False) r P)
    (hne : r ≠ .error e) : Avoids (· = e) r P := by
  match r with
  | .ok a => exact h
  | .error e' => exact fun heq => hne (by rw [heq])

theorem anyError {r : Except ε α} {P : α → Prop} (h : Avoids bad r P) :
    Avoids (fun _ => False) r P := by
  match r with
  | .ok a => exact h
  | .error _ => exact not_false

theorem not_bad {r : Except ε α} {P : α → Prop} (h : Avoids bad r P) {e : ε} (he : bad e) :
    r ≠ .error e := by
  rintro rfl
  exact h he

end Avoids

end Jhc.Lib

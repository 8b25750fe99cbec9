import Mathlib.Logic.Function.Basic
import Mathlib.Order.Lattice
import Jhc.Fixer.Fixable

/-!
# The fixpoint solver (src/Fixer/Fixer.hs:80-256)

Values, rules and the loop of `findFixpoint`. The values of one solver are over
lattices of any kind `k`; `L k` is the lattice. A value is its unique number,
with its `IORef`s in the `Fixer`.
-/

namespace Jhc.Fixpoint
open Fixable

variable {κ : Type} {L : κ → Type}

/-! ### Data -/

/-- The `IO ()` actions that the rules are made of. -/
inductive Act (L : κ → Type) : Type where
  | done
  | fail
  | andThen (a b : Act L)
  | propagate (k : κ) (p : L k) (rv : ℕ)
  | onChange (k : κ) (rv : ℕ) (act : L k → Act L)

/-- `ioValue` stands for an action that finds an existing value. -/
inductive Value (α : Type) : Type where
  | ioValue (v : Value α)
  | unionValue (a b : Value α)
  | constValue (x : α)
  | iv (rv : ℕ)

/-- The references of a solver and of its values; `todo` is in the order of the
unique numbers. Values that are not made yet have the references of a new one. -/
structure Fixer (L : κ → Type) where
  vars : List (κ × ℕ)
  action : ∀ k, ℕ → List (L k → Act L)
  pending : ∀ k, ℕ → L k
  current : ∀ k, ℕ → L k
  todo : List (κ × ℕ)

section Refs

variable [DecidableEq κ] {β : κ → Type}

/-- `writeIORef` of the reference of one value. -/
def writeRef (f : ∀ k, ℕ → β k) (k : κ) (rv : ℕ) (x : β k) : ∀ k, ℕ → β k :=
  Function.update f k (Function.update (f k) rv x)

theorem writeRef_self (f : ∀ k, ℕ → β k) (k : κ) (rv : ℕ) (x : β k) : writeRef f k rv x k rv = x := by
  unfold writeRef
  rw [Function.update_self, Function.update_self]

theorem writeRef_ne (f : ∀ k, ℕ → β k) {k k' : κ} {rv rv' : ℕ} (x : β k)
    (h : (k', rv') ≠ (k, rv)) : writeRef f k rv x k' rv' = f k' rv' := by
  unfold writeRef
  by_cases hk : k' = k
  · subst hk
    have hrv : rv' ≠ rv := fun heq => h (heq ▸ rfl)
    rw [Function.update_self, Function.update_of_ne hrv]
  · rw [Function.update_of_ne hk]

def setInsert (v : κ × ℕ) : List (κ × ℕ) → List (κ × ℕ)
  | [] => [v]
  | w :: ws =>
    if v = w then v :: ws
    else if v.2 < w.2 then v :: w :: ws
    else w :: setInsert v ws

theorem mem_setInsert {v x : κ × ℕ} {ws : List (κ × ℕ)} : x ∈ setInsert v ws ↔ x = v ∨ x ∈ ws := by
  induction ws with
  | nil => simp [setInsert]
  | cons w ws ih =>
    unfold setInsert
    split_ifs with heq hlt
    · subst heq
      simp
    · simp
    · rw [List.mem_cons, ih, List.mem_cons, or_left_comm]

end Refs

/-! ### Rules (Fixer.hs:108-111, 155-206) -/

def addAction {k : κ} : Value (L k) → (L k → Act L) → Act L
  | .constValue n, act => act n
  | .unionValue a b, act => .andThen (addAction a act) (addAction b act)
  | .ioValue v, act => addAction v act
  | .iv rv, act => .onChange k rv act

def modifiedSuperSetOf {k j : κ} [Fixable (L j)] : Value (L j) → Value (L k) → (L k → L j) → Act L
  | .iv rv, .constValue cv, r => .propagate j (r cv) rv
  | .iv rv, v2, r => addAction v2 fun x => .propagate j (r x) rv
  | .ioValue iov, v2, r => modifiedSuperSetOf iov v2 r
  | .constValue vb, .constValue va, f => if lte (f va) vb then .done else .fail
  | .constValue _, _, _ => .fail
  | .unionValue .., _, _ => .fail

def isSuperSetOf {k : κ} [Fixable (L k)] : Value (L k) → Value (L k) → Act L
  | .iv rv, .constValue v2 => .propagate k v2 rv
  | .iv rv, v2 => addAction v2 fun x => .propagate k x rv
  | .ioValue iov, v2 => isSuperSetOf iov v2
  | .constValue v1, .constValue v2 => if lte v2 v1 then .done else .fail
  | .constValue _, _ => .fail
  | .unionValue .., _ => .fail

def conditionalRule {k : κ} (cond : L k → Bool) (v : Value (L k)) (act : Act L) : Act L :=
  addAction v fun x => if cond x then act else .done

def dynamicRule {k : κ} (v : Value (L k)) (dr : L k → Act L) : Act L := addAction v dr

/-- A rule as it is put together from the functions above. -/
inductive Rule (L : κ → Type) : Type where
  | isSuperSetOf (k : κ) (dst src : Value (L k))
  | modifiedSuperSetOf (k j : κ) (dst : Value (L j)) (src : Value (L k)) (r : L k → L j)
  | conditionalRule (k : κ) (cond : L k → Bool) (v : Value (L k)) (rule : Rule L)
  | dynamicRule (k : κ) (v : Value (L k)) (dr : L k → Rule L)
  | mempty
  | mappend (a b : Rule L)

def Rule.unRule [∀ k, Fixable (L k)] : Rule L → Act L
  | .isSuperSetOf _ dst src => Fixpoint.isSuperSetOf dst src
  | .modifiedSuperSetOf _ _ dst src r => Fixpoint.modifiedSuperSetOf dst src r
  | .conditionalRule _ cond v rule => Fixpoint.conditionalRule cond v rule.unRule
  | .dynamicRule _ v dr => Fixpoint.dynamicRule v fun x => (dr x).unRule
  | .mempty => .done
  | .mappend a b => .andThen a.unRule b.unRule

/-! ### Running (Fixer.hs:81-84, 135-146, 161-166, 181-186, 218-256) -/

variable [DecidableEq κ] [∀ k, Fixable (L k)]

def newFixer (L : κ → Type) [∀ k, Fixable (L k)] : Fixer L where
  vars := []
  action _ _ := []
  pending _ _ := bottom
  current _ _ := bottom
  todo := []

def propagateValue (k : κ) (p : L k) (rv : ℕ) (s : Fixer L) : Fixer L :=
  if isBottom p then s
  else
    { s with
      todo := setInsert (k, rv) s.todo
      pending := writeRef s.pending k rv (lub p (s.pending k rv)) }

def newValue (k : κ) (v : L k) (s : Fixer L) : ℕ × Fixer L :=
  let rv := s.vars.length
  (rv, propagateValue k v rv { s with vars := (k, rv) :: s.vars })

/-- `none` is an exception. -/
def Act.run : Act L → Fixer L → Option (Fixer L)
  | .done, s => some s
  | .fail, _ => none
  | .andThen a b, s => (a.run s).bind b.run
  | .propagate k p rv, s => some (propagateValue k p rv s)
  | .onChange k rv act, s =>
    let s := { s with action := writeRef s.action k rv (act :: s.action k rv) }
    if isBottom (s.current k rv) then some s else (act (s.current k rv)).run s

def addRule (r : Rule L) (s : Fixer L) : Option (Fixer L) := r.unRule.run s

/-- `mapM_ ($ diff) as` -/
def runActions (acts : List (Act L)) (s : Fixer L) : Option (Fixer L) :=
  acts.foldlM (fun s act => act.run s) s

/-- The loop `f` of `findFixpoint`, where `none` is also a lack of fuel. -/
def fixLoop : ℕ → List (κ × ℕ) → ℤ → ℕ → Fixer L → Option (Fixer L)
  | 0, _, _, _, _ => none
  | fuel + 1, [], tl, n, s =>
    if n > 0 ∧ tl ≠ 0 then fixLoop fuel s.todo (tl - 1) 0 { s with todo := [] } else some s
  | fuel + 1, (k, rv) :: vs, tl, n, s =>
    let p := s.pending k rv
    let c := s.current k rv
    let diff := minus p c
    if lte p c then fixLoop fuel vs tl n s
    else do
      let acts := (s.action k rv).map fun act => act diff
      let s ← runActions acts
        { s with
          current := writeRef s.current k rv (lub p c)
          pending := writeRef s.pending k rv bottom }
      fixLoop fuel vs tl (n + 1) s

def findFixpoint (fuel : ℕ) (s : Fixer L) : Option (Fixer L) :=
  if s.todo = [] then some s else fixLoop fuel s.todo (-1) 0 s

/-- `readRawValue` where the values are `val`. -/
def Value.read {k : κ} (val : ∀ k, ℕ → L k) : Value (L k) → L k
  | .ioValue v => v.read val
  | .unionValue a b => lub (a.read val) (b.read val)
  | .constValue x => x
  | .iv rv => val k rv

/-! ### What a rule asks for -/

/-- The rule holds when the values are `val`. -/
def Rule.Holds (val : ∀ k, ℕ → L k) : Rule L → Prop
  | .isSuperSetOf _ dst src => lte (src.read val) (dst.read val) = true
  | .modifiedSuperSetOf _ _ dst src r => lte (r (src.read val)) (dst.read val) = true
  | .conditionalRule _ cond v rule => cond (v.read val) = true → rule.Holds val
  | .dynamicRule _ v dr => (dr (v.read val)).Holds val
  | .mempty => True
  | .mappend a b => a.Holds val ∧ b.Holds val

/-- An action on such a value runs on the whole of it, once. -/
def Value.isConst {α : Type} : Value α → Bool
  | .ioValue v => v.isConst
  | .unionValue .. => false
  | .constValue _ => true
  | .iv _ => false

attribute [local grind =] Act.run fixLoop

end Jhc.Fixpoint

import Mathlib.Order.Hom.Basic

/-!
# Lazy lists by what is known of them

A lazy list is an ascending sequence of finite lists whose ends may be unknown. An end that stays
unknown is where the list diverges.
-/

namespace Jhc.Lib

inductive PartialList (α : Type) where
  | bot
  | nil
  | cons (a : α) (l : PartialList α)

namespace PartialList

variable {α β γ : Type}

/-- The second list is at least as well known. -/
inductive Le : PartialList α → PartialList α → Prop where
  | bot (l : PartialList α) : Le .bot l
  | nil : Le .nil .nil
  | cons (a : α) {l l' : PartialList α} (h : Le l l') : Le (.cons a l) (.cons a l')

theorem le_rfl' (l : PartialList α) : Le l l := by
  induction l with
  | bot => exact .bot _
  | nil => exact .nil
  | cons a l ih => exact .cons a ih

theorem Le.trans {l₁ l₂ l₃ : PartialList α} (h : Le l₁ l₂) (h' : Le l₂ l₃) : Le l₁ l₃ := by
  induction h generalizing l₃ with
  | bot l => exact .bot _
  | nil => exact h'
  | cons a h ih =>
    cases h' with
    | cons _ h' => exact .cons a (ih h')

theorem Le.antisymm {l₁ l₂ : PartialList α} (h : Le l₁ l₂) (h' : Le l₂ l₁) : l₁ = l₂ := by
  induction h with
  | bot l =>
    cases h' with
    | bot => rfl
  | nil => rfl
  | cons a h ih =>
    cases h' with
    | cons _ h' => rw [ih h']

instance : PartialOrder (PartialList α) where
  le := Le
  le_refl := le_rfl'
  le_trans _ _ _ := Le.trans
  le_antisymm _ _ := Le.antisymm

/-! ### Operations -/

def append : PartialList α → PartialList α → PartialList α
  | .bot, _ => .bot
  | .nil, r => r
  | .cons a l, r => .cons a (append l r)

def bind : PartialList α → (α → PartialList β) → PartialList β
  | .bot, _ => .bot
  | .nil, _ => .nil
  | .cons a l, k => append (k a) (bind l k)

def map (f : α → β) : PartialList α → PartialList β
  | .bot => .bot
  | .nil => .nil
  | .cons a l => .cons (f a) (map f l)

/-- A condition that diverges ends what is known. -/
def filter (c : α → Option Bool) : PartialList α → PartialList α
  | .bot => .bot
  | .nil => .nil
  | .cons a l =>
    match c a with
    | none => .bot
    | some true => .cons a (filter c l)
    | some false => filter c l

def ofList : List α → PartialList α
  | [] => .nil
  | a :: as => .cons a (ofList as)

/-- The list of one element. -/
def single (a : α) : PartialList α := .cons a .nil

attribute [local grind =] bind map

theorem append_mono {p p' r r' : PartialList α} (h : p ≤ p') (hr : r ≤ r') :
    append p r ≤ append p' r' := by
  induction h with
  | bot l => exact .bot _
  | nil => exact hr
  | cons a h ih => exact .cons a ih

theorem bind_mono {l l' : PartialList α} {k k' : α → PartialList β} (h : l ≤ l')
    (hk : ∀ a, k a ≤ k' a) : bind l k ≤ bind l' k' := by
  induction h with
  | bot l => exact .bot _
  | nil => exact .nil
  | cons a h ih => exact append_mono (hk a) ih

theorem map_eq_bind (f : α → β) (l : PartialList α) : map f l = bind l fun a => single (f a) := by
  induction l with
  | bot => rfl
  | nil => rfl
  | cons a l ih => exact congrArg (cons (f a)) ih

theorem map_id (l : PartialList α) : map (fun a => a) l = l := by
  induction l with
  | bot => rfl
  | nil => rfl
  | cons a l ih => exact congrArg (cons a) ih

theorem filter_eq_bind (c : α → Option Bool) (l : PartialList α) :
    filter c l = bind l fun a => ((c a).map fun b => bif b then single a else .nil).getD .bot := by
  induction l with
  | bot => rfl
  | nil => rfl
  | cons a l ih =>
    rw [filter,bind,← ih]
    cases c a with
    | none => rfl
    | some b =>
      cases b with
      | true => rfl
      | false => rfl

/-! ### Ends -/

/-- The end is known. -/
def Total : PartialList α → Prop
  | .bot => False
  | .nil => True
  | .cons _ l => l.Total

theorem append_of_not_total {p : PartialList α} (h : ¬p.Total) (r : PartialList α) :
    append p r = p := by
  induction p with
  | bot => rfl
  | nil => exact (h trivial).elim
  | cons a p ih => exact congrArg (cons a) (ih h)

theorem Total.eq_of_le {p q : PartialList α} (h : p.Total) (hle : p ≤ q) : p = q := by
  induction hle with
  | bot l => exact h.elim
  | nil => rfl
  | cons a _ ih => exact congrArg (cons a) (ih h)

theorem Total.le_of_append_le {p r s : PartialList α} (h : p.Total)
    (hle : append p r ≤ append p s) : r ≤ s := by
  induction p with
  | bot => exact h.elim
  | nil => exact hle
  | cons a p ih =>
    cases hle with
    | cons _ hle => exact ih h hle

/-- Where the lists part, the first is not known or goes on with an element and the second is not
known. -/
inductive Prolongs : PartialList α → PartialList α → Prop where
  | bot (q : PartialList α) : Prolongs .bot q
  | nil : Prolongs .nil .nil
  | cons (a : α) {p q : PartialList α} (h : Prolongs p q) : Prolongs (.cons a p) (.cons a q)
  | past (a : α) (p : PartialList α) : Prolongs (.cons a p) .bot

theorem prolongs_of_le {p q : PartialList α} (h : p ≤ q) : Prolongs p q := by
  induction h with
  | bot l => exact .bot _
  | nil => exact .nil
  | cons a h ih => exact .cons a ih

theorem prolongs_append {p q r s : PartialList α} (h : Prolongs p q) (h' : Prolongs r s) :
    Prolongs (append p r) (append q s) := by
  induction h with
  | bot q => exact .bot _
  | nil => exact h'
  | cons a _ ih => exact .cons a ih
  | past a p => exact .past a _

theorem prolongs_bind {l l' : PartialList α} {k k' : α → PartialList β} (h : l ≤ l')
    (hk : ∀ a, Prolongs (k a) (k' a)) : Prolongs (bind l k) (bind l' k') := by
  induction h with
  | bot l => exact .bot _
  | nil => exact .nil
  | cons a _ ih => exact prolongs_append (hk a) ih

theorem Prolongs.le_of_append_le {p q r s : PartialList α} (h : Prolongs p q)
    (hle : append p r ≤ append q s) : p ≤ q := by
  induction h with
  | bot q => exact .bot _
  | nil => exact .nil
  | cons a _ ih =>
    cases hle with
    | cons _ hle => exact .cons a (ih hle)
  | past a p => cases hle

/-! ### Elements that are reached -/

/-- `P` holds of every element up to one whose list in `k` has no known end. -/
def ForReached (P : α → Prop) (k : α → PartialList β) : PartialList α → Prop
  | .bot => True
  | .nil => True
  | .cons a l => P a ∧ ((k a).Total → ForReached P k l)

theorem bind_eq_of_reached {P : α → Prop} {k k' : α → PartialList β} (hP : ∀ a, P a → k a = k' a)
    {l : PartialList α} (h : ForReached P k' l) : bind l k = bind l k' := by
  induction l with
  | bot => rfl
  | nil => rfl
  | cons a l ih =>
    rw [bind,bind,hP a h.1]
    by_cases ht : (k' a).Total
    · rw [ih (h.2 ht)]
    · rw [append_of_not_total ht,append_of_not_total ht]

/-- Lists that are the same after every element have the same elements up to every element. -/
theorem reached_of_bind_le {P : α → Prop} {k k' k'' : α → PartialList β}
    (hP : ∀ a, P a → k a = k' a) (hk : ∀ a, k' a ≤ k'' a) (hp : ∀ a, Prolongs (k a) (k'' a))
    (hle : ∀ a, k a ≤ k'' a → P a) {l l' : PartialList α} (h : l ≤ l')
    (hb : bind l k ≤ bind l' k'') : ForReached P k' l := by
  induction h with
  | bot l => trivial
  | nil => trivial
  | cons a h ih =>
    have ha : P a := hle a ((hp a).le_of_append_le hb)
    refine ⟨ha, fun ht => ih ?_⟩
    rw [bind,bind,hP a ha,← ht.eq_of_le (hk a)] at hb
    exact ht.le_of_append_le hb

theorem forReached_congr {P P' : α → Prop} {k : α → PartialList β} (hP : ∀ a, P a ↔ P' a)
    (l : PartialList α) : ForReached P k l ↔ ForReached P' k l := by
  induction l with
  | bot => exact Iff.rfl
  | nil => exact Iff.rfl
  | cons a l ih => exact and_congr (hP a) (imp_congr_right fun _ => ih)

end PartialList

/-! ### Lazy lists -/

/-- What is known of a list after some time. -/
abbrev Approximations (α : Type) := ℕ →o PartialList α

namespace Approximations

variable {α β : Type}

def const (p : PartialList α) : Approximations α := ⟨fun _ => p, fun _ _ _ => le_refl p⟩

def bind (l : Approximations α) (k : α → Approximations β) : Approximations β where
  toFun n := (l n).bind fun a => k a n
  monotone' _ _ h := PartialList.bind_mono (l.monotone h) fun a => (k a).monotone h

def map (f : α → β) (l : Approximations α) : Approximations β where
  toFun n := (l n).map f
  monotone' n m h := by
    change (l n).map f ≤ (l m).map f
    rw [PartialList.map_eq_bind,PartialList.map_eq_bind]
    exact PartialList.bind_mono (l.monotone h) fun a => le_refl _

def filter (c : α → Option Bool) (l : Approximations α) : Approximations α where
  toFun n := (l n).filter c
  monotone' n m h := by
    change (l n).filter c ≤ (l m).filter c
    rw [PartialList.filter_eq_bind,PartialList.filter_eq_bind]
    exact PartialList.bind_mono (l.monotone h) fun a => le_refl _

/-- The same list, at whatever pace. -/
def Same (l l' : Approximations α) : Prop := (∀ n, ∃ m, l n ≤ l' m) ∧ ∀ n, ∃ m, l' n ≤ l m

theorem same_of_eq {l l' : Approximations α} (h : ∀ n, l n = l' n) : Same l l' := by
  constructor
  · intro n
    exact ⟨n, le_of_eq (h n)⟩
  · intro n
    exact ⟨n, le_of_eq (h n).symm⟩

/-- What is known at one time is known at every later one. -/
theorem Same.later {l l' : Approximations α} (h : Same l l') (n : ℕ) : ∃ m, n ≤ m ∧ l n ≤ l' m := by
  obtain ⟨m, hm⟩ := h.1 n
  exact ⟨max n m, le_max_left n m, hm.trans (l'.monotone (le_max_right n m))⟩

theorem map_eq_bind (f : α → β) (l : Approximations α) :
    map f l = bind l fun a => const (.single (f a)) :=
  OrderHom.ext _ _ (funext fun n => PartialList.map_eq_bind f (l n))

theorem map_id (l : Approximations α) : map (fun a => a) l = l :=
  OrderHom.ext _ _ (funext fun n => PartialList.map_id (l n))

theorem filter_eq_bind (c : α → Option Bool) (l : Approximations α) :
    filter c l = bind l fun a => const (((c a).map fun b => bif b then .single a else .nil).getD .bot) :=
  OrderHom.ext _ _ (funext fun n => PartialList.filter_eq_bind c (l n))

end Approximations

end Jhc.Lib

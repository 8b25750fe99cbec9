import Mathlib.Data.List.Infix
import Jhc.Lib.OpResolve

/-!
# Reading with precedences

A reader of tokens with binary operators, prefix operators that bind tightest, and
parentheses. What waits is a stack; the comparison of two operators is the one of the
report (`order`).
-/

namespace Jhc.Lib.Reading
universe u v
variable {A : Type u} {O : Type v}

inductive Tree (A : Type u) (O : Type v) where
  | atom (a : A)
  | pre (p : O) (t : Tree A O)
  | fix (l : Tree A O) (o : O) (r : Tree A O)
  deriving DecidableEq

inductive Token (A : Type u) (O : Type v) where
  | atom (a : A)
  | op (o : O)
  | lparen
  | rparen
  deriving DecidableEq

/-- What waits for an operand. -/
inductive Frame (A : Type u) (O : Type v) where
  | binary (l : Tree A O) (o : O)
  | pre (p : O)
  | paren

/-- The prefix operators that wait take the operand. -/
def settle : List (Frame A O) → Tree A O → List (Frame A O) × Tree A O
  | .pre p :: st, t => settle st (.pre p t)
  | st, t => (st, t)

/-- All operators that wait take the operand. -/
def close : List (Frame A O) → Tree A O → List (Frame A O) × Tree A O
  | .binary l o :: st, t => close st (.fix l o t)
  | st, t => (st, t)

section
variable (info : O → OpInfo)

/-- The operators that wait and bind tighter than the one read take the operand. -/
def reduce (q : OpInfo) : List (Frame A O) → Tree A O → Option (List (Frame A O) × Tree A O)
  | .binary l o :: st, t =>
    match order (info o) q with
    | .illegal => none
    | .left => reduce q st (.fix l o t)
    | .right => some (.binary l o :: st, t)
  | st, t => some (st, t)

/-- The tree is what was read last, none where an operand is expected. -/
def run : Option (Tree A O) → List (Frame A O) → List (Token A O) → Option (Tree A O)
  | none, st, .atom a :: ts =>
    let (st, t) := settle st (.atom a)
    run (some t) st ts
  | none, st, .op p :: ts => run none (.pre p :: st) ts
  | none, st, .lparen :: ts => run none (.paren :: st) ts
  | some t, st, .op o :: ts =>
    match reduce info (info o) st t with
    | some (st, t) => run none (.binary t o :: st) ts
    | none => none
  | some t, st, .rparen :: ts =>
    match close st t with
    | (.paren :: st, t) =>
      let (st, t) := settle st t
      run (some t) st ts
    | _ => none
  | some t, st, [] =>
    match close st t with
    | ([], t) => some t
    | _ => none
  | _, _, _ => none

def read (ts : List (Token A O)) : Option (Tree A O) := run info none [] ts

/-! ### Texts that are read as one operand -/

/-- The tokens are read as the operand, whatever waits. -/
def ReadsAtom (t : Tree A O) (ts : List (Token A O)) : Prop :=
  ∀ st rest, run info none st (ts ++ rest) = run info (some (settle st t).2) (settle st t).1 rest

/-- What waits leaves the operands to the operator. -/
def Waits (q : OpInfo) : List (Frame A O) → Prop
  | .binary _ o :: _ => order (info o) q = .right
  | .pre _ :: _ => False
  | _ => True

/--
The tokens are read as the operand whose operator is `q` where what waits leaves it the operands:
then some operators of the text wait, and they take their operands when `q` does.
-/
def ReadsFix (q : OpInfo) (t : Tree A O) (ts : List (Token A O)) : Prop :=
  ∃ t' fr, (∀ st rest, Waits info q st → run info none st (ts ++ rest) = run info (some t') (fr ++ st) rest) ∧
    (∀ st, close (fr ++ st) t' = close st t) ∧
    ∀ q' st, order q q' = .left → reduce info q' (fr ++ st) t' = reduce info q' st t

attribute [local grind =] settle close run

end

section
variable {info : O → OpInfo} {q q' : OpInfo} {t l r : Tree A O} {ts us : List (Token A O)}
variable {st : List (Frame A O)}

theorem order_of_gt {p : OpInfo} (h : q.prec < p.prec) : order p q = .left := by
  rw [order, if_neg (by omega), if_pos (by omega)]

theorem order_of_lt {p : OpInfo} (h : p.prec < q.prec) : order p q = .right := by
  rw [order, if_neg (by omega), if_neg (by omega)]

theorem settle_of_waits (h : Waits info q st) (t : Tree A O) : settle st t = (st, t) := by
  cases st with
  | nil => rfl
  | cons fr st =>
    cases fr with
    | binary l o => rfl
    | pre p => exact h.elim
    | paren => rfl

theorem reduce_of_waits (h : Waits info q st) (t : Tree A O) : reduce info q st t = some (st, t) := by
  cases st with
  | nil => rfl
  | cons fr st =>
    cases fr with
    | binary l o =>
      have ho : order (info o) q = .right := h
      simp only [reduce, ho]
    | pre p => rfl
    | paren => rfl

theorem readsAtom_atom (a : A) : ReadsAtom info (.atom a) [.atom a] := fun _ _ => rfl

theorem readsAtom_pre (p : O) (h : ReadsAtom info t ts) : ReadsAtom info (.pre p t) (.op p :: ts) := by
  intro st rest
  have hpre := h (.pre p :: st) rest
  simpa only [List.cons_append, run, settle] using hpre

theorem readsAtom_paren (h : ReadsAtom info t ts) : ReadsAtom info t (.lparen :: ts ++ [.rparen]) := by
  intro st rest
  have hin := h (.paren :: st) (.rparen :: rest)
  simp only [settle] at hin
  simp only [List.cons_append, List.append_assoc, List.nil_append, run, hin, close]

theorem readsAtom_paren_fix (h : ReadsFix info q t ts) : ReadsAtom info t (.lparen :: ts ++ [.rparen]) := by
  obtain ⟨t', fr, hrun, hclose, -⟩ := h
  intro st rest
  have hin := hrun (.paren :: st) (.rparen :: rest) trivial
  simp only [List.cons_append, List.append_assoc, List.nil_append, run, hin, hclose, close]

/-! ### An operator between two operands -/

/-- The text of the left operand ends before the operator takes it. -/
def EndsAt (info : O → OpInfo) (q : OpInfo) (t : Tree A O) (ts : List (Token A O)) : Prop :=
  ∀ st o rest, info o = q → Waits info q st →
    run info none st (ts ++ .op o :: rest) = run info none (.binary t o :: st) rest

theorem ReadsAtom.endsAt (h : ReadsAtom info t ts) : EndsAt info q t ts := by
  intro st o rest ho hw
  have hsettle := settle_of_waits hw t
  have hreduce := reduce_of_waits hw t
  simp only [h st, hsettle, run, ho, hreduce]

theorem ReadsFix.endsAt (h : ReadsFix info q t ts) (hleft : order q q' = .left)
    (hwaits : ∀ st : List (Frame A O), Waits info q' st → Waits info q st) : EndsAt info q' t ts := by
  obtain ⟨t', fr, hrun, -, hreduce⟩ := h
  intro st o rest ho hw
  have hst := reduce_of_waits hw t
  rw [hrun st _ (hwaits st hw)]
  simp only [run, ho, hreduce q' st hleft, hst]

theorem readsFix_atom {o : O} (hl : EndsAt info (info o) l ts) (hr : ReadsAtom info r us) :
    ReadsFix info (info o) (.fix l o r) (ts ++ .op o :: us) := by
  refine ⟨r, [.binary l o], ?_, fun st => rfl, ?_⟩
  · intro st rest hw
    have hrest := hl st o (us ++ rest) rfl hw
    have hread := hr (.binary l o :: st) rest
    simpa only [List.append_assoc, List.cons_append, List.nil_append, hrest, settle] using hread
  · intro q' st hq
    simp only [List.cons_append, List.nil_append, reduce, hq]

theorem readsFix_fix {o : O} (hl : EndsAt info (info o) l ts) (hr : ReadsFix info q r us)
    (hright : order (info o) q = .right) (htrans : ∀ q', order (info o) q' = .left → order q q' = .left) :
    ReadsFix info (info o) (.fix l o r) (ts ++ .op o :: us) := by
  obtain ⟨t', fr, hrun, hclose, hreduce⟩ := hr
  refine ⟨t', fr ++ [.binary l o], ?_, ?_, ?_⟩
  · intro st rest hw
    have hrest := hl st o (us ++ rest) rfl hw
    have hread := hrun (.binary l o :: st) rest hright
    simpa only [List.append_assoc, List.cons_append, List.nil_append, hrest] using hread
  · intro st
    simp only [List.append_assoc, List.cons_append, List.nil_append, hclose, close]
  · intro q' st hq
    have hin := hreduce q' (.binary l o :: st) (htrans q' hq)
    simp only [List.append_assoc, List.cons_append, List.nil_append, hin, reduce, hq]

theorem read_of_readsAtom (h : ReadsAtom info t ts) : read info ts = some t := by
  have hrun := h [] []
  simpa only [List.append_nil, read, settle, run, close] using hrun

theorem read_of_readsFix (h : ReadsFix info q t ts) : read info ts = some t := by
  obtain ⟨t', fr, hrun, hclose, -⟩ := h
  have hread := hrun [] [] trivial
  have hend := hclose []
  simp only [List.append_nil] at hread hend
  simp only [read, hread, run, hend, close]

end

end Jhc.Lib.Reading

/-!
# Unparsing (src/Support/Unparse.hs:5-66)

A tree is written with the parentheses that the summaries of its operands ask for.
-/

namespace Jhc.Unparsing
open Jhc.Lib hiding Token
open Jhc.Lib.Reading
universe u v

inductive Side where
  | R
  | L
  | N
  deriving DecidableEq, Repr

inductive Unparse (α : Type u) where
  | Atom (a : α)
  | Pre (s : α) (up : Unparse α)
  | Fix (a : Unparse α) (op : α) (b : Unparse α) (s : Side) (i : ℤ)
  | Atomized (up : Unparse α)
  | Fixitized (s : Side) (i : ℤ) (up : Unparse α)

section
variable {α : Type u}

def atom (s : α) : Unparse α := .Atom s

def pop (s : α) (up : Unparse α) : Unparse α := .Pre s up

def bop (f : Side × ℤ) (op : α) (a b : Unparse α) : Unparse α := .Fix a op b f.1 f.2

structure Unparsable (α : Type u) where
  unparseGroup : α → α
  unparseCat : α → α → α

inductive Fix where
  | FAtom
  | FPre
  | FFix (s : Side) (i : ℤ)
  deriving DecidableEq, Repr

/-- Whether an operand with the summary needs no parentheses on the side of the operator. -/
def lts : Side → Side × ℤ → Fix → Bool
  | _, _, .FAtom => true
  | _, _, .FPre => true
  | d, (s, n'), .FFix s' n =>
    if n' ≠ n then decide (n' < n)
    else match d, s, s' with
      | .R, .R, .R => true
      | .L, .L, .L => true
      | _, _, _ => false

section
variable (up : Unparsable α)

def mkatom : α × Fix → α × Fix
  | (a, .FAtom) => (a, .FAtom)
  | (a, _) => (up.unparseGroup a, .FAtom)

def sop (op a b : α) : α := up.unparseCat a (up.unparseCat op b)

attribute [local grind =] lts

theorem mkatom_snd (x : α × Fix) : (mkatom up x).2 = .FAtom := by
  obtain ⟨a, _ | _ | _⟩ := x <;> rfl

theorem lts_FAtom (d : Side) (f : Side × ℤ) : lts d f .FAtom = true := rfl

/-- The local `bop`; the last case is its call of `error`. -/
def bopFix (f : Side × ℤ) (s : α) (x y : α × Fix) : Option (α × Fix) :=
  if x.2 = .FAtom ∧ y.2 = .FAtom then some (sop up s x.1 y.1, .FFix f.1 f.2)
  else if lts .L f x.2 && lts .R f y.2 then some (sop up s x.1 y.1, .FFix f.1 f.2)
  else if _h : lts .L f x.2 = false then bopFix f s (mkatom up x) y
  else if _h : lts .R f y.2 = false then bopFix f s x (mkatom up y)
  else none
  termination_by (if lts .L f x.2 then 0 else 1) + (if lts .R f y.2 then 0 else 1)
  decreasing_by all_goals simp_all [mkatom_snd, lts_FAtom]

/-- The local `pop`. -/
def popFix (s : α) : α × Fix → α × Fix
  | (x, .FAtom) => (up.unparseCat s x, .FPre)
  | x => (up.unparseCat s (mkatom up x).1, .FPre)

/-- The local `f`. -/
def f : Unparse α → Option (α × Fix)
  | .Atom a => some (a, .FAtom)
  | .Atomized a => do
    let x ← f a
    some (x.1, .FAtom)
  | .Fixitized s i a => do
    let x ← f a
    some (x.1, .FFix s i)
  | .Pre a t => do
    let x ← f t
    some (popFix up a x)
  | .Fix a op b s i => do
    let x ← f a
    let y ← f b
    bopFix up (s, i) op x y

def unparse' (t : Unparse α) : Option α := (f up t).map Prod.fst

/-- An operand as the operator takes it. -/
def operand (d : Side) (f : Side × ℤ) (x : α × Fix) : α × Fix :=
  if lts d f x.2 then x else mkatom up x

attribute [local grind =] f

theorem bopFix_eq (g : Side × ℤ) (s : α) (x y : α × Fix) :
    bopFix up g s x y = some (sop up s (operand up .L g x).1 (operand up .R g y).1, .FFix g.1 g.2) := by
  fun_induction bopFix up g s x y with
  | case1 x y h => simp only [operand, h, lts_FAtom, if_true]
  | case2 x y h hlts =>
    rw [Bool.and_eq_true] at hlts
    simp only [operand, hlts, if_true]
  | case3 x y h hlts hl ih =>
    rw [ih]
    simp only [operand, hl, mkatom_snd, lts_FAtom, if_true, Bool.false_eq_true, if_false]
  | case4 x y h hlts hl hr ih =>
    rw [ih]
    simp only [operand, hr, mkatom_snd, lts_FAtom, if_true, Bool.false_eq_true, if_false]
  | case5 x y h hlts hl hr =>
    simp only [Bool.not_eq_false] at hl hr
    simp [hl, hr] at hlts

end

end

/-! ### Tokens with parentheses -/

section
variable {A : Type u} {O : Type v}

def tokenDoc : Unparsable (List (Token A O)) where
  unparseGroup ts := .lparen :: ts ++ [.rparen]
  unparseCat ts us := ts ++ us

/-- The tree of atoms, prefix operators and binary operators, where each operator has one fixity. -/
def build (fixity : O → Side × ℤ) : Tree A O → Unparse (List (Token A O))
  | .atom a => atom [.atom a]
  | .pre p t => pop [.op p] (build fixity t)
  | .fix l o r => bop (fixity o) [.op o] (build fixity l) (build fixity r)

def Side.assoc : Side → Assoc
  | .R => .rightfix
  | .L => .leftfix
  | .N => .nonfix

def opInfo (g : Side × ℤ) : OpInfo := ⟨g.2, g.1.assoc⟩

theorem lts_left {g : Side × ℤ} (g' : Side × ℤ) (h : lts .L g (.FFix g'.1 g'.2) = true) :
    order (opInfo g') (opInfo g) = .left ∧ ∀ p, order p (opInfo g) = .right → order p (opInfo g') = .right := by
  obtain ⟨s, i⟩ := g
  obtain ⟨s', i'⟩ := g'
  by_cases hi : i = i'
  · subst hi
    cases s <;> cases s' <;> simp [lts] at h
    exact ⟨by simp [order, opInfo, Side.assoc], fun p hp => hp⟩
  · have hlt : i < i' := by simpa [lts, hi] using h
    refine ⟨order_of_gt hlt, fun p hp => order_of_lt ?_⟩
    rcases order_right hp with hp | ⟨hp, -⟩ <;> simp only [opInfo] at hp ⊢ <;> omega

theorem lts_right {g : Side × ℤ} (g' : Side × ℤ) (h : lts .R g (.FFix g'.1 g'.2) = true) :
    order (opInfo g) (opInfo g') = .right ∧ ∀ q, order (opInfo g) q = .left → order (opInfo g') q = .left := by
  obtain ⟨s, i⟩ := g
  obtain ⟨s', i'⟩ := g'
  by_cases hi : i = i'
  · subst hi
    cases s <;> cases s' <;> simp [lts] at h
    exact ⟨by simp [order, opInfo, Side.assoc], fun q hq => hq⟩
  · have hlt : i < i' := by simpa [lts, hi] using h
    refine ⟨order_of_lt hlt, fun q hq => order_of_gt ?_⟩
    rcases order_left hq with hq | ⟨hq, -⟩ <;> simp only [opInfo] at hq ⊢ <;> omega

/-- What the summary says of the text of the tree. -/
def Summarizes (info : O → OpInfo) (t : Tree A O) (x : List (Token A O) × Fix) : Prop :=
  match x.2 with
  | .FFix s i => ReadsFix info (opInfo (s, i)) t x.1
  | _ => ReadsAtom info t x.1

section
variable {info : O → OpInfo} {t l r : Tree A O} {x y : List (Token A O) × Fix}

theorem Summarizes.mkatom (h : Summarizes info t x) : ReadsAtom info t (mkatom tokenDoc x).1 := by
  obtain ⟨ts, _ | _ | ⟨s, i⟩⟩ := x
  · exact h
  · exact readsAtom_paren h
  · exact readsAtom_paren_fix h

theorem Summarizes.popFix {p : O} (h : Summarizes info t x) :
    Summarizes info (.pre p t) (popFix tokenDoc [.op p] x) := by
  have hatom := readsAtom_pre p h.mkatom
  obtain ⟨ts, _ | _ | ⟨s, i⟩⟩ := x
  · exact hatom
  · exact hatom
  · exact hatom

theorem Summarizes.endsAt {g : Side × ℤ} (h : Summarizes info l x) :
    EndsAt info (opInfo g) l (operand tokenDoc .L g x).1 := by
  by_cases hlts : lts .L g x.2 = true
  · rw [operand, if_pos hlts]
    obtain ⟨ts, _ | _ | ⟨s, i⟩⟩ := x
    · exact ReadsAtom.endsAt h
    · exact ReadsAtom.endsAt h
    · obtain ⟨hleft, hright⟩ := lts_left (s, i) hlts
      refine ReadsFix.endsAt h hleft fun st hst => ?_
      cases st with
      | nil => trivial
      | cons fr st =>
        cases fr with
        | binary t o => exact hright _ hst
        | pre p => exact hst
        | paren => trivial
  · rw [operand, if_neg hlts]
    exact ReadsAtom.endsAt h.mkatom

theorem Summarizes.fix {o : O} {g : Side × ℤ} (hinfo : info o = opInfo g) (hl : Summarizes info l x)
    (hr : Summarizes info r y) :
    Summarizes info (.fix l o r)
      (sop tokenDoc [.op o] (operand tokenDoc .L g x).1 (operand tokenDoc .R g y).1, .FFix g.1 g.2) := by
  have hends : EndsAt info (info o) l (operand tokenDoc .L g x).1 := by
    rw [hinfo]
    exact hl.endsAt
  change ReadsFix info (opInfo g) _ _
  rw [← hinfo]
  by_cases hlts : lts .R g y.2 = true
  · rw [show operand tokenDoc .R g y = y from if_pos hlts]
    obtain ⟨us, _ | _ | ⟨s, i⟩⟩ := y
    · exact readsFix_atom hends hr
    · exact readsFix_atom hends hr
    · obtain ⟨hright, htrans⟩ := lts_right (s, i) hlts
      rw [← hinfo] at hright htrans
      exact readsFix_fix hends hr hright htrans
  · rw [show operand tokenDoc .R g y = Jhc.Unparsing.mkatom tokenDoc y from if_neg hlts]
    exact readsFix_atom hends hr.mkatom

end

/-! ### Parentheses around atoms -/

section
variable {ts us p : List (Token A O)} {o : O}

theorem prefix_of_notMem (h : .op o ∉ p) (hp : p <+: ts ++ .op o :: us) : p <+: ts := by
  induction ts generalizing p with
  | nil =>
    cases p with
    | nil => exact List.nil_prefix
    | cons x p =>
      rw [List.nil_append, List.cons_prefix_cons] at hp
      simp [hp.1] at h
  | cons t ts ih =>
    cases p with
    | nil => exact List.nil_prefix
    | cons x p =>
      rw [List.cons_append, List.cons_prefix_cons] at hp
      exact List.cons_prefix_cons.2 ⟨hp.1, ih (fun hmem => h (List.mem_cons_of_mem _ hmem)) hp.2⟩

theorem suffix_of_notMem (h : .op o ∉ p) (hp : p <:+ ts ++ .op o :: us) : p <:+ us := by
  rw [← List.reverse_prefix] at hp ⊢
  rw [List.reverse_append, List.reverse_cons, List.append_assoc] at hp
  exact prefix_of_notMem (by simpa using h) hp

theorem infix_of_notMem (h : .op o ∉ p) (hp : p <:+: ts ++ .op o :: us) : p <:+: ts ∨ p <:+: us := by
  rcases List.infix_append_iff.1 hp with hp | hp | ⟨l₁, l₂, rfl, hl₁, hl₂⟩
  · exact .inl hp
  · rcases List.infix_cons_iff.1 hp with hp | hp
    · have hnil : p <+: [] := prefix_of_notMem h hp
      exact .inl (hnil.trans List.nil_prefix).isInfix
    · exact .inr hp
  · have hnil : l₂ <+: [] := prefix_of_notMem (fun hmem => h (List.mem_append_right _ hmem)) hl₂
    rw [List.prefix_nil.1 hnil, List.append_nil]
    exact .inl hl₁.isInfix

/-- No pair of parentheses is around an atom, nor is half of one. -/
structure Clean (ts : List (Token A O)) : Prop where
  inside : ∀ a, ¬ [.lparen, .atom a, .rparen] <:+: ts
  start : ∀ a, ¬ [.atom a, .rparen] <+: ts
  finish : ∀ a, ¬ [.lparen, .atom a] <:+ ts

theorem clean_atom (a : A) : Clean ([.atom a] : List (Token A O)) where
  inside b h := absurd h.length_le (by simp)
  start b h := absurd h.length_le (by simp)
  finish b h := absurd h.length_le (by simp)

theorem Clean.op (hts : Clean ts) (hus : Clean us) : Clean (ts ++ .op o :: us) where
  inside a h := (infix_of_notMem (by simp) h).elim (hts.inside a) (hus.inside a)
  start a h := hts.start a (prefix_of_notMem (by simp) h)
  finish a h := hus.finish a (suffix_of_notMem (by simp) h)

theorem Clean.paren (h : Clean ts) (hne : ∀ a, ts ≠ [.atom a]) : Clean (.lparen :: ts ++ [.rparen]) where
  inside a hin := by
    rcases List.infix_concat_iff.1 hin with hsuf | hin
    · obtain hnil | ⟨l, hl, hsuf⟩ := List.suffix_concat_iff.1 hsuf
      · cases hnil
      · have hl' : l = [.lparen, .atom a] := List.append_cancel_right (show l ++ [.rparen] = [.lparen, .atom a] ++ [.rparen] from hl.symm)
        subst hl'
        rcases List.suffix_cons_iff.1 hsuf with heq | hsuf
        · injection heq with _ hts
          exact hne a hts.symm
        · exact h.finish a hsuf
    · rcases List.infix_cons_iff.1 hin with hpre | hin
      · exact h.start a (List.cons_prefix_cons.1 hpre).2
      · exact h.inside a hin
  start a hpre := by
    rw [List.cons_append, List.cons_prefix_cons] at hpre
    cases hpre.1
  finish a hsuf := by
    obtain hnil | ⟨l, hl, -⟩ := List.suffix_concat_iff.1 hsuf
    · cases hnil
    · have hlast := congrArg List.getLast? hl
      simp at hlast

end

/-- What holds of the text of every tree and of its summary. -/
structure Written (info : O → OpInfo) (t : Tree A O) (x : List (Token A O) × Fix) : Prop where
  summary : Summarizes info t x
  clean : Clean x.1
  compound : x.2 ≠ .FAtom → ∀ a, x.1 ≠ [.atom a]

section
variable {info : O → OpInfo} {t l r : Tree A O} {x y : List (Token A O) × Fix}

theorem Written.clean_mkatom (h : Written info t x) : Clean (mkatom tokenDoc x).1 := by
  obtain ⟨ts, _ | _ | ⟨s, i⟩⟩ := x
  · exact h.clean
  · exact h.clean.paren (h.compound (by simp))
  · exact h.clean.paren (h.compound (by simp))

theorem Written.clean_operand {d : Side} {g : Side × ℤ} (h : Written info t x) :
    Clean (operand tokenDoc d g x).1 := by
  rw [operand]
  split
  · exact h.clean
  · exact h.clean_mkatom

theorem Written.popFix {p : O} (h : Written info t x) : Written info (.pre p t) (popFix tokenDoc [.op p] x) where
  summary := h.summary.popFix
  clean := by
    have hclean : Clean ([] ++ .op p :: (mkatom tokenDoc x).1) := Clean.op ⟨by simp, by simp, by simp⟩ h.clean_mkatom
    obtain ⟨ts, _ | _ | ⟨s, i⟩⟩ := x <;> exact hclean
  compound _ a := by obtain ⟨ts, _ | _ | ⟨s, i⟩⟩ := x <;> simp [Unparsing.popFix, tokenDoc]

theorem Written.fix {o : O} {g : Side × ℤ} (hinfo : info o = opInfo g) (hl : Written info l x) (hr : Written info r y) :
    Written info (.fix l o r)
      (sop tokenDoc [.op o] (operand tokenDoc .L g x).1 (operand tokenDoc .R g y).1, .FFix g.1 g.2) where
  summary := hl.summary.fix hinfo hr.summary
  clean := hl.clean_operand.op hr.clean_operand
  compound _ a h := by
    have hmem : Reading.Token.op o ∈ [Reading.Token.atom a] := h ▸ List.mem_append_right _ List.mem_cons_self
    simp at hmem

end

theorem written_build (fixity : O → Side × ℤ) (t : Tree A O) :
    ∃ x, f tokenDoc (build fixity t) = some x ∧ Written (fun o => opInfo (fixity o)) t x := by
  induction t with
  | atom a => exact ⟨([.atom a], .FAtom), rfl, readsAtom_atom a, clean_atom a, fun h => absurd rfl h⟩
  | pre p t ih =>
    obtain ⟨x, hx, h⟩ := ih
    exact ⟨_, by simp only [build, pop, f, hx, Option.bind_eq_bind, Option.bind_some], h.popFix⟩
  | fix l o r ihl ihr =>
    obtain ⟨x, hx, hl⟩ := ihl
    obtain ⟨y, hy, hr⟩ := ihr
    refine ⟨_, ?_, Written.fix rfl hl hr⟩
    simp only [build, bop, f, hx, hy, Option.bind_eq_bind, Option.bind_some, bopFix_eq]

/-- The text of a tree is read back as the tree, and no parentheses stand around an atom. -/
theorem unparse_reads (fixity : O → Side × ℤ) (t : Tree A O) :
    ∃ ts, unparse' tokenDoc (build fixity t) = some ts ∧ read (fun o => opInfo (fixity o)) ts = some t ∧
      ∀ a, ¬ [.lparen, .atom a, .rparen] <:+: ts := by
  obtain ⟨⟨ts, fx⟩, hx, h⟩ := written_build fixity t
  refine ⟨ts, by rw [unparse', hx]; rfl, ?_, h.clean.inside⟩
  cases fx with
  | FAtom => exact read_of_readsAtom h.summary
  | FPre => exact read_of_readsAtom h.summary
  | FFix s i => exact read_of_readsFix h.summary

/-- `(a - b) * -c` of operators `-` of the left and `*` that binds tighter -/
example :
    unparse' tokenDoc (build (fun o : Bool => if o then (.L, 7) else (.L, 6))
        (.fix (.fix (.atom 'a') false (.atom 'b')) true (.pre false (.atom 'c')))) =
      some [.lparen, .atom 'a', .op false, .atom 'b', .rparen, .op true, .op false, .atom 'c'] := by
  simp [build, bop, pop, atom, unparse', f, bopFix_eq, popFix, operand, lts, mkatom, sop, tokenDoc]

end

end Jhc.Unparsing

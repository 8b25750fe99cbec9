import Jhc.Lib.OpReject
import Jhc.FrontEnd.ShuntResolve

/-!
# What the precedence parser rejects

The parser fails on an operator at the end and on two nonassociative operators of one
precedence that meet on the stack. Everything else that the report rejects is read as
some tree.
-/

namespace Jhc.FrontEnd
open Jhc.Lib (OpInfo Reject resolveOr readWords applications)

section
variable {t e : Type} {α o : Type}

/-! ### Operators of a token list -/

/-- With its precedence each operator, an application between adjacent operands among them;
`true` where an operand is awaited, and there an operator is taken as a prefix. -/
def operators (info : o → OpInfo) : Bool → List (α ⊕ o) → List Prec
  | _, [] => []
  | true, .inl _ :: xs => operators info false xs
  | false, .inl _ :: xs => (.L, 10) :: operators info false xs
  | true, .inr op :: xs => (.Prefix, (info op).prec) :: operators info true xs
  | false, .inr op :: xs => opPrec (info op) :: operators info true xs

def awaitsOperand : Bool → List (α ⊕ o) → Bool
  | b, [] => b
  | _, .inl _ :: xs => awaitsOperand false xs
  | _, .inr _ :: xs => awaitsOperand true xs

/-- A nonassociative operator of precedence `n`, and what comes before it binds tighter. -/
def Meets (n : ℤ) : List Prec → Prop
  | [] => False
  | p :: ps => p = (.N, n) ∨ gt p (.N, n) = true ∧ Meets n ps

/-- Two nonassociative operators of one precedence, and what is between them binds tighter. -/
def NonfixClash : List Prec → Prop
  | [] => False
  | p :: ps => p.1 = .N ∧ Meets p.2 ps ∨ NonfixClash ps

attribute [local grind =] operators awaitsOperand Meets

theorem awaitsOperand_iff (b : Bool) (xs : List (α ⊕ o)) :
    awaitsOperand b xs = true ↔ (xs = [] ∧ b = true) ∨ ∃ op, xs.getLast? = some (.inr op) := by
  induction xs generalizing b with
  | nil => simp [awaitsOperand]
  | cons x xs ih =>
    have hlast : xs.getLast? = (x :: xs).getLast? ∨ xs = [] := by
      cases xs with
      | nil => exact .inr rfl
      | cons y ys => exact .inl (List.getLast?_cons_cons).symm
    rcases hlast with hlast | rfl
    · have hne : xs ≠ [] := by
        rintro rfl
        simp at hlast
      cases x with
      | inl x => simp [awaitsOperand, ih, ← hlast, hne]
      | inr op => simp [awaitsOperand, ih, ← hlast, hne]
    · cases x <;> simp [awaitsOperand]

/-! ### The operators on the stack -/

/-- The stack, its top first, meets the same operator again. -/
def Clashes : List Prec → List Prec → Prop
  | _, [] => False
  | st, p :: ps =>
    p.1 = .N ∧ (st.dropWhile (gt · p)).head? = some p ∨ Clashes (p :: st.dropWhile (gt · p)) ps

attribute [local grind =] Clashes

theorem gt_self (n : ℤ) : gt (.N, n) (.N, n) = false := by
  simp [gt]

theorem gt_trans {q p : Prec} {n : ℤ} (hqp : gt q p = true) (hp : gt p (.N, n) = true) : gt q (.N, n) = true := by
  obtain ⟨qf, q⟩ := q
  obtain ⟨pf, p⟩ := p
  cases pf <;> cases qf <;> simp [gt] at hqp hp ⊢ <;> omega

theorem not_gt {p : Prec} {n : ℤ} (hp : gt p (.N, n) = true) : gt (.N, n) p = false := by
  obtain ⟨pf, p⟩ := p
  cases pf <;> simp [gt] at hp ⊢ <;> omega

theorem head_dropWhile_iff (n : ℤ) (st : List Prec) :
    (st.dropWhile (gt · (.N, n))).head? = some (.N, n) ↔ Meets n st := by
  induction st with
  | nil => simp [Meets]
  | cons q st ih =>
    rw [List.dropWhile_cons, Meets]
    cases hq : gt q (.N, n) with
    | true =>
      have hne : q ≠ (.N, n) := by
        rintro rfl
        rw [gt_self] at hq
        cases hq
      simp [ih, hne]
    | false => simp

theorem meets_dropWhile {p : Prec} {n : ℤ} (hp : gt p (.N, n) = true) (st : List Prec) :
    Meets n (st.dropWhile (gt · p)) ↔ Meets n st := by
  induction st with
  | nil => rfl
  | cons q st ih =>
    rw [List.dropWhile_cons]
    cases hq : gt q p with
    | true =>
      have hne : q ≠ (.N, n) := by
        rintro rfl
        rw [not_gt hp] at hq
        cases hq
      simp [ih, Meets, hne, gt_trans hq hp]
    | false => simp

theorem clashes_iff (ps : List Prec) (st : List Prec) :
    Clashes st ps ↔ (∃ n, Meets n st ∧ Meets n ps) ∨ NonfixClash ps := by
  induction ps generalizing st with
  | nil => simp [Clashes, Meets, NonfixClash]
  | cons p ps ih =>
    rw [Clashes, ih, NonfixClash]
    constructor
    · rintro (⟨hN, hhead⟩ | ⟨n, hst | ⟨hgt, hst⟩, hps⟩ | hclash)
      · obtain ⟨fix, n⟩ := p
        obtain rfl : fix = .N := hN
        exact .inl ⟨n, (head_dropWhile_iff n st).1 hhead, .inl rfl⟩
      · subst hst
        exact .inr (.inl ⟨rfl, hps⟩)
      · exact .inl ⟨n, (meets_dropWhile hgt st).1 hst, .inr ⟨hgt, hps⟩⟩
      · exact .inr (.inr hclash)
    · rintro (⟨n, hst, rfl | ⟨hgt, hps⟩⟩ | ⟨hN, hps⟩ | hclash)
      · exact .inl ⟨rfl, (head_dropWhile_iff n st).2 hst⟩
      · exact .inr (.inl ⟨n, .inr ⟨hgt, (meets_dropWhile hgt st).2 hst⟩, hps⟩)
      · obtain ⟨fix, n⟩ := p
        obtain rfl : fix = .N := hN
        exact .inr (.inl ⟨n, .inl rfl, hps⟩)
      · exact .inr (.inr hclash)

/-! ### Runs of the parser -/

/-- The specification gives operands values and operators precedences; building a value
never fails, and the calls for input that is not in order do. -/
structure Reads (spec : ShuntSpec t e) (info : o → OpInfo) (token : α ⊕ o → t) : Prop where
  app_prec : spec.appPrec = (.L, 10)
  lookup_operand : ∀ x, ∃ v, spec.lookupToken (token (.inl x)) = pure (.inl v)
  lookup_op : ∀ op, spec.lookupToken (token (.inr op)) = pure (.inr (opPrec (info op)))
  lookup_unary : ∀ t, spec.lookupUnary t = pure none
  application_ok : ∀ f x, ∃ v, spec.application f x = pure v
  operator_ok : ∀ t as, ∃ v, spec.operator t as = pure v
  empty_fails : ∃ err, spec.emptyInput = .error err
  equal_fails : ∀ p ts, ∃ err, spec.equalFixity p ts = .error err

/-- There are as many operands as the operators on the stack need, or one less where an
operand is awaited; an application has read its operand and is on top. -/
structure Balanced (st : List (Option t × Prec)) (out : List e) (awaited : Bool) : Prop where
  app_prec : ∀ x ∈ st, x.1 = none → x.2 = (.L, 10)
  named : ∀ x ∈ (if awaited then st else st.tail), x.1 ≠ none
  operands : out.length = st.countP (fun x => decide (x.2.1 ≠ .Prefix)) + if awaited then 0 else 1

variable {spec : ShuntSpec t e} {info : o → OpInfo} {token : α ⊕ o → t}
variable {st : List (Option t × Prec)} {out : List e} {awaited : Bool}

theorem apop_one (h : Reads spec info token) {x : Option t × Prec} (happ : x.1 = none → x.2 = (.L, 10))
    (hfix : x.2.1 = .Prefix) (a : e) : ∃ v, apop spec x.1 [a] = pure v := by
  cases hx : x.1 with
  | none =>
    rw [happ hx] at hfix
    cases hfix
  | some t => exact h.operator_ok t [a]

theorem apop_two (h : Reads spec info token) (x : Option t) (a b : e) : ∃ v, apop spec x [a, b] = pure v := by
  cases x with
  | none => exact h.application_ok a b
  | some t => exact h.operator_ok t [a, b]

theorem mem_named_cons {x y : Option t × Prec} (h : y ∈ (if awaited then st else st.tail)) :
    y ∈ (if awaited then x :: st else (x :: st).tail) := by
  cases awaited with
  | true => exact List.mem_cons_of_mem _ h
  | false => exact List.mem_of_mem_tail h

theorem Balanced.tail_unary {x : Option t × Prec} {a v : e} (hfix : x.2.1 = .Prefix)
    (h : Balanced (x :: st) (a :: out) awaited) : Balanced st (v :: out) awaited := by
  refine ⟨fun y hy => h.app_prec y (List.mem_cons_of_mem _ hy), fun y hy => h.named y (mem_named_cons hy), ?_⟩
  have hlen := h.operands
  rw [List.countP_cons] at hlen
  simp only [hfix, ne_eq, not_true, decide_false, Bool.false_eq_true, if_false] at hlen
  exact hlen

theorem Balanced.tail_binary {x : Option t × Prec} {a b v : e} (hfix : x.2.1 ≠ .Prefix)
    (h : Balanced (x :: st) (a :: b :: out) awaited) : Balanced st (v :: out) awaited := by
  refine ⟨fun y hy => h.app_prec y (List.mem_cons_of_mem _ hy), fun y hy => h.named y (mem_named_cons hy), ?_⟩
  have hlen := h.operands
  rw [List.countP_cons] at hlen
  simp only [hfix, ne_eq, not_false_eq_true, decide_true, if_true, List.length_cons] at hlen ⊢
  omega

/-- The operator on top of the stack has its operands. -/
theorem Balanced.closes (h : Reads spec info token) {x : Option t × Prec} (hst : Balanced (x :: st) out awaited)
    (hout : 2 ≤ out.length ∨ x.2.1 = .Prefix ∧ 1 ≤ out.length) :
    ∃ as v out', out = as ++ out' ∧ Closes spec x as v ∧ Balanced st (v :: out') awaited := by
  by_cases hfix : x.2.1 = .Prefix
  · match out, hout with
    | a :: out, _ =>
      obtain ⟨v, hv⟩ := apop_one h (hst.app_prec x List.mem_cons_self) hfix a
      exact ⟨[a], v, out, rfl, .inl ⟨hfix, a, rfl, hv⟩, hst.tail_unary hfix⟩
    | [], hout => simp at hout
  · match out, hout with
    | a :: b :: out, _ =>
      obtain ⟨v, hv⟩ := apop_two h x.1 b a
      exact ⟨[a, b], v, out, rfl, .inr ⟨hfix, b, a, rfl, hv⟩, hst.tail_binary hfix⟩
    | [_], hout => exact absurd hout (by simp [hfix])
    | [], hout => simp at hout

theorem Balanced.enough {x : Option t × Prec} (hst : Balanced (x :: st) out false) :
    2 ≤ out.length ∨ x.2.1 = .Prefix ∧ 1 ≤ out.length := by
  have hlen := hst.operands
  rw [List.countP_cons] at hlen
  by_cases hfix : x.2.1 = .Prefix
  · exact .inr ⟨hfix, by simp only [Bool.false_eq_true, if_false] at hlen; omega⟩
  · simp only [hfix, ne_eq, not_false_eq_true, decide_true, if_true, Bool.false_eq_true, if_false] at hlen
    exact .inl (by omega)

theorem finish_ok (h : Reads spec info token) (hst : Balanced st out false) : ∃ v, finish spec st out = pure v := by
  induction st generalizing out with
  | nil =>
    obtain ⟨a, rfl⟩ := List.length_eq_one_iff.1 (by simpa using hst.operands)
    exact ⟨a, rfl⟩
  | cons x st ih =>
    obtain ⟨as, v, out', rfl, hc, hst'⟩ := hst.closes h hst.enough
    rw [finish_pop hc]
    exact ih hst'

/-- Where an operand is awaited the end fails, always or without any operand. -/
def EndFails (spec : ShuntSpec t e) (always : Prop) : Prop :=
  ∀ st out, Balanced st out true → ((∃ err, finish spec st out = .error err) ↔ always ∨ out = [])

theorem endFails_trailing (h : Reads spec info token) (htrailing : ∀ x t, ∃ err, spec.trailingOps x t = .error err) :
    EndFails spec True := by
  intro st out hst
  simp only [true_or, iff_true]
  induction st generalizing out with
  | nil =>
    obtain rfl : out = [] := List.length_eq_zero_iff.1 (by simpa using hst.operands)
    exact h.empty_fails
  | cons x st ih =>
    by_cases hout : 2 ≤ out.length ∨ x.2.1 = .Prefix ∧ 1 ≤ out.length
    · obtain ⟨as, v, out', rfl, hc, hst'⟩ := hst.closes h hout
      rw [finish_pop hc]
      exact ih _ hst'
    · match out, hout with
      | [], _ => exact ⟨.noCase, rfl⟩
      | [a], hout =>
        have hfix : x.2.1 ≠ .Prefix := fun hfix => hout (.inr ⟨hfix, Nat.le_refl _⟩)
        unfold finish
        rw [if_neg hfix]
        cases hx : x.1 with
        | none => exact ⟨_, rfl⟩
        | some t =>
          obtain ⟨err, herr⟩ := htrailing a t
          exact ⟨err, by simp only [herr]; rfl⟩
      | a :: b :: out, hout => exact absurd (.inl (Nat.le_add_left 2 _)) hout

/-- Trailing operators that are taken leave one operand for the rest of the stack. -/
theorem finish_taken (h : Reads spec info token) (htrailing : ∀ x t, ∃ v, spec.trailingOps x t = pure v)
    (hst : Balanced st out true) (hout : out ≠ []) : ∃ v, finish spec st out = pure v := by
  induction st generalizing out with
  | nil => exact absurd (List.length_eq_zero_iff.1 (by simpa using hst.operands)) hout
  | cons x st ih =>
    by_cases hlen : 2 ≤ out.length ∨ x.2.1 = .Prefix ∧ 1 ≤ out.length
    · obtain ⟨as, v, out', rfl, hc, hst'⟩ := hst.closes h hlen
      rw [finish_pop hc]
      exact ih hst' (List.cons_ne_nil _ _)
    · match out, hout, hlen with
      | [a], _, hlen =>
        have hfix : x.2.1 ≠ .Prefix := fun hfix => hlen (.inr ⟨hfix, Nat.le_refl _⟩)
        have hnamed := hst.named x List.mem_cons_self
        unfold finish
        rw [if_neg hfix]
        cases hx : x.1 with
        | none => exact absurd hx hnamed
        | some t =>
          obtain ⟨v, hv⟩ := htrailing a t
          simp only [hv, pure_bind]
          -- what is left on the stack are prefix operators
          show ∃ w, finish spec st [v] = pure w
          refine finish_ok h ⟨fun y hy => hst.app_prec y (List.mem_cons_of_mem _ hy), fun y hy => ?_, ?_⟩
          · exact hst.named y (List.mem_cons_of_mem _ (List.mem_of_mem_tail hy))
          · have hcount := hst.operands
            rw [List.countP_cons] at hcount
            simp only [hfix, ne_eq, not_false_eq_true, decide_true, if_true, List.length_singleton] at hcount
            simp only [List.length_singleton, Bool.false_eq_true, if_false]
            omega
      | a :: b :: out, _, hlen => exact absurd (.inl (Nat.le_add_left 2 _)) hlen

theorem finish_nothing (h : Reads spec info token) (st : List (Option t × Prec)) : ∃ err, finish spec st [] = .error err := by
  cases st with
  | nil => exact h.empty_fails
  | cons x st => exact ⟨.noCase, rfl⟩

theorem endFails_taken (h : Reads spec info token) (htrailing : ∀ x t, ∃ v, spec.trailingOps x t = pure v) :
    EndFails spec False := by
  intro st out hst
  rw [false_or]
  constructor
  · intro herr
    obtain ⟨err, herr⟩ := herr
    by_contra hout
    obtain ⟨v, hv⟩ := finish_taken h htrailing hst hout
    rw [hv] at herr
    cases herr
  · rintro rfl
    exact finish_nothing h st

/-! ### Steps -/

/-- An infix operator takes all that binds tighter off the stack, and fails on its like. -/
theorem op_binary (h : Reads spec info token) (tok : Option t) (p : Prec)
    (k : List (Option t × Prec) → List e → Except (Failure t) e) (hst : Balanced st out false) :
    (p.1 = .N ∧ ((st.map Prod.snd).dropWhile (gt · p)).head? = some p →
        ∃ err, op spec (tok, p) none k st out = .error err) ∧
      (¬ (p.1 = .N ∧ ((st.map Prod.snd).dropWhile (gt · p)).head? = some p) →
        ∃ st' out', st'.map Prod.snd = (st.map Prod.snd).dropWhile (gt · p) ∧ Balanced st' out' false ∧
          op spec (tok, p) none k st out = k ((tok, p) :: st') out') := by
  induction st generalizing out with
  | nil => exact ⟨fun h => by simp at h, fun _ => ⟨[], out, rfl, hst, rfl⟩⟩
  | cons x st ih =>
    obtain ⟨as, v, out', rfl, hc, hst'⟩ := hst.closes h hst.enough
    rw [List.map_cons, List.dropWhile_cons]
    cases hgt : gt x.2 p with
    | true =>
      rw [op_pop hc hgt, if_pos rfl]
      exact ih hst'
    | false =>
      simp only [Bool.false_eq_true, if_false, List.head?_cons, Option.some.injEq]
      constructor
      · rintro ⟨hN, hp⟩
        obtain ⟨err, herr⟩ := h.equal_fails p [x.1]
        refine ⟨err, ?_⟩
        rcases hc with ⟨hfix, -⟩ | ⟨hfix, a, b, rfl, -⟩
        · rw [hp, hN] at hfix
          cases hfix
        · rw [op.eq_def]
          have hN' : x.2.1 = .N ∧ x.2 = p := ⟨hp ▸ hN, hp⟩
          simp only [List.cons_append, List.nil_append, if_neg hfix, if_pos hN', herr]
      · intro hne
        refine ⟨x :: st, as ++ out', rfl, hst, op_push ?_⟩
        intro y hy
        cases hy
        exact ⟨hgt, fun hN (hp : x.2 = p) => hne ⟨hp ▸ hN, hp⟩⟩

theorem op_unary {tok : Option t} {n : ℤ} {k : List (Option t × Prec) → List e → Except (Failure t) e} :
    op spec (tok, (.Prefix, n)) none k st out = k ((tok, (.Prefix, n)) :: st) out := by
  refine op_push ?_
  rintro ⟨tok', fix, m⟩ _
  exact ⟨by simp [gt], by rintro rfl; simp⟩

/-- What an infix operator leaves on the stack are operators with a name. -/
theorem Balanced.named_of_drop {p : Prec} {ps : List Prec} (hst : Balanced st out false) (hgt : gt (.L, 10) p = true)
    (hdrop : st.map Prod.snd = ps.dropWhile (gt · p)) : ∀ x ∈ st, x.1 ≠ none := by
  intro x hx hnone
  cases st with
  | nil => cases hx
  | cons y st =>
    cases List.mem_cons.1 hx with
    | inl heq =>
      subst heq
      have hhead := List.head?_dropWhile_not (gt · p) ps
      rw [← hdrop, List.map_cons, List.head?_cons, hst.app_prec x List.mem_cons_self hnone] at hhead
      simp only [hgt] at hhead
      cases hhead
    | inr hmem => exact hst.named x hmem hnone

theorem countP_push {x : Option t × Prec} (hfix : x.2.1 ≠ .Prefix) (hst : Balanced st out false) :
    out.length = (x :: st).countP fun x => decide (x.2.1 ≠ .Prefix) := by
  have hlen := hst.operands
  rw [List.countP_cons]
  simp only [hfix, ne_eq, not_false_eq_true, decide_true, if_true, Bool.false_eq_true, if_false] at hlen ⊢
  omega

theorem Balanced.push_binary {tok : t} {p : Prec} (hfix : p.1 ≠ .Prefix) (hst : Balanced st out false)
    (hnamed : ∀ x ∈ st, x.1 ≠ none) : Balanced ((some tok, p) :: st) out true where
  app_prec y hy hnone := by
    rcases List.mem_cons.1 hy with rfl | hy
    · cases hnone
    · exact hst.app_prec y hy hnone
  named y hy := by
    rcases List.mem_cons.1 hy with rfl | hy
    · simp
    · exact hnamed y hy
  operands := countP_push hfix hst

/-- An application, with the operand that follows. -/
theorem Balanced.push_app (v : e) (hst : Balanced st out false) (hnamed : ∀ x ∈ st, x.1 ≠ none) :
    Balanced ((none, (.L, 10)) :: st) (v :: out) false where
  app_prec y hy hnone := by
    rcases List.mem_cons.1 hy with rfl | hy
    · rfl
    · exact hst.app_prec y hy hnone
  named := hnamed
  operands := by
    rw [List.length_cons, countP_push (x := (none, (.L, 10))) (by simp) hst]
    rfl

theorem Balanced.push_unary {tok : t} {n : ℤ} (hst : Balanced st out true) :
    Balanced ((some tok, (.Prefix, n)) :: st) out true where
  app_prec y hy hnone := by
    rcases List.mem_cons.1 hy with rfl | hy
    · cases hnone
    · exact hst.app_prec y hy hnone
  named y hy := by
    rcases List.mem_cons.1 hy with rfl | hy
    · simp
    · exact hst.named y hy
  operands := by
    rw [List.countP_cons, hst.operands]
    simp

theorem Balanced.read (hst : Balanced st out true) (v : e) : Balanced st (v :: out) false where
  app_prec := hst.app_prec
  named y hy := hst.named y (List.mem_of_mem_tail hy)
  operands := by
    rw [List.length_cons, hst.operands]
    simp

theorem Balanced.output_ne_nil (hst : Balanced st out false) : out ≠ [] := by
  rintro rfl
  have hlen := hst.operands
  simp at hlen

theorem opPrec_binary (i : OpInfo) : (opPrec i).1 ≠ .Prefix := by
  rw [opPrec]
  cases i.fix <;> simp [fixity]

theorem gt_app_op {i : OpInfo} (hprec : i.prec ≤ 9) : gt (.L, 10) (opPrec i) = true := by
  rw [opPrec]
  cases i.fix <;> simp [fixity, gt] <;> omega

/-- An infix operator: it clashes, or the rest is read with what is left on the stack. -/
theorem op_fails_iff (h : Reads spec info token) {tok : Option t} {p : Prec} (happ : gt (.L, 10) p = true)
    {k : List (Option t × Prec) → List e → Except (Failure t) e} (hst : Balanced st out false) {ps : List Prec} {b : Prop}
    (hk : ∀ st out, Balanced st out false → (∀ x ∈ st, x.1 ≠ none) →
      ((∃ err, k ((tok, p) :: st) out = .error err) ↔ Clashes (p :: st.map Prod.snd) ps ∨ b)) :
    (∃ err, op spec (tok, p) none k st out = .error err) ↔ Clashes (st.map Prod.snd) (p :: ps) ∨ b := by
  obtain ⟨hfail, hgo⟩ := op_binary h tok p k hst
  rw [Clashes]
  by_cases hclash : p.1 = .N ∧ ((st.map Prod.snd).dropWhile (gt · p)).head? = some p
  · exact ⟨fun _ => .inl (.inl hclash), fun _ => hfail hclash⟩
  · obtain ⟨st', out', hst', hbal, heq⟩ := hgo hclash
    rw [heq, hk _ _ hbal (hbal.named_of_drop happ hst'), hst']
    simp only [hclash, false_or]

/-- The parser fails where operators clash and where an operand is missing at the end. -/
theorem f_fails_iff (h : Reads spec info token) (hinfo : ∀ op, (info op).prec ≤ 9) {always : Prop} (hend : EndFails spec always)
    (xs : List (α ⊕ o)) (awaited : Bool) (st : List (Option t × Prec)) (out : List e) (hst : Balanced st out awaited) :
    (∃ err, f spec ⟨st, out, awaited⟩ (xs.map token) = .error err) ↔
      Clashes (st.map Prod.snd) (operators info awaited xs) ∨
        awaitsOperand awaited xs = true ∧ (always ∨ out = [] ∧ ∀ x ∈ xs, x.isRight) := by
  induction xs generalizing awaited st out with
  | nil =>
    rw [List.map_nil, f.eq_def]
    cases awaited with
    | true => simpa [operators, Clashes, awaitsOperand] using hend st out hst
    | false =>
      obtain ⟨v, hv⟩ := finish_ok h hst
      simp only [hv, operators, Clashes, awaitsOperand, Bool.false_eq_true, false_and, or_self, iff_false]
      rintro ⟨err, herr⟩
      cases herr
  | cons x xs ih =>
    cases x with
    | inl x =>
      obtain ⟨v, hv⟩ := h.lookup_operand x
      have hread : ∀ st out, f spec ⟨st, out, true⟩ (token (.inl x) :: xs.map token) =
          f spec ⟨st, v :: out, false⟩ (xs.map token) := by
        intro st out
        rw [f.eq_def]
        simp only [hv, pure_bind]
      cases awaited with
      | true =>
        rw [List.map_cons, hread, ih _ _ _ (hst.read v)]
        simp [operators, awaitsOperand]
      | false =>
        rw [List.map_cons, f.eq_def]
        simp only [hv, pure_bind, h.app_prec]
        refine op_fails_iff h (by decide) hst fun st out hst hnamed => ?_
        rw [hread, ih _ _ _ (hst.push_app v hnamed)]
        simp [awaitsOperand]
    | inr op =>
      cases awaited with
      | true =>
        have hpush : f spec ⟨st, out, true⟩ (token (.inr op) :: xs.map token) =
            f spec ⟨(some (token (.inr op)), (.Prefix, (info op).prec)) :: st, out, true⟩ (xs.map token) := by
          rw [f.eq_def]
          simp only [h.lookup_op, h.lookup_unary, pure_bind]
          cases hfix : (info op).fix <;> simp only [opPrec, hfix, fixity] <;> exact op_unary
        rw [List.map_cons, hpush, ih _ _ _ hst.push_unary, operators, Clashes, awaitsOperand]
        have hdrop : (st.map Prod.snd).dropWhile (gt · (.Prefix, (info op).prec)) = st.map Prod.snd := by
          cases st with
          | nil => rfl
          | cons y st => rw [List.map_cons, List.dropWhile_cons, if_neg (by simp [gt])]
        simp [hdrop]
      | false =>
        have hpush : f spec ⟨st, out, false⟩ (token (.inr op) :: xs.map token) =
            Jhc.FrontEnd.op spec (some (token (.inr op)), opPrec (info op)) none
              (fun stack output => f spec ⟨stack, output, true⟩ (xs.map token)) st out := by
          rw [f.eq_def]
          simp only [h.lookup_op, pure_bind, opPrec]
          cases (info op).fix <;> rfl
        rw [List.map_cons, hpush, operators]
        refine op_fails_iff h (gt_app_op (hinfo op)) hst fun st' out' hst' hnamed => ?_
        rw [ih _ _ _ (hst'.push_binary (opPrec_binary _) hnamed), List.map_cons, awaitsOperand]
        simp [hst.output_ne_nil, hst'.output_ne_nil]

theorem shunt_fails (h : Reads spec info token) (hinfo : ∀ op, (info op).prec ≤ 9) {always : Prop} (hend : EndFails spec always)
    (xs : List (α ⊕ o)) :
    (∃ err, shunt spec (xs.map token) = .error err) ↔
      NonfixClash (operators info true xs) ∨ awaitsOperand true xs = true ∧ (always ∨ ∀ x ∈ xs, x.isRight) := by
  rw [shunt, initialState, f_fails_iff h hinfo hend xs true [] [] ⟨by simp, by simp, rfl⟩, clashes_iff]
  simp [Meets]

/-- What is rejected, for every specification that reads operands and operators and takes none at the end. -/
theorem shunt_fails_iff (h : Reads spec info token) (hinfo : ∀ op, (info op).prec ≤ 9) (hend : EndFails spec True)
    (xs : List (α ⊕ o)) :
    (∃ err, shunt spec (xs.map token) = .error err) ↔
      NonfixClash (operators info true xs) ∨ xs = [] ∨ ∃ op, xs.getLast? = some (.inr op) := by
  rw [shunt_fails h hinfo hend, awaitsOperand_iff]
  simp

end

/-! ### Expressions -/

def isNeg : OpName → Bool
  | .var n => n == v_sub
  | .con _ => false

def tokenExp : Operand ⊕ OpName → HsExp
  | .inl x => x
  | .inr op => .hsBackTick op.exp

section
variable {ism : SymbolMap}

theorem operator_total (t : HsExp) (as : List HsExp) : ∃ v, operator t as = pure v := by
  fun_induction operator t as with
  | case1 as t ih => exact ih
  | case2 v e => exact ⟨_, rfl⟩
  | case3 t as => exact ⟨_, rfl⟩

theorem reads_exp (hism : Declared ism) : Reads (expShuntSpec ism) (opInfo ism) tokenExp where
  app_prec := rfl
  lookup_operand x := ⟨x, lookupToken_operand x.2⟩
  lookup_op op := lookupToken_op hism op
  lookup_unary _ := rfl
  application_ok _ _ := ⟨_, rfl⟩
  operator_ok := operator_total
  empty_fails := ⟨_, rfl⟩
  equal_fails _ _ := ⟨_, rfl⟩

theorem shunt_fails_exp (hism : Declared ism) (xs : List (Operand ⊕ OpName)) :
    (∃ err, shunt (expShuntSpec ism) (xs.map tokenExp) = .error err) ↔
      NonfixClash (operators (opInfo ism) true xs) ∨ xs = [] ∨ ∃ op, xs.getLast? = some (.inr op) :=
  shunt_fails_iff (reads_exp hism) (fun op => (opInfo_prec hism op).2)
    (endFails_trailing (reads_exp hism) fun _ _ => ⟨_, rfl⟩) xs

/-- Of the lists that the report rejects for their operators, those fail that end in an
operator or in which two nonassociative operators clash. -/
theorem shunt_rejects_iff (hism : Declared ism) {xs : List (Operand ⊕ OpName)} {r : Reject}
    (hrej : resolveOr (opInfo ism) (applications none (readWords isNeg true xs)) = .error r)
    (hr : r = .illegalMix ∨ r = .operatorAsOperand ∨ r = .negUnderTighter) :
    (∃ err, shunt (expShuntSpec ism) (xs.map tokenExp) = .error err) ↔
      NonfixClash (operators (opInfo ism) true xs) ∨ ∃ op, xs.getLast? = some (.inr op) := by
  have hne : xs ≠ [] := by
    rintro rfl
    have hempty : resolveOr (opInfo ism) (applications none ([] : List (Jhc.Lib.Word Operand OpName))) =
        .error .missingOperand := by
      simp [resolveOr, applications, Jhc.Lib.parseNegOr, Except.map]
    cases hempty.symm.trans hrej
    simp at hr
  rw [shunt_fails_exp hism]
  simp only [hne, false_or]

def operand (n : Name) : Operand ⊕ OpName := .inl ⟨.hsVar n, isOperator_hsVar n⟩

/-- `a == b < c`, both nonassociative -/
theorem shunt_rejects_nonfix :
    (∃ err, shunt (expShuntSpec [("==", 4, .hsAssocNone), ("<", 4, .hsAssocNone)])
        ([operand "a", .inr (.var "=="), operand "b", .inr (.var "<"), operand "c"].map tokenExp) = .error err) := by
  refine (@shunt_rejects_iff _ ?_ _ .illegalMix ?_ (.inl rfl)).2 (.inl ?_)
  · exact declared_cons (by decide) rfl (declared_cons (by decide) rfl declared_nil)
  · simp [resolveOr, readWords, operand, isNeg, applications, Jhc.Lib.parseNegOr, Jhc.Lib.parse1Or, opInfo,
      OpName.name, List.lookup, assocInfo, Jhc.Lib.order, Except.map, v_sub, bind, Except.bind]
  · simp [operators, operand, opInfo, OpName.name, List.lookup, assocInfo, opPrec, fixity, NonfixClash, Meets]

/-- `a +> b <+ c`, of the same precedence and associative to different sides -/
theorem opposite_sides_accepted :
    resolveOr (opInfo [("+>", 5, .hsAssocLeft), ("<+", 5, .hsAssocRight)])
        (applications none (readWords isNeg true
          [operand "a", .inr (.var "+>"), operand "b", .inr (.var "<+"), operand "c"])) = .error .illegalMix ∧
      ¬ ∃ err, shunt (expShuntSpec [("+>", 5, .hsAssocLeft), ("<+", 5, .hsAssocRight)])
        ([operand "a", .inr (.var "+>"), operand "b", .inr (.var "<+"), operand "c"].map tokenExp) = .error err := by
  refine ⟨?_, ?_⟩
  · simp [resolveOr, readWords, operand, isNeg, applications, Jhc.Lib.parseNegOr, Jhc.Lib.parse1Or, opInfo,
      OpName.name, List.lookup, assocInfo, Jhc.Lib.order, Except.map, v_sub, bind, Except.bind]
  · have hism : Declared [("+>", 5, .hsAssocLeft), ("<+", 5, .hsAssocRight)] :=
      declared_cons (by decide) rfl (declared_cons (by decide) rfl declared_nil)
    rw [shunt_fails_exp hism]
    simp [operators, operand, opInfo, OpName.name, List.lookup, assocInfo, opPrec, fixity, NonfixClash, Meets]

end

end Jhc.FrontEnd

import Jhc.Lib.OpResolve
import Jhc.FrontEnd.Fixity

/-!
# The precedence parser resolves operators

What is on the stacks when an operand has been read gives the same result as the operand
that the report's algorithm has read.
-/

namespace Jhc.FrontEnd
open Jhc.Lib (OpInfo OpExp Word Token applications applications_tExp applications_tOp applications_tNeg applications_nil order order_left order_right Stops parseNeg parse1 parse_induct parse_stops resolve
  resolve_some inorder_resolve)

/-! ### Specifications that read words -/

def fixity : Jhc.Lib.Assoc → Fixity
  | .leftfix => .L
  | .rightfix => .R
  | .nonfix => .N

def opPrec (i : OpInfo) : Prec := (fixity i.fix, i.prec)

section
variable {t e : Type} {α o : Type}

/-- The specification reads the tokens of words, and `val` is the value of a tree. -/
structure Interprets (spec : ShuntSpec t e) (info : o → OpInfo) (token : Word α o → t) (val : OpExp α o → e)
    (negFix : Fixity) : Prop where
  app_prec : spec.appPrec = (.L, 10)
  lookup_operand : ∀ x, spec.lookupToken (token (.operand x)) = pure (.inl (val (.var x)))
  lookup_op : ∀ op, spec.lookupToken (token (.op op)) = pure (.inr (opPrec (info op)))
  lookup_neg : spec.lookupToken (token .neg) = pure (.inr (negFix, 6))
  neg_infix : negFix ≠ .Prefix
  lookup_unary : ∀ t, spec.lookupUnary t = pure none
  application_val : ∀ f x, spec.application (val f) (val x) = pure (val (.app f x))
  operator_op : ∀ e₁ op e₂, spec.operator (token (.op op)) [val e₁, val e₂] = pure (val (.opApp e₁ op e₂))
  operator_neg : ∀ x, spec.operator (token .neg) [val x] = pure (val (.neg x))

variable {spec : ShuntSpec t e} {info : o → OpInfo} {token : Word α o → t} {val : OpExp α o → e}
variable {negFix : Fixity}
variable {st : List (Option t × Prec)} {out : List e} {ws : List (Word α o)}

/-- The precedence with which the next word asks for the operand before it. -/
def wordPrec (info : o → OpInfo) (negFix : Fixity) : Word α o → Prec
  | .operand _ => (.L, 10)
  | .op op => opPrec (info op)
  | .neg => (negFix, 6)

theorem f_operand (h : Interprets spec info token val negFix) (x : α) :
    f spec ⟨st, out, true⟩ (token (.operand x) :: ws.map token) =
      f spec ⟨st, val (.var x) :: out, false⟩ (ws.map token) := by
  rw [f.eq_def]
  simp only [h.lookup_operand, pure_bind]

theorem f_neg (h : Interprets spec info token val negFix) :
    f spec ⟨st, out, true⟩ (token .neg :: ws.map token) =
      op spec (some (token .neg), (.Prefix, 6)) none
        (fun stack output => f spec ⟨stack, output, true⟩ (ws.map token)) st out := by
  have hinfix := h.neg_infix
  rw [f.eq_def]
  simp only [h.lookup_neg, h.lookup_unary, pure_bind]
  cases negFix with
  | Prefix => exact absurd rfl hinfix
  | _ => rfl

/-- After an operand each word asks for an operator, be it the application. -/
theorem f_next (h : Interprets spec info token val negFix) (w : Word α o) (ws : List (Word α o)) :
    ∃ tok k, ∀ st out, f spec ⟨st, out, false⟩ (token w :: ws.map token) =
      op spec (tok, wordPrec info negFix w) none k st out := by
  cases w with
  | operand x =>
    refine ⟨none, fun stack output => f spec ⟨stack, output, true⟩ (token (.operand x) :: ws.map token), ?_⟩
    intro st out
    rw [f.eq_def]
    simp only [h.lookup_operand, pure_bind, h.app_prec, wordPrec]
  | op o =>
    refine ⟨some (token (.op o)), fun stack output => f spec ⟨stack, output, true⟩ (ws.map token), ?_⟩
    intro st out
    rw [f.eq_def]
    simp only [h.lookup_op, pure_bind, wordPrec, opPrec]
    cases (info o).fix <;> rfl
  | neg =>
    refine ⟨some (token .neg), fun stack output => f spec ⟨stack, output, true⟩ (ws.map token), ?_⟩
    intro st out
    rw [f.eq_def]
    have hinfix := h.neg_infix
    simp only [h.lookup_neg, pure_bind, wordPrec]
    cases negFix with
    | Prefix => exact absurd rfl hinfix
    | _ => rfl

theorem f_op (h : Interprets spec info token val negFix) (o : o) :
    f spec ⟨st, out, false⟩ (token (.op o) :: ws.map token) =
      op spec (some (token (.op o)), opPrec (info o)) none
        (fun stack output => f spec ⟨stack, output, true⟩ (ws.map token)) st out := by
  rw [f.eq_def]
  simp only [h.lookup_op, pure_bind, opPrec]
  cases (info o).fix <;> rfl

/-! ### Push and pop -/

/-- The operator on the stack leaves its operands to the one that follows. -/
def Waits (st : List (Option t × Prec)) (p : Prec) : Prop :=
  ∀ x ∈ st.head?, gt x.2 p = false ∧ (x.2.1 = .N → x.2 ≠ p)

theorem op_push {x : Option t × Prec} {k : List (Option t × Prec) → List e → Except (Failure t) e}
    (h : Waits st x.2) : op spec x none k st out = k (x :: st) out := by
  cases st with
  | nil => rfl
  | cons y st =>
    obtain ⟨hgt, hne⟩ := h y rfl
    have hn : ¬ (y.2.1 = .N ∧ y.2 = x.2) := fun hy => hne hy.1 hy.2
    unfold op
    simp only [hgt, Bool.false_eq_true, if_false, if_neg hn, Option.toList_none, List.nil_append]
    split
    · split
      · rfl
      · split <;> rfl
    · rfl

/-- The operator makes `v` of its operands, which are the first on the stack. -/
def Closes (spec : ShuntSpec t e) (x : Option t × Prec) (as : List e) (v : e) : Prop :=
  (x.2.1 = .Prefix ∧ ∃ a, as = [a] ∧ apop spec x.1 [a] = pure v) ∨
    (x.2.1 ≠ .Prefix ∧ ∃ a b, as = [b, a] ∧ apop spec x.1 [a, b] = pure v)

theorem gt_not_N {p q : Prec} (h : gt p q = true) : ¬ (p.1 = .N ∧ p = q) := by
  rintro ⟨hN, rfl⟩
  obtain ⟨fix, n⟩ := p
  simp only at hN
  subst hN
  simp [gt] at h

theorem op_pop {x y : Option t × Prec} {as : List e} {v : e}
    {k : List (Option t × Prec) → List e → Except (Failure t) e} (hc : Closes spec y as v)
    (hgt : gt y.2 x.2 = true) : op spec x none k (y :: st) (as ++ out) = op spec x none k st (v :: out) := by
  rcases hc with ⟨hfix, a, rfl, ha⟩ | ⟨hfix, a, b, rfl, hab⟩
  · rw [op.eq_def]
    simp only [List.cons_append, List.nil_append, if_pos hfix, if_pos hgt, ha, pure_bind]
  · rw [op.eq_def]
    simp only [List.cons_append, List.nil_append, if_neg hfix, if_neg (gt_not_N hgt), if_pos hgt, hab, pure_bind]

theorem finish_pop {y : Option t × Prec} {as : List e} {v : e} (hc : Closes spec y as v) :
    finish spec (y :: st) (as ++ out) = finish spec st (v :: out) := by
  rcases hc with ⟨hfix, a, rfl, ha⟩ | ⟨hfix, a, b, rfl, hab⟩
  · rw [finish.eq_def]
    simp only [List.cons_append, List.nil_append, if_pos hfix, ha, pure_bind]
  · rw [finish.eq_def]
    simp only [List.cons_append, List.nil_append, if_neg hfix, hab, pure_bind]

/-- An operator that the next word or the end takes off the stack can be taken off before. -/
theorem f_pop (h : Interprets spec info token val negFix) {y : Option t × Prec} {as : List e} {v : e}
    (hc : Closes spec y as v) (hnext : ∀ w ∈ ws.head?, gt y.2 (wordPrec info negFix w) = true) :
    f spec ⟨y :: st, as ++ out, false⟩ (ws.map token) = f spec ⟨st, v :: out, false⟩ (ws.map token) := by
  cases ws with
  | nil =>
    rw [List.map_nil, f.eq_def, f.eq_def]
    exact finish_pop hc
  | cons w ws =>
    obtain ⟨tok, k, hf⟩ := f_next h w ws
    rw [List.map_cons, hf, hf]
    exact op_pop hc (hnext w rfl)

/-! ### Operands -/

/-- The operator on the stack is the one that the algorithm has before it. -/
def Top (st : List (Option t × Prec)) (op1 : OpInfo) : Prop :=
  ∀ x ∈ st.head?, x.2 = opPrec op1 ∨ x.2 = (.Prefix, 6) ∧ op1 = ⟨6, .leftfix⟩

theorem waits_app {op1 : OpInfo} (hprec : op1.prec ≤ 9) (htop : Top st op1) : Waits st (.L, 10) := by
  intro x hx
  rcases htop x hx with heq | ⟨heq, -⟩
  · rw [heq, opPrec]
    cases op1.fix <;> simp [fixity, gt] <;> omega
  · rw [heq]
    simp [gt]

theorem waits_right {op1 op2 : OpInfo} (horder : order op1 op2 = .right) (htop : Top st op1) :
    Waits st (opPrec op2) := by
  have hright := order_right horder
  intro x hx
  rcases htop x hx with heq | ⟨heq, rfl⟩
  · rw [heq, opPrec, opPrec]
    cases h₁ : op1.fix <;> cases h₂ : op2.fix <;> simp [fixity, gt, h₁, h₂] at hright ⊢ <;> omega
  · rw [heq, opPrec]
    cases h₂ : op2.fix <;> simp [fixity, gt] at hright ⊢ <;> omega

theorem gt_left {op1 op2 : OpInfo} (horder : order op1 op2 = .left) : gt (opPrec op1) (opPrec op2) = true := by
  have hleft := order_left horder
  rw [opPrec, opPrec]
  cases h₁ : op1.fix <;> cases h₂ : op2.fix <;> simp [fixity, gt, h₁] at hleft ⊢ <;> omega

theorem gt_neg {op2 : OpInfo} (horder : order ⟨6, .leftfix⟩ op2 = .left) : gt (.Prefix, 6) (opPrec op2) = true := by
  have hleft := order_left horder
  rw [opPrec]
  cases h₂ : op2.fix <;> simp [fixity, gt] at hleft ⊢ <;> omega

/-- No operand is next: what was read is a whole application. -/
def Whole (ws : List (Word α o)) : Prop := ∀ x, ws.head? ≠ some (.operand x)

theorem gt_app (hneg : negFix ≠ .Prefix) (hinfo : ∀ op, (info op).prec ≤ 9) (w : Word α o) : gt (.L, 10) (wordPrec info negFix w) = true := by
  cases w with
  | operand x => simp [wordPrec, gt]
  | op op =>
    have hop := hinfo op
    rw [wordPrec, opPrec]
    cases (info op).fix <;> simp [fixity, gt] <;> omega
  | neg => cases negFix <;> simp [wordPrec, gt] at hneg ⊢

/-- Adjacent operands, one application after the other. -/
theorem f_applications (ws tail : List (Word α o)) (h : Interprets spec info token val negFix) (hinfo : ∀ op, (info op).prec ≤ 9)
    (hst : Waits st (.L, 10)) (x : OpExp α o) :
    ∃ ws' y, applications (some x) ws = .tExp y :: applications none ws' ∧ Whole ws' ∧
      ∀ out, f spec ⟨st, val x :: out, false⟩ ((ws ++ tail).map token) = f spec ⟨st, val y :: out, false⟩ ((ws' ++ tail).map token) := by
  induction ws generalizing x with
  | nil => exact ⟨[], x, rfl, by simp [Whole], fun _ => rfl⟩
  | cons w ws ih =>
    cases w with
    | operand z =>
      obtain ⟨ws', y, happ, hwhole, hf⟩ := ih (.app x (.var z))
      refine ⟨ws', y, happ, hwhole, fun out => ?_⟩
      rw [← hf]
      have happ : Closes spec (none, (.L, 10)) [val (.var z), val x] (val (.app x (.var z))) :=
        .inr ⟨by simp, _, _, rfl, h.application_val x (.var z)⟩
      rw [← f_pop h happ]
      · rw [List.cons_append, List.map_cons, f.eq_def]
        simp only [h.lookup_operand, pure_bind, h.app_prec]
        rw [op_push hst, f_operand h]
        rfl
      · intro w _
        exact gt_app h.neg_infix hinfo w
    | op op => exact ⟨.op op :: ws, x, rfl, by simp [Whole], fun _ => rfl⟩
    | neg => exact ⟨.neg :: ws, x, rfl, by simp [Whole], fun _ => rfl⟩

theorem closes_operator (h : Interprets spec info token val negFix) (e₁ e₂ : OpExp α o) (op : o) :
    Closes spec (some (token (.op op)), opPrec (info op)) [val e₂, val e₁] (val (.opApp e₁ op e₂)) := by
  refine .inr ⟨?_, val e₁, val e₂, rfl, h.operator_op e₁ op e₂⟩
  rw [opPrec]
  cases (info op).fix <;> simp [fixity]

theorem closes_neg (h : Interprets spec info token val negFix) (x : OpExp α o) :
    Closes spec (some (token .neg), (.Prefix, 6)) [val x] (val (.neg x)) :=
  .inl ⟨rfl, val x, rfl, h.operator_neg x⟩

/-- An operator that ends the operand before it, or the tail, takes `op1` off the stack. -/
theorem gt_stops {op1 : OpInfo} {p : Prec} {tail : List (Word α o)} (hgt : ∀ op, order op1 (info op) = .left → gt p (opPrec (info op)) = true)
    (hwhole : Whole ws) (hstops : Stops info op1 (applications none ws))
    (htail : applications none ws = [] → ∀ w ∈ tail.head?, gt p (wordPrec info negFix w) = true) :
    ∀ w ∈ (ws ++ tail).head?, gt p (wordPrec info negFix w) = true := by
  intro w hw
  cases ws with
  | nil => exact htail rfl w hw
  | cons w' ws =>
    cases hw
    rcases hstops with hnil | ⟨op, r, hcons, horder⟩
    · cases w with
      | operand x => exact absurd rfl (hwhole x)
      | op op => cases hnil
      | neg => cases hnil
    · obtain ⟨ws', heq, -⟩ := applications_tOp hcons
      cases heq
      exact hgt op horder

/-- The precedence that an operator of the spine has on the stack. -/
def spinePrec (info : o → OpInfo) : Option o → Prec
  | some op => opPrec (info op)
  | none => (.Prefix, 6)

/-- What comes after the words takes the operators at the right end of the tree off the stack. -/
def Ends (info : o → OpInfo) (negFix : Fixity) (tail : List (Word α o)) (x : OpExp α o) : Prop :=
  ∀ w ∈ tail.head?, ∀ s ∈ x.rightSpine, gt (spinePrec info s) (wordPrec info negFix w) = true

theorem shunt_parse (tail : List (Word α o)) (h : Interprets spec info token val negFix) (hinfo : ∀ op, (info op).prec ≤ 9) :
    (∀ op1 ts x rest, parseNeg info op1 ts = some (x, rest) →
      Stops info op1 rest ∧ ∀ ws st, applications none ws = ts → op1.prec ≤ 9 → Top st op1 → (rest = [] → Ends info negFix tail x) →
        ∃ ws', applications none ws' = rest ∧ Whole ws' ∧ ∀ out,
          f spec ⟨st, out, true⟩ ((ws ++ tail).map token) = f spec ⟨st, val x :: out, false⟩ ((ws' ++ tail).map token)) ∧
    ∀ op1 x₁ ts x rest, parse1 info op1 x₁ ts = some (x, rest) →
      (Stops info op1 rest ∧ (ts = [] → x = x₁ ∧ rest = [])) ∧
      ∀ ws st, applications none ws = ts → Whole ws → op1.prec ≤ 9 → Top st op1 → (rest = [] → Ends info negFix tail x) →
        ∃ ws', applications none ws' = rest ∧ Whole ws' ∧ ∀ out,
          f spec ⟨st, val x₁ :: out, false⟩ ((ws ++ tail).map token) = f spec ⟨st, val x :: out, false⟩ ((ws' ++ tail).map token) := by
  refine parse_induct ?_ ?_ ?_ ?_ ?_
  · -- operands
    rintro op1 e₁ r e rest ⟨⟨hstops, -⟩, hrest⟩
    refine ⟨hstops, fun ws st hws hprec htop hends => ?_⟩
    obtain ⟨x, ws, rfl⟩ := applications_tExp hws
    obtain ⟨ws', y, happ, hwhole, hf⟩ := f_applications ws tail h hinfo (waits_app hprec htop) (.var x)
    have heq : Token.tExp y :: applications none ws' = .tExp e₁ :: r := happ.symm.trans hws
    cases heq
    obtain ⟨ws'', hws'', hwhole'', hf'⟩ := hrest ws' st rfl hwhole hprec htop hends
    refine ⟨ws'', hws'', hwhole'', fun out => ?_⟩
    rw [List.cons_append, List.map_cons, f_operand h, hf, hf']
  · -- a negation waits on the stack for its operand
    rintro op1 r x r' e rest hprec ⟨hstops', hneg⟩ ⟨⟨hstops, hnil⟩, hrest⟩
    refine ⟨hstops, fun ws st hws hprec' htop hends => ?_⟩
    obtain ⟨ws, rfl, hr⟩ := applications_tNeg hws
    have hwaits : Waits st (.Prefix, 6) := by
      rintro ⟨tok, fix, n⟩ _
      exact ⟨by simp [gt], by rintro rfl; simp⟩
    have hneg_ends : r' = [] → Ends info negFix tail (.neg x) := by
      intro hr'
      obtain ⟨rfl, hempty⟩ := hnil hr'
      exact hends hempty
    obtain ⟨ws', hws', hwhole', hf⟩ := hneg ws ((some (token .neg), (.Prefix, 6)) :: st) hr (by simp)
      (by rintro x hx; cases hx; exact .inr ⟨rfl, rfl⟩)
      (fun hr' w hw s hs => hneg_ends hr' w hw s (List.mem_cons_of_mem _ hs))
    obtain ⟨ws'', hws'', hwhole'', hf'⟩ := hrest ws' st hws' hwhole' hprec' htop hends
    refine ⟨ws'', hws'', hwhole'', fun out => ?_⟩
    have hgt : ∀ w ∈ (ws' ++ tail).head?, gt (.Prefix, 6) (wordPrec info negFix w) = true :=
      gt_stops (fun op => gt_neg) hwhole' (hws' ▸ hstops') fun hr' w hw =>
        hneg_ends (hws'.symm.trans hr') w hw none List.mem_cons_self
    rw [List.cons_append, List.map_cons, f_neg h, op_push hwaits, hf, ← hf']
    exact f_pop h (closes_neg h x) hgt
  · intro op1 e₁
    exact ⟨⟨.inl rfl, fun _ => ⟨rfl, rfl⟩⟩, fun ws st hws hwhole _ _ _ => ⟨ws, hws, hwhole, fun _ => rfl⟩⟩
  · intro op1 e₁ op2 r horder
    exact ⟨⟨.inr ⟨op2, r, rfl, horder⟩, by simp⟩, fun ws st hws hwhole _ _ _ => ⟨ws, hws, hwhole, fun _ => rfl⟩⟩
  · rintro op1 e₁ op2 r x r' e rest horder ⟨hstops', hright⟩ ⟨⟨hstops, hnil⟩, hrest⟩
    refine ⟨⟨hstops, by simp⟩, fun ws st hws _ hprec htop hends => ?_⟩
    obtain ⟨ws, rfl, hr⟩ := applications_tOp hws
    have hop_ends : r' = [] → Ends info negFix tail (.opApp e₁ op2 x) := by
      intro hr'
      obtain ⟨rfl, hempty⟩ := hnil hr'
      exact hends hempty
    obtain ⟨ws', hws', hwhole', hf⟩ := hright ws ((some (token (.op op2)), opPrec (info op2)) :: st) hr (hinfo op2)
      (by rintro x hx; cases hx; exact .inl rfl)
      (fun hr' w hw s hs => hop_ends hr' w hw s (List.mem_cons_of_mem _ hs))
    obtain ⟨ws'', hws'', hwhole'', hf'⟩ := hrest ws' st hws' hwhole' hprec htop hends
    refine ⟨ws'', hws'', hwhole'', fun out => ?_⟩
    have hgt : ∀ w ∈ (ws' ++ tail).head?, gt (opPrec (info op2)) (wordPrec info negFix w) = true :=
      gt_stops (fun op => gt_left) hwhole' (hws' ▸ hstops') fun hr' w hw =>
        hop_ends (hws'.symm.trans hr') w hw (some op2) List.mem_cons_self
    rw [List.cons_append, List.map_cons, f_op h, op_push (waits_right horder htop), hf, ← hf']
    exact f_pop h (closes_operator h e₁ x op2) hgt

/-- A list that is resolved has become one operand when a tail follows that ends it. -/
theorem shunt_tail {tail : List (Word α o)} (h : Interprets spec info token val negFix)
    (hinfo : ∀ op, 0 ≤ (info op).prec ∧ (info op).prec ≤ 9) {x : OpExp α o} (hx : resolve info (applications none ws) = some x)
    (hends : Ends info negFix tail x) :
    shunt spec ((ws ++ tail).map token) = f spec ⟨[], [val x], false⟩ (tail.map token) := by
  obtain ⟨-, hparse⟩ := (shunt_parse tail h fun op => (hinfo op).2).1 _ _ _ _ (resolve_some (fun op => (hinfo op).1) hx)
  obtain ⟨ws', hws', -, hf⟩ := hparse ws [] rfl (by simp) (by simp [Top]) fun _ => hends
  rw [shunt, initialState, hf, applications_nil hws', List.nil_append]

/-- The parser returns the tree of the report's algorithm. -/
theorem shunt_resolve_val (h : Interprets spec info token val negFix) (hinfo : ∀ op, 0 ≤ (info op).prec ∧ (info op).prec ≤ 9)
    {x : OpExp α o} (hx : resolve info (applications none ws) = some x) :
    shunt spec (ws.map token) = pure (val x) := by
  have hrun := shunt_tail h hinfo hx (show Ends info negFix [] x from fun w hw => by cases hw)
  rw [List.append_nil] at hrun
  rw [hrun, List.map_nil, f.eq_def]
  rfl

end

/-! ### Expressions -/

def HsExp.isOperator : HsExp → Bool
  | .hsBackTick _ => true
  | .hsAsPat _ v => v.isOperator
  | .hsLocatedExp _ v => v.isOperator
  | _ => false

/-- A token that is no operator. -/
abbrev Operand := {x : HsExp // x.isOperator = false}

inductive OpName where
  | var (n : Name)
  | con (n : Name)

def OpName.exp : OpName → HsExp
  | .var n => .hsVar n
  | .con n => .hsCon n

def OpName.name : OpName → Name
  | .var n => n
  | .con n => n

def expToken : Word Operand OpName → HsExp
  | .operand x => x
  | .op o => .hsBackTick o.exp
  | .neg => .hsBackTick (.hsVar v_sub)

/-- The expression of a tree. -/
def expTree : OpExp Operand OpName → HsExp
  | .var x => x
  | .app f x => .hsApp (expTree f) (hsParen (expTree x))
  | .opApp e₁ op e₂ => .hsApp (.hsApp op.exp (hsParen (expTree e₁))) (hsParen (expTree e₂))
  | .neg e => .hsNegApp (hsParen (expTree e))

section
variable {ism : SymbolMap}

def assocInfo : HsAssoc → Option Jhc.Lib.Assoc
  | .hsAssocLeft => some .leftfix
  | .hsAssocRight => some .rightfix
  | .hsAssocNone => some .nonfix
  | _ => none

/-- Precedence and associativity of an operator; without a declaration it is `infixl 9`. -/
def opInfo (ism : SymbolMap) (op : OpName) : OpInfo :=
  match ism.lookup op.name with
  | some (n, a) => ⟨n, (assocInfo a).getD .leftfix⟩
  | none => ⟨9, .leftfix⟩

/-- The declarations are those of the report. -/
def Declared (ism : SymbolMap) : Prop :=
  ∀ v n a, ism.lookup v = some (n, a) → 0 ≤ n ∧ n ≤ 9 ∧ (assocInfo a).isSome

attribute [local grind =] assocInfo

theorem declared_nil : Declared [] := by
  intro v n a h
  cases h

theorem declared_cons {v : Name} {n : ℤ} {a : HsAssoc} (hn : 0 ≤ n ∧ n ≤ 9) (ha : (assocInfo a).isSome)
    (hism : Declared ism) : Declared ((v, n, a) :: ism) := by
  intro v' n' a' h
  rw [List.lookup] at h
  split at h
  · cases h
    exact ⟨hn.1, hn.2, ha⟩
  · exact hism _ _ _ h

theorem lookupToken_operand {x : HsExp} (h : x.isOperator = false) : lookupToken ism x = pure (.inl x) := by
  induction x using HsExp.isOperator.induct with
  | case1 x => cases h
  | case2 n v ih =>
    rw [lookupToken, ih h]
    rfl
  | case3 sl v ih =>
    rw [lookupToken, ih h]
    rfl
  | case4 x h₁ h₂ h₃ =>
    cases x with
    | hsBackTick e => cases h
    | hsAsPat n e => exact absurd rfl (h₂ n e)
    | hsLocatedExp sl e => exact absurd rfl (h₃ sl e)
    | _ => rfl

theorem lookupToken_op (hism : Declared ism) (op : OpName) :
    lookupToken ism (.hsBackTick op.exp) = pure (.inr (opPrec (opInfo ism op))) := by
  have hback : lookupToken ism (.hsBackTick op.exp) = backtick.g ism op.name := by
    cases op <;> rfl
  rw [hback, backtick.g, opInfo]
  cases hlook : ism.lookup op.name with
  | none => rfl
  | some x =>
    obtain ⟨n, a⟩ := x
    have ha := (hism _ _ _ hlook).2.2
    cases a <;> first | rfl | cases ha

theorem opInfo_prec (hism : Declared ism) (op : OpName) : 0 ≤ (opInfo ism op).prec ∧ (opInfo ism op).prec ≤ 9 := by
  rw [opInfo]
  cases hlook : ism.lookup op.name with
  | none => exact ⟨by simp, by simp⟩
  | some x =>
    have h := hism _ x.1 x.2 hlook
    exact ⟨h.1, h.2.1⟩

/-- Negation is the operator `-` of the library in the place of an operand. -/
theorem interprets_exp (hism : Declared ism) {a : HsAssoc} (hsub : ism.lookup v_sub = some (6, a)) :
    Interprets (expShuntSpec ism) (opInfo ism) expToken expTree (fixity ((assocInfo a).getD .leftfix)) where
  app_prec := rfl
  lookup_operand x := lookupToken_operand x.2
  lookup_op op := lookupToken_op hism op
  lookup_neg := by
    have hop := lookupToken_op hism (.var v_sub)
    rw [opInfo, OpName.name, hsub] at hop
    exact hop
  neg_infix := by
    cases a <;> simp [assocInfo, fixity]
  lookup_unary _ := rfl
  application_val _ _ := rfl
  operator_op e₁ op e₂ := by
    cases op <;> rfl
  operator_neg x := rfl

/-- The tree is the one of the report, and it has the tokens in their order. -/
theorem shunt_resolve (hism : Declared ism) {a : HsAssoc} (hsub : ism.lookup v_sub = some (6, a))
    {ws : List (Word Operand OpName)} {x : OpExp Operand OpName}
    (hx : resolve (opInfo ism) (applications none ws) = some x) :
    shunt (expShuntSpec ism) (ws.map expToken) = pure (expTree x) ∧ x.inorder = ws :=
  ⟨shunt_resolve_val (interprets_exp hism hsub) (opInfo_prec hism) hx,
    inorder_resolve (fun op => (opInfo_prec hism op).1) hx⟩

end

/-! ### A negation that binds tighter -/

theorem isOperator_hsVar (n : Name) : (HsExp.hsVar n).isOperator = false := rfl

def varOperand (n : Name) : Word Operand OpName := .operand ⟨.hsVar n, isOperator_hsVar n⟩

/-- `- a * b` -/
def negTimes : List (Word Operand OpName) := [.neg, varOperand "a", .op (.var "*"), varOperand "b"]

/-- Where `-` is declared `infixl 7`, the negation takes only the first operand. -/
theorem neg_prec_seven :
    resolve (opInfo [("*", 7, .hsAssocLeft), (v_sub, 7, .hsAssocLeft)]) (applications none negTimes) =
        some (.neg (.opApp (.var ⟨.hsVar "a", rfl⟩) (.var "*") (.var ⟨.hsVar "b", rfl⟩))) ∧
      shunt (expShuntSpec [("*", 7, .hsAssocLeft), (v_sub, 7, .hsAssocLeft)]) (negTimes.map expToken) =
        pure (expTree (.opApp (.neg (.var ⟨.hsVar "a", rfl⟩)) (.var "*") (.var ⟨.hsVar "b", rfl⟩))) ∧
      expTree (.opApp (.neg (.var ⟨.hsVar "a", rfl⟩)) (.var "*") (.var ⟨.hsVar "b", rfl⟩)) ≠
        expTree (.neg (.opApp (.var ⟨.hsVar "a", rfl⟩) (.var "*") (.var ⟨.hsVar "b", rfl⟩))) := by
  refine ⟨?_, ?_, ?_⟩
  · simp [negTimes, varOperand, applications, resolve, parseNeg, parse1, opInfo, OpName.name, List.lookup, assocInfo, order]
  · rw [shunt, initialState, negTimes, varOperand, varOperand, List.map_cons, f.eq_def]
    simp [expToken, OpName.exp, expShuntSpec, shuntSpec, lookupToken, backtick, backtick.g, List.lookup, v_sub, op]
    rw [f.eq_def]
    simp [lookupToken, op]
    rw [f.eq_def]
    simp [lookupToken, backtick, backtick.g, List.lookup, op, gt, apop, operator]
    rw [f.eq_def]
    simp [lookupToken, op]
    rw [f.eq_def]
    rfl
  · simp [expTree]

theorem shunt_resolve_neg_times :
    shunt (expShuntSpec [("*", 7, .hsAssocLeft), (v_sub, 6, .hsAssocLeft)]) (negTimes.map expToken) =
        pure (expTree (.neg (.opApp (.var ⟨.hsVar "a", rfl⟩) (.var "*") (.var ⟨.hsVar "b", rfl⟩)))) ∧
      (OpExp.neg (.opApp (.var ⟨.hsVar "a", rfl⟩) (.var "*") (.var ⟨.hsVar "b", rfl⟩))).inorder = negTimes := by
  refine @shunt_resolve _ ?_ .hsAssocLeft ?_ negTimes _ ?_
  · exact declared_cons (by decide) rfl (declared_cons (by decide) rfl declared_nil)
  · decide
  · simp [negTimes, varOperand, applications, resolve, parseNeg, parse1, opInfo, OpName.name, List.lookup, assocInfo, order]

end Jhc.FrontEnd

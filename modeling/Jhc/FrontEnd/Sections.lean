import Jhc.FrontEnd.ShuntRejects

/-!
# Sections (FrontEnd/Infix.hs:48-59, 117-119)

A parenthesised list that ends or starts with an operator is read with a specification of its
own. An operator in front is taken as a prefix operator of its precedence, and one at the end
stays on the stack, where the unwinding looks only at positions.
-/

namespace Jhc.FrontEnd
open Jhc.Lib (OpInfo OpExp Word Token applications applications_spine applications_tExp applications_tNeg applications_tOp
  applications_nil order order_left order_right Stops parseNeg parse1 parse1_some parseNeg_some resolve resolve_some readWords
  spineInfo LegalLeft LegalRight)

section
variable {t e : Type} {spec : ShuntSpec t e}

/-! ### A binary operator at the bottom of the stack -/

/-- The operator that is applied last takes two operands. -/
def Bottom (st : List (Option t × Prec)) : Prop := ∃ x, st.getLast? = some x ∧ x.2.1 ≠ .Prefix

/-- What is made of two operands, and of an operator at the end, does not have the form. -/
structure Avoids (spec : ShuntSpec t e) (Sec : e → Prop) : Prop where
  application : ∀ a b v, spec.application a b = .ok v → ¬ Sec v
  operator : ∀ t a b v, spec.operator t [a, b] = .ok v → ¬ Sec v
  trailing : ∀ x t v, spec.trailingOps x t = .ok v → ¬ Sec v
  equal : ∀ p ts v, spec.equalFixity p ts ≠ .ok v

variable {Sec : e → Prop} {st : List (Option t × Prec)} {out : List e}

theorem Avoids.apop (h : Avoids spec Sec) {x : Option t} {a b v : e} (hv : apop spec x [a, b] = .ok v) : ¬ Sec v := by
  cases x with
  | none => exact h.application a b v hv
  | some t => exact h.operator t a b v hv

theorem bottom_cons {x y : Option t × Prec} : Bottom (x :: y :: st) ↔ Bottom (y :: st) := by
  rw [Bottom, List.getLast?_cons_cons, Bottom]

theorem bottom_pop {x y : Option t × Prec} (hgt : gt y.2 x.2 = true) (h : Bottom (x :: y :: st)) : Bottom (x :: st) := by
  cases st with
  | nil =>
    refine ⟨x, rfl, fun hfix => ?_⟩
    obtain ⟨tok, fix, n⟩ := x
    obtain rfl : fix = .Prefix := hfix
    simp [gt] at hgt
  | cons z st => exact bottom_cons.2 (bottom_cons.1 (bottom_cons.1 h))

theorem ok_bind {ε α β : Type} {m : Except ε α} {k : α → Except ε β} {v : β} (h : (m >>= k) = .ok v) : ∃ a, m = .ok a ∧ k a = .ok v := by
  cases m with
  | error err => cases h
  | ok a => exact ⟨a, rfl, h⟩

theorem op_bottom (h : Avoids spec Sec) {o : Option t × Prec} {k : List (Option t × Prec) → List e → Except (Failure t) e}
    (hst : Bottom (o :: st)) {v : e} (hk : ∀ st' out', Bottom (o :: st') → k (o :: st') out' = .ok v → ¬ Sec v)
    (hv : op spec o none k st out = .ok v) : ¬ Sec v := by
  induction st generalizing out with
  | nil => exact hk [] _ hst hv
  | cons y st ih =>
    rw [op.eq_def] at hv
    dsimp only at hv
    have hpush := hk (y :: st) out hst
    split at hv
    · next x rs =>
      by_cases hfix : y.2.1 = .Prefix
      · rw [if_pos hfix] at hv
        split_ifs at hv with hgt
        · obtain ⟨ne, -, hv⟩ := ok_bind hv
          exact ih (bottom_pop hgt hst) hv
        · exact hpush hv
      · rw [if_neg hfix] at hv
        split at hv
        · split_ifs at hv with hN hgt
          · exact absurd hv (h.equal _ _ _)
          · obtain ⟨ne, -, hv⟩ := ok_bind hv
            exact ih (bottom_pop hgt hst) hv
          · exact hpush hv
        · exact hpush hv
    · exact hpush hv

theorem finish_bottom (h : Avoids spec Sec) (hst : Bottom st) {v : e} (hv : finish spec st out = .ok v) : ¬ Sec v := by
  induction st generalizing out with
  | nil =>
    obtain ⟨x, hx, -⟩ := hst
    cases hx
  | cons y st ih =>
    -- the last operator of the stack, whose value is the result, or one above it
    have hlast : ∀ {ne : e} {out : List e}, (st = [] → ¬ Sec ne) → finish spec st (ne :: out) = .ok v → ¬ Sec v := by
      intro ne out hne hv
      cases st with
      | nil =>
        cases out with
        | nil =>
          cases hv
          exact hne rfl
        | cons z out => cases hv
      | cons z st => exact ih (bottom_cons.1 hst) hv
    have hfix : st = [] → y.2.1 ≠ .Prefix := by
      rintro rfl
      obtain ⟨x, hx, hfix⟩ := hst
      cases hx
      exact hfix
    cases out with
    | nil => cases hv
    | cons a os =>
      unfold finish at hv
      by_cases hprefix : y.2.1 = .Prefix
      · rw [if_pos hprefix] at hv
        obtain ⟨ne, -, hv⟩ := ok_bind hv
        exact hlast (fun hst => absurd hprefix (hfix hst)) hv
      · rw [if_neg hprefix] at hv
        cases os with
        | nil =>
          cases hy : y.1 with
          | none =>
            simp only [hy] at hv
            cases hv
          | some tok =>
            simp only [hy] at hv
            obtain ⟨ne, hne, hv⟩ := ok_bind hv
            exact hlast (fun _ => h.trailing a tok ne hne) hv
        | cons b os =>
          obtain ⟨ne, hne, hv⟩ := ok_bind hv
          exact hlast (fun _ => h.apop hne) hv

theorem bottom_push {o : Option t × Prec} (hst : Bottom st) : Bottom (o :: st) := by
  cases st with
  | nil =>
    obtain ⟨x, hx, -⟩ := hst
    cases hx
  | cons y st => exact bottom_cons.2 hst

theorem f_bottom (h : Avoids spec Sec) (s : S t e) (ts : List t) (hst : Bottom s.stack) {v : e} (hv : f spec s ts = .ok v) : ¬ Sec v := by
  induction s, ts using f.induct with
  | case1 s =>
    rw [f.eq_def] at hv
    exact finish_bottom h hst hv
  | case2 s tok ts hoperand happ hop hprefix =>
    rw [f.eq_def] at hv
    obtain ⟨x, -, hv⟩ := ok_bind hv
    split at hv
    · next hlast => exact hoperand _ hlast hst hv
    · next hlast => exact op_bottom h (bottom_push hst) (fun st out hst hv => happ hlast _ _ hst hv) hv
    · next hlast => exact op_bottom h (bottom_push hst) (fun st out hst hv => happ hlast _ _ hst hv) hv
    · next hlast => exact op_bottom h (bottom_push hst) (fun st out hst hv => hop hlast _ _ hst hv) hv
    · next hlast => exact op_bottom h (bottom_push hst) (fun st out hst hv => hprefix hlast _ _ hst hv) hv
    · next hlast =>
      obtain ⟨mn, -, hv⟩ := ok_bind hv
      exact op_bottom h (bottom_push hst) (fun st out hst hv => hprefix hlast _ _ hst hv) hv

end

/-! ### An operator in front -/

section
variable {t e : Type} {α o : Type} {spec : ShuntSpec t e} {info : o → OpInfo} {token : Word α o → t} {val : OpExp α o → e}
variable {negFix : Fixity} {st : List (Option t × Prec)} {out : List e}

theorem f_prefix (h : Interprets spec info token val negFix) (op : o) (ts : List t) :
    f spec ⟨st, out, true⟩ (token (.op op) :: ts) =
      f spec ⟨(some (token (.op op)), (.Prefix, (info op).prec)) :: st, out, true⟩ ts := by
  rw [f.eq_def]
  simp only [h.lookup_op, h.lookup_unary, pure_bind]
  cases hfix : (info op).fix <;> simp only [opPrec, hfix, fixity] <;> exact op_unary

theorem order_bottom {op2 : OpInfo} (hprec : 0 ≤ op2.prec) : order ⟨-1, .nonfix⟩ op2 = .right := by
  have hne : (-1 : ℤ) ≠ op2.prec := by omega
  have hlt : ¬ (-1 : ℤ) > op2.prec := by omega
  simp [order, hne, hlt]

/-- The operators between which and the one in front, `n`, an operand is taken by the former. -/
def Tighter (info : o → OpInfo) (n : ℤ) (x : OpExp α o) : Prop := ∀ s ∈ x.leftSpine, n < (spineInfo info s).prec

theorem waits_front {p : Prec} {tok : Option t} {n : ℤ} (hn : n < p.2) : Waits [(tok, (.Prefix, n))] p := by
  intro y hy
  cases hy
  obtain ⟨fix, m⟩ := p
  simp only at hn
  refine ⟨?_, by simp⟩
  cases fix <;> simp [gt] <;> omega

theorem gt_rest {op1 : OpInfo} {p : Prec} {ws : List (Word α o)}
    (hgt : ∀ op, order op1 (info op) = .left → gt p (opPrec (info op)) = true) (hwhole : Whole ws)
    (hstops : Stops info op1 (applications none ws)) : ∀ w ∈ ws.head?, gt p (wordPrec info negFix w) = true := by
  have hnext : ∀ w ∈ (ws ++ []).head?, gt p (wordPrec info negFix w) = true :=
    gt_stops hgt hwhole hstops fun _ w hw => by cases hw
  rwa [List.append_nil] at hnext

/-- With a prefix operator at the bottom of the stack the list is read as without it, as long as all
operators at the left end bind tighter; the first that does not makes the operator take its operand. -/
theorem f_rest (h : Interprets spec info token val negFix) (hinfo : ∀ op, 0 ≤ (info op).prec ∧ (info op).prec ≤ 9)
    {Sec : e → Prop} (havoid : Avoids spec Sec) {tok : Option t} {n : ℤ} {sec : e → e} (hsec : ∀ a, apop spec tok [a] = pure (sec a))
    (N : ℕ) : ∀ x₁ ts x rest, ts.length < N → parse1 info ⟨-1, .nonfix⟩ x₁ ts = some (x, rest) →
      (∀ s ∈ x₁.leftSpine, s ∈ x.leftSpine) ∧ ∀ ws, applications none ws = ts → Whole ws →
        (Tighter info n x → f spec ⟨[(tok, (.Prefix, n))], [val x₁], false⟩ (ws.map token) =
          f spec ⟨[(tok, (.Prefix, n))], [val x], false⟩ []) ∧
        (¬ Tighter info n x → Tighter info n x₁ →
          ∀ v, f spec ⟨[(tok, (.Prefix, n))], [val x₁], false⟩ (ws.map token) = .ok v → ¬ Sec v) := by
  induction N with
  | zero => exact fun _ _ _ _ hlt => absurd hlt (Nat.not_lt_zero _)
  | succ N ih =>
    intro x₁ ts x rest hlt hparse
    rcases parse1_some hparse with ⟨rfl, rfl, rfl⟩ | ⟨op2, r, rfl, horder, rfl, rfl⟩ | ⟨op2, r, x₂, r', rfl, horder, hx₂, hlen, hparse'⟩
    · refine ⟨fun s hs => hs, fun ws hws _ => ?_⟩
      rw [applications_nil hws]
      exact ⟨fun _ => rfl, fun hnot htight => absurd htight hnot⟩
    · rw [order_bottom (hinfo op2).1] at horder
      cases horder
    · rw [List.length_cons] at hlt
      obtain ⟨hspine, hrest⟩ := ih _ _ _ _ (by omega) hparse'
      have hop : some op2 ∈ x.leftSpine := hspine _ List.mem_cons_self
      refine ⟨fun s hs => hspine s (List.mem_cons_of_mem _ hs), fun ws hws hwhole => ?_⟩
      obtain ⟨ws, rfl, hr⟩ := applications_tOp hws
      by_cases hn : n < (info op2).prec
      · -- the operator leaves its operand, and the right operand of `op2` is read
        obtain ⟨hstops, hright⟩ := (shunt_parse [] h fun op => (hinfo op).2).1 _ _ _ _ hx₂
        obtain ⟨ws', hws', hwhole', hf⟩ := hright ws [(some (token (.op op2)), opPrec (info op2)), (tok, (.Prefix, n))] hr
          (hinfo op2).2 (by intro y hy; cases hy; exact .inl rfl) (fun _ w hw => by cases hw)
        rw [List.append_nil, List.append_nil] at hf
        have hgt : ∀ w ∈ ws'.head?, gt (opPrec (info op2)) (wordPrec info negFix w) = true :=
          gt_rest (fun op => gt_left) hwhole' (hws' ▸ hstops)
        have hstep : f spec ⟨[(tok, (.Prefix, n))], [val x₁], false⟩ ((Word.op op2 :: ws).map token) =
            f spec ⟨[(tok, (.Prefix, n))], [val (.opApp x₁ op2 x₂)], false⟩ (ws'.map token) := by
          rw [List.map_cons, f_op h, op_push (waits_front hn), hf]
          exact f_pop h (closes_operator h x₁ x₂ op2) hgt
        obtain ⟨hall, hfirst⟩ := hrest ws' hws' hwhole'
        rw [hstep]
        refine ⟨hall, fun hnot htight => hfirst hnot fun s hs => ?_⟩
        cases List.mem_cons.1 hs with
        | inl heq =>
          rw [heq]
          exact hn
        | inr hmem => exact htight s hmem
      · -- the operator takes what was read as its operand, and `op2` is at the bottom of the stack
        refine ⟨fun htight => absurd (htight _ hop) hn, fun _ _ v hv => ?_⟩
        have hcloses : Closes spec (tok, (.Prefix, n)) [val x₁] (sec (val x₁)) := .inl ⟨rfl, _, rfl, hsec _⟩
        have hgt : gt (.Prefix, n) (opPrec (info op2)) = true := by
          rw [opPrec]
          cases (info op2).fix <;> simpa [fixity, gt] using hn
        rw [List.map_cons, f_op h, ← List.append_nil [val x₁], op_pop hcloses hgt, op_push (by simp [Waits])] at hv
        exact f_bottom havoid _ _ ⟨_, rfl, opPrec_binary _⟩ hv

/-- An operator in front of a list that is resolved. -/
theorem shunt_front (h : Interprets spec info token val negFix) (hinfo : ∀ op, 0 ≤ (info op).prec ∧ (info op).prec ≤ 9)
    {Sec : e → Prop} (havoid : Avoids spec Sec) {op : o} {sec : e → e} (hsec : ∀ a, spec.operator (token (.op op)) [a] = pure (sec a))
    {ws : List (Word α o)} {x : OpExp α o} (hx : resolve info (applications none ws) = some x)
    (hneg : none ∈ x.leftSpine → (info op).prec < 6) :
    (Tighter info (info op).prec x → shunt spec ((Word.op op :: ws).map token) = pure (sec (val x))) ∧
      (¬ Tighter info (info op).prec x → ∀ v, shunt spec ((Word.op op :: ws).map token) = .ok v → ¬ Sec v) := by
  have hparse := resolve_some (fun op => (hinfo op).1) hx
  have hstart : shunt spec ((Word.op op :: ws).map token) =
      f spec ⟨[(some (token (.op op)), (.Prefix, (info op).prec))], [], true⟩ (ws.map token) := by
    rw [shunt, initialState, List.map_cons, f_prefix h]
  have hend : f spec ⟨[(some (token (.op op)), (.Prefix, (info op).prec))], [val x], false⟩ [] = pure (sec (val x)) := by
    have hcloses : Closes spec (some (token (.op op)), (.Prefix, (info op).prec)) [val x] (sec (val x)) := .inl ⟨rfl, _, rfl, hsec _⟩
    rw [f.eq_def]
    exact finish_pop hcloses
  have hapop : ∀ a, apop spec (some (token (.op op))) [a] = pure (sec a) := hsec
  rcases parseNeg_some hparse with ⟨e₁, r, hts, hrest⟩ | ⟨r, x₁, r', hts, hprec, hx₁, hlen, hrest⟩
  · obtain ⟨x₀, ws, rfl⟩ := applications_tExp hts
    have hop := (hinfo op).2
    have hwaits : Waits [(some (token (.op op)), ((.Prefix, (info op).prec) : Prec))] (.L, 10) :=
      waits_front (show (info op).prec < 10 by omega)
    obtain ⟨ws', y, happ, hwhole, hf⟩ := f_applications ws [] h (fun op => (hinfo op).2) hwaits (.var x₀)
    rw [List.append_nil, List.append_nil] at hf
    have heq : Token.tExp y :: applications none ws' = .tExp e₁ :: r := happ.symm.trans hts
    cases heq
    obtain ⟨-, hrun⟩ := f_rest h hinfo havoid hapop _ _ _ _ _ (Nat.lt_succ_self _) hrest
    obtain ⟨hall, hfirst⟩ := hrun ws' rfl hwhole
    rw [hstart, List.map_cons, f_operand h, hf]
    refine ⟨fun htight => (hall htight).trans hend, fun hnot v hv => hfirst hnot (fun s hs => ?_) v hv⟩
    rw [applications_spine happ rfl] at hs
    cases hs
  · obtain ⟨ws, rfl, hr⟩ := applications_tNeg hts
    have hwaits : Waits [(some (token (.op op)), ((.Prefix, (info op).prec) : Prec))] (.Prefix, 6) := by
      rintro ⟨tok, fix, n⟩ _
      exact ⟨by simp [gt], by rintro rfl; simp⟩
    obtain ⟨hstops, hnegation⟩ := (shunt_parse [] h fun op => (hinfo op).2).1 _ _ _ _ hx₁
    obtain ⟨ws', hws', hwhole', hf⟩ := hnegation ws [(some (token .neg), (.Prefix, 6)), (some (token (.op op)), (.Prefix, (info op).prec))]
      hr (by simp) (by intro y hy; cases hy; exact .inr ⟨rfl, rfl⟩) (fun _ w hw => by cases hw)
    rw [List.append_nil, List.append_nil] at hf
    have hgt : ∀ w ∈ ws'.head?, gt (.Prefix, 6) (wordPrec info negFix w) = true :=
      gt_rest (fun op => gt_neg) hwhole' (hws' ▸ hstops)
    obtain ⟨hspine, hrun⟩ := f_rest h hinfo havoid hapop _ _ _ _ _ (Nat.lt_succ_self _) hrest
    obtain ⟨hall, hfirst⟩ := hrun ws' hws' hwhole'
    rw [hstart, List.map_cons, f_neg h, op_push hwaits, hf,
      show val x₁ :: [] = [val x₁] ++ [] from rfl, f_pop h (closes_neg h x₁) hgt]
    refine ⟨fun htight => (hall htight).trans hend, fun hnot v hv => hfirst hnot (fun s hs => ?_) v hv⟩
    rw [List.mem_singleton.1 hs]
    exact hneg (hspine none (List.mem_singleton_self _))

/-- An operator behind a list that is resolved, and that binds tighter at its end. -/
theorem shunt_behind (h : Interprets spec info token val negFix) (hinfo : ∀ op, 0 ≤ (info op).prec ∧ (info op).prec ≤ 9)
    {op : o} {ws : List (Word α o)} {x : OpExp α o} (hx : LegalLeft info (applications none ws) op x) :
    shunt spec ((ws ++ [Word.op op]).map token) = spec.trailingOps (val x) (token (.op op)) := by
  have hends : Ends info negFix [.op op] x := by
    intro w hw s hs
    cases hw
    have horder := hx.2 s hs
    cases s with
    | none => exact gt_neg horder
    | some op' => exact gt_left horder
  have hfix := opPrec_binary (info op)
  rw [shunt_tail h hinfo hx.1 hends, List.map_cons, f_op h, op_push (by simp [Waits]), List.map_nil, f.eq_def]
  simp only [finish, if_neg hfix]
  exact bind_pure _

end

/-! ### Sections of expressions -/

section
variable {ism : SymbolMap}

theorem operator_pair (t a b : HsExp) : ∃ c : HsExp, operator t [a, b] = pure (.hsApp (.hsApp c (hsParen a)) (hsParen b)) := by
  generalize has : [a, b] = as
  fun_induction operator t as with
  | case1 as t ih => exact ih has
  | case2 v e => cases has
  | case3 t as =>
    subst has
    exact ⟨t, rfl⟩

theorem paren_operator_pair (t a b : HsExp) : ∃ c : HsExp, paren_operator t [a, b] = pure (.hsApp (.hsApp c (hsParen a)) (hsParen b)) := by
  generalize has : [a, b] = as
  fun_induction paren_operator t as with
  | case1 as t ih => exact ih has
  | case2 v e => cases has
  | case3 t e => cases has
  | case4 t as =>
    subst has
    exact operator_pair t a b

theorem paren_operator_total (t : HsExp) (as : List HsExp) : ∃ v, paren_operator t as = pure v := by
  fun_induction paren_operator t as with
  | case1 as t ih => exact ih
  | case2 v e => exact ⟨_, rfl⟩
  | case3 t e => exact ⟨_, rfl⟩
  | case4 t as => exact operator_total t as

theorem trailingOps_section (e t : HsExp) : ∃ c, trailingOps e t = pure (.hsLeftSection c (hsParen e)) := by
  fun_induction trailingOps e t with
  | case1 e t ih => exact ih
  | case2 e t => exact ⟨t, rfl⟩

/-- The form of a section with the operator in front. -/
def IsRightSection : HsExp → Prop
  | .hsRightSection _ _ => True
  | _ => False

theorem avoids_pexp : Avoids (pexpShuntSpec ism) IsRightSection where
  application a b v hv := by
    cases hv
    exact id
  operator t a b v hv := by
    obtain ⟨c, hc⟩ := paren_operator_pair t a b
    cases hc.symm.trans hv
    exact id
  trailing x t v hv := by
    obtain ⟨c, hc⟩ := trailingOps_section x t
    cases hc.symm.trans hv
    exact id
  equal p ts v hv := by cases hv

theorem interprets_pexp (hism : Declared ism) {a : HsAssoc} (hsub : ism.lookup v_sub = some (6, a)) :
    Interprets (pexpShuntSpec ism) (opInfo ism) expToken expTree (fixity ((assocInfo a).getD .leftfix)) where
  app_prec := rfl
  lookup_operand x := lookupToken_operand x.2
  lookup_op op := lookupToken_op hism op
  lookup_neg := (interprets_exp hism hsub).lookup_neg
  neg_infix := Interprets.neg_infix (interprets_exp hism hsub)
  lookup_unary _ := rfl
  application_val _ _ := rfl
  operator_op e₁ op e₂ := by
    cases op <;> rfl
  operator_neg x := rfl

theorem reads_pexp (hism : Declared ism) : Reads (pexpShuntSpec ism) (opInfo ism) tokenExp where
  app_prec := rfl
  lookup_operand x := ⟨x, lookupToken_operand x.2⟩
  lookup_op op := lookupToken_op hism op
  lookup_unary _ := rfl
  application_ok _ _ := ⟨_, rfl⟩
  operator_ok := paren_operator_total
  empty_fails := ⟨_, rfl⟩
  equal_fails _ _ := ⟨_, rfl⟩

theorem readWords_tokens (xs : List (Operand ⊕ OpName)) (b : Bool) : (readWords isNeg b xs).map expToken = xs.map tokenExp := by
  induction xs generalizing b with
  | nil => cases b <;> rfl
  | cons x xs ih =>
    cases x with
    | inl x =>
      rw [readWords, List.map_cons, ih, List.map_cons]
      rfl
    | inr op =>
      cases b with
      | false =>
        rw [readWords, List.map_cons, ih, List.map_cons]
        rfl
      | true =>
        rw [readWords, List.map_cons, ih, List.map_cons]
        split
        · next hneg =>
          cases op with
          | var n =>
            rw [eq_of_beq hneg]
            rfl
          | con n => cases hneg
        · rfl

/-- What the parser does with a parenthesised list is what the report says of a section that ends with `op`. -/
def LeftSectionRight (ism : SymbolMap) (xs : List (Operand ⊕ OpName)) (op : OpName) : Prop :=
  (∀ x, LegalLeft (opInfo ism) (applications none (readWords isNeg true xs)) op x →
    shunt (pexpShuntSpec ism) ((xs ++ [Sum.inr op]).map tokenExp) = pure (.hsLeftSection op.exp (hsParen (expTree x)))) ∧
  ((∀ x, ¬ LegalLeft (opInfo ism) (applications none (readWords isNeg true xs)) op x) →
    ∃ err, shunt (pexpShuntSpec ism) ((xs ++ [Sum.inr op]).map tokenExp) = .error err)

/-- The same of a section that starts with `op`. -/
def RightSectionRight (ism : SymbolMap) (op : OpName) (xs : List (Operand ⊕ OpName)) : Prop :=
  (∀ x, LegalRight (opInfo ism) op (applications none (readWords isNeg true xs)) x →
    shunt (pexpShuntSpec ism) ((Sum.inr op :: xs).map tokenExp) = pure (.hsRightSection (hsParen (expTree x)) op.exp)) ∧
  ((∀ x, ¬ LegalRight (opInfo ism) op (applications none (readWords isNeg true xs)) x) →
    ∃ err, shunt (pexpShuntSpec ism) ((Sum.inr op :: xs).map tokenExp) = .error err)

theorem awaitsOperand_operators {α o : Type} {xs : List (α ⊕ o)} (h : ∀ x ∈ xs, x.isRight) : awaitsOperand true xs = true := by
  induction xs with
  | nil => rfl
  | cons x xs ih =>
    rw [List.forall_mem_cons] at h
    cases x with
    | inl x => cases h.1
    | inr op => exact ih h.2

theorem shunt_fails_pexp (hism : Declared ism) (xs : List (Operand ⊕ OpName)) :
    (∃ err, shunt (pexpShuntSpec ism) (xs.map tokenExp) = .error err) ↔
      NonfixClash (operators (opInfo ism) true xs) ∨ ∀ x ∈ xs, x.isRight := by
  have htrailing : ∀ x t, ∃ v, (pexpShuntSpec ism).trailingOps x t = pure v := by
    intro x t
    obtain ⟨c, hc⟩ := trailingOps_section x t
    exact ⟨_, hc⟩
  rw [shunt_fails (reads_pexp hism) (fun op => (opInfo_prec hism op).2) (endFails_taken (reads_pexp hism) htrailing)]
  simp only [false_or]
  exact or_congr_right ⟨fun h => h.2, fun h => ⟨awaitsOperand_operators h, h⟩⟩

theorem legalLeft_section (hism : Declared ism) {a : HsAssoc} (hsub : ism.lookup v_sub = some (6, a))
    {xs : List (Operand ⊕ OpName)} {op : OpName} {x : OpExp Operand OpName}
    (hx : LegalLeft (opInfo ism) (applications none (readWords isNeg true xs)) op x) :
    shunt (pexpShuntSpec ism) ((xs ++ [Sum.inr op]).map tokenExp) = pure (.hsLeftSection op.exp (hsParen (expTree x))) := by
  have hrun := shunt_behind (interprets_pexp hism hsub) (opInfo_prec hism) hx
  have htrailing : (pexpShuntSpec ism).trailingOps (expTree x) (expToken (.op op)) = pure (.hsLeftSection op.exp (hsParen (expTree x))) := by
    cases op <;> rfl
  rw [htrailing, List.map_append, readWords_tokens] at hrun
  rw [List.map_append]
  exact hrun

theorem leftSectionRight_iff (hism : Declared ism) {a : HsAssoc} (hsub : ism.lookup v_sub = some (6, a))
    (xs : List (Operand ⊕ OpName)) (op : OpName) :
    LeftSectionRight ism xs op ↔
      (∃ x, LegalLeft (opInfo ism) (applications none (readWords isNeg true xs)) op x) ∨
        NonfixClash (operators (opInfo ism) true (xs ++ [.inr op])) ∨ ∀ x ∈ xs, x.isRight := by
  have hfails := shunt_fails_pexp hism (xs ++ [.inr op])
  have hright : (∀ x ∈ xs ++ [Sum.inr op], x.isRight) ↔ ∀ x ∈ xs, x.isRight := by simp [or_imp, forall_and]
  rw [hright] at hfails
  rw [← hfails]
  constructor
  · intro h
    obtain ⟨-, hreject⟩ := h
    by_cases hlegal : ∃ x, LegalLeft (opInfo ism) (applications none (readWords isNeg true xs)) op x
    · exact .inl hlegal
    · exact .inr (hreject fun x hx => hlegal ⟨x, hx⟩)
  · intro h
    refine ⟨fun x hx => legalLeft_section hism hsub hx, fun hnot => ?_⟩
    exact h.resolve_left fun hlegal => by
      obtain ⟨x, hx⟩ := hlegal
      exact hnot x hx

theorem operator_front {op : OpName} (hneg : isNeg op = false) (a : HsExp) :
    (pexpShuntSpec ism).operator (expToken (.op op)) [a] = pure (.hsRightSection (hsParen a) op.exp) := by
  cases op with
  | var n =>
    have hn : n ≠ v_sub := fun h => by simp [isNeg, h] at hneg
    show paren_operator (.hsVar n) [a] = _
    simp [paren_operator, hn, OpName.exp]
  | con n => rfl

theorem legalRight_neg {op : OpName} {ts : List (Token Operand OpName)} {x : OpExp Operand OpName}
    (hx : LegalRight (opInfo ism) op ts x) (hnone : none ∈ x.leftSpine) : (opInfo ism op).prec < 6 := by
  rcases order_right (hx.2 none hnone) with hlt | ⟨-, -, hfix⟩
  · exact hlt
  · cases hfix

theorem rightSectionRight_iff (hism : Declared ism) {a : HsAssoc} (hsub : ism.lookup v_sub = some (6, a)) {op : OpName}
    (hneg : isNeg op = false) (xs : List (Operand ⊕ OpName)) :
    RightSectionRight ism op xs ↔
      (∃ x, LegalRight (opInfo ism) op (applications none (readWords isNeg true xs)) x ∧ Tighter (opInfo ism) (opInfo ism op).prec x) ∨
        (∀ x, ¬ LegalRight (opInfo ism) op (applications none (readWords isNeg true xs)) x) ∧
          (NonfixClash (operators (opInfo ism) true (Sum.inr op :: xs)) ∨ ∀ x ∈ xs, x.isRight) := by
  have hfails := shunt_fails_pexp hism (Sum.inr op :: xs)
  rw [List.forall_mem_cons, and_iff_right (show (Sum.inr op : Operand ⊕ OpName).isRight = true from rfl)] at hfails
  rw [← hfails]
  have hfront : ∀ x, LegalRight (opInfo ism) op (applications none (readWords isNeg true xs)) x → _ := fun x hx =>
    shunt_front (interprets_pexp hism hsub) (opInfo_prec hism) avoids_pexp (operator_front hneg) hx.1 (legalRight_neg hx)
  rw [List.map_cons, readWords_tokens] at hfront
  constructor
  · intro h
    obtain ⟨haccept, hreject⟩ := h
    by_cases hlegal : ∃ x, LegalRight (opInfo ism) op (applications none (readWords isNeg true xs)) x
    · obtain ⟨x, hx⟩ := hlegal
      refine .inl ⟨x, hx, ?_⟩
      by_contra hnot
      exact (hfront x hx).2 hnot _ (haccept x hx) trivial
    · exact .inr ⟨fun x hx => hlegal ⟨x, hx⟩, hreject fun x hx => hlegal ⟨x, hx⟩⟩
  · intro h
    rcases h with ⟨x, hx, htight⟩ | ⟨hnone, hfail⟩
    · refine ⟨fun x' hx' => ?_, fun hnone => absurd hx (hnone x)⟩
      obtain rfl := Option.some.inj (hx.1.symm.trans hx'.1)
      exact (hfront x hx).1 htight
    · exact ⟨fun x hx => absurd hx (hnone x), fun _ => hfail⟩

/-- When a parenthesised list that ends or starts with an operator is read as the section that the
report makes of it, or rejected where it makes none. -/
theorem sections_iff (hism : Declared ism) {a : HsAssoc} (hsub : ism.lookup v_sub = some (6, a)) (op : OpName)
    (xs : List (Operand ⊕ OpName)) :
    (LeftSectionRight ism xs op ↔
      (∃ x, LegalLeft (opInfo ism) (applications none (readWords isNeg true xs)) op x) ∨
        NonfixClash (operators (opInfo ism) true (xs ++ [.inr op])) ∨ ∀ x ∈ xs, x.isRight) ∧
    (isNeg op = false → (RightSectionRight ism op xs ↔
      (∃ x, LegalRight (opInfo ism) op (applications none (readWords isNeg true xs)) x ∧
        ∀ s ∈ x.leftSpine, (opInfo ism op).prec < (spineInfo (opInfo ism) s).prec) ∨
        (∀ x, ¬ LegalRight (opInfo ism) op (applications none (readWords isNeg true xs)) x) ∧
          (NonfixClash (operators (opInfo ism) true (Sum.inr op :: xs)) ∨ ∀ x ∈ xs, x.isRight))) :=
  ⟨leftSectionRight_iff hism hsub xs op, fun hneg => rightSectionRight_iff hism hsub hneg xs⟩

/-! ### Products and sums -/

def arith : SymbolMap := [("*", 7, .hsAssocLeft), ("+", 6, .hsAssocLeft), (v_sub, 6, .hsAssocLeft)]

theorem declared_arith : Declared arith :=
  declared_cons (by decide) rfl (declared_cons (by decide) rfl (declared_cons (by decide) rfl declared_nil))

def nameExp (n : Name) : OpExp Operand OpName := .var ⟨.hsVar n, isOperator_hsVar n⟩

theorem resolve_pair (op : Name) (hop : (opInfo arith (.var op)).prec = 6 ∨ (opInfo arith (.var op)).prec = 7) :
    resolve (opInfo arith) (applications none (readWords isNeg true [operand "a", .inr (.var op), operand "b"])) =
      some (.opApp (nameExp "a") (.var op) (nameExp "b")) := by
  have horder : order ⟨-1, .nonfix⟩ (opInfo arith (.var op)) = .right := order_bottom (by omega)
  simp [readWords, operand, applications, resolve, parseNeg, parse1, horder, nameExp]

/-- `(a * b +)` and `(+ a * b)` -/
theorem sections_product : LeftSectionRight arith [operand "a", .inr (.var "*"), operand "b"] (.var "+") ∧
    RightSectionRight arith (.var "+") [operand "a", .inr (.var "*"), operand "b"] := by
  obtain ⟨hleft, hright⟩ := sections_iff declared_arith (a := .hsAssocLeft) rfl (.var "+") [operand "a", .inr (.var "*"), operand "b"]
  have hx := resolve_pair "*" (.inr rfl)
  refine ⟨hleft.2 (.inl ⟨_, hx, ?_⟩), (hright rfl).2 (.inl ⟨_, ⟨hx, ?_⟩, ?_⟩)⟩
  · simpa [OpExp.rightSpine, nameExp] using by decide
  · simpa [OpExp.leftSpine, nameExp] using by decide
  · simpa [OpExp.leftSpine, nameExp] using by decide

/-- `(a + b *)` and `(* a + b)` are not sections, and are taken. -/
theorem sections_sum_taken : ¬ LeftSectionRight arith [operand "a", .inr (.var "+"), operand "b"] (.var "*") ∧
    ¬ RightSectionRight arith (.var "*") [operand "a", .inr (.var "+"), operand "b"] := by
  have hx := resolve_pair "+" (.inl rfl)
  have hclash : ∀ ps : List Prec, (∀ p ∈ ps, p.1 ≠ .N) → ¬ NonfixClash ps := by
    intro ps hps
    induction ps with
    | nil => exact id
    | cons p ps ih =>
      rw [List.forall_mem_cons] at hps
      rintro (⟨hN, -⟩ | h)
      · exact hps.1 hN
      · exact ih hps.2 h
  constructor
  · rw [leftSectionRight_iff declared_arith (a := .hsAssocLeft) rfl]
    rintro (⟨x, hres, hspine⟩ | h | h)
    · obtain rfl := Option.some.inj (hx.symm.trans hres)
      exact absurd (hspine (some (.var "+")) (by simp [OpExp.rightSpine])) (by decide)
    · exact hclash _ (by decide) h
    · exact absurd (h (operand "a") (by simp)) (by decide)
  · rw [rightSectionRight_iff declared_arith (a := .hsAssocLeft) rfl rfl]
    rintro (⟨x, ⟨hres, hspine⟩, -⟩ | ⟨-, h | h⟩)
    · obtain rfl := Option.some.inj (hx.symm.trans hres)
      exact absurd (hspine (some (.var "+")) (by simp [OpExp.leftSpine])) (by decide)
    · exact hclash _ (by decide) h
    · exact absurd (h (operand "a") (by simp)) (by decide)

end

end Jhc.FrontEnd

import Mathlib
import Jhc.C.Statements

/-!
# The statements keep their control flow

Putting sequences together and pulling labels only makes tidying steps, so that the executions of
the plain concatenation are kept, however the calls of `mappend` are bracketed.
-/

namespace Jhc.Generate

open Jhc.Lib.Jumps

variable {Act E K Name σ : Type}

/-! ### The recursion of `pairOpt` -/

section
variable {s : Type} {peep : s → s → Option s}

theorem pairOptSteps_nil_left (n : ℕ) (bs : List s) : pairOptSteps peep n [] bs = bs := by
  cases n <;> rfl

theorem pairOptSteps_nil_right (n : ℕ) (as : List s) : pairOptSteps peep n as [] = as := by
  cases n <;> simp [pairOptSteps]

theorem pairOptSteps_some {a b ab : s} (h : peep a b = some ab) (n : ℕ) (as bs : List s) :
    pairOptSteps peep (n + 1) (as ++ [a]) (b :: bs) = pairOptSteps peep n (pairOptSteps peep n as [ab]) bs := by
  simp [pairOptSteps, h]

theorem pairOptSteps_none {a b : s} (h : peep a b = none) (n : ℕ) (as bs : List s) :
    pairOptSteps peep n (as ++ [a]) (b :: bs) = as ++ [a] ++ b :: bs := by
  cases n <;> simp [pairOptSteps, h]

theorem meet_cases (as bs : List s) : as = [] ∨ bs = [] ∨ ∃ as' a b bs', as = as' ++ [a] ∧ bs = b :: bs' := by
  rcases List.eq_nil_or_concat as with has | ⟨as', a, has⟩
  · exact .inl has
  · cases bs with
    | nil => exact .inr (.inl rfl)
    | cons b bs' => exact .inr (.inr ⟨as', a, b, bs', has.trans List.concat_eq_append, rfl⟩)

theorem length_pairOptSteps (n : ℕ) (as bs : List s) : (pairOptSteps peep n as bs).length ≤ as.length + bs.length := by
  induction n generalizing as bs with
  | zero => simp [pairOptSteps]
  | succ n ih =>
    rcases meet_cases as bs with rfl | rfl | ⟨as, a, b, bs, rfl, rfl⟩
    · rw [pairOptSteps_nil_left]
      omega
    · rw [pairOptSteps_nil_right]
      omega
    · cases h : peep a b with
      | none =>
        rw [pairOptSteps_none h, List.length_append]
      | some ab =>
        have hinner := ih as [ab]
        have houter := ih (pairOptSteps peep n as [ab]) bs
        rw [pairOptSteps_some h]
        simp only [List.length_append, List.length_cons, List.length_nil] at hinner ⊢
        omega

theorem pairOptSteps_succ (n : ℕ) (as bs : List s) (hn : as.length + bs.length ≤ n) :
    pairOptSteps peep (n + 1) as bs = pairOptSteps peep n as bs := by
  induction n generalizing as bs with
  | zero =>
    have has : as = [] := List.length_eq_zero_iff.1 (by omega)
    rw [has, pairOptSteps_nil_left, pairOptSteps_nil_left]
  | succ n ih =>
    rcases meet_cases as bs with rfl | rfl | ⟨as, a, b, bs, rfl, rfl⟩
    · rw [pairOptSteps_nil_left, pairOptSteps_nil_left]
    · rw [pairOptSteps_nil_right, pairOptSteps_nil_right]
    · cases h : peep a b with
      | none => rw [pairOptSteps_none h, pairOptSteps_none h]
      | some ab =>
        have hlen : (pairOptSteps peep n as [ab]).length ≤ as.length + [ab].length := length_pairOptSteps n as [ab]
        simp only [List.length_append, List.length_cons, List.length_nil] at hn hlen
        have hinner := ih as [ab] (by simp only [List.length_cons, List.length_nil]; omega)
        rw [pairOptSteps_some h, pairOptSteps_some h, hinner]
        exact ih _ bs (by omega)

theorem pairOptSteps_enough {n : ℕ} {as bs : List s} (hn : as.length + bs.length ≤ n) : pairOptSteps peep n as bs = pairOpt peep as bs := by
  induction n, hn using Nat.le_induction with
  | base => rfl
  | succ n hn ih => rw [pairOptSteps_succ n as bs hn, ih]

/-- The equation of the source: the two that meet become one, which meets what is before it. -/
theorem pairOpt_some {a b ab : s} (h : peep a b = some ab) (as bs : List s) :
    pairOpt peep (as ++ [a]) (b :: bs) = pairOpt peep (pairOpt peep as [ab]) bs := by
  have hlen : (pairOpt peep as [ab]).length ≤ as.length + 1 := length_pairOptSteps (as.length + 1) as [ab]
  have hinner : pairOptSteps peep (as.length + 1 + bs.length) as [ab] = pairOpt peep as [ab] :=
    pairOptSteps_enough (by rw [List.length_singleton]; omega)
  rw [pairOpt, List.length_append, List.length_singleton, List.length_cons, ← Nat.add_assoc, pairOptSteps_some h, hinner]
  exact pairOptSteps_enough (Nat.add_le_add_right hlen bs.length)

theorem pairOpt_none {a b : s} (h : peep a b = none) (as bs : List s) : pairOpt peep (as ++ [a]) (b :: bs) = as ++ [a] ++ b :: bs :=
  pairOptSteps_none h _ as bs

end

/-! ### Putting together and pulling -/

section
variable [DecidableEq Name]

theorem stmtPairOpt_tidies {a b ab : CStmt Act E K Name} (h : stmtPairOpt a b = some ab) (post : Statement Act E K Name) :
    Tidies (a :: b :: post) (ab :: post) := by
  cases a with
  | goto l =>
    cases b with
    | label l' =>
      rw [stmtPairOpt] at h
      split_ifs at h with hl
      subst hl
      obtain rfl := Option.some.inj h
      exact .jumpNext l post
    | _ => obtain rfl := Option.some.inj h; exact .afterJump l _ post rfl
  | ret e =>
    cases b with
    | label l' => cases h
    | _ => obtain rfl := Option.some.inj h; exact .afterRet e _ post rfl
  | _ => cases h

theorem pairOptSteps_tidies (n : ℕ) (as bs : Statement Act E K Name) : TidiesTo (as ++ bs) (pairOptSteps stmtPairOpt n as bs) := by
  induction n generalizing as bs with
  | zero => exact .refl
  | succ n ih =>
    rcases meet_cases as bs with rfl | rfl | ⟨as, a, b, bs, rfl, rfl⟩
    · rw [pairOptSteps_nil_left, List.nil_append]
    · rw [pairOptSteps_nil_right, List.append_nil]
    · cases h : stmtPairOpt a b with
      | none =>
        rw [pairOptSteps_none h]
      | some ab =>
        have hpair := TidiesTo.append_left as (.single (stmtPairOpt_tidies h bs))
        have hinner := TidiesTo.append_right (ih as [ab]) bs
        rw [pairOptSteps_some h]
        rw [List.append_assoc, List.singleton_append] at hinner ⊢
        exact (hpair.trans hinner).trans (ih _ bs)

theorem mappend_tidies (as bs : Statement Act E K Name) : TidiesTo (as ++ bs) (mappend as bs) := pairOptSteps_tidies _ as bs

theorem mconcat_tidies (ss : List (Statement Act E K Name)) : TidiesTo ss.flatten (mconcat ss) := by
  induction ss with
  | nil => exact .refl
  | cons s ss ih => exact (TidiesTo.append_left s ih).trans (mappend_tidies s _)

end

/-- What is pulled is the labels at the end. -/
theorem labelPullFrom_eq (ss rr : Statement Act E K Name) :
    ∃ ls : List Name, (labelPullFrom ss rr).2 = ls.map Stmt.label ++ rr ∧ ss.reverse = (labelPullFrom ss rr).1 ++ ls.map Stmt.label := by
  fun_induction labelPullFrom ss rr with
  | case1 l ss rr ih =>
    obtain ⟨ls, hpulled, hrest⟩ := ih
    refine ⟨ls ++ [l], ?_, ?_⟩
    · rw [hpulled, List.map_append, List.append_assoc]
      rfl
    · rw [List.reverse_cons, hrest, List.map_append, List.append_assoc]
      rfl
  | case2 ss rr => exact ⟨[], rfl, (List.append_nil _).symm⟩

theorem labelPull_eq (ss : Statement Act E K Name) :
    ∃ ls : List Name, (labelPull ss).2 = ls.map Stmt.label ∧ ss = (labelPull ss).1 ++ ls.map Stmt.label := by
  obtain ⟨ls, hpulled, hrest⟩ := labelPullFrom_eq ss.reverse []
  rw [List.append_nil] at hpulled
  rw [List.reverse_reverse] at hrest
  exact ⟨ls, hpulled, hrest⟩

/-- The labels of all the branches, those of the last one first. -/
theorem labelPull_tidies (h : Head E K) (pre ss : List (Statement Act E K Name)) (post : Statement Act E K Name) :
    TidiesTo (.branch h (pre ++ ss) :: post)
      (.branch h (pre ++ ss.map fun s => (labelPull s).1) :: ((ss.map fun s => (labelPull s).2).flatten ++ post)) := by
  induction ss generalizing pre with
  | nil => exact .refl
  | cons s ss ih =>
    have hrest := ih (pre ++ [s])
    obtain ⟨ls, hpulled, hs⟩ := labelPull_eq s
    have hpull := TidiesTo.pull h pre (ss.map fun s => (labelPull s).1) (labelPull s).1 ls ((ss.map fun s => (labelPull s).2).flatten ++ post)
    rw [← hs, ← hpulled] at hpull
    rw [List.append_assoc, List.append_assoc] at hrest
    rw [List.map_cons, List.map_cons, List.flatten_cons, List.append_assoc]
    exact hrest.trans hpull

section
variable [DecidableEq Name]

theorem subBlock_tidies (st : Statement Act E K Name) : TidiesTo [sBlock st] (subBlock st) := by
  have hpull : TidiesTo [sBlock st] ([sBlock (labelPull st).1] ++ (labelPull st).2) := by
    simpa [sBlock] using labelPull_tidies .block [] [st] []
  exact hpull.trans (mappend_tidies [sBlock (labelPull st).1] (labelPull st).2)

theorem cif_tidies (exp : E) (thn els : Statement Act E K Name) : TidiesTo [sIf exp thn els] (cif exp thn els) := by
  have hpull : TidiesTo [sIf exp thn els] ([sIf exp (labelPull thn).1 (labelPull els).1] ++ (labelPull thn).2 ++ (labelPull els).2) := by
    simpa [sIf] using labelPull_tidies (.cif exp) [] [thn, els] []
  have hthn := mappend_tidies [sIf exp (labelPull thn).1 (labelPull els).1] (labelPull thn).2
  have hels := mappend_tidies (mappend [sIf exp (labelPull thn).1 (labelPull els).1] (labelPull thn).2) (labelPull els).2
  exact (hpull.trans (TidiesTo.append_right hthn (labelPull els).2)).trans hels

theorem switch_tidies (e : E) (es : List (Option K × Statement Act E K Name)) : TidiesTo [sSwitch e es] (switch' e es) := by
  have hpull : TidiesTo [sSwitch e es]
      ([sSwitch e (es.map fun cs => (cs.1, (labelPull cs.2).1))] ++ (es.map fun cs => (labelPull cs.2).2).flatten) := by
    simpa [sSwitch, Function.comp_def] using labelPull_tidies (.switch e (es.map Prod.fst)) [] (es.map Prod.snd) []
  have hlabels := mconcat_tidies (es.map fun cs => (labelPull cs.2).2)
  exact (hpull.trans (TidiesTo.append_left _ hlabels)).trans (mappend_tidies _ _)

/-! ### All the calls -/

theorem optCases_fst (es : List (Option K × Term Act E K Name)) : (optCases es).map Prod.fst = (plainCases es).map Prod.fst := by
  induction es with
  | nil => rfl
  | cons c es ih => rw [optCases, plainCases, List.map_cons, List.map_cons, ih]

mutual

theorem Term.opt_tidies : ∀ t : Term Act E K Name, TidiesTo t.plain t.opt
  | .mempty => .refl
  | .sd _ => .refl
  | .label _ => .refl
  | .goto _ => .refl
  | .creturn _ => .refl
  | .mappend s t => (TidiesTo.append s.opt_tidies t.opt_tidies).trans (mappend_tidies s.opt t.opt)
  | .cif exp thn els => by
    have hbranches : TidiesTo [sIf exp thn.plain els.plain] [sIf exp thn.opt els.opt] :=
      TidiesTo.branches (Head.cif exp) (.cons thn.opt_tidies (.cons els.opt_tidies .nil)) [] []
    exact hbranches.trans (cif_tidies exp thn.opt els.opt)
  | .switch' e es => by
    have hbranches := TidiesTo.branches (.switch e ((optCases es).map Prod.fst)) (optCases_tidies es) [] []
    rw [Term.plain, sSwitch, ← optCases_fst]
    exact hbranches.trans (switch_tidies e (optCases es))
  | .subBlock st => by
    have hbranches : TidiesTo [sBlock st.plain] [sBlock st.opt] := TidiesTo.branches Head.block (.cons st.opt_tidies .nil) [] []
    exact hbranches.trans (subBlock_tidies st.opt)

theorem optCases_tidies : ∀ es : List (Option K × Term Act E K Name),
    List.Forall₂ TidiesTo ((plainCases es).map Prod.snd) ((optCases es).map Prod.snd)
  | [] => .nil
  | (_, t) :: es => .cons t.opt_tidies (optCases_tidies es)

end

/-! ### How the calls are bracketed -/

omit [DecidableEq Name] in
theorem plainCases_append (es fs : List (Option K × Term Act E K Name)) : plainCases (es ++ fs) = plainCases es ++ plainCases fs := by
  induction es with
  | nil => rfl
  | cons c es ih => rw [List.cons_append, plainCases, plainCases, ih, List.cons_append]

omit [DecidableEq Name] in
theorem Hole.plain_fill (C : Hole Act E K Name) {x y : Term Act E K Name} (h : x.plain = y.plain) : (C.fill x).plain = (C.fill y).plain := by
  induction C with
  | here => exact h
  | mappendLeft C t ih => rw [Hole.fill, Hole.fill, Term.plain, Term.plain, ih]
  | mappendRight s C ih => rw [Hole.fill, Hole.fill, Term.plain, Term.plain, ih]
  | cifThen exp C els ih => rw [Hole.fill, Hole.fill, Term.plain, Term.plain, ih]
  | cifElse exp thn C ih => rw [Hole.fill, Hole.fill, Term.plain, Term.plain, ih]
  | switchCase e es c C fs ih =>
    rw [Hole.fill, Hole.fill, Term.plain, Term.plain, plainCases_append, plainCases_append, plainCases, plainCases, ih]
  | subBlock C ih => rw [Hole.fill, Hole.fill, Term.plain, Term.plain, ih]

/-- The statement has the executions of the plain concatenation and keeps the label of each jump, and
no other bracketing of a `mappend` in it changes what it does. -/
theorem Term.executions_kept (t : Term Act E K Name) (hunique : (labels t.plain).Nodup) (hreach : InReach t.plain) :
    (∀ (σ : Type) (M : Machine Act E K σ) (s : σ), executions M.interp t.opt s = executions M.interp t.plain s) ∧
    (∀ l ∈ gotos t.opt, l ∈ labels t.opt) ∧
    (∀ (C : Hole Act E K Name) (x y z : Term Act E K Name), t = C.fill (.mappend (.mappend x y) z) →
      ∀ (σ : Type) (M : Machine Act E K σ) (s : σ),
        executions M.interp (C.fill (.mappend x (.mappend y z))).opt s = executions M.interp t.opt s) := by
  have hopt : ∀ (σ : Type) (M : Machine Act E K σ) (s : σ), executions M.interp t.opt s = executions M.interp t.plain s :=
    fun σ M s => t.opt_tidies.executions_eq M.interp hunique hreach s
  refine ⟨hopt, (t.opt_tidies.kept hunique hreach).2.gotos_subset, ?_⟩
  intro C x y z ht σ M s
  have hplain : (C.fill (.mappend x (.mappend y z))).plain = t.plain := by
    rw [ht]
    exact C.plain_fill (List.append_assoc x.plain y.plain z.plain).symm
  rw [hopt, ← hplain]
  refine TidiesTo.executions_eq (Term.opt_tidies _) M.interp ?_ ?_ s
  · rw [hplain]
    exact hunique
  · rw [hplain]
    exact hreach

end

/-- A `Let` with one local function, as `convertBody` puts it together: a jump to it and a jump past it in
the branches of an `if`, and the label behind everything pulled out of a block. -/
def letTwice : Term ℕ ℕ ℕ ℕ :=
  .mappend (.mappend (.mappend (.cif 0 (.goto 1) (.mappend (.sd 0) (.label 3))) (.goto 2))
    (.mappend (.mappend (.sd 1) (.label 1)) (.subBlock (.mappend (.sd 2) (.goto 2))))) (.label 2)

def countMachine : Machine ℕ ℕ ℕ ℕ where
  act a s := a + s
  truth _ s := s == 0
  isCase e k _ := e == k

theorem letTwice_kept :
    executions countMachine.interp letTwice.opt 0 = executions countMachine.interp letTwice.plain 0 ∧
    letTwice.opt = [sIf 0 [.goto 1] [.act 0], .label 3, .goto 2, .label 1, sBlock [.act 2, .goto 2], .label 2] := by
  refine ⟨(Term.executions_kept letTwice (by decide) ?_).1 ℕ countMachine 0, rfl⟩
  simp [InReach, letTwice, Term.plain, sIf, sBlock, topLabels, Scoped, Stmt.Scoped, BranchesScoped]

end Jhc.Generate

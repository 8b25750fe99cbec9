import Mathlib.Data.Fintype.Prod
import Jhc.Fixer.Rules

/-!
# Runs of the solver

Values and rules are added in any order, with calls of `findFixpoint` in between.
When a call returns, the rules that distribute hold of the final values.
-/

namespace Jhc.Fixpoint
open Fixable LawfulFixable Jhc.Lib

variable {κ : Type} {L : κ → Type} [∀ k, SemilatticeSup (L k)] [∀ k, OrderBot (L k)]

/-! ### From carried out actions to rules -/

section Laws

variable [∀ k, Fixable (L k)] [∀ k, LawfulFixable (L k)] {s : Fixer L}

theorem addAction_holds {k : κ} {v : Value (L k)} {act : L k → Act L} {φ : L k → Prop}
    (hcom : Committed s [] (addAction v act)) (hφ : ∀ x, Committed s [] (act x) → φ x)
    (hv : v.isConst = true ∨ Respects φ) : φ (v.read s.current) := by
  induction v with
  | ioValue v ih => exact ih hcom hv
  | unionValue a b iha ihb =>
    have hresp : Respects φ := by
      rcases hv with hconst | hresp
      · cases hconst
      · exact hresp
    show φ (lub (a.read s.current) (b.read s.current))
    rw [lub_eq]
    exact hresp.sup _ _ (iha hcom.1 (Or.inr hresp)) (ihb hcom.2 (Or.inr hresp))
  | constValue x => exact hφ x hcom
  | iv rv =>
    obtain ⟨-, ds, hjoin, hds⟩ := hcom
    rcases hv with hconst | hresp
    · cases hconst
    · have hall : ∀ d ∈ ds, φ d := by
        intro d hd
        rcases hds d hd with hnil | hcom
        · exact absurd hnil List.not_mem_nil
        · exact hφ d hcom
      show φ (s.current k rv)
      rw [← hjoin]
      exact hresp.joinOf hall

omit [∀ k, Fixable (L k)] [∀ k, LawfulFixable (L k)] in
/-- Without dirty values what has been propagated has arrived. -/
theorem arrived (hclean : ∀ v, ¬ Dirty s v) {k : κ} {p : L k} {rv : ℕ}
    (hcom : Committed s [] (.propagate k p rv)) : p ≤ s.current k rv := by
  have hle : p ≤ s.current k rv ⊔ s.pending k rv := hcom
  rwa [sup_eq_left.mpr (not_not.mp (hclean (k, rv)))] at hle

theorem isSuperSetOf_holds (hclean : ∀ v, ¬ Dirty s v) {k : κ} {dst src : Value (L k)}
    (hcom : Committed s [] (isSuperSetOf dst src)) :
    lte (src.read s.current) (dst.read s.current) = true := by
  induction dst with
  | ioValue v ih => exact ih hcom
  | unionValue a b => exact absurd hcom not_false
  | constValue x =>
    cases src with
    | constValue y =>
      unfold isSuperSetOf at hcom
      split_ifs at hcom with hlte
      · exact hlte
      · exact absurd hcom not_false
    | ioValue v => exact absurd hcom not_false
    | unionValue a b => exact absurd hcom not_false
    | iv rv => exact absurd hcom not_false
  | iv rv =>
    have hadd : isSuperSetOf (.iv rv) src = addAction src fun x => .propagate k x rv := by
      cases src <;> rfl
    rw [hadd] at hcom
    rw [lte_iff]
    exact addAction_holds (φ := fun x => x ≤ s.current k rv) hcom (fun x hx => arrived hclean hx)
      (Or.inr ⟨bot_le, fun _ _ ha hb => sup_le ha hb⟩)

theorem modifiedSuperSetOf_holds (hclean : ∀ v, ¬ Dirty s v) {k j : κ} {dst : Value (L j)}
    {src : Value (L k)} {r : L k → L j}
    (hr : src.isConst = true ∨ r ⊥ = ⊥ ∧ ∀ a b, r (a ⊔ b) ≤ r a ⊔ r b)
    (hcom : Committed s [] (modifiedSuperSetOf dst src r)) :
    lte (r (src.read s.current)) (dst.read s.current) = true := by
  induction dst with
  | ioValue v ih => exact ih hcom
  | unionValue a b => exact absurd hcom not_false
  | constValue x =>
    cases src with
    | constValue y =>
      unfold modifiedSuperSetOf at hcom
      split_ifs at hcom with hlte
      · exact hlte
      · exact absurd hcom not_false
    | ioValue v => exact absurd hcom not_false
    | unionValue a b => exact absurd hcom not_false
    | iv rv => exact absurd hcom not_false
  | iv rv =>
    have hadd : modifiedSuperSetOf (.iv rv) src r = addAction src fun x => .propagate j (r x) rv := by
      cases src <;> rfl
    rw [hadd] at hcom
    rw [lte_iff]
    refine addAction_holds (φ := fun x => r x ≤ s.current j rv) hcom (fun x hx => arrived hclean hx) ?_
    rcases hr with hconst | ⟨hbot, hsup⟩
    · exact Or.inl hconst
    · refine Or.inr ⟨?_, fun a b ha hb => (hsup a b).trans (sup_le ha hb)⟩
      rw [hbot]
      exact bot_le

theorem rule_holds (hclean : ∀ v, ¬ Dirty s v) {r : Rule L} (hr : r.Distributes)
    (hcom : Committed s [] r.unRule) : r.Holds s.current := by
  induction r with
  | isSuperSetOf k dst src => exact isSuperSetOf_holds hclean hcom
  | modifiedSuperSetOf k j dst src r => exact modifiedSuperSetOf_holds hclean hr hcom
  | conditionalRule k cond v rule ih =>
    obtain ⟨hrule, hcond⟩ := hr
    have hact : ∀ x, Committed s [] (if cond x then rule.unRule else .done) →
        cond x = true → rule.Holds s.current := by
      intro x hx htrue
      rw [if_pos htrue] at hx
      exact ih hrule hx
    refine addAction_holds hcom hact ?_
    rcases hcond with hconst | ⟨hbot, hsup⟩
    · exact Or.inl hconst
    · refine Or.inr ⟨fun htrue => ?_, fun a b ha hb htrue => ?_⟩
      · rw [hbot] at htrue
        cases htrue
      · rcases hsup a b htrue with h | h
        · exact ha h
        · exact hb h
  | dynamicRule k v dr ih =>
    obtain ⟨hall, hv⟩ := hr
    refine addAction_holds (φ := fun x => (dr x).Holds s.current) hcom
      (fun x hx => ih x (hall x) hx) ?_
    rcases hv with hconst | hresp
    · exact Or.inl hconst
    · exact Or.inr (hresp s.current)
  | mempty => trivial
  | mappend a b iha ihb => exact ⟨iha hr.1 hcom.1, ihb hr.2 hcom.2⟩

end Laws

/-! ### Runs -/

/-- A solver with the rules that have been added to it. -/
structure Session (L : κ → Type) where
  fixer : Fixer L
  rules : List (Rule L)

inductive FixerEvent (L : κ → Type) where
  | newValue (k : κ) (v : L k)
  | addRule (r : Rule L)
  | findFixpoint (fuel : ℕ)

namespace Session

variable [DecidableEq κ] [∀ k, Fixable (L k)]

def Init (s : Session L) : Prop := s = ⟨newFixer L, []⟩

def Step (s : Session L) : FixerEvent L → Session L → Prop
  | .newValue k v, s' => s' = ⟨(Fixpoint.newValue k v s.fixer).2, s.rules⟩
  | .addRule r, s' => ∃ f, Fixpoint.addRule r s.fixer = some f ∧ s' = ⟨f, r :: s.rules⟩
  | .findFixpoint fuel, s' => ∃ f, Fixpoint.findFixpoint fuel s.fixer = some f ∧ s' = ⟨f, s.rules⟩

/-- The rules that are added distribute. -/
def RuleOk (_ : Session L) : FixerEvent L → Prop
  | .addRule r => r.Distributes
  | _ => True

/-- The rules are as the comments on the functions ask. -/
def AsDocumented : Rule L → Prop
  | .isSuperSetOf .. => True
  | .modifiedSuperSetOf _ _ _ _ r => Monotone r
  | .conditionalRule _ cond _ rule => (∀ a b, a ≤ b → cond a = true → cond b = true) ∧ AsDocumented rule
  | .dynamicRule _ _ dr => ∀ x, AsDocumented (dr x)
  | .mempty => True
  | .mappend a b => AsDocumented a ∧ AsDocumented b

/-- The added rules are carried out but for the increments of the values to do. -/
structure Inv (s : Session L) : Prop where
  distributes : ∀ r ∈ s.rules, r.Distributes
  committed : ∀ r ∈ s.rules, Committed s.fixer [] r.unRule
  dirty : ∀ v, Dirty s.fixer v → v ∈ s.fixer.todo

omit [DecidableEq κ] in
theorem inv_init {s : Session L} (h : s.Init) : s.Inv := by
  subst h
  refine ⟨fun r hr => absurd hr List.not_mem_nil, fun r hr => absurd hr List.not_mem_nil,
    fun v hv => absurd le_rfl hv⟩

omit [DecidableEq κ] in
theorem Inv.later {s : Session L} (h : s.Inv) {f : Fixer L} (hlater : Later s.fixer f) :
    (∀ r ∈ s.rules, Committed f [] r.unRule) ∧ ∀ v, Dirty f v → v ∈ f.todo := by
  refine ⟨fun r hr => ?_, fun v hv => ?_⟩
  · exact (h.committed r hr).mono hlater.current hlater.action hlater.pending fun c hc => Or.inl hc
  · rcases later_dirty hlater hv with hold | hin
    · exact hlater.todo v (h.dirty v hold)
    · exact hin

variable [∀ k, LawfulFixable (L k)]

theorem inv_step {s s' : Session L} {e : FixerEvent L} (h : s.Inv)
    (hstep : Guarded RuleOk Step s e s') : s'.Inv := by
  obtain ⟨hok, hstep⟩ := hstep
  cases e with
  | newValue k v =>
    cases hstep
    have hlater : Later s.fixer (Fixpoint.newValue k v s.fixer).2 := by
      have hmade : Later s.fixer { s.fixer with vars := (k, s.fixer.vars.length) :: s.fixer.vars } :=
        ⟨rfl, fun _ _ _ h => h, fun _ _ => le_rfl, fun _ h => h, fun _ _ => Or.inl rfl⟩
      exact hmade.trans (propagate_later ..)
    obtain ⟨hcom, hdirty⟩ := h.later hlater
    exact ⟨h.distributes, hcom, hdirty⟩
  | addRule r =>
    obtain ⟨f, hrun, rfl⟩ := hstep
    obtain ⟨hlater, hnew⟩ := run_later [] hrun
    obtain ⟨hcom, hdirty⟩ := h.later hlater
    refine ⟨fun r' hr' => ?_, fun r' hr' => ?_, hdirty⟩
    · rcases List.mem_cons.mp hr' with rfl | hin
      · exact hok
      · exact h.distributes r' hin
    · rcases List.mem_cons.mp hr' with rfl | hin
      · exact hnew
      · exact hcom r' hin
  | findFixpoint fuel =>
    obtain ⟨f, hrun, rfl⟩ := hstep
    have hcs : ∀ c, (∃ r ∈ s.rules, c = r.unRule) → Committed s.fixer [] c := by
      rintro c ⟨r, hr, rfl⟩
      exact h.committed r hr
    obtain ⟨hcom, hclean⟩ := findFixpoint_spec hcs h.dirty hrun
    exact ⟨h.distributes, fun r hr => hcom _ ⟨r, hr, rfl⟩, fun v hv => absurd hv (hclean v)⟩

theorem inv_reach {s : Session L} (h : Reach Init (Guarded RuleOk Step) s) : s.Inv :=
  h.invariant (fun _ hinit => inv_init hinit) fun _ _ _ hinv hstep => inv_step hinv hstep

end Session

/-- When `findFixpoint` returns, every rule that was added holds of the values. -/
theorem fixpoint_rules_hold [DecidableEq κ] [∀ k, Fixable (L k)] [∀ k, LawfulFixable (L k)]
    (s : Session L) (h : Reach Session.Init (Guarded Session.RuleOk Session.Step) s) (fuel : ℕ)
    (f : Fixer L) (hrun : findFixpoint fuel s.fixer = some f) :
    ∀ r ∈ s.rules, r.Holds f.current := by
  have hinv := Session.inv_reach h
  have hcs : ∀ c, (∃ r ∈ s.rules, c = r.unRule) → Committed s.fixer [] c := by
    rintro c ⟨r, hr, rfl⟩
    exact hinv.committed r hr
  obtain ⟨hcom, hclean⟩ := findFixpoint_spec hcs hinv.dirty hrun
  intro r hr
  exact rule_holds hclean (hinv.distributes r hr) (hcom _ ⟨r, hr, rfl⟩)

/-! ### A conjunction of two increments -/

/-- Pairs of booleans, the values of one solver. -/
abbrev Pairs : Unit → Type := fun _ => Bool × Bool

def both (x : Bool × Bool) : Bool × Bool := (x.1 && x.2, false)

def swapped (x : Bool × Bool) : Bool × Bool := (x.2, x.1)

/-- Value 0 takes the values of 0 and 2 together, and value 1 has to be above `r`
of value 0. -/
def twoIncrements (r : Bool × Bool → Bool × Bool) : Session Pairs :=
  let f := (newValue () (true, false) (newFixer Pairs)).2
  let f := (newValue () (false, false) f).2
  let f := (newValue () (false, true) f).2
  let modified : Rule Pairs := .modifiedSuperSetOf () () (.iv 1) (.iv 0) r
  let super : Rule Pairs := .isSuperSetOf () (.iv 0) (.iv 2)
  let f := (addRule modified f).getD f
  let f := (addRule super f).getD f
  ⟨f, [super, modified]⟩

theorem twoIncrements_reach (r : Bool × Bool → Bool × Bool) (ok : Session Pairs → FixerEvent Pairs → Prop)
    (hok : ∀ s e, (∀ rule, e = .addRule rule → rule ∈ (twoIncrements r).rules) → ok s e) :
    Reach Session.Init (Guarded ok Session.Step) (twoIncrements r) := by
  have hsilent : ∀ s (v : Bool × Bool), ok s (.newValue () v) := fun s v =>
    hok s _ fun rule h => by cases h
  refine .step (.step (.step (.step (.step (.start rfl) ⟨hsilent _ (true, false), rfl⟩)
    ⟨hsilent _ (false, false), rfl⟩) ⟨hsilent _ (false, true), rfl⟩)
    (e := .addRule (.modifiedSuperSetOf () () (.iv 1) (.iv 0) r)) ⟨hok _ _ ?_, _, rfl, rfl⟩)
    (e := .addRule (.isSuperSetOf () (.iv 0) (.iv 2))) ⟨hok _ _ ?_, _, rfl, rfl⟩
  · intro rule h
    cases h
    exact List.mem_cons_of_mem _ List.mem_cons_self
  · intro rule h
    cases h
    exact List.mem_cons_self

theorem fixpoint_rules_hold_swapped :
    ∃ f, findFixpoint 20 (twoIncrements swapped).fixer = some f ∧
      ∀ r ∈ (twoIncrements swapped).rules, r.Holds f.current := by
  have hok : ∀ s e, (∀ rule, e = .addRule rule → rule ∈ (twoIncrements swapped).rules) →
      Session.RuleOk (L := Pairs) s e := by
    intro s e he
    cases e with
    | newValue k v => trivial
    | findFixpoint fuel => trivial
    | addRule r =>
      have hr := he r rfl
      rcases List.mem_cons.mp hr with rfl | hr
      · trivial
      · cases List.mem_singleton.mp hr
        have hsup : ∀ a b : Bool × Bool, swapped (a ⊔ b) ≤ swapped a ⊔ swapped b := by decide
        exact Or.inr ⟨rfl, hsup⟩
  exact ⟨_, rfl, fixpoint_rules_hold _ (twoIncrements_reach swapped _ hok) 20 _ rfl⟩

/-- The function `both` is monotone, but it never runs on the two increments at once. -/
theorem conjunction_rule_fails :
    Reach Session.Init Session.Step (twoIncrements both) ∧
      (∀ r ∈ (twoIncrements both).rules, Session.AsDocumented r) ∧
      ∃ f, findFixpoint 20 (twoIncrements both).fixer = some f ∧
        ¬ ∀ r ∈ (twoIncrements both).rules, r.Holds f.current := by
  refine ⟨?_, fun r hr => ?_, _, rfl, fun hall => ?_⟩
  · have hreach := twoIncrements_reach both (fun _ _ => True) fun _ _ _ => trivial
    exact hreach.mono fun _ _ _ h => h.2
  · rcases List.mem_cons.mp hr with rfl | hr
    · trivial
    · cases List.mem_singleton.mp hr
      have hmono : ∀ a b : Bool × Bool, a ≤ b → both a ≤ both b := by decide
      exact hmono
  · have hrule := hall _ (List.mem_cons_of_mem _ List.mem_cons_self)
    exact absurd hrule (by unfold Rule.Holds; decide)

end Jhc.Fixpoint

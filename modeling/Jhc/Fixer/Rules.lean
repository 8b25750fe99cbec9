import Jhc.Lib.Reach
import Jhc.Fixer.Fixer

/-!
# What findFixpoint establishes

The actions run on the increments of a value. An action that has been run on
increments with the join `x` stands for the rule at `x` when the rule respects
joins; the invariant of the loop says which increments have been run.
-/

namespace Jhc.Fixpoint
open Fixable LawfulFixable Jhc.Lib

variable {κ : Type} {L : κ → Type}

section Lattices

variable [∀ k, SemilatticeSup (L k)]

def joinOf {α : Type} [SemilatticeSup α] [OrderBot α] (ds : List α) : α := ds.foldr (· ⊔ ·) ⊥

/-! ### The condition on rules -/

/-- What holds for two increments holds for their join, and nothing is asked at
the bottom. -/
structure Respects {α : Type} [SemilatticeSup α] [OrderBot α] (φ : α → Prop) : Prop where
  bot : φ ⊥
  sup : ∀ a b, φ a → φ b → φ (a ⊔ b)

theorem Respects.joinOf {α : Type} [SemilatticeSup α] [OrderBot α] {φ : α → Prop} (h : Respects φ)
    {ds : List α} (hds : ∀ d ∈ ds, φ d) : φ (joinOf ds) := by
  induction ds with
  | nil => exact h.bot
  | cons d ds ih =>
    have htail := ih fun x hx => hds x (List.mem_cons_of_mem _ hx)
    exact h.sup _ _ (hds d List.mem_cons_self) htail

/-- Running a rule on the increments of a value is the same as running it on the
value: functions and predicates preserve joins and the bottom. -/
def Rule.Distributes [∀ k, Fixable (L k)] [∀ k, OrderBot (L k)] : Rule L → Prop
  | .isSuperSetOf .. => True
  | .modifiedSuperSetOf _ _ _ src r =>
    src.isConst = true ∨ r ⊥ = ⊥ ∧ ∀ a b, r (a ⊔ b) ≤ r a ⊔ r b
  | .conditionalRule _ cond v rule =>
    rule.Distributes ∧
      (v.isConst = true ∨ cond ⊥ = false ∧
        ∀ a b, cond (a ⊔ b) = true → cond a = true ∨ cond b = true)
  | .dynamicRule _ v dr =>
    (∀ x, (dr x).Distributes) ∧
      (v.isConst = true ∨ ∀ val : ∀ k, ℕ → L k, Respects fun x => (dr x).Holds val)
  | .mempty => True
  | .mappend a b => a.Distributes ∧ b.Distributes

/-! ### Actions that have been carried out -/

/-- The action has been run, and then again on each increment; `owed` are runs on
increments that are still to come. -/
def Committed [∀ k, OrderBot (L k)] (s : Fixer L) (owed : List (Act L)) : Act L → Prop
  | .done => True
  | .fail => False
  | .andThen a b => Committed s owed a ∧ Committed s owed b
  | .propagate k p rv => p ≤ s.current k rv ⊔ s.pending k rv
  | .onChange k rv act => act ∈ s.action k rv ∧
      ∃ ds, joinOf ds = s.current k rv ∧ ∀ d ∈ ds, act d ∈ owed ∨ Committed s owed (act d)

/-- What running an action does to the solver. -/
structure Later (s s' : Fixer L) : Prop where
  current : s'.current = s.current
  action : ∀ k rv, ∀ act ∈ s.action k rv, act ∈ s'.action k rv
  pending : ∀ k rv, s.pending k rv ≤ s'.pending k rv
  todo : ∀ v ∈ s.todo, v ∈ s'.todo
  changed : ∀ k rv, s'.pending k rv = s.pending k rv ∨ (k, rv) ∈ s'.todo

theorem Later.refl (s : Fixer L) : Later s s :=
  ⟨rfl, fun _ _ _ h => h, fun _ _ => le_rfl, fun _ h => h, fun _ _ => Or.inl rfl⟩

theorem Later.trans {s t u : Fixer L} (h : Later s t) (h' : Later t u) : Later s u := by
  refine ⟨h'.current.trans h.current, fun k rv act hact => h'.action k rv act (h.action k rv act hact),
    fun k rv => (h.pending k rv).trans (h'.pending k rv), fun v hv => h'.todo v (h.todo v hv),
    fun k rv => ?_⟩
  rcases h'.changed k rv with heq | hin
  · rcases h.changed k rv with heq' | hin'
    · exact Or.inl (heq.trans heq')
    · exact Or.inr (h'.todo _ hin')
  · exact Or.inr hin

theorem Committed.mono [∀ k, OrderBot (L k)] {s s' : Fixer L} {owed owed' : List (Act L)}
    (hcurrent : s'.current = s.current)
    (haction : ∀ k rv, ∀ act ∈ s.action k rv, act ∈ s'.action k rv)
    (hpending : ∀ k rv, s.pending k rv ≤ s'.pending k rv)
    (howed : ∀ c ∈ owed, c ∈ owed' ∨ Committed s' owed' c) {c : Act L} (h : Committed s owed c) :
    Committed s' owed' c := by
  induction c with
  | done => trivial
  | fail => exact h
  | andThen a b iha ihb => exact ⟨iha h.1, ihb h.2⟩
  | propagate k p rv =>
    have hp : p ≤ s.current k rv ⊔ s.pending k rv := h
    show p ≤ s'.current k rv ⊔ s'.pending k rv
    rw [hcurrent]
    exact hp.trans (sup_le_sup_left (hpending k rv) _)
  | onChange k rv act ih =>
    obtain ⟨hact, ds, hjoin, hds⟩ := h
    refine ⟨haction k rv act hact, ds, ?_, fun d hd => ?_⟩
    · rw [hcurrent]
      exact hjoin
    · rcases hds d hd with hin | hcom
      · exact howed _ hin
      · exact Or.inr (ih d hcom)

end Lattices

/-! ### Running actions -/

section Laws

variable [DecidableEq κ] [∀ k, Fixable (L k)] [∀ k, SemilatticeSup (L k)] [∀ k, OrderBot (L k)]
  [∀ k, LawfulFixable (L k)]

theorem propagate_later (k : κ) (p : L k) (rv : ℕ) (s : Fixer L) :
    Later s (propagateValue k p rv s) := by
  unfold propagateValue
  split_ifs
  · exact Later.refl s
  · refine ⟨rfl, fun _ _ _ h => h, fun k' rv' => ?_, fun v hv => mem_setInsert.mpr (Or.inr hv),
      fun k' rv' => ?_⟩
    · by_cases hv : (k', rv') = (k, rv)
      · cases hv
        show _ ≤ writeRef s.pending k rv _ k rv
        rw [writeRef_self, lub_eq]
        exact le_sup_right
      · show _ ≤ writeRef s.pending k rv _ k' rv'
        rw [writeRef_ne _ _ hv]
    · by_cases hv : (k', rv') = (k, rv)
      · exact Or.inr (mem_setInsert.mpr (Or.inl hv))
      · exact Or.inl (writeRef_ne _ _ hv)

theorem propagate_committed (k : κ) (p : L k) (rv : ℕ) (s : Fixer L) :
    p ≤ (propagateValue k p rv s).current k rv ⊔ (propagateValue k p rv s).pending k rv := by
  unfold propagateValue
  split_ifs with hbot
  · rw [(isBottom_iff p).mp hbot]
    exact bot_le
  · show p ≤ s.current k rv ⊔ writeRef s.pending k rv _ k rv
    rw [writeRef_self, lub_eq]
    exact le_sup_left.trans le_sup_right

theorem run_later (owed : List (Act L)) {c : Act L} {s s' : Fixer L} (hrun : c.run s = some s') :
    Later s s' ∧ Committed s' owed c := by
  induction c generalizing s s' with
  | done =>
    cases hrun
    exact ⟨Later.refl s, trivial⟩
  | fail => cases hrun
  | andThen a b iha ihb =>
    obtain ⟨t, ha, hb⟩ := Option.bind_eq_some_iff.mp hrun
    obtain ⟨hst, hca⟩ := iha ha
    obtain ⟨hts, hcb⟩ := ihb hb
    exact ⟨hst.trans hts, hca.mono hts.current hts.action hts.pending fun c hc => Or.inl hc, hcb⟩
  | propagate k p rv =>
    cases hrun
    exact ⟨propagate_later k p rv s, propagate_committed k p rv s⟩
  | onChange k rv act ih =>
    set t : Fixer L := { s with action := writeRef s.action k rv (act :: s.action k rv) } with ht
    have hst : Later s t := by
      refine ⟨rfl, fun k' rv' act' hact' => ?_, fun _ _ => le_rfl, fun _ h => h, fun _ _ => Or.inl rfl⟩
      by_cases hv : (k', rv') = (k, rv)
      · cases hv
        show act' ∈ writeRef s.action k rv _ k rv
        rw [writeRef_self]
        exact List.mem_cons_of_mem _ hact'
      · show act' ∈ writeRef s.action k rv _ k' rv'
        rw [writeRef_ne _ _ hv]
        exact hact'
    have hmem : act ∈ t.action k rv := by
      show act ∈ writeRef s.action k rv _ k rv
      rw [writeRef_self]
      exact List.mem_cons_self
    have hstep : (if isBottom (s.current k rv) then some t else (act (s.current k rv)).run t) =
        some s' := hrun
    split_ifs at hstep with hbot
    · rw [← Option.some_inj.mp hstep]
      refine ⟨hst, hmem, [], ?_, fun d hd => absurd hd List.not_mem_nil⟩
      exact ((isBottom_iff _).mp hbot).symm
    · obtain ⟨hts, hcom⟩ := ih _ hstep
      refine ⟨hst.trans hts, hts.action k rv act hmem, [s.current k rv], ?_, fun d hd => ?_⟩
      · rw [hts.current]
        exact sup_bot_eq _
      · rw [List.mem_singleton.mp hd]
        exact Or.inr hcom

theorem runActions_later {acts : List (Act L)} {s s' : Fixer L} (hrun : runActions acts s = some s') :
    Later s s' ∧ ∀ c, Committed s acts c → Committed s' [] c := by
  induction acts generalizing s with
  | nil =>
    cases hrun
    exact ⟨Later.refl _, fun _ h => h⟩
  | cons act acts ih =>
    unfold runActions at hrun
    rw [List.foldlM_cons] at hrun
    obtain ⟨t, hact, hrest⟩ := Option.bind_eq_some_iff.mp hrun
    obtain ⟨hst, hcom⟩ := run_later acts hact
    obtain ⟨hts, hlast⟩ := ih hrest
    refine ⟨hst.trans hts, fun c hc =>
      hlast c (hc.mono hst.current hst.action hst.pending fun c' hc' => ?_)⟩
    rcases List.mem_cons.mp hc' with rfl | hin
    · exact Or.inr hcom
    · exact Or.inl hin

/-! ### One value of the loop -/

/-- The value takes its pending increment; the actions on it are owed. -/
def absorb (s : Fixer L) (k : κ) (rv : ℕ) : Fixer L :=
  { s with
    current := writeRef s.current k rv (lub (s.pending k rv) (s.current k rv))
    pending := writeRef s.pending k rv bottom }

def owedBy (s : Fixer L) (k : κ) (rv : ℕ) : List (Act L) :=
  (s.action k rv).map fun act => act (minus (s.pending k rv) (s.current k rv))

theorem absorb_committed (s : Fixer L) (k : κ) (rv : ℕ) {c : Act L} (h : Committed s [] c) :
    Committed (absorb s k rv) (owedBy s k rv) c := by
  have hcur : (absorb s k rv).current k rv = s.current k rv ⊔ s.pending k rv := by
    show writeRef s.current k rv _ k rv = _
    rw [writeRef_self, lub_eq, sup_comm]
  have hother : ∀ k' rv', (k', rv') ≠ (k, rv) →
      (absorb s k rv).current k' rv' = s.current k' rv' ∧
        (absorb s k rv).pending k' rv' = s.pending k' rv' := fun k' rv' hne =>
    ⟨writeRef_ne _ _ hne, writeRef_ne _ _ hne⟩
  induction c with
  | done => trivial
  | fail => exact h
  | andThen a b iha ihb => exact ⟨iha h.1, ihb h.2⟩
  | propagate k' p rv' =>
    have hp : p ≤ s.current k' rv' ⊔ s.pending k' rv' := h
    show p ≤ (absorb s k rv).current k' rv' ⊔ (absorb s k rv).pending k' rv'
    by_cases hv : (k', rv') = (k, rv)
    · cases hv
      rw [hcur]
      exact hp.trans le_sup_left
    · rw [(hother k' rv' hv).1, (hother k' rv' hv).2]
      exact hp
  | onChange k' rv' act ih =>
    obtain ⟨hact, ds, hjoin, hds⟩ := h
    have hold : ∀ d ∈ ds, act d ∈ owedBy s k rv ∨ Committed (absorb s k rv) (owedBy s k rv) (act d) := by
      intro d hd
      rcases hds d hd with hnil | hcom
      · exact absurd hnil List.not_mem_nil
      · exact Or.inr (ih d hcom)
    by_cases hv : (k', rv') = (k, rv)
    · cases hv
      refine ⟨hact, minus (s.pending k rv) (s.current k rv) :: ds, ?_, fun d hd => ?_⟩
      · show minus _ _ ⊔ joinOf ds = _
        rw [hjoin, hcur, sup_comm, sup_minus]
      · rcases List.mem_cons.mp hd with rfl | hin
        · exact Or.inl (List.mem_map.mpr ⟨act, hact, rfl⟩)
        · exact hold d hin
    · refine ⟨hact, ds, ?_, hold⟩
      rw [(hother k' rv' hv).1]
      exact hjoin

/-! ### The loop -/

/-- The value has an increment that the loop has not seen. -/
def Dirty (s : Fixer L) (v : κ × ℕ) : Prop := ¬ s.pending v.1 v.2 ≤ s.current v.1 v.2

omit [DecidableEq κ] [∀ k, Fixable (L k)] [∀ k, OrderBot (L k)] [∀ k, LawfulFixable (L k)] in
theorem later_dirty {s s' : Fixer L} (h : Later s s') {v : κ × ℕ} (hv : Dirty s' v) :
    Dirty s v ∨ v ∈ s'.todo := by
  unfold Dirty at hv ⊢
  rcases h.changed v.1 v.2 with heq | hin
  · rw [heq, h.current] at hv
    exact Or.inl hv
  · exact Or.inr hin

theorem absorb_dirty {s : Fixer L} {k : κ} {rv : ℕ} {v : κ × ℕ} (hv : Dirty (absorb s k rv) v) :
    v ≠ (k, rv) ∧ Dirty s v := by
  unfold Dirty at hv ⊢
  by_cases heq : v = (k, rv)
  · subst heq
    refine absurd ?_ hv
    show writeRef s.pending k rv bottom k rv ≤ _
    rw [writeRef_self, bottom_eq]
    exact bot_le
  · have hpending : (absorb s k rv).pending v.1 v.2 = s.pending v.1 v.2 := writeRef_ne _ _ heq
    have hcurrent : (absorb s k rv).current v.1 v.2 = s.current v.1 v.2 := writeRef_ne _ _ heq
    rw [hpending, hcurrent] at hv
    exact ⟨heq, hv⟩

/-- In a round that has changed nothing so far, what `todo` holds is either old or
has been looked at. -/
theorem fixLoop_spec {cs : Act L → Prop} {fuel : ℕ} {vs : List (κ × ℕ)} {tl : ℤ} {n : ℕ}
    {s s' : Fixer L} (htl : tl < 0) (hcs : ∀ c, cs c → Committed s [] c)
    (hdirty : ∀ v, Dirty s v → v ∈ vs ∨ 0 < n ∧ v ∈ s.todo)
    (hrun : fixLoop fuel vs tl n s = some s') :
    (∀ c, cs c → Committed s' [] c) ∧ ∀ v, ¬ Dirty s' v := by
  induction fuel generalizing vs tl n s with
  | zero => cases hrun
  | succ fuel ih =>
    cases vs with
    | nil =>
      unfold fixLoop at hrun
      split_ifs at hrun with hn
      · have hcs' : ∀ c, cs c → Committed { s with todo := [] } [] c := by
          intro c hc
          refine Committed.mono ?_ ?_ ?_ ?_ (hcs c hc)
          · rfl
          · exact fun _ _ _ h => h
          · exact fun _ _ => le_rfl
          · exact fun _ h => Or.inl h
        refine ih (by omega) hcs' (fun v hv => Or.inl ?_) hrun
        rcases hdirty v hv with hnil | ⟨-, hin⟩
        · exact absurd hnil List.not_mem_nil
        · exact hin
      · cases hrun
        refine ⟨hcs, fun v hv => ?_⟩
        rcases hdirty v hv with hnil | ⟨hpos, -⟩
        · exact absurd hnil List.not_mem_nil
        · exact hn ⟨hpos, by omega⟩
    | cons w vs =>
      obtain ⟨k, rv⟩ := w
      simp only [fixLoop] at hrun
      split_ifs at hrun with hlte
      · refine ih htl hcs (fun v hv => ?_) hrun
        rcases hdirty v hv with hmem | hin
        · rcases List.mem_cons.mp hmem with rfl | hrest
          · exact absurd ((lte_iff _ _).mp hlte) hv
          · exact Or.inl hrest
        · exact Or.inr hin
      · obtain ⟨t, hacts, hrest⟩ := Option.bind_eq_some_iff.mp hrun
        obtain ⟨hlater, hcom⟩ := runActions_later hacts
        refine ih htl (fun c hc => hcom c (absorb_committed s k rv (hcs c hc))) (fun v hv => ?_) hrest
        rcases later_dirty hlater hv with hold | hin
        · obtain ⟨hne, hs⟩ := absorb_dirty hold
          rcases hdirty v hs with hmem | ⟨-, hin⟩
          · exact Or.inl ((List.mem_cons.mp hmem).resolve_left hne)
          · exact Or.inr ⟨Nat.succ_pos n, hlater.todo v hin⟩
        · exact Or.inr ⟨Nat.succ_pos n, hin⟩

theorem findFixpoint_spec {cs : Act L → Prop} {fuel : ℕ} {s s' : Fixer L}
    (hcs : ∀ c, cs c → Committed s [] c) (hdirty : ∀ v, Dirty s v → v ∈ s.todo)
    (hrun : findFixpoint fuel s = some s') :
    (∀ c, cs c → Committed s' [] c) ∧ ∀ v, ¬ Dirty s' v := by
  unfold findFixpoint at hrun
  split_ifs at hrun with hnil
  · cases hrun
    refine ⟨hcs, fun v hv => ?_⟩
    have hin := hdirty v hv
    rw [hnil] at hin
    exact absurd hin List.not_mem_nil
  · exact fixLoop_spec (by decide) hcs (fun v hv => Or.inl (hdirty v hv)) hrun

end Laws

end Jhc.Fixpoint

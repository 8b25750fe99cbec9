import Jhc.Fixer.Laws
import Jhc.Fixer.Session

/-!
# Whether findFixpoint stops

With rules of `isSuperSetOf` alone, every increment stays below the join of what was
put in, and a value that the loop takes up has grown. Below a value of a plain
shape there is room for finitely many steps.
-/

namespace Jhc.Fixpoint
open Fixable LawfulFixable Jhc.Lib

/-- All the rules are `isSuperSetOf` rules, which may depend on each other in a circle. -/
def Session.Supersets {κ : Type} {L : κ → Type} (_ : Session L) : FixerEvent L → Prop
  | .addRule r => ∃ k dst src, r = .isSuperSetOf k dst src
  | _ => True

/-- Wherever the rules are such, `findFixpoint` returns and the rules hold. -/
def Solves {κ : Type} [DecidableEq κ] (L : κ → Type) [∀ k, Fixable (L k)] : Prop :=
  ∀ s : Session L, Reach Session.Init (Guarded Session.Supersets Session.Step) s →
    ∃ fuel f, findFixpoint fuel s.fixer = some f ∧ ∀ r ∈ s.rules, r.Holds f.current

section Bounds

variable {κ : Type} {L : κ → Type} [∀ k, SemilatticeSup (L k)]

/-- The values of `V` are those that can change, and `T` bounds each of them. -/
structure Bounded (V : Finset (κ × ℕ)) (T : ∀ k, L k) (s : Fixer L) : Prop where
  todo : ∀ v ∈ s.todo, v ∈ V
  action : ∀ k rv, ∀ act ∈ s.action k rv, ∃ dst, (k, dst) ∈ V ∧ act = fun x => .propagate k x dst
  pending : ∀ k rv, s.pending k rv ≤ T k
  current : ∀ k rv, s.current k rv ≤ T k

variable {V V' : Finset (κ × ℕ)} {T T' : ∀ k, L k} {s s' : Fixer L} {k : κ} {rv : ℕ} {p : L k}

theorem Bounded.mono (h : Bounded V T s) (hV : V ⊆ V') (hT : ∀ k, T k ≤ T' k) : Bounded V' T' s := by
  refine ⟨fun v hv => hV (h.todo v hv), fun k rv act hact => ?_, fun k rv => (h.pending k rv).trans (hT k),
    fun k rv => (h.current k rv).trans (hT k)⟩
  obtain ⟨dst, hdst, rfl⟩ := h.action k rv act hact
  exact ⟨dst, hV hdst, rfl⟩

section Laws

variable [DecidableEq κ] [∀ k, Fixable (L k)] [∀ k, OrderBot (L k)] [∀ k, LawfulFixable (L k)]

theorem Bounded.propagate (h : Bounded V T s) (hv : (k, rv) ∈ V) (hp : p ≤ T k) :
    Bounded V T (propagateValue k p rv s) := by
  unfold propagateValue
  split_ifs
  · exact h
  · refine ⟨fun v hin => ?_, h.action, fun k' rv' => ?_, h.current⟩
    · rcases mem_setInsert.1 hin with rfl | hin
      · exact hv
      · exact h.todo v hin
    · by_cases heq : (k', rv') = (k, rv)
      · cases heq
        show writeRef s.pending k rv _ k rv ≤ _
        rw [writeRef_self, lub_eq]
        exact sup_le hp (h.pending k rv)
      · show writeRef s.pending k rv _ k' rv' ≤ _
        rw [writeRef_ne _ _ heq]
        exact h.pending k' rv'

omit [∀ k, Fixable (L k)] [∀ k, OrderBot (L k)] [∀ k, LawfulFixable (L k)] in
/-- Room for another value and for what is put into it. -/
theorem Bounded.grow (h : Bounded V T s) (k : κ) (rv : ℕ) (p : L k) :
    ∃ V' T', Bounded V' T' s ∧ (k, rv) ∈ V' ∧ p ≤ T' k := by
  refine ⟨insert (k, rv) V, Function.update T k (T k ⊔ p), h.mono (Finset.subset_insert _ _) fun k' => ?_,
    Finset.mem_insert_self _ _, ?_⟩
  · by_cases hk : k' = k
    · subst hk
      rw [Function.update_self]
      exact le_sup_left
    · rw [Function.update_of_ne hk]
  · rw [Function.update_self]
    exact le_sup_right

theorem Bounded.exists_propagate (h : Bounded V T s) (k : κ) (p : L k) (rv : ℕ) :
    ∃ V' T', Bounded V' T' (propagateValue k p rv s) := by
  obtain ⟨V', T', h', hv, hp⟩ := h.grow k rv p
  exact ⟨V', T', h'.propagate hv hp⟩

/-! ### Adding rules -/

theorem Bounded.addAction (h : ∃ V T, Bounded V T s) {src : Value (L k)} {dst : ℕ}
    (hrun : (addAction src fun x => .propagate k x dst).run s = some s') : ∃ V T, Bounded V T s' := by
  induction src generalizing s s' with
  | ioValue v ih => exact ih h hrun
  | unionValue a b iha ihb =>
    obtain ⟨t, ha, hb⟩ := Option.bind_eq_some_iff.1 hrun
    exact ihb (iha h ha) hb
  | constValue x =>
    cases hrun
    obtain ⟨V, T, h⟩ := h
    exact h.exists_propagate k x dst
  | iv rv =>
    obtain ⟨V, T, h⟩ := h
    obtain ⟨V', T', h', hv, -⟩ := h.grow k dst (T k)
    have hnew : Bounded V' T'
        { s with action := writeRef s.action k rv ((fun x => .propagate k x dst) :: s.action k rv) } := by
      refine ⟨h'.todo, fun k' rv' act hact => ?_, h'.pending, h'.current⟩
      change act ∈ writeRef s.action k rv _ k' rv' at hact
      by_cases heq : (k', rv') = (k, rv)
      · cases heq
        rw [writeRef_self] at hact
        rcases List.mem_cons.1 hact with rfl | hact
        · exact ⟨dst, hv, rfl⟩
        · exact h'.action k rv act hact
      · rw [writeRef_ne _ _ heq] at hact
        exact h'.action k' rv' act hact
    simp only [Fixpoint.addAction, Act.run] at hrun
    split_ifs at hrun
    · cases hrun
      exact ⟨V', T', hnew⟩
    · cases hrun
      exact ⟨V', T', hnew.propagate hv (h'.current k rv)⟩

theorem Bounded.isSuperSetOf (h : ∃ V T, Bounded V T s) {dst src : Value (L k)}
    (hrun : (isSuperSetOf dst src).run s = some s') : ∃ V T, Bounded V T s' := by
  induction dst with
  | ioValue v ih => exact ih hrun
  | unionValue a b => cases hrun
  | constValue x =>
    cases src with
    | constValue y =>
      unfold Fixpoint.isSuperSetOf at hrun
      split_ifs at hrun
      · cases hrun
        exact h
      · cases hrun
    | ioValue v => cases hrun
    | unionValue a b => cases hrun
    | iv rv => cases hrun
  | iv rv =>
    have hadd : Fixpoint.isSuperSetOf (.iv rv) src = Fixpoint.addAction src fun x => .propagate k x rv := by
      cases src <;> rfl
    rw [hadd] at hrun
    exact Bounded.addAction h hrun

/-! ### One value of the loop -/

omit [∀ k, OrderBot (L k)] [∀ k, LawfulFixable (L k)] in
theorem runActions_propagate {acts : List (L k → Act L)} {d : L k}
    (hacts : ∀ act ∈ acts, ∃ dst, (k, dst) ∈ V ∧ act = fun x => .propagate k x dst)
    (hstep : ∀ s dst, (k, dst) ∈ V → Bounded V T s → Bounded V T (propagateValue k d dst s))
    (h : Bounded V T s) :
    ∃ s', runActions (acts.map fun act => act d) s = some s' ∧ Bounded V T s' ∧ s'.current = s.current := by
  induction acts generalizing s with
  | nil => exact ⟨s, rfl, h, rfl⟩
  | cons act acts ih =>
    obtain ⟨dst, hdst, rfl⟩ := hacts act List.mem_cons_self
    have hcurrent : (propagateValue k d dst s).current = s.current := by
      unfold propagateValue
      split_ifs <;> rfl
    obtain ⟨s', hrun, hs', hsame⟩ := ih (fun act hact => hacts act (List.mem_cons_of_mem _ hact))
      (hstep s dst hdst h)
    exact ⟨s', hrun, hs', hsame.trans hcurrent⟩

/-- How far the values of `V` can still grow. -/
noncomputable def room (V : Finset (κ × ℕ)) (T : ∀ k, L k) (s : Fixer L) : ℕ :=
  ∑ v ∈ V, {x | x ≤ T v.1 ∧ s.current v.1 v.2 < x}.ncard

/-- A value that the loop takes up uses some of the room. -/
theorem absorb_room (hfin : ∀ k (t : L k), (Set.Iic t).Finite) (h : Bounded V T s) (hv : (k, rv) ∈ V)
    (hlte : ¬ lte (s.pending k rv) (s.current k rv) = true) :
    ∃ t, runActions ((s.action k rv).map fun act => act (minus (s.pending k rv) (s.current k rv)))
        (absorb s k rv) = some t ∧ Bounded V T t ∧ room V T t < room V T s := by
  have hself : (absorb s k rv).current k rv = s.pending k rv ⊔ s.current k rv := by
    show writeRef s.current k rv _ k rv = _
    rw [writeRef_self, lub_eq]
  have hother : ∀ k' rv', (k', rv') ≠ (k, rv) → (absorb s k rv).current k' rv' = s.current k' rv' :=
    fun k' rv' hne => writeRef_ne _ _ hne
  have habsorb : Bounded V T (absorb s k rv) := by
    refine ⟨h.todo, h.action, fun k' rv' => ?_, fun k' rv' => ?_⟩
    · by_cases heq : (k', rv') = (k, rv)
      · cases heq
        show writeRef s.pending k rv bottom k rv ≤ _
        rw [writeRef_self, bottom_eq]
        exact bot_le
      · show writeRef s.pending k rv bottom k' rv' ≤ _
        rw [writeRef_ne _ _ heq]
        exact h.pending k' rv'
    · by_cases heq : (k', rv') = (k, rv)
      · cases heq
        rw [hself]
        exact sup_le (h.pending k rv) (h.current k rv)
      · rw [hother k' rv' heq]
        exact h.current k' rv'
  have hdiff : minus (s.pending k rv) (s.current k rv) ≤ T k := by
    have hjoin := sup_minus (s.pending k rv) (s.current k rv)
    calc minus (s.pending k rv) (s.current k rv)
        ≤ s.current k rv ⊔ minus (s.pending k rv) (s.current k rv) := le_sup_right
      _ = s.current k rv ⊔ s.pending k rv := hjoin
      _ ≤ T k := sup_le (h.current k rv) (h.pending k rv)
  obtain ⟨t, hrun, ht, hcurrent⟩ := runActions_propagate (h.action k rv)
    (fun s dst hdst hs => hs.propagate hdst hdiff) habsorb
  refine ⟨t, hrun, ht, ?_⟩
  unfold room
  rw [hcurrent]
  have hbelow : ∀ (u : Fixer L) (v : κ × ℕ), {x | x ≤ T v.1 ∧ u.current v.1 v.2 < x}.Finite :=
    fun u v => (hfin v.1 (T v.1)).subset fun x hx => hx.1
  have hgrow : s.current k rv < (absorb s k rv).current k rv := by
    rw [hself]
    exact right_lt_sup.2 fun hle => hlte ((lte_iff _ _).2 hle)
  have hle : ∀ v : κ × ℕ, s.current v.1 v.2 ≤ (absorb s k rv).current v.1 v.2 := by
    intro v
    by_cases heq : v = (k, rv)
    · subst heq
      exact hgrow.le
    · rw [hother v.1 v.2 heq]
  refine Finset.sum_lt_sum (fun v _ => ?_) ⟨(k, rv), hv, ?_⟩
  · exact Set.ncard_le_ncard (fun x hx => ⟨hx.1, (hle v).trans_lt hx.2⟩) (hbelow s v)
  · refine Set.ncard_lt_ncard ⟨fun x hx => ⟨hx.1, hgrow.trans hx.2⟩, fun hsub => ?_⟩ (hbelow s _)
    have hmem := hsub ⟨habsorb.current k rv, hgrow⟩
    exact lt_irrefl _ hmem.2

/-! ### The loop -/

/-- The loop returns from every position in a round. -/
def Returns (V : Finset (κ × ℕ)) (T : ∀ k, L k) (n : ℕ) (s : Fixer L) : Prop :=
  ∀ vs : List (κ × ℕ), (∀ v ∈ vs, v ∈ V) → ∀ tl < 0, ∃ fuel s', fixLoop fuel vs tl n s = some s' ∧ Bounded V T s'

/-- One round: it ends, or it takes up a value and the rest has less room. -/
theorem returns_round (hfin : ∀ k (t : L k), (Set.Iic t).Finite) (h : Bounded V T s) {n : ℕ}
    (ih : ∀ t n, Bounded V T t → room V T t < room V T s → Returns V T n t)
    (hround : 0 < n → Returns V T 0 { s with todo := [] }) : Returns V T n s := by
  intro vs hvs tl htl
  induction vs with
  | nil =>
    by_cases hn : n > 0
    · obtain ⟨fuel, s', hrun, hs'⟩ := hround hn s.todo h.todo (tl - 1) (by omega)
      refine ⟨fuel + 1, s', ?_, hs'⟩
      have htl' : tl ≠ 0 := by omega
      unfold fixLoop
      rw [if_pos ⟨hn, htl'⟩]
      exact hrun
    · refine ⟨1, s, ?_, h⟩
      unfold fixLoop
      exact if_neg fun hboth => hn hboth.1
  | cons v vs ihvs =>
    obtain ⟨k, rv⟩ := v
    have hrest : ∀ v ∈ vs, v ∈ V := fun v hv => hvs v (List.mem_cons_of_mem _ hv)
    by_cases hlte : lte (s.pending k rv) (s.current k rv) = true
    · obtain ⟨fuel, s', hrun, hs'⟩ := ihvs hrest
      refine ⟨fuel + 1, s', ?_, hs'⟩
      unfold fixLoop
      exact (if_pos hlte).trans hrun
    · obtain ⟨t, hacts, ht, hroom⟩ := absorb_room hfin h (hvs _ List.mem_cons_self) hlte
      obtain ⟨fuel, s', hrun, hs'⟩ := ih t (n + 1) ht hroom vs hrest tl htl
      refine ⟨fuel + 1, s', ?_, hs'⟩
      unfold fixLoop
      refine (if_neg hlte).trans ?_
      exact Option.bind_eq_some_iff.2 ⟨t, hacts, hrun⟩

theorem fixLoop_returns (hfin : ∀ k (t : L k), (Set.Iic t).Finite) (m : ℕ) :
    ∀ (s : Fixer L) (n : ℕ), Bounded V T s → room V T s = m → Returns V T n s := by
  induction m using Nat.strong_induction_on with
  | h m ih =>
    intro s n h hm
    have hless : ∀ t n, Bounded V T t → room V T t < room V T s → Returns V T n t := by
      intro t n ht hroom
      exact ih (room V T t) (hm ▸ hroom) t n ht rfl
    -- a round that has taken nothing up yet has no other round after it
    have hfirst : Returns V T 0 { s with todo := [] } := by
      have hempty : Bounded V T { s with todo := [] } :=
        ⟨fun v hv => absurd hv List.not_mem_nil, h.action, h.pending, h.current⟩
      exact returns_round hfin hempty hless fun hpos => absurd hpos (lt_irrefl 0)
    exact returns_round hfin h hless fun _ => hfirst

theorem findFixpoint_returns (hfin : ∀ k (t : L k), (Set.Iic t).Finite) (h : Bounded V T s) :
    ∃ fuel s', findFixpoint fuel s = some s' := by
  by_cases htodo : s.todo = []
  · exact ⟨0, s, if_pos htodo⟩
  · obtain ⟨fuel, s', hrun, -⟩ := fixLoop_returns hfin _ s 0 h rfl s.todo h.todo (-1) (by decide)
    exact ⟨fuel, s', (if_neg htodo).trans hrun⟩

/-- The bounds hold after the loop, however much fuel it had. -/
theorem fixLoop_bounded (hfin : ∀ k (t : L k), (Set.Iic t).Finite) (h : Bounded V T s) {fuel : ℕ}
    {vs : List (κ × ℕ)} (hvs : ∀ v ∈ vs, v ∈ V) {tl : ℤ} {n : ℕ} (hrun : fixLoop fuel vs tl n s = some s') :
    Bounded V T s' := by
  induction fuel generalizing vs tl n s with
  | zero => cases hrun
  | succ fuel ih =>
    cases vs with
    | nil =>
      unfold fixLoop at hrun
      split_ifs at hrun
      · have hempty : Bounded V T { s with todo := [] } :=
          ⟨fun v hv => absurd hv List.not_mem_nil, h.action, h.pending, h.current⟩
        exact ih hempty h.todo hrun
      · cases hrun
        exact h
    | cons v vs =>
      obtain ⟨k, rv⟩ := v
      have hrest : ∀ v ∈ vs, v ∈ V := fun v hv => hvs v (List.mem_cons_of_mem _ hv)
      simp only [fixLoop] at hrun
      split_ifs at hrun with hlte
      · exact ih h hrest hrun
      · obtain ⟨t, hacts, hloop⟩ := Option.bind_eq_some_iff.1 hrun
        obtain ⟨t', hacts', ht', -⟩ := absorb_room hfin h (hvs _ List.mem_cons_self) hlte
        have heq : t' = t := Option.some_inj.1 (hacts'.symm.trans hacts)
        subst heq
        exact ih ht' hrest hloop

/-! ### Runs -/

theorem bounded_step (hfin : ∀ k (t : L k), (Set.Iic t).Finite) {s s' : Session L} {e : FixerEvent L}
    (h : ∃ V T, Bounded V T s.fixer) (hstep : Guarded Session.Supersets Session.Step s e s') :
    ∃ V T, Bounded V T s'.fixer := by
  obtain ⟨hok, hstep⟩ := hstep
  cases e with
  | newValue k v =>
    cases hstep
    obtain ⟨V, T, h⟩ := h
    have hmade : Bounded V T { s.fixer with vars := (k, s.fixer.vars.length) :: s.fixer.vars } :=
      ⟨h.todo, h.action, h.pending, h.current⟩
    exact hmade.exists_propagate k v s.fixer.vars.length
  | addRule r =>
    obtain ⟨k, dst, src, rfl⟩ := hok
    obtain ⟨f, hrun, rfl⟩ := hstep
    exact Bounded.isSuperSetOf h hrun
  | findFixpoint fuel =>
    obtain ⟨f, hrun, rfl⟩ := hstep
    obtain ⟨V, T, h⟩ := h
    unfold Fixpoint.findFixpoint at hrun
    split_ifs at hrun
    · cases hrun
      exact ⟨V, T, h⟩
    · exact ⟨V, T, fixLoop_bounded hfin h h.todo hrun⟩

omit [DecidableEq κ] in
theorem bounded_init {s : Session L} (h : s.Init) : ∃ V T, Bounded V T s.fixer := by
  subst h
  have hbot : ∀ k, (bottom : L k) ≤ ⊥ := fun k => bottom_eq.le
  exact ⟨∅, fun _ => ⊥, fun v hv => absurd hv List.not_mem_nil, fun k rv act hact => absurd hact List.not_mem_nil,
    fun k rv => hbot k, fun k rv => hbot k⟩

theorem solves (hfin : ∀ k (t : L k), (Set.Iic t).Finite) : Solves L := by
  intro s hreach
  obtain ⟨V, T, hbounded⟩ : ∃ V T, Bounded V T s.fixer :=
    hreach.invariant (fun _ hinit => bounded_init hinit) fun _ _ _ h hstep => bounded_step hfin h hstep
  have hok : Reach Session.Init (Guarded Session.RuleOk Session.Step) s := by
    refine hreach.mono fun t e t' hstep => ⟨?_, hstep.2⟩
    cases e with
    | newValue k v => trivial
    | findFixpoint fuel => trivial
    | addRule r =>
      obtain ⟨k, dst, src, rfl⟩ := hstep.1
      trivial
  have hinv := Session.inv_reach hok
  obtain ⟨fuel, f, hrun⟩ := findFixpoint_returns hfin hbounded
  have hcs : ∀ c, (∃ r ∈ s.rules, c = r.unRule) → Committed s.fixer [] c := by
    rintro c ⟨r, hr, rfl⟩
    exact hinv.committed r hr
  obtain ⟨hcom, hclean⟩ := findFixpoint_spec hcs hinv.dirty hrun
  exact ⟨fuel, f, hrun, fun r hr => rule_holds hclean (hinv.distributes r hr) (hcom _ ⟨r, hr, rfl⟩)⟩

end Laws

end Bounds

/-! ### The instances -/

/-- The laws hold and `findFixpoint` stops for values of the instances exactly if these are
put together from `Bool`, sets and pairs. -/
theorem fixable_exact {κ : Type} [DecidableEq κ] (shape : κ → Shape) :
    ((∀ k, Laws (shape k).Den) ∧ Solves fun k => (shape k).Den) ↔ ∀ k, (shape k).Plain := by
  constructor
  · intro h k
    exact (laws_iff (shape k)).1 (h.1 k)
  · intro h
    have hlaws : ∀ k, Laws (shape k).Den := fun k => laws_of_plain (shape k) (h k)
    refine ⟨hlaws, ?_⟩
    let : ∀ k, SemilatticeSup (shape k).Den := fun k => (hlaws k).lattice
    let : ∀ k, OrderBot (shape k).Den := fun k =>
      { bot := bottom
        bot_le := fun x => (hlaws k).bottom_lub x }
    have : ∀ k, LawfulFixable (shape k).Den := by
      intro k
      refine ⟨rfl, (hlaws k).isBottom_iff, fun _ _ => rfl, fun x y => ?_, (hlaws k).isBottom_minus, (hlaws k).lte_iff⟩
      show lub y (minus x y) = lub y x
      rw [(hlaws k).lub_comm, (hlaws k).minus_lub, (hlaws k).lub_comm]
    exact solves fun k t => finite_below (shape k) (h k) t

/-! ### A circle of two values -/

abbrev Maybes : Unit → Type := fun _ => (Shape.maybe .bool).Den

/-- `Just True` in value 0, and each value above the other. -/
def circle : Session Maybes :=
  let f := (newValue () (some true) (newFixer Maybes)).2
  let f := (newValue () none f).2
  let up : Rule Maybes := .isSuperSetOf () (.iv 1) (.iv 0)
  let down : Rule Maybes := .isSuperSetOf () (.iv 0) (.iv 1)
  let f := (addRule up f).getD f
  let f := (addRule down f).getD f
  ⟨f, [down, up]⟩

theorem circle_reach : Reach Session.Init (Guarded Session.Supersets Session.Step) circle := by
  refine .step (.step (.step (.step (.start rfl) (e := .newValue () (some true)) ⟨trivial, rfl⟩)
    (e := .newValue () none) ⟨trivial, rfl⟩) (e := .addRule (.isSuperSetOf () (.iv 1) (.iv 0))) ⟨?_, _, rfl, rfl⟩)
    (e := .addRule (.isSuperSetOf () (.iv 0) (.iv 1))) ⟨?_, _, rfl, rfl⟩
  · exact ⟨(), .iv 1, .iv 0, rfl⟩
  · exact ⟨(), .iv 0, .iv 1, rfl⟩

/-- Each of the two values hands on what it takes up, and one of them has something pending. -/
structure Circling (vs : List (Unit × ℕ)) (n : ℕ) (s : Fixer Maybes) : Prop where
  action : ∀ rv < 2, s.action () rv = [fun x => .propagate () x (1 - rv)]
  others : ∀ rv ≥ 2, s.pending () rv = none
  busy : ∃ rv, s.pending () rv ≠ none ∧ (((), rv) ∈ vs ∨ 0 < n ∧ ((), rv) ∈ s.todo)

/-- `Just` of anything is never below the current value, and its difference from it is
never `Nothing`. -/
theorem just_absorbed (p c : Maybes ()) : p = none ∨ lte p c = false ∧ isBottom (minus p c) = false := by
  cases p with
  | none => exact Or.inl rfl
  | some a => cases c <;> exact Or.inr ⟨rfl, rfl⟩

theorem lub_just {p : Maybes ()} (hp : isBottom p = false) (q : Maybes ()) : lub p q ≠ none := by
  cases p with
  | none => cases hp
  | some a => cases q <;> exact Option.some_ne_none _

theorem propagate_just {p : Maybes ()} (hp : isBottom p = false) (rv : ℕ) (s : Fixer Maybes) :
    propagateValue () p rv s = { s with
      todo := setInsert ((), rv) s.todo
      pending := writeRef s.pending () rv (lub p (s.pending () rv)) } := by
  have hnot : ¬ isBottom p = true := by
    rw [hp]
    exact Bool.false_ne_true
  exact if_neg hnot

theorem circling_none (fuel : ℕ) {vs : List (Unit × ℕ)} {tl : ℤ} (htl : tl < 0) {n : ℕ} {s : Fixer Maybes}
    (h : Circling vs n s) : fixLoop fuel vs tl n s = none := by
  induction fuel generalizing vs tl n s with
  | zero => rfl
  | succ fuel ih =>
    obtain ⟨rv, hrv, hin⟩ := h.busy
    cases vs with
    | nil =>
      have hround : 0 < n ∧ ((), rv) ∈ s.todo := hin.resolve_left List.not_mem_nil
      have htl' : tl ≠ 0 := by omega
      unfold fixLoop
      rw [if_pos ⟨hround.1, htl'⟩]
      exact ih (by omega) ⟨h.action, h.others, rv, hrv, Or.inl hround.2⟩
    | cons v vs =>
      obtain ⟨⟨⟩, w⟩ := v
      unfold fixLoop
      rcases just_absorbed (s.pending () w) (s.current () w) with hp | ⟨hlte, hdiff⟩
      · have hlte : lte (s.pending () w) (s.current () w) = true := by
          rw [hp]
          rfl
        refine (if_pos hlte).trans (ih htl ⟨h.action, h.others, rv, hrv, hin.imp_left fun hmem => ?_⟩)
        rcases List.mem_cons.1 hmem with heq | hmem
        · cases heq
          exact absurd hp hrv
        · exact hmem
      · have hw : w < 2 := by
          by_contra hge
          rw [h.others w (by omega)] at hlte
          cases hlte
        have hnot : ¬ lte (s.pending () w) (s.current () w) = true := by
          rw [hlte]
          exact Bool.false_ne_true
        have hrun : runActions (owedBy s () w) (absorb s () w) =
            some (propagateValue () (minus (s.pending () w) (s.current () w)) (1 - w) (absorb s () w)) := by
          unfold owedBy
          rw [h.action w hw]
          rfl
        refine (if_neg hnot).trans (Option.bind_eq_none_iff.2 fun t ht => ?_)
        obtain rfl : _ = t := Option.some_inj.1 (hrun.symm.trans ht)
        rw [propagate_just hdiff]
        refine ih htl ⟨h.action, fun x hx => ?_, 1 - w, ?_, Or.inr ⟨Nat.succ_pos n, mem_setInsert.2 (Or.inl rfl)⟩⟩
        · have hne : ((), x) ≠ ((), 1 - w) := by
            rw [Ne, Prod.mk_inj]
            omega
          have hne' : ((), x) ≠ ((), w) := by
            rw [Ne, Prod.mk_inj]
            omega
          have habsorbed : (absorb s () w).pending () x = s.pending () x := writeRef_ne _ _ hne'
          show writeRef (absorb s () w).pending () (1 - w) _ () x = none
          rw [writeRef_ne _ _ hne, habsorbed]
          exact h.others x hx
        · show writeRef (absorb s () w).pending () (1 - w) _ () (1 - w) ≠ none
          rw [writeRef_self]
          exact lub_just hdiff _

theorem circle_never_stops (fuel : ℕ) : findFixpoint fuel circle.fixer = none := by
  have hcircling : Circling circle.fixer.todo 0 circle.fixer := by
    refine ⟨fun rv hrv => ?_, fun rv hrv => ?_, 0, Option.some_ne_none true, Or.inl List.mem_cons_self⟩
    · obtain rfl | rfl : rv = 0 ∨ rv = 1 := by omega
      · rfl
      · rfl
    · have hne : ((), rv) ≠ ((), 0) := fun heq => by
        have h0 : rv = 0 := congrArg Prod.snd heq
        omega
      exact writeRef_ne _ _ hne
  exact circling_none fuel (by decide) hcircling

theorem fixable_maybe_wrong :
    ¬ Laws (Shape.maybe .bool).Den ∧ ¬ Solves fun _ : Unit => (Shape.maybe .bool).Den := by
  refine ⟨fun h => (laws_iff _).1 h, fun h => ?_⟩
  obtain ⟨fuel, f, hrun, -⟩ := h circle circle_reach
  have hnone := circle_never_stops fuel
  rw [hrun] at hnone
  cases hnone

end Jhc.Fixpoint

import Mathlib.Data.DFinsupp.WellFounded
import Mathlib.Data.List.OfFn
import Jhc.Util.FindFixpoint

/-!
# What solve returns solves the equations (FindFixpoint.hs:28-72)

A right-hand side is what `return`, `>>=`, `fail` and `getVal` can build: after each value that it
reads it may go on in another way.
-/

namespace Jhc.FindFixpoint

inductive Rhs (len : ℕ) (B : Type) where
  | ret (b : B)
  | fail
  | read (n : Fin len) (k : B → Rhs len B)

namespace Rhs

variable {len : ℕ} {B : Type}

/-- The computation. -/
def ms : Rhs len B → Ms B B
  | ret b => pure b
  | fail => failure
  | read n k => getVal n >>= fun b => (k b).ms

/-- The value of the right-hand side as a function of the variables. -/
def eval (x : Fin len → B) : Rhs len B → Option B
  | ret b => some b
  | fail => none
  | read n k => (k (x n)).eval x

/-- The variables it reads there. -/
def reads (x : Fin len → B) : Rhs len B → List (Fin len)
  | ret _ => []
  | fail => []
  | read n k => n :: (k (x n)).reads x

attribute [local grind =] eval reads

theorem eval_congr {x y : Fin len → B} (p : Rhs len B) (h : ∀ n ∈ p.reads x, x n = y n) :
    p.eval y = p.eval x := by
  induction p with
  | ret b => rfl
  | fail => rfl
  | read n k ih =>
    simp only [reads, List.forall_mem_cons] at h
    simp only [eval, ← h.1]
    exact ih (x n) h.2

theorem reads_congr {x y : Fin len → B} (p : Rhs len B) (h : ∀ n ∈ p.reads x, x n = y n) :
    p.reads y = p.reads x := by
  induction p with
  | ret b => rfl
  | fail => rfl
  | read n k ih =>
    simp only [reads, List.forall_mem_cons] at h
    simp only [reads, ← h.1]
    rw [ih (x n) h.2]

/-- A run leaves the values as they are and notes the reader at each variable it reads. -/
theorem ms_spec (p : Rhs len B) (i : ℕ) (env env' : Env B) (b : B)
    (h : p.ms i env = some (b, env')) :
    p.eval (fun j => env.arr j) = some b ∧ env'.arr = env.arr ∧
      (∀ n, env.ref n ⊆ env'.ref n) ∧ (∀ n, env'.ref n ⊆ insert i (env.ref n)) ∧
      ∀ n ∈ p.reads (fun j => env.arr j), i ∈ env'.ref n := by
  induction p generalizing env with
  | ret c =>
    cases h
    exact ⟨rfl, rfl, fun n => subset_rfl, fun n => Finset.subset_insert _ _, by simp [reads]⟩
  | fail => cases h
  | read n k ih =>
    let noted : Env B :=
      { env with ref := Function.update env.ref n (insert i (env.ref n)) }
    have hrest : (k (env.arr n)).ms i noted = some (b, env') := h
    obtain ⟨hval, harr, hmono, hsub, hreads⟩ := ih _ noted hrest
    have hnote : ∀ m, env.ref m ⊆ noted.ref m ∧ noted.ref m ⊆ insert i (env.ref m) := by
      intro m
      by_cases hm : m = n
      · subst hm
        simp [noted]
      · simp [noted, hm]
    refine ⟨hval, harr, fun m => (hnote m).1.trans (hmono m), fun m => ?_, ?_⟩
    · refine (hsub m).trans ?_
      rw [← Finset.insert_idem i (env.ref m)]
      exact Finset.insert_subset_insert i (hnote m).2
    · simp only [reads, List.forall_mem_cons]
      refine ⟨hmono n ?_, hreads⟩
      simp [noted]

theorem ms_of_eval (p : Rhs len B) (i : ℕ) (env : Env B) (b : B)
    (h : p.eval (fun j => env.arr j) = some b) : ∃ env', p.ms i env = some (b, env') := by
  induction p generalizing env with
  | ret c =>
    cases h
    exact ⟨env, rfl⟩
  | fail => cases h
  | read n k ih =>
    exact ih (env.arr n) { env with ref := Function.update env.ref n (insert i (env.ref n)) } h

end Rhs

section Steps

variable {B : Type}

/-- The variables that wait, each with its readers. -/
def round (c : Conf B) : List (ℕ × List ℕ) :=
  (c.s.sort (· ≤ ·)).map fun i => (i, (c.env.ref i).sort (· ≤ ·))

theorem mem_round {c : Conf B} {i : ℕ} : i ∈ (round c).map Prod.fst ↔ i ∈ c.s := by
  simp [round]

theorem round_nodup (c : Conf B) : ((round c).map Prod.fst).Nodup := by
  have h : (round c).map Prod.fst = c.s.sort (· ≤ ·) := by
    simp [round, Function.comp_def]
  rw [h]
  exact c.s.sort_nodup _

variable [DecidableEq B] {sccs : List (ℕ × List ℕ) → List ℕ} {fna : ℕ → Ms B B} {c c' : Conf B}

/-- A step begins a round, finds a variable unchanged or gives it a new value. -/
theorem step_cases (h : step sccs fna c = some c') :
    (c.rs = [] ∧ c' = ⟨(sccs (round c)).reverse, ∅, c.env⟩) ∨
    ∃ i rs b env, c.rs = i :: rs ∧ fna i i c.env = some (b, env) ∧
      ((c.env.arr i = b ∧ c' = ⟨rs, c.s.erase i, env⟩) ∨
        (c.env.arr i ≠ b ∧ c' = ⟨rs, env.ref i ∪ c.s.erase i,
          { env with arr := Function.update env.arr i b }⟩)) := by
  obtain ⟨rs, s, env⟩ := c
  cases rs with
  | nil =>
    left
    exact ⟨rfl, (Option.some.inj h).symm⟩
  | cons i rs =>
    right
    obtain ⟨⟨b, env'⟩, hrun, hnext⟩ := Option.bind_eq_some_iff.1 h
    refine ⟨i, rs, b, env', rfl, hrun, ?_⟩
    dsimp only at hnext
    by_cases heq : env.arr i = b
    · rw [if_pos heq] at hnext
      exact .inl ⟨heq, (Option.some.inj hnext).symm⟩
    · rw [if_neg heq] at hnext
      exact .inr ⟨heq, (Option.some.inj hnext).symm⟩

/-- `li` ends where nothing waits, and an invariant of the steps holds there. -/
theorem li_invariant {P : Conf B → Prop} (hstep : ∀ c c', P c → step sccs fna c = some c' → P c')
    {n : ℕ} {env : Env B} (hc : P c) (h : li sccs fna n c = some env) :
    ∃ c, P c ∧ c.rs = [] ∧ c.s = ∅ ∧ c.env = env := by
  induction n generalizing c with
  | zero => cases h
  | succ n ih =>
    rw [li] at h
    split at h
    · rename_i hend
      exact ⟨c, hc, hend.1, hend.2, Option.some.inj h⟩
    · obtain ⟨c', hs, hrest⟩ := Option.bind_eq_some_iff.1 h
      exact ih (hstep c c' hc hs) hrest

end Steps

/-! ### What does not wait is solved -/

section Solves

variable {len : ℕ} {B : Type} (rhs : Fin len → Rhs len B)

/-- The values as the equations read them. -/
def values (len : ℕ) (env : Env B) : Fin len → B := fun j => env.arr j

structure Waits (c : Conf B) : Prop where
  rs_lt : ∀ i ∈ c.rs, i < len
  s_lt : ∀ i ∈ c.s, i < len
  ref_lt : ∀ n, ∀ i ∈ c.env.ref n, i < len
  settled : ∀ i : Fin len, ↑i ∈ c.rs ∨ ↑i ∈ c.s ∨
    ((rhs i).eval (values len c.env) = some (values len c.env i) ∧
      ∀ n ∈ (rhs i).reads (values len c.env), ↑i ∈ c.env.ref n)

/-- The right-hand sides as `solve` has them. -/
def sides : ℕ → Ms B B := fun i => (List.ofFn fun i => (rhs i).ms).getD i failure

theorem sides_eq (i : Fin len) : sides rhs i = (rhs i).ms := by
  simp [sides, List.getD_eq_getElem?_getD]

variable {rhs} {sccs : List (ℕ × List ℕ) → List ℕ} {c c' : Conf B}

theorem waits_start (empty : B) : Waits rhs (start len empty) where
  rs_lt _ hi := List.mem_range.1 hi
  s_lt i hi := absurd hi (Finset.notMem_empty i)
  ref_lt _ i hi := absurd hi (Finset.notMem_empty i)
  settled i := .inl (List.mem_range.2 i.isLt)

theorem waits_step [DecidableEq B]
    (hscc : ∀ ds, (ds.map Prod.fst).Nodup → (sccs ds).Perm (ds.map Prod.fst))
    (hc : Waits rhs c) (h : step sccs (sides rhs) c = some c') : Waits rhs c' := by
  rcases step_cases h with ⟨hrs, rfl⟩ | ⟨i, rs, b, env, hrs, hrun, hnext⟩
  · have hmem : ∀ j, j ∈ (sccs (round c)).reverse ↔ j ∈ c.s := by
      intro j
      rw [List.mem_reverse, (hscc _ (round_nodup c)).mem_iff, mem_round]
    constructor
    · intro j hj
      exact hc.s_lt j ((hmem j).1 hj)
    · intro j hj
      exact absurd hj (Finset.notMem_empty j)
    · exact hc.ref_lt
    · intro j
      rcases hc.settled j with hj | hj | hj
      · rw [hrs] at hj
        exact absurd hj List.not_mem_nil
      · exact .inl ((hmem j).2 hj)
      · exact .inr (.inr hj)
  · have hi : i < len := hc.rs_lt i (by simp [hrs])
    have hrs_lt : ∀ j ∈ rs, j < len := fun j hj => hc.rs_lt j (by simp [hrs, hj])
    rw [sides_eq rhs ⟨i, hi⟩] at hrun
    obtain ⟨hval, harr, hmono, hsub, hreads⟩ := (rhs ⟨i, hi⟩).ms_spec i c.env env b hrun
    have hvals : values len env = values len c.env := by
      unfold values
      rw [harr]
    have href_lt : ∀ n, ∀ j ∈ env.ref n, j < len := by
      intro n j hj
      rcases Finset.mem_insert.1 (hsub n hj) with rfl | hj
      · exact hi
      · exact hc.ref_lt n j hj
    rcases hnext with ⟨heq, rfl⟩ | ⟨hne, rfl⟩
    · refine ⟨hrs_lt, fun j hj => hc.s_lt j (Finset.mem_of_mem_erase hj), href_lt, fun j => ?_⟩
      rw [hvals]
      by_cases hji : (j : ℕ) = i
      · -- the variable was just found to have its value
        right; right
        obtain rfl : j = ⟨i, hi⟩ := Fin.ext hji
        exact ⟨hval.trans (congrArg some heq.symm), hreads⟩
      · rcases hc.settled j with hj | hj | hj
        · rw [hrs, List.mem_cons] at hj
          exact .inl (hj.resolve_left hji)
        · exact .inr (.inl (Finset.mem_erase.2 ⟨hji, hj⟩))
        · exact .inr (.inr ⟨hj.1, fun n hn => hmono n (hj.2 n hn)⟩)
    · refine ⟨hrs_lt, fun j hj => ?_, href_lt, fun j => ?_⟩
      · rcases Finset.mem_union.1 hj with hj | hj
        · exact href_lt i j hj
        · exact hc.s_lt j (Finset.mem_of_mem_erase hj)
      · by_cases hreader : (j : ℕ) ∈ env.ref i
        · exact .inr (.inl (Finset.mem_union_left _ hreader))
        · -- who has not read the variable keeps its value and its readings
          have hsame : ∀ n ∈ (rhs j).reads (values len c.env), (j : ℕ) ∈ env.ref n →
              values len c.env n =
                values len { env with arr := Function.update env.arr i b } n := by
            intro n _ hn
            have hni : (n : ℕ) ≠ i := fun hni => hreader (hni ▸ hn)
            simp only [values, Function.update_of_ne hni, harr]
          by_cases hji : (j : ℕ) = i
          · right; right
            obtain rfl : j = ⟨i, hi⟩ := Fin.ext hji
            have hagree := fun n hn => hsame n hn (hreads n hn)
            rw [Rhs.eval_congr _ hagree, Rhs.reads_congr _ hagree]
            refine ⟨?_, hreads⟩
            simp only [values, Function.update_self]
            exact hval
          · rcases hc.settled j with hj | hj | ⟨hj, hnoted⟩
            · rw [hrs, List.mem_cons] at hj
              exact .inl (hj.resolve_left hji)
            · exact .inr (.inl (Finset.mem_union_right _ (Finset.mem_erase.2 ⟨hji, hj⟩)))
            · right; right
              have hagree := fun n hn => hsame n hn (hmono n (hnoted n hn))
              rw [Rhs.eval_congr _ hagree, Rhs.reads_congr _ hagree]
              refine ⟨?_, fun n hn => hmono n (hnoted n hn)⟩
              rw [hj]
              simp only [values, Function.update_of_ne hji, harr]

end Solves

/-! ### Monotone equations -/

section Monotone

variable {len : ℕ} {B : Type} [PartialOrder B]

/-- No value is above its equation, nor above a solution. -/
structure Rises (f : Fin len → (Fin len → B) → B) (c : Conf B) : Prop where
  grows : ∀ i, values len c.env i ≤ f i (values len c.env)
  below : ∀ y : Fin len → B, (∀ i, f i y = y i) → ∀ i, values len c.env i ≤ y i

/-- What falls in a step: the room above the values, what waits, what is left of the round. -/
def measure (len : ℕ) (c : Conf B) : (Fin len → B) × ℕ × ℕ :=
  (values len c.env, c.s.card, c.rs.length)

def Falls (len : ℕ) (c' c : Conf B) : Prop :=
  Prod.Lex (· > ·) (Prod.Lex (· < ·) (· < ·)) (measure len c') (measure len c)

theorem falls_wf [WellFoundedGT B] : WellFounded (Falls (B := B) len) := by
  have hgt : WellFounded (fun x y : Fin len → B => x > y) :=
    (inferInstance : WellFoundedLT (Fin len → Bᵒᵈ)).wf
  exact InvImage.wf (measure len) (hgt.prod_lex (Nat.lt_wfRel.wf.prod_lex Nat.lt_wfRel.wf))

variable [DecidableEq B] {rhs : Fin len → Rhs len B} {f : Fin len → (Fin len → B) → B}
  {sccs : List (ℕ × List ℕ) → List ℕ} {c c' : Conf B}

theorem rises_step (hmono : ∀ i, Monotone (f i)) (heval : ∀ i x, (rhs i).eval x = some (f i x))
    (hc : Waits rhs c) (hr : Rises f c) (h : step sccs (sides rhs) c = some c') :
    Rises f c' ∧ (¬ (c.rs = [] ∧ c.s = ∅) → Falls len c' c) := by
  rcases step_cases h with ⟨hrs, rfl⟩ | ⟨i, rs, b, env, hrs, hrun, hnext⟩
  · refine ⟨⟨hr.grows, hr.below⟩, fun hgo => .right _ (.left _ _ ?_)⟩
    have hs : c.s ≠ ∅ := fun hs => hgo ⟨hrs, hs⟩
    simpa using Finset.card_pos.2 (Finset.nonempty_iff_ne_empty.2 hs)
  · have hi : i < len := hc.rs_lt i (by simp [hrs])
    rw [sides_eq rhs ⟨i, hi⟩] at hrun
    obtain ⟨hval, harr, -, -, -⟩ := (rhs ⟨i, hi⟩).ms_spec i c.env env b hrun
    have hvals : values len env = values len c.env := by
      unfold values
      rw [harr]
    have hb : f ⟨i, hi⟩ (values len c.env) = b := Option.some.inj ((heval _ _).symm.trans hval)
    rcases hnext with ⟨-, rfl⟩ | ⟨hne, rfl⟩
    · refine ⟨⟨?_, ?_⟩, fun _ => ?_⟩
      · simpa only [hvals] using hr.grows
      · simpa only [hvals] using hr.below
      · unfold Falls measure
        rw [hvals]
        refine .right _ ?_
        have hcard : (c.s.erase i).card ≤ c.s.card := Finset.card_erase_le
        rcases lt_or_eq_of_le hcard with hlt | heq
        · exact .left _ _ hlt
        · dsimp only
          rw [heq]
          exact .right _ (by simp [hrs])
    · -- the one value that changes goes up
      have hupd : values len { env with arr := Function.update env.arr i b } =
          Function.update (values len c.env) ⟨i, hi⟩ b := by
        funext j
        by_cases hji : j = ⟨i, hi⟩
        · subst hji
          simp [values]
        · have hne' : (j : ℕ) ≠ i := fun h => hji (Fin.ext h)
          simp only [values, Function.update_of_ne hji, Function.update_of_ne hne', harr]
      have hle : values len c.env ⟨i, hi⟩ ≤ b := hb ▸ hr.grows ⟨i, hi⟩
      have hup : values len c.env ≤ Function.update (values len c.env) ⟨i, hi⟩ b :=
        le_update_self_iff.2 hle
      refine ⟨⟨fun j => ?_, fun y hy j => ?_⟩, fun _ => ?_⟩
      · dsimp only
        rw [hupd]
        by_cases hji : j = ⟨i, hi⟩
        · subst hji
          rw [Function.update_self]
          exact hb.symm.le.trans (hmono _ hup)
        · rw [Function.update_of_ne hji]
          exact (hr.grows j).trans (hmono j hup)
      · dsimp only
        rw [hupd]
        by_cases hji : j = ⟨i, hi⟩
        · subst hji
          rw [Function.update_self, ← hb, ← hy ⟨i, hi⟩]
          exact hmono _ (hr.below y hy)
        · rw [Function.update_of_ne hji]
          exact hr.below y hy j
      · refine .left _ _ ?_
        change values len { env with arr := Function.update env.arr i b } > values len c.env
        rw [hupd]
        exact lt_update_self_iff.2 (lt_of_le_of_ne hle hne)

/-- A run of steps that fall and can always go on ends. -/
theorem li_returns [WellFoundedGT B] (hmono : ∀ i, Monotone (f i))
    (heval : ∀ i x, (rhs i).eval x = some (f i x))
    (hscc : ∀ ds, (ds.map Prod.fst).Nodup → (sccs ds).Perm (ds.map Prod.fst))
    (hc : Waits rhs c) (hr : Rises f c) : ∃ n env, li sccs (sides rhs) n c = some env := by
  have hwf : WellFounded (Falls (B := B) len) := falls_wf
  revert hc hr
  refine hwf.induction (C := fun c => Waits rhs c → Rises f c →
    ∃ n env, li sccs (sides rhs) n c = some env) c ?_
  intro c ih hc hr
  by_cases hend : c.rs = [] ∧ c.s = ∅
  · exact ⟨1, c.env, by rw [li, if_pos hend]⟩
  · have hstep : ∃ c', step sccs (sides rhs) c = some c' := by
      obtain ⟨rs, s, env⟩ := c
      cases rs with
      | nil => exact ⟨_, rfl⟩
      | cons i rs =>
        have hi : i < len := hc.rs_lt i List.mem_cons_self
        obtain ⟨env', hrun⟩ := (rhs ⟨i, hi⟩).ms_of_eval i env _ (heval ⟨i, hi⟩ _)
        rw [← sides_eq] at hrun
        simp only [step, hrun, Option.bind_eq_bind, Option.bind_some]
        split
        · exact ⟨_, rfl⟩
        · exact ⟨_, rfl⟩
    obtain ⟨c', hs⟩ := hstep
    obtain ⟨hr', hfall⟩ := rises_step hmono heval hc hr hs
    obtain ⟨n, env, hn⟩ := ih c' (hfall hend) (waits_step hscc hc hs) hr'
    refine ⟨n + 1, env, ?_⟩
    rw [li, if_neg hend, hs]
    exact hn

end Monotone

/-- The values that `solve` returns satisfy every equation, and for monotone equations over an
order without infinite ascents it returns, from the least value, the least solution. -/
theorem solve_solution {B : Type} [DecidableEq B] {len : ℕ} (rhs : Fin len → Rhs len B) (empty : B)
    (sccs : List (ℕ × List ℕ) → List ℕ)
    (hscc : ∀ ds, (ds.map Prod.fst).Nodup → (sccs ds).Perm (ds.map Prod.fst)) :
    (∀ n vs, solve sccs n empty (List.ofFn fun i => (rhs i).ms) = some vs →
      ∃ x : Fin len → B, vs = List.ofFn x ∧ ∀ i, (rhs i).eval x = some (x i)) ∧
    ∀ (_ : PartialOrder B) (_ : WellFoundedGT B) (f : Fin len → (Fin len → B) → B),
      (∀ i, Monotone (f i)) → (∀ i x, (rhs i).eval x = some (f i x)) → (∀ b, empty ≤ b) →
      ∃ n x, solve sccs n empty (List.ofFn fun i => (rhs i).ms) = some (List.ofFn x) ∧
        IsLeast {y | ∀ i, f i y = y i} x := by
  have hsolve : ∀ n, solve sccs n empty (List.ofFn fun i => (rhs i).ms) =
      (li sccs (sides rhs) n (start len empty)).map fun env => List.ofFn (values len env) := by
    intro n
    have hvalues : ∀ env : Env B, (List.range len).map env.arr = List.ofFn (values len env) := by
      intro env
      apply List.ext_getElem
      · simp
      · intro i h₁ h₂
        simp [values]
    simp only [solve, List.length_ofFn]
    change Option.bind (li sccs (sides rhs) n (start len empty)) _ = _
    cases li sccs (sides rhs) n (start len empty) with
    | none => rfl
    | some env => exact congrArg some (hvalues env)
  have hend : ∀ {c : Conf B}, Waits rhs c → c.rs = [] → c.s = ∅ →
      ∀ i, (rhs i).eval (values len c.env) = some (values len c.env i) := by
    intro c hc hrs hs i
    rcases hc.settled i with hi | hi | hi
    · rw [hrs] at hi
      exact absurd hi List.not_mem_nil
    · rw [hs] at hi
      exact absurd hi (Finset.notMem_empty _)
    · exact hi.1
  constructor
  · intro n vs h
    rw [hsolve] at h
    obtain ⟨env, hli, rfl⟩ := Option.map_eq_some_iff.1 h
    obtain ⟨c, hc, hrs, hs, rfl⟩ := li_invariant
      (fun c c' hc h => waits_step hscc hc h) (waits_start empty) hli
    exact ⟨values len c.env, rfl, hend hc hrs hs⟩
  · intro _ _ f hmono heval hbot
    have hstart : Rises f (start len empty) := ⟨fun i => hbot _, fun y _ i => hbot _⟩
    obtain ⟨n, env, hli⟩ := li_returns hmono heval hscc (waits_start empty) hstart
    refine ⟨n, values len env, by rw [hsolve, hli]; rfl, ?_⟩
    have hkept : ∀ c c', (Waits rhs c ∧ Rises f c) → step sccs (sides rhs) c = some c' →
        Waits rhs c' ∧ Rises f c' :=
      fun c c' hc h => ⟨waits_step hscc hc.1 h, (rises_step hmono heval hc.1 hc.2 h).1⟩
    obtain ⟨c, ⟨hc, hr⟩, hrs, hs, rfl⟩ := li_invariant hkept ⟨waits_start empty, hstart⟩ hli
    refine ⟨fun i => ?_, fun y hy i => hr.below y hy i⟩
    exact Option.some.inj ((heval i _).symm.trans (hend hc hrs hs i))

/-- `x₀ = x₁` and `x₁ = True`. -/
def copies : Fin 2 → Rhs 2 Bool
  | 0 => .read (Fin.last 1) .ret
  | 1 => .ret true

def copiesOf : Fin 2 → (Fin 2 → Bool) → Bool
  | 0, x => x (Fin.last 1)
  | 1, _ => true

theorem copies_solution :
    ∃ n x, solve (List.map Prod.fst) n false (List.ofFn fun i => (copies i).ms) =
        some (List.ofFn x) ∧ IsLeast {y | ∀ i, copiesOf i y = y i} x := by
  refine (solve_solution copies false (List.map Prod.fst) fun _ _ => List.Perm.refl _).2
    inferInstance inferInstance copiesOf ?_ ?_ Bool.false_le
  · intro i x y h
    match i with
    | 0 => exact h (Fin.last 1)
    | 1 => exact le_rfl
  · intro i x
    match i with
    | 0 => rfl
    | 1 => rfl

end Jhc.FindFixpoint

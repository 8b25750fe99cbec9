import Mathlib.Data.Finset.Sort
import Mathlib.Logic.Function.Basic
import Mathlib.Algebra.BigOperators.Group.Finset.Basic
import Mathlib.Algebra.Order.BigOperators.Group.Finset
import Mathlib.Order.BoundedOrder.Basic
import Mathlib.Logic.Relation

/-!
# FindFixpoint (FindFixpoint.hs)

Values that are computed from each other. `sccs` is `flattenSCCs . stronglyConnComp`, of
which only the order of the nodes is used here.
-/

namespace Jhc.FindFixpoint

/-! ### Env, Ms (FindFixpoint.hs:11-33) -/

/-- The values, and for each the computations that have read it. -/
structure Env (B : Type) where
  arr : ℕ → B
  ref : ℕ → Finset ℕ

/-- A computation knows its own number, and may fail. -/
abbrev Ms (B : Type) := ReaderT ℕ (StateT (Env B) Option)

section
variable {B : Type}

def getVal (n : ℕ) : Ms B B := fun self env =>
  some (env.arr n, { env with ref := Function.update env.ref n (insert self (env.ref n)) })

/-! ### solve (FindFixpoint.hs:35-72) -/

/-- What is left of this round, and what waits for the next one. -/
structure Conf (B : Type) where
  rs : List ℕ
  s : Finset ℕ
  env : Env B

variable [DecidableEq B] (sccs : List (ℕ × List ℕ) → List ℕ) (fna : ℕ → Ms B B)

def step : Conf B → Option (Conf B)
  | ⟨[], s, env⟩ =>
    let ds := (s.sort (· ≤ ·)).map fun i => (i, (env.ref i).sort (· ≤ ·))
    some ⟨(sccs ds).reverse, ∅, env⟩
  | ⟨i :: rs, s, env⟩ => do
    let b := env.arr i
    let (b', env) ← fna i i env
    if b = b' then return ⟨rs, s.erase i, env⟩
    else return ⟨rs, env.ref i ∪ s.erase i, { env with arr := Function.update env.arr i b' }⟩

def li : ℕ → Conf B → Option (Env B)
  | 0, _ => none
  | n + 1, c =>
    if c.rs = [] ∧ c.s = ∅ then some c.env
    else (step sccs fna c).bind (li n)

def start (len : ℕ) (empty : B) : Conf B :=
  ⟨List.range len, ∅, fun _ => empty, fun _ => ∅⟩

def solve (n : ℕ) (empty : B) (vs : List (Ms B B)) : Option (List B) := do
  let fna := fun i => vs.getD i failure
  let env ← li sccs fna n (start vs.length empty)
  return (List.range vs.length).map env.arr

attribute [local grind =] li

end

end Jhc.FindFixpoint

/-!
# solve finds a solution below every bound

A run in which every value is computed by a monotone equation ends, and ends in a solution.
-/

namespace Jhc.FindFixpoint

section
variable {B : Type} [DecidableEq B] [PartialOrder B] [OrderBot B]

/-- Equations between `len` values, with the values each of them reads. -/
structure Equations (B : Type) [PartialOrder B] (len : ℕ) where
  rhs : ℕ → (ℕ → B) → B
  reads : ℕ → Set ℕ
  mono : ∀ i, Monotone (rhs i)
  reads_only : ∀ i a a', (∀ n ∈ reads i, a n = a' n) → rhs i a = rhs i a'

variable {len : ℕ} (eqs : Equations B len) (fna : ℕ → Ms B B) (sccs : List (ℕ × List ℕ) → List ℕ)

/-- The computation `i` has the value `v`, and is known to the values `ns`, which it reads. -/
def Runs {C : Type} (c : Ms B C) (i : ℕ) (arr : ℕ → B) (v : C) (ns : Set ℕ) : Prop :=
  ∀ env, env.arr = arr → ∃ env', c i env = some (v, env') ∧ env'.arr = arr ∧
    ∀ n, env.ref n ⊆ env'.ref n ∧ env'.ref n ⊆ insert i (env.ref n) ∧ (n ∈ ns → i ∈ env'.ref n)

/-- The computation has the value of the equation. -/
def Evaluates (i : ℕ) (env : Env B) : Prop := Runs (fna i) i env.arr (eqs.rhs i env.arr) (eqs.reads i)

/-- The run so far is below `top`, and what does not wait is solved. -/
structure Good (top : ℕ → B) (c : Conf B) : Prop where
  rs_lt : ∀ i ∈ c.rs, i < len
  s_lt : ∀ i ∈ c.s, i < len
  ref_lt : ∀ n, ∀ i ∈ c.env.ref n, i < len
  grows : ∀ i < len, c.env.arr i ≤ eqs.rhs i c.env.arr
  below : ∀ i, c.env.arr i ≤ top i
  settled : ∀ i < len, i ∉ c.rs → i ∉ c.s → c.env.arr i = eqs.rhs i c.env.arr ∧ ∀ n ∈ eqs.reads i, i ∈ c.env.ref n

variable {eqs fna sccs} {top : ℕ → B} {c c' : Conf B} {rs : List ℕ} {s : Finset ℕ} {env : Env B} {i : ℕ}

section
variable {C D : Type} {arr : ℕ → B}

omit [DecidableEq B] [PartialOrder B] [OrderBot B]

theorem runs_pure (v : C) : Runs (pure v : Ms B C) i arr v ∅ :=
  fun env harr => ⟨env, rfl, harr, fun _ => ⟨Finset.Subset.refl _, Finset.subset_insert _ _, fun h => absurd h (Set.notMem_empty _)⟩⟩

theorem runs_getVal (n : ℕ) : Runs (getVal n : Ms B B) i arr (arr n) {n} := by
  rintro env rfl
  refine ⟨_, rfl, rfl, fun m => ?_⟩
  by_cases hm : m = n
  · subst hm
    simp only [Function.update_self]
    exact ⟨Finset.subset_insert _ _, Finset.Subset.refl _, fun _ => Finset.mem_insert_self _ _⟩
  · simp only [Function.update_of_ne hm]
    exact ⟨Finset.Subset.refl _, Finset.subset_insert _ _, fun h => absurd h hm⟩

theorem Runs.bind {c : Ms B C} {f : C → Ms B D} {v : C} {w : D} {ns ns' : Set ℕ} (h : Runs c i arr v ns)
    (h' : Runs (f v) i arr w ns') : Runs (c >>= f) i arr w (ns ∪ ns') := by
  intro env harr
  obtain ⟨env₁, hrun₁, harr₁, href₁⟩ := h env harr
  obtain ⟨env₂, hrun₂, harr₂, href₂⟩ := h' env₁ harr₁
  refine ⟨env₂, ?_, harr₂, fun n => ⟨(href₁ n).1.trans (href₂ n).1, ?_, ?_⟩⟩
  · have hbind : (c >>= f) i env = (c i env).bind fun x => f x.1 i x.2 := rfl
    rw [hbind, hrun₁]
    exact hrun₂
  · intro j hj
    rcases Finset.mem_insert.1 ((href₂ n).2.1 hj) with rfl | hj
    · exact Finset.mem_insert_self _ _
    · exact (href₁ n).2.1 hj
  · rintro (hn | hn)
    · exact (href₂ n).1 ((href₁ n).2.2 hn)
    · exact (href₂ n).2.2 hn

theorem Runs.weaken {c : Ms B C} {v : C} {ns ns' : Set ℕ} (h : Runs c i arr v ns) (hns : ns' ⊆ ns) : Runs c i arr v ns' := by
  intro env harr
  obtain ⟨env', hrun, harr', href⟩ := h env harr
  exact ⟨env', hrun, harr', fun n => ⟨(href n).1, (href n).2.1, fun hn => (href n).2.2 (hns hn)⟩⟩

theorem Runs.map {c : Ms B C} {v : C} {ns : Set ℕ} (h : Runs c i arr v ns) (g : C → D) :
    Runs (do return g (← c)) i arr (g v) ns :=
  (Runs.bind (f := fun x => pure (g x)) h (runs_pure _)).weaken Set.subset_union_left

theorem runs_mapM {l : List C} {f : C → Ms B D} {g : C → D} {ns : C → Set ℕ}
    (h : ∀ x ∈ l, Runs (f x) i arr (g x) (ns x)) : Runs (l.mapM f) i arr (l.map g) {n | ∃ x ∈ l, n ∈ ns x} := by
  induction l with
  | nil =>
    rw [List.mapM_nil, show {n | ∃ x ∈ ([] : List C), n ∈ ns x} = ∅ by simp]
    exact runs_pure _
  | cons x l ih =>
    have hrest := ih fun y hy => h y (List.mem_cons_of_mem _ hy)
    have hset : {n | ∃ y ∈ x :: l, n ∈ ns y} = ns x ∪ ({n | ∃ y ∈ l, n ∈ ns y} ∪ ∅) := by
      ext n
      simp
    rw [List.mapM_cons, hset]
    exact (h x List.mem_cons_self).bind (hrest.bind (runs_pure _))

end

theorem good_start (top : ℕ → B) : Good eqs top (start len ⊥) where
  rs_lt i hi := List.mem_range.1 hi
  s_lt i hi := absurd hi (Finset.notMem_empty i)
  ref_lt n i hi := absurd hi (Finset.notMem_empty i)
  grows i _ := bot_le
  below i := bot_le
  settled i hi hrs _ := absurd (List.mem_range.2 hi) hrs

/-- A new round. -/
theorem good_round (hperm : ∀ ds, (sccs ds).Perm (ds.map Prod.fst)) (h : Good eqs top ⟨[], s, env⟩) :
    ∃ rs, step sccs fna ⟨[], s, env⟩ = some ⟨rs, ∅, env⟩ ∧ rs.length = s.card ∧ Good eqs top ⟨rs, ∅, env⟩ := by
  let ds := (s.sort (· ≤ ·)).map fun i => (i, (env.ref i).sort (· ≤ ·))
  have hrs : (sccs ds).reverse.Perm (s.sort (· ≤ ·)) := by
    refine (List.reverse_perm _).trans ((hperm ds).trans ?_)
    rw [List.map_map, show (Prod.fst ∘ fun i => (i, (env.ref i).sort (· ≤ ·))) = id from rfl, List.map_id]
  have hmem : ∀ i, i ∈ (sccs ds).reverse ↔ i ∈ s := fun i => hrs.mem_iff.trans (Finset.mem_sort _)
  refine ⟨_, rfl, ?_, ?_⟩
  · rw [hrs.length_eq, Finset.length_sort]
  · exact {
      rs_lt := fun i hi => h.s_lt i ((hmem i).1 hi)
      s_lt := fun i hi => absurd hi (Finset.notMem_empty i)
      ref_lt := h.ref_lt
      grows := h.grows
      below := h.below
      settled := fun i hi hrs _ => h.settled i hi List.not_mem_nil fun hs => hrs ((hmem i).2 hs) }

/-- An evaluation either leaves the value, or raises it. -/
theorem good_eval (htop : ∀ i < len, eqs.rhs i top ≤ top i) (h : Good eqs top ⟨i :: rs, s, env⟩)
    (hev : Evaluates eqs fna i env) : ∃ s' env', step sccs fna ⟨i :: rs, s, env⟩ = some ⟨rs, s', env'⟩ ∧
      Good eqs top ⟨rs, s', env'⟩ ∧ (env'.arr = env.arr ∧ s'.card ≤ s.card ∨
        env'.arr = Function.update env.arr i (eqs.rhs i env.arr) ∧ env.arr i < eqs.rhs i env.arr) := by
  obtain ⟨env', hrun, harr, href⟩ := hev env rfl
  have hi : i < len := h.rs_lt i List.mem_cons_self
  have href_lt : ∀ n, ∀ j ∈ env'.ref n, j < len := by
    intro n j hj
    rcases Finset.mem_insert.1 ((href n).2.1 hj) with rfl | hj
    · exact hi
    · exact h.ref_lt n j hj
  by_cases heq : env.arr i = eqs.rhs i env.arr
  · refine ⟨s.erase i, env', ?_, ?_, .inl ⟨harr, Finset.card_le_card (Finset.erase_subset _ _)⟩⟩
    · simp only [step, hrun, Option.bind_eq_bind, Option.bind_some, if_pos heq]
      rfl
    · exact {
        rs_lt := fun j hj => h.rs_lt j (List.mem_cons_of_mem _ hj)
        s_lt := fun j hj => h.s_lt j (Finset.mem_of_mem_erase hj)
        ref_lt := href_lt
        grows := fun j hj => by simpa only [harr] using h.grows j hj
        below := fun j => by simpa only [harr] using h.below j
        settled := fun j hj hrs hs => by
          simp only [harr]
          by_cases hji : j = i
          · subst hji
            exact ⟨heq, fun n hn => (href n).2.2 hn⟩
          · have hold := h.settled j hj (fun hmem => (List.mem_cons.1 hmem).elim hji hrs)
              fun hmem => hs (Finset.mem_erase.2 ⟨hji, hmem⟩)
            exact ⟨hold.1, fun n hn => (href n).1 (hold.2 n hn)⟩ }
  · have hlt : env.arr i < eqs.rhs i env.arr := lt_of_le_of_ne (h.grows i hi) heq
    have hup : env.arr ≤ Function.update env.arr i (eqs.rhs i env.arr) := by
      intro j
      by_cases hji : j = i
      · subst hji
        rw [Function.update_self]
        exact hlt.le
      · rw [Function.update_of_ne hji]
    refine ⟨env'.ref i ∪ s.erase i, { env' with arr := Function.update env'.arr i (eqs.rhs i env.arr) }, ?_, ?_, .inr ?_⟩
    · simp only [step, hrun, Option.bind_eq_bind, Option.bind_some, if_neg heq]
      rfl
    · exact {
        rs_lt := fun j hj => h.rs_lt j (List.mem_cons_of_mem _ hj)
        s_lt := fun j hj => (Finset.mem_union.1 hj).elim (href_lt i j) fun hj => h.s_lt j (Finset.mem_of_mem_erase hj)
        ref_lt := href_lt
        grows := fun j hj => by
          simp only [harr]
          by_cases hji : j = i
          · subst hji
            rw [Function.update_self]
            exact eqs.mono j hup
          · rw [Function.update_of_ne hji]
            exact (h.grows j hj).trans (eqs.mono j hup)
        below := fun j => by
          simp only [harr]
          by_cases hji : j = i
          · subst hji
            rw [Function.update_self]
            exact (eqs.mono j h.below).trans (htop j hi)
          · rw [Function.update_of_ne hji]
            exact h.below j
        settled := fun j hj hrs hs => by
          simp only [harr]
          have hnot : j ∉ env'.ref i ∧ j ∉ s.erase i := by simpa only [Finset.mem_union, not_or] using hs
          -- the values that `j` reads are the old ones
          have hsame : i ∉ eqs.reads j → eqs.rhs j (Function.update env.arr i (eqs.rhs i env.arr)) = eqs.rhs j env.arr := by
            intro hread
            refine eqs.reads_only j _ _ fun n hn => Function.update_of_ne ?_ _ _
            rintro rfl
            exact hread hn
          by_cases hji : j = i
          · subst hji
            have hread : j ∉ eqs.reads j := fun hn => hnot.1 ((href j).2.2 hn)
            rw [Function.update_self, hsame hread]
            exact ⟨rfl, fun n hn => (href n).2.2 hn⟩
          · have hold := h.settled j hj (fun hmem => (List.mem_cons.1 hmem).elim hji hrs)
              fun hmem => hnot.2 (Finset.mem_erase.2 ⟨hji, hmem⟩)
            have hread : i ∉ eqs.reads j := fun hn => hnot.1 ((href i).1 (hold.2 i hn))
            rw [Function.update_of_ne hji, hsame hread]
            exact ⟨hold.1, fun n hn => (href n).1 (hold.2 n hn)⟩ }
    · exact ⟨by rw [harr], hlt⟩

/-! ### Runs -/

/-- How far the values can still be raised. -/
def room (len : ℕ) (rank : B → ℕ) (top arr : ℕ → B) : ℕ := ∑ i ∈ Finset.range len, (rank (top i) - rank (arr i))

omit [DecidableEq B] [OrderBot B] in
theorem room_update {rank : B → ℕ} (hrank : StrictMono rank) {arr : ℕ → B} {b : B} (hi : i < len) (hlt : arr i < b)
    (hb : b ≤ top i) : room len rank top (Function.update arr i b) < room len rank top arr := by
  have hmono := hrank.monotone hb
  have hstrict := hrank hlt
  refine Finset.sum_lt_sum (fun j _ => ?_) ⟨i, Finset.mem_range.2 hi, ?_⟩
  · by_cases hji : j = i
    · subst hji
      rw [Function.update_self]
      omega
    · rw [Function.update_of_ne hji]
  · rw [Function.update_self]
    omega

/-- The configurations of the run from `c`. -/
def Reaches (fna : ℕ → Ms B B) (sccs : List (ℕ × List ℕ) → List ℕ) : Conf B → Conf B → Prop :=
  Relation.ReflTransGen fun c c' => step sccs fna c = some c'

omit [PartialOrder B] [OrderBot B] in
theorem li_step {n : ℕ} (hnext : ¬ (c.rs = [] ∧ c.s = ∅)) (hstep : step sccs fna c = some c') :
    li sccs fna (n + 1) c = li sccs fna n c' := by
  rw [li, if_neg hnext, hstep]
  rfl

/-- Every run ends, in a state in which all is solved. -/
theorem li_solves {rank : B → ℕ} (hrank : StrictMono rank) (htop : ∀ i < len, eqs.rhs i top ≤ top i)
    (hperm : ∀ ds, (sccs ds).Perm (ds.map Prod.fst)) (h : Good eqs top c)
    (hev : ∀ i rs s env, Reaches fna sccs c ⟨i :: rs, s, env⟩ → Good eqs top ⟨i :: rs, s, env⟩ → Evaluates eqs fna i env) :
    ∃ n env, li sccs fna n c = some env ∧ Reaches fna sccs c ⟨[], ∅, env⟩ ∧ Good eqs top ⟨[], ∅, env⟩ := by
  -- a value is raised, or there is less to do before one can be
  induction hroom : room len rank top c.env.arr using Nat.strong_induction_on generalizing c with
  | _ m ihroom =>
    induction hwork : c.rs.length + 2 * c.s.card using Nat.strong_induction_on generalizing c with
    | _ k ihwork =>
      have hgo : ∀ c', step sccs fna c = some c' → ¬ (c.rs = [] ∧ c.s = ∅) →
          (∃ n env, li sccs fna n c' = some env ∧ Reaches fna sccs c' ⟨[], ∅, env⟩ ∧ Good eqs top ⟨[], ∅, env⟩) →
          ∃ n env, li sccs fna n c = some env ∧ Reaches fna sccs c ⟨[], ∅, env⟩ ∧ Good eqs top ⟨[], ∅, env⟩ := by
        rintro c' hstep hnext ⟨n, env, hli, hreach, hgood⟩
        exact ⟨n + 1, env, (li_step hnext hstep).trans hli, .head hstep hreach, hgood⟩
      match c, h with
      | ⟨[], s, env⟩, h =>
        by_cases hs : s = ∅
        · subst hs
          exact ⟨1, env, by simp [li], .refl, h⟩
        · obtain ⟨rs, hstep, hlen, hgood⟩ := good_round hperm h
          refine hgo _ hstep (fun hc => hs hc.2) (ihwork (rs.length + 2 * 0) ?_ hgood ?_ hroom rfl)
          · have hpos := Finset.card_pos.2 (Finset.nonempty_iff_ne_empty.2 hs)
            simp only [List.length_nil] at hwork
            omega
          · exact fun i rs s env hreach => hev i rs s env (.head hstep hreach)
      | ⟨i :: rs, s, env⟩, h =>
        obtain ⟨s', env', hstep, hgood, hcase⟩ := good_eval htop h (hev i rs s env .refl h)
        have hev' := fun i rs s env hreach => hev i rs s env (.head hstep hreach)
        refine hgo _ hstep (fun hc => List.cons_ne_nil _ _ hc.1) ?_
        rcases hcase with ⟨harr, hcard⟩ | ⟨harr, hlt⟩
        · refine ihwork (rs.length + 2 * s'.card) ?_ hgood hev' ?_ rfl
          · simp only [List.length_cons] at hwork
            omega
          · simpa only [harr] using hroom
        · have hi := h.rs_lt i List.mem_cons_self
          have hle := (eqs.mono i h.below).trans (htop i hi)
          refine ihroom _ ?_ hgood hev' rfl
          have hless := room_update hrank hi hlt hle
          simp only at hroom ⊢
          rw [harr]
          omega

end

end Jhc.FindFixpoint

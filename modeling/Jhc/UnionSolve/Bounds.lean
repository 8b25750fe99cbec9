import Mathlib.Algebra.BigOperators.Group.Finset.Basic
import Mathlib.Algebra.Order.BigOperators.Group.Finset
import Jhc.UnionSolve.DoVar
import Jhc.UnionSolve.Plan

/-!
# The second phase of the solver (src/Util/UnionSolve.hs:205-258)

The bounds of a class are joins and meets of the constants around it, and are passed
on along the graph of the first phase, up to the calls that are still to be made.
-/

namespace Jhc.UnionSolve
open Fixable LawfulFixable Jhc.Lib Relation

variable {l : Type}

/-! ### The work that is left -/

/-- The constants that a bound has not taken in. -/
def pending (reached : l → l → Bool) (cs : List l) : Option l → ℕ
  | none => cs.length + 1
  | some a => cs.countP fun c => !reached c a

section Pending

variable {reached : l → l → Bool} {cs : List l} {o o' : Option l}

theorem pending_le (h : ∀ a, o = some a → ∃ a', o' = some a' ∧ ∀ c, reached c a → reached c a') :
    pending reached cs o' ≤ pending reached cs o := by
  cases o with
  | none =>
    cases o' with
    | none => exact le_rfl
    | some a' => exact List.countP_le_length.trans (Nat.le_succ _)
  | some a =>
    obtain ⟨a', rfl, hmono⟩ := h a rfl
    apply List.countP_mono_left
    intro c _ hc
    have := hmono c
    cases hr : reached c a with
    | false => rfl
    | true => simp [this hr] at hc

theorem pending_lt (h : ∀ a, o = some a → ∃ a', o' = some a' ∧ ∀ c, reached c a → reached c a')
    (hne : o' ≠ o) (hnew : ∀ a a', o = some a → o' = some a' →
      ∃ c ∈ cs, reached c a' = true ∧ reached c a = false) :
    pending reached cs o' < pending reached cs o := by
  cases o with
  | none =>
    cases o' with
    | none => exact absurd rfl hne
    | some a' => exact Nat.lt_succ_of_le List.countP_le_length
  | some a =>
    obtain ⟨a', rfl, hmono⟩ := h a rfl
    obtain ⟨c, hc, hin, hout⟩ := hnew a a' rfl rfl
    have hle : ∀ xs : List l, xs.countP (fun c => !reached c a') ≤ xs.countP fun c => !reached c a :=
      fun _ => pending_le h
    obtain ⟨xs, ys, rfl⟩ := List.append_of_mem hc
    have hxs := hle xs
    have hys := hle ys
    show List.countP _ _ < List.countP _ _
    simp only [List.countP_append, List.countP_cons, hin, hout, Bool.not_true, Bool.not_false]
    simp only [Bool.false_eq_true, if_false, if_true]
    omega

end Pending

section Rank

variable [Fixable l]

def R.open : R l → ℕ
  | .r _ => 0
  | .ri .. => 1

def lowRank (cs : List l) (r : R l) : ℕ := pending (fun c a => lte c a) cs r.low

def upRank (cs : List l) (r : R l) : ℕ := pending (fun c b => lte b c) cs r.up

/-- What can still happen to the record of a class. -/
def R.rank (cs : List l) (r : R l) : ℕ := lowRank cs r + upRank cs r + r.open

def UF.rank (cs : List l) (n : ℕ) (s : UF l) : ℕ := ∑ x ∈ Finset.range n, (s.getW x).rank cs

variable [Lattice l] [LawfulFixable l] {A B : Set l} {cs : List l} {k : Call l} {r r' : R l}
  {ks : List (Call l)}

theorem Planned.reach_low (h : Planned A B k r r' ks) (a : l) (ha : r.low = some a) :
    ∃ a', r'.low = some a' ∧ ∀ c, lte c a = true → lte c a' = true := by
  obtain ⟨a', ha', hle⟩ := h.low_le a ha
  exact ⟨a', ha', fun c hc => (lte_iff _ _).mpr (((lte_iff _ _).mp hc).trans hle)⟩

theorem Planned.reach_up (h : Planned A B k r r' ks) (b : l) (hb : r.up = some b) :
    ∃ b', r'.up = some b' ∧ ∀ c, lte b c = true → lte b' c = true := by
  obtain ⟨b', hb', hle⟩ := h.up_le b hb
  exact ⟨b', hb', fun c hc => (lte_iff _ _).mpr (hle.trans ((lte_iff _ _).mp hc))⟩

/-- A bound that rises takes in a constant, since it is a join of constants. -/
theorem Planned.low_lt (h : Planned A B k r r' ks) (hA : ∀ a ∈ A, a ∈ cs) (hne : r'.low ≠ r.low) :
    lowRank cs r' < lowRank cs r := by
  apply pending_lt h.reach_low hne
  intro a a' ha ha'
  obtain ⟨a'', ha'', hle⟩ := h.low_le a ha
  cases ha'.symm.trans ha''
  have hnot : ¬a' ≤ a := by
    intro hge
    rw [le_antisymm hge hle, ← ha] at ha'
    exact hne ha'
  obtain ⟨c, hc, hca', hca⟩ := (h.valid.1 a' ha').exists_not_le hnot
  exact ⟨c, hA c hc, (lte_iff _ _).mpr hca', Bool.eq_false_iff.mpr fun h => hca ((lte_iff _ _).mp h)⟩

theorem Planned.up_lt (h : Planned A B k r r' ks) (hB : ∀ b ∈ B, b ∈ cs) (hne : r'.up ≠ r.up) :
    upRank cs r' < upRank cs r := by
  apply pending_lt h.reach_up hne
  intro b b' hb hb'
  obtain ⟨b'', hb'', hle⟩ := h.up_le b hb
  cases hb'.symm.trans hb''
  have hnot : ¬b ≤ b' := by
    intro hge
    rw [le_antisymm hle hge, ← hb] at hb'
    exact hne hb'
  obtain ⟨c, hc, hbc', hbc⟩ := (h.valid.2 b' hb').exists_not_le hnot
  exact ⟨c, hB c hc, (lte_iff _ _).mpr hbc', Bool.eq_false_iff.mpr fun h => hbc ((lte_iff _ _).mp h)⟩

theorem Planned.rank_lt (h : Planned A B k r r' ks) (hA : ∀ a ∈ A, a ∈ cs) (hB : ∀ b ∈ B, b ∈ cs)
    (hne : r' ≠ r) : r'.rank cs < r.rank cs := by
  have hlow : lowRank cs r' ≤ lowRank cs r := pending_le h.reach_low
  have hup : upRank cs r' ≤ upRank cs r := pending_le h.reach_up
  unfold R.rank
  cases r with
  | r c => exact absurd (h.fixed c rfl) hne
  | ri ml lb mu ub =>
    cases r' with
    | r c =>
      show _ + _ + 0 < _ + _ + 1
      omega
    | ri ml' lb' mu' ub' =>
      obtain ⟨rfl, rfl⟩ := h.lists ml' lb' mu' ub' rfl
      show _ + _ + 1 < _ + _ + 1
      by_cases hml : ml' = ml
      · have hmu : mu' ≠ mu := by
          rintro rfl
          exact hne (hml ▸ rfl)
        have hlt := h.up_lt hB hmu
        omega
      · have hlt := h.low_lt hA hml
        omega

theorem Planned.rank_le (h : Planned A B k r r' ks) (hA : ∀ a ∈ A, a ∈ cs)
    (hB : ∀ b ∈ B, b ∈ cs) : r'.rank cs ≤ r.rank cs := by
  by_cases heq : r' = r
  · rw [heq]
  · exact (h.rank_lt hA hB heq).le

end Rank

/-! ### Bounds and the calls that are owed -/

section Inv

theorem Graph.constants {cs : List (CL l ℕ)} {g : UF l} (hg : Graph (Below cs) g) {x y : ℕ}
    (h : g.root x = g.root y) : lowers cs x ⊆ lowers cs y ∧ uppers cs x ⊆ uppers cs y :=
  ⟨lowers_mono (hg.same h), uppers_mono (hg.same h.symm)⟩

variable [Lattice l]

/-- The bounds of a class answer a call, or a call that is owed will. -/
def Answered (s : UF l) (ks : List (Call l)) (z : ℕ) (op : Op) (a : l) : Prop :=
  (s.getW z).Meets op a ∨ ∃ k ∈ ks, s.root k.ve = s.root z ∧
    ∀ r : R l, r.Meets k.op k.c → r.Meets op a

/-- `g` is the graph of the first phase, `ks` are the calls still to be made. -/
structure Inv (cs : List (CL l ℕ)) (n : ℕ) (g s : UF l) (ks : List (Call l)) : Prop where
  root : s.root = g.root
  valid : ∀ x, (s.getW x).Valid (lowers cs x) (uppers cs x)
  owed : ∀ k ∈ ks, k.ve < n ∧ k.Valid (lowers cs k.ve) (uppers cs k.ve)
  lists : ∀ x ml lb mu ub, s.getW x = .ri ml lb mu ub → lb = g.lbOf x ∧ ub = g.ubOf x
  up : ∀ x, ∀ z ∈ g.ubOf x, ∀ a, (s.getW x).low = some a → Answered s ks z .gte a
  down : ∀ x, ∀ z ∈ g.lbOf x, ∀ b, (s.getW x).up = some b → Answered s ks z .lte b
  crossing : ∀ x a lb b ub, s.getW x = .ri (some a) lb (some b) ub → b ≤ a →
    ∃ k ∈ ks, s.root k.ve = s.root x ∧ k.op = .eq

/-- Bounds only get closer. -/
structure Later (s s' : UF l) : Prop where
  root : s'.root = s.root
  meets : ∀ x op a, (s.getW x).Meets op a → (s'.getW x).Meets op a

theorem Later.refl (s : UF l) : Later s s := ⟨rfl, fun _ _ _ h => h⟩

theorem Later.trans {s t u : UF l} (h : Later s t) (h' : Later t u) : Later s u :=
  ⟨h'.root.trans h.root, fun x op a hx => h'.meets x op a (h.meets x op a hx)⟩

theorem meets_of_eq {r : R l} {c : l} (h : r.Meets .eq c) (op : Op) : r.Meets op c := by
  have heq : r = .r c := h
  subst heq
  cases op with
  | lte => exact ⟨c, rfl, le_rfl⟩
  | eq => rfl
  | gte => exact ⟨c, rfl, le_rfl⟩

theorem Planned.later {A B : Set l} {k : Call l} {r' : R l} {ks : List (Call l)} {s : UF l}
    (h : Planned A B k (s.getW k.ve) r' ks) : Later s (s.putW k.ve r') := by
  refine ⟨rfl, fun x op a hx => ?_⟩
  rw [UF.getW_putW]
  split_ifs with hroot
  · have hget : s.getW x = s.getW k.ve := congrArg s.info hroot
    rw [hget] at hx
    cases op with
    | lte =>
      obtain ⟨b, hb, hle⟩ := hx
      obtain ⟨b', hb', hle'⟩ := h.up_le b hb
      exact ⟨b', hb', hle'.trans hle⟩
    | eq =>
      have heq : s.getW k.ve = .r a := hx
      exact (h.fixed a heq).trans heq
    | gte =>
      obtain ⟨b, hb, hle⟩ := hx
      obtain ⟨b', hb', hle'⟩ := h.low_le b hb
      exact ⟨b', hb', hle.trans hle'⟩
  · exact hx

section Step

variable {cs : List (CL l ℕ)} {n : ℕ} {g s : UF l} {k : Call l} {ks ks' : List (Call l)} {r' : R l}

/-- What a call has been owed for is answered by its plan. -/
theorem Answered.step {A B : Set l} (hp : Planned A B k (s.getW k.ve) r' ks') {z : ℕ} {op : Op} {a : l}
    (h : Answered s (k :: ks) z op a) : Answered (s.putW k.ve r') (ks' ++ ks) z op a := by
  cases h with
  | inl hmeets => exact Or.inl (hp.later.meets z op a hmeets)
  | inr howed =>
    obtain ⟨k', hk', hroot, hgives⟩ := howed
    cases List.mem_cons.mp hk' with
    | inr hmem => exact Or.inr ⟨k', List.mem_append_right _ hmem, hroot, hgives⟩
    | inl heq =>
      subst heq
      cases hp.meets with
      | inl hmeets =>
        apply Or.inl
        rw [UF.getW_putW, if_pos hroot.symm]
        exact hgives r' hmeets
      | inr hmem =>
        exact Or.inr ⟨_, List.mem_append_left _ hmem, hroot, fun r hr => hgives r (meets_of_eq hr _)⟩

theorem Inv.lists_of (h : Inv cs n g s ks) (x : ℕ) (hopen : ∀ c, s.getW x ≠ .r c) :
    (s.getW x).lb = g.lbOf x ∧ (s.getW x).ub = g.ubOf x := by
  cases hr : s.getW x with
  | r c => exact absurd hr (hopen c)
  | ri ml lb mu ub => exact h.lists x ml lb mu ub hr

theorem Inv.sub_lists (h : Inv cs n g s ks) (x : ℕ) :
    (∀ z ∈ (s.getW x).lb, z ∈ g.lbOf x) ∧ ∀ z ∈ (s.getW x).ub, z ∈ g.ubOf x := by
  cases hr : s.getW x with
  | r c => exact ⟨fun _ hz => absurd hz List.not_mem_nil, fun _ hz => absurd hz List.not_mem_nil⟩
  | ri ml lb mu ub =>
    obtain ⟨rfl, rfl⟩ := h.lists x ml lb mu ub hr
    exact ⟨fun _ hz => hz, fun _ hz => hz⟩

theorem below_start {K : ℕ → ℕ → Prop} (hK : ∀ x y, K x y → x < n ∧ y < n) {x y : ℕ} (hy : y < n)
    (hxy : ReflTransGen K x y) : x < n := by
  induction hxy with
  | refl => exact hy
  | tail _ hstep ih => exact ih (hK _ _ hstep).1

theorem Inv.step (hn : ∀ x y, Below cs x y → x < n ∧ y < n) (hg : Graph (Below cs) g)
    (h : Inv cs n g s (k :: ks))
    (hp : Planned (lowers cs k.ve) (uppers cs k.ve) k (s.getW k.ve) r' ks') :
    Inv cs n g (s.putW k.ve r') (ks' ++ ks) := by
  have hget : ∀ x, s.root x = s.root k.ve → s.getW x = s.getW k.ve := fun x hx => congrArg s.info hx
  have hgraph : ∀ x, s.root x = s.root k.ve → g.root x = g.root k.ve := by
    intro x hx
    rwa [h.root] at hx
  have hput := UF.getW_putW s k.ve
  have hkn := (h.owed k List.mem_cons_self).1
  refine ⟨h.root, fun x => ?_, fun k' hk' => ?_, fun x ml lb mu ub hx => ?_, fun x z hz a ha => ?_,
    fun x z hz b hb => ?_, fun x a lb b ub hx hle => ?_⟩
  · rw [hput]
    split_ifs with hx
    · have hsub := hg.constants (hgraph x hx).symm
      exact ⟨fun a ha => (hp.valid.1 a ha).mono hsub.1, fun b hb => (hp.valid.2 b hb).mono hsub.2⟩
    · exact h.valid x
  · cases List.mem_append.mp hk' with
    | inr hmem => exact h.owed k' (List.mem_cons_of_mem k hmem)
    | inl hmem =>
      rcases hp.calls k' hmem with ⟨hve, -, hvalid⟩ | ⟨hop, hve, hvalid⟩ | ⟨hop, hve, hvalid⟩
      · rw [hve]
        exact ⟨hkn, hvalid⟩
      · have hz := (h.sub_lists k.ve).1 _ hve
        have hbelow := hg.lower k.ve _ hz
        refine ⟨below_start hn hkn hbelow, fun hne => absurd hop hne, fun _ => ?_⟩
        exact hvalid.mono (uppers_mono hbelow)
      · have hz := (h.sub_lists k.ve).2 _ hve
        have hbelow := hg.upper k.ve _ hz
        refine ⟨below_bound hn hkn hbelow, fun _ => ?_, fun hne => absurd hop hne⟩
        exact hvalid.mono (lowers_mono hbelow)
  · rw [hput] at hx
    split_ifs at hx with hroot
    · obtain ⟨hlb, hub⟩ := hp.lists ml lb mu ub hx
      have hlists := UF.class_lists (hgraph x hroot)
      rw [hlists.1, hlists.2, hlb, hub]
      apply h.lists_of
      intro c hc
      have heq := hp.fixed c hc
      rw [hx, hc] at heq
      cases heq
    · exact h.lists x ml lb mu ub hx
  · rw [hput] at ha
    split_ifs at ha with hroot
    · by_cases hsame : (s.getW k.ve).low = some a
      · rw [← hget x hroot] at hsame
        exact (h.up x z hz a hsame).step hp
      · have hub : z ∈ (s.getW k.ve).ub := by
          rw [(h.lists_of k.ve fun c hc => ?_).2]
          · exact (UF.class_lists (hgraph x hroot)).2 ▸ hz
          · rw [hp.fixed c hc] at ha
            exact hsame ha
        have hmem := List.mem_append_left ks (hp.rise a ha hsame z hub)
        exact Or.inr ⟨_, hmem, rfl, fun _ hr => hr⟩
    · exact (h.up x z hz a ha).step hp
  · rw [hput] at hb
    split_ifs at hb with hroot
    · by_cases hsame : (s.getW k.ve).up = some b
      · rw [← hget x hroot] at hsame
        exact (h.down x z hz b hsame).step hp
      · have hlb : z ∈ (s.getW k.ve).lb := by
          rw [(h.lists_of k.ve fun c hc => ?_).1]
          · exact (UF.class_lists (hgraph x hroot)).1 ▸ hz
          · rw [hp.fixed c hc] at hb
            exact hsame hb
        have hmem := List.mem_append_left ks (hp.drop b hb hsame z hlb)
        exact Or.inr ⟨_, hmem, rfl, fun _ hr => hr⟩
    · exact (h.down x z hz b hb).step hp
  · have hold : s.getW x = .ri (some a) lb (some b) ub →
        ∃ k' ∈ ks' ++ ks, s.root k'.ve = s.root x ∧ k'.op = .eq := by
      intro hs
      obtain ⟨k', hk', hroot, hop⟩ := h.crossing x a lb b ub hs hle
      cases List.mem_cons.mp hk' with
      | inr hmem => exact ⟨k', List.mem_append_right _ hmem, hroot, hop⟩
      | inl heq =>
        subst heq
        cases hp.meets with
        | inr hmem => exact ⟨_, List.mem_append_left _ hmem, hroot, rfl⟩
        | inl hmeets =>
          rw [hput, if_pos hroot.symm] at hx
          rw [hop, hx] at hmeets
          cases hmeets
    rw [hput] at hx
    split_ifs at hx with hroot
    · cases hp.crossing a lb b ub hx hle with
      | inl heq => exact hold ((hget x hroot).trans (heq.symm.trans hx))
      | inr hmem => exact ⟨_, List.mem_append_left _ hmem, hroot.symm, rfl⟩
    · exact hold hx

end Step

end Inv

/-! ### doOp -/

section DoOp

variable [Fixable l] [Lattice l] {cs : List (CL l ℕ)} {n fuel : ℕ} {g s : UF l} {k : Call l}
  {ks ks' : List (Call l)} {r' : R l}

/-- The fuel that a call of `doOp` needs. -/
def opNeed (op : Op) (rank : ℕ) : ℕ := if op = .eq then 2 * rank + 1 else 2 * rank + 2

theorem opNeed_le (op : Op) (rank : ℕ) : opNeed op rank ≤ 2 * rank + 2 := by
  unfold opNeed
  split_ifs <;> omega

def OpSpec (cs : List (CL l ℕ)) (n : ℕ) (g : UF l) (fuel : ℕ)
    (rec : ℕ → Op → l → UF l → Except Stop (UF l)) : Prop :=
  ∀ k s ks, Inv cs n g s (k :: ks) → Ensures (rec k.ve k.op k.c s)
    (fun s' => Inv cs n g s' ks ∧ Later s s' ∧ s'.rank (consts cs) n ≤ s.rank (consts cs) n ∧
      (s'.getW k.ve).Meets k.op k.c)
    (∃ x, Crossed cs x) (fuel < opNeed k.op (s.rank (consts cs) n))

variable {rec : ℕ → Op → l → UF l → Except Stop (UF l)}

/-- The calls of a plan are answered one after the other. -/
theorem calls_spec (hrec : OpSpec cs n g fuel rec) {O : Prop} (h : Inv cs n g s (ks' ++ ks))
    (hfuel : ∀ k ∈ ks', ∀ rank ≤ s.rank (consts cs) n, fuel < opNeed k.op rank → O) :
    Ensures (calls rec ks' s) (fun s' => Inv cs n g s' ks ∧ Later s s' ∧
        s'.rank (consts cs) n ≤ s.rank (consts cs) n ∧
        ∀ k ∈ ks', (s'.getW k.ve).Meets k.op k.c)
      (∃ x, Crossed cs x) O := by
  refine (Ensures.foldlM (fun rest t => Inv cs n g t (rest ++ ks) ∧ Later s t ∧
    t.rank (consts cs) n ≤ s.rank (consts cs) n ∧ (∀ k ∈ rest, k ∈ ks') ∧
    ∀ k ∈ ks', k ∈ rest ∨ (t.getW k.ve).Meets k.op k.c) ?_
    ⟨h, Later.refl s, le_rfl, fun _ hk => hk, fun _ hk => Or.inl hk⟩).mono ?_ id id
  · intro k rest t ⟨hinv, hlater, hrank, hsub, hdone⟩
    refine (hrec k t (rest ++ ks) hinv).mono (fun u hu => ?_) id
      fun hf => hfuel k (hsub k List.mem_cons_self) _ hrank hf
    obtain ⟨hinv', hlater', hrank', hmeets⟩ := hu
    refine ⟨hinv', hlater.trans hlater', hrank'.trans hrank,
      fun k' hk' => hsub k' (List.mem_cons_of_mem k hk'), fun k' hk' => ?_⟩
    cases hdone k' hk' with
    | inr hm => exact Or.inr (hlater'.meets _ _ _ hm)
    | inl hmem =>
      cases List.mem_cons.mp hmem with
      | inl heq => exact Or.inr (heq ▸ hmeets)
      | inr hrest => exact Or.inl hrest
  · intro t ⟨hinv, hlater, hrank, _, hdone⟩
    exact ⟨hinv, hlater, hrank, fun k hk => (hdone k hk).resolve_left List.not_mem_nil⟩

variable [LawfulFixable l]

theorem Planned.state_rank
    (h : Planned (lowers cs k.ve) (uppers cs k.ve) k (s.getW k.ve) r' ks) (hk : k.ve < n) :
    (s.putW k.ve r').rank (consts cs) n ≤ s.rank (consts cs) n ∧
      (r' ≠ s.getW k.ve → (s.putW k.ve r').rank (consts cs) n < s.rank (consts cs) n) := by
  have hA : ∀ a ∈ lowers cs k.ve, a ∈ consts cs := fun _ => lowers_consts
  have hB : ∀ b ∈ uppers cs k.ve, b ∈ consts cs := fun _ => uppers_consts
  have hle : ∀ x ∈ Finset.range n,
      ((s.putW k.ve r').getW x).rank (consts cs) ≤ (s.getW x).rank (consts cs) := by
    intro x _
    rw [UF.getW_putW]
    split_ifs with hroot
    · have hget : s.getW x = s.getW k.ve := congrArg s.info hroot
      rw [hget]
      exact h.rank_le hA hB
    · exact le_rfl
  refine ⟨Finset.sum_le_sum hle, fun hne => ?_⟩
  apply Finset.sum_lt_sum hle
  refine ⟨k.ve, Finset.mem_range.mpr hk, ?_⟩
  rw [UF.getW_putW, if_pos rfl]
  exact h.rank_lt hA hB hne

theorem doOpF_spec (hn : ∀ x y, Below cs x y → x < n ∧ y < n) (hg : Graph (Below cs) g)
    (hrec : OpSpec cs n g fuel rec) : OpSpec cs n g (fuel + 1) (doOpF rec) := by
  intro k s ks h
  obtain ⟨hkn, hkvalid⟩ := h.owed k List.mem_cons_self
  have hplan := plan_spec (h.valid k.ve) hkvalid
  rw [doOpF_eq]
  cases hp : plan k (s.getW k.ve) with
  | none =>
    rw [hp] at hplan
    exact ⟨k.ve, Clash.crossed hplan⟩
  | some p =>
    obtain ⟨r', ks'⟩ := p
    rw [hp] at hplan
    have hplanned : Planned (lowers cs k.ve) (uppers cs k.ve) k (s.getW k.ve) r' ks' := hplan
    obtain ⟨hle, hlt⟩ := hplanned.state_rank hkn
    show Ensures (calls rec ks' (s.putW k.ve r')) _ _ _
    refine (calls_spec hrec (h.step hn hg hplanned) ?_).mono (fun t ht => ?_) id id
    · intro k' hk' rank hrank hfuel
      have hneed := opNeed_le k'.op rank
      rcases hplanned.smaller with hne | hnil | ⟨hop, hsingle⟩
      · have hsmaller := hlt hne
        unfold opNeed
        split_ifs <;> omega
      · exact absurd (hnil ▸ hk') List.not_mem_nil
      · -- the same class is set: one more call at most before the state changes
        rw [hsingle] at hk'
        cases List.mem_singleton.mp hk'
        unfold opNeed at hfuel ⊢
        rw [if_pos rfl] at hfuel
        rw [if_neg hop]
        omega
    · obtain ⟨hinv, hlater, hrank, hdone⟩ := ht
      refine ⟨hinv, hplanned.later.trans hlater, hrank.trans hle, ?_⟩
      cases hplanned.meets with
      | inl hmeets =>
        apply hlater.meets
        rw [UF.getW_putW, if_pos rfl]
        exact hmeets
      | inr hmem => exact meets_of_eq (hdone _ hmem) _

theorem doOp_spec (hn : ∀ x y, Below cs x y → x < n ∧ y < n) (hg : Graph (Below cs) g) (fuel : ℕ) :
    OpSpec cs n g fuel (doOp fuel) := by
  induction fuel with
  | zero =>
    intro k s ks _
    show 0 < opNeed k.op _
    unfold opNeed
    split_ifs <;> omega
  | succ fuel ih => exact doOpF_spec hn hg ih

/-! ### The fold over the constraints with constants -/

omit [Fixable l] [LawfulFixable l] in
theorem Inv.owe (h : Inv cs n g s ks) (hk : k.ve < n)
    (hvalid : k.Valid (lowers cs k.ve) (uppers cs k.ve)) : Inv cs n g s (k :: ks) := by
  have hmore : ∀ z op a, Answered s ks z op a → Answered s (k :: ks) z op a := by
    intro z op a hans
    cases hans with
    | inl hm => exact Or.inl hm
    | inr howed =>
      obtain ⟨k', hk', hroot, hgives⟩ := howed
      exact Or.inr ⟨k', List.mem_cons_of_mem k hk', hroot, hgives⟩
  refine ⟨h.root, h.valid, fun k' hk' => ?_, h.lists, fun x z hz a ha => hmore _ _ _ (h.up x z hz a ha),
    fun x z hz b hb => hmore _ _ _ (h.down x z hz b hb), fun x a lb b ub hx hle => ?_⟩
  · cases List.mem_cons.mp hk' with
    | inl heq => exact heq ▸ ⟨hk, hvalid⟩
    | inr hmem => exact h.owed k' hmem
  · obtain ⟨k', hk', hroot, hop⟩ := h.crossing x a lb b ub hx hle
    exact ⟨k', List.mem_cons_of_mem k hk', hroot, hop⟩

omit [Fixable l] [LawfulFixable l] in
theorem literal_valid {x : ℕ} {op : Op} {c : l} (hc : .cl x op c ∈ cs) :
    (⟨x, op, c⟩ : Call l).Valid (lowers cs x) (uppers cs x) := by
  cases op with
  | lte => exact ⟨fun h => absurd rfl h, fun _ => upp_of_mem ⟨x, .refl, Or.inl hc⟩⟩
  | eq => exact ⟨fun _ => low_of_mem ⟨x, .refl, Or.inr hc⟩, fun _ => upp_of_mem ⟨x, .refl, Or.inr hc⟩⟩
  | gte => exact ⟨fun _ => low_of_mem ⟨x, .refl, Or.inl hc⟩, fun h => absurd rfl h⟩

omit [Fixable l] [LawfulFixable l] in
theorem Graph.inv (hg : Graph (Below cs) g) : Inv cs n g g [] := by
  have hbare : ∀ x, (g.getW x).low = none ∧ (g.getW x).up = none := by
    intro x
    obtain ⟨lb, ub, hget⟩ := hg.bare x
    rw [hget]
    exact ⟨rfl, rfl⟩
  refine ⟨rfl, fun x => ⟨fun a ha => ?_, fun b hb => ?_⟩, nofun, fun x ml lb mu ub hx => ?_,
    fun x z _ a ha => ?_, fun x z _ b hb => ?_, fun x a lb b ub hx _ => ?_⟩
  · rw [(hbare x).1] at ha
    cases ha
  · rw [(hbare x).2] at hb
    cases hb
  · obtain ⟨hlb, hub⟩ := UF.lists_of_getW hx
    exact ⟨hlb.symm, hub.symm⟩
  · rw [(hbare x).1] at ha
    cases ha
  · rw [(hbare x).2] at hb
    cases hb
  · have hlow := (hbare x).1
    rw [hx] at hlow
    cases hlow

omit [Lattice l] [LawfulFixable l] in
theorem rank_bound (cs : List l) (n : ℕ) (s : UF l) : s.rank cs n ≤ n * (2 * cs.length + 3) := by
  have hpending : ∀ (reached : l → l → Bool) (o : Option l), pending reached cs o ≤ cs.length + 1 := by
    intro reached o
    cases o with
    | none => exact le_rfl
    | some a => exact List.countP_le_length.trans (Nat.le_succ _)
  have hrank : ∀ r : R l, r.rank cs ≤ 2 * cs.length + 3 := by
    intro r
    have hlow := hpending (fun c a => lte c a) r.low
    have hup := hpending (fun c b => lte b c) r.up
    have hopen : r.open ≤ 1 := by
      cases r with
      | r c => exact Nat.zero_le 1
      | ri ml lb mu ub => exact le_rfl
    show pending _ cs r.low + pending _ cs r.up + r.open ≤ _
    omega
  have hsum := Finset.sum_le_card_nsmul (Finset.range n) (fun x => (s.getW x).rank cs) _
    fun x _ => hrank (s.getW x)
  rw [Finset.card_range] at hsum
  exact hsum

/-- What the second phase returns meets every constraint with a constant. -/
theorem procLits_spec (hn : ∀ c ∈ cs, c.Bounded n) (hg : Graph (Below cs) g)
    (hfuel : 2 * (n * (2 * (consts cs).length + 3)) + 2 ≤ fuel) :
    Ensures (cs.foldlM (procLit fuel) g) (fun s => Inv cs n g s [] ∧
        ∀ x op c, .cl x op c ∈ cs → (s.getW x).Meets op c)
      (∃ x, Crossed cs x) False := by
  have hbelow : ∀ x y, Below cs x y → x < n ∧ y < n := by
    rintro x y ⟨c, hc, hxy⟩
    exact hxy.bounded (hn c hc)
  refine (Ensures.foldlM (F := ∃ x, Crossed cs x) (O := False) (fun rest s => Inv cs n g s [] ∧
    (∀ c ∈ rest, c ∈ cs) ∧ ∀ x op c, .cl x op c ∈ cs → .cl x op c ∈ rest ∨ (s.getW x).Meets op c)
    ?_ ⟨hg.inv, fun _ hc => hc, fun _ _ _ hc => Or.inl hc⟩).mono ?_ id id
  · intro c rest s ⟨hinv, hsub, hdone⟩
    have hrest : ∀ d ∈ rest, d ∈ cs := fun d hd => hsub d (List.mem_cons_of_mem c hd)
    cases c with
    | cv x op y =>
      refine ⟨hinv, hrest, fun x' op' c' hc' => (hdone x' op' c' hc').imp_left fun hmem => ?_⟩
      cases List.mem_cons.mp hmem with
      | inl h => cases h
      | inr h => exact h
    | cl x op c =>
      have hmem := hsub _ List.mem_cons_self
      have hclass : g.root x = g.root (g.root x) := (hg.idem x).symm
      have hxn : g.root x < n := below_bound hbelow (hn _ hmem) (hg.merged x).1
      have hvalid := literal_valid hmem
      have hconst := hg.constants hclass
      have howed : Inv cs n g s [⟨s.root x, op, c⟩] := by
        rw [hinv.root]
        exact hinv.owe hxn ⟨fun hne => (hvalid.1 hne).mono hconst.1, fun hne => (hvalid.2 hne).mono hconst.2⟩
      have hrank := rank_bound (consts cs) n s
      have hneed := opNeed_le op (s.rank (consts cs) n)
      refine (doOp_spec hbelow hg fuel ⟨s.root x, op, c⟩ s [] howed).mono (fun t ht => ?_) id
        fun hlow => by
          have : fuel < opNeed op (s.rank (consts cs) n) := hlow
          omega
      obtain ⟨hinv', hlater, -, hmeets⟩ := ht
      refine ⟨hinv', hrest, fun x' op' c' hc' => ?_⟩
      cases hdone x' op' c' hc' with
      | inr hm => exact Or.inr (hlater.meets _ _ _ hm)
      | inl hin =>
        cases List.mem_cons.mp hin with
        | inr h => exact Or.inl h
        | inl heq =>
          cases heq
          have hget : t.getW x = t.getW (s.root x) := by
            unfold UF.getW
            rw [hinv'.root, hinv.root, hg.idem]
          exact Or.inr (hget ▸ hmeets)
  · intro s ⟨hinv, _, hdone⟩
    exact ⟨hinv, fun x op c hc => (hdone x op c hc).resolve_left List.not_mem_nil⟩

end DoOp

/-! ### The bounds in the end -/

section Final

variable [Lattice l] {cs : List (CL l ℕ)} {n : ℕ} {g s : UF l}

/-- Without calls left, what is above one class is above those over it, and dually. -/
theorem Inv.along (h : Inv cs n g s []) (hc : Covers (Below cs) g) {x y : ℕ}
    (hxy : ReflTransGen (Below cs) x y) (a : l) :
    ((s.getW x).Meets .gte a → (s.getW y).Meets .gte a) ∧
      ((s.getW y).Meets .lte a → (s.getW x).Meets .lte a) := by
  obtain ⟨hup, hdown⟩ := hc.path hxy
  have hget : ∀ u w, g.root u = g.root w → s.getW u = s.getW w := by
    intro u w huw
    unfold UF.getW
    rw [h.root, huw]
  have hanswer : ∀ z op b, Answered s [] z op b → (s.getW z).Meets op b := fun z op b hans =>
    hans.resolve_right fun ⟨k, hk, _⟩ => absurd hk List.not_mem_nil
  constructor
  · intro hx
    clear hdown hxy
    induction hup with
    | refl => exact hx
    | tail _ hstep ih =>
      rcases hstep with heq | ⟨z, hz, hzy⟩
      · exact hget _ _ heq ▸ ih
      · obtain ⟨b, hb, hle⟩ := ih
        obtain ⟨b', hb', hle'⟩ := hanswer z _ _ (h.up _ z hz b hb)
        exact hget _ _ hzy ▸ ⟨b', hb', hle.trans hle'⟩
  · intro hy
    clear hup hxy
    induction hdown with
    | refl => exact hy
    | tail _ hstep ih =>
      rcases hstep with heq | ⟨z, hz, hzy⟩
      · exact hget _ _ heq ▸ ih
      · obtain ⟨b, hb, hle⟩ := ih
        obtain ⟨b', hb', hle'⟩ := hanswer z _ _ (h.down _ z hz b hb)
        exact hget _ _ hzy ▸ ⟨b', hb', hle'.trans hle⟩

theorem Inv.reaches (h : Inv cs n g s []) (hc : Covers (Below cs) g)
    (hmeets : ∀ x op c, .cl x op c ∈ cs → (s.getW x).Meets op c) (x : ℕ) :
    (∀ a ∈ lowers cs x, (s.getW x).Meets .gte a) ∧ ∀ b ∈ uppers cs x, (s.getW x).Meets .lte b := by
  constructor
  · rintro a ⟨u, hux, hor⟩
    apply (h.along hc hux a).1
    cases hor with
    | inl hmem => exact hmeets u _ a hmem
    | inr hmem => exact meets_of_eq (hmeets u _ a hmem) _
  · rintro b ⟨u, hxu, hor⟩
    apply (h.along hc hxu b).2
    cases hor with
    | inl hmem => exact hmeets u _ b hmem
    | inr hmem => exact meets_of_eq (hmeets u _ b hmem) _

/-- What is returned has no variable whose constants the solver can see to disagree. -/
theorem Inv.not_crossed (h : Inv cs n g s []) (hc : Covers (Below cs) g)
    (hmeets : ∀ x op c, .cl x op c ∈ cs → (s.getW x).Meets op c) (x : ℕ) : ¬Crossed cs x := by
  rintro ⟨⟨a, ha, b, hb, hab⟩, hcross⟩
  obtain ⟨hlow, hup⟩ := h.reaches hc hmeets x
  obtain ⟨lo, hlo, hale⟩ := hlow a ha
  obtain ⟨u, hu, hble⟩ := hup b hb
  have hle : u ≤ lo := by
    apply hcross
    · intro b' hb'
      obtain ⟨u', hu', hle'⟩ := hup b' hb'
      cases hu.symm.trans hu'
      exact hle'
    · intro a' ha'
      obtain ⟨lo', hlo', hle'⟩ := hlow a' ha'
      cases hlo.symm.trans hlo'
      exact hle'
  cases hget : s.getW x with
  | r c =>
    rw [hget] at hlo hu
    cases hlo
    cases hu
    exact hab (hale.trans hble)
  | ri ml lb mu ub =>
    rw [hget] at hlo hu
    cases hlo
    cases hu
    obtain ⟨k, hk, -⟩ := h.crossing x lo lb u ub hget hle
    exact absurd hk List.not_mem_nil

end Final

end Jhc.UnionSolve

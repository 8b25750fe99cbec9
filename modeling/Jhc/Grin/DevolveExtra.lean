import Mathlib.Algebra.Order.BigOperators.Group.List
import Mathlib.Algebra.Order.Ring.Nat
import Mathlib.Data.Finset.Card
import Jhc.Lib.Lookup
import Jhc.Grin.Devolve

/-!
# The extra parameters that `iterZ` computes (Grin/Devolve.hs:36-46)

`iterZ` passes over the lifted functions once, and when that changes a set it passes
over all functions of the `Let` until nothing changes. It ends, and the sets are then
the variables that flow to a function along the tags in the functions.
-/

namespace Jhc.Grin

namespace PMap

theorem get_cons (k a : Atom) (v : VarSet) (ps : PMap) :
    PMap.get ((k, v) :: ps) a = if a = k then v else PMap.get ps a := by
  by_cases h : a = k
  · simp [PMap.get, h]
  · have hbeq : (a == k) = false := by simpa using h
    simp [PMap.get, List.lookup_cons, hbeq, h]

theorem get_insert (n a : Atom) (xs : VarSet) (pmap : PMap) :
    PMap.get (PMap.insert n xs pmap) a = if a = n then xs else PMap.get pmap a := by
  induction pmap with
  | nil =>
    rw [PMap.insert, get_cons]
  | cons p ps ih =>
    obtain ⟨k, v⟩ := p
    unfold PMap.insert
    split
    · next hk =>
      have hk : k = n := hk
      subst hk
      rw [get_cons, get_cons]
      split <;> rfl
    · next hk =>
      have hk : k ≠ n := hk
      rw [get_cons, get_cons, ih]
      by_cases h : a = k
      · subst h
        rw [if_pos rfl, if_neg hk, if_pos rfl]
      · rw [if_neg h, if_neg h]

theorem get_of_notMem {pmap : PMap} {a : Atom} (h : a ∉ pmap.map Prod.fst) : PMap.get pmap a = [] := by
  rw [PMap.get, Lib.lookup_eq_none.2 h]
  rfl

theorem mem_keys_of_get {pmap : PMap} {a : Atom} {x : Var × Ty} (h : x ∈ PMap.get pmap a) :
    a ∈ pmap.map Prod.fst := by
  by_contra hne
  rw [get_of_notMem hne] at h
  cases h

end PMap

theorem mem_iterSet {pmap : PMap} {fd : FuncDef} {x : Var × Ty} :
    x ∈ iterSet pmap fd ↔ x ∈ PMap.get pmap fd.name ∨ ∃ t ∈ fd.props.funcTags, x ∈ PMap.get pmap t := by
  simp only [iterSet, VarSet.mem_unions, List.mem_cons, List.mem_map, List.mem_filter, decide_eq_true_eq,
    exists_eq_or_imp]
  apply or_congr_right
  constructor
  · rintro ⟨s, ⟨t, ⟨_, ht⟩, rfl⟩, hx⟩
    exact ⟨t, ht, hx⟩
  · rintro ⟨t, ht, hx⟩
    have hkey := PMap.mem_keys_of_get hx
    exact ⟨_, ⟨t, ⟨by simpa using hkey, ht⟩, rfl⟩, hx⟩

/-! ### One pass -/

theorem iterPass_true (pmap : PMap) (fds : List FuncDef) : (iterPass true pmap fds).1 = true := by
  induction fds generalizing pmap with
  | nil => rfl
  | cons fd fds ih =>
    rw [iterPass, Bool.true_or]
    exact ih _

theorem get_step {pmap : PMap} {fd : FuncDef} {a : Atom} {x : Var × Ty} (h : x ∈ PMap.get pmap a) :
    x ∈ PMap.get (PMap.insert fd.name (iterSet pmap fd) pmap) a := by
  rw [PMap.get_insert]
  split
  · next ha =>
    subst ha
    exact mem_iterSet.2 (.inl h)
  · exact h

theorem iterPass_mono {b : Bool} {pmap : PMap} {fds : List FuncDef} {a : Atom} {x : Var × Ty}
    (h : x ∈ PMap.get pmap a) : x ∈ PMap.get (iterPass b pmap fds).2 a := by
  induction fds generalizing b pmap with
  | nil => exact h
  | cons fd fds ih =>
    rw [iterPass]
    exact ih (get_step h)

/-- A pass adds nothing that does not follow from what is there. -/
theorem iterPass_sound {R : Atom → Var × Ty → Prop} {b : Bool} {pmap : PMap} {fds : List FuncDef}
    (hR : ∀ fd ∈ fds, ∀ t ∈ fd.props.funcTags, ∀ x, R t x → R fd.name x)
    (h : ∀ a x, x ∈ PMap.get pmap a → R a x) : ∀ a x, x ∈ PMap.get (iterPass b pmap fds).2 a → R a x := by
  induction fds generalizing b pmap with
  | nil => exact h
  | cons fd fds ih =>
    rw [iterPass]
    apply ih fun fd' hfd' => hR fd' (List.mem_cons_of_mem _ hfd')
    intro a x hx
    rw [PMap.get_insert] at hx
    split at hx
    · next ha =>
      subst ha
      obtain hx | ⟨t, ht, hx⟩ := mem_iterSet.1 hx
      · exact h _ x hx
      · exact hR fd List.mem_cons_self t ht x (h t x hx)
    · exact h a x hx

theorem iterPass_keys {b : Bool} {pmap : PMap} {fds : List FuncDef} {a : Atom}
    (h : PMap.get (iterPass b pmap fds).2 a ≠ []) (hfds : ∀ fd ∈ fds, fd.name ≠ a) : PMap.get pmap a ≠ [] := by
  induction fds generalizing b pmap with
  | nil => exact h
  | cons fd fds ih =>
    rw [iterPass] at h
    have hnext := ih h fun fd' hfd' => hfds fd' (List.mem_cons_of_mem _ hfd')
    rw [PMap.get_insert, if_neg fun ha => hfds fd List.mem_cons_self ha.symm] at hnext
    exact hnext

/-- A pass that reports no change has found a fixpoint. -/
theorem iterPass_unchanged {b : Bool} {pmap : PMap} {fds : List FuncDef} (h : (iterPass b pmap fds).1 = false) :
    b = false ∧ (∀ a x, x ∈ PMap.get (iterPass b pmap fds).2 a ↔ x ∈ PMap.get pmap a) ∧
      ∀ fd ∈ fds, ∀ t ∈ fd.props.funcTags, ∀ x, x ∈ PMap.get pmap t → x ∈ PMap.get pmap fd.name := by
  induction fds generalizing b pmap with
  | nil => exact ⟨h, fun _ _ => Iff.rfl, by simp⟩
  | cons fd fds ih =>
    rw [iterPass] at h ⊢
    obtain ⟨hb, hsame, hclosed⟩ := ih h
    simp only [Bool.or_eq_false_iff, Bool.not_eq_false'] at hb
    have heq := VarSet.same_iff.1 hb.2
    have hget : ∀ a x, x ∈ PMap.get (PMap.insert fd.name (iterSet pmap fd) pmap) a ↔ x ∈ PMap.get pmap a := by
      intro a x
      rw [PMap.get_insert]
      split
      · next ha => rw [ha, heq x]
      · rfl
    refine ⟨hb.1, fun a x => (hsame a x).trans (hget a x), ?_⟩
    intro fd' hfd' t ht x hx
    obtain rfl | hfd' := List.mem_cons.1 hfd'
    · exact (heq x).2 (mem_iterSet.2 (.inr ⟨t, ht, hx⟩))
    · exact (hget _ x).1 (hclosed fd' hfd' t ht x ((hget t x).2 hx))

/-- A pass that reports a change has added a variable to the set of a function. -/
theorem iterPass_changed {pmap : PMap} {fds : List FuncDef} (h : (iterPass false pmap fds).1 = true) :
    ∃ fd ∈ fds, ∃ x, x ∈ PMap.get (iterPass false pmap fds).2 fd.name ∧ x ∉ PMap.get pmap fd.name := by
  by_contra hno
  push Not at hno
  have hfalse : ∀ b qmap, (∀ a x, x ∈ PMap.get qmap a ↔ x ∈ PMap.get pmap a) → b = false →
      ∀ fds', (∀ fd ∈ fds', fd ∈ fds) →
      (∀ a x, x ∈ PMap.get (iterPass b qmap fds').2 a → x ∈ PMap.get (iterPass false pmap fds).2 a) →
      (iterPass b qmap fds').1 = false := by
    intro b qmap hq hb fds' hsub hmono
    induction fds' generalizing b qmap with
    | nil => exact hb
    | cons fd fds' ih =>
      rw [iterPass]
      have hset : ∀ x, x ∈ PMap.get qmap fd.name ↔ x ∈ iterSet qmap fd := by
        intro x
        constructor
        · intro hx
          exact mem_iterSet.2 (.inl hx)
        · intro hx
          apply (hq _ x).2
          apply hno fd (hsub fd List.mem_cons_self) x
          apply hmono
          rw [iterPass]
          apply iterPass_mono
          rw [PMap.get_insert, if_pos rfl]
          exact hx
      apply ih
      · intro a x
        rw [PMap.get_insert]
        split
        · next ha => rw [← hset x, ha, hq]
        · exact hq a x
      · simp [hb, VarSet.same_iff.2 hset]
      · intro fd' hfd'
        exact hsub fd' (List.mem_cons_of_mem _ hfd')
      · intro a x hx
        apply hmono
        rw [iterPass]
        exact hx
  have hend := hfalse false pmap (fun _ _ => Iff.rfl) rfl fds (fun _ h => h) (fun _ _ h => h)
  rw [hend] at h
  cases h

/-! ### All passes -/

theorem iterZ_mono {defs : List FuncDef} {fuel : ℕ} {b : Bool} {pmap pmap' : PMap}
    (h : iterZ defs fuel (b, pmap) = some pmap') {a : Atom} {x : Var × Ty} (hx : x ∈ PMap.get pmap a) :
    x ∈ PMap.get pmap' a := by
  induction fuel generalizing b pmap with
  | zero =>
    cases b with
    | false =>
      cases h
      exact hx
    | true => cases h
  | succ fuel ih =>
    cases b with
    | false =>
      cases h
      exact hx
    | true => exact ih h (iterPass_mono hx)

theorem iterZ_sound {R : Atom → Var × Ty → Prop} {defs : List FuncDef} {fuel : ℕ} {b : Bool}
    {pmap pmap' : PMap} (hR : ∀ fd ∈ defs, ∀ t ∈ fd.props.funcTags, ∀ x, R t x → R fd.name x)
    (h : iterZ defs fuel (b, pmap) = some pmap') (hpmap : ∀ a x, x ∈ PMap.get pmap a → R a x) :
    ∀ a x, x ∈ PMap.get pmap' a → R a x := by
  induction fuel generalizing b pmap with
  | zero =>
    cases b with
    | false =>
      cases h
      exact hpmap
    | true => cases h
  | succ fuel ih =>
    cases b with
    | false =>
      cases h
      exact hpmap
    | true => exact ih h (iterPass_sound hR hpmap)

/-- After a change the loop ends only at a fixpoint over all functions of the `Let`. -/
theorem iterZ_closed {defs : List FuncDef} {fuel : ℕ} {pmap pmap' : PMap}
    (h : iterZ defs fuel (true, pmap) = some pmap') : ∀ fd ∈ defs, ∀ t ∈ fd.props.funcTags, ∀ x,
      x ∈ PMap.get pmap' t → x ∈ PMap.get pmap' fd.name := by
  induction fuel generalizing pmap with
  | zero => cases h
  | succ fuel ih =>
    rw [iterZ] at h
    cases hpass : iterPass false pmap defs with
    | mk b qmap =>
      rw [hpass] at h
      cases b with
      | true => exact ih h
      | false =>
        obtain ⟨_, hsame, hclosed⟩ := iterPass_unchanged (b := false) (by rw [hpass])
        rw [hpass] at hsame
        have hq : qmap = pmap' := by
          cases fuel <;> exact Option.some.inj h
        subst hq
        intro fd hfd t ht x hx
        exact (hsame _ x).2 (hclosed fd hfd t ht x ((hsame t x).1 hx))

/-! ### The loop ends -/

/-- How many variables the sets of the functions hold together. -/
def held (defs : List FuncDef) (pmap : PMap) : ℕ :=
  (defs.map fun fd => (PMap.get pmap fd.name).toFinset.card).sum

theorem held_le {defs : List FuncDef} {pmap : PMap} {U : VarSet} (h : ∀ a x, x ∈ PMap.get pmap a → x ∈ U) :
    held defs pmap ≤ defs.length * U.length := by
  have hcard : ∀ n ∈ defs.map fun fd => (PMap.get pmap fd.name).toFinset.card, n ≤ U.length := by
    intro n hn
    obtain ⟨fd, _, rfl⟩ := List.mem_map.1 hn
    have hsub : (PMap.get pmap fd.name).toFinset ⊆ U.toFinset := by
      intro x hx
      exact List.mem_toFinset.2 (h _ x (List.mem_toFinset.1 hx))
    exact (Finset.card_le_card hsub).trans (List.toFinset_card_le U)
  have hsum := List.sum_le_card_nsmul _ _ hcard
  simpa [held] using hsum

theorem held_lt {defs : List FuncDef} {pmap : PMap} (h : (iterPass false pmap defs).1 = true) :
    held defs pmap < held defs (iterPass false pmap defs).2 := by
  have hsub : ∀ a, (PMap.get pmap a).toFinset ⊆ (PMap.get (iterPass false pmap defs).2 a).toFinset := by
    intro a x hx
    exact List.mem_toFinset.2 (iterPass_mono (List.mem_toFinset.1 hx))
  obtain ⟨fd, hfd, x, hnew, hold⟩ := iterPass_changed h
  apply List.sum_lt_sum
  · intro fd' _
    exact Finset.card_le_card (hsub _)
  · have hmem : x ∈ (PMap.get (iterPass false pmap defs).2 fd.name).toFinset := List.mem_toFinset.2 hnew
    have hnot : x ∉ (PMap.get pmap fd.name).toFinset := fun hx => hold (List.mem_toFinset.1 hx)
    exact ⟨fd, hfd, Finset.card_lt_card ⟨hsub _, fun hle => hnot (hle hmem)⟩⟩

theorem iterZ_total {defs : List FuncDef} {U : VarSet} {fuel : ℕ} {b : Bool} {pmap : PMap}
    (h : ∀ a x, x ∈ PMap.get pmap a → x ∈ U)
    (hfuel : b = true → defs.length * U.length < held defs pmap + fuel) :
    ∃ pmap', iterZ defs fuel (b, pmap) = some pmap' := by
  induction fuel generalizing b pmap with
  | zero =>
    cases b with
    | false => exact ⟨pmap, rfl⟩
    | true =>
      have hle : held defs pmap ≤ defs.length * U.length := held_le h
      have hlt := hfuel rfl
      omega
  | succ fuel ih =>
    cases b with
    | false => exact ⟨pmap, rfl⟩
    | true =>
      rw [iterZ]
      apply ih
      · exact iterPass_sound (R := fun _ x => x ∈ U) (fun _ _ _ _ _ hx => hx) h
      · intro hchanged
        have hlt := held_lt hchanged
        have hstart := hfuel rfl
        omega

/-! ### The extra parameters of the functions of a `Let` -/

/-- The variables that flow to a function from those of `own`, along tags in `defs`. -/
inductive Flow (own : Atom → Var × Ty → Prop) (defs : List FuncDef) : Atom → Var × Ty → Prop where
  | own {a : Atom} {x : Var × Ty} : own a x → Flow own defs a x
  | step {fd : FuncDef} {t : Atom} {x : Var × Ty} :
    fd ∈ defs → t ∈ fd.props.funcTags → Flow own defs t x → Flow own defs fd.name x

/-- Each function has what flows to it in one step. -/
def Settled (own : Atom → Var × Ty → Prop) (nndefs : List FuncDef) : Prop :=
  ∀ fd ∈ nndefs, ∀ t ∈ fd.props.funcTags, ∀ x, own t x → own fd.name x

def OwnParams (nndefs : List FuncDef) (a : Atom) (x : Var × Ty) : Prop :=
  ∃ fd ∈ nndefs, fd.name = a ∧ x ∈ paramVars fd.body

/-- Where `iterZ` starts. -/
def startPMap (nndefs : List FuncDef) : PMap :=
  nndefs.foldl (fun pmap fd => PMap.insert fd.name (paramVars fd.body) pmap) []

theorem get_start {nndefs : List FuncDef} (h : (nndefs.map FuncDef.name).Nodup) (a : Atom) (x : Var × Ty) :
    x ∈ PMap.get (startPMap nndefs) a ↔ OwnParams nndefs a x := by
  have hfold : ∀ (ds : List FuncDef) (pmap : PMap), (ds.map FuncDef.name).Nodup →
      (x ∈ PMap.get (ds.foldl (fun pmap fd => PMap.insert fd.name (paramVars fd.body) pmap) pmap) a ↔
        OwnParams ds a x ∨ (a ∉ ds.map FuncDef.name ∧ x ∈ PMap.get pmap a)) := by
    intro ds
    induction ds with
    | nil =>
      intro pmap _
      simp [OwnParams]
    | cons d ds ih =>
      intro pmap hnodup
      rw [List.map_cons, List.nodup_cons] at hnodup
      rw [List.foldl_cons, ih _ hnodup.2, PMap.get_insert]
      simp only [OwnParams, List.mem_cons, exists_eq_or_imp, List.map_cons, not_or]
      by_cases ha : a = d.name
      · subst ha
        simp only [hnodup.1, if_true, not_false_eq_true, true_and, not_true_eq_false, false_and, or_false]
        constructor
        · rintro (hown | hx)
          · exact .inr hown
          · exact .inl hx
        · rintro (hx | hown)
          · exact .inr hx
          · exact .inl hown
      · simp [ha, Ne.symm ha]
  have hstart := hfold nndefs [] h
  rw [startPMap, hstart]
  simp [PMap.get]

theorem makePMap_total (defs nndefs : List FuncDef) : ∃ pmap, makePMap defs nndefs = some pmap := by
  have hstart : ∀ a x, x ∈ PMap.get (startPMap nndefs) a →
      x ∈ VarSet.unions ((startPMap nndefs).map Prod.snd) := by
    intro a x hx
    rw [PMap.get] at hx
    cases hlook : (startPMap nndefs).lookup a with
    | none =>
      rw [hlook] at hx
      cases hx
    | some xs =>
      rw [hlook] at hx
      have hmem := Lib.mem_of_lookup hlook
      exact VarSet.mem_unions.2 ⟨xs, List.mem_map.2 ⟨_, hmem, rfl⟩, hx⟩
  apply iterZ_total (U := VarSet.unions ((startPMap nndefs).map Prod.snd))
  · exact iterPass_sound (R := fun _ x => x ∈ VarSet.unions ((startPMap nndefs).map Prod.snd))
      (fun _ _ _ _ _ hx => hx) hstart
  · intro _
    unfold iterFuel
    change _ < _ + (defs.length * (VarSet.unions ((startPMap nndefs).map Prod.snd)).length + 1)
    omega

/-- When the first pass changes nothing, the sets are the free variables of the lifted
functions. Otherwise they are all that flows to a function, lifted or not. -/
theorem makePMap_spec {defs nndefs : List FuncDef} (hsub : ∀ fd ∈ nndefs, fd ∈ defs)
    (hnames : (nndefs.map FuncDef.name).Nodup) {pmap : PMap} (h : makePMap defs nndefs = some pmap) :
    (Settled (OwnParams nndefs) nndefs → ∀ a x, x ∈ PMap.get pmap a ↔ OwnParams nndefs a x) ∧
    (¬ Settled (OwnParams nndefs) nndefs →
      ∀ a x, x ∈ PMap.get pmap a ↔ Flow (OwnParams nndefs) defs a x) := by
  have hstart := get_start hnames
  change iterZ defs _ (iterPass false (startPMap nndefs) nndefs) = some pmap at h
  cases hpass : iterPass false (startPMap nndefs) nndefs with
  | mk b qmap =>
    have hq : qmap = (iterPass false (startPMap nndefs) nndefs).2 := by rw [hpass]
    rw [hpass] at h
    constructor
    · intro hsettled a x
      have hb : b = false := by
        cases b with
        | false => rfl
        | true =>
          obtain ⟨fd, _, y, hnew, hold⟩ := iterPass_changed (by rw [hpass])
          have hown := iterPass_sound (R := OwnParams nndefs) hsettled (fun a x => (hstart a x).1) _ y hnew
          exact absurd ((hstart _ y).2 hown) hold
      subst hb
      obtain ⟨_, hsame, _⟩ := iterPass_unchanged (b := false) (by rw [hpass])
      have hp : qmap = pmap := Option.some.inj h
      rw [← hp, hq, hsame, hstart]
    · intro hnot a x
      have hb : b = true := by
        cases b with
        | true => rfl
        | false =>
          obtain ⟨_, _, hclosed⟩ := iterPass_unchanged (b := false) (by rw [hpass])
          exact absurd (fun fd hfd t ht y hy =>
            (hstart _ y).1 (hclosed fd hfd t ht y ((hstart t y).2 hy))) hnot
      subst hb
      have hflow : ∀ fd ∈ defs, ∀ t ∈ fd.props.funcTags, ∀ x, Flow (OwnParams nndefs) defs t x →
          Flow (OwnParams nndefs) defs fd.name x := fun fd hfd t ht x hx => .step hfd ht hx
      constructor
      · apply iterZ_sound hflow h
        rw [hq]
        exact iterPass_sound (fun fd hfd => hflow fd (hsub fd hfd)) fun a x hx => .own ((hstart a x).1 hx)
      · intro hx
        induction hx with
        | own hx =>
          apply iterZ_mono h
          rw [hq]
          exact iterPass_mono ((hstart _ _).2 hx)
        | step hfd ht _ ih => exact iterZ_closed h _ hfd _ ht _ ih

end Jhc.Grin

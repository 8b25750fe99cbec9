import Mathlib.Data.List.Lex
import Mathlib.Data.Prod.Lex
import Mathlib.Order.Compare
import Jhc.Deriving.Clauses
import Jhc.Grin.Partial

/-!
# Derived Eq and Ord (Deriving/Ord.hs:10-53)
-/

namespace Jhc.Deriving
open Jhc.Text (Str)

variable {T : Type}

/-! ### The generated clauses -/

/-- The fields of two constructors put together by `op` and folded; `z` is for no fields. -/
def foldFields (op : Name) (f : HsExp → HsExp → HsExp) (z : HsExp) (as bs : List HsExp) : HsExp :=
  (foldr1 f (List.zipWith (fun x y => .HsParen (app2 (.HsVar op) x y)) as bs)).getD z

def eqMatch (b : Body T) : Q HsMatch := do
  let pa ← mkPat b
  let pb ← mkPat b
  return {
    hsMatchName := v_equals
    hsMatchPats := [pa.1, pb.1]
    hsMatchRhs := foldFields v_equals (app2 (.HsVar v_and)) (.HsCon dc_True) pa.2 pb.2 }

def dfalse : HsMatch :=
  { hsMatchName := v_equals
    hsMatchPats := [.HsPWildCard, .HsPWildCard]
    hsMatchRhs := .HsCon dc_False }

def deriveEq (d : Data T) : Q (List HsMatch) := do
  let bs ← d.body.mapM eqMatch
  return bs ++ if d.body.length ≤ 1 then [] else [dfalse]

def hsAlt (c : Name) (e : HsExp) : HsPat × HsExp := (.HsPApp c [], e)

def compCase (e c : HsExp) : HsExp :=
  .HsCase e [hsAlt dc_LT (.HsCon dc_LT), hsAlt dc_GT (.HsCon dc_GT), hsAlt dc_EQ c]

def ordMatch (x y : Body T × ℕ) : Q HsMatch := do
  let pa ← mkPat x.1
  let pb ← mkPat y.1
  return {
    hsMatchName := v_compare
    hsMatchPats := [pa.1, pb.1]
    hsMatchRhs :=
      if x.2 = y.2 then foldFields v_compare compCase (.HsCon dc_EQ) pa.2 pb.2
      else if x.2 < y.2 then .HsCon dc_LT else .HsCon dc_GT }

def deriveOrd (d : Data T) : Q (List HsMatch) :=
  (d.body.zipIdx.flatMap fun x => d.body.zipIdx.map fun y => (x, y)).mapM fun xy =>
    ordMatch xy.1 xy.2

/-! ### Fresh names -/

def freshVar (c : Char) (u : ℕ) : Name := ⟨[], c :: Nat.toDigits 10 u⟩

def freshVars (c : Char) (u k : ℕ) : List Name := (List.range' u k).map (freshVar c)

theorem freshVar_injective (c : Char) : Function.Injective (freshVar c) := by
  intro i j h
  have hdigits : Nat.toDigits 10 i = Nat.toDigits 10 j := by
    simpa [freshVar] using h
  rw [← Grin.readDigits_toDigits i, hdigits, Grin.readDigits_toDigits]

theorem freshVars_nodup (c : Char) (u k : ℕ) : (freshVars c u k).Nodup :=
  (List.nodup_range').map (freshVar_injective c)

theorem freshVars_length (c : Char) (u k : ℕ) : (freshVars c u k).length = k := by
  simp [freshVars]

theorem newVars_run (c : Char) (types : List T) (u : ℕ) :
    (types.mapM fun _ => newVarN [c]) u = (freshVars c u types.length, u + types.length) := by
  induction types generalizing u with
  | nil => rfl
  | cons t types ih =>
    rw [List.mapM_cons]
    change (let (ns, u') := (types.mapM fun _ => newVarN [c]) (u + 1); (freshVar c u :: ns, u')) = _
    rw [ih]
    simp only [freshVars, List.length_cons, List.range'_succ, List.map_cons]
    rw [Nat.add_right_comm, Nat.add_assoc]

def pvar (u : ℕ) : Name := ⟨[], 'p' :: Nat.toDigits 10 u⟩

def pvars (u k : ℕ) : List Name := (List.range' u k).map pvar

theorem pvars_nodup (u k : ℕ) : (pvars u k).Nodup := freshVars_nodup 'p' u k

theorem pvars_length (u k : ℕ) : (pvars u k).length = k := freshVars_length 'p' u k

theorem mkPat_run (b : Body T) (u : ℕ) :
    mkPat b u = ((.HsPApp b.constructor ((pvars u b.types.length).map .HsPVar),
      (pvars u b.types.length).map .HsVar), u + b.types.length) := by
  unfold mkPat
  change (let (ns, u') := (b.types.mapM fun _ => newVarN ['p']) u;
    ((HsPat.HsPApp b.constructor (ns.map .HsPVar), ns.map HsExp.HsVar), u')) = _
  rw [newVars_run]
  rfl

/-- What each step of a `mapM` returns. -/
theorem forall₂_mapM {α β : Type} (f : α → Q β) (l : List α) (u : ℕ) :
    List.Forall₂ (fun a b => ∃ u, b = (f a u).1) l (l.mapM f u).1 := by
  induction l generalizing u with
  | nil => exact .nil
  | cons a l ih =>
    rw [List.mapM_cons]
    exact .cons ⟨u, rfl⟩ (ih (f a u).2)

/-! ### A clause for two constructors -/

section Calls

variable {X : Type}

theorem matchPats_vars {ns : List Name} {vs : List (V X)} (h : vs.length = ns.length) :
    matchPats (ns.map .HsPVar) vs = .binds (ns.zip vs) := by
  induction ns generalizing vs with
  | nil =>
    obtain rfl := List.length_eq_zero_iff.1 h
    rfl
  | cons n ns ih =>
    cases vs with
    | nil => cases h
    | cons v vs =>
      rw [List.map_cons, matchPats_cons, matchPat, ih (Nat.succ_inj.1 h), binds_andThen_binds]
      rfl

theorem lookup_zip {Y : Type} {ns : List Name} {vs : List Y} (hns : ns.Nodup)
    (h : vs.length = ns.length) :
    List.Forall₂ (fun n v => (ns.zip vs).lookup n = some v) ns vs := by
  induction ns generalizing vs with
  | nil =>
    obtain rfl := List.length_eq_zero_iff.1 h
    exact .nil
  | cons n ns ih =>
    cases vs with
    | nil => cases h
    | cons v vs =>
      rw [List.nodup_cons] at hns
      rw [List.zip_cons_cons]
      refine .cons (by rw [List.lookup_cons_self]) ?_
      have htail := ih hns.2 (Nat.succ_inj.1 h)
      rw [List.forall₂_iff_get] at htail ⊢
      refine ⟨htail.1, fun i hi hi' => ?_⟩
      have hne : (ns.get ⟨i, hi⟩ == n) = false := by
        rw [beq_eq_false_iff_ne]
        exact fun heq => hns.1 (heq ▸ List.get_mem ns ⟨i, hi⟩)
      rw [List.lookup_cons, hne]
      exact htail.2 i hi hi'

theorem lookups_zip {ns : List Name} {vs : List (V X)} (hns : ns.Nodup)
    (h : vs.length = ns.length) : ns.map (lookupVar (ns.zip vs)) = vs := by
  have hlookup := lookup_zip hns h
  generalize ns.zip vs = ρ at hlookup
  induction hlookup with
  | nil => rfl
  | cons hn _ ih =>
    rw [List.nodup_cons] at hns
    rw [List.map_cons, ih hns.2 (Nat.succ_inj.1 h), lookupVar, hn, Option.getD_some]

/-- The clause `f (C p ..) (D q ..) = e`, with what `e` is for the fields. -/
structure Clause (I : Compares X) (b b' : Body T) (val : List (V X) → List (V X) → V X)
    (m : HsMatch) : Prop where
  left_bot : ∀ w : V X, matchPats m.hsMatchPats [.bot, w] = .diverges
  left_ne : ∀ (c : Name) (xs : List (V X)) (w : V X), b.constructor ≠ c →
    matchPats m.hsMatchPats [.con c xs, w] = .fails
  right_bot : ∀ xs : List (V X), xs.length = b.types.length →
    matchPats m.hsMatchPats [.con b.constructor xs, .bot] = .diverges
  right_ne : ∀ (xs : List (V X)) (c : Name) (ys : List (V X)), xs.length = b.types.length → b'.constructor ≠ c →
    matchPats m.hsMatchPats [.con b.constructor xs, .con c ys] = .fails
  runs : ∀ xs ys : List (V X), xs.length = b.types.length → ys.length = b'.types.length →
    ∃ ρ, matchPats m.hsMatchPats [.con b.constructor xs, .con b'.constructor ys] = .binds ρ ∧
      eval I ρ m.hsMatchRhs = val xs ys

variable {I : Compares X}

/-- The variables of the two patterns. -/
theorem clause_of_pats {b b' : Body T} {val : List (V X) → List (V X) → V X} {m : HsMatch} {u : ℕ}
    (hpats : m.hsMatchPats =
      [.HsPApp b.constructor ((pvars u b.types.length).map .HsPVar),
        .HsPApp b'.constructor ((pvars (u + b.types.length) b'.types.length).map .HsPVar)])
    (hval : ∀ ρ xs ys, xs.length = b.types.length → ys.length = b'.types.length →
      (pvars u b.types.length).map (lookupVar ρ) = xs →
      (pvars (u + b.types.length) b'.types.length).map (lookupVar ρ) = ys →
      eval I ρ m.hsMatchRhs = val xs ys) : Clause I b b' val m where
  left_bot w := by
    rw [hpats, matchPats_cons, matchPat_bot, diverges_andThen]
  left_ne c xs w hne := by
    rw [hpats, matchPats_cons, matchPat_con_ne hne, fails_andThen]
  right_bot xs hxs := by
    rw [hpats, matchPats_cons, matchPat_con,
      matchPats_vars (hxs.trans (pvars_length u b.types.length).symm), matchPats_cons, matchPat_bot,
      diverges_andThen, binds_andThen_diverges]
  right_ne xs c ys hxs hne := by
    rw [hpats, matchPats_cons, matchPat_con,
      matchPats_vars (hxs.trans (pvars_length u b.types.length).symm), matchPats_cons,
      matchPat_con_ne hne, fails_andThen, binds_andThen_fails]
  runs xs ys hxs hys := by
    have hl := hxs.trans (pvars_length u b.types.length).symm
    have hr := hys.trans (pvars_length (u + b.types.length) b'.types.length).symm
    -- the names of both patterns are one run of fresh names
    have hall : pvars u b.types.length ++ pvars (u + b.types.length) b'.types.length =
        pvars u (b.types.length + b'.types.length) := by
      simp only [pvars, ← List.map_append]
      congr 1
      rw [List.range'_append_1]
    have hlen : (xs ++ ys).length = (pvars u (b.types.length + b'.types.length)).length := by
      rw [List.length_append, hxs, hys, pvars_length]
    have hlook := lookups_zip (pvars_nodup u (b.types.length + b'.types.length)) hlen
    rw [← hall, List.zip_append hl.symm, List.map_append] at hlook
    obtain ⟨hleft, hright⟩ := List.append_inj hlook (by rw [List.length_map, hl])
    refine ⟨_, ?_, hval _ xs ys hxs hys hleft hright⟩
    rw [hpats, matchPats_cons, matchPat_con, matchPats_vars hl, matchPats_cons, matchPat_con,
      matchPats_vars hr, matchPats_nil, binds_andThen_binds, List.append_nil, binds_andThen_binds]

/-! ### The fields of one constructor -/

/-- The second counts where the first is true. -/
def andAlso : Option Bool → Option Bool → Option Bool
  | some true, r => r
  | r, _ => r

/-- The second counts where the first finds no difference. -/
def orElseCompare : Option Ordering → Option Ordering → Option Ordering
  | some .eq, r => r
  | r, _ => r

def equalFields (I : Compares X) (xs ys : List (V X)) : Option Bool :=
  (List.zipWith I.equals xs ys).foldr andAlso (some true)

def compareFields (I : Compares X) (xs ys : List (V X)) : Option Ordering :=
  (List.zipWith I.compare xs ys).foldr orElseCompare (some .eq)

theorem foldr1_cons {α : Type} (f : α → α → α) (a : α) (l : List α) :
    ∃ b, foldr1 f (a :: l) = some b := by
  induction l generalizing a with
  | nil => exact ⟨a, rfl⟩
  | cons a' l ih =>
    obtain ⟨b, hb⟩ := ih a'
    exact ⟨f a b, by simp only [foldr1, hb, Option.map_some]⟩

/-- `foldr1` with a last element is `foldr` from the unit. -/
theorem eval_foldr1 {R : Type} {emb : R → V X} {comb : R → R → R} {unit : R}
    {f : HsExp → HsExp → HsExp} {z : HsExp} {ρ : List (Name × V X)}
    (hz : eval I ρ z = emb unit) (hunit : ∀ r, comb r unit = r)
    (hf : ∀ e t r s, eval I ρ e = emb r → eval I ρ t = emb s → eval I ρ (f e t) = emb (comb r s))
    {es : List HsExp} {rs : List R} (h : List.Forall₂ (fun e r => eval I ρ e = emb r) es rs) :
    eval I ρ ((foldr1 f es).getD z) = emb (rs.foldr comb unit) := by
  induction h with
  | nil => exact hz
  | @cons e r es rs he hes ih =>
    cases hes with
    | nil =>
      simp only [foldr1, Option.getD_some, List.foldr_cons, List.foldr_nil, hunit]
      exact he
    | @cons e' r' es rs he' hes =>
      obtain ⟨t, ht⟩ := foldr1_cons f e' es
      rw [ht] at ih
      simp only [foldr1, ht, Option.map_some, Option.getD_some, List.foldr_cons]
      exact hf e t r _ he ih

theorem and_bool (a b : Option Bool) : V.and (V.bool a : V X) (V.bool b) = V.bool (andAlso a b) := by
  cases a with
  | none => rfl
  | some a =>
    cases a with
    | true => simp only [V.bool, V.and, if_true, andAlso]
    | false =>
      have hne : dc_False ≠ dc_True := by decide
      simp only [V.bool, V.and, if_neg hne, if_true, andAlso]

/-- The three alternatives of a comparison. -/
theorem eval_compCase {ρ : List (Name × V X)} {e t : HsExp} {r s : Option Ordering}
    (he : eval I ρ e = V.ordering r) (ht : eval I ρ t = V.ordering s) :
    eval I ρ (compCase e t) = V.ordering (orElseCompare r s) := by
  have hlg : dc_LT ≠ dc_GT := by decide
  have hle : dc_LT ≠ dc_EQ := by decide
  have hge : dc_GT ≠ dc_EQ := by decide
  rw [compCase, eval, he]
  cases r with
  | none => simp only [V.ordering, hsAlt, evalAlts, matchPat_bot, orElseCompare]
  | some o =>
    cases o with
    | lt =>
      simp only [V.ordering, hsAlt, evalAlts, matchPat_con, matchPats_nil, orElseCompare, eval]
    | gt =>
      simp only [V.ordering, hsAlt, evalAlts, matchPat_con, matchPat_con_ne hlg, matchPats_nil,
        orElseCompare, eval]
    | eq =>
      simp only [V.ordering, hsAlt, evalAlts, matchPat_con, matchPat_con_ne hle,
        matchPat_con_ne hge, matchPats_nil, orElseCompare, List.nil_append]
      exact ht

/-- Two variables under an operator that is known at the fields. -/
theorem forall₂_fields {R : Type} {emb : R → V X} {op : Name} {m : V X → V X → R}
    {ρ : List (Name × V X)}
    (hop : ∀ a b, eval I ρ (app2 (.HsVar op) a b) = emb (m (eval I ρ a) (eval I ρ b)))
    (ns ns' : List Name) :
    List.Forall₂ (fun e r => eval I ρ e = emb r)
      (List.zipWith (fun x y => .HsParen (app2 (.HsVar op) x y)) (ns.map .HsVar) (ns'.map .HsVar))
      (List.zipWith m (ns.map (lookupVar ρ)) (ns'.map (lookupVar ρ))) := by
  induction ns generalizing ns' with
  | nil => exact .nil
  | cons n ns ih =>
    cases ns' with
    | nil => exact .nil
    | cons n' ns' =>
      refine .cons ?_ (ih ns')
      rw [eval, hop, eval, eval]

theorem eval_equals {ρ : List (Name × V X)} {ns ns' : List Name} {xs ys : List (V X)}
    (hxs : ns.map (lookupVar ρ) = xs) (hys : ns'.map (lookupVar ρ) = ys) :
    eval I ρ (foldFields v_equals (app2 (.HsVar v_and)) (.HsCon dc_True) (ns.map .HsVar)
      (ns'.map .HsVar)) = V.bool (equalFields I xs ys) := by
  subst hxs hys
  refine eval_foldr1 (by rw [eval]; rfl) (fun r => ?_) (fun e t r s he ht => ?_)
    (forall₂_fields (fun a b => ?_) ns ns')
  · cases r with
    | none => rfl
    | some r => cases r <;> rfl
  · rw [eval_op, if_pos rfl, he, ht, and_bool]
  · rw [eval_op, if_neg (by decide), if_pos rfl]

theorem eval_compare {ρ : List (Name × V X)} {ns ns' : List Name} {xs ys : List (V X)}
    (hxs : ns.map (lookupVar ρ) = xs) (hys : ns'.map (lookupVar ρ) = ys) :
    eval I ρ (foldFields v_compare compCase (.HsCon dc_EQ) (ns.map .HsVar) (ns'.map .HsVar)) =
      V.ordering (compareFields I xs ys) := by
  subst hxs hys
  refine eval_foldr1 (by rw [eval]; rfl) (fun r => ?_) (fun e t r s he ht => eval_compCase he ht)
    (forall₂_fields (fun a b => ?_) ns ns')
  · cases r with
    | none => rfl
    | some r => cases r <;> rfl
  · rw [eval_op, if_neg (by decide), if_neg (by decide), if_pos rfl]

end Calls

/-! ### Calls of a list of clauses -/

section Lists

variable {X : Type} {I : Compares X}

/-- A list of clauses by the constructors they are for. -/
abbrev Clauses (I : Compares X)
    (ts : List (Body T × Body T × (List (V X) → List (V X) → V X))) (ms : List HsMatch) : Prop :=
  List.Forall₂ (fun t m => Clause I t.1 t.2.1 t.2.2 m) ts ms

variable {ts : List (Body T × Body T × (List (V X) → List (V X) → V X))}
  {ms rest : List HsMatch} {c c' : Name} {xs ys : List (V X)}

theorem call_bot_left (h : Clauses I ts ms) (hne : ts ≠ []) (w : V X) :
    call I (ms ++ rest) [.bot, w] = .bot := by
  cases h with
  | nil => exact absurd rfl hne
  | cons hm _ => simp only [List.cons_append, call, hm.left_bot w]

theorem call_bot_right (h : Clauses I ts ms)
    (hlen : ∀ t ∈ ts, t.1.constructor = c → xs.length = t.1.types.length)
    (hex : ∃ t ∈ ts, t.1.constructor = c) : call I (ms ++ rest) [.con c xs, .bot] = .bot := by
  induction h with
  | nil =>
    obtain ⟨t, ht, -⟩ := hex
    cases ht
  | @cons t m ts ms hm _ ih =>
    rw [List.forall_mem_cons] at hlen
    by_cases hc : t.1.constructor = c
    · have hbot := hm.right_bot xs (hlen.1 hc)
      rw [hc] at hbot
      simp only [List.cons_append, call, hbot]
    · simp only [List.cons_append, call, hm.left_ne c xs .bot hc]
      refine ih hlen.2 ?_
      obtain ⟨t', ht', hc'⟩ := hex
      rcases List.mem_cons.1 ht' with rfl | ht'
      · exact absurd hc' hc
      · exact ⟨t', ht', hc'⟩

/-- A clause that is not for the two constructors is passed over. -/
theorem call_skip {b b' : Body T} {val : List (V X) → List (V X) → V X} {m : HsMatch}
    (hm : Clause I b b' val m) (hlen : b.constructor = c → xs.length = b.types.length)
    (hne : ¬ (b.constructor = c ∧ b'.constructor = c')) :
    call I (m :: ms) [.con c xs, .con c' ys] = call I ms [.con c xs, .con c' ys] := by
  by_cases hc : b.constructor = c
  · have hfails := hm.right_ne xs c' ys (hlen hc) fun hc' => hne ⟨hc, hc'⟩
    rw [hc] at hfails
    simp only [call, hfails]
  · simp only [call, hm.left_ne c xs _ hc]

theorem call_miss (h : Clauses I ts ms)
    (hlen : ∀ t ∈ ts, t.1.constructor = c → xs.length = t.1.types.length)
    (hno : ∀ t ∈ ts, ¬ (t.1.constructor = c ∧ t.2.1.constructor = c')) :
    call I (ms ++ rest) [.con c xs, .con c' ys] = call I rest [.con c xs, .con c' ys] := by
  induction h with
  | nil => rfl
  | @cons t m ts ms hm _ ih =>
    rw [List.forall_mem_cons] at hlen hno
    rw [List.cons_append, call_skip hm hlen.1 hno.1, ih hlen.2 hno.2]

theorem call_hit {v : V X} (h : Clauses I ts ms)
    (hlen : ∀ t ∈ ts, t.1.constructor = c → xs.length = t.1.types.length)
    (hlen' : ∀ t ∈ ts, t.2.1.constructor = c' → ys.length = t.2.1.types.length)
    (hex : ∃ t ∈ ts, t.1.constructor = c ∧ t.2.1.constructor = c')
    (hval : ∀ t ∈ ts, t.1.constructor = c ∧ t.2.1.constructor = c' → t.2.2 xs ys = v) :
    call I (ms ++ rest) [.con c xs, .con c' ys] = v := by
  induction h with
  | nil =>
    obtain ⟨t, ht, -⟩ := hex
    cases ht
  | @cons t m ts ms hm _ ih =>
    rw [List.forall_mem_cons] at hlen hlen' hval
    by_cases hc : t.1.constructor = c ∧ t.2.1.constructor = c'
    · obtain ⟨ρ, hbinds, heval⟩ := hm.runs xs ys (hlen.1 hc.1) (hlen'.1 hc.2)
      rw [hc.1, hc.2] at hbinds
      simp only [List.cons_append, call, hbinds]
      rw [heval, hval.1 hc]
    · rw [List.cons_append, call_skip hm hlen.1 hc]
      refine ih hlen.2 hlen'.2 ?_ hval.2
      obtain ⟨t', ht', hc'⟩ := hex
      rcases List.mem_cons.1 ht' with rfl | ht'
      · exact absurd hc' hc
      · exact ⟨t', ht', hc'⟩

/-! ### The clauses of the two methods -/

def eqEntries (I : Compares X) (d : Data T) :
    List (Body T × Body T × (List (V X) → List (V X) → V X)) :=
  d.body.map fun b => (b, b, fun xs ys => V.bool (equalFields I xs ys))

def pairs (d : Data T) : List ((Body T × ℕ) × (Body T × ℕ)) :=
  d.body.zipIdx.flatMap fun x => d.body.zipIdx.map fun y => (x, y)

def ordEntries (I : Compares X) (d : Data T) :
    List (Body T × Body T × (List (V X) → List (V X) → V X)) :=
  (pairs d).map fun xy => (xy.1.1, xy.2.1, fun xs ys =>
    V.ordering (if xy.1.2 = xy.2.2 then compareFields I xs ys
      else some (compare xy.1.2 xy.2.2)))

theorem eqMatch_clause (b : Body T) (u : ℕ) :
    Clause I b b (fun xs ys => V.bool (equalFields I xs ys)) (eqMatch b u).1 := by
  have hrun : (eqMatch b u).1 =
      { hsMatchName := v_equals
        hsMatchPats := [(mkPat b u).1.1, (mkPat b (mkPat b u).2).1.1]
        hsMatchRhs := foldFields v_equals (app2 (.HsVar v_and)) (.HsCon dc_True) (mkPat b u).1.2
          (mkPat b (mkPat b u).2).1.2 } := rfl
  rw [hrun, mkPat_run, mkPat_run]
  exact clause_of_pats rfl fun ρ xs ys _ _ hxs hys => eval_equals hxs hys

theorem ordMatch_clause (x y : Body T × ℕ) (u : ℕ) :
    Clause I x.1 y.1 (fun xs ys => V.ordering (if x.2 = y.2 then compareFields I xs ys
      else some (compare x.2 y.2))) (ordMatch x y u).1 := by
  have hrun : (ordMatch x y u).1 =
      { hsMatchName := v_compare
        hsMatchPats := [(mkPat x.1 u).1.1, (mkPat y.1 (mkPat x.1 u).2).1.1]
        hsMatchRhs :=
          if x.2 = y.2 then foldFields v_compare compCase (.HsCon dc_EQ) (mkPat x.1 u).1.2
            (mkPat y.1 (mkPat x.1 u).2).1.2
          else if x.2 < y.2 then .HsCon dc_LT else .HsCon dc_GT } := rfl
  rw [hrun, mkPat_run, mkPat_run]
  refine clause_of_pats rfl fun ρ xs ys _ _ hxs hys => ?_
  dsimp only
  by_cases heq : x.2 = y.2
  · rw [if_pos heq, if_pos heq]
    exact eval_compare hxs hys
  · rw [if_neg heq, if_neg heq]
    by_cases hlt : x.2 < y.2
    · rw [if_pos hlt, compare_lt_iff_lt.2 hlt, eval]
      rfl
    · rw [if_neg hlt, compare_gt_iff_gt.2 (by omega), eval]
      rfl

theorem eq_clauses (d : Data T) (u : ℕ) :
    ∃ ms, (deriveEq d u).1 = ms ++ (if d.body.length ≤ 1 then [] else [dfalse]) ∧
      Clauses I (eqEntries I d) ms := by
  refine ⟨(d.body.mapM eqMatch u).1, rfl, ?_⟩
  unfold Clauses eqEntries
  rw [List.forall₂_map_left_iff]
  refine (forall₂_mapM eqMatch d.body u).imp fun b m hm => ?_
  obtain ⟨u', rfl⟩ := hm
  exact eqMatch_clause b u'

theorem ord_clauses (d : Data T) (u : ℕ) : Clauses I (ordEntries I d) (deriveOrd d u).1 := by
  unfold Clauses ordEntries
  rw [List.forall₂_map_left_iff]
  refine (forall₂_mapM (fun xy : (Body T × ℕ) × (Body T × ℕ) => ordMatch xy.1 xy.2)
    (pairs d) u).imp fun xy m hm => ?_
  obtain ⟨u', rfl⟩ := hm
  exact ordMatch_clause xy.1 xy.2 u'

end Lists

end Jhc.Deriving

import Jhc.Grin.Rooted

/-!
# `twiddleGrin` and the roots of a program (Grin/Devolve.hs:67-172)

Apart from binders that are not used and the roots that it adds, the pass leaves a
program as it is. Hence the roots of its result are right exactly when the program
mentions the variables that it uses after an allocation in the binds around it.
-/

namespace Jhc.Grin
open Exp

/-! ### Values -/

mutual

theorem twiddleVal_nil (v : Val) : (twiddleVal [] v).1 = v := by
  cases v with
  | nodeC t vs => simp [twiddleVal, Prod.map, twiddleVals_nil vs]
  | const v => simp [twiddleVal, Prod.map, twiddleVal_nil v]
  | index a b => simp [twiddleVal, twiddleVal_nil a, twiddleVal_nil b]
  | valPrim p vs t => simp [twiddleVal, Prod.map, twiddleVals_nil vs]
  | _ => simp [twiddleVal]

theorem twiddleVals_nil (vs : List Val) : (twiddleVals [] vs).1 = vs := by
  cases vs with
  | nil => rfl
  | cons v vs => simp [twiddleVals, twiddleVal_nil v, twiddleVals_nil vs]

end

mutual

/-- The variables of a value are collected. -/
theorem used_val {v : Val} {x : Var × Ty} (h : x ∈ v.freeVars) : x.1 ∈ (twiddleVal [] v).2 := by
  cases v with
  | nodeC t vs => exact @used_vals vs x h
  | const v => exact used_val (v := v) h
  | index a b =>
    obtain ha | hb := VarSet.mem_union.1 h
    · exact Finset.mem_union_left _ (used_val ha)
    · exact Finset.mem_union_right _ (used_val hb)
  | var v t =>
    rw [List.mem_singleton.1 h]
    exact Finset.mem_singleton_self v
  | _ => cases h

theorem used_vals {vs : List Val} {x : Var × Ty} (h : x ∈ Val.freeVarsOf vs) : x.1 ∈ (twiddleVals [] vs).2 := by
  cases vs with
  | nil => cases h
  | cons v vs =>
    obtain hv | hvs := VarSet.mem_union.1 h
    · exact Finset.mem_union_left _ (used_val hv)
    · exact Finset.mem_union_right _ (used_vals hvs)

end

def renameVar (em : List (Var × Var)) (x : Var × Ty) : Var × Ty := ((em.lookup x.1).getD x.1, x.2)

mutual

theorem mem_twiddleVal {em : List (Var × Var)} {v : Val} {x : Var × Ty} :
    x ∈ (twiddleVal em v).1.freeVars ↔ ∃ y ∈ v.freeVars, x = renameVar em y := by
  cases v with
  | nodeC t vs => exact @mem_twiddleVals em vs x
  | const v => exact mem_twiddleVal (v := v)
  | index a b =>
    simp only [twiddleVal, Val.freeVars, VarSet.mem_union, mem_twiddleVal (v := a), mem_twiddleVal (v := b),
      or_and_right, exists_or]
  | var v t =>
    simp only [twiddleVal, Val.freeVars, List.mem_singleton, exists_eq_left, renameVar]
    cases em.lookup v <;> simp [Val.freeVars]
  | _ => simp [twiddleVal, Val.freeVars, Prod.map]

theorem mem_twiddleVals {em : List (Var × Var)} {vs : List Val} {x : Var × Ty} :
    x ∈ Val.freeVarsOf (twiddleVals em vs).1 ↔ ∃ y ∈ Val.freeVarsOf vs, x = renameVar em y := by
  cases vs with
  | nil => simp [twiddleVals, Val.freeVarsOf]
  | cons v vs =>
    simp only [twiddleVals, Val.freeVarsOf, VarSet.mem_union, mem_twiddleVal (v := v), @mem_twiddleVals em vs x,
      or_and_right, exists_or]

end

theorem mapExpVal_nil (e : Exp) : (mapExpVal [] e).1 = e := by
  cases e <;> simp [mapExpVal, Prod.map, twiddleVal_nil, twiddleVals_nil]

/-! ### Binders -/

theorem mem_boundVars {vs : List Val} {v : Var} : v ∈ boundVars vs ↔ ∃ x ∈ Val.freeVarsOf vs, x.1 = v := by
  simp [boundVars]

/-- A heap variable is bound as before when it is used. -/
theorem mem_twiddleBind {vs : List Val} {y : Exp × Finset Var} {x : Var × Ty} (hheap : isHeap x = true)
    (hused : x ∈ Val.freeVarsOf vs → x.1 ∈ y.2) :
    x ∈ Val.freeVarsOf (twiddleBind vs y).1.bind ↔ x ∈ Val.freeVarsOf vs := by
  have hpos : v0 < x.1 := by
    simp only [isHeap, Bool.and_eq_true, decide_eq_true_eq] at hheap
    exact hheap.2
  have hlook : ∀ v, (((boundVars vs).filter fun v => v ∉ y.2).map fun v => (v, v0)).lookup v =
      if v ∈ boundVars vs ∧ v ∉ y.2 then some v0 else none := by
    intro v
    split
    · next h =>
      have hmem : (v, v0) ∈ ((boundVars vs).filter fun v => v ∉ y.2).map fun v => (v, v0) :=
        List.mem_map.2 ⟨v, List.mem_filter.2 ⟨h.1, by simpa using h.2⟩, rfl⟩
      cases hl : (((boundVars vs).filter fun v => v ∉ y.2).map fun v => (v, v0)).lookup v with
      | none => exact absurd (List.mem_map_of_mem hmem) (Lib.lookup_eq_none.1 hl)
      | some w =>
        obtain ⟨_, _, heq⟩ := List.mem_map.1 (Lib.mem_of_lookup hl)
        cases heq
        rfl
    · next h =>
      apply Lib.lookup_eq_none.2
      intro hmem
      obtain ⟨⟨v', w⟩, hw, rfl⟩ := List.mem_map.1 hmem
      obtain ⟨v'', hv, heq⟩ := List.mem_map.1 hw
      cases heq
      have hfilter := List.mem_filter.1 hv
      exact h ⟨hfilter.1, by simpa using hfilter.2⟩
  have hbind : x ∈ Val.freeVarsOf (twiddleBind vs y).1.bind ↔
      ∃ z ∈ Val.freeVarsOf vs, x = ((if z.1 ∈ boundVars vs ∧ z.1 ∉ y.2 then some v0 else none).getD z.1, z.2) := by
    simp only [twiddleBind, Lam.bind_mk, mem_twiddleVals, renameVar, hlook]
  rw [hbind]
  constructor
  · intro h
    obtain ⟨z, hz, heq⟩ := h
    split at heq
    · rw [heq] at hpos
      exact absurd hpos (lt_irrefl _)
    · rw [heq]
      exact hz
  · intro hx
    refine ⟨x, hx, ?_⟩
    rw [if_neg fun h => h.2 (hused hx)]
    rfl

/-! ### The shape of the result -/

/-- A block of the result; `ren` says whether its unused binders get the name `v0`. -/
def twiddleBlock (env : Env) (ren : Bool) (b : List Val × Exp) : List Val × Exp :=
  (if ren then (twiddleBind b.1 (twiddleExp true env b.2)).1.bind else b.1, (twiddleExp true env b.2).1)

def Exp.renames : Exp → Bool
  | .newRegion _ => false
  | .mkCont _ _ => false
  | _ => true

/-- The result before roots are put around it. -/
def core (env : Env) : Exp → Exp
  | .bind x lam => .bind (twiddleExp true env x).1 (twiddleLam true env lam).1
  | .lett ds b p => .lett (twiddleDefs true env ds).1 (twiddleExp true env b).1 p
  | .case v as => .case v (twiddleAlts true env as).1
  | .newRegion l => .newRegion (.mk l.bind (twiddleExp true env l.exp).1)
  | .mkCont c l => .mkCont (.mk c.bind (twiddleExp true env c.exp).1) (.mk l.bind (twiddleExp true env l.exp).1)
  | .gcRoots vs b => .gcRoots vs (twiddleExp true env b).1
  | e => e

attribute [local grind =] Exp.renames core

theorem twiddleLam_eq (env : Env) (l : Lam) : twiddleLam true env l = twiddleBind l.bind (twiddleExp true env l.exp) := by
  cases l
  rw [twiddleLam]
  rfl

theorem twiddleAlts_eq (env : Env) (as : List Lam) :
    (twiddleAlts true env as).1 = as.map fun l => (twiddleLam true env l).1 := by
  induction as with
  | nil => rw [twiddleAlts]; rfl
  | cons l ls ih => rw [twiddleAlts, List.map_cons, ih]

theorem mem_twiddleAlts {env : Env} {as : List Lam} {v : Var} :
    v ∈ (twiddleAlts true env as).2 ↔ ∃ l ∈ as, v ∈ (twiddleLam true env l).2 := by
  induction as with
  | nil => simp [twiddleAlts]
  | cons l ls ih => simp [twiddleAlts, ih]

def twiddleDef (env : Env) (d : FuncDef) : FuncDef :=
  (FuncDef.mk d.name (twiddleLam true env d.body).1 d.props).updateFuncDefProps

theorem twiddleDefs_eq (env : Env) (ds : List FuncDef) : (twiddleDefs true env ds).1 = ds.map (twiddleDef env) := by
  induction ds with
  | nil => rw [twiddleDefs]; rfl
  | cons d ds ih =>
    cases d
    rw [twiddleDefs, List.map_cons, ih]
    rfl

theorem mem_twiddleDefs {env : Env} {ds : List FuncDef} {v : Var} :
    v ∈ (twiddleDefs true env ds).2 ↔ ∃ d ∈ ds, v ∈ (twiddleLam true env d.body).2 := by
  induction ds with
  | nil => simp [twiddleDefs]
  | cons d ds ih =>
    cases d
    simp [twiddleDefs, ih]

theorem root_nil (env : Env) : env.root [] = env := rfl

theorem newRoots_nil (env : Env) : newRoots env [] = [] := rfl

theorem gcRoots_nil (e : Exp) : gcRoots [] e = e := rfl

/-- The pass puts the new roots around an expression and rebuilds it. -/
theorem twiddleExp_eq {env : Env} (henv : env.envMap = []) (e : Exp) : (twiddleExp true env e).1 =
    gcRoots (newRoots env e.mentions) (updateLetProps (core (env.root (newRoots env e.mentions)) e)) := by
  cases e with
  | bind x lam =>
    rw [twiddleExp, mentions]
    by_cases h : x.isAllocing = true
    · simp only [Bool.true_and, if_pos h]
      rfl
    · simp only [Bool.true_and, if_neg h]
      rfl
  | lett ds b p =>
    rw [twiddleExp]
    rfl
  | case v as =>
    rw [twiddleExp, henv, twiddleVal_nil]
    rfl
  | newRegion l =>
    cases l
    rw [twiddleExp]
    rfl
  | mkCont c l =>
    cases c
    cases l
    rw [twiddleExp]
    rfl
  | gcRoots vs b =>
    rw [twiddleExp]
    rfl
  | baseOp op vs =>
    simp only [twiddleExp, henv]
    cases op <;> simp [mentions, isUsing, isAllocing, core, updateLetProps, newRoots_nil, gcRoots_nil, mapExpVal_nil]
  | alloc v c r =>
    simp [twiddleExp, henv, mentions, isUsing, isAllocing, core, updateLetProps, mapExpVal_nil]
  | _ =>
    simp [twiddleExp, henv, mentions, isUsing, core, updateLetProps, newRoots_nil, gcRoots_nil, mapExpVal_nil]

theorem vals_core (env : Env) (e : Exp) : (core env e).vals = e.vals := by
  cases e <;> rfl

theorem ownCalls_core (env : Env) (e : Exp) : (core env e).ownCalls = e.ownCalls := by
  cases e <;> rfl

theorem ownAllocs_core (env : Env) (e : Exp) : (core env e).ownAllocs = e.ownAllocs := by
  cases e <;> rfl

theorem roots_core (env : Env) (e : Exp) : (core env e).roots = e.roots := by
  cases e <;> rfl

theorem defs_core (env : Env) (e : Exp) : (core env e).defs = e.defs.map (twiddleDef env) := by
  cases e with
  | lett ds b p => exact twiddleDefs_eq env ds
  | _ => rfl

theorem twiddleBlock_lam (env : Env) (l : Lam) : twiddleBlock env true (l.bind, l.exp) =
    ((twiddleLam true env l).1.bind, (twiddleLam true env l).1.exp) := by
  rw [twiddleLam_eq]
  rfl

theorem twiddleBlock_nil (env : Env) (ren : Bool) (e : Exp) :
    twiddleBlock env ren ([], e) = ([], (twiddleExp true env e).1) := by
  cases ren <;> rfl

/-- The blocks of the result are those of the expression after the pass, and run in
the same order. -/
theorem parts_core (env : Env) (e : Exp) : (core env e).parts =
    e.parts.map fun p => (twiddleBlock env e.renames p.1, p.2.map (twiddleBlock env e.renames)) := by
  cases e with
  | bind x lam => simp [core, parts, renames, twiddleBlock_nil, twiddleBlock_lam]
  | lett ds b p =>
    simp only [core, parts, blocks, twiddleDefs_eq, renames, List.map_cons, List.map_map, twiddleBlock_nil]
    congr 1
    apply List.map_congr_left
    intro d _
    simp [twiddleBlock_lam, twiddleDef]
  | case v as =>
    simp only [core, parts, blocks, twiddleAlts_eq, renames, List.map_map]
    apply List.map_congr_left
    intro l _
    simp [twiddleBlock_lam]
  | newRegion l => simp [core, parts, blocks, renames, twiddleBlock]
  | mkCont c l => simp [core, parts, renames, twiddleBlock]
  | gcRoots vs b => simp [core, parts, blocks, twiddleBlock_nil]
  | _ => rfl

theorem blocks_core (env : Env) (e : Exp) : (core env e).blocks = e.blocks.map (twiddleBlock env e.renames) := by
  rw [← parts_blocks, parts_core, ← parts_blocks, List.map_map, List.map_map]
  rfl

/-! ### What the writer collects -/

theorem twiddleLam_used {env : Env} {l : Lam} {v : Var} (h : v ∈ (twiddleExp true env l.exp).2)
    (hbind : v ∉ boundVars l.bind) : v ∈ (twiddleLam true env l).2 := by
  rw [twiddleLam_eq]
  exact Finset.mem_filter.2 ⟨h, hbind⟩

theorem used_own {env : Env} (henv : env.envMap = []) {e : Exp} {x : Var × Ty} (hx : x ∈ Val.freeVarsOf e.vals)
    (hvisited : x ∉ Val.freeVarsOf e.unvisited) : x.1 ∈ (twiddleExp true env e).2 := by
  cases e with
  | case v as =>
    have hv := used_vals hx
    simp only [vals, twiddleVals, Finset.union_empty] at hv
    rw [twiddleExp, henv]
    exact Finset.mem_union_left _ hv
  | baseOp op vs =>
    have hvs := @used_vals vs x hx
    simp only [twiddleExp, henv]
    split
    · exact hvs
    · exact hvs
  | alloc v c r =>
    simp only [vals, Val.freeVarsOf, VarSet.mem_union, unvisited] at hx hvisited
    simp only [twiddleExp, henv, isUsing, isAllocing, Bool.and_self, if_true, mapExpVal, Finset.mem_union]
    obtain hv | hc | hr := hx
    · exact .inl (used_val hv)
    · exact .inr (used_val hc)
    · exact absurd hr hvisited
  | app a vs t =>
    have hvs := @used_vals vs x hx
    simpa [twiddleExp, henv, isUsing, mapExpVal, Prod.map] using hvs
  | prim q vs t =>
    have hvs := @used_vals vs x hx
    simpa [twiddleExp, henv, isUsing, mapExpVal, Prod.map] using hvs
  | ret vs =>
    have hvs := @used_vals vs x hx
    simpa [twiddleExp, henv, isUsing, mapExpVal, Prod.map] using hvs
  | call v as t j => exact absurd hx hvisited
  | mkClosure v as r t => exact absurd hx hvisited
  | gcRoots vs b => exact absurd hx hvisited
  | _ => cases hx

theorem used_block {env : Env} {e : Exp} {b : List Val × Exp} (hb : b ∈ e.blocks) {v : Var}
    (hv : v ∈ (twiddleExp true (env.root (newRoots env e.mentions)) b.2).2) (hbind : v ∉ boundVars b.1) :
    v ∈ (twiddleExp true env e).2 := by
  cases e with
  | bind x lam =>
    have hparts : v ∈ (twiddleExp true (env.root (newRoots env (Exp.bind x lam).mentions)) x).2 ∪
        (twiddleLam true (env.root (newRoots env (Exp.bind x lam).mentions)) lam).2 := by
      simp only [blocks, List.mem_cons, List.not_mem_nil, or_false] at hb
      obtain rfl | rfl := hb
      · exact Finset.mem_union_left _ hv
      · exact Finset.mem_union_right _ (twiddleLam_used hv hbind)
    rw [twiddleExp]
    by_cases h : x.isAllocing = true
    · simp only [mentions, if_pos h] at hparts
      simpa only [Bool.true_and, if_pos h] using hparts
    · simp only [mentions, if_neg h, newRoots_nil, root_nil] at hparts
      simpa only [Bool.true_and, if_neg h] using hparts
  | lett ds b' p =>
    rw [twiddleExp]
    simp only [blocks, List.mem_cons, List.mem_map] at hb
    obtain rfl | ⟨d, hd, rfl⟩ := hb
    · exact Finset.mem_union_right _ hv
    · exact Finset.mem_union_left _ (mem_twiddleDefs.2 ⟨d, hd, twiddleLam_used hv hbind⟩)
  | case w as =>
    rw [twiddleExp]
    simp only [blocks, List.mem_map] at hb
    obtain ⟨l, hl, rfl⟩ := hb
    exact Finset.mem_union_right _ (mem_twiddleAlts.2 ⟨l, hl, twiddleLam_used hv hbind⟩)
  | newRegion l =>
    cases l
    rw [List.mem_singleton.1 hb] at hv
    rw [twiddleExp]
    exact hv
  | mkCont c l =>
    cases c
    cases l
    rw [twiddleExp]
    simp only [blocks, List.mem_cons, List.not_mem_nil, or_false] at hb
    obtain rfl | rfl := hb
    · exact Finset.mem_union_left _ hv
    · exact Finset.mem_union_right _ hv
  | gcRoots vs b' =>
    rw [List.mem_singleton.1 hb] at hv
    rw [twiddleExp]
    exact hv
  | _ => cases hb

/-- Every heap variable that is free is collected. -/
theorem used_free {e : Exp} (h : Plain e) {env : Env} (henv : env.envMap = []) {x : Var × Ty}
    (hheap : isHeap x = true) (hx : x ∈ e.freeVars) : x.1 ∈ (twiddleExp true env e).2 := by
  induction e using blocks_induction generalizing env with
  | h e ih =>
    obtain ⟨hvisit, htyped, hblocks⟩ := plain_iff.1 h
    obtain hx | ⟨b, hb, hx, hbind⟩ := mem_freeVars.1 hx
    · apply used_own henv hx
      intro hmem
      rw [hvisit x hmem] at hheap
      cases hheap
    · apply used_block hb (ih b hb (hblocks b hb) henv hx)
      intro hmem
      obtain ⟨y, hy, heq⟩ := mem_boundVars.1 hmem
      have hsame : x = y := htyped b hb x hx y hy heq.symm
      exact hbind (hsame ▸ hy)

/-- The binder of a block binds the same heap variables that the block uses. -/
theorem twiddleBlock_bind {e : Exp} (h : Plain e) {env : Env} (henv : env.envMap = []) {ren : Bool} {vs : List Val}
    {x : Var × Ty} (hheap : isHeap x = true) (hx : x ∈ e.freeVars) :
    x ∈ Val.freeVarsOf (twiddleBlock env ren (vs, e)).1 ↔ x ∈ Val.freeVarsOf vs := by
  cases ren with
  | false => rfl
  | true => exact mem_twiddleBind hheap fun _ => used_free h henv hheap hx

/-! ### Free variables of the result -/

theorem mem_rootVals {xs : VarSet} {x : Var × Ty} :
    x ∈ Val.freeVarsOf (xs.map fun x => Val.var x.1 x.2) ↔ x ∈ xs := by
  induction xs with
  | nil => rfl
  | cons z zs ih => simp [Val.freeVarsOf, Val.freeVars, ih]

theorem gcRoots_cons (y : Var × Ty) (ys : VarSet) (e : Exp) :
    gcRoots (y :: ys) e = .gcRoots ((y :: ys).map fun x => .var x.1 x.2) e := rfl

theorem mem_freeVars_gcRoots {xs : VarSet} {e : Exp} {x : Var × Ty} (h : x ∈ xs → x ∈ e.freeVars) :
    x ∈ (gcRoots xs e).freeVars ↔ x ∈ e.freeVars := by
  cases xs with
  | nil => rfl
  | cons y ys =>
    rw [gcRoots_cons, mem_freeVars]
    simp only [vals, blocks, mem_rootVals, List.mem_singleton, exists_eq_left, Val.freeVarsOf, List.not_mem_nil,
      not_false_eq_true, and_true]
    exact ⟨fun hx => hx.elim h id, .inr⟩

theorem mem_lam_freeVars {l : Lam} {x : Var × Ty} :
    x ∈ l.freeVars ↔ x ∈ l.exp.freeVars ∧ x ∉ Val.freeVarsOf l.bind :=
  VarSet.mem_diff

theorem mentions_free {e : Exp} {x : Var × Ty} (h : x ∈ e.mentions) : x ∈ e.freeVars := by
  cases e with
  | bind e l =>
    have hlam : ∀ y ∈ l.freeVars, y ∈ (Exp.bind e l).freeVars := by
      intro y hy
      obtain ⟨hy, hbind⟩ := mem_lam_freeVars.1 hy
      exact mem_freeVars.2 (.inr ⟨(l.bind, l.exp), by simp [blocks], hy, hbind⟩)
    simp only [mentions] at h
    by_cases halloc : e.isAllocing = true
    · rw [if_pos halloc] at h
      by_cases husing : e.isUsing = true
      · rwa [if_pos husing] at h
      · rw [if_neg husing] at h
        exact hlam x h
    · rw [if_neg halloc] at h
      cases h
  | _ =>
    simp only [mentions] at h
    split at h
    · exact h
    · cases h

theorem mem_newRoots {env : Env} {xs : VarSet} {x : Var × Ty} :
    x ∈ newRoots env xs ↔ (x ∈ xs ∧ isHeap x = true) ∧ x ∉ env.envRoots := by
  rw [newRoots, VarSet.mem_diff, List.mem_filter]

/-- The pass keeps the free heap variables. -/
theorem freeVars_twiddle {e : Exp} (h : Plain e) {env : Env} (henv : env.envMap = []) {x : Var × Ty}
    (hheap : isHeap x = true) : x ∈ (twiddleExp true env e).1.freeVars ↔ x ∈ e.freeVars := by
  induction e using blocks_induction generalizing env with
  | h e ih =>
    obtain ⟨_, _, hblocks⟩ := plain_iff.1 h
    have hcore : ∀ env' : Env, env'.envMap = [] → (x ∈ (core env' e).freeVars ↔ x ∈ e.freeVars) := by
      intro env' henv'
      rw [mem_freeVars, mem_freeVars, vals_core, blocks_core]
      apply or_congr_right
      constructor
      · intro hx
        obtain ⟨_, hb', hx, hbind⟩ := hx
        obtain ⟨b, hb, rfl⟩ := List.mem_map.1 hb'
        have hfree := (ih b hb (hblocks b hb) henv').1 hx
        rw [twiddleBlock_bind (hblocks b hb) henv' hheap hfree] at hbind
        exact ⟨b, hb, hfree, hbind⟩
      · intro hx
        obtain ⟨b, hb, hfree, hbind⟩ := hx
        refine ⟨_, List.mem_map_of_mem hb, (ih b hb (hblocks b hb) henv').2 hfree, ?_⟩
        rwa [twiddleBlock_bind (hblocks b hb) henv' hheap hfree]
    have hroot : x ∈ (updateLetProps (core (env.root (newRoots env e.mentions)) e)).freeVars ↔ x ∈ e.freeVars := by
      rw [freeVars_updateLetProps]
      exact hcore _ henv
    rw [twiddleExp_eq henv, mem_freeVars_gcRoots, hroot]
    intro hx
    exact hroot.2 (mentions_free (mem_newRoots.1 hx).1.1)

/-! ### Calls and operations of the result -/

theorem collect_gcRoots {α : Type} {own : Exp → List α} (hgc : ∀ vs b, own (.gcRoots vs b) = []) (xs : VarSet)
    (e : Exp) : (gcRoots xs e).collect own = e.collect own := by
  cases xs with
  | nil => rfl
  | cons y ys =>
    rw [gcRoots_cons, collect_eq, hgc]
    simp [blocks]

/-- What the pass keeps in each expression, it keeps in all parts of an expression. -/
theorem collect_twiddle {α : Type} {own : Exp → List α} (hgc : ∀ vs b, own (.gcRoots vs b) = [])
    (hnil : ∀ b p, own (lett [] b p) = []) (hprops : ∀ ds b p q, own (lett ds b p) = own (lett ds b q))
    (hcore : ∀ env : Env, env.envMap = [] → ∀ e, own (core env e) = own e) {env : Env} (henv : env.envMap = [])
    (e : Exp) : (twiddleExp true env e).1.collect own = e.collect own := by
  induction e using blocks_induction generalizing env with
  | h e ih =>
    rw [twiddleExp_eq henv, collect_gcRoots hgc, collect_updateLetProps hnil hprops, collect_eq, collect_eq own e,
      hcore (env.root (newRoots env e.mentions)) henv, blocks_core, List.flatMap_map]
    congr 1
    apply List.flatMap_congr
    intro b hb
    exact ih b hb henv

theorem calls_twiddle {env : Env} (henv : env.envMap = []) (e : Exp) : (twiddleExp true env e).1.calls = e.calls :=
  collect_twiddle (fun _ _ => rfl) (fun _ _ => rfl) (fun _ _ _ _ => rfl) (fun env _ => ownCalls_core env) henv e

theorem allocOps_twiddle {env : Env} (henv : env.envMap = []) (e : Exp) :
    (twiddleExp true env e).1.allocOps = e.allocOps := by
  apply collect_twiddle (fun _ _ => rfl) (fun _ _ => rfl) (fun _ _ _ _ => rfl) _ henv
  intro env _ e
  cases e <;> rfl

theorem funcOps_twiddleDef {env : Env} (henv : env.envMap = []) (d : FuncDef) :
    ((twiddleDef env d).name, (twiddleDef env d).body.exp.allocOps, (twiddleDef env d).body.exp.calls) =
      (d.name, d.body.exp.allocOps, d.body.exp.calls) := by
  simp only [twiddleDef, FuncDef.updateFuncDefProps_name, FuncDef.updateFuncDefProps_body, FuncDef.name_mk,
    FuncDef.body_mk, twiddleLam_eq, twiddleBind, Lam.exp_mk, allocOps_twiddle henv, calls_twiddle henv]

theorem funcOps_twiddle {env : Env} (henv : env.envMap = []) (e : Exp) :
    (twiddleExp true env e).1.funcOps = e.funcOps := by
  apply collect_twiddle (fun _ _ => rfl) (fun _ _ => rfl) (fun _ _ _ _ => rfl) _ henv
  intro env henv e
  cases e with
  | lett ds b p =>
    simp only [core, ownFuncOps, twiddleDefs_eq, List.map_map]
    apply List.map_congr_left
    intro d _
    exact funcOps_twiddleDef henv d
  | _ => rfl

/-- The pass keeps which functions may allocate. -/
theorem progOps_twiddle (grinFunctions : List FuncDef) :
    progOps (twiddleGrin true grinFunctions) = progOps grinFunctions := by
  have henv : (⟨[], []⟩ : Env).envMap = [] := rfl
  unfold progOps twiddleGrin
  rw [twiddleDefs_eq, List.map_map, List.flatMap_map]
  congr 1
  · apply List.map_congr_left
    intro d _
    exact funcOps_twiddleDef henv d
  · apply List.flatMap_congr
    intro d _
    simp only [twiddleDef, FuncDef.updateFuncDefProps_body, FuncDef.body_mk, twiddleLam_eq, twiddleBind, Lam.exp_mk]
    exact funcOps_twiddle henv _

/-! ### Uses in the result -/

/-- Agreement on the heap variables. -/
def SameUses (Δ Δ' : Uses) : Prop := ∀ a x, isHeap x = true → (Δ a x ↔ Δ' a x)

theorem letUses_mono {Δ Δ' : Uses} {ds ds' : List FuncDef} {x : Var × Ty}
    (hΔ : ∀ a, Δ a x → Δ' a x) (hnames : ds'.map FuncDef.name = ds.map FuncDef.name)
    (hds : ∀ d ∈ ds, ∃ d' ∈ ds', d'.name = d.name ∧ (x ∈ d.body.freeVars → x ∈ d'.body.freeVars) ∧
      d'.body.exp.calls = d.body.exp.calls) {a : Atom} (h : LetUses Δ ds a x) : LetUses Δ' ds' a x := by
  induction h with
  | own hd h =>
    obtain ⟨d', hd', hname, hfree, _⟩ := hds _ hd
    rw [← hname]
    exact .own hd' (hfree h)
  | outer hd hc hnew h =>
    obtain ⟨d', hd', hname, _, hcalls⟩ := hds _ hd
    rw [← hname]
    rw [← hcalls] at hc
    rw [← hnames] at hnew
    exact .outer hd' hc hnew (hΔ _ h)
  | call hd hc _ ih =>
    obtain ⟨d', hd', hname, _, hcalls⟩ := hds _ hd
    rw [← hname]
    rw [← hcalls] at hc
    exact .call hd' hc (ih hΔ hds)

theorem def_freeVars {d : FuncDef} (h : Plain d.body.exp) {env : Env} (henv : env.envMap = []) {x : Var × Ty}
    (hheap : isHeap x = true) : x ∈ (twiddleDef env d).body.freeVars ↔ x ∈ d.body.freeVars := by
  have hbody : (twiddleDef env d).body = (twiddleBind d.body.bind (twiddleExp true env d.body.exp)).1 := by
    rw [← twiddleLam_eq]
    rfl
  rw [hbody, mem_lam_freeVars, mem_lam_freeVars]
  have hexp := freeVars_twiddle h henv hheap
  constructor
  · intro hx
    have hfree := hexp.1 hx.1
    exact ⟨hfree, fun hbind => hx.2 ((mem_twiddleBind hheap fun _ => used_free h henv hheap hfree).2 hbind)⟩
  · intro hx
    exact ⟨hexp.2 hx.1, fun hbind => hx.2 ((mem_twiddleBind hheap fun _ => used_free h henv hheap hx.1).1 hbind)⟩

theorem enter_core {e : Exp} (h : Plain e) {env : Env} (henv : env.envMap = []) {Δ Δ' : Uses} (hΔ : SameUses Δ Δ') :
    SameUses (Δ.enter e) (Δ'.enter (core env e)) := by
  intro a x hheap
  have hplain : ∀ d ∈ e.defs, Plain d.body.exp := fun d hd => (plain_iff.1 h).2.2 _ (block_of_def hd)
  have hnames : (core env e).defs.map FuncDef.name = e.defs.map FuncDef.name := by
    rw [defs_core, List.map_map]
    rfl
  have hcalls : ∀ d : FuncDef, (twiddleDef env d).body.exp.calls = d.body.exp.calls := fun d =>
    (Prod.ext_iff.1 (Prod.ext_iff.1 (funcOps_twiddleDef henv d)).2).2
  unfold Uses.enter
  rw [hnames, hΔ a x hheap]
  apply or_congr_right
  constructor
  · intro hx
    apply letUses_mono (fun a => (hΔ a x hheap).1) hnames _ hx
    intro d hd
    refine ⟨twiddleDef env d, ?_, rfl, (def_freeVars (hplain d hd) henv hheap).2, hcalls d⟩
    rw [defs_core]
    exact List.mem_map_of_mem hd
  · intro hx
    apply letUses_mono (fun a => (hΔ a x hheap).2) hnames.symm _ hx
    intro d' hd'
    rw [defs_core] at hd'
    obtain ⟨d, hd, rfl⟩ := List.mem_map.1 hd'
    exact ⟨d, hd, rfl, (def_freeVars (hplain d hd) henv hheap).1, (hcalls d).symm⟩

theorem inBlock_twiddle {b : List Val × Exp} (h : Plain b.2) {env : Env} (henv : env.envMap = []) {ren : Bool}
    {Δ Δ' : Uses} (hΔ : SameUses Δ Δ') {x : Var × Ty} (hheap : isHeap x = true) :
    Δ'.inBlock (twiddleBlock env ren b) x ↔ Δ.inBlock b x := by
  unfold Uses.inBlock
  have hfree : x ∈ (twiddleBlock env ren b).2.freeVars ↔ x ∈ b.2.freeVars := freeVars_twiddle h henv hheap
  have hcalls : (twiddleBlock env ren b).2.calls = b.2.calls := calls_twiddle henv b.2
  rw [hcalls]
  apply or_congr
  · rw [hfree]
    apply and_congr_right
    intro hx
    rw [twiddleBlock_bind h henv hheap hx]
  · apply exists_congr
    intro c
    rw [hΔ c.1 x hheap]

/-! ### The roots of the result -/

theorem enter_of_defs_nil {e : Exp} (h : e.defs = []) (Δ : Uses) : Δ.enter e = Δ := by
  funext a x
  apply propext
  unfold Uses.enter
  rw [h]
  constructor
  · intro hx
    obtain hx | hx := hx
    · exact hx.2
    · cases hx with
      | own hd _ => cases hd
      | outer hd _ _ _ => cases hd
      | call hd _ _ => cases hd
  · intro hx
    exact .inl ⟨List.not_mem_nil, hx⟩

theorem after_nil (Δ : Uses) (L : Var × Ty → Prop) (b : List Val × Exp) : Δ.after L (b, []) = L := by
  funext x
  simp [Uses.after]

theorem rooted_updateLetProps {fa : Atom → Prop} {Δ : Uses} {R L : Var × Ty → Prop} (e : Exp) :
    Rooted fa Δ R L (updateLetProps e) ↔ Rooted fa Δ R L e := by
  unfold updateLetProps
  split
  · next b p =>
    rw [rooted_iff (e := lett [] b p), enter_of_defs_nil rfl]
    simp [CanAlloc, ownAllocs, ownCalls, parts, blocks, roots, after_nil]
  · next ds b p _ =>
    rw [rooted_iff, rooted_iff (e := lett ds b p)]
    rfl
  · rfl

theorem rooted_gcRoots {fa : Atom → Prop} {Δ : Uses} {R L : Var × Ty → Prop} (xs : VarSet) (e : Exp) :
    Rooted fa Δ R L (gcRoots xs e) ↔ Rooted fa Δ (fun x => R x ∨ x ∈ xs) L e := by
  cases xs with
  | nil => simp [gcRoots]
  | cons y ys =>
    rw [gcRoots_cons, rooted_iff, enter_of_defs_nil rfl]
    simp only [CanAlloc, ownAllocs, ownCalls, parts, blocks, roots, mem_rootVals]
    simp [after_nil]

/-- The roots of the result are right when the expression mentions what it uses. -/
theorem rooted_twiddle {fa : Atom → Prop} {e : Exp} (h : Plain e) {env : Env} (henv : env.envMap = [])
    {Δ Δ' : Uses} (hΔ : SameUses Δ Δ') {R M L L' : Var × Ty → Prop}
    (hroots : ∀ x, isHeap x = true → (x ∈ env.envRoots ↔ R x)) (hR : ∀ x, isHeap x = true → (R x ↔ M x))
    (hL : ∀ x, isHeap x = true → (L' x ↔ L x)) :
    Rooted fa Δ' R L' (twiddleExp true env e).1 ↔ Mentioned fa Δ M L e := by
  induction e using blocks_induction generalizing env Δ Δ' R M L L' with
  | h e ih =>
    obtain ⟨hvisit, _, hblocks⟩ := plain_iff.1 h
    have henv' : (env.root (newRoots env e.mentions)).envMap = [] := henv
    have hR' : ∀ x, isHeap x = true → ((R x ∨ x ∈ newRoots env e.mentions) ↔ M x ∨ x ∈ e.mentions) := by
      intro x hheap
      rw [mem_newRoots, hroots x hheap, hR x hheap]
      have : isHeap x = true := hheap
      tauto
    have hown : ∀ x ∈ e.roots, isHeap x = false := by
      intro x hx
      cases e with
      | gcRoots vs b => exact hvisit x hx
      | _ => cases hx
    rw [twiddleExp_eq henv, rooted_gcRoots, rooted_updateLetProps, rooted_iff, mentioned_iff, parts_core,
      List.forall_mem_map]
    have hcan : (core (env.root (newRoots env e.mentions)) e).CanAlloc fa ↔ e.CanAlloc fa := by
      unfold CanAlloc
      rw [ownAllocs_core, ownCalls_core]
    apply and_congr
    · rw [hcan]
      apply forall_congr'
      intro _
      apply forall_congr'
      intro x
      constructor
      · intro hx hl hheap
        exact (hR' x hheap).1 (hx ((hL x hheap).2 hl) hheap)
      · intro hx hl hheap
        exact (hR' x hheap).2 (hx ((hL x hheap).1 hl) hheap)
    · apply forall_congr'
      intro p
      apply forall_congr'
      intro hp
      have hb := block_of_part hp
      have hΔ' := enter_core h henv' hΔ
      apply ih p.1 hb (hblocks _ hb) henv' hΔ'
      · intro x hheap
        have hnone : x ∉ e.roots := fun hmem => by
          rw [hown x hmem] at hheap
          cases hheap
        rw [roots_core]
        simp only [Env.root, VarSet.mem_union, hroots x hheap, hnone, or_false]
      · intro x hheap
        have hnone : x ∉ e.roots := fun hmem => by
          rw [hown x hmem] at hheap
          cases hheap
        rw [roots_core]
        simpa only [hnone, or_false] using hR' x hheap
      · intro x hheap
        unfold Uses.after
        rw [hL x hheap]
        apply or_congr_right
        simp only [List.mem_map, exists_exists_and_eq_and]
        apply exists_congr
        intro b
        apply and_congr_right
        intro hb'
        exact inBlock_twiddle (hblocks b (rest_block hp hb')) henv' hΔ' hheap

theorem sameUses_refl (Δ : Uses) : SameUses Δ Δ := fun _ _ _ => Iff.rfl

/-- The roots of one function of the result. -/
theorem rooted_function {fa : Atom → Prop} {d : FuncDef} (h : Plain d.body.exp) :
    Rooted fa (fun _ _ => False) (fun _ => False) (fun _ => False) (twiddleDef ⟨[], []⟩ d).body.exp ↔
      Mentioned fa (fun _ _ => False) (fun _ => False) (fun _ => False) d.body.exp := by
  have hbody : (twiddleDef ⟨[], []⟩ d).body.exp = (twiddleExp true ⟨[], []⟩ d.body.exp).1 := by
    simp only [twiddleDef, FuncDef.updateFuncDefProps_body, FuncDef.body_mk, twiddleLam_eq, twiddleBind, Lam.exp_mk]
  rw [hbody]
  apply rooted_twiddle h rfl (sameUses_refl _)
  · intro x _
    simp
  · intro x _
    rfl
  · intro x _
    rfl

def thunk1 : Val := .var 1 .tyINode
def node2 : Val := .var 2 .tyNode

def oneFunction (body : Exp) : List FuncDef :=
  [(FuncDef.mk "fmain" (.mk [thunk1, node2] body) ⟨∅, ∅⟩).updateFuncDefProps]

def evalThenJoin : Exp := .bind (.baseOp .eval [thunk1]) (.mk [.var 3 .tyNode] (.app "fh" [] [.tyNode]))

/-- The variable of `node2` is used after the evaluation, in the local function. -/
def joinPoint : Exp :=
  .lett [(FuncDef.mk "fh" (.mk [] (.ret [node2])) ⟨∅, ∅⟩).updateFuncDefProps] evalThenJoin none

theorem joinPoint_not_mentioned (fa : Atom → Prop) :
    ¬ Mentioned fa (fun _ _ => False) (fun _ => False) (fun _ => False) joinPoint := by
  intro h
  have hbody := (mentioned_iff.1 h).2 (([], evalThenJoin), []) List.mem_cons_self
  have heval := (mentioned_iff.1 hbody).2
    (([], .baseOp .eval [thunk1]), [([.var 3 .tyNode], .app "fh" [] [.tyNode])]) List.mem_cons_self
  have hlet : LetUses (fun _ _ => False) joinPoint.defs "fh" (2, .tyNode) :=
    .own List.mem_cons_self (by decide +kernel)
  have hcall : ("fh", []) ∈ (Exp.app "fh" [] [.tyNode]).calls := by decide +kernel
  have huse : Uses.enter (Uses.enter (fun _ _ => False) joinPoint) evalThenJoin "fh" (2, .tyNode) :=
    .inl ⟨List.not_mem_nil, .inr hlet⟩
  have hroot := (mentioned_iff.1 heval).1 (.inl rfl) (2, .tyNode)
    (.inr ⟨_, List.mem_singleton_self _, .inr ⟨_, hcall, huse⟩⟩) rfl
  have hnone : ((2, .tyNode) : Var × Ty) ∉ joinPoint.mentions ∧ ((2, .tyNode) : Var × Ty) ∉ evalThenJoin.mentions ∧
      ((2, .tyNode) : Var × Ty) ∉ (Exp.baseOp .eval [thunk1]).mentions := by
    decide +kernel
  obtain ((hroot | hroot) | hroot) | hroot := hroot
  · exact hroot
  · exact hnone.1 hroot
  · exact hnone.2.1 hroot
  · exact hnone.2.2 hroot

/-- The variable of `node2` is used in the rest of the bind. -/
def restUse : Exp := .bind (.baseOp .eval [thunk1]) (.mk [.var 3 .tyNode] (.ret [node2]))

end Jhc.Grin

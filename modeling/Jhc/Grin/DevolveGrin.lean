import Jhc.Grin.DevolveScope

/-!
# `devolveGrin` on whole programs (Grin/Devolve.hs:32-65)

For a program whose functions have distinct names, whose `Let`s are as
`updateLetProps` leaves them and whose calls are right, the pass returns a program, and
that program is as it should be exactly when the lifted functions fit.
-/

namespace Jhc.Grin
open Exp

/-- The functions of a program in scope. -/
def arity (grin : List (Atom × Lam)) : Scope := fun a => (grin.lookup a).map fun l => l.bind.length

/-- Every call targets a top-level function or an enclosing local function and passes
as many arguments as it takes; every function has its own name. -/
structure WellFormed (grin : List (Atom × Lam)) : Prop where
  names : (grin.map Prod.fst ++ grin.flatMap fun f => f.2.exp.localNames).Nodup
  cached : ∀ f ∈ grin, Cached f.2.exp
  calls : ∀ f ∈ grin, CallsOk (arity grin) f.2.exp

/-- Calls are right again. A function that the pass has lifted has no free local
variable, and all calls of it pass its extra parameters in their order. -/
structure Devolved (grin out : List (Atom × Lam)) : Prop where
  calls : ∀ f ∈ out, CallsOk (arity out) f.2.exp
  closed : ∀ f ∈ out, f.1 ∉ grin.map Prod.fst → ∀ x ∈ f.2.freeVars, x.1 ≤ v0
  extras : ∀ f ∈ out, f.1 ∉ grin.map Prod.fst → ∃ ps xs,
    (∃ g ∈ grin, (f.1, ps) ∈ g.2.exp.localDefs) ∧ f.2.bind = ps ++ VarSet.toVals xs ∧
    ∀ g ∈ out, ∀ c ∈ g.2.exp.calls, c.1 = f.1 → ∃ as, as.length = ps.length ∧ c.2 = as ++ VarSet.toVals xs

/-- The functions that the pass lifts fit, in every function of the program. -/
def LiftsFit (grin : List (Atom × Lam)) : Prop := ∀ f ∈ grin, Fits (fun _ => False) noExtras f.2.exp

/-! ### The functions one by one -/

theorem devolveFuncs_run {fs nf : List (Atom × Lam)} {lf : Col} (h : devolveFuncs fs = some (nf, lf)) :
    ∃ rs : List ((Atom × Lam) × Exp × Col), rs.map Prod.fst = fs ∧
      (∀ r ∈ rs, devolve r.1.2.exp.size r.1.2.exp = some r.2) ∧
      nf = rs.map (fun r => (r.1.1, Lam.mk r.1.2.bind r.2.1)) ∧ lf = rs.flatMap fun r => r.2.2 := by
  induction fs generalizing nf lf with
  | nil =>
    cases h
    exact ⟨[], rfl, by simp, rfl, rfl⟩
  | cons f fs ih =>
    obtain ⟨n, l⟩ := f
    rw [devolveFuncs] at h
    obtain ⟨⟨e', col⟩, he, h⟩ := Option.bind_eq_some_iff.1 h
    obtain ⟨⟨fs', col'⟩, hfs, h⟩ := Option.bind_eq_some_iff.1 h
    cases h
    obtain ⟨rs, hfst, hrun, rfl, rfl⟩ := ih hfs
    have hall : ∀ r ∈ ((n, l), e', col) :: rs, devolve r.1.2.exp.size r.1.2.exp = some r.2 := by
      intro r hr
      obtain rfl | hr := List.mem_cons.1 hr
      · exact he
      · exact hrun r hr
    exact ⟨((n, l), e', col) :: rs, by rw [List.map_cons, hfst], hall, rfl, rfl⟩

theorem devolveFuncs_total {fs : List (Atom × Lam)} (h : ∀ f ∈ fs, Cached f.2.exp) :
    ∃ r, devolveFuncs fs = some r := by
  induction fs with
  | nil => exact ⟨_, rfl⟩
  | cons f fs ih =>
    obtain ⟨n, l⟩ := f
    obtain ⟨⟨e', col⟩, he⟩ := devolve_total (le_refl l.exp.size) (h (n, l) List.mem_cons_self)
    obtain ⟨⟨fs', col'⟩, hfs⟩ := ih fun f hf => h f (List.mem_cons_of_mem _ hf)
    exact ⟨((n, .mk l.bind e') :: fs', col ++ col'), by simp [devolveFuncs, he, hfs]⟩

section program

variable {grin : List (Atom × Lam)} (h : WellFormed grin) {rs : List ((Atom × Lam) × Exp × Col)}
  (hfst : rs.map Prod.fst = grin) (hrun : ∀ r ∈ rs, devolve r.1.2.exp.size r.1.2.exp = some r.2)

/-- The functions of the result. -/
def outFuncs (rs : List ((Atom × Lam) × Exp × Col)) : List (Atom × Lam) :=
  (rs.flatMap fun r => r.2.2) ++ rs.map fun r => (r.1.1, Lam.mk r.1.2.bind r.2.1)

theorem mem_outFuncs {f : Atom × Lam} : f ∈ outFuncs rs ↔
    (∃ r ∈ rs, f ∈ r.2.2) ∨ ∃ r ∈ rs, f = (r.1.1, Lam.mk r.1.2.bind r.2.1) := by
  unfold outFuncs
  rw [List.mem_append, List.mem_flatMap, List.mem_map]
  apply or_congr_right
  constructor
  · rintro ⟨r, hr, rfl⟩
    exact ⟨r, hr, rfl⟩
  · rintro ⟨r, hr, rfl⟩
    exact ⟨r, hr, rfl⟩

/-- The calls of the functions of the result, by the run they come from. -/
theorem out_calls {g : Atom × Lam} (hg : g ∈ outFuncs rs) : ∃ r ∈ rs, ∀ c ∈ g.2.exp.calls, c ∈ resCalls r.2.1 r.2.2 := by
  obtain ⟨r, hr, hg⟩ | ⟨r, hr, rfl⟩ := mem_outFuncs.1 hg
  · exact ⟨r, hr, fun c hc => List.mem_append_right _ (List.mem_flatMap.2 ⟨g, hg, hc⟩)⟩
  · exact ⟨r, hr, fun c hc => List.mem_append_left _ hc⟩

include hfst

theorem run_mem {r : (Atom × Lam) × Exp × Col} (hr : r ∈ rs) : r.1 ∈ grin := by
  rw [← hfst]
  exact List.mem_map_of_mem hr

theorem lifted_run {f : Atom × Lam} (hf : f ∈ outFuncs rs) (htop : f.1 ∉ grin.map Prod.fst) :
    ∃ r ∈ rs, f ∈ r.2.2 := by
  obtain hf | ⟨r, hr, rfl⟩ := mem_outFuncs.1 hf
  · exact hf
  · exact absurd (List.mem_map_of_mem (run_mem hfst hr)) htop

theorem mem_run {f : Atom × Lam} (hf : f ∈ grin) : ∃ r ∈ rs, r.1 = f := by
  rw [← hfst] at hf
  exact List.mem_map.1 hf

include h

theorem run_cached {r : (Atom × Lam) × Exp × Col} (hr : r ∈ rs) : Cached r.1.2.exp := h.cached _ (run_mem hfst hr)

theorem run_nodup {r : (Atom × Lam) × Exp × Col} (hr : r ∈ rs) : r.1.2.exp.localNames.Nodup :=
  (List.nodup_flatMap.1 (List.nodup_append'.1 h.names).2.1).1 _ (run_mem hfst hr)

theorem top_not_local {r : (Atom × Lam) × Exp × Col} (hr : r ∈ rs) {a : Atom} (ha : a ∈ r.1.2.exp.localNames) :
    a ∉ grin.map Prod.fst := by
  intro hmem
  exact (List.nodup_append'.1 h.names).2.2 hmem (List.mem_flatMap.2 ⟨_, run_mem hfst hr, ha⟩)

theorem arity_fresh {r : (Atom × Lam) × Exp × Col} (hr : r ∈ rs) :
    ∀ a ∈ r.1.2.exp.localNames, arity grin a = none := by
  intro a ha
  unfold arity
  rw [Lib.lookup_eq_none.2 (top_not_local h hfst hr ha)]
  rfl

include hrun

/-- The names of the result are those of the program. -/
theorem out_names : ((outFuncs rs).map Prod.fst ++ (outFuncs rs).flatMap fun f => f.2.exp.localNames).Perm
    (grin.map Prod.fst ++ grin.flatMap fun f => f.2.exp.localNames) := by
  apply List.perm_iff_count.2
  intro a
  have hrs : ∀ r ∈ rs, (r.2.2.map Prod.fst).count a + r.2.1.localNames.count a +
      (r.2.2.flatMap fun f => f.2.exp.localNames).count a = r.1.2.exp.localNames.count a := fun r hr =>
    names_count (hrun r hr) (run_nodup h hfst hr) (run_cached h hfst hr) a
  have hcount := sum_add3 rs hrs
  rw [← hfst]
  unfold outFuncs
  simp only [List.map_append, List.count_append, List.map_flatMap, List.map_map, List.flatMap_append,
    List.flatMap_map, List.flatMap_assoc, List.count_flatMap, Function.comp_def, Lam.exp_mk] at hcount ⊢
  omega

theorem out_nodup : ((outFuncs rs).map Prod.fst ++ (outFuncs rs).flatMap fun f => f.2.exp.localNames).Nodup :=
  (out_names h hfst hrun).nodup_iff.2 h.names

theorem arity_out {f : Atom × Lam} (hf : f ∈ outFuncs rs) : arity (outFuncs rs) f.1 = some f.2.bind.length := by
  unfold arity
  rw [Lib.lookup_of_mem (List.nodup_append'.1 (out_nodup h hfst hrun)).1 hf]
  rfl

theorem arity_kept {a : Atom} {n : ℕ} (ha : arity grin a = some n) : arity (outFuncs rs) a = some n := by
  obtain ⟨l, hl, rfl⟩ := Option.map_eq_some_iff.1 ha
  obtain ⟨r, hr, heq⟩ := mem_run hfst (Lib.mem_of_lookup hl)
  have hout := arity_out h hfst hrun (mem_outFuncs.2 (.inr ⟨r, hr, rfl⟩))
  rw [heq] at hout
  exact hout

theorem lifted_not_top {r : (Atom × Lam) × Exp × Col} (hr : r ∈ rs) {f : Atom × Lam} (hf : f ∈ r.2.2) :
    f.1 ∈ r.1.2.exp.localNames ∧ f.1 ∉ grin.map Prod.fst := by
  have hlocal := col_names (hrun r hr) (run_nodup h hfst hr) (run_cached h hfst hr) f hf
  exact ⟨hlocal, top_not_local h hfst hr hlocal⟩

theorem out_closed : ∀ f ∈ outFuncs rs, f.1 ∉ grin.map Prod.fst → ∀ x ∈ f.2.freeVars, x.1 ≤ v0 := by
  intro f hf htop
  obtain ⟨r, hr, hf⟩ := lifted_run hfst hf htop
  exact (closed (hrun r hr) (run_nodup h hfst hr) (run_cached h hfst hr)).2 f hf

theorem out_extras : ∀ f ∈ outFuncs rs, f.1 ∉ grin.map Prod.fst → ∃ ps xs,
    (∃ g ∈ grin, (f.1, ps) ∈ g.2.exp.localDefs) ∧ f.2.bind = ps ++ VarSet.toVals xs ∧
    ∀ g ∈ outFuncs rs, ∀ c ∈ g.2.exp.calls, c.1 = f.1 →
      ∃ as, as.length = ps.length ∧ c.2 = as ++ VarSet.toVals xs := by
  intro f hf htop
  obtain ⟨r, hr, hf⟩ := lifted_run hfst hf htop
  have hnodup := run_nodup h hfst hr
  have hcached := run_cached h hfst hr
  obtain ⟨ps, xs, hmem, hbind⟩ := col_sub (hrun r hr) hnodup hcached f hf
  refine ⟨ps, xs, ⟨_, run_mem hfst hr, hmem⟩, hbind, ?_⟩
  intro g hg c hc hname
  obtain ⟨r', hr', hcalls⟩ := out_calls hg
  have hlocal := (lifted_not_top h hfst hrun hr hf).1
  by_cases hinner : c.1 ∈ r'.1.2.exp.localNames
  · -- a call in the function that the lifted one comes from
    have hsame : r'.1 = r.1 := by
      by_contra hne
      have hpair : grin.Pairwise fun x y => x.2.exp.localNames.Disjoint y.2.exp.localNames :=
        (List.nodup_flatMap.1 (List.nodup_append'.1 h.names).2.1).2
      have hsymm : ∀ x y : Atom × Lam, x.2.exp.localNames.Disjoint y.2.exp.localNames →
          y.2.exp.localNames.Disjoint x.2.exp.localNames := fun _ _ hxy => hxy.symm
      have : Std.Symm fun x y : Atom × Lam => x.2.exp.localNames.Disjoint y.2.exp.localNames := ⟨hsymm⟩
      rw [hname] at hinner
      exact hpair.forall (run_mem hfst hr') (run_mem hfst hr) hne hinner hlocal
    have hres : r'.2 = r.2 := by
      have hrun' := hrun r' hr'
      rw [hsame, hrun r hr] at hrun'
      exact (Option.some.inj hrun').symm
    have hcall := hcalls c hc
    rw [hres] at hcall
    obtain ⟨as, bs, ys, hmem', hbind', hargs, hlen⟩ := passExtra (hrun r hr) hnodup hcached (arity grin)
      (h.calls _ (run_mem hfst hr)) (arity_fresh h hfst hr) c hcall f hf hname
    have hbs : bs = ps := by
      have hinj := List.inj_on_of_nodup_map hnodup hmem' hmem rfl
      exact congrArg Prod.snd hinj
    subst hbs
    rw [hbind'] at hbind
    rw [List.append_cancel_left hbind] at hargs
    exact ⟨as, hlen, hargs⟩
  · have houter := outerCalls (hrun r' hr') (run_nodup h hfst hr') (run_cached h hfst hr') c (hcalls c hc) hinner
    have hscope := callsOk_call (h.calls _ (run_mem hfst hr')) houter hinner
    rw [hname, arity_fresh h hfst hr f.1 hlocal] at hscope
    cases hscope

theorem out_ok (hfit : LiftsFit grin) : ∀ f ∈ outFuncs rs, CallsOk (arity (outFuncs rs)) f.2.exp := by
  have hkept : ∀ r ∈ rs, _ := fun r hr => scopeKept (hrun r hr) (run_nodup h hfst hr) (run_cached h hfst hr)
    (arity grin) (fun _ => False) (h.calls _ (run_mem hfst hr)) (arity_fresh h hfst hr) (hfit _ (run_mem hfst hr))
  have hcol : ∀ r ∈ rs, ∀ f ∈ r.2.2, arity (outFuncs rs) f.1 = some f.2.bind.length := fun r hr f hf =>
    arity_out h hfst hrun (mem_outFuncs.2 (.inl ⟨r, hr, hf⟩))
  intro f hf
  obtain ⟨r, hr, hf⟩ | ⟨r, hr, rfl⟩ := mem_outFuncs.1 hf
  · exact (hkept r hr).2 _ (fun a n _ ha => arity_kept h hfst hrun ha) (hcol r hr) f hf
  · exact (hkept r hr).1 _ (fun a n ha => arity_kept h hfst hrun ha) (hcol r hr)

theorem fit_of_out (hok : ∀ f ∈ outFuncs rs, CallsOk (arity (outFuncs rs)) f.2.exp) : LiftsFit grin := by
  intro f hf
  obtain ⟨r, hr, rfl⟩ := mem_run hfst hf
  apply fitNeeded (hrun r hr) (run_nodup h hfst hr) (run_cached h hfst hr) (arity grin) (arity (outFuncs rs))
    (arity (outFuncs rs)) (fun _ => False) (h.calls _ hf) (arity_fresh h hfst hr)
  · exact hok _ (mem_outFuncs.2 (.inr ⟨r, hr, rfl⟩))
  · intro f hf
    exact hok _ (mem_outFuncs.2 (.inl ⟨r, hr, hf⟩))
  · intro a ha
    cases ha
  · intro d hd
    unfold arity
    have hlocal : d.1 ∈ (outFuncs rs).flatMap fun f => f.2.exp.localNames := by
      obtain hd | hd := List.mem_append.1 hd
      · exact List.mem_flatMap.2 ⟨_, mem_outFuncs.2 (.inr ⟨r, hr, rfl⟩), List.mem_map_of_mem hd⟩
      · obtain ⟨f, hf, hd⟩ := List.mem_flatMap.1 hd
        exact List.mem_flatMap.2 ⟨f, mem_outFuncs.2 (.inl ⟨r, hr, hf⟩), List.mem_map_of_mem hd⟩
    have hnot : d.1 ∉ (outFuncs rs).map Prod.fst := fun hmem =>
      (List.nodup_append'.1 (out_nodup h hfst hrun)).2.2 hmem hlocal
    rw [Lib.lookup_eq_none.2 hnot]
    rfl

end program

/-- The pass returns a program for every well formed one, and that program is right
exactly when the lifted functions fit. -/
theorem devolve_scoped_iff (grin : List (Atom × Lam)) (h : WellFormed grin) :
    ∃ out, devolveGrin grin = some out ∧ (Devolved grin out ↔ LiftsFit grin) := by
  obtain ⟨⟨nf, lf⟩, hfuncs⟩ := devolveFuncs_total h.cached
  obtain ⟨rs, hfst, hrun, rfl, rfl⟩ := devolveFuncs_run hfuncs
  refine ⟨outFuncs rs, by simp [devolveGrin, hfuncs, outFuncs], ?_⟩
  constructor
  · intro hout
    exact fit_of_out h hfst hrun hout.calls
  · intro hfit
    exact ⟨out_ok h hfst hrun hfit, out_closed h hfst hrun, out_extras h hfst hrun⟩

/-! ### A program that the pass gets wrong, and one that it gets right -/

def var1 (v : Var) : Val := .var v .tyNode

def localFunc (name : Atom) (ps : List Val) (e : Exp) : FuncDef :=
  (FuncDef.mk name (.mk ps e) ⟨∅, ∅⟩).updateFuncDefProps

def letIn (defs : List FuncDef) (body : Exp) : Exp := updateLetProps (.lett defs body none)

/-- The function `fg` is called in a non-tail position and calls `fh`, which is not. -/
def tailCallOut : List (Atom × Lam) :=
  [("fmain", .mk [var1 1] (letIn
    [localFunc "fh" [var1 2] (.ret [var1 2]), localFunc "fg" [var1 3] (.app "fh" [var1 3] [.tyNode])]
    (.bind (.app "fg" [var1 1] [.tyNode]) (.mk [var1 4] (.ret [var1 4])))))]

/-- The lifted function `fg` calls `fh`, which is out of scope. -/
theorem tailCallOut_not_devolved :
    ¬ ∀ grin, WellFormed grin → ∃ out, devolveGrin grin = some out ∧ Devolved grin out := by
  intro h
  have hwf : WellFormed tailCallOut :=
    ⟨by decide +kernel, by decide +kernel, by decide +kernel⟩
  obtain ⟨out, hout, hok⟩ := h tailCallOut hwf
  have hcalls : (devolveGrin tailCallOut).map (fun out => decide (∀ f ∈ out, CallsOk (arity out) f.2.exp)) =
      some false := by
    decide +kernel
  rw [hout, Option.map_some, Option.some_inj, decide_eq_false_iff_not] at hcalls
  exact hcalls hok.calls

/-- The function `fg` is called in a non-tail position and uses a parameter of `fmain`. -/
def liftOne : List (Atom × Lam) :=
  [("fmain", .mk [var1 1] (letIn [localFunc "fg" [var1 3] (.ret [var1 1, var1 3])]
    (.bind (.app "fg" [var1 1] [.tyNode]) (.mk [var1 4] (.ret [var1 4])))))]

theorem liftOne_wellFormed : WellFormed liftOne :=
  ⟨by decide +kernel, by decide +kernel, by decide +kernel⟩

theorem devolve_scoped_iff_liftOne :
    ∃ out, devolveGrin liftOne = some out ∧ (Devolved liftOne out ↔ LiftsFit liftOne) :=
  devolve_scoped_iff liftOne liftOne_wellFormed

end Jhc.Grin

import Jhc.Grin.DevolveStep

/-!
# What `devolveGrin` keeps (Grin/Devolve.hs:28-65)

An induction over the steps of the pass, and what follows from it whether or not the
lifted functions fit: the functions and the calls of a program are kept, nothing
becomes free, and each call of a lifted function passes its extra parameters.
-/

namespace Jhc.Grin
open Exp

/-! ### Functions and calls of a result -/

def resCalls (e : Exp) (col : Col) : List (Atom × List Val) := e.calls ++ col.flatMap fun f => f.2.exp.calls

def resDefs (e : Exp) (col : Col) : List (Atom × List Val) :=
  e.localDefs ++ col.flatMap fun f => f.2.exp.localDefs

/-- The blocks of a step with their results. -/
def results (ps : List (FuncDef × Exp × Col)) (qs : List ((List Val × Exp) × Exp × Col)) :
    List ((List Val × Exp) × Exp × Col) :=
  ps.map (fun q => ((q.1.body.bind, q.1.body.exp), q.2)) ++ qs

namespace Step

variable {n : ℕ} {e e' : Exp} {col : Col} {pmap : PMap} {ps : List (FuncDef × Exp × Col)}
  {qs : List ((List Val × Exp) × Exp × Col)} (h : Step n e e' col pmap ps qs)
include h

theorem lifted_mem {q : FuncDef × Exp × Col} (hq : q ∈ ps) : q.1 ∈ e.liftedDefs := by
  rw [← h.lifted]
  exact List.mem_map_of_mem hq

theorem result_block {q : (List Val × Exp) × Exp × Col} (hq : q ∈ results ps qs) : q.1 ∈ e.blocks := by
  obtain hq | hq := List.mem_append.1 hq
  · obtain ⟨p, hp, rfl⟩ := List.mem_map.1 hq
    exact lifted_block (h.lifted_mem hp)
  · apply stayBlocks_sub
    rw [← h.stay]
    exact List.mem_map_of_mem hq

theorem result_run {q : (List Val × Exp) × Exp × Col} (hq : q ∈ results ps qs) :
    devolve n (piece pmap e q.1.2) = some q.2 := by
  obtain hq | hq := List.mem_append.1 hq
  · obtain ⟨p, hp, rfl⟩ := List.mem_map.1 hq
    exact h.liftedRun p hp
  · exact h.stayRun q hq

theorem lifted_result {d : FuncDef} (hd : d ∈ e.liftedDefs) : ∃ r, (d, r) ∈ ps := by
  rw [← h.lifted] at hd
  obtain ⟨q, hq, rfl⟩ := List.mem_map.1 hd
  exact ⟨q.2, hq⟩

theorem block_result {b : List Val × Exp} (hb : b ∈ e.blocks) : ∃ r, (b, r) ∈ results ps qs := by
  obtain hstay | ⟨d, hd, rfl⟩ := block_cases hb
  · rw [← h.stay] at hstay
    obtain ⟨q, hq, rfl⟩ := List.mem_map.1 hstay
    exact ⟨q.2, List.mem_append_right _ hq⟩
  · obtain ⟨r, hr⟩ := h.lifted_result hd
    exact ⟨r, List.mem_append_left _ (List.mem_map.2 ⟨_, hr, rfl⟩)⟩

theorem mem_col {f : Atom × Lam} : f ∈ col ↔ (∃ q ∈ results ps qs, f ∈ q.2.2) ∨
    ∃ q ∈ ps, f = (q.1.name, Lam.mk (q.1.body.bind ++ VarSet.toVals (PMap.get pmap q.1.name)) q.2.1) := by
  rw [h.col_eq]
  simp only [List.mem_append, List.mem_flatMap, List.mem_map, results]
  constructor
  · rintro ((⟨q, hq, hf⟩ | ⟨q, hq, rfl⟩) | ⟨q, hq, hf⟩)
    · exact .inl ⟨_, .inl ⟨q, hq, rfl⟩, hf⟩
    · exact .inr ⟨q, hq, rfl⟩
    · exact .inl ⟨q, .inr hq, hf⟩
  · rintro (⟨q, ⟨p, hp, rfl⟩ | hq, hf⟩ | ⟨q, hq, rfl⟩)
    · exact .inl (.inl ⟨p, hp, hf⟩)
    · exact .inr ⟨q, hq, hf⟩
    · exact .inl (.inr ⟨q, hq, rfl⟩)

theorem mem_resCalls {c : Atom × List Val} :
    c ∈ resCalls e' col ↔ c ∈ e.ownCalls ∨ ∃ q ∈ results ps qs, c ∈ resCalls q.2.1 q.2.2 := by
  unfold resCalls
  rw [h.calls, h.col_eq]
  simp only [List.mem_append, List.mem_flatMap, List.flatMap_append, List.mem_map, results]
  constructor
  · rintro ((hc | ⟨q, hq, hc⟩) | (⟨f, ⟨q, hq, hf⟩, hc⟩ | ⟨f, ⟨q, hq, rfl⟩, hc⟩) | ⟨f, ⟨q, hq, hf⟩, hc⟩)
    · exact .inl hc
    · exact .inr ⟨q, .inr hq, .inl hc⟩
    · exact .inr ⟨_, .inl ⟨q, hq, rfl⟩, .inr ⟨f, hf, hc⟩⟩
    · exact .inr ⟨_, .inl ⟨q, hq, rfl⟩, .inl hc⟩
    · exact .inr ⟨q, .inr hq, .inr ⟨f, hf, hc⟩⟩
  · rintro (hc | ⟨q, ⟨p, hp, rfl⟩ | hq, hc | ⟨f, hf, hc⟩⟩)
    · exact .inl (.inl hc)
    · exact .inr (.inl (.inr ⟨_, ⟨p, hp, rfl⟩, hc⟩))
    · exact .inr (.inl (.inl ⟨f, ⟨p, hp, hf⟩, hc⟩))
    · exact .inl (.inr ⟨q, hq, hc⟩)
    · exact .inr (.inr ⟨f, ⟨q, hq, hf⟩, hc⟩)

theorem mem_resDefs {d : Atom × List Val} : d ∈ resDefs e' col ↔
    (∃ k ∈ e.keptDefs, (k.name, k.body.bind) = d) ∨ ∃ q ∈ results ps qs, d ∈ resDefs q.2.1 q.2.2 := by
  unfold resDefs
  rw [h.localDefs, h.col_eq, keptParams]
  simp only [List.mem_append, List.mem_flatMap, List.flatMap_append, List.mem_map, results]
  constructor
  · rintro ((hc | ⟨q, hq, hc⟩) | (⟨f, ⟨q, hq, hf⟩, hc⟩ | ⟨f, ⟨q, hq, rfl⟩, hc⟩) | ⟨f, ⟨q, hq, hf⟩, hc⟩)
    · exact .inl hc
    · exact .inr ⟨q, .inr hq, .inl hc⟩
    · exact .inr ⟨_, .inl ⟨q, hq, rfl⟩, .inr ⟨f, hf, hc⟩⟩
    · exact .inr ⟨_, .inl ⟨q, hq, rfl⟩, .inl hc⟩
    · exact .inr ⟨q, .inr hq, .inr ⟨f, hf, hc⟩⟩
  · rintro (hc | ⟨q, ⟨p, hp, rfl⟩ | hq, hc | ⟨f, hf, hc⟩⟩)
    · exact .inl (.inl hc)
    · exact .inr (.inl (.inr ⟨_, ⟨p, hp, rfl⟩, hc⟩))
    · exact .inr (.inl (.inl ⟨f, ⟨p, hp, hf⟩, hc⟩))
    · exact .inl (.inr ⟨q, hq, hc⟩)
    · exact .inr (.inr ⟨f, ⟨q, hq, hf⟩, hc⟩)

end Step

/-! ### Distinct names -/

theorem localNames_eq (e : Exp) :
    e.localNames = e.defs.map FuncDef.name ++ e.blocks.flatMap fun b => b.2.localNames := by
  unfold localNames localDefs
  rw [collect_eq, List.map_append, List.map_flatMap, ownDefs_eq, List.map_map]
  rfl

section names

variable {e : Exp} (h : e.localNames.Nodup)
include h

theorem defs_nodup : (e.defs.map FuncDef.name).Nodup := by
  rw [localNames_eq] at h
  exact (List.nodup_append'.1 h).1

theorem block_nodup {b : List Val × Exp} (hb : b ∈ e.blocks) : b.2.localNames.Nodup := by
  rw [localNames_eq] at h
  exact (List.nodup_flatMap.1 (List.nodup_append'.1 h).2.1).1 b hb

theorem def_notMem_block {d : FuncDef} (hd : d ∈ e.defs) {b : List Val × Exp} (hb : b ∈ e.blocks) :
    d.name ∉ b.2.localNames := by
  rw [localNames_eq] at h
  intro hmem
  exact (List.nodup_append'.1 h).2.2 (List.mem_map_of_mem hd) (List.mem_flatMap.2 ⟨b, hb, hmem⟩)

/-- A local function belongs to one block. -/
theorem block_unique {a : Atom} {b c : List Val × Exp} (hb : b ∈ e.blocks) (hc : c ∈ e.blocks)
    (hab : a ∈ b.2.localNames) (hac : a ∈ c.2.localNames) : b = c := by
  rw [localNames_eq] at h
  by_contra hne
  have hpair : e.blocks.Pairwise fun x y => x.2.localNames.Disjoint y.2.localNames :=
    (List.nodup_flatMap.1 (List.nodup_append'.1 h).2.1).2
  have hsymm : ∀ x y : List Val × Exp,
      x.2.localNames.Disjoint y.2.localNames → y.2.localNames.Disjoint x.2.localNames := fun _ _ hxy => hxy.symm
  have : Std.Symm fun x y : List Val × Exp => x.2.localNames.Disjoint y.2.localNames := ⟨hsymm⟩
  exact hpair.forall hb hc hne hab hac

end names

/-- Induction over the steps of a run. -/
theorem devolve_induction {P : Exp → Exp → Col → Prop}
    (hstep : ∀ n e e' col pmap ps qs, Step n e e' col pmap ps qs → e.localNames.Nodup → Cached e →
      (∀ q ∈ results ps qs, P (piece pmap e q.1.2) q.2.1 q.2.2) → P e e' col) {n : ℕ} {e e' : Exp} {col : Col}
    (hrun : devolve n e = some (e', col)) (hnames : e.localNames.Nodup) (h : Cached e) : P e e' col := by
  induction n generalizing e e' col with
  | zero => cases hrun
  | succ n ih =>
    obtain ⟨pmap, ps, qs, hs⟩ := devolve_step hrun (defs_nodup hnames)
    apply hstep n e e' col pmap ps qs hs hnames h
    intro q hq
    apply ih (hs.result_run hq)
    · rw [localNames_piece]
      exact block_nodup hnames (hs.result_block hq)
    · exact cached_piece h (hs.result_block hq)

/-! ### Functions are kept -/

theorem mem_localNames_block {e : Exp} {b : List Val × Exp} (hb : b ∈ e.blocks) {d : Atom × List Val}
    (hd : d ∈ b.2.localDefs) : d ∈ e.localDefs :=
  mem_localDefs.2 (.inr ⟨b, hb, hd⟩)

theorem def_mem_localDefs {e : Exp} {d : FuncDef} (hd : d ∈ e.defs) : (d.name, d.body.bind) ∈ e.localDefs := by
  apply mem_localDefs.2
  rw [ownDefs_eq]
  exact .inl (List.mem_map_of_mem hd)

/-- Every local function of the result is one of the program. -/
theorem resDefs_sub {n : ℕ} {e e' : Exp} {col : Col} (hrun : devolve n e = some (e', col))
    (hnames : e.localNames.Nodup) (h : Cached e) : ∀ d ∈ resDefs e' col, d ∈ e.localDefs := by
  refine devolve_induction (P := fun e e' col => ∀ d ∈ resDefs e' col, d ∈ e.localDefs) ?_ hrun hnames h
  intro n e e' col pmap ps qs hs _ _ ih d hd
  obtain ⟨k, hk, rfl⟩ | ⟨q, hq, hd⟩ := hs.mem_resDefs.1 hd
  · exact def_mem_localDefs (List.mem_filter.1 hk).1
  · have hpiece := ih q hq d hd
    rw [localDefs_piece] at hpiece
    exact mem_localNames_block (hs.result_block hq) hpiece

/-- Every lifted function is a local function of the program with more parameters. -/
theorem col_sub {n : ℕ} {e e' : Exp} {col : Col} (hrun : devolve n e = some (e', col))
    (hnames : e.localNames.Nodup) (h : Cached e) :
    ∀ f ∈ col, ∃ as xs, (f.1, as) ∈ e.localDefs ∧ f.2.bind = as ++ VarSet.toVals xs := by
  refine devolve_induction (P := fun e _ col =>
    ∀ f ∈ col, ∃ as xs, (f.1, as) ∈ e.localDefs ∧ f.2.bind = as ++ VarSet.toVals xs) ?_ hrun hnames h
  intro n e e' col pmap ps qs hs _ _ ih f hf
  obtain ⟨q, hq, hf⟩ | ⟨q, hq, rfl⟩ := hs.mem_col.1 hf
  · obtain ⟨as, xs, hmem, hbind⟩ := ih q hq f hf
    rw [localDefs_piece] at hmem
    exact ⟨as, xs, mem_localNames_block (hs.result_block hq) hmem, hbind⟩
  · exact ⟨_, _, def_mem_localDefs (List.mem_filter.1 (hs.lifted_mem hq)).1, rfl⟩

theorem col_names {n : ℕ} {e e' : Exp} {col : Col} (hrun : devolve n e = some (e', col))
    (hnames : e.localNames.Nodup) (h : Cached e) : ∀ f ∈ col, f.1 ∈ e.localNames := by
  intro f hf
  obtain ⟨as, xs, hmem, _⟩ := col_sub hrun hnames h f hf
  exact List.mem_map_of_mem hmem

theorem resDefs_names {n : ℕ} {e e' : Exp} {col : Col} (hrun : devolve n e = some (e', col))
    (hnames : e.localNames.Nodup) (h : Cached e) : ∀ d ∈ resDefs e' col, d.1 ∈ e.localNames := by
  intro d hd
  exact List.mem_map_of_mem (resDefs_sub hrun hnames h d hd)

/-! ### Calls are kept -/

/-- A call of a function from outside is still there. -/
theorem calls_kept {n : ℕ} {e e' : Exp} {col : Col} (hrun : devolve n e = some (e', col))
    (hnames : e.localNames.Nodup) (h : Cached e) :
    ∀ c ∈ e.calls, c.1 ∉ e.localNames → c ∈ resCalls e' col := by
  refine devolve_induction (P := fun e e' col =>
    ∀ c ∈ e.calls, c.1 ∉ e.localNames → c ∈ resCalls e' col) ?_ hrun hnames h
  intro n e e' col pmap ps qs hs hnames h ih c hc hname
  apply hs.mem_resCalls.2
  obtain hc | ⟨b, hb, hc⟩ := mem_calls.1 hc
  · exact .inl hc
  · obtain ⟨r, hr⟩ := hs.block_result hb
    have hpatch : patch pmap c = c := by
      apply patch_nil
      apply hs.passes.get_nil
      intro d hd heq
      exact hname (heq ▸ List.mem_map_of_mem (def_mem_localDefs hd))
    have hpiece : c ∈ (piece pmap e b.2).calls := by
      rw [calls_piece h hb hs.passes]
      exact List.mem_map.2 ⟨c, hc, hpatch⟩
    have hkept := ih (b, r) hr c hpiece (by
      rw [localNames_piece]
      exact fun hmem => hname (localNames_block hb hmem))
    exact .inr ⟨(b, r), hr, hkept⟩

/-- A scope for the patched blocks: every function takes its extra parameters too. -/
def Scope.patched (Γ : Scope) (pmap : PMap) : Scope := fun a =>
  (Γ a).map fun n => n + (PMap.get pmap a).length

section scope

variable {e : Exp} (hnames : e.localNames.Nodup) {Γ : Scope} (hfresh : ∀ a ∈ e.localNames, Γ a = none)
include hnames

theorem enter_def {d : FuncDef} (hd : d ∈ e.defs) : Γ.enter e d.name = some d.body.bind.length := by
  unfold Scope.enter Scope.add
  rw [ownDefs_eq, Lib.lookup_of_mem (b := d.body.bind)]
  · rw [List.map_map]
    exact defs_nodup hnames
  · exact List.mem_map.2 ⟨d, hd, rfl⟩

include hfresh

theorem enter_block {b : List Val × Exp} (hb : b ∈ e.blocks) {a : Atom} (ha : a ∈ b.2.localNames) :
    Γ.enter e a = none := by
  unfold Scope.enter Scope.add
  have hlook : e.ownDefs.lookup a = none := by
    apply Lib.lookup_eq_none.2
    rw [ownDefs_eq, List.map_map]
    intro hmem
    obtain ⟨d, hd, rfl⟩ := List.mem_map.1 hmem
    exact def_notMem_block hnames hd hb ha
  rw [hlook]
  exact hfresh a (localNames_block hb ha)

theorem callsOk_patched (h : Cached e) {pmap : PMap} (hp : Passes pmap e) {b : List Val × Exp} (hb : b ∈ e.blocks)
    (hok : CallsOk Γ e) : CallsOk ((Γ.enter e).patched pmap) (piece pmap e b.2) ∧
      ∀ a ∈ (piece pmap e b.2).localNames, (Γ.enter e).patched pmap a = none := by
  constructor
  · apply callsOk_piece h hb hp ((callsOk_iff.1 hok).2 b hb)
    · intro a ha d hd heq
      exact def_notMem_block hnames hd hb (heq ▸ ha)
    · intro c _ n hn
      unfold Scope.patched
      rw [hn]
      rfl
  · intro a ha
    rw [localNames_piece] at ha
    unfold Scope.patched
    rw [enter_block hnames hfresh hb ha]
    rfl

end scope

/-- Calls of functions from outside are unchanged. -/
def OuterCalls (e e' : Exp) (col : Col) : Prop :=
  ∀ c ∈ resCalls e' col, c.1 ∉ e.localNames → c ∈ e.calls

theorem outerCalls {n : ℕ} {e e' : Exp} {col : Col} (hrun : devolve n e = some (e', col))
    (hnames : e.localNames.Nodup) (h : Cached e) : OuterCalls e e' col := by
  refine devolve_induction (P := OuterCalls) ?_ hrun hnames h
  intro n e e' col pmap ps qs hs hnames h ih c hc hname
  obtain hc | ⟨q, hq, hc⟩ := hs.mem_resCalls.1 hc
  · exact mem_calls.2 (.inl hc)
  · have hb := hs.result_block hq
    have hpiece := ih q hq c hc (by
      rw [localNames_piece]
      exact fun hmem => hname (localNames_block hb hmem))
    rw [calls_piece h hb hs.passes] at hpiece
    obtain ⟨c', hc', rfl⟩ := List.mem_map.1 hpiece
    have hpatch : patch pmap c' = c' := by
      apply patch_nil
      apply hs.passes.get_nil
      intro d hd heq
      exact hname (by
        change c'.1 ∈ e.localNames
        rw [← heq]
        exact List.mem_map_of_mem (def_mem_localDefs hd))
    rw [hpatch]
    exact mem_calls.2 (.inr ⟨q.1, hb, hc'⟩)

/-- Each call of a lifted function ends with the extra parameters of the function. -/
def PassExtra (e e' : Exp) (col : Col) : Prop :=
  ∀ Γ : Scope, CallsOk Γ e → (∀ a ∈ e.localNames, Γ a = none) → ∀ c ∈ resCalls e' col, ∀ f ∈ col, c.1 = f.1 →
    ∃ as bs xs, (f.1, bs) ∈ e.localDefs ∧ f.2.bind = bs ++ VarSet.toVals xs ∧ c.2 = as ++ VarSet.toVals xs ∧
      as.length = bs.length

theorem result_unique {n : ℕ} {e e' : Exp} {col : Col} {pmap : PMap} {ps : List (FuncDef × Exp × Col)}
    {qs : List ((List Val × Exp) × Exp × Col)} (hs : Step n e e' col pmap ps qs) {p q : (List Val × Exp) × Exp × Col}
    (hp : p ∈ results ps qs) (hq : q ∈ results ps qs) (h : p.1 = q.1) : p = q := by
  have hrun := hs.result_run hp
  rw [h, hs.result_run hq] at hrun
  exact Prod.ext h (Option.some.inj hrun).symm

theorem passExtra {n : ℕ} {e e' : Exp} {col : Col} (hrun : devolve n e = some (e', col))
    (hnames : e.localNames.Nodup) (h : Cached e) : PassExtra e e' col := by
  refine devolve_induction (P := PassExtra) ?_ hrun hnames h
  intro n e e' col pmap ps qs hs hnames h ih Γ hok hfresh c hc f hf hcf
  have hnodup : ∀ q ∈ results ps qs, (piece pmap e q.1.2).localNames.Nodup := by
    intro q hq
    rw [localNames_piece]
    exact block_nodup hnames (hs.result_block hq)
  have hcached : ∀ q ∈ results ps qs, Cached (piece pmap e q.1.2) := fun q hq =>
    cached_piece h (hs.result_block hq)
  have hlocal : f.1 ∈ e.localNames := by
    obtain ⟨q, hq, hf⟩ | ⟨q, hq, rfl⟩ := hs.mem_col.1 hf
    · have hinner := col_names (hs.result_run hq) (hnodup q hq) (hcached q hq) f hf
      rw [localNames_piece] at hinner
      exact localNames_block (hs.result_block hq) hinner
    · exact List.mem_map_of_mem (def_mem_localDefs (List.mem_filter.1 (hs.lifted_mem hq)).1)
  obtain hc | ⟨q, hq, hc⟩ := hs.mem_resCalls.1 hc
  · -- a call by the expression itself targets a function from outside
    have hscope := (callsOk_iff.1 hok).1 c hc
    rw [hcf, hfresh f.1 hlocal] at hscope
    cases hscope
  · have hb := hs.result_block hq
    -- a call that is not to a function inside the block comes from the block
    have houter : c.1 ∉ q.1.2.localNames →
        ∃ c' ∈ q.1.2.calls, patch pmap c' = c ∧ Γ.enter e c'.1 = some c'.2.length := by
      intro hname
      have hpiece := outerCalls (hs.result_run hq) (hnodup q hq) (hcached q hq) c hc (by rwa [localNames_piece])
      rw [calls_piece h hb hs.passes] at hpiece
      obtain ⟨c', hc', rfl⟩ := List.mem_map.1 hpiece
      exact ⟨c', hc', rfl, callsOk_call ((callsOk_iff.1 hok).2 q.1 hb) hc' hname⟩
    obtain ⟨p, hp, hf⟩ | ⟨p, hp, rfl⟩ := hs.mem_col.1 hf
    · have hinner := col_names (hs.result_run hp) (hnodup p hp) (hcached p hp) f hf
      rw [localNames_piece] at hinner
      by_cases hname : c.1 ∈ q.1.2.localNames
      · have hpq : p = q := by
          apply result_unique hs hp hq
          rw [hcf] at hname
          exact block_unique hnames (hs.result_block hp) hb hinner hname
        subst hpq
        obtain ⟨hok', hfresh'⟩ := callsOk_patched hnames hfresh h hs.passes hb hok
        obtain ⟨as, bs, xs, hmem, hrest⟩ := ih p hp _ hok' hfresh' c hc f hf hcf
        rw [localDefs_piece] at hmem
        exact ⟨as, bs, xs, mem_localNames_block hb hmem, hrest⟩
      · obtain ⟨c', _, rfl, hscope⟩ := houter hname
        have hcf' : c'.1 = f.1 := hcf
        rw [hcf', enter_block hnames hfresh (hs.result_block hp) hinner] at hscope
        cases hscope
    · have hd := (List.mem_filter.1 (hs.lifted_mem hp)).1
      have hname : c.1 ∉ q.1.2.localNames := by
        rw [hcf]
        exact def_notMem_block hnames hd hb
      obtain ⟨c', _, rfl, hscope⟩ := houter hname
      have hcf' : c'.1 = p.1.name := hcf
      rw [hcf', enter_def hnames hd] at hscope
      refine ⟨c'.2, p.1.body.bind, PMap.get pmap p.1.name, def_mem_localDefs hd, rfl, ?_, ?_⟩
      · rw [← hcf']
        rfl
      · exact (Option.some.inj hscope).symm

/-! ### Nothing becomes free -/

/-- The result has no new free variables, and a lifted function has none at all. -/
def Closed (e e' : Exp) (col : Col) : Prop :=
  (∀ x, x ∈ e'.freeVars → x ∈ e.freeVars) ∧ ∀ f ∈ col, ∀ x ∈ f.2.freeVars, x.1 ≤ v0

theorem ownExtra_free {e : Exp} {a : Atom} {x : Var × Ty} (h : OwnExtra noExtras e a x) : x ∈ e.freeVars := by
  obtain ⟨d, hd, _, _, hx, hbind⟩ := h
  exact mem_freeVars.2 (.inr ⟨_, lifted_block hd, needs_none.1 hx, hbind⟩)

theorem extra_free {e : Exp} {a : Atom} {x : Var × Ty} (h : Extra noExtras e a x) : x ∈ e.freeVars := by
  obtain ⟨a', ha'⟩ := extra_own h
  exact ownExtra_free ha'

/-- A lifted function has all that it needs among its extra parameters. -/
theorem extra_of_needs {e : Exp} (h : Cached e) {d : FuncDef} (hd : d ∈ e.liftedDefs) {x : Var × Ty}
    (hx : needs (Extra noExtras e) d.body.exp x) (hbind : x ∉ Val.freeVarsOf d.body.bind) (hpos : v0 < x.1) :
    Extra noExtras e d.name x := by
  have hown : x ∈ d.body.exp.freeVars → OwnExtra noExtras e d.name x := fun hfree =>
    ⟨d, hd, rfl, hpos, needs_none.2 hfree, hbind⟩
  have hdef := (List.mem_filter.1 hd).1
  have htags : ∀ t ∈ d.body.exp.tags, t ∈ d.props.funcTags := by
    intro t ht
    cases e with
    | lett ds b p =>
      obtain ⟨_, _, _, hds⟩ := h.lett
      rw [hds d hdef]
      exact Finset.mem_union_right _ ht
    | _ => cases hdef
  obtain hfree | ⟨t, ht, hx⟩ := needs_cases (h.block (lifted_block hd)) hx
  · by_cases hs : Settled (OwnExtra noExtras e) e.liftedDefs
    · exact .inl ⟨hs, hown hfree⟩
    · exact .inr ⟨hs, .own (hown hfree)⟩
  · obtain ⟨hs, hx⟩ | ⟨hs, hx⟩ := hx
    · exact .inl ⟨hs, hs d hd t (htags t ht) x hx⟩
    · exact .inr ⟨hs, .step hdef (htags t ht) hx⟩

theorem closed {n : ℕ} {e e' : Exp} {col : Col} (hrun : devolve n e = some (e', col))
    (hnames : e.localNames.Nodup) (h : Cached e) : Closed e e' col := by
  refine devolve_induction (P := Closed) ?_ hrun hnames h
  intro n e e' col pmap ps qs hs hnames h ih
  have hblock : ∀ q ∈ results ps qs, ∀ x ∈ q.2.1.freeVars, needs (Extra noExtras e) q.1.2 x := fun q hq x hx =>
    (freeVars_piece h (hs.result_block hq) hs.passes).1 ((ih q hq).1 x hx)
  constructor
  · intro x hx
    obtain hx | ⟨q, hq, hx, hbind⟩ := (hs.freeVars x).1 hx
    · exact mem_freeVars.2 (.inl hx)
    · have hq' : q ∈ results ps qs := List.mem_append_right _ hq
      have hb := hs.result_block hq'
      obtain hfree | ⟨t, _, hx⟩ := needs_cases (h.block hb) (hblock q hq' x hx)
      · exact mem_freeVars.2 (.inr ⟨q.1, hb, hfree, hbind⟩)
      · exact extra_free hx
  · intro f hf x hx
    obtain ⟨q, hq, hf⟩ | ⟨q, hq, rfl⟩ := hs.mem_col.1 hf
    · exact (ih q hq).2 f hf x hx
    · by_contra hpos
      obtain ⟨hx, hbind⟩ := VarSet.mem_diff.1 hx
      rw [Lam.bind_mk, freeVarsOf_append, freeVarsOf_toVals, not_or] at hbind
      have hq' : ((q.1.body.bind, q.1.body.exp), q.2) ∈ results ps qs :=
        List.mem_append_left _ (List.mem_map.2 ⟨q, hq, rfl⟩)
      have hneeds := hblock _ hq' x hx
      have hextra := extra_of_needs h (hs.lifted_mem hq) hneeds hbind.1 (not_le.1 hpos)
      exact hbind.2 ((hs.passes _ x).2 hextra)

/-! ### Names are kept -/

theorem sum_add3 {α : Type} (xs : List α) {f g k l : α → ℕ} (h : ∀ x ∈ xs, f x + g x + k x = l x) :
    (xs.map f).sum + (xs.map g).sum + (xs.map k).sum = (xs.map l).sum := by
  induction xs with
  | nil => rfl
  | cons x xs ih =>
    have hx := h x List.mem_cons_self
    have hxs := ih fun y hy => h y (List.mem_cons_of_mem _ hy)
    simp only [List.map_cons, List.sum_cons]
    omega

theorem defs_perm (e : Exp) : (e.liftedDefs ++ e.keptDefs).Perm e.defs :=
  List.filter_append_perm (fun d => e.isLifted d) e.defs

theorem blocks_perm (e : Exp) :
    (stayBlocks e ++ e.liftedDefs.map fun d => (d.body.bind, d.body.exp)).Perm e.blocks := by
  cases e with
  | lett ds b p =>
    apply List.Perm.cons
    change (List.map _ _ ++ List.map _ _).Perm _
    rw [← List.map_append]
    exact (List.perm_append_comm.trans (defs_perm (.lett ds b p))).map _
  | _ => rw [liftedDefs, defs_of_ne (by intros; simp)]; simp [stayBlocks]

/-- The lifted functions and the local functions of the result are the local functions
of the expression. -/
theorem names_count {n : ℕ} {e e' : Exp} {col : Col} (hrun : devolve n e = some (e', col))
    (hnames : e.localNames.Nodup) (h : Cached e) : ∀ a, (col.map Prod.fst).count a + e'.localNames.count a +
      (col.flatMap fun f => f.2.exp.localNames).count a = e.localNames.count a := by
  refine devolve_induction (P := fun e e' col => ∀ a, (col.map Prod.fst).count a + e'.localNames.count a +
      (col.flatMap fun f => f.2.exp.localNames).count a = e.localNames.count a) ?_ hrun hnames h
  intro n e e' col pmap ps qs hs _ _ ih a
  have hps : ∀ q ∈ ps, (q.2.2.map Prod.fst).count a + q.2.1.localNames.count a +
      (q.2.2.flatMap fun f => f.2.exp.localNames).count a = q.1.body.exp.localNames.count a := by
    intro q hq
    have hres := ih _ (List.mem_append_left _ (List.mem_map.2 ⟨q, hq, rfl⟩)) a
    rwa [localNames_piece] at hres
  have hqs : ∀ q ∈ qs, (q.2.2.map Prod.fst).count a + q.2.1.localNames.count a +
      (q.2.2.flatMap fun f => f.2.exp.localNames).count a = q.1.2.localNames.count a := by
    intro q hq
    have hres := ih _ (List.mem_append_right _ hq) a
    rwa [localNames_piece] at hres
  have hsum_ps := sum_add3 ps hps
  have hsum_qs := sum_add3 qs hqs
  have hnames' : e.localNames.count a = ((e.liftedDefs ++ e.keptDefs).map FuncDef.name).count a +
      ((stayBlocks e ++ e.liftedDefs.map fun d => (d.body.bind, d.body.exp)).map fun b =>
        b.2.localNames.count a).sum := by
    rw [localNames_eq, List.count_append, List.count_flatMap, ((defs_perm e).map _).count_eq,
      ((blocks_perm e).map _).sum_eq]
    rfl
  have hlocal : e'.localNames = e.keptDefs.map FuncDef.name ++ qs.flatMap fun q => q.2.1.localNames := by
    unfold localNames
    rw [hs.localDefs, keptParams, List.map_append, List.map_map, List.map_flatMap]
    rfl
  rw [hnames', hlocal, hs.col_eq, ← hs.lifted, ← hs.stay]
  simp only [List.map_append, List.count_append, List.map_flatMap, List.map_map, List.flatMap_append,
    List.flatMap_map, List.flatMap_assoc, List.count_flatMap, List.sum_append, Function.comp_def, Lam.exp_mk] at hsum_ps hsum_qs ⊢
  omega

end Jhc.Grin

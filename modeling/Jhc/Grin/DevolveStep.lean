import Jhc.Grin.DevolveFits

/-!
# One step of `devolveGrin` (Grin/Devolve.hs:35-58)

What one call of `f` does, for a `Let` and for every other expression alike: it lifts
the functions `liftedDefs`, keeps the blocks `stayBlocks`, and goes on with the patched
blocks.
-/

namespace Jhc.Grin
open Exp

/-! ### mapCol -/

theorem mapCol_map {α : Type} {fn : Exp → Option (Exp × Col)} {g : α → Exp} {xs : List α} {es : List Exp}
    {col : Col} (h : mapCol fn (xs.map g) = some (es, col)) :
    ∃ qs : List (α × Exp × Col), qs.map Prod.fst = xs ∧ (∀ q ∈ qs, fn (g q.1) = some q.2) ∧
      es = qs.map (fun q => q.2.1) ∧ col = qs.flatMap fun q => q.2.2 := by
  induction xs generalizing es col with
  | nil =>
    cases h
    exact ⟨[], rfl, by simp, rfl, rfl⟩
  | cons x xs ih =>
    rw [List.map_cons, mapCol] at h
    obtain ⟨⟨e', col₁⟩, he, h⟩ := Option.bind_eq_some_iff.1 h
    obtain ⟨⟨es', col₂⟩, hes, h⟩ := Option.bind_eq_some_iff.1 h
    cases h
    obtain ⟨qs, hfst, hfn, rfl, rfl⟩ := ih hes
    have hall : ∀ q ∈ (x, e', col₁) :: qs, fn (g q.1) = some q.2 := by
      intro q hq
      obtain rfl | hq := List.mem_cons.1 hq
      · exact he
      · exact hfn q hq
    exact ⟨(x, e', col₁) :: qs, by rw [List.map_cons, hfst], hall, rfl, rfl⟩

theorem mapCol_total {α : Type} {fn : Exp → Option (Exp × Col)} {g : α → Exp} {xs : List α}
    (h : ∀ x ∈ xs, ∃ r, fn (g x) = some r) : ∃ r, mapCol fn (xs.map g) = some r := by
  induction xs with
  | nil => exact ⟨_, rfl⟩
  | cons x xs ih =>
    obtain ⟨⟨e, col⟩, he⟩ := h x List.mem_cons_self
    obtain ⟨⟨es, col'⟩, hes⟩ := ih fun y hy => h y (List.mem_cons_of_mem _ hy)
    exact ⟨(e :: es, col ++ col'), by simp [mapCol, he, hes]⟩

/-! ### The blocks that stay and what the step makes of a block -/

/-- The blocks that the step leaves in place. -/
def stayBlocks : Exp → List (List Val × Exp)
  | .lett ds b p => ([], b) :: (Exp.lett ds b p).keptDefs.map fun d => (d.body.bind, d.body.exp)
  | e => e.blocks

def piece (pmap : PMap) : Exp → Exp → Exp
  | .lett _ _ _, c => proc pmap c
  | _, c => c

theorem stayBlocks_sub {e : Exp} {b : List Val × Exp} (h : b ∈ stayBlocks e) : b ∈ e.blocks := by
  cases e with
  | lett ds b' p =>
    obtain rfl | h := List.mem_cons.1 h
    · exact List.mem_cons_self
    · obtain ⟨d, hd, rfl⟩ := List.mem_map.1 h
      exact List.mem_cons_of_mem _ (List.mem_map_of_mem (List.mem_filter.1 hd).1)
  | _ => exact h

/-- A block stays or belongs to a lifted function. -/
theorem block_cases {e : Exp} {b : List Val × Exp} (h : b ∈ e.blocks) :
    b ∈ stayBlocks e ∨ ∃ d ∈ e.liftedDefs, b = (d.body.bind, d.body.exp) := by
  cases e with
  | lett ds b' p =>
    obtain rfl | h := List.mem_cons.1 h
    · exact .inl List.mem_cons_self
    · obtain ⟨d, hd, rfl⟩ := List.mem_map.1 h
      cases hl : (Exp.lett ds b' p).isLifted d with
      | true => exact .inr ⟨d, List.mem_filter.2 ⟨hd, hl⟩, rfl⟩
      | false =>
        apply Or.inl
        apply List.mem_cons_of_mem
        exact List.mem_map_of_mem (List.mem_filter.2 ⟨hd, by rw [hl]; rfl⟩)
  | _ => exact .inl h

theorem lifted_block {e : Exp} {d : FuncDef} (h : d ∈ e.liftedDefs) : (d.body.bind, d.body.exp) ∈ e.blocks :=
  block_of_def (List.mem_filter.1 h).1

/-- The map of a step holds what the calls of each function pass. -/
def Passes (pmap : PMap) (e : Exp) : Prop := ∀ a x, x ∈ PMap.get pmap a ↔ Extra noExtras e a x

theorem extra_name {Δ : Extras} {e : Exp} {a : Atom} {x : Var × Ty} (h : Extra Δ e a x) :
    ∃ d ∈ e.defs, d.name = a := by
  obtain ⟨_, d, hd, rfl, _⟩ | ⟨_, hflow⟩ := h
  · exact ⟨d, (List.mem_filter.1 hd).1, rfl⟩
  · cases hflow with
    | own hown =>
      obtain ⟨d, hd, rfl, _⟩ := hown
      exact ⟨d, (List.mem_filter.1 hd).1, rfl⟩
    | step hd _ _ => exact ⟨_, hd, rfl⟩

/-- What flows to a function of the `Let` is needed by a lifted one. -/
theorem extra_own {Δ : Extras} {e : Exp} {a : Atom} {x : Var × Ty} (h : Extra Δ e a x) :
    ∃ a', OwnExtra Δ e a' x := by
  obtain ⟨_, hown⟩ | ⟨_, hflow⟩ := h
  · exact ⟨a, hown⟩
  · induction hflow with
    | own hown => exact ⟨_, hown⟩
    | step _ _ _ ih => exact ih

theorem Passes.get_nil {pmap : PMap} {e : Exp} (h : Passes pmap e) {a : Atom} (ha : ∀ d ∈ e.defs, d.name ≠ a) :
    PMap.get pmap a = [] := by
  apply List.eq_nil_iff_forall_not_mem.2
  intro x hx
  obtain ⟨d, hd, hname⟩ := extra_name ((h a x).1 hx)
  exact ha d hd hname

theorem Passes.extras {pmap : PMap} {e : Exp} (h : Passes pmap e) : PMap.extras pmap = Extra noExtras e := by
  apply needs_congr
  exact h

theorem enter_none (e : Exp) : Extras.enter noExtras e = Extra noExtras e := none_or _

theorem patch_nil {pmap : PMap} {c : Atom × List Val} (h : PMap.get pmap c.1 = []) : patch pmap c = c := by
  unfold patch
  rw [h]
  simp [VarSet.toVals]

theorem lett_or (e : Exp) : (∃ ds b p, e = .lett ds b p) ∨ ∀ ds b p, e ≠ .lett ds b p := by
  by_cases h : ∃ ds b p, e = .lett ds b p
  · exact .inl h
  · exact .inr (not_lett h)

theorem piece_of_ne {e : Exp} (h : ∀ ds b p, e ≠ .lett ds b p) (pmap : PMap) (c : Exp) : piece pmap e c = c := by
  cases e with
  | lett ds b p => exact absurd rfl (h ds b p)
  | _ => rfl

theorem extra_of_ne {e : Exp} (h : ∀ ds b p, e ≠ .lett ds b p) (Δ : Extras) : Extra Δ e = noExtras := by
  apply needs_congr
  intro a x
  constructor
  · intro hx
    obtain ⟨d, hd, _⟩ := extra_name hx
    rw [defs_of_ne h] at hd
    cases hd
  · intro hx
    cases hx

theorem Passes.nil_of_ne {pmap : PMap} {e : Exp} (hp : Passes pmap e) (h : ∀ ds b p, e ≠ .lett ds b p) (a : Atom) :
    PMap.get pmap a = [] := by
  apply hp.get_nil
  intro d hd
  rw [defs_of_ne h] at hd
  cases hd

theorem localDefs_piece (pmap : PMap) (e c : Exp) : (piece pmap e c).localDefs = c.localDefs := by
  obtain ⟨ds, b, p, rfl⟩ | hne := lett_or e
  · exact localDefs_proc pmap c
  · rw [piece_of_ne hne]

theorem localNames_piece (pmap : PMap) (e c : Exp) : (piece pmap e c).localNames = c.localNames := by
  unfold localNames
  rw [localDefs_piece]

section piece

variable {pmap : PMap} {e : Exp} (h : Cached e) {b : List Val × Exp} (hb : b ∈ e.blocks)
include h hb

theorem cached_piece : Cached (piece pmap e b.2) := by
  obtain ⟨ds, b', p, rfl⟩ | hne := lett_or e
  · exact cached_proc pmap (h.block hb)
  · rw [piece_of_ne hne]
    exact h.block hb

variable (hp : Passes pmap e)
include hp

theorem calls_piece : (piece pmap e b.2).calls = b.2.calls.map (patch pmap) := by
  obtain ⟨ds, b', p, rfl⟩ | hne := lett_or e
  · exact calls_proc (h.noCall.block hb)
  · have hid : b.2.calls.map (patch pmap) = b.2.calls.map id :=
      List.map_congr_left fun c _ => patch_nil (hp.nil_of_ne hne c.1)
    rw [piece_of_ne hne, hid, List.map_id]

theorem freeVars_piece {x : Var × Ty} : x ∈ (piece pmap e b.2).freeVars ↔ needs (Extra noExtras e) b.2 x := by
  obtain ⟨ds, b', p, rfl⟩ | hne := lett_or e
  · rw [← hp.extras]
    exact mem_freeVars_proc
  · rw [extra_of_ne hne, needs_none, piece_of_ne hne]

theorem fits_piece {K : Atom → Prop} :
    Fits K noExtras (piece pmap e b.2) ↔ Fits K (Extras.enter noExtras e) b.2 := by
  rw [enter_none]
  obtain ⟨ds, b', p, rfl⟩ | hne := lett_or e
  · rw [← hp.extras, ← none_or (PMap.extras pmap)]
    exact fits_proc pmap (h.block hb)
  · rw [extra_of_ne hne, piece_of_ne hne]

theorem callsOk_piece {Γ Γ' : Scope} (hok : CallsOk Γ b.2)
    (hnames : ∀ a ∈ b.2.localNames, ∀ d ∈ e.defs, d.name ≠ a)
    (hΓ : ∀ c ∈ b.2.calls, ∀ n, Γ c.1 = some n → Γ' c.1 = some (n + (PMap.get pmap c.1).length)) :
    CallsOk Γ' (piece pmap e b.2) := by
  obtain ⟨ds, b', p, rfl⟩ | hne := lett_or e
  · exact callsOk_proc (h.noCall.block hb) hok (fun a ha => hp.get_nil (hnames a ha)) hΓ
  · rw [piece_of_ne hne]
    apply callsOk_mono hok
    intro c hc n hn
    have hlength := hΓ c hc n hn
    rwa [hp.nil_of_ne hne] at hlength

end piece

/-! ### The step -/

/-- The functions that stay, as the result binds them. -/
def keptParams (e : Exp) : List (Atom × List Val) := e.keptDefs.map fun d => (d.name, d.body.bind)

/-- The result of one step, from the results `ps` for the lifted functions and `qs` for
the blocks that stay. -/
structure Step (n : ℕ) (e e' : Exp) (col : Col) (pmap : PMap) (ps : List (FuncDef × Exp × Col))
    (qs : List ((List Val × Exp) × Exp × Col)) : Prop where
  passes : Passes pmap e
  lifted : ps.map Prod.fst = e.liftedDefs
  liftedRun : ∀ q ∈ ps, devolve n (piece pmap e q.1.body.exp) = some q.2
  stay : qs.map Prod.fst = stayBlocks e
  stayRun : ∀ q ∈ qs, devolve n (piece pmap e q.1.2) = some q.2
  col_eq : col = ps.flatMap (fun q => q.2.2) ++
    ps.map (fun q => (q.1.name, Lam.mk (q.1.body.bind ++ VarSet.toVals (PMap.get pmap q.1.name)) q.2.1)) ++
    qs.flatMap fun q => q.2.2
  calls : e'.calls = e.ownCalls ++ qs.flatMap fun q => q.2.1.calls
  localDefs : e'.localDefs = keptParams e ++ qs.flatMap fun q => q.2.1.localDefs
  callsOk : ∀ Γ : Scope, CallsOk Γ e' ↔ (∀ c ∈ e.ownCalls, Γ c.1 = some c.2.length) ∧
    ∀ q ∈ qs, CallsOk (Γ.add (keptParams e)) q.2.1
  freeVars : ∀ x, x ∈ e'.freeVars ↔ x ∈ Val.freeVarsOf e.vals ∨
    ∃ q ∈ qs, x ∈ q.2.1.freeVars ∧ x ∉ Val.freeVarsOf q.1.1

theorem blocks_of_zip {α β : Type} {xs : List α} {qs : List (α × β)} (h : qs.map Prod.fst = xs) :
    (qs.map Prod.snd).length = xs.length ∧ xs.zip (qs.map Prod.snd) = qs := by
  subst h
  constructor
  · simp
  · induction qs with
    | nil => rfl
    | cons q qs ih => simp [ih]

theorem zipWith_pairs {α β γ : Type} (f : α → γ → β) {δ : Type} (g : α × δ → γ) (qs : List (α × δ)) :
    List.zipWith f (qs.map Prod.fst) (qs.map g) = qs.map fun q => f q.1 (g q) := by
  induction qs with
  | nil => rfl
  | cons q qs ih => simp [ih]

/-- What a rebuilt expression consists of. -/
theorem rebuilt {e : Exp} {qs : List ((List Val × Exp) × Exp)} (h : qs.map Prod.fst = e.blocks) :
    (e.withBlocks (qs.map Prod.snd)).calls = e.ownCalls ++ (qs.flatMap fun q => q.2.calls) ∧
    (e.withBlocks (qs.map Prod.snd)).localDefs = e.ownDefs ++ (qs.flatMap fun q => q.2.localDefs) ∧
    (∀ Γ : Scope, CallsOk Γ (e.withBlocks (qs.map Prod.snd)) ↔
      (∀ c ∈ e.ownCalls, Γ c.1 = some c.2.length) ∧ ∀ q ∈ qs, CallsOk (Γ.enter e) q.2) ∧
    ∀ x, x ∈ (e.withBlocks (qs.map Prod.snd)).freeVars ↔ x ∈ Val.freeVarsOf e.vals ∨
      ∃ q ∈ qs, x ∈ q.2.freeVars ∧ x ∉ Val.freeVarsOf q.1.1 := by
  obtain ⟨hlen, hzip⟩ := blocks_of_zip h
  have hcalls := calls_withBlocks hlen
  have hdefs := localDefs_withBlocks hlen
  rw [List.flatMap_map] at hcalls hdefs
  refine ⟨hcalls, hdefs, ?_, ?_⟩
  · intro Γ
    rw [callsOk_withBlocks hlen, List.forall_mem_map]
  · intro x
    rw [mem_freeVars_withBlocks hlen, hzip]

theorem ownExtra_none (e : Exp) : OwnExtra noExtras e = OwnParams e.liftedDefs := by
  apply needs_congr
  intro a x
  unfold OwnExtra OwnParams
  apply exists_congr
  intro d
  apply and_congr_right
  intro _
  apply and_congr_right
  intro _
  rw [needs_none, paramVars, List.mem_filter, Lam.freeVars, VarSet.mem_diff, decide_eq_true_eq]
  tauto

theorem passes_makePMap {e : Exp} (hnames : (e.defs.map FuncDef.name).Nodup) {pmap : PMap}
    (h : makePMap e.defs e.liftedDefs = some pmap) : Passes pmap e := by
  have hsub : ∀ fd ∈ e.liftedDefs, fd ∈ e.defs := fun fd hfd => (List.mem_filter.1 hfd).1
  have hnodup : (e.liftedDefs.map FuncDef.name).Nodup := hnames.sublist (List.filter_sublist.map _)
  obtain ⟨hsettled, hflow⟩ := makePMap_spec hsub hnodup h
  intro a x
  unfold Extra
  rw [ownExtra_none]
  by_cases hs : Settled (OwnParams e.liftedDefs) e.liftedDefs
  · rw [hsettled hs]
    tauto
  · rw [hflow hs]
    tauto

theorem devolve_step {n : ℕ} {e e' : Exp} {col : Col} (hrun : devolve (n + 1) e = some (e', col))
    (hnames : (e.defs.map FuncDef.name).Nodup) : ∃ pmap ps qs, Step n e e' col pmap ps qs := by
  obtain ⟨ds, b, p, rfl⟩ | hne := lett_or e
  · rw [devolve] at hrun
    obtain ⟨p', rfl, hrun⟩ := Option.bind_eq_some_iff.1 hrun
    obtain ⟨pmap, hpmap, hrun⟩ := Option.bind_eq_some_iff.1 hrun
    obtain ⟨⟨rs, col₁⟩, hlifted, hrun⟩ := Option.bind_eq_some_iff.1 hrun
    obtain ⟨⟨cs, col₂⟩, hstay, hrun⟩ := Option.bind_eq_some_iff.1 hrun
    cases hrun
    -- the names of `devolve` for the two groups of functions are those of this section
    have hkept : (ds.filter fun fd => decide (fd.name ∉ p'.nonNormal)) = (Exp.lett ds b (some p')).keptDefs := by
      apply List.filter_congr
      intro d _
      exact decide_not
    have hlt : (Exp.lett ((ds.filter fun fd => decide (fd.name ∉ p'.nonNormal)).map fun fd =>
        .mk fd.name (.mk fd.body.bind (proc pmap fd.body.exp)) fd.props) (proc pmap b) (some p')).blocks =
        (stayBlocks (.lett ds b (some p'))).map fun bl => (bl.1, proc pmap bl.2) := by
      rw [hkept]
      simp [blocks, stayBlocks]
    rw [hlt, List.map_map] at hstay
    obtain ⟨ps, hpfst, hpfn, rfl, rfl⟩ := mapCol_map hlifted
    obtain ⟨qs, hqfst, hqfn, rfl, rfl⟩ := mapCol_map hstay
    have hfst : (qs.map fun q => ((q.1.1, proc pmap q.1.2), q.2.1)).map Prod.fst =
        (stayBlocks (.lett ds b (some p'))).map fun bl => (bl.1, proc pmap bl.2) := by
      rw [← hqfst, List.map_map, List.map_map]
      rfl
    obtain ⟨hcalls, hdefs, hok, hfree⟩ := rebuilt (hfst.trans hlt.symm)
    have hcs : (qs.map fun q => ((q.1.1, proc pmap q.1.2), q.2.1)).map Prod.snd = qs.map fun q => q.2.1 := by
      rw [List.map_map]
      rfl
    have hown : ∀ bd, (Exp.lett ((ds.filter fun fd => decide (fd.name ∉ p'.nonNormal)).map fun fd =>
        .mk fd.name (.mk fd.body.bind (proc pmap fd.body.exp)) fd.props) bd (some p')).ownDefs =
        (Exp.lett ds b (some p')).keptDefs.map fun d => (d.name, d.body.bind) := by
      intro bd
      rw [hkept]
      simp [ownDefs]
    rw [hcs, List.flatMap_map] at hcalls hdefs
    rw [hown] at hdefs
    refine ⟨pmap, ps, qs, ?_⟩
    constructor
    · exact passes_makePMap hnames hpmap
    · exact hpfst
    · exact hpfn
    · exact hqfst
    · exact hqfn
    · rw [← hpfst, zipWith_pairs]
    · rw [calls_updateLetProps]
      exact hcalls
    · rw [localDefs_updateLetProps]
      exact hdefs
    · intro Γ
      rw [callsOk_updateLetProps, ← hcs, hok, List.forall_mem_map]
      have henter : ∀ bd, Γ.enter (Exp.lett ((ds.filter fun fd => decide (fd.name ∉ p'.nonNormal)).map fun fd =>
          .mk fd.name (.mk fd.body.bind (proc pmap fd.body.exp)) fd.props) bd (some p')) =
          Γ.add ((Exp.lett ds b (some p')).keptDefs.map fun d => (d.name, d.body.bind)) := by
        intro bd
        unfold Scope.enter
        rw [hown]
      rw [henter]
      rfl
    · intro x
      rw [freeVars_updateLetProps, ← hcs, hfree]
      simp only [List.mem_map, exists_exists_and_eq_and]
      rfl
  · have hrun' : (mapCol (devolve n) (e.blocks.map Prod.snd)).bind
        (fun r => some (e.withBlocks r.1, r.2)) = some (e', col) := by
      cases e with
      | lett ds b p => exact absurd rfl (hne ds b p)
      | _ => exact hrun
    obtain ⟨⟨cs, col'⟩, hblocks, hres⟩ := Option.bind_eq_some_iff.1 hrun'
    cases hres
    obtain ⟨qs, hfst, hfn, rfl, rfl⟩ := mapCol_map hblocks
    have hfst' : (qs.map fun q => (q.1, q.2.1)).map Prod.fst = e.blocks := by
      rw [List.map_map]
      exact hfst
    obtain ⟨hcalls, hdefs, hok, hfree⟩ := rebuilt hfst'
    have hcs : (qs.map fun q => (q.1, q.2.1)).map Prod.snd = qs.map fun q => q.2.1 := by
      rw [List.map_map]
      rfl
    rw [hcs, List.flatMap_map] at hcalls hdefs
    have hkept : e.keptDefs = [] := by rw [keptDefs, defs_of_ne hne]; rfl
    have hlifted : e.liftedDefs = [] := by rw [liftedDefs, defs_of_ne hne]; rfl
    have hown : e.ownDefs = [] := by rw [ownDefs_eq, defs_of_ne hne]; rfl
    have hstay : stayBlocks e = e.blocks := by
      cases e with
      | lett ds b p => exact absurd rfl (hne ds b p)
      | _ => rfl
    refine ⟨[], [], qs, ?_⟩
    constructor
    · intro a x
      rw [extra_of_ne hne]
      simp [PMap.get, noExtras]
    · rw [hlifted]
      rfl
    · intro q hq
      cases hq
    · rw [hfst, hstay]
    · intro q hq
      rw [piece_of_ne hne]
      exact hfn q hq
    · simp
    · exact hcalls
    · rw [keptParams, hkept, hdefs, hown]
      rfl
    · intro Γ
      rw [← hcs, hok, List.forall_mem_map, keptParams, hkept]
      have henter : Γ.enter e = Γ := by
        unfold Scope.enter
        rw [hown]
        rfl
      rw [henter]
      rfl
    · intro x
      rw [← hcs, hfree]
      simp only [List.mem_map, exists_exists_and_eq_and]

end Jhc.Grin

import Jhc.Grin.Calls
import Jhc.Grin.Devolve

/-!
# What `proc` changes (Grin/Devolve.hs:55-56)

`proc` appends arguments to applications. It keeps the local functions of an
expression, the functions that it calls, and all cached properties but the sets of
free variables.
-/

namespace Jhc.Grin
open Exp

/-- `proc` at the head of an expression. -/
def headProc (pmap : PMap) : Exp → Exp
  | .app a as t => .app a (as ++ (PMap.get pmap a).toVals) t
  | e => e

/-- A call with the extra arguments. -/
def patch (pmap : PMap) (c : Atom × List Val) : Atom × List Val :=
  (c.1, c.2 ++ (PMap.get pmap c.1).toVals)

section headProc

variable (pmap : PMap) (e : Exp)

theorem blocks_headProc : (headProc pmap e).blocks = e.blocks := by
  cases e <;> rfl

theorem ownDefs_headProc : (headProc pmap e).ownDefs = e.ownDefs := by
  cases e <;> rfl

theorem enter_headProc (Γ : Scope) : Γ.enter (headProc pmap e) = Γ.enter e := by
  cases e <;> rfl

theorem withBlocks_nil (h : e.blocks = []) : e.withBlocks [] = e := by
  cases e with
  | case v as =>
    have has : as = [] := by simpa [blocks] using h
    subst has
    rfl
  | lett ds b p => simp [blocks] at h
  | _ => rfl

theorem proc_eq : proc pmap e = (headProc pmap e).withBlocks (e.blocks.map fun b => proc pmap b.2) := by
  cases e with
  | app a as t =>
    rw [proc]
    cases h : List.lookup a pmap <;> simp [headProc, PMap.get, h, withBlocks, VarSet.toVals]
  | _ =>
    rw [proc, List.attach_map_val (f := fun b : List Val × Exp => proc pmap b.2)]
    · rfl
    · intro a as t h
      cases h

theorem length_procs :
    (e.blocks.map fun b => proc pmap b.2).length = (headProc pmap e).blocks.length := by
  rw [List.length_map, blocks_headProc]

theorem localDefs_proc : (proc pmap e).localDefs = e.localDefs := by
  induction e using blocks_induction with
  | h e ih =>
    rw [proc_eq, localDefs_withBlocks (length_procs pmap e), ownDefs_headProc, localDefs,
      collect_eq ownDefs e, List.flatMap_map]
    congr 1
    exact List.flatMap_congr fun b hb => ih b hb

theorem localNames_proc : (proc pmap e).localNames = e.localNames := by
  unfold localNames
  rw [localDefs_proc]

end headProc

/-! ### Calls -/

/-- Without `Call`, for which `collectFuncs` has no case. -/
def NoCall (e : Exp) : Prop :=
  (∀ v as t j, e ≠ .call v as t j) ∧ ∀ b : {b // b ∈ e.blocks}, NoCall b.1.2
termination_by sizeOf e
decreasing_by exact sizeOf_block b.2

theorem NoCall.head {e : Exp} (h : NoCall e) : ∀ v as t j, e ≠ .call v as t j := by
  rw [NoCall] at h
  exact h.1

theorem NoCall.block {e : Exp} (h : NoCall e) {b : List Val × Exp} (hb : b ∈ e.blocks) : NoCall b.2 := by
  rw [NoCall] at h
  exact h.2 ⟨b, hb⟩

theorem ownCalls_headProc {pmap : PMap} {e : Exp} (h : NoCall e) :
    (headProc pmap e).ownCalls = e.ownCalls.map (patch pmap) := by
  cases e with
  | call v as t j => exact absurd rfl (h.head v as t j)
  | _ => rfl

theorem calls_proc {pmap : PMap} {e : Exp} (h : NoCall e) : (proc pmap e).calls = e.calls.map (patch pmap) := by
  induction e using blocks_induction with
  | h e ih =>
    rw [proc_eq, calls_withBlocks (length_procs pmap e), ownCalls_headProc h, calls, collect_eq ownCalls e,
      List.map_append, List.flatMap_map, List.map_flatMap]
    congr 1
    exact List.flatMap_congr fun b hb => ih b hb (h.block hb)

theorem mem_calls_proc {pmap : PMap} {e : Exp} (h : NoCall e) {c : Atom × List Val} :
    c ∈ (proc pmap e).calls ↔ ∃ c' ∈ e.calls, patch pmap c' = c := by
  rw [calls_proc h, List.mem_map]

/-- Calls stay right when the called functions get as many parameters as their calls
get arguments. -/
theorem callsOk_proc {pmap : PMap} {e : Exp} {Γ Γ' : Scope} (h : NoCall e) (hok : CallsOk Γ e)
    (hpmap : ∀ a ∈ e.localNames, PMap.get pmap a = [])
    (hΓ : ∀ c ∈ e.calls, ∀ n, Γ c.1 = some n → Γ' c.1 = some (n + (PMap.get pmap c.1).length)) :
    CallsOk Γ' (proc pmap e) := by
  induction e using blocks_induction generalizing Γ Γ' with
  | h e ih =>
    obtain ⟨hown, hblocks⟩ := callsOk_iff.1 hok
    rw [proc_eq, callsOk_withBlocks (length_procs pmap e), ownCalls_headProc h, enter_headProc]
    constructor
    · intro c hc
      obtain ⟨c', hc', rfl⟩ := List.mem_map.1 hc
      have hpatched := hΓ c' (mem_calls.2 (.inl hc')) _ (hown c' hc')
      simpa [patch, VarSet.toVals] using hpatched
    · intro c hc
      obtain ⟨b, hb, rfl⟩ := List.mem_map.1 hc
      apply ih b hb (h.block hb) (hblocks b hb) (fun a ha => hpmap a (localNames_block hb ha))
      intro c hc n hn
      unfold Scope.enter Scope.add at hn ⊢
      cases hlook : e.ownDefs.lookup c.1 with
      | none =>
        rw [hlook] at hn
        exact hΓ c (mem_calls.2 (.inr ⟨b, hb, hc⟩)) n hn
      | some ps =>
        rw [hlook] at hn
        have hlocal : c.1 ∈ e.localNames :=
          List.mem_map.2 ⟨_, mem_localDefs.2 (.inl (Lib.mem_of_lookup hlook)), rfl⟩
        rw [hpmap c.1 hlocal]
        exact hn

/-! ### Cached properties -/

theorem tagsOf_append (vs ws : List Val) : Val.tagsOf (vs ++ ws) = Val.tagsOf vs ∪ Val.tagsOf ws := by
  induction vs with
  | nil => simp [Val.tagsOf]
  | cons v vs ih => simp [Val.tagsOf, ih, Finset.union_assoc]

theorem tagsOf_toVals (xs : VarSet) : Val.tagsOf (VarSet.toVals xs) = ∅ := by
  induction xs with
  | nil => rfl
  | cons x xs ih =>
    have hstep : VarSet.toVals (x :: xs) = .var x.1 x.2 :: VarSet.toVals xs := rfl
    simp [hstep, Val.tagsOf, Val.tags, ih]

def procDef (pmap : PMap) (d : FuncDef) : FuncDef :=
  (FuncDef.mk d.name (.mk d.body.bind (proc pmap d.body.exp)) d.props).updateFuncDefProps

theorem zipWith_map_self {α β γ : Type} (f : α → β → γ) (g : α → β) (xs : List α) :
    List.zipWith f xs (xs.map g) = xs.map fun x => f x (g x) := by
  induction xs with
  | nil => rfl
  | cons x xs ih => simp [ih]

theorem updateLetProps_lett {ds : List FuncDef} (h : ds ≠ []) (b : Exp) (p : Option LetProps) :
    updateLetProps (.lett ds b p) = .lett ds b (letProps ds b) := by
  cases ds with
  | nil => exact absurd rfl h
  | cons d ds => rfl

theorem proc_lett (pmap : PMap) {ds : List FuncDef} (h : ds ≠ []) (b : Exp) (p : Option LetProps) :
    proc pmap (.lett ds b p) =
      .lett (ds.map (procDef pmap)) (proc pmap b) (letProps (ds.map (procDef pmap)) (proc pmap b)) := by
  have hds : ds.map (procDef pmap) ≠ [] := by simpa using h
  rw [proc_eq]
  simp only [headProc, blocks, List.map_cons, List.map_map, withBlocks]
  rw [zipWith_map_self]
  change updateLetProps (updateLetProps (.lett (ds.map (procDef pmap)) (proc pmap b) p)) = _
  rw [updateLetProps_lett hds, updateLetProps_lett hds]

theorem isNop_proc (pmap : PMap) (ps : List Val) {e : Exp} (h : Cached e) :
    (Lam.mk ps (proc pmap e)).isNop = (Lam.mk ps e).isNop := by
  cases e with
  | lett ds b p =>
    rw [proc_lett pmap h.lett.1]
    rfl
  | _ => rw [proc_eq]; rfl

theorem collectFuncsOf_map {f : Lam → Lam} {ls : List Lam} (h : ∀ l ∈ ls, (f l).collectFuncs = l.collectFuncs) :
    Lam.collectFuncsOf (ls.map f) = Lam.collectFuncsOf ls := by
  induction ls with
  | nil => rfl
  | cons l ls ih =>
    rw [List.map_cons, Lam.collectFuncsOf, Lam.collectFuncsOf, h l List.mem_cons_self,
      ih fun l hl => h l (List.mem_cons_of_mem _ hl)]

theorem collectFuncs_mk (ps : List Val) (e : Exp) : (Lam.mk ps e).collectFuncs = e.collectFuncs := rfl

theorem Lam.eta (l : Lam) : Lam.mk l.bind l.exp = l := by
  cases l
  rfl

theorem collectFuncs_exp (l : Lam) : l.exp.collectFuncs = l.collectFuncs := by
  rw [← collectFuncs_mk l.bind, Lam.eta]

theorem letProps_congr {f : FuncDef → FuncDef} {ds : List FuncDef} {b b' : Exp}
    (hb : b'.collectFuncs = b.collectFuncs) (hname : ∀ d ∈ ds, (f d).name = d.name)
    (hds : ∀ d ∈ ds, (f d).body.collectFuncs = d.body.collectFuncs) :
    letProps (ds.map f) b' = letProps ds b := by
  have hnames : (ds.map f).map FuncDef.name = ds.map FuncDef.name := by
    rw [List.map_map]
    exact List.map_congr_left hname
  have hbodies : Lam.collectFuncsOf ((ds.map f).map FuncDef.body) = Lam.collectFuncsOf (ds.map FuncDef.body) := by
    have hbody : (ds.map f).map FuncDef.body = ds.map fun d => (f d).body := by simp
    rw [hbody]
    clear hnames hbody hname hb
    induction ds with
    | nil => rfl
    | cons d ds ih =>
      rw [List.map_cons, List.map_cons, Lam.collectFuncsOf, Lam.collectFuncsOf, hds d List.mem_cons_self,
        ih fun d hd => hds d (List.mem_cons_of_mem _ hd)]
  simp only [letProps, hb, hbodies, hnames]

theorem collectFuncs_proc (pmap : PMap) {e : Exp} (h : Cached e) : (proc pmap e).collectFuncs = e.collectFuncs := by
  induction e using blocks_induction with
  | h e ih =>
    have ih' : ∀ b ∈ e.blocks, (proc pmap b.2).collectFuncs = b.2.collectFuncs := fun b hb =>
      ih b hb (h.block hb)
    cases e with
    | bind a l =>
      have ha := ih' ([], a) (by simp [blocks])
      have hl := ih' (l.bind, l.exp) (by simp [blocks])
      have hnop := isNop_proc pmap l.bind (h.block (b := (l.bind, l.exp)) (by simp [blocks]))
      rw [proc_eq]
      simp only [headProc, blocks, List.map_cons, List.map_nil, withBlocks, Exp.collectFuncs]
      rw [hnop, Lam.eta, collectFuncs_mk, ha, hl, collectFuncs_exp]
    | case v as =>
      rw [proc_eq]
      simp only [headProc, blocks, withBlocks, List.map_map]
      rw [zipWith_map_self, Exp.collectFuncs, Exp.collectFuncs]
      apply collectFuncsOf_map
      intro l hl
      rw [collectFuncs_mk, ← collectFuncs_exp l]
      exact ih' (l.bind, l.exp) (by simpa [blocks] using ⟨l, hl, rfl, rfl⟩)
    | lett ds b p =>
      obtain ⟨hne, _, hp, _⟩ := h.lett
      rw [proc_lett pmap hne, Exp.collectFuncs, Exp.collectFuncs, hp]
      congr 1
      apply letProps_congr
      · exact ih' ([], b) (by simp [blocks])
      · intro d _
        rfl
      · intro d hd
        rw [← collectFuncs_exp d.body]
        exact ih' (d.body.bind, d.body.exp) (by simpa [blocks] using .inr ⟨d, hd, rfl, rfl⟩)
    | gcRoots vs b =>
      rw [proc_eq]
      exact ih' ([], b) (by simp [blocks])
    | newRegion l =>
      rw [proc_eq]
      simp only [headProc, blocks, List.map_cons, List.map_nil, withBlocks, Exp.collectFuncs]
      rw [collectFuncs_mk, ih' (l.bind, l.exp) (by simp [blocks]), collectFuncs_exp]
    | mkCont c l =>
      rw [proc_eq]
      simp only [headProc, blocks, List.map_cons, List.map_nil, withBlocks, Exp.collectFuncs]
      rw [collectFuncs_mk, collectFuncs_mk, ih' (c.bind, c.exp) (by simp [blocks]),
        ih' (l.bind, l.exp) (by simp [blocks]), collectFuncs_exp, collectFuncs_exp]
    | _ => rw [proc_eq]; rfl

theorem letProps_proc (pmap : PMap) {ds : List FuncDef} {b : Exp} {p : Option LetProps}
    (h : Cached (.lett ds b p)) : letProps (ds.map (procDef pmap)) (proc pmap b) = p := by
  obtain ⟨_, _, hp, _⟩ := h.lett
  rw [hp]
  apply letProps_congr
  · exact collectFuncs_proc pmap (h.block (b := ([], b)) (by simp [blocks]))
  · intro d _
    rfl
  · intro d hd
    rw [← collectFuncs_exp d.body]
    exact collectFuncs_proc pmap
      (h.block (b := (d.body.bind, d.body.exp)) (by simpa [blocks] using .inr ⟨d, hd, rfl, rfl⟩))

theorem tags_proc (pmap : PMap) {e : Exp} (h : Cached e) : (proc pmap e).tags = e.tags := by
  induction e using blocks_induction with
  | h e ih =>
    ext t
    by_cases hlett : ∃ ds b p, e = .lett ds b p
    · obtain ⟨ds, b, p, rfl⟩ := hlett
      obtain ⟨hne, _, _, hds⟩ := h.lett
      rw [proc_lett pmap hne, mem_tags_lett, mem_tags_lett,
        ih ([], b) (by simp [blocks]) (h.block (by simp [blocks]))]
      have hdef : ∀ d ∈ ds, (procDef pmap d).props.funcTags = d.props.funcTags := by
        intro d hd
        have hmem : (d.body.bind, d.body.exp) ∈ (Exp.lett ds b p).blocks := by
          simpa [blocks] using .inr ⟨d, hd, rfl, rfl⟩
        rw [hds d hd]
        have hexp := ih _ hmem (h.block hmem)
        exact congrArg (Val.tagsOf d.body.bind ∪ ·) hexp
      simp only [List.mem_map, exists_exists_and_eq_and]
      constructor
      · rintro (ht | ⟨d, hd, ht⟩)
        · exact .inl ht
        · exact .inr ⟨d, hd, hdef d hd ▸ ht⟩
      · rintro (ht | ⟨d, hd, ht⟩)
        · exact .inl ht
        · exact .inr ⟨d, hd, (hdef d hd).symm ▸ ht⟩
    · have hne : ∀ ds b p, e ≠ .lett ds b p := fun ds b p heq => hlett ⟨ds, b, p, heq⟩
      have hset : proc pmap e = (headProc pmap e).setBlocks (e.blocks.map fun b => proc pmap b.2) := by
        rw [proc_eq]
        cases e with
        | lett ds b p => exact absurd rfl (hne ds b p)
        | _ => rfl
      have hne' : ∀ ds b p, proc pmap e ≠ .lett ds b p := by
        rw [proc_eq]
        cases e with
        | lett ds b p => exact absurd rfl (hne ds b p)
        | _ => intros; simp [headProc, withBlocks, blocks]
      have happ : (proc pmap e).appTag = e.appTag := by
        rw [proc_eq]
        cases e with
        | lett ds b p => exact absurd rfl (hne ds b p)
        | _ => rfl
      have hvals : Val.tagsOf (proc pmap e).vals = Val.tagsOf e.vals := by
        rw [hset, vals_setBlocks]
        cases e with
        | app a as t => simp [headProc, vals, tagsOf_append, tagsOf_toVals]
        | _ => rfl
      rw [mem_tags hne', mem_tags hne, happ, hvals, hset, blocks_setBlocks (length_procs pmap e),
        blocks_headProc, zipWith_map_self]
      simp only [List.mem_map, exists_exists_and_eq_and]
      have hblocks : (∃ b ∈ e.blocks, t ∈ (proc pmap b.2).tags ∨ t ∈ Val.tagsOf b.1) ↔
          ∃ b ∈ e.blocks, t ∈ b.2.tags ∨ t ∈ Val.tagsOf b.1 := by
        apply exists_congr
        intro b
        apply and_congr_right
        intro hb
        rw [ih b hb (h.block hb)]
      rw [hblocks]

theorem cached_proc (pmap : PMap) {e : Exp} (h : Cached e) : Cached (proc pmap e) := by
  induction e using blocks_induction with
  | h e ih =>
    by_cases hlett : ∃ ds b p, e = .lett ds b p
    · obtain ⟨ds, b, p, rfl⟩ := hlett
      obtain ⟨hne, hsome, hp, hds⟩ := h.lett
      have hprops := letProps_proc pmap h
      rw [proc_lett pmap hne, Cached]
      constructor
      · refine ⟨by simpa using hne, by rwa [hprops], rfl, ?_⟩
        intro d hd
        obtain ⟨d', _, rfl⟩ := List.mem_map.1 hd
        rfl
      · rintro ⟨b', hb'⟩
        simp only [blocks, List.mem_cons, List.mem_map] at hb'
        obtain rfl | ⟨d, ⟨d', hd', rfl⟩, rfl⟩ := hb'
        · exact ih ([], b) (by simp [blocks]) (h.block (by simp [blocks]))
        · have hmem : (d'.body.bind, d'.body.exp) ∈ (Exp.lett ds b p).blocks := by
            simpa [blocks] using .inr ⟨d', hd', rfl, rfl⟩
          exact ih _ hmem (h.block hmem)
    · have hne : ∀ ds b p, e ≠ .lett ds b p := fun ds b p heq => hlett ⟨ds, b, p, heq⟩
      have hset : proc pmap e = (headProc pmap e).setBlocks (e.blocks.map fun b => proc pmap b.2) := by
        rw [proc_eq]
        cases e with
        | lett ds b p => exact absurd rfl (hne ds b p)
        | _ => rfl
      unfold Cached
      constructor
      · rw [proc_eq]
        cases e with
        | lett ds b p => exact absurd rfl (hne ds b p)
        | _ => simp [headProc, withBlocks, blocks, LettCached]
      · rintro ⟨b, hb⟩
        rw [hset, blocks_setBlocks (length_procs pmap e), blocks_headProc, zipWith_map_self] at hb
        obtain ⟨b', hb', rfl⟩ := List.mem_map.1 hb
        exact ih b' hb' (h.block hb')

/-! ### Expressions inside a `Let` have no `Call` -/

theorem collectFuncsOf_some {ls : List Lam} {r : Calls} (h : Lam.collectFuncsOf ls = some r) {l : Lam}
    (hl : l ∈ ls) : ∃ r', l.collectFuncs = some r' := by
  induction ls generalizing r with
  | nil => cases hl
  | cons k ks ih =>
    rw [Lam.collectFuncsOf] at h
    obtain ⟨a, ha, h⟩ := Option.bind_eq_some_iff.1 h
    obtain ⟨b, hb, _⟩ := Option.bind_eq_some_iff.1 h
    obtain rfl | hl := List.mem_cons.1 hl
    · exact ⟨a, ha⟩
    · exact ih hb hl

theorem letProps_some {ds : List FuncDef} {b : Exp} {p : LetProps} (h : letProps ds b = some p) :
    (∃ r, b.collectFuncs = some r) ∧ ∀ d ∈ ds, ∃ r, d.body.collectFuncs = some r := by
  obtain ⟨r, hr, h⟩ := Option.bind_eq_some_iff.1 h
  obtain ⟨rs, hrs, _⟩ := Option.bind_eq_some_iff.1 h
  exact ⟨⟨r, hr⟩, fun d hd => collectFuncsOf_some hrs (List.mem_map_of_mem hd)⟩

/-- What `collectFuncs` accepts, its blocks have too. -/
theorem collectFuncs_block {e : Exp} (h : Cached e) {r : Calls} (hr : e.collectFuncs = some r)
    {b : List Val × Exp} (hb : b ∈ e.blocks) : ∃ r', b.2.collectFuncs = some r' := by
  cases e with
  | bind a l =>
    rw [Exp.collectFuncs] at hr
    simp only [blocks, List.mem_cons, List.not_mem_nil, or_false] at hb
    split at hr
    · next hnop =>
      obtain rfl | rfl := hb
      · exact ⟨r, hr⟩
      · cases l with
        | mk ps e =>
          cases e with
          | baseOp op vs => exact ⟨_, rfl⟩
          | _ => simp [Lam.isNop] at hnop
    · obtain ⟨x, hx, hr⟩ := Option.bind_eq_some_iff.1 hr
      obtain ⟨y, hy, _⟩ := Option.bind_eq_some_iff.1 hr
      obtain rfl | rfl := hb
      · exact ⟨x, hx⟩
      · exact ⟨y, by rw [collectFuncs_exp, hy]⟩
  | case v as =>
    simp only [blocks, List.mem_map] at hb
    obtain ⟨l, hl, rfl⟩ := hb
    rw [Exp.collectFuncs] at hr
    rw [collectFuncs_exp]
    exact collectFuncsOf_some hr hl
  | lett ds b' p =>
    obtain ⟨_, hsome, hp, _⟩ := h.lett
    obtain ⟨p', rfl⟩ := Option.isSome_iff_exists.1 hsome
    obtain ⟨hbody, hdefs⟩ := letProps_some hp.symm
    simp only [blocks, List.mem_cons, List.mem_map] at hb
    obtain rfl | ⟨d, hd, rfl⟩ := hb
    · exact hbody
    · rw [collectFuncs_exp]
      exact hdefs d hd
  | newRegion l =>
    simp only [blocks, List.mem_cons, List.not_mem_nil, or_false] at hb
    subst hb
    exact ⟨r, by rw [collectFuncs_exp]; exact hr⟩
  | mkCont c l =>
    rw [Exp.collectFuncs] at hr
    obtain ⟨x, hx, hr⟩ := Option.bind_eq_some_iff.1 hr
    obtain ⟨y, hy, _⟩ := Option.bind_eq_some_iff.1 hr
    simp only [blocks, List.mem_cons, List.not_mem_nil, or_false] at hb
    obtain rfl | rfl := hb
    · exact ⟨x, by rw [collectFuncs_exp, hx]⟩
    · exact ⟨y, by rw [collectFuncs_exp, hy]⟩
  | gcRoots vs b' =>
    simp only [blocks, List.mem_cons, List.not_mem_nil, or_false] at hb
    subst hb
    exact ⟨r, hr⟩
  | _ => cases hb

theorem noCall_of_collectFuncs {e : Exp} (h : Cached e) {r : Calls} (hr : e.collectFuncs = some r) : NoCall e := by
  induction e using blocks_induction generalizing r with
  | h e ih =>
    rw [NoCall]
    constructor
    · rintro v as t j rfl
      cases hr
    · rintro ⟨b, hb⟩
      obtain ⟨r', hr'⟩ := collectFuncs_block h hr hb
      exact ih b hb (h.block hb) hr'

theorem Cached.noCall {ds : List FuncDef} {b : Exp} {p : Option LetProps} (h : Cached (.lett ds b p)) :
    NoCall (.lett ds b p) := by
  obtain ⟨_, hsome, _, _⟩ := h.lett
  obtain ⟨p', rfl⟩ := Option.isSome_iff_exists.1 hsome
  exact noCall_of_collectFuncs h rfl

end Jhc.Grin

import Jhc.Grin.DevolveNames

/-!
# Calls after `devolveGrin` (Grin/Devolve.hs:28-65)

The calls of the result are in scope with the right number of arguments exactly when
the lifted functions fit. The pass returns a program for every program whose `Let`s
hold no error.
-/

namespace Jhc.Grin
open Exp

/-! ### Scopes of a step -/

section scopes

variable {n : ℕ} {e e' : Exp} {col : Col} {pmap : PMap} {ps : List (FuncDef × Exp × Col)}
  {qs : List ((List Val × Exp) × Exp × Col)} (hs : Step n e e' col pmap ps qs) (hnames : e.localNames.Nodup)

include hnames

theorem kept_lookup {d : FuncDef} (hd : d ∈ e.keptDefs) : (keptParams e).lookup d.name = some d.body.bind := by
  apply Lib.lookup_of_mem
  · unfold keptParams
    rw [List.map_map]
    exact (defs_nodup hnames).sublist (List.filter_sublist.map _)
  · exact List.mem_map.2 ⟨d, hd, rfl⟩

theorem kept_not_lifted {d k : FuncDef} (hd : d ∈ e.liftedDefs) (hk : k ∈ e.keptDefs) : d.name ≠ k.name := by
  intro heq
  have hdk : d = k :=
    List.inj_on_of_nodup_map (defs_nodup hnames) (List.mem_filter.1 hd).1 (List.mem_filter.1 hk).1 heq
  subst hdk
  have hl := (List.mem_filter.1 hd).2
  have hn := (List.mem_filter.1 hk).2
  rw [hl] at hn
  cases hn

omit hnames in
theorem kept_lookup_none {a : Atom} (h : ∀ d ∈ e.keptDefs, d.name ≠ a) : (keptParams e).lookup a = none := by
  apply Lib.lookup_eq_none.2
  unfold keptParams
  rw [List.map_map]
  intro hmem
  obtain ⟨d, hd, heq⟩ := List.mem_map.1 hmem
  exact h d hd heq

/-- The scope of the blocks before they are devolved. -/
def stepScope (Γ : Scope) (e : Exp) (pmap : PMap) : Scope := fun a =>
  if a ∈ e.keptDefs.map FuncDef.name then Γ.enter e a else (Γ.enter e).patched pmap a

/-- What the scope of a step holds, the result has among its functions. -/
theorem stepScope_le (hs : Step n e e' col pmap ps qs) {Γ T : Scope} {K : Atom → Prop}
    (hT : ∀ a n, ¬ K a → Γ a = some n → T a = some n) (hcol : ∀ f ∈ col, T f.1 = some f.2.bind.length)
    {a : Atom} {m : ℕ} (hkept : ∀ d ∈ e.keptDefs, d.name ≠ a) (hK : ¬ K a)
    (h : stepScope Γ e pmap a = some m) : T a = some m := by
  have hnot : a ∉ e.keptDefs.map FuncDef.name := by
    intro hmem
    obtain ⟨d, hd, heq⟩ := List.mem_map.1 hmem
    exact hkept d hd heq
  rw [stepScope, if_neg hnot] at h
  by_cases hdef : ∃ d ∈ e.defs, d.name = a
  · obtain ⟨d, hd, rfl⟩ := hdef
    have hlift : d ∈ e.liftedDefs := by
      apply List.mem_filter.2
      refine ⟨hd, ?_⟩
      by_contra hno
      exact hkept d (List.mem_filter.2 ⟨hd, by simpa using hno⟩) rfl
    obtain ⟨r, hr⟩ := hs.lifted_result hlift
    have hmem := hs.mem_col.2 (.inr ⟨_, hr, rfl⟩)
    have hlen := hcol _ hmem
    rw [Scope.patched, enter_def hnames hd] at h
    cases h
    rw [hlen]
    simp [VarSet.toVals]
  · have hget : PMap.get pmap a = [] := by
      apply hs.passes.get_nil
      intro d hd heq
      exact hdef ⟨d, hd, heq⟩
    have henter : Γ.enter e a = Γ a := by
      unfold Scope.enter Scope.add
      have hlook : e.ownDefs.lookup a = none := by
        apply Lib.lookup_eq_none.2
        rw [ownDefs_eq, List.map_map]
        intro hmem
        obtain ⟨d, hd, heq⟩ := List.mem_map.1 hmem
        exact hdef ⟨d, hd, heq⟩
      rw [hlook]
    rw [Scope.patched, henter, hget] at h
    obtain ⟨k, hk, hm⟩ := Option.map_eq_some_iff.1 h
    rw [hT a k hK hk, ← hm]
    rfl

theorem stepScope_stay (hs : Step n e e' col pmap ps qs) {Γ Γ' : Scope}
    (hΓ : ∀ a n, Γ a = some n → Γ' a = some n) (hcol : ∀ f ∈ col, Γ' f.1 = some f.2.bind.length) {a : Atom}
    {m : ℕ} (h : stepScope Γ e pmap a = some m) : Γ'.add (keptParams e) a = some m := by
  unfold Scope.add
  by_cases hkept : ∃ d ∈ e.keptDefs, d.name = a
  · obtain ⟨d, hd, rfl⟩ := hkept
    rw [kept_lookup hnames hd]
    rw [stepScope, if_pos (List.mem_map_of_mem hd), enter_def hnames (List.mem_filter.1 hd).1] at h
    exact h
  · have hne : ∀ d ∈ e.keptDefs, d.name ≠ a := fun d hd heq => hkept ⟨d, hd, heq⟩
    rw [kept_lookup_none hne]
    exact stepScope_le hnames hs (K := fun _ => False) (fun a n _ => hΓ a n) hcol hne not_false h

theorem stepScope_fresh {Γ : Scope} (hfresh : ∀ a ∈ e.localNames, Γ a = none) {b : List Val × Exp}
    (hb : b ∈ e.blocks) : ∀ a ∈ (piece pmap e b.2).localNames, stepScope Γ e pmap a = none := by
  intro a ha
  rw [localNames_piece] at ha
  have henter := enter_block hnames hfresh hb ha
  unfold stepScope
  split
  · exact henter
  · rw [Scope.patched, henter]
    rfl

/-- Where the functions fit, the blocks call functions of that scope. -/
theorem stepScope_ok (h : Cached e) (hp : Passes pmap e) {Γ : Scope} {K : Atom → Prop}
    (hfit : Fits K noExtras e) (hok : CallsOk Γ e) {b : List Val × Exp} (hb : b ∈ e.blocks) :
    CallsOk (stepScope Γ e pmap) (piece pmap e b.2) := by
  apply callsOk_piece h hb hp ((callsOk_iff.1 hok).2 b hb)
  · intro a ha d hd heq
    exact def_notMem_block hnames hd hb (heq ▸ ha)
  · intro c hc m hm
    unfold stepScope
    split
    · next hmem =>
      obtain ⟨d, hd, heq⟩ := List.mem_map.1 hmem
      have hget : PMap.get pmap c.1 = [] := by
        apply List.eq_nil_iff_forall_not_mem.2
        intro x hx
        have hextra := (hp _ x).1 hx
        rw [← heq] at hextra
        exact (fits_iff.1 hfit).2.1 d hd c (mem_calls.2 (.inr ⟨b, hb, hc⟩)) heq.symm x hextra
      rw [hm, hget]
      rfl
    · rw [Scope.patched, hm]
      rfl

end scopes

/-! ### Functions that fit keep their calls right -/

/-- The calls of the result are right in every scope that has the functions of the
program and the lifted ones; a lifted function needs no local function. -/
def ScopeKept (e e' : Exp) (col : Col) : Prop :=
  ∀ (Γ : Scope) (K : Atom → Prop), CallsOk Γ e → (∀ a ∈ e.localNames, Γ a = none) → Fits K noExtras e →
    (∀ Γ' : Scope, (∀ a n, Γ a = some n → Γ' a = some n) → (∀ f ∈ col, Γ' f.1 = some f.2.bind.length) →
      CallsOk Γ' e') ∧
    ∀ T : Scope, (∀ a n, ¬ K a → Γ a = some n → T a = some n) → (∀ f ∈ col, T f.1 = some f.2.bind.length) →
      ∀ f ∈ col, CallsOk T f.2.exp

theorem scopeKept {n : ℕ} {e e' : Exp} {col : Col} (hrun : devolve n e = some (e', col))
    (hnames : e.localNames.Nodup) (h : Cached e) : ScopeKept e e' col := by
  refine devolve_induction (P := ScopeKept) ?_ hrun hnames h
  intro n e e' col pmap ps qs hs hnames h ih Γ K hok hfresh hfit
  have hfits : ∀ q ∈ results ps qs, Fits (enterKept K e) noExtras (piece pmap e q.1.2) := fun q hq =>
    (fits_piece h (hs.result_block hq) hs.passes).2 ((fits_iff.1 hfit).2.2 q.1 (hs.result_block hq))
  have hinner : ∀ q ∈ results ps qs, ∀ f ∈ q.2.2, f ∈ col := fun q hq f hf => hs.mem_col.2 (.inl ⟨q, hq, hf⟩)
  have hname : ∀ q ∈ results ps qs, ∀ f ∈ q.2.2, f.1 ∈ q.1.2.localNames := by
    intro q hq f hf
    have hmem := col_names (hs.result_run hq) (by rw [localNames_piece]; exact block_nodup hnames (hs.result_block hq))
      (cached_piece h (hs.result_block hq)) f hf
    rwa [localNames_piece] at hmem
  have hstay : ∀ q ∈ results ps qs, CallsOk (stepScope Γ e pmap) (piece pmap e q.1.2) := fun q hq =>
    stepScope_ok hnames h hs.passes hfit hok (hs.result_block hq)
  constructor
  · intro Γ' hΓ hcol
    apply (hs.callsOk Γ').2
    constructor
    · intro c hc
      exact hΓ _ _ ((callsOk_iff.1 hok).1 c hc)
    · intro q hq
      have hq' : q ∈ results ps qs := List.mem_append_right _ hq
      apply (ih q hq' _ _ (hstay q hq') (stepScope_fresh hnames hfresh (hs.result_block hq')) (hfits q hq')).1
      · intro a m hm
        exact stepScope_stay hnames hs hΓ hcol hm
      · intro f hf
        rw [Scope.add, kept_lookup_none]
        · exact hcol f (hinner q hq' f hf)
        · intro d hd heq
          exact def_notMem_block hnames (List.mem_filter.1 hd).1 (hs.result_block hq') (heq ▸ hname q hq' f hf)
  · intro T hT hcol f hf
    have hle : ∀ a m, ¬ enterKept K e a → stepScope Γ e pmap a = some m → T a = some m := by
      intro a m ha hm
      apply stepScope_le hnames hs hT hcol _ (fun hK => ha (.inl hK)) hm
      intro d hd heq
      exact ha (.inr ⟨d, hd, heq⟩)
    obtain ⟨q, hq, hf⟩ | ⟨q, hq, rfl⟩ := hs.mem_col.1 hf
    · apply (ih q hq _ _ (hstay q hq) (stepScope_fresh hnames hfresh (hs.result_block hq)) (hfits q hq)).2 T hle
        (fun f hf => hcol f (hinner q hq f hf)) f hf
    · -- the body of a lifted function sees only functions that do not stay local
      have hq' : ((q.1.body.bind, q.1.body.exp), q.2) ∈ results ps qs :=
        List.mem_append_left _ (List.mem_map.2 ⟨q, hq, rfl⟩)
      have hb := hs.result_block hq'
      classical
      have houtside : ∀ c ∈ (piece pmap e q.1.body.exp).calls, ¬ enterKept K e c.1 := by
        intro c hc
        rw [calls_piece h hb hs.passes] at hc
        obtain ⟨c', hc', rfl⟩ := List.mem_map.1 hc
        exact (fits_iff.1 hfit).1 q.1 (hs.lifted_mem hq) c' hc'
      have hok' : CallsOk (fun a => if enterKept K e a then none else stepScope Γ e pmap a)
          (piece pmap e q.1.body.exp) := by
        apply callsOk_mono (hstay _ hq')
        intro c hc m hm
        rw [if_neg (houtside c hc)]
        exact hm
      apply (ih _ hq' _ _ hok' _ (hfits _ hq')).1 T
      · intro a m hm
        by_cases ha : enterKept K e a
        · simp [ha] at hm
        · rw [if_neg ha] at hm
          exact hle a m ha hm
      · intro f hf
        exact hcol f (hinner _ hq' f hf)
      · intro a ha
        by_cases hk : enterKept K e a
        · simp [hk]
        · rw [if_neg hk]
          exact stepScope_fresh hnames hfresh hb a ha

/-! ### Only functions that fit keep their calls right -/

theorem callsOk_of_stay {n : ℕ} {e e' : Exp} {col : Col} {pmap : PMap} {ps : List (FuncDef × Exp × Col)}
    {qs : List ((List Val × Exp) × Exp × Col)} (hs : Step n e e' col pmap ps qs) {Γ' T : Scope}
    (hok : CallsOk Γ' e') (hT : ∀ f ∈ col, CallsOk T f.2.exp) {q : (List Val × Exp) × Exp × Col}
    (hq : q ∈ results ps qs) :
    CallsOk (Γ'.add (keptParams e)) q.2.1 ∨ CallsOk T q.2.1 := by
  obtain hq | hq := List.mem_append.1 hq
  · obtain ⟨p, hp, rfl⟩ := List.mem_map.1 hq
    exact .inr (hT _ (hs.mem_col.2 (.inr ⟨p, hp, rfl⟩)))
  · exact .inl (((hs.callsOk Γ').1 hok).2 q hq)

/-- If all calls of the result are right, where the lifted functions see no function
that stays local, then the functions fit. -/
def FitNeeded (e e' : Exp) (col : Col) : Prop :=
  ∀ (Γ Γ' T : Scope) (K : Atom → Prop), CallsOk Γ e → (∀ a ∈ e.localNames, Γ a = none) → CallsOk Γ' e' →
    (∀ f ∈ col, CallsOk T f.2.exp) → (∀ a, K a → T a = none ∧ a ∉ e.localNames) →
    (∀ d ∈ resDefs e' col, T d.1 = none) → Fits K noExtras e

theorem fitNeeded {n : ℕ} {e e' : Exp} {col : Col} (hrun : devolve n e = some (e', col))
    (hnames : e.localNames.Nodup) (h : Cached e) : FitNeeded e e' col := by
  refine devolve_induction (P := FitNeeded) ?_ hrun hnames h
  intro n e e' col pmap ps qs hs hnames h ih Γ Γ' T K hok hfresh hok' hT hK hdefs
  have hnodup : ∀ q ∈ results ps qs, (piece pmap e q.1.2).localNames.Nodup := by
    intro q hq
    rw [localNames_piece]
    exact block_nodup hnames (hs.result_block hq)
  have hcached : ∀ q ∈ results ps qs, Cached (piece pmap e q.1.2) := fun q hq =>
    cached_piece h (hs.result_block hq)
  have hinner : ∀ q ∈ results ps qs, ∀ f ∈ q.2.2, f ∈ col := fun q hq f hf => hs.mem_col.2 (.inl ⟨q, hq, hf⟩)
  have hkept : ∀ a, enterKept K e a → T a = none := by
    intro a ha
    obtain ha | ⟨d, hd, rfl⟩ := ha
    · exact (hK a ha).1
    · exact hdefs (d.name, d.body.bind) (hs.mem_resDefs.2 (.inl ⟨d, hd, rfl⟩))
  have houter : ∀ a, enterKept K e a → ∀ b ∈ e.blocks, a ∉ b.2.localNames := by
    intro a ha b hb hmem
    obtain ha | ⟨d, hd, rfl⟩ := ha
    · exact (hK a ha).2 (localNames_block hb hmem)
    · exact def_notMem_block hnames (List.mem_filter.1 hd).1 hb hmem
  -- a call of a function that stays local is, patched, in the result and not in a lifted function
  have hfound : ∀ q ∈ results ps qs, ∀ c ∈ q.1.2.calls, enterKept K e c.1 →
      Γ'.add (keptParams e) c.1 = some (patch pmap c).2.length ∧ ¬ CallsOk T q.2.1 := by
    intro q hq c hc ha
    have hb := hs.result_block hq
    have hpatch : patch pmap c ∈ (piece pmap e q.1.2).calls := by
      rw [calls_piece h hb hs.passes]
      exact List.mem_map_of_mem hc
    have hres := calls_kept (hs.result_run hq) (hnodup q hq) (hcached q hq) _ hpatch (by
      rw [localNames_piece]
      exact houter c.1 ha q.1 hb)
    have hlocal : ∀ d ∈ resDefs q.2.1 q.2.2, d.1 ≠ c.1 := by
      intro d hd heq
      have hmem := resDefs_names (hs.result_run hq) (hnodup q hq) (hcached q hq) d hd
      rw [localNames_piece, heq] at hmem
      exact houter c.1 ha q.1 hb hmem
    have hno : ∀ x, (∀ d ∈ x.localDefs, d ∈ resDefs q.2.1 q.2.2) → patch pmap c ∈ x.calls → ¬ CallsOk T x := by
      intro x hx hcx hokx
      have hscope := callsOk_call hokx hcx (by
        intro hmem
        obtain ⟨d, hd, heq⟩ := List.mem_map.1 hmem
        exact hlocal d (hx d hd) heq)
      have hnone : T (patch pmap c).1 = none := hkept c.1 ha
      rw [hnone] at hscope
      cases hscope
    obtain hres | hres := List.mem_append.1 hres
    · have hnot := hno q.2.1 (fun d hd => List.mem_append_left _ hd) hres
      obtain hokq | hokq := callsOk_of_stay hs hok' hT hq
      · refine ⟨callsOk_call hokq hres ?_, hnot⟩
        intro hmem
        obtain ⟨d, hd, heq⟩ := List.mem_map.1 hmem
        exact hlocal d (List.mem_append_left _ hd) heq
      · exact absurd hokq hnot
    · obtain ⟨f, hf, hcf⟩ := List.mem_flatMap.1 hres
      have hnot := hno f.2.exp (fun d hd => List.mem_append_right _ (List.mem_flatMap.2 ⟨f, hf, hd⟩)) hcf
      exact absurd (hT f (hinner q hq f hf)) hnot
  apply fits_iff.2
  refine ⟨?_, ?_, ?_⟩
  · intro d hd c hc ha
    obtain ⟨r, hr⟩ := hs.lifted_result hd
    have hq : ((d.body.bind, d.body.exp), r) ∈ results ps qs :=
      List.mem_append_left _ (List.mem_map.2 ⟨_, hr, rfl⟩)
    exact (hfound _ hq c hc ha).2 (hT _ (hs.mem_col.2 (.inr ⟨_, hr, rfl⟩)))
  · intro d hd c hc hname x hextra
    have hdef := (List.mem_filter.1 hd).1
    have hmem := (hs.passes _ x).2 hextra
    obtain hc | ⟨b, hb, hc⟩ := mem_calls.1 hc
    · cases e with
      | lett ds b p => cases hc
      | _ => cases hdef
    · obtain ⟨r, hr⟩ := hs.block_result hb
      have ha : enterKept K e c.1 := .inr ⟨d, hd, hname.symm⟩
      have hpatched := (hfound _ hr c hc ha).1
      have hown := callsOk_call ((callsOk_iff.1 hok).2 b hb) hc (houter c.1 ha b hb)
      rw [hname, enter_def hnames hdef] at hown
      rw [hname, Scope.add, kept_lookup hnames hd, Option.some.injEq] at hpatched
      have hlen := Option.some.inj hown
      have hzero : (PMap.get pmap d.name).length = 0 := by
        have hsum : (patch pmap c).2.length = c.2.length + (PMap.get pmap d.name).length := by
          simp [patch, hname, VarSet.toVals]
        omega
      rw [List.length_eq_zero_iff.1 hzero] at hmem
      cases hmem
  · intro b hb
    obtain ⟨r, hr⟩ := hs.block_result hb
    apply (fits_piece h hb hs.passes).1
    obtain ⟨hokp, hfreshp⟩ := callsOk_patched hnames hfresh h hs.passes hb hok
    have hK' : ∀ a, enterKept K e a → T a = none ∧ a ∉ (piece pmap e b.2).localNames := by
      intro a ha
      rw [localNames_piece]
      exact ⟨hkept a ha, houter a ha b hb⟩
    have hdefs' : ∀ d ∈ resDefs r.1 r.2, T d.1 = none := fun d hd =>
      hdefs d (hs.mem_resDefs.2 (.inr ⟨_, hr, hd⟩))
    obtain hokr | hokr := callsOk_of_stay hs hok' hT hr
    · exact ih _ hr _ _ T _ hokp hfreshp hokr (fun f hf => hT f (hinner _ hr f hf)) hK' hdefs'
    · exact ih _ hr _ _ T _ hokp hfreshp hokr (fun f hf => hT f (hinner _ hr f hf)) hK' hdefs'

/-! ### The pass ends -/

theorem size_piece (pmap : PMap) (e : Exp) {c : Exp} (h : Cached c) : (piece pmap e c).size = c.size := by
  obtain ⟨ds, b, p, rfl⟩ | hne := lett_or e
  · change (proc pmap c).size = c.size
    induction c using blocks_induction with
    | h c ih =>
      rw [size_eq, size_eq c, blocks_proc pmap h, List.map_map]
      congr 2
      exact List.map_congr_left fun b hb => ih b hb (h.block hb)
  · rw [piece_of_ne hne]

theorem size_block {e : Exp} {b : List Val × Exp} (hb : b ∈ e.blocks) : b.2.size < e.size := by
  rw [size_eq e]
  have hle := List.single_le_sum (l := e.blocks.map fun b => b.2.size) (fun _ _ => Nat.zero_le _) b.2.size
    (List.mem_map.2 ⟨b, hb, rfl⟩)
  omega

theorem devolve_total {n : ℕ} {e : Exp} (hsize : e.size ≤ n) (h : Cached e) : ∃ r, devolve n e = some r := by
  induction n generalizing e with
  | zero =>
    have hpos := size_eq e
    omega
  | succ n ih =>
    have hblock : ∀ pmap, ∀ b ∈ e.blocks, ∃ r, devolve n (piece pmap e b.2) = some r := by
      intro pmap b hb
      apply ih
      · rw [size_piece pmap e (h.block hb)]
        have hlt := size_block hb
        omega
      · exact cached_piece h hb
    obtain ⟨ds, b, p, rfl⟩ | hne := lett_or e
    · obtain ⟨_, hsome, _, _⟩ := h.lett
      obtain ⟨p', rfl⟩ := Option.isSome_iff_exists.1 hsome
      obtain ⟨pmap, hpmap⟩ := makePMap_total ds (ds.filter fun fd => fd.name ∈ p'.nonNormal)
      have hlifted : ∃ r, mapCol (devolve n) ((ds.filter fun fd => decide (fd.name ∈ p'.nonNormal)).map
          fun fd => proc pmap fd.body.exp) = some r :=
        mapCol_total fun d hd =>
          hblock pmap (d.body.bind, d.body.exp) (block_of_def (List.mem_filter.1 hd).1)
      have hstay : ∃ r, mapCol (devolve n)
          ((Exp.lett ((ds.filter fun fd => decide (fd.name ∉ p'.nonNormal)).map fun fd =>
            .mk fd.name (.mk fd.body.bind (proc pmap fd.body.exp)) fd.props) (proc pmap b) (some p')).blocks.map
            Prod.snd) = some r := by
        apply mapCol_total
        intro bl hbl
        simp only [blocks, List.map_map, List.mem_cons, List.mem_map] at hbl
        obtain rfl | ⟨d, hd, rfl⟩ := hbl
        · exact hblock pmap ([], b) List.mem_cons_self
        · exact hblock pmap (d.body.bind, d.body.exp) (block_of_def (List.mem_filter.1 hd).1)
      obtain ⟨⟨rs, col⟩, hrs⟩ := hlifted
      obtain ⟨⟨cs, col'⟩, hcs⟩ := hstay
      have hpmap' : makePMap ds (ds.filter fun fd => decide (fd.name ∈ p'.nonNormal)) = some pmap := hpmap
      simp only [devolve, Option.bind_eq_bind, Option.bind_some, hpmap', hrs, hcs]
      exact ⟨_, rfl⟩
    · have hall : ∃ r, mapCol (devolve n) (e.blocks.map Prod.snd) = some r := by
        apply mapCol_total
        intro b hb
        have hres := hblock [] b hb
        rwa [piece_of_ne hne] at hres
      obtain ⟨⟨cs, col⟩, hcs⟩ := hall
      have hstep : devolve (n + 1) e = (mapCol (devolve n) (e.blocks.map Prod.snd)).bind
          fun r => some (e.withBlocks r.1, r.2) := by
        cases e with
        | lett ds b p => exact absurd rfl (hne ds b p)
        | _ => rfl
      rw [hstep, hcs]
      exact ⟨_, rfl⟩

end Jhc.Grin

import Jhc.Grin.DevolveProc
import Jhc.Grin.DevolveExtra

/-!
# When local functions can be lifted (Grin/Devolve.hs:28-65)

The condition on a program under which `devolveGrin` keeps every call in scope with
the right number of arguments. It is about the functions that the pass lifts, those
that stay local, the variables that a lifted function needs and the functions that
are called; `proc` keeps it.
-/

namespace Jhc.Grin
open Exp

/-! ### The functions of a Let -/

namespace Exp

def isLifted : Exp → FuncDef → Bool
  | lett _ _ (some p), d => decide (d.name ∈ p.nonNormal)
  | _, _ => false

/-- The functions that the pass lifts. -/
def liftedDefs (e : Exp) : List FuncDef := e.defs.filter fun d => e.isLifted d

/-- The functions that stay local. -/
def keptDefs (e : Exp) : List FuncDef := e.defs.filter fun d => !e.isLifted d

end Exp

/-! ### What a function needs -/

/-- For each function, variables that its calls pass besides their arguments. -/
abbrev Extras := Atom → Var × Ty → Prop

/-- A variable is free in the expression, or passed by one of its calls, and not bound
there. -/
def needs (Δ : Extras) (e : Exp) (x : Var × Ty) : Prop :=
  x ∈ Val.freeVarsOf e.vals ∨ (∃ a ∈ e.appTag, Δ a x) ∨
    ∃ b : {b // b ∈ e.blocks}, needs Δ b.1.2 x ∧ x ∉ Val.freeVarsOf b.1.1
termination_by sizeOf e
decreasing_by exact sizeOf_block b.2

theorem needs_iff {Δ : Extras} {e : Exp} {x : Var × Ty} :
    needs Δ e x ↔ x ∈ Val.freeVarsOf e.vals ∨ (∃ a ∈ e.appTag, Δ a x) ∨
      ∃ b ∈ e.blocks, needs Δ b.2 x ∧ x ∉ Val.freeVarsOf b.1 := by
  rw [needs, Subtype.exists]
  simp only [exists_prop]

/-- A lifted function needs the variable and does not bind it. -/
def OwnExtra (Δ : Extras) (e : Exp) : Extras := fun a x =>
  ∃ d ∈ e.liftedDefs, d.name = a ∧ v0 < x.1 ∧ needs Δ d.body.exp x ∧ x ∉ Val.freeVarsOf d.body.bind

/-- The variables that the calls of a function of the `Let` pass. -/
def Extra (Δ : Extras) (e : Exp) : Extras := fun a x =>
  (Settled (OwnExtra Δ e) e.liftedDefs ∧ OwnExtra Δ e a x) ∨
    (¬ Settled (OwnExtra Δ e) e.liftedDefs ∧ Flow (OwnExtra Δ e) e.defs a x)

def Extras.enter (Δ : Extras) (e : Exp) : Extras := fun a x => Δ a x ∨ Extra Δ e a x

/-- The functions that stay local, in the blocks of an expression. -/
def enterKept (K : Atom → Prop) (e : Exp) : Atom → Prop := fun a => K a ∨ ∃ d ∈ e.keptDefs, d.name = a

/-- No lifted function calls, itself or in a function inside it, a function outside it
that stays local, and no function that stays local and is called gets extra variables. -/
def Fits (K : Atom → Prop) (Δ : Extras) (e : Exp) : Prop :=
  (∀ d ∈ e.liftedDefs, ∀ c ∈ d.body.exp.calls, ¬ enterKept K e c.1) ∧
  (∀ d ∈ e.keptDefs, ∀ c ∈ e.calls, c.1 = d.name → ∀ x, ¬ Extra Δ e d.name x) ∧
  ∀ b : {b // b ∈ e.blocks}, Fits (enterKept K e) (Δ.enter e) b.1.2
termination_by sizeOf e
decreasing_by exact sizeOf_block b.2

theorem fits_iff {K : Atom → Prop} {Δ : Extras} {e : Exp} :
    Fits K Δ e ↔ (∀ d ∈ e.liftedDefs, ∀ c ∈ d.body.exp.calls, ¬ enterKept K e c.1) ∧
      (∀ d ∈ e.keptDefs, ∀ c ∈ e.calls, c.1 = d.name → ∀ x, ¬ Extra Δ e d.name x) ∧
      ∀ b ∈ e.blocks, Fits (enterKept K e) (Δ.enter e) b.2 := by
  rw [Fits, Subtype.forall]

theorem needs_congr {Δ Δ' : Extras} (h : ∀ a x, Δ a x ↔ Δ' a x) : Δ = Δ' := by
  funext a x
  exact propext (h a x)

/-! ### Without extra variables -/

def noExtras : Extras := fun _ _ => False

theorem needs_none {e : Exp} {x : Var × Ty} : needs noExtras e x ↔ x ∈ e.freeVars := by
  induction e using blocks_induction with
  | h e ih =>
    rw [needs_iff, mem_freeVars]
    have hblocks : (∃ b ∈ e.blocks, needs noExtras b.2 x ∧ x ∉ Val.freeVarsOf b.1) ↔
        ∃ b ∈ e.blocks, x ∈ b.2.freeVars ∧ x ∉ Val.freeVarsOf b.1 := by
      apply exists_congr
      intro b
      apply and_congr_right
      intro hb
      rw [ih b hb]
    rw [hblocks]
    simp [noExtras]

/-- What an expression needs is free in it or belongs to a function that it mentions. -/
theorem needs_cases {Δ : Extras} {e : Exp} (h : Cached e) {x : Var × Ty} (hx : needs Δ e x) :
    x ∈ e.freeVars ∨ ∃ a ∈ e.tags, Δ a x := by
  induction e using blocks_induction with
  | h e ih =>
    have htags : ∀ b ∈ e.blocks, b.2.tags ⊆ e.tags := by
      intro b hb t ht
      by_cases hlett : ∃ ds b p, e = .lett ds b p
      · obtain ⟨ds, b', p, rfl⟩ := hlett
        obtain ⟨_, _, _, hds⟩ := h.lett
        apply mem_tags_lett.2
        simp only [blocks, List.mem_cons, List.mem_map] at hb
        obtain rfl | ⟨d, hd, rfl⟩ := hb
        · exact .inl ht
        · have hmem : t ∈ d.body.tags := Finset.mem_union_right _ ht
          exact .inr ⟨d, hd, by rw [hds d hd]; exact hmem⟩
      · have hne : ∀ ds b p, e ≠ .lett ds b p := fun ds b p heq => hlett ⟨ds, b, p, heq⟩
        exact (mem_tags hne).2 (.inr (.inr ⟨b, hb, .inl ht⟩))
    obtain hx | ⟨a, ha, hx⟩ | ⟨b, hb, hx, hbind⟩ := needs_iff.1 hx
    · exact .inl (mem_freeVars.2 (.inl hx))
    · have hne : ∀ ds b p, e ≠ .lett ds b p := by
        intro ds b p heq
        subst heq
        simp [appTag] at ha
      exact .inr ⟨a, (mem_tags hne).2 (.inl ha), hx⟩
    · obtain hfree | ⟨a, ha, hx⟩ := ih b hb (h.block hb) hx
      · exact .inl (mem_freeVars.2 (.inr ⟨b, hb, hfree, hbind⟩))
      · exact .inr ⟨a, htags b hb ha, hx⟩

/-! ### What proc adds -/

theorem freeVarsOf_toVals {xs : VarSet} {x : Var × Ty} : x ∈ Val.freeVarsOf (VarSet.toVals xs) ↔ x ∈ xs := by
  induction xs with
  | nil => simp [VarSet.toVals, Val.freeVarsOf]
  | cons y ys ih =>
    have hstep : VarSet.toVals (y :: ys) = .var y.1 y.2 :: VarSet.toVals ys := rfl
    simp [hstep, Val.freeVarsOf, Val.freeVars, ih]

theorem vals_headProc {pmap : PMap} {e : Exp} {x : Var × Ty} :
    x ∈ Val.freeVarsOf (headProc pmap e).vals ↔
      x ∈ Val.freeVarsOf e.vals ∨ ∃ a ∈ e.appTag, x ∈ PMap.get pmap a := by
  cases e with
  | app a as t =>
    have hvals : (headProc pmap (.app a as t)).vals = as ++ VarSet.toVals (PMap.get pmap a) := rfl
    rw [hvals, freeVarsOf_append, freeVarsOf_toVals]
    simp [appTag, vals]
  | _ => simp [headProc, appTag]

theorem needs_updateLetProps (Δ : Extras) (e : Exp) (x : Var × Ty) :
    needs Δ (updateLetProps e) x = needs Δ e x := by
  unfold updateLetProps
  split
  · next b p =>
    apply propext
    rw [needs_iff (e := .lett [] b p)]
    simp [blocks, vals, appTag, Val.freeVarsOf]
  · next ds b p _ =>
    apply propext
    rw [needs_iff, needs_iff (e := .lett ds b p)]
    rfl
  · rfl

theorem appTag_setBlocks (e : Exp) (cs : List Exp) : (e.setBlocks cs).appTag = e.appTag := by
  unfold setBlocks
  split <;> rfl

theorem needs_withBlocks {Δ : Extras} {e : Exp} {cs : List Exp} (h : cs.length = e.blocks.length)
    {x : Var × Ty} : needs Δ (e.withBlocks cs) x ↔ x ∈ Val.freeVarsOf e.vals ∨ (∃ a ∈ e.appTag, Δ a x) ∨
      ∃ b ∈ e.blocks.zip cs, needs Δ b.2 x ∧ x ∉ Val.freeVarsOf b.1.1 := by
  rw [withBlocks_eq (F := fun e => needs Δ e x) (fun e => needs_updateLetProps Δ e x), needs_iff,
    vals_setBlocks, appTag_setBlocks, blocks_setBlocks h, ← List.map_uncurry_zip_eq_zipWith]
  simp only [List.mem_map, exists_exists_and_eq_and]
  rfl

theorem appTag_headProc (pmap : PMap) (e : Exp) : (headProc pmap e).appTag = e.appTag := by
  cases e <;> rfl

def PMap.extras (pmap : PMap) : Extras := fun a x => x ∈ PMap.get pmap a

def Extras.or (Δ Δ' : Extras) : Extras := fun a x => Δ a x ∨ Δ' a x

/-- `proc` gives the calls of the functions in the map their extra variables. -/
theorem needs_proc {pmap : PMap} {Δ : Extras} {e : Exp} {x : Var × Ty} :
    needs Δ (proc pmap e) x ↔ needs (Δ.or (PMap.extras pmap)) e x := by
  induction e using blocks_induction with
  | h e ih =>
    have hzip : e.blocks.zip (e.blocks.map fun b => proc pmap b.2) = e.blocks.map fun b => (b, proc pmap b.2) :=
      zipWith_map_self Prod.mk (fun b : List Val × Exp => proc pmap b.2) e.blocks
    have hblocks : (∃ b ∈ e.blocks.map fun b => (b, proc pmap b.2),
          needs Δ b.2 x ∧ x ∉ Val.freeVarsOf b.1.1) ↔
        ∃ b ∈ e.blocks, needs (Δ.or (PMap.extras pmap)) b.2 x ∧ x ∉ Val.freeVarsOf b.1 := by
      simp only [List.mem_map, exists_exists_and_eq_and]
      apply exists_congr
      intro b
      apply and_congr_right
      intro hb
      rw [ih b hb]
    rw [proc_eq, needs_withBlocks (length_procs pmap e), vals_headProc, appTag_headProc, blocks_headProc, hzip,
      hblocks, needs_iff (e := e)]
    constructor
    · rintro ((hx | ⟨a, ha, hx⟩) | ⟨a, ha, hx⟩ | hx)
      · exact .inl hx
      · exact .inr (.inl ⟨a, ha, .inr hx⟩)
      · exact .inr (.inl ⟨a, ha, .inl hx⟩)
      · exact .inr (.inr hx)
    · rintro (hx | ⟨a, ha, hx | hx⟩ | hx)
      · exact .inl (.inl hx)
      · exact .inr (.inl ⟨a, ha, hx⟩)
      · exact .inl (.inr ⟨a, ha, hx⟩)
      · exact .inr (.inr hx)

theorem none_or (Δ : Extras) : noExtras.or Δ = Δ := by
  funext a x
  simp [Extras.or, noExtras]

theorem mem_freeVars_proc {pmap : PMap} {e : Exp} {x : Var × Ty} :
    x ∈ (proc pmap e).freeVars ↔ needs (PMap.extras pmap) e x := by
  rw [← needs_none, needs_proc, none_or]

/-! ### proc keeps the condition -/

theorem names_proc (pmap : PMap) (e : Exp) : (proc pmap e).calls.map Prod.fst = e.calls.map Prod.fst := by
  induction e using blocks_induction with
  | h e ih =>
    have hown : (headProc pmap e).ownCalls.map Prod.fst = e.ownCalls.map Prod.fst := by
      cases e <;> rfl
    rw [proc_eq, calls_withBlocks (length_procs pmap e), List.map_append, hown, calls, collect_eq ownCalls e,
      List.map_append, List.flatMap_map, List.map_flatMap, List.map_flatMap]
    congr 1
    exact List.flatMap_congr fun b hb => ih b hb

theorem exists_call_proc {pmap : PMap} {e : Exp} {P : Atom → Prop} :
    (∃ c ∈ (proc pmap e).calls, P c.1) ↔ ∃ c ∈ e.calls, P c.1 := by
  have hmap : ∀ e : Exp, (∃ c ∈ e.calls, P c.1) ↔ ∃ a ∈ e.calls.map Prod.fst, P a := by
    intro e
    simp only [List.mem_map, exists_exists_and_eq_and]
  rw [hmap, names_proc, ← hmap]

theorem forall_call_proc {pmap : PMap} {e : Exp} {P : Atom → Prop} :
    (∀ c ∈ (proc pmap e).calls, P c.1) ↔ ∀ c ∈ e.calls, P c.1 := by
  have hex := @exists_call_proc pmap e fun a => ¬ P a
  constructor
  · intro h c hc
    by_contra hno
    obtain ⟨c', hc', hno'⟩ := hex.2 ⟨c, hc, hno⟩
    exact hno' (h c' hc')
  · intro h c hc
    by_contra hno
    obtain ⟨c', hc', hno'⟩ := hex.1 ⟨c, hc, hno⟩
    exact hno' (h c' hc')

theorem not_lett {e : Exp} (h : ¬ ∃ ds b p, e = .lett ds b p) : ∀ ds b p, e ≠ .lett ds b p :=
  fun ds b p heq => h ⟨ds, b, p, heq⟩

theorem defs_of_ne {e : Exp} (h : ∀ ds b p, e ≠ .lett ds b p) : e.defs = [] := by
  cases e with
  | lett ds b p => exact absurd rfl (h ds b p)
  | _ => rfl

theorem proc_ne_lett {pmap : PMap} {e : Exp} (h : ∀ ds b p, e ≠ .lett ds b p) :
    ∀ ds b p, proc pmap e ≠ .lett ds b p := by
  rw [proc_eq]
  cases e with
  | lett ds b p => exact absurd rfl (h ds b p)
  | _ => intros; simp [headProc, withBlocks, blocks]

theorem proc_cached_lett (pmap : PMap) {ds : List FuncDef} {b : Exp} {p : Option LetProps}
    (h : Cached (.lett ds b p)) :
    proc pmap (.lett ds b p) = .lett (ds.map (procDef pmap)) (proc pmap b) p := by
  rw [proc_lett pmap h.lett.1, letProps_proc pmap h]

section proc

variable (pmap : PMap) {e : Exp} (h : Cached e)
include h

theorem defs_proc : (proc pmap e).defs = e.defs.map (procDef pmap) := by
  by_cases hlett : ∃ ds b p, e = .lett ds b p
  · obtain ⟨ds, b, p, rfl⟩ := hlett
    rw [proc_cached_lett pmap h]
    rfl
  · rw [defs_of_ne (proc_ne_lett (not_lett hlett)), defs_of_ne (not_lett hlett)]
    rfl

theorem isLifted_proc (d : FuncDef) : (proc pmap e).isLifted (procDef pmap d) = e.isLifted d := by
  by_cases hlett : ∃ ds b p, e = .lett ds b p
  · obtain ⟨ds, b, p, rfl⟩ := hlett
    rw [proc_cached_lett pmap h]
    cases p <;> rfl
  · have hne : ∀ (e : Exp), (∀ ds b p, e ≠ .lett ds b p) → ∀ d, e.isLifted d = false := by
      intro e he d
      cases e with
      | lett ds b p => exact absurd rfl (he ds b p)
      | _ => rfl
    rw [hne _ (not_lett hlett), hne _ (proc_ne_lett (not_lett hlett))]

theorem liftedDefs_proc : (proc pmap e).liftedDefs = e.liftedDefs.map (procDef pmap) := by
  unfold liftedDefs
  rw [defs_proc pmap h, List.filter_map]
  congr 1
  apply List.filter_congr
  intro d _
  exact isLifted_proc pmap h d

theorem keptDefs_proc : (proc pmap e).keptDefs = e.keptDefs.map (procDef pmap) := by
  unfold keptDefs
  rw [defs_proc pmap h, List.filter_map]
  congr 1
  apply List.filter_congr
  intro d _
  exact congrArg (!·) (isLifted_proc pmap h d)

theorem blocks_proc : (proc pmap e).blocks = e.blocks.map fun b => (b.1, proc pmap b.2) := by
  by_cases hlett : ∃ ds b p, e = .lett ds b p
  · obtain ⟨ds, b, p, rfl⟩ := hlett
    rw [proc_cached_lett pmap h]
    simp only [blocks, List.map_cons, List.map_map]
    rfl
  · have hset : proc pmap e = (headProc pmap e).setBlocks (e.blocks.map fun b => proc pmap b.2) := by
      rw [proc_eq]
      cases e with
      | lett ds b p => exact absurd ⟨ds, b, p, rfl⟩ hlett
      | _ => rfl
    rw [hset, blocks_setBlocks (length_procs pmap e), blocks_headProc, zipWith_map_self]

theorem funcTags_proc {d : FuncDef} (hd : d ∈ e.defs) : (procDef pmap d).props.funcTags = d.props.funcTags := by
  have hblock := block_of_def hd
  have htags : (procDef pmap d).props.funcTags = d.body.tags :=
    congrArg (Val.tagsOf d.body.bind ∪ ·) (tags_proc pmap (h.block hblock))
  cases e with
  | lett ds b p =>
    obtain ⟨_, _, _, hds⟩ := h.lett
    rw [htags, hds d hd]
    rfl
  | _ => cases hd

theorem ownExtra_proc (Δ : Extras) : OwnExtra Δ (proc pmap e) = OwnExtra (Δ.or (PMap.extras pmap)) e := by
  apply needs_congr
  intro a x
  unfold OwnExtra
  rw [liftedDefs_proc pmap h]
  simp only [List.mem_map, exists_exists_and_eq_and]
  apply exists_congr
  intro d
  apply and_congr_right
  intro _
  have hneeds : needs Δ (procDef pmap d).body.exp x ↔ needs (Δ.or (PMap.extras pmap)) d.body.exp x := needs_proc
  rw [hneeds]
  rfl

theorem extra_proc (Δ : Extras) : Extra Δ (proc pmap e) = Extra (Δ.or (PMap.extras pmap)) e := by
  have hsettled : Settled (OwnExtra (Δ.or (PMap.extras pmap)) e) (proc pmap e).liftedDefs ↔
      Settled (OwnExtra (Δ.or (PMap.extras pmap)) e) e.liftedDefs := by
    unfold Settled
    rw [liftedDefs_proc pmap h, List.forall_mem_map]
    apply forall_congr'
    intro d
    apply forall_congr'
    intro hd
    rw [funcTags_proc pmap h (List.mem_filter.1 hd).1]
    rfl
  have hflow : ∀ own a x, Flow own (proc pmap e).defs a x ↔ Flow own e.defs a x := by
    intro own a x
    rw [defs_proc pmap h]
    constructor
    · intro hx
      induction hx with
      | own hx => exact .own hx
      | step hd ht _ ih =>
        obtain ⟨d, hd', rfl⟩ := List.mem_map.1 hd
        have hname : (procDef pmap d).name = d.name := rfl
        rw [funcTags_proc pmap h hd'] at ht
        rw [hname]
        exact .step hd' ht ih
    · intro hx
      induction hx with
      | own hx => exact .own hx
      | @step d t x hd ht _ ih =>
        have hname : (procDef pmap d).name = d.name := rfl
        rw [← hname]
        exact .step (List.mem_map_of_mem hd) (by rwa [funcTags_proc pmap h hd]) ih
  apply needs_congr
  intro a x
  unfold Extra
  rw [ownExtra_proc pmap h, hsettled, hflow]

theorem enterKept_proc (K : Atom → Prop) : enterKept K (proc pmap e) = enterKept K e := by
  funext a
  unfold enterKept
  rw [keptDefs_proc pmap h]
  simp only [List.mem_map, exists_exists_and_eq_and]
  rfl

end proc

theorem enter_or (Δ Δ' : Extras) (e : Exp) :
    (fun a x => (Δ.or Δ') a x ∨ Extra (Δ.or Δ') e a x) = Extras.or (fun a x => Δ a x ∨ Extra (Δ.or Δ') e a x) Δ' := by
  apply needs_congr
  intro a x
  unfold Extras.or
  tauto

theorem fits_proc (pmap : PMap) {K : Atom → Prop} {Δ : Extras} {e : Exp} (h : Cached e) :
    Fits K Δ (proc pmap e) ↔ Fits K (Δ.or (PMap.extras pmap)) e := by
  induction e using blocks_induction generalizing K Δ with
  | h e ih =>
    have henter : Extras.enter (Δ.or (PMap.extras pmap)) e =
        Extras.or (Extras.enter Δ (proc pmap e)) (PMap.extras pmap) := by
      unfold Extras.enter
      rw [extra_proc pmap h, ← enter_or]
    rw [fits_iff, fits_iff (e := e), liftedDefs_proc pmap h, keptDefs_proc pmap h, enterKept_proc pmap h,
      extra_proc pmap h, blocks_proc pmap h, List.forall_mem_map, List.forall_mem_map, List.forall_mem_map]
    apply and_congr
    · apply forall_congr'
      intro d
      apply forall_congr'
      intro _
      exact forall_call_proc (P := fun a => ¬ enterKept K e a)
    apply and_congr
    · apply forall_congr'
      intro d
      apply forall_congr'
      intro _
      exact forall_call_proc
        (P := fun a => a = d.name → ∀ x, ¬ Extra (Δ.or (PMap.extras pmap)) e d.name x)
    · apply forall_congr'
      intro b
      apply forall_congr'
      intro hb
      rw [ih b hb (h.block hb), henter]

end Jhc.Grin

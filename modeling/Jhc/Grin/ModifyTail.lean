import Jhc.Grin.RunFacts

/-!
# Extending the tails of an expression (Grin/Noodle.hs:21-36)

`modifyTail` puts a function behind each tail of an expression. The tails of local functions are
extended where they stand, so that a call of one must be a tail itself: in an expression that is
bound as a whole the function would come twice. The check that the option `flint` turns on, which
ends the compiler, is left out, and the types that calls and errors carry are a parameter.
-/

namespace Jhc.Grin
open Jhc.C (Prim)
open Jhc.Lib.Memory

section Definition

variable (getType : Exp → List Ty) (lam : Lam)

mutual

/-- A `Let` without its cached properties, on which the source fails, is taken as not normal. -/
def modifyTail.f (lf : Finset Atom) : Exp → Exp
  | .error s _ => .error s (getType lam.exp)
  | .case x ls => .case x (modifyTail.gs lf ls)
  | .lett defs body props =>
    if (props.map LetProps.isNormal).getD false then
      updateLetProps (.lett (modifyTail.defs' (lf ∪ (defs.map FuncDef.name).toFinset) defs)
        (modifyTail.f (lf ∪ (defs.map FuncDef.name).toFinset) body) props)
    else .bind (.lett defs body props) lam
  | .mkCont cont l => .mkCont (modifyTail.g lf cont) (modifyTail.g lf l)
  | .bind e₁ (.mk p e₂) => .bind e₁ (.mk p (modifyTail.f lf e₂))
  | .app a as t => if a ∈ lf then .app a as (getType lam.exp) else .bind (.app a as t) lam
  | e => .bind e lam

def modifyTail.g (lf : Finset Atom) : Lam → Lam
  | .mk p e => .mk p (modifyTail.f lf e)

def modifyTail.gs (lf : Finset Atom) : List Lam → List Lam
  | [] => []
  | l :: ls => modifyTail.g lf l :: modifyTail.gs lf ls

def modifyTail.defs' (nlf : Finset Atom) : List FuncDef → List FuncDef
  | [] => []
  | .mk n b p :: ds => (FuncDef.mk n (modifyTail.g nlf b) p).updateFuncDefProps :: modifyTail.defs' nlf ds

end

def modifyTail (te : Exp) : Exp := modifyTail.f getType lam ∅ te

end Definition

open modifyTail

/-! ### What each form becomes -/

section Forms

variable {getType : Exp → List Ty} {lam : Lam} {lf : Finset Atom} {e : Exp}

/-- An expression that is bound as a whole. -/
def Exp.Leaf : Exp → Prop
  | .error _ _ => False
  | .case _ _ => False
  | .mkCont _ _ => False
  | .bind _ _ => False
  | .lett _ _ props => (props.map LetProps.isNormal).getD false = false
  | _ => True

/-- The expression calls none of the functions. -/
def Whole (lf : Finset Atom) (e : Exp) : Prop := ∀ a ∈ lf, ¬ Names a e

theorem f_leaf (hl : e.Leaf) (hw : Whole lf e) : f getType lam lf e = .bind e lam := by
  cases e with
  | app a as t =>
    have ha : a ∉ lf := fun hmem => hw a hmem (.app (Finset.mem_singleton_self a))
    rw [f, if_neg ha]
  | lett ds b props =>
    have hprops : (props.map LetProps.isNormal).getD false = false := hl
    rw [f, hprops, if_neg Bool.false_ne_true]
  | error s t => exact hl.elim
  | case v ls => exact hl.elim
  | mkCont c l => exact hl.elim
  | bind e l => exact hl.elim
  | _ => rfl

theorem f_jump {a : Atom} {as : List Val} {t : List Ty} (h : a ∈ lf) :
    f getType lam lf (.app a as t) = .app a as (getType lam.exp) := by
  rw [f, if_pos h]

theorem f_lett {ds : List FuncDef} {b : Exp} {props : Option LetProps}
    (h : (props.map LetProps.isNormal).getD false = true) :
    f getType lam lf (.lett ds b props) = updateLetProps (.lett (defs' getType lam (lf ∪ (ds.map FuncDef.name).toFinset) ds)
      (f getType lam (lf ∪ (ds.map FuncDef.name).toFinset) b) props) := by
  rw [f, if_pos h]

theorem g_bind (l : Lam) : (g getType lam lf l).bind = l.bind := by
  cases l
  rfl

theorem g_exp (l : Lam) : (g getType lam lf l).exp = f getType lam lf l.exp := by
  cases l
  rfl

/-- A local function with its tails extended. -/
def extended (getType : Exp → List Ty) (lam : Lam) (lf : Finset Atom) (d : FuncDef) : FuncDef :=
  (FuncDef.mk d.name (g getType lam lf d.body) d.props).updateFuncDefProps

theorem defs_eq (ds : List FuncDef) : defs' getType lam lf ds = ds.map (extended getType lam lf) := by
  induction ds with
  | nil => rfl
  | cons d ds ih =>
    obtain ⟨n, b, p⟩ := d
    rw [defs', ih]
    rfl

theorem defs_find (ds : List FuncDef) (a : Atom) :
    (defs' getType lam lf ds).find? (·.name = a) = (ds.find? (·.name = a)).map (extended getType lam lf) := by
  rw [defs_eq, List.find?_map]
  rfl

theorem defs_names (ds : List FuncDef) : (defs' getType lam lf ds).map FuncDef.name = ds.map FuncDef.name := by
  rw [defs_eq, List.map_map]
  rfl

theorem selects_gs {w : Value} {ls : List Lam} {xs : List Action} {l : Lam} {bs : Bindings} (h : Selects w ls xs l bs) :
    Selects w (gs getType lam lf ls) xs (g getType lam lf l) bs := by
  induction h with
  | here h => exact .here (by rw [g_bind]; exact h)
  | skip h _ ih => exact .skip (by rw [g_bind]; exact h) ih

theorem selects_of_gs {w : Value} {ls : List Lam} {xs : List Action} {k : Lam} {bs : Bindings}
    (h : Selects w (gs getType lam lf ls) xs k bs) : ∃ l, Selects w ls xs l bs ∧ k = g getType lam lf l := by
  induction ls generalizing xs with
  | nil => cases h
  | cons l ls ih =>
    cases h with
    | here h =>
      rw [g_bind] at h
      exact ⟨l, .here h, rfl⟩
    | skip h hrest =>
      rw [g_bind] at h
      obtain ⟨l', hl', rfl⟩ := ih hrest
      exact ⟨l', .skip h hl', rfl⟩

end Forms

/-! ### Where the tails can be extended -/

/-- The patterns bind no variable that is free in the function. -/
def Apart (lam : Lam) (ps : List Val) : Prop := ∀ x, HasVar x ps → Free x lam.exp → HasVar x lam.bind

/-- Every call of a function of a normal `Let` is a tail that is extended in place, and nothing
that the function mentions is bound around a tail. -/
inductive Extends (lam : Lam) : Finset Atom → Exp → Prop where
  | error {lf s t} : Extends lam lf (.error s t)
  | case {lf v ls} (h : ∀ l ∈ ls, Extends lam lf l.exp) (hp : ∀ l ∈ ls, Apart lam l.bind) : Extends lam lf (.case v ls)
  | lett {lf ds b props} (hn : (props.map LetProps.isNormal).getD false = true)
      (hb : Extends lam (lf ∪ (ds.map FuncDef.name).toFinset) b)
      (hd : ∀ d ∈ ds, Extends lam (lf ∪ (ds.map FuncDef.name).toFinset) d.body.exp)
      (hp : ∀ d ∈ ds, Apart lam d.body.bind) (hl : ∀ d ∈ ds, ¬ Names d.name lam.exp) : Extends lam lf (.lett ds b props)
  | mkCont {lf c l} (hc : Extends lam lf c.exp) (hl : Extends lam lf l.exp) : Extends lam lf (.mkCont c l)
  | bind {lf e₁ p e₂} (hw : Whole lf e₁) (hp : Apart lam p) (h : Extends lam lf e₂) : Extends lam lf (.bind e₁ (.mk p e₂))
  | jump {lf a as t} (h : a ∈ lf) : Extends lam lf (.app a as t)
  | leaf {lf e} (hl : e.Leaf) (hw : Whole lf e) : Extends lam lf e

/-- What an expression becomes: the form of both, and what holds of its parts. -/
inductive Form (getType : Exp → List Ty) (lam : Lam) (lf : Finset Atom) : Exp → Exp → Prop where
  | error {s t} : Form getType lam lf (.error s t) (.error s (getType lam.exp))
  | case {v ls} (h : ∀ l ∈ ls, Extends lam lf l.exp) (hp : ∀ l ∈ ls, Apart lam l.bind) :
      Form getType lam lf (.case v ls) (.case v (gs getType lam lf ls))
  | lett {nlf ds b props props'} (hn : nlf = lf ∪ (ds.map FuncDef.name).toFinset) (hb : Extends lam nlf b)
      (hd : ∀ d ∈ ds, Extends lam nlf d.body.exp) (hp : ∀ d ∈ ds, Apart lam d.body.bind)
      (hl : ∀ d ∈ ds, ¬ Names d.name lam.exp) :
      Form getType lam lf (.lett ds b props) (.lett (defs' getType lam nlf ds) (f getType lam nlf b) props')
  | mkCont {c l} : Form getType lam lf (.mkCont c l) (.mkCont (g getType lam lf c) (g getType lam lf l))
  | bind {e₁ p e₂} (hw : Whole lf e₁) (hp : Apart lam p) (h : Extends lam lf e₂) :
      Form getType lam lf (.bind e₁ (.mk p e₂)) (.bind e₁ (.mk p (f getType lam lf e₂)))
  | jump {a as t} (h : a ∈ lf) : Form getType lam lf (.app a as t) (.app a as (getType lam.exp))
  | leaf {e} (hw : Whole lf e) : Form getType lam lf e (.bind e lam)

/-- The variables that are free in the function have the values that they have outside. -/
def Kept (lam : Lam) (ρ₀ ρ : Frame) : Prop := ∀ x, Free x lam.exp → ¬ HasVar x lam.bind → ρ x = ρ₀ x

/-- The local functions around a tail, as they were and extended. -/
inductive Pushed (getType : Exp → List Ty) (lam : Lam) (φ₀ : FEnv) (ρ₀ : Frame) : Finset Atom → FEnv → FEnv → Prop where
  | base : Pushed getType lam φ₀ ρ₀ ∅ φ₀ φ₀
  | group {lf nlf φ φ' ds ρ} (h : Pushed getType lam φ₀ ρ₀ lf φ φ') (hn : nlf = lf ∪ (ds.map FuncDef.name).toFinset)
      (hd : ∀ d ∈ ds, Extends lam nlf d.body.exp) (hp : ∀ d ∈ ds, Apart lam d.body.bind)
      (hl : ∀ d ∈ ds, ¬ Names d.name lam.exp) (hk : Kept lam ρ₀ ρ) :
      Pushed getType lam φ₀ ρ₀ nlf ((ds, ρ) :: φ) ((defs' getType lam nlf ds, ρ) :: φ')

section Environments

variable {getType : Exp → List Ty} {lam : Lam} {φ₀ φ φ' : FEnv} {ρ₀ ρ : Frame} {lf : Finset Atom}

theorem Kept.extend {ps : List Val} {ws : List Value} {ys : List Action} {bs : Bindings} (h : Kept lam ρ₀ ρ)
    (hp : Apart lam ps) (hb : Binds ps ws ys bs) : Kept lam ρ₀ (ρ.extend bs) := by
  intro x hx hnot
  rw [extend_other fun hmem => hnot (hp x ((binds_names hb).1 hmem) hx)]
  exact h x hx hnot

theorem Pushed.find (h : Pushed getType lam φ₀ ρ₀ lf φ φ') {a : Atom} (ha : a ∈ lf) :
    ∃ d ρ ψ ψ' nlf, φ.find a = some (d, ρ, ψ) ∧ φ'.find a = some (extended getType lam nlf d, ρ, ψ') ∧
      Pushed getType lam φ₀ ρ₀ nlf ψ ψ' ∧ Extends lam nlf d.body.exp ∧ Apart lam d.body.bind ∧ Kept lam ρ₀ ρ := by
  induction h with
  | base => cases ha
  | @group lf nlf φ φ' ds ρ h hn hd hp hl hk ih =>
    cases hfind : ds.find? (·.name = a) with
    | some d =>
      have hmem := (find_name hfind).1
      refine ⟨d, ρ, (ds, ρ) :: φ, (defs' getType lam nlf ds, ρ) :: φ', nlf, ?_, ?_, .group h hn hd hp hl hk, hd d hmem,
        hp d hmem, hk⟩
      · simp only [FEnv.find, hfind]
      · simp only [FEnv.find, defs_find, hfind, Option.map_some]
    | none =>
      have hout : a ∈ lf := by
        rw [hn, Finset.mem_union, List.mem_toFinset] at ha
        exact ha.resolve_right (find_none.1 hfind)
      obtain ⟨d, ρ', ψ, ψ', nlf', h₁, h₂, hrest⟩ := ih hout
      refine ⟨d, ρ', ψ, ψ', nlf', ?_, ?_, hrest⟩
      · simp only [FEnv.find, hfind, h₁]
      · simp only [FEnv.find, defs_find, hfind, Option.map_none, h₂]

theorem Pushed.names (h : Pushed getType lam φ₀ ρ₀ lf φ φ') : ∀ a ∈ lf, ¬ Names a lam.exp := by
  induction h with
  | base => exact fun a ha => absurd ha (Finset.notMem_empty a)
  | group h hn hd hp hl hk ih =>
    intro a ha
    rw [hn, Finset.mem_union, List.mem_toFinset, List.mem_map] at ha
    rcases ha with ha | ⟨d, hd, rfl⟩
    · exact ih a ha
    · exact hl d hd

/-- An expression that calls none of the extended functions finds the same ones in all three. -/
theorem Pushed.agree (h : Pushed getType lam φ₀ ρ₀ lf φ φ') {N : Atom → Prop} (hN : ∀ a ∈ lf, ¬ N a) :
    FEnv.Agree N φ φ' ∧ FEnv.Agree N φ' φ ∧ FEnv.Agree N φ₀ φ' ∧ FEnv.Agree N φ' φ₀ := by
  induction h with
  | base => exact ⟨agree_refl, agree_refl, agree_refl, agree_refl⟩
  | @group lf nlf φ φ' ds ρ h hn hd hp hl hk ih =>
    obtain ⟨h₁, h₂, h₃, h₄⟩ := ih fun a ha => hN a (by rw [hn]; exact Finset.mem_union_left _ ha)
    have hds : ∀ a, N a → a ∉ ds.map FuncDef.name := fun a ha hmem =>
      hN a (by rw [hn]; exact Finset.mem_union_right _ (List.mem_toFinset.2 hmem)) ha
    have hds' : ∀ a, N a → a ∉ (defs' getType lam nlf ds).map FuncDef.name := by
      rw [defs_names]
      exact hds
    exact ⟨.skip hds (.extra hds' h₁), .skip hds' (.extra hds h₂), .extra hds' h₃, .skip hds' h₄⟩

end Environments

/-! ### Runs -/

/-- What the function makes of the outcome of a run. -/
inductive Cont (P : Prog) (lam : Lam) (φ : FEnv) (ρ : Frame) : Out → List Action → Out → Prop where
  | ret {ws ys bs zs out} (hl : Binds lam.bind ws ys bs) (h : Run P φ (ρ.extend bs) lam.exp zs out) :
      Cont P lam φ ρ (.ret ws) (ys ++ zs) out
  | stop {out} (h : ∀ ws, out ≠ .ret ws) : Cont P lam φ ρ out [] out

section Runs

variable {P : Prog} {getType : Exp → List Ty} {lam : Lam} {φ₀ φ φ' : FEnv} {ρ₀ ρ ρ' : Frame} {lf : Finset Atom} {e : Exp}
  {us xs ys : List Action} {o out : Out}

theorem run_bind_iff : Run P φ ρ (.bind e lam) us out ↔
    ∃ xs o ys, Run P φ ρ e xs o ∧ Cont P lam φ ρ o ys out ∧ us = xs ++ ys := by
  constructor
  · intro h
    cases h with
    | does h => cases h
    | cut => exact ⟨[], .cut, [], .cut, .stop fun _ => Out.noConfusion, rfl⟩
    | bind h₁ hl h₂ => exact ⟨_, _, _, h₁, .ret hl h₂, rfl⟩
    | bindStop h hout => exact ⟨_, _, [], h, .stop hout, (List.append_nil _).symm⟩
    | enter hent hφ hf hl h => cases hent
  · rintro ⟨xs, o, ys, h, hc, rfl⟩
    cases hc with
    | ret hl hz => exact .bind h hl hz
    | stop hout =>
      rw [List.append_nil]
      exact .bindStop h hout

theorem Cont.congr (h : Cont P lam φ ρ o ys out) (hφ : FEnv.Agree (fun a => Names a lam.exp) φ φ')
    (hρ : ∀ x, Free x lam.exp → ¬ HasVar x lam.bind → ρ' x = ρ x) : Cont P lam φ' ρ' o ys out := by
  cases h with
  | ret hl hz =>
    refine .ret hl (run_agree hz (fun x hx => ?_) hφ)
    exact extend_congr fun hnot => hρ x hx fun huse => hnot ((binds_names hl).2 huse)
  | stop hout => exact .stop hout

/-- An expression that is bound as a whole. -/
theorem run_whole_iff (hp : Pushed getType lam φ₀ ρ₀ lf φ φ') (hk : Kept lam ρ₀ ρ) (hw : Whole lf e) :
    Run P φ' ρ (.bind e lam) us out ↔ ∃ xs o ys, Run P φ ρ e xs o ∧ Cont P lam φ₀ ρ₀ o ys out ∧ us = xs ++ ys := by
  rw [run_bind_iff]
  obtain ⟨h₁, h₂, -, -⟩ := hp.agree hw
  obtain ⟨-, -, h₃, h₄⟩ := hp.agree hp.names
  constructor
  · rintro ⟨xs, o, ys, h, hc, rfl⟩
    exact ⟨xs, o, ys, run_agree h (fun _ _ => rfl) h₂, hc.congr h₄ fun x hx hnot => (hk x hx hnot).symm, rfl⟩
  · rintro ⟨xs, o, ys, h, hc, rfl⟩
    exact ⟨xs, o, ys, run_agree h (fun _ _ => rfl) h₁, hc.congr h₃ hk, rfl⟩

theorem run_updateLetProps {ds : List FuncDef} {b : Exp} {props : Option LetProps}
    (h : Run P ((ds, ρ) :: φ) ρ b xs out) : Run P φ ρ (updateLetProps (.lett ds b props)) xs out := by
  cases ds with
  | nil => exact run_agree h (fun _ _ => rfl) (.skip (fun _ _ => List.not_mem_nil) agree_refl)
  | cons d ds => exact .lett h

theorem leaf_run (h : Run P φ ρ e xs o) (hc : Cont P lam φ₀ ρ₀ o ys out) (hl : e.Leaf) (hw : Whole lf e)
    (hp : Pushed getType lam φ₀ ρ₀ lf φ φ') (hk : Kept lam ρ₀ ρ) : Run P φ' ρ (f getType lam lf e) (xs ++ ys) out := by
  rw [f_leaf hl hw]
  exact (run_whole_iff hp hk hw).2 ⟨xs, o, ys, h, hc, rfl⟩

/-- A run of the expression, and what the function makes of its outcome, is a run with the tails
extended. -/
theorem extended_run (h : Run P φ ρ e xs o) (hc : Cont P lam φ₀ ρ₀ o ys out) (he : Extends lam lf e)
    (hp : Pushed getType lam φ₀ ρ₀ lf φ φ') (hk : Kept lam ρ₀ ρ) : Run P φ' ρ (f getType lam lf e) (xs ++ ys) out := by
  induction h generalizing lf φ' with
  | does h =>
    cases he with
    | leaf hl hw => exact leaf_run (.does h) hc hl hw hp hk
    | _ => cases h
  | cut =>
    cases hc with
    | stop => exact .cut
  | error =>
    cases he with
    | error =>
      cases hc with
      | stop => exact .error
    | leaf hl hw => exact hl.elim
  | bind h₁ hl h₂ ih₁ ih₂ =>
    cases he with
    | bind hw hpat h =>
      have hrest := ih₂ hc h hp (hk.extend hpat hl)
      rw [List.append_assoc, List.append_assoc]
      exact .bind (run_agree h₁ (fun _ _ => rfl) (hp.agree hw).1) hl hrest
    | leaf hl hw => exact hl.elim
  | bindStop h hout ih =>
    cases he with
    | bind hw hpat hext =>
      cases hc with
      | ret hl hz => exact absurd rfl (hout _)
      | stop =>
        rw [List.append_nil]
        exact .bindStop (run_agree h (fun _ _ => rfl) (hp.agree hw).1) hout
    | leaf hl hw => exact hl.elim
  | case hv hl h ih =>
    cases he with
    | case hext hpat =>
      obtain ⟨hmem, _, hbind⟩ := selects_mem hl
      have hrest := ih hc (hext _ hmem) hp (hk.extend (hpat _ hmem) hbind)
      rw [List.append_assoc, List.append_assoc]
      rw [← g_exp] at hrest
      exact .case hv (selects_gs hl) hrest
    | leaf hl hw => exact hl.elim
  | enter hent hφ hf hl h ih =>
    cases he with
    | leaf hleaf hw => exact leaf_run (.enter hent hφ hf hl h) hc hleaf hw hp hk
    | jump ha =>
      cases hent with
      | app hv =>
        obtain ⟨d, ρ', ψ, ψ', nlf, hfind, -⟩ := hp.find ha
        rw [hφ (Finset.mem_singleton_self _)] at hfind
        cases hfind
    | _ => cases hent
  | @jump φ ρ a vs ty xs ws d₁ ρ₁ φ₁ ys₁ bs zs o hv hφ hl h ih =>
    cases he with
    | leaf hleaf hw => exact leaf_run (.jump hv hφ hl h) hc hleaf hw hp hk
    | jump ha =>
      obtain ⟨d, ρ', ψ, ψ', nlf, hfind, hfind', hp', hext, hpat, hk'⟩ := hp.find ha
      rw [hφ] at hfind
      cases hfind
      have hrest := ih hc hext hp' (hk'.extend hpat hl)
      rw [f_jump ha, List.append_assoc, List.append_assoc]
      have hbind : Binds (g getType lam nlf d₁.body).bind ws ys₁ bs := by
        rw [g_bind]
        exact hl
      rw [← g_exp] at hrest
      exact .jump hv hfind' hbind hrest
  | lett h ih =>
    cases he with
    | leaf hleaf hw => exact leaf_run (.lett h) hc hleaf hw hp hk
    | lett hn hb hd hpat hl =>
      rw [f_lett hn]
      exact run_updateLetProps (ih hc hb (.group hp rfl hd hpat hl hk) hk)
  | newRegion hl h ih =>
    cases he with
    | leaf hleaf hw => exact leaf_run (.newRegion hl h) hc hleaf hw hp hk
  | gcRoots h ih =>
    cases he with
    | leaf hleaf hw => exact leaf_run (.gcRoots h) hc hleaf hw hp hk

/-- The form, where `Let`s without functions are taken away, as `updateLetProps` does. -/
theorem form_of_extends (getType : Exp → List Ty) (he : Extends lam lf e) :
    ∃ e₁, Form getType lam lf e₁ (f getType lam lf e) ∧
      ∀ {P : Prog} {φ : FEnv} {ρ : Frame} {xs : List Action} {o : Out}, Run P φ ρ e₁ xs o → Run P φ ρ e xs o := by
  induction he with
  | @lett lf ds b props hn hb hd hp hl ihb ihd =>
    cases ds with
    | nil =>
      have hlf : lf ∪ (([] : List FuncDef).map FuncDef.name).toFinset = lf := Finset.union_empty lf
      rw [hlf] at ihb
      obtain ⟨e₁, hform, hrun⟩ := ihb
      refine ⟨e₁, ?_, fun h => .lett ?_⟩
      · rw [f_lett hn, hlf]
        exact hform
      · exact run_agree (hrun h) (fun _ _ => rfl) (.extra (fun _ _ => List.not_mem_nil) agree_refl)
    | cons d ds =>
      have hlett : ∃ props', f getType lam lf (.lett (d :: ds) b props) =
          .lett (defs' getType lam (lf ∪ ((d :: ds).map FuncDef.name).toFinset) (d :: ds))
            (f getType lam (lf ∪ ((d :: ds).map FuncDef.name).toFinset) b) props' := by
        rw [f_lett hn, defs_eq]
        exact ⟨_, rfl⟩
      obtain ⟨props', hlett⟩ := hlett
      refine ⟨_, ?_, id⟩
      rw [hlett]
      exact .lett rfl hb hd hp hl
  | leaf hl hw =>
    refine ⟨_, ?_, id⟩
    rw [f_leaf hl hw]
    exact .leaf hw
  | jump h =>
    refine ⟨_, ?_, id⟩
    rw [f_jump h]
    exact .jump h
  | error => exact ⟨_, .error, id⟩
  | case h hp => exact ⟨_, .case h hp, id⟩
  | mkCont hc hl => exact ⟨_, .mkCont, id⟩
  | bind hw hp h => exact ⟨_, .bind hw hp h, id⟩

/-- The runs of the expression with its tails extended that a run of the expression, and of the
function after it, accounts for. -/
def Accounted (P : Prog) (lam : Lam) (φ₀ : FEnv) (ρ₀ : Frame) (φ : FEnv) (ρ : Frame) (e : Exp) (us : List Action) (out : Out) : Prop :=
  ∃ xs o ys, Run P φ ρ e xs o ∧ Cont P lam φ₀ ρ₀ o ys out ∧ us = xs ++ ys

theorem Accounted.mono {e₁ : Exp} (h : Accounted P lam φ₀ ρ₀ φ ρ e₁ us out)
    (hrun : ∀ {xs : List Action} {o : Out}, Run P φ ρ e₁ xs o → Run P φ ρ e xs o) :
    Accounted P lam φ₀ ρ₀ φ ρ e us out := by
  obtain ⟨xs, o, ys, h, hc, rfl⟩ := h
  exact ⟨xs, o, ys, hrun h, hc, rfl⟩

theorem accounted_of_run {e' : Exp} (h : Run P φ' ρ e' us out) (hform : Form getType lam lf e e')
    (hp : Pushed getType lam φ₀ ρ₀ lf φ φ') (hk : Kept lam ρ₀ ρ) : Accounted P lam φ₀ ρ₀ φ ρ e us out := by
  induction h generalizing lf e φ with
  | cut => exact ⟨[], .cut, [], .cut, .stop fun _ => Out.noConfusion, rfl⟩
  | does h =>
    -- no form is an operation
    cases hform <;> cases h
  | error =>
    cases hform with
    | error => exact ⟨[], _, [], .error, .stop fun _ => Out.noConfusion, rfl⟩
  | bind h₁ hl h₂ ih₁ ih₂ =>
    cases hform with
    | bind hw hpat hext =>
      obtain ⟨e₁, hform, hrun⟩ := form_of_extends getType hext
      obtain ⟨xs, o, ys, h, hc, hus⟩ := (ih₂ hform hp (hk.extend hpat hl)).mono hrun
      refine ⟨_, o, ys, .bind (run_agree h₁ (fun _ _ => rfl) (hp.agree hw).2.1) hl h, hc, ?_⟩
      rw [hus, List.append_assoc, List.append_assoc]
    | leaf hw => exact (run_whole_iff hp hk hw).1 (.bind h₁ hl h₂)
  | bindStop h hout ih =>
    cases hform with
    | bind hw hpat hext =>
      refine ⟨_, _, [], .bindStop (run_agree h (fun _ _ => rfl) (hp.agree hw).2.1) hout, .stop hout, ?_⟩
      rw [List.append_nil]
    | leaf hw => exact (run_whole_iff hp hk hw).1 (.bindStop h hout)
  | case hv hl h ih =>
    cases hform with
    | case hext hpat =>
      obtain ⟨l, hsel, rfl⟩ := selects_of_gs hl
      obtain ⟨hmem, _, hbind⟩ := selects_mem hsel
      obtain ⟨e₁, hform, hrun⟩ := form_of_extends getType (hext l hmem)
      rw [← g_exp] at hform
      obtain ⟨xs, o, ys, h, hc, hus⟩ := (ih hform hp (hk.extend (hpat l hmem) hbind)).mono hrun
      refine ⟨_, o, ys, .case hv hsel h, hc, ?_⟩
      rw [hus, List.append_assoc, List.append_assoc]
  | enter hent hφ hf hl h ih =>
    cases hform with
    | jump ha =>
      cases hent with
      | app hv =>
        obtain ⟨d, ρ', ψ, ψ', nlf, -, hfind, -⟩ := hp.find ha
        rw [hφ (Finset.mem_singleton_self _)] at hfind
        cases hfind
    | _ => cases hent
  | @jump φ' ρ a vs ty xs ws d₁ ρ₁ φ₁ ys₁ bs zs o hv hφ hl h ih =>
    cases hform with
    | jump ha =>
      obtain ⟨d, ρ', ψ, ψ', nlf, hfind, hfind', hp', hext, hpat, hk'⟩ := hp.find ha
      rw [hφ] at hfind'
      cases hfind'
      have hpattern : (extended getType lam nlf d).body.bind = d.body.bind := g_bind d.body
      have hbind : Binds d.body.bind ws ys₁ bs := by
        rw [← hpattern]
        exact hl
      obtain ⟨e₁, hform, hrun⟩ := form_of_extends getType hext
      rw [← g_exp] at hform
      obtain ⟨xs, o, ys, h, hc, hus⟩ := (ih hform hp' (hk'.extend hpat hbind)).mono hrun
      refine ⟨_, o, ys, .jump hv hfind hbind h, hc, ?_⟩
      rw [hus, List.append_assoc, List.append_assoc]
  | lett h ih =>
    cases hform with
    | lett hn hb hd hpat hl =>
      obtain ⟨e₁, hform, hrun⟩ := form_of_extends getType hb
      obtain ⟨xs, o, ys, h, hc, hus⟩ := (ih hform (.group hp hn hd hpat hl hk) hk).mono hrun
      exact ⟨xs, o, ys, .lett h, hc, hus⟩
  | newRegion hl h ih => cases hform
  | gcRoots h ih => cases hform

/-- Where every call of an extended function is a tail, the expression with its tails extended has the
runs of the expression bound to the function, from every state. -/
theorem modifyTail_runs_iff (h : Extends lam ∅ e) :
    Run P φ ρ (modifyTail getType lam e) us out ↔ Run P φ ρ (.bind e lam) us out := by
  rw [run_bind_iff]
  constructor
  · intro hrun
    obtain ⟨e₁, hform, hback⟩ := form_of_extends getType h
    exact (accounted_of_run hrun hform .base fun _ _ _ => rfl).mono hback
  · rintro ⟨xs, o, ys, hrun, hc, rfl⟩
    exact extended_run hrun hc h .base fun _ _ _ => rfl

end Runs

/-! ### Calls of local functions -/

def localUnit (a : Atom) : FuncDef := (FuncDef.mk a (.mk [] (.ret [])) ⟨∅, ∅⟩).updateFuncDefProps

def tick : Prim := .primPrim "tick"

def ticks : Lam := .mk [] (.prim tick [] [])

def ticked : Action := .emit ⟨tick, [], []⟩

/-- A `Let` whose tail is a call of its function. -/
def called : Exp := updateLetProps (.lett [localUnit "f"] (.app "f" [] []) none)

theorem called_extends : Extends ticks ∅ called := by
  have hnormal : ∃ q, called = .lett [localUnit "f"] (.app "f" [] []) (some q) ∧ q.isNormal = true :=
    ⟨_, rfl, by decide⟩
  obtain ⟨q, heq, hq⟩ := hnormal
  rw [heq]
  refine .lett hq (.jump (by decide)) ?_ ?_ ?_
  · intro d hd
    rw [List.mem_singleton.1 hd]
    refine .leaf trivial fun a _ hname => ?_
    cases hname with
    | app h => exact absurd h (Finset.notMem_empty a)
    | block hb h => cases hb
  · intro d hd x hx
    rw [List.mem_singleton.1 hd] at hx
    exact absurd hx hasVar_nil
  · intro d hd hname
    cases hname with
    | app h => exact absurd h (Finset.notMem_empty _)
    | block hb h => cases hb

theorem modifyTail_runs_iff_called :
    Run noFunctions [] (fun _ => none) (modifyTail (fun _ => []) ticks called) [ticked] (.ret []) ↔
      Run noFunctions [] (fun _ => none) (.bind called ticks) [ticked] (.ret []) :=
  modifyTail_runs_iff called_extends

/-- The tail of the inner `Let` is a call of the function of the outer one. The inner `Let` is not
normal, the outer one is. -/
def nested : Exp :=
  updateLetProps (.lett [localUnit "f"] (updateLetProps
    (.lett [localUnit "g"] (.bind (.app "g" [] []) (.mk [] (.app "f" [] []))) none)) none)

section Nested

variable {φ φ' : FEnv} {ρ ρ' : Frame} {xs us : List Action} {ws : List Value} {d : FuncDef}

theorem run_unit {P : Prog} (h : Run P φ ρ (.ret []) xs (.ret ws)) : xs = [] := by
  cases h with
  | does h =>
    cases h with
    | ret h =>
      cases h
      rfl
  | enter hent hφ hf hl h => cases hent

theorem run_tick {P : Prog} (h : Run P φ ρ (.prim tick [] []) xs (.ret ws)) : xs.length = 1 := by
  cases h with
  | does h =>
    cases h with
    | primCheap hp => cases hp
    | prim hp h =>
      cases h
      rfl
  | enter hent hφ hf hl h => cases hent

theorem run_localUnit {P : Prog} {a : Atom} {ty : List Ty} (hfind : φ.find a = some (localUnit a, ρ', φ'))
    (h : Run P φ ρ (.app a [] ty) xs (.ret ws)) : xs = [] := by
  cases h with
  | does h => cases h
  | enter hent hφ hf hl h =>
    cases hent with
    | app hv =>
      rw [hφ (Finset.mem_singleton_self a)] at hfind
      cases hfind
  | jump hv hφ hl h =>
    rw [hfind] at hφ
    cases hφ
    cases hv
    cases hl
    rw [run_unit h]
    rfl

theorem bind_nested_once {P : Prog} (h : Run P [] ρ (.bind nested ticks) us (.ret ws)) : us.length = 1 := by
  obtain ⟨xs, o, ys, hrun, hc, rfl⟩ := run_bind_iff.1 h
  cases hc with
  | stop hout => exact absurd rfl (hout ws)
  | ret hl htick =>
    cases hl
    have hnone : xs = [] := by
      cases hrun with
      | does h => cases h
      | enter hent hφ hf hl h => cases hent
      | lett hrun =>
        cases hrun with
        | does h => cases h
        | enter hent hφ hf hl h => cases hent
        | lett hrun =>
          obtain ⟨as, o, bs, hg, hc, rfl⟩ := run_bind_iff.1 hrun
          cases hc with
          | stop hout => exact absurd rfl (hout _)
          | ret hl hf =>
            cases hl
            rw [run_localUnit rfl hg, run_localUnit rfl hf]
            rfl
    rw [hnone]
    exact run_tick htick

end Nested

theorem nested_normal : ∃ p q, nested = .lett [localUnit "f"] (.lett [localUnit "g"]
    (.bind (.app "g" [] []) (.mk [] (.app "f" [] []))) (some p)) (some q) ∧ p.isNormal = false ∧ q.isNormal = true :=
  ⟨_, _, rfl, by decide, by decide⟩

theorem ticks_run {P : Prog} {φ : FEnv} {ρ : Frame} : Run P φ ρ (.prim tick [] []) [ticked] (.ret []) :=
  .does (@Does.prim _ _ tick [] [] [] [] [] rfl .nil)

/-- The function behind the tails is run in the body of the outer function, which the inner `Let` calls,
and once more behind the inner `Let`. -/
theorem modifyTail_nested_twice :
    Run noFunctions [] (fun _ => none) (modifyTail (fun _ => []) ticks nested) [ticked, ticked] (.ret []) ∧
      ¬ Run noFunctions [] (fun _ => none) (.bind nested ticks) [ticked, ticked] (.ret []) := by
  constructor
  · obtain ⟨p, q, heq, hp, hq⟩ := nested_normal
    have hinner : ((some p).map LetProps.isNormal).getD false = false := hp
    have houter : ((some q).map LetProps.isNormal).getD false = true := hq
    rw [heq, modifyTail, f_lett houter, f, hinner, if_neg Bool.false_ne_true]
    refine run_updateLetProps ?_
    generalize hds : defs' (fun _ => []) ticks (∅ ∪ ([localUnit "f"].map FuncDef.name).toFinset) [localUnit "f"] = ds
    have hf : Run noFunctions [([localUnit "g"], fun _ => none), (ds, fun _ => none)] (fun _ => none) (.app "f" [] [])
        [ticked] (.ret []) := by
      subst hds
      exact .jump (d := extended (fun _ => []) ticks (∅ ∪ ([localUnit "f"].map FuncDef.name).toFinset) (localUnit "f"))
        .nil rfl .nil (.bind (l := ticks) (.does (.ret .nil)) .nil ticks_run)
    have hg : Run noFunctions [([localUnit "g"], fun _ => none), (ds, fun _ => none)] (fun _ => none) (.app "g" [] []) []
        (.ret []) := .jump (d := localUnit "g") .nil rfl .nil (.does (.ret .nil))
    have hbody : Run noFunctions [(ds, fun _ => none)] (fun _ => none) (.lett [localUnit "g"]
        (.bind (.app "g" [] []) (.mk [] (.app "f" [] []))) (some p)) [ticked] (.ret []) :=
      .lett (.bind (l := .mk [] (.app "f" [] [])) hg .nil hf)
    exact .bind (l := ticks) hbody .nil ticks_run
  · intro h
    cases bind_nested_once h

end Jhc.Grin

import Jhc.Grin.Run

/-!
# Facts about runs

A run depends on the variables and the local functions that an expression mentions
only, and it names the cells only that it can reach. So the binds that the simplifier
leaves out (Grin/Noodle.hs:163-176, Grin/SSimplify.hs:123-131) are not missed.
-/

namespace Jhc.Grin
open Jhc.C (Prim primIsCheap)
open Jhc.Lib.Memory

/-! ### The variables and functions that an expression mentions -/

/-- The variable occurs in the operands or patterns. -/
def HasVar (x : Var) (vs : List Val) : Prop := ∃ t, (x, t) ∈ Val.freeVarsOf vs

inductive Free (x : Var) : Exp → Prop where
  | vals {e : Exp} (h : HasVar x e.vals) : Free x e
  | block {e : Exp} {b : List Val × Exp} (hb : b ∈ e.blocks) (h : Free x b.2) (hx : ¬ HasVar x b.1) : Free x e

/-- The function is called by its name, here or in a block. -/
inductive Names (f : Atom) : Exp → Prop where
  | app {e : Exp} (h : f ∈ e.appTag) : Names f e
  | block {e : Exp} {b : List Val × Exp} (hb : b ∈ e.blocks) (h : Names f b.2) : Names f e

section
variable {x : Var} {v w : Val} {vs ws : List Val}

@[simp] theorem hasVar_nil : ¬ HasVar x [] := by
  rintro ⟨t, h⟩
  cases h

theorem hasVar_cons : HasVar x (v :: vs) ↔ HasVar x [v] ∨ HasVar x vs := by
  simp [HasVar, Val.freeVarsOf, exists_or]

theorem hasVar_append : HasVar x (vs ++ ws) ↔ HasVar x vs ∨ HasVar x ws := by
  simp [HasVar, freeVarsOf_append, exists_or]

@[simp] theorem hasVar_var {y : Var} {ty : Ty} : HasVar x [.var y ty] ↔ x = y := by
  simp [HasVar, Val.freeVarsOf, Val.freeVars]

@[simp] theorem hasVar_lit {n : ℚ} {ty : Ty} : ¬ HasVar x [.lit n ty] := by
  simp [HasVar, Val.freeVarsOf, Val.freeVars]

@[simp] theorem hasVar_unit : ¬ HasVar x [.unit] := by simp [HasVar, Val.freeVarsOf, Val.freeVars]

@[simp] theorem hasVar_nodeC {t : Tag} : HasVar x [.nodeC t vs] ↔ HasVar x vs := by
  simp [HasVar, Val.freeVarsOf, Val.freeVars]

@[simp] theorem hasVar_const : HasVar x [.const v] ↔ HasVar x [v] := by
  simp [HasVar, Val.freeVarsOf, Val.freeVars]

@[simp] theorem hasVar_index : HasVar x [.index v w] ↔ HasVar x [v] ∨ HasVar x [w] := by
  simp [HasVar, Val.freeVarsOf, Val.freeVars, exists_or]

end

/-! ### Bindings -/

section
variable {ρ ρ' : Frame} {bs : Bindings} {x : Var} {w : Value}

theorem extend_other (h : x ∉ bs.map Prod.fst) : ρ.extend bs x = ρ x := by
  induction bs generalizing ρ with
  | nil => rfl
  | cons b bs ih =>
    simp only [List.map_cons, List.mem_cons, not_or] at h
    exact (ih h.2).trans (Function.update_of_ne h.1 _ _)

theorem extend_congr (h : x ∉ bs.map Prod.fst → ρ' x = ρ x) : ρ'.extend bs x = ρ.extend bs x := by
  induction bs generalizing ρ ρ' with
  | nil => exact h (List.not_mem_nil)
  | cons b bs ih =>
    refine ih fun hx => ?_
    simp only [Function.update_apply]
    split
    · rfl
    · next hne => exact h (by simp [hne, hx])

/-- A variable has its own value or one that was bound to it. -/
theorem extend_mem (h : ρ.extend bs x = some w) : (x, w) ∈ bs ∨ ρ x = some w := by
  induction bs generalizing ρ with
  | nil => exact .inr h
  | cons b bs ih =>
    cases ih h with
    | inl hmem => exact .inl (List.mem_cons_of_mem _ hmem)
    | inr hup =>
      simp only [Function.update_apply] at hup
      split at hup
      · next heq =>
        cases hup
        exact .inl (by simp [heq])
      · exact .inr hup

theorem extend_some (h : x ∈ bs.map Prod.fst) : ∃ w, (x, w) ∈ bs ∧ ρ.extend bs x = some w := by
  induction bs generalizing ρ with
  | nil => cases h
  | cons b bs ih =>
    by_cases hx : x ∈ bs.map Prod.fst
    · obtain ⟨w, hw, heq⟩ := ih (ρ := Function.update ρ b.1 (some b.2)) hx
      exact ⟨w, List.mem_cons_of_mem _ hw, heq⟩
    · have hb : x = b.1 := by simpa [hx] using h
      subst hb
      exact ⟨b.2, List.mem_cons_self, (extend_other hx).trans (Function.update_self _ _ _)⟩

/-- A pattern binds the variables in it. -/
theorem binds_names {ps : List Val} {ws : List Value} {xs : List Action} (h : Binds ps ws xs bs) :
    x ∈ bs.map Prod.fst ↔ HasVar x ps := by
  induction h with
  | nil => simp
  | var h ih =>
    rw [hasVar_cons]
    simp only [List.map_cons, List.mem_cons, hasVar_var, ih]
  | lit h ih =>
    rw [hasVar_cons, ih]
    simp
  | unit h ih =>
    rw [hasVar_cons, ih]
    simp
  | node ht hlen h ih =>
    rw [hasVar_cons, ih, hasVar_append, hasVar_nodeC]

end

theorem selects_mem {w : Value} {ls : List Lam} {xs : List Action} {l : Lam} {bs : Bindings}
    (h : Selects w ls xs l bs) : l ∈ ls ∧ ∃ ys, Binds l.bind [w] ys bs := by
  induction h with
  | here h => exact ⟨List.mem_cons_self, _, h⟩
  | skip h hrest ih => exact ⟨List.mem_cons_of_mem _ ih.1, ih.2⟩

/-! ### What a run depends on -/

section
variable {P : Prog} {ρ ρ' : Frame}

theorem vals_agree {vs : List Val} {xs : List Action} {ws : List Value} (h : Vals P ρ vs xs ws)
    (hρ : ∀ x, HasVar x vs → ρ' x = ρ x) : Vals P ρ' vs xs ws := by
  induction h generalizing ρ' with
  | nil => exact .nil
  | lit h ih => exact .lit (ih fun x hx => hρ x (hasVar_cons.2 (.inr hx)))
  | unit h ih => exact .unit (ih fun x hx => hρ x (hasVar_cons.2 (.inr hx)))
  | unknown h ih => exact .unknown (ih fun x hx => hρ x (hasVar_cons.2 (.inr hx)))
  | item h ih => exact .item (ih fun x hx => hρ x (hasVar_cons.2 (.inr hx)))
  | var hx h ih =>
    refine .var ?_ (ih fun y hy => hρ y (hasVar_cons.2 (.inr hy)))
    rw [hρ _ (hasVar_cons.2 (.inl (hasVar_var.2 rfl)))]
    exact hx
  | const h ih =>
    refine .const (ih fun x hx => hρ x ?_)
    rw [hasVar_cons] at hx ⊢
    rwa [hasVar_const]
  | index h ih =>
    refine .index (ih fun x hx => hρ x ?_)
    rw [hasVar_cons, hasVar_index, or_assoc, ← hasVar_cons, ← hasVar_cons]
    exact hx
  | node hlen h ih =>
    refine .node hlen (ih fun x hx => hρ x ?_)
    rw [hasVar_append] at hx
    rwa [hasVar_cons, hasVar_nodeC]
  | prim has hp h _ ih => exact .prim has hp (ih fun x hx => hρ x (hasVar_cons.2 (.inr hx)))

theorem does_agree {e : Exp} {xs : List Action} {ws : List Value} (h : Does P ρ e xs ws)
    (hρ : ∀ x, HasVar x e.vals → ρ' x = ρ x) : Does P ρ' e xs ws := by
  cases h with
  | ret h => exact .ret (vals_agree h hρ)
  | pass hop h => exact .pass hop (vals_agree h hρ)
  | storeNode h => exact .storeNode (vals_agree h hρ)
  | redirect h => exact .redirect (vals_agree h hρ)
  | overwrite hcaf h =>
    refine .overwrite hcaf (vals_agree h fun x hx => hρ x ?_)
    rw [hasVar_cons] at hx
    rwa [Exp.vals, hasVar_cons, hasVar_nodeC]
  | overwriteCaf hcaf h => exact .overwriteCaf hcaf (vals_agree h hρ)
  | peekVal h hget => exact .peekVal (vals_agree h hρ) hget
  | pokeVal h hn => exact .pokeVal (vals_agree h hρ) hn
  | consume h => exact .consume (vals_agree h hρ)
  | gcTouch h => exact .gcTouch (vals_agree h hρ)
  | gcPush h hlen => exact .gcPush (vals_agree h hρ) hlen
  | newRegister h => exact .newRegister (vals_agree h hρ)
  | readRegister h => exact .readRegister (vals_agree h hρ)
  | writeRegister h => exact .writeRegister (vals_agree h hρ)
  | evalNode h ht => exact .evalNode (vals_agree h hρ) ht
  | evalInd h => exact .evalInd (vals_agree h hρ)
  | applyPart h ht ht' hty => exact .applyPart (vals_agree h hρ) ht ht' hty
  | alloc h => exact .alloc (vals_agree h hρ)
  | primCheap hp h hop => exact .primCheap hp (vals_agree h hρ) hop
  | prim hp h => exact .prim hp (vals_agree h hρ)

theorem enters_agree {e : Exp} {xs : List Action} {f : Atom} {ws : List Value} {upd : Option ℕ}
    (h : Enters P ρ e xs f ws upd) (hρ : ∀ x, HasVar x e.vals → ρ' x = ρ x) : Enters P ρ' e xs f ws upd := by
  cases h with
  | app h => exact .app (vals_agree h hρ)
  | call h => exact .call (vals_agree h fun x hx => hρ x (hasVar_cons.2 (.inr hx)))
  | eval h ht hf => exact .eval (vals_agree h hρ) ht hf
  | apply h ht hty => exact .apply (vals_agree h hρ) ht hty

end

/-- Given the functions that are mentioned, the local functions that they lead to have
the same definitions, with the same values of the variables free in them. -/
inductive FEnv.Agree : (Atom → Prop) → FEnv → FEnv → Prop where
  | nil {N} : Agree N [] []
  | keep {N ds ρ ρ' φ φ'}
      (hρ : ∀ d ∈ ds, ∀ x, Free x d.body.exp → ¬ HasVar x d.body.bind → ρ' x = ρ x)
      (h : Agree (fun f => f ∉ ds.map FuncDef.name ∧ (N f ∨ ∃ d ∈ ds, Names f d.body.exp)) φ φ') :
      Agree N ((ds, ρ) :: φ) ((ds, ρ') :: φ')
  | skip {N ds ρ φ φ'} (hN : ∀ f, N f → f ∉ ds.map FuncDef.name) (h : Agree N φ φ') :
      Agree N ((ds, ρ) :: φ) φ'
  | extra {N ds ρ φ φ'} (hN : ∀ f, N f → f ∉ ds.map FuncDef.name) (h : Agree N φ φ') :
      Agree N φ ((ds, ρ) :: φ')

section
variable {N N' : Atom → Prop} {φ φ' : FEnv} {f : Atom}

theorem agree_mono (h : FEnv.Agree N φ φ') (hN : ∀ f, N' f → N f) : FEnv.Agree N' φ φ' := by
  induction h generalizing N' with
  | nil => exact .nil
  | keep hρ h ih => exact .keep hρ (ih fun f hf => ⟨hf.1, hf.2.imp_left (hN f)⟩)
  | skip hskip h ih => exact .skip (fun f hf => hskip f (hN f hf)) (ih hN)
  | extra hskip h ih => exact .extra (fun f hf => hskip f (hN f hf)) (ih hN)

theorem agree_refl : FEnv.Agree N φ φ := by
  induction φ generalizing N with
  | nil => exact .nil
  | cons g φ ih => exact .keep (fun _ _ _ _ _ => rfl) ih

theorem find_name {ds : List FuncDef} {d : FuncDef} (h : ds.find? (·.name = f) = some d) :
    d ∈ ds ∧ d.name = f := by
  have hname := List.find?_some h
  exact ⟨List.mem_of_find?_eq_some h, by simpa using hname⟩

theorem find_none {ds : List FuncDef} : ds.find? (·.name = f) = none ↔ f ∉ ds.map FuncDef.name := by
  rw [List.find?_eq_none]
  simp

theorem agree_find (h : FEnv.Agree N φ φ') (hf : N f) :
    (φ.find f = none → φ'.find f = none) ∧
      ∀ d ρ ψ, φ.find f = some (d, ρ, ψ) → ∃ ρ' ψ', φ'.find f = some (d, ρ', ψ') ∧
        (∀ x, Free x d.body.exp → ¬ HasVar x d.body.bind → ρ' x = ρ x) ∧
        FEnv.Agree (fun g => Names g d.body.exp) ψ ψ' := by
  induction h with
  | nil => exact ⟨id, fun d ρ ψ h => by cases h⟩
  | @keep N ds ρ ρ' φ φ' hρ h ih =>
    simp only [FEnv.find]
    cases hfind : ds.find? (·.name = f) with
    | none =>
      have hnew : f ∉ ds.map FuncDef.name := find_none.1 hfind
      exact ih ⟨hnew, .inl hf⟩
    | some d =>
      refine ⟨fun h => (by cases h), ?_⟩
      intro d' ρ₁ ψ heq
      simp only [Option.some.injEq, Prod.mk.injEq] at heq
      obtain ⟨rfl, rfl, rfl⟩ := heq
      obtain ⟨hd, -⟩ := find_name hfind
      refine ⟨ρ', (ds, ρ') :: φ', rfl, hρ _ hd, .keep hρ (agree_mono h fun g hg => ?_)⟩
      refine ⟨hg.1, .inr ?_⟩
      rcases hg.2 with hmem | hmem
      · exact ⟨_, hd, hmem⟩
      · exact hmem
  | @skip N ds ρ φ φ' hN h ih =>
    simp only [FEnv.find, find_none.2 (hN f hf)]
    exact ih hf
  | @extra N ds ρ φ φ' hN h ih =>
    simp only [FEnv.find, find_none.2 (hN f hf)]
    exact ih hf

end

section
variable {P : Prog} {ρ ρ' : Frame} {φ φ' : FEnv} {e : Exp} {xs : List Action} {out : Out}

theorem free_block {b : List Val × Exp} {bs : Bindings} {ws : List Value} {ys : List Action} (hb : b ∈ e.blocks)
    (hbind : Binds b.1 ws ys bs) (hρ : ∀ x, Free x e → ρ' x = ρ x) (x : Var) (hx : Free x b.2) :
    ρ'.extend bs x = ρ.extend bs x := by
  refine extend_congr fun hnot => hρ x (.block hb hx fun huse => hnot ?_)
  exact (binds_names hbind).2 huse

/-- A run depends on what the expression mentions. -/
theorem run_agree (h : Run P φ ρ e xs out) (hρ : ∀ x, Free x e → ρ' x = ρ x)
    (hφ : FEnv.Agree (fun f => Names f e) φ φ') : Run P φ' ρ' e xs out := by
  induction h generalizing ρ' φ' with
  | does h => exact .does (does_agree h fun x hx => hρ x (.vals hx))
  | cut => exact .cut
  | error => exact .error
  | bind h₁ hl h₂ ih₁ ih₂ =>
    refine .bind (ih₁ (fun x hx => hρ x ?_) (agree_mono hφ fun f hf => ?_)) hl
      (ih₂ (free_block (b := (_, _)) ?_ hl hρ) (agree_mono hφ fun f hf => ?_))
    · exact .block List.mem_cons_self hx hasVar_nil
    · exact .block List.mem_cons_self hf
    · exact List.mem_cons_of_mem _ List.mem_cons_self
    · exact .block (List.mem_cons_of_mem _ List.mem_cons_self) hf
  | bindStop h hout ih =>
    refine .bindStop (ih (fun x hx => hρ x ?_) (agree_mono hφ fun f hf => ?_)) hout
    · exact .block List.mem_cons_self hx hasVar_nil
    · exact .block List.mem_cons_self hf
  | case hv hl h ih =>
    obtain ⟨hmem, ys', hbind⟩ := selects_mem hl
    refine .case (vals_agree hv fun x hx => hρ x (.vals hx)) hl
      (ih (free_block (b := (_, _)) (List.mem_map_of_mem hmem) hbind hρ) (agree_mono hφ fun f hf => ?_))
    exact .block (List.mem_map_of_mem hmem) hf
  | enter he hfind hf hl h ih =>
    refine .enter (enters_agree he fun x hx => hρ x (.vals hx)) (fun happ => ?_) hf hl h
    exact (agree_find hφ (.app happ)).1 (hfind happ)
  | jump hv hfind hl h ih =>
    obtain ⟨ρ₁, φ₁, hfind', hρ₁, hφ₁⟩ := (agree_find hφ (.app (by simp [Exp.appTag]))).2 _ _ _ hfind
    refine .jump (vals_agree hv fun x hx => hρ x (.vals hx)) hfind' hl (ih (fun x hx => ?_) hφ₁)
    exact extend_congr fun hnot => hρ₁ x hx fun huse => hnot ((binds_names hl).2 huse)
  | lett h ih =>
    refine .lett (ih (fun x hx => hρ x ?_) (.keep (fun d hd x hx hnot => hρ x ?_) (agree_mono hφ fun f hf => ?_)))
    · exact .block List.mem_cons_self hx hasVar_nil
    · exact .block (List.mem_cons_of_mem _ (List.mem_map_of_mem hd)) hx hnot
    · rcases hf.2 with hbody | ⟨d, hd, hname⟩
      · exact .block List.mem_cons_self hbody
      · exact .block (List.mem_cons_of_mem _ (List.mem_map_of_mem hd)) hname
  | newRegion hl h ih =>
    refine .newRegion hl (ih (free_block (b := (_, _)) List.mem_cons_self hl hρ) (agree_mono hφ fun f hf => ?_))
    exact .block List.mem_cons_self hf
  | gcRoots h ih =>
    refine .gcRoots (ih (fun x hx => hρ x ?_) (agree_mono hφ fun f hf => ?_))
    · exact .block List.mem_cons_self hx hasVar_nil
    · exact .block List.mem_cons_self hf

end

/-! ### The cells that a run reaches -/

@[simp] theorem ptrsOf_nil : Value.ptrsOf [] = ∅ := by
  ext a
  simp [Value.ptrsOf]

@[simp] theorem ptrsOf_cons {w : Value} {ws : List Value} :
    Value.ptrsOf (w :: ws) = w.ptrs ∪ Value.ptrsOf ws := by
  ext a
  simp [Value.ptrsOf]

@[simp] theorem ptrsOf_append {vs ws : List Value} :
    Value.ptrsOf (vs ++ ws) = Value.ptrsOf vs ∪ Value.ptrsOf ws := by
  induction vs with
  | nil => simp
  | cons v vs ih => simp [ih, Set.union_assoc]

theorem ptrs_of_mem {w : Value} {ws : List Value} (h : w ∈ ws) : w.ptrs ⊆ Value.ptrsOf ws :=
  fun _ ha => ⟨w, h, ha⟩

theorem ptrsOf_subset {ws : List Value} {D : Set ℕ} (h : ∀ w ∈ ws, w.ptrs ⊆ D) : Value.ptrsOf ws ⊆ D := by
  intro a ha
  obtain ⟨w, hw, ha⟩ := ha
  exact h w hw ha

/-- The values point into the set. -/
def Frame.Within (D : Set ℕ) (ρ : Frame) : Prop := ∀ x w, ρ x = some w → w.ptrs ⊆ D

def FEnv.Within (D : Set ℕ) (φ : FEnv) : Prop := ∀ g ∈ φ, g.2.Within D

def Out.ptrs : Out → Set ℕ
  | ret ws => Value.ptrsOf ws
  | abort _ => ∅
  | cut => ∅

section
variable {P : Prog} {ρ : Frame} {φ : FEnv} {e : Exp} {xs : List Action} {ws : List Value} {bs : Bindings}
  {D D' : Set ℕ}

theorem within_mono (h : ρ.Within D) (hD : D ⊆ D') : ρ.Within D' := fun x w hx => (h x w hx).trans hD

theorem fenv_within_mono (h : φ.Within D) (hD : D ⊆ D') : φ.Within D' :=
  fun g hg => within_mono (h g hg) hD

theorem extend_within (h : ρ.Within D) (hbs : ∀ b ∈ bs, b.2.ptrs ⊆ D) : (ρ.extend bs).Within D := by
  intro x w hx
  cases extend_mem hx with
  | inl hmem => exact hbs _ hmem
  | inr hold => exact h x w hold

theorem find_within {f : Atom} {d : FuncDef} {ψ : FEnv} (hφ : φ.Within D)
    (h : φ.find f = some (d, ρ, ψ)) : ρ.Within D ∧ ψ.Within D := by
  induction φ with
  | nil => cases h
  | cons g φ ih =>
    obtain ⟨ds, ρ'⟩ := g
    simp only [FEnv.find] at h
    cases hfind : ds.find? (·.name = f) with
    | none =>
      rw [hfind] at h
      exact ih (fun g hg => hφ g (List.mem_cons_of_mem _ hg)) h
    | some d' =>
      rw [hfind] at h
      simp only [Option.some.injEq, Prod.mk.injEq] at h
      obtain ⟨rfl, rfl, rfl⟩ := h
      exact ⟨hφ _ List.mem_cons_self, hφ⟩

theorem vals_safe {vs : List Val} (h : Vals P ρ vs xs ws) (hρ : ρ.Within D) :
    Safe D xs ∧ Value.ptrsOf ws ⊆ known D xs := by
  induction h with
  | nil => exact ⟨trivial, by simp⟩
  | lit h ih => exact ⟨(ih hρ).1, by simpa [Value.ptrs] using (ih hρ).2⟩
  | unit h ih => exact ⟨(ih hρ).1, by simpa [Value.ptrs] using (ih hρ).2⟩
  | unknown h ih => exact ⟨(ih hρ).1, by simpa [Value.ptrs] using (ih hρ).2⟩
  | item h ih => exact ⟨(ih hρ).1, by simpa [Value.ptrs] using (ih hρ).2⟩
  | var hx h ih =>
    obtain ⟨hs, hk⟩ := ih hρ
    rw [ptrsOf_cons]
    exact ⟨hs, Set.union_subset ((hρ _ _ hx).trans le_known) hk⟩
  | const h ih => exact ih hρ
  | index h ih =>
    obtain ⟨hs, hk⟩ := ih hρ
    refine ⟨hs, ?_⟩
    simpa [Value.ptrs] using hk
  | node hlen h ih =>
    obtain ⟨hs, hk⟩ := ih hρ
    rw [ptrsOf_append, Set.union_subset_iff] at hk
    refine ⟨safe_append.2 ⟨hs, hk.1, trivial⟩, ?_⟩
    rw [known_append, ptrsOf_cons]
    exact Set.union_subset (by simp [Value.ptrs, known, Act.known]) (hk.2.trans le_known)
  | prim has hp h ihas ih =>
    obtain ⟨hs, hk⟩ := ih hρ
    obtain ⟨-, hus⟩ := ihas (fun _ _ h => by cases h)
    rw [ptrsOf_cons]
    refine ⟨hs, Set.union_subset ?_ hk⟩
    have hw := P.primOp_ptrs hp
    rw [ptrsOf_cons, ptrsOf_nil, Set.union_empty] at hw
    exact (hw.trans hus).trans le_known

theorem binds_safe {ps : List Val} (h : Binds ps ws xs bs) (hws : Value.ptrsOf ws ⊆ D) :
    Safe D xs ∧ ∀ b ∈ bs, b.2.ptrs ⊆ known D xs := by
  induction h generalizing D with
  | nil => exact ⟨trivial, by simp⟩
  | var h ih =>
    rw [ptrsOf_cons, Set.union_subset_iff] at hws
    obtain ⟨hs, hbs⟩ := ih hws.2
    refine ⟨hs, fun b hb => ?_⟩
    cases List.mem_cons.1 hb with
    | inl heq =>
      rw [heq]
      exact hws.1.trans le_known
    | inr hmem => exact hbs b hmem
  | lit h ih =>
    rw [ptrsOf_cons, Set.union_subset_iff] at hws
    exact ih hws.2
  | unit h ih =>
    rw [ptrsOf_cons, Set.union_subset_iff] at hws
    exact ih hws.2
  | @node t ps qs a vs ws xs bs ht hlen h ih =>
    rw [ptrsOf_cons, Set.union_subset_iff] at hws
    have hfields : Value.ptrsOf (vs ++ ws) ⊆ D ∪ Value.ptrsOf vs := by
      rw [ptrsOf_append]
      exact Set.union_subset Set.subset_union_right (hws.2.trans Set.subset_union_left)
    exact ⟨⟨hws.1 rfl, (ih hfields).1⟩, (ih hfields).2⟩

theorem skips_safe {ps : List Val} {w : Value} (h : Skips ps w xs) (hw : w.ptrs ⊆ D) : Safe D xs := by
  cases h with
  | node ht hne => exact ⟨hw rfl, trivial⟩
  | lit hne => trivial

theorem selects_safe {w : Value} {ls : List Lam} {l : Lam} (h : Selects w ls xs l bs) (hw : w.ptrs ⊆ D) :
    Safe D xs ∧ ∀ b ∈ bs, b.2.ptrs ⊆ known D xs := by
  induction h generalizing D with
  | here h => exact binds_safe h (by simpa using hw)
  | @skip l ls xs ys l' bs hskip hrest ih =>
    have hw' : w.ptrs ⊆ known D xs := hw.trans le_known
    obtain ⟨hs, hbs⟩ := ih hw'
    refine ⟨safe_append.2 ⟨skips_safe hskip hw, hs⟩, ?_⟩
    rw [known_append]
    exact hbs

theorem does_safe (h : Does P ρ e xs ws) (hρ : ρ.Within D) : Safe D xs ∧ Value.ptrsOf ws ⊆ known D xs := by
  cases h with
  | ret h => exact vals_safe h hρ
  | pass hop h => exact vals_safe h hρ
  | storeNode h =>
    obtain ⟨hs, hk⟩ := vals_safe h hρ
    rw [ptrsOf_cons, Set.union_subset_iff] at hk
    exact ⟨hs, by simpa using hk.1⟩
  | redirect h =>
    obtain ⟨hs, hk⟩ := vals_safe h hρ
    simp only [ptrsOf_cons, ptrsOf_nil, Set.union_empty, Set.union_subset_iff] at hk
    exact ⟨safe_append.2 ⟨hs, ⟨hk.1 rfl, hk.2⟩, trivial⟩, by simp⟩
  | overwrite hcaf h =>
    obtain ⟨hs, hk⟩ := vals_safe h hρ
    simp only [ptrsOf_cons, Set.union_subset_iff] at hk
    exact ⟨safe_append.2 ⟨hs, ⟨hk.1 rfl, hk.2⟩, trivial⟩, by simp⟩
  | overwriteCaf hcaf h =>
    obtain ⟨hs, hk⟩ := vals_safe h hρ
    simp only [ptrsOf_cons, ptrsOf_nil, Set.union_empty, Set.union_subset_iff] at hk
    exact ⟨safe_append.2 ⟨hs, ⟨hk.1 rfl, hk.2⟩, trivial⟩, by simp⟩
  | peekVal h hget =>
    obtain ⟨hs, hk⟩ := vals_safe h hρ
    simp only [ptrsOf_cons, ptrsOf_nil, Set.union_empty] at hk
    refine ⟨safe_append.2 ⟨hs, hk rfl, trivial⟩, ?_⟩
    rw [known_append, ptrsOf_cons, ptrsOf_nil, Set.union_empty]
    exact (ptrs_of_mem (List.mem_of_getElem? hget)).trans Set.subset_union_right
  | @pokeVal v u xs a vs w n h hn =>
    obtain ⟨hs, hk⟩ := vals_safe h hρ
    simp only [ptrsOf_cons, ptrsOf_nil, Set.union_empty, Set.union_subset_iff] at hk
    have hset : Value.ptrsOf (vs.set n w) ⊆ known D xs ∪ Value.ptrsOf vs := by
      refine ptrsOf_subset fun u hu => ?_
      cases List.mem_or_eq_of_mem_set hu with
      | inl hmem => exact (ptrs_of_mem hmem).trans Set.subset_union_right
      | inr heq =>
        rw [heq]
        exact hk.2.trans Set.subset_union_left
    exact ⟨safe_append.2 ⟨hs, hk.1 rfl, ⟨.inl (hk.1 rfl), hset⟩, trivial⟩, by simp⟩
  | consume h => exact ⟨(vals_safe h hρ).1, by simp⟩
  | gcTouch h => exact ⟨(vals_safe h hρ).1, by simp⟩
  | @gcPush vs xs ws as h hlen =>
    obtain ⟨hs, hk⟩ := vals_safe h hρ
    rw [safe_append, known_append]
    have hregs : ∀ (as : List ℕ) (ws : List Value) (D : Set ℕ), as.length = ws.length →
        Value.ptrsOf ws ⊆ D →
        Safe D (List.zipWith (fun a w => (.alloc a (.register w) : Action)) as ws) ∧
          Value.ptrsOf (as.map fun a => .ptr a 0) ⊆
            known D (List.zipWith (fun a w => (.alloc a (.register w) : Action)) as ws) := by
      intro as
      induction as with
      | nil =>
        intro ws D _ _
        exact ⟨trivial, by simp⟩
      | cons a as ih =>
        intro ws D hlen hws
        cases ws with
        | nil => cases hlen
        | cons w ws =>
          rw [ptrsOf_cons, Set.union_subset_iff] at hws
          obtain ⟨hs', hk'⟩ := ih ws (insert a D) (by simpa using hlen) (hws.2.trans (Set.subset_insert a D))
          refine ⟨⟨hws.1, hs'⟩, ?_⟩
          rw [List.map_cons, ptrsOf_cons]
          refine Set.union_subset ?_ hk'
          have ha : (Value.ptr a 0).ptrs ⊆ insert a D := by simp [Value.ptrs]
          exact ha.trans le_known
    exact ⟨⟨hs, (hregs as ws _ hlen hk).1⟩, (hregs as ws _ hlen hk).2⟩
  | newRegister h =>
    obtain ⟨hs, hk⟩ := vals_safe h hρ
    simp only [ptrsOf_cons, ptrsOf_nil, Set.union_empty] at hk
    refine ⟨safe_append.2 ⟨hs, hk, trivial⟩, ?_⟩
    rw [known_append]
    simp [Value.ptrs, known, Act.known]
  | readRegister h =>
    obtain ⟨hs, hk⟩ := vals_safe h hρ
    simp only [ptrsOf_cons, ptrsOf_nil, Set.union_empty] at hk
    refine ⟨safe_append.2 ⟨hs, hk rfl, trivial⟩, ?_⟩
    rw [known_append, ptrsOf_cons, ptrsOf_nil, Set.union_empty]
    exact Set.subset_union_right
  | writeRegister h =>
    obtain ⟨hs, hk⟩ := vals_safe h hρ
    simp only [ptrsOf_cons, ptrsOf_nil, Set.union_empty, Set.union_subset_iff] at hk
    exact ⟨safe_append.2 ⟨hs, ⟨hk.1 rfl, hk.2⟩, trivial⟩, by simp⟩
  | evalNode h ht =>
    obtain ⟨hs, hk⟩ := vals_safe h hρ
    have ha := hk
    simp only [ptrsOf_cons, ptrsOf_nil, Set.union_empty] at ha
    refine ⟨safe_append.2 ⟨hs, ha rfl, trivial⟩, ?_⟩
    rw [known_append]
    exact hk.trans le_known
  | evalInd h =>
    obtain ⟨hs, hk⟩ := vals_safe h hρ
    simp only [ptrsOf_cons, ptrsOf_nil, Set.union_empty] at hk
    refine ⟨safe_append.2 ⟨hs, hk rfl, trivial⟩, ?_⟩
    rw [known_append, ptrsOf_cons, ptrsOf_nil, Set.union_empty]
    exact Set.subset_union_right
  | @applyPart ts v us xs a ws t fs f t' b n h ht ht' hty =>
    obtain ⟨hs, hk⟩ := vals_safe h hρ
    simp only [ptrsOf_cons, Set.union_subset_iff] at hk
    refine ⟨safe_append.2 ⟨hs, hk.1 rfl, ?_, trivial⟩, ?_⟩
    · have hfs : Value.ptrsOf (fs ++ ws) ⊆ known D xs ∪ Value.ptrsOf fs := by
        rw [ptrsOf_append]
        exact Set.union_subset Set.subset_union_right (hk.2.trans Set.subset_union_left)
      exact hfs
    · rw [known_append]
      simp [Value.ptrs, known, Act.known]
  | alloc h =>
    obtain ⟨hs, hk⟩ := vals_safe h hρ
    simp only [ptrsOf_cons, ptrsOf_nil, Set.union_subset_iff] at hk
    refine ⟨safe_append.2 ⟨hs, ?_, trivial⟩, ?_⟩
    · refine ptrsOf_subset fun u hu => ?_
      rw [List.eq_of_mem_replicate hu]
      exact hk.1
    · rw [known_append]
      simp [Value.ptrs, known, Act.known]
  | primCheap hp h hop =>
    obtain ⟨hs, hk⟩ := vals_safe h hρ
    exact ⟨hs, (P.primOp_ptrs hop).trans hk⟩
  | prim hp h =>
    obtain ⟨hs, hk⟩ := vals_safe h hρ
    refine ⟨safe_append.2 ⟨hs, hk, trivial⟩, ?_⟩
    rw [known_append]
    exact Set.subset_union_right

theorem enters_safe {f : Atom} {upd : Option ℕ} (h : Enters P ρ e xs f ws upd) (hρ : ρ.Within D) :
    Safe D xs ∧ Value.ptrsOf ws ⊆ known D xs ∧ ∀ a ∈ upd, a ∈ known D xs := by
  cases h with
  | app h => exact ⟨(vals_safe h hρ).1, (vals_safe h hρ).2, by simp⟩
  | call h => exact ⟨(vals_safe h hρ).1, (vals_safe h hρ).2, by simp⟩
  | eval h ht hf =>
    obtain ⟨hs, hk⟩ := vals_safe h hρ
    simp only [ptrsOf_cons, ptrsOf_nil, Set.union_empty] at hk
    rw [safe_append, known_append]
    refine ⟨⟨hs, hk rfl, trivial⟩, Set.subset_union_right, fun a ha => ?_⟩
    cases ha
    exact .inl (hk rfl)
  | apply h ht hty =>
    obtain ⟨hs, hk⟩ := vals_safe h hρ
    simp only [ptrsOf_cons, Set.union_subset_iff] at hk
    rw [safe_append, known_append, ptrsOf_append]
    refine ⟨⟨hs, hk.1 rfl, trivial⟩, Set.union_subset Set.subset_union_right ?_, by simp⟩
    exact hk.2.trans Set.subset_union_left

theorem updates_safe {upd : Option ℕ} {out : Out} (hupd : ∀ a ∈ upd, a ∈ D) (hout : out.ptrs ⊆ D) :
    Safe D (updates upd out) := by
  unfold updates
  split
  · next a w =>
    have hw : w.ptrs ⊆ D := by simpa [Out.ptrs] using hout
    exact ⟨⟨hupd a rfl, hw⟩, trivial⟩
  · trivial

/-- A run names the cells only that its variables lead to. -/
theorem run_safe {out : Out} (h : Run P φ ρ e xs out) (hglobals : P.globals.Within D) (hρ : ρ.Within D)
    (hφ : φ.Within D) : Safe D xs ∧ out.ptrs ⊆ known D xs := by
  induction h generalizing D with
  | does h => exact does_safe h hρ
  | cut => exact ⟨trivial, by simp [Out.ptrs]⟩
  | error => exact ⟨trivial, by simp [Out.ptrs]⟩
  | bind h₁ hl h₂ ih₁ ih₂ =>
    obtain ⟨hs₁, hk₁⟩ := ih₁ hglobals hρ hφ
    obtain ⟨hsl, hbs⟩ := binds_safe hl hk₁
    obtain ⟨hs₂, hk₂⟩ := ih₂ (within_mono hglobals le_known_append)
      (extend_within (within_mono hρ le_known_append) hbs) (fenv_within_mono hφ le_known_append)
    rw [known_append, known_append]
    exact ⟨safe_append.2 ⟨hs₁, safe_append.2 ⟨hsl, hs₂⟩⟩, hk₂⟩
  | bindStop h _ ih => exact ih hglobals hρ hφ
  | case hv hl h ih =>
    obtain ⟨hsv, hkv⟩ := vals_safe hv hρ
    rw [ptrsOf_cons, ptrsOf_nil, Set.union_empty] at hkv
    obtain ⟨hsl, hbs⟩ := selects_safe hl hkv
    obtain ⟨hs, hk⟩ := ih (within_mono hglobals le_known_append)
      (extend_within (within_mono hρ le_known_append) hbs) (fenv_within_mono hφ le_known_append)
    rw [known_append, known_append]
    exact ⟨safe_append.2 ⟨hsv, safe_append.2 ⟨hsl, hs⟩⟩, hk⟩
  | enter he hfind hf hl h ih =>
    obtain ⟨hse, hke, hupd⟩ := enters_safe he hρ
    obtain ⟨hsl, hbs⟩ := binds_safe hl hke
    obtain ⟨hs, hk⟩ := ih (within_mono hglobals le_known_append)
      (extend_within (within_mono hglobals le_known_append) hbs) (fun g hg => by cases hg)
    rw [known_append, known_append, known_append]
    refine ⟨safe_append.2 ⟨hse, safe_append.2 ⟨hsl, safe_append.2 ⟨hs, ?_⟩⟩⟩, hk.trans le_known⟩
    exact updates_safe (fun a ha => le_known (le_known (hupd a ha))) hk
  | jump hv hfind hl h ih =>
    obtain ⟨hsv, hkv⟩ := vals_safe hv hρ
    obtain ⟨hsl, hbs⟩ := binds_safe hl hkv
    obtain ⟨hρ', hφ'⟩ := find_within hφ hfind
    obtain ⟨hs, hk⟩ := ih (within_mono hglobals le_known_append)
      (extend_within (within_mono hρ' le_known_append) hbs) (fenv_within_mono hφ' le_known_append)
    rw [known_append, known_append]
    exact ⟨safe_append.2 ⟨hsv, safe_append.2 ⟨hsl, hs⟩⟩, hk⟩
  | lett h ih =>
    refine ih hglobals hρ fun g hg => ?_
    cases List.mem_cons.1 hg with
    | inl heq => exact heq ▸ hρ
    | inr hmem => exact hφ g hmem
  | newRegion hl h ih =>
    obtain ⟨hsl, hbs⟩ := binds_safe hl (D := D) (by simp [Value.ptrs])
    obtain ⟨hs, hk⟩ := ih (within_mono hglobals le_known) (extend_within (within_mono hρ le_known) hbs)
      (fenv_within_mono hφ le_known)
    rw [known_append]
    exact ⟨safe_append.2 ⟨hsl, hs⟩, hk⟩
  | gcRoots h ih => exact ih hglobals hρ hφ

end

/-! ### Operations that can be left out -/

def BaseOp.isOmittable : BaseOp → Bool
  | promote => true
  | demote => true
  | peekVal => true
  | readRegister => true
  | newRegister => true
  | gcPush => true
  | storeNode _ => true
  | _ => false

mutual

def Exp.isOmittable : Exp → Bool
  | .baseOp op _ => op.isOmittable
  | .alloc _ _ _ => true
  | .ret _ => true
  | .prim p _ _ => primIsCheap p
  | .case _ ds => omittableAlts ds
  | .lett _ b _ => b.isOmittable
  | .bind e (.mk _ e2) => e.isOmittable && e2.isOmittable
  | _ => false

def omittableAlts : List Lam → Bool
  | [] => true
  | .mk _ e :: ls => e.isOmittable && omittableAlts ls

end

/-- `simpBind` after the rest `z` is simplified, with the free variables collected of it. -/
def omitBind (colFreeVars : List Var) (p : List Val) (e z : Exp) : Exp :=
  if e.isOmittable && ((Val.freeVarsOf p).map Prod.fst).all (· ∉ colFreeVars) then z else .bind e (.mk p z)

section
variable {P : Prog} {φ : FEnv} {ρ : Frame} {e z : Exp} {xs : List Action} {ws : List Value} {bs : Bindings} {out : Out}

theorem omittable_mem {l : Lam} {ls : List Lam} (hl : l ∈ ls) (h : omittableAlts ls = true) :
    l.exp.isOmittable = true := by
  induction ls with
  | nil => cases hl
  | cons k ls ih =>
    obtain ⟨ps, e⟩ := k
    rw [omittableAlts, Bool.and_eq_true] at h
    rcases List.mem_cons.1 hl with rfl | hl
    · exact h.1
    · exact ih hl h.2

theorem vals_quiet {vs : List Val} (h : Vals P ρ vs xs ws) : Quiet xs := by
  induction h with
  | nil => exact fun _ hx => absurd hx List.not_mem_nil
  | node hlen h ih =>
    refine quiet_append.2 ⟨ih, fun x hx => ?_⟩
    rw [List.mem_singleton.1 hx]
    trivial
  | prim has hp h ihas ih => exact ih
  | const h ih => exact ih
  | index h ih => exact ih
  | var hx h ih => exact ih
  | lit h ih => exact ih
  | unit h ih => exact ih
  | unknown h ih => exact ih
  | item h ih => exact ih

theorem binds_quiet {ps : List Val} (h : Binds ps ws xs bs) : Quiet xs := by
  induction h with
  | nil => exact fun _ hx => absurd hx List.not_mem_nil
  | node ht hlen h ih => exact List.forall_mem_cons.2 ⟨trivial, ih⟩
  | var h ih => exact ih
  | lit h ih => exact ih
  | unit h ih => exact ih

theorem skips_quiet {ps : List Val} {w : Value} (h : Skips ps w xs) : Quiet xs := by
  cases h with
  | node ht hne => exact List.forall_mem_cons.2 ⟨trivial, fun _ hx => absurd hx List.not_mem_nil⟩
  | lit hne => exact fun _ hx => absurd hx List.not_mem_nil

theorem selects_quiet {w : Value} {ls : List Lam} {l : Lam} (h : Selects w ls xs l bs) : Quiet xs := by
  induction h with
  | here h => exact binds_quiet h
  | skip h _ ih => exact quiet_append.2 ⟨skips_quiet h, ih⟩

theorem quiet_snoc {x : Action} (h : Quiet xs) (hx : x.Quiet) : Quiet (xs ++ [x]) :=
  quiet_append.2 ⟨h, List.forall_mem_cons.2 ⟨hx, fun _ hy => absurd hy List.not_mem_nil⟩⟩

theorem does_quiet (h : Does P ρ e xs ws) (he : e.isOmittable = true) : Quiet xs := by
  cases h with
  | ret h => exact vals_quiet h
  | pass hop h => exact vals_quiet h
  | storeNode h => exact vals_quiet h
  | peekVal h hget => exact quiet_snoc (vals_quiet h) trivial
  | gcPush h hlen =>
    refine quiet_append.2 ⟨vals_quiet h, fun x hx => ?_⟩
    obtain ⟨i, hi, rfl⟩ := List.mem_iff_getElem.1 hx
    rw [List.getElem_zipWith]
    trivial
  | newRegister h => exact quiet_snoc (vals_quiet h) trivial
  | readRegister h => exact quiet_snoc (vals_quiet h) trivial
  | alloc h => exact quiet_snoc (vals_quiet h) trivial
  | primCheap hp h hop => exact vals_quiet h
  | prim hp h =>
    rw [Exp.isOmittable, hp] at he
    cases he
  | _ => cases he

/-- A run of an operation that can be left out reads and allocates only, and does not end the
program. -/
theorem omittable_quiet (h : Run P φ ρ e xs out) (he : e.isOmittable = true) :
    Quiet xs ∧ ∀ msg, out ≠ .abort msg := by
  induction h with
  | does h => exact ⟨does_quiet h he, fun _ => Out.noConfusion⟩
  | cut => exact ⟨fun _ hx => absurd hx List.not_mem_nil, fun _ => Out.noConfusion⟩
  | error => cases he
  | @bind φ ρ e l xs ws ys bs zs out h₁ hl h₂ ih₁ ih₂ =>
    obtain ⟨ps, b⟩ := l
    rw [Exp.isOmittable, Bool.and_eq_true] at he
    obtain ⟨hq, hout⟩ := ih₂ he.2
    exact ⟨quiet_append.2 ⟨(ih₁ he.1).1, quiet_append.2 ⟨binds_quiet hl, hq⟩⟩, hout⟩
  | @bindStop φ ρ e l xs out h hout ih =>
    obtain ⟨ps, b⟩ := l
    rw [Exp.isOmittable, Bool.and_eq_true] at he
    exact ih he.1
  | case hv hl h ih =>
    rw [Exp.isOmittable] at he
    obtain ⟨hq, hout⟩ := ih (omittable_mem (selects_mem hl).1 he)
    exact ⟨quiet_append.2 ⟨vals_quiet hv, quiet_append.2 ⟨selects_quiet hl, hq⟩⟩, hout⟩
  | enter hent hφ hf hl h ih =>
    cases hent with
    | app h => cases he
    | call h => cases he
    | eval h ht hf => cases he
    | apply h ht hty => cases he
  | jump hv hφ hl h ih => cases he
  | lett h ih =>
    rw [Exp.isOmittable] at he
    exact ih he
  | newRegion hl h ih => cases he
  | gcRoots h ih => cases he

theorem handed_quiet {W : Set ℕ} (h : Quiet xs) : handed W xs = W := by
  induction xs with
  | nil => rfl
  | cons x xs ih =>
    have hx := h x List.mem_cons_self
    have hxs := ih fun y hy => h y (List.mem_cons_of_mem x hy)
    cases x with
    | read a c => exact hxs
    | alloc a c => exact hxs
    | write a c => exact absurd hx id
    | emit e => exact absurd hx id

/-- The rest finds its variables as they are where the pattern is not bound. -/
theorem frame_omitted {fv : List Var} {p : List Val} {ys : List Action} (hfv : ∀ x, Free x z → x ∈ fv)
    (hp : ((Val.freeVarsOf p).map Prod.fst).all (· ∉ fv) = true) (hl : Binds p ws ys bs) (x : Var) (hx : Free x z) :
    ρ.extend bs x = ρ x := by
  refine extend_other fun hmem => ?_
  obtain ⟨t, ht⟩ := (binds_names hl).1 hmem
  have hall := List.all_eq_true.1 hp x (List.mem_map_of_mem ht)
  exact of_decide_eq_true hall (hfv x hx)

/-- All cells that a program can reach where it starts. -/
structure Starts (P : Prog) (φ : FEnv) (ρ : Frame) (σ : Store Cell) (D : Set ℕ) : Prop where
  globals : P.globals.Within D
  frame : ρ.Within D
  fenv : φ.Within D
  closed : Lib.Memory.Closed (E := Event) σ D
  stored : ∀ a ∈ D, σ a ≠ none

theorem Starts.after_quiet {σ : Store Cell} {D : Set ℕ} (hs : Starts P φ ρ σ D) (hq : Quiet xs) (hok : Ok σ xs) :
    Starts P φ ρ (after σ xs) D := by
  have hkept : ∀ a ∈ D, after σ xs a = σ a := fun a ha =>
    Lib.Memory.after_quiet hq hok fun hmem => hs.stored a ha (allocs_fresh hok hmem)
  refine ⟨hs.globals, hs.frame, hs.fenv, fun a ha c hc => ?_, fun a ha => ?_⟩
  · rw [hkept a ha] at hc
    exact hs.closed a ha c hc
  · rw [hkept a ha]
    exact hs.stored a ha

/-- A run comes to the cells only that it starts with or allocates. -/
theorem Starts.avoids {σ : Store Cell} {D W Z : Set ℕ} (hs : Starts P φ ρ σ D) (hrun : Run P φ ρ e xs out)
    (hok : Ok σ xs) (hhonest : Honest W xs) (hW : W ⊆ D) (hZ : ∀ a ∈ Z, a ∉ D ∧ a ∉ allocs xs) : Avoids Z xs := by
  have hsafe := (run_safe hrun hs.globals hs.frame hs.fenv).1
  have hconfined := (confined hok hsafe hhonest hW hs.closed).1
  intro x hx a ha hmem
  rcases hconfined x hx a ha with hD | hallocs
  · exact (hZ a hmem).1 hD
  · exact (hZ a hmem).2 hallocs

/-- What `simpBind` makes of a bind has every run of it: with the same result, the same calls to
the outside and the same cells in the end, those aside that were allocated by what is left out. -/
theorem omitBind_runs {fv : List Var} {p : List Val} {σ : Store Cell} {D W : Set ℕ} (hfv : ∀ x, Free x z → x ∈ fv)
    (hs : Starts P φ ρ σ D) (hrun : Run P φ ρ (.bind e (.mk p z)) xs out) (hok : Ok σ xs) (hhonest : Honest W xs)
    (hW : W ⊆ D) :
    ∃ ys, Run P φ ρ (omitBind fv p e z) ys out ∧ Ok σ ys ∧ events ys = events xs ∧
      ∀ a, σ a ≠ none ∨ a ∈ allocs ys → after σ ys a = after σ xs a := by
  unfold omitBind
  split_ifs with homit
  · rw [Bool.and_eq_true] at homit
    obtain ⟨he, hp⟩ := homit
    cases hrun with
    | does h => cases h
    | cut => exact ⟨[], .cut, trivial, rfl, fun _ _ => rfl⟩
    | @bind _ _ _ _ xs ws ys bs zs _ h₁ hl h₂ =>
      rw [← List.append_assoc] at hok hhonest ⊢
      have hq : Quiet (xs ++ ys) := quiet_append.2 ⟨(omittable_quiet h₁ he).1, binds_quiet hl⟩
      obtain ⟨hokP, hokzs⟩ := ok_append.1 hok
      have hz : Run P φ ρ z zs out := run_agree h₂ (fun x hx => (frame_omitted hfv hp hl x hx).symm) agree_refl
      have hhonestzs : Honest W zs := by
        have hboth := (honest_append.1 hhonest).2
        rwa [handed_quiet hq] at hboth
      have havoids : Avoids (allocs (xs ++ ys)) zs := by
        refine (hs.after_quiet hq hokP).avoids hz hokzs hhonestzs hW fun a ha => ⟨fun hD => ?_, fun hmem => ?_⟩
        · exact hs.stored a hD (allocs_fresh hokP ha)
        · exact allocs_after hokP ha (allocs_fresh hokzs hmem)
      obtain ⟨hokσ, hafter⟩ := ok_drop hq hok havoids
      refine ⟨zs, hz, hokσ, ?_, fun a ha => hafter a fun hmem => ?_⟩
      · rw [events_append, events_quiet hq, List.nil_append]
      · rcases ha with ha | ⟨c, hc⟩
        · exact ha (allocs_fresh hokP hmem)
        · exact havoids _ hc a rfl hmem
    | bindStop h hout =>
      obtain ⟨hq, habort⟩ := omittable_quiet h he
      cases out with
      | ret ws => exact absurd rfl (hout ws)
      | abort msg => exact absurd rfl (habort msg)
      | cut =>
        refine ⟨[], .cut, trivial, (events_quiet hq).symm, fun a ha => ?_⟩
        rcases ha with ha | ⟨c, hc⟩
        · exact (after_quiet hq hok fun hmem => ha (allocs_fresh hok hmem)).symm
        · cases hc
    | enter hent hφ hf hl h => cases hent
  · exact ⟨xs, hrun, hok, rfl, fun _ _ => rfl⟩

/-- Where the expression that is left out has a run to its end, with cells of its own, the bind has
every run of what `simpBind` makes of it. -/
theorem omitBind_runs_back {fv : List Var} {p : List Val} {σ : Store Cell} {D W : Set ℕ} {ys zs : List Action}
    (hfv : ∀ x, Free x z → x ∈ fv) (hs : Starts P φ ρ σ D) (hrun : Run P φ ρ (omitBind fv p e z) zs out)
    (hok : Ok σ zs) (hhonest : Honest W zs) (hW : W ⊆ D) (he : Run P φ ρ e xs (.ret ws)) (hp : Binds p ws ys bs)
    (hP : Ok σ (xs ++ ys)) (hown : Disjoint (allocs (xs ++ ys)) (allocs zs)) :
    ∃ us, Run P φ ρ (.bind e (.mk p z)) us out ∧ Ok σ us ∧ events us = events zs ∧
      ∀ a, σ a ≠ none ∨ a ∈ allocs zs → after σ us a = after σ zs a := by
  unfold omitBind at hrun
  split_ifs at hrun with homit
  · rw [Bool.and_eq_true] at homit
    have hq : Quiet (xs ++ ys) := quiet_append.2 ⟨(omittable_quiet he homit.1).1, binds_quiet hp⟩
    have hz : Run P φ (ρ.extend bs) z zs out := run_agree hrun (frame_omitted hfv homit.2 hp) agree_refl
    have havoids : Avoids (allocs (xs ++ ys)) zs := by
      refine hs.avoids hrun hok hhonest hW fun a ha => ⟨fun hD => ?_, fun hmem => ?_⟩
      · exact hs.stored a hD (allocs_fresh hP ha)
      · exact Set.disjoint_left.1 hown ha hmem
    obtain ⟨hokzs, hafter⟩ := ok_agree havoids (fun a ha => after_quiet hq hP ha) hok
    refine ⟨xs ++ (ys ++ zs), .bind he hp hz, ?_, ?_, fun a ha => ?_⟩
    · rw [← List.append_assoc]
      exact ok_append.2 ⟨hP, hokzs⟩
    · rw [← List.append_assoc, events_append, events_quiet hq, List.nil_append]
    · rw [← List.append_assoc, after_append]
      refine hafter a fun hmem => ?_
      rcases ha with ha | hallocs
      · exact ha (allocs_fresh hP hmem)
      · exact Set.disjoint_left.1 hown hmem hallocs
  · exact ⟨zs, hrun, hok, rfl, fun _ _ => rfl⟩

end

/-! ### A register that is not used -/

theorem noPrimitives_ptrs {_ : Prim} {ws rs : List Value} (h : none = some rs) : Value.ptrsOf rs ⊆ Value.ptrsOf ws := by
  cases h

def noFunctions : Prog := ⟨[], [], fun _ => none, fun _ _ => none, @noPrimitives_ptrs⟩

def newRegister : Exp := .baseOp .newRegister [.unit]

def unitRegister : Act Cell Event := .alloc 0 (.register .unit)

theorem newRegister_run : Run noFunctions [] (fun _ => none) newRegister [unitRegister] (.ret [.ptr 0 0]) :=
  .does (@Does.newRegister _ _ _ [] _ 0 (.unit .nil))

theorem unusedRegister_run : Run noFunctions [] (fun _ => none)
    (.bind newRegister (.mk [.var 1 .tyINode] (.ret [.unit]))) [unitRegister] (.ret [.unit]) :=
  Run.bind (l := .mk [.var 1 .tyINode] (.ret [.unit])) newRegister_run (.var .nil) (.does (.ret (.unit .nil)))

theorem unit_starts : Starts noFunctions [] (fun _ => none) (fun _ => none) ∅ where
  globals := fun _ _ h => by cases h
  frame := fun _ _ h => by cases h
  fenv := fun _ h => by cases h
  closed := fun _ h => absurd h (Set.notMem_empty _)
  stored := fun _ h => absurd h (Set.notMem_empty _)

theorem unit_closed (x : Var) (h : Free x (.ret [.unit])) : x ∈ ([] : List Var) := by
  cases h with
  | vals h => exact absurd h hasVar_unit
  | block hb h hx => cases hb

theorem omitBind_runs_register :
    ∃ ys, Run noFunctions [] (fun _ => none) (omitBind [] [.var 1 .tyINode] newRegister (.ret [.unit])) ys
        (.ret [.unit]) ∧
      Ok (fun _ => none) ys ∧ events ys = events [unitRegister] ∧
      ∀ a, (none : Option Cell) ≠ none ∨ a ∈ allocs ys →
        after (fun _ => none) ys a = after (fun _ => none) [unitRegister] a :=
  omitBind_runs (W := ∅) unit_closed unit_starts unusedRegister_run ⟨rfl, trivial⟩ trivial (Set.empty_subset _)

theorem omitBind_runs_back_register :
    ∃ us, Run noFunctions [] (fun _ => none) (.bind newRegister (.mk [.var 1 .tyINode] (.ret [.unit]))) us
        (.ret [.unit]) ∧
      Ok (fun _ => none) us ∧ events us = events ([] : List Action) ∧
      ∀ a, (none : Option Cell) ≠ none ∨ a ∈ allocs ([] : List Action) →
        after (fun _ => none) us a = after (fun _ => none) ([] : List Action) a :=
  omitBind_runs_back (W := ∅) unit_closed unit_starts (.does (.ret (.unit .nil))) trivial trivial
    (Set.empty_subset _) newRegister_run (.var .nil) ⟨rfl, trivial⟩
    (Set.disjoint_right.2 fun _ h => absurd h.choose_spec List.not_mem_nil)

end Jhc.Grin

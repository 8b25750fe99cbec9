import Jhc.Grin.EvalInline
import Jhc.Grin.RunFacts
import Jhc.Lib.Memory

/-!
# The partial applications of a run

Every partial application that a run stores has a tag from the program or one that an
application of such a node results in, and as many fields as its type has slots.
-/

namespace Jhc.Grin
open Jhc.Lib.Memory

/-! ### Nodes in the text -/

mutual

/-- The tags of the complete nodes in a value, with the numbers of their fields. -/
def Val.nodes : Val → List (Tag × ℕ)
  | .nodeC t vs => (t, vs.length) :: Val.nodesOf vs
  | .const v => v.nodes
  | .index a b => a.nodes ++ b.nodes
  | _ => []

def Val.nodesOf : List Val → List (Tag × ℕ)
  | [] => []
  | v :: vs => v.nodes ++ Val.nodesOf vs

end

def Exp.nodes (e : Exp) : List (Tag × ℕ) := e.collect fun e => Val.nodesOf e.vals

attribute [local grind =] Val.nodes Val.nodesOf

theorem mem_nodes_vals {x : Tag × ℕ} {e : Exp} (h : x ∈ Val.nodesOf e.vals) : x ∈ e.nodes :=
  Exp.mem_collect.2 (.inl h)

theorem mem_nodes_block {x : Tag × ℕ} {e : Exp} {b : List Val × Exp} (hb : b ∈ e.blocks) (h : x ∈ b.2.nodes) :
    x ∈ e.nodes :=
  Exp.mem_collect.2 (.inr ⟨b, hb, h⟩)

@[simp] theorem nodesOf_append {vs ws : List Val} : Val.nodesOf (vs ++ ws) = Val.nodesOf vs ++ Val.nodesOf ws := by
  induction vs with
  | nil => rfl
  | cons v vs ih => simp [Val.nodesOf, ih]

mutual

theorem mem_tags_of_nodes {x : Tag × ℕ} (v : Val) (h : x ∈ v.nodes) : x.1 ∈ v.tags := by
  cases v with
  | nodeC t vs =>
    rcases List.mem_cons.1 h with rfl | h
    · exact Finset.mem_union_left _ (Finset.mem_singleton_self _)
    · exact Finset.mem_union_right _ (mem_tagsOf_of_nodes vs h)
  | const v => exact mem_tags_of_nodes v h
  | index a b =>
    rcases List.mem_append.1 h with h | h
    · exact Finset.mem_union_left _ (mem_tags_of_nodes a h)
    · exact Finset.mem_union_right _ (mem_tags_of_nodes b h)
  | _ => cases h

theorem mem_tagsOf_of_nodes {x : Tag × ℕ} (vs : List Val) (h : x ∈ Val.nodesOf vs) : x.1 ∈ Val.tagsOf vs := by
  cases vs with
  | nil => cases h
  | cons v vs =>
    rcases List.mem_append.1 h with h | h
    · exact Finset.mem_union_left _ (mem_tags_of_nodes v h)
    · exact Finset.mem_union_right _ (mem_tagsOf_of_nodes vs h)

end

/-! ### Cells -/

/-- A partial application with that many fields is one of the tags and complete. -/
def PartialOk (te : TyEnv) (T : Tag → Prop) (x : Tag × ℕ) : Prop :=
  ∀ n f, tagUnfunction x.1 = some (n + 1, f) →
    T x.1 ∧ ∃ tyty, findTyTy te x.1 = some tyty ∧ x.2 = tyty.tySlots.length

def CellOk (te : TyEnv) (T : Tag → Prop) : Cell → Prop
  | .node t vs => PartialOk te T (t, vs.length)
  | _ => True

/-- The tags are closed under application, and the type environment knows them. -/
structure TagsClosed (te : TyEnv) (T : Tag → Prop) : Prop where
  partials : ∀ t n f, T t → tagUnfunction t = some (n + 1, f) → HasPartials te t n f
  next : ∀ t t' n f, T t → tagUnfunction t = some (n + 2, f) → partialTag f (n + 1) = some t' → T t'

section
variable {P : Prog} {te : TyEnv} {T : Tag → Prop} {ρ : Frame} {φ : FEnv} {e : Exp} {xs : List Action}
variable {ws : List Value} {bs : Bindings}

theorem vals_length {vs : List Val} (h : Vals P ρ vs xs ws) : ws.length = vs.length := by
  induction h with
  | nil => rfl
  | lit _ ih | unit _ ih | unknown _ ih | item _ ih | var _ _ ih | prim _ _ _ _ ih =>
    simp only [List.length_cons, ih]
  | const _ ih => exact ih
  | index _ ih =>
    simp only [List.length_cons] at ih ⊢
    omega
  | node hlen _ ih =>
    simp only [List.length_append, List.length_cons] at ih ⊢
    omega

theorem vals_trusts {vs : List Val} (h : Vals P ρ vs xs ws) (hvs : ∀ x ∈ Val.nodesOf vs, PartialOk te T x) :
    Trusts (CellOk te T) xs := by
  induction h with
  | nil => trivial
  | lit _ ih => exact ih fun x hx => hvs x hx
  | unit _ ih => exact ih fun x hx => hvs x hx
  | unknown _ ih => exact ih fun x hx => hvs x hx
  | item _ ih => exact ih fun x hx => hvs x hx
  | var _ _ ih => exact ih fun x hx => hvs x hx
  | prim _ _ _ _ ih => exact ih fun x hx => hvs x hx
  | const _ ih => exact ih fun x hx => hvs x hx
  | index _ ih => exact ih fun x hx => hvs x (by simpa [Val.nodesOf, Val.nodes] using hx)
  | @node ρ t ps vs xs fs ws a hlen _ ih =>
    have hnode := hvs (t, ps.length) List.mem_cons_self
    rw [hlen] at hnode
    refine trusts_append (ih fun x hx => hvs x ?_) ⟨hnode, trivial⟩
    simpa [Val.nodesOf, Val.nodes] using Or.inr hx

theorem binds_trusts {ps : List Val} (h : Binds ps ws xs bs) : Trusts (CellOk te T) xs := by
  induction h with
  | nil => trivial
  | var _ ih => exact ih
  | lit _ ih => exact ih
  | unit _ ih => exact ih
  | node _ _ _ ih => exact fun _ => ih

theorem skips_trusts {ps : List Val} {w : Value} (h : Skips ps w xs) : Trusts (CellOk te T) xs := by
  cases h with
  | node => exact fun _ => trivial
  | lit => trivial

theorem selects_trusts {w : Value} {ls : List Lam} {l : Lam} (h : Selects w ls xs l bs) :
    Trusts (CellOk te T) xs := by
  induction h with
  | here h => exact binds_trusts h
  | skip h _ ih => exact trusts_append (skips_trusts h) ih

theorem registers_trusts {as : List ℕ} :
    Trusts (CellOk te T) (List.zipWith (fun a w => Act.alloc (E := Event) a (.register w)) as ws) := by
  induction as generalizing ws with
  | nil => trivial
  | cons a as ih =>
    cases ws with
    | nil => trivial
    | cons w ws => exact ⟨trivial, ih⟩

/-- What an application of a partial application results in is complete. -/
theorem apply_partialOk {t t' f : Tag} {n k : ℕ} {ts : List Ty} {us : List Val} (hclosed : TagsClosed te T)
    (hok : PartialOk te T (t, k)) (ht : tagUnfunction t = some (n + 2, f)) (ht' : partialTag f (n + 1) = some t')
    (hty : Applies te ts us t) : PartialOk te T (t', k + us.length) := by
  obtain ⟨hT, tyty, htyty, hk⟩ := hok _ _ ht
  obtain ⟨tyty₁, mt₁, w₁, r₁, h₁, hthunk₁, -, -, hus⟩ := hty
  obtain ⟨tyty₂, mt₂, w₂, r₂, h₂, hthunk₂, hw₂, -, hslots, -, hnext⟩ := hasPartials_spec (hclosed.partials _ _ _ hT ht)
  have hsame₁ : tyty₁ = tyty := Option.some.inj (h₁.symm.trans htyty)
  have hsame₂ : tyty₂ = tyty := Option.some.inj (h₂.symm.trans htyty)
  subst hsame₁ hsame₂
  have hmt : mt₁ = mt₂ ∧ w₁ = w₂ := by
    rw [hthunk₁] at hthunk₂
    exact TyThunk.tyPApp.inj hthunk₂
  have hw : w₂ = t' := Option.some.inj ((hnext n rfl).1.symm.trans ht')
  have hlen : us.length = mt₂.toList.length := by
    rw [← hmt.1, ← List.length_map (f := Val.getType), hus, List.length_map]
  intro m g _
  refine ⟨hclosed.next t t' n f hT ht ht', r₂, hw ▸ hw₂, ?_⟩
  rw [hslots, List.length_append, ← hlen]
  simp only at hk ⊢
  rw [hk]

theorem does_trusts (hclosed : TagsClosed P.grinTypeEnv T) (h : Does P ρ e xs ws)
    (he : ∀ x ∈ Val.nodesOf e.vals, PartialOk P.grinTypeEnv T x) : Trusts (CellOk P.grinTypeEnv T) xs := by
  cases h with
  | ret h => exact vals_trusts h he
  | pass _ h => exact vals_trusts h he
  | storeNode h => exact vals_trusts h he
  | redirect h => exact trusts_append (vals_trusts h he) ⟨trivial, trivial⟩
  | @overwrite v t vs xs a fs _ h =>
    have hlen := vals_length h
    simp only [List.length_cons, Nat.add_right_cancel_iff] at hlen
    have hnode := he (t, vs.length) (by simp [Exp.vals, Val.nodesOf, Val.nodes])
    rw [← hlen] at hnode
    refine trusts_append (vals_trusts h fun x hx => he x ?_) ⟨hnode, trivial⟩
    simp only [Exp.vals, Val.nodesOf, Val.nodes, List.mem_append, List.mem_cons, List.append_nil] at hx ⊢
    tauto
  | overwriteCaf _ h => exact trusts_append (vals_trusts h he) ⟨trivial, trivial⟩
  | peekVal h _ => exact trusts_append (vals_trusts h he) fun _ => trivial
  | pokeVal h _ => exact trusts_append (vals_trusts h he) fun _ => ⟨trivial, trivial⟩
  | consume h => exact vals_trusts h he
  | gcTouch h => exact vals_trusts h he
  | gcPush h _ => exact trusts_append (vals_trusts h he) registers_trusts
  | newRegister h => exact trusts_append (vals_trusts h he) ⟨trivial, trivial⟩
  | readRegister h => exact trusts_append (vals_trusts h he) fun _ => trivial
  | writeRegister h => exact trusts_append (vals_trusts h he) ⟨trivial, trivial⟩
  | evalNode h _ => exact trusts_append (vals_trusts h he) fun _ => trivial
  | evalInd h => exact trusts_append (vals_trusts h he) fun _ => trivial
  | @applyPart ts v us xs a ws t fs f t' b n h ht ht' hty =>
    refine trusts_append (vals_trusts h he) fun hcell => ⟨?_, trivial⟩
    have hlen := vals_length h
    simp only [List.length_cons, Nat.add_right_cancel_iff] at hlen
    have hok := apply_partialOk hclosed hcell ht ht' hty
    rw [← hlen, ← List.length_append] at hok
    exact hok
  | alloc h => exact trusts_append (vals_trusts h he) ⟨trivial, trivial⟩
  | primCheap _ h _ => exact vals_trusts h he
  | prim _ h => exact trusts_append (vals_trusts h he) trivial

theorem enters_trusts {f : Atom} {upd : Option ℕ} (h : Enters P ρ e xs f ws upd)
    (he : ∀ x ∈ Val.nodesOf e.vals, PartialOk te T x) : Trusts (CellOk te T) xs := by
  cases h with
  | app h => exact vals_trusts h he
  | call h => exact vals_trusts h fun x hx => he x (by simpa [Exp.vals, Val.nodesOf, Val.nodes] using hx)
  | eval h _ _ => exact trusts_append (vals_trusts h he) fun _ => trivial
  | apply h _ _ => exact trusts_append (vals_trusts h he) fun _ => trivial

theorem updates_trusts {upd : Option ℕ} {out : Out} : Trusts (CellOk te T) (updates upd out) := by
  unfold updates
  split
  · exact ⟨trivial, trivial⟩
  · trivial

def TextOk (te : TyEnv) (T : Tag → Prop) (e : Exp) : Prop := ∀ x ∈ e.nodes, PartialOk te T x

def FEnv.TextOk (te : TyEnv) (T : Tag → Prop) (φ : FEnv) : Prop :=
  ∀ g ∈ φ, ∀ d ∈ g.1, Jhc.Grin.TextOk te T d.body.exp

theorem find_textOk {f : Atom} {d : FuncDef} {ρ' : Frame} {ψ : FEnv} (hφ : φ.TextOk te T)
    (h : φ.find f = some (d, ρ', ψ)) : TextOk te T d.body.exp ∧ ψ.TextOk te T := by
  induction φ with
  | nil => cases h
  | cons g φ ih =>
    obtain ⟨ds, ρ₁⟩ := g
    unfold FEnv.find at h
    split at h
    · next d' hd =>
      cases h
      exact ⟨hφ _ List.mem_cons_self d (List.mem_of_find?_eq_some hd), hφ⟩
    · exact ih (fun g hg => hφ g (List.mem_cons_of_mem _ hg)) h

/-- The cells that a run writes are complete if those are that it reads. -/
theorem run_trusts {out : Out} (hclosed : TagsClosed P.grinTypeEnv T)
    (hP : ∀ f l, P.body f = some l → TextOk P.grinTypeEnv T l.exp) (h : Run P φ ρ e xs out)
    (he : TextOk P.grinTypeEnv T e) (hφ : φ.TextOk P.grinTypeEnv T) : Trusts (CellOk P.grinTypeEnv T) xs := by
  induction h with
  | does h => exact does_trusts hclosed h fun x hx => he x (mem_nodes_vals hx)
  | cut => trivial
  | error => trivial
  | bind _ hl _ ih₁ ih₂ =>
    refine trusts_append (ih₁ (fun x hx => he x (mem_nodes_block List.mem_cons_self hx)) hφ)
      (trusts_append (binds_trusts hl) (ih₂ (fun x hx => he x ?_) hφ))
    exact mem_nodes_block (List.mem_cons_of_mem _ List.mem_cons_self) hx
  | bindStop _ _ ih => exact ih (fun x hx => he x (mem_nodes_block List.mem_cons_self hx)) hφ
  | case hv hl _ ih =>
    refine trusts_append (vals_trusts hv fun x hx => he x (mem_nodes_vals hx))
      (trusts_append (selects_trusts hl) (ih (fun x hx => he x ?_) hφ))
    exact mem_nodes_block (List.mem_map_of_mem (selects_mem hl).1) hx
  | enter henter _ hf hl _ ih =>
    refine trusts_append (enters_trusts henter fun x hx => he x (mem_nodes_vals hx)) (trusts_append (binds_trusts hl)
      (trusts_append (ih (hP _ _ hf) fun g hg => absurd hg List.not_mem_nil) updates_trusts))
  | jump hv hfind hl _ ih =>
    obtain ⟨hd, hψ⟩ := find_textOk hφ hfind
    exact trusts_append (vals_trusts hv fun x hx => he x (mem_nodes_vals hx)) (trusts_append (binds_trusts hl) (ih hd hψ))
  | @lett φ ρ ds b props xs out _ ih =>
    refine ih (fun x hx => he x (mem_nodes_block List.mem_cons_self hx)) fun g hg d hd x hx => ?_
    rcases List.mem_cons.1 hg with rfl | hg
    · exact he x (mem_nodes_block (List.mem_cons_of_mem _ (List.mem_map_of_mem hd)) hx)
    · exact hφ g hg d hd x hx
  | newRegion hl _ ih =>
    exact trusts_append (binds_trusts hl) (ih (fun x hx => he x (mem_nodes_block List.mem_cons_self hx)) hφ)
  | gcRoots _ ih => exact ih (fun x hx => he x (mem_nodes_block List.mem_cons_self hx)) hφ

end

end Jhc.Grin

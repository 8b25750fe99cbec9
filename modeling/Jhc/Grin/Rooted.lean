import Jhc.Grin.Calls
import Jhc.Grin.TyEnv
import Jhc.Grin.Twiddle

/-!
# Roots around allocations

When the roots of a program are right: around every operation that can allocate, the
heap variables that are used after it are in an enclosing `GcRoots`. The uses count
those in the local functions that are called.
-/

namespace Jhc.Grin
open Jhc.C (Prim)

/-! ### Operations that can allocate (C/FromGrin2.hs:440-650, 805-835) -/

def Val.isNodeC : Val → Bool
  | nodeC _ _ => true
  | _ => false

namespace Exp

/-- The operation itself can allocate. A call of a known function is not counted here. A
safe foreign call can come back to the program, and the update of a constant applicative
form allocates its node. -/
def ownAllocs : Exp → Bool
  | baseOp .eval _ => true
  | baseOp (.apply _) _ => true
  | baseOp (.storeNode _) _ => true
  | baseOp .overwrite [.var v _, .nodeC t _] => decide (v < v0) && !tagIsSuspFunction t
  | ret vs => vs.any Val.isNodeC
  | prim (.func _ _ _ _ .safe) _ _ => true
  | call (.item _ _) _ _ _ => false
  | call _ _ _ _ => true
  | alloc _ _ _ => true
  | mkClosure _ _ _ _ => true
  | _ => false

/-- The operations of an expression that can allocate. -/
def allocOps (e : Exp) : List Exp := e.collect fun e => if e.ownAllocs then [e] else []

/-- Each local function with its operations that can allocate and its calls. -/
def ownFuncOps : Exp → List (Atom × List Exp × List (Atom × List Val))
  | lett ds _ _ => ds.map fun d => (d.name, d.body.exp.allocOps, d.body.exp.calls)
  | _ => []

def funcOps (e : Exp) : List (Atom × List Exp × List (Atom × List Val)) := e.collect ownFuncOps

end Exp

/-- The same for the functions of a program and all that is inside them. -/
def progOps (grinFunctions : List FuncDef) : List (Atom × List Exp × List (Atom × List Val)) :=
  (grinFunctions.map fun d => (d.name, d.body.exp.allocOps, d.body.exp.calls)) ++
    grinFunctions.flatMap fun d => d.body.exp.funcOps

/-- A function that may allocate, itself or in a function that it calls. -/
inductive MayAlloc (fns : List (Atom × List Exp × List (Atom × List Val))) : Atom → Prop where
  | own {f : Atom × List Exp × List (Atom × List Val)} (hf : f ∈ fns) (h : f.2.1 ≠ []) : MayAlloc fns f.1
  | call {f : Atom × List Exp × List (Atom × List Val)} {c : Atom × List Val} (hf : f ∈ fns) (hc : c ∈ f.2.2)
      (h : MayAlloc fns c.1) : MayAlloc fns f.1

/-- An operation that can allocate, or a call of a function that may. -/
def Exp.CanAlloc (fa : Atom → Prop) (e : Exp) : Prop := e.ownAllocs = true ∨ ∃ c ∈ e.ownCalls, fa c.1

/-! ### Uses -/

/-- For each local function in scope, the variables that a call of it uses. -/
abbrev Uses := Atom → Var × Ty → Prop

/-- The variables that a call of a function of a `Let` uses: those that are free in it,
and those of the functions that it calls. -/
inductive LetUses (Δ : Uses) (ds : List FuncDef) : Uses where
  | own {d : FuncDef} {x : Var × Ty} (hd : d ∈ ds) (h : x ∈ d.body.freeVars) : LetUses Δ ds d.name x
  | outer {d : FuncDef} {c : Atom × List Val} {x : Var × Ty} (hd : d ∈ ds) (hc : c ∈ d.body.exp.calls)
      (hnew : c.1 ∉ ds.map FuncDef.name) (h : Δ c.1 x) : LetUses Δ ds d.name x
  | call {d : FuncDef} {c : Atom × List Val} {x : Var × Ty} (hd : d ∈ ds) (hc : c ∈ d.body.exp.calls)
      (h : LetUses Δ ds c.1 x) : LetUses Δ ds d.name x

/-- What the calls use in the blocks of an expression. -/
def Uses.enter (Δ : Uses) (e : Exp) : Uses := fun a x =>
  (a ∉ e.defs.map FuncDef.name ∧ Δ a x) ∨ LetUses Δ e.defs a x

/-- The variable is free in the block or used by a function that it calls. -/
def Uses.inBlock (Δ : Uses) (b : List Val × Exp) (x : Var × Ty) : Prop :=
  (x ∈ b.2.freeVars ∧ x ∉ Val.freeVarsOf b.1) ∨ ∃ c ∈ b.2.calls, Δ c.1 x

/-- The blocks of an expression, each with the blocks that run after it. -/
def Exp.parts : Exp → List ((List Val × Exp) × List (List Val × Exp))
  | .bind e l => [(([], e), [(l.bind, l.exp)]), ((l.bind, l.exp), [])]
  | .mkCont c l => [((c.bind, c.exp), []), ((l.bind, l.exp), [(c.bind, c.exp)])]
  | e => e.blocks.map fun b => (b, [])

attribute [local grind =] Exp.parts

theorem parts_blocks (e : Exp) : e.parts.map Prod.fst = e.blocks := by
  cases e <;> simp [Exp.parts, Exp.blocks]

theorem block_of_part {e : Exp} {p : (List Val × Exp) × List (List Val × Exp)} (h : p ∈ e.parts) :
    p.1 ∈ e.blocks := by
  rw [← parts_blocks]
  exact List.mem_map_of_mem h

/-- The blocks that run after a part are blocks of the expression too. -/
theorem rest_block {e : Exp} {p : (List Val × Exp) × List (List Val × Exp)} (h : p ∈ e.parts)
    {b : List Val × Exp} (hb : b ∈ p.2) : b ∈ e.blocks := by
  have hnil : p ∈ e.blocks.map (fun b => (b, [])) → b ∈ e.blocks := by
    intro hp
    obtain ⟨_, _, rfl⟩ := List.mem_map.1 hp
    cases hb
  cases e with
  | bind e l =>
    simp only [Exp.parts, List.mem_cons, List.not_mem_nil, or_false] at h
    obtain rfl | rfl := h
    · exact List.mem_cons_of_mem _ hb
    · cases hb
  | mkCont c l =>
    simp only [Exp.parts, List.mem_cons, List.not_mem_nil, or_false] at h
    obtain rfl | rfl := h
    · cases hb
    · rw [List.mem_singleton.1 hb]
      exact List.mem_cons_self
  | _ => exact hnil h

/-- The uses after a part of an expression. -/
def Uses.after (Δ : Uses) (L : Var × Ty → Prop) (p : (List Val × Exp) × List (List Val × Exp)) :
    Var × Ty → Prop := fun x =>
  L x ∨ ∃ b ∈ p.2, Δ.inBlock b x

/-! ### Rooted expressions -/

/-- The variables that an expression lists as roots. -/
def Exp.roots : Exp → VarSet
  | .gcRoots vs _ => Val.freeVarsOf vs
  | _ => []

/-- Given what the local functions in scope use, the variables that are roots and those
that are used after the expression: around each operation that can allocate, every heap
variable that is used after it is a root. -/
def Rooted (fa : Atom → Prop) (Δ : Uses) (R L : Var × Ty → Prop) (e : Exp) : Prop :=
  (e.CanAlloc fa → ∀ x, L x → isHeap x = true → R x) ∧
  ∀ p : {p // p ∈ e.parts},
    Rooted fa (Δ.enter e) (fun x => R x ∨ x ∈ e.roots) ((Δ.enter e).after L p.1) p.1.1.2
termination_by sizeOf e
decreasing_by exact Exp.sizeOf_block (block_of_part p.2)

/-- The roots of a program are right. -/
def RootSafe (grinFunctions : List FuncDef) : Prop :=
  ∀ d ∈ grinFunctions, Rooted (MayAlloc (progOps grinFunctions)) (fun _ _ => False) (fun _ => False)
    (fun _ => False) d.body.exp

theorem rooted_iff {fa : Atom → Prop} {Δ : Uses} {R L : Var × Ty → Prop} {e : Exp} :
    Rooted fa Δ R L e ↔ (e.CanAlloc fa → ∀ x, L x → isHeap x = true → R x) ∧
      ∀ p ∈ e.parts,
        Rooted fa (Δ.enter e) (fun x => R x ∨ x ∈ e.roots) ((Δ.enter e).after L p) p.1.2 := by
  rw [Rooted, Subtype.forall]

/-! ### The variables that a program mentions around an allocation -/

/-- The variables of the rest of a bind whose first expression `isAllocing` knows to
allocate; with the operands of that expression, where it stores them. -/
def Exp.mentions : Exp → VarSet
  | .bind x lam => if x.isAllocing then (if x.isUsing then (Exp.bind x lam).freeVars else lam.freeVars) else []
  | e => if e.isUsing then e.freeVars else []

/-- Around each operation that can allocate, every heap variable that is used after it
occurs in the rest of a bind whose first expression `isAllocing` knows. -/
def Mentioned (fa : Atom → Prop) (Δ : Uses) (M L : Var × Ty → Prop) (e : Exp) : Prop :=
  (e.CanAlloc fa → ∀ x, L x → isHeap x = true → M x ∨ x ∈ e.mentions) ∧
  ∀ p : {p // p ∈ e.parts},
    Mentioned fa (Δ.enter e) (fun x => M x ∨ x ∈ e.mentions) ((Δ.enter e).after L p.1) p.1.1.2
termination_by sizeOf e
decreasing_by exact Exp.sizeOf_block (block_of_part p.2)

/-- All functions of a program mention what they use after an allocation. -/
def UsesMentioned (grinFunctions : List FuncDef) : Prop :=
  ∀ d ∈ grinFunctions, Mentioned (MayAlloc (progOps grinFunctions)) (fun _ _ => False) (fun _ => False)
    (fun _ => False) d.body.exp

theorem mentioned_iff {fa : Atom → Prop} {Δ : Uses} {M L : Var × Ty → Prop} {e : Exp} :
    Mentioned fa Δ M L e ↔ (e.CanAlloc fa → ∀ x, L x → isHeap x = true → M x ∨ x ∈ e.mentions) ∧
      ∀ p ∈ e.parts,
        Mentioned fa (Δ.enter e) (fun x => M x ∨ x ∈ e.mentions) ((Δ.enter e).after L p) p.1.2 := by
  rw [Mentioned, Subtype.forall]

/-! ### Programs that the pass is for -/

/-- The operands that the pass does not visit. -/
def Exp.unvisited : Exp → List Val
  | .call v as _ _ => v :: as
  | .mkClosure v as r _ => v :: as ++ [r]
  | .gcRoots vs _ => vs
  | .alloc _ _ r => [r]
  | _ => []

/-- A bound variable is used at its type, and the operands that the pass does not visit
hold no heap variables: nothing before the pass makes a `Call`, `MkClosure` or `GcRoots`,
and a region is not on the heap. -/
def Plain (e : Exp) : Prop :=
  (∀ x ∈ Val.freeVarsOf e.unvisited, isHeap x = false) ∧
  (∀ b ∈ e.blocks, ∀ x ∈ b.2.freeVars, ∀ y ∈ Val.freeVarsOf b.1, x.1 = y.1 → x = y) ∧
  ∀ b : {b // b ∈ e.blocks}, Plain b.1.2
termination_by sizeOf e
decreasing_by exact Exp.sizeOf_block b.2

theorem plain_iff {e : Exp} : Plain e ↔ (∀ x ∈ Val.freeVarsOf e.unvisited, isHeap x = false) ∧
    (∀ b ∈ e.blocks, ∀ x ∈ b.2.freeVars, ∀ y ∈ Val.freeVarsOf b.1, x.1 = y.1 → x = y) ∧
    ∀ b ∈ e.blocks, Plain b.2 := by
  rw [Plain, Subtype.forall]

@[reducible]
def decidablePlain (e : Exp) : Decidable (Plain e) :=
  have : ∀ b : {b // b ∈ e.blocks}, Decidable (Plain b.1.2) := fun b => decidablePlain b.1.2
  decidable_of_iff ((∀ x ∈ Val.freeVarsOf e.unvisited, isHeap x = false) ∧
    (∀ b ∈ e.blocks, ∀ x ∈ b.2.freeVars, ∀ y ∈ Val.freeVarsOf b.1, x.1 = y.1 → x = y) ∧
    ∀ b ∈ e.blocks.attach, Plain b.1.2) (by rw [Plain]; simp)
termination_by sizeOf e
decreasing_by exact Exp.sizeOf_block b.2

instance : DecidablePred Plain := decidablePlain

attribute [local grind =] Exp.mentions Exp.unvisited Exp.ownAllocs Exp.ownFuncOps

end Jhc.Grin

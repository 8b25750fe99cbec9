import Mathlib
import Jhc.Cmm.Op

/-!
# Grin (Grin/Grin.hs:78-300, 560-690; Grin/Noodle.hs:60-130, 187-234)

The Grin language: types, values and expressions, with the properties that the
compiler caches in local function definitions and in `Let`, the free variables and
tags of an expression, the one-level traversal `mapExpExp`, and the functions an
expression calls.
-/

namespace Jhc.Grin
open Jhc.C (Prim)

abbrev Atom := String
abbrev Tag := Atom
abbrev Var := ℤ

def v0 : Var := 0

/-! ### Ty, BaseOp, Val (Grin.hs:82-186) -/

inductive Callable where
  | continuation | function | closure | localFunction | primitive
  deriving DecidableEq, Repr

inductive Ty where
  | tyPtr (t : Ty)
  | tyNode
  | tyINode
  | tyAttr (t₁ t₂ : Ty)
  | tyAnd (t₁ t₂ : Ty)
  | tyOr (t₁ t₂ : Ty)
  | tyPrim (t : Cmm.Ty)
  | tyUnit
  | tyCall (c : Callable) (as rs : List Ty)
  | tyRegion
  | tyGcContext
  | tyRegister (t : Ty)
  | tyComplex (t : Ty)
  | tyVector (n : ℤ) (t : Ty)
  | tyUnknown

mutual

def Ty.beq : Ty → Ty → Bool
  | .tyPtr s, .tyPtr t => s.beq t
  | .tyNode, .tyNode => true
  | .tyINode, .tyINode => true
  | .tyAttr s₁ s₂, .tyAttr t₁ t₂ => s₁.beq t₁ && s₂.beq t₂
  | .tyAnd s₁ s₂, .tyAnd t₁ t₂ => s₁.beq t₁ && s₂.beq t₂
  | .tyOr s₁ s₂, .tyOr t₁ t₂ => s₁.beq t₁ && s₂.beq t₂
  | .tyPrim s, .tyPrim t => s == t
  | .tyUnit, .tyUnit => true
  | .tyCall c as rs, .tyCall d bs ss => c == d && Ty.beqs as bs && Ty.beqs rs ss
  | .tyRegion, .tyRegion => true
  | .tyGcContext, .tyGcContext => true
  | .tyRegister s, .tyRegister t => s.beq t
  | .tyComplex s, .tyComplex t => s.beq t
  | .tyVector m s, .tyVector n t => m == n && s.beq t
  | .tyUnknown, .tyUnknown => true
  | _, _ => false

def Ty.beqs : List Ty → List Ty → Bool
  | [], [] => true
  | s :: ss, t :: ts => s.beq t && Ty.beqs ss ts
  | _, _ => false

end

mutual

theorem Ty.beq_iff (s t : Ty) : s.beq t = true ↔ s = t := by
  cases s <;> cases t <;> simp [Ty.beq, Ty.beq_iff, Ty.beqs_iff, and_assoc]

theorem Ty.beqs_iff (ss ts : List Ty) : Ty.beqs ss ts = true ↔ ss = ts := by
  cases ss <;> cases ts <;> simp [Ty.beqs, Ty.beq_iff, Ty.beqs_iff]

end

instance : DecidableEq Ty := fun s t => decidable_of_iff _ (Ty.beq_iff s t)

inductive BaseOp where
  | demote
  | promote
  | eval
  | apply (ts : List Ty)
  | storeNode (direct : Bool)
  | redirect
  | overwrite
  | peekVal
  | pokeVal
  | consume
  | gcTouch
  | coerce (t : Ty)
  | gcPush
  | newRegister
  | readRegister
  | writeRegister
  deriving DecidableEq

inductive Val where
  | nodeC (t : Tag) (vs : List Val)
  | const (v : Val)
  | lit (n : ℚ) (ty : Ty)
  | var (v : Var) (ty : Ty)
  | unit
  | valPrim (p : Prim) (vs : List Val) (ty : Ty)
  | index (a b : Val)
  | item (a : Atom) (ty : Ty)
  | valUnknown (ty : Ty)

mutual

def Val.beq : Val → Val → Bool
  | .nodeC s vs, .nodeC t ws => s == t && Val.beqs vs ws
  | .const v, .const w => v.beq w
  | .lit m s, .lit n t => m == n && s == t
  | .var v s, .var w t => v == w && s == t
  | .unit, .unit => true
  | .valPrim p vs s, .valPrim q ws t => p == q && Val.beqs vs ws && s == t
  | .index a b, .index c d => a.beq c && b.beq d
  | .item a s, .item b t => a == b && s == t
  | .valUnknown s, .valUnknown t => s == t
  | _, _ => false

def Val.beqs : List Val → List Val → Bool
  | [], [] => true
  | v :: vs, w :: ws => v.beq w && Val.beqs vs ws
  | _, _ => false

end

mutual

theorem Val.beq_iff (v w : Val) : v.beq w = true ↔ v = w := by
  cases v <;> cases w <;> simp [Val.beq, Val.beq_iff, Val.beqs_iff, and_assoc]

theorem Val.beqs_iff (vs ws : List Val) : Val.beqs vs ws = true ↔ vs = ws := by
  cases vs <;> cases ws <;> simp [Val.beqs, Val.beq_iff, Val.beqs_iff]

end

instance : DecidableEq Val := fun v w => decidable_of_iff _ (Val.beq_iff v w)

/-! ### Exp, Lam, FuncDef (Grin.hs:118-165, 188-230) -/

/-- What `Let` caches: the functions called from outside its group in tail and in
other positions, whether no function of the group is called in a non-tail position,
and those that are. -/
structure LetProps where
  funcCalls : Finset Atom × Finset Atom
  isNormal : Bool
  nonNormal : Finset Atom
  deriving DecidableEq

/-- What a local function caches of its body. -/
structure FuncProps where
  funcFreeVars : Finset Var
  funcTags : Finset Tag
  deriving DecidableEq

mutual

/-- `letProps` is `none` where the source holds an error instead. -/
inductive Exp where
  | bind (e : Exp) (lam : Lam)
  | baseOp (op : BaseOp) (args : List Val)
  | app (fn : Atom) (args : List Val) (ty : List Ty)
  | prim (p : Prim) (args : List Val) (ty : List Ty)
  | case (v : Val) (alts : List Lam)
  | ret (vs : List Val)
  | error (msg : String) (ty : List Ty)
  | call (v : Val) (args : List Val) (ty : List Ty) (jump : Bool)
  | newRegion (lam : Lam)
  | alloc (v count region : Val)
  | lett (defs : List FuncDef) (body : Exp) (props : Option LetProps)
  | mkClosure (v : Val) (args : List Val) (region : Val) (ty : List Ty)
  | mkCont (cont lam : Lam)
  | gcRoots (vs : List Val) (body : Exp)

inductive Lam where
  | mk (bind : List Val) (exp : Exp)

inductive FuncDef where
  | mk (name : Atom) (body : Lam) (props : FuncProps)

end

namespace Lam

def bind : Lam → List Val
  | mk ps _ => ps

def exp : Lam → Exp
  | mk _ e => e

@[simp] theorem bind_mk (ps : List Val) (e : Exp) : (mk ps e).bind = ps := rfl
@[simp] theorem exp_mk (ps : List Val) (e : Exp) : (mk ps e).exp = e := rfl

end Lam

namespace FuncDef

def name : FuncDef → Atom
  | mk n _ _ => n

def body : FuncDef → Lam
  | mk _ b _ => b

def props : FuncDef → FuncProps
  | mk _ _ p => p

@[simp] theorem name_mk (n : Atom) (b : Lam) (p : FuncProps) : (mk n b p).name = n := rfl
@[simp] theorem body_mk (n : Atom) (b : Lam) (p : FuncProps) : (mk n b p).body = b := rfl
@[simp] theorem props_mk (n : Atom) (b : Lam) (p : FuncProps) : (mk n b p).props = p := rfl

end FuncDef

/-! ### The blocks of an expression, mapExpExp (Noodle.hs:60-130) -/

namespace Exp

/-- The blocks of an expression with what they bind, in the order of `mapExpExp`. -/
def blocks : Exp → List (List Val × Exp)
  | bind e l => [([], e), (l.bind, l.exp)]
  | case _ as => as.map fun l => (l.bind, l.exp)
  | lett ds b _ => ([], b) :: ds.map fun d => (d.body.bind, d.body.exp)
  | newRegion l => [(l.bind, l.exp)]
  | mkCont c l => [(c.bind, c.exp), (l.bind, l.exp)]
  | gcRoots _ b => [([], b)]
  | _ => []

/-- The values that an expression itself uses. -/
def vals : Exp → List Val
  | baseOp _ vs => vs
  | app _ vs _ => vs
  | prim _ vs _ => vs
  | case v _ => [v]
  | ret vs => vs
  | call v as _ _ => v :: as
  | alloc v c r => [v, c, r]
  | mkClosure v as r _ => v :: as ++ [r]
  | gcRoots vs _ => vs
  | _ => []

attribute [local grind =] blocks vals

theorem sizeOf_lam (l : Lam) : sizeOf l.exp < sizeOf l := by
  cases l with
  | mk ps e =>
    simp only [Lam.exp_mk, Lam.mk.sizeOf_spec]
    omega

theorem sizeOf_def (d : FuncDef) : sizeOf d.body.exp < sizeOf d := by
  have hbody := sizeOf_lam d.body
  cases d with
  | mk n l p =>
    simp only [FuncDef.body_mk, FuncDef.mk.sizeOf_spec] at hbody ⊢
    omega

theorem sizeOf_block {e : Exp} {b : List Val × Exp} (h : b ∈ e.blocks) : sizeOf b.2 < sizeOf e := by
  cases e with
  | bind e l =>
    have hl := sizeOf_lam l
    simp only [blocks, List.mem_cons, List.not_mem_nil, or_false] at h
    obtain rfl | rfl := h <;> simp only [bind.sizeOf_spec] <;> omega
  | case v as =>
    simp only [blocks, List.mem_map] at h
    obtain ⟨l, hl, rfl⟩ := h
    have hsize := sizeOf_lam l
    have hmem := List.sizeOf_lt_of_mem hl
    simp only [case.sizeOf_spec]
    omega
  | lett ds b p =>
    simp only [blocks, List.mem_cons, List.mem_map] at h
    obtain rfl | ⟨d, hd, rfl⟩ := h
    · simp only [lett.sizeOf_spec]
      omega
    · have hsize := sizeOf_def d
      have hmem := List.sizeOf_lt_of_mem hd
      simp only [lett.sizeOf_spec]
      omega
  | newRegion l =>
    have hl := sizeOf_lam l
    simp only [blocks, List.mem_cons, List.not_mem_nil, or_false] at h
    subst h
    simp only [newRegion.sizeOf_spec]
    omega
  | mkCont c l =>
    have hc := sizeOf_lam c
    have hl := sizeOf_lam l
    simp only [blocks, List.mem_cons, List.not_mem_nil, or_false] at h
    obtain rfl | rfl := h <;> simp only [mkCont.sizeOf_spec] <;> omega
  | gcRoots vs b =>
    simp only [blocks, List.mem_cons, List.not_mem_nil, or_false] at h
    subst h
    simp only [gcRoots.sizeOf_spec]
    omega
  | _ => cases h

/-- Induction over an expression by way of its blocks. -/
theorem blocks_induction {P : Exp → Prop} (h : ∀ e, (∀ b ∈ e.blocks, P b.2) → P e) (e : Exp) : P e :=
  h e fun b hb =>
    have := sizeOf_block hb
    blocks_induction h b.2
termination_by sizeOf e

/-- The number of expressions in an expression. -/
def size (e : Exp) : ℕ :=
  (e.blocks.attach.map fun b => b.1.2.size).sum + 1
termination_by sizeOf e
decreasing_by exact sizeOf_block b.2

theorem size_eq (e : Exp) : e.size = (e.blocks.map fun b => b.2.size).sum + 1 := by
  rw [size, List.attach_map_val (f := fun b : List Val × Exp => b.2.size)]

end Exp

/-! ### Sets of typed variables, freeVars (Grin.hs:572-690) -/

/-- `Set (Var, Ty)` as its ascending list. Two types of one variable, which no well
typed program has, stay in the order of their insertion. -/
abbrev VarSet := List (Var × Ty)

namespace VarSet

def insert (x : Var × Ty) : VarSet → VarSet
  | [] => [x]
  | y :: ys => if x = y then y :: ys else if x.1 < y.1 then x :: y :: ys else y :: insert x ys

def union (xs ys : VarSet) : VarSet := ys.foldr insert xs

def unions (ss : List VarSet) : VarSet := ss.foldr union []

def diff (xs ys : VarSet) : VarSet := xs.filter fun x => x ∉ ys

/-- Equality of the sets. -/
def same (xs ys : VarSet) : Bool := xs.all (· ∈ ys) && ys.all (· ∈ xs)

attribute [local grind =] insert

@[simp] theorem mem_insert {x y : Var × Ty} {xs : VarSet} : y ∈ insert x xs ↔ y = x ∨ y ∈ xs := by
  induction xs with
  | nil => simp [insert]
  | cons z zs ih =>
    unfold insert
    split
    · next h =>
      subst h
      simp
    · split
      · simp
      · simp only [List.mem_cons, ih]
        tauto

@[simp] theorem mem_union {x : Var × Ty} {xs ys : VarSet} : x ∈ union xs ys ↔ x ∈ xs ∨ x ∈ ys := by
  induction ys with
  | nil => simp [union]
  | cons z zs ih =>
    have hstep : union xs (z :: zs) = insert z (union xs zs) := rfl
    simp only [hstep, mem_insert, ih, List.mem_cons]
    tauto

@[simp] theorem mem_unions {x : Var × Ty} {ss : List VarSet} : x ∈ unions ss ↔ ∃ s ∈ ss, x ∈ s := by
  induction ss with
  | nil => simp [unions]
  | cons s ss ih =>
    have hstep : unions (s :: ss) = union s (unions ss) := rfl
    simp [hstep, ih]

@[simp] theorem mem_diff {x : Var × Ty} {xs ys : VarSet} : x ∈ diff xs ys ↔ x ∈ xs ∧ x ∉ ys := by
  simp [diff]

theorem same_iff {xs ys : VarSet} : same xs ys = true ↔ ∀ x, x ∈ xs ↔ x ∈ ys := by
  simp only [same, Bool.and_eq_true, List.all_eq_true, decide_eq_true_eq]
  constructor
  · intro h x
    exact ⟨h.1 x, h.2 x⟩
  · intro h
    exact ⟨fun x => (h x).1, fun x => (h x).2⟩

end VarSet

mutual

def Val.freeVars : Val → VarSet
  | .nodeC _ vs => Val.freeVarsOf vs
  | .const v => v.freeVars
  | .index a b => VarSet.union a.freeVars b.freeVars
  | .var v t => [(v, t)]
  | _ => []

def Val.freeVarsOf : List Val → VarSet
  | [] => []
  | v :: vs => VarSet.union v.freeVars (Val.freeVarsOf vs)

end

attribute [local grind =] Val.freeVars Val.freeVarsOf

theorem freeVarsOf_append {vs ws : List Val} {x : Var × Ty} :
    x ∈ Val.freeVarsOf (vs ++ ws) ↔ x ∈ Val.freeVarsOf vs ∨ x ∈ Val.freeVarsOf ws := by
  induction vs with
  | nil => simp [Val.freeVarsOf]
  | cons v vs ih => simp [Val.freeVarsOf, ih, or_assoc]

mutual

def Val.tags : Val → Finset Tag
  | .nodeC t vs => {t} ∪ Val.tagsOf vs
  | .index a b => a.tags ∪ b.tags
  | .const v => v.tags
  | _ => ∅

def Val.tagsOf : List Val → Finset Tag
  | [] => ∅
  | v :: vs => v.tags ∪ Val.tagsOf vs

end

namespace Exp

/-- The function that an application names. -/
def appTag : Exp → Finset Tag
  | app a _ _ => {a}
  | _ => ∅

/-- The instance for sets of typed variables. -/
def freeVars (e : Exp) : VarSet :=
  VarSet.union (Val.freeVarsOf e.vals)
    (VarSet.unions (e.blocks.attach.map fun b => VarSet.diff b.1.2.freeVars (Val.freeVarsOf b.1.1)))
termination_by sizeOf e
decreasing_by exact sizeOf_block b.2

/-- The instance for sets of variables, which asks a local function for its cached set. -/
def freeVarSet : Exp → Finset Var
  | lett ds b _ => b.freeVarSet ∪ (ds.map fun d => d.props.funcFreeVars).foldr (· ∪ ·) ∅
  | e => ((Val.freeVarsOf e.vals).map Prod.fst).toFinset ∪
      (e.blocks.attach.map fun b =>
        b.1.2.freeVarSet \ ((Val.freeVarsOf b.1.1).map Prod.fst).toFinset).foldr (· ∪ ·) ∅
termination_by e => sizeOf e
decreasing_by
  · simp only [lett.sizeOf_spec]
    omega
  · exact sizeOf_block b.2

/-- The instance for sets of tags, which asks a local function for its cached set. -/
def tags : Exp → Finset Tag
  | lett ds b _ => b.tags ∪ (ds.map fun d => d.props.funcTags).foldr (· ∪ ·) ∅
  | e => e.appTag ∪ Val.tagsOf e.vals ∪
      (e.blocks.attach.map fun b => b.1.2.tags ∪ Val.tagsOf b.1.1).foldr (· ∪ ·) ∅
termination_by e => sizeOf e
decreasing_by
  · simp only [lett.sizeOf_spec]
    omega
  · exact sizeOf_block b.2

end Exp

namespace Lam

def freeVars (l : Lam) : VarSet := VarSet.diff l.exp.freeVars (Val.freeVarsOf l.bind)

def freeVarSet (l : Lam) : Finset Var :=
  l.exp.freeVarSet \ ((Val.freeVarsOf l.bind).map Prod.fst).toFinset

def tags (l : Lam) : Finset Tag := Val.tagsOf l.bind ∪ l.exp.tags

end Lam

/-! ### updateFuncDefProps (Grin.hs:248), collectFuncs, updateLetProps (Noodle.hs:187-234) -/

def Lam.funcProps (l : Lam) : FuncProps := ⟨l.freeVarSet, l.tags⟩

def FuncDef.updateFuncDefProps (d : FuncDef) : FuncDef := .mk d.name d.body d.body.funcProps

@[simp] theorem FuncDef.updateFuncDefProps_name (d : FuncDef) : d.updateFuncDefProps.name = d.name := rfl
@[simp] theorem FuncDef.updateFuncDefProps_body (d : FuncDef) : d.updateFuncDefProps.body = d.body := rfl

def BaseOp.isNop : BaseOp → Bool
  | promote => true
  | demote => true
  | _ => false

/-- A bind passes its value on: `\v -> op v` for an operation without code. -/
def Lam.isNop : Lam → Bool
  | mk v (.baseOp op v') => op.isNop && v == v'
  | _ => false

abbrev Calls := Finset Atom × Finset Atom

def Calls.both (a b : Calls) : Calls := (a.1 ∪ b.1, a.2 ∪ b.2)

mutual

/-- The functions called in tail position and in other positions; `none` where the
source has no case. -/
def Exp.collectFuncs : Exp → Option Calls
  | .bind e l =>
    if l.isNop then e.collectFuncs
    else do
      let (xs, nonTail) ← e.collectFuncs
      let (tail, nonTail') ← l.collectFuncs
      some (tail, nonTail ∪ xs ∪ nonTail')
  | .app a _ _ => some ({a}, ∅)
  | .case _ as => Lam.collectFuncsOf as
  | .lett _ _ props => props.map LetProps.funcCalls
  | .error _ _ => some (∅, ∅)
  | .prim _ _ _ => some (∅, ∅)
  | .ret _ => some (∅, ∅)
  | .baseOp _ _ => some (∅, ∅)
  | .alloc _ _ _ => some (∅, ∅)
  | .gcRoots _ b => b.collectFuncs
  | .newRegion l => l.collectFuncs
  | .mkCont l₁ l₂ => do
    let a ← l₁.collectFuncs
    let b ← l₂.collectFuncs
    some (a.both b)
  | .call _ _ _ _ => none
  | .mkClosure _ _ _ _ => none

def Lam.collectFuncs : Lam → Option Calls
  | .mk _ e => e.collectFuncs

def Lam.collectFuncsOf : List Lam → Option Calls
  | [] => some (∅, ∅)
  | l :: ls => do
    let a ← l.collectFuncs
    let b ← Lam.collectFuncsOf ls
    some (a.both b)

end

/-- What `updateLetProps` stores in a `Let`. -/
def letProps (defs : List FuncDef) (body : Exp) : Option LetProps := do
  let b ← body.collectFuncs
  let ds ← Lam.collectFuncsOf (defs.map FuncDef.body)
  let (tail, nonTail) := b.both ds
  let myDefs := (defs.map FuncDef.name).toFinset
  let notNormal := nonTail ∩ myDefs
  some ⟨(tail \ myDefs, nonTail \ myDefs), decide (notNormal = ∅), notNormal⟩

def updateLetProps : Exp → Exp
  | .lett [] body _ => body
  | .lett defs body _ => .lett defs body (letProps defs body)
  | e => e

namespace Exp

/-- `mapExpExp`, given what its function makes of the blocks. -/
def withBlocks : Exp → List Exp → Exp
  | bind _ l, [a, b] => bind a (.mk l.bind b)
  | case v as, cs => case v (List.zipWith (fun l c => .mk l.bind c) as cs)
  | lett ds _ p, b :: cs =>
    updateLetProps <| updateLetProps <| lett
      (List.zipWith (fun d c => (FuncDef.mk d.name (.mk d.body.bind c) d.props).updateFuncDefProps) ds cs)
      b p
  | newRegion l, [b] => newRegion (.mk l.bind b)
  | mkCont c l, [a, b] => mkCont (.mk c.bind a) (.mk l.bind b)
  | gcRoots vs _, [b] => gcRoots vs b
  | e, _ => e

end Exp

end Jhc.Grin

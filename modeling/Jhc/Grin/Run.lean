import Jhc.Grin.Rooted
import Jhc.Grin.TyEnv
import Jhc.Lib.Memory

/-!
# Runs of Grin programs (Grin/Grin.hs:85-180, 315-385; C/FromGrin2.hs:430-640)

What an expression does when it is run, as the code generator compiles it: the actions
on the store, the calls of primitives that the outside sees, and the result. A node is
a pointer to its cell, and so is an array or a register. A run can be cut at any
expression, so that the runs are all beginnings of all executions.
-/

namespace Jhc.Grin
open Jhc.C (Prim primIsCheap)
open Jhc.Lib.Memory

/-! ### Values and cells -/

inductive Value where
  | lit (n : ℚ) (ty : Ty)
  | unit
  | ptr (a : ℕ) (i : ℤ)
  | item (a : Atom) (ty : Ty)
  | region
  | unknown

/-- A suspended call or an evaluated node, what an evaluated call was redirected to, an
array, or a register. -/
inductive Cell where
  | node (t : Tag) (vs : List Value)
  | ind (v : Value)
  | array (vs : List Value)
  | register (v : Value)

inductive Kind where
  | thunk | node | array | register
  deriving DecidableEq, Repr

def tagKind (t : Tag) : Kind := if tagIsSuspFunction t then .thunk else .node

def Cell.kind : Cell → Kind
  | node t _ => tagKind t
  | ind _ => .thunk
  | array _ => .array
  | register _ => .register

/-- A primitive that the outside runs. -/
structure Event where
  prim : Prim
  args : List Value
  results : List Value

def Value.ptrs : Value → Set ℕ
  | ptr a _ => {a}
  | _ => ∅

def Value.ptrsOf (vs : List Value) : Set ℕ := {a | ∃ v ∈ vs, a ∈ v.ptrs}

def Cell.ptrs : Cell → Set ℕ
  | node _ vs => Value.ptrsOf vs
  | ind v => v.ptrs
  | array vs => Value.ptrsOf vs
  | register v => v.ptrs

instance : Layout Cell Event Kind where
  kind := Cell.kind
  ptrs := Cell.ptrs
  sent e := Value.ptrsOf e.args
  got e := Value.ptrsOf e.results

abbrev Action := Act Cell Event
abbrev Frame := Var → Option Value
abbrev Bindings := List (Var × Value)

def Frame.extend (ρ : Frame) : Bindings → Frame
  | [] => ρ
  | (x, w) :: bs => Frame.extend (Function.update ρ x (some w)) bs

/-- The functions of a program, its global variables and what the cheap primitives compute. -/
structure Prog where
  grinFunctions : List FuncDef
  grinTypeEnv : TyEnv
  globals : Frame
  primOp : Prim → List Value → Option (List Value)
  primOp_ptrs : ∀ {p ws rs}, primOp p ws = some rs → Value.ptrsOf rs ⊆ Value.ptrsOf ws

def Prog.body (P : Prog) (f : Atom) : Option Lam := (P.grinFunctions.find? (·.name = f)).map FuncDef.body

/-! ### Operands and patterns -/

/-- The operands and their values. A complete node gets a cell; the operands of a
primitive value are constants. -/
inductive Vals (P : Prog) : Frame → List Val → List Action → List Value → Prop where
  | nil {ρ} : Vals P ρ [] [] []
  | lit {ρ n ty vs xs ws} (h : Vals P ρ vs xs ws) : Vals P ρ (.lit n ty :: vs) xs (.lit n ty :: ws)
  | unit {ρ vs xs ws} (h : Vals P ρ vs xs ws) : Vals P ρ (.unit :: vs) xs (.unit :: ws)
  | unknown {ρ ty vs xs ws} (h : Vals P ρ vs xs ws) : Vals P ρ (.valUnknown ty :: vs) xs (.unknown :: ws)
  | item {ρ a ty vs xs ws} (h : Vals P ρ vs xs ws) : Vals P ρ (.item a ty :: vs) xs (.item a ty :: ws)
  | var {ρ x ty w vs xs ws} (hx : ρ x = some w) (h : Vals P ρ vs xs ws) :
      Vals P ρ (.var x ty :: vs) xs (w :: ws)
  | const {ρ v vs xs ws} (h : Vals P ρ (v :: vs) xs ws) : Vals P ρ (.const v :: vs) xs ws
  | index {ρ a b vs xs p i ty ws} {k : ℤ} (h : Vals P ρ (a :: b :: vs) xs (.ptr p i :: .lit k ty :: ws)) :
      Vals P ρ (.index a b :: vs) xs (.ptr p (i + k) :: ws)
  | node {ρ t ps vs xs fs ws a} (hlen : ps.length = fs.length) (h : Vals P ρ (ps ++ vs) xs (fs ++ ws)) :
      Vals P ρ (.nodeC t ps :: vs) (xs ++ [.alloc a (.node t fs)]) (.ptr a 0 :: ws)
  | prim {ρ p as ty us w vs xs ws} (has : Vals P (fun _ => none) as [] us) (hp : P.primOp p us = some [w])
      (h : Vals P ρ vs xs ws) : Vals P ρ (.valPrim p as ty :: vs) xs (w :: ws)

/-- Patterns, the values that they match and the variables that they bind. A whole node
is never suspended. -/
inductive Binds : List Val → List Value → List Action → Bindings → Prop where
  | nil : Binds [] [] [] []
  | var {x ty ps w ws xs bs} (h : Binds ps ws xs bs) : Binds (.var x ty :: ps) (w :: ws) xs ((x, w) :: bs)
  | lit {n ty ps ws xs bs} (h : Binds ps ws xs bs) : Binds (.lit n ty :: ps) (.lit n ty :: ws) xs bs
  | unit {ps ws xs bs} (h : Binds ps ws xs bs) : Binds (.unit :: ps) (.unit :: ws) xs bs
  | node {t ps qs a vs ws xs bs} (ht : tagIsSuspFunction t = false) (hlen : ps.length = vs.length)
      (h : Binds (ps ++ qs) (vs ++ ws) xs bs) :
      Binds (.nodeC t ps :: qs) (.ptr a 0 :: ws) (.read a (.node t vs) :: xs) bs

/-- A pattern of an alternative that does not match. -/
inductive Skips : List Val → Value → List Action → Prop where
  | node {t ps a t' vs} (ht : tagIsSuspFunction t' = false) (hne : t' ≠ t) :
      Skips [.nodeC t ps] (.ptr a 0) [.read a (.node t' vs)]
  | lit {n ty m ty'} (hne : m ≠ n) : Skips [.lit n ty] (.lit m ty') []

/-- The first alternative that matches. -/
inductive Selects (w : Value) : List Lam → List Action → Lam → Bindings → Prop where
  | here {l ls xs bs} (h : Binds l.bind [w] xs bs) : Selects w (l :: ls) xs l bs
  | skip {l ls xs ys l' bs} (h : Skips l.bind w xs) (hrest : Selects w ls ys l' bs) :
      Selects w (l :: ls) (xs ++ ys) l' bs

/-! ### Operations -/

/-- Operations that pass their operand on. -/
def BaseOp.isPass : BaseOp → Bool
  | demote => true
  | promote => true
  | coerce _ => true
  | _ => false

/-- The update of a constant applicative form by an evaluated node. -/
def updatesCaf (v : Val) (t : Tag) : Bool :=
  match v with
  | .var x _ => decide (x < v0) && !tagIsSuspFunction t
  | _ => false

/-- A node is applied to an argument of the type that it waits for, or to none where that
type has no values, and the application has the type of what results. -/
def Applies (te : TyEnv) (ts : List Ty) (us : List Val) (t : Tag) : Prop :=
  ∃ tyty mt w r, findTyTy te t = some tyty ∧ tyty.tyThunk = .tyPApp mt w ∧ findTyTy te w = some r ∧
    r.tyReturn = ts ∧ us.map Val.getType = mt.toList.map some

/-- An operation that calls nothing. -/
inductive Does (P : Prog) (ρ : Frame) : Exp → List Action → List Value → Prop where
  | ret {vs xs ws} (h : Vals P ρ vs xs ws) : Does P ρ (.ret vs) xs ws
  | pass {op v xs w} (hop : op.isPass = true) (h : Vals P ρ [v] xs [w]) : Does P ρ (.baseOp op [v]) xs [w]
  | storeNode {d t vs rs xs w ws} (h : Vals P ρ (.nodeC t vs :: rs) xs (w :: ws)) :
      Does P ρ (.baseOp (.storeNode d) (.nodeC t vs :: rs)) xs [w]
  | redirect {v u xs a w} (h : Vals P ρ [v, u] xs [.ptr a 0, w]) :
      Does P ρ (.baseOp .redirect [v, u]) (xs ++ [.write a (.ind w)]) []
  | overwrite {v t vs xs a fs} (hcaf : updatesCaf v t = false) (h : Vals P ρ (v :: vs) xs (.ptr a 0 :: fs)) :
      Does P ρ (.baseOp .overwrite [v, .nodeC t vs]) (xs ++ [.write a (.node t fs)]) []
  | overwriteCaf {v t vs xs a w} (hcaf : updatesCaf v t = true)
      (h : Vals P ρ [v, .nodeC t vs] xs [.ptr a 0, w]) :
      Does P ρ (.baseOp .overwrite [v, .nodeC t vs]) (xs ++ [.write a (.ind w)]) []
  | peekVal {v xs a vs w} {n : ℕ} (h : Vals P ρ [v] xs [.ptr a n]) (hget : vs[n]? = some w) :
      Does P ρ (.baseOp .peekVal [v]) (xs ++ [.read a (.array vs)]) [w]
  | pokeVal {v u xs a vs w} {n : ℕ} (h : Vals P ρ [v, u] xs [.ptr a n, w]) (hn : n < vs.length) :
      Does P ρ (.baseOp .pokeVal [v, u]) (xs ++ [.read a (.array vs), .write a (.array (vs.set n w))]) []
  | consume {vs xs ws} (h : Vals P ρ vs xs ws) : Does P ρ (.baseOp .consume vs) xs []
  | gcTouch {vs xs ws} (h : Vals P ρ vs xs ws) : Does P ρ (.baseOp .gcTouch vs) xs []
  | gcPush {vs xs ws} {as : List ℕ} (h : Vals P ρ vs xs ws) (hlen : as.length = ws.length) :
      Does P ρ (.baseOp .gcPush vs) (xs ++ List.zipWith (fun a w => .alloc a (.register w)) as ws)
        (as.map fun a => .ptr a 0)
  | newRegister {v xs w a} (h : Vals P ρ [v] xs [w]) :
      Does P ρ (.baseOp .newRegister [v]) (xs ++ [.alloc a (.register w)]) [.ptr a 0]
  | readRegister {v xs a w} (h : Vals P ρ [v] xs [.ptr a 0]) :
      Does P ρ (.baseOp .readRegister [v]) (xs ++ [.read a (.register w)]) [w]
  | writeRegister {v u xs a w} (h : Vals P ρ [v, u] xs [.ptr a 0, w]) :
      Does P ρ (.baseOp .writeRegister [v, u]) (xs ++ [.write a (.register w)]) []
  | evalNode {v xs a t vs} (h : Vals P ρ [v] xs [.ptr a 0]) (ht : tagIsSuspFunction t = false) :
      Does P ρ (.baseOp .eval [v]) (xs ++ [.read a (.node t vs)]) [.ptr a 0]
  | evalInd {v xs a w} (h : Vals P ρ [v] xs [.ptr a 0]) :
      Does P ρ (.baseOp .eval [v]) (xs ++ [.read a (.ind w)]) [w]
  | applyPart {ts v us xs a ws t fs f t' b} {n : ℕ} (h : Vals P ρ (v :: us) xs (.ptr a 0 :: ws))
      (ht : tagUnfunction t = some (n + 2, f)) (ht' : partialTag f (n + 1) = some t')
      (hty : Applies P.grinTypeEnv ts us t) :
      Does P ρ (.baseOp (.apply ts) (v :: us))
        (xs ++ [.read a (.node t fs), .alloc b (.node t' (fs ++ ws))]) [.ptr b 0]
  | alloc {v c r xs w ty rv a} {n : ℕ} (h : Vals P ρ [v, c, r] xs [w, .lit n ty, rv]) :
      Does P ρ (.alloc v c r) (xs ++ [.alloc a (.array (List.replicate n w))]) [.ptr a 0]
  | primCheap {p vs ty xs ws rs} (hp : primIsCheap p = true) (h : Vals P ρ vs xs ws)
      (hop : P.primOp p ws = some rs) : Does P ρ (.prim p vs ty) xs rs
  | prim {p vs ty xs ws rs} (hp : primIsCheap p = false) (h : Vals P ρ vs xs ws) :
      Does P ρ (.prim p vs ty) (xs ++ [.emit ⟨p, ws, rs⟩]) rs

/-- An operation that enters a function of the program, and the cell to update after it. -/
inductive Enters (P : Prog) (ρ : Frame) : Exp → List Action → Atom → List Value → Option ℕ → Prop where
  | app {f vs ty xs ws} (h : Vals P ρ vs xs ws) : Enters P ρ (.app f vs ty) xs f ws none
  | call {f as rs vs ty j xs ws} (h : Vals P ρ vs xs ws) :
      Enters P ρ (.call (.item f (.tyCall .function as rs)) vs ty j) xs f ws none
  | eval {v xs a t fs f} (h : Vals P ρ [v] xs [.ptr a 0]) (ht : tagIsSuspFunction t = true)
      (hf : tagFlipFunction t = some f) :
      Enters P ρ (.baseOp .eval [v]) (xs ++ [.read a (.node t fs)]) f fs (some a)
  | apply {ts v us xs a ws t fs f} (h : Vals P ρ (v :: us) xs (.ptr a 0 :: ws))
      (ht : tagUnfunction t = some (1, f)) (hty : Applies P.grinTypeEnv ts us t) :
      Enters P ρ (.baseOp (.apply ts) (v :: us)) (xs ++ [.read a (.node t fs)]) f (fs ++ ws) none

/-! ### Expressions -/

inductive Out where
  | ret (ws : List Value)
  | abort (msg : String)
  | cut

/-- The result of an evaluation is written over the suspended call. -/
def updates : Option ℕ → Out → List Action
  | some a, .ret [w] => [.write a (.ind w)]
  | _, _ => []

/-- The groups of local functions in scope, each with the variables where it is defined. -/
abbrev FEnv := List (List FuncDef × Frame)

def FEnv.find (f : Atom) : FEnv → Option (FuncDef × Frame × FEnv)
  | [] => none
  | (ds, ρ) :: φ =>
    match ds.find? (·.name = f) with
    | some d => some (d, ρ, (ds, ρ) :: φ)
    | none => FEnv.find f φ

inductive Run (P : Prog) : FEnv → Frame → Exp → List Action → Out → Prop where
  | does {φ ρ e xs ws} (h : Does P ρ e xs ws) : Run P φ ρ e xs (.ret ws)
  | cut {φ ρ e} : Run P φ ρ e [] .cut
  | error {φ ρ msg ty} : Run P φ ρ (.error msg ty) [] (.abort msg)
  | bind {φ ρ e l xs ws ys bs zs out} (h₁ : Run P φ ρ e xs (.ret ws)) (hl : Binds l.bind ws ys bs)
      (h₂ : Run P φ (ρ.extend bs) l.exp zs out) : Run P φ ρ (.bind e l) (xs ++ (ys ++ zs)) out
  | bindStop {φ ρ e l xs out} (h : Run P φ ρ e xs out) (hout : ∀ ws, out ≠ .ret ws) :
      Run P φ ρ (.bind e l) xs out
  | case {φ ρ v as xs w ys l bs zs out} (hv : Vals P ρ [v] xs [w]) (hl : Selects w as ys l bs)
      (h : Run P φ (ρ.extend bs) l.exp zs out) : Run P φ ρ (.case v as) (xs ++ (ys ++ zs)) out
  | enter {φ ρ e xs f ws upd l ys bs zs out} (he : Enters P ρ e xs f ws upd)
      (hφ : f ∈ e.appTag → φ.find f = none) (hf : P.body f = some l) (hl : Binds l.bind ws ys bs)
      (h : Run P [] (P.globals.extend bs) l.exp zs out) :
      Run P φ ρ e (xs ++ (ys ++ (zs ++ updates upd out))) out
  | jump {φ ρ f vs ty xs ws d ρ' φ' ys bs zs out} (hv : Vals P ρ vs xs ws)
      (hφ : φ.find f = some (d, ρ', φ')) (hl : Binds d.body.bind ws ys bs)
      (h : Run P φ' (ρ'.extend bs) d.body.exp zs out) : Run P φ ρ (.app f vs ty) (xs ++ (ys ++ zs)) out
  | lett {φ ρ ds b props xs out} (h : Run P ((ds, ρ) :: φ) ρ b xs out) : Run P φ ρ (.lett ds b props) xs out
  | newRegion {φ ρ l xs bs ys out} (hl : Binds l.bind [.region] xs bs)
      (h : Run P φ (ρ.extend bs) l.exp ys out) : Run P φ ρ (.newRegion l) (xs ++ ys) out
  | gcRoots {φ ρ vs b xs out} (h : Run P φ ρ b xs out) : Run P φ ρ (.gcRoots vs b) xs out

/-- A call of a function of the program. -/
def RunLam (P : Prog) (l : Lam) (ws : List Value) (xs : List Action) (out : Out) : Prop :=
  ∃ ys bs zs, Binds l.bind ws ys bs ∧ Run P [] (P.globals.extend bs) l.exp zs out ∧ xs = ys ++ zs

attribute [local grind =] updates FEnv.find

end Jhc.Grin

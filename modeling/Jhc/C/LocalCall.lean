import Mathlib
import Jhc.Lib.Assign

/-!
# Local tail calls in generated C (C/FromGrin2.hs:220-283, 331-348, 595-602)

A local Grin function becomes a C label and its parameters become C variables.
A tail call of it becomes one assignment for each parameter and a `goto`. The
module translates the values that occur as arguments, the assignments that
`assign` of C/Generate.hs:386-389 makes of them, and runs the result.
-/

namespace Jhc.C
open Jhc.Lib

abbrev Var := ℤ

def v0 : Var := 0

variable {π α : Type}

/-- The Grin values that `convertVal` turns into an expression: variables,
literals, constant nodes by their index in the pool, and primitive operators of
type `π` with one or two arguments. -/
inductive Val (π : Type) where
  | var (v : Var)
  | lit (n : ℤ)
  | constNode (i : ℕ)
  | valPrim₁ (p : π) (x : Val π)
  | valPrim₂ (p : π) (x y : Val π)
  deriving DecidableEq, Repr

namespace Val

def freeVars : Val π → List Var
  | var v => [v]
  | lit _ => []
  | constNode _ => []
  | valPrim₁ _ x => x.freeVars
  | valPrim₂ _ x y => x.freeVars ++ y.freeVars

end Val

/-! ### C expressions: variable, constant, operator, noAssign (C/Generate.hs:196-290),
varName, fetchVar, convertVal (FromGrin2.hs:220-283, 969) -/

/-- C identifiers made from a letter and a number (FromGrin2.hs:257, 969-970). -/
structure Name where
  letter : Char
  num : ℕ
  deriving DecidableEq, Repr

def varName (v : ℤ) : Name :=
  if v < 0 then ⟨'g', (-v).toNat⟩ else ⟨'v', v.toNat⟩

theorem varName_inj {u v : ℤ} (h : varName u = varName v) : u = v := by
  unfold varName at h
  by_cases hu : u < 0
  · by_cases hv : v < 0
    · have hnum : (-u).toNat = (-v).toNat := by simpa [hu, hv] using h
      omega
    · simp [hu, hv] at h
  · by_cases hv : v < 0
    · simp [hu, hv] at h
    · have hnum : u.toNat = v.toNat := by simpa [hu, hv] using h
      omega

inductive E (π : Type) where
  | err (s : String)
  | name (n : Name)
  | number (i : ℤ)
  | un (p : π) (e : E π)
  | bin (p : π) (e₁ e₂ : E π)
  deriving DecidableEq, Repr

structure TypeHint where
  thNoAssign : Bool
  thOmittable : Bool
  deriving DecidableEq, Repr

structure Expression (π : Type) where
  hint : TypeHint
  e : E π
  deriving DecidableEq, Repr

def variable_ (n : Name) : Expression π := ⟨⟨false, true⟩, .name n⟩
def constant (i : ℤ) : Expression π := ⟨⟨false, false⟩, .number i⟩
def operator₁ (p : π) (a : Expression π) : Expression π := ⟨⟨false, true⟩, .un p a.e⟩
def operator₂ (p : π) (a b : Expression π) : Expression π := ⟨⟨false, true⟩, .bin p a.e b.e⟩

def noAssign (x : Expression π) : Expression π := { x with hint := { x.hint with thNoAssign := true } }

/-- `fetchVar` outside a declaration (FromGrin2.hs:220-228). -/
def fetchVar (v : Var) : Expression π :=
  if v = v0 then noAssign ⟨⟨false, false⟩, .err "fetchVar v0"⟩ else variable_ (varName v)

def convertVal : Val π → Expression π
  | .var v => fetchVar v
  | .lit n => constant n
  | .constNode i => variable_ ⟨'c', i⟩
  | .valPrim₁ p x => operator₁ p (convertVal x)
  | .valPrim₂ p x y => operator₂ p (convertVal x) (convertVal y)

-- `assign` is written `=*` in the source (Generate.hs:386-389).
inductive Stmt (π : Type) where
  | expr (e : E π)
  | assign (a b : E π)
  | goto (l : String)
  deriving DecidableEq, Repr

def assign (a b : Expression π) : List (Stmt π) :=
  if a.hint.thNoAssign then
    if b.hint.thOmittable then [] else [.expr b.e]
  else [.assign a.e b.e]

inductive Converted (π : Type) where
  | jump (ss : List (Stmt π))
  | call (fn : String) (args : List (Expression π))
  deriving DecidableEq, Repr

abbrev EMap (π : Type) := List (String × (String × List (Expression π)))

/-- The entry that `convertBody` adds for a definition of a `Let`
(FromGrin2.hs:333-338). -/
def letEntry (name label : String) (params : List Var) : String × (String × List (Expression π)) :=
  (name, (label, params.map fun v => convertVal (.var v)))

/-- `convertExp (App a vs _)` (FromGrin2.hs:595-602). -/
def convertApp (lm : EMap π) (a : String) (vs : List (Val π)) : Converted π :=
  let vs' := vs.map convertVal
  match lm.lookup a with
  | some (nm, as) => .jump ((List.zipWith assign as vs').flatten ++ [.goto nm])
  | none => .call a vs'

/-! ### Meaning -/

/-- The meaning of literals and operators in machine values `α`; `undef` stands
for the value of an expression that is an error text. -/
structure Meaning (π α : Type) where
  number : ℤ → α
  un : π → α → α
  bin : π → α → α → α
  undef : α

abbrev Store (α : Type) := Name → α

def Val.eval (M : Meaning π α) (τ : Store α) : Val π → α
  | .var v => τ (varName v)
  | .lit n => M.number n
  | .constNode i => τ ⟨'c', i⟩
  | .valPrim₁ p x => M.un p (x.eval M τ)
  | .valPrim₂ p x y => M.bin p (x.eval M τ) (y.eval M τ)

def E.eval (M : Meaning π α) (τ : Store α) : E π → α
  | .err _ => M.undef
  | .name n => τ n
  | .number i => M.number i
  | .un p e => M.un p (e.eval M τ)
  | .bin p e₁ e₂ => M.bin p (e₁.eval M τ) (e₂.eval M τ)

def exec (M : Meaning π α) : List (Stmt π) → Store α → Store α × Option String
  | [], τ => (τ, none)
  | .expr _ :: ss, τ => exec M ss τ
  | .assign (.name n) b :: ss, τ => exec M ss (Function.update τ n (b.eval M τ))
  | .assign _ _ :: ss, τ => exec M ss τ
  | .goto l :: _, τ => (τ, some l)

attribute [local grind =] Val.eval E.eval

theorem eval_convertVal (M : Meaning π α) (τ : Store α) (v : Val π) (h : v0 ∉ v.freeVars) :
    (convertVal v).e.eval M τ = v.eval M τ := by
  induction v with
  | var v =>
    have hv : v ≠ v0 := by
      simpa [Val.freeVars, eq_comm] using h
    simp [convertVal, fetchVar, hv, variable_, E.eval, Val.eval]
  | lit n => rfl
  | constNode i => rfl
  | valPrim₁ p x ih => exact congrArg (M.un p) (ih h)
  | valPrim₂ p x y ihx ihy =>
    simp only [Val.freeVars, List.mem_append, not_or] at h
    exact congrArg₂ (M.bin p) (ihx h.1) (ihy h.2)

/-! ### Calls -/

/-- A tail call of a local function: its parameters and the arguments. -/
structure LocalCall (π : Type) where
  params : List Var
  args : List (Val π)
  arity : params.length = args.length
  distinct : (params.filter fun x => x ≠ v0).Nodup
  bound : ∀ v ∈ args, v0 ∉ v.freeVars

namespace LocalCall

def converted (c : LocalCall π) (a nm : String) : Converted π :=
  convertApp [letEntry a nm c.params] a c.args

def bindings (c : LocalCall π) : List (Var × Val π) :=
  (c.params.zip c.args).filter fun b => b.1 ≠ v0

def assignments (M : Meaning π α) (bs : List (Var × Val π)) : List (Assignment Name α) :=
  bs.map fun b => (varName b.1, fun τ => b.2.eval M τ)

/-- The call assigns its parameters simultaneously: control reaches the label,
and there every parameter has the value of its argument before the call. -/
def AssignsSimultaneously (c : LocalCall π) (M : Meaning π α) (τ : Store α) (a nm : String) :
    Prop :=
  ∃ ss, c.converted a nm = .jump ss ∧ (exec M ss τ).2 = some nm ∧
    ∀ b ∈ c.bindings, (exec M ss τ).1 (varName b.1) = b.2.eval M τ

/-- No argument changes its value when the parameters before its own get theirs. -/
def Stable (c : LocalCall π) (M : Meaning π α) (τ : Store α) : Prop :=
  ∀ pre b post, c.bindings = pre ++ b :: post →
    b.2.eval M (parAssign (assignments M pre) τ) = b.2.eval M τ

/-- No argument mentions a parameter before its own, unless that parameter is
passed on unchanged. -/
def NoForwardUse (c : LocalCall π) : Prop :=
  ∀ pre b post, c.bindings = pre ++ b :: post →
    ∀ p ∈ pre, p.1 ∈ b.2.freeVars → p.2 = .var p.1

def statements (ps : List Var) (vs : List (Val π)) : List (Stmt π) :=
  (List.zipWith assign (ps.map fun v => convertVal (.var v)) (vs.map convertVal)).flatten

theorem converted_eq (c : LocalCall π) (a nm : String) :
    c.converted a nm = .jump (statements c.params c.args ++ [.goto nm]) := by
  simp [converted, convertApp, letEntry, statements, List.lookup]

/-- The emitted statements perform the assignments of the bindings in order. -/
theorem exec_statements (M : Meaning π α) (ps : List Var) (vs : List (Val π)) (nm : String)
    (hv : ∀ v ∈ vs, v0 ∉ v.freeVars) (τ : Store α) :
    exec M (statements ps vs ++ [.goto nm]) τ =
      (seqAssign (assignments M ((ps.zip vs).filter fun b => b.1 ≠ v0)) τ, some nm) := by
  induction ps generalizing vs τ with
  | nil => rfl
  | cons x ps ih =>
    cases vs with
    | nil => rfl
    | cons v vs =>
      have hvs : ∀ u ∈ vs, v0 ∉ u.freeVars := fun u hu => hv u (List.mem_cons_of_mem _ hu)
      have hval := eval_convertVal M τ v (hv v (List.mem_cons_self ..))
      have hcons : statements (x :: ps) (v :: vs) =
          assign (convertVal (.var x)) (convertVal v) ++ statements ps vs := rfl
      rw [hcons, List.append_assoc]
      by_cases hx : x = v0
      · have hskip : exec M (assign (convertVal (.var x)) (convertVal v) ++
            (statements ps vs ++ [.goto nm])) τ = exec M (statements ps vs ++ [.goto nm]) τ := by
          unfold assign
          simp only [convertVal, fetchVar, hx, if_true, noAssign]
          split_ifs <;> rfl
        rw [hskip, ih vs hvs]
        simp [hx]
      · have hassign : assign (convertVal (.var x)) (convertVal v) =
            [.assign (.name (varName x)) (convertVal v).e] := by
          simp [assign, convertVal, fetchVar, hx, variable_]
        rw [hassign]
        simp only [List.cons_append, List.nil_append, exec, hval]
        rw [ih vs hvs]
        simp [hx, assignments, seqAssign]

theorem bindings_nodup (c : LocalCall π) (M : Meaning π α) :
    ((assignments M c.bindings).map Prod.fst).Nodup := by
  have hfst : (assignments M c.bindings).map Prod.fst =
      (c.params.filter fun x => x ≠ v0).map varName := by
    have hzip : (c.params.zip c.args).map Prod.fst = c.params :=
      List.map_fst_zip (le_of_eq c.arity)
    calc (assignments M c.bindings).map Prod.fst
        = (c.bindings.map Prod.fst).map varName := by simp [assignments, Function.comp_def]
      _ = (((c.params.zip c.args).map Prod.fst).filter fun x => x ≠ v0).map varName := by
          rw [List.filter_map]
          rfl
      _ = (c.params.filter fun x => x ≠ v0).map varName := by rw [hzip]
  rw [hfst]
  exact c.distinct.map fun _ _ h => varName_inj h

theorem assignsSimultaneously_iff (c : LocalCall π) (M : Meaning π α) (τ : Store α)
    (a nm : String) : c.AssignsSimultaneously M τ a nm ↔ c.Stable M τ := by
  have hexec := exec_statements M c.params c.args nm c.bound τ
  have hsim : c.AssignsSimultaneously M τ a nm ↔ Simultaneous (assignments M c.bindings) τ := by
    constructor
    · rintro ⟨ss, hss, -, hval⟩
      rw [c.converted_eq, Converted.jump.injEq] at hss
      subst hss
      rw [hexec] at hval
      intro as has
      obtain ⟨b, hb, rfl⟩ := List.mem_map.mp has
      exact hval b hb
    · intro h
      refine ⟨_, c.converted_eq a nm, ?_, ?_⟩
      · rw [hexec]
      · rw [hexec]
        intro b hb
        exact h _ (List.mem_map_of_mem hb)
  rw [hsim, simultaneous_iff (c.bindings_nodup M)]
  constructor
  · intro h pre b post hsplit
    have hmap : assignments M c.bindings = assignments M pre ++
        (varName b.1, fun τ => b.2.eval M τ) :: assignments M post := by
      simp [assignments, hsplit]
    exact h _ _ _ hmap
  · intro h pre as post hsplit
    obtain ⟨pre', rest, hbs, rfl, hrest⟩ := List.map_eq_append_iff.mp hsplit
    obtain ⟨b, post', rfl, rfl, -⟩ := List.map_eq_cons_iff.mp hrest
    exact h pre' b post' hbs

/-! ### Which calls are simultaneous -/

theorem eval_congr (M : Meaning π α) {τ τ' : Store α} (v : Val π)
    (hvar : ∀ x ∈ v.freeVars, τ (varName x) = τ' (varName x))
    (hconst : ∀ i, τ ⟨'c', i⟩ = τ' ⟨'c', i⟩) : v.eval M τ = v.eval M τ' := by
  induction v with
  | var x => exact hvar x (by simp [Val.freeVars])
  | lit n => rfl
  | constNode i => exact hconst i
  | valPrim₁ p x ih => exact congrArg (M.un p) (ih hvar)
  | valPrim₂ p x y ihx ihy =>
    simp only [Val.freeVars, List.mem_append] at hvar
    exact congrArg₂ (M.bin p) (ihx fun z hz => hvar z (Or.inl hz))
      (ihy fun z hz => hvar z (Or.inr hz))

theorem varName_ne_const (x : ℤ) (i : ℕ) : varName x ≠ ⟨'c', i⟩ := by
  unfold varName
  split_ifs <;> simp

theorem parAssign_bindings (M : Meaning π α) (τ : Store α) (bs : List (Var × Val π))
    (x : ℤ) (h : ∀ b ∈ bs, b.1 = x → b.2 = .var x) :
    parAssign (assignments M bs) τ (varName x) = τ (varName x) := by
  induction bs using List.reverseRecOn with
  | nil => rfl
  | append_singleton bs b ih =>
    have hstep : parAssign (assignments M (bs ++ [b])) τ =
        Function.update (parAssign (assignments M bs) τ) (varName b.1) (b.2.eval M τ) := by
      simp only [assignments, List.map_append, List.map_cons, List.map_nil, parAssign_concat]
    rw [hstep]
    by_cases hb : b.1 = x
    · have hval := h b (by simp) hb
      rw [hb, Function.update_self, hval]
      rfl
    · have hne : varName x ≠ varName b.1 := fun heq => hb (varName_inj heq).symm
      rw [Function.update_of_ne hne]
      exact ih fun c hc => h c (List.mem_append_left _ hc)

theorem parAssign_const (M : Meaning π α) (τ : Store α) (bs : List (Var × Val π)) (i : ℕ) :
    parAssign (assignments M bs) τ ⟨'c', i⟩ = τ ⟨'c', i⟩ := by
  refine parAssign_of_notMem ?_ τ
  rw [assignments, List.map_map, List.mem_map]
  rintro ⟨b, -, hb⟩
  exact varName_ne_const b.1 i hb

theorem NoForwardUse.stable {c : LocalCall π} (h : c.NoForwardUse) (M : Meaning π α)
    (τ : Store α) : c.Stable M τ := by
  intro pre b post hsplit
  refine eval_congr M b.2 (fun x hx => ?_) (parAssign_const M τ pre)
  refine parAssign_bindings M τ pre x fun p hp hpx => ?_
  subst hpx
  exact h pre b post hsplit p hp hx

def termMeaning : Meaning π (Val π) where
  number := .lit
  un := .valPrim₁
  bin := .valPrim₂
  undef := .lit 0

def termStore : Store (Val π) := fun n =>
  if n.letter = 'c' then .constNode n.num
  else if n.letter = 'g' then .var (-n.num)
  else .var n.num

theorem termStore_varName (x : ℤ) : termStore (π := π) (varName x) = .var x := by
  unfold varName termStore
  by_cases hx : x < 0
  · have hcast : -((-x).toNat : ℤ) = x := by omega
    simpa [hx] using hcast
  · have hcast : (x.toNat : ℤ) = x := by omega
    simpa [hx] using hcast

theorem eval_termStore (v : Val π) : v.eval termMeaning termStore = v := by
  induction v with
  | var x => exact termStore_varName x
  | lit n => rfl
  | constNode i => rfl
  | valPrim₁ p x ih => exact congrArg (Val.valPrim₁ p) ih
  | valPrim₂ p x y ihx ihy => exact congrArg₂ (Val.valPrim₂ p) ihx ihy

theorem eval_term_fixed {τ : Store (Val π)} {v : Val π} (h : v.eval termMeaning τ = v) :
    ∀ x ∈ v.freeVars, τ (varName x) = .var x := by
  induction v with
  | var y =>
    intro x hx
    simp only [Val.freeVars, List.mem_singleton] at hx
    subst hx
    exact h
  | lit n => simp [Val.freeVars]
  | constNode i => simp [Val.freeVars]
  | valPrim₁ p y ih =>
    simp only [Val.eval, termMeaning, Val.valPrim₁.injEq, true_and] at h
    exact ih h
  | valPrim₂ p y z ihy ihz =>
    simp only [Val.eval, termMeaning, Val.valPrim₂.injEq, true_and] at h
    intro x hx
    rcases List.mem_append.mp hx with hx | hx
    · exact ihy h.1 x hx
    · exact ihz h.2 x hx

theorem noForwardUse_of_stable {c : LocalCall π} (h : c.Stable termMeaning termStore) :
    c.NoForwardUse := by
  intro pre b post hsplit p hp hx
  have hb := h pre b post hsplit
  rw [eval_termStore] at hb
  have hfix := eval_term_fixed hb p.1 hx
  have hnd : ((assignments termMeaning pre).map Prod.fst).Nodup := by
    have hall := c.bindings_nodup (termMeaning (π := π))
    rw [hsplit] at hall
    simp only [assignments, List.map_append, List.nodup_append] at hall ⊢
    exact hall.1
  have hmem : (varName p.1, fun τ => p.2.eval termMeaning τ) ∈ assignments termMeaning pre :=
    List.mem_map_of_mem hp
  have hval := parAssign_of_mem hnd hmem termStore
  dsimp only at hval
  rw [hfix, eval_termStore] at hval
  exact hval.symm

end LocalCall

/-- When a local tail call assigns its parameters simultaneously. For given
operators and a given store: when no argument changes its value as the earlier
parameters get theirs. For all operators and stores: when no argument mentions
an earlier parameter that is not passed on unchanged. -/
theorem local_call_exact (c : LocalCall π) (a nm : String) :
    (∀ (α : Type) (M : Meaning π α) (τ : Store α),
      c.AssignsSimultaneously M τ a nm ↔ c.Stable M τ) ∧
    ((∀ (α : Type) (M : Meaning π α) (τ : Store α), c.AssignsSimultaneously M τ a nm) ↔
      c.NoForwardUse) := by
  refine ⟨fun α M τ => c.assignsSimultaneously_iff M τ a nm, ?_⟩
  constructor
  · intro h
    exact LocalCall.noForwardUse_of_stable
      ((c.assignsSimultaneously_iff _ _ a nm).mp (h (Val π) LocalCall.termMeaning LocalCall.termStore))
  · intro h α M τ
    exact (c.assignsSimultaneously_iff M τ a nm).mpr (h.stable M τ)

/-- The call `f y x` in the body of a local function `f x y`. -/
def swapCall : LocalCall Unit where
  params := [1, 2]
  args := [.var 2, .var 1]
  arity := rfl
  distinct := by decide
  bound := by decide

theorem swapCall_not_simultaneous :
    ¬ swapCall.AssignsSimultaneously ⟨id, fun _ i => i, fun _ i _ => i, 0⟩
      (fun n => if n = varName 1 then (10 : ℤ) else 20) "f" "f_1" := by
  rintro ⟨ss, hss, -, hval⟩
  rw [swapCall.converted_eq, Converted.jump.injEq] at hss
  subst hss
  have hy := hval (2, .var 1) (by decide)
  exact absurd hy (by decide)

end Jhc.C

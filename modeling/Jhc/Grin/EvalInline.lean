import Jhc.Grin.Partial
import Mathlib.Data.Finset.Sort
import Mathlib.Order.Lattice

/-!
# Apply functions (Grin/EvalInline.hs:97-162)

Each application of an unknown function is replaced by a call of a generated function,
one for each type of argument and of result, that dispatches on the tags of the partial
applications in the program.
-/

namespace Jhc.Grin

/-! ### Tags that applications make (EvalInline.hs:134-139) -/

/-- The number of arguments that a node waits for. -/
def tagArity (t : Tag) : ℕ := ((tagUnfunction t).map Prod.fst).getD 0

theorem tagArity_partialTag {t t' f : Tag} {n : ℕ} (h : tagUnfunction t = some (n + 2, f))
    (ht' : partialTag f (n + 1) = some t') : tagArity t' = n + 1 := by
  obtain ⟨cs, hcs⟩ := toList_of_tagUnfunction h
  rw [tagArity, tagUnfunction_partialTag hcs ht']
  rfl

/-- A tag and those of the applications that its nodes are completed to. -/
def mplad (t : Tag) : List Tag :=
  match h : tagUnfunction t with
  | some (n + 2, tag) =>
    match h' : partialTag tag (n + 1) with
    | some t' => t :: mplad t'
    | none => [t]
  | _ => [t]
termination_by tagArity t
decreasing_by
  rw [tagArity_partialTag h h', tagArity, h]
  simp

theorem mplad_step {t t' f : Tag} {n : ℕ} (h : tagUnfunction t = some (n + 2, f))
    (h' : partialTag f (n + 1) = some t') : mplad t = t :: mplad t' := by
  rw [mplad]
  split
  · next m g hg =>
    cases h.symm.trans hg
    split
    · next s hs =>
      cases h'.symm.trans hs
      rfl
    · next hs => cases h'.symm.trans hs
  · next hnot => exact absurd h (hnot n f)

theorem mplad_stop {t : Tag}
    (h : ∀ n f t', tagUnfunction t = some (n + 2, f) → partialTag f (n + 1) ≠ some t') : mplad t = [t] := by
  rw [mplad]
  split
  · next n f hf =>
    split
    · next t' ht' => exact absurd ht' (h n f t' hf)
    · rfl
  · rfl

theorem mplad_self (t : Tag) : t ∈ mplad t := by
  by_cases h : ∃ n f t', tagUnfunction t = some (n + 2, f) ∧ partialTag f (n + 1) = some t'
  · obtain ⟨n, f, t', hf, ht'⟩ := h
    rw [mplad_step hf ht']
    exact List.mem_cons_self
  · rw [mplad_stop fun n f t' hf ht' => h ⟨n, f, t', hf, ht'⟩]
    exact List.mem_cons_self

/-- What an application of a node results in is among the tags. -/
theorem mplad_closed {s t t' f : Tag} {n : ℕ} (ht : t ∈ mplad s) (h : tagUnfunction t = some (n + 2, f))
    (ht' : partialTag f (n + 1) = some t') : t' ∈ mplad s := by
  induction s using mplad.induct with
  | case1 s m g hs s' hs' ih =>
    rw [mplad_step hs hs'] at ht ⊢
    rcases List.mem_cons.1 ht with rfl | ht
    · cases hs.symm.trans h
      cases hs'.symm.trans ht'
      exact List.mem_cons_of_mem _ (mplad_self _)
    · exact List.mem_cons_of_mem _ (ih ht)
  | case2 s m g hs hs' =>
    rw [mplad_stop fun n f t' hf hft' => by cases hs.symm.trans hf; cases hs'.symm.trans hft'] at ht
    rw [List.mem_singleton.1 ht] at h
    cases hs.symm.trans h
    cases hs'.symm.trans ht'
  | case3 s hs =>
    rw [mplad_stop fun n f t' hf _ => hs n f hf] at ht
    rw [List.mem_singleton.1 ht] at h
    exact absurd h (hs n f)

/-! ### createApply (EvalInline.hs:97-124) -/

def v1 : Var := 1
def v2 : Var := 2
def v3 : Var := 3

def findArgsType (te : TyEnv) (a : Atom) : Option (List Ty × List Ty) :=
  (findTyTy te a).map fun tyty => (tyty.tySlots, tyty.tyReturn)

def tagGood (argType : Ty) (retType : List Ty) (te : TyEnv) (t : Tag) : Bool :=
  match findTyTy te t with
  | some tyty =>
    match tyty.tyThunk with
    | .tyPApp mt w =>
      (some argType == mt || (argType == .tyUnit && mt == none)) &&
        (findArgsType te w).map Prod.snd == some retType
    | _ => false
  | none => false

def applyVars (ts : List Ty) : List Val := ts.mapIdx fun i ty => .var (v3 + i) ty

/-- The alternative for a tag; `none` where the source has an error. -/
def applyAlt (argType : Ty) (te : TyEnv) (t : Tag) : Option Lam := do
  let (ts, _) ← findArgsType te t
  let vs := applyVars ts
  let (n, fn) ← tagUnfunction t
  let a2s := if argType = .tyUnit then [] else [Val.var v2 argType]
  if n = 1 then do
    let (_, ty) ← findArgsType te fn
    some (.mk [.nodeC t vs] (.app fn (vs ++ a2s) ty))
  else if n > 1 then do
    let t' ← partialTag fn (n - 1)
    some (.mk [.nodeC t vs] (.baseOp (.storeNode true) [.nodeC t' (vs ++ a2s)]))
  else none

def createApply (argType : Ty) (retType : List Ty) (te : TyEnv) (ts' : List Tag) : Option Lam := do
  let ts := ts'.mergeSort fun a b => decide (a ≤ b)
  let cs ← (ts.filter (tagGood argType retType te)).mapM (applyAlt argType te)
  let ps := if argType = .tyUnit then [Val.var v1 .tyNode] else [.var v1 .tyNode, .var v2 argType]
  if cs.isEmpty then some (.mk ps (.error ("Empty Apply:" ++ toString ts) retType))
  else some (.mk ps (.case (.var v1 .tyNode) cs))

/-! ### createEvalApply (EvalInline.hs:126-162) -/

abbrev ApplyKey := Ty × List Ty

/-- The functions that were named so far, and the supply of names. -/
structure OnceMap where
  map : List (ApplyKey × Atom)
  uniq : ℕ

def applyName (u : ℕ) : Atom := "bapply_" ++ toString u

def runOnceMap (key : ApplyKey) : StateT OnceMap Option Atom := do
  let m ← get
  match m.map.lookup key with
  | some fn => pure fn
  | none => do
    set (⟨m.map ++ [(key, applyName m.uniq)], m.uniq + 1⟩ : OnceMap)
    pure (applyName m.uniq)

/-- `g` of the source, which goes down by `mapExpExp`. -/
def applyExp : Exp → StateT OnceMap Option Exp
  | .baseOp (.apply ty) [fun_] => do
    let fn' ← runOnceMap (.tyUnit, ty)
    pure (.app fn' [fun_] ty)
  | .baseOp (.apply ty) [fun_, arg] => do
    let t ← (arg.getType : Option Ty)
    let fn' ← runOnceMap (t, ty)
    pure (.app fn' [fun_, arg] ty)
  | e => do
    let bs ← e.blocks.attach.mapM fun b => applyExp b.1.2
    pure (e.withBlocks bs)
termination_by e => sizeOf e
decreasing_by exact Exp.sizeOf_block b.2

def applyLam (l : Lam) : StateT OnceMap Option Lam := do
  let e ← applyExp l.exp
  pure (.mk l.bind e)

structure GrinProgram where
  grinFunctions : List FuncDef
  grinTypeEnv : TyEnv

def createFuncDef (name : Atom) (body : Lam) : FuncDef := .mk name body body.funcProps

/-- The tags in the program and those that applications make. -/
def applyTags (grin : GrinProgram) : List Tag :=
  let ftags : Finset Tag := (grin.grinFunctions.map fun d => d.body.exp.tags).foldr (· ∪ ·) ∅
  let plads : Finset Tag := ((ftags.sort (· ≤ ·)).flatMap mplad).toFinset
  (ftags ∪ plads).sort (· ≤ ·)

def applyFunc (d : FuncDef) : StateT OnceMap Option (Atom × Lam) := do
  let l ← applyLam d.body
  pure (d.name, l)

def applyBody (te : TyEnv) (tags : List Tag) (a : ApplyKey × Atom) : Option (Atom × Lam) := do
  let body ← createApply a.1.1 a.1.2 te tags
  some (a.2, body)

def applyTy (key : ApplyKey) : TyTy :=
  { tyTy with tySlots := if key.1 = .tyUnit then [.tyNode] else [.tyNode, key.1], tyReturn := key.2 }

/-- `u` is where the supply of names is. -/
def createEvalApply (u : ℕ) (grin : GrinProgram) : Option GrinProgram := do
  let tags := applyTags grin
  let (funcs, m) ← (grin.grinFunctions.mapM applyFunc).run ⟨[], u⟩
  let apps ← m.map.mapM (applyBody grin.grinTypeEnv tags)
  let ntyenv := m.map.map fun a : ApplyKey × Atom => (a.2, applyTy a.1)
  some ⟨(apps ++ funcs).map fun x => createFuncDef x.1 x.2, grin.grinTypeEnv ++ ntyenv⟩

end Jhc.Grin

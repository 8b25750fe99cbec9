import Jhc.Lib.Lookup
import Jhc.Grin.Syntax

/-!
# Calls and scopes of Grin expressions

What a pass over Grin has to keep: the calls of an expression and their arguments,
the local functions that it binds, the calls that are in scope with the right
number of arguments, and the cached properties.
-/

namespace Jhc.Grin

namespace Exp

/-! ### Blocks of a rebuilt expression -/

/-- `withBlocks` before the properties of a `Let` are computed. -/
def setBlocks : Exp → List Exp → Exp
  | bind _ l, [a, b] => bind a (.mk l.bind b)
  | case v as, cs => case v (List.zipWith (fun l c => .mk l.bind c) as cs)
  | lett ds _ p, b :: cs =>
    lett (List.zipWith (fun d c => (FuncDef.mk d.name (.mk d.body.bind c) d.props).updateFuncDefProps) ds cs)
      b p
  | newRegion l, [b] => newRegion (.mk l.bind b)
  | mkCont c l, [a, b] => mkCont (.mk c.bind a) (.mk l.bind b)
  | gcRoots vs _, [b] => gcRoots vs b
  | e, _ => e

attribute [local grind =] setBlocks

/-- What `withBlocks` has in common with `setBlocks`. -/
theorem withBlocks_eq {α : Type} {F : Exp → α} (hF : ∀ e, F (updateLetProps e) = F e) (e : Exp)
    (cs : List Exp) : F (e.withBlocks cs) = F (e.setBlocks cs) := by
  cases e with
  | lett ds b p =>
    cases cs with
    | nil => rfl
    | cons c cs =>
      simp only [withBlocks, setBlocks]
      rw [hF, hF]
  | _ => rcases cs with _ | ⟨a, _ | ⟨b, _ | ⟨c, cs⟩⟩⟩ <;> rfl

theorem blocks_zipLams (ls : List Lam) (cs : List Exp) :
    (List.zipWith (fun l c => Lam.mk l.bind c) ls cs).map (fun l => (l.bind, l.exp)) =
      List.zipWith (fun b c => (b.1, c)) (ls.map fun l => (l.bind, l.exp)) cs := by
  induction ls generalizing cs with
  | nil => rfl
  | cons l ls ih =>
    cases cs with
    | nil => rfl
    | cons c cs => simp [ih]

theorem blocks_zipDefs (ds : List FuncDef) (cs : List Exp) :
    (List.zipWith (fun d c => (FuncDef.mk d.name (.mk d.body.bind c) d.props).updateFuncDefProps) ds cs).map
        (fun d => (d.body.bind, d.body.exp)) =
      List.zipWith (fun b c => (b.1, c)) (ds.map fun d => (d.body.bind, d.body.exp)) cs := by
  induction ds generalizing cs with
  | nil => rfl
  | cons d ds ih =>
    cases cs with
    | nil => rfl
    | cons c cs => simp [ih]

theorem blocks_setBlocks {e : Exp} {cs : List Exp} (h : cs.length = e.blocks.length) :
    (e.setBlocks cs).blocks = List.zipWith (fun b c => (b.1, c)) e.blocks cs := by
  cases e with
  | bind e l =>
    obtain ⟨a, b, rfl⟩ := List.length_eq_two.1 h
    rfl
  | case v as => exact blocks_zipLams as cs
  | lett ds b p =>
    cases cs with
    | nil => simp [blocks] at h
    | cons c cs =>
      have hds := blocks_zipDefs ds cs
      simp only [setBlocks, blocks, List.zipWith_cons_cons, hds]
  | newRegion l =>
    obtain ⟨a, rfl⟩ := List.length_eq_one_iff.1 h
    rfl
  | mkCont c l =>
    obtain ⟨a, b, rfl⟩ := List.length_eq_two.1 h
    rfl
  | gcRoots vs b =>
    obtain ⟨a, rfl⟩ := List.length_eq_one_iff.1 h
    rfl
  | _ => simp [setBlocks, blocks]

theorem vals_setBlocks (e : Exp) (cs : List Exp) : (e.setBlocks cs).vals = e.vals := by
  unfold setBlocks
  split <;> rfl

/-! ### Collections over an expression -/

section collect

variable {α : Type} (own : Exp → List α)

/-- What all parts of an expression have of their own. -/
def collect (e : Exp) : List α :=
  own e ++ (e.blocks.attach.map fun b => b.1.2.collect).flatten
termination_by sizeOf e
decreasing_by exact sizeOf_block b.2

theorem collect_eq (e : Exp) : e.collect own = own e ++ e.blocks.flatMap fun b => b.2.collect own := by
  rw [collect, List.attach_map_val (f := fun b : List Val × Exp => b.2.collect own), List.flatMap_def]

theorem mem_collect {own : Exp → List α} {e : Exp} {x : α} :
    x ∈ e.collect own ↔ x ∈ own e ∨ ∃ b ∈ e.blocks, x ∈ b.2.collect own := by
  rw [collect_eq, List.mem_append, List.mem_flatMap]

theorem collect_updateLetProps {own : Exp → List α} (hnil : ∀ b p, own (lett [] b p) = [])
    (hprops : ∀ ds b p q, own (lett ds b p) = own (lett ds b q)) (e : Exp) :
    (updateLetProps e).collect own = e.collect own := by
  unfold updateLetProps
  split
  · next b p =>
    rw [collect_eq own (lett [] b p), hnil]
    simp [blocks]
  · next ds b p _ =>
    rw [collect_eq, collect_eq own (lett ds b p), hprops ds b _ p]
    rfl
  · rfl

theorem collect_setBlocks {e : Exp} {cs : List Exp} (h : cs.length = e.blocks.length) :
    (e.setBlocks cs).collect own = own (e.setBlocks cs) ++ cs.flatMap fun c => c.collect own := by
  rw [collect_eq, blocks_setBlocks h]
  congr 1
  rw [← List.map_uncurry_zip_eq_zipWith, List.flatMap_map]
  have hsnd : ((e.blocks.zip cs).flatMap fun b => b.2.collect own) =
      ((e.blocks.zip cs).map Prod.snd).flatMap fun c => c.collect own := by
    rw [List.flatMap_map]
  rw [List.map_snd_zip (le_of_eq h)] at hsnd
  exact hsnd

end collect

/-- The call that an expression makes, with its arguments. -/
def ownCalls : Exp → List (Atom × List Val)
  | app a as _ => [(a, as)]
  | call (.item a _) as _ _ => [(a, as)]
  | _ => []

/-- The local functions that an expression binds, with their parameters. -/
def ownDefs : Exp → List (Atom × List Val)
  | lett ds _ _ => ds.map fun d => (d.name, d.body.bind)
  | _ => []

/-- The local functions of a `Let`. -/
def defs : Exp → List FuncDef
  | lett ds _ _ => ds
  | _ => []

attribute [local grind =] ownCalls

theorem ownDefs_eq (e : Exp) : e.ownDefs = e.defs.map fun d => (d.name, d.body.bind) := by
  cases e <;> rfl

theorem block_of_def {e : Exp} {d : FuncDef} (h : d ∈ e.defs) : (d.body.bind, d.body.exp) ∈ e.blocks := by
  cases e with
  | lett ds b p => exact List.mem_cons_of_mem _ (List.mem_map_of_mem h)
  | _ => cases h

def calls (e : Exp) : List (Atom × List Val) := e.collect ownCalls

def localDefs (e : Exp) : List (Atom × List Val) := e.collect ownDefs

def localNames (e : Exp) : List Atom := e.localDefs.map Prod.fst

theorem mem_calls {e : Exp} {c : Atom × List Val} :
    c ∈ e.calls ↔ c ∈ e.ownCalls ∨ ∃ b ∈ e.blocks, c ∈ b.2.calls :=
  mem_collect

theorem mem_localDefs {e : Exp} {d : Atom × List Val} :
    d ∈ e.localDefs ↔ d ∈ e.ownDefs ∨ ∃ b ∈ e.blocks, d ∈ b.2.localDefs :=
  mem_collect

theorem calls_updateLetProps (e : Exp) : (updateLetProps e).calls = e.calls :=
  collect_updateLetProps (fun _ _ => rfl) (fun _ _ _ _ => rfl) e

theorem localDefs_updateLetProps (e : Exp) : (updateLetProps e).localDefs = e.localDefs :=
  collect_updateLetProps (fun _ _ => rfl) (fun _ _ _ _ => rfl) e

theorem ownCalls_setBlocks (e : Exp) (cs : List Exp) : (e.setBlocks cs).ownCalls = e.ownCalls := by
  unfold setBlocks
  split <;> rfl

theorem defs_zip (ds : List FuncDef) {cs : List Exp} (h : cs.length = ds.length) :
    (List.zipWith (fun d c => (FuncDef.mk d.name (.mk d.body.bind c) d.props).updateFuncDefProps) ds cs).map
        (fun d => (d.name, d.body.bind)) = ds.map fun d => (d.name, d.body.bind) := by
  induction ds generalizing cs with
  | nil => simp
  | cons d ds ih =>
    cases cs with
    | nil => cases h
    | cons c cs => simp [ih (Nat.succ.inj h)]

theorem ownDefs_setBlocks {e : Exp} {cs : List Exp} (h : cs.length = e.blocks.length) :
    (e.setBlocks cs).ownDefs = e.ownDefs := by
  cases e with
  | lett ds b p =>
    cases cs with
    | nil => rfl
    | cons c cs => exact defs_zip ds (by simpa [blocks] using h)
  | _ => rcases cs with _ | ⟨a, _ | ⟨b, _ | ⟨c, cs⟩⟩⟩ <;> rfl

theorem calls_withBlocks {e : Exp} {cs : List Exp} (h : cs.length = e.blocks.length) :
    (e.withBlocks cs).calls = e.ownCalls ++ cs.flatMap calls := by
  rw [withBlocks_eq calls_updateLetProps, calls, collect_setBlocks ownCalls h, ownCalls_setBlocks]
  rfl

theorem localDefs_withBlocks {e : Exp} {cs : List Exp} (h : cs.length = e.blocks.length) :
    (e.withBlocks cs).localDefs = e.ownDefs ++ cs.flatMap localDefs := by
  rw [withBlocks_eq localDefs_updateLetProps, localDefs, collect_setBlocks ownDefs h, ownDefs_setBlocks h]
  rfl

theorem calls_setBlocks {e : Exp} {cs : List Exp} (h : cs.length = e.blocks.length) :
    (e.setBlocks cs).calls = e.ownCalls ++ cs.flatMap calls := by
  rw [calls, collect_setBlocks ownCalls h, ownCalls_setBlocks]
  rfl

/-- The blocks of a rebuilt expression, for a property of all of them. -/
theorem forall_zip {e : Exp} {cs : List Exp} (h : cs.length = e.blocks.length) {P : Exp → Prop} :
    (∀ b ∈ List.zipWith (fun (b : List Val × Exp) c => (b.1, c)) e.blocks cs, P b.2) ↔ ∀ c ∈ cs, P c := by
  have hsnd : (List.zipWith (fun (b : List Val × Exp) c => (b.1, c)) e.blocks cs).map Prod.snd = cs := by
    rw [← List.map_uncurry_zip_eq_zipWith, List.map_map]
    exact List.map_snd_zip (le_of_eq h)
  constructor
  · intro hall c hc
    rw [← hsnd] at hc
    obtain ⟨b, hb, rfl⟩ := List.mem_map.1 hc
    exact hall b hb
  · intro hall b hb
    apply hall
    rw [← hsnd]
    exact List.mem_map_of_mem hb

end Exp

/-! ### Calls with the right number of arguments -/

/-- The number of parameters of each function in scope. -/
abbrev Scope := Atom → Option ℕ

def Scope.add (Γ : Scope) (ds : List (Atom × List Val)) : Scope := fun a =>
  match ds.lookup a with
  | some ps => some ps.length
  | none => Γ a

/-- The scope of the blocks of an expression. -/
def Scope.enter (Γ : Scope) (e : Exp) : Scope := Γ.add e.ownDefs

/-- Every call targets a function in scope and passes as many arguments as it takes. -/
def CallsOk (Γ : Scope) (e : Exp) : Prop :=
  (∀ c ∈ e.ownCalls, Γ c.1 = some c.2.length) ∧ ∀ b : {b // b ∈ e.blocks}, CallsOk (Γ.enter e) b.1.2
termination_by sizeOf e
decreasing_by exact Exp.sizeOf_block b.2

theorem callsOk_iff {Γ : Scope} {e : Exp} :
    CallsOk Γ e ↔ (∀ c ∈ e.ownCalls, Γ c.1 = some c.2.length) ∧ ∀ b ∈ e.blocks, CallsOk (Γ.enter e) b.2 := by
  rw [CallsOk, Subtype.forall]

@[reducible]
def decidableCallsOk (Γ : Scope) (e : Exp) : Decidable (CallsOk Γ e) :=
  have : ∀ b : {b // b ∈ e.blocks}, Decidable (CallsOk (Γ.enter e) b.1.2) := fun b =>
    decidableCallsOk (Γ.enter e) b.1.2
  decidable_of_iff ((∀ c ∈ e.ownCalls, Γ c.1 = some c.2.length) ∧
    ∀ b ∈ e.blocks.attach, CallsOk (Γ.enter e) b.1.2) (by rw [CallsOk]; simp)
termination_by sizeOf e
decreasing_by exact Exp.sizeOf_block b.2

instance (Γ : Scope) : DecidablePred (CallsOk Γ) := decidableCallsOk Γ

theorem callsOk_updateLetProps (Γ : Scope) (e : Exp) : CallsOk Γ (updateLetProps e) = CallsOk Γ e := by
  unfold updateLetProps
  split
  · next b p =>
    apply propext
    rw [callsOk_iff (e := .lett [] b p)]
    have henter : Γ.enter (.lett [] b p) = Γ := rfl
    simp [Exp.ownCalls, Exp.blocks, henter]
  · next ds b p _ =>
    apply propext
    rw [callsOk_iff, callsOk_iff (e := .lett ds b p)]
    rfl
  · rfl

theorem callsOk_withBlocks {Γ : Scope} {e : Exp} {cs : List Exp} (h : cs.length = e.blocks.length) :
    CallsOk Γ (e.withBlocks cs) ↔
      (∀ c ∈ e.ownCalls, Γ c.1 = some c.2.length) ∧ ∀ c ∈ cs, CallsOk (Γ.enter e) c := by
  rw [Exp.withBlocks_eq (callsOk_updateLetProps Γ), callsOk_iff, Exp.blocks_setBlocks h, Exp.ownCalls_setBlocks]
  have henter : Γ.enter (e.setBlocks cs) = Γ.enter e := by
    funext a
    simp only [Scope.enter, Exp.ownDefs_setBlocks h]
  rw [henter, Exp.forall_zip h]

theorem Scope.enter_none {Γ : Scope} {e : Exp} {a : Atom} (h : a ∉ e.localNames) : Γ.enter e a = Γ a := by
  unfold Scope.enter Scope.add
  split
  · next ps hps =>
    have hmem : (a, ps) ∈ e.localDefs := Exp.mem_localDefs.2 (.inl (Lib.mem_of_lookup hps))
    exact absurd (List.mem_map_of_mem hmem) h
  · rfl

theorem callsOk_mono {e : Exp} {Γ Γ' : Scope} (hok : CallsOk Γ e)
    (h : ∀ c ∈ e.calls, ∀ n, Γ c.1 = some n → Γ' c.1 = some n) : CallsOk Γ' e := by
  induction e using Exp.blocks_induction generalizing Γ Γ' with
  | h e ih =>
    obtain ⟨hown, hblocks⟩ := callsOk_iff.1 hok
    apply callsOk_iff.2
    constructor
    · intro c hc
      exact h c (Exp.mem_calls.2 (.inl hc)) _ (hown c hc)
    · intro b hb
      apply ih b hb (hblocks b hb)
      intro c hc n hn
      unfold Scope.enter Scope.add at hn ⊢
      cases hlook : e.ownDefs.lookup c.1 with
      | none =>
        rw [hlook] at hn
        exact h c (Exp.mem_calls.2 (.inr ⟨b, hb, hc⟩)) n hn
      | some ps =>
        rw [hlook] at hn
        exact hn

theorem Exp.localNames_block {e : Exp} {b : List Val × Exp} (hb : b ∈ e.blocks) {a : Atom}
    (h : a ∈ b.2.localNames) : a ∈ e.localNames := by
  obtain ⟨d, hd, rfl⟩ := List.mem_map.1 h
  exact List.mem_map_of_mem (Exp.mem_localDefs.2 (.inr ⟨b, hb, hd⟩))

theorem callsOk_call {e : Exp} {Γ : Scope} (hok : CallsOk Γ e) {c : Atom × List Val} (hc : c ∈ e.calls)
    (hname : c.1 ∉ e.localNames) : Γ c.1 = some c.2.length := by
  induction e using Exp.blocks_induction generalizing Γ with
  | h e ih =>
    obtain ⟨hown, hblocks⟩ := callsOk_iff.1 hok
    obtain hc | ⟨b, hb, hc⟩ := Exp.mem_calls.1 hc
    · exact hown c hc
    · have hinner := ih b hb (hblocks b hb) hc fun hmem => hname (Exp.localNames_block hb hmem)
      rwa [Scope.enter_none hname] at hinner

/-! ### Free variables of a rebuilt expression -/

namespace Exp

theorem mem_freeVars {e : Exp} {x : Var × Ty} :
    x ∈ e.freeVars ↔ x ∈ Val.freeVarsOf e.vals ∨
      ∃ b ∈ e.blocks, x ∈ b.2.freeVars ∧ x ∉ Val.freeVarsOf b.1 := by
  rw [freeVars]
  simp

theorem freeVars_updateLetProps (e : Exp) (x : Var × Ty) :
    (x ∈ (updateLetProps e).freeVars) = (x ∈ e.freeVars) := by
  unfold updateLetProps
  split
  · next b p =>
    apply propext
    rw [mem_freeVars (e := lett [] b p)]
    simp [blocks, vals, Val.freeVarsOf]
  · next ds b p _ =>
    apply propext
    rw [mem_freeVars, mem_freeVars (e := lett ds b p)]
    rfl
  · rfl

theorem mem_freeVars_withBlocks {e : Exp} {cs : List Exp} (h : cs.length = e.blocks.length) {x : Var × Ty} :
    x ∈ (e.withBlocks cs).freeVars ↔ x ∈ Val.freeVarsOf e.vals ∨
      ∃ b ∈ e.blocks.zip cs, x ∈ b.2.freeVars ∧ x ∉ Val.freeVarsOf b.1.1 := by
  rw [withBlocks_eq (F := fun e => x ∈ e.freeVars) (fun e => freeVars_updateLetProps e x), mem_freeVars, vals_setBlocks, blocks_setBlocks h,
    ← List.map_uncurry_zip_eq_zipWith]
  simp only [List.mem_map, exists_exists_and_eq_and]
  rfl

end Exp

/-! ### Tags -/

theorem mem_foldr_union {α : Type} [DecidableEq α] {ss : List (Finset α)} {x : α} :
    x ∈ ss.foldr (· ∪ ·) ∅ ↔ ∃ s ∈ ss, x ∈ s := by
  induction ss with
  | nil => simp
  | cons s ss ih => simp [ih]

theorem mem_tags_lett {ds : List FuncDef} {b : Exp} {p : Option LetProps} {t : Tag} :
    t ∈ (Exp.lett ds b p).tags ↔ t ∈ b.tags ∨ ∃ d ∈ ds, t ∈ d.props.funcTags := by
  rw [Exp.tags, Finset.mem_union, mem_foldr_union]
  simp

theorem mem_tags {e : Exp} (h : ∀ ds b p, e ≠ .lett ds b p) {t : Tag} :
    t ∈ e.tags ↔ t ∈ e.appTag ∨ t ∈ Val.tagsOf e.vals ∨
      ∃ b ∈ e.blocks, t ∈ b.2.tags ∨ t ∈ Val.tagsOf b.1 := by
  rw [Exp.tags]
  · rw [Finset.mem_union, Finset.mem_union, mem_foldr_union, or_assoc]
    simp
  · exact h

/-! ### Cached properties -/

/-- A `Let` is as `updateLetProps` leaves it and holds no error, and its functions are
as `updateFuncDefProps` leaves them. -/
def LettCached : Exp → Prop
  | .lett ds b p => ds ≠ [] ∧ p.isSome ∧ p = letProps ds b ∧ ∀ d ∈ ds, d.props = d.body.funcProps
  | _ => True

instance : DecidablePred LettCached := fun e => by
  unfold LettCached
  cases e <;> infer_instance

/-- All cached properties are as they should be. -/
def Cached (e : Exp) : Prop :=
  LettCached e ∧ ∀ b : {b // b ∈ e.blocks}, Cached b.1.2
termination_by sizeOf e
decreasing_by exact Exp.sizeOf_block b.2

@[reducible]
def decidableCached (e : Exp) : Decidable (Cached e) :=
  have : ∀ b : {b // b ∈ e.blocks}, Decidable (Cached b.1.2) := fun b => decidableCached b.1.2
  decidable_of_iff (LettCached e ∧ ∀ b ∈ e.blocks.attach, Cached b.1.2) (by rw [Cached]; simp)
termination_by sizeOf e
decreasing_by exact Exp.sizeOf_block b.2

instance : DecidablePred Cached := decidableCached

theorem Cached.block {e : Exp} (h : Cached e) {b : List Val × Exp} (hb : b ∈ e.blocks) : Cached b.2 := by
  unfold Cached at h
  exact h.2 ⟨b, hb⟩

theorem Cached.lett {ds : List FuncDef} {b : Exp} {p : Option LetProps} (h : Cached (.lett ds b p)) :
    ds ≠ [] ∧ p.isSome ∧ p = letProps ds b ∧ ∀ d ∈ ds, d.props = d.body.funcProps := by
  unfold Cached at h
  exact h.1

end Jhc.Grin

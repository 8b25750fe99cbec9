import Jhc.Grin.Meaning
import Jhc.Grin.Whiz

/-!
# The traversal with callbacks that return their arguments

The code that comes out means the same in every monad. Its binds are nested to the right and
no variable is bound twice.
-/

namespace Jhc.Grin
open Jhc.C (Prim)

/-! ### Variables -/

mutual

/-- The variables that a pattern binds. -/
def Val.binders : Val → List Var
  | .var x _ => [x]
  | .nodeC _ vs => Val.bindersOf vs
  | .index a b => a.binders ++ b.binders
  | _ => []

def Val.bindersOf : List Val → List Var
  | [] => []
  | v :: vs => v.binders ++ Val.bindersOf vs

end

mutual

/-- The variables in a value, those in primitive values too. -/
def Val.names : Val → List Var
  | .var x _ => [x]
  | .nodeC _ vs => Val.namesOf vs
  | .const v => v.names
  | .valPrim _ vs _ => Val.namesOf vs
  | .index a b => a.names ++ b.names
  | _ => []

def Val.namesOf : List Val → List Var
  | [] => []
  | v :: vs => v.names ++ Val.namesOf vs

end

mutual

def Exp.binders : Exp → List Var
  | .bind e l => e.binders ++ l.binders
  | .case _ as => Lam.bindersOf as
  | .newRegion l => l.binders
  | .lett ds b _ => b.binders ++ FuncDef.bindersOf ds
  | .mkCont c l => c.binders ++ l.binders
  | .gcRoots _ b => b.binders
  | _ => []

def Lam.binders : Lam → List Var
  | .mk ps e => Val.bindersOf ps ++ e.binders

def Lam.bindersOf : List Lam → List Var
  | [] => []
  | l :: ls => l.binders ++ Lam.bindersOf ls

def FuncDef.bindersOf : List FuncDef → List Var
  | [] => []
  | .mk _ l _ :: ds => l.binders ++ FuncDef.bindersOf ds

end

def Exp.isBind : Exp → Bool
  | .bind _ _ => true
  | _ => false

mutual

/-- The statement before a bind is never a bind itself. -/
def Exp.RightNested : Exp → Prop
  | .bind e l => e.isBind = false ∧ e.RightNested ∧ l.RightNested
  | .case _ as => Lam.RightNestedAll as
  | .newRegion l => l.RightNested
  | .lett ds b _ => b.RightNested ∧ FuncDef.RightNestedAll ds
  | .mkCont c l => c.RightNested ∧ l.RightNested
  | .gcRoots _ b => b.RightNested
  | _ => True

def Lam.RightNested : Lam → Prop
  | .mk _ e => e.RightNested

def Lam.RightNestedAll : List Lam → Prop
  | [] => True
  | l :: ls => l.RightNested ∧ Lam.RightNestedAll ls

def FuncDef.RightNestedAll : List FuncDef → Prop
  | [] => True
  | .mk _ l _ :: ds => l.RightNested ∧ FuncDef.RightNestedAll ds

end

def Under (D : Var → Prop) (ps : List Val) (x : Var) : Prop := x ∈ Val.bindersOf ps ∨ D x

/-- The variables are in scope and those that are bound are not negative, as the global ones
are. The values in calls of values and in closures and the regions of allocations have
global variables only. There are no regions and continuations in the code, and no group of
local functions is empty. -/
inductive Proper : (Var → Prop) → Exp → Prop
  | bind {D e ps b} (he : Proper D e) (hps : ∀ x ∈ Val.bindersOf ps, 0 ≤ x) (hb : Proper (Under D ps) b) :
      Proper D (.bind e (.mk ps b))
  | baseOp {D op vs} (hvs : ∀ x ∈ Val.namesOf vs, D x) : Proper D (.baseOp op vs)
  | app {D a vs ty} (hvs : ∀ x ∈ Val.namesOf vs, D x) : Proper D (.app a vs ty)
  | prim {D p vs ty} (hvs : ∀ x ∈ Val.namesOf vs, D x) : Proper D (.prim p vs ty)
  | case {D v as} (hv : ∀ x ∈ v.names, D x) (hps : ∀ l ∈ as, ∀ x ∈ Val.bindersOf l.bind, 0 ≤ x)
      (has : ∀ l ∈ as, Proper (Under D l.bind) l.exp) : Proper D (.case v as)
  | ret {D vs} (hvs : ∀ x ∈ Val.namesOf vs, D x) : Proper D (.ret vs)
  | error {D msg ty} : Proper D (.error msg ty)
  | call {D v vs ty jump} (hv : ∀ x ∈ v.names, x < 0) (hvs : ∀ x ∈ Val.namesOf vs, x < 0) :
      Proper D (.call v vs ty jump)
  | alloc {D v c r} (hv : ∀ x ∈ v.names, D x) (hc : ∀ x ∈ c.names, D x) (hr : ∀ x ∈ r.names, x < 0) :
      Proper D (.alloc v c r)
  | mkClosure {D v vs r ty} (hv : ∀ x ∈ v.names, x < 0) (hvs : ∀ x ∈ Val.namesOf vs, x < 0)
      (hr : ∀ x ∈ r.names, x < 0) : Proper D (.mkClosure v vs r ty)
  | lett {D ds b props} (hne : ds ≠ []) (hb : Proper D b)
      (hps : ∀ d ∈ ds, ∀ x ∈ Val.bindersOf d.body.bind, 0 ≤ x)
      (hds : ∀ d ∈ ds, Proper (Under D d.body.bind) d.body.exp) : Proper D (.lett ds b props)
  | gcRoots {D vs b} (hvs : ∀ x ∈ Val.namesOf vs, D x) (hb : Proper D b) : Proper D (.gcRoots vs b)

attribute [local grind =] Val.names

theorem Under.mono {D D' : Var → Prop} (hD : ∀ x, D x → D' x) {ps : List Val} {x : Var} (h : Under D ps x) :
    Under D' ps x := h.imp_right (hD x)

theorem Proper.mono {D D' : Var → Prop} {e : Exp} (h : Proper D e) (hD : ∀ x, D x → D' x) : Proper D' e := by
  induction h generalizing D' with
  | bind _ hps _ ihe ihb => exact .bind (ihe hD) hps (ihb fun _ => Under.mono hD)
  | baseOp hvs => exact .baseOp fun x hx => hD x (hvs x hx)
  | app hvs => exact .app fun x hx => hD x (hvs x hx)
  | prim hvs => exact .prim fun x hx => hD x (hvs x hx)
  | case hv hps _ ih => exact .case (fun x hx => hD x (hv x hx)) hps fun l hl => ih l hl fun _ => Under.mono hD
  | ret hvs => exact .ret fun x hx => hD x (hvs x hx)
  | error => exact .error
  | call hv hvs => exact .call hv hvs
  | alloc hv hc hr => exact .alloc (fun x hx => hD x (hv x hx)) (fun x hx => hD x (hc x hx)) hr
  | mkClosure hv hvs hr => exact .mkClosure hv hvs hr
  | lett hne _ hps _ ihb ihds => exact .lett hne (ihb hD) hps fun d hd => ihds d hd fun _ => Under.mono hD
  | gcRoots hvs _ ih => exact .gcRoots (fun x hx => hD x (hvs x hx)) (ih hD)

/-- Of a lambda, where the variables that it does not bind are the global ones. -/
def Lam.Proper (l : Lam) : Prop :=
  (∀ x ∈ Val.bindersOf l.bind, 0 ≤ x) ∧ Grin.Proper (Under (· < 0) l.bind) l.exp

namespace Whiz

/-! ### The callbacks -/

section Same

variable (o : Order) (env : WhizEnv)

def fSame (a : Exp) (xs : Stack) : WhizState → Exp × WhizState :=
  f (m := Id) o (fun _ x => x) (fun pe => some pe) id env a xs

def gSame (a : Exp) : WhizState → Exp × WhizState :=
  g (m := Id) o (fun _ x => x) (fun pe => some pe) id env a

def dcSame (l : Lam) : WhizState → Lam × WhizState :=
  dc (m := Id) o (fun _ x => x) (fun pe => some pe) id env l

def dcsSame (ls : List Lam) : WhizState → List Lam × WhizState :=
  dcs (m := Id) o (fun _ x => x) (fun pe => some pe) id env ls

def dcDefsSame (ds : List FuncDef) : WhizState → List FuncDef × WhizState :=
  dcDefs (m := Id) o (fun _ x => x) (fun pe => some pe) id env ds

variable {o env} {s : WhizState} {a b : Exp} {p : List Val} {senv : WhizEnv} {rs : Stack}

theorem mapM_same (ts : List (List Val × Exp)) :
    List.mapM (m := Id) (fun pe => some pe) ts = (ts.map some : List (Option (List Val × Exp))) :=
  List.mapM_pure

theorem f_bind {l : Lam} : fSame o env (.bind a l) rs s = fSame o env a ((env, l.bind, l.exp) :: rs) s := by
  unfold fSame
  rw [f]

theorem f_nil (h : a.isBind = false) : fSame o env a [] s = gSame o env a s := by
  unfold fSame gSame
  rw [f]
  · rfl
  · rintro e l rfl
    cases h

theorem f_error {msg : String} {ty : List Ty} :
    fSame .fizz env (.error msg ty) ((senv, p, b) :: rs) s = fSame .fizz env (.error msg b.getType) rs s := by
  unfold fSame
  rw [f]

theorem f_step (h : a.isBind = false) (he : o = .fizz → ∀ msg ty, a ≠ .error msg ty) (ht : tupleOf p a = none) :
    fSame o env a ((senv, p, b) :: rs) s =
      let x := gSame o env a s
      let y := renamePattern p x.2
      let z := fSame o (y.1.2.append senv) b rs y.2
      (.bind x.1 (.mk y.1.1 z.1), z.2) := by
  unfold fSame gSame
  rw [f]
  · cases o with
    | whiz =>
      simp only [ht]
      rfl
    | fizz =>
      simp only [ht]
      rfl
  · rintro e l rfl
    cases h
  · exact fun msg ty ho heq => he ho msg ty heq

theorem f_tuple {xs : List Val} (h : tupleOf p (.ret xs) = some xs) :
    fSame o env (.ret xs) ((senv, p, b) :: rs) s =
      let y := renamePattern p s
      let z := fSame o (y.1.2.append senv) b rs y.2
      (binds z.1 ((List.zipWith (fun x y => ([y], Exp.ret [x])) (applySubsts env xs) y.1.1).map some), z.2) := by
  unfold fSame
  rw [f]
  · cases o with
    | whiz =>
      simp only [h, mapM_same]
      rfl
    | fizz =>
      simp only [h, mapM_same, List.map_reverse]
      show (binds _ (List.reverse (List.reverse _)), _) = _
      rw [List.reverse_reverse]
      rfl
  · rintro e l heq
    cases heq
  · rintro msg ty - heq
    cases heq

theorem g_case {v : Val} {as : List Lam} :
    gSame o env (.case v as) s =
      let r := dcsSame o env as s
      (.case (applySubst env v) r.1, r.2) := by
  unfold gSame dcsSame
  rw [g]
  rfl

theorem g_gcRoots {vs : List Val} :
    gSame o env (.gcRoots vs b) s =
      let r := fSame o env b [] s
      (.gcRoots (applySubsts env vs) r.1, r.2) := by
  unfold gSame fSame
  rw [g]
  rfl

theorem g_lett {ds : List FuncDef} {props : Option LetProps} :
    gSame o env (.lett ds b props) s =
      let r := fSame o env b [] s
      let q := dcDefsSame o env ds r.2
      (updateLetProps (.lett q.1 r.1 props), q.2) := by
  unfold gSame fSame dcDefsSame
  rw [g]
  rfl

/-- A statement without blocks. -/
theorem g_leaf (hcase : ∀ v as, a ≠ .case v as) (hroots : ∀ vs b, a ≠ .gcRoots vs b) (hlett : ∀ ds b p, a ≠ .lett ds b p) :
    gSame o env a s = (applySubstE env a, s) := by
  unfold gSame
  rw [g]
  · rfl
  · exact hcase
  · exact hroots
  · exact hlett

theorem dc_eq {l : Lam} :
    dcSame o env l s =
      let y := renamePattern l.bind s
      let z := fSame o (y.1.2.append env) l.exp [] y.2
      (.mk y.1.1 z.1, z.2) := by
  unfold dcSame fSame
  rw [dc]
  rfl

theorem dcs_nil : dcsSame o env [] s = ([], s) := by
  unfold dcsSame
  rw [dcs]
  rfl

theorem dcs_cons {l : Lam} {ls : List Lam} :
    dcsSame o env (l :: ls) s =
      let r := dcSame o env l s
      let q := dcsSame o env ls r.2
      (r.1 :: q.1, q.2) := by
  unfold dcsSame dcSame
  rw [dcs]
  rfl

theorem dcDefs_nil : dcDefsSame o env [] s = ([], s) := by
  unfold dcDefsSame
  rw [dcDefs]
  rfl

theorem dcDefs_cons {d : FuncDef} {ds : List FuncDef} :
    dcDefsSame o env (d :: ds) s =
      let r := dcSame o env d.body s
      let q := dcDefsSame o env ds r.2
      (createFuncDef d.name r.1 :: q.1, q.2) := by
  unfold dcDefsSame dcSame
  rw [dcDefs]
  rfl

end Same

/-! ### New names -/

def Used : WhizState → ℤ → Prop
  | .left s, x => x ∈ s
  | .right n, x => x < n

/-- The names to come are not negative. -/
def Good : WhizState → Prop
  | .left _ => True
  | .right n => 0 ≤ n

/-- From one state to the next the names `ys` have been given out. -/
structure Grows (s s' : WhizState) (ys : List ℤ) : Prop where
  used : ∀ x, Used s x → Used s' x
  good : Good s'
  nodup : ys.Nodup
  fresh : ∀ y ∈ ys, ¬ Used s y ∧ Used s' y ∧ 0 ≤ y

theorem Grows.refl {s : WhizState} (h : Good s) : Grows s s [] :=
  ⟨fun _ hx => hx, h, List.nodup_nil, fun _ hy => absurd hy List.not_mem_nil⟩

theorem Grows.trans {s t u : WhizState} {ys zs : List ℤ} (h : Grows s t ys) (h' : Grows t u zs) :
    Grows s u (ys ++ zs) := by
  refine ⟨fun x hx => h'.used x (h.used x hx), h'.good, ?_, fun y hy => ?_⟩
  · refine List.nodup_append.2 ⟨h.nodup, h'.nodup, fun y hy z hz heq => ?_⟩
    subst heq
    exact (h'.fresh y hz).1 (h.fresh y hy).2.1
  · rcases List.mem_append.1 hy with hy | hy
    · obtain ⟨hnew, hused, hpos⟩ := h.fresh y hy
      exact ⟨hnew, h'.used y hused, hpos⟩
    · obtain ⟨hnew, hused, hpos⟩ := h'.fresh y hy
      exact ⟨fun hs => hnew (h.used y hs), hused, hpos⟩

theorem newVarName_v (s : Finset ℤ) (n : ℤ) : newVarName.v s n ∉ s ∧ n ≤ newVarName.v s n := by
  fun_induction newVarName.v s n with
  | case1 n hn ih => exact ⟨ih.1, by omega⟩
  | case2 n hn => exact ⟨hn, le_refl n⟩

theorem newVarName_grows {s : WhizState} (hs : Good s) {x : ℤ} (hx : 0 ≤ x) :
    Grows s (newVarName x s).2 [(newVarName x s).1] := by
  cases s with
  | left s =>
    obtain ⟨hnew, hle⟩ := newVarName_v s x
    refine ⟨fun y hy => Finset.mem_insert_of_mem hy, trivial, List.nodup_singleton _, fun y hy => ?_⟩
    obtain rfl := List.mem_singleton.1 hy
    exact ⟨hnew, Finset.mem_insert_self _ _, hx.trans hle⟩
  | right n =>
    have hn : 0 ≤ n := hs
    refine ⟨fun y hy => lt_trans hy (lt_add_one n), hn.trans (lt_add_one n).le, List.nodup_singleton _, fun y hy => ?_⟩
    rw [List.mem_singleton.1 hy]
    exact ⟨lt_irrefl n, lt_add_one n, hn⟩

/-! ### Patterns with new names -/

/-- The old name, the new one and the type of each variable of a pattern. -/
abbrev Renaming := List (ℤ × ℤ × Ty)

def Renaming.env (rs : Renaming) : List (Var × Val) := rs.map fun r => (r.1, .var r.2.1 r.2.2)

def Renaming.new (rs : Renaming) : List ℤ := rs.map fun r => r.2.1

/-- The values that one pattern binds, the other one binds too. -/
def SameMatches {V : Type} (rs : Renaming) (o o' : Option (List (Var × V))) : Prop :=
  o = none ∧ o' = none ∨
    ∃ vs, vs.length = rs.length ∧ o = some (List.zipWith (fun r w => (r.1, w)) rs vs) ∧
      o' = some (List.zipWith (fun r w => (r.2.1, w)) rs vs)

theorem SameMatches.append {V : Type} {rs qs : Renaming} {o o' u u' : Option (List (Var × V))}
    (h : SameMatches rs o o') (h' : SameMatches qs u u') :
    SameMatches (rs ++ qs) (o.bind fun xs => u.map fun ys => xs ++ ys) (o'.bind fun xs => u'.map fun ys => xs ++ ys) := by
  rcases h with ⟨rfl, rfl⟩ | ⟨vs, hvs, rfl, rfl⟩
  · exact Or.inl ⟨rfl, rfl⟩
  · rcases h' with ⟨rfl, rfl⟩ | ⟨ws, hws, rfl, rfl⟩
    · exact Or.inl ⟨rfl, rfl⟩
    · refine Or.inr ⟨vs ++ ws, by simp [hvs, hws], ?_, ?_⟩
      · simp [List.zipWith_append hvs.symm]
      · simp [List.zipWith_append hvs.symm]

/-- What has been renamed, and the names that this has used. -/
structure Renamed (rs : Renaming) (s s' : WhizState) (ns : List (Var × Val)) (xs xs' : List Var) : Prop where
  env : ns = rs.env
  old : xs = rs.map Prod.fst
  new : xs' = rs.new
  grows : Grows s s' rs.new

theorem Renamed.nil {s : WhizState} (hs : Good s) : Renamed [] s s [] [] [] := ⟨rfl, rfl, rfl, .refl hs⟩

theorem Renamed.append {rs qs : Renaming} {s t u : WhizState} {ns ns' : List (Var × Val)} {xs xs' ys ys' : List Var}
    (h : Renamed rs s t ns xs xs') (h' : Renamed qs t u ns' ys ys') :
    Renamed (rs ++ qs) s u (ns ++ ns') (xs ++ ys) (xs' ++ ys') := by
  have hnew : (rs ++ qs).new = rs.new ++ qs.new := List.map_append
  refine ⟨?_, ?_, ?_, ?_⟩
  · rw [h.env, h'.env]
    exact List.map_append.symm
  · rw [h.old, h'.old, List.map_append]
  · rw [h.new, h'.new, hnew]
  · rw [hnew]
    exact h.grows.trans h'.grows

theorem sameMatches_test {V : Type} (b : Bool) :
    SameMatches [] (if b then some ([] : List (Var × V)) else none) (if b then some [] else none) := by
  cases b with
  | true => exact Or.inr ⟨[], rfl, rfl, rfl⟩
  | false => exact Or.inl ⟨rfl, rfl⟩

mutual

theorem renameVal_renamed (p : Val) {s : WhizState} (hs : Good s) (hp : ∀ x ∈ p.binders, 0 ≤ x) :
    ∃ rs, Renamed rs s (renameVal p s).2 (renameVal p s).1.2 p.binders (renameVal p s).1.1.binders ∧
      ∀ (M : Type → Type) [Monad M] (V : Type) (S : Machine M V) (w : V),
        SameMatches rs (S.matchVal p w) (S.matchVal (renameVal p s).1.1 w) := by
  cases p with
  | var x t =>
    refine ⟨[(x, (newVarName x s).1, t)], ⟨rfl, rfl, rfl, ?_⟩, fun M _ V S w => ?_⟩
    · exact newVarName_grows hs (hp x List.mem_cons_self)
    · exact Or.inr ⟨[w], rfl, rfl, rfl⟩
  | nodeC t ps =>
    obtain ⟨rs, hrs, hmatch⟩ := renameVals_renamed ps hs hp
    refine ⟨rs, hrs, fun M _ V S w => ?_⟩
    show SameMatches rs ((S.fields t w).bind fun ws => S.matchVals ps ws)
      ((S.fields t w).bind fun ws => S.matchVals (renameVals ps s).1.1 ws)
    cases S.fields t w with
    | none => exact Or.inl ⟨rfl, rfl⟩
    | some ws => exact hmatch M V S ws
  | index a b =>
    obtain ⟨rs, hrs, ha⟩ := renameVal_renamed a hs fun x hx => hp x (List.mem_append_left _ hx)
    obtain ⟨qs, hqs, hb⟩ := renameVal_renamed b hrs.grows.good fun x hx => hp x (List.mem_append_right _ hx)
    refine ⟨rs ++ qs, hrs.append hqs, fun M _ V S w => ?_⟩
    simp only [renameVal, Machine.matchVal]
    cases S.parts w with
    | none => exact Or.inl ⟨rfl, rfl⟩
    | some u => exact (ha M V S u.1).append (hb M V S u.2)
  | const v => exact ⟨[], .nil hs, fun M _ V S w => sameMatches_test _⟩
  | lit n ty => exact ⟨[], .nil hs, fun M _ V S w => sameMatches_test _⟩
  | unit => exact ⟨[], .nil hs, fun M _ V S w => sameMatches_test _⟩
  | valPrim p vs ty => exact ⟨[], .nil hs, fun M _ V S w => sameMatches_test _⟩
  | item a ty => exact ⟨[], .nil hs, fun M _ V S w => sameMatches_test _⟩
  | valUnknown ty => exact ⟨[], .nil hs, fun M _ V S w => sameMatches_test _⟩

theorem renameVals_renamed (ps : List Val) {s : WhizState} (hs : Good s) (hps : ∀ x ∈ Val.bindersOf ps, 0 ≤ x) :
    ∃ rs, Renamed rs s (renameVals ps s).2 (renameVals ps s).1.2 (Val.bindersOf ps)
        (Val.bindersOf (renameVals ps s).1.1) ∧
      ∀ (M : Type → Type) [Monad M] (V : Type) (S : Machine M V) (ws : List V),
        SameMatches rs (S.matchVals ps ws) (S.matchVals (renameVals ps s).1.1 ws) := by
  cases ps with
  | nil =>
    refine ⟨[], .nil hs, fun M _ V S ws => ?_⟩
    cases ws with
    | nil => exact Or.inr ⟨[], rfl, rfl, rfl⟩
    | cons w ws => exact Or.inl ⟨rfl, rfl⟩
  | cons p ps =>
    obtain ⟨rs, hrs, hp⟩ := renameVal_renamed p hs fun x hx => hps x (List.mem_append_left _ hx)
    obtain ⟨qs, hqs, hq⟩ := renameVals_renamed ps hrs.grows.good fun x hx => hps x (List.mem_append_right _ hx)
    refine ⟨rs ++ qs, hrs.append hqs, fun M _ V S ws => ?_⟩
    cases ws with
    | nil => exact Or.inl ⟨rfl, rfl⟩
    | cons w ws => exact (hp M V S w).append (hq M V S ws)

end

/-! ### Environments -/

/-- The variables have the values that their new names have. -/
structure Agrees {V : Type} (env : WhizEnv) (s : WhizState) (ρ ρ' : Var → V) : Prop where
  bound : ∀ x v, env x = some v → ∃ y t, v = .var y t ∧ Used s y ∧ ρ' y = ρ x
  free : ∀ x < 0, env x = none ∧ ρ' x = ρ x

def InScope (env : WhizEnv) (x : Var) : Prop := (env x).isSome = true ∨ x < 0

section Env

variable {M : Type → Type} [Monad M] {V : Type} {env senv : WhizEnv} {s t u : WhizState} {ρ ρ' : Var → V}
  {rs : Renaming} {bs : List (Var × V)} {x : Var}

theorem lookup_other {α : Type} {l : List (Var × α)} (h : x ∉ l.map Prod.fst) : l.lookup x = none := by
  rw [List.lookup_eq_none_iff]
  intro q hq
  rw [bne_iff_ne]
  rintro rfl
  exact h (List.mem_map_of_mem hq)

theorem lookup_skip {α : Type} {k : Var} (h : x ≠ k) (v : α) (l : List (Var × α)) :
    ((k, v) :: l).lookup x = l.lookup x := by
  have hkey : (x == k) = false := beq_false_of_ne h
  rw [List.lookup_cons, hkey]

theorem extend_other (h : x ∉ bs.map Prod.fst) : Machine.extend ρ bs x = ρ x := by
  rw [Machine.extend, lookup_other h]
  rfl

theorem keys_zip (key : ℤ × ℤ × Ty → ℤ) {vs : List V} (hlen : vs.length = rs.length) :
    (List.zipWith (fun r w => (key r, w)) rs vs).map Prod.fst = rs.map key := by
  induction rs generalizing vs with
  | nil => rfl
  | cons r rs ih =>
    cases vs with
    | nil => cases hlen
    | cons w vs =>
      have hlen' : vs.length = rs.length := Nat.succ_inj.1 hlen
      simp [ih hlen']

/-- A variable of the pattern finds its new name, and under both names its value. -/
theorem lookup_zip {vs : List V} (hlen : vs.length = rs.length) (hnodup : rs.new.Nodup) (hx : x ∈ rs.map Prod.fst) :
    ∃ y t w, rs.env.lookup x = some (.var y t) ∧ y ∈ rs.new ∧
      (List.zipWith (fun r w => (r.1, w)) rs vs).lookup x = some w ∧
      (List.zipWith (fun r w => (r.2.1, w)) rs vs).lookup y = some w := by
  induction rs generalizing vs with
  | nil => cases hx
  | cons r rs ih =>
    cases vs with
    | nil => cases hlen
    | cons w vs =>
      obtain ⟨hhead, htail⟩ := List.nodup_cons.1 hnodup
      by_cases hr : x = r.1
      · subst hr
        refine ⟨r.2.1, r.2.2, w, ?_, List.mem_cons_self, ?_, ?_⟩
        · exact List.lookup_cons_self
        · exact List.lookup_cons_self
        · exact List.lookup_cons_self
      · have hrest : x ∈ rs.map Prod.fst := (List.mem_cons.1 hx).resolve_left hr
        obtain ⟨y, t, w', henv, hy, hold, hnew⟩ := ih (Nat.succ_inj.1 hlen) htail hrest
        have hne : y ≠ r.2.1 := by
          rintro rfl
          exact hhead hy
        refine ⟨y, t, w', ?_, List.mem_cons_of_mem _ hy, ?_, ?_⟩
        · rw [← henv]
          exact lookup_skip hr _ _
        · rw [← hold]
          exact lookup_skip hr _ _
        · rw [← hnew]
          exact lookup_skip hne _ _

/-- Names that are given out later are not in the way. -/
theorem Agrees.keep (h : Agrees env s ρ ρ') (hst : ∀ y, Used s y → Used t y) {ys : List ℤ} (hg : Grows t u ys)
    (hbs : bs.map Prod.fst = ys) : Agrees env u ρ (Machine.extend ρ' bs) := by
  refine ⟨fun x v hx => ?_, fun x hx => ⟨(h.free x hx).1, ?_⟩⟩
  · obtain ⟨y, ty, rfl, hused, hval⟩ := h.bound x v hx
    refine ⟨y, ty, rfl, hg.used y (hst y hused), ?_⟩
    rw [extend_other, hval]
    rw [hbs]
    exact fun hy => (hg.fresh y hy).1 (hst y hused)
  · rw [extend_other, (h.free x hx).2]
    rw [hbs]
    intro hy
    exact absurd hx (not_lt.2 (hg.fresh x hy).2.2)

theorem Agrees.extend (h : Agrees senv s ρ ρ') (hold : ∀ x ∈ rs.map Prod.fst, 0 ≤ x) (hst : ∀ y, Used s y → Used t y)
    (hg : Grows t u rs.new) {vs : List V} (hlen : vs.length = rs.length) :
    Agrees (WhizEnv.append (fun v => rs.env.lookup v) senv) u
      (Machine.extend ρ (List.zipWith (fun r w => (r.1, w)) rs vs))
      (Machine.extend ρ' (List.zipWith (fun r w => (r.2.1, w)) rs vs)) := by
  have hkeep := h.keep hst hg (keys_zip (fun r => r.2.1) hlen)
  have hother : ∀ x, x ∉ rs.map Prod.fst → rs.env.lookup x = none ∧
      Machine.extend ρ (List.zipWith (fun r w => (r.1, w)) rs vs) x = ρ x := by
    intro x hx
    refine ⟨lookup_other ?_, extend_other ?_⟩
    · rwa [Renaming.env, List.map_map]
    · rwa [keys_zip (fun r => r.1) hlen]
  refine ⟨fun x v hx => ?_, fun x hneg => ?_⟩
  · by_cases hmem : x ∈ rs.map Prod.fst
    · obtain ⟨y, ty, w, henv, hy, hw, hw'⟩ := lookup_zip hlen hg.nodup hmem
      rw [WhizEnv.append, henv] at hx
      cases hx
      refine ⟨y, ty, rfl, (hg.fresh y hy).2.1, ?_⟩
      rw [Machine.extend, Machine.extend, hw, hw']
      rfl
    · obtain ⟨henv, hval⟩ := hother x hmem
      rw [WhizEnv.append, henv] at hx
      rw [hval]
      exact hkeep.bound x v hx
  · have hmem : x ∉ rs.map Prod.fst := fun hmem => not_lt.2 (hold x hmem) hneg
    obtain ⟨henv, hval⟩ := hother x hmem
    obtain ⟨hnone, hsame⟩ := hkeep.free x hneg
    rw [WhizEnv.append, henv, hval]
    exact ⟨hnone, hsame⟩

theorem inScope_append {ps : List Val} {ns : List (Var × Val)} {xs' : List Var}
    (h : Renamed rs s t ns (Val.bindersOf ps) xs') (hx : Under (InScope senv) ps x) :
    InScope (WhizEnv.append (fun v => ns.lookup v) senv) x := by
  rcases hx with hx | hx | hx
  · rw [h.old] at hx
    refine Or.inl ?_
    rw [WhizEnv.append, Option.isSome_or, h.env]
    cases henv : rs.env.lookup x with
    | some v => rfl
    | none =>
      obtain ⟨r, hr, rfl⟩ := List.mem_map.1 hx
      have hne := (List.lookup_eq_none_iff.1 henv) _ (List.mem_map_of_mem hr)
      exact absurd rfl (bne_iff_ne.1 hne)
  · refine Or.inl ?_
    rw [WhizEnv.append, Option.isSome_or, hx, Bool.or_true]
  · exact Or.inr hx

/-! ### Substitution -/

mutual

theorem applySubst_val (S : Machine M V) (h : Agrees env s ρ ρ') (v : Val) (hv : ∀ x ∈ v.names, InScope env x) :
    S.val ρ' (applySubst env v) = S.val ρ v := by
  cases v with
  | var x t =>
    show S.val ρ' ((env x).getD (.var x t)) = ρ x
    rcases hv x List.mem_cons_self with hsome | hneg
    · obtain ⟨v, hx⟩ := Option.isSome_iff_exists.1 hsome
      obtain ⟨y, ty, rfl, -, hval⟩ := h.bound x v hx
      rw [hx]
      exact hval
    · obtain ⟨hnone, hval⟩ := h.free x hneg
      rw [hnone]
      exact hval
  | nodeC t vs => exact congrArg (S.nodeC t) (applySubsts_vals S h vs hv)
  | const v => exact congrArg S.const (applySubst_val S h v hv)
  | valPrim p vs ty => exact congrArg (S.valPrim p · ty) (applySubsts_vals S h vs hv)
  | index a b =>
    exact congrArg₂ S.index (applySubst_val S h a fun x hx => hv x (List.mem_append_left _ hx))
      (applySubst_val S h b fun x hx => hv x (List.mem_append_right _ hx))
  | lit n ty => rfl
  | unit => rfl
  | item a ty => rfl
  | valUnknown ty => rfl

theorem applySubsts_vals (S : Machine M V) (h : Agrees env s ρ ρ') (vs : List Val)
    (hvs : ∀ x ∈ Val.namesOf vs, InScope env x) : S.vals ρ' (applySubsts env vs) = S.vals ρ vs := by
  cases vs with
  | nil => rfl
  | cons v vs =>
    exact congrArg₂ List.cons (applySubst_val S h v fun x hx => hvs x (List.mem_append_left _ hx))
      (applySubsts_vals S h vs fun x hx => hvs x (List.mem_append_right _ hx))

end

mutual

/-- The names that come out are those given out and the global ones. -/
theorem applySubst_names (h : Agrees env s ρ ρ') (v : Val) (hv : ∀ x ∈ v.names, InScope env x) {y : Var}
    (hy : y ∈ (applySubst env v).names) : Used s y ∨ y < 0 := by
  cases v with
  | var x t =>
    have hmem : y ∈ ((env x).getD (.var x t)).names := hy
    cases hx : env x with
    | none =>
      rw [hx] at hmem
      obtain rfl := List.mem_singleton.1 hmem
      rcases hv y List.mem_cons_self with hsome | hneg
      · rw [hx] at hsome
        cases hsome
      · exact Or.inr hneg
    | some v =>
      obtain ⟨y', ty, rfl, hused, -⟩ := h.bound x v hx
      rw [hx] at hmem
      obtain rfl := List.mem_singleton.1 hmem
      exact Or.inl hused
  | nodeC t vs => exact applySubsts_names h vs hv hy
  | const v => exact applySubst_names h v hv hy
  | valPrim p vs ty => exact applySubsts_names h vs hv hy
  | index a b =>
    rcases List.mem_append.1 hy with hy | hy
    · exact applySubst_names h a (fun x hx => hv x (List.mem_append_left _ hx)) hy
    · exact applySubst_names h b (fun x hx => hv x (List.mem_append_right _ hx)) hy
  | lit n ty => cases hy
  | unit => cases hy
  | item a ty => cases hy
  | valUnknown ty => cases hy

theorem applySubsts_names (h : Agrees env s ρ ρ') (vs : List Val) (hvs : ∀ x ∈ Val.namesOf vs, InScope env x) {y : Var}
    (hy : y ∈ Val.namesOf (applySubsts env vs)) : Used s y ∨ y < 0 := by
  cases vs with
  | nil => cases hy
  | cons v vs =>
    rcases List.mem_append.1 hy with hy | hy
    · exact applySubst_names h v (fun x hx => hvs x (List.mem_append_left _ hx)) hy
    · exact applySubsts_names h vs (fun x hx => hvs x (List.mem_append_right _ hx)) hy

end

/-! ### Assignments of tuples -/

mutual

theorem val_congr (S : Machine M V) (v : Val) (h : ∀ x ∈ v.names, ρ' x = ρ x) : S.val ρ' v = S.val ρ v := by
  cases v with
  | var x t => exact h x List.mem_cons_self
  | nodeC t vs => exact congrArg (S.nodeC t) (vals_congr S vs h)
  | const v => exact congrArg S.const (val_congr S v h)
  | valPrim p vs ty => exact congrArg (S.valPrim p · ty) (vals_congr S vs h)
  | index a b =>
    exact congrArg₂ S.index (val_congr S a fun x hx => h x (List.mem_append_left _ hx))
      (val_congr S b fun x hx => h x (List.mem_append_right _ hx))
  | lit n ty => rfl
  | unit => rfl
  | item a ty => rfl
  | valUnknown ty => rfl

theorem vals_congr (S : Machine M V) (vs : List Val) (h : ∀ x ∈ Val.namesOf vs, ρ' x = ρ x) :
    S.vals ρ' vs = S.vals ρ vs := by
  cases vs with
  | nil => rfl
  | cons v vs =>
    exact congrArg₂ List.cons (val_congr S v fun x hx => h x (List.mem_append_left _ hx))
      (vals_congr S vs fun x hx => h x (List.mem_append_right _ hx))

end

theorem keys_test {b : Bool} (h : (if b then some ([] : List (Var × V)) else none) = some bs) :
    bs.map Prod.fst = [] := by
  split_ifs at h
  cases h
  rfl

mutual

theorem matchVal_keys (S : Machine M V) (p : Val) {bs : List (Var × V)} {w : V} (h : S.matchVal p w = some bs) :
    bs.map Prod.fst = p.binders := by
  cases p with
  | var x t =>
    cases h
    rfl
  | nodeC t ps =>
    obtain ⟨ws, -, hps⟩ := Option.bind_eq_some_iff.1 h
    exact matchVals_keys S ps hps
  | index a b =>
    obtain ⟨u, -, hu⟩ := Option.bind_eq_some_iff.1 h
    obtain ⟨xs, ha, hxs⟩ := Option.bind_eq_some_iff.1 hu
    obtain ⟨ys, hb, rfl⟩ := Option.map_eq_some_iff.1 hxs
    rw [List.map_append, matchVal_keys S a ha, matchVal_keys S b hb]
    rfl
  | const v => exact keys_test h
  | lit n ty => exact keys_test h
  | unit => exact keys_test h
  | valPrim p vs ty => exact keys_test h
  | item a ty => exact keys_test h
  | valUnknown ty => exact keys_test h

theorem matchVals_keys (S : Machine M V) (ps : List Val) {bs : List (Var × V)} {ws : List V} (h : S.matchVals ps ws = some bs) :
    bs.map Prod.fst = Val.bindersOf ps := by
  cases ps with
  | nil =>
    cases ws with
    | nil =>
      cases h
      rfl
    | cons w ws => cases h
  | cons p ps =>
    cases ws with
    | nil => cases h
    | cons w ws =>
      obtain ⟨xs, hp, hxs⟩ := Option.bind_eq_some_iff.1 h
      obtain ⟨ys, hps, rfl⟩ := Option.map_eq_some_iff.1 hxs
      rw [List.map_append, matchVal_keys S p hp, matchVals_keys S ps hps]
      rfl

end

theorem extend_extend {bs' : List (Var × V)} (h : ∀ x ∈ bs.map Prod.fst, x ∉ bs'.map Prod.fst) :
    Machine.extend (Machine.extend ρ bs) bs' = Machine.extend ρ (bs ++ bs') := by
  funext x
  by_cases hx : x ∈ bs.map Prod.fst
  · rw [extend_other (h x hx)]
    unfold Machine.extend
    rw [List.lookup_append]
    cases hl : bs.lookup x with
    | some w => rfl
    | none =>
      obtain ⟨q, hq, rfl⟩ := List.mem_map.1 hx
      have hne := (List.lookup_eq_none_iff.1 hl) _ hq
      exact absurd rfl (bne_iff_ne.1 hne)
  · unfold Machine.extend
    rw [List.lookup_append, lookup_other hx]
    rfl

theorem lam_some (S : Machine M V) (φ : Machine.Funs M V) {ps : List Val} {e : Exp} {ws : List V}
    {bs : List (Var × V)} (h : S.matchVals ps ws = some bs) :
    S.lam φ ρ (.mk ps e) ws = S.exp φ (Machine.extend ρ bs) e := by
  simp only [Machine.lam, h]

theorem lam_none (S : Machine M V) (φ : Machine.Funs M V) {ps : List Val} {ws : List V}
    (h : S.matchVals ps ws = none) (e : Exp) : S.lam φ ρ (.mk ps e) ws = S.stuck := by
  simp only [Machine.lam, h]

theorem alts_some (S : Machine M V) (φ : Machine.Funs M V) {ps : List Val} {e : Exp} {w : V}
    {bs : List (Var × V)} (h : S.matchVals ps [w] = some bs) (as : List Lam) :
    S.alts φ ρ w (.mk ps e :: as) = S.exp φ (Machine.extend ρ bs) e := by
  simp only [Machine.alts, h]

theorem alts_none (S : Machine M V) (φ : Machine.Funs M V) {ps : List Val} {w : V}
    (h : S.matchVals ps [w] = none) (e : Exp) (as : List Lam) :
    S.alts φ ρ w (.mk ps e :: as) = S.alts φ ρ w as := by
  simp only [Machine.alts, h]

/-- The assignments one after the other do the same as all at once, where the patterns bind
nothing twice and nothing that the operands use. -/
theorem exp_binds [LawfulMonad M] (S : Machine M V) (φ : Machine.Funs M V) (z : Exp) {xs ps : List Val}
    (hlen : xs.length = ps.length) (hnodup : (Val.bindersOf ps).Nodup)
    (hdisj : ∀ y ∈ Val.namesOf xs, y ∉ Val.bindersOf ps) :
    S.exp φ ρ (binds z ((List.zipWith (fun x y => ([y], Exp.ret [x])) xs ps).map some)) =
      S.lam φ ρ (.mk ps z) (S.vals ρ xs) := by
  induction ps generalizing xs ρ with
  | nil =>
    cases xs with
    | nil => rfl
    | cons x xs => cases hlen
  | cons p ps ih =>
    cases xs with
    | nil => cases hlen
    | cons x xs =>
      obtain ⟨hp, hps, hpps⟩ := List.nodup_append.1 hnodup
      show pure [S.val ρ x] >>= S.lam φ ρ (.mk [p] _) = S.lam φ ρ (.mk (p :: ps) z) (S.val ρ x :: S.vals ρ xs)
      rw [pure_bind]
      cases hmatch : S.matchVal p (S.val ρ x) with
      | none =>
        have hone : S.matchVals [p] [S.val ρ x] = none := by simp [Machine.matchVals, hmatch]
        have hall : S.matchVals (p :: ps) (S.val ρ x :: S.vals ρ xs) = none := by simp [Machine.matchVals, hmatch]
        rw [lam_none S φ hone, lam_none S φ hall]
      | some bs =>
        have hone : S.matchVals [p] [S.val ρ x] = some bs := by simp [Machine.matchVals, hmatch]
        rw [lam_some S φ hone]
        have hkeys := matchVal_keys S p hmatch
        have hvals : S.vals (Machine.extend ρ bs) xs = S.vals ρ xs := by
          refine vals_congr S xs fun y hy => extend_other ?_
          rw [hkeys]
          exact fun hy' => hdisj y (List.mem_append_right _ hy) (List.mem_append_left _ hy')
        have hrest := ih (ρ := Machine.extend ρ bs) (Nat.succ_inj.1 hlen) hps fun y hy hy' =>
          hdisj y (List.mem_append_right _ hy) (List.mem_append_right _ hy')
        rw [hvals] at hrest
        refine hrest.trans ?_
        cases hmatches : S.matchVals ps (S.vals ρ xs) with
        | none =>
          have hall : S.matchVals (p :: ps) (S.val ρ x :: S.vals ρ xs) = none := by
            simp [Machine.matchVals, hmatches]
          rw [lam_none S φ hmatches, lam_none S φ hall]
        | some bs' =>
          have hall : S.matchVals (p :: ps) (S.val ρ x :: S.vals ρ xs) = some (bs ++ bs') := by
            simp [Machine.matchVals, hmatch, hmatches]
          have hkeys' := matchVals_keys S ps hmatches
          have hextend : Machine.extend (Machine.extend ρ bs) bs' = Machine.extend ρ (bs ++ bs') := by
            refine extend_extend fun y hy hy' => ?_
            rw [hkeys] at hy
            rw [hkeys'] at hy'
            exact hpps y hy y hy' rfl
          rw [lam_some S φ hmatches, lam_some S φ hall, hextend]

end Env

/-! ### The traversal -/

section Sound

/-- The rests of the blocks, with the values that their variables have. -/
def rest {M : Type → Type} [Monad M] {V : Type} (S : Machine M V) (φ : Machine.Funs M V) :
    List ((Var → V) × List Val × Exp) → List V → M (List V)
  | [], ws => pure ws
  | (ρ, p, b) :: ks, ws => S.lam φ ρ (.mk p b) ws >>= rest S φ ks

def StackAgrees {V : Type} (s : WhizState) (ρ' : Var → V) (xs : Stack) (ks : List ((Var → V) × List Val × Exp)) : Prop :=
  List.Forall₂ (fun x k => Agrees x.1 s k.1 ρ' ∧ k.2 = x.2) xs ks

def StackProper (xs : Stack) : Prop :=
  ∀ x ∈ xs, (∀ y ∈ Val.bindersOf x.2.1, 0 ≤ y) ∧ Proper (Under (InScope x.1) x.2.1) x.2.2

/-- From state `s` the code `e'` has come out, with names that are all new. -/
structure Outcome (s s' : WhizState) (e' : Exp) : Prop where
  grows : Grows s s' e'.binders
  nested : e'.RightNested

/-- The code that comes out means what `e` and the rests of the blocks around it do. -/
structure FSound (o : Order) (env : WhizEnv) (e : Exp) (xs : Stack) (s : WhizState) : Prop where
  outcome : Outcome s (fSame o env e xs s).2 (fSame o env e xs s).1
  same : ∀ (M : Type → Type) [Monad M] [LawfulMonad M] (V : Type) (S : Machine M V) (φ : Machine.Funs M V)
    (ρ ρ' : Var → V) (ks : List ((Var → V) × List Val × Exp)), Agrees env s ρ ρ' → StackAgrees s ρ' xs ks →
    S.exp φ ρ' (fSame o env e xs s).1 = S.exp φ ρ e >>= rest S φ ks

structure GSound (o : Order) (env : WhizEnv) (e : Exp) (s : WhizState) : Prop where
  outcome : Outcome s (gSame o env e s).2 (gSame o env e s).1
  isBind : (gSame o env e s).1.isBind = false
  same : ∀ (M : Type → Type) [Monad M] [LawfulMonad M] (V : Type) (S : Machine M V) (φ : Machine.Funs M V)
    (ρ ρ' : Var → V), Agrees env s ρ ρ' → S.exp φ ρ' (gSame o env e s).1 = S.exp φ ρ e

structure LamSound (o : Order) (env : WhizEnv) (l : Lam) (s : WhizState) : Prop where
  grows : Grows s (dcSame o env l s).2 (dcSame o env l s).1.binders
  nested : (dcSame o env l s).1.RightNested
  same : ∀ (M : Type → Type) [Monad M] [LawfulMonad M] (V : Type) (S : Machine M V) (φ : Machine.Funs M V)
    (ρ ρ' : Var → V), Agrees env s ρ ρ' →
    (∀ ws, S.lam φ ρ' (dcSame o env l s).1 ws = S.lam φ ρ l ws) ∧
    ∀ w as as', S.alts φ ρ' w as' = S.alts φ ρ w as →
      S.alts φ ρ' w ((dcSame o env l s).1 :: as') = S.alts φ ρ w (l :: as)

/-- Every expression of at most `n` parts is traversed soundly. -/
def SoundTo (o : Order) (n : ℕ) : Prop :=
  ∀ (e : Exp) (env : WhizEnv) (xs : Stack) (s : WhizState), e.size + xs.size ≤ n → Proper (InScope env) e →
    StackProper xs → Good s → FSound o env e xs s

variable {o : Order} {n : ℕ} {env : WhizEnv} {s : WhizState}

theorem Agrees.mono {V : Type} {ρ ρ' : Var → V} {t : WhizState} (h : Agrees env s ρ ρ')
    (hst : ∀ y, Used s y → Used t y) : Agrees env t ρ ρ' := by
  refine ⟨fun x v hx => ?_, h.free⟩
  obtain ⟨y, ty, hv, hused, hval⟩ := h.bound x v hx
  exact ⟨y, ty, hv, hst y hused, hval⟩

theorem dc_sound (hn : SoundTo o n) {l : Lam} (hsize : l.exp.size ≤ n) (hps : ∀ x ∈ Val.bindersOf l.bind, 0 ≤ x)
    (hl : Proper (Under (InScope env) l.bind) l.exp) (hs : Good s) : LamSound o env l s := by
  obtain ⟨rs, hrs, hmatch⟩ := renameVals_renamed l.bind hs hps
  have hproper : Proper (InScope (WhizEnv.append (fun v => (renameVals l.bind s).1.2.lookup v) env)) l.exp :=
    hl.mono fun x hx => inScope_append hrs hx
  have hf := hn l.exp (WhizEnv.append (fun v => (renameVals l.bind s).1.2.lookup v) env) [] (renameVals l.bind s).2
    hsize hproper (fun x hx => absurd hx List.not_mem_nil) hrs.grows.good
  have hgrows := hrs.grows.trans hf.outcome.grows
  rw [← hrs.new] at hgrows
  refine ⟨?_, ?_, fun M _ _ V S φ ρ ρ' hagrees => ?_⟩
  · rw [dc_eq]
    exact hgrows
  · rw [dc_eq]
    exact hf.outcome.nested
  · rw [dc_eq]
    obtain ⟨ps, e⟩ := l
    have hbody : ∀ {vs : List V}, vs.length = rs.length → S.exp φ
          (Machine.extend ρ' (List.zipWith (fun r w => (r.2.1, w)) rs vs))
          (fSame o (WhizEnv.append (fun v => (renameVals ps s).1.2.lookup v) env) e [] (renameVals ps s).2).1 =
        S.exp φ (Machine.extend ρ (List.zipWith (fun r w => (r.1, w)) rs vs)) e := by
      intro vs hlen
      have hext := hagrees.extend (fun x hx => hps x (hrs.old ▸ hx)) (fun _ hy => hy) hrs.grows hlen
      rw [← hrs.env] at hext
      exact (hf.same M V S φ _ _ [] hext .nil).trans (bind_pure _)
    refine ⟨fun ws => ?_, fun w as as' hrest => ?_⟩
    · rcases hmatch M V S ws with ⟨hnone, hnone'⟩ | ⟨vs, hlen, hsome, hsome'⟩
      · exact (lam_none S φ hnone' _).trans (lam_none S φ hnone e).symm
      · exact (lam_some S φ hsome').trans ((hbody hlen).trans (lam_some S φ hsome).symm)
    · rcases hmatch M V S [w] with ⟨hnone, hnone'⟩ | ⟨vs, hlen, hsome, hsome'⟩
      · exact (alts_none S φ hnone' _ as').trans (hrest.trans (alts_none S φ hnone e as).symm)
      · exact (alts_some S φ hsome' as').trans ((hbody hlen).trans (alts_some S φ hsome as).symm)

theorem dcs_sound (hn : SoundTo o n) {ls : List Lam} (hsize : lamSizes ls ≤ n)
    (hps : ∀ l ∈ ls, ∀ x ∈ Val.bindersOf l.bind, 0 ≤ x)
    (hls : ∀ l ∈ ls, Proper (Under (InScope env) l.bind) l.exp) (hs : Good s) :
    Grows s (dcsSame o env ls s).2 (Lam.bindersOf (dcsSame o env ls s).1) ∧
      Lam.RightNestedAll (dcsSame o env ls s).1 ∧
      ∀ (M : Type → Type) [Monad M] [LawfulMonad M] (V : Type) (S : Machine M V) (φ : Machine.Funs M V)
        (ρ ρ' : Var → V), Agrees env s ρ ρ' → ∀ w, S.alts φ ρ' w (dcsSame o env ls s).1 = S.alts φ ρ w ls := by
  induction ls generalizing s with
  | nil =>
    rw [dcs_nil]
    exact ⟨.refl hs, trivial, fun _ _ _ _ _ _ _ _ _ _ => rfl⟩
  | cons l ls ih =>
    rw [lamSizes_cons] at hsize
    have hl := dc_sound hn (by omega) (hps l List.mem_cons_self) (hls l List.mem_cons_self) hs
    obtain ⟨hgrows, hnested, hsame⟩ := ih (by omega) (fun l hl => hps l (List.mem_cons_of_mem _ hl))
      (fun l hl => hls l (List.mem_cons_of_mem _ hl)) hl.grows.good
    rw [dcs_cons]
    refine ⟨hl.grows.trans hgrows, ⟨hl.nested, hnested⟩, fun M _ _ V S φ ρ ρ' hagrees w => ?_⟩
    exact (hl.same M V S φ ρ ρ' hagrees).2 w _ _ (hsame M V S φ ρ ρ' (hagrees.mono hl.grows.used) w)

theorem dcDefs_sound (hn : SoundTo o n) {ds : List FuncDef} (hsize : defSizes ds ≤ n)
    (hps : ∀ d ∈ ds, ∀ x ∈ Val.bindersOf d.body.bind, 0 ≤ x)
    (hds : ∀ d ∈ ds, Proper (Under (InScope env) d.body.bind) d.body.exp) (hs : Good s) :
    Grows s (dcDefsSame o env ds s).2 (FuncDef.bindersOf (dcDefsSame o env ds s).1) ∧
      FuncDef.RightNestedAll (dcDefsSame o env ds s).1 ∧
      (dcDefsSame o env ds s).1.map FuncDef.name = ds.map FuncDef.name ∧
      ∀ (M : Type → Type) [Monad M] [LawfulMonad M] (V : Type) (S : Machine M V) (φ : Machine.Funs M V)
        (ρ ρ' : Var → V), Agrees env s ρ ρ' → ∀ a ws,
        S.defs φ ρ' (dcDefsSame o env ds s).1 a ws = S.defs φ ρ ds a ws := by
  induction ds generalizing s with
  | nil =>
    rw [dcDefs_nil]
    exact ⟨.refl hs, trivial, rfl, fun _ _ _ _ _ _ _ _ _ _ _ => rfl⟩
  | cons d ds ih =>
    rw [defSizes_cons] at hsize
    have hd := dc_sound hn (by omega) (hps d List.mem_cons_self) (hds d List.mem_cons_self) hs
    obtain ⟨hgrows, hnested, hnames, hsame⟩ := ih (by omega) (fun d hd => hps d (List.mem_cons_of_mem _ hd))
      (fun d hd => hds d (List.mem_cons_of_mem _ hd)) hd.grows.good
    rw [dcDefs_cons]
    refine ⟨hd.grows.trans hgrows, ⟨hd.nested, hnested⟩, congrArg (d.name :: ·) hnames,
      fun M _ _ V S φ ρ ρ' hagrees a ws => ?_⟩
    obtain ⟨name, body, props⟩ := d
    show (if a = name then S.lam φ ρ' (dcSame o env body s).1 ws else S.defs φ ρ' _ a ws) =
      if a = name then S.lam φ ρ body ws else S.defs φ ρ ds a ws
    have hbody : S.lam φ ρ' (dcSame o env body s).1 ws = S.lam φ ρ body ws := (hd.same M V S φ ρ ρ' hagrees).1 ws
    rw [hbody, hsame M V S φ ρ ρ' (hagrees.mono hd.grows.used) a ws]

/-! ### Statements -/

theorem f_alone (hn : SoundTo o n) {b : Exp} (hsize : b.size ≤ n) (hb : Proper (InScope env) b) (hs : Good s) :
    Outcome s (fSame o env b [] s).2 (fSame o env b [] s).1 ∧
      ∀ (M : Type → Type) [Monad M] [LawfulMonad M] (V : Type) (S : Machine M V) (φ : Machine.Funs M V)
        (ρ ρ' : Var → V), Agrees env s ρ ρ' → S.exp φ ρ' (fSame o env b [] s).1 = S.exp φ ρ b := by
  have hf := hn b env [] s hsize hb (fun x hx => absurd hx List.not_mem_nil) hs
  refine ⟨hf.outcome, fun M _ _ V S φ ρ ρ' hagrees => ?_⟩
  exact (hf.same M V S φ ρ ρ' [] hagrees .nil).trans (bind_pure _)

theorem leaf_sound {e e' : Exp} (heq : applySubstE env e = e')
    (hleaf : (∀ v as, e ≠ .case v as) ∧ (∀ vs b, e ≠ .gcRoots vs b) ∧ ∀ ds b p, e ≠ .lett ds b p)
    (hbind : e'.isBind = false) (hbinders : e'.binders = []) (hnested : e'.RightNested) (hs : Good s)
    (hsame : ∀ (M : Type → Type) [Monad M] [LawfulMonad M] (V : Type) (S : Machine M V) (φ : Machine.Funs M V)
      (ρ ρ' : Var → V), Agrees env s ρ ρ' → S.exp φ ρ' e' = S.exp φ ρ e) : GSound o env e s := by
  subst heq
  have heq : gSame o env e s = (applySubstE env e, s) := g_leaf hleaf.1 hleaf.2.1 hleaf.2.2
  refine ⟨?_, ?_, ?_⟩
  · rw [heq]
    refine ⟨?_, hnested⟩
    rw [hbinders]
    exact .refl hs
  · rw [heq]
    exact hbind
  · rw [heq]
    exact hsame

theorem g_sound (hn : SoundTo o n) {e : Exp} (hbind : e.isBind = false) (hsize : e.size ≤ n + 1)
    (he : Proper (InScope env) e) (hs : Good s) : GSound o env e s := by
  cases he with
  | bind _ _ _ => cases hbind
  | @baseOp _ op vs hvs =>
    refine leaf_sound rfl (by simp) rfl rfl trivial hs fun M _ _ V S φ ρ ρ' hagrees => ?_
    exact congrArg (S.baseOp op) (applySubsts_vals S hagrees vs hvs)
  | @app _ a vs ty hvs =>
    refine leaf_sound rfl (by simp) rfl rfl trivial hs fun M _ _ V S φ ρ ρ' hagrees => ?_
    simp only [applySubstE, Machine.exp, applySubsts_vals S hagrees vs hvs]
  | @prim _ p vs ty hvs =>
    refine leaf_sound rfl (by simp) rfl rfl trivial hs fun M _ _ V S φ ρ ρ' hagrees => ?_
    exact congrArg (S.prim p · ty) (applySubsts_vals S hagrees vs hvs)
  | @ret _ vs hvs =>
    refine leaf_sound rfl (by simp) rfl rfl trivial hs fun M _ _ V S φ ρ ρ' hagrees => ?_
    exact congrArg pure (applySubsts_vals S hagrees vs hvs)
  | error => exact leaf_sound rfl (by simp) rfl rfl trivial hs fun M _ _ V S φ ρ ρ' hagrees => rfl
  | @call _ v vs ty jump hv hvs =>
    refine leaf_sound rfl (by simp) rfl rfl trivial hs fun M _ _ V S φ ρ ρ' hagrees => ?_
    have hfun : S.val ρ' v = S.val ρ v := val_congr S v fun x hx => (hagrees.free x (hv x hx)).2
    have hargs : S.vals ρ' vs = S.vals ρ vs := vals_congr S vs fun x hx => (hagrees.free x (hvs x hx)).2
    simp only [applySubstE, Machine.exp, hfun, hargs]
  | @alloc _ v c r hv hc hr =>
    refine leaf_sound rfl (by simp) rfl rfl trivial hs fun M _ _ V S φ ρ ρ' hagrees => ?_
    have hregion : S.val ρ' r = S.val ρ r := val_congr S r fun x hx => (hagrees.free x (hr x hx)).2
    simp only [applySubstE, Machine.exp, applySubst_val S hagrees v hv, applySubst_val S hagrees c hc, hregion]
  | @mkClosure _ v vs r ty hv hvs hr =>
    refine leaf_sound rfl (by simp) rfl rfl trivial hs fun M _ _ V S φ ρ ρ' hagrees => ?_
    have hfun : S.val ρ' v = S.val ρ v := val_congr S v fun x hx => (hagrees.free x (hv x hx)).2
    have hargs : S.vals ρ' vs = S.vals ρ vs := vals_congr S vs fun x hx => (hagrees.free x (hvs x hx)).2
    have hregion : S.val ρ' r = S.val ρ r := val_congr S r fun x hx => (hagrees.free x (hr x hx)).2
    simp only [applySubstE, Machine.exp, hfun, hargs, hregion]
  | @case _ v as hv hps has =>
    rw [size_case] at hsize
    obtain ⟨hgrows, hnested, hsame⟩ := dcs_sound hn (by omega) hps has hs
    have heq : gSame o env (.case v as) s = _ := g_case
    refine ⟨?_, ?_, fun M _ _ V S φ ρ ρ' hagrees => ?_⟩
    · rw [heq]
      exact ⟨hgrows, hnested⟩
    · rw [heq]
      rfl
    · rw [heq]
      show S.alts φ ρ' (S.val ρ' (applySubst env v)) _ = S.alts φ ρ (S.val ρ v) as
      rw [applySubst_val S hagrees v hv]
      exact hsame M V S φ ρ ρ' hagrees _
  | @gcRoots _ vs b hvs hb =>
    rw [size_gcRoots] at hsize
    obtain ⟨houtcome, hsame⟩ := f_alone hn (by omega) hb hs
    have heq : gSame o env (.gcRoots vs b) s = _ := g_gcRoots
    refine ⟨?_, ?_, fun M _ _ V S φ ρ ρ' hagrees => ?_⟩
    · rw [heq]
      exact ⟨houtcome.grows, houtcome.nested⟩
    · rw [heq]
      rfl
    · rw [heq]
      exact congrArg₂ S.gcRoots (applySubsts_vals S hagrees vs hvs) (hsame M V S φ ρ ρ' hagrees)
  | @lett _ ds b props hne hb hps hds =>
    rw [size_lett] at hsize
    obtain ⟨houtcome, hsame⟩ := f_alone hn (by omega) hb hs
    obtain ⟨hgrows, hnested, hnames, hdefs⟩ := dcDefs_sound hn (by omega) hps hds houtcome.grows.good
    have heq : gSame o env (.lett ds b props) s = _ := g_lett
    cases hds' : (dcDefsSame o env ds (fSame o env b [] s).2).1 with
    | nil =>
      rw [hds'] at hnames
      exact absurd (List.map_eq_nil_iff.1 hnames.symm) hne
    | cons d ds' =>
      simp only [hds', updateLetProps] at heq
      rw [hds'] at hgrows hnested hnames hdefs
      refine ⟨?_, ?_, fun M _ _ V S φ ρ ρ' hagrees => ?_⟩
      · rw [heq]
        exact ⟨houtcome.grows.trans hgrows, houtcome.nested, hnested⟩
      · rw [heq]
        rfl
      · rw [heq]
        have hextend : ∀ F, Machine.Funs.extend φ (d :: ds') F = Machine.Funs.extend φ ds F := by
          intro F
          unfold Machine.Funs.extend
          rw [hnames]
        have hrec : (fun F => S.defs (Machine.Funs.extend φ (d :: ds') F) ρ' (d :: ds')) =
            fun F => S.defs (Machine.Funs.extend φ ds F) ρ ds := by
          funext F a ws
          rw [hextend]
          exact hdefs M V S _ ρ ρ' (hagrees.mono houtcome.grows.used) a ws
        show S.exp (Machine.Funs.extend φ (d :: ds') (S.letrec fun F =>
          S.defs (Machine.Funs.extend φ (d :: ds') F) ρ' (d :: ds'))) ρ' _ = _
        rw [hrec, hextend]
        exact hsame M V S _ ρ ρ' hagrees

/-! ### Blocks -/

theorem StackAgrees.keep {V : Type} {ρ' : Var → V} {t u : WhizState} {xs : Stack}
    {ks : List ((Var → V) × List Val × Exp)} {bs : List (Var × V)} {ys : List ℤ} (h : StackAgrees s ρ' xs ks)
    (hst : ∀ y, Used s y → Used t y) (hg : Grows t u ys) (hbs : bs.map Prod.fst = ys) :
    StackAgrees u (Machine.extend ρ' bs) xs ks := by
  refine List.Forall₂.imp (fun x k hx => ?_) h
  exact ⟨hx.1.keep hst hg hbs, hx.2⟩

theorem StackAgrees.mono {V : Type} {ρ' : Var → V} {t : WhizState} {xs : Stack}
    {ks : List ((Var → V) × List Val × Exp)} (h : StackAgrees s ρ' xs ks) (hst : ∀ y, Used s y → Used t y) :
    StackAgrees t ρ' xs ks := by
  refine List.Forall₂.imp (fun x k hx => ?_) h
  exact ⟨hx.1.mono hst, hx.2⟩

/-- The innermost rest, with a new pattern and with the other rests after it. -/
structure RestSound (o : Order) (senv : WhizEnv) (p : List Val) (b : Exp) (rs : Stack) (s : WhizState) (p' : List Val)
    (r : Exp × WhizState) : Prop where
  grows : Grows s r.2 (Val.bindersOf p' ++ r.1.binders)
  nested : r.1.RightNested
  same : ∀ (M : Type → Type) [Monad M] [LawfulMonad M] (V : Type) (S : Machine M V) (φ : Machine.Funs M V)
    (ρ ρ' : Var → V) (ks : List ((Var → V) × List Val × Exp)), Agrees senv s ρ ρ' → StackAgrees s ρ' rs ks →
    ∀ ws, S.lam φ ρ' (.mk p' r.1) ws = S.lam φ ρ (.mk p b) ws >>= rest S φ ks

theorem rest_sound (hn : SoundTo o n) {senv : WhizEnv} {p : List Val} {b : Exp} {rs : Stack}
    (hsize : b.size + rs.size ≤ n) (hp : ∀ x ∈ Val.bindersOf p, 0 ≤ x) (hb : Proper (Under (InScope senv) p) b)
    (hrs : StackProper rs) (hs : Good s) :
    RestSound o senv p b rs s (renamePattern p s).1.1
      (fSame o ((renamePattern p s).1.2.append senv) b rs (renamePattern p s).2) := by
  obtain ⟨qs, hqs, hmatch⟩ := renameVals_renamed p hs hp
  have hproper : Proper (InScope ((renamePattern p s).1.2.append senv)) b := hb.mono fun x hx => inScope_append hqs hx
  have hf := hn b ((renamePattern p s).1.2.append senv) rs (renamePattern p s).2 hsize hproper hrs hqs.grows.good
  have hgrows := hqs.grows.trans hf.outcome.grows
  rw [← hqs.new] at hgrows
  refine ⟨hgrows, hf.outcome.nested, fun M _ _ V S φ ρ ρ' ks hagrees hstack ws => ?_⟩
  rcases hmatch M V S ws with ⟨hnone, hnone'⟩ | ⟨vs, hlen, hsome, hsome'⟩
  · rw [lam_none S φ hnone]
    exact (lam_none S φ hnone' _).trans (S.stuck_bind _).symm
  · rw [lam_some S φ hsome]
    refine (lam_some S φ hsome').trans ?_
    have hext := hagrees.extend (fun x hx => hp x (hqs.old ▸ hx)) (fun _ hy => hy) hqs.grows hlen
    rw [← hqs.env] at hext
    exact hf.same M V S φ _ _ ks hext (hstack.keep (fun _ hy => hy) hqs.grows (keys_zip (fun r => r.2.1) hlen))

theorem f_bind_sound (hn : SoundTo o n) {a : Exp} {l : Lam} {xs : Stack} (hsize : (Exp.bind a l).size + xs.size ≤ n + 1)
    (he : Proper (InScope env) (.bind a l)) (hxs : StackProper xs) (hs : Good s) : FSound o env (.bind a l) xs s := by
  cases he with
  | @bind _ _ ps b ha hps hb =>
    rw [size_bind, Lam.exp_mk] at hsize
    have hstack : StackProper ((env, ps, b) :: xs) := by
      intro x hx
      rcases List.mem_cons.1 hx with rfl | hx
      · exact ⟨hps, hb⟩
      · exact hxs x hx
    have hsmall : a.size + Stack.size ((env, ps, b) :: xs) ≤ n := by
      rw [stack_size_cons]
      show a.size + (b.size + xs.size) ≤ n
      omega
    have hf := hn a env ((env, ps, b) :: xs) s hsmall ha hstack hs
    refine ⟨?_, fun M _ _ V S φ ρ ρ' ks hagrees hks => ?_⟩
    · rw [f_bind]
      exact hf.outcome
    · rw [f_bind]
      have hcons : StackAgrees s ρ' ((env, ps, b) :: xs) ((ρ, ps, b) :: ks) := .cons ⟨hagrees, rfl⟩ hks
      refine (hf.same M V S φ ρ ρ' _ hagrees hcons).trans ?_
      exact (bind_assoc (S.exp φ ρ a) (S.lam φ ρ (.mk ps b)) (rest S φ ks)).symm

theorem f_last_sound (hn : SoundTo o n) {a : Exp} (hbind : a.isBind = false) (hsize : a.size ≤ n + 1)
    (ha : Proper (InScope env) a) (hs : Good s) : FSound o env a [] s := by
  have hg := g_sound hn hbind hsize ha hs
  refine ⟨?_, fun M _ _ V S φ ρ ρ' ks hagrees hks => ?_⟩
  · rw [f_nil hbind]
    exact hg.outcome
  · rw [f_nil hbind]
    cases hks
    exact (hg.same M V S φ ρ ρ' hagrees).trans (bind_pure _).symm

theorem f_error_sound (hn : SoundTo .fizz n) {msg : String} {ty : List Ty} {senv : WhizEnv} {p : List Val} {b : Exp}
    {rs : Stack} (hsize : (Exp.error msg ty).size + Stack.size ((senv, p, b) :: rs) ≤ n + 1) (hrs : StackProper rs)
    (hs : Good s) : FSound .fizz env (.error msg ty) ((senv, p, b) :: rs) s := by
  have hpos := size_pos b
  have hsmall : (Exp.error msg b.getType).size + rs.size ≤ n := by
    have hsum : (Exp.error msg ty).size + (b.size + rs.size) ≤ n + 1 := by
      rwa [stack_size_cons] at hsize
    rw [size_error] at hsum ⊢
    omega
  have hf := hn (.error msg b.getType) env rs s hsmall .error hrs hs
  refine ⟨?_, fun M _ _ V S φ ρ ρ' ks hagrees hks => ?_⟩
  · rw [f_error]
    exact hf.outcome
  · rw [f_error]
    cases hks with
    | @cons _ k _ ks hk hks =>
      calc S.exp φ ρ' (fSame .fizz env (.error msg b.getType) rs s).1
          = S.error msg >>= rest S φ ks := hf.same M V S φ ρ ρ' ks hagrees hks
        _ = S.error msg := S.error_bind msg _
        _ = S.error msg >>= rest S φ (k :: ks) := (S.error_bind msg _).symm

theorem binds_binders (z : Exp) {xs ps : List Val} (hlen : xs.length = ps.length) :
    (binds z ((List.zipWith (fun x y => ([y], Exp.ret [x])) xs ps).map some)).binders =
      Val.bindersOf ps ++ z.binders := by
  induction ps generalizing xs with
  | nil =>
    cases xs with
    | nil => rfl
    | cons x xs => cases hlen
  | cons p ps ih =>
    cases xs with
    | nil => cases hlen
    | cons x xs =>
      have hrest := ih (Nat.succ_inj.1 hlen)
      show [] ++ ((p.binders ++ []) ++ Exp.binders (binds z _)) = (p.binders ++ Val.bindersOf ps) ++ z.binders
      rw [hrest, List.nil_append, List.append_nil, List.append_assoc]

theorem binds_nested {z : Exp} (hz : z.RightNested) {xs ps : List Val} :
    (binds z ((List.zipWith (fun x y => ([y], Exp.ret [x])) xs ps).map some)).RightNested := by
  induction ps generalizing xs with
  | nil =>
    cases xs with
    | nil => exact hz
    | cons x xs => exact hz
  | cons p ps ih =>
    cases xs with
    | nil => exact hz
    | cons x xs => exact ⟨rfl, trivial, ih⟩

theorem tupleOf_some {p ys : List Val} {e : Exp} (h : tupleOf p e = some ys) :
    ∃ vs, e = .ret vs ∧ vs.length = p.length ∧ vs = ys := by
  cases e with
  | ret vs =>
    simp only [tupleOf] at h
    split_ifs at h with hlen
    exact ⟨vs, rfl, hlen.2, Option.some_inj.1 h⟩
  | _ => cases h

theorem applySubsts_length (vs : List Val) : (applySubsts env vs).length = vs.length := by
  induction vs with
  | nil => rfl
  | cons v vs ih => exact congrArg Nat.succ ih

theorem renameVals_length (ps : List Val) : (renameVals ps s).1.1.length = ps.length := by
  induction ps generalizing s with
  | nil => rfl
  | cons p ps ih => exact congrArg Nat.succ ih
theorem f_tuple_sound (hn : SoundTo o n) {vs p : List Val} {senv : WhizEnv} {b : Exp} {rs : Stack}
    (ht : tupleOf p (.ret vs) = some vs) (hlen : vs.length = p.length) (hsize : b.size + rs.size ≤ n)
    (hvs : ∀ x ∈ Val.namesOf vs, InScope env x) (hp : ∀ x ∈ Val.bindersOf p, 0 ≤ x)
    (hb : Proper (Under (InScope senv) p) b) (hrs : StackProper rs) (hs : Good s) :
    FSound o env (.ret vs) ((senv, p, b) :: rs) s := by
  have hrest := rest_sound (o := o) hn hsize hp hb hrs hs
  have hlen' : (applySubsts env vs).length = (renamePattern p s).1.1.length := by
    rw [applySubsts_length, hlen]
    exact (renameVals_length p).symm
  refine ⟨?_, fun M _ _ V S φ ρ ρ' ks hagrees hks => ?_⟩
  · rw [f_tuple ht]
    refine ⟨?_, binds_nested hrest.nested⟩
    rw [binds_binders _ hlen']
    exact hrest.grows
  · rw [f_tuple ht]
    obtain ⟨hnodup, -, -⟩ := List.nodup_append.1 hrest.grows.nodup
    have hdisj : ∀ y ∈ Val.namesOf (applySubsts env vs), y ∉ Val.bindersOf (renamePattern p s).1.1 := by
      intro y hy hy'
      obtain ⟨hnew, -, hpos⟩ := hrest.grows.fresh y (List.mem_append_left _ hy')
      rcases applySubsts_names hagrees vs hvs hy with hused | hneg
      · exact hnew hused
      · exact not_lt.2 hpos hneg
    cases hks with
    | @cons _ k _ ks hk hks =>
      obtain ⟨ρk, pb⟩ := k
      obtain ⟨hk, rfl⟩ := hk
      refine (exp_binds S φ _ hlen' hnodup hdisj).trans ?_
      rw [applySubsts_vals S hagrees vs hvs, hrest.same M V S φ ρk ρ' ks hk hks]
      exact (pure_bind (S.vals ρ vs) (rest S φ ((ρk, p, b) :: ks))).symm

theorem f_step_sound (hn : SoundTo o n) {a : Exp} {p : List Val} {senv : WhizEnv} {b : Exp} {rs : Stack}
    (hbind : a.isBind = false) (he : o = .fizz → ∀ msg ty, a ≠ .error msg ty) (ht : tupleOf p a = none)
    (hsize : a.size ≤ n) (hsize' : b.size + rs.size ≤ n) (ha : Proper (InScope env) a)
    (hp : ∀ x ∈ Val.bindersOf p, 0 ≤ x) (hb : Proper (Under (InScope senv) p) b) (hrs : StackProper rs) (hs : Good s) :
    FSound o env a ((senv, p, b) :: rs) s := by
  have hg := g_sound hn hbind (hsize.trans n.le_succ) ha hs
  have hrest := rest_sound (o := o) hn hsize' hp hb hrs hg.outcome.grows.good
  refine ⟨?_, fun M _ _ V S φ ρ ρ' ks hagrees hks => ?_⟩
  · rw [f_step hbind he ht]
    exact ⟨hg.outcome.grows.trans hrest.grows, hg.isBind, hg.outcome.nested, hrest.nested⟩
  · rw [f_step hbind he ht]
    cases hks with
    | @cons _ k _ ks hk hks =>
      obtain ⟨ρk, pb⟩ := k
      obtain ⟨hk, rfl⟩ := hk
      have hused := hg.outcome.grows.used
      have hsame : S.lam φ ρ' (.mk (renamePattern p (gSame o env a s).2).1.1 _) = rest S φ ((ρk, p, b) :: ks) :=
        funext fun ws => hrest.same M V S φ ρk ρ' ks (hk.mono hused) (StackAgrees.mono hks hused) ws
      show S.exp φ ρ' (gSame o env a s).1 >>= S.lam φ ρ' _ = _
      rw [hg.same M V S φ ρ ρ' hagrees, hsame]

theorem f_sound (o : Order) (n : ℕ) : SoundTo o n := by
  induction n with
  | zero =>
    intro e env xs s hsize
    have hpos := size_pos e
    omega
  | succ n ih =>
    intro e env xs s hsize he hxs hs
    cases hbind : e.isBind with
    | true =>
      cases e with
      | bind a l => exact f_bind_sound ih hsize he hxs hs
      | _ => cases hbind
    | false =>
      cases xs with
      | nil => exact f_last_sound ih hbind hsize he hs
      | cons x rs =>
        obtain ⟨senv, p, b⟩ := x
        obtain ⟨hp, hb⟩ := hxs _ List.mem_cons_self
        have hrs : StackProper rs := fun y hy => hxs y (List.mem_cons_of_mem _ hy)
        have hpos := size_pos e
        have hsum : e.size + (b.size + Stack.size rs) ≤ n + 1 := by
          rwa [stack_size_cons] at hsize
        by_cases herror : o = .fizz ∧ ∃ msg ty, e = .error msg ty
        · obtain ⟨rfl, msg, ty, rfl⟩ := herror
          exact f_error_sound ih hsize hrs hs
        · cases ht : tupleOf p e with
          | none =>
            have hpos' := size_pos b
            refine f_step_sound ih hbind (fun ho msg ty heq => herror ⟨ho, msg, ty, heq⟩) ht ?_ ?_ he hp hb hrs hs
            · omega
            · omega
          | some ys =>
            obtain ⟨vs, rfl, hlen, rfl⟩ := tupleOf_some ht
            cases he with
            | ret hvs => exact f_tuple_sound ih ht hlen (by omega) hvs hp hb hrs hs

end Sound

end Whiz

end Jhc.Grin

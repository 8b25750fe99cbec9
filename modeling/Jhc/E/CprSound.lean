import Jhc.E.Compositional
import Jhc.E.CprGroups
import Jhc.E.Denotation

/-!
# Annotated functions return what their annotation says (E/CPR.hs:58-138)

`Fits v` are the facts that a value may have which `v` describes. The analysis of an
expression describes its value where the values of the variables are described, nothing
that a case binds has another description, and the rounds of every recursive group that is
looked at have settled; where a group has not, a recursive call inside a constructor may
still be described as one that does not return.
-/

namespace Jhc.E.Cpr
open Jhc.Lib Jhc.Lib.Value
open Jhc.FrontEnd.Exports (Name)
open Jhc.Util (fromScc IsScc)

variable {T : Tables} {env env' : Env} {t : TVr} {e e' f a ty : E} {x : Id} {v w : Val} {b : Inf} {ds : List Def}
  {as : List Alt} {d : Option E} {es : List E} {lt : Name → Name → Bool}

/-! ### The facts that a value describes -/

mutual

def Fits : Val → Inf → Prop
  | .top, _ => True
  | .error _, _ => True
  | .fun _, .fn => True
  | .fun v, .arrow _ b => Fits v b
  | .tup n _, .con h => h = .con n
  | .tup n vs, .field h i b => h = .con n ∧ FitsAt vs i b
  | .vInt n, .con h => h = .int n
  | .tag ns, .con h => ∃ n ∈ ns, h = .con n
  | _, _ => False

def FitsAt : List Val → ℕ → Inf → Prop
  | [], _, _ => True
  | v :: _, 0, b => Fits v b
  | _ :: vs, i + 1, b => FitsAt vs i b

end

attribute [local grind =] Fits FitsAt

theorem fitsAt_iff {vs : List Val} {i : ℕ} : FitsAt vs i b ↔ ∀ v, vs[i]? = some v → Fits v b := by
  induction vs generalizing i with
  | nil => simp [FitsAt]
  | cons v vs ih =>
    cases i with
    | zero => simp [FitsAt]
    | succ i => simp [FitsAt, ih]

theorem mem_smerge {n : Name} {xs ys : List Name} (h : n ∈ xs ∨ n ∈ ys) : n ∈ smerge lt xs ys := by
  fun_induction smerge lt xs ys with
  | case1 x xs ys ih =>
    simp only [List.mem_cons] at h ⊢
    tauto
  | case2 x xs y ys _ _ ih =>
    simp only [List.mem_cons] at h ih ⊢
    tauto
  | case3 x xs y ys _ _ ih =>
    simp only [List.mem_cons] at h ih ⊢
    tauto
  | case4 ys => simpa using h
  | case5 xs _ => simpa using h

mutual

/-- What one of two values describes, their bound does. -/
theorem fits_lub : ∀ (v w : Val) (b : Inf), Fits v b ∨ Fits w b → Fits (lub lt v w) b
  | .tup n vs, .tup m ws, b, h => by
    rw [lub]
    split
    · rename_i heq
      obtain ⟨rfl, hlen⟩ := heq
      cases b with
      | con k => simpa [Fits] using h
      | field k i b =>
        simp only [Fits] at h ⊢
        exact ⟨h.elim And.left And.left, fitsAt_lubs vs ws i b (h.imp And.right And.right)⟩
      | _ => simp [Fits] at h
    · split
      · rw [Fits]
        trivial
      · rw [Fits]
        trivial
  | .fun v, .fun w, b, h => by
    rw [lub]
    cases b with
    | fn => simp [Fits]
    | arrow β b =>
      rw [Fits] at h ⊢
      exact fits_lub v w b (by simpa [Fits] using h)
    | _ => simp [Fits] at h
  | .vInt n, .vInt m, b, h => by
    rw [lub]
    split
    · rename_i heq
      subst heq
      simpa using h
    · rw [Fits]
      trivial
  | .tag ns, .tag ms, b, h => by
    rw [lub]
    cases b with
    | con k =>
      simp only [Fits] at h ⊢
      rcases h with ⟨n, hn, rfl⟩ | ⟨n, hn, rfl⟩
      · exact ⟨n, mem_smerge (.inl hn), rfl⟩
      · exact ⟨n, mem_smerge (.inr hn), rfl⟩
    | _ => simp [Fits] at h
  | .bot, w, b, h => by
    simpa [lub, Fits] using h
  | .error s, w, b, h => by
    cases w <;> simp [lub, Fits]
  | .top, w, b, h => by
    cases w <;> simp [lub, Fits]
  | v, .bot, b, h => by
    cases v <;> simpa [lub, Fits] using h
  | v, .error s, b, h => by
    cases v <;> simp [lub, Fits]
  | v, .top, b, h => by
    cases v <;> simp [lub, Fits]
  | .tup _ _, .fun _, b, h => by simp [lub, Fits]
  | .tup _ _, .vInt _, b, h => by simp [lub, Fits]
  | .tup _ _, .tag _, b, h => by simp [lub, Fits]
  | .fun _, .tup _ _, b, h => by simp [lub, Fits]
  | .fun _, .vInt _, b, h => by simp [lub, Fits]
  | .fun _, .tag _, b, h => by simp [lub, Fits]
  | .vInt _, .tup _ _, b, h => by simp [lub, Fits]
  | .vInt _, .fun _, b, h => by simp [lub, Fits]
  | .vInt _, .tag _, b, h => by simp [lub, Fits]
  | .tag _, .tup _ _, b, h => by simp [lub, Fits]
  | .tag _, .fun _, b, h => by simp [lub, Fits]
  | .tag _, .vInt _, b, h => by simp [lub, Fits]

theorem fitsAt_lubs : ∀ (vs ws : List Val) (i : ℕ) (b : Inf), FitsAt vs i b ∨ FitsAt ws i b → FitsAt (lubs lt vs ws) i b
  | v :: vs, w :: ws, 0, b, h => by
    rw [lubs, FitsAt]
    exact fits_lub v w b h
  | v :: vs, w :: ws, i + 1, b, h => by
    rw [lubs, FitsAt]
    exact fitsAt_lubs vs ws i b h
  | [], ws, i, b, _ => by
    simp [lubs, FitsAt]
  | v :: vs, [], i, b, _ => by
    simp [lubs, FitsAt]

end

mutual

theorem fits_trim : ∀ (n : ℕ) (v : Val) (b : Inf), Fits v b → Fits (trimVal' n v) b
  | n, .tup m vs, b, h => by
    rw [trimVal']
    split
    · rw [Fits]
      trivial
    · cases b with
      | con k => exact h
      | field k i b =>
        rw [Fits] at h ⊢
        exact ⟨h.1, fitsAt_trim (n + 1) vs i b h.2⟩
      | _ => simp [Fits] at h
  | n, .fun v, b, h => by
    rw [trimVal']
    cases b with
    | fn => simp [Fits]
    | arrow β b =>
      rw [Fits] at h ⊢
      exact fits_trim n v b h
    | _ => simp [Fits] at h
  | n, .top, b, h => h
  | n, .vInt _, b, h => h
  | n, .tag _, b, h => h
  | n, .bot, b, h => h
  | n, .error _, b, h => h

theorem fitsAt_trim : ∀ (n : ℕ) (vs : List Val) (i : ℕ) (b : Inf), FitsAt vs i b → FitsAt (trimVals n vs) i b
  | n, [], i, b, h => h
  | n, v :: vs, 0, b, h => fits_trim n v b h
  | n, v :: vs, i + 1, b, h => fitsAt_trim n vs i b h

end

/-! ### Typed arguments -/

/-- A fact that a value built by the constructor may have. -/
def BuiltBy (c : Constructor) : Inf → Prop
  | .con h => h = .con c.conName
  | .field h i _ => h = .con c.conName ∧ i < c.conSlots.length
  | _ => False

/-- What an argument has as a fact where it has the type of the parameter: one of a product
type is built by the constructor of the type. -/
def OfType (T : Tables) (t : TVr) (b : Inf) : Prop := ∀ c, getProduct T t.tvrType = some c → BuiltBy c b

theorem fits_toVal {c : Constructor} (h : BuiltBy c b) : Fits (toVal c) b := by
  rw [toVal]
  split
  · rename_i hslots
    cases b with
    | con k => exact ⟨c.conName, List.mem_singleton.2 rfl, h⟩
    | field k i b => exact absurd h.2 (by simp [hslots])
    | _ => exact h
  · cases b with
    | con k => exact h
    | field k i b =>
      refine ⟨h.1, fitsAt_iff.2 fun v hv => ?_⟩
      rw [List.getElem?_map] at hv
      obtain ⟨_, -, rfl⟩ := Option.map_eq_some_iff.1 hv
      rw [Fits]
      trivial
    | _ => exact h

theorem fits_param {b : Inf} (h : OfType T t b) :
    Fits (if T.isStrict t then ((getProduct T t.tvrType).map toVal).getD .top else .top) b := by
  split
  · cases hc : getProduct T t.tvrType with
    | none => simp [Fits]
    | some c => exact fits_toVal (h c hc)
  · rw [Fits]
    trivial

/-! ### Settled groups -/

mutual

/-- One more round of any recursive group that is looked at would change none of its values. -/
def Settled (T : Tables) : E → Env → Prop
  | .eLetRec ds e, env =>
    GroupsSettled env (decomposeDs T (nodes T ds)) ∧
      SettledDefs T ds (analyzeGroups env (decomposeDs T (nodes T ds)) []).2 ∧
      Settled T e (analyzeGroups env (decomposeDs T (nodes T ds)) []).2
  | .eLam t e, env =>
    Settled T e (env.insert t (if T.isStrict t then ((getProduct T t.tvrType).map toVal).getD .top else .top))
  | .eCase _ _ _ as d, env => SettledAlts T as env ∧ SettledDefault T d env
  | .eAp f _, env => Settled T f env
  | .eLit _ es _, env => SettledArgs T es env
  | .ePi t e, env => SettledType T t env ∧ Settled T e env
  | _, _ => True

def SettledType (T : Tables) : TVr → Env → Prop
  | .mk _ t, env => Settled T t env

def SettledArgs (T : Tables) : List E → Env → Prop
  | [], _ => True
  | e :: es, env => Settled T e env ∧ SettledArgs T es env

def SettledDefs (T : Tables) : List Def → Env → Prop
  | [], _ => True
  | d :: ds, env => SettledDef T d env ∧ SettledDefs T ds env

def SettledDef (T : Tables) : Def → Env → Prop
  | .mk _ e, env => Settled T e env

def SettledAlts (T : Tables) : List Alt → Env → Prop
  | [], _ => True
  | a :: as, env => SettledAlt T a env ∧ SettledAlts T as env

def SettledAlt (T : Tables) : Alt → Env → Prop
  | .litInt _ _ e, env => Settled T e env
  | .litCons _ _ _ e, env => Settled T e env

def SettledDefault (T : Tables) : Option E → Env → Prop
  | none, _ => True
  | some e, env => Settled T e env

end

/-! ### The values of the variables -/

/-- The variables that the expression uses have values that the environment describes. -/
def Describes (T : Tables) (env : Env) (ρ : E.Env) (e : E) : Prop :=
  ∀ v : TVr, v.tvrIdent ∈ freeIds e → ∀ b ∈ ρ v.tvrIdent, Fits (cprAnalyze T (.eVar v) env) b

/-- Nothing is said of a variable. -/
def Plain (T : Tables) (env : Env) (x : Id) : Prop := env x = none ∧ ∀ v : TVr, v.tvrIdent = x → T.info v = none

attribute [local grind =] Settled

theorem fits_plain {v : TVr} (h : Plain T env v.tvrIdent) : Fits (cprAnalyze T (.eVar v) env) b := by
  rw [cprAnalyze, h.1, h.2 v rfl, Option.getD_none, Option.getD_none, Fits]
  trivial

/-! ### The alternative that is taken -/

theorem selects_cases {k : Option Head} {xs : List TVr} (h : selects as d k = some (xs, e')) :
    (∃ n ty, .litInt n ty e' ∈ as ∧ xs = []) ∨ (∃ c ty, .litCons c xs ty e' ∈ as) ∨ (d = some e' ∧ xs = []) := by
  unfold selects at h
  split at h
  · rename_i n ty e hfind
    cases h
    exact .inl ⟨n, ty, List.mem_of_find?_eq_some hfind, rfl⟩
  · rename_i c xs ty e hfind
    cases h
    exact .inr (.inl ⟨c, ty, List.mem_of_find?_eq_some hfind⟩)
  · obtain ⟨e, rfl, he⟩ := Option.map_eq_some_iff.1 h
    cases he
    exact .inr (.inr ⟨rfl, rfl⟩)

theorem fits_alts {alt : Alt} (h : alt ∈ as) (hb : Fits (analyzeAlt T alt env) b) : Fits (analyzeAlts T as env) b := by
  induction as with
  | nil => cases h
  | cons a as ih =>
    rw [analyzeAlts]
    refine fits_lub _ _ b ?_
    rcases List.mem_cons.1 h with rfl | h
    · exact .inl hb
    · exact .inr (ih h)

theorem hygienic_alt {alt : Alt} (h : alt ∈ as) (hy : HygienicAlts as) : HygienicAlt alt := by
  induction as with
  | nil => cases h
  | cons a as ih =>
    rcases List.mem_cons.1 h with rfl | h
    · exact hy.1
    · exact ih h hy.2

theorem settled_alt {alt : Alt} (h : alt ∈ as) (hset : SettledAlts T as env) : SettledAlt T alt env := by
  induction as with
  | nil => cases h
  | cons a as ih =>
    rcases List.mem_cons.1 h with rfl | h
    · exact hset.1
    · exact ih h hset.2

theorem mem_caseVarsAlts {alt : Alt} (h : alt ∈ as) (hx : x ∈ caseVarsAlt t alt) : x ∈ caseVarsAlts t as := by
  induction as with
  | nil => cases h
  | cons a as ih =>
    rw [caseVarsAlts]
    rcases List.mem_cons.1 h with rfl | h
    · exact List.mem_append_left _ hx
    · exact List.mem_append_right _ (ih h)

/-- What the analysis of a case has of the alternative that is taken. -/
structure Looks (T : Tables) (env : Env) (t : TVr) (as : List Alt) (d : Option E) (xs : List TVr) (e' : E) : Prop where
  hygienic : Hygienic e'
  settled : Settled T e' env
  caseVars : ∀ x ∈ usedOf (t :: xs) e' ++ caseVars e', x ∈ caseVarsAlts t as ++ caseVarsDefault t d
  fits : ∀ b, Fits (cprAnalyze T e' env) b → Fits (lub T.lt (analyzeAlts T as env) (analyzeDefault T d env)) b

theorem looks_selects {k : Option Head} {xs : List TVr} (h : selects as d k = some (xs, e'))
    (hy : HygienicAlts as ∧ HygienicDefault d) (hset : SettledAlts T as env ∧ SettledDefault T d env) :
    Looks T env t as d xs e' := by
  rcases selects_cases h with ⟨n, ty, hmem, rfl⟩ | ⟨c, ty, hmem⟩ | ⟨rfl, rfl⟩
  · refine ⟨hygienic_alt hmem hy.1, settled_alt hmem hset.1, fun x hx => ?_, fun b hb => ?_⟩
    · exact List.mem_append_left _ (mem_caseVarsAlts hmem hx)
    · refine fits_lub _ _ b (.inl (fits_alts hmem ?_))
      rw [analyzeAlt]
      exact hb
  · refine ⟨hygienic_alt hmem hy.1, settled_alt hmem hset.1, fun x hx => ?_, fun b hb => ?_⟩
    · exact List.mem_append_left _ (mem_caseVarsAlts hmem hx)
    · refine fits_lub _ _ b (.inl (fits_alts hmem ?_))
      rw [analyzeAlt]
      exact hb
  · refine ⟨hy.2, hset.2, fun x hx => List.mem_append_right _ hx, fun b hb => ?_⟩
    refine fits_lub _ _ b (.inr ?_)
    rw [analyzeDefault]
    exact hb

theorem sets_of_notMem {ρ : E.Env} {xs : List TVr} {vs : List E.Val} (hx : x ∉ xs.map TVr.tvrIdent) : ρ.sets xs vs x = ρ x := by
  induction xs generalizing ρ vs with
  | nil => rfl
  | cons t xs ih =>
    cases vs with
    | nil => rfl
    | cons v vs =>
      rw [List.map_cons, List.mem_cons, not_or] at hx
      rw [E.Env.sets, ih hx.2, E.Env.set_of_not hx.1]

/-! ### Definitions of a group -/

theorem hygienic_def {e : E} (hx : lookupDef ds x = some e) (hy : HygienicDefs ds) : Hygienic e := by
  obtain ⟨def', hmem, -, rfl⟩ := lookupDef_mem hx
  clear hx
  induction ds with
  | nil => cases hmem
  | cons d ds ih =>
    rcases List.mem_cons.1 hmem with rfl | hmem
    · cases def'
      exact hy.1
    · exact ih hy.2 hmem

theorem settled_def {e : E} (hx : lookupDef ds x = some e) (hset : SettledDefs T ds env) : Settled T e env := by
  obtain ⟨def', hmem, -, rfl⟩ := lookupDef_mem hx
  clear hx
  induction ds with
  | nil => cases hmem
  | cons d ds ih =>
    rcases List.mem_cons.1 hmem with rfl | hmem
    · cases def'
      exact hset.1
    · exact ih hset.2 hmem

theorem caseVars_def {e : E} {y : Id} (hx : lookupDef ds x = some e) (hy : y ∈ caseVars e) : y ∈ caseVarsDefs ds := by
  obtain ⟨def', hmem, -, rfl⟩ := lookupDef_mem hx
  refine mem_caseVarsDefs hmem ?_
  cases def'
  exact hy

/-- After a settled let the value of a variable is the one of its right-hand side. -/
theorem binds_fixed (hscc : ∀ es, IsScc es (T.gscc es)) (hy : Hygienic (.eLetRec ds e))
    (hset : GroupsSettled env (decomposeDs T (nodes T ds))) {rhs : E} (hx : lookupDef ds x = some rhs) :
    (analyzeGroups env (decomposeDs T (nodes T ds)) []).2 x =
      some (cprAnalyze T rhs (analyzeGroups env (decomposeDs T (nodes T ds)) []).2) := by
  rw [Hygienic] at hy
  obtain ⟨def', hmem, rfl, rfl⟩ := lookupDef_mem hx
  have hst : Stratified (decomposeDs T (nodes T ds)) :=
    stratified_nodes hscc hy.1.1 fun d hd hx => hy.1.2 d hd (List.mem_append_left _ hx)
  have hnode : (def', cprAnalyze T def'.rhs) ∈ nodes T ds := by
    rw [nodes_eq_map]
    exact List.mem_map_of_mem hmem
  exact groups_fixed hst (fun n hn => nodes_local hscc ds hy.2.1 n ((mem_decomposeDs hscc).1 hn)) hset
    ((mem_decomposeDs hscc).2 hnode)

/-! ### Arguments of a constructor -/

theorem analyzeArgs_eq_map : analyzeArgs T es env = es.map fun e => cprAnalyze T e env := by
  induction es with
  | nil => rfl
  | cons e es ih => rw [analyzeArgs, ih, List.map_cons]

theorem hygienic_arg (h : e ∈ es) (hy : HygienicArgs es) : Hygienic e := by
  induction es with
  | nil => cases h
  | cons e' es ih =>
    rcases List.mem_cons.1 h with rfl | h
    · exact hy.1
    · exact ih h hy.2

theorem settled_arg (h : e ∈ es) (hset : SettledArgs T es env) : Settled T e env := by
  induction es with
  | nil => cases h
  | cons e' es ih =>
    rcases List.mem_cons.1 h with rfl | h
    · exact hset.1
    · exact ih h hset.2

theorem mem_caseVarsArgs (h : e ∈ es) (hx : x ∈ caseVars e) : x ∈ caseVarsArgs es := by
  induction es with
  | nil => cases h
  | cons e' es ih =>
    rw [caseVarsArgs]
    rcases List.mem_cons.1 h with rfl | h
    · exact List.mem_append_left _ hx
    · exact List.mem_append_right _ (ih h)

/-! ### Soundness -/

theorem plain_insert {v : Val} (hx : Plain T env x) (hxt : x ≠ t.tvrIdent) : Plain T (env.insert t v) x :=
  ⟨(Env.insert_of_ne hxt).trans hx.1, hx.2⟩

theorem plain_groups (hscc : ∀ es, IsScc es (T.gscc es)) (hx : Plain T env x) (hxds : x ∉ ds.map fun d => d.var.tvrIdent) :
    Plain T (analyzeGroups env (decomposeDs T (nodes T ds)) []).2 x := by
  refine ⟨(groups_frame ?_).trans hx.1, hx.2⟩
  rwa [mem_ids_decomposeDs hscc, nodes_idents]

/-- The analysis describes the value of an expression. -/
theorem analyze_sound {prim : PrimTable} {ρ : E.Env} (hscc : ∀ es, IsScc es (T.gscc es))
    (h : DenOn (OfType T) prim ρ e b) (env : Env) (hy : Hygienic e) (hset : Settled T e env)
    (hplain : ∀ x ∈ caseVars e, Plain T env x) (hρ : Describes T env ρ e) : Fits (cprAnalyze T e env) b := by
  induction h generalizing env with
  | @var ρ t b h => exact hρ t (by simp [freeIds]) b h
  | fn =>
    rw [cprAnalyze, Fits]
    trivial
  | @lam ρ t e β b hok _ ih =>
    rw [Hygienic] at hy
    rw [Settled] at hset
    rw [caseVars] at hplain
    rw [cprAnalyze, Fits]
    refine ih _ hy.2 hset (fun x hx => plain_insert (hplain x hx) ?_) fun v hv c hc => ?_
    · rintro rfl
      exact hy.1 hx
    · rw [cprAnalyze]
      by_cases hvt : v.tvrIdent = t.tvrIdent
      · rw [hvt, Env.insert_self]
        rw [E.Env.set_of_binds hvt] at hc
        exact fits_param (hok c hc)
      · rw [Env.insert_of_ne hvt]
        rw [E.Env.set_of_not hvt] at hc
        have hfit := hρ v (by simp [freeIds, hv, hvt]) c hc
        rwa [cprAnalyze] at hfit
  | @ap ρ f a β b _ _ ihf _ =>
    rw [Hygienic] at hy
    rw [Settled] at hset
    rw [caseVars] at hplain
    have hf := ihf env hy hset hplain fun v hv => hρ v (by simp [freeIds, hv])
    rw [cprAnalyze]
    split <;> simp_all [Fits]
  | @piCon ρ t e =>
    cases t
    rw [analyze_pi]
    rfl
  | @piFrom ρ t e b _ ih =>
    cases t with
    | mk x ty =>
      rw [Hygienic, HygienicType] at hy
      rw [Settled, SettledType] at hset
      rw [caseVars, caseVarsType] at hplain
      rw [analyze_pi]
      refine ⟨rfl, ih env hy.1 hset.1 (fun y hx => hplain y ?_) fun v hv c hc => ?_⟩
      · exact List.mem_append_right _ (List.mem_append_right _ hx)
      · by_cases hvx : v.tvrIdent = x
        · rw [E.Env.set_of_binds hvx] at hc
          cases hc
        · rw [E.Env.set_of_not hvx] at hc
          exact hρ v (List.mem_filter.2 ⟨List.mem_append_right _ hv, decide_eq_true hvx⟩) c hc
  | @piTo ρ t e b _ ih =>
    cases t with
    | mk x ty =>
      rw [Hygienic, HygienicType] at hy
      rw [Settled, SettledType] at hset
      rw [caseVars, caseVarsType] at hplain
      rw [analyze_pi]
      refine ⟨rfl, ih env hy.2 hset.2 (fun y hx => hplain y ?_) fun v hv c hc => ?_⟩
      · exact List.mem_append_left _ (List.mem_append_right _ hx)
      · by_cases hvx : v.tvrIdent = x
        · rw [E.Env.set_of_binds hvx] at hc
          cases hc
        · rw [E.Env.set_of_not hvx] at hc
          exact hρ v (List.mem_filter.2 ⟨List.mem_append_left _ hv, decide_eq_true hvx⟩) c hc
  | sort =>
    rw [cprAnalyze, Fits] <;> simp
  | int =>
    rw [cprAnalyze]
    rfl
  | @con ρ c es t =>
    cases es with
    | nil =>
      rw [cprAnalyze]
      exact ⟨c, List.mem_singleton.2 rfl, rfl⟩
    | cons e es =>
      rw [analyze_lit]
      rfl
  | @field ρ c es t e i b hi _ ih =>
    have hmem : e ∈ es := List.mem_of_getElem? hi
    rw [Hygienic] at hy
    rw [Settled] at hset
    rw [caseVars] at hplain
    have hfit := ih env (hygienic_arg hmem hy) (settled_arg hmem hset)
      (fun x hx => hplain x (mem_caseVarsArgs hmem hx)) fun v hv =>
        hρ v (by rw [freeIds]; exact List.mem_append_right _ (mem_freeIdsArgs hi hv))
    cases es with
    | nil => cases hmem
    | cons e' es =>
      rw [analyze_lit, analyzeArgs_eq_map]
      refine ⟨rfl, fitsAt_iff.2 fun v hv => ?_⟩
      rw [List.getElem?_map, hi] at hv
      cases hv
      exact hfit
  | @letRec ρ ds e b β _ _ ihβ ih =>
    have hy' := hy
    rw [Hygienic] at hy'
    rw [Settled] at hset
    have hnds : ∀ x ∈ caseVarsDefs ds ++ caseVars e, x ∉ ds.map fun d => d.var.tvrIdent := by
      intro x hx hxds
      obtain ⟨d, hd, rfl⟩ := List.mem_map.1 hxds
      exact hy'.1.2 d hd hx
    rw [caseVars] at hplain
    rw [cprAnalyze, groups_append]
    refine ih _ hy'.2.2 hset.2.2 (fun x hx => ?_) fun v hv c hc => ?_
    · exact plain_groups hscc (hplain x (List.mem_append_right _ hx)) (hnds x (List.mem_append_right _ hx))
    · by_cases hvds : (lookupDef ds v.tvrIdent).isSome = true
      · obtain ⟨rhs, hrhs⟩ := Option.isSome_iff_exists.1 hvds
        rw [E.Env.recs_of_def hvds] at hc
        -- the fact of the variable is one of its right-hand side, under the same let
        have hfit := ihβ _ hc rhs hrhs env ?_ ?_ ?_ ?_
        · rw [cprAnalyze, groups_append] at hfit
          rw [cprAnalyze, binds_fixed hscc hy hset.1 hrhs]
          exact hfit
        · rw [Hygienic]
          refine ⟨⟨hy'.1.1, fun d hd hx => hy'.1.2 d hd ?_⟩, hy'.2.1, hygienic_def hrhs hy'.2.1⟩
          exact List.mem_append_left _ ((List.mem_append.1 hx).elim id (caseVars_def hrhs))
        · rw [Settled]
          exact ⟨hset.1, hset.2.1, settled_def hrhs hset.2.1⟩
        · intro x hx
          rw [caseVars] at hx
          exact hplain x (List.mem_append_left _ ((List.mem_append.1 hx).elim id (caseVars_def hrhs)))
        · intro w hw
          obtain ⟨def', hdef, -, rfl⟩ := lookupDef_mem hrhs
          refine hρ w ?_
          rw [freeIds, List.mem_filter, List.mem_append] at hw ⊢
          exact ⟨.inl (hw.1.elim id (mem_freeIdsDefs hdef)), hw.2⟩
      · rw [E.Env.recs_of_not hvds] at hc
        rw [lookupDef_isSome] at hvds
        rw [cprAnalyze, groups_frame (by rwa [mem_ids_decomposeDs hscc, nodes_idents])]
        have hfit := hρ v ?_ c hc
        · rwa [cprAnalyze] at hfit
        · rw [freeIds]
          exact List.mem_filter.2 ⟨List.mem_append_right _ hv, decide_eq_true hvds⟩
  | prim =>
    rw [cprAnalyze, Fits]
    trivial
  | @caseOf ρ e ty t as d h k xs e' b β βs _ hk hsel _ hlen _ _ _ _ _ ih =>
    rw [Hygienic] at hy
    rw [Settled] at hset
    rw [caseVars] at hplain
    have hlooks : Looks T env t as d xs e' := looks_selects hsel hy hset
    rw [cprAnalyze]
    refine hlooks.fits b (ih env hlooks.hygienic hlooks.settled (fun x hx => ?_) fun v hv c hc => ?_)
    · exact hplain x (hlooks.caseVars x (List.mem_append_right _ hx))
    · by_cases hbound : v.tvrIdent ∈ (t :: xs).map TVr.tvrIdent
      · exact fits_plain (hplain _ (hlooks.caseVars _ (List.mem_append_left _ (mem_usedOf hv hbound))))
      · rw [List.map_cons, List.mem_cons, not_or] at hbound
        rw [sets_of_notMem hbound.2, E.Env.set_of_not hbound.1] at hc
        refine hρ v ?_ c hc
        rw [freeIds]
        exact List.mem_append_right _ (List.mem_filter.2 ⟨mem_freeIds_selects hsel hv hbound.2, decide_eq_true hbound.1⟩)

end Jhc.E.Cpr

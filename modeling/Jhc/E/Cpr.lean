import Jhc.E.Denotation
import Jhc.E.WorkerWrapper
import Jhc.Util.Graph

/-!
# Constructed product results (E/CPR.hs; GenUtil.hs:227-233; DataConstructors.hs:212-218)

A `Val` is as lazy as its source: an error stands where it would be raised, and spreads to
what looks at it. Of an error the text is kept and the value that is shown after it left
out. What the info of a variable holds, its demand and the value it was annotated with
before, is a parameter, as are the data table and the order of names; the expressions are
not rebuilt, as they would differ in the info of their definitions and their order only.
-/

namespace Jhc.E.Cpr
open Jhc.FrontEnd.Exports (Name)
open Jhc.Util (newGraph)

inductive Val where
  | top
  | fun (v : Val)
  | tup (n : Name) (vs : List Val)
  | vInt (n : ℤ)
  | tag (ns : List Name)
  | bot
  | error (s : String)

/-- A constructor with what its slots hold. -/
structure Constructor extends WorkerWrapper.Constructor where
  conSlots : List E

structure Tables where
  getConstructor : Name → Option Constructor
  followAliases : E → E
  /-- Names are compared by their place in the table of strings. -/
  lt : Name → Name → Bool
  /-- The info of the variable holds the demand `S`. -/
  isStrict : TVr → Bool
  /-- The value that the info of the variable holds. -/
  info : TVr → Option Val
  gscc : List (List ℕ) → List Util.Tree

variable (T : Tables)

/-! ### Values -/

mutual

def trimVal' : ℕ → Val → Val
  | n, .tup x vs => if 5 < n then .top else .tup x (trimVals (n + 1) vs)
  | n, .fun v => .fun (trimVal' n v)
  | _, x => x

def trimVals : ℕ → List Val → List Val
  | _, [] => []
  | n, v :: vs => trimVal' n v :: trimVals n vs

end

def trimVal (v : Val) : Val := trimVal' 0 v

def toVal (c : Constructor) : Val :=
  match c.conSlots with
  | [] => .tag [c.conName]
  | ss => .tup c.conName (ss.map fun _ => .top)

def getProduct (e : E) : Option Constructor :=
  match T.followAliases e with
  | .eLit cn _ _ => do
    let c ← T.getConstructor cn
    match c.conChildren with
    | .dataNormal [x] => T.getConstructor x
    | _ => none
  | _ => none

def smerge (lt : Name → Name → Bool) : List Name → List Name → List Name
  | x :: xs, y :: ys =>
    if x = y then x :: smerge lt xs ys
    else if lt x y then x :: smerge lt xs (y :: ys)
    else y :: smerge lt (x :: xs) ys
  | [], ys => ys
  | xs, [] => xs

mutual

def lub (lt : Name → Name → Bool) : Val → Val → Val
  | .bot, a => a
  | .error s, _ => .error s
  | a, .bot => a
  | _, .error s => .error s
  | .top, _ => .top
  | _, .top => .top
  | .tup a xs, .tup b ys =>
    if a = b ∧ xs.length = ys.length then .tup a (lubs lt xs ys)
    else if a = b then .error "CPR.lub this shouldn't happen"
    else .top
  | .fun l, .fun r => .fun (lub lt l r)
  | .vInt n, .vInt n' => if n = n' then .vInt n else .top
  | .tag xs, .tag ys => .tag (smerge lt xs ys)
  | .tag _, .tup _ _ => .top
  | .tup _ _, .tag _ => .top
  | _, _ => .top

def lubs (lt : Name → Name → Bool) : List Val → List Val → List Val
  | x :: xs, y :: ys => lub lt x y :: lubs lt xs ys
  | _, _ => []

end

/-! ### Environments -/

abbrev Env := Id → Option Val

namespace Env

def insert (t : TVr) (v : Val) (env : Env) : Env := fun x => if x = t.tvrIdent then some v else env x

def fromList (l : List (TVr × Val)) : Env := l.foldl (fun env p => env.insert p.1 p.2) fun _ => none

def append (env env' : Env) : Env := fun x => (env x).or (env' x)

attribute [local grind =] lub lubs

end Env

/-! ### Groups of definitions -/

/-- A definition with the analysis of its right-hand side. -/
abbrev Node := Def × (Env → Val)

def bindingFreeVars (n : Node) : List Id := freeIdsDef n.1

def decomposeDs (ns : List Node) : List (Node ⊕ List Node) :=
  (newGraph ns (fun n => n.1.var.tvrIdent) bindingFreeVars).scc T.gscc

/-- The environment in which a recursive group is analysed next. -/
def nenv (env : Env) (mp : List (Node × Val)) : Env := (Env.fromList (mp.map fun p => (p.1.1.var, p.2))).append env

/-- The rounds of a recursive group. -/
def rounds (env : Env) (xs : List Node) : ℕ → List (Node × Val) → List (Node × Val)
  | 0, mp => mp
  | n + 1, mp => rounds env xs n (xs.map fun x => (x, x.2 (nenv env mp)))

def analyzeGroup (env : Env) (xs : List Node) : List (Node × Val) :=
  rounds env xs (xs.length + 2) (xs.map fun x => (x, .bot))

def analyzeGroups : Env → List (Node ⊕ List Node) → List (Def × Val) → List (Def × Val) × Env
  | env, .inl n :: rs, zs =>
    analyzeGroups (env.insert n.1.var (n.2 env)) rs ((n.1, trimVal (n.2 env)) :: zs)
  | env, .inr xs :: rs, zs =>
    let mp := analyzeGroup env xs
    analyzeGroups (nenv env mp) rs ((mp.map fun p => (p.1.1, trimVal p.2)) ++ zs)
  | env, [], zs => (zs.reverse, env)

/-! ### Expressions -/

mutual

def cprAnalyze : E → Env → Val
  | .eVar v, env => (env v.tvrIdent).getD ((T.info v).getD .top)
  | .eLetRec ds e, env => cprAnalyze e (Env.append (analyzeGroups env (decomposeDs T (nodes ds)) []).2 env)
  | .eLam t e, env =>
    .fun (cprAnalyze e (env.insert t (if T.isStrict t then ((getProduct T t.tvrType).map toVal).getD .top else .top)))
  | .eCase _ _ _ as d, env => lub T.lt (analyzeAlts as env) (analyzeDefault d env)
  | .eAp f _, env =>
    match cprAnalyze f env with
    | .fun x => x
    | .top => .top
    | .bot => .bot
    | .error s => .error s
    | _ => .error "cprAnalyze'.res_res: "
  | .eLitInt n _, _ => .vInt n
  | .eLit n [] _, _ => .tag [n]
  | .eLit n xs _, env => .tup n (analyzeArgs xs env)
  | .ePi t e, env => .tup tc_Arrow [analyzeType t env, cprAnalyze e env]
  | .ePrim _ _ _, _ => .top
  | .eError _ _, _ => .bot
  | _, _ => .error "cprAnalyze'.f: "

def analyzeType : TVr → Env → Val
  | .mk _ t, env => cprAnalyze t env

def analyzeArgs : List E → Env → List Val
  | [], _ => []
  | e :: es, env => cprAnalyze e env :: analyzeArgs es env

def analyzeAlts : List Alt → Env → Val
  | [], _ => .bot
  | a :: as, env => lub T.lt (analyzeAlt a env) (analyzeAlts as env)

def analyzeAlt : Alt → Env → Val
  | .litInt _ _ e, env => cprAnalyze e env
  | .litCons _ _ _ e, env => cprAnalyze e env

def analyzeDefault : Option E → Env → Val
  | none, _ => .bot
  | some e, env => cprAnalyze e env

def nodes : List Def → List Node
  | [] => []
  | d :: ds => node d :: nodes ds

def node : Def → Node
  | .mk t e => (.mk t e, cprAnalyze e)

end

/-- The definitions with the values they are annotated with, and the environment after them. -/
def cprAnalyzeBinds (env : Env) (ds : List Def) : List (Def × Val) × Env :=
  analyzeGroups env (decomposeDs T (nodes T ds)) []

attribute [local grind =] analyzeGroups cprAnalyze analyzeAlt

end Jhc.E.Cpr

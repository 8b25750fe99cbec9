import Jhc.E.Syntax

/-!
# Workers and wrappers (E/WorkerWrapper.hs:20-118; E/Values.hs:33-42, 113-151, 235-248)

The results of the type checker, of substitution and of the data table are parameters
(`Terms`): nothing is assumed of them but that no sort and no function type has kind `#` and
that a variable has the type it carries. A `TVr` with what `g` says of it is one `Arg`.
-/

namespace Jhc.E.WorkerWrapper
open Jhc.FrontEnd.Exports (Name NameType)

/-! ### Signatures (Demand.hs:32-50; CPR.hs:24-31) -/

mutual

inductive Demand where
  | bottom
  | l (s : SubDemand)
  | s (s : SubDemand)
  | error (s : SubDemand)
  | absent

inductive SubDemand where
  | none
  | product (ds : List Demand)

end

def lazy : Demand := .l .none

inductive CPR where
  | top
  | fun (v : CPR)
  | tup (n : Name) (vs : List CPR)
  | vInt (n : ℤ)
  | tag (ns : List Name)
  | bot

/-! ### The data table and types (DataConstructors.hs:125-148; TypeCheck.hs:214-243) -/

inductive DataFamily where
  | dataAbstract | dataNone | dataPrimitive
  | dataEnum (n : ℕ)
  | dataNormal (ns : List Name)
  | dataAlias (erased : Bool)

structure Constructor where
  conName : Name
  conInhabits : Name
  conChildren : DataFamily

def isEHash : E → Bool
  | .eSort .eHash => true
  | _ => false

structure Terms where
  getConstructor : Name → Option Constructor
  slotTypes : Name → E → List E
  followAliases : E → E
  getType : E → E
  typecheck : E → Option E
  isAtomic : E → Bool
  subst : TVr → E → E → E
  typeSubst : List Def → E → E
  /-- Where `newIds` starts to look for names that are not in the set. -/
  candidate : List Id → ℕ
  getType_sort : ∀ s, isEHash (getType (.eSort s)) = false
  getType_pi : ∀ t e, isEHash (getType (.ePi t e)) = false
  getType_var : ∀ t, getType (.eVar t) = t.tvrType

variable (T : Terms)

def sortSortLike : E → Bool
  | .eSort .eHashHash => true
  | .eSort .eStarStar => true
  | _ => false

def sortKindLike : E → Bool
  | .eSort s => !sortSortLike (.eSort s)
  | e => sortSortLike (T.getType e)

def sortTypeLike : E → Bool
  | .eSort _ => false
  | e => sortKindLike T (T.getType e)

def sortTermLike : E → Bool
  | .eSort _ => false
  | e => sortTypeLike T (T.getType e)

def isUnboxed : E → Bool
  | .ePi _ _ => false
  | e => isEHash (T.getType e)

def isLifted (e : E) : Bool := sortTermLike T e && !isUnboxed T (T.getType e)

/-- The single constructor of a product type. -/
def getProduct (e : E) : Option Constructor :=
  match T.followAliases e with
  | .eLit cn _ _ => do
    let c ← T.getConstructor cn
    match c.conChildren with
    | .dataNormal [x] => T.getConstructor x
    | _ => none
  | _ => none

def onlyChild (n : Name) : Bool :=
  Option.isSome do
    let c ← T.getConstructor n
    match c.conChildren with
    | .dataNormal [_] => some ()
    | _ => do
      let c ← T.getConstructor c.conInhabits
      match c.conChildren with
      | .dataNormal [_] => some ()
      | _ => none

/-! ### Names (Name/Id.hs:231-276; Name/Name.hs:154-160) -/

def s_Star : Name := ⟨.SortName, some "Jhc@".toList, "*".toList⟩

def showId : Id → List Char
  | .emptyId => ['_']
  | .toId n => match n.getModule with
    | some m => m ++ '.' :: n.ident
    | none => n.ident
  | .anonymous i => 'x' :: (toString i).toList

def workerName (x : Id) : Id := .toId ⟨.Val, some "W@".toList, 'f' :: showId x⟩

/-- The `i`-th of `tmpNames`. -/
def tmpName (ns : NameType) (x : Id) (i : ℕ) : Id :=
  .toId ⟨ns, some "X@".toList, 'f' :: showId x ++ '@' :: (toString i).toList⟩

/-- The first `k` of `newIds`. -/
def newIds (ids : List Id) (k : ℕ) : List Id :=
  (((List.range (k + ids.length)).map fun i => Id.anonymous (T.candidate ids + i)).filter (· ∉ ids)).take k

/-! ### Expressions (Values.hs:33-42, 113-151) -/

def eVars (ts : List TVr) : List E := ts.map .eVar

def unboxedNameTuple (t : NameType) (n : ℕ) : Name := ⟨t, none, s!"(#{n}#)".toList⟩

def ltTuple' (ts : List E) : E := .eLit (unboxedNameTuple .TypeConstructor ts.length) ts (.eSort .eHash)

def unboxedTuple (ts : List TVr) : E :=
  .eLit (unboxedNameTuple .DataConstructor ts.length) (eVars ts) (ltTuple' (ts.map TVr.tvrType))

def altBody : Alt → E
  | .litInt _ _ e => e
  | .litCons _ _ _ e => e

/-- `eCase` of one alternative and `Unknown`. -/
def eCase (e : E) (alt : Alt) : E := .eCase e (T.getType (altBody alt)) (.mk .emptyId (T.getType e)) [alt] none

def strictCase (t : TVr) (v e : E) : E := .eCase v (T.getType e) t [] (some e)

def eLet (t : TVr) (e e' : E) : E :=
  if t.tvrIdent = .emptyId then e'
  else if sortKindLike T t.tvrType then
    if T.isAtomic e then T.subst t e e' else .eLetRec [.mk t e] (T.typeSubst [.mk t e] e')
  else if isUnboxed T t.tvrType then
    if T.isAtomic e then T.subst t e e' else strictCase T t e e'
  else .eLetRec [.mk t e] e'

def eStrictLet (t : TVr) (v e : E) : E :=
  if sortKindLike T t.tvrType then eLet T t v e else strictCase T t v e

def eLetRec (ds' : List Def) (e : E) : E :=
  let hh := ds'.filter fun d => isUnboxed T d.var.tvrType
  let nas := (ds'.filter fun d => !isUnboxed T d.var.tvrType).filter fun d => d.var.tvrIdent ≠ .emptyId
  let tas := nas.filter fun d => sortKindLike T d.var.tvrType
  let hhh := fun e => hh.foldr (fun d e => eLet T d.var d.rhs e) e
  match nas, tas with
  | [], _ => hhh e
  | nas, [] => hhh (.eLetRec nas e)
  | nas, tas => hhh (.eLetRec (nas.map fun d => .mk d.var (T.typeSubst tas d.rhs)) (T.typeSubst tas e))

/-! ### wrappable (WorkerWrapper.hs:24-68) -/

inductive Arg where
  | absent (t : TVr)
  | cons (c : Constructor) (ts : List Arg) (t : TVr)
  | plain (t : TVr)

def Arg.var : Arg → TVr
  | .absent t => t
  | .cons _ _ t => t
  | .plain t => t

def Arg.isPlain : Arg → Bool
  | .plain _ => true
  | _ => false

/-- The variables of the fields of `t`, which is built by `con`. -/
def fieldVars (con : Constructor) (t : TVr) : List TVr :=
  (T.slotTypes con.conName t.tvrType).mapIdx fun i st => .mk (tmpName .Val t.tvrIdent (i + 1)) st

def gLazy (t : TVr) : Arg := if t.tvrIdent = .emptyId then .absent t else .plain t

mutual

def g (t : TVr) : Demand → Arg
  | .s subs =>
    if t.tvrIdent = .emptyId then .absent t
    else match getProduct T t.tvrType with
      | some con => .cons con (gFields (fieldVars T con t) subs) t
      | none => .plain t
  | .absent => if t.tvrIdent = .emptyId then .absent t else if isLifted T (.eVar t) then .absent t else .plain t
  | .bottom => gLazy t
  | .l _ => gLazy t
  | .error _ => gLazy t

/-- `fsubs`: the fields beyond those of the demand are lazy. -/
def gFields (ts : List TVr) : SubDemand → List Arg
  | .none => ts.map gLazy
  | .product ds => gZip ts ds

def gZip (ts : List TVr) : List Demand → List Arg
  | [] => ts.map gLazy
  | d :: ds => match ts with
    | [] => []
    | t :: ts => g t d :: gZip ts ds

end

def isBoxed (n : Name) : Bool :=
  Option.isSome do
    let c ← T.getConstructor n
    if c.conInhabits = s_Star then some ()
    else do
      let c ← T.getConstructor c.conInhabits
      if c.conInhabits = s_Star then some () else none

def isCPR (n : Name) : Bool := isBoxed T n && onlyChild T n

/-- The last clauses of `f`. -/
def wrapPlain (e : E) (ts : List Arg) : Option (Option Name × E × List Arg) :=
  if ts.any fun a => !a.isPlain then some (none, e, ts.reverse) else none

def wrapBody (e : E) (cpr : CPR) (ts : List Arg) : Option (Option Name × E × List Arg) :=
  match cpr with
  | .tup n _ => if isCPR T n then some (some n, e, ts.reverse) else wrapPlain e ts
  | .tag [n] => if isCPR T n then some (some n, e, ts.reverse) else wrapPlain e ts
  | _ => wrapPlain e ts

def wrapArgs : E → List Demand → CPR → List Arg → Option (Option Name × E × List Arg)
  | .eLam t e, ss, .fun x, ts => wrapArgs e ss.tail x (g T t (ss.headD lazy) :: ts)
  | e, _, cpr, ts => wrapBody T e cpr ts

inductive Property where
  | wrapper | inline | superinline | placeholder | noinline | worker | joinpoint | oneshot
  | other (i : ℕ)
  deriving DecidableEq

/-- The variable of a binding with the info that the pass looks at. -/
structure Binder where
  tvr : TVr
  properties : List Property
  demand : Option (List Demand)
  cpr : Option CPR

def wrappable (mtvr : Binder) : E → Option (Option Name × E × List Arg)
  | .eLam t e => wrapArgs T (.eLam t e) (mtvr.demand.getD []) (mtvr.cpr.getD .top) []
  | _ => none

/-! ### workWrap' (WorkerWrapper.hs:70-118) -/

mutual

/-- The arguments of the worker. -/
def workerArgs : Arg → List TVr
  | .absent _ => []
  | .plain t => [t]
  | .cons _ ts _ => workerArgss ts

def workerArgss : List Arg → List TVr
  | [] => []
  | a :: as => workerArgs a ++ workerArgss as

end

mutual

/-- What the body finds in place of the arguments that the worker does not get; `n` is the place of the argument. -/
def lets (tvr : TVr) (n : String) : Arg → List Def
  | .absent t => [.mk t (.eError ("WorkWrap.Absent." ++ String.ofList (showId tvr.tvrIdent) ++ "." ++ n) t.tvrType)]
  | .plain _ => []
  | .cons c ts t => .mk t (.eLit c.conName (eVars (ts.map Arg.var)) t.tvrType) :: letss tvr (n ++ ".") 0 ts

def letss (tvr : TVr) (n : String) (i : ℕ) : List Arg → List Def
  | [] => []
  | a :: as => lets tvr (n ++ toString i) a ++ letss tvr n (i + 1) as

end

mutual

/-- `cases` of one argument around what follows. -/
def casesArg (k : E) : Arg → E
  | .absent _ => k
  | .plain _ => k
  | .cons c ts t => eCase T (.eVar t) (.litCons c.conName (ts.map Arg.var) t.tvrType (cases k ts))

/-- `f (ts ++ rs)` is `f ts` around `f rs`. -/
def cases (k : E) : List Arg → E
  | [] => k
  | a :: as => casesArg (cases k as) a

end

def lams (ts : List TVr) (e : E) : E := ts.foldr .eLam e

def aps (f : E) (es : List E) : E := es.foldl .eAp f

/-- The variables for the fields of the result. -/
def resultVars (tvr : TVr) (cname : Name) (bodyTyp : E) : List TVr :=
  let ts := T.slotTypes cname bodyTyp
  List.zipWith .mk (newIds T (freeIds tvr.tvrType ++ freeIds bodyTyp) ts.length) ts

/-- The one field of the result when it is unboxed. -/
def isSingleton : List TVr → Option TVr
  | [v] => if isEHash (T.getType v.tvrType) then some v else none
  | _ => none

/-- The dummy argument: it has the name of the function. -/
def navar (tvr : TVr) (args' : List TVr) : List TVr := if args'.isEmpty then [.mk tvr.tvrIdent (ltTuple' [])] else []

def navalue (args' : List TVr) : List E := if args'.isEmpty then [unboxedTuple []] else []

def worker (tvr : TVr) (cname : Option Name) (bodyTyp body : E) (sargs : List Arg) : E :=
  let args' := workerArgss sargs
  let result := match cname with
    | some n =>
      let vars := resultVars T tvr n bodyTyp
      eCase T body (.litCons n vars bodyTyp (match isSingleton T vars with
        | some sv => .eVar sv
        | none => unboxedTuple vars))
    | none => body
  lams (args' ++ navar tvr args') (eLetRec T (letss tvr "" 0 sargs) result)

def wrapper (tvr tvr' : TVr) (cname : Option Name) (bodyTyp : E) (sargs : List Arg) : E :=
  let args' := workerArgss sargs
  let workerCall := aps (.eVar tvr') (eVars args' ++ navalue args')
  let ne := match cname with
    | some n =>
      let vars := resultVars T tvr n bodyTyp
      match isSingleton T vars with
      | some sv => eStrictLet T sv workerCall (.eLit n [.eVar sv] bodyTyp)
      | none => eCase T workerCall (.litCons (unboxedNameTuple .DataConstructor vars.length) vars
          (ltTuple' (vars.map TVr.tvrType)) (.eLit n (eVars vars) bodyTyp))
    | none => workerCall
  lams (sargs.map Arg.var) (cases T ne sargs)

/-- A variable with the properties that it gets. -/
structure Marked where
  tvr : TVr
  properties : List Property

/-- The type of the body is looked at for a constructed result only. -/
def resultType (cname : Option Name) (body : E) : Option E := if cname.isSome then T.typecheck body else some .unknown

/-- The wrapper and the worker with their binders; `none` also where a type is not found. -/
def workWrap' (b : Binder) (e : E) : Option ((Marked × E) × (Marked × E)) := do
  guard ¬ [Property.wrapper, .inline, .superinline, .placeholder, .noinline].any (· ∈ b.properties)
  let (cname, body, sargs) ← wrappable T b e
  let bodyTyp ← resultType T cname body
  let w := worker T b.tvr cname bodyTyp body sargs
  let wt ← T.typecheck w
  let tvr' := TVr.mk (workerName b.tvr.tvrIdent) wt
  return ((⟨b.tvr, .wrapper :: b.properties⟩, wrapper T b.tvr tvr' cname bodyTyp sargs),
    (⟨tvr', .worker :: b.properties.filter (· ∈ [.joinpoint, .oneshot])⟩, w))

attribute [local grind =] g gFields gZip workerArgs workerArgss lets letss casesArg cases

end Jhc.E.WorkerWrapper

import Mathlib.Control.Traversable.Instances
import Mathlib.Control.Fold
import Jhc.Deriving.Traverse

/-!
# What derived instances of containers mean

Calls of the methods of Deriving/Traverse.hs at values without undefined parts, and the
laws of the three classes.
-/

namespace Jhc.Deriving.Traverse
open Jhc.Text (Str)

/-! ### Clauses over any meaning of application -/

structure Interp (S : Type) where
  undefined : S
  var : Name → S
  con : Name → S
  app : S → S → S
  fn : (k : ℕ) → (List S → S) → S

section
variable {S : Type} (J : Interp S)

/-- No generated method has a case. -/
def denote (ρ : List (Name × S)) : HsExp → S
  | .HsVar n => (ρ.lookup n).getD (J.var n)
  | .HsCon c => J.con c
  | .HsApp f a => J.app (denote ρ f) (denote ρ a)
  | .HsParen e => denote ρ e
  | .HsCase _ _ => J.undefined

/-- An argument, with its constructor and its fields if it has any. -/
structure Arg (S : Type) where
  whole : S
  parts : Option (Name × List S)

def bindField : HsPat → S → Option (List (Name × S))
  | .HsPVar n, s => some [(n, s)]
  | .HsPWildCard, _ => some []
  | .HsPApp _ _, _ => none

def bindFields : List HsPat → List S → Option (List (Name × S))
  | [], [] => some []
  | p :: ps, s :: ss => do return (← bindField p s) ++ (← bindFields ps ss)
  | _, _ => none

def bindArg : HsPat → Arg S → Option (List (Name × S))
  | .HsPApp c ps, ⟨_, some (c', ss)⟩ => if c = c' then bindFields ps ss else none
  | p, a => bindField p a.whole

def bindArgs : List HsPat → List (Arg S) → Option (List (Name × S))
  | [], [] => some []
  | p :: ps, a :: as => do return (← bindArg p a) ++ (← bindArgs ps as)
  | _, _ => none

def localFun (ρ : List (Name × S)) (m : HsMatch) : Name × S :=
  (m.hsMatchName, J.fn m.hsMatchPats.length fun ss =>
    match bindFields m.hsMatchPats ss with
    | some ρ' => denote J (ρ' ++ ρ) m.hsMatchRhs
    | none => J.undefined)

def runClause (ρ : List (Name × S)) (m : HsClause) : S :=
  denote J (m.hsMatchDecls.map (localFun J ρ) ++ ρ) m.hsMatchRhs

/-- The first clause that matches. -/
def callFun : HsFunBind → List (Arg S) → S
  | [], _ => J.undefined
  | m :: ms, as =>
    match bindArgs m.hsMatchPats as with
    | some ρ => runClause J ρ m
    | none => callFun ms as

end

/-! ### Values -/

mutual

/-- The variables that are free in a type. -/
def freeTyVars : HsType → List Name
  | .HsTyFun a b => freeTyVars a ++ freeTyVars b
  | .HsTyTuple ts => freeTyVarsAll ts
  | .HsTyUnboxedTuple ts => freeTyVarsAll ts
  | .HsTyApp a b => freeTyVars a ++ freeTyVars b
  | .HsTyVar v => [v]
  | .HsTyCon _ => []
  | .HsTyForall vs context t => (freeTyVarsContext context ++ freeTyVars t).filter (· ∉ vs)
  | .HsTyExists vs context t => (freeTyVarsContext context ++ freeTyVars t).filter (· ∉ vs)
  | .HsTyExpKind t => freeTyVars t
  | .HsTyStrictType _ t => freeTyVars t
  | .HsTyAssoc => []
  | .HsTyEq a b => freeTyVars a ++ freeTyVars b

def freeTyVarsAll : List HsType → List Name
  | [] => []
  | t :: ts => freeTyVars t ++ freeTyVarsAll ts

def freeTyVarsAsst : HsAsst → List Name
  | .HsAsst _ vs => vs
  | .HsAsstEq a b => freeTyVars a ++ freeTyVars b

def freeTyVarsContext : List HsAsst → List Name
  | [] => []
  | a :: as => freeTyVarsAsst a ++ freeTyVarsContext as

end

section
variable (F : HsType → Type → Type) (O : HsType → Type) (fv : Name)

/-- The values of a field, by its type: the last parameter `fv`, a container applied to it, or a type
without it. `F` are the containers and `O` the values of the other types. -/
inductive Field (A : Type) : HsType → Type where
  | elem (a : A) : Field A (.HsTyVar fv)
  | cont (x : HsType) (h : fv ∉ freeTyVars x) (c : F x A) : Field A (.HsTyApp x (.HsTyVar fv))
  | other (t : HsType) (h : fv ∉ freeTyVars t) (o : O t) : Field A t

inductive Fields (A : Type) : List HsBangType → Type where
  | nil : Fields A []
  | cons {t : HsBangType} {ts : List HsBangType} (y : Field F O fv A t.hsBangType) (ys : Fields A ts) :
    Fields A (t :: ts)

/-- A constructor of the declaration, applied. -/
structure Val (d : DataDecl) (A : Type) where
  body : Body HsBangType
  mem : body ∈ d.body
  fields : Fields F O fv A body.types

abbrev AnyField (A : Type) := (t : HsType) × Field F O fv A t

/-- A constructor with any fields. -/
structure Term (A : Type) where
  constructor : Name
  fields : List (AnyField F O fv A)

end

section
variable {F : HsType → Type → Type} {O : HsType → Type} {fv : Name} {A B : Type}

def Fields.toList {ts : List HsBangType} : Fields F O fv A ts → List (AnyField F O fv A)
  | nil => []
  | cons y ys => ⟨_, y⟩ :: ys.toList

def Val.term {d : DataDecl} (v : Val F O fv d A) : Term F O fv A := ⟨v.body.constructor, v.fields.toList⟩

end

/-! ### Calls of fmap and <$ -/

section
variable (F : HsType → Type → Type) (O : HsType → Type) (fv : Name) (A B : Type)

/-- What an expression of a derived `fmap` is: `build` is a constructor that waits for more fields. -/
inductive MapSem where
  | undefined
  | method (n : Name)
  | fn (f : A → B)
  | onCont (h : ∀ x, F x A → F x B)
  | src (y : AnyField F O fv A)
  | tgt (y : AnyField F O fv B)
  | build (k : List (AnyField F O fv B) → Option (Term F O fv B))
  | val (v : Term F O fv A)

end

section
variable {F : HsType → Type → Type} {O : HsType → Type} {fv : Name} {A B : Type}
  [∀ x, Functor (F x)]

def MapSem.app : MapSem F O fv A B → MapSem F O fv A B → MapSem F O fv A B
  | fn f, src ⟨_, .elem a⟩ => tgt ⟨_, .elem (f a)⟩
  | method n, fn f => if n = v_fmap then onCont fun _ c => f <$> c else undefined
  | method n, tgt ⟨_, .elem b⟩ => if n = v_fmap_const then onCont fun _ c => Functor.mapConst b c else undefined
  | onCont h, src ⟨_, .cont x hx c⟩ => tgt ⟨_, .cont x hx (h x c)⟩
  | build k, tgt y => build fun ys => k (y :: ys)
  | build k, src ⟨t, .other _ ht o⟩ => build fun ys => k (⟨t, .other t ht o⟩ :: ys)
  | _, _ => undefined

def MapSem.result : MapSem F O fv A B → Option (Term F O fv B)
  | build k => k []
  | _ => none

/-- No clause of `fmap` has a local function. -/
def mapInterp : Interp (MapSem F O fv A B) where
  undefined := .undefined
  var := .method
  con c := .build fun ys => some ⟨c, ys⟩
  app := MapSem.app
  fn _ _ := .undefined

def mapArg (v : Term F O fv A) : Arg (MapSem F O fv A B) :=
  ⟨.val v, some (v.constructor, v.fields.map .src)⟩

def callFmap (ms : HsFunBind) (f : A → B) (v : Term F O fv A) : Option (Term F O fv B) :=
  (callFun mapInterp ms [⟨.fn f, none⟩, mapArg v]).result

def callFmapConst (ms : HsFunBind) (b : B) (v : Term F O fv A) : Option (Term F O fv B) :=
  (callFun mapInterp ms [⟨.tgt ⟨_, .elem b⟩, none⟩, mapArg v]).result

end

/-! ### Calls of foldMap and fold -/

class Foldable (t : Type → Type) where
  foldMap {A M : Type} [Monoid M] : (A → M) → t A → M
  fold {M : Type} [Monoid M] : t M → M

/-- From left to right. -/
def elements {t : Type → Type} [Foldable t] {A : Type} (c : t A) : List A :=
  FreeMonoid.toList (Foldable.foldMap FreeMonoid.of c)

class LawfulFoldable (t : Type → Type) [Functor t] [Foldable t] : Prop where
  foldMap_elements : ∀ {A M : Type} [Monoid M] (f : A → M) (c : t A),
    Foldable.foldMap f c = ((elements c).map f).prod
  fold_eq : ∀ {M : Type} [Monoid M] (c : t M), Foldable.fold c = Foldable.foldMap id c
  foldMap_map : ∀ {A B M : Type} [Monoid M] (f : A → B) (g : B → M) (c : t A),
    Foldable.foldMap g (f <$> c) = Foldable.foldMap (g ∘ f) c

section
variable (F : HsType → Type → Type) (O : HsType → Type) (fv : Name) (A M : Type)

inductive FoldSem where
  | undefined
  | method (n : Name)
  | fn (f : A → M)
  | onCont (h : ∀ x, F x A → M)
  | src (y : AnyField F O fv A)
  | mon (m : M)
  | times (m : M)
  | val (v : Term F O fv A)

end

section
variable {F : HsType → Type → Type} {O : HsType → Type} {fv : Name} {A M : Type}
  [∀ x, Foldable (F x)] [Monoid M]

def FoldSem.app : FoldSem F O fv A M → FoldSem F O fv A M → FoldSem F O fv A M
  | fn f, src ⟨_, .elem a⟩ => mon (f a)
  | method n, fn f => if n = v_foldMap then onCont fun _ c => Foldable.foldMap f c else undefined
  | onCont h, src ⟨_, .cont x _ c⟩ => mon (h x c)
  | method n, mon m => if n = v_mappend then times m else undefined
  | times m, mon m' => mon (m * m')
  | _, _ => undefined

def FoldSem.result : FoldSem F O fv A M → Option M
  | mon m => some m
  | _ => none

/-- `top` is what `fold` is; no clause has a local function. -/
def foldInterp (top : FoldSem F O fv A M) : Interp (FoldSem F O fv A M) where
  undefined := .undefined
  var n := if n = v_mempty then .mon 1 else if n = v_fold then top else .method n
  con _ := .undefined
  app := FoldSem.app
  fn _ _ := .undefined

def callFoldMap (ms : HsFunBind) (f : A → M) (v : Term F O fv A) : Option M :=
  (callFun (foldInterp .undefined) ms
    [⟨.fn f, none⟩, ⟨.val v, some (v.constructor, v.fields.map .src)⟩]).result

/-- The elements are in the monoid. -/
def asMonoid : AnyField F O fv M → FoldSem F O fv M M
  | ⟨_, .elem m⟩ => .mon m
  | y => .src y

def callFold (ms : HsFunBind) (v : Term F O fv M) : Option M :=
  (callFun (foldInterp (.onCont fun _ c => Foldable.fold c)) ms
    [⟨.val v, some (v.constructor, v.fields.map asMonoid)⟩]).result

end

/-! ### Calls of traverse and sequenceA -/

section
variable (F : HsType → Type → Type) (O : HsType → Type) (fv : Name) (A B : Type) (G : Type → Type)

/-- A constructor or a local function that waits for more fields. -/
abbrev Build := List (AnyField F O fv B) → Option (Term F O fv B)

inductive TravSem where
  | undefined
  | method (n : Name)
  | fn (f : A → G B)
  | onCont (h : ∀ x, F x A → G (F x B))
  | src (y : AnyField F O fv A)
  | tgt (y : AnyField F O fv B)
  | eff (e : G (AnyField F O fv B))
  | build (k : Build F O fv B)
  | mapping (k : Build F O fv B)
  | effBuild (e : G (Build F O fv B))
  | ap (e : G (Build F O fv B))
  | val (v : Term F O fv A)

end

section
variable {F : HsType → Type → Type} {O : HsType → Type} {fv : Name} {A B : Type} {G : Type → Type}
  [Applicative G]

def Build.give (k : Build F O fv B) (y : AnyField F O fv B) : Build F O fv B := fun ys => k (y :: ys)

def TravSem.pureResult : TravSem F O fv A B G → Option (Term F O fv B)
  | build k => k []
  | _ => none

def TravSem.result : TravSem F O fv A B G → Option (G (Option (Term F O fv B)))
  | effBuild e => some ((fun k => k []) <$> e)
  | _ => none

variable [∀ x, Traversable (F x)]

def TravSem.app : TravSem F O fv A B G → TravSem F O fv A B G → TravSem F O fv A B G
  | fn f, src ⟨_, .elem a⟩ => eff ((fun b => ⟨_, .elem b⟩) <$> f a)
  | method n, fn f => if n = v_traverse then onCont fun _ c => traverse f c else undefined
  | onCont h, src ⟨_, .cont x hx c⟩ => eff ((fun c' => ⟨_, .cont x hx c'⟩) <$> h x c)
  | build k, tgt y => build (k.give y)
  | build k, src ⟨t, .other _ ht o⟩ => build (k.give ⟨t, .other t ht o⟩)
  | method n, build k =>
    if n = v_fmap then mapping k else if n = v_pure then effBuild (pure k) else undefined
  | mapping k, eff e => effBuild (k.give <$> e)
  | method n, effBuild e => if n = v_lstar then ap e else undefined
  | ap e, eff e' => effBuild (Build.give <$> e <*> e')
  | _, _ => undefined

/-- `top` is what `sequenceA` is. -/
def travInterp (top : TravSem F O fv A B G) : Interp (TravSem F O fv A B G) where
  undefined := .undefined
  var n := if n = v_sequenceA then top else .method n
  con c := .build fun ys => some ⟨c, ys⟩
  app := TravSem.app
  fn k body := .build fun ys => if ys.length = k then (body (ys.map .tgt)).pureResult else none

def callTraverse (ms : HsFunBind) (f : A → G B) (v : Term F O fv A) : Option (G (Option (Term F O fv B))) :=
  (callFun (travInterp .undefined) ms
    [⟨.fn f, none⟩, ⟨.val v, some (v.constructor, v.fields.map .src)⟩]).result

/-- The elements are effects. -/
def asEffect : AnyField F O fv (G B) → TravSem F O fv (G B) B G
  | ⟨_, .elem e⟩ => .eff ((fun b => ⟨_, .elem b⟩) <$> e)
  | y => .src y

def callSequenceA (ms : HsFunBind) (v : Term F O fv (G B)) : Option (G (Option (Term F O fv B))) :=
  (callFun (travInterp (.onCont fun _ c => sequence c)) ms
    [⟨.val v, some (v.constructor, v.fields.map asEffect)⟩]).result

end

/-! ### The laws -/

inductive Derivable where
  | functor
  | foldable
  | traversable
  deriving DecidableEq

def Derivable.className : Derivable → Name
  | functor => class_Functor
  | foldable => class_Foldable
  | traversable => class_Traversable

/-- lib/jhc/Jhc/Monad.hs:15-19, lib/applicative/Data/Foldable.hs:89-127 and Data/Traversable.hs:74-93. -/
def Derivable.methods : Derivable → List Name
  | functor => [v_fmap, v_fmap_const]
  | foldable => [v_fold, v_foldMap] ++
    ["foldr", "foldl", "foldr1", "foldl1"].map fun s => ⟨"Data.Foldable".toList, s.toList⟩
  | traversable => [v_traverse, v_sequenceA] ++
    ["mapM", "sequence"].map fun s => ⟨"Data.Traversable".toList, s.toList⟩

/-- The method that the laws are about. -/
def Derivable.main : Derivable → Name
  | functor => v_fmap
  | foldable => v_foldMap
  | traversable => v_traverse

def derive : Derivable → Derive → Str → DataDecl → QW HsInstDecl
  | .functor => deriveFunctor
  | .foldable => deriveFoldable
  | .traversable => deriveTraversable

/-- The matches under a name. -/
def method (i : HsInstDecl) (n : Name) : HsFunBind :=
  (i.hsDeclDecls.find? fun ms => ms.any fun m => m.hsMatchName = n).getD []

/-- The instance is one of the class and defines methods of the class, the one of the laws among them. -/
structure DefinesMethods (cls : Derivable) (i : HsInstDecl) : Prop where
  head : i.hsDeclClassHead.hsClassHead = cls.className
  methods : ∀ ms ∈ i.hsDeclDecls, ∀ m ∈ ms, m.hsMatchName ∈ cls.methods
  main : method i cls.main ≠ []

section
variable (fv : Name) (d : DataDecl) (i : HsInstDecl)

def FunctorLaws : Prop :=
  ∀ (F : HsType → Type → Type) (O : HsType → Type) [∀ x, Functor (F x)] [∀ x, LawfulFunctor (F x)],
    ∃ fmap : ∀ {A B : Type}, (A → B) → Val F O fv d A → Val F O fv d B,
      (∀ {A B : Type} (f : A → B) (v : Val F O fv d A),
        callFmap (method i v_fmap) f v.term = some (fmap f v).term) ∧
      (∀ {A B : Type} (b : B) (v : Val F O fv d A),
        callFmapConst (method i v_fmap_const) b v.term = some (fmap (fun _ => b) v).term) ∧
      (∀ {A : Type} (v : Val F O fv d A), fmap id v = v) ∧
      ∀ {A B C : Type} (f : A → B) (g : B → C) (v : Val F O fv d A), fmap (g ∘ f) v = fmap g (fmap f v)

variable {fv d}

section
variable {F : HsType → Type → Type} {O : HsType → Type} {A : Type} [∀ x, Foldable (F x)]

/-- Each element once, from left to right. -/
def Field.elements {t : HsType} : Field F O fv A t → List A
  | elem a => [a]
  | cont _ _ c => Traverse.elements c
  | other _ _ _ => []

def Fields.elements {ts : List HsBangType} : Fields F O fv A ts → List A
  | nil => []
  | cons y ys => y.elements ++ ys.elements

end

variable (fv d)

/-- `fmap` is that of the derived Functor. -/
def FoldableLaws : Prop :=
  ∀ (F : HsType → Type → Type) (O : HsType → Type) [∀ x, Functor (F x)] [∀ x, LawfulFunctor (F x)]
    [∀ x, Foldable (F x)] [∀ x, LawfulFoldable (F x)] {A M : Type} [Monoid M] (f : A → M)
    (v : Val F O fv d A),
    callFoldMap (method i v_foldMap) f v.term = some (v.fields.elements.map f).prod ∧
    ∀ (der : Derive) (mod : Str) (u : ℕ), (deriveFunctor der mod d (u, [])).2.2 = [] →
      ∃ w, callFmap (method (deriveFunctor der mod d (u, [])).1 v_fmap) f v.term = some w ∧
        callFold (method i v_fold) w = callFoldMap (method i v_foldMap) f v.term

/-- The containers fold in the order in which they traverse. -/
def TraversableLaws : Prop :=
  ∀ (F : HsType → Type → Type) (O : HsType → Type) [∀ x, Traversable (F x)] [∀ x, LawfulTraversable (F x)]
    [∀ x, Foldable (F x)] [∀ x, LawfulFoldable (F x)]
    (_ : ∀ x {A B M : Type} [Monoid M] (f : A → M) (c : F x A),
      (traverse (m := Functor.Const M) (fun a => (.mk (f a) : Functor.Const M B)) c).run = Foldable.foldMap f c),
    ∃ trav : ∀ {G : Type → Type} [Applicative G] {A B : Type}, (A → G B) → Val F O fv d A → G (Val F O fv d B),
      (∀ {G : Type → Type} [Applicative G] [LawfulApplicative G] {A B : Type} (f : A → G B)
        (v : Val F O fv d A),
        callTraverse (method i v_traverse) f v.term = some ((fun w => some w.term) <$> trav f v)) ∧
      (∀ {G : Type → Type} [Applicative G] [LawfulApplicative G] {B : Type} (v : Val F O fv d (G B)),
        callSequenceA (method i v_sequenceA) v.term = some ((fun w => some w.term) <$> trav id v)) ∧
      (∀ {A : Type} (v : Val F O fv d A), trav (pure : A → Id A) v = pure v) ∧
      (∀ {G H : Type → Type} [Applicative G] [LawfulApplicative G] [Applicative H] [LawfulApplicative H]
        {A B C : Type} (f : B → G C) (g : A → H B) (v : Val F O fv d A),
        trav (Functor.Comp.mk ∘ Functor.map f ∘ g) v = Functor.Comp.mk (trav f <$> trav g v)) ∧
      ∀ {A B M : Type} [Monoid M] (f : A → M) (v : Val F O fv d A),
        (trav (G := Functor.Const M) (fun a => (.mk (f a) : Functor.Const M B)) v).run =
          (v.fields.elements.map f).prod

end

/-- The instance is lawful; `fv` is the last parameter. -/
def Lawful (cls : Derivable) (d : DataDecl) (i : HsInstDecl) : Prop :=
  DefinesMethods cls i ∧ ∀ fv ∈ d.vars.getLast?,
    match cls with
    | .functor => FunctorLaws fv d i
    | .foldable => FoldableLaws fv d i
    | .traversable => TraversableLaws fv d i

end Jhc.Deriving.Traverse

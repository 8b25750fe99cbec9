import Mathlib.Data.List.Basic
import Jhc.E.Syntax

/-!
# Demands (E/Demand.hs:35-182, 298-326)

How a value is used. The demands of the components of a value of a product type stand in a
`Product`, those of an applied function as well.
-/

namespace Jhc.E

mutual

inductive Demand where
  /-- Always diverges. -/
  | bottom
  /-- Lazy. -/
  | L (x : SubDemand)
  /-- Strict. -/
  | S (x : SubDemand)
  /-- Diverges, might use arguments. -/
  | error (x : SubDemand)
  /-- Not used. -/
  | absent

inductive SubDemand where
  | none
  | product (xs : List Demand)

end

namespace Demand
open SubDemand (product)

def idGlb : Demand := absent

def lazy : Demand := L .none

def strict : Demand := S .none

def err : Demand := error .none

def isLazy : Demand → Bool
  | L .none => true
  | _ => false

/-! ### Products (Demand.hs:78-106) -/

def allLazy (xs : List Demand) : SubDemand := if xs.all isLazy then .none else product xs

def sp : List Demand → Demand
  | [] => S .none
  | xs => S (allLazy xs)

mutual

def lp : List Demand → Demand
  | [] => L .none
  | xs => L (allLazy (lpArgs xs))

/-- The components of a lazy product. -/
def lpArg : Demand → Demand
  | S .none => lazy
  | S (product ys) => lp ys
  | bottom => absent
  | error .none => lazy
  | error (product xs) => lp xs
  | x => x

def lpArgs : List Demand → List Demand
  | [] => []
  | x :: xs => lpArg x :: lpArgs xs

end

def l : SubDemand → Demand
  | .none => L .none
  | product xs => lp xs

def s : SubDemand → Demand
  | .none => S .none
  | product xs => sp xs

/-! ### lub, glb (Demand.hs:128-169) -/

def comb (f : Demand → Demand → Demand) : SubDemand → SubDemand → SubDemand
  | .none, .none => .none
  | .none, product xs => product (List.zipWith f (List.replicate xs.length lazy) xs)
  | product xs, .none => product (List.zipWith f xs (List.replicate xs.length lazy))
  | product xs, product ys => product (List.zipWith f xs ys)

mutual

def lub : Demand → Demand → Demand
  | bottom, d => d
  | d, bottom => d
  | absent, absent => absent
  | S x, absent => l x
  | absent, S x => l x
  | L x, absent => l x
  | absent, L x => l x
  | absent, _ => lazy
  | _, absent => lazy
  | S x, S y => s (lubSub x y)
  | L x, L y => l (lubSub x y)
  | error x, error y => error (lubSub x y)
  | S x, L y => l (lubSub x y)
  | L x, S y => l (lubSub x y)
  | S x, error y => s (lubSub x y)
  | error x, S y => s (lubSub x y)
  | L _, error _ => lazy
  | error _, L _ => lazy
termination_by a b => 2 * (sizeOf a + sizeOf b)

/-- `comb lub` -/
def lubSub : SubDemand → SubDemand → SubDemand
  | .none, .none => .none
  | .none, product xs => product (lubsLazyLeft xs)
  | product xs, .none => product (lubsLazyRight xs)
  | product xs, product ys => product (lubs xs ys)
termination_by a b => 2 * (sizeOf a + sizeOf b)

def lubs : List Demand → List Demand → List Demand
  | x :: xs, y :: ys => lub x y :: lubs xs ys
  | _, _ => []
termination_by a b => 2 * (sizeOf a + sizeOf b)

def lubsLazyLeft : List Demand → List Demand
  | [] => []
  | x :: xs => lub (L .none) x :: lubsLazyLeft xs
termination_by a => 3 + 2 * sizeOf a

def lubsLazyRight : List Demand → List Demand
  | [] => []
  | x :: xs => lub x (L .none) :: lubsLazyRight xs
termination_by a => 3 + 2 * sizeOf a

end

mutual

def glb : Demand → Demand → Demand
  | bottom, bottom => bottom
  | absent, d => d
  | d, absent => d
  | bottom, _ => err
  | _, bottom => err
  | S x, S y => s (glbSub x y)
  | L x, L y => l (glbSub x y)
  | error x, error y => error (glbSub x y)
  | S _, error _ => err
  | error _, S _ => err
  | S x, L y => s (glbSub x y)
  | L x, S y => s (glbSub x y)
  | L _, error _ => err
  | error _, L _ => err
termination_by a b => 2 * (sizeOf a + sizeOf b)

/-- `comb glb` -/
def glbSub : SubDemand → SubDemand → SubDemand
  | .none, .none => .none
  | .none, product xs => product (glbsLazyLeft xs)
  | product xs, .none => product (glbsLazyRight xs)
  | product xs, product ys => product (glbs xs ys)
termination_by a b => 2 * (sizeOf a + sizeOf b)

def glbs : List Demand → List Demand → List Demand
  | x :: xs, y :: ys => glb x y :: glbs xs ys
  | _, _ => []
termination_by a b => 2 * (sizeOf a + sizeOf b)

def glbsLazyLeft : List Demand → List Demand
  | [] => []
  | x :: xs => glb (L .none) x :: glbsLazyLeft xs
termination_by a => 3 + 2 * sizeOf a

def glbsLazyRight : List Demand → List Demand
  | [] => []
  | x :: xs => glb x (L .none) :: glbsLazyRight xs
termination_by a => 3 + 2 * sizeOf a

end

attribute [local grind =] lub glb

end Demand

/-! ### Demand types (Demand.hs:47-54, 117-121, 171-182) -/

/-- The demands on the variables, and the one on the variables without an entry. -/
structure DemandEnv where
  map : Id → Option Demand
  rest : Demand

def lenv (e : Id) (d : DemandEnv) : Demand := (d.map e).getD d.rest

/-- What using a value demands of the variables, and of the arguments. -/
structure DemandType where
  env : DemandEnv
  args : List Demand

namespace DemandEnv

def combine (f : Demand → Demand → Demand) (d₁ d₂ : DemandEnv) : DemandEnv :=
  ⟨fun x => if (d₁.map x).isSome || (d₂.map x).isSome then some (f (lenv x d₁) (lenv x d₂)) else none,
    f d₁.rest d₂.rest⟩

def lub : DemandEnv → DemandEnv → DemandEnv := combine Demand.lub

def glb : DemandEnv → DemandEnv → DemandEnv := combine Demand.glb

end DemandEnv

namespace DemandType

/-- The arguments of two types; the shorter list goes on with lazy demands. -/
def combineArgs (f : Demand → Demand → Demand) (ts ts' : List Demand) : List Demand :=
  if ts.length < ts'.length then
    List.zipWith f (ts ++ List.replicate ts'.length Demand.lazy) ts'
  else List.zipWith f ts (ts' ++ List.replicate ts.length Demand.lazy)

def lub (t t' : DemandType) : DemandType :=
  ⟨t.env.lub t'.env, combineArgs Demand.lub t.args t'.args⟩

def glb (t t' : DemandType) : DemandType :=
  ⟨t.env.glb t'.env, combineArgs Demand.glb t.args t'.args⟩

/-- `foldr1 lub`, with which `analyzeCase` joins the types of the alternatives. -/
def foldr1 (f : DemandType → DemandType → DemandType) : List DemandType → Option DemandType
  | [] => none
  | [t] => some t
  | t :: ts => (foldr1 f ts).map (f t)

end DemandType

/-! ### The demands of the analysis -/

namespace Demand

/-- `lazify`, at one variable. -/
def lazify : Demand → Demand
  | S xs => l xs
  | absent => absent
  | L xs => l xs
  | bottom => absent
  | error xs => l xs

/-- The demands that the analysis makes: of a use, of an application, of the variables of a pattern,
of an error, joined, combined, made lazy and taken apart. -/
inductive Built : Demand → Prop where
  | absent : Built absent
  | bottom : Built bottom
  | lazy : Built lazy
  | strict : Built strict
  | err : Built err
  | sp {xs : List Demand} (h : ∀ x ∈ xs, Built x) : Built (sp xs)
  | lub {a b : Demand} (ha : Built a) (hb : Built b) : Built (lub a b)
  | glb {a b : Demand} (ha : Built a) (hb : Built b) : Built (glb a b)
  | lazify {a : Demand} (h : Built a) : Built (lazify a)
  | strictComponent {xs : List Demand} {d : Demand} (h : Built (S (SubDemand.product xs))) (hd : d ∈ xs) : Built d
  | lazyComponent {xs : List Demand} {d : Demand} (h : Built (L (SubDemand.product xs))) (hd : d ∈ xs) : Built d

end Demand

/-- Every demand of the type is one of the analysis. -/
structure DemandType.Built (t : DemandType) : Prop where
  map : ∀ x d, t.env.map x = some d → Demand.Built d
  rest : Demand.Built t.env.rest
  args : ∀ d ∈ t.args, Demand.Built d

end Jhc.E

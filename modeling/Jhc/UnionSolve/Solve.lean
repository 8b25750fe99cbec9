import Mathlib.Data.List.Sort
import Mathlib.Logic.Function.Basic
import Jhc.Lib.Ensures
import Jhc.UnionSolve.Fixable

/-!
# The constraint solver (src/Util/UnionSolve.hs:45-290, src/Util/UnionFind.hs)

Constraints between variables and constants are collected on the classes of a
union-find structure: first those between variables, then those with constants.
An `Element` is its unique number. Messages and annotations are left out.
-/

namespace Jhc.UnionSolve
open Fixable Jhc.Lib

/-! ### Constraints (UnionSolve.hs:46-101) -/

inductive Op where
  | lte
  | eq
  | gte
  deriving DecidableEq

inductive CL (l v : Type) where
  | cv (x : v) (op : Op) (y : v)
  | cl (x : v) (op : Op) (c : l)

/-! ### Sets in the order of `Set.toList` -/

def setInsert (x : ℕ) (s : List ℕ) : List ℕ := if x ∈ s then s else s.orderedInsert (· ≤ ·) x

def setUnion (s t : List ℕ) : List ℕ := s.foldr setInsert t

def setFromList (xs : List ℕ) : List ℕ := xs.foldr setInsert []

def setDelete (x : ℕ) (s : List ℕ) : List ℕ := s.filter (· ≠ x)

def setInter (s t : List ℕ) : List ℕ := s.filter (· ∈ t)

theorem mem_setInsert {x y : ℕ} {s : List ℕ} : y ∈ setInsert x s ↔ y = x ∨ y ∈ s := by
  unfold setInsert
  split_ifs with h
  · constructor
    · exact Or.inr
    · intro hor
      rcases hor with rfl | hy
      · exact h
      · exact hy
  · exact List.mem_orderedInsert _

theorem mem_setUnion {y : ℕ} {s t : List ℕ} : y ∈ setUnion s t ↔ y ∈ s ∨ y ∈ t := by
  induction s with
  | nil => simp [setUnion]
  | cons x s ih =>
    show y ∈ setInsert x (setUnion s t) ↔ _
    rw [mem_setInsert, ih, List.mem_cons, or_assoc]

theorem mem_setFromList {y : ℕ} {xs : List ℕ} : y ∈ setFromList xs ↔ y ∈ xs := by
  have h := mem_setUnion (y := y) (s := xs) (t := [])
  rwa [or_iff_left List.not_mem_nil] at h

theorem mem_setDelete {x y : ℕ} {s : List ℕ} : y ∈ setDelete x s ↔ y ∈ s ∧ y ≠ x := by
  simp [setDelete]

theorem mem_setInter {y : ℕ} {s t : List ℕ} : y ∈ setInter s t ↔ y ∈ s ∧ y ∈ t := by
  simp [setInter]

/-! ### Union-find (UnionFind.hs) -/

/-- What is known of a class: its value, or bounds and the classes around it. -/
inductive R (l : Type) where
  | r (c : l)
  | ri (ml : Option l) (lb : List ℕ) (mu : Option l) (ub : List ℕ)

/-- The links of the elements, each as the root that `find` reaches along them; the
`Weight` of a root is in `weight` and `info`. -/
structure UF (l : Type) where
  root : ℕ → ℕ
  weight : ℕ → ℕ
  info : ℕ → R l

namespace UF

variable {l : Type}

/-- Elements as `new` makes them in `prepareConstraints`. -/
def init (l : Type) : UF l where
  root x := x
  weight _ := 1
  info _ := .ri none [] none []

def find (x : ℕ) (s : UF l) : ℕ := s.root x

def getW (x : ℕ) (s : UF l) : R l := s.info (s.root x)

def updateW (f : R l → R l) (x : ℕ) (s : UF l) : UF l :=
  { s with info := Function.update s.info (s.root x) (f (s.info (s.root x))) }

def putW (x : ℕ) (w : R l) (s : UF l) : UF l := s.updateW (fun _ => w) x

def union (comb : R l → R l → R l) (e1 e2 : ℕ) (s : UF l) : UF l :=
  let r1 := s.root e1
  let r2 := s.root e2
  if r1 = r2 then s
  else if s.weight r1 ≤ s.weight r2 then
    { root := fun e => if s.root e = r1 then r2 else s.root e
      weight := Function.update s.weight r2 (s.weight r1 + s.weight r2)
      info := Function.update s.info r2 (comb (s.info r1) (s.info r2)) }
  else
    { root := fun e => if s.root e = r2 then r1 else s.root e
      weight := Function.update s.weight r1 (s.weight r1 + s.weight r2)
      info := Function.update s.info r1 (comb (s.info r1) (s.info r2)) }

def finds (set : List ℕ) (s : UF l) : List ℕ := setFromList (set.map s.root)

end UF

/-! ### Constraints between variables (UnionSolve.hs:146-203) -/

section Variables

variable {l : Type}

/-- `checkRS` of the first phase; `doVar` is the function `rec`. -/
def checkRS (rec : ℕ → Op → ℕ → UF l → Except Stop (UF l)) (ve : ℕ) (s : UF l) :
    Except Stop (UF l) :=
  match s.getW ve with
  | .r _ => .error .fail
  | .ri l lb h ub =>
    let lb := s.finds lb
    let ub := s.finds ub
    let s := s.putW ve (.ri l (setDelete ve lb) h (setDelete ve ub))
    (setInter lb ub).foldlM (fun s v => rec ve .eq v s) s

def doEq (rec : ℕ → Op → ℕ → UF l → Except Stop (UF l)) (xe : ℕ) (xlb xub : List ℕ) (ye : ℕ)
    (ylb yub : List ℕ) (s : UF l) : Except Stop (UF l) :=
  let s := s.union (fun x _ => x) xe ye
  let ne := s.find xe
  let nlb := s.finds (setUnion xlb ylb)
  let nub := s.finds (setUnion yub xub)
  checkRS rec ne (s.putW ne (.ri none nlb none nub))

def doLte (rec : ℕ → Op → ℕ → UF l → Except Stop (UF l)) (xe : ℕ) (xml : Option l) (xlb : List ℕ)
    (xmu : Option l) (xub : List ℕ) (ye : ℕ) (yml : Option l) (ylb : List ℕ) (ymu : Option l)
    (yub : List ℕ) (s : UF l) : Except Stop (UF l) :=
  let done := (s.putW xe (.ri xml xlb xmu xub)).putW ye (.ri yml ylb ymu yub)
  if ye ∈ xub then .ok done
  else if xe ∈ ylb then .ok done
  else if ye ∈ xlb then doEq rec xe xlb xub ye ylb yub s
  else if xe ∈ yub then doEq rec xe xlb xub ye ylb yub s
  else do
    let s := s.putW xe (.ri xml xlb xmu (setInsert ye (setUnion xub yub)))
    let s := s.putW ye (.ri yml (setInsert xe (setUnion ylb xlb)) ymu yub)
    let s ← checkRS rec xe s
    checkRS rec (s.find ye) s

def doVarF (rec : ℕ → Op → ℕ → UF l → Except Stop (UF l)) (xe : ℕ) (op : Op) (ye : ℕ) (s : UF l) :
    Except Stop (UF l) :=
  if xe = ye then .ok s
  else
    match s.getW xe, s.getW ye with
    | .ri xml xlb xmu xub, .ri yml ylb ymu yub =>
      let xub := s.finds xub
      let xlb := s.finds xlb
      let yub := s.finds yub
      let ylb := s.finds ylb
      match op with
      | .eq => doEq rec xe xlb xub ye ylb yub s
      | .lte => doLte rec xe xml xlb xmu xub ye yml ylb ymu yub s
      | .gte => doLte rec ye yml ylb ymu yub xe xml xlb xmu xub s
    | _, _ => .error .fail

def doVar : ℕ → ℕ → Op → ℕ → UF l → Except Stop (UF l)
  | 0 => fun _ _ _ _ => .error .outOfFuel
  | fuel + 1 => doVarF (doVar fuel)

def procVar (fuel : ℕ) (s : UF l) : CL l ℕ → Except Stop (UF l)
  | .cv x op y => doVar fuel (s.find x) op (s.find y) s
  | .cl .. => .ok s

end Variables

/-! ### Constraints with constants (UnionSolve.hs:133-138, 205-258) -/

section Constants

variable {l : Type} [Fixable l]

def check (op : Op) (x y : l) : Bool :=
  match op with
  | .eq => eq x y
  | .lte => lte x y
  | .gte => lte y x

def testBoundLT (b : Option l) (y : l) : Bool :=
  match b with
  | none => true
  | some x => lte x y

def testBoundGT (b : Option l) (y : l) : Bool :=
  match b with
  | none => true
  | some x => lte y x

/-- `mjoin (Just x) b` -/
def mjoin (x : l) : Option l → l
  | none => x
  | some y => join x y

/-- `mmeet (Just x) b` -/
def mmeet (x : l) : Option l → l
  | none => x
  | some y => meet x y

/-- `eq` of the instance of `Maybe`, for bounds. -/
def eqBound (x y : Option l) : Bool := eq (α := WithBot l) x y

/-- `checkRS` of the second phase. -/
def checkBounds (rec : ℕ → Op → l → UF l → Except Stop (UF l)) (r : R l) (xe : ℕ) (s : UF l) :
    Except Stop (UF l) :=
  match r with
  | .r _ => .ok s
  | .ri ml _ mu _ =>
    match ml, mu with
    | some lo, some u =>
      if eq lo u then rec xe .eq lo s
      else if lte u lo then .error .fail
      else if isTop lo then rec xe .eq lo s
      else if isBottom u then rec xe .eq u s
      else .ok s
    | some lo, none => if isTop lo then rec xe .eq lo s else .ok s
    | none, some u => if isBottom u then rec xe .eq u s else .ok s
    | none, none => .ok s

def doUpdate (rec : ℕ → Op → l → UF l → Except Stop (UF l)) (r : R l) (xe : ℕ) (s : UF l) :
    Except Stop (UF l) :=
  checkBounds rec r xe (s.updateW (fun _ => r) xe)

def doOpF (rec : ℕ → Op → l → UF l → Except Stop (UF l)) (ve : ℕ) (op : Op) (c : l) (s : UF l) :
    Except Stop (UF l) :=
  match op, s.getW ve with
  | op, .r x => if check op x c then .ok s else .error .fail
  | .eq, .ri ml lb mu ub =>
    if testBoundLT ml c && testBoundGT mu c then do
      let s ← lb.foldlM (fun s v => rec v .lte c s) (s.updateW (fun _ => .r c) ve)
      ub.foldlM (fun s v => rec v .gte c s) s
    else .error .fail
  | .lte, .ri ml lb mu ub =>
    if mu.any fun n => lte n c then .ok s
    else if ml.any fun n => eq n c then rec ve .eq c s
    else if ml.any fun n => lte c n then .error .fail
    else do
      let nv := mmeet c mu
      let s ← doUpdate rec (.ri ml lb (some nv) ub) ve s
      if eqBound (some nv) mu then return s
      lb.foldlM (fun s v => rec v .lte nv s) s
  | .gte, .ri ml lb mu ub =>
    if ml.any fun n => lte c n then .ok s
    else if mu.any fun n => eq n c then rec ve .eq c s
    else if mu.any fun n => lte n c then .error .fail
    else do
      let nv := mjoin c ml
      let s ← doUpdate rec (.ri (some nv) lb mu ub) ve s
      if eqBound (some nv) ml then return s
      ub.foldlM (fun s v => rec v .gte nv s) s

def doOp : ℕ → ℕ → Op → l → UF l → Except Stop (UF l)
  | 0 => fun _ _ _ _ => .error .outOfFuel
  | fuel + 1 => doOpF (doOp fuel)

def procLit (fuel : ℕ) (s : UF l) : CL l ℕ → Except Stop (UF l)
  | .cl x op c => doOp fuel (s.find x) op c s
  | .cv .. => .ok s

end Constants

/-! ### solve (UnionSolve.hs:108-131, 141-145, 259-290) -/

section Solve

variable {l v : Type} [DecidableEq v]

/-- The element of a variable; `m` are the variables that have one, in order. -/
def element (x : v) (m : List v) : ℕ × List v :=
  if x ∈ m then (m.idxOf x, m) else (m.length, m ++ [x])

/-- The constraints over elements, last one first. -/
def prepareConstraints : List (CL l v) → List v → List (CL l ℕ) → List (CL l ℕ) × List v
  | [], m, rs => (rs, m)
  | .cl x op c :: cs, m, rs =>
    let (x', m) := element x m
    prepareConstraints cs m (.cl x' op c :: rs)
  | .cv x op y :: cs, m, rs =>
    let (x', m) := element x m
    let (y', m) := element y m
    prepareConstraints cs m (.cv x' op y' :: rs)

inductive Result (l a : Type) where
  | just (rep : a) (value : l)
  | bounded (rep : a) (lb ub : Option l) (lbv ubv : List a)

/-- `Nothing` for an element that no variable has. -/
def result (m : List v) (s : UF l) (e : ℕ) : Option (v × Result l v) :=
  (m[s.root e]?).map fun rep =>
    (rep, match s.getW e with
      | .r c => .just rep c
      | .ri ml lb mu ub =>
        .bounded rep ml mu ((s.finds lb).filterMap fun e => m[e]?)
          ((s.finds ub).filterMap fun e => m[e]?))

/-- The two maps of the result, as association lists. -/
def results (m : List v) (s : UF l) : List (v × v) × List (v × Result l v) :=
  let rs := m.filterMap fun a => (result m s (m.idxOf a)).map fun r => (a, r)
  (rs.map fun r => (r.1, r.2.1), rs.map fun r => r.2)

def solve [Fixable l] (fuel : ℕ) (csp : List (CL l v)) :
    Except Stop (List (v × v) × List (v × Result l v)) := do
  let (pcs, varMap) := prepareConstraints csp [] []
  let s ← pcs.foldlM (procVar fuel) (UF.init l)
  let s ← pcs.foldlM (procLit fuel) s
  return results varMap s

end Solve

end Jhc.UnionSolve

import Mathlib
import Jhc.E.Syntax

/-!
# The supply of names (Name/Id.hs:180-207, 249-258; Util/NameMonad.hs:60-104)

No term holds an ethereal identifier (Name/Id.hs:60-76), and `Id` has none. Machine integers are
64 bits wide; a list of candidates is not followed beyond them.
-/

namespace Jhc.E

def hashInt (x : BitVec 64) : BitVec 64 :=
  let a := (x ^^^ 61#64) ^^^ (x >>> 16)
  let a := a + (a <<< 3)
  let a := a ^^^ (a >>> 4)
  let a := a * 0x27d4eb2d#64
  a ^^^ (a >>> 15)

def mixInt (x y : BitVec 64) : BitVec 64 := hashInt x - hashInt y

/-- The `k`-th of the candidates: `Id x : Id (x + 2) : …` from an even `x`. -/
def candidateIds (seed : BitVec 64) (k : ℕ) : Id :=
  .anonymous ((2#64 + (hashInt seed &&& 0x0FFFFFFE#64)).toNat / 2 + k)

theorem candidateIds_injective (seed : BitVec 64) : Function.Injective (candidateIds seed) := by
  intro j k h
  injection h with hjk
  omega

theorem exists_candidate (seed : BitVec 64) (avoid : Finset Id) :
    ∃ k, candidateIds seed k ∉ avoid := by
  by_contra h
  push Not at h
  have hsub : Set.range (candidateIds seed) ⊆ ↑avoid := by
    intro x hx
    obtain ⟨k, rfl⟩ := hx
    exact h k
  exact Set.infinite_range_of_injective (candidateIds_injective seed)
    (avoid.finite_toSet.subset hsub)

/-- The first candidate outside a set. -/
def newId (seed : BitVec 64) (avoid : Finset Id) : Id :=
  candidateIds seed (Nat.find (exists_candidate seed avoid))

theorem newId_notMem (seed : BitVec 64) (avoid : Finset Id) : newId seed avoid ∉ avoid :=
  Nat.find_spec (exists_candidate seed avoid)

theorem newId_ne_emptyId (seed : BitVec 64) (avoid : Finset Id) : newId seed avoid ≠ .emptyId := by
  intro h
  cases h

/-! ### Used and bound names (Name/Id.hs:187-207) -/

/-- The used names are always a superset of the bound ones (Util/NameMonad.hs:8). -/
structure Names where
  used : Finset Id
  bound : Finset Id
  bound_used : bound ⊆ used

namespace Names

def addNames (ns : List Id) (st : Names) : Names where
  used := ns.toFinset ∪ st.used
  bound := st.bound
  bound_used := st.bound_used.trans Finset.subset_union_right

def bind (x : Id) (st : Names) : Names where
  used := insert x st.used
  bound := insert x st.bound
  bound_used := Finset.insert_subset_insert x st.bound_used

def seed (st : Names) : BitVec 64 := mixInt (BitVec.ofNat 64 st.used.card) (BitVec.ofNat 64 st.bound.card)

end Names

abbrev IdNameT := StateM Names

def addNames (ns : List Id) : IdNameT Unit := modify (Names.addNames ns)

def newName : IdNameT Id := do
  let st ← get
  let nn := newId st.seed st.used
  set (st.bind nn)
  return nn

def uniqueName (n : Id) : IdNameT Id := do
  let st ← get
  if n ∈ st.bound then newName
  else
    set (st.bind n)
    return n

/-- What a step that names one binder does. -/
structure Names.Chosen (st st' : Names) (x : Id) : Prop where
  fresh : x ∉ st.bound
  bound : st'.bound = insert x st.bound

theorem newName_chosen (st : Names) : st.Chosen (newName st).2 (newName st).1 :=
  ⟨fun h => newId_notMem st.seed st.used (st.bound_used h), rfl⟩

theorem newName_ne_emptyId (st : Names) : (newName st).1 ≠ .emptyId :=
  newId_ne_emptyId st.seed st.used

theorem uniqueName_of_mem {n : Id} {st : Names} (h : n ∈ st.bound) :
    uniqueName n st = newName st := by
  change (if n ∈ st.bound then newName else _) st = _
  rw [if_pos h]

theorem uniqueName_of_notMem {n : Id} {st : Names} (h : n ∉ st.bound) :
    uniqueName n st = (n, st.bind n) := by
  change (if n ∈ st.bound then newName else _) st = _
  rw [if_neg h]
  rfl

theorem uniqueName_chosen (n : Id) (st : Names) :
    st.Chosen (uniqueName n st).2 (uniqueName n st).1 := by
  by_cases h : n ∈ st.bound
  · rw [uniqueName_of_mem h]
    exact newName_chosen st
  · rw [uniqueName_of_notMem h]
    exact ⟨h, rfl⟩

/-- A name is kept exactly when it is not bound yet. -/
theorem uniqueName_eq_iff (n : Id) (st : Names) : (uniqueName n st).1 = n ↔ n ∉ st.bound := by
  constructor
  · intro h hn
    have hc := (uniqueName_chosen n st).fresh
    rw [h] at hc
    exact hc hn
  · intro h
    rw [uniqueName_of_notMem h]

end Jhc.E

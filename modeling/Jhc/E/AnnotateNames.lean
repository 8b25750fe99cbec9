import Jhc.E.Annotate

/-!
# What annotation is for, and the map it works with (E/Annotate.hs:74-156)
-/

namespace Jhc.E
open Jhc.Nameless

/-! ### Terms without shadowing -/

/-- The identifiers in scope, with the variables they stand for where they do. -/
def InScope := Id → Option (Option TVr)

namespace InScope

def bind (Δ : InScope) (t : TVr) : InScope := fun y => if y = t.tvrIdent then some (some t) else Δ y

def binds (Δ : InScope) (ts : List TVr) : InScope := ts.foldr (fun t Δ => Δ.bind t) Δ

end InScope

/-- New names that differ from each other. -/
def Distinct (ts : List TVr) : Prop := ((idents ts).filter (· ≠ .emptyId)).Nodup

mutual

/-- No binder is in scope already, and every occurrence is the variable of its binder. -/
def WellNamed (Δ : InScope) : E → Prop
  | .eAp f a => WellNamed Δ f ∧ WellNamed Δ a
  | .eLam t e => WellNamedVar Δ t ∧ WellNamed (Δ.bind t) e
  | .ePi t e => WellNamedVar Δ t ∧ WellNamed (Δ.bind t) e
  | .eVar t => t.tvrIdent = .emptyId ∨ Δ t.tvrIdent = some (some t)
  | .unknown => True
  | .eSort _ => True
  | .eLitInt _ t => WellNamed Δ t
  | .eLit _ es t => WellNamedArgs Δ es ∧ WellNamed Δ t
  | .eLetRec ds e => (WellNamedBinders Δ ds ∧ Distinct (ds.map Def.var)) ∧
      WellNamedRhss (Δ.binds (ds.map Def.var)) ds ∧ WellNamed (Δ.binds (ds.map Def.var)) e
  | .ePrim _ es t => WellNamedArgs Δ es ∧ WellNamed Δ t
  | .eError _ t => WellNamed Δ t
  | .eCase e t b as d => WellNamed Δ e ∧ WellNamed Δ t ∧ WellNamedVar Δ b ∧
      WellNamedAlts (Δ.bind b) as ∧ WellNamedDefault (Δ.bind b) d

def WellNamedVar (Δ : InScope) : TVr → Prop
  | .mk x t => (x = .emptyId ∨ Δ x = none) ∧ WellNamed Δ t

def WellNamedBinder (Δ : InScope) : Def → Prop
  | .mk t _ => WellNamedVar Δ t

def WellNamedBinders (Δ : InScope) : List Def → Prop
  | [] => True
  | d :: ds => WellNamedBinder Δ d ∧ WellNamedBinders Δ ds

def WellNamedRhs (Δ : InScope) : Def → Prop
  | .mk _ e => WellNamed Δ e

def WellNamedRhss (Δ : InScope) : List Def → Prop
  | [] => True
  | d :: ds => WellNamedRhs Δ d ∧ WellNamedRhss Δ ds

def WellNamedArgs (Δ : InScope) : List E → Prop
  | [] => True
  | e :: es => WellNamed Δ e ∧ WellNamedArgs Δ es

def WellNamedPattern (Δ : InScope) : List TVr → Prop
  | [] => True
  | t :: ts => WellNamedVar Δ t ∧ WellNamedPattern (Δ.bind t) ts

def WellNamedAlt (Δ : InScope) : Alt → Prop
  | .litInt _ t e => WellNamed Δ t ∧ WellNamed Δ e
  | .litCons _ xs t e => WellNamed Δ t ∧ WellNamedPattern Δ xs ∧ WellNamed (Δ.binds xs) e

def WellNamedAlts (Δ : InScope) : List Alt → Prop
  | [] => True
  | a :: as => WellNamedAlt Δ a ∧ WellNamedAlts Δ as

def WellNamedDefault (Δ : InScope) : Option E → Prop
  | none => True
  | some e => WellNamed Δ e

end

/-! ### Letrec groups

`mapMntvr` puts each binder of a group in scope for the types of the later ones. -/

mutual

/-- In every letrec of the term, no type of a binder mentions an earlier binder of the group. -/
def TypesApart : E → Prop
  | .eAp f a => TypesApart f ∧ TypesApart a
  | .eLam t e => TypesApartVar t ∧ TypesApart e
  | .ePi t e => TypesApartVar t ∧ TypesApart e
  | .eVar _ => True
  | .unknown => True
  | .eSort _ => True
  | .eLitInt _ t => TypesApart t
  | .eLit _ es t => TypesApartArgs es ∧ TypesApart t
  | .eLetRec ds e => TypesApartBinders ds ∧ TypesApartRhss ds ∧ TypesApart e
  | .ePrim _ es t => TypesApartArgs es ∧ TypesApart t
  | .eError _ t => TypesApart t
  | .eCase e t b as d => TypesApart e ∧ TypesApart t ∧ TypesApartVar b ∧ TypesApartAlts as ∧
      TypesApartDefault d

def TypesApartVar : TVr → Prop
  | .mk _ t => TypesApart t

def TypesApartBinder : Def → Prop
  | .mk t _ => TypesApartVar t

def TypesApartBinders : List Def → Prop
  | [] => True
  | d :: ds => TypesApartBinder d ∧
      (d.var.tvrIdent ∈ freeBinders ds → d.var.tvrIdent = .emptyId) ∧ TypesApartBinders ds

def TypesApartRhs : Def → Prop
  | .mk _ e => TypesApart e

def TypesApartRhss : List Def → Prop
  | [] => True
  | d :: ds => TypesApartRhs d ∧ TypesApartRhss ds

def TypesApartArgs : List E → Prop
  | [] => True
  | e :: es => TypesApart e ∧ TypesApartArgs es

def TypesApartVars : List TVr → Prop
  | [] => True
  | t :: ts => TypesApartVar t ∧ TypesApartVars ts

def TypesApartAlt : Alt → Prop
  | .litInt _ t e => TypesApart t ∧ TypesApart e
  | .litCons _ xs t e => TypesApart t ∧ TypesApartVars xs ∧ TypesApart e

def TypesApartAlts : List Alt → Prop
  | [] => True
  | a :: as => TypesApartAlt a ∧ TypesApartAlts as

def TypesApartDefault : Option E → Prop
  | none => True
  | some e => TypesApart e

end

namespace Annotate

/-! ### One binder -/

theorem mlookup_of_mem {m : VarMap} {y : Id} (h : y ∈ m.keys) : m.mlookup y = some (m.val y) :=
  if_pos h

theorem mem_of_mlookup {m : VarMap} {y : Id} {v : Option E} (h : m.mlookup y = some v) :
    y ∈ m.keys := by
  by_contra hn
  rw [VarMap.mlookup,if_neg hn] at h
  cases h

theorem mlookup_minsert_self (x : Id) (v : Option E) (m : VarMap) :
    (m.minsert x v).mlookup x = some v := by
  rw [mlookup_of_mem (Finset.mem_insert_self x m.keys)]
  change some (Function.update m.val x v x) = some v
  rw [Function.update_self]

theorem mlookup_minsert_of_ne {x y : Id} (h : y ≠ x) (v : Option E) (m : VarMap) :
    (m.minsert x v).mlookup y = m.mlookup y := by
  unfold VarMap.mlookup VarMap.minsert
  simp only [Finset.mem_insert,h,false_or,Function.update_of_ne h]

/-- What becomes of the map under a binder `n` that is renamed to `t`. -/
def step (n : Id) (t : TVr) : VarMap → VarMap :=
  if n = .emptyId then id
  else if n = t.tvrIdent then VarMap.minsert n (some (.eVar t))
  else VarMap.minsert n (some (.eVar t)) ∘ VarMap.minsert t.tvrIdent none

attribute [local grind =] step

theorem step_emptyId (t : TVr) (m : VarMap) : step .emptyId t m = m := rfl

theorem mlookup_step_self {n : Id} (hn : n ≠ .emptyId) (t : TVr) (m : VarMap) :
    (step n t m).mlookup n = some (some (.eVar t)) := by
  unfold step
  rw [if_neg hn]
  split
  · exact mlookup_minsert_self n _ m
  · exact mlookup_minsert_self n _ _

theorem mlookup_step_of_ne {n y : Id} {t : TVr} (h : y ≠ n) (h' : y ≠ t.tvrIdent) (m : VarMap) :
    (step n t m).mlookup y = m.mlookup y := by
  unfold step
  split
  · rfl
  · split
    · exact mlookup_minsert_of_ne h _ m
    · exact (mlookup_minsert_of_ne h _ _).trans (mlookup_minsert_of_ne h' _ m)

theorem keys_step {n : Id} (t : TVr) (m : VarMap) {y : Id} (h : y ∈ m.keys) :
    y ∈ (step n t m).keys := by
  unfold step
  split
  · exact h
  · split
    · exact Finset.mem_insert_of_mem h
    · exact Finset.mem_insert_of_mem (Finset.mem_insert_of_mem h)

theorem keys_step_self {n : Id} (hn : n ≠ .emptyId) (t : TVr) (m : VarMap) :
    t.tvrIdent ∈ (step n t m).keys := by
  unfold step
  rw [if_neg hn]
  split
  · next h =>
    rw [← h]
    exact Finset.mem_insert_self n m.keys
  · exact Finset.mem_insert_of_mem (Finset.mem_insert_self _ m.keys)

/-- The new name `n'` of a binder `n`; `vs` are the binders of its group. -/
def Chosen (m : VarMap) (vs : List Id) (n n' : Id) : Prop :=
  n = .emptyId ∧ n' = .emptyId ∨
    n ≠ .emptyId ∧ n' ≠ .emptyId ∧ n' ∉ m.keys ∧ (n' = n ∨ n' ∉ vs)

def pick (vs : List Id) (n : Id) (m : VarMap) : Id :=
  if n = .emptyId then .emptyId else mnv vs n m

theorem pick_chosen (vs : List Id) (n : Id) (m : VarMap) : Chosen m vs n (pick vs n m) := by
  unfold Chosen pick
  by_cases hn : n = .emptyId
  · rw [if_pos hn]
    exact Or.inl ⟨hn, rfl⟩
  · right
    rw [if_neg hn]
    unfold mnv
    split
    · have hf := newId_notMem (BitVec.ofNat 64 m.size) (m.keys ∪ vs.toFinset)
      rw [Finset.mem_union,not_or,List.mem_toFinset] at hf
      exact ⟨hn, newId_ne_emptyId _ _, hf.1, Or.inr hf.2⟩
    · next h => exact ⟨hn, hn, fun hk => h (Or.inr hk), Or.inl rfl⟩

theorem ntvr_run (vs : List Id) (m : VarMap) (n : Id) (t : E) :
    ntvr vs m (.mk n t) =
      (.mk (pick vs n m) (f m t), step n (.mk (pick vs n m) (f m t))) := by
  unfold ntvr pick step
  by_cases hn : n = .emptyId
  · rw [if_pos hn,if_pos hn,if_pos hn,hn]
  · rw [if_neg hn,if_neg hn,if_neg hn]
    by_cases hm : n = mnv vs n m
    · rw [if_pos hm]
      exact congrArg _ (if_pos hm).symm
    · rw [if_neg hm]
      exact congrArg _ (if_neg hm).symm

theorem ntvr_step (vs : List Id) (m : VarMap) (t : TVr) :
    (ntvr vs m t).2 = step t.tvrIdent (ntvr vs m t).1 := by
  cases t with
  | mk n t =>
    rw [ntvr_run]
    rfl

theorem ntvr_chosen (vs : List Id) (m : VarMap) (t : TVr) :
    Chosen m vs t.tvrIdent (ntvr vs m t).1.tvrIdent := by
  cases t with
  | mk n t =>
    rw [ntvr_run]
    exact pick_chosen vs n m

theorem lp_of_ne {m : VarMap} {t : TVr} (h : t.tvrIdent ≠ .emptyId) : lp m t = ntvr [] m t := by
  cases t with
  | mk n t =>
    have hn : n ≠ .emptyId := h
    unfold lp ntvr
    rw [if_neg hn,if_neg hn]

end Annotate

end Jhc.E

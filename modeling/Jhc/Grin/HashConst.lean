import Mathlib
import Jhc.Grin.Syntax
import Jhc.Lib.PostOrder

/-!
# Constant pooling (src/Grin/HashConst.hs)

Constant nodes are numbered, each behind the nodes that it refers to; a node that is met again
keeps its number. Small constants are kept inside of the node.
-/

namespace Jhc.Grin.HashConst

open Val

structure HcNode where
  tag : Atom
  args : List (Val ⊕ ℕ)
  deriving DecidableEq

/-- The constants that a node refers to. -/
def HcNode.refs (n : HcNode) : List ℕ := n.args.filterMap Sum.getRight?

/-- The next number, and the numbers of the nodes. -/
structure HcHash where
  next : ℕ
  table : List (HcNode × ℕ)

def emptyHcHash : HcHash := ⟨1, []⟩

/-- The end of `f`: the number of a node, and whether it had one. -/
def record (n : HcNode) (h : HcHash) : (Bool × ℕ) × HcHash :=
  match h.table.find? fun e => e.1 = n with
  | some e => ((true, e.2), h)
  | none => ((false, h.next), ⟨h.next + 1, (n, h.next) :: h.table⟩)

variable (cpr : Finset Atom)

/-- A node that is kept inside of another one. -/
def inside (a : Atom) (vs : List Val) : Bool := vs.isEmpty || a ∈ cpr

mutual

/-- `newConst`; none is its error. -/
def newConst : Val → HcHash → Option ((Bool × ℕ) × HcHash)
  | nodeC t vs, h => (newArgs vs h).map fun r => record ⟨t, r.1⟩ r.2
  | _, _ => none

/-- `mapM g`. -/
def newArgs : List Val → HcHash → Option (List (Val ⊕ ℕ) × HcHash)
  | [], h => some ([], h)
  | v :: vs, h => do
    let a ← newArg v h
    let as ← newArgs vs a.2
    return (a.1 :: as.1, as.2)

/-- `g`. -/
def newArg : Val → HcHash → Option ((Val ⊕ ℕ) × HcHash)
  | lit n ty, h => some (.inl (lit n ty), h)
  | valPrim p vs ty, h => some (.inl (valPrim p vs ty), h)
  | var v ty, h => if v < 0 then some (.inl (var v ty), h) else none
  | const (nodeC a vs), h =>
    if inside cpr a vs then some (.inl (const (nodeC a vs)), h)
    else (newArgs vs h).map fun r => (.inr (record ⟨a, r.1⟩ r.2).1.2, (record ⟨a, r.1⟩ r.2).2)
  | nodeC a vs, h =>
    if inside cpr a vs then some (.inl (nodeC a vs), h)
    else (newArgs vs h).map fun r => (.inr (record ⟨a, r.1⟩ r.2).1.2, (record ⟨a, r.1⟩ r.2).2)
  | _, _ => none

end

/-- Calls one after the other. -/
def newConsts : List Val → HcHash → Option (List ℕ × HcHash)
  | [], h => some ([], h)
  | v :: vs, h => do
    let i ← newConst cpr v h
    let is ← newConsts vs i.2
    return (i.1.2 :: is.1, is.2)

/-- The nodes of the graph that a node has edges to. -/
def edges (table : List (HcNode × ℕ)) (x : HcNode × ℕ) : List (HcNode × ℕ) :=
  if x ∈ table then (x.1.refs.dedup.mergeSort).filterMap fun k => table.find? fun e => e.2 = k else []

/-- `toList`, from the order of the map on the nodes. The reverse of a topological sort is the postorder. -/
def toList (le : HcNode × ℕ → HcNode × ℕ → Bool) (h : HcHash) : List (HcNode × ℕ) :=
  Lib.postOrd (edges h.table) h.next (h.table.mergeSort le)

/-! ### What a number stands for -/

/-- The constant with this number, where numbers are nested at most so deep. -/
def decode (table : List (HcNode × ℕ)) : ℕ → ℕ → Option Val
  | 0, _ => none
  | n + 1, i => (table.find? fun e => e.2 = i).bind fun e =>
    (e.1.args.mapM (Sum.elim some (decode table n))).map (nodeC e.1.tag)

mutual

/-- The constant without the `const` of the nodes that get numbers. -/
def erase : Val → Val
  | nodeC t vs => nodeC t (eraseArgs vs)
  | v => v

def eraseArgs : List Val → List Val
  | [] => []
  | v :: vs => eraseArg v :: eraseArgs vs

def eraseArg : Val → Val
  | const (nodeC a vs) => if inside cpr a vs then const (nodeC a vs) else nodeC a (eraseArgs vs)
  | nodeC a vs => if inside cpr a vs then nodeC a vs else nodeC a (eraseArgs vs)
  | v => v

end

mutual

/-- The constants that `newConst` takes. -/
def Poolable : Val → Prop
  | nodeC _ vs => PoolableArgs vs
  | _ => False

def PoolableArgs : List Val → Prop
  | [] => True
  | v :: vs => PoolableArg v ∧ PoolableArgs vs

def PoolableArg : Val → Prop
  | lit _ _ => True
  | valPrim _ _ _ => True
  | var v _ => v < 0
  | const (nodeC a vs) => inside cpr a vs = true ∨ PoolableArgs vs
  | nodeC a vs => inside cpr a vs = true ∨ PoolableArgs vs
  | _ => False

end

/-! ### The table -/

variable {cpr}

def isInside (cpr : Finset Atom) : Val → Bool
  | lit _ _ => true
  | valPrim _ _ _ => true
  | var _ _ => true
  | const (nodeC a vs) => inside cpr a vs
  | nodeC a vs => inside cpr a vs
  | _ => false

/-- An argument of a node: a small constant, or the number of a node that is not small. -/
def GoodArg (cpr : Finset Atom) (table : List (HcNode × ℕ)) (bound : ℕ) : Val ⊕ ℕ → Prop
  | .inl v => isInside cpr v = true
  | .inr j => j < bound ∧ ∃ e ∈ table, e.2 = j ∧ e.1.args ≠ [] ∧ e.1.tag ∉ cpr

structure Valid (cpr : Finset Atom) (h : HcHash) : Prop where
  lt : ∀ e ∈ h.table, e.2 < h.next
  args : ∀ e ∈ h.table, ∀ a ∈ e.1.args, GoodArg cpr h.table e.2 a
  keys : (h.table.map Prod.fst).Nodup
  nums : (h.table.map Prod.snd).Nodup

/-- Nothing is forgotten. -/
structure Grows (h h' : HcHash) : Prop where
  table : h.table ⊆ h'.table
  next : h.next ≤ h'.next

theorem Grows.refl (h : HcHash) : Grows h h := ⟨List.Subset.refl _, le_rfl⟩

theorem Grows.trans {h₁ h₂ h₃ : HcHash} (h : Grows h₁ h₂) (h' : Grows h₂ h₃) : Grows h₁ h₃ :=
  ⟨List.Subset.trans h.table h'.table, h.next.trans h'.next⟩

theorem GoodArg.mono {table table' : List (HcNode × ℕ)} {b b' : ℕ} (htable : table ⊆ table') (hb : b ≤ b') {a : Val ⊕ ℕ}
    (ha : GoodArg cpr table b a) : GoodArg cpr table' b' a := by
  cases a with
  | inl v => exact ha
  | inr j =>
    obtain ⟨hj, e, he, hrest⟩ := ha
    exact ⟨hj.trans_le hb, e, htable he, hrest⟩

theorem Valid.find_num {h : HcHash} (hv : Valid cpr h) {e : HcNode × ℕ} (he : e ∈ h.table) : h.table.find? (fun x => x.2 = e.2) = some e := by
  have hsome : (h.table.find? fun x => x.2 = e.2).isSome := List.find?_isSome.2 ⟨e, he, by simp⟩
  obtain ⟨x, hx⟩ := Option.isSome_iff_exists.1 hsome
  have hnum : x.2 = e.2 := by simpa using List.find?_some hx
  rw [hx, List.inj_on_of_nodup_map hv.nums (List.mem_of_find?_eq_some hx) he hnum]

theorem valid_empty : Valid cpr emptyHcHash :=
  ⟨fun _ he => absurd he List.not_mem_nil, fun _ he => absurd he List.not_mem_nil, List.nodup_nil, List.nodup_nil⟩

theorem record_spec {h : HcHash} (hv : Valid cpr h) (n : HcNode) (hn : ∀ a ∈ n.args, GoodArg cpr h.table h.next a) :
    Valid cpr (record n h).2 ∧ Grows h (record n h).2 ∧ (n, (record n h).1.2) ∈ (record n h).2.table := by
  rw [record]
  split
  · rename_i e he
    have hmem := List.mem_of_find?_eq_some he
    have hkey : e.1 = n := by simpa using List.find?_some he
    exact ⟨hv, Grows.refl h, hkey ▸ hmem⟩
  · rename_i hnone
    have hnew : n ∉ h.table.map Prod.fst := by
      intro hmem
      obtain ⟨e, he, hkey⟩ := List.mem_map.1 hmem
      exact absurd (decide_eq_true hkey) (List.find?_eq_none.1 hnone e he)
    have hnum : h.next ∉ h.table.map Prod.snd := by
      intro hmem
      obtain ⟨e, he, hnext⟩ := List.mem_map.1 hmem
      have hlt := hv.lt e he
      omega
    refine ⟨⟨?_, ?_, List.nodup_cons.2 ⟨hnew, hv.keys⟩, List.nodup_cons.2 ⟨hnum, hv.nums⟩⟩,
      ⟨List.subset_cons_self _ _, Nat.le_succ _⟩, List.mem_cons_self⟩
    · intro e he
      rcases List.mem_cons.1 he with rfl | he
      · exact Nat.lt_succ_self _
      · exact (hv.lt e he).trans (Nat.lt_succ_self _)
    · intro e he a ha
      rcases List.mem_cons.1 he with rfl | he
      · exact (hn a ha).mono (List.subset_cons_self _ _) le_rfl
      · exact (hv.args e he a ha).mono (List.subset_cons_self _ _) le_rfl

/-! ### Decoding -/

theorem decode_node {h : HcHash} (hv : Valid cpr h) {n : HcNode} {i : ℕ} (he : (n, i) ∈ h.table) (m : ℕ) :
    decode h.table (m + 1) i = (n.args.mapM (Sum.elim some (decode h.table m))).map (nodeC n.tag) := by
  have hfind := hv.find_num he
  rw [decode, hfind, Option.bind_some]

theorem mapM_congr {α β : Type} {f g : α → Option β} {as : List α} (hfg : ∀ a ∈ as, f a = g a) : as.mapM f = as.mapM g := by
  induction as with
  | nil => rfl
  | cons a as ih =>
    rw [List.mapM_cons, List.mapM_cons, hfg a List.mem_cons_self, ih fun a ha => hfg a (List.mem_cons_of_mem _ ha)]

theorem decode_grows {h h' : HcHash} (hv : Valid cpr h) (hv' : Valid cpr h') (hgrows : Grows h h') (m : ℕ) {n : HcNode} {i : ℕ}
    (he : (n, i) ∈ h.table) : decode h'.table m i = decode h.table m i := by
  induction m generalizing n i with
  | zero => rfl
  | succ m ih =>
    rw [decode_node hv he, decode_node hv' (hgrows.table he)]
    refine congrArg (Option.map _) (mapM_congr fun a ha => ?_)
    cases a with
    | inl v => rfl
    | inr j =>
      obtain ⟨-, e, he', rfl, -⟩ := hv.args _ he _ ha
      exact ih he'

/-- The values of the arguments of a node. -/
def ArgsAre (table : List (HcNode × ℕ)) (as : List (Val ⊕ ℕ)) (vs : List Val) : Prop :=
  ∀ m, (∀ j, Sum.inr j ∈ as → j < m) → as.mapM (Sum.elim some (decode table m)) = some vs

theorem ArgsAre.grows {h h' : HcHash} (hv : Valid cpr h) (hv' : Valid cpr h') (hgrows : Grows h h') {as : List (Val ⊕ ℕ)} {vs : List Val}
    (has : ∀ a ∈ as, GoodArg cpr h.table h.next a) (hvs : ArgsAre h.table as vs) : ArgsAre h'.table as vs := by
  intro m hm
  rw [← hvs m hm]
  refine mapM_congr fun a ha => ?_
  cases a with
  | inl v => rfl
  | inr j =>
    obtain ⟨-, e, he, rfl, -⟩ := has _ ha
    exact decode_grows hv hv' hgrows m he

/-- A node that is recorded decodes to its arguments' values. -/
theorem record_decode {h : HcHash} (hv : Valid cpr h) (t : Atom) {as : List (Val ⊕ ℕ)} {vs : List Val}
    (has : ∀ a ∈ as, GoodArg cpr h.table h.next a) (hvs : ArgsAre h.table as vs) (m : ℕ) (hm : (record ⟨t, as⟩ h).1.2 < m) :
    decode (record ⟨t, as⟩ h).2.table m (record ⟨t, as⟩ h).1.2 = some (nodeC t vs) := by
  obtain ⟨hv', hgrows, hmem⟩ := record_spec hv ⟨t, as⟩ has
  cases m with
  | zero => omega
  | succ m =>
    rw [decode_node hv' hmem, hvs.grows hv hv' hgrows has m fun j hj => ?_]
    · rfl
    · have hlt := (hv'.args _ hmem _ hj).1
      omega

/-! ### Every call -/

/-- What a call leaves behind for the arguments of a node. -/
structure ArgsDone (cpr : Finset Atom) (h : HcHash) (as : List (Val ⊕ ℕ)) (vs : List Val) (h' : HcHash) : Prop where
  valid : Valid cpr h'
  grows : Grows h h'
  good : ∀ a ∈ as, GoodArg cpr h'.table h'.next a
  values : ArgsAre h'.table as vs

theorem ArgsDone.nil {h : HcHash} (hv : Valid cpr h) : ArgsDone cpr h [] [] h :=
  ⟨hv, Grows.refl h, fun _ ha => absurd ha List.not_mem_nil, fun _ _ => rfl⟩

theorem ArgsDone.inline {h : HcHash} (hv : Valid cpr h) {v : Val} (hin : isInside cpr v = true) : ArgsDone cpr h [.inl v] [v] h := by
  refine ⟨hv, Grows.refl h, fun a ha => ?_, fun m _ => rfl⟩
  rw [List.mem_singleton.1 ha]
  exact hin

theorem ArgsDone.append {h₁ h₂ h₃ : HcHash} {as bs : List (Val ⊕ ℕ)} {vs ws : List Val} (ha : ArgsDone cpr h₁ as vs h₂)
    (hb : ArgsDone cpr h₂ bs ws h₃) : ArgsDone cpr h₁ (as ++ bs) (vs ++ ws) h₃ := by
  refine ⟨hb.valid, ha.grows.trans hb.grows, ?_, ?_⟩
  · intro a hmem
    rcases List.mem_append.1 hmem with hmem | hmem
    · exact (ha.good a hmem).mono hb.grows.table hb.grows.next
    · exact hb.good a hmem
  · intro m hm
    have hfirst := (ha.values.grows ha.valid hb.valid hb.grows ha.good) m fun j hj => hm j (List.mem_append_left _ hj)
    have hsecond := hb.values m fun j hj => hm j (List.mem_append_right _ hj)
    rw [List.mapM_append, hfirst, hsecond]
    rfl

theorem ArgsDone.record {h₁ h₂ : HcHash} {as : List (Val ⊕ ℕ)} {vs : List Val} (t : Atom) (ha : ArgsDone cpr h₁ as vs h₂)
    (hne : as ≠ []) (ht : t ∉ cpr) :
    ArgsDone cpr h₁ [.inr (record ⟨t, as⟩ h₂).1.2] [nodeC t vs] (record ⟨t, as⟩ h₂).2 := by
  obtain ⟨hv', hgrows, hmem⟩ := record_spec ha.valid ⟨t, as⟩ ha.good
  refine ⟨hv', ha.grows.trans hgrows, ?_, ?_⟩
  · intro a haa
    rw [List.mem_singleton.1 haa]
    exact ⟨hv'.lt _ hmem, _, hmem, rfl, hne, ht⟩
  · intro m hm
    have hdec := record_decode ha.valid t ha.good ha.values m (hm _ (List.mem_singleton.2 rfl))
    simp [List.mapM_cons, hdec]

theorem not_inside {a : Atom} {vs : List Val} (h : ¬ inside cpr a vs = true) : vs ≠ [] ∧ a ∉ cpr := by
  simpa [inside] using h

mutual

theorem newArgs_done : ∀ (vs : List Val) (h : HcHash), PoolableArgs cpr vs → Valid cpr h →
    ∃ as h', newArgs cpr vs h = some (as, h') ∧ ArgsDone cpr h as (eraseArgs cpr vs) h' ∧ as.length = vs.length
  | [], h => fun _ hv => ⟨[], h, rfl, .nil hv, rfl⟩
  | v :: vs, h => by
    intro hp hv
    obtain ⟨a, h₁, ha, hdone₁⟩ := newArg_done v h hp.1 hv
    obtain ⟨as, h₂, has, hdone₂, hlen⟩ := newArgs_done vs h₁ hp.2 hdone₁.valid
    exact ⟨a :: as, h₂, by simp [newArgs, ha, has], hdone₁.append hdone₂, congrArg (· + 1) hlen⟩

theorem newArg_done : ∀ (v : Val) (h : HcHash), PoolableArg cpr v → Valid cpr h →
    ∃ a h', newArg cpr v h = some (a, h') ∧ ArgsDone cpr h [a] [eraseArg cpr v] h'
  | lit n ty, h => fun _ hv => ⟨_, h, rfl, .inline hv rfl⟩
  | valPrim p vs ty, h => fun _ hv => ⟨_, h, rfl, .inline hv rfl⟩
  | var v ty, h => fun hp hv => ⟨_, h, if_pos hp, .inline hv rfl⟩
  | const (nodeC a vs), h => by
    intro hp hv
    rw [newArg, eraseArg]
    split_ifs with hin
    · exact ⟨_, h, rfl, .inline hv hin⟩
    · obtain ⟨as, h₁, has, hdone, hlen⟩ := newArgs_done vs h (hp.resolve_left hin) hv
      obtain ⟨hne, ha⟩ := not_inside hin
      have hne' : as ≠ [] := fun hnil => hne (List.length_eq_zero_iff.1 (by rw [← hlen, hnil]; rfl))
      exact ⟨_, _, by rw [has, Option.map_some], hdone.record a hne' ha⟩
  | nodeC a vs, h => by
    intro hp hv
    rw [newArg, eraseArg]
    split_ifs with hin
    · exact ⟨_, h, rfl, .inline hv hin⟩
    · obtain ⟨as, h₁, has, hdone, hlen⟩ := newArgs_done vs h (hp.resolve_left hin) hv
      obtain ⟨hne, ha⟩ := not_inside hin
      have hne' : as ≠ [] := fun hnil => hne (List.length_eq_zero_iff.1 (by rw [← hlen, hnil]; rfl))
      exact ⟨_, _, by rw [has, Option.map_some], hdone.record a hne' ha⟩
  | const (const _), _ => False.elim
  | const (lit _ _), _ => False.elim
  | const (var _ _), _ => False.elim
  | const unit, _ => False.elim
  | const (valPrim _ _ _), _ => False.elim
  | const (index _ _), _ => False.elim
  | const (item _ _), _ => False.elim
  | const (valUnknown _), _ => False.elim
  | unit, _ => False.elim
  | index _ _, _ => False.elim
  | item _ _, _ => False.elim
  | valUnknown _, _ => False.elim

end

/-- The constant that a number stands for. -/
def Decodes (h : HcHash) (i : ℕ) (v : Val) : Prop := (∃ n, (n, i) ∈ h.table) ∧ ∀ m, i < m → decode h.table m i = some v

theorem Decodes.grows {h h' : HcHash} (hv : Valid cpr h) (hv' : Valid cpr h') (hgrows : Grows h h') {i : ℕ} {v : Val} (hd : Decodes h i v) :
    Decodes h' i v := by
  obtain ⟨⟨n, hn⟩, hdec⟩ := hd
  exact ⟨⟨n, hgrows.table hn⟩, fun m hm => (decode_grows hv hv' hgrows m hn).trans (hdec m hm)⟩

theorem newConst_done {v : Val} {h : HcHash} (hp : Poolable cpr v) (hv : Valid cpr h) :
    ∃ b i h', newConst cpr v h = some ((b, i), h') ∧ Valid cpr h' ∧ Grows h h' ∧ Decodes h' i (erase cpr v) := by
  cases v with
  | nodeC t vs =>
    obtain ⟨as, h₁, has, hdone, -⟩ := newArgs_done vs h hp hv
    obtain ⟨hv', hgrows, hmem⟩ := record_spec hdone.valid ⟨t, as⟩ hdone.good
    refine ⟨_, _, _, by rw [newConst, has, Option.map_some], hv', hdone.grows.trans hgrows, ⟨_, hmem⟩, ?_⟩
    exact record_decode hdone.valid t hdone.good hdone.values
  | _ => exact hp.elim

theorem newConsts_done (vs : List Val) (h : HcHash) (hp : ∀ v ∈ vs, Poolable cpr v) (hv : Valid cpr h) :
    ∃ is h', newConsts cpr vs h = some (is, h') ∧ Valid cpr h' ∧ Grows h h' ∧
      List.Forall₂ (fun v i => Decodes h' i (erase cpr v)) vs is := by
  induction vs generalizing h with
  | nil => exact ⟨[], h, rfl, hv, Grows.refl h, .nil⟩
  | cons v vs ih =>
    obtain ⟨b, i, h₁, hi, hv₁, hgrows₁, hdec⟩ := newConst_done (hp v List.mem_cons_self) hv
    obtain ⟨is, h₂, his, hv₂, hgrows₂, hall⟩ := ih h₁ (fun v hmem => hp v (List.mem_cons_of_mem _ hmem)) hv₁
    exact ⟨i :: is, h₂, by simp [newConsts, hi, his], hv₂, hgrows₁.trans hgrows₂, .cons (hdec.grows hv₁ hv₂ hgrows₂) hall⟩

/-! ### Equal constants -/

theorem mapM_inj {α β : Type} {f : α → Option β} {as bs : List α} {us : List β} (ha : as.mapM f = some us) (hb : bs.mapM f = some us)
    (hinj : ∀ a ∈ as, ∀ b ∈ bs, ∀ u, f a = some u → f b = some u → a = b) : as = bs := by
  induction as generalizing bs us with
  | nil =>
    obtain rfl := Option.some.inj ha
    cases bs with
    | nil => rfl
    | cons b bs => simp [List.mapM_cons, Option.bind_eq_some_iff] at hb
  | cons a as ih =>
    simp only [List.mapM_cons, Option.bind_eq_bind, Option.bind_eq_some_iff, Option.pure_def, Option.some.injEq] at ha
    obtain ⟨u, hu, us, hus, rfl⟩ := ha
    cases bs with
    | nil => cases hb
    | cons b bs =>
      simp only [List.mapM_cons, Option.bind_eq_bind, Option.bind_eq_some_iff, Option.pure_def, Option.some.injEq, List.cons.injEq] at hb
      obtain ⟨w, hw, ws, hws, rfl, rfl⟩ := hb
      rw [hinj a List.mem_cons_self b List.mem_cons_self w hu hw,
        ih hus hws fun a ha b hb => hinj a (List.mem_cons_of_mem _ ha) b (List.mem_cons_of_mem _ hb)]

theorem length_mapM {α β : Type} {f : α → Option β} {as : List α} {us : List β} (h : as.mapM f = some us) : us.length = as.length := by
  induction as generalizing us with
  | nil =>
    obtain rfl := Option.some.inj h
    rfl
  | cons a as ih =>
    simp only [List.mapM_cons, Option.bind_eq_bind, Option.bind_eq_some_iff, Option.pure_def, Option.some.injEq] at h
    obtain ⟨u, hu, us, hus, rfl⟩ := h
    rw [List.length_cons, ih hus, List.length_cons]

/-- What a node that has got a number for being large decodes to is not small. -/
theorem decode_not_inside {h : HcHash} (hv : Valid cpr h) {b m j : ℕ} {u : Val} (hgood : GoodArg cpr h.table b (.inr j))
    (hdec : decode h.table m j = some u) : isInside cpr u = false := by
  obtain ⟨-, e, he, rfl, hne, htag⟩ := hgood
  cases m with
  | zero => cases hdec
  | succ m =>
    rw [decode_node hv he] at hdec
    obtain ⟨us, hus, rfl⟩ := Option.map_eq_some_iff.1 hdec
    have hlen := length_mapM hus
    have hnil : us ≠ [] := by
      intro hnil
      rw [hnil] at hlen
      exact hne (List.length_eq_zero_iff.1 hlen.symm)
    simp [isInside, inside, hnil, htag]

theorem decode_inj {h : HcHash} (hv : Valid cpr h) (m : ℕ) {n n' : HcNode} {i j : ℕ} {v : Val} (hn : (n, i) ∈ h.table) (hn' : (n', j) ∈ h.table)
    (hi : decode h.table m i = some v) (hj : decode h.table m j = some v) : i = j := by
  induction m generalizing n n' i j v with
  | zero => cases hi
  | succ m ih =>
    rw [decode_node hv hn] at hi
    rw [decode_node hv hn'] at hj
    obtain ⟨us, hus, rfl⟩ := Option.map_eq_some_iff.1 hi
    obtain ⟨ws, hws, heq⟩ := Option.map_eq_some_iff.1 hj
    obtain ⟨htag, rfl⟩ := Val.nodeC.inj heq
    have hargs : n.args = n'.args := by
      refine mapM_inj hus hws ?_
      intro a ha b hb u hau hbu
      have hgooda := hv.args _ hn a ha
      have hgoodb := hv.args _ hn' b hb
      cases a with
      | inl v =>
        obtain rfl := Option.some.inj hau
        cases b with
        | inl w => exact congrArg _ (Option.some.inj hbu).symm
        | inr j =>
          have hlarge := decode_not_inside hv hgoodb hbu
          rw [show isInside cpr v = true from hgooda] at hlarge
          cases hlarge
      | inr i =>
        cases b with
        | inl w =>
          obtain rfl := Option.some.inj hbu
          have hlarge := decode_not_inside hv hgooda hau
          rw [show isInside cpr w = true from hgoodb] at hlarge
          cases hlarge
        | inr j =>
          obtain ⟨-, e, he, rfl, -⟩ := hgooda
          obtain ⟨-, e', he', rfl, -⟩ := hgoodb
          exact congrArg _ (ih he he' hau hbu)
    have hnode : n = n' := by
      cases n
      cases n'
      simp_all
    exact congrArg Prod.snd (List.inj_on_of_nodup_map hv.keys hn hn' hnode)

/-! ### The order of the constants -/

theorem mem_refs {n : HcNode} {j : ℕ} : j ∈ n.refs ↔ Sum.inr j ∈ n.args := by
  rw [HcNode.refs, List.mem_filterMap]
  constructor
  · intro hj
    obtain ⟨a, ha, hright⟩ := hj
    cases a with
    | inl v => cases hright
    | inr i =>
      obtain rfl := Option.some.inj hright
      exact ha
  · exact fun hj => ⟨_, hj, rfl⟩

theorem mem_edges {h : HcHash} (hv : Valid cpr h) {x c : HcNode × ℕ} :
    c ∈ edges h.table x ↔ x ∈ h.table ∧ c ∈ h.table ∧ c.2 ∈ x.1.refs := by
  rw [edges]
  split_ifs with hx
  · rw [List.mem_filterMap]
    constructor
    · intro hc
      obtain ⟨k, hk, hfind⟩ := hc
      have hnum : c.2 = k := by simpa using List.find?_some hfind
      rw [List.mem_mergeSort, List.mem_dedup] at hk
      exact ⟨hx, List.mem_of_find?_eq_some hfind, hnum ▸ hk⟩
    · intro hc
      obtain ⟨-, hc, hk⟩ := hc
      exact ⟨c.2, List.mem_mergeSort.2 (List.mem_dedup.2 hk), hv.find_num hc⟩
  · simp [hx]

theorem edges_lt {h : HcHash} (hv : Valid cpr h) : ∀ x, ∀ c ∈ edges h.table x, c.2 < x.2 := by
  intro x c hc
  obtain ⟨hx, -, hk⟩ := (mem_edges hv).1 hc
  exact (hv.args x hx _ (mem_refs.1 hk)).1

theorem toList_spec {h : HcHash} (hv : Valid cpr h) (le : HcNode × ℕ → HcNode × ℕ → Bool) :
    (toList le h).Perm h.table ∧ ∀ l₁ x l₂, toList le h = l₁ ++ x :: l₂ → ∀ j ∈ x.1.refs, ∃ n, (n, j) ∈ l₁ := by
  have hvisited : Lib.Visited (edges h.table) [] (h.table.mergeSort le) (toList le h) :=
    Lib.visited_postOrd (edges_lt hv) fun x hx => hv.lt x (List.mem_mergeSort.1 hx)
  have hmem : ∀ x, x ∈ toList le h ↔ x ∈ h.table := by
    intro x
    constructor
    · intro hx
      rcases hvisited.reached x hx with hnil | ⟨k, hk, hreach⟩
      · cases hnil
      · induction hreach with
        | refl => exact List.mem_mergeSort.1 hk
        | @tail y z hyz hstep ih =>
          exact ((mem_edges hv).1 hstep).2.1
    · exact fun hx => hvisited.mem x (List.mem_mergeSort.2 hx)
  refine ⟨(List.perm_ext_iff_of_nodup hvisited.nodup (List.Nodup.of_map _ hv.keys)).2 hmem, ?_⟩
  intro l₁ x l₂ hl j hj
  have hx : x ∈ h.table := (hmem x).1 (by rw [hl]; simp)
  obtain ⟨-, e, he, rfl, -⟩ := hv.args x hx _ (mem_refs.1 hj)
  exact ⟨e.1, hvisited.ordered l₁ x l₂ hl e ((mem_edges hv).2 ⟨hx, he, hj⟩)⟩

/-- Every number stands for its constant, up to the `const` around nodes with numbers; equal constants have one
number; and the constants are listed once each, behind what they refer to. -/
theorem newConsts_faithful (cpr : Finset Atom) (le : HcNode × ℕ → HcNode × ℕ → Bool) (vs : List Val) (hp : ∀ v ∈ vs, Poolable cpr v) :
    ∃ is h, newConsts cpr vs emptyHcHash = some (is, h) ∧ List.Forall₂ (fun v i => decode h.table h.next i = some (erase cpr v)) vs is ∧
      (∀ x ∈ vs.zip is, ∀ y ∈ vs.zip is, x.2 = y.2 ↔ erase cpr x.1 = erase cpr y.1) ∧
      (toList le h).Perm h.table ∧ h.table.Nodup ∧
      (∀ l₁ x l₂, toList le h = l₁ ++ x :: l₂ → ∀ j ∈ x.1.refs, ∃ n, (n, j) ∈ l₁) := by
  obtain ⟨is, h, his, hv, -, hall⟩ := newConsts_done vs emptyHcHash hp valid_empty
  obtain ⟨hperm, hordered⟩ := toList_spec hv le
  refine ⟨is, h, his, hall.imp ?_, ?_, hperm, List.Nodup.of_map _ hv.keys, hordered⟩
  · intro v i hd
    obtain ⟨⟨n, hn⟩, hdec⟩ := hd
    exact hdec h.next (hv.lt _ hn)
  · intro x hx y hy
    obtain ⟨⟨n, hn⟩, hdecx⟩ := (List.forall₂_iff_zip.1 hall).2 hx
    obtain ⟨⟨n', hn'⟩, hdecy⟩ := (List.forall₂_iff_zip.1 hall).2 hy
    have hi := hdecx h.next (hv.lt _ hn)
    have hj := hdecy h.next (hv.lt _ hn')
    constructor
    · intro heq
      rw [heq, hj] at hi
      exact (Option.some.inj hi).symm
    · intro heq
      rw [← heq] at hj
      exact decode_inj hv h.next hn hn' hi hj

/-- A node with a node in it, as a value and as a constant. -/
def nested (asConst : Bool) : Val :=
  let inner := nodeC "J" [lit 1 .tyUnknown]
  nodeC "P" [if asConst then const inner else inner]

theorem nested_pooled : ∃ is h, newConsts ∅ [nested true, nested false] emptyHcHash = some (is, h) ∧
    List.Forall₂ (fun v i => decode h.table h.next i = some (erase ∅ v)) [nested true, nested false] is ∧
    (∀ x ∈ [nested true, nested false].zip is, ∀ y ∈ [nested true, nested false].zip is, x.2 = y.2 ↔ erase ∅ x.1 = erase ∅ y.1) ∧
    (toList (fun _ _ => true) h).Perm h.table ∧ h.table.Nodup ∧
    (∀ l₁ x l₂, toList (fun _ _ => true) h = l₁ ++ x :: l₂ → ∀ j ∈ x.1.refs, ∃ n, (n, j) ∈ l₁) :=
  newConsts_faithful ∅ _ _ (by simp [nested, Poolable, PoolableArgs, PoolableArg])

/-- The two get one number, and it does not decode to the first of them. -/
theorem nested_one_number :
    (newConsts ∅ [nested true, nested false] emptyHcHash).map (fun r => (r.1, decode r.2.table r.2.next 2)) =
      some ([2, 2], some (nested false)) ∧ nested true ≠ nested false := by
  refine ⟨by decide +kernel, by decide⟩

end Jhc.Grin.HashConst

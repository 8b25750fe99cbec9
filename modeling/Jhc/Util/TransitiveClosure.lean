import Jhc.Lib.PostOrder
import Jhc.Util.LoopBreakers
import Mathlib.Data.List.ProdSigma

/-!
# Transitive closure and reduction (Util/Graph.hs:155-205)

The matrix of the vertices is changed in place. `Data.Graph` numbers the vertices from 0, so
that of its bounds the size is kept.
-/

namespace Jhc.Util
open Jhc.Lib Relation

structure AdjacencyMatrix where
  size : ℕ
  entry : ℕ → ℕ → Bool

namespace AdjacencyMatrix

/-- `range bnds`. -/
def range (a : AdjacencyMatrix) : List (ℕ × ℕ) := (List.range a.size).product (List.range a.size)

def write (a : AdjacencyMatrix) (i j : ℕ) (b : Bool) : AdjacencyMatrix :=
  { a with entry := fun v w => if v = i ∧ w = j then b else a.entry v w }

end AdjacencyMatrix

/-- A write outside of the bounds is an error of the array. The loops below stay within them. -/
def writeArray (a : AdjacencyMatrix) (i j : ℕ) (b : Bool) : Option AdjacencyMatrix :=
  if i < a.size ∧ j < a.size then some (a.write i j b) else none

def closureRound (k : ℕ) (arr : AdjacencyMatrix) : AdjacencyMatrix :=
  arr.range.foldl (fun arr ij =>
    let dij := arr.entry ij.1 ij.2
    let dik := arr.entry ij.1 k
    let dkj := arr.entry k ij.2
    arr.write ij.1 ij.2 (dij || (dik && dkj))) arr

def transitiveClosureAM (arr : AdjacencyMatrix) : AdjacencyMatrix :=
  (List.range arr.size).foldl (fun arr k => closureRound k arr) arr

def reductionRound (farr : AdjacencyMatrix) (k : ℕ) (arr : AdjacencyMatrix) : AdjacencyMatrix :=
  farr.range.foldl (fun arr ij =>
    if farr.entry k ij.1 && farr.entry ij.1 ij.2 then arr.write k ij.2 false else arr) arr

def transitiveReductionAM (arr : AdjacencyMatrix) : AdjacencyMatrix :=
  let farr := transitiveClosureAM arr
  (List.range arr.size).foldl (fun arr k => reductionRound farr k arr) farr

def toAdjacencyMatrix (g : List (List ℕ)) : Option AdjacencyMatrix :=
  (g.zipIdx.flatMap fun p => p.1.map fun u => (p.2, u)).foldlM (fun arr vu => writeArray arr vu.1 vu.2 true)
    ⟨g.length, fun _ _ => false⟩

def fromAdjacencyMatrix (arr : AdjacencyMatrix) : List (List ℕ) :=
  let rs' := arr.range.filter fun x => arr.entry x.1 x.2
  (List.range arr.size).map fun n => (rs'.filter fun x => n = x.1).map Prod.snd

def transitiveClosure {ν : Type} (g : Graph ν) : Option (Graph ν) := do
  let a ← toAdjacencyMatrix g.edges
  return ⟨fromAdjacencyMatrix (transitiveClosureAM a), g.table⟩

def transitiveReduction {ν : Type} (g : Graph ν) : Option (Graph ν) := do
  let a ← toAdjacencyMatrix g.edges
  return ⟨fromAdjacencyMatrix (transitiveReductionAM a), g.table⟩

/-! ### The matrix of a graph -/

section Matrix

variable {a m : AdjacencyMatrix} {g : List (List ℕ)} {i j k n v w : ℕ}

theorem write_entry (b : Bool) :
    (a.write i j b).entry v w = if v = i ∧ w = j then b else a.entry v w := rfl

theorem mem_range {p : ℕ × ℕ} : p ∈ a.range ↔ p.1 < a.size ∧ p.2 < a.size := by
  obtain ⟨i, j⟩ := p
  rw [AdjacencyMatrix.range, List.pair_mem_product, List.mem_range, List.mem_range]

/-- The entries that hold are within the bounds. -/
def AdjacencyMatrix.Bounded (a : AdjacencyMatrix) : Prop :=
  ∀ i j, a.entry i j = true → i < a.size ∧ j < a.size

theorem writes_some {l : List (ℕ × ℕ)} (h : ∀ p ∈ l, p.1 < a.size ∧ p.2 < a.size) :
    ∃ b : AdjacencyMatrix, l.foldlM (fun arr vu => writeArray arr vu.1 vu.2 true) a = some b ∧ b.size = a.size ∧
      ∀ v w, b.entry v w = true ↔ a.entry v w = true ∨ (v, w) ∈ l := by
  induction l generalizing a with
  | nil => exact ⟨a, rfl, rfl, fun v w => by simp⟩
  | cons p l ih =>
    obtain ⟨b, hb, hsize, hentry⟩ := ih (a := a.write p.1 p.2 true) fun q hq => h q (List.mem_cons_of_mem p hq)
    refine ⟨b, ?_, hsize, fun v w => ?_⟩
    · rw [List.foldlM_cons, writeArray, if_pos (h p List.mem_cons_self)]
      exact hb
    · rw [hentry, write_entry, List.mem_cons, Prod.ext_iff]
      by_cases hp : v = p.1 ∧ w = p.2
      · simp [hp]
      · simp [hp]

theorem mem_edges : (v, w) ∈ (g.zipIdx.flatMap fun p => p.1.map fun u => (p.2, u)) ↔ Edge g v w := by
  simp only [List.mem_flatMap, List.mem_map, Prod.mk.injEq, Edge, succs]
  constructor
  · rintro ⟨⟨us, x⟩, hx, u, hu, rfl, rfl⟩
    rw [List.mem_zipIdx_iff_getElem?.1 hx]
    exact hu
  · intro h
    cases hv : g[v]? with
    | none =>
      rw [hv] at h
      cases h
    | some us =>
      rw [hv] at h
      exact ⟨(us, v), List.mem_zipIdx_iff_getElem?.2 hv, w, h, rfl, rfl⟩

theorem edge_lt (h : Edge g v w) : v < g.length := by
  by_contra hv
  rw [Edge, succs, List.getElem?_eq_none (Nat.le_of_not_lt hv)] at h
  cases h

theorem toAdjacencyMatrix_some (h : InRange g) :
    ∃ a, toAdjacencyMatrix g = some a ∧ a.size = g.length ∧ ∀ v w, a.entry v w = true ↔ Edge g v w := by
  obtain ⟨a, ha, hsize, hentry⟩ := writes_some (a := ⟨g.length, fun _ _ => false⟩)
    (l := g.zipIdx.flatMap fun p => p.1.map fun u => (p.2, u)) fun p hp =>
      ⟨edge_lt (mem_edges.1 hp), h p.1 p.2 (mem_edges.1 hp)⟩
  refine ⟨a, ha, hsize, fun v w => ?_⟩
  rw [hentry, mem_edges]
  simp

theorem bounded_of_edges (hsize : a.size = g.length) (hentry : ∀ v w, a.entry v w = true ↔ Edge g v w)
    (h : InRange g) : a.Bounded := by
  intro v w hvw
  have hedge := (hentry v w).1 hvw
  rw [hsize]
  exact ⟨edge_lt hedge, h v w hedge⟩

theorem edge_fromAdjacencyMatrix (h : a.Bounded) : Edge (fromAdjacencyMatrix a) v w ↔ a.entry v w = true := by
  rw [Edge, succs, fromAdjacencyMatrix, List.getElem?_map]
  by_cases hv : v < a.size
  · rw [List.getElem?_range hv]
    simp only [Option.map_some, Option.getD_some, List.mem_map, List.mem_filter, mem_range, decide_eq_true_eq]
    constructor
    · rintro ⟨p, ⟨⟨-, hp⟩, rfl⟩, rfl⟩
      exact hp
    · intro hvw
      exact ⟨(v, w), ⟨⟨h v w hvw, hvw⟩, rfl⟩, rfl⟩
  · rw [List.getElem?_eq_none (by simpa using hv)]
    refine ⟨fun hw => ?_, fun hvw => absurd (h v w hvw).1 hv⟩
    cases hw

theorem nodup_fromAdjacencyMatrix (v : ℕ) : (succs (fromAdjacencyMatrix a) v).Nodup := by
  rw [succs, fromAdjacencyMatrix, List.getElem?_map]
  by_cases hv : v < a.size
  · rw [List.getElem?_range hv]
    refine List.Nodup.map_on (fun p hp q hq hpq => ?_)
      (((List.nodup_range.product List.nodup_range).filter _).filter _)
    have hp₁ : v = p.1 := by simpa using (List.mem_filter.1 hp).2
    have hq₁ : v = q.1 := by simpa using (List.mem_filter.1 hq).2
    exact Prod.ext (hp₁.symm.trans hq₁) hpq
  · rw [List.getElem?_eq_none (by simpa using hv)]
    exact List.nodup_nil

/-! ### The closure -/

/-- What a round writes for `k`, from the matrix before the round. -/
def AdjacencyMatrix.via (m : AdjacencyMatrix) (k i j : ℕ) : Bool := m.entry i j || (m.entry i k && m.entry k j)

/-- Row and column `k` stay as they are in the round, so that it makes no difference which of
its entries the round has written already. -/
theorem closureRound_loop (l : List (ℕ × ℕ)) (h : ∀ i j, a.entry i j = m.entry i j ∨ a.entry i j = m.via k i j) :
    let b := l.foldl (fun arr ij => arr.write ij.1 ij.2 (arr.entry ij.1 ij.2 || (arr.entry ij.1 k && arr.entry k ij.2))) a
    b.size = a.size ∧ ∀ i j, b.entry i j = if (i, j) ∈ l then m.via k i j else a.entry i j := by
  induction l generalizing a with
  | nil => exact ⟨rfl, fun i j => rfl⟩
  | cons p l ih =>
    have hcol : a.entry p.1 k = m.entry p.1 k := by
      rcases h p.1 k with h | h
      · exact h
      · rw [h, AdjacencyMatrix.via]
        cases m.entry p.1 k <;> rfl
    have hrow : a.entry k p.2 = m.entry k p.2 := by
      rcases h k p.2 with h | h
      · exact h
      · rw [h, AdjacencyMatrix.via]
        cases m.entry k p.2 <;> simp
    have hwritten : (a.entry p.1 p.2 || (a.entry p.1 k && a.entry k p.2)) = m.via k p.1 p.2 := by
      rw [hcol, hrow]
      rcases h p.1 p.2 with h | h
      · rw [h, AdjacencyMatrix.via]
      · rw [h, AdjacencyMatrix.via, Bool.or_assoc, Bool.or_self]
    obtain ⟨hsize, hentry⟩ := ih (a := a.write p.1 p.2 (m.via k p.1 p.2)) fun i j => by
      rw [write_entry]
      split_ifs with hij
      · rw [hij.1, hij.2]
        exact .inr rfl
      · exact h i j
    rw [List.foldl_cons, hwritten]
    refine ⟨hsize, fun i j => ?_⟩
    rw [hentry, write_entry]
    by_cases hl : (i, j) ∈ l
    · rw [if_pos hl, if_pos (List.mem_cons_of_mem p hl)]
    · rw [if_neg hl]
      by_cases hp : i = p.1 ∧ j = p.2
      · rw [if_pos hp, hp.1, hp.2, if_pos List.mem_cons_self]
      · have hcons : (i, j) ∉ p :: l := fun hmem => by
          rcases List.mem_cons.1 hmem with heq | hmem
          · exact hp ⟨congrArg Prod.fst heq, congrArg Prod.snd heq⟩
          · exact hl hmem
        rw [if_neg hp, if_neg hcons]

theorem closureRound_size (k : ℕ) (a : AdjacencyMatrix) : (closureRound k a).size = a.size :=
  (closureRound_loop (m := a) a.range fun _ _ => .inl rfl).1

theorem closureRound_entry (h : a.Bounded) (i j : ℕ) : (closureRound k a).entry i j = a.via k i j := by
  have hloop := (closureRound_loop (k := k) (m := a) a.range fun _ _ => .inl rfl).2 i j
  refine hloop.trans ?_
  split_ifs with hij
  · rfl
  · rw [mem_range] at hij
    have hout : a.via k i j ≠ true := by
      intro hvia
      rw [AdjacencyMatrix.via, Bool.or_eq_true, Bool.and_eq_true] at hvia
      rcases hvia with hvia | ⟨hik, hkj⟩
      · exact hij (h i j hvia)
      · exact hij ⟨(h i k hik).1, (h k j hkj).2⟩
    rw [Bool.eq_false_iff.2 hout]
    exact Bool.eq_false_iff.2 fun hentry => hij (h i j hentry)

theorem through_bounded {p : ℕ → Prop} (h : a.Bounded) (hij : Through (fun v w => a.entry v w = true) p i j) :
    i < a.size ∧ j < a.size := by
  induction hij with
  | single hr => exact h _ _ hr
  | cons hr _ _ ih => exact ⟨(h _ _ hr).1, ih.2⟩

/-- After the rounds below `n` the entries are the paths that pass vertices below `n` only. -/
theorem closureRounds (h : a.Bounded) (n : ℕ) :
    let b := (List.range n).foldl (fun arr k => closureRound k arr) a
    b.size = a.size ∧ ∀ i j, b.entry i j = true ↔ Through (fun v w => a.entry v w = true) (· < n) i j := by
  induction n with
  | zero =>
    refine ⟨rfl, fun i j => ?_⟩
    rw [through_none fun x => Nat.not_lt_zero x]
    rfl
  | succ n ih =>
    obtain ⟨hsize, hentry⟩ := ih
    rw [List.range_succ, List.foldl_append]
    refine ⟨(closureRound_size n _).trans hsize, fun i j => ?_⟩
    have hbounded : ((List.range n).foldl (fun arr k => closureRound k arr) a).Bounded := by
      intro v w hvw
      rw [hsize]
      exact through_bounded h ((hentry v w).1 hvw)
    have hlt : (fun x => x < n + 1) = fun x => x < n ∨ x = n := funext fun x => propext Nat.lt_succ_iff_lt_or_eq
    show (closureRound n _).entry i j = true ↔ _
    rw [closureRound_entry hbounded, AdjacencyMatrix.via, Bool.or_eq_true, Bool.and_eq_true, hentry, hentry, hentry,
      hlt, through_or_iff]

theorem transitiveClosureAM_entry (h : a.Bounded) (i j : ℕ) :
    (transitiveClosureAM a).entry i j = true ↔ TransGen (fun v w => a.entry v w = true) i j := by
  rw [transitiveClosureAM, (closureRounds h a.size).2]
  exact through_all fun x y hxy => (h x y hxy).1

theorem transitiveClosureAM_size (h : a.Bounded) : (transitiveClosureAM a).size = a.size :=
  (closureRounds h a.size).1

theorem transitiveClosureAM_bounded (h : a.Bounded) : (transitiveClosureAM a).Bounded := by
  intro i j hij
  rw [transitiveClosureAM_size h]
  exact through_bounded h (((closureRounds h a.size).2 i j).1 hij)

/-! ### The reduction -/

theorem reductionRound_loop (f : AdjacencyMatrix) (l : List (ℕ × ℕ)) :
    let b := l.foldl (fun arr ij => if f.entry k ij.1 && f.entry ij.1 ij.2 then arr.write k ij.2 false else arr) a
    b.size = a.size ∧ ∀ v w, b.entry v w = true ↔
      a.entry v w = true ∧ ¬ (v = k ∧ ∃ i, (i, w) ∈ l ∧ f.entry k i = true ∧ f.entry i w = true) := by
  induction l generalizing a with
  | nil => exact ⟨rfl, fun v w => by simp⟩
  | cons p l ih =>
    rw [List.foldl_cons]
    split_ifs with hp
    · rw [Bool.and_eq_true] at hp
      obtain ⟨hsize, hentry⟩ := ih (a := a.write k p.2 false)
      refine ⟨hsize, fun v w => ?_⟩
      rw [hentry, write_entry]
      by_cases hvw : v = k ∧ w = p.2
      · rw [if_pos hvw]
        refine ⟨fun h => absurd h.1 Bool.false_ne_true, fun h => absurd ⟨hvw.1, p.1, ?_, hp.1, ?_⟩ h.2⟩
        · rw [hvw.2]
          exact List.mem_cons_self
        · rw [hvw.2]
          exact hp.2
      · rw [if_neg hvw]
        refine and_congr_right fun _ => not_congr (and_congr_right fun hv => exists_congr fun i => ?_)
        have hne : (i, w) ≠ p := fun heq => hvw ⟨hv, congrArg Prod.snd heq⟩
        rw [List.mem_cons, or_iff_right hne]
    · obtain ⟨hsize, hentry⟩ := ih (a := a)
      refine ⟨hsize, fun v w => ?_⟩
      rw [hentry]
      refine and_congr_right fun _ => not_congr (and_congr_right fun _ => exists_congr fun i => ?_)
      constructor
      · exact fun h => ⟨List.mem_cons_of_mem p h.1, h.2⟩
      · rintro ⟨hmem, hki, hiw⟩
        refine ⟨(List.mem_cons.1 hmem).resolve_left fun heq => hp ?_, hki, hiw⟩
        rw [← heq, hki, hiw]
        rfl

theorem reductionRounds (f : AdjacencyMatrix) (ks : List ℕ) :
    let b := ks.foldl (fun arr k => reductionRound f k arr) a
    b.size = a.size ∧ ∀ v w, b.entry v w = true ↔
      a.entry v w = true ∧ ¬ (v ∈ ks ∧ ∃ i, (i, w) ∈ f.range ∧ f.entry v i = true ∧ f.entry i w = true) := by
  induction ks generalizing a with
  | nil => exact ⟨rfl, fun v w => by simp⟩
  | cons k ks ih =>
    obtain ⟨hsize₁, hentry₁⟩ := reductionRound_loop (a := a) (k := k) f f.range
    obtain ⟨hsize, hentry⟩ := ih (a := reductionRound f k a)
    refine ⟨hsize.trans hsize₁, fun v w => (hentry v w).trans ?_⟩
    rw [reductionRound, hentry₁, List.mem_cons]
    constructor
    · rintro ⟨⟨hvw, hk⟩, hks⟩
      refine ⟨hvw, ?_⟩
      rintro ⟨rfl | hv, hex⟩
      · exact hk ⟨rfl, hex⟩
      · exact hks ⟨hv, hex⟩
    · rintro ⟨hvw, hnot⟩
      refine ⟨⟨hvw, ?_⟩, fun h => hnot ⟨.inr h.1, h.2⟩⟩
      rintro ⟨rfl, hex⟩
      exact hnot ⟨.inl rfl, hex⟩

/-- What is left are the paths that no vertex cuts in two. -/
theorem transitiveReductionAM_entry (h : a.Bounded) (v w : ℕ) :
    (transitiveReductionAM a).entry v w = true ↔ Covers (TransGen fun v w => a.entry v w = true) v w := by
  have hbounded := transitiveClosureAM_bounded h
  have hrounds := (reductionRounds (a := transitiveClosureAM a) (transitiveClosureAM a) (List.range a.size)).2 v w
  refine hrounds.trans ?_
  rw [transitiveClosureAM_entry h, Covers]
  refine and_congr_right fun hvw => not_congr ?_
  have hv : v ∈ List.range a.size := by
    rw [List.mem_range, ← transitiveClosureAM_size h]
    exact (hbounded v w ((transitiveClosureAM_entry h v w).2 hvw)).1
  rw [and_iff_right hv]
  refine exists_congr fun i => ?_
  rw [transitiveClosureAM_entry h, transitiveClosureAM_entry h]
  refine and_iff_right_of_imp fun hi => mem_range.2 ⟨?_, ?_⟩
  · exact (hbounded v i ((transitiveClosureAM_entry h v i).2 hi.1)).2
  · exact (hbounded i w ((transitiveClosureAM_entry h i w).2 hi.2)).2

theorem transitiveReductionAM_bounded (h : a.Bounded) : (transitiveReductionAM a).Bounded := by
  intro v w hvw
  have hsize := (reductionRounds (a := transitiveClosureAM a) (transitiveClosureAM a) (List.range a.size)).1
  have hclosure := (transitiveClosureAM_entry h v w).2 ((transitiveReductionAM_entry h v w).1 hvw).1
  show v < (transitiveReductionAM a).size ∧ w < (transitiveReductionAM a).size
  rw [show (transitiveReductionAM a).size = (transitiveClosureAM a).size from hsize]
  exact transitiveClosureAM_bounded h v w hclosure

end Matrix

/-! ### The graphs -/

section Graphs

variable {ν : Type} {g : Graph ν}

/-- The edges of the closure are the paths of the graph, each once. -/
theorem transitiveClosure_paths (h : InRange g.edges) :
    ∃ g', transitiveClosure g = some g' ∧ g'.table = g.table ∧
      (∀ v w, Edge g'.edges v w ↔ TransGen (Edge g.edges) v w) ∧ ∀ v, (succs g'.edges v).Nodup := by
  obtain ⟨a, ha, hsize, hentry⟩ := toAdjacencyMatrix_some h
  have hbounded := bounded_of_edges hsize hentry h
  have hedges : (fun v w => a.entry v w = true) = Edge g.edges := funext₂ fun v w => propext (hentry v w)
  refine ⟨⟨fromAdjacencyMatrix (transitiveClosureAM a), g.table⟩, ?_, rfl, fun v w => ?_, nodup_fromAdjacencyMatrix⟩
  · rw [transitiveClosure, ha]
    rfl
  · rw [edge_fromAdjacencyMatrix (transitiveClosureAM_bounded hbounded), transitiveClosureAM_entry hbounded, hedges]

def chain : Graph ℕ := ⟨[[1], [2], []], [5, 6, 7]⟩

theorem chain_inRange : InRange chain.edges := by
  intro v w hvw
  have hv := edge_lt hvw
  have hall : ∀ v < 3, ∀ w ∈ succs chain.edges v, w < 3 := by decide
  exact hall v hv w hvw

theorem transitiveClosure_paths_chain :
    ∃ g', transitiveClosure chain = some g' ∧ g'.table = chain.table ∧
      (∀ v w, Edge g'.edges v w ↔ TransGen (Edge chain.edges) v w) ∧ ∀ v, (succs g'.edges v).Nodup :=
  transitiveClosure_paths chain_inRange

/-- The reduction keeps the paths exactly where the graph has no cycles. Its edges are those
that no graph with the same paths can do without. -/
theorem transitiveReduction_paths_iff (h : InRange g.edges) :
    ∃ g', transitiveReduction g = some g' ∧ g'.table = g.table ∧
      (TransGen (Edge g'.edges) = TransGen (Edge g.edges) ↔ ∀ v, ¬ TransGen (Edge g.edges) v v) ∧
      ∀ es, TransGen (Edge es) = TransGen (Edge g.edges) → ∀ v w, Edge g'.edges v w → Edge es v w := by
  obtain ⟨a, ha, hsize, hentry⟩ := toAdjacencyMatrix_some h
  have hbounded := bounded_of_edges hsize hentry h
  have hpaths : (fun v w => a.entry v w = true) = Edge g.edges := funext₂ fun v w => propext (hentry v w)
  have hedges : ∀ v w, Edge (fromAdjacencyMatrix (transitiveReductionAM a)) v w ↔
      Covers (TransGen (Edge g.edges)) v w := by
    intro v w
    rw [edge_fromAdjacencyMatrix (transitiveReductionAM_bounded hbounded), transitiveReductionAM_entry hbounded, hpaths]
  refine ⟨⟨fromAdjacencyMatrix (transitiveReductionAM a), g.table⟩, ?_, rfl, ⟨?_, ?_⟩, ?_⟩
  · rw [transitiveReduction, ha]
    rfl
  · -- a vertex on a cycle cuts every path out of it
    intro heq v hv
    rw [← heq] at hv
    obtain ⟨w, hvw, -⟩ := TransGen.head'_iff.1 hv
    obtain ⟨hpath, hcut⟩ := (hedges v w).1 hvw
    rw [heq] at hv
    exact hcut ⟨v, hv, hpath⟩
  · intro hacyclic
    refine funext₂ fun v w => propext ⟨fun hvw => ?_, fun hvw => ?_⟩
    · induction hvw with
      | single hedge => exact ((hedges _ _).1 hedge).1
      | tail _ hedge ih => exact ih.trans ((hedges _ _).1 hedge).1
    · have hfinite : ∀ x y, TransGen (Edge g.edges) x y → y ∈ Finset.range g.edges.length := by
        intro x y hxy
        obtain ⟨z, -, hzy⟩ := TransGen.tail'_iff.1 hxy
        exact Finset.mem_range.2 (h z y hzy)
      have hcovers := transGen_covers _ hfinite (fun _ _ _ => TransGen.trans) hacyclic hvw
      exact TransGen.mono (fun x y hxy => (hedges x y).2 hxy) v w hcovers
  · intro es hes v w hvw
    obtain ⟨hpath, hcut⟩ := (hedges v w).1 hvw
    rw [← hes] at hpath hcut
    obtain ⟨z, hvz, hzw⟩ := TransGen.head'_iff.1 hpath
    rcases ReflTransGen.cases_head hzw with rfl | hrest
    · exact hvz
    · exact absurd ⟨z, .single hvz, TransGen.head'_iff.2 hrest⟩ hcut

theorem transitiveReduction_paths_chain :
    ∃ g', transitiveReduction chain = some g' ∧ g'.table = chain.table ∧
      (TransGen (Edge g'.edges) = TransGen (Edge chain.edges) ↔ ∀ v, ¬ TransGen (Edge chain.edges) v v) ∧
      ∀ es, TransGen (Edge es) = TransGen (Edge chain.edges) → ∀ v w, Edge g'.edges v w → Edge es v w :=
  transitiveReduction_paths_iff chain_inRange

end Graphs

end Jhc.Util

import Mathlib.Data.List.Perm.Basic
import Mathlib.Data.List.Nodup
import Mathlib.Data.List.Dedup

/-!
# Strongly connected components of a graph of named nodes (Util/Graph.hs:47-85, 128-136)

The components themselves are found by `Data.Graph.scc` of the containers package, which is
a parameter: of it `IsScc` says what its documentation does.
-/

namespace Jhc.Util

inductive Tree where
  | node (v : ℕ) (ts : List Tree)

mutual

def Tree.dec : Tree → List ℕ
  | .node v ts => v :: decs ts

def decs : List Tree → List ℕ
  | [] => []
  | t :: ts => t.dec ++ decs ts

end

/-- The edges of the vertices, numbered from 0, and the nodes that these stand for. -/
structure Graph (ν : Type) where
  edges : List (List ℕ)
  table : List ν

variable {ν κ : Type} [DecidableEq κ]

/-- The last vertex of the key. -/
def kmap (ns : List ν) (fn : ν → κ) (k : κ) : Option ℕ := (ns.zipIdx.reverse.find? fun p => fn p.1 = k).map Prod.snd

def newGraph (ns : List ν) (fn : ν → κ) (fd : ν → List κ) : Graph ν where
  edges := ns.map fun n => (fd n).dedup.filterMap (kmap ns fn)
  table := ns

namespace Graph

def next (g : Graph ν) (v : ℕ) : List ℕ := g.edges[v]?.getD []

def decode (g : Graph ν) : Tree → Option (ν ⊕ List ν)
  | .node v [] => g.table[v]?.map fun n => if v ∈ g.next v then .inr [n] else .inl n
  | t => some (.inr (t.dec.filterMap (g.table[·]?)))

def scc (gscc : List (List ℕ) → List Tree) (g : Graph ν) : List (ν ⊕ List ν) := (gscc g.edges).filterMap g.decode

end Graph

def fromScc : ν ⊕ List ν → List ν
  | .inl n => [n]
  | .inr ns => ns

/-- The components of a graph, each after those that it has edges to. -/
structure IsScc (edges : List (List ℕ)) (forest : List Tree) : Prop where
  perm : (forest.flatMap Tree.dec).Perm (List.range edges.length)
  order : forest.Pairwise fun t t' => ∀ v ∈ t.dec, ∀ w ∈ t'.dec, w ∉ edges[v]?.getD []

/-! ### The groups of a graph -/

variable {ns : List ν} {fn : ν → κ} {fd : ν → List κ} {g : Graph ν} {t t' : Tree} {s s' : ν ⊕ List ν} {n m : ν} {v : ℕ}

theorem kmap_of_mem (hnd : (ns.map fn).Nodup) (hv : ns[v]? = some n) : kmap ns fn (fn n) = some v := by
  have hmem : (n, v) ∈ ns.zipIdx.reverse := List.mem_reverse.2 (List.mem_zipIdx_iff_getElem?.2 hv)
  have hone : ∀ p ∈ ns.zipIdx.reverse, fn p.1 = fn n → p = (n, v) := by
    rintro ⟨m, w⟩ hp hkey
    have hw : ns[w]? = some m := List.mem_zipIdx_iff_getElem?.1 (List.mem_reverse.1 hp)
    obtain ⟨hlt, -⟩ := List.getElem?_eq_some_iff.1 hw
    have hidx : w = v := by
      refine (List.getElem?_inj (by simpa using hlt) hnd).1 ?_
      rw [List.getElem?_map, List.getElem?_map, hw, hv]
      exact congrArg some hkey
    subst hidx
    rw [hv] at hw
    cases hw
    rfl
  have hfind : (ns.zipIdx.reverse.find? fun p => fn p.1 = fn n).isSome := List.find?_isSome.2 ⟨(n, v), hmem, by simp⟩
  obtain ⟨p, hp⟩ := Option.isSome_iff_exists.1 hfind
  rw [kmap, hp, hone p (List.mem_of_find?_eq_some hp) (by simpa using List.find?_some hp)]
  rfl

/-- Where a node depends on another, there is an edge between their vertices. -/
theorem edge_of_dep {w : ℕ} (hnd : (ns.map fn).Nodup) (hv : ns[v]? = some n) (hw : ns[w]? = some m) (hdep : fn m ∈ fd n) :
    w ∈ (newGraph ns fn fd).next v := by
  rw [Graph.next, newGraph, List.getElem?_map, hv]
  exact List.mem_filterMap.2 ⟨fn m, List.mem_dedup.2 hdep, kmap_of_mem hnd hw⟩

theorem fromScc_decode (h : g.decode t = some s) : fromScc s = t.dec.filterMap (g.table[·]?) := by
  cases t with
  | node v ts =>
    cases ts with
    | nil =>
      obtain ⟨n, hn, rfl⟩ := Option.map_eq_some_iff.1 h
      have hdec : (Tree.node v []).dec = [v] := rfl
      rw [hdec, List.filterMap_cons, hn, List.filterMap_nil]
      split <;> rfl
    | cons t ts =>
      cases h
      rfl

theorem fromScc_scc (gscc : List (List ℕ) → List Tree) :
    (g.scc gscc).flatMap fromScc = ((gscc g.edges).flatMap Tree.dec).filterMap (g.table[·]?) := by
  rw [Graph.scc]
  induction gscc g.edges with
  | nil => rfl
  | cons t forest ih =>
    rw [List.flatMap_cons, List.filterMap_append, ← ih, List.filterMap_cons]
    cases h : g.decode t with
    | some s => rw [List.flatMap_cons, fromScc_decode h]
    | none =>
      cases t with
      | node v ts =>
        cases ts with
        | nil =>
          have hdec : (Tree.node v []).dec = [v] := rfl
          simp [hdec, Option.map_eq_none_iff.1 h]
        | cons t ts => cases h

omit [DecidableEq κ] in
theorem filterMap_range (l : List ν) : (List.range l.length).filterMap (l[·]?) = l := by
  induction l with
  | nil => rfl
  | cons n l ih =>
    have hhead : (n :: l)[0]? = some n := rfl
    rw [List.length_cons, List.range_succ_eq_map, List.filterMap_cons_some hhead, List.filterMap_map]
    exact congrArg (n :: ·) ih

/-- The groups have the nodes of the graph, each in one. -/
theorem scc_perm {gscc : List (List ℕ) → List Tree} (hscc : ∀ es, IsScc es (gscc es)) :
    (((newGraph ns fn fd).scc gscc).flatMap fromScc).Perm ns := by
  have hlen : (newGraph ns fn fd).edges.length = (newGraph ns fn fd).table.length := by simp [newGraph]
  have hperm := (hscc (newGraph ns fn fd).edges).perm.filterMap ((newGraph ns fn fd).table[·]?)
  rw [hlen, filterMap_range] at hperm
  rw [fromScc_scc]
  exact hperm

theorem mem_fromScc_decode (h : g.decode t = some s) (hn : n ∈ fromScc s) : ∃ v ∈ t.dec, g.table[v]? = some n := by
  rw [fromScc_decode h] at hn
  exact List.mem_filterMap.1 hn

/-- No node of a group depends on one of a later group. -/
theorem scc_order {gscc : List (List ℕ) → List Tree} (hscc : ∀ es, IsScc es (gscc es)) (hnd : (ns.map fn).Nodup) :
    ((newGraph ns fn fd).scc gscc).Pairwise fun s s' => ∀ n ∈ fromScc s, ∀ m ∈ fromScc s', fn m ∉ fd n := by
  refine List.Pairwise.filterMap _ (fun t t' hrel s hs s' hs' n hn m hm hdep => ?_) (hscc (newGraph ns fn fd).edges).order
  obtain ⟨v, hv, htv⟩ := mem_fromScc_decode hs hn
  obtain ⟨w, hw, htw⟩ := mem_fromScc_decode hs' hm
  exact hrel v hv w hw (edge_of_dep hnd htv htw hdep)

/-- A node that stands alone does not depend on itself. -/
theorem scc_alone {gscc : List (List ℕ) → List Tree} (hnd : (ns.map fn).Nodup)
    (h : .inl n ∈ (newGraph ns fn fd).scc gscc) : fn n ∉ fd n := by
  obtain ⟨t, -, ht⟩ := List.mem_filterMap.1 h
  intro hdep
  cases t with
  | node v ts =>
    cases ts with
    | cons t ts => cases ht
    | nil =>
      obtain ⟨m, hm, hs⟩ := Option.map_eq_some_iff.1 ht
      by_cases hself : v ∈ (newGraph ns fn fd).next v
      · rw [if_pos hself] at hs
        cases hs
      · rw [if_neg hself] at hs
        cases hs
        exact hself (edge_of_dep hnd hm hm hdep)

end Jhc.Util

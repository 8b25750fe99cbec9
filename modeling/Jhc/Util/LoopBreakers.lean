import Mathlib.Algebra.GroupWithZero.Nat
import Mathlib.Algebra.Order.BigOperators.Group.List
import Mathlib.Algebra.Order.Group.Nat
import Mathlib.Data.List.Sort
import Mathlib.Data.List.Range
import Mathlib.Logic.Relation
import Jhc.Lib.Ensures
import Jhc.Util.Graph

/-!
# Loop breakers (Util/Graph.hs:87-110)

`findLoopBreakers` decomposes a graph, takes a node of the first component that has a loop,
ignores one edge from each node into it and starts again. `Data.Graph.scc` stays a parameter.
-/

namespace Jhc.Util
open Jhc.Lib

def succs (g : List (List ℕ)) (v : ℕ) : List ℕ := g[v]?.getD []

/-- `fmap (Data.List.delete v) g`. -/
def deleteInto (v : ℕ) (g : List (List ℕ)) : List (List ℕ) := g.map fun ws => ws.erase v

section Find

variable {ν : Type} (gscc : List (List ℕ) → List Tree) (func : ν → ℤ) (ex : ν → Bool) (ln : List ν)

/-- The first node of the highest score among those that are suitable. -/
def breaker (ns : List ℕ) : Option ℕ :=
  ((ns.filterMap fun v => (ln[v]?.filter ex).map fun n => (v, func n)).mergeSort
    fun a b => b.2 ≤ a.2).head?.map Prod.fst

namespace findLoopBreakers

/-- `Stop.fail` is the call of `error` for a component without a suitable node. -/
def f : ℕ → List (List ℕ) → List Tree → List ℕ → List ℕ → Except Stop (List ℕ × List ℕ)
  | _, _, [], fs, lb => .ok (lb, fs)
  | 0, _, _ :: _, _, _ => .error .outOfFuel
  | fuel + 1, g, .node v [] :: sccs, fs, lb =>
    if v ∈ succs g v then
      let ng := deleteInto v g
      f fuel ng (gscc ng) [] (v :: lb)
    else f fuel g sccs (v :: fs) lb
  | fuel + 1, g, .node v (t :: ts) :: _, _, lb =>
    match breaker func ex ln (Tree.node v (t :: ts)).dec with
    | none => .error .fail
    | some mv =>
      let ng := deleteInto mv g
      f fuel ng (gscc ng) [] (mv :: lb)

end findLoopBreakers

/-- The breakers, sorted and without repetitions, and the nodes in the order of dependency. -/
def findLoopBreakers (fuel : ℕ) (g : Graph ν) : Except Stop (List ν × List ν) := do
  let (lb, xs) ← findLoopBreakers.f gscc func ex g.table fuel g.edges (gscc g.edges) [] []
  return ((lb.mergeSort fun a b => a ≤ b).dedup.filterMap (g.table[·]?),
    (xs.filterMap (g.table[·]?)).reverse)

end Find

/-! ### Paths -/

def Edge (g : List (List ℕ)) (v w : ℕ) : Prop := w ∈ succs g v

abbrev Path (g : List (List ℕ)) : ℕ → ℕ → Prop := Relation.ReflTransGen (Edge g)

/-- What the documentation of `Data.Graph.scc` says: in reverse topological order, and each
tree is strongly connected. -/
structure IsSccs (g : List (List ℕ)) (forest : List Tree) : Prop extends IsScc g forest where
  conn : ∀ t ∈ forest, ∀ v ∈ t.dec, ∀ w ∈ t.dec, Path g v w

/-- The edges of `g` are among those of `h`. -/
def SubGraph (g h : List (List ℕ)) : Prop := g.length = h.length ∧ ∀ v, (succs g v).Sublist (succs h v)

/-- The bounds of the array. -/
def InRange (g : List (List ℕ)) : Prop := ∀ v w, Edge g v w → w < g.length

def edgeCount (g : List (List ℕ)) : ℕ := (g.map List.length).sum

section Delete

variable {g h : List (List ℕ)} {v w : ℕ}

theorem succs_deleteInto (v w : ℕ) (g : List (List ℕ)) : succs (deleteInto v g) w = (succs g w).erase v := by
  unfold succs deleteInto
  rw [List.getElem?_map]
  cases g[w]? with
  | none => rfl
  | some ws => rfl

theorem SubGraph.refl (g : List (List ℕ)) : SubGraph g g := ⟨rfl, fun _ => List.Sublist.refl _⟩

theorem SubGraph.delete (hsub : SubGraph g h) (v : ℕ) : SubGraph (deleteInto v g) h := by
  refine ⟨by rw [deleteInto, List.length_map, hsub.1], fun w => ?_⟩
  rw [succs_deleteInto]
  exact List.erase_sublist.trans (hsub.2 w)

theorem SubGraph.edge (hsub : SubGraph g h) (hedge : Edge g v w) : Edge h v w := (hsub.2 v).subset hedge

theorem SubGraph.inRange (hsub : SubGraph g h) (hrange : InRange h) : InRange g := by
  intro v w hedge
  rw [hsub.1]
  exact hrange v w (hsub.edge hedge)

theorem edge_delete {u : ℕ} (hedge : Edge g v w) (hne : w ≠ u) : Edge (deleteInto u g) v w := by
  unfold Edge
  rw [succs_deleteInto]
  exact (List.mem_erase_of_ne hne).2 hedge

/-- A node with an edge into it loses one. -/
theorem edgeCount_delete (hedge : Edge g w v) : edgeCount (deleteInto v g) < edgeCount g := by
  have hmem : ∃ ws ∈ g, v ∈ ws := by
    unfold Edge succs at hedge
    cases hws : g[w]? with
    | none => simp [hws] at hedge
    | some ws =>
      rw [hws] at hedge
      exact ⟨ws, List.mem_of_getElem? hws, hedge⟩
  obtain ⟨ws, hws, hv⟩ := hmem
  unfold edgeCount deleteInto
  rw [List.map_map]
  refine List.sum_lt_sum _ _ (fun us _ => List.erase_sublist.length_le) ⟨ws, hws, ?_⟩
  have hlen := List.length_erase_of_mem hv
  have hpos := List.length_pos_of_mem hv
  show (ws.erase v).length < ws.length
  omega

end Delete

/-! ### Components -/

section Components

variable {g : List (List ℕ)} {pre post : List Tree} {t : Tree} {v w : ℕ}

/-- The nodes of the first trees have no edges to the others. -/
theorem prefix_closed (h : IsScc g (pre ++ post)) (hrange : InRange g) (hedge : Edge g v w)
    (hv : ∃ s ∈ pre, v ∈ s.dec) : ∃ s ∈ pre, w ∈ s.dec := by
  obtain ⟨s, hs, hvs⟩ := hv
  have hmem : w ∈ (pre ++ post).flatMap Tree.dec := h.perm.mem_iff.2 (List.mem_range.2 (hrange v w hedge))
  obtain ⟨s', hs', hws⟩ := List.mem_flatMap.1 hmem
  rcases List.mem_append.1 hs' with hpre | hpost
  · exact ⟨s', hpre, hws⟩
  · exact absurd hedge ((List.pairwise_append.1 h.order).2.2 s hs s' hpost v hvs w hws)

theorem prefix_path (h : IsScc g (pre ++ post)) (hrange : InRange g) (hpath : Path g v w)
    (hv : ∃ s ∈ pre, v ∈ s.dec) : ∃ s ∈ pre, w ∈ s.dec := by
  induction hpath with
  | refl => exact hv
  | tail _ hedge ih => exact prefix_closed h hrange hedge ih

theorem dec_nodup (h : IsScc g (pre ++ t :: post)) : t.dec.Nodup ∧ ∀ s ∈ pre, ∀ v ∈ s.dec, v ∉ t.dec := by
  have hnd : ((pre ++ t :: post).flatMap Tree.dec).Nodup := h.perm.nodup_iff.2 List.nodup_range
  rw [List.flatMap_append, List.flatMap_cons] at hnd
  obtain ⟨-, hrest, hdis⟩ := List.nodup_append.1 hnd
  refine ⟨(List.nodup_append.1 hrest).1, fun s hs v hv hvt => ?_⟩
  exact hdis v (List.mem_flatMap.2 ⟨s, hs, hv⟩) v (List.mem_append_left _ hvt) rfl

/-- Nodes with paths both ways are in one tree. -/
theorem same_tree (h : IsScc g (pre ++ t :: post)) (hrange : InRange g) (hv : v ∈ t.dec)
    (hvw : Path g v w) (hwv : Path g w v) : w ∈ t.dec := by
  have happend : pre ++ t :: post = (pre ++ [t]) ++ post := by simp
  have hto : ∃ s ∈ pre ++ [t], w ∈ s.dec :=
    prefix_path (happend ▸ h) hrange hvw ⟨t, by simp, hv⟩
  obtain ⟨s, hs, hws⟩ := hto
  rcases List.mem_append.1 hs with hpre | hlast
  · obtain ⟨s', hs', hvs⟩ := prefix_path h hrange hwv ⟨s, hpre, hws⟩
    exact absurd hv ((dec_nodup h).2 s' hs' v hvs)
  · rwa [List.mem_singleton.1 hlast] at hws

theorem root_mem (t : Tree) : ∃ v, v ∈ t.dec := by
  cases t with
  | node v ts => exact ⟨v, List.mem_cons_self⟩

theorem forest_length {forest : List Tree} (h : IsScc g forest) : forest.length ≤ g.length := by
  have hlen : forest.length ≤ (forest.flatMap Tree.dec).length := by
    rw [List.length_flatMap]
    calc forest.length = (forest.map fun _ => 1).sum := by simp
      _ ≤ _ := List.sum_le_sum fun t _ => List.length_pos_of_mem (root_mem t).choose_spec
  rwa [h.perm.length_eq, List.length_range] at hlen

/-- In a tree with more than one node every node has an edge from another. -/
theorem edge_into (h : IsSccs g (pre ++ t :: post)) (hv : v ∈ t.dec) (hw : w ∈ t.dec) (hne : w ≠ v) :
    ∃ u, Edge g u v := by
  have hpath := h.conn t (by simp) w hw v hv
  rcases Relation.ReflTransGen.cases_tail hpath with heq | ⟨u, -, hedge⟩
  · exact absurd heq.symm hne
  · exact ⟨u, hedge⟩

end Components

/-! ### Loops without a suitable node -/

section Ineligible

variable {ν : Type} {func : ν → ℤ} {ex : ν → Bool} {ln : List ν}

/-- The node of the vertex is suitable for a choice as loop breaker. -/
def Eligible (ex : ν → Bool) (ln : List ν) (v : ℕ) : Prop := ∃ n, ln[v]? = some n ∧ ex n = true

theorem breaker_some {ns : List ℕ} {mv : ℕ} (h : breaker func ex ln ns = some mv) :
    mv ∈ ns ∧ Eligible ex ln mv := by
  obtain ⟨⟨v, x⟩, hhead, rfl⟩ := Option.map_eq_some_iff.1 h
  have hmem := List.mem_mergeSort.1 (List.mem_of_head? hhead)
  obtain ⟨w, hw, hval⟩ := List.mem_filterMap.1 hmem
  obtain ⟨n, hn, heq⟩ := Option.map_eq_some_iff.1 hval
  obtain ⟨rfl, -⟩ := Prod.mk.inj heq
  obtain ⟨hln, hex⟩ := Option.filter_eq_some_iff.1 hn
  exact ⟨hw, n, hln, hex⟩

theorem breaker_none {ns : List ℕ} (h : breaker func ex ln ns = none) {v : ℕ} (hv : v ∈ ns) :
    ¬ Eligible ex ln v := by
  rintro ⟨n, hln, hex⟩
  have hnil := List.head?_eq_none_iff.1 (Option.map_eq_none_iff.1 h)
  have hmem : (v, func n) ∈ (ns.filterMap fun v => (ln[v]?.filter ex).map fun n => (v, func n)) := by
    refine List.mem_filterMap.2 ⟨v, hv, ?_⟩
    rw [hln, Option.filter_some, if_pos hex]
    rfl
  rw [← List.mem_mergeSort, hnil] at hmem
  exact absurd hmem List.not_mem_nil

/-- An edge between nodes that are not suitable. -/
def BadEdge (ex : ν → Bool) (ln : List ν) (g : List (List ℕ)) (v w : ℕ) : Prop :=
  Edge g v w ∧ ¬ Eligible ex ln v ∧ ¬ Eligible ex ln w

abbrev BadPath (ex : ν → Bool) (ln : List ν) (g : List (List ℕ)) : ℕ → ℕ → Prop :=
  Relation.ReflTransGen (BadEdge ex ln g)

/-- A loop through at least two nodes, none of them suitable. -/
def BadLoop (ex : ν → Bool) (ln : List ν) (g : List (List ℕ)) : Prop :=
  ∃ v w, v ≠ w ∧ BadPath ex ln g v w ∧ BadPath ex ln g w v

theorem BadPath.path {g : List (List ℕ)} {v w : ℕ} (h : BadPath ex ln g v w) : Path g v w :=
  Relation.ReflTransGen.mono (fun _ _ hedge => hedge.1) v w h

/-- The paths of a bad loop do not use an edge into a node that is on no bad loop. -/
theorem badPath_delete {g : List (List ℕ)} {u a b c : ℕ} (hne : a ≠ b) (hba : BadPath ex ln g b a)
    (hac : BadPath ex ln g a c) (hcb : BadPath ex ln g c b)
    (hout : ∀ v, v ≠ u → BadPath ex ln g u v → ¬ BadPath ex ln g v u) :
    BadPath ex ln (deleteInto u g) a c := by
  induction hac with
  | refl => exact .refl
  | @tail x y hax hxy ih =>
    refine (ih (.head hxy hcb)).tail ⟨edge_delete hxy.1 fun heq => ?_, hxy.2⟩
    subst heq
    have hya : BadPath ex ln g y a := hcb.trans hba
    have hay : BadPath ex ln g a y := hax.tail hxy
    by_cases hya' : a = y
    · subst hya'
      exact hout b hne.symm hcb hba
    · exact hout a hya' hya hay

theorem BadLoop.delete {g : List (List ℕ)} {u : ℕ} (h : BadLoop ex ln g)
    (hout : ∀ v, v ≠ u → BadPath ex ln g u v → ¬ BadPath ex ln g v u) :
    BadLoop ex ln (deleteInto u g) := by
  obtain ⟨a, b, hne, hab, hba⟩ := h
  exact ⟨a, b, hne, badPath_delete hne hba hab .refl hout, badPath_delete hne.symm hab hba .refl hout⟩

theorem BadLoop.sub {g h : List (List ℕ)} (hb : BadLoop ex ln g) (hsub : SubGraph g h) : BadLoop ex ln h := by
  have hedge : ∀ x y, BadEdge ex ln g x y → BadEdge ex ln h x y := fun x y hxy => ⟨hsub.edge hxy.1, hxy.2⟩
  obtain ⟨a, b, hne, hab, hba⟩ := hb
  exact ⟨a, b, hne, Relation.ReflTransGen.mono hedge a b hab, Relation.ReflTransGen.mono hedge b a hba⟩

/-- A suitable node is on no path of a bad loop. -/
theorem eligible_out {g : List (List ℕ)} {u : ℕ} (hu : Eligible ex ln u) (v : ℕ) (hne : v ≠ u)
    (hpath : BadPath ex ln g u v) : ¬ BadPath ex ln g v u := by
  intro _
  rcases Relation.ReflTransGen.cases_head hpath with heq | ⟨w, hedge, -⟩
  · exact hne heq.symm
  · exact hedge.2.1 hu

/-- A component without a suitable node has a bad loop. -/
theorem badLoop_of_tree {g : List (List ℕ)} {pre post : List Tree} {t : Tree} {v w : ℕ}
    (h : IsSccs g (pre ++ t :: post)) (hrange : InRange g) (hv : v ∈ t.dec) (hw : w ∈ t.dec)
    (hne : v ≠ w) (hnone : ∀ x ∈ t.dec, ¬ Eligible ex ln x) : BadLoop ex ln g := by
  have hmem : t ∈ pre ++ t :: post := by simp
  have hbad : ∀ x ∈ t.dec, ∀ y ∈ t.dec, BadPath ex ln g x y := by
    intro x hx y hy
    have hpath := h.conn t hmem x hx y hy
    have hback := h.conn t hmem y hy x hx
    induction hpath with
    | refl => exact .refl
    | @tail y z hxy hyz ih =>
      have hyx : Path g y x := .head hyz hback
      have hy' : y ∈ t.dec := same_tree h.toIsScc hrange hx hxy hyx
      exact (ih hy' hyx).tail ⟨hyz, hnone y hy', hnone z hy⟩
  exact ⟨v, w, hne, hbad v hv w hw, hbad w hw v hv⟩

end Ineligible

/-! ### The loop -/

/-- `lb` breaks the graph and `xs` is an order of its nodes after that. -/
structure Broken {ν : Type} (ex : ν → Bool) (ln : List ν) (g : List (List ℕ)) (lb xs : List ℕ) : Prop where
  perm : xs.Perm (List.range g.length)
  order : xs.Pairwise fun v w => Edge g v w → w ∈ lb
  acyclic : ∀ v, ¬ Relation.TransGen (fun v w => Edge g v w ∧ w ∉ lb) v v
  suitable : ¬ BadLoop ex ln g

/-- What holds at each call of `f`: only edges into breakers are gone from the graph `g₀`,
and the components before `sccs` are single nodes without a loop. -/
structure Progress {ν : Type} (gscc : List (List ℕ) → List Tree) (ex : ν → Bool) (ln : List ν)
    (g₀ g : List (List ℕ)) (sccs : List Tree) (fs lb : List ℕ) : Prop where
  sub : SubGraph g g₀
  kept : ∀ v w, Edge g₀ v w → w ∉ lb → Edge g v w
  split : ∃ pre, gscc g = pre ++ sccs ∧ (∀ t ∈ pre, ∃ v, t = .node v [] ∧ ¬ Edge g v v) ∧
    fs.reverse = pre.flatMap Tree.dec
  bad : BadLoop ex ln g₀ → BadLoop ex ln g

section Loop

variable {ν : Type} {gscc : List (List ℕ) → List Tree} {func : ν → ℤ} {ex : ν → Bool} {ln : List ν}
  {g₀ g : List (List ℕ)} {sccs : List Tree} {fs lb : List ℕ}

theorem progress_start (gscc : List (List ℕ) → List Tree) (ex : ν → Bool) (ln : List ν) (g₀ : List (List ℕ)) :
    Progress gscc ex ln g₀ g₀ (gscc g₀) [] [] :=
  ⟨.refl g₀, fun _ _ hedge _ => hedge, ⟨[], rfl, fun _ ht => absurd ht List.not_mem_nil, rfl⟩, id⟩

theorem Progress.skip {v : ℕ} (h : Progress gscc ex ln g₀ g (.node v [] :: sccs) fs lb) (hv : ¬ Edge g v v) :
    Progress gscc ex ln g₀ g sccs (v :: fs) lb := by
  obtain ⟨pre, hpre, hone, hfs⟩ := h.split
  refine ⟨h.sub, h.kept, ⟨pre ++ [.node v []], by rw [hpre, List.append_assoc, List.singleton_append], ?_, ?_⟩, h.bad⟩
  · intro t ht
    rcases List.mem_append.1 ht with hin | hlast
    · exact hone t hin
    · exact ⟨v, List.mem_singleton.1 hlast, hv⟩
  · rw [List.reverse_cons, hfs, List.flatMap_append]
    rfl

theorem Progress.restart {mv : ℕ} (h : Progress gscc ex ln g₀ g sccs fs lb)
    (hbad : BadLoop ex ln g → BadLoop ex ln (deleteInto mv g)) :
    Progress gscc ex ln g₀ (deleteInto mv g) (gscc (deleteInto mv g)) [] (mv :: lb) := by
  refine ⟨h.sub.delete mv, fun v w hedge hw => ?_,
    ⟨[], rfl, fun _ ht => absurd ht List.not_mem_nil, rfl⟩, fun hb => hbad (h.bad hb)⟩
  obtain ⟨hne, hlb⟩ := not_or.1 (mt List.mem_cons.2 hw)
  exact edge_delete (h.kept v w hedge hlb) hne

/-- Where every component is a single node without a loop, `f` is done. -/
theorem Progress.broken (h : Progress gscc ex ln g₀ g [] fs lb) (hscc : IsSccs g (gscc g)) (hrange : InRange g₀) :
    Broken ex ln g₀ lb fs.reverse := by
  obtain ⟨pre, hpre, hone, hfs⟩ := h.split
  rw [List.append_nil] at hpre
  have hrange' := h.sub.inRange hrange
  -- two nodes of one loop would be in one component
  have heq : ∀ v w, Path g v w → Path g w v → v < g.length → w = v := by
    intro v w hvw hwv hv
    have hmem := hscc.perm.mem_iff.2 (List.mem_range.2 hv)
    obtain ⟨t, ht, hvt⟩ := List.mem_flatMap.1 hmem
    obtain ⟨l, r, hsplit⟩ := List.append_of_mem ht
    have hw := same_tree (hsplit ▸ hscc.toIsScc) hrange' hvt hvw hwv
    obtain ⟨u, rfl, -⟩ := hone t (hpre ▸ ht)
    have hdec : (Tree.node u []).dec = [u] := rfl
    rw [hdec, List.mem_singleton] at hvt hw
    rw [hvt, hw]
  have hself : ∀ v, v < g.length → ¬ Edge g v v := by
    intro v hv
    have hmem := hscc.perm.mem_iff.2 (List.mem_range.2 hv)
    obtain ⟨t, ht, hvt⟩ := List.mem_flatMap.1 hmem
    obtain ⟨u, rfl, hu⟩ := hone t (hpre ▸ ht)
    have hdec : (Tree.node u []).dec = [u] := rfl
    rw [hdec, List.mem_singleton] at hvt
    rwa [hvt]
  refine ⟨?_, ?_, fun v hcycle => ?_, fun hb => ?_⟩
  · rw [hfs, ← hpre, ← h.sub.1]
    exact hscc.perm
  · rw [hfs, ← hpre]
    refine List.pairwise_flatMap.2 ⟨fun t ht => ?_, hscc.order.imp fun hout v hv w hw hedge => ?_⟩
    · obtain ⟨u, rfl, -⟩ := hone t (hpre ▸ ht)
      exact List.pairwise_singleton _ _
    · by_contra hlb
      exact hout v hv w hw (h.kept v w hedge hlb)
  · have hcycle' : Relation.TransGen (Edge g) v v :=
      Relation.TransGen.mono (fun x y hxy => h.kept x y hxy.1 hxy.2) v v hcycle
    obtain ⟨u, hvu, huv⟩ := Relation.TransGen.head'_iff.1 hcycle'
    have hv : v < g.length := by
      obtain ⟨x, -, hxv⟩ := Relation.TransGen.tail'_iff.1 hcycle'
      exact hrange' x v hxv
    have hu := heq v u (.single hvu) huv hv
    rw [hu] at hvu
    exact hself v hv hvu
  · obtain ⟨v, w, hne, hvw, hwv⟩ := h.bad hb
    have hv : v < g.length := by
      rcases Relation.ReflTransGen.cases_tail hwv with hsame | ⟨x, -, hedge⟩
      · exact absurd hsame hne
      · exact hrange' x v hedge.1
    exact hne (heq v w hvw.path hwv.path hv).symm

/-- A restart has one edge less, and at most as many components as there are nodes. -/
theorem restart_fuel (hscc : ∀ g, SubGraph g g₀ → IsSccs g (gscc g)) (hsub : SubGraph g g₀) {mv u : ℕ}
    (hedge : Edge g u mv) (k : ℕ) {n : ℕ}
    (hn : n ≤ edgeCount (deleteInto mv g) * (g₀.length + 1) + (gscc (deleteInto mv g)).length) :
    n + 1 ≤ edgeCount g * (g₀.length + 1) + k := by
  have hforest := forest_length (hscc _ (hsub.delete mv)).toIsScc
  rw [(hsub.delete mv).1] at hforest
  have hmul := Nat.mul_le_mul_right (g₀.length + 1) (Nat.succ_le_of_lt (edgeCount_delete hedge))
  rw [Nat.succ_mul] at hmul
  omega

open findLoopBreakers in
/-- One call of `f`: it returns, it meets a component without a suitable node, or it needs
more fuel than it has. -/
theorem f_ensures (hscc : ∀ g, SubGraph g g₀ → IsSccs g (gscc g)) (hrange : InRange g₀) (fuel : ℕ)
    (h : Progress gscc ex ln g₀ g sccs fs lb) :
    Ensures (f gscc func ex ln fuel g sccs fs lb) (fun r => Broken ex ln g₀ r.1 r.2.reverse)
      (BadLoop ex ln g₀) (fuel ≤ edgeCount g * (g₀.length + 1) + sccs.length) := by
  induction fuel generalizing g sccs fs lb with
  | zero =>
    cases sccs with
    | nil => exact h.broken (hscc g h.sub) hrange
    | cons t sccs => exact Nat.zero_le _
  | succ fuel ih =>
    cases sccs with
    | nil => exact h.broken (hscc g h.sub) hrange
    | cons t sccs =>
      have hrange' := h.sub.inRange hrange
      obtain ⟨pre, hpre, -, -⟩ := h.split
      have hforest : IsSccs g (pre ++ t :: sccs) := hpre ▸ hscc g h.sub
      obtain ⟨v, ts⟩ := t
      cases ts with
      | nil =>
        have hdec : (Tree.node v []).dec = [v] := rfl
        unfold f
        split_ifs with hself
        · -- a node with an edge to itself becomes a breaker, suitable or not
          have hout : ∀ w, w ≠ v → BadPath ex ln g v w → ¬ BadPath ex ln g w v := by
            intro w hne hvw hwv
            have hw := same_tree hforest.toIsScc hrange' (by simp [hdec]) hvw.path hwv.path
            rw [hdec, List.mem_singleton] at hw
            exact hne hw
          refine (ih (h.restart fun hb => hb.delete hout)).mono (fun _ hr => hr) id fun hn => ?_
          exact restart_fuel hscc h.sub hself _ hn
        · refine (ih (h.skip hself)).mono (fun _ hr => hr) id fun hn => ?_
          rw [List.length_cons]
          omega
      | cons t ts =>
        obtain ⟨w, hw⟩ := root_mem t
        have hroot : v ∈ (Tree.node v (t :: ts)).dec := List.mem_cons_self
        have hother : w ∈ (Tree.node v (t :: ts)).dec :=
          List.mem_cons_of_mem _ (List.mem_append_left _ hw)
        have hne : v ≠ w := by
          rintro rfl
          exact (List.nodup_cons.1 (dec_nodup hforest.toIsScc).1).1 (List.mem_append_left _ hw)
        unfold f
        cases hmv : breaker func ex ln (Tree.node v (t :: ts)).dec with
        | none =>
          exact (badLoop_of_tree hforest hrange' hroot hother hne fun x hx => breaker_none hmv hx).sub h.sub
        | some mv =>
          obtain ⟨hmem, helig⟩ := breaker_some hmv
          have hedge : ∃ u, Edge g u mv := by
            by_cases hvm : v = mv
            · subst hvm
              exact edge_into hforest hmem hother hne.symm
            · exact edge_into hforest hmem hroot hvm
          obtain ⟨u, hu⟩ := hedge
          refine (ih (h.restart fun hb => hb.delete (eligible_out helig))).mono (fun _ hr => hr) id
            fun hn => ?_
          exact restart_fuel hscc h.sub hu _ hn

end Loop

/-- With enough fuel: where every loop through at least two nodes has a suitable one, the nodes
come in an order of dependency and the breakers break every loop; otherwise `error` is called. -/
theorem findLoopBreakers_breaks {ν : Type} (gscc : List (List ℕ) → List Tree) (func : ν → ℤ) (ex : ν → Bool)
    (g : Graph ν) (hlen : g.table.length = g.edges.length) (hrange : InRange g.edges)
    (hscc : ∀ es, SubGraph es g.edges → IsSccs es (gscc es)) :
    ∃ N, ∀ fuel ≥ N,
      (¬ BadLoop ex g.table g.edges → ∃ lb xs, findLoopBreakers gscc func ex fuel g =
          .ok (lb.filterMap (g.table[·]?), xs.filterMap (g.table[·]?)) ∧
        (xs.filterMap (g.table[·]?)).Perm g.table ∧ Broken ex g.table g.edges lb xs) ∧
      (BadLoop ex g.table g.edges → findLoopBreakers gscc func ex fuel g = .error .fail) := by
  refine ⟨edgeCount g.edges * (g.edges.length + 1) + (gscc g.edges).length + 1, fun fuel hfuel => ?_⟩
  have hrun : Ensures (findLoopBreakers.f gscc func ex g.table fuel g.edges (gscc g.edges) [] []) _ _ _ :=
    f_ensures hscc hrange fuel (progress_start gscc ex g.table g.edges)
  unfold findLoopBreakers
  match hres : findLoopBreakers.f gscc func ex g.table fuel g.edges (gscc g.edges) [] [] with
  | .ok (lb, fs) =>
    rw [hres] at hrun
    have hbroken : Broken ex g.table g.edges lb fs.reverse := hrun
    refine ⟨fun _ => ⟨(lb.mergeSort fun a b => a ≤ b).dedup, fs.reverse, ?_, ?_, ?_⟩,
      fun hb => absurd hb hbroken.suitable⟩
    · rw [List.filterMap_reverse]
      rfl
    · have hperm := hbroken.perm.filterMap (g.table[·]?)
      rwa [← hlen, filterMap_range] at hperm
    · have hmem : ∀ w, w ∈ (lb.mergeSort fun a b => a ≤ b).dedup ↔ w ∈ lb := by simp
      refine ⟨hbroken.perm, hbroken.order.imp fun hvw hedge => (hmem _).2 (hvw hedge),
        fun v hcycle => hbroken.acyclic v ?_, hbroken.suitable⟩
      exact Relation.TransGen.mono (fun x y hxy => ⟨hxy.1, fun hy => hxy.2 ((hmem y).2 hy)⟩) v v hcycle
  | .error .fail =>
    rw [hres] at hrun
    exact ⟨fun hb => absurd hrun hb, fun _ => rfl⟩
  | .error .outOfFuel =>
    rw [hres] at hrun
    have hle : fuel ≤ edgeCount g.edges * (g.edges.length + 1) + (gscc g.edges).length := hrun
    omega

/-! ### Two nodes that depend on each other -/

def twoNodes : Graph ℕ := ⟨[[1], [0]], [10, 20]⟩

/-- The components of a graph with the edges of `twoNodes` or some of them. -/
def twoNodesScc (es : List (List ℕ)) : List Tree :=
  if es = [[1], [0]] then [.node 0 [.node 1 []]]
  else if es = [[1], []] then [.node 1 [], .node 0 []]
  else [.node 0 [], .node 1 []]

theorem twoNodesScc_spec (es : List (List ℕ)) (h : SubGraph es twoNodes.edges) : IsSccs es (twoNodesScc es) := by
  obtain ⟨hlen, hsub⟩ := h
  match es, hlen with
  | [x, y], _ =>
    have hx : x.Sublist [1] := hsub 0
    have hy : y.Sublist [0] := hsub 1
    have hone : ∀ (g : List (List ℕ)) (v : ℕ), ∀ u ∈ (Tree.node v []).dec, ∀ w ∈ (Tree.node v []).dec, Path g u w := by
      intro g v u hu w hw
      have hdec : (Tree.node v []).dec = [v] := rfl
      rw [hdec, List.mem_singleton] at hu hw
      rw [hu, hw]
    rcases List.sublist_singleton.1 hx with rfl | rfl <;> rcases List.sublist_singleton.1 hy with rfl | rfl
    · refine ⟨⟨by decide, by decide⟩, fun t ht => ?_⟩
      rcases List.mem_pair.1 ht with rfl | rfl <;> exact hone _ _
    · refine ⟨⟨by decide, by decide⟩, fun t ht => ?_⟩
      rcases List.mem_pair.1 ht with rfl | rfl <;> exact hone _ _
    · refine ⟨⟨by decide, by decide⟩, fun t ht => ?_⟩
      rcases List.mem_pair.1 ht with rfl | rfl <;> exact hone _ _
    · refine ⟨⟨by decide, by decide⟩, fun t ht => ?_⟩
      have h01 : Edge [[1], [0]] 0 1 := List.mem_singleton.2 rfl
      have h10 : Edge [[1], [0]] 1 0 := List.mem_singleton.2 rfl
      have hdec : (Tree.node 0 [.node 1 []]).dec = [0, 1] := rfl
      obtain rfl := List.mem_singleton.1 ht
      rw [hdec]
      intro u hu w hw
      rcases List.mem_pair.1 hu with rfl | rfl <;> rcases List.mem_pair.1 hw with rfl | rfl
      exacts [.refl, .single h01, .single h10, .refl]

/-- Where both nodes are suitable, the first one is the breaker. -/
theorem findLoopBreakers_breaks_twoNodes :
    ∃ N, ∀ fuel ≥ N,
      (¬ BadLoop (fun _ => true) twoNodes.table twoNodes.edges →
        ∃ lb xs, findLoopBreakers twoNodesScc (fun _ => 0) (fun _ => true) fuel twoNodes =
          .ok (lb.filterMap (twoNodes.table[·]?), xs.filterMap (twoNodes.table[·]?)) ∧
        (xs.filterMap (twoNodes.table[·]?)).Perm twoNodes.table ∧
          Broken (fun _ => true) twoNodes.table twoNodes.edges lb xs) ∧
      (BadLoop (fun _ => true) twoNodes.table twoNodes.edges →
        findLoopBreakers twoNodesScc (fun _ => 0) (fun _ => true) fuel twoNodes = .error .fail) := by
  refine findLoopBreakers_breaks twoNodesScc (fun _ => 0) (fun _ => true) twoNodes rfl ?_ twoNodesScc_spec
  intro v w hedge
  have hlt : v < 2 := by
    by_contra hge
    have hnone : twoNodes.edges[v]? = none := List.getElem?_eq_none (not_lt.1 hge)
    simp [Edge, succs, hnone] at hedge
  obtain rfl | rfl : v = 0 ∨ v = 1 := by omega
  · obtain rfl := List.mem_singleton.1 hedge
    decide
  · obtain rfl := List.mem_singleton.1 hedge
    decide

/-- Where neither is, the program stops, whatever the score. -/
theorem findLoopBreakers_stops (fuel : ℕ) :
    findLoopBreakers twoNodesScc (fun _ => 0) (fun _ => false) (fuel + 1) twoNodes = .error .fail := by
  have hb : breaker (fun _ => 0) (fun _ => false) twoNodes.table (Tree.node 0 [.node 1 []]).dec = none := by
    simp [breaker]
  have hscc : twoNodesScc twoNodes.edges = [.node 0 [.node 1 []]] := rfl
  unfold findLoopBreakers
  rw [hscc]
  unfold findLoopBreakers.f
  rw [hb]
  rfl

theorem findLoopBreakers_order_wrong :
    ¬ ∀ (gscc : List (List ℕ) → List Tree) (ex : ℕ → Bool) (g : Graph ℕ),
      (∀ es, SubGraph es g.edges → IsSccs es (gscc es)) →
      ∃ fuel lb xs, findLoopBreakers gscc (fun _ => 0) ex fuel g = .ok (lb, xs) ∧ xs.Perm g.table := by
  intro hall
  obtain ⟨fuel, lb, xs, hrun, -⟩ := hall twoNodesScc (fun _ => false) twoNodes twoNodesScc_spec
  cases fuel with
  | zero => cases hrun
  | succ fuel =>
    rw [findLoopBreakers_stops] at hrun
    cases hrun

end Jhc.Util

import Jhc.Util.GroupOverlapping
import Mathlib.Data.List.Pairwise

/-!
# Binding groups (src/Util/Graph.hs:257-270)

`stronglyConnComp` of the containers package is a parameter; `IsStronglyConnComp` is what its documentation
says of a graph with distinct keys.
-/

namespace Jhc.Util
open Jhc.Lib UnionFindST Relation

inductive SCC (α : Type) where
  | acyclicSCC (v : α)
  | cyclicSCC (vs : List α)

namespace SCC

variable {α β : Type}

def flatten : SCC α → List α
  | acyclicSCC v => [v]
  | cyclicSCC vs => vs

def map (f : α → β) : SCC α → SCC β
  | acyclicSCC v => acyclicSCC (f v)
  | cyclicSCC vs => cyclicSCC (vs.map f)

end SCC

section
variable {α κ : Type}

/-- Edges go to the vertices whose keys are in the list; other keys there are ignored. -/
def KeyEdge (es : List (α × κ × List κ)) (v w : α × κ × List κ) : Prop := v ∈ es ∧ w ∈ es ∧ w.2.1 ∈ v.2.2

/-- The components of a graph: a vertex in no cycle, or a maximal set of vertices that reach each other; in
reverse topological order. -/
structure Components (es : List (α × κ × List κ)) (cs : List (SCC (α × κ × List κ))) : Prop where
  perm : (cs.flatMap SCC.flatten).Perm es
  acyclic : ∀ v, .acyclicSCC v ∈ cs → ¬ TransGen (KeyEdge es) v v
  cyclic : ∀ vs, .cyclicSCC vs ∈ cs → vs ≠ [] ∧ ∀ v ∈ vs, ∀ w ∈ es,
    w ∈ vs ↔ TransGen (KeyEdge es) v w ∧ TransGen (KeyEdge es) w v
  order : cs.Pairwise fun c c' => ∀ v ∈ c.flatten, ∀ w ∈ c'.flatten, ¬ KeyEdge es v w

def IsStronglyConnComp (es : List (α × κ × List κ)) (out : List (SCC α)) : Prop :=
  ∃ cs, Components es cs ∧ out = cs.map (SCC.map Prod.fst)

end

variable {ν κ : Type} [LinearOrder κ]

/-- The graph of the groups. -/
def groupGraph (fd : ν → List κ) (mp : List (κ × ℕ)) (ns' : List (ℕ × List ν)) :
    List (List ν × Option ℕ × List (Option ℕ)) :=
  ns'.map fun g => (g.2, some g.1, (g.2.flatMap fd).map fun b => mp.lookup b)

def bindGroup : SCC (List ν) → List ν ⊕ List (List ν)
  | .acyclicSCC x => .inl x
  | .cyclicSCC xs => .inr xs

def getBindGroups (stronglyConnComp : List (List ν × Option ℕ × List (Option ℕ)) → List (SCC (List ν))) (n : ℕ)
    (ns : List ν) (fn fd : ν → List κ) : Option (List (List ν ⊕ List (List ν))) := do
  let (mp, ns') ← groupOverlapping n fn ns
  return (stronglyConnComp (groupGraph fd mp ns')).map bindGroup

/-! ### What the groups are -/

/-- A node of the one group has a dependency that a node of the other defines. -/
def DependsOn (fn fd : ν → List κ) (g g' : List (Element ν)) : Prop :=
  ∃ x ∈ g, ∃ y ∈ g', ∃ b ∈ fd x.fromElement, b ∈ fn y.fromElement

/-- Dependencies among these groups. -/
def Among (fn fd : ν → List κ) (gs : List (List (Element ν))) (g g' : List (Element ν)) : Prop :=
  g ∈ gs ∧ g' ∈ gs ∧ DependsOn fn fd g g'

/-- The inner groups of a component. -/
def innerGroups {α : Type} : α ⊕ List α → List α
  | .inl g => [g]
  | .inr gs => gs

/-- Binding groups of the nodes, with the places of these: a group is what is linked by overlaps, a component
what depends on each other, and each comes after those that it depends on. -/
structure ExactGroups (fn fd : ν → List κ) (ns : List ν)
    (cs : List (List (Element ν) ⊕ List (List (Element ν)))) : Prop where
  once : (cs.flatMap innerGroups).flatten.Perm (elements 0 ns)
  nonempty : ∀ g ∈ cs.flatMap innerGroups, g ≠ []
  linked : ∀ g ∈ cs.flatMap innerGroups, ∀ x ∈ g, ∀ y ∈ elements 0 ns,
    y ∈ g ↔ Linked fn (elements 0 ns) x y
  cyclic : ∀ g ∈ cs.flatMap innerGroups, ∀ g' ∈ cs.flatMap innerGroups,
    (∃ gs, .inr gs ∈ cs ∧ g ∈ gs ∧ g' ∈ gs) ↔
      TransGen (Among fn fd (cs.flatMap innerGroups)) g g' ∧ TransGen (Among fn fd (cs.flatMap innerGroups)) g' g
  occupied : ∀ gs, .inr gs ∈ cs → gs ≠ []
  order : cs.Pairwise fun c c' => ∀ g ∈ innerGroups c, ∀ g' ∈ innerGroups c', ¬ DependsOn fn fd g g'

/-- The nodes without their places. -/
def forgetPlaces : List (Element ν) ⊕ List (List (Element ν)) → List ν ⊕ List (List ν) :=
  Sum.map (List.map Element.fromElement) (List.map (List.map Element.fromElement))

/-! ### Groups as vertices -/

section
variable {fn fd : ν → List κ} {E : List (Element ν)} {mp : List (κ × ℕ)} {groups : List (ℕ × List (Element ν))}
  {p q : ℕ × List (Element ν)}

def vertex (fd : ν → List κ) (mp : List (κ × ℕ)) (p : ℕ × List (Element ν)) :
    List ν × Option ℕ × List (Option ℕ) :=
  ((values p).2, some (values p).1, ((values p).2.flatMap fd).map fun b => mp.lookup b)

/-- The group with the key of a vertex. -/
def groupOf (groups : List (ℕ × List (Element ν))) (v : List ν × Option ℕ × List (Option ℕ)) : List (Element ν) :=
  ((groups.find? fun p => some p.1 = v.2.1).map Prod.snd).getD []

theorem groupGraph_eq (fd : ν → List κ) (mp : List (κ × ℕ)) (groups : List (ℕ × List (Element ν))) :
    groupGraph fd mp (groups.map values) = groups.map (vertex fd mp) := by
  rw [groupGraph, List.map_map]
  rfl

theorem Grouped.eq_of_key (h : Grouped fn E mp groups) (hp : p ∈ groups) (hq : q ∈ groups) (hkey : p.1 = q.1) :
    p = q := List.inj_on_of_nodup_map h.keys hp hq hkey

theorem Grouped.groupOf_vertex (fd : ν → List κ) (h : Grouped fn E mp groups) (hp : p ∈ groups) :
    groupOf groups (vertex fd mp p) = p.2 := by
  have hfind : (groups.find? fun q => some q.1 = (vertex fd mp p).2.1).isSome :=
    List.find?_isSome.mpr ⟨p, hp, decide_eq_true rfl⟩
  obtain ⟨q, hq⟩ := Option.isSome_iff_exists.mp hfind
  have hkey := List.find?_some hq
  obtain rfl := h.eq_of_key (List.mem_of_find?_eq_some hq) hp (Option.some.inj (of_decide_eq_true hkey))
  rw [groupOf, hq]
  rfl

theorem Grouped.eq_of_snd (h : Grouped fn E mp groups) (hE : E.Nodup) (hp : p ∈ groups) (hq : q ∈ groups)
    (heq : p.2 = q.2) : p = q := by
  by_contra hne
  obtain ⟨-, hdis⟩ := List.nodup_flatMap.mp (h.perm.nodup_iff.mpr hE)
  obtain ⟨x, hx⟩ := List.exists_mem_of_ne_nil _ (h.nonempty p hp)
  have hsymm : Std.Symm (Function.onFun List.Disjoint (Prod.snd : ℕ × List (Element ν) → _)) :=
    ⟨fun _ _ h x hx hx' => h hx' hx⟩
  exact hdis.forall hp hq hne hx (heq ▸ hx)

/-- An edge of the graph is a dependency between the groups. -/
theorem Grouped.edge_iff (h : Grouped fn E mp groups) (hp : p ∈ groups) (hq : q ∈ groups) :
    KeyEdge (groups.map (vertex fd mp)) (vertex fd mp p) (vertex fd mp q) ↔ DependsOn fn fd p.2 q.2 := by
  have hmem : (vertex fd mp q).2.1 ∈ (vertex fd mp p).2.2 ↔ DependsOn fn fd p.2 q.2 := by
    constructor
    · intro hedge
      obtain ⟨b, hb, hlook⟩ := List.mem_map.mp hedge
      obtain ⟨n, hn, hbn⟩ := List.mem_flatMap.mp hb
      obtain ⟨x, hx, rfl⟩ := List.mem_map.mp hn
      obtain ⟨g, hg, hkey, y, hy, hby⟩ := (h.key b q.1).mp hlook
      obtain rfl := h.eq_of_key hg hq hkey
      exact ⟨x, hx, y, hy, b, hbn, hby⟩
    · rintro ⟨x, hx, y, hy, b, hbx, hby⟩
      refine List.mem_map.mpr ⟨b, List.mem_flatMap.mpr ⟨_, List.mem_map_of_mem hx, hbx⟩, ?_⟩
      exact (h.key b q.1).mpr ⟨q, hq, rfl, y, hy, hby⟩
  rw [KeyEdge, hmem]
  exact ⟨fun h => h.2.2, fun h => ⟨List.mem_map_of_mem hp, List.mem_map_of_mem hq, h⟩⟩

theorem Grouped.trans_iff (h : Grouped fn E mp groups) (hE : E.Nodup) (hp : p ∈ groups) (hq : q ∈ groups) :
    TransGen (KeyEdge (groups.map (vertex fd mp))) (vertex fd mp p) (vertex fd mp q) ↔
      TransGen (Among fn fd (groups.map Prod.snd)) p.2 q.2 := by
  constructor
  · intro hpq
    rw [← h.groupOf_vertex fd hp, ← h.groupOf_vertex fd hq]
    refine hpq.lift (groupOf groups) fun v w hvw => ?_
    obtain ⟨p', hp', rfl⟩ := List.mem_map.mp hvw.1
    obtain ⟨q', hq', rfl⟩ := List.mem_map.mp hvw.2.1
    rw [Function.onFun_apply, h.groupOf_vertex fd hp', h.groupOf_vertex fd hq']
    exact ⟨List.mem_map_of_mem hp', List.mem_map_of_mem hq', (h.edge_iff hp' hq').mp hvw⟩
  · intro hpq
    suffices hex : ∀ g', TransGen (Among fn fd (groups.map Prod.snd)) p.2 g' → ∃ q' ∈ groups, q'.2 = g' ∧
        TransGen (KeyEdge (groups.map (vertex fd mp))) (vertex fd mp p) (vertex fd mp q') by
      obtain ⟨q', hq', heq, htrans⟩ := hex q.2 hpq
      obtain rfl := h.eq_of_snd hE hq' hq heq
      exact htrans
    intro g' hg'
    induction hg' with
    | single hdep =>
      obtain ⟨q', hq', rfl⟩ := List.mem_map.mp hdep.2.1
      exact ⟨q', hq', rfl, .single ((h.edge_iff hp hq').mpr hdep.2.2)⟩
    | tail _ hdep ih =>
      obtain ⟨q₁, hq₁, rfl, htrans⟩ := ih
      obtain ⟨q', hq', rfl⟩ := List.mem_map.mp hdep.2.1
      exact ⟨q', hq', rfl, htrans.tail ((h.edge_iff hq₁ hq').mpr hdep.2.2)⟩

/-- A component of the graph, of groups again. -/
def unvertex (groups : List (ℕ × List (Element ν))) :
    SCC (List ν × Option ℕ × List (Option ℕ)) → List (Element ν) ⊕ List (List (Element ν))
  | .acyclicSCC v => .inl (groupOf groups v)
  | .cyclicSCC vs => .inr (vs.map (groupOf groups))

theorem innerGroups_unvertex (c : SCC (List ν × Option ℕ × List (Option ℕ))) :
    innerGroups (unvertex groups c) = c.flatten.map (groupOf groups) := by
  cases c <;> rfl

theorem Grouped.forgetPlaces_unvertex (fd : ν → List κ) (h : Grouped fn E mp groups) {c : SCC (List ν × Option ℕ × List (Option ℕ))}
    (hc : ∀ v ∈ c.flatten, v ∈ groups.map (vertex fd mp)) :
    bindGroup (c.map Prod.fst) = forgetPlaces (unvertex groups c) := by
  have hnodes : ∀ v ∈ c.flatten, v.1 = (groupOf groups v).map Element.fromElement := by
    intro v hv
    obtain ⟨p, hp, rfl⟩ := List.mem_map.mp (hc v hv)
    rw [h.groupOf_vertex fd hp]
    rfl
  cases c with
  | acyclicSCC v => exact congrArg Sum.inl (hnodes v (List.mem_singleton_self v))
  | cyclicSCC vs =>
    refine congrArg Sum.inr ?_
    rw [List.map_map]
    exact List.map_congr_left hnodes

/-- The components of the graph of the groups are the binding groups. -/
theorem Grouped.exactGroups {ns : List ν} (h : Grouped fn (elements 0 ns) mp groups)
    {cs : List (SCC (List ν × Option ℕ × List (Option ℕ)))} (hcs : Components (groups.map (vertex fd mp)) cs) :
    ExactGroups fn fd ns (cs.map (unvertex groups)) := by
  have hE : (elements 0 ns).Nodup := List.Nodup.of_map _ (nodup_elements 0 ns)
  have hback : (groups.map (vertex fd mp)).map (groupOf groups) = groups.map Prod.snd := by
    rw [List.map_map]
    exact List.map_congr_left fun p hp => h.groupOf_vertex fd hp
  have hinner : ((cs.map (unvertex groups)).flatMap innerGroups).Perm (groups.map Prod.snd) := by
    have heq : (cs.map (unvertex groups)).flatMap innerGroups = (cs.flatMap SCC.flatten).map (groupOf groups) := by
      rw [List.flatMap_map, List.map_flatMap]
      exact List.flatMap_congr fun c _ => innerGroups_unvertex c
    rw [heq, ← hback]
    exact hcs.perm.map _
  have hmem : ∀ g, g ∈ (cs.map (unvertex groups)).flatMap innerGroups ↔ ∃ p ∈ groups, p.2 = g := fun g =>
    hinner.mem_iff.trans List.mem_map
  have hamong : Among fn fd ((cs.map (unvertex groups)).flatMap innerGroups) =
      Among fn fd (groups.map Prod.snd) := by
    funext g g'
    simp only [Among, hinner.mem_iff]
  have hvertex : ∀ c ∈ cs, ∀ v ∈ c.flatten, ∃ p ∈ groups, vertex fd mp p = v := fun c hc v hv =>
    List.mem_map.mp (hcs.perm.mem_iff.mp (List.mem_flatMap.mpr ⟨c, hc, hv⟩))
  constructor
  case once =>
    refine (hinner.flatten).trans ?_
    rw [← List.flatMap_def]
    exact h.perm
  case nonempty =>
    intro g hg
    obtain ⟨p, hp, rfl⟩ := (hmem g).mp hg
    exact h.nonempty p hp
  case linked =>
    intro g hg
    obtain ⟨p, hp, rfl⟩ := (hmem g).mp hg
    exact h.linked p hp
  case cyclic =>
    intro g hg g' hg'
    obtain ⟨p, hp, rfl⟩ := (hmem g).mp hg
    obtain ⟨q, hq, rfl⟩ := (hmem g').mp hg'
    rw [hamong, ← h.trans_iff hE hp hq, ← h.trans_iff hE hq hp]
    constructor
    · rintro ⟨gs, hgs, hgp, hgq⟩
      obtain ⟨c, hc, hcgs⟩ := List.mem_map.mp hgs
      cases c with
      | acyclicSCC v => cases hcgs
      | cyclicSCC vs =>
        cases hcgs
        have hin {r : ℕ × List (Element ν)} (hr : r ∈ groups) (hrg : r.2 ∈ vs.map (groupOf groups)) :
            vertex fd mp r ∈ vs := by
          obtain ⟨v, hv, hvr⟩ := List.mem_map.mp hrg
          obtain ⟨r', hr', rfl⟩ := hvertex _ hc v hv
          rw [h.groupOf_vertex fd hr'] at hvr
          obtain rfl := h.eq_of_snd hE hr' hr hvr
          exact hv
        exact ((hcs.cyclic vs hc).2 _ (hin hp hgp) _ (List.mem_map_of_mem hq)).mp (hin hq hgq)
    · rintro ⟨hpq, hqp⟩
      obtain ⟨c, hc, hpc⟩ := List.mem_flatMap.mp (hcs.perm.mem_iff.mpr (List.mem_map_of_mem hp))
      cases c with
      | acyclicSCC v =>
        obtain rfl := List.mem_singleton.mp hpc
        exact absurd (hpq.trans hqp) (hcs.acyclic _ hc)
      | cyclicSCC vs =>
        have hqc := ((hcs.cyclic vs hc).2 _ hpc _ (List.mem_map_of_mem hq)).mpr ⟨hpq, hqp⟩
        have hgroup {r : ℕ × List (Element ν)} (hr : r ∈ groups) (hrc : vertex fd mp r ∈ vs) :
            r.2 ∈ vs.map (groupOf groups) := List.mem_map.mpr ⟨_, hrc, h.groupOf_vertex fd hr⟩
        exact ⟨vs.map (groupOf groups), List.mem_map.mpr ⟨_, hc, rfl⟩, hgroup hp hpc, hgroup hq hqc⟩
  case occupied =>
    intro gs hgs hnil
    obtain ⟨c, hc, hcgs⟩ := List.mem_map.mp hgs
    cases c with
    | acyclicSCC v => cases hcgs
    | cyclicSCC vs =>
      cases hcgs
      exact (hcs.cyclic vs hc).1 (List.map_eq_nil_iff.mp hnil)
  case order =>
    refine List.pairwise_map.mpr (hcs.order.imp_of_mem fun {c c'} hc hc' hno g hg g' hg' hdep => ?_)
    rw [innerGroups_unvertex] at hg hg'
    obtain ⟨v, hv, rfl⟩ := List.mem_map.mp hg
    obtain ⟨w, hw, rfl⟩ := List.mem_map.mp hg'
    obtain ⟨p, hp, rfl⟩ := hvertex c hc v hv
    obtain ⟨q, hq, rfl⟩ := hvertex c' hc' w hw
    rw [h.groupOf_vertex fd hp, h.groupOf_vertex fd hq] at hdep
    exact hno _ hv _ hw ((h.edge_iff hp hq).mpr hdep)

end

theorem getBindGroups_exact (stronglyConnComp : List (List ν × Option ℕ × List (Option ℕ)) → List (SCC (List ν)))
    (ns : List ν) (fn fd : ν → List κ)
    (hscc : ∀ mp ns', GroupsTo fn ns (mp, ns') →
      IsStronglyConnComp (groupGraph fd mp ns') (stronglyConnComp (groupGraph fd mp ns'))) :
    ∃ cs, ExactGroups fn fd ns cs ∧
      ∃ N, ∀ n, N ≤ n → getBindGroups stronglyConnComp n ns fn fd = some (cs.map forgetPlaces) := by
  obtain ⟨mp, groups, ⟨N, hN⟩, hg⟩ := groupOverlapping_groups fn ns
  obtain ⟨cs, hcs, hout⟩ := hscc mp _ ⟨N, hN⟩
  rw [groupGraph_eq] at hcs hout
  refine ⟨cs.map (unvertex groups), hg.exactGroups hcs, N, fun n hn => ?_⟩
  have hmap : (cs.map (SCC.map Prod.fst)).map bindGroup = (cs.map (unvertex groups)).map forgetPlaces := by
    rw [List.map_map, List.map_map]
    refine List.map_congr_left fun c hc => hg.forgetPlaces_unvertex fd fun v hv => ?_
    exact hcs.perm.mem_iff.mp (List.mem_flatMap.mpr ⟨c, hc, hv⟩)
  rw [getBindGroups, hN n hn]
  show some ((stronglyConnComp (groupGraph fd mp (groups.map values))).map bindGroup) = _
  rw [groupGraph_eq, hout, hmap]

/-! ### An example -/

/-- The names that a node defines, and those that it depends on. The third node shares a name with the first. -/
def mutualNodes : List (List ℕ × List ℕ) := [([0], [1]), ([1], [0]), ([2, 0], [])]

theorem mutualNodes_groupsTo : GroupsTo Prod.fst mutualNodes
    ([(0, 3), (1, 2), (2, 3)], [(2, [([1], [0])]), (3, [([0], [1]), ([2, 0], [])])]) := by
  refine ⟨4, fun n hn => ?_⟩
  obtain ⟨m, rfl⟩ := Nat.exists_eq_add_of_le' hn
  rfl

/-- The answer of `stronglyConnComp` there: one component of both groups. -/
def mutualComponents (_ : List (List (List ℕ × List ℕ) × Option ℕ × List (Option ℕ))) :
    List (SCC (List (List ℕ × List ℕ))) := [.cyclicSCC [[([1], [0])], [([0], [1]), ([2, 0], [])]]]

theorem mutualComponents_scc : IsStronglyConnComp
    [([([1], [0])], some 2, [some 3]), ([([0], [1]), ([2, 0], [])], some 3, [some 2])]
    (mutualComponents []) := by
  refine ⟨[.cyclicSCC [([([1], [0])], some 2, [some 3]), ([([0], [1]), ([2, 0], [])], some 3, [some 2])]], ?_, rfl⟩
  have hedges : KeyEdge [([([1], [0])], some 2, [some 3]), ([([0], [1]), ([2, 0], [])], some 3, [some 2])]
      ([([1], [0])], some 2, [some 3]) ([([0], [1]), ([2, 0], [])], some 3, [some 2]) ∧
      KeyEdge [([([1], [0])], some 2, [some 3]), ([([0], [1]), ([2, 0], [])], some 3, [some 2])]
      ([([0], [1]), ([2, 0], [])], some 3, [some 2]) ([([1], [0])], some 2, [some 3]) := by
    simp [KeyEdge]
  have hreach : ∀ v ∈ [([([1], [0])], some 2, [some 3]), ([([0], [1]), ([2, 0], [])], some 3, [some 2])],
      ∀ w ∈ [([([1], [0])], some 2, [some 3]), ([([0], [1]), ([2, 0], [])], some 3, [some 2])],
      TransGen (KeyEdge [([([1], [0])], some 2, [some 3]), ([([0], [1]), ([2, 0], [])], some 3, [some 2])]) v w := by
    simp only [List.forall_mem_cons, List.not_mem_nil, false_imp_iff, implies_true, and_true]
    exact ⟨⟨(TransGen.single hedges.1).tail hedges.2, .single hedges.1⟩, .single hedges.2,
      (TransGen.single hedges.2).tail hedges.1⟩
  constructor
  case perm => exact .refl _
  case acyclic => simp
  case cyclic =>
    intro vs hvs
    cases List.mem_singleton.mp hvs
    exact ⟨List.cons_ne_nil _ _, fun v hv w hw => ⟨fun _ => ⟨hreach v hv w hw, hreach w hw v hv⟩, fun _ => hw⟩⟩
  case order => exact List.pairwise_singleton ..

theorem getBindGroups_mutual : ∃ cs, ExactGroups Prod.fst Prod.snd mutualNodes cs ∧
    ∃ N, ∀ n, N ≤ n → getBindGroups mutualComponents n mutualNodes Prod.fst Prod.snd =
      some (cs.map forgetPlaces) := by
  refine getBindGroups_exact mutualComponents mutualNodes Prod.fst Prod.snd fun mp ns' h => ?_
  cases h.unique mutualNodes_groupsTo
  exact mutualComponents_scc

end Jhc.Util

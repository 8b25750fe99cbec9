import Mathlib.Data.List.Sort
import Jhc.UnionSolve.Constraints
import Jhc.UnionSolve.Variables

/-!
# The first phase of the solver (src/Util/UnionSolve.hs:146-203)

`doVar` keeps the graph of the classes, needs fuel in proportion to the number of
classes, and the fold over the constraints covers each of them.
-/

namespace Jhc.UnionSolve
open Jhc.Lib Relation

variable {l : Type}

/-! ### Equating two classes -/

/-- The fuel that `doVar` needs to equate two elements. -/
def need (n xe ye : ℕ) (s : UF l) : ℕ :=
  if xe = ye then 1
  else if s.root xe = s.root ye then 2 * classes n s + 2
  else 2 * classes n s + 1

/-- What equating two elements that the constraints put below each other gives. -/
structure Equated (K : ℕ → ℕ → Prop) (xe ye : ℕ) (s s' : UF l) : Prop where
  graph : Graph K s'
  grown : Grown s s'
  same : s'.root xe = s'.root ye
  idle : xe = ye → s' = s

def EqSpec (K : ℕ → ℕ → Prop) (n fuel : ℕ) (rec : ℕ → Op → ℕ → UF l → Except Stop (UF l)) : Prop :=
  ∀ xe ye s, Graph K s → xe < n → ReflTransGen K xe ye → ReflTransGen K ye xe →
    Ensures (rec xe .eq ye s) (Equated K xe ye s) False (fuel < need n xe ye s)

theorem below_bound {K : ℕ → ℕ → Prop} {n : ℕ} (hK : ∀ x y, K x y → x < n ∧ y < n) {x y : ℕ}
    (hx : x < n) (hxy : ReflTransGen K x y) : y < n := by
  cases hxy with
  | refl => exact hx
  | tail _ hstep => exact (hK _ _ hstep).2

section Steps

variable {K : ℕ → ℕ → Prop} {n fuel : ℕ} {rec : ℕ → Op → ℕ → UF l → Except Stop (UF l)}

/-- The lists of a class after `checkRS` has looked their elements up. -/
def refreshed (s : UF l) (ve : ℕ) : UF l :=
  s.putW ve (.ri none (setDelete ve (s.finds (s.lbOf ve))) none
    (setDelete ve (s.finds (s.ubOf ve))))

theorem refreshed_graph {s : UF l} (h : Graph K s) (ve : ℕ) : Graph K (refreshed s ve) := by
  apply put_graph h
  · intro z hz
    obtain ⟨z', hz', rfl⟩ := UF.mem_finds.mp (mem_setDelete.mp hz).1
    exact (h.merged z').2.trans (h.lower ve z' hz')
  · intro z hz
    obtain ⟨z', hz', rfl⟩ := UF.mem_finds.mp (mem_setDelete.mp hz).1
    exact (h.upper ve z' hz').trans (h.merged z').1

theorem refreshed_grown {s : UF l} (h : Graph K s) {ve : ℕ} (hroot : s.root ve = ve) :
    Grown s (refreshed s ve) := by
  have hmem : ∀ set : List ℕ, ∀ z ∈ set,
      s.root ve = s.root z ∨ ∃ z' ∈ setDelete ve (s.finds set), s.root z' = s.root z := by
    intro set z hz
    by_cases heq : s.root z = ve
    · exact Or.inl (hroot.trans heq.symm)
    · exact Or.inr ⟨s.root z, mem_setDelete.mpr ⟨UF.mem_finds.mpr ⟨z, hz, rfl⟩, heq⟩, h.idem z⟩
  exact put_grown (hmem _) (hmem _)

theorem checkRS_eq {s : UF l} (h : Graph K s) (ve : ℕ) : checkRS rec ve s =
    (setInter (s.finds (s.lbOf ve)) (s.finds (s.ubOf ve))).foldlM (fun s v => rec ve .eq v s)
      (refreshed s ve) := by
  obtain ⟨lb, ub, hget⟩ := h.bare ve
  obtain ⟨hlb, hub⟩ := UF.lists_of_getW hget
  unfold checkRS refreshed
  rw [hget, hlb, hub]

theorem checkRS_spec (hK : ∀ x y, K x y → x < n ∧ y < n) (hrec : EqSpec K n fuel rec) {s : UF l}
    (h : Graph K s) {ve : ℕ} (hve : ve < n) (hroot : s.root ve = ve) :
    Ensures (checkRS rec ve s) (fun s' => Graph K s' ∧ Grown s s') False
      (fuel < 2 * classes n s + 1) := by
  rw [checkRS_eq h]
  have hbetween : ∀ v ∈ setInter (s.finds (s.lbOf ve)) (s.finds (s.ubOf ve)),
      ReflTransGen K ve v ∧ ReflTransGen K v ve ∧ s.root v = v := by
    intro v hv
    obtain ⟨hlb, hub⟩ := mem_setInter.mp hv
    obtain ⟨z, hz, rfl⟩ := UF.mem_finds.mp hlb
    obtain ⟨z', hz', heq⟩ := UF.mem_finds.mp hub
    refine ⟨?_, (h.merged z).2.trans (h.lower ve z hz), h.idem z⟩
    rw [← heq]
    exact (h.upper ve z' hz').trans (h.merged z').1
  -- a class that is still as it was found is a class of its own; else there are fewer of them
  refine (Ensures.foldlM (F := False) (O := fuel < 2 * classes n s + 1)
    (fun vs t => Graph K t ∧ Grown s t ∧
      (∀ v ∈ vs, ReflTransGen K ve v ∧ ReflTransGen K v ve ∧ s.root v = v) ∧
      (t.root = s.root ∨ classes n t < classes n s)) ?_
    ⟨refreshed_graph h ve, refreshed_grown h hroot, hbetween, Or.inl rfl⟩).mono
    (fun t ht => ⟨ht.1, ht.2.1⟩) id id
  intro v vs t ⟨hg, hgrown, hvs, hfew⟩
  obtain ⟨hup, hdown, hv⟩ := hvs v List.mem_cons_self
  have hle := classes_le (n := n) h hgrown.same
  refine (hrec ve v t hg hve hup hdown).mono (fun t' ht' => ?_) id fun hfuel => ?_
  · refine ⟨ht'.graph, hgrown.trans ht'.grown, fun u hu => hvs u (List.mem_cons_of_mem v hu), ?_⟩
    by_cases heq : ve = v
    · rw [ht'.idle heq]
      exact hfew
    · have hne : s.root ve ≠ s.root v := by
        rw [hroot, hv]
        exact heq
      exact Or.inr (classes_lt h (hgrown.trans ht'.grown).same hve (below_bound hK hve hup) hne
        ht'.same)
  · unfold need at hfuel
    split_ifs at hfuel with heq hsame
    · omega
    · rcases hfew with hroots | hlt
      · rw [hroots, hroot, hv] at hsame
        exact absurd hsame heq
      · omega
    · omega

/-- `doEq` on the neighbours that `doVar` has looked up. -/
theorem doEq_spec (hK : ∀ x y, K x y → x < n ∧ y < n) (hrec : EqSpec K n fuel rec) {s : UF l}
    (h : Graph K s) {xe ye : ℕ} (hxe : xe < n) (hxy : ReflTransGen K xe ye)
    (hyx : ReflTransGen K ye xe) :
    Ensures (doEq rec xe (s.finds (s.lbOf xe)) (s.finds (s.ubOf xe)) ye (s.finds (s.lbOf ye))
        (s.finds (s.ubOf ye)) s)
      (fun s' => Graph K s' ∧ Grown s s' ∧ s'.root xe = s'.root ye) False
      (fuel + 1 < if s.root xe = s.root ye then 2 * classes n s + 2 else 2 * classes n s + 1) := by
  have hmg := merged_graph h hxy hyx
  have hms := merge_same s xe ye (s.finds (s.lbOf xe)) (s.finds (s.ubOf xe))
    (s.finds (s.lbOf ye)) (s.finds (s.ubOf ye))
  have hgrown : Grown s (merged s xe ye) := merged_grown h
  have hle := classes_le (n := n) h hgrown.same
  show Ensures (checkRS rec ((merged s xe ye).root xe) (merged s xe ye)) _ _ _
  have hrn := below_bound hK hxe (hmg.merged xe).1
  refine (checkRS_spec hK hrec hmg hrn (hmg.idem xe)).mono (fun t ht => ?_) id fun hfuel => ?_
  · exact ⟨ht.1, hgrown.trans ht.2, ht.2.same xe ye hms.1⟩
  · split_ifs with hsame
    · omega
    · have hlt := classes_lt h hgrown.same hxe (below_bound hK hxe hxy) hsame hms.1
      omega

theorem doVarF_eq_spec (hK : ∀ x y, K x y → x < n ∧ y < n) (hrec : EqSpec K n fuel rec) :
    EqSpec K n (fuel + 1) (doVarF rec) := by
  intro xe ye s h hxe hxy hyx
  unfold doVarF need
  split_ifs with heq hsame
  · subst heq
    exact ⟨h, Grown.refl s, rfl, fun _ => rfl⟩
  all_goals
    obtain ⟨xlb, xub, hx⟩ := h.bare xe
    obtain ⟨ylb, yub, hy⟩ := h.bare ye
    have hspec := doEq_spec hK hrec h hxe hxy hyx
    obtain ⟨hxlb, hxub⟩ := UF.lists_of_getW hx
    obtain ⟨hylb, hyub⟩ := UF.lists_of_getW hy
    rw [hxlb, hxub, hylb, hyub] at hspec
    rw [hx, hy]
    refine hspec.mono (fun t ht => ⟨ht.1, ht.2.1, ht.2.2, fun he => absurd he heq⟩) id fun hfuel => ?_
    simpa [hsame] using hfuel

end Steps

theorem doVar_eq_spec {K : ℕ → ℕ → Prop} {n : ℕ} (hK : ∀ x y, K x y → x < n ∧ y < n) (fuel : ℕ) :
    EqSpec (l := l) K n fuel (doVar fuel) := by
  induction fuel with
  | zero =>
    intro xe ye s _ _ _ _
    show 0 < need n xe ye s
    unfold need
    split_ifs <;> omega
  | succ fuel ih => exact doVarF_eq_spec hK ih

/-! ### Covering a constraint -/

/-- Each pair of `K` is a path in the graph, in both directions. -/
def Covers (K : ℕ → ℕ → Prop) (s : UF l) : Prop :=
  ∀ x y, K x y → ReflTransGen (Up s) x y ∧ ReflTransGen (Down s) y x

theorem Grown.paths {s s' : UF l} (h : Grown s s') {x y : ℕ}
    (hxy : ReflTransGen (Up s) x y ∧ ReflTransGen (Down s) y x) :
    ReflTransGen (Up s') x y ∧ ReflTransGen (Down s') y x :=
  ⟨ReflTransGen.mono h.up _ _ hxy.1, ReflTransGen.mono h.down _ _ hxy.2⟩

theorem Grown.covers {K : ℕ → ℕ → Prop} {s s' : UF l} (h : Grown s s') (hc : Covers K s) :
    Covers K s' := fun x y hxy => h.paths (hc x y hxy)

theorem Covers.path {K : ℕ → ℕ → Prop} {s : UF l} (h : Covers K s) {x y : ℕ}
    (hxy : ReflTransGen K x y) : ReflTransGen (Up s) x y ∧ ReflTransGen (Down s) y x := by
  induction hxy with
  | refl => exact ⟨.refl, .refl⟩
  | tail _ hstep ih => exact ⟨ih.1.trans (h _ _ hstep).1, (h _ _ hstep).2.trans ih.2⟩

section Lte

variable {K K' : ℕ → ℕ → Prop} {n fuel : ℕ} {rec : ℕ → Op → ℕ → UF l → Except Stop (UF l)}

/-- What `x <= y` between classes `xe` and `ye` has to give. -/
structure Ordered (K : ℕ → ℕ → Prop) (xe ye : ℕ) (s s' : UF l) : Prop where
  graph : Graph K s'
  grown : Grown s s'
  path : ReflTransGen (Up s') xe ye ∧ ReflTransGen (Down s') ye xe

theorem ordered_of_same {s s' : UF l} {xe ye : ℕ} (hg : Graph K s') (hgrown : Grown s s')
    (hsame : s'.root xe = s'.root ye) : Ordered K xe ye s s' :=
  ⟨hg, hgrown, ⟨.single (Or.inl hsame), .single (Or.inl hsame.symm)⟩⟩

theorem found_upper {s : UF l} (h : Graph K s) {x z : ℕ} (hz : z ∈ s.finds (s.ubOf x)) :
    ReflTransGen K x z := by
  obtain ⟨z', hz', rfl⟩ := UF.mem_finds.mp hz
  exact (h.upper x z' hz').trans (h.merged z').1

theorem found_lower {s : UF l} (h : Graph K s) {x z : ℕ} (hz : z ∈ s.finds (s.lbOf x)) :
    ReflTransGen K z x := by
  obtain ⟨z', hz', rfl⟩ := UF.mem_finds.mp hz
  exact (h.merged z').2.trans (h.lower x z' hz')

theorem kept {s : UF l} (h : Graph K s) (ve : ℕ) {set set' : List ℕ} (hsub : ∀ z ∈ s.finds set, z ∈ set')
    (z : ℕ) (hz : z ∈ set) : s.root ve = s.root z ∨ ∃ z' ∈ set', s.root z' = s.root z :=
  Or.inr ⟨s.root z, hsub _ (UF.mem_finds.mpr ⟨z, hz, rfl⟩), h.idem z⟩

/-- The neighbours of two classes are written back, perhaps with more of them. -/
theorem putBoth {s : UF l} (h : Graph K s) (hmono : ∀ x y, K x y → ReflTransGen K' x y) {xe ye : ℕ}
    (hne : s.root ye ≠ s.root xe) {xub ylb : List ℕ}
    (hxub : ∀ z ∈ s.finds (s.ubOf xe), z ∈ xub) (hxub' : ∀ z ∈ xub, ReflTransGen K' xe z)
    (hylb : ∀ z ∈ s.finds (s.lbOf ye), z ∈ ylb) (hylb' : ∀ z ∈ ylb, ReflTransGen K' z ye) :
    Graph K' ((s.putW xe (.ri none (s.finds (s.lbOf xe)) none xub)).putW ye
        (.ri none ylb none (s.finds (s.ubOf ye)))) ∧
      Grown s ((s.putW xe (.ri none (s.finds (s.lbOf xe)) none xub)).putW ye
        (.ri none ylb none (s.finds (s.ubOf ye)))) := by
  have hK := h.mono hmono
  have hone : Graph K' (s.putW xe (.ri none (s.finds (s.lbOf xe)) none xub)) :=
    put_graph hK (fun z hz => found_lower hK hz) hxub'
  have hlists : (s.putW xe (.ri none (s.finds (s.lbOf xe)) none xub)).lbOf ye = s.lbOf ye ∧
      (s.putW xe (.ri none (s.finds (s.lbOf xe)) none xub)).ubOf ye = s.ubOf ye := by
    rw [(lists_put ye).1, (lists_put ye).2, if_neg hne, if_neg hne]
    exact ⟨rfl, rfl⟩
  refine ⟨put_graph hone hylb' fun z hz => found_upper hK hz, ?_⟩
  refine (put_grown (kept h xe fun _ hz => hz) (kept h xe hxub)).trans (put_grown ?_ ?_)
  · rw [hlists.1]
    exact kept h ye hylb
  · rw [hlists.2]
    exact kept h ye fun _ hz => hz

/-- Two classes with the new edge between them, as `doLte` writes it. -/
def linked (s : UF l) (xe ye : ℕ) : UF l :=
  (s.putW xe (.ri none (s.finds (s.lbOf xe)) none
      (setInsert ye (setUnion (s.finds (s.ubOf xe)) (s.finds (s.ubOf ye)))))).putW ye
    (.ri none (setInsert xe (setUnion (s.finds (s.lbOf ye)) (s.finds (s.lbOf xe)))) none
      (s.finds (s.ubOf ye)))

theorem linked_ordered {s : UF l} (h : Graph K s) (hmono : ∀ x y, K x y → ReflTransGen K' x y)
    {xe ye : ℕ} (hne : s.root ye ≠ s.root xe) (hxy : ReflTransGen K' xe ye) :
    Ordered K' xe ye s (linked s xe ye) := by
  have hK := h.mono hmono
  obtain ⟨hgraph, hgrown⟩ : Graph K' (linked s xe ye) ∧ Grown s (linked s xe ye) := by
    apply putBoth h hmono hne
    · exact fun z hz => mem_setInsert.mpr (Or.inr (mem_setUnion.mpr (Or.inl hz)))
    · intro z hz
      rcases mem_setInsert.mp hz with rfl | hz
      · exact hxy
      · rcases mem_setUnion.mp hz with hz | hz
        · exact found_upper hK hz
        · exact hxy.trans (found_upper hK hz)
    · exact fun z hz => mem_setInsert.mpr (Or.inr (mem_setUnion.mpr (Or.inl hz)))
    · intro z hz
      rcases mem_setInsert.mp hz with rfl | hz
      · exact hxy
      · rcases mem_setUnion.mp hz with hz | hz
        · exact found_lower hK hz
        · exact (found_lower hK hz).trans hxy
  refine ⟨hgraph, hgrown, .single (Or.inr ⟨ye, ?_, rfl⟩), .single (Or.inr ⟨xe, ?_, rfl⟩)⟩
  · show ye ∈ (linked s xe ye).ubOf xe
    unfold linked
    rw [(lists_put xe).2, UF.putW_root, if_neg hne.symm, (lists_put xe).2, if_pos rfl]
    exact mem_setInsert.mpr (Or.inl rfl)
  · show xe ∈ (linked s xe ye).lbOf ye
    unfold linked
    rw [(lists_put ye).1, if_pos rfl]
    exact mem_setInsert.mpr (Or.inl rfl)

theorem doLte_spec (hK' : ∀ x y, K' x y → x < n ∧ y < n) (hrec : EqSpec K' n fuel rec)
    (hmono : ∀ x y, K x y → ReflTransGen K' x y) {s : UF l} (h : Graph K s) (hc : Covers K s)
    {xe ye : ℕ} (hxn : xe < n) (hx : s.root xe = xe) (hy : s.root ye = ye) (hne : xe ≠ ye)
    (hxy : ReflTransGen K' xe ye) :
    Ensures (doLte rec xe none (s.finds (s.lbOf xe)) none (s.finds (s.ubOf xe)) ye none
        (s.finds (s.lbOf ye)) none (s.finds (s.ubOf ye)) s)
      (Ordered K' xe ye s) False (fuel + 1 < 2 * classes n s + 2) := by
  have hK := h.mono hmono
  have hroots : s.root ye ≠ s.root xe := by
    rw [hx, hy]
    exact hne.symm
  have hyn := below_bound hK' hxn hxy
  have hequate : ReflTransGen K' ye xe → Ensures (doEq rec xe (s.finds (s.lbOf xe))
      (s.finds (s.ubOf xe)) ye (s.finds (s.lbOf ye)) (s.finds (s.ubOf ye)) s)
      (Ordered K' xe ye s) False (fuel + 1 < 2 * classes n s + 2) := by
    intro hyx
    refine (doEq_spec hK' hrec hK hxn hxy hyx).mono
      (fun t ht => ordered_of_same ht.1 ht.2.1 ht.2.2) id fun hfuel => ?_
    rw [if_neg hroots.symm] at hfuel
    omega
  have hdone := putBoth h hmono hroots (fun _ hz => hz) (fun z hz => found_upper hK hz)
    (fun _ hz => hz) fun z hz => found_lower hK hz
  unfold doLte
  dsimp only
  split_ifs with hxub hylb hxlb hyub
  · exact ⟨hdone.1, hdone.2, hdone.2.paths (hc.path (found_upper h hxub))⟩
  · exact ⟨hdone.1, hdone.2, hdone.2.paths (hc.path (found_lower h hylb))⟩
  · exact hequate (found_lower hK hxlb)
  · exact hequate (found_upper hK hyub)
  · have hlinked := linked_ordered h hmono hroots hxy
    have hfirst := checkRS_spec hK' hrec hlinked.graph hxn hx
    refine Ensures.bind (hfirst.mono (fun _ ht => ht) id fun hfuel => ?_) fun t ht => ?_
    · show fuel + 1 < 2 * classes n (linked s xe ye) + 2
      omega
    · have hgrown := hlinked.grown.trans ht.2
      have hle := classes_le (n := n) h hgrown.same
      have hsecond := checkRS_spec hK' hrec ht.1 (below_bound hK' hyn (ht.1.merged ye).1)
        (ht.1.idem ye)
      refine hsecond.mono (fun u hu => ?_) id fun hfuel => by omega
      exact ⟨hu.1, hgrown.trans hu.2, hu.2.paths (ht.2.paths hlinked.path)⟩

theorem doVarF_lte_spec (hK' : ∀ x y, K' x y → x < n ∧ y < n) (hrec : EqSpec K' n fuel rec)
    (hmono : ∀ x y, K x y → ReflTransGen K' x y) {s : UF l} (h : Graph K s) (hc : Covers K s)
    {xe ye : ℕ} (hxn : xe < n) (hx : s.root xe = xe) (hy : s.root ye = ye)
    (hxy : ReflTransGen K' xe ye) :
    Ensures (doVarF rec xe .lte ye s) (Ordered K' xe ye s) False
      (fuel + 1 < 2 * classes n s + 2) := by
  unfold doVarF
  split_ifs with heq
  · subst heq
    exact ordered_of_same (h.mono hmono) (Grown.refl s) rfl
  · obtain ⟨xlb, xub, hgetx⟩ := h.bare xe
    obtain ⟨ylb, yub, hgety⟩ := h.bare ye
    have hspec := doLte_spec hK' hrec hmono h hc hxn hx hy heq hxy
    obtain ⟨hxlb, hxub⟩ := UF.lists_of_getW hgetx
    obtain ⟨hylb, hyub⟩ := UF.lists_of_getW hgety
    rw [hxlb, hxub, hylb, hyub] at hspec
    rw [hgetx, hgety]
    exact hspec

theorem doVarF_flip {s : UF l} (h : Graph K s) (xe ye : ℕ) :
    doVarF rec xe .gte ye s = doVarF rec ye .lte xe s := by
  unfold doVarF
  by_cases heq : xe = ye
  · rw [if_pos heq, if_pos heq.symm]
  · obtain ⟨xlb, xub, hgetx⟩ := h.bare xe
    obtain ⟨ylb, yub, hgety⟩ := h.bare ye
    rw [if_neg heq, if_neg fun h => heq h.symm, hgetx, hgety]

end Lte

/-! ### The fold over the constraints -/

/-- The elements of a constraint are below `n`. -/
def CL.Bounded (n : ℕ) : CL l ℕ → Prop
  | .cv x _ y => x < n ∧ y < n
  | .cl x _ _ => x < n

theorem CL.Pairs.bounded {n a b : ℕ} {c : CL l ℕ} (hc : c.Bounded n) (hab : c.Pairs a b) :
    a < n ∧ b < n := by
  match c, hc, hab with
  | .cv x .lte y, hc, ⟨ha, hb⟩ => exact ⟨ha ▸ hc.1, hb ▸ hc.2⟩
  | .cv x .gte y, hc, ⟨ha, hb⟩ => exact ⟨ha ▸ hc.2, hb ▸ hc.1⟩
  | .cv x .eq y, hc, .inl ⟨ha, hb⟩ => exact ⟨ha ▸ hc.1, hb ▸ hc.2⟩
  | .cv x .eq y, hc, .inr ⟨ha, hb⟩ => exact ⟨ha ▸ hc.2, hb ▸ hc.1⟩

section Fold

variable {K : ℕ → ℕ → Prop} {n fuel : ℕ}

theorem classes_bound (s : UF l) : classes n s ≤ n := by
  have hle : ((Finset.range n).image s.root).card ≤ (Finset.range n).card := Finset.card_image_le
  rw [Finset.card_range] at hle
  exact hle

/-- `Ordered` for the elements of the classes. -/
theorem Ordered.elements {K' : ℕ → ℕ → Prop} {s s' : UF l} {x y : ℕ} (h : Graph K s)
    (ho : Ordered K' (s.root x) (s.root y) s s') :
    ReflTransGen (Up s') x y ∧ ReflTransGen (Down s') y x := by
  have hx := ho.grown.same x (s.root x) (h.idem x).symm
  have hy := ho.grown.same (s.root y) y (h.idem y)
  have hxup : Up s' x (s.root x) ∧ Down s' (s.root x) x := ⟨Or.inl hx, Or.inl hx.symm⟩
  have hyup : Up s' (s.root y) y ∧ Down s' y (s.root y) := ⟨Or.inl hy, Or.inl hy.symm⟩
  exact ⟨.head hxup.1 (ho.path.1.tail hyup.1), .head hyup.2 (ho.path.2.tail hxup.2)⟩

theorem procVar_spec (hK : ∀ x y, K x y → x < n ∧ y < n) (hfuel : 2 * n + 2 ≤ fuel) {s : UF l}
    (h : Graph K s) (hc : Covers K s) {c : CL l ℕ} (hcn : c.Bounded n) :
    Ensures (procVar fuel s c) (fun s' => Graph (fun x y => K x y ∨ c.Pairs x y) s' ∧
      Covers (fun x y => K x y ∨ c.Pairs x y) s') False False := by
  obtain ⟨fuel, rfl⟩ : ∃ f, fuel = f + 1 := ⟨fuel - 1, by omega⟩
  have hbound := classes_bound (n := n) s
  have hmono : ∀ x y, K x y → ReflTransGen (fun x y => K x y ∨ c.Pairs x y) x y :=
    fun x y hxy => .single (Or.inl hxy)
  have hK' : ∀ x y, K x y ∨ c.Pairs x y → x < n ∧ y < n := by
    intro x y hor
    cases hor with
    | inl hxy => exact hK x y hxy
    | inr hxy => exact hxy.bounded hcn
  have hg := h.mono hmono
  have hroots : ∀ x y, c.Pairs x y →
      ReflTransGen (fun x y => K x y ∨ c.Pairs x y) (s.root x) (s.root y) := fun x y hxy =>
    ((hg.merged x).2.tail (Or.inr hxy)).trans (hg.merged y).1
  have hrec := doVar_eq_spec (l := l) hK' fuel
  have hlte : ∀ x y, c.Pairs x y → Ensures (doVar (fuel + 1) (s.root x) .lte (s.root y) s)
      (Ordered (fun x y => K x y ∨ c.Pairs x y) (s.root x) (s.root y) s) False False := by
    intro x y hxy
    refine (doVarF_lte_spec hK' hrec hmono h hc ?_ (h.idem x) (h.idem y) (hroots x y hxy)).mono
      (fun _ ht => ht) id (by omega)
    exact below_bound hK' (hxy.bounded hcn).1 (hg.merged x).1
  have hend : ∀ s', Grown s s' → (∀ x y, c.Pairs x y →
      ReflTransGen (Up s') x y ∧ ReflTransGen (Down s') y x) →
      Covers (fun x y => K x y ∨ c.Pairs x y) s' := by
    intro s' hgrown hpath x y hor
    cases hor with
    | inl hxy => exact hgrown.covers hc x y hxy
    | inr hxy => exact hpath x y hxy
  match c, hcn with
  | .cl x op a, _ => exact ⟨hg, hend s (Grown.refl s) fun _ _ hxy => hxy.elim⟩
  | .cv x .lte y, _ =>
    refine (hlte x y ⟨rfl, rfl⟩).mono (fun s' ho => ⟨ho.graph, hend s' ho.grown ?_⟩) id id
    rintro a b ⟨rfl, rfl⟩
    exact ho.elements h
  | .cv x .gte y, _ =>
    show Ensures (doVarF (doVar fuel) (s.root x) .gte (s.root y) s) _ _ _
    rw [doVarF_flip h]
    refine (hlte y x ⟨rfl, rfl⟩).mono (fun s' ho => ⟨ho.graph, hend s' ho.grown ?_⟩) id id
    rintro a b ⟨rfl, rfl⟩
    exact ho.elements h
  | .cv x .eq y, hcn =>
    have hxy := hroots x y (Or.inl ⟨rfl, rfl⟩)
    have hyx := hroots y x (Or.inr ⟨rfl, rfl⟩)
    have hxn := below_bound hK' hcn.1 (hg.merged x).1
    refine (doVar_eq_spec hK' (fuel + 1) (s.root x) (s.root y) s hg hxn hxy hyx).mono
      (fun s' he => ⟨he.graph, hend s' he.grown ?_⟩) id fun hneed => ?_
    · have ho := ordered_of_same he.graph he.grown he.same
      have ho' := ordered_of_same he.graph he.grown he.same.symm
      rintro a b (⟨rfl, rfl⟩ | ⟨rfl, rfl⟩)
      · exact ho.elements h
      · exact ho'.elements h
    · unfold need at hneed
      split_ifs at hneed <;> omega

/-- After the first phase the graph says just what the constraints between variables say. -/
theorem procVars_spec {pcs : List (CL l ℕ)} (hn : ∀ c ∈ pcs, c.Bounded n)
    (hfuel : 2 * n + 2 ≤ fuel) :
    Ensures (pcs.foldlM (procVar fuel) (UF.init l)) (fun s => Graph (Below pcs) s ∧
      Covers (Below pcs) s) False False := by
  refine (Ensures.foldlM (F := False) (O := False) (fun rest s => ∃ done, done ++ rest = pcs ∧
    Graph (Below done) s ∧ Covers (Below done) s) ?_ ⟨[], rfl, ?_, ?_⟩).mono ?_ id id
  · rintro c rest s ⟨done, hpcs, hg, hc⟩
    have hbounded : ∀ x y, Below done x y → x < n ∧ y < n := by
      rintro x y ⟨d, hd, hxy⟩
      exact hxy.bounded (hn d (hpcs ▸ List.mem_append_left _ hd))
    have hcn : c.Bounded n := hn c (hpcs ▸ List.mem_append_right _ List.mem_cons_self)
    refine (procVar_spec hbounded hfuel hg hc hcn).mono (fun s' hs' => ?_) id id
    rw [← below_concat] at hs'
    exact ⟨done ++ [c], by rw [List.append_assoc]; exact hpcs, hs'⟩
  · exact init_graph _
  · exact fun x y ⟨c, hc, _⟩ => absurd hc List.not_mem_nil
  · rintro s ⟨done, hpcs, hs⟩
    rw [List.append_nil] at hpcs
    exact hpcs ▸ hs

end Fold

end Jhc.UnionSolve

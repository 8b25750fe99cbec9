import Mathlib.Data.Finset.Card
import Mathlib.Data.Finset.Image
import Mathlib.Data.Finset.Range
import Mathlib.Logic.Relation
import Jhc.UnionSolve.Solve

/-!
# The constraints between variables

The first phase turns the constraints `x <= y` into a graph of classes: whatever
the graph says follows from the constraints, and every constraint is a path in it,
upwards along the upper and downwards along the lower neighbours.
-/

namespace Jhc.UnionSolve
open Jhc.Lib

variable {l : Type}

/-! ### The graph of the classes -/

namespace UF

def lbOf (s : UF l) (x : ℕ) : List ℕ :=
  match s.getW x with
  | .r _ => []
  | .ri _ lb _ _ => lb

def ubOf (s : UF l) (x : ℕ) : List ℕ :=
  match s.getW x with
  | .r _ => []
  | .ri _ _ _ ub => ub

theorem lists_of_getW {s : UF l} {x : ℕ} {ml mu : Option l} {lb ub : List ℕ}
    (h : s.getW x = .ri ml lb mu ub) : s.lbOf x = lb ∧ s.ubOf x = ub := by
  unfold lbOf ubOf
  rw [h]
  exact ⟨rfl, rfl⟩

theorem lists_congr {s t : UF l} {x y : ℕ} (h : s.getW x = t.getW y) :
    s.lbOf x = t.lbOf y ∧ s.ubOf x = t.ubOf y := by
  unfold lbOf ubOf
  rw [h]
  exact ⟨rfl, rfl⟩

theorem class_lists {s : UF l} {x y : ℕ} (hxy : s.root x = s.root y) :
    s.lbOf x = s.lbOf y ∧ s.ubOf x = s.ubOf y := by
  refine lists_congr ?_
  unfold getW
  rw [hxy]

theorem getW_putW (s : UF l) (x y : ℕ) (w : R l) :
    (s.putW x w).getW y = if s.root y = s.root x then w else s.getW y := by
  show Function.update s.info (s.root x) w (s.root y) = _
  split_ifs with h
  · rw [h, Function.update_self]
  · rw [Function.update_of_ne h]
    rfl

@[simp] theorem putW_root (s : UF l) (x : ℕ) (w : R l) : (s.putW x w).root = s.root := rfl

theorem mem_finds {s : UF l} {set : List ℕ} {y : ℕ} : y ∈ s.finds set ↔ ∃ z ∈ set, s.root z = y := by
  unfold finds
  rw [mem_setFromList, List.mem_map]

/-- `union` lets the elements of both classes find the root of one of them. -/
theorem union_spec (comb : R l → R l → R l) (x y : ℕ) (s : UF l) :
    ∃ W, (W = s.root x ∨ W = s.root y) ∧
      (∀ e, (s.union comb x y).root e =
        if s.root e = s.root x ∨ s.root e = s.root y then W else s.root e) ∧
      ∀ e, e ≠ W → (s.union comb x y).info e = s.info e := by
  unfold union
  dsimp only
  split_ifs with heq hle
  · refine ⟨s.root x, Or.inl rfl, fun e => ?_, fun _ _ => rfl⟩
    split_ifs with he
    · rcases he with hx | hy
      · exact hx
      · exact hy.trans heq.symm
    · rfl
  · refine ⟨s.root y, Or.inr rfl, fun e => ?_, fun e he => Function.update_of_ne he ..⟩
    show (if s.root e = s.root x then s.root y else s.root e) = _
    by_cases hx : s.root e = s.root x
    · rw [if_pos hx, if_pos (Or.inl hx)]
    · rw [if_neg hx]
      split_ifs with hor
      · exact hor.resolve_left hx
      · rfl
  · refine ⟨s.root x, Or.inl rfl, fun e => ?_, fun e he => Function.update_of_ne he ..⟩
    show (if s.root e = s.root y then s.root x else s.root e) = _
    by_cases hy : s.root e = s.root y
    · rw [if_pos hy, if_pos (Or.inr hy)]
    · rw [if_neg hy]
      split_ifs with hor
      · exact hor.resolve_right hy
      · rfl

end UF

open Relation

/-- What follows from the constraints `K` processed so far. -/
structure Graph (K : ℕ → ℕ → Prop) (s : UF l) : Prop where
  idem : ∀ x, s.root (s.root x) = s.root x
  bare : ∀ x, ∃ lb ub, s.getW x = .ri none lb none ub
  merged : ∀ x, ReflTransGen K x (s.root x) ∧ ReflTransGen K (s.root x) x
  upper : ∀ x, ∀ z ∈ s.ubOf x, ReflTransGen K x z
  lower : ∀ x, ∀ z ∈ s.lbOf x, ReflTransGen K z x

def Up (s : UF l) (x y : ℕ) : Prop := s.root x = s.root y ∨ ∃ z ∈ s.ubOf x, s.root z = s.root y

def Down (s : UF l) (x y : ℕ) : Prop := s.root x = s.root y ∨ ∃ z ∈ s.lbOf x, s.root z = s.root y

/-- Classes only grow together, and no neighbour is lost. -/
structure Grown (s s' : UF l) : Prop where
  same : ∀ x y, s.root x = s.root y → s'.root x = s'.root y
  up : ∀ x y, Up s x y → Up s' x y
  down : ∀ x y, Down s x y → Down s' x y

theorem Grown.refl (s : UF l) : Grown s s := ⟨fun _ _ h => h, fun _ _ h => h, fun _ _ h => h⟩

theorem Grown.trans {s t u : UF l} (h : Grown s t) (h' : Grown t u) : Grown s u :=
  ⟨fun x y hxy => h'.same x y (h.same x y hxy), fun x y hxy => h'.up x y (h.up x y hxy),
    fun x y hxy => h'.down x y (h.down x y hxy)⟩

theorem Graph.same {K : ℕ → ℕ → Prop} {s : UF l} (h : Graph K s) {x y : ℕ}
    (hxy : s.root x = s.root y) : ReflTransGen K x y := by
  have hx := (h.merged x).1
  rw [hxy] at hx
  exact hx.trans (h.merged y).2

theorem Graph.mono {K K' : ℕ → ℕ → Prop} {s : UF l} (h : Graph K s)
    (hK : ∀ x y, K x y → ReflTransGen K' x y) : Graph K' s := by
  have hlift : ∀ x y, ReflTransGen K x y → ReflTransGen K' x y := by
    intro x y hxy
    induction hxy with
    | refl => exact .refl
    | tail _ hstep ih => exact ih.trans (hK _ _ hstep)
  exact ⟨h.idem, h.bare, fun x => ⟨hlift _ _ (h.merged x).1, hlift _ _ (h.merged x).2⟩,
    fun x z hz => hlift _ _ (h.upper x z hz), fun x z hz => hlift _ _ (h.lower x z hz)⟩

theorem init_graph (K : ℕ → ℕ → Prop) : Graph K (UF.init l) :=
  ⟨fun _ => rfl, fun _ => ⟨[], [], rfl⟩, fun _ => ⟨.refl, .refl⟩,
    fun _ _ hz => absurd hz List.not_mem_nil, fun _ _ hz => absurd hz List.not_mem_nil⟩

/-! ### Writing the neighbours of a class -/

section Put

variable {K : ℕ → ℕ → Prop} {s : UF l} {ve : ℕ} {lb ub : List ℕ}

theorem lists_put (x : ℕ) : (s.putW ve (.ri none lb none ub)).lbOf x =
      (if s.root x = s.root ve then lb else s.lbOf x) ∧
    (s.putW ve (.ri none lb none ub)).ubOf x = if s.root x = s.root ve then ub else s.ubOf x := by
  have hget := UF.getW_putW s ve x (.ri none lb none ub)
  split_ifs at hget ⊢
  · exact UF.lists_of_getW hget
  · exact UF.lists_congr hget

theorem put_graph (h : Graph K s) (hlb : ∀ z ∈ lb, ReflTransGen K z ve)
    (hub : ∀ z ∈ ub, ReflTransGen K ve z) : Graph K (s.putW ve (.ri none lb none ub)) := by
  refine ⟨h.idem, fun x => ?_, h.merged, fun x z hz => ?_, fun x z hz => ?_⟩
  · rw [UF.getW_putW]
    split_ifs
    · exact ⟨lb, ub, rfl⟩
    · exact h.bare x
  · rw [(lists_put x).2] at hz
    split_ifs at hz with hx
    · exact (h.same hx).trans (hub z hz)
    · exact h.upper x z hz
  · rw [(lists_put x).1] at hz
    split_ifs at hz with hx
    · exact (hlb z hz).trans (h.same hx.symm)
    · exact h.lower x z hz

theorem put_grown (hlb : ∀ z ∈ s.lbOf ve, s.root ve = s.root z ∨ ∃ z' ∈ lb, s.root z' = s.root z)
    (hub : ∀ z ∈ s.ubOf ve, s.root ve = s.root z ∨ ∃ z' ∈ ub, s.root z' = s.root z) :
    Grown s (s.putW ve (.ri none lb none ub)) := by
  refine ⟨fun _ _ h => h, fun x y hxy => ?_, fun x y hxy => ?_⟩
  · rcases hxy with heq | ⟨z, hz, hzy⟩
    · exact Or.inl heq
    · unfold Up
      rw [(lists_put x).2]
      split_ifs with hx
      · rw [(UF.class_lists hx).2] at hz
        rcases hub z hz with hsame | ⟨z', hz', heq⟩
        · exact Or.inl (hx.trans (hsame.trans hzy))
        · exact Or.inr ⟨z', hz', heq.trans hzy⟩
      · exact Or.inr ⟨z, hz, hzy⟩
  · rcases hxy with heq | ⟨z, hz, hzy⟩
    · exact Or.inl heq
    · unfold Down
      rw [(lists_put x).1]
      split_ifs with hx
      · rw [(UF.class_lists hx).1] at hz
        rcases hlb z hz with hsame | ⟨z', hz', heq⟩
        · exact Or.inl (hx.trans (hsame.trans hzy))
        · exact Or.inr ⟨z', hz', heq.trans hzy⟩
      · exact Or.inr ⟨z, hz, hzy⟩

end Put

/-! ### The number of classes -/

def classes (n : ℕ) (s : UF l) : ℕ := ((Finset.range n).image s.root).card

section Classes

variable {K : ℕ → ℕ → Prop} {n : ℕ} {s s' : UF l}

theorem classes_image (h : Graph K s) (hsame : ∀ x y, s.root x = s.root y → s'.root x = s'.root y) :
    (Finset.range n).image s'.root = ((Finset.range n).image s.root).image s'.root := by
  rw [Finset.image_image]
  refine Finset.image_congr fun x _ => ?_
  exact (hsame (s.root x) x (h.idem x)).symm

theorem classes_le (h : Graph K s) (hsame : ∀ x y, s.root x = s.root y → s'.root x = s'.root y) :
    classes n s' ≤ classes n s := by
  unfold classes
  rw [classes_image h hsame]
  exact Finset.card_image_le

theorem classes_lt (h : Graph K s) (hsame : ∀ x y, s.root x = s.root y → s'.root x = s'.root y)
    {x y : ℕ} (hx : x < n) (hy : y < n) (hne : s.root x ≠ s.root y) (heq : s'.root x = s'.root y) :
    classes n s' < classes n s := by
  have hle := classes_le (n := n) h hsame
  refine lt_of_le_of_ne hle fun hcard => hne ?_
  unfold classes at hcard
  rw [classes_image h hsame, Finset.card_image_iff] at hcard
  refine hcard ?_ ?_ ?_
  · exact Finset.mem_coe.mpr (Finset.mem_image_of_mem _ (Finset.mem_range.mpr hx))
  · exact Finset.mem_coe.mpr (Finset.mem_image_of_mem _ (Finset.mem_range.mpr hy))
  · rw [hsame (s.root x) x (h.idem x), hsame (s.root y) y (h.idem y)]
    exact heq

end Classes

/-! ### Merging two classes -/

/-- The part of `doEq` before `checkRS`. -/
def merge (s : UF l) (xe ye : ℕ) (xlb xub ylb yub : List ℕ) : UF l :=
  let t := s.union (fun x _ => x) xe ye
  t.putW (t.find xe) (.ri none (t.finds (setUnion xlb ylb)) none (t.finds (setUnion yub xub)))

section Merge

variable {K : ℕ → ℕ → Prop} {s : UF l} {xe ye : ℕ}

theorem merge_root (s : UF l) (xe ye : ℕ) (xlb xub ylb yub : List ℕ) :
    ∃ W, (W = s.root xe ∨ W = s.root ye) ∧ ∀ e, (merge s xe ye xlb xub ylb yub).root e =
      if s.root e = s.root xe ∨ s.root e = s.root ye then W else s.root e := by
  obtain ⟨W, hW, hroot, -⟩ := UF.union_spec (fun x _ => x) xe ye s
  exact ⟨W, hW, hroot⟩

theorem merge_getW (h : Graph K s) (xlb xub ylb yub : List ℕ) (e : ℕ) :
    (merge s xe ye xlb xub ylb yub).getW e =
      if s.root e = s.root xe ∨ s.root e = s.root ye then
        .ri none ((s.union (fun x _ => x) xe ye).finds (setUnion xlb ylb)) none
          ((s.union (fun x _ => x) xe ye).finds (setUnion yub xub))
      else s.getW e := by
  obtain ⟨W, hW, hroot, hinfo⟩ := UF.union_spec (fun x _ => x) xe ye s
  set t := s.union (fun x _ => x) xe ye with ht
  have hWW : s.root W = W := by
    rcases hW with rfl | rfl
    · exact h.idem xe
    · exact h.idem ye
  have hWclass : s.root W = s.root xe ∨ s.root W = s.root ye := by
    rw [hWW]
    exact hW
  have hfind : t.root (t.find xe) = W := by
    have hxe : t.find xe = W := by
      show t.root xe = W
      rw [hroot xe, if_pos (Or.inl rfl)]
    rw [hxe, hroot W, if_pos hWclass]
  show (t.putW (t.find xe) _).getW e = _
  rw [UF.getW_putW, hfind, hroot e]
  by_cases hclass : s.root e = s.root xe ∨ s.root e = s.root ye
  · rw [if_pos hclass, if_pos rfl, if_pos hclass]
  · have hne : s.root e ≠ W := by
      intro heq
      rw [heq] at hclass
      exact hclass hW
    rw [if_neg hclass, if_neg hne, if_neg hclass]
    show t.info (t.root e) = s.info (s.root e)
    rw [hroot e, if_neg hclass, hinfo _ hne]

theorem merge_same (s : UF l) (xe ye : ℕ) (xlb xub ylb yub : List ℕ) :
    (merge s xe ye xlb xub ylb yub).root xe = (merge s xe ye xlb xub ylb yub).root ye ∧
      ∀ x y, s.root x = s.root y →
        (merge s xe ye xlb xub ylb yub).root x = (merge s xe ye xlb xub ylb yub).root y := by
  obtain ⟨W, -, hroot⟩ := merge_root s xe ye xlb xub ylb yub
  refine ⟨?_, fun x y hxy => ?_⟩
  · rw [hroot xe, hroot ye, if_pos (Or.inl rfl), if_pos (Or.inr rfl)]
  · rw [hroot x, hroot y, hxy]

/-- Both classes with their neighbours, as `doVar` looks them up. -/
def merged (s : UF l) (xe ye : ℕ) : UF l :=
  merge s xe ye (s.finds (s.lbOf xe)) (s.finds (s.ubOf xe)) (s.finds (s.lbOf ye))
    (s.finds (s.ubOf ye))

theorem merged_self (h : Graph K s) (hxy : ReflTransGen K xe ye) (hyx : ReflTransGen K ye xe)
    (e : ℕ) : ReflTransGen K e ((merged s xe ye).root e) ∧
      ReflTransGen K ((merged s xe ye).root e) e := by
  obtain ⟨W, hW, hroot⟩ := merge_root s xe ye (s.finds (s.lbOf xe))
    (s.finds (s.ubOf xe)) (s.finds (s.lbOf ye)) (s.finds (s.ubOf ye))
  have hWx : ReflTransGen K W xe ∧ ReflTransGen K xe W := by
    rcases hW with rfl | rfl
    · exact ⟨(h.merged xe).2, (h.merged xe).1⟩
    · exact ⟨(h.merged ye).2.trans hyx, hxy.trans (h.merged ye).1⟩
  unfold merged
  rw [hroot e]
  split_ifs with hclass
  · have hex : ReflTransGen K e xe ∧ ReflTransGen K xe e := by
      rcases hclass with hx | hy
      · exact ⟨h.same hx, h.same hx.symm⟩
      · exact ⟨(h.same hy).trans hyx, hxy.trans (h.same hy.symm)⟩
    exact ⟨hex.1.trans hWx.2, hWx.1.trans hex.2⟩
  · exact h.merged e

theorem merged_idem (h : Graph K s) (x : ℕ) :
    (merged s xe ye).root ((merged s xe ye).root x) = (merged s xe ye).root x := by
  obtain ⟨W, hW, hroot⟩ := merge_root s xe ye (s.finds (s.lbOf xe))
    (s.finds (s.ubOf xe)) (s.finds (s.lbOf ye)) (s.finds (s.ubOf ye))
  have hWclass : s.root W = s.root xe ∨ s.root W = s.root ye := by
    rcases hW with rfl | rfl
    · exact Or.inl (h.idem xe)
    · exact Or.inr (h.idem ye)
  unfold merged
  rw [hroot x]
  split_ifs with hclass
  · rw [hroot W, if_pos hWclass]
  · rw [hroot (s.root x), h.idem, if_neg hclass]

/-- What is found of a neighbour of either class is a neighbour of the merged class. -/
theorem mem_merged_finds (h : Graph K s) (xs ys : List ℕ) (z : ℕ) :
    (z ∈ xs ∨ z ∈ ys → (merged s xe ye).root z ∈
        (merged s xe ye).finds (setUnion (s.finds xs) (s.finds ys))) ∧
      (z ∈ (merged s xe ye).finds (setUnion (s.finds xs) (s.finds ys)) →
        ∃ z', (z' ∈ xs ∨ z' ∈ ys) ∧ z = (merged s xe ye).root z') := by
  have hfind : ∀ e, (merged s xe ye).root (s.root e) = (merged s xe ye).root e := fun e =>
    (merge_same s xe ye _ _ _ _).2 _ _ (h.idem e)
  constructor
  · intro hz
    rw [UF.mem_finds]
    refine ⟨s.root z, mem_setUnion.mpr ?_, hfind z⟩
    rcases hz with hx | hy
    · exact Or.inl (UF.mem_finds.mpr ⟨z, hx, rfl⟩)
    · exact Or.inr (UF.mem_finds.mpr ⟨z, hy, rfl⟩)
  · intro hz
    obtain ⟨z₀, hz₀, rfl⟩ := UF.mem_finds.mp hz
    rcases mem_setUnion.mp hz₀ with hx | hy
    · obtain ⟨z', hz', rfl⟩ := UF.mem_finds.mp hx
      exact ⟨z', Or.inl hz', hfind z'⟩
    · obtain ⟨z', hz', rfl⟩ := UF.mem_finds.mp hy
      exact ⟨z', Or.inr hz', hfind z'⟩

theorem merged_getW (h : Graph K s) (e : ℕ) : (merged s xe ye).getW e =
    if s.root e = s.root xe ∨ s.root e = s.root ye then
      .ri none ((merged s xe ye).finds (setUnion (s.finds (s.lbOf xe)) (s.finds (s.lbOf ye)))) none
        ((merged s xe ye).finds (setUnion (s.finds (s.ubOf ye)) (s.finds (s.ubOf xe))))
    else s.getW e := merge_getW h _ _ _ _ e

theorem merged_lists (h : Graph K s) (e : ℕ) : (merged s xe ye).lbOf e =
      (if s.root e = s.root xe ∨ s.root e = s.root ye then
        (merged s xe ye).finds (setUnion (s.finds (s.lbOf xe)) (s.finds (s.lbOf ye)))
      else s.lbOf e) ∧
    (merged s xe ye).ubOf e =
      if s.root e = s.root xe ∨ s.root e = s.root ye then
        (merged s xe ye).finds (setUnion (s.finds (s.ubOf ye)) (s.finds (s.ubOf xe)))
      else s.ubOf e := by
  have hget : (merged s xe ye).getW e = _ := merged_getW h e
  split_ifs at hget ⊢
  · exact UF.lists_of_getW hget
  · exact UF.lists_congr hget

theorem merged_graph (h : Graph K s) (hxy : ReflTransGen K xe ye) (hyx : ReflTransGen K ye xe) :
    Graph K (merged s xe ye) := by
  have hself := merged_self h hxy hyx
  have hclass : ∀ e, s.root e = s.root xe ∨ s.root e = s.root ye →
      (ReflTransGen K e xe ∧ ReflTransGen K xe e) ∧ ReflTransGen K e ye ∧ ReflTransGen K ye e := by
    intro e he
    rcases he with hx | hy
    · exact ⟨⟨h.same hx, h.same hx.symm⟩, (h.same hx).trans hxy, hyx.trans (h.same hx.symm)⟩
    · exact ⟨⟨(h.same hy).trans hyx, hxy.trans (h.same hy.symm)⟩, h.same hy, h.same hy.symm⟩
  refine ⟨merged_idem h, fun x => ?_, hself, fun x z hz => ?_, fun x z hz => ?_⟩
  · rw [merged_getW h]
    split_ifs
    · exact ⟨_, _, rfl⟩
    · exact h.bare x
  · rw [(merged_lists h x).2] at hz
    split_ifs at hz with he
    · obtain ⟨z', hz', rfl⟩ := (mem_merged_finds h _ _ z).2 hz
      rcases hz' with hy | hx
      · exact (hclass x he).2.1.trans ((h.upper ye z' hy).trans (hself z').1)
      · exact (hclass x he).1.1.trans ((h.upper xe z' hx).trans (hself z').1)
    · exact h.upper x z hz
  · rw [(merged_lists h x).1] at hz
    split_ifs at hz with he
    · obtain ⟨z', hz', rfl⟩ := (mem_merged_finds h _ _ z).2 hz
      rcases hz' with hx | hy
      · exact (hself z').2.trans ((h.lower xe z' hx).trans (hclass x he).1.2)
      · exact (hself z').2.trans ((h.lower ye z' hy).trans (hclass x he).2.2)
    · exact h.lower x z hz

theorem merged_grown (h : Graph K s) : Grown s (merged s xe ye) := by
  obtain ⟨-, hsame⟩ := merge_same s xe ye (s.finds (s.lbOf xe))
    (s.finds (s.ubOf xe)) (s.finds (s.lbOf ye)) (s.finds (s.ubOf ye))
  refine ⟨hsame, fun x y hup => ?_, fun x y hdown => ?_⟩
  · rcases hup with heq | ⟨z, hz, hzy⟩
    · exact Or.inl (hsame x y heq)
    · unfold Up
      rw [(merged_lists h x).2]
      split_ifs with he
      · have hz' : z ∈ s.ubOf ye ∨ z ∈ s.ubOf xe := by
          rcases he with hx | hy
          · exact Or.inr ((UF.class_lists hx).2 ▸ hz)
          · exact Or.inl ((UF.class_lists hy).2 ▸ hz)
        exact Or.inr ⟨_, (mem_merged_finds h _ _ z).1 hz', (merged_idem h z).trans (hsame z y hzy)⟩
      · exact Or.inr ⟨z, hz, hsame z y hzy⟩
  · rcases hdown with heq | ⟨z, hz, hzy⟩
    · exact Or.inl (hsame x y heq)
    · unfold Down
      rw [(merged_lists h x).1]
      split_ifs with he
      · have hz' : z ∈ s.lbOf xe ∨ z ∈ s.lbOf ye := by
          rcases he with hx | hy
          · exact Or.inl ((UF.class_lists hx).1 ▸ hz)
          · exact Or.inr ((UF.class_lists hy).1 ▸ hz)
        exact Or.inr ⟨_, (mem_merged_finds h _ _ z).1 hz', (merged_idem h z).trans (hsame z y hzy)⟩
      · exact Or.inr ⟨z, hz, hsame z y hzy⟩

end Merge

end Jhc.UnionSolve

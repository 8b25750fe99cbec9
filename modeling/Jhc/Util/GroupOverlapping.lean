import Jhc.Lib.Lookup
import Jhc.Util.UnionFindST
import Mathlib.Data.List.Perm.Basic
import Mathlib.Data.Nat.Basic
import Mathlib.Logic.Relation

/-!
# Nodes with overlapping names (src/Util/Graph.hs:234-255)

The elements of a run are the nodes with their places, counted from one, so that equal nodes stay apart.
-/

namespace Jhc.Util
open Jhc.Lib UnionFindST Relation

variable {ν κ : Type} [LinearOrder κ]

/-- `Set.toList . Set.fromList`, where elements are ordered by their numbers. -/
def distinct (es : List (Element ν)) : List (Element ν) :=
  (es.foldl (fun m e => insertKey e.unique e m) []).map Prod.snd

/-- The map with `e` for each of the names. -/
def insertAll (bs : List κ) (e : Element ν) (cmap : List (κ × Element ν)) : List (κ × Element ν) :=
  bs.foldr (fun b m => insertKey b e m) cmap

/-- The first loop, for one element. -/
def addNames (n : ℕ) (fn : ν → List κ) (cmap : List (κ × Element ν)) (e : Element ν) :
    UF ν (List (κ × Element ν)) := do
  let bs := fn e.fromElement
  (bs.filterMap fun b => cmap.lookup b).forM fun x => union_ n x e
  return insertAll bs e cmap

/-- The last loop, for one root. -/
def rootGroup (n : ℕ) (e : Element ν) : UF ν (ℕ × List ν) := do
  let u ← getUnique n e
  let es ← getElements n e
  return (u, es.map Element.fromElement)

def nameUnique (n : ℕ) (p : κ × Element ν) : UF ν (κ × ℕ) := do
  let u ← getUnique n p.2
  return (p.1, u)

def groupOverlapping.run (n : ℕ) (fn : ν → List κ) (xs : List ν) : UF ν (List (κ × ℕ) × List (ℕ × List ν)) := do
  let es ← xs.mapM new_
  let cmap ← es.foldlM (addNames n fn) []
  let cmap' ← cmap.mapM (nameUnique n)
  let rs ← es.mapM (find n)
  let es' ← (distinct rs).mapM (rootGroup n)
  return (cmap', es')

def groupOverlapping (n : ℕ) (fn : ν → List κ) (xs : List ν) : Option (List (κ × ℕ) × List (ℕ × List ν)) :=
  runUF (groupOverlapping.run n fn xs)

/-! ### Maps and sets of elements -/

variable {fn : ν → List κ} {s s' : Store ν} {E done rs : List (Element ν)} {e x y r : Element ν}
  {cmap : List (κ × Element ν)} {bs : List κ}

theorem lookup_insertAll (k : κ) : (insertAll bs e cmap).lookup k = if k ∈ bs then some e else cmap.lookup k := by
  induction bs with
  | nil => rfl
  | cons b bs ih =>
    rw [insertAll, List.foldr_cons, lookup_insertKey]
    by_cases hk : k = b
    · subst hk
      rw [if_pos rfl, if_pos (List.mem_cons_self ..)]
    · rw [if_neg hk, ← insertAll, ih]
      exact if_congr (by rw [List.mem_cons, or_iff_right hk]) rfl rfl

theorem mem_insertAll {p : κ × Element ν} (h : p ∈ insertAll bs e cmap) : p.1 ∈ bs ∧ p.2 = e ∨ p ∈ cmap := by
  induction bs with
  | nil => exact .inr h
  | cons b bs ih =>
    rcases mem_insertKey h with rfl | h
    · exact .inl ⟨List.mem_cons_self .., rfl⟩
    · exact (ih h).imp_left fun h => ⟨List.mem_cons_of_mem b h.1, h.2⟩

omit [LinearOrder κ] in
theorem foldl_insert_sorted (rs : List (Element ν)) {m : List (ℕ × Element ν)} (hm : m.Pairwise fun p q => p.1 < q.1)
    (hu : ∀ p ∈ m, p.1 = p.2.unique) :
    let m' := rs.foldl (fun m e => insertKey e.unique e m) m
    (m'.Pairwise fun p q => p.1 < q.1) ∧ (∀ p ∈ m', p.1 = p.2.unique ∧ (p ∈ m ∨ p.2 ∈ rs)) ∧
      ∀ k, k ∈ m'.map Prod.fst ↔ k ∈ m.map Prod.fst ∨ k ∈ rs.map Element.unique := by
  induction rs generalizing m with
  | nil => exact ⟨hm, fun p hp => ⟨hu p hp, .inl hp⟩, fun k => by simp⟩
  | cons r rs ih =>
    have hu' : ∀ p ∈ insertKey r.unique r m, p.1 = p.2.unique := by
      intro p hp
      rcases mem_insertKey hp with rfl | hp
      · rfl
      · exact hu p hp
    obtain ⟨hs, hmem, hkeys⟩ := ih (insertKey_sorted hm) hu'
    refine ⟨hs, fun p hp => ⟨(hmem p hp).1, ?_⟩, fun k => ?_⟩
    · rcases (hmem p hp).2 with h | h
      · rcases mem_insertKey h with rfl | h
        · exact .inr (List.mem_cons_self ..)
        · exact .inl h
      · exact .inr (List.mem_cons_of_mem r h)
    · rw [List.foldl_cons, hkeys, mem_keys_insertKey, List.map_cons, List.mem_cons]
      tauto

omit [LinearOrder κ] in
theorem mem_of_distinct (h : r ∈ distinct rs) : r ∈ rs := by
  obtain ⟨p, hp, rfl⟩ := List.mem_map.mp h
  obtain ⟨-, hmem, -⟩ := foldl_insert_sorted rs .nil fun _ h => absurd h List.not_mem_nil
  exact (hmem p hp).2.resolve_left List.not_mem_nil

omit [LinearOrder κ] in
theorem distinct_uniques (rs : List (Element ν)) : ((distinct rs).map Element.unique).Nodup ∧
    ∀ r ∈ rs, r.unique ∈ (distinct rs).map Element.unique := by
  obtain ⟨hs, hmem, hkeys⟩ := foldl_insert_sorted rs .nil fun _ h => absurd h List.not_mem_nil
  have heq : (distinct rs).map Element.unique = (rs.foldl (fun m e => insertKey e.unique e m) []).map Prod.fst := by
    rw [distinct, List.map_map]
    exact List.map_congr_left fun p hp => ((hmem p hp).1).symm
  rw [heq]
  refine ⟨List.pairwise_map.mpr (hs.imp fun h => Nat.ne_of_lt h), fun r hr => ?_⟩
  exact (hkeys _).mpr (.inr (List.mem_map_of_mem hr))

/-! ### Chains of overlaps -/

/-- Two of the elements have a name in common. -/
def Overlap (fn : ν → List κ) (es : List (Element ν)) (x y : Element ν) : Prop :=
  x ∈ es ∧ y ∈ es ∧ ∃ b ∈ fn x.fromElement, b ∈ fn y.fromElement

/-- A chain of elements of which each overlaps with the next one. -/
def Linked (fn : ν → List κ) (es : List (Element ν)) : Element ν → Element ν → Prop := ReflTransGen (Overlap fn es)

omit [LinearOrder κ] in
theorem Overlap.symm {es : List (Element ν)} (h : Overlap fn es x y) : Overlap fn es y x := by
  obtain ⟨hx, hy, b, hbx, hby⟩ := h
  exact ⟨hy, hx, b, hby, hbx⟩

omit [LinearOrder κ] in
theorem eqvGen_overlap {es : List (Element ν)} : EqvGen (Overlap fn es) x y ↔ Linked fn es x y := by
  constructor
  · intro h
    induction h with
    | rel _ _ h => exact .single h
    | refl _ => exact .refl
    | symm _ _ _ ih =>
      have hsymm : Std.Symm (Overlap fn es) := ⟨fun _ _ => Overlap.symm⟩
      exact ReflTransGen.stdSymm.symm _ _ ih
    | trans _ _ _ _ _ ih ih' => exact ih.trans ih'
  · intro h
    induction h with
    | refl => exact .refl _
    | tail _ h ih => exact ih.trans _ _ _ (.rel _ _ h)

theorem eqvGen_of_forall {α : Type} {R S : α → α → Prop} (h : ∀ x y, R x y → EqvGen S x y) {x y : α}
    (hxy : EqvGen R x y) : EqvGen S x y := by
  induction hxy with
  | rel _ _ hr => exact h _ _ hr
  | refl x => exact .refl x
  | symm _ _ _ ih => exact ih.symm _ _
  | trans _ _ _ _ _ ih ih' => exact ih.trans _ _ _ ih'

/-- The equivalence that a relation generates with one more pair. -/
theorem eqvGen_pair {α : Type} {R : α → α → Prop} {a b x y : α} :
    EqvGen (fun x y => R x y ∨ x = a ∧ y = b) x y ↔
      EqvGen R x y ∨ EqvGen R x a ∧ EqvGen R y b ∨ EqvGen R x b ∧ EqvGen R y a := by
  have hR {x y : α} (h : EqvGen R x y) : EqvGen (fun x y => R x y ∨ x = a ∧ y = b) x y :=
    eqvGen_of_forall (fun x y h => .rel _ _ (.inl h)) h
  have hab : EqvGen (fun x y => R x y ∨ x = a ∧ y = b) a b := .rel _ _ (.inr ⟨rfl, rfl⟩)
  constructor
  · intro h
    -- classes are compared as elements of the quotient
    have hq {x y : α} : EqvGen R x y ↔ Quot.mk R x = Quot.mk R y := ⟨Quot.eqvGen_sound, Quot.eqvGen_exact⟩
    simp only [hq]
    induction h with
    | rel x y h =>
      rcases h with h | ⟨rfl, rfl⟩
      · exact .inl (Quot.sound h)
      · exact .inr (.inl ⟨rfl, rfl⟩)
    | refl x => exact .inl rfl
    | symm x y _ ih => grind
    | trans x y z _ _ ih ih' => grind
  · rintro (h | ⟨hx, hy⟩ | ⟨hx, hy⟩)
    · exact hR h
    · exact (hR hx).trans _ _ _ (hab.trans _ _ _ ((hR hy).symm _ _))
    · exact (hR hx).trans _ _ _ ((hab.symm _ _).trans _ _ _ ((hR hy).symm _ _))

/-! ### The loops -/

omit [LinearOrder κ] in
/-- The elements of a list are united with `e`, one after the other. -/
theorem unions_yields {R : Element ν → Element ν → Prop} {xs : List (Element ν)} (hE : WellFormed s E)
    (hR : ∀ x ∈ E, ∀ y ∈ E, Class s x y ↔ EqvGen R x y) (hxs : ∀ x ∈ xs, x ∈ E) (he : e ∈ E) :
    Yields (fun n => xs.forM fun x => union_ n x e) s fun _ s' => WellFormed s' E ∧
      ∀ x ∈ E, ∀ y ∈ E, Class s' x y ↔ EqvGen (fun x y => R x y ∨ x ∈ xs ∧ y = e) x y := by
  refine Yields.forM (fun done s' => WellFormed s' E ∧
    ∀ x ∈ E, ∀ y ∈ E, Class s' x y ↔ EqvGen (fun x y => R x y ∨ x ∈ done ∧ y = e) x y) xs ?_ ?_
  · rintro done z rest rfl s₁ ⟨hE₁, hR₁⟩
    have hz : z ∈ E := hxs z (List.mem_append_right done (List.mem_cons_self ..))
    refine (union_yields hE₁ hz he).mono fun _ s₂ h => ⟨h.1, fun x hx y hy => ?_⟩
    have hrel : (fun x y => R x y ∨ x ∈ done ++ [z] ∧ y = e) =
        fun x y => (R x y ∨ x ∈ done ∧ y = e) ∨ x = z ∧ y = e := by
      funext x y
      simp only [List.mem_append, List.mem_singleton, or_and_right, or_assoc]
    rw [h.2 x hx y hy, hrel, eqvGen_pair, hR₁ x hx y hy, hR₁ x hx z hz, hR₁ y hy e he, hR₁ x hx e he,
      hR₁ y hy z hz]
  · refine ⟨hE, fun x hx y hy => (hR x hx y hy).trans ?_⟩
    simp only [List.not_mem_nil, false_and, or_false]

/-- After the elements `done`: the classes are the chains among them, and each of their names has one of
them in the map. -/
structure Grouping (fn : ν → List κ) (E done : List (Element ν)) (cmap : List (κ × Element ν))
    (s : Store ν) : Prop where
  wf : WellFormed s E
  classes : ∀ x ∈ E, ∀ y ∈ E, Class s x y ↔ EqvGen (Overlap fn done) x y
  holder : ∀ p ∈ cmap, p.2 ∈ done ∧ p.1 ∈ fn p.2.fromElement
  held : ∀ x ∈ done, ∀ b ∈ fn x.fromElement, ∃ e, cmap.lookup b = some e

/-- What the new element overlaps is what has one of its names in the map. -/
theorem Grouping.overlap_snoc (h : Grouping fn E done cmap s) :
    EqvGen (fun x y => Overlap fn done x y ∨
      x ∈ (fn e.fromElement).filterMap (fun b => cmap.lookup b) ∧ y = e) x y ↔
    EqvGen (Overlap fn (done ++ [e])) x y := by
  have hmem {x : Element ν} (hx : x ∈ done) : x ∈ done ++ [e] := List.mem_append_left _ hx
  have he : e ∈ done ++ [e] := List.mem_append_right _ (List.mem_singleton_self e)
  constructor
  · refine eqvGen_of_forall fun x y hxy => .rel _ _ ?_
    rcases hxy with ⟨hx, hy, hb⟩ | ⟨hx, rfl⟩
    · exact ⟨hmem hx, hmem hy, hb⟩
    · obtain ⟨b, hb, hlook⟩ := List.mem_filterMap.mp hx
      obtain ⟨hxd, hbx⟩ := h.holder _ (mem_of_lookup hlook)
      exact ⟨hmem hxd, he, b, hbx, hb⟩
  · -- an overlap with `e` goes over the element that has the common name in the map
    have hnew {x : Element ν} {b : κ} (hx : x ∈ done) (hbx : b ∈ fn x.fromElement)
        (hbe : b ∈ fn e.fromElement) : EqvGen (fun x y => Overlap fn done x y ∨
          x ∈ (fn e.fromElement).filterMap (fun b => cmap.lookup b) ∧ y = e) x e := by
      obtain ⟨z, hz⟩ := h.held x hx b hbx
      obtain ⟨hzd, hbz⟩ := h.holder _ (mem_of_lookup hz)
      exact .trans _ z _ (.rel _ _ (.inl ⟨hx, hzd, b, hbx, hbz⟩))
        (.rel _ _ (.inr ⟨List.mem_filterMap.mpr ⟨b, hbe, hz⟩, rfl⟩))
    refine eqvGen_of_forall fun x y hxy => ?_
    obtain ⟨hx, hy, b, hbx, hby⟩ := hxy
    rcases List.mem_append.mp hx with hxd | hxe <;> rcases List.mem_append.mp hy with hyd | hye
    · exact .rel _ _ (.inl ⟨hxd, hyd, b, hbx, hby⟩)
    · obtain rfl := List.mem_singleton.mp hye
      exact hnew hxd hbx hby
    · obtain rfl := List.mem_singleton.mp hxe
      exact (hnew hyd hby hbx).symm _ _
    · rw [List.mem_singleton.mp hxe, List.mem_singleton.mp hye]
      exact .refl _

theorem addNames_yields (h : Grouping fn E done cmap s) (hdone : ∀ x ∈ done, x ∈ E) (he : e ∈ E) :
    Yields (fun n => addNames n fn cmap e) s fun cmap' s' => Grouping fn E (done ++ [e]) cmap' s' := by
  have hxs : ∀ x ∈ (fn e.fromElement).filterMap (fun b => cmap.lookup b), x ∈ E := by
    intro x hx
    obtain ⟨b, -, hlook⟩ := List.mem_filterMap.mp hx
    exact hdone x (h.holder _ (mem_of_lookup hlook)).1
  refine (unions_yields h.wf h.classes hxs he).bind fun _ s' hs' => .pure ?_
  have he' : e ∈ done ++ [e] := List.mem_append_right _ (List.mem_singleton_self e)
  refine ⟨hs'.1, fun x hx y hy => (hs'.2 x hx y hy).trans h.overlap_snoc, fun p hp => ?_, fun x hx b hb => ?_⟩
  · rcases mem_insertAll hp with ⟨hb, hpe⟩ | hp
    · rw [hpe]
      exact ⟨he', hb⟩
    · obtain ⟨hd, hb⟩ := h.holder p hp
      exact ⟨List.mem_append_left _ hd, hb⟩
  · rw [lookup_insertAll]
    by_cases hbe : b ∈ fn e.fromElement
    · exact ⟨e, if_pos hbe⟩
    · rw [if_neg hbe]
      rcases List.mem_append.mp hx with hx | hx
      · exact h.held x hx b hb
      · rw [List.mem_singleton.mp hx] at hb
        exact absurd hb hbe

theorem addAll_yields (h : Grouping fn E [] [] s) :
    Yields (fun n => E.foldlM (addNames n fn) []) s fun cmap s' => Grouping fn E E cmap s' := by
  refine Yields.foldlM (fun done cmap s' => Grouping fn E done cmap s') E ?_ h
  intro done e rest hE cmap s' hs'
  have hdone : ∀ x ∈ done, x ∈ E := fun x hx => hE ▸ List.mem_append_left _ hx
  exact addNames_yields hs' hdone (hE ▸ List.mem_append_right _ (List.mem_cons_self ..))

/-! ### The result -/

/-- The groups, with the numbers of their roots, and the map from the names to these numbers. -/
structure Grouped (fn : ν → List κ) (E : List (Element ν)) (mp : List (κ × ℕ))
    (groups : List (ℕ × List (Element ν))) : Prop where
  keys : (groups.map Prod.fst).Nodup
  perm : (groups.flatMap Prod.snd).Perm E
  nonempty : ∀ g ∈ groups, g.2 ≠ []
  linked : ∀ g ∈ groups, ∀ x ∈ g.2, ∀ y ∈ E, y ∈ g.2 ↔ Linked fn E x y
  key : ∀ b u, mp.lookup b = some u ↔ ∃ g ∈ groups, g.1 = u ∧ ∃ x ∈ g.2, b ∈ fn x.fromElement

def values (g : ℕ × List (Element ν)) : ℕ × List ν := (g.1, g.2.map Element.fromElement)

omit [LinearOrder κ] in
theorem root_iff (hE : WellFormed s E) (hs : Same s s') (hx : x ∈ E) : Root s' x r ↔ Root s x r := by
  obtain ⟨q, -, hq⟩ := hE.root x hx
  refine ⟨fun h => ?_, hs.root x r⟩
  rw [(hs.root x q hq).unique h] at hq
  exact hq

/-- What is read of a name of the map. -/
theorem nameUnique_yields {p : κ × Element ν} (hE : WellFormed s E) (hs : Same s s') (hp : p.2 ∈ E) :
    Yields (fun n => nameUnique n p) s' fun q s'' =>
      (q.1 = p.1 ∧ ∃ r, Root s p.2 r ∧ q.2 = r.unique) ∧ Same s s'' := by
  refine (getUnique_yields (hE.of_same hs) hp).bind fun u s'' h => .pure ?_
  obtain ⟨⟨r, -, hr, hu⟩, hs'⟩ := h
  exact ⟨⟨rfl, r, (root_iff hE hs hp).mp hr, hu⟩, hs.trans hs'⟩

omit [LinearOrder κ] in
/-- The elements under a root. -/
theorem rootGroup_yields (hE : WellFormed s E) (hs : Same s s') (hr : r ∈ E) (hroot : Root s r r) :
    Yields (fun n => rootGroup n r) s' fun g s'' => (∃ es : List (Element ν), g = values (r.unique, es) ∧
      es.Nodup ∧ ∀ y, y ∈ es ↔ y ∈ E ∧ Class s r y) ∧ Same s s'' := by
  refine (getUnique_yields (hE.of_same hs) hr).bind fun u s₁ h => ?_
  obtain ⟨⟨q, -, hq, rfl⟩, hs₁⟩ := h
  have hqr : q = r := ((root_iff hE hs hr).mp hq).unique hroot
  subst hqr
  have hs' := hs.trans hs₁
  refine (getElements_yields (hE.of_same hs') hr).bind fun es s₂ h => .pure ?_
  obtain ⟨⟨hnd, hmem⟩, hs₂⟩ := h
  refine ⟨⟨es, rfl, hnd, fun y => (hmem y).trans (and_congr_right fun hy => ?_)⟩, hs'.trans hs₂⟩
  exact hE.class_iff hs' hr hy

omit [LinearOrder κ] in
/-- The lists of a run over roots, with their elements. -/
theorem exists_groups {P : Element ν → List (Element ν) → Prop} {gs : List (ℕ × List ν)}
    (h : List.Forall₂ (fun r g => ∃ es, g = values (r.unique, es) ∧ P r es) rs gs) :
    ∃ groups : List (ℕ × List (Element ν)), gs = groups.map values ∧
      List.Forall₂ (fun r g => g.1 = r.unique ∧ P r g.2) rs groups := by
  induction h with
  | nil => exact ⟨[], rfl, .nil⟩
  | cons h _ ih =>
    obtain ⟨es, rfl, hP⟩ := h
    obtain ⟨groups, rfl, hgroups⟩ := ih
    exact ⟨(_, es) :: groups, rfl, .cons ⟨rfl, hP⟩ hgroups⟩

omit [LinearOrder κ] in
/-- A list of pairs is read by name where each name has one number. -/
theorem lookup_forall₂ [DecidableEq κ] {P : κ × Element ν → κ × ℕ → Prop} {mp : List (κ × ℕ)} {b : κ}
    (h : List.Forall₂ (fun p q => q.1 = p.1 ∧ P p q) cmap mp) :
    (cmap.lookup b = none ∧ mp.lookup b = none) ∨
      ∃ e u, cmap.lookup b = some e ∧ mp.lookup b = some u ∧ P (b, e) (b, u) := by
  induction h with
  | nil => exact .inl ⟨rfl, rfl⟩
  | @cons p q cmap mp hpq _ ih =>
    obtain ⟨k, e⟩ := p
    obtain ⟨k', u⟩ := q
    obtain ⟨rfl, hP⟩ := hpq
    rw [List.lookup_cons, List.lookup_cons]
    by_cases hb : b = k'
    · subst hb
      rw [beq_self_eq_true]
      exact .inr ⟨e, u, rfl, rfl, hP⟩
    · rw [beq_eq_false_iff_ne.mpr hb]
      exact ih

theorem exists_mem_right {α β : Type} {P : α → β → Prop} {xs : List α} {ys : List β} (h : List.Forall₂ P xs ys) :
    ∀ x ∈ xs, ∃ y ∈ ys, P x y := by
  induction h with
  | nil => exact fun x hx => absurd hx List.not_mem_nil
  | @cons x y xs ys hxy _ ih =>
    intro z hz
    rcases List.mem_cons.mp hz with rfl | hz
    · exact ⟨y, List.mem_cons_self .., hxy⟩
    · obtain ⟨w, hw, hzw⟩ := ih z hz
      exact ⟨w, List.mem_cons_of_mem y hw, hzw⟩

/-- The last part of the run: the groups of the roots, and the map, make up a grouping. -/
theorem Grouping.grouped {mp : List (κ × ℕ)} {groups : List (ℕ × List (Element ν))} (h : Grouping fn E E cmap s)
    (hE : (E.map Element.unique).Nodup)
    (hmp : List.Forall₂ (fun p q => q.1 = p.1 ∧ ∃ r, Root s p.2 r ∧ q.2 = r.unique) cmap mp)
    (hrs : List.Forall₂ (fun x r => r ∈ E ∧ Root s x r) E rs)
    (hgroups : List.Forall₂ (fun r g => g.1 = r.unique ∧ g.2.Nodup ∧ ∀ y, y ∈ g.2 ↔ y ∈ E ∧ Class s r y)
      (distinct rs) groups) : Grouped fn E mp groups := by
  have hroots : ∀ r ∈ rs, r ∈ E ∧ Root s r r := by
    intro r hr
    obtain ⟨x, -, hrE, hxr⟩ := exists_mem_right hrs.flip r hr
    obtain ⟨w, es, hw⟩ := hxr.weight
    exact ⟨hrE, .here hw⟩
  have hgroup : ∀ g ∈ groups, ∃ r, (r ∈ E ∧ Root s r r) ∧ g.1 = r.unique ∧ g.2.Nodup ∧
      ∀ y, y ∈ g.2 ↔ y ∈ E ∧ Class s r y := by
    intro g hg
    obtain ⟨r, hr, hP⟩ := exists_mem_right hgroups.flip g hg
    exact ⟨r, hroots r (mem_of_distinct hr), hP⟩
  have hkey : ∀ g ∈ groups, ∀ y ∈ g.2, ∀ r, Root s y r → g.1 = r.unique := by
    intro g hg y hy r hyr
    obtain ⟨q, ⟨-, hq⟩, hkey, -, hmem⟩ := hgroup g hg
    obtain ⟨p, hqp, hyp⟩ := ((hmem y).mp hy).2
    rw [hkey, hq.unique hqp, hyp.unique hyr]
  have hcover : ∀ x ∈ E, ∃ g ∈ groups, x ∈ g.2 := by
    intro x hx
    obtain ⟨r, hr, hrE, hxr⟩ := exists_mem_right hrs x hx
    obtain ⟨q, hq, hqr⟩ := List.mem_map.mp ((distinct_uniques rs).2 r hr)
    obtain rfl := h.wf.uniques q (hroots q (mem_of_distinct hq)).1 r hrE hqr
    obtain ⟨g, hg, -, -, hmem⟩ := exists_mem_right hgroups q hq
    exact ⟨g, hg, (hmem x).mpr ⟨hx, q, (hroots q hr).2, hxr⟩⟩
  have hkeys : (groups.map Prod.fst).Nodup := by
    have heq : groups.map Prod.fst = (distinct rs).map Element.unique := by
      have hfst : List.Forall₂ (fun r g => Element.unique r = Prod.fst g) (distinct rs) groups :=
        hgroups.imp fun _ _ h => h.1.symm
      exact (List.forall₂_eq_eq_eq ▸ List.forall₂_map_left_iff.mpr (List.forall₂_map_right_iff.mpr hfst) :
        (distinct rs).map Element.unique = groups.map Prod.fst).symm
    rw [heq]
    exact (distinct_uniques rs).1
  constructor
  case keys => exact hkeys
  case perm =>
    have hnd : (groups.flatMap Prod.snd).Nodup := by
      refine List.nodup_flatMap.mpr ⟨fun g hg => ?_, ?_⟩
      · obtain ⟨_, _, _, hnd, _⟩ := hgroup g hg
        exact hnd
      · refine (List.pairwise_map.mp hkeys).imp_of_mem fun {g g'} hg hg' hne y hy hy' => hne ?_
        obtain ⟨q, _, _, _, hmem⟩ := hgroup g hg
        obtain ⟨r, -, hyr⟩ := ((hmem y).mp hy).2
        rw [hkey g hg y hy r hyr, hkey g' hg' y hy' r hyr]
    refine (List.perm_ext_iff_of_nodup hnd (List.Nodup.of_map _ hE)).mpr fun y => ?_
    rw [List.mem_flatMap]
    constructor
    · rintro ⟨g, hg, hy⟩
      obtain ⟨_, _, _, _, hmem⟩ := hgroup g hg
      exact ((hmem y).mp hy).1
    · exact hcover y
  case nonempty =>
    intro g hg hnil
    obtain ⟨r, ⟨hrE, hr⟩, _, _, hmem⟩ := hgroup g hg
    have hmem_r : r ∈ g.2 := (hmem r).mpr ⟨hrE, r, hr, hr⟩
    rw [hnil] at hmem_r
    exact List.not_mem_nil hmem_r
  case linked =>
    intro g hg x hx y hy
    obtain ⟨r, _, _, _, hmem⟩ := hgroup g hg
    obtain ⟨hxE, hrx⟩ := (hmem x).mp hx
    rw [hmem, ← eqvGen_overlap, ← h.classes x hxE y hy]
    exact ⟨fun hry => hrx.symm.trans hry.2, fun hxy => ⟨hy, hrx.trans hxy⟩⟩
  case key =>
    intro b u
    rcases lookup_forall₂ hmp (b := b) with ⟨hnone, hnone'⟩ | ⟨e, u', he, hu', r, her, hu⟩
    · rw [hnone']
      refine ⟨fun h => (by cases h), ?_⟩
      rintro ⟨g, hg, -, x, hx, hb⟩
      obtain ⟨_, _, _, _, hmem⟩ := hgroup g hg
      obtain ⟨e, he⟩ := h.held x ((hmem x).mp hx).1 b hb
      rw [hnone] at he
      cases he
    · obtain ⟨heE, hbe⟩ := h.holder _ (mem_of_lookup he)
      rw [hu', Option.some_inj]
      constructor
      · rintro rfl
        obtain ⟨g, hg, heg⟩ := hcover e heE
        exact ⟨g, hg, (hkey g hg e heg r her).trans hu.symm, e, heg, hbe⟩
      · rintro ⟨g, hg, rfl, x, hx, hbx⟩
        obtain ⟨_, _, _, _, hmem⟩ := hgroup g hg
        have hxE := ((hmem x).mp hx).1
        obtain ⟨q, hxq, heq⟩ := (h.classes x hxE e heE).mpr (.rel _ _ ⟨hxE, heE, b, hbx, hbe⟩)
        rw [hkey g hg x hx q hxq, heq.unique her]
        exact hu

theorem groupOverlapping.run_yields (xs : List ν) (fn : ν → List κ) (s : Store ν) (hs : s.counter = 0) :
    Yields (fun n => groupOverlapping.run n fn xs) s fun r _ =>
      ∃ groups, r.2 = groups.map values ∧ Grouped fn (elements 0 xs) r.1 groups := by
  refine (mapM_new_ xs s).bind fun E s₁ hE => ?_
  obtain ⟨rfl, hnew, -⟩ := hE
  rw [hs] at hnew ⊢
  have hnd := nodup_elements 0 xs
  generalize elements 0 xs = E at hnew hnd ⊢
  obtain ⟨hwf, hclass⟩ := wellFormed_new hnd hnew
  have hstart : Grouping fn E [] [] s₁ := by
    refine ⟨hwf, fun x hx y hy => (hclass x hx y hy).trans ⟨?_, fun h => ?_⟩, fun _ h => absurd h List.not_mem_nil,
      fun _ h => absurd h List.not_mem_nil⟩
    · rintro rfl
      exact .refl _
    · rw [eqvGen_overlap, Linked] at h
      induction h with
      | refl => rfl
      | tail _ h _ => exact absurd h.1 List.not_mem_nil
  refine (addAll_yields hstart).bind fun cmap s₂ hg => ?_
  have hmp : Yields (fun n => cmap.mapM (nameUnique n)) s₂ fun mp s₃ => List.Forall₂ (fun p q => q.1 = p.1 ∧
      ∃ r, Root s₂ p.2 r ∧ q.2 = r.unique) cmap mp ∧ Same s₂ s₃ := by
    refine Yields.mapM (Same s₂) _ cmap (fun p hp s' hs' => ?_) (.refl s₂)
    exact nameUnique_yields hg.wf hs' (hg.holder p hp).1
  refine hmp.bind fun mp s₃ h₃ => ?_
  have hrs : Yields (fun n => E.mapM (find n)) s₃ fun rs s₄ =>
      List.Forall₂ (fun x r => r ∈ E ∧ Root s₂ x r) E rs ∧ Same s₂ s₄ := by
    refine Yields.mapM (Same s₂) _ E (fun x hx s' hs' => ?_) h₃.2
    refine ((hg.wf.of_same hs').find_yields hx).mono fun r s'' h => ?_
    exact ⟨⟨h.1.1, (root_iff hg.wf hs' hx).mp h.1.2⟩, hs'.trans h.2⟩
  refine hrs.bind fun rs s₄ h₄ => ?_
  have hroots : ∀ r ∈ distinct rs, r ∈ E ∧ Root s₂ r r := by
    intro r hr
    obtain ⟨x, -, hrE, hxr⟩ := exists_mem_right h₄.1.flip r (mem_of_distinct hr)
    obtain ⟨w, es, hw⟩ := hxr.weight
    exact ⟨hrE, .here hw⟩
  have hgs : Yields (fun n => (distinct rs).mapM (rootGroup n)) s₄ fun gs s₅ =>
      List.Forall₂ (fun r g => ∃ es, g = values (r.unique, es) ∧ es.Nodup ∧ ∀ y, y ∈ es ↔ y ∈ E ∧ Class s₂ r y)
        (distinct rs) gs ∧ Same s₂ s₅ := by
    refine Yields.mapM (Same s₂) _ (distinct rs) (fun r hr s' hs' => ?_) h₄.2
    exact rootGroup_yields hg.wf hs' (hroots r hr).1 (hroots r hr).2
  refine hgs.bind fun gs s₅ h₅ => .pure ?_
  obtain ⟨groups, rfl, hgroups⟩ := exists_groups h₅.1
  exact ⟨groups, rfl, hg.grouped hnd h₃.1 h₄.1 hgroups⟩

/-- With fuel enough `groupOverlapping` gives this result. -/
def GroupsTo (fn : ν → List κ) (xs : List ν) (r : List (κ × ℕ) × List (ℕ × List ν)) : Prop :=
  ∃ N, ∀ n, N ≤ n → groupOverlapping n fn xs = some r

theorem GroupsTo.unique {xs : List ν} {r r' : List (κ × ℕ) × List (ℕ × List ν)} (h : GroupsTo fn xs r)
    (h' : GroupsTo fn xs r') : r = r' := by
  obtain ⟨N, hN⟩ := h
  obtain ⟨M, hM⟩ := h'
  have heq := hN (max N M) (le_max_left N M)
  rw [hM (max N M) (le_max_right N M)] at heq
  exact (Option.some.inj heq).symm

/-- Nodes are grouped with those that they overlap, and the names are mapped to the groups of their nodes. -/
theorem groupOverlapping_groups (fn : ν → List κ) (xs : List ν) : ∃ mp groups,
    GroupsTo fn xs (mp, groups.map values) ∧ Grouped fn (elements 0 xs) mp groups := by
  obtain ⟨⟨mp, gs⟩, s', ⟨N, hN⟩, groups, hgs, hg⟩ := groupOverlapping.run_yields xs fn ⟨0, fun _ => .weight 0 []⟩ rfl
  refine ⟨mp, groups, ⟨N, fun n hn => ?_⟩, hg⟩
  have hrun : groupOverlapping.run n fn xs ⟨0, fun _ => .weight 0 []⟩ = .ok ((mp, gs), s') := hN n hn
  rw [groupOverlapping, runUF, hrun, ← hgs]

end Jhc.Util

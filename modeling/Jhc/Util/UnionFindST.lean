import Jhc.Lib.Settles
import Mathlib.Logic.Function.Basic
import Mathlib.Data.List.Nodup

/-!
# Union-find (src/Util/UnionFindST.hs)

An element carries a number, which also stands for its reference. `find` follows references, so that it takes
fuel. The weights have no other content here, as for `union_`.
-/

namespace Jhc.Util.UnionFindST
open Jhc.Lib

variable {α : Type}

structure Element (α : Type) where
  fromElement : α
  unique : ℕ

inductive Link (α : Type) where
  | weight (w : ℕ) (es : List (Element α))
  | next (e : Element α)

/-- The counter and the references of a run. -/
structure Store (α : Type) where
  counter : ℕ
  refs : ℕ → Link α

/-- The error is fuel that has run out, or a root that is not one. -/
abbrev UF (α : Type) := StateT (Store α) (Except Unit)

def runUF {β : Type} (m : UF α β) : Option β :=
  match m ⟨0, fun _ => .weight 0 []⟩ with
  | .ok r => some r.1
  | .error _ => none

def readRef (e : Element α) : UF α (Link α) := fun s => .ok (s.refs e.unique, s)

def writeRef (e : Element α) (l : Link α) : UF α Unit :=
  fun s => .ok ((), { s with refs := Function.update s.refs e.unique l })

def new_ (x : α) : UF α (Element α) := fun s =>
  let e := ⟨x, s.counter + 1⟩
  .ok (e, ⟨s.counter + 1, Function.update s.refs (s.counter + 1) (.weight 1 [e])⟩)

def find : ℕ → Element α → UF α (Element α)
  | 0, _ => throw ()
  | n + 1, x => do
    match ← readRef x with
    | .weight .. => return x
    | .next next => do
      let last ← find n next
      if next.unique ≠ last.unique then writeRef x (.next last)
      return last

def getUnique (n : ℕ) (x : Element α) : UF α ℕ := return (← find n x).unique

def getElements (n : ℕ) (x : Element α) : UF α (List (Element α)) := do
  match ← readRef (← find n x) with
  | .weight _ es => return es
  | .next _ => throw ()

def union_ (n : ℕ) (e1 e2 : Element α) : UF α Unit := do
  let e1' ← find n e1
  let e2' ← find n e2
  if e1'.unique ≠ e2'.unique then
    match ← readRef e1', ← readRef e2' with
    | .weight w1 es1, .weight w2 es2 =>
      if w1 ≤ w2 then do
        writeRef e1' (.next e2')
        writeRef e2' (.weight (w1 + w2) (es1 ++ es2))
      else do
        writeRef e1' (.weight (w1 + w2) (es1 ++ es2))
        writeRef e2' (.next e1')
    | _, _ => throw ()
  else return

/-! ### Roots -/

/-- Following the references from `x` ends in `r`. -/
inductive Root (s : Store α) : Element α → Element α → Prop
  | here {x w es} : s.refs x.unique = .weight w es → Root s x x
  | step {x y r} : s.refs x.unique = .next y → Root s y r → Root s x r

variable {s s' : Store α} {x y r q a b e1 e2 : Element α} {E : List (Element α)}

attribute [local grind =] find

theorem Root.weight (h : Root s x r) : ∃ w es, s.refs r.unique = .weight w es := by
  induction h with
  | here h => exact ⟨_, _, h⟩
  | step _ _ ih => exact ih

theorem Root.unique (h : Root s x r) (h' : Root s x q) : r = q := by
  induction h with
  | here h =>
    cases h' with
    | here _ => rfl
    | step h' _ => cases h.symm.trans h'
  | step h _ ih =>
    cases h' with
    | here h' => cases h.symm.trans h'
    | step h' hr =>
      cases h.symm.trans h'
      exact ih hr

/-- Elements with the same reference, which is not a root, have the same root. -/
theorem Root.of_next (h : Root s x r) (h' : Root s y q) (hxy : x.unique = y.unique) {z : Element α}
    (hz : s.refs x.unique = .next z) : r = q := by
  cases h with
  | here h => cases h.symm.trans hz
  | step h hr =>
    cases h' with
    | here h' => cases (hxy ▸ h').symm.trans hz
    | step h' hq =>
      cases h.symm.trans (hxy ▸ h')
      exact hr.unique hq

/-- What a search keeps: the roots and their weights. -/
structure Same (s s' : Store α) : Prop where
  root : ∀ x r, Root s x r → Root s' x r
  weight : ∀ k w es, s'.refs k = .weight w es ↔ s.refs k = .weight w es

theorem Same.refl (s : Store α) : Same s s := ⟨fun _ _ h => h, fun _ _ _ => Iff.rfl⟩

theorem Same.trans {s'' : Store α} (h : Same s s') (h' : Same s' s'') : Same s s'' where
  root x r hr := h'.root x r (h.root x r hr)
  weight k w es := (h'.weight k w es).trans (h.weight k w es)

/-- A reference is made to lead to the root at once. -/
theorem same_compress (hx : Root s x r) {y : Element α} (hy : s.refs x.unique = .next y) :
    Same s { s with refs := Function.update s.refs x.unique (.next r) } where
  root z q hz := by
    have hroot : s.refs r.unique ≠ .next y := by
      obtain ⟨w, es, hw⟩ := hx.weight
      rw [hw]
      exact fun h => by cases h
    have hne : r.unique ≠ x.unique := fun h => hroot (h ▸ hy)
    have hr : Root { s with refs := Function.update s.refs x.unique (.next r) } r r := by
      obtain ⟨w, es, hw⟩ := hx.weight
      exact .here ((Function.update_of_ne hne ..).trans hw)
    induction hz with
    | @here z w es h =>
      have hzx : z.unique ≠ x.unique := fun heq => by cases h.symm.trans (heq ▸ hy)
      exact .here ((Function.update_of_ne hzx ..).trans h)
    | @step z z' q h hq ih =>
      by_cases hzx : z.unique = x.unique
      · have hqr : q = r := (Root.step h hq).of_next hx hzx h
        subst hqr
        refine .step ?_ hr
        show Function.update s.refs x.unique (.next q) z.unique = .next q
        rw [hzx, Function.update_self]
      · exact .step ((Function.update_of_ne hzx ..).trans h) ih
  weight k w es := by
    show Function.update s.refs x.unique (.next r) k = _ ↔ _
    by_cases hk : k = x.unique
    · subst hk
      rw [Function.update_self, hy]
      exact ⟨fun h => (by cases h), fun h => (by cases h)⟩
    · rw [Function.update_of_ne hk]

theorem readRef_yields (s : Store α) (x : Element α) :
    Yields (fun _ => readRef x) s fun l s' => l = s.refs x.unique ∧ s' = s := .of_eq (fun _ => rfl) ⟨rfl, rfl⟩

theorem writeRef_yields (s : Store α) (x : Element α) (l : Link α) : Yields (fun _ => writeRef x l) s
    fun _ s' => s' = { s with refs := Function.update s.refs x.unique l } := .of_eq (fun _ => rfl) rfl

/-- The search ends at the root. -/
theorem find_yields (h : Root s x r) : Yields (fun n => find n x) s fun r' s' => r' = r ∧ Same s s' := by
  induction h with
  | @here x w es h =>
    refine .of_succ ((readRef_yields s x).bind fun l s' hl => ?_)
    obtain ⟨rfl, rfl⟩ := hl
    rw [h]
    exact .pure ⟨rfl, .refl _⟩
  | @step x y r h hr ih =>
    refine .of_succ ((readRef_yields s x).bind fun l s' hl => ?_)
    obtain ⟨rfl, rfl⟩ := hl
    rw [h]
    refine ih.bind fun last s₁ hs => ?_
    obtain ⟨rfl, hs⟩ := hs
    by_cases hlast : y.unique = last.unique
    · simp only [hlast, ne_eq, not_true_eq_false, if_false]
      exact .pure ⟨rfl, hs⟩
    · simp only [ne_eq, hlast, not_false_eq_true, if_true]
      refine (writeRef_yields s₁ x (.next last)).bind fun _ s₂ hs₂ => ?_
      subst hs₂
      have hx : Root s₁ x last := hs.root x last (.step h hr)
      cases hx with
      | here hw => cases ((hs.weight _ _ _).mp hw).symm.trans h
      | step hn hx => exact .pure ⟨rfl, hs.trans (same_compress (.step hn hx) hn)⟩

/-! ### Stores with their elements -/

/-- The elements `E` have their roots among themselves, and a root has the list of the elements under it. -/
structure WellFormed (s : Store α) (E : List (Element α)) : Prop where
  uniques : ∀ x ∈ E, ∀ y ∈ E, x.unique = y.unique → x = y
  root : ∀ x ∈ E, ∃ r ∈ E, Root s x r
  members : ∀ r ∈ E, ∀ w es, s.refs r.unique = .weight w es → es.Nodup ∧ ∀ x, x ∈ es ↔ x ∈ E ∧ Root s x r

/-- Two elements with one root. -/
def Class (s : Store α) (x y : Element α) : Prop := ∃ r, Root s x r ∧ Root s y r

theorem Class.symm (h : Class s x y) : Class s y x := by
  obtain ⟨r, hx, hy⟩ := h
  exact ⟨r, hy, hx⟩

theorem Class.trans {z : Element α} (h : Class s x y) (h' : Class s y z) : Class s x z := by
  obtain ⟨r, hx, hy⟩ := h
  obtain ⟨q, hy', hz⟩ := h'
  exact ⟨r, hx, (hy'.unique hy) ▸ hz⟩

theorem WellFormed.of_same (h : WellFormed s E) (hs : Same s s') : WellFormed s' E where
  uniques := h.uniques
  root x hx := by
    obtain ⟨r, hr, hroot⟩ := h.root x hx
    exact ⟨r, hr, hs.root x r hroot⟩
  members r hr w es hw := by
    obtain ⟨hnd, hmem⟩ := h.members r hr w es ((hs.weight _ _ _).mp hw)
    refine ⟨hnd, fun x => (hmem x).trans (and_congr_right fun hx => ⟨hs.root x r, fun hx' => ?_⟩)⟩
    obtain ⟨q, -, hq⟩ := h.root x hx
    rw [(hs.root x q hq).unique hx'] at hq
    exact hq

theorem WellFormed.class_iff (h : WellFormed s E) (hs : Same s s') (hx : x ∈ E) (hy : y ∈ E) :
    Class s' x y ↔ Class s x y := by
  obtain ⟨q, -, hq⟩ := h.root x hx
  obtain ⟨p, -, hp⟩ := h.root y hy
  constructor
  · rintro ⟨r, hxr, hyr⟩
    rw [← (hs.root x q hq).unique hxr] at hyr
    rw [(hs.root y p hp).unique hyr] at hp
    exact ⟨q, hq, hp⟩
  · rintro ⟨r, hxr, hyr⟩
    exact ⟨r, hs.root x r hxr, hs.root y r hyr⟩

/-! ### Two roots are linked -/

/-- The root `a` is put under the root `b`, which takes all the elements `es`. -/
def linked (s : Store α) (a b : Element α) (w : ℕ) (es : List (Element α)) : Store α :=
  { s with refs := Function.update (Function.update s.refs a.unique (.next b)) b.unique (.weight w es) }

theorem refs_linked_right {w : ℕ} {es : List (Element α)} : (linked s a b w es).refs b.unique = .weight w es :=
  Function.update_self ..

theorem refs_linked_left {w : ℕ} {es : List (Element α)} (hab : a.unique ≠ b.unique) :
    (linked s a b w es).refs a.unique = .next b :=
  (Function.update_of_ne hab ..).trans (Function.update_self ..)

theorem refs_linked {w : ℕ} {es : List (Element α)} {k : ℕ} (ha : k ≠ a.unique) (hb : k ≠ b.unique) :
    (linked s a b w es).refs k = s.refs k :=
  (Function.update_of_ne hb ..).trans (Function.update_of_ne ha ..)

theorem root_linked (w : ℕ) (es : List (Element α)) (ha : ∃ w es, s.refs a.unique = .weight w es)
    (hb : ∃ w es, s.refs b.unique = .weight w es) (hab : a.unique ≠ b.unique) (h : Root s x q) :
    Root (linked s a b w es) x (if q.unique = a.unique then b else q) := by
  have hbb : Root (linked s a b w es) b b := .here refs_linked_right
  induction h with
  | @here x _ _ h =>
    by_cases hxa : x.unique = a.unique
    · rw [if_pos hxa]
      exact .step (hxa ▸ refs_linked_left hab) hbb
    · rw [if_neg hxa]
      by_cases hxb : x.unique = b.unique
      · exact .here ((congrArg _ hxb).trans refs_linked_right)
      · exact .here ((refs_linked hxa hxb).trans h)
  | @step x y q h _ ih =>
    obtain ⟨_, _, ha⟩ := ha
    obtain ⟨_, _, hb⟩ := hb
    have hxa : x.unique ≠ a.unique := fun heq => by cases ha.symm.trans (heq ▸ h)
    have hxb : x.unique ≠ b.unique := fun heq => by cases hb.symm.trans (heq ▸ h)
    exact .step ((refs_linked hxa hxb).trans h) ih

theorem root_linked_iff {w wa wb : ℕ} {es ea eb : List (Element α)} (hab : a.unique ≠ b.unique)
    (hwa : s.refs a.unique = .weight wa ea) (hwb : s.refs b.unique = .weight wb eb) {p : Element α}
    (hp : Root s x p) : Root (linked s a b w es) x q ↔ q = if p.unique = a.unique then b else p := by
  have hroot := root_linked w es ⟨wa, ea, hwa⟩ ⟨wb, eb, hwb⟩ hab hp
  exact ⟨fun hq => hq.unique hroot, fun hq => hq ▸ hroot⟩

section
variable {w wa wb : ℕ} {es ea eb : List (Element α)} (hE : WellFormed s E) (ha : a ∈ E) (hb : b ∈ E)
  (hab : a.unique ≠ b.unique) (hwa : s.refs a.unique = .weight wa ea) (hwb : s.refs b.unique = .weight wb eb)
include hE ha hb hab hwa hwb

theorem wellFormed_linked (hnd : es.Nodup) (hes : ∀ x, x ∈ es ↔ x ∈ ea ∨ x ∈ eb) :
    WellFormed (linked s a b w es) E where
  uniques := hE.uniques
  root x hx := by
    obtain ⟨p, hpE, hp⟩ := hE.root x hx
    refine ⟨if p.unique = a.unique then b else p, ?_, root_linked w es ⟨wa, ea, hwa⟩ ⟨wb, eb, hwb⟩ hab hp⟩
    split_ifs
    · exact hb
    · exact hpE
  members r hr w' es' hw := by
    obtain ⟨-, hma⟩ := hE.members a ha wa ea hwa
    obtain ⟨-, hmb⟩ := hE.members b hb wb eb hwb
    have hraa : Root s a a := .here hwa
    by_cases hrb : r.unique = b.unique
    · obtain rfl := hE.uniques r hr b hb hrb
      cases refs_linked_right.symm.trans hw
      refine ⟨hnd, fun x => ?_⟩
      rw [hes, hma, hmb, ← and_or_left]
      refine and_congr_right fun hx => ?_
      obtain ⟨p, hpE, hp⟩ := hE.root x hx
      rw [root_linked_iff hab hwa hwb hp]
      by_cases hpa : p.unique = a.unique
      · obtain rfl := hE.uniques p hpE a ha hpa
        simp only [if_true, hp, true_or]
      · rw [if_neg hpa]
        constructor
        · rintro (h | h)
          · exact absurd (congrArg Element.unique (hp.unique h)) hpa
          · exact (hp.unique h).symm
        · rintro rfl
          exact .inr hp
    · have hra : r.unique ≠ a.unique := fun heq => by cases (refs_linked_left hab).symm.trans (heq ▸ hw)
      have hw' : s.refs r.unique = .weight w' es' := (refs_linked hra hrb).symm.trans hw
      obtain ⟨hnd', hm⟩ := hE.members r hr w' es' hw'
      refine ⟨hnd', fun x => (hm x).trans (and_congr_right fun hx => ?_)⟩
      obtain ⟨p, hpE, hp⟩ := hE.root x hx
      rw [root_linked_iff hab hwa hwb hp]
      by_cases hpa : p.unique = a.unique
      · rw [if_pos hpa]
        constructor
        · exact fun h => absurd ((congrArg Element.unique (h.unique hp)).trans hpa) hra
        · exact fun h => absurd (congrArg Element.unique h) hrb
      · rw [if_neg hpa]
        exact ⟨fun h => h.unique hp, fun h => h ▸ hp⟩

theorem class_linked (hx : x ∈ E) (hy : y ∈ E) : Class (linked s a b w es) x y ↔
    Class s x y ∨ Root s x a ∧ Root s y b ∨ Root s x b ∧ Root s y a := by
  obtain ⟨p, hpE, hp⟩ := hE.root x hx
  obtain ⟨q, hqE, hq⟩ := hE.root y hy
  have hroot {z t : Element α} (hz : Root s z t) (c : Element α) : Root s z c ↔ t = c :=
    ⟨fun h => hz.unique h, fun h => h ▸ hz⟩
  have hclass : Class s x y ↔ p = q :=
    ⟨fun ⟨r, hxr, hyr⟩ => (hp.unique hxr).trans (hyr.unique hq), fun h => ⟨p, hp, h ▸ hq⟩⟩
  have hclass' : Class (linked s a b w es) x y ↔
      (if p.unique = a.unique then b else p) = if q.unique = a.unique then b else q := by
    simp only [Class, root_linked_iff hab hwa hwb hp, root_linked_iff hab hwa hwb hq,
      exists_eq_left]
  have hne : a ≠ b := fun h => hab (congrArg _ h)
  rw [hclass', hclass, hroot hp, hroot hp, hroot hq, hroot hq]
  by_cases hpa : p.unique = a.unique <;> by_cases hqa : q.unique = a.unique
  · have hpq : p = q := hE.uniques p hpE q hqE (hpa.trans hqa.symm)
    simp only [hpa, hqa, if_true, hpq, true_or]
  · obtain rfl := hE.uniques p hpE a ha hpa
    have hqp : q ≠ p := fun h => hqa (congrArg _ h)
    rw [if_pos rfl, if_neg hqa]
    constructor
    · rintro rfl
      exact .inr (.inl ⟨rfl, rfl⟩)
    · rintro (h | ⟨-, h⟩ | ⟨h, -⟩)
      · exact absurd h.symm hqp
      · exact h.symm
      · exact absurd h hne
  · obtain rfl := hE.uniques q hqE a ha hqa
    have hpq : p ≠ q := fun h => hpa (congrArg _ h)
    rw [if_neg hpa, if_pos rfl]
    constructor
    · rintro rfl
      exact .inr (.inr ⟨rfl, rfl⟩)
    · rintro (h | ⟨h, -⟩ | ⟨h, -⟩)
      · exact absurd h hpq
      · exact absurd h hpq
      · exact h
  · have hpa' : p ≠ a := fun h => hpa (congrArg _ h)
    have hqa' : q ≠ a := fun h => hqa (congrArg _ h)
    rw [if_neg hpa, if_neg hqa]
    constructor
    · exact .inl
    · rintro (h | ⟨h, -⟩ | ⟨-, h⟩)
      · exact h
      · exact absurd h hpa'
      · exact absurd h hqa'

end

/-! ### Operations -/

theorem WellFormed.find_yields (hE : WellFormed s E) (hx : x ∈ E) : Yields (fun n => find n x) s
    fun r s' => (r ∈ E ∧ Root s x r) ∧ Same s s' := by
  obtain ⟨r, hr, hroot⟩ := hE.root x hx
  refine (UnionFindST.find_yields hroot).mono fun r' s' h => ?_
  obtain ⟨rfl, hs⟩ := h
  exact ⟨⟨hr, hroot⟩, hs⟩

theorem getUnique_yields (hE : WellFormed s E) (hx : x ∈ E) : Yields (fun n => getUnique n x) s
    fun u s' => (∃ r ∈ E, Root s x r ∧ u = r.unique) ∧ Same s s' := by
  refine (hE.find_yields hx).bind fun r s' h => .pure ⟨⟨r, h.1.1, h.1.2, rfl⟩, h.2⟩

/-- The elements with the root of `x`. -/
theorem getElements_yields (hE : WellFormed s E) (hx : x ∈ E) : Yields (fun n => getElements n x) s
    fun es s' => (es.Nodup ∧ ∀ y, y ∈ es ↔ y ∈ E ∧ Class s x y) ∧ Same s s' := by
  refine (hE.find_yields hx).bind fun r s₁ h => ?_
  obtain ⟨⟨hr, hroot⟩, hs⟩ := h
  refine (readRef_yields s₁ r).bind fun l s₂ hl => ?_
  obtain ⟨rfl, rfl⟩ := hl
  obtain ⟨w, es, hw⟩ := hroot.weight
  rw [(hs.weight _ _ _).mpr hw]
  obtain ⟨hnd, hmem⟩ := hE.members r hr w es hw
  refine .pure ⟨⟨hnd, fun y => (hmem y).trans (and_congr_right fun _ => ?_)⟩, hs⟩
  exact ⟨fun hy => ⟨r, hroot, hy⟩, fun ⟨q, hxq, hyq⟩ => (hxq.unique hroot) ▸ hyq⟩

/-- The classes of the two elements become one, and no others do. -/
theorem union_yields (hE : WellFormed s E) (h1 : e1 ∈ E) (h2 : e2 ∈ E) : Yields (fun n => union_ n e1 e2) s
    fun _ s' => WellFormed s' E ∧ ∀ x ∈ E, ∀ y ∈ E, (Class s' x y ↔
      Class s x y ∨ Class s x e1 ∧ Class s y e2 ∨ Class s x e2 ∧ Class s y e1) := by
  refine (hE.find_yields h1).bind fun r1 s₁ hf1 => ?_
  obtain ⟨⟨hr1, hroot1⟩, hs₁⟩ := hf1
  refine ((hE.of_same hs₁).find_yields h2).bind fun r2 s₂ hf2 => ?_
  obtain ⟨⟨hr2, hroot2'⟩, hs₂⟩ := hf2
  have hs : Same s s₂ := hs₁.trans hs₂
  have hE₂ : WellFormed s₂ E := hE.of_same hs
  have hroot2 : Root s₂ e2 r2 := hs₂.root _ _ hroot2'
  have hroot1 : Root s₂ e1 r1 := hs.root _ _ hroot1
  have hclass {x e r : Element α} (hx : x ∈ E) (he : e ∈ E) (hr : Root s₂ e r) :
      Class s x e ↔ Root s₂ x r := by
    rw [← hE.class_iff hs hx he]
    exact ⟨fun ⟨q, hxq, heq⟩ => (heq.unique hr) ▸ hxq, fun h => ⟨r, h, hr⟩⟩
  by_cases hne : r1.unique = r2.unique
  · obtain rfl := hE.uniques r1 hr1 r2 hr2 hne
    simp only [ne_eq, not_true_eq_false, if_false]
    refine .pure ⟨hE₂, fun x hx y hy => ?_⟩
    rw [hE.class_iff hs hx hy, hclass hx h1 hroot1, hclass hy h2 hroot2, hclass hx h2 hroot2,
      hclass hy h1 hroot1, or_self, ← hE.class_iff hs hx hy]
    exact ⟨.inl, fun h => h.elim id fun h => ⟨r1, h.1, h.2⟩⟩
  · simp only [ne_eq, hne, not_false_eq_true, if_true]
    obtain ⟨w1, es1, hw1⟩ := hroot1.weight
    obtain ⟨w2, es2, hw2⟩ := hroot2.weight
    refine (readRef_yields s₂ r1).bind fun l₁ s₃ hl₁ => ?_
    obtain ⟨rfl, rfl⟩ := hl₁
    refine (readRef_yields s₃ r2).bind fun l₂ s₄ hl₂ => ?_
    obtain ⟨rfl, rfl⟩ := hl₂
    rw [hw1, hw2]
    have hnd : (es1 ++ es2).Nodup := by
      obtain ⟨hnd1, hm1⟩ := hE₂.members r1 hr1 w1 es1 hw1
      obtain ⟨hnd2, hm2⟩ := hE₂.members r2 hr2 w2 es2 hw2
      refine hnd1.append hnd2 fun x hx1 hx2 => hne ?_
      exact congrArg _ (((hm1 x).mp hx1).2.unique ((hm2 x).mp hx2).2)
    have hclasses {a b : Element α} {s' : Store α} (hab : (∀ x ∈ E, ∀ y ∈ E, (Class s' x y ↔
        Class s₄ x y ∨ Root s₄ x a ∧ Root s₄ y b ∨ Root s₄ x b ∧ Root s₄ y a)))
        (hr : a = r1 ∧ b = r2 ∨ a = r2 ∧ b = r1) : ∀ x ∈ E, ∀ y ∈ E, (Class s' x y ↔
        Class s x y ∨ Class s x e1 ∧ Class s y e2 ∨ Class s x e2 ∧ Class s y e1) := by
      intro x hx y hy
      rw [hab x hx y hy, hE.class_iff hs hx hy, hclass hx h1 hroot1, hclass hy h2 hroot2,
        hclass hx h2 hroot2, hclass hy h1 hroot1]
      obtain ⟨rfl, rfl⟩ | ⟨rfl, rfl⟩ := hr
      · exact Iff.rfl
      · exact or_congr_right or_comm
    by_cases hw : w1 ≤ w2
    · simp only [hw, if_true]
      refine (writeRef_yields _ r1 (.next r2)).bind fun _ s₅ hs₅ => ?_
      refine (writeRef_yields s₅ r2 (.weight (w1 + w2) (es1 ++ es2))).mono fun _ s₆ hs₆ => ?_
      have hlink : s₆ = linked s₄ r1 r2 (w1 + w2) (es1 ++ es2) := by rw [hs₆, hs₅, linked]
      subst hlink
      refine ⟨wellFormed_linked hE₂ hr1 hr2 hne hw1 hw2 hnd fun x => List.mem_append, ?_⟩
      exact hclasses (fun x hx y hy => class_linked hE₂ hr1 hr2 hne hw1 hw2 hx hy) (.inl ⟨rfl, rfl⟩)
    · simp only [hw, if_false]
      refine (writeRef_yields _ r1 (.weight (w1 + w2) (es1 ++ es2))).bind fun _ s₅ hs₅ => ?_
      refine (writeRef_yields s₅ r2 (.next r1)).mono fun _ s₆ hs₆ => ?_
      have hlink : s₆ = linked s₄ r2 r1 (w1 + w2) (es1 ++ es2) := by
        rw [hs₆, hs₅, linked, Function.update_comm (Ne.symm hne)]
      subst hlink
      have hne' : r2.unique ≠ r1.unique := Ne.symm hne
      refine ⟨wellFormed_linked hE₂ hr2 hr1 hne' hw2 hw1 hnd fun x => List.mem_append.trans or_comm, ?_⟩
      exact hclasses (fun x hx y hy => class_linked hE₂ hr2 hr1 hne' hw2 hw1 hx hy)
        (.inr ⟨rfl, rfl⟩)

/-! ### New elements -/

/-- The elements made for a list of values, numbered in order. -/
def elements (n : ℕ) : List α → List (Element α)
  | [] => []
  | x :: xs => ⟨x, n + 1⟩ :: elements (n + 1) xs

attribute [local grind =] elements

theorem map_elements (n : ℕ) (xs : List α) : (elements n xs).map Element.fromElement = xs := by
  induction xs generalizing n with
  | nil => rfl
  | cons x xs ih => rw [elements, List.map_cons, ih]

theorem lt_of_mem_elements {n : ℕ} {xs : List α} (h : x ∈ elements n xs) : n < x.unique := by
  induction xs generalizing n with
  | nil => cases h
  | cons y xs ih =>
    rcases List.mem_cons.mp h with rfl | h
    · exact Nat.lt_succ_self n
    · exact Nat.lt_of_succ_lt (ih h)

theorem nodup_elements (n : ℕ) (xs : List α) : ((elements n xs).map Element.unique).Nodup := by
  induction xs generalizing n with
  | nil => exact List.nodup_nil
  | cons y xs ih =>
    rw [elements, List.map_cons, List.nodup_cons]
    refine ⟨fun h => ?_, ih (n + 1)⟩
    obtain ⟨x, hx, hxn⟩ := List.mem_map.mp h
    exact Nat.lt_irrefl _ (hxn ▸ lt_of_mem_elements hx)

theorem mapM_new_ (xs : List α) (s : Store α) : Yields (fun _ => xs.mapM new_) s fun es s' =>
    es = elements s.counter xs ∧ (∀ e ∈ es, s'.refs e.unique = .weight 1 [e]) ∧
      ∀ k ≤ s.counter, s'.refs k = s.refs k := by
  induction xs generalizing s with
  | nil => exact .pure ⟨rfl, fun _ h => absurd h List.not_mem_nil, fun _ _ => rfl⟩
  | cons x xs ih =>
    simp only [List.mapM_cons]
    have hnew : Yields (fun _ : ℕ => new_ x) s fun e s₁ => e = ⟨x, s.counter + 1⟩ ∧
        s₁ = ⟨s.counter + 1, Function.update s.refs (s.counter + 1) (.weight 1 [⟨x, s.counter + 1⟩])⟩ :=
      .of_eq (fun _ => rfl) ⟨rfl, rfl⟩
    refine hnew.bind fun e s₁ he => ?_
    obtain ⟨rfl, rfl⟩ := he
    refine (ih _).bind fun es s₂ hes => .pure ?_
    obtain ⟨rfl, hw, hkeep⟩ := hes
    refine ⟨rfl, fun e he => ?_, fun k hk => ?_⟩
    · rcases List.mem_cons.mp he with rfl | he
      · exact (hkeep _ (Nat.le_refl _)).trans (Function.update_self ..)
      · exact hw e he
    · exact (hkeep k (Nat.le_succ_of_le hk)).trans (Function.update_of_ne (by omega) ..)

/-- Elements that are all roots of themselves. -/
theorem wellFormed_new (hu : (E.map Element.unique).Nodup) (h : ∀ e ∈ E, s.refs e.unique = .weight 1 [e]) :
    WellFormed s E ∧ ∀ x ∈ E, ∀ y ∈ E, Class s x y ↔ x = y := by
  have hroot : ∀ e ∈ E, Root s e e := fun e he => .here (h e he)
  refine ⟨⟨fun x hx y hy heq => List.inj_on_of_nodup_map hu hx hy heq, fun x hx => ⟨x, hx, hroot x hx⟩, ?_⟩, ?_⟩
  · intro r hr w es hw
    cases (h r hr).symm.trans hw
    refine ⟨List.nodup_singleton r, fun x => List.mem_singleton.trans ?_⟩
    exact ⟨fun hx => hx.symm ▸ ⟨hr, hroot r hr⟩, fun hx => (hroot x hx.1).unique hx.2⟩
  · intro x hx y hy
    constructor
    · rintro ⟨r, hxr, hyr⟩
      exact ((hroot x hx).unique hxr).trans ((hroot y hy).unique hyr).symm
    · rintro rfl
      exact ⟨x, hroot x hx, hroot x hx⟩

end Jhc.Util.UnionFindST

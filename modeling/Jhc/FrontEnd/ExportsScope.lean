import Jhc.FrontEnd.ExportsReport

/-!
# The relations that the code computes

One lemma for each function: which pairs are in its relation.
-/

namespace Jhc.FrontEnd.Exports
open Jhc.Util

section
variable {ownsMap : Owns} {wordOf : Name → ℕ} {k x y : Name}

/-! ### Import and export items -/

theorem mem_restrictDomain {f : Name → Bool} {r : Util.Rel Name Name} :
    (x, y) ∈ r.restrictDomain f ↔ (x, y) ∈ r ∧ f x = true := Finset.mem_filter

theorem mem_restrictRange {f : Name → Bool} {r : Util.Rel Name Name} :
    (x, y) ∈ r.restrictRange f ↔ (x, y) ∈ r ∧ f y = true := Finset.mem_filter

theorem mem_range {r : Util.Rel Name Name} : y ∈ r.range ↔ ∃ x, (x, y) ∈ r := by
  simp [Util.Rel.range]

theorem mem_entSpec (isHiding : Bool) (rel : Util.Rel Name Name) (mnt : Option NameType) (e : HsEntSpec) :
    (x, y) ∈ entSpec ownsMap isHiding rel mnt e ↔
      (x, y) ∈ rel ∧ Selects ownsMap isHiding (fun a b => (a, b) ∈ rel) mnt e x y := by
  induction e generalizing mnt with
  | var n => exact Finset.mem_filter
  | abs n =>
    cases mnt with
    | none => cases isHiding <;> simp [entSpec, Selects, thingNames, mem_restrictDomain, or_assoc]
    | some nt => simp [entSpec, Selects, mem_restrictDomain]
  | thingAll n =>
    have hcase : (x, y) ∈ entSpec ownsMap isHiding rel mnt (.thingAll n) ↔
        ((x, y) ∈ rel ∧ x ∈ thingNames mnt n) ∨ (x, y) ∈ rel ∧ ∃ o, (∃ t, (t, o) ∈ rel ∧ t ∈ thingNames mnt n) ∧ y ∈ ownsMap o := by
      cases mnt <;> simp [entSpec, mem_restrictDomain, mem_restrictRange, mem_range]
    rw [hcase, ← and_or_left]
    refine and_congr_right fun _ => or_congr_right ?_
    constructor
    · rintro ⟨o, ⟨t, hr, ht⟩, hy⟩
      exact ⟨t, o, ht, hr, hy⟩
    · rintro ⟨t, o, ht, hr, hy⟩
      exact ⟨o, ⟨t, hr, ht⟩, hy⟩
  | thingWith n xs => cases mnt <;> simp [entSpec, Selects, mem_restrictDomain]
  | qualified t e ih => exact ih (some t)

theorem mem_foldr_union {α : Type} {l : List α} {f : α → Util.Rel Name Name} {q : Name × Name} :
    q ∈ l.foldr (fun a r => f a ∪ r) ∅ ↔ ∃ a ∈ l, q ∈ f a := by
  induction l with
  | nil => simp
  | cons a l ih => simp [ih]

theorem mem_importSpec (es : Util.Rel Name Name) (i : HsImportDecl) :
    (k, y) ∈ importSpec ownsMap es i ↔
      Provides ownsMap i (fun a b => (a, b) ∈ es) (fun a b => (a, b) ∈ es) k y := by
  cases hspec : i.spec with
  | none => simp [importSpec, Provides, hspec]
  | some listed =>
    obtain ⟨isHiding, xs⟩ := listed
    cases isHiding
    · simp only [importSpec, Provides, hspec, Bool.false_eq_true, if_false, mem_foldr_union, mem_entSpec]
      exact ⟨fun ⟨e, he, hmem, hsel⟩ => ⟨hmem, e, he, hsel⟩, fun ⟨hmem, e, he, hsel⟩ => ⟨e, he, hmem, hsel⟩⟩
    · simp only [importSpec, Provides, hspec, if_true, Finset.mem_sdiff, mem_foldr_union, mem_entSpec]
      exact and_congr_right fun hmem => not_congr
        ⟨fun ⟨e, he, _, hsel⟩ => ⟨e, he, hsel⟩, fun ⟨e, he, hsel⟩ => ⟨e, he, hmem, hsel⟩⟩

/-! ### Scopes -/

def Unqualified (r : Util.Rel Name Name) : Prop := ∀ q ∈ r, q.1.getModule = none

theorem qualifyName_inj {m : Module} {a b : Name} (ha : a.getModule = none) (hb : b.getModule = none)
    (h : qualifyName m a = qualifyName m b) : a = b := by
  cases a with
  | mk t ma i =>
    cases b with
    | mk t' mb i' =>
      obtain rfl : ma = none := ha
      obtain rfl : mb = none := hb
      simpa [qualifyName] using h

theorem mem_mapDomain_qualify {m : Module} {r : Util.Rel Name Name} (hr : Unqualified r) :
    (k, y) ∈ Util.Rel.mapDomain wordOf (qualifyName m) r ↔ ∃ k', (k', y) ∈ r ∧ qualifyName m k' = k := by
  rw [Util.Rel.mem_mapDomain]
  constructor
  · rintro ⟨k', hmem, hk, -⟩
    exact ⟨k', hmem, hk⟩
  · rintro ⟨k', hmem, rfl⟩
    refine ⟨k', hmem, rfl, fun q hq heq => ?_⟩
    rw [qualifyName_inj (hr q hq) (hr _ hmem) heq]

theorem Unqualified.importSpec {es : Util.Rel Name Name} (h : Unqualified es) (i : HsImportDecl) :
    Unqualified (importSpec ownsMap es i) := by
  rintro ⟨a, b⟩ hq
  exact h (a, b) ((mem_importSpec es i).1 hq).1

theorem mem_importDecl {es : Util.Rel Name Name} (h : Unqualified es) (i : HsImportDecl) :
    (k, y) ∈ importDecl ownsMap wordOf es i ↔
      ∃ k', Provides ownsMap i (fun a b => (a, b) ∈ es) (fun a b => (a, b) ∈ es) k' y ∧
        (k = qualifyName (i.as.getD i.module) k' ∨ i.qualified = false ∧ k = k') := by
  unfold importDecl
  rw [Finset.mem_union, mem_mapDomain_qualify (h.importSpec i)]
  constructor
  · rintro (⟨k', hmem, rfl⟩ | hmem)
    · exact ⟨k', (mem_importSpec es i).1 hmem, .inl rfl⟩
    · cases hq : i.qualified with
      | true => simp [hq] at hmem
      | false =>
        rw [hq] at hmem
        exact ⟨k, (mem_importSpec es i).1 hmem, .inr ⟨rfl, rfl⟩⟩
  · rintro ⟨k', hprov, rfl | ⟨hq, rfl⟩⟩
    · exact .inl ⟨k', (mem_importSpec es i).2 hprov, rfl⟩
    · refine .inr ?_
      rw [hq]
      exact (mem_importSpec es i).2 hprov

/-- What `getImports` returns when the modules export `rel`. -/
def scopeOf (ownsMap : Owns) (wordOf : Name → ℕ) (mi : ModInfo) (rel : Module → Util.Rel Name Name) : Util.Rel Name Name :=
  ((modInfoModImports mi).map fun x => importDecl ownsMap wordOf (rel x.module) x).foldr (· ∪ ·) ∅ ∪
    Util.Rel.ofList (mi.defs.flatMap fun z => [(toUnqualified z, z), (z, z)])

def familyOf (rel : Module → Util.Rel Name Name) : Family := fun m k y => (k, y) ∈ rel m

theorem mem_scopeOf {mi : ModInfo} {rel : Module → Util.Rel Name Name} (h : ∀ m, Unqualified (rel m)) :
    (k, y) ∈ scopeOf ownsMap wordOf mi rel ↔ Scope ownsMap mi (familyOf rel) (familyOf rel) k y := by
  have himports : (k, y) ∈ ((modInfoModImports mi).map fun x => importDecl ownsMap wordOf (rel x.module) x).foldr (· ∪ ·) ∅ ↔
      ∃ x ∈ modInfoModImports mi, (k, y) ∈ importDecl ownsMap wordOf (rel x.module) x := by
    rw [List.foldr_map]
    exact mem_foldr_union
  have hdefs : (k, y) ∈ Util.Rel.ofList (mi.defs.flatMap fun z => [(toUnqualified z, z), (z, z)]) ↔
      y ∈ mi.defs ∧ (k = toUnqualified y ∨ k = y) := by
    simp only [Util.Rel.ofList, List.mem_toFinset, List.mem_flatMap, List.mem_cons, Prod.mk.injEq, List.not_mem_nil, or_false]
    constructor
    · rintro ⟨z, hz, ⟨rfl, rfl⟩ | ⟨rfl, rfl⟩⟩
      · exact ⟨hz, .inl rfl⟩
      · exact ⟨hz, .inr rfl⟩
    · rintro ⟨hy, rfl | rfl⟩
      · exact ⟨y, hy, .inl ⟨rfl, rfl⟩⟩
      · exact ⟨k, hy, .inr ⟨rfl, rfl⟩⟩
  unfold scopeOf
  rw [Finset.mem_union, himports, hdefs, or_comm]
  refine or_congr_right (exists_congr fun x => and_congr_right fun _ => ?_)
  exact mem_importDecl (h x.module) x

/-! ### Exports -/

theorem toUnqualified_of_none (h : k.getModule = none) : toUnqualified k = k := by
  cases k with
  | mk t m i =>
    obtain rfl : m = none := h
    rfl

theorem toUnqualified_qualifyName {m : Module} (h : k.getModule = none) : toUnqualified (qualifyName m k) = k := by
  cases k with
  | mk t m i =>
    obtain rfl : m = none := h
    rfl

theorem mem_moduleContents {m : Module} {is : Util.Rel Name Name} :
    (x, y) ∈ exportSpec ownsMap wordOf is (.moduleContents m) ↔
      ∃ k, k.getModule = none ∧ (k, y) ∈ is ∧ qualifyName m k = x ∧ (x, y) ∈ is := by
  have hunq : Unqualified (Util.Rel.restrictDomain (fun x => !x.getModule.isSome) is) := by
    rintro ⟨a, b⟩ hq
    simpa using (mem_restrictDomain.1 hq).2
  unfold exportSpec
  simp only [Util.Rel.partitionDomain, Finset.mem_inter, mem_mapDomain_qualify hunq, mem_restrictDomain]
  constructor
  · rintro ⟨⟨k, ⟨hmem, hnone⟩, hk⟩, hx, -⟩
    exact ⟨k, by simpa using hnone, hmem, hk, hx⟩
  · rintro ⟨k, hnone, hmem, rfl, hx⟩
    refine ⟨⟨k, ⟨hmem, by simp [hnone]⟩, rfl⟩, hx, ?_⟩
    simp [qualifyName, hnone]

theorem mem_exportSpec {mi : ModInfo} {T r : Family} {is : Util.Rel Name Name}
    (his : ∀ a b, (a, b) ∈ is ↔ Scope ownsMap mi T r a b) (z : HsExportSpec) :
    (∃ x, (x, y) ∈ exportSpec ownsMap wordOf is z ∧ k = toUnqualified x) ↔ ItemExports ownsMap mi T r k y z := by
  cases z with
  | moduleContents m =>
    simp only [mem_moduleContents, ItemExports, ← his]
    constructor
    · rintro ⟨x, ⟨k', hnone, hmem, rfl, hx⟩, rfl⟩
      rw [toUnqualified_qualifyName hnone]
      exact ⟨hnone, hmem, hx⟩
    · rintro ⟨hnone, hmem, hx⟩
      exact ⟨_, ⟨k, hnone, hmem, rfl, hx⟩, (toUnqualified_qualifyName hnone).symm⟩
  | ent e =>
    have hrel : (fun a b => (a, b) ∈ is) = Scope ownsMap mi T r := funext fun a => funext fun b => propext (his a b)
    simp only [exportSpec, mem_entSpec, ItemExports, ← hrel, and_assoc]

/-- What `getExports` returns when the modules export `rel`. -/
def exportsRel (ownsMap : Owns) (wordOf : Name → ℕ) (mi : ModInfo) (rel : Module → Util.Rel Name Name) : Util.Rel Name Name :=
  match mi.exports with
  | none => defsToRel mi.defs
  | some es => Util.Rel.mapDomain wordOf toUnqualified (exportList ownsMap wordOf (scopeOf ownsMap wordOf mi rel) es)

theorem mem_defsToRel {xs : List Name} : (k, y) ∈ defsToRel xs ↔ y ∈ xs ∧ k = toUnqualified y := by
  simp only [defsToRel, Util.Rel.ofList, List.mem_toFinset, List.mem_map, Prod.mk.injEq]
  constructor
  · rintro ⟨z, hz, rfl, rfl⟩
    exact ⟨hz, rfl⟩
  · rintro ⟨hy, rfl⟩
    exact ⟨y, hy, rfl, rfl⟩

/-- Nothing of the export list is lost. -/
def KeepsAll (ownsMap : Owns) (wordOf : Name → ℕ) (mi : ModInfo) (rel : Module → Util.Rel Name Name) : Prop :=
  ∀ es, mi.exports = some es →
    Util.Rel.Absorbs wordOf toUnqualified (exportList ownsMap wordOf (scopeOf ownsMap wordOf mi rel) es)

theorem mem_exportsRel (hinj : Function.Injective wordOf) {mi : ModInfo} {rel : Module → Util.Rel Name Name}
    (h : ∀ m, Unqualified (rel m)) (hkeep : KeepsAll ownsMap wordOf mi rel) :
    (k, y) ∈ exportsRel ownsMap wordOf mi rel ↔ ModuleExports ownsMap mi (familyOf rel) (familyOf rel) k y := by
  unfold exportsRel ModuleExports
  cases hes : mi.exports with
  | none => exact mem_defsToRel
  | some es =>
    have hscope : ∀ a b, (a, b) ∈ scopeOf ownsMap wordOf mi rel ↔ Scope ownsMap mi (familyOf rel) (familyOf rel) a b :=
      fun a b => mem_scopeOf h
    have hitem : ∀ z, (∃ x, (x, y) ∈ exportSpec ownsMap wordOf (scopeOf ownsMap wordOf mi rel) z ∧ k = toUnqualified x) ↔
        ItemExports ownsMap mi (familyOf rel) (familyOf rel) k y z := fun z => mem_exportSpec hscope z
    dsimp only
    rw [(Util.Rel.mapDomain_eq_image_iff hinj).2 (hkeep es hes), Finset.mem_image]
    simp only [← hitem, exportList, Prod.exists, mem_foldr_union, Prod.mk.injEq]
    constructor
    · rintro ⟨x, b, ⟨z, hz, hmem⟩, rfl, rfl⟩
      exact ⟨z, hz, x, hmem, rfl⟩
    · rintro ⟨z, hz, x, hmem, rfl⟩
      exact ⟨x, y, ⟨z, hz, hmem⟩, rfl, rfl⟩

end

end Jhc.FrontEnd.Exports

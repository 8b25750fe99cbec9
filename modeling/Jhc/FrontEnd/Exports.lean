import Mathlib.Data.Finset.Image
import Mathlib.Data.Finset.Max
import Jhc.Util.FindFixpoint

/-!
# Relations (Util/Relation.hs)

A `Rel` is the set of its pairs: no operation leaves a key with an empty set of values. Keys
are ordered by a number (`wordOf`, the word of a name).
-/

namespace Jhc.Util

abbrev Rel (α β : Type) := Finset (α × β)

namespace Rel
variable {α β γ : Type} [DecidableEq α] [DecidableEq β] [DecidableEq γ]

def ofList (xs : List (α × β)) : Rel α β := xs.toFinset

def restrictDomain (f : α → Bool) (r : Rel α β) : Rel α β := r.filter fun p => f p.1

def restrictDomainS (x : α) (r : Rel α β) : Rel α β := r.filter fun p => p.1 = x

def restrictRange (f : β → Bool) (r : Rel α β) : Rel α β := r.filter fun p => f p.2

def range (r : Rel α β) : Finset β := r.image Prod.snd

/-- Of the keys that become one, the greatest is left (`Map.mapKeys`). -/
def mapDomain (wordOf : α → ℕ) (f : α → γ) (r : Rel α β) : Rel γ β :=
  (r.filter fun p => ∀ q ∈ r, f q.1 = f p.1 → wordOf q.1 ≤ wordOf p.1).image fun p => (f p.1, p.2)

def partitionDomain (f : α → Bool) (r : Rel α β) : Rel α β × Rel α β :=
  (restrictDomain f r, restrictDomain (fun x => !f x) r)

/-- The values of the key. -/
def valuesAt (r : Rel α β) (x : α) : Finset β := (r.filter fun p => p.1 = x).image Prod.snd

/-- The greatest of the keys that become one has the values of them all. -/
def Absorbs (wordOf : α → ℕ) (f : α → γ) (r : Rel α β) : Prop :=
  ∀ p ∈ r, ∀ q ∈ r, f p.1 = f q.1 → (∀ q' ∈ r, f q'.1 = f q.1 → wordOf q'.1 ≤ wordOf q.1) → (q.1, p.2) ∈ r

theorem mem_mapDomain {wordOf : α → ℕ} {f : α → γ} {r : Rel α β} {y : γ} {b : β} :
    (y, b) ∈ mapDomain wordOf f r ↔
      ∃ x, (x, b) ∈ r ∧ f x = y ∧ ∀ q ∈ r, f q.1 = y → wordOf q.1 ≤ wordOf x := by
  unfold mapDomain
  rw [Finset.mem_image]
  constructor
  · rintro ⟨⟨x, b'⟩, hp, heq⟩
    obtain ⟨rfl, rfl⟩ := Prod.mk.inj heq
    obtain ⟨hmem, hmax⟩ := Finset.mem_filter.1 hp
    exact ⟨x, hmem, rfl, hmax⟩
  · rintro ⟨x, hmem, rfl, hmax⟩
    exact ⟨(x, b), Finset.mem_filter.2 ⟨hmem, hmax⟩, rfl⟩

theorem mapDomain_subset (wordOf : α → ℕ) (f : α → γ) (r : Rel α β) :
    mapDomain wordOf f r ⊆ r.image fun p => (f p.1, p.2) :=
  Finset.image_subset_image (Finset.filter_subset _ _)

/-- Nothing is lost exactly when the greatest keys have all the values. -/
theorem mapDomain_eq_image_iff {wordOf : α → ℕ} (hinj : Function.Injective wordOf) {f : α → γ} {r : Rel α β} :
    mapDomain wordOf f r = r.image (fun p => (f p.1, p.2)) ↔ Absorbs wordOf f r := by
  constructor
  · intro heq p hp q hq hpq hmax
    have hmem : (f p.1, p.2) ∈ mapDomain wordOf f r := by
      rw [heq]
      exact Finset.mem_image_of_mem _ hp
    obtain ⟨x, hx, hfx, hxmax⟩ := mem_mapDomain.1 hmem
    have hle := hxmax q hq hpq.symm
    have hge := hmax (x, p.2) hx (hfx.trans hpq)
    obtain rfl : x = q.1 := hinj (Nat.le_antisymm hge hle)
    exact hx
  · intro habs
    refine Finset.Subset.antisymm (mapDomain_subset _ _ _) fun z hz => ?_
    obtain ⟨p, hp, rfl⟩ := Finset.mem_image.1 hz
    have hne : (r.filter fun q => f q.1 = f p.1).Nonempty := ⟨p, Finset.mem_filter.2 ⟨hp, rfl⟩⟩
    obtain ⟨q, hq, hqmax⟩ := Finset.exists_max_image _ (fun q => wordOf q.1) hne
    obtain ⟨hqr, hqf⟩ := Finset.mem_filter.1 hq
    have hmax : ∀ q' ∈ r, f q'.1 = f q.1 → wordOf q'.1 ≤ wordOf q.1 := fun q' hq' hf =>
      hqmax q' (Finset.mem_filter.2 ⟨hq', hf.trans hqf⟩)
    refine mem_mapDomain.2 ⟨q.1, habs p hp q hqr hqf.symm hmax, hqf, fun q' hq' hf => hmax q' hq' (hf.trans hqf.symm)⟩

end Rel

end Jhc.Util

/-!
# Exports and imports (FrontEnd/Exports.hs; FrontEnd/HsSyn.hs; Name/Name.hs:110-138)

Of a module the names of its definitions and its export and import declarations are kept. A
name is compared with another by its word, which `wordOf` gives.
-/

namespace Jhc.FrontEnd.Exports
open Jhc.Util Jhc.FindFixpoint

/-! ### Names (Name/Internals.hs:88-99) -/

inductive NameType
  | TypeConstructor | DataConstructor | ClassName | TypeVal | Val | SortName | FieldLabel | RawType | UnknownType
  | QuotedName
  deriving DecidableEq

abbrev Module := List Char

structure Name where
  nameType : NameType
  getModule : Option Module
  ident : List Char
  deriving DecidableEq

def toName (nt : NameType) (n : Name) : Name := { n with nameType := nt }

def toUnqualified (n : Name) : Name := { n with getModule := none }

def qualifyName (m : Module) (n : Name) : Name :=
  match n.getModule with
  | none => { n with getModule := some m }
  | some _ => n

/-! ### Modules (HsSyn.hs:93-125; Exports.hs:23-51) -/

inductive HsEntSpec
  | var (n : Name)
  | abs (n : Name)
  | thingAll (n : Name)
  | thingWith (n : Name) (xs : List Name)
  | qualified (t : NameType) (e : HsEntSpec)
  deriving DecidableEq

inductive HsExportSpec
  | moduleContents (m : Module)
  | ent (e : HsEntSpec)
  deriving DecidableEq

structure HsImportDecl where
  module : Module
  qualified : Bool
  as : Option Module
  spec : Option (Bool × List HsEntSpec)
  deriving DecidableEq

structure ModInfo where
  name : Module
  defs : List Name
  exports : Option (List HsExportSpec)
  imports : List HsImportDecl
  /-- `FO.Prelude` is among the options. -/
  prelude : Bool
  deriving DecidableEq

def mod_Prelude : Module := "Prelude".toList

def modInfoModImports (mi : ModInfo) : List HsImportDecl :=
  if mi.imports.any fun i => i.module = mod_Prelude then mi.imports
  else if mi.prelude then ⟨mod_Prelude, false, none, none⟩ :: mi.imports
  else mi.imports

/-! ### entSpec (Exports.hs:123-149) -/

/-- The entities a type or class owns (`ownsMap`). -/
abbrev Owns := Name → List Name

def thingNames (mnt : Option NameType) (n : Name) : List Name :=
  match mnt with
  | none => [toName .TypeConstructor n, toName .ClassName n]
  | some nt => [toName nt n]

def subNames (n : Name) : List Name := [toName .DataConstructor n, toName .Val n, toName .FieldLabel n]

def entSpec (ownsMap : Owns) (isHiding : Bool) (rel : Util.Rel Name Name) : Option NameType → HsEntSpec → Util.Rel Name Name
  | _, .var n => rel.restrictDomainS (toName .Val n)
  | none, .abs n =>
    rel.restrictDomain fun x =>
      x ∈ [toName .TypeConstructor n, toName .ClassName n] ++ if isHiding then [toName .DataConstructor n] else []
  | some nt, .abs n => rel.restrictDomain fun x => x ∈ [toName nt n]
  | mnt, .thingWith n xs => rel.restrictDomain fun x => x ∈ thingNames mnt n ++ xs.flatMap subNames
  | mnt, .thingAll n =>
    let rdl := rel.restrictDomain fun x => x ∈ thingNames mnt n
    rdl ∪ rel.restrictRange fun y => ∃ x ∈ rdl.range, y ∈ ownsMap x
  | _, .qualified t e => entSpec ownsMap isHiding rel (some t) e

/-! ### getImports, getExports (Exports.hs:94-121, 150-153) -/

section
variable (ownsMap : Owns) {m : Type → Type} [Monad m]

def defsToRel (xs : List Name) : Util.Rel Name Name := Util.Rel.ofList (xs.map fun n => (toUnqualified n, n))

/-- What an import declaration brings in of the exports `es` of its module. -/
def importSpec (es : Util.Rel Name Name) (x : HsImportDecl) : Util.Rel Name Name :=
  match x.spec with
  | none => es
  | some (isHiding, xs) =>
    let listed := xs.foldr (fun e r => entSpec ownsMap isHiding es none e ∪ r) ∅
    if isHiding then es \ listed else listed

def importDecl (wordOf : Name → ℕ) (es : Util.Rel Name Name) (x : HsImportDecl) : Util.Rel Name Name :=
  let as := x.as.getD x.module
  let es' := importSpec ownsMap es x
  Util.Rel.mapDomain wordOf (qualifyName as) es' ∪ if x.qualified then ∅ else es'

def getImports (wordOf : Name → ℕ) (mi : ModInfo) (le : Module → m (Util.Rel Name Name)) : m (Util.Rel Name Name) := do
  let xs ← (modInfoModImports mi).mapM fun x => return importDecl ownsMap wordOf (← le x.module) x
  let ls := Util.Rel.ofList (mi.defs.flatMap fun z => [(toUnqualified z, z), (z, z)])
  return xs.foldr (· ∪ ·) ∅ ∪ ls

def exportSpec (wordOf : Name → ℕ) (is : Util.Rel Name Name) : HsExportSpec → Util.Rel Name Name
  | .moduleContents m =>
    let (qs, unqs) := is.partitionDomain fun x => x.getModule.isSome
    Util.Rel.mapDomain wordOf (qualifyName m) unqs ∩ qs
  | .ent z => entSpec ownsMap false is none z

/-- What the export list selects, under the names of the scope. -/
def exportList (wordOf : Name → ℕ) (is : Util.Rel Name Name) (es : List HsExportSpec) : Util.Rel Name Name :=
  es.foldr (fun z r => exportSpec ownsMap wordOf is z ∪ r) ∅

def getExports (wordOf : Name → ℕ) (mi : ModInfo) (le : Module → m (Util.Rel Name Name)) : m (Util.Rel Name Name) := do
  match mi.exports with
  | none => return defsToRel mi.defs
  | some es =>
    let is ← getImports ownsMap wordOf mi le
    return Util.Rel.mapDomain wordOf toUnqualified (exportList ownsMap wordOf is es)

end

/-! ### determineExports' (Exports.hs:81-93) -/

structure Resolved where
  name : Module
  modInfoExport : Finset Name
  modInfoImport : Util.Rel Name Name
  /-- The entities of each `AmbiguousExport`. -/
  ambiguous : Finset (Finset Name)

section
variable (wordOf : Name → ℕ)

/-- The first of the entities under each name. -/
def ce (r : Util.Rel Name Name) : Finset Name :=
  (r.filter fun p => ∀ q ∈ r, q.1 = p.1 → wordOf p.2 ≤ wordOf q.2).image Prod.snd

def ambiguousExports (r : Util.Rel Name Name) : Finset (Finset Name) :=
  ((r.image Prod.fst).filter fun x => 1 < (r.valuesAt x).card).image r.valuesAt

variable (ownsMap : Owns) (doneMods : Module → Option (List Name)) (todoMods : List ModInfo)

def le (m : Module) : Ms (Util.Rel Name Name) (Util.Rel Name Name) :=
  match doneMods m with
  | some xs => return defsToRel xs
  | none =>
    match todoMods.findIdx? fun mi => mi.name = m with
    | some i => getVal i
    | none => failure

def lf (exported : List (Module × Finset Name)) (m : Module) : Option (Util.Rel Name Name) :=
  match doneMods m with
  | some xs => return defsToRel xs
  | none => (exported.lookup m).map fun xs => xs.image fun x => (toUnqualified x, x)

def determineExports' (n : ℕ) (sccs : List (ℕ × List ℕ) → List ℕ) : Option (List Resolved) := do
  let rs ← solve sccs n ∅ (todoMods.map fun mi => getExports ownsMap wordOf mi (le doneMods todoMods))
  let exported := (todoMods.zip rs).map fun (mi, ne) => (mi.name, ce wordOf ne)
  (todoMods.zip rs).mapM fun (mi, ne) => do
    let is ← getImports ownsMap wordOf mi (lf doneMods exported)
    return ⟨mi.name, ce wordOf ne, is, ambiguousExports ne⟩

end

end Jhc.FrontEnd.Exports

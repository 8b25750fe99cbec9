import Jhc.FrontEnd.ExportsScope
import Jhc.Util.FindFixpoint

/-!
# determineExports' finds what the modules export

The computations of the modules are evaluated in any order. As long as none of them loses an
entity or lets one through that is hidden in the end, the run ends in the least solution.
-/

namespace Jhc.FrontEnd.Exports
open Jhc.Util Jhc.FindFixpoint

/-! ### The conditions on a step -/

section
variable (p : Program) (mods : List ModInfo) (wordOf : Name → ℕ)

/-- What a module exports so far. -/
def relAt (arr : ℕ → Util.Rel Name Name) (m : Module) : Util.Rel Name Name :=
  match p.doneMods m with
  | some xs => defsToRel xs
  | none =>
    match mods.findIdx? fun mi => mi.name = m with
    | some i => arr i
    | none => ∅

/-- What the modules export when only the names of a hiding list are hidden. -/
def mayExport : Family := Least p fun _ _ _ => False

/-- A hiding list hides already what it may hide in the end. -/
def HidesAll (mi : ModInfo) (arr : ℕ → Util.Rel Name Name) : Prop :=
  ∀ x ∈ modInfoModImports mi, ∀ xs, x.spec = some (true, xs) → ∀ k y, (k, y) ∈ relAt p mods arr x.module →
    (∃ e ∈ xs, Selects p.ownsMap true (mayExport p x.module) none e k y) →
      ∃ e ∈ xs, Selects p.ownsMap true (familyOf (relAt p mods arr) x.module) none e k y

structure Undisturbed (mi : ModInfo) (arr : ℕ → Util.Rel Name Name) : Prop where
  keeps : KeepsAll p.ownsMap wordOf mi (relAt p mods arr)
  hides : mi.exports ≠ none → HidesAll p mods mi arr

end

/-! ### The equations of the run -/

section
variable {p : Program} {mods : List ModInfo} {wordOf : Name → ℕ} {mi : ModInfo} {m : Module} {k y : Name}
  {arr arr' : ℕ → Util.Rel Name Name} {i : ℕ}

theorem Scope.congr {T T' r r' : Family} (hT : ∀ x ∈ modInfoModImports mi, T x.module = T' x.module)
    (h : ∀ x ∈ modInfoModImports mi, r x.module = r' x.module) : Scope p.ownsMap mi T r = Scope p.ownsMap mi T' r' := by
  funext k y
  refine propext (or_congr_right (exists_congr fun x => and_congr_right fun hx => ?_))
  rw [hT x hx, h x hx]

theorem ModuleExports.congr {T r r' : Family} (h : ∀ x ∈ modInfoModImports mi, r x.module = r' x.module) :
    ModuleExports p.ownsMap mi T r k y ↔ ModuleExports p.ownsMap mi T r' k y := by
  unfold ModuleExports
  split
  · exact Iff.rfl
  · refine exists_congr fun z => and_congr_right fun _ => ?_
    cases z <;> simp only [ItemExports, Scope.congr (fun _ _ => rfl) h]

/-- The numbers of the modules that the module imports. -/
def readsOf (p : Program) (mods : List ModInfo) (mi : ModInfo) : Set ℕ :=
  {n | ∃ x ∈ modInfoModImports mi, p.doneMods x.module = none ∧ mods.findIdx? (fun mi => mi.name = x.module) = some n}

theorem relAt_congr (h : ∀ n ∈ readsOf p mods mi, arr n = arr' n) :
    ∀ x ∈ modInfoModImports mi, relAt p mods arr x.module = relAt p mods arr' x.module := by
  intro x hx
  unfold relAt
  split
  · rfl
  · next hdone =>
    split
    · next n hn => exact h n ⟨x, hx, hdone, hn⟩
    · rfl

theorem relAt_mono (h : arr ≤ arr') (m : Module) : relAt p mods arr m ⊆ relAt p mods arr' m := by
  unfold relAt
  split
  · exact Finset.Subset.refl _
  · split
    · exact h _
    · exact Finset.Subset.refl _

/-- All the entities that can be exported by a module of the list. -/
def names (p : Program) (mods : List ModInfo) : List Name :=
  mods.flatMap fun mi => mi.defs ++ (modInfoModImports mi).flatMap fun x => (p.doneMods x.module).getD []

def pairs (p : Program) (mods : List ModInfo) : Util.Rel Name Name := defsToRel (names p mods)

open Classical in
/-- The equations, in which a hiding list hides what it hides in the end. -/
noncomputable def equations (p : Program) (mods : List ModInfo) : Equations (Util.Rel Name Name) mods.length where
  rhs i arr := (pairs p mods).filter fun q => ∃ mi, mods[i]? = some mi ∧
    ModuleExports p.ownsMap mi (exportsOf p) (familyOf (relAt p mods arr)) q.1 q.2
  reads i := {n | ∃ mi, mods[i]? = some mi ∧ mi.exports ≠ none ∧ n ∈ readsOf p mods mi}
  mono i arr arr' h := by
    intro q hq
    obtain ⟨hmem, mi, hmi, hexp⟩ := Finset.mem_filter.1 hq
    refine Finset.mem_filter.2 ⟨hmem, mi, hmi, ModuleExports.mono (n := q.2.nameType.level) (fun m k y _ hr => ?_) (fun _ _ _ _ => id) _ _
      (Nat.le_refl _) hexp⟩
    exact relAt_mono h m hr
  reads_only i arr arr' h := by
    refine Finset.filter_congr fun q _ => exists_congr fun mi => and_congr_right fun hmi => ?_
    cases hes : mi.exports with
    | none =>
      unfold ModuleExports
      rw [hes]
    | some es =>
      have hrel : ∀ x ∈ modInfoModImports mi, relAt p mods arr x.module = relAt p mods arr' x.module :=
        relAt_congr fun n hn => h n ⟨mi, hmi, by simp [hes], hn⟩
      exact ModuleExports.congr fun x hx => congrArg (fun (r : Util.Rel Name Name) a b => (a, b) ∈ r) (hrel x hx)

/-! ### Below the solution -/

/-- The solution, as far as it concerns the modules of the list. -/
noncomputable def top (p : Program) (mods : List ModInfo) (i : ℕ) : Util.Rel Name Name :=
  open Classical in (pairs p mods).filter fun q => ∃ mi, mods[i]? = some mi ∧ exportsOf p mi.name q.1 q.2

theorem exportsOf_iff : exportsOf p m k y ↔ Exported p (exportsOf p) (exportsOf p) m k y :=
  (exportsOf_least p).solves

theorem exportsOf_done {xs : List Name} (hm : p.doneMods m = some xs) : exportsOf p m k y ↔ (k, y) ∈ defsToRel xs := by
  rw [exportsOf_iff, mem_defsToRel]
  constructor
  · rintro (⟨xs', hxs', hy, hk⟩ | ⟨mi, hmi, rfl, -⟩)
    · obtain rfl : xs = xs' := Option.some.inj (hm.symm.trans hxs')
      exact ⟨hy, hk⟩
    · rw [p.not_done mi hmi] at hm
      cases hm
  · rintro ⟨hy, hk⟩
    exact .inl ⟨xs, hm, hy, hk⟩

theorem exportsOf_module (hmi : mi ∈ p.modules) :
    exportsOf p mi.name k y ↔ ModuleExports p.ownsMap mi (exportsOf p) (exportsOf p) k y := by
  rw [exportsOf_iff]
  constructor
  · rintro (⟨xs, hxs, -⟩ | ⟨mi', hmi', hname, h⟩)
    · rw [p.not_done mi hmi] at hxs
      cases hxs
    · rwa [← p.name_inj mi' hmi' mi hmi hname]
  · exact fun h => .inr ⟨mi, hmi, rfl, h⟩

theorem exportsOf_mayExport (h : exportsOf p m k y) : mayExport p m k y :=
  Least.agree (fun _ _ _ _ h => h.elim) m k y (Nat.le_refl _) ((exportsOf_least p m k y).1 h)

/-- Names are exported without their module, and entities are those of the list. -/
def Bound (p : Program) (mods : List ModInfo) : Family := fun m k y =>
  k = toUnqualified y ∧ (∀ xs, p.doneMods m = some xs → y ∈ xs) ∧ ((∃ mi ∈ mods, mi.name = m) → y ∈ names p mods)

theorem mem_names_of_def (hmi : mi ∈ mods) (hy : y ∈ mi.defs) : y ∈ names p mods :=
  List.mem_flatMap.2 ⟨mi, hmi, List.mem_append_left _ hy⟩

theorem mem_names_of_done (hmi : mi ∈ mods) {x : HsImportDecl} (hx : x ∈ modInfoModImports mi) {xs : List Name}
    (hxs : p.doneMods x.module = some xs) (hy : y ∈ xs) : y ∈ names p mods := by
  refine List.mem_flatMap.2 ⟨mi, hmi, List.mem_append_right _ (List.mem_flatMap.2 ⟨x, hx, ?_⟩)⟩
  rw [hxs]
  exact hy

theorem scope_bound (hmods : ∀ mi, mi ∈ mods ↔ mi ∈ p.modules) (hmi : mi ∈ mods) {T r : Family}
    (hr : ∀ m k y, r m k y → Bound p mods m k y) (h : Scope p.ownsMap mi T r k y) :
    toUnqualified k = toUnqualified y ∧ y ∈ names p mods := by
  rcases h with ⟨hy, hk⟩ | ⟨x, hx, k', hprov, hk⟩
  · refine ⟨?_, mem_names_of_def hmi hy⟩
    rcases hk with rfl | rfl <;> rfl
  · obtain ⟨hk', hdone, hname⟩ := hr _ _ _ hprov.1
    constructor
    · rcases hk with rfl | ⟨-, rfl⟩
      · rw [toUnqualified_qualifyName (by rw [hk']; rfl), hk']
      · rw [hk']
        rfl
    · rcases p.closed mi ((hmods mi).1 hmi) x hx with hsome | ⟨mi', hmi', heq⟩
      · obtain ⟨xs, hxs⟩ := Option.isSome_iff_exists.1 hsome
        exact mem_names_of_done hmi hx hxs (hdone xs hxs)
      · exact hname ⟨mi', (hmods mi').2 hmi', heq⟩

theorem moduleExports_bound (hmods : ∀ mi, mi ∈ mods ↔ mi ∈ p.modules) (hmi : mi ∈ mods) {T r : Family}
    (hr : ∀ m k y, r m k y → Bound p mods m k y) (h : ModuleExports p.ownsMap mi T r k y) :
    k = toUnqualified y ∧ y ∈ names p mods := by
  unfold ModuleExports at h
  split at h
  · exact ⟨h.2, mem_names_of_def hmi h.1⟩
  · obtain ⟨z, -, hitem⟩ := h
    cases z with
    | moduleContents m =>
      obtain ⟨hk, hy⟩ := scope_bound hmods hmi hr hitem.2.1
      exact ⟨(toUnqualified_of_none hitem.1).symm.trans hk, hy⟩
    | ent e =>
      obtain ⟨k', hscope, -, rfl⟩ := hitem
      exact scope_bound hmods hmi hr hscope

theorem exportsOf_bound (hmods : ∀ mi, mi ∈ mods ↔ mi ∈ p.modules) (h : exportsOf p m k y) : Bound p mods m k y := by
  refine (exportsOf_least p _ _ _).1 h (Bound p mods) fun m k y hexp => ?_
  rcases hexp with ⟨xs, hxs, hy, hk⟩ | ⟨mi, hmi, rfl, hexp⟩
  · refine ⟨hk, fun xs' hxs' => ?_, ?_⟩
    · rwa [Option.some.inj (hxs'.symm.trans hxs)]
    · rintro ⟨mi, hmi, rfl⟩
      rw [p.not_done mi ((hmods mi).1 hmi)] at hxs
      cases hxs
  · obtain ⟨hk, hy⟩ := moduleExports_bound hmods ((hmods mi).2 hmi) (fun _ _ _ => id) hexp
    refine ⟨hk, fun xs hxs => ?_, fun _ => hy⟩
    rw [p.not_done mi hmi] at hxs
    cases hxs

theorem exportsOf_mem_pairs (hmods : ∀ mi, mi ∈ mods ↔ mi ∈ p.modules) (hmi : mi ∈ mods) (h : exportsOf p mi.name k y) :
    (k, y) ∈ pairs p mods := by
  obtain ⟨hk, -, hy⟩ := exportsOf_bound hmods h
  exact mem_defsToRel.2 ⟨hy ⟨mi, hmi, rfl⟩, hk⟩

theorem mem_top (hmods : ∀ mi, mi ∈ mods ↔ mi ∈ p.modules) (hi : mods[i]? = some mi) :
    (k, y) ∈ top p mods i ↔ exportsOf p mi.name k y := by
  simp only [top, Finset.mem_filter]
  constructor
  · rintro ⟨-, mi', hmi', h⟩
    obtain rfl : mi = mi' := Option.some.inj (hi.symm.trans hmi')
    exact h
  · exact fun h => ⟨exportsOf_mem_pairs hmods (List.mem_of_getElem? hi) h, mi, hi, h⟩

/-- A run below the solution. -/
theorem relAt_exportsOf (hmods : ∀ mi, mi ∈ mods ↔ mi ∈ p.modules) (h : ∀ i, arr i ≤ top p mods i) {m : Module} {k y : Name}
    (hmem : (k, y) ∈ relAt p mods arr m) : exportsOf p m k y := by
  unfold relAt at hmem
  split at hmem
  · next xs hxs => exact (exportsOf_done hxs).2 hmem
  · split at hmem
    · next i hi =>
      obtain ⟨hlt, hname, -⟩ := List.findIdx?_eq_some_iff_getElem.1 hi
      have hget : mods[i]? = some mods[i] := List.getElem?_eq_getElem hlt
      rw [← of_decide_eq_true hname]
      exact (mem_top hmods hget).1 (h i hmem)
    · cases hmem

theorem unqualified_relAt (hmods : ∀ mi, mi ∈ mods ↔ mi ∈ p.modules) (h : ∀ i, arr i ≤ top p mods i) (m : Module) :
    Unqualified (relAt p mods arr m) := by
  rintro ⟨k, y⟩ hmem
  rw [(exportsOf_bound hmods (relAt_exportsOf hmods h hmem)).1]
  rfl

theorem rhs_top (hmods : ∀ mi, mi ∈ mods ↔ mi ∈ p.modules) (i : ℕ) : (equations p mods).rhs i (top p mods) ≤ top p mods i := by
  rintro ⟨k, y⟩ hmem
  simp only [equations, Finset.mem_filter] at hmem
  obtain ⟨-, mi, hmi, hexp⟩ := hmem
  have hmodule := (hmods mi).1 (List.mem_of_getElem? hmi)
  refine (mem_top hmods hmi).2 ((exportsOf_module hmodule).2 ?_)
  exact ModuleExports.mono (fun m k y _ hr => relAt_exportsOf hmods (fun i => le_refl _) hr) (fun _ _ _ _ => id) k y
    (Nat.le_refl _) hexp

/-! ### A step -/

/-- An import brings in what it brings in in the end. -/
theorem provides_iff (hmods : ∀ mi, mi ∈ mods ↔ mi ∈ p.modules) (h : ∀ i, arr i ≤ top p mods i)
    (hhides : HidesAll p mods mi arr) {x : HsImportDecl} (hx : x ∈ modInfoModImports mi) :
    Provides p.ownsMap x (familyOf (relAt p mods arr) x.module) (familyOf (relAt p mods arr) x.module) k y ↔
      Provides p.ownsMap x (exportsOf p x.module) (familyOf (relAt p mods arr) x.module) k y := by
  refine and_congr_right fun hr => ?_
  split
  · exact Iff.rfl
  · exact Iff.rfl
  · next xs hspec =>
    refine not_congr ⟨fun ⟨e, he, hsel⟩ => ⟨e, he, ?_⟩, fun ⟨e, he, hsel⟩ => ?_⟩
    · exact hsel.mono (Nat.le_refl _) fun a b _ => relAt_exportsOf hmods h
    · exact hhides x hx xs hspec k y hr ⟨e, he, hsel.mono (Nat.le_refl _) fun a b _ => exportsOf_mayExport⟩

theorem scope_iff (hmods : ∀ mi, mi ∈ mods ↔ mi ∈ p.modules) (h : ∀ i, arr i ≤ top p mods i)
    (hhides : HidesAll p mods mi arr) :
    Scope p.ownsMap mi (familyOf (relAt p mods arr)) (familyOf (relAt p mods arr)) =
      Scope p.ownsMap mi (exportsOf p) (familyOf (relAt p mods arr)) := by
  funext k y
  refine propext (or_congr_right (exists_congr fun x => and_congr_right fun hx => exists_congr fun k' => ?_))
  rw [provides_iff hmods h hhides hx]

theorem moduleExports_iff (hmods : ∀ mi, mi ∈ mods ↔ mi ∈ p.modules) (h : ∀ i, arr i ≤ top p mods i)
    (hund : Undisturbed p mods wordOf mi arr) :
    ModuleExports p.ownsMap mi (familyOf (relAt p mods arr)) (familyOf (relAt p mods arr)) k y ↔
      ModuleExports p.ownsMap mi (exportsOf p) (familyOf (relAt p mods arr)) k y := by
  unfold ModuleExports
  cases hes : mi.exports with
  | none => exact Iff.rfl
  | some es =>
    have hscope := scope_iff hmods h (hund.hides (by simp [hes]))
    refine exists_congr fun z => and_congr_right fun _ => ?_
    cases z <;> simp only [ItemExports, hscope]

/-- The relation of a module, computed in an undisturbed step, is the right side of its equation. -/
theorem exportsRel_eq (hmods : ∀ mi, mi ∈ mods ↔ mi ∈ p.modules) (hinj : Function.Injective wordOf)
    (h : ∀ i, arr i ≤ top p mods i) (hi : mods[i]? = some mi) (hund : Undisturbed p mods wordOf mi arr) :
    exportsRel p.ownsMap wordOf mi (relAt p mods arr) = (equations p mods).rhs i arr := by
  have hmodule := (hmods mi).1 (List.mem_of_getElem? hi)
  ext ⟨k, y⟩
  rw [mem_exportsRel hinj (unqualified_relAt hmods h) hund.keeps, moduleExports_iff hmods h hund]
  unfold equations
  simp only [Finset.mem_filter]
  constructor
  · intro hexp
    refine ⟨exportsOf_mem_pairs hmods (List.mem_of_getElem? hi) ((exportsOf_module hmodule).2 ?_), mi, hi, hexp⟩
    exact ModuleExports.mono (fun m k y _ hr => relAt_exportsOf hmods h hr) (fun _ _ _ _ => id) k y (Nat.le_refl _) hexp
  · rintro ⟨-, mi', hmi', hexp⟩
    obtain rfl : mi = mi' := Option.some.inj (hi.symm.trans hmi')
    exact hexp

end

end Jhc.FrontEnd.Exports

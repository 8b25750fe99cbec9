import Jhc.FrontEnd.ExportsRun
import Mathlib.Logic.Equiv.List

/-!
# The result of determineExports'

The computations of the modules as steps of `solve`, and what is made of the values it finds.
-/

namespace Jhc.FrontEnd.Exports
open Jhc.Util Jhc.FindFixpoint

section
variable {p : Program} {mods : List ModInfo} {wordOf : Name → ℕ} {mi : ModInfo} {m : Module} {k y : Name}
  {arr : ℕ → Util.Rel Name Name} {i : ℕ}

/-! ### The computations of the modules -/

theorem findIdx_of_mem {m : Module} (h : ∃ mi ∈ mods, mi.name = m) :
    ∃ i, mods.findIdx? (fun mi => mi.name = m) = some i := by
  obtain ⟨mi, hmi, hname⟩ := h
  rw [← Option.isSome_iff_exists, List.findIdx?_isSome, List.any_eq_true]
  exact ⟨mi, hmi, decide_eq_true hname⟩

theorem runs_le (hmods : ∀ mi, mi ∈ mods ↔ mi ∈ p.modules) (hmi : mi ∈ mods) {x : HsImportDecl}
    (hx : x ∈ modInfoModImports mi) : Runs (le p.doneMods mods x.module) i arr (relAt p mods arr x.module)
      {n | p.doneMods x.module = none ∧ mods.findIdx? (fun mi => mi.name = x.module) = some n} := by
  unfold le relAt
  cases hdone : p.doneMods x.module with
  | some xs => exact (runs_pure _).weaken fun n hn => nomatch hn.1
  | none =>
    rcases p.closed mi ((hmods mi).1 hmi) x hx with hsome | ⟨mi', hmi', hname⟩
    · rw [hdone] at hsome
      cases hsome
    · obtain ⟨j, hj⟩ := findIdx_of_mem ⟨mi', (hmods mi').2 hmi', hname⟩
      rw [hj]
      exact (runs_getVal j).weaken fun n hn => (Option.some.inj hn.2).symm

theorem runs_getImports (hmods : ∀ mi, mi ∈ mods ↔ mi ∈ p.modules) (hmi : mi ∈ mods) :
    Runs (getImports p.ownsMap wordOf mi (le p.doneMods mods)) i arr
      (scopeOf p.ownsMap wordOf mi (relAt p mods arr)) (readsOf p mods mi) := by
  have hdecl : ∀ x ∈ modInfoModImports mi,
      Runs (do return importDecl p.ownsMap wordOf (← le p.doneMods mods x.module) x) i arr
        (importDecl p.ownsMap wordOf (relAt p mods arr x.module) x)
        {n | p.doneMods x.module = none ∧ mods.findIdx? (fun mi => mi.name = x.module) = some n} := fun x hx =>
    (runs_le hmods hmi hx).map fun es => importDecl p.ownsMap wordOf es x
  exact (runs_mapM hdecl).map fun xs => xs.foldr (· ∪ ·) ∅ ∪
    Util.Rel.ofList (mi.defs.flatMap fun z => [(toUnqualified z, z), (z, z)])

theorem runs_getExports (hmods : ∀ mi, mi ∈ mods ↔ mi ∈ p.modules) (hmi : mi ∈ mods) :
    Runs (getExports p.ownsMap wordOf mi (le p.doneMods mods)) i arr (exportsRel p.ownsMap wordOf mi (relAt p mods arr))
      {n | mi.exports ≠ none ∧ n ∈ readsOf p mods mi} := by
  unfold getExports exportsRel
  cases mi.exports with
  | none => exact (runs_pure _).weaken fun n hn => absurd rfl hn.1
  | some es =>
    exact ((runs_getImports hmods hmi).map fun is =>
      Util.Rel.mapDomain wordOf toUnqualified (exportList p.ownsMap wordOf is es)).weaken fun n hn => hn.2

theorem getImports_some {rel : Module → Util.Rel Name Name} {l : Module → Option (Util.Rel Name Name)}
    (h : ∀ x ∈ modInfoModImports mi, l x.module = some (rel x.module)) :
    getImports p.ownsMap wordOf mi l = some (scopeOf p.ownsMap wordOf mi rel) := by
  have hmap : (modInfoModImports mi).mapM (fun x => do return importDecl p.ownsMap wordOf (← l x.module) x) =
      some ((modInfoModImports mi).map fun x => importDecl p.ownsMap wordOf (rel x.module) x) := by
    revert h
    induction modInfoModImports mi with
    | nil => exact fun _ => rfl
    | cons x xs ih =>
      intro h
      rw [List.mapM_cons, h x List.mem_cons_self, ih fun y hy => h y (List.mem_cons_of_mem _ hy)]
      rfl
  unfold getImports scopeOf
  rw [hmap]
  rfl

/-! ### The run of solve -/

/-- The computations that `solve` evaluates. -/
def computations (p : Program) (mods : List ModInfo) (wordOf : Name → ℕ) (i : ℕ) : Ms (Util.Rel Name Name) (Util.Rel Name Name) :=
  (mods.map fun mi => getExports p.ownsMap wordOf mi (le p.doneMods mods)).getD i failure

/-- Every step of the run is undisturbed. -/
def UndisturbedRun (p : Program) (mods : List ModInfo) (wordOf : Name → ℕ) (sccs : List (ℕ × List ℕ) → List ℕ) : Prop :=
  ∀ i rs s env, Reaches (computations p mods wordOf) sccs (start mods.length ∅) ⟨i :: rs, s, env⟩ →
    ∀ mi, mods[i]? = some mi → Undisturbed p mods wordOf mi env.arr

theorem evaluates (hmods : ∀ mi, mi ∈ mods ↔ mi ∈ p.modules) (hinj : Function.Injective wordOf)
    {env : Env (Util.Rel Name Name)} (h : ∀ i, env.arr i ≤ top p mods i) (hi : mods[i]? = some mi)
    (hund : Undisturbed p mods wordOf mi env.arr) : Evaluates (equations p mods) (computations p mods wordOf) i env := by
  have hmi := List.mem_of_getElem? hi
  have hcomp : computations p mods wordOf i = getExports p.ownsMap wordOf mi (le p.doneMods mods) := by
    rw [computations, List.getD_eq_getElem?_getD, List.getElem?_map, hi]
    rfl
  unfold Evaluates
  rw [hcomp, ← exportsRel_eq hmods hinj h hi hund]
  refine (runs_getExports hmods hmi).weaken ?_
  rintro n ⟨mi', hmi', hes, hn⟩
  obtain rfl : mi = mi' := Option.some.inj (hi.symm.trans hmi')
  exact ⟨hes, hn⟩

theorem relAt_eq (hmods : ∀ mi, mi ∈ mods ↔ mi ∈ p.modules) (hnodup : mods.Nodup) (hi : mods[i]? = some mi) :
    relAt p mods arr mi.name = arr i := by
  have hmem := List.mem_of_getElem? hi
  obtain ⟨hlt, hget⟩ := List.getElem?_eq_some_iff.1 hi
  obtain ⟨j, hj⟩ := findIdx_of_mem ⟨mi, hmem, rfl⟩
  obtain ⟨hjlt, hname, -⟩ := List.findIdx?_eq_some_iff_getElem.1 hj
  have hsame : mods[j] = mods[i] := by
    rw [hget]
    exact p.name_inj _ ((hmods _).1 (List.getElem_mem hjlt)) _ ((hmods _).1 hmem) (of_decide_eq_true hname)
  have hji : j = i := (List.Nodup.getElem_inj_iff hnodup).1 hsame
  unfold relAt
  rw [p.not_done mi ((hmods mi).1 hmem)]
  simp only [hj, hji]

/-- A solved state has what the modules export. -/
theorem solved_exports (hmods : ∀ mi, mi ∈ mods ↔ mi ∈ p.modules) (hnodup : mods.Nodup)
    (hbelow : ∀ i, arr i ≤ top p mods i) (hsolved : ∀ i < mods.length, arr i = (equations p mods).rhs i arr) {m : Module}
    (hm : (p.doneMods m).isSome = true ∨ ∃ mi ∈ mods, mi.name = m) :
    (k, y) ∈ relAt p mods arr m ↔ exportsOf p m k y := by
  refine ⟨relAt_exportsOf hmods hbelow, fun h => ?_⟩
  refine (exportsOf_least p m k y).1 h (fun m k y => exportsOf p m k y ∧ ((p.doneMods m).isSome = true ∨
    (∃ mi ∈ mods, mi.name = m) → (k, y) ∈ relAt p mods arr m)) (fun m k y hexp => ?_) |>.2 hm
  have hall : exportsOf p m k y :=
    exportsOf_iff.2 (hexp.mono_right fun m k y h => h.1)
  refine ⟨hall, fun _ => ?_⟩
  rcases hexp with ⟨xs, hxs, hy, hk⟩ | ⟨mi, hmi, rfl, hexp⟩
  · unfold relAt
    rw [hxs]
    exact mem_defsToRel.2 ⟨hy, hk⟩
  · obtain ⟨i, hlt, hget⟩ := List.mem_iff_getElem.1 ((hmods mi).2 hmi)
    have hi : mods[i]? = some mi := List.getElem?_eq_some_iff.2 ⟨hlt, hget⟩
    rw [relAt_eq hmods hnodup hi, hsolved i hlt]
    simp only [equations, Finset.mem_filter]
    refine ⟨exportsOf_mem_pairs hmods ((hmods mi).2 hmi) hall, mi, hi, ?_⟩
    have himports : ∀ x ∈ modInfoModImports mi, (p.doneMods x.module).isSome = true ∨ ∃ mi ∈ mods, mi.name = x.module := by
      intro x hx
      refine (p.closed mi hmi x hx).imp_right ?_
      rintro ⟨mi', hmi', hname⟩
      exact ⟨mi', (hmods mi').2 hmi', hname⟩
    refine (ModuleExports.congr (fun x hx => ?_)).1 hexp
    funext a b
    exact propext ⟨fun h => h.2 (himports x hx), fun h => ⟨relAt_exportsOf hmods hbelow h, fun _ => h⟩⟩

/-- An undisturbed run of `solve` ends, with what the modules export. -/
theorem solve_exports (hmods : ∀ mi, mi ∈ mods ↔ mi ∈ p.modules) (hnodup : mods.Nodup)
    (hinj : Function.Injective wordOf) {sccs : List (ℕ × List ℕ) → List ℕ} (hperm : ∀ ds, (sccs ds).Perm (ds.map Prod.fst))
    (hrun : UndisturbedRun p mods wordOf sccs) : ∃ n arr,
      solve sccs n ∅ (mods.map fun mi => getExports p.ownsMap wordOf mi (le p.doneMods mods)) =
        some ((List.range mods.length).map arr) ∧
      (∀ i, arr i ≤ top p mods i) ∧ ∀ i < mods.length, arr i = (equations p mods).rhs i arr := by
  obtain ⟨n, env, hli, -, hgood⟩ := li_solves (B := Util.Rel Name Name) Finset.card_strictMono (fun i _ => rhs_top hmods i) hperm
    (good_start (top p mods)) (fun i rs s env hreach hgood => by
      have hlt := hgood.rs_lt i List.mem_cons_self
      have hi : mods[i]? = some mods[i] := List.getElem?_eq_getElem hlt
      exact evaluates hmods hinj hgood.below hi (hrun i rs s env hreach _ hi))
  refine ⟨n, env.arr, ?_, hgood.below, fun i hi => (hgood.settled i hi List.not_mem_nil (Finset.notMem_empty i)).1⟩
  have hlen : (mods.map fun mi => getExports p.ownsMap wordOf mi (le p.doneMods mods)).length = mods.length :=
    List.length_map ..
  unfold solve
  rw [hlen]
  exact congrArg (fun o => o.bind fun env : Env (Util.Rel Name Name) => some ((List.range mods.length).map env.arr)) hli

/-! ### What is made of the values -/

theorem mem_valuesAt {r : Util.Rel Name Name} : y ∈ r.valuesAt k ↔ (k, y) ∈ r := by
  simp [Util.Rel.valuesAt]

theorem mem_ce {r : Util.Rel Name Name} : y ∈ ce wordOf r ↔ ∃ k, (k, y) ∈ r ∧ ∀ z, (k, z) ∈ r → wordOf y ≤ wordOf z := by
  simp only [ce, Finset.mem_image, Finset.mem_filter, Prod.exists, exists_eq_right, Prod.forall]
  refine exists_congr fun k => and_congr_right fun _ => ⟨fun h z hz => h k z hz rfl, ?_⟩
  rintro h _ z hz rfl
  exact h z hz

theorem mem_ambiguousExports {r : Util.Rel Name Name} {a : Finset Name} :
    a ∈ ambiguousExports r ↔ ∃ k, (∃ y y', (k, y) ∈ r ∧ (k, y') ∈ r ∧ y ≠ y') ∧ ∀ z, z ∈ a ↔ (k, z) ∈ r := by
  simp only [ambiguousExports, Finset.mem_image, Finset.mem_filter, Finset.one_lt_card, mem_valuesAt, Prod.exists,
    exists_and_right, exists_eq_right]
  constructor
  · rintro ⟨k, ⟨-, y, hy, y', hy', hne⟩, rfl⟩
    exact ⟨k, ⟨y, y', hy, hy', hne⟩, fun z => mem_valuesAt⟩
  · rintro ⟨k, ⟨y, y', hy, hy', hne⟩, ha⟩
    refine ⟨k, ⟨⟨y, hy⟩, y, hy, y', hy', hne⟩, ?_⟩
    ext z
    rw [mem_valuesAt, ha]

/-- What a module exports, and which of its exports are ambiguous. -/
structure Resolves (p : Program) (res : Resolved) : Prop where
  sound : ∀ y ∈ res.modInfoExport, exportsOf p res.name (toUnqualified y) y
  complete : ∀ k y, exportsOf p res.name k y → y ∈ res.modInfoExport ∨ ∃ a ∈ res.ambiguous, y ∈ a
  ambiguous : ∀ a, a ∈ res.ambiguous ↔ ∃ k, (∃ y y', exportsOf p res.name k y ∧ exportsOf p res.name k y' ∧ y ≠ y') ∧
    ∀ z, z ∈ a ↔ exportsOf p res.name k z

theorem resolves (hmods : ∀ mi, mi ∈ mods ↔ mi ∈ p.modules) {res : Resolved} {r : Util.Rel Name Name}
    (hr : ∀ k y, (k, y) ∈ r ↔ exportsOf p res.name k y) (hexport : res.modInfoExport = ce wordOf r)
    (hambiguous : res.ambiguous = ambiguousExports r) : Resolves p res where
  sound y hy := by
    rw [hexport] at hy
    obtain ⟨k, hmem, -⟩ := mem_ce.1 hy
    have hk := (exportsOf_bound hmods ((hr k y).1 hmem)).1
    rw [← hk]
    exact (hr k y).1 hmem
  complete k y h := by
    have hmem := (hr k y).2 h
    by_cases hall : ∀ z, (k, z) ∈ r → wordOf y ≤ wordOf z
    · rw [hexport]
      exact .inl (mem_ce.2 ⟨k, hmem, hall⟩)
    · obtain ⟨z, hz⟩ := not_forall.1 hall
      obtain ⟨hz, hlt⟩ := Classical.not_imp.1 hz
      have hne : y ≠ z := by
        rintro rfl
        exact hlt (Nat.le_refl _)
      rw [hambiguous]
      exact .inr ⟨r.valuesAt k, mem_ambiguousExports.2 ⟨k, ⟨y, z, hmem, hz, hne⟩, fun z => mem_valuesAt⟩, mem_valuesAt.2 hmem⟩
  ambiguous a := by
    rw [hambiguous, mem_ambiguousExports]
    simp only [hr]

theorem lookup_map {α β γ : Type} [BEq α] [LawfulBEq α] {l : List γ} {f : γ → α} (g : α → β) {a : α} (h : ∃ c ∈ l, f c = a) :
    (l.map fun c => (f c, g (f c))).lookup a = some (g a) := by
  induction l with
  | nil =>
    obtain ⟨c, hc, -⟩ := h
    cases hc
  | cons c l ih =>
    rw [List.map_cons, List.lookup_cons]
    by_cases hc : a = f c
    · subst hc
      simp
    · have hrest : ∃ d ∈ l, f d = a := by
        obtain ⟨d, hd, hda⟩ := h
        rcases List.mem_cons.1 hd with rfl | hd
        · exact absurd hda.symm hc
        · exact ⟨d, hd, hda⟩
      rw [beq_false_of_ne hc]
      exact ih hrest

/-- The exports that the imports are computed from. -/
def keptAt (p : Program) (mods : List ModInfo) (wordOf : Name → ℕ) (arr : ℕ → Util.Rel Name Name) (m : Module) : Util.Rel Name Name :=
  match p.doneMods m with
  | some xs => defsToRel xs
  | none => (ce wordOf (relAt p mods arr m)).image fun x => (toUnqualified x, x)

theorem lf_some (hm : (p.doneMods m).isSome = true ∨ ∃ mi ∈ mods, mi.name = m) :
    lf p.doneMods (mods.map fun mi => (mi.name, ce wordOf (relAt p mods arr mi.name))) m =
      some (keptAt p mods wordOf arr m) := by
  unfold lf keptAt
  cases hdone : p.doneMods m with
  | some xs => rfl
  | none =>
    rcases hm with hm | hm
    · rw [hdone] at hm
      cases hm
    · rw [lookup_map (fun m => ce wordOf (relAt p mods arr m)) hm]
      rfl

/-- Without ambiguous exports the imports are computed from what the modules export. -/
theorem keptAt_eq (hmods : ∀ mi, mi ∈ mods ↔ mi ∈ p.modules) (hr : ∀ k y, (k, y) ∈ relAt p mods arr m ↔ exportsOf p m k y)
    (hunamb : ambiguousExports (relAt p mods arr m) = ∅) : keptAt p mods wordOf arr m = relAt p mods arr m := by
  unfold keptAt
  cases hdone : p.doneMods m with
  | some xs =>
    unfold relAt
    rw [hdone]
  | none =>
    have honly : ∀ k y z, (k, y) ∈ relAt p mods arr m → (k, z) ∈ relAt p mods arr m → y = z := by
      intro k y z hy hz
      by_contra hne
      have hamb := mem_ambiguousExports.2 ⟨k, ⟨y, z, hy, hz, hne⟩, fun z => mem_valuesAt⟩
      rw [hunamb] at hamb
      cases hamb
    ext ⟨k, y⟩
    simp only [Finset.mem_image, mem_ce, Prod.mk.injEq]
    constructor
    · rintro ⟨z, ⟨k', hmem, -⟩, rfl, rfl⟩
      rwa [← (exportsOf_bound hmods ((hr _ _).1 hmem)).1]
    · intro hmem
      refine ⟨y, ⟨k, hmem, fun z hz => ?_⟩, (exportsOf_bound hmods ((hr _ _).1 hmem)).1.symm, rfl⟩
      rw [honly k y z hmem hz]

theorem zip_values (hmods : ∀ mi, mi ∈ mods ↔ mi ∈ p.modules) (hnodup : mods.Nodup) :
    mods.zip ((List.range mods.length).map arr) = mods.map fun mi => (mi, relAt p mods arr mi.name) := by
  refine List.ext_getElem (by simp) fun i hi hi' => ?_
  have hlt : i < mods.length := by simpa using hi'
  have hrel : relAt p mods arr mods[i].name = arr i := relAt_eq hmods hnodup (List.getElem?_eq_getElem hlt)
  simp [hrel]

theorem mapM_some {α β : Type} {l : List α} {f : α → Option β} {g : α → β} (h : ∀ a ∈ l, f a = some (g a)) :
    l.mapM f = some (l.map g) := by
  induction l with
  | nil => rfl
  | cons a l ih =>
    rw [List.mapM_cons, h a List.mem_cons_self, ih fun b hb => h b (List.mem_cons_of_mem _ hb)]
    rfl

theorem scopeOf_congr {rel rel' : Module → Util.Rel Name Name} (h : ∀ x ∈ modInfoModImports mi, rel x.module = rel' x.module) :
    scopeOf p.ownsMap wordOf mi rel = scopeOf p.ownsMap wordOf mi rel' := by
  unfold scopeOf
  rw [List.map_congr_left fun x hx => by rw [h x hx]]

/-- An undisturbed run ends, and every module exports what the least solution says. -/
theorem determineExports'_resolves (p : Program) (mods : List ModInfo) (hmods : ∀ mi, mi ∈ mods ↔ mi ∈ p.modules)
    (hnodup : mods.Nodup) (wordOf : Name → ℕ) (hinj : Function.Injective wordOf) (sccs : List (ℕ × List ℕ) → List ℕ)
    (hperm : ∀ ds, (sccs ds).Perm (ds.map Prod.fst)) (hrun : UndisturbedRun p mods wordOf sccs) :
    IsLeastSolution p (exportsOf p) ∧ ∃ n rs, determineExports' wordOf p.ownsMap p.doneMods mods n sccs = some rs ∧
      rs.map Resolved.name = mods.map ModInfo.name ∧ (∀ res ∈ rs, Resolves p res) ∧
      ((∀ res ∈ rs, res.ambiguous = ∅) → ∀ mi ∈ mods, ∀ res ∈ rs, res.name = mi.name → ∀ k y,
        (k, y) ∈ res.modInfoImport ↔ Scope p.ownsMap mi (exportsOf p) (exportsOf p) k y) := by
  obtain ⟨n, arr, hsolve, hbelow, hsolved⟩ := solve_exports hmods hnodup hinj hperm hrun
  have hexports : ∀ mi ∈ mods, ∀ k y, (k, y) ∈ relAt p mods arr mi.name ↔ exportsOf p mi.name k y :=
    fun mi hmi k y => solved_exports hmods hnodup hbelow hsolved (.inr ⟨mi, hmi, rfl⟩)
  have himported : ∀ mi ∈ mods, ∀ x ∈ modInfoModImports mi,
      (p.doneMods x.module).isSome = true ∨ ∃ mi ∈ mods, mi.name = x.module := by
    intro mi hmi x hx
    refine (p.closed mi ((hmods mi).1 hmi) x hx).imp_right ?_
    rintro ⟨mi', hmi', hname⟩
    exact ⟨mi', (hmods mi').2 hmi', hname⟩
  let result := fun mi : ModInfo => (⟨mi.name, ce wordOf (relAt p mods arr mi.name),
    scopeOf p.ownsMap wordOf mi (keptAt p mods wordOf arr), ambiguousExports (relAt p mods arr mi.name)⟩ : Resolved)
  refine ⟨exportsOf_least p, n, mods.map result, ?_, ?_, ?_, ?_⟩
  · have hresult : mods.mapM (fun mi => do
        let is ← getImports p.ownsMap wordOf mi
          (lf p.doneMods (mods.map fun mi => (mi.name, ce wordOf (relAt p mods arr mi.name))))
        return (⟨mi.name, ce wordOf (relAt p mods arr mi.name), is, ambiguousExports (relAt p mods arr mi.name)⟩ : Resolved)) =
        some (mods.map result) := by
      refine mapM_some fun mi hmi => ?_
      rw [getImports_some fun x hx => lf_some (himported mi hmi x hx)]
      rfl
    unfold determineExports'
    rw [hsolve]
    simp only [Option.bind_eq_bind, Option.bind_some, zip_values hmods hnodup, List.map_map]
    rw [List.mapM_map]
    exact hresult
  · rw [List.map_map]
    rfl
  · intro res hres
    obtain ⟨mi, hmi, rfl⟩ := List.mem_map.1 hres
    exact resolves hmods (hexports mi hmi) rfl rfl
  · intro hunamb mi hmi res hres hname k y
    obtain ⟨mi', hmi', rfl⟩ := List.mem_map.1 hres
    obtain rfl : mi' = mi := p.name_inj _ ((hmods _).1 hmi') _ ((hmods _).1 hmi) hname
    have hkept : ∀ x ∈ modInfoModImports mi', keptAt p mods wordOf arr x.module = relAt p mods arr x.module := by
      intro x hx
      rcases himported mi' hmi x hx with hdone | ⟨mi, hmi, hname⟩
      · obtain ⟨xs, hxs⟩ := Option.isSome_iff_exists.1 hdone
        unfold keptAt relAt
        rw [hxs]
      · rw [← hname]
        exact keptAt_eq hmods (hexports mi hmi) (hunamb (result mi) (List.mem_map_of_mem hmi))
    have hfamily : ∀ x ∈ modInfoModImports mi', familyOf (relAt p mods arr) x.module = exportsOf p x.module :=
      fun x hx => funext fun k => funext fun y => propext
        (solved_exports hmods hnodup hbelow hsolved (himported mi' hmi x hx))
    show (k, y) ∈ scopeOf p.ownsMap wordOf mi' (keptAt p mods wordOf arr) ↔ _
    rw [scopeOf_congr hkept, mem_scopeOf (unqualified_relAt hmods hbelow), Scope.congr hfamily hfamily]

end

/-! ### Two programs -/

def wordNo (n : Name) : ℕ :=
  Nat.pair n.nameType.ctorIdx (Nat.pair (Encodable.encode (n.getModule.map (List.map Char.toNat)))
    (Encodable.encode (n.ident.map Char.toNat)))

theorem wordNo_injective : Function.Injective wordNo := by
  intro a b h
  have hchars : Function.Injective (List.map Char.toNat) := List.map_injective_iff.2 fun _ _ => Char.toNat_inj.1
  have htype : Function.Injective NameType.ctorIdx := by
    intro s t h
    cases s <;> cases t <;> first | rfl | cases h
  obtain ⟨ht, hrest⟩ := Nat.pair_eq_pair.1 h
  obtain ⟨hm, hi⟩ := Nat.pair_eq_pair.1 hrest
  have hmod := Option.map_injective hchars (Encodable.encode_injective hm)
  have hident := hchars (Encodable.encode_injective hi)
  cases a
  cases b
  exact Name.mk.injEq .. ▸ ⟨htype ht, hmod, hident⟩

/-- A module `m` that defines `x`. -/
def defining (m : Module) : ModInfo := ⟨m, [⟨.Val, some m, ['x']⟩], none, [], false⟩

def importing (ms : List Module) (es : List HsExportSpec) : ModInfo :=
  ⟨['M'], [], some es, ms.map fun m => ⟨m, false, none, none⟩, false⟩

def conflictMods : List ModInfo :=
  [defining ['A'], defining ['B'], importing [['A'], ['B']] [.moduleContents ['A'], .moduleContents ['B']]]

def conflict : Program where
  ownsMap _ := []
  doneMods _ := none
  modules := {mi | mi ∈ conflictMods}
  name_inj := show ∀ mi ∈ conflictMods, ∀ mi' ∈ conflictMods, mi.name = mi'.name → mi = mi' by decide
  not_done _ _ := rfl
  closed := show ∀ mi ∈ conflictMods, ∀ x ∈ modInfoModImports mi,
    (none : Option (List Name)).isSome = true ∨ ∃ mi' ∈ conflictMods, mi'.name = x.module by decide
  owned _ _ h := absurd h List.not_mem_nil

def inOrder (ds : List (ℕ × List ℕ)) : List ℕ := ds.map Prod.fst

theorem defining_exports {p : Program} {m : Module} (hm : defining m ∈ p.modules) :
    exportsOf p m ⟨.Val, none, ['x']⟩ ⟨.Val, some m, ['x']⟩ :=
  (exportsOf_module hm).2 ⟨List.mem_singleton.2 rfl, rfl⟩

/-- `M` exports the `x` of both modules. -/
theorem conflict_exports {m : Module} (hm : m = ['A'] ∨ m = ['B']) :
    exportsOf conflict ['M'] ⟨.Val, none, ['x']⟩ ⟨.Val, some m, ['x']⟩ := by
  have hmem : importing [['A'], ['B']] [.moduleContents ['A'], .moduleContents ['B']] ∈ conflict.modules :=
    show _ ∈ conflictMods by decide
  have hdef : defining m ∈ conflict.modules := show defining m ∈ conflictMods by
    rcases hm with rfl | rfl <;> decide
  have himport : (⟨m, false, none, none⟩ : HsImportDecl) ∈
      modInfoModImports (importing [['A'], ['B']] [.moduleContents ['A'], .moduleContents ['B']]) := by
    rcases hm with rfl | rfl <;> decide
  refine (exportsOf_module hmem).2 ⟨.moduleContents m, by rcases hm with rfl | rfl <;> decide, rfl, ?_, ?_⟩
  · exact .inr ⟨_, himport, _, ⟨defining_exports hdef, trivial⟩, .inr ⟨rfl, rfl⟩⟩
  · exact .inr ⟨_, himport, _, ⟨defining_exports hdef, trivial⟩, .inl rfl⟩

/-- One of the two is dropped, and not reported. -/
theorem conflict_dropped : ∃ n rs,
    determineExports' wordNo conflict.ownsMap conflict.doneMods conflictMods n inOrder = some rs ∧
      ¬ ∀ res ∈ rs, Resolves conflict res := by
  have hrun : (determineExports' wordNo conflict.ownsMap conflict.doneMods conflictMods 20 inOrder).map
      (List.map fun r => (r.name, r.modInfoExport.card, r.ambiguous.card)) =
        some [(['A'], 1, 0), (['B'], 1, 0), (['M'], 1, 0)] := by decide +kernel
  obtain ⟨rs, hrs, hmap⟩ := Option.map_eq_some_iff.1 hrun
  refine ⟨20, rs, hrs, fun hall => ?_⟩
  have hmem : (['M'], 1, 0) ∈ rs.map fun r => (r.name, r.modInfoExport.card, r.ambiguous.card) := by
    rw [hmap]
    simp
  obtain ⟨res, hres, heq⟩ := List.mem_map.1 hmem
  obtain ⟨hname, hexport, hamb⟩ : res.name = ['M'] ∧ res.modInfoExport.card = 1 ∧ res.ambiguous.card = 0 := by
    simpa using heq
  have hempty : res.ambiguous = ∅ := Finset.card_eq_zero.1 hamb
  have hin : ∀ m, m = ['A'] ∨ m = ['B'] → (⟨.Val, some m, ['x']⟩ : Name) ∈ res.modInfoExport := by
    intro m hm
    rcases (hall res hres).complete _ _ (hname ▸ conflict_exports hm) with h | ⟨a, ha, -⟩
    · exact h
    · rw [hempty] at ha
      cases ha
  have hone := Finset.card_le_one.1 (Nat.le_of_eq hexport) _ (hin ['A'] (.inl rfl)) _ (hin ['B'] (.inr rfl))
  exact absurd hone (by decide)

def plainMods : List ModInfo := [defining ['A'], importing [['A']] [.ent (.var ⟨.Val, none, ['x']⟩)]]

def plain : Program where
  ownsMap _ := []
  doneMods _ := none
  modules := {mi | mi ∈ plainMods}
  name_inj := show ∀ mi ∈ plainMods, ∀ mi' ∈ plainMods, mi.name = mi'.name → mi = mi' by decide
  not_done _ _ := rfl
  closed := show ∀ mi ∈ plainMods, ∀ x ∈ modInfoModImports mi,
    (none : Option (List Name)).isSome = true ∨ ∃ mi' ∈ plainMods, mi'.name = x.module by decide
  owned _ _ h := absurd h List.not_mem_nil

/-- An export list of one variable keeps all. -/
theorem plain_undisturbed : UndisturbedRun plain plainMods wordNo inOrder := by
  intro i rs s env _ mi hi
  have hmi := List.mem_of_getElem? hi
  have hnone : ∀ mi ∈ plainMods, ∀ x ∈ modInfoModImports mi, x.spec = none := by decide
  have hlist : ∀ mi ∈ plainMods, mi.exports = none ∨ mi.exports = some [.ent (.var ⟨.Val, none, ['x']⟩)] := by decide
  refine ⟨fun es hes => ?_, fun _ x hx xs hspec => ?_⟩
  · rcases hlist mi hmi with h | h
    · rw [hes] at h
      cases h
    · obtain rfl := Option.some.inj (hes.symm.trans h)
      have hkey : ∀ q ∈ exportList plain.ownsMap wordNo (scopeOf plain.ownsMap wordNo mi (relAt plain plainMods env.arr))
          [.ent (.var ⟨.Val, none, ['x']⟩)], q.1 = toName .Val ⟨.Val, none, ['x']⟩ := by
        intro q hq
        obtain ⟨z, hz, hq⟩ := mem_foldr_union.1 hq
        obtain rfl := List.mem_singleton.1 hz
        exact (Finset.mem_filter.1 hq).2
      intro q hq q' hq' _ _
      rw [hkey q' hq', ← hkey q hq]
      exact hq
  · rw [hnone mi hmi x hx] at hspec
    cases hspec

theorem plain_resolves : ∃ n rs,
    determineExports' wordNo plain.ownsMap plain.doneMods plainMods n inOrder = some rs ∧ ∀ res ∈ rs, Resolves plain res := by
  obtain ⟨-, n, rs, hrun, -, hall, -⟩ := determineExports'_resolves plain plainMods (fun _ => Iff.rfl) (by decide) wordNo
    wordNo_injective inOrder (fun _ => .refl _) plain_undisturbed
  exact ⟨n, rs, hrun, hall⟩

end Jhc.FrontEnd.Exports

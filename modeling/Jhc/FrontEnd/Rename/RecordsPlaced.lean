import Jhc.Lib.Lookup
import Jhc.FrontEnd.Rename.Records

/-!
# Where the fields of a record go

The renamer finds for every constructor the bindings whose fields it has, with their positions.
A field that only other constructors have is left out without an error, and an update takes every
constructor that has one of the fields.
-/

namespace Jhc.FrontEnd.Rename

open Jhc.Lib

variable {Name Exp Pat α β : Type} [LinearOrder Name] {names : Names Name} {fm : FieldMap names} {s s' : ScopeState Name}

/-! ### Runs of the monad -/

theorem run_bind {m : RM Name α} {k : α → RM Name β} {a : α} (h : m.run s = some (a, s')) :
    (m >>= k).run s = (k a).run s' := by
  rw [StateT.run_bind, h]
  rfl

def ScopeState.warn (s : ScopeState Name) (ws : List (Warning Name)) : ScopeState Name :=
  { s with warnings := s.warnings ++ ws }

@[simp] theorem warn_nil : s.warn [] = s := by
  rw [ScopeState.warn, List.append_nil]

@[simp] theorem warn_warn (ws ws' : List (Warning Name)) : (s.warn ws).warn ws' = s.warn (ws ++ ws') := by
  rw [ScopeState.warn, ScopeState.warn, ScopeState.warn, List.append_assoc]

/-- A walk whose steps give a value and warnings, whatever came before. -/
theorem mapM_warn {f : α → RM Name β} {g : α → β} {w : α → List (Warning Name)} {l : List α}
    (hf : ∀ x ∈ l, ∀ s, (f x).run s = some (g x, s.warn (w x))) :
    (l.mapM f).run s = some (l.map g, s.warn (l.flatMap w)) := by
  induction l generalizing s with
  | nil => simp [StateT.run_pure]
  | cons x l ih =>
    rw [List.forall_mem_cons] at hf
    rw [List.mapM_cons, run_bind (hf.1 s), run_bind (ih hf.2)]
    simp

/-! ### What is found -/

/-- The position of a field in a constructor. -/
def FieldMap.position (fm : FieldMap names) (c n : Name) : Option ℕ := (fm.labels n).bind (List.lookup c)

def found (fm : FieldMap names) (constructorName : Option Name) (b : HsField Name α) : List (Name × ℕ × Name × α) :=
  (((fm.labels b.name).getD []).filter fun x => constructorName.all fun c => x.1 = c).map fun x => (x.1, x.2, b.name, b.value)

/-- The positions that the bindings have in a constructor, with the bindings. -/
def placedFields (fm : FieldMap names) (c : Name) (us : List (HsField Name α)) : List (ℕ × Name × α) :=
  us.filterMap fun b => (fm.position c b.name).map fun i => (i, b.name, b.value)

theorem occurrences_run (constructorName : Option Name) (b : HsField Name α) (s : ScopeState Name) :
    (occurrences fm constructorName b).run s = some (found fm constructorName b, s.warn (missing fm b)) := by
  unfold occurrences missing found
  by_cases hdot : b.name = names.u_DotDot
  · rw [if_pos hdot, if_pos hdot, hdot, fm.dotDot, warn_nil]
    rfl
  · rw [if_neg hdot, if_neg hdot]
    cases hlabels : fm.labels b.name with
    | none => rw [if_pos rfl]; rfl
    | some cs => rw [if_neg (by simp), warn_nil]; rfl

theorem position_eq {c n : Name} {i : ℕ} : fm.position c n = some i ↔ ∃ cs, fm.labels n = some cs ∧ (c, i) ∈ cs := by
  rw [FieldMap.position, Option.bind_eq_some_iff]
  refine exists_congr fun cs => and_congr_right fun hcs => ?_
  exact ⟨mem_of_lookup, lookup_of_mem (fm.once n cs hcs)⟩

theorem filter_key {κ ι : Type} [DecidableEq κ] {l : List (κ × ι)} (hl : (l.map Prod.fst).Nodup) (k : κ) :
    l.filter (fun x => x.1 = k) = ((l.lookup k).map fun i => (k, i)).toList := by
  induction l with
  | nil => rfl
  | cons p l ih =>
    rw [List.map_cons, List.nodup_cons] at hl
    by_cases hk : p.1 = k
    · have hnone : l.lookup k = none := lookup_eq_none.2 (hk ▸ hl.1)
      rw [List.filter_cons_of_pos (by simpa using hk), ih hl.2, hnone, List.lookup_cons, ← hk]
      simp
    · have hbeq : (k == p.1) = false := by
        simpa using fun h : k = p.1 => hk h.symm
      rw [List.filter_cons_of_neg (by simpa using hk), ih hl.2, List.lookup_cons, hbeq]

theorem filter_found {t : Name} {constructorName : Option Name} (ht : ∀ c ∈ constructorName, c = t) (b : HsField Name α) :
    ((found fm constructorName b).filter fun x => x.1 = t).map Prod.snd =
      ((fm.position t b.name).map fun i => (i, b.name, b.value)).toList := by
  have hall : ∀ x : Name × ℕ, (decide (x.1 = t) && constructorName.all fun c => x.1 = c) = decide (x.1 = t) := by
    intro x
    cases constructorName with
    | none => simp
    | some c => simp [ht c rfl]
  rw [found, List.filter_map, List.map_map, List.filter_filter]
  simp only [Function.comp_def, hall, FieldMap.position]
  cases hlabels : fm.labels b.name with
  | none => rfl
  | some cs =>
    rw [Option.getD_some, Option.bind_some, filter_key (fm.once _ _ hlabels)]
    cases cs.lookup t <;> rfl

theorem filter_flatten_found {t : Name} {constructorName : Option Name} (ht : ∀ c ∈ constructorName, c = t) (us : List (HsField Name α)) :
    ((us.map (found fm constructorName)).flatten.filter fun x => x.1 = t).map Prod.snd = placedFields fm t us := by
  induction us with
  | nil => rfl
  | cons b us ih =>
    rw [List.map_cons, List.flatten_cons, List.filter_append, List.map_append, ih, filter_found ht, placedFields, placedFields,
      List.filterMap_cons]
    cases fm.position t b.name <;> rfl

theorem found_known {c : Name} {b : HsField Name α} : ∀ x ∈ found fm (some c) b, x.1 = c := by
  intro x hx
  obtain ⟨y, hy, rfl⟩ := List.mem_map.1 hx
  exact of_decide_eq_true (List.mem_filter.1 hy).2

/-- The groups of the fields that are found, before the arities. -/
def groups (fm : FieldMap names) (constructorName : Option Name) (us : List (HsField Name α)) : List (Name × List (ℕ × Name × α)) :=
  sortGroupUnderFG Prod.fst Prod.snd (us.map (found fm constructorName)).flatten

theorem mem_groups {constructorName : Option Name} {us : List (HsField Name α)} {t : Name} (ht : ∀ c ∈ constructorName, c = t)
    {zs : List (ℕ × Name × α)} :
    (t, zs) ∈ groups fm constructorName us ↔ (∃ b ∈ us, (fm.position t b.name).isSome) ∧ zs = placedFields fm t us := by
  rw [groups, mem_sortGroupUnderFG, filter_flatten_found ht]
  refine and_congr_left fun _ => ?_
  have hempty : ((us.map (found fm constructorName)).flatten.filter fun x => x.1 = t) = [] ↔ placedFields fm t us = [] := by
    rw [← filter_flatten_found ht us, List.map_eq_nil_iff]
  rw [List.filter_eq_nil_iff, placedFields, List.filterMap_eq_nil_iff] at hempty
  have hexists := not_congr hempty
  push_neg at hexists
  simpa [Option.isSome_iff_ne_none] using hexists

theorem groups_known (c : Name) (us : List (HsField Name α)) :
    (if c ∈ (groups fm (some c) us).map Prod.fst then groups fm (some c) us else (c, []) :: groups fm (some c) us) =
      [(c, placedFields fm c us)] := by
  have hkeys : ∀ k ∈ (groups fm (some c) us).map Prod.fst, k = c := by
    intro k hk
    obtain ⟨p, hp, rfl⟩ := List.mem_map.1 hk
    obtain ⟨x, hx, hxk⟩ := (mem_sortGroupUnderFG.1 (show (p.1, p.2) ∈ sortGroupUnderFG _ _ _ from hp)).1
    rw [← hxk]
    obtain ⟨l, hl, hxl⟩ := List.mem_flatten.1 hx
    obtain ⟨b, -, rfl⟩ := List.mem_map.1 hl
    exact found_known x hxl
  have hc : ∀ d ∈ some c, d = c := fun d hd => (Option.some.inj hd).symm
  have hnodup : ((groups fm (some c) us).map Prod.fst).Nodup := sortGroupUnderFG_keys
  have hmem : ∀ zs, (c, zs) ∈ groups fm (some c) us ↔ _ := fun zs => mem_groups hc
  cases hgroups : groups fm (some c) us with
  | nil =>
    have hnone : placedFields fm c us = [] := by
      rw [placedFields, List.filterMap_eq_nil_iff]
      intro b hb
      rw [Option.map_eq_none_iff, ← Option.not_isSome_iff_eq_none]
      intro hsome
      have hin := (hmem _).2 ⟨⟨b, hb, hsome⟩, rfl⟩
      rw [hgroups] at hin
      cases hin
    rw [if_neg (by simp), hnone]
  | cons p rest =>
    obtain ⟨k, zs⟩ := p
    rw [hgroups] at hkeys hnodup hmem
    obtain rfl : k = c := hkeys k List.mem_cons_self
    cases rest with
    | nil =>
      rw [if_pos (by simp), ((hmem zs).1 List.mem_cons_self).2]
    | cons q rest =>
      have hq : q.1 = k := hkeys q.1 (by simp)
      simp [hq] at hnodup

/-! ### What getRecInfo gives -/

theorem withArity_run {c : Name} {a : ℕ} (ha : fm.arity c = some a) (zs : List (ℕ × Name × α)) (s : ScopeState Name) :
    (withArity fm (c, zs)).run s = some ((c, a, zs), s) := by
  simp only [withArity, ha]
  rfl

theorem position_arity {c n : Name} {i : ℕ} (h : fm.position c n = some i) : ∃ a, fm.arity c = some a ∧ i < a := by
  obtain ⟨cs, hcs, hmem⟩ := position_eq.1 h
  exact fm.positioned n cs c i hcs hmem

theorem warn_when (p : Prop) [Decidable p] (w : Warning Name) (k : Unit → RM Name β) (s : ScopeState Name) :
    (if p then failRename w >>= k else k ()).run s = (k ()).run (s.warn (if p then [w] else [])) := by
  by_cases hp : p
  · rw [if_pos hp, if_pos hp]
    rfl
  · rw [if_neg hp, if_neg hp, warn_nil]

theorem getRecInfo_run (constructorName : Option Name) (us : List (HsField Name α)) (s : ScopeState Name) :
    (getRecInfo fm constructorName us).run s =
      ((withConstructor constructorName (groups fm constructorName us)).mapM (withArity fm)).run (s.warn (errors fm us)) := by
  have hwalk : ∀ s : ScopeState Name, (us.mapM (occurrences fm constructorName)).run s =
      some (us.map (found fm constructorName), s.warn (us.flatMap (missing fm))) :=
    fun s => mapM_warn fun b _ => occurrences_run constructorName b
  unfold getRecInfo
  dsimp only
  rw [warn_when, warn_when, run_bind (hwalk _), warn_warn, warn_warn, errors, ite_not, List.append_assoc]
  rfl

theorem getRecInfo_known {c : Name} {a : ℕ} (ha : fm.arity c = some a) (us : List (HsField Name α)) (s : ScopeState Name) :
    (getRecInfo fm (some c) us).run s = some ([(c, a, placedFields fm c us)], s.warn (errors fm us)) := by
  rw [getRecInfo_run, withConstructor, groups_known, List.mapM_cons, run_bind (withArity_run ha _ _)]
  rfl

/-- Without a constructor: those that have one of the fields, each once. -/
theorem getRecInfo_unknown (fm : FieldMap names) (us : List (HsField Name α)) (s : ScopeState Name) :
    ∃ gs, (getRecInfo fm none us).run s = some (gs, s.warn (errors fm us)) ∧ (gs.map Prod.fst).Nodup ∧
      ∀ c a zs, (c, a, zs) ∈ gs ↔ fm.arity c = some a ∧ (∃ b ∈ us, (fm.position c b.name).isSome) ∧ zs = placedFields fm c us := by
  have harity : ∀ g ∈ groups fm none us, ∃ a, fm.arity g.1 = some a := by
    intro g hg
    obtain ⟨⟨b, -, hb⟩, -⟩ := (mem_groups (by simp)).1 (show (g.1, g.2) ∈ groups fm none us from hg)
    obtain ⟨i, hi⟩ := Option.isSome_iff_exists.1 hb
    obtain ⟨a, ha, -⟩ := position_arity hi
    exact ⟨a, ha⟩
  have hrun := mapM_warn (l := groups fm none us) (s := s.warn (errors fm us)) (f := withArity fm)
    (g := fun g => (g.1, (fm.arity g.1).getD 0, g.2)) (w := fun _ => []) fun g hg s => by
      obtain ⟨a, ha⟩ := harity g hg
      rw [withArity_run ha g.2, ha, warn_nil]
      rfl
  refine ⟨(groups fm none us).map fun g => (g.1, (fm.arity g.1).getD 0, g.2), ?_, ?_, fun c a zs => ?_⟩
  · have hnone : ((groups fm none us).flatMap fun _ => ([] : List (Warning Name))) = [] := List.flatMap_eq_nil_iff.2 fun _ _ => rfl
    rw [getRecInfo_run, withConstructor, hrun, hnone, warn_nil]
  · rw [List.map_map]
    exact sortGroupUnderFG_keys
  · rw [List.mem_map]
    constructor
    · intro h
      obtain ⟨g, hg, heq⟩ := h
      obtain ⟨a', ha'⟩ := harity g hg
      obtain ⟨rfl, hrest⟩ := Prod.mk.inj heq
      obtain ⟨rfl, rfl⟩ := Prod.mk.inj hrest
      rw [ha']
      exact ⟨rfl, (mem_groups (by simp)).1 hg⟩
    · intro h
      obtain ⟨ha, hzs⟩ := h
      exact ⟨(c, zs), (mem_groups (by simp)).2 hzs, by rw [ha]; rfl⟩

/-! ### Values by position -/

theorem position_inj {c n m : Name} {i : ℕ} (hn : fm.position c n = some i) (hm : fm.position c m = some i) : n = m := by
  obtain ⟨cs, hcs, hc⟩ := position_eq.1 hn
  obtain ⟨ds, hds, hd⟩ := position_eq.1 hm
  exact fm.apart n m cs ds c i hcs hds hc hd

theorem placedFields_keys {us : List (HsField Name α)} (hus : (us.map HsField.name).Nodup) (c : Name) :
    ((placedFields fm c us).map Prod.fst).Nodup := by
  have hkeys : (placedFields fm c us).map Prod.fst = (us.map HsField.name).filterMap (fm.position c) := by
    rw [placedFields, List.map_filterMap, List.filterMap_map]
    refine List.filterMap_congr fun b _ => ?_
    cases h : fm.position c b.name <;> simp [h]
  rw [hkeys]
  exact hus.filterMap fun n m i hn hm => position_inj hn hm

theorem valueAt_eq {us : List (HsField Name α)} (hus : (us.map HsField.name).Nodup) {c : Name} {i : ℕ} {v : α} :
    valueAt (placedFields fm c us) i = some v ↔ ∃ b ∈ us, fm.position c b.name = some i ∧ b.value = v := by
  rw [valueAt, Option.map_eq_some_iff]
  constructor
  · intro h
    obtain ⟨⟨n, v'⟩, hlookup, rfl⟩ := h
    obtain ⟨b, hb, hmap⟩ := List.mem_filterMap.1 (mem_of_lookup hlookup)
    obtain ⟨j, hj, heq⟩ := Option.map_eq_some_iff.1 hmap
    obtain ⟨rfl, hrest⟩ := Prod.mk.inj heq
    exact ⟨b, hb, hj, (Prod.mk.inj hrest).2⟩
  · intro h
    obtain ⟨b, hb, hpos, rfl⟩ := h
    refine ⟨(b.name, b.value), lookup_of_mem (placedFields_keys hus c) ?_, rfl⟩
    exact List.mem_filterMap.2 ⟨b, hb, by rw [hpos]; rfl⟩

/-- No binding is for the field at this position of the constructor. -/
def Free (fm : FieldMap names) (c : Name) (us : List (HsField Name α)) (i : ℕ) : Prop := ∀ b ∈ us, fm.position c b.name ≠ some i

theorem valueAt_eq_none {us : List (HsField Name α)} (hus : (us.map HsField.name).Nodup) {c : Name} {i : ℕ} :
    valueAt (placedFields fm c us) i = none ↔ Free fm c us i := by
  rw [Option.eq_none_iff_forall_not_mem]
  constructor
  · intro h b hb hpos
    exact h b.value ((valueAt_eq hus).2 ⟨b, hb, hpos, rfl⟩)
  · intro h v hv
    obtain ⟨b, hb, hpos, -⟩ := (valueAt_eq hus).1 hv
    exact h b hb hpos

/-! ### The three uses -/

/-- The bindings stand at the positions that their fields have in the constructor. -/
structure Placed (fm : FieldMap names) (c : Name) (a : ℕ) (us : List (HsField Name α)) (inside : α → β) (outside : ℕ → β)
    (rs : List β) : Prop where
  length : rs.length = a
  bound : ∀ b ∈ us, ∀ i, fm.position c b.name = some i → rs[i]? = some (inside b.value)
  free : ∀ i < a, Free fm c us i → rs[i]? = some (outside i)

theorem placed_range {c : Name} {a : ℕ} (ha : fm.arity c = some a) {us : List (HsField Name α)} (hus : (us.map HsField.name).Nodup)
    (inside : α → β) (outside : ℕ → β) :
    Placed fm c a us inside outside
      ((List.range a).map fun i => ((valueAt (placedFields fm c us) i).map inside).getD (outside i)) where
  length := by rw [List.length_map, List.length_range]
  bound b hb i hpos := by
    obtain ⟨a', ha', hi⟩ := position_arity hpos
    obtain rfl : a = a' := Option.some.inj (ha.symm.trans ha')
    rw [List.getElem?_map, List.getElem?_range hi, Option.map_some, (valueAt_eq hus).2 ⟨b, hb, hpos, rfl⟩]
    rfl
  free i hi hnone := by
    rw [List.getElem?_map, List.getElem?_range hi, Option.map_some, (valueAt_eq_none hus).2 hnone]
    rfl

/-- The warning is about the name. -/
def Warning.IsAbout (names : Names Name) (n : Name) : Warning Name → Prop
  | .wildcard => n = names.u_DotDot
  | .noLabel m => n = m
  | _ => False

/-- An error for each field that the constructor does not have, and none when it has them all. -/
def Reports (fm : FieldMap names) (c : Name) (us : List (HsField Name α)) (s s' : ScopeState Name) : Prop :=
  ∃ ws, s'.warnings = s.warnings ++ ws ∧ (∀ b ∈ us, fm.position c b.name = none → ∃ w ∈ ws, w.IsAbout names b.name) ∧
    ((∀ b ∈ us, fm.position c b.name ≠ none) → ws = [])

theorem position_dotDot (c : Name) : fm.position c names.u_DotDot = none := by
  rw [FieldMap.position, fm.dotDot, Option.bind_none]

theorem errors_about {us : List (HsField Name α)} {b : HsField Name α} (hb : b ∈ us) :
    (∃ w ∈ errors fm us, w.IsAbout names b.name) ↔ fm.labels b.name = none := by
  constructor
  · intro h
    obtain ⟨w, hw, habout⟩ := h
    cases w with
    | duplicateLabels => cases habout
    | unknownConstructor => cases habout
    | wildcard =>
      rw [show b.name = names.u_DotDot from habout]
      exact fm.dotDot
    | noLabel m =>
      obtain rfl : b.name = m := habout
      have hmissing : Warning.noLabel b.name ∈ us.flatMap (missing fm) := by
        simpa [errors] using hw
      obtain ⟨b', -, hw⟩ := List.mem_flatMap.1 hmissing
      unfold missing at hw
      split_ifs at hw with hdot hlabels
      · cases hw
      · rw [List.mem_singleton] at hw
        rwa [Warning.noLabel.inj hw]
      · cases hw
  · intro hlabels
    by_cases hdot : b.name = names.u_DotDot
    · refine ⟨.wildcard, ?_, hdot⟩
      have hmem : names.u_DotDot ∈ us.map HsField.name := hdot ▸ List.mem_map_of_mem hb
      rw [errors, if_pos hmem]
      simp
    · refine ⟨.noLabel b.name, ?_, rfl⟩
      refine List.mem_append_right _ (List.mem_flatMap.2 ⟨b, hb, ?_⟩)
      rw [missing, if_neg hdot, if_pos hlabels]
      exact List.mem_singleton_self _

theorem errors_nil {us : List (HsField Name α)} (hus : (us.map HsField.name).Nodup) (hlabels : ∀ b ∈ us, fm.labels b.name ≠ none) :
    errors fm us = [] := by
  have hdot : names.u_DotDot ∉ us.map HsField.name := by
    intro h
    obtain ⟨b, hb, hname⟩ := List.mem_map.1 h
    exact hlabels b hb (hname ▸ fm.dotDot)
  have hmissing : us.flatMap (missing fm) = [] := by
    refine List.flatMap_eq_nil_iff.2 fun b hb => ?_
    rw [missing, if_neg (hlabels b hb)]
    split <;> rfl
  rw [errors, if_pos (hus.filter _), if_neg hdot, hmissing]
  rfl

theorem reports_iff {c : Name} {us : List (HsField Name α)} (hus : (us.map HsField.name).Nodup)
    (hs' : s'.warnings = s.warnings ++ errors fm us) :
    Reports fm c us s s' ↔ ∀ b ∈ us, fm.position c b.name = none → fm.labels b.name = none := by
  constructor
  · intro h b hb hpos
    obtain ⟨ws, hws, habout, -⟩ := h
    obtain rfl := List.append_cancel_left (hs'.symm.trans hws)
    exact (errors_about hb).1 (habout b hb hpos)
  · intro h
    refine ⟨_, hs', fun b hb hpos => (errors_about hb).2 (h b hb hpos), fun hall => errors_nil hus fun b hb hlabels => ?_⟩
    refine hall b hb ?_
    rw [FieldMap.position, hlabels, Option.bind_none]

/-- A construction is right: the fields in their places, the others undefined, and the errors reported. -/
def Constructs (fm : FieldMap names) (sl : ℕ) (c : Name) (a : ℕ) (us : List (HsField Name (HsExp Name Exp)))
    (s : ScopeState Name) : Prop :=
  ∃ rs s', (buildRecConstr fm sl c us).run s = some (rs.foldl .hsApp (.hsCon c), s') ∧
    Placed fm c a us hsParen (fun _ => createError sl .hsErrorUninitializedField "Uninitialized Field") rs ∧ Reports fm c us s s'

/-- A pattern is right: the fields in their places, new variables in the others, and the errors reported. -/
def Matches (fm : FieldMap names) (c : Name) (a : ℕ) (us : List (HsField Name (HsPat Name Pat))) (s : ScopeState Name) : Prop :=
  ∃ rs s', ∃ vars : ℕ → Name, (buildRecPat fm c us).run s = some (.hsPApp c rs, s') ∧
    Placed fm c a us .hsPParen (fun i => .hsPVar (vars i)) rs ∧
    (∀ i j, i < j → Free fm c us i → Free fm c us j → vars i ≠ vars j) ∧
    (∀ i, ∃ u ≥ s.unique, vars i = names.var u) ∧ Reports fm c us s s'

theorem buildRecConstr_run {c : Name} {a : ℕ} (ha : fm.arity c = some a) (sl : ℕ) (us : List (HsField Name (HsExp Name Exp)))
    (s : ScopeState Name) :
    (buildRecConstr fm sl c us).run s =
      some (((List.range a).map fun i => ((valueAt (placedFields fm c us) i).map hsParen).getD
        (createError sl .hsErrorUninitializedField "Uninitialized Field")).foldl .hsApp (.hsCon c), s.warn (errors fm us)) := by
  unfold buildRecConstr
  dsimp only
  rw [run_bind (getRecInfo_known ha us s)]
  refine congrArg (fun rs => some (List.foldl HsExp.hsApp (.hsCon c) rs, s.warn (errors fm us))) (List.map_congr_left fun i _ => ?_)
  cases valueAt (placedFields fm c us) i <;> rfl

theorem constructs_iff {c : Name} {a : ℕ} (ha : fm.arity c = some a) (sl : ℕ) {us : List (HsField Name (HsExp Name Exp))}
    (hus : (us.map HsField.name).Nodup) (s : ScopeState Name) :
    Constructs fm sl c a us s ↔ ∀ b ∈ us, fm.position c b.name = none → fm.labels b.name = none := by
  have hrun := buildRecConstr_run ha sl us s
  have hreports : Reports fm c us s (s.warn (errors fm us)) ↔ _ := reports_iff hus rfl
  rw [← hreports]
  constructor
  · intro h
    obtain ⟨rs, s', hrun', -, hreports⟩ := h
    rw [hrun] at hrun'
    rwa [← (Prod.mk.inj (Option.some.inj hrun')).2] at hreports
  · intro h
    exact ⟨_, _, hrun, placed_range ha hus _ _, h⟩

/-- How many variables a pattern needs in front of a position. -/
def freeBefore (fs : List (ℕ × Name × α)) (i : ℕ) : ℕ := ((List.range i).filter fun j => valueAt fs j = none).length

theorem freeBefore_succ (fs : List (ℕ × Name × α)) (i : ℕ) :
    freeBefore fs (i + 1) = freeBefore fs i + if valueAt fs i = none then 1 else 0 := by
  rw [freeBefore, List.range_succ, List.filter_append, List.length_append, ← freeBefore]
  by_cases h : valueAt fs i = none <;> simp [h]

theorem freeBefore_lt {fs : List (ℕ × Name × α)} {i j : ℕ} (hij : i < j) (hi : valueAt fs i = none) : freeBefore fs i < freeBefore fs j := by
  induction j with
  | zero => cases hij
  | succ j ih =>
    rw [freeBefore_succ]
    rcases Nat.lt_succ_iff_lt_or_eq.1 hij with hlt | rfl
    · exact Nat.lt_add_right _ (ih hlt)
    · rw [if_pos hi]
      exact Nat.lt_succ_self _

theorem newVar_run (s : ScopeState Name) : (newVar names).run s = some (names.var s.unique, { s with unique := s.unique + 1 }) := rfl

theorem patterns_run (fs : List (ℕ × Name × HsPat Name Pat)) (a : ℕ) (s : ScopeState Name) :
    ((List.range a).mapM (patternAt names fs)).run s =
      some ((List.range a).map fun i => ((valueAt fs i).map HsPat.hsPParen).getD (.hsPVar (names.var (s.unique + freeBefore fs i))),
        { s with unique := s.unique + freeBefore fs a }) := by
  induction a with
  | zero => rfl
  | succ a ih =>
    rw [List.range_succ, List.mapM_append, run_bind ih, List.mapM_cons, List.mapM_nil, List.map_append, freeBefore_succ]
    cases h : valueAt fs a with
    | none =>
      simp [patternAt, h, newVar_run, Nat.add_assoc]
    | some e =>
      simp [patternAt, h]

theorem buildRecPat_run {c : Name} {a : ℕ} (ha : fm.arity c = some a) (us : List (HsField Name (HsPat Name Pat))) (s : ScopeState Name) :
    (buildRecPat fm c us).run s =
      some (.hsPApp c ((List.range a).map fun i => ((valueAt (placedFields fm c us) i).map HsPat.hsPParen).getD
          (.hsPVar (names.var (s.unique + freeBefore (placedFields fm c us) i)))),
        { s.warn (errors fm us) with unique := s.unique + freeBefore (placedFields fm c us) a }) := by
  unfold buildRecPat
  rw [run_bind (getRecInfo_known ha us s)]
  dsimp only
  rw [run_bind (patterns_run _ a _)]
  rfl

theorem matches_iff {c : Name} {a : ℕ} (ha : fm.arity c = some a) {us : List (HsField Name (HsPat Name Pat))}
    (hus : (us.map HsField.name).Nodup) (s : ScopeState Name) :
    Matches fm c a us s ↔ ∀ b ∈ us, fm.position c b.name = none → fm.labels b.name = none := by
  have hrun := buildRecPat_run ha us s
  constructor
  · intro h
    obtain ⟨rs, s', -, hrun', -, -, -, hreports⟩ := h
    rw [hrun] at hrun'
    rw [← (Prod.mk.inj (Option.some.inj hrun')).2] at hreports
    exact (reports_iff hus rfl).1 hreports
  · intro h
    refine ⟨_, _, _, hrun, placed_range ha hus _ _, fun i j hij hi _ heq => ?_, fun i => ⟨_, Nat.le_add_right _ _, rfl⟩,
      (reports_iff hus rfl).2 h⟩
    have hlt := freeBefore_lt hij ((valueAt_eq_none hus).2 hi)
    have heq := names.var_injective heq
    omega

/-! ### Update -/

def HsAlt.constructor : HsAlt Name Exp Pat → Option Name
  | ⟨.hsPApp c _, _⟩ => some c
  | _ => none

/-- The alternative that replaces the updated fields and keeps the others in their variables. -/
def Replaces (fm : FieldMap names) (c : Name) (a : ℕ) (us : List (HsField Name (HsExp Name Exp))) (s : ScopeState Name)
    (alt : HsAlt Name Exp Pat) : Prop :=
  ∃ vars : ℕ → Name, ∃ rs, alt = ⟨.hsPApp c ((List.range a).map fun i => .hsPVar (vars i)), rs.foldl .hsApp (.hsCon c)⟩ ∧
    Placed fm c a us id (fun i => .hsVar (vars i)) rs ∧ Function.Injective vars ∧ ∀ i, ∃ u ≥ s.unique, vars i = names.var u

/-- An update is right: one alternative for each constructor that has all the fields, none for the
others, and an error in the end. -/
def Updates (Pat : Type) (fm : FieldMap names) (sl : ℕ) (e : HsExp Name Exp) (us : List (HsField Name (HsExp Name Exp)))
    (s : ScopeState Name) : Prop :=
  ∃ as : List (HsAlt Name Exp Pat), ∃ s', (buildRecUpdate fm sl e us).run s =
      some (⟨e, as ++ [⟨.hsPWildCard, createError sl .hsErrorRecordUpdate "Record Update Error"⟩]⟩, s') ∧
    ∀ c a, fm.arity c = some a →
      ((∀ b ∈ us, fm.position c b.name ≠ none) → ∃ alt, as.filter (fun x => x.constructor = some c) = [alt] ∧ Replaces fm c a us s alt) ∧
      ((∃ b ∈ us, fm.position c b.name = none) → as.filter (fun x => x.constructor = some c) = [])

theorem updateAlt_run (c : Name) (a : ℕ) (zs : List (ℕ × Name × HsExp Name Exp)) (s : ScopeState Name) :
    (updateAlt names (c, a, zs) : RM Name (HsAlt Name Exp Pat)).run s =
      some (⟨.hsPApp c ((List.range a).map fun i => .hsPVar (names.var (s.unique + i))),
        ((List.range a).map fun i => ((valueAt zs i).map id).getD (.hsVar (names.var (s.unique + i)))).foldl .hsApp (.hsCon c)⟩,
        { s with unique := s.unique + a }) := by
  have hvars : ((List.range a).mapM fun _ => newVar names).run s =
      some ((List.range a).map fun i => names.var (s.unique + i), { s with unique := s.unique + a }) := by
    induction a with
    | zero => rfl
    | succ a ih => 
      rw [List.range_succ, List.mapM_append, run_bind ih]
      simp [newVar_run, Nat.add_assoc]
  unfold updateAlt
  dsimp only
  rw [run_bind hvars]
  have hzip : ((List.range a).map fun i => names.var (s.unique + i)).zipIdx = (List.range a).map fun i => (names.var (s.unique + i), i) := by
    refine List.ext_getElem (by simp) fun i _ _ => ?_
    simp
  rw [hzip, List.map_map, List.map_map]
  simp only [Option.map_id]
  rfl

/-- Each alternative replaces the fields of its constructor, with variables of its own. -/
theorem updateAlts_run (Pat : Type) {gs : List (Name × ℕ × List (ℕ × Name × HsExp Name Exp))} {us : List (HsField Name (HsExp Name Exp))}
    (hus : (us.map HsField.name).Nodup) (hgs : ∀ c a zs, (c, a, zs) ∈ gs → fm.arity c = some a ∧ zs = placedFields fm c us)
    (s : ScopeState Name) :
    ∃ as : List (HsAlt Name Exp Pat), ∃ s', (gs.mapM (updateAlt names)).run s = some (as, s') ∧
      List.Forall₂ (fun g alt => Replaces fm g.1 g.2.1 us s alt) gs as := by
  induction gs generalizing s with
  | nil => exact ⟨[], s, rfl, .nil⟩
  | cons g gs ih =>
    obtain ⟨c, a, zs⟩ := g
    obtain ⟨ha, rfl⟩ := hgs c a zs List.mem_cons_self
    obtain ⟨as, s', hrun, hall⟩ := ih (fun c a zs hg => hgs c a zs (List.mem_cons_of_mem _ hg)) { s with unique := s.unique + a }
    refine ⟨_, s', ?_, .cons ⟨fun i => names.var (s.unique + i), _, rfl, placed_range ha hus _ _, ?_, ?_⟩ (hall.imp ?_)⟩
    · rw [List.mapM_cons, run_bind (updateAlt_run c a _ s), run_bind hrun]
      rfl
    · intro i j hij
      exact Nat.add_left_cancel (names.var_injective hij)
    · exact fun i => ⟨_, Nat.le_add_right _ _, rfl⟩
    · intro g alt h
      obtain ⟨vars, rs, halt, hplaced, hinj, hfresh⟩ := h
      refine ⟨vars, rs, halt, hplaced, hinj, fun i => ?_⟩
      obtain ⟨u, hu, hvar⟩ := hfresh i
      exact ⟨u, le_trans (Nat.le_add_right _ _) hu, hvar⟩

theorem filter_alts {gs : List (Name × ℕ × List (ℕ × Name × HsExp Name Exp))} {us : List (HsField Name (HsExp Name Exp))}
    {as : List (HsAlt Name Exp Pat)} (hall : List.Forall₂ (fun g alt => Replaces fm g.1 g.2.1 us s alt) gs as)
    (hgs : (gs.map Prod.fst).Nodup) (c : Name) :
    (c ∉ gs.map Prod.fst → as.filter (fun x => x.constructor = some c) = []) ∧
      ∀ a zs, (c, a, zs) ∈ gs → ∃ alt, as.filter (fun x => x.constructor = some c) = [alt] ∧ Replaces fm c a us s alt := by
  induction hall with
  | nil => exact ⟨fun _ => rfl, fun a zs h => by cases h⟩
  | @cons g alt gs as hg hall ih =>
    rw [List.map_cons, List.nodup_cons] at hgs
    obtain ⟨hnone, hone⟩ := ih hgs.2
    have hconstructor : alt.constructor = some g.1 := by
      obtain ⟨vars, rs, rfl, -⟩ := hg
      rfl
    rw [List.map_cons, List.mem_cons, not_or]
    refine ⟨fun h => ?_, fun a zs hmem => ?_⟩
    · rw [List.filter_cons_of_neg (by rw [hconstructor]; simpa using fun heq : g.1 = c => h.1 heq.symm)]
      exact hnone h.2
    · cases List.mem_cons.1 hmem with
      | inl heq =>
        subst heq
        rw [List.filter_cons_of_pos (by rw [hconstructor]; simp), hnone hgs.1]
        exact ⟨alt, rfl, hg⟩
      | inr hmem =>
        have hne : g.1 ≠ c := fun heq => hgs.1 (heq ▸ List.mem_map_of_mem (f := Prod.fst) hmem)
        rw [List.filter_cons_of_neg (by rw [hconstructor]; simpa using hne)]
        exact hone a zs hmem

theorem updates_iff (Pat : Type) (fm : FieldMap names) (sl : ℕ) (e : HsExp Name Exp) {us : List (HsField Name (HsExp Name Exp))}
    (hus : (us.map HsField.name).Nodup) (s : ScopeState Name) :
    Updates Pat fm sl e us s ↔
      ∀ c a, fm.arity c = some a → ((∃ b ∈ us, fm.position c b.name ≠ none) ↔ ∀ b ∈ us, fm.position c b.name ≠ none) := by
  obtain ⟨gs, hinfo, hnodup, hgs⟩ := getRecInfo_unknown fm us s
  obtain ⟨as, s', hrun, hall⟩ := updateAlts_run Pat hus (fun c a zs h => ⟨((hgs c a zs).1 h).1, ((hgs c a zs).1 h).2.2⟩)
    (s.warn (errors fm us))
  have hrun : (buildRecUpdate fm sl e us).run s =
      some (⟨e, as ++ [⟨.hsPWildCard, createError sl .hsErrorRecordUpdate "Record Update Error"⟩]⟩, s') := by
    unfold buildRecUpdate
    rw [run_bind hinfo, run_bind hrun]
    rfl
  have hsome : ∀ c a, fm.arity c = some a → (∃ b ∈ us, fm.position c b.name ≠ none) →
      ∃ alt, as.filter (fun x => x.constructor = some c) = [alt] ∧ Replaces fm c a us s alt := by
    intro c a ha hb
    simp only [← Option.isSome_iff_ne_none] at hb
    exact (filter_alts hall hnodup c).2 a _ ((hgs c a _).2 ⟨ha, hb, rfl⟩)
  have hnone : ∀ c, ¬ (∃ b ∈ us, fm.position c b.name ≠ none) → as.filter (fun x => x.constructor = some c) = [] := by
    intro c hb
    refine (filter_alts hall hnodup c).1 fun hkey => hb ?_
    obtain ⟨g, hg, rfl⟩ := List.mem_map.1 hkey
    obtain ⟨b, hbus, hpos⟩ := ((hgs g.1 g.2.1 g.2.2).1 hg).2.1
    exact ⟨b, hbus, Option.isSome_iff_ne_none.1 hpos⟩
  constructor
  · intro h c a ha
    obtain ⟨as', s'', hrun', hfilter⟩ := h
    rw [hrun] at hrun'
    obtain rfl := List.append_cancel_right (HsCase.mk.inj (Prod.mk.inj (Option.some.inj hrun')).1).2
    obtain ⟨hall, hmissing⟩ := hfilter c a ha
    constructor
    · intro hb b hbus hpos
      obtain ⟨alt, halt, -⟩ := hsome c a ha hb
      rw [hmissing ⟨b, hbus, hpos⟩] at halt
      cases halt
    · intro hb
      obtain ⟨alt, halt, -⟩ := hall hb
      by_contra hnot
      rw [hnone c hnot] at halt
      cases halt
  · intro h
    refine ⟨as, s', hrun, fun c a ha => ⟨fun hb => hsome c a ha ((h c a ha).2 hb), fun hb => hnone c fun hb' => ?_⟩⟩
    obtain ⟨b, hbus, hpos⟩ := hb
    exact (h c a ha).1 hb' b hbus hpos

/-- When construction, patterns and update of records are as in the report. -/
theorem records_iff (Pat : Type) (fm : FieldMap names) (sl : ℕ) {c : Name} {a : ℕ} (ha : fm.arity c = some a) (e : HsExp Name Exp)
    (us : List (HsField Name (HsExp Name Exp))) (ps : List (HsField Name (HsPat Name Pat)))
    (hus : (us.map HsField.name).Nodup) (hps : (ps.map HsField.name).Nodup) (s : ScopeState Name) :
    (Constructs fm sl c a us s ↔ ∀ b ∈ us, fm.position c b.name = none → fm.labels b.name = none) ∧
    (Matches fm c a ps s ↔ ∀ b ∈ ps, fm.position c b.name = none → fm.labels b.name = none) ∧
    (Updates Pat fm sl e us s ↔
      ∀ c a, fm.arity c = some a → ((∃ b ∈ us, fm.position c b.name ≠ none) ↔ ∀ b ∈ us, fm.position c b.name ≠ none)) :=
  ⟨constructs_iff ha sl hus s, matches_iff ha hps s, updates_iff Pat fm sl e hus s⟩

/-! ### A type whose constructors share one field -/

def atoms : Names ℕ := ⟨fun u => 100 + u, fun _ _ h => Nat.add_left_cancel h, 0⟩

/-- `data T = A { x, y } | B { x }` with `x`, `y`, `A` and `B` numbered from one. -/
def shared : FieldMap atoms where
  arity c := [(3, 2), (4, 1)].lookup c
  labels n := [(1, [(3, 0), (4, 0)]), (2, [(3, 1)])].lookup n
  positioned n cs c i hcs hc := by
    have hn := mem_of_lookup hcs
    simp only [List.mem_cons, Prod.mk.injEq, List.not_mem_nil, or_false] at hn
    rcases hn with ⟨-, rfl⟩ | ⟨-, rfl⟩
    · simp only [List.mem_cons, Prod.mk.injEq, List.not_mem_nil, or_false] at hc
      rcases hc with ⟨rfl, rfl⟩ | ⟨rfl, rfl⟩
      · exact ⟨2, rfl, by decide⟩
      · exact ⟨1, rfl, by decide⟩
    · simp only [List.mem_cons, Prod.mk.injEq, List.not_mem_nil, or_false] at hc
      obtain ⟨rfl, rfl⟩ := hc
      exact ⟨2, rfl, by decide⟩
  once n cs hcs := by
    have hn := mem_of_lookup hcs
    simp only [List.mem_cons, Prod.mk.injEq, List.not_mem_nil, or_false] at hn
    rcases hn with ⟨-, rfl⟩ | ⟨-, rfl⟩ <;> decide
  dotDot := rfl
  apart n m cs ds c i hcs hds hc hd := by
    have hn := mem_of_lookup hcs
    have hm := mem_of_lookup hds
    simp only [List.mem_cons, Prod.mk.injEq, List.not_mem_nil, or_false] at hn hm
    rcases hn with ⟨rfl, rfl⟩ | ⟨rfl, rfl⟩ <;> rcases hm with ⟨rfl, rfl⟩ | ⟨rfl, rfl⟩
    · rfl
    · simp at hc hd
      omega
    · simp at hc hd
      omega
    · rfl

theorem shared_constructors {c a : ℕ} (h : shared.arity c = some a) : c = 3 ∨ c = 4 := by
  have hc := mem_of_lookup h
  simp only [List.mem_cons, Prod.mk.injEq, List.not_mem_nil, or_false] at hc
  exact hc.imp And.left And.left

/-- `A { x = e }`, the pattern `A { y = _ }` and the update of `x`, which both constructors have. -/
theorem shared_records : Constructs shared 0 3 2 [⟨1, .atom ()⟩] ⟨0, []⟩ ∧
    Matches shared 3 2 [⟨2, (.hsPWildCard : HsPat ℕ Unit)⟩] ⟨0, []⟩ ∧ Updates Unit shared 0 (.atom ()) [⟨1, .atom ()⟩] ⟨0, []⟩ := by
  obtain ⟨hconstructs, hmatches, hupdates⟩ := records_iff Unit shared 0 (c := 3) rfl (.atom ()) [⟨1, .atom ()⟩]
    [⟨2, .hsPWildCard⟩] (by decide) (by decide) ⟨0, []⟩
  refine ⟨hconstructs.2 ?_, hmatches.2 ?_, hupdates.2 fun c a ha => ?_⟩
  · simpa using by decide
  · simpa using by decide
  · rcases shared_constructors ha with rfl | rfl <;> simpa using by decide

/-- Both fields are set in `B`, which has only `x`: no error is reported, and the update of both has an alternative for `B`. -/
theorem shared_accepted : ¬ Updates Unit shared 0 (.atom ()) [⟨1, .atom ()⟩, ⟨2, .atom ()⟩] ⟨0, []⟩ ∧
    ¬ Constructs shared 0 4 1 [⟨1, .atom ()⟩, ⟨2, .atom ()⟩] ⟨0, []⟩ := by
  constructor
  · intro h
    have hb := ((updates_iff Unit shared 0 (.atom ()) (by decide) ⟨0, []⟩).1 h 4 1 rfl).1 ⟨_, List.mem_cons_self, by decide⟩
    exact hb ⟨2, .atom ()⟩ (by simp) (by decide)
  · intro h
    have hlabels := (constructs_iff rfl 0 (by decide) ⟨0, []⟩).1 h ⟨2, .atom ()⟩ (by simp) (by decide)
    cases hlabels

end Jhc.FrontEnd.Rename

import Mathlib
import Jhc.FrontEnd.Tc.Simplify

/-!
# Instances of instances

Where the head of an instance is a constructor applied to arguments in which no type variable is
repeated, an instance that matches a predicate also matches what the predicate is instantiated to.
-/

namespace Jhc.FrontEnd.Representation

open Ty

variable {K : Kinds}

/-- What a head is made of: there is no type variable that is applied. -/
def Ty.Pattern : Ty → Prop
  | tVar _ => True
  | tCon _ => True
  | tAp l r => (∀ v, l ≠ tVar v) ∧ l.Pattern ∧ r.Pattern
  | tArrow l r => l.Pattern ∧ r.Pattern
  | _ => False

def Ty.tyvars : Ty → List Name
  | tVar v => [v]
  | tAp l r => l.tyvars ++ r.tyvars
  | tArrow l r => l.tyvars ++ r.tyvars
  | _ => []

/-- A proper part of a type. -/
def Ty.Part (s : Ty) : Ty → Prop
  | tAp l r => (s = l ∨ s.Part l) ∨ (s = r ∨ s.Part r)
  | tArrow l r => (s = l ∨ s.Part l) ∨ (s = r ∨ s.Part r)
  | _ => False

/-- An arrow counts as an application of its constructor. -/
def Ty.size : Ty → ℕ
  | tAp l r => 1 + l.size + r.size
  | tArrow l r => 3 + l.size + r.size
  | _ => 1

/-- A substitution by types of the kinds of the variables, without quantifiers. -/
structure Subst.Good (K : Kinds) (ts : Subst) : Prop where
  kind : ∀ v t, ts v = some t → getType K t = some (K.tyvarKind v)
  mono : ∀ v t, ts v = some t → t.Mono

attribute [local grind =] Ty.size

theorem isArrowCon_iff {t : Ty} : t.isArrowCon = true ↔ t = arrowCon := by
  cases t with
  | tCon c => simp [Ty.isArrowCon, arrowCon]
  | _ => simp [Ty.isArrowCon, arrowCon]

/-! ### Applications of instantiated types -/

theorem app_not_con (l r : Ty) : (l.app r).isArrowCon = false := by
  cases l with
  | tAp c a =>
    rw [Ty.app]
    split_ifs <;> rfl
  | _ => rfl

theorem getType_app (l r : Ty) : getType K (l.app r) = getType K (tAp l r) := by
  cases l with
  | tAp c a =>
    rw [Ty.app]
    split_ifs with hc
    · rw [isArrowCon_iff.1 hc]
      rfl
    · rfl
  | _ => rfl

theorem size_app (l r : Ty) : (l.app r).size = 1 + l.size + r.size := by
  cases l with
  | tAp c a =>
    rw [Ty.app]
    split_ifs with hc
    · rw [isArrowCon_iff.1 hc]
      simp only [Ty.size, arrowCon]
      omega
    · rfl
  | _ => rfl

theorem mono_app {l r : Ty} : (l.app r).Mono ↔ l.Mono ∧ r.Mono := by
  cases l with
  | tAp c a =>
    rw [Ty.app]
    split_ifs with hc
    · rw [isArrowCon_iff.1 hc]
      simp [Ty.Mono, arrowCon]
    · rfl
  | _ => rfl

theorem inst_app (ts : Subst) (l r : Ty) : (l.app r).inst ts = (l.inst ts).app (r.inst ts) := by
  cases l with
  | tAp c a =>
    rw [Ty.app]
    split_ifs with hc
    · rw [isArrowCon_iff.1 hc]
      rfl
    · rfl
  | _ => rfl

theorem getType_inst {ts : Subst} (hts : ts.Good K) : ∀ {t : Ty}, t.Mono → getType K (t.inst ts) = getType K t
  | tVar v, _ => by
    rw [Ty.inst]
    cases hv : ts v with
    | none => rfl
    | some t => exact hts.kind v t hv
  | tCon _, _ => rfl
  | tMetaVar _, _ => rfl
  | tAp l r, ht => by
    rw [Ty.inst, getType_app, getType, getType, getType_inst hts ht.1]
  | tArrow _ _, _ => rfl

theorem mono_inst {ts : Subst} (hts : ts.Good K) : ∀ {t : Ty}, t.Mono → (t.inst ts).Mono
  | tVar v, _ => by
    rw [Ty.inst]
    cases hv : ts v with
    | none => trivial
    | some t => exact hts.mono v t hv
  | tCon _, _ => trivial
  | tMetaVar _, _ => trivial
  | tAp l r, ht => mono_app.2 ⟨mono_inst hts ht.1, mono_inst hts ht.2⟩
  | tArrow l r, ht => ⟨mono_inst hts ht.1, mono_inst hts ht.2⟩

/-- One instantiation after the other. -/
def Subst.after (us ts : Subst) : Subst := fun v => some (((ts v).getD (tVar v)).inst us)

theorem inst_inst (us ts : Subst) : ∀ {t : Ty}, t.Mono → (t.inst ts).inst us = t.inst (us.after ts)
  | tVar _, _ => rfl
  | tCon _, _ => rfl
  | tMetaVar _, _ => rfl
  | tAp l r, ht => by rw [Ty.inst, inst_app, inst_inst us ts ht.1, inst_inst us ts ht.2, Ty.inst]
  | tArrow l r, ht => by rw [Ty.inst, Ty.inst, inst_inst us ts ht.1, inst_inst us ts ht.2, Ty.inst]

theorem inst_congr {us ts : Subst} : ∀ {t : Ty}, t.Mono → (∀ v ∈ t.tyvars, (us v).getD (tVar v) = (ts v).getD (tVar v)) →
    t.inst us = t.inst ts
  | tVar v, _, h => h v (List.mem_singleton.2 rfl)
  | tCon _, _, _ => rfl
  | tMetaVar _, _, _ => rfl
  | tAp l r, ht, h => by
    rw [Ty.inst, Ty.inst, inst_congr ht.1 fun v hv => h v (List.mem_append_left _ hv),
      inst_congr ht.2 fun v hv => h v (List.mem_append_right _ hv)]
  | tArrow l r, ht, h => by
    rw [Ty.inst, Ty.inst, inst_congr ht.1 fun v hv => h v (List.mem_append_left _ hv),
      inst_congr ht.2 fun v hv => h v (List.mem_append_right _ hv)]

theorem Pattern.mono : ∀ {t : Ty}, t.Pattern → t.Mono
  | tVar _, _ => trivial
  | tCon _, _ => trivial
  | tAp _ _, ht => ⟨Pattern.mono ht.2.1, Pattern.mono ht.2.2⟩
  | tArrow _ _, ht => ⟨Pattern.mono ht.1, Pattern.mono ht.2⟩

theorem Part.pattern {s : Ty} : ∀ {t : Ty}, t.Pattern → s.Part t → s.Pattern
  | tAp l r, ht, hs => by
    rcases hs with (rfl | hs) | rfl | hs
    · exact ht.2.1
    · exact Part.pattern ht.2.1 hs
    · exact ht.2.2
    · exact Part.pattern ht.2.2 hs
  | tArrow l r, ht, hs => by
    rcases hs with (rfl | hs) | rfl | hs
    · exact ht.1
    · exact Part.pattern ht.1 hs
    · exact ht.2
    · exact Part.pattern ht.2 hs

theorem Part.tyvars {s : Ty} : ∀ {t : Ty}, s.Part t → s.tyvars ⊆ t.tyvars
  | tAp l r, hs => by
    rcases hs with (rfl | hs) | rfl | hs
    · exact List.subset_append_left _ _
    · exact List.subset_append_of_subset_left _ (Part.tyvars hs)
    · exact List.subset_append_right _ _
    · exact List.subset_append_of_subset_right _ (Part.tyvars hs)
  | tArrow l r, hs => by
    rcases hs with (rfl | hs) | rfl | hs
    · exact List.subset_append_left _ _
    · exact List.subset_append_of_subset_left _ (Part.tyvars hs)
    · exact List.subset_append_right _ _
    · exact List.subset_append_of_subset_right _ (Part.tyvars hs)

theorem Part.size_inst (ts : Subst) {s : Ty} : ∀ {t : Ty}, s.Part t → (s.inst ts).size < (t.inst ts).size
  | tAp l r, hs => by
    rw [Ty.inst, size_app]
    rcases hs with (rfl | hs) | rfl | hs
    · omega
    · have := Part.size_inst ts hs
      omega
    · omega
    · have := Part.size_inst ts hs
      omega
  | tArrow l r, hs => by
    rw [Ty.inst, Ty.size]
    rcases hs with (rfl | hs) | rfl | hs
    · omega
    · have := Part.size_inst ts hs
      omega
    · omega
    · have := Part.size_inst ts hs
      omega

/-! ### Matching what was instantiated -/

/-- The bindings of a match are good. -/
theorem match'_good {h p : Ty} {u : List (Name × Ty)} (hm : match' K h p = some u) (hp : p.Mono) :
    ∀ v t, (v, t) ∈ u → getType K t = some (K.tyvarKind v) ∧ t.Mono := by
  fun_induction match' K h p generalizing u with
  | case1 l r l' r' ihl ihr =>
    simp only [Option.bind_eq_bind, Option.bind_eq_some_iff, Option.pure_def, Option.some.injEq] at hm
    obtain ⟨sl, hsl, sr, hsr, rfl⟩ := hm
    intro v t hvt
    exact (List.mem_append.1 hvt).elim (ihl hsl hp.1 v t) (ihr hsr hp.2 v t)
  | case2 l r l' r' ihl ihr =>
    simp only [Option.bind_eq_bind, Option.bind_eq_some_iff, Option.pure_def, Option.some.injEq] at hm
    obtain ⟨sl, hsl, sr, hsr, rfl⟩ := hm
    intro v t hvt
    exact (List.mem_append.1 hvt).elim (ihl hsl hp.1 v t) (ihr hsr hp.2 v t)
  | case3 w s hvar =>
    obtain rfl := Option.some.inj hm
    exact fun v t hvt => absurd hvt List.not_mem_nil
  | case4 w s hvar hkind =>
    obtain rfl := Option.some.inj hm
    intro v t hvt
    obtain ⟨rfl, rfl⟩ := Prod.mk.inj (List.mem_singleton.1 hvt)
    exact ⟨hkind, hp⟩
  | case5 w s hvar hkind => cases hm
  | case6 tc =>
    obtain rfl := Option.some.inj hm
    exact fun v t hvt => absurd hvt List.not_mem_nil
  | case7 tc1 tc2 hne => cases hm
  | case8 => cases hm

theorem fromBindings_good {h p : Ty} {u : List (Name × Ty)} (hm : match' K h p = some u) (hp : p.Mono) : (fromBindings u).Good K :=
  ⟨fun v t hv => (match'_good hm hp v t (fromBindings_mem hv)).1, fun v t hv => (match'_good hm hp v t (fromBindings_mem hv)).2⟩

/-- What a type that is no variable matches is built in the same way. -/
theorem match'_shape {l l' : Ty} {u : List (Name × Ty)} (hm : match' K l l' = some u) (hvar : ∀ v, l ≠ tVar v) :
    (∃ c, l = tCon c ∧ l' = tCon c) ∨ (∃ a b a' b' w, l = tAp a b ∧ l' = tAp a' b' ∧ match' K a a' = some w) ∨
    (∃ a b a' b', l = tArrow a b ∧ l' = tArrow a' b') := by
  fun_cases match' K l l' with
  | case1 a b a' b' =>
    simp only [match', Option.bind_eq_bind, Option.bind_eq_some_iff] at hm
    obtain ⟨w, hw, -⟩ := hm
    exact .inr (.inl ⟨a, b, a', b', w, rfl, rfl, hw⟩)
  | case2 a b a' b' => exact .inr (.inr ⟨a, b, a', b', rfl, rfl⟩)
  | case3 v => exact absurd rfl (hvar v)
  | case4 v => exact absurd rfl (hvar v)
  | case5 v => exact absurd rfl (hvar v)
  | case6 c => exact .inl ⟨c, rfl, rfl⟩
  | case7 c1 c2 hne => simp [match', hne] at hm
  | case8 => simp_all [match']

theorem inst_not_arrow {l l' : Ty} {u : List (Name × Ty)} (ts : Subst) (hm : match' K l l' = some u) (hpat : l.Pattern) (hvar : ∀ v, l ≠ tVar v)
    (harrow : ∀ c a, l = tAp c a → c.isArrowCon = false) : ∀ c a, l'.inst ts = tAp c a → c.isArrowCon = false := by
  intro c a hc
  rcases match'_shape hm hvar with ⟨d, rfl, rfl⟩ | ⟨f, b, f', b', w, rfl, rfl, hw⟩ | ⟨f, b, f', b', rfl, rfl⟩
  · cases hc
  · rw [Ty.inst] at hc
    obtain ⟨rfl, -⟩ := of_app_eq_tAp hc
    rcases match'_shape hw hpat.1 with ⟨d, rfl, rfl⟩ | ⟨g, e, g', e', x, rfl, rfl, -⟩ | ⟨g, e, g', e', rfl, rfl⟩
    · exact harrow _ _ rfl
    · rw [Ty.inst]
      exact app_not_con _ _
    · rfl
  · cases hc

/-- The same of the instantiated pattern. -/
theorem pattern_not_arrow {l : Ty} (ts : Subst) (hpat : l.Pattern) (hvar : ∀ v, l ≠ tVar v) (harrow : ∀ c a, l = tAp c a → c.isArrowCon = false) :
    ∀ c a, l.inst ts = tAp c a → c.isArrowCon = false := by
  intro c a hc
  cases l with
  | tVar v => exact absurd rfl (hvar v)
  | tAp f b =>
    rw [Ty.inst] at hc
    obtain ⟨rfl, -⟩ := of_app_eq_tAp hc
    cases f with
    | tVar v => exact absurd rfl (hpat.1 v)
    | tCon d => exact harrow (tCon d) b rfl
    | tAp g e =>
      rw [Ty.inst]
      exact app_not_con _ _
    | _ => rfl
  | _ => cases hc

theorem match'_stable {h p : Ty} {u : List (Name × Ty)} {ts : Subst} (hm : match' K h p = some u) (hpat : h.Pattern) (harrow : h.ArrowFree)
    (hts : ts.Good K) (hp : p.Mono) :
    (∃ u', match' K h (p.inst ts) = some u') ∧ faces h (p.inst ts) = (faces h p).map fun b => (b.1, b.2.inst ts) := by
  fun_induction match' K h p generalizing u with
  | case1 l r l' r' ihl ihr =>
    simp only [Option.bind_eq_bind, Option.bind_eq_some_iff, Option.pure_def, Option.some.injEq] at hm
    obtain ⟨sl, hsl, sr, hsr, rfl⟩ := hm
    obtain ⟨⟨ul, hul⟩, hfl⟩ := ihl hsl hpat.2.1 harrow.2.1 hp.1
    obtain ⟨⟨ur, hur⟩, hfr⟩ := ihr hsr hpat.2.2 harrow.2.2 hp.2
    rw [Ty.inst, app_eq_tAp (inst_not_arrow ts hsl hpat.2.1 hpat.1 harrow.1)]
    refine ⟨⟨ul ++ ur, by simp [match', hul, hur]⟩, ?_⟩
    rw [faces, hfl, hfr, faces, List.map_append]
  | case2 l r l' r' ihl ihr =>
    simp only [Option.bind_eq_bind, Option.bind_eq_some_iff, Option.pure_def, Option.some.injEq] at hm
    obtain ⟨sl, hsl, sr, hsr, rfl⟩ := hm
    obtain ⟨⟨ul, hul⟩, hfl⟩ := ihl hsl hpat.1 harrow.1 hp.1
    obtain ⟨⟨ur, hur⟩, hfr⟩ := ihr hsr hpat.2 harrow.2 hp.2
    refine ⟨⟨ul ++ ur, by simp [Ty.inst, match', hul, hur]⟩, ?_⟩
    rw [Ty.inst, faces, hfl, hfr, faces, List.map_append]
  | case3 w s hvar =>
    rw [isVar_iff] at hvar
    subst hvar
    refine ⟨?_, rfl⟩
    have hkind := getType_inst hts (t := tVar w) trivial
    rw [match'.eq_3]
    split_ifs with h1 h2
    · exact ⟨_, rfl⟩
    · exact ⟨_, rfl⟩
    · exact absurd hkind h2
  | case4 w s hvar hkind =>
    refine ⟨?_, rfl⟩
    have hkind' := getType_inst hts hp
    rw [match'.eq_3]
    split_ifs with h1 h2
    · exact ⟨_, rfl⟩
    · exact ⟨_, rfl⟩
    · exact absurd (hkind'.trans hkind) h2
  | case5 w s hvar hkind => cases hm
  | case6 tc => exact ⟨⟨[], by simp [Ty.inst, match']⟩, rfl⟩
  | case7 tc1 tc2 hne => cases hm
  | case8 => cases hm

theorem faces_names {h p : Ty} {u : List (Name × Ty)} (hm : match' K h p = some u) : (faces h p).map Prod.fst = h.tyvars := by
  fun_induction match' K h p generalizing u with
  | case1 l r l' r' ihl ihr =>
    simp only [Option.bind_eq_bind, Option.bind_eq_some_iff, Option.pure_def, Option.some.injEq] at hm
    obtain ⟨sl, hsl, sr, hsr, rfl⟩ := hm
    rw [faces, List.map_append, ihl hsl, ihr hsr, Ty.tyvars]
  | case2 l r l' r' ihl ihr =>
    simp only [Option.bind_eq_bind, Option.bind_eq_some_iff, Option.pure_def, Option.some.injEq] at hm
    obtain ⟨sl, hsl, sr, hsr, rfl⟩ := hm
    rw [faces, List.map_append, ihl hsl, ihr hsr, Ty.tyvars]
  | case3 w s hvar => rfl
  | case4 w s hvar hkind => rfl
  | case5 w s hvar hkind => cases hm
  | case6 tc => rfl
  | case7 tc1 tc2 hne => cases hm
  | case8 => cases hm

/-- Without a repeated variable there is one type opposite to each. -/
theorem faces_agree {h p : Ty} {u : List (Name × Ty)} (hm : match' K h p = some u) (hnodup : h.tyvars.Nodup) :
    ∀ v t1 t2, (v, t1) ∈ faces h p → (v, t2) ∈ faces h p → t1 = t2 := by
  intro v t1 t2 h1 h2
  rw [← faces_names hm] at hnodup
  exact congrArg Prod.snd (List.inj_on_of_nodup_map hnodup h1 h2 rfl)

/-- The instance declarations of the Haskell report, and some more: the head is a type in which no variable is
repeated or applied, and the context is about proper parts of it. -/
structure Inst.Regular (i : Inst) (c : Class) (t : Ty) : Prop where
  head : i.h = .isIn c t
  pattern : t.Pattern
  arrowFree : t.ArrowFree
  nodup : t.tyvars.Nodup
  parts : ∀ q ∈ i.ps, ∃ c' s, q = .isIn c' s ∧ s.Part t

theorem Inst.Regular.byInst_eq {i : Inst} {c : Class} {t t' : Ty} {qs : List Pred} (hi : i.Regular c t) (h : byInst K (.isIn c t') i = some qs) :
    ∃ u, match' K t t' = some u ∧ qs = i.ps.map (Pred.inst (fromBindings u)) := by
  obtain ⟨u, hm, rfl⟩ := Option.map_eq_some_iff.1 h
  rw [hi.head, matchPred, if_pos rfl] at hm
  exact ⟨u, hm, rfl⟩

theorem byInst_stable {i : Inst} {c : Class} {t t' : Ty} {qs : List Pred} {ts : Subst} (hi : i.Regular c t) (hts : ts.Good K) (hp : t'.Mono)
    (h : byInst K (.isIn c t') i = some qs) : byInst K (.isIn c (t'.inst ts)) i = some (qs.map (Pred.inst ts)) := by
  obtain ⟨u, hm, rfl⟩ := hi.byInst_eq h
  obtain ⟨⟨u', hm'⟩, hfaces⟩ := match'_stable hm hi.pattern hi.arrowFree hts hp
  rw [byInst, hi.head, matchPred, if_pos rfl, hm', Option.map_some, List.map_map]
  refine congrArg some (List.map_congr_left fun q hq => ?_)
  obtain ⟨c', s, rfl, hs⟩ := hi.parts q hq
  have hmono : s.Mono := Pattern.mono (Part.pattern hi.pattern hs)
  rw [Function.comp_apply, Pred.inst, Pred.inst, Pred.inst, inst_inst _ _ hmono]
  congr 1
  refine inst_congr hmono fun v hv => ?_
  have hmem : v ∈ (faces t t').map Prod.fst := by
    rw [faces_names hm]
    exact Part.tyvars hs hv
  obtain ⟨⟨w, r⟩, hface, rfl⟩ := List.mem_map.1 hmem
  have hface' : (w, r.inst ts) ∈ faces t (t'.inst ts) := by
    rw [hfaces]
    exact List.mem_map_of_mem hface
  have hbefore := fromBindings_faces hm (faces_agree hm hi.nodup) w r hface
  have hafter := fromBindings_faces hm' (faces_agree hm' hi.nodup) w (r.inst ts) hface'
  rw [hafter, Subst.after, Option.getD_some, hbefore]

/-- The head instantiated with the bindings is the predicate, also where the predicate is not known to keep the
invariant of `tAp`. -/
theorem inst_of_match {h p : Ty} {u : List (Name × Ty)} (ts : Subst) (hm : match' K h p = some u) (hpat : h.Pattern) (harrow : h.ArrowFree)
    (hts : ∀ v t, (v, t) ∈ faces h p → (ts v).getD (tVar v) = t) : h.inst ts = p := by
  fun_induction match' K h p generalizing u with
  | case1 l r l' r' ihl ihr =>
    simp only [Option.bind_eq_bind, Option.bind_eq_some_iff, Option.pure_def, Option.some.injEq] at hm
    obtain ⟨sl, hsl, sr, hsr, rfl⟩ := hm
    have hl := ihl hsl hpat.2.1 harrow.2.1 fun v t hvt => hts v t (List.mem_append_left _ hvt)
    have hr := ihr hsr hpat.2.2 harrow.2.2 fun v t hvt => hts v t (List.mem_append_right _ hvt)
    rw [Ty.inst, app_eq_tAp (pattern_not_arrow ts hpat.2.1 hpat.1 harrow.1), hl, hr]
  | case2 l r l' r' ihl ihr =>
    simp only [Option.bind_eq_bind, Option.bind_eq_some_iff, Option.pure_def, Option.some.injEq] at hm
    obtain ⟨sl, hsl, sr, hsr, rfl⟩ := hm
    rw [Ty.inst, ihl hsl hpat.1 harrow.1 fun v t hvt => hts v t (List.mem_append_left _ hvt),
      ihr hsr hpat.2 harrow.2 fun v t hvt => hts v t (List.mem_append_right _ hvt)]
  | case3 w s hvar => exact hts w s (List.mem_singleton.2 rfl)
  | case4 w s hvar hkind => exact hts w s (List.mem_singleton.2 rfl)
  | case5 w s hvar hkind => cases hm
  | case6 tc => rfl
  | case7 tc1 tc2 hne => cases hm
  | case8 => cases hm

end Jhc.FrontEnd.Representation

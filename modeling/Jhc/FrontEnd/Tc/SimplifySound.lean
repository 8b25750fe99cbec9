import Mathlib
import Jhc.FrontEnd.Tc.InstStable

/-!
# Simplified contexts

What `simplify` leaves entails what it was given, and none of it is entailed by the rest.
-/

namespace Jhc.FrontEnd.Representation

open Ty

variable {K : Kinds} {h : ClassHierarchy}

/-- At most one instance of a class matches a predicate, and the instance contexts entail the superclasses. -/
structure ClassHierarchy.Regular (K : Kinds) (h : ClassHierarchy) : Prop where
  insts : ∀ c, ∀ i ∈ h.instsOf c, ∃ t, i.Regular c t
  single : ∀ c t, ∀ i ∈ h.instsOf c, ∀ j ∈ h.instsOf c, (byInst K (.isIn c t) i).isSome → (byInst K (.isIn c t) j).isSome → i = j
  supers : ∀ c, ∀ i ∈ h.instsOf c, ∀ t, i.h = .isIn c t → ∀ c' ∈ h.supersOf c, ∃ n, entails K h n i.ps (.isIn c' t) = some true

/-! ### Superclasses -/

/-- A class and a superclass, over any number of steps. -/
abbrev ClassHierarchy.Above (h : ClassHierarchy) : Class → Class → Prop := Relation.ReflTransGen fun c c' => c' ∈ h.supersOf c

theorem mem_bySuperFrom (t : Ty) (n : ℕ) (c : Class) (hc : h.rank c ≤ n) (p : Pred) :
    p ∈ bySuperFrom h t n c ↔ ∃ c', h.Above c c' ∧ p = .isIn c' t := by
  induction n generalizing c with
  | zero =>
    rw [bySuperFrom, List.mem_singleton]
    constructor
    · exact fun hp => ⟨c, .refl, hp⟩
    · intro hp
      obtain ⟨c', habove, rfl⟩ := hp
      rcases habove.cases_head with rfl | ⟨d, hd, -⟩
      · rfl
      · have hrank := h.acyclic c d hd
        omega
  | succ n ih =>
    rw [bySuperFrom, List.mem_cons, List.mem_flatMap]
    constructor
    · intro hp
      rcases hp with rfl | ⟨d, hd, hp⟩
      · exact ⟨c, .refl, rfl⟩
      · have hrank := h.acyclic c d hd
        obtain ⟨c', habove, rfl⟩ := (ih d (by omega)).1 hp
        exact ⟨c', .head hd habove, rfl⟩
    · intro hp
      obtain ⟨c', habove, rfl⟩ := hp
      rcases habove.cases_head with rfl | ⟨d, hd, hrest⟩
      · exact .inl rfl
      · have hrank := h.acyclic c d hd
        exact .inr ⟨d, hd, (ih d (by omega)).2 ⟨c', hrest, rfl⟩⟩

theorem mem_bySuper {c : Class} {t : Ty} {p : Pred} : p ∈ bySuper h (.isIn c t) ↔ ∃ c', h.Above c c' ∧ p = .isIn c' t :=
  mem_bySuperFrom t (h.rank c) c le_rfl p

theorem bySuper_self (p : Pred) : p ∈ bySuper h p := by
  cases p with
  | isIn c t => exact mem_bySuper.2 ⟨c, .refl, rfl⟩
  | isEq t1 t2 => exact List.mem_singleton.2 rfl

theorem bySuper_trans {p q r : Pred} (hq : q ∈ bySuper h p) (hr : r ∈ bySuper h q) : r ∈ bySuper h p := by
  cases p with
  | isEq t1 t2 =>
    rw [List.mem_singleton.1 hq] at hr
    exact hr
  | isIn c t =>
    obtain ⟨c', hc', rfl⟩ := mem_bySuper.1 hq
    obtain ⟨d, hd, rfl⟩ := mem_bySuper.1 hr
    exact mem_bySuper.2 ⟨d, hc'.trans hd, rfl⟩

theorem bySuper_inst {p q : Pred} (ts : Subst) (hq : q ∈ bySuper h p) : q.inst ts ∈ bySuper h (p.inst ts) := by
  cases p with
  | isEq t1 t2 =>
    rw [List.mem_singleton.1 hq]
    exact List.mem_singleton.2 rfl
  | isIn c t =>
    obtain ⟨c', hc', rfl⟩ := mem_bySuper.1 hq
    exact mem_bySuper.2 ⟨c', hc', rfl⟩

/-! ### Derivations -/

/-- What is entailed, with no bound on the instances. -/
inductive Derives (K : Kinds) (h : ClassHierarchy) (ps : List Pred) : Pred → Prop
  | super {p q : Pred} (hq : q ∈ ps) (hp : p ∈ bySuper h q) (hmono : p.Mono) : Derives K h ps p
  | inst {p : Pred} {qs : List Pred} (hr : reducePred K h p = some qs) (hqs : ∀ q ∈ qs, Derives K h ps q) : Derives K h ps p

theorem allM_true {f : Pred → Option Bool} {qs : List Pred} : qs.allM f = some true ↔ ∀ q ∈ qs, f q = some true := by
  induction qs with
  | nil => simp [List.allM]
  | cons q qs ih =>
    rw [List.allM, List.forall_mem_cons, ← ih]
    cases hq : f q with
    | none => simp
    | some b => cases b <;> simp

theorem allM_total {f : Pred → Option Bool} {qs : List Pred} (hf : ∀ q ∈ qs, ∃ b, f q = some b) : ∃ b, qs.allM f = some b := by
  induction qs with
  | nil => exact ⟨true, rfl⟩
  | cons q qs ih =>
    obtain ⟨b, hb⟩ := hf q List.mem_cons_self
    obtain ⟨b', hb'⟩ := ih fun q hq => hf q (List.mem_cons_of_mem _ hq)
    cases b with
    | true => exact ⟨b', by simp [List.allM, hb, hb']⟩
    | false => exact ⟨false, by simp [List.allM, hb]⟩

theorem allM_mono {f g : Pred → Option Bool} (hfg : ∀ q b, f q = some b → g q = some b) {qs : List Pred} {b : Bool} (hb : qs.allM f = some b) :
    qs.allM g = some b := by
  induction qs with
  | nil => exact hb
  | cons q qs ih =>
    cases hq : f q with
    | none => simp [List.allM, hq] at hb
    | some b' =>
      cases b' with
      | true =>
        have hrest : qs.allM f = some b := by simpa [List.allM, hq] using hb
        simpa [List.allM, hfg q true hq] using ih hrest
      | false =>
        have hfalse : b = false := by simpa [List.allM, hq, eq_comm] using hb
        simp [List.allM, hfg q false hq, hfalse]

theorem superGiven_iff {ps : List Pred} {p : Pred} :
    (ps.flatMap (bySuper h)).any p.same = true ↔ ∃ q ∈ ps, p ∈ bySuper h q ∧ p.Mono := by
  rw [List.any_eq_true]
  constructor
  · intro hany
    obtain ⟨r, hr, hsame⟩ := hany
    obtain ⟨rfl, hmono⟩ := Pred.same_iff.1 hsame
    obtain ⟨q, hq, hp⟩ := List.mem_flatMap.1 hr
    exact ⟨q, hq, hp, hmono⟩
  · intro hsup
    obtain ⟨q, hq, hp, hmono⟩ := hsup
    exact ⟨p, List.mem_flatMap.2 ⟨q, hq, hp⟩, Pred.same_iff.2 ⟨rfl, hmono⟩⟩

theorem entails_succ {n : ℕ} {ps : List Pred} {p : Pred} {b : Bool} (hb : entails K h n ps p = some b) : entails K h (n + 1) ps p = some b := by
  induction n generalizing p b with
  | zero => cases hb
  | succ n ih =>
    rw [entails] at hb ⊢
    split_ifs at hb ⊢ with hany
    · exact hb
    · cases hr : reducePred K h p with
      | none =>
        rw [hr] at hb
        exact hb
      | some qs =>
        rw [hr] at hb
        exact allM_mono (fun q b hq => ih hq) hb

theorem entails_le {n m : ℕ} (hnm : n ≤ m) {ps : List Pred} {p : Pred} {b : Bool} (hb : entails K h n ps p = some b) :
    entails K h m ps p = some b := by
  induction m, hnm using Nat.le_induction with
  | base => exact hb
  | succ m _ ih => exact entails_succ ih

theorem derives_of_entails {n : ℕ} {ps : List Pred} {p : Pred} (he : entails K h n ps p = some true) : Derives K h ps p := by
  induction n generalizing p with
  | zero => cases he
  | succ n ih =>
    rw [entails] at he
    split_ifs at he with hany
    · obtain ⟨q, hq, hp, hmono⟩ := superGiven_iff.1 hany
      exact .super hq hp hmono
    · cases hr : reducePred K h p with
      | none =>
        rw [hr] at he
        cases he
      | some qs =>
        rw [hr] at he
        exact .inst hr fun q hq => ih (allM_true.1 he q hq)

theorem entails_of_derives {ps : List Pred} {p : Pred} (hd : Derives K h ps p) : ∃ n, entails K h n ps p = some true := by
  induction hd with
  | super hq hp hmono =>
    refine ⟨1, ?_⟩
    rw [entails, if_pos (superGiven_iff.2 ⟨_, hq, hp, hmono⟩)]
  | @inst p qs hr hqs ih =>
    have hbound : ∃ n, ∀ q ∈ qs, entails K h n ps q = some true := by
      clear hr hqs
      induction qs with
      | nil => exact ⟨0, fun q hq => absurd hq List.not_mem_nil⟩
      | cons q qs ihqs =>
        obtain ⟨n, hn⟩ := ih q List.mem_cons_self
        obtain ⟨m, hm⟩ := ihqs fun q hq => ih q (List.mem_cons_of_mem _ hq)
        refine ⟨max n m, ?_⟩
        rw [List.forall_mem_cons]
        exact ⟨entails_le (le_max_left n m) hn, fun q hq => entails_le (le_max_right n m) (hm q hq)⟩
    obtain ⟨n, hn⟩ := hbound
    refine ⟨n + 1, ?_⟩
    rw [entails]
    split_ifs with hany
    · rfl
    · rw [hr]
      exact allM_true.2 hn

theorem Derives.mono {ps ps' : List Pred} {p : Pred} (hsub : ps ⊆ ps') (hd : Derives K h ps p) : Derives K h ps' p := by
  induction hd with
  | super hq hp hmono => exact .super (hsub hq) hp hmono
  | inst hr hqs ih => exact .inst hr ih

/-! ### Regular instances -/

def Pred.size : Pred → ℕ
  | .isIn _ t => t.size
  | .isEq _ _ => 0

theorem reducePred_some (hreg : h.Regular K) {c : Class} {t : Ty} {qs : List Pred} :
    reducePred K h (.isIn c t) = some qs ↔ ∃ i ∈ h.instsOf c, byInst K (.isIn c t) i = some qs := by
  constructor
  · exact List.exists_of_findSome?_eq_some
  · intro hi
    obtain ⟨i, hi, hqs⟩ := hi
    cases hr : reducePred K h (.isIn c t) with
    | none =>
      rw [reducePred, List.findSome?_eq_none_iff] at hr
      rw [hr i hi] at hqs
      cases hqs
    | some rs =>
      obtain ⟨j, hj, hrs⟩ := List.exists_of_findSome?_eq_some hr
      obtain rfl := hreg.single c t i hi j hj (by rw [hqs]; rfl) (by rw [hrs]; rfl)
      rw [← hqs, hrs]

/-- The instance that a predicate is reduced by, and the bindings. -/
theorem reducePred_inst (hreg : h.Regular K) {c : Class} {t : Ty} {qs : List Pred} (hr : reducePred K h (.isIn c t) = some qs) (ht : t.Mono) :
    ∃ i ∈ h.instsOf c, ∃ s u, i.Regular c s ∧ Subst.Good K u ∧ s.inst u = t ∧ qs = i.ps.map (Pred.inst u) := by
  obtain ⟨i, hi, hqs⟩ := (reducePred_some hreg).1 hr
  obtain ⟨s, hs⟩ := hreg.insts c i hi
  obtain ⟨u, hm, rfl⟩ := hs.byInst_eq hqs
  refine ⟨i, hi, s, fromBindings u, hs, fromBindings_good hm ht, ?_, rfl⟩
  exact inst_of_match _ hm hs.pattern hs.arrowFree (fromBindings_faces hm (faces_agree hm hs.nodup))

theorem reducePred_parts (hreg : h.Regular K) {p : Pred} {qs : List Pred} (hr : reducePred K h p = some qs) (hp : p.Mono) :
    ∀ q ∈ qs, q.Mono ∧ q.size < p.size := by
  cases p with
  | isEq t1 t2 => cases hr
  | isIn c t =>
    obtain ⟨i, -, s, u, hs, hu, rfl, rfl⟩ := reducePred_inst hreg hr hp
    intro q hq
    obtain ⟨r, hr, rfl⟩ := List.mem_map.1 hq
    obtain ⟨c', s', rfl, hpart⟩ := hs.parts r hr
    exact ⟨mono_inst hu (Pattern.mono (Part.pattern hs.pattern hpart)), Part.size_inst u hpart⟩

theorem Derives.stable (hreg : h.Regular K) {ps : List Pred} {p : Pred} {ts : Subst} (hts : ts.Good K) (hd : Derives K h ps p) (hp : p.Mono) :
    Derives K h (ps.map (Pred.inst ts)) (p.inst ts) := by
  induction hd with
  | @super p q hq hsup hmono =>
    refine .super (List.mem_map_of_mem hq) (bySuper_inst ts hsup) ?_
    cases p with
    | isIn c t => exact mono_inst hts hmono
    | isEq t1 t2 => exact ⟨mono_inst hts hmono.1, mono_inst hts hmono.2⟩
  | @inst p qs hr hqs ih =>
    cases p with
    | isEq t1 t2 => cases hr
    | isIn c t =>
      obtain ⟨i, hi, hbyInst⟩ := (reducePred_some hreg).1 hr
      obtain ⟨s, hs⟩ := hreg.insts c i hi
      refine .inst ((reducePred_some hreg).2 ⟨i, hi, byInst_stable hs hts hp hbyInst⟩) ?_
      intro q hq
      obtain ⟨r, hr', rfl⟩ := List.mem_map.1 hq
      exact ih r hr' (reducePred_parts hreg hr hp r hr').1

/-- Predicates whose superclasses are all derived may stand for what they derive. -/
theorem Derives.cut {ps qs : List Pred} {p : Pred} (hqs : ∀ q ∈ qs, ∀ r ∈ bySuper h q, r.Mono → Derives K h ps r) (hd : Derives K h qs p) :
    Derives K h ps p := by
  induction hd with
  | super hq hp hmono => exact hqs _ hq _ hp hmono
  | inst hr hqs ih => exact .inst hr ih

/-- The superclasses of what is derived: by the instance contexts, which are about smaller types. -/
theorem derives_above (hreg : h.Regular K) {ps : List Pred} (n : ℕ) : ∀ {c : Class} {t : Ty}, t.size ≤ n → t.Mono →
    Derives K h ps (.isIn c t) → ∀ {c'}, h.Above c c' → Derives K h ps (.isIn c' t) := by
  induction n using Nat.strong_induction_on with
  | _ n ih =>
    intro c t hn ht hd c' habove
    induction habove with
    | refl => exact hd
    | @tail d d' _ hd' hstep =>
      cases hstep with
      | super hq hp hmono => exact .super hq (bySuper_trans hp (mem_bySuper.2 ⟨d', .single hd', rfl⟩)) hmono
      | @inst _ qs hr hqs =>
        obtain ⟨i, hi, s, u, hs, hu, rfl, rfl⟩ := reducePred_inst hreg hr ht
        obtain ⟨m, hm⟩ := hreg.supers d i hi s hs.head d' hd'
        have hmono : s.Mono := Pattern.mono hs.pattern
        have hctx : Derives K h (i.ps.map (Pred.inst u)) (.isIn d' (s.inst u)) := Derives.stable hreg hu (derives_of_entails hm) hmono
        refine hctx.cut fun q hq r hsup _ => ?_
        obtain ⟨hqmono, hsize⟩ := reducePred_parts hreg hr ht q hq
        cases q with
        | isEq t1 t2 =>
          rw [List.mem_singleton.1 hsup]
          exact hqs _ hq
        | isIn e t =>
          obtain ⟨e', habove', rfl⟩ := mem_bySuper.1 hsup
          exact ih _ (lt_of_lt_of_le hsize hn) le_rfl hqmono (hqs _ hq) habove'

theorem derives_bySuper (hreg : h.Regular K) {ps : List Pred} {p r : Pred} (hp : p.Mono) (hd : Derives K h ps p) (hr : r ∈ bySuper h p) :
    Derives K h ps r := by
  cases p with
  | isEq t1 t2 =>
    rw [List.mem_singleton.1 hr]
    exact hd
  | isIn c t =>
    obtain ⟨c', habove, rfl⟩ := mem_bySuper.1 hr
    exact derives_above hreg _ le_rfl hp hd habove

theorem entails_total (hreg : h.Regular K) {ps : List Pred} (n : ℕ) {p : Pred} (hp : p.Mono) (hn : p.size < n) :
    ∃ b, entails K h n ps p = some b := by
  induction n generalizing p with
  | zero => omega
  | succ n ih =>
    rw [entails]
    split_ifs with hany
    · exact ⟨true, rfl⟩
    · cases hr : reducePred K h p with
      | none => exact ⟨false, rfl⟩
      | some qs =>
        refine allM_total fun q hq => ?_
        obtain ⟨hqmono, hsize⟩ := reducePred_parts hreg hr hp q hq
        exact ih hqmono (by omega)

theorem entails_iff (hreg : h.Regular K) {ps : List Pred} {n : ℕ} {p : Pred} (hp : p.Mono) (hn : p.size < n) :
    entails K h n ps p = some true ↔ Derives K h ps p := by
  constructor
  · exact derives_of_entails
  · intro hd
    obtain ⟨m, hm⟩ := entails_of_derives hd
    obtain ⟨b, hb⟩ := entails_total hreg n hp hn
    have hle := entails_le (le_max_left n m) hb
    rw [entails_le (le_max_right n m) hm] at hle
    rw [hb, ← hle]

theorem entails_false_iff (hreg : h.Regular K) {ps : List Pred} {n : ℕ} {p : Pred} (hp : p.Mono) (hn : p.size < n) :
    entails K h n ps p = some false ↔ ¬ Derives K h ps p := by
  obtain ⟨b, hb⟩ := entails_total hreg n hp hn
  rw [← entails_iff hreg hp hn, hb]
  cases b <;> simp

/-! ### Simplification -/

/-- None of the predicates follows from the others and from `ps`. -/
def Irredundant (K : Kinds) (h : ClassHierarchy) (rs ps : List Pred) : Prop :=
  ∀ a r b, rs = a ++ r :: b → ¬ Derives K h (a ++ b ++ ps) r

theorem Irredundant.drop {rs ps : List Pred} {p : Pred} (hi : Irredundant K h rs (p :: ps)) : Irredundant K h rs ps := by
  intro a r b hrs hd
  exact hi a r b hrs (hd.mono (List.append_subset.2 ⟨List.subset_append_left _ _,
    List.subset_append_of_subset_right _ (List.subset_cons_self p ps)⟩))

theorem Irredundant.keep {rs ps : List Pred} {p : Pred} (hi : Irredundant K h rs (p :: ps)) (hp : ¬ Derives K h (rs ++ ps) p) :
    Irredundant K h (p :: rs) ps := by
  intro a r b hrs hd
  cases a with
  | nil =>
    obtain ⟨rfl, rfl⟩ := List.cons.inj hrs
    exact hp hd
  | cons q a =>
    obtain ⟨rfl, rfl⟩ := List.cons.inj hrs
    refine hi a r b rfl (hd.mono ?_)
    intro x hx
    simp only [List.cons_append, List.mem_cons, List.mem_append] at hx ⊢
    tauto

theorem simplifyLoop_spec (hreg : h.Regular K) (n : ℕ) (ps rs : List Pred) (hmono : ∀ p ∈ rs ++ ps, p.Mono) (hn : ∀ p ∈ rs ++ ps, p.size < n)
    (hirr : Irredundant K h rs ps) : ∃ out, simplifyLoop K h n rs ps = some out ∧ (∃ l, l.Sublist ps ∧ out.Perm (l ++ rs)) ∧
      (∀ p ∈ rs ++ ps, Derives K h out p) ∧ Irredundant K h out [] := by
  induction ps generalizing rs with
  | nil =>
    refine ⟨rs, rfl, ⟨[], .slnil, .refl rs⟩, ?_, hirr⟩
    rw [List.append_nil] at hmono ⊢
    exact fun p hp => .super hp (bySuper_self p) (hmono p hp)
  | cons p ps ih =>
    have hp : p ∈ rs ++ p :: ps := List.mem_append_right _ List.mem_cons_self
    have hsub : ∀ q ∈ rs ++ ps, q ∈ rs ++ p :: ps := by
      intro q hq
      exact (List.mem_append.1 hq).elim (List.mem_append_left _) fun hq => List.mem_append_right _ (List.mem_cons_of_mem p hq)
    have htotal : ∃ b, entails K h n (rs ++ ps) p = some b := entails_total hreg n (hmono p hp) (hn p hp)
    obtain ⟨b, hb⟩ := htotal
    cases b with
    | true =>
      obtain ⟨out, hout, ⟨l, hl, hperm⟩, hall, hirr'⟩ := ih rs (fun q hq => hmono q (hsub q hq)) (fun q hq => hn q (hsub q hq)) hirr.drop
      refine ⟨out, ?_, ⟨l, hl.cons p, hperm⟩, ?_, hirr'⟩
      · simp [simplifyLoop, hb, hout]
      · intro q hq
        have hcut : ∀ r ∈ rs ++ ps, ∀ x ∈ bySuper h r, x.Mono → Derives K h out x :=
          fun r hr x hx _ => derives_bySuper hreg (hmono r (hsub r hr)) (hall r hr) hx
        rcases List.mem_append.1 hq with hq | hq
        · exact hall q (List.mem_append_left _ hq)
        · rcases List.mem_cons.1 hq with rfl | hq
          · exact (derives_of_entails hb).cut hcut
          · exact hall q (List.mem_append_right _ hq)
    | false =>
      have hnot := (entails_false_iff hreg (hmono p hp) (hn p hp)).1 hb
      have hperm' : ∀ q, q ∈ (p :: rs) ++ ps → q ∈ rs ++ p :: ps := by
        intro q hq
        simp only [List.cons_append, List.mem_cons, List.mem_append] at hq ⊢
        tauto
      obtain ⟨out, hout, ⟨l, hl, hperm⟩, hall, hirr'⟩ := ih (p :: rs) (fun q hq => hmono q (hperm' q hq)) (fun q hq => hn q (hperm' q hq))
        (hirr.keep hnot)
      refine ⟨out, ?_, ⟨p :: l, hl.cons₂ p, hperm.trans List.perm_middle⟩, ?_, hirr'⟩
      · simp [simplifyLoop, hb, hout]
      · intro q hq
        refine hall q ?_
        simp only [List.cons_append, List.mem_cons, List.mem_append] at hq ⊢
        tauto

/-- What is left is some of the predicates, in another order; it entails all of them, and none of it is entailed
by the others. -/
theorem simplify_sound (hreg : h.Regular K) (ps : List Pred) (hps : ∀ p ∈ ps, p.Mono) (n : ℕ) (hn : ∀ p ∈ ps, p.size < n) :
    ∃ rs, simplify K h n ps = some rs ∧ (∃ l, l.Sublist ps ∧ rs.Perm l) ∧ (∀ p ∈ ps, entails K h n rs p = some true) ∧
      (∀ a r b, rs = a ++ r :: b → entails K h n (a ++ b) r = some false) := by
  have hirr : Irredundant K h [] ps := by
    intro a r b hrs
    simp at hrs
  obtain ⟨rs, hrs, ⟨l, hl, hperm⟩, hall, hirr'⟩ := simplifyLoop_spec hreg n ps [] hps hn hirr
  rw [List.append_nil] at hperm
  refine ⟨rs, hrs, ⟨l, hl, hperm⟩, fun p hp => (entails_iff hreg (hps p hp) (hn p hp)).2 (hall p hp), ?_⟩
  intro a r b hab
  have hr : r ∈ ps := hl.subset (hperm.subset (by rw [hab]; simp))
  refine (entails_false_iff hreg (hps r hr) (hn r hr)).2 ?_
  have hnot := hirr' a r b hab
  rwa [List.append_nil] at hnot

/-! ### Two hierarchies -/

def listOf (t : Ty) : Ty := tAp (tCon ⟨"List", .kfun kindStar kindStar⟩) t

/-- `instance c a => c [a]`. -/
def listInst (c : Class) : Inst := ⟨[.isIn c (tVar "a")], .isIn c (listOf (tVar "a"))⟩

/-- `class Eq a`, `class Eq a => Ord a`, with these instances of `Eq` and the one for lists of `Ord`. -/
def eqOrd (eqInsts : List Inst) : ClassHierarchy where
  supersOf c := if c = "Ord" then ["Eq"] else []
  instsOf c := if c = "Eq" then eqInsts else if c = "Ord" then [listInst "Ord"] else []
  rank c := if c = "Ord" then 1 else 0
  acyclic := by
    intro c c' hc'
    by_cases hc : c = "Ord"
    · rw [if_pos hc] at hc' ⊢
      rw [List.mem_singleton.1 hc']
      decide
    · rw [if_neg hc] at hc'
      cases hc'

theorem listInst_regular (c : Class) : (listInst c).Regular c (listOf (tVar "a")) where
  head := rfl
  pattern := ⟨fun v => Ty.noConfusion, trivial, trivial⟩
  arrowFree := ⟨fun c a hc => (Ty.noConfusion hc), trivial, trivial⟩
  nodup := by decide
  parts := by
    intro q hq
    exact ⟨c, tVar "a", List.mem_singleton.1 hq, .inr (.inl rfl)⟩

theorem eqOrd_regular : (eqOrd [listInst "Eq"]).Regular starKinds where
  insts := by
    intro c i hi
    simp only [eqOrd] at hi
    split_ifs at hi with h1 h2
    · rw [List.mem_singleton.1 hi, h1]
      exact ⟨_, listInst_regular "Eq"⟩
    · rw [List.mem_singleton.1 hi, h2]
      exact ⟨_, listInst_regular "Ord"⟩
    · cases hi
  single := by
    intro c t i hi j hj _ _
    simp only [eqOrd] at hi hj
    split_ifs at hi hj
    · rw [List.mem_singleton.1 hi, List.mem_singleton.1 hj]
    · rw [List.mem_singleton.1 hi, List.mem_singleton.1 hj]
    · cases hi
  supers := by
    intro c i hi t ht c' hc'
    simp only [eqOrd] at hc'
    split_ifs at hc' with h
    · subst h
      obtain rfl := List.mem_singleton.1 hi
      obtain ⟨-, rfl⟩ := Pred.isIn.inj ht
      rw [List.mem_singleton.1 hc']
      exact ⟨2, rfl⟩
    · cases hc'

theorem simplify_lists : ∃ rs, simplify starKinds (eqOrd [listInst "Eq"]) 9 [.isIn "Eq" (listOf (tVar "b")), .isIn "Ord" (tVar "b")] = some rs ∧
    (∃ l, l.Sublist [.isIn "Eq" (listOf (tVar "b")), .isIn "Ord" (tVar "b")] ∧ rs.Perm l) ∧
    (∀ p ∈ [.isIn "Eq" (listOf (tVar "b")), .isIn "Ord" (tVar "b")], entails starKinds (eqOrd [listInst "Eq"]) 9 rs p = some true) ∧
    (∀ a r b, rs = a ++ r :: b → entails starKinds (eqOrd [listInst "Eq"]) 9 (a ++ b) r = some false) :=
  simplify_sound eqOrd_regular _ (by simp [Pred.Mono, Ty.Mono, listOf]) 9 (by simp [Pred.size, Ty.size, listOf])

/-- Another instance for the lists of one type, with a context of its own. -/
def charInst : Inst := ⟨[.isIn "Show" (tCon ⟨"Char", kindStar⟩)], .isIn "Eq" (listOf (tCon ⟨"Char", kindStar⟩))⟩

def charPreds : List Pred :=
  [.isIn "Eq" (listOf (tCon ⟨"Char", kindStar⟩)), .isIn "Ord" (listOf (tCon ⟨"Char", kindStar⟩)), .isIn "Ord" (tCon ⟨"Char", kindStar⟩)]

/-- The contexts entail the superclasses, but of two instances that match, the one that is used does not follow: `Eq [Char]`
is dropped for `Ord [Char]`, and that for `Ord Char`, which does not entail it. -/
theorem simplify_overlapping :
    (∀ c, ∀ i ∈ (eqOrd [charInst, listInst "Eq"]).instsOf c, ∀ t, i.h = .isIn c t → ∀ c' ∈ (eqOrd [charInst, listInst "Eq"]).supersOf c,
      ∃ n, entails starKinds (eqOrd [charInst, listInst "Eq"]) n i.ps (.isIn c' t) = some true) ∧
    simplify starKinds (eqOrd [charInst, listInst "Eq"]) 9 charPreds = some [.isIn "Ord" (tCon ⟨"Char", kindStar⟩)] ∧
    entails starKinds (eqOrd [charInst, listInst "Eq"]) 9 [.isIn "Ord" (tCon ⟨"Char", kindStar⟩)]
      (.isIn "Eq" (listOf (tCon ⟨"Char", kindStar⟩))) = some false := by
  refine ⟨?_, rfl, rfl⟩
  intro c i hi t ht c' hc'
  simp only [eqOrd] at hc'
  split_ifs at hc' with h
  · subst h
    obtain rfl := List.mem_singleton.1 hi
    obtain ⟨-, rfl⟩ := Pred.isIn.inj ht
    rw [List.mem_singleton.1 hc']
    exact ⟨2, rfl⟩
  · cases hc'

end Jhc.FrontEnd.Representation

import Jhc.E.RenameAlpha

/-!
# Renamed terms differ in the names of their binders only
-/

namespace Jhc.E
open Jhc.FrontEnd.Exports (Name)
open Jhc.Nameless

namespace Rename

variable {im : IdMap} {st : Names} {Γ Γ' ys : List Id}

/-! ### Under the binders -/

theorem ntvr_body (h : Covers im st) (ralways : Bool) (t : TVr)
    (hk : Known im st (ys.filter (· ≠ t.tvrIdent))) :
    Covers ((ntvr ralways im t st).1.1.mappend im) (ntvr ralways im t st).2 ∧
    Known ((ntvr ralways im t st).1.1.mappend im) (ntvr ralways im t st).2 ys ∧
    ∀ Γ Γ', Agree (t.tvrIdent :: Γ) ((ntvr ralways im t st).1.2.tvrIdent :: Γ')
      ((ntvr ralways im t st).1.1.mappend im) ys ↔ Agree Γ Γ' im (ys.filter (· ≠ t.tvrIdent)) := by
  have hg := ntvr_group h.ofVars ralways t st
  have ha := ntvr_adds h.ofVars ralways t st
  rw [← filter_singleton] at hk
  rw [ntvr_under,← filter_singleton]
  exact ⟨hg.covers (h.mono ha), hg.known (hk.mono ha), fun Γ Γ' => hg.agree h hk⟩

theorem ntvrs_body (h : Covers im st) (ts : List TVr)
    (hk : Known im st (ys.filter (· ∉ idents ts))) :
    Covers ((IdMap.mconcat ((ntvrs im ts st).1.map Prod.fst)).mappend im) (ntvrs im ts st).2 ∧
    Known ((IdMap.mconcat ((ntvrs im ts st).1.map Prod.fst)).mappend im) (ntvrs im ts st).2 ys ∧
    ∀ Γ Γ', Agree (idents ts ++ Γ) (idents ((ntvrs im ts st).1.map Prod.snd) ++ Γ')
      ((IdMap.mconcat ((ntvrs im ts st).1.map Prod.fst)).mappend im) ys ↔
        Agree Γ Γ' im (ys.filter (· ∉ idents ts)) := by
  have hg := ntvrs_group h.ofVars ts st
  have ha := ntvrs_adds h.ofVars ts st
  rw [ntvrs_entries]
  exact ⟨hg.covers (h.mono ha), hg.known (hk.mono ha), fun Γ Γ' => hg.agree h hk⟩

/-! ### Statements by the kind of syntax -/

/-- The renamed term is the term, up to binders, exactly when its free names agree and its patterns
keep theirs. -/
def Faithful (e : E) : Prop :=
  ∀ (im : IdMap) (st : Names) (Γ Γ' : List Id), Covers im st → Known im st (free e) →
    (nameless Γ' (f im e st).1 = nameless Γ e ↔ Agree Γ Γ' im (free e) ∧ Kept im e st)

def FaithfulVar (t : TVr) : Prop :=
  ∀ (ralways : Bool) (im : IdMap) (st : Names) (Γ Γ' : List Id), Covers im st →
    Known im st (freeVar t) →
    (namelessVar Γ' (ntvr ralways im t st).1.2 = namelessVar Γ t ↔
      Agree Γ Γ' im (freeVar t) ∧ KeptVar ralways im t st)

theorem faithful_ap {a b : E} (ha : Faithful a) (hb : Faithful b) : Faithful (.eAp a b) := by
  intro im st Γ Γ' h hk
  obtain ⟨hka, hkb⟩ := known_append.mp hk
  have hadd := f_adds h.ofVars a st
  refine node_two.trans ?_
  rw [ha im st Γ Γ' h hka,hb im _ Γ Γ' (h.mono hadd) (hkb.mono hadd),free,agree_append]
  exact and_and_and_comm

theorem faithful_binder {t : TVr} {e : E} (ht : FaithfulVar t) (he : Faithful e) (l : Label)
    (h : Covers im st) (hk : Known im st (freeVar t ++ (free e).filter (· ≠ t.tvrIdent))) :
    Skeleton.node l [namelessVar Γ' (ntvr true im t st).1.2,
        nameless ((ntvr true im t st).1.2.tvrIdent :: Γ')
          (f ((ntvr true im t st).1.1.mappend im) e (ntvr true im t st).2).1] =
      .node l [namelessVar Γ t, nameless (t.tvrIdent :: Γ) e] ↔
    Agree Γ Γ' im (freeVar t ++ (free e).filter (· ≠ t.tvrIdent)) ∧ KeptVar true im t st ∧
      Kept ((ntvr true im t st).1.1.mappend im) e (ntvr true im t st).2 := by
  obtain ⟨hkt, hke⟩ := known_append.mp hk
  obtain ⟨hc, hkn, hagree⟩ := ntvr_body h true t hke
  rw [node_two,ht true im st Γ Γ' h hkt,he _ _ _ _ hc hkn,hagree Γ Γ',agree_append]
  exact and_and_and_comm

theorem faithful_var (t : TVr) : Faithful (.eVar t) := by
  intro im st Γ Γ' h hk
  have himg : nameless Γ' ((im t.tvrIdent).getD (.eVar t)) = .var (ref Γ' (image im t.tvrIdent)) := by
    cases hi : im t.tvrIdent with
    | none =>
      rw [image_of_none hi]
      rfl
    | some v =>
      obtain ⟨u, rfl, _⟩ := h.vars _ v hi
      rw [image_of_some hi]
      rfl
  change nameless Γ' ((im t.tvrIdent).getD (.eVar t)) = .var (ref Γ t.tvrIdent) ↔
    Agree Γ Γ' im [t.tvrIdent] ∧ True
  rw [himg,and_true,Skeleton.var.injEq]
  simp only [Agree,Agrees,List.mem_singleton,forall_eq]

/-! ### Patterns -/

/-- After a variable of a pattern is named, its old name is bound. -/
theorem pick_known {n : Id} (hn : n ≠ .emptyId) (st : Names) : n ∈ (pick false n st).2.bound := by
  have hp : pick false n st = uniqueName n st := by
    unfold pick
    rw [if_neg hn]
    rfl
  have hc := (uniqueName_chosen n st).bound
  rw [hp,hc,Finset.mem_insert]
  by_cases h : n ∈ st.bound
  · exact Or.inr h
  · exact Or.inl ((uniqueName_eq_iff n st).mpr h).symm

theorem image_eq_pick (h : Covers im st) (n : Id) :
    image im n = (pick false n st).1 ↔ n = .emptyId ∨ im n = none ∧ n ∉ st.bound := by
  by_cases hn : n = .emptyId
  · subst hn
    rw [image_emptyId h]
    exact ⟨fun _ => Or.inl rfl, fun _ => rfl⟩
  · have hf := pick_fresh st false hn
    cases hi : im n with
    | some v =>
      obtain ⟨t, rfl, hb, _⟩ := h.vars n v hi
      rw [image_of_some hi]
      constructor
      · intro he
        exact absurd (he ▸ hb) hf
      · intro he
        rcases he with he | ⟨he, _⟩
        · exact absurd he hn
        · cases he
    | none =>
      have hp : pick false n st = uniqueName n st := by
        unfold pick
        rw [if_neg hn]
        rfl
      rw [image_of_none hi,hp,eq_comm,uniqueName_eq_iff]
      exact ⟨fun hb => Or.inr ⟨rfl, hb⟩, fun ho => (ho.resolve_left hn).2⟩

/-- The names in the types of the later variables of a pattern. -/
theorem agree_pattern (h : Covers im st) (t : TVr)
    (hk : Known im st (ys.filter (· ≠ t.tvrIdent))) :
    Agree (t.tvrIdent :: Γ) ((ntvr false im t st).1.2.tvrIdent :: Γ') im ys ↔
      Agree Γ Γ' im (ys.filter (· ≠ t.tvrIdent)) ∧
        (t.tvrIdent ∈ ys → t.tvrIdent = .emptyId ∨ im t.tvrIdent = none ∧ t.tvrIdent ∉ st.bound) := by
  have hone : ∀ y ∈ ys, Agrees (t.tvrIdent :: Γ) ((ntvr false im t st).1.2.tvrIdent :: Γ')
      (image im) y ↔ if y = t.tvrIdent then image im y = (ntvr false im t st).1.2.tvrIdent
        else Agrees Γ Γ' (image im) y := by
    intro y hy
    refine agrees_push fun hne => ?_
    have hky := hk y (List.mem_filter.mpr ⟨hy, decide_eq_true hne⟩)
    refine image_ne h hky ?_ hne
    exact (ntvr_renames false im t st).imp id And.right
  rw [← image_eq_pick h,← ntvr_ident false im]
  unfold Agree
  constructor
  · intro ha
    constructor
    · intro y hy
      obtain ⟨hy, hne⟩ := List.mem_filter.mp hy
      have hay := (hone y hy).mp (ha y hy)
      rwa [if_neg (of_decide_eq_true hne)] at hay
    · intro ht
      have hat := (hone _ ht).mp (ha _ ht)
      rwa [if_pos rfl] at hat
  · intro ha y hy
    rw [hone y hy]
    by_cases hyt : y = t.tvrIdent
    · rw [if_pos hyt,hyt]
      exact ha.2 (hyt ▸ hy)
    · rw [if_neg hyt]
      exact ha.1 y (List.mem_filter.mpr ⟨hy, decide_eq_true hyt⟩)

theorem known_pattern {t : TVr} (hv : OfVars im) (hk : Known im st (ys.filter (· ≠ t.tvrIdent))) :
    Known im (ntvr false im t st).2 ys := by
  have ha := ntvr_adds hv false t st
  intro y hy hne hn
  by_cases hyt : y = t.tvrIdent
  · cases t with
    | mk n u =>
      rw [ntvr_run]
      subst hyt
      exact (f_adds hv u _).mono (pick_known hne st)
  · exact ha.mono (hk y (List.mem_filter.mpr ⟨hy, decide_eq_true hyt⟩) hne hn)

/-! ### Every term -/

mutual

theorem faithful : (e : E) → Faithful e
  | .eAp a b => faithful_ap (faithful a) (faithful b)
  | .eLit n xs t => by
      intro im st Γ Γ' h hk
      obtain ⟨hkx, hkt⟩ := known_append.mp hk
      have hadd := fs_adds h.ofVars xs st
      refine node_two.trans ?_
      rw [group_inj,faithful_args xs im st Γ Γ' h hkx,
        faithful t im _ Γ Γ' (h.mono hadd) (hkt.mono hadd),free,agree_append]
      exact and_and_and_comm
  | .eLitInt n t => by
      intro im st Γ Γ' h hk
      exact node_one.trans (faithful t im st Γ Γ' h hk)
  | .eError s t => by
      intro im st Γ Γ' h hk
      exact node_one.trans (faithful t im st Γ Γ' h hk)
  | .ePrim p es t => by
      intro im st Γ Γ' h hk
      obtain ⟨hkx, hkt⟩ := known_append.mp hk
      have hadd := fs_adds h.ofVars es st
      refine node_two.trans ?_
      rw [group_inj,faithful_args es im st Γ Γ' h hkx,
        faithful t im _ Γ Γ' (h.mono hadd) (hkt.mono hadd),free,agree_append]
      exact and_and_and_comm
  | .eLam t e => by
      intro im st Γ Γ' h hk
      exact faithful_binder (faithful_bound t) (faithful e) .lam h hk
  | .ePi t e => by
      intro im st Γ Γ' h hk
      exact faithful_binder (faithful_bound t) (faithful e) .pi h hk
  | .eVar t => faithful_var t
  | .eSort s => by
      intro im st Γ Γ' h hk
      exact ⟨fun _ => ⟨fun y hy => absurd hy List.not_mem_nil, trivial⟩, fun _ => rfl⟩
  | .unknown => by
      intro im st Γ Γ' h hk
      exact ⟨fun _ => ⟨fun y hy => absurd hy List.not_mem_nil, trivial⟩, fun _ => rfl⟩
  | .eCase e t b as d => by
      intro im st Γ Γ' h hk
      rw [free,known_append,known_append,known_append] at hk
      obtain ⟨⟨⟨hke, hkt⟩, hkb⟩, hks⟩ := hk
      have hae := f_adds h.ofVars e st
      have hat : st.Adds (atCase im e t b as st) _ :=
        (hae.trans (f_adds h.ofVars t _)).addNames (idents (caseBinds b as))
      obtain ⟨hc, hkn, hagree⟩ := ntvr_body (h.mono hat) false b (hks.mono hat)
      obtain ⟨hkas, hkd⟩ := known_append.mp hkn
      have haa := das_adds hc.ofVars as (ntvr false im b (atCase im e t b as st)).2
      refine node_five.trans ?_
      rw [← atCase,group_inj,group_inj,faithful e im st Γ Γ' h hke,
        faithful t im _ Γ Γ' (h.mono hae) (hkt.mono hae),
        faithful_bound b false im _ Γ Γ' (h.mono hat) (hkb.mono hat),
        faithful_alts as _ _ _ _ hc hkas,
        faithful_default d _ _ _ _ (hc.mono haa) (hkd.mono haa),free,agree_append,agree_append,
        agree_append,← hagree Γ Γ',agree_append]
      constructor
      · intro ha
        obtain ⟨⟨he, he'⟩, ⟨ht, ht'⟩, ⟨hb, hb'⟩, ⟨ha, ha'⟩, hd, hd'⟩ := ha
        exact ⟨⟨⟨⟨he, ht⟩, hb⟩, ha, hd⟩, he', ht', hb', ha', hd'⟩
      · intro ha
        obtain ⟨⟨⟨⟨he, ht⟩, hb⟩, ha, hd⟩, he', ht', hb', ha', hd'⟩ := ha
        exact ⟨⟨he, he'⟩, ⟨ht, ht'⟩, ⟨hb, hb'⟩, ⟨ha, ha'⟩, hd, hd'⟩
  | .eLetRec ds e => by
      intro im st Γ Γ' h hk
      obtain ⟨hkb, hks⟩ := known_append.mp hk
      have hat : st.Adds (atLetRec ds st) [] := (Names.Adds.refl st).addNames _
      have hbody := ntvrs_body (h.mono hat) (ds.map Def.var) (hks.mono hat)
      rw [← ntvrDefs_eq,← inLetRec] at hbody
      obtain ⟨hc, hkn, hagree⟩ := hbody
      obtain ⟨hkr, hke⟩ := known_append.mp hkn
      have har := fRhss_adds hc.ofVars ds (ntvrDefs im ds (atLetRec ds st)).2
      have hlen := (ntvrDefs_length im ds (atLetRec ds st)).trans
        (fRhss_length (inLetRec im ds st) ds (ntvrDefs im ds (atLetRec ds st)).2).symm
      change nameless Γ' (.eLetRec (List.zipWith Def.mk
        ((ntvrDefs im ds (atLetRec ds st)).1.map Prod.snd)
        (fRhss (inLetRec im ds st) ds (ntvrDefs im ds (atLetRec ds st)).2).1)
        (f (inLetRec im ds st) e
          (fRhss (inLetRec im ds st) ds (ntvrDefs im ds (atLetRec ds st)).2).2).1) = _ ↔ _
      rw [nameless_letrec hlen,nameless,node_three,group_inj,group_inj,
        faithful_binders ds im _ Γ Γ' (h.mono hat) (hkb.mono hat),
        faithful_rhss ds _ _ _ _ hc hkr,faithful e _ _ _ _ (hc.mono har) (hke.mono har),
        free,agree_append,← hagree Γ Γ',agree_append]
      constructor
      · intro ha
        obtain ⟨⟨hb, hb'⟩, ⟨hr, hr'⟩, he, he'⟩ := ha
        exact ⟨⟨hb, hr, he⟩, hb', hr', he'⟩
      · intro ha
        obtain ⟨⟨hb, hr, he⟩, hb', hr', he'⟩ := ha
        exact ⟨⟨hb, hb'⟩, ⟨hr, hr'⟩, he, he'⟩

theorem faithful_bound : (t : TVr) → FaithfulVar t
  | .mk n t => by
      intro ralways im st Γ Γ' h hk
      have hadd := pick_adds st ralways n
      rw [ntvr_run]
      exact faithful t im (pick ralways n st).2 Γ Γ' (h.mono hadd) (hk.mono hadd)

theorem faithful_args : (es : List E) → ∀ (im : IdMap) (st : Names) (Γ Γ' : List Id),
    Covers im st → Known im st (freeArgs es) →
    (namelessArgs Γ' (fs im es st).1 = namelessArgs Γ es ↔
      Agree Γ Γ' im (freeArgs es) ∧ KeptArgs im es st)
  | [] => by
      intro im st Γ Γ' h hk
      exact ⟨fun _ => ⟨fun y hy => absurd hy List.not_mem_nil, trivial⟩, fun _ => rfl⟩
  | e :: es => by
      intro im st Γ Γ' h hk
      obtain ⟨hke, hks⟩ := known_append.mp hk
      have hadd := f_adds h.ofVars e st
      refine (List.cons_eq_cons).trans ?_
      rw [faithful e im st Γ Γ' h hke,
        faithful_args es im _ Γ Γ' (h.mono hadd) (hks.mono hadd),freeArgs,agree_append]
      exact and_and_and_comm

theorem faithful_binders : (ds : List Def) → ∀ (im : IdMap) (st : Names) (Γ Γ' : List Id),
    Covers im st → Known im st (freeBinders ds) →
    (((ntvrDefs im ds st).1.map Prod.snd).map (namelessVar Γ') = namelessBinders Γ ds ↔
      Agree Γ Γ' im (freeBinders ds) ∧ KeptBinders im ds st)
  | [] => by
      intro im st Γ Γ' h hk
      exact ⟨fun _ => ⟨fun y hy => absurd hy List.not_mem_nil, trivial⟩, fun _ => rfl⟩
  | .mk t _ :: ds => by
      intro im st Γ Γ' h hk
      obtain ⟨hkt, hks⟩ := known_append.mp hk
      have hadd := ntvr_adds h.ofVars false t st
      refine (List.cons_eq_cons).trans ?_
      rw [freeBinders,agree_append]
      have ht := faithful_bound t false im st Γ Γ' h hkt
      have hds := faithful_binders ds im _ Γ Γ' (h.mono hadd) (hks.mono hadd)
      exact (and_congr ht hds).trans and_and_and_comm

theorem faithful_rhss : (ds : List Def) → ∀ (im : IdMap) (st : Names) (Γ Γ' : List Id),
    Covers im st → Known im st (freeRhss ds) →
    (namelessArgs Γ' (fRhss im ds st).1 = namelessRhss Γ ds ↔
      Agree Γ Γ' im (freeRhss ds) ∧ KeptRhss im ds st)
  | [] => by
      intro im st Γ Γ' h hk
      exact ⟨fun _ => ⟨fun y hy => absurd hy List.not_mem_nil, trivial⟩, fun _ => rfl⟩
  | .mk _ e :: ds => by
      intro im st Γ Γ' h hk
      obtain ⟨hke, hks⟩ := known_append.mp hk
      have hadd := f_adds h.ofVars e st
      refine (List.cons_eq_cons).trans ?_
      rw [freeRhss,agree_append]
      have he := faithful e im st Γ Γ' h hke
      have hds := faithful_rhss ds im _ Γ Γ' (h.mono hadd) (hks.mono hadd)
      exact (and_congr he hds).trans and_and_and_comm

theorem faithful_pattern : (ts : List TVr) → ∀ (im : IdMap) (st : Names) (Γ Γ' : List Id),
    Covers im st → Known im st (freePattern ts) →
    (namelessPattern Γ' ((ntvrs im ts st).1.map Prod.snd) = namelessPattern Γ ts ↔
      Agree Γ Γ' im (freePattern ts) ∧ KeptPattern im ts st)
  | [] => by
      intro im st Γ Γ' h hk
      exact ⟨fun _ => ⟨fun y hy => absurd hy List.not_mem_nil, trivial⟩, fun _ => rfl⟩
  | t :: ts => by
      intro im st Γ Γ' h hk
      obtain ⟨hkt, hks⟩ := known_append.mp hk
      have hadd := ntvr_adds h.ofVars false t st
      have ht := faithful_bound t false im st Γ Γ' h hkt
      have hts := faithful_pattern ts im _ (t.tvrIdent :: Γ)
        ((ntvr false im t st).1.2.tvrIdent :: Γ') (h.mono hadd) (known_pattern h.ofVars hks)
      rw [agree_pattern h t hks] at hts
      refine (List.cons_eq_cons).trans ((and_congr ht hts).trans ?_)
      rw [freePattern,agree_append,KeptPattern,and_assoc (c := KeptPattern im ts _)]
      exact and_and_and_comm

theorem faithful_alt : (a : Alt) → ∀ (im : IdMap) (st : Names) (Γ Γ' : List Id),
    Covers im st → Known im st (freeAlt a) →
    (namelessAlt Γ' (da im a st).1 = namelessAlt Γ a ↔
      Agree Γ Γ' im (freeAlt a) ∧ KeptAlt im a st)
  | .litInt n t l => by
      intro im st Γ Γ' h hk
      obtain ⟨hkt, hkl⟩ := known_append.mp hk
      have hadd := f_adds h.ofVars t st
      refine node_two.trans ?_
      rw [faithful t im st Γ Γ' h hkt,faithful l im _ Γ Γ' (h.mono hadd) (hkl.mono hadd),freeAlt,
        agree_append]
      exact and_and_and_comm
  | .litCons n xs t l => by
      intro im st Γ Γ' h hk
      obtain ⟨hkt, hkl⟩ := known_append.mp hk
      obtain ⟨hkt, hkx⟩ := known_append.mp hkt
      have hadd := f_adds h.ofVars t st
      obtain ⟨hc, hkn, hagree⟩ := ntvrs_body (h.mono hadd) xs (hkl.mono hadd)
      refine node_three.trans ?_
      rw [group_inj,faithful t im st Γ Γ' h hkt,
        faithful_pattern xs im _ Γ Γ' (h.mono hadd) (hkx.mono hadd),
        faithful l _ _ _ _ hc hkn,freeAlt,agree_append,agree_append,← hagree Γ Γ']
      constructor
      · intro ha
        obtain ⟨⟨ht, ht'⟩, ⟨hx, hx'⟩, hl, hl'⟩ := ha
        exact ⟨⟨⟨ht, hx⟩, hl⟩, ht', hx', hl'⟩
      · intro ha
        obtain ⟨⟨⟨ht, hx⟩, hl⟩, ht', hx', hl'⟩ := ha
        exact ⟨⟨ht, ht'⟩, ⟨hx, hx'⟩, hl, hl'⟩

theorem faithful_alts : (as : List Alt) → ∀ (im : IdMap) (st : Names) (Γ Γ' : List Id),
    Covers im st → Known im st (freeAlts as) →
    (namelessAlts Γ' (das im as st).1 = namelessAlts Γ as ↔
      Agree Γ Γ' im (freeAlts as) ∧ KeptAlts im as st)
  | [] => by
      intro im st Γ Γ' h hk
      exact ⟨fun _ => ⟨fun y hy => absurd hy List.not_mem_nil, trivial⟩, fun _ => rfl⟩
  | a :: as => by
      intro im st Γ Γ' h hk
      obtain ⟨hka, hks⟩ := known_append.mp hk
      have hadd := da_adds h.ofVars a st
      refine (List.cons_eq_cons).trans ?_
      rw [faithful_alt a im st Γ Γ' h hka,
        faithful_alts as im _ Γ Γ' (h.mono hadd) (hks.mono hadd),freeAlts,agree_append]
      exact and_and_and_comm

theorem faithful_default : (d : Option E) → ∀ (im : IdMap) (st : Names) (Γ Γ' : List Id),
    Covers im st → Known im st (freeDefault d) →
    (namelessDefault Γ' (fDefault im d st).1 = namelessDefault Γ d ↔
      Agree Γ Γ' im (freeDefault d) ∧ KeptDefault im d st)
  | none => by
      intro im st Γ Γ' h hk
      exact ⟨fun _ => ⟨fun y hy => absurd hy List.not_mem_nil, trivial⟩, fun _ => rfl⟩
  | some e => by
      intro im st Γ Γ' h hk
      refine (List.cons_eq_cons.trans (and_iff_left rfl)).trans ?_
      exact faithful e im st Γ Γ' h hk

end

end Rename

/-! ### Runs -/

/-- The patterns of the term keep the names that their later variables mention, when `s` is bound
at the start. -/
def PatternsKept (s : Finset Id) (e : E) : Prop :=
  Rename.Kept IdMap.mempty e ⟨s, s, Finset.Subset.refl s⟩

/-- What renaming is for. -/
structure UniquelyNamed (s : Finset Id) (e : E) (r : E × Finset Id) : Prop where
  alpha : AlphaEquiv r.1 e
  distinct : (binders r.1).Nodup
  outside : ∀ x ∈ binders r.1, x ∉ s
  names : ∀ x, x ∈ r.2 ↔ x ∈ s ∨ x ∈ binders r.1

theorem covers_mempty (st : Names) : Rename.Covers IdMap.mempty st where
  vars n v h := by cases h
  emptyId := rfl

theorem alphaEquiv_runRename {s : Finset Id} {e : E} (hs : ∀ x ∈ free e, x ∈ s) :
    AlphaEquiv (runRename s e).1 e ↔ PatternsKept s e := by
  have hf := Rename.faithful e IdMap.mempty ⟨s, s, Finset.Subset.refl s⟩ [] [] (covers_mempty _)
    fun y hy _ _ => hs y hy
  exact hf.trans (and_iff_right fun y _ => rfl)

/-- Whatever the patterns, the binders are distinct, outside `s`, and in the set returned. -/
theorem runRename_binders (s : Finset Id) (e : E) :
    (binders (runRename s e).1).Nodup ∧ (∀ x ∈ binders (runRename s e).1, x ∉ s) ∧
      ∀ x, x ∈ (runRename s e).2 ↔ x ∈ s ∨ x ∈ binders (runRename s e).1 := by
  have ha := Rename.f_adds Rename.ofVars_mempty e ⟨s, s, Finset.Subset.refl s⟩
  exact ⟨ha.nodup, ha.fresh, ha.bound⟩

theorem runRename_iff (s : Finset Id) (e : E) (hs : ∀ x ∈ free e, x ∈ s) :
    UniquelyNamed s e (runRename s e) ↔ PatternsKept s e := by
  obtain ⟨hd, ho, hn⟩ := runRename_binders s e
  constructor
  · intro h
    exact (alphaEquiv_runRename hs).mp h.alpha
  · intro h
    exact ⟨(alphaEquiv_runRename hs).mpr h, hd, ho, hn⟩

/-! ### One existential in two alternatives -/

/-- `k a (x :: a) -> x`, with a type `a` in the constructor. -/
def existentialAlt (k : Name) : Alt :=
  .litCons k [.mk (.anonymous 2) (.eSort .eStar),
    .mk (.anonymous 3) (.eVar (.mk (.anonymous 2) (.eSort .eStar)))] .unknown
    (.eVar (.mk (.anonymous 3) (.eVar (.mk (.anonymous 2) (.eSort .eStar)))))

def caseOf (as : List Alt) : E :=
  .eCase (.eVar (.mk (.anonymous 1) .unknown)) .unknown (.mk .emptyId .unknown) as none

def conA : Name := ⟨.DataConstructor, none, ['A']⟩
def conB : Name := ⟨.DataConstructor, none, ['B']⟩

theorem runRename_one_alternative :
    UniquelyNamed {.anonymous 1} (caseOf [existentialAlt conA])
      (runRename {.anonymous 1} (caseOf [existentialAlt conA])) :=
  (runRename_iff {.anonymous 1} (caseOf [existentialAlt conA]) (by decide)).mpr (by
    refine ⟨trivial, trivial, trivial, ⟨⟨trivial, ⟨trivial, ?_, trivial, ?_, trivial⟩, trivial⟩,
      trivial⟩, trivial⟩
    · intro _
      exact Or.inr ⟨rfl, by decide⟩
    · intro h
      cases h)

theorem runRename_two_alternatives :
    (∀ x ∈ free (caseOf [existentialAlt conA, existentialAlt conB]), x ∈ ({.anonymous 1} : Finset Id)) ∧
      ¬ UniquelyNamed {.anonymous 1} (caseOf [existentialAlt conA, existentialAlt conB])
        (runRename {.anonymous 1} (caseOf [existentialAlt conA, existentialAlt conB])) := by
  refine ⟨by decide, ?_⟩
  intro h
  have hk := (alphaEquiv_runRename (by decide)).mp h.alpha
  obtain ⟨_, _, _, ⟨_, ⟨_, ⟨_, ha, _⟩, _⟩, _⟩, _⟩ := hk
  rcases ha (by decide) with he | ⟨_, hb⟩
  · cases he
  · exact hb (by decide)

end Jhc.E

import Jhc.E.AnnotateScope

/-!
# When annotation keeps a term (E/Annotate.hs:74-156)
-/

namespace Jhc.E
open Jhc.Nameless

namespace Annotate

variable {m m' : VarMap} {Γ Γ' ns vs ys : List Id} {ts : List TVr}

/-! ### Under the binders -/

/-- `m'` is the map under the binders `ns`, renamed to `ts`. -/
structure Opens (m m' : VarMap) (ns : List Id) (ts : List TVr) : Prop where
  emptyKept : EmptyKept m → EmptyKept m'
  keys : ∀ y ∈ m.keys, y ∈ m'.keys
  keys_self : ∀ t ∈ ts, t.tvrIdent = .emptyId ∨ t.tvrIdent ∈ m'.keys
  fresh : ∀ t ∈ ts, t.tvrIdent ≠ .emptyId → t.tvrIdent ∉ m.keys
  distinct : Distinct ts
  lookup : ∀ y, y ≠ .emptyId → y ∈ ns ∨ y ∈ m.keys →
    y ∉ ns ∧ m'.mlookup y = m.mlookup y ∨
      ∃ t ∈ ts, m'.mlookup y = some (some (.eVar t)) ∧ t.tvrIdent ≠ .emptyId
  known : ∀ ys, Known m (ys.filter (· ∉ ns)) → Known m' ys
  agree : ∀ ys, EmptyKept m → Known m (ys.filter (· ∉ ns)) → ∀ Γ Γ',
    (Agree (ns ++ Γ) (idents ts ++ Γ') m' ys ↔ Agree Γ Γ' m (ys.filter (· ∉ ns)))

theorem Group.opens (hg : Group m ns ns ts) : Opens m (under ns ts m) ns ts where
  emptyKept := hg.emptyKept
  keys _ h := keys_under ns ts h
  keys_self _ h := keys_under_self hg.pairs h
  fresh _ ht hne := hg.fresh (List.mem_map_of_mem ht) hne
  distinct := hg.distinct
  lookup y hy h := by
    rcases mlookup_under hg.pairs hy h with h | ⟨_, t, ht, hl, he, _⟩
    · exact Or.inl h
    · exact Or.inr ⟨t, ht, hl, he⟩
  known _ hk := hg.known (fun _ h => h) hk
  agree _ h hk _ _ := hg.agree (fun _ h => h) h hk

theorem ntvr_opens (vs : List Id) (m : VarMap) (t : TVr) :
    Opens m ((ntvr vs m t).2 m) [t.tvrIdent] [(ntvr vs m t).1] := by
  rw [ntvr_under]
  exact (ntvr_group vs m t).opens

theorem mapMntvr_opens (m : VarMap) (ts : List TVr) :
    Opens m (((mapMntvr (idents ts) m ts).map Prod.snd).foldr (· ∘ ·) id m) (idents ts)
      ((mapMntvr (idents ts) m ts).map Prod.fst) := by
  rw [mapMntvr_under]
  exact (mapMntvr_group (idents ts) m ts).opens

/-- The unused binder of a lambda. -/
theorem minsert_emptyId_opens (m : VarMap) (t : E) :
    Opens m (m.minsert .emptyId none) [.emptyId] [.mk .emptyId t] where
  emptyKept _ v hv := by
    rw [mlookup_minsert_self] at hv
    cases hv
  keys _ h := Finset.mem_insert_of_mem h
  keys_self u hu := Or.inl (by rw [List.mem_singleton.mp hu]; rfl)
  fresh u hu hne := absurd (by rw [List.mem_singleton.mp hu]; rfl) hne
  distinct := List.nodup_nil
  lookup y hy _ := by
    left
    refine ⟨?_, mlookup_minsert_of_ne hy _ m⟩
    rw [List.mem_singleton]
    exact hy
  known ys hk y hy hne := by
    have hn : y ∉ [Id.emptyId] := by
      rw [List.mem_singleton]
      exact hne
    obtain ⟨u, hu, hkeys, he⟩ := hk y (mem_filter_notMem hy hn) hne
    exact ⟨u, (mlookup_minsert_of_ne hne _ m).trans hu, Finset.mem_insert_of_mem hkeys, he⟩
  agree ys h hk Γ Γ' := by
    have hg : Group m [.emptyId] [.emptyId] [.mk .emptyId t] :=
      ⟨List.Forall₂.cons (Or.inl ⟨rfl, rfl⟩) List.Forall₂.nil, List.nodup_nil⟩
    have himg : ∀ y, image (m.minsert .emptyId none) y = image m y := by
      intro y
      by_cases hy : y = .emptyId
      · rw [hy,image_emptyId h]
        unfold image
        rw [mlookup_minsert_self]
      · exact image_congr (mlookup_minsert_of_ne hy _ m)
    have ha := hg.opens.agree ys h hk Γ Γ'
    unfold Agree Agrees at ha ⊢
    simp only [himg]
    exact ha

theorem lp_opens (m : VarMap) (t : TVr) : Opens m ((lp m t).2 m) [t.tvrIdent] [(lp m t).1] := by
  by_cases h : t.tvrIdent = .emptyId
  · cases t with
    | mk n t =>
      have hn : n = .emptyId := h
      subst hn
      exact minsert_emptyId_opens m (f m t)
  · rw [lp_of_ne h]
    exact ntvr_opens [] m t

/-! ### The types of a letrec -/

/-- A later type of the group is named with an earlier binder in the map, and stands outside. -/
theorem agree_types (vs : List Id) (t : TVr) (hk : Known m ys)
    (hΓ : ∀ x ∈ Γ', x = .emptyId ∨ x ∈ m.keys) :
    Agree Γ Γ' ((ntvr vs m t).2 m) ys ↔
      Agree Γ Γ' m ys ∧ (t.tvrIdent ∈ ys → t.tvrIdent = .emptyId) := by
  have hc := ntvr_chosen vs m t
  by_cases hin : t.tvrIdent ∈ ys ∧ t.tvrIdent ≠ .emptyId
  · obtain ⟨hin, hne⟩ := hin
    constructor
    · intro ha
      exfalso
      obtain ⟨u, hu, _, _⟩ := hk _ hin hne
      have hat := ha _ hin
      unfold Agrees at hat
      rw [ntvr_step,image_of_some (mlookup_step_self hne _ m)] at hat
      rcases hc with ⟨he, _⟩ | ⟨_, he', hf, _⟩
      · exact hne he
      · have hnΓ : (ntvr vs m t).1.tvrIdent ∉ Γ' := by
          intro hx
          exact (hΓ _ hx).elim he' hf
        rw [ref_of_notMem hnΓ] at hat
        have heq := (ref_eq_free hat.symm).2
        exact hf (heq ▸ mem_of_mlookup hu)
    · intro ha
      exact absurd (ha.2 hin) hne
  · have hsame : ∀ y ∈ ys, image ((ntvr vs m t).2 m) y = image m y := by
      intro y hy
      rw [ntvr_step]
      by_cases hte : t.tvrIdent = .emptyId
      · rw [hte,step_emptyId]
      · have hyt : y ≠ t.tvrIdent := fun h => hin ⟨h ▸ hy, hte⟩
        refine image_congr (mlookup_step_of_ne hyt ?_ m)
        by_cases hye : y = .emptyId
        · rw [hye]
          exact fun h => hte (hc.emptyId_iff.mp h.symm)
        · obtain ⟨u, hu, _⟩ := hk y hy hye
          exact old_ne_new hc hye (Or.inr (mem_of_mlookup hu)) hyt
    have hcond : t.tvrIdent ∈ ys → t.tvrIdent = .emptyId := by
      intro h
      by_contra hne
      exact hin ⟨h, hne⟩
    rw [and_iff_left hcond]
    unfold Agree Agrees
    constructor
    · intro ha y hy
      rw [← hsame y hy]
      exact ha y hy
    · intro ha y hy
      rw [hsame y hy]
      exact ha y hy

theorem Known.filter (hk : Known m ys) (p : Id → Bool) : Known m (ys.filter p) :=
  fun y hy => hk y (List.mem_of_mem_filter hy)

theorem mapMntvrDefs_length (vs : List Id) : (ds : List Def) → (m m' : VarMap) →
    ((mapMntvrDefs vs m ds).map Prod.fst).length = (fRhss m' ds).length
  | [], _, _ => rfl
  | .mk _ _ :: ds, _, m' => congrArg Nat.succ (mapMntvrDefs_length vs ds _ m')

/-! ### Every term -/

/-- The scope `Γ'` is in the map. -/
def Recorded (m : VarMap) (Γ' : List Id) : Prop := ∀ x ∈ Γ', x = .emptyId ∨ x ∈ m.keys

theorem Opens.recorded (ho : Opens m m' ns ts) (h : Recorded m Γ') :
    Recorded m' (idents ts ++ Γ') := by
  intro x hx
  rcases List.mem_append.mp hx with hx | hx
  · obtain ⟨t, ht, rfl⟩ := List.mem_map.mp hx
    exact ho.keys_self t ht
  · exact (h x hx).imp id (ho.keys x)

/-- The annotated term is the term, up to binders, exactly when its free names agree and the types
of its letrec binders do not mention earlier ones. -/
def Faithful (e : E) : Prop :=
  ∀ (m : VarMap) (Γ Γ' : List Id), EmptyKept m → Known m (free e) → Recorded m Γ' →
    (nameless Γ' (f m e) = nameless Γ e ↔ Agree Γ Γ' m (free e) ∧ TypesApart e)

def FaithfulType (t : TVr) : Prop :=
  ∀ (m : VarMap) (Γ Γ' : List Id), EmptyKept m → Known m (freeVar t) → Recorded m Γ' →
    (nameless Γ' (f m t.tvrType) = namelessVar Γ t ↔ Agree Γ Γ' m (freeVar t) ∧ TypesApartVar t)

theorem ntvr_type (vs : List Id) (m : VarMap) (t : TVr) :
    namelessVar Γ' (ntvr vs m t).1 = nameless Γ' (f m t.tvrType) := by
  cases t with
  | mk n t =>
    rw [ntvr_run]
    rfl

theorem lp_type (m : VarMap) (t : TVr) :
    namelessVar Γ' (lp m t).1 = nameless Γ' (f m t.tvrType) := by
  by_cases h : t.tvrIdent = .emptyId
  · cases t with
    | mk n t =>
      have hn : n = .emptyId := h
      subst hn
      rfl
  · rw [lp_of_ne h,ntvr_type]

theorem faithful_binder {t : TVr} {e : E} (ht : FaithfulType t) (he : Faithful e) (l : Label)
    (h : EmptyKept m) (hk : Known m (freeVar t ++ (free e).filter (· ≠ t.tvrIdent)))
    (hΓ : Recorded m Γ') :
    Skeleton.node l [namelessVar Γ' (lp m t).1,
        nameless ((lp m t).1.tvrIdent :: Γ') (f ((lp m t).2 m) e)] =
      .node l [namelessVar Γ t, nameless (t.tvrIdent :: Γ) e] ↔
    Agree Γ Γ' m (freeVar t ++ (free e).filter (· ≠ t.tvrIdent)) ∧ TypesApartVar t ∧
      TypesApart e := by
  obtain ⟨hkt, hke⟩ := known_append.mp hk
  have ho := lp_opens m t
  rw [← filter_singleton] at hke
  have hbody := he ((lp m t).2 m) (t.tvrIdent :: Γ) ((lp m t).1.tvrIdent :: Γ') (ho.emptyKept h)
    (ho.known _ hke) (ho.recorded hΓ)
  have hagree := ho.agree _ h hke Γ Γ'
  rw [node_two,lp_type,ht m Γ Γ' h hkt hΓ,hbody,agree_append,← filter_singleton,← hagree]
  exact and_and_and_comm

theorem faithful_var (t : TVr) : Faithful (.eVar t) := by
  intro m Γ Γ' h hk hΓ
  have himg : nameless Γ' (f m (.eVar t)) = .var (ref Γ' (image m t.tvrIdent)) := by
    unfold f image
    split
    · next v hv =>
      have hu : ∃ u, v = .eVar u := by
        by_cases ht : t.tvrIdent = .emptyId
        · rw [ht] at hv
          obtain ⟨u, hu, _⟩ := h v hv
          exact ⟨u, hu⟩
        · obtain ⟨u, hu, _⟩ := hk t.tvrIdent (List.mem_singleton_self _) ht
          rw [hv] at hu
          injection hu with hu
          injection hu with hu
          exact ⟨u, hu⟩
      obtain ⟨u, rfl⟩ := hu
      rw [hv,nameless]
    · next hn =>
      split
      · next u hu => exact absurd hu (hn _)
      · rw [nameless]
  change nameless Γ' (f m (.eVar t)) = .var (ref Γ t.tvrIdent) ↔ Agree Γ Γ' m [t.tvrIdent] ∧ True
  rw [himg,and_true,Skeleton.var.injEq]
  simp only [Agree,Agrees,List.mem_singleton,forall_eq]

mutual

theorem faithful : (e : E) → Faithful e
  | .eAp a b => by
      intro m Γ Γ' h hk hΓ
      obtain ⟨hka, hkb⟩ := known_append.mp hk
      refine node_two.trans ?_
      rw [faithful a m Γ Γ' h hka hΓ,faithful b m Γ Γ' h hkb hΓ,free,agree_append]
      exact and_and_and_comm
  | .eLit n xs t => by
      intro m Γ Γ' h hk hΓ
      obtain ⟨hkx, hkt⟩ := known_append.mp hk
      refine node_two.trans ?_
      rw [group_inj,faithful_args xs m Γ Γ' h hkx hΓ,faithful t m Γ Γ' h hkt hΓ,free,agree_append]
      exact and_and_and_comm
  | .eLitInt n t => by
      intro m Γ Γ' h hk hΓ
      exact node_one.trans (faithful t m Γ Γ' h hk hΓ)
  | .eError s t => by
      intro m Γ Γ' h hk hΓ
      exact node_one.trans (faithful t m Γ Γ' h hk hΓ)
  | .ePrim p es t => by
      intro m Γ Γ' h hk hΓ
      obtain ⟨hkx, hkt⟩ := known_append.mp hk
      refine node_two.trans ?_
      rw [group_inj,faithful_args es m Γ Γ' h hkx hΓ,faithful t m Γ Γ' h hkt hΓ,free,agree_append]
      exact and_and_and_comm
  | .eLam t e => by
      intro m Γ Γ' h hk hΓ
      exact faithful_binder (faithful_type t) (faithful e) .lam h hk hΓ
  | .ePi t e => by
      intro m Γ Γ' h hk hΓ
      exact faithful_binder (faithful_type t) (faithful e) .pi h hk hΓ
  | .eVar t => faithful_var t
  | .eSort s => by
      intro m Γ Γ' h hk hΓ
      exact ⟨fun _ => ⟨fun y hy => absurd hy List.not_mem_nil, trivial⟩, fun _ => rfl⟩
  | .unknown => by
      intro m Γ Γ' h hk hΓ
      exact ⟨fun _ => ⟨fun y hy => absurd hy List.not_mem_nil, trivial⟩, fun _ => rfl⟩
  | .eCase e t b as d => by
      intro m Γ Γ' h hk hΓ
      rw [free,known_append,known_append,known_append] at hk
      obtain ⟨⟨⟨hke, hkt⟩, hkb⟩, hks⟩ := hk
      have ho := ntvr_opens [] m b
      rw [← filter_singleton] at hks
      obtain ⟨hkas, hkd⟩ := known_append.mp (ho.known _ hks)
      have hagree := ho.agree _ h hks Γ Γ'
      rw [agree_append] at hagree
      refine node_five.trans ?_
      rw [group_inj,group_inj,faithful e m Γ Γ' h hke hΓ,faithful t m Γ Γ' h hkt hΓ,ntvr_type,
        faithful_type b m Γ Γ' h hkb hΓ]
      have has := faithful_alts as _ (b.tvrIdent :: Γ) ((ntvr [] m b).1.tvrIdent :: Γ')
        (ho.emptyKept h) hkas (ho.recorded hΓ)
      have hd := faithful_default d _ (b.tvrIdent :: Γ) ((ntvr [] m b).1.tvrIdent :: Γ')
        (ho.emptyKept h) hkd (ho.recorded hΓ)
      rw [has,hd,free,agree_append,agree_append,agree_append,← filter_singleton,← hagree]
      constructor
      · intro ha
        obtain ⟨⟨he, he'⟩, ⟨ht, ht'⟩, ⟨hb, hb'⟩, ⟨ha, ha'⟩, hd, hd'⟩ := ha
        exact ⟨⟨⟨⟨he, ht⟩, hb⟩, ha, hd⟩, he', ht', hb', ha', hd'⟩
      · intro ha
        obtain ⟨⟨⟨⟨he, ht⟩, hb⟩, ha, hd⟩, he', ht', hb', ha', hd'⟩ := ha
        exact ⟨⟨he, he'⟩, ⟨ht, ht'⟩, ⟨hb, hb'⟩, ⟨ha, ha'⟩, hd, hd'⟩
  | .eLetRec ds e => by
      intro m Γ Γ' h hk hΓ
      obtain ⟨hkb, hks⟩ := known_append.mp hk
      have ho := mapMntvr_opens m (ds.map Def.var)
      rw [← mapMntvrDefs_eq] at ho
      obtain ⟨hkr, hke⟩ := known_append.mp (ho.known _ hks)
      have hagree := ho.agree _ h hks Γ Γ'
      rw [agree_append] at hagree
      have hr := faithful_rhss ds _ (idents (ds.map Def.var) ++ Γ) _ (ho.emptyKept h) hkr
        (ho.recorded hΓ)
      have he := faithful e _ (idents (ds.map Def.var) ++ Γ) _ (ho.emptyKept h) hke
        (ho.recorded hΓ)
      have hb := faithful_binders (idents (ds.map Def.var)) ds m Γ Γ' h hkb hΓ
      have hlen := mapMntvrDefs_length (idents (ds.map Def.var)) ds m (((mapMntvrDefs
        (idents (ds.map Def.var)) m ds).map Prod.snd).foldr (· ∘ ·) id m)
      change nameless Γ' (.eLetRec (List.zipWith Def.mk
        ((mapMntvrDefs (idents (ds.map Def.var)) m ds).map Prod.fst) (fRhss _ ds)) (f _ e)) = _ ↔ _
      rw [nameless_letrec hlen,nameless,node_three,group_inj,group_inj,hb,hr,he,free,agree_append,
        ← hagree]
      constructor
      · intro ha
        obtain ⟨⟨hb, hb'⟩, ⟨hr, hr'⟩, he, he'⟩ := ha
        exact ⟨⟨hb, hr, he⟩, hb', hr', he'⟩
      · intro ha
        obtain ⟨⟨hb, hr, he⟩, hb', hr', he'⟩ := ha
        exact ⟨⟨hb, hb'⟩, ⟨hr, hr'⟩, he, he'⟩

theorem faithful_type : (t : TVr) → FaithfulType t
  | .mk _ t => by
      intro m Γ Γ' h hk hΓ
      exact faithful t m Γ Γ' h hk hΓ

theorem faithful_args : (es : List E) → ∀ (m : VarMap) (Γ Γ' : List Id), EmptyKept m →
    Known m (freeArgs es) → Recorded m Γ' →
    (namelessArgs Γ' (fs m es) = namelessArgs Γ es ↔
      Agree Γ Γ' m (freeArgs es) ∧ TypesApartArgs es)
  | [] => by
      intro m Γ Γ' h hk hΓ
      exact ⟨fun _ => ⟨fun y hy => absurd hy List.not_mem_nil, trivial⟩, fun _ => rfl⟩
  | e :: es => by
      intro m Γ Γ' h hk hΓ
      obtain ⟨hke, hks⟩ := known_append.mp hk
      refine (List.cons_eq_cons).trans ?_
      rw [faithful e m Γ Γ' h hke hΓ,faithful_args es m Γ Γ' h hks hΓ,freeArgs,agree_append]
      exact and_and_and_comm

theorem faithful_binders (vs : List Id) : (ds : List Def) → ∀ (m : VarMap) (Γ Γ' : List Id),
    EmptyKept m → Known m (freeBinders ds) → Recorded m Γ' →
    (((mapMntvrDefs vs m ds).map Prod.fst).map (namelessVar Γ') = namelessBinders Γ ds ↔
      Agree Γ Γ' m (freeBinders ds) ∧ TypesApartBinders ds)
  | [] => by
      intro m Γ Γ' h hk hΓ
      exact ⟨fun _ => ⟨fun y hy => absurd hy List.not_mem_nil, trivial⟩, fun _ => rfl⟩
  | .mk t _ :: ds => by
      intro m Γ Γ' h hk hΓ
      obtain ⟨hkt, hks⟩ := known_append.mp hk
      have ho := ntvr_opens vs m t
      have ht := faithful_type t m Γ Γ' h hkt hΓ
      rw [← ntvr_type vs] at ht
      have hds := faithful_binders vs ds ((ntvr vs m t).2 m) Γ Γ' (ho.emptyKept h)
        (ho.known _ (hks.filter _)) fun x hx => (hΓ x hx).imp id (ho.keys x)
      rw [agree_types vs t hks hΓ] at hds
      refine (List.cons_eq_cons).trans ((and_congr ht hds).trans ?_)
      rw [freeBinders,agree_append,TypesApartBinders,and_assoc (c := TypesApartBinders ds)]
      exact and_and_and_comm

theorem faithful_rhss : (ds : List Def) → ∀ (m : VarMap) (Γ Γ' : List Id), EmptyKept m →
    Known m (freeRhss ds) → Recorded m Γ' →
    (namelessArgs Γ' (fRhss m ds) = namelessRhss Γ ds ↔
      Agree Γ Γ' m (freeRhss ds) ∧ TypesApartRhss ds)
  | [] => by
      intro m Γ Γ' h hk hΓ
      exact ⟨fun _ => ⟨fun y hy => absurd hy List.not_mem_nil, trivial⟩, fun _ => rfl⟩
  | .mk _ e :: ds => by
      intro m Γ Γ' h hk hΓ
      obtain ⟨hke, hks⟩ := known_append.mp hk
      have he := faithful e m Γ Γ' h hke hΓ
      have hds := faithful_rhss ds m Γ Γ' h hks hΓ
      refine (List.cons_eq_cons).trans ?_
      rw [freeRhss,agree_append]
      exact (and_congr he hds).trans and_and_and_comm

theorem faithful_pattern (vs : List Id) : (ts : List TVr) → ∀ (m : VarMap) (Γ Γ' : List Id),
    EmptyKept m → Known m (freePattern ts) → Recorded m Γ' →
    (namelessPattern Γ' ((mapMntvr vs m ts).map Prod.fst) = namelessPattern Γ ts ↔
      Agree Γ Γ' m (freePattern ts) ∧ TypesApartVars ts)
  | [] => by
      intro m Γ Γ' h hk hΓ
      exact ⟨fun _ => ⟨fun y hy => absurd hy List.not_mem_nil, trivial⟩, fun _ => rfl⟩
  | t :: ts => by
      intro m Γ Γ' h hk hΓ
      obtain ⟨hkt, hks⟩ := known_append.mp hk
      have ho := ntvr_opens vs m t
      have ht := faithful_type t m Γ Γ' h hkt hΓ
      rw [← ntvr_type vs] at ht
      rw [← filter_singleton] at hks
      have hts := faithful_pattern vs ts ((ntvr vs m t).2 m) (t.tvrIdent :: Γ)
        ((ntvr vs m t).1.tvrIdent :: Γ') (ho.emptyKept h) (ho.known _ hks) (ho.recorded hΓ)
      have hagree := ho.agree _ h hks Γ Γ'
      refine (List.cons_eq_cons).trans ((and_congr ht hts).trans ?_)
      rw [freePattern,agree_append,← filter_singleton,← hagree]
      exact and_and_and_comm

theorem faithful_alt : (a : Alt) → ∀ (m : VarMap) (Γ Γ' : List Id), EmptyKept m →
    Known m (freeAlt a) → Recorded m Γ' →
    (namelessAlt Γ' (da m a) = namelessAlt Γ a ↔ Agree Γ Γ' m (freeAlt a) ∧ TypesApartAlt a)
  | .litInt n t l => by
      intro m Γ Γ' h hk hΓ
      obtain ⟨hkt, hkl⟩ := known_append.mp hk
      refine node_two.trans ?_
      rw [faithful t m Γ Γ' h hkt hΓ,faithful l m Γ Γ' h hkl hΓ,freeAlt,agree_append]
      exact and_and_and_comm
  | .litCons n xs t l => by
      intro m Γ Γ' h hk hΓ
      obtain ⟨hkt, hkl⟩ := known_append.mp hk
      obtain ⟨hkt, hkx⟩ := known_append.mp hkt
      have ho := mapMntvr_opens m xs
      have hl := faithful l _ (idents xs ++ Γ) _ (ho.emptyKept h) (ho.known _ hkl)
        (ho.recorded hΓ)
      have hagree := ho.agree _ h hkl Γ Γ'
      refine node_three.trans ?_
      rw [group_inj,faithful t m Γ Γ' h hkt hΓ,faithful_pattern (idents xs) xs m Γ Γ' h hkx hΓ,hl,
        freeAlt,agree_append,agree_append,← hagree]
      constructor
      · intro ha
        obtain ⟨⟨ht, ht'⟩, ⟨hx, hx'⟩, hl, hl'⟩ := ha
        exact ⟨⟨⟨ht, hx⟩, hl⟩, ht', hx', hl'⟩
      · intro ha
        obtain ⟨⟨⟨ht, hx⟩, hl⟩, ht', hx', hl'⟩ := ha
        exact ⟨⟨ht, ht'⟩, ⟨hx, hx'⟩, hl, hl'⟩

theorem faithful_alts : (as : List Alt) → ∀ (m : VarMap) (Γ Γ' : List Id), EmptyKept m →
    Known m (freeAlts as) → Recorded m Γ' →
    (namelessAlts Γ' (das m as) = namelessAlts Γ as ↔ Agree Γ Γ' m (freeAlts as) ∧ TypesApartAlts as)
  | [] => by
      intro m Γ Γ' h hk hΓ
      exact ⟨fun _ => ⟨fun y hy => absurd hy List.not_mem_nil, trivial⟩, fun _ => rfl⟩
  | a :: as => by
      intro m Γ Γ' h hk hΓ
      obtain ⟨hka, hks⟩ := known_append.mp hk
      refine (List.cons_eq_cons).trans ?_
      rw [faithful_alt a m Γ Γ' h hka hΓ,faithful_alts as m Γ Γ' h hks hΓ,freeAlts,agree_append]
      exact and_and_and_comm

theorem faithful_default : (d : Option E) → ∀ (m : VarMap) (Γ Γ' : List Id), EmptyKept m →
    Known m (freeDefault d) → Recorded m Γ' →
    (namelessDefault Γ' (fDefault m d) = namelessDefault Γ d ↔
      Agree Γ Γ' m (freeDefault d) ∧ TypesApartDefault d)
  | none => by
      intro m Γ Γ' h hk hΓ
      exact ⟨fun _ => ⟨fun y hy => absurd hy List.not_mem_nil, trivial⟩, fun _ => rfl⟩
  | some e => by
      intro m Γ Γ' h hk hΓ
      refine (List.cons_eq_cons.trans (and_iff_left rfl)).trans ?_
      exact faithful e m Γ Γ' h hk hΓ

end

end Annotate

end Jhc.E

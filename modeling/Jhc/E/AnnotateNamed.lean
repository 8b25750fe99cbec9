import Jhc.E.AnnotateSound

/-!
# Annotated terms have no shadowing
-/

namespace Jhc.E
open Jhc.Nameless

namespace InScope

variable {Δ : InScope} {ts : List TVr}

theorem binds_of_notMem {y : Id} (h : y ∉ idents ts) : Δ.binds ts y = Δ y := by
  induction ts with
  | nil => rfl
  | cons t ts ih =>
    have hi : idents (t :: ts) = t.tvrIdent :: idents ts := rfl
    rw [hi] at h
    have hb : Δ.binds (t :: ts) y = if y = t.tvrIdent then some (some t) else Δ.binds ts y := rfl
    rw [hb,if_neg (List.ne_of_not_mem_cons h)]
    exact ih (List.not_mem_of_not_mem_cons h)

theorem binds_of_mem (hd : Distinct ts) {t : TVr} (ht : t ∈ ts) (hne : t.tvrIdent ≠ .emptyId) :
    Δ.binds ts t.tvrIdent = some (some t) := by
  induction ts with
  | nil => cases ht
  | cons u ts ih =>
    obtain ⟨hu, hts⟩ := Annotate.distinct_cons.mp hd
    have hb : Δ.binds (u :: ts) t.tvrIdent =
      if t.tvrIdent = u.tvrIdent then some (some u) else Δ.binds ts t.tvrIdent := rfl
    rw [hb]
    rcases List.mem_cons.mp ht with rfl | ht
    · exact if_pos rfl
    · have htu : t.tvrIdent ≠ u.tvrIdent := by
        intro h
        exact hu (h ▸ hne) (h ▸ List.mem_map_of_mem ht)
      rw [if_neg htu]
      exact ih hts ht

end InScope

theorem wellNamedBinders_zip {Δ : InScope} {ts : List TVr} {es : List E}
    (h : ts.length = es.length) (ht : ∀ t ∈ ts, WellNamedVar Δ t) :
    WellNamedBinders Δ (List.zipWith Def.mk ts es) := by
  induction ts generalizing es with
  | nil => trivial
  | cons t ts ih =>
    cases es with
    | nil => cases h
    | cons e es =>
      exact ⟨ht t (List.mem_cons_self ..), ih (Nat.succ.inj h) fun u hu => ht u (List.mem_cons_of_mem t hu)⟩

theorem wellNamedRhss_zip {Δ : InScope} {ts : List TVr} {es : List E} (h : ts.length = es.length)
    (hes : WellNamedArgs Δ es) : WellNamedRhss Δ (List.zipWith Def.mk ts es) := by
  induction ts generalizing es with
  | nil => trivial
  | cons t ts ih =>
    cases es with
    | nil => cases h
    | cons e es => exact ⟨hes.1, ih (Nat.succ.inj h) hes.2⟩

namespace Annotate

variable {m m' : VarMap} {Δ : InScope} {ns vs ys zs : List Id} {ts : List TVr}

/-! ### The scope and the map -/

/-- What is in scope is in the map. -/
def Tracks (m : VarMap) (Δ : InScope) : Prop := ∀ y, Δ y ≠ none → y = .emptyId ∨ y ∈ m.keys

/-- The names stand for variables in scope. -/
def Placed (m : VarMap) (Δ : InScope) (ys : List Id) : Prop :=
  ∀ y ∈ ys, y ≠ .emptyId → ∃ t, m.mlookup y = some (some (.eVar t)) ∧ t.tvrIdent ≠ .emptyId ∧
    Δ t.tvrIdent = some (some t)

theorem placed_append : Placed m Δ (ys ++ zs) ↔ Placed m Δ ys ∧ Placed m Δ zs := by
  simp only [Placed,List.mem_append,or_imp,forall_and]

theorem Tracks.mem (hT : Tracks m Δ) {t : TVr} (hne : t.tvrIdent ≠ .emptyId)
    (h : Δ t.tvrIdent = some (some t)) : t.tvrIdent ∈ m.keys := by
  refine (hT t.tvrIdent ?_).resolve_left hne
  rw [h]
  exact Option.some_ne_none _

theorem Placed.known (hp : Placed m Δ ys) (hT : Tracks m Δ) : Known m ys := by
  intro y hy hne
  obtain ⟨t, ht, he, hΔ⟩ := hp y hy hne
  exact ⟨t, ht, hT.mem he hΔ, he⟩

theorem Opens.tracks (ho : Opens m m' ns ts) (hT : Tracks m Δ) : Tracks m' (Δ.binds ts) := by
  intro y hy
  by_cases hm : y ∈ idents ts
  · obtain ⟨t, ht, rfl⟩ := List.mem_map.mp hm
    exact ho.keys_self t ht
  · rw [InScope.binds_of_notMem hm] at hy
    exact (hT y hy).imp id (ho.keys y)

theorem Opens.placed (ho : Opens m m' ns ts) (hT : Tracks m Δ)
    (hp : Placed m Δ (ys.filter (· ∉ ns))) : Placed m' (Δ.binds ts) ys := by
  intro y hy hne
  have hplace : y ∈ ns ∨ y ∈ m.keys :=
    (hp.known hT).place (fun _ h => h) hy hne
  rcases ho.lookup y hne hplace with ⟨hn, hl⟩ | ⟨t, ht, hl, he⟩
  · obtain ⟨t, ht, he, hΔ⟩ := hp y (mem_filter_notMem hy hn) hne
    refine ⟨t, hl.trans ht, he, ?_⟩
    have hnt : t.tvrIdent ∉ idents ts := by
      intro hmem
      obtain ⟨u, hu, hut⟩ := List.mem_map.mp hmem
      exact ho.fresh u hu (hut ▸ he) (hut ▸ hT.mem he hΔ)
    rw [InScope.binds_of_notMem hnt]
    exact hΔ
  · exact ⟨t, hl, he, InScope.binds_of_mem ho.distinct ht he⟩

/-- The new name of a binder is not in scope. -/
theorem Opens.new (ho : Opens m m' ns ts) (hT : Tracks m Δ) {t : TVr} (ht : t ∈ ts) :
    t.tvrIdent = .emptyId ∨ Δ t.tvrIdent = none := by
  by_cases he : t.tvrIdent = .emptyId
  · exact Or.inl he
  · right
    by_contra hΔ
    exact ho.fresh t ht he ((hT _ hΔ).resolve_left he)

/-! ### Every term -/

def Named (e : E) : Prop :=
  ∀ (m : VarMap) (Δ : InScope), EmptyKept m → Tracks m Δ → Placed m Δ (free e) → TypesApart e →
    WellNamed Δ (f m e)

def NamedType (t : TVr) : Prop :=
  ∀ (m : VarMap) (Δ : InScope), EmptyKept m → Tracks m Δ → Placed m Δ (freeVar t) →
    TypesApartVar t → WellNamed Δ (f m t.tvrType)

theorem named_ntvr {t : TVr} (ht : NamedType t) (vs : List Id) (h : EmptyKept m) (hT : Tracks m Δ)
    (hp : Placed m Δ (freeVar t)) (ha : TypesApartVar t) : WellNamedVar Δ (ntvr vs m t).1 := by
  have hnew := (ntvr_opens vs m t).new hT (List.mem_singleton_self _)
  have hty := ht m Δ h hT hp ha
  cases t with
  | mk n t =>
    rw [ntvr_run] at hnew ⊢
    exact ⟨hnew, hty⟩

theorem named_lp {t : TVr} (ht : NamedType t) (h : EmptyKept m) (hT : Tracks m Δ)
    (hp : Placed m Δ (freeVar t)) (ha : TypesApartVar t) : WellNamedVar Δ (lp m t).1 := by
  by_cases hn : t.tvrIdent = .emptyId
  · have hty := ht m Δ h hT hp ha
    cases t with
    | mk n t =>
      have hn' : n = .emptyId := hn
      subst hn'
      exact ⟨Or.inl rfl, hty⟩
  · rw [lp_of_ne hn]
    exact named_ntvr ht [] h hT hp ha

theorem named_binder {t : TVr} {e : E} (ht : NamedType t) (he : Named e) (h : EmptyKept m)
    (hT : Tracks m Δ) (hp : Placed m Δ (freeVar t ++ (free e).filter (· ≠ t.tvrIdent)))
    (ha : TypesApartVar t ∧ TypesApart e) :
    WellNamedVar Δ (lp m t).1 ∧ WellNamed (Δ.bind (lp m t).1) (f ((lp m t).2 m) e) := by
  obtain ⟨hpt, hpe⟩ := placed_append.mp hp
  have ho := lp_opens m t
  rw [← filter_singleton] at hpe
  exact ⟨named_lp ht h hT hpt ha.1,
    he _ (Δ.binds [(lp m t).1]) (ho.emptyKept h) (ho.tracks hT) (ho.placed hT hpe) ha.2⟩

theorem named_var (t : TVr) : Named (.eVar t) := by
  intro m Δ h hT hp _
  unfold f
  split
  · next v hv =>
    by_cases ht : t.tvrIdent = .emptyId
    · rw [ht] at hv
      obtain ⟨u, rfl, hu⟩ := h v hv
      exact Or.inl hu
    · obtain ⟨u, hu, _, hΔ⟩ := hp t.tvrIdent (List.mem_singleton_self _) ht
      rw [hv] at hu
      injection hu with hu
      injection hu with hu
      rw [hu]
      exact Or.inr hΔ
  · next hn =>
    left
    by_contra ht
    obtain ⟨u, hu, _⟩ := hp t.tvrIdent (List.mem_singleton_self _) ht
    exact hn _ hu

mutual

theorem named_term : (e : E) → Named e
  | .eAp a b => by
      intro m Δ h hT hp ha
      obtain ⟨hpa, hpb⟩ := placed_append.mp hp
      exact ⟨named_term a m Δ h hT hpa ha.1, named_term b m Δ h hT hpb ha.2⟩
  | .eLit n xs t => by
      intro m Δ h hT hp ha
      obtain ⟨hpx, hpt⟩ := placed_append.mp hp
      exact ⟨named_args xs m Δ h hT hpx ha.1, named_term t m Δ h hT hpt ha.2⟩
  | .eLitInt n t => named_term t
  | .eError s t => named_term t
  | .ePrim p es t => by
      intro m Δ h hT hp ha
      obtain ⟨hpx, hpt⟩ := placed_append.mp hp
      exact ⟨named_args es m Δ h hT hpx ha.1, named_term t m Δ h hT hpt ha.2⟩
  | .eLam t e => by
      intro m Δ h hT hp ha
      exact named_binder (named_type t) (named_term e) h hT hp ha
  | .ePi t e => by
      intro m Δ h hT hp ha
      exact named_binder (named_type t) (named_term e) h hT hp ha
  | .eVar t => named_var t
  | .eSort s => fun _ _ _ _ _ _ => trivial
  | .unknown => fun _ _ _ _ _ _ => trivial
  | .eCase e t b as d => by
      intro m Δ h hT hp ha
      rw [free,placed_append,placed_append,placed_append] at hp
      obtain ⟨⟨⟨hpe, hpt⟩, hpb⟩, hps⟩ := hp
      obtain ⟨hae, hat, hab, haa, had⟩ := ha
      have ho := ntvr_opens [] m b
      rw [← filter_singleton] at hps
      obtain ⟨hpa, hpd⟩ := placed_append.mp (ho.placed hT hps)
      exact ⟨named_term e m Δ h hT hpe hae, named_term t m Δ h hT hpt hat,
        named_ntvr (named_type b) [] h hT hpb hab,
        named_alts as _ _ (ho.emptyKept h) (ho.tracks hT) hpa haa,
        named_default d _ _ (ho.emptyKept h) (ho.tracks hT) hpd had⟩
  | .eLetRec ds e => by
      intro m Δ h hT hp ha
      obtain ⟨hpb, hps⟩ := placed_append.mp hp
      obtain ⟨hab, har, hae⟩ := ha
      have ho := mapMntvr_opens m (ds.map Def.var)
      rw [← mapMntvrDefs_eq] at ho
      obtain ⟨hpr, hpe⟩ := placed_append.mp (ho.placed hT hps)
      have hb := named_binders (idents (ds.map Def.var)) ds m Δ h hT hpb hab
      have hr := named_rhss ds _ _ (ho.emptyKept h) (ho.tracks hT) hpr har
      have he := named_term e _ _ (ho.emptyKept h) (ho.tracks hT) hpe hae
      have hlen := mapMntvrDefs_length (idents (ds.map Def.var)) ds m (((mapMntvrDefs
        (idents (ds.map Def.var)) m ds).map Prod.snd).foldr (· ∘ ·) id m)
      change WellNamed Δ (.eLetRec (List.zipWith Def.mk
        ((mapMntvrDefs (idents (ds.map Def.var)) m ds).map Prod.fst) (fRhss _ ds)) (f _ e))
      rw [WellNamed,vars_zip hlen]
      exact ⟨⟨wellNamedBinders_zip hlen hb, ho.distinct⟩, wellNamedRhss_zip hlen hr, he⟩

theorem named_type : (t : TVr) → NamedType t
  | .mk _ t => named_term t

theorem named_args : (es : List E) → ∀ (m : VarMap) (Δ : InScope), EmptyKept m → Tracks m Δ →
    Placed m Δ (freeArgs es) → TypesApartArgs es → WellNamedArgs Δ (fs m es)
  | [] => fun _ _ _ _ _ _ => trivial
  | e :: es => by
      intro m Δ h hT hp ha
      obtain ⟨hpe, hps⟩ := placed_append.mp hp
      exact ⟨named_term e m Δ h hT hpe ha.1, named_args es m Δ h hT hps ha.2⟩

theorem named_binders (vs : List Id) : (ds : List Def) → ∀ (m : VarMap) (Δ : InScope),
    EmptyKept m → Tracks m Δ → Placed m Δ (freeBinders ds) → TypesApartBinders ds →
    ∀ t ∈ (mapMntvrDefs vs m ds).map Prod.fst, WellNamedVar Δ t
  | [] => by
      intro m Δ h hT hp ha t ht
      cases ht
  | .mk t e :: ds => by
      intro m Δ h hT hp ha u hu
      obtain ⟨hpt, hps⟩ := placed_append.mp hp
      obtain ⟨hat, hout, has⟩ := ha
      have ho := ntvr_opens vs m t
      rcases List.mem_cons.mp hu with rfl | hu
      · exact named_ntvr (named_type t) vs h hT hpt hat
      · refine named_binders vs ds ((ntvr vs m t).2 m) Δ (ho.emptyKept h)
          (fun y hy => (hT y hy).imp id (ho.keys y)) ?_ has u hu
        -- the earlier binder is in the map, but the later types do not mention it
        intro y hy hne
        obtain ⟨w, hw, hwe, hΔ⟩ := hps y hy hne
        have hyt : y ≠ t.tvrIdent := fun hyt => hne (hyt.trans (hout (hyt ▸ hy)))
        refine ⟨w, ?_, hwe, hΔ⟩
        rw [ntvr_step,mlookup_step_of_ne hyt (old_ne_new (ntvr_chosen vs m t) hne
          (Or.inr (mem_of_mlookup hw)) hyt)]
        exact hw

theorem named_rhss : (ds : List Def) → ∀ (m : VarMap) (Δ : InScope), EmptyKept m → Tracks m Δ →
    Placed m Δ (freeRhss ds) → TypesApartRhss ds → WellNamedArgs Δ (fRhss m ds)
  | [] => fun _ _ _ _ _ _ => trivial
  | .mk _ e :: ds => by
      intro m Δ h hT hp ha
      obtain ⟨hpe, hps⟩ := placed_append.mp hp
      exact ⟨named_term e m Δ h hT hpe ha.1, named_rhss ds m Δ h hT hps ha.2⟩

theorem named_pattern (vs : List Id) : (ts : List TVr) → ∀ (m : VarMap) (Δ : InScope),
    EmptyKept m → Tracks m Δ → Placed m Δ (freePattern ts) → TypesApartVars ts →
    WellNamedPattern Δ ((mapMntvr vs m ts).map Prod.fst)
  | [] => fun _ _ _ _ _ _ => trivial
  | t :: ts => by
      intro m Δ h hT hp ha
      obtain ⟨hpt, hps⟩ := placed_append.mp hp
      have ho := ntvr_opens vs m t
      rw [← filter_singleton] at hps
      exact ⟨named_ntvr (named_type t) vs h hT hpt ha.1,
        named_pattern vs ts _ (Δ.binds [(ntvr vs m t).1]) (ho.emptyKept h) (ho.tracks hT)
          (ho.placed hT hps) ha.2⟩

theorem named_alt : (a : Alt) → ∀ (m : VarMap) (Δ : InScope), EmptyKept m → Tracks m Δ →
    Placed m Δ (freeAlt a) → TypesApartAlt a → WellNamedAlt Δ (da m a)
  | .litInt n t l => by
      intro m Δ h hT hp ha
      obtain ⟨hpt, hpl⟩ := placed_append.mp hp
      exact ⟨named_term t m Δ h hT hpt ha.1, named_term l m Δ h hT hpl ha.2⟩
  | .litCons n xs t l => by
      intro m Δ h hT hp ha
      obtain ⟨hpt, hpl⟩ := placed_append.mp hp
      obtain ⟨hpt, hpx⟩ := placed_append.mp hpt
      obtain ⟨hat, hax, hal⟩ := ha
      have ho := mapMntvr_opens m xs
      exact ⟨named_term t m Δ h hT hpt hat, named_pattern (idents xs) xs m Δ h hT hpx hax,
        named_term l _ _ (ho.emptyKept h) (ho.tracks hT) (ho.placed hT hpl) hal⟩

theorem named_alts : (as : List Alt) → ∀ (m : VarMap) (Δ : InScope), EmptyKept m → Tracks m Δ →
    Placed m Δ (freeAlts as) → TypesApartAlts as → WellNamedAlts Δ (das m as)
  | [] => fun _ _ _ _ _ _ => trivial
  | a :: as => by
      intro m Δ h hT hp ha
      obtain ⟨hpa, hps⟩ := placed_append.mp hp
      exact ⟨named_alt a m Δ h hT hpa ha.1, named_alts as m Δ h hT hps ha.2⟩

theorem named_default : (d : Option E) → ∀ (m : VarMap) (Δ : InScope), EmptyKept m →
    Tracks m Δ → Placed m Δ (freeDefault d) → TypesApartDefault d →
    WellNamedDefault Δ (fDefault m d)
  | none => fun _ _ _ _ _ _ => trivial
  | some e => named_term e

end

end Annotate

/-! ### Runs -/

def toVar : Option E → Option TVr
  | some (.eVar t) => some t
  | _ => none

/-- The scope that a map records. -/
def VarMap.inScope (imap : VarMap) : InScope := fun y => (imap.mlookup y).map toVar

/-- What annotation is for. -/
structure Annotated (imap : VarMap) (e e' : E) : Prop where
  alpha : AlphaEquiv e' e
  named : WellNamed imap.inScope e'

theorem tracks_inScope (imap : VarMap) : Annotate.Tracks imap imap.inScope := by
  intro y hy
  right
  cases hl : imap.mlookup y with
  | none =>
    rw [VarMap.inScope,hl] at hy
    exact absurd rfl hy
  | some v => exact Annotate.mem_of_mlookup hl

section SelfMapped

variable {imap : VarMap} {e : E}
  (hfree : ∀ y ∈ free e, ∃ t, imap.mlookup y = some (some (.eVar t)) ∧ t.tvrIdent = y)
  (hempty : Annotate.EmptyKept imap)

include hfree

theorem placed_of_self : Annotate.Placed imap imap.inScope (free e) := by
  intro y hy hne
  obtain ⟨t, ht, hty⟩ := hfree y hy
  refine ⟨t, ht, hty ▸ hne, ?_⟩
  rw [hty,VarMap.inScope,ht]
  rfl

include hempty

theorem alphaEquiv_annotate : AlphaEquiv (annotate imap e) e ↔ TypesApart e := by
  have hk := (placed_of_self hfree).known (tracks_inScope imap)
  have hf := Annotate.faithful e imap [] [] hempty hk fun x hx => absurd hx List.not_mem_nil
  refine hf.trans (and_iff_right ?_)
  intro y hy
  obtain ⟨t, ht, hty⟩ := hfree y hy
  unfold Agrees
  rw [Annotate.image_of_some ht,hty]

end SelfMapped

theorem annotate_iff (imap : VarMap) (e : E)
    (hfree : ∀ y ∈ free e, ∃ t, imap.mlookup y = some (some (.eVar t)) ∧ t.tvrIdent = y)
    (hempty : Annotate.EmptyKept imap) :
    Annotated imap e (annotate imap e) ↔ TypesApart e := by
  have ha := alphaEquiv_annotate hfree hempty
  constructor
  · intro h
    exact ha.mp h.alpha
  · intro h
    exact ⟨ha.mpr h, Annotate.named_term e imap imap.inScope hempty (tracks_inScope imap)
      (placed_of_self hfree) h⟩

/-! ### A letrec that binds a name of its types anew -/

/-- The type variable `a`, in scope. -/
def tyVar : TVr := .mk (.anonymous 1) (.eSort .eStar)

def oneVar : VarMap := VarMap.minsert (.anonymous 1) (some (.eVar tyVar)) ⟨∅, fun _ => none⟩

/-- `a (\a -> a)` -/
def shadowingLambda : E := .eAp (.eVar tyVar) (.eLam tyVar (.eVar tyVar))

/-- `let a = 0; y :: a; y = 0 in 0`, where the type of `y` is the outer `a`. -/
def shadowingLetRec : E :=
  .eLetRec [.mk (.mk (.anonymous 1) .unknown) (.eLitInt 0 .unknown),
    .mk (.mk (.anonymous 2) (.eVar tyVar)) (.eLitInt 0 .unknown)] (.eLitInt 0 .unknown)

theorem oneVar_self {e : E} (h : ∀ y ∈ free e, y = .anonymous 1) :
    ∀ y ∈ free e, ∃ t, oneVar.mlookup y = some (some (.eVar t)) ∧ t.tvrIdent = y := by
  intro y hy
  rw [h y hy]
  exact ⟨tyVar, Annotate.mlookup_minsert_self _ _ _, rfl⟩

theorem oneVar_emptyKept : Annotate.EmptyKept oneVar := by
  intro v hv
  have hn : oneVar.mlookup .emptyId = none :=
    Annotate.mlookup_minsert_of_ne (by decide) _ _
  rw [hn] at hv
  cases hv

theorem annotate_shadowingLambda :
    Annotated oneVar shadowingLambda (annotate oneVar shadowingLambda) :=
  (annotate_iff oneVar shadowingLambda (oneVar_self (by decide)) oneVar_emptyKept).mpr
    ⟨trivial, trivial, trivial⟩

theorem annotate_shadowingLetRec :
    (∀ y ∈ free shadowingLetRec, ∃ t, oneVar.mlookup y = some (some (.eVar t)) ∧ t.tvrIdent = y) ∧
      Annotate.EmptyKept oneVar ∧
      ¬ Annotated oneVar shadowingLetRec (annotate oneVar shadowingLetRec) := by
  have hfree := oneVar_self (e := shadowingLetRec) (by decide)
  refine ⟨hfree, oneVar_emptyKept, ?_⟩
  intro h
  have ha := (alphaEquiv_annotate hfree oneVar_emptyKept).mp h.alpha
  obtain ⟨⟨_, hout, _⟩, _⟩ := ha
  exact absurd (hout (by decide)) (by decide)

end Jhc.E

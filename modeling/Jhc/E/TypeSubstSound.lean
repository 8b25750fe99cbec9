import Jhc.E.TypeSubstSpec

/-!
# Substitution at two levels captures nothing, outside of the alternatives of a case

The alternatives are traversed with the maps of the case, which do not have its binder. So
the result is right where they do not mention it, or where its name is one that neither the
maps have nor a binder is given.
-/

namespace Jhc.E
open Jhc.Nameless

namespace TypeSubst

mutual

/-- No alternative mentions the binder of its case, unless the binder has a name that is not
tracked and that no binder is given; the binders of a group are distinct, and no type of a
binder of a letrec mentions an earlier one. -/
def Clear (D : List Id) : E → Prop
  | .eAp f a => Clear D f ∧ Clear D a
  | .eLam t e => ClearVar D t ∧ Clear (t.tvrIdent :: D) e
  | .ePi t e => ClearVar D t ∧ Clear (t.tvrIdent :: D) e
  | .eVar _ => True
  | .unknown => True
  | .eSort _ => True
  | .eLitInt _ t => Clear D t
  | .eLit _ es t => ClearArgs D es ∧ Clear D t
  | .eLetRec ds e => Distinct (ds.map Def.var) ∧ ClearBinders D ds ∧
      ClearRhss (idents (ds.map Def.var) ++ D) ds ∧ Clear (idents (ds.map Def.var) ++ D) e
  | .ePrim _ es t => ClearArgs D es ∧ Clear D t
  | .eError _ t => Clear D t
  | .eCase e t b as d => Clear D e ∧ Clear D t ∧ ClearVar D b ∧
      (b.tvrIdent ∈ freeAlts as → b.tvrIdent ∉ D ∧ ¬ Anonymous b.tvrIdent) ∧ ClearAlts D as ∧
      ClearDefault (b.tvrIdent :: D) d

def ClearVar (D : List Id) : TVr → Prop
  | .mk _ t => Clear D t

def ClearBinder (D : List Id) : Def → Prop
  | .mk t _ => ClearVar D t

def ClearBinders (D : List Id) : List Def → Prop
  | [] => True
  | d :: ds => ClearBinder D d ∧ (d.var.tvrIdent ∈ freeBinders ds → d.var.tvrIdent = .emptyId) ∧
      ClearBinders (d.var.tvrIdent :: D) ds

def ClearRhs (D : List Id) : Def → Prop
  | .mk _ e => Clear D e

def ClearRhss (D : List Id) : List Def → Prop
  | [] => True
  | d :: ds => ClearRhs D d ∧ ClearRhss D ds

def ClearArgs (D : List Id) : List E → Prop
  | [] => True
  | e :: es => Clear D e ∧ ClearArgs D es

def ClearPattern (D : List Id) : List TVr → Prop
  | [] => True
  | t :: ts => ClearVar D t ∧ ClearPattern (t.tvrIdent :: D) ts

def ClearAlt (D : List Id) : Alt → Prop
  | .litInt _ t e => Clear D t ∧ Clear D e
  | .litCons _ xs t e => Clear D t ∧ Distinct xs ∧ ClearPattern D xs ∧ Clear (idents xs ++ D) e

def ClearAlts (D : List Id) : List Alt → Prop
  | [] => True
  | a :: as => ClearAlt D a ∧ ClearAlts D as

def ClearDefault (D : List Id) : Option E → Prop
  | none => True
  | some e => Clear D e

end

variable {eAp : E → E → E} {σ τ : Id → Option E} {R : Skeleton Id Label → Skeleton Id Label → Prop} {r : Maps}
  {Γ Γ' S S' : List Id} {x : Id}

attribute [local grind =] Clear

theorem Rel.left (h : Rel σ τ (S ++ S') Γ Γ' r) : Rel σ τ S Γ Γ' r := h.mono fun _ => List.mem_append_left _

theorem Rel.right (h : Rel σ τ (S ++ S') Γ Γ' r) : Rel σ τ S' Γ Γ' r := h.mono fun _ => List.mem_append_right _

theorem nameless_put {t : TVr} :
    nameless Γ' ((r.look t.tvrIdent).getD (.eVar t)) = nameless Γ' (r.put r.wh t.tvrIdent) := by
  have hlook : Maps.look { r with wh := r.wh } t.tvrIdent = r.look t.tvrIdent := rfl
  rw [Maps.put, hlook]
  cases r.look t.tvrIdent with
  | some v => rfl
  | none => rw [Option.getD_none, Option.getD_none, nameless, nameless, TVr.tvrIdent]

theorem Entry.reference (h : Entry σ τ Γ Γ' r x) (w : Bool) : nameless Γ' (r.put w x) = reference σ τ w Γ x := by
  unfold TypeSubst.reference
  cases h with
  | bound hx h =>
    obtain ⟨t, ht, -, href⟩ := h w
    rw [ht, nameless, href]
    cases hb : ref Γ x with
    | bound i => rfl
    | free z => exact absurd hx (ref_eq_free hb).1
  | free hx h hf =>
    rw [ref_of_notMem hx, ← h w]
    exact nameless_of_disjoint fun y hy => (hf w y hy).1

theorem equiv_one (hR : Congruence R) {l : Label} {a b : Skeleton Id Label} (h : R a b) : R (.node l [a]) (.node l [b]) :=
  hR.node l _ _ (.cons h .nil)

theorem equiv_two (hR : Congruence R) {l : Label} {a a' b b' : Skeleton Id Label} (ha : R a a') (hb : R b b') :
    R (.node l [a, b]) (.node l [a', b']) := hR.node l _ _ (.cons ha (.cons hb .nil))

theorem equiv_three (hR : Congruence R) {l : Label} {a a' b b' c c' : Skeleton Id Label} (ha : R a a') (hb : R b b')
    (hc : R c c') : R (.node l [a, b, c]) (.node l [a', b', c']) := hR.node l _ _ (.cons ha (.cons hb (.cons hc .nil)))

theorem equiv_group (hR : Congruence R) {ts us : List (Skeleton Id Label)} (h : List.Forall₂ R ts us) :
    R (group ts) (group us) := hR.node .group ts us h

theorem ntvr_var (vs : List Id) (r : Maps) (t : TVr) (Γ : List Id) :
    namelessVar Γ (ntvr eAp vs r t).1 = nameless Γ (f eAp r.inType t.tvrType) := by
  cases t with
  | mk n t =>
    rw [ntvr_run, namelessVar, TVr.tvrType]

theorem mapMntvrDefs_length (vs : List Id) : ∀ (ds : List Def) (r r' : Maps),
    ((mapMntvrDefs eAp vs r ds).map Prod.fst).length = (fRhss eAp r' ds).length
  | [], r, r' => by
    rw [mapMntvrDefs, fRhss]
    rfl
  | .mk t e :: ds, r, r' => by
    rw [mapMntvrDefs, fRhss, List.map_cons, List.length_cons, List.length_cons, mapMntvrDefs_length vs ds _ r']

theorem wh_under {ns : List Id} {ts : List TVr} : (under ns ts r).wh = r.wh := by
  induction ns generalizing ts with
  | nil => rfl
  | cons n ns ih =>
    cases ts with
    | nil => rfl
    | cons t ts =>
      rw [under_cons, wh_step]
      exact ih

/-- What is returned is what is to be, up to applications that have been reduced. -/
def Substitutes (eAp : E → E → E) (σ τ : Id → Option E) (R : Skeleton Id Label → Skeleton Id Label → Prop) (e : E) : Prop :=
  ∀ (r : Maps) (D Γ Γ' : List Id), Inv D r → Clear D e → Rel σ τ (free e) Γ Γ' r →
    R (nameless Γ' (f eAp r e)) (substituted σ τ r.wh Γ e)

def SubstitutesType (eAp : E → E → E) (σ τ : Id → Option E) (R : Skeleton Id Label → Skeleton Id Label → Prop) (t : TVr) :
    Prop :=
  ∀ (r : Maps) (D Γ Γ' : List Id), Inv D r → ClearVar D t → Rel σ τ (freeVar t) Γ Γ' r →
    ∀ vs, R (namelessVar Γ' (ntvr eAp vs r t).1) (substitutedVar σ τ Γ t)

/-- A lambda or a function type. -/
theorem substitutes_binder (hR : Congruence R) {t : TVr} {e : E} (ht : SubstitutesType eAp σ τ R t)
    (he : Substitutes eAp σ τ R e) (l : Label) (r : Maps) (D Γ Γ' : List Id) (hinv : Inv D r)
    (hc : ClearVar D t ∧ Clear (t.tvrIdent :: D) e)
    (hrel : Rel σ τ (freeVar t ++ (free e).filter (· ≠ t.tvrIdent)) Γ Γ' r) :
    R (.node l [namelessVar Γ' (ntvr eAp [] r t).1,
        nameless ((ntvr eAp [] r t).1.tvrIdent :: Γ') (f eAp ((ntvr eAp [] r t).2 r) e)])
      (.node l [substitutedVar σ τ Γ t, substituted σ τ r.wh (t.tvrIdent :: Γ) e]) := by
  have hch : Chosen r.trm.keys [] t.tvrIdent (ntvr eAp [] r t).1.tvrIdent := ntvr_chosen [] r t
  have hbody := he (step t.tvrIdent (ntvr eAp [] r t).1 r) (t.tvrIdent :: D) (t.tvrIdent :: Γ)
    ((ntvr eAp [] r t).1.tvrIdent :: Γ') (hinv.step hch) hc.2 (hrel.right.push hinv hch)
  rw [wh_step] at hbody
  rw [ntvr_step]
  exact equiv_two hR (ht r D Γ Γ' hinv hc.1 hrel.left []) hbody

/-- What stands under a group of binders. -/
theorem substitutes_group {e : E} (he : Substitutes eAp σ τ R e) {ts : List TVr} {r : Maps} {D Γ Γ' : List Id}
    (hd : Distinct ts) (hinv : Inv D r) (hc : Clear (idents ts ++ D) e)
    (hrel : Rel σ τ ((free e).filter (· ∉ idents ts)) Γ Γ' r) :
    R (nameless (idents ((mapMntvr eAp (idents ts) r ts).map Prod.fst) ++ Γ')
        (f eAp (under (idents ts) ((mapMntvr eAp (idents ts) r ts).map Prod.fst) r) e))
      (substituted σ τ r.wh (idents ts ++ Γ) e) := by
  have hg : Group r.trm.keys (idents ts) (idents ts) ((mapMntvr eAp (idents ts) r ts).map Prod.fst) :=
    mapMntvr_group (idents ts) r ts hd
  have hbody := he _ _ _ _ (hg.inv (fun _ h => h) hinv) hc (hg.rel (fun _ h => h) hinv hrel)
  rwa [wh_under] at hbody

mutual

theorem substitutes (hR : Congruence R) (hap : ∀ Γ a b, R (nameless Γ (eAp a b)) (.node .ap [nameless Γ a, nameless Γ b])) :
    (e : E) → Substitutes eAp σ τ R e
  | .eAp a b => by
    intro r D Γ Γ' hinv hc hrel
    rw [free] at hrel
    rw [Clear] at hc
    rw [f, substituted]
    exact hR.equiv.trans (hap Γ' _ _) (equiv_two hR (substitutes hR hap a r D Γ Γ' hinv hc.1 hrel.left)
      (substitutes hR hap b r D Γ Γ' hinv hc.2 hrel.right))
  | .eLam t e => by
    intro r D Γ Γ' hinv hc hrel
    rw [free] at hrel
    rw [Clear] at hc
    rw [f, substituted, nameless]
    exact substitutes_binder hR (substitutes_type hR hap t) (substitutes hR hap e) .lam r D Γ Γ' hinv hc hrel
  | .ePi t e => by
    intro r D Γ Γ' hinv hc hrel
    rw [free] at hrel
    rw [Clear] at hc
    rw [f, substituted, nameless]
    exact substitutes_binder hR (substitutes_type hR hap t) (substitutes hR hap e) .pi r D Γ Γ' hinv hc hrel
  | .eVar t => by
    intro r D Γ Γ' hinv hc hrel
    rw [f, substituted, nameless_put, (hrel t.tvrIdent (by simp [free])).2.reference]
    exact hR.equiv.refl _
  | .unknown => by
    intro r D Γ Γ' hinv hc hrel
    rw [f, substituted, nameless]
    exact hR.equiv.refl _
  | .eSort s => by
    intro r D Γ Γ' hinv hc hrel
    rw [f, substituted, nameless]
    exact hR.equiv.refl _
  | .eLitInt n t => by
    intro r D Γ Γ' hinv hc hrel
    rw [free] at hrel
    rw [Clear] at hc
    rw [f, substituted, nameless]
    exact equiv_one hR (substitutes hR hap t r.inType D Γ Γ' hinv.inType hc hrel.inType)
  | .eLit n es t => by
    intro r D Γ Γ' hinv hc hrel
    rw [free] at hrel
    rw [Clear] at hc
    rw [f, substituted, nameless]
    exact equiv_two hR (equiv_group hR (substitutes_args hR hap es r D Γ Γ' hinv hc.1 hrel.left))
      (substitutes hR hap t r.inType D Γ Γ' hinv.inType hc.2 hrel.right.inType)
  | .eLetRec ds e => by
    intro r D Γ Γ' hinv hc hrel
    rw [free, List.filter_append] at hrel
    rw [Clear] at hc
    rw [f, substituted, nameless_letrec (mapMntvrDefs_length _ ds _ _)]
    simp only [mapMntvrDefs_eq, mapMntvr_under]
    have hg : Group r.trm.keys (idents (ds.map Def.var)) (idents (ds.map Def.var))
      ((mapMntvr eAp (idents (ds.map Def.var)) r (ds.map Def.var)).map Prod.fst) := mapMntvr_group _ r _ hc.1
    have hrhss := substitutes_rhss hR hap ds _ _ _ _ (hg.inv (fun _ h => h) hinv) hc.2.2.1
      (hg.rel (fun _ h => h) hinv hrel.right.left)
    rw [wh_under] at hrhss
    refine equiv_three hR (equiv_group hR ?_) (equiv_group hR hrhss)
      (substitutes_group (substitutes hR hap e) hc.1 hinv hc.2.2.2 hrel.right.right)
    have hbinders := substitutes_binders hR hap (idents (ds.map Def.var)) ds r D Γ Γ' hinv hc.2.1 hrel.left
    rwa [mapMntvrDefs_eq] at hbinders
  | .ePrim p es t => by
    intro r D Γ Γ' hinv hc hrel
    rw [free] at hrel
    rw [Clear] at hc
    rw [f, substituted, nameless]
    exact equiv_two hR (equiv_group hR (substitutes_args hR hap es r D Γ Γ' hinv hc.1 hrel.left))
      (substitutes hR hap t r.inType D Γ Γ' hinv.inType hc.2 hrel.right.inType)
  | .eError s t => by
    intro r D Γ Γ' hinv hc hrel
    rw [free] at hrel
    rw [Clear] at hc
    rw [f, substituted, nameless]
    exact equiv_one hR (substitutes hR hap t r.inType D Γ Γ' hinv.inType hc hrel.inType)
  | .eCase e t b as d => by
    intro r D Γ Γ' hinv hc hrel
    rw [free, List.filter_append] at hrel
    rw [Clear] at hc
    obtain ⟨hce, hct, hcb, hseen, hcas, hcd⟩ := hc
    have hch : Chosen r.trm.keys [] b.tvrIdent (ntvr eAp [] r b).1.tvrIdent := ntvr_chosen [] r b
    -- the binder of the case is not in the maps of the alternatives
    have hbind : b.tvrIdent ∈ freeAlts as → b.tvrIdent ∉ r.trm.keys ∧ ¬ Anonymous b.tvrIdent := fun hb =>
      ⟨fun hk => (hinv.known _ hk).elim (hseen hb).1 (hseen hb).2, (hseen hb).2⟩
    have halts := substitutes_alts hR hap as r D _ _ hinv hcas (hrel.right.left.push_untold hinv hbind)
    have hdefault := substitutes_default hR hap d _ _ _ _ (hinv.step hch) hcd (hrel.right.right.push hinv hch)
    rw [wh_step] at hdefault
    have hb' : (ntvr eAp [] r b).1.tvrIdent = pick [] b.tvrIdent r.trm := ntvr_ident [] r b
    rw [← hb'] at halts
    rw [f, substituted, nameless, ntvr_step]
    refine hR.node _ _ _ (.cons (substitutes hR hap e r D Γ Γ' hinv hce hrel.left.left.left)
      (.cons (substitutes hR hap t r.inType D Γ Γ' hinv.inType hct hrel.left.left.right.inType)
        (.cons (substitutes_type hR hap b r D Γ Γ' hinv hcb hrel.left.right [])
          (.cons (equiv_group hR halts) (.cons (equiv_group hR hdefault) .nil)))))

theorem substitutes_type (hR : Congruence R)
    (hap : ∀ Γ a b, R (nameless Γ (eAp a b)) (.node .ap [nameless Γ a, nameless Γ b])) :
    (t : TVr) → SubstitutesType eAp σ τ R t
  | .mk n t => by
    intro r D Γ Γ' hinv hc hrel vs
    rw [freeVar] at hrel
    rw [ClearVar] at hc
    rw [ntvr_run, namelessVar, substitutedVar]
    exact substitutes hR hap t r.inType D Γ Γ' hinv.inType hc hrel.inType

theorem substitutes_args (hR : Congruence R)
    (hap : ∀ Γ a b, R (nameless Γ (eAp a b)) (.node .ap [nameless Γ a, nameless Γ b])) :
    (es : List E) → ∀ (r : Maps) (D Γ Γ' : List Id), Inv D r → ClearArgs D es → Rel σ τ (freeArgs es) Γ Γ' r →
      List.Forall₂ R (namelessArgs Γ' (fs eAp r es)) (substitutedArgs σ τ r.wh Γ es)
  | [], r, D, Γ, Γ', _, _, _ => by
    rw [fs, namelessArgs, substitutedArgs]
    exact .nil
  | e :: es, r, D, Γ, Γ', hinv, hc, hrel => by
    rw [freeArgs] at hrel
    rw [ClearArgs] at hc
    rw [fs, namelessArgs, substitutedArgs]
    exact .cons (substitutes hR hap e r D Γ Γ' hinv hc.1 hrel.left)
      (substitutes_args hR hap es r D Γ Γ' hinv hc.2 hrel.right)

theorem substitutes_binders (hR : Congruence R)
    (hap : ∀ Γ a b, R (nameless Γ (eAp a b)) (.node .ap [nameless Γ a, nameless Γ b])) (vs : List Id) :
    (ds : List Def) → ∀ (r : Maps) (D Γ Γ' : List Id), Inv D r → ClearBinders D ds → Rel σ τ (freeBinders ds) Γ Γ' r →
      List.Forall₂ R (((mapMntvrDefs eAp vs r ds).map Prod.fst).map (namelessVar Γ')) (substitutedBinders σ τ Γ ds)
  | [], r, D, Γ, Γ', _, _, _ => by
    rw [mapMntvrDefs, substitutedBinders]
    exact .nil
  | .mk t e :: ds, r, D, Γ, Γ', hinv, hc, hrel => by
    rw [freeBinders, freeBinder] at hrel
    rw [ClearBinders, ClearBinder, Def.var] at hc
    have hch : Chosen r.trm.keys vs t.tvrIdent (ntvr eAp vs r t).1.tvrIdent := ntvr_chosen vs r t
    rw [mapMntvrDefs, ntvrDef, ntvr_step, substitutedBinders, substitutedBinder]
    refine .cons (substitutes_type hR hap t r D Γ Γ' hinv hc.1 hrel.left vs) ?_
    exact substitutes_binders hR hap vs ds _ _ Γ Γ' (hinv.step hch) hc.2.2 (hrel.right.skip hinv hch hc.2.1)

theorem substitutes_rhss (hR : Congruence R)
    (hap : ∀ Γ a b, R (nameless Γ (eAp a b)) (.node .ap [nameless Γ a, nameless Γ b])) :
    (ds : List Def) → ∀ (r : Maps) (D Γ Γ' : List Id), Inv D r → ClearRhss D ds → Rel σ τ (freeRhss ds) Γ Γ' r →
      List.Forall₂ R (namelessArgs Γ' (fRhss eAp r ds)) (substitutedRhss σ τ r.wh Γ ds)
  | [], r, D, Γ, Γ', _, _, _ => by
    rw [fRhss, namelessArgs, substitutedRhss]
    exact .nil
  | .mk t e :: ds, r, D, Γ, Γ', hinv, hc, hrel => by
    rw [freeRhss, freeRhs] at hrel
    rw [ClearRhss, ClearRhs] at hc
    rw [fRhss, fRhs, namelessArgs, substitutedRhss, substitutedRhs]
    exact .cons (substitutes hR hap e r D Γ Γ' hinv hc.1 hrel.left)
      (substitutes_rhss hR hap ds r D Γ Γ' hinv hc.2 hrel.right)

theorem substitutes_pattern (hR : Congruence R)
    (hap : ∀ Γ a b, R (nameless Γ (eAp a b)) (.node .ap [nameless Γ a, nameless Γ b])) (vs : List Id) :
    (ts : List TVr) → ∀ (r : Maps) (D Γ Γ' : List Id), Inv D r → ClearPattern D ts → Rel σ τ (freePattern ts) Γ Γ' r →
      List.Forall₂ R (namelessPattern Γ' ((mapMntvr eAp vs r ts).map Prod.fst)) (substitutedPattern σ τ Γ ts)
  | [], r, D, Γ, Γ', _, _, _ => by
    rw [mapMntvr, substitutedPattern]
    exact .nil
  | t :: ts, r, D, Γ, Γ', hinv, hc, hrel => by
    rw [freePattern] at hrel
    rw [ClearPattern] at hc
    have hch : Chosen r.trm.keys vs t.tvrIdent (ntvr eAp vs r t).1.tvrIdent := ntvr_chosen vs r t
    rw [mapMntvr, ntvr_step, List.map_cons, namelessPattern, substitutedPattern]
    refine .cons (substitutes_type hR hap t r D Γ Γ' hinv hc.1 hrel.left vs) ?_
    exact substitutes_pattern hR hap vs ts _ _ _ _ (hinv.step hch) hc.2 (hrel.right.push hinv hch)

theorem substitutes_alts (hR : Congruence R)
    (hap : ∀ Γ a b, R (nameless Γ (eAp a b)) (.node .ap [nameless Γ a, nameless Γ b])) :
    (as : List Alt) → ∀ (r : Maps) (D Γ Γ' : List Id), Inv D r → ClearAlts D as → Rel σ τ (freeAlts as) Γ Γ' r →
      List.Forall₂ R (namelessAlts Γ' (das eAp r as)) (substitutedAlts σ τ r.wh Γ as)
  | [], r, D, Γ, Γ', _, _, _ => by
    rw [das, namelessAlts, substitutedAlts]
    exact .nil
  | .litInt n t e :: as, r, D, Γ, Γ', hinv, hc, hrel => by
    rw [freeAlts, freeAlt] at hrel
    rw [ClearAlts, ClearAlt] at hc
    rw [das, da, namelessAlts, namelessAlt, substitutedAlts, substitutedAlt]
    exact .cons (equiv_two hR (substitutes hR hap t r.inType D Γ Γ' hinv.inType hc.1.1 hrel.left.left.inType)
      (substitutes hR hap e r D Γ Γ' hinv hc.1.2 hrel.left.right))
      (substitutes_alts hR hap as r D Γ Γ' hinv hc.2 hrel.right)
  | .litCons n xs t e :: as, r, D, Γ, Γ', hinv, hc, hrel => by
    rw [freeAlts, freeAlt] at hrel
    rw [ClearAlts, ClearAlt] at hc
    obtain ⟨⟨hct, hd, hcxs, hce⟩, hcas⟩ := hc
    rw [das, da, namelessAlts, namelessAlt, substitutedAlts, substitutedAlt]
    simp only [mapMntvr_under]
    exact .cons (equiv_three hR (substitutes hR hap t r.inType D Γ Γ' hinv.inType hct hrel.left.left.left.inType)
      (equiv_group hR (substitutes_pattern hR hap (idents xs) xs r D Γ Γ' hinv hcxs hrel.left.left.right))
      (substitutes_group (substitutes hR hap e) hd hinv hce hrel.left.right))
      (substitutes_alts hR hap as r D Γ Γ' hinv hcas hrel.right)

theorem substitutes_default (hR : Congruence R)
    (hap : ∀ Γ a b, R (nameless Γ (eAp a b)) (.node .ap [nameless Γ a, nameless Γ b])) :
    (d : Option E) → ∀ (r : Maps) (D Γ Γ' : List Id), Inv D r → ClearDefault D d → Rel σ τ (freeDefault d) Γ Γ' r →
      List.Forall₂ R (namelessDefault Γ' (fDefault eAp r d)) (substitutedDefault σ τ r.wh Γ d)
  | none, r, D, Γ, Γ', _, _, _ => by
    rw [fDefault, namelessDefault, substitutedDefault]
    exact .nil
  | some e, r, D, Γ, Γ', hinv, hc, hrel => by
    rw [freeDefault] at hrel
    rw [ClearDefault] at hc
    rw [fDefault, namelessDefault, substitutedDefault]
    exact .cons (substitutes hR hap e r D Γ Γ' hinv hc hrel) .nil

end

end TypeSubst

namespace Entries

variable {m : Entries} {x : Id} {e : E}

theorem mem_of_find (h : m.find x = some e) : (x, e) ∈ m := by
  unfold find at h
  obtain ⟨p, hp, rfl⟩ := Option.map_eq_some_iff.1 h
  have hx : p.1 = x := by simpa using List.find?_some hp
  rw [← hx]
  exact List.mem_of_find?_eq_some hp

theorem find_eq_none (h : x ∉ m.keys) : m.find x = none := by
  cases hf : m.find x with
  | none => rfl
  | some e => exact absurd (List.mem_map_of_mem (mem_of_find hf)) h

end Entries

/-- Every free variable is one that `freeVars` returns. -/
def Collected (e : E) : Prop := ∀ x ∈ free e, x ∈ freeIds e

/-- The names that are in the maps at the start. -/
def inScope (termSub typeSub : Entries) (e : E) : List Id := termSub.keys ++ tracked termSub typeSub e ++ typeSub.keys

namespace TypeSubst

variable {termSub typeSub : Entries} {e : E}

/-- What `typeSubst'` starts with. -/
def start (termSub typeSub : Entries) (e : E) : Maps :=
  ⟨false, ⟨(termSub.keys ++ tracked termSub typeSub e).toFinset ∪ typeSub.keys.toFinset,
    fun i => if i ∈ (termSub.keys ++ tracked termSub typeSub e).toFinset then termSub.find i else none⟩, typeSub.find⟩

theorem typeSubst'_eq (eAp : E → E → E) (h : ¬ (termSub = [] ∧ typeSub = [])) :
    typeSubst' eAp termSub typeSub e = f eAp (start termSub typeSub e) e := by
  unfold typeSubst' typeSubst
  rw [if_neg h, if_neg]
  · rfl
  · rintro ⟨hkeys, htype⟩
    rw [List.toFinset_eq_empty_iff, List.append_eq_nil_iff] at hkeys
    exact h ⟨List.map_eq_nil_iff.1 hkeys.1, htype⟩

theorem mem_keys_start {x : Id} : x ∈ (start termSub typeSub e).trm.keys ↔ x ∈ inScope termSub typeSub e := by
  unfold start inScope
  simp only [Finset.mem_union, List.mem_toFinset, List.mem_append]

theorem start_inv (hempty : .emptyId ∉ inScope termSub typeSub e) :
    Inv (inScope termSub typeSub e) (start termSub typeSub e) where
  empty := fun h => hempty (mem_keys_start.1 h)
  tp := fun _ hx => Entries.find_eq_none fun h => hx (mem_keys_start.2 (List.mem_append_right _ h))
  known := fun _ hx => .inl (mem_keys_start.1 hx)

theorem start_val (x : Id) : (start termSub typeSub e).trm.val x = termSub.find x := by
  refine ite_eq_left_iff.2 fun hn => ?_
  rw [List.mem_toFinset, List.mem_append, not_or] at hn
  exact (Entries.find_eq_none hn.1).symm

theorem start_put (w : Bool) (x : Id) :
    (start termSub typeSub e).put w x = image termSub.find typeSub.find w x := by
  cases w with
  | true => rfl
  | false =>
    unfold Maps.put Maps.look image VarMap.mlookup
    rw [if_neg Bool.false_ne_true, if_neg Bool.false_ne_true]
    split
    · next hx =>
      exact congrArg (Option.getD · _) (start_val x)
    · next hx =>
      rw [mem_keys_start, inScope, List.mem_append, List.mem_append, not_or, not_or] at hx
      rw [Entries.find_eq_none hx.1.1]
      rfl

/-- A free variable of what is put for a variable is tracked. -/
theorem free_image (hsub : ∀ p ∈ termSub ++ typeSub, Collected p.2) {w : Bool} {x y : Id}
    (hy : y ∈ free (image termSub.find typeSub.find w x)) : y ∈ tracked termSub typeSub e ∨ y = x := by
  have hvar : y ∈ free (.eVar (.mk x .unknown)) → y = x := by
    intro h
    rw [free, List.mem_singleton] at h
    exact h
  unfold image at hy
  unfold tracked
  simp only [List.mem_append, List.mem_flatMap]
  cases w with
  | true =>
    cases hf : typeSub.find x with
    | none => exact .inr (hvar (by simpa [hf] using hy))
    | some v =>
      have hmem := Entries.mem_of_find hf
      have hv : y ∈ free v := by simpa [hf] using hy
      exact .inl (.inr ⟨_, hmem, hsub _ (List.mem_append_right _ hmem) y hv⟩)
  | false =>
    cases hf : termSub.find x with
    | none => exact .inr (hvar (by simpa [hf] using hy))
    | some v =>
      have hmem := Entries.mem_of_find hf
      have hv : y ∈ free v := by simpa [hf] using hy
      exact .inl (.inl (.inr ⟨_, hmem, hsub _ (List.mem_append_left _ hmem) y hv⟩))

theorem start_rel (he : Collected e) (hsub : ∀ p ∈ termSub ++ typeSub, Collected p.2) :
    Rel termSub.find typeSub.find (free e) [] [] (start termSub typeSub e) := by
  have htracked : ∀ y ∈ tracked termSub typeSub e, y ∈ (start termSub typeSub e).trm.keys := fun y hy =>
    mem_keys_start.2 (List.mem_append_left _ (List.mem_append_right _ hy))
  intro x hx
  refine ⟨.inl (htracked x (List.mem_append_left _ (List.mem_append_left _ (he x hx)))), ?_⟩
  refine .free List.not_mem_nil (fun w => start_put w x) fun w y hy => ⟨List.not_mem_nil, ?_⟩
  rw [start_put] at hy
  exact (free_image hsub hy).imp_left (htracked y)

end TypeSubst

theorem congruence_eq {α β : Type} : Congruence (α := α) (β := β) Eq where
  equiv := ⟨Eq.refl, Eq.symm, Eq.trans⟩
  node := by
    intro l ts us h
    rw [List.forall₂_eq_eq_eq] at h
    rw [h]

open TypeSubst

/-- Outside of the alternatives that mention the binder of their case, `typeSubst'` returns the
term with what the substitutions have for its free variables. -/
theorem typeSubst'_substituted {eAp : E → E → E} {R : Skeleton Id Label → Skeleton Id Label → Prop} (hR : Congruence R)
    (hap : ∀ Γ a b, R (nameless Γ (eAp a b)) (.node .ap [nameless Γ a, nameless Γ b]))
    {termSub typeSub : Entries} {e : E} (he : Collected e) (hsub : ∀ p ∈ termSub ++ typeSub, Collected p.2)
    (hempty : .emptyId ∉ inScope termSub typeSub e) (hc : Clear (inScope termSub typeSub e) e) :
    R (nameless [] (typeSubst' eAp termSub typeSub e)) (substituted termSub.find typeSub.find false [] e) := by
  by_cases h : termSub = [] ∧ typeSub = []
  · have hfind : Entries.find [] = fun _ => none := rfl
    rw [h.1, h.2, hfind, substituted_none]
    unfold typeSubst'
    rw [if_pos ⟨rfl, rfl⟩]
    exact hR.equiv.refl _
  · rw [typeSubst'_eq eAp h]
    exact substitutes hR hap e _ _ [] [] (start_inv hempty) hc (start_rel he hsub)

/-- `\x4 -> x2`, with `x4` for `x2`. -/
theorem typeSubst'_renamed :
    nameless [] (typeSubst' .eAp [(.anonymous 2, .eVar (.mk (.anonymous 4) .unknown))] []
      (.eLam (.mk (.anonymous 4) .unknown) (.eVar (.mk (.anonymous 2) .unknown)))) =
    .node .lam [.node .unknown [], .var (.free (.anonymous 4))] := by
  refine (typeSubst'_substituted congruence_eq (fun _ _ _ => ?_) ?_ ?_ ?_ ?_).trans ?_
  · rw [nameless]
  · simp [Collected, free, freeVar, freeIds, freeIdsVar, TVr.tvrIdent]
  · simp [Collected, free, freeIds, TVr.tvrIdent]
  · simp [inScope, tracked, Entries.keys, freeIds, freeIdsVar, TVr.tvrIdent]
  · simp [Clear, ClearVar]
  · simp [substituted, substitutedVar, reference, ref, image, Entries.find, TVr.tvrIdent, nameless]

/-- `case x2 of x4 { 0 -> x4 }` -/
def boundCase : E :=
  .eCase (.eVar (.mk (.anonymous 2) .unknown)) .unknown (.mk (.anonymous 4) .unknown)
    [.litInt 0 .unknown (.eVar (.mk (.anonymous 4) .unknown))] none

/-- With `7` for an outer `x4`, the `x4` of the case becomes `7`. -/
theorem typeSubst'_shadowed :
    nameless [] (typeSubst' .eAp [(.anonymous 4, .eLitInt 7 .unknown)] [] boundCase) ≠
      substituted (Entries.find [(.anonymous 4, .eLitInt 7 .unknown)]) (Entries.find []) false [] boundCase := by
  rw [typeSubst'_eq .eAp (by simp)]
  simp [boundCase, f, das, da, fDefault, substituted, substitutedVar, substitutedAlts, substitutedAlt,
    substitutedDefault, nameless, namelessAlts, namelessAlt, namelessDefault, reference, ref, image, Entries.find,
    TVr.tvrIdent, Maps.look, start, VarMap.mlookup, Entries.keys, group]

end Jhc.E

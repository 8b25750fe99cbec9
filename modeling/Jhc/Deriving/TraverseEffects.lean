import Jhc.Deriving.TraverseFolds

/-!
# Derived Traversable is lawful

Whichever way a clause is generated, the fields in front of the first effect are put back, then
the effects run from left to right, and their results go where the effects stood.
-/

namespace Jhc.Deriving.Traverse

/-! ### Effects among values -/

section Sequence

variable {Z : Type} {G : Type → Type} [Applicative G] [LawfulApplicative G]

/-- The values as they are, and the results of the effects. -/
def runActs (acts : List (Z ⊕ G Z)) : G (List Z) := traverse (Sum.elim pure id) acts

/-- The results of the effects put among the values. -/
def merge {E : Type} : List (Z ⊕ E) → List Z → List Z
  | [], _ => []
  | .inl z :: acts, zs => z :: merge acts zs
  | .inr _ :: acts, z :: zs => z :: merge acts zs
  | .inr _ :: _, [] => []

theorem runActs_nil : runActs ([] : List (Z ⊕ G Z)) = pure [] := rfl

theorem runActs_cons (x : Z ⊕ G Z) (acts : List (Z ⊕ G Z)) :
    runActs (x :: acts) = List.cons <$> Sum.elim pure id x <*> runActs acts := by
  simp only [runActs, List.traverse_cons]

theorem runActs_inl (z : Z) (acts : List (Z ⊕ G Z)) :
    runActs (.inl z :: acts) = (z :: ·) <$> runActs acts := by
  simp only [runActs_cons, Sum.elim_inl, map_pure, pure_seq]

theorem runActs_inr (a : G Z) (acts : List (Z ⊕ G Z)) :
    runActs (.inr a :: acts) = List.cons <$> a <*> runActs acts := by
  simp only [runActs_cons, Sum.elim_inr, id_eq]

theorem runActs_append_inl (zs : List Z) (acts : List (Z ⊕ G Z)) :
    runActs (zs.map .inl ++ acts) = (zs ++ ·) <$> runActs acts := by
  induction zs with
  | nil => simp
  | cons z zs ih =>
    rw [List.map_cons, List.cons_append, runActs_inl, ih, ← comp_map]
    rfl

def sequenceL (as : List (G Z)) : G (List Z) := traverse id as

theorem sequenceL_cons (a : G Z) (as : List (G Z)) : sequenceL (a :: as) = List.cons <$> a <*> sequenceL as := by
  simp only [sequenceL, List.traverse_cons, id_eq]

/-- The effects first, then everything in its place. -/
theorem merge_sequence (acts : List (Z ⊕ G Z)) : merge acts <$> sequenceL (rights acts) = runActs acts := by
  induction acts with
  | nil =>
    rw [runActs_nil]
    exact map_pure _ _
  | cons x acts ih =>
    cases x with
    | inl z =>
      rw [runActs_inl, ← ih, ← comp_map]
      rfl
    | inr a =>
      have hrights : rights (.inr a :: acts) = a :: rights acts := rfl
      rw [runActs_inr, ← ih, hrights, sequenceL_cons]
      simp only [functor_norm]
      rfl

/-- As many results as effects. -/
theorem sequenceL_length (as : List (G Z)) :
    ∃ A : G {zs : List Z // zs.length = as.length}, Subtype.val <$> A = sequenceL as := by
  induction as with
  | nil =>
    refine ⟨pure ⟨[], rfl⟩, ?_⟩
    exact map_pure _ _
  | cons a as ih =>
    obtain ⟨A, hA⟩ := ih
    refine ⟨(fun z zs => ⟨z :: zs.1, by rw [List.length_cons, zs.2, List.length_cons]⟩) <$> a <*> A, ?_⟩
    rw [sequenceL_cons, ← hA]
    simp only [functor_norm]
    rfl

theorem map_sequenceL {Y : Type} (as : List (G Z)) {k k' : List Z → Y}
    (h : ∀ zs : List Z, zs.length = as.length → k zs = k' zs) : k <$> sequenceL as = k' <$> sequenceL as := by
  obtain ⟨A, hA⟩ := sequenceL_length as
  rw [← hA, ← comp_map, ← comp_map]
  congr 1
  funext zs
  exact h zs.1 zs.2

/-- Whichever way a clause goes, it is the constructor applied to what the fields become. -/
theorem map_places {Y : Type} (k : List Z → Y) (zs : List Z) (acts : List (Z ⊕ G Z)) :
    k <$> runActs (zs.map .inl ++ acts) = (fun ys => k (zs ++ merge acts ys)) <$> sequenceL (rights acts) := by
  rw [runActs_append_inl, ← merge_sequence, ← comp_map, ← comp_map]
  rfl

end Sequence

variable {F : HsType → Type → Type} {O : HsType → Type} {fv : Name} {d : DataDecl} {A B C : Type}
  {G : Type → Type} [Applicative G] [∀ x, Traversable (F x)]

/-! ### The traversal -/

def Field.traverse (f : A → G B) {t : HsType} : Field F O fv A t → G (Field F O fv B t)
  | elem a => elem <$> f a
  | cont x h c => cont x h <$> Traversable.traverse f c
  | other t h o => pure (other t h o)

def Fields.traverse (f : A → G B) {ts : List HsBangType} : Fields F O fv A ts → G (Fields F O fv B ts)
  | nil => pure nil
  | cons y ys => cons <$> y.traverse f <*> ys.traverse f

def Val.traverse (f : A → G B) (v : Val F O fv d A) : G (Val F O fv d B) :=
  (fun ys => ⟨v.body, v.mem, ys⟩) <$> v.fields.traverse f

/-- A field is an effect, or it is put back. -/
def Field.act (f : A → G B) {t : HsType} : Field F O fv A t → AnyField F O fv B ⊕ G (AnyField F O fv B)
  | elem a => .inr ((fun b => ⟨_, elem b⟩) <$> f a)
  | cont x h c => .inr ((fun c' => ⟨_, cont x h c'⟩) <$> Traversable.traverse f c)
  | other t h o => .inl ⟨t, other t h o⟩

def Fields.acts (f : A → G B) {ts : List HsBangType} :
    Fields F O fv A ts → List (AnyField F O fv B ⊕ G (AnyField F O fv B))
  | nil => []
  | cons y ys => y.act f :: ys.acts f

section Laws

variable [LawfulApplicative G]

attribute [local grind =] Fields.traverse

theorem Field.act_traverse (f : A → G B) {t : HsType} (y : Field F O fv A t) :
    Sum.elim pure id (y.act f) = (fun z => (⟨t, z⟩ : AnyField F O fv B)) <$> y.traverse f := by
  cases y with
  | elem a =>
    rw [act, traverse, ← comp_map]
    rfl
  | cont x h c =>
    rw [act, traverse, ← comp_map]
    rfl
  | other t h o => exact (map_pure _ _).symm

theorem Fields.runActs_acts (f : A → G B) {ts : List HsBangType} (ys : Fields F O fv A ts) :
    runActs (ys.acts f) = toList <$> ys.traverse f := by
  induction ys with
  | nil =>
    rw [traverse, map_pure]
    rfl
  | cons y ys ih =>
    rw [acts, runActs_cons, Field.act_traverse, ih, traverse]
    simp only [functor_norm]
    rfl

end Laws

theorem Field.id_traverse [∀ x, LawfulTraversable (F x)] {t : HsType} (y : Field F O fv A t) :
    y.traverse (pure : A → Id A) = pure y := by
  cases y with
  | elem a => rfl
  | cont x h c =>
    rw [traverse, LawfulTraversable.id_traverse]
    rfl
  | other t h o => rfl

theorem Fields.id_traverse [∀ x, LawfulTraversable (F x)] {ts : List HsBangType} (ys : Fields F O fv A ts) :
    ys.traverse (pure : A → Id A) = pure ys := by
  induction ys with
  | nil => rfl
  | cons y ys ih =>
    rw [traverse, ih, Field.id_traverse]
    rfl

section Comp

variable {H : Type → Type} [Applicative H] [LawfulApplicative G] [LawfulApplicative H]
  [∀ x, LawfulTraversable (F x)]

theorem Field.comp_traverse (f : B → G C) (g : A → H B) {t : HsType} (y : Field F O fv A t) :
    y.traverse (Functor.Comp.mk ∘ Functor.map f ∘ g) =
      Functor.Comp.mk ((fun z => z.traverse f) <$> y.traverse g) := by
  cases y with
  | elem a => simp only [traverse, functor_norm, Function.comp_def]
  | cont x h c =>
    rw [traverse, LawfulTraversable.comp_traverse]
    simp only [traverse, functor_norm]
  | other t h o =>
    simp only [traverse, functor_norm]
    rfl

theorem Fields.comp_traverse (f : B → G C) (g : A → H B) {ts : List HsBangType} (ys : Fields F O fv A ts) :
    ys.traverse (Functor.Comp.mk ∘ Functor.map f ∘ g) =
      Functor.Comp.mk ((fun zs => zs.traverse f) <$> ys.traverse g) := by
  induction ys with
  | nil =>
    simp only [traverse, functor_norm]
    rfl
  | cons y ys ih =>
    rw [traverse, ih, Field.comp_traverse]
    simp only [traverse, functor_norm, Function.comp_def]

end Comp

/-! ### The order of the effects -/

section Order

variable {M : Type} [Monoid M] [∀ x, Foldable (F x)]

theorem Field.const_traverse (f : A → M)
    (hconst : ∀ x (c : F x A),
      (Traversable.traverse (m := Functor.Const M) (fun a => (.mk (f a) : Functor.Const M B)) c).run =
        ((Traverse.elements c).map f).prod) {t : HsType} (y : Field F O fv A t) :
    (y.traverse (G := Functor.Const M) (fun a => (.mk (f a) : Functor.Const M B))).run =
      (y.elements.map f).prod := by
  cases y with
  | elem a => exact (mul_one (f a)).symm
  | cont x h c => exact hconst x c
  | other t h o => rfl

theorem Fields.const_traverse (f : A → M)
    (hconst : ∀ x (c : F x A),
      (Traversable.traverse (m := Functor.Const M) (fun a => (.mk (f a) : Functor.Const M B)) c).run =
        ((Traverse.elements c).map f).prod) {ts : List HsBangType} (ys : Fields F O fv A ts) :
    (ys.traverse (G := Functor.Const M) (fun a => (.mk (f a) : Functor.Const M B))).run =
      (ys.elements.map f).prod := by
  induction ys with
  | nil => rfl
  | cons y ys ih =>
    rw [elements, List.map_append, List.prod_append, ← ih, ← Field.const_traverse f hconst y]
    rfl

end Order

/-! ### What the parts of a clause denote -/

theorem travInterp_app (top : TravSem F O fv A B G) : (travInterp top).app = TravSem.app := rfl

/-- The expressions of a field are what it becomes. -/
def Acts (top : TravSem F O fv A B G) (c : FieldCases (HsExp ⊕ HsExp)) (emb : AnyField F O fv A → TravSem F O fv A B G)
    (f : A → G B) (ρ : List (Name × TravSem F O fv A B G)) : Prop :=
  ∀ (t : HsType) (y : Field F O fv A t) (p : Name), ρ.lookup p = some (emb ⟨t, y⟩) →
    Sum.LiftRel (fun e z => ∀ k, TravSem.app (.build k) (denote (travInterp top) ρ e) = .build (k.give z))
      (fun e a => denote (travInterp top) ρ e = .eff a) (ofField c (.HsVar p) y) (y.act f)

theorem acts_traverse {g : A → G B} {ρ : List (Name × TravSem F O fv A B G)} {f : Name}
    (hf : ρ.lookup f = some (.fn g))
    (hfunc : denote (travInterp .undefined) ρ (.HsVar v_traverse) = .method v_traverse) :
    Acts .undefined (traversableCases v_traverse (.HsVar f)) .src g ρ := by
  intro t y p hp
  have hfe := denote_local (travInterp .undefined) hf
  have hpe := denote_local (travInterp .undefined) hp
  cases y with
  | elem a =>
    refine .inr ?_
    rw [if_pos rfl, denote_app, hfe, hpe]
    rfl
  | cont x h c =>
    refine .inr ?_
    rw [if_pos rfl, app2, denote_app, denote_app, hfunc, hfe, hpe, travInterp_app, TravSem.app, if_pos rfl]
    rfl
  | other t h o =>
    refine .inl fun k => ?_
    rw [hpe]
    rfl

theorem acts_sequenceA {ρ : List (Name × TravSem F O fv (G B) B G)} {fe : HsExp}
    (hfunc : denote (travInterp (.onCont fun _ c => sequence c)) ρ (.HsVar v_sequenceA) =
      .onCont fun _ c => sequence c) :
    Acts (.onCont fun _ c => sequence c) (traversableCases v_sequenceA fe) asEffect id ρ := by
  intro t y p hp
  have hpe := denote_local (travInterp (.onCont fun _ c => sequence c)) hp
  have hne : v_sequenceA ≠ v_traverse := by decide
  cases y with
  | elem e =>
    refine .inr ?_
    rw [if_neg hne, hpe]
    rfl
  | cont x h c =>
    refine .inr ?_
    rw [if_neg hne, denote_app, hfunc, hpe]
    rfl
  | other t h o =>
    refine .inl fun k => ?_
    rw [hpe]
    rfl

section Parts

variable {top : TravSem F O fv A B G} {W : List (Name × TravSem F O fv A B G) → Prop}

/-- What an expression is for a field that is put back, in every environment. -/
def Kept (top : TravSem F O fv A B G) (W : List (Name × TravSem F O fv A B G) → Prop) (e : HsExp)
    (z : AnyField F O fv B) : Prop :=
  ∀ ρ, W ρ → ∀ k, TravSem.app (.build k) (denote (travInterp top) ρ e) = .build (k.give z)

def Effect (top : TravSem F O fv A B G) (W : List (Name × TravSem F O fv A B G) → Prop) (e : HsExp)
    (a : G (AnyField F O fv B)) : Prop :=
  ∀ ρ, W ρ → denote (travInterp top) ρ e = .eff a

theorem items_fields {c : FieldCases (HsExp ⊕ HsExp)} {emb : AnyField F O fv A → TravSem F O fv A B G} {f : A → G B}
    {ρ₀ : List (Name × TravSem F O fv A B G)} (hρ₀ : W ρ₀) (hacts : ∀ ρ, W ρ → Acts top c emb f ρ)
    {ts : List HsBangType} (ys : Fields F O fv A ts) {ns : List Name}
    (hns : ∀ ρ, W ρ → List.Forall₂ (fun n s => ρ.lookup n = some s) ns (ys.toList.map emb)) :
    List.Forall₂ (Sum.LiftRel (Kept top W) (Effect top W)) (ofFields c (ns.map .HsVar) ys) (ys.acts f) := by
  induction ys generalizing ns with
  | nil =>
    cases hns ρ₀ hρ₀
    exact .nil
  | cons y ys ih =>
    cases hns ρ₀ hρ₀ with
    | @cons n _ ns _ hn hns' =>
      refine .cons ?_ (ih fun ρ hρ => (List.forall₂_cons.1 (hns ρ hρ)).2)
      have hitem := fun ρ hρ => hacts ρ hρ _ y n (List.forall₂_cons.1 (hns ρ hρ)).1
      -- which side it is does not depend on the environment
      generalize ofField c (.HsVar n) y = x at hitem ⊢
      generalize y.act f = a at hitem ⊢
      cases hitem ρ₀ hρ₀ with
      | inl h =>
        refine .inl fun ρ hρ => ?_
        obtain ⟨hkept⟩ := hitem ρ hρ
        exact hkept
      | inr h =>
        refine .inr fun ρ hρ => ?_
        obtain _ | ⟨heff⟩ := hitem ρ hρ
        exact heff

theorem pullLeft_items {X Y : Type} {Q : HsExp → X → Prop} {R : HsExp → Y → Prop} {as : List (HsExp ⊕ HsExp)}
    {acts : List (X ⊕ Y)} (h : List.Forall₂ (Sum.LiftRel Q R) as acts) (rs : List HsExp) :
    ∃ ls zs acts', (pullLeft as rs).1 = rs.reverse ++ ls ∧ acts = zs.map .inl ++ acts' ∧ List.Forall₂ Q ls zs ∧
      List.Forall₂ (Sum.LiftRel Q R) (pullLeft as rs).2 acts' ∧ ∀ e xs, (pullLeft as rs).2 ≠ .inl e :: xs := by
  induction h generalizing rs with
  | nil => exact ⟨[], [], [], (List.append_nil _).symm, rfl, .nil, .nil, fun e xs hxs => by cases hxs⟩
  | @cons x a as acts hx has ih =>
    cases hx with
    | @inl e z hez =>
      obtain ⟨ls, zs, acts', hls, rfl, hkept, hrest, hhead⟩ := ih (e :: rs)
      refine ⟨e :: ls, z :: zs, acts', ?_, rfl, .cons hez hkept, hrest, hhead⟩
      rw [pullLeft, hls, List.reverse_cons, List.append_assoc]
      rfl
    | @inr e a hea =>
      exact ⟨[], [], _, (List.append_nil _).symm, rfl, .nil, .cons (.inr hea) has, fun e xs hxs => by cases hxs⟩

theorem rights_items {X Y : Type} {Q : HsExp → X → Prop} {R : HsExp → Y → Prop} {xs : List (HsExp ⊕ HsExp)}
    {acts : List (X ⊕ Y)} (h : List.Forall₂ (Sum.LiftRel Q R) xs acts) : List.Forall₂ R (rights xs) (rights acts) := by
  induction h with
  | nil => exact .nil
  | cons hx _ ih =>
    cases hx with
    | inl _ => exact ih
    | inr h => exact .cons h ih

variable {ρ : List (Name × TravSem F O fv A B G)}

theorem denote_kept (hρ : W ρ) {ls : List HsExp} {zs : List (AnyField F O fv B)}
    (h : List.Forall₂ (Kept top W) ls zs) {e : HsExp} {k : Build F O fv B}
    (he : denote (travInterp top) ρ e = .build k) :
    denote (travInterp top) ρ (ls.foldl .HsApp e) = .build fun ys => k (zs ++ ys) := by
  induction h generalizing e k with
  | nil => exact he
  | @cons l z ls zs hl _ ih =>
    rw [List.foldl_cons]
    refine ih (k := k.give z) ?_
    rw [denote_app, he, travInterp_app, hl ρ hρ]

variable [LawfulApplicative G]

theorem denote_effects (hρ : W ρ)
    (hlstar : denote (travInterp top) ρ (.HsVar v_lstar) = .method v_lstar) {es : List HsExp}
    {as : List (G (AnyField F O fv B))} (h : List.Forall₂ (Effect top W) es as) {e : HsExp}
    {E : G (Build F O fv B)} (he : denote (travInterp top) ρ e = .effBuild E) :
    ∃ E', denote (travInterp top) ρ (es.foldl (app2 (.HsVar v_lstar)) e) = .effBuild E' ∧
      (fun k : Build F O fv B => k []) <$> E' = (fun k zs => k zs) <$> E <*> sequenceL as := by
  induction h generalizing e E with
  | nil =>
    refine ⟨E, he, ?_⟩
    rw [sequenceL, List.traverse_nil, seq_pure, ← comp_map]
    rfl
  | @cons e' a es as he' _ ih =>
    rw [List.foldl_cons]
    have hstep : denote (travInterp top) ρ (app2 (.HsVar v_lstar) e e') = .effBuild (Build.give <$> E <*> a) := by
      rw [app2, denote_app, denote_app, hlstar, he, he' ρ hρ, travInterp_app, TravSem.app, if_pos rfl]
      rfl
    obtain ⟨E', hden, hE'⟩ := ih hstep
    refine ⟨E', hden, hE'.trans ?_⟩
    rw [sequenceL_cons]
    simp only [functor_norm]
    rfl

theorem denote_appxs (hρ : W ρ) (hlstar : denote (travInterp top) ρ (.HsVar v_lstar) = .method v_lstar)
    (hfmap : denote (travInterp top) ρ (.HsVar v_fmap) = .method v_fmap) {xs : List (HsExp ⊕ HsExp)}
    {acts : List (AnyField F O fv B ⊕ G (AnyField F O fv B))}
    (h : List.Forall₂ (Sum.LiftRel (Kept top W) (Effect top W)) xs acts) (hne : xs ≠ [])
    (hhead : ∀ e xs', xs ≠ .inl e :: xs') {bv : HsExp} {k : Build F O fv B}
    (hbv : denote (travInterp top) ρ bv = .build k) :
    ∃ E, denote (travInterp top) ρ (appxs bv xs) = .effBuild E ∧
      (fun k' : Build F O fv B => k' []) <$> E = k <$> sequenceL (rights acts) := by
  cases h with
  | nil => exact absurd rfl hne
  | @cons x a xs acts hx hxs =>
    cases hx with
    | @inl e _ _ => exact absurd rfl (hhead e xs)
    | @inr e a hea =>
      have hfirst : denote (travInterp top) ρ (app2 (.HsVar v_fmap) bv e) = .effBuild (k.give <$> a) := by
        rw [app2, denote_app, denote_app, hfmap, hbv, hea ρ hρ, travInterp_app, TravSem.app, if_pos rfl]
        rfl
      obtain ⟨E, hden, hE⟩ := denote_effects hρ hlstar (rights_items hxs) hfirst
      refine ⟨E, hden, hE.trans ?_⟩
      have hrights : rights (.inr a :: acts) = a :: rights acts := rfl
      rw [hrights, sequenceL_cons]
      simp only [functor_norm]
      rfl

end Parts

/-! ### The local function -/

section Local

variable {top : TravSem F O fv A B G} {W : List (Name × TravSem F O fv A B G) → Prop}
  {ρ : List (Name × TravSem F O fv A B G)}

/-- The variables of the results. -/
def rightNames (vs : List Name) (xs : List (HsExp ⊕ HsExp)) : List Name :=
  (vs.zip xs).filterMap fun x => x.2.getRight?.map fun _ => x.1

theorem rightNames_sublist (vs : List Name) (xs : List (HsExp ⊕ HsExp)) : (rightNames vs xs).Sublist vs := by
  induction vs generalizing xs with
  | nil => exact .slnil
  | cons v vs ih =>
    cases xs with
    | nil => exact List.nil_sublist _
    | cons x xs =>
      cases x with
      | inl e => exact (ih xs).cons v
      | inr e => exact (ih xs).cons_cons v

theorem rightNames_length {vs : List Name} {xs : List (HsExp ⊕ HsExp)} (h : vs.length = xs.length) :
    (rightNames vs xs).length = (rights xs).length := by
  induction vs generalizing xs with
  | nil =>
    obtain rfl := List.length_eq_zero_iff.1 h.symm
    rfl
  | cons v vs ih =>
    cases xs with
    | nil => cases h
    | cons x xs =>
      cases x with
      | inl e => exact ih (Nat.succ_inj.1 h)
      | inr e => exact congrArg Nat.succ (ih (Nat.succ_inj.1 h))

theorem denote_merge (hρ : W ρ) {xs : List (HsExp ⊕ HsExp)}
    {acts : List (AnyField F O fv B ⊕ G (AnyField F O fv B))}
    (h : List.Forall₂ (Sum.LiftRel (Kept top W) (Effect top W)) xs acts) {vs : List Name}
    (hlen : vs.length = xs.length) {ys : List (AnyField F O fv B)}
    (hvs : List.Forall₂ (fun n y => ρ.lookup n = some (.tgt y)) (rightNames vs xs) ys) {e : HsExp} {k : Build F O fv B}
    (he : denote (travInterp top) ρ e = .build k) :
    denote (travInterp top) ρ ((List.zipWith (fun n x => x.elim id fun _ => .HsVar n) vs xs).foldl .HsApp e) =
      .build fun zs => k (merge acts ys ++ zs) := by
  induction h generalizing vs ys e k with
  | nil =>
    obtain rfl := List.length_eq_zero_iff.1 hlen
    exact he
  | @cons x a xs acts hx _ ih =>
    cases vs with
    | nil => cases hlen
    | cons v vs =>
      rw [List.zipWith_cons_cons, List.foldl_cons]
      cases hx with
      | @inl l z hl =>
        refine ih (Nat.succ_inj.1 hlen) hvs (k := k.give z) ?_
        rw [denote_app, he, travInterp_app]
        exact hl ρ hρ k
      | @inr l a _ =>
        cases hvs with
        | @cons _ y _ ys hv hvs =>
          refine ih (Nat.succ_inj.1 hlen) hvs (k := k.give y) ?_
          have hvar : denote (travInterp top) ρ (.HsVar v) = .tgt y := denote_local _ hv
          rw [denote_app, he, travInterp_app]
          exact congrArg (TravSem.app (.build k)) hvar

/-- The local function puts the results among the fields. -/
theorem localFun_gMatch {ns : List Name} {ss : List (TravSem F O fv A B G)} (hρ : Binds ρ ns ss)
    {xs : List (HsExp ⊕ HsExp)} {acts : List (AnyField F O fv B ⊕ G (AnyField F O fv B))}
    (h : List.Forall₂ (Sum.LiftRel (Kept top fun ρ => Binds ρ ns ss) (Effect top fun ρ => Binds ρ ns ss)) xs acts)
    {vs : List Name} (hlen : vs.length = xs.length) (hnodup : vs.Nodup) (hmod : ∀ v ∈ vs, v.modName = [])
    (hvs : ∀ v ∈ vs, v ∉ ns) {bval : HsExp} {k : Build F O fv B}
    (hbval : ∀ ρ, Binds ρ ns ss → denote (travInterp top) ρ bval = .build k) (g : Name) :
    ∃ kg : Build F O fv B, localFun (travInterp top) ρ (gMatch g bval vs xs) = (g, .build kg) ∧
      ∀ ys : List (AnyField F O fv B), ys.length = (rights acts).length → kg ys = k (merge acts ys) := by
  refine ⟨_, rfl, fun ys hys => ?_⟩
  have hpats : (gMatch g bval vs xs).hsMatchPats = (rightNames vs xs).map .HsPVar := by
    simp only [gMatch, rightNames, List.map_filterMap, Option.map_map]
    rfl
  have hcount : (rightNames vs xs).length = ys.length := by
    rw [hys, rightNames_length hlen]
    exact (rights_items h).length_eq
  have hyslen : ys.length = (gMatch g bval vs xs).hsMatchPats.length := by
    rw [hpats, List.length_map, hcount]
  have hbind : bindFields (gMatch g bval vs xs).hsMatchPats (ys.map (TravSem.tgt (A := A) (G := G))) =
      some ((rightNames vs xs).zip (ys.map .tgt)) := by
    rw [hpats]
    exact bindFields_vars (by rw [List.length_map, hcount])
  have hsub := rightNames_sublist vs xs
  have hmem : ∀ x ∈ (rightNames vs xs).zip (ys.map (TravSem.tgt (A := A) (G := G))), x.1 ∈ vs :=
    fun x hx => hsub.subset (List.of_mem_zip hx).1
  have hgood : Binds ((rightNames vs xs).zip (ys.map .tgt) ++ ρ) ns ss :=
    hρ.append (fun x hx => hmod _ (hmem x hx)) fun x hx => hvs _ (hmem x hx)
  have hresults : List.Forall₂ (fun n y => ((rightNames vs xs).zip (ys.map (TravSem.tgt (A := A) (G := G))) ++ ρ).lookup n =
      some (TravSem.tgt (A := A) (G := G) y)) (rightNames vs xs) ys := by
    have hcount' : (ys.map (TravSem.tgt (A := A) (G := G))).length = (rightNames vs xs).length := by
      rw [List.length_map, hcount]
    have hzip := lookup_zip (hsub.nodup hnodup) hcount'
    rw [List.forall₂_map_right_iff] at hzip
    refine hzip.imp fun n y hn => ?_
    rw [List.lookup_append, hn, Option.some_or]
  have hden := denote_merge hgood h hlen hresults (hbval _ hgood)
  simp only [if_pos hyslen, hbind]
  change (denote (travInterp top) _ _).pureResult = _
  rw [gMatch, hden, TravSem.pureResult, List.append_nil]

end Local

/-! ### The clause of a constructor -/

section Clause

variable [LawfulApplicative G]

theorem merge_rights {Z E : Type} {acts : List (Z ⊕ E)} (h : acts.all Sum.isRight = true) {ys : List Z}
    (hys : ys.length = (rights acts).length) : merge acts ys = ys := by
  induction acts generalizing ys with
  | nil => exact (List.length_eq_zero_iff.1 hys).symm
  | cons a acts ih =>
    cases a with
    | inl z => cases h
    | inr a =>
      cases ys with
      | nil => cases hys
      | cons y ys => rw [merge, ih h (Nat.succ_inj.1 hys)]

theorem isRight_items {X Y : Type} {Q : HsExp → X → Prop} {R : HsExp → Y → Prop} {xs : List (HsExp ⊕ HsExp)}
    {acts : List (X ⊕ Y)} (h : List.Forall₂ (Sum.LiftRel Q R) xs acts) :
    acts.all Sum.isRight = xs.all Sum.isRight := by
  induction h with
  | nil => rfl
  | cons hx _ ih =>
    rw [List.all_cons, List.all_cons, ih]
    cases hx <;> rfl

theorem v_effects_modName : v_traverse.modName ≠ [] ∧ v_sequenceA.modName ≠ [] ∧ v_fmap.modName ≠ [] ∧
    v_lstar.modName ≠ [] ∧ v_pure.modName ≠ [] := by
  decide

theorem denote_method {top : TravSem F O fv A B G} {ρ : List (Name × TravSem F O fv A B G)} {ns : List Name}
    {ss : List (TravSem F O fv A B G)} (hρ : Binds ρ ns ss) {n : Name} (hn : n.modName ≠ []) (hne : n ≠ v_sequenceA) :
    denote (travInterp top) ρ (.HsVar n) = .method n := by
  rw [denote_global _ hρ hn]
  simp only [travInterp, if_neg hne]

theorem result_eq {c : Name} {zs : List (AnyField F O fv B)} {acts : List (AnyField F O fv B ⊕ G (AnyField F O fv B))}
    {E : G (Build F O fv B)} {k : Build F O fv B} (hE : (fun k' : Build F O fv B => k' []) <$> E = k <$> sequenceL (rights acts))
    (hk : ∀ ys : List (AnyField F O fv B), ys.length = (rights acts).length → k ys = some ⟨c, zs ++ merge acts ys⟩) :
    (TravSem.effBuild E : TravSem F O fv A B G).result =
      some ((fun zs => some ⟨c, zs⟩) <$> runActs (zs.map .inl ++ acts)) := by
  rw [TravSem.result, hE, map_places]
  exact congrArg some (map_sequenceL _ hk)

/-- The fields in front of the first effect are given to the constructor, and `xs` are the rest. -/
def Parts (top : TravSem F O fv A B G) (ns : List Name) (ss : List (TravSem F O fv A B G)) (c : Name) (rs : List HsExp)
    (xs : List (HsExp ⊕ HsExp)) (acts : List (AnyField F O fv B ⊕ G (AnyField F O fv B))) : Prop :=
  ∃ zs acts', acts = zs.map .inl ++ acts' ∧
    (∀ ρ, Binds ρ ns ss →
      denote (travInterp top) ρ (rs.foldl .HsApp (.HsCon c)) = .build fun ys => some ⟨c, zs ++ ys⟩) ∧
    List.Forall₂ (Sum.LiftRel (Kept top fun ρ => Binds ρ ns ss) (Effect top fun ρ => Binds ρ ns ss)) xs acts' ∧
    ∀ e xs', xs ≠ .inl e :: xs'

theorem parts_pullLeft {top : TravSem F O fv A B G} {ns : List Name} {ss : List (TravSem F O fv A B G)}
    {as : List (HsExp ⊕ HsExp)} {acts : List (AnyField F O fv B ⊕ G (AnyField F O fv B))}
    (h : List.Forall₂ (Sum.LiftRel (Kept top fun ρ => Binds ρ ns ss) (Effect top fun ρ => Binds ρ ns ss)) as acts)
    (c : Name) : Parts top ns ss c (pullLeft as []).1 (pullLeft as []).2 acts := by
  obtain ⟨ls, zs, acts', hls, hacts, hkept, hrest, hhead⟩ := pullLeft_items h []
  refine ⟨zs, acts', hacts, fun ρ hρ => ?_, hrest, hhead⟩
  rw [hls, List.reverse_nil, List.nil_append]
  have hcon : denote (travInterp top) ρ (.HsCon c) = .build fun ys => some ⟨c, ys⟩ := rfl
  exact denote_kept (W := fun ρ => Binds ρ ns ss) hρ hkept hcon

section Strategies

variable {top : TravSem F O fv A B G} {ns : List Name} {ss : List (TravSem F O fv A B G)} {c : Name}
  {rs : List HsExp} {xs : List (HsExp ⊕ HsExp)} {acts : List (AnyField F O fv B ⊕ G (AnyField F O fv B))}
  {ρ : List (Name × TravSem F O fv A B G)} (hparts : Parts top ns ss c rs xs acts) (hρ : Binds ρ ns ss)
include hparts hρ

theorem result_pure (hxs : xs = []) :
    (denote (travInterp top) ρ (.HsApp (.HsVar v_pure) (rs.foldl .HsApp (.HsCon c)))).result =
      some ((fun zs => some ⟨c, zs⟩) <$> runActs acts) := by
  obtain ⟨zs, acts', rfl, hbval, hrest, -⟩ := hparts
  rw [hxs] at hrest
  obtain rfl := List.forall₂_nil_left_iff.1 hrest
  have hden : denote (travInterp top) ρ (.HsApp (.HsVar v_pure) (rs.foldl .HsApp (.HsCon c))) =
      .effBuild (pure fun ys => some ⟨c, zs ++ ys⟩) := by
    rw [denote_app, hbval ρ hρ, denote_method hρ v_effects_modName.2.2.2.2 (by decide), travInterp_app,
      TravSem.app, if_neg (by decide), if_pos rfl]
  rw [hden]
  refine result_eq (k := fun ys => some ⟨c, zs ++ ys⟩) ?_ fun ys hys => ?_
  · have hnone : sequenceL (rights ([] : List (AnyField F O fv B ⊕ G (AnyField F O fv B)))) = pure [] := rfl
    rw [hnone, map_pure, map_pure]
  · rw [List.length_eq_zero_iff.1 hys]
    rfl

theorem result_appxs (hne : xs ≠ []) (hall : xs.all Sum.isRight = true) :
    (denote (travInterp top) ρ (appxs (rs.foldl .HsApp (.HsCon c)) xs)).result =
      some ((fun zs => some ⟨c, zs⟩) <$> runActs acts) := by
  obtain ⟨zs, acts', rfl, hbval, hrest, hhead⟩ := hparts
  obtain ⟨E, hden, hE⟩ := denote_appxs (W := fun ρ => Binds ρ ns ss) hρ
    (denote_method hρ v_effects_modName.2.2.2.1 (by decide)) (denote_method hρ v_effects_modName.2.2.1 (by decide))
    hrest hne hhead (hbval ρ hρ)
  rw [hden]
  refine result_eq hE fun ys hys => ?_
  rw [merge_rights ((isRight_items hrest).trans hall) hys]

theorem result_local (hne : xs ≠ []) {g : Name} (hg : g.modName = []) (hgns : g ∉ ns) {vs : List Name}
    (hlen : vs.length = xs.length) (hnodup : vs.Nodup) (hmod : ∀ v ∈ vs, v.modName = []) (hvs : ∀ v ∈ vs, v ∉ ns) :
    (denote (travInterp top) ([localFun (travInterp top) ρ (gMatch g (rs.foldl .HsApp (.HsCon c)) vs xs)] ++ ρ)
      (appxs (.HsVar g) xs)).result = some ((fun zs => some ⟨c, zs⟩) <$> runActs acts) := by
  obtain ⟨zs, acts', rfl, hbval, hrest, hhead⟩ := hparts
  obtain ⟨kg, hlocal, hkg⟩ := localFun_gMatch hρ hrest hlen hnodup hmod hvs hbval g
  have hgood : Binds ([(g, TravSem.build kg)] ++ ρ) ns ss :=
    hρ.append (List.forall_mem_singleton.2 hg) (List.forall_mem_singleton.2 hgns)
  have hvar : denote (travInterp top) ([(g, TravSem.build kg)] ++ ρ) (.HsVar g) = .build kg :=
    denote_local _ (by rw [List.cons_append, List.lookup_cons_self])
  obtain ⟨E, hden, hE⟩ := denote_appxs (W := fun ρ => Binds ρ ns ss) hgood
    (denote_method hgood v_effects_modName.2.2.2.1 (by decide))
    (denote_method hgood v_effects_modName.2.2.1 (by decide)) hrest hne hhead hvar
  rw [hlocal, hden]
  exact result_eq hE hkg

end Strategies

theorem freshVar_not_mem_heads {c : Char} (hf : c ≠ 'f') (hp : c ≠ 'p') (P : Prop) [Decidable P] (w u u' k : ℕ) :
    freshVar c w ∉ heads P u ++ pvars u' k := by
  rw [List.mem_append, not_or]
  exact ⟨fun h => freshVar_ne hf w u (mem_heads P u h), freshVar_not_mem hp w u' k⟩

theorem traversableRhs_head (func : Name) (pats : List HsPat) (c : Name) (as : List (HsExp ⊕ HsExp)) :
    Quiet (traversableRhs func pats c as) fun m => m.hsMatchName = func ∧ m.hsMatchPats = pats := by
  unfold traversableRhs
  dsimp only
  split
  · exact Quiet.pure ⟨rfl, rfl⟩
  · split
    · exact Quiet.pure ⟨rfl, rfl⟩
    · exact Quiet.fresh (P := fun _ => True) (fun _ => trivial) fun g _ =>
        Quiet.fresh (P := fun _ => True) (fun _ => trivial) fun vs _ => Quiet.pure ⟨rfl, rfl⟩

theorem traversableMatch_name (func : Name) (b : Body HsBangType) :
    Quiet (traversableMatch func fv b) fun m => m.hsMatchName = func := by
  unfold traversableMatch
  refine quiet_head b fun u u' => ?_
  exact (dtFields_quiet (F := fun _ _ => Unit) (O := fun _ => Unit) (A := Unit) (traversableCases func _) b _).bind
    (fun as _ => (traversableRhs_head func _ _ as).mono fun _ h => h.1)
    fun as => (traversableRhs_head func _ _ as).mono fun _ _ => trivial

theorem traversableRhs_quiet {top : TravSem F O fv A B G} {func c : Name} {P : Prop} [Decidable P] {u u' k : ℕ}
    {ss : List (TravSem F O fv A B G)} {pats : List HsPat} {as : List (HsExp ⊕ HsExp)}
    {ρ : List (Name × TravSem F O fv A B G)} (hρ : Binds ρ (heads P u ++ pvars u' k) ss)
    {acts : List (AnyField F O fv B ⊕ G (AnyField F O fv B))}
    (h : List.Forall₂ (Sum.LiftRel (Kept top fun ρ => Binds ρ (heads P u ++ pvars u' k) ss)
      (Effect top fun ρ => Binds ρ (heads P u ++ pvars u' k) ss)) as acts) :
    Quiet (traversableRhs func pats c as) fun m =>
      (runClause (travInterp top) ρ m).result = some ((fun zs => some ⟨c, zs⟩) <$> runActs acts) := by
  have hparts := parts_pullLeft h c
  unfold traversableRhs
  dsimp only
  split
  · exact Quiet.pure (result_pure hparts hρ (List.isEmpty_iff.1 ‹_›))
  · rename_i hne
    rw [List.isEmpty_iff] at hne
    split
    · exact Quiet.pure (result_appxs hparts hρ hne ‹_›)
    · refine Quiet.fresh (P := fun g => ∃ w, g = freshVar 'g' w) (fun w => ⟨w, rfl⟩) fun g hg => ?_
      obtain ⟨w, rfl⟩ := hg
      refine Quiet.fresh (P := fun vs => ∃ w', vs = freshVars 'v' w' (pullLeft as []).2.length)
        (fun w' => ⟨w', by rw [newVars_run]⟩) fun vs hvs => ?_
      obtain ⟨w', rfl⟩ := hvs
      have hv : ∀ v ∈ freshVars 'v' w' (pullLeft as []).2.length, ∃ i, v = freshVar 'v' i := by
        intro v hmem
        obtain ⟨i, -, hi⟩ := List.mem_map.1 hmem
        exact ⟨i, hi.symm⟩
      refine Quiet.pure (result_local hparts hρ hne rfl
        (freshVar_not_mem_heads (by decide) (by decide) P w u u' k) (freshVars_length _ _ _) (freshVars_nodup _ _ _)
        (fun v hmem => ?_) fun v hmem => ?_)
      · obtain ⟨i, rfl⟩ := hv v hmem
        rfl
      · obtain ⟨i, rfl⟩ := hv v hmem
        exact freshVar_not_mem_heads (by decide) (by decide) P i u u' k

theorem traversableRhs_reads {top : TravSem F O fv A B G} {func : Name} {P : Prop} [Decidable P] {u u' : ℕ}
    {φs : List (TravSem F O fv A B G)} {emb : AnyField F O fv A → TravSem F O fv A B G} {f : A → G B}
    {c : FieldCases (HsExp ⊕ HsExp)} {b : Body HsBangType} (hheads : φs.length = (heads P u).length)
    (hacts : ∀ ns ss ρ, Binds ρ (heads P u ++ ns) (φs ++ ss) → Acts top c emb f ρ) {as : List (HsExp ⊕ HsExp)}
    (has : ∀ ys : Fields F O fv A b.types, as = ofFields c ((pvars u' b.types.length).map .HsVar) ys) {pats : List HsPat}
    (hpats : pats = (heads P u).map .HsPVar ++ [.HsPApp b.constructor ((pvars u' b.types.length).map .HsPVar)]) :
    Quiet (traversableRhs func pats b.constructor as) (Reads (travInterp top) φs emb b fun ys s =>
      s.result = some ((fun zs => some ⟨b.constructor, zs⟩) <$> runActs (ys.acts f))) := by
  have hhead := traversableRhs_head func pats b.constructor as
  have hruns (x : {x : Fields F O fv A b.types × List (Name × TravSem F O fv A B G) //
      Binds x.2 (heads P u ++ pvars u' b.types.length) (φs ++ x.1.toList.map emb)}) :
      Quiet (traversableRhs func pats b.constructor as) fun m => (runClause (travInterp top) x.1.2 m).result =
        some ((fun zs => some ⟨b.constructor, zs⟩) <$> runActs (x.1.1.acts f)) := by
    have hitems := items_fields x.2 (hacts _ _) x.1.1 fun ρ hρ => (hρ.split hheads).2
    rw [← has x.1.1] at hitems
    exact traversableRhs_quiet x.2 hitems
  refine (hhead.and (Quiet.forall (hhead.mono fun _ _ => trivial) hruns)).mono fun m hm => ?_
  exact reads_of_pats _ hheads (heads_nodup P u u' b.types.length) (fun f hf => by rw [mem_heads _ u hf]; rfl)
    (hm.1.2.trans hpats) fun ρ ys hρ => hm.2 ⟨(ys, ρ), hρ⟩

theorem traversableMatch_quiet {top : TravSem F O fv A B G} {func : Name} {φs : List (TravSem F O fv A B G)}
    {emb : AnyField F O fv A → TravSem F O fv A B G} {f : A → G B} (b : Body HsBangType)
    (hlen : φs.length = if func = v_traverse then 1 else 0)
    (hacts : ∀ u ns ss ρ, Binds ρ (heads (func = v_traverse) u ++ ns) (φs ++ ss) →
      Acts top (traversableCases func (.HsVar (freshVar 'f' u))) emb f ρ) :
    Quiet (traversableMatch func fv b) (Reads (travInterp top) φs emb b fun ys s =>
      s.result = some ((fun zs => some ⟨b.constructor, zs⟩) <$> runActs (ys.acts f))) := by
  unfold traversableMatch
  refine quiet_head b fun u u' => ?_
  refine (dtFields_quiet (F := F) (O := O) (A := A) (traversableCases func _) b _).bind (fun as has => ?_)
    fun as => (traversableRhs_head func _ _ as).mono fun _ _ => trivial
  exact traversableRhs_reads (hlen.trans (heads_length (func = v_traverse) u).symm) (hacts u) has (heads_pats _ u _)

end Clause

end Jhc.Deriving.Traverse

import Jhc.Deriving.TraverseEffects

/-!
# When a derived instance is lawful

From the clauses to the methods, and from the methods to the laws. A derived instance
that was generated without a warning is lawful, unless it is a Traversable for a type
without constructors: that has the function of Foldable.
-/

namespace Jhc.Deriving.Traverse
open Jhc.Text (Str)

/-! ### The names of the clauses -/

variable {F : HsType → Type → Type} {O : HsType → Type} {fv : Name} {d : DataDecl} {A B C M : Type}

theorem functorMatch_name (func : Name) (b : Body HsBangType) :
    Quiet (functorMatch func fv b) fun m => m.hsMatchName = func := by
  unfold functorMatch
  refine quiet_head b fun u u' => ?_
  exact (dtFields_quiet (F := fun _ _ => Unit) (O := fun _ => Unit) (A := Unit) (functorCases func _) b _).bind
    (fun as _ => Quiet.pure rfl) fun as => Quiet.pure trivial

theorem foldableMatch_name (func : Name) (b : Body HsBangType) :
    Quiet (foldableMatch func fv b) fun m => m.hsMatchName = func := by
  unfold foldableMatch
  refine quiet_head b fun u u' => ?_
  exact (dtFields_quiet (F := fun _ _ => Unit) (O := fun _ => Unit) (A := Unit) (foldableCases func _) b _).bind
    (fun as _ => Quiet.pure rfl) fun as => Quiet.pure trivial

/-! ### What is generated -/

section Generated

variable {der : Derive} {mod : Str} {rest : List Name}

theorem deriveFunctor_quiet (hvars : d.vars.reverse = fv :: rest) (hbody : d.body ≠ [])
    {P P' : Body HsBangType → HsClause → Prop} (hP : ∀ b, Quiet (functorMatch v_fmap fv b) (P b))
    (hP' : ∀ b, Quiet (functorMatch v_fmap_const fv b) (P' b)) :
    Quiet (deriveFunctor der mod d) (Generates der d v_fmap v_fmap_const P P') := by
  obtain ⟨b, bs, hbs⟩ := List.exists_cons_of_ne_nil hbody
  unfold deriveFunctor
  rw [hvars, hbs]
  dsimp only
  rw [← hbs]
  exact generates_quiet (by decide) hbody functorMatch_name hP hP' _

theorem deriveFoldable_quiet (hvars : d.vars.reverse = fv :: rest) (hbody : d.body ≠ [])
    {P P' : Body HsBangType → HsClause → Prop} (hP : ∀ b, Quiet (foldableMatch v_foldMap fv b) (P b))
    (hP' : ∀ b, Quiet (foldableMatch v_fold fv b) (P' b)) :
    Quiet (deriveFoldable der mod d) (Generates der d v_foldMap v_fold P P') := by
  obtain ⟨b, bs, hbs⟩ := List.exists_cons_of_ne_nil hbody
  unfold deriveFoldable
  rw [hvars, hbs]
  dsimp only
  rw [← hbs]
  exact generates_quiet (by decide) hbody foldableMatch_name hP hP' _

theorem deriveTraversable_quiet (hvars : d.vars.reverse = fv :: rest) (hbody : d.body ≠ [])
    {P P' : Body HsBangType → HsClause → Prop} (hP : ∀ b, Quiet (traversableMatch v_traverse fv b) (P b))
    (hP' : ∀ b, Quiet (traversableMatch v_sequenceA fv b) (P' b)) :
    Quiet (deriveTraversable der mod d) (Generates der d v_traverse v_sequenceA P P') := by
  obtain ⟨b, bs, hbs⟩ := List.exists_cons_of_ne_nil hbody
  unfold deriveTraversable
  rw [hvars, hbs]
  dsimp only
  rw [← hbs]
  exact generates_quiet (by decide) hbody traversableMatch_name hP hP' _

/-- Without parameters there is a warning. -/
theorem vars_of_quiet (cls : Derivable) {u : ℕ} (h : (derive cls der mod d (u, [])).2.2 = []) :
    ∃ fv rest, d.vars.reverse = fv :: rest := by
  cases hvars : d.vars.reverse with
  | cons fv rest => exact ⟨fv, rest, rfl⟩
  | nil =>
    have hend := (mkInstN_quiet (d := d) 1 der mod none []).mono fun _ _ => trivial
    exfalso
    cases cls with
    | functor =>
      rw [derive, deriveFunctor, hvars] at h
      exact (quiet_warned (P := fun _ => False) hend _ h).2
    | foldable =>
      rw [derive, deriveFoldable, hvars] at h
      exact (quiet_warned (P := fun _ => False) hend _ h).2
    | traversable =>
      rw [derive, deriveTraversable, hvars] at h
      exact (quiet_warned (P := fun _ => False) hend _ h).2

end Generated

/-! ### Functor -/

section Functor

variable [∀ x, Functor (F x)] [∀ x, LawfulFunctor (F x)]

theorem Field.map_id {t : HsType} (y : Field F O fv A t) : y.map id = y := by
  cases y with
  | elem a => rfl
  | cont x h c => rw [map, id_map]
  | other t h o => rfl

theorem Fields.map_id {ts : List HsBangType} (ys : Fields F O fv A ts) : ys.map id = ys := by
  induction ys with
  | nil => rfl
  | cons y ys ih => rw [map, Field.map_id, ih]

theorem Field.map_comp (f : A → B) (g : B → C) {t : HsType} (y : Field F O fv A t) :
    y.map (g ∘ f) = (y.map f).map g := by
  cases y with
  | elem a => rfl
  | cont x h c => rw [map, map, map, comp_map]
  | other t h o => rfl

theorem Fields.map_comp (f : A → B) (g : B → C) {ts : List HsBangType} (ys : Fields F O fv A ts) :
    ys.map (g ∘ f) = (ys.map f).map g := by
  induction ys with
  | nil => rfl
  | cons y ys ih =>
    rw [map, Field.map_comp, ih]
    rfl

variable {der : Derive} {mod : Str} {rest : List Name} {u : ℕ} (hvars : d.vars.reverse = fv :: rest)
  (hd : (d.body.map Body.constructor).Nodup) (hclean : (deriveFunctor der mod d (u, [])).2.2 = [])
include hvars hd hclean

theorem callFmap_derived (f : A → B) (v : Val F O fv d A) :
    callFmap (method (deriveFunctor der mod d (u, [])).1 v_fmap) f v.term = some (v.map f).term := by
  have hmaps : Maps v_fmap (.fn f : MapSem F O fv A B) f := maps_fmap f
  have hgen := (deriveFunctor_quiet hvars (List.ne_nil_of_mem v.mem) (functorMatch_quiet hmaps)
    fun b => (functorMatch_name v_fmap_const b).mono fun _ _ => trivial) _ hclean
  exact callFun_reads hgen.2.first hd v.mem v.fields _

theorem callFmapConst_derived (b : B) (v : Val F O fv d A) :
    callFmapConst (method (deriveFunctor der mod d (u, [])).1 v_fmap_const) b v.term =
      some (v.map fun _ => b).term := by
  have hmaps : Maps v_fmap_const (.tgt ⟨_, .elem b⟩ : MapSem F O fv A B) fun _ => b := maps_fmap_const b
  have hgen := (deriveFunctor_quiet hvars (List.ne_nil_of_mem v.mem)
    (fun b => (functorMatch_name v_fmap b).mono fun _ _ => trivial) (functorMatch_quiet hmaps)) _ hclean
  exact callFun_reads hgen.2.second hd v.mem v.fields _

end Functor

theorem functorLaws_derived {der : Derive} {mod : Str} {rest : List Name} {u : ℕ} (hvars : d.vars.reverse = fv :: rest)
    (hd : (d.body.map Body.constructor).Nodup) (hclean : (deriveFunctor der mod d (u, [])).2.2 = []) :
    FunctorLaws fv d (deriveFunctor der mod d (u, [])).1 := by
  intro F O _ _
  refine ⟨fun f v => v.map f, fun f v => callFmap_derived hvars hd hclean f v,
    fun b v => callFmapConst_derived hvars hd hclean b v, fun v => ?_, fun f g v => ?_⟩
  · change Val.map id v = v
    rw [Val.map, Fields.map_id]
  · change Val.map (g ∘ f) v = _
    rw [Val.map, Fields.map_comp]
    rfl

/-! ### Foldable -/

section Foldable

variable [∀ x, Functor (F x)] [∀ x, Foldable (F x)] [∀ x, LawfulFoldable (F x)] [Monoid M]

/-- Folding what was mapped. -/
theorem Field.elements_map (f : A → M) {t : HsType} (y : Field F O fv A t) :
    ((y.map f).elements.map id).prod = (y.elements.map f).prod := by
  cases y with
  | elem a => rfl
  | cont x h c =>
    rw [map, elements, ← LawfulFoldable.foldMap_elements, LawfulFoldable.foldMap_map,
      LawfulFoldable.foldMap_elements]
    rfl
  | other t h o => rfl

theorem Fields.elements_map (f : A → M) {ts : List HsBangType} (ys : Fields F O fv A ts) :
    ((ys.map f).elements.map id).prod = (ys.elements.map f).prod := by
  induction ys with
  | nil => rfl
  | cons y ys ih =>
    rw [map, elements, List.map_append, List.prod_append, Field.elements_map, ih, elements, List.map_append,
      List.prod_append]

variable {der : Derive} {mod : Str} {rest : List Name} {u : ℕ} (hvars : d.vars.reverse = fv :: rest)
  (hd : (d.body.map Body.constructor).Nodup) (hclean : (deriveFoldable der mod d (u, [])).2.2 = [])
include hvars hd hclean

theorem callFoldMap_derived (f : A → M) (v : Val F O fv d A) :
    callFoldMap (method (deriveFoldable der mod d (u, [])).1 v_foldMap) f v.term =
      some (v.fields.elements.map f).prod := by
  have hmatch (b : Body HsBangType) : Quiet (foldableMatch v_foldMap fv b) (Reads (foldInterp .undefined) [.fn f] .src b
      fun ys (s : FoldSem F O fv A M) => s.result = some (ys.elements.map f).prod) := by
    refine foldableMatch_quiet b rfl fun u ns ss ρ hρ => ?_
    obtain ⟨hf, -⟩ := List.forall₂_cons.1 hρ.each
    refine folds_foldMap hf ?_
    rw [denote_global _ hρ v_names_modName.2.2.1]
    rfl
  have hgen := (deriveFoldable_quiet hvars (List.ne_nil_of_mem v.mem) hmatch
    fun b => (foldableMatch_name v_fold b).mono fun _ _ => trivial) _ hclean
  exact callFun_reads hgen.2.first hd v.mem v.fields _

theorem callFold_derived (v : Val F O fv d M) :
    callFold (method (deriveFoldable der mod d (u, [])).1 v_fold) v.term =
      some (v.fields.elements.map id).prod := by
  have hmatch (b : Body HsBangType) : Quiet (foldableMatch v_fold fv b)
      (Reads (foldInterp (.onCont fun _ c => Foldable.fold c)) [] asMonoid b
        fun ys (s : FoldSem F O fv M M) => s.result = some (ys.elements.map id).prod) := by
    refine foldableMatch_quiet b rfl fun u ns ss ρ hρ => folds_fold ?_
    rw [denote_global _ hρ v_names_modName.2.2.2.1]
    rfl
  have hgen := (deriveFoldable_quiet hvars (List.ne_nil_of_mem v.mem)
    (fun b => (foldableMatch_name v_foldMap b).mono fun _ _ => trivial) hmatch) _ hclean
  exact callFun_reads hgen.2.second hd v.mem v.fields _

end Foldable

theorem foldableLaws_derived {der : Derive} {mod : Str} {rest : List Name} {u : ℕ} (hvars : d.vars.reverse = fv :: rest)
    (hd : (d.body.map Body.constructor).Nodup) (hclean : (deriveFoldable der mod d (u, [])).2.2 = []) :
    FoldableLaws fv d (deriveFoldable der mod d (u, [])).1 := by
  intro F O _ _ _ _ A M _ f v
  have hfoldMap := callFoldMap_derived hvars hd hclean f v
  refine ⟨hfoldMap, fun der' mod' u' hclean' => ⟨_, callFmap_derived hvars hd hclean' f v, ?_⟩⟩
  rw [callFold_derived hvars hd hclean (v.map f), hfoldMap]
  exact congrArg some (Fields.elements_map f v.fields)

/-! ### Traversable -/

section Traversable

variable {G : Type → Type} [Applicative G] [LawfulApplicative G] [∀ x, Traversable (F x)]

/-- The results of the traversal of a constructor. -/
theorem Val.traverse_term (f : A → G B) (v : Val F O fv d A) :
    (fun zs => some (⟨v.body.constructor, zs⟩ : Term F O fv B)) <$> runActs (v.fields.acts f) =
      (fun w : Val F O fv d B => some w.term) <$> v.traverse f := by
  rw [Fields.runActs_acts, Val.traverse, ← comp_map, ← comp_map]
  rfl

variable {der : Derive} {mod : Str} {rest : List Name} {u : ℕ} (hvars : d.vars.reverse = fv :: rest)
  (hd : (d.body.map Body.constructor).Nodup) (hclean : (deriveTraversable der mod d (u, [])).2.2 = [])
include hvars hd hclean

theorem callTraverse_derived (f : A → G B) (v : Val F O fv d A) :
    callTraverse (method (deriveTraversable der mod d (u, [])).1 v_traverse) f v.term =
      some ((fun w : Val F O fv d B => some w.term) <$> v.traverse f) := by
  have hmatch (b : Body HsBangType) : Quiet (traversableMatch v_traverse fv b)
      (Reads (travInterp .undefined) [.fn f] .src b fun ys (s : TravSem F O fv A B G) =>
        s.result = some ((fun zs => some ⟨b.constructor, zs⟩) <$> runActs (ys.acts f))) := by
    refine traversableMatch_quiet b rfl fun u ns ss ρ hρ => ?_
    obtain ⟨hf, -⟩ := List.forall₂_cons.1 hρ.each
    exact acts_traverse hf (denote_method hρ v_effects_modName.1 (by decide))
  have hgen := (deriveTraversable_quiet hvars (List.ne_nil_of_mem v.mem) hmatch
    fun b => (traversableMatch_name v_sequenceA b).mono fun _ _ => trivial) _ hclean
  rw [← Val.traverse_term]
  exact callFun_reads hgen.2.first hd v.mem v.fields _

theorem callSequenceA_derived (v : Val F O fv d (G B)) :
    callSequenceA (method (deriveTraversable der mod d (u, [])).1 v_sequenceA) v.term =
      some ((fun w : Val F O fv d B => some w.term) <$> v.traverse id) := by
  have hmatch (b : Body HsBangType) : Quiet (traversableMatch v_sequenceA fv b)
      (Reads (travInterp (.onCont fun _ c => sequence c)) [] asEffect b fun ys (s : TravSem F O fv (G B) B G) =>
        s.result = some ((fun zs => some ⟨b.constructor, zs⟩) <$> runActs (ys.acts id))) := by
    refine traversableMatch_quiet b rfl fun u ns ss ρ hρ => acts_sequenceA ?_
    rw [denote_global _ hρ v_effects_modName.2.1]
    rfl
  have hgen := (deriveTraversable_quiet hvars (List.ne_nil_of_mem v.mem)
    (fun b => (traversableMatch_name v_traverse b).mono fun _ _ => trivial) hmatch) _ hclean
  rw [← Val.traverse_term]
  exact callFun_reads hgen.2.second hd v.mem v.fields _

end Traversable

theorem traversableLaws_derived {der : Derive} {mod : Str} {rest : List Name} {u : ℕ}
    (hvars : d.vars.reverse = fv :: rest) (hd : (d.body.map Body.constructor).Nodup)
    (hclean : (deriveTraversable der mod d (u, [])).2.2 = []) :
    TraversableLaws fv d (deriveTraversable der mod d (u, [])).1 := by
  intro F O _ _ _ _ hconst
  refine ⟨fun f v => v.traverse f, fun f v => callTraverse_derived hvars hd hclean f v,
    fun v => callSequenceA_derived hvars hd hclean v, fun v => ?_, fun f g v => ?_, fun {A B M} _ f v => ?_⟩
  · change v.traverse (pure : _ → Id _) = _
    rw [Val.traverse, Fields.id_traverse]
    rfl
  · change v.traverse (Functor.Comp.mk ∘ Functor.map f ∘ g) = Functor.Comp.mk ((fun w => w.traverse f) <$> v.traverse g)
    rw [Val.traverse, Fields.comp_traverse]
    simp only [Val.traverse, functor_norm]
  · refine Fields.const_traverse (B := B) f (fun x c => ?_) v.fields
    rw [hconst, LawfulFoldable.foldMap_elements]

/-! ### The methods of the class -/

section Methods

variable {der : Derive} {mod : Str} {rest : List Name} {cls : Derivable} (hcls : der.deriveHead.hsClassHead = cls.className)
include hcls

theorem definesMethods_of_generates {n : Name} {P P' : Body HsBangType → HsClause → Prop} {i : HsInstDecl}
    (hbody : d.body ≠ []) (hn : n ∈ cls.methods) (hmain : cls.main ∈ cls.methods) (h : Generates der d cls.main n P P' i) :
    DefinesMethods cls i where
  head := h.head.trans hcls
  methods ms hms m hm := by
    obtain hname | hname := h.names ms hms m hm
    · rw [hname]
      exact hmain
    · rw [hname]
      exact hn
  main := by
    intro hnil
    have hfirst := h.first
    rw [hnil] at hfirst
    exact hbody (List.forall₂_nil_right_iff.1 hfirst)

theorem definesMethods_functor (hc : cls = .functor) (hvars : d.vars.reverse = fv :: rest) {u : ℕ}
    (hclean : (deriveFunctor der mod d (u, [])).2.2 = []) :
    DefinesMethods cls (deriveFunctor der mod d (u, [])).1 := by
  subst hc
  cases hbody : d.body with
  | nil =>
    have hgen : Quiet (deriveFunctor der mod d) (DefinesMethods .functor) := by
      unfold deriveFunctor
      rw [hvars, hbody]
      refine Quiet.fresh (P := fun _ => True) (fun _ => trivial) fun x _ => (mkInstN_quiet 1 der mod _ _).mono fun i hi => ?_
      refine ⟨hi.1.trans hcls, ?_, ?_⟩
      · rw [hi.2]
        simp [Derivable.methods]
      · simp [method, hi.2, Derivable.main]
    exact (hgen _ hclean).2
  | cons b bs =>
    have hne : d.body ≠ [] := by
      rw [hbody]
      exact List.cons_ne_nil b bs
    have hgen := (deriveFunctor_quiet hvars hne (fun b => (functorMatch_name v_fmap b).mono fun _ _ => trivial)
      fun b => (functorMatch_name v_fmap_const b).mono fun _ _ => trivial) _ hclean
    exact definesMethods_of_generates hcls hne (by decide) (by decide) hgen.2

theorem definesMethods_foldable (hc : cls = .foldable) (hvars : d.vars.reverse = fv :: rest) {u : ℕ}
    (hclean : (deriveFoldable der mod d (u, [])).2.2 = []) :
    DefinesMethods cls (deriveFoldable der mod d (u, [])).1 := by
  subst hc
  cases hbody : d.body with
  | nil =>
    have hgen : Quiet (deriveFoldable der mod d) (DefinesMethods .foldable) := by
      unfold deriveFoldable
      rw [hvars, hbody]
      refine (mkInstN_quiet 1 der mod _ _).mono fun i hi => ⟨hi.1.trans hcls, ?_, ?_⟩
      · rw [hi.2]
        simp [emptyFun, Derivable.methods]
      · simp [method, hi.2, Derivable.main, emptyFun]
    exact (hgen _ hclean).2
  | cons b bs =>
    have hne : d.body ≠ [] := by
      rw [hbody]
      exact List.cons_ne_nil b bs
    have hgen := (deriveFoldable_quiet hvars hne (fun b => (foldableMatch_name v_foldMap b).mono fun _ _ => trivial)
      fun b => (foldableMatch_name v_fold b).mono fun _ _ => trivial) _ hclean
    exact definesMethods_of_generates hcls hne (by decide) (by decide) hgen.2

/-- The one clause of an empty type is not of the class. -/
theorem definesMethods_traversable (hc : cls = .traversable) (hvars : d.vars.reverse = fv :: rest) {u : ℕ}
    (hclean : (deriveTraversable der mod d (u, [])).2.2 = []) :
    DefinesMethods cls (deriveTraversable der mod d (u, [])).1 ↔ d.body ≠ [] := by
  subst hc
  refine ⟨fun hdef hbody => ?_, fun hne => ?_⟩
  · have hgen : Quiet (deriveTraversable der mod d) fun i => i.hsDeclDecls = [emptyFun] := by
      unfold deriveTraversable
      rw [hvars, hbody]
      exact (mkInstN_quiet 1 der mod _ _).mono fun i hi => hi.2
    have hmem := hdef.methods emptyFun (by rw [(hgen _ hclean).2]; exact List.mem_singleton_self _) _
      (List.mem_singleton_self _)
    revert hmem
    decide
  · have hgen := (deriveTraversable_quiet hvars hne (fun b => (traversableMatch_name v_traverse b).mono fun _ _ => trivial)
      fun b => (traversableMatch_name v_sequenceA b).mono fun _ _ => trivial) _ hclean
    exact definesMethods_of_generates hcls hne (by decide) (by decide) hgen.2

end Methods

/-! ### Lawful instances -/

/-- What is derived without a warning is lawful, but for a Traversable of a type without constructors. -/
theorem derive_lawful_iff (cls : Derivable) (der : Derive) (mod : Str) (d : DataDecl) (u : ℕ)
    (hcls : der.deriveHead.hsClassHead = cls.className) (hd : (d.body.map Body.constructor).Nodup)
    (hclean : (derive cls der mod d (u, [])).2.2 = []) :
    Lawful cls d (derive cls der mod d (u, [])).1 ↔ (cls = .traversable → d.body ≠ []) := by
  obtain ⟨fv, rest, hvars⟩ := vars_of_quiet cls hclean
  have hlast : ∀ v ∈ d.vars.getLast?, v = fv := by
    intro v hv
    rw [List.getLast?_eq_head?_reverse, hvars] at hv
    exact (Option.some.inj hv).symm
  cases cls with
  | functor =>
    refine iff_of_true ⟨definesMethods_functor hcls rfl hvars hclean, fun v hv => ?_⟩ fun h => by cases h
    rw [hlast v hv]
    exact functorLaws_derived hvars hd hclean
  | foldable =>
    refine iff_of_true ⟨definesMethods_foldable hcls rfl hvars hclean, fun v hv => ?_⟩ fun h => by cases h
    rw [hlast v hv]
    exact foldableLaws_derived hvars hd hclean
  | traversable =>
    refine ⟨fun h _ => (definesMethods_traversable hcls rfl hvars hclean).1 h.1, fun h => ⟨?_, fun v hv => ?_⟩⟩
    · exact (definesMethods_traversable hcls rfl hvars hclean).2 (h rfl)
    · rw [hlast v hv]
      exact traversableLaws_derived hvars hd hclean

/-! ### A declaration with and without constructors -/

def nameA : Name := ⟨[], "a".toList⟩

def traversableHead : Derive where
  deriveHead := ⟨[], class_Traversable, [.HsTyCon ⟨"M".toList, "T".toList⟩]⟩
  standAlone := false

/-- `data T a = A Int a (Maybe a) | B` -/
def withFields : DataDecl where
  name := ⟨"M".toList, "T".toList⟩
  vars := [nameA]
  body := [
    { constructor := ⟨"M".toList, "A".toList⟩
      labels := []
      types := [.HsUnBangedTy (.HsTyCon ⟨"Jhc.Prim.Prim".toList, "Int".toList⟩), .HsUnBangedTy (.HsTyVar nameA),
        .HsBangedTy (.HsTyApp (.HsTyCon ⟨"Jhc.Maybe".toList, "Maybe".toList⟩) (.HsTyVar nameA))] },
    { constructor := ⟨"M".toList, "B".toList⟩, labels := [], types := [] }]

/-- `data T a` -/
def withoutFields : DataDecl := { withFields with body := [] }

theorem withFields_lawful :
    Lawful .traversable withFields
      (derive .traversable traversableHead "M".toList withFields (1, [])).1 :=
  (derive_lawful_iff .traversable traversableHead "M".toList withFields 1 rfl (by decide) rfl).2 fun _ =>
    List.cons_ne_nil _ _

/-- There is no warning, and what is defined is `foldMap`. -/
theorem withoutFields_not_lawful :
    (derive .traversable traversableHead "M".toList withoutFields (1, [])).2.2 = [] ∧
      ¬ Lawful .traversable withoutFields
        (derive .traversable traversableHead "M".toList withoutFields (1, [])).1 :=
  ⟨rfl, fun h => absurd (h.1.methods emptyFun (List.mem_singleton_self _) _ (List.mem_singleton_self _)) (by decide)⟩

end Jhc.Deriving.Traverse

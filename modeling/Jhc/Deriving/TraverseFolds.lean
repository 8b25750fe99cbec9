import Jhc.Deriving.TraverseClauses

/-!
# Derived Functor and Foldable are lawful

The clause for a constructor maps each field, and folds each field, by its type.
-/

namespace Jhc.Deriving.Traverse

variable {F : HsType → Type → Type} {O : HsType → Type} {fv : Name} {d : DataDecl} {A B C M : Type}

/-! ### Fresh names of a clause -/

theorem freshVar_ne {c c' : Char} (h : c ≠ c') (u u' : ℕ) : freshVar c u ≠ freshVar c' u' := by
  intro heq
  have hident := congrArg Name.ident heq
  simp only [freshVar, List.cons.injEq] at hident
  exact h hident.1

theorem freshVar_not_mem {c : Char} (h : c ≠ 'p') (u u' k : ℕ) : freshVar c u ∉ pvars u' k := by
  intro hmem
  obtain ⟨i, -, hi⟩ := List.mem_map.1 hmem
  exact freshVar_ne h.symm i u hi

/-- The variables in front of the pattern: `f` in a method that takes a function. -/
def heads (c : Prop) [Decidable c] (u : ℕ) : List Name := if c then [freshVar 'f' u] else []

section Heads

variable (c : Prop) [Decidable c] (u u' k : ℕ)

theorem heads_length : (heads c u).length = if c then 1 else 0 := by
  unfold heads
  split <;> rfl

theorem mem_heads {f : Name} (h : f ∈ heads c u) : f = freshVar 'f' u := by
  unfold heads at h
  split at h
  · exact List.mem_singleton.1 h
  · cases h

theorem heads_nodup : (heads c u ++ pvars u' k).Nodup := by
  unfold heads
  split
  · exact List.nodup_cons.2 ⟨freshVar_not_mem (by decide) u u' k, pvars_nodup u' k⟩
  · exact pvars_nodup u' k

theorem heads_pats (p : HsPat) :
    (if c then [.HsPVar (freshVar 'f' u), p] else [p]) = (heads c u).map .HsPVar ++ [p] := by
  unfold heads
  split <;> rfl

end Heads

/-- The first two steps of each clause: the variable `f` and the pattern. -/
theorem quiet_head {β : Type} {R : β → Prop} (b : Body HsBangType) {k : Name → HsPat × List HsExp → QW β}
    (h : ∀ u u', Quiet (k (freshVar 'f' u) (.HsPApp b.constructor ((pvars u' b.types.length).map .HsPVar),
      (pvars u' b.types.length).map .HsVar)) R) :
    Quiet (liftQ (newVarN ['f']) >>= fun f => liftQ (mkPat b) >>= fun p => k f p) R := by
  refine Quiet.fresh (P := fun f => ∃ u, f = freshVar 'f' u) (fun u => ⟨u, rfl⟩) fun f hf => ?_
  obtain ⟨u, rfl⟩ := hf
  refine Quiet.fresh (P := fun p => ∃ u', p = (.HsPApp b.constructor ((pvars u' b.types.length).map .HsPVar),
    (pvars u' b.types.length).map .HsVar)) (fun u' => ⟨u', by rw [mkPat_run]⟩) fun p hp => ?_
  obtain ⟨u', rfl⟩ := hp
  exact h u u'

theorem v_names_modName : v_fmap.modName ≠ [] ∧ v_fmap_const.modName ≠ [] ∧ v_foldMap.modName ≠ [] ∧
    v_fold.modName ≠ [] ∧ v_mempty.modName ≠ [] ∧ v_mappend.modName ≠ [] := by
  decide

/-! ### Variables and applications -/

theorem denote_global {S : Type} (J : Interp S) {ρ : List (Name × S)} {ns : List Name} {ss : List S}
    (hρ : Binds ρ ns ss) {n : Name} (hn : n.modName ≠ []) : denote J ρ (.HsVar n) = J.var n := by
  rw [denote, hρ.fresh n hn, Option.getD_none]

theorem denote_local {S : Type} (J : Interp S) {ρ : List (Name × S)} {n : Name} {s : S}
    (hn : ρ.lookup n = some s) : denote J ρ (.HsVar n) = s := by
  rw [denote, hn, Option.getD_some]

theorem denote_app {S : Type} (J : Interp S) (ρ : List (Name × S)) (e e' : HsExp) :
    denote J ρ (.HsApp e e') = J.app (denote J ρ e) (denote J ρ e') := rfl

/-! ### fmap -/

section Functor

variable [∀ x, Functor (F x)]

def Field.map (g : A → B) {t : HsType} : Field F O fv A t → Field F O fv B t
  | elem a => elem (g a)
  | cont x h c => cont x h (g <$> c)
  | other t h o => other t h o

def Fields.map (g : A → B) {ts : List HsBangType} : Fields F O fv A ts → Fields F O fv B ts
  | nil => nil
  | cons y ys => cons (y.map g) (ys.map g)

def Val.map (g : A → B) (v : Val F O fv d A) : Val F O fv d B := ⟨v.body, v.mem, v.fields.map g⟩

/-- The method `func` with the argument `φ` maps by `g`. -/
structure Maps (func : Name) (φ : MapSem F O fv A B) (g : A → B) : Prop where
  global : func.modName ≠ []
  param : ∀ a : A, (if func = v_fmap then MapSem.app φ (.src ⟨_, .elem a⟩) else φ) = .tgt ⟨_, .elem (g a)⟩
  cont : ∀ x h (c : F x A),
    MapSem.app (MapSem.app (.method func) φ) (.src ⟨_, .cont x h c⟩) = .tgt ⟨_, .cont x h (g <$> c)⟩

attribute [local grind =] Fields.map

theorem maps_fmap (g : A → B) : Maps v_fmap (.fn g : MapSem F O fv A B) g where
  global := v_names_modName.1
  param a := by
    rw [if_pos rfl]
    rfl
  cont x h c := by
    rw [MapSem.app, if_pos rfl]
    rfl

theorem maps_fmap_const [∀ x, LawfulFunctor (F x)] (b : B) :
    Maps v_fmap_const (.tgt ⟨_, .elem b⟩ : MapSem F O fv A B) fun _ => b where
  global := v_names_modName.2.1
  param a := by
    rw [if_neg (by decide)]
  cont x h c := by
    rw [MapSem.app, if_pos rfl, MapSem.app, LawfulFunctor.map_const]
    rfl

variable {func : Name} {φ : MapSem F O fv A B} {g : A → B} {ρ : List (Name × MapSem F O fv A B)} {f : Name}

/-- A constructor that is given what becomes of a field. -/
theorem app_field (hφ : Maps func φ g) (hfunc : denote mapInterp ρ (.HsVar func) = .method func)
    (hf : ρ.lookup f = some φ) {t : HsType} (y : Field F O fv A t) {p : Name} (hp : ρ.lookup p = some (.src ⟨t, y⟩))
    (k : List (AnyField F O fv B) → Option (Term F O fv B)) :
    MapSem.app (.build k) (denote mapInterp ρ (ofField (functorCases func (.HsVar f)) (.HsVar p) y)) =
      .build fun ys => k (⟨t, y.map g⟩ :: ys) := by
  have hfe := denote_local mapInterp hf
  have hpe := denote_local mapInterp hp
  cases y with
  | elem a =>
    have happ := hφ.param a
    simp only [ofField, functorCases]
    by_cases hfmap : func = v_fmap
    · rw [if_pos hfmap] at happ ⊢
      rw [denote_app, hfe, hpe]
      change MapSem.app _ (MapSem.app _ _) = _
      rw [happ]
      rfl
    · rw [if_neg hfmap] at happ ⊢
      rw [hfe, happ]
      rfl
  | cont x h c =>
    simp only [ofField, functorCases, app2]
    rw [denote_app, denote_app, hfunc, hfe, hpe]
    change MapSem.app _ (MapSem.app (MapSem.app _ _) _) = _
    rw [hφ.cont]
    rfl
  | other t h o =>
    simp only [ofField, functorCases]
    rw [hpe]
    rfl

theorem denote_fields (hφ : Maps func φ g) (hfunc : denote mapInterp ρ (.HsVar func) = .method func)
    (hf : ρ.lookup f = some φ) {ts : List HsBangType} (ys : Fields F O fv A ts) {ns : List Name}
    (hns : List.Forall₂ (fun n s => ρ.lookup n = some s) ns (ys.toList.map .src))
    {e : HsExp} {k : List (AnyField F O fv B) → Option (Term F O fv B)} (he : denote mapInterp ρ e = .build k) :
    denote mapInterp ρ ((ofFields (functorCases func (.HsVar f)) (ns.map .HsVar) ys).foldl .HsApp e) =
      .build fun zs => k ((ys.map g).toList ++ zs) := by
  induction ys generalizing ns e k with
  | nil =>
    cases hns
    exact he
  | cons y ys ih =>
    cases hns with
    | cons hn hns =>
      rw [List.map_cons, ofFields, List.foldl_cons]
      refine ih hns (k := fun zs => k (⟨_, y.map g⟩ :: zs)) ?_
      rw [denote, he]
      exact app_field hφ hfunc hf y hn k

theorem functorMatch_quiet (hφ : Maps func φ g) (b : Body HsBangType) :
    Quiet (functorMatch func fv b) (Reads mapInterp [φ] .src b fun ys s =>
      s.result = some ⟨b.constructor, (ys.map g).toList⟩) := by
  unfold functorMatch
  refine quiet_head b fun u u' => ?_
  refine (dtFields_quiet (F := F) (O := O) (A := A) (functorCases func _) b _).bind (fun as has => ?_)
    fun as => Quiet.pure trivial
  apply Quiet.pure
  refine reads_of_pats (heads True u) rfl (heads_nodup True u u' _) (fun f hf => by rw [mem_heads True u hf]; rfl) rfl
    fun ρ ys hρ => ?_
  obtain ⟨hf, hns⟩ := List.forall₂_cons.1 hρ.each
  have hden : denote mapInterp ρ (as.foldl .HsApp (.HsCon b.constructor)) =
      .build fun zs => some ⟨b.constructor, (ys.map g).toList ++ zs⟩ := by
    have hcon : denote mapInterp ρ (.HsCon b.constructor) = .build fun zs => some ⟨b.constructor, zs⟩ := rfl
    rw [has ys]
    exact denote_fields hφ (denote_global mapInterp hρ hφ.global) hf ys hns hcon
  have hrhs : (if b.types.isEmpty then HsExp.HsCon b.constructor else as.foldl .HsApp (.HsCon b.constructor)) =
      as.foldl .HsApp (.HsCon b.constructor) := by
    split
    · rename_i hempty
      have hnil : as = [] := by
        have hlen : (pvars u' b.types.length).map HsExp.HsVar = [] := by
          rw [List.isEmpty_iff.1 hempty]
          rfl
        rw [has ys, hlen, ofFields]
        intro e es t ts y ys' h
        cases h
      rw [hnil]
      rfl
    · rfl
  rw [runClause, List.map_nil, List.nil_append]
  dsimp only
  rw [hrhs, hden, MapSem.result, List.append_nil]

end Functor

/-! ### foldMap and fold -/

section Foldable

variable [∀ x, Foldable (F x)] [Monoid M]

theorem foldInterp_app (top : FoldSem F O fv A M) : (foldInterp top).app = FoldSem.app := rfl

/-- The expressions of a field are the parts of a product. -/
def Folds (top : FoldSem F O fv A M) (c : FieldCases (List HsExp)) (emb : AnyField F O fv A → FoldSem F O fv A M)
    (g : A → M) (ρ : List (Name × FoldSem F O fv A M)) : Prop :=
  ∀ (t : HsType) (y : Field F O fv A t) (p : Name), ρ.lookup p = some (emb ⟨t, y⟩) →
    ∃ ms : List M, List.Forall₂ (fun e m => denote (foldInterp top) ρ e = .mon m) (ofField c (.HsVar p) y) ms ∧
      ms.prod = (y.elements.map g).prod

theorem folds_foldMap [∀ x, Functor (F x)] [∀ x, LawfulFoldable (F x)] {g : A → M}
    {ρ : List (Name × FoldSem F O fv A M)} {f : Name} (hf : ρ.lookup f = some (.fn g))
    (hfunc : denote (foldInterp .undefined) ρ (.HsVar v_foldMap) = .method v_foldMap) :
    Folds .undefined (foldableCases v_foldMap (.HsVar f)) .src g ρ := by
  intro t y p hp
  have hfe := denote_local (foldInterp .undefined) hf
  have hpe := denote_local (foldInterp .undefined) hp
  cases y with
  | elem a =>
    refine ⟨[g a], .cons ?_ .nil, rfl⟩
    rw [denote_app, hfe, hpe]
    rfl
  | cont x h c =>
    refine ⟨[Foldable.foldMap g c], ?_, ?_⟩
    · simp only [ofField, foldableCases, if_true]
      refine .cons ?_ .nil
      rw [app2, denote_app, denote_app, hfunc, hfe, hpe, foldInterp_app, FoldSem.app, if_pos rfl]
      rfl
    · rw [List.prod_singleton, LawfulFoldable.foldMap_elements]
      rfl
  | other t h o => exact ⟨[], .nil, rfl⟩

theorem folds_fold [∀ x, Functor (F x)] [∀ x, LawfulFoldable (F x)] {ρ : List (Name × FoldSem F O fv M M)}
    {fe : HsExp} (hfunc : denote (foldInterp (.onCont fun _ c => Foldable.fold c)) ρ (.HsVar v_fold) =
      .onCont fun _ c => Foldable.fold c) :
    Folds (.onCont fun _ c => Foldable.fold c) (foldableCases v_fold fe) asMonoid id ρ := by
  intro t y p hp
  have hpe := denote_local (foldInterp (.onCont fun _ c => Foldable.fold c)) hp
  have hne : v_fold ≠ v_foldMap := by decide
  cases y with
  | elem m =>
    refine ⟨[m], ?_, rfl⟩
    simp only [ofField, foldableCases, if_neg hne]
    exact .cons hpe .nil
  | cont x h c =>
    refine ⟨[Foldable.fold c], ?_, ?_⟩
    · simp only [ofField, foldableCases, if_neg hne]
      refine .cons ?_ .nil
      rw [denote_app, hfunc, hpe]
      rfl
    · rw [List.prod_singleton, LawfulFoldable.fold_eq, LawfulFoldable.foldMap_elements]
      rfl
  | other t h o => exact ⟨[], .nil, rfl⟩

variable {top : FoldSem F O fv A M} {c : FieldCases (List HsExp)} {emb : AnyField F O fv A → FoldSem F O fv A M}
  {g : A → M} {ρ : List (Name × FoldSem F O fv A M)}

theorem Folds.fields (h : Folds top c emb g ρ) {ts : List HsBangType} (ys : Fields F O fv A ts) {ns : List Name}
    (hns : List.Forall₂ (fun n s => ρ.lookup n = some s) ns (ys.toList.map emb)) :
    ∃ ms : List M, List.Forall₂ (fun e m => denote (foldInterp top) ρ e = .mon m)
      (ofFields c (ns.map .HsVar) ys).flatten ms ∧ ms.prod = (ys.elements.map g).prod := by
  induction ys generalizing ns with
  | nil =>
    cases hns
    exact ⟨[], .nil, rfl⟩
  | cons y ys ih =>
    cases hns with
    | @cons n _ ns _ hn hns =>
      obtain ⟨ms, hms, hprod⟩ := h _ y n hn
      obtain ⟨ms', hms', hprod'⟩ := ih hns
      refine ⟨ms ++ ms', ?_, ?_⟩
      · rw [List.map_cons, ofFields, List.flatten_cons]
        exact List.rel_append hms hms'
      · rw [List.prod_append, hprod, hprod', Fields.elements, List.map_append, List.prod_append]

/-- A product of at least one factor ends with the last one. -/
theorem denote_product {ns : List Name} {ss : List (FoldSem F O fv A M)} (hρ : Binds ρ ns ss) {es : List HsExp}
    {ms : List M} (h : List.Forall₂ (fun e m => denote (foldInterp top) ρ e = .mon m) es ms) :
    denote (foldInterp top) ρ ((foldr1 (app2 (.HsVar v_mappend)) es).getD (.HsVar v_mempty)) = .mon ms.prod := by
  have hmappend : denote (foldInterp top) ρ (.HsVar v_mappend) = .method v_mappend := by
    rw [denote_global _ hρ v_names_modName.2.2.2.2.2]
    simp only [foldInterp]
    rw [if_neg (by decide), if_neg (by decide)]
  induction h with
  | nil =>
    rw [foldr1, Option.getD_none, denote_global _ hρ v_names_modName.2.2.2.2.1]
    simp only [foldInterp, if_true, List.prod_nil]
  | @cons e m es ms he hes ih =>
    cases hes with
    | nil =>
      rw [foldr1, Option.getD_some, he, List.prod_singleton]
    | @cons e' m' es ms he' hes =>
      obtain ⟨t, ht⟩ := foldr1_cons (app2 (.HsVar v_mappend)) e' es
      rw [ht, Option.getD_some] at ih
      rw [foldr1, ht, Option.map_some, Option.getD_some, app2, denote_app, denote_app, hmappend, he, ih,
        List.prod_cons]
      · rw [foldInterp_app, FoldSem.app, if_pos rfl]
        rfl
      · simp

theorem foldableMatch_quiet {func : Name} {φs : List (FoldSem F O fv A M)} (b : Body HsBangType)
    (hlen : φs.length = if func = v_foldMap then 1 else 0)
    (hfolds : ∀ u ns ss ρ, Binds ρ (heads (func = v_foldMap) u ++ ns) (φs ++ ss) →
      Folds top (foldableCases func (.HsVar (freshVar 'f' u))) emb g ρ) :
    Quiet (foldableMatch func fv b) (Reads (foldInterp top) φs emb b fun ys s =>
      s.result = some (ys.elements.map g).prod) := by
  unfold foldableMatch
  refine quiet_head b fun u u' => ?_
  refine (dtFields_quiet (F := F) (O := O) (A := A) (foldableCases func _) b _).bind (fun as has => ?_)
    fun as => Quiet.pure trivial
  apply Quiet.pure
  refine reads_of_pats _ (hlen.trans (heads_length _ u).symm) (heads_nodup (func = v_foldMap) u u' _)
    (fun f hf => by rw [mem_heads _ u hf]; rfl) (heads_pats _ u _) fun ρ ys hρ => ?_
  obtain ⟨-, hns⟩ := hρ.split (hlen.trans (heads_length _ u).symm)
  obtain ⟨ms, hms, hprod⟩ := Folds.fields (hfolds u _ _ ρ hρ) ys hns
  rw [← has ys] at hms
  rw [runClause, List.map_nil, List.nil_append]
  dsimp only
  rw [denote_product hρ hms, hprod, FoldSem.result]

end Foldable

end Jhc.Deriving.Traverse

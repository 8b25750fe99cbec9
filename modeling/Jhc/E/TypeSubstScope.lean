import Jhc.E.AnnotateScope
import Jhc.E.TypeSubst

/-!
# Scopes under substitution

What is put for a variable is known from the binders of the term and of the result, `Entry`;
entering a binder keeps this.
-/

namespace Jhc.E
open Jhc.Nameless

theorem newId_anonymous (seed : BitVec 64) (avoid : Finset Id) : ∃ i, newId seed avoid = .anonymous i := ⟨_, rfl⟩

namespace TypeSubst

/-- A name that a binder may be given. -/
def Anonymous (x : Id) : Prop := ∃ i, x = .anonymous i

variable {eAp : E → E → E} {σ τ : Id → Option E} {r : Maps} {D S vs ns Γ Γ' : List Id} {ts : List TVr} {t : TVr}
  {n n' x y : Id} {w : Bool}

/-! ### One binder -/

/-- The new name `n'` of a binder `n` of the group `vs`. -/
def Chosen (K : Finset Id) (vs : List Id) (n n' : Id) : Prop :=
  n = .emptyId ∧ n' = .emptyId ∨
    n ≠ .emptyId ∧ n' ≠ .emptyId ∧ n' ∉ K ∧ (n' = n ∨ Anonymous n' ∧ n' ∉ vs)

def pick (vs : List Id) (n : Id) (m : VarMap) : Id := if n = .emptyId then .emptyId else mnv vs n m

theorem pick_chosen (vs : List Id) (n : Id) (m : VarMap) : Chosen m.keys vs n (pick vs n m) := by
  unfold Chosen pick
  by_cases hn : n = .emptyId
  · rw [if_pos hn]
    exact .inl ⟨hn, rfl⟩
  · right
    rw [if_neg hn]
    unfold mnv
    split
    · have hf := newId_notMem (mixInt (mixInt (BitVec.ofNat 64 vs.toFinset.card) 0) (BitVec.ofNat 64 m.size))
        (m.keys ∪ vs.toFinset)
      rw [Finset.mem_union, not_or, List.mem_toFinset] at hf
      exact ⟨hn, newId_ne_emptyId _ _, hf.1, .inr ⟨newId_anonymous _ _, hf.2⟩⟩
    · next h => exact ⟨hn, hn, fun hk => h (.inr hk), .inl rfl⟩

/-- A name that is not tracked is kept. -/
theorem pick_of_notMem {m : VarMap} (h : n ∉ m.keys) : pick vs n m = n := by
  unfold pick
  by_cases hn : n = .emptyId
  · rw [if_pos hn, hn]
  · rw [if_neg hn]
    exact if_neg (by simp [hn, h])

/-- The maps under a binder `n` that has become `t`. -/
def step (n : Id) (t : TVr) : Maps → Maps :=
  if n = .emptyId then id
  else if n = t.tvrIdent then Maps.addMap n (some (.eVar t))
  else Maps.addMap n (some (.eVar t)) ∘ Maps.addMap t.tvrIdent none

theorem ntvr_run (vs : List Id) (r : Maps) (n : Id) (t : E) :
    ntvr eAp vs r (.mk n t) =
      (.mk (pick vs n r.trm) (f eAp r.inType t), step n (.mk (pick vs n r.trm) (f eAp r.inType t))) := by
  rw [ntvr]
  unfold pick step
  by_cases hn : n = .emptyId
  · rw [if_pos hn, if_pos hn, if_pos hn, hn]
  · rw [if_neg hn, if_neg hn, if_neg hn]
    by_cases hm : n = mnv vs n r.trm
    · rw [if_pos hm]
      exact congrArg _ (if_pos hm).symm
    · rw [if_neg hm]
      exact congrArg _ (if_neg hm).symm

theorem ntvr_step (vs : List Id) (r : Maps) (t : TVr) :
    (ntvr eAp vs r t).2 = step t.tvrIdent (ntvr eAp vs r t).1 := by
  cases t with
  | mk n t =>
    rw [ntvr_run]
    rfl

theorem ntvr_ident (vs : List Id) (r : Maps) (t : TVr) : (ntvr eAp vs r t).1.tvrIdent = pick vs t.tvrIdent r.trm := by
  cases t with
  | mk n t =>
    rw [ntvr_run]
    rfl

theorem ntvr_chosen (vs : List Id) (r : Maps) (t : TVr) :
    Chosen r.trm.keys vs t.tvrIdent (ntvr eAp vs r t).1.tvrIdent := by
  rw [ntvr_ident]
  exact pick_chosen _ _ _

/-! ### What is put for a variable -/

/-- What is put for a variable, in a type or not. -/
def Maps.put (r : Maps) (w : Bool) (x : Id) : E := (Maps.look { r with wh := w } x).getD (.eVar (.mk x .unknown))

theorem step_emptyId : step .emptyId t r = r := rfl

theorem wh_step : (step n t r).wh = r.wh := by
  unfold step
  split
  · rfl
  · split <;> rfl

theorem inType_step : (step n t r).inType = step n t r.inType := by
  unfold step
  split
  · rfl
  · split <;> rfl

theorem keys_step (hn : n ≠ .emptyId) : (step n t r).trm.keys = insert n (insert t.tvrIdent r.trm.keys) := by
  unfold step
  rw [if_neg hn]
  split
  · next h =>
    rw [← h, Finset.insert_idem]
    rfl
  · rfl

theorem mem_keys_step (h : x ∈ r.trm.keys) : x ∈ (step n t r).trm.keys := by
  by_cases hn : n = .emptyId
  · rw [hn, step_emptyId]
    exact h
  · rw [keys_step hn]
    exact Finset.mem_insert_of_mem (Finset.mem_insert_of_mem h)

theorem put_step_self (hn : n ≠ .emptyId) : (step n t r).put w n = .eVar t := by
  unfold step
  rw [if_neg hn]
  split <;> cases w <;> simp [Maps.put, Maps.look, Maps.addMap, VarMap.mlookup, VarMap.minsert]

theorem put_step_of_ne (hn : x ≠ n) (ht : x ≠ t.tvrIdent) : (step n t r).put w x = r.put w x := by
  unfold step
  split
  · rfl
  · split <;> cases w <;> simp [Maps.put, Maps.look, Maps.addMap, VarMap.mlookup, VarMap.minsert, hn, ht]

/-! ### The names that the maps track -/

/-- The tracked names are those of `D` and names given to binders. -/
structure Inv (D : List Id) (r : Maps) : Prop where
  empty : .emptyId ∉ r.trm.keys
  tp : ∀ x, x ∉ r.trm.keys → r.tp x = none
  known : ∀ x ∈ r.trm.keys, x ∈ D ∨ Anonymous x

theorem Inv.put_of_notMem (h : Inv D r) (hx : x ∉ r.trm.keys) : r.put w x = .eVar (.mk x .unknown) := by
  cases w with
  | true => simp [Maps.put, Maps.look, h.tp x hx]
  | false => simp [Maps.put, Maps.look, VarMap.mlookup, hx]

theorem Inv.inType (h : Inv D r) : Inv D r.inType := ⟨h.empty, h.tp, h.known⟩

theorem Inv.step (h : Inv D r) (hc : Chosen r.trm.keys vs n t.tvrIdent) : Inv (n :: D) (step n t r) := by
  rcases hc with ⟨rfl, -⟩ | ⟨hn, ht, -, hname⟩
  · rw [step_emptyId]
    exact ⟨h.empty, h.tp, fun x hx => (h.known x hx).imp_left (List.mem_cons_of_mem _)⟩
  · refine ⟨?_, fun x hx => ?_, fun x hx => ?_⟩
    · rw [keys_step hn]
      simp [hn.symm, ht.symm, h.empty]
    · rw [keys_step hn, Finset.mem_insert, Finset.mem_insert, not_or, not_or] at hx
      have htp : (TypeSubst.step n t r).tp = Function.update r.tp n (some (.eVar t)) := by
        unfold TypeSubst.step
        rw [if_neg hn]
        split <;> rfl
      rw [htp, Function.update_of_ne hx.1]
      exact h.tp x hx.2.2
    · rw [keys_step hn, Finset.mem_insert, Finset.mem_insert] at hx
      rcases hx with rfl | rfl | hx
      · exact .inl List.mem_cons_self
      · exact hname.imp (fun heq => List.mem_cons.2 (.inl heq)) And.left
      · exact (h.known x hx).imp_left (List.mem_cons_of_mem _)

/-! ### The variables of a term -/

/-- What the two substitutions have for a variable. -/
def image (σ τ : Id → Option E) (w : Bool) (x : Id) : E := (if w then τ x else σ x).getD (.eVar (.mk x .unknown))

/-- What is put for a variable: one that is bound becomes the one of the same binder, one that
is free what the substitutions have for it, of which nothing is bound by the result. -/
inductive Entry (σ τ : Id → Option E) (Γ Γ' : List Id) (r : Maps) (x : Id) : Prop
  | bound (hx : x ∈ Γ) (h : ∀ w, ∃ t, r.put w x = .eVar t ∧ (t.tvrIdent ∈ r.trm.keys ∨ t.tvrIdent = x) ∧
      ref Γ' t.tvrIdent = ref Γ x)
  | free (hx : x ∉ Γ) (h : ∀ w, r.put w x = image σ τ w x)
      (hf : ∀ w, ∀ y ∈ free (r.put w x), y ∉ Γ' ∧ (y ∈ r.trm.keys ∨ y = x))

/-- A name that is tracked, or that no binder is given. -/
def Safe (r : Maps) (x : Id) : Prop := x ∈ r.trm.keys ∨ ¬ Anonymous x

def Rel (σ τ : Id → Option E) (S Γ Γ' : List Id) (r : Maps) : Prop := ∀ x ∈ S, Safe r x ∧ Entry σ τ Γ Γ' r x

theorem Rel.mono {S' : List Id} (h : Rel σ τ S Γ Γ' r) (hs : ∀ x ∈ S', x ∈ S) : Rel σ τ S' Γ Γ' r :=
  fun x hx => h x (hs x hx)

theorem Rel.inType (h : Rel σ τ S Γ Γ' r) : Rel σ τ S Γ Γ' r.inType := by
  intro x hx
  obtain ⟨hsafe, hentry⟩ := h x hx
  exact ⟨hsafe, by cases hentry with
    | bound hx h => exact .bound hx h
    | free hx h hf => exact .free hx h hf⟩

/-- The new name of a binder is none of the other names. -/
theorem ne_of_chosen (hinv : Inv D r) (hc : Chosen r.trm.keys vs n n') (h : x ∈ r.trm.keys ∨ x = y) (hy : Safe r y)
    (hyn : y ≠ n) : x ≠ n' := by
  rintro rfl
  rcases hc with ⟨rfl, rfl⟩ | ⟨-, -, hk, hname⟩
  · rcases h with h | rfl
    · exact hinv.empty h
    · exact hyn rfl
  · rcases h with h | rfl
    · exact hk h
    · rcases hname with rfl | ⟨hanon, -⟩
      · exact hyn rfl
      · exact hy.elim hk fun hna => hna hanon

/-- Under a binder of another name, with maps that put the same. -/
theorem Entry.push {r' : Maps} (hinv : Inv D r) (hc : Chosen r.trm.keys vs n n') (hxn : x ≠ n) (hsafe : Safe r x)
    (hput : ∀ w, r'.put w x = r.put w x) (hkeys : ∀ y ∈ r.trm.keys, y ∈ r'.trm.keys) (h : Entry σ τ Γ Γ' r x) :
    Entry σ τ (n :: Γ) (n' :: Γ') r' x := by
  cases h with
  | bound hx h =>
    refine .bound (List.mem_cons_of_mem n hx) fun w => ?_
    obtain ⟨t, ht, hname, href⟩ := h w
    refine ⟨t, (hput w).trans ht, hname.imp_left (hkeys _), ?_⟩
    rw [ref_of_ne (ne_of_chosen hinv hc hname hsafe hxn), ref_of_ne hxn, href]
  | free hx h hf =>
    refine .free (List.not_mem_cons_of_ne_of_not_mem hxn hx) (fun w => (hput w).trans (h w)) fun w y hy => ?_
    rw [hput] at hy
    obtain ⟨hyΓ, hname⟩ := hf w y hy
    exact ⟨List.not_mem_cons_of_ne_of_not_mem (ne_of_chosen hinv hc hname hsafe hxn) hyΓ, hname.imp_left (hkeys _)⟩

theorem Safe.mono {r' : Maps} (h : Safe r x) (hkeys : ∀ y ∈ r.trm.keys, y ∈ r'.trm.keys) : Safe r' x :=
  h.imp_left (hkeys x)

theorem mem_filter_ne (hx : x ∈ S) (hxn : x ≠ n) : x ∈ S.filter (· ≠ n) := List.mem_filter.2 ⟨hx, decide_eq_true hxn⟩

theorem not_anonymous_emptyId : ¬ Anonymous .emptyId := by
  rintro ⟨i, hi⟩
  cases hi

theorem Rel.push (hinv : Inv D r) (hc : Chosen r.trm.keys vs n t.tvrIdent) (h : Rel σ τ (S.filter (· ≠ n)) Γ Γ' r) :
    Rel σ τ S (n :: Γ) (t.tvrIdent :: Γ') (step n t r) := by
  intro x hx
  by_cases hxn : x = n
  · subst hxn
    rcases hc with ⟨rfl, ht⟩ | ⟨hn, -, -, -⟩
    · refine ⟨.inr not_anonymous_emptyId, .bound List.mem_cons_self fun w => ?_⟩
      refine ⟨_, hinv.put_of_notMem hinv.empty, .inr rfl, ?_⟩
      rw [ht]
      exact (ref_self _ _).trans (ref_self _ _).symm
    · have hkeys := keys_step (t := t) (r := r) hn
      refine ⟨.inl ?_, .bound List.mem_cons_self fun w => ⟨t, put_step_self hn, .inl ?_, ?_⟩⟩
      · rw [hkeys]
        exact Finset.mem_insert_self _ _
      · rw [hkeys]
        exact Finset.mem_insert_of_mem (Finset.mem_insert_self _ _)
      · rw [ref_self, ref_self]
  · obtain ⟨hsafe, hentry⟩ := h x (mem_filter_ne hx hxn)
    have hkeys : ∀ y ∈ r.trm.keys, y ∈ (step n t r).trm.keys := fun y hy => mem_keys_step hy
    have hxt : x ≠ t.tvrIdent := ne_of_chosen hinv hc (.inr rfl) hsafe hxn
    exact ⟨hsafe.mono hkeys, hentry.push hinv hc hxn hsafe (fun w => put_step_of_ne hxn hxt) hkeys⟩

/-- Under a binder that the maps are not told of. -/
theorem Rel.push_untold (hinv : Inv D r) (h : Rel σ τ (S.filter (· ≠ n)) Γ Γ' r)
    (hn : n ∈ S → n ∉ r.trm.keys ∧ ¬ Anonymous n) : Rel σ τ S (n :: Γ) (pick [] n r.trm :: Γ') r := by
  intro x hx
  by_cases hxn : x = n
  · subst hxn
    obtain ⟨hkeys, hanon⟩ := hn hx
    refine ⟨.inr hanon, .bound List.mem_cons_self fun w => ⟨_, hinv.put_of_notMem hkeys, .inr rfl, ?_⟩⟩
    rw [pick_of_notMem hkeys]
    exact (ref_self _ _).trans (ref_self _ _).symm
  · obtain ⟨hsafe, hentry⟩ := h x (mem_filter_ne hx hxn)
    exact ⟨hsafe, hentry.push hinv (pick_chosen [] n r.trm) hxn hsafe (fun w => rfl) fun y hy => hy⟩

/-- Outside of a binder that the maps are told of. -/
theorem Rel.skip (hinv : Inv D r) (hc : Chosen r.trm.keys vs n t.tvrIdent) (h : Rel σ τ S Γ Γ' r)
    (hn : n ∈ S → n = .emptyId) : Rel σ τ S Γ Γ' (step n t r) := by
  by_cases hne : n = .emptyId
  · rw [hne, step_emptyId]
    exact h
  · intro x hx
    obtain ⟨hsafe, hentry⟩ := h x hx
    have hxn : x ≠ n := by
      rintro rfl
      exact hne (hn hx)
    have hkeys : ∀ y ∈ r.trm.keys, y ∈ (step n t r).trm.keys := fun y hy => mem_keys_step hy
    have hput : ∀ w, (step n t r).put w x = r.put w x := fun w =>
      put_step_of_ne hxn (ne_of_chosen hinv hc (.inr rfl) hsafe hxn)
    refine ⟨hsafe.mono hkeys, ?_⟩
    cases hentry with
    | bound hx h =>
      refine .bound hx fun w => ?_
      obtain ⟨u, hu, hname, href⟩ := h w
      exact ⟨u, (hput w).trans hu, hname.imp_left (hkeys _), href⟩
    | free hx h hf =>
      refine .free hx (fun w => (hput w).trans (h w)) fun w y hy => ?_
      rw [hput] at hy
      exact (hf w y hy).imp_right fun hname => hname.imp_left (hkeys _)

/-! ### Groups -/

def under (ns : List Id) (ts : List TVr) (r : Maps) : Maps := (List.zipWith step ns ts).foldr (· ∘ ·) id r

theorem under_cons : under (n :: ns) (t :: ts) r = step n t (under ns ts r) := rfl

/-- The binders `ns` of a group, which become `ts`. -/
structure Group (K : Finset Id) (vs ns : List Id) (ts : List TVr) : Prop where
  pairs : List.Forall₂ (fun n t => Chosen K vs n t.tvrIdent) ns ts
  distinct : Distinct ts
  old : (ns.filter (· ≠ .emptyId)).Nodup

theorem mem_keys_under (h : x ∈ (under ns ts r).trm.keys) : x ∈ r.trm.keys ∨ x ∈ ns ∨ x ∈ idents ts := by
  induction ns generalizing ts with
  | nil => exact .inl h
  | cons n ns ih =>
    cases ts with
    | nil => exact .inl h
    | cons t ts =>
      rw [under_cons] at h
      have hrest : x ∈ (under ns ts r).trm.keys → x ∈ r.trm.keys ∨ x ∈ n :: ns ∨ x ∈ idents (t :: ts) := fun h =>
        (ih h).imp_right (Or.imp (List.mem_cons_of_mem n) (List.mem_cons_of_mem t.tvrIdent))
      by_cases hn : n = .emptyId
      · rw [hn, step_emptyId] at h
        exact hrest h
      · rw [keys_step hn, Finset.mem_insert, Finset.mem_insert] at h
        rcases h with rfl | rfl | h
        · exact .inr (.inl List.mem_cons_self)
        · exact .inr (.inr List.mem_cons_self)
        · exact hrest h

theorem old_cons : ((n :: ns).filter (· ≠ .emptyId)).Nodup ↔
    (n ≠ .emptyId → n ∉ ns) ∧ (ns.filter (· ≠ .emptyId)).Nodup := by
  by_cases hn : n = .emptyId
  · rw [List.filter_cons_of_neg (by simp [hn])]
    exact ⟨fun h => ⟨fun hne => absurd hn hne, h⟩, And.right⟩
  · rw [List.filter_cons_of_pos (by simp [hn]), List.nodup_cons, List.mem_filter]
    simp [hn]

theorem Group.tail (h : Group r.trm.keys vs (n :: ns) (t :: ts)) : Group r.trm.keys vs ns ts where
  pairs := (List.forall₂_cons.1 h.pairs).2
  distinct := (Annotate.distinct_cons.1 h.distinct).2
  old := (old_cons.1 h.old).2

/-- The first binder of a group under the others. -/
theorem Group.head (h : Group r.trm.keys vs (n :: ns) (t :: ts)) (hv : ∀ x ∈ n :: ns, x ∈ vs) :
    Chosen (under ns ts r).trm.keys vs n t.tvrIdent := by
  refine (List.forall₂_cons.1 h.pairs).1.imp_right fun ⟨hn, ht, hk, hname⟩ => ⟨hn, ht, fun hu => ?_, hname⟩
  rcases mem_keys_under hu with hr | hns | hts
  · exact hk hr
  · rcases hname with heq | ⟨-, hvs⟩
    · exact (old_cons.1 h.old).1 hn (heq ▸ hns)
    · exact hvs (hv _ (List.mem_cons_of_mem n hns))
  · exact (Annotate.distinct_cons.1 h.distinct).1 ht hts

theorem Group.inv (h : Group r.trm.keys vs ns ts) (hv : ∀ n ∈ ns, n ∈ vs) (hinv : Inv D r) :
    Inv (ns ++ D) (under ns ts r) := by
  induction ns generalizing ts with
  | nil => exact hinv
  | cons n ns ih =>
    cases ts with
    | nil => cases h.pairs
    | cons t ts => exact (ih h.tail fun x hx => hv x (List.mem_cons_of_mem n hx)).step (h.head hv)

theorem Group.rel (h : Group r.trm.keys vs ns ts) (hv : ∀ n ∈ ns, n ∈ vs) (hinv : Inv D r)
    (hrel : Rel σ τ (S.filter (· ∉ ns)) Γ Γ' r) : Rel σ τ S (ns ++ Γ) (idents ts ++ Γ') (under ns ts r) := by
  induction ns generalizing ts S with
  | nil =>
    cases ts with
    | nil => exact hrel.mono fun x hx => List.mem_filter.2 ⟨hx, by simp⟩
    | cons t ts => cases h.pairs
  | cons n ns ih =>
    cases ts with
    | nil => cases h.pairs
    | cons t ts =>
      have hv' : ∀ x ∈ ns, x ∈ vs := fun x hx => hv x (List.mem_cons_of_mem n hx)
      refine Rel.push (h.tail.inv hv' hinv) (h.head hv) (ih h.tail hv' (hrel.mono fun x hx => ?_))
      simp only [List.mem_filter, List.mem_cons, decide_eq_true_eq] at hx ⊢
      exact ⟨hx.1.1, fun hor => hor.elim hx.1.2 hx.2⟩

theorem Chosen.mono {K K' : Finset Id} (hc : Chosen K' vs n n') (h : ∀ y ∈ K, y ∈ K') : Chosen K vs n n' :=
  hc.imp id fun ⟨hn, hn', hk, hname⟩ => ⟨hn, hn', fun hmem => hk (h _ hmem), hname⟩

theorem mapMntvr_under (vs : List Id) (r : Maps) (ts : List TVr) :
    ((mapMntvr eAp vs r ts).map Prod.snd).foldr (· ∘ ·) id r =
      under (idents ts) ((mapMntvr eAp vs r ts).map Prod.fst) r := by
  have hsteps : (mapMntvr eAp vs r ts).map Prod.snd =
      List.zipWith step (idents ts) ((mapMntvr eAp vs r ts).map Prod.fst) := by
    induction ts generalizing r with
    | nil => rfl
    | cons t ts ih =>
      rw [mapMntvr]
      exact congrArg₂ List.cons (ntvr_step vs r t) (ih _)
  rw [hsteps]
  rfl

/-- A new name is none of those that are tracked. -/
theorem Group.fresh {K : Finset Id} (h : Group K vs ns ts) (hx : x ∈ idents ts) (hne : x ≠ .emptyId) : x ∉ K := by
  have hpairs := h.pairs
  clear h
  induction hpairs with
  | nil => cases hx
  | @cons n t ns ts hc _ ih =>
    rcases List.mem_cons.1 hx with rfl | hx
    · rcases hc with ⟨-, he⟩ | ⟨-, -, hk, -⟩
      · exact absurd he hne
      · exact hk
    · exact ih hx

theorem mapMntvr_group (vs : List Id) (r : Maps) (ts : List TVr) (hd : Distinct ts) :
    Group r.trm.keys vs (idents ts) ((mapMntvr eAp vs r ts).map Prod.fst) := by
  induction ts generalizing r with
  | nil =>
    rw [mapMntvr]
    exact ⟨.nil, List.nodup_nil, List.nodup_nil⟩
  | cons t ts ih =>
    have hg := ih ((ntvr eAp vs r t).2 r) (Annotate.distinct_cons.1 hd).2
    have hc : Chosen r.trm.keys vs t.tvrIdent (ntvr eAp vs r t).1.tvrIdent := ntvr_chosen vs r t
    have hkeys : ∀ y ∈ r.trm.keys, y ∈ ((ntvr eAp vs r t).2 r).trm.keys := by
      intro y hy
      rw [ntvr_step]
      exact mem_keys_step hy
    rw [mapMntvr]
    refine ⟨.cons hc (hg.pairs.imp fun _ _ hr => hr.mono hkeys), ?_, old_cons.2 (Annotate.distinct_cons.1 hd)⟩
    refine Annotate.distinct_cons.2 ⟨fun hne hmem => hg.fresh hmem hne ?_, hg.distinct⟩
    rw [ntvr_step, keys_step]
    · exact Finset.mem_insert_of_mem (Finset.mem_insert_self _ _)
    · rintro hempty
      rcases hc with ⟨-, he⟩ | ⟨hn, -⟩
      · exact hne he
      · exact hn hempty

theorem mapMntvrDefs_eq (vs : List Id) (r : Maps) (ds : List Def) :
    mapMntvrDefs eAp vs r ds = mapMntvr eAp vs r (ds.map Def.var) := by
  induction ds generalizing r with
  | nil =>
    rw [mapMntvrDefs]
    rfl
  | cons d ds ih =>
    cases d with
    | mk t e =>
      rw [mapMntvrDefs, ntvrDef, List.map_cons, Def.var, mapMntvr, ih]

end TypeSubst

end Jhc.E

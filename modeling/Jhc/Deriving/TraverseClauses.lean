import Jhc.Deriving.Ord
import Jhc.Deriving.TraverseMeaning

/-!
# Clauses of derived instances of containers

What holds of the clauses that are generated without a warning, whichever class is
derived: what becomes of each field, which variables a call binds, and which clause it
runs.
-/

namespace Jhc.Deriving.Traverse
open Jhc.Text (Str)

/-! ### Runs without a warning -/

section Quiet

variable {α β : Type}

/-- Where there is no warning in the end there was none before, and the result is as `P` says. -/
def Quiet (q : QW α) (P : α → Prop) : Prop := ∀ s, (q s).2.2 = [] → s.2 = [] ∧ P (q s).1

variable {P : α → Prop} {R : β → Prop}

theorem Quiet.pure {a : α} (h : P a) : Quiet (Pure.pure a) P := fun _ hs => ⟨hs, h⟩

theorem Quiet.bind {q : QW α} {f : α → QW β} (hq : Quiet q P) (hf : ∀ a, P a → Quiet (f a) R)
    (hgrows : ∀ a, Quiet (f a) fun _ => True) : Quiet (q >>= f) R := by
  intro s hs
  obtain ⟨hmid, -⟩ := hgrows (q s).1 (q s).2 hs
  obtain ⟨hbefore, ha⟩ := hq s hmid
  exact ⟨hbefore, (hf (q s).1 ha (q s).2 hs).2⟩

theorem Quiet.mono {q : QW α} {P' : α → Prop} (hq : Quiet q P) (h : ∀ a, P a → P' a) : Quiet q P' :=
  fun s hs => ⟨(hq s hs).1, h _ (hq s hs).2⟩

theorem Quiet.and {q : QW α} {P' : α → Prop} (hq : Quiet q P) (hq' : Quiet q P') :
    Quiet q fun a => P a ∧ P' a :=
  fun s hs => ⟨(hq s hs).1, (hq s hs).2, (hq' s hs).2⟩

theorem Quiet.forall {q : QW α} {ι : Type} {P' : ι → α → Prop} (hgrows : Quiet q fun _ => True)
    (h : ∀ i, Quiet q (P' i)) : Quiet q fun a => ∀ i, P' i a :=
  fun s hs => ⟨(hgrows s hs).1, fun i => (h i s hs).2⟩

/-- Fresh names give no warning, so that what comes after them decides. -/
theorem Quiet.fresh {q : Q α} {f : α → QW β} (hq : ∀ u, P (q u).1) (hf : ∀ a, P a → Quiet (f a) R) :
    Quiet (liftQ q >>= f) R :=
  fun s hs => hf (q s.1).1 (hq s.1) _ hs

theorem quiet_warned {t : Str} {q : QW α} (hgrows : Quiet q fun _ => True) :
    Quiet (warn t >>= fun _ => q) P := by
  intro s hs
  obtain ⟨hmid, -⟩ := hgrows (s.1, s.2 ++ [t]) hs
  exact absurd hmid (by simp)

theorem Quiet.mapM {f : α → QW β} {R : α → β → Prop} {l : List α} (h : ∀ a, Quiet (f a) (R a)) :
    Quiet (l.mapM f) (List.Forall₂ R l) := by
  induction l with
  | nil => exact Quiet.pure .nil
  | cons a l ih =>
    rw [List.mapM_cons]
    refine (h a).bind (fun b hb => ?_) fun b => ?_
    · exact ih.bind (fun bs hbs => Quiet.pure (.cons hb hbs)) fun bs => Quiet.pure trivial
    · exact ih.bind (fun bs _ => Quiet.pure trivial) fun bs => Quiet.pure trivial

end Quiet

/-! ### What becomes of a field -/

section Fields

variable {F : HsType → Type → Type} {O : HsType → Type} {fv : Name} {A α : Type}

/-- By the type of its values. -/
def ofField (c : FieldCases α) (e : HsExp) {t : HsType} : Field F O fv A t → α
  | .elem _ => c.param e
  | .cont _ _ _ => c.cont e
  | .other _ _ _ => c.keep e

def ofFields (c : FieldCases α) : List HsExp → {ts : List HsBangType} → Fields F O fv A ts → List α
  | e :: es, _, .cons y ys => ofField c e y :: ofFields c es ys
  | _, _, _ => []

attribute [local grind =] ofField ofFields

theorem freeVars_var (v : Name) : freeVars (.HsTyVar v) = [v] := rfl

theorem freeVars_app (x : HsType) (v : Name) : v ∈ freeVars (.HsTyApp x (.HsTyVar v)) := by
  simp [freeVars, HsType.own, HsType.under]

theorem dtRest_quiet (c : FieldCases α) (e : HsExp) (t : HsType) :
    Quiet (dtRest c fv e t) fun a => ∀ y : Field F O fv A t, a = ofField c e y := by
  unfold dtRest
  split
  · rename_i hfree
    apply Quiet.pure
    intro y
    cases y with
    | elem a => exact absurd (freeVars_var fv ▸ List.mem_singleton_self fv) hfree
    | cont x h c' => exact absurd (freeVars_app x fv) hfree
    | other t h o => rfl
  · exact quiet_warned (Quiet.pure trivial)

theorem dt_quiet (c : FieldCases α) (e : HsExp) (t : HsType) :
    Quiet (dt c fv (e, t)) fun a => ∀ y : Field F O fv A t, a = ofField c e y := by
  unfold dt
  split
  · rename_i heq
    cases heq
    split
    · rename_i hv
      subst hv
      apply Quiet.pure
      intro y
      cases y with
      | elem a => rfl
      | other t h o => exact absurd (List.mem_singleton_self _) h
    · exact dtRest_quiet c _ _
  · rename_i heq
    cases heq
    split
    · rename_i hv
      obtain ⟨rfl, -⟩ := hv
      apply Quiet.pure
      intro y
      cases y with
      | cont x h c' => rfl
      | other t h o => exact absurd (by simp [freeTyVars]) h
    · exact dtRest_quiet c _ _
  · rename_i heq
    cases heq
    exact dtRest_quiet c _ _

theorem dtFields_quiet (c : FieldCases α) (b : Body HsBangType) (es : List HsExp) :
    Quiet (dtFields c fv b es) fun as => ∀ ys : Fields F O fv A b.types, as = ofFields c es ys := by
  refine (Quiet.mapM (f := dt c fv) fun et => dt_quiet (F := F) (O := O) (A := A) c et.1 et.2).mono fun as h ys => ?_
  revert h ys
  generalize b.types = ts
  intro h ys
  induction ys generalizing es as with
  | nil =>
    rw [List.map_nil, List.zip_nil_right] at h
    cases h
    cases es <;> rfl
  | cons y ys ih =>
    cases es with
    | nil =>
      cases h
      rfl
    | cons e es =>
      rw [List.map_cons, List.zip_cons_cons] at h
      cases h with
      | cons ha has => rw [ofFields, ha y, ih es _ has]

end Fields

/-! ### The variables that a call binds -/

section Binding

variable {S : Type} {F : HsType → Type → Type} {O : HsType → Type} {fv : Name} {A : Type}

/-- The values of the names; other names are not of a module. -/
structure Binds (ρ : List (Name × S)) (ns : List Name) (ss : List S) : Prop where
  each : List.Forall₂ (fun n s => ρ.lookup n = some s) ns ss
  fresh : ∀ n : Name, n.modName ≠ [] → ρ.lookup n = none

theorem Binds.split {ρ : List (Name × S)} {fs ns : List Name} {φs ss : List S} (hlen : φs.length = fs.length)
    (h : Binds ρ (fs ++ ns) (φs ++ ss)) :
    List.Forall₂ (fun n s => ρ.lookup n = some s) fs φs ∧ List.Forall₂ (fun n s => ρ.lookup n = some s) ns ss := by
  have hfs := List.forall₂_take_append _ _ _ h.each
  have hns := List.forall₂_drop_append _ _ _ h.each
  rw [hlen, List.take_left] at hfs
  rw [hlen, List.drop_left] at hns
  exact ⟨hfs, hns⟩

theorem lookup_fresh {ρ : List (Name × S)} (h : ∀ x ∈ ρ, x.1.modName = []) {n : Name} (hn : n.modName ≠ []) :
    ρ.lookup n = none := by
  rw [List.lookup_eq_none_iff]
  intro x hx
  have hne : n ≠ x.1 := by
    intro heq
    exact hn (heq ▸ h x hx)
  simpa using hne

/-- More fresh names in front hide nothing. -/
theorem Binds.append {ρ ρ' : List (Name × S)} {ns : List Name} {ss : List S} (h : Binds ρ ns ss)
    (hfresh : ∀ x ∈ ρ', x.1.modName = []) (hns : ∀ x ∈ ρ', x.1 ∉ ns) : Binds (ρ' ++ ρ) ns ss where
  each := by
    have hskip : ∀ n ∈ ns, (ρ' ++ ρ).lookup n = ρ.lookup n := by
      intro n hn
      have hnone : ρ'.lookup n = none := by
        rw [List.lookup_eq_none_iff]
        intro x hx
        have hne : n ≠ x.1 := by
          intro heq
          exact hns x hx (heq ▸ hn)
        simpa using hne
      rw [List.lookup_append, hnone, Option.none_or]
    rw [List.forall₂_iff_get]
    obtain ⟨hlen, hget⟩ := List.forall₂_iff_get.1 h.each
    refine ⟨hlen, fun i hi hi' => ?_⟩
    rw [hskip _ (List.get_mem ns ⟨i, hi⟩)]
    exact hget i hi hi'
  fresh n hn := by
    rw [List.lookup_append, lookup_fresh hfresh hn, Option.none_or]
    exact h.fresh n hn

theorem bindFields_vars {ns : List Name} {ss : List S} (h : ss.length = ns.length) :
    bindFields (ns.map .HsPVar) ss = some (ns.zip ss) := by
  induction ns generalizing ss with
  | nil =>
    obtain rfl := List.length_eq_zero_iff.1 h
    rfl
  | cons n ns ih =>
    cases ss with
    | nil => cases h
    | cons s ss =>
      rw [List.map_cons, bindFields, ih (Nat.succ_inj.1 h)]
      rfl

/-- The clause `f x .. (C p ..) = e`, called with the arguments `φs` and a constructor. -/
theorem bindArgs_con {fs ns : List Name} {φs ss : List S} (hfs : φs.length = fs.length)
    (hss : ss.length = ns.length) (w : S) (c c' : Name) :
    bindArgs (fs.map .HsPVar ++ [.HsPApp c (ns.map .HsPVar)])
      (φs.map (⟨·, none⟩) ++ [⟨w, some (c', ss)⟩]) =
      if c = c' then some (fs.zip φs ++ ns.zip ss) else none := by
  induction fs generalizing φs with
  | nil =>
    obtain rfl := List.length_eq_zero_iff.1 hfs
    simp only [List.map_nil, List.nil_append, bindArgs, bindArg]
    split
    · rw [bindFields_vars hss]
      simp
    · rfl
  | cons f fs ih =>
    cases φs with
    | nil => cases hfs
    | cons φ φs =>
      simp only [List.map_cons, List.cons_append, bindArgs, bindArg, bindField, ih (Nat.succ_inj.1 hfs)]
      split <;> rfl

theorem bindArgs_ne {fs : List Name} {φs ss : List S} {ps : List HsPat} (hfs : φs.length = fs.length) (w : S)
    {c c' : Name} (h : c ≠ c') :
    bindArgs (fs.map .HsPVar ++ [.HsPApp c ps]) (φs.map (⟨·, none⟩) ++ [⟨w, some (c', ss)⟩]) = none := by
  induction fs generalizing φs with
  | nil =>
    obtain rfl := List.length_eq_zero_iff.1 hfs
    simp [bindArgs, bindArg, h]
  | cons f fs ih =>
    cases φs with
    | nil => cases hfs
    | cons φ φs =>
      simp only [List.map_cons, List.cons_append, bindArgs, bindArg, bindField, ih (Nat.succ_inj.1 hfs)]
      rfl

/-! ### A clause for a constructor -/

/-- What the clause for `b` makes of the fields of `b`, given as `emb` says. -/
structure Reads (J : Interp S) (φs : List S) (emb : AnyField F O fv A → S) (b : Body HsBangType)
    (res : Fields F O fv A b.types → S → Prop) (m : HsClause) : Prop where
  miss : ∀ (w : S) (c : Name) (ss : List S), b.constructor ≠ c →
    bindArgs m.hsMatchPats (φs.map (⟨·, none⟩) ++ [⟨w, some (c, ss)⟩]) = none
  hit : ∀ (w : S) (ys : Fields F O fv A b.types), ∃ ρ,
    bindArgs m.hsMatchPats (φs.map (⟨·, none⟩) ++ [⟨w, some (b.constructor, ys.toList.map emb)⟩]) = some ρ ∧
      res ys (runClause J ρ m)

variable {J : Interp S} {φs : List S} {emb : AnyField F O fv A → S}

theorem Fields.length_toList {ts : List HsBangType} (ys : Fields F O fv A ts) : ys.toList.length = ts.length := by
  induction ys with
  | nil => rfl
  | cons y ys ih => rw [toList, List.length_cons, List.length_cons, ih]

theorem reads_of_pats {b : Body HsBangType} {res : Fields F O fv A b.types → S → Prop} {m : HsClause} {u : ℕ}
    (fs : List Name) (hlen : φs.length = fs.length) (hnodup : (fs ++ pvars u b.types.length).Nodup)
    (hfs : ∀ f ∈ fs, f.modName = [])
    (hpats : m.hsMatchPats =
      fs.map .HsPVar ++ [.HsPApp b.constructor ((pvars u b.types.length).map .HsPVar)])
    (hrun : ∀ ρ (ys : Fields F O fv A b.types),
      Binds ρ (fs ++ pvars u b.types.length) (φs ++ ys.toList.map emb) → res ys (runClause J ρ m)) :
    Reads J φs emb b res m where
  miss w c ss hne := by
    rw [hpats, bindArgs_ne hlen w hne]
  hit w ys := by
    have hss : (ys.toList.map emb).length = (pvars u b.types.length).length := by
      rw [List.length_map, Fields.length_toList, pvars_length]
    refine ⟨_, by rw [hpats, bindArgs_con hlen hss, if_pos rfl], hrun _ ys ?_⟩
    rw [← List.zip_append hlen.symm]
    refine ⟨lookup_zip hnodup (by simp [hlen, hss]), fun n => lookup_fresh fun x hx => ?_⟩
    obtain hmem | hmem := List.mem_append.1 (List.of_mem_zip hx).1
    · exact hfs _ hmem
    · obtain ⟨i, -, hi⟩ := List.mem_map.1 hmem
      rw [← hi]
      rfl

/-- The clause that is called is the one for the constructor. -/
theorem callFun_reads {bs : List (Body HsBangType)} {ms : HsFunBind}
    {res : (b : Body HsBangType) → Fields F O fv A b.types → S → Prop}
    (h : List.Forall₂ (fun b m => Reads J φs emb b (res b) m) bs ms) (hnodup : (bs.map Body.constructor).Nodup)
    {b : Body HsBangType} (hb : b ∈ bs) (ys : Fields F O fv A b.types) (w : S) :
    res b ys (callFun J ms (φs.map (⟨·, none⟩) ++ [⟨w, some (b.constructor, ys.toList.map emb)⟩])) := by
  induction h with
  | nil => cases hb
  | @cons b' m bs ms hm _ ih =>
    rw [List.map_cons, List.nodup_cons] at hnodup
    by_cases hc : b'.constructor = b.constructor
    · rcases List.mem_cons.1 hb with rfl | hb
      · obtain ⟨ρ, hbinds, hrun⟩ := hm.hit w ys
        rw [callFun, hbinds]
        exact hrun
      · exact absurd (List.mem_map.2 ⟨b, hb, hc.symm⟩) hnodup.1
    · rcases List.mem_cons.1 hb with rfl | hb
      · exact absurd rfl hc
      · rw [callFun, hm.miss w _ _ hc]
        exact ih hnodup.2 hb

end Binding

/-! ### The two functions of an instance -/

section Instance

variable {fv : Name} {d : DataDecl}

theorem mkInstN_quiet (num : ℕ) (der : Derive) (m : Str) (cn : Option Name) (ms : List HsFunBind) :
    Quiet (mkInstN num der m d cn ms) fun i =>
      i.hsDeclClassHead.hsClassHead = der.deriveHead.hsClassHead ∧ i.hsDeclDecls = ms := by
  unfold mkInstN
  split
  · exact Quiet.pure ⟨rfl, rfl⟩
  · exact Quiet.fresh (P := fun _ => True) (fun _ => trivial) fun tvars _ => Quiet.pure ⟨rfl, rfl⟩

/-- The matches of one function carry its name. -/
theorem method_of {i : HsInstDecl} {n n' : Name} {bs bsc : HsFunBind} (hne : n ≠ n') (hbs : bs ≠ []) (hbsc : bsc ≠ [])
    (hi : i.hsDeclDecls = [bs, bsc]) (hn : ∀ m ∈ bs, m.hsMatchName = n) (hn' : ∀ m ∈ bsc, m.hsMatchName = n') :
    method i n = bs ∧ method i n' = bsc := by
  obtain ⟨m, ms, rfl⟩ := List.exists_cons_of_ne_nil hbs
  obtain ⟨m', ms', rfl⟩ := List.exists_cons_of_ne_nil hbsc
  have hm := hn m (List.mem_cons_self ..)
  have hm' := hn' m' (List.mem_cons_self ..)
  have hfirst : ((m :: ms).any fun m => decide (m.hsMatchName = n)) = true := by
    simp [hm]
  have hmiss : ((m :: ms).any fun m => decide (m.hsMatchName = n')) = false := by
    rw [List.any_eq_false]
    intro x hx
    simpa [hn x hx] using hne
  have hsecond : ((m' :: ms').any fun m => decide (m.hsMatchName = n')) = true := by
    simp [hm']
  constructor
  · simp only [method, hi, List.find?_cons, hfirst, Option.getD_some]
  · simp only [method, hi, List.find?_cons, hmiss, hsecond, Option.getD_some]

/-- An instance of two functions with a clause for each constructor. -/
structure Generates (der : Derive) (d : DataDecl) (n n' : Name) (P P' : Body HsBangType → HsClause → Prop)
    (i : HsInstDecl) : Prop where
  head : i.hsDeclClassHead.hsClassHead = der.deriveHead.hsClassHead
  names : ∀ ms ∈ i.hsDeclDecls, ∀ m ∈ ms, m.hsMatchName = n ∨ m.hsMatchName = n'
  first : List.Forall₂ P d.body (method i n)
  second : List.Forall₂ P' d.body (method i n')

theorem names_of {n : Name} {P : Body HsBangType → HsClause → Prop} {bs : List (Body HsBangType)} {ms : HsFunBind}
    (h : List.Forall₂ (fun b m => m.hsMatchName = n ∧ P b m) bs ms) :
    (∀ m ∈ ms, m.hsMatchName = n) ∧ List.Forall₂ P bs ms := by
  induction h with
  | nil => exact ⟨by simp, .nil⟩
  | cons hm _ ih => exact ⟨List.forall_mem_cons.2 ⟨hm.1, ih.1⟩, .cons hm.2 ih.2⟩

theorem generates_quiet {der : Derive} {mod : Str} {n n' : Name} (hne : n ≠ n') (hbody : d.body ≠ [])
    {mk : Name → Body HsBangType → QW HsClause} {P P' : Body HsBangType → HsClause → Prop}
    (hname : ∀ n b, Quiet (mk n b) fun m => m.hsMatchName = n) (hP : ∀ b, Quiet (mk n b) (P b))
    (hP' : ∀ b, Quiet (mk n' b) (P' b)) (cn : Option Name) :
    Quiet (do
      let bs ← d.body.mapM (mk n)
      let bsc ← d.body.mapM (mk n')
      mkInstN 1 der mod d cn [bs, bsc]) (Generates der d n n' P P') := by
  have hend (ms : List HsFunBind) := mkInstN_quiet (d := d) 1 der mod cn ms
  have hfirst := Quiet.mapM (l := d.body) fun b => (hname n b).and (hP b)
  have hsecond := Quiet.mapM (l := d.body) fun b => (hname n' b).and (hP' b)
  refine hfirst.bind (fun bs hbs => ?_) fun bs => ?_
  · refine hsecond.bind (fun bsc hbsc => ?_) fun bsc => (hend _).mono fun _ _ => trivial
    refine (hend [bs, bsc]).mono fun i hi => ?_
    obtain ⟨hn, hbs⟩ := names_of hbs
    obtain ⟨hn', hbsc⟩ := names_of hbsc
    have hms : bs ≠ [] := by
      rintro rfl
      exact hbody (List.forall₂_nil_right_iff.1 hbs)
    have hmsc : bsc ≠ [] := by
      rintro rfl
      exact hbody (List.forall₂_nil_right_iff.1 hbsc)
    obtain ⟨hi₁, hi₂⟩ := method_of hne hms hmsc hi.2 hn hn'
    refine ⟨hi.1, fun ms hms m hm => ?_, hi₁ ▸ hbs, hi₂ ▸ hbsc⟩
    rw [hi.2] at hms
    rcases List.mem_cons.1 hms with rfl | hms
    · exact .inl (hn m hm)
    · obtain rfl := List.mem_singleton.1 hms
      exact .inr (hn' m hm)
  · exact hsecond.bind (fun bsc _ => (hend _).mono fun _ _ => trivial)
      fun bsc => (hend _).mono fun _ _ => trivial

end Instance

end Jhc.Deriving.Traverse

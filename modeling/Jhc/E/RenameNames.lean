import Jhc.E.RenameE

/-!
# The names that renaming hands out
-/

namespace Jhc.E
open Jhc.FrontEnd.Exports (Name)

/-- A run that binds the names `xs`, which are new and differ from each other. -/
structure Names.Adds (st st' : Names) (xs : List Id) : Prop where
  bound : ∀ y, y ∈ st'.bound ↔ y ∈ st.bound ∨ y ∈ xs
  nodup : xs.Nodup
  fresh : ∀ y ∈ xs, y ∉ st.bound

namespace Names.Adds

variable {st st' st'' : Names} {xs ys : List Id}

theorem nothing (h : st'.bound = st.bound) : st.Adds st' [] where
  bound y := by simp [h]
  nodup := List.nodup_nil
  fresh y hy := by cases hy

theorem refl (st : Names) : st.Adds st [] := nothing rfl

theorem trans (h : st.Adds st' xs) (h' : st'.Adds st'' ys) : st.Adds st'' (xs ++ ys) where
  bound y := by rw [h'.bound,h.bound,List.mem_append,or_assoc]
  nodup := by
    refine List.nodup_append.mpr ⟨h.nodup, h'.nodup, ?_⟩
    intro x hx y hy hxy
    exact h'.fresh y hy ((h.bound y).mpr (Or.inr (hxy ▸ hx)))
  fresh y hy := by
    intro hb
    rcases List.mem_append.mp hy with hx | hy
    · exact h.fresh y hx hb
    · exact h'.fresh y hy ((h.bound y).mpr (Or.inl hb))

theorem addNames (h : st.Adds st' xs) (ns : List Id) : st.Adds (st'.addNames ns) xs :=
  ⟨h.bound, h.nodup, h.fresh⟩

theorem of_chosen {x : Id} (h : st.Chosen st' x) : st.Adds st' [x] where
  bound y := by rw [h.bound,Finset.mem_insert,List.mem_singleton,or_comm]
  nodup := List.nodup_singleton x
  fresh y hy := by
    rw [List.mem_singleton.mp hy]
    exact h.fresh

theorem mono (h : st.Adds st' xs) {y : Id} (hy : y ∈ st.bound) : y ∈ st'.bound :=
  (h.bound y).mpr (Or.inl hy)

end Names.Adds

namespace Rename

variable (im : IdMap) (st : Names)

/-! ### One binder -/

theorem chooseName_chosen (ralways : Bool) (n : Id) :
    st.Chosen (chooseName ralways n st).2 (chooseName ralways n st).1 := by
  unfold chooseName
  split
  · exact uniqueName_chosen n st
  · exact newName_chosen st

theorem chooseName_ne_emptyId (ralways : Bool) {n : Id} (hn : n ≠ .emptyId) :
    (chooseName ralways n st).1 ≠ .emptyId := by
  unfold chooseName
  split
  · by_cases h : n ∈ st.bound
    · rw [uniqueName_of_mem h]
      exact newName_ne_emptyId st
    · rw [uniqueName_of_notMem h]
      exact hn
  · exact newName_ne_emptyId st

/-- The new name of a binder; an unused binding site keeps its own. -/
def pick (ralways : Bool) (n : Id) : IdNameT Id :=
  if n = .emptyId then return n else chooseName ralways n

/-- The substitution that a binder asks for. -/
def entry (n : Id) (tv : TVr) : IdMap :=
  if n = .emptyId then IdMap.mempty else IdMap.msingleton n (.eVar tv)

theorem ntvr_run (ralways : Bool) (n : Id) (t : E) :
    ntvr ralways im (.mk n t) st =
      let n' := pick ralways n st
      let t' := f im t n'.2
      ((entry n (.mk n'.1 t'.1), .mk n'.1 t'.1), t'.2) := by
  rw [ntvr]
  unfold pick entry
  split
  · rfl
  · rfl

theorem pick_adds (ralways : Bool) (n : Id) :
    st.Adds (pick ralways n st).2 (named (pick ralways n st).1) := by
  unfold pick named
  by_cases hn : n = .emptyId
  · rw [if_pos hn]
    have h : (pure n : IdNameT Id) st = (n, st) := rfl
    rw [h,if_pos hn]
    exact Names.Adds.refl st
  · rw [if_neg hn,if_neg (chooseName_ne_emptyId st ralways hn)]
    exact Names.Adds.of_chosen (chooseName_chosen st ralways n)

theorem pick_emptyId (ralways : Bool) : pick ralways .emptyId st = (.emptyId, st) := rfl

theorem pick_ne_emptyId (ralways : Bool) {n : Id} (hn : n ≠ .emptyId) :
    (pick ralways n st).1 ≠ .emptyId := by
  unfold pick
  rw [if_neg hn]
  exact chooseName_ne_emptyId st ralways hn

theorem pick_fresh (ralways : Bool) {n : Id} (hn : n ≠ .emptyId) :
    (pick ralways n st).1 ∉ st.bound := by
  unfold pick
  rw [if_neg hn]
  exact (chooseName_chosen st ralways n).fresh

/-! ### Substitutions by variables -/

/-- The substitution puts variables for variables. -/
def OfVars (im : IdMap) : Prop := ∀ n v, im n = some v → ∃ tv, v = .eVar tv

theorem ofVars_mempty : OfVars IdMap.mempty := by
  intro n v h
  cases h

theorem ofVars_entry (n : Id) (tv : TVr) : OfVars (entry n tv) := by
  intro m v h
  unfold entry at h
  by_cases hn : n = .emptyId
  · rw [if_pos hn] at h
    cases h
  · rw [if_neg hn] at h
    unfold IdMap.msingleton at h
    split at h
    · injection h with hv
      exact ⟨tv, hv.symm⟩
    · cases h

theorem OfVars.mappend {a b : IdMap} (ha : OfVars a) (hb : OfVars b) : OfVars (a.mappend b) := by
  intro n v h
  unfold IdMap.mappend at h
  cases hn : a n with
  | none =>
    rw [hn] at h
    exact hb n v h
  | some w =>
    rw [hn] at h
    exact ha n v (hn.trans h)

theorem ntvr_entry (ralways : Bool) (t : TVr) :
    (ntvr ralways im t st).1.1 = entry t.tvrIdent (ntvr ralways im t st).1.2 := by
  cases t with
  | mk n t =>
    rw [ntvr_run]
    rfl

theorem ofVars_ntvr {im : IdMap} (h : OfVars im) (ralways : Bool) (t : TVr) :
    OfVars ((ntvr ralways im t st).1.1.mappend im) := by
  rw [ntvr_entry]
  exact (ofVars_entry _ _).mappend h

theorem ofVars_mconcat {as : List IdMap} (h : ∀ a ∈ as, OfVars a) : OfVars (IdMap.mconcat as) := by
  induction as with
  | nil => exact ofVars_mempty
  | cons a as ih =>
    exact (h a (List.mem_cons_self ..)).mappend (ih fun b hb => h b (List.mem_cons_of_mem a hb))

theorem ntvrs_entries : (ts : List TVr) → (st : Names) →
    (ntvrs im ts st).1.map Prod.fst =
      List.zipWith entry (idents ts) ((ntvrs im ts st).1.map Prod.snd)
  | [], _ => rfl
  | t :: ts, st => congrArg₂ List.cons (ntvr_entry im st false t) (ntvrs_entries ts _)

theorem ntvrDefs_entries : (ds : List Def) → (st : Names) →
    (ntvrDefs im ds st).1.map Prod.fst =
      List.zipWith entry (idents (ds.map Def.var)) ((ntvrDefs im ds st).1.map Prod.snd)
  | [], _ => rfl
  | .mk t _ :: ds, st => congrArg₂ List.cons (ntvr_entry im st false t) (ntvrDefs_entries ds _)

theorem ofVars_entries (ns : List Id) (ts : List TVr) : ∀ a ∈ List.zipWith entry ns ts, OfVars a := by
  induction ns generalizing ts with
  | nil =>
    intro a ha
    cases ha
  | cons n ns ih =>
    cases ts with
    | nil =>
      intro a ha
      cases ha
    | cons t ts =>
      intro a ha
      rcases List.mem_cons.mp ha with h | h
      · rw [h]
        exact ofVars_entry n t
      · exact ih ts a h

theorem ofVars_ntvrs {im : IdMap} (h : OfVars im) (ts : List TVr) :
    OfVars ((IdMap.mconcat ((ntvrs im ts st).1.map Prod.fst)).mappend im) := by
  rw [ntvrs_entries]
  exact (ofVars_mconcat (ofVars_entries _ _)).mappend h

theorem ofVars_ntvrDefs {im : IdMap} (h : OfVars im) (ds : List Def) :
    OfVars ((IdMap.mconcat ((ntvrDefs im ds st).1.map Prod.fst)).mappend im) := by
  rw [ntvrDefs_entries]
  exact (ofVars_mconcat (ofVars_entries _ _)).mappend h

/-! ### Groups of a letrec -/

theorem ntvrDefs_length : (ds : List Def) → (st : Names) →
    ((ntvrDefs im ds st).1.map Prod.snd).length = ds.length
  | [], _ => rfl
  | .mk _ _ :: ds, _ => congrArg Nat.succ (ntvrDefs_length ds _)

theorem fRhss_length : (ds : List Def) → (st : Names) → (fRhss im ds st).1.length = ds.length
  | [], _ => rfl
  | .mk _ _ :: ds, _ => congrArg Nat.succ (fRhss_length ds _)

theorem bindersBinders_zip {ts : List TVr} {es : List E} (h : ts.length = es.length) :
    bindersBinders (List.zipWith Def.mk ts es) = bindersVars ts := by
  induction ts generalizing es with
  | nil => rfl
  | cons t ts ih =>
    cases es with
    | nil => cases h
    | cons e es => exact congrArg (bindersVar t ++ ·) (ih (Nat.succ.inj h))

theorem bindersRhss_zip {ts : List TVr} {es : List E} (h : ts.length = es.length) :
    bindersRhss (List.zipWith Def.mk ts es) = bindersArgs es := by
  induction ts generalizing es with
  | nil =>
    cases es with
    | nil => rfl
    | cons e es => cases h
  | cons t ts ih =>
    cases es with
    | nil => cases h
    | cons e es => exact congrArg (binders e ++ ·) (ih (Nat.succ.inj h))

/-! ### A whole term -/

/-- The names when the binder of a case is reached, and when the binders of a letrec are. -/
def atCase (im : IdMap) (e t : E) (b : TVr) (as : List Alt) (st : Names) : Names :=
  (f im t (f im e st).2).2.addNames (idents (caseBinds b as))

def atLetRec (ds : List Def) (st : Names) : Names := st.addNames (idents (ds.map Def.var))

/-- The substitution inside a letrec. -/
def inLetRec (im : IdMap) (ds : List Def) (st : Names) : IdMap :=
  (IdMap.mconcat ((ntvrDefs im ds (atLetRec ds st)).1.map Prod.fst)).mappend im

variable {im}

mutual

theorem f_adds {im : IdMap} (h : OfVars im) :
    (e : E) → (st : Names) → st.Adds (f im e st).2 (binders (f im e st).1)
  | .eAp a b, st => (f_adds h a st).trans (f_adds h b _)
  | .eLit _ xs t, st => (fs_adds h xs st).trans (f_adds h t _)
  | .eLitInt _ t, st => f_adds h t st
  | .eError _ t, st => f_adds h t st
  | .ePrim _ es t, st => (fs_adds h es st).trans (f_adds h t _)
  | .eLam tvr e, st => (ntvr_adds h true tvr st).trans (f_adds (ofVars_ntvr st h true tvr) e _)
  | .ePi tvr e, st => (ntvr_adds h true tvr st).trans (f_adds (ofVars_ntvr st h true tvr) e _)
  | .eVar tvr, st => by
      change st.Adds st (binders ((im tvr.tvrIdent).getD (.eVar tvr)))
      cases hx : im tvr.tvrIdent with
      | none => exact Names.Adds.refl st
      | some v =>
        obtain ⟨tv, rfl⟩ := h _ v hx
        exact Names.Adds.refl st
  | .eSort _, st => Names.Adds.refl st
  | .unknown, st => Names.Adds.refl st
  | .eCase e t b as d, st => by
      have ht : st.Adds (atCase im e t b as st) _ :=
        ((f_adds h e st).trans (f_adds h t _)).addNames (idents (caseBinds b as))
      have hm := ofVars_ntvr (atCase im e t b as st) h false b
      have hb := ht.trans (ntvr_adds h false b _)
      have has := hb.trans (das_adds hm as _)
      exact has.trans (fDefault_adds hm d _)
  | .eLetRec ds e, st => by
      have hn : st.Adds (atLetRec ds st) [] := (Names.Adds.refl st).addNames _
      have hm : OfVars (inLetRec im ds st) := ofVars_ntvrDefs (atLetRec ds st) h ds
      have hb := hn.trans (ntvrDefs_adds h ds _)
      have hr := hb.trans (fRhss_adds hm ds _)
      have he := hr.trans (f_adds hm e _)
      have hlen := (ntvrDefs_length im ds (atLetRec ds st)).trans
        (fRhss_length (inLetRec im ds st) ds (ntvrDefs im ds (atLetRec ds st)).2).symm
      rw [← bindersBinders_zip hlen,← bindersRhss_zip hlen] at he
      exact he

theorem ntvr_adds {im : IdMap} (h : OfVars im) (ralways : Bool) : (t : TVr) → (st : Names) →
    st.Adds (ntvr ralways im t st).2 (bindersVar (ntvr ralways im t st).1.2)
  | .mk n t, st => by
      rw [ntvr_run]
      exact (pick_adds st ralways n).trans (f_adds h t _)

theorem ntvrs_adds {im : IdMap} (h : OfVars im) : (ts : List TVr) → (st : Names) →
    st.Adds (ntvrs im ts st).2 (bindersVars ((ntvrs im ts st).1.map Prod.snd))
  | [], st => Names.Adds.refl st
  | t :: ts, st => (ntvr_adds h false t st).trans (ntvrs_adds h ts _)

theorem ntvrDefs_adds {im : IdMap} (h : OfVars im) : (ds : List Def) → (st : Names) →
    st.Adds (ntvrDefs im ds st).2 (bindersVars ((ntvrDefs im ds st).1.map Prod.snd))
  | [], st => Names.Adds.refl st
  | .mk t _ :: ds, st => (ntvr_adds h false t st).trans (ntvrDefs_adds h ds _)

theorem fRhss_adds {im : IdMap} (h : OfVars im) : (ds : List Def) → (st : Names) →
    st.Adds (fRhss im ds st).2 (bindersArgs (fRhss im ds st).1)
  | [], st => Names.Adds.refl st
  | .mk _ e :: ds, st => (f_adds h e st).trans (fRhss_adds h ds _)

theorem fs_adds {im : IdMap} (h : OfVars im) : (es : List E) → (st : Names) →
    st.Adds (fs im es st).2 (bindersArgs (fs im es st).1)
  | [], st => Names.Adds.refl st
  | e :: es, st => (f_adds h e st).trans (fs_adds h es _)

theorem da_adds {im : IdMap} (h : OfVars im) : (a : Alt) → (st : Names) →
    st.Adds (da im a st).2 (bindersAlt (da im a st).1)
  | .litCons _ xs t l, st => by
      have ht := f_adds h t st
      have hxs := ntvrs_adds h xs (f im t st).2
      have hl := f_adds (ofVars_ntvrs (f im t st).2 h xs) l (ntvrs im xs (f im t st).2).2
      exact (ht.trans hxs).trans hl
  | .litInt _ t l, st => (f_adds h t st).trans (f_adds h l _)

theorem das_adds {im : IdMap} (h : OfVars im) : (as : List Alt) → (st : Names) →
    st.Adds (das im as st).2 (bindersAlts (das im as st).1)
  | [], st => Names.Adds.refl st
  | a :: as, st => (da_adds h a st).trans (das_adds h as _)

theorem fDefault_adds {im : IdMap} (h : OfVars im) : (d : Option E) → (st : Names) →
    st.Adds (fDefault im d st).2 (bindersDefault (fDefault im d st).1)
  | none, st => Names.Adds.refl st
  | some e, st => f_adds h e st

end

end Rename

end Jhc.E

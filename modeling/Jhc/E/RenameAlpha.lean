import Jhc.E.RenameNames

/-!
# When renaming keeps a term (E/Traverse.hs:91-160)
-/

namespace Jhc.E
open Jhc.FrontEnd.Exports (Name)
open Jhc.Nameless

namespace Rename

/-! ### Patterns whose variables keep their names

`da` renames the type of a variable of a pattern by the substitution from outside the pattern. -/

mutual

/-- In every pattern of the term, a variable that the type of a later one mentions is neither bound
outside nor among the bound names when the pattern is reached. -/
def Kept (im : IdMap) : E → Names → Prop
  | .eAp a b, st => Kept im a st ∧ Kept im b (f im a st).2
  | .eLit _ xs t, st => KeptArgs im xs st ∧ Kept im t (fs im xs st).2
  | .eLitInt _ t, st => Kept im t st
  | .eError _ t, st => Kept im t st
  | .ePrim _ es t, st => KeptArgs im es st ∧ Kept im t (fs im es st).2
  | .eLam tvr e, st => KeptVar true im tvr st ∧
      Kept ((ntvr true im tvr st).1.1.mappend im) e (ntvr true im tvr st).2
  | .ePi tvr e, st => KeptVar true im tvr st ∧
      Kept ((ntvr true im tvr st).1.1.mappend im) e (ntvr true im tvr st).2
  | .eVar _, _ => True
  | .eSort _, _ => True
  | .unknown, _ => True
  | .eCase e t b as d, st =>
      let r := ntvr false im b (atCase im e t b as st)
      Kept im e st ∧ Kept im t (f im e st).2 ∧ KeptVar false im b (atCase im e t b as st) ∧
        KeptAlts (r.1.1.mappend im) as r.2 ∧
        KeptDefault (r.1.1.mappend im) d (das (r.1.1.mappend im) as r.2).2
  | .eLetRec ds e, st =>
      let st' := (ntvrDefs im ds (atLetRec ds st)).2
      KeptBinders im ds (atLetRec ds st) ∧ KeptRhss (inLetRec im ds st) ds st' ∧
        Kept (inLetRec im ds st) e (fRhss (inLetRec im ds st) ds st').2

def KeptVar (ralways : Bool) (im : IdMap) : TVr → Names → Prop
  | .mk n t, st => Kept im t (pick ralways n st).2

def KeptPattern (im : IdMap) : List TVr → Names → Prop
  | [], _ => True
  | t :: ts, st => KeptVar false im t st ∧
      (t.tvrIdent ∈ freePattern ts →
        t.tvrIdent = .emptyId ∨ im t.tvrIdent = none ∧ t.tvrIdent ∉ st.bound) ∧
      KeptPattern im ts (ntvr false im t st).2

def KeptBinder (im : IdMap) : Def → Names → Prop
  | .mk t _, st => KeptVar false im t st

def KeptBinders (im : IdMap) : List Def → Names → Prop
  | [], _ => True
  | d :: ds, st => KeptBinder im d st ∧ KeptBinders im ds (ntvrDef im d st).2

def KeptRhs (im : IdMap) : Def → Names → Prop
  | .mk _ e, st => Kept im e st

def KeptRhss (im : IdMap) : List Def → Names → Prop
  | [], _ => True
  | d :: ds, st => KeptRhs im d st ∧ KeptRhss im ds (fRhs im d st).2

def KeptArgs (im : IdMap) : List E → Names → Prop
  | [], _ => True
  | e :: es, st => Kept im e st ∧ KeptArgs im es (f im e st).2

def KeptAlt (im : IdMap) : Alt → Names → Prop
  | .litCons _ xs t l, st =>
      let r := ntvrs im xs (f im t st).2
      Kept im t st ∧ KeptPattern im xs (f im t st).2 ∧
        Kept ((IdMap.mconcat (r.1.map Prod.fst)).mappend im) l r.2
  | .litInt _ t l, st => Kept im t st ∧ Kept im l (f im t st).2

def KeptAlts (im : IdMap) : List Alt → Names → Prop
  | [], _ => True
  | a :: as, st => KeptAlt im a st ∧ KeptAlts im as (da im a st).2

def KeptDefault (im : IdMap) : Option E → Names → Prop
  | none, _ => True
  | some e, st => Kept im e st

end

/-! ### The names a substitution gives -/

def image (im : IdMap) (y : Id) : Id :=
  match im y with
  | some (.eVar t) => t.tvrIdent
  | _ => y

theorem image_of_none {im : IdMap} {y : Id} (h : im y = none) : image im y = y := by
  unfold image
  rw [h]

theorem image_of_some {im : IdMap} {y : Id} {t : TVr} (h : im y = some (.eVar t)) :
    image im y = t.tvrIdent := by
  unfold image
  rw [h]

/-- The substitution gives bound names. -/
structure Covers (im : IdMap) (st : Names) : Prop where
  vars : ∀ n v, im n = some v → ∃ t, v = .eVar t ∧ t.tvrIdent ∈ st.bound ∧ t.tvrIdent ≠ .emptyId
  emptyId : im .emptyId = none

/-- The names that the substitution does not touch are bound names. -/
def Known (im : IdMap) (st : Names) (ys : List Id) : Prop :=
  ∀ y ∈ ys, y ≠ .emptyId → im y = none → y ∈ st.bound

def Agree (Γ Γ' : List Id) (im : IdMap) (ys : List Id) : Prop :=
  ∀ y ∈ ys, Agrees Γ Γ' (image im) y

variable {im : IdMap} {st st' : Names} {Γ Γ' xs ys zs : List Id}

theorem Covers.ofVars (h : Covers im st) : OfVars im := by
  intro n v hn
  obtain ⟨t, ht, _⟩ := h.vars n v hn
  exact ⟨t, ht⟩

theorem Covers.mono (h : Covers im st) (ha : st.Adds st' xs) : Covers im st' where
  vars n v hn := by
    obtain ⟨t, ht, hb, hne⟩ := h.vars n v hn
    exact ⟨t, ht, ha.mono hb, hne⟩
  emptyId := h.emptyId

theorem Known.mono (h : Known im st ys) (ha : st.Adds st' xs) : Known im st' ys :=
  fun y hy hne hn => ha.mono (h y hy hne hn)

theorem known_append : Known im st (ys ++ zs) ↔ Known im st ys ∧ Known im st zs := by
  simp only [Known,List.mem_append,or_imp,forall_and]

theorem agree_append : Agree Γ Γ' im (ys ++ zs) ↔ Agree Γ Γ' im ys ∧ Agree Γ Γ' im zs := by
  simp only [Agree,List.mem_append,or_imp,forall_and]

theorem image_emptyId (h : Covers im st) : image im .emptyId = .emptyId := image_of_none h.emptyId

/-- A name handed out now is nobody's image. -/
theorem image_ne (h : Covers im st) {x x' y : Id} (hk : y ≠ .emptyId → im y = none → y ∈ st.bound)
    (hx : x = .emptyId ∧ x' = .emptyId ∨ x' ≠ .emptyId ∧ x' ∉ st.bound) (hy : y ≠ x) :
    image im y ≠ x' := by
  cases hi : im y with
  | some v =>
    obtain ⟨t, rfl, hb, hne⟩ := h.vars y v hi
    rw [image_of_some hi]
    rcases hx with ⟨_, rfl⟩ | ⟨_, hf⟩
    · exact hne
    · exact fun ht => hf (ht ▸ hb)
  | none =>
    rw [image_of_none hi]
    rcases hx with ⟨rfl, rfl⟩ | ⟨hne, hf⟩
    · exact hy
    · intro hyx
      rw [hyx] at hk hi
      exact hf (hk hne hi)

/-! ### Groups of binders -/

/-- The new name of one binder. -/
def Renames (st : Names) (n : Id) (t : TVr) : Prop :=
  n = .emptyId ∧ t.tvrIdent = .emptyId ∨
    n ≠ .emptyId ∧ t.tvrIdent ≠ .emptyId ∧ t.tvrIdent ∉ st.bound

/-- Binders `ns` that are named anew as `ts`, from `st` to `st'`. -/
structure Group (st st' : Names) (ns : List Id) (ts : List TVr) : Prop where
  pairs : List.Forall₂ (Renames st) ns ts
  apart : Apart (ns.zip (idents ts))
  bound : ∀ t ∈ ts, t.tvrIdent = .emptyId ∨ t.tvrIdent ∈ st'.bound

/-- The substitution under a group. -/
def under (ns : List Id) (ts : List TVr) (im : IdMap) : IdMap :=
  (IdMap.mconcat (List.zipWith entry ns ts)).mappend im

theorem under_cons (n : Id) (ns : List Id) (t : TVr) (ts : List TVr) (im : IdMap) :
    under (n :: ns) (t :: ts) im = (entry n t).mappend (under ns ts im) := by
  funext y
  exact Option.or_assoc

theorem entry_mappend_self {n : Id} (hn : n ≠ .emptyId) (t : TVr) (im : IdMap) :
    (entry n t).mappend im n = some (.eVar t) := by
  simp [entry,IdMap.mappend,IdMap.msingleton,hn]

theorem entry_mappend_of_ne {n y : Id} (hy : y ≠ n) (t : TVr) (im : IdMap) :
    (entry n t).mappend im y = im y := by
  unfold entry
  split
  · rfl
  · simp [IdMap.mappend,IdMap.msingleton,hy]

theorem entry_mappend_emptyId (t : TVr) (im : IdMap) : (entry .emptyId t).mappend im = im := rfl

theorem under_some {ns : List Id} {ts : List TVr} (hp : List.Forall₂ (Renames st) ns ts) {y : Id}
    {v : E} (h : under ns ts im y = some v) :
    im y = some v ∨ ∃ t ∈ ts, v = .eVar t ∧ t.tvrIdent ≠ .emptyId := by
  induction hp with
  | nil => exact Or.inl h
  | @cons n t ns ts hnt hp ih =>
    rw [under_cons] at h
    by_cases hy : y = n ∧ n ≠ .emptyId
    · obtain ⟨rfl, hn⟩ := hy
      rw [entry_mappend_self hn] at h
      injection h with hv
      refine Or.inr ⟨t, List.mem_cons_self .., hv.symm, ?_⟩
      rcases hnt with ⟨hn', _⟩ | ⟨_, ht, _⟩
      · exact absurd hn' hn
      · exact ht
    · have hrest : (entry n t).mappend (under ns ts im) y = under ns ts im y := by
        by_cases hn : n = .emptyId
        · rw [hn,entry_mappend_emptyId]
        · exact entry_mappend_of_ne (fun hyn => hy ⟨hyn, hn⟩) t _
      rcases ih (hrest.symm.trans h) with hi | ⟨u, hu, hv, hne⟩
      · exact Or.inl hi
      · exact Or.inr ⟨u, List.mem_cons_of_mem t hu, hv, hne⟩

theorem under_none {ns : List Id} {ts : List TVr} (hp : List.Forall₂ (Renames st) ns ts) {y : Id}
    (hy : y ≠ .emptyId) (h : under ns ts im y = none) : im y = none ∧ y ∉ ns := by
  induction hp with
  | nil => exact ⟨h, List.not_mem_nil⟩
  | @cons n t ns ts hnt hp ih =>
    rw [under_cons] at h
    by_cases hyn : y = n
    · subst hyn
      rw [entry_mappend_self hy] at h
      cases h
    · rw [entry_mappend_of_ne hyn] at h
      obtain ⟨hi, hns⟩ := ih h
      exact ⟨hi, List.not_mem_cons_of_ne_of_not_mem hyn hns⟩

theorem image_under {ns : List Id} {ts : List TVr} (hp : List.Forall₂ (Renames st) ns ts)
    (h0 : im .emptyId = none) :
    under ns ts im .emptyId = none ∧
      image (under ns ts im) = updates (image im) (ns.zip (idents ts)) := by
  induction hp with
  | nil => exact ⟨h0, rfl⟩
  | @cons n t ns ts hnt hp ih =>
    obtain ⟨h0', hi⟩ := ih
    rw [under_cons]
    have hz : (n :: ns).zip (idents (t :: ts)) = (n, t.tvrIdent) :: ns.zip (idents ts) := rfl
    rw [hz,updates,← hi]
    rcases hnt with ⟨rfl, ht⟩ | ⟨hn, _, _⟩
    · rw [entry_mappend_emptyId,ht]
      refine ⟨h0', ?_⟩
      conv_rhs => rw [← image_of_none h0']
      rw [image_of_none h0']
      exact (Function.update_eq_self_iff.mpr (image_of_none h0').symm).symm
    · refine ⟨(entry_mappend_of_ne hn.symm t _).trans h0', ?_⟩
      funext y
      by_cases hy : y = n
      · subst hy
        rw [Function.update_self]
        exact image_of_some (entry_mappend_self hn t _)
      · rw [Function.update_of_ne hy]
        unfold image
        rw [entry_mappend_of_ne hy]

theorem Group.pair {ns : List Id} {ts : List TVr} (hg : Group st st' ns ts) {p : Id × Id}
    (hp : p ∈ ns.zip (idents ts)) :
    (p.1 = .emptyId ∧ p.2 = .emptyId ∨ p.1 ≠ .emptyId ∧ p.2 ≠ .emptyId ∧ p.2 ∉ st.bound) ∧
      p.1 ∈ ns := by
  have hpairs := hg.pairs
  clear hg
  induction hpairs with
  | nil => cases hp
  | @cons n t ns ts hnt _ ih =>
    rcases List.mem_cons.mp hp with rfl | hp
    · exact ⟨hnt, List.mem_cons_self ..⟩
    · obtain ⟨hr, hn⟩ := ih hp
      exact ⟨hr, List.mem_cons_of_mem n hn⟩

theorem Group.covers {ns : List Id} {ts : List TVr} (hg : Group st st' ns ts) (h : Covers im st') :
    Covers (under ns ts im) st' where
  vars y v hy := by
    rcases under_some hg.pairs hy with hi | ⟨t, ht, hv, hne⟩
    · exact h.vars y v hi
    · exact ⟨t, hv, (hg.bound t ht).resolve_left hne, hne⟩
  emptyId := (image_under hg.pairs h.emptyId).1

theorem Group.known {ns : List Id} {ts : List TVr} (hg : Group st st' ns ts)
    (h : Known im st' (ys.filter (· ∉ ns))) : Known (under ns ts im) st' ys := by
  intro y hy hne hn
  obtain ⟨hi, hns⟩ := under_none hg.pairs hne hn
  exact h y (List.mem_filter.mpr ⟨hy, decide_eq_true hns⟩) hne hi

theorem Group.agree {ns : List Id} {ts : List TVr} (hg : Group st st' ns ts) (h : Covers im st)
    (hk : Known im st (ys.filter (· ∉ ns))) :
    Agree (ns ++ Γ) (idents ts ++ Γ') (under ns ts im) ys ↔
      Agree Γ Γ' im (ys.filter (· ∉ ns)) := by
  have hlen : ns.length = (idents ts).length := by
    rw [idents,List.length_map]
    exact hg.pairs.length_eq
  have hfst : (ns.zip (idents ts)).map Prod.fst = ns := List.map_fst_zip hlen.le
  have hsnd : (ns.zip (idents ts)).map Prod.snd = idents ts := List.map_snd_zip hlen.ge
  have hone : ∀ y ∈ ys, Agrees (ns ++ Γ) (idents ts ++ Γ') (image (under ns ts im)) y ↔
      (y ∉ ns → Agrees Γ Γ' (image im) y) := by
    intro y hy
    have hfresh : y ∉ (ns.zip (idents ts)).map Prod.fst → ∀ p ∈ ns.zip (idents ts), image im y ≠ p.2 := by
      rw [hfst]
      intro hyn p hp
      obtain ⟨hr, hmem⟩ := hg.pair hp
      have hky := hk y (List.mem_filter.mpr ⟨hy, decide_eq_true hyn⟩)
      refine image_ne h hky ?_ fun hyp => hyn (hyp ▸ hmem)
      exact hr.imp id And.right
    have hu : Agrees (_ ++ Γ) (_ ++ Γ') _ y ↔ _ := agrees_updates hg.apart hfresh
    rw [hfst,hsnd] at hu
    rw [(image_under hg.pairs h.emptyId).2]
    exact hu
  unfold Agree
  constructor
  · intro ha y hy
    obtain ⟨hy, hyn⟩ := List.mem_filter.mp hy
    exact (hone y hy).mp (ha y hy) (of_decide_eq_true hyn)
  · intro ha y hy
    exact (hone y hy).mpr fun hyn => ha y (List.mem_filter.mpr ⟨hy, decide_eq_true hyn⟩)

/-! ### The binders that renaming names -/

theorem ntvr_ident (ralways : Bool) (im : IdMap) (t : TVr) (st : Names) :
    (ntvr ralways im t st).1.2.tvrIdent = (pick ralways t.tvrIdent st).1 := by
  cases t with
  | mk n t =>
    rw [ntvr_run]
    rfl

theorem pick_renames (ralways : Bool) (n : Id) (st : Names) :
    n = .emptyId ∧ (pick ralways n st).1 = .emptyId ∨
      n ≠ .emptyId ∧ (pick ralways n st).1 ≠ .emptyId ∧ (pick ralways n st).1 ∉ st.bound := by
  by_cases hn : n = .emptyId
  · left
    rw [hn]
    exact ⟨rfl, rfl⟩
  · exact Or.inr ⟨hn, pick_ne_emptyId st ralways hn, pick_fresh st ralways hn⟩

theorem ntvr_renames (ralways : Bool) (im : IdMap) (t : TVr) (st : Names) :
    Renames st t.tvrIdent (ntvr ralways im t st).1.2 := by
  unfold Renames
  rw [ntvr_ident]
  exact pick_renames ralways t.tvrIdent st

theorem ntvr_bound (h : OfVars im) (ralways : Bool) (t : TVr) (st : Names) :
    (ntvr ralways im t st).1.2.tvrIdent = .emptyId ∨
      (ntvr ralways im t st).1.2.tvrIdent ∈ (ntvr ralways im t st).2.bound := by
  have ha := ntvr_adds h ralways t st
  cases ht : (ntvr ralways im t st).1.2 with
  | mk n u =>
    rw [ht] at ha
    by_cases hn : n = .emptyId
    · exact Or.inl hn
    · right
      refine (ha.bound n).mpr (Or.inr ?_)
      rw [bindersVar,named,if_neg hn]
      exact List.mem_cons_self ..

/-- One binder is a group. -/
theorem ntvr_group (h : OfVars im) (ralways : Bool) (t : TVr) (st : Names) :
    Group st (ntvr ralways im t st).2 [t.tvrIdent] [(ntvr ralways im t st).1.2] where
  pairs := List.Forall₂.cons (ntvr_renames ralways im t st) List.Forall₂.nil
  apart := List.pairwise_singleton _ _
  bound u hu := by
    rw [List.mem_singleton.mp hu]
    exact ntvr_bound h ralways t st

theorem ntvr_under (ralways : Bool) (im : IdMap) (t : TVr) (st : Names) :
    (ntvr ralways im t st).1.1.mappend im =
      under [t.tvrIdent] [(ntvr ralways im t st).1.2] im := by
  rw [ntvr_entry,under_cons]
  rfl

theorem ntvrs_group (h : OfVars im) (ts : List TVr) (st : Names) :
    Group st (ntvrs im ts st).2 (idents ts) ((ntvrs im ts st).1.map Prod.snd) := by
  induction ts generalizing st with
  | nil => exact ⟨List.Forall₂.nil, List.Pairwise.nil, fun t ht => absurd ht List.not_mem_nil⟩
  | cons t ts ih =>
    have ha := ntvr_adds h false t st
    have has := ntvrs_adds h ts (ntvr false im t st).2
    have hg := ih (ntvr false im t st).2
    refine ⟨List.Forall₂.cons (ntvr_renames false im t st) ?_, ?_, ?_⟩
    · refine hg.pairs.imp ?_
      intro n u hr
      refine hr.imp id fun hr => ⟨hr.1, hr.2.1, fun hb => hr.2.2 (ha.mono hb)⟩
    · refine List.pairwise_cons.mpr ⟨?_, hg.apart⟩
      intro q hq hne heq
      obtain ⟨hr, _⟩ := hg.pair hq
      rcases ntvr_bound h false t st with he | hb
      · have hte : t.tvrIdent = .emptyId := by
          rcases ntvr_renames false im t st with ht | ht
          · exact ht.1
          · exact absurd he ht.2.1
        rcases hr with hr | hr
        · exact hne (hte.trans hr.1.symm)
        · exact hr.2.1 (heq.symm.trans he)
      · rcases hr with hr | hr
        · rcases ntvr_renames false im t st with ht | ht
          · exact hne (ht.1.trans hr.1.symm)
          · exact ht.2.1 (heq.trans hr.2)
        · exact hr.2.2 (heq ▸ hb)
    · intro u hu
      rcases List.mem_cons.mp hu with rfl | hu
      · exact (ntvr_bound h false t st).imp id has.mono
      · exact hg.bound u hu

theorem ntvrDefs_eq (im : IdMap) (ds : List Def) (st : Names) :
    ntvrDefs im ds st = ntvrs im (ds.map Def.var) st := by
  induction ds generalizing st with
  | nil => rfl
  | cons d ds ih =>
    cases d with
    | mk t e =>
      have hi := ih (ntvr false im t st).2
      exact congrArg (fun r : List (IdMap × TVr) × Names =>
        ((ntvr false im t st).1 :: r.1, r.2)) hi

end Rename

end Jhc.E

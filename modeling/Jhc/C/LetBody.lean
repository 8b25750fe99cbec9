import Mathlib
import Jhc.C.StatementsKept

/-!
# The statements of a local function

What `convertBody` makes of a body, as far as its labels and jumps go: the local functions of a
`Let` are blocks behind labels of their own, and a call of one is a jump.
-/

namespace Jhc.Generate

open Jhc.Lib.Jumps

/-- The names of the labels, from the name of a local function and the number of its `Let`. -/
inductive LetName (Atom : Type) where
  | function (name : Atom) (u : ℕ)
  | done (u : ℕ)
deriving DecidableEq

/-- A body with the statements that are drawn for its values: those in front of it, and the value
that is returned or assigned. -/
inductive Body (Atom Act E K : Type) where
  | letIn (dcls : List Act) (defs : List (Atom × Act × Body Atom Act E K)) (body : Body Atom Act E K)
  | bind (decl : List Act) (e : Body Atom Act E K) (assigns : List Act) (e' : Body Atom Act E K)
  | cif (exp : E) (e1 e2 : Body Atom Act E K)
  | switch (scrut : E) (ls : List (Option K × Body Atom Act E K))
  | gcRoots (roots : List Act) (b : Body Atom Act E K)
  | jump (a : Atom) (assigns : List Act) (er : E)
  | value (ss : List Act) (er : E) (assigned : List Act)

variable {Atom Act E K : Type}

abbrev BodyTerm (Atom Act E K : Type) := Term Act E K (LetName Atom)

namespace Term

variable {Name : Type}

def mconcat (ss : List (Term Act E K Name)) : Term Act E K Name := ss.foldr mappend mempty

def sds (as : List Act) : Term Act E K Name := mconcat (as.map sd)

end Term

/-- `rEMap`: the labels of the local functions in scope. -/
abbrev EMap (Atom : Type) := Atom → Option (LetName Atom)

def EMap.add [DecidableEq Atom] (lm : EMap Atom) (names : List Atom) (u : ℕ) : EMap Atom :=
  fun a => if a ∈ names then some (.function a u) else lm a

/-- `simpleRet`, where `ret` is that the value is returned. -/
def simpleRet (ret : Bool) (er : E) (assigned : List Act) : BodyTerm Atom Act E K :=
  if ret then .creturn er else .sds assigned

section
variable [DecidableEq Atom]

mutual

/-- `convertBody`, with the number that is next in the supply. -/
def convertBody (lm : EMap Atom) (ret : Bool) : Body Atom Act E K → ℕ → BodyTerm Atom Act E K × ℕ
  | .letIn dcls defs body, u =>
    let lm' := lm.add (defs.map Prod.fst) u
    let rs := convertDefs lm' ret u defs (u + 1)
    let ss := convertBody lm' ret body rs.2
    let st := if ret then Term.mappend ss.1 (.mconcat rs.1)
      else .mappend (.mappend (.mappend ss.1 (.goto (.done u))) (.mconcat (rs.1.intersperse (.goto (.done u))))) (.label (.done u))
    (.mappend (.sds dcls) st, ss.2)
  | .bind decl e assigns e', u =>
    let ss := convertBody lm false e u
    let ss' := convertBody lm ret e' ss.2
    (.mappend (.mappend (.mappend (.sds decl) ss.1) (.sds assigns)) ss'.1, ss'.2)
  | .cif exp e1 e2, u =>
    let p1 := convertBody lm ret e1 u
    let p2 := convertBody lm ret e2 p1.2
    (.cif exp p1.1 p2.1, p2.2)
  | .switch scrut ls, u =>
    let ls' := convertAlts lm ret ls u
    (.switch' scrut ls'.1, ls'.2)
  | .gcRoots roots b, u =>
    let b' := convertBody lm ret b u
    (.subBlock (.mappend (.sds roots) b'.1), b'.2)
  | .jump a assigns er, u =>
    match lm a with
    | some nm => (.mappend (.mappend (.sds assigns) (.goto nm)) (simpleRet ret er []), u)
    | none => (.mappend (.sds assigns) (simpleRet ret er []), u)
  | .value ss er assigned, u => (.mappend (.sds ss) (simpleRet ret er assigned), u)

/-- The local functions of the `Let` with this number. -/
def convertDefs (lm : EMap Atom) (ret : Bool) (let_ : ℕ) : List (Atom × Act × Body Atom Act E K) → ℕ → List (BodyTerm Atom Act E K) × ℕ
  | [], u => ([], u)
  | (name, note, b) :: defs, u =>
    let ss := convertBody lm ret b u
    let rs := convertDefs lm ret let_ defs ss.2
    (.mappend (.mappend (.sd note) (.label (.function name let_))) (.subBlock ss.1) :: rs.1, rs.2)

def convertAlts (lm : EMap Atom) (ret : Bool) : List (Option K × Body Atom Act E K) → ℕ → List (Option K × BodyTerm Atom Act E K) × ℕ
  | [], u => ([], u)
  | (c, b) :: ls, u =>
    let e' := convertBody lm ret b u
    let ls' := convertAlts lm ret ls e'.2
    ((c, e'.1) :: ls'.1, ls'.2)

end

attribute [local grind =] convertBody

end

/-! ### The jumps go to labels in scope -/

section
variable {Name : Type}

theorem Term.plain_mconcat (ss : List (Term Act E K Name)) : (Term.mconcat ss).plain = (ss.map Term.plain).flatten := by
  induction ss with
  | nil => rfl
  | cons s ss ih => exact congrArg (s.plain ++ ·) ih

theorem Term.plain_sds (as : List Act) : (Term.sds as : Term Act E K Name).plain = as.map Stmt.act := by
  rw [Term.sds, Term.plain_mconcat, List.map_map]
  induction as with
  | nil => rfl
  | cons a as ih => exact congrArg (Stmt.act a :: ·) ih

theorem topLabels_acts (as : List Act) : topLabels (as.map Stmt.act : Statement Act E K Name) = [] := by
  induction as with
  | nil => rfl
  | cons a as ih => exact ih

theorem labels_acts (as : List Act) : labels (as.map Stmt.act : Statement Act E K Name) = [] := by
  induction as with
  | nil => rfl
  | cons a as ih => exact ih

theorem scoped_acts (outer : List Name) (as : List Act) : Scoped outer (as.map Stmt.act : Statement Act E K Name) := by
  induction as with
  | nil => trivial
  | cons a as ih => exact ⟨trivial, ih⟩

theorem scoped_flatten {outer : List Name} (ss : List (Statement Act E K Name)) : Scoped outer ss.flatten ↔ ∀ s ∈ ss, Scoped outer s := by
  induction ss with
  | nil => simp [Scoped]
  | cons s ss ih => rw [List.flatten_cons, scoped_append, ih, List.forall_mem_cons]

theorem mem_intersperse {α : Type} {x sep : α} {xs : List α} (h : x ∈ xs.intersperse sep) : x ∈ xs ∨ x = sep := by
  induction xs with
  | nil => cases h
  | cons y ys ih =>
    cases ys with
    | nil => exact .inl h
    | cons z zs =>
      rw [List.intersperse_cons_cons, List.mem_cons, List.mem_cons] at h
      rcases h with rfl | rfl | h
      · exact .inl List.mem_cons_self
      · exact .inr rfl
      · exact (ih h).imp_left (List.mem_cons_of_mem y)

end

section
variable [DecidableEq Atom]

/-- The labels of the local functions in scope are labels of the sequence, or of one around it. -/
def InScope (lm : EMap Atom) (outer : List (LetName Atom)) : Prop := ∀ a nm, lm a = some nm → nm ∈ outer

theorem InScope.mono {lm : EMap Atom} {outer outer' : List (LetName Atom)} (h : InScope lm outer) (hsub : outer ⊆ outer') : InScope lm outer' :=
  fun a nm ha => hsub (h a nm ha)

theorem InScope.add {lm : EMap Atom} {outer : List (LetName Atom)} {names : List Atom} {u : ℕ} (h : InScope lm outer)
    (hnames : ∀ name ∈ names, LetName.function name u ∈ outer) : InScope (lm.add names u) outer := by
  intro a nm ha
  rw [EMap.add] at ha
  split_ifs at ha with hmem
  · exact Option.some.inj ha ▸ hnames a hmem
  · exact h a nm ha

theorem simpleRet_scoped {outer : List (LetName Atom)} (ret : Bool) (er : E) (assigned : List Act) :
    Scoped outer (simpleRet ret er assigned : BodyTerm Atom Act E K).plain := by
  cases ret with
  | true => exact ⟨trivial, trivial⟩
  | false =>
    rw [simpleRet, if_neg Bool.false_ne_true, Term.plain_sds]
    exact scoped_acts outer assigned

theorem mem_intersperse_of_mem {α : Type} {x sep : α} {xs : List α} (h : x ∈ xs) : x ∈ xs.intersperse sep := by
  induction xs with
  | nil => cases h
  | cons y ys ih =>
    cases ys with
    | nil => exact h
    | cons z zs =>
      rw [List.intersperse_cons_cons, List.mem_cons, List.mem_cons]
      exact (List.mem_cons.1 h).imp_right fun h => .inr (ih h)

theorem mem_topLabels_flatten {Name : Type} {l : Name} {s : Statement Act E K Name} {ss : List (Statement Act E K Name)} (hs : s ∈ ss)
    (h : l ∈ topLabels s) : l ∈ topLabels ss.flatten := by
  obtain ⟨pre, post, rfl⟩ := List.append_of_mem hs
  simp [topLabels_append, h]

/-- The label of each local function stands in the sequence of its `Let`. -/
theorem function_mem_topLabels (lm : EMap Atom) (ret : Bool) (let_ : ℕ) (defs : List (Atom × Act × Body Atom Act E K)) (u : ℕ) :
    ∀ name ∈ defs.map Prod.fst, ∃ r ∈ (convertDefs lm ret let_ defs u).1, LetName.function name let_ ∈ topLabels r.plain := by
  induction defs generalizing u with
  | nil => intro name hname; cases hname
  | cons d defs ih =>
    intro name hname
    rw [List.map_cons, List.mem_cons] at hname
    rcases hname with rfl | hname
    · refine ⟨_, List.mem_cons_self, ?_⟩
      simp [Term.plain, topLabels, topLabels_append]
    · obtain ⟨r, hr, hlabel⟩ := ih (convertBody lm ret d.2.2 u).2 name hname
      exact ⟨r, List.mem_cons_of_mem _ hr, hlabel⟩

theorem inScope_defs {lm : EMap Atom} {ret : Bool} {u v : ℕ} {defs : List (Atom × Act × Body Atom Act E K)} {outer : List (LetName Atom)}
    {rs : List (BodyTerm Atom Act E K)} (hlm : InScope lm outer) (lm' : EMap Atom) (hrs : ∀ r ∈ (convertDefs lm' ret u defs v).1, r ∈ rs)
    (htop : topLabels (rs.map Term.plain).flatten ⊆ outer) : InScope (lm.add (defs.map Prod.fst) u) outer := by
  refine hlm.add fun name hname => ?_
  obtain ⟨r, hr, hlabel⟩ := function_mem_topLabels lm' ret u defs v name hname
  exact htop (mem_topLabels_flatten (List.mem_map_of_mem (hrs r hr)) hlabel)

mutual

theorem convertBody_scoped (lm : EMap Atom) (ret : Bool) : ∀ (b : Body Atom Act E K) (u : ℕ) (outer : List (LetName Atom)),
    InScope lm outer → topLabels (convertBody lm ret b u).1.plain ⊆ outer → Scoped outer (convertBody lm ret b u).1.plain
  | .letIn dcls defs body, u, outer => by
    intro hlm htop
    cases ret with
    | true =>
      simp only [convertBody, Term.plain, Term.plain_sds, Term.plain_mconcat, topLabels_append, topLabels_acts, if_true, List.nil_append,
        List.append_subset] at htop ⊢
      obtain ⟨hbody, hdefs⟩ := htop
      have hlm' := inScope_defs hlm (lm.add (defs.map Prod.fst) u) (fun r hr => hr) hdefs
      rw [scoped_append, scoped_append, scoped_flatten, List.forall_mem_map]
      exact ⟨scoped_acts outer dcls, convertBody_scoped _ true body _ outer hlm' hbody,
        convertDefs_scoped _ true u defs _ outer hlm'⟩
    | false =>
      simp only [convertBody, Term.plain, Term.plain_sds, Term.plain_mconcat, topLabels_append, topLabels_acts, Bool.false_eq_true, if_false,
        List.nil_append, List.append_subset] at htop ⊢
      obtain ⟨⟨⟨hbody, -⟩, hdefs⟩, hdone⟩ := htop
      have hdone : LetName.done u ∈ outer := hdone List.mem_cons_self
      have hlm' := inScope_defs hlm (lm.add (defs.map Prod.fst) u) (fun r hr => mem_intersperse_of_mem hr) hdefs
      rw [scoped_append, scoped_append, scoped_append, scoped_append, scoped_flatten, List.forall_mem_map]
      refine ⟨scoped_acts outer dcls, ⟨⟨convertBody_scoped _ false body _ outer hlm' hbody, hdone, trivial⟩, ?_⟩, trivial, trivial⟩
      intro r hr
      rcases mem_intersperse hr with hr | rfl
      · exact convertDefs_scoped _ false u defs _ outer hlm' r hr
      · exact ⟨hdone, trivial⟩
  | .bind decl e assigns e', u, outer => by
    intro hlm htop
    simp only [convertBody, Term.plain, Term.plain_sds, topLabels_append, topLabels_acts, List.nil_append, List.append_nil,
      List.append_subset] at htop ⊢
    rw [scoped_append, scoped_append, scoped_append]
    exact ⟨⟨⟨scoped_acts outer decl, convertBody_scoped lm false e u outer hlm htop.1⟩, scoped_acts outer assigns⟩,
      convertBody_scoped lm ret e' _ outer hlm htop.2⟩
  | .cif exp e1 e2, u, outer => by
    intro hlm _
    have hinner : ∀ s : Statement Act E K (LetName Atom), InScope lm (topLabels s ++ outer) := fun s => hlm.mono (List.subset_append_right _ _)
    exact ⟨⟨convertBody_scoped lm ret e1 u _ (hinner _) (List.subset_append_left _ _),
      convertBody_scoped lm ret e2 _ _ (hinner _) (List.subset_append_left _ _), trivial⟩, trivial⟩
  | .switch scrut ls, u, outer => fun hlm _ => ⟨convertAlts_scoped lm ret ls u outer hlm, trivial⟩
  | .gcRoots roots b, u, outer => by
    intro hlm _
    refine ⟨⟨?_, trivial⟩, trivial⟩
    simp only [Term.plain, Term.plain_sds, topLabels_append, topLabels_acts, List.nil_append]
    exact (scoped_append _ _).2 ⟨scoped_acts _ roots,
      convertBody_scoped lm ret b u _ (hlm.mono (List.subset_append_right _ _)) (List.subset_append_left _ _)⟩
  | .jump a assigns er, u, outer => by
    intro hlm _
    rw [convertBody]
    cases ha : lm a with
    | none =>
      rw [Term.plain, scoped_append, Term.plain_sds]
      exact ⟨scoped_acts outer assigns, simpleRet_scoped ret er []⟩
    | some nm =>
      rw [Term.plain, Term.plain, scoped_append, scoped_append, Term.plain_sds]
      exact ⟨⟨scoped_acts outer assigns, hlm a nm ha, trivial⟩, simpleRet_scoped ret er []⟩
  | .value ss er assigned, u, outer => by
    intro _ _
    rw [convertBody, Term.plain, scoped_append, Term.plain_sds]
    exact ⟨scoped_acts outer ss, simpleRet_scoped ret er assigned⟩

theorem convertDefs_scoped (lm : EMap Atom) (ret : Bool) (let_ : ℕ) : ∀ (defs : List (Atom × Act × Body Atom Act E K)) (u : ℕ)
    (outer : List (LetName Atom)), InScope lm outer → ∀ r ∈ (convertDefs lm ret let_ defs u).1, Scoped outer r.plain
  | [], _, _ => fun _ r hr => by cases hr
  | (name, note, b) :: defs, u, outer => by
    intro hlm r hr
    rw [convertDefs, List.mem_cons] at hr
    rcases hr with rfl | hr
    · exact ⟨trivial, trivial, ⟨convertBody_scoped lm ret b u _ (hlm.mono (List.subset_append_right _ _))
        (List.subset_append_left _ _), trivial⟩, trivial⟩
    · exact convertDefs_scoped lm ret let_ defs _ outer hlm r hr

theorem convertAlts_scoped (lm : EMap Atom) (ret : Bool) : ∀ (ls : List (Option K × Body Atom Act E K)) (u : ℕ)
    (outer : List (LetName Atom)), InScope lm outer → BranchesScoped outer ((plainCases (convertAlts lm ret ls u).1).map Prod.snd)
  | [], _, _ => fun _ => trivial
  | (c, b) :: ls, u, outer => by
    intro hlm
    exact ⟨convertBody_scoped lm ret b u _ (hlm.mono (List.subset_append_right _ _)) (List.subset_append_left _ _),
      convertAlts_scoped lm ret ls _ outer hlm⟩

end

end

/-! ### The labels are all different -/

def LetName.number : LetName Atom → ℕ
  | .function _ u => u
  | .done u => u

mutual

/-- The local functions of one `Let` have different names. -/
def Body.Distinct : Body Atom Act E K → Prop
  | .letIn _ defs body => (defs.map Prod.fst).Nodup ∧ DistinctDefs defs ∧ body.Distinct
  | .bind _ e _ e' => e.Distinct ∧ e'.Distinct
  | .cif _ e1 e2 => e1.Distinct ∧ e2.Distinct
  | .switch _ ls => DistinctAlts ls
  | .gcRoots _ b => b.Distinct
  | .jump _ _ _ => True
  | .value _ _ _ => True

def DistinctDefs : List (Atom × Act × Body Atom Act E K) → Prop
  | [] => True
  | (_, _, b) :: defs => b.Distinct ∧ DistinctDefs defs

def DistinctAlts : List (Option K × Body Atom Act E K) → Prop
  | [] => True
  | (_, b) :: ls => b.Distinct ∧ DistinctAlts ls

end

/-- The labels are different, and their numbers were taken from the supply between `u` and `v`. -/
structure Fresh (u v : ℕ) (ls : List (LetName Atom)) : Prop where
  le : u ≤ v
  range : ∀ l ∈ ls, u ≤ l.number ∧ l.number < v
  nodup : ls.Nodup

attribute [local grind =] Body.Distinct

theorem Fresh.nil {u v : ℕ} (h : u ≤ v) : Fresh u v ([] : List (LetName Atom)) :=
  ⟨h, fun _ hl => absurd hl List.not_mem_nil, List.nodup_nil⟩

theorem Fresh.append {u v w : ℕ} {ls ms : List (LetName Atom)} (hl : Fresh u v ls) (hm : Fresh v w ms) : Fresh u w (ls ++ ms) where
  le := hl.le.trans hm.le
  range := by
    intro l h
    rcases List.mem_append.1 h with h | h
    · exact ⟨(hl.range l h).1, (hl.range l h).2.trans_le hm.le⟩
    · exact ⟨hl.le.trans (hm.range l h).1, (hm.range l h).2⟩
  nodup := by
    refine List.nodup_append.2 ⟨hl.nodup, hm.nodup, ?_⟩
    intro l h l' h' heq
    have hlt := (hl.range l h).2
    have hge := (hm.range l' h').1
    rw [heq] at hlt
    omega

theorem Fresh.perm {u v : ℕ} {ls ms : List (LetName Atom)} (h : Fresh u v ls) (hperm : ls.Perm ms) : Fresh u v ms :=
  ⟨h.le, fun l hl => h.range l (hperm.mem_iff.2 hl), hperm.nodup_iff.1 h.nodup⟩

/-- The labels of a `Let`, with its own number. -/
theorem Fresh.own {u v : ℕ} {ls own : List (LetName Atom)} (h : Fresh (u + 1) v ls) (hown : ∀ l ∈ own, l.number = u) (hnodup : own.Nodup) :
    Fresh u v (own ++ ls) := by
  have hfirst : Fresh u (u + 1) own := ⟨Nat.le_succ u, fun l hl => by rw [hown l hl]; omega, hnodup⟩
  exact hfirst.append h

theorem own_perm {own inner ds : List (LetName Atom)} (h : ds.Perm (own ++ inner)) (bs : List (LetName Atom)) :
    (own ++ (inner ++ bs)).Perm (bs ++ ds) := by
  rw [← List.append_assoc]
  exact (List.Perm.append_right bs h.symm).trans List.perm_append_comm

theorem labels_intersperse {Name : Type} {g : Term Act E K Name} (hg : labels g.plain = []) (rs : List (Term Act E K Name)) :
    labels ((rs.intersperse g).map Term.plain).flatten = labels (rs.map Term.plain).flatten := by
  induction rs with
  | nil => rfl
  | cons r rs ih =>
    cases rs with
    | nil => rfl
    | cons r' rs =>
      rw [List.intersperse_cons_cons, List.map_cons, List.map_cons, List.flatten_cons, List.flatten_cons, labels_append, labels_append, hg,
        List.nil_append, ih, ← labels_append, List.map_cons, List.map_cons, List.flatten_cons,
        List.flatten_cons]
      rfl

section
variable [DecidableEq Atom]

omit [DecidableEq Atom] in
theorem labels_simpleRet (ret : Bool) (er : E) (assigned : List Act) : labels (simpleRet ret er assigned : BodyTerm Atom Act E K).plain = [] := by
  cases ret with
  | true => rfl
  | false =>
    rw [simpleRet, if_neg Bool.false_ne_true, Term.plain_sds]
    exact labels_acts assigned

mutual

theorem convertBody_fresh (lm : EMap Atom) (ret : Bool) : ∀ (b : Body Atom Act E K) (u : ℕ), b.Distinct →
    Fresh u (convertBody lm ret b u).2 (labels (convertBody lm ret b u).1.plain)
  | .letIn dcls defs body, u => by
    intro h
    obtain ⟨hnames, hdefs, hbody⟩ := h
    obtain ⟨inner, hinner, hperm⟩ := convertDefs_fresh (lm.add (defs.map Prod.fst) u) ret u defs (u + 1) hdefs
    have hfresh := hinner.append (convertBody_fresh (lm.add (defs.map Prod.fst) u) ret body _ hbody)
    have hown : ∀ l ∈ (defs.map Prod.fst).map (LetName.function · u), l.number = u := by
      intro l hl
      obtain ⟨name, -, rfl⟩ := List.mem_map.1 hl
      rfl
    have hownNodup : ((defs.map Prod.fst).map (LetName.function · u)).Nodup :=
      hnames.map (fun a b hab => (LetName.function.inj hab).1)
    cases ret with
    | true =>
      simp only [convertBody, Term.plain, Term.plain_sds, Term.plain_mconcat, labels_append, labels_acts, if_true, List.nil_append]
      exact (hfresh.own hown hownNodup).perm (own_perm hperm _)
    | false =>
      have hdoneOwn : ∀ l ∈ LetName.done u :: (defs.map Prod.fst).map (LetName.function · u), l.number = u := by
        rw [List.forall_mem_cons]
        exact ⟨rfl, hown⟩
      have hdoneNodup : (LetName.done u :: (defs.map Prod.fst).map (LetName.function · u)).Nodup := by
        refine List.nodup_cons.2 ⟨?_, hownNodup⟩
        intro hmem
        obtain ⟨name, -, heq⟩ := List.mem_map.1 hmem
        cases heq
      simp only [convertBody, Term.plain, Term.plain_sds, Term.plain_mconcat, labels_append, labels_acts, Bool.false_eq_true, if_false,
        List.nil_append, labels_intersperse (show labels (Term.plain (.goto (.done u) : BodyTerm Atom Act E K)) = [] from rfl)]
      simp only [labels, Stmt.labels, List.append_nil]
      exact (hfresh.own hdoneOwn hdoneNodup).perm ((List.Perm.cons _ (own_perm hperm _)).trans (List.perm_append_singleton _ _).symm)
  | .bind decl e assigns e', u => by
    intro h
    simp only [convertBody, Term.plain, Term.plain_sds, labels_append, labels_acts, List.nil_append, List.append_nil]
    exact (convertBody_fresh lm false e u h.1).append (convertBody_fresh lm ret e' _ h.2)
  | .cif exp e1 e2, u => by
    intro h
    have hboth := (convertBody_fresh lm ret e1 u h.1).append (convertBody_fresh lm ret e2 _ h.2)
    simpa [convertBody, Term.plain, sIf, labels, Stmt.labels, branchLabels] using hboth
  | .switch scrut ls, u => by
    intro h
    simpa [convertBody, Term.plain, sSwitch, labels, Stmt.labels] using convertAlts_fresh lm ret ls u h
  | .gcRoots roots b, u => by
    intro h
    simpa [convertBody, Term.plain, Term.plain_sds, sBlock, labels, Stmt.labels, branchLabels, labels_append, labels_acts]
      using convertBody_fresh lm ret b u h
  | .jump a assigns er, u => by
    intro _
    rw [convertBody]
    cases ha : lm a with
    | none =>
      rw [Term.plain, labels_append, Term.plain_sds, labels_acts, labels_simpleRet]
      exact .nil le_rfl
    | some nm =>
      rw [Term.plain, Term.plain, labels_append, labels_append, Term.plain_sds, labels_acts, labels_simpleRet]
      exact .nil le_rfl
  | .value ss er assigned, u => by
    intro _
    rw [convertBody, Term.plain, labels_append, Term.plain_sds, labels_acts, labels_simpleRet]
    exact .nil le_rfl

theorem convertDefs_fresh (lm : EMap Atom) (ret : Bool) (let_ : ℕ) : ∀ (defs : List (Atom × Act × Body Atom Act E K)) (u : ℕ),
    DistinctDefs defs → ∃ inner, Fresh u (convertDefs lm ret let_ defs u).2 inner ∧
      (labels ((convertDefs lm ret let_ defs u).1.map Term.plain).flatten).Perm ((defs.map Prod.fst).map (LetName.function · let_) ++ inner)
  | [], u => fun _ => ⟨[], .nil le_rfl, .refl _⟩
  | (name, note, b) :: defs, u => by
    intro h
    obtain ⟨inner, hinner, hperm⟩ := convertDefs_fresh lm ret let_ defs (convertBody lm ret b u).2 h.2
    refine ⟨_, (convertBody_fresh lm ret b u h.1).append hinner, ?_⟩
    simp only [convertDefs, List.map_cons, List.flatten_cons, Term.plain, sBlock, labels, Stmt.labels, branchLabels,
      List.nil_append, List.append_nil, List.cons_append]
    refine List.Perm.cons _ ?_
    refine (List.Perm.append_left _ hperm).trans ?_
    rw [← List.append_assoc, ← List.append_assoc]
    exact List.Perm.append_right _ List.perm_append_comm

theorem convertAlts_fresh (lm : EMap Atom) (ret : Bool) : ∀ (ls : List (Option K × Body Atom Act E K)) (u : ℕ), DistinctAlts ls →
    Fresh u (convertAlts lm ret ls u).2 (branchLabels ((plainCases (convertAlts lm ret ls u).1).map Prod.snd))
  | [], _ => fun _ => .nil le_rfl
  | (_, b) :: ls, u => fun h => (convertBody_fresh lm ret b u h.1).append (convertAlts_fresh lm ret ls _ h.2)

end

/-- The statements made for the body of a function meet what the control flow is kept under. -/
theorem convertBody_wellFormed (ret : Bool) (b : Body Atom Act E K) (u : ℕ) (h : b.Distinct) :
    (labels (convertBody (fun _ => none) ret b u).1.plain).Nodup ∧ InReach (convertBody (fun _ => none) ret b u).1.plain := by
  refine ⟨(convertBody_fresh _ ret b u h).nodup, convertBody_scoped _ ret b u _ ?_ (List.Subset.refl _)⟩
  intro a nm ha
  cases ha

/-- A local function that calls itself in a branch, and is called. -/
def countDown : Body ℕ ℕ ℕ ℕ :=
  .letIn [0] [(7, 1, .cif 2 (.jump 7 [3] 0) (.value [4] 5 [6]))] (.jump 7 [8] 0)

end

end Jhc.Generate

import Mathlib
import Jhc.Lib.Jumps

/-!
# Tidying jumps

The steps that leave out what is never reached behind a jump or a return, leave out a jump to
the label behind it, and move the last label of a branch behind the statement.
-/

namespace Jhc.Lib.Jumps

variable {Act Head Ret Label σ : Type}

def Stmt.isLabel : Stmt Act Head Ret Label → Bool
  | .label _ => true
  | _ => false

inductive Tidies : Code Act Head Ret Label → Code Act Head Ret Label → Prop
  | jumpNext (l : Label) (post) : Tidies (.goto l :: .label l :: post) (.label l :: post)
  | afterJump (l : Label) (b) (post) (hb : Stmt.isLabel b = false) : Tidies (.goto l :: b :: post) (.goto l :: post)
  | afterRet (r : Ret) (b) (post) (hb : Stmt.isLabel b = false) : Tidies (.ret r :: b :: post) (.ret r :: post)
  | pull (h : Head) (bs) (b) (ds) (l : Label) (post) :
      Tidies (.branch h (bs ++ (b ++ [.label l]) :: ds) :: post) (.branch h (bs ++ b :: ds) :: .label l :: post)
  | cons (s) {c c'} (hc : Tidies c c') : Tidies (s :: c) (s :: c')
  | inside (h : Head) (bs) {b b'} (ds post) (hb : Tidies b b') :
      Tidies (.branch h (bs ++ b :: ds) :: post) (.branch h (bs ++ b' :: ds) :: post)

variable {c c' : Code Act Head Ret Label}

/-! ### The labels and the jumps that are left -/

theorem Tidies.labels_subperm (h : Tidies c c') : (labels c').Subperm (labels c) := by
  induction h with
  | jumpNext l post => exact List.Subperm.refl _
  | afterJump l b post hb => exact (List.sublist_append_right b.labels (labels post)).subperm
  | afterRet r b post hb => exact (List.sublist_append_right b.labels (labels post)).subperm
  | pull h bs b ds l post =>
    refine List.Perm.subperm ?_
    simp only [labels, Stmt.labels, branchLabels_append, branchLabels, labels_append, List.append_nil, List.append_assoc]
    refine List.Perm.append_left _ (List.Perm.append_left _ ?_)
    rw [← List.append_assoc, ← List.append_assoc]
    exact List.Perm.append_right _ List.perm_append_comm
  | cons s hc ih => exact (List.subperm_append_left s.labels).2 ih
  | inside h bs ds post hb ih =>
    simp only [labels, Stmt.labels, branchLabels_append, branchLabels, List.append_assoc]
    exact (List.subperm_append_left _).2 ((List.subperm_append_right _).2 ih)

theorem Tidies.gotos_subset (h : Tidies c c') : gotos c' ⊆ gotos c := by
  induction h with
  | jumpNext l post => exact List.subset_cons_self l _
  | afterJump l b post hb => exact append_mono (List.Subset.refl [l]) (List.subset_append_right b.gotos _)
  | afterRet r b post hb => exact List.subset_append_right b.gotos _
  | pull h bs b ds l post =>
    simp only [gotos, Stmt.gotos, branchGotos_append, branchGotos, gotos_append, List.nil_append, List.append_nil]
    exact List.Subset.refl _
  | cons s hc ih => exact append_mono (List.Subset.refl _) ih
  | inside h bs ds post hb ih =>
    simp only [gotos, Stmt.gotos, branchGotos_append, branchGotos]
    exact append_mono (append_mono (List.Subset.refl _) (append_mono ih (List.Subset.refl _))) (List.Subset.refl _)

theorem topLabels_cons (s : Stmt Act Head Ret Label) : topLabels (s :: c) = topLabels [s] ++ topLabels c :=
  topLabels_append [s] c

theorem Tidies.topLabels_subset (h : Tidies c c') : topLabels c ⊆ topLabels c' := by
  induction h with
  | jumpNext l post => exact List.Subset.refl _
  | afterJump l b post hb =>
    cases b with
    | label l' => cases hb
    | _ => exact List.Subset.refl _
  | afterRet r b post hb =>
    cases b with
    | label l' => cases hb
    | _ => exact List.Subset.refl _
  | pull h bs b ds l post => exact List.subset_cons_self l _
  | cons s hc ih =>
    rename_i d d'
    rw [topLabels_cons (c := d), topLabels_cons (c := d')]
    exact append_mono (List.Subset.refl _) ih
  | inside h bs ds post hb ih => exact List.Subset.refl _

/-- The jumps stay in reach of their labels: what leaves a branch is found around it. -/
theorem Tidies.scoped (h : Tidies c c') {outer outer' : List Label} (hc : Scoped outer c) (hsub : outer ⊆ outer')
    (htop : topLabels c' ⊆ outer') : Scoped outer' c' := by
  induction h generalizing outer outer' with
  | jumpNext l post => exact scoped_mono hsub _ hc.2
  | afterJump l b post hb => exact ⟨hsub hc.1, scoped_mono hsub post hc.2.2⟩
  | afterRet r b post hb => exact ⟨trivial, scoped_mono hsub post hc.2.2⟩
  | pull h bs b ds l post =>
    obtain ⟨hbranches, hpost⟩ := hc
    obtain ⟨hbs, hb, hds⟩ := (branchesScoped_append bs _).1 hbranches
    have hl : l ∈ outer' := htop List.mem_cons_self
    refine ⟨(branchesScoped_append bs _).2 ⟨branchesScoped_mono hsub bs hbs, ?_, branchesScoped_mono hsub ds hds⟩,
      trivial, scoped_mono hsub post hpost⟩
    refine scoped_mono ?_ b ((scoped_append b [.label l]).1 hb).1
    rw [topLabels_append, List.append_assoc]
    refine append_mono (List.Subset.refl _) ?_
    intro x hx
    cases List.mem_cons.1 hx with
    | inl hx => exact hx ▸ hl
    | inr hx => exact hsub hx
  | cons s hc' ih =>
    refine ⟨Stmt.scoped_mono hsub s hc.1, ih hc.2 hsub ?_⟩
    rw [topLabels_cons] at htop
    exact fun x hx => htop (List.mem_append_right _ hx)
  | inside h bs ds post hb ih =>
    obtain ⟨hbranches, hpost⟩ := hc
    obtain ⟨hbs, hb', hds⟩ := (branchesScoped_append bs _).1 hbranches
    refine ⟨(branchesScoped_append bs _).2 ⟨branchesScoped_mono hsub bs hbs, ?_, branchesScoped_mono hsub ds hds⟩,
      scoped_mono hsub post hpost⟩
    exact ih hb' (append_mono hb.topLabels_subset hsub) (List.subset_append_left _ _)

/-- Every jump of a body goes to a label of a sequence it is in. -/
def InReach (body : Code Act Head Ret Label) : Prop := Scoped (topLabels body) body

theorem InReach.gotos_subset (h : InReach c) : gotos c ⊆ labels c := by
  intro l hl
  exact (scoped_gotos c h l hl).elim mem_labels_of_top id

theorem Tidies.inReach (h : Tidies c c') (hc : InReach c) : InReach c' :=
  h.scoped hc h.topLabels_subset (List.Subset.refl _)

/-! ### One step -/

section
variable [DecidableEq Label] {body : Code Act Head Ret Label} {Good : Label → Prop}

/-- What the body does behind the labels of the code: first the rest of the code, then `k`. -/
def Fits (body c k : Code Act Head Ret Label) : Prop := ∀ l x, find l c = some x → find l body = some (x ++ k)

theorem find_behind {s : Stmt Act Head Ret Label} {l : Label} (hl : l ∉ s.labels) : find l (s :: c) = find l c := by
  rw [find, Stmt.find_none.2 hl]
  rfl

theorem mem_labels_of_find {l : Label} {x : Code Act Head Ret Label} (h : find l c = some x) : l ∈ labels c :=
  (find_isSome c).1 (Option.isSome_iff_exists.2 ⟨x, h⟩)

omit [DecidableEq Label] in
theorem not_mem_of_behind {s : Stmt Act Head Ret Label} {l : Label} (hnodup : (labels (s :: c)).Nodup) (hl : l ∈ labels c) : l ∉ s.labels :=
  fun hs => (List.nodup_append.1 hnodup).2.2 l hs l hl rfl

theorem Fits.behind {s : Stmt Act Head Ret Label} {k} (hfit : Fits body (s :: c) k) (hnodup : (labels (s :: c)).Nodup) : Fits body c k := by
  intro l x hx
  refine hfit l x ?_
  rw [find_behind (not_mem_of_behind hnodup (mem_labels_of_find hx)), hx]

theorem branchFind_middle {bs ds : List (Code Act Head Ret Label)} {b : Code Act Head Ret Label} {l : Label}
    (hnodup : (branchLabels (bs ++ b :: ds)).Nodup) (hl : l ∈ labels b) : branchFind l (bs ++ b :: ds) = find l b := by
  rw [branchLabels_append, branchLabels] at hnodup
  have hbs : l ∉ branchLabels bs := fun h => (List.nodup_append.1 hnodup).2.2 l h l (List.mem_append_left _ hl) rfl
  obtain ⟨x, hx⟩ := Option.isSome_iff_exists.1 ((find_isSome b).2 hl)
  rw [branchFind_append, branchFind_none.2 hbs, branchFind, hx]
  rfl

theorem Fits.inside {h : Head} {bs ds : List (Code Act Head Ret Label)} {b post k : Code Act Head Ret Label}
    (hfit : Fits body (.branch h (bs ++ b :: ds) :: post) k) (hnodup : (branchLabels (bs ++ b :: ds)).Nodup) :
    Fits body b (post ++ k) := by
  intro l x hx
  rw [← List.append_assoc]
  refine hfit l (x ++ post) ?_
  rw [find, Stmt.find, branchFind_middle hnodup (mem_labels_of_find hx), hx]
  rfl

/-- One branch may differ, and what comes behind all of them. -/
theorem Related.middle {b b' p p' : Code Act Head Ret Label} {bs ds : List (Code Act Head Ret Label)} (hbs : ∀ l ∈ branchGotos bs, Good l)
    (hds : ∀ l ∈ branchGotos ds, Good l) (hp : Related body Good p p') (hb : Related body Good (b ++ p) (b' ++ p')) (i : ℕ) :
    Related body Good ((bs ++ b :: ds).getD i [] ++ p) ((bs ++ b' :: ds).getD i [] ++ p') := by
  induction bs generalizing i with
  | nil =>
    cases i with
    | zero => exact hb
    | succ i => exact Related.branches ds hds hp i
  | cons d bs ih =>
    cases i with
    | zero => exact Related.append d (fun l hl => hbs l (List.mem_append_left _ hl)) hp
    | succ i => exact ih (fun l hl => hbs l (List.mem_append_right _ hl)) i

theorem Tidies.related (h : Tidies c c') {k} (hnodup : (labels c).Nodup) (hfit : Fits body c k) (hgood : ∀ l ∈ gotos (c' ++ k), Good l) :
    Related body Good (c ++ k) (c' ++ k) := by
  induction h generalizing k with
  | jumpNext l post =>
    refine .skipRight l (.jump l (hfit l post ?_) (Related.refl hgood))
    simp [find, Stmt.find]
  | afterJump l b post hb => exact .goto l (hgood l List.mem_cons_self)
  | afterRet r b post hb => exact .ret r
  | pull h bs b ds l post =>
    simp only [List.cons_append, gotos, Stmt.gotos, branchGotos_append, branchGotos, List.mem_append] at hgood
    have hrest : Related body Good (post ++ k) (.label l :: (post ++ k)) :=
      .skipRight l (Related.refl fun g hg => hgood g (.inr (.inr hg)))
    refine .branch h (by simp) (Related.middle (fun g hg => hgood g (.inl (.inl hg)))
      (fun g hg => hgood g (.inl (.inr (.inr hg)))) hrest ?_)
    rw [List.append_assoc]
    refine Related.append b (fun g hg => hgood g (.inl (.inr (.inl hg)))) (.skipLeft l hrest)
  | cons s hc ih =>
    exact Related.stmt s (fun g hg => hgood g (List.mem_append_left _ hg))
      (ih (List.nodup_append.1 hnodup).2.1 (hfit.behind hnodup) fun g hg => hgood g (List.mem_append_right _ hg))
  | inside h bs ds post hb ih =>
    have hbranches := (List.nodup_append.1 hnodup).1
    have hinner := hbranches
    simp only [Stmt.labels, branchLabels_append, branchLabels] at hinner
    simp only [List.cons_append, gotos, Stmt.gotos, branchGotos_append, branchGotos, List.mem_append] at hgood
    refine .branch h (by simp) (Related.middle (fun g hg => hgood g (.inl (.inl hg)))
      (fun g hg => hgood g (.inl (.inr (.inr hg)))) (Related.refl fun g hg => hgood g (.inr hg)) ?_)
    refine ih (List.nodup_append.1 (List.nodup_append.1 hinner).2.1).1 (hfit.inside hbranches) fun g hg => hgood g ?_
    rw [gotos_append, List.mem_append] at hg
    exact hg.elim (fun hg => .inl (.inr (.inl hg))) .inr

/-- What is found behind a label of the tidied code, and what was found there before. -/
def Finds (body : Code Act Head Ret Label) (Good : Label → Prop) (c c' k : Code Act Head Ret Label) (l : Label) : Prop :=
  ∀ x', find l c' = some x' → ∃ x, find l c = some x ∧ Related body Good (x ++ k) (x' ++ k)

theorem Finds.refl {k} (hgood : ∀ l ∈ gotos (c ++ k), Good l) (l : Label) : Finds body Good c c k l := by
  intro x hx
  refine ⟨x, hx, Related.refl fun g hg => hgood g ?_⟩
  rw [gotos_append, List.mem_append] at hg ⊢
  exact hg.imp_left (find_gotos c hx g)

/-- A statement is left out, and with it no label that is left. -/
theorem Finds.dropped {s b : Stmt Act Head Ret Label} {k} (hs : s.labels = []) (hnodup : (labels (b :: c)).Nodup)
    (hgood : ∀ l ∈ gotos (c ++ k), Good l) (l : Label) : Finds body Good (s :: b :: c) (s :: c) k l := by
  have hsl : l ∉ s.labels := hs ▸ List.not_mem_nil
  intro x' hx'
  rw [find_behind hsl] at hx'
  rw [find_behind hsl, find_behind (not_mem_of_behind hnodup (mem_labels_of_find hx'))]
  exact Finds.refl hgood l x' hx'

theorem Finds.cons {s : Stmt Act Head Ret Label} {k} {l : Label} (hnodup : (labels (s :: c)).Nodup)
    (hgood : ∀ l ∈ s.gotos, Good l) (hrel : Related body Good (c ++ k) (c' ++ k)) (h : Finds body Good c c' k l) :
    Finds body Good (s :: c) (s :: c') k l := by
  intro x' hx'
  rw [find, Option.or_eq_some_iff] at hx'
  rcases hx' with hx' | ⟨-, hx'⟩
  · obtain ⟨y, hy, rfl⟩ := Option.map_eq_some_iff.1 hx'
    refine ⟨y ++ c, by rw [find, hy]; rfl, ?_⟩
    rw [List.append_assoc, List.append_assoc]
    exact Related.append y (fun g hg => hgood g (Stmt.find_gotos s hy g hg)) hrel
  · obtain ⟨x, hx, hrel'⟩ := h x' hx'
    exact ⟨x, (find_behind (not_mem_of_behind hnodup (mem_labels_of_find hx))).trans hx, hrel'⟩

theorem branchFind_at (l : Label) (bs : List (Code Act Head Ret Label)) (b : Code Act Head Ret Label) (ds) :
    branchFind l (bs ++ b :: ds) = (branchFind l bs).or ((find l b).or (branchFind l ds)) := by
  rw [branchFind_append, branchFind]

/-- A label of one of the branches, the one that is tidied or another one. -/
theorem Finds.branch {bs ds : List (Code Act Head Ret Label)} {b b' p p' : Code Act Head Ret Label} {l : Label} {y' : Code Act Head Ret Label}
    (hnodup : (branchLabels (bs ++ b :: ds)).Nodup) (hbs : ∀ g ∈ branchGotos bs, Good g) (hds : ∀ g ∈ branchGotos ds, Good g)
    (hp : Related body Good p p')
    (hb : ∀ z', find l b' = some z' → ∃ z, find l b = some z ∧ Related body Good (z ++ p) (z' ++ p'))
    (hy' : branchFind l (bs ++ b' :: ds) = some y') :
    ∃ y, branchFind l (bs ++ b :: ds) = some y ∧ Related body Good (y ++ p) (y' ++ p') := by
  rw [branchFind_at, Option.or_eq_some_iff] at hy'
  rcases hy' with hy' | ⟨hnot, hy'⟩
  · refine ⟨y', by rw [branchFind_at, hy']; rfl, ?_⟩
    exact Related.append y' (fun g hg => hbs g (branchFind_gotos bs hy' g hg)) hp
  · rw [Option.or_eq_some_iff] at hy'
    rcases hy' with hy' | ⟨-, hy'⟩
    · obtain ⟨z, hz, hrel⟩ := hb y' hy'
      exact ⟨z, by rw [branchFind_at, hnot, hz]; rfl, hrel⟩
    · have hl : l ∈ branchLabels ds := (branchFind_isSome ds).1 (Option.isSome_iff_exists.2 ⟨y', hy'⟩)
      have hlb : l ∉ labels b := by
        rw [branchLabels_append, branchLabels] at hnodup
        exact fun h => (List.nodup_append.1 (List.nodup_append.1 hnodup).2.1).2.2 l h l hl rfl
      refine ⟨y', by rw [branchFind_at, hnot, find_none.2 hlb, hy']; rfl, ?_⟩
      exact Related.append y' (fun g hg => hds g (branchFind_gotos ds hy' g hg)) hp

theorem Tidies.finds (h : Tidies c c') {k} (hnodup : (labels c).Nodup) (hfit : Fits body c k) (hgood : ∀ l ∈ gotos (c' ++ k), Good l) (l : Label) :
    Finds body Good c c' k l := by
  induction h generalizing k with
  | jumpNext l' post =>
    intro x' hx'
    obtain ⟨x, hx, hrel⟩ := Finds.refl (c := .label l' :: post) hgood l x' hx'
    exact ⟨x, hx, hrel⟩
  | afterJump l' b post hb =>
    exact Finds.dropped (s := .goto l') (c := post) rfl hnodup (fun g hg => hgood g (List.mem_cons_of_mem _ hg)) l
  | afterRet r b post hb => exact Finds.dropped (s := .ret r) (c := post) rfl hnodup hgood l
  | pull h bs b ds l' post =>
    have hbranches : (branchLabels (bs ++ (b ++ [.label l']) :: ds)).Nodup := (List.nodup_append.1 hnodup).1
    simp only [List.cons_append, gotos, Stmt.gotos, branchGotos_append, branchGotos, List.mem_append] at hgood
    have hrest : Related body Good (post ++ k) (.label l' :: (post ++ k)) :=
      .skipRight l' (Related.refl fun g hg => hgood g (.inr (.inr hg)))
    intro x' hx'
    rw [find, Option.or_eq_some_iff] at hx'
    rcases hx' with hx' | ⟨hnot, hx'⟩
    · obtain ⟨y', hy', rfl⟩ := Option.map_eq_some_iff.1 hx'
      have hpulled : ∀ z', find l b = some z' → ∃ z, find l (b ++ [.label l']) = some z ∧
          Related body Good (z ++ (post ++ k)) (z' ++ .label l' :: (post ++ k)) := by
        intro z' hz'
        refine ⟨z' ++ [.label l'], by rw [find_append, hz']; rfl, ?_⟩
        rw [List.append_assoc]
        exact Related.append z' (fun g hg => hgood g (.inl (.inr (.inl (find_gotos b hz' g hg))))) (.skipLeft l' hrest)
      obtain ⟨y, hy, hrel⟩ := Finds.branch hbranches (fun g hg => hgood g (.inl (.inl hg)))
        (fun g hg => hgood g (.inl (.inr (.inr hg)))) hrest hpulled hy'
      refine ⟨y ++ post, by rw [find, Stmt.find, hy]; rfl, ?_⟩
      rw [List.append_assoc, List.append_assoc]
      exact hrel
    · have hpost : ∀ g ∈ gotos (post ++ k), Good g := fun g hg => hgood g (.inr (.inr hg))
      by_cases hl : l' = l
      · -- behind the branches there is now what was behind the end of this one
        subst hl
        have hb : find l' b = none := by
          rw [Option.map_eq_none_iff, Stmt.find, branchFind_at, Option.or_eq_none_iff, Option.or_eq_none_iff] at hnot
          exact hnot.2.1
        have hmem : l' ∈ labels (b ++ [.label l']) := by simp [labels_append, labels, Stmt.labels]
        refine ⟨post, ?_, ?_⟩
        · rw [find, Stmt.find, branchFind_middle hbranches hmem, find_append, hb]
          simp [find, Stmt.find]
        · have hx : x' = post := by simpa [find, Stmt.find] using hx'.symm
          rw [hx]
          exact Related.refl hpost
      · have hx : find l post = some x' := by simpa [find, Stmt.find, hl] using hx'
        obtain ⟨x, hx, hrel⟩ := Finds.refl hpost l x' hx
        exact ⟨x, (find_behind (not_mem_of_behind hnodup (mem_labels_of_find hx))).trans hx, hrel⟩
  | cons s hc ih =>
    refine Finds.cons hnodup (fun g hg => hgood g (List.mem_append_left _ hg)) ?_ ?_
    · exact hc.related (List.nodup_append.1 hnodup).2.1 (hfit.behind hnodup) fun g hg => hgood g (List.mem_append_right _ hg)
    · exact ih (List.nodup_append.1 hnodup).2.1 (hfit.behind hnodup) fun g hg => hgood g (List.mem_append_right _ hg)
  | inside h bs ds post hb ih =>
    rename_i b b'
    have hbranches : (branchLabels (bs ++ b :: ds)).Nodup := (List.nodup_append.1 hnodup).1
    have hinner := hbranches
    rw [branchLabels_append, branchLabels] at hinner
    simp only [List.cons_append, gotos, Stmt.gotos, branchGotos_append, branchGotos, List.mem_append] at hgood
    have hrest : ∀ g ∈ gotos (post ++ k), Good g := fun g hg => hgood g (.inr hg)
    have hgoodIn : ∀ g ∈ gotos (b' ++ (post ++ k)), Good g := by
      intro g hg
      rw [gotos_append, List.mem_append] at hg
      exact hgood g (hg.elim (fun hg => .inl (.inr (.inl hg))) .inr)
    have hin := ih (List.nodup_append.1 (List.nodup_append.1 hinner).2.1).1 (hfit.inside hbranches) hgoodIn
    intro x' hx'
    rw [find, Option.or_eq_some_iff] at hx'
    rcases hx' with hx' | ⟨-, hx'⟩
    · obtain ⟨y', hy', rfl⟩ := Option.map_eq_some_iff.1 hx'
      obtain ⟨y, hy, hrel⟩ := Finds.branch hbranches (fun g hg => hgood g (.inl (.inl hg)))
        (fun g hg => hgood g (.inl (.inr (.inr hg)))) (Related.refl hrest) hin hy'
      refine ⟨y ++ post, by rw [find, Stmt.find, hy]; rfl, ?_⟩
      rw [List.append_assoc, List.append_assoc]
      exact hrel
    · obtain ⟨x, hx, hrel⟩ := Finds.refl hrest l x' hx'
      exact ⟨x, (find_behind (not_mem_of_behind hnodup (mem_labels_of_find hx))).trans hx, hrel⟩

theorem Tidies.executions_eq (h : Tidies c c') (I : Interp Act Head σ) (hnodup : (labels c).Nodup) (hc : InReach c) (s : σ) :
    executions I c' s = executions I c s := by
  have hgood : ∀ l ∈ gotos (c' ++ []), l ∈ labels c' := by
    rw [List.append_nil]
    exact (h.inReach hc).gotos_subset
  have hfit : Fits c c [] := by
    intro l x hx
    rw [hx, List.append_nil]
  have hbis : Bisimilar c c' (· ∈ labels c') := by
    intro l hl
    obtain ⟨x', hx'⟩ := Option.isSome_iff_exists.1 ((find_isSome c').2 hl)
    obtain ⟨x, hx, hrel⟩ := h.finds hnodup hfit hgood l x' hx'
    rw [List.append_nil, List.append_nil] at hrel
    exact ⟨x, x', hx, hx', hrel⟩
  have hrel := h.related hnodup hfit hgood
  rw [List.append_nil, List.append_nil] at hrel
  exact Jumps.executions_eq I hbis hrel s

end

/-! ### Many steps -/

open Relation (ReflTransGen)

abbrev TidiesTo : Code Act Head Ret Label → Code Act Head Ret Label → Prop := ReflTransGen Tidies

theorem TidiesTo.lift {f : Code Act Head Ret Label → Code Act Head Ret Label} (hf : ∀ {c c'}, Tidies c c' → Tidies (f c) (f c'))
    (h : TidiesTo c c') : TidiesTo (f c) (f c') := by
  induction h with
  | refl => exact .refl
  | tail _ hstep ih => exact ih.tail (hf hstep)

theorem TidiesTo.cons (s : Stmt Act Head Ret Label) (h : TidiesTo c c') : TidiesTo (s :: c) (s :: c') :=
  TidiesTo.lift (f := (s :: ·)) (fun hstep => .cons s hstep) h

theorem TidiesTo.append_left (p : Code Act Head Ret Label) (h : TidiesTo c c') : TidiesTo (p ++ c) (p ++ c') := by
  induction p with
  | nil => exact h
  | cons s p ih => exact TidiesTo.cons s ih

theorem Tidies.append_right (h : Tidies c c') (d : Code Act Head Ret Label) : Tidies (c ++ d) (c' ++ d) := by
  induction h with
  | jumpNext l post => exact .jumpNext l (post ++ d)
  | afterJump l b post hb => exact .afterJump l b (post ++ d) hb
  | afterRet r b post hb => exact .afterRet r b (post ++ d) hb
  | pull h bs b ds l post => exact .pull h bs b ds l (post ++ d)
  | cons s hc ih => exact .cons s ih
  | inside h bs ds post hb ih => exact .inside h bs ds (post ++ d) hb

theorem TidiesTo.append_right (h : TidiesTo c c') (d : Code Act Head Ret Label) : TidiesTo (c ++ d) (c' ++ d) :=
  TidiesTo.lift (f := (· ++ d)) (fun hstep => hstep.append_right d) h

theorem TidiesTo.append {d d' : Code Act Head Ret Label} (hc : TidiesTo c c') (hd : TidiesTo d d') : TidiesTo (c ++ d) (c' ++ d') :=
  (hc.append_right d).trans (hd.append_left c')

theorem TidiesTo.inside (h : Head) (bs : List (Code Act Head Ret Label)) {b b' : Code Act Head Ret Label} (ds post) (hb : TidiesTo b b') :
    TidiesTo (.branch h (bs ++ b :: ds) :: post) (.branch h (bs ++ b' :: ds) :: post) :=
  TidiesTo.lift (f := fun x => .branch h (bs ++ x :: ds) :: post) (fun hstep => .inside h bs ds post hstep) hb

/-- Each branch by itself. -/
theorem TidiesTo.branches (h : Head) {ds ds' : List (Code Act Head Ret Label)} (hds : List.Forall₂ TidiesTo ds ds') (bs) (post) :
    TidiesTo (.branch h (bs ++ ds) :: post) (.branch h (bs ++ ds') :: post) := by
  induction hds generalizing bs with
  | nil => exact .refl
  | @cons b b' ds ds' hb hds ih =>
    refine (TidiesTo.inside h bs ds post hb).trans ?_
    have hrest := ih (bs ++ [b'])
    rwa [List.append_assoc, List.append_assoc] at hrest

/-- All the labels that a branch ends with. -/
theorem TidiesTo.pull (h : Head) (bs ds : List (Code Act Head Ret Label)) (b : Code Act Head Ret Label) (ls : List Label) (post) :
    TidiesTo (.branch h (bs ++ (b ++ ls.map Stmt.label) :: ds) :: post) (.branch h (bs ++ b :: ds) :: (ls.map Stmt.label ++ post)) := by
  induction ls using List.reverseRecOn generalizing post with
  | nil => rw [List.map_nil, List.append_nil]; exact .refl
  | append_singleton ls l ih =>
    have hlast := Tidies.pull h bs (b ++ ls.map Stmt.label) ds l post
    rw [List.append_assoc] at hlast
    rw [List.map_append, List.append_assoc]
    exact ReflTransGen.head hlast (ih (.label l :: post))

section
variable {body body' : Code Act Head Ret Label}

theorem TidiesTo.kept (h : TidiesTo body body') (hnodup : (labels body).Nodup) (hbody : InReach body) :
    (labels body').Nodup ∧ InReach body' := by
  induction h with
  | refl => exact ⟨hnodup, hbody⟩
  | tail _ hstep ih =>
    obtain ⟨hnodup, hreach⟩ := ih
    obtain ⟨l, hperm, hsub⟩ := hstep.labels_subperm
    exact ⟨hperm.nodup_iff.1 (hsub.nodup hnodup), hstep.inReach hreach⟩

variable [DecidableEq Label]

theorem TidiesTo.executions_eq (h : TidiesTo body body') (I : Interp Act Head σ) (hnodup : (labels body).Nodup) (hbody : InReach body) (s : σ) :
    executions I body' s = executions I body s := by
  induction h with
  | refl => rfl
  | tail hsteps hstep ih =>
    obtain ⟨hnodup', hreach⟩ := TidiesTo.kept hsteps hnodup hbody
    rw [hstep.executions_eq I hnodup' hreach s, ih]

end

end Jhc.Lib.Jumps

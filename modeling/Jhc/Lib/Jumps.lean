import Mathlib

/-!
# Statements with jumps

Sequences of statements whose branches are sequences again. A branch that ends goes on behind
the statement that it belongs to, so what is left to do is one sequence; a jump goes on behind
its label, wherever in the body that is.
-/

namespace Jhc.Lib.Jumps

inductive Stmt (Act Head Ret Label : Type) where
  | act (a : Act)
  | goto (l : Label)
  | label (l : Label)
  | ret (r : Ret)
  | branch (h : Head) (bs : List (List (Stmt Act Head Ret Label)))

variable {Act Head Ret Label σ : Type}

abbrev Code (Act Head Ret Label : Type) := List (Stmt Act Head Ret Label)

/-! ### Labels and jumps -/

mutual

def Stmt.labels : Stmt Act Head Ret Label → List Label
  | .label l => [l]
  | .branch _ bs => branchLabels bs
  | _ => []

def labels : Code Act Head Ret Label → List Label
  | [] => []
  | s :: c => s.labels ++ labels c

def branchLabels : List (Code Act Head Ret Label) → List Label
  | [] => []
  | b :: bs => labels b ++ branchLabels bs

end

mutual

def Stmt.gotos : Stmt Act Head Ret Label → List Label
  | .goto l => [l]
  | .branch _ bs => branchGotos bs
  | _ => []

def gotos : Code Act Head Ret Label → List Label
  | [] => []
  | s :: c => s.gotos ++ gotos c

def branchGotos : List (Code Act Head Ret Label) → List Label
  | [] => []
  | b :: bs => gotos b ++ branchGotos bs

end

def topLabels : Code Act Head Ret Label → List Label
  | [] => []
  | .label l :: c => l :: topLabels c
  | _ :: c => topLabels c

mutual

/-- Each jump goes to one of the labels `outer` or of a sequence around it. -/
def Stmt.Scoped (outer : List Label) : Stmt Act Head Ret Label → Prop
  | .goto l => l ∈ outer
  | .branch _ bs => BranchesScoped outer bs
  | _ => True

def Scoped (outer : List Label) : Code Act Head Ret Label → Prop
  | [] => True
  | s :: c => s.Scoped outer ∧ Scoped outer c

def BranchesScoped (outer : List Label) : List (Code Act Head Ret Label) → Prop
  | [] => True
  | b :: bs => Scoped (topLabels b ++ outer) b ∧ BranchesScoped outer bs

end

/-! ### Executions -/

section
variable [DecidableEq Label]

mutual

/-- What comes behind the label in the statement. -/
def Stmt.find (l : Label) : Stmt Act Head Ret Label → Option (Code Act Head Ret Label)
  | .label l' => if l' = l then some [] else none
  | .branch _ bs => branchFind l bs
  | _ => none

def find (l : Label) : Code Act Head Ret Label → Option (Code Act Head Ret Label)
  | [] => none
  | s :: c => ((s.find l).map (· ++ c)).or (find l c)

def branchFind (l : Label) : List (Code Act Head Ret Label) → Option (Code Act Head Ret Label)
  | [] => none
  | b :: bs => (find l b).or (branchFind l bs)

end

/-- What the actions do to a state, and the branch that is taken. -/
structure Interp (Act Head σ : Type) where
  act : Act → σ → σ
  choose : Head → σ → ℕ

/-- How a body ends: with a return, behind its last statement, at a statement none of whose
branches is taken, or at a jump to no label. -/
inductive Outcome (Ret σ : Type) where
  | returned (r : Ret) (s : σ)
  | ended (s : σ)
  | fellOff (s : σ)
  | lost

variable (I : Interp Act Head σ) (body : Code Act Head Ret Label)

/-- At most so many steps, with the actions that were done and the states after them. -/
def run : ℕ → Code Act Head Ret Label → σ → List (Act × σ) × Option (Outcome Ret σ)
  | 0, _, _ => ([], none)
  | _ + 1, [], s => ([], some (.ended s))
  | n + 1, .act a :: c, s =>
    let r := run n c (I.act a s)
    ((a, I.act a s) :: r.1, r.2)
  | n + 1, .label _ :: c, s => run n c s
  | n + 1, .goto l :: _, s =>
    match find l body with
    | some c => run n c s
    | none => ([], some .lost)
  | _ + 1, .ret r :: _, s => ([], some (.returned r s))
  | n + 1, .branch h bs :: c, s =>
    if I.choose h s < bs.length then run n (bs.getD (I.choose h s) [] ++ c) s
    else ([], some (.fellOff s))

/-- All that can be seen of the executions of a body, after any number of steps: whether and how it
ends, and every action on the way. -/
def executions (s : σ) : Set (List (Act × σ) × Option (Outcome Ret σ)) := {o | ∃ n, run I body n body s = o}

/-! ### Related code -/

/-- Steps that nothing can be seen of may be left out on either side, a jump of the left one only;
what comes behind a jump or a return does not matter. -/
inductive Related (Good : Label → Prop) : Code Act Head Ret Label → Code Act Head Ret Label → Prop
  | nil : Related Good [] []
  | act (a : Act) {c c'} (h : Related Good c c') : Related Good (.act a :: c) (.act a :: c')
  | skipLeft (l : Label) {c c'} (h : Related Good c c') : Related Good (.label l :: c) c'
  | skipRight (l : Label) {c c'} (h : Related Good c c') : Related Good c (.label l :: c')
  | goto (l : Label) {c c'} (h : Good l) : Related Good (.goto l :: c) (.goto l :: c')
  | jump (l : Label) {x c c'} (hx : find l body = some x) (h : Related Good x c') : Related Good (.goto l :: c) c'
  | ret (r : Ret) {c c'} : Related Good (.ret r :: c) (.ret r :: c')
  | branch (hd : Head) {bs bs' c c'} (hlen : bs.length = bs'.length)
      (hbs : ∀ i, Related Good (bs.getD i [] ++ c) (bs'.getD i [] ++ c')) :
      Related Good (.branch hd bs :: c) (.branch hd bs' :: c')

variable {body} {body' : Code Act Head Ret Label} {Good : Label → Prop} {c c' : Code Act Head Ret Label}

/-- The labels that are jumped to have related code behind them. -/
def Bisimilar (body body' : Code Act Head Ret Label) (Good : Label → Prop) : Prop :=
  ∀ l, Good l → ∃ x x', find l body = some x ∧ find l body' = some x' ∧ Related body Good x x'

attribute [local grind =] Stmt.labels labels branchLabels Stmt.gotos gotos branchGotos topLabels Stmt.Scoped Scoped Stmt.find find branchFind run

theorem Related.run_left (hgood : Bisimilar body body' Good) (n : ℕ) (h : Related body Good c c') (s : σ) :
    ∃ m, run I body' m c' s = run I body n c s := by
  induction n generalizing c c' s with
  | zero => exact ⟨0, rfl⟩
  | succ n ih =>
    induction h with
    | nil => exact ⟨1, rfl⟩
    | act a h =>
      obtain ⟨m, hm⟩ := ih h (I.act a s)
      exact ⟨m + 1, by simp only [run, hm]⟩
    | skipLeft l h => exact ih h s
    | skipRight l h ih' =>
      obtain ⟨m, hm⟩ := ih'
      exact ⟨m + 1, hm⟩
    | goto l hl =>
      obtain ⟨x, x', hx, hx', h⟩ := hgood l hl
      obtain ⟨m, hm⟩ := ih h s
      exact ⟨m + 1, by simp only [run, hx, hx', hm]⟩
    | jump l hx h =>
      obtain ⟨m, hm⟩ := ih h s
      exact ⟨m, by simp only [run, hx, hm]⟩
    | ret r => exact ⟨1, rfl⟩
    | branch hd hlen hbs =>
      obtain ⟨m, hm⟩ := ih (hbs (I.choose hd s)) s
      exact ⟨m + 1, by simp only [run, hlen, hm]⟩

theorem Related.run_right (hgood : Bisimilar body body' Good) (m : ℕ) (h : Related body Good c c') (s : σ) :
    ∃ n, run I body n c s = run I body' m c' s := by
  induction m generalizing c c' s with
  | zero => exact ⟨0, rfl⟩
  | succ m ih =>
    induction h with
    | nil => exact ⟨1, rfl⟩
    | act a h =>
      obtain ⟨n, hn⟩ := ih h (I.act a s)
      exact ⟨n + 1, by simp only [run, hn]⟩
    | skipLeft l h ih' =>
      obtain ⟨n, hn⟩ := ih'
      exact ⟨n + 1, hn⟩
    | skipRight l h => exact ih h s
    | goto l hl =>
      obtain ⟨x, x', hx, hx', h⟩ := hgood l hl
      obtain ⟨n, hn⟩ := ih h s
      exact ⟨n + 1, by simp only [run, hx, hx', hn]⟩
    | jump l hx h ih' =>
      obtain ⟨n, hn⟩ := ih'
      exact ⟨n + 1, by simp only [run, hx, hn]⟩
    | ret r => exact ⟨1, rfl⟩
    | branch hd hlen hbs =>
      obtain ⟨n, hn⟩ := ih (hbs (I.choose hd s)) s
      exact ⟨n + 1, by simp only [run, hlen, hn]⟩

theorem executions_eq (hgood : Bisimilar body body' Good) (h : Related body Good body body') (s : σ) :
    executions I body' s = executions I body s := by
  ext o
  constructor
  · intro ho
    obtain ⟨m, rfl⟩ := ho
    exact Related.run_right I hgood m h s
  · intro ho
    obtain ⟨n, rfl⟩ := ho
    exact Related.run_left I hgood n h s

end

/-! ### Sequences in sequences -/

theorem labels_append (c d : Code Act Head Ret Label) : labels (c ++ d) = labels c ++ labels d := by
  induction c with
  | nil => rfl
  | cons s c ih => rw [List.cons_append, labels, ih, labels, List.append_assoc]

theorem gotos_append (c d : Code Act Head Ret Label) : gotos (c ++ d) = gotos c ++ gotos d := by
  induction c with
  | nil => rfl
  | cons s c ih => rw [List.cons_append, gotos, ih, gotos, List.append_assoc]

theorem topLabels_append (c d : Code Act Head Ret Label) : topLabels (c ++ d) = topLabels c ++ topLabels d := by
  induction c with
  | nil => rfl
  | cons s c ih => cases s <;> simp [topLabels, ih]

theorem branchLabels_append (bs ds : List (Code Act Head Ret Label)) : branchLabels (bs ++ ds) = branchLabels bs ++ branchLabels ds := by
  induction bs with
  | nil => rfl
  | cons b bs ih => rw [List.cons_append, branchLabels, ih, branchLabels, List.append_assoc]

theorem branchGotos_append (bs ds : List (Code Act Head Ret Label)) : branchGotos (bs ++ ds) = branchGotos bs ++ branchGotos ds := by
  induction bs with
  | nil => rfl
  | cons b bs ih => rw [List.cons_append, branchGotos, ih, branchGotos, List.append_assoc]

theorem scoped_append {outer : List Label} (c d : Code Act Head Ret Label) : Scoped outer (c ++ d) ↔ Scoped outer c ∧ Scoped outer d := by
  induction c with
  | nil => simp [Scoped]
  | cons s c ih => rw [List.cons_append, Scoped, ih, Scoped, and_assoc]

theorem branchesScoped_append {outer : List Label} (bs ds : List (Code Act Head Ret Label)) :
    BranchesScoped outer (bs ++ ds) ↔ BranchesScoped outer bs ∧ BranchesScoped outer ds := by
  induction bs with
  | nil => simp [BranchesScoped]
  | cons b bs ih => rw [List.cons_append, BranchesScoped, ih, BranchesScoped, and_assoc]

theorem mem_labels_of_top {l : Label} {c : Code Act Head Ret Label} (h : l ∈ topLabels c) : l ∈ labels c := by
  induction c with
  | nil => cases h
  | cons s c ih =>
    cases s with
    | label l' =>
      rw [topLabels, List.mem_cons] at h
      rw [labels, Stmt.labels, List.mem_append, List.mem_singleton]
      exact h.imp id ih
    | _ => exact List.mem_append_right _ (ih h)

theorem append_mono {a a' b b' : List Label} (ha : a ⊆ a') (hb : b ⊆ b') : a ++ b ⊆ a' ++ b' :=
  fun _ hx => List.mem_append.2 ((List.mem_append.1 hx).imp (fun h => ha h) (fun h => hb h))

mutual

theorem Stmt.scoped_mono {outer outer' : List Label} (hsub : outer ⊆ outer') :
    ∀ s : Stmt Act Head Ret Label, s.Scoped outer → s.Scoped outer'
  | .act _, _ => trivial
  | .goto _, h => hsub h
  | .label _, _ => trivial
  | .ret _, _ => trivial
  | .branch _ bs, h => branchesScoped_mono hsub bs h

theorem scoped_mono {outer outer' : List Label} (hsub : outer ⊆ outer') :
    ∀ c : Code Act Head Ret Label, Scoped outer c → Scoped outer' c
  | [], _ => trivial
  | s :: c, h => ⟨Stmt.scoped_mono hsub s h.1, scoped_mono hsub c h.2⟩

theorem branchesScoped_mono {outer outer' : List Label} (hsub : outer ⊆ outer') :
    ∀ bs : List (Code Act Head Ret Label), BranchesScoped outer bs → BranchesScoped outer' bs
  | [], _ => trivial
  | b :: bs, h => ⟨scoped_mono (append_mono (List.Subset.refl _) hsub) b h.1, branchesScoped_mono hsub bs h.2⟩

end

mutual

theorem Stmt.scoped_gotos {outer : List Label} :
    ∀ s : Stmt Act Head Ret Label, s.Scoped outer → ∀ l ∈ s.gotos, l ∈ outer ∨ l ∈ s.labels
  | .act _, _, _, hl => by cases hl
  | .goto _, h, _, hl => by
    rw [Stmt.gotos, List.mem_singleton] at hl
    rw [hl]
    exact .inl h
  | .label _, _, _, hl => by cases hl
  | .ret _, _, _, hl => by cases hl
  | .branch _ bs, h, l, hl => branchesScoped_gotos bs h l hl

theorem scoped_gotos {outer : List Label} :
    ∀ c : Code Act Head Ret Label, Scoped outer c → ∀ l ∈ gotos c, l ∈ outer ∨ l ∈ labels c
  | [], _, _, hl => by cases hl
  | s :: c, h, l, hl => by
    rw [labels, List.mem_append]
    cases List.mem_append.1 hl with
    | inl hl => exact (Stmt.scoped_gotos s h.1 l hl).imp_right .inl
    | inr hl => exact (scoped_gotos c h.2 l hl).imp_right .inr

theorem branchesScoped_gotos {outer : List Label} :
    ∀ bs : List (Code Act Head Ret Label), BranchesScoped outer bs → ∀ l ∈ branchGotos bs, l ∈ outer ∨ l ∈ branchLabels bs
  | [], _, _, hl => by cases hl
  | b :: bs, h, l, hl => by
    rw [branchLabels, List.mem_append]
    cases List.mem_append.1 hl with
    | inl hl =>
      rcases scoped_gotos b h.1 l hl with htop | hlabel
      · exact (List.mem_append.1 htop).elim (fun h => .inr (.inl (mem_labels_of_top h))) .inl
      · exact .inr (.inl hlabel)
    | inr hl => exact (branchesScoped_gotos bs h.2 l hl).imp_right .inr

end

/-! ### Finding a label -/

section
variable [DecidableEq Label] {l : Label}

mutual

theorem Stmt.find_isSome : ∀ s : Stmt Act Head Ret Label, (s.find l).isSome = true ↔ l ∈ s.labels
  | .act _ => by simp [Stmt.find, Stmt.labels]
  | .goto _ => by simp [Stmt.find, Stmt.labels]
  | .label l' => by
    by_cases h : l' = l
    · simp [Stmt.find, Stmt.labels, h]
    · simp [Stmt.find, Stmt.labels, h, Ne.symm h]
  | .ret _ => by simp [Stmt.find, Stmt.labels]
  | .branch _ bs => branchFind_isSome bs

theorem find_isSome : ∀ c : Code Act Head Ret Label, (find l c).isSome = true ↔ l ∈ labels c
  | [] => by simp [find, labels]
  | s :: c => by
    rw [find, Option.isSome_or, Option.isSome_map, Bool.or_eq_true, Stmt.find_isSome s, find_isSome c, labels, List.mem_append]

theorem branchFind_isSome : ∀ bs : List (Code Act Head Ret Label), (branchFind l bs).isSome = true ↔ l ∈ branchLabels bs
  | [] => by simp [branchFind, branchLabels]
  | b :: bs => by
    rw [branchFind, Option.isSome_or, Bool.or_eq_true, find_isSome b, branchFind_isSome bs, branchLabels, List.mem_append]

end

theorem find_none {c : Code Act Head Ret Label} : find l c = none ↔ l ∉ labels c := by
  rw [← find_isSome, Option.not_isSome_iff_eq_none]

theorem Stmt.find_none {s : Stmt Act Head Ret Label} : s.find l = none ↔ l ∉ s.labels := by
  rw [← Stmt.find_isSome, Option.not_isSome_iff_eq_none]

theorem branchFind_none {bs : List (Code Act Head Ret Label)} : branchFind l bs = none ↔ l ∉ branchLabels bs := by
  rw [← branchFind_isSome, Option.not_isSome_iff_eq_none]

mutual

/-- The jumps behind a label are jumps of the code. -/
theorem Stmt.find_gotos : ∀ (s : Stmt Act Head Ret Label) {x}, s.find l = some x → ∀ g ∈ gotos x, g ∈ s.gotos
  | .act _, _, h => by cases h
  | .goto _, _, h => by cases h
  | .label l', _, h => by
    rw [Stmt.find] at h
    split_ifs at h
    obtain rfl := Option.some.inj h
    exact fun g hg => by cases hg
  | .ret _, _, h => by cases h
  | .branch _ bs, _, h => branchFind_gotos bs h

theorem find_gotos : ∀ (c : Code Act Head Ret Label) {x}, find l c = some x → ∀ g ∈ gotos x, g ∈ gotos c
  | [], _, h => by cases h
  | s :: c, x, h => by
    intro g hg
    rw [find, Option.or_eq_some_iff] at h
    rcases h with h | ⟨-, h⟩
    · obtain ⟨y, hy, rfl⟩ := Option.map_eq_some_iff.1 h
      rw [gotos_append, List.mem_append] at hg
      exact List.mem_append.2 (hg.imp_left (Stmt.find_gotos s hy g))
    · exact List.mem_append_right _ (find_gotos c h g hg)

theorem branchFind_gotos : ∀ (bs : List (Code Act Head Ret Label)) {x}, branchFind l bs = some x → ∀ g ∈ gotos x, g ∈ branchGotos bs
  | [], _, h => by cases h
  | b :: bs, x, h => by
    intro g hg
    rw [branchFind, Option.or_eq_some_iff] at h
    rcases h with h | ⟨-, h⟩
    · exact List.mem_append_left _ (find_gotos b h g hg)
    · exact List.mem_append_right _ (branchFind_gotos bs h g hg)

end

theorem branchFind_append (bs ds : List (Code Act Head Ret Label)) : branchFind l (bs ++ ds) = (branchFind l bs).or (branchFind l ds) := by
  induction bs with
  | nil => rfl
  | cons b bs ih => rw [List.cons_append, branchFind, ih, branchFind, Option.or_assoc]

theorem find_append (c d : Code Act Head Ret Label) : find l (c ++ d) = ((find l c).map (· ++ d)).or (find l d) := by
  induction c with
  | nil => rfl
  | cons s c ih =>
    rw [List.cons_append, find, ih, find]
    cases hs : s.find l with
    | none => rfl
    | some x => simp

/-! ### The same code in front -/

variable {body : Code Act Head Ret Label} {Good : Label → Prop} {c c' : Code Act Head Ret Label}

mutual

theorem Related.stmt : ∀ s : Stmt Act Head Ret Label, (∀ l ∈ s.gotos, Good l) → ∀ {c c'}, Related body Good c c' →
    Related body Good (s :: c) (s :: c')
  | .act a, _, _, _, h => .act a h
  | .goto l, hg, _, _, _ => .goto l (hg l List.mem_cons_self)
  | .label l, _, _, _, h => .skipLeft l (.skipRight l h)
  | .ret r, _, _, _, _ => .ret r
  | .branch hd bs, hg, _, _, h => .branch hd rfl (Related.branches bs hg h)

theorem Related.append : ∀ p : Code Act Head Ret Label, (∀ l ∈ gotos p, Good l) → ∀ {c c'}, Related body Good c c' →
    Related body Good (p ++ c) (p ++ c')
  | [], _, _, _, h => h
  | s :: p, hg, _, _, h => Related.stmt s (fun l hl => hg l (List.mem_append_left _ hl))
      (Related.append p (fun l hl => hg l (List.mem_append_right _ hl)) h)

theorem Related.branches : ∀ bs : List (Code Act Head Ret Label), (∀ l ∈ branchGotos bs, Good l) → ∀ {c c'}, Related body Good c c' →
    ∀ i, Related body Good (bs.getD i [] ++ c) (bs.getD i [] ++ c')
  | [], _, _, _, h, _ => h
  | b :: _, hg, _, _, h, 0 => Related.append b (fun l hl => hg l (List.mem_append_left _ hl)) h
  | _ :: bs, hg, _, _, h, i + 1 => Related.branches bs (fun l hl => hg l (List.mem_append_right _ hl)) h i

end

theorem Related.refl (hg : ∀ l ∈ gotos c, Good l) : Related body Good c c := by
  have h : Related body Good (c ++ []) (c ++ []) := Related.append c hg .nil
  rwa [List.append_nil] at h

end

end Jhc.Lib.Jumps

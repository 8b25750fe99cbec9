import Jhc.FrontEnd.ListCompSound

/-!
# How far a translated comprehension is the report's (FrontEnd/Desugar.hs:141-231)

The translation differs from the report's where a case is mapped over a list: what diverges there is
an element, and in the report the list.
-/

namespace Jhc.ListComp

open Jhc.FrontEnd.Exports (Name)
open Jhc.Lib

variable {Decl Other : Type} (exp : HsExp Decl Other)

/-- A case is mapped over the list of the generator. -/
def mapsCase (ss : List (HsStmt Decl Other)) (pat : HsPat) : Bool :=
  isStrictPat pat && !isFailablePat pat && (g exp ss).isSome

namespace Values

variable (V : Values Decl Other)

/-- The element a mapped case gives. -/
def caseElement (r : Outcome V.Env) (k : V.Env → V.D) : V.D :=
  match r with
  | .binds σ => k σ
  | _ => V.bot

/-- The list of the translation, with the calls taken apart. -/
def comprehended : List (HsStmt Decl Other) → V.Env → Approximations V.D
  | [], ρ => .const (.single (V.den .val exp ρ))
  | .hsQualifier b :: ss, ρ => V.choose .list (V.den .bool b ρ) (comprehended ss ρ) (.const .nil)
  | .hsLetStmt ds :: ss, ρ => comprehended ss (V.declare ds ρ)
  | .hsGenerator pat e :: ss, ρ => .bind (V.den .list e ρ) fun x =>
    if mapsCase exp ss pat then
      .const (.single (V.caseElement (V.matchPat pat x ρ) (V.den .val ((g exp ss).getD exp))))
    else V.matched (V.matchPat pat x ρ) (comprehended ss)

attribute [local grind =] comprehended

theorem comprehended_of_g {ss : List (HsStmt Decl Other)} {e' : HsExp Decl Other}
    (h : g exp ss = some e') (ρ : V.Env) :
    V.comprehended exp ss ρ = .const (.single (V.den .val e' ρ)) := by
  induction ss generalizing e' ρ with
  | nil =>
    cases h
    rfl
  | cons s ss ih =>
    cases s with
    | hsGenerator pat e => cases h
    | hsQualifier e => cases h
    | hsLetStmt ds =>
      obtain ⟨e₁, he, rfl⟩ := Option.map_eq_some_iff.mp h
      exact ih he (V.declare ds ρ)

theorem strict_of_lazy {pat : HsPat} (h : isLazyPat pat = true) : isStrictPat pat = false := by
  unfold isLazyPat at h
  cases hs : isStrictPat pat with
  | false => rfl
  | true =>
    rw [hs] at h
    cases h

theorem strict_of_not_lazy {pat : HsPat} (h : ¬isLazyPat pat = true) : isStrictPat pat = true := by
  cases hs : isStrictPat pat with
  | true => rfl
  | false =>
    unfold isLazyPat at h
    rw [hs] at h
    exact (h rfl).elim

theorem mapsCase_of_failable {ss : List (HsStmt Decl Other)} {pat : HsPat}
    (h : (isFailablePat pat || (g exp ss).isNone) = true) : mapsCase exp ss pat = false := by
  unfold mapsCase
  cases hf : isFailablePat pat with
  | true => rw [Bool.not_true,Bool.and_false,Bool.false_and]
  | false =>
    rw [hf,Bool.false_or,Option.isNone_iff_eq_none] at h
    rw [h,Option.isSome_none,Bool.and_false]

theorem g_of_not_failable {ss : List (HsStmt Decl Other)} {pat : HsPat}
    (h : ¬(isFailablePat pat || (g exp ss).isNone) = true) :
    isFailablePat pat = false ∧ ∃ e', g exp ss = some e' := by
  cases hf : isFailablePat pat with
  | true =>
    rw [hf] at h
    exact (h rfl).elim
  | false =>
    cases hg : g exp ss with
    | none =>
      rw [hf,hg] at h
      exact (h rfl).elim
    | some e' => exact ⟨rfl, e', rfl⟩

theorem mapsCase_of_lazy {pat : HsPat} (h : isLazyPat pat = true) (ss : List (HsStmt Decl Other)) :
    mapsCase exp ss pat = false := by
  unfold mapsCase
  rw [strict_of_lazy h]
  rfl

theorem comprehended_generator {ss : List (HsStmt Decl Other)} {pat : HsPat}
    (h : mapsCase exp ss pat = false) (e : HsExp Decl Other) (ρ : V.Env) :
    V.comprehended exp (.hsGenerator pat e :: ss) ρ =
      .bind (V.den .list e ρ) fun x => V.matched (V.matchPat pat x ρ) (V.comprehended exp ss) := by
  rw [comprehended,h]
  rfl

theorem comprehended_and (q1 q2 : HsExp Decl Other) (ss : List (HsStmt Decl Other)) (ρ : V.Env) :
    V.comprehended exp (.hsQualifier (hsApp (.hsVar v_and) [q1, q2]) :: ss) ρ =
      V.comprehended exp (.hsQualifier q1 :: .hsQualifier q2 :: ss) ρ := by
  rw [comprehended,comprehended,comprehended,den_and]
  cases V.den .bool q1 ρ with
  | none => rfl
  | some b =>
    cases b with
    | true => rfl
    | false => rfl

theorem den_lambda_lazy {pat : HsPat} (h : isLazyPat pat = true) (e : HsExp Decl Other) (ρ : V.Env) :
    V.den (.fn .list) (.hsLambda [pat] e) ρ =
      fun x => V.matched (V.matchPat pat x ρ) (V.den .list e) := by
  funext x
  obtain ⟨σ, hσ⟩ := V.matchPat_of_lazy (strict_of_lazy h) x ρ
  have hl : V.den (.fn .list) (.hsLambda [pat] e) ρ x =
      match V.matchPat pat x ρ with
      | .binds σ => V.den .list e σ
      | _ => V.undefined .list := rfl
  rw [hl,hσ]
  rfl

/-- A case of one alternative as an element. -/
theorem den_case_element (pat : HsPat) (e : HsExp Decl Other) (ρ : V.Env) (x : V.D) :
    V.den (.fn .val) (.hsLCase [.mk pat (.hsUnGuardedRhs e) []]) ρ x =
      V.caseElement (V.matchPat pat x ρ) (V.den .val e) := by
  have hk : V.den (.fn .val) (.hsLCase [.mk pat (.hsUnGuardedRhs e) []]) ρ x =
      V.denAlt .val (.mk pat (.hsUnGuardedRhs e) []) x ρ V.bot := rfl
  rw [hk,denAlt_eq]
  cases V.matchPat pat x ρ with
  | diverges => rfl
  | fails => rfl
  | binds σ => exact congrArg (V.den .val e) (V.declare_nil σ)

/-- A lambda with a lazy pattern as an element. -/
theorem den_lambda_element {pat : HsPat} (h : isLazyPat pat = true) (e : HsExp Decl Other)
    (ρ : V.Env) (x : V.D) {k : V.Env → Approximations V.D}
    (hk : ∀ σ, k σ = .const (.single (V.den .val e σ))) :
    .const (.single (V.den (.fn .val) (.hsLambda [pat] e) ρ x)) = V.matched (V.matchPat pat x ρ) k := by
  obtain ⟨σ, hσ⟩ := V.matchPat_of_lazy (strict_of_lazy h) x ρ
  have hl : V.den (.fn .val) (.hsLambda [pat] e) ρ x =
      match V.matchPat pat x ρ with
      | .binds σ => V.den .val e σ
      | _ => V.bot := rfl
  rw [hl,hσ]
  exact (hk σ).symm

theorem mapsCase_qualifier (q : HsExp Decl Other) (ss : List (HsStmt Decl Other)) (pat : HsPat) :
    mapsCase exp (.hsQualifier q :: ss) pat = false :=
  mapsCase_of_failable exp (Bool.or_true _)

theorem den_f (ss : List (HsStmt Decl Other)) (ρ : V.Env) :
    V.den .list (f exp ss) ρ = V.comprehended exp ss ρ := by
  induction ss using f.induct exp generalizing ρ with
  | case1 =>
    rw [f]
    rfl
  | case2 gen q1 q2 ss ih =>
    rw [f,ih]
    cases gen with
    | hsGenerator pat e =>
      rw [V.comprehended_generator exp (mapsCase_qualifier exp _ ss pat),
        V.comprehended_generator exp (mapsCase_qualifier exp q1 (.hsQualifier q2 :: ss) pat),
        funext (V.comprehended_and exp q1 q2 ss)]
    | hsQualifier e =>
      rw [comprehended,V.comprehended_and]
      rfl
    | hsLetStmt ds => exact V.comprehended_and exp q1 q2 ss (V.declare ds ρ)
  | case3 ds ss h ih =>
    rw [f]
    · exact ih (V.declare ds ρ)
    · exact h
  | case4 e ss h ih =>
    rw [f]
    · exact congrArg (fun l => V.choose .list (V.den .bool e ρ) l (.const .nil)) (ih ρ)
    · exact h
  | case5 pat e q ss h hf ih =>
    rw [f,if_pos hf]
    · rw [den_do_concatMap,den_kase_guarded,
        V.comprehended_generator exp (mapsCase_qualifier exp q ss pat),funext ih]
      rfl
    · exact h
  | case6 pat e q ss h hf hl ih =>
    rw [f,if_neg hf,if_pos hl]
    · rw [den_do_concatMap,V.den_lambda_lazy hl,funext ih,
        V.comprehended_generator exp (mapsCase_qualifier exp q ss pat)]
    · exact h
  | case7 pat e q ss h hf hl =>
    obtain ⟨_, e', hg⟩ := g_of_not_failable exp hf
    have hlist : V.den .list (.hsList [e']) = V.comprehended exp ss :=
      funext fun σ => (V.comprehended_of_g exp hg σ).symm
    rw [f,if_neg hf,if_neg hl]
    · rw [hg,Option.getD_some,den_do_concatMap,den_kase_guarded,hlist,
        V.comprehended_generator exp (mapsCase_qualifier exp q ss pat)]
      rfl
    · exact h
  | case8 pat e ss h h' hl =>
    obtain ⟨hlazy, hsome⟩ := (Bool.and_eq_true _ _).mp hl
    obtain ⟨e', hg⟩ := Option.isSome_iff_exists.mp hsome
    rw [f,if_pos hl]
    · rw [hg,Option.getD_some,den_do_map,Approximations.map_eq_bind,
        V.comprehended_generator exp (mapsCase_of_lazy exp hlazy ss)]
      exact congrArg (Approximations.bind _) (funext fun x =>
        V.den_lambda_element hlazy e' ρ x (V.comprehended_of_g exp hg))
    · exact h
    · exact h'
  | case9 pat e ss h h' hg hl ih =>
    rw [f,if_neg hg,if_pos hl]
    · rw [den_do_concatMap,V.den_lambda_lazy hl,funext ih,
        V.comprehended_generator exp (mapsCase_of_lazy exp hl ss)]
    · exact h
    · exact h'
  | case10 pat e ss h h' hg hl hf ih =>
    rw [f,if_neg hg,if_neg hl,if_pos hf]
    · rw [den_do_concatMap,den_kase,funext ih,
        V.comprehended_generator exp (mapsCase_of_failable exp hf)]
    · exact h
    · exact h'
  | case11 pat e ss h h' hg hl hf =>
    obtain ⟨hpat, e', he⟩ := g_of_not_failable exp hf
    have hmaps : mapsCase exp ss pat = true := by
      unfold mapsCase
      rw [strict_of_not_lazy hl,hpat,he]
      rfl
    rw [f,if_neg hg,if_neg hl,if_neg hf]
    · rw [he,Option.getD_some,den_do_map,Approximations.map_eq_bind,comprehended,hmaps,he]
      exact congrArg (Approximations.bind _) (funext fun x =>
        congrArg (fun y => Approximations.const (.single y)) (V.den_case_element pat e' ρ x))
    · exact h
    · exact h'

/-! ### The report -/

theorem den_reportExp_generator (pat : HsPat) (e : HsExp Decl Other) (ss : List (HsStmt Decl Other))
    (ρ : V.Env) :
    V.den .list (reportExp exp (.hsGenerator pat e :: ss)) ρ =
      .bind (V.den .list e ρ) fun x =>
        V.matched (V.matchPat pat x ρ) (V.den .list (reportExp exp ss)) := by
  rw [reportExp,den_concatMap,den_kase]

theorem den_reportExp_of_g {ss : List (HsStmt Decl Other)} {e' : HsExp Decl Other}
    (h : g exp ss = some e') (ρ : V.Env) :
    V.den .list (reportExp exp ss) ρ = .const (.single (V.den .val e' ρ)) := by
  induction ss generalizing e' ρ with
  | nil =>
    cases h
    rfl
  | cons s ss ih =>
    cases s with
    | hsGenerator pat e => cases h
    | hsQualifier e => cases h
    | hsLetStmt ds =>
      obtain ⟨e₁, he, rfl⟩ := Option.map_eq_some_iff.mp h
      exact ih he (V.declare ds ρ)

/-- Up to what is known after `n` steps, no element is mapped by a case on which its match diverges.
Of the elements of a generator those count that the report's list comes to. -/
def Forced (n : ℕ) : List (HsStmt Decl Other) → V.Env → Prop
  | [], _ => True
  | .hsQualifier b :: ss, ρ => V.den .bool b ρ = some true → Forced n ss ρ
  | .hsLetStmt ds :: ss, ρ => Forced n ss (V.declare ds ρ)
  | .hsGenerator pat e :: ss, ρ => PartialList.ForReached
    (fun x => (mapsCase exp ss pat = true → V.matchPat pat x ρ ≠ .diverges) ∧
      ∀ σ, V.matchPat pat x ρ = .binds σ → Forced n ss σ)
    (fun x => V.matched (V.matchPat pat x ρ) (V.den .list (reportExp exp ss)) n)
    (V.den .list e ρ n)

/-! ### One generator -/

section Generator

variable {exp : HsExp Decl Other} {ss : List (HsStmt Decl Other)} {pat : HsPat}

/-- What the translation gives for one element. -/
def generated (exp : HsExp Decl Other) (ss : List (HsStmt Decl Other)) (pat : HsPat)
    (r : Outcome V.Env) : Approximations V.D :=
  if mapsCase exp ss pat then
    .const (.single (V.caseElement r (V.den .val ((g exp ss).getD exp))))
  else V.matched r (V.comprehended exp ss)

/-- What the report gives for it. -/
def reported (exp : HsExp Decl Other) (ss : List (HsStmt Decl Other)) (r : Outcome V.Env) :
    Approximations V.D :=
  V.matched r (V.den .list (reportExp exp ss))

theorem forced_of_g {e' : HsExp Decl Other} (h : g exp ss = some e') (n : ℕ) (ρ : V.Env) :
    V.Forced exp n ss ρ := by
  induction ss generalizing e' ρ with
  | nil => trivial
  | cons s ss ih =>
    cases s with
    | hsGenerator pat e => cases h
    | hsQualifier e => cases h
    | hsLetStmt ds =>
      obtain ⟨e₁, he, _⟩ := Option.map_eq_some_iff.mp h
      exact ih he (V.declare ds ρ)

theorem of_mapsCase (h : mapsCase exp ss pat = true) :
    isFailablePat pat = false ∧ ∃ e', g exp ss = some e' := by
  unfold mapsCase at h
  obtain ⟨h, hg⟩ := (Bool.and_eq_true _ _).mp h
  obtain ⟨_, hf⟩ := (Bool.and_eq_true _ _).mp h
  refine ⟨?_, Option.isSome_iff_exists.mp hg⟩
  cases hp : isFailablePat pat with
  | false => rfl
  | true =>
    rw [hp] at hf
    cases hf

/-- A case that is mapped gives the element of the report's list, where the match does not diverge. -/
theorem generated_of_mapsCase (h : mapsCase exp ss pat = true) (x : V.D) (ρ : V.Env)
    (hx : V.matchPat pat x ρ ≠ .diverges) :
    V.generated exp ss pat (V.matchPat pat x ρ) = V.reported exp ss (V.matchPat pat x ρ) := by
  obtain ⟨hf, e', he⟩ := of_mapsCase h
  have hne := V.matchPat_ne_fails pat hf x ρ
  unfold generated reported
  rw [if_pos h,he]
  cases hr : V.matchPat pat x ρ with
  | diverges => exact (hx hr).elim
  | fails => exact (hne hr).elim
  | binds σ => exact (V.den_reportExp_of_g exp he σ).symm

variable {n m : ℕ} {x : V.D} {ρ : V.Env}

theorem generated_eq
    (ih : ∀ σ, V.Forced exp n ss σ → V.comprehended exp ss σ n = V.den .list (reportExp exp ss) σ n)
    (hd : mapsCase exp ss pat = true → V.matchPat pat x ρ ≠ .diverges)
    (hb : ∀ σ, V.matchPat pat x ρ = .binds σ → V.Forced exp n ss σ) :
    V.generated exp ss pat (V.matchPat pat x ρ) n = V.reported exp ss (V.matchPat pat x ρ) n := by
  by_cases hm : mapsCase exp ss pat = true
  · rw [V.generated_of_mapsCase hm x ρ (hd hm)]
  · unfold generated reported
    rw [if_neg hm]
    cases hr : V.matchPat pat x ρ with
    | diverges => rfl
    | fails => rfl
    | binds σ => exact ih σ (hb σ hr)

theorem generated_prolongs (hnm : n ≤ m)
    (ih : ∀ σ, PartialList.Prolongs (V.comprehended exp ss σ n) (V.den .list (reportExp exp ss) σ m)) :
    PartialList.Prolongs (V.generated exp ss pat (V.matchPat pat x ρ) n)
      (V.reported exp ss (V.matchPat pat x ρ) m) := by
  by_cases hm : mapsCase exp ss pat = true
  · by_cases hd : V.matchPat pat x ρ = .diverges
    · unfold generated reported
      rw [if_pos hm,hd]
      exact .past _ _
    · rw [V.generated_of_mapsCase hm x ρ hd]
      exact PartialList.prolongs_of_le ((V.reported exp ss _).monotone hnm)
  · unfold generated reported
    rw [if_neg hm]
    cases V.matchPat pat x ρ with
    | diverges => exact .bot _
    | fails => exact .nil
    | binds σ => exact ih σ

theorem forced_of_generated_le
    (ih : ∀ σ, V.comprehended exp ss σ n ≤ V.den .list (reportExp exp ss) σ m → V.Forced exp n ss σ)
    (hle : V.generated exp ss pat (V.matchPat pat x ρ) n ≤ V.reported exp ss (V.matchPat pat x ρ) m) :
    (mapsCase exp ss pat = true → V.matchPat pat x ρ ≠ .diverges) ∧
      ∀ σ, V.matchPat pat x ρ = .binds σ → V.Forced exp n ss σ := by
  unfold generated reported at hle
  by_cases hm : mapsCase exp ss pat = true
  · obtain ⟨_, e', he⟩ := of_mapsCase hm
    refine ⟨fun _ hd => ?_, fun σ _ => V.forced_of_g he n σ⟩
    rw [if_pos hm,hd] at hle
    cases hle
  · refine ⟨fun h => (hm h).elim, fun σ hσ => ih σ ?_⟩
    rw [if_neg hm,hσ] at hle
    exact hle

end Generator

/-! ### Whole comprehensions -/

variable {exp : HsExp Decl Other}

/-- Where nothing diverges in a mapped case, both translations are known alike. -/
theorem comprehended_eq {n : ℕ} {ss : List (HsStmt Decl Other)} {ρ : V.Env}
    (h : V.Forced exp n ss ρ) :
    V.comprehended exp ss ρ n = V.den .list (reportExp exp ss) ρ n := by
  induction ss generalizing ρ with
  | nil => rfl
  | cons s ss ih =>
    cases s with
    | hsQualifier b =>
      have hr : V.den .list (reportExp exp (.hsQualifier b :: ss)) ρ =
          V.choose .list (V.den .bool b ρ) (V.den .list (reportExp exp ss) ρ) (.const .nil) := rfl
      rw [hr,comprehended]
      cases hb : V.den .bool b ρ with
      | none => rfl
      | some b =>
        cases b with
        | true => exact ih (h hb)
        | false => rfl
    | hsLetStmt ds => exact ih h
    | hsGenerator pat e =>
      rw [den_reportExp_generator]
      exact PartialList.bind_eq_of_reached (fun x hx => V.generated_eq (fun σ => ih) hx.1 hx.2) h

/-- The translation is known where the report's list is, and can go on where that diverges. -/
theorem comprehended_prolongs {n m : ℕ} (hnm : n ≤ m) (ss : List (HsStmt Decl Other)) (ρ : V.Env) :
    PartialList.Prolongs (V.comprehended exp ss ρ n) (V.den .list (reportExp exp ss) ρ m) := by
  induction ss generalizing ρ with
  | nil => exact .cons _ .nil
  | cons s ss ih =>
    cases s with
    | hsQualifier b =>
      have hr : V.den .list (reportExp exp (.hsQualifier b :: ss)) ρ =
          V.choose .list (V.den .bool b ρ) (V.den .list (reportExp exp ss) ρ) (.const .nil) := rfl
      rw [hr,comprehended]
      cases V.den .bool b ρ with
      | none => exact .bot _
      | some b =>
        cases b with
        | true => exact ih ρ
        | false => exact .nil
    | hsLetStmt ds => exact ih (V.declare ds ρ)
    | hsGenerator pat e =>
      rw [den_reportExp_generator]
      exact PartialList.prolongs_bind ((V.den .list e ρ).monotone hnm) fun x =>
        V.generated_prolongs hnm ih

/-- What the report's list comes to as well was forced. -/
theorem forced_of_comprehended_le {n m : ℕ} (hnm : n ≤ m) {ss : List (HsStmt Decl Other)} {ρ : V.Env}
    (h : V.comprehended exp ss ρ n ≤ V.den .list (reportExp exp ss) ρ m) : V.Forced exp n ss ρ := by
  induction ss generalizing ρ with
  | nil => trivial
  | cons s ss ih =>
    cases s with
    | hsQualifier b =>
      intro hb
      have hr : V.den .list (reportExp exp (.hsQualifier b :: ss)) ρ =
          V.choose .list (V.den .bool b ρ) (V.den .list (reportExp exp ss) ρ) (.const .nil) := rfl
      rw [hr,comprehended,hb] at h
      exact ih h
    | hsLetStmt ds => exact ih h
    | hsGenerator pat e =>
      rw [den_reportExp_generator] at h
      exact PartialList.reached_of_bind_le
        (fun x hx => V.generated_eq (fun σ => V.comprehended_eq) hx.1 hx.2)
        (fun x => (V.reported exp ss (V.matchPat pat x ρ)).monotone hnm)
        (fun x => V.generated_prolongs hnm (V.comprehended_prolongs hnm ss))
        (fun x => V.forced_of_generated_le fun σ => ih)
        ((V.den .list e ρ).monotone hnm) h

theorem listCompToExp_same_iff (exp : HsExp Decl Other) (ss : List (HsStmt Decl Other)) (ρ : V.Env) :
    (V.den .list (listCompToExp exp ss) ρ).Same (V.den .list (reportExp exp ss) ρ) ↔
      ∀ n, V.Forced exp n ss ρ := by
  unfold listCompToExp
  rw [den_hsParen,den_f]
  constructor
  · intro h n
    obtain ⟨m, hnm, hle⟩ := h.later n
    exact V.forced_of_comprehended_le hnm hle
  · intro h
    exact Approximations.same_of_eq fun n => V.comprehended_eq (h n)

/-! ### A list with an undefined element -/

inductive Datum where
  | undefined
  | num (n : ℕ)
  | pair (a b : Datum)

namespace Datum

def truth : Datum → Option Bool
  | .num n => some (n != 0)
  | _ => none

def evaluates : Datum → Bool
  | .undefined => false
  | _ => true

def components (n : ℕ) : Datum → Option (List Datum)
  | .pair a b => if n = 2 then some [a, b] else none
  | _ => none

def isLit (l : HsLiteral) : Datum → Option Bool
  | .undefined => none
  | .num n =>
    match l with
    | .hsInt k => some (k == n)
    | _ => some false
  | .pair _ _ => some false

theorem components_length {n : ℕ} {x : Datum} {xs : List Datum} (h : components n x = some xs) :
    xs.length = n := by
  cases x with
  | undefined => cases h
  | num k => cases h
  | pair a b =>
    rw [components] at h
    split at h
    · rename_i hn
      cases h
      exact hn.symm
    · cases h

end Datum

/-- Numbers and pairs, without constructors, declarations and further forms. -/
def data : Values Empty Empty where
  D := Datum
  bot := .undefined
  asBool := Datum.truth
  asList _ := .const .bot
  apply _ _ := .undefined
  evaluates := Datum.evaluates
  uncon _ _ x := if x.evaluates then some none else none
  uncon_length := by
    intro c n x xs h
    split at h
    · cases h
    · cases h
  untuple := Datum.components
  untuple_length := Datum.components_length
  isLit := Datum.isLit
  negate _ := .undefined
  other _ _ := .undefined
  declare _ ρ := ρ
  declare_nil _ := rfl

def localVal (s : String) : Name := ⟨.Val, none, s.toList⟩

/-- `(a, b)`. -/
def pairPat : HsPat := .hsPTuple [.hsPVar (localVal "a"), .hsPVar (localVal "b")]

/-- `one` is a number and everything else undefined. -/
def oneIsKnown : data.Env := fun n => if n = localVal "one" then .num 1 else .undefined

theorem mapsCase_pairPat (e : HsExp Empty Empty) : mapsCase e [] pairPat = true := by
  have hf : isFailablePat pairPat = false := by
    rw [isFailablePat]
    refine List.any_eq_false.mpr fun q _ hq => ?_
    have hvar : isStrictPat q.1 = false := by
      rcases List.mem_pair.mp q.2 with h | h
      · rw [h]
        rfl
      · rw [h]
        rfl
    rw [isFailablePat,hvar] at hq
    cases hq
  unfold mapsCase
  rw [hf]
  rfl

/-- `[one | (a, b) <- [undefined]]` is undefined, and its translation has one element. -/
theorem listCompToExp_pair_undefined :
    ¬ (data.den .list (listCompToExp (.hsVar (localVal "one"))
        [.hsGenerator pairPat (.hsList [.hsVar (localVal "undefined")])]) oneIsKnown).Same
      (data.den .list (reportExp (.hsVar (localVal "one"))
        [.hsGenerator pairPat (.hsList [.hsVar (localVal "undefined")])]) oneIsKnown) := by
  unfold listCompToExp
  rw [den_hsParen,den_f]
  intro h
  obtain ⟨m, hnm, hle⟩ := h.later 0
  obtain ⟨hx, _⟩ := data.forced_of_comprehended_le hnm hle
  exact hx.1 (mapsCase_pairPat _) rfl

end Values

end Jhc.ListComp

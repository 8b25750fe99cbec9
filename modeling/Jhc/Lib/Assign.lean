import Mathlib.Data.List.Induction
import Mathlib.Data.List.Nodup
import Mathlib.Logic.Function.Basic

/-!
# Sequential and simultaneous assignment

A list of assignments `x := e`, where `e` reads the whole store. `seqAssign`
performs them one after the other, `parAssign` evaluates every right-hand side
in the store before the first one. For distinct targets the two agree exactly
when no right-hand side depends on an earlier target.
-/

namespace Jhc.Lib

variable {ν α : Type*} [DecidableEq ν]

abbrev Assignment (ν α : Type*) := ν × ((ν → α) → α)

def seqAssign : List (Assignment ν α) → (ν → α) → ν → α
  | [], σ => σ
  | (x, e) :: as, σ => seqAssign as (Function.update σ x (e σ))

def parAssign (as : List (Assignment ν α)) (σ : ν → α) : ν → α :=
  as.foldl (fun τ a => Function.update τ a.1 (a.2 σ)) σ

attribute [local grind =] seqAssign

theorem seqAssign_append (as bs : List (Assignment ν α)) (σ : ν → α) :
    seqAssign (as ++ bs) σ = seqAssign bs (seqAssign as σ) := by
  induction as generalizing σ with
  | nil => rfl
  | cons a as ih => exact ih _

theorem parAssign_concat (as : List (Assignment ν α)) (a : Assignment ν α) (σ : ν → α) :
    parAssign (as ++ [a]) σ = Function.update (parAssign as σ) a.1 (a.2 σ) := by
  simp [parAssign, List.foldl_append]

theorem seqAssign_of_notMem {as : List (Assignment ν α)} {x : ν} (h : x ∉ as.map Prod.fst)
    (σ : ν → α) : seqAssign as σ x = σ x := by
  induction as generalizing σ with
  | nil => rfl
  | cons a as ih =>
    simp only [List.map_cons, List.mem_cons, not_or] at h
    rw [seqAssign, ih h.2, Function.update_of_ne h.1]

theorem parAssign_of_notMem {as : List (Assignment ν α)} {x : ν} (h : x ∉ as.map Prod.fst)
    (σ : ν → α) : parAssign as σ x = σ x := by
  induction as using List.reverseRecOn with
  | nil => rfl
  | append_singleton as a ih =>
    simp only [List.map_append, List.map_cons, List.map_nil, List.mem_append, List.mem_singleton,
      not_or] at h
    rw [parAssign_concat, Function.update_of_ne h.2, ih h.1]

theorem parAssign_of_mem {as : List (Assignment ν α)} (hnd : (as.map Prod.fst).Nodup)
    {a : Assignment ν α} (ha : a ∈ as) (σ : ν → α) : parAssign as σ a.1 = a.2 σ := by
  induction as using List.reverseRecOn with
  | nil => simp at ha
  | append_singleton as b ih =>
    rw [List.map_append, List.nodup_append] at hnd
    obtain ⟨hfront, -, hdis⟩ := hnd
    rw [parAssign_concat]
    rcases List.mem_append.mp ha with ha | ha
    · have hne : a.1 ≠ b.1 := hdis _ (List.mem_map_of_mem ha) _ (by simp)
      rw [Function.update_of_ne hne, ih hfront ha]
    · rw [List.mem_singleton] at ha
      subst ha
      rw [Function.update_self]

theorem seqAssign_split {pre post : List (Assignment ν α)} {x : ν} {e : (ν → α) → α}
    (hx : x ∉ post.map Prod.fst) (σ : ν → α) :
    seqAssign (pre ++ (x, e) :: post) σ x = e (seqAssign pre σ) := by
  rw [seqAssign_append, seqAssign, seqAssign_of_notMem hx, Function.update_self]

def Simultaneous (as : List (Assignment ν α)) (σ : ν → α) : Prop :=
  ∀ a ∈ as, seqAssign as σ a.1 = a.2 σ

/-- No right-hand side changes its value when the earlier targets get theirs. -/
def Independent (as : List (Assignment ν α)) (σ : ν → α) : Prop :=
  ∀ pre a post, as = pre ++ a :: post → a.2 (parAssign pre σ) = a.2 σ

theorem Independent.front {as bs : List (Assignment ν α)} {σ : ν → α}
    (h : Independent (as ++ bs) σ) : Independent as σ := by
  rintro pre a post rfl
  exact h pre a (post ++ bs) (by simp)

theorem Independent.seqAssign_eq {as : List (Assignment ν α)} {σ : ν → α}
    (h : Independent as σ) : seqAssign as σ = parAssign as σ := by
  induction as using List.reverseRecOn with
  | nil => rfl
  | append_singleton as a ih =>
    have hlast : a.2 (parAssign as σ) = a.2 σ := h as a [] (by simp)
    rw [seqAssign_append, ih h.front, parAssign_concat, seqAssign, seqAssign, hlast]

omit [DecidableEq ν] in
theorem notMem_of_nodup {pre post : List (Assignment ν α)} {a : Assignment ν α}
    (h : ((pre ++ a :: post).map Prod.fst).Nodup) :
    a.1 ∉ post.map Prod.fst ∧ (pre.map Prod.fst).Nodup ∧ a.1 ∉ pre.map Prod.fst := by
  rw [List.map_append, List.map_cons, List.nodup_append] at h
  obtain ⟨hpre, hpost, hdis⟩ := h
  exact ⟨(List.nodup_cons.mp hpost).1, hpre, fun hm => hdis _ hm _ (List.mem_cons_self ..) rfl⟩

theorem Simultaneous.front {as bs : List (Assignment ν α)} {σ : ν → α}
    (hnd : ((as ++ bs).map Prod.fst).Nodup) (h : Simultaneous (as ++ bs) σ) :
    Simultaneous as σ := by
  intro a ha
  have hval := h a (List.mem_append_left _ ha)
  rw [List.map_append, List.nodup_append] at hnd
  have hout : a.1 ∉ bs.map Prod.fst :=
    fun hm => hnd.2.2 _ (List.mem_map_of_mem ha) _ hm rfl
  rwa [seqAssign_append, seqAssign_of_notMem hout] at hval

/-- For distinct targets, assigning in order is simultaneous exactly when the
assignments are independent. -/
theorem simultaneous_iff {as : List (Assignment ν α)} (hnd : (as.map Prod.fst).Nodup)
    (σ : ν → α) : Simultaneous as σ ↔ Independent as σ := by
  constructor
  · intro h
    induction as using List.reverseRecOn with
    | nil =>
      intro pre a post hsplit
      simp at hsplit
    | append_singleton as b ih =>
      have hndfront := (notMem_of_nodup hnd).2.1
      have hfront : Independent as σ := ih hndfront (h.front hnd)
      intro pre a post hsplit
      rcases List.eq_nil_or_concat post with rfl | ⟨post, c, rfl⟩
      · obtain ⟨rfl, hab⟩ := List.append_inj' hsplit rfl
        have hba : b = a := by simpa using hab
        subst hba
        have hval := h b (by simp)
        rwa [seqAssign_split (e := b.2) (by simp), hfront.seqAssign_eq] at hval
      · have hsplit' : as ++ [b] = (pre ++ a :: post) ++ [c] := by simpa using hsplit
        obtain ⟨has, -⟩ := List.append_inj' hsplit' rfl
        exact hfront pre a post has
  · intro h a ha
    obtain ⟨pre, post, rfl⟩ := List.append_of_mem ha
    have hpre : Independent pre σ := h.front
    rw [seqAssign_split (notMem_of_nodup hnd).1, hpre.seqAssign_eq]
    exact h pre a post rfl

end Jhc.Lib

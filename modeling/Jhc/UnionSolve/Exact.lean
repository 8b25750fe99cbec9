import Mathlib.Data.List.Nodup
import Jhc.UnionSolve.Bounds

/-!
# When solve is right (src/Util/UnionSolve.hs:108-131, 259-290)

`solve` finds a disagreement of the constants around a variable only where their
bounds are comparable, so its answer is right just when no constants disagree or some
variable has bounds that cross.
-/

namespace Jhc.UnionSolve
open Fixable LawfulFixable Jhc.Lib Relation

variable {l v : Type}

/-! ### Variables and their elements -/

def CL.map {w : Type} (f : v → w) : CL l v → CL l w
  | .cv x op y => .cv (f x) op (f y)
  | .cl x op c => .cl (f x) op c

def CL.vars : CL l v → List v
  | .cv x _ y => [x, y]
  | .cl x _ _ => [x]

theorem CL.Pairs.vars {c : CL l v} {a b : v} (h : c.Pairs a b) : a ∈ c.vars ∧ b ∈ c.vars := by
  match c, h with
  | .cv x .lte y, ⟨ha, hb⟩ => simp [CL.vars, ha, hb]
  | .cv x .gte y, ⟨ha, hb⟩ => simp [CL.vars, ha, hb]
  | .cv x .eq y, .inl ⟨ha, hb⟩ => simp [CL.vars, ha, hb]
  | .cv x .eq y, .inr ⟨ha, hb⟩ => simp [CL.vars, ha, hb]

theorem CL.pairs_map {w : Type} {f : v → w} {c : CL l v} {i j : w} :
    (c.map f).Pairs i j ↔ ∃ a b, c.Pairs a b ∧ f a = i ∧ f b = j := by
  match c with
  | .cv x .lte y => simp [CL.map, CL.Pairs, eq_comm]
  | .cv x .gte y => simp [CL.map, CL.Pairs, eq_comm]
  | .cv x .eq y => 
    simp only [CL.map, CL.Pairs]
    constructor
    · rintro (⟨rfl, rfl⟩ | ⟨rfl, rfl⟩)
      · exact ⟨x, y, Or.inl ⟨rfl, rfl⟩, rfl, rfl⟩
      · exact ⟨y, x, Or.inr ⟨rfl, rfl⟩, rfl, rfl⟩
    · rintro ⟨a, b, ⟨rfl, rfl⟩ | ⟨rfl, rfl⟩, rfl, rfl⟩
      · exact Or.inl ⟨rfl, rfl⟩
      · exact Or.inr ⟨rfl, rfl⟩
  | .cl x op c => simp [CL.map, CL.Pairs]

section Rename

variable {cs : List (CL l v)} {pcs : List (CL l ℕ)} {m : List v} {f : v → ℕ}

/-- `pcs` are the constraints over the elements of the variables in `m`. -/
structure Renamed (cs : List (CL l v)) (pcs : List (CL l ℕ)) (m : List v) (f : v → ℕ) : Prop where
  mem : ∀ c, c ∈ pcs ↔ ∃ c₀ ∈ cs, c₀.map f = c
  vars : ∀ c ∈ cs, ∀ x ∈ c.vars, x ∈ m
  inj : ∀ x ∈ m, ∀ y ∈ m, f x = f y → x = y

theorem Renamed.below (h : Renamed cs pcs m f) {i j : ℕ} :
    Below pcs i j ↔ ∃ x y, Below cs x y ∧ f x = i ∧ f y = j := by
  constructor
  · rintro ⟨c, hc, hpairs⟩
    obtain ⟨c₀, hc₀, rfl⟩ := (h.mem c).mp hc
    obtain ⟨a, b, hab, ha, hb⟩ := CL.pairs_map.mp hpairs
    exact ⟨a, b, ⟨c₀, hc₀, hab⟩, ha, hb⟩
  · rintro ⟨x, y, ⟨c₀, hc₀, hxy⟩, rfl, rfl⟩
    exact ⟨_, (h.mem _).mpr ⟨c₀, hc₀, rfl⟩, CL.pairs_map.mpr ⟨x, y, hxy, rfl, rfl⟩⟩

theorem Renamed.below_mem (h : Renamed cs pcs m f) {x y : v} (hxy : Below cs x y) : x ∈ m ∧ y ∈ m := by
  obtain ⟨c, hc, hpairs⟩ := hxy
  exact ⟨h.vars c hc x hpairs.vars.1, h.vars c hc y hpairs.vars.2⟩

theorem Renamed.path (h : Renamed cs pcs m f) {x y : v} (hxy : ReflTransGen (Below cs) x y) :
    ReflTransGen (Below pcs) (f x) (f y) :=
  hxy.lift f fun a b hab => h.below.mpr ⟨a, b, hab, rfl, rfl⟩

/-- A path between elements is one between variables, read from either end. -/
theorem Renamed.path_from (h : Renamed cs pcs m f) {x : v} (hx : x ∈ m) {j : ℕ}
    (hxj : ReflTransGen (Below pcs) (f x) j) :
    ∃ y ∈ m, f y = j ∧ ReflTransGen (Below cs) x y := by
  induction hxj with
  | refl => exact ⟨x, hx, rfl, .refl⟩
  | tail _ hstep ih =>
    obtain ⟨y, hy, rfl, hxy⟩ := ih
    obtain ⟨y', z, hyz, heq, hz⟩ := h.below.mp hstep
    have hmem := h.below_mem hyz
    cases h.inj y' hmem.1 y hy heq
    exact ⟨z, hmem.2, hz, hxy.tail hyz⟩

theorem Renamed.path_iff (h : Renamed cs pcs m f) {x y : v} (hx : x ∈ m) (hy : y ∈ m) :
    ReflTransGen (Below pcs) (f x) (f y) ↔ ReflTransGen (Below cs) x y := by
  constructor
  · intro hpath
    obtain ⟨z, hz, heq, hxz⟩ := h.path_from hx hpath
    exact h.inj z hz y hy heq ▸ hxz
  · exact h.path

theorem Renamed.literal (h : Renamed cs pcs m f) {i : ℕ} {op : Op} {c : l} :
    .cl i op c ∈ pcs ↔ ∃ x ∈ m, f x = i ∧ .cl x op c ∈ cs := by
  constructor
  · intro hc
    obtain ⟨c₀, hc₀, heq⟩ := (h.mem _).mp hc
    cases c₀ with
    | cv x op y => cases heq
    | cl x op c =>
      cases heq
      exact ⟨x, h.vars _ hc₀ x List.mem_cons_self, rfl, hc₀⟩
  · rintro ⟨x, -, rfl, hc⟩
    exact (h.mem _).mpr ⟨_, hc, rfl⟩

theorem Renamed.literals (h : Renamed cs pcs m f) {i : ℕ} {op op' : Op} {c : l} :
    (.cl i op c ∈ pcs ∨ .cl i op' c ∈ pcs) ↔
      ∃ x ∈ m, f x = i ∧ (.cl x op c ∈ cs ∨ .cl x op' c ∈ cs) := by
  rw [h.literal, h.literal]
  constructor
  · rintro (⟨x, hx, hi, hc⟩ | ⟨x, hx, hi, hc⟩)
    · exact ⟨x, hx, hi, Or.inl hc⟩
    · exact ⟨x, hx, hi, Or.inr hc⟩
  · rintro ⟨x, hx, hi, hc | hc⟩
    · exact Or.inl ⟨x, hx, hi, hc⟩
    · exact Or.inr ⟨x, hx, hi, hc⟩

theorem Renamed.literal_mem (h : Renamed cs pcs m f) {x : v} {op op' : Op} {c : l}
    (hor : .cl x op c ∈ cs ∨ .cl x op' c ∈ cs) : x ∈ m := by
  cases hor with
  | inl hc => exact h.vars _ hc x List.mem_cons_self
  | inr hc => exact h.vars _ hc x List.mem_cons_self

theorem Renamed.lowers_eq (h : Renamed cs pcs m f) {x : v} (hx : x ∈ m) :
    lowers pcs (f x) = lowers cs x := by
  ext a
  constructor
  · rintro ⟨i, hpath, hor⟩
    obtain ⟨u, hu, rfl, hmem⟩ := h.literals.mp hor
    exact ⟨u, (h.path_iff hu hx).mp hpath, hmem⟩
  · rintro ⟨u, hpath, hor⟩
    exact ⟨f u, h.path hpath, h.literals.mpr ⟨u, h.literal_mem hor, rfl, hor⟩⟩

theorem Renamed.uppers_eq (h : Renamed cs pcs m f) {x : v} (hx : x ∈ m) :
    uppers pcs (f x) = uppers cs x := by
  ext a
  constructor
  · rintro ⟨i, hpath, hor⟩
    obtain ⟨u, hu, rfl, hmem⟩ := h.literals.mp hor
    exact ⟨u, (h.path_iff hx hu).mp hpath, hmem⟩
  · rintro ⟨u, hpath, hor⟩
    exact ⟨f u, h.path hpath, h.literals.mpr ⟨u, h.literal_mem hor, rfl, hor⟩⟩

/-- A variable with a lower constant has an element, and so do elements with one. -/
theorem Renamed.lower_mem (h : Renamed cs pcs m f) {x : v} {a : l} (ha : a ∈ lowers cs x) : x ∈ m := by
  obtain ⟨u, hpath, hor⟩ := ha
  cases hpath with
  | refl => exact h.literal_mem hor
  | tail _ hstep => exact (h.below_mem hstep).2

theorem Renamed.lower_element (h : Renamed cs pcs m f) {i : ℕ} {a : l} (ha : a ∈ lowers pcs i) :
    ∃ x ∈ m, f x = i := by
  obtain ⟨j, hpath, hor⟩ := ha
  obtain ⟨u, hu, rfl, -⟩ := h.literals.mp hor
  obtain ⟨x, hx, hi, -⟩ := h.path_from hu hpath
  exact ⟨x, hx, hi⟩

theorem Renamed.crossed [Lattice l] (h : Renamed cs pcs m f) :
    (∃ i, Crossed pcs i) ↔ ∃ x, Crossed cs x := by
  constructor
  · rintro ⟨i, hi⟩
    obtain ⟨⟨a, ha, -⟩, -⟩ := id hi
    obtain ⟨x, hx, rfl⟩ := h.lower_element ha
    unfold Crossed at hi
    rw [h.lowers_eq hx, h.uppers_eq hx] at hi
    exact ⟨x, hi⟩
  · rintro ⟨x, hcross⟩
    obtain ⟨⟨a, ha, -⟩, -⟩ := id hcross
    refine ⟨f x, ?_⟩
    unfold Crossed
    rw [h.lowers_eq (h.lower_mem ha), h.uppers_eq (h.lower_mem ha)]
    exact hcross

end Rename

/-! ### prepareConstraints -/

section Prepare

variable [DecidableEq v]

theorem element_spec (x : v) (m : List v) : m <+: (element x m).2 ∧ x ∈ (element x m).2 ∧
    (element x m).1 = (element x m).2.idxOf x ∧ (m.Nodup → (element x m).2.Nodup) := by
  unfold element
  split_ifs with hx
  · exact ⟨List.prefix_rfl, hx, rfl, id⟩
  · refine ⟨List.prefix_append m [x], by simp, ?_, fun hm => ?_⟩
    · simp [List.idxOf_append_of_notMem hx]
    · exact List.Nodup.append hm (List.nodup_singleton x) (by simpa using hx)

theorem idxOf_extended {m m' : List v} (h : m <+: m') {x : v} (hx : x ∈ m) :
    m'.idxOf x = m.idxOf x := by
  obtain ⟨t, rfl⟩ := h
  exact List.idxOf_append_of_mem hx

/-- The elements are numbered as the variables come up, and keep their numbers. -/
theorem prepare_spec (cs : List (CL l v)) (m : List v) (rs : List (CL l ℕ)) :
    m <+: (prepareConstraints cs m rs).2 ∧
      (m.Nodup → (prepareConstraints cs m rs).2.Nodup) ∧
      (∀ c ∈ cs, ∀ x ∈ c.vars, x ∈ (prepareConstraints cs m rs).2) ∧
      (prepareConstraints cs m rs).1 =
        (cs.map (CL.map (prepareConstraints cs m rs).2.idxOf)).reverse ++ rs := by
  induction cs generalizing m rs with
  | nil => exact ⟨List.prefix_rfl, id, nofun, rfl⟩
  | cons c cs ih =>
    cases c with
    | cl x op c =>
      obtain ⟨hpre, hx, hidx, hnodup⟩ := element_spec x m
      obtain ⟨hpre', hnodup', hvars, heq⟩ := ih (element x m).2 (.cl (element x m).1 op c :: rs)
      refine ⟨hpre.trans hpre', hnodup' ∘ hnodup, fun d hd y hy => ?_, heq.trans ?_⟩
      · cases List.mem_cons.mp hd with
        | inl heq =>
          subst heq
          cases List.mem_singleton.mp hy
          exact hpre'.subset hx
        | inr hmem => exact hvars d hmem y hy
      · have hnum := hidx.trans (idxOf_extended hpre' hx).symm
        rw [List.map_cons, List.reverse_cons, List.append_assoc]
        exact congrArg (fun e => _ ++ .cl e op c :: rs) hnum
    | cv x op y =>
      obtain ⟨hpre, hx, hidx, hnodup⟩ := element_spec x m
      obtain ⟨hpre₁, hy, hidy, hnodup₁⟩ := element_spec y (element x m).2
      obtain ⟨hpre', hnodup', hvars, heq⟩ := ih (element y (element x m).2).2
        (.cv (element x m).1 op (element y (element x m).2).1 :: rs)
      refine ⟨hpre.trans (hpre₁.trans hpre'), hnodup' ∘ hnodup₁ ∘ hnodup, fun d hd z hz => ?_,
        heq.trans ?_⟩
      · cases List.mem_cons.mp hd with
        | inl heq =>
          subst heq
          cases List.mem_cons.mp hz with
          | inl hzx => exact hzx ▸ (hpre₁.trans hpre').subset hx
          | inr hzy => exact List.mem_singleton.mp hzy ▸ hpre'.subset hy
        | inr hmem => exact hvars d hmem z hz
      · have hnum := hidx.trans (idxOf_extended (hpre₁.trans hpre') hx).symm
        have hnum' := hidy.trans (idxOf_extended hpre' hy).symm
        rw [List.map_cons, List.reverse_cons, List.append_assoc]
        exact congrArg₂ (fun e e' => _ ++ .cv e op e' :: rs) hnum hnum'

theorem prepare_renamed (cs : List (CL l v)) :
    Renamed cs (prepareConstraints cs [] []).1 (prepareConstraints cs [] []).2
      (prepareConstraints cs [] []).2.idxOf := by
  obtain ⟨-, -, hvars, heq⟩ := prepare_spec cs [] []
  refine ⟨fun c => ?_, hvars, fun x hx y _ => (List.idxOf_inj hx).mp⟩
  rw [heq, List.append_nil, List.mem_reverse, List.mem_map]

theorem prepare_bounded (cs : List (CL l v)) : ∀ c ∈ (prepareConstraints cs [] []).1,
    c.Bounded (prepareConstraints cs [] []).2.length := by
  intro c hc
  have hren := prepare_renamed cs
  obtain ⟨c₀, hc₀, rfl⟩ := (hren.mem c).mp hc
  have hidx := fun x hx => List.idxOf_lt_length_of_mem (hren.vars c₀ hc₀ x hx)
  cases c₀ with
  | cv x op y => exact ⟨hidx x List.mem_cons_self, hidx y (List.mem_cons_of_mem x List.mem_cons_self)⟩
  | cl x op c => exact hidx x List.mem_cons_self

end Prepare

/-! ### The result -/

/-- The bounds of a result; a value is both. -/
def Result.low {a : Type} : Result l a → WithBot l
  | .just _ c => c
  | .bounded _ lb _ _ _ => lb

def Result.high {a : Type} : Result l a → WithTop l
  | .just _ c => c
  | .bounded _ _ ub _ _ => ub

/-- What the result says of a variable, through its representative. -/
def valueOf [DecidableEq v] (res : List (v × v) × List (v × Result l v)) (x : v) :
    Option (Result l v) :=
  (res.1.lookup x).bind fun rep => res.2.lookup rep

section Results

variable [DecidableEq v] {m : List v} {s : UF l}

theorem lookup_eq {β : Type} {ps : List (v × β)} {x : v} {b : β} (hmem : (x, b) ∈ ps)
    (huniq : ∀ b', (x, b') ∈ ps → b' = b) : ps.lookup x = some b := by
  cases hl : ps.lookup x with
  | none =>
    have hne := List.lookup_eq_none_iff.mp hl (x, b) hmem
    simp at hne
  | some b' =>
    obtain ⟨l₁, l₂, rfl, -⟩ := List.lookup_eq_some_iff.mp hl
    rw [huniq b' (List.mem_append_right _ List.mem_cons_self)]

omit [DecidableEq v] in
theorem result_spec {e : ℕ} {rep : v} {r : Result l v} (h : result m s e = some (rep, r)) :
    m[s.root e]? = some rep ∧ r.low = (s.getW e).low ∧ r.high = (s.getW e).up := by
  unfold result at h
  obtain ⟨rep', hrep, heq⟩ := Option.map_eq_some_iff.mp h
  cases hget : s.getW e with
  | r c =>
    rw [hget] at heq
    cases heq
    exact ⟨hrep, rfl, rfl⟩
  | ri ml lb mu ub =>
    rw [hget] at heq
    cases heq
    exact ⟨hrep, rfl, rfl⟩

omit [DecidableEq v] in
/-- Two elements with one representative have one result. -/
theorem result_unique (hm : m.Nodup) {e e' : ℕ} {rep : v} {r r' : Result l v}
    (h : result m s e = some (rep, r)) (h' : result m s e' = some (rep, r')) : r = r' := by
  have hrep := (result_spec h).1
  have hrep' := (result_spec h').1
  have hroot : s.root e = s.root e' := by
    obtain ⟨hlt, hget⟩ := List.getElem?_eq_some_iff.mp hrep
    obtain ⟨hlt', hget'⟩ := List.getElem?_eq_some_iff.mp hrep'
    exact (hm.getElem_inj_iff).mp (hget.trans hget'.symm)
  have hsame : result m s e = result m s e' := by
    unfold result UF.getW
    rw [hroot]
  rw [hsame, h'] at h
  cases h
  rfl

/-- The result of a variable is the record of its class. -/
theorem results_value (hm : m.Nodup) (hroot : ∀ e < m.length, s.root e < m.length) {x : v}
    (hx : x ∈ m) : ∃ r, valueOf (results m s) x = some r ∧ r.low = (s.getW (m.idxOf x)).low ∧
      r.high = (s.getW (m.idxOf x)).up := by
  have hlt := hroot _ (List.idxOf_lt_length_of_mem hx)
  obtain ⟨⟨rep, r⟩, hres⟩ : ∃ p, result m s (m.idxOf x) = some p := by
    unfold result
    rw [List.getElem?_eq_getElem hlt]
    exact ⟨_, rfl⟩
  refine ⟨r, ?_, (result_spec hres).2⟩
  have hmem : ∀ a p, (a, p) ∈ m.filterMap (fun a => (result m s (m.idxOf a)).map fun r => (a, r)) ↔
      a ∈ m ∧ result m s (m.idxOf a) = some p := by
    intro a p
    simp only [List.mem_filterMap, Option.map_eq_some_iff, Prod.mk.injEq]
    constructor
    · rintro ⟨a', ha', p', hp', rfl, rfl⟩
      exact ⟨ha', hp'⟩
    · rintro ⟨ha, hp⟩
      exact ⟨a, ha, p, hp, rfl, rfl⟩
  have hrep : (results m s).1.lookup x = some rep := by
    apply lookup_eq
    · exact List.mem_map.mpr ⟨(x, rep, r), (hmem x (rep, r)).mpr ⟨hx, hres⟩, rfl⟩
    · intro rep' hrep'
      obtain ⟨⟨a, rep₀, r₀⟩, ha, heq⟩ := List.mem_map.mp hrep'
      cases heq
      have hres' := ((hmem _ _).mp ha).2
      rw [hres] at hres'
      cases hres'
      rfl
  have hval : (results m s).2.lookup rep = some r := by
    apply lookup_eq
    · exact List.mem_map.mpr ⟨(x, rep, r), (hmem x (rep, r)).mpr ⟨hx, hres⟩, rfl⟩
    · intro r' hr'
      obtain ⟨⟨a, rep₀, r₀⟩, ha, heq⟩ := List.mem_map.mp hr'
      cases heq
      exact result_unique hm ((hmem a _).mp ha).2 hres
  unfold valueOf
  rw [hrep]
  exact hval

theorem results_mem {x : v} {r : Result l v} (h : valueOf (results m s) x = some r) : x ∈ m := by
  obtain ⟨rep, hrep, -⟩ := Option.bind_eq_some_iff.mp h
  obtain ⟨l₁, l₂, heq, -⟩ := List.lookup_eq_some_iff.mp hrep
  have hmem : (x, rep) ∈ (results m s).1 := heq ▸ List.mem_append_right _ List.mem_cons_self
  obtain ⟨⟨a, p⟩, ha, hp⟩ := List.mem_map.mp hmem
  obtain ⟨a', ha', hmap⟩ := List.mem_filterMap.mp ha
  obtain ⟨p', -, heq'⟩ := Option.map_eq_some_iff.mp hmap
  cases heq'
  cases hp
  exact ha'

end Results

section Solves

variable [Lattice l] [DecidableEq v]

/-- The bounds that the result gives satisfy a constraint. -/
def CL.HoldsIn (res : List (v × v) × List (v × Result l v)) : CL l v → Prop
  | .cv x op y => ∃ r r', valueOf res x = some r ∧ valueOf res y = some r' ∧
      match op with
      | .lte => r.low ≤ r'.low ∧ r.high ≤ r'.high
      | .eq => r.low = r'.low ∧ r.high = r'.high
      | .gte => r'.low ≤ r.low ∧ r'.high ≤ r.high
  | .cl x op c => ∃ r, valueOf res x = some r ∧
      match op with
      | .lte => r.high ≤ c
      | .eq => r.low = c ∧ r.high = c
      | .gte => c ≤ r.low

/-- The result is right: its bounds satisfy the constraints and leave out no solution. -/
structure Solves (cs : List (CL l v)) (res : List (v × v) × List (v × Result l v)) : Prop where
  holds : ∀ c ∈ cs, c.HoldsIn res
  within : ∀ σ : v → l, Satisfies σ cs → ∀ x r, valueOf res x = some r →
    r.low ≤ (σ x : WithBot l) ∧ (σ x : WithTop l) ≤ r.high

/-- The bounds of the second phase are right for the variables. -/
theorem solves_of_inv {cs : List (CL l v)} {pcs : List (CL l ℕ)} {m : List v} {g s : UF l}
    (hren : Renamed cs pcs m m.idxOf) (hm : m.Nodup) (hg : Graph (Below pcs) g)
    (hbound : ∀ x y, Below pcs x y → x < m.length ∧ y < m.length) (hc : Covers (Below pcs) g)
    (h : Inv pcs m.length g s []) (hmeets : ∀ x op c, .cl x op c ∈ pcs → (s.getW x).Meets op c) :
    Solves cs (results m s) := by
  have hroot : ∀ e < m.length, s.root e < m.length := fun e he => by
    rw [h.root]
    exact below_bound hbound he (hg.merged e).1
  have hvalue := fun x hx => results_value (x := x) hm hroot hx
  have hle : ∀ x y, x ∈ m → y ∈ m → Below cs x y → ∃ r r', valueOf (results m s) x = some r ∧
      valueOf (results m s) y = some r' ∧ r.low ≤ r'.low ∧ r.high ≤ r'.high := by
    intro x y hx hy hxy
    obtain ⟨r, hr, hlow, hhigh⟩ := hvalue x hx
    obtain ⟨r', hr', hlow', hhigh'⟩ := hvalue y hy
    have hpath : ReflTransGen (Below pcs) (m.idxOf x) (m.idxOf y) := hren.path (.single hxy)
    refine ⟨r, r', hr, hr', ?_, ?_⟩
    · rw [hlow, hlow']
      cases ha : (s.getW (m.idxOf x)).low with
      | none => exact bot_le
      | some a =>
        obtain ⟨a', ha', hle⟩ := (h.along hc hpath a).1 ⟨a, ha, le_rfl⟩
        rw [ha']
        exact WithBot.coe_le_coe.mpr hle
    · rw [hhigh, hhigh']
      cases hb : (s.getW (m.idxOf y)).up with
      | none => exact le_top
      | some b =>
        obtain ⟨b', hb', hle⟩ := (h.along hc hpath b).2 ⟨b, hb, le_rfl⟩
        rw [hb']
        exact WithTop.coe_le_coe.mpr hle
  refine ⟨fun c hc' => ?_, fun σ hσ x r hr => ?_⟩
  · cases c with
    | cv x op y =>
      have hx := hren.vars _ hc' x List.mem_cons_self
      have hy := hren.vars _ hc' y (List.mem_cons_of_mem x List.mem_cons_self)
      cases op with
      | lte => exact hle x y hx hy ⟨_, hc', rfl, rfl⟩
      | eq =>
        obtain ⟨r, r', hr, hr', hlow, hhigh⟩ := hle x y hx hy ⟨_, hc', Or.inl ⟨rfl, rfl⟩⟩
        obtain ⟨r₁', r₁, hr₁', hr₁, hlow', hhigh'⟩ := hle y x hy hx ⟨_, hc', Or.inr ⟨rfl, rfl⟩⟩
        cases hr.symm.trans hr₁
        cases hr'.symm.trans hr₁'
        exact ⟨r, r', hr, hr', le_antisymm hlow hlow', le_antisymm hhigh hhigh'⟩
      | gte =>
        obtain ⟨r, r', hr, hr', hbounds⟩ := hle y x hy hx ⟨_, hc', rfl, rfl⟩
        exact ⟨r', r, hr', hr, hbounds⟩
    | cl x op c =>
      obtain ⟨r, hr, hlow, hhigh⟩ := hvalue x (hren.vars _ hc' x List.mem_cons_self)
      have hmeet := hmeets (m.idxOf x) op c ((hren.mem _).mpr ⟨_, hc', rfl⟩)
      refine ⟨r, hr, ?_⟩
      rw [hlow, hhigh]
      cases op with
      | lte =>
        obtain ⟨b, hb, hble⟩ := hmeet
        rw [hb]
        exact WithTop.coe_le_coe.mpr hble
      | eq =>
        have heq : s.getW (m.idxOf x) = .r c := hmeet
        rw [heq]
        exact ⟨rfl, rfl⟩
      | gte =>
        obtain ⟨a, ha, hale⟩ := hmeet
        rw [ha]
        exact WithBot.coe_le_coe.mpr hale
  · have hx := results_mem hr
    obtain ⟨r', hr', hlow, hhigh⟩ := hvalue x hx
    cases hr.symm.trans hr'
    have hvalid := h.valid (m.idxOf x)
    rw [hren.lowers_eq hx, hren.uppers_eq hx] at hvalid
    rw [hlow, hhigh]
    constructor
    · cases ha : (s.getW (m.idxOf x)).low with
      | none => exact bot_le
      | some a => exact WithBot.coe_le_coe.mpr (hvalid.1 a ha (σ x) fun c hc' _ => hσ.lower hc')
    · cases hb : (s.getW (m.idxOf x)).up with
      | none => exact le_top
      | some b => exact WithTop.coe_le_coe.mpr (hvalid.2 b hb (σ x) fun c hc' _ => hσ.upper hc')

theorem solve_spec [Fixable l] [LawfulFixable l] (cs : List (CL l v)) : ∃ N, ∀ fuel ≥ N,
    Ensures (solve fuel cs) (fun res => Solves cs res ∧ ¬∃ x, Crossed cs x) (∃ x, Crossed cs x)
      False := by
  have hren := prepare_renamed cs
  have hbounded := prepare_bounded cs
  obtain ⟨-, hnodup, -, -⟩ := prepare_spec cs [] []
  set pcs := (prepareConstraints cs [] []).1
  set m := (prepareConstraints cs [] []).2
  have hbelow : ∀ x y, Below pcs x y → x < m.length ∧ y < m.length := by
    rintro x y ⟨c, hc, hxy⟩
    exact hxy.bounded (hbounded c hc)
  refine ⟨2 * m.length + 2 + (2 * (m.length * (2 * (consts pcs).length + 3)) + 2), fun fuel hfuel => ?_⟩
  show Ensures (pcs.foldlM (procVar fuel) (UF.init l) >>= fun s =>
    pcs.foldlM (procLit fuel) s >>= fun s => .ok (results m s)) _ _ _
  have hfuel₁ : 2 * m.length + 2 ≤ fuel := by omega
  have hvars := procVars_spec hbounded hfuel₁
  refine Ensures.bind (hvars.mono (fun _ h => h) False.elim id) fun g hg => ?_
  obtain ⟨hg, hc⟩ := hg
  have hfuel₂ : 2 * (m.length * (2 * (consts pcs).length + 3)) + 2 ≤ fuel := by omega
  have hlits := procLits_spec hbounded hg hfuel₂
  refine Ensures.bind (hlits.mono (fun _ h => h) hren.crossed.mp id) fun s hs => ?_
  obtain ⟨hinv, hmeets⟩ := hs
  refine ⟨solves_of_inv hren (hnodup List.nodup_nil) hg hbelow hc hinv hmeets, fun hcross => ?_⟩
  obtain ⟨i, hi⟩ := hren.crossed.mpr hcross
  exact hinv.not_crossed hc hmeets i hi

end Solves

section Exact

variable [Lattice l] [DecidableEq v] [Fixable l]

/-- `solve` returns just when there is a solution, and what it returns is right. -/
def SolveCorrect (fuel : ℕ) (cs : List (CL l v)) : Prop :=
  ((∃ res, solve fuel cs = .ok res) ↔ Satisfiable cs) ∧
    ∀ res, solve fuel cs = .ok res → Solves cs res

theorem solve_correct_iff [LawfulFixable l] [Nonempty l] (cs : List (CL l v)) : ∃ N, ∀ fuel ≥ N,
    solve fuel cs ≠ .error .outOfFuel ∧
      (SolveCorrect fuel cs ↔ Agree cs ∨ ∃ x, Crossed cs x) := by
  obtain ⟨N, hN⟩ := solve_spec cs
  refine ⟨N, fun fuel hfuel => ?_⟩
  have hspec := hN fuel hfuel
  unfold SolveCorrect
  rw [satisfiable_iff_agree]
  match solve fuel cs, hspec with
  | .ok res, ⟨hsolves, hnot⟩ =>
    refine ⟨nofun, fun h => Or.inl (h.1.mp ⟨res, rfl⟩), fun hor => ⟨⟨fun _ => ?_, fun _ => ⟨res, rfl⟩⟩, ?_⟩⟩
    · exact hor.resolve_right hnot
    · intro res' heq
      cases heq
      exact hsolves
  | .error .fail, hcross =>
    refine ⟨nofun, fun _ => Or.inr hcross, fun _ => ⟨⟨nofun, fun hagree => ?_⟩, nofun⟩⟩
    obtain ⟨x, hx⟩ := hcross
    exact absurd hagree hx.not_agree

/-- A variable between two constants that are not comparable. -/
def disjointBounds : List (CL (Finset ℕ) ℕ) := [.cl 0 .gte {1}, .cl 0 .lte {2}]

theorem solve_disjoint_wrong : ¬SolveCorrect 5 disjointBounds := by
  intro h
  obtain ⟨σ, hσ⟩ := h.1.mp ⟨_, rfl⟩
  have hlow : {1} ⊆ σ 0 := hσ (.cl 0 .gte {1}) (by simp [disjointBounds])
  have hhigh : σ 0 ⊆ {2} := hσ (.cl 0 .lte {2}) (by simp [disjointBounds])
  have hsub : ({1} : Finset ℕ) ⊆ {2} := hlow.trans hhigh
  exact absurd hsub (by decide)

/-- `1 <= x <= y <= 5` -/
def ascending : List (CL ℤ ℕ) := [.cl 0 .gte 1, .cv 0 .lte 1, .cl 1 .lte 5]

theorem solve_correct_iff_ascending : ∃ N, ∀ fuel ≥ N, solve fuel ascending ≠ .error .outOfFuel ∧
    (SolveCorrect fuel ascending ↔ Agree ascending ∨ ∃ x, Crossed ascending x) :=
  solve_correct_iff ascending

end Exact

end Jhc.UnionSolve
